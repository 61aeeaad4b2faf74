import SecureIpc.Run.Processes

/-!
Kernel and audit log together: besides acts, a program pushes events, each with an observation in
the trace. The rules of the facade say exactly what is logged.
-/

namespace SecureIpc
open Lib

section
variable {P : Platform} {α β : Type} {k : Kernel P} {s s' : System P} {id : Nat} {task : TaskControlBlock}

inductive SystemAct : System P → System P → Prop where
  | kernel {s : System P} {k' : Kernel P} (act : Act s.kernel k') : SystemAct s { s with kernel := k' }
  | record {s : System P} {event : AuditEvent} {auditRing : AuditRing} (pushed : s.auditRing.push event = .ok auditRing) :
      SystemAct s ⟨s.kernel.observe (.recorded event), auditRing⟩

abbrev SystemActs : System P → System P → Prop := Relation.ReflTransGen SystemAct

theorem Sound.observe (sound : Sound k) (observation : Observation) : Sound (k.observe observation) where
  table := sound.table
  task looked := by
    obtain ⟨accounted, files, point, signals, backup, confined⟩ := sound.task looked
    exact ⟨accounted, files, point, signals, backup, confined⟩
  pipes := ⟨sound.pipes.rings, sound.pipes.fresh⟩
  isolated := sound.isolated.congr rfl rfl rfl rfl
  flights := sound.flights.observe sound.isolated observation

theorem SystemAct.sound (act : SystemAct s s') (sound : Sound s.kernel) : Sound s'.kernel := by
  cases act with
  | kernel act => exact act.sound sound
  | record => exact sound.observe _

theorem SystemActs.sound (acts : SystemActs s s') (sound : Sound s.kernel) : Sound s'.kernel := by
  induction acts with
  | refl => exact sound
  | tail _ act ih => exact act.sound ih

theorem Acts.system {k' : Kernel P} (acts : Acts s.kernel k') : SystemActs s { s with kernel := k' } :=
  acts.lift (fun k => ({ s with kernel := k } : System P)) fun _ _ act => SystemAct.kernel act

/-- An act of a trap: besides those of a program, a system call is entered, or it returns and has been
audited as it should be. -/
inductive TrapAct : System P → System P → Prop where
  | act {s s' : System P} (act : SystemAct s s') : TrapAct s s'
  | entered {s : System P} (entry : Entry) : TrapAct s { s with kernel := s.kernel.observe (.entered entry) }
  | returned {s : System P} {id : Nat} {entry : Entry} {since : List Observation} {value : Int}
      (current : s.kernel.current = some id) (opened : openCall id s.kernel.trace = some (entry, since))
      (answered : Answered entry since value) : TrapAct s { s with kernel := s.kernel.observe (.returned value) }

abbrev TrapActs : System P → System P → Prop := Relation.ReflTransGen TrapAct

theorem SystemActs.trap (acts : SystemActs s s') : TrapActs s s' :=
  Relation.ReflTransGen.mono (fun _ _ act => .act act) _ _ acts

theorem TrapAct.sound (act : TrapAct s s') (sound : Sound s.kernel) : Sound s'.kernel := by
  cases act with
  | act act => exact act.sound sound
  | entered => exact sound.observe _
  | returned => exact sound.observe _

theorem TrapActs.sound (acts : TrapActs s s') (sound : Sound s.kernel) : Sound s'.kernel := by
  induction acts with
  | refl => exact sound
  | tail _ act ih => exact act.sound ih

inductive Noted (k : Kernel P) : Observation → Prop where
  | recorded (event : AuditEvent) : Noted k (.recorded event)
  | entered (entry : Entry) : Noted k (.entered entry)
  | returned {id : Nat} {entry : Entry} {since : List Observation} {value : Int} (current : k.current = some id)
      (opened : openCall id k.trace = some (entry, since)) (answered : Answered entry since value) : Noted k (.returned value)

theorem Noted.not_forked {observation : Observation} (noted : Noted k observation) (child : Nat) :
    observation ≠ .forked child := by
  cases noted <;> exact nofun

theorem Noted.not_exited {observation : Observation} (noted : Noted k observation) (code : Int) :
    observation ≠ .exited code := by
  cases noted <;> exact nofun

theorem Noted.not_reaped {observation : Observation} (noted : Noted k observation) (child : Nat) (code : Int) :
    observation ≠ .reaped child code := by
  cases noted <;> exact nofun

theorem TrapAct.cases (act : TrapAct s s') : Act s.kernel s'.kernel ∨
    ∃ observation, Noted s.kernel observation ∧ s'.kernel = s.kernel.observe observation := by
  cases act with
  | act act =>
    cases act with
    | kernel act => exact Or.inl act
    | @record event => exact Or.inr ⟨_, .recorded event, rfl⟩
  | entered entry => exact Or.inr ⟨_, .entered entry, rfl⟩
  | returned current opened answered => exact Or.inr ⟨_, .returned current opened answered, rfl⟩

/-! ### The open call -/

/-- Between the two traces the open call of `id` has gone on, and these events have been recorded. -/
def Continues (id : Nat) (before after : Trace) (events : List AuditEvent) : Prop :=
  ∃ more, openCall id after = (openCall id before).map (fun call => (call.1, call.2 ++ more)) ∧ recordedIn more = events

theorem Continues.refl (id : Nat) (trace : Trace) : Continues id trace trace [] := by
  refine ⟨[], ?_, rfl⟩
  simp

theorem Continues.trans {first second third : Trace} {events later : List AuditEvent} (start : Continues id first second events)
    (rest : Continues id second third later) : Continues id first third (events ++ later) := by
  obtain ⟨more, middle, rfl⟩ := start
  obtain ⟨yet, last, rfl⟩ := rest
  refine ⟨more ++ yet, ?_, List.filterMap_append⟩
  rw [last, middle, Option.map_map]
  simp [Function.comp_def]

/-- What an act observes is neither the beginning nor the end of a system call, nor an event. -/
theorem Act.observes {k k' : Kernel P} (act : Act k k') : k'.trace = k.trace ∨ ∃ observation,
    k'.trace = k.trace ++ [(k.current, observation)] ∧
      (∀ call, hear call observation = call.map fun call => (call.1, call.2 ++ [observation])) ∧
      recordedIn [observation] = [] := by
  cases act with
  | began | ended | take | store | exit | fork | reap => exact Or.inr ⟨_, rfl, fun _ => rfl, rfl⟩
  | _ => exact Or.inl rfl

theorem Act.continues {k k' : Kernel P} (act : Act k k') (id : Nat) : Continues id k.trace k'.trace [] := by
  rcases act.observes with same | ⟨observation, more, goesOn, silent⟩
  · rw [same]
    exact .refl id _
  · rw [more]
    by_cases running : k.current = some id
    · rw [running]
      exact ⟨[observation], by rw [openCall_own, goesOn], silent⟩
    · unfold Continues
      rw [openCall_other running]
      exact Continues.refl id k.trace

theorem Acts.continues {k k' : Kernel P} (acts : Acts k k') (id : Nat) : Continues id k.trace k'.trace [] := by
  induction acts with
  | refl => exact .refl id _
  | tail _ act ih => exact ih.trans (act.continues id)

theorem SystemActs.continues (acts : SystemActs s s') (id : Nat) :
    ∃ events, Continues id s.kernel.trace s'.kernel.trace events := by
  induction acts with
  | refl => exact ⟨[], .refl id _⟩
  | @tail middle _ _ next ih =>
    obtain ⟨events, before⟩ := ih
    cases next with
    | kernel act => exact ⟨_, before.trans (act.continues id)⟩
    | @record event auditRing pushed =>
      by_cases running : middle.kernel.current = some id
      · exact ⟨_, before.trans ⟨[.recorded event], openCall_observe running _, rfl⟩⟩
      · obtain ⟨more, after, same⟩ := before
        exact ⟨events, more, (openCall_other running _ _).trans after, same⟩

/-! ### Programs -/

def Performs (p : SystemM P α) (Q : α → System P → Prop) (s : System P) : Prop :=
  wp p (fun a s' => SystemActs s s' ∧ Q a s') (fun halt => halt.expected) s

theorem Performs.mono {p : SystemM P α} {Q R : α → System P → Prop} (performs : Performs p Q s)
    (weaker : ∀ a s', SystemActs s s' → Q a s' → R a s') : Performs p R s :=
  wp_mono performs (fun a s' both => ⟨both.1, weaker a s' both.1 both.2⟩) fun _ expected => expected

theorem Performs.bind {p : SystemM P β} {f : β → SystemM P α} {Q : β → System P → Prop} {R : α → System P → Prop}
    (first : Performs p Q s) (rest : ∀ b s', SystemActs s s' → Q b s' → Performs (f b) R s') : Performs (p >>= f) R s := by
  apply wp_bind.mpr
  refine wp_mono first (fun b s₁ both => ?_) fun _ expected => expected
  obtain ⟨acts, holds⟩ := both
  exact wp_mono (rest b s₁ acts holds) (fun a s₂ later => ⟨acts.trans later.1, later.2⟩) fun _ expected => expected

theorem Performs.pure {a : α} {Q : α → System P → Prop} (holds : Q a s) : Performs (pure a) Q s := ⟨.refl, holds⟩

@[simp] theorem wp_kernel {p : KernelM P α} {Q : α → System P → Prop} {E : Halt → Prop} :
    wp (kernel p) Q E s ↔ wp p (fun a k => Q a { s with kernel := k }) E s.kernel := by
  unfold wp kernel Program.zoom
  cases p s.kernel <;> rfl

theorem Does.system {p : KernelM P α} {Q : α → Kernel P → Prop} (does : Does p Q s.kernel) :
    Performs (kernel p) (fun a s' => Q a s'.kernel) s := by
  apply wp_kernel.mpr
  refine wp_mono does (fun a k' both => ?_) fun _ expected => expected
  exact ⟨Acts.system both.1, both.2⟩

/-! ### The facade -/

def auditOf (request : IpcRequest) (outcome : IpcResult Nat) (now : Nat) : Option AuditEvent :=
  if request.operation = .auditRead ∧ outcome.isOk then none else some (.fromRequest request outcome now)

/-- The state after an event has been pushed, if there is one. -/
def Logged (s : System P) (event : Option AuditEvent) (s' : System P) : Prop :=
  match event with
  | none => s' = s
  | some event => ∃ auditRing, s.auditRing.push event = .ok auditRing ∧
      s' = ⟨s.kernel.observe (.recorded event), auditRing⟩

theorem Logged.acts {event : Option AuditEvent} (logged : Logged s event s') : SystemActs s s' := by
  cases event with
  | none =>
    obtain rfl := logged
    exact .refl
  | some event =>
    obtain ⟨auditRing, pushed, rfl⟩ := logged
    exact .single (.record pushed)

theorem Logged.tasks {event : Option AuditEvent} (logged : Logged s event s') : s'.kernel.tasks = s.kernel.tasks := by
  cases event with
  | none => rw [show s' = s from logged]
  | some event =>
    obtain ⟨auditRing, pushed, rfl⟩ := logged
    rfl

theorem Logged.current {event : Option AuditEvent} (logged : Logged s event s') :
    s'.kernel.current = s.kernel.current := by
  cases event with
  | none => rw [show s' = s from logged]
  | some event =>
    obtain ⟨auditRing, pushed, rfl⟩ := logged
    rfl

theorem Logged.knownFiles {event : Option AuditEvent} (logged : Logged s event s') (fdTable : List (Option File)) :
    s'.kernel.KnownFiles fdTable ↔ s.kernel.KnownFiles fdTable := by
  cases event with
  | none => rw [show s' = s from logged]
  | some event =>
    obtain ⟨auditRing, pushed, rfl⟩ := logged
    exact Iff.rfl

/-- What has been pushed is the last thing that the open call has done. -/
theorem Logged.opened {event : AuditEvent} {entry : Entry} {since : List Observation} (logged : Logged s (some event) s')
    (current : s.kernel.current = some id) (opened : openCall id s.kernel.trace = some (entry, since)) :
    openCall id s'.kernel.trace = some (entry, since ++ [.recorded event]) := by
  obtain ⟨auditRing, pushed, rfl⟩ := logged
  refine (openCall_observe current _).trans ?_
  rw [opened]
  rfl

theorem push_rule {Q : Unit → System P → Prop} {E : Halt → Prop} {event : AuditEvent}
    (next : ∀ s', Logged s (some event) s' → Q () s') (stops : ∀ event f, s.auditRing.push event = .error f → E (.fault f)) : wp (Audit.push event) Q E s := by
  unfold wp Audit.push
  cases pushed : s.auditRing.push event with
  | ok auditRing => exact next _ ⟨auditRing, pushed, rfl⟩
  | error f => exact stops event f pushed

theorem record_rule {Q : Unit → System P → Prop} {E : Halt → Prop} {request : IpcRequest} {outcome : IpcResult Nat}
    (next : ∀ s', Logged s (auditOf request outcome s.kernel.now) s' → Q () s') (stops : ∀ event f, s.auditRing.push event = .error f → E (.fault f)) :
    wp (Audit.record request outcome) Q E s := by
  unfold Audit.record
  unfold auditOf at next
  split at next
  · rename_i silent
    rw [if_pos silent]
    exact next s rfl
  · rename_i recorded
    rw [if_neg recorded]
    apply wp_bind.mpr
    rw [wp_kernel]
    exact push_rule next stops

/-! ### Answers -/

/-- The running task `id` may be told `value`: its open call has been audited as it should be. -/
def Answers (id : Nat) (s : System P) (value : Int) : Prop :=
  s.kernel.current = some id ∧ ∃ entry since, openCall id s.kernel.trace = some (entry, since) ∧ Answered entry since value

theorem answers_silent {entry : Entry} (current : s'.kernel.current = some id)
    (opened : openCall id s.kernel.trace = some (entry, [])) (audited : entry.audited = none)
    (continues : Continues id s.kernel.trace s'.kernel.trace []) (value : Int) : Answers id s' value := by
  obtain ⟨more, after, silent⟩ := continues
  rw [opened] at after
  refine ⟨current, entry, [] ++ more, after, ?_, fun _ => silent, ?_⟩ <;>
  · intro operation amount asked
    rw [audited] at asked
    cases asked

theorem answers_exempt {entry : Entry} {value : Int} (current : s'.kernel.current = some id)
    (opened : openCall id s.kernel.trace = some (entry, [])) (audited : entry.audited = none)
    (exempt : entry.unaudited value = false) (acts : SystemActs s s') : Answers id s' value := by
  obtain ⟨events, more, after, _⟩ := acts.continues id
  rw [opened] at after
  refine ⟨current, entry, [] ++ more, after, fun operation amount asked => ?_, fun unaudited => ?_, fun operation amount asked => ?_⟩
  · rw [audited] at asked
    cases asked
  · rw [exempt] at unaudited
    cases unaudited
  · rw [audited] at asked
    cases asked

/-- The answer of a call that has recorded the event it should. -/
theorem answers_told {entry : Entry} {since : List Observation} {request : IpcRequest} {event : AuditEvent} {value : Int}
    (current : s'.kernel.current = some id) (opened : openCall id s'.kernel.trace = some (entry, since ++ [.recorded event]))
    (silent : recordedIn since = []) (requested : Requested entry request)
    (transferred : request.operation ≠ .pipeCreate → Transferred entry since request.operation request.amount value)
    (tells : Tells event entry request.operation request.amount value) : Answers id s' value := by
  have same : ∀ {operation amount}, entry.audited = some (operation, amount) → request.operation = operation ∧ request.amount = amount :=
    fun asked => Prod.mk.inj (Option.some.inj (requested.audited.symm.trans asked))
  refine ⟨current, entry, _, opened, ?_, fun unaudited => ?_, ?_⟩
  · intro operation amount asked
    obtain ⟨rfl, rfl⟩ := same asked
    refine ⟨event, ?_, tells⟩
    rw [recordedIn, List.filterMap_append]
    show recordedIn since ++ [event] = [event]
    rw [silent, List.nil_append]
  · rw [Entry.unaudited_of_audited requested.audited] at unaudited
    cases unaudited
  · intro operation amount asked moves
    obtain ⟨rfl, rfl⟩ := same asked
    have ended : endedIn (since ++ [.recorded event]) = endedIn since := by
      rw [endedIn, List.filterMap_append]
      exact List.append_nil _
    rw [Transferred, ended]
    exact transferred moves

theorem Requested.auditOf {entry : Entry} {request : IpcRequest} (requested : Requested entry request)
    (outcome : IpcResult Nat) (now : Nat) : auditOf request outcome now = some (.fromRequest request outcome now) := by
  have other : request.operation ≠ .auditRead := by
    rcases requested.operation with kind | kind | kind <;> rw [kind] <;> exact nofun
  simp [SecureIpc.auditOf, other]

theorem Requested.tells_ok {entry : Entry} {request : IpcRequest} (requested : Requested entry request) {count : Nat}
    {value : Int} (now : Nat) (positive : 0 ≤ value) (counted : request.operation ≠ .pipeCreate → value = count) :
    Tells (.fromRequest request (.ok count) now) entry request.operation request.amount value := by
  refine ⟨requested.pid, requested.uid, rfl, rfl, Or.inl ⟨positive, rfl, ?_⟩⟩
  rcases requested.operation with kind | kind | kind
  · simp [AuditEvent.fromRequest, kind]
  · simp [AuditEvent.fromRequest, kind, counted (by simp [kind])]
  · simp [AuditEvent.fromRequest, kind, counted (by simp [kind])]

theorem Requested.tells_error {entry : Entry} {request : IpcRequest} (requested : Requested entry request) (error : IpcError)
    (now : Nat) : Tells (.fromRequest request (.error error) now) entry request.operation request.amount (ipcErrorToRet error) := by
  obtain ⟨same, negative⟩ := ipcErrorToRet_eq error
  refine ⟨requested.pid, requested.uid, rfl, rfl, Or.inr ⟨negative, ?_, rfl⟩⟩
  rw [same, Int.neg_neg]
  rfl

theorem answers_failed {entry : Entry} {request : IpcRequest} {error : IpcError} {now : Nat}
    (current : s.kernel.current = some id) (opened : openCall id s.kernel.trace = some (entry, [])) (requested : Requested entry request)
    (logged : Logged s (some (.fromRequest request (.error error) now)) s') : Answers id s' (ipcErrorToRet error) :=
  answers_told (logged.current.trans current) (logged.opened current opened) rfl requested
    (fun _ => Or.inl ⟨rfl, Or.inl (ipcErrorToRet_eq error).2⟩) (requested.tells_error error now)

/-- A permit is issued without a trace in the log, a refusal leaves one. -/
theorem preflight_rule {Q : IpcResult (IpcPermit × ProcessSecurityState) → System P → Prop} {E : Halt → Prop}
    {state : ProcessSecurityState} {request : IpcRequest}
    (permitted : ∀ quota reservation, authorize request = .ok () →
      Quota.reserve state.quota request = .ok (quota, reservation) →
      Q (.ok (⟨request, reservation⟩, { state with quota })) s)
    (refused : ∀ error s', Logged s (auditOf request (.error error) s.kernel.now) s' →
      authorize request = .error error ∨ authorize request = .ok () ∧ Quota.reserve state.quota request = .error error →
      Q (.error error) s')
    (stops : ∀ event f, s.auditRing.push event = .error f → E (.fault f)) : wp (preflight state request) Q E s := by
  unfold preflight
  cases policy : authorize request with
  | error error =>
    apply wp_bind.mpr
    exact record_rule (fun s' logged => refused error s' logged (Or.inl policy)) stops
  | ok =>
    cases limits : Quota.reserve state.quota request with
    | error error =>
      apply wp_bind.mpr
      exact record_rule (fun s' logged => refused error s' logged (Or.inr ⟨policy, limits⟩)) stops
    | ok reserved => exact permitted reserved.1 reserved.2 policy limits

theorem complete_rule {Q : ProcessSecurityState × IpcResult Nat → System P → Prop} {E : Halt → Prop}
    {state : ProcessSecurityState} {permit : IpcPermit} {outcome : IpcResult Nat} {quota : QuotaState}
    (finished : Quota.finish state.quota permit.reservation outcome.isOk = .ok quota)
    (next : ∀ s', Logged s (auditOf permit.request outcome s.kernel.now) s' → Q ({ state with quota }, outcome) s')
    (stops : ∀ event f, s.auditRing.push event = .error f → E (.fault f)) : wp (complete state permit outcome) Q E s := by
  apply wp_bind.mpr
  rw [finished, wp_lift_ok]
  apply wp_bind.mpr
  exact record_rule next stops

end

end SecureIpc

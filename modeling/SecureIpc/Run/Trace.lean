import SecureIpc.Run.Invariant
import SecureIpc.Security.AuditLog

/-!
What the trace says about a run: the audit ring holds the recorded events, and the forks tell who
descends from whom.
-/

namespace SecureIpc
open Lib

def recorded (trace : Trace) : List AuditEvent :=
  trace.filterMap fun
    | (_, .recorded event) => some event
    | _ => none

def forks (trace : Trace) : List (Nat × Nat) :=
  trace.filterMap fun
    | (some parent, .forked child) => some (parent, child)
    | _ => none

/-- Every entry of the trace is in relation with the entries before it. -/
def Along (R : Trace → Option Nat → Observation → Prop) (trace : Trace) : Prop :=
  ∀ before who observation after, trace = before ++ (who, observation) :: after → R before who observation

theorem along_nil (R : Trace → Option Nat → Observation → Prop) : Along R [] := by
  intro before who observation after split
  simp at split

theorem Along.concat {R : Trace → Option Nat → Observation → Prop} {trace : Trace} {who : Option Nat}
    {observation : Observation} (along : Along R trace) (last : R trace who observation) :
    Along R (trace ++ [(who, observation)]) := by
  intro before who' observation' after split
  rcases List.eq_nil_or_concat after with rfl | ⟨rest, final, rfl⟩
  · obtain ⟨rfl, same⟩ := List.append_inj' split rfl
    simp only [List.cons.injEq, Prod.mk.injEq, and_true] at same
    obtain ⟨rfl, rfl⟩ := same
    exact last
  · rw [List.concat_eq_append, ← List.cons_append, ← List.append_assoc] at split
    exact along before who' observation' rest (List.append_inj' split rfl).1

section
variable {P : Platform} {k k' : Kernel P} {s s' : System P}

inductive Adds (k k' : Kernel P) : Prop where
  | nothing (trace : k'.trace = k.trace) (next : k'.nextTask = k.nextTask)
  | one (observation : Observation) (trace : k'.trace = k.trace ++ [(k.current, observation)])
      (next : k'.nextTask = k.nextTask) (plain : ∀ child, observation ≠ .forked child)
      (silent : ∀ event, observation ≠ .recorded event)
  | fork (parent : Nat) (current : k.current = some parent)
      (trace : k'.trace = k.trace ++ [(some parent, .forked k.nextTask)]) (next : k'.nextTask = k.nextTask + 1)

theorem Act.adds (act : Act k k') : Adds k k' := by
  cases act with
  | began | ended | take | store | exit | reap => exact .one _ rfl rfl nofun nofun
  | fork current =>
    refine .fork _ current ?_ rfl
    rw [← current]
    rfl
  | _ => exact .nothing rfl rfl

/-- A relation that each act and each note establishes for what it adds holds along every trace. -/
theorem Invariant.along {I : Kernel P → Prop} {R : Trace → Option Nat → Observation → Prop} (inv : Invariant I)
    (act : ∀ {k k' : Kernel P}, Act k k' → Sound k → I k → k'.trace = k.trace ∨
      ∃ observation, k'.trace = k.trace ++ [(k.current, observation)] ∧ R k.trace k.current observation)
    (note : ∀ {k : Kernel P} {observation}, Noted k observation → R k.trace k.current observation) :
    Invariant fun k => I k ∧ Along R k.trace where
  act one sound both := by
    refine ⟨inv.act one sound both.1, ?_⟩
    rcases act one sound both.1 with same | ⟨observation, more, last⟩
    · rw [same]
      exact both.2
    · rw [more]
      exact both.2.concat last
  mark marked both := by
    refine ⟨inv.mark marked both.1, ?_⟩
    obtain ⟨_⟩ := marked
    exact both.2
  note noted both := ⟨inv.note noted both.1, both.2.concat (note noted)⟩
  resume resumed sound both := by
    refine ⟨inv.resume resumed sound both.1, ?_⟩
    obtain ⟨_, _, _⟩ := resumed
    exact both.2

/-! ### The audit ring -/

theorem Act.recorded_eq (act : Act k k') : recorded k'.trace = recorded k.trace := by
  cases act.adds with
  | nothing trace => rw [trace]
  | one observation trace _ _ silent =>
    rw [trace, recorded, recorded, List.filterMap_append]
    cases observation with
    | recorded event => exact absurd rfl (silent event)
    | _ => exact List.append_nil _
  | fork parent _ trace =>
    rw [trace, recorded, recorded, List.filterMap_append]
    exact List.append_nil _

def auditLog (s : System P) : List AuditEvent := AuditRing.accepted (recorded s.kernel.trace)

def HoldsLog (s : System P) : Prop := s.auditRing.Holds (auditLog s)

theorem Logged.log {event : AuditEvent} (logged : Logged s (some event) s') :
    auditLog s' = AuditRing.logAfter (auditLog s) event := by
  obtain ⟨auditRing, pushed, rfl⟩ := logged
  have more : recorded (s.kernel.observe (.recorded event)).trace = recorded s.kernel.trace ++ [event] :=
    List.filterMap_append
  unfold auditLog
  rw [more, AuditRing.accepted_append]

theorem SystemAct.holdsLog (act : SystemAct s s') (holds : HoldsLog s) : HoldsLog s' := by
  cases act with
  | kernel act =>
    unfold HoldsLog auditLog
    rw [act.recorded_eq]
    exact holds
  | @record event auditRing pushed =>
    obtain ⟨after, run, logged⟩ := AuditRing.push_logAfter event holds
    obtain rfl := Except.ok.inj (pushed.symm.trans run)
    unfold HoldsLog
    rw [Logged.log ⟨auditRing, pushed, rfl⟩]
    exact logged

/-- Only events that are recorded are in the log. -/
theorem HoldsLog.observe {observation : Observation} (holds : HoldsLog s) (silent : ∀ event, observation ≠ .recorded event) :
    HoldsLog { s with kernel := s.kernel.observe observation } := by
  have same : recorded (s.kernel.observe observation).trace = recorded s.kernel.trace := by
    rw [Kernel.observe, recorded, recorded, List.filterMap_append]
    cases observation with
    | recorded event => exact absurd rfl (silent event)
    | _ => exact List.append_nil _
  unfold HoldsLog auditLog
  rw [same]
  exact holds

theorem TrapActs.holdsLog (acts : TrapActs s s') (holds : HoldsLog s) : HoldsLog s' := by
  induction acts with
  | refl => exact holds
  | tail _ act ih =>
    cases act with
    | act act => exact act.holdsLog ih
    | entered | returned => exact ih.observe nofun

theorem Finishes.holdsLog (finishes : Finishes s s') (sound : Sound s.kernel) (holds : HoldsLog s) : HoldsLog s' := by
  cases finishes with
  | quiet acts => exact TrapActs.holdsLog acts holds
  | @tail s₁ id k' acts current ended =>
    have sound₁ := acts.sound sound
    have tail := (wp_ok (trapTail_ends sound₁ current) ended).1
    refine (tail.keeps (I := fun k => HoldsLog { s₁ with kernel := k }) ?_ ?_ sound₁ (TrapActs.holdsLog acts holds)).2
    · intro k k₁ act _ holds
      exact SystemAct.holdsLog (s := { s₁ with kernel := k }) (.kernel act) holds
    · intro _ _ both holds
      obtain ⟨_⟩ := both
      exact holds

theorem StepActs.holdsLog (acts : StepActs s s') (sound : Sound s.kernel) (holds : HoldsLog s) : HoldsLog s' := by
  obtain ⟨now, consoleInput, k, started, finishes⟩ := acts
  refine finishes.holdsLog (started_sound sound started) ?_
  rcases started with rfl | ⟨_, _, _⟩
  · exact holds
  · exact holds

theorem Reachable.holdsLog (reachable : Reachable s) : HoldsLog s := by
  induction reachable with
  | boot booted =>
    obtain ⟨start, ring⟩ := boot_booted booted
    unfold HoldsLog auditLog
    rw [start.trace, ring]
    exact AuditRing.new_holds
  | step before event stepped ih => exact (step_acts before.sound stepped).holdsLog before.sound ih

/-- In a reachable state recording an event never stops the kernel. -/
theorem HoldsLog.push_ne_error (holds : HoldsLog s) (event : AuditEvent) (f : Fault) : s.auditRing.push event ≠ .error f := by
  obtain ⟨auditRing, run, _⟩ := AuditRing.push_logAfter event holds
  rw [run]
  exact nofun

/-! ### Runs and descent -/

/-- A run of any number of steps. -/
def Runs : System P → System P → Prop := Relation.ReflTransGen fun s s' => ∃ event, step event s = .ok ((), s')

theorem Runs.reachable (runs : Runs s s') (reachable : Reachable s) : Reachable s' := by
  induction runs with
  | refl => exact reachable
  | tail _ step ih =>
    obtain ⟨event, stepped⟩ := step
    exact ih.step event stepped

theorem Invariant.runs {I : Kernel P → Prop} (inv : Invariant I) (runs : Runs s s') (reachable : Reachable s)
    (holds : I s.kernel) : I s'.kernel := by
  induction runs with
  | refl => exact holds
  | tail before step ih =>
    obtain ⟨event, stepped⟩ := step
    have sound := (Runs.reachable before reachable).sound
    exact inv.step (step_acts sound stepped) sound ih

/-- `child` descends from `parent` through forks after the first `skip` entries of the trace. -/
def Descends (skip : Nat) (trace : Trace) : Nat → Nat → Prop :=
  Relation.ReflTransGen fun parent child => (parent, child) ∈ forks (trace.drop skip)

theorem Adds.length_le (adds : Adds k k') : k.trace.length ≤ k'.trace.length := by
  cases adds with
  | nothing trace => exact Nat.le_of_eq (by rw [trace])
  | one _ trace => simp [trace]
  | fork _ _ trace => simp [trace]

theorem Adds.forks_eq {skip : Nat} (adds : Adds k k') (long : skip ≤ k.trace.length) :
    forks (k'.trace.drop skip) = forks (k.trace.drop skip) ∧ k'.nextTask = k.nextTask ∨
      ∃ parent, k.current = some parent ∧ k'.nextTask = k.nextTask + 1 ∧
        forks (k'.trace.drop skip) = forks (k.trace.drop skip) ++ [(parent, k.nextTask)] := by
  cases adds with
  | nothing trace next =>
    rw [trace]
    exact Or.inl ⟨rfl, next⟩
  | one observation trace next plain =>
    refine Or.inl ⟨?_, next⟩
    rw [trace, List.drop_append_of_le_length long, forks, forks, List.filterMap_append]
    cases observation with
    | forked child => exact absurd rfl (plain child)
    | _ => cases k.current <;> exact List.append_nil _
  | fork parent current trace next =>
    refine Or.inr ⟨parent, current, next, ?_⟩
    rw [trace, List.drop_append_of_le_length long, forks, forks, List.filterMap_append]
    rfl

/-- Acts that are no forks do not change who descends from whom; a fork adds one child. -/
theorem Adds.descends {skip first last : Nat} (adds : Adds k k') (long : skip ≤ k.trace.length)
    (small : ∀ parent child, (parent, child) ∈ forks (k.trace.drop skip) → parent < k.nextTask)
    (running : ∀ parent, k.current = some parent → parent < k.nextTask)
    (descends : Descends skip k'.trace first last) : Descends skip k.trace first last ∨
      ∃ parent, k.current = some parent ∧ last = k.nextTask ∧ Descends skip k.trace first parent := by
  unfold Descends at descends
  rcases adds.forks_eq long with ⟨same, _⟩ | ⟨parent, current, _, more⟩
  · rw [same] at descends
    exact Or.inl descends
  · rw [more] at descends
    induction descends with
    | refl => exact Or.inl .refl
    | @tail middle last _ edge ih =>
      rcases List.mem_append.mp edge with old | new
      · rcases ih with before | ⟨_, _, rfl, _⟩
        · exact Or.inl (before.tail old)
        · exact absurd (small _ _ old) (Nat.lt_irrefl _)
      · obtain ⟨rfl, rfl⟩ := Prod.mk.inj (List.mem_singleton.mp new)
        rcases ih with before | ⟨_, _, fresh, _⟩
        · exact Or.inr ⟨middle, current, rfl, before⟩
        · exact absurd (running middle current) (by omega)

end

end SecureIpc

import SecureIpc.Run.Delivery
import SecureIpc.Run.Trace

/-! Deliveries of user signals and the `sys_sigreturn` calls that end them. -/

namespace SecureIpc
open Lib

/-! ### Trap contexts in memory -/

namespace TrapContext

theorem words_load (mem : PhysMem) (ppn : Nat) :
    (load mem ppn).words = (List.range 37).map fun word => mem.readWord (wordAddr ppn word) := rfl

theorem word_load (mem : PhysMem) (ppn : Nat) {i : Nat} (inside : i < (load mem ppn).words.length) :
    (load mem ppn).words[i] = mem.readWord (wordAddr ppn i) := by
  simp [words_load]

theorem load_store (mem other : PhysMem) (ppn page : Nat) : load ((load other page).store ppn mem) ppn = load other page := by
  have same : ∀ i < 37, ((load other page).store ppn mem).readWord (wordAddr ppn i) = other.readWord (wordAddr page i) := by
    intro i small
    have inside : i < (load other page).words.length := by
      rw [words_load]
      simpa using small
    have stored := @Memory.readWord_storeWords mem (PhysAddr.ofPpn ppn) i _ inside
    rw [word_load other page inside, Nat.mod_eq_of_lt (other.readWord_lt _)] at stored
    exact stored
  simp only [load, mk.injEq]
  refine ⟨?_, same 32 (by decide), same 33 (by decide), same 34 (by decide), same 35 (by decide), same 36 (by decide)⟩
  apply List.map_congr_left
  intro i inside
  exact same i (by have := List.mem_range.mp inside; omega)

theorem store_load (mem : PhysMem) (ppn : Nat) : (load mem ppn).store ppn mem = mem :=
  Memory.storeWords_same fun _ inside => word_load mem ppn inside

end TrapContext

section
variable {P : Platform} {s s' : System P} {k k' : Kernel P} {id : Nat} {task : TaskControlBlock}

/-! ### One call -/

theorem sysSigreturn_panics (current : k.current = some id) (found : k.tasks id = some task)
    (none : task.trapCtxBackup = none) : sysSigreturn k = .error .noTrapBackup := by
  have spec : wp sysSigreturn (fun _ _ => False) (fun halt => halt = .noTrapBackup) k := by
    simp only [sysSigreturn, wp_bind, wp_currentTask, current, wp_innerOf, found, none, wp_throw]
  cases run : sysSigreturn k with
  | ok pair => exact (wp_ok spec run).elim
  | error halt => rw [wp_error (E := fun halt => halt = Halt.noTrapBackup) spec run]

theorem sysSigreturn_restores {backup : TrapContext} (current : k.current = some id) (found : k.tasks id = some task)
    (some : task.trapCtxBackup = some backup) :
    sysSigreturn k = .ok (intOfWord (backup.x.getD 10 0),
      (k.setTask id { task with handlingSig := -1 }).setMem (backup.store task.trapCxPpn k.mm.mem)) := by
  have spec : wp sysSigreturn (fun r k' => r = intOfWord (backup.x.getD 10 0) ∧
      k' = (k.setTask id { task with handlingSig := -1 }).setMem (backup.store task.trapCxPpn k.mm.mem)) (fun _ => False) k := by
    simp only [sysSigreturn, wp_bind, wp_currentTask, current, wp_innerOf, found, some, wp_putInner, initTrapCx,
      Kernel.setTask_same, wp_modify, wp_pure]
    exact ⟨trivial, rfl⟩
  obtain ⟨_, _, run, rfl, rfl⟩ := wp_returns spec
  exact run

/-! ### The life of a process -/

/-- A delivery that has not returned yet: the saved context, and what was handled before it. -/
structure Delivery where
  saved : TrapContext
  enclosing : Int
  deriving DecidableEq, Repr

/-- A process `q` from its creation on, the states of its `sys_sigreturn` calls with the deliveries
outstanding there, and the deliveries outstanding now, most recent first. -/
inductive Life : Nat → List (Kernel P × List Delivery) → System P → List Delivery → Prop where
  | booted {s : System P} (booted : boot P = .ok s) : Life initproc [] s []
  | child {parent : Nat} {calls : List (Kernel P × List Delivery)} {s : System P} {outstanding : List Delivery} {r : Int}
      {k : Kernel P} (life : Life parent calls s outstanding) (current : s.kernel.current = some parent)
      (forked : sysFork s.kernel = .ok (r, k)) : Life s.kernel.nextTask [] { s with kernel := k } []
  | fork {q : Nat} {calls : List (Kernel P × List Delivery)} {s : System P} {outstanding : List Delivery} {r : Int}
      {k : Kernel P} (life : Life q calls s outstanding) (current : s.kernel.current = some q)
      (forked : sysFork s.kernel = .ok (r, k)) : Life q calls { s with kernel := k } outstanding
  | deliver {q : Nat} {calls : List (Kernel P × List Delivery)} {s : System P} {outstanding : List Delivery} {sig : Nat}
      {k : Kernel P} {task : TaskControlBlock} (life : Life q calls s outstanding) (current : s.kernel.current = some q)
      (found : s.kernel.tasks q = some task) (small : sig ≤ maxSig)
      (handler : (task.signalActions.getD sig .default).handler ≠ 0)
      (delivered : callUserSignalHandler sig ((1 <<< sig : Nat) : BitVec 32) s.kernel = .ok ((), k)) :
      Life q calls { s with kernel := k } (⟨.load s.kernel.mm.mem task.trapCxPpn, task.handlingSig⟩ :: outstanding)
  | user {q : Nat} {calls : List (Kernel P × List Delivery)} {s s' : System P} {outstanding : List Delivery}
      {before after : TaskControlBlock} (life : Life q calls s outstanding) (acts : StepActs s s')
      (found : s.kernel.tasks q = some before) (found' : s'.kernel.tasks q = some after)
      (backup : after.trapCtxBackup = before.trapCtxBackup) (handling : after.handlingSig = before.handlingSig) :
      Life q calls s' outstanding
  | sigreturn {q : Nat} {calls : List (Kernel P × List Delivery)} {s : System P} {outstanding : List Delivery} {r : Int}
      {k : Kernel P} (life : Life q calls s outstanding) (current : s.kernel.current = some q)
      (returned : sysSigreturn s.kernel = .ok (r, k)) :
      Life q ((s.kernel, outstanding) :: calls) { s with kernel := k } outstanding.tail

/-- What a `sys_sigreturn` should do: end the most recent delivery, or fail if there is none. -/
def Nests (q : Nat) (k : Kernel P) : List Delivery → Prop
  | [] => ∃ r, r < 0 ∧ sysSigreturn k = .ok (r, k)
  | delivery :: _ => ∃ k' task, sysSigreturn k = .ok (intOfWord (delivery.saved.x.getD 10 0), k') ∧
      k'.tasks q = some task ∧ task.handlingSig = delivery.enclosing ∧
      TrapContext.load k'.mm.mem task.trapCxPpn = delivery.saved

/-- Exactly one delivery is outstanding; or none, and the context saved by an earlier one happens to be
the current one, with a negative number in `a0`. -/
def SingleDelivery (q : Nat) (k : Kernel P) (outstanding : List Delivery) : Prop :=
  outstanding.length = 1 ∨ outstanding = [] ∧ ∃ task, k.tasks q = some task ∧
    task.trapCtxBackup = some (.load k.mm.mem task.trapCxPpn) ∧
    intOfWord ((TrapContext.load k.mm.mem task.trapCxPpn).x.getD 10 0) < 0

/-- While each call ends the only outstanding delivery, the one slot holds what the next call needs. -/
structure Nested (task : TaskControlBlock) (outstanding : List Delivery) : Prop where
  idle : outstanding = [] → task.handlingSig = -1
  handling : outstanding ≠ [] → task.handlingSig ≠ -1
  slot : ∀ delivery rest, outstanding = delivery :: rest → task.trapCtxBackup = some delivery.saved ∧
    (delivery.enclosing = -1 ↔ rest = [])
  loaded : ∀ backup, task.trapCtxBackup = some backup → ∃ mem ppn, backup = .load mem ppn

/-! ### Induction over a life -/

variable {q sig : Nat} {calls : List (Kernel P × List Delivery)} {outstanding : List Delivery}

theorem Life.sound (life : Life q calls s outstanding) : Sound s.kernel := by
  induction life with
  | booted booted => exact (Reachable.boot booted).sound
  | child _ current forked ih => exact (wp_ok (sysFork_does ih current) forked).1.sound ih
  | fork _ current forked ih => exact (wp_ok (sysFork_does ih current) forked).1.sound ih
  | deliver _ current _ _ _ delivered ih => exact (wp_ok (callUserSignalHandler_does ih current _ _) delivered).1.sound ih
  | user _ acts _ _ _ _ ih => exact acts.sound ih
  | sigreturn _ current returned ih => exact (wp_ok (sysSigreturn_does ih current) returned).1.sound ih

theorem Nested.fresh (idle : task.handlingSig = -1) (none : task.trapCtxBackup = none) : Nested task [] := by
  refine ⟨fun _ => idle, fun some => absurd rfl some, nofun, fun backup held => ?_⟩
  rw [none] at held
  cases held

theorem sysFork_nested (sound : Sound k) (current : k.current = some id) (found : k.tasks id = some task) {r : Int}
    (forked : sysFork k = .ok (r, k')) :
    (∃ child, k'.tasks k.nextTask = some child ∧ child.handlingSig = -1 ∧ child.trapCtxBackup = none) ∧
      ∃ after, k'.tasks id = some after ∧ after.handlingSig = task.handlingSig ∧ after.trapCtxBackup = task.trapCtxBackup := by
  have different : k.nextTask ≠ id := Nat.ne_of_gt (sound.table.small (table_place found))
  have spec : wp sysFork (fun _ k' =>
      (∃ child, k'.tasks k.nextTask = some child ∧ child.handlingSig = -1 ∧ child.trapCtxBackup = none) ∧
      ∃ after, k'.tasks id = some after ∧ after.handlingSig = task.handlingSig ∧
        after.trapCtxBackup = task.trapCtxBackup) (fun _ => True) k := by
    refine sysFork_rule sound current found ?_ fun _ => trivial
    intro _ memorySet _ trapCxPpn _ _ _ _ _ _ _
    refine ⟨⟨task.forked id k.pidAllocator.alloc.1 trapCxPpn memorySet, ?_, rfl, rfl⟩, _, Kernel.set_same _ _ _, rfl, rfl⟩
    exact (Kernel.set_other different).trans (Kernel.set_same _ _ _)
  have both := wp_ok spec forked
  exact both

theorem Nested.congr {after : TaskControlBlock} (nested : Nested task outstanding)
    (handling : after.handlingSig = task.handlingSig) (backup : after.trapCtxBackup = task.trapCtxBackup) :
    Nested after outstanding := by
  obtain ⟨idle, busy, slot, loaded⟩ := nested
  rw [← handling] at idle busy
  rw [← backup] at slot loaded
  exact ⟨idle, busy, slot, loaded⟩

theorem Nested.deliver {mem : PhysMem} (nested : Nested task outstanding) :
    Nested (task.delivered sig mem) (⟨.load mem task.trapCxPpn, task.handlingSig⟩ :: outstanding) := by
  refine ⟨nofun, fun _ => ?_, ?_, ?_⟩
  · show (sig : Int) ≠ -1
    omega
  · rintro _ _ ⟨⟩
    refine ⟨rfl, fun none => ?_, nested.idle⟩
    by_contra some
    exact nested.handling some none
  · rintro backup ⟨⟩
    exact ⟨mem, task.trapCxPpn, rfl⟩

/-- Under the condition, a call leaves no delivery outstanding. -/
theorem Nested.returns (nested : Nested task outstanding) (single : outstanding.length ≤ 1) :
    Nested { task with handlingSig := -1 } outstanding.tail := by
  have empty : outstanding.tail = [] := by
    apply List.eq_nil_of_length_eq_zero
    rw [List.length_tail]
    omega
  rw [empty]
  exact ⟨fun _ => rfl, fun some => absurd rfl some, nofun, nested.loaded⟩

theorem SingleDelivery.length_le (single : SingleDelivery q k outstanding) : outstanding.length ≤ 1 := by
  rcases single with one | ⟨none, _⟩
  · exact Nat.le_of_eq one
  · rw [none]
    exact Nat.zero_le 1

theorem Life.nested (life : Life q calls s outstanding) (single : ∀ call ∈ calls, SingleDelivery q call.1 call.2) :
    ∃ task, s.kernel.tasks q = some task ∧ Nested task outstanding := by
  induction life with
  | booted booted =>
    obtain ⟨task, tasks, _, _, _, _, _, _, _, _, idle, none, _⟩ := (boot_booted booted).1.tasks
    refine ⟨task, ?_, .fresh idle none⟩
    rw [tasks]
    rfl
  | child life current forked =>
    obtain ⟨task, found, _⟩ := life.sound.running current
    obtain ⟨⟨child, created, idle, none⟩, _⟩ := sysFork_nested life.sound current found forked
    exact ⟨child, created, .fresh idle none⟩
  | fork life current forked ih =>
    obtain ⟨task, found, nested⟩ := ih single
    obtain ⟨_, after, found', handling, backup⟩ := sysFork_nested life.sound current found forked
    exact ⟨after, found', nested.congr handling backup⟩
  | deliver life current found small handler delivered ih =>
    obtain ⟨task, found', nested⟩ := ih single
    obtain rfl := Option.some.inj (found.symm.trans found')
    rename_i q _ s _ sig _ task
    have spec : wp (callUserSignalHandler sig ((1 <<< sig : Nat) : BitVec 32))
        (fun _ k => k.tasks q = some (task.delivered sig s.kernel.mm.mem)) (fun _ => True) s.kernel := by
      refine callUserSignalHandler_rule current found (life.sound.task found).signals (Nat.lt_succ_of_le small) ?_ fun _ => ?_
      · intro none
        exact absurd none handler
      · exact Kernel.setTask_same _ _ _
    have held := wp_ok spec delivered
    exact ⟨_, held, nested.deliver⟩
  | user _ _ found found' backup handling ih =>
    obtain ⟨task, looked, nested⟩ := ih single
    obtain rfl := Option.some.inj (found.symm.trans looked)
    exact ⟨_, found', nested.congr handling backup⟩
  | sigreturn life current returned ih =>
    obtain ⟨task, found, nested⟩ := ih fun call mem => single call (List.mem_cons_of_mem _ mem)
    have last := (single _ (List.mem_cons_self ..)).length_le
    cases backup : task.trapCtxBackup with
    | none =>
      rw [sysSigreturn_panics current found backup] at returned
      cases returned
    | some context =>
      rw [sysSigreturn_restores current found backup] at returned
      obtain ⟨_, rfl⟩ := Prod.mk.inj (Except.ok.inj returned)
      exact ⟨_, Kernel.setTask_same _ _ _, nested.returns last⟩

def keepsHandler (q : Nat) (s s' : System P) : Bool :=
  (s.kernel.tasks q).any fun before => (s'.kernel.tasks q).any fun after =>
    after.trapCtxBackup == before.trapCtxBackup && after.handlingSig == before.handlingSig

theorem Life.step {event : Event} (life : Life q calls s outstanding) (stepped : step event s = .ok ((), s'))
    (keeps : keepsHandler q s s' = true) : Life q calls s' outstanding := by
  simp only [keepsHandler, Option.any_eq_true, Bool.and_eq_true, beq_iff_eq] at keeps
  obtain ⟨before, found, after, found', backup, handling⟩ := keeps
  exact .user life (step_acts life.sound stepped) found found' backup handling

/-! ### The calls -/

/-- While the calls before it met the condition, a call does what it should exactly under the condition. -/
theorem Nested.nests_iff (nested : Nested task outstanding) (current : k.current = some q) (found : k.tasks q = some task) :
    Nests q k outstanding ↔ SingleDelivery q k outstanding := by
  cases outstanding with
  | nil =>
    have idle : { task with handlingSig := -1 } = task := by rw [← nested.idle rfl]
    constructor
    · rintro ⟨r, negative, run⟩
      refine Or.inr ⟨rfl, task, found, ?_⟩
      cases backup : task.trapCtxBackup with
      | none =>
        rw [sysSigreturn_panics current found backup] at run
        cases run
      | some context =>
        obtain ⟨mem, ppn, rfl⟩ := nested.loaded context backup
        rw [sysSigreturn_restores current found backup] at run
        obtain ⟨result, same⟩ := Prod.mk.inj (Except.ok.inj run)
        have memory : (TrapContext.load mem ppn).store task.trapCxPpn k.mm.mem = k.mm.mem := congrArg (fun k => k.mm.mem) same
        have equal := TrapContext.load_store k.mm.mem mem task.trapCxPpn ppn
        rw [memory] at equal
        rw [equal, result]
        exact ⟨rfl, negative⟩
    · rintro (one | ⟨_, other, looked, backup, negative⟩)
      · cases one
      · obtain rfl := Option.some.inj (found.symm.trans looked)
        refine ⟨_, negative, ?_⟩
        rw [sysSigreturn_restores current found backup, TrapContext.store_load, idle, setTask_same_task found]
        rfl
  | cons delivery rest =>
    obtain ⟨backup, outermost⟩ := nested.slot delivery rest rfl
    obtain ⟨mem, ppn, saved⟩ := nested.loaded _ backup
    have run := sysSigreturn_restores current found backup
    constructor
    · rintro ⟨k', after, run', found', handling, _⟩
      rw [run] at run'
      obtain ⟨_, rfl⟩ := Prod.mk.inj (Except.ok.inj run')
      obtain rfl := Option.some.inj ((Kernel.setTask_same _ _ _).symm.trans found')
      rw [outermost.mp handling.symm]
      exact Or.inl rfl
    · rintro (one | ⟨none, _⟩)
      · have empty : rest = [] := List.eq_nil_of_length_eq_zero (Nat.succ.inj one)
        refine ⟨_, _, run, Kernel.setTask_same _ _ _, (outermost.mpr empty).symm, ?_⟩
        rw [saved]
        exact TrapContext.load_store _ _ _ _
      · cases none

/-- Over the whole life of a process, every `sys_sigreturn` does what it should exactly if each is made
with one delivery outstanding. -/
theorem sigreturns_nest_iff (life : Life q calls s outstanding) (current : s.kernel.current = some q) :
    (∀ call ∈ (s.kernel, outstanding) :: calls, Nests q call.1 call.2) ↔
      ∀ call ∈ (s.kernel, outstanding) :: calls, SingleDelivery q call.1 call.2 := by
  have earlier : (∀ call ∈ calls, Nests q call.1 call.2) ↔ ∀ call ∈ calls, SingleDelivery q call.1 call.2 := by
    clear current
    induction life with
    | booted => simp
    | child => simp
    | fork _ _ _ ih => exact ih
    | deliver _ _ _ _ _ _ ih => exact ih
    | user _ _ _ _ _ _ ih => exact ih
    | sigreturn life current _ ih =>
      rw [List.forall_mem_cons, List.forall_mem_cons, ih]
      refine and_congr_left fun single => ?_
      obtain ⟨task, found, nested⟩ := life.nested single
      exact nested.nests_iff current found
  rw [List.forall_mem_cons, List.forall_mem_cons, earlier]
  refine and_congr_left fun single => ?_
  obtain ⟨task, found, nested⟩ := life.nested single
  exact nested.nests_iff current found

end

/-- The first process installs a handler for `SIGUSR1`, and its call ends the only delivery. -/
theorem sigreturns_nest_once : ∃ (s : System sample) (delivery : Delivery), Life initproc [] s [delivery] ∧
    s.kernel.current = some initproc ∧
    ((∀ call ∈ [(s.kernel, [delivery])], Nests initproc call.1 call.2) ↔
      ∀ call ∈ [(s.kernel, [delivery])], SingleDelivery initproc call.1 call.2) := by
  have ran : ((boot sample).toOption.any fun s₀ =>
      (step (.schedule 0 []) s₀).toOption.any fun r₁ => keepsHandler initproc s₀ r₁.2 &&
      ((step (.store 0x10000 1) r₁.2).toOption.any fun r₂ => keepsHandler initproc r₁.2 r₂.2 &&
      ((step (ecall 134 10 0x10000 0x10020) r₂.2).toOption.any fun r₃ => keepsHandler initproc r₂.2 r₃.2 &&
        r₃.2.kernel.current == some initproc &&
        ((r₃.2.kernel.tasks initproc).any fun task => (task.signalActions.getD 10 .default).handler != 0) &&
      ((callUserSignalHandler 10 ((1 <<< 10 : Nat) : BitVec 32) r₃.2.kernel).toOption.any fun r₄ =>
        r₄.2.current == some initproc)))) = true := by
    decide +kernel
  simp only [Option.any_eq_true, toOption_eq_some, Bool.and_eq_true, beq_iff_eq, bne_iff_ne] at ran
  obtain ⟨s₀, booted, ⟨_, s₁⟩, scheduled, kept₁, ⟨_, s₂⟩, stored, kept₂, ⟨_, s₃⟩, installed,
    ⟨⟨kept₃, current₃⟩, task, found, handler⟩, ⟨_, k₄⟩, delivered, current₄⟩ := ran
  have life := ((Life.booted booted).step scheduled kept₁).step stored kept₂ |>.step installed kept₃
  have inside := Life.deliver life current₃ found (by decide) handler delivered
  exact ⟨_, _, inside, current₄, sigreturns_nest_iff inside current₄⟩

/-- The first call of a process, with no delivery outstanding, panics. -/
theorem sigreturn_first_panics : ∃ s : System sample, Life initproc [] s [] ∧ s.kernel.current = some initproc ∧
    step (ecall 139 0 0 0) s = .error .noTrapBackup ∧ ¬Nests initproc s.kernel [] := by
  have ran : ((boot sample).toOption.any fun s₀ =>
      (step (.schedule 0 []) s₀).toOption.any fun r₁ => keepsHandler initproc s₀ r₁.2 &&
        r₁.2.kernel.current == some initproc && (r₁.2.kernel.tasks initproc).any (fun task => task.trapCtxBackup == none) &&
        stopsWith .noTrapBackup (step (ecall 139 0 0 0) r₁.2)) = true := by
    decide +kernel
  simp only [Option.any_eq_true, toOption_eq_some, Bool.and_eq_true, beq_iff_eq, stopsWith_iff] at ran
  obtain ⟨s₀, booted, ⟨_, s₁⟩, scheduled, ⟨⟨kept, current⟩, task, found, none⟩, panics⟩ := ran
  refine ⟨s₁, (Life.booted booted).step scheduled kept, current, panics, ?_⟩
  rintro ⟨r, _, run⟩
  rw [sysSigreturn_panics current found none] at run
  cases run

end SecureIpc

import Mathlib.Data.Fintype.Card
import Mathlib.Data.List.Nodup
import SecureIpc.Guarantees.Exec
import SecureIpc.Run.Invariant

/-!
Parents, children and reaping in every run: each process has one place in the family, and an exited
child is reported once.
-/

namespace SecureIpc
open Lib

def exits (trace : Trace) : List (Nat × Int) :=
  trace.filterMap fun
    | (some id, .exited code) => some (id, code)
    | _ => none

def reports (trace : Trace) : List (Nat × Int) :=
  trace.filterMap fun
    | (some _, .reaped child code) => some (child, code)
    | _ => none

/-- The exit code of a task that has exited. -/
def TaskControlBlock.fate (self : TaskControlBlock) : Option Int := if self.isZombie then some self.exitCode else none

def aspectOf {α : Type} (aspect : TaskControlBlock → α) (tasks : Nat → Option TaskControlBlock) (id : Nat) : Option α :=
  (tasks id).map aspect

def fateOf : (Nat → Option TaskControlBlock) → Nat → Option (Option Int) := aspectOf TaskControlBlock.fate

section
variable {P : Platform} {k k' : Kernel P} {s s' : System P} {id pid : Nat} {task task' : TaskControlBlock}

/-- Each process but the first is in one list of children, that of its parent, and zombies have no children. -/
structure FamilyFormed (k : Kernel P) : Prop where
  owned : ∀ id task, k.tasks id = some task → id ≠ initproc → ∃ p parent, k.tasks p = some parent ∧ task.parent = some p ∧
    parent.children.count id = 1 ∧ ∀ q other, k.tasks q = some other → q ≠ p → id ∉ other.children
  childless : ∀ id task, k.tasks id = some task → task.isZombie = true → task.children = []

/-- Exits and reports: a task exits at most once and is reported at most once, with its own exit code. It stays a zombie from
its exit until its report, and nothing else makes a task disappear. -/
structure ReapHistory (k : Kernel P) : Prop where
  exitedOnce : ((exits k.trace).map Prod.fst).Nodup
  reportedOnce : ((reports k.trace).map Prod.fst).Nodup
  own : ∀ report ∈ reports k.trace, report ∈ exits k.trace
  waiting : ∀ id code, fateOf k.tasks id = some (some code) ↔ (id, code) ∈ exits k.trace ∧ (id, code) ∉ reports k.trace
  gone : ∀ id < k.nextTask, fateOf k.tasks id = none ↔ ∃ code, (id, code) ∈ reports k.trace

/-- A process keeps its parent, or its parent has exited and `INITPROC` has adopted it. -/
def Reparents (k k' : Kernel P) : Prop :=
  ∀ id task task', k.tasks id = some task → k'.tasks id = some task' → task'.parent = task.parent ∨
    task'.parent = some initproc ∧ ∃ p, task.parent = some p ∧ ∀ parent, k'.tasks p = some parent → parent.isZombie = true

/-- A call of `sys_waitpid` that changes no list of children and reports nothing. -/
structure WaitRefused (k : Kernel P) (r : Int) (k' : Kernel P) : Prop where
  result : r = -1 ∨ r = -2 ∨ r = -14
  children : ∀ id, (k'.tasks id).map TaskControlBlock.children = (k.tasks id).map TaskControlBlock.children
  trace : k'.trace = k.trace

/-- A call of `sys_waitpid` by `caller` that reports the zombie `child` and its exit code. -/
structure WaitReported (k : Kernel P) (caller : Nat) (inner : TaskControlBlock) (pid : Int) (exitCodePtr child : Nat) (r : Int)
    (k' : Kernel P) : Prop where
  zombie : ∃ exited, k.tasks child = some exited ∧ exited.isZombie = true ∧ exited.parent = some caller ∧ r = exited.pid ∧
    UserHolds k'.mm.mem inner.memorySet.token exitCodePtr (toBytes 4 (wordOfInt exited.exitCode)) ∧
    k'.trace = k.trace ++ [(some caller, .reaped child exited.exitCode)]
  member : child ∈ inner.children
  awaited : k.awaits pid child = true
  children : (k'.tasks caller).map TaskControlBlock.children = some (inner.children.erase child)
  others : ∀ id, id ≠ caller → id ≠ child → k'.tasks id = k.tasks id
  gone : k'.tasks child = none

/-- There is a child for which `sys_waitpid(pid, _)` waits. -/
def Kernel.HasAwaited (k : Kernel P) (inner : TaskControlBlock) (pid : Int) : Prop := ∃ child ∈ inner.children, k.awaits pid child = true

/-- One of these children has exited. -/
def Kernel.HasExited (k : Kernel P) (inner : TaskControlBlock) (pid : Int) : Prop :=
  ∃ child ∈ inner.children, k.awaits pid child = true ∧ k.isZombie child = true

/-- What a call of `sys_waitpid` by `caller` comes to: -1 if there is no child it waits for, -2 if none of those has exited,
-14 if one has and its exit code cannot be stored; and if it can, the child is reported. -/
structure WaitOutcome (k : Kernel P) (caller : Nat) (inner : TaskControlBlock) (pid : Int) (exitCodePtr : Nat) (r : Int)
    (k' : Kernel P) : Prop where
  noChild : r = -1 ↔ ¬k.HasAwaited inner pid
  running : r = -2 ↔ k.HasAwaited inner pid ∧ ¬k.HasExited inner pid
  invalid : r = -14 ↔ k.HasExited inner pid ∧ ¬UserRange k.mm.mem inner.memorySet.token exitCodePtr 4 true
  refused : r = -1 ∨ r = -2 ∨ r = -14 → WaitRefused k r k'
  reported : k.HasExited inner pid → UserRange k.mm.mem inner.memorySet.token exitCodePtr 4 true →
    ∃ child, WaitReported k caller inner pid exitCodePtr child r k'

/-! ### What becomes of a task -/

section
variable {α : Type} {aspect : TaskControlBlock → α} {tasks : Nat → Option TaskControlBlock}

theorem aspectOf_set (aspect : TaskControlBlock → α) (tasks : Nat → Option TaskControlBlock) (id : Nat)
    (task : Option TaskControlBlock) :
    aspectOf aspect (Kernel.set tasks id task) = Kernel.set (aspectOf aspect tasks) id (task.map aspect) := by
  funext other
  unfold aspectOf Kernel.set
  split <;> rfl

theorem aspectOf_same (found : tasks id = some task) (same : aspect task' = aspect task) :
    aspectOf aspect (Kernel.set tasks id (some task')) = aspectOf aspect tasks := by
  rw [aspectOf_set, Option.map_some, same]
  apply Kernel.set_self
  rw [aspectOf, found, Option.map_some]

theorem aspectOf_adopted (children : List Nat) (same : ∀ (task : TaskControlBlock) parent children,
    aspect { task with parent, children } = aspect task) :
    aspectOf aspect (Kernel.adopted tasks children) = aspectOf aspect tasks := by
  funext other
  unfold aspectOf Kernel.adopted
  split_ifs
  · rw [Option.map_map]
    congr 1
    exact funext fun task => same task task.parent (task.children ++ children)
  · rw [Option.map_map]
    congr 1
    exact funext fun task => same task (some initproc) task.children
  · rfl

end

theorem fate_alive (alive : task.isZombie = false) : task.fate = none := by simp [TaskControlBlock.fate, alive]

theorem fateOf_alive (found : k.tasks id = some task) (alive : task.isZombie = false) : fateOf k.tasks id = some none := by
  rw [fateOf, aspectOf, found, Option.map_some, fate_alive alive]

/-- What one act does to the fates of the tasks, with what it adds to the history. -/
inductive Fated (k k' : Kernel P) : Prop where
  | same (fate : fateOf k'.tasks = fateOf k.tasks) (next : k'.nextTask = k.nextTask)
      (exits : exits k'.trace = exits k.trace) (reports : reports k'.trace = reports k.trace)
  | exit (id : Nat) (code : Int) (alive : fateOf k.tasks id = some none) (small : id < k.nextTask)
      (fate : fateOf k'.tasks = Kernel.set (fateOf k.tasks) id (some (some code))) (next : k'.nextTask = k.nextTask)
      (exits : exits k'.trace = exits k.trace ++ [(id, code)]) (reports : reports k'.trace = reports k.trace)
  | fork (fate : fateOf k'.tasks = Kernel.set (fateOf k.tasks) k.nextTask (some none)) (next : k'.nextTask = k.nextTask + 1)
      (exits : exits k'.trace = exits k.trace) (reports : reports k'.trace = reports k.trace)
  | reap (child : Nat) (code : Int) (zombie : fateOf k.tasks child = some (some code)) (small : child < k.nextTask)
      (fate : fateOf k'.tasks = Kernel.set (fateOf k.tasks) child none) (next : k'.nextTask = k.nextTask)
      (exits : exits k'.trace = exits k.trace) (reports : reports k'.trace = reports k.trace ++ [(child, code)])

theorem exits_observe (observation : Observation) (other : ∀ code, observation ≠ .exited code) :
    exits (k.observe observation).trace = exits k.trace := by
  unfold exits Kernel.observe
  rw [List.filterMap_append]
  cases observation with
  | exited code => exact absurd rfl (other code)
  | _ => simp

theorem reports_observe (observation : Observation) (other : ∀ child code, observation ≠ .reaped child code) :
    reports (k.observe observation).trace = reports k.trace := by
  unfold reports Kernel.observe
  rw [List.filterMap_append]
  cases observation with
  | reaped child code => exact absurd rfl (other child code)
  | _ => simp

theorem Fated.observed (observation : Observation) (noExit : ∀ code, observation ≠ .exited code)
    (noReport : ∀ child code, observation ≠ .reaped child code) (tasks : k'.tasks = k.tasks) (next : k'.nextTask = k.nextTask)
    (trace : k'.trace = (k.observe observation).trace) : Fated k k' := by
  refine .same (by rw [tasks]) next ?_ ?_
  · rw [trace, exits_observe observation noExit]
  · rw [trace, reports_observe observation noReport]

theorem Fated.stored (found : k.tasks id = some task) (tasks : k'.tasks = Kernel.set k.tasks id (some task'))
    (same : task'.fate = task.fate) (next : k'.nextTask = k.nextTask) (trace : k'.trace = k.trace) :
    Fated k k' := by
  refine .same ?_ next (by rw [trace]) (by rw [trace])
  rw [tasks]
  exact aspectOf_same found same

theorem Act.fated (act : Act k k') (sound : Sound k) : Fated k k' := by
  cases act with
  | environment | files | memory | makePipe => exact .same rfl rfl rfl rfl
  | began => exact .observed (.began _ _ _) nofun nofun rfl rfl rfl
  | ended => exact .observed (.ended _ _ _ _ _) nofun nofun rfl rfl rfl
  | take => exact .observed (.took _ _ _) nofun nofun rfl rfl rfl
  | store => exact .observed (.stored _ _ _) nofun nofun rfl rfl rfl
  | signals found => exact .stored found rfl rfl rfl rfl
  | credentials _ found => exact .stored found rfl rfl rfl rfl
  | descriptors _ found => exact .stored found rfl rfl rfl rfl
  | exec _ found => exact .stored found rfl rfl rfl rfl
  | suspend point current found =>
    have alive := sound.table.current_live current (table_place found)
    exact .stored found rfl (by rw [fate_alive alive]; rfl) rfl rfl
  | @exit id task memorySet mm exitCode current found =>
    have alive := sound.table.current_live current (table_place found)
    refine .exit id exitCode (fateOf_alive found alive) (sound.table.small (table_place found)) ?_ rfl ?_ ?_
    · show fateOf (Kernel.set (Kernel.adopted k.tasks task.children) id _) = _
      rw [fateOf, aspectOf_set, aspectOf_adopted]
      · rfl
      · exact fun _ _ _ => rfl
    · show exits (k.observe (.exited exitCode)).trace = _
      unfold exits Kernel.observe
      rw [List.filterMap_append, current]
      rfl
    · exact reports_observe _ nofun
  | @fork id trapCxPpn task memorySet kernelSpace mm₁ mm₂ current found =>
    have old : id ≠ k.nextTask := Nat.ne_of_lt (sound.table.small (table_place found))
    refine .fork ?_ rfl (exits_observe (.forked k.nextTask) nofun) (reports_observe (.forked k.nextTask) nofun)
    show fateOf (Kernel.set (Kernel.set k.tasks k.nextTask _) id _) = _
    refine (aspectOf_same ((Kernel.set_other old).trans found) ?_).trans ?_
    · rfl
    · rw [aspectOf_set]
      rfl
  | @reap id child vpn task exited pidAllocator kernelSpace mm₁ mm₂ current found member exitedFound zombie =>
    have known : fateOf k.tasks child = some (some exited.exitCode) := by
      rw [fateOf, aspectOf, exitedFound, Option.map_some, TaskControlBlock.fate, if_pos zombie]
    refine .reap child exited.exitCode known (sound.table.small (table_place exitedFound)) ?_ rfl (exits_observe _ nofun) ?_
    · show fateOf (Kernel.set (Kernel.set k.tasks id _) child none) = _
      rw [fateOf, aspectOf_set]
      congr 1
      exact aspectOf_same found rfl
    · show reports (k.trace ++ [(k.current, _)]) = _
      unfold reports
      rw [List.filterMap_append, current]
      rfl

/-! ### The history -/

structure HistoryInv (k : Kernel P) : Prop extends ReapHistory k where
  small : ∀ id code, (id, code) ∈ exits k.trace → id < k.nextTask

theorem ReapHistory.unique (history : ReapHistory k) {code code' : Int} (first : (id, code) ∈ exits k.trace)
    (second : (id, code') ∈ exits k.trace) : code = code' :=
  congrArg Prod.snd (List.inj_on_of_nodup_map history.exitedOnce first second rfl)

theorem HistoryInv.not_exited (inv : HistoryInv k) (alive : fateOf k.tasks id = some none) (code : Int) :
    (id, code) ∉ exits k.trace := by
  intro member
  by_cases reported : (id, code) ∈ reports k.trace
  · have gone := (inv.gone id (inv.small id code member)).mpr ⟨code, reported⟩
    rw [alive] at gone
    cases gone
  · have zombie := (inv.waiting id code).mpr ⟨member, reported⟩
    rw [alive] at zombie
    cases zombie

theorem HistoryInv.fated (inv : HistoryInv k) (fated : Fated k k') : HistoryInv k' := by
  have whole := inv
  obtain ⟨⟨exitedOnce, reportedOnce, own, waiting, gone⟩, small⟩ := whole
  cases fated with
  | same fate next exits reports =>
    refine ⟨⟨?_, ?_, ?_, ?_, ?_⟩, ?_⟩ <;> simpa only [fate, next, exits, reports]
  | exit id code alive low fate next exits reports =>
    have fresh := inv.not_exited alive
    have unreported : ∀ code, (id, code) ∉ SecureIpc.reports k.trace := fun code member => fresh code (own _ member)
    refine ⟨⟨?_, ?_, ?_, ?_, ?_⟩, ?_⟩
    · rw [exits, List.map_append, List.nodup_append]
      refine ⟨exitedOnce, by simp, ?_⟩
      intro other member last again
      simp only [List.map_cons, List.map_nil, List.mem_singleton] at again
      rintro rfl
      obtain ⟨⟨_, code'⟩, inside, rfl⟩ := List.mem_map.mp member
      exact fresh code' (again ▸ inside)
    · rwa [reports]
    · intro report member
      rw [reports] at member
      rw [exits]
      exact List.mem_append_left _ (own report member)
    · intro other code'
      rw [fate, exits, reports]
      by_cases same : other = id
      · subst same
        simp [fresh, unreported, eq_comm]
      · rw [Kernel.set_other same, waiting]
        simp [same]
    · intro other less
      rw [next] at less
      rw [fate, reports]
      by_cases same : other = id
      · subst same
        simp [unreported]
      · rw [Kernel.set_other same, gone other less]
    · intro other code' member
      rw [exits] at member
      rw [next]
      rcases List.mem_append.mp member with old | new
      · exact small other code' old
      · obtain ⟨rfl, rfl⟩ := Prod.mk.inj (List.mem_singleton.mp new)
        exact low
  | fork fate next exits reports =>
    have fresh : ∀ code, (k.nextTask, code) ∉ SecureIpc.exits k.trace := fun code member =>
      Nat.lt_irrefl _ (small _ code member)
    have unreported : ∀ code, (k.nextTask, code) ∉ SecureIpc.reports k.trace := fun code member => fresh code (own _ member)
    refine ⟨⟨by rwa [exits], by rwa [reports], by rwa [exits, reports], ?_, ?_⟩, ?_⟩
    · intro other code'
      rw [fate, exits, reports]
      by_cases same : other = k.nextTask
      · subst same
        simp [fresh]
      · rw [Kernel.set_other same, waiting]
    · intro other less
      rw [next] at less
      rw [fate, reports]
      by_cases same : other = k.nextTask
      · subst same
        simp [unreported]
      · rw [Kernel.set_other same, gone other (by omega)]
    · intro other code' member
      rw [exits] at member
      rw [next]
      exact Nat.lt_succ_of_lt (small other code' member)
  | reap child code zombie low fate next exits reports =>
    obtain ⟨member, missing⟩ := (waiting child code).mp zombie
    have unreported : ∀ code, (child, code) ∉ SecureIpc.reports k.trace := by
      intro code' reported
      have none := (gone child low).mpr ⟨code', reported⟩
      rw [zombie] at none
      cases none
    refine ⟨⟨by rwa [exits], ?_, ?_, ?_, ?_⟩, by rwa [exits, next]⟩
    · rw [reports, List.map_append, List.nodup_append]
      refine ⟨reportedOnce, by simp, ?_⟩
      intro other old last again
      simp only [List.map_cons, List.map_nil, List.mem_singleton] at again
      rintro rfl
      obtain ⟨⟨_, code'⟩, inside, rfl⟩ := List.mem_map.mp old
      exact unreported code' (again ▸ inside)
    · intro report inside
      rw [reports] at inside
      rw [exits]
      rcases List.mem_append.mp inside with old | new
      · exact own report old
      · rw [List.mem_singleton.mp new]
        exact member
    · intro other code'
      rw [fate, exits, reports]
      by_cases same : other = child
      · subst same
        have only : (other, code') ∈ SecureIpc.exits k.trace → code' = code := fun again => inv.unique again member
        simp only [Kernel.set_same, reduceCtorEq, false_iff, not_and, not_not]
        intro again
        rw [only again]
        simp
      · rw [Kernel.set_other same, waiting]
        simp [same]
    · intro other less
      rw [next] at less
      rw [fate, reports]
      by_cases same : other = child
      · subst same
        simp
      · rw [Kernel.set_other same, gone other less]
        simp [same]

theorem Resumed.fated (resumed : Resumed k k') (sound : Sound k) : Fated k k' := by
  obtain ⟨idle, queue, found⟩ := resumed
  have first : k.table.readyQueue = _ := queue
  have alive := sound.table.queue_live (by rw [first]; exact List.mem_cons_self) (table_place found)
  exact .stored found rfl (by rw [fate_alive alive]; rfl) rfl rfl

theorem historyInv : Invariant (P := P) HistoryInv where
  act act sound inv := inv.fated (act.fated sound)
  mark marked inv := by
    obtain ⟨found⟩ := marked
    exact inv.fated (.stored found rfl rfl rfl rfl)
  resume resumed sound inv := inv.fated (resumed.fated sound)
  note noted inv := inv.fated (.observed _ noted.not_exited noted.not_reaped rfl rfl rfl)

theorem Booted.history (booted : Booted k) : HistoryInv k := by
  obtain ⟨⟨task, tasks, _, _, _, status, _⟩, nextTask, _, _, _, _, _, trace, _⟩ := booted
  have alive : task.fate = none := by
    rw [TaskControlBlock.fate, TaskControlBlock.isZombie, status]
    rfl
  have fates : fateOf k.tasks = Kernel.set (fun _ => none) 0 (some none) := by
    rw [tasks, fateOf, aspectOf_set, Option.map_some, alive]
    rfl
  have noExits : exits k.trace = [] := by
    rw [trace]
    rfl
  have noReports : reports k.trace = [] := by
    rw [trace]
    rfl
  refine ⟨⟨by simp [noExits], by simp [noReports], by simp [noReports], ?_, ?_⟩, by simp [noExits]⟩
  · intro id code
    rw [fates, noExits]
    by_cases first : id = 0
    · subst first
      simp
    · simp [Kernel.set_other first]
  · intro id less
    obtain rfl : id = 0 := by omega
    rw [fates, noReports]
    simp

theorem Reachable.history (reachable : Reachable s) : HistoryInv s.kernel :=
  historyInv.reachable (fun _ booted => booted.history) reachable

/-! ### Parents -/

theorem Sound.family (sound : Sound k) : FamilyFormed k where
  owned id task found notFirst := by
    obtain ⟨p, parent, named, _, looked, member⟩ := sound.table.hasParent (table_place found) notFirst
    obtain ⟨owner, there, rfl⟩ := Option.map_eq_some_iff.mp looked
    refine ⟨p, owner, there, named, List.count_eq_one_of_mem (sound.table.distinct looked) member, ?_⟩
    intro q other found' different held
    exact different (sound.table.parent_unique (table_place found') looked held member)
  childless id task found zombie := sound.table.childless (table_place found) zombie

/-- A task is gone or has exited. -/
def Ended (k : Kernel P) (id : Nat) : Prop := ∀ task, k.tasks id = some task → task.isZombie = true

theorem Fated.ended (fated : Fated k k') (ended : Ended k id) (small : id < k.nextTask) : Ended k' id := by
  have before : fateOf k.tasks id ≠ some none := by
    intro alive
    obtain ⟨task, found, none⟩ := Option.map_eq_some_iff.mp alive
    have zombie := ended task found
    simp [TaskControlBlock.fate, zombie] at none
  have after : fateOf k'.tasks id ≠ some none := by
    cases fated with
    | same fate => rwa [fate]
    | exit other code _ _ fate =>
      rw [fate]
      by_cases same : id = other
      · simp [same]
      · rwa [Kernel.set_other same]
    | fork fate =>
      rwa [fate, Kernel.set_other (Nat.ne_of_lt small)]
    | reap child _ _ _ fate =>
      rw [fate]
      by_cases same : id = child
      · simp [same]
      · rwa [Kernel.set_other same]
  intro task found
  by_contra alive
  exact after (fateOf_alive found (Bool.eq_false_iff.mpr alive))

inductive ParentAfter (k k' : Kernel P) (task task' : TaskControlBlock) : Prop where
  | same (same : task'.parent = task.parent)
  | adopted (parent : task'.parent = some initproc) (p : Nat) (named : task.parent = some p) (ended : Ended k' p)
      (other : p ≠ initproc) (small : p < k'.nextTask)

/-- Storing a task with the same parent changes no parent. -/
theorem parentAfter_stored {other : Nat} {old new : TaskControlBlock} (looked : k.tasks other = some old)
    (found : k.tasks id = some task) (found' : Kernel.set k.tasks other (some new) id = some task')
    (same : new.parent = old.parent) : ParentAfter k k' task task' := by
  rcases setTask_cases found' with ⟨rfl, rfl⟩ | ⟨_, kept⟩
  · obtain rfl := Option.some.inj (looked.symm.trans found)
    exact .same same
  · obtain rfl := Option.some.inj (kept.symm.trans found)
    exact .same rfl

theorem Act.parentAfter (act : Act k k') (sound : Sound k) (found : k.tasks id = some task) (found' : k'.tasks id = some task') :
    ParentAfter k k' task task' := by
  cases act with
  | environment | files | began | ended | memory | take | store | makePipe =>
    obtain rfl := Option.some.inj (found'.symm.trans found)
    exact .same rfl
  | signals looked => exact parentAfter_stored looked found found' rfl
  | credentials _ looked => exact parentAfter_stored looked found found' rfl
  | descriptors _ looked => exact parentAfter_stored looked found found' rfl
  | suspend _ _ looked => exact parentAfter_stored looked found found' rfl
  | exec _ looked => exact parentAfter_stored looked found found' rfl
  | @exit caller inner memorySet mm exitCode current looked notIdle =>
    rcases setTask_cases found' with ⟨rfl, rfl⟩ | ⟨different, kept⟩
    · obtain rfl := Option.some.inj (looked.symm.trans found)
      exact .same rfl
    · replace kept : Kernel.adopted k.tasks inner.children id = some task' := kept
      unfold Kernel.adopted at kept
      rw [found] at kept
      split_ifs at kept with first child
      · obtain rfl := Option.some.inj kept
        exact .same rfl
      · obtain rfl := Option.some.inj kept
        obtain ⟨place, there, parent, _⟩ := sound.table.isChild (table_place looked) child
        obtain rfl := Option.some.inj (there.symm.trans (table_place found))
        refine .adopted rfl caller parent ?_ ?_ (sound.table.small (table_place looked))
        · intro after found''
          obtain rfl := Option.some.inj ((Kernel.set_same _ _ _).symm.trans found'')
          rfl
        · rintro rfl
          obtain ⟨_, init, samePid, _⟩ := sound.table.init
          obtain rfl := Option.some.inj (init.symm.trans (table_place looked))
          exact notIdle samePid
      · obtain rfl := Option.some.inj kept
        exact .same rfl
  | @fork caller trapCxPpn inner memorySet kernelSpace mm₁ mm₂ current looked =>
    have old : id ≠ k.nextTask := Nat.ne_of_lt (sound.table.small (table_place found))
    rcases setTask_cases found' with ⟨rfl, rfl⟩ | ⟨_, kept⟩
    · obtain rfl := Option.some.inj (looked.symm.trans found)
      exact .same rfl
    · rw [Kernel.set_other old] at kept
      obtain rfl := Option.some.inj (kept.symm.trans found)
      exact .same rfl
  | reap _ looked =>
    rcases Kernel.set_eq_some.mp found' with ⟨_, gone⟩ | ⟨_, kept⟩
    · cases gone
    · exact parentAfter_stored looked found kept rfl

theorem Fated.next_le (fated : Fated k k') : k.nextTask ≤ k'.nextTask := by
  cases fated with
  | same _ next => exact Nat.le_of_eq next.symm
  | exit _ _ _ _ _ next => exact Nat.le_of_eq next.symm
  | fork _ next => omega
  | reap _ _ _ _ _ next => exact Nat.le_of_eq next.symm

/-- Task numbers are not used again. -/
theorem Fated.present (fated : Fated k k') (small : id < k.nextTask) (found : k'.tasks id = some task') :
    ∃ task, k.tasks id = some task := by
  have after : fateOf k'.tasks id ≠ none := by
    rw [fateOf, aspectOf, found]
    exact Option.some_ne_none _
  have before : fateOf k.tasks id ≠ none := by
    cases fated with
    | same fate => rwa [← fate]
    | exit other code alive _ fate =>
      by_cases same : id = other
      · rw [same, alive]
        exact Option.some_ne_none _
      · rwa [fate, Kernel.set_other same] at after
    | fork fate => rwa [fate, Kernel.set_other (Nat.ne_of_lt small)] at after
    | reap child _ zombie _ fate =>
      by_cases same : id = child
      · rw [same, zombie]
        exact Option.some_ne_none _
      · rwa [fate, Kernel.set_other same] at after
  cases looked : k.tasks id with
  | none =>
    rw [fateOf, aspectOf, looked] at before
    exact absurd rfl before
  | some task => exact ⟨task, rfl⟩

structure Reparented (start k : Kernel P) : Prop where
  next : start.nextTask ≤ k.nextTask
  small : ∀ id task, start.tasks id = some task → id < start.nextTask
  parents : ∀ id task task', start.tasks id = some task → k.tasks id = some task' → ParentAfter start k task task'

theorem Reparented.after {start : Kernel P} (inv : Reparented start k) (fated : Fated k k')
    (parents : ∀ id task task', k.tasks id = some task → k'.tasks id = some task' → ParentAfter k k' task task') :
    Reparented start k' := by
  refine ⟨Nat.le_trans inv.next fated.next_le, inv.small, ?_⟩
  intro id task task' found found'
  have small := Nat.lt_of_lt_of_le (inv.small id task found) inv.next
  obtain ⟨between, looked⟩ := fated.present small found'
  cases inv.parents id task between found looked with
  | same first =>
    cases parents id between task' looked found' with
    | same second => exact .same (second.trans first)
    | adopted parent p named ended other small => exact .adopted parent p (first.symm.trans named) ended other small
  | adopted first p named ended other low =>
    cases parents id between task' looked found' with
    | same second => exact .adopted (second.trans first) p named (fated.ended ended low) other (Nat.lt_of_lt_of_le low fated.next_le)
    | adopted _ q again _ different => exact absurd (Option.some.inj (again.symm.trans first)) different

theorem reparentedInv (start : Kernel P) : Invariant (Reparented start) where
  act act sound inv := inv.after (act.fated sound) fun _ _ _ found found' => act.parentAfter sound found found'
  mark marked inv := by
    obtain ⟨found⟩ := marked
    exact inv.after (.stored found rfl rfl rfl rfl) fun _ _ _ before after => parentAfter_stored found before after rfl
  resume resumed sound inv := by
    refine inv.after (resumed.fated sound) ?_
    obtain ⟨idle, queue, found⟩ := resumed
    exact fun _ _ _ before after => parentAfter_stored found before after rfl
  note noted inv := by
    refine inv.after (.observed _ noted.not_exited noted.not_reaped rfl rfl rfl) ?_
    intro id task task' found found'
    obtain rfl := Option.some.inj (found'.symm.trans found)
    exact .same rfl

theorem Sound.reparents (sound : Sound s.kernel) (acts : StepActs s s') : Reparents s.kernel s'.kernel := by
  have start : Reparented s.kernel s.kernel := by
    refine ⟨Nat.le_refl _, fun id task found => sound.table.small (table_place found), ?_⟩
    intro id task task' found found'
    obtain rfl := Option.some.inj (found'.symm.trans found)
    exact .same rfl
  intro id task task' found found'
  cases ((reparentedInv s.kernel).step acts sound start).parents id task task' found found' with
  | same same => exact Or.inl same
  | adopted parent p named ended => exact Or.inr ⟨parent, p, named, ended⟩

/-! ### Pids are small -/

def TaskControlBlock.identity (self : TaskControlBlock) : Nat × List Nat := (self.pid, self.memorySet.pageTable.frames)

def identityOf : (Nat → Option TaskControlBlock) → Nat → Option (Nat × List Nat) := aspectOf TaskControlBlock.identity

/-- Every pid in use belongs to a task, every task has a page table, and so there are fewer pids than frames. -/
structure PidsInv (k : Kernel P) : Prop where
  used : ∀ pid, 1 ≤ pid → k.pidAllocator.Holds pid → ∃ id frames, identityOf k.tasks id = some (pid, frames)
  rooted : ∀ id pid frames, identityOf k.tasks id = some (pid, frames) → frames ≠ []
  bound : k.pidAllocator.current ≤ lastFrame + 2

theorem Sound.rooted (sound : Sound k) (found : k.tasks id = some task) (alive : task.isZombie = false) :
    task.memorySet.pageTable.frames ≠ [] := by
  obtain ⟨path, tree⟩ := (sound.user found alive).whole.tree
  exact List.ne_nil_of_mem tree.root_mem

/-- If no pid has come back, there is a task for each pid up to the next one, and each owns a frame. -/
theorem PidsInv.fresh (inv : PidsInv k) (sound : Sound k) (none : k.pidAllocator.recycled = []) :
    k.pidAllocator.current ≤ lastFrame + 1 := by
  have owner : ∀ i : Fin (k.pidAllocator.current - 1), ∃ p id task, k.tasks id = some task ∧ task.pid = i + 1 ∧
      p ∈ task.memorySet.frames := by
    intro i
    have less := i.isLt
    obtain ⟨id, frames, looked⟩ := inv.used (i + 1) (by omega) ⟨by omega, by simp [none]⟩
    obtain ⟨p, member⟩ := List.exists_mem_of_ne_nil _ (inv.rooted id _ frames looked)
    obtain ⟨task, found, same⟩ := Option.map_eq_some_iff.mp looked
    obtain ⟨samePid, rfl⟩ := Prod.mk.inj same
    exact ⟨p, id, task, found, samePid, List.mem_append_left _ member⟩
  choose frame id task found same member using owner
  have small : ∀ i, frame i < lastFrame := by
    intro i
    have owns := sound.isolated.separate.owns (some (id i))
    rw [owned_some (found i)] at owns
    exact (live_range owns (member i)).2
  have injective : Function.Injective frame := by
    intro i j clash
    have holder : id i = id j := by
      by_contra different
      have apart := sound.isolated.separate.apart (some (id i)) (some (id j)) (fun equal => different (Option.some.inj equal))
      rw [owned_some (found i), owned_some (found j)] at apart
      exact apart _ (member i) (clash ▸ member j)
    have first := found i
    rw [holder, found j] at first
    have pids := congrArg TaskControlBlock.pid (Option.some.inj first)
    rw [same i, same j] at pids
    exact Fin.ext (by omega)
  let place : Fin (k.pidAllocator.current - 1) → Fin lastFrame := fun i => ⟨frame i, small i⟩
  have distinct : Function.Injective place := fun i j clash => injective (congrArg Fin.val clash)
  have count := Fintype.card_le_of_injective place distinct
  rw [Fintype.card_fin, Fintype.card_fin] at count
  omega

theorem PidsInv.same (inv : PidsInv k) (tasks : identityOf k'.tasks = identityOf k.tasks)
    (allocator : k'.pidAllocator = k.pidAllocator) : PidsInv k' := by
  obtain ⟨used, rooted, bound⟩ := inv
  rw [← tasks, ← allocator] at used
  rw [← tasks] at rooted
  rw [← allocator] at bound
  exact ⟨used, rooted, bound⟩

theorem PidsInv.exec (inv : PidsInv k) (found : k.tasks id = some task) (tasks : k'.tasks = Kernel.set k.tasks id (some task'))
    (allocator : k'.pidAllocator = k.pidAllocator) (same : task'.pid = task.pid)
    (root : task'.memorySet.pageTable.frames ≠ []) : PidsInv k' := by
  refine ⟨?_, ?_, by rw [allocator]; exact inv.bound⟩
  · intro pid low holds
    rw [allocator] at holds
    rw [tasks, identityOf, aspectOf_set]
    obtain ⟨holder, frames, looked⟩ := inv.used pid low holds
    by_cases here : holder = id
    · subst here
      rw [identityOf, aspectOf, found] at looked
      obtain ⟨rfl, _⟩ := Prod.mk.inj (Option.some.inj looked)
      exact ⟨holder, _, (Kernel.set_same _ _ _).trans (by rw [Option.map_some, TaskControlBlock.identity, same])⟩
    · exact ⟨holder, frames, (Kernel.set_other here).trans looked⟩
  · intro other pid frames looked
    rw [tasks, identityOf, aspectOf_set] at looked
    rcases Kernel.set_eq_some.mp looked with ⟨_, here⟩ | ⟨_, old⟩
    · obtain ⟨_, rfl⟩ := Prod.mk.inj (Option.some.inj here)
      exact root
    · exact inv.rooted other pid frames old

theorem alloc_holds_iff {self : PidAllocator} (holds : self.alloc.2.Holds pid) : self.Holds pid ∨ pid = self.alloc.1 := by
  obtain ⟨current, recycled⟩ := self
  obtain ⟨small, out⟩ := holds
  cases recycled with
  | nil =>
    have less : pid < current + 1 := small
    by_cases last : pid = current
    · exact Or.inr last
    · exact Or.inl ⟨show pid < current by omega, List.not_mem_nil⟩
  | cons first rest =>
    by_cases same : pid = first
    · exact Or.inr same
    · refine Or.inl ⟨small, ?_⟩
      simp only [List.mem_cons, not_or]
      exact ⟨same, out⟩

theorem Act.pidsInv (act : Act k k') (sound : Sound k) (inv : PidsInv k) : PidsInv k' := by
  have after := act.sound sound
  cases act with
  | environment | files | began | ended | memory | take | store | makePipe => exact inv.same rfl rfl
  | signals found => exact inv.same (aspectOf_same found rfl) rfl
  | credentials _ found => exact inv.same (aspectOf_same found rfl) rfl
  | descriptors _ found => exact inv.same (aspectOf_same found rfl) rfl
  | suspend _ _ found => exact inv.same (aspectOf_same found rfl) rfl
  | exec current found =>
    have alive := sound.table.current_live current (table_place found)
    exact inv.exec found rfl rfl rfl (after.rooted (Kernel.setTask_same _ _ _) alive)
  | @exit caller inner memorySet mm exitCode current found notIdle run =>
    have owns := sound.isolated.separate.owns (some caller)
    rw [owned_some found] at owns
    obtain ⟨rfl, _⟩ := wp_ok (recycleDataPages_spec owns) run
    refine inv.same ?_ rfl
    show identityOf (Kernel.set (Kernel.adopted k.tasks inner.children) caller _) = _
    rw [identityOf, aspectOf_set, aspectOf_adopted _ fun _ _ _ => rfl]
    apply Kernel.set_self
    rw [aspectOf, found]
    rfl
  | @fork caller trapCxPpn inner memorySet kernelSpace mm₁ mm₂ current found =>
    have old : caller ≠ k.nextTask := Nat.ne_of_lt (sound.table.small (table_place found))
    have born : Kernel.set (Kernel.set k.tasks k.nextTask (some (inner.forked caller k.pidAllocator.alloc.1 trapCxPpn memorySet)))
        caller (some { inner with children := inner.children ++ [k.nextTask] }) k.nextTask =
          some (inner.forked caller k.pidAllocator.alloc.1 trapCxPpn memorySet) := by
      rw [Kernel.set_other (Ne.symm old), Kernel.set_same]
    have root := after.rooted born rfl
    have view : identityOf (Kernel.set (Kernel.set k.tasks k.nextTask
        (some (inner.forked caller k.pidAllocator.alloc.1 trapCxPpn memorySet))) caller
        (some { inner with children := inner.children ++ [k.nextTask] })) =
          Kernel.set (identityOf k.tasks) k.nextTask (some (k.pidAllocator.alloc.1, memorySet.pageTable.frames)) := by
      refine (aspectOf_same ((Kernel.set_other old).trans found) ?_).trans ?_
      · rfl
      · rw [aspectOf_set]
        rfl
    refine ⟨?_, ?_, ?_⟩
    · intro pid low holds
      show ∃ id frames, identityOf (Kernel.set _ caller _) id = _
      rw [view]
      rcases alloc_holds_iff holds with before | rfl
      · obtain ⟨holder, frames, looked⟩ := inv.used pid low before
        refine ⟨holder, frames, (Kernel.set_other ?_).trans looked⟩
        rintro rfl
        obtain ⟨task, there, _⟩ := Option.map_eq_some_iff.mp looked
        exact Nat.lt_irrefl _ (sound.table.small (table_place there))
      · exact ⟨k.nextTask, _, Kernel.set_same _ _ _⟩
    · intro other pid frames looked
      replace looked : identityOf (Kernel.set _ caller _) other = _ := looked
      rw [view] at looked
      rcases Kernel.set_eq_some.mp looked with ⟨_, here⟩ | ⟨_, before⟩
      · obtain ⟨_, rfl⟩ := Prod.mk.inj (Option.some.inj here)
        exact root
      · exact inv.rooted other pid frames before
    · show k.pidAllocator.alloc.2.current ≤ _
      have bound := inv.bound
      cases recycled : k.pidAllocator.recycled with
      | nil =>
        have fresh := inv.fresh sound recycled
        simp only [PidAllocator.alloc, recycled]
        omega
      | cons first rest =>
        simp only [PidAllocator.alloc, recycled]
        exact bound
  | @reap caller child vpn inner exited pidAllocator kernelSpace mm₁ mm₂ current found member exitedFound zombie freed =>
    have holds : k.pidAllocator.Holds exited.pid := sound.table.holds (table_place exitedFound)
    rw [PidAllocator.dealloc_ok holds] at freed
    obtain rfl := Except.ok.inj freed
    have view : identityOf (Kernel.set (Kernel.set k.tasks caller
        (some { inner with children := inner.children.erase child })) child none) =
          Kernel.set (identityOf k.tasks) child none := by
      rw [identityOf, aspectOf_set]
      congr 1
      exact aspectOf_same found rfl
    refine ⟨?_, ?_, inv.bound⟩
    · intro pid low holds
      show ∃ id frames, identityOf (Kernel.set _ child none) id = _
      rw [view]
      obtain ⟨below, out⟩ := holds
      replace out : pid ∉ exited.pid :: k.pidAllocator.recycled := out
      rw [List.mem_cons, not_or] at out
      obtain ⟨holder, frames, looked⟩ := inv.used pid low ⟨below, out.2⟩
      refine ⟨holder, frames, (Kernel.set_other ?_).trans looked⟩
      rintro rfl
      rw [identityOf, aspectOf, exitedFound] at looked
      exact out.1 (Prod.mk.inj (Option.some.inj looked)).1.symm
    · intro other pid frames looked
      replace looked : identityOf (Kernel.set _ child none) other = _ := looked
      rw [view] at looked
      rcases Kernel.set_eq_some.mp looked with ⟨_, gone⟩ | ⟨_, before⟩
      · cases gone
      · exact inv.rooted other pid frames before

theorem pidsInv : Invariant (P := P) PidsInv where
  act act sound inv := act.pidsInv sound inv
  mark marked inv := by
    obtain ⟨found⟩ := marked
    exact inv.same (aspectOf_same found rfl) rfl
  resume resumed _ inv := by
    obtain ⟨_, _, found⟩ := resumed
    exact inv.same (aspectOf_same found rfl) rfl
  note _ inv := inv.same rfl rfl

theorem Booted.pidsInv (booted : Booted k) : PidsInv k := by
  have sound := booted.sound
  obtain ⟨⟨task, tasks, pid, _, _, status, _⟩, nextTask, _, _, _, pids, _, trace, _⟩ := booted
  have found : k.tasks 0 = some task := by
    rw [tasks]
    rfl
  have view : identityOf k.tasks = Kernel.set (fun _ => none) 0 (some (1, task.memorySet.pageTable.frames)) := by
    rw [tasks, identityOf, aspectOf_set, Option.map_some, TaskControlBlock.identity, pid]
    rfl
  refine ⟨?_, ?_, ?_⟩
  · intro pid low holds
    rw [pids] at holds
    have below : pid < 2 := holds.1
    obtain rfl : pid = 1 := by omega
    exact ⟨0, task.memorySet.pageTable.frames, by rw [view]; rfl⟩
  · intro id pid frames looked
    rw [view] at looked
    rcases Kernel.set_eq_some.mp looked with ⟨_, here⟩ | ⟨_, none⟩
    · obtain ⟨_, rfl⟩ := Prod.mk.inj (Option.some.inj here)
      exact sound.rooted found (by rw [TaskControlBlock.isZombie, status]; rfl)
    · cases none
  · rw [pids]
    decide

/-- Pids are far below the largest number that a system call can return. -/
theorem Reachable.pid_lt (reachable : Reachable s) (passes : Passes s k) (found : k.tasks id = some task) : task.pid < 2 ^ 63 := by
  have inv := pidsInv.reachable (fun _ booted => booted.pidsInv) reachable
  obtain ⟨sound, pids⟩ := pidsInv.passes passes reachable.sound inv
  have bound := pids.bound
  have holds := (sound.table.holds (table_place found)).1
  have last := lastFrame_eq
  have less : task.pid < k.pidAllocator.current := holds
  omega

/-! ### One call of `sys_waitpid` -/

theorem kernelStackPage_ok (pid : Nat) : ∃ vpn, kernelStackPage pid = .ok vpn := by
  have aligned : VirtAddr.pageOffset (VirtAddr.ofUsize (kernelStackPosition pid).1) = 0 := by
    unfold kernelStackPosition subWrap VirtAddr.pageOffset VirtAddr.ofUsize trampoline kernelStackSize pageSize
    dsimp only
    omega
  unfold kernelStackPage VirtAddr.toVpn
  rw [if_pos aligned]
  exact ⟨_, rfl⟩

theorem UserSpace.keeps {layout : Layout} {mm mm' : Mm} {space : MemorySet} {addr : Nat} {bytes : List UInt8} {write : Bool}
    (user : UserSpace layout mm space) (holds : UserHolds mm.mem space.token addr bytes)
    (range : UserRange mm.mem space.token addr bytes.length write)
    (same : ∀ p ∈ space.frames, (frameStore layout).content mm' p = (frameStore layout).content mm p) :
    UserHolds mm'.mem space.token addr bytes := by
  have unmoved : ∀ x, x / 4096 ∈ space.pageTable.frames ∨ x / 4096 ∈ space.userFrames → mm'.mem x = mm.mem x := by
    rintro x (node | data)
    · exact mem_of_content (same _ (List.mem_append_left _ node)) rfl
    · exact mem_of_content (same _ (List.mem_append_right _ (userFrames_subset data))) rfl
  obtain ⟨table, shows⟩ := user.distinct.shows.keep user unmoved
  intro i inside
  obtain ⟨limit, pages⟩ := table.range.mpr range
  rw [shows.userByte (by omega) (pages _ (by omega) (by omega)), holds i inside]
  rfl

/-- Dropping the control block of a child that has been taken off its parent's list. -/
theorem dropTask_reaps {child : Nat} {exited : TaskControlBlock} (sound : Sound k) (found : k.tasks id = some task)
    (member : child ∈ task.children) (childFound : k.tasks child = some exited) :
    wp (dropTask child) (fun _ k' => ∃ pidAllocator kernelSpace mm', k' = k.reaped id task child pidAllocator kernelSpace mm' ∧
      ∀ other next, k.tasks other = some next → ∀ p ∈ next.memorySet.frames,
        (frameStore P.layout).content mm' p = (frameStore P.layout).content k.mm p) (fun _ => False)
      (k.setTask id { task with children := task.children.erase child }) := by
  have different : child ≠ id := fun same => sound.table.child_ne (table_place found) (same ▸ member)
  have still : (k.setTask id { task with children := task.children.erase child }).tasks child = some exited :=
    (Kernel.set_other different).trans childFound
  have freed := PidAllocator.dealloc_ok (sound.table.holds (table_place childFound))
  have space := sound.isolated.kernel
  -- the frames of a task stay its own while the kernel's address space changes
  have others : ∀ {vpn kernelSpace mm₁}, k.kernelSpace.removeAreaWithStartVpn vpn k.mm = .ok (kernelSpace, mm₁) →
      ∀ other next, k.tasks other = some next → (frameStore P.layout).Owns mm₁ next.memorySet.frames ∧
        ∀ p ∈ next.memorySet.frames, (frameStore P.layout).content mm₁ p = (frameStore P.layout).content k.mm p := by
    intro vpn kernelSpace mm₁ removed other next looked
    obtain ⟨_, step, _⟩ := wp_ok (removeArea_spec space vpn) removed
    have owns := sound.isolated.separate.owns (some other)
    have apart := sound.isolated.separate.apart (some other) none (Option.some_ne_none other)
    rw [owned_some looked] at owns apart
    exact ⟨step.owns_other owns apart, step.same_other owns apart⟩
  refine dropTask_wp still freed ?_ ?_ ?_
  · intro vpn kernelSpace mm₁ mm₂ _ removed dropped
    refine ⟨_, kernelSpace, mm₂, rfl, ?_⟩
    intro other next looked p inside
    obtain ⟨owns, _⟩ := others removed child exited childFound
    obtain ⟨unchanged, _⟩ := wp_ok (drop_spec owns) dropped
    rw [← (others removed other next looked).2 p inside]
    exact content_of_mem fun x _ => by rw [unchanged]
  · intro f misaligned
    obtain ⟨vpn, aligned⟩ := kernelStackPage_ok exited.pid
    rw [aligned] at misaligned
    cases misaligned
  · rintro vpn f (failed | ⟨kernelSpace, mm₁, removed, failed⟩)
    · exact wp_error (removeArea_spec space vpn) failed
    · exact wp_error (drop_spec (others removed child exited childFound).1) failed

theorem reported_of_reaped {child exitCodePtr : Nat} {pid : Int} {exited : TaskControlBlock} {pidAllocator : PidAllocator}
    {kernelSpace : MemorySet} {mem : PhysMem} {mm' : Mm} (current : k.current = some id)
    (member : child ∈ task.children) (awaited : k.awaits pid child = true) (different : child ≠ id) (childFound : k.tasks child = some exited)
    (zombie : exited.isZombie = true) (parent : exited.parent = some id) (small : exited.pid < 2 ^ 63)
    (holds : UserHolds mm'.mem task.memorySet.token exitCodePtr (toBytes 4 (wordOfInt exited.exitCode))) :
    WaitReported k id task pid exitCodePtr child (intOfWord exited.pid)
      (((k.setMem mem).reaped id task child pidAllocator kernelSpace mm').observe (.reaped child exited.exitCode)) where
  zombie := by
    refine ⟨exited, childFound, zombie, parent, intOfWord_small small, holds, ?_⟩
    show k.trace ++ [(k.current, _)] = _
    rw [current]
  member := member
  awaited := awaited
  children := by
    show (Kernel.set (Kernel.set k.tasks id _) child none id).map _ = _
    rw [Kernel.set_other (Ne.symm different), Kernel.set_same]
    rfl
  others other notCaller notChild := (Kernel.set_other notChild).trans (Kernel.set_other notCaller)
  gone := Kernel.set_same _ _ _

theorem WaitRefused.of_same {r : Int} (result : r = -1 ∨ r = -2 ∨ r = -14) : WaitRefused k r k := ⟨result, fun _ => rfl, rfl⟩

theorem WaitOutcome.of_cases {pid r : Int} {exitCodePtr : Nat}
    (cases : ¬k.HasAwaited task pid ∧ r = -1 ∧ WaitRefused k r k' ∨ k.HasAwaited task pid ∧ ¬k.HasExited task pid ∧ r = -2 ∧ WaitRefused k r k' ∨
      k.HasExited task pid ∧ ¬UserRange k.mm.mem task.memorySet.token exitCodePtr 4 true ∧ r = -14 ∧ WaitRefused k r k' ∨
      k.HasExited task pid ∧ UserRange k.mm.mem task.memorySet.token exitCodePtr 4 true ∧
        ∃ child, WaitReported k id task pid exitCodePtr child r k') : WaitOutcome k id task pid exitCodePtr r k' := by
  have exitedAwaited : k.HasExited task pid → k.HasAwaited task pid := by
    rintro ⟨child, member, awaited, _⟩
    exact ⟨child, member, awaited⟩
  rcases cases with ⟨nobody, rfl, refused⟩ | ⟨somebody, alive, rfl, refused⟩ | ⟨exited, range, rfl, refused⟩ | ⟨exited, range, child, reported⟩
  · have none : ¬k.HasExited task pid := fun exited => nobody (exitedAwaited exited)
    exact ⟨iff_of_true rfl nobody, iff_of_false (by decide) fun both => nobody both.1, iff_of_false (by decide) fun both => none both.1,
      fun _ => refused, fun exited => absurd exited none⟩
  · exact ⟨iff_of_false (by decide) fun nobody => nobody somebody, iff_of_true rfl ⟨somebody, alive⟩,
      iff_of_false (by decide) fun both => alive both.1, fun _ => refused, fun exited => absurd exited alive⟩
  · exact ⟨iff_of_false (by decide) fun nobody => nobody (exitedAwaited exited), iff_of_false (by decide) fun both => both.2 exited,
      iff_of_true rfl ⟨exited, range⟩, fun _ => refused, fun _ inside => absurd inside range⟩
  · obtain ⟨_, _, _, _, same, _⟩ := reported.zombie
    exact ⟨iff_of_false (by omega) fun nobody => nobody (exitedAwaited exited), iff_of_false (by omega) fun both => both.2 exited,
      iff_of_false (by omega) fun both => both.2 range, fun result => by omega, fun _ _ => ⟨child, reported⟩⟩

section
variable {child exitCodePtr : Nat} {exited : TaskControlBlock} {pid : Int}

/-- With the exit code stored, the child is dropped and reported. -/
theorem reap_reports {mem : PhysMem} (sound : Sound k) (current : k.current = some id) (found : k.tasks id = some task)
    (member : child ∈ task.children) (awaited : k.awaits pid child = true) (childFound : k.tasks child = some exited)
    (zombie : exited.isZombie = true) (small : exited.pid < 2 ^ 63)
    (range : UserRange k.mm.mem task.memorySet.token exitCodePtr (toBytes 4 (wordOfInt exited.exitCode)).length true)
    (written : Written k.mm.mem mem task.memorySet.token exitCodePtr (toBytes 4 (wordOfInt exited.exitCode)))
    (act : Act k (k.setMem mem)) :
    wp (do
      putInner id { task with children := task.children.erase child }
      if ← Program.read fun k : Kernel P => k.stronglyHeld child then throw .strongCount
      else
        dropTask child
        observe (.reaped child exited.exitCode)
        return intOfWord exited.pid)
      (fun r k' => WaitReported k id task pid exitCodePtr child r k') (fun _ => False) (k.setMem mem) := by
  have alive := sound.table.current_live current (table_place found)
  have user := sound.user found alive
  have sound₁ := act.sound sound
  have held := not_stronglyHeld sound₁ current found member childFound zombie
  have different : child ≠ id := fun same => sound.table.child_ne (table_place found) (same ▸ member)
  obtain ⟨place, childPlace, parent, _⟩ := sound.table.isChild (table_place found) member
  rw [table_place childFound] at childPlace
  obtain rfl := Option.some.inj childPlace
  apply wp_bind.mpr
  rw [wp_putInner]
  apply wp_bind.mpr
  rw [wp_read, held, if_neg Bool.false_ne_true]
  apply wp_bind.mpr
  refine wp_mono (dropTask_reaps sound₁ found member childFound) ?_ fun _ impossible => impossible
  rintro _ _ ⟨pidAllocator, kernelSpace, mm', rfl, kept⟩
  simp only [wp_bind, wp_observe, wp_pure]
  have here : UserHolds mem task.memorySet.token exitCodePtr (toBytes 4 (wordOfInt exited.exitCode)) := fun i inside =>
    written.userByte user.distinct range inside
  have table : SameTable k.mm.mem mem task.memorySet.token := written.translate user.distinct range
  have there := (sound₁.user found alive).keeps here (table.range.mpr range) (kept id task found)
  exact reported_of_reaped current member awaited different childFound zombie parent small there

/-- For a child that has exited the call returns -14, or reports it. -/
theorem waitpid_exited (sound : Sound k) (current : k.current = some id) (found : k.tasks id = some task)
    (member : child ∈ task.children) (awaited : k.awaits pid child = true) (childFound : k.tasks child = some exited)
    (zombie : exited.isZombie = true) (small : exited.pid < 2 ^ 63) :
    wp (do
      match ← mm (copyToUser task.memorySet.token exitCodePtr (toBytes 4 (wordOfInt exited.exitCode))) with
      | .error _ => return -14
      | .ok () =>
        putInner id { task with children := task.children.erase child }
        if ← Program.read fun k : Kernel P => k.stronglyHeld child then throw .strongCount
        else
          dropTask child
          observe (.reaped child exited.exitCode)
          return intOfWord exited.pid)
      (fun r k' => WaitOutcome k id task pid exitCodePtr r k') (fun _ => False) k := by
  have alive := sound.table.current_live current (table_place found)
  have user := sound.user found alive
  have hasExited : k.HasExited task pid := ⟨child, member, awaited, by rw [Kernel.isZombie, childFound]; exact zombie⟩
  have length := toBytes_length 4 (wordOfInt exited.exitCode)
  have nonempty : toBytes 4 (wordOfInt exited.exitCode) ≠ [] := List.ne_nil_of_length_pos (by omega)
  by_cases range : UserRange k.mm.mem task.memorySet.token exitCodePtr (toBytes 4 (wordOfInt exited.exitCode)).length true
  · obtain ⟨mem, run, written⟩ := @copyToUser_ok k.mm _ _ _ nonempty user.distinct range
    have stored := wp_ok (copyToUser_stored user exitCodePtr _) run
    refine wp_bind.mpr (wp_mm_run (fun r m run' => ?_) fun f failed => ?_)
    · obtain ⟨rfl, rfl⟩ := Prod.mk.inj (Except.ok.inj (run.symm.trans run'))
      refine wp_mono (reap_reports sound current found member awaited childFound zombie small range written
        (.userWrite found alive (sound.own current found) stored.outside)) ?_ fun _ impossible => impossible
      intro r k' reported
      rw [length] at range
      exact .of_cases (Or.inr (Or.inr (Or.inr ⟨hasExited, range, child, reported⟩)))
    · rw [run] at failed
      cases failed
  · have refused := @copyToUser_refused k.mm _ _ _ nonempty range
    rw [length] at range
    refine wp_bind.mpr (wp_mm_run (fun r m run => ?_) fun f failed => ?_)
    · obtain ⟨rfl, rfl⟩ := Prod.mk.inj (Except.ok.inj (refused.symm.trans run))
      exact .of_cases (Or.inr (Or.inr (Or.inl ⟨hasExited, range, rfl, .of_same (Or.inr (Or.inr rfl))⟩)))
    · rw [refused] at failed
      cases failed

end

theorem sysWaitpid_outcome (sound : Sound k) (current : k.current = some id) (found : k.tasks id = some task)
    (small : ∀ other (exited : TaskControlBlock), k.tasks other = some exited → exited.pid < 2 ^ 63) (pid : Int) (exitCodePtr : Nat) :
    wp (sysWaitpid pid exitCodePtr) (fun r k' => WaitOutcome k id task pid exitCodePtr r k') (fun _ => False) k := by
  simp only [sysWaitpid, wp_bind, wp_currentTask, current, wp_innerOf, found, wp_read, wp_ite, wp_pure]
  split
  · rename_i nobody
    rw [Bool.not_eq_true', List.any_eq_false] at nobody
    refine .of_cases (Or.inl ⟨?_, rfl, .of_same (Or.inl rfl)⟩)
    rintro ⟨child, member, awaited⟩
    exact nobody child member awaited
  · rename_i somebody
    rw [Bool.not_eq_true', Bool.not_eq_false, List.any_eq_true] at somebody
    cases search : task.children.find? fun child => k.isZombie child && k.awaits pid child with
    | none =>
      rw [List.find?_eq_none] at search
      refine .of_cases (Or.inr (Or.inl ⟨somebody, ?_, rfl, .of_same (Or.inr (Or.inl rfl))⟩))
      rintro ⟨child, member, awaited, zombie⟩
      exact search child member (by rw [awaited, zombie]; rfl)
    | some child =>
      have member := List.mem_of_find?_eq_some search
      have accepted := List.find?_some search
      rw [Bool.and_eq_true] at accepted
      obtain ⟨zombie, awaited⟩ := accepted
      obtain ⟨place, childPlace, _⟩ := sound.table.isChild (table_place found) member
      obtain ⟨exited, childFound, rfl⟩ := Option.map_eq_some_iff.mp childPlace
      rw [Kernel.isZombie, childFound] at zombie
      simp only [wp_bind, wp_innerOf, childFound]
      exact wp_bind.mp (waitpid_exited sound current found member awaited childFound zombie (small child exited childFound))

/-- In every reachable state each process has one parent and one place in its list of children, the exited children are those
that wait as zombies and those that have been reported once, a step moves a process at most from an exited parent to
`INITPROC`, the assertion on the strong count never fails, and a call of `sys_waitpid`, wherever in a step it is made, reports an
exited child of the caller if there is one that it waits for and the exit code can be stored; otherwise it changes no list of
children. -/
theorem children_reaped_once (reachable : Reachable s) : FamilyFormed s.kernel ∧ ReapHistory s.kernel ∧
    (∀ event s', step event s = .ok ((), s') → Reparents s.kernel s'.kernel) ∧
    (∀ event, step event s ≠ .error .strongCount) ∧
    ∀ k caller inner pid exitCodePtr, Passes s k → k.current = some caller → k.tasks caller = some inner →
      ∃ r k', sysWaitpid pid exitCodePtr k = .ok (r, k') ∧ WaitOutcome k caller inner pid exitCodePtr r k' ∧
        (WaitRefused k r k' ∨ (r ≠ -1 ∧ r ≠ -2 ∧ r ≠ -14) ∧ ∃ child, WaitReported k caller inner pid exitCodePtr child r k') := by
  have sound := reachable.sound
  refine ⟨sound.family, reachable.history.toReapHistory, ?_, ?_, ?_⟩
  · intro event s' stepped
    exact sound.reparents (step_acts sound stepped)
  · intro event stopped
    cases step_stops sound stopped
  · intro k caller inner pid exitCodePtr passes current found
    have small : ∀ other (exited : TaskControlBlock), k.tasks other = some exited → exited.pid < 2 ^ 63 :=
      fun _ _ found => reachable.pid_lt passes found
    obtain ⟨r, k', run, outcome⟩ := wp_returns (sysWaitpid_outcome (passes.sound sound) current found small pid exitCodePtr)
    refine ⟨r, k', run, outcome, ?_⟩
    by_cases result : r = -1 ∨ r = -2 ∨ r = -14
    · exact Or.inl (outcome.refused result)
    · obtain ⟨notNone, notRunning, notInvalid⟩ : r ≠ -1 ∧ r ≠ -2 ∧ r ≠ -14 := by omega
      have exited : k.HasExited inner pid := by
        by_contra none
        exact notRunning (outcome.running.mpr ⟨Classical.not_not.mp fun nobody => notNone (outcome.noChild.mpr nobody), none⟩)
      have range : UserRange k.mm.mem inner.memorySet.token exitCodePtr 4 true := by
        by_contra outside
        exact notInvalid (outcome.invalid.mpr ⟨exited, outside⟩)
      exact Or.inr ⟨⟨notNone, notRunning, notInvalid⟩, outcome.reported exited range⟩

end

/-- A child exits with code 7, and its parent is scheduled again. -/
def waitingRun : List Event :=
  [.schedule 0 [], ecall 220 0 0 0, ecall 124 0 0 0, .schedule 0 [], ecall 93 7 0 0, .schedule 0 []]

/-- The parent waits for the child: with a bad pointer first, then for another process, and then with success. -/
theorem children_reaped_once_sample : ∃ s : System sample, Reachable s ∧ exits s.kernel.trace = [(1, 7)] ∧
    FamilyFormed s.kernel ∧ ReapHistory s.kernel ∧
    (∃ k', sysWaitpid (-1) 0 s.kernel = .ok (-14, k') ∧ WaitRefused s.kernel (-14) k') ∧
    (∃ k', sysWaitpid 9 0x10000 s.kernel = .ok (-1, k') ∧ WaitRefused s.kernel (-1) k') ∧
    ∃ inner child k', sysWaitpid (-1) 0x10000 s.kernel = .ok (2, k') ∧ WaitReported s.kernel 0 inner (-1) 0x10000 child 2 k' := by
  have ran : ((run sample waitingRun).toOption.any fun s => exits s.kernel.trace == [(1, 7)] && (s.kernel.current == some 0 &&
      ((s.kernel.tasks 0).isSome && ((sysWaitpid (-1) 0 s.kernel).toOption.map Prod.fst == some (-14) &&
      ((sysWaitpid 9 0x10000 s.kernel).toOption.map Prod.fst == some (-1) &&
      (sysWaitpid (-1) 0x10000 s.kernel).toOption.map Prod.fst == some 2))))) = true := by decide +kernel
  simp only [Option.any_eq_true, toOption_eq_some, Bool.and_eq_true, beq_iff_eq, Option.isSome_iff_exists] at ran
  obtain ⟨s, result, exited, current, ⟨inner, found⟩, invalid, other, waits⟩ := ran
  have reachable := run_reachable result
  obtain ⟨family, history, _, _, calls⟩ := children_reaped_once reachable
  refine ⟨s, reachable, exited, family, history, ?_, ?_, ?_⟩
  · obtain ⟨r, k', run, outcome, _⟩ := calls s.kernel 0 inner (-1) 0 .self current found
    rw [run] at invalid
    obtain rfl : r = -14 := Option.some.inj invalid
    exact ⟨k', run, outcome.refused (Or.inr (Or.inr rfl))⟩
  · obtain ⟨r, k', run, outcome, _⟩ := calls s.kernel 0 inner 9 0x10000 .self current found
    rw [run] at other
    obtain rfl : r = -1 := Option.some.inj other
    exact ⟨k', run, outcome.refused (Or.inl rfl)⟩
  · obtain ⟨r, k', run, _, refused | ⟨_, child, reported⟩⟩ := calls s.kernel 0 inner (-1) 0x10000 .self current found
    · rw [run] at waits
      obtain rfl : r = 2 := Option.some.inj waits
      exact absurd refused.result (by decide)
    · rw [run] at waits
      obtain rfl : r = 2 := Option.some.inj waits
      exact ⟨inner, child, k', run, reported⟩

end SecureIpc

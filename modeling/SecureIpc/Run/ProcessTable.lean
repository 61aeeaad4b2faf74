import Mathlib.Data.List.Nodup
import SecureIpc.Run.Act

/-!
The process table and the scheduler as a system of their own: who exists, who runs or waits to run,
which pids are registered, and who is whose child. The acts of the kernel are steps of this system
or leave it alone.
-/

namespace SecureIpc
open Lib

/-! ### Pids -/

namespace PidAllocator

def Holds (self : PidAllocator) (pid : Nat) : Prop := pid < self.current ∧ pid ∉ self.recycled

structure WellFormed (pids : PidAllocator) : Prop where
  nodup : pids.recycled.Nodup
  small : ∀ pid ∈ pids.recycled, pid < pids.current

variable {self : PidAllocator}

theorem alloc_wellFormed (formed : self.WellFormed) : self.alloc.2.WellFormed := by
  obtain ⟨current, recycled⟩ := self
  cases recycled with
  | nil => exact ⟨List.nodup_nil, by simp [alloc]⟩
  | cons pid rest =>
    obtain ⟨_, unique⟩ := List.nodup_cons.mp formed.nodup
    exact ⟨unique, fun other member => formed.small other (List.mem_cons_of_mem pid member)⟩

theorem alloc_holds (formed : self.WellFormed) : self.alloc.2.Holds self.alloc.1 := by
  obtain ⟨current, recycled⟩ := self
  cases recycled with
  | nil => exact ⟨Nat.lt_succ_self current, List.not_mem_nil⟩
  | cons pid rest =>
    obtain ⟨fresh, _⟩ := List.nodup_cons.mp formed.nodup
    exact ⟨formed.small pid List.mem_cons_self, fresh⟩

theorem alloc_keeps {pid : Nat} (holds : self.Holds pid) : self.alloc.2.Holds pid ∧ pid ≠ self.alloc.1 := by
  obtain ⟨current, recycled⟩ := self
  obtain ⟨small, out⟩ := holds
  cases recycled with
  | nil => exact ⟨⟨Nat.lt_succ_of_lt small, List.not_mem_nil⟩, Nat.ne_of_lt small⟩
  | cons first rest =>
    rw [List.mem_cons, not_or] at out
    exact ⟨⟨small, out.2⟩, out.1⟩

theorem dealloc_ok {pid : Nat} (holds : self.Holds pid) :
    self.dealloc pid = .ok { self with recycled := pid :: self.recycled } := by
  obtain ⟨small, out⟩ := holds
  have inUse : ¬(self.current ≤ pid ∨ self.recycled.contains pid) := by
    rw [List.contains_iff_mem]
    rintro (large | back)
    · exact Nat.not_le_of_lt small large
    · exact out back
  rw [dealloc, if_neg inUse]

theorem dealloc_wellFormed {pid : Nat} (formed : self.WellFormed) (holds : self.Holds pid) :
    WellFormed { self with recycled := pid :: self.recycled } where
  nodup := List.nodup_cons.mpr ⟨holds.2, formed.nodup⟩
  small other member := by
    rcases List.mem_cons.mp member with rfl | old
    · exact holds.1
    · exact formed.small other old

theorem dealloc_keeps {pid other : Nat} (holds : self.Holds other) (different : other ≠ pid) :
    Holds { self with recycled := pid :: self.recycled } other :=
  ⟨holds.1, fun member => (List.mem_cons.mp member).elim different holds.2⟩

end PidAllocator

/-! ### The table -/

/-- A task's pid, its place among the processes, and whether it has exited. -/
structure Place where
  pid : Nat
  parent : Option Nat
  children : List Nat
  zombie : Bool

structure ProcessTable where
  place : Nat → Option Place
  nextTask : Nat
  readyQueue : List Nat
  pid2tcb : Nat → Option Nat
  current : Option Nat
  pidAllocator : PidAllocator

def TaskControlBlock.place (self : TaskControlBlock) : Place :=
  ⟨self.pid, self.parent, self.children, self.isZombie⟩

def Kernel.table {P : Platform} (self : Kernel P) : ProcessTable :=
  { place := fun id => (self.tasks id).map TaskControlBlock.place
    nextTask := self.nextTask
    readyQueue := self.readyQueue
    pid2tcb := self.pid2tcb
    current := self.current
    pidAllocator := self.pidAllocator }

namespace ProcessTable

open Kernel (set set_same set_other set_eq_some)

def Live (self : ProcessTable) (id pid : Nat) : Prop :=
  ∃ place, self.place id = some place ∧ place.pid = pid ∧ place.zombie = false

structure WellFormed (table : ProcessTable) : Prop where
  small : ∀ {id place}, table.place id = some place → id < table.nextTask
  pids : ∀ {a b first second}, table.place a = some first → table.place b = some second → first.pid = second.pid → a = b
  allocator : table.pidAllocator.WellFormed
  holds : ∀ {id place}, table.place id = some place → table.pidAllocator.Holds place.pid
  once : table.readyQueue.Nodup
  apart : ∀ {id}, table.current = some id → id ∉ table.readyQueue
  scheduled : ∀ {id}, (id ∈ table.readyQueue ∨ table.current = some id) ↔ ∃ pid, table.Live id pid
  registered : ∀ {pid id}, table.pid2tcb pid = some id ↔ table.Live id pid
  init : table.Live initproc idlePid
  hasParent : ∀ {id place}, table.place id = some place → id ≠ initproc →
    ∃ p parent, place.parent = some p ∧ p < id ∧ table.place p = some parent ∧ id ∈ parent.children
  isChild : ∀ {p parent id}, table.place p = some parent → id ∈ parent.children →
    ∃ place, table.place id = some place ∧ place.parent = some p ∧ id ≠ initproc
  distinct : ∀ {p parent}, table.place p = some parent → parent.children.Nodup
  childless : ∀ {id place}, table.place id = some place → place.zombie = true → place.children = []

def adopted (place : Nat → Option Place) (children : List Nat) : Nat → Option Place := fun other =>
  if other = initproc then (place other).map fun p => { p with children := p.children ++ children }
  else if other ∈ children then (place other).map fun p => { p with parent := some initproc }
  else place other

inductive Step : ProcessTable → ProcessTable → Prop where
  | suspend {t : ProcessTable} {id : Nat} {place : Place} (current : t.current = some id)
      (found : t.place id = some place) :
      Step t { t with
        current := none
        place := set t.place id (some { place with zombie := false })
        pid2tcb := set t.pid2tcb place.pid (some id)
        readyQueue := t.readyQueue ++ [id] }
  | resume {t : ProcessTable} {id : Nat} {rest : List Nat} {place : Place} (idle : t.current = none)
      (queue : t.readyQueue = id :: rest) (found : t.place id = some place) :
      Step t { t with
        current := some id, place := set t.place id (some { place with zombie := false }), readyQueue := rest }
  | exit {t : ProcessTable} {id : Nat} {place : Place} (current : t.current = some id)
      (found : t.place id = some place) (other : place.pid ≠ idlePid) :
      Step t { t with
        current := none
        pid2tcb := set t.pid2tcb place.pid none
        place := set (adopted t.place place.children) id (some { place with zombie := true, children := [] }) }
  | fork {t : ProcessTable} {id : Nat} {place : Place} (current : t.current = some id) (found : t.place id = some place) :
      Step t { t with
        pidAllocator := t.pidAllocator.alloc.2
        place := set (set t.place t.nextTask (some ⟨t.pidAllocator.alloc.1, some id, [], false⟩)) id
          (some { place with children := place.children ++ [t.nextTask] })
        nextTask := t.nextTask + 1
        pid2tcb := set t.pid2tcb t.pidAllocator.alloc.1 (some t.nextTask)
        readyQueue := t.readyQueue ++ [t.nextTask] }
  | reap {t : ProcessTable} {id child : Nat} {place gone : Place} {pidAllocator : PidAllocator}
      (current : t.current = some id) (found : t.place id = some place) (member : child ∈ place.children)
      (childFound : t.place child = some gone) (zombie : gone.zombie = true)
      (freed : t.pidAllocator.dealloc gone.pid = .ok pidAllocator) :
      Step t { t with
        pidAllocator
        place := set (set t.place id (some { place with children := place.children.erase child })) child none }

section
variable {t : ProcessTable} {id : Nat} {place : Place}

theorem WellFormed.current_live (formed : t.WellFormed) (current : t.current = some id)
    (found : t.place id = some place) : place.zombie = false := by
  obtain ⟨_, other, same, _, live⟩ := formed.scheduled.mp (Or.inr current)
  obtain rfl := Option.some.inj (found.symm.trans same)
  exact live

theorem WellFormed.queue_live (formed : t.WellFormed) (waiting : id ∈ t.readyQueue) (found : t.place id = some place) :
    place.zombie = false := by
  obtain ⟨_, other, same, _, live⟩ := formed.scheduled.mp (Or.inl waiting)
  obtain rfl := Option.some.inj (found.symm.trans same)
  exact live

theorem WellFormed.child_ne (formed : t.WellFormed) (found : t.place id = some place) : id ∉ place.children := by
  intro member
  obtain ⟨own, same, parent, notInit⟩ := formed.isChild found member
  obtain ⟨p, _, chosen, less, _⟩ := formed.hasParent same notInit
  have itself : p = id := Option.some.inj (chosen.symm.trans parent)
  omega

/-- Two processes never have the same child. -/
theorem WellFormed.parent_unique (formed : t.WellFormed) {a b child : Nat} {first second : Place}
    (one : t.place a = some first) (two : t.place b = some second) (inFirst : child ∈ first.children)
    (inSecond : child ∈ second.children) : a = b := by
  obtain ⟨own, found, parent, _⟩ := formed.isChild one inFirst
  obtain ⟨same, again, parent', _⟩ := formed.isChild two inSecond
  obtain rfl := Option.some.inj (found.symm.trans again)
  exact Option.some.inj (parent.symm.trans parent')

theorem set_found (found : t.place id = some place) (live : place.zombie = false) :
    set t.place id (some { place with zombie := false }) = t.place := by
  apply Kernel.set_self
  rw [found, ← live]

theorem WellFormed.suspend (formed : t.WellFormed) (current : t.current = some id) (found : t.place id = some place) :
    WellFormed { t with
      current := none
      place := set t.place id (some { place with zombie := false })
      pid2tcb := set t.pid2tcb place.pid (some id)
      readyQueue := t.readyQueue ++ [id] } := by
  have live := formed.current_live current found
  have registered : set t.pid2tcb place.pid (some id) = t.pid2tcb :=
    Kernel.set_self (formed.registered.mpr ⟨place, found, rfl, live⟩)
  rw [set_found found live, registered]
  refine { formed with once := ?_, apart := ?_, scheduled := ?_ }
  · exact List.nodup_append.mpr ⟨formed.once, List.nodup_singleton id, fun a old b new same =>
      formed.apart current (by rwa [← List.mem_singleton.mp new, ← same])⟩
  · intro _ none
    cases none
  · intro other
    have before : (other ∈ t.readyQueue ∨ t.current = some other) ↔ ∃ pid, t.Live other pid := formed.scheduled
    rw [current] at before
    simp only [List.mem_append, List.mem_singleton, reduceCtorEq, or_false]
    rw [← eq_comm (a := id), ← Option.some.injEq]
    exact before

theorem WellFormed.resume (formed : t.WellFormed) {rest : List Nat} (idle : t.current = none)
    (queue : t.readyQueue = id :: rest) (found : t.place id = some place) :
    WellFormed { t with
      current := some id, place := set t.place id (some { place with zombie := false }), readyQueue := rest } := by
  have once := formed.once
  rw [queue, List.nodup_cons] at once
  have member : id ∈ t.readyQueue := by rw [queue]; exact List.mem_cons_self
  rw [set_found found (formed.queue_live member found)]
  refine { formed with once := once.2, apart := ?_, scheduled := ?_ }
  · intro _ chosen
    obtain rfl := Option.some.inj chosen
    exact once.1
  · intro other
    have before : (other ∈ t.readyQueue ∨ t.current = some other) ↔ ∃ pid, t.Live other pid := formed.scheduled
    rw [idle, queue] at before
    simp only [List.mem_cons, reduceCtorEq, or_false] at before
    rw [Option.some.injEq, eq_comm (a := id), or_comm]
    exact before

/-! ### Exit -/

/-- What the exit of `id` with `children` does to the place of `other`. -/
def exitPlace (id : Nat) (children : List Nat) (other : Nat) (place : Place) : Place :=
  if other = id then { place with zombie := true, children := [] }
  else if other = initproc then { place with children := place.children ++ children }
  else if other ∈ children then { place with parent := some initproc }
  else place

section
variable {children : List Nat} {other : Nat} {p : Place}

@[simp] theorem exitPlace_pid : (exitPlace id children other p).pid = p.pid := by
  unfold exitPlace
  split_ifs <;> rfl

theorem exitPlace_zombie : (exitPlace id children other p).zombie = (p.zombie || other == id) := by
  unfold exitPlace
  split_ifs with itself <;> simp [itself]

theorem exitPlace_children_mem {child : Nat} (different : other ≠ id) (member : child ∈ p.children) :
    child ∈ (exitPlace id children other p).children := by
  unfold exitPlace
  rw [if_neg different]
  split_ifs
  · exact List.mem_append_left children member
  · exact member
  · exact member

end

theorem exit_place (found : t.place id = some place) (different : id ≠ initproc) (outside : id ∉ place.children) :
    set (adopted t.place place.children) id (some { place with zombie := true, children := [] }) =
      fun other => (t.place other).map (exitPlace id place.children other) := by
  funext other
  by_cases itself : other = id
  · subst itself
    rw [set_same, found, Option.map_some, exitPlace, if_pos rfl]
  · rw [set_other itself]
    unfold adopted exitPlace
    simp only [if_neg itself]
    split_ifs
    · rfl
    · rfl
    · exact Option.map_id_apply.symm

theorem WellFormed.exit (formed : t.WellFormed) (current : t.current = some id) (found : t.place id = some place)
    (notIdle : place.pid ≠ idlePid) :
    WellFormed { t with
      current := none
      pid2tcb := set t.pid2tcb place.pid none
      place := set (adopted t.place place.children) id (some { place with zombie := true, children := [] }) } := by
  obtain ⟨init, initFound, initPid, initLive⟩ := formed.init
  have notInit : id ≠ initproc := by
    rintro rfl
    obtain rfl := Option.some.inj (found.symm.trans initFound)
    exact notIdle initPid
  rw [exit_place found notInit (formed.child_ne found)]
  have live := formed.current_live current found
  have lives : ∀ {other pid}, Live { t with
      current := none, pid2tcb := set t.pid2tcb place.pid none,
      place := fun other => (t.place other).map (exitPlace id place.children other) } other pid ↔
        t.Live other pid ∧ other ≠ id := by
    intro other pid
    simp only [Live, Option.map_eq_some_iff]
    constructor
    · rintro ⟨_, ⟨p, old, rfl⟩, pid, alive⟩
      rw [exitPlace_zombie, Bool.or_eq_false_iff, beq_eq_false_iff_ne] at alive
      exact ⟨⟨p, old, by rwa [exitPlace_pid] at pid, alive.1⟩, alive.2⟩
    · rintro ⟨⟨p, old, pid, alive⟩, different⟩
      refine ⟨_, ⟨p, old, rfl⟩, by rwa [exitPlace_pid], ?_⟩
      rw [exitPlace_zombie, alive, beq_false_of_ne different, Bool.or_false]
  refine
    { small := ?_, pids := ?_, allocator := formed.allocator, holds := ?_, once := formed.once, apart := nofun
      scheduled := ?_, registered := ?_, init := lives.mpr ⟨formed.init, notInit.symm⟩, hasParent := ?_
      isChild := ?_, distinct := ?_, childless := ?_ }
  · intro other _ looked
    obtain ⟨p, old, _⟩ := Option.map_eq_some_iff.mp looked
    exact formed.small old
  · intro a b _ _ first second same
    obtain ⟨p, one, rfl⟩ := Option.map_eq_some_iff.mp first
    obtain ⟨q, two, rfl⟩ := Option.map_eq_some_iff.mp second
    rw [exitPlace_pid, exitPlace_pid] at same
    exact formed.pids one two same
  · intro other _ looked
    obtain ⟨p, old, rfl⟩ := Option.map_eq_some_iff.mp looked
    rw [exitPlace_pid]
    exact formed.holds old
  · intro other
    simp only [lives, exists_and_right, ← formed.scheduled, current, Option.some.injEq, reduceCtorEq, or_false]
    constructor
    · intro waiting
      refine ⟨Or.inl waiting, ?_⟩
      rintro rfl
      exact formed.apart current waiting
    · rintro ⟨waiting | rfl, different⟩
      · exact waiting
      · exact absurd rfl different
  · intro pid other
    rw [lives, ← formed.registered]
    by_cases same : pid = place.pid
    · subst same
      simp only [set_same, reduceCtorEq, false_iff, not_and, not_not]
      intro registered
      obtain ⟨p, old, pid, _⟩ := formed.registered.mp registered
      exact formed.pids old found pid
    · simp only [set_other same]
      refine ⟨fun registered => ⟨registered, ?_⟩, fun both => both.1⟩
      rintro rfl
      obtain ⟨p, old, rfl, _⟩ := formed.registered.mp registered
      obtain rfl := Option.some.inj (found.symm.trans old)
      exact same rfl
  · intro other _ looked notFirst
    obtain ⟨p, old, rfl⟩ := Option.map_eq_some_iff.mp looked
    obtain ⟨up, parent, chosen, less, parentFound, member⟩ := formed.hasParent old notFirst
    by_cases orphan : other ∈ place.children
    · have different : other ≠ id := fun same => formed.child_ne found (same ▸ orphan)
      refine ⟨initproc, exitPlace id place.children initproc init, ?_, Nat.pos_of_ne_zero notFirst,
        Option.map_eq_some_iff.mpr ⟨init, initFound, rfl⟩, ?_⟩
      · rw [exitPlace, if_neg different, if_neg notFirst, if_pos orphan]
      · rw [exitPlace, if_neg notInit.symm, if_pos rfl]
        exact List.mem_append_right init.children orphan
    · have upOther : up ≠ id := by
        rintro rfl
        obtain rfl := Option.some.inj (found.symm.trans parentFound)
        exact orphan member
      refine ⟨up, exitPlace id place.children up parent, ?_, less, Option.map_eq_some_iff.mpr ⟨parent, parentFound, rfl⟩,
        exitPlace_children_mem upOther member⟩
      unfold exitPlace
      split_ifs
      · exact chosen
      · exact chosen
  · intro up _ child looked member
    obtain ⟨parent, parentFound, rfl⟩ := Option.map_eq_some_iff.mp looked
    have belongs : child ∈ parent.children ∧ up ≠ id ∨ child ∈ place.children ∧ up = initproc := by
      unfold exitPlace at member
      split_ifs at member with itself first
      · cases member
      · rcases List.mem_append.mp member with own | new
        · exact Or.inl ⟨own, itself⟩
        · exact Or.inr ⟨new, first⟩
      · exact Or.inl ⟨member, itself⟩
      · exact Or.inl ⟨member, itself⟩
    rcases belongs with ⟨own, upOther⟩ | ⟨orphan, rfl⟩
    · obtain ⟨p, old, chosen, notFirst⟩ := formed.isChild parentFound own
      have stays : child ∉ place.children := fun orphan => upOther (formed.parent_unique parentFound found own orphan)
      refine ⟨_, Option.map_eq_some_iff.mpr ⟨p, old, rfl⟩, ?_, notFirst⟩
      unfold exitPlace
      split_ifs
      · exact chosen
      · exact chosen
    · obtain ⟨p, old, _, notFirst⟩ := formed.isChild found orphan
      have different : child ≠ id := fun same => formed.child_ne found (same ▸ orphan)
      refine ⟨_, Option.map_eq_some_iff.mpr ⟨p, old, rfl⟩, ?_, notFirst⟩
      rw [exitPlace, if_neg different, if_neg notFirst, if_pos orphan]
  · intro up _ looked
    obtain ⟨parent, parentFound, rfl⟩ := Option.map_eq_some_iff.mp looked
    unfold exitPlace
    split_ifs with itself first
    · exact List.nodup_nil
    · refine List.nodup_append.mpr ⟨formed.distinct parentFound, formed.distinct found, ?_⟩
      rintro child own _ orphan rfl
      exact itself (formed.parent_unique parentFound found own orphan)
    · have unique := formed.distinct parentFound
      exact unique
    · exact formed.distinct parentFound
  · intro other _ looked exited
    obtain ⟨p, old, rfl⟩ := Option.map_eq_some_iff.mp looked
    by_cases itself : other = id
    · rw [exitPlace, if_pos itself]
    · rw [exitPlace_zombie, beq_false_of_ne itself, Bool.or_false] at exited
      have notFirst : other ≠ initproc := by
        rintro rfl
        obtain rfl := Option.some.inj (initFound.symm.trans old)
        rw [initLive] at exited
        cases exited
      have none := formed.childless old exited
      unfold exitPlace
      rw [if_neg itself, if_neg notFirst]
      split_ifs
      · exact none
      · exact none

/-! ### Fork -/

theorem WellFormed.fork (formed : t.WellFormed) (current : t.current = some id) (found : t.place id = some place) :
    WellFormed { t with
      pidAllocator := t.pidAllocator.alloc.2
      place := set (set t.place t.nextTask (some ⟨t.pidAllocator.alloc.1, some id, [], false⟩)) id
        (some { place with children := place.children ++ [t.nextTask] })
      nextTask := t.nextTask + 1
      pid2tcb := set t.pid2tcb t.pidAllocator.alloc.1 (some t.nextTask)
      readyQueue := t.readyQueue ++ [t.nextTask] } := by
  have below := formed.small found
  have fresh : ∀ {p : Place}, t.place t.nextTask ≠ some p := fun old => Nat.lt_irrefl _ (formed.small old)
  have newPid : ∀ {other p}, t.place other = some p → p.pid ≠ t.pidAllocator.alloc.1 := fun old =>
    (PidAllocator.alloc_keeps (formed.holds old)).2
  have cases : ∀ {other q}, set (set t.place t.nextTask (some ⟨t.pidAllocator.alloc.1, some id, [], false⟩)) id
      (some { place with children := place.children ++ [t.nextTask] }) other = some q ↔
        other = id ∧ q = { place with children := place.children ++ [t.nextTask] } ∨
        other = t.nextTask ∧ q = ⟨t.pidAllocator.alloc.1, some id, [], false⟩ ∨
        other ≠ id ∧ t.place other = some q := by
    intro other q
    rw [set_eq_some, set_eq_some]
    grind
  have lives : ∀ {other pid}, (∃ q, set (set t.place t.nextTask (some ⟨t.pidAllocator.alloc.1, some id, [], false⟩)) id
      (some { place with children := place.children ++ [t.nextTask] }) other = some q ∧ q.pid = pid ∧ q.zombie = false) ↔
        t.Live other pid ∨ other = t.nextTask ∧ pid = t.pidAllocator.alloc.1 := by
    intro other pid
    simp only [cases, Live]
    constructor
    · rintro ⟨q, ⟨rfl, rfl⟩ | ⟨rfl, rfl⟩ | ⟨_, old⟩, rfl, alive⟩
      · exact Or.inl ⟨place, found, rfl, alive⟩
      · exact Or.inr ⟨rfl, rfl⟩
      · exact Or.inl ⟨q, old, rfl, alive⟩
    · rintro (⟨q, old, rfl, alive⟩ | ⟨rfl, rfl⟩)
      · by_cases itself : other = id
        · subst itself
          obtain rfl := Option.some.inj (found.symm.trans old)
          exact ⟨_, Or.inl ⟨rfl, rfl⟩, rfl, alive⟩
        · exact ⟨q, Or.inr (Or.inr ⟨itself, old⟩), rfl, alive⟩
      · exact ⟨_, Or.inr (Or.inl ⟨rfl, rfl⟩), rfl, rfl⟩
  refine
    { small := ?_, pids := ?_, allocator := PidAllocator.alloc_wellFormed formed.allocator, holds := ?_, once := ?_
      apart := ?_, scheduled := ?_, registered := ?_, init := lives.mpr (Or.inl formed.init), hasParent := ?_
      isChild := ?_, distinct := ?_, childless := ?_ }
  · intro other q looked
    rcases cases.mp looked with ⟨rfl, _⟩ | ⟨rfl, _⟩ | ⟨_, old⟩
    · exact Nat.lt_succ_of_lt below
    · exact Nat.lt_succ_self _
    · exact Nat.lt_succ_of_lt (formed.small old)
  · intro a b first second one two same
    rcases cases.mp one with ⟨rfl, rfl⟩ | ⟨rfl, rfl⟩ | ⟨_, old⟩ <;>
      rcases cases.mp two with ⟨rfl, rfl⟩ | ⟨rfl, rfl⟩ | ⟨_, older⟩
    · rfl
    · exact (newPid found same).elim
    · exact formed.pids found older same
    · exact (newPid found same.symm).elim
    · rfl
    · exact absurd same.symm (newPid older)
    · exact formed.pids old found same
    · exact absurd same (newPid old)
    · exact formed.pids old older same
  · intro other q looked
    rcases cases.mp looked with ⟨rfl, rfl⟩ | ⟨rfl, rfl⟩ | ⟨_, old⟩
    · exact (PidAllocator.alloc_keeps (formed.holds found)).1
    · exact PidAllocator.alloc_holds formed.allocator
    · exact (PidAllocator.alloc_keeps (formed.holds old)).1
  · refine List.nodup_append.mpr ⟨formed.once, List.nodup_singleton _, ?_⟩
    rintro other waiting _ new rfl
    obtain ⟨_, q, old, _⟩ := formed.scheduled.mp (Or.inl waiting)
    rw [List.mem_singleton.mp new] at old
    exact fresh old
  · intro other chosen waiting
    obtain rfl := Option.some.inj (current.symm.trans chosen)
    rcases List.mem_append.mp waiting with waiting | new
    · exact formed.apart current waiting
    · rw [List.mem_singleton.mp new] at below
      exact Nat.lt_irrefl _ below
  · intro other
    have split : (∃ pid, t.Live other pid ∨ other = t.nextTask ∧ pid = t.pidAllocator.alloc.1) ↔
        (∃ pid, t.Live other pid) ∨ other = t.nextTask := by
      simp only [exists_or, exists_and_left, exists_eq, and_true]
    simp only [Live] at lives
    simp only [Live, lives]
    simp only [Live] at split
    rw [split, List.mem_append, List.mem_singleton]
    have before : (other ∈ t.readyQueue ∨ t.current = some other) ↔ ∃ pid, t.Live other pid := formed.scheduled
    simp only [Live] at before
    rw [← before, or_right_comm]
  · intro pid other
    refine Iff.trans ?_ lives.symm
    rw [← formed.registered, set_eq_some, Option.some.injEq]
    constructor
    · rintro (⟨rfl, rfl⟩ | ⟨_, registered⟩)
      · exact Or.inr ⟨rfl, rfl⟩
      · exact Or.inl registered
    · rintro (registered | ⟨rfl, rfl⟩)
      · obtain ⟨q, old, rfl, _⟩ := formed.registered.mp registered
        exact Or.inr ⟨newPid old, registered⟩
      · exact Or.inl ⟨rfl, rfl⟩
  · intro other q looked notFirst
    have keeps : ∀ {up parent}, t.place up = some parent → ∃ parent',
        set (set t.place t.nextTask (some ⟨t.pidAllocator.alloc.1, some id, [], false⟩)) id
          (some { place with children := place.children ++ [t.nextTask] }) up = some parent' ∧
        ∀ child ∈ parent.children, child ∈ parent'.children := by
      intro up parent old
      by_cases itself : up = id
      · subst itself
        obtain rfl := Option.some.inj (found.symm.trans old)
        exact ⟨_, set_same _ _ _, fun child member => List.mem_append_left _ member⟩
      · exact ⟨parent, cases.mpr (Or.inr (Or.inr ⟨itself, old⟩)), fun child member => member⟩
    rcases cases.mp looked with ⟨rfl, rfl⟩ | ⟨rfl, rfl⟩ | ⟨_, old⟩
    · obtain ⟨up, parent, chosen, less, parentFound, member⟩ := formed.hasParent found notFirst
      obtain ⟨parent', now, more⟩ := keeps parentFound
      exact ⟨up, parent', chosen, less, now, more _ member⟩
    · exact ⟨id, _, rfl, below, set_same _ _ _, List.mem_append_right _ (List.mem_singleton_self _)⟩
    · obtain ⟨up, parent, chosen, less, parentFound, member⟩ := formed.hasParent old notFirst
      obtain ⟨parent', now, more⟩ := keeps parentFound
      exact ⟨up, parent', chosen, less, now, more _ member⟩
  · intro up parent child looked member
    have old : ∀ {up parent}, t.place up = some parent → child ∈ parent.children → ∃ q,
        set (set t.place t.nextTask (some ⟨t.pidAllocator.alloc.1, some id, [], false⟩)) id
          (some { place with children := place.children ++ [t.nextTask] }) child = some q ∧ q.parent = some up ∧
          child ≠ initproc := by
      intro up parent parentFound own
      obtain ⟨q, childFound, chosen, notFirst⟩ := formed.isChild parentFound own
      by_cases itself : child = id
      · subst itself
        obtain rfl := Option.some.inj (found.symm.trans childFound)
        exact ⟨_, set_same _ _ _, chosen, notFirst⟩
      · exact ⟨q, cases.mpr (Or.inr (Or.inr ⟨itself, childFound⟩)), chosen, notFirst⟩
    rcases cases.mp looked with ⟨rfl, rfl⟩ | ⟨rfl, rfl⟩ | ⟨_, parentFound⟩
    · rcases List.mem_append.mp member with own | new
      · exact old found own
      · rw [List.mem_singleton.mp new]
        exact ⟨_, cases.mpr (Or.inr (Or.inl ⟨rfl, rfl⟩)), rfl, Nat.ne_of_gt (Nat.zero_lt_of_lt below)⟩
    · cases member
    · exact old parentFound member
  · intro up parent looked
    rcases cases.mp looked with ⟨rfl, rfl⟩ | ⟨rfl, rfl⟩ | ⟨_, parentFound⟩
    · refine List.nodup_append.mpr ⟨formed.distinct found, List.nodup_singleton _, ?_⟩
      rintro child own _ new rfl
      obtain ⟨q, childFound, _⟩ := formed.isChild found own
      rw [List.mem_singleton.mp new] at childFound
      exact fresh childFound
    · exact List.nodup_nil
    · exact formed.distinct parentFound
  · intro other q looked exited
    rcases cases.mp looked with ⟨rfl, rfl⟩ | ⟨rfl, rfl⟩ | ⟨_, old⟩
    · rw [formed.current_live current found] at exited
      cases exited
    · rfl
    · exact formed.childless old exited

/-! ### Reaping -/

theorem WellFormed.reap (formed : t.WellFormed) {child : Nat} {gone : Place} {pidAllocator : PidAllocator}
    (found : t.place id = some place) (member : child ∈ place.children) (childFound : t.place child = some gone)
    (zombie : gone.zombie = true) (freed : t.pidAllocator.dealloc gone.pid = .ok pidAllocator) :
    WellFormed { t with
      pidAllocator
      place := set (set t.place id (some { place with children := place.children.erase child })) child none } := by
  rw [PidAllocator.dealloc_ok (formed.holds childFound)] at freed
  obtain rfl := Except.ok.inj freed
  have different : id ≠ child := fun same => formed.child_ne found (same ▸ member)
  have cases : ∀ {other q}, set (set t.place id (some { place with children := place.children.erase child })) child
      none other = some q ↔
        other = id ∧ q = { place with children := place.children.erase child } ∨
        other ≠ id ∧ other ≠ child ∧ t.place other = some q := by
    intro other q
    rw [set_eq_some, set_eq_some]
    grind
  have lives : ∀ {other pid}, (∃ q, set (set t.place id (some { place with children := place.children.erase child }))
      child none other = some q ∧ q.pid = pid ∧ q.zombie = false) ↔ t.Live other pid := by
    intro other pid
    simp only [cases, Live]
    constructor
    · rintro ⟨q, ⟨rfl, rfl⟩ | ⟨_, _, old⟩, rfl, alive⟩
      · exact ⟨place, found, rfl, alive⟩
      · exact ⟨q, old, rfl, alive⟩
    · rintro ⟨q, old, rfl, alive⟩
      by_cases itself : other = id
      · subst itself
        obtain rfl := Option.some.inj (found.symm.trans old)
        exact ⟨_, Or.inl ⟨rfl, rfl⟩, rfl, alive⟩
      · refine ⟨q, Or.inr ⟨itself, ?_, old⟩, rfl, alive⟩
        rintro rfl
        obtain rfl := Option.some.inj (childFound.symm.trans old)
        rw [zombie] at alive
        cases alive
  have unique := formed.distinct found
  refine
    { small := ?_, pids := ?_, allocator := PidAllocator.dealloc_wellFormed formed.allocator (formed.holds childFound)
      holds := ?_, once := formed.once, apart := formed.apart
      scheduled := fun {other} => formed.scheduled.trans (exists_congr fun pid => lives.symm)
      registered := formed.registered.trans lives.symm, init := lives.mpr formed.init, hasParent := ?_, isChild := ?_
      distinct := ?_, childless := ?_ }
  · intro other q looked
    rcases cases.mp looked with ⟨rfl, _⟩ | ⟨_, _, old⟩
    · exact formed.small found
    · exact formed.small old
  · intro a b first second one two same
    rcases cases.mp one with ⟨rfl, rfl⟩ | ⟨_, _, old⟩ <;> rcases cases.mp two with ⟨rfl, rfl⟩ | ⟨_, _, older⟩
    · rfl
    · exact formed.pids found older same
    · exact formed.pids old found same
    · exact formed.pids old older same
  · intro other q looked
    -- the pid given back is that of no other task
    rcases cases.mp looked with ⟨rfl, rfl⟩ | ⟨_, notChild, old⟩
    · have holds := formed.holds found
      exact PidAllocator.dealloc_keeps holds fun same => different (formed.pids found childFound same)
    · exact PidAllocator.dealloc_keeps (formed.holds old) fun same => notChild (formed.pids old childFound same)
  · intro other q looked notFirst
    have keeps : ∀ {p : Place}, t.place other = some p → other ≠ child → ∃ up parent, p.parent = some up ∧ up < other ∧
        set (set t.place id (some { place with children := place.children.erase child })) child none up = some parent ∧
        other ∈ parent.children := by
      intro p old notChild
      obtain ⟨up, parent, chosen, less, parentFound, own⟩ := formed.hasParent old notFirst
      by_cases itself : up = id
      · subst itself
        obtain rfl := Option.some.inj (found.symm.trans parentFound)
        exact ⟨up, _, chosen, less, cases.mpr (Or.inl ⟨rfl, rfl⟩), (List.mem_erase_of_ne notChild).mpr own⟩
      · refine ⟨up, parent, chosen, less, cases.mpr (Or.inr ⟨itself, ?_, parentFound⟩), own⟩
        rintro rfl
        obtain rfl := Option.some.inj (childFound.symm.trans parentFound)
        rw [formed.childless childFound zombie] at own
        cases own
    rcases cases.mp looked with ⟨rfl, rfl⟩ | ⟨_, notChild, old⟩
    · have kept := keeps found different
      exact kept
    · exact keeps old notChild
  · intro up parent other looked own
    have keeps : ∀ {p : Place}, t.place up = some p → other ∈ p.children → other ≠ child → ∃ q,
        set (set t.place id (some { place with children := place.children.erase child })) child none other = some q ∧
        q.parent = some up ∧ other ≠ initproc := by
      intro p parentFound own notChild
      obtain ⟨q, old, chosen, notFirst⟩ := formed.isChild parentFound own
      by_cases itself : other = id
      · subst itself
        obtain rfl := Option.some.inj (found.symm.trans old)
        exact ⟨_, cases.mpr (Or.inl ⟨rfl, rfl⟩), chosen, notFirst⟩
      · exact ⟨q, cases.mpr (Or.inr ⟨itself, notChild, old⟩), chosen, notFirst⟩
    rcases cases.mp looked with ⟨rfl, rfl⟩ | ⟨notSelf, _, parentFound⟩
    · obtain ⟨notChild, own⟩ := unique.mem_erase_iff.mp own
      exact keeps found own notChild
    · refine keeps parentFound own ?_
      rintro rfl
      exact notSelf (formed.parent_unique parentFound found own member)
  · intro up parent looked
    rcases cases.mp looked with ⟨rfl, rfl⟩ | ⟨_, _, parentFound⟩
    · exact unique.erase child
    · exact formed.distinct parentFound
  · intro other q looked exited
    rcases cases.mp looked with ⟨rfl, rfl⟩ | ⟨_, _, old⟩
    · have none := formed.childless found exited
      rw [none] at member
      cases member
    · exact formed.childless old exited

theorem Step.wellFormed {t' : ProcessTable} (step : Step t t') (formed : t.WellFormed) : t'.WellFormed := by
  cases step with
  | suspend current found => exact formed.suspend current found
  | resume idle queue found => exact formed.resume idle queue found
  | exit current found other => exact formed.exit current found other
  | fork current found => exact formed.fork current found
  | reap _ found member childFound zombie freed => exact formed.reap found member childFound zombie freed

end

end ProcessTable

/-! ### The kernel's table -/

section
variable {P : Platform} {k k' : Kernel P}

open ProcessTable Kernel

theorem map_set {α β : Type} (f : α → β) (g : Nat → Option α) (key : Nat) (value : Option α) :
    (fun id => (set g key value id).map f) = set (fun id => (g id).map f) key (value.map f) := by
  funext id
  by_cases same : id = key
  · subst same
    rw [set_same, set_same]
  · rw [set_other same, set_other same]

theorem setTask_table {id : Nat} {task task' : TaskControlBlock} (found : k.tasks id = some task)
    (same : task'.place = task.place) : (k.setTask id task').table = k.table := by
  have kept : (fun other => (set k.tasks id (some task') other).map TaskControlBlock.place) =
      fun other => (k.tasks other).map TaskControlBlock.place := by
    rw [map_set]
    apply set_self
    rw [found, Option.map_some, Option.map_some, same]
  unfold Kernel.table Kernel.setTask
  simp only [kept]

theorem adopted_table (tasks : Nat → Option TaskControlBlock) (children : List Nat) :
    (fun id => (Kernel.adopted tasks children id).map TaskControlBlock.place) =
      ProcessTable.adopted (fun id => (tasks id).map TaskControlBlock.place) children := by
  funext id
  unfold Kernel.adopted ProcessTable.adopted
  split_ifs
  · rw [Option.map_map, Option.map_map]
    rfl
  · rw [Option.map_map, Option.map_map]
    rfl
  · rfl

theorem table_place {id : Nat} {task : TaskControlBlock} (found : k.tasks id = some task) :
    k.table.place id = some task.place :=
  Option.map_eq_some_iff.mpr ⟨task, found, rfl⟩

theorem suspended_table (id : Nat) (task : TaskControlBlock) (point : KernelPoint) :
    (k.suspended id task point).table = { k.table with
      current := none
      place := set k.table.place id (some { task.place with zombie := false })
      pid2tcb := set k.table.pid2tcb task.place.pid (some id)
      readyQueue := k.table.readyQueue ++ [id] } := by
  unfold Kernel.table Kernel.suspended
  simp only [map_set]
  rfl

theorem resumed_table (id : Nat) (rest : List Nat) (task : TaskControlBlock) :
    (k.resumed id rest task).table = { k.table with
      current := some id, place := set k.table.place id (some { task.place with zombie := false })
      readyQueue := rest } := by
  unfold Kernel.table Kernel.resumed
  simp only [map_set]
  rfl

theorem exited_table (id : Nat) (task : TaskControlBlock) (memorySet : MemorySet) (mm : Mm) (exitCode : Int) :
    (k.exited id task memorySet mm exitCode).table = { k.table with
      current := none
      pid2tcb := set k.table.pid2tcb task.place.pid none
      place := set (ProcessTable.adopted k.table.place task.place.children) id
        (some { task.place with zombie := true, children := [] }) } := by
  unfold Kernel.table Kernel.exited
  simp only [map_set, adopted_table]
  rfl

theorem observe_table (observation : Observation) : (k.observe observation).table = k.table := rfl

theorem forked_table (id : Nat) (task : TaskControlBlock) (trapCxPpn : Nat) (memorySet kernelSpace : MemorySet) (mm : Mm) :
    (k.forked id task trapCxPpn memorySet kernelSpace mm).table = { k.table with
      pidAllocator := k.table.pidAllocator.alloc.2
      place := set (set k.table.place k.table.nextTask (some ⟨k.table.pidAllocator.alloc.1, some id, [], false⟩)) id
        (some { task.place with children := task.place.children ++ [k.table.nextTask] })
      nextTask := k.table.nextTask + 1
      pid2tcb := set k.table.pid2tcb k.table.pidAllocator.alloc.1 (some k.table.nextTask)
      readyQueue := k.table.readyQueue ++ [k.table.nextTask] } := by
  unfold Kernel.table Kernel.forked
  simp only [map_set]
  rfl

theorem reaped_table (id : Nat) (task : TaskControlBlock) (child : Nat) (pidAllocator : PidAllocator)
    (kernelSpace : MemorySet) (mm : Mm) :
    (k.reaped id task child pidAllocator kernelSpace mm).table = { k.table with
      pidAllocator
      place := set (set k.table.place id (some { task.place with children := task.place.children.erase child })) child
        none } := by
  unfold Kernel.table Kernel.reaped
  simp only [map_set]
  rfl

/-- Every act is a step of the process table or leaves it alone. -/
theorem Act.table (act : Act k k') : k'.table = k.table ∨ ProcessTable.Step k.table k'.table := by
  cases act with
  | environment | files | began | ended | memory | take | store | makePipe => exact Or.inl rfl
  | signals found => exact Or.inl (setTask_table found rfl)
  | credentials _ found => exact Or.inl (setTask_table found rfl)
  | descriptors _ found => exact Or.inl (setTask_table found rfl)
  | suspend point current found =>
    rw [suspended_table]
    exact Or.inr (.suspend current (table_place found))
  | exit exitCode current found other run =>
    rw [exited_table]
    exact Or.inr (.exit current (table_place found) other)
  | fork current found =>
    rw [observe_table, forked_table]
    exact Or.inr (.fork current (table_place found))
  | exec current found => exact Or.inl (setTask_table (k := { k with mm := _ }) found rfl)
  | reap current found member exitedFound zombie freed =>
    rw [observe_table, reaped_table]
    exact Or.inr (.reap current (table_place found) member (table_place exitedFound) zombie freed)

theorem Act.table_wellFormed (act : Act k k') (formed : k.table.WellFormed) : k'.table.WellFormed := by
  rcases act.table with same | step
  · rwa [same]
  · exact step.wellFormed formed

theorem Resumed.table_wellFormed (resumed : Resumed k k') (formed : k.table.WellFormed) : k'.table.WellFormed := by
  obtain ⟨idle, queue, found⟩ := resumed
  rw [resumed_table]
  exact formed.resume idle queue (table_place found)

end

end SecureIpc

import SecureIpc.Run.Sound

/-!
Programs as sequences of acts: `Does p Q k` says that from `k` the program performs acts and then
`Q` holds, or it stops in a way that a sound kernel can stop.
-/

namespace SecureIpc
open Lib

/-- The ways to stop that do not depend on a broken invariant. -/
def Halt.expected : Halt → Bool
  | .quotaAssert | .noCurrentTask | .pidNotRegistered | .pidNotAllocated | .strongCount | .noWriteEnd | .dangling
  | .stuck => false
  | _ => true

section
variable {P : Platform} {α β : Type} {k k' : Kernel P} {id : Nat} {task : TaskControlBlock}

/-! ### Small programs -/

@[simp] theorem wp_currentTask {Q : Nat → Kernel P → Prop} {E : Halt → Prop} : wp currentTask Q E k ↔
    match k.current with | none => E .noCurrentTask | some id => Q id k := by
  simp only [currentTask, wp_bind, wp_read]
  cases k.current <;> rfl

@[simp] theorem wp_innerOf {Q : TaskControlBlock → Kernel P → Prop} {E : Halt → Prop} : wp (innerOf id) Q E k ↔
    match k.tasks id with | none => E .dangling | some task => Q task k := by
  simp only [innerOf, wp_bind, wp_read]
  cases k.tasks id <;> rfl

theorem innerOf_rule {task : TaskControlBlock} {Q : TaskControlBlock → Kernel P → Prop} {E : Halt → Prop}
    (found : k.tasks id = some task) (next : Q task k) : wp (innerOf id) Q E k := by
  rw [wp_innerOf, found]
  exact next

@[simp] theorem wp_putInner {Q : Unit → Kernel P → Prop} {E : Halt → Prop} :
    wp (putInner id task) Q E k ↔ Q () (k.setTask id task) := Iff.rfl

@[simp] theorem wp_observe {Q : Unit → Kernel P → Prop} {E : Halt → Prop} {observation : Observation} :
    wp (observe observation) Q E k ↔ Q () (k.observe observation) := Iff.rfl

@[simp] theorem wp_userMemory {Q : PhysMem → Kernel P → Prop} {E : Halt → Prop} :
    wp userMemory Q E k ↔ Q k.mm.mem k := Iff.rfl

theorem wp_currentUserToken {Q : Nat → Kernel P → Prop} {E : Halt → Prop} (current : k.current = some id)
    (found : k.tasks id = some task) : wp currentUserToken Q E k ↔ Q task.getUserToken k := by
  simp only [currentUserToken, wp_bind, wp_currentTask, current, wp_innerOf, found, wp_pure]

theorem wp_trapCxWord {Q : Nat → Kernel P → Prop} {E : Halt → Prop} {word : Nat} (found : k.tasks id = some task) :
    wp (trapCxWord id word) Q E k ↔ Q (k.mm.mem.readWord (TrapContext.wordAddr task.trapCxPpn word)) k := by
  simp only [trapCxWord, wp_bind, wp_innerOf, found, wp_userMemory, wp_pure]

theorem trapCxWord_rule {Q : Nat → Kernel P → Prop} {E : Halt → Prop} {word : Nat} (found : k.tasks id = some task)
    (next : ∀ value, Q value k) : wp (trapCxWord id word) Q E k :=
  (wp_trapCxWord found).mpr (next _)

theorem wp_setTrapCxWord {Q : Unit → Kernel P → Prop} {E : Halt → Prop} {word value : Nat}
    (found : k.tasks id = some task) : wp (setTrapCxWord id word value) Q E k ↔
      Q () (k.setMem (k.mm.mem.writeWord (TrapContext.wordAddr task.trapCxPpn word) value)) := by
  simp only [setTrapCxWord, wp_bind, wp_innerOf, found, wp_modify]

theorem addTask_rule {Q : Unit → Kernel P → Prop} {E : Halt → Prop} (found : k.tasks id = some task)
    (next : Q () { k with pid2tcb := Kernel.set k.pid2tcb task.pid (some id), readyQueue := k.readyQueue ++ [id] }) :
    wp (addTask id) Q E k := by
  simp only [addTask, wp_bind, wp_innerOf, found, wp_modify]
  exact next

/-- `mem` differs from the memory of `k` at most in the frames given. -/
def Kernel.Within (self : Kernel P) (frames : List Nat) (mem : PhysMem) : Prop :=
  ∀ x, x / 4096 ∉ frames → mem x = self.mm.mem x

theorem Kernel.Within.trans {frames : List Nat} {mem mem' : PhysMem} (first : k.Within frames mem)
    (second : (k.setMem mem).Within frames mem') : k.Within frames mem' :=
  fun x outside => (second x outside).trans (first x outside)

theorem wordAddr_within {word value : Nat} (small : word < 512) :
    k.Within [task.trapCxPpn] (k.mm.mem.writeWord (TrapContext.wordAddr task.trapCxPpn word) value) := by
  intro x outside
  apply Memory.writeWord_outside
  have apart : x / 4096 ≠ task.trapCxPpn := fun same => outside (same ▸ List.mem_singleton_self _)
  show x < task.trapCxPpn * 4096 + 8 * word ∨ task.trapCxPpn * 4096 + 8 * word + 8 ≤ x
  omega

theorem setTrapCxWord_rule {Q : Unit → Kernel P → Prop} {E : Halt → Prop} {word value : Nat}
    (found : k.tasks id = some task) (small : word < 512)
    (next : ∀ mem, k.Within [task.trapCxPpn] mem → Q () (k.setMem mem)) : wp (setTrapCxWord id word value) Q E k :=
  (wp_setTrapCxWord found).mpr (next _ (wordAddr_within small))

theorem words_within {words : List Nat} (short : words.length ≤ 512) :
    k.Within [task.trapCxPpn] (k.mm.mem.store (PhysAddr.ofPpn task.trapCxPpn) (words.flatMap (toBytes 8))) := by
  intro x outside
  apply Memory.store_outside
  have apart : x / 4096 ≠ task.trapCxPpn := fun same => outside (same ▸ List.mem_singleton_self _)
  have length : (words.flatMap (toBytes 8)).length = 8 * words.length := by
    rw [List.length_flatMap]
    simp [toBytes_length, Nat.mul_comm]
  rw [length]
  show x < task.trapCxPpn * 4096 ∨ task.trapCxPpn * 4096 + 8 * words.length ≤ x
  omega

theorem initTrapCx_rule {Q : Unit → Kernel P → Prop} {E : Halt → Prop} {context : TrapContext}
    (found : k.tasks id = some task) (registers : context.x.length = 32)
    (next : ∀ mem, k.Within [task.trapCxPpn] mem → Q () (k.setMem mem)) : wp (initTrapCx id context) Q E k := by
  have short : context.words.length ≤ 512 := by
    rw [TrapContext.words, List.length_append, registers]
    exact of_decide_eq_true rfl
  simp only [initTrapCx, wp_bind, wp_innerOf, found, wp_modify]
  exact next _ (words_within short)

theorem wp_fault {Q : α → Kernel P → Prop} {E : Halt → Prop} {x : Except Fault α} (returns : ∀ a, x = .ok a → Q a k)
    (stops : ∀ f, E (.fault f)) : wp (fault x) Q E k := by
  cases x with
  | ok a => exact returns a rfl
  | error f => exact stops f

theorem wp_mm_run {Q : α → Kernel P → Prop} {E : Halt → Prop} {p : MmM α}
    (returns : ∀ a m, p k.mm = .ok (a, m) → Q a { k with mm := m }) (stops : ∀ f, p k.mm = .error f → E (.fault f)) :
    wp (mm p) Q E k := by
  apply wp_zoom
  exact wp_intro (fun a m run => returns a m run) fun f run => stops f run

theorem wp_mm {Q : α → Kernel P → Prop} {E : Halt → Prop} {p : MmM α}
    (returns : ∀ a m, p k.mm = .ok (a, m) → Q a { k with mm := m }) (stops : ∀ f, E (.fault f)) : wp (mm p) Q E k :=
  wp_mm_run returns fun f _ => stops f

/-! ### Sequences of acts -/

def Does (p : KernelM P α) (Q : α → Kernel P → Prop) (k : Kernel P) : Prop :=
  wp p (fun a k' => Acts k k' ∧ Q a k') (fun halt => halt.expected) k

theorem Does.mono {p : KernelM P α} {Q R : α → Kernel P → Prop} (does : Does p Q k)
    (weaker : ∀ a k', Acts k k' → Q a k' → R a k') : Does p R k :=
  wp_mono does (fun a k' both => ⟨both.1, weaker a k' both.1 both.2⟩) fun _ expected => expected

theorem Does.bind {p : KernelM P β} {f : β → KernelM P α} {Q : β → Kernel P → Prop} {R : α → Kernel P → Prop}
    (first : Does p Q k) (rest : ∀ b k', Acts k k' → Q b k' → Does (f b) R k') : Does (p >>= f) R k := by
  apply wp_bind.mpr
  refine wp_mono first (fun b k₁ both => ?_) fun _ expected => expected
  obtain ⟨acts, holds⟩ := both
  exact wp_mono (rest b k₁ acts holds) (fun a k₂ later => ⟨acts.trans later.1, later.2⟩) fun _ expected => expected

theorem Does.pure {a : α} {Q : α → Kernel P → Prop} (holds : Q a k) : Does (pure a) Q k := ⟨.refl, holds⟩

/-- Likewise at the end of a trap, where the running task may be marked as killed. -/
def Ends (p : KernelM P α) (Q : α → Kernel P → Prop) (k : Kernel P) : Prop :=
  wp p (fun a k' => TailActs k k' ∧ Q a k') (fun halt => halt.expected) k

theorem Does.ends {p : KernelM P α} {Q : α → Kernel P → Prop} (does : Does p Q k) : Ends p Q k :=
  wp_mono does (fun _ _ both => ⟨both.1.toTail, both.2⟩) fun _ expected => expected

theorem Ends.bind {p : KernelM P β} {f : β → KernelM P α} {Q : β → Kernel P → Prop} {R : α → Kernel P → Prop}
    (first : Ends p Q k) (rest : ∀ b k', TailActs k k' → Q b k' → Ends (f b) R k') : Ends (p >>= f) R k := by
  apply wp_bind.mpr
  refine wp_mono first (fun b k₁ both => ?_) fun _ expected => expected
  obtain ⟨acts, holds⟩ := both
  exact wp_mono (rest b k₁ acts holds) (fun a k₂ later => ⟨acts.trans later.1, later.2⟩) fun _ expected => expected

theorem Act.one (act : Act k k') : Acts k k' := .single act

/-! ### The running task -/

theorem Sound.running (sound : Sound k) (current : k.current = some id) : ∃ task, k.tasks id = some task ∧
    task.isZombie = false := by
  obtain ⟨_, place, found, _, alive⟩ := sound.table.scheduled.mp (Or.inr current)
  obtain ⟨task, exist, rfl⟩ := Option.map_eq_some_iff.mp found
  exact ⟨task, exist, alive⟩

/-! ### Writes to memory -/

theorem Sound.user (sound : Sound k) (found : k.tasks id = some task) (alive : task.isZombie = false) :
    UserSpace P.layout k.mm task.memorySet :=
  (sound.isolated.task found).space alive

/-- Writing to the frames a program can reach is an act. -/
theorem Act.userWrite {mem : PhysMem} (found : k.tasks id = some task) (alive : task.isZombie = false)
    (own : task.resume = .user) (within : k.Within task.memorySet.userFrames mem) : Act k (k.setMem mem) :=
  .memory mem found alive (fun x outside => within x fun inside => outside (userFrames_subset inside)) own

theorem Sound.trapWrite {mem : PhysMem} (sound : Sound k) (found : k.tasks id = some task) (alive : task.isZombie = false)
    (own : task.resume = .user) (within : k.Within [task.trapCxPpn] mem) : Act k (k.setMem mem) := by
  refine .memory mem found alive (fun x outside => within x fun inside => outside ?_) own
  exact List.mem_singleton.mp inside ▸ (sound.isolated.trap_owned found alive).1

theorem Sound.own (sound : Sound k) (current : k.current = some id) (found : k.tasks id = some task) : task.resume = .user :=
  sound.isolated.running current found

theorem setTrapCxWord_does {word value : Nat} (sound : Sound k) (current : k.current = some id)
    (found : k.tasks id = some task) (alive : task.isZombie = false) (small : word < 512) :
    Does (setTrapCxWord id word value) (fun _ k' => k'.current = k.current ∧ k'.tasks = k.tasks) k :=
  setTrapCxWord_rule found small fun _ within =>
    ⟨(sound.trapWrite found alive (sound.own current found) within).one, rfl, rfl⟩

/-- A program that writes only what the caller can reach itself. -/
structure UserOnly (layout : Layout) (space : MemorySet) (p : MmM α) : Prop where
  stored : ∀ mm, UserSpace layout mm space → wp p (fun _ mm' => Stored mm mm' space.userFrames) (fun _ => True) mm

theorem UserOnly.pure {layout : Layout} {space : MemorySet} (a : α) : UserOnly layout space (Pure.pure a) :=
  ⟨fun mm _ => Stored.refl mm _⟩

theorem UserOnly.lift {layout : Layout} {space : MemorySet} (x : Except Fault α) : UserOnly layout space (Program.lift x) :=
  ⟨fun mm _ => wp_lift (fun _ _ => Stored.refl mm _) fun _ _ => trivial⟩

theorem UserOnly.bind {layout : Layout} {space : MemorySet} {p : MmM β} {f : β → MmM α} (first : UserOnly layout space p)
    (rest : ∀ b, UserOnly layout space (f b)) : UserOnly layout space (p >>= f) := by
  refine ⟨fun mm user => wp_bind.mpr ?_⟩
  refine wp_mono (first.stored mm user) (fun b mm₁ stored => ?_) fun _ _ => trivial
  have user₁ := user.stored stored fun _ => userFrames_subset
  exact wp_mono ((rest b).stored mm₁ user₁) (fun _ _ later => stored.trans later) fun _ _ => trivial

theorem UserOnly.copyToUser (layout : Layout) (space : MemorySet) (dst : Nat) (bytes : List UInt8) :
    UserOnly layout space (copyToUser space.token dst bytes) :=
  ⟨fun _ user => wp_mono (copyToUser_stored user dst bytes) (fun _ _ stored => stored) fun _ impossible => impossible.elim⟩

theorem UserOnly.rule {p : MmM α} {Q : α → Kernel P → Prop} {E : Halt → Prop} {space : MemorySet}
    (only : UserOnly P.layout space p) (user : UserSpace P.layout k.mm space)
    (next : ∀ a mem, k.Within space.userFrames mem → Q a (k.setMem mem)) (stops : ∀ f, E (.fault f)) : wp (mm p) Q E k := by
  refine wp_mm (fun a m run => ?_) stops
  have stored := wp_ok (only.stored k.mm user) run
  obtain ⟨mem, frames⟩ := m
  obtain ⟨allocator, outside⟩ := stored
  dsimp only at allocator
  subst allocator
  exact next a mem outside

end

end SecureIpc

import SecureIpc.Run.ProcessTable

/-!
Memory isolation: every frame has at most one owner, which is the kernel's address space or that of
a task, and the pages of a task that has not exited lead to its own frames. Every act keeps this.
-/

namespace SecureIpc
open Lib Kernel

section
variable {P : Platform} {k k' : Kernel P} {id : Nat} {task : TaskControlBlock}

/-- The frames of each owner: the kernel's address space, or a task. -/
def Kernel.owned (self : Kernel P) : Option Nat → List Nat
  | none => self.kernelSpace.frames
  | some id => ((self.tasks id).map fun task => task.memorySet.frames).getD []

structure TaskIsolated (layout : Layout) (mm : Mm) (task : TaskControlBlock) : Prop where
  space : task.isZombie = false → UserSpace layout mm task.memorySet
  trap : task.isZombie = false → (task.memorySet.pageTable.leaf mm.mem trapContextVpn).ppn = task.trapCxPpn
  point : task.memorySet.HoldsPoint task.resume
  empty : task.isZombie = true → task.memorySet.areas = []

structure Isolated (k : Kernel P) : Prop where
  separate : (frameStore P.layout).Separate k.mm k.owned
  kernel : Space P.layout k.mm k.kernelSpace
  task : ∀ {id task}, k.tasks id = some task → TaskIsolated P.layout k.mm task
  running : ∀ {id task}, k.current = some id → k.tasks id = some task → task.resume = .user

theorem owned_some (found : k.tasks id = some task) : k.owned (some id) = task.memorySet.frames := by
  simp only [Kernel.owned, found, Option.map_some, Option.getD_some]

theorem owned_absent (absent : k.tasks id = none) : k.owned (some id) = [] := by
  simp only [Kernel.owned, absent, Option.map_none, Option.getD_none]

/-! ### Acts that leave memory alone -/

theorem Isolated.keep (isolated : Isolated k) (mm : k'.mm = k.mm) (kernelSpace : k'.kernelSpace = k.kernelSpace)
    (spaces : ∀ id, (k'.tasks id).map TaskControlBlock.memorySet = (k.tasks id).map TaskControlBlock.memorySet)
    (tasks : ∀ {id task}, k'.tasks id = some task → TaskIsolated P.layout k.mm task)
    (running : ∀ {id task}, k'.current = some id → k'.tasks id = some task → task.resume = .user) : Isolated k' := by
  have owned : k'.owned = k.owned := by
    funext owner
    cases owner with
    | none => exact congrArg MemorySet.frames kernelSpace
    | some id =>
      have same := congrArg (fun space : Option MemorySet => (space.map MemorySet.frames).getD []) (spaces id)
      simp only [Option.map_map] at same
      exact same
  refine ⟨?_, ?_, fun found => ?_, running⟩
  · rw [mm, owned]
    exact isolated.separate
  · rw [mm, kernelSpace]
    exact isolated.kernel
  · rw [mm]
    exact tasks found

theorem Isolated.congr (isolated : Isolated k) (mm : k'.mm = k.mm) (kernelSpace : k'.kernelSpace = k.kernelSpace)
    (tasks : k'.tasks = k.tasks) (current : k'.current = k.current) : Isolated k' := by
  refine isolated.keep mm kernelSpace (fun _ => by rw [tasks]) ?_ ?_
  · intro id task found
    rw [tasks] at found
    exact isolated.task found
  · intro id task running found
    rw [current] at running
    rw [tasks] at found
    exact isolated.running running found

theorem set_spaces {tasks : Nat → Option TaskControlBlock} {changed : TaskControlBlock} (found : tasks id = some task)
    (same : changed.memorySet = task.memorySet) (other : Nat) :
    (set tasks id (some changed) other).map TaskControlBlock.memorySet = (tasks other).map TaskControlBlock.memorySet := by
  by_cases here : other = id
  · subst here
    rw [set_same, found, Option.map_some, Option.map_some, same]
  · rw [set_other here]

theorem TaskIsolated.same {layout : Layout} {mm : Mm} {changed : TaskControlBlock} (isolated : TaskIsolated layout mm task)
    (space : changed.memorySet = task.memorySet) (trap : changed.trapCxPpn = task.trapCxPpn)
    (zombie : changed.isZombie = task.isZombie) (point : task.memorySet.HoldsPoint changed.resume) :
    TaskIsolated layout mm changed := by
  refine ⟨?_, ?_, ?_, ?_⟩
  · rw [space, zombie]
    exact isolated.space
  · rw [space, zombie, trap]
    exact isolated.trap
  · rw [space]
    exact point
  · rw [space, zombie]
    exact isolated.empty

/-- One task changes, but neither its address space nor where it continues. -/
theorem Isolated.setTask {changed : TaskControlBlock} (isolated : Isolated k) (found : k.tasks id = some task)
    (space : changed.memorySet = task.memorySet) (trap : changed.trapCxPpn = task.trapCxPpn)
    (zombie : changed.isZombie = task.isZombie) (resume : changed.resume = task.resume) :
    Isolated (k.setTask id changed) := by
  refine isolated.keep rfl rfl (set_spaces found space) ?_ ?_
  · intro other next looked
    rcases setTask_cases looked with ⟨_, rfl⟩ | ⟨_, old⟩
    · refine (isolated.task found).same space trap zombie ?_
      rw [resume]
      exact (isolated.task found).point
    · exact isolated.task old
  · intro other next current looked
    rcases setTask_cases looked with ⟨rfl, rfl⟩ | ⟨_, old⟩
    · exact resume.trans (isolated.running current found)
    · exact isolated.running current old

/-! ### Owners that use their frames -/

/-- A task does not notice what an owner of other frames does. -/
theorem TaskIsolated.other {layout : Layout} {mm mm' : Mm} {F G : List Nat} (isolated : TaskIsolated layout mm task)
    (step : (frameStore layout).Evolves mm mm' F G) (apart : ∀ p ∈ task.memorySet.frames, p ∉ F) :
    TaskIsolated layout mm' task := by
  obtain ⟨space, trap, point, empty⟩ := isolated
  refine ⟨fun alive => (space alive).other step apart, fun alive => ?_, point, empty⟩
  have whole := (space alive).whole
  rw [whole.leaf_keep fun p inside => step.same_other whole.owns apart p (List.mem_append_left _ inside)]
  exact trap alive

theorem Isolated.other {owner : Option Nat} {mm : Mm} {G : List Nat} (isolated : Isolated k)
    (step : (frameStore P.layout).Evolves k.mm mm (k.owned owner) G) (different : owner ≠ some id)
    (found : k.tasks id = some task) : TaskIsolated P.layout mm task := by
  refine (isolated.task found).other step ?_
  rw [← owned_some found]
  exact isolated.separate.apart _ _ (Ne.symm different)

/-- The frames of the tasks other than `id` hold in `mm` what they hold in `k`. -/
def Kernel.KeepsOthers (self : Kernel P) (id : Nat) (mm : Mm) : Prop :=
  ∀ other task, other ≠ id → self.tasks other = some task → ∀ x, x / 4096 ∈ task.memorySet.frames → mm.mem x = self.mm.mem x

theorem Isolated.keepsOthers {owner : Option Nat} {mm : Mm} {G : List Nat} (isolated : Isolated k)
    (step : (frameStore P.layout).Evolves k.mm mm (k.owned owner) G) (mine : ∀ other, owner = some other → other = id) :
    k.KeepsOthers id mm := by
  intro other task different found x inside
  rw [← owned_some found] at inside
  have apart : some other ≠ owner := fun same => different (mine other same.symm)
  exact mem_of_content (isolated.separate.others step apart inside).2.2 rfl

theorem Isolated.kernel_other {owner : Option Nat} {mm : Mm} {G : List Nat} (isolated : Isolated k)
    (step : (frameStore P.layout).Evolves k.mm mm (k.owned owner) G) (different : owner ≠ none) :
    Space P.layout mm k.kernelSpace :=
  isolated.kernel.other step (isolated.separate.apart _ _ (Ne.symm different))

theorem TaskIsolated.stored {layout : Layout} {mm mm' : Mm} (isolated : TaskIsolated layout mm task)
    (alive : task.isZombie = false) (stored : Stored mm mm' task.memorySet.dataFrames) : TaskIsolated layout mm' task := by
  have user := isolated.space alive
  refine ⟨fun _ => user.stored stored fun _ inside => inside, fun _ => ?_, isolated.point, isolated.empty⟩
  rw [user.whole.leaf_keep fun p inside => content_of_mem fun x onFrame => stored.outside x ?_]
  · exact isolated.trap alive
  · rw [onFrame]
    exact user.whole.owns.disjoint inside

theorem Isolated.stored (isolated : Isolated k) (found : k.tasks id = some task) (alive : task.isZombie = false)
    (stored : Stored k.mm k'.mm task.memorySet.dataFrames) (kernelSpace : k'.kernelSpace = k.kernelSpace)
    (tasks : k'.tasks = k.tasks) (current : k'.current = k.current) : Isolated k' := by
  have step : (frameStore P.layout).Evolves k.mm k'.mm (k.owned (some id)) (k.owned (some id)) := by
    rw [owned_some found]
    exact stored.evolves ((isolated.task found).space alive).whole.owns fun _ inside => List.mem_append_right _ inside
  have owned : k'.owned = k.owned := by
    funext owner
    cases owner with
    | none => exact congrArg MemorySet.frames kernelSpace
    | some other =>
      unfold Kernel.owned
      rw [tasks]
  refine ⟨?_, ?_, ?_, ?_⟩
  · rw [owned, ← Function.update_eq_self (some id) k.owned]
    exact isolated.separate.evolve step
  · rw [kernelSpace]
    exact isolated.kernel_other step (Option.some_ne_none id)
  · intro other next looked
    rw [tasks] at looked
    by_cases same : other = id
    · subst same
      obtain rfl := Option.some.inj (found.symm.trans looked)
      exact (isolated.task found).stored alive stored
    · exact isolated.other step (fun clash => same (Option.some.inj clash).symm) looked
  · intro other next running looked
    rw [current] at running
    rw [tasks] at looked
    exact isolated.running running looked

theorem Isolated.trap_owned (isolated : Isolated k) (found : k.tasks id = some task) (alive : task.isZombie = false) :
    task.trapCxPpn ∈ task.memorySet.dataFrames ∧ task.trapCxPpn ∉ task.memorySet.userFrames := by
  have user := (isolated.task found).space alive
  have trap := (isolated.task found).trap alive
  obtain ⟨frame, owned, unreachable, leaf⟩ := user.trapFrame
  have small := live_small user.whole.owns (List.mem_append_right _ owned)
  rw [leaf, PageTableEntry.ppn_new small (by decide)] at trap
  exact trap ▸ ⟨owned, unreachable⟩

/-! ### Exit, fork, exec and reaping -/

theorem trapCxPpnOf_ok {memorySet : MemorySet} {ppn : Nat} (run : trapCxPpnOf memorySet k = .ok (ppn, k')) :
    (memorySet.pageTable.leaf k.mm.mem trapContextVpn).ppn = ppn := by
  have page : VirtAddr.toVpn (VirtAddr.ofUsize trapContext) = .ok trapContextVpn := by decide
  have spec : wp (trapCxPpnOf memorySet) (fun ppn _ => (memorySet.pageTable.leaf k.mm.mem trapContextVpn).ppn = ppn)
      (fun _ => True) k := by
    unfold trapCxPpnOf
    rw [page]
    simp only [wp_bind, userMemory, wp_read, fault, Except.mapError, wp_lift_ok]
    unfold MemorySet.translate
    cases found : memorySet.pageTable.translate k.mm.mem trapContextVpn with
    | none => trivial
    | some pte =>
      show (memorySet.pageTable.leaf k.mm.mem trapContextVpn).ppn = pte.ppn
      rw [PageTable.leaf, found, Option.getD_some]
  have result := wp_ok spec run
  exact result

theorem adopted_spaces (tasks : Nat → Option TaskControlBlock) (children : List Nat) (other : Nat) :
    (adopted tasks children other).map TaskControlBlock.memorySet = (tasks other).map TaskControlBlock.memorySet := by
  unfold adopted
  split_ifs
  · rw [Option.map_map]
    rfl
  · rw [Option.map_map]
    rfl
  · rfl

theorem Isolated.exit (isolated : Isolated k) (formed : k.table.WellFormed) {memorySet : MemorySet} {mm : Mm}
    (exitCode : Int) (current : k.current = some id) (found : k.tasks id = some task)
    (run : task.memorySet.recycleDataPages k.mm = .ok (memorySet, mm)) :
    Isolated (k.exited id task memorySet mm exitCode) ∧ k.KeepsOthers id mm := by
  have alive := formed.current_live current (table_place found)
  have user := (isolated.task found).space alive
  obtain ⟨same, _, evolves⟩ := wp_ok (recycleDataPages_spec user.whole.owns) run
  rw [← owned_some found] at evolves
  -- only the exiting task changes its frames
  have looked : ∀ {other next}, (k.exited id task memorySet mm exitCode).tasks other = some next →
      other = id ∧ next = task.exited memorySet exitCode ∨
      other ≠ id ∧ ∃ before, k.tasks other = some before ∧ next.memorySet = before.memorySet ∧
        next.trapCxPpn = before.trapCxPpn ∧ next.isZombie = before.isZombie ∧ next.resume = before.resume := by
    intro other next look
    rcases setTask_cases look with here | ⟨different, old⟩
    · exact Or.inl here
    · right
      refine ⟨different, ?_⟩
      unfold adopted at old
      split_ifs at old
      · obtain ⟨before, present, rfl⟩ := Option.map_eq_some_iff.mp old
        exact ⟨before, present, rfl, rfl, rfl, rfl⟩
      · obtain ⟨before, present, rfl⟩ := Option.map_eq_some_iff.mp old
        exact ⟨before, present, rfl, rfl, rfl, rfl⟩
      · exact ⟨next, old, rfl, rfl, rfl, rfl⟩
  have owned : (k.exited id task memorySet mm exitCode).owned = Function.update k.owned (some id) memorySet.frames := by
    funext owner
    cases owner with
    | none => rfl
    | some other =>
      by_cases here : other = id
      · subst here
        rw [Function.update_self]
        have looked : (k.exited other task memorySet mm exitCode).tasks other = some (task.exited memorySet exitCode) :=
          set_same _ _ _
        exact owned_some looked
      · rw [Function.update_of_ne fun clash => here (Option.some.inj clash)]
        have spaces := adopted_spaces k.tasks task.children other
        have after : (k.exited id task memorySet mm exitCode).tasks other = adopted k.tasks task.children other :=
          set_other here
        have same := congrArg (fun space : Option MemorySet => (space.map MemorySet.frames).getD []) spaces
        simp only [Option.map_map] at same
        simp only [Kernel.owned, after]
        exact same
  refine ⟨⟨?_, isolated.kernel_other evolves (Option.some_ne_none id), ?_, nofun⟩,
    isolated.keepsOthers evolves fun _ same => (Option.some.inj same).symm⟩
  · rw [owned]
    exact isolated.separate.evolve evolves
  · intro other next look
    rcases looked look with ⟨_, rfl⟩ | ⟨different, before, present, space, trap, zombie, resume⟩
    · refine ⟨nofun, nofun, trivial, fun _ => ?_⟩
      show memorySet.areas = []
      rw [same]
    · have still := isolated.other evolves (fun clash => different (Option.some.inj clash).symm) present
      refine still.same space trap zombie ?_
      rw [resume]
      exact still.point

/-- A new task, whose address space is made of free frames, and its kernel stack. -/
theorem Isolated.spawn (isolated : Isolated k) {new start stop : Nat} {child : TaskControlBlock} {kernelSpace : MemorySet}
    {mm₁ mm₂ : Mm} (absent : k.tasks new = none) (waiting : k.current ≠ some new) (alive : child.isZombie = false)
    (point : child.resume = .user) (user : UserSpace P.layout mm₁ child.memorySet)
    (fresh : (frameStore P.layout).Evolves k.mm mm₁ [] child.memorySet.frames)
    (trapCx : (child.memorySet.pageTable.leaf mm₁.mem trapContextVpn).ppn = child.trapCxPpn)
    (stack : k.kernelSpace.insertFramedArea P.layout (VirtAddr.ofUsize start) (VirtAddr.ofUsize stop)
      (PTEFlags.R ||| PTEFlags.W) mm₁ = .ok (kernelSpace, mm₂)) :
    Isolated ({ k with mm := mm₂, kernelSpace }.setTask new child) ∧ k.KeepsOthers new mm₂ := by
  have first : (frameStore P.layout).Evolves k.mm mm₁ (k.owned (some new)) child.memorySet.frames := by
    rw [owned_absent absent]
    exact fresh
  have kernel₁ := isolated.kernel_other first (Option.some_ne_none _)
  have separate₁ := isolated.separate.evolve first
  have low : VirtAddr.ofUsize stop < 2 ^ 39 := Nat.mod_lt _ (Nat.two_pow_pos 39)
  have spec := insertFramedArea_spec kernel₁ (VirtAddr.ofUsize start) low (show PTEFlags.R ||| PTEFlags.W < 32 by decide)
  obtain ⟨_, _, pushed⟩ := wp_ok spec stack
  have kernelOwned : Function.update k.owned (some new) child.memorySet.frames none = k.kernelSpace.frames :=
    Function.update_of_ne (Option.some_ne_none _).symm _ _
  have second : (frameStore P.layout).Evolves mm₁ mm₂
      (Function.update k.owned (some new) child.memorySet.frames none) kernelSpace.frames := by
    rw [kernelOwned]
    exact pushed.evolves
  have owned : ({ k with mm := mm₂, kernelSpace }.setTask new child).owned =
      Function.update (Function.update k.owned (some new) child.memorySet.frames) none kernelSpace.frames := by
    funext owner
    cases owner with
    | none => rw [Function.update_self]; rfl
    | some other =>
      rw [Function.update_of_ne (Option.some_ne_none other)]
      by_cases here : other = new
      · subst here
        rw [Function.update_self]
        exact owned_some (setTask_same _ _ _)
      · rw [Function.update_of_ne fun clash => here (Option.some.inj clash)]
        have same : ({ k with mm := mm₂, kernelSpace }.setTask new child).tasks other = k.tasks other := set_other here
        simp only [Kernel.owned, same]
  refine ⟨⟨?_, pushed.whole, ?_, ?_⟩, fun other next different present x inside => ?_⟩
  · rw [owned]
    exact separate₁.evolve second
  · intro other next looked
    rcases setTask_cases looked with ⟨_, rfl⟩ | ⟨different, present⟩
    · have apart : ∀ p ∈ next.memorySet.frames, p ∉ k.kernelSpace.frames := by
        have pairs := separate₁.apart (some new) none (Option.some_ne_none _)
        rwa [Function.update_self, kernelOwned] at pairs
      have isolated₁ : TaskIsolated P.layout mm₁ next := by
        refine ⟨fun _ => user, fun _ => trapCx, ?_, fun zombie => absurd (alive.symm.trans zombie) Bool.false_ne_true⟩
        rw [point]
        trivial
      exact isolated₁.other pushed.evolves apart
    · have isolated₁ := isolated.other first (fun clash => different (Option.some.inj clash).symm) present
      refine isolated₁.other pushed.evolves ?_
      rw [← owned_some present]
      exact isolated.separate.apart _ _ (Option.some_ne_none other)
  · intro other next running looked
    rcases setTask_cases looked with ⟨rfl, _⟩ | ⟨_, present⟩
    · exact absurd running waiting
    · exact isolated.running running present
  · have before := isolated.keepsOthers first (fun _ same => (Option.some.inj same).symm) other next different present x inside
    rw [← owned_some present] at inside
    have theirs : x / 4096 ∈ Function.update k.owned (some new) child.memorySet.frames (some other) := by
      rwa [Function.update_of_ne fun clash => different (Option.some.inj clash)]
    exact (mem_of_content (separate₁.others second (Option.some_ne_none other) theirs).2.2 rfl).trans before

theorem Isolated.fork (isolated : Isolated k) (formed : k.table.WellFormed) {trapCxPpn : Nat}
    {memorySet kernelSpace : MemorySet} {mm₁ mm₂ : Mm} (current : k.current = some id) (found : k.tasks id = some task)
    (copied : MemorySet.fromExistedUser P.layout task.memorySet k.mm = .ok (memorySet, mm₁))
    (trapCx : trapCxPpnOf memorySet { k with mm := mm₁ } = .ok (trapCxPpn, { k with mm := mm₁ }))
    (stack : k.kernelSpace.insertFramedArea P.layout
      (VirtAddr.ofUsize (kernelStackPosition k.pidAllocator.alloc.1).1)
      (VirtAddr.ofUsize (kernelStackPosition k.pidAllocator.alloc.1).2) (PTEFlags.R ||| PTEFlags.W) mm₁ =
        .ok (kernelSpace, mm₂)) :
    Isolated (k.forked id task trapCxPpn memorySet kernelSpace mm₂) ∧ k.KeepsOthers k.nextTask mm₂ := by
  have alive := formed.current_live current (table_place found)
  have user := (isolated.task found).space alive
  have absent : k.tasks k.nextTask = none := by
    by_contra present
    obtain ⟨other, there⟩ := Option.ne_none_iff_exists'.mp present
    exact Nat.lt_irrefl _ (formed.small (table_place there))
  have different : id ≠ k.nextTask := fun same => by
    rw [same, absent] at found
    cases found
  obtain ⟨child, fresh, _⟩ := wp_ok (fromExistedUser_spec user) copied
  have there := trapCxPpnOf_ok trapCx
  have spawned : Isolated ({ k with mm := mm₂, kernelSpace }.setTask k.nextTask
      (task.forked id k.pidAllocator.alloc.1 trapCxPpn memorySet)) ∧ k.KeepsOthers k.nextTask mm₂ := by
    refine isolated.spawn absent ?_ rfl rfl child fresh there stack
    rw [current]
    exact fun clash => different (Option.some.inj clash)
  have parent : Isolated (({ k with mm := mm₂, kernelSpace }.setTask k.nextTask
      (task.forked id k.pidAllocator.alloc.1 trapCxPpn memorySet)).setTask id
        { task with children := task.children ++ [k.nextTask] }) := by
    apply spawned.1.setTask ((set_other different).trans found) <;> rfl
  exact ⟨parent.congr rfl rfl rfl rfl, spawned.2⟩

theorem Isolated.exec (isolated : Isolated k) (formed : k.table.WellFormed)
    {userSp entryPoint trapCxPpn argvBase sp : Nat} {elfData : List UInt8} {args : List Utf8} {memorySet : MemorySet}
    {mm₁ mm₂ mm₃ : Mm} (current : k.current = some id) (found : k.tasks id = some task)
    (loaded : MemorySet.fromElf P.layout P.parseElf elfData k.mm = .ok ((memorySet, userSp, entryPoint), mm₁))
    (trapCx : trapCxPpnOf memorySet { k with mm := mm₁ } = .ok (trapCxPpn, { k with mm := mm₁ }))
    (pushed : pushArguments memorySet.token userSp args mm₁ = .ok ((argvBase, sp), mm₂))
    (dropped : task.memorySet.drop mm₂ = .ok ((), mm₃)) :
    Isolated ({ k with mm := mm₃ }.setTask id { task with memorySet, trapCxPpn }) ∧ k.KeepsOthers id mm₃ := by
  have alive := formed.current_live current (table_place found)
  have before := ((isolated.task found).space alive).whole.owns
  obtain ⟨elf, _, image, _⟩ := wp_ok (fromElf_spec before.valid P.parseElf elfData) loaded
  have stored := wp_ok (pushArguments_stored image.user userSp args) pushed
  -- the new address space is built beside the old one
  have beside := image.beside before stored
  obtain ⟨_, given⟩ := wp_ok (drop_spec beside.owns.left) dropped
  have step : (frameStore P.layout).Evolves k.mm mm₃ (k.owned (some id)) memorySet.frames := by
    rw [owned_some found]
    exact beside.trans (given.frame beside.owns)
  have there := trapCxPpnOf_ok trapCx
  have apart : ∀ p ∈ memorySet.frames, p ∉ task.memorySet.frames := fun p mine theirs => beside.owns.disjoint theirs mine
  have owned : ({ k with mm := mm₃ }.setTask id { task with memorySet, trapCxPpn }).owned =
      Function.update k.owned (some id) memorySet.frames := by
    funext owner
    cases owner with
    | none => rfl
    | some other =>
      by_cases here : other = id
      · subst here
        rw [Function.update_self]
        exact owned_some (setTask_same _ _ _)
      · rw [Function.update_of_ne fun clash => here (Option.some.inj clash)]
        have same : ({ k with mm := mm₃ }.setTask id { task with memorySet, trapCxPpn }).tasks other = k.tasks other :=
          set_other here
        simp only [Kernel.owned, same]
  refine ⟨⟨?_, isolated.kernel_other step (Option.some_ne_none id), ?_, ?_⟩,
    isolated.keepsOthers step fun _ same => (Option.some.inj same).symm⟩
  · rw [owned]
    exact isolated.separate.evolve step
  · intro other next looked
    rcases setTask_cases looked with ⟨_, rfl⟩ | ⟨different, present⟩
    · have loaded : TaskIsolated P.layout mm₁ { task with memorySet, trapCxPpn } := by
        refine ⟨fun _ => image.user, fun _ => there, ?_, fun zombie => absurd (alive.symm.trans zombie) Bool.false_ne_true⟩
        show memorySet.HoldsPoint task.resume
        rw [isolated.running current found]
        trivial
      have written := loaded.stored alive ⟨stored.allocator, fun x outside => stored.outside x fun inside =>
        outside (userFrames_subset inside)⟩
      exact written.other given apart
    · exact isolated.other step (fun clash => different (Option.some.inj clash).symm) present
  · intro other next running looked
    have here : other = id := Option.some.inj (running.symm.trans current)
    subst here
    obtain rfl := Option.some.inj ((setTask_same _ _ _).symm.trans looked)
    have user := isolated.running current found
    exact user

theorem Isolated.reap (isolated : Isolated k) (formed : k.table.WellFormed) {child vpn : Nat} {exited : TaskControlBlock}
    {pidAllocator : PidAllocator} {kernelSpace : MemorySet} {mm₁ mm₂ : Mm} (found : k.tasks id = some task)
    (member : child ∈ task.children) (exitedFound : k.tasks child = some exited)
    (stack : k.kernelSpace.removeAreaWithStartVpn vpn k.mm = .ok (kernelSpace, mm₁))
    (dropped : exited.memorySet.drop mm₁ = .ok ((), mm₂)) :
    Isolated (k.reaped id task child pidAllocator kernelSpace mm₂) ∧ k.KeepsOthers child mm₂ := by
  have different : id ≠ child := fun same => formed.child_ne (table_place found) (same ▸ member)
  obtain ⟨space, first, _⟩ := wp_ok (removeArea_spec isolated.kernel vpn) stack
  have first : (frameStore P.layout).Evolves k.mm mm₁ (k.owned none) kernelSpace.frames := first
  have separate₁ := isolated.separate.evolve first
  have childOwned : Function.update k.owned none kernelSpace.frames (some child) = exited.memorySet.frames := by
    rw [Function.update_of_ne (Option.some_ne_none child), owned_some exitedFound]
  have owns := separate₁.owns (some child)
  rw [childOwned] at owns
  obtain ⟨_, second⟩ := wp_ok (drop_spec owns) dropped
  have separate₂ := separate₁.evolve (show (frameStore P.layout).Evolves mm₁ mm₂
    (Function.update k.owned none kernelSpace.frames (some child)) [] by rw [childOwned]; exact second)
  have owned : (k.reaped id task child pidAllocator kernelSpace mm₂).owned =
      Function.update (Function.update k.owned none kernelSpace.frames) (some child) [] := by
    funext owner
    cases owner with
    | none =>
      rw [Function.update_of_ne (Option.some_ne_none child).symm, Function.update_self]
      rfl
    | some other =>
      by_cases gone : other = child
      · subst gone
        have looked : (k.reaped id task other pidAllocator kernelSpace mm₂).tasks other = none := set_same _ _ _
        rw [Function.update_self]
        exact owned_absent looked
      · rw [Function.update_of_ne fun clash => gone (Option.some.inj clash), Function.update_of_ne (Option.some_ne_none other)]
        have looked : (k.reaped id task child pidAllocator kernelSpace mm₂).tasks other =
            set k.tasks id (some { task with children := task.children.erase child }) other := set_other gone
        have spaces : (set k.tasks id (some { task with children := task.children.erase child }) other).map
            TaskControlBlock.memorySet = (k.tasks other).map TaskControlBlock.memorySet := by
          apply set_spaces found
          rfl
        have same := congrArg (fun space : Option MemorySet => (space.map MemorySet.frames).getD []) spaces
        simp only [Option.map_map] at same
        simp only [Kernel.owned, looked]
        exact same
  -- a task that is still there
  have old : ∀ {other next}, other ≠ child → k.tasks other = some next → TaskIsolated P.layout mm₂ next := by
    intro other next still present
    have apart : ∀ p ∈ next.memorySet.frames, p ∉ exited.memorySet.frames := by
      rw [← owned_some present, ← owned_some exitedFound]
      exact isolated.separate.apart _ _ fun clash => still (Option.some.inj clash)
    exact (isolated.other first nofun present).other second apart
  refine ⟨⟨?_, ?_, ?_, ?_⟩, fun other next still present x inside => ?_⟩
  · rw [owned]
    exact separate₂
  · refine space.other second ?_
    have pairs := separate₁.apart none (some child) (Option.some_ne_none child).symm
    rwa [Function.update_self, childOwned] at pairs
  · intro other next looked
    rcases set_eq_some.mp looked with ⟨_, none⟩ | ⟨still, looked⟩
    · cases none
    · rcases setTask_cases looked with ⟨rfl, rfl⟩ | ⟨_, present⟩
      · exact (old different found).same rfl rfl rfl (old different found).point
      · exact old still present
  · intro other next running looked
    rcases set_eq_some.mp looked with ⟨_, none⟩ | ⟨_, looked⟩
    · cases none
    · rcases setTask_cases looked with ⟨rfl, rfl⟩ | ⟨_, present⟩
      · have user := isolated.running running found
        exact user
      · exact isolated.running running present
  · have before := (@Isolated.keepsOthers P k child none mm₁ _ isolated first nofun) other next still present x inside
    rw [← owned_some present] at inside
    have theirs : x / 4096 ∈ Function.update k.owned none kernelSpace.frames (some other) := by
      rwa [Function.update_of_ne (Option.some_ne_none other)]
    have apart : some other ≠ some child := fun clash => still (Option.some.inj clash)
    rw [← childOwned] at second
    exact (mem_of_content (separate₁.others second apart theirs).2.2 rfl).trans before

/-! ### Every act -/

theorem Act.isolated (act : Act k k') (formed : k.table.WellFormed) (isolated : Isolated k) : Isolated k' := by
  cases act with
  | environment | files | began | ended | store | makePipe =>
    exact isolated.congr rfl rfl rfl rfl
  | memory mem found alive inside =>
    exact isolated.stored found alive ⟨rfl, inside⟩ rfl rfl rfl
  | take ref _ _ _ current found inside =>
    have alive := formed.current_live current (table_place found)
    refine isolated.stored found alive ⟨rfl, fun x outside => Memory.store_outside ?_⟩ rfl rfl rfl
    have apart : x ≠ ref := fun same => outside (same ▸ userFrames_subset inside)
    rw [List.length_singleton]
    omega
  | signals found => exact isolated.setTask found rfl rfl rfl rfl
  | credentials _ found => exact isolated.setTask found rfl rfl rfl rfl
  | descriptors _ found => exact isolated.setTask found rfl rfl rfl rfl
  | suspend point current found known inside =>
    refine isolated.keep rfl rfl (set_spaces found rfl) ?_ nofun
    intro other next looked
    rcases setTask_cases looked with ⟨_, rfl⟩ | ⟨_, old⟩
    · have alive := formed.current_live current (table_place found)
      refine (isolated.task found).same rfl rfl ?_ inside
      exact alive.symm
    · exact isolated.task old
  | exit exitCode current found _ run =>
    have exited := (isolated.exit formed exitCode current found run).1
    exact exited.congr rfl rfl rfl rfl
  | fork current found copied trapCx stack =>
    have forked := (isolated.fork formed current found copied trapCx stack).1
    exact forked.congr rfl rfl rfl rfl
  | exec current found loaded trapCx pushed dropped =>
    exact (isolated.exec formed current found loaded trapCx pushed dropped).1
  | @reap id child _ task exited pidAllocator kernelSpace _ mm₂ _ found member exitedFound _ _ _ stack dropped =>
    have reaped : Isolated (k.reaped id task child pidAllocator kernelSpace mm₂) :=
      (isolated.reap formed found member exitedFound stack dropped).1
    exact reaped.congr rfl rfl rfl rfl

theorem Resumed.isolated (resumed : Resumed k k') (formed : k.table.WellFormed) (isolated : Isolated k) : Isolated k' := by
  obtain ⟨idle, queue, found⟩ := resumed
  have first : k.table.readyQueue = _ := queue
  have alive := formed.queue_live (by rw [first]; exact List.mem_cons_self) (table_place found)
  refine isolated.keep rfl rfl (set_spaces found rfl) ?_ ?_
  · intro other next looked
    rcases setTask_cases looked with ⟨_, rfl⟩ | ⟨_, old⟩
    · exact (isolated.task found).same rfl rfl alive.symm trivial
    · exact isolated.task old
  · intro other next current looked
    obtain rfl := Option.some.inj current
    obtain rfl := Option.some.inj ((set_same _ _ _).symm.trans looked)
    rfl

end

end SecureIpc

import SecureIpc.Run.Transfers

/-! Processes and signals: what these programs do to the kernel. -/

namespace SecureIpc
open Lib

section
variable {P : Platform} {k k' : Kernel P} {id : Nat} {task : TaskControlBlock}

/-! ### Signals -/

theorem setTask_signals (found : k.tasks id = some task) (signals signalMask : SignalFlags) (frozen : Bool) :
    Act k (k.setTask id { task with signals, signalMask, frozen }) :=
  .signals found signals signalMask task.handlingSig task.signalActions frozen task.trapCtxBackup
    (fun formed => ⟨formed.actions, formed.handling⟩) fun saved => saved

theorem currentAddSignal_does (sound : Sound k) (current : k.current = some id) (signal : SignalFlags) :
    Does (currentAddSignal signal) (fun _ k' => k'.current = some id) k := by
  obtain ⟨task, found, _⟩ := sound.running current
  simp only [Does, currentAddSignal, wp_bind, wp_currentTask, current, wp_innerOf, found, wp_putInner]
  exact ⟨(setTask_signals found (task.signals ||| signal) task.signalMask task.frozen).one, current⟩

theorem kernelSignal_act (found : k.tasks id = some task) (signal : SignalFlags) :
    Act k (k.setTask id (task.kernelSignal signal)) ∨ Marked k (k.setTask id (task.kernelSignal signal)) := by
  unfold TaskControlBlock.kernelSignal
  split_ifs
  · exact Or.inl (setTask_signals found _ task.signalMask true)
  · exact Or.inl (setTask_signals found _ task.signalMask false)
  · exact Or.inl (setTask_signals found task.signals task.signalMask task.frozen)
  · exact Or.inr ⟨found⟩

theorem setTrapCxWords_does {first second a b : Nat} (sound : Sound k) (current : k.current = some id)
    (found : k.tasks id = some task) (alive : task.isZombie = false) (small : first < 512) (small' : second < 512) :
    Does (setTrapCxWord id first a >>= fun _ => setTrapCxWord id second b) (fun _ k' => k'.current = k.current) k := by
  apply (setTrapCxWord_does sound current found alive small).bind
  intro _ k₁ acts both
  obtain ⟨running, tasks⟩ := both
  have found₁ := (congrFun tasks id).trans found
  apply (setTrapCxWord_does (acts.sound sound) (running.trans current) found₁ alive small').mono
  exact fun _ k₂ _ same => same.1.trans running

theorem load_registers (mem : PhysMem) (ppn : Nat) : (TrapContext.load mem ppn).x.length = 32 := by
  rw [TrapContext.load, List.length_map, List.length_range]

theorem callUserSignalHandler_does (sound : Sound k) (current : k.current = some id) (sig : Nat) (signal : SignalFlags) :
    Does (callUserSignalHandler sig signal) (fun _ k' => k'.current = some id) k := by
  obtain ⟨task, found, alive⟩ := sound.running current
  simp only [Does, callUserSignalHandler, wp_bind, wp_currentTask, current, wp_innerOf, found]
  refine wp_fault (fun action indexed => ?_) fun _ => rfl
  have formed := (sound.task found).signals
  have small : sig ≤ maxSig := by
    unfold getIndex at indexed
    split at indexed
    · rename_i entry
      obtain ⟨inside, _⟩ := List.getElem?_eq_some_iff.mp entry
      rw [formed.actions] at inside
      omega
    · cases indexed
  split
  · have delivered : Act k (k.setTask id { task with
        handlingSig := sig, signals := task.signals ^^^ signal
        trapCtxBackup := some (.load k.mm.mem task.trapCxPpn) }) :=
      .signals found _ task.signalMask sig task.signalActions task.frozen _
        (fun formed => ⟨formed.actions, Or.inr ⟨Int.natCast_nonneg sig, Int.ofNat_le.mpr small⟩⟩) fun _ _ loaded => by
          obtain rfl := Option.some.inj loaded
          exact load_registers _ _
    have found₁ := Kernel.setTask_same k id { task with
      handlingSig := sig, signals := task.signals ^^^ signal, trapCtxBackup := some (.load k.mm.mem task.trapCxPpn) }
    rw [wp_bind, wp_userMemory, wp_bind, wp_putInner]
    refine wp_mono (setTrapCxWords_does (delivered.sound sound) current found₁ alive (by decide) (by decide)) ?_ fun _ expected => expected
    exact fun _ k₂ both => ⟨delivered.one.trans both.1, both.2.trans current⟩
  · exact ⟨.refl, current⟩

theorem checkPendingSignalsFrom_ends (sound : Sound k) (current : k.current = some id) (count sig : Nat) :
    Ends (checkPendingSignalsFrom count sig) (fun _ k' => k'.current = some id) k := by
  induction count generalizing k sig with
  | zero => exact (Does.pure current).ends
  | succ count ih =>
    obtain ⟨task, found, _⟩ := sound.running current
    simp only [Ends, checkPendingSignalsFrom, wp_bind, wp_currentTask, current, wp_innerOf, found]
    refine wp_fault (fun deliver _ => ?_) fun _ => rfl
    cases deliver with
    | false => exact ih sound current (sig + 1)
    | true =>
      simp only [if_true]
      split
      · have act := kernelSignal_act found (1 <<< sig)
        simp only [callKernelSignalHandler, wp_bind, wp_currentTask, current, wp_innerOf, found, wp_putInner]
        have sound₁ := TailActs.sound (.single act) sound
        refine wp_mono (ih sound₁ current (sig + 1)) ?_ fun _ expected => expected
        intro _ k₁ both
        obtain ⟨acts, still⟩ := both
        exact ⟨.head act acts, still⟩
      · exact (callUserSignalHandler_does sound current sig _).ends

theorem handleSignals_ends (sound : Sound k) (current : k.current = some id) :
    Ends handleSignals (fun r k' => r = true → k'.current = some id) k := by
  apply (checkPendingSignalsFrom_ends sound current (maxSig + 1) 0).bind
  intro _ k₁ acts current
  have sound := acts.sound sound
  obtain ⟨task, found, _⟩ := sound.running current
  simp only [Ends, wp_bind, wp_currentTask, current, wp_innerOf, found, wp_ite, wp_pure]
  split
  · exact ⟨.refl, fun _ => trivial⟩
  · refine wp_mono (suspend_does current found .frozen trivial trivial trivial).ends ?_ fun _ expected => expected
    intro _ k₂ both
    obtain ⟨acts, _⟩ := both
    exact ⟨acts, by simp⟩

/-! ### Exit -/

theorem adoptAll_wp {Q : Unit → Kernel P → Prop} {E : Halt → Prop} (children : List Nat)
    (live : k.tasks initproc ≠ none) (exist : ∀ child ∈ children, k.tasks child ≠ none ∧ child ≠ initproc)
    (next : Q () { k with tasks := Kernel.adopted k.tasks children }) : wp (adoptAll children) Q E k := by
  induction children generalizing k with
  | nil =>
    have same : Kernel.adopted k.tasks [] = k.tasks := by
      funext other
      simp [Kernel.adopted]
    rw [same] at next
    exact next
  | cons child rest ih =>
    obtain ⟨init, initFound⟩ := Option.ne_none_iff_exists'.mp live
    obtain ⟨childLives, notInit⟩ := exist child List.mem_cons_self
    obtain ⟨task, found⟩ := Option.ne_none_iff_exists'.mp childLives
    have initStill : Kernel.set k.tasks child (some { task with parent := some initproc }) initproc = some init := by
      rw [Kernel.set_other (Ne.symm notInit), initFound]
    simp only [adoptAll, adopt, wp_bind, wp_innerOf, found, wp_putInner, Kernel.setTask, initStill]
    apply ih
    · exact Option.some_ne_none _
    · intro other member
      obtain ⟨otherLives, otherInit⟩ := exist other (List.mem_cons_of_mem child member)
      exact ⟨Kernel.set_some_ne_none _ _ (Kernel.set_some_ne_none _ _ otherLives), otherInit⟩
    · have step : Kernel.adopted (Kernel.set (Kernel.set k.tasks child (some { task with parent := some initproc }))
          initproc (some { init with children := init.children ++ [child] })) rest =
            Kernel.adopted k.tasks (child :: rest) := by
        funext other
        unfold Kernel.adopted
        by_cases first : other = initproc
        · subst first
          simp [initFound]
        · simp only [if_neg first, Kernel.set_other first, List.mem_cons]
          by_cases same : other = child
          · subst same
            simp [found]
          · simp [Kernel.set_other same, same]
      rw [step]
      exact next

theorem exitCurrentAndRunNext_does (sound : Sound k) (current : k.current = some id) (exitCode : Int) :
    Does (exitCurrentAndRunNext exitCode) (fun _ _ => True) k := by
  obtain ⟨task, found, alive⟩ := sound.running current
  have place := table_place found
  have registered : k.pid2tcb task.pid = some id := sound.table.registered.mpr ⟨task.place, place, rfl, alive⟩
  obtain ⟨_, initPlace, _⟩ := sound.table.init
  obtain ⟨init, initFound, _⟩ := Option.map_eq_some_iff.mp initPlace
  simp only [Does, exitCurrentAndRunNext, wp_observe, takeCurrentTask, wp_bind, wp_currentTask, Kernel.observe, current, wp_modify, wp_pure, wp_innerOf,
    found, wp_ite, wp_throw]
  split
  · exact rfl
  · rename_i notIdle
    simp only [removeFromPid2task, wp_bind, wp_read, registered, wp_modify]
    refine adoptAll_wp task.children ?_ ?_ ?_
    · rw [initFound]
      exact Option.some_ne_none init
    · intro child member
      obtain ⟨_, childPlace, _, notInit⟩ := sound.table.isChild place member
      obtain ⟨task, childFound, _⟩ := Option.map_eq_some_iff.mp childPlace
      exact ⟨by rw [childFound]; exact Option.some_ne_none task, notInit⟩
    · refine wp_mm (fun memorySet mm run => ?_) fun _ => rfl
      have act := Act.exit exitCode current found notIdle run
      rw [Kernel.observe, current] at act
      exact ⟨act.one, trivial⟩

theorem trapTail_ends (sound : Sound k) (current : k.current = some id) : Ends trapTail (fun _ _ => True) k := by
  apply (handleSignals_ends sound current).bind
  intro left k₁ acts still
  cases left with
  | false => exact (Does.pure trivial).ends
  | true =>
    have sound := acts.sound sound
    have current := still rfl
    obtain ⟨task, found, _⟩ := sound.running current
    simp only [Ends, if_true, checkSignalsErrorOfCurrent, wp_bind, wp_currentTask, current, wp_innerOf, found, wp_pure]
    cases SignalFlags.checkError task.signals with
    | none => exact ⟨.refl, trivial⟩
    | some error => exact (exitCurrentAndRunNext_does sound current error.1).ends

/-! ### Fork -/

theorem wp_trapCxPpnOf {Q : Nat → Kernel P → Prop} {E : Halt → Prop} {memorySet : MemorySet}
    (returns : ∀ ppn, trapCxPpnOf memorySet k = .ok (ppn, k) → Q ppn k) (stops : ∀ f, E (.fault f)) :
    wp (trapCxPpnOf memorySet) Q E k := by
  have spec : wp (trapCxPpnOf memorySet) (fun _ k' => k' = k) (fun halt => ∃ f, halt = .fault f) k := by
    simp only [trapCxPpnOf, wp_bind, wp_userMemory]
    refine wp_fault (fun vpn _ => ?_) fun f => ⟨f, rfl⟩
    cases memorySet.translate k.mm.mem vpn with
    | none => exact ⟨.untranslated, rfl⟩
    | some pte => exact rfl
  refine wp_intro (fun ppn k₁ run => ?_) fun halt run => ?_
  · obtain rfl := wp_ok spec run
    exact returns ppn run
  · obtain ⟨f, rfl⟩ := wp_error spec run
    exact stops f

theorem wp_kernelStackNew {Q : Unit → Kernel P → Prop} {E : Halt → Prop} {pid : Nat}
    (returns : ∀ kernelSpace m, k.kernelSpace.insertFramedArea P.layout (VirtAddr.ofUsize (kernelStackPosition pid).1)
      (VirtAddr.ofUsize (kernelStackPosition pid).2) (PTEFlags.R ||| PTEFlags.W) k.mm = .ok (kernelSpace, m) →
        Q () { k with mm := m, kernelSpace }) (stops : ∀ f, E (.fault f)) : wp (kernelStackNew pid) Q E k := by
  unfold kernelStackNew
  revert returns
  generalize kernelStackPosition pid = position
  obtain ⟨bottom, top⟩ := position
  intro returns
  simp only [wp_bind, wp_read]
  exact wp_mm (fun kernelSpace m run => returns kernelSpace m run) stops

theorem wp_pidAlloc {Q : Nat → Kernel P → Prop} {E : Halt → Prop} : wp pidAlloc Q E k ↔
    Q k.pidAllocator.alloc.1 { k with pidAllocator := k.pidAllocator.alloc.2 } := by
  simp only [pidAlloc, wp_bind, wp_read, wp_modify, wp_pure]

theorem wp_newTask {Q : Nat → Kernel P → Prop} {E : Halt → Prop} : wp (newTask task) Q E k ↔
    Q k.nextTask { k.setTask k.nextTask task with nextTask := k.nextTask + 1 } := Iff.rfl

/-- The state between the two halves of `sys_fork`: the child exists and is not scheduled yet. -/
def Kernel.bred (self : Kernel P) (id : Nat) (task : TaskControlBlock) (trapCxPpn : Nat)
    (memorySet kernelSpace : MemorySet) (mm : Mm) : Kernel P :=
  { self with
    mm, kernelSpace
    pidAllocator := self.pidAllocator.alloc.2
    tasks := set (set self.tasks self.nextTask (some (task.forked id self.pidAllocator.alloc.1 trapCxPpn memorySet))) id
      (some { task with children := task.children ++ [self.nextTask] })
    nextTask := self.nextTask + 1 }

theorem bred_child (different : k.nextTask ≠ id) (trapCxPpn : Nat) (memorySet kernelSpace : MemorySet) (mm : Mm) :
    (k.bred id task trapCxPpn memorySet kernelSpace mm).tasks k.nextTask =
      some (task.forked id k.pidAllocator.alloc.1 trapCxPpn memorySet) := by
  unfold Kernel.bred
  simp only [Kernel.set_other different, Kernel.set_same]

theorem fork_wp {Q : Nat → Kernel P → Prop} {E : Halt → Prop} (found : k.tasks id = some task)
    (different : k.nextTask ≠ id)
    (returns : ∀ memorySet mm₁ trapCxPpn kernelSpace mm₂ mem,
      MemorySet.fromExistedUser P.layout task.memorySet k.mm = .ok (memorySet, mm₁) →
      trapCxPpnOf memorySet { k with mm := mm₁ } = .ok (trapCxPpn, { k with mm := mm₁ }) →
      k.kernelSpace.insertFramedArea P.layout (VirtAddr.ofUsize (kernelStackPosition k.pidAllocator.alloc.1).1)
        (VirtAddr.ofUsize (kernelStackPosition k.pidAllocator.alloc.1).2) (PTEFlags.R ||| PTEFlags.W) mm₁ =
          .ok (kernelSpace, mm₂) →
      (k.bred id task trapCxPpn memorySet kernelSpace mm₂).Within [trapCxPpn] mem →
      Q k.nextTask ((k.bred id task trapCxPpn memorySet kernelSpace mm₂).setMem mem))
    (stops : ∀ f, E (.fault f)) : wp (fork id) Q E k := by
  apply wp_bind.mpr
  rw [wp_innerOf, found]
  apply wp_bind.mpr
  refine wp_mm (fun memorySet mm₁ copied => ?_) stops
  apply wp_bind.mpr
  refine wp_trapCxPpnOf (fun trapCxPpn trapCx => ?_) stops
  apply wp_bind.mpr
  rw [wp_pidAlloc]
  apply wp_bind.mpr
  refine wp_kernelStackNew (fun kernelSpace mm₂ stack => ?_) stops
  apply wp_bind.mpr
  rw [wp_newTask]
  apply wp_bind.mpr
  rw [wp_putInner]
  apply wp_bind.mpr
  show wp (setTrapCxWord k.nextTask TrapContext.kernelSpWord _) _ _ (k.bred id task trapCxPpn memorySet kernelSpace mm₂)
  exact setTrapCxWord_rule (bred_child different _ _ _ _) (by decide) fun mem within =>
    returns memorySet mm₁ trapCxPpn kernelSpace mm₂ mem copied trapCx stack within

theorem sysFork_rule {Q : Int → Kernel P → Prop} {E : Halt → Prop} (sound : Sound k) (current : k.current = some id)
    (found : k.tasks id = some task)
    (returns : ∀ r memorySet mm₁ trapCxPpn kernelSpace mm₂ mem,
      MemorySet.fromExistedUser P.layout task.memorySet k.mm = .ok (memorySet, mm₁) →
      trapCxPpnOf memorySet { k with mm := mm₁ } = .ok (trapCxPpn, { k with mm := mm₁ }) →
      k.kernelSpace.insertFramedArea P.layout (VirtAddr.ofUsize (kernelStackPosition k.pidAllocator.alloc.1).1)
        (VirtAddr.ofUsize (kernelStackPosition k.pidAllocator.alloc.1).2) (PTEFlags.R ||| PTEFlags.W) mm₁ =
          .ok (kernelSpace, mm₂) →
      (k.forked id task trapCxPpn memorySet kernelSpace mm₂).Within [trapCxPpn] mem →
      Q r (((k.forked id task trapCxPpn memorySet kernelSpace mm₂).observe (.forked k.nextTask)).setMem mem))
    (stops : ∀ f, E (.fault f)) : wp sysFork Q E k := by
  have different : k.nextTask ≠ id := Nat.ne_of_gt (sound.table.small (table_place found))
  apply wp_bind.mpr
  rw [wp_currentTask, current]
  apply wp_bind.mpr
  refine fork_wp found different ?_ stops
  intro memorySet mm₁ trapCxPpn kernelSpace mm₂ mem copied trapCx stack within
  have child := @bred_child P k id task different trapCxPpn memorySet kernelSpace mm₂
  apply wp_bind.mpr
  rw [wp_innerOf, Kernel.setMem_tasks, child]
  apply wp_bind.mpr
  refine setTrapCxWord_rule child (by decide) fun mem' within' => ?_
  apply wp_bind.mpr
  refine addTask_rule child ?_
  exact returns _ memorySet mm₁ trapCxPpn kernelSpace mm₂ mem' copied trapCx stack (within.trans within')

theorem sysFork_does (sound : Sound k) (current : k.current = some id) :
    Does sysFork (fun _ k' => k'.current = some id) k := by
  obtain ⟨task, found, _⟩ := sound.running current
  refine sysFork_rule sound current found ?_ fun _ => rfl
  intro _ memorySet mm₁ trapCxPpn kernelSpace mm₂ mem copied trapCx stack within
  have forked := Act.fork current found copied trapCx stack
  have different : k.nextTask ≠ id := Nat.ne_of_gt (sound.table.small (table_place found))
  have child : ((k.forked id task trapCxPpn memorySet kernelSpace mm₂).observe (.forked k.nextTask)).tasks k.nextTask =
      some (task.forked id k.pidAllocator.alloc.1 trapCxPpn memorySet) :=
    (Kernel.set_other different).trans (Kernel.set_same _ _ _)
  have written := (forked.sound sound).trapWrite child rfl rfl within
  exact ⟨forked.one.tail written, current⟩

/-! ### Exec -/

theorem exec_does (sound : Sound k) (current : k.current = some id) (found : k.tasks id = some task)
    (alive : task.isZombie = false) (elfData : List UInt8) (args : List Utf8) :
    Does (exec id elfData args) (fun _ k' => k'.current = some id) k := by
  apply wp_bind.mpr
  refine wp_mm (fun image mm₁ loaded => ?_) fun _ => rfl
  obtain ⟨memorySet, userSp, entryPoint⟩ := image
  apply wp_bind.mpr
  refine wp_trapCxPpnOf (fun trapCxPpn trapCx => ?_) fun _ => rfl
  apply wp_bind.mpr
  refine wp_mm (fun stack mm₂ pushed => ?_) fun _ => rfl
  obtain ⟨argvBase, sp⟩ := stack
  apply wp_bind.mpr
  rw [wp_innerOf]
  simp only [found]
  apply wp_bind.mpr
  refine wp_mm (fun _ mm₃ dropped => ?_) fun _ => rfl
  have execed := Act.exec current found loaded trapCx pushed dropped
  apply wp_bind.mpr
  rw [wp_putInner]
  apply wp_bind.mpr
  show wp (initTrapCx id _) _ _ (Kernel.setTask { k with mm := mm₃ } id { task with memorySet, trapCxPpn })
  have found₁ := Kernel.setTask_same { k with mm := mm₃ } id { task with memorySet, trapCxPpn }
  refine initTrapCx_rule found₁ (by simp [TrapContext.appInitContext, TrapContext.setSp]) fun mem within => ?_
  exact ⟨execed.one.tail ((execed.sound sound).trapWrite found₁ alive ((execed.sound sound).own current found₁) within), current⟩

theorem sysExec_does (sound : Sound k) (current : k.current = some id) (path args : Nat) :
    Does (sysExec path args) (fun _ k' => k'.current = some id) k := by
  obtain ⟨task, found, alive⟩ := sound.running current
  simp only [Does, sysExec, wp_bind, wp_currentUserToken current found, wp_userMemory]
  refine wp_fault (fun name _ => ?_) fun _ => rfl
  cases name with
  | none => exact ⟨.refl, current⟩
  | some name =>
    apply wp_bind.mpr
    refine wp_fault (fun argsVec _ => ?_) fun _ => rfl
    cases argsVec with
    | error ret => exact ⟨.refl, current⟩
    | ok argsVec =>
      refine wp_bind.mpr (wp_mono (openFile_onward (E := fun halt => halt.expected) name 0 rfl) ?_ fun _ expected => expected)
      rintro inode _ ⟨disk, rfl, onward, fresh⟩
      cases inode with
      | none => exact ⟨onward.act.one, current⟩
      | some inode =>
        refine wp_bind.mpr (wp_mono (readAll_onward (E := fun halt => halt.expected) onward (fresh inode rfl) readAllBound [] rfl) ?_
          fun _ expected => expected)
        rintro allData _ ⟨disk', rfl, onward'⟩
        have read : Acts k { k with disk := disk' } := onward'.act.one
        have running : Kernel.current { k with disk := disk' } = some id := current
        have exist : Kernel.tasks { k with disk := disk' } id = some task := found
        have still : wp currentTask (fun found k' => found = id ∧ k' = { k with disk := disk' }) (fun _ => False) { k with disk := disk' } := by
          simp only [wp_currentTask, current, and_self]
        refine wp_bind.mpr (wp_mono still ?_ fun _ impossible => impossible.elim)
        rintro _ _ ⟨rfl, rfl⟩
        have does := exec_does (read.sound sound) running exist alive allData argsVec
        exact wp_bind.mpr (wp_mono does (fun _ _ both => ⟨read.trans both.1, both.2⟩) fun _ expected => expected)

/-! ### Waiting -/

theorem copyToUser_rule {Q : IpcResult Unit → Kernel P → Prop} {E : Halt → Prop} {dst : Nat} {bytes : List UInt8}
    (user : UserSpace P.layout k.mm task.memorySet)
    (next : ∀ r mem, k.Within task.memorySet.userFrames mem → Q r (k.setMem mem)) (stops : ∀ f, E (.fault f)) :
    wp (mm (copyToUser task.getUserToken dst bytes)) Q E k :=
  (UserOnly.copyToUser P.layout task.memorySet dst bytes).rule user next stops

/-- A child that has exited and has been taken off its parent's list is held by nothing. -/
theorem not_stronglyHeld (sound : Sound k) (current : k.current = some id) (found : k.tasks id = some task)
    {child : Nat} {exited : TaskControlBlock} (member : child ∈ task.children)
    (childFound : k.tasks child = some exited) (zombie : exited.isZombie = true) :
    (k.setTask id { task with children := task.children.erase child }).stronglyHeld child = false := by
  have formed := sound.table
  have place := table_place found
  have childPlace := table_place childFound
  have dead : ¬∃ pid, k.table.Live child pid := by
    rintro ⟨_, other, same, _, alive⟩
    obtain rfl := Option.some.inj (childPlace.symm.trans same)
    exact Bool.false_ne_true (alive.symm.trans zombie)
  unfold Kernel.stronglyHeld
  simp only [Bool.or_eq_false_iff]
  refine ⟨⟨⟨?_, ?_⟩, ?_⟩, ?_⟩
  · rw [beq_eq_false_iff_ne, Kernel.setTask_current]
    exact fun running => dead (formed.scheduled.mp (Or.inr running))
  · rw [List.contains_eq_mem, decide_eq_false_iff_not]
    exact fun waiting => dead (formed.scheduled.mp (Or.inl waiting))
  · rw [List.any_eq_false]
    intro pid _
    rw [beq_iff_eq]
    exact fun registered => dead ⟨pid, formed.registered.mp registered⟩
  · rw [List.any_eq_false]
    intro other _
    cases looked : (k.setTask id { task with children := task.children.erase child }).tasks other with
    | none => exact Bool.false_ne_true
    | some holder =>
      simp only [List.contains_eq_mem, decide_eq_true_eq]
      rcases setTask_cases looked with ⟨rfl, rfl⟩ | ⟨different, old⟩
      · exact fun still => ((formed.distinct place).mem_erase_iff.mp still).1 rfl
      · exact fun held => different (formed.parent_unique (table_place old) place held member)

theorem wp_kernelStackDrop {Q : Unit → Kernel P → Prop} {E : Halt → Prop} {pid : Nat}
    (returns : ∀ vpn kernelSpace m, kernelStackPage pid = .ok vpn →
      k.kernelSpace.removeAreaWithStartVpn vpn k.mm = .ok (kernelSpace, m) → Q () { k with mm := m, kernelSpace })
    (misaligned : ∀ f, kernelStackPage pid = .error f → E (.fault f))
    (stops : ∀ vpn f, k.kernelSpace.removeAreaWithStartVpn vpn k.mm = .error f → E (.fault f)) :
    wp (kernelStackDrop pid) Q E k := by
  unfold kernelStackPage at returns misaligned
  unfold kernelStackDrop
  revert returns misaligned
  generalize VirtAddr.toVpn (VirtAddr.ofUsize (kernelStackPosition pid).1) = bottom
  intro returns misaligned
  apply wp_bind.mpr
  cases bottom with
  | error f => exact misaligned f rfl
  | ok vpn =>
    apply wp_lift_ok.mpr
    simp only [wp_bind, wp_read]
    exact wp_mm_run (fun kernelSpace m run => returns vpn kernelSpace m rfl run) (stops vpn)

-- Checking a use of the rule would otherwise compute with the addresses of the stack.
attribute [local irreducible] kernelStackDrop

theorem dropTask_wp {Q : Unit → Kernel P → Prop} {E : Halt → Prop} {child : Nat} {exited : TaskControlBlock}
    {pidAllocator : PidAllocator} (childFound : k.tasks child = some exited)
    (freed : k.pidAllocator.dealloc exited.pid = .ok pidAllocator)
    (returns : ∀ vpn kernelSpace mm₁ mm₂,
      kernelStackPage exited.pid = .ok vpn →
      k.kernelSpace.removeAreaWithStartVpn vpn k.mm = .ok (kernelSpace, mm₁) →
      exited.memorySet.drop mm₁ = .ok ((), mm₂) →
      Q () { k with mm := mm₂, kernelSpace, pidAllocator, tasks := Kernel.set k.tasks child none })
    (misaligned : ∀ f, kernelStackPage exited.pid = .error f → E (.fault f))
    (stops : ∀ vpn f, k.kernelSpace.removeAreaWithStartVpn vpn k.mm = .error f ∨
      (∃ kernelSpace mm₁, k.kernelSpace.removeAreaWithStartVpn vpn k.mm = .ok (kernelSpace, mm₁) ∧
        exited.memorySet.drop mm₁ = .error f) → E (.fault f)) : wp (dropTask child) Q E k := by
  apply wp_bind.mpr
  rw [wp_innerOf, childFound]
  have released : ∀ {Q : Unit → Kernel P → Prop}, Q () { k with pidAllocator } → wp (pidDealloc exited.pid) Q E k := by
    intro Q next
    simp only [pidDealloc, wp_bind, wp_read, freed, wp_lift_ok, wp_modify]
    exact next
  apply wp_bind.mpr
  apply released
  rw [wp_bind]
  refine wp_kernelStackDrop (fun vpn kernelSpace mm₁ bottom removed => ?_) misaligned fun vpn f failed => stops vpn f (Or.inl failed)
  apply wp_bind.mpr
  refine wp_mm_run (fun _ mm₂ dropped => ?_) fun f failed => stops vpn f (Or.inr ⟨kernelSpace, mm₁, removed, failed⟩)
  exact returns vpn kernelSpace mm₁ mm₂ bottom removed dropped

theorem sysWaitpid_does (sound : Sound k) (current : k.current = some id) (pid : Int) (exitCodePtr : Nat) :
    Does (sysWaitpid pid exitCodePtr) (fun _ k' => k'.current = some id) k := by
  obtain ⟨task, found, alive⟩ := sound.running current
  simp only [Does, sysWaitpid, wp_bind, wp_currentTask, current, wp_innerOf, found, wp_read, wp_ite, wp_pure]
  split
  · exact ⟨.refl, trivial⟩
  · cases search : task.children.find? fun child => k.isZombie child && k.awaits pid child with
    | none => exact ⟨.refl, current⟩
    | some child =>
      have member := List.mem_of_find?_eq_some search
      have accepted := List.find?_some search
      rw [Bool.and_eq_true] at accepted
      obtain ⟨_, childPlace, _⟩ := sound.table.isChild (table_place found) member
      obtain ⟨exited, childFound, _⟩ := Option.map_eq_some_iff.mp childPlace
      have zombie : exited.isZombie = true := by
        have first := accepted.1
        rwa [Kernel.isZombie, childFound] at first
      simp only [wp_bind, wp_innerOf, childFound]
      refine copyToUser_rule (sound.user found alive) (fun r mem within => ?_) fun _ => rfl
      have written : Act k (k.setMem mem) := .userWrite found alive (sound.own current found) within
      cases r with
      | error error => exact ⟨written.one, current⟩
      | ok =>
        have held := not_stronglyHeld (written.sound sound) current found member childFound zombie
        apply wp_bind.mpr
        rw [wp_putInner]
        apply wp_bind.mpr
        rw [wp_read, held, if_neg Bool.false_ne_true]
        apply wp_bind.mpr
        have different : child ≠ id := fun same => sound.table.child_ne (table_place found) (same ▸ member)
        have still : ((k.setMem mem).setTask id { task with children := task.children.erase child }).tasks child =
            some exited := (Kernel.set_other different).trans childFound
        have freed := PidAllocator.dealloc_ok (sound.table.holds (table_place childFound))
        refine dropTask_wp still freed ?_ (fun _ _ => rfl) fun _ _ _ => rfl
        intro vpn kernelSpace mm₁ mm₂ bottom removed dropped
        have reaped : Act (k.setMem mem) _ := .reap current found member childFound zombie freed bottom removed dropped
        exact ⟨written.one.tail reaped, current⟩

end

end SecureIpc

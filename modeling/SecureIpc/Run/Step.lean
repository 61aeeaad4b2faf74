import SecureIpc.Mm.Elf
import SecureIpc.Run.Calls

/-! Whole runs: booting gives a sound kernel, and every step of a sound kernel performs acts. -/

namespace SecureIpc
open Lib

section
variable {P : Platform} {k : Kernel P} {s s' : System P} {id : Nat} {task : TaskControlBlock}

/-! ### Traps -/

/-- A step or its last part: acts, and then there may be the end of a trap. -/
inductive Finishes (s : System P) : System P → Prop where
  | quiet {s' : System P} (acts : TrapActs s s') : Finishes s s'
  | tail {s₁ : System P} {id : Nat} {k' : Kernel P} (acts : TrapActs s s₁) (current : s₁.kernel.current = some id)
      (ended : trapTail s₁.kernel = .ok ((), k')) : Finishes s { s₁ with kernel := k' }

theorem Finishes.after {s₁ : System P} (acts : TrapActs s s₁) (finishes : Finishes s₁ s') : Finishes s s' := by
  cases finishes with
  | quiet later => exact .quiet (acts.trans later)
  | tail later current ended => exact .tail (acts.trans later) current ended

def Finishing (p : SystemM P Unit) (s : System P) : Prop :=
  wp p (fun _ s' => Finishes s s') (fun halt => halt.expected) s

theorem Performs.finishing {p : SystemM P Unit} {Q : Unit → System P → Prop} (performs : Performs p Q s) : Finishing p s :=
  wp_mono performs (fun _ _ both => .quiet both.1.trap) fun _ expected => expected

theorem Performs.finish {α : Type} {p : SystemM P α} {f : α → SystemM P Unit} {Q : α → System P → Prop}
    (first : Performs p Q s) (rest : ∀ a s', SystemActs s s' → Q a s' → Finishing (f a) s') : Finishing (p >>= f) s := by
  apply wp_bind.mpr
  refine wp_mono first (fun a s₁ both => ?_) fun _ expected => expected
  obtain ⟨acts, holds⟩ := both
  exact wp_mono (rest a s₁ acts holds) (fun _ _ later => later.after acts.trap) fun _ expected => expected

theorem trapTail_finishing (sound : Sound s.kernel) (current : s.kernel.current = some id) :
    Finishing (kernel trapTail) s := by
  apply wp_kernel.mpr
  refine wp_intro (fun _ k' run => .tail .refl current run) fun halt run => ?_
  have expected := wp_error (trapTail_ends sound current) run
  exact expected

theorem finishSyscall_finishing (sound : Sound s.kernel) {result : Option Int}
    (answers : ∀ value, result = some value → Answers id s value) : Finishing (finishSyscall result) s := by
  cases result with
  | none => exact (Performs.pure (Q := fun _ _ => True) trivial).finishing
  | some value =>
    obtain ⟨current, entry, since, opened, answered⟩ := answers value rfl
    obtain ⟨task, found, alive⟩ := sound.running current
    simp only [Finishing, finishSyscall, wp_bind, wp_kernel, wp_currentTask, current]
    refine setTrapCxWord_rule found (by decide) fun mem within => ?_
    rw [wp_observe]
    have written : Act s.kernel (s.kernel.setMem mem) := sound.trapWrite found alive (sound.own current found) within
    have acts : TrapActs s { s with kernel := (s.kernel.setMem mem).observe (.returned value) } :=
      (Acts.system written.one).trap.tail
        (.returned (s := { s with kernel := s.kernel.setMem mem }) current opened answered)
    have last := trapTail_finishing (s := { s with kernel := _ }) (acts.sound sound) current
    exact wp_mono (wp_kernel.mp last) (fun _ _ finishes => finishes.after acts) fun _ expected => expected

theorem handleSyscall_finishing (sound : Sound s.kernel) (current : s.kernel.current = some id) :
    Finishing handleSyscall s := by
  obtain ⟨task, found, alive⟩ := sound.running current
  simp only [Finishing, handleSyscall, wp_bind, wp_kernel, wp_currentTask, current]
  refine trapCxWord_rule found fun sepc => ?_
  refine setTrapCxWord_rule found (by decide) fun mem within => ?_
  have found₁ : (s.kernel.setMem mem).tasks id = some task := found
  refine trapCxWord_rule found₁ fun syscallId => ?_
  refine trapCxWord_rule found₁ fun a0 => ?_
  refine trapCxWord_rule found₁ fun a1 => ?_
  refine trapCxWord_rule found₁ fun a2 => ?_
  rw [wp_innerOf, found₁]
  dsimp only
  rw [wp_observe]
  have written : Act s.kernel (s.kernel.setMem mem) := sound.trapWrite found alive (sound.own current found) within
  have entered : TrapActs s { s with
      kernel := (s.kernel.setMem mem).observe (.entered (entryOf task syscallId (a0, a1, a2))) } :=
    (Acts.system written.one).trap.tail (.entered (s := { s with kernel := s.kernel.setMem mem }) _)
  have opened := openCall_observe (k := s.kernel.setMem mem) current (.entered (entryOf task syscallId (a0, a1, a2)))
  refine wp_mono (syscall_performs (entered.sound sound) current found₁ _ _ opened) ?_ fun _ expected => expected
  intro result s₁ both
  obtain ⟨called, answers⟩ := both
  have before : TrapActs s s₁ := entered.trans called.trap
  refine wp_mono (finishSyscall_finishing (before.sound sound) answers) ?_ fun _ expected => expected
  exact fun _ s₂ finishes => finishes.after before

theorem handleFault_finishing (sound : Sound s.kernel) (current : s.kernel.current = some id) (signal : SignalFlags) :
    Finishing (kernel (handleFault signal)) s := by
  have first := (currentAddSignal_does sound current signal).system
  have both : Finishing (kernel (currentAddSignal signal) >>= fun _ => kernel trapTail) s := by
    apply first.finish
    intro _ s₁ acts current
    exact trapTail_finishing (acts.sound sound) current
  have joined := wp_bind.mp both
  simp only [wp_kernel] at joined
  apply wp_kernel.mpr
  apply wp_bind.mpr
  exact joined

theorem trapHandler_finishing (sound : Sound s.kernel) (current : s.kernel.current = some id) (trap : Trap) :
    Finishing (trapHandler trap) s := by
  obtain ⟨task, found, _⟩ := sound.running current
  cases trap with
  | userEnvCall => exact handleSyscall_finishing sound current
  | supervisorTimer => exact (suspend_does current found .preempted trivial trivial trivial).system.finishing
  | illegalInstruction => exact handleFault_finishing sound current _
  | other => exact rfl
  | _ => exact handleFault_finishing sound current _

/-! ### The scheduler -/

theorem runNext_rule {Q : Option KernelPoint → Kernel P → Prop} {E : Halt → Prop} (sound : Sound k)
    (rests : k.readyQueue = [] → Q none k)
    (starts : ∀ id rest task, k.readyQueue = id :: rest → k.tasks id = some task →
      Q (some task.resume) (k.resumed id rest task)) : wp runNext Q E k := by
  simp only [runNext, fetchTask, wp_bind, wp_read]
  cases queue : k.readyQueue with
  | nil => exact rests queue
  | cons id rest =>
    obtain ⟨_, place, looked, _⟩ := sound.table.scheduled.mp (Or.inl (show id ∈ k.table.readyQueue by
      rw [Kernel.table, queue]
      exact List.mem_cons_self))
    obtain ⟨task, found, _⟩ := Option.map_eq_some_iff.mp looked
    simp only [wp_bind, wp_modify, wp_pure, wp_innerOf, found, wp_putInner]
    exact starts id rest task queue found

/-- The task that runs can go on at `point`. -/
structure ReadyAt (k : Kernel P) (id : Nat) (task : TaskControlBlock) (point : KernelPoint) : Prop where
  sound : Sound k
  current : k.current = some id
  found : k.tasks id = some task
  alive : task.isZombie = false
  known : k.KnownPoint point
  inside : task.memorySet.HoldsPoint point
  flight : Flight k id point

/-- The task that the scheduler starts can go on where it was suspended. -/
theorem runNext_ready (sound : Sound k) (idle : k.current = none) :
    wp runNext (fun r k' => (r = none → k' = k) ∧ ∀ point, r = some point → Resumed k k' ∧ ∃ id task, ReadyAt k' id task point)
      (fun _ => False) k := by
  refine runNext_rule sound (fun _ => ⟨fun _ => rfl, nofun⟩) fun id rest task queue found => ⟨nofun, fun point same => ?_⟩
  obtain rfl := Option.some.inj same
  have resumed : Resumed k _ := .intro idle queue found
  have inside := (sound.isolated.task found).point
  obtain ⟨started, there, alive⟩ := (resumed.sound sound).running rfl
  obtain rfl := Option.some.inj ((Kernel.set_same _ _ _).symm.trans there)
  exact ⟨resumed, id, _, resumed.sound sound, rfl, there, alive, (sound.task found).point, inside,
    (sound.flights.point found).keep rfl inside fun _ _ => rfl⟩

theorem transferLoop_finishing (sound : Sound s.kernel) {loop : KernelM P (Option Nat)} {permit : IpcPermit}
    (does : Does loop (fun r k' => ∀ count, r = some count → k'.current = some id ∧ Settled k' id permit.request count)
      s.kernel) :
    Finishing (do
      match ← kernel loop with
      | none => return ()
      | some count => finishSyscall (some (← completeTransfer permit count))) s := by
  apply does.system.finish
  intro count s₁ acts back
  cases count with
  | none => exact (Performs.pure (Q := fun _ _ => True) trivial).finishing
  | some count =>
    obtain ⟨current₁, settled⟩ := back count rfl
    apply (completeTransfer_performs (acts.sound sound) current₁ settled).finish
    intro value s₂ later answers
    exact finishSyscall_finishing (later.sound (acts.sound sound)) fun _ same => Option.some.inj same ▸ answers

theorem resumeAt_finishing {point : KernelPoint} (ready : ReadyAt s.kernel id task point) : Finishing (resumeAt point) s := by
  obtain ⟨sound, current, found, alive, known, inside, flight⟩ := ready
  have nothing : Finishing (pure ()) s := (Performs.pure (Q := fun _ _ => True) trivial).finishing
  cases point with
  | user => exact nothing
  | yielded =>
    obtain ⟨entry, opened, plain⟩ := flight
    unfold resumeAt
    exact finishSyscall_finishing sound fun value _ =>
      answers_silent current opened plain (.refl id s.kernel.trace) value
  | preempted => exact trapTail_finishing sound current
  | frozen => exact trapTail_finishing sound current
  | pipeRead call =>
    exact transferLoop_finishing sound (pipeReadLoop_does sound current found call known inside flight.1 flight.2)
  | pipeWrite call =>
    exact transferLoop_finishing sound (pipeWriteLoop_does sound current found call known inside flight.1 flight.2)
  | stdinRead buf =>
    have looped := stdinLoop_does current found alive (sound.own current found) buf inside flight
    obtain ⟨_, entry, opened, plain⟩ := flight
    apply wp_bind.mpr
    rw [wp_kernel]
    refine wp_mono looped (fun count k₁ both => ?_) fun _ expected => expected
    obtain ⟨acts, back⟩ := both
    have told : ∀ value, count.map intOfWord = some value → Answers id { s with kernel := k₁ } value := by
      intro value returned
      refine answers_silent (back ?_) opened plain (acts.continues id) value
      rintro rfl
      cases returned
    have last := finishSyscall_finishing (s := { s with kernel := k₁ }) (acts.sound sound) told
    exact wp_mono last (fun _ _ finishes => finishes.after (Acts.system acts).trap) fun _ expected => expected

/-! ### Steps -/

theorem save_within (x : List Nat) (sstatus sepc : Nat) :
    k.Within [task.trapCxPpn] (TrapContext.save task.trapCxPpn x sstatus sepc k.mm.mem) := by
  have next : ∀ {mem : PhysMem} {word : Nat} (value : Nat), word < 512 → k.Within [task.trapCxPpn] mem →
      k.Within [task.trapCxPpn] (mem.writeWord (TrapContext.wordAddr task.trapCxPpn word) value) :=
    fun {mem} _ _ small within => within.trans (wordAddr_within (k := k.setMem mem) small)
  have registers : ∀ (numbers : List Nat) (mem : PhysMem), (∀ n ∈ numbers, n < 512) → k.Within [task.trapCxPpn] mem →
      k.Within [task.trapCxPpn]
        (numbers.foldl (fun mem n => mem.writeWord (TrapContext.wordAddr task.trapCxPpn n) (x.getD n 0)) mem) := by
    intro numbers
    induction numbers with
    | nil => exact fun _ _ within => within
    | cons n rest ih =>
      intro mem small within
      have first := next (x.getD n 0) (small n List.mem_cons_self) within
      exact ih _ (fun m member => small m (List.mem_cons_of_mem n member)) first
  have saved := registers ((List.range 32).filter fun n => n != 0 && n != 4) k.mm.mem (by decide) fun _ _ => rfl
  exact next sepc (by decide) (next sstatus (by decide) saved)

theorem saveTrapCx_does (sound : Sound k) (current : k.current = some id) (x : List Nat) (sstatus sepc : Nat) :
    Does (saveTrapCx id x sstatus sepc) (fun _ k' => k'.current = some id) k := by
  obtain ⟨task, found, alive⟩ := sound.running current
  simp only [Does, saveTrapCx, wp_bind, wp_innerOf, found, wp_modify]
  exact ⟨(sound.trapWrite found alive (sound.own current found) (save_within x sstatus sepc)).one, current⟩

theorem userStore_does (sound : Sound k) (current : k.current = some id) (va : Nat) (byte : UInt8) :
    Does (userStore va byte) (fun _ _ => True) k := by
  obtain ⟨task, found, alive⟩ := sound.running current
  simp only [Does, userStore, wp_bind, wp_currentTask, current, wp_innerOf, found, wp_userMemory]
  cases translated : task.memorySet.translate k.mm.mem (VirtAddr.floor (VirtAddr.ofUsize va)) with
  | none => exact ⟨.refl, trivial⟩
  | some pte =>
    dsimp only
    split
    · rename_i allowed
      simp only [Bool.and_eq_true] at allowed
      have frame := (sound.user found alive).frame translated allowed.1.2
      have inside : ∀ i < [byte].length,
          (PhysAddr.ofPpn pte.ppn + VirtAddr.pageOffset (VirtAddr.ofUsize va) + i) / 4096 ∈ task.memorySet.userFrames := by
        intro i single
        have zero : i = 0 := Nat.lt_one_iff.mp single
        have offset : VirtAddr.pageOffset (VirtAddr.ofUsize va) < 4096 := Nat.mod_lt _ (by decide)
        rw [zero, show (PhysAddr.ofPpn pte.ppn + VirtAddr.pageOffset (VirtAddr.ofUsize va) + 0) / 4096 = pte.ppn by
          show (pte.ppn * 4096 + _ + 0) / 4096 = pte.ppn
          omega]
        exact frame
      have stored : Stored k.mm _ task.memorySet.userFrames := store_stored inside
      exact ⟨(Act.userWrite found alive (sound.own current found) stored.outside).one, trivial⟩
    · exact ⟨.refl, trivial⟩

/-- One step: the environment changes, a task may be started, and then there are acts and the end of a trap. -/
def StepActs (s s' : System P) : Prop :=
  ∃ now consoleInput k, (k = { s.kernel with now, consoleInput } ∨ Resumed { s.kernel with now, consoleInput } k) ∧
    Finishes { s with kernel := k } s'

theorem step_spec (sound : Sound s.kernel) (event : Event) :
    wp (step event) (fun _ => StepActs s) (fun halt => halt.expected) s := by
  have direct : ∀ {p : SystemM P Unit}, Finishing p s → wp p (fun _ => StepActs s) (fun halt => halt.expected) s :=
    fun finishing => wp_mono finishing
      (fun _ _ finishes => ⟨s.kernel.now, s.kernel.consoleInput, s.kernel, Or.inl rfl, finishes⟩) fun _ expected => expected
  have nothing : Finishing (pure ()) s := (Performs.pure (Q := fun _ _ => True) trivial).finishing
  simp only [step, wp_bind, wp_kernel, wp_read]
  cases running : s.kernel.current with
  | none =>
    cases event with
    | schedule now input =>
      have prepared : Act s.kernel { s.kernel with now, consoleInput := input } := .environment now input
      have sound₁ := prepared.sound sound
      apply wp_bind.mpr
      rw [wp_kernel, setEnvironment, wp_modify]
      apply wp_bind.mpr
      rw [wp_kernel]
      refine wp_mono (runNext_ready sound₁ running) (fun point k₁ both => ?_) fun _ impossible => impossible.elim
      cases point with
      | none =>
        obtain rfl := both.1 rfl
        exact ⟨now, input, _, Or.inl rfl, .quiet .refl⟩
      | some point =>
        obtain ⟨resumed, id, task, ready⟩ := both.2 point rfl
        refine wp_mono (@resumeAt_finishing _ { s with kernel := k₁ } _ _ _ ready) (fun _ s' finishes => ?_) fun _ expected => expected
        exact ⟨now, input, _, Or.inr resumed, finishes⟩
    | _ => exact direct nothing
  | some id =>
    cases event with
    | trap cause x sstatus sepc now input =>
      have prepared : Does (setEnvironment now input) (fun _ k' => k'.current = s.kernel.current) s.kernel :=
        ⟨(Act.environment now input).one, rfl⟩
      apply direct
      apply prepared.system.finish
      intro _ s₁ acts same
      have sound := acts.sound sound
      apply (saveTrapCx_does sound (same.trans running) x sstatus sepc).system.finish
      intro _ s₂ acts current
      exact trapHandler_finishing (acts.sound sound) current cause
    | store va byte => exact direct (userStore_does sound running va byte).system.finishing
    | schedule => exact direct nothing

theorem step_acts (sound : Sound s.kernel) {event : Event} (stepped : step event s = .ok ((), s')) : StepActs s s' :=
  wp_ok (Q := fun _ => StepActs s) (step_spec sound event) stepped

theorem step_stops (sound : Sound s.kernel) {event : Event} {halt : Halt} (stopped : step event s = .error halt) :
    halt.expected := by
  exact wp_error (E := fun halt : Halt => halt.expected = true) (step_spec sound event) stopped

theorem Finishes.sound (finishes : Finishes s s') (sound : Sound s.kernel) : Sound s'.kernel := by
  cases finishes with
  | quiet acts => exact acts.sound sound
  | tail acts current ended =>
    have sound₁ := acts.sound sound
    exact (wp_ok (trapTail_ends sound₁ current) ended).1.sound sound₁

theorem started_sound {now : Nat} {consoleInput : List Nat} {k₁ : Kernel P} (sound : Sound k)
    (started : k₁ = { k with now, consoleInput } ∨ Resumed { k with now, consoleInput } k₁) : Sound k₁ := by
  have prepared : Act k { k with now, consoleInput } := .environment now consoleInput
  rcases started with rfl | resumed
  · exact prepared.sound sound
  · exact resumed.sound (prepared.sound sound)

theorem StepActs.sound (acts : StepActs s s') (sound : Sound s.kernel) : Sound s'.kernel := by
  obtain ⟨now, consoleInput, k, started, finishes⟩ := acts
  exact finishes.sound (started_sound sound started)

/-! ### Boot -/

/-- The kernel when the first process has been created and added. -/
structure Booted (k : Kernel P) : Prop where
  tasks : ∃ task, k.tasks = Kernel.set (fun _ => none) 0 (some task) ∧ task.pid = 1 ∧ task.parent = none ∧
    task.children = [] ∧ task.taskStatus = .ready ∧ task.resume = .user ∧
    task.fdTable = [some .stdin, some .stdout, some .stdout] ∧ task.security = .initial ∧
    task.signalActions = SignalActions.default ∧ task.handlingSig = -1 ∧ task.trapCtxBackup = none ∧ task.killed = false
  nextTask : k.nextTask = 1
  queue : k.readyQueue = [0]
  registered : k.pid2tcb = Kernel.set (fun _ => none) 1 (some 0)
  idle : k.current = none
  pids : k.pidAllocator = ⟨2, []⟩
  pipes : k.pipes = fun _ => none
  trace : k.trace = []
  isolated : Isolated k
  files : ∀ inv : FsInvariant P.fs, inv.disk P.disk → inv.Keeps k.inodes k.disk

def firstTask (pid trapCxPpn : Nat) (memorySet : MemorySet) : TaskControlBlock :=
  { pid, trapCxPpn, resume := .user, taskStatus := .ready, memorySet, parent := none
    children := [], exitCode := 0, fdTable := [some .stdin, some .stdout, some .stdout], security := .initial
    signals := 0, signalMask := 0, handlingSig := -1, signalActions := SignalActions.default
    killed := false, frozen := false, trapCtxBackup := none }

theorem taskNew_wp {Q : Nat → Kernel P → Prop} {E : Halt → Prop} (isolated : Isolated k) (absent : k.tasks k.nextTask = none)
    (idle : k.current = none) (elfData : List UInt8)
    (returns : ∀ memorySet kernelSpace trapCxPpn m,
      Isolated ({ k with mm := m, kernelSpace }.setTask k.nextTask (firstTask k.pidAllocator.alloc.1 trapCxPpn memorySet)) →
      Q k.nextTask { k with
        mm := m, kernelSpace, pidAllocator := k.pidAllocator.alloc.2, nextTask := k.nextTask + 1
        tasks := Kernel.set k.tasks k.nextTask (some (firstTask k.pidAllocator.alloc.1 trapCxPpn memorySet)) })
    (stops : ∀ f, E (.fault f)) : wp (taskNew elfData) Q E k := by
  apply wp_bind.mpr
  refine wp_mm (fun image mm₁ loaded => ?_) stops
  obtain ⟨memorySet, userSp, entryPoint⟩ := image
  obtain ⟨_, _, image, _⟩ := wp_ok (fromElf_spec isolated.kernel.owns.valid P.parseElf elfData) loaded
  apply wp_bind.mpr
  refine wp_trapCxPpnOf (fun trapCxPpn trapCx => ?_) stops
  have there := trapCxPpnOf_ok trapCx
  apply wp_bind.mpr
  rw [wp_pidAlloc]
  apply wp_bind.mpr
  refine wp_kernelStackNew (fun kernelSpace mm₂ stack => ?_) stops
  have spawned : Isolated ({ k with mm := mm₂, kernelSpace }.setTask k.nextTask
      (firstTask k.pidAllocator.alloc.1 trapCxPpn memorySet)) := by
    refine And.left (isolated.spawn absent ?_ rfl rfl image.user image.evolves there stack)
    rw [idle]
    exact nofun
  apply wp_bind.mpr
  rw [wp_newTask]
  apply wp_bind.mpr
  rw [kernelToken, wp_read]
  apply wp_bind.mpr
  refine initTrapCx_rule (Kernel.setTask_same _ _ _) (by simp [TrapContext.appInitContext, TrapContext.setSp]) fun mem within => ?_
  have found : ({ k with mm := mm₂, kernelSpace }.setTask k.nextTask
      (firstTask k.pidAllocator.alloc.1 trapCxPpn memorySet)).tasks k.nextTask = some _ := Kernel.setTask_same _ _ _
  refine returns memorySet kernelSpace trapCxPpn ⟨mem, mm₂.frames⟩ (spawned.stored found rfl ⟨rfl, ?_⟩ rfl rfl rfl)
  exact fun x outside => within x fun inside =>
    outside (List.mem_singleton.mp inside ▸ (spawned.trap_owned found rfl).1)

theorem firstTask_booted (isolated : Isolated k) (tasks : k.tasks = fun _ => none) (nextTask : k.nextTask = 0)
    (queue : k.readyQueue = []) (registered : k.pid2tcb = fun _ => none) (idle : k.current = none)
    (pids : k.pidAllocator = .new) (pipes : k.pipes = fun _ => none) (trace : k.trace = [])
    (files : ∀ inv : FsInvariant P.fs, inv.disk P.disk → inv.Keeps k.inodes k.disk) (elfData : List UInt8) :
    wp (taskNew elfData >>= addTask) (fun _ => Booted) (fun _ => True) k := by
  cases k
  dsimp only at tasks nextTask queue registered idle pids pipes trace
  subst tasks nextTask queue registered idle pids pipes trace
  apply wp_bind.mpr
  refine taskNew_wp isolated rfl rfl elfData (fun memorySet kernelSpace trapCxPpn m isolated => ?_) fun _ => trivial
  refine addTask_rule rfl ?_
  exact ⟨⟨_, rfl, rfl, rfl, rfl, rfl, rfl, rfl, rfl, rfl, rfl, rfl, rfl⟩, rfl, rfl, rfl, rfl, rfl, rfl, rfl,
    isolated.congr rfl rfl rfl rfl, files⟩

theorem blank_valid : (frameStore P.layout).valid (Kernel.blank P).mm := by
  refine ⟨Nat.le_refl _, ?_, rfl, List.nodup_nil, nofun⟩
  have fits := P.layout.kernel_fits
  have limit : memoryEnd < 2 ^ 56 := by decide
  have last : lastFrame = memoryEnd / 4096 := by decide
  have whole : memoryEnd % 4096 = 0 := by decide
  show P.layout.firstFrame ≤ lastFrame
  rw [last]
  unfold Layout.firstFrame PhysAddr.ceil PhysAddr.ofUsize
  split
  · exact Nat.zero_le _
  · rw [Nat.mod_eq_of_lt (by omega)]
    show (P.layout.ekernel - 1 + 4096) / 4096 ≤ memoryEnd / 4096
    omega

theorem newKernel_isolated {kernelSpace : MemorySet} {mm₁ : Mm}
    (built : MemorySet.newKernel P.layout (Kernel.blank P).mm = .ok (kernelSpace, mm₁)) :
    Isolated { Kernel.blank P with mm := mm₁, kernelSpace } := by
  obtain ⟨space, fresh, _⟩ := wp_ok (newKernel_spec blank_valid) built
  refine ⟨⟨?_, ?_⟩, space, nofun, nofun⟩
  · intro owner
    cases owner with
    | none => exact fresh.owns
    | some other => exact .nil fresh.owns.valid
  · intro first second different p member
    cases second with
    | none =>
      cases first with
      | none => exact absurd rfl different
      | some other => cases member
    | some other => exact List.not_mem_nil

theorem startKernel_booted : wp (startKernel P) (fun _ => Booted) (fun _ => True) (Kernel.blank P) := by
  apply wp_bind.mpr
  refine wp_mm (fun kernelSpace mm₁ built => ?_) fun _ => trivial
  have isolated := newKernel_isolated built
  apply wp_bind.mpr
  rw [wp_modify]
  apply wp_bind.mpr
  refine wp_mono (openFile_onward (E := fun _ => True) _ _ trivial) ?_ fun _ _ => trivial
  rintro inode _ ⟨disk, rfl, onward, found⟩
  cases inode with
  | none => trivial
  | some inode =>
    apply wp_bind.mpr
    refine wp_mono (readAll_onward (E := fun _ => True) onward (found inode rfl) _ _ trivial) ?_ fun _ _ => trivial
    rintro v _ ⟨disk', rfl, onward'⟩
    refine firstTask_booted ?_ rfl rfl rfl rfl rfl rfl rfl rfl ?_ v
    · exact isolated.congr rfl rfl rfl rfl
    · exact fun inv holds => ⟨(onward' inv holds).1, nofun⟩

theorem boot_booted (booted : boot P = .ok s) : Booted s.kernel ∧ s.auditRing = .new := by
  unfold boot at booted
  split at booted
  · rename_i started
    obtain rfl := Except.ok.inj booted
    exact ⟨wp_ok startKernel_booted started, rfl⟩
  · cases booted

theorem Booted.sound (booted : Booted k) : Sound k := by
  obtain ⟨⟨task, tasks, pid, parent, children, status, resume, files, security, actions, handling, backup, _⟩, nextTask, queue,
    registered, idle, pids, pipes, _, isolated, _⟩ := booted
  have only : ∀ {id task'}, k.tasks id = some task' → id = 0 ∧ task' = task := by
    intro id task' looked
    rw [tasks] at looked
    rcases setTask_cases looked with same | ⟨_, none⟩
    · exact same
    · cases none
  have alive : task.isZombie = false := by
    rw [TaskControlBlock.isZombie, status]
    rfl
  have place : k.table.place 0 = some task.place := table_place (by rw [tasks, Kernel.set_same])
  have first : ∀ {id place'}, k.table.place id = some place' → id = 0 ∧ place' = task.place := by
    intro id place' looked
    obtain ⟨task', found, rfl⟩ := Option.map_eq_some_iff.mp looked
    obtain ⟨rfl, rfl⟩ := only found
    exact ⟨rfl, rfl⟩
  have live : ∀ {id pid}, k.table.Live id pid ↔ id = 0 ∧ pid = 1 := by
    intro id pid'
    constructor
    · rintro ⟨place', looked, rfl, _⟩
      obtain ⟨rfl, rfl⟩ := first looked
      exact ⟨rfl, pid⟩
    · rintro ⟨rfl, rfl⟩
      exact ⟨task.place, place, pid, alive⟩
  have childless : task.place.children = [] := children
  refine ⟨?_, ?_, ?_, isolated, ⟨fun looked => ?_⟩⟩
  · refine ⟨?_, ?_, ?_, ?_, ?_, ?_, ?_, ?_, live.mpr ⟨rfl, rfl⟩, ?_, ?_, ?_, ?_⟩
    · intro id place' looked
      obtain ⟨rfl, _⟩ := first looked
      rw [Kernel.table, nextTask]
      exact Nat.one_pos
    · intro a b _ _ left right _
      exact (first left).1.trans (first right).1.symm
    · rw [Kernel.table, pids]
      exact ⟨List.nodup_nil, nofun⟩
    · intro id place' looked
      obtain ⟨_, rfl⟩ := first looked
      rw [Kernel.table, pids, show task.place.pid = 1 from pid]
      exact ⟨Nat.one_lt_two, List.not_mem_nil⟩
    · rw [Kernel.table, queue]
      exact List.nodup_singleton 0
    · intro id running
      rw [Kernel.table, idle] at running
      cases running
    · intro id
      have waiting : k.table.readyQueue = [0] := queue
      have resting : k.table.current = none := idle
      simp only [live, waiting, resting, List.mem_singleton, reduceCtorEq, or_false, exists_and_left, exists_eq, and_true]
    · intro pid' id
      have map : k.table.pid2tcb = Kernel.set (fun _ => none) 1 (some 0) := registered
      rw [live, map, Kernel.set_eq_some]
      constructor
      · rintro (⟨rfl, same⟩ | ⟨_, none⟩)
        · exact ⟨(Option.some.inj same).symm, rfl⟩
        · cases none
      · rintro ⟨rfl, rfl⟩
        exact Or.inl ⟨rfl, rfl⟩
    · intro id place' looked notInit
      exact absurd (first looked).1 notInit
    · intro p parent' id looked member
      rw [(first looked).2, childless] at member
      cases member
    · intro p parent' looked
      rw [(first looked).2, childless]
      exact List.nodup_nil
    · intro id place' looked _
      rw [(first looked).2, childless]
  · intro id task' looked
    obtain ⟨rfl, rfl⟩ := only looked
    refine ⟨fun _ => ?_, ?_, ?_, ⟨?_, Or.inl handling⟩, ?_, ?_⟩
    · rw [files, security]
      exact accounted_initial
    · rw [files]
      intro fd file looked
      have standard : file = .stdin ∨ file = .stdout := by
        have member := List.mem_of_getElem? (slot_eq_some.mp looked)
        simpa using member
      rcases standard with rfl | rfl <;> trivial
    · rw [resume]
      trivial
    · rw [actions]
      rfl
    · rw [security]
      exact Or.inl ⟨rfl, rfl⟩
    · intro context saved
      rw [backup] at saved
      cases saved
  · refine ⟨?_, ?_⟩
    · intro pipe ring looked
      rw [pipes] at looked
      cases looked
    · intro pipe _
      rw [pipes]
  · rw [(only looked).2, resume]
    trivial

theorem Reachable.sound (reachable : Reachable s) : Sound s.kernel := by
  induction reachable with
  | boot booted => exact (boot_booted booted).1.sound
  | step _ event stepped ih => exact (step_acts ih stepped).sound ih

theorem runEvents_reachable {events : List Event} (reachable : Reachable s)
    (ran : runEvents events s = .ok ((), s')) : Reachable s' := by
  induction events generalizing s with
  | nil =>
    obtain ⟨_, rfl⟩ := Prod.mk.inj (Except.ok.inj ran)
    exact reachable
  | cons event rest ih =>
    obtain ⟨⟨_, s₁⟩, stepped, later⟩ := bind_ok ran
    exact ih (.step reachable event stepped) later

theorem run_reachable {events : List Event} (ran : run P events = .ok s) : Reachable s := by
  unfold run at ran
  split at ran
  · cases ran
  · rename_i booted
    split at ran
    · rename_i later
      obtain rfl := Except.ok.inj ran
      exact runEvents_reachable (.boot booted) later
    · cases ran

end

/-! ### A machine to run on -/

def imageFileSystem (image : List UInt8) : FileSystem where
  State := Unit
  Inode := Unit
  find _ _ := some (some (), ())
  create _ _ := some (none, ())
  clear _ _ := some ()
  readAt _ offset len _ := some (slice image offset len, ())
  writeAt _ _ bytes _ := some (bytes.length, ())

/-- A machine with little free memory, whose only program is `image`. -/
def machine (image : List UInt8) : Platform where
  layout :=
    { stext := 0x80200000, etext := 0x80201000, srodata := 0x80201000, erodata := 0x80202000
      sdata := 0x80202000, edata := 0x80203000, sbssWithStack := 0x80203000, ebss := 0x80204000
      ekernel := 0x87fd0000, strampoline := 0x80200000
      trampoline_inside := by decide, trampoline_aligned := by decide, kernel_fits := by decide
      text_inside := by decide, rodata_inside := by decide, data_inside := by decide, bss_inside := by decide }
  fs := imageFileSystem image
  disk := ()
  memory := fun _ => 0
  parseElf := ElfFile.read
  trapHandler := 0x80200000
  sstatus := 0

def sampleImage : List UInt8 := executable 7 0x1000 [1, 2, 3, 4]

def sample : Platform := machine sampleImage

def ecall (syscallId a0 a1 a2 : Nat) : Event :=
  .trap .userEnvCall ((((List.replicate 32 0).set 17 syscallId).set 10 a0 |>.set 11 a1).set 12 a2) 0 0x10000 0 []

theorem toOption_eq_some {ε α : Type} {x : Except ε α} {a : α} : x.toOption = some a ↔ x = .ok a := by
  cases x with
  | ok b => simp [Except.toOption]
  | error e => simp [Except.toOption]

def stopsWith {α : Type} (halt : Halt) (result : Except Halt α) : Bool :=
  match result with
  | .ok _ => false
  | .error other => other == halt

theorem stopsWith_iff {α : Type} {halt : Halt} {result : Except Halt α} : stopsWith halt result = true ↔ result = .error halt := by
  cases result with
  | ok a => simp [stopsWith]
  | error other => simp [stopsWith]

theorem sample_runs : ∃ s : System sample, Reachable s ∧ s.kernel.current = some initproc ∧ s.kernel.pid2tcb 99 = none := by
  have ran : ((run sample [.schedule 0 []]).toOption.any fun s =>
      s.kernel.current == some initproc && (s.kernel.pid2tcb 99).isNone) = true := by decide +kernel
  simp only [Option.any_eq_true, toOption_eq_some, Bool.and_eq_true, beq_iff_eq, Option.isNone_iff_eq_none] at ran
  obtain ⟨s, result, current, unregistered⟩ := ran
  exact ⟨s, run_reachable result, current, unregistered⟩

/-- The first process makes a pipe, duplicates the write end and forks; the child gives up its rights. -/
def forkedRun : List Event :=
  [.schedule 0 [], ecall 59 0x10100 0 0, ecall 24 4 0 0, ecall 220 0 0 0, ecall 124 0 0 0, .schedule 0 [], ecall 601 7 0 0]

/-- Two processes with three descriptors of a pipe each, of different users. -/
structure ForkedState (s : System sample) (parent child : TaskControlBlock) : Prop where
  reachable : Reachable s
  current : s.kernel.current = some 1
  queue : s.kernel.readyQueue = [0]
  parentFound : s.kernel.tasks 0 = some parent
  parentAlive : parent.isZombie = false
  parentUid : parent.security.credentials.uid = 0
  childFound : s.kernel.tasks 1 = some child
  childAlive : child.isZombie = false
  childUid : child.security.credentials.uid = 7
  childPipes : child.security.quota.openPipes = 3

theorem forkedRun_reaches : ∃ s parent child, ForkedState s parent child ∧ ∃ s', sysKill parent.pid 9 s = .ok (-1, s') := by
  have ran : ((run sample forkedRun).toOption.any fun s => s.kernel.current == some 1 && s.kernel.readyQueue == [0] &&
      (s.kernel.tasks 0).any fun parent => (s.kernel.tasks 1).any fun child => !parent.isZombie && parent.security.credentials.uid == 0 &&
        !child.isZombie && child.security.credentials.uid == 7 && child.security.quota.openPipes == 3 &&
        (sysKill parent.pid 9 s).toOption.any fun r => r.1 == -1) = true := by decide +kernel
  simp only [Option.any_eq_true, toOption_eq_some, Bool.and_eq_true, beq_iff_eq, Bool.not_eq_true'] at ran
  obtain ⟨s, result, ⟨current, queue⟩, parent, parentFound, child, childFound, ⟨⟨⟨⟨parentAlive, parentUid⟩, childAlive⟩, childUid⟩, pipes⟩,
    ⟨r, s'⟩, killed, refused⟩ := ran
  obtain rfl : r = -1 := refused
  exact ⟨s, parent, child, ⟨run_reachable result, current, queue, parentFound, parentAlive, parentUid, childFound, childAlive, childUid, pipes⟩,
    s', killed⟩

end SecureIpc

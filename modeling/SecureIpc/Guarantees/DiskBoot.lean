import SecureIpc.Guarantees.OpenFiles
import SecureIpc.Run.Quiet

/-!
Booting from a disk: the first process runs the program in the file `initproc`. It can use up its descriptors without touching
the disk again.
-/

namespace SecureIpc.Guarantees
open Lib EasyFs

/-- The boot with the program of the first process at hand. -/
def startProgram (P : Platform) (v : List UInt8) : KernelM P Unit := do
  let kernelSpace ← mm (MemorySet.newKernel P.layout)
  modify fun k => { k with kernelSpace }
  let id ← taskNew v
  addTask id

section
variable {geo : Geometry} {base : Platform} {start : Memory} {map : FileMap} {file : Utf8 × List UInt8} {i : Nat}
  {k : Kernel (onEasyFs geo base start)}

/-- The kernel boots with the contents of `initproc`. -/
theorem startKernel_eq (holds : Holds geo map start) (position : map.index initprocName = some i) (found : map[i]? = some file) :
    startKernel (onEasyFs geo base start) (.blank _) = startProgram (onEasyFs geo base start) file.2 (.blank _) := by
  unfold startKernel startProgram
  cases space : (mm (MemorySet.newKernel (onEasyFs geo base start).layout) : KernelM (onEasyFs geo base start) MemorySet) (.blank _) with
  | error halt => simp only [bind, StateT.bind, space, Except.bind]
  | ok made =>
    obtain ⟨kernelSpace, k⟩ := made
    have disk : k.disk = start := by
      have spec : wp (mm (MemorySet.newKernel (onEasyFs geo base start).layout)) (fun _ k => k.disk = start) (fun _ => True)
          (Kernel.blank (onEasyFs geo base start)) := wp_mm (fun _ _ _ => rfl) fun _ => trivial
      have kept := wp_ok spec space
      exact kept
    have there : Holds geo map (Kernel.disk { k with kernelSpace }) := by
      show Holds geo map k.disk
      rwa [disk]
    have set : (modify fun k => { k with kernelSpace } : KernelM (onEasyFs geo base start) Unit) k = .ok ((), { k with kernelSpace }) := rfl
    rw [run_bind space, run_bind space, run_bind set, run_bind set, run_bind (openFile_reads there position)]
    exact run_bind (readAll_reads there found)

end

theorem boot_ok {P : Platform} {k : Kernel P} (run : startKernel P (.blank P) = .ok ((), k)) : boot P = .ok ⟨k, .new⟩ := by
  rw [boot, run]

/-! ### A process that only duplicates descriptors -/

/-- The first process runs, with no signal pending, and the disk is the one given. -/
structure FirstRuns {P : Platform} (s : System P) (disk : P.fs.State) : Prop where
  reachable : Reachable s
  current : s.kernel.current = some initproc
  disk : s.kernel.disk = disk
  task : ∃ task, s.kernel.tasks initproc = some task ∧ task.Quiet

section
variable {P : Platform} {s s' : System P} {disk : P.fs.State}

theorem FirstRuns.dup {fd : Nat} (runs : FirstRuns s disk) (word : fd < 2 ^ 64) (stepped : step (ecall 24 fd 0 0) s = .ok ((), s')) :
    FirstRuns s' disk := by
  obtain ⟨task, found, quiet⟩ := runs.task
  have sound := runs.reachable.sound
  have formed := (sound.task found).signals
  have alive := sound.table.current_live runs.current (table_place found)
  obtain ⟨fdTable, quota, ret, run, _⟩ := dupFd_spec ((sound.task found).accounted alive) fd
  have spec : wp (step (ecall 24 fd 0 0)) (fun _ s' => s'.kernel.current = some initproc ∧ s'.kernel.disk = disk ∧
      ∃ task, s'.kernel.tasks initproc = some task ∧ task.Quiet) (fun _ => True) s := by
    refine ecall_rule runs.current found ⟨by decide, word, by decide, by decide⟩ fun mem _ => ?_
    generalize started : Kernel.observe _ _ = k
    have current : k.current = some initproc := started ▸ runs.current
    have found₁ : k.tasks initproc = some task := started ▸ found
    have same : k.disk = disk := started ▸ runs.disk
    show wp (returning (sysDup fd)) _ _ _
    simp only [returning, sysDup, wp_bind, wp_kernel, wp_currentTask, current, wp_innerOf, found₁, run, wp_lift_ok, wp_putInner, wp_pure]
    have found₂ : (k.setTask initproc { task with fdTable, security := { task.security with quota } }).tasks initproc =
        some { task with fdTable, security := { task.security with quota } } := Kernel.setTask_same _ _ _
    exact finishSyscall_quiet current found₂ ⟨formed.actions, formed.handling⟩ ⟨quiet.signals, quiet.running⟩ fun mem' =>
      ⟨current, same, _, found₂, quiet.signals, quiet.running⟩
  obtain ⟨current, same, task⟩ := wp_ok spec stepped
  exact ⟨runs.reachable.step _ stepped, current, same, task⟩

theorem FirstRuns.dups {count fd : Nat} (runs : FirstRuns s disk) (word : fd < 2 ^ 64)
    (ran : runEvents (List.replicate count (ecall 24 fd 0 0)) s = .ok ((), s')) : FirstRuns s' disk := by
  induction count generalizing s with
  | zero =>
    obtain ⟨_, rfl⟩ := Prod.mk.inj (Except.ok.inj ran)
    exact runs
  | succ count ih =>
    obtain ⟨⟨_, s₁⟩, stepped, later⟩ := bind_ok ran
    exact ih (runs.dup word stepped) later

/-- A fresh process at the head of an empty queue. -/
theorem startProgram_spec {v : List UInt8} : wp (startProgram P v) (fun _ k => k.disk = P.disk ∧ k.current = none ∧ k.readyQueue = [initproc] ∧
    ∃ task, k.tasks initproc = some task ∧ task.resume = .user ∧ task.Quiet) (fun _ => True) (.blank P) := by
  unfold startProgram
  apply wp_bind.mpr
  refine wp_mm (fun kernelSpace mm₁ made => ?_) fun _ => trivial
  apply wp_bind.mpr
  rw [wp_modify]
  apply wp_bind.mpr
  refine taskNew_wp (newKernel_isolated made) rfl rfl v (fun memorySet kernelSpace trapCxPpn m _ => ?_) fun _ => trivial
  refine addTask_rule rfl ?_
  exact ⟨rfl, rfl, rfl, _, rfl, rfl, rfl, rfl⟩

theorem resumed_task {k : Kernel P} {id : Nat} {rest : List Nat} {task : TaskControlBlock} :
    (k.resumed id rest task).tasks id = some { task with taskStatus := .running, resume := .user } :=
  Kernel.set_same k.tasks id _

/-- The scheduler starts the first process. -/
theorem firstRuns_of_boot {k : Kernel P} {v : List UInt8} {now : Nat} {input : List Nat} (booted : boot P = .ok ⟨k, .new⟩)
    (started : startProgram P v (.blank P) = .ok ((), k)) (stepped : step (.schedule now input) ⟨k, .new⟩ = .ok ((), s)) :
    FirstRuns s P.disk := by
  obtain ⟨disk, idle, queue, task, found, resume, quiet⟩ := wp_ok startProgram_spec started
  have reachable : Reachable (⟨k, .new⟩ : System P) := .boot booted
  have spec : wp (step (.schedule now input)) (fun _ s' => s'.kernel.current = some initproc ∧ s'.kernel.disk = P.disk ∧
      ∃ task, s'.kernel.tasks initproc = some task ∧ task.Quiet) (fun _ => True) ⟨k, .new⟩ := by
    unfold step
    rw [wp_bind, wp_kernel, wp_read, idle]
    dsimp only
    rw [wp_bind, wp_kernel, setEnvironment, wp_modify, wp_bind, wp_kernel]
    have sound : Sound { k with now, consoleInput := input } := (Act.environment now input).sound reachable.sound
    refine runNext_rule sound (fun none => ?_) fun id rest task' next looked => ?_
    · cases queue.symm.trans none
    · obtain ⟨rfl, rfl⟩ := List.cons.inj (queue.symm.trans next)
      obtain rfl := Option.some.inj (found.symm.trans looked)
      rw [resume]
      exact ⟨rfl, disk, _, resumed_task, quiet.signals, quiet.running⟩
  obtain ⟨current, same, task⟩ := wp_ok spec stepped
  exact ⟨reachable.step _ stepped, current, same, task⟩

/-- A run from the boot, with the program of the first process at hand. -/
theorem program_reaches {v : List UInt8} {events : List Event} {check : System P → Bool}
    (starts : startKernel P (.blank P) = startProgram P v (.blank P))
    (ran : ((startProgram P v (.blank P)).toOption.any fun r => (runEvents events ⟨r.2, .new⟩).toOption.any fun r => check r.2) = true) :
    ∃ s, Reachable s ∧ check s = true := by
  simp only [Option.any_eq_true, toOption_eq_some] at ran
  obtain ⟨⟨_, k⟩, started, ⟨_, s⟩, ran, checked⟩ := ran
  exact ⟨s, runEvents_reachable (.boot (boot_ok (starts.trans started))) ran, checked⟩

/-- The first process duplicates its first descriptor until its table is full; its memory holds the path at `path`. -/
def fillsTable (P : Platform) (v : List UInt8) (count path : Nat) (name : Utf8) : Bool :=
  (startProgram P v (.blank P)).toOption.any fun r =>
    (runEvents (.schedule 0 [] :: List.replicate count (ecall 24 0 0 0)) ⟨r.2, .new⟩).toOption.any fun r =>
      (r.2.kernel.tasks initproc).any fun task =>
        decide (task.security.quota.openFiles = maxOpenFiles) &&
          decide (tryTranslatedStr r.2.kernel.mm.mem task.getUserToken path maxStrLen = .ok (some name))

/-- The table of the running process is full, and the disk is the one the machine was booted from. -/
structure FullTable (s : System P) (task : TaskControlBlock) (path : Nat) (name : Utf8) : Prop where
  reachable : Reachable s
  current : s.kernel.current = some initproc
  found : s.kernel.tasks initproc = some task
  full : task.security.quota.openFiles = maxOpenFiles
  name : tryTranslatedStr s.kernel.mm.mem task.getUserToken path maxStrLen = .ok (some name)
  disk : s.kernel.disk = P.disk

theorem fullTable_reached {v : List UInt8} {count path : Nat} {name : Utf8}
    (starts : startKernel P (.blank P) = startProgram P v (.blank P)) (fills : fillsTable P v count path name = true) :
    ∃ s task, FullTable (P := P) s task path name := by
  simp only [fillsTable, Option.any_eq_true, toOption_eq_some, Bool.and_eq_true, decide_eq_true_eq] at fills
  obtain ⟨⟨_, k⟩, started, ⟨_, s⟩, ran, task, found, full, name⟩ := fills
  obtain ⟨⟨_, s₁⟩, stepped, later⟩ := bind_ok ran
  have last := (firstRuns_of_boot (boot_ok (starts.trans started)) started stepped).dups (by decide) later
  exact ⟨s, task, last.reachable, last.current, found, full, name, last.disk⟩

end

/-! ### The sample machine with a disk -/

/-- `initproc` becomes the only file of a new disk. -/
def installInitproc : FsM Nat := do
  let fs ← EasyFileSystem.create packedDisk.total packedDisk.ib
  let _ ← (packedDisk.place 0).create fs initprocName
  (packedDisk.place 1).writeAt fs 0 sampleImage

def diskAfter {α : Type} (program : FsM α) (disk : Memory) : Memory :=
  match program disk with
  | .ok (_, after) => after
  | .error _ => disk

def sampleDisk : Memory := diskAfter installInitproc fun _ => 0

theorem diskAfter_ok {α : Type} {program : FsM α} {a : α} {disk after : Memory} (run : program disk = .ok (a, after)) :
    diskAfter program disk = after := by
  rw [diskAfter, run]

abbrev diskMachine : Platform := onEasyFs packedDisk sample sampleDisk

theorem sampleDisk_holds : Holds packedDisk [(initprocName, sampleImage)] sampleDisk := by
  obtain ⟨mem, created, formatted⟩ := create_returns packedDisk.small packedDisk.sized packedDisk.inodes fun _ => 0
  obtain ⟨mem₁, made, empty⟩ := (Holds.formatted formatted).create_new List.not_mem_nil (show ValidName initprocName by decide)
    (by decide) (by decide) (by decide)
  obtain ⟨disk, wrote, holds⟩ := @Holds.writeAt packedDisk _ mem₁ (initprocName, []) sampleImage 0 0 empty rfl (by decide) (by decide +kernel)
    (by decide +kernel)
  have contents : overwrite [] 0 sampleImage = sampleImage := by decide +kernel
  have installed : installInitproc (fun _ => 0) = .ok (sampleImage.length, disk) := by
    unfold installInitproc
    rw [run_bind created]
    exact (run_bind made).trans wrote
  rw [contents] at holds
  rw [sampleDisk, diskAfter_ok installed]
  exact holds

theorem diskMachine_starts : startKernel diskMachine (.blank _) = startProgram diskMachine sampleImage (.blank _) := by
  unfold diskMachine
  exact @startKernel_eq packedDisk sample sampleDisk [(initprocName, sampleImage)] (initprocName, sampleImage) 0 sampleDisk_holds (by decide) rfl

theorem diskMachine_fills : fillsTable diskMachine sampleImage 29 0x10000 [1, 2, 3, 4] = true := by decide +kernel

theorem diskMachine_full : ∃ s task, FullTable (P := diskMachine) s task 0x10000 [1, 2, 3, 4] :=
  fullTable_reached diskMachine_starts diskMachine_fills

end SecureIpc.Guarantees

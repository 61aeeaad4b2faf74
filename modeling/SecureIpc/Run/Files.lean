import SecureIpc.Run.Does

/-! Files, descriptors and user memory: what these programs do to the kernel. -/

namespace SecureIpc
open Lib

section
variable {P : Platform} {k k' : Kernel P} {id : Nat} {task : TaskControlBlock}

/-! ### The file system -/

theorem onDisk_rule {α : Type} {operation : P.fs.State → Option (α × P.fs.State)} {Q : α → Kernel P → Prop} {E : Halt → Prop}
    (returns : ∀ a disk, operation k.disk = some (a, disk) → Q a { k with disk }) (stops : E .fileSystem) : wp (onDisk operation) Q E k := by
  unfold wp onDisk
  cases run : operation k.disk with
  | none => exact stops
  | some result => exact returns result.1 result.2 run

theorem clearInode_rule {inode : P.fs.Inode} {Q : Unit → Kernel P → Prop} {E : Halt → Prop}
    (returns : ∀ disk, P.fs.clear inode k.disk = some disk → Q () { k with disk }) (stops : E .fileSystem) : wp (clearInode inode) Q E k := by
  refine onDisk_rule (fun _ disk run => returns disk ?_) stops
  obtain ⟨cleared, run, same⟩ := Option.map_eq_some_iff.mp run
  rw [run, (Prod.mk.inj same).2]

/-- `open_file` goes on from state to state of the disk, and what it returns has been found there. -/
theorem openFile_onward {E : Halt → Prop} (name : Utf8) (flags : BitVec 32) (stops : E .fileSystem) :
    wp (openFile name flags) (fun r k' => ∃ disk, k' = { k with disk } ∧ Onward k.disk disk ∧
      ∀ inode, r = some inode → Found k.disk disk inode 0) E k := by
  have clears : ∀ {inode : P.fs.Inode} {disk : P.fs.State}, Onward k.disk disk → Found k.disk disk inode 0 →
      wp (do clearInode inode
             return some inode) (fun r k' => ∃ disk, k' = { k with disk } ∧ Onward k.disk disk ∧
        ∀ inode, r = some inode → Found k.disk disk inode 0) E { k with disk } := by
    intro inode disk onward found
    refine wp_bind.mpr (clearInode_rule (fun disk' run => ?_) stops)
    obtain ⟨onward', found'⟩ := onward.clear found run
    exact ⟨disk', rfl, onward', fun _ same => Option.some.inj same ▸ found'⟩
  unfold openFile
  split
  · refine wp_bind.mpr (onDisk_rule (fun r disk run => ?_) stops)
    obtain ⟨onward, found⟩ := Onward.find run
    cases r with
    | some inode => exact clears onward (found inode rfl)
    | none =>
      refine onDisk_rule (fun r disk' run => ?_) stops
      obtain ⟨onward', found'⟩ := Onward.create run
      refine ⟨disk', rfl, onward.trans onward', fun inode same inv holds => found' inode same inv (onward inv holds).1⟩
  · refine wp_bind.mpr (onDisk_rule (fun r disk run => ?_) stops)
    obtain ⟨onward, found⟩ := Onward.find run
    cases r with
    | none => exact ⟨disk, rfl, onward, nofun⟩
    | some inode =>
      dsimp only
      split
      · exact clears onward (found inode rfl)
      · exact ⟨disk, rfl, onward, found⟩

theorem readAll_onward {E : Halt → Prop} {d : P.fs.State} {inode : P.fs.Inode} {offset : Nat} (onward : Onward d k.disk)
    (found : Found d k.disk inode offset) (fuel : Nat) (v : List UInt8) (stops : E .fileSystem) :
    wp (readAll inode fuel offset v) (fun _ k' => ∃ disk, k' = { k with disk } ∧ Onward d disk) E k := by
  induction fuel generalizing k offset v with
  | zero => exact stops
  | succ fuel ih =>
    refine wp_bind.mpr (onDisk_rule (fun bytes disk run => ?_) stops)
    obtain ⟨onward', found'⟩ := onward.readAt found run
    dsimp only
    split
    · exact ⟨disk, rfl, onward'⟩
    · refine wp_mono (@ih { k with disk } _ onward' found' _) ?_ fun _ stopped => stopped
      rintro _ _ ⟨last, rfl, reached⟩
      exact ⟨last, rfl, reached⟩

theorem Onward.act {disk : P.fs.State} (onward : Onward k.disk disk) : Act k { k with disk } :=
  .files k.inodes k.nextInode disk (fun _ known => known) fun _ keeps => onward.keeps keeps

theorem wp_inodeInner {inner : Nat} {state : OSInodeInner P} {Q : OSInodeInner P → Kernel P → Prop} {E : Halt → Prop}
    (opened : k.inodes inner = some state) : wp (inodeInner inner) Q E k ↔ Q state k := by
  simp only [inodeInner, wp_bind, wp_read, opened, wp_pure]

theorem slice_within {slice : Slice} {slices : List Slice} {bytes : List UInt8} (covers : task.memorySet.Covers slices)
    (member : slice ∈ slices) (short : bytes.length ≤ slice.len) :
    k.Within task.memorySet.userFrames (k.mm.mem.store slice.base bytes) := by
  have stored : Stored k.mm { k.mm with mem := k.mm.mem.store slice.base bytes } task.memorySet.userFrames :=
    store_stored fun i inside => (covers slice member).2 _ (mem_addrs.mpr ⟨Nat.le_add_right _ i, by omega⟩)
  exact stored.outside

/-- A file has been read or written up to `offset`, on which the disk has changed. -/
theorem Act.transferred {inner offset : Nat} {state : OSInodeInner P} {disk : P.fs.State} (opened : k.inodes inner = some state)
    (onward : ∀ inv : FsInvariant P.fs, inv.disk k.disk → inv.file k.disk state.inode state.offset →
      inv.Onward k.disk disk ∧ inv.file disk state.inode offset) :
    Act k { k with disk, inodes := Kernel.set k.inodes inner (some { state with offset }) } := by
  refine .files _ k.nextInode disk (fun _ => Kernel.set_some_ne_none inner _) fun inv keeps => ?_
  obtain ⟨later, known⟩ := onward inv keeps.disk (keeps.files opened)
  exact (keeps.onward later).set known inner

theorem readInode_does (found : k.tasks id = some task) (alive : task.isZombie = false) (own : task.resume = .user)
    (inner : Nat) (slices : List Slice) (covers : task.memorySet.Covers slices) (total : Nat) (known : k.inodes inner ≠ none) :
    Does (readInode inner slices total) (fun _ k' => k'.current = k.current) k := by
  induction slices generalizing k total with
  | nil => exact Does.pure rfl
  | cons slice rest ih =>
    obtain ⟨state, opened⟩ := Option.ne_none_iff_exists'.mp known
    unfold Does
    rw [readInode, wp_bind, wp_inodeInner opened, wp_bind]
    refine onDisk_rule (fun bytes disk run => ?_) rfl
    have read : ∀ inv : FsInvariant P.fs, inv.disk k.disk → inv.file k.disk state.inode state.offset →
        inv.Onward k.disk disk ∧ inv.file disk state.inode (state.offset + (bytes.take slice.len).length) :=
      fun inv holds file => inv.readAt holds file run
    have short := List.length_take_le slice.len bytes
    generalize bytes.take slice.len = bytes at read short
    simp only [wp_bind, wp_modify, wp_ite, wp_pure]
    split
    · have moved : Act k { k with disk } :=
        .files k.inodes k.nextInode disk (fun _ known => known) fun inv keeps => keeps.onward (read inv keeps.disk (keeps.files opened)).1
      have found₁ : Kernel.tasks { k with disk } id = some task := found
      have within : Kernel.Within { k with disk } task.memorySet.userFrames (k.mm.mem.store slice.base bytes) :=
        slice_within covers List.mem_cons_self short
      exact ⟨moved.one.tail (.userWrite found₁ alive own within), rfl⟩
    · let k₁ : Kernel P :=
        { k with disk, inodes := Kernel.set k.inodes inner (some { state with offset := state.offset + bytes.length }) }
      have moved : Act k k₁ := .transferred opened read
      have found₁ : k₁.tasks id = some task := found
      have within : k₁.Within task.memorySet.userFrames (k.mm.mem.store slice.base bytes) := slice_within covers List.mem_cons_self short
      have acts := moved.one.tail (.userWrite found₁ alive own within)
      have found₂ : (k₁.setMem (k.mm.mem.store slice.base bytes)).tasks id = some task := found
      have later : task.memorySet.Covers rest := fun one member => covers one (List.mem_cons_of_mem _ member)
      have goesOn := ih found₂ later (total + bytes.length) (Kernel.set_some_same _ _ _)
      simp only [setInodeOffset, wp_modify]
      exact wp_mono goesOn (fun _ _ both => ⟨acts.trans both.1, both.2⟩) fun _ expected => expected

theorem writeInode_does (inner : Nat) (slices : List Slice) (total : Nat) (known : k.inodes inner ≠ none) :
    Does (writeInode inner slices total) (fun _ k' => k'.current = k.current) k := by
  induction slices generalizing k total with
  | nil => exact Does.pure rfl
  | cons slice rest ih =>
    obtain ⟨state, opened⟩ := Option.ne_none_iff_exists'.mp known
    unfold Does
    rw [writeInode, wp_bind, wp_inodeInner opened, wp_bind, wp_userMemory, wp_bind]
    refine onDisk_rule (fun written disk run => ?_) rfl
    have length : (k.mm.mem.load slice.base slice.len).length = slice.len := Memory.load_length _ _ _
    simp only [wp_ite]
    split
    · exact rfl
    · rename_i whole
      obtain rfl : written = slice.len := not_not.mp whole
      have wrote : ∀ inv : FsInvariant P.fs, inv.disk k.disk → inv.file k.disk state.inode state.offset →
          inv.Onward k.disk disk ∧ inv.file disk state.inode (state.offset + slice.len) := by
        intro inv holds file
        have all : P.fs.writeAt state.inode state.offset (k.mm.mem.load slice.base slice.len) k.disk =
            some ((k.mm.mem.load slice.base slice.len).length, disk) := by
          rw [length]
          exact run
        rw [← length]
        exact inv.writeAt holds file all
      let k₁ : Kernel P :=
        { k with disk, inodes := Kernel.set k.inodes inner (some { state with offset := state.offset + slice.len }) }
      have moved : Act k k₁ := .transferred opened wrote
      have goesOn : Does (writeInode inner rest (total + slice.len)) (fun _ k' => k'.current = k₁.current) k₁ :=
        ih _ (Kernel.set_some_same _ _ _)
      simp only [wp_bind, setInodeOffset, wp_modify]
      exact wp_mono goesOn (fun _ _ both => ⟨moved.one.trans both.1, both.2⟩) fun _ expected => expected

/-! ### Suspending -/

theorem suspend_does (current : k.current = some id) (found : k.tasks id = some task) (point : KernelPoint)
    (known : k.KnownPoint point) (inside : task.memorySet.HoldsPoint point) (flight : Flight k id point) :
    Does (suspendCurrentAndRunNext point) (fun _ _ => True) k := by
  simp only [Does, suspendCurrentAndRunNext, takeCurrentTask, addTask, wp_bind, wp_currentTask, current, wp_modify,
    wp_pure, wp_innerOf, found, wp_putInner, Kernel.setTask_same]
  exact ⟨(Act.suspend point current found known inside flight).one, trivial⟩

/-! ### Standard input -/

theorem stdinLoop_does (current : k.current = some id) (found : k.tasks id = some task) (alive : task.isZombie = false)
    (own : task.resume = .user) (buf : UserBuffer) (covers : task.memorySet.Covers buf.buffers)
    (flight : Flight k id (.stdinRead buf)) :
    Does (stdinLoop buf) (fun r k' => r ≠ none → k'.current = some id) k := by
  have typed : Does consoleGetchar (fun _ k' => k'.current = some id ∧ k'.tasks = k.tasks ∧
      Flight k' id (.stdinRead buf)) k := by
    simp only [Does, consoleGetchar, wp_bind, wp_read]
    cases k.consoleInput with
    | nil => exact ⟨.refl, current, rfl, flight⟩
    | cons c rest => exact ⟨(Act.environment k.now rest).one, current, rfl, flight⟩
  apply typed.bind
  intro c k₁ acts both
  obtain ⟨current, tasks, flight⟩ := both
  have found₁ : k₁.tasks id = some task := by
    rw [tasks]
    exact found
  split
  · apply (suspend_does current found₁ (.stdinRead buf) trivial covers flight).bind
    intro _ k₂ _ _
    exact Does.pure fun some => absurd rfl some
  · cases slices : buf.buffers with
    | nil => exact rfl
    | cons slice rest =>
      have member : slice ∈ buf.buffers := by
        rw [slices]
        exact List.mem_cons_self
      have within : k₁.Within task.memorySet.userFrames (k₁.mm.mem.store slice.base [UInt8.ofNat c]) :=
        slice_within covers member (covers slice member).1
      exact ⟨(Act.userWrite found₁ alive own within).one, fun _ => current⟩

theorem readPlain_does (current : k.current = some id) (found : k.tasks id = some task) (alive : task.isZombie = false)
    (own : task.resume = .user) {file : File} (known : k.Known file) (buf : UserBuffer)
    (covers : task.memorySet.Covers buf.buffers)
    (opened : file = .stdin → ∃ entry, openCall id k.trace = some (entry, []) ∧ entry.audited = none) :
    Does (file.readPlain buf) (fun r k' => r ≠ none → k'.current = some id) k := by
  cases file with
  | stdin =>
    unfold File.readPlain stdinRead
    dsimp only
    split
    · exact rfl
    · rename_i single
      exact stdinLoop_does current found alive own buf covers ⟨not_not.mp single, opened rfl⟩
  | inode _ _ inner =>
    apply (readInode_does found alive own inner buf.buffers covers 0 known).bind
    intro count k₁ _ same
    exact Does.pure fun _ => same.trans current
  | stdout | pipe => exact rfl

theorem writePlain_does (current : k.current = some id) {file : File} (known : k.Known file) (buf : UserBuffer) :
    Does (file.writePlain buf) (fun _ k' => k'.current = some id) k := by
  cases file with
  | stdout =>
    simp only [File.writePlain, Does, stdoutWrite, wp_bind, wp_userMemory, wp_ite]
    split
    · exact ⟨.refl, current⟩
    · exact rfl
  | inode _ _ inner =>
    apply (writeInode_does inner buf.buffers 0 known).bind
    intro count k₁ _ same
    exact Does.pure (same.trans current)
  | stdin | pipe => exact rfl

/-! ### Descriptors -/

theorem OpenFrom.known {before after : List (Option File)} {new : Option File} (origin : OpenFrom before after new)
    (known : ∀ file, new = some file → k.Known file) (old : k.KnownFiles before) : k.KnownFiles after := by
  intro fd file looked
  rcases origin fd file looked with ⟨_, before⟩ | fresh
  · exact old before
  · exact known file fresh

theorem sysOpen_does (sound : Sound k) (current : k.current = some id) (path flags : Nat) :
    Does (sysOpen path flags) (fun _ k' => k'.current = some id) k := by
  obtain ⟨task, found, alive⟩ := sound.running current
  simp only [Does, sysOpen, wp_bind, wp_currentTask, current, wp_currentUserToken current found, wp_userMemory]
  refine wp_fault (fun name _ => ?_) fun _ => rfl
  cases name with
  | none => exact ⟨.refl, current⟩
  | some name =>
    cases OpenFlags.fromBits (BitVec.ofNat 32 flags) with
    | none => exact ⟨.refl, current⟩
    | some openFlags =>
      refine wp_bind.mpr (wp_mono (openFile_onward (E := fun halt => halt.expected) name openFlags rfl) ?_ fun _ expected => expected)
      rintro inode _ ⟨disk, rfl, onward, fresh⟩
      cases inode with
      | none => exact ⟨onward.act.one, current⟩
      | some inode =>
        have plain : (File.inode (OpenFlags.readWrite openFlags).1 (OpenFlags.readWrite openFlags).2
          k.nextInode).isPipe = false := rfl
        obtain ⟨fdTable, quota, ret, run, after, origin⟩ := openFd_spec ((sound.task found).accounted alive) plain
        simp only [newInode, wp_bind, wp_read, wp_modify, wp_pure, wp_innerOf, found, run, fault, Except.mapError,
          wp_lift_ok, wp_putInner]
        let k₁ : Kernel P :=
          { k with disk, inodes := Kernel.set k.inodes k.nextInode (some ⟨0, inode⟩), nextInode := k.nextInode + 1 }
        have current₁ : k₁.current = some id := current
        have found₁ : k₁.tasks id = some task := found
        have known : k₁.KnownFiles task.fdTable → k₁.KnownFiles fdTable := by
          apply origin.known
          intro file new
          obtain rfl := Option.some.inj new
          exact Kernel.set_some_same _ _ _
        have opened : Act k₁ _ := .descriptors current₁ found₁ fdTable quota (fun _ => after) known
        have added : Act k k₁ := .files _ _ _ (fun _ => Kernel.set_some_ne_none k.nextInode _)
          fun inv keeps => (fresh inode rfl).opens onward keeps k.nextInode
        exact ⟨added.one.tail opened, current⟩

theorem sysClose_does (sound : Sound k) (current : k.current = some id) (fd : Nat) :
    Does (sysClose fd) (fun _ k' => k'.current = some id) k := by
  obtain ⟨task, found, alive⟩ := sound.running current
  obtain ⟨fdTable, quota, ret, run, after, origin⟩ := closeFd_spec ((sound.task found).accounted alive) fd
  simp only [Does, sysClose, wp_bind, wp_currentTask, current, wp_innerOf, found, run, wp_lift_ok, wp_putInner, wp_pure]
  exact ⟨(Act.descriptors current found fdTable quota (fun _ => after) (origin.known (by simp))).one, current⟩

theorem sysDup_does (sound : Sound k) (current : k.current = some id) (fd : Nat) :
    Does (sysDup fd) (fun _ k' => k'.current = some id) k := by
  obtain ⟨task, found, alive⟩ := sound.running current
  obtain ⟨fdTable, quota, ret, run, after, origin⟩ := dupFd_spec ((sound.task found).accounted alive) fd
  simp only [Does, sysDup, wp_bind, wp_currentTask, current, wp_innerOf, found, run, wp_lift_ok, wp_putInner, wp_pure]
  exact ⟨(Act.descriptors current found fdTable quota (fun _ => after) (origin.known (by simp))).one, current⟩

end

end SecureIpc

import Mathlib.Algebra.Order.BigOperators.Group.List
import Mathlib.Algebra.Order.Group.Nat
import SecureIpc.Guarantees.DiskBoot
import SecureIpc.Guarantees.DiskInvariant

/-!
`File::read` and `File::write` on buffers that the system calls have validated. Pipes and `OSInode`s serve every buffer; `Stdin` stops
the kernel unless it is asked for one byte, and `Stdout` unless every segment is UTF-8.
-/

namespace SecureIpc.Guarantees
open Lib EasyFs

section
variable {P : Platform}

/-- A read or a write that was suspended goes on. -/
def resumeFile (point : KernelPoint) : KernelM P (Option Nat) :=
  match point with
  | .pipeRead call => pipeReadLoop pipeLoopBound call
  | .pipeWrite call => pipeWriteLoop pipeLoopBound call
  | .stdinRead buf => stdinLoop buf
  | _ => return none

/-- The program does not stop the kernel. -/
abbrev Safe {α : Type} (p : KernelM P α) (k : Kernel P) : Prop := wp p (fun _ _ => True) (fun _ => False) k

theorem Safe.map {α β : Type} {p : KernelM P α} {k : Kernel P} (safe : Safe p k) (f : α → β) : Safe (do return f (← p)) k :=
  wp_bind.mpr (wp_mono safe (fun _ _ _ => trivial) fun _ impossible => impossible)

theorem Safe.returns {α : Type} {p : KernelM P α} {k : Kernel P} (safe : Safe p k) : ∃ r k', p k = .ok (r, k') := by
  obtain ⟨r, k', run, _⟩ := wp_returns safe
  exact ⟨r, k', run⟩

end

section
variable {P : Platform} {k k' : Kernel P} {id : Nat} {task : TaskControlBlock} {ring : PipeRingBuffer} {call : PipeCall} {pipe : ResourceId}

/-! ### Pipes -/

structure HasRing (k : Kernel P) (pipe : ResourceId) (ring : PipeRingBuffer) : Prop where
  known : k.pipes pipe = some ring
  formed : ring.WellFormed
  writeEnd : ring.writeEnd = some pipe

theorem suspend_safe (current : k.current = some id) (found : k.tasks id = some task) (point : KernelPoint) :
    Safe (suspendCurrentAndRunNext point) k := by
  simp only [suspendCurrentAndRunNext, takeCurrentTask, addTask, wp_bind, wp_currentTask, current, wp_modify, wp_pure, wp_innerOf, found,
    wp_putInner, Kernel.setTask_same]

theorem takeByte_returns (has : HasRing k pipe ring) (data : ring.availableRead ≠ 0) (ref : Nat) :
    wp (takeByte pipe ref) (fun _ k' => PassFrame pipe k k' ∧ ∃ after, HasRing k' pipe after ∧ after.availableRead + 1 = ring.availableRead)
      (fun _ => False) k := by
  obtain ⟨byte, after, run, formed, writeEnd, _, count⟩ := has.formed.readByte data
  simp only [takeByte, wp_bind, wp_pipeBuffer has.known, run, fault, Except.mapError, wp_lift_ok, wp_modify]
  exact ⟨⟨rfl, rfl, fun other different => Kernel.set_other different⟩, after,
    ⟨Kernel.set_same _ _ _, formed, writeEnd.trans has.writeEnd⟩, count⟩

theorem storeByte_returns (has : HasRing k pipe ring) (room : ring.availableWrite ≠ 0) (ref : Nat) :
    wp (storeByte pipe ref) (fun _ k' => PassFrame pipe k k' ∧ ∃ after, HasRing k' pipe after ∧ after.availableWrite + 1 = ring.availableWrite)
      (fun _ => False) k := by
  obtain ⟨after, run, formed, writeEnd, _, count⟩ := has.formed.writeByte room (k.mm.mem ref)
  simp only [storeByte, wp_bind, wp_pipeBuffer has.known, wp_userMemory, run, fault, Except.mapError, wp_lift_ok, wp_modify]
  exact ⟨⟨rfl, rfl, fun other different => Kernel.set_other different⟩, after,
    ⟨Kernel.set_same _ _ _, formed, writeEnd.trans has.writeEnd⟩, count⟩

/-- A pass never stops the kernel, and leaves nothing available to a call that goes on. -/
theorem transferPass_returns {transfer : ResourceId → Nat → KernelM P Unit} {available : PipeRingBuffer → Nat}
    (one : ∀ {k : Kernel P} {ring : PipeRingBuffer}, HasRing k pipe ring → available ring ≠ 0 → ∀ ref,
      wp (transfer pipe ref) (fun _ k' => PassFrame pipe k k' ∧ ∃ after, HasRing k' pipe after ∧ available after + 1 = available ring)
        (fun _ => False) k)
    (object : call.object.id = pipe) (has : HasRing k pipe ring) (walks : call.Walks) (less : call.done < call.want) :
    wp (transferPass transfer (available ring) call) (fun r k' => PassFrame pipe k k' ∧ (r.2 = false →
      r.1.object.id = pipe ∧ r.1.Walks ∧ r.1.done < r.1.want ∧ ∃ after, HasRing k' pipe after ∧ available after = 0))
      (fun _ => False) k := by
  induction count : available ring generalizing k call ring with
  | zero => exact ⟨.refl _ _, fun _ => ⟨object, walks, less, ring, has, count⟩⟩
  | succ rest ih =>
    obtain ⟨ref, iter, moved, _, placed, buffers, remaining⟩ := walks.next less
    have addrs : PipeCall.addrs { call with iter, done := call.done + 1 } = call.addrs := by
      unfold PipeCall.addrs
      rw [buffers]
    have stepped : (fault call.iter.next : KernelM P _) k = .ok ((some ref, iter), k) := by
      rw [moved]
      rfl
    unfold transferPass
    refine wp_bind.mpr (wp_of_run stepped (wp_bind.mpr ?_))
    rw [object]
    refine wp_mono (one has (by omega) ref) ?_ fun _ impossible => impossible
    rintro _ k₁ ⟨frame, after, has₁, count₁⟩
    dsimp only
    split
    · refine ⟨frame, fun unfinished => ?_⟩
      cases unfinished
    · rename_i unfinished
      have walks₁ : PipeCall.Walks { call with iter, done := call.done + 1 } :=
        ⟨placed, addrs ▸ remaining, addrs ▸ walks.want⟩
      have more : call.done + 1 < call.want := by omega
      have goesOn := @ih k₁ after { call with iter, done := call.done + 1 } object has₁ walks₁ more (by omega)
      refine wp_mono goesOn ?_ fun _ impossible => impossible
      rintro r k₂ ⟨later, last⟩
      exact ⟨frame.trans later, last⟩

theorem pipeReadLoop_waits (current : k.current = some id) (found : k.tasks id = some task) (has : HasRing k call.object.id ring)
    (empty : ring.availableRead = 0) (fuel : Nat) : Safe (pipeReadLoop (fuel + 1) call) k := by
  simp only [pipeReadLoop, wp_bind, wp_pipeBuffer has.known, empty, if_true, allWriteEndsClosed_wp has.writeEnd]
  split
  · trivial
  · exact (suspend_safe current found _).map _

theorem pipeReadLoop_safe (current : k.current = some id) (found : k.tasks id = some task) (has : HasRing k call.object.id ring)
    (walks : call.Walks) (less : call.done < call.want) : Safe (pipeReadLoop pipeLoopBound call) k := by
  by_cases empty : ring.availableRead = 0
  · exact pipeReadLoop_waits current found has empty 1
  · apply wp_bind.mpr
    rw [wp_pipeBuffer has.known, if_neg empty]
    refine wp_bind.mpr (wp_mono (transferPass_returns takeByte_returns rfl has walks less) ?_ fun _ impossible => impossible)
    rintro ⟨call', returned⟩ k₁ ⟨frame, unfinished⟩
    cases returned with
    | true => trivial
    | false =>
      obtain ⟨object, _, _, after, has₁, used⟩ := unfinished rfl
      exact pipeReadLoop_waits (frame.1.trans current) ((congrFun frame.2.1 id).trans found) (object ▸ has₁) used 0

theorem pipeWriteLoop_waits (current : k.current = some id) (found : k.tasks id = some task) (has : HasRing k call.object.id ring)
    (full : ring.availableWrite = 0) (fuel : Nat) : Safe (pipeWriteLoop (fuel + 1) call) k := by
  apply wp_bind.mpr
  rw [wp_pipeBuffer has.known, if_pos full]
  exact (suspend_safe current found _).map _

theorem pipeWriteLoop_safe (current : k.current = some id) (found : k.tasks id = some task) (has : HasRing k call.object.id ring)
    (walks : call.Walks) (less : call.done < call.want) : Safe (pipeWriteLoop pipeLoopBound call) k := by
  by_cases full : ring.availableWrite = 0
  · exact pipeWriteLoop_waits current found has full 1
  · apply wp_bind.mpr
    rw [wp_pipeBuffer has.known, if_neg full]
    refine wp_bind.mpr (wp_mono (transferPass_returns storeByte_returns rfl has walks less) ?_ fun _ impossible => impossible)
    rintro ⟨call', returned⟩ k₁ ⟨frame, unfinished⟩
    cases returned with
    | true => trivial
    | false =>
      obtain ⟨object, _, _, after, has₁, used⟩ := unfinished rfl
      exact pipeWriteLoop_waits (frame.1.trans current) ((congrFun frame.2.1 id).trans found) (object ▸ has₁) used 0

/-! ### Standard input -/

theorem stdinLoop_safe (current : k.current = some id) (found : k.tasks id = some task) {buf : UserBuffer} (single : buf.len = 1) :
    Safe (stdinLoop buf) k := by
  have typed : wp consoleGetchar (fun _ k' => k'.current = some id ∧ k'.tasks id = some task) (fun _ => False) k := by
    simp only [consoleGetchar, wp_bind, wp_read]
    cases k.consoleInput with
    | nil => exact ⟨current, found⟩
    | cons c rest => exact ⟨current, found⟩
  refine wp_bind.mpr (wp_mono typed ?_ fun _ impossible => impossible)
  rintro c k₁ ⟨current₁, found₁⟩
  split
  · exact (suspend_safe current₁ found₁ _).map _
  · obtain ⟨buffers⟩ := buf
    cases buffers with
    | nil => cases single
    | cons slice rest => trivial

end

/-! ### Files on the disk -/

section
variable {geo : Geometry} {base : Platform} {start : Memory} {s : System (onEasyFs geo base start)} {k : Kernel (onEasyFs geo base start)}
  {listing : Listing} {file : DirEntry × List UInt8} {segments : List Slice} {inner i total : Nat}
  {state : OSInodeInner (onEasyFs geo base start)}

theorem readInode_safe (opened : k.inodes inner = some state)
    (known : ∃ listing i file, FileAt geo k.disk state.inode state.offset listing i file) (short : ∀ segment ∈ segments, segment.len ≤ 2 ^ 38) :
    Safe (readInode inner segments total) k := by
  induction segments generalizing k total state with
  | nil => trivial
  | cons segment rest ih =>
    obtain ⟨first, others⟩ := List.forall_mem_cons.mp short
    obtain ⟨listing, i, file, at'⟩ := known
    have place := at'.place
    have low := at'.low
    have fits : state.offset + segment.len < 2 ^ 64 := by
      unfold maxBlocks at low
      omega
    obtain ⟨bytes, disk, run, _⟩ :=
      wp_returns_of (@Listed.readAt geo listing file k.disk i state.offset segment.len at'.listed at'.found) fun _ fails => fails fits
    have read : (onEasyFs geo base start).fs.readAt state.inode state.offset segment.len k.disk = some (bytes, disk) := by
      rw [place]
      exact congrArg Except.toOption run
    have later := ((diskInvariant geo base start).readAt ⟨listing, at'.listed⟩ ⟨listing, i, file, at'⟩ read).2
    rw [Safe, readInode, wp_bind, wp_inodeInner opened, wp_bind, wp_onDisk read]
    simp only [wp_bind, wp_modify, wp_ite, wp_pure]
    split
    · trivial
    · simp only [setInodeOffset, wp_modify]
      exact ih (Kernel.set_same _ _ _) later others

/-- A write of `len` bytes stays within the largest size of a file, and finds the blocks it needs. -/
def WriteFits (geo : Geometry) (disk : Memory) (inode : Inode) (offset len : Nat) : Prop :=
  ∃ listing i file, FileAt geo disk inode offset listing i file ∧ offset + len ≤ maxBlocks * 512 ∧ listing.Fits geo file.2.length (offset + len)

theorem writeInode_safe (opened : k.inodes inner = some state) (fits : WriteFits geo k.disk state.inode state.offset (segmentsLen segments))
    (nonempty : ∀ segment ∈ segments, 0 < segment.len) : Safe (writeInode inner segments total) k := by
  induction segments generalizing k total state with
  | nil => trivial
  | cons segment rest ih =>
    obtain ⟨first, others⟩ := List.forall_mem_cons.mp nonempty
    obtain ⟨listing, i, file, ⟨listed, found, place, low⟩, limit, room⟩ := fits
    have sum : segmentsLen (segment :: rest) = segment.len + segmentsLen rest := by simp [segmentsLen]
    rw [sum] at limit room
    generalize buf : Memory.load k.mm.mem segment.base segment.len = bytes
    have length : bytes.length = segment.len := buf ▸ Memory.load_length _ _ _
    have some : bytes ≠ [] := by
      rintro rfl
      rw [← length] at first
      exact absurd first (Nat.lt_irrefl 0)
    have whole : (state.offset + bytes.length) % 2 ^ 32 = state.offset + bytes.length := by
      unfold maxBlocks at limit
      omega
    obtain ⟨written, disk, run, contents, after, size, amount⟩ :=
      wp_returns_of (@Listed.writeAt geo listing file k.disk i state.offset bytes listed found) fun _ fails =>
        fails ⟨some, by omega, room.part (by omega)⟩
    rw [whole] at size
    obtain rfl : written = segment.len := by omega
    have wrote : (onEasyFs geo base start).fs.writeAt state.inode state.offset bytes k.disk = Option.some (segment.len, disk) := by
      rw [place]
      exact congrArg Except.toOption run
    rw [Safe, writeInode, wp_bind, wp_inodeInner opened, wp_bind, wp_userMemory, wp_bind, buf, wp_onDisk wrote, if_neg (by simp)]
    simp only [setInodeOffset, wp_bind, wp_modify]
    have found' : (listing.set i (file.1, contents))[i]? = Option.some (file.1, contents) :=
      List.getElem?_set_self (List.getElem?_eq_some_iff.mp found).1
    have low' : state.offset + segment.len ≤ maxBlocks * 512 := by omega
    refine ih (Kernel.set_same _ _ _) ⟨_, i, _, ⟨after, found', place, low'⟩, ?_, ?_⟩ others
    · show state.offset + segment.len + segmentsLen rest ≤ _
      omega
    · show Listing.Fits geo _ contents.length (state.offset + segment.len + segmentsLen rest)
      rw [Nat.add_assoc]
      exact room.rest found size (by omega)

end

/-! ### All files -/

/-- The running task has a descriptor of the file. -/
structure Uses {P : Platform} (k : Kernel P) (task : TaskControlBlock) (file : File) : Prop where
  running : ∃ id, k.current = some id ∧ k.tasks id = some task
  opened : ∃ fd, task.file fd = some file

section
variable {P : Platform} {k : Kernel P} {id ptr len : Nat} {task : TaskControlBlock} {access : Bool} {buffers : List Slice} {endpoint : Pipe}

/-- What the validation of a buffer with bytes in it has established. -/
structure Validated (buffers : List Slice) (len : Nat) : Prop where
  nonempty : ∀ segment ∈ buffers, 0 < segment.len
  total : (UserBuffer.mk buffers).len = len
  low : len ≤ 2 ^ 38

theorem validated (sound : Sound k) (current : k.current = some id) (found : k.tasks id = some task) (positive : 0 < len)
    (translated : tryTranslatedByteBuffer k.mm.mem task.getUserToken ptr len access = .ok (some buffers)) : Validated buffers len := by
  have user := sound.user found (sound.table.current_live current (table_place found))
  obtain ⟨low, total, _⟩ := user.buffer (Nat.ne_of_gt positive) translated
  exact ⟨fun segment member => (user.covers translated segment member).1, (UserBuffer.len_eq_addrs ⟨buffers⟩).trans total, low⟩

theorem Validated.short (valid : Validated buffers len) : ∀ segment ∈ buffers, segment.len ≤ 2 ^ 38 := by
  intro segment member
  have part : segment.len ≤ (buffers.map Slice.len).sum :=
    List.single_le_sum (fun _ _ => Nat.zero_le _) _ (List.mem_map_of_mem member)
  have total : (buffers.map Slice.len).sum = len := valid.total
  have low := valid.low
  omega

theorem Validated.walks (valid : Validated buffers len) (permit : IpcPermit) : (PipeCall.start endpoint ⟨buffers⟩ permit).Walks :=
  ⟨UserBuffer.intoIter_placed valid.nonempty, UserBuffer.intoIter_remaining ⟨buffers⟩, (UserBuffer.len_eq_addrs ⟨buffers⟩).symm⟩

theorem Validated.starts (valid : Validated buffers len) (positive : 0 < len) (permit : IpcPermit) :
    (PipeCall.start endpoint ⟨buffers⟩ permit).done < (PipeCall.start endpoint ⟨buffers⟩ permit).want := by
  show 0 < (UserBuffer.mk buffers).len
  rw [valid.total]
  exact positive

theorem hasRing {pipe : ResourceId} (sound : Sound k) (known : k.pipes pipe ≠ none) : ∃ ring, HasRing k pipe ring := by
  obtain ⟨ring, there⟩ := Option.ne_none_iff_exists'.mp known
  obtain ⟨formed, writeEnd⟩ := sound.pipes.rings there
  exact ⟨ring, there, formed, writeEnd⟩

end

section
variable {geo : Geometry} {base : Platform} {start : Memory} {s : System (onEasyFs geo base start)} {k : Kernel (onEasyFs geo base start)}
  {first : Listing} {task : TaskControlBlock} {file : File} {buffers : List Slice} {id ptr len : Nat}

theorem read_safe (booted : Listed geo first start) (reachable : Reachable s) (passes : Passes s k) (current : k.current = some id)
    (found : k.tasks id = some task) (known : k.Known file) (readable : file.readable = true) (valid : Validated buffers len) (positive : 0 < len)
    (single : file = .stdin → len = 1) (permit : IpcPermit) : Safe (file.read ⟨buffers⟩ permit) k := by
  cases file with
  | stdin =>
    have one : (UserBuffer.mk buffers).len = 1 := valid.total.trans (single rfl)
    unfold File.read File.readPlain stdinRead
    dsimp only
    rw [if_neg (by simp [one])]
    exact stdinLoop_safe current found one
  | stdout => cases readable
  | inode _ _ inner =>
    obtain ⟨state, opened⟩ := Option.ne_none_iff_exists'.mp known
    exact (readInode_safe opened (inode_listed reachable passes booted opened) valid.short).map some
  | pipe endpoint =>
    obtain ⟨ring, known, formed, writeEnd⟩ := hasRing (passes.sound reachable.sound) known
    unfold File.read pipeRead
    dsimp only
    rw [if_pos (show endpoint.readable = true from readable)]
    refine wp_bind.mpr ?_
    rw [beginTransfer, wp_modify]
    exact pipeReadLoop_safe current found ⟨known, formed, writeEnd⟩ (valid.walks permit) (valid.starts positive permit)

theorem write_safe (reachable : Reachable s) (passes : Passes s k) (current : k.current = some id)
    (found : k.tasks id = some task) (known : k.Known file) (writable : file.writable = true) (valid : Validated buffers len) (positive : 0 < len)
    (fits : ∀ readable writable inner state, file = .inode readable writable inner → k.inodes inner = some state →
      WriteFits geo k.disk state.inode state.offset len)
    (text : file = .stdout → ∀ segment ∈ buffers, isUtf8 (k.mm.mem.load segment.base segment.len) = true) (permit : IpcPermit) :
    Safe (file.write ⟨buffers⟩ permit) k := by
  cases file with
  | stdin => cases writable
  | stdout =>
    simp only [File.write, File.writePlain, stdoutWrite, wp_bind, wp_userMemory]
    rw [if_pos (List.all_eq_true.mpr (text rfl))]
    trivial
  | inode readable writable inner =>
    obtain ⟨state, opened⟩ := Option.ne_none_iff_exists'.mp known
    have within : WriteFits geo k.disk state.inode state.offset (segmentsLen buffers) := by
      rw [show segmentsLen buffers = len from valid.total]
      exact fits _ _ _ _ rfl opened
    exact (writeInode_safe opened within valid.nonempty).map some
  | pipe endpoint =>
    obtain ⟨ring, known, formed, writeEnd⟩ := hasRing (passes.sound reachable.sound) known
    unfold File.write pipeWrite
    dsimp only
    rw [if_pos (show endpoint.writable = true from writable)]
    refine wp_bind.mpr ?_
    rw [beginTransfer, wp_modify]
    exact pipeWriteLoop_safe current found ⟨known, formed, writeEnd⟩ (valid.walks permit) (valid.starts positive permit)

theorem resume_safe {P : Platform} {k : Kernel P} {id : Nat} {task : TaskControlBlock} {point : KernelPoint}
    (ready : ReadyAt k id task point) : Safe (resumeFile point) k := by
  cases point with
  | pipeRead call =>
    obtain ⟨ring, has⟩ := hasRing ready.sound ready.known
    exact pipeReadLoop_safe ready.current ready.found has ready.flight.1.walks ready.flight.2
  | pipeWrite call =>
    obtain ⟨ring, has⟩ := hasRing ready.sound ready.known
    exact pipeWriteLoop_safe ready.current ready.found has ready.flight.1.walks ready.flight.2
  | stdinRead buf => exact stdinLoop_safe ready.current ready.found ready.flight.1
  | user | yielded | preempted | frozen => trivial

end

/-- On a validated buffer, in a direction that the descriptor allows and within the limits of the file system, `File::read` and `File::write`
return, unless standard input is asked for more than one byte or a segment for standard output is not UTF-8. A suspended transfer goes on
without a panic. -/
theorem file_io_returns_iff (geo : Geometry) (base : Platform) (start : Memory) (first : Listing) (s : System (onEasyFs geo base start))
    (booted : Listed geo first start) (reachable : Reachable s) :
    (∀ k task file ptr len buffers permit, Passes s k → Uses k task file → file.readable = true → 0 < len →
      tryTranslatedByteBuffer k.mm.mem task.getUserToken ptr len true = .ok (some buffers) →
      ((∃ r k', file.read ⟨buffers⟩ permit k = .ok (r, k')) ↔ (file = .stdin → len = 1))) ∧
    (∀ k task file ptr len buf permit, Passes s k → Uses k task file → file.writable = true → 0 < len →
      copyBytesFromUser k.mm.mem task.getUserToken ptr len = .ok (.ok buf) →
      (∀ readable writable inner state, file = .inode readable writable inner → k.inodes inner = some state →
        WriteFits geo k.disk state.inode state.offset len) →
      ((∃ r k', file.write buf permit k = .ok (r, k')) ↔
        (file = .stdout → ∀ segment ∈ buf.buffers, isUtf8 (k.mm.mem.load segment.base segment.len) = true))) ∧
    (∀ now input point k, s.kernel.current = none → runNext { s.kernel with now, consoleInput := input } = .ok (some point, k) →
      ∃ r k', resumeFile point k = .ok (r, k')) := by
  refine ⟨?_, ?_, ?_⟩
  · rintro k task file ptr len buffers permit passes ⟨⟨id, current, found⟩, fd, opened⟩ readable positive translated
    have sound := passes.sound reachable.sound
    have valid := validated sound current found positive translated
    constructor
    · rintro ⟨r, k', run⟩ rfl
      by_contra several
      have asked : stdinRead ⟨buffers⟩ k = .ok (r, k') := run
      rw [stdinRead, valid.total, if_pos several] at asked
      cases asked
    · intro single
      exact (read_safe booted reachable passes current found ((sound.task found).files opened) readable valid positive single permit).returns
  · rintro k task file ptr len ⟨buffers⟩ permit passes ⟨⟨id, current, found⟩, fd, opened⟩ writable positive copied fits
    have sound := passes.sound reachable.sound
    have valid := validated sound current found positive (copyBytesFromUser_ok copied)
    constructor
    · rintro ⟨r, k', run⟩ rfl
      have printed : wp (File.stdout.write ⟨buffers⟩ permit)
          (fun _ _ => ∀ segment ∈ buffers, isUtf8 (k.mm.mem.load segment.base segment.len) = true) (fun _ => True) k := by
        simp only [File.write, File.writePlain, stdoutWrite, wp_bind, wp_userMemory, wp_ite]
        split
        · rename_i all
          exact List.all_eq_true.mp all
        · trivial
      exact wp_ok printed run
    · intro text
      exact (write_safe reachable passes current found ((sound.task found).files opened) writable valid positive fits text permit).returns
  · intro now input point k idle ran
    have sound : Sound { s.kernel with now, consoleInput := input } := (Act.environment now input).sound reachable.sound
    obtain ⟨_, goes⟩ := wp_ok (runNext_ready sound idle) ran
    obtain ⟨_, id, task, ready⟩ := goes point rfl
    exact (resume_safe ready).returns

/-- Standard input serves one byte. -/
theorem file_io_returns_iff_stdin : ∃ (s : System diskMachine) (task : TaskControlBlock) (buffers : List Slice), Reachable s ∧
    Uses s.kernel task .stdin ∧ tryTranslatedByteBuffer s.kernel.mm.mem task.getUserToken 0x10000 1 true = .ok (some buffers) ∧
    ∀ permit, ∃ r k', File.stdin.read ⟨buffers⟩ permit s.kernel = .ok (r, k') := by
  obtain ⟨s, reachable, checked⟩ := @program_reaches diskMachine sampleImage [.schedule 0 []] (fun s => s.kernel.current == some initproc &&
    (s.kernel.tasks initproc).any fun task => task.file 0 == some .stdin &&
      (tryTranslatedByteBuffer s.kernel.mm.mem task.getUserToken 0x10000 1 true).toOption.any Option.isSome) diskMachine_starts (by decide +kernel)
  simp only [Bool.and_eq_true, beq_iff_eq, Option.any_eq_true, toOption_eq_some, Option.isSome_iff_exists] at checked
  obtain ⟨current, task, found, opened, _, translated, buffers, rfl⟩ := checked
  have uses : Uses s.kernel task .stdin := ⟨⟨initproc, current, found⟩, 0, opened⟩
  obtain ⟨first, booted, _⟩ := sampleDisk_holds.listed
  obtain ⟨reads, _⟩ := file_io_returns_iff packedDisk sample sampleDisk first s booted reachable
  exact ⟨s, task, buffers, reachable, uses, translated, fun permit =>
    (reads s.kernel task .stdin 0x10000 1 buffers permit .self uses rfl Nat.one_pos translated).mpr fun _ => rfl⟩

/-- The first process reads two bytes from standard input, or writes the byte `0xff` to standard output. -/
theorem stdio_panics : ∃ s : System diskMachine, Reachable s ∧ step (ecall 63 0 0x10000 2) s = .error .stdinLength ∧
    step (ecall 64 1 0x10010 1) s = .error .notUtf8 := by
  obtain ⟨s, reachable, checked⟩ := @program_reaches diskMachine sampleImage [.schedule 0 [], .store 0x10010 0xff]
    (fun s => stopsWith .stdinLength (step (ecall 63 0 0x10000 2) s) && stopsWith .notUtf8 (step (ecall 64 1 0x10010 1) s)) diskMachine_starts
    (by decide +kernel)
  obtain ⟨input, output⟩ := (Bool.and_eq_true _ _).mp checked
  exact ⟨s, reachable, stopsWith_iff.mp input, stopsWith_iff.mp output⟩

end SecureIpc.Guarantees

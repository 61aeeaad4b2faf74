import SecureIpc.Run.Step

/-!
Memory isolation: frames have one owner, user pages lead to the process's own frames, and a read
into the memory of a process reaches neither other processes nor the kernel's own structures.
-/

namespace SecureIpc
open Lib

section
variable {P : Platform} {α β : Type} {k k' : Kernel P} {s : System P} {id : Nat} {task : TaskControlBlock} {frames : List Nat}

/-! ### Programs that write to given frames only -/

structure WritesOnly (frames : List Nat) (p : KernelM P α) : Prop where
  within : ∀ k, wp p (fun _ k' => k.Within frames k'.mm.mem) (fun _ => True) k

namespace WritesOnly

theorem pure (a : α) : WritesOnly (P := P) frames (Pure.pure a) := ⟨fun _ _ _ => rfl⟩

theorem bind {p : KernelM P β} {f : β → KernelM P α} (first : WritesOnly frames p) (rest : ∀ b, WritesOnly frames (f b)) :
    WritesOnly frames (p >>= f) := by
  refine ⟨fun k => wp_bind.mpr ?_⟩
  refine wp_mono (first.within k) (fun b k₁ within => ?_) fun _ _ => trivial
  refine wp_mono ((rest b).within k₁) (fun _ k₂ later => ?_) fun _ _ => trivial
  exact fun x outside => (later x outside).trans (within x outside)

theorem of_same {p : KernelM P α} (same : ∀ k, wp p (fun _ k' => k'.mm = k.mm) (fun _ => True) k) : WritesOnly frames p := by
  refine ⟨fun k => wp_mono (same k) (fun _ k' kept => ?_) fun _ _ => trivial⟩
  intro x _
  rw [kept]

theorem read (f : Kernel P → α) : WritesOnly (P := P) frames (Program.read f) := of_same fun _ => rfl

theorem throw (halt : Halt) : WritesOnly (P := P) (α := α) frames (MonadExcept.throw halt) := ⟨fun _ => trivial⟩

theorem fault (x : Except Fault α) : WritesOnly (P := P) frames (SecureIpc.fault x) :=
  of_same fun _ => wp_fault (fun _ _ => rfl) fun _ => trivial

theorem onDisk (operation : P.fs.State → Option (α × P.fs.State)) : WritesOnly (P := P) frames (SecureIpc.onDisk operation) := by
  refine of_same fun k => ?_
  unfold wp SecureIpc.onDisk
  cases operation k.disk <;> trivial

theorem currentTask : WritesOnly (P := P) frames SecureIpc.currentTask := by
  refine of_same fun k => ?_
  rw [wp_currentTask]
  cases k.current <;> trivial

theorem innerOf (id : Nat) : WritesOnly (P := P) frames (SecureIpc.innerOf id) := by
  refine of_same fun k => ?_
  rw [wp_innerOf]
  cases k.tasks id <;> trivial

theorem update {f : Kernel P → Kernel P} (same : ∀ k, (f k).mm = k.mm) : WritesOnly frames (modify f) := of_same same

theorem store (base : Nat) (bytes : List UInt8) {change : Kernel P → Kernel P}
    (memory : ∀ k, (change k).mm.mem = k.mm.mem.store base bytes) (inside : ∀ i < bytes.length, (base + i) / 4096 ∈ frames) :
    WritesOnly frames (modify change) := by
  refine ⟨fun k x outside => ?_⟩
  rw [memory]
  have stored : Stored k.mm { k.mm with mem := k.mm.mem.store base bytes } frames := store_stored inside
  exact stored.outside x outside

theorem suspend (point : KernelPoint) : WritesOnly (P := P) frames (suspendCurrentAndRunNext point) := by
  have taken : WritesOnly (P := P) frames takeCurrentTask := by
    refine currentTask.bind fun id => ?_
    exact .bind (.update fun _ => rfl) fun _ => .pure id
  have added : ∀ id, WritesOnly (P := P) frames (addTask id) := by
    intro id
    refine (innerOf id).bind fun task => ?_
    exact .update fun _ => rfl
  refine taken.bind fun id => (innerOf id).bind fun task => ?_
  exact .bind (.update fun _ => rfl) fun _ => added id

end WritesOnly

/-! ### Reading from files and pipes -/

theorem inodeInner_writesOnly (inner : Nat) : WritesOnly (P := P) frames (inodeInner inner) := by
  apply (WritesOnly.read _).bind
  intro state
  cases state with
  | none => exact .throw _
  | some state => exact .pure state

theorem readInode_writesOnly (inner : Nat) (slices : List Slice) (total : Nat) (covers : task.memorySet.Covers slices) :
    WritesOnly (P := P) task.memorySet.userFrames (readInode inner slices total) := by
  induction slices generalizing total with
  | nil => exact .pure total
  | cons slice rest ih =>
    apply (inodeInner_writesOnly inner).bind
    intro state
    apply (WritesOnly.onDisk _).bind
    intro bytes
    have stored : WritesOnly (P := P) task.memorySet.userFrames (modify fun k =>
        k.setMem (k.mm.mem.store slice.base (bytes.take slice.len))) := by
      refine WritesOnly.store _ _ (fun _ => rfl) fun i short => ?_
      have bound := List.length_take_le slice.len bytes
      exact (covers slice List.mem_cons_self).2 _ (mem_addrs.mpr ⟨Nat.le_add_right _ i, by omega⟩)
    apply stored.bind
    intro _
    split
    · exact .pure total
    · refine .bind (.update fun _ => rfl) fun _ => ?_
      exact ih _ fun one member => covers one (List.mem_cons_of_mem _ member)

theorem stdinLoop_writesOnly (buf : UserBuffer) (covers : task.memorySet.Covers buf.buffers) :
    WritesOnly (P := P) task.memorySet.userFrames (stdinLoop buf) := by
  have typed : WritesOnly (P := P) task.memorySet.userFrames consoleGetchar := by
    apply (WritesOnly.read _).bind
    intro input
    cases input with
    | nil => exact .pure 0
    | cons c rest => exact .bind (.update fun _ => rfl) fun _ => .pure c
  apply typed.bind
  intro c
  split
  · exact (WritesOnly.suspend _).bind fun _ => .pure none
  · cases slices : buf.buffers with
    | nil => exact .throw _
    | cons slice rest =>
      have member : slice ∈ buf.buffers := by
        rw [slices]
        exact List.mem_cons_self
      have stored : WritesOnly (P := P) task.memorySet.userFrames (modify fun k =>
          k.setMem (k.mm.mem.store slice.base [UInt8.ofNat c])) := by
        refine WritesOnly.store _ _ (fun _ => rfl) fun i single => ?_
        have nonempty := (covers slice member).1
        have zero : i = 0 := Nat.lt_one_iff.mp single
        exact (covers slice member).2 _ (mem_addrs.mpr ⟨Nat.le_add_right _ i, by omega⟩)
      exact stored.bind fun _ => .pure _

theorem readPlain_writesOnly (file : File) (buf : UserBuffer) (covers : task.memorySet.Covers buf.buffers) :
    WritesOnly (P := P) task.memorySet.userFrames (file.readPlain buf) := by
  cases file with
  | stdin =>
    unfold File.readPlain stdinRead
    dsimp only
    split
    · exact .throw _
    · exact stdinLoop_writesOnly buf covers
  | inode _ _ inner => exact (readInode_writesOnly inner buf.buffers 0 covers).bind fun _ => .pure _
  | stdout | pipe => exact .throw _

theorem pipeBuffer_writesOnly (pipe : ResourceId) : WritesOnly (P := P) frames (pipeBuffer pipe) := by
  apply (WritesOnly.read _).bind
  intro ring
  cases ring with
  | none => exact .throw _
  | some ring => exact .pure ring

theorem takeByte_writesOnly (pipe : ResourceId) {ref : Nat} (inside : ref / 4096 ∈ frames) :
    WritesOnly (P := P) frames (takeByte pipe ref) := by
  apply (pipeBuffer_writesOnly pipe).bind
  intro ring
  apply (WritesOnly.fault _).bind
  intro both
  obtain ⟨byte, after⟩ := both
  refine WritesOnly.store ref [byte] (fun _ => rfl) fun i single => ?_
  have zero : i = 0 := Nat.lt_one_iff.mp single
  rw [zero]
  exact inside

theorem transferPass_within (count : Nat) (call : PipeCall) (covers : task.memorySet.Covers call.iter.buffers) :
    wp (transferPass takeByte count call) (fun r k' => k.Within task.memorySet.userFrames k'.mm.mem ∧
      r.1.iter.buffers = call.iter.buffers) (fun _ => True) k := by
  induction count generalizing k call with
  | zero => exact ⟨fun _ _ => rfl, rfl⟩
  | succ count ih =>
    unfold transferPass
    refine wp_bind.mpr (wp_fault (fun next moved => ?_) fun _ => trivial)
    obtain ⟨ref, iter⟩ := next
    obtain ⟨buffers, inside⟩ := next_ok moved
    cases ref with
    | none => exact ⟨fun _ _ => rfl, buffers⟩
    | some ref =>
      obtain ⟨slice, member, here⟩ := inside ref rfl
      have taken := (takeByte_writesOnly call.object.id ((covers slice member).2 ref here)).within k
      apply wp_bind.mpr
      refine wp_mono taken (fun _ k₁ within => ?_) fun _ _ => trivial
      dsimp only
      split
      · exact ⟨within, buffers⟩
      · have covers₁ : task.memorySet.Covers iter.buffers := by
          rw [buffers]
          exact covers
        refine wp_mono (ih { call with iter, done := call.done + 1 } covers₁) ?_ fun _ _ => trivial
        intro r k₂ both
        obtain ⟨later, same⟩ := both
        exact ⟨fun x outside => (later x outside).trans (within x outside), same.trans buffers⟩

theorem allWriteEndsClosed_writesOnly (ring : PipeRingBuffer) : WritesOnly (P := P) frames (allWriteEndsClosed ring) := by
  unfold allWriteEndsClosed
  cases ring.writeEnd with
  | none => exact .throw _
  | some id => exact .bind (.read _) fun _ => .pure _

theorem endTransfer_writesOnly (write : Bool) (call : PipeCall) : WritesOnly (P := P) frames (endTransfer write call) :=
  .bind (.update fun _ => rfl) fun _ => .pure _

theorem pipeReadLoop_writesOnly (fuel : Nat) (call : PipeCall) (covers : task.memorySet.Covers call.iter.buffers) :
    WritesOnly (P := P) task.memorySet.userFrames (pipeReadLoop fuel call) := by
  induction fuel generalizing call with
  | zero => exact .throw _
  | succ fuel ih =>
    refine (pipeBuffer_writesOnly call.object.id).bind fun ring => ?_
    split
    · refine (allWriteEndsClosed_writesOnly ring).bind fun closed => ?_
      split
      · exact endTransfer_writesOnly false call
      · exact (WritesOnly.suspend _).bind fun _ => .pure none
    · refine ⟨fun k => wp_bind.mpr ?_⟩
      refine wp_mono (transferPass_within ring.availableRead call covers) ?_ fun _ _ => trivial
      rintro ⟨call', returned⟩ k₁ ⟨within, buffers⟩
      have rest : WritesOnly (P := P) task.memorySet.userFrames
          (if returned then endTransfer false call' else pipeReadLoop fuel call') := by
        split
        · exact endTransfer_writesOnly false call'
        · refine ih call' ?_
          dsimp only at buffers
          rw [buffers]
          exact covers
      refine wp_mono (rest.within k₁) (fun _ k₂ later => ?_) fun _ _ => trivial
      exact fun x outside => (later x outside).trans (within x outside)

theorem pipeRead_writesOnly (endpoint : Pipe) (buf : UserBuffer) (permit : IpcPermit)
    (covers : task.memorySet.Covers buf.buffers) :
    WritesOnly (P := P) task.memorySet.userFrames (pipeRead endpoint buf permit) := by
  unfold pipeRead
  split
  · refine .bind (.update fun _ => rfl) fun _ => ?_
    exact pipeReadLoop_writesOnly pipeLoopBound _ covers
  · exact .throw _

/-! ### What isolation says -/

/-- The frames of page-table nodes and the data frames of areas, over all address spaces. -/
structure FramesSeparate (k : Kernel P) : Prop where
  distinct : ∀ owner, (k.owned owner).Nodup
  apart : ∀ first second, first ≠ second → ∀ p ∈ k.owned first, p ∉ k.owned second
  range : ∀ owner, ∀ p ∈ k.owned owner, P.layout.firstFrame ≤ p ∧ p < lastFrame ∧ p ∉ k.mm.frames.recycled

/-- User pages of a process that has not exited lead to its own data frames. -/
def OwnPages (k : Kernel P) : Prop :=
  ∀ id task vpn pte, k.tasks id = some task → task.isZombie = false →
    task.memorySet.translate k.mm.mem vpn = some pte → PTEFlags.contains pte.flags PTEFlags.U = true →
    pte.ppn ∈ task.memorySet.dataFrames

/-- `mem` has the user pages of the processes other than `id`, all trap contexts and all nodes of
page tables as `k` has them. -/
structure Undisturbed (k : Kernel P) (id : Nat) (mem : PhysMem) : Prop where
  pages : ∀ other task vpn pte, other ≠ id → k.tasks other = some task → task.isZombie = false →
    task.memorySet.translate k.mm.mem vpn = some pte → PTEFlags.contains pte.flags PTEFlags.U = true →
    ∀ x, x / 4096 = pte.ppn → mem x = k.mm.mem x
  contexts : ∀ other task, k.tasks other = some task → task.isZombie = false →
    ∀ x, x / 4096 = task.trapCxPpn → mem x = k.mm.mem x
  nodes : ∀ other task, k.tasks other = some task →
    ∀ x, x / 4096 ∈ task.memorySet.pageTable.frames → mem x = k.mm.mem x
  kernelNodes : ∀ x, x / 4096 ∈ k.kernelSpace.pageTable.frames → mem x = k.mm.mem x

inductive ReadsInto (mem : PhysMem) (task : TaskControlBlock) : KernelM P (Option Nat) → Prop where
  | plain {ptr len : Nat} {buffers : List Slice} (file : File)
      (validated : tryTranslatedByteBuffer mem task.getUserToken ptr len true = .ok (some buffers)) :
      ReadsInto mem task (file.readPlain ⟨buffers⟩)
  | pipe {ptr len : Nat} {buffers : List Slice} (endpoint : Pipe) (permit : IpcPermit)
      (validated : tryTranslatedByteBuffer mem task.getUserToken ptr len true = .ok (some buffers)) :
      ReadsInto mem task (pipeRead endpoint ⟨buffers⟩ permit)
  | resumedPipe {call : PipeCall} (suspended : task.resume = .pipeRead call) :
      ReadsInto mem task (pipeReadLoop pipeLoopBound call)
  | resumedStdin {buf : UserBuffer} (suspended : task.resume = .stdinRead buf) : ReadsInto mem task (stdinLoop buf)

theorem ReadsInto.writesOnly {p : KernelM P (Option Nat)} (isolated : Isolated k) (found : k.tasks id = some task)
    (alive : task.isZombie = false) (reads : ReadsInto k.mm.mem task p) : WritesOnly task.memorySet.userFrames p := by
  have user := (isolated.task found).space alive
  have point := (isolated.task found).point
  cases reads with
  | plain file validated => exact readPlain_writesOnly file _ (user.covers validated)
  | pipe endpoint permit validated => exact pipeRead_writesOnly endpoint _ permit (user.covers validated)
  | resumedPipe suspended =>
    rw [suspended] at point
    exact pipeReadLoop_writesOnly pipeLoopBound _ point
  | resumedStdin suspended =>
    rw [suspended] at point
    exact stdinLoop_writesOnly _ point

theorem Isolated.framesSeparate (isolated : Isolated k) : FramesSeparate k where
  distinct owner := (isolated.separate.owns owner).nodup
  apart := isolated.separate.apart
  range owner p member := by
    have range := live_range (isolated.separate.owns owner) member
    exact ⟨range.1, range.2, ((isolated.separate.owns owner).live p member).2.2⟩

theorem Isolated.ownPages (isolated : Isolated k) : OwnPages k := by
  intro id task vpn pte found alive translated user
  exact userFrames_subset (((isolated.task found).space alive).frame translated user)

/-- A write to the user frames of a task disturbs nobody else. -/
theorem Isolated.undisturbed {mem : PhysMem} (isolated : Isolated k) (found : k.tasks id = some task)
    (within : k.Within task.memorySet.userFrames mem) : Undisturbed k id mem := by
  have theirs : ∀ owner, owner ≠ some id → ∀ {x}, x / 4096 ∈ k.owned owner → mem x = k.mm.mem x := by
    intro owner other x member
    refine within x fun inside => isolated.separate.apart owner (some id) other _ member ?_
    rw [owned_some found]
    exact List.mem_append_right _ (userFrames_subset inside)
  have owns := (isolated.separate.owns (some id))
  rw [owned_some found] at owns
  refine ⟨?_, ?_, ?_, ?_⟩
  · intro other next vpn pte different looked live translated user x onFrame
    refine theirs (some other) (fun same => different (Option.some.inj same)) ?_
    rw [onFrame, owned_some looked]
    exact List.mem_append_right _ (isolated.ownPages other next vpn pte looked live translated user)
  · intro other next looked live x onFrame
    obtain ⟨owned, unreachable⟩ := isolated.trap_owned looked live
    by_cases same : other = id
    · subst same
      obtain rfl := Option.some.inj (found.symm.trans looked)
      exact within x (onFrame ▸ unreachable)
    · refine theirs (some other) (fun clash => same (Option.some.inj clash)) ?_
      rw [onFrame, owned_some looked]
      exact List.mem_append_right _ owned
  · intro other next looked x onFrame
    by_cases same : other = id
    · subst same
      obtain rfl := Option.some.inj (found.symm.trans looked)
      exact within x fun inside => owns.disjoint onFrame (userFrames_subset inside)
    · refine theirs (some other) (fun clash => same (Option.some.inj clash)) ?_
      rw [owned_some looked]
      exact List.mem_append_left _ onFrame
  · intro x onFrame
    exact theirs none nofun (List.mem_append_left _ onFrame)

/-- Memory isolation in every reachable state. A read runs with the memory of the state in which its
buffer was validated, or with that in which the suspended call continues. -/
theorem reachable_memory_isolated (reachable : Reachable s) :
    FramesSeparate s.kernel ∧ OwnPages s.kernel ∧
    ∀ id task, s.kernel.tasks id = some task → task.isZombie = false →
      (∀ dst bytes r mm', copyToUser task.getUserToken dst bytes s.kernel.mm = .ok (r, mm') →
        Undisturbed s.kernel id mm'.mem) ∧
      ∀ k : Kernel P, k.mm = s.kernel.mm → ∀ p, ReadsInto s.kernel.mm.mem task p → ∀ r k', p k = .ok (r, k') →
        Undisturbed s.kernel id k'.mm.mem := by
  have isolated := reachable.sound.isolated
  refine ⟨isolated.framesSeparate, isolated.ownPages, fun id task found alive => ⟨?_, ?_⟩⟩
  · intro dst bytes r mm' copied
    have stored := wp_ok (copyToUser_stored ((isolated.task found).space alive) dst bytes) copied
    exact isolated.undisturbed found stored.outside
  · intro k same p reads r k' ran
    have within := wp_ok ((reads.writesOnly isolated found alive).within k) ran
    refine isolated.undisturbed found fun x outside => ?_
    rw [within x outside, same]

end

/-- A parent and its child: the kernel copies to the same address of the one and of the other. -/
theorem sample_memory_isolated : ∃ (s : System sample) (parent child : TaskControlBlock), Reachable s ∧
    s.kernel.tasks 0 = some parent ∧ s.kernel.tasks 1 = some child ∧ FramesSeparate s.kernel ∧ OwnPages s.kernel ∧
    (∀ r mm', copyToUser parent.getUserToken 0x10000 [1, 2] s.kernel.mm = .ok (r, mm') → Undisturbed s.kernel 0 mm'.mem) ∧
    ∀ r mm', copyToUser child.getUserToken 0x10000 [1, 2] s.kernel.mm = .ok (r, mm') → Undisturbed s.kernel 1 mm'.mem := by
  obtain ⟨s, parent, child, forked, _⟩ := forkedRun_reaches
  obtain ⟨separate, own, reads⟩ := reachable_memory_isolated forked.reachable
  exact ⟨s, parent, child, forked.reachable, forked.parentFound, forked.childFound, separate, own,
    (reads 0 parent forked.parentFound forked.parentAlive).1 0x10000 [1, 2], (reads 1 child forked.childFound forked.childAlive).1 0x10000 [1, 2]⟩

end SecureIpc

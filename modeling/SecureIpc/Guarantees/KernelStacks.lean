import SecureIpc.Lib.Recycling
import SecureIpc.Run.Step

/-!
Kernel stacks over every order of process creations and reaps. The stack of pid `p` lies three pages below that of
`p - 1`, and the page between them stays unmapped.
-/

namespace SecureIpc.Guarantees
open Lib

section
variable {P : Platform}

def stackCreate : KernelM P Nat := do
  let pid ← pidAlloc
  kernelStackNew pid
  return pid

/-- Dropping the `PidHandle` and the `KernelStack` of a control block, in this order. -/
def stackReap (pid : Nat) : KernelM P Unit := do
  pidDealloc pid
  kernelStackDrop pid

/-- `TRAMPOLINE - pid * 0x3000` stays above the kernel's identity-mapped regions, which end at `MEMORY_END`. -/
def StackFits (pid : Nat) : Prop := memoryEnd + pid * 0x3000 < VirtAddr.ofUsize trampoline

instance : DecidablePred StackFits := fun _ => Nat.decLt _ _

def stackStart (pid : Nat) : Nat := VirtAddr.floor (VirtAddr.ofUsize (kernelStackPosition pid).1)

def stackEnd (pid : Nat) : Nat := VirtAddr.ceil (VirtAddr.ofUsize (kernelStackPosition pid).2)

def StackPage (pid v : Nat) : Prop := stackStart pid ≤ v ∧ v < stackEnd pid

def kernelLeaf (k : Kernel P) (v : Nat) : PageTableEntry := k.kernelSpace.pageTable.leaf k.mm.mem v

/-- What creations and reaps reach: the kernel, and the pids that are not reaped. Between them, others use frames of
their own. -/
inductive StacksAfter : Kernel P → List Nat → Prop where
  | boot {kernelSpace : MemorySet} {mm : Mm} (built : MemorySet.newKernel P.layout (Kernel.blank P).mm = .ok (kernelSpace, mm)) :
      StacksAfter { Kernel.blank P with kernelSpace, mm } []
  | create {k k' : Kernel P} {pids : List Nat} {pid : Nat} (before : StacksAfter k pids) (fits : StackFits pid)
      (call : stackCreate k = .ok (pid, k')) : StacksAfter k' (pid :: pids)
  | reap {k k' : Kernel P} {pids : List Nat} {pid : Nat} (before : StacksAfter k pids) (held : pid ∈ pids)
      (call : stackReap pid k = .ok ((), k')) : StacksAfter k' (pids.erase pid)
  | others {k k' : Kernel P} {pids F G : List Nat} (before : StacksAfter k pids) (allocator : k'.pidAllocator = k.pidAllocator)
      (kernelSpace : k'.kernelSpace = k.kernelSpace) (step : (frameStore P.layout).Evolves k.mm k'.mm F G)
      (apart : ∀ p ∈ k.kernelSpace.frames, p ∉ F) : StacksAfter k' pids

structure StacksSound (k : Kernel P) (pids : List Nat) : Prop where
  distinct : pids.Nodup
  positive : ∀ pid ∈ pids, 1 ≤ pid
  mapped : ∀ pid ∈ pids, ∀ v, StackPage pid v → (kernelLeaf k v).isValid = true
  apart : ∀ pid ∈ pids, ∀ other ∈ pids, pid ≠ other → ∀ v, StackPage pid v → ¬StackPage other v
  trampoline : ∀ pid ∈ pids, ¬StackPage pid trampolineVpn
  guard : ∀ pid ∈ pids, 0 < stackStart pid ∧ kernelLeaf k (stackStart pid - 1) = .empty
  creates : StackFits k.pidAllocator.alloc.1 →
    (∃ pid k', stackCreate k = .ok (pid, k')) ∨ stackCreate k = .error (.fault .outOfFrames)
  reaps : ∀ pid ∈ pids, ∃ k', stackReap pid k = .ok ((), k') ∧
    ∀ v < 2 ^ 27, (StackPage pid v → kernelLeaf k' v = .empty) ∧ (¬StackPage pid v → kernelLeaf k' v = kernelLeaf k v)

section
variable {k k' : Kernel P} {pids : List Nat} {pid other v : Nat}

/-! ### Positions -/

theorem stackPosition (fits : StackFits pid) : VirtAddr.ofUsize (kernelStackPosition pid).1 = (2 ^ 27 - 3 * pid - 3) * 4096 ∧
    VirtAddr.ofUsize (kernelStackPosition pid).2 = (2 ^ 27 - 3 * pid - 1) * 4096 := by
  have limit : VirtAddr.ofUsize trampoline = 2 ^ 39 - 4096 := by decide
  have last : memoryEnd = 0x88000000 := by decide
  unfold StackFits at fits
  unfold kernelStackPosition subWrap VirtAddr.ofUsize trampoline kernelStackSize pageSize
  dsimp only
  omega

theorem stackStart_eq (fits : StackFits pid) : stackStart pid = 2 ^ 27 - 3 * pid - 3 := by
  rw [stackStart, (stackPosition fits).1]
  exact Nat.mul_div_cancel _ (by decide)

theorem stackEnd_eq (fits : StackFits pid) : stackEnd pid = 2 ^ 27 - 3 * pid - 1 := by
  have limit : VirtAddr.ofUsize trampoline = 2 ^ 39 - 4096 := by decide
  unfold StackFits at fits
  rw [stackEnd, (stackPosition fits).2]
  unfold VirtAddr.ceil pageSize
  split
  · omega
  · omega

/-- The guard page of a stack still lies above the identity-mapped areas. -/
theorem stack_above (fits : StackFits pid) : lastFrame + 3 * pid + 4 ≤ 2 ^ 27 := by
  have limit : VirtAddr.ofUsize trampoline = 2 ^ 39 - 4096 := by decide
  have last : memoryEnd = 0x88000000 := by decide
  rw [lastFrame_eq]
  unfold StackFits at fits
  omega

theorem stackPage_iff (fits : StackFits pid) : StackPage pid v ↔ v + 3 * pid + 3 = 2 ^ 27 ∨ v + 3 * pid + 2 = 2 ^ 27 := by
  have above := stack_above fits
  rw [StackPage, stackStart_eq fits, stackEnd_eq fits]
  omega

theorem StackPage.unique (fits : StackFits pid) (fits' : StackFits other) (here : StackPage pid v) (there : StackPage other v) :
    pid = other := by
  rw [stackPage_iff fits] at here
  rw [stackPage_iff fits'] at there
  omega

def stackArea (pid : Nat) : MapArea := ⟨stackStart pid, stackEnd pid, [], .framed, PTEFlags.R ||| PTEFlags.W⟩

/-! ### The invariant -/

structure StackInv (k : Kernel P) (pids : List Nat) : Prop where
  recycles : Recycles 1 k.pidAllocator.current k.pidAllocator.recycled pids
  space : Space P.layout k.mm k.kernelSpace
  fits : ∀ pid ∈ pids, StackFits pid
  held : ∀ pid ∈ pids, ∃ area ∈ k.kernelSpace.areas, area.vpnStart = stackStart pid ∧ area.vpnEnd = stackEnd pid
  known : ∀ area ∈ k.kernelSpace.areas, area.vpnEnd ≤ lastFrame ∨
    ∃ pid ∈ pids, area.vpnStart = stackStart pid ∧ area.vpnEnd = stackEnd pid

/-- A page above the identity-mapped areas, below the trampoline and in no stack is not mapped. -/
theorem StackInv.unmapped (inv : StackInv k pids) (above : lastFrame ≤ v) (below : v < trampolineVpn)
    (outside : ∀ pid ∈ pids, ¬StackPage pid v) : kernelLeaf k v = .empty := by
  have top : trampolineVpn < 2 ^ 27 := by decide
  rcases inv.space.known v (by omega) with empty | here | ⟨area, member, low, high⟩
  · exact empty
  · omega
  · rcases inv.known area member with image | ⟨pid, held, start, stop⟩
    · omega
    · rw [start] at low
      rw [stop] at high
      exact absurd ⟨low, high⟩ (outside pid held)

theorem alloc_recycles {allocator : PidAllocator} (recycles : Recycles 1 allocator.current allocator.recycled pids) :
    Recycles 1 allocator.alloc.2.current allocator.alloc.2.recycled (allocator.alloc.1 :: pids) := by
  unfold PidAllocator.alloc
  cases stack : allocator.recycled with
  | nil =>
    rw [stack] at recycles
    simpa [stack] using recycles.takeNext
  | cons pid rest =>
    rw [stack] at recycles
    exact recycles.takeFree

theorem pidDealloc_held (inv : StackInv k pids) (held : pid ∈ pids) :
    k.pidAllocator.dealloc pid = .ok { k.pidAllocator with recycled := pid :: k.pidAllocator.recycled } := by
  obtain ⟨⟨_, below⟩, free⟩ := inv.recycles.mem_live_iff.mp held
  have allowed : ¬(k.pidAllocator.current ≤ pid ∨ k.pidAllocator.recycled.contains pid) := by
    rw [List.contains_iff_mem]
    exact not_or.mpr ⟨Nat.not_le.mpr below, free⟩
  rw [PidAllocator.dealloc, if_neg allowed]

theorem wp_pidDealloc_held {Q : Unit → Kernel P → Prop} {E : Halt → Prop} (inv : StackInv k pids) (held : pid ∈ pids)
    (returns : Q () { k with pidAllocator := { k.pidAllocator with recycled := pid :: k.pidAllocator.recycled } }) :
    wp (pidDealloc pid) Q E k := by
  unfold pidDealloc
  simp only [wp_bind, wp_read, pidDealloc_held inv held, wp_lift_ok, wp_modify]
  exact returns

/-! ### Creation -/

theorem StackInv.fresh (inv : StackInv k pids) (fits : StackFits pid) (new : pid ∉ pids) (page : StackPage pid v) :
    kernelLeaf k v = .empty := by
  have above := stack_above fits
  have position := (stackPage_iff fits).mp page
  have top : trampolineVpn = 2 ^ 27 - 1 := rfl
  refine inv.unmapped (by omega) (by omega) ?_
  intro other held there
  exact new ((StackPage.unique fits (inv.fits other held) page there) ▸ held)

theorem insertStack_spec (inv : StackInv k pids) (fits : StackFits pid) (new : pid ∉ pids) :
    wp (k.kernelSpace.insertFramedArea P.layout (VirtAddr.ofUsize (kernelStackPosition pid).1)
      (VirtAddr.ofUsize (kernelStackPosition pid).2) (PTEFlags.R ||| PTEFlags.W))
      (fun space' mm' => ∃ area', Pushed P.layout k.mm mm' k.kernelSpace space' (stackArea pid) area')
      (· = .outOfFrames) k.mm := by
  have above := stack_above fits
  have start := stackStart_eq fits
  have stop := stackEnd_eq fits
  have ordered : stackStart pid ≤ stackEnd pid := by omega
  unfold MemorySet.insertFramedArea MapArea.new
  dsimp only
  rw [if_pos (show VirtAddr.floor _ ≤ VirtAddr.ceil _ from ordered)]
  apply wp_bind.mpr
  apply wp_pure.mpr
  have pushed := @push_spec P.layout k.mm k.kernelSpace (stackArea pid) inv.space rfl ordered
    (show stackEnd pid ≤ 2 ^ 27 by omega) (show PTEFlags.R ||| PTEFlags.W < 32 by decide)
  refine wp_mono pushed (fun _ _ done => done) ?_
  intro fault failed
  rcases failed with full | ⟨_, i, inside, valid⟩
  · exact full
  · have page : StackPage pid (stackStart pid + i) := ⟨Nat.le_add_right _ _, by
      have count : i < stackEnd pid - stackStart pid := inside
      omega⟩
    have empty := inv.fresh fits new page
    unfold kernelLeaf at empty
    rw [show (stackArea pid).vpnStart = stackStart pid from rfl, empty, PageTableEntry.empty_invalid] at valid
    cases valid

theorem StackInv.create (inv : StackInv k pids) (fits : StackFits k.pidAllocator.alloc.1) :
    wp stackCreate (fun pid k' => pid = k.pidAllocator.alloc.1 ∧ StackInv k' (pid :: pids)) (· = .fault .outOfFrames) k := by
  have recycles := alloc_recycles inv.recycles
  generalize named : k.pidAllocator.alloc.1 = pid at fits recycles
  have new : pid ∉ pids := (List.nodup_cons.mp recycles.liveDistinct).1
  have insert := insertStack_spec inv fits new
  unfold stackCreate
  apply wp_bind.mpr
  rw [wp_pidAlloc, named]
  apply wp_bind.mpr
  unfold kernelStackNew
  revert insert
  generalize kernelStackPosition pid = position
  obtain ⟨bottom, top⟩ := position
  intro insert
  simp only [wp_bind, wp_read]
  apply wp_zoom
  refine wp_mono insert ?_ fun _ full => congrArg Halt.fault full
  intro space' mm' both
  obtain ⟨area', pushed⟩ := both
  simp only [wp_modify, wp_pure]
  have start : area'.vpnStart = stackStart pid := by
    rw [pushed.stored]
    rfl
  have stop : area'.vpnEnd = stackEnd pid := by
    rw [pushed.stored]
    rfl
  refine ⟨trivial, recycles, pushed.whole, ?_, ?_, ?_⟩
  · intro one member
    rcases List.mem_cons.mp member with rfl | old
    · exact fits
    · exact inv.fits one old
  · intro one member
    show ∃ area ∈ space'.areas, _
    rw [pushed.areas]
    rcases List.mem_cons.mp member with rfl | old
    · exact ⟨area', by simp, start, stop⟩
    · obtain ⟨area, inside, bounds⟩ := inv.held one old
      exact ⟨area, List.mem_append_left _ inside, bounds⟩
  · intro area member
    replace member : area ∈ space'.areas := member
    rw [pushed.areas] at member
    rcases List.mem_append.mp member with old | fresh
    · rcases inv.known area old with image | ⟨one, held, bounds⟩
      · exact Or.inl image
      · exact Or.inr ⟨one, List.mem_cons_of_mem pid held, bounds⟩
    · rw [List.mem_singleton.mp fresh]
      exact Or.inr ⟨pid, List.mem_cons_self, start, stop⟩

/-! ### Reaping -/

theorem StackInv.area (inv : StackInv k pids) (held : pid ∈ pids) : ∃ idx area,
    (k.kernelSpace.areas.findIdx? fun area => area.vpnStart == stackStart pid) = some idx ∧
      k.kernelSpace.areas[idx]? = some area ∧ ∀ v, area.Holds v ↔ StackPage pid v := by
  have fits := inv.fits pid held
  have above := stack_above fits
  have start := stackStart_eq fits
  obtain ⟨mine, member, bounds⟩ := inv.held pid held
  cases found : k.kernelSpace.areas.findIdx? fun area => area.vpnStart == stackStart pid with
  | none =>
    have missing := List.findIdx?_eq_none_iff.mp found mine member
    simp [bounds.1] at missing
  | some idx =>
    obtain ⟨inside, here, _⟩ := List.findIdx?_eq_some_iff_getElem.mp found
    refine ⟨idx, k.kernelSpace.areas[idx], rfl, List.getElem?_eq_getElem inside, ?_⟩
    generalize one : k.kernelSpace.areas[idx] = area at here
    have kept : area ∈ k.kernelSpace.areas := one ▸ List.getElem_mem inside
    rw [beq_iff_eq] at here
    have placed := inv.space.placed area kept
    intro v
    rcases inv.known area kept with image | ⟨other, theirs, first, last⟩
    · have ordered := placed.ordered
      omega
    · have start' := stackStart_eq (inv.fits other theirs)
      have above' := stack_above (inv.fits other theirs)
      obtain rfl : other = pid := by omega
      unfold MapArea.Holds StackPage
      rw [first, last]

theorem toVpn_stack (fits : StackFits pid) :
    VirtAddr.toVpn (VirtAddr.ofUsize (kernelStackPosition pid).1) = .ok (stackStart pid) := by
  unfold VirtAddr.toVpn stackStart VirtAddr.pageOffset
  rw [(stackPosition fits).1]
  exact if_pos (Nat.mul_mod_left _ 4096)

theorem kernelStackDrop_spec {idx : Nat} {area : MapArea} (space : Space P.layout k.mm k.kernelSpace) (fits : StackFits pid)
    (found : (k.kernelSpace.areas.findIdx? fun area => area.vpnStart == stackStart pid) = some idx)
    (entry : k.kernelSpace.areas[idx]? = some area) :
    wp (kernelStackDrop pid) (fun _ k' => ∃ space' mm', k' = { k with kernelSpace := space', mm := mm' } ∧
      Removed P.layout k.mm mm' k.kernelSpace space' area) (fun _ => False) k := by
  unfold kernelStackDrop
  rw [toVpn_stack fits]
  generalize stackStart pid = start at found
  apply wp_bind.mpr
  apply wp_lift_ok.mpr
  apply wp_bind.mpr
  rw [wp_read]
  apply wp_bind.mpr
  apply wp_zoom
  refine wp_mono (removeArea_found space found entry) ?_ fun _ impossible => impossible
  intro space' mm' removed
  rw [wp_modify]
  exact ⟨space', mm', rfl, removed⟩

theorem StackInv.reap (inv : StackInv k pids) (held : pid ∈ pids) :
    wp (stackReap pid) (fun _ k' => StackInv k' (pids.erase pid) ∧ ∀ v < 2 ^ 27,
      (StackPage pid v → kernelLeaf k' v = .empty) ∧ (¬StackPage pid v → kernelLeaf k' v = kernelLeaf k v))
      (fun _ => False) k := by
  have fits := inv.fits pid held
  obtain ⟨idx, area, found, entry, pages⟩ := inv.area held
  have erased : ∀ {one}, one ∈ pids.erase pid ↔ one ≠ pid ∧ one ∈ pids := inv.recycles.liveDistinct.mem_erase_iff
  have spec : wp (stackReap pid) (fun _ k' => ∃ space' mm',
      k' = { k with
        pidAllocator := { k.pidAllocator with recycled := pid :: k.pidAllocator.recycled }, kernelSpace := space', mm := mm' } ∧
      Removed P.layout k.mm mm' k.kernelSpace space' area) (fun _ => False) k := by
    apply wp_bind.mpr
    apply wp_pidDealloc_held inv held
    exact kernelStackDrop_spec (k := { k with pidAllocator := _ }) inv.space fits found entry
  refine wp_mono spec ?_ fun _ impossible => impossible
  rintro _ _ ⟨space', mm', rfl, removed⟩
  have leaves : ∀ v, space'.pageTable.leaf mm'.mem v = k.kernelSpace.pageTable.leaf mm'.mem v := by
    intro v
    rw [removed.table]
  refine ⟨⟨inv.recycles.giveBack held, removed.whole, ?_, ?_, ?_⟩, ?_⟩
  · intro one remaining
    exact inv.fits one (erased.mp remaining).2
  · intro one remaining
    obtain ⟨different, old⟩ := erased.mp remaining
    obtain ⟨mine, member, bounds⟩ := inv.held one old
    rcases removed.kept mine member with kept | rfl
    · exact ⟨mine, kept, bounds⟩
    · -- the area that was removed holds the first page of `pid`
      have above := stack_above (inv.fits one old)
      have ordered : stackStart one < stackEnd one := by
        rw [stackStart_eq (inv.fits one old), stackEnd_eq (inv.fits one old)]
        omega
      have first : mine.Holds (stackStart one) := ⟨by omega, by omega⟩
      exact absurd (StackPage.unique (inv.fits one old) fits ⟨Nat.le_refl _, ordered⟩ ((pages _).mp first)) different
  · intro one remaining
    rcases inv.known one (removed.subset remaining) with image | ⟨other, theirs, bounds⟩
    · exact Or.inl image
    · refine Or.inr ⟨other, erased.mpr ⟨?_, theirs⟩, bounds⟩
      rintro rfl
      have above := stack_above fits
      have ordered : stackStart other < stackEnd other := by
        rw [stackStart_eq fits, stackEnd_eq fits]
        omega
      have first : one.Holds (stackStart other) := ⟨by omega, by omega⟩
      exact removed.apart one remaining _ first ((pages _).mpr ⟨Nat.le_refl _, ordered⟩)
  · intro v low
    unfold kernelLeaf
    rw [leaves v]
    exact ⟨fun page => removed.cleared v ((pages v).mpr page), fun outside => removed.other v low fun here => outside ((pages v).mp here)⟩

/-! ### Runs -/

theorem StackInv.others {F G : List Nat} (inv : StackInv k pids) (allocator : k'.pidAllocator = k.pidAllocator)
    (kernelSpace : k'.kernelSpace = k.kernelSpace) (step : (frameStore P.layout).Evolves k.mm k'.mm F G)
    (apart : ∀ p ∈ k.kernelSpace.frames, p ∉ F) : StackInv k' pids := by
  obtain ⟨recycles, space, fits, held, known⟩ := inv
  rw [← allocator] at recycles
  have space' := space.other step apart
  rw [← kernelSpace] at space' held known
  exact ⟨recycles, space', fits, held, known⟩

theorem stackCreate_pid {k : Kernel P} : wp stackCreate (fun pid _ => pid = k.pidAllocator.alloc.1) (fun _ => True) k := by
  unfold stackCreate
  apply wp_bind.mpr
  rw [wp_pidAlloc]
  apply wp_bind.mpr
  exact wp_kernelStackNew (fun _ _ _ => rfl) fun _ => trivial

theorem StacksAfter.inv (after : StacksAfter k pids) : StackInv k pids := by
  induction after with
  | boot built =>
    obtain ⟨space, _, identical⟩ := wp_ok (newKernel_spec blank_valid) built
    exact ⟨Recycles.start 1, space, by simp, by simp, fun area member => Or.inl (identical area member).2⟩
  | create _ fits call ih =>
    rw [wp_ok stackCreate_pid call] at fits
    exact (wp_ok (ih.create fits) call).2
  | reap _ held call ih => exact (wp_ok (ih.reap held) call).1
  | others _ allocator kernelSpace step apart ih => exact ih.others allocator kernelSpace step apart

theorem StackInv.sound (inv : StackInv k pids) : StacksSound k pids where
  distinct := inv.recycles.liveDistinct
  positive pid held := ((inv.recycles.whole pid).mp (Or.inl held)).1
  mapped pid held v page := by
    obtain ⟨area, member, start, stop⟩ := inv.held pid held
    exact (inv.space.placed area member).valid ⟨by rw [start]; exact page.1, by rw [stop]; exact page.2⟩
  apart pid held other theirs different v here there :=
    different (StackPage.unique (inv.fits pid held) (inv.fits other theirs) here there)
  trampoline pid held page := by
    have position := (stackPage_iff (inv.fits pid held)).mp page
    have top : trampolineVpn = 2 ^ 27 - 1 := rfl
    omega
  guard pid held := by
    have fits := inv.fits pid held
    have above := stack_above fits
    have start := stackStart_eq fits
    have top : trampolineVpn = 2 ^ 27 - 1 := rfl
    refine ⟨by omega, inv.unmapped (by omega) (by omega) ?_⟩
    intro other theirs page
    have position := (stackPage_iff (inv.fits other theirs)).mp page
    omega
  creates fits := by
    cases run : stackCreate k with
    | ok result => exact Or.inl ⟨result.1, result.2, rfl⟩
    | error halt =>
      have full := wp_error (inv.create fits) run
      exact Or.inr (congrArg Except.error full)
  reaps pid held := by
    cases run : stackReap pid k with
    | ok result => exact ⟨result.2, rfl, (wp_ok (inv.reap held) run).2⟩
    | error halt => exact (wp_error (inv.reap held) run).elim

end

/-- In every order of creations and reaps, the pids that are not reaped are distinct and positive, their stacks lie apart from
each other and from the trampoline above an unmapped page, a creation fails only for want of frames, and a reap
succeeds and unmaps the pages of its own stack and no others. -/
theorem kernel_stacks_apart {k : Kernel P} {pids : List Nat} (after : StacksAfter k pids) : StacksSound k pids :=
  after.inv.sound

end

/-- Three processes, of which the second is reaped. -/
theorem kernel_stacks_apart_sample : ∃ k : Kernel sample, StacksAfter k [3, 1] ∧ StacksSound k [3, 1] := by
  let calls : KernelM sample (Nat × Nat × Nat) := do
    let first ← stackCreate
    let second ← stackCreate
    let third ← stackCreate
    stackReap 2
    return (first, second, third)
  have ran : ((MemorySet.newKernel sample.layout (Kernel.blank sample).mm).toOption.any fun built =>
      (calls { Kernel.blank sample with kernelSpace := built.1, mm := built.2 }).toOption.any fun result =>
        result.1 == (1, 2, 3)) = true := by decide +kernel
  simp only [Option.any_eq_true, toOption_eq_some, beq_iff_eq] at ran
  obtain ⟨⟨kernelSpace, mm⟩, built, ⟨numbers, k⟩, run, rfl⟩ := ran
  obtain ⟨⟨_, k₁⟩, first, run⟩ := bind_ok run
  obtain ⟨⟨_, k₂⟩, second, run⟩ := bind_ok run
  obtain ⟨⟨_, k₃⟩, third, run⟩ := bind_ok run
  obtain ⟨⟨_, k₄⟩, reaped, run⟩ := bind_ok run
  cases run
  have fits : ∀ pid ≤ 3, StackFits pid := by decide
  have one := StacksAfter.create (.boot built) (fits 1 (by decide)) first
  have two := one.create (fits 2 (by decide)) second
  have three := two.create (fits 3 (by decide)) third
  have after : StacksAfter _ ([3, 2, 1].erase 2) := three.reap (by decide) reaped
  exact ⟨_, after, kernel_stacks_apart after⟩

end SecureIpc.Guarantees

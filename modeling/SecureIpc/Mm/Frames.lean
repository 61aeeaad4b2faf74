import SecureIpc.Lib.Ownership
import SecureIpc.Mm.MemorySet

/-!
The frames of physical memory as a store: what allocating, dropping and writing frames does to
their holders.
-/

namespace SecureIpc
open Lib

theorem lastFrame_eq : lastFrame = 0x88000 := by decide

/-- Frames that are handed out lie between the first frame and `current` and are not recycled. -/
def frameStore (layout : Layout) : Store Mm Nat (Fin 4096 → UInt8) where
  valid mm := layout.firstFrame ≤ mm.frames.current ∧ mm.frames.current ≤ lastFrame ∧ mm.frames.stop = lastFrame ∧
    mm.frames.recycled.Nodup ∧ ∀ p ∈ mm.frames.recycled, layout.firstFrame ≤ p ∧ p < mm.frames.current
  live mm p := layout.firstFrame ≤ p ∧ p < mm.frames.current ∧ p ∉ mm.frames.recycled
  content mm p := fun i => mm.mem (p * 4096 + i)

section
variable {layout : Layout} {mm mm' : Mm} {F G : List Nat} {p : Nat}

theorem firstFrame_pos : 0 < layout.firstFrame := by
  have inside := layout.trampoline_inside
  have fits := layout.kernel_fits
  have limit : memoryEnd < 2 ^ 56 := by decide
  unfold Layout.firstFrame PhysAddr.ceil PhysAddr.ofUsize
  rw [Nat.mod_eq_of_lt (by omega), if_neg (by omega)]
  show 0 < (layout.ekernel - 1 + 4096) / 4096
  omega

theorem mem_of_content (same : (frameStore layout).content mm' p = (frameStore layout).content mm p) {x : Nat}
    (onFrame : x / 4096 = p) : mm'.mem x = mm.mem x := by
  have entry := congrFun same ⟨x % 4096, Nat.mod_lt x (by decide)⟩
  simp only [frameStore] at entry
  rwa [← onFrame, Nat.div_add_mod'] at entry

theorem content_of_mem (same : ∀ x, x / 4096 = p → mm'.mem x = mm.mem x) :
    (frameStore layout).content mm' p = (frameStore layout).content mm p := by
  funext i
  have small := i.isLt
  exact same _ (by omega)

theorem live_range (owns : (frameStore layout).Owns mm F) (member : p ∈ F) :
    layout.firstFrame ≤ p ∧ p < lastFrame := by
  obtain ⟨lower, upper, _⟩ := owns.live p member
  exact ⟨lower, Nat.lt_of_lt_of_le upper owns.valid.2.1⟩

theorem live_small (owns : (frameStore layout).Owns mm F) (member : p ∈ F) : p < 2 ^ 44 := by
  have bound := (live_range owns member).2
  rw [lastFrame_eq] at bound
  omega

theorem writable_of_owned (owns : (frameStore layout).Owns mm F) (member : p ∈ F) : layout.writable p = true := by
  have range := live_range owns member
  simp [Layout.writable, range]

theorem evolves_mem (owns : (frameStore layout).Owns mm F) (mem : PhysMem)
    (outside : ∀ x, x / 4096 ∉ F → mem x = mm.mem x) : (frameStore layout).Evolves mm { mm with mem } F F where
  owns := ⟨owns.valid, owns.nodup, owns.live⟩
  live _ live _ := live
  apart _ _ other := other
  same _ _ other := content_of_mem fun x onFrame => outside x (by rw [onFrame]; exact other)

/-! ### Allocation -/

/-- The allocator hands out a frame that is free. -/
theorem alloc_cases (valid : (frameStore layout).valid mm) {frames : StackFrameAllocator}
    (run : mm.frames.alloc = (some p, frames)) :
    ¬ (frameStore layout).live mm p ∧ ∀ mem, (frameStore layout).valid ⟨mem, frames⟩ ∧
      ∀ q, (frameStore layout).live ⟨mem, frames⟩ q ↔ (frameStore layout).live mm q ∨ q = p := by
  obtain ⟨lower, upper, stop, nodup, inside⟩ := valid
  have last := lastFrame_eq
  unfold StackFrameAllocator.alloc at run
  split at run
  · -- a recycled frame: the top of the stack
    rename_i top rest stack
    obtain ⟨same, rfl⟩ := Prod.mk.inj run
    have range := inside top (by rw [stack]; exact List.mem_cons_self)
    have exact_top : PhysPageNum.ofUsize top = top := Nat.mod_eq_of_lt (by omega)
    rw [exact_top, Option.some.injEq] at same
    subst same
    rw [stack, List.nodup_cons] at nodup
    refine ⟨fun live => live.2.2 (by rw [stack]; exact List.mem_cons_self), fun mem => ⟨⟨lower, upper, stop, nodup.2, ?_⟩, ?_⟩⟩
    · intro q member
      exact inside q (by rw [stack]; exact List.mem_cons_of_mem top member)
    · intro q
      simp only [frameStore, stack, List.mem_cons, not_or]
      constructor
      · rintro ⟨low, high, free⟩
        by_cases top_eq : q = top
        · exact Or.inr top_eq
        · exact Or.inl ⟨low, high, top_eq, free⟩
      · rintro (⟨low, high, _, free⟩ | rfl)
        · exact ⟨low, high, free⟩
        · exact ⟨range.1, range.2, nodup.1⟩
  · split at run
    · exact absurd (Prod.mk.inj run).1 (by simp)
    · -- the next frame of the untouched range
      rename_i stack more
      obtain ⟨same, rfl⟩ := Prod.mk.inj run
      have exact_current : PhysPageNum.ofUsize mm.frames.current = mm.frames.current := Nat.mod_eq_of_lt (by omega)
      rw [exact_current, Option.some.injEq] at same
      subst same
      refine ⟨fun live => absurd live.2.1 (Nat.lt_irrefl _), fun mem => ⟨⟨?_, ?_, stop, nodup, ?_⟩, ?_⟩⟩
      · exact Nat.le_succ_of_le lower
      · show mm.frames.current + 1 ≤ lastFrame
        omega
      · intro q member
        rw [stack] at member
        exact absurd member (by simp)
      · intro q
        simp only [frameStore, stack, List.not_mem_nil, not_false_eq_true, and_true]
        omega

/-- `frame_alloc` adds a cleared frame and changes nothing else. -/
theorem frameAlloc_spec (owns : (frameStore layout).Owns mm F) :
    wp Mm.frameAlloc (fun p mm' => (frameStore layout).Evolves mm mm' F (F ++ [p]) ∧
      (∀ x, x / 4096 = p → mm'.mem x = 0) ∧ ∀ x, x / 4096 ≠ p → mm'.mem x = mm.mem x) (· = .outOfFrames) mm := by
  refine wp_intro ?_ ?_
  · intro p mm' run
    unfold Mm.frameAlloc at run
    split at run
    · rename_i ppn frames alloc
      simp only [Except.ok.injEq, Prod.mk.injEq] at run
      obtain ⟨rfl, rfl⟩ := run
      obtain ⟨free, result⟩ := alloc_cases owns.valid alloc
      obtain ⟨valid, live⟩ := result (zeroFrame mm.mem ppn)
      have other : ∀ q ∈ F, q ≠ ppn := fun q member same => free (same ▸ owns.live q member)
      have kept : ∀ x, x / 4096 ≠ ppn → zeroFrame mm.mem ppn x = mm.mem x := fun x outside => by
        show (if x / 4096 = ppn then 0 else mm.mem x) = mm.mem x
        rw [if_neg outside]
      refine ⟨⟨⟨valid, ?_, ?_⟩, ?_, ?_, ?_⟩, ?_, kept⟩
      · rw [List.nodup_append]
        refine ⟨owns.nodup, List.nodup_singleton ppn, ?_⟩
        intro q member r single
        rw [List.mem_singleton.mp single]
        exact other q member
      · intro q member
        rcases List.mem_append.mp member with mine | single
        · exact (live q).mpr (Or.inl (owns.live q mine))
        · exact (live q).mpr (Or.inr (List.mem_singleton.mp single))
      · exact fun q alive _ => (live q).mpr (Or.inl alive)
      · intro q alive notMine member
        rcases List.mem_append.mp member with mine | single
        · exact notMine mine
        · exact free (List.mem_singleton.mp single ▸ alive)
      · intro q alive _
        exact content_of_mem fun x onFrame => kept x fun same => free (same ▸ onFrame ▸ alive)
      · intro x onFrame
        show (if x / 4096 = ppn then 0 else mm.mem x) = 0
        rw [if_pos onFrame]
    · exact absurd run (by simp)
  · intro error run
    unfold Mm.frameAlloc at run
    split at run
    · exact absurd run (by simp)
    · injection run with same
      exact same.symm

/-- Dropping an owned frame never panics and leaves memory alone. -/
theorem frameDealloc_spec (owns : (frameStore layout).Owns mm (p :: F)) :
    wp (Mm.frameDealloc p) (fun _ mm' => (frameStore layout).Evolves mm mm' (p :: F) F ∧ mm'.mem = mm.mem)
      (fun _ => False) mm := by
  obtain ⟨lower, upper, free⟩ := owns.live p List.mem_cons_self
  obtain ⟨low, high, stop, nodup, inside⟩ := owns.valid
  have notMine := (List.nodup_cons.mp owns.nodup).1
  have allowed : mm.frames.dealloc p = .ok { mm.frames with recycled := p :: mm.frames.recycled } := by
    unfold StackFrameAllocator.dealloc
    rw [if_neg]
    rintro (late | again)
    · omega
    · exact free (List.contains_iff_mem.mp again)
  unfold wp Mm.frameDealloc
  rw [allowed]
  have live : ∀ q, (frameStore layout).live mm q → q ≠ p →
      (frameStore layout).live ⟨mm.mem, { mm.frames with recycled := p :: mm.frames.recycled }⟩ q :=
    fun q alive different => ⟨alive.1, alive.2.1, fun member => by
      rcases List.mem_cons.mp member with same | recycled
      · exact different same
      · exact alive.2.2 recycled⟩
  refine ⟨⟨⟨⟨low, high, stop, List.nodup_cons.mpr ⟨free, nodup⟩, ?_⟩, (List.nodup_cons.mp owns.nodup).2, ?_⟩, ?_, ?_, ?_⟩, rfl⟩
  · intro q member
    rcases List.mem_cons.mp member with rfl | recycled
    · exact ⟨lower, upper⟩
    · exact inside q recycled
  · intro q mine
    exact live q (owns.live q (List.mem_cons_of_mem p mine)) fun same => notMine (same ▸ mine)
  · intro q alive other
    exact live q alive fun same => other (same ▸ List.mem_cons_self)
  · intro q _ other mine
    exact other (List.mem_cons_of_mem p mine)
  · exact fun _ _ _ => rfl

theorem frameDeallocAll_spec (owns : (frameStore layout).Owns mm (G ++ F)) :
    wp (Mm.frameDeallocAll G) (fun _ mm' => (frameStore layout).Evolves mm mm' (G ++ F) F ∧ mm'.mem = mm.mem)
      (fun _ => False) mm := by
  induction G generalizing mm with
  | nil => exact ⟨Store.Evolves.refl owns, rfl⟩
  | cons p rest ih =>
    rw [Mm.frameDeallocAll, wp_bind]
    refine wp_mono (frameDealloc_spec owns) ?_ fun _ impossible => impossible
    rintro _ after ⟨step, same⟩
    refine wp_mono (ih step.owns) ?_ fun _ impossible => impossible
    rintro _ last ⟨steps, unchanged⟩
    exact ⟨step.trans steps, unchanged.trans same⟩

end

end SecureIpc

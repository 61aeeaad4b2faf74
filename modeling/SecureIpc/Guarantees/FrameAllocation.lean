import SecureIpc.Lib.Recycling
import SecureIpc.Mm.FrameAllocator

/-! The frame allocator over every order of allocations and deallocations. -/

namespace SecureIpc.Guarantees
open Lib

/-- What calls reach after `init(l, r)`: the allocator, and the frames that are live. -/
inductive FramesAfter (l r : Nat) : StackFrameAllocator → List Nat → Prop where
  | init : FramesAfter l r (StackFrameAllocator.new.init l r) []
  | alloc {self self' : StackFrameAllocator} {live : List Nat} {ppn : Nat} (before : FramesAfter l r self live)
      (call : self.alloc = (some ppn, self')) : FramesAfter l r self' (ppn :: live)
  | refuse {self self' : StackFrameAllocator} {live : List Nat} (before : FramesAfter l r self live)
      (call : self.alloc = (none, self')) : FramesAfter l r self' live
  | dealloc {self self' : StackFrameAllocator} {live : List Nat} {ppn : Nat} (before : FramesAfter l r self live)
      (held : ppn ∈ live) (call : self.dealloc ppn = .ok self') : FramesAfter l r self' (live.erase ppn)

structure FramesSound (l r : Nat) (frames : StackFrameAllocator) (live : List Nat) : Prop where
  distinct : live.Nodup
  inside : ∀ ppn ∈ live, l ≤ ppn ∧ ppn < r
  recycledDistinct : frames.recycled.Nodup
  apart : ∀ ppn ∈ live, ppn ∉ frames.recycled
  whole : ∀ ppn, ppn ∈ live ∨ ppn ∈ frames.recycled ↔ l ≤ ppn ∧ ppn < frames.current
  exhausted : frames.alloc.1 = none ↔ ∀ ppn, l ≤ ppn → ppn < r → ppn ∈ live
  accepts : ∀ ppn ∈ live, ∃ frames', frames.dealloc ppn = .ok frames'
  panics : ∀ ppn, l ≤ ppn → ppn < r → ppn ∉ live → frames.dealloc ppn = .error .frameNotAllocated

section
variable {l r ppn : Nat} {self self' : StackFrameAllocator} {live : List Nat}

structure FramesInv (l r : Nat) (frames : StackFrameAllocator) (live : List Nat) : Prop where
  recycles : Recycles l frames.current frames.recycled live
  le : frames.current ≤ r
  stop : frames.stop = r

theorem FramesInv.alloc (inv : FramesInv l r self live) (small : r < 2 ^ 44) (call : self.alloc = (some ppn, self')) :
    FramesInv l r self' (ppn :: live) := by
  have le := inv.le
  have stop := inv.stop
  unfold StackFrameAllocator.alloc at call
  split at call
  · next top rest stack =>
    obtain ⟨same, rfl⟩ := Prod.mk.inj call
    have recycles := inv.recycles
    rw [stack] at recycles
    have range := (recycles.whole top).mp (Or.inr List.mem_cons_self)
    have number : PhysPageNum.ofUsize top = top := Nat.mod_eq_of_lt (by omega)
    obtain rfl : top = ppn := by
      rw [number] at same
      exact Option.some.inj same
    exact ⟨recycles.takeFree, le, stop⟩
  · next stack =>
    by_cases full : self.current = self.stop
    · rw [if_pos full] at call
      cases call
    · rw [if_neg full] at call
      obtain ⟨same, rfl⟩ := Prod.mk.inj call
      have number : PhysPageNum.ofUsize self.current = self.current := Nat.mod_eq_of_lt (by omega)
      obtain rfl : self.current = ppn := by
        rw [number] at same
        exact Option.some.inj same
      exact ⟨inv.recycles.takeNext, show self.current + 1 ≤ r by omega, stop⟩

theorem alloc_none : self.alloc.1 = none ↔ self.recycled = [] ∧ self.current = self.stop := by
  unfold StackFrameAllocator.alloc
  cases self.recycled with
  | cons top rest => simp
  | nil =>
    by_cases full : self.current = self.stop
    · simp [full]
    · simp [full]

theorem alloc_refused (call : self.alloc = (none, self')) : self' = self := by
  unfold StackFrameAllocator.alloc at call
  split at call
  · cases call
  · by_cases full : self.current = self.stop
    · rw [if_pos full] at call
      exact (Prod.mk.inj call).2.symm
    · rw [if_neg full] at call
      cases call

theorem FramesInv.accepts (inv : FramesInv l r self live) (held : ppn ∈ live) :
    self.dealloc ppn = .ok { self with recycled := ppn :: self.recycled } := by
  obtain ⟨⟨_, below⟩, other⟩ := inv.recycles.mem_live_iff.mp held
  have allowed : ¬(self.current ≤ ppn ∨ self.recycled.contains ppn) := by
    rw [List.contains_iff_mem]
    exact not_or.mpr ⟨Nat.not_le.mpr below, other⟩
  rw [StackFrameAllocator.dealloc, if_neg allowed]

theorem FramesInv.dealloc (inv : FramesInv l r self live) (held : ppn ∈ live) (call : self.dealloc ppn = .ok self') :
    FramesInv l r self' (live.erase ppn) := by
  rw [inv.accepts held] at call
  obtain rfl := Except.ok.inj call
  exact ⟨inv.recycles.giveBack held, inv.le, inv.stop⟩

theorem FramesAfter.inv (ordered : l ≤ r) (small : r < 2 ^ 44) (after : FramesAfter l r self live) : FramesInv l r self live := by
  induction after with
  | init => exact ⟨Recycles.start l, ordered, rfl⟩
  | alloc _ call ih => exact ih.alloc small call
  | refuse _ call ih =>
    obtain rfl := alloc_refused call
    exact ih
  | dealloc _ held call ih => exact ih.dealloc held call

theorem FramesInv.sound (inv : FramesInv l r self live) : FramesSound l r self live := by
  have le := inv.le
  have stop := inv.stop
  have whole := inv.recycles.whole
  refine ⟨inv.recycles.liveDistinct, ?_, inv.recycles.freeDistinct, inv.recycles.apart, whole, ?_, ?_, ?_⟩
  · intro ppn held
    have range := (whole ppn).mp (Or.inl held)
    omega
  · rw [alloc_none]
    constructor
    · rintro ⟨none, full⟩ ppn low high
      rw [inv.recycles.mem_live_iff, none]
      exact ⟨by omega, List.not_mem_nil⟩
    · intro all
      have full : self.current = self.stop := by
        have first := inv.recycles.le
        by_contra room
        have last := (whole self.current).mp (Or.inl (all self.current first (by omega)))
        omega
      refine ⟨?_, full⟩
      rw [List.eq_nil_iff_forall_not_mem]
      intro ppn recycled
      have range := (whole ppn).mp (Or.inr recycled)
      exact inv.recycles.apart ppn (all ppn range.1 (by omega)) recycled
  · intro ppn held
    exact ⟨_, inv.accepts held⟩
  · intro ppn low _ other
    have refused : self.current ≤ ppn ∨ self.recycled.contains ppn := by
      rw [List.contains_iff_mem]
      by_contra allowed
      obtain ⟨below, fresh⟩ := not_or.mp allowed
      exact other (inv.recycles.mem_live_iff.mpr ⟨⟨low, Nat.not_le.mp below⟩, fresh⟩)
    rw [StackFrameAllocator.dealloc, if_pos refused]

end

/-- Live frames are distinct, in range and apart from the recycled ones, with which they make up all frames handed out
so far; `alloc` refuses exactly when all are live, and `dealloc` panics exactly for frames that are not. -/
theorem frame_allocator_sound {l r : Nat} (ordered : l ≤ r) (small : r < 2 ^ 44) {self : StackFrameAllocator} {live : List Nat}
    (after : FramesAfter l r self live) : FramesSound l r self live :=
  (after.inv ordered small).sound

/-- Two frames are handed out and one comes back. -/
theorem frame_allocator_sound_recycles : FramesSound 5 7 ⟨7, 7, [5]⟩ [6] := by
  have first : FramesAfter 5 7 ⟨6, 7, []⟩ [5] := .alloc .init rfl
  have second : FramesAfter 5 7 ⟨7, 7, []⟩ [6, 5] := .alloc first rfl
  have back : FramesAfter 5 7 ⟨7, 7, [5]⟩ ([6, 5].erase 5) := .dealloc second (by decide) rfl
  exact frame_allocator_sound (by decide) (by decide) back

end SecureIpc.Guarantees

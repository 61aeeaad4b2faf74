import Mathlib.Data.List.Basic
import Mathlib.Tactic.Common

/-!
Allocators of numbers that count upwards and recycle what is given back. `live` are the numbers handed out and
not given back, `free` those given back.
-/

namespace SecureIpc.Lib

/-- Live and free numbers are apart and make up the numbers from `first` to `next`. -/
structure Recycles (first next : Nat) (free live : List Nat) : Prop where
  le : first ≤ next
  liveDistinct : live.Nodup
  freeDistinct : free.Nodup
  apart : ∀ p ∈ live, p ∉ free
  whole : ∀ p, p ∈ live ∨ p ∈ free ↔ first ≤ p ∧ p < next

namespace Recycles
variable {first next p : Nat} {free live : List Nat}

theorem start (first : Nat) : Recycles first first [] [] where
  le := Nat.le_refl first
  liveDistinct := List.nodup_nil
  freeDistinct := List.nodup_nil
  apart := by simp
  whole p := by
    simp only [List.not_mem_nil, or_false, false_iff]
    omega

theorem mem_live_iff (recycles : Recycles first next free live) : p ∈ live ↔ (first ≤ p ∧ p < next) ∧ p ∉ free := by
  rw [← recycles.whole p]
  constructor
  · intro member
    exact ⟨Or.inl member, recycles.apart p member⟩
  · rintro ⟨member, other⟩
    exact member.resolve_right other

/-- A number given back is handed out again. -/
theorem takeFree (recycles : Recycles first next (p :: free) live) : Recycles first next free (p :: live) := by
  obtain ⟨fresh, distinct⟩ := List.nodup_cons.mp recycles.freeDistinct
  have other : p ∉ live := fun member => recycles.apart p member List.mem_cons_self
  refine ⟨recycles.le, List.nodup_cons.mpr ⟨other, recycles.liveDistinct⟩, distinct, ?_, ?_⟩
  · intro q member
    rcases List.mem_cons.mp member with rfl | old
    · exact fresh
    · exact fun again => recycles.apart q old (List.mem_cons_of_mem p again)
  · intro q
    rw [← recycles.whole q, List.mem_cons, List.mem_cons, or_assoc, or_left_comm]

/-- The next number is handed out. -/
theorem takeNext (recycles : Recycles first next free live) : Recycles first (next + 1) free (next :: live) := by
  have le := recycles.le
  have below : ∀ q, q ∈ live ∨ q ∈ free → q < next := fun q member => ((recycles.whole q).mp member).2
  refine ⟨Nat.le_succ_of_le le, List.nodup_cons.mpr ⟨?_, recycles.liveDistinct⟩, recycles.freeDistinct, ?_, ?_⟩
  · exact fun member => Nat.lt_irrefl next (below next (Or.inl member))
  · intro q member
    rcases List.mem_cons.mp member with rfl | old
    · exact fun again => Nat.lt_irrefl q (below q (Or.inr again))
    · exact recycles.apart q old
  · intro q
    rw [List.mem_cons, or_assoc, recycles.whole q]
    omega

/-- A live number is given back. -/
theorem giveBack (recycles : Recycles first next free live) (held : p ∈ live) :
    Recycles first next (p :: free) (live.erase p) := by
  have erased : ∀ q, q ∈ live.erase p ↔ q ≠ p ∧ q ∈ live := fun q => recycles.liveDistinct.mem_erase_iff
  refine ⟨recycles.le, recycles.liveDistinct.erase p, List.nodup_cons.mpr ⟨recycles.apart p held, recycles.freeDistinct⟩, ?_, ?_⟩
  · intro q member
    obtain ⟨different, old⟩ := (erased q).mp member
    exact List.not_mem_cons_of_ne_of_not_mem different (recycles.apart q old)
  · intro q
    rw [← recycles.whole q, erased q, List.mem_cons]
    by_cases same : q = p
    · simp [same, held]
    · simp [same]

end Recycles

end SecureIpc.Lib

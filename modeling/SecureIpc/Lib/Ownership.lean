import Mathlib.Data.List.Perm.Basic
import Mathlib.Data.List.Nodup
import Mathlib.Logic.Function.Basic
import Mathlib.Tactic.Common

/-!
Cells of a store that are handed out to holders. A holder may change the cells it owns, take cells
that are free and give cells back; `Evolves` says that everything it does not own stays as it is.
Several holders stay apart as long as each of them only evolves.
-/

namespace SecureIpc.Lib

/-- A store: its consistency, which cells are handed out, and what they hold. -/
structure Store (σ ι β : Type) where
  valid : σ → Prop
  live : σ → ι → Prop
  content : σ → ι → β

namespace Store
variable {σ ι β κ : Type} {S : Store σ ι β} {s t u : σ} {F G H X : List ι}

structure Owns (S : Store σ ι β) (s : σ) (F : List ι) : Prop where
  valid : S.valid s
  nodup : F.Nodup
  live : ∀ p ∈ F, S.live s p

/-- What a holder does that owns `F` before and `G` after. -/
structure Evolves (S : Store σ ι β) (s t : σ) (F G : List ι) : Prop where
  owns : S.Owns t G
  live : ∀ p, S.live s p → p ∉ F → S.live t p
  apart : ∀ p, S.live s p → p ∉ F → p ∉ G
  same : ∀ p, S.live s p → p ∉ F → S.content t p = S.content s p

theorem Owns.perm (owns : S.Owns s F) (perm : F.Perm G) : S.Owns s G :=
  ⟨owns.valid, perm.nodup_iff.mp owns.nodup, fun p member => owns.live p (perm.mem_iff.mpr member)⟩

theorem Owns.left (owns : S.Owns s (F ++ G)) : S.Owns s F :=
  ⟨owns.valid, owns.nodup.of_append_left, fun p member => owns.live p (List.mem_append_left G member)⟩

theorem Owns.right (owns : S.Owns s (F ++ G)) : S.Owns s G :=
  ⟨owns.valid, owns.nodup.of_append_right, fun p member => owns.live p (List.mem_append_right F member)⟩

theorem Owns.disjoint (owns : S.Owns s (F ++ G)) {p : ι} (left : p ∈ F) : p ∉ G :=
  fun right => (List.nodup_append.mp owns.nodup).2.2 p left p right rfl

theorem Owns.nil (valid : S.valid s) : S.Owns s [] := ⟨valid, List.nodup_nil, by simp⟩

theorem Evolves.refl (owns : S.Owns s F) : S.Evolves s s F F :=
  ⟨owns, fun _ live _ => live, fun _ _ other => other, fun _ _ _ => rfl⟩

theorem Evolves.trans (first : S.Evolves s t F G) (second : S.Evolves t u G H) : S.Evolves s u F H where
  owns := second.owns
  live p live other := second.live p (first.live p live other) (first.apart p live other)
  apart p live other := second.apart p (first.live p live other) (first.apart p live other)
  same p live other :=
    (second.same p (first.live p live other) (first.apart p live other)).trans (first.same p live other)

theorem Evolves.perm {F' G' : List ι} (step : S.Evolves s t F G) (before : F.Perm F') (after : G.Perm G') :
    S.Evolves s t F' G' where
  owns := step.owns.perm after
  live p live other := step.live p live fun member => other (before.mem_iff.mp member)
  apart p live other := fun member =>
    step.apart p live (fun mine => other (before.mem_iff.mp mine)) (after.mem_iff.mpr member)
  same p live other := step.same p live fun member => other (before.mem_iff.mp member)

theorem Evolves.frame (step : S.Evolves s t F G) (owns : S.Owns s (F ++ X)) : S.Evolves s t (F ++ X) (G ++ X) where
  owns := by
    have kept : ∀ p ∈ X, p ∉ F := fun p member mine => owns.disjoint mine member
    refine ⟨step.owns.valid, List.nodup_append.mpr ⟨step.owns.nodup, owns.right.nodup, ?_⟩, ?_⟩
    · intro p mine q rest same
      subst same
      exact step.apart p (owns.right.live p rest) (kept p rest) mine
    · intro p member
      rcases List.mem_append.mp member with mine | rest
      · exact step.owns.live p mine
      · exact step.live p (owns.right.live p rest) (kept p rest)
  live p live other := step.live p live fun mine => other (List.mem_append_left X mine)
  apart p live other := by
    have ⟨notMine, notRest⟩ := List.mem_append.not.mp other |> not_or.mp
    rw [List.mem_append, not_or]
    exact ⟨step.apart p live notMine, notRest⟩
  same p live other := step.same p live fun mine => other (List.mem_append_left X mine)

/-- The cells set aside by `frame` keep their contents. -/
theorem Evolves.frame_same (step : S.Evolves s t F G) (owns : S.Owns s (F ++ X)) {p : ι} (rest : p ∈ X) :
    S.content t p = S.content s p :=
  step.same p (owns.right.live p rest) fun mine => owns.disjoint mine rest

/-- A holder of other cells keeps them, with their contents. -/
theorem Evolves.owns_other (step : S.Evolves s t F G) (owns : S.Owns s H) (apart : ∀ p ∈ H, p ∉ F) : S.Owns t H :=
  ⟨step.owns.valid, owns.nodup, fun p theirs => step.live p (owns.live p theirs) (apart p theirs)⟩

theorem Evolves.apart_other (step : S.Evolves s t F G) (owns : S.Owns s H) (apart : ∀ p ∈ H, p ∉ F) : ∀ p ∈ H, p ∉ G :=
  fun p theirs => step.apart p (owns.live p theirs) (apart p theirs)

theorem Evolves.same_other (step : S.Evolves s t F G) (owns : S.Owns s H) (apart : ∀ p ∈ H, p ∉ F) :
    ∀ p ∈ H, S.content t p = S.content s p :=
  fun p theirs => step.same p (owns.live p theirs) (apart p theirs)

structure Separate (S : Store σ ι β) (s : σ) (owned : κ → List ι) : Prop where
  owns : ∀ k, S.Owns s (owned k)
  apart : ∀ j k, j ≠ k → ∀ p ∈ owned j, p ∉ owned k

variable {owned : κ → List ι}

theorem Separate.others {k : κ} (separate : S.Separate s owned) (step : S.Evolves s t (owned k) G) {j : κ}
    (other : j ≠ k) {p : ι} (theirs : p ∈ owned j) :
    S.live t p ∧ p ∉ G ∧ S.content t p = S.content s p := by
  have live := (separate.owns j).live p theirs
  have notMine := separate.apart j k other p theirs
  exact ⟨step.live p live notMine, step.apart p live notMine, step.same p live notMine⟩

theorem Separate.evolve [DecidableEq κ] {k : κ} (separate : S.Separate s owned)
    (step : S.Evolves s t (owned k) G) : S.Separate t (Function.update owned k G) where
  owns j := by
    by_cases same : j = k
    · subst same
      rw [Function.update_self]
      exact step.owns
    · rw [Function.update_of_ne same]
      exact ⟨step.owns.valid, (separate.owns j).nodup, fun p theirs => (separate.others step same theirs).1⟩
  apart i j different p member := by
    by_cases first : i = k
    · subst first
      rw [Function.update_self] at member
      rw [Function.update_of_ne (Ne.symm different)]
      exact fun theirs => (separate.others step (Ne.symm different) theirs).2.1 member
    · rw [Function.update_of_ne first] at member
      by_cases second : j = k
      · subst second
        rw [Function.update_self]
        exact (separate.others step first member).2.1
      · rw [Function.update_of_ne second]
        exact separate.apart i j different p member

end Store

end SecureIpc.Lib

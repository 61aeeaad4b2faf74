import SecureIpc.Lib.Program

/-!
Two runs of one program from related states. A program that does the same from both cannot tell them
apart; the rules follow the way programs are put together.
-/

namespace SecureIpc.Lib

section
variable {σ τ ε δ α β : Type} {R : σ → σ → Prop}

/-- Two runs end alike: with the same value in related states, or with the same error. -/
def Alike (R : σ → σ → Prop) : Except ε (α × σ) → Except ε (α × σ) → Prop
  | .ok (a, s), .ok (b, t) => a = b ∧ R s t
  | .error e, .error f => e = f
  | _, _ => False

def Blind (R : σ → σ → Prop) (p : Program σ ε α) : Prop := ∀ s t, R s t → Alike R (p s) (p t)

theorem Alike.bind {p q : Program σ ε β} {f : β → Program σ ε α} {s t : σ} (first : Alike R (p s) (q t))
    (rest : ∀ b, Blind R (f b)) : Alike R ((p >>= f) s) ((q >>= f) t) := by
  simp only [Bind.bind, StateT.bind, Except.bind]
  cases left : p s with
  | ok pair =>
    cases right : q t with
    | ok pair' =>
      rw [left, right] at first
      obtain ⟨same, related⟩ := first
      show Alike R (f pair.1 pair.2) (f pair'.1 pair'.2)
      rw [← same]
      exact rest pair.1 _ _ related
    | error e =>
      rw [left, right] at first
      exact first.elim
  | error e =>
    cases right : q t with
    | ok pair' =>
      rw [left, right] at first
      exact first.elim
    | error e' =>
      rw [left, right] at first
      exact first

namespace Blind

theorem pure (a : α) : Blind R (pure a : Program σ ε α) := fun _ _ related => ⟨rfl, related⟩

theorem throw (e : ε) : Blind R (throw e : Program σ ε α) := fun _ _ _ => rfl

theorem bind {p : Program σ ε β} {f : β → Program σ ε α} (first : Blind R p) (rest : ∀ b, Blind R (f b)) :
    Blind R (p >>= f) :=
  fun s t related => (first s t related).bind rest

theorem lift (x : Except ε α) : Blind R (Program.lift x : Program σ ε α) := by
  intro s t related
  cases x with
  | ok a => exact ⟨rfl, related⟩
  | error e => exact rfl

theorem zoom {view : σ → τ} {put : τ → σ → σ} {wrap : δ → ε} (p : Program τ δ α)
    (common : ∀ s t, R s t → view s = view t) (kept : ∀ s t part, R s t → R (put part s) (put part t)) :
    Blind R (Program.zoom view put wrap p) := by
  intro s t related
  unfold Program.zoom
  rw [common s t related]
  cases p (view t) with
  | ok pair => exact ⟨rfl, kept s t pair.2 related⟩
  | error e => exact rfl

end Blind

end

end SecureIpc.Lib

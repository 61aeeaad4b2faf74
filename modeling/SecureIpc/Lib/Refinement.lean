import SecureIpc.Lib.Program

/-!
An abstract machine with a precondition for each operation, and programs that refine it: related states
stay related, and each operation returns what the machine says.
-/

namespace SecureIpc.Lib

section
variable {σ ε ω ρ τ : Type}

structure Spec (ω ρ τ : Type) where
  allowed : τ → ω → Prop
  step : τ → ω → ρ × τ

namespace Spec
variable (spec : Spec ω ρ τ)

def Allows : τ → List ω → Prop
  | _, [] => True
  | a, op :: rest => spec.allowed a op ∧ Allows (spec.step a op).2 rest

def run : τ → List ω → List ρ × τ
  | a, [] => ([], a)
  | a, op :: rest =>
    let (result, next) := spec.step a op
    let (results, last) := run next rest
    (result :: results, last)

end Spec

def execAll (exec : ω → Program σ ε ρ) : List ω → Program σ ε (List ρ)
  | [] => pure []
  | op :: rest => do
    let result ← exec op
    let results ← execAll exec rest
    return result :: results

/-- Where an operation is allowed it returns the result of the abstract step, in a related state. -/
def Refines (exec : ω → Program σ ε ρ) (spec : Spec ω ρ τ) (related : σ → τ → Prop) : Prop :=
  ∀ s a op, related s a → spec.allowed a op →
    ∃ s', exec op s = .ok ((spec.step a op).1, s') ∧ related s' (spec.step a op).2

theorem Refines.run {exec : ω → Program σ ε ρ} {spec : Spec ω ρ τ} {related : σ → τ → Prop}
    (refines : Refines exec spec related) {s : σ} {a : τ} {ops : List ω} (start : related s a) (allows : spec.Allows a ops) :
    ∃ s', execAll exec ops s = .ok ((spec.run a ops).1, s') ∧ related s' (spec.run a ops).2 := by
  induction ops generalizing s a with
  | nil => exact ⟨s, rfl, start⟩
  | cons op rest ih =>
    obtain ⟨s₁, first, middle⟩ := refines s a op start allows.1
    obtain ⟨s₂, others, last⟩ := ih middle allows.2
    refine ⟨s₂, ?_, last⟩
    unfold execAll
    rw [run_bind first, run_bind others]
    rfl

end

end SecureIpc.Lib

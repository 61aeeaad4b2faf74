import Mathlib.Logic.Basic
import Mathlib.Tactic.Common

/-!
Programs over an explicit state that may stop with an error. `wp` is the weakest precondition of a
postcondition on returned values and a condition on errors; its rules follow the way programs are
put together, so that a specification is proved by taking the program apart.
-/

namespace SecureIpc.Lib

/-- A program that reads and writes a state and either returns or stops with an error. -/
abbrev Program (σ ε α : Type) := StateT σ (Except ε) α

section
variable {σ τ ε δ α β : Type}

namespace Program

/-- A computation that does not use the state. -/
def lift (x : Except ε α) : Program σ ε α := fun s =>
  match x with
  | .ok a => .ok (a, s)
  | .error e => .error e

def read (f : σ → α) : Program σ ε α := fun s => .ok (f s, s)

/-- A program on a part of the state, with its own errors. -/
def zoom (view : σ → τ) (put : τ → σ → σ) (wrap : δ → ε) (p : Program τ δ α) : Program σ ε α := fun s =>
  match p (view s) with
  | .ok (a, t) => .ok (a, put t s)
  | .error e => .error (wrap e)

end Program

/-- From `s`, `p` returns with `Q` or stops with `E`. -/
def wp (p : Program σ ε α) (Q : α → σ → Prop) (E : ε → Prop) (s : σ) : Prop :=
  match p s with
  | .ok (a, t) => Q a t
  | .error e => E e

variable {Q : α → σ → Prop} {E : ε → Prop} {s : σ}

theorem wp_ok {p : Program σ ε α} {a : α} {t : σ} (spec : wp p Q E s) (run : p s = .ok (a, t)) : Q a t := by
  rwa [wp, run] at spec

theorem wp_error {p : Program σ ε α} {e : ε} (spec : wp p Q E s) (run : p s = .error e) : E e := by
  rwa [wp, run] at spec

theorem wp_of_run {p : Program σ ε α} {a : α} {t : σ} (run : p s = .ok (a, t)) (holds : Q a t) : wp p Q E s := by
  unfold wp
  rw [run]
  exact holds

theorem wp_returns {p : Program σ ε α} (spec : wp p Q (fun _ => False) s) : ∃ a t, p s = .ok (a, t) ∧ Q a t := by
  unfold wp at spec
  cases run : p s with
  | ok pair =>
    rw [run] at spec
    exact ⟨pair.1, pair.2, rfl, spec⟩
  | error e =>
    rw [run] at spec
    exact spec.elim

theorem wp_intro {p : Program σ ε α} (returns : ∀ a t, p s = .ok (a, t) → Q a t)
    (stops : ∀ e, p s = .error e → E e) : wp p Q E s := by
  unfold wp
  split
  · exact returns _ _ ‹_›
  · exact stops _ ‹_›

theorem wp_mono {p : Program σ ε α} {Q' : α → σ → Prop} {E' : ε → Prop} (spec : wp p Q E s)
    (returns : ∀ a t, Q a t → Q' a t) (stops : ∀ e, E e → E' e) : wp p Q' E' s :=
  wp_intro (fun a t run => returns a t (wp_ok spec run)) fun e run => stops e (wp_error spec run)

theorem wp_returns_of {p : Program σ ε α} (spec : wp p Q E s) (never : ∀ e, ¬E e) : ∃ a t, p s = .ok (a, t) ∧ Q a t :=
  wp_returns (wp_mono spec (fun _ _ post => post) never)

theorem wp_and {p : Program σ ε α} {Q' : α → σ → Prop} {E' : ε → Prop} (first : wp p Q E s) (second : wp p Q' E' s) :
    wp p (fun a t => Q a t ∧ Q' a t) (fun e => E e ∧ E' e) s :=
  wp_intro (fun _ _ run => ⟨wp_ok first run, wp_ok second run⟩) fun _ run => ⟨wp_error first run, wp_error second run⟩

@[simp] theorem wp_pure {a : α} : wp (pure a : Program σ ε α) Q E s ↔ Q a s := Iff.rfl

@[simp] theorem wp_bind {p : Program σ ε β} {f : β → Program σ ε α} :
    wp (p >>= f) Q E s ↔ wp p (fun b t => wp (f b) Q E t) E s := by
  simp only [wp, bind, StateT.bind, Except.bind]
  cases p s <;> rfl

@[simp] theorem wp_read {f : σ → α} : wp (Program.read f) Q E s ↔ Q (f s) s := Iff.rfl

@[simp] theorem wp_modify {f : σ → σ} {Q : PUnit → σ → Prop} :
    wp (modify f : Program σ ε PUnit) Q E s ↔ Q ⟨⟩ (f s) := Iff.rfl

@[simp] theorem wp_throw {e : ε} : wp (throw e : Program σ ε α) Q E s ↔ E e := Iff.rfl

@[simp] theorem wp_lift_ok {a : α} : wp (Program.lift (.ok a)) Q E s ↔ Q a s := Iff.rfl

@[simp] theorem wp_lift_error {e : ε} : wp (Program.lift (.error e) : Program σ ε α) Q E s ↔ E e := Iff.rfl

theorem wp_lift {x : Except ε α} (returns : ∀ a, x = .ok a → Q a s) (stops : ∀ e, x = .error e → E e) :
    wp (Program.lift x) Q E s := by
  cases x with
  | ok a => exact returns a rfl
  | error e => exact stops e rfl

@[simp] theorem wp_ite {c : Prop} [Decidable c] {p q : Program σ ε α} :
    wp (if c then p else q) Q E s ↔ if c then wp p Q E s else wp q Q E s := by
  split <;> rfl

theorem wp_zoom {view : σ → τ} {put : τ → σ → σ} {wrap : δ → ε} {p : Program τ δ α}
    (spec : wp p (fun a t => Q a (put t s)) (fun e => E (wrap e)) (view s)) :
    wp (Program.zoom view put wrap p) Q E s := by
  unfold wp at spec
  unfold wp Program.zoom
  cases run : p (view s) with
  | ok pair => rw [run] at spec; exact spec
  | error e => rw [run] at spec; exact spec

theorem run_bind {p : Program σ ε β} {f : β → Program σ ε α} {b : β} {t : σ} (run : p s = .ok (b, t)) :
    (p >>= f) s = f b t := by
  simp only [bind, StateT.bind, run, Except.bind]

theorem bind_ok {x : Except ε β} {f : β → Except ε α} {a : α} (run : (x >>= f) = .ok a) :
    ∃ b, x = .ok b ∧ f b = .ok a := by
  cases x with
  | ok b => exact ⟨b, rfl, run⟩
  | error e => cases run

end

end SecureIpc.Lib

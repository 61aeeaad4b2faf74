import SecureIpc.Run.Step

/-! Invariants of whole runs: what every act, mark and start of a task keeps, every step keeps. -/

namespace SecureIpc
open Lib

section
variable {P : Platform} {k k' : Kernel P} {s s' : System P} {I : Kernel P → Prop}

/-- `I` is kept by what a task does from when it is started or traps until it leaves the kernel. -/
structure Lasting (I : Kernel P → Prop) : Prop where
  act : ∀ {k k'}, Act k k' → Sound k → I k → I k'
  mark : ∀ {k k'}, Marked k k' → I k → I k'
  note : ∀ {k observation}, Noted k observation → I k → I (k.observe observation)

/-- `I` is kept by everything that happens in a run of a sound kernel. -/
structure Invariant (I : Kernel P → Prop) : Prop extends Lasting I where
  resume : ∀ {k k'}, Resumed k k' → Sound k → I k → I k'

theorem Lasting.acts (lasting : Lasting I) (acts : TrapActs s s') (sound : Sound s.kernel) (holds : I s.kernel) :
    I s'.kernel := by
  induction acts with
  | refl => exact holds
  | tail before next ih =>
    rcases next.cases with act | ⟨observation, noted, same⟩
    · exact lasting.act act (TrapActs.sound before sound) ih
    · rw [same]
      exact lasting.note noted ih

theorem Lasting.finishes (lasting : Lasting I) (finishes : Finishes s s') (sound : Sound s.kernel) (holds : I s.kernel) :
    I s'.kernel := by
  cases finishes with
  | quiet acts => exact lasting.acts acts sound holds
  | tail acts current ended =>
    have sound₁ := acts.sound sound
    have tail := (wp_ok (trapTail_ends sound₁ current) ended).1
    exact (tail.keeps (fun _ _ act => lasting.act act) (fun _ _ marked => lasting.mark marked) sound₁
      (lasting.acts acts sound holds)).2

theorem Invariant.started (inv : Invariant I) {now : Nat} {consoleInput : List Nat}
    (started : k' = { k with now, consoleInput } ∨ Resumed { k with now, consoleInput } k') (sound : Sound k) (holds : I k) :
    I k' := by
  have prepared : Act k { k with now, consoleInput } := .environment now consoleInput
  have ready := inv.act prepared sound holds
  rcases started with rfl | resumed
  · exact ready
  · exact inv.resume resumed (prepared.sound sound) ready

theorem Invariant.step (inv : Invariant I) (acts : StepActs s s') (sound : Sound s.kernel) (holds : I s.kernel) :
    I s'.kernel := by
  obtain ⟨now, consoleInput, k, started, finishes⟩ := acts
  exact inv.finishes finishes (started_sound sound started) (inv.started started sound holds)

/-- The kernel is in state `k` in the middle of a step from `s`. -/
def Passes (s : System P) (k : Kernel P) : Prop :=
  ∃ now consoleInput k₀ s₁, (k₀ = { s.kernel with now, consoleInput } ∨ Resumed { s.kernel with now, consoleInput } k₀) ∧
    TrapActs { s with kernel := k₀ } s₁ ∧ s₁.kernel = k

theorem Passes.self : Passes s s.kernel := ⟨s.kernel.now, s.kernel.consoleInput, s.kernel, s, Or.inl rfl, .refl, rfl⟩

theorem Passes.sound (passes : Passes s k) (sound : Sound s.kernel) : Sound k := by
  obtain ⟨now, consoleInput, k₀, s₁, started, acts, rfl⟩ := passes
  exact acts.sound (started_sound sound started)

theorem Invariant.passes (inv : Invariant I) (passes : Passes s k) (sound : Sound s.kernel) (holds : I s.kernel) :
    Sound k ∧ I k := by
  refine ⟨passes.sound sound, ?_⟩
  obtain ⟨now, consoleInput, k₀, s₁, started, acts, rfl⟩ := passes
  exact inv.acts acts (started_sound sound started) (inv.started started sound holds)

theorem Invariant.reachable (inv : Invariant I) (start : ∀ k, Booted k → I k) (reachable : Reachable s) : I s.kernel := by
  induction reachable with
  | boot booted => exact start _ (boot_booted booted).1
  | step before event stepped ih => exact inv.step (step_acts before.sound stepped) before.sound ih

/-! ### The file system -/

/-- What the operations of the file system keep, the kernel keeps. -/
theorem keeps_invariant (inv : FsInvariant P.fs) : Invariant fun k : Kernel P => inv.Keeps k.inodes k.disk where
  act act _ keeps := by
    cases act with
    | files _ _ _ _ onward => exact onward inv keeps
    | _ => exact keeps
  mark marked keeps := by
    cases marked
    exact keeps
  note _ keeps := keeps
  resume resumed _ keeps := by
    cases resumed
    exact keeps

theorem Reachable.keepsFiles (reachable : Reachable s) {inv : FsInvariant P.fs} (start : inv.disk P.disk) :
    inv.Keeps s.kernel.inodes s.kernel.disk :=
  (keeps_invariant inv).reachable (fun _ booted => booted.files inv start) reachable

theorem Passes.keepsFiles (passes : Passes s k) (reachable : Reachable s) {inv : FsInvariant P.fs} (start : inv.disk P.disk) :
    inv.Keeps k.inodes k.disk :=
  ((keeps_invariant inv).passes passes reachable.sound (reachable.keepsFiles start)).2

end

end SecureIpc

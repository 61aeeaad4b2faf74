import SecureIpc.Mm.UserSpace
import SecureIpc.Task.Process

/-! The arguments of `exec` on the new user stack. -/

namespace SecureIpc
open Lib

section
variable {layout : Layout} {mm mm' : Mm} {self : MemorySet}

/-! ### Where the arguments can be written -/

theorem argumentRef_spec (user : UserSpace layout mm self) (addr size : Nat) :
    wp (argumentRef self.token addr size) (fun pa mm' => mm' = mm ∧ ∀ i < size, (pa + i) / 4096 ∈ self.userFrames)
      (· = .argumentArea) mm := by
  unfold argumentRef
  simp only [wp_bind, wp_read]
  cases found : tryTranslatedRefmut mm.mem self.token addr size size with
  | none => exact rfl
  | some pa => exact ⟨rfl, user.refmut found⟩

theorem storeArgument_stored {pa : Nat} {bytes : List UInt8} (inside : ∀ i < bytes.length, (pa + i) / 4096 ∈ self.userFrames) :
    wp (storeArgument pa bytes) (fun _ mm' => Stored mm mm' self.userFrames) (· = .argumentArea) mm :=
  store_stored inside

theorem argumentSlots_spec (user : UserSpace layout mm self) (count base : Nat) :
    wp (argumentSlots self.token count base) (fun slots mm' => mm' = mm ∧
      ∀ slot ∈ slots, ∀ i < 8, (slot + i) / 4096 ∈ self.userFrames) (· = .argumentArea) mm := by
  induction count generalizing base with
  | zero => exact ⟨rfl, nofun⟩
  | succ count ih =>
    unfold argumentSlots
    apply wp_bind.mpr
    refine wp_mono (argumentRef_spec user base 8) ?_ fun _ failed => failed
    intro slot mm₁ both
    obtain ⟨same, inside⟩ := both
    subst same
    apply wp_bind.mpr
    refine wp_mono (ih ((base + 8) % 2 ^ 64)) ?_ fun _ failed => failed
    intro slots mm₂ both
    obtain ⟨same, others⟩ := both
    refine ⟨same, fun one member => ?_⟩
    rcases List.mem_cons.mp member with rfl | later
    · exact inside
    · exact others one later

theorem pushByte_stored (user : UserSpace layout mm self) (p : Nat) (byte : UInt8) :
    wp (argumentRef self.token p 1 >>= fun pa => storeArgument pa [byte]) (fun _ mm' => Stored mm mm' self.userFrames)
      (· = .argumentArea) mm := by
  apply wp_bind.mpr
  refine wp_mono (argumentRef_spec user p 1) ?_ fun _ failed => failed
  intro pa mm₁ both
  obtain ⟨same, inside⟩ := both
  subst same
  exact storeArgument_stored inside

theorem pushString_stored (user : UserSpace layout mm self) (p : Nat) (arg : Utf8) :
    wp (pushString self.token p arg) (fun _ mm' => Stored mm mm' self.userFrames) (· = .argumentArea) mm := by
  induction arg generalizing mm p with
  | nil => exact pushByte_stored user p 0
  | cons c rest ih =>
    unfold pushString
    rw [← bind_assoc]
    apply wp_bind.mpr
    refine wp_mono (pushByte_stored user p c) ?_ fun _ failed => failed
    intro _ mm₁ first
    refine wp_mono (ih (user.stored first fun _ => userFrames_subset) ((p + 1) % 2 ^ 64)) ?_ fun _ failed => failed
    exact fun _ _ more => first.trans more

theorem pushStrings_stored (user : UserSpace layout mm self) (args : List Utf8) (slots : List Nat) (userSp : Nat)
    (inside : ∀ slot ∈ slots, ∀ i < 8, (slot + i) / 4096 ∈ self.userFrames) :
    wp (pushStrings self.token args slots userSp) (fun _ mm' => Stored mm mm' self.userFrames) (· = .argumentArea) mm := by
  induction args generalizing mm slots userSp with
  | nil => exact .refl mm _
  | cons arg args ih =>
    cases slots with
    | nil => exact .refl mm _
    | cons slot slots =>
      unfold pushStrings
      dsimp only
      apply wp_bind.mpr
      have whole : ∀ i < (toBytes 8 (subWrap userSp (arg.length + 1))).length, (slot + i) / 4096 ∈ self.userFrames := by
        rw [toBytes_length]
        exact inside slot List.mem_cons_self
      refine wp_mono (storeArgument_stored whole) ?_ fun _ failed => failed
      intro _ mm₁ first
      have user₁ := user.stored first fun _ => userFrames_subset
      apply wp_bind.mpr
      refine wp_mono (pushString_stored user₁ _ arg) ?_ fun _ failed => failed
      intro _ mm₂ second
      have user₂ := user₁.stored second fun _ => userFrames_subset
      refine wp_mono (ih user₂ slots _ fun one later => inside one (List.mem_cons_of_mem _ later)) ?_ fun _ failed => failed
      exact fun _ _ more => (first.trans second).trans more

theorem pushArguments_stored (user : UserSpace layout mm self) (userSp : Nat) (args : List Utf8) :
    wp (pushArguments self.token userSp args) (fun _ mm' => Stored mm mm' self.userFrames)
      (fun fault => fault = .argumentArea ∨ fault = .index) mm := by
  unfold pushArguments
  dsimp only
  apply wp_bind.mpr
  refine wp_mono (argumentSlots_spec user _ _) ?_ fun _ failed => Or.inl failed
  intro slots mm₁ both
  obtain ⟨same, inside⟩ := both
  subst same
  cases last : slots[args.length]? with
  | none => exact Or.inr rfl
  | some slot =>
    dsimp only
    have whole : ∀ i < (toBytes 8 0).length, (slot + i) / 4096 ∈ self.userFrames := by
      rw [toBytes_length]
      exact inside slot (List.mem_of_getElem? last)
    apply wp_bind.mpr
    refine wp_mono (storeArgument_stored whole) ?_ fun _ failed => Or.inl failed
    intro _ mm₂ first
    apply wp_bind.mpr
    refine wp_mono (pushStrings_stored (user.stored first fun _ => userFrames_subset) args slots _ inside) ?_ fun _ failed => Or.inl failed
    exact fun _ _ more => first.trans more

end

end SecureIpc

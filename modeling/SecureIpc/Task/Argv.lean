import SecureIpc.Mm.UserView
import SecureIpc.Task.Process

/-!
What `exec` puts on the new stack. The pointers of `argv` lie at the top, and the strings below
them, one under the other; `pushArguments` succeeds exactly when the program can write all of it.
-/

namespace SecureIpc
open Lib

/-- The program's memory has become `view`; its pages are mapped as before. -/
structure Becomes (mm mm' : Mm) (token : Nat) (view : Memory) : Prop where
  allocator : mm'.frames = mm.frames
  table : SameTable mm.mem mm'.mem token
  shows : Shows mm'.mem token view

section
variable {mm mm' mm'' : Mm} {token addr size pa p sp base : Nat} {view view' : Memory}

theorem Becomes.trans (first : Becomes mm mm' token view) (second : Becomes mm' mm'' token view') :
    Becomes mm mm'' token view' :=
  ⟨second.allocator.trans first.allocator, first.table.trans second.table, second.shows⟩

/-! ### One reference, one string -/

theorem argumentRef_rule (divides : size ∣ 4096) (aligned : addr % size = 0) :
    wp (argumentRef token addr size) (fun pa mm' => mm' = mm ∧ Refers mm.mem token addr size pa)
      (fun fault => fault = .argumentArea ∧ ¬(addr ≠ 0 ∧ UserRange mm.mem token addr size true)) mm := by
  unfold argumentRef
  simp only [wp_bind, wp_read]
  cases found : tryTranslatedRefmut mm.mem token addr size size with
  | none =>
    refine ⟨rfl, fun both => ?_⟩
    obtain ⟨nonzero, range⟩ := both
    obtain ⟨pa, success⟩ := tryTranslatedRefmut_some nonzero aligned divides range
    cases found.symm.trans success
  | some pa => exact ⟨rfl, tryTranslatedRefmut_refers found⟩

theorem storeArgument_rule {bytes : List UInt8} (shows : Shows mm.mem token view)
    (refers : Refers mm.mem token addr size pa) (whole : bytes.length = size) :
    wp (storeArgument pa bytes) (fun _ mm' => Becomes mm mm' token (view.store addr bytes)) (fun _ => False) mm := by
  obtain ⟨table, stored⟩ := shows.store refers whole
  exact ⟨rfl, table, stored⟩

theorem pushByte_rule (shows : Shows mm.mem token view) (byte : UInt8) :
    wp (argumentRef token p 1 >>= fun pa => storeArgument pa [byte])
      (fun _ mm' => (p ≠ 0 ∧ UserRange mm.mem token p 1 true) ∧ Becomes mm mm' token (view.store p [byte]))
      (fun fault => fault = .argumentArea ∧ ¬(p ≠ 0 ∧ UserRange mm.mem token p 1 true)) mm := by
  rw [wp_bind]
  refine wp_mono (argumentRef_rule (Nat.one_dvd _) (Nat.mod_one p)) ?_ fun _ failed => failed
  intro pa mm₁ both
  obtain ⟨same, refers⟩ := both
  subst same
  refine wp_mono (storeArgument_rule shows refers rfl) ?_ fun _ impossible => impossible.elim
  exact fun _ _ becomes => ⟨⟨refers.nonzero, refers.range⟩, becomes⟩

theorem pushString_rule (shows : Shows mm.mem token view) (arg : Utf8) :
    wp (pushString token p arg)
      (fun _ mm' => (p ≠ 0 ∧ UserRange mm.mem token p (arg.length + 1) true) ∧ Becomes mm mm' token (view.store p (arg ++ [0])))
      (fun fault => fault = .argumentArea ∧ ¬(p ≠ 0 ∧ UserRange mm.mem token p (arg.length + 1) true)) mm := by
  induction arg generalizing mm p view with
  | nil => exact pushByte_rule shows 0
  | cons c rest ih =>
    unfold pushString
    rw [← bind_assoc, wp_bind]
    refine wp_mono (pushByte_rule shows c) ?_ fun _ failed => ⟨failed.1, fun whole =>
      failed.2 ⟨whole.1, whole.2.shorter (Nat.le_add_left _ _)⟩⟩
    intro _ mm₁ both
    obtain ⟨⟨nonzero, first⟩, becomes⟩ := both
    have limit := first.1
    rw [Nat.mod_eq_of_lt (show p + 1 < 2 ^ 64 by omega)]
    refine wp_mono (ih becomes.shows) ?_ fun _ failed => ⟨failed.1, fun whole => failed.2 ⟨Nat.succ_ne_zero p, ?_⟩⟩
    · intro _ mm₂ both
      obtain ⟨⟨_, later⟩, more⟩ := both
      have all := first.append (becomes.table.range.mp later)
      rw [Nat.add_comm 1] at all
      refine ⟨⟨nonzero, all⟩, ?_⟩
      have stores := view.store_append p [c] (rest ++ [0])
      rw [List.singleton_append, ← List.cons_append] at stores
      rw [stores]
      exact becomes.trans more
    · refine becomes.table.range.mpr (whole.2.part (Nat.le_add_right _ _) ?_)
      rw [List.length_cons]
      omega

/-! ### All arguments -/

def stringBytes (args : List Utf8) : Nat := (args.map fun arg => arg.length + 1).sum

def argumentBytes (args : List Utf8) : Nat := (args.length + 1) * 8 + stringBytes args

@[simp] theorem stringBytes_nil : stringBytes [] = 0 := rfl

@[simp] theorem stringBytes_cons (arg : Utf8) (args : List Utf8) : stringBytes (arg :: args) = arg.length + 1 + stringBytes args := rfl

/-- In `view` there are pointers from `base` on to the arguments, which lie one below the other under `sp`. -/
inductive Arguments (view : Memory) : Nat → Nat → List Utf8 → Prop where
  | nil (base sp : Nat) : Arguments view base sp []
  | cons {base sp : Nat} {arg : Utf8} {args : List Utf8} (pointer : view.readWord base = sp - (arg.length + 1))
      (string : view.load (sp - (arg.length + 1)) (arg.length + 1) = arg ++ [0])
      (rest : Arguments view (base + 8) (sp - (arg.length + 1)) args) : Arguments view base sp (arg :: args)

theorem subWrap_eq {a b : Nat} (less : b ≤ a) (word : a < 2 ^ 64) : subWrap a b = a - b := by
  unfold subWrap
  omega

theorem subWrap_large {a b : Nat} (less : a < b) (low : a ≤ 2 ^ 38) (small : b ≤ 2 ^ 32) : 2 ^ 38 ≤ subWrap a b := by
  unfold subWrap
  omega

/-- The first argument stays in place when the others are put below it. -/
theorem Arguments.first {arg : Utf8} {args : List Utf8} (fits : arg.length + 1 ≤ sp) (apart : sp ≤ base) (word : sp < 2 ^ 64)
    (rest : Arguments view' (base + 8) (sp - (arg.length + 1)) args)
    (same : ∀ x, sp - (arg.length + 1) ≤ x → x < base + 8 → view' x =
      ((view.store base (toBytes 8 (sp - (arg.length + 1)))).store (sp - (arg.length + 1)) (arg ++ [0])) x) :
    Arguments view' base sp (arg :: args) := by
  have size : (arg ++ [0]).length = arg.length + 1 := List.length_append
  refine .cons ?_ ?_ rest
  · have word' : view'.readWord base = (view.writeWord base (sp - (arg.length + 1))).readWord base := by
      refine Memory.readWord_congr fun i inside => ?_
      rw [same (base + i) (by omega) (by omega), Memory.store_outside (by rw [size]; omega)]
      rfl
    rw [word', Memory.readWord_writeWord_same]
    exact Nat.mod_eq_of_lt (by omega)
  · have loaded := (view.store base (toBytes 8 (sp - (arg.length + 1)))).load_store_same (sp - (arg.length + 1)) (arg ++ [0])
    rw [size] at loaded
    rw [← loaded]
    exact Memory.load_congr fun i inside => same _ (by omega) (by omega)

/-- The strings go below `sp`, and their pointers from `base` on. -/
theorem pushStrings_rule (shows : Shows mm.mem token view) {args : List Utf8} {slots : List Nat}
    (short : ∀ arg ∈ args, arg.length < 2 ^ 32) (enough : slots.length = args.length + 1)
    (refers : ∀ i (inside : i < slots.length), Refers mm.mem token (base + 8 * i) 8 slots[i])
    (apart : sp ≤ base) (positive : 0 < sp) (low : sp ≤ 2 ^ 38) :
    wp (pushStrings token args slots sp) (fun r mm' =>
      (stringBytes args < sp ∧ UserRange mm.mem token (sp - stringBytes args) (stringBytes args) true) ∧
        r = sp - stringBytes args ∧ ∃ view', Becomes mm mm' token view' ∧ Arguments view' base sp args ∧
          ∀ x, (x < sp - stringBytes args ∨ sp ≤ x) → (x < base ∨ base + 8 * args.length ≤ x) → view' x = view x)
      (fun fault => fault = .argumentArea ∧
        ¬(stringBytes args < sp ∧ UserRange mm.mem token (sp - stringBytes args) (stringBytes args) true)) mm := by
  induction args generalizing mm view slots sp base with
  | nil =>
    have none : pushStrings token [] slots sp = pure sp := by cases slots <;> rfl
    rw [none, wp_pure, stringBytes_nil, Nat.sub_zero]
    exact ⟨⟨positive, low, fun a least below => by omega⟩, rfl, view, ⟨rfl, .refl _ _, shows⟩, .nil base sp, fun _ _ _ => rfl⟩
  | cons arg args ih =>
    obtain ⟨slot, slots, rfl⟩ := List.exists_cons_of_length_pos (show 0 < slots.length by omega)
    have small := short arg List.mem_cons_self
    unfold pushStrings
    dsimp only
    rw [wp_bind]
    generalize moved : subWrap sp (arg.length + 1) = sp'
    refine wp_mono (storeArgument_rule shows (refers 0 (Nat.succ_pos _)) (toBytes_length 8 sp')) ?_ fun _ impossible => impossible.elim
    intro _ mm₁ pointed
    rw [wp_bind]
    refine wp_mono (pushString_rule pointed.shows arg) ?_ fun _ failed => ⟨failed.1, fun whole => failed.2 ?_⟩
    · intro _ mm₂ both
      obtain ⟨⟨nonzero, range⟩, pushed⟩ := both
      have fits : arg.length + 1 ≤ sp := by
        by_contra wraps
        have large := subWrap_large (Nat.lt_of_not_le wraps) low (by omega)
        have limit := range.1
        omega
      have lower : sp' = sp - (arg.length + 1) := moved.symm.trans (subWrap_eq fits (by omega))
      have first := pointed.trans pushed
      have range := pointed.table.range.mp range
      have later : ∀ i (inside : i < slots.length), Refers mm₂.mem token (base + 8 + 8 * i) 8 slots[i] := by
        intro i inside
        have next := refers (i + 1) (Nat.succ_lt_succ inside)
        rw [show base + 8 * (i + 1) = base + 8 + 8 * i by omega] at next
        exact first.table.refers next
      refine wp_mono (ih first.shows (fun other member => short other (List.mem_cons_of_mem _ member)) (Nat.succ.inj enough) later
        (by omega) (by omega) (by omega)) ?_ fun _ failed => ⟨failed.1, fun whole => failed.2 ?_⟩
      · intro r mm₃ both
        obtain ⟨⟨less, rest⟩, stopped, view', becomes, arguments, same⟩ := both
        have below := (first.table.range.mp rest).append (show UserRange mm.mem token _ (arg.length + 1) true by
          rw [Nat.sub_add_cancel (Nat.le_of_lt less)]
          exact range)
        rw [stringBytes_cons]
        subst lower
        have start : sp - (arg.length + 1) - stringBytes args = sp - (arg.length + 1 + stringBytes args) := by omega
        rw [start, Nat.add_comm (stringBytes args)] at below
        rw [start] at stopped same
        have size : (arg ++ [0]).length = arg.length + 1 := List.length_append
        refine ⟨⟨by omega, below⟩, stopped, view', first.trans becomes, ?_, fun x outside other => ?_⟩
        · refine Arguments.first fits apart (by omega) arguments fun x above under => same x (Or.inr above) (Or.inl under)
        · rw [List.length_cons] at other
          rw [same x (by omega) (by omega), Memory.store_outside (by rw [size]; omega),
            Memory.store_outside (by rw [toBytes_length]; omega)]
      · rw [stringBytes_cons] at whole
        refine ⟨by omega, first.table.range.mpr (whole.2.part ?_ ?_)⟩ <;> omega
    · rw [stringBytes_cons] at whole
      have fits : arg.length + 1 ≤ sp := by omega
      have lower : sp' = sp - (arg.length + 1) := moved.symm.trans (subWrap_eq fits (by omega))
      refine ⟨by omega, pointed.table.range.mpr (whole.2.part ?_ ?_)⟩ <;> omega

structure ArgumentBlock (view view' : Memory) (top : Nat) (args : List Utf8) : Prop where
  arguments : Arguments view' (top - (args.length + 1) * 8) (top - (args.length + 1) * 8) args
  last : view'.readWord (top - 8) = 0
  same : ∀ x, (x < top - argumentBytes args ∨ top ≤ x) → view' x = view x

theorem argumentSlots_rule {count : Nat} (aligned : base % 8 = 0) :
    wp (argumentSlots token count base) (fun slots mm' => mm' = mm ∧ slots.length = count ∧
      (count ≠ 0 → base ≠ 0 ∧ UserRange mm.mem token base (8 * count) true) ∧
        ∀ i (inside : i < slots.length), Refers mm.mem token (base + 8 * i) 8 slots[i])
      (fun fault => fault = .argumentArea ∧ ¬(base ≠ 0 ∧ UserRange mm.mem token base (8 * count) true)) mm := by
  induction count generalizing base with
  | zero => exact ⟨rfl, rfl, fun none => absurd rfl none, nofun⟩
  | succ count ih =>
    unfold argumentSlots
    rw [wp_bind]
    refine wp_mono (argumentRef_rule (by decide) aligned) ?_ fun _ failed => ⟨failed.1, fun whole =>
      failed.2 ⟨whole.1, whole.2.shorter (by omega)⟩⟩
    intro slot mm₁ both
    obtain ⟨same, refers⟩ := both
    subst same
    have limit := refers.range.1
    rw [Nat.mod_eq_of_lt (show base + 8 < 2 ^ 64 by omega), wp_bind]
    refine wp_mono (ih (by omega)) ?_ fun _ failed => ⟨failed.1, fun whole => failed.2 ⟨by omega, whole.2.part (by omega) (by omega)⟩⟩
    intro slots mm₂ both
    obtain ⟨same, size, range, others⟩ := both
    refine ⟨same, congrArg Nat.succ size, fun _ => ⟨refers.nonzero, ?_⟩, fun i inside => ?_⟩
    · by_cases none : count = 0
      · rw [none]
        exact refers.range
      · have all := refers.range.append (range none).2
        rwa [show 8 + 8 * count = 8 * (count + 1) by omega] at all
    · cases i with
      | zero => exact refers
      | succ i =>
        have next := others i (Nat.lt_of_succ_lt_succ inside)
        rwa [show base + 8 + 8 * i = base + 8 * (i + 1) by omega] at next

/-- The arguments are put below `top` exactly when the program can write there. -/
theorem pushArguments_rule (shows : Shows mm.mem token view) {top : Nat} {args : List Utf8} (aligned : top % 8 = 0)
    (word : top < 2 ^ 64) (short : ∀ arg ∈ args, arg.length < 2 ^ 32) (few : args.length < 2 ^ 16) :
    wp (pushArguments token top args) (fun r mm' =>
      (argumentBytes args < top ∧ UserRange mm.mem token (top - argumentBytes args) (argumentBytes args) true) ∧
        r = (top - (args.length + 1) * 8, (top - argumentBytes args) - (top - argumentBytes args) % 8) ∧
        ∃ view', Becomes mm mm' token view' ∧ ArgumentBlock view view' top args)
      (fun fault => fault = .argumentArea ∧
        ¬(argumentBytes args < top ∧ UserRange mm.mem token (top - argumentBytes args) (argumentBytes args) true)) mm := by
  have total : argumentBytes args = (args.length + 1) * 8 + stringBytes args := rfl
  unfold pushArguments
  dsimp only
  generalize moved : subWrap top ((args.length + 1) * 8) = base
  have aligned' : base % 8 = 0 := by
    rw [← moved]
    unfold subWrap
    omega
  rw [wp_bind]
  refine wp_mono (argumentSlots_rule aligned') ?_ fun _ failed => ⟨failed.1, fun whole => failed.2 ?_⟩
  · intro slots mm₁ both
    obtain ⟨same, size, range, refers⟩ := both
    subst same
    obtain ⟨nonzero, range⟩ := range (Nat.succ_ne_zero _)
    have limit := range.1
    have fits : (args.length + 1) * 8 ≤ top := by
      by_contra wraps
      have large := subWrap_large (Nat.lt_of_not_le wraps) (by omega) (by omega)
      omega
    have lower : base = top - (args.length + 1) * 8 := moved.symm.trans (subWrap_eq fits word)
    have last := refers args.length (by omega)
    rw [List.getElem?_eq_getElem (by omega)]
    dsimp only
    rw [wp_bind]
    refine wp_mono (storeArgument_rule shows last (toBytes_length 8 0)) ?_ fun _ impossible => impossible.elim
    intro _ mm₂ ended
    rw [wp_bind]
    refine wp_mono (pushStrings_rule ended.shows short size (fun i inside => ended.table.refers (refers i inside))
      (Nat.le_refl base) (by omega) (by omega)) ?_ fun _ failed => ⟨failed.1, fun whole => failed.2 ?_⟩
    · intro r mm₃ both
      obtain ⟨⟨less, below⟩, stopped, view', becomes, arguments, unchanged⟩ := both
      have all := (ended.table.range.mp below).append (show UserRange mm₁.mem token _ (8 * (args.length + 1)) true by
        rw [Nat.sub_add_cancel (Nat.le_of_lt less)]
        exact range)
      have start : base - stringBytes args = top - argumentBytes args := by omega
      have length : stringBytes args + 8 * (args.length + 1) = argumentBytes args := by omega
      rw [start, length] at all
      refine ⟨⟨by omega, all⟩, ?_, view', ended.trans becomes, ?_, ?_, fun x outside => ?_⟩
      · rw [stopped, start, lower]
      · rw [← lower]
        exact arguments
      · have place : top - 8 = base + 8 * args.length := by omega
        have zero : view'.readWord (top - 8) = (view.writeWord (base + 8 * args.length) 0).readWord (top - 8) :=
          Memory.readWord_congr fun i inside => unchanged _ (by omega) (by omega)
        rw [zero, place, Memory.readWord_writeWord_same, Nat.zero_mod]
      · rw [unchanged x (by omega) (by omega), Memory.store_outside (by rw [toBytes_length]; omega)]
    · exact ⟨by omega, ended.table.range.mpr (whole.2.part (by omega) (by omega))⟩
  · have lower : base = top - (args.length + 1) * 8 := moved.symm.trans (subWrap_eq (by omega) word)
    exact ⟨by omega, whole.2.part (by omega) (by omega)⟩

/-! ### Where the strings lie -/

def stringPlaces : Nat → List Utf8 → List Nat
  | _, [] => []
  | sp, arg :: args => (sp - (arg.length + 1)) :: stringPlaces (sp - (arg.length + 1)) args

def stringRanges (sp : Nat) (args : List Utf8) : List (Nat × Nat) :=
  List.zipWith (fun place arg => (place, arg.length + 1)) (stringPlaces sp args) args

theorem stringPlaces_length (sp : Nat) (args : List Utf8) : (stringPlaces sp args).length = args.length := by
  induction args generalizing sp with
  | nil => rfl
  | cons arg args ih => exact congrArg Nat.succ (ih _)

theorem Arguments.pointer {args : List Utf8} (arguments : Arguments view base sp args) {i : Nat}
    (inside : i < (stringPlaces sp args).length) : view.readWord (base + 8 * i) = (stringPlaces sp args)[i] := by
  induction arguments generalizing i with
  | nil => cases inside
  | cons pointer _ _ ih =>
    cases i with
    | zero => exact pointer
    | succ i =>
      rw [show ∀ base, base + 8 * (i + 1) = base + 8 + 8 * i by intro base; omega]
      exact ih (Nat.lt_of_succ_lt_succ inside)

theorem Arguments.string {args : List Utf8} (arguments : Arguments view base sp args) {place : Nat} {arg : Utf8}
    (member : (place, arg) ∈ (stringPlaces sp args).zip args) : view.load place (arg.length + 1) = arg ++ [0] := by
  induction arguments with
  | nil => cases member
  | cons _ string _ ih =>
    rcases List.mem_cons.mp member with first | later
    · cases first
      exact string
    · exact ih later

theorem stringRanges_inside {args : List Utf8} (fits : stringBytes args ≤ sp) :
    ∀ range ∈ stringRanges sp args, sp - stringBytes args ≤ range.1 ∧ range.1 + range.2 ≤ sp := by
  induction args generalizing sp with
  | nil => nofun
  | cons arg args ih =>
    intro range member
    rw [stringBytes_cons] at fits ⊢
    rcases List.mem_cons.mp member with first | later
    · subst first
      dsimp only
      omega
    · have below := ih (show stringBytes args ≤ sp - (arg.length + 1) by omega) range later
      omega

theorem stringRanges_lowest {args : List Utf8} (some : args ≠ []) :
    ∃ range ∈ stringRanges sp args, range.1 = sp - stringBytes args := by
  induction args generalizing sp with
  | nil => exact absurd rfl some
  | cons arg args ih =>
    rw [stringBytes_cons]
    by_cases last : args = []
    · subst last
      exact ⟨(sp - (arg.length + 1), arg.length + 1), List.mem_cons_self, rfl⟩
    · obtain ⟨range, member, start⟩ := @ih (sp - (arg.length + 1)) last
      exact ⟨range, List.mem_cons_of_mem _ member, by omega⟩

theorem stringRanges_apart {args : List Utf8} (fits : stringBytes args ≤ sp) :
    (stringRanges sp args).Pairwise fun first second => second.1 + second.2 ≤ first.1 := by
  induction args generalizing sp with
  | nil => exact .nil
  | cons arg args ih =>
    rw [stringBytes_cons] at fits
    exact .cons (fun range member => (stringRanges_inside (by omega) range member).2) (ih (by omega))

end

end SecureIpc

import SecureIpc.Mm.Build
import SecureIpc.Mm.Supply
import SecureIpc.Run.Step

/-! A page table behaves like a finite map from pages to frames and flags. -/

namespace SecureIpc
open Lib

/-! ### Calls and the map they make -/

inductive TableCall where
  | map (vpn ppn flags : Nat)
  | unmap (vpn : Nat)
  deriving DecidableEq, Repr

/-- The frame number and the flags of each mapped page. -/
abbrev Pages := Nat → Option (Nat × Nat)

namespace TableCall

def vpn : TableCall → Nat
  | map vpn _ _ => vpn
  | unmap vpn => vpn

def run (table : PageTable) : TableCall → MmM PageTable
  | map vpn ppn flags => table.map vpn ppn flags
  | unmap vpn => do
    table.unmap vpn
    return table

def after (pages : Pages) : TableCall → Pages
  | map vpn ppn flags => Function.update pages vpn (some (ppn, flags))
  | unmap vpn => Function.update pages vpn none

/-- A page is mapped when it is not mapped, and unmapped when it is. -/
def Allowed (pages : Pages) : TableCall → Prop
  | map vpn ppn flags => vpn < 2 ^ 27 ∧ ppn < 2 ^ 44 ∧ flags < 256 ∧ pages vpn = none
  | unmap vpn => vpn < 2 ^ 27 ∧ pages vpn ≠ none

/-- Each call of a sequence is allowed when its turn comes. -/
def AllAllowed : Pages → List TableCall → Prop
  | _, [] => True
  | pages, call :: rest => call.Allowed pages ∧ AllAllowed (call.after pages) rest

def runAll (table : PageTable) : List TableCall → MmM PageTable
  | [] => return table
  | call :: rest => do runAll (← call.run table) rest

def runNew (calls : List TableCall) : MmM PageTable := do runAll (← PageTable.new) calls

end TableCall

structure Translates (table : PageTable) (mem : PhysMem) (pages : Pages) : Prop where
  valid : ∀ vpn < 2 ^ 27, (∃ pte, table.translate mem vpn = some pte ∧ pte.isValid = true) ↔ pages vpn ≠ none
  entry : ∀ vpn < 2 ^ 27, ∀ ppn flags, pages vpn = some (ppn, flags) →
    ∃ pte, table.translate mem vpn = some pte ∧ pte.ppn = ppn ∧ pte.flags = flags ||| PTEFlags.V
  address : ∀ va < 2 ^ 39, ∀ ppn flags, pages (va / 4096) = some (ppn, flags) →
    table.translateVa mem va = some (ppn * 4096 + va % 4096)

section
variable {layout : Layout} {mm : Mm} {table : PageTable} {path : Nat → List Nat} {pages : Pages}

def pageEntry : Option (Nat × Nat) → PageTableEntry
  | none => .empty
  | some (ppn, flags) => .new ppn (flags ||| PTEFlags.V)

/-- The entries of the table are those of the map; this is what the calls keep. -/
structure HoldsPages (layout : Layout) (mm : Mm) (table : PageTable) (pages : Pages) : Prop where
  formed : ∃ path, Table layout mm table path
  bounded : ∀ {vpn ppn flags}, pages vpn = some (ppn, flags) → vpn < 2 ^ 27 ∧ ppn < 2 ^ 44 ∧ flags < 256
  leaf : ∀ vpn < 2 ^ 27, table.leaf mm.mem vpn = pageEntry (pages vpn)

theorem translate_of_leaf {mem : PhysMem} {vpn : Nat} {pte : PageTableEntry} (leaf : table.leaf mem vpn = pte)
    (valid : pte.isValid = true) : table.translate mem vpn = some pte := by
  unfold PageTable.leaf at leaf
  cases found : table.translate mem vpn with
  | none =>
    simp only [found, Option.getD_none] at leaf
    rw [← leaf] at valid
    cases valid
  | some other => simpa [found] using leaf

theorem HoldsPages.translate {vpn ppn flags : Nat} (holds : HoldsPages layout mm table pages) (mapped : pages vpn = some (ppn, flags)) :
    table.translate mm.mem vpn = some (.new ppn (flags ||| PTEFlags.V)) := by
  obtain ⟨low, _, small⟩ := holds.bounded mapped
  have leaf := holds.leaf vpn low
  rw [mapped] at leaf
  exact translate_of_leaf leaf (isValid_new small)

theorem HoldsPages.translates (holds : HoldsPages layout mm table pages) : Translates table mm.mem pages := by
  constructor
  · intro vpn low
    have leaf := holds.leaf vpn low
    cases mapped : pages vpn with
    | none =>
      rw [mapped] at leaf
      simp only [ne_eq, not_true_eq_false, iff_false, not_exists, not_and]
      intro pte found valid
      simp only [PageTable.leaf, found, Option.getD_some] at leaf
      rw [leaf] at valid
      cases valid
    | some entry =>
      obtain ⟨ppn, flags⟩ := entry
      have small := (holds.bounded mapped).2.2
      simp [holds.translate mapped, isValid_new small]
  · intro vpn low ppn flags mapped
    obtain ⟨_, frame, small⟩ := holds.bounded mapped
    exact ⟨_, holds.translate mapped, PageTableEntry.ppn_new frame (or_V_small small), PageTableEntry.flags_new (or_V_small small)⟩
  · intro va low ppn flags mapped
    obtain ⟨_, frame, small⟩ := holds.bounded mapped
    have page : VirtAddr.floor va = va / 4096 := rfl
    have offset : VirtAddr.pageOffset va = va % 4096 := rfl
    have base : PhysAddr.ofPpn ppn = ppn * 4096 := rfl
    unfold PageTable.translateVa
    rw [page, holds.translate mapped, Option.map_some, PageTableEntry.ppn_new frame (or_V_small small), offset, base,
      PhysAddr.ofUsize, Nat.mod_eq_of_lt (by omega)]

theorem HoldsPages.update {mm' : Mm} {table' : PageTable} {vpn : Nat} {entry : Option (Nat × Nat)}
    (holds : HoldsPages layout mm table pages) (formed : ∃ path, Table layout mm' table' path) (low : vpn < 2 ^ 27)
    (bounded : ∀ ppn flags, entry = some (ppn, flags) → ppn < 2 ^ 44 ∧ flags < 256)
    (leaf : ∀ v, table'.leaf mm'.mem v = if v % 2 ^ 27 = vpn % 2 ^ 27 then pageEntry entry else table.leaf mm.mem v) :
    HoldsPages layout mm' table' (Function.update pages vpn entry) := by
  refine ⟨formed, ?_, ?_⟩
  · intro v ppn flags mapped
    by_cases same : v = vpn
    · subst same
      rw [Function.update_self] at mapped
      exact ⟨low, bounded ppn flags mapped⟩
    · rw [Function.update_of_ne same] at mapped
      exact holds.bounded mapped
  · intro v small
    rw [leaf v, Nat.mod_eq_of_lt small, Nat.mod_eq_of_lt low]
    by_cases same : v = vpn
    · simp [same]
    · simp [same, holds.leaf v small]

/-- One call: it fails only for want of a frame, and it changes the entry of no page but its own. -/
theorem HoldsPages.call (holds : HoldsPages layout mm table pages) (call : TableCall) (allowed : call.Allowed pages) :
    wp (call.run table) (fun table' mm' => HoldsPages layout mm' table' (call.after pages) ∧
      (∀ v < 2 ^ 27, v ≠ call.vpn → table'.leaf mm'.mem v = table.leaf mm.mem v) ∧ mm.frames.free ≤ mm'.frames.free + 2)
      (fun fault => fault = .outOfFrames ∧ mm.frames.free < 2) mm := by
  obtain ⟨path, ok⟩ := holds.formed
  cases call with
  | map vpn ppn flags =>
    obtain ⟨low, frame, small, absent⟩ := allowed
    have leaf := holds.leaf vpn low
    rw [absent] at leaf
    refine wp_mono (wp_and (map_spec ok frame small) (map_takes vpn ppn flags mm)) ?_ ?_
    · intro table' mm' both
      obtain ⟨⟨path', extended, _, leaves⟩, taken⟩ := both
      refine ⟨holds.update ⟨path', extended.ok⟩ low ?_ leaves, ?_, taken⟩
      · intro ppn' flags' same
        obtain ⟨rfl, rfl⟩ := Prod.mk.inj (Option.some.inj same)
        exact ⟨frame, small⟩
      · intro v small' different
        rw [leaves v, if_neg]
        rw [Nat.mod_eq_of_lt small', Nat.mod_eq_of_lt low]
        exact different
    · intro fault both
      obtain ⟨cause, full⟩ := both
      rcases cause with out | ⟨_, mapped⟩
      · exact ⟨out, full out⟩
      · rw [leaf] at mapped
        cases mapped
  | unmap vpn =>
    obtain ⟨low, present⟩ := allowed
    obtain ⟨⟨ppn, flags⟩, mapped⟩ := Option.ne_none_iff_exists'.mp present
    have leaf := holds.leaf vpn low
    rw [mapped] at leaf
    apply wp_bind.mpr
    refine wp_mono (wp_and (unmap_spec ok) (unmap_takes vpn mm)) ?_ ?_
    · intro _ mm' both
      obtain ⟨⟨extended, _, leaves⟩, same⟩ := both
      refine ⟨holds.update ⟨path, extended.ok⟩ low nofun leaves, ?_, by omega⟩
      intro v small' different
      rw [leaves v, if_neg]
      rw [Nat.mod_eq_of_lt small', Nat.mod_eq_of_lt low]
      exact different
    · intro fault both
      obtain ⟨⟨_, invalid⟩, _⟩ := both
      have valid : (table.leaf mm.mem vpn).isValid = true := by
        rw [leaf]
        exact isValid_new (holds.bounded mapped).2.2
      rw [invalid] at valid
      cases valid

theorem HoldsPages.calls (holds : HoldsPages layout mm table pages) (calls : List TableCall)
    (allowed : TableCall.AllAllowed pages calls) :
    wp (TableCall.runAll table calls)
      (fun table' mm' => HoldsPages layout mm' table' (calls.foldl TableCall.after pages))
      (fun fault => fault = .outOfFrames ∧ mm.frames.free < 2 * calls.length) mm := by
  induction calls generalizing mm table pages with
  | nil => exact holds
  | cons call rest ih =>
    obtain ⟨first, later⟩ := allowed
    apply wp_bind.mpr
    refine wp_mono (holds.call call first) ?_ ?_
    · intro table₁ mm₁ both
      obtain ⟨holds₁, _, taken⟩ := both
      refine wp_mono (ih holds₁ later) (fun _ _ last => last) ?_
      intro fault both
      obtain ⟨out, full⟩ := both
      refine ⟨out, ?_⟩
      rw [List.length_cons]
      omega
    · intro fault both
      obtain ⟨out, full⟩ := both
      refine ⟨out, ?_⟩
      rw [List.length_cons]
      omega

theorem new_holds (valid : (frameStore layout).valid mm) :
    wp PageTable.new (fun table mm' => HoldsPages layout mm' table (fun _ => none) ∧ mm.frames.free ≤ mm'.frames.free + 1)
      (fun fault => fault = .outOfFrames ∧ mm.frames.free < 1) mm := by
  have built : wp PageTable.new (fun table mm' => Blank layout mm' ⟨table, []⟩) (· = .outOfFrames) mm := by
    have spec := newBare_spec valid
    unfold MemorySet.newBare at spec
    exact wp_mono (wp_bind.mp spec) (fun _ _ made => made.1) fun _ full => full
  refine wp_mono (wp_and built (new_takes mm)) ?_ ?_
  · intro table mm' both
    obtain ⟨blank, taken⟩ := both
    exact ⟨⟨blank.table, nofun, fun vpn _ => blank.empty vpn⟩, taken⟩
  · intro fault both
    obtain ⟨out, full⟩ := both
    exact ⟨out, full out⟩

/-- A new table after any sequence of calls, each of which maps an unmapped page or unmaps a mapped one:
no assertion fails, the table translates the pages of the map that the calls make, and a further call
leaves the entries of all other pages alone. Only frames can run out, and one for the root and two
for each call are enough. -/
theorem table_refines_map (valid : (frameStore layout).valid mm) (calls : List TableCall)
    (allowed : TableCall.AllAllowed (fun _ => none) calls) :
    (TableCall.runNew calls mm = .error .outOfFrames ∨ ∃ table mm', TableCall.runNew calls mm = .ok (table, mm') ∧
      Translates table mm'.mem (calls.foldl TableCall.after fun _ => none) ∧
      ∀ call : TableCall, call.Allowed (calls.foldl TableCall.after fun _ => none) → ∀ table'' mm'',
        call.run table mm' = .ok (table'', mm'') →
          ∀ v < 2 ^ 27, v ≠ call.vpn → table''.leaf mm''.mem v = table.leaf mm'.mem v) ∧
    (1 + 2 * calls.length ≤ mm.frames.free → ∃ table mm', TableCall.runNew calls mm = .ok (table, mm')) := by
  have spec : wp (TableCall.runNew calls)
      (fun table mm' => HoldsPages layout mm' table (calls.foldl TableCall.after fun _ => none))
      (fun fault => fault = .outOfFrames ∧ mm.frames.free < 1 + 2 * calls.length) mm := by
    apply wp_bind.mpr
    refine wp_mono (new_holds valid) ?_ ?_
    · intro table mm₁ ⟨holds, taken⟩
      refine wp_mono (holds.calls calls allowed) (fun _ _ last => last) ?_
      intro fault ⟨out, full⟩
      exact ⟨out, by omega⟩
    · intro fault ⟨out, full⟩
      exact ⟨out, by omega⟩
  cases run : TableCall.runNew calls mm with
  | error fault =>
    obtain ⟨rfl, full⟩ := wp_error spec run
    exact ⟨Or.inl rfl, fun enough => absurd full (by omega)⟩
  | ok result =>
    obtain ⟨table, mm'⟩ := result
    have holds := wp_ok spec run
    refine ⟨Or.inr ⟨table, mm', rfl, holds.translates, ?_⟩, fun _ => ⟨table, mm', rfl⟩⟩
    intro call allowed' table'' mm'' ran
    have later := wp_ok (holds.call call allowed') ran
    exact later.2.1

end

def mapTwo : List TableCall := [.map 5 0x80300 (PTEFlags.R ||| PTEFlags.U), .map 0x7ffffff 0x80301 PTEFlags.W, .unmap 5]

theorem table_refines_map_two : ∃ table mm', TableCall.runNew mapTwo (Kernel.blank sample).mm = .ok (table, mm') ∧
    Translates table mm'.mem (mapTwo.foldl TableCall.after fun _ => none) := by
  have allowed : TableCall.AllAllowed (fun _ => none) mapTwo := by
    simp [mapTwo, TableCall.AllAllowed, TableCall.Allowed, TableCall.after, Function.update, PTEFlags.R, PTEFlags.U,
      PTEFlags.W]
  have enough : 1 + 2 * mapTwo.length ≤ (Kernel.blank sample).mm.frames.free := by decide +kernel
  obtain ⟨result, returns⟩ := table_refines_map (blank_valid (P := sample)) mapTwo allowed
  obtain ⟨table, mm', run⟩ := returns enough
  rcases result with full | ⟨table', mm'', run', translates, _⟩
  · rw [run] at full
    cases full
  · exact ⟨table', mm'', run', translates⟩

end SecureIpc

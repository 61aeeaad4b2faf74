import SecureIpc.Mm.Area

/-!
Address spaces. An address space owns the frames of its table and of its areas, each page of an area
is mapped to the frame the area holds for it, and no other page but the trampoline is mapped.
-/

namespace SecureIpc
open Lib

def MapArea.targets (self : MapArea) : List Nat :=
  match self.mapType with
  | .identical => List.range' self.vpnStart (self.vpnEnd - self.vpnStart)
  | .framed => self.frames

def MapArea.Holds (self : MapArea) (v : Nat) : Prop := self.vpnStart ≤ v ∧ v < self.vpnEnd

/-- The pages of `area` are mapped as the area says. -/
structure Placed (leaf : Nat → PageTableEntry) (area : MapArea) : Prop where
  ordered : area.vpnStart ≤ area.vpnEnd
  fits : area.vpnEnd ≤ 2 ^ 27
  perm : area.mapPerm < 32
  count : area.targets.length = area.vpnEnd - area.vpnStart
  pages : area.dataFrames = area.taken area.vpnStart area.targets
  mapped : ∀ i (inside : i < area.targets.length),
    leaf (area.vpnStart + i) = .new area.targets[i] (area.mapPerm ||| PTEFlags.V)

def trampolineVpn : Nat := 2 ^ 27 - 1

def Layout.trampolinePpn (layout : Layout) : Nat := PhysAddr.floor (PhysAddr.ofUsize layout.strampoline)

def Layout.trampolineEntry (layout : Layout) : PageTableEntry :=
  .new layout.trampolinePpn (PTEFlags.R ||| PTEFlags.X ||| PTEFlags.V)

structure Space (layout : Layout) (mm : Mm) (space : MemorySet) : Prop where
  owns : (frameStore layout).Owns mm space.frames
  tree : ∃ path, Tree mm.mem space.pageTable.rootPpn space.pageTable.frames path
  placed : ∀ area ∈ space.areas, Placed (space.pageTable.leaf mm.mem) area
  apart : space.areas.Pairwise fun first second => ∀ v, first.Holds v → ¬second.Holds v
  clear : ∀ area ∈ space.areas, ¬area.Holds trampolineVpn
  known : ∀ v < 2 ^ 27, space.pageTable.leaf mm.mem v = .empty ∨ v = trampolineVpn ∨ ∃ area ∈ space.areas, area.Holds v
  trampoline : space.pageTable.leaf mm.mem trampolineVpn = layout.trampolineEntry

section
variable {layout : Layout} {mm mm' : Mm} {self self' : MemorySet} {area area' : MapArea}
variable {leaf leaf' : Nat → PageTableEntry} {v : Nat}

/-! ### Areas in a table -/

theorem taken_frames (framed : area.mapType = .framed) (start : Nat) (targets : List Nat) :
    (area.taken start targets).map Prod.snd = targets := by
  unfold MapArea.taken
  rw [framed]
  exact List.map_snd_zip (Nat.le_of_eq (by rw [List.length_range']))

theorem targets_framed (framed : area.mapType = .framed) : area.targets = area.frames := by
  unfold MapArea.targets
  rw [framed]

theorem Placed.congr (placed : Placed leaf area) (same : ∀ v, area.Holds v → leaf' v = leaf v) : Placed leaf' area where
  ordered := placed.ordered
  fits := placed.fits
  perm := placed.perm
  count := placed.count
  pages := placed.pages
  mapped i inside := by
    have count := placed.count
    rw [same _ ⟨by omega, by omega⟩]
    exact placed.mapped i inside

theorem Placed.at (placed : Placed leaf area) (held : area.Holds v) : ∃ i, ∃ inside : i < area.targets.length,
    v = area.vpnStart + i ∧ leaf v = .new area.targets[i] (area.mapPerm ||| PTEFlags.V) := by
  have count := placed.count
  have inside : v - area.vpnStart < area.targets.length := by
    have low := held.1
    have high := held.2
    omega
  have here := placed.mapped _ inside
  rw [Nat.add_sub_cancel' held.1] at here
  exact ⟨v - area.vpnStart, inside, (Nat.add_sub_cancel' held.1).symm, here⟩

theorem Placed.valid (placed : Placed leaf area) (held : area.Holds v) : (leaf v).isValid = true := by
  obtain ⟨i, inside, _, entry⟩ := placed.at held
  rw [entry]
  exact isValid_new (perm_small placed.perm)

theorem trampolineEntry_valid : layout.trampolineEntry.isValid = true :=
  isValid_new (show PTEFlags.R ||| PTEFlags.X < 256 by decide)

theorem trampolinePpn_lt : layout.trampolinePpn < layout.firstFrame := by
  have inside := layout.trampoline_inside
  have fits := layout.kernel_fits
  have limit : memoryEnd < 2 ^ 56 := by decide
  unfold Layout.trampolinePpn Layout.firstFrame PhysAddr.floor PhysAddr.ceil PhysAddr.ofUsize
  rw [Nat.mod_eq_of_lt (by omega), Nat.mod_eq_of_lt (by omega), if_neg (by omega)]
  show layout.strampoline / 4096 < (layout.ekernel - 1 + 4096) / 4096
  omega

/-- The table walk reads only the low 27 bits of a page number. -/
theorem translate_mod (table : PageTable) (mem : PhysMem) (v : Nat) :
    table.translate mem (v % 2 ^ 27) = table.translate mem v := by
  have same : VirtPageNum.indexes (v % 2 ^ 27) = VirtPageNum.indexes v := indexes_eq_iff.mpr (Nat.mod_mod _ _)
  unfold PageTable.translate PageTable.findPte
  rw [same]

/-! ### What others do -/

/-- An address space stays as long as its frames are its own and its table keeps its contents. -/
theorem Space.keep (space : Space layout mm self) (owns : (frameStore layout).Owns mm' self.frames)
    (same : ∀ p ∈ self.pageTable.frames, (frameStore layout).content mm' p = (frameStore layout).content mm p) :
    Space layout mm' self := by
  obtain ⟨path, tree⟩ := space.tree
  have unmoved : ∀ x, x / 4096 ∈ self.pageTable.frames → mm'.mem x = mm.mem x := fun x inside =>
    mem_of_content (same _ inside) rfl
  have leaves : self.pageTable.leaf mm'.mem = self.pageTable.leaf mm.mem := funext (tree.leaf_congr unmoved)
  refine ⟨owns, ⟨path, tree.congr unmoved⟩, ?_, space.apart, space.clear, ?_, ?_⟩
  · rw [leaves]
    exact space.placed
  · rw [leaves]
    exact space.known
  · rw [leaves]
    exact space.trampoline

/-- Frames other than those of the table do not matter for the pages of an address space. -/
theorem Space.leaf_keep (space : Space layout mm self)
    (same : ∀ p ∈ self.pageTable.frames, (frameStore layout).content mm' p = (frameStore layout).content mm p) (v : Nat) :
    self.pageTable.leaf mm'.mem v = self.pageTable.leaf mm.mem v := by
  obtain ⟨path, tree⟩ := space.tree
  exact tree.leaf_congr (fun x inside => mem_of_content (same _ inside) rfl) v

/-- An address space stays as it is while others use their own frames. -/
theorem Space.other {F G : List Nat} (space : Space layout mm self) (step : (frameStore layout).Evolves mm mm' F G)
    (apart : ∀ p ∈ self.frames, p ∉ F) : Space layout mm' self :=
  space.keep (step.owns_other space.owns apart) fun p inside =>
    step.same_other space.owns apart p (List.mem_append_left _ inside)

/-! ### Data frames -/

theorem mem_dataFrames {p : Nat} : p ∈ self.dataFrames ↔ ∃ area ∈ self.areas, p ∈ area.frames := List.mem_flatMap

theorem Space.entry (space : Space layout mm self) (framed : ∀ area ∈ self.areas, area.mapType = .framed) (v : Nat) :
    self.pageTable.leaf mm.mem v = .empty ∨ self.pageTable.leaf mm.mem v = layout.trampolineEntry ∨
      ∃ area ∈ self.areas, area.Holds (v % 2 ^ 27) ∧ ∃ frame ∈ area.frames,
        self.pageTable.leaf mm.mem v = .new frame (area.mapPerm ||| PTEFlags.V) := by
  have low : v % 2 ^ 27 < 2 ^ 27 := Nat.mod_lt v (Nat.two_pow_pos 27)
  have same : self.pageTable.leaf mm.mem v = self.pageTable.leaf mm.mem (v % 2 ^ 27) := by
    unfold PageTable.leaf
    rw [translate_mod]
  rw [same]
  rcases space.known _ low with empty | top | ⟨area, member, held⟩
  · exact Or.inl empty
  · right
    left
    rw [top]
    exact space.trampoline
  · right
    right
    obtain ⟨i, inside, _, entry⟩ := (space.placed area member).at held
    have targets := targets_framed (framed area member)
    refine ⟨area, member, held, area.targets[i], ?_, entry⟩
    rw [← targets]
    exact List.getElem_mem inside

/-- What a write to the data frames of an address space leaves alone. -/
structure Stored (mm mm' : Mm) (frames : List Nat) : Prop where
  allocator : mm'.frames = mm.frames
  outside : ∀ x, x / 4096 ∉ frames → mm'.mem x = mm.mem x

theorem Stored.refl (mm : Mm) (frames : List Nat) : Stored mm mm frames := ⟨rfl, fun _ _ => rfl⟩

theorem Stored.trans {mm'' : Mm} {frames : List Nat} (first : Stored mm mm' frames) (second : Stored mm' mm'' frames) :
    Stored mm mm'' frames :=
  ⟨second.allocator.trans first.allocator, fun x other => (second.outside x other).trans (first.outside x other)⟩

theorem Stored.evolves {F : List Nat} {frames : List Nat} (stored : Stored mm mm' frames)
    (owns : (frameStore layout).Owns mm F) (mine : ∀ p ∈ frames, p ∈ F) : (frameStore layout).Evolves mm mm' F F := by
  have same : mm' = { mm with mem := mm'.mem } := by
    rw [← stored.allocator]
  rw [same]
  exact evolves_mem owns mm'.mem fun x other => stored.outside x fun inside => other (mine _ inside)

theorem Stored.space (stored : Stored mm mm' self.dataFrames) (space : Space layout mm self) : Space layout mm' self := by
  have evolves := stored.evolves space.owns fun p inside => List.mem_append_right _ inside
  refine space.keep evolves.owns fun p inside => content_of_mem fun x onFrame => stored.outside x ?_
  rw [onFrame]
  exact space.owns.disjoint inside

/-! ### A new area -/

/-- The address space after `area` has been mapped; `area'` is the area with its frames. -/
structure Pushed (layout : Layout) (mm mm' : Mm) (space space' : MemorySet) (area area' : MapArea) : Prop where
  whole : Space layout mm' space'
  evolves : (frameStore layout).Evolves mm mm' space.frames space'.frames
  root : space'.pageTable.rootPpn = space.pageTable.rootPpn
  areas : space'.areas = space.areas ++ [area']
  stored : area' = { area with dataFrames := area'.dataFrames }
  free : ∀ v, area.Holds v → (space.pageTable.leaf mm.mem v).isValid = false
  other : ∀ v < 2 ^ 27, ¬area.Holds v → space'.pageTable.leaf mm'.mem v = space.pageTable.leaf mm.mem v
  same : ∀ p ∈ space.dataFrames, (frameStore layout).content mm' p = (frameStore layout).content mm p
  zero : area.mapType = .framed → ∀ p ∈ area'.frames, ∀ x, x / 4096 = p → mm'.mem x = 0

theorem Maps.placed {table table' : PageTable} {targets : List Nat}
    (maps : Maps layout mm mm' table table' area area' area.vpnStart targets) (fresh : area.dataFrames = [])
    (ordered : area.vpnStart ≤ area.vpnEnd) (fits : area.vpnEnd ≤ 2 ^ 27) (perm : area.mapPerm < 32)
    (count : targets.length = area.vpnEnd - area.vpnStart) : Placed (table'.leaf mm'.mem) area' := by
  have stored := maps.area_eq
  rw [fresh, List.nil_append] at stored
  have start : area'.vpnStart = area.vpnStart := by rw [stored]
  have stop : area'.vpnEnd = area.vpnEnd := by rw [stored]
  have kind : area'.mapType = area.mapType := by rw [stored]
  have same : area'.targets = targets := by
    cases type : area.mapType with
    | identical =>
      have range := maps.identical type
      rw [MapArea.targets, kind, type, start, stop, ← count]
      exact range.symm
    | framed =>
      rw [targets_framed (kind.trans type), stored]
      exact taken_frames type area.vpnStart targets
  refine ⟨by omega, by omega, by rw [stored]; exact perm, by rw [same, start, stop]; exact count, ?_, ?_⟩
  · rw [same, start, MapArea.taken, kind, stored]
    rfl
  · intro i inside
    have same_perm : area'.mapPerm = area.mapPerm := by rw [stored]
    simp only [same, start, same_perm]
    rw [same] at inside
    exact maps.mapped i inside

theorem map_space (space : Space layout mm self) (fresh : area.dataFrames = []) (ordered : area.vpnStart ≤ area.vpnEnd)
    (fits : area.vpnEnd ≤ 2 ^ 27) (perm : area.mapPerm < 32) :
    wp (area.map self.pageTable) (fun r mm' => Pushed layout mm mm' self ⟨r.2, self.areas ++ [r.1]⟩ area r.1)
      (MapFault (self.pageTable.leaf mm.mem) area.vpnStart (area.vpnEnd - area.vpnStart)) mm := by
  obtain ⟨path, tree⟩ := space.tree
  have none : area.frames = [] := by
    rw [MapArea.frames, fresh]
    rfl
  have owns : (frameStore layout).Owns mm (self.pageTable.frames ++ area.frames) := by
    rw [none, List.append_nil]
    exact space.owns.left
  refine wp_mono (mapFrom_spec tree owns perm (by omega)) ?_ fun _ failed => failed
  rintro ⟨area', table'⟩ mm' ⟨targets, count, maps⟩
  dsimp only at maps ⊢
  have placed := maps.placed fresh ordered fits perm count
  have stored := maps.area_eq
  rw [fresh, List.nil_append] at stored
  have holds : ∀ v, area'.Holds v ↔ area.Holds v := fun v => by rw [stored]; rfl
  have free : ∀ v, area.Holds v → (self.pageTable.leaf mm.mem v).isValid = false := by
    intro v held
    have low := held.1
    have high := held.2
    have invalid := maps.free (v - area.vpnStart) (by omega)
    rwa [Nat.add_sub_cancel' low] at invalid
  have other : ∀ v < 2 ^ 27, ¬area.Holds v → table'.leaf mm'.mem v = self.pageTable.leaf mm.mem v := by
    intro v low outside
    refine maps.other v low ?_
    unfold MapArea.Holds at outside
    omega
  -- pages that were mapped before are not pages of the new area
  have elsewhere : ∀ v, (self.pageTable.leaf mm.mem v).isValid = true → ¬area.Holds v := by
    intro v valid held
    rw [free v held] at valid
    cases valid
  have evolves : (frameStore layout).Evolves mm mm' self.frames
      (⟨table', self.areas ++ [area']⟩ : MemorySet).frames := by
    have step := maps.evolves
    rw [none, List.append_nil] at step
    refine (step.frame space.owns).perm (.refl _) ?_
    show ((table'.frames ++ area'.frames) ++ self.dataFrames).Perm
      (table'.frames ++ (self.areas ++ [area']).flatMap MapArea.frames)
    rw [List.append_assoc, List.flatMap_append, List.flatMap_singleton]
    exact List.Perm.append_left _ List.perm_append_comm
  have unmapped : ∀ {first : MapArea}, first ∈ self.areas → ∀ v, first.Holds v → ¬area.Holds v := by
    intro first member v held
    exact elsewhere v ((space.placed first member).valid held)
  have kept : ∀ {first : MapArea}, first ∈ self.areas → ∀ v, first.Holds v →
      table'.leaf mm'.mem v = self.pageTable.leaf mm.mem v := by
    intro first member v held
    exact other v (Nat.lt_of_lt_of_le held.2 (space.placed first member).fits) (unmapped member v held)
  have top : ¬area.Holds trampolineVpn := by
    apply elsewhere
    rw [space.trampoline]
    exact trampolineEntry_valid
  refine ⟨⟨evolves.owns, maps.tree, ?_, ?_, ?_, ?_, ?_⟩, evolves, maps.root, rfl, by rw [stored], free, other, ?_, ?_⟩
  · intro first member
    rcases List.mem_append.mp member with old | new
    · exact (space.placed first old).congr (kept old)
    · rw [List.mem_singleton.mp new]
      exact placed
  · refine List.pairwise_append.mpr ⟨space.apart, List.pairwise_singleton _ _, ?_⟩
    intro first old second new v held
    rw [List.mem_singleton.mp new, holds]
    exact unmapped old v held
  · intro first member
    rcases List.mem_append.mp member with old | new
    · exact space.clear first old
    · rw [List.mem_singleton.mp new, holds]
      exact top
  · intro v low
    by_cases held : area.Holds v
    · exact Or.inr (Or.inr ⟨area', List.mem_append_right _ (List.mem_singleton_self area'), (holds v).mpr held⟩)
    · show table'.leaf mm'.mem v = .empty ∨ _
      rw [other v low held]
      rcases space.known v low with empty | above | ⟨first, member, inside⟩
      · exact Or.inl empty
      · exact Or.inr (Or.inl above)
      · exact Or.inr (Or.inr ⟨first, List.mem_append_left _ member, inside⟩)
  · show table'.leaf mm'.mem trampolineVpn = _
    rw [other trampolineVpn (by decide) top]
    exact space.trampoline
  · intro p member
    have step := maps.evolves
    rw [none, List.append_nil] at step
    exact step.frame_same space.owns member
  · intro framed p member x onFrame
    refine maps.zero framed p ?_ x onFrame
    have frames := taken_frames framed area.vpnStart targets
    rw [MapArea.frames, stored] at member
    rwa [← frames]

/-! ### Copying a program's data -/

theorem Space.writable_entry (space : Space layout mm self) (framed : ∀ area ∈ self.areas, area.mapType = .framed)
    {vpn : Nat} {pte : PageTableEntry} (found : self.pageTable.translate mm.mem vpn = some pte)
    (writable : layout.writable pte.ppn = true) : pte.ppn ∈ self.dataFrames := by
  have leaf : self.pageTable.leaf mm.mem vpn = pte := by
    rw [PageTable.leaf, found, Option.getD_some]
  have range : layout.firstFrame ≤ pte.ppn := by
    simp only [Layout.writable, Bool.and_eq_true, decide_eq_true_eq] at writable
    exact writable.1
  have positive := @firstFrame_pos layout
  have image := @trampolinePpn_lt layout
  rcases space.entry framed vpn with empty | top | ⟨area, member, _, frame, owned, entry⟩
  · rw [← leaf, empty, show PageTableEntry.empty.ppn = 0 from rfl] at range
    omega
  · have limit : layout.firstFrame ≤ 2 ^ 44 := by
      have bound : lastFrame ≤ 2 ^ 44 := by decide
      exact Nat.le_trans (Nat.le_trans space.owns.valid.1 space.owns.valid.2.1) bound
    have small : PTEFlags.R ||| PTEFlags.X ||| PTEFlags.V < 256 := by decide
    rw [← leaf, top, Layout.trampolineEntry, PageTableEntry.ppn_new (by omega) small] at range
    omega
  · have inside : frame ∈ self.dataFrames := mem_dataFrames.mpr ⟨area, member, owned⟩
    rw [← leaf, entry, PageTableEntry.ppn_new (live_small space.owns (List.mem_append_right _ inside))
      (or_V_small (perm_small (space.placed area member).perm))]
    exact inside

theorem writeFrame_stored (framed : ∀ area ∈ self.areas, area.mapType = .framed) (space : Space layout mm self)
    {vpn : Nat} {pte : PageTableEntry} (found : self.pageTable.translate mm.mem vpn = some pte) (bytes : List UInt8) :
    wp (writeFrame layout pte.ppn (bytes.take pageSize)) (fun _ mm' => Stored mm mm' self.dataFrames)
      (fun fault => fault = .untranslated ∨ fault = .kernelStore) mm := by
  unfold writeFrame
  by_cases allowed : bytes.take pageSize = [] ∨ layout.writable pte.ppn = true
  · rw [if_pos allowed]
    refine ⟨rfl, fun x outside => ?_⟩
    rcases allowed with nothing | writable
    · show (mm.mem.store _ (bytes.take pageSize)) x = mm.mem x
      rw [nothing]
      apply Memory.store_outside
      rw [List.length_nil, Nat.add_zero]
      exact Nat.lt_or_ge x _
    · have inside := space.writable_entry framed found writable
      have short : (bytes.take pageSize).length ≤ 4096 := List.length_take_le pageSize bytes
      apply Memory.store_outside
      have apart : x / 4096 ≠ pte.ppn := fun same => outside (same ▸ inside)
      show x < pte.ppn * 4096 ∨ pte.ppn * 4096 + _ ≤ x
      omega
  · rw [if_neg allowed]
    exact Or.inr rfl

theorem copyDataFrom_stored (framed : ∀ area ∈ self.areas, area.mapType = .framed) (fuel vpn : Nat) (data : List UInt8)
    (space : Space layout mm self) :
    wp (copyDataFrom layout self.pageTable fuel vpn data) (fun _ mm' => Stored mm mm' self.dataFrames)
      (fun fault => fault = .untranslated ∨ fault = .kernelStore) mm := by
  induction fuel generalizing mm vpn data with
  | zero =>
    unfold copyDataFrom
    simp only [wp_bind, wp_read]
    cases found : self.pageTable.translate mm.mem vpn with
    | none => exact Or.inl rfl
    | some pte =>
      apply wp_bind.mpr
      exact wp_mono (writeFrame_stored framed space found data) (fun _ _ stored => stored) fun _ failed => failed
  | succ fuel ih =>
    unfold copyDataFrom
    simp only [wp_bind, wp_read]
    cases found : self.pageTable.translate mm.mem vpn with
    | none => exact Or.inl rfl
    | some pte =>
      apply wp_bind.mpr
      refine wp_mono (writeFrame_stored framed space found data) ?_ fun _ failed => failed
      intro _ mm₁ stored
      by_cases last : data.length ≤ pageSize
      · rw [if_pos last]
        exact stored
      · rw [if_neg last]
        exact wp_mono (ih (vpn + 1) (data.drop pageSize) (stored.space space)) (fun _ _ more => stored.trans more) fun _ failed => failed

/-- Mapping an area and copying a program's data into it. -/
theorem push_stored (space : Space layout mm self) (framed : ∀ area ∈ self.areas, area.mapType = .framed)
    (kind : area.mapType = .framed) (fresh : area.dataFrames = []) (ordered : area.vpnStart ≤ area.vpnEnd)
    (fits : area.vpnEnd ≤ 2 ^ 27) (perm : area.mapPerm < 32) (data : List UInt8) :
    wp (self.push layout area (some data)) (fun self' mm' => ∃ mm₁ area', Pushed layout mm mm₁ self self' area area' ∧
      Stored mm₁ mm' self'.dataFrames)
      (fun fault => MapFault (self.pageTable.leaf mm.mem) area.vpnStart (area.vpnEnd - area.vpnStart) fault ∨
        fault = .untranslated ∨ fault = .kernelStore) mm := by
  unfold MemorySet.push
  apply wp_bind.mpr
  refine wp_mono (map_space space fresh ordered fits perm) ?_ fun _ failed => Or.inl failed
  intro both mm₁ pushed
  obtain ⟨area', table'⟩ := both
  dsimp only at pushed ⊢
  have kind' : area'.mapType = .framed := by
    rw [pushed.stored]
    exact kind
  have framed' : ∀ one ∈ (⟨table', self.areas ++ [area']⟩ : MemorySet).areas, one.mapType = .framed := by
    intro one member
    rcases List.mem_append.mp member with old | new
    · exact framed one old
    · rw [List.mem_singleton.mp new]
      exact kind'
  apply wp_bind.mpr
  unfold MapArea.copyData
  rw [if_pos kind']
  refine wp_mono (copyDataFrom_stored framed' _ _ data pushed.whole) ?_ fun _ failed => Or.inr failed
  intro _ mm' stored
  exact ⟨mm₁, area', pushed, stored⟩

/-! ### Removing an area and giving back frames -/

structure Removed (layout : Layout) (mm mm' : Mm) (space space' : MemorySet) (area : MapArea) : Prop where
  whole : Space layout mm' space'
  evolves : (frameStore layout).Evolves mm mm' space.frames space'.frames
  table : space'.pageTable = space.pageTable
  subset : space'.areas ⊆ space.areas
  kept : ∀ one ∈ space.areas, one ∈ space'.areas ∨ one = area
  apart : ∀ one ∈ space'.areas, ∀ v, one.Holds v → ¬area.Holds v
  cleared : ∀ v, area.Holds v → space.pageTable.leaf mm'.mem v = .empty
  other : ∀ v < 2 ^ 27, ¬area.Holds v → space.pageTable.leaf mm'.mem v = space.pageTable.leaf mm.mem v

theorem removeArea_found (space : Space layout mm self) {startVpn idx : Nat}
    (found : (self.areas.findIdx? fun area => area.vpnStart == startVpn) = some idx) (entry : self.areas[idx]? = some area) :
    wp (self.removeAreaWithStartVpn startVpn) (fun self' mm' => Removed layout mm mm' self self' area) (fun _ => False) mm := by
  unfold MemorySet.removeAreaWithStartVpn
  rw [found]
  dsimp only
  rw [entry]
  obtain ⟨bound, here⟩ := List.getElem?_eq_some_iff.mp entry
  have member : area ∈ self.areas := here ▸ List.getElem_mem bound
  have around : self.areas = self.areas.take idx ++ area :: self.areas.drop (idx + 1) := by
    rw [← here, List.getElem_cons_drop, List.take_append_drop]
  have erased : self.areas.eraseIdx idx = self.areas.take idx ++ self.areas.drop (idx + 1) :=
    List.eraseIdx_eq_take_drop_succ self.areas idx
  have placed := space.placed area member
  have subset : self.areas.eraseIdx idx ⊆ self.areas := List.eraseIdx_subset
  -- the remaining areas do not share a page with the one removed
  have apart : ∀ one ∈ self.areas.eraseIdx idx, ∀ v, one.Holds v → ¬area.Holds v := by
    intro one remaining v held
    have pairs := space.apart
    rw [around, List.pairwise_append, List.pairwise_cons] at pairs
    rw [erased] at remaining
    rcases List.mem_append.mp remaining with before | after
    · exact pairs.2.2 one before area List.mem_cons_self v held
    · exact fun mine => pairs.2.1.1 one after v mine held
  have kept : ∀ one ∈ self.areas, one ∈ self.areas.eraseIdx idx ∨ one = area := by
    intro one inside
    rw [around] at inside
    rw [erased]
    rcases List.mem_append.mp inside with before | after
    · exact Or.inl (List.mem_append_left _ before)
    · rcases List.mem_cons.mp after with same | later
      · exact Or.inr same
      · exact Or.inl (List.mem_append_right _ later)
  have frames : self.frames.Perm ((self.pageTable.frames ++ area.frames) ++
      (self.areas.eraseIdx idx).flatMap MapArea.frames) := by
    rw [MemorySet.frames, MemorySet.dataFrames, erased, List.append_assoc]
    apply List.Perm.append_left
    conv => lhs; rw [around]
    rw [List.flatMap_append, List.flatMap_cons, List.flatMap_append, ← List.append_assoc, ← List.append_assoc]
    exact List.Perm.append_right _ List.perm_append_comm
  obtain ⟨path, tree⟩ := space.tree
  have owns := space.owns.perm frames
  have count := placed.count
  have ordered := placed.ordered
  have fits := placed.fits
  apply wp_bind.mpr
  unfold MapArea.unmap
  rw [← placed.count]
  refine wp_mono (unmapFrom_spec tree owns.left placed.pages (by omega) ?_) ?_ fun _ impossible => impossible
  · intro i inside
    rw [placed.mapped i inside]
    exact isValid_new (perm_small placed.perm)
  · intro area' mm' both
    obtain ⟨emptied, unmaps⟩ := both
    have evolves := unmaps.evolves.frame owns
    rw [List.append_nil] at evolves
    rw [emptied]
    have other : ∀ v < 2 ^ 27, ¬area.Holds v → self.pageTable.leaf mm'.mem v = self.pageTable.leaf mm.mem v := by
      intro v low outside
      refine unmaps.other v low ?_
      unfold MapArea.Holds at outside
      omega
    have cleared : ∀ v, area.Holds v → self.pageTable.leaf mm'.mem v = .empty := by
      intro v held
      have gone := unmaps.cleared (v - area.vpnStart) (by unfold MapArea.Holds at held; omega)
      rwa [Nat.add_sub_cancel' held.1] at gone
    refine ⟨⟨evolves.owns, unmaps.tree, ?_, ?_, ?_, ?_, ?_⟩, evolves.perm frames.symm (.refl _), rfl, subset, kept, apart,
      cleared, other⟩
    · intro one remaining
      have before := space.placed one (subset remaining)
      exact before.congr fun v held => other v (Nat.lt_of_lt_of_le held.2 before.fits) (apart one remaining v held)
    · exact space.apart.sublist (List.eraseIdx_sublist _ _)
    · exact fun one remaining => space.clear one (subset remaining)
    · intro v low
      by_cases held : area.Holds v
      · exact Or.inl (cleared v held)
      · show self.pageTable.leaf mm'.mem v = .empty ∨ _
        rw [other v low held]
        rcases space.known v low with empty | above | ⟨one, inside, theirs⟩
        · exact Or.inl empty
        · exact Or.inr (Or.inl above)
        · rcases kept one inside with remaining | rfl
          · exact Or.inr (Or.inr ⟨one, remaining, theirs⟩)
          · exact absurd theirs held
    · show self.pageTable.leaf mm'.mem trampolineVpn = _
      rw [other trampolineVpn (by decide) (space.clear area member)]
      exact space.trampoline

theorem removeArea_spec (space : Space layout mm self) (startVpn : Nat) :
    wp (self.removeAreaWithStartVpn startVpn) (fun self' mm' => Space layout mm' self' ∧
      (frameStore layout).Evolves mm mm' self.frames self'.frames ∧ self'.areas ⊆ self.areas) (fun _ => False) mm := by
  cases found : self.areas.findIdx? fun area => area.vpnStart == startVpn with
  | none =>
    unfold MemorySet.removeAreaWithStartVpn
    rw [found]
    exact ⟨space, .refl space.owns, List.Subset.refl _⟩
  | some idx =>
    cases entry : self.areas[idx]? with
    | none =>
      unfold MemorySet.removeAreaWithStartVpn
      rw [found]
      dsimp only
      rw [entry]
      exact ⟨space, .refl space.owns, List.Subset.refl _⟩
    | some area =>
      refine wp_mono (removeArea_found space found entry) ?_ fun _ impossible => impossible
      intro self' mm' removed
      exact ⟨removed.whole, removed.evolves, removed.subset⟩

theorem recycleDataPages_spec (owns : (frameStore layout).Owns mm self.frames) :
    wp self.recycleDataPages (fun self' mm' => self' = { self with areas := [] } ∧ mm'.mem = mm.mem ∧
      (frameStore layout).Evolves mm mm' self.frames self'.frames) (fun _ => False) mm := by
  have swapped : self.frames.Perm (self.dataFrames ++ self.pageTable.frames) := List.perm_append_comm
  unfold MemorySet.recycleDataPages
  apply wp_bind.mpr
  refine wp_mono (frameDeallocAll_spec (owns.perm swapped)) ?_ fun _ impossible => impossible
  intro _ mm' both
  obtain ⟨step, unchanged⟩ := both
  refine ⟨rfl, unchanged, step.perm swapped.symm ?_⟩
  show self.pageTable.frames.Perm (self.pageTable.frames ++ [])
  rw [List.append_nil]

theorem drop_spec (owns : (frameStore layout).Owns mm self.frames) :
    wp self.drop (fun _ mm' => mm'.mem = mm.mem ∧ (frameStore layout).Evolves mm mm' self.frames []) (fun _ => False) mm := by
  have whole : (frameStore layout).Owns mm (self.frames ++ []) := by
    rw [List.append_nil]
    exact owns
  refine wp_mono (frameDeallocAll_spec whole) ?_ fun _ impossible => impossible
  intro _ mm' both
  obtain ⟨step, unchanged⟩ := both
  rw [List.append_nil] at step
  exact ⟨unchanged, step⟩

end

end SecureIpc

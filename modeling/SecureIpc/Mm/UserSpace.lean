import Mathlib.Data.List.Pairwise
import SecureIpc.Mm.Build
import SecureIpc.Mm.UserCopy

/-!
What a program can reach through its page table: frames of its own areas only. So whatever the
kernel writes through a validated user pointer stays inside the frames of the caller.
-/

namespace SecureIpc
open Lib

/-- The frames behind the pages that carry `U`. -/
def MemorySet.userFrames (self : MemorySet) : List Nat :=
  (self.areas.filter fun area => PTEFlags.contains area.mapPerm PTEFlags.U).flatMap MapArea.frames

section
variable {layout : Layout} {mm mm' : Mm} {self : MemorySet} {area : MapArea}

theorem mem_userFrames {p : Nat} : p ∈ self.userFrames ↔ ∃ area ∈ self.areas,
    PTEFlags.contains area.mapPerm PTEFlags.U = true ∧ p ∈ area.frames := by
  simp only [MemorySet.userFrames, List.mem_flatMap, List.mem_filter, and_assoc]

theorem userFrames_subset {p : Nat} (inside : p ∈ self.userFrames) : p ∈ self.dataFrames := by
  obtain ⟨area, member, _, frame⟩ := mem_userFrames.mp inside
  exact mem_dataFrames.mpr ⟨area, member, frame⟩

theorem contains_or_V {perm flag : Nat} (small : perm < 32) (other : flag = PTEFlags.U ∨ flag = PTEFlags.W ∨ flag = PTEFlags.R) :
    PTEFlags.contains (perm ||| PTEFlags.V) flag = PTEFlags.contains perm flag := by
  have all : ∀ p < 32, ∀ f ∈ [PTEFlags.U, PTEFlags.W, PTEFlags.R],
      PTEFlags.contains (p ||| PTEFlags.V) f = PTEFlags.contains p f := by decide
  refine all perm small flag ?_
  rcases other with rfl | rfl | rfl <;> decide

/-! ### The table behind a token -/

theorem Space.root_owned (space : Space layout mm self) : self.pageTable.rootPpn ∈ self.pageTable.frames := by
  obtain ⟨path, tree⟩ := space.tree
  exact tree.root_mem

theorem Space.fromToken_root (space : Space layout mm self) :
    (PageTable.fromToken self.token).rootPpn = self.pageTable.rootPpn := by
  have small := live_small space.owns (List.mem_append_left _ space.root_owned)
  unfold PageTable.fromToken MemorySet.token PageTable.token PhysPageNum.ofUsize
  dsimp only
  omega

theorem Space.fromToken_translate (space : Space layout mm self) (mem : PhysMem) (v : Nat) :
    (PageTable.fromToken self.token).translate mem v = self.pageTable.translate mem v := by
  unfold PageTable.translate PageTable.findPte
  rw [space.fromToken_root]

/-- The nodes of the table lie in its own frames. -/
theorem Space.tableNode (space : Space layout mm self) {node : Nat} (known : TableNode mm.mem self.pageTable.rootPpn node) :
    node ∈ self.pageTable.frames := by
  obtain ⟨path, tree⟩ := space.tree
  have short : (path self.pageTable.rootPpn).length < 2 := by
    rw [tree.root_path]
    decide
  cases known with
  | root => exact tree.root_mem
  | second small child => exact (tree.child _ tree.root_mem short _ small _ child).1
  | third small small' child child' =>
    obtain ⟨inside, way⟩ := tree.child _ tree.root_mem short _ small _ child
    refine (tree.child _ inside ?_ _ small' _ child').1
    rw [way, tree.root_path]
    exact Nat.one_lt_two

/-! ### Entries with `U` -/

/-- The page and the area behind an entry with `U`. -/
theorem UserSpace.entry (user : UserSpace layout mm self) {v : Nat} {pte : PageTableEntry}
    (found : self.pageTable.translate mm.mem v = some pte) (flag : PTEFlags.contains pte.flags PTEFlags.U = true) :
    ∃ area ∈ self.areas, PTEFlags.contains area.mapPerm PTEFlags.U = true ∧ area.Holds (v % 2 ^ 27) ∧
      ∃ i, ∃ inside : i < area.frames.length, v % 2 ^ 27 = area.vpnStart + i ∧ pte.ppn = area.frames[i] ∧
        pte.flags = area.mapPerm ||| PTEFlags.V := by
  have low : v % 2 ^ 27 < 2 ^ 27 := Nat.mod_lt v (Nat.two_pow_pos 27)
  have leaf : self.pageTable.leaf mm.mem (v % 2 ^ 27) = pte := by
    rw [PageTable.leaf, translate_mod, found, Option.getD_some]
  rcases user.whole.known _ low with empty | top | ⟨area, member, held⟩
  · rw [← leaf, empty] at flag
    exact absurd flag (by decide)
  · rw [top, user.whole.trampoline] at leaf
    have flags : pte.flags = PTEFlags.R ||| PTEFlags.X ||| PTEFlags.V := by
      rw [← leaf]
      exact PageTableEntry.flags_new (by decide)
    rw [flags] at flag
    exact absurd flag (by decide)
  · have placed := user.whole.placed area member
    have framed := user.framed area member
    obtain ⟨i, inside, here, entry⟩ := placed.at held
    rw [leaf] at entry
    simp only [targets_framed framed] at inside entry
    have owned := List.mem_append_right self.pageTable.frames (frames_subset member _ (List.getElem_mem inside))
    have ppn : pte.ppn = area.frames[i] := by
      rw [entry]
      exact PageTableEntry.ppn_new (live_small user.whole.owns owned) (or_V_small (perm_small placed.perm))
    have flags : pte.flags = area.mapPerm ||| PTEFlags.V := by
      rw [entry]
      exact PageTableEntry.flags_new (or_V_small (perm_small placed.perm))
    rw [flags, contains_or_V placed.perm (Or.inl rfl)] at flag
    exact ⟨area, member, flag, held, i, inside, here, ppn, flags⟩

theorem UserSpace.frame (user : UserSpace layout mm self) {v : Nat} {pte : PageTableEntry}
    (found : self.pageTable.translate mm.mem v = some pte) (flag : PTEFlags.contains pte.flags PTEFlags.U = true) :
    pte.ppn ∈ self.userFrames := by
  obtain ⟨area, member, reachable, _, i, inside, _, ppn, _⟩ := user.entry found flag
  rw [ppn]
  exact mem_userFrames.mpr ⟨area, member, reachable, List.getElem_mem inside⟩

theorem Space.area_unique (space : Space layout mm self) {first second : MapArea} {p : Nat} (inFirst : first ∈ self.areas)
    (inSecond : second ∈ self.areas) (left : p ∈ first.frames) (right : p ∈ second.frames) : first = second := by
  by_contra different
  have pairs := (List.nodup_flatMap.mp space.owns.right.nodup).2
  have symmetric : Std.Symm (Function.onFun List.Disjoint MapArea.frames) := ⟨fun _ _ disjoint _ first second => disjoint second first⟩
  exact pairs.forall inFirst inSecond different left right

/-- User pages have frames of their own. -/
theorem UserSpace.distinct (user : UserSpace layout mm self) : DistinctFrames mm.mem self.token where
  pages := by
    rintro vpn vpn' pte pte' ⟨below, found, flag⟩ ⟨below', found', flag'⟩ same
    rw [user.whole.fromToken_translate] at found found'
    obtain ⟨area, member, _, _, i, inside, here, ppn, _⟩ := user.entry found flag
    obtain ⟨area', member', _, _, i', inside', here', ppn', _⟩ := user.entry found' flag'
    have left : pte.ppn ∈ area.frames := by
      rw [ppn]
      exact List.getElem_mem inside
    have right : pte.ppn ∈ area'.frames := by
      rw [same, ppn']
      exact List.getElem_mem inside'
    obtain rfl := user.whole.area_unique member member' left right
    have index : i = i' := (frames_nodup member user.whole.owns).getElem_inj_iff.mp (by rw [← ppn, ← ppn', same])
    omega
  nodes := by
    intro vpn pte both node
    obtain ⟨_, found, flag⟩ := both
    rw [user.whole.fromToken_translate] at found
    rw [user.whole.fromToken_root] at node
    exact user.whole.owns.disjoint (user.whole.tableNode node) (userFrames_subset (user.frame found flag))

/-! ### What the kernel writes for a program -/

/-- The slices are not empty and lie in the frames the program can reach. -/
def MemorySet.Covers (self : MemorySet) (slices : List Slice) : Prop :=
  ∀ slice ∈ slices, 0 < slice.len ∧ ∀ x ∈ slice.addrs, x / 4096 ∈ self.userFrames

theorem UserSpace.address (user : UserSpace layout mm self) {addr pa : Nat} {write : Bool} (below : addr < 2 ^ 38)
    (page : UserPage mm.mem self.token write (addr / 4096))
    (translated : (PageTable.fromToken self.token).translateVa mm.mem (VirtAddr.ofUsize addr) = some pa) :
    pa / 4096 ∈ self.userFrames := by
  obtain ⟨pte, ⟨_, found, flag⟩, place⟩ := page.address below rfl
  obtain rfl := Option.some.inj (translated.symm.trans place)
  rw [user.whole.fromToken_translate] at found
  have frame := user.frame found flag
  rwa [show (pte.ppn * 4096 + addr % 4096) / 4096 = pte.ppn by omega]

/-- A buffer is translated only if its range is one of user pages. -/
theorem userRange_of_translated {mem : PhysMem} {token ptr len : Nat} {write : Bool} {slices : List Slice}
    (positive : len ≠ 0) (translated : tryTranslatedByteBuffer mem token ptr len write = .ok (some slices)) :
    UserRange mem token ptr len write := by
  apply (checkUserRange_iff_range positive).mp
  by_contra refused
  unfold tryTranslatedByteBuffer at translated
  rw [if_pos (by simpa using refused)] at translated
  cases translated

/-- A validated buffer has as many bytes as were asked for, and they are different ones. -/
theorem UserSpace.buffer (user : UserSpace layout mm self) {ptr len : Nat} {write : Bool} {slices : List Slice}
    (positive : len ≠ 0) (translated : tryTranslatedByteBuffer mm.mem self.token ptr len write = .ok (some slices)) :
    len ≤ 2 ^ 38 ∧ (slices.flatMap Slice.addrs).length = len ∧ (slices.flatMap Slice.addrs).Nodup := by
  have range := userRange_of_translated positive translated
  have limit := range.1
  obtain ⟨segments, run, total, entries⟩ := range.segments positive
  obtain rfl := Option.some.inj (Except.ok.inj (translated.symm.trans run))
  exact ⟨by omega, total, user.distinct.nodup range total entries⟩

theorem UserSpace.covers (user : UserSpace layout mm self) {ptr len : Nat} {write : Bool} {slices : List Slice}
    (translated : tryTranslatedByteBuffer mm.mem self.token ptr len write = .ok (some slices)) : self.Covers slices := by
  by_cases zero : len = 0
  · subst zero
    have checked : checkUserRange mm.mem self.token ptr 0 write = true := rfl
    unfold tryTranslatedByteBuffer at translated
    rw [checked] at translated
    cases sum : addWord ptr 0 with
    | error fault =>
      rw [sum] at translated
      cases translated
    | ok stop =>
      rw [sum] at translated
      obtain rfl := Option.some.inj (Except.ok.inj translated)
      nofun
  · have range := userRange_of_translated zero translated
    have checked := (checkUserRange_iff_range zero).mpr range
    have limit := range.1
    obtain ⟨segments, run, shape, covered⟩ := tryTranslatedByteBuffer_cover (show ptr < 2 ^ 64 by omega) checked
    obtain ⟨total, entries⟩ := cover_entries covered
    obtain rfl := Option.some.inj (Except.ok.inj (translated.symm.trans run))
    intro slice member
    refine ⟨(shape slice member).1, fun x inside => ?_⟩
    obtain ⟨i, bound, here⟩ := List.getElem_of_mem (List.mem_flatMap.mpr ⟨slice, member, inside⟩)
    rw [total] at bound
    obtain ⟨pa, entry, address⟩ := entries i bound
    obtain rfl : x = pa := by
      have found := List.getElem?_eq_some_iff.mpr ⟨by rw [total]; exact bound, here⟩
      exact Option.some.inj (found.symm.trans entry)
    exact user.address (by omega) (range.2 (ptr + i) (by omega) (by omega)) address

theorem store_stored {x : Nat} {bytes : List UInt8} {frames : List Nat} (inside : ∀ i < bytes.length, (x + i) / 4096 ∈ frames) :
    Stored mm { mm with mem := mm.mem.store x bytes } frames := by
  refine ⟨rfl, fun y outside => Memory.store_outside ?_⟩
  by_contra within
  have between := not_or.mp within
  refine outside ?_
  have here := inside (y - x) (by omega)
  rwa [show x + (y - x) = y by omega] at here

theorem copyToUser_stored (user : UserSpace layout mm self) (dst : Nat) (bytes : List UInt8) :
    wp (copyToUser self.token dst bytes) (fun _ mm' => Stored mm mm' self.userFrames) (fun _ => False) mm := by
  by_cases nonempty : bytes = []
  · subst nonempty
    exact .refl mm _
  · refine wp_intro ?_ ?_
    · intro result mm' run
      by_cases range : UserRange mm.mem self.token dst bytes.length true
      · obtain ⟨mem, success, written⟩ := copyToUser_ok nonempty user.distinct range
        obtain ⟨_, rfl⟩ := Prod.mk.inj (Except.ok.inj (run.symm.trans success))
        refine ⟨rfl, fun x outside => written.outside x fun i inside address => outside ?_⟩
        have limit := range.1
        exact user.address (by omega) (range.2 (dst + i) (by omega) (by omega)) address
      · have refused := copyToUser_refused nonempty range
        obtain ⟨_, rfl⟩ := Prod.mk.inj (Except.ok.inj (run.symm.trans refused))
        exact .refl _ _
    · intro fault run
      by_cases range : UserRange mm.mem self.token dst bytes.length true
      · obtain ⟨mem, success, _⟩ := copyToUser_ok nonempty user.distinct range
        cases run.symm.trans success
      · cases run.symm.trans (copyToUser_refused nonempty range)

theorem UserSpace.refmut (user : UserSpace layout mm self) {addr size align pa : Nat}
    (found : tryTranslatedRefmut mm.mem self.token addr size align = some pa) :
    ∀ i < size, (pa + i) / 4096 ∈ self.userFrames := by
  unfold tryTranslatedRefmut at found
  by_cases refused : size = 0 ∨ addr = 0 ∨ addr % align ≠ 0
  · rw [if_pos refused] at found
    cases found
  rw [if_neg refused] at found
  cases sum : checkedAdd addr size with
  | none =>
    rw [sum] at found
    cases found
  | some stop =>
    rw [sum] at found
    dsimp only at found
    split_ifs at found with large crossing unchecked
    have total := checkedAdd_eq_some.mp sum
    have positive : size ≠ 0 := fun zero => refused (Or.inl zero)
    have range := (checkUserRange_iff_range positive).mp (by simpa using unchecked)
    have limit := range.1
    obtain ⟨pte, ⟨_, entry, flag⟩, place⟩ := (range.2 addr (by omega) (by omega)).address (by omega) rfl
    obtain rfl := Option.some.inj (found.symm.trans place)
    rw [user.whole.fromToken_translate] at entry
    have frame := user.frame entry flag
    intro i inside
    have onPage : addr / 4096 = (stop - 1) / 4096 := not_not.mp crossing
    rwa [show (pte.ppn * 4096 + addr % 4096 + i) / 4096 = pte.ppn by omega]

/-! ### The trap context -/

/-- The trap-context page has a frame of its own, out of the program's reach. -/
theorem UserSpace.trapFrame (user : UserSpace layout mm self) : ∃ frame ∈ self.dataFrames, frame ∉ self.userFrames ∧
    self.pageTable.leaf mm.mem trapContextVpn = .new frame (PTEFlags.R ||| PTEFlags.W ||| PTEFlags.V) := by
  obtain ⟨trap, member, start, stop, perm⟩ := user.trap
  have held : trap.Holds trapContextVpn := by
    unfold MapArea.Holds
    rw [start, stop]
    decide
  obtain ⟨i, inside, _, entry⟩ := (user.whole.placed trap member).at held
  simp only [targets_framed (user.framed trap member)] at inside entry
  have owned := List.getElem_mem inside
  refine ⟨trap.frames[i], frames_subset member _ owned, ?_, ?_⟩
  · intro reachable
    obtain ⟨area, other, flag, frame⟩ := mem_userFrames.mp reachable
    obtain rfl := user.whole.area_unique member other owned frame
    rw [perm] at flag
    exact absurd flag (by decide)
  · rw [entry, perm]

theorem UserSpace.stored {frames : List Nat} (user : UserSpace layout mm self) (stored : Stored mm mm' frames)
    (mine : ∀ p ∈ frames, p ∈ self.dataFrames) : UserSpace layout mm' self :=
  have wider : Stored mm mm' self.dataFrames :=
    ⟨stored.allocator, fun x outside => stored.outside x fun inside => outside (mine _ inside)⟩
  ⟨wider.space user.whole, user.framed, user.trap⟩

theorem UserSpace.other {F G : List Nat} (user : UserSpace layout mm self) (step : (frameStore layout).Evolves mm mm' F G)
    (apart : ∀ p ∈ self.frames, p ∉ F) : UserSpace layout mm' self :=
  ⟨user.whole.other step apart, user.framed, user.trap⟩

/-- A program is loaded, and its pages are written, beside what is there already. -/
theorem Image.beside {mm'' : Mm} {elf : ElfFile} {old : List Nat} (image : Image layout mm mm' elf self)
    (before : (frameStore layout).Owns mm old) (stored : Stored mm' mm'' self.userFrames) :
    (frameStore layout).Evolves mm mm'' old (old ++ self.frames) := by
  have loaded : (frameStore layout).Evolves mm mm' old (self.frames ++ old) := image.evolves.frame before
  have written := stored.evolves loaded.owns fun p inside =>
    List.mem_append_left _ (List.mem_append_right _ (userFrames_subset inside))
  exact loaded.trans (written.perm (.refl _) List.perm_append_comm)

end

end SecureIpc

import SecureIpc.Mm.UserSpace

/-!
The memory of a program as the program sees it: a sequence of bytes in which a store through the
page table is a store at the virtual address.
-/

namespace SecureIpc
open Lib

/-! ### Copies one after another -/

section
variable {mem mem₁ mem₂ : PhysMem} {token dst : Nat} {first second : List UInt8}

theorem UserRange.shorter {ptr len short : Nat} {write : Bool} (range : UserRange mem token ptr len write)
    (less : short ≤ len) : UserRange mem token ptr short write :=
  ⟨by have limit := range.1; omega, fun a least below => range.2 a least (by omega)⟩

theorem UserRange.part {ptr len ptr' len' : Nat} {write : Bool} (range : UserRange mem token ptr len write)
    (above : ptr ≤ ptr') (below : ptr' + len' ≤ ptr + len) : UserRange mem token ptr' len' write :=
  ⟨Nat.le_trans below range.1, fun a least less => range.2 a (by omega) (by omega)⟩

theorem UserRange.append {ptr len more : Nat} {write : Bool} (left : UserRange mem token ptr len write)
    (right : UserRange mem token (ptr + len) more write) : UserRange mem token ptr (len + more) write := by
  refine ⟨by have limit := right.1; omega, fun a least below => ?_⟩
  by_cases early : a < ptr + len
  · exact left.2 a least early
  · exact right.2 a (by omega) (by omega)

theorem UserRange.congr {ptr len : Nat} {write : Bool}
    (same : ∀ vpn, (PageTable.fromToken token).translate mem₁ vpn = (PageTable.fromToken token).translate mem vpn)
    (range : UserRange mem token ptr len write) : UserRange mem₁ token ptr len write :=
  ⟨range.1, fun a least below => userPage_congr (same _) (range.2 a least below)⟩

theorem Written.nil : Written mem mem token dst [] := ⟨nofun, fun _ _ => rfl⟩

/-- A copy right behind another one leaves the first one alone. -/
theorem Written.append (distinct : DistinctFrames mem token)
    (range : UserRange mem token dst (first.length + second.length) true) (left : Written mem mem₁ token dst first)
    (right : Written mem₁ mem₂ token (dst + first.length) second) : Written mem mem₂ token dst (first ++ second) := by
  have same : ∀ va, (PageTable.fromToken token).translateVa mem₁ va = (PageTable.fromToken token).translateVa mem va := by
    intro va
    unfold PageTable.translateVa
    rw [left.translate distinct (range.shorter (Nat.le_add_right _ _))]
  refine ⟨?_, ?_⟩
  · intro i inside
    rw [List.length_append] at inside
    by_cases early : i < first.length
    · obtain ⟨pa, address, value⟩ := left.inside i early
      refine ⟨pa, address, ?_⟩
      rw [List.getElem_append_left early, ← value]
      apply right.outside
      intro j less clash
      rw [same, Nat.add_assoc] at clash
      have equal := distinct.injective range inside (show first.length + j < _ by omega) address clash
      omega
    · obtain ⟨pa, address, value⟩ := right.inside (i - first.length) (by omega)
      rw [same, show dst + first.length + (i - first.length) = dst + i by omega] at address
      refine ⟨pa, address, ?_⟩
      rw [List.getElem_append_right (Nat.le_of_not_lt early), value]
  · intro pa outside
    rw [List.length_append] at outside
    rw [right.outside pa, left.outside pa]
    · intro i less
      exact outside i (by omega)
    · intro i less
      rw [same, Nat.add_assoc]
      exact outside (first.length + i) (by omega)

end

/-! ### The view of a program -/

/-- The program reads `view` in its pages. -/
structure Shows (mem : PhysMem) (token : Nat) (view : Memory) : Prop where
  distinct : DistinctFrames mem token
  bytes : ∀ {vpn pte}, UserEntry mem token vpn pte → ∀ i < 4096, mem (pte.ppn * 4096 + i) = view (vpn * 4096 + i)

def SameTable (mem mem' : PhysMem) (token : Nat) : Prop :=
  ∀ vpn, (PageTable.fromToken token).translate mem' vpn = (PageTable.fromToken token).translate mem vpn

/-- The `size` bytes at `addr` lie at `pa`, on one page that the program can write. -/
structure Refers (mem : PhysMem) (token addr size pa : Nat) : Prop where
  nonzero : addr ≠ 0
  range : UserRange mem token addr size true
  onPage : addr % 4096 + size ≤ 4096
  place : ∃ pte, UserEntry mem token (addr / 4096) pte ∧ pa = pte.ppn * 4096 + addr % 4096

section
variable {mem mem' mem'' : PhysMem} {token vpn addr size pa : Nat} {pte : PageTableEntry} {view : Memory} {bytes : List UInt8}

theorem SameTable.refl (mem : PhysMem) (token : Nat) : SameTable mem mem token := fun _ => rfl

theorem SameTable.trans (first : SameTable mem mem' token) (second : SameTable mem' mem'' token) : SameTable mem mem'' token :=
  fun vpn => (second vpn).trans (first vpn)

theorem SameTable.symm (same : SameTable mem mem' token) : SameTable mem' mem token := fun vpn => (same vpn).symm

theorem SameTable.range {len : Nat} {write : Bool} (same : SameTable mem mem' token) :
    UserRange mem' token addr len write ↔ UserRange mem token addr len write :=
  ⟨UserRange.congr same.symm, UserRange.congr same⟩

theorem SameTable.entry (same : SameTable mem mem' token) : UserEntry mem' token vpn pte ↔ UserEntry mem token vpn pte := by
  unfold UserEntry
  rw [same vpn]

theorem SameTable.refers (same : SameTable mem mem' token) (refers : Refers mem token addr size pa) :
    Refers mem' token addr size pa := by
  obtain ⟨pte, entry, place⟩ := refers.place
  exact ⟨refers.nonzero, same.range.mpr refers.range, refers.onPage, pte, same.entry.mpr entry, place⟩

theorem TableNode.of_same {root node : Nat} (same : ∀ x, TableNode mem root (x / 4096) → mem' x = mem x)
    (known : TableNode mem' root node) : TableNode mem root node := by
  have frame : ∀ {node}, TableNode mem root node → ∀ x, x / 4096 = node → mem' x = mem x := by
    intro node known x onFrame
    exact same x (onFrame ▸ known)
  cases known with
  | root => exact .root
  | second small child =>
    rw [child_congr (frame .root) small] at child
    exact .second small child
  | third small small' child child' =>
    rw [child_congr (frame .root) small] at child
    rw [child_congr (frame (.second small child)) small'] at child'
    exact .third small small' child child'

theorem DistinctFrames.of_same (distinct : DistinctFrames mem token)
    (same : ∀ x, TableNode mem (PageTable.fromToken token).rootPpn (x / 4096) → mem' x = mem x) :
    SameTable mem mem' token ∧ DistinctFrames mem' token := by
  have table : SameTable mem mem' token := translate_of_nodes same
  refine ⟨table, fun first second => ?_, fun entry known => ?_⟩
  · exact distinct.pages (table.entry.mp first) (table.entry.mp second)
  · exact distinct.nodes (table.entry.mp entry) (known.of_same same)

theorem DistinctFrames.shows (distinct : DistinctFrames mem token) :
    Shows mem token fun addr => (userByte mem token addr).getD 0 := by
  refine ⟨distinct, fun {vpn pte} entry i inside => ?_⟩
  obtain ⟨low, leaf, _⟩ := entry
  have whole : vpn * 4096 + 4096 ≤ 2 ^ 38 := by omega
  have below : vpn * 4096 + i < 2 ^ 38 := Nat.lt_of_lt_of_le (Nat.add_lt_add_left inside _) whole
  have page : (vpn * 4096 + i) / 4096 = vpn := by omega
  have offset : (vpn * 4096 + i) % 4096 = i := by omega
  rw [← page] at leaf
  have address := translateVa_below below leaf
  rw [offset] at address
  rw [userByte, address]
  rfl

theorem Shows.userByte {write : Bool} (shows : Shows mem token view) (below : addr < 2 ^ 38)
    (page : UserPage mem token write (addr / 4096)) : userByte mem token addr = some (view addr) := by
  obtain ⟨pte, entry, address⟩ := page.address below rfl
  rw [SecureIpc.userByte, address, Option.map_some, shows.bytes entry _ (Nat.mod_lt _ (by decide))]
  congr 2
  omega

theorem Shows.store (shows : Shows mem token view) (refers : Refers mem token addr size pa) (whole : bytes.length = size) :
    SameTable mem (mem.store pa bytes) token ∧ Shows (mem.store pa bytes) token (view.store addr bytes) := by
  obtain ⟨pte, entry, rfl⟩ := refers.place
  have onPage := refers.onPage
  have outside : ∀ x, x / 4096 ≠ pte.ppn → mem.store (pte.ppn * 4096 + addr % 4096) bytes x = mem x := by
    intro x other
    exact Memory.store_outside (by omega)
  obtain ⟨same, distinct⟩ := shows.distinct.of_same fun x known =>
    outside x fun here => shows.distinct.nodes entry (here ▸ known)
  refine ⟨same, distinct, fun {vpn' pte'} entry' i inside => ?_⟩
  have before := same.entry.mp entry'
  have value := shows.bytes before i inside
  by_cases here : pte'.ppn = pte.ppn
  · have page := shows.distinct.pages before entry here
    subst page
    unfold Memory.store
    rw [here] at value ⊢
    have inRange : (pte.ppn * 4096 + addr % 4096 ≤ pte.ppn * 4096 + i ∧
        pte.ppn * 4096 + i < pte.ppn * 4096 + addr % 4096 + bytes.length) ↔
          addr ≤ addr / 4096 * 4096 + i ∧ addr / 4096 * 4096 + i < addr + bytes.length := by omega
    have offset : pte.ppn * 4096 + i - (pte.ppn * 4096 + addr % 4096) = addr / 4096 * 4096 + i - addr := by omega
    rw [if_congr inRange (congrArg (bytes.getD · 0) offset) value]
  · have apart : vpn' ≠ addr / 4096 := by
      intro page
      subst page
      obtain ⟨_, leaf, _⟩ := before
      obtain ⟨_, leaf', _⟩ := entry
      exact here (congrArg PageTableEntry.ppn (Option.some.inj (leaf.symm.trans leaf')))
    rw [outside _ (by omega), value, Memory.store_outside (by omega)]

/-! ### Validated references -/

theorem tryTranslatedRefmut_refers (found : tryTranslatedRefmut mem token addr size size = some pa) :
    Refers mem token addr size pa := by
  unfold tryTranslatedRefmut at found
  by_cases refused : size = 0 ∨ addr = 0 ∨ addr % size ≠ 0
  · rw [if_pos refused] at found
    cases found
  rw [if_neg refused] at found
  cases sum : checkedAdd addr size with
  | none =>
    rw [sum] at found
    cases found
  | some stop =>
    rw [sum] at found
    dsimp only at found
    split_ifs at found with large crossing unchecked
    have total := checkedAdd_eq_some.mp sum
    have positive : size ≠ 0 := fun zero => refused (Or.inl zero)
    have range := (checkUserRange_iff_range positive).mp (by simpa using unchecked)
    have limit := range.1
    obtain ⟨pte, entry, place⟩ := (range.2 addr (by omega) (by omega)).address (by omega) rfl
    have onPage : addr / 4096 = (stop - 1) / 4096 := not_not.mp crossing
    exact ⟨fun zero => refused (Or.inr (Or.inl zero)), range, by omega, pte, entry, Option.some.inj (found.symm.trans place)⟩

theorem tryTranslatedRefmut_some (nonzero : addr ≠ 0) (aligned : addr % size = 0) (divides : size ∣ 4096)
    (range : UserRange mem token addr size true) : ∃ pa, tryTranslatedRefmut mem token addr size size = some pa := by
  have positive : size ≠ 0 := by
    intro zero
    rw [zero] at divides
    exact absurd divides (by decide)
  have limit := range.1
  have accepted : ¬(size = 0 ∨ addr = 0 ∨ addr % size ≠ 0) := by
    rw [not_or, not_or]
    exact ⟨positive, nonzero, not_not.mpr aligned⟩
  have sum : checkedAdd addr size = some (addr + size) := checkedAdd_eq_some.mpr ⟨by omega, rfl⟩
  have small : ¬userVaLimit < addr + size := by
    have value : userVaLimit = 2 ^ 38 := rfl
    omega
  have onPage : ¬addr / pageSize ≠ (addr + size - 1) / pageSize := by
    obtain ⟨count, total⟩ := divides
    have multiple : addr % 4096 % size = 0 := by
      rw [Nat.mod_mod_of_dvd _ ⟨count, total⟩]
      exact aligned
    obtain ⟨place, start⟩ := Nat.dvd_of_mod_eq_zero multiple
    have less : place < count := by
      apply Nat.lt_of_mul_lt_mul_left (a := size)
      rw [← start, ← total]
      exact Nat.mod_lt _ (by decide)
    have fits : size * (place + 1) ≤ size * count := Nat.mul_le_mul_left size less
    rw [Nat.mul_add, ← start, ← total] at fits
    show ¬addr / 4096 ≠ (addr + size - 1) / 4096
    omega
  obtain ⟨pte, entry, place⟩ := (range.2 addr (by omega) (by omega)).address (by omega) rfl
  refine ⟨pte.ppn * 4096 + addr % 4096, ?_⟩
  unfold tryTranslatedRefmut
  rw [if_neg accepted, sum]
  dsimp only
  rw [if_neg small, if_neg onPage, (checkUserRange_iff_range positive).mpr range, if_neg (by decide)]
  exact place

end

/-! ### The address space of a process -/

section
variable {layout : Layout} {mm mm' : Mm} {self : MemorySet} {view : Memory}

/-- The view depends on the table and on the frames of the program. -/
theorem Shows.keep {mem' : PhysMem} (shows : Shows mm.mem self.token view) (user : UserSpace layout mm self)
    (same : ∀ x, x / 4096 ∈ self.pageTable.frames ∨ x / 4096 ∈ self.userFrames → mem' x = mm.mem x) :
    SameTable mm.mem mem' self.token ∧ Shows mem' self.token view := by
  have nodes : ∀ x, TableNode mm.mem (PageTable.fromToken self.token).rootPpn (x / 4096) → mem' x = mm.mem x := by
    intro x known
    rw [user.whole.fromToken_root] at known
    exact same x (Or.inl (user.whole.tableNode known))
  obtain ⟨table, distinct⟩ := shows.distinct.of_same nodes
  refine ⟨table, distinct, fun {vpn pte} entry i inside => ?_⟩
  have before := table.entry.mp entry
  have leaf := before.2.1
  rw [user.whole.fromToken_translate] at leaf
  have frame := user.frame leaf before.2.2
  rw [← shows.bytes before i inside]
  apply same
  rw [show (pte.ppn * 4096 + i) / 4096 = pte.ppn by omega]
  exact Or.inr frame

theorem ElfFile.stackBottom_aligned (elf : ElfFile) : elf.stackBottom % 4096 = 0 := by
  unfold stackBottom VirtAddr.toUsize VirtAddr.ofVpn pageSize
  split <;> omega

theorem ElfFile.stackTop_aligned (elf : ElfFile) : elf.stackTop % 4096 = 0 := by
  have bottom := elf.stackBottom_aligned
  unfold stackTop userStackSize
  omega

/-- A stack in the lower half of the address space has two pages. -/
theorem Image.stackTop_eq {elf : ElfFile} (image : Image layout mm mm' elf self) (low : elf.stackTop ≤ 2 ^ 38) :
    elf.stackTop = elf.stackBottom + 8192 := by
  have ordered := image.ordered
  have aligned := elf.stackBottom_aligned
  have word : elf.stackBottom < 2 ^ 64 := Nat.mod_lt _ (Nat.two_pow_pos 64)
  have top : elf.stackTop = (elf.stackBottom + 8192) % 2 ^ 64 := rfl
  unfold ElfFile.stackArea VirtAddr.floor VirtAddr.ceil VirtAddr.ofUsize pageSize at ordered
  dsimp only at ordered
  by_contra wrapped
  have high : 2 ^ 64 - 8192 ≤ elf.stackBottom := by omega
  split at ordered <;> omega

theorem Image.stackPage {elf : ElfFile} {a : Nat} (image : Image layout mm mm' elf self) (low : elf.stackTop ≤ 2 ^ 38)
    (above : elf.stackBottom ≤ a) (below : a < elf.stackTop) : UserPage mm'.mem self.token true (a / 4096) := by
  obtain ⟨area, member, stack⟩ := image.stack
  have bottom := elf.stackBottom_aligned
  have top := elf.stackTop_aligned
  have start : area.vpnStart = elf.stackBottom / 4096 := by
    rw [stack]
    show VirtAddr.floor (VirtAddr.ofUsize elf.stackBottom) = _
    rw [ofUsize_below (by omega)]
    rfl
  have stop : area.vpnEnd = elf.stackTop / 4096 := by
    have shape : area.vpnEnd = elf.stackArea.vpnEnd := by rw [stack]
    rw [shape, ElfFile.stackArea, ofUsize_below low, VirtAddr.ceil, if_neg (by omega)]
    show (elf.stackTop - 1 + 4096) / 4096 = elf.stackTop / 4096
    omega
  have perm : area.mapPerm = PTEFlags.R ||| PTEFlags.W ||| PTEFlags.U := by rw [stack]; rfl
  have held : area.Holds (a / 4096) := by
    rw [MapArea.Holds, start, stop, Nat.div_lt_iff_lt_mul (by decide), Nat.div_mul_cancel (Nat.dvd_of_mod_eq_zero top)]
    exact ⟨Nat.div_le_div_right above, below⟩
  have whole := image.user.whole
  have placed := whole.placed area member
  obtain ⟨i, inside, _, entry⟩ := placed.at held
  have found := translate_of_valid (placed.valid held)
  rw [← whole.fromToken_translate] at found
  have flags : (self.pageTable.leaf mm'.mem (a / 4096)).flags = area.mapPerm ||| PTEFlags.V := by
    rw [entry]
    exact PageTableEntry.flags_new (or_V_small (perm_small placed.perm))
  refine ⟨_, translate_eq_some.mp found, ?_, ?_⟩
  · rw [flags, perm]
    decide
  · rw [flags, perm]
    decide

end

end SecureIpc

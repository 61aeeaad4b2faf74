import SecureIpc.Mm.UserAccess
import SecureIpc.Mm.UserBuffer
import SecureIpc.Mm.Tree

/-!
Copies between the kernel and user memory write and read exactly the bytes of the validated range,
or nothing at all.
-/

namespace SecureIpc
open Lib

/-! ### Segments -/

section
variable {mem : PhysMem} {segments : List Slice} {bytes : List UInt8}

theorem loadSegments_eq (mem : PhysMem) (segments : List Slice) :
    loadSegments mem segments = (segments.flatMap Slice.addrs).map mem := by
  induction segments with
  | nil => rfl
  | cons segment rest ih =>
    have first : mem.load segment.base segment.len = segment.addrs.map mem := by
      rw [Slice.addrs, List.map_map]
      rfl
    rw [loadSegments, List.flatMap_cons, List.flatMap_cons, List.map_append, ← ih, first]
    rfl

theorem mem_addrs {segment : Slice} {x : Nat} : x ∈ segment.addrs ↔ segment.base ≤ x ∧ x < segment.base + segment.len := by
  unfold Slice.addrs
  rw [List.mem_map]
  constructor
  · rintro ⟨i, inside, rfl⟩
    rw [List.mem_range] at inside
    omega
  · rintro ⟨least, less⟩
    exact ⟨x - segment.base, List.mem_range.mpr (by omega), by omega⟩

theorem storeSegments_outside {x : Nat} (outside : x ∉ segments.flatMap Slice.addrs) :
    storeSegments segments bytes mem x = mem x := by
  induction segments generalizing bytes mem with
  | nil => rfl
  | cons segment rest ih =>
    rw [List.flatMap_cons, List.mem_append, not_or, mem_addrs] at outside
    rw [storeSegments, ih outside.2]
    apply Memory.store_outside
    rw [List.length_take]
    omega

theorem storeSegments_inside {i : Nat} (apart : (segments.flatMap Slice.addrs).Nodup)
    (inside : i < bytes.length) {x : Nat} (addr : (segments.flatMap Slice.addrs)[i]? = some x) :
    storeSegments segments bytes mem x = bytes[i] := by
  induction segments generalizing bytes mem i with
  | nil => cases addr
  | cons segment rest ih =>
    have count : segment.addrs.length = segment.len := by simp [Slice.addrs]
    rw [List.flatMap_cons] at apart addr
    rw [storeSegments]
    by_cases first : i < segment.len
    · rw [List.getElem?_append_left (by omega)] at addr
      have later : x ∉ rest.flatMap Slice.addrs := fun again =>
        (List.nodup_append.mp apart).2.2 x (List.mem_of_getElem? addr) x again rfl
      have place : x = segment.base + i := by
        have entry : segment.addrs[i]? = some (segment.base + i) := by simp [Slice.addrs, List.getElem?_range first]
        exact Option.some.inj (addr.symm.trans entry)
      rw [storeSegments_outside later, place, Memory.store_inside (by rw [List.length_take]; omega), List.getElem_take]
    · rw [List.getElem?_append_right (by omega), count] at addr
      have room : i - segment.len < (bytes.drop segment.len).length := by
        rw [List.length_drop]
        omega
      rw [ih (List.nodup_append.mp apart).2.1 room addr, List.getElem_drop]
      congr 1
      omega

end

/-! ### Frames of user pages -/

/-- The frames that hold the nodes of the table below `root`. -/
inductive TableNode (mem : PhysMem) (root : Nat) : Nat → Prop where
  | root : TableNode mem root root
  | second {index node : Nat} (small : index < 512) (child : PageTable.child mem root index = some node) :
      TableNode mem root node
  | third {index index' between node : Nat} (small : index < 512) (small' : index' < 512)
      (child : PageTable.child mem root index = some between) (child' : PageTable.child mem between index' = some node) :
      TableNode mem root node

def UserEntry (mem : PhysMem) (token vpn : Nat) (pte : PageTableEntry) : Prop :=
  vpn * 4096 < 2 ^ 38 ∧ (PageTable.fromToken token).translate mem vpn = some pte ∧
    PTEFlags.contains pte.flags PTEFlags.U = true

/-- Every user page has a frame of its own: no other user page is mapped to it, and it holds no node
of the table. -/
structure DistinctFrames (mem : PhysMem) (token : Nat) : Prop where
  pages : ∀ {vpn vpn' pte pte'}, UserEntry mem token vpn pte → UserEntry mem token vpn' pte' → pte.ppn = pte'.ppn → vpn = vpn'
  nodes : ∀ {vpn pte}, UserEntry mem token vpn pte → ¬TableNode mem (PageTable.fromToken token).rootPpn pte.ppn

section
variable {mem mem' : PhysMem} {token : Nat} {table : PageTable}

/-- Translation looks at the nodes of the table only. -/
theorem translate_of_nodes (same : ∀ x, TableNode mem table.rootPpn (x / 4096) → mem' x = mem x) (vpn : Nat) :
    table.translate mem' vpn = table.translate mem vpn := by
  obtain ⟨smallA, smallB, smallC⟩ := indexes_small vpn
  have frame : ∀ {node}, TableNode mem table.rootPpn node → ∀ x, x / 4096 = node → mem' x = mem x := by
    intro node known x onFrame
    exact same x (onFrame ▸ known)
  rw [translate_eq_walk, translate_eq_walk]
  simp only [upper, walk]
  rw [child_congr (frame .root) smallA]
  cases first : PageTable.child mem table.rootPpn (VirtPageNum.indexes vpn).1 with
  | none => simp only [Option.bind_none, Option.map_none]
  | some second =>
    rw [Option.bind_some, Option.bind_some, child_congr (frame (.second smallA first)) smallB]
    cases last : PageTable.child mem second (VirtPageNum.indexes vpn).2.1 with
    | none => simp only [Option.bind_none, Option.map_none]
    | some third =>
      rw [Option.bind_some, Option.map_some, Option.map_some,
        readPte_congr (frame (.third smallA smallB first last)) smallC]

theorem UserPage.address {vpn : Nat} {write : Bool} {addr : Nat} (page : UserPage mem token write vpn)
    (below : addr < 2 ^ 38) (onPage : addr / 4096 = vpn) : ∃ pte, UserEntry mem token vpn pte ∧
      (PageTable.fromToken token).translateVa mem (VirtAddr.ofUsize addr) = some (pte.ppn * 4096 + addr % 4096) := by
  obtain ⟨pte, leaf, user, _⟩ := page
  have found := translate_eq_some.mpr leaf
  exact ⟨pte, ⟨by omega, found, user⟩, translateVa_below below (by rw [onPage]; exact found)⟩

end

/-! ### Copies -/

section
variable {mm : Mm} {token dst : Nat} {bytes : List UInt8}

/-- The addresses of the range `[ptr, ptr + len)` are those of user pages that allow the access. -/
def UserRange (mem : PhysMem) (token ptr len : Nat) (write : Bool) : Prop :=
  ptr + len ≤ 2 ^ 38 ∧ ∀ a, ptr ≤ a → a < ptr + len → UserPage mem token write (a / 4096)

theorem checkUserRange_iff_range {mem : PhysMem} {ptr len : Nat} {write : Bool} (positive : len ≠ 0) :
    checkUserRange mem token ptr len write = true ↔ UserRange mem token ptr len write := by
  rw [checkUserRange_iff, UserRange]
  constructor
  · rintro (zero | ⟨_, _, limit, pages⟩)
    · exact absurd zero positive
    · exact ⟨limit, pages⟩
  · rintro ⟨limit, pages⟩
    exact Or.inr ⟨by omega, by omega, limit, pages⟩

/-- The segments of a range hold, one after the other, the bytes its addresses translate to. -/
theorem UserRange.segments {mem : PhysMem} {ptr len : Nat} {write : Bool} (range : UserRange mem token ptr len write)
    (positive : len ≠ 0) : ∃ segments, tryTranslatedByteBuffer mem token ptr len write = .ok (some segments) ∧
      (segments.flatMap Slice.addrs).length = len ∧
      ∀ i < len, ∃ pa, (segments.flatMap Slice.addrs)[i]? = some pa ∧
        (PageTable.fromToken token).translateVa mem (VirtAddr.ofUsize (ptr + i)) = some pa := by
  have limit := range.1
  obtain ⟨segments, run, _, covered⟩ :=
    tryTranslatedByteBuffer_cover (by omega) ((checkUserRange_iff_range positive).mpr range)
  obtain ⟨total, entries⟩ := cover_entries covered
  exact ⟨segments, run, total, entries⟩

/-- `mem'` is `mem` with `bytes` at the user addresses from `dst` on. -/
structure Written (mem mem' : PhysMem) (token dst : Nat) (bytes : List UInt8) : Prop where
  inside : ∀ i (inside : i < bytes.length), ∃ pa,
    (PageTable.fromToken token).translateVa mem (VirtAddr.ofUsize (dst + i)) = some pa ∧ mem' pa = bytes[i]
  outside : ∀ pa, (∀ i < bytes.length, (PageTable.fromToken token).translateVa mem (VirtAddr.ofUsize (dst + i)) ≠ some pa) →
    mem' pa = mem pa

/-- Different addresses of user pages are different bytes of memory. -/
theorem DistinctFrames.injective {mem : PhysMem} {ptr len : Nat} {write : Bool} (distinct : DistinctFrames mem token)
    (range : UserRange mem token ptr len write) {i j pa : Nat} (first : i < len) (second : j < len)
    (left : (PageTable.fromToken token).translateVa mem (VirtAddr.ofUsize (ptr + i)) = some pa)
    (right : (PageTable.fromToken token).translateVa mem (VirtAddr.ofUsize (ptr + j)) = some pa) : i = j := by
  obtain ⟨limit, pages⟩ := range
  obtain ⟨pte, entry, address⟩ := (pages (ptr + i) (by omega) (by omega)).address (by omega) rfl
  obtain ⟨pte', entry', address'⟩ := (pages (ptr + j) (by omega) (by omega)).address (by omega) rfl
  have here : pa = pte.ppn * 4096 + (ptr + i) % 4096 := Option.some.inj (left.symm.trans address)
  have there : pa = pte'.ppn * 4096 + (ptr + j) % 4096 := Option.some.inj (right.symm.trans address')
  have samePage := distinct.pages entry entry' (by omega)
  omega

/-- The segments of a range do not overlap. -/
theorem DistinctFrames.nodup {mem : PhysMem} {ptr len : Nat} {write : Bool} {addrs : List Nat}
    (distinct : DistinctFrames mem token) (range : UserRange mem token ptr len write) (total : addrs.length = len)
    (entries : ∀ i < len, ∃ pa, addrs[i]? = some pa ∧
      (PageTable.fromToken token).translateVa mem (VirtAddr.ofUsize (ptr + i)) = some pa) : addrs.Nodup := by
  rw [List.Nodup, List.pairwise_iff_getElem]
  intro i j first second less same
  obtain ⟨pa, found, address⟩ := entries i (by omega)
  obtain ⟨pa', found', address'⟩ := entries j (by omega)
  rw [List.getElem?_eq_getElem first, same, ← List.getElem?_eq_getElem second] at found
  obtain rfl := Option.some.inj (found.symm.trans found')
  have := distinct.injective range (by omega) (by omega) address address'
  omega

theorem copyToUser_ok (nonempty : bytes ≠ []) (distinct : DistinctFrames mm.mem token)
    (range : UserRange mm.mem token dst bytes.length true) :
    ∃ mem', copyToUser token dst bytes mm = .ok (.ok (), { mm with mem := mem' }) ∧ Written mm.mem mem' token dst bytes := by
  have positive : bytes.length ≠ 0 := fun zero => nonempty (List.length_eq_zero_iff.mp zero)
  obtain ⟨segments, run, total, entries⟩ := range.segments positive
  have apart : (segments.flatMap Slice.addrs).Nodup := distinct.nodup range total entries
  refine ⟨storeSegments segments bytes mm.mem, ?_, ⟨fun i inside => ?_, fun pa outside => ?_⟩⟩
  · unfold copyToUser
    rw [if_neg positive]
    simp only [bind, StateT.bind, Program.read, Except.bind, Program.lift, run]
    rfl
  · obtain ⟨pa, found, address⟩ := entries i inside
    exact ⟨pa, address, storeSegments_inside apart inside found⟩
  · apply storeSegments_outside
    intro member
    obtain ⟨i, found⟩ := List.mem_iff_getElem?.mp member
    obtain ⟨before, _⟩ := List.getElem?_eq_some_iff.mp found
    obtain ⟨pa', found', address⟩ := entries i (by omega)
    obtain rfl := Option.some.inj (found.symm.trans found')
    exact outside i (by omega) address

theorem copyToUser_refused (nonempty : bytes ≠ []) (refused : ¬UserRange mm.mem token dst bytes.length true) :
    copyToUser token dst bytes mm = .ok (.error .invalidAddress, mm) := by
  have positive : bytes.length ≠ 0 := fun zero => nonempty (List.length_eq_zero_iff.mp zero)
  have checked : checkUserRange mm.mem token dst bytes.length true = false := by
    rw [← Bool.not_eq_true, checkUserRange_iff_range positive]
    exact refused
  have run : tryTranslatedByteBuffer mm.mem token dst bytes.length true = .ok none := by
    unfold tryTranslatedByteBuffer
    rw [checked]
    rfl
  unfold copyToUser
  rw [if_neg positive]
  simp only [bind, StateT.bind, Program.read, Except.bind, Program.lift, run]
  rfl

theorem copyFromUser_ok {mem : PhysMem} {size : Nat} (positive : size ≠ 0) (range : UserRange mem token dst size false) :
    ∃ value, copyFromUser mem token dst size = .ok (.ok value) ∧ value.length = size ∧
      ∀ i (inside : i < value.length), userByte mem token (dst + i) = some value[i] := by
  obtain ⟨segments, run, total, entries⟩ := range.segments positive
  refine ⟨loadSegments mem segments, ?_, ?_, fun i inside => ?_⟩
  · unfold copyFromUser
    rw [if_neg positive]
    simp only [bind, Except.bind, run, pure, Except.pure]
  · rw [loadSegments_eq, List.length_map, total]
  · simp only [loadSegments_eq, List.length_map, total] at inside ⊢
    obtain ⟨pa, found, address⟩ := entries i inside
    obtain ⟨_, same⟩ := List.getElem?_eq_some_iff.mp found
    rw [userByte, address, Option.map_some, List.getElem_map, same]

/-- A copy to user memory changes no node of the table, so every page keeps its entry. -/
theorem Written.translate {mem mem' : PhysMem} (written : Written mem mem' token dst bytes) (distinct : DistinctFrames mem token)
    (range : UserRange mem token dst bytes.length true) (vpn : Nat) :
    (PageTable.fromToken token).translate mem' vpn = (PageTable.fromToken token).translate mem vpn := by
  apply translate_of_nodes
  intro x known
  apply written.outside
  intro i inside address
  obtain ⟨limit, pages⟩ := range
  obtain ⟨pte, entry, same⟩ := (pages (dst + i) (by omega) (by omega)).address (by omega) rfl
  have place : x = pte.ppn * 4096 + (dst + i) % 4096 := Option.some.inj (address.symm.trans same)
  refine distinct.nodes entry ?_
  rwa [show x / 4096 = pte.ppn by omega] at known

theorem Written.userByte {mem mem' : PhysMem} (written : Written mem mem' token dst bytes) (distinct : DistinctFrames mem token)
    (range : UserRange mem token dst bytes.length true) {i : Nat} (inside : i < bytes.length) :
    SecureIpc.userByte mem' token (dst + i) = some bytes[i] := by
  obtain ⟨pa, address, value⟩ := written.inside i inside
  have same : (PageTable.fromToken token).translateVa mem' (VirtAddr.ofUsize (dst + i)) =
      (PageTable.fromToken token).translateVa mem (VirtAddr.ofUsize (dst + i)) := by
    unfold PageTable.translateVa
    rw [written.translate distinct range]
  rw [SecureIpc.userByte, same, address, Option.map_some, value]

theorem userPage_congr {mem mem' : PhysMem} {write : Bool} {vpn : Nat}
    (same : (PageTable.fromToken token).translate mem' vpn = (PageTable.fromToken token).translate mem vpn)
    (page : UserPage mem token write vpn) : UserPage mem' token write vpn := by
  obtain ⟨pte, leaf, flags⟩ := page
  exact ⟨pte, translate_eq_some.mp (same.trans (translate_eq_some.mpr leaf)), flags⟩

end

theorem userRange_iff {mem : PhysMem} {token ptr len : Nat} {write : Bool} (positive : len ≠ 0) :
    UserRange mem token ptr len write ↔ ptr + len ≤ 2 ^ 38 ∧
      ∀ vpn, vpn * 4096 < ptr + len → ptr < vpn * 4096 + 4096 → UserPage mem token write vpn := by
  rw [UserRange, userPages_iff]
  simp only [Nat.pos_of_ne_zero positive, true_implies]

/-- `copy_to_user` writes a value of `n > 0` bytes exactly when every page of its destination is a
writable user page, and then these bytes and nothing else; `copy_from_user` reads them back. When
it fails it has written nothing. -/
theorem user_copy_exact (mm : Mm) (token dst : Nat) (bytes : List UInt8) (nonempty : bytes ≠ [])
    (distinct : DistinctFrames mm.mem token) :
    ∃ result mm', copyToUser token dst bytes mm = .ok (result, mm') ∧
      (result = .ok () ↔ dst + bytes.length ≤ 2 ^ 38 ∧
        ∀ vpn, vpn * 4096 < dst + bytes.length → dst < vpn * 4096 + 4096 → UserPage mm.mem token true vpn) ∧
      (result = .ok () →
        (∀ i (inside : i < bytes.length), userByte mm'.mem token (dst + i) = some bytes[i]) ∧
        ((∀ vpn, vpn * 4096 < dst + bytes.length → dst < vpn * 4096 + 4096 → UserPage mm.mem token false vpn) →
          copyFromUser mm'.mem token dst bytes.length = .ok (.ok bytes)) ∧
        ∀ pa, (∀ i < bytes.length, (PageTable.fromToken token).translateVa mm.mem (VirtAddr.ofUsize (dst + i)) ≠ some pa) →
          mm'.mem pa = mm.mem pa) ∧
      (result ≠ .ok () → result = .error .invalidAddress ∧ mm' = mm) := by
  have positive : bytes.length ≠ 0 := fun zero => nonempty (List.length_eq_zero_iff.mp zero)
  by_cases range : UserRange mm.mem token dst bytes.length true
  · obtain ⟨mem', run, written⟩ := copyToUser_ok nonempty distinct range
    refine ⟨_, _, run, iff_of_true rfl ((userRange_iff positive).mp range), fun _ => ?_, fun failed => absurd rfl failed⟩
    refine ⟨fun i inside => written.userByte distinct range inside, fun readable => ?_, written.outside⟩
    have still : UserRange mem' token dst bytes.length false := by
      have before := (userRange_iff positive).mpr ⟨range.1, readable⟩
      exact ⟨before.1, fun a least less => userPage_congr (written.translate distinct range _) (before.2 a least less)⟩
    obtain ⟨value, read, count, entries⟩ := copyFromUser_ok positive still
    have same : value = bytes := by
      refine List.ext_getElem count fun i inside inside' => ?_
      exact Option.some.inj ((entries i inside).symm.trans (written.userByte distinct range inside'))
    rw [same] at read
    exact read
  · refine ⟨_, _, copyToUser_refused nonempty range, iff_of_false (by simp) ?_, fun ok => ?_, fun _ => ⟨rfl, rfl⟩⟩
    · rw [← userRange_iff positive]
      exact range
    · cases ok

/-! ### Two pages -/

theorem twoPages_root : ∀ i < 512, PageTable.child twoPages 1 i = if i = 0 then some 2 else none := by decide +kernel

theorem twoPages_second : ∀ i < 512, PageTable.child twoPages 2 i = if i = 0 then some 3 else none := by decide +kernel

theorem twoPages_leaf : ∀ i < 512, readPte twoPages 3 i =
    if i = 0 then .new 5 0x17 else if i = 1 then .new 7 0x17 else .empty := by decide +kernel

theorem twoPages_entry {vpn : Nat} {pte : PageTableEntry} (entry : UserEntry twoPages (8 * 2 ^ 60 + 1) vpn pte) :
    vpn = 0 ∧ pte.ppn = 5 ∨ vpn = 1 ∧ pte.ppn = 7 := by
  obtain ⟨below, found, user⟩ := entry
  obtain ⟨smallA, smallB, smallC⟩ := indexes_small vpn
  have root : (PageTable.fromToken (8 * 2 ^ 60 + 1)).rootPpn = 1 := by decide
  rw [translate_eq_walk, root, upper, walk, twoPages_root _ smallA] at found
  split at found
  · rename_i a
    rw [Option.bind_some, walk, twoPages_second _ smallB] at found
    split at found
    · rename_i b
      rw [Option.bind_some, walk, Option.map_some, twoPages_leaf _ smallC, Option.some.injEq] at found
      have number : vpn = (VirtPageNum.indexes vpn).2.2 := by
        unfold VirtPageNum.indexes at a b ⊢
        dsimp only at a b ⊢
        omega
      split at found
      · rename_i c
        subst found
        exact Or.inl ⟨number.trans c, by decide⟩
      · split at found
        · rename_i c
          subst found
          exact Or.inr ⟨number.trans c, by decide⟩
        · subst found
          cases user
    · cases found
  · cases found

theorem twoPages_distinct : DistinctFrames twoPages (8 * 2 ^ 60 + 1) := by
  refine ⟨fun entry entry' same => ?_, fun entry node => ?_⟩
  · have left := twoPages_entry entry
    have right := twoPages_entry entry'
    omega
  · have frame := twoPages_entry entry
    have nodes : ∀ {n}, TableNode twoPages 1 n → n = 1 ∨ n = 2 ∨ n = 3 := by
      intro n known
      cases known with
      | root => exact Or.inl rfl
      | second small child =>
        rw [twoPages_root _ small] at child
        split at child
        · exact Or.inr (Or.inl (Option.some.inj child).symm)
        · cases child
      | third small small' child child' =>
        rw [twoPages_root _ small] at child
        split at child
        · obtain rfl := Option.some.inj child
          rw [twoPages_second _ small'] at child'
          split at child'
          · exact Or.inr (Or.inr (Option.some.inj child').symm)
          · cases child'
        · cases child
    have number := nodes node
    omega

/-- Ten bytes across the border of the two pages. -/
theorem user_copy_exact_crossing : ∃ result mm', copyToUser (8 * 2 ^ 60 + 1) 4090 (List.replicate 10 7)
    ⟨twoPages, .new⟩ = .ok (result, mm') ∧ result = .ok () ∧
      copyFromUser mm'.mem (8 * 2 ^ 60 + 1) 4090 10 = .ok (.ok (List.replicate 10 7)) := by
  obtain ⟨result, mm', run, success, written, _⟩ :=
    user_copy_exact ⟨twoPages, .new⟩ (8 * 2 ^ 60 + 1) 4090 (List.replicate 10 7) (by decide) twoPages_distinct
  have pages : ∀ write, UserRange twoPages (8 * 2 ^ 60 + 1) 4090 10 write := by
    intro write
    rw [← checkUserRange_iff_range (by decide)]
    cases write <;> decide +kernel
  have ok := success.mpr ((userRange_iff (by decide)).mp (pages true))
  exact ⟨result, mm', run, ok, (written ok).2.1 ((userRange_iff (by decide)).mp (pages false)).2⟩

end SecureIpc

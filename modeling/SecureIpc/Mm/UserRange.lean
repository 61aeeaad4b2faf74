import SecureIpc.Mm.PageTable

/-!
The validation of a user range is exact, and a validated range is translated to page segments that
cover it byte by byte. Both page loops are compared with the same per-address condition, so they
agree on every unaligned start and end, and at the end of the user half of the address space.
-/

namespace SecureIpc
open Lib

/-- `pte` is the level-3 entry of `vpn`, reached from `root` through valid entries. -/
def LeafEntry (mem : PhysMem) (root : Nat) (vpn : Nat) (pte : PageTableEntry) : Prop :=
  ∃ second third, (readPte mem root (VirtPageNum.indexes vpn).1).isValid = true ∧
    second = (readPte mem root (VirtPageNum.indexes vpn).1).ppn ∧
    (readPte mem second (VirtPageNum.indexes vpn).2.1).isValid = true ∧
    third = (readPte mem second (VirtPageNum.indexes vpn).2.1).ppn ∧
    pte = readPte mem third (VirtPageNum.indexes vpn).2.2

def UserPage (mem : PhysMem) (token : Nat) (write : Bool) (vpn : Nat) : Prop :=
  ∃ pte, LeafEntry mem (PageTable.fromToken token).rootPpn vpn pte ∧
    PTEFlags.contains pte.flags PTEFlags.U = true ∧
    PTEFlags.contains pte.flags (if write then PTEFlags.W else PTEFlags.R) = true

/-- The byte that a user address translates to. -/
def userByte (mem : PhysMem) (token addr : Nat) : Option UInt8 :=
  ((PageTable.fromToken token).translateVa mem (VirtAddr.ofUsize addr)).map mem

theorem child_eq_some {mem : PhysMem} {ppn next : Nat} {index : Nat} :
    PageTable.child mem ppn index = some next ↔
      (readPte mem ppn index).isValid = true ∧ next = (readPte mem ppn index).ppn := by
  unfold PageTable.child
  split
  · rename_i valid
    simp only [Option.some.injEq, valid, true_and]
    exact eq_comm
  · rename_i invalid
    simp [invalid]

theorem translate_eq_some {table : PageTable} {mem : PhysMem} {vpn : Nat} {pte : PageTableEntry} :
    table.translate mem vpn = some pte ↔ LeafEntry mem table.rootPpn vpn pte := by
  unfold PageTable.translate PageTable.findPte LeafEntry
  simp only [Option.map_eq_some_iff, bind, Option.bind_eq_some_iff, child_eq_some, pure, Option.some.injEq]
  constructor
  · rintro ⟨addr, ⟨second, ⟨valid₁, rfl⟩, third, ⟨valid₂, rfl⟩, rfl⟩, rfl⟩
    exact ⟨_, _, valid₁, rfl, valid₂, rfl, rfl⟩
  · rintro ⟨second, third, valid₁, rfl, valid₂, rfl, rfl⟩
    exact ⟨_, ⟨_, ⟨valid₁, rfl⟩, _, ⟨valid₂, rfl⟩, rfl⟩, rfl⟩

theorem ofUsize_below {addr : Nat} (below : addr ≤ 2 ^ 38) : VirtAddr.ofUsize addr = addr :=
  Nat.mod_eq_of_lt (by omega)

theorem checkUserPage_iff {mem : PhysMem} {token cur : Nat} {write : Bool} (below : cur ≤ 2 ^ 38) :
    checkUserPage (.fromToken token) mem write cur = true ↔ UserPage mem token write (cur / 4096) := by
  have page : VirtAddr.floor (VirtAddr.ofUsize cur) = cur / 4096 := by
    rw [ofUsize_below below]; rfl
  unfold checkUserPage UserPage
  rw [page]
  cases found : (PageTable.fromToken token).translate mem (cur / 4096) with
  | none =>
    refine iff_of_false (by simp) ?_
    rintro ⟨pte, leaf, _⟩
    rw [translate_eq_some.mpr leaf] at found
    exact absurd found (by simp)
  | some pte =>
    have leaf := translate_eq_some.mp found
    constructor
    · intro passed
      refine ⟨pte, leaf, ?_⟩
      cases user : PTEFlags.contains pte.flags PTEFlags.U <;> cases write <;> simp_all
    · rintro ⟨other, otherLeaf, user, access⟩
      have same := (translate_eq_some.mpr otherLeaf).symm.trans found
      obtain rfl := Option.some.inj same
      cases write <;> simp_all

theorem page_of_between {cur a next : Nat} (start : cur ≤ a) (before : a < next)
    (bound : next ≤ cur / 4096 * 4096 + 4096) : a / 4096 = cur / 4096 := by
  omega

/-- The check loop tests the condition of every address from `cur` to `stop`. -/
theorem checkUserPages_iff {mem : PhysMem} {token stop fuel cur : Nat} {write : Bool}
    (limit : stop ≤ 2 ^ 38) (enough : stop ≤ cur + fuel) :
    checkUserPages (.fromToken token) mem write stop fuel cur = true ↔
      ∀ a, cur ≤ a → a < stop → UserPage mem token write (a / 4096) := by
  induction fuel generalizing cur with
  | zero => exact iff_of_true rfl fun a _ _ => by omega
  | succ fuel ih =>
    unfold checkUserPages
    by_cases more : cur < stop
    · have size : pageSize = 4096 := rfl
      simp only [more, if_true, size]
      have here : checkUserPage (.fromToken token) mem write cur = true ↔ UserPage mem token write (cur / 4096) :=
        checkUserPage_iff (by omega)
      have rest := @ih (min (cur / 4096 * 4096 + 4096) stop) (by omega)
      by_cases passed : checkUserPage (.fromToken token) mem write cur = true
      · rw [if_pos passed, rest]
        constructor
        · intro later a reached before
          by_cases onPage : a < cur / 4096 * 4096 + 4096
          · rw [page_of_between reached onPage (by omega)]
            exact here.mp passed
          · exact later a (by omega) before
        · intro all a reached before
          exact all a (by omega) before
      · rw [if_neg passed]
        refine iff_of_false (by simp) fun all => passed (here.mpr (all cur (by omega) more))
    · rw [if_neg more]
      exact iff_of_true rfl fun a _ _ => by omega

theorem checkUserRange_iff {mem : PhysMem} {token ptr len : Nat} {write : Bool} :
    checkUserRange mem token ptr len write = true ↔
      len = 0 ∨ (ptr + len < 2 ^ 64 ∧ ptr < 2 ^ 38 ∧ ptr + len ≤ 2 ^ 38 ∧
        ∀ a, ptr ≤ a → a < ptr + len → UserPage mem token write (a / 4096)) := by
  have userLimit : userVaLimit = 2 ^ 38 := rfl
  unfold checkUserRange
  by_cases zero : len = 0
  · simp [zero]
  rw [if_neg zero]
  cases sum : checkedAdd ptr len with
  | none =>
    refine iff_of_false (by simp) ?_
    rintro (nothing | ⟨fits, _⟩)
    · exact zero nothing
    · rw [checkedAdd, if_pos fits] at sum
      exact absurd sum (by simp)
  | some stop =>
    obtain ⟨fits, rfl⟩ := checkedAdd_eq_some.mp sum
    dsimp only
    by_cases outside : userVaLimit ≤ ptr ∨ userVaLimit < ptr + len
    · rw [if_pos outside]
      refine iff_of_false (by simp) ?_
      rintro (nothing | ⟨_, low, high, _⟩)
      · exact zero nothing
      · omega
    · rw [if_neg outside, checkUserPages_iff (by omega) (Nat.le_refl _)]
      constructor
      · exact fun pages => Or.inr ⟨fits, by omega, by omega, pages⟩
      · rintro (nothing | ⟨_, _, _, pages⟩)
        · exact absurd nothing zero
        · exact pages

/-! ### Translation of a validated range -/

theorem ppn_lt (pte : PageTableEntry) : pte.ppn < 2 ^ 44 :=
  Nat.mod_lt _ (by decide)

theorem translateVa_below {mem : PhysMem} {table : PageTable} {a : Nat} {pte : PageTableEntry}
    (below : a < 2 ^ 38) (leaf : table.translate mem (a / 4096) = some pte) :
    table.translateVa mem (VirtAddr.ofUsize a) = some (pte.ppn * 4096 + a % 4096) := by
  have small := ppn_lt pte
  have page : VirtAddr.floor a = a / 4096 := rfl
  unfold PageTable.translateVa
  rw [ofUsize_below (by omega), page, leaf, Option.map_some]
  congr 1
  exact Nat.mod_eq_of_lt (by show pte.ppn * 4096 + a % 4096 < 2 ^ 56; omega)

/-- One iteration of the translation loop: the segment up to the end of the page or of the range,
and the address the loop continues at, which is past `stop` only at the end of the user half. -/
theorem translateSegments_step {mem : PhysMem} {table : PageTable} {stop fuel start : Nat}
    {pte : PageTableEntry} (limit : stop ≤ 2 ^ 38) (more : start < stop)
    (leaf : table.translate mem (start / 4096) = some pte) :
    translateSegments table mem stop (fuel + 1) start =
      (translateSegments table mem stop fuel (VirtAddr.toUsize (min (start / 4096 * 4096 + 4096) stop))).map
        (⟨pte.ppn * 4096 + start % 4096, min (start / 4096 * 4096 + 4096) stop - start⟩ :: ·) := by
  have size : pageSize = 4096 := rfl
  have page : VirtAddr.floor (VirtAddr.ofUsize start) = start / 4096 := by
    rw [ofUsize_below (by omega)]; rfl
  have offset : VirtAddr.pageOffset (VirtAddr.ofUsize start) = start % 4096 := by
    rw [ofUsize_below (by omega)]; rfl
  have stopVa : min (VirtAddr.ofVpn (start / 4096 + 1)) (VirtAddr.ofUsize stop) =
      min (start / 4096 * 4096 + 4096) stop := by
    rw [ofUsize_below (by omega)]
    show min ((start / 4096 + 1) * 4096) stop = _
    omega
  have segment : pageSegment pte.ppn (VirtAddr.ofUsize start) (min (start / 4096 * 4096 + 4096) stop) =
      .ok ⟨pte.ppn * 4096 + start % 4096, min (start / 4096 * 4096 + 4096) stop - start⟩ := by
    unfold pageSegment
    rw [offset]
    unfold PhysPageNum.bytes PhysAddr.ofPpn VirtAddr.pageOffset
    simp only [size]
    split
    · rename_i aligned
      rw [if_pos (by omega)]
      congr 2
      omega
    · rename_i unaligned
      rw [if_pos (by omega)]
      congr 2
      omega
  rw [translateSegments, if_pos more]
  simp only [page, leaf, stopVa, segment, bind, Except.bind, pure, Except.pure, Except.map]

/-- A segment that stays on the page of `start` holds the bytes its addresses translate to. -/
theorem segment_addrs {mem : PhysMem} {table : PageTable} {start next : Nat} {pte : PageTableEntry}
    (limit : next ≤ 2 ^ 38) (onPage : next ≤ start / 4096 * 4096 + 4096)
    (leaf : table.translate mem (start / 4096) = some pte) :
    (Slice.addrs ⟨pte.ppn * 4096 + start % 4096, next - start⟩).map some =
      span (fun a => table.translateVa mem (VirtAddr.ofUsize a)) start next := by
  rw [Slice.addrs, List.map_map]
  apply List.map_congr_left
  intro i before
  have inside : i < next - start := List.mem_range.mp before
  have below : start + i < next := by omega
  have samePage : (start + i) / 4096 = start / 4096 := page_of_between (by omega) below onPage
  have offset : start % 4096 + i = (start + i) % 4096 := by omega
  have target := translateVa_below (show start + i < 2 ^ 38 by omega) (by rw [samePage]; exact leaf)
  rw [Function.comp_apply, Nat.add_assoc, offset]
  exact target.symm

/-- Past the end of the user half nothing is left to translate, so continuing at `toUsize next` is
continuing at `next`. -/
theorem span_toUsize {next stop : Nat} (f : Nat → Option Nat) (limit : stop ≤ 2 ^ 38) :
    span f (VirtAddr.toUsize next) stop = span f next stop := by
  unfold VirtAddr.toUsize
  split
  · rw [span_empty (by omega), span_empty (by omega)]
  · rfl

theorem le_toUsize {next : Nat} (limit : next ≤ 2 ^ 38) : next ≤ VirtAddr.toUsize next := by
  unfold VirtAddr.toUsize
  split <;> omega

/-- The loop returns page segments that cover the addresses from `start` to `stop` in order. -/
theorem translateSegments_cover {mem : PhysMem} {table : PageTable} {stop fuel start : Nat}
    (limit : stop ≤ 2 ^ 38) (enough : stop ≤ start + fuel)
    (mapped : ∀ a, start ≤ a → a < stop → ∃ pte, table.translate mem (a / 4096) = some pte) :
    ∃ segments, translateSegments table mem stop fuel start = .ok segments ∧
      (∀ segment ∈ segments, 0 < segment.len ∧ segment.base % 4096 + segment.len ≤ 4096) ∧
      (segments.flatMap Slice.addrs).map some =
        span (fun a => table.translateVa mem (VirtAddr.ofUsize a)) start stop := by
  induction fuel generalizing start with
  | zero =>
    refine ⟨[], rfl, by simp, ?_⟩
    rw [span_empty (by omega)]
    rfl
  | succ fuel ih =>
    by_cases more : start < stop
    · obtain ⟨pte, leaf⟩ := mapped start (by omega) more
      rw [translateSegments_step limit more leaf]
      obtain ⟨next, next_eq⟩ : ∃ next, next = min (start / 4096 * 4096 + 4096) stop := ⟨_, rfl⟩
      rw [← next_eq]
      have ahead : start < next := by omega
      have within : next ≤ stop := by omega
      have onPage : next ≤ start / 4096 * 4096 + 4096 := by omega
      have progress : next ≤ VirtAddr.toUsize next := le_toUsize (by omega)
      obtain ⟨segments, run, inside, covered⟩ := @ih (VirtAddr.toUsize next) (by omega)
        (fun a reached before => mapped a (by omega) before)
      refine ⟨⟨pte.ppn * 4096 + start % 4096, next - start⟩ :: segments, by rw [run]; rfl, ?_, ?_⟩
      · intro segment member
        rcases List.mem_cons.mp member with rfl | later
        · show 0 < next - start ∧ (pte.ppn * 4096 + start % 4096) % 4096 + (next - start) ≤ 4096
          omega
        · exact inside segment later
      · rw [List.flatMap_cons, List.map_append, covered, span_toUsize _ limit,
          segment_addrs (by omega) onPage leaf, ← span_append (by omega) within]
    · refine ⟨[], ?_, by simp, ?_⟩
      · rw [translateSegments, if_neg more]
      · rw [span_empty (by omega)]
        rfl

theorem cover_entries {addrs : List Nat} {f : Nat → Option Nat} {start len : Nat}
    (covered : addrs.map some = span f start (start + len)) :
    addrs.length = len ∧ ∀ i < len, ∃ pa, addrs[i]? = some pa ∧ f (start + i) = some pa := by
  constructor
  · have count := congrArg List.length covered
    simpa [span] using count
  · intro i before
    have entry := congrArg (fun addrs => addrs[i]?) covered
    simp only [List.getElem?_map, span, Nat.add_sub_cancel_left, List.getElem?_range before, Option.map_some] at entry
    obtain ⟨pa, found, same⟩ := Option.map_eq_some_iff.mp entry
    exact ⟨pa, found, same.symm⟩

/-- A validated range is translated without a panic, to non-empty segments of single pages. -/
theorem tryTranslatedByteBuffer_cover {mem : PhysMem} {token ptr len : Nat} {write : Bool} (word : ptr < 2 ^ 64)
    (checked : checkUserRange mem token ptr len write = true) :
    ∃ segments, tryTranslatedByteBuffer mem token ptr len write = .ok (some segments) ∧
      (∀ segment ∈ segments, 0 < segment.len ∧ segment.base % 4096 + segment.len ≤ 4096) ∧
      (segments.flatMap Slice.addrs).map some =
        span (fun a => (PageTable.fromToken token).translateVa mem (VirtAddr.ofUsize a)) ptr (ptr + len) := by
  have range := checkUserRange_iff.mp checked
  have fits : ptr + len < 2 ^ 64 := by rcases range with zero | ⟨fits, _⟩ <;> omega
  obtain ⟨segments, run, inside, covered⟩ : ∃ segments,
      translateSegments (.fromToken token) mem (ptr + len) len ptr = .ok segments ∧
        (∀ segment ∈ segments, 0 < segment.len ∧ segment.base % 4096 + segment.len ≤ 4096) ∧
        (segments.flatMap Slice.addrs).map some =
          span (fun a => (PageTable.fromToken token).translateVa mem (VirtAddr.ofUsize a)) ptr (ptr + len) := by
    rcases range with zero | ⟨_, _, limit, pages⟩
    · subst zero
      exact ⟨[], rfl, by simp, by rw [span_empty (by omega)]; rfl⟩
    · apply translateSegments_cover limit (Nat.le_refl _)
      intro a reached before
      obtain ⟨pte, leaf, _⟩ := pages a reached before
      exact ⟨pte, translate_eq_some.mpr leaf⟩
  refine ⟨segments, ?_, inside, covered⟩
  unfold tryTranslatedByteBuffer
  simp only [checked, Bool.not_true, Bool.false_eq_true, if_false, addWord_ok fits, bind, Except.bind, run, pure,
    Except.pure]

end SecureIpc

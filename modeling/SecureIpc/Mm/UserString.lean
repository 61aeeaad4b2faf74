import SecureIpc.Lib.CString
import SecureIpc.Mm.UserBuffer

/-!
The page-wise scan of `try_translated_str` reads the same string as looking at one user byte after
the other, whatever the alignment, the end of the string and the holes in the mapping.
-/

namespace SecureIpc
open Lib

/-- The byte at a user address, if its page has `U` and `R`. -/
def readableByte (mem : PhysMem) (table : PageTable) (addr : Nat) : Option UInt8 :=
  (table.translate mem (addr / 4096)).bind fun pte =>
    if PTEFlags.contains pte.flags PTEFlags.U && PTEFlags.contains pte.flags PTEFlags.R then
      some (mem (pte.ppn * 4096 + addr % 4096))
    else none

section
variable {mem mem' : PhysMem} {token addr : Nat} {table : PageTable} {pte : PageTableEntry}

theorem readableByte_of_pte (leaf : table.translate mem (addr / 4096) = some pte)
    (user : PTEFlags.contains pte.flags PTEFlags.U = true) (read : PTEFlags.contains pte.flags PTEFlags.R = true) :
    readableByte mem table addr = some (mem (pte.ppn * 4096 + addr % 4096)) := by
  simp only [readableByte, leaf, Option.bind_some, user, read, Bool.and_true, if_true]

theorem readableByte_of_hole (leaf : table.translate mem (addr / 4096) = none) : readableByte mem table addr = none := by
  simp only [readableByte, leaf, Option.bind_none]

theorem readableByte_of_protected (leaf : table.translate mem (addr / 4096) = some pte)
    (refused : (!PTEFlags.contains pte.flags PTEFlags.U || !PTEFlags.contains pte.flags PTEFlags.R) = true) :
    readableByte mem table addr = none := by
  rw [← Bool.not_and, Bool.not_eq_true'] at refused
  simp only [readableByte, leaf, Option.bind_some, refused, Bool.false_eq_true, if_false]

theorem readableByte_eq_some {b : UInt8} (below : addr < 2 ^ 38) : readableByte mem (.fromToken token) addr = some b ↔
    UserPage mem token false (addr / 4096) ∧ userByte mem token addr = some b := by
  constructor
  · intro readable
    obtain ⟨pte, leaf, rest⟩ := Option.bind_eq_some_iff.mp readable
    split at rest
    · rename_i flags
      obtain ⟨user, read⟩ := Bool.and_eq_true_iff.mp flags
      refine ⟨⟨pte, translate_eq_some.mp leaf, user, read⟩, ?_⟩
      rw [userByte, translateVa_below below leaf]
      exact rest
    · cases rest
  · rintro ⟨⟨pte, entry, user, read⟩, byte⟩
    have leaf := translate_eq_some.mpr entry
    rw [userByte, translateVa_below below leaf] at byte
    rw [readableByte_of_pte leaf user read]
    exact byte

/-! ### The scan -/

theorem scanString_eq {limit fuel cur : Nat} {string : Utf8} (below : limit ≤ 2 ^ 38) (enough : limit ≤ cur + fuel) :
    scanString table mem limit fuel cur string =
      .ok ((readString (readableByte mem table) (limit - cur) cur).map fun bytes =>
        string ++ bytes.flatMap utf8OfLatin1) := by
  induction fuel generalizing cur string with
  | zero =>
    rw [show limit - cur = 0 by omega]
    rfl
  | succ fuel ih =>
    rw [scanString]
    by_cases more : cur < limit
    · have size : pageSize = 4096 := rfl
      have page : VirtAddr.floor (VirtAddr.ofUsize cur) = cur / 4096 := by
        rw [ofUsize_below (by omega)]
        rfl
      rw [if_pos more, page]
      -- an unreadable first byte ends the scan
      have stops : readableByte mem table cur = none → readString (readableByte mem table) (limit - cur) cur = none := by
        intro unreadable
        obtain ⟨rest, rest_eq⟩ : ∃ rest, limit - cur = rest + 1 := ⟨limit - cur - 1, by omega⟩
        rw [rest_eq, readString, unreadable, Option.bind_none]
      cases leaf : table.translate mem (cur / 4096) with
      | none =>
        rw [stops (readableByte_of_hole leaf)]
        rfl
      | some pte =>
        dsimp only
        by_cases flags : (!PTEFlags.contains pte.flags PTEFlags.U || !PTEFlags.contains pte.flags PTEFlags.R) = true
        · rw [if_pos flags, stops (readableByte_of_protected leaf flags)]
          rfl
        · rw [if_neg flags]
          rw [Bool.not_eq_true, Bool.or_eq_false_iff, Bool.not_eq_false', Bool.not_eq_false'] at flags
          obtain ⟨chunk, chunk_eq⟩ : ∃ chunk, chunk = min (4096 - cur % 4096) (limit - cur) := ⟨_, rfl⟩
          have slice : PhysPageNum.bytes pte.ppn (cur % 4096) (cur % 4096 + chunk) =
              .ok ⟨pte.ppn * 4096 + cur % 4096, chunk⟩ := by
            unfold PhysPageNum.bytes
            rw [if_pos (by omega), Nat.add_sub_cancel_left]
            rfl
          have same : ∀ i (inside : i < (mem.load (pte.ppn * 4096 + cur % 4096) chunk).length),
              readableByte mem table (cur + i) = some (mem.load (pte.ppn * 4096 + cur % 4096) chunk)[i] := by
            intro i inside
            rw [Memory.load_length] at inside
            have samePage : (cur + i) / 4096 = cur / 4096 := page_of_between (by omega) (Nat.lt_succ_self _) (by omega)
            rw [readableByte_of_pte (by rw [samePage]; exact leaf) flags.1 flags.2,
              show (cur + i) % 4096 = cur % 4096 + i by omega, ← Nat.add_assoc]
            simp [Memory.load]
          have split := @readString_chunk (readableByte mem table) (limit - (cur + chunk)) cur _ same
          rw [Memory.load_length, show chunk + (limit - (cur + chunk)) = limit - cur by omega] at split
          simp only [size, ← chunk_eq, slice, bind, Except.bind, split]
          cases List.findIdx? (· == 0) (mem.load (pte.ppn * 4096 + cur % 4096) chunk) with
          | some z => rfl
          | none =>
            dsimp only
            rw [ih (by omega), Option.map_map]
            congr 2
            funext bytes
            rw [Function.comp_apply, List.flatMap_append, List.append_assoc]
    · rw [if_neg more, show limit - cur = 0 by omega]
      rfl

/-- The scan from a valid start, as a string of single bytes. -/
theorem tryTranslatedStr_eq {start maxLen : Nat} (nonzero : start ≠ 0) (positive : maxLen ≠ 0)
    (below : start + maxLen ≤ 2 ^ 38) : tryTranslatedStr mem token start maxLen =
      .ok ((readString (readableByte mem (.fromToken token)) maxLen start).map (·.flatMap utf8OfLatin1)) := by
  have sum : checkedAdd start maxLen = some (start + maxLen) := by
    rw [checkedAdd_eq_some]
    omega
  have inside : ¬userVaLimit < start + maxLen := Nat.not_lt.mpr below
  unfold tryTranslatedStr
  rw [if_neg (by omega), sum]
  dsimp only
  rw [if_neg inside, scanString_eq below (Nat.le_refl _), Nat.add_sub_cancel_left]
  rfl

/-- `b as char` appended to a `String` is the UTF-8 encoding of the code point `b`. -/
theorem utf8OfLatin1_eq (b : UInt8) : utf8OfLatin1 b = String.utf8EncodeChar (Char.ofNat b.toNat) := by
  have all : ∀ n < 256, utf8OfLatin1 (UInt8.ofNat n) = String.utf8EncodeChar (Char.ofNat n) := by decide +kernel
  have this := all b.toNat b.toNat_lt
  rwa [UInt8.ofNat_toNat] at this

/-! ### Strings in readable pages -/

section
variable {start maxLen : Nat}

theorem readablePages_iff {k : Nat} :
    (∀ vpn, vpn * 4096 ≤ start + k → start < vpn * 4096 + 4096 → UserPage mem token false vpn) ↔
      ∀ i ≤ k, UserPage mem token false ((start + i) / 4096) := by
  constructor
  · intro all i inside
    exact all _ (by omega) (by omega)
  · intro all vpn starts ends
    have page := all (max start (vpn * 4096) - start) (by omega)
    rwa [show (start + (max start (vpn * 4096) - start)) / 4096 = vpn by omega] at page

theorem readString_pages {bytes : List UInt8} (below : start + maxLen ≤ 2 ^ 38) :
    readString (readableByte mem (.fromToken token)) maxLen start = some bytes ↔ bytes.length < maxLen ∧
      (∀ i ≤ bytes.length, UserPage mem token false ((start + i) / 4096)) ∧
      (∀ i (inside : i < bytes.length), userByte mem token (start + i) = some bytes[i] ∧ bytes[i] ≠ 0) ∧
      userByte mem token (start + bytes.length) = some 0 := by
  rw [readString_eq_some]
  constructor
  · rintro ⟨short, each, last⟩
    have read : ∀ i (inside : i < bytes.length), UserPage mem token false ((start + i) / 4096) ∧
        userByte mem token (start + i) = some bytes[i] := fun i inside =>
      (readableByte_eq_some (by omega)).mp (each i inside).1
    obtain ⟨lastPage, zero⟩ := (readableByte_eq_some (by omega)).mp last
    refine ⟨short, fun i inside => ?_, fun i inside => ⟨(read i inside).2, (each i inside).2⟩, zero⟩
    rcases Nat.lt_or_eq_of_le inside with before | rfl
    · exact (read i before).1
    · exact lastPage
  · rintro ⟨short, readable, each, zero⟩
    refine ⟨short, fun i inside => ⟨?_, (each i inside).2⟩, ?_⟩
    · exact (readableByte_eq_some (by omega)).mpr ⟨readable i (Nat.le_of_lt inside), (each i inside).1⟩
    · exact (readableByte_eq_some (by omega)).mpr ⟨readable _ (Nat.le_refl _), zero⟩

/-- A byte is looked at only if its page is readable and the bytes before it are no terminator. -/
theorem readString_same (below : start + maxLen ≤ 2 ^ 38)
    (sameTable : ∀ vpn, (PageTable.fromToken token).translate mem' vpn = (PageTable.fromToken token).translate mem vpn)
    (sameBytes : ∀ k < maxLen, (∀ i ≤ k, UserPage mem token false ((start + i) / 4096)) →
      (∀ i < k, userByte mem token (start + i) ≠ some 0) →
      userByte mem' token (start + k) = userByte mem token (start + k)) :
    readString (readableByte mem' (.fromToken token)) maxLen start =
      readString (readableByte mem (.fromToken token)) maxLen start := by
  refine readString_congr fun k inside before => ?_
  have sameLeaf := sameTable ((start + k) / 4096)
  cases leaf : (PageTable.fromToken token).translate mem ((start + k) / 4096) with
  | none => rw [readableByte_of_hole (sameLeaf.trans leaf), readableByte_of_hole leaf]
  | some pte =>
    by_cases flags : (!PTEFlags.contains pte.flags PTEFlags.U || !PTEFlags.contains pte.flags PTEFlags.R) = true
    · rw [readableByte_of_protected (sameLeaf.trans leaf) flags, readableByte_of_protected leaf flags]
    · rw [Bool.not_eq_true, Bool.or_eq_false_iff, Bool.not_eq_false', Bool.not_eq_false'] at flags
      have read : ∀ i < k, ∃ b, UserPage mem token false ((start + i) / 4096) ∧
          userByte mem token (start + i) = some b ∧ b ≠ 0 := by
        intro i less
        obtain ⟨b, found, other⟩ := before i less
        obtain ⟨page, byte⟩ := (readableByte_eq_some (by omega)).mp found
        exact ⟨b, page, byte, other⟩
      have readable : ∀ i ≤ k, UserPage mem token false ((start + i) / 4096) := by
        intro i least
        rcases Nat.lt_or_eq_of_le least with less | rfl
        · obtain ⟨_, page, _⟩ := read i less
          exact page
        · exact ⟨pte, translate_eq_some.mp leaf, flags.1, flags.2⟩
      have bytes := sameBytes k inside readable fun i less zero => by
        obtain ⟨b, _, byte, other⟩ := read i less
        exact other (Option.some.inj (byte.symm.trans zero))
      rw [userByte, userByte, translateVa_below (by omega) leaf, translateVa_below (by omega) (sameLeaf.trans leaf)] at bytes
      rw [readableByte_of_pte (sameLeaf.trans leaf) flags.1 flags.2, readableByte_of_pte leaf flags.1 flags.2]
      exact bytes

end

end

/-- `try_translated_str` returns a string exactly when a zero byte is found within `max_len` bytes, in
readable user pages and behind non-zero bytes; its characters are then these bytes. The result
depends on no other byte, and the scan never panics. -/
theorem user_string_exact (mem : PhysMem) (token start maxLen : Nat) (nonzero : start ≠ 0) (positive : maxLen ≠ 0)
    (below : start + maxLen ≤ 2 ^ 38) :
    ∃ result, tryTranslatedStr mem token start maxLen = .ok result ∧
      (∀ s, result = some s ↔ ∃ bytes : List UInt8, bytes.length < maxLen ∧
        (∀ vpn, vpn * 4096 ≤ start + bytes.length → start < vpn * 4096 + 4096 → UserPage mem token false vpn) ∧
        (∀ i (inside : i < bytes.length), userByte mem token (start + i) = some bytes[i] ∧ bytes[i] ≠ 0) ∧
        userByte mem token (start + bytes.length) = some 0 ∧
        s = bytes.flatMap fun b => String.utf8EncodeChar (Char.ofNat b.toNat)) ∧
      ∀ mem' : PhysMem, (∀ vpn, (PageTable.fromToken token).translate mem' vpn = (PageTable.fromToken token).translate mem vpn) →
        (∀ k < maxLen, (∀ vpn, vpn * 4096 ≤ start + k → start < vpn * 4096 + 4096 → UserPage mem token false vpn) →
          (∀ i < k, userByte mem token (start + i) ≠ some 0) →
          userByte mem' token (start + k) = userByte mem token (start + k)) →
        tryTranslatedStr mem' token start maxLen = .ok result := by
  refine ⟨_, tryTranslatedStr_eq nonzero positive below, fun s => ?_, fun mem' sameTable sameBytes => ?_⟩
  · rw [Option.map_eq_some_iff]
    refine exists_congr fun bytes => ?_
    have encode : bytes.flatMap utf8OfLatin1 = bytes.flatMap fun b => String.utf8EncodeChar (Char.ofNat b.toNat) :=
      List.flatMap_congr fun b _ => utf8OfLatin1_eq b
    rw [readString_pages below, readablePages_iff, encode, eq_comm (a := s), and_assoc, and_assoc, and_assoc]
  · rw [tryTranslatedStr_eq nonzero positive below, readString_same below sameTable]
    intro k inside readable
    exact sameBytes k inside (readablePages_iff.mpr readable)

def twoLetters : PhysMem := Memory.store (Memory.store twoPages (5 * 4096 + 4095) [0x68]) (7 * 4096) [0x69]

theorem user_string_exact_crossing : ∃ result, tryTranslatedStr twoLetters (8 * 2 ^ 60 + 1) 4095 10 = .ok result ∧
    result = some [0x68, 0x69] ∧
    ∃ bytes : List UInt8, [0x68, 0x69] = bytes.flatMap fun b => String.utf8EncodeChar (Char.ofNat b.toNat) := by
  obtain ⟨result, run, exact, _⟩ :=
    user_string_exact twoLetters (8 * 2 ^ 60 + 1) 4095 10 (by decide) (by decide) (by decide)
  have computed : (tryTranslatedStr twoLetters (8 * 2 ^ 60 + 1) 4095 10).toOption = some (some [0x68, 0x69]) := by
    decide +kernel
  rw [run] at computed
  have found : result = some [0x68, 0x69] := Option.some.inj computed
  obtain ⟨bytes, _, _, _, _, string⟩ := (exact _).mp found
  exact ⟨result, run, found, bytes, string⟩

end SecureIpc

import SecureIpc.Mm.Image
import SecureIpc.Run.Step

/-! `from_elf` builds the memory image of the program. -/

namespace SecureIpc
open Lib

def segmentsOf (headers : List (Option ProgramHeader)) : List ProgramHeader :=
  headers.filterMap fun header => header.filter fun ph => ph.load = some true

def ElfFile.segments (elf : ElfFile) : List ProgramHeader := segmentsOf elf.programHeaders

/-- A segment that starts on a page, has its bytes in the file and leaves room for the guard page and the stack. -/
structure ProgramHeader.Loadable (input : List UInt8) (ph : ProgramHeader) : Prop where
  aligned : ph.virtualAddr % pageSize = 0
  positive : 0 < ph.memSize
  file : ph.fileSize ≤ ph.memSize
  stored : ph.offset + ph.fileSize ≤ input.length
  low : ph.virtualAddr + ph.memSize + (pageSize + userStackSize) ≤ 2 ^ 38

/-- A file whose headers can be read, with ascending segments that do not share pages. -/
structure ElfFile.Loadable (elf : ElfFile) (input : List UInt8) : Prop where
  magic : elf.magic = [0x7f, 0x45, 0x4c, 0x46]
  headers : ∀ header ∈ elf.programHeaders, ∃ ph, header = some ph ∧ ph.load ≠ none
  segments : ∀ ph ∈ elf.segments, ph.Loadable input
  ascending : elf.segments.Pairwise fun first second => first.virtualAddr + first.memSize ≤ second.virtualAddr
  short : input.length < 2 ^ 64

def ProgramHeader.pageCount (ph : ProgramHeader) : Nat := (ph.memSize + (pageSize - 1)) / pageSize

def ProgramHeader.byte (ph : ProgramHeader) (input : List UInt8) (i : Nat) : UInt8 :=
  if i < ph.fileSize then input.getD (ph.offset + i) 0 else 0

structure UserFlags (pte : PageTableEntry) (read write execute : Bool) : Prop where
  valid : pte.isValid = true
  user : PTEFlags.contains pte.flags PTEFlags.U = true
  read : PTEFlags.contains pte.flags PTEFlags.R = read
  write : PTEFlags.contains pte.flags PTEFlags.W = write
  execute : PTEFlags.contains pte.flags PTEFlags.X = execute

structure ProgramImage (input : List UInt8) (elf : ElfFile) (space : MemorySet) (mm : Mm) (top : Nat) : Prop where
  segments : ∀ ph ∈ elf.segments, ∀ i < ph.pageCount * pageSize, ∃ pte,
    space.translate mm.mem ((ph.virtualAddr + i) / pageSize) = some pte ∧
    UserFlags pte ph.isRead ph.isWrite ph.isExecute ∧
    mm.mem (pte.ppn * pageSize + (ph.virtualAddr + i) % pageSize) = ph.byte input i
  stackAligned : top % pageSize = 0
  stackAbove : ∀ ph ∈ elf.segments, ph.virtualAddr + ph.memSize + (pageSize + userStackSize) ≤ top
  stackBelow : pageSize + userStackSize ≤ top ∧ top ≤ 2 ^ 38
  stack : ∀ a, top - userStackSize ≤ a → a < top → ∃ pte, space.translate mm.mem (a / pageSize) = some pte ∧
    UserFlags pte true true false ∧ mm.mem (pte.ppn * pageSize + a % pageSize) = 0
  guardPage : ∀ pte, space.translate mm.mem ((top - userStackSize) / pageSize - 1) = some pte → pte.isValid = false
  supervisor : ∀ v ∈ [trapContextVpn, trampolineVpn], ∃ pte, space.translate mm.mem v = some pte ∧ pte.isValid = true ∧
    PTEFlags.contains pte.flags PTEFlags.U = false

section
variable {layout : Layout} {mm mm' : Mm} {self : MemorySet} {input : List UInt8} {elf : ElfFile} {ph : ProgramHeader}
variable {parts : List Part}

/-! ### Segments -/

def ProgramHeader.part (input : List UInt8) (ph : ProgramHeader) : Part where
  start := VirtAddr.floor (VirtAddr.ofUsize ph.virtualAddr)
  stop := ph.endVpn
  perm := MemorySet.segmentPerm ph
  data := (input.drop ph.offset).take ph.fileSize

theorem loadable_start (loadable : ph.Loadable input) : (ph.part input).start = ph.virtualAddr / 4096 := by
  have low := loadable.low
  show ph.virtualAddr % 2 ^ 39 / 4096 = _
  rw [Nat.mod_eq_of_lt (by omega)]

theorem loadable_stop (loadable : ph.Loadable input) : (ph.part input).stop = ph.virtualAddr / 4096 + ph.pageCount := by
  have low := loadable.low
  have positive := loadable.positive
  have aligned : ph.virtualAddr % 4096 = 0 := loadable.aligned
  have stop : (ph.part input).stop = VirtAddr.ceil (ph.virtualAddr + ph.memSize) := by
    show VirtAddr.ceil ((ph.virtualAddr + ph.memSize) % 2 ^ 64 % 2 ^ 39) = _
    rw [Nat.mod_eq_of_lt (show ph.virtualAddr + ph.memSize < 2 ^ 64 by omega), Nat.mod_eq_of_lt (by omega)]
  rw [stop, VirtAddr.ceil, if_neg (by omega)]
  simp only [ProgramHeader.pageCount, pageSize]
  omega

theorem loadable_fits (loadable : ph.Loadable input)
    (apart : ∀ one ∈ parts, one.stop * 4096 ≤ ph.virtualAddr) : (ph.part input).Fits parts := by
  have low := loadable.low
  have file := loadable.file
  have aligned : ph.virtualAddr % 4096 = 0 := loadable.aligned
  have start := loadable_start loadable
  have stop := loadable_stop loadable
  have count : ph.pageCount = (ph.memSize + 4095) / 4096 := rfl
  have sizes : pageSize + userStackSize = 12288 := rfl
  refine ⟨by omega, ?_, segmentPerm_small ph, ?_, ?_⟩
  · rw [show trampolineVpn = 2 ^ 27 - 1 from rfl]
    omega
  · intro one member
    left
    have before := apart one member
    omega
  · have length : (ph.part input).data.length ≤ ph.fileSize := List.length_take_le _ _
    omega

theorem pushSegment_part (composed : Composed layout mm self parts) (loadable : ph.Loadable input)
    (short : input.length < 2 ^ 64) (apart : ∀ one ∈ parts, one.stop * 4096 ≤ ph.virtualAddr) :
    wp (self.pushSegment layout input ph) (fun r mm' => Composed layout mm' r.1 (parts ++ [ph.part input]) ∧ r.2 = ph.endVpn)
      (· = .outOfFrames) mm := by
  have fits := loadable_fits loadable apart
  have slice : MemorySet.sliceInput input ph.offset ((ph.offset + ph.fileSize) % 2 ^ 64) = .ok (ph.part input).data := by
    have stored := loadable.stored
    rw [Nat.mod_eq_of_lt (by omega), MemorySet.sliceInput, if_pos ⟨Nat.le_add_right _ _, stored⟩, Nat.add_sub_cancel_left]
    rfl
  have page : (ph.part input).start < (ph.part input).stop := by
    have positive := loadable.positive
    have count : ph.pageCount = (ph.memSize + 4095) / 4096 := rfl
    rw [loadable_start loadable, loadable_stop loadable]
    omega
  have area : MapArea.new (VirtAddr.ofUsize ph.virtualAddr) (VirtAddr.ofUsize ((ph.virtualAddr + ph.memSize) % 2 ^ 64)) .framed
      (MemorySet.segmentPerm ph) = (pure (ph.part input).toArea : MmM MapArea) := if_pos fits.ordered
  unfold MemorySet.pushSegment
  simp only [area, slice, wp_bind, wp_pure, wp_lift_ok]
  refine wp_mono (composed.pushData fits page) ?_ fun _ full => full
  intro self' mm' more
  exact ⟨more, rfl⟩

theorem pushSegments_parts {headers : List (Option ProgramHeader)} (last : Nat) (composed : Composed layout mm self parts)
    (readable : ∀ header ∈ headers, ∃ ph, header = some ph ∧ ph.load ≠ none)
    (loadable : ∀ ph ∈ segmentsOf headers, ph.Loadable input)
    (ascending : (segmentsOf headers).Pairwise fun first second => first.virtualAddr + first.memSize ≤ second.virtualAddr)
    (short : input.length < 2 ^ 64) (apart : ∀ one ∈ parts, ∀ ph ∈ segmentsOf headers, one.stop * 4096 ≤ ph.virtualAddr) :
    wp (MemorySet.pushSegments layout input headers self last)
      (fun r mm' => Composed layout mm' r.1 (parts ++ (segmentsOf headers).map (ProgramHeader.part input)) ∧
        r.2 = lastEnd headers last) (· = .outOfFrames) mm := by
  induction headers generalizing mm self parts last with
  | nil => simpa [MemorySet.pushSegments, segmentsOf, lastEnd] using composed
  | cons header rest ih =>
    obtain ⟨ph, rfl, typed⟩ := readable header List.mem_cons_self
    have readable' := fun one member => readable one (List.mem_cons_of_mem _ member)
    obtain ⟨loads, type⟩ := Option.ne_none_iff_exists'.mp typed
    unfold MemorySet.pushSegments
    simp only [type]
    cases loads with
    | false =>
      have skip : segmentsOf (some ph :: rest) = segmentsOf rest := by simp [segmentsOf, Option.filter, type]
      have same : lastEnd (some ph :: rest) last = lastEnd rest last := by simp [lastEnd, type]
      rw [skip] at loadable ascending apart ⊢
      rw [same]
      exact ih last composed readable' loadable ascending apart
    | true =>
      have here : segmentsOf (some ph :: rest) = ph :: segmentsOf rest := by simp [segmentsOf, Option.filter, type]
      have same : lastEnd (some ph :: rest) last = lastEnd rest ph.endVpn := by simp [lastEnd, type]
      rw [here] at loadable ascending apart ⊢
      rw [same, List.map_cons]
      have first := loadable ph List.mem_cons_self
      apply wp_bind.mpr
      refine wp_mono (pushSegment_part composed first short fun one member => apart one member ph List.mem_cons_self) ?_
        fun _ full => full
      rintro ⟨self₁, stop⟩ mm₁ ⟨composed₁, ends⟩
      dsimp only at composed₁ ends ⊢
      subst ends
      obtain ⟨before, later⟩ := List.pairwise_cons.mp ascending
      have apart₁ : ∀ one ∈ parts ++ [ph.part input], ∀ next ∈ segmentsOf rest, one.stop * 4096 ≤ next.virtualAddr := by
        intro one member next ahead
        rcases List.mem_append.mp member with old | new
        · exact apart one old next (List.mem_cons_of_mem _ ahead)
        · rw [List.mem_singleton.mp new, loadable_stop first]
          have ordered := before next ahead
          have aligned : ph.virtualAddr % 4096 = 0 := first.aligned
          have aligned' : next.virtualAddr % 4096 = 0 := (loadable next (List.mem_cons_of_mem _ ahead)).aligned
          have count : ph.pageCount = (ph.memSize + 4095) / 4096 := rfl
          omega
      have more := ih ph.endVpn composed₁ readable' (fun next ahead => loadable next (List.mem_cons_of_mem _ ahead)) later apart₁
      rwa [List.append_assoc] at more

theorem lastEnd_cases (headers : List (Option ProgramHeader)) (last : Nat)
    (ascending : (segmentsOf headers).Pairwise fun first second => first.virtualAddr + first.memSize ≤ second.virtualAddr) :
    segmentsOf headers = [] ∧ lastEnd headers last = last ∨ ∃ ph ∈ segmentsOf headers, lastEnd headers last = ph.endVpn ∧
      ∀ one ∈ segmentsOf headers, one.virtualAddr + one.memSize ≤ ph.virtualAddr + ph.memSize := by
  induction headers generalizing last with
  | nil => exact Or.inl ⟨rfl, rfl⟩
  | cons header rest ih =>
    cases header with
    | none => exact ih last ascending
    | some ph =>
      by_cases type : ph.load = some true
      · have here : segmentsOf (some ph :: rest) = ph :: segmentsOf rest := by simp [segmentsOf, Option.filter, type]
        have same : lastEnd (some ph :: rest) last = lastEnd rest ph.endVpn := by simp [lastEnd, type]
        rw [here] at ascending ⊢
        rw [same]
        obtain ⟨before, later⟩ := List.pairwise_cons.mp ascending
        right
        rcases ih ph.endVpn later with ⟨none, stays⟩ | ⟨next, member, ends, highest⟩
        · exact ⟨ph, List.mem_cons_self, stays, by simp [none]⟩
        · refine ⟨next, List.mem_cons_of_mem _ member, ends, ?_⟩
          intro one there
          rcases List.mem_cons.mp there with rfl | ahead
          · have ordered := before next member
            omega
          · exact highest one ahead
      · have skip : segmentsOf (some ph :: rest) = segmentsOf rest := by simp [segmentsOf, Option.filter, type]
        have same : lastEnd (some ph :: rest) last = lastEnd rest last := by simp [lastEnd, type]
        rw [skip] at ascending ⊢
        rw [same]
        exact ih last ascending

/-! ### The whole image -/

def ElfFile.lastVpn (elf : ElfFile) : Nat := lastEnd elf.programHeaders 0

def stackPart (last : Nat) : Part := ⟨last + 1, last + 3, PTEFlags.R ||| PTEFlags.W ||| PTEFlags.U, []⟩

def trapPart : Part := ⟨trapContextVpn, trampolineVpn, PTEFlags.R ||| PTEFlags.W, []⟩

def ElfFile.imageParts (elf : ElfFile) (input : List UInt8) : List Part :=
  elf.segments.map (ProgramHeader.part input) ++ [stackPart elf.lastVpn] ++ [trapPart]

theorem lastVpn_bounds (loadable : elf.Loadable input) : elf.lastVpn * 4096 + 12288 ≤ 2 ^ 38 ∧
    ∀ ph ∈ elf.segments, (ph.part input).stop ≤ elf.lastVpn := by
  have sizes : pageSize + userStackSize = 12288 := rfl
  rcases lastEnd_cases elf.programHeaders 0 loadable.ascending with ⟨none, last⟩ | ⟨ph, member, last, highest⟩
  · have zero : elf.lastVpn = 0 := last
    have nobody : elf.segments = [] := none
    rw [zero, nobody]
    exact ⟨by decide, nofun⟩
  · have segment := loadable.segments ph member
    have low := segment.low
    have aligned : ph.virtualAddr % 4096 = 0 := segment.aligned
    have stop := loadable_stop segment
    have ends : elf.lastVpn = (ph.part input).stop := last
    have count : ph.pageCount = (ph.memSize + 4095) / 4096 := rfl
    refine ⟨by omega, ?_⟩
    intro one there
    have segment' := loadable.segments one there
    have aligned' : one.virtualAddr % 4096 = 0 := segment'.aligned
    have count' : one.pageCount = (one.memSize + 4095) / 4096 := rfl
    have below := highest one there
    rw [loadable_stop segment']
    omega

theorem stack_bottom {last : Nat} (low : last * 4096 + 12288 ≤ 2 ^ 38) :
    (VirtAddr.toUsize (VirtAddr.ofVpn last) + pageSize) % 2 ^ 64 = last * 4096 + 4096 := by
  unfold VirtAddr.toUsize VirtAddr.ofVpn pageSize
  rw [if_neg (by omega), Nat.mod_eq_of_lt (by omega)]

theorem stack_top {last : Nat} (low : last * 4096 + 12288 ≤ 2 ^ 38) :
    (last * 4096 + 4096 + userStackSize) % 2 ^ 64 = last * 4096 + 12288 := by
  have size : userStackSize = 8192 := rfl
  rw [size]
  omega

theorem stack_area {last : Nat} (low : last * 4096 + 12288 ≤ 2 ^ 38) :
    MapArea.new (VirtAddr.ofUsize (last * 4096 + 4096)) (VirtAddr.ofUsize (last * 4096 + 12288)) .framed
      (PTEFlags.R ||| PTEFlags.W ||| PTEFlags.U) = (pure (stackPart last).toArea : MmM MapArea) := by
  have start : VirtAddr.floor (VirtAddr.ofUsize (last * 4096 + 4096)) = last + 1 := by
    unfold VirtAddr.floor VirtAddr.ofUsize pageSize
    omega
  have stop : VirtAddr.ceil (VirtAddr.ofUsize (last * 4096 + 12288)) = last + 3 := by
    unfold VirtAddr.ceil VirtAddr.ofUsize pageSize
    split <;> omega
  unfold MapArea.new
  simp only [start, stop]
  exact if_pos (by omega)

theorem trap_area : MapArea.new (VirtAddr.ofUsize trapContext) (VirtAddr.ofUsize trampoline) .framed
    (PTEFlags.R ||| PTEFlags.W) = (pure trapPart.toArea : MmM MapArea) := by
  have start : VirtAddr.floor (VirtAddr.ofUsize trapContext) = trapContextVpn := by decide
  have stop : VirtAddr.ceil (VirtAddr.ofUsize trampoline) = trampolineVpn := by decide
  unfold MapArea.new
  simp only [start, stop]
  exact if_pos (by decide)

theorem stackPart_fits (loadable : elf.Loadable input) :
    (stackPart elf.lastVpn).Fits (elf.segments.map (ProgramHeader.part input)) := by
  obtain ⟨low, below⟩ := lastVpn_bounds loadable
  have perm : PTEFlags.R ||| PTEFlags.W ||| PTEFlags.U < 32 := by decide
  have limit : trampolineVpn = 134217727 := by decide
  refine ⟨?_, ?_, perm, ?_, Nat.zero_le _⟩
  · simp [stackPart]
  · simp only [stackPart, limit]
    omega
  · intro one member
    obtain ⟨ph, there, rfl⟩ := List.mem_map.mp member
    left
    exact Nat.le_succ_of_le (below ph there)

theorem trapPart_fits (loadable : elf.Loadable input) :
    trapPart.Fits (elf.segments.map (ProgramHeader.part input) ++ [stackPart elf.lastVpn]) := by
  obtain ⟨low, below⟩ := lastVpn_bounds loadable
  have start : trapPart.start = 134217726 := by decide
  refine ⟨by decide, by decide, by decide, ?_, Nat.zero_le _⟩
  intro one member
  left
  rw [start]
  simp only [List.mem_append, List.mem_map, List.mem_singleton] at member
  rcases member with ⟨ph, there, rfl⟩ | rfl
  · have stop := below ph there
    omega
  · simp only [stackPart]
    omega

theorem fromElf_parts {parse : List UInt8 → Option ElfFile} (valid : (frameStore layout).valid mm) (parsed : parse input = some elf)
    (loadable : elf.Loadable input) : wp (MemorySet.fromElf layout parse input)
      (fun r mm' => Composed layout mm' r.1 (elf.imageParts input) ∧ r.2 = (elf.lastVpn * 4096 + 12288, elf.entryPoint))
      (· = .outOfFrames) mm := by
  have low := (lastVpn_bounds loadable).1
  unfold MemorySet.fromElf
  apply wp_bind.mpr
  refine wp_mono (newBare_spec valid) ?_ fun _ full => full
  intro bare mm₀ both
  obtain ⟨blank, _⟩ := both
  apply wp_bind.mpr
  refine wp_mono (mapTrampoline_spec blank) ?_ fun _ full => full
  intro self₁ mm₁ both
  obtain ⟨space₁, nothing, _⟩ := both
  have composed₁ : Composed layout mm₁ self₁ [] := ⟨space₁, by rw [nothing]; exact .nil⟩
  have magic : ¬elf.magic ≠ [0x7f, 0x45, 0x4c, 0x46] := not_not_intro loadable.magic
  simp only [parsed]
  rw [if_neg magic]
  apply wp_bind.mpr
  refine wp_mono (pushSegments_parts 0 composed₁ loadable.headers loadable.segments loadable.ascending loadable.short nofun) ?_
    fun _ full => full
  rintro ⟨self₂, last⟩ mm₂ ⟨composed₂, ends⟩
  dsimp only at composed₂ ends ⊢
  have here : last = elf.lastVpn := ends
  subst here
  rw [stack_bottom low, stack_top low, stack_area low, trap_area]
  simp only [wp_bind, wp_pure]
  rw [List.nil_append] at composed₂
  refine wp_mono (composed₂.push (stackPart_fits loadable) rfl) ?_ fun _ full => full
  intro self₃ mm₃ composed₃
  refine wp_mono (composed₃.push (trapPart_fits loadable) rfl) ?_ fun _ full => full
  intro self₄ mm₄ composed₄
  exact ⟨composed₄, trivial⟩

/-! ### What the page table shows -/

theorem segment_flags (ph : ProgramHeader) {pte : PageTableEntry} (valid : pte.isValid = true)
    (flags : pte.flags = MemorySet.segmentPerm ph ||| PTEFlags.V) : UserFlags pte ph.isRead ph.isWrite ph.isExecute := by
  refine ⟨valid, ?_, ?_, ?_, ?_⟩ <;> rw [flags, MemorySet.segmentPerm] <;>
    cases ph.isRead <;> cases ph.isWrite <;> cases ph.isExecute <;> decide

theorem segment_byte (ph : ProgramHeader) (i : Nat) : (ph.part input).data.getD i 0 = ph.byte input i := by
  unfold ProgramHeader.byte ProgramHeader.part
  by_cases inside : i < ph.fileSize
  · simp [inside, List.getElem?_take_of_lt]
  · have beyond : ((input.drop ph.offset).take ph.fileSize).length ≤ i := by
      rw [List.length_take]
      omega
    rw [if_neg inside, List.getD_eq_getElem?_getD, List.getElem?_eq_none beyond]
    rfl

theorem Composed.image (composed : Composed layout mm self (elf.imageParts input)) (loadable : elf.Loadable input) :
    ProgramImage input elf self mm (elf.lastVpn * 4096 + 12288) := by
  obtain ⟨low, below⟩ := lastVpn_bounds loadable
  have sizes : pageSize + userStackSize = 12288 := rfl
  have stackSize : userStackSize = 8192 := rfl
  have page : pageSize = 4096 := rfl
  have trapVpn : trapContextVpn = 134217726 := by decide
  have topVpn : trampolineVpn = 134217727 := by decide
  constructor
  case segments =>
    intro ph member i inside
    have segment := loadable.segments ph member
    have start := loadable_start segment
    have stop := loadable_stop segment
    have aligned : ph.virtualAddr % 4096 = 0 := segment.aligned
    have there : ph.part input ∈ elf.imageParts input := by
      unfold ElfFile.imageParts
      simp only [List.append_assoc, List.mem_append, List.mem_map]
      exact Or.inl ⟨ph, member, rfl⟩
    rw [page] at inside ⊢
    obtain ⟨pte, found, valid, flags, bytes⟩ := composed.read there (v := (ph.virtualAddr + i) / 4096)
      (i := (ph.virtualAddr + i) % 4096) (by omega) (by omega) (by omega)
    refine ⟨pte, found, segment_flags ph valid flags, ?_⟩
    rw [bytes, ← segment_byte ph]
    congr 1
    omega
  case stackAligned =>
    rw [page]
    omega
  case stackAbove =>
    intro ph member
    have segment := loadable.segments ph member
    have stop := loadable_stop segment
    have aligned : ph.virtualAddr % 4096 = 0 := segment.aligned
    have count : ph.pageCount = (ph.memSize + 4095) / 4096 := rfl
    have before := below ph member
    omega
  case stackBelow => omega
  case stack =>
    intro a above under
    have there : stackPart elf.lastVpn ∈ elf.imageParts input := by simp [ElfFile.imageParts]
    have start : (stackPart elf.lastVpn).start = elf.lastVpn + 1 := rfl
    have stop : (stackPart elf.lastVpn).stop = elf.lastVpn + 3 := rfl
    rw [stackSize] at above
    rw [page]
    obtain ⟨pte, found, valid, flags, bytes⟩ := composed.read there (v := a / 4096) (i := a % 4096) (by omega) (by omega) (by omega)
    refine ⟨pte, found, ?_, by rw [bytes]; rfl⟩
    have all : pte.flags = PTEFlags.R ||| PTEFlags.W ||| PTEFlags.U ||| PTEFlags.V := flags
    refine ⟨valid, ?_, ?_, ?_, ?_⟩ <;> rw [all] <;> decide
  case guardPage =>
    intro pte found
    rw [stackSize, page] at found
    have here : (elf.lastVpn * 4096 + 12288 - 8192) / 4096 - 1 = elf.lastVpn := by omega
    rw [here] at found
    refine composed.unmapped (by omega) ?_ found
    intro part member
    simp only [ElfFile.imageParts, List.append_assoc, List.mem_append, List.mem_map, List.mem_singleton] at member
    rcases member with ⟨ph, there, rfl⟩ | rfl | rfl
    · exact Or.inr (below ph there)
    · exact Or.inl (Nat.lt_succ_self _)
    · left
      show elf.lastVpn < trapContextVpn
      omega
  case supervisor =>
    intro v member
    simp only [List.mem_cons, List.not_mem_nil, or_false] at member
    rcases member with rfl | rfl
    · have there : trapPart ∈ elf.imageParts input := by simp [ElfFile.imageParts]
      obtain ⟨pte, found, valid, flags, _⟩ := composed.read there (v := trapContextVpn) (i := 0) (by decide) (by decide) (by decide)
      have all : pte.flags = PTEFlags.R ||| PTEFlags.W ||| PTEFlags.V := flags
      exact ⟨pte, found, valid, by rw [all]; decide⟩
    · have entry := composed.whole.trampoline
      have found := translate_of_valid (entry ▸ trampolineEntry_valid : (self.pageTable.leaf mm.mem trampolineVpn).isValid = true)
      rw [entry] at found
      have flags : layout.trampolineEntry.flags = PTEFlags.R ||| PTEFlags.X ||| PTEFlags.V := PageTableEntry.flags_new (by decide)
      exact ⟨_, found, trampolineEntry_valid, by rw [flags]; decide⟩

/-! ### The frames it takes -/

theorem new_takes_then {α : Type} {f : MapArea → MmM α} {startVa endVa perm n : Nat} {kind : MapType}
    (next : Takes (f ⟨VirtAddr.floor startVa, VirtAddr.ceil endVa, [], kind, perm⟩) n) :
    Takes (MapArea.new startVa endVa kind perm >>= f) n := by
  intro mm
  apply wp_bind.mpr
  refine wp_mono (mapArea_new_spec startVa endVa kind perm) ?_ ?_
  · intro area mm₁ both
    obtain ⟨same, shape, _⟩ := both
    subst same shape
    exact next mm₁
  · intro fault bad out
    rw [bad] at out
    cases out

theorem pushSegment_takes (input : List UInt8) (ph : ProgramHeader) :
    Takes (self.pushSegment layout input ph) (3 * (ph.part input).toArea.pageCount) := by
  unfold MemorySet.pushSegment
  apply new_takes_then
  apply Takes.next
  · apply Takes.lift
    unfold MemorySet.sliceInput
    split <;> nofun
  · intro data
    exact (push_takes self layout (ph.part input).toArea (some data)).bind fun _ => .pure _

theorem pushSegments_takes (headers : List (Option ProgramHeader)) (last : Nat) :
    Takes (MemorySet.pushSegments layout input headers self last)
      (3 * ((segmentsOf headers).map fun ph => (ph.part input).toArea.pageCount).sum) := by
  induction headers generalizing self last with
  | nil => exact .pure _
  | cons header rest ih =>
    unfold MemorySet.pushSegments
    cases header with
    | none => exact (Takes.throw (by decide)).mono (Nat.zero_le _)
    | some ph =>
      cases type : ph.load with
      | none => simpa only [type] using (Takes.throw (by decide)).mono (Nat.zero_le _)
      | some loads =>
        cases loads with
        | false =>
          have skip : segmentsOf (some ph :: rest) = segmentsOf rest := by simp [segmentsOf, Option.filter, type]
          simpa only [type, skip] using ih last
        | true =>
          have here : segmentsOf (some ph :: rest) = ph :: segmentsOf rest := by simp [segmentsOf, Option.filter, type]
          simp only [type, here, List.map_cons, List.sum_cons, Nat.mul_add]
          exact (pushSegment_takes input ph).bind fun r => ih r.2

/-- The stack area has at most two pages, wherever it is. -/
theorem stack_pages (last : Nat) (kind : MapType) (perm : Nat) :
    (⟨VirtAddr.floor (VirtAddr.ofUsize ((VirtAddr.toUsize (VirtAddr.ofVpn last) + pageSize) % 2 ^ 64)),
      VirtAddr.ceil (VirtAddr.ofUsize (((VirtAddr.toUsize (VirtAddr.ofVpn last) + pageSize) % 2 ^ 64 + userStackSize) % 2 ^ 64)),
      [], kind, perm⟩ : MapArea).pageCount ≤ 2 := by
  have aligned : (VirtAddr.toUsize (VirtAddr.ofVpn last) + pageSize) % 2 ^ 64 % 4096 = 0 := by
    unfold VirtAddr.toUsize VirtAddr.ofVpn pageSize
    split <;> omega
  generalize (VirtAddr.toUsize (VirtAddr.ofVpn last) + pageSize) % 2 ^ 64 = bottom at aligned ⊢
  unfold MapArea.pageCount VirtAddr.floor VirtAddr.ceil VirtAddr.ofUsize pageSize userStackSize
  dsimp only
  split <;> omega

theorem fromElf_takes {parse : List UInt8 → Option ElfFile} (parsed : parse input = some elf) (loadable : elf.Loadable input) :
    Takes (MemorySet.fromElf layout parse input) (3 + 3 * ((elf.segments.map ProgramHeader.pageCount).sum + 3)) := by
  have counts : elf.segments.map (fun ph => (ph.part input).toArea.pageCount) = elf.segments.map ProgramHeader.pageCount := by
    apply List.map_congr_left
    intro ph member
    have segment := loadable.segments ph member
    show (ph.part input).stop - (ph.part input).start = ph.pageCount
    rw [loadable_start segment, loadable_stop segment, Nat.add_sub_cancel_left]
  have magic : ¬elf.magic ≠ [0x7f, 0x45, 0x4c, 0x46] := not_not_intro loadable.magic
  have trap : (⟨VirtAddr.floor (VirtAddr.ofUsize trapContext), VirtAddr.ceil (VirtAddr.ofUsize trampoline), [], .framed,
      PTEFlags.R ||| PTEFlags.W⟩ : MapArea).pageCount = 1 := by decide
  have counted : Takes (MemorySet.fromElf layout parse input)
      (1 + (2 + (3 * (elf.segments.map ProgramHeader.pageCount).sum + (6 + 3)))) := by
    unfold MemorySet.fromElf
    apply newBare_takes.bind
    intro bare
    apply (mapTrampoline_takes bare layout).bind
    intro topped
    simp only [parsed]
    rw [if_neg magic, ← counts]
    apply (pushSegments_takes elf.programHeaders 0).bind
    intro both
    obtain ⟨loaded, last⟩ := both
    apply new_takes_then
    apply ((push_takes loaded layout _ none).mono (Nat.mul_le_mul_left 3 (stack_pages last _ _))).bind
    intro stacked
    apply new_takes_then
    exact ((push_takes stacked layout _ none).mono (Nat.mul_le_mul_left 3 (Nat.le_of_eq trap))).bind fun _ => .pure _
  exact counted.mono (by omega)

/-- For an ELF file with page-aligned, ascending segments, `from_elf` builds the program's image: the file's
bytes with zeros after them, the headers' permissions, a cleared stack above a guard page, and no `U` on
the kernel's pages. Only frames can run out; three for each page and three more are enough. -/
theorem fromElf_builds_image {parse : List UInt8 → Option ElfFile} (valid : (frameStore layout).valid mm)
    (parsed : parse input = some elf) (loadable : elf.Loadable input) :
    (MemorySet.fromElf layout parse input mm = .error .outOfFrames ∨
      ∃ space top mm', MemorySet.fromElf layout parse input mm = .ok ((space, top, elf.entryPoint), mm') ∧
        ProgramImage input elf space mm' top) ∧
    (3 + 3 * ((elf.segments.map ProgramHeader.pageCount).sum + 3) ≤ mm.frames.free →
      ∃ space top mm', MemorySet.fromElf layout parse input mm = .ok ((space, top, elf.entryPoint), mm')) := by
  have spec := wp_and (fromElf_parts valid parsed loadable) (fromElf_takes parsed loadable mm)
  cases run : MemorySet.fromElf layout parse input mm with
  | error fault =>
    obtain ⟨out, few⟩ := wp_error spec run
    subst out
    have less := few rfl
    exact ⟨Or.inl rfl, fun enough => absurd less (by omega)⟩
  | ok result =>
    obtain ⟨⟨space, rest⟩, mm'⟩ := result
    obtain ⟨⟨composed, ends⟩, _⟩ := wp_ok spec run
    dsimp only at composed ends
    subst ends
    exact ⟨Or.inr ⟨space, _, mm', rfl, composed.image loadable⟩, fun _ => ⟨space, _, mm', rfl⟩⟩

end

/-- An executable of four bytes and a page of zeros. -/
theorem fromElf_builds_image_smallProgram : ∃ space top mm',
    MemorySet.fromElf sample.layout ElfFile.read (executable 6 0x1234 [1, 2, 3, 4]) (Kernel.blank sample).mm =
      .ok ((space, top, 0x10000), mm') ∧ ProgramImage (executable 6 0x1234 [1, 2, 3, 4]) (executableElf 6 0x1234 4) space mm' top := by
  have segments : (executableElf 6 0x1234 4).segments = [⟨some true, 0x10000, 0x1234, 120, 4, true, true, false⟩] := by decide
  have loadable : (executableElf 6 0x1234 4).Loadable (executable 6 0x1234 [1, 2, 3, 4]) := by
    have length : (executable 6 0x1234 [1, 2, 3, 4]).length = 124 := executable_length
    refine ⟨rfl, by simp [executableElf], ?_, by simp [segments], by rw [length]; decide⟩
    rw [segments]
    simp only [List.mem_singleton, forall_eq]
    exact ⟨by decide, by decide, by decide, by rw [length]; decide, by decide⟩
  have parsed := @ElfFile.read_executable 6 0x1234 [1, 2, 3, 4] (by decide) (by decide) (by decide)
  obtain ⟨result, returns⟩ := @fromElf_builds_image _ _ _ _ ElfFile.read (blank_valid (P := sample)) parsed loadable
  have enough : 3 + 3 * (((executableElf 6 0x1234 4).segments.map ProgramHeader.pageCount).sum + 3) ≤ (Kernel.blank sample).mm.frames.free := by
    decide +kernel
  obtain ⟨space, top, mm', run⟩ := returns enough
  rcases result with full | ⟨space', top', mm'', run', image⟩
  · rw [run] at full
    cases full
  · exact ⟨space', top', mm'', run', image⟩

end SecureIpc

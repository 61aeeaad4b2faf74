import SecureIpc.Mm.Image
import SecureIpc.Mm.UserSpace
import SecureIpc.Run.Step

/-! `fork` gives the child an address space of its own that looks like the parent's. -/

namespace SecureIpc
open Lib Relation

/-- The address spaces of processes: loaded or copied, with their pages changed in any way and with
other frames allocated, given back and written meanwhile. -/
inductive Built (layout : Layout) (parse : List UInt8 → Option ElfFile) : Mm → MemorySet → Prop where
  | loaded {mm mm' : Mm} {space : MemorySet} {input : List UInt8} {top entry : Nat} :
    (frameStore layout).valid mm → MemorySet.fromElf layout parse input mm = .ok ((space, top, entry), mm') →
    Built layout parse mm' space
  | copied {mm mm' : Mm} {source space : MemorySet} : Built layout parse mm source →
    MemorySet.fromExistedUser layout source mm = .ok (space, mm') → Built layout parse mm' space
  | written {mm mm' : Mm} {space : MemorySet} : Built layout parse mm space → Stored mm mm' space.dataFrames →
    Built layout parse mm' space
  | elsewhere {mm mm' : Mm} {space : MemorySet} {F G : List Nat} : Built layout parse mm space →
    (frameStore layout).Evolves mm mm' F G → (∀ p ∈ space.frames, p ∉ F) → Built layout parse mm' space

/-- A byte is written through the page table, on a page that may be written. -/
def WritesThrough (space : MemorySet) (mm mm' : Mm) : Prop :=
  ∃ v pte i b, space.translate mm.mem v = some pte ∧ pte.isValid = true ∧
    PTEFlags.contains pte.flags PTEFlags.W = true ∧ i < 4096 ∧
    mm' = { mm with mem := mm.mem.store (pte.ppn * 4096 + i) [b] }

/-- The pages of the address space and their bytes are the same in both states. -/
def SameView (space : MemorySet) (mm mm' : Mm) : Prop :=
  ∀ v pte, space.translate mm.mem v = some pte → pte.isValid = true →
    space.translate mm'.mem v = some pte ∧ ∀ i < 4096, mm'.mem (pte.ppn * 4096 + i) = mm.mem (pte.ppn * 4096 + i)

/-- `copy` in the state `mm'` has the pages that `source` had in the state `mm`. -/
structure Duplicate (source copy : MemorySet) (mm mm' : Mm) : Prop where
  areas : copy.areas.map MapArea.fromAnother = source.areas.map MapArea.fromAnother
  pages : ∀ area ∈ source.areas, ∀ v, area.Holds v → ∃ pte pte', source.translate mm.mem v = some pte ∧
    copy.translate mm'.mem v = some pte' ∧ pte.isValid = true ∧ pte'.flags = pte.flags ∧ pte'.ppn ∈ copy.frames ∧
    ∀ i < 4096, mm'.mem (pte'.ppn * 4096 + i) = mm.mem (pte.ppn * 4096 + i)
  disjoint : ∀ p ∈ copy.frames, p ∉ source.frames

/-- Whatever is written through the two page tables, a write through one is not seen through the other. -/
def Independent (source copy : MemorySet) (mm : Mm) : Prop :=
  ∀ mm₁, ReflTransGen (fun a b => WritesThrough source a b ∨ WritesThrough copy a b) mm mm₁ → ∀ mm₂,
    (WritesThrough source mm₁ mm₂ → SameView copy mm₁ mm₂) ∧ (WritesThrough copy mm₁ mm₂ → SameView source mm₁ mm₂)

section
variable {layout : Layout} {parse : List UInt8 → Option ElfFile} {mm mm' : Mm} {source copy self : MemorySet}

theorem Built.user (built : Built layout parse mm self) : UserSpace layout mm self := by
  induction built with
  | loaded valid ran =>
    obtain ⟨_, _, image, _⟩ := wp_ok (fromElf_spec valid parse _) ran
    exact image.user
  | copied _ ran source => exact (wp_ok (fromExistedUser_spec source) ran).1
  | written _ stored space => exact space.stored stored fun _ mine => mine
  | elsewhere _ step apart space => exact space.other step apart

/-! ### Writes through a page table -/

theorem writable_page (user : UserSpace layout mm self) {v : Nat} {pte : PageTableEntry}
    (found : self.translate mm.mem v = some pte) (valid : pte.isValid = true)
    (writable : PTEFlags.contains pte.flags PTEFlags.W = true) : pte.ppn ∈ self.dataFrames := by
  have leaf : self.pageTable.leaf mm.mem v = pte := by
    have found' : self.pageTable.translate mm.mem v = some pte := found
    simp [PageTable.leaf, found']
  rcases user.whole.entry user.framed v with empty | top | ⟨area, member, _, frame, owned, entry⟩
  · rw [← leaf, empty, PageTableEntry.empty_invalid] at valid
    cases valid
  · -- the trampoline is not writable
    have flags : pte.flags = PTEFlags.R ||| PTEFlags.X ||| PTEFlags.V := by
      rw [← leaf, top]
      exact PageTableEntry.flags_new (by decide)
    rw [flags] at writable
    exact absurd writable (by decide)
  · have inside := mem_dataFrames.mpr ⟨area, member, owned⟩
    have small := perm_small (user.whole.placed area member).perm
    rw [← leaf, entry, PageTableEntry.ppn_new (live_small user.whole.owns (List.mem_append_right _ inside)) (or_V_small small)]
    exact inside

theorem WritesThrough.stored (writes : WritesThrough self mm mm') (user : UserSpace layout mm self) :
    Stored mm mm' self.dataFrames := by
  obtain ⟨v, pte, i, b, found, valid, writable, small, rfl⟩ := writes
  have inside := writable_page user found valid writable
  refine ⟨rfl, fun x outside => ?_⟩
  apply Memory.store_outside
  have apart : x / 4096 ≠ pte.ppn := fun same => outside (same ▸ inside)
  simp only [List.length_singleton]
  omega

/-- Frames of others, and frames outside the allocator, are all that a page outside `frames` can be on. -/
theorem Stored.sameView {frames : List Nat} (stored : Stored mm mm' frames) (user : UserSpace layout mm self)
    (owns : (frameStore layout).Owns mm frames) (apart : ∀ p ∈ self.frames, p ∉ frames) : SameView self mm mm' := by
  have kept : ∀ x, x / 4096 ∉ frames → mm'.mem x = mm.mem x := stored.outside
  have leaves : ∀ v, self.pageTable.leaf mm'.mem v = self.pageTable.leaf mm.mem v :=
    user.whole.leaf_keep fun p inside => content_of_mem fun x onFrame =>
      kept x (by rw [onFrame]; exact apart p (List.mem_append_left _ inside))
  intro v pte found valid
  have leaf : self.pageTable.leaf mm.mem v = pte := by
    have found' : self.pageTable.translate mm.mem v = some pte := found
    simp [PageTable.leaf, found']
  have outside : pte.ppn ∉ frames := by
    rcases user.whole.entry user.framed v with empty | top | ⟨area, member, _, frame, owned, entry⟩
    · rw [← leaf, empty, PageTableEntry.empty_invalid] at valid
      cases valid
    · intro theirs
      have low := @trampolinePpn_lt layout
      have range := (live_range owns theirs).1
      have ppn : pte.ppn = layout.trampolinePpn := by
        have limit : layout.firstFrame ≤ 2 ^ 44 := by
          have bound := live_small owns theirs
          omega
        rw [← leaf, top]
        exact PageTableEntry.ppn_new (by omega) (by decide)
      omega
    · have inside := List.mem_append_right self.pageTable.frames (mem_dataFrames.mpr ⟨area, member, owned⟩)
      have small := perm_small (user.whole.placed area member).perm
      rw [← leaf, entry, PageTableEntry.ppn_new (live_small user.whole.owns inside) (or_V_small small)]
      exact apart frame inside
  constructor
  · have still : (self.pageTable.leaf mm'.mem v).isValid = true := by
      rw [leaves, leaf]
      exact valid
    have here := translate_of_valid still
    rwa [leaves, leaf] at here
  · intro i small
    apply kept
    rwa [show (pte.ppn * 4096 + i) / 4096 = pte.ppn by omega]

/-! ### Two address spaces -/

structure Apart (layout : Layout) (source copy : MemorySet) (mm : Mm) : Prop where
  first : UserSpace layout mm source
  second : UserSpace layout mm copy
  disjoint : ∀ p ∈ copy.frames, p ∉ source.frames

theorem Apart.symm (apart : Apart layout source copy mm) : Apart layout copy source mm :=
  ⟨apart.second, apart.first, fun p mine theirs => apart.disjoint p theirs mine⟩

theorem Apart.unseen (apart : Apart layout source copy mm) (writes : WritesThrough source mm mm') : SameView copy mm mm' :=
  (writes.stored apart.first).sameView apart.second apart.first.whole.owns.right fun p mine theirs =>
    apart.disjoint p mine (List.mem_append_right _ theirs)

theorem Apart.write (apart : Apart layout source copy mm) (writes : WritesThrough source mm mm') :
    Apart layout source copy mm' := by
  have stored := writes.stored apart.first
  have step := stored.evolves apart.first.whole.owns fun p mine => List.mem_append_right _ mine
  exact ⟨apart.first.stored stored fun _ mine => mine, apart.second.other step apart.disjoint, apart.disjoint⟩

theorem Apart.independent (apart : Apart layout source copy mm) : Independent source copy mm := by
  intro mm₁ run
  have later : Apart layout source copy mm₁ := by
    induction run with
    | refl => exact apart
    | tail _ step ih =>
      rcases step with writes | writes
      · exact ih.write writes
      · exact (ih.symm.write writes).symm
  intro mm₂
  exact ⟨later.unseen, later.symm.unseen⟩

/-! ### The copy -/

theorem copied_areas {areas copies : List MapArea} (copied : List.Forall₂ (Copied layout mm mm') areas copies) :
    copies.map MapArea.fromAnother = areas.map MapArea.fromAnother := by
  induction copied with
  | nil => rfl
  | cons one _ ih =>
    rw [List.map_cons, List.map_cons, ih, one.shape]
    rfl

theorem copied_page {area area' : MapArea} {v : Nat} (copied : Copied layout mm mm' area area')
    (before : UserSpace layout mm source) (after : UserSpace layout mm' copy) (member : area ∈ source.areas)
    (member' : area' ∈ copy.areas) (held : area.Holds v) : ∃ pte pte', source.translate mm.mem v = some pte ∧
      copy.translate mm'.mem v = some pte' ∧ pte.isValid = true ∧ pte'.flags = pte.flags ∧ pte'.ppn ∈ copy.frames ∧
      ∀ i < 4096, mm'.mem (pte'.ppn * 4096 + i) = mm.mem (pte.ppn * 4096 + i) := by
  have framed := before.framed area member
  have count := (before.whole.placed area member).frames_length framed
  have count' : area'.frames.length = area.frames.length := by
    have lengths := congrArg List.length copied.contents
    simpa using lengths
  have low := held.1
  have high := held.2
  have inside : v - area.vpnStart < area.frames.length := by omega
  have inside' : v - area.vpnStart < area'.frames.length := by omega
  obtain ⟨pte, found, valid, ppn, flags⟩ := before.whole.page framed member inside
  obtain ⟨pte', found', _, ppn', flags'⟩ := after.whole.page (after.framed area' member') member' inside'
  have start : area'.vpnStart = area.vpnStart := by rw [copied.shape]
  have perm : area'.mapPerm = area.mapPerm := by rw [copied.shape]
  rw [Nat.add_sub_cancel' low] at found
  rw [start, Nat.add_sub_cancel' low] at found'
  refine ⟨pte, pte', found, found', valid, by rw [flags, flags', perm], ?_, ?_⟩
  · rw [ppn']
    exact List.mem_append_right _ (frames_subset member' _ (List.getElem_mem inside'))
  · intro i small
    have contents := congrArg (fun list => list[v - area.vpnStart]?) copied.contents
    simp only [List.getElem?_map, List.getElem?_eq_getElem inside, List.getElem?_eq_getElem inside', Option.map_some,
      Option.some.injEq] at contents
    rw [ppn, ppn']
    exact congrFun contents ⟨i, small⟩

/-- The copy of a process's address space has the same areas, flags and bytes on frames of its own, leaves
the source as it is and is independent of it from then on. Only frames can run out; three for each page
and three more are enough. -/
theorem fork_copies_space (built : Built layout parse mm source) :
    (MemorySet.fromExistedUser layout source mm = .error .outOfFrames ∨
      ∃ copy mm', MemorySet.fromExistedUser layout source mm = .ok (copy, mm') ∧ Duplicate source copy mm mm' ∧
        (∀ v, source.pageTable.leaf mm'.mem v = source.pageTable.leaf mm.mem v) ∧
        (∀ x, x / 4096 ∈ source.frames → mm'.mem x = mm.mem x) ∧ Independent source copy mm') ∧
    (3 + 3 * (source.areas.map MapArea.pageCount).sum ≤ mm.frames.free →
      ∃ copy mm', MemorySet.fromExistedUser layout source mm = .ok (copy, mm')) := by
  have user := built.user
  have spec := wp_and (fromExistedUser_spec user) (fromExistedUser_takes layout source mm)
  cases run : MemorySet.fromExistedUser layout source mm with
  | error fault =>
    obtain ⟨out, few⟩ := wp_error spec run
    subst out
    have less := few rfl
    exact ⟨Or.inl rfl, fun enough => absurd less (by omega)⟩
  | ok result =>
    obtain ⟨copy, mm'⟩ := result
    obtain ⟨⟨after, evolves, copied⟩, _⟩ := wp_ok spec run
    have nobody : ∀ p ∈ source.frames, p ∉ ([] : List Nat) := fun _ _ => List.not_mem_nil
    have same := evolves.same_other user.whole.owns nobody
    have disjoint : ∀ p ∈ copy.frames, p ∉ source.frames := fun p mine theirs =>
      evolves.apart_other user.whole.owns nobody p theirs mine
    refine ⟨Or.inr ⟨copy, mm', rfl, ⟨copied_areas copied, ?_, disjoint⟩, ?_, ?_, ?_⟩, fun _ => ⟨copy, mm', rfl⟩⟩
    · intro area member v held
      obtain ⟨i, bound, here⟩ := List.getElem_of_mem member
      have bound' : i < copy.areas.length := copied.length_eq ▸ bound
      have one := (List.forall₂_iff_get.mp copied).2 i bound bound'
      simp only [List.get_eq_getElem, here] at one
      exact copied_page one user after member (List.getElem_mem bound') held
    · exact user.whole.leaf_keep fun p inside => same p (List.mem_append_left _ inside)
    · intro x inside
      exact mem_of_content (same _ inside) rfl
    · exact Apart.independent ⟨user.other evolves nobody, after, disjoint⟩

end

theorem fork_copies_space_loaded : ∃ source mm copy mm', Built sample.layout sample.parseElf mm source ∧
    MemorySet.fromExistedUser sample.layout source mm = .ok (copy, mm') ∧ Duplicate source copy mm mm' := by
  have ran : ((MemorySet.fromElf sample.layout sample.parseElf sampleImage (Kernel.blank sample).mm).toOption.any fun r =>
      decide (3 + 3 * (r.1.1.areas.map MapArea.pageCount).sum ≤ r.2.frames.free)) = true := by
    decide +kernel
  simp only [Option.any_eq_true, toOption_eq_some, decide_eq_true_eq] at ran
  obtain ⟨⟨⟨source, top, entry⟩, mm⟩, loaded, enough⟩ := ran
  have built : Built sample.layout sample.parseElf mm source := .loaded (blank_valid (P := sample)) loaded
  obtain ⟨result, returns⟩ := fork_copies_space built
  obtain ⟨copy, mm', run⟩ := returns enough
  rcases result with full | ⟨copy', mm'', run', duplicate, _⟩
  · rw [run] at full
    cases full
  · exact ⟨source, mm, copy', mm'', built, run', duplicate⟩

end SecureIpc

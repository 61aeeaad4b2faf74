import SecureIpc.Mm.Build
import SecureIpc.Mm.Supply

/-! What the pages of an address space hold, and the image that loading a program makes. -/

namespace SecureIpc
open Lib

section
variable {layout : Layout} {mm mm' : Mm} {self self' : MemorySet} {area area' : MapArea}

theorem Space.page (space : Space layout mm self) (framed : area.mapType = .framed) (member : area ∈ self.areas) {i : Nat}
    (inside : i < area.frames.length) : ∃ pte, self.translate mm.mem (area.vpnStart + i) = some pte ∧ pte.isValid = true ∧
      pte.ppn = area.frames[i] ∧ pte.flags = area.mapPerm ||| PTEFlags.V := by
  have placed := space.placed area member
  have small := perm_small placed.perm
  have entry := placed.leads framed i inside
  have owned := List.mem_append_right self.pageTable.frames (frames_subset member _ (List.getElem_mem inside))
  have valid : (PageTableEntry.new area.frames[i] (area.mapPerm ||| PTEFlags.V)).isValid = true := isValid_new small
  refine ⟨_, ?_, valid, PageTableEntry.ppn_new (live_small space.owns owned) (or_V_small small),
    PageTableEntry.flags_new (or_V_small small)⟩
  rw [← entry] at valid ⊢
  exact translate_of_valid valid

/-! ### Copying data to the pages of an area -/

theorem writeFrame_bytes {F : List Nat} {frame : Nat} (owns : (frameStore layout).Owns mm F) (mine : frame ∈ F)
    (zero : ∀ x, x / 4096 = frame → mm.mem x = 0) (data : List UInt8) :
    wp (writeFrame layout frame (data.take pageSize)) (fun _ mm' => Stored mm mm' [frame] ∧
      ∀ i < 4096, mm'.mem (frame * 4096 + i) = data.getD i 0) (fun _ => False) mm := by
  have short : (data.take pageSize).length ≤ 4096 := List.length_take_le pageSize data
  unfold writeFrame
  rw [if_pos (Or.inr (writable_of_owned owns mine))]
  apply wp_modify.mpr
  constructor
  · refine ⟨rfl, fun x outside => Memory.store_outside ?_⟩
    rw [List.mem_singleton] at outside
    show x < frame * 4096 ∨ frame * 4096 + _ ≤ x
    omega
  · intro i small
    show mm.mem.store (frame * 4096) (data.take pageSize) (frame * 4096 + i) = _
    by_cases inside : i < (data.take pageSize).length
    · have within : i < data.length := by
        rw [List.length_take] at inside
        omega
      rw [Memory.store_inside inside, List.getElem_take]
      simp [within]
    · have beyond : data.length ≤ i := by
        rw [List.length_take, pageSize] at inside
        omega
      rw [Memory.store_outside (by omega), zero _ (by omega)]
      simp [beyond]

/-- The loop of `copy_data`, one page at a time. -/
theorem copyDataFrom_rule {vpn perm fuel frame : Nat} {data : List UInt8} {Q : Unit → Mm → Prop} {E : Fault → Prop}
    (space : Space layout mm self) (entry : self.pageTable.leaf mm.mem vpn = .new frame (perm ||| PTEFlags.V))
    (small : perm < 32) (mine : frame ∈ self.dataFrames) (zero : ∀ x, x / 4096 = frame → mm.mem x = 0)
    (next : ∀ mm₁, Stored mm mm₁ [frame] → (∀ i < 4096, mm₁.mem (frame * 4096 + i) = data.getD i 0) →
      (fuel = 0 ∨ data.length ≤ 4096 → Q () mm₁) ∧ ∀ less, fuel = less + 1 → 4096 < data.length →
        wp (copyDataFrom layout self.pageTable less (vpn + 1) (data.drop 4096)) Q E mm₁) :
    wp (copyDataFrom layout self.pageTable fuel vpn data) Q E mm := by
  have mine' := List.mem_append_right self.pageTable.frames mine
  have found : self.pageTable.translate mm.mem vpn = some (.new frame (perm ||| PTEFlags.V)) := by
    have valid : (PageTableEntry.new frame (perm ||| PTEFlags.V)).isValid = true := isValid_new (perm_small small)
    rw [← entry] at valid ⊢
    exact translate_of_valid valid
  have ppn := PageTableEntry.ppn_new (live_small space.owns mine') (or_V_small (perm_small small))
  unfold copyDataFrom
  simp only [wp_bind, wp_read, found, ppn]
  refine wp_mono (writeFrame_bytes space.owns mine' zero data) ?_ fun _ impossible => impossible.elim
  intro _ mm₁ both
  obtain ⟨stored, bytes⟩ := both
  obtain ⟨stop, more⟩ := next mm₁ stored bytes
  cases fuel with
  | zero => exact stop (Or.inl rfl)
  | succ less =>
    dsimp only
    by_cases last : data.length ≤ pageSize
    · rw [if_pos last]
      exact stop (Or.inr last)
    · rw [if_neg last]
      exact more less rfl (Nat.lt_of_not_le last)

theorem onlyPage {frame : Nat} {rest : List Nat} {data : List UInt8} (stored : Stored mm mm' [frame])
    (bytes : ∀ i < 4096, mm'.mem (frame * 4096 + i) = data.getD i 0) (nodup : (frame :: rest).Nodup)
    (zero : ∀ x, x / 4096 ∈ frame :: rest → mm.mem x = 0) (short : data.length ≤ 4096) :
    Stored mm mm' (frame :: rest) ∧ ∀ k (inside : k < (frame :: rest).length), ∀ i < 4096,
      mm'.mem ((frame :: rest)[k] * 4096 + i) = data.getD (k * 4096 + i) 0 := by
  constructor
  · refine ⟨stored.allocator, fun x outside => stored.outside x ?_⟩
    simp only [List.mem_cons, not_or] at outside
    simp [outside.1]
  · intro k inside i low
    cases k with
    | zero => simp [bytes i low]
    | succ k =>
      have inside' : k < rest.length := Nat.lt_of_succ_lt_succ inside
      have member : rest[k] ∈ rest := List.getElem_mem inside'
      have other : rest[k] ≠ frame := fun same => (List.nodup_cons.mp nodup).1 (same ▸ member)
      have page : (rest[k] * 4096 + i) / 4096 = rest[k] := by omega
      rw [List.getElem_cons_succ, stored.outside _ (by simp [page, other]), zero _ (by simp [page, member])]
      simp [show data.length ≤ (k + 1) * 4096 + i by omega]

/-- `copy_data` on cleared pages: the data from the first page on, zeros after them. -/
theorem copyDataFrom_bytes {vpn perm fuel : Nat} {frames : List Nat} {data : List UInt8} (space : Space layout mm self)
    (leads : Leads (self.pageTable.leaf mm.mem) vpn perm frames) (small : perm < 32)
    (owned : ∀ p ∈ frames, p ∈ self.dataFrames) (nodup : frames.Nodup) (zero : ∀ x, x / 4096 ∈ frames → mm.mem x = 0)
    (page : frames ≠ []) (room : data.length ≤ frames.length * 4096) (steps : data.length ≤ (fuel + 1) * 4096) :
    wp (copyDataFrom layout self.pageTable fuel vpn data) (fun _ mm' => Stored mm mm' frames ∧
      ∀ k (inside : k < frames.length), ∀ i < 4096, mm'.mem (frames[k] * 4096 + i) = data.getD (k * 4096 + i) 0)
      (fun _ => False) mm := by
  induction fuel generalizing mm vpn frames data with
  | zero =>
    obtain ⟨frame, rest, rfl⟩ := List.exists_cons_of_ne_nil page
    apply copyDataFrom_rule space leads.head small (owned frame List.mem_cons_self) fun x on => zero x (by simp [on])
    intro mm₁ stored bytes
    exact ⟨fun _ => onlyPage stored bytes nodup zero (by omega), nofun⟩
  | succ fuel ih =>
    obtain ⟨frame, rest, rfl⟩ := List.exists_cons_of_ne_nil page
    have mine := owned frame List.mem_cons_self
    apply copyDataFrom_rule space leads.head small mine fun x on => zero x (by simp [on])
    intro mm₁ stored bytes
    have fresh := (List.nodup_cons.mp nodup).1
    constructor
    · intro last
      exact onlyPage stored bytes nodup zero (last.resolve_left nofun)
    · intro less same long
      obtain rfl := Nat.succ.inj same
      have space₁ : Space layout mm₁ self := by
        have wider : Stored mm mm₁ self.dataFrames :=
          ⟨stored.allocator, fun x outside => stored.outside x fun on => outside (List.mem_singleton.mp on ▸ mine)⟩
        exact wider.space space
      have leaves : ∀ v, self.pageTable.leaf mm₁.mem v = self.pageTable.leaf mm.mem v :=
        space.leaf_keep fun p inside => content_of_mem fun x on => stored.outside x fun clash =>
          space.owns.disjoint inside (by rw [← on, List.mem_singleton.mp clash]; exact mine)
      have leads₁ : Leads (self.pageTable.leaf mm₁.mem) (vpn + 1) perm rest := by
        intro i inside
        rw [leaves]
        exact leads.tail i inside
      have zero₁ : ∀ x, x / 4096 ∈ rest → mm₁.mem x = 0 := by
        intro x inside
        rw [stored.outside x fun clash => fresh (List.mem_singleton.mp clash ▸ inside)]
        exact zero x (List.mem_cons_of_mem _ inside)
      have pages : rest ≠ [] := by
        intro none
        simp only [none, List.length_singleton] at room
        omega
      rw [List.length_cons] at room
      refine wp_mono (ih space₁ leads₁ (fun p inside => owned p (List.mem_cons_of_mem _ inside)) (List.nodup_cons.mp nodup).2
        zero₁ pages (by rw [List.length_drop]; omega) (by rw [List.length_drop]; omega)) ?_ fun _ impossible => impossible
      intro _ mm' both
      obtain ⟨more, copied⟩ := both
      constructor
      · refine ⟨more.allocator.trans stored.allocator, fun x outside => ?_⟩
        simp only [List.mem_cons, not_or] at outside
        rw [more.outside x outside.2, stored.outside x (by simp [outside.1])]
      · intro k inside i low
        cases k with
        | zero =>
          have still : mm'.mem (frame * 4096 + i) = mm₁.mem (frame * 4096 + i) :=
            more.outside _ (by rw [show (frame * 4096 + i) / 4096 = frame by omega]; exact fresh)
          simp [still, bytes i low]
        | succ k =>
          have here := copied k (Nat.lt_of_succ_lt_succ inside) i low
          rw [List.getElem_cons_succ, here]
          simp only [List.getD_eq_getElem?_getD, List.getElem?_drop]
          congr 2
          omega

end

/-! ### The parts of an image -/

/-- Consecutive pages with their permissions; the data begin on the first page, and zeros follow them. -/
structure Part where
  start : Nat
  stop : Nat
  perm : Nat
  data : List UInt8
  deriving DecidableEq, Repr

def Part.toArea (part : Part) : MapArea := ⟨part.start, part.stop, [], .framed, part.perm⟩

structure Part.Fills (mm : Mm) (part : Part) (area : MapArea) : Prop where
  shape : area = { part.toArea with dataFrames := area.dataFrames }
  bytes : ∀ k (inside : k < area.frames.length), ∀ i < 4096, mm.mem (area.frames[k] * 4096 + i) = part.data.getD (k * 4096 + i) 0

/-- The address space consists of the parts. -/
structure Composed (layout : Layout) (mm : Mm) (space : MemorySet) (parts : List Part) : Prop where
  whole : Space layout mm space
  parts : List.Forall₂ (Part.Fills mm) parts space.areas

section
variable {layout : Layout} {mm mm' : Mm} {self self' : MemorySet} {area : MapArea} {parts : List Part} {part : Part}

theorem Part.Fills.congr (fills : part.Fills mm area)
    (same : ∀ p ∈ area.frames, (frameStore layout).content mm' p = (frameStore layout).content mm p) : part.Fills mm' area := by
  refine ⟨fills.shape, fun k inside i low => ?_⟩
  rw [mem_of_content (same _ (List.getElem_mem inside)) (by omega)]
  exact fills.bytes k inside i low

theorem Composed.areaPart (composed : Composed layout mm self parts) (member : area ∈ self.areas) :
    ∃ part ∈ parts, part.Fills mm area := by
  obtain ⟨i, bound, rfl⟩ := List.getElem_of_mem member
  obtain ⟨lengths, each⟩ := List.forall₂_iff_get.mp composed.parts
  exact ⟨parts[i], List.getElem_mem _, each i (lengths ▸ bound) bound⟩

theorem Composed.partArea (composed : Composed layout mm self parts) (member : part ∈ parts) :
    ∃ area ∈ self.areas, part.Fills mm area := by
  obtain ⟨i, bound, rfl⟩ := List.getElem_of_mem member
  obtain ⟨lengths, each⟩ := List.forall₂_iff_get.mp composed.parts
  exact ⟨self.areas[i], List.getElem_mem _, each i bound (lengths ▸ bound)⟩

theorem Composed.framed (composed : Composed layout mm self parts) : ∀ area ∈ self.areas, area.mapType = .framed := by
  intro area member
  obtain ⟨part, _, fills⟩ := composed.areaPart member
  rw [fills.shape]
  rfl

structure Part.Fits (part : Part) (parts : List Part) : Prop where
  ordered : part.start ≤ part.stop
  below : part.stop ≤ trampolineVpn
  perm : part.perm < 32
  apart : ∀ one ∈ parts, one.stop ≤ part.start ∨ part.stop ≤ one.start
  room : part.data.length ≤ (part.stop - part.start) * 4096

theorem Composed.fault (composed : Composed layout mm self parts) (fits : part.Fits parts) {fault : Fault}
    (failed : MapFault (self.pageTable.leaf mm.mem) part.start (part.stop - part.start) fault) : fault = .outOfFrames := by
  rcases failed with full | ⟨_, i, inside, valid⟩
  · exact full
  · have below := fits.below
    have ordered := fits.ordered
    have limit : trampolineVpn < 2 ^ 27 := by decide
    rcases composed.whole.known (part.start + i) (by omega) with empty | top | ⟨area, member, held⟩
    · rw [empty, PageTableEntry.empty_invalid] at valid
      cases valid
    · omega
    · obtain ⟨one, there, fills⟩ := composed.areaPart member
      have start : area.vpnStart = one.start := by rw [fills.shape]; rfl
      have stop : area.vpnEnd = one.stop := by rw [fills.shape]; rfl
      have apart := fits.apart one there
      have low := held.1
      have high := held.2
      omega

theorem Composed.extend (composed : Composed layout mm self parts) (whole : Space layout mm' self')
    (areas : self'.areas = self.areas ++ [area])
    (same : ∀ p ∈ self.dataFrames, (frameStore layout).content mm' p = (frameStore layout).content mm p)
    (fills : part.Fills mm' area) : Composed layout mm' self' (parts ++ [part]) := by
  refine ⟨whole, ?_⟩
  rw [areas]
  refine List.rel_append ?_ (List.Forall₂.cons fills .nil)
  refine List.forall₂_iff_get.mpr ⟨composed.parts.length_eq, fun i bound bound' => ?_⟩
  have before := (List.forall₂_iff_get.mp composed.parts).2 i bound bound'
  exact before.congr fun p inside => same p (frames_subset (List.get_mem _ _) p inside)

theorem Composed.push (composed : Composed layout mm self parts) (fits : part.Fits parts) (blank : part.data = []) :
    wp (self.push layout part.toArea none) (fun self' mm' => Composed layout mm' self' (parts ++ [part])) (· = .outOfFrames) mm := by
  have limit : part.toArea.vpnEnd ≤ 2 ^ 27 := Nat.le_trans fits.below (by decide)
  refine wp_mono (push_spec composed.whole rfl fits.ordered limit fits.perm) ?_ fun _ failed => composed.fault fits failed
  intro self' mm' both
  obtain ⟨area, pushed⟩ := both
  refine composed.extend pushed.whole pushed.areas pushed.same ⟨pushed.stored, ?_⟩
  intro k inside i low
  rw [pushed.zero rfl _ (List.getElem_mem inside) _ (by omega), blank]
  rfl

theorem Composed.pushData (composed : Composed layout mm self parts) (fits : part.Fits parts) (page : part.start < part.stop) :
    wp (self.push layout part.toArea (some part.data)) (fun self' mm' => Composed layout mm' self' (parts ++ [part]))
      (· = .outOfFrames) mm := by
  have limit : part.toArea.vpnEnd ≤ 2 ^ 27 := Nat.le_trans fits.below (by decide)
  unfold MemorySet.push
  apply wp_bind.mpr
  refine wp_mono (map_space composed.whole rfl fits.ordered limit fits.perm) ?_ fun _ failed => composed.fault fits failed
  intro both mm₁ pushed
  obtain ⟨area, table⟩ := both
  dsimp only at pushed ⊢
  have member : area ∈ (⟨table, self.areas ++ [area]⟩ : MemorySet).areas := List.mem_append_right _ (List.mem_singleton_self area)
  have placed := pushed.whole.placed area member
  have shape := pushed.stored
  have kind : area.mapType = .framed := by rw [shape]; rfl
  have start : area.vpnStart = part.start := by rw [shape]; rfl
  have perm : area.mapPerm = part.perm := by rw [shape]; rfl
  have count : area.frames.length = part.stop - part.start := by
    rw [placed.frames_length kind, shape]
    rfl
  have leads := placed.leads kind
  have nodup := frames_nodup member pushed.whole.owns
  have owned := frames_subset member
  apply wp_bind.mpr
  unfold MapArea.copyData
  rw [if_pos kind]
  have some : area.frames ≠ [] := List.ne_nil_of_length_pos (by omega)
  refine wp_mono (copyDataFrom_bytes pushed.whole leads (perm ▸ fits.perm) owned nodup
    (fun x inside => pushed.zero rfl _ inside x rfl) some (by rw [count]; exact fits.room) ?_) ?_ fun _ impossible => impossible.elim
  · show part.data.length ≤ (part.data.length / 4096 + 1) * 4096
    omega
  · intro _ mm' both
    obtain ⟨stored, bytes⟩ := both
    have wider : Stored mm₁ mm' (⟨table, self.areas ++ [area]⟩ : MemorySet).dataFrames :=
      ⟨stored.allocator, fun x outside => stored.outside x fun inside => outside (owned _ inside)⟩
    refine composed.extend (wider.space pushed.whole) rfl ?_ ⟨shape, bytes⟩
    intro p inside
    rw [← pushed.same p inside]
    refine content_of_mem fun x on => stored.outside x fun clash => ?_
    -- the frames of the other areas are not those of the new one
    have frames := pushed.whole.owns.right.nodup
    rw [MemorySet.dataFrames, List.flatMap_append, List.flatMap_singleton] at frames
    exact (List.nodup_append.mp frames).2.2 p inside p (on ▸ clash) rfl

/-! ### Reading a part -/

theorem Composed.read (composed : Composed layout mm self parts) (member : part ∈ parts) {v i : Nat} (above : part.start ≤ v)
    (below : v < part.stop) (low : i < 4096) : ∃ pte, self.translate mm.mem v = some pte ∧ pte.isValid = true ∧
      pte.flags = part.perm ||| PTEFlags.V ∧ mm.mem (pte.ppn * 4096 + i) = part.data.getD ((v - part.start) * 4096 + i) 0 := by
  obtain ⟨area, there, fills⟩ := composed.partArea member
  have start : area.vpnStart = part.start := by rw [fills.shape]; rfl
  have stop : area.vpnEnd = part.stop := by rw [fills.shape]; rfl
  have perm : area.mapPerm = part.perm := by rw [fills.shape]; rfl
  have framed := composed.framed area there
  have count := (composed.whole.placed area there).frames_length framed
  have inside : v - part.start < area.frames.length := by omega
  obtain ⟨pte, found, valid, ppn, flags⟩ := composed.whole.page framed there inside
  rw [start, Nat.add_sub_cancel' above] at found
  rw [perm] at flags
  exact ⟨pte, found, valid, flags, ppn ▸ fills.bytes _ inside i low⟩

theorem Composed.unmapped (composed : Composed layout mm self parts) {v : Nat} (low : v < trampolineVpn)
    (outside : ∀ part ∈ parts, v < part.start ∨ part.stop ≤ v) {pte : PageTableEntry}
    (found : self.translate mm.mem v = some pte) : pte.isValid = false := by
  have limit : trampolineVpn < 2 ^ 27 := by decide
  have leaf : self.pageTable.leaf mm.mem v = pte := by
    have found' : self.pageTable.translate mm.mem v = some pte := found
    simp [PageTable.leaf, found']
  rcases composed.whole.known v (by omega) with empty | top | ⟨area, member, held⟩
  · rw [← leaf, empty]
    exact PageTableEntry.empty_invalid
  · omega
  · obtain ⟨one, there, fills⟩ := composed.areaPart member
    have start : area.vpnStart = one.start := by rw [fills.shape]; rfl
    have stop : area.vpnEnd = one.stop := by rw [fills.shape]; rfl
    have apart := outside one there
    have low := held.1
    have high := held.2
    omega

end

end SecureIpc

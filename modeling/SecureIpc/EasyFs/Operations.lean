import SecureIpc.EasyFs.Volume

/-! Reading, writing and clearing a file of a disk: one node is replaced, and the others stay. -/

namespace SecureIpc.EasyFs
open Lib

/-- While node `n` is worked on: it has become `node'`, but the inode is not stored yet. -/
structure Working (geo : Geometry) (nodes : List Node) (n : Nat) (node node' : Node) (mem mem' : Memory) : Prop where
  sound : node'.Sound mem'
  marks : Marks geo (owned (nodes.set n node')) mem'
  touches : Touches geo n (node.tree.ids ++ node'.tree.ids) mem mem'

structure Extended (node node' : Node) (newSize : Nat) (taken : List Nat) (mem mem' : Memory) : Prop where
  size : node'.size = max node.size newSize
  type : node'.type = node.type
  data : node.tree.data <+: node'.tree.data
  index : ∀ id ∈ node.tree.index, id ∈ node'.tree.index
  ids : node'.tree.ids.Perm (node.tree.ids ++ taken)
  view : ∀ i < 512 * node'.tree.data.length, node'.tree.view mem' i = node'.tree.view mem i

/-- The data area has room for the blocks of a larger size. -/
def Room (geo : Geometry) (nodes : List Node) (node : Node) (newSize : Nat) : Prop :=
  (owned nodes).length + (totalOf (blocksOf newSize) - totalOf (blocksOf node.size)) ≤ geo.capacity

section
variable {geo : Geometry} {nodes : List Node} {node node₁ node₂ : Node} {mem mem₁ mem₂ : Memory} {n newSize offset : Nat} {buf : List UInt8}

/-! ### The inode of a node -/

theorem bitmap_free (inside : n < geo.ib * 4096) : ∀ id ∈ geo.fs.dataBitmap.ids, id ∉ [(geo.place n).blockId] := by
  have place := geo.place_spec inside
  intro id bitmap
  rw [geo.mem_dataBitmap] at bitmap
  rw [List.mem_singleton]
  omega

theorem readDiskInode_rule {α : Type} {f : List Nat → DiskInode → FsM α} {Q : α → Memory → Prop} {E : FsFault → Prop}
    (volume : Volume geo nodes mem) (found : nodes[n]? = some node) :
    wp ((geo.place n).readDiskInode [] f) Q E mem ↔ wp (f [(geo.place n).blockId] node.inode) Q E mem := by
  have place := (geo.place_spec (volume.inside found)).2.2
  have fits : (geo.place n).blockOffset + diskInodeSize ≤ blockSz := place
  simp only [Inode.readDiskInode, Inode.checkPlace, if_pos fits, wp_bind, wp_lockBlock List.not_mem_nil (by decide : [].length < 15), wp_pure,
    wp_read, volume.load_eq found]

theorem modifyDiskInode_rule {α : Type} {f : List Nat → DiskInode → FsM (α × DiskInode)} {Q : α → Memory → Prop} {E : FsFault → Prop}
    (volume : Volume geo nodes mem) (found : nodes[n]? = some node) :
    wp ((geo.place n).modifyDiskInode [] f) Q E mem ↔
      wp (f [(geo.place n).blockId] node.inode) (fun r mem' => Q r.1 (r.2.store mem' (geo.place n).addr)) E mem := by
  have place := (geo.place_spec (volume.inside found)).2.2
  have fits : (geo.place n).blockOffset + diskInodeSize ≤ blockSz := place
  simp only [Inode.modifyDiskInode, Inode.checkPlace, if_pos fits, wp_bind, wp_lockBlock List.not_mem_nil (by decide : [].length < 15), wp_pure,
    wp_read, wp_modify, volume.load_eq found]

/-! ### Working on a node -/

namespace Working

theorem start (volume : Volume geo nodes mem) (found : nodes[n]? = some node) : Working geo nodes n node node mem mem := by
  refine ⟨volume.sound n node found, ?_, Touches.refl _ _ _ _⟩
  rw [set_same found]
  exact volume.marks

variable (found : nodes[n]? = some node) (working : Working geo nodes n node node₁ mem mem₁)
include found working

theorem area {id : Nat} (mine : id ∈ node₁.tree.ids) : geo.dataStart ≤ id ∧ id < 2 ^ 32 ∧ id ∉ geo.fs.dataBitmap.ids := by
  have member := mem_owned.mpr ⟨n, node₁, set_found found node₁, mine⟩
  exact ⟨(working.marks.area id member).1, (working.marks.area id member).2.2, working.marks.behind member⟩

theorem distinct : node₁.tree.ids.Nodup :=
  (List.nodup_flatMap.mp working.marks.distinct).1 node₁ (List.mem_of_getElem? (set_found found node₁))

theorem fits : node₁.inode.Fits := Node.fits (fun _ mine => (working.area found mine).2.1) working.sound.bound

variable (volume : Volume geo nodes mem)
include volume

theorem free : ∀ id ∈ node₁.tree.ids, id ∉ [(geo.place n).blockId] := by
  intro id mine
  have areas := geo.areas
  have place := geo.place_spec (volume.inside found)
  have area := working.area found mine
  rw [List.mem_singleton]
  omega

theorem store : Volume geo (nodes.set n node₁) (node₁.inode.store mem₁ (geo.place n).addr) ∧
    Touches geo n (node.tree.ids ++ node₁.tree.ids) mem (node₁.inode.store mem₁ (geo.place n).addr) ∧
    ∀ i < 512 * node₁.tree.data.length, node₁.tree.view (node₁.inode.store mem₁ (geo.place n).addr) i = node₁.tree.view mem₁ i := by
  have fits := working.fits found
  have place := geo.place_spec (volume.inside found)
  have outside : Outside [(geo.place n).blockId] mem₁ (node₁.inode.store mem₁ (geo.place n).addr) := by
    intro x out
    apply DiskInode.store_outside fits
    have block := @Geometry.place_block geo n x
    simp only [List.mem_singleton, Geometry.place] at out
    omega
  have touches : Touches geo n (node.tree.ids ++ node₁.tree.ids) mem (node₁.inode.store mem₁ (geo.place n).addr) :=
    working.touches.trans (store_touches fits)
  obtain ⟨links, exact, count, bound⟩ := working.sound
  have sound : node₁.Sound (node₁.inode.store mem₁ (geo.place n).addr) := by
    refine ⟨links.frame outside fun id mine => ?_, exact, count, bound⟩
    exact working.free found volume id (BlockTree.mem_ids.mpr (Or.inr mine))
  have marks : Marks geo (owned (nodes.set n node₁)) (node₁.inode.store mem₁ (geo.place n).addr) :=
    working.marks.congr fun x bitmap => outside x (bitmap_free (volume.inside found) _ bitmap)
  refine ⟨volume.update found sound (DiskInode.load_store fits) marks touches, touches, fun i inside => ?_⟩
  exact BlockTree.view_frame outside (fun id mine => working.free found volume id (BlockTree.mem_ids.mpr (Or.inl mine))) inside

/-- `increase_size` takes the blocks it needs, and stops only where the file or the data area is too small for them. -/
theorem increaseSize : wp (Inode.increaseSize geo.fs [(geo.place n).blockId] newSize node₁.inode) (fun inode mem₂ => ∃ node₂ taken,
    inode = node₂.inode ∧ Working geo nodes n node node₂ mem mem₂ ∧ Extended node₁ node₂ newSize taken mem₁ mem₂ ∧
      (Room geo (nodes.set n node₁) node₁ newSize → ∀ id ∈ taken, id < geo.total))
    (fun _ => ¬(blocksOf newSize ≤ maxBlocks ∧ Room geo (nodes.set n node₁) node₁ newSize)) mem₁ := by
  have sound := working.sound
  have size : node₁.inode.size = node₁.size := rfl
  rw [Inode.increaseSize, size]
  by_cases smaller : newSize < node₁.size
  · rw [if_pos smaller]
    refine ⟨node₁, [], rfl, working, ⟨by omega, rfl, List.prefix_rfl, fun _ member => member, by simp, fun _ _ => rfl⟩, by simp⟩
  have le : node₁.size ≤ newSize := Nat.not_lt.mp smaller
  rw [if_neg smaller]
  by_cases limit : blocksOf newSize ≤ maxBlocks
  · have fits : newSize + 512 < 2 ^ 32 := by
      unfold blocksOf maxBlocks at limit
      omega
    rw [wp_bind, BlockTree.blocksNumNeeded_spec le fits, wp_bind]
    refine wp_mono (allocBlocks_spec working.marks (bitmap_free (volume.inside found)) (by simp)) ?_ fun _ full both => full both.2
    rintro taken mem₂ ⟨length, marks, outside, within⟩
    -- the new blocks are none of those in use
    obtain ⟨_, fresh, apart⟩ := List.nodup_append.mp marks.distinct
    have mine : ∀ id ∈ node₁.tree.ids, id ∈ owned (nodes.set n node₁) := fun id member =>
      mem_owned.mpr ⟨n, node₁, set_found found node₁, member⟩
    have unique : (node₁.tree.ids ++ taken).Nodup :=
      List.nodup_append.mpr ⟨working.distinct found, fresh, fun id old id' new => apart id (mine id old) id' new⟩
    have small : ∀ id ∈ taken, geo.dataStart ≤ id ∧ id < 2 ^ 32 := fun id new =>
      have area := marks.area id (List.mem_append_right _ new)
      ⟨area.1, area.2.2⟩
    have behind : ∀ id ∈ node₁.tree.ids ++ taken, id ∉ geo.fs.dataBitmap.ids := by
      intro id member
      rcases List.mem_append.mp member with old | new
      · exact (working.area found old).2.2
      · exact marks.behind (List.mem_append_right _ new)
    have free : ∀ id ∈ node₁.tree.ids ++ taken, id ∉ [(geo.place n).blockId] := by
      intro id member
      rcases List.mem_append.mp member with old | new
      · exact working.free found volume id old
      · have areas := geo.areas
        have place := geo.place_spec (volume.inside found)
        have area := small id new
        rw [List.mem_singleton]
        omega
    have links : node₁.tree.Links mem₂ := sound.links.frame outside fun id index =>
      behind id (List.mem_append_left _ (BlockTree.mem_ids.mpr (Or.inr index)))
    refine wp_mono (BlockTree.increaseSize_spec links sound.exact sound.count le limit length unique (fun id new => (small id new).2) free
      (by simp)) ?_ fun _ impossible => impossible.elim
    rintro inode mem₃ ⟨tree, rfl, added, exact, count⟩
    have listed : ∀ id ∈ tree.ids, id ∈ node₁.tree.ids ++ taken := fun id member => added.grows.ids.mem_iff.mp member
    have indexOf : ∀ id ∈ tree.index, id ∈ tree.ids := fun id member => BlockTree.mem_ids.mpr (Or.inr member)
    refine ⟨⟨tree, newSize, node₁.type⟩, taken, rfl, ⟨⟨added.links, exact, count, limit⟩, ?_, ?_⟩, ⟨(Nat.max_eq_right le).symm, rfl, added.grows.data, added.index, added.grows.ids, ?_⟩,
      fun room => within room⟩
    · have perm : (owned (nodes.set n ⟨tree, newSize, node₁.type⟩)).Perm (owned (nodes.set n node₁) ++ taken) := by
        have grown := @owned_grow _ _ ⟨tree, newSize, node₁.type⟩ _ _ (set_found found node₁) added.grows.ids
        rwa [List.set_set] at grown
      apply (marks.perm perm.symm).congr
      exact fun x bitmap => added.outside x fun index => behind _ (listed _ (indexOf _ index)) bitmap
    · -- the blocks touched before, the bitmap and the index blocks
      intro x bitmap place out
      have old : ∀ id ∈ node₁.tree.ids, id ∈ tree.ids := fun id member => added.grows.member.mpr (Or.inl member)
      rw [List.mem_append, not_or] at out
      rw [added.outside x fun index => out.2 (indexOf _ index), outside x bitmap, working.touches x bitmap place]
      rw [List.mem_append, not_or]
      exact ⟨out.1, fun member => out.2 (old _ member)⟩
    · intro i inside
      have apartIndex := (List.nodup_append.mp (added.grows.nodup unique)).2.2
      rw [BlockTree.view_frame added.outside (fun id data index => apartIndex id data id index rfl) inside]
      exact BlockTree.view_frame outside (fun id data => behind id (listed id (BlockTree.mem_ids.mpr (Or.inl data)))) inside
  · refine wp_mono (wp_after fun needed mem₂ => wp_after fun taken mem₃ => increaseSize_limit sound.bound) ?_ fun _ _ both => limit both.1
    exact fun _ _ reached => absurd reached limit

theorem writeAt : wp (node₁.inode.writeAt [(geo.place n).blockId] offset buf) (fun written mem₂ =>
    written = min (offset + buf.length) node₁.size - offset ∧ Working geo nodes n node node₁ mem mem₂ ∧
      BlockTree.Wrote node₁.tree mem₁ mem₂ offset (buf.take written)) (fun _ => ¬(buf ≠ [] ∧ offset + buf.length ≤ node₁.size)) mem₁ := by
  obtain ⟨links, exact, count, bound⟩ := working.sound
  have unique := working.distinct found
  refine wp_mono (BlockTree.writeAt_spec links unique (count ▸ bound) (working.free found volume) (by simp) count) ?_ fun _ fails => fails
  rintro written mem₂ ⟨amount, wrote⟩
  have dataOf : ∀ id ∈ node₁.tree.data, id ∈ node₁.tree.ids := fun id member => BlockTree.mem_ids.mpr (Or.inl member)
  refine ⟨amount, ⟨⟨wrote.links links unique, exact, count, bound⟩, ?_, ?_⟩, wrote⟩
  · exact working.marks.congr fun x bitmap => wrote.outside x fun data => (working.area found (dataOf _ data)).2.2 bitmap
  · intro x bitmap place out
    rw [wrote.outside x fun data => out (List.mem_append_right _ (dataOf _ data)), working.touches x bitmap place out]

end Working

/-! ### Files -/

/-- `node'` is `node` after `buf` has been written at `offset`, with the blocks of `taken` if it has become longer. -/
structure Written (geo : Geometry) (nodes : List Node) (n : Nat) (node node' : Node) (newSize offset : Nat) (buf : List UInt8) (taken : List Nat)
    (mem mem' : Memory) : Prop where
  volume : Volume geo (nodes.set n node') mem'
  touches : Touches geo n (node.tree.ids ++ node'.tree.ids) mem mem'
  size : node'.size = max node.size newSize
  type : node'.type = node.type
  data : node.tree.data <+: node'.tree.data
  index : ∀ id ∈ node.tree.index, id ∈ node'.tree.index
  ids : node'.tree.ids.Perm (node.tree.ids ++ taken)
  view : ∀ i < 512 * node'.tree.data.length, node'.tree.view mem' i = (node'.tree.view mem).store offset buf i
  within : Room geo nodes node newSize → ∀ id ∈ taken, id < geo.total

theorem Working.written {taken : List Nat} {mem₃ : Memory} (volume : Volume geo nodes mem) (found : nodes[n]? = some node)
    (working : Working geo nodes n node node₁ mem mem₂) (extended : Extended node node₁ newSize taken mem mem₁)
    (wrote : BlockTree.Wrote node₁.tree mem₁ mem₂ offset buf) (within : Room geo nodes node newSize → ∀ id ∈ taken, id < geo.total)
    (stored : mem₃ = node₁.inode.store mem₂ (geo.place n).addr) : Written geo nodes n node node₁ newSize offset buf taken mem mem₃ := by
  subst stored
  obtain ⟨after, touches, view⟩ := working.store found volume
  refine ⟨after, touches, extended.size, extended.type, extended.data, extended.index, extended.ids, fun i inside => ?_, within⟩
  rw [view i inside, wrote.view i inside]
  unfold Memory.store
  split
  · rfl
  · exact extended.view i inside

/-- `Inode::read_at` returns what there is of the stretch, unless its end is no address. -/
theorem readAt_spec {len : Nat} (volume : Volume geo nodes mem) (found : nodes[n]? = some node) :
    wp ((geo.place n).readAt offset len) (fun bytes mem' => mem' = mem ∧ bytes = slice (node.contents mem) offset len)
      (fun _ => ¬offset + len < 2 ^ 64) mem := by
  have working := Working.start volume found
  obtain ⟨links, exact, count, bound⟩ := working.sound
  rw [Inode.readAt, readDiskInode_rule volume found]
  by_cases fits : offset + len < 2 ^ 64
  · exact (BlockTree.readAt_spec links (count ▸ bound) (working.free found volume) (by simp) count fits).mpr ⟨rfl, rfl⟩
  · have sum : checkedAdd offset len = none := if_neg fits
    simp only [DiskInode.readAt, sum, Option.elim, wp_bind, wp_lift_error]
    exact fits

/-- `Inode::write_at` writes the bytes, unless there are none, the file becomes too long or the disk is full. -/
theorem writeAt_spec (volume : Volume geo nodes mem) (found : nodes[n]? = some node) :
    wp ((geo.place n).writeAt geo.fs offset buf) (fun written mem' => ∃ node' taken, written = min (offset + buf.length) node'.size - offset ∧
      Written geo nodes n node node' ((offset + buf.length) % 2 ^ 32) offset (buf.take written) taken mem mem')
      (fun _ => ¬(buf ≠ [] ∧ offset + buf.length ≤ maxBlocks * 512 ∧ Room geo nodes node (offset + buf.length))) mem := by
  have start := Working.start volume found
  rw [Inode.writeAt, modifyDiskInode_rule volume found]
  by_cases fits : offset + buf.length < 2 ^ 64
  · have sum : checkedAdd offset buf.length = some (offset + buf.length) := if_pos fits
    simp only [sum, Option.elim, wp_bind, wp_lift_ok, wp_pure]
    have limits : offset + buf.length ≤ maxBlocks * 512 →
        (offset + buf.length) % 2 ^ 32 = offset + buf.length ∧ blocksOf (offset + buf.length) ≤ maxBlocks := by
      unfold blocksOf maxBlocks
      omega
    refine wp_mono (start.increaseSize found volume) ?_ fun _ fails all => fails ?_
    · rintro inode mem₁ ⟨node₁, taken, rfl, working, extended, within⟩
      rw [set_same found] at within
      refine wp_mono (working.writeAt found volume) ?_ fun _ fails all => fails ⟨all.1, ?_⟩
      · rintro written mem₂ ⟨amount, working₂, wrote⟩
        exact ⟨node₁, taken, amount, working₂.written volume found extended wrote within rfl⟩
      · rw [extended.size, (limits all.2.1).1]
        exact Nat.le_max_right _ _
    · rw [(limits all.2.1).1, set_same found]
      exact ⟨(limits all.2.1).2, all.2.2⟩
  · have sum : checkedAdd offset buf.length = none := if_neg fits
    simp only [sum, Option.elim, wp_bind, wp_lift_error]
    unfold maxBlocks
    omega

/-- `Inode::clear` gives the blocks back and clears them. -/
theorem clear_spec (volume : Volume geo nodes mem) (found : nodes[n]? = some node) :
    wp ((geo.place n).clear geo.fs) (fun _ mem' => Volume geo (nodes.set n (.fresh node.type)) mem' ∧ Touches geo n node.tree.ids mem mem' ∧
      ∀ x, x / 512 ∈ node.tree.ids → mem' x = 0) (fun _ => False) mem := by
  have start := Working.start volume found
  obtain ⟨links, exact, count, bound⟩ := start.sound
  have fits : node.size + 512 < 2 ^ 32 := by
    unfold blocksOf maxBlocks at bound
    omega
  have size : node.inode.size = node.size := rfl
  have unique := start.distinct found
  have free := start.free found volume
  have freeIndex : ∀ id ∈ node.tree.index, id ∉ [(geo.place n).blockId] := fun id member => free id (BlockTree.mem_ids.mpr (Or.inr member))
  rw [Inode.clear, modifyDiskInode_rule volume found, wp_bind, size]
  refine wp_mono (BlockTree.clearSize_spec links exact count unique bound freeIndex (by simp)) ?_ fun _ impossible => impossible
  rintro ⟨given, inode⟩ mem₁ ⟨rfl, perm, rfl⟩
  dsimp only at perm
  have length : given.length = totalOf (blocksOf node.size) := by rw [perm.length_eq, (volume.sound n node found).length]
  simp only [wp_bind, BlockTree.totalBlocks_spec fits, if_pos length, wp_pure]
  -- the blocks of the other nodes stay in use
  have empty : (Node.fresh node.type).tree.ids = [] := rfl
  have split : (owned nodes).Perm (given ++ owned (nodes.set n (.fresh node.type))) :=
    (owned_clear found empty).trans (perm.symm.append_right _)
  refine wp_mono (deallocBlocks_spec (volume.marks.perm split) (bitmap_free (volume.inside found))
    (fun id member => free id (perm.mem_iff.mp member)) (by simp)) ?_ fun _ impossible => impossible
  rintro _ mem₂ ⟨marks, zero, outside⟩
  have inode : DiskInode.initialized node.type = (Node.fresh node.type).inode := (BlockTree.empty_inode node.type).symm
  have touches : Touches geo n (node.tree.ids ++ (Node.fresh node.type).tree.ids) mem₁ mem₂ := by
    intro x bitmap _ out
    rw [empty, List.append_nil] at out
    apply outside
    rw [List.mem_append, not_or]
    exact ⟨fun member => out (perm.mem_iff.mp member), bitmap⟩
  have working : Working geo nodes n node (.fresh node.type) mem₁ mem₂ := ⟨Node.fresh_sound _ _, marks, touches⟩
  obtain ⟨after, whole, _⟩ := working.store found volume
  rw [empty, List.append_nil] at whole
  rw [inode]
  refine ⟨after, whole, fun x member => ?_⟩
  have area := geo.areas
  have place := geo.place_spec (volume.inside found)
  rw [DiskInode.store_outside (working.fits found), zero x (perm.mem_iff.mpr member)]
  have block := @Geometry.place_block geo n x
  have data := (volume.area found member).1
  simp only [Geometry.place] at place
  omega

end

end SecureIpc.EasyFs

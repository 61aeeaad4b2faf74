import SecureIpc.EasyFs.Operations

/-!
Blocks that are not in use are zero, and so is what lies behind the end of a file in its last block. A write
then changes the contents of one file as a write to a byte string does, with zeros in the gap it may leave.
-/

namespace SecureIpc.EasyFs
open Lib

structure Clean (geo : Geometry) (nodes : List Node) (mem : Memory) : Prop where
  inside : ∀ id ∈ owned nodes, id < geo.total
  zero : ∀ x, geo.dataStart ≤ x / 512 → x / 512 < geo.total → x / 512 ∉ owned nodes → mem x = 0
  tail : ∀ (n : Nat) (node : Node), nodes[n]? = some node → ∀ i, node.size ≤ i → i < 512 * blocksOf node.size → node.tree.view mem i = 0

section
variable {geo : Geometry} {nodes : List Node} {node node' other : Node} {mem mem' : Memory} {n m newSize offset : Nat} {buf : List UInt8}
  {taken : List Nat}

theorem Node.Sound.within (sound : node.Sound mem) {i : Nat} (inside : i < node.size) : i < 512 * node.tree.data.length := by
  rw [sound.count]
  unfold blocksOf
  omega

theorem contents_kept (volume : Volume geo nodes mem) (found : nodes[n]? = some node) (after : Volume geo (nodes.set n node') mem')
    (touches : Touches geo n (node.tree.ids ++ node'.tree.ids) mem mem') (found' : nodes[m]? = some other) (different : m ≠ n) :
    other.contents mem' = other.contents mem := by
  apply Memory.load_congr
  intro i inside
  rw [Nat.zero_add]
  exact volume.others found found' different after.marks touches ((volume.sound m other found').within inside)

theorem Clean.update (clean : Clean geo nodes mem) (volume : Volume geo nodes mem) (found : nodes[n]? = some node)
    (after : Volume geo (nodes.set n node') mem') (touches : Touches geo n (node.tree.ids ++ node'.tree.ids) mem mem')
    (inside : ∀ id ∈ node'.tree.ids, id < geo.total) (freed : ∀ x, x / 512 ∈ node.tree.ids → x / 512 ∉ node'.tree.ids → mem' x = 0)
    (tail : ∀ i, node'.size ≤ i → i < 512 * blocksOf node'.size → node'.tree.view mem' i = 0) : Clean geo (nodes.set n node') mem' := by
  have areas := geo.areas
  have place := geo.place_spec (volume.inside found)
  have swap := owned_set found node'
  refine ⟨fun id member => ?_, fun x above below free => ?_, fun m other found' i low high => ?_⟩
  · rcases List.mem_append.mp (swap.mem_iff.mp (List.mem_append_left _ member)) with old | new
    · exact clean.inside id old
    · exact inside id new
  · have unused : x / 512 ∉ node'.tree.ids := fun mine => free (mem_owned.mpr ⟨n, node', set_found found node', mine⟩)
    by_cases given : x / 512 ∈ node.tree.ids
    · exact freed x given unused
    · have before : x / 512 ∉ owned nodes := fun old => by
        rcases List.mem_append.mp (swap.mem_iff.mpr (List.mem_append_left _ old)) with now | mine
        · exact free now
        · exact given mine
      rw [touches x, clean.zero x above below before]
      · rw [geo.mem_dataBitmap]
        omega
      · intro mine
        have block := geo.place_block mine
        simp only [Geometry.place] at place
        omega
      · rw [List.mem_append, not_or]
        exact ⟨given, unused⟩
  · by_cases same : m = n
    · subst same
      rw [set_found found node'] at found'
      obtain rfl := Option.some.inj found'
      exact tail i low high
    · rw [List.getElem?_set_ne (Ne.symm same)] at found'
      rw [volume.others found found' same after.marks touches (by rwa [(volume.sound m other found').count])]
      exact clean.tail m other found' i low high

/-! ### Writing -/

namespace Written
variable (written : Written geo nodes n node node' newSize offset buf taken mem mem') (found : nodes[n]? = some node)
include written found

theorem perm : (owned (nodes.set n node')).Perm (owned nodes ++ taken) := owned_grow found written.ids

theorem new_block {j b : Nat} (block : node'.tree.data[j]? = some b) (new : node.tree.data.length ≤ j) : b ∈ taken := by
  have unique : node'.tree.ids.Nodup := written.volume.distinct (set_found found node')
  obtain ⟨dataUnique, _, apart⟩ := List.nodup_append.mp unique
  have member := List.mem_of_getElem? block
  rcases List.mem_append.mp (written.ids.mem_iff.mp (BlockTree.mem_ids.mpr (Or.inl member))) with old | new'
  · rcases BlockTree.mem_ids.mp old with data | index
    · -- an old data block stands at its old place
      obtain ⟨k, bound, at'⟩ := List.getElem_of_mem data
      obtain ⟨rest, whole⟩ := written.data
      have early : node'.tree.data[k]? = some b := by rw [← whole, List.getElem?_append_left bound, List.getElem?_eq_getElem bound, at']
      obtain ⟨bound₁, at₁⟩ := List.getElem?_eq_some_iff.mp early
      obtain ⟨bound₂, at₂⟩ := List.getElem?_eq_some_iff.mp block
      have equal := (List.Nodup.getElem_inj_iff dataUnique).mp (at₁.trans at₂.symm)
      omega
    · exact absurd rfl (apart b member b (written.index b index))
  · exact new'

variable (volume : Volume geo nodes mem)
include volume

/-- Before the write, the bytes behind the old end are zero in all blocks. -/
theorem gap (clean : Clean geo nodes mem) (room : Room geo nodes node newSize) {i : Nat} (behind : node.size ≤ i)
    (inside : i < 512 * node'.tree.data.length) : node'.tree.view mem i = 0 := by
  have count := (volume.sound n node found).count
  by_cases old : i < 512 * node.tree.data.length
  · rw [BlockTree.view_extends written.data old]
    exact clean.tail n node found i behind (by rwa [← count])
  · have bound : i / 512 < node'.tree.data.length := by omega
    have mine := written.new_block found (List.getElem?_eq_getElem bound) (by omega)
    have marked := written.volume.marks.perm (written.perm found)
    have unused : node'.tree.data[i / 512] ∉ owned nodes := fun used => (List.nodup_append.mp marked.distinct).2.2 _ used _ mine rfl
    have area := marked.area _ (List.mem_append_right _ mine)
    rw [BlockTree.view, List.getD_eq_getElem _ _ bound]
    have block : (blockAddr node'.tree.data[i / 512] + i % 512) / 512 = node'.tree.data[i / 512] := by
      unfold blockAddr blockSz
      omega
    apply clean.zero
    · rw [block]
      exact area.1
    · rw [block]
      exact written.within room _ mine
    · rw [block]
      exact unused

/-- The contents are overwritten, where the gap that the write leaves is zero. -/
theorem contents_gap (zero : ∀ i, node.size ≤ i → i < offset → node'.tree.view mem i = 0) (whole : newSize = offset + buf.length) :
    node'.contents mem' = overwrite (node.contents mem) offset buf := by
  have sound := written.volume.sound n node' (set_found found node')
  have old : node.contents mem = (node'.tree.view mem).load 0 node.size := by
    apply Memory.load_congr
    intro i inside
    rw [Nat.zero_add, BlockTree.view_extends written.data ((volume.sound n node found).within inside)]
  rw [old, overwrite_load zero, ← whole, ← written.size]
  apply Memory.load_congr
  intro i inside
  rw [Nat.zero_add]
  exact written.view i (sound.within inside)

theorem contents (clean : Clean geo nodes mem) (room : Room geo nodes node newSize) (whole : newSize = offset + buf.length) :
    node'.contents mem' = overwrite (node.contents mem) offset buf := by
  have sound := written.volume.sound n node' (set_found found node')
  have size := written.size
  apply written.contents_gap found volume (fun i behind before => ?_) whole
  exact written.gap found volume clean room behind (sound.within (by omega))

theorem clean (clean : Clean geo nodes mem) (room : Room geo nodes node newSize) (whole : newSize = offset + buf.length) :
    Clean geo (nodes.set n node') mem' := by
  have sound := written.volume.sound n node' (set_found found node')
  have size := written.size
  apply clean.update volume found written.volume written.touches
  · intro id member
    rcases List.mem_append.mp (written.ids.mem_iff.mp member) with old | new
    · exact clean.inside id (mem_owned.mpr ⟨n, node, found, old⟩)
    · exact written.within room id new
  · intro x old unused
    exact absurd (written.ids.mem_iff.mpr (List.mem_append_left _ old)) unused
  · intro i behind inside
    rw [← sound.count] at inside
    rw [written.view i inside, Memory.store_outside (by omega)]
    exact written.gap found volume clean room (by omega) inside

end Written

theorem Clean.cleared (clean : Clean geo nodes mem) (volume : Volume geo nodes mem) (found : nodes[n]? = some node)
    (after : Volume geo (nodes.set n (.fresh node.type)) mem') (touches : Touches geo n node.tree.ids mem mem')
    (zero : ∀ x, x / 512 ∈ node.tree.ids → mem' x = 0) : Clean geo (nodes.set n (.fresh node.type)) mem' := by
  refine clean.update volume found after (touches.mono fun id member => List.mem_append_left _ member) ?_ (fun x member _ => zero x member) ?_
  · simp [Node.fresh, BlockTree.empty, BlockTree.ids, BlockTree.index]
  · intro i _ inside
    simp [Node.fresh, blocksOf] at inside

end

end SecureIpc.EasyFs

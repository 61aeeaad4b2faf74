import SecureIpc.EasyFs.Contents
import SecureIpc.EasyFs.Geometry

/-!
The disk as a whole: what it holds for each inode, that the blocks of the inodes are apart and are those that
the bitmap records, and what it takes to replace one inode by another.
-/

namespace SecureIpc.EasyFs
open Lib

structure Node where
  tree : BlockTree
  size : Nat
  type : DiskInodeType
  deriving DecidableEq, Repr

namespace Node

def inode (node : Node) : DiskInode := node.tree.inode node.size node.type

def contents (node : Node) (mem : Memory) : List UInt8 := (node.tree.view mem).load 0 node.size

def fresh (type : DiskInodeType) : Node := ⟨.empty, 0, type⟩

structure Sound (node : Node) (mem : Memory) : Prop where
  links : node.tree.Links mem
  exact : node.tree.Exact
  count : node.tree.data.length = blocksOf node.size
  bound : blocksOf node.size ≤ maxBlocks

end Node

def owned (nodes : List Node) : List Nat := nodes.flatMap fun node => node.tree.ids

/-- The disk holds the nodes, and no other block is marked as used. -/
structure Volume (geo : Geometry) (nodes : List Node) (mem : Memory) : Prop where
  superBlock : SuperBlock.load mem = formattedSuper geo.total geo.ib
  few : nodes.length ≤ geo.ib * 4096
  inodeBit : ∀ n < geo.ib * 4096, geo.fs.inodeBitmap.bit mem n = decide (n < nodes.length)
  stored : ∀ (n : Nat) (node : Node), nodes[n]? = some node → DiskInode.load mem (geo.place n).addr = node.inode
  sound : ∀ (n : Nat) (node : Node), nodes[n]? = some node → node.Sound mem
  marks : Marks geo (owned nodes) mem

/-- The disks differ only in the data bitmap, in inode `n` and in the given blocks. -/
def Touches (geo : Geometry) (n : Nat) (ids : List Nat) (mem mem' : Memory) : Prop :=
  ∀ x, x / 512 ∉ geo.fs.dataBitmap.ids → ¬((geo.place n).addr ≤ x ∧ x < (geo.place n).addr + 125) → x / 512 ∉ ids → mem' x = mem x

section
variable {geo : Geometry} {nodes : List Node} {node node' other : Node} {mem mem' mem'' : Memory} {n m id : Nat} {ids ids' : List Nat}

theorem Touches.refl (geo : Geometry) (n : Nat) (ids : List Nat) (mem : Memory) : Touches geo n ids mem mem := fun _ _ _ _ => rfl

theorem Touches.trans (first : Touches geo n ids mem mem') (second : Touches geo n ids mem' mem'') : Touches geo n ids mem mem'' :=
  fun x bitmap inode block => (second x bitmap inode block).trans (first x bitmap inode block)

theorem Touches.mono (touches : Touches geo n ids mem mem') (subset : ∀ id ∈ ids, id ∈ ids') : Touches geo n ids' mem mem' :=
  fun x bitmap inode block => touches x bitmap inode fun member => block (subset _ member)

theorem Touches.outside (touches : Touches geo n ids mem mem') :
    Outside (geo.fs.dataBitmap.ids ++ (1 + geo.ib + n / 4) :: ids) mem mem' := by
  intro x out
  rw [List.mem_append, List.mem_cons, not_or, not_or] at out
  exact touches x out.1 (fun mine => out.2.1 (geo.place_block mine)) out.2.2

theorem store_touches {inode : DiskInode} (fits : inode.Fits) : Touches geo n ids mem (inode.store mem (geo.place n).addr) := by
  intro x _ inode _
  apply DiskInode.store_outside fits
  omega

/-! ### The blocks of the nodes -/

theorem mem_owned : id ∈ owned nodes ↔ ∃ (n : Nat) (node : Node), nodes[n]? = some node ∧ id ∈ node.tree.ids := by
  rw [owned, List.mem_flatMap]
  constructor
  · rintro ⟨node, member, mine⟩
    obtain ⟨n, found⟩ := List.getElem?_of_mem member
    exact ⟨n, node, found, mine⟩
  · rintro ⟨n, node, found, mine⟩
    exact ⟨node, List.mem_of_getElem? found, mine⟩

theorem set_found (found : nodes[n]? = some node) (node' : Node) : (nodes.set n node')[n]? = some node' :=
  List.getElem?_set_self (List.getElem?_eq_some_iff.mp found).1

theorem set_same (found : nodes[n]? = some node) : nodes.set n node = nodes := by
  obtain ⟨bound, rfl⟩ := List.getElem?_eq_some_iff.mp found
  exact List.set_getElem_self bound

theorem owned_set (found : nodes[n]? = some node) (node' : Node) :
    (owned (nodes.set n node') ++ node.tree.ids).Perm (owned nodes ++ node'.tree.ids) := by
  induction nodes generalizing n with
  | nil => cases found
  | cons first rest ih =>
    apply List.perm_iff_count.mpr
    intro id
    cases n with
    | zero =>
      obtain rfl : first = node := Option.some.inj found
      simp only [owned, List.set_cons_zero, List.flatMap_cons, List.count_append]
      omega
    | succ n =>
      have later := List.perm_iff_count.mp (@ih n found) id
      simp only [owned, List.set_cons_succ, List.flatMap_cons, List.count_append] at later ⊢
      omega

theorem owned_grow {taken : List Nat} (found : nodes[n]? = some node) (grows : node'.tree.ids.Perm (node.tree.ids ++ taken)) :
    (owned (nodes.set n node')).Perm (owned nodes ++ taken) := by
  apply List.perm_iff_count.mpr
  intro id
  have swap := List.perm_iff_count.mp (owned_set found node') id
  have more := List.perm_iff_count.mp grows id
  simp only [List.count_append] at swap more ⊢
  omega

theorem owned_clear (found : nodes[n]? = some node) (empty : node'.tree.ids = []) :
    (owned nodes).Perm (node.tree.ids ++ owned (nodes.set n node')) := by
  have swap := owned_set found node'
  rw [empty, List.append_nil] at swap
  exact swap.symm.trans List.perm_append_comm

theorem owned_apart (distinct : (owned nodes).Nodup) (found : nodes[n]? = some node) (found' : nodes[m]? = some other) (different : n ≠ m)
    (mine : id ∈ node.tree.ids) : id ∉ other.tree.ids := by
  intro theirs
  have disjoint := (List.nodup_flatMap.mp distinct).2
  obtain ⟨bound, at'⟩ := List.getElem?_eq_some_iff.mp found
  obtain ⟨bound', at''⟩ := List.getElem?_eq_some_iff.mp found'
  rw [List.pairwise_iff_getElem] at disjoint
  rcases Nat.lt_or_gt_of_ne different with before | after
  · have apart : nodes[n].tree.ids.Disjoint nodes[m].tree.ids := disjoint n m bound bound' before
    rw [at', at''] at apart
    exact apart mine theirs
  · have apart : nodes[m].tree.ids.Disjoint nodes[n].tree.ids := disjoint m n bound' bound after
    rw [at', at''] at apart
    exact apart theirs mine

namespace Volume

theorem distinct (volume : Volume geo nodes mem) (found : nodes[n]? = some node) : node.tree.ids.Nodup :=
  (List.nodup_flatMap.mp volume.marks.distinct).1 node (List.mem_of_getElem? found)

theorem inside (volume : Volume geo nodes mem) (found : nodes[n]? = some node) : n < geo.ib * 4096 :=
  Nat.lt_of_lt_of_le (List.getElem?_eq_some_iff.mp found).1 volume.few

theorem area (volume : Volume geo nodes mem) (found : nodes[n]? = some node) (mine : id ∈ node.tree.ids) : geo.dataStart ≤ id ∧ id < 2 ^ 32 := by
  have area := volume.marks.area id (mem_owned.mpr ⟨n, node, found, mine⟩)
  exact ⟨area.1, area.2.2⟩

theorem load_eq (volume : Volume geo nodes mem) (found : nodes[n]? = some node) : DiskInode.load mem (geo.place n).addr = node.inode :=
  volume.stored n node found

end Volume

theorem Node.Sound.length (sound : node.Sound mem) : node.tree.ids.length = totalOf (blocksOf node.size) := by
  rw [sound.exact.length, sound.count]

theorem Volume.owned_length (volume : Volume geo nodes mem) : (owned nodes).length = (nodes.map fun node => totalOf (blocksOf node.size)).sum := by
  rw [owned, List.length_flatMap]
  congr 1
  apply List.map_congr_left
  intro node member
  obtain ⟨n, found⟩ := List.getElem?_of_mem member
  exact (volume.sound n node found).length

theorem Node.fits (small : ∀ id ∈ node.tree.ids, id < 2 ^ 32) (bound : blocksOf node.size ≤ maxBlocks) : node.inode.Fits := by
  have zero : ∀ (list : Option Nat), (∀ id, list = some id → id < 2 ^ 32) → list.getD 0 < 2 ^ 32 := by
    intro list member
    cases list with
    | none => simp
    | some id => exact member id rfl
  refine ⟨?_, ?_, ?_, ?_, ?_⟩
  · unfold blocksOf maxBlocks at bound
    simp only [Node.inode, BlockTree.inode]
    omega
  · simp [Node.inode, BlockTree.inode, inodeDirectCount]
  · intro id member
    obtain ⟨j, _, rfl⟩ := List.mem_map.mp member
    rw [List.getD]
    apply zero
    intro id found
    exact small id (BlockTree.mem_ids.mpr (Or.inl (List.mem_of_getElem? found)))
  · exact zero _ fun id found => small id (BlockTree.mem_ids.mpr (Or.inr (BlockTree.mem_index.mpr (Or.inl found))))
  · exact zero _ fun id found => small id (BlockTree.mem_ids.mpr (Or.inr (BlockTree.mem_index.mpr (Or.inr (Or.inl found)))))

theorem Node.fresh_sound (type : DiskInodeType) (mem : Memory) : (Node.fresh type).Sound mem :=
  ⟨BlockTree.empty_links mem, BlockTree.empty_exact, by simp [Node.fresh, BlockTree.empty, blocksOf], by simp [Node.fresh, blocksOf, maxBlocks]⟩

/-! ### Replacing a node -/

/-- Blocks that an operation on one node does not touch: those of the other nodes. -/
theorem Volume.apart (volume : Volume geo nodes mem) (found : nodes[n]? = some node) (found' : nodes[m]? = some other) (different : m ≠ n)
    (after : Marks geo (owned (nodes.set n node')) mem') (mine : id ∈ other.tree.ids) :
    id ∉ geo.fs.dataBitmap.ids ++ (1 + geo.ib + n / 4) :: (node.tree.ids ++ node'.tree.ids) := by
  have areas := geo.areas
  have place := geo.place_spec (volume.inside found)
  have area := volume.area found' mine
  have listed := mem_owned.mpr ⟨m, other, found', mine⟩
  have kept : (nodes.set n node')[m]? = some other := by rw [List.getElem?_set_ne (Ne.symm different), found']
  have replaced := set_found found node'
  simp only [List.mem_append, List.mem_cons, not_or]
  refine ⟨volume.marks.behind listed, ?_, ?_, ?_⟩
  · simp only [Geometry.place] at place
    omega
  · exact owned_apart volume.marks.distinct found' found different mine
  · exact owned_apart after.distinct kept replaced different mine

theorem Volume.others (volume : Volume geo nodes mem) (found : nodes[n]? = some node) (found' : nodes[m]? = some other) (different : m ≠ n)
    (after : Marks geo (owned (nodes.set n node')) mem') (touches : Touches geo n (node.tree.ids ++ node'.tree.ids) mem mem') {i : Nat}
    (here : i < 512 * other.tree.data.length) : other.tree.view mem' i = other.tree.view mem i :=
  BlockTree.view_frame touches.outside (fun _ mine => volume.apart found found' different after (BlockTree.mem_ids.mpr (Or.inl mine))) here

theorem Volume.update (volume : Volume geo nodes mem) (found : nodes[n]? = some node) (sound : node'.Sound mem')
    (stored : DiskInode.load mem' (geo.place n).addr = node'.inode) (after : Marks geo (owned (nodes.set n node')) mem')
    (touches : Touches geo n (node.tree.ids ++ node'.tree.ids) mem mem') : Volume geo (nodes.set n node') mem' := by
  have areas := geo.areas
  have place := geo.place_spec (volume.inside found)
  have replaced := set_found found node'
  -- what lies before the data area is touched in the bitmap and in the inode only
  have before : ∀ x, x / 512 < geo.bitmapStart → ¬((geo.place n).addr ≤ x ∧ x < (geo.place n).addr + 125) → mem' x = mem x := by
    intro x low inode
    refine touches x (fun bitmap => ?_) inode fun member => ?_
    · rw [geo.mem_dataBitmap] at bitmap
      omega
    · have area : geo.dataStart ≤ x / 512 := by
        rcases List.mem_append.mp member with mine | mine
        · exact (volume.area found mine).1
        · exact (after.area _ (mem_owned.mpr ⟨n, node', replaced, mine⟩)).1
      omega
  have length : (nodes.set n node').length = nodes.length := List.length_set
  refine ⟨?_, ?_, ?_, ?_, ?_, after⟩
  · rw [← volume.superBlock]
    apply SuperBlock.load_congr
    intro x low
    apply before x (by omega)
    intro mine
    have block := geo.place_block mine
    omega
  · rw [length]
    exact volume.few
  · intro k inside
    rw [length, ← volume.inodeBit k inside]
    apply Bitmap.bit_congr (by rwa [geo.inodeMaximum_eq])
    intro x bitmap
    rw [geo.mem_inodeBitmap] at bitmap
    apply before x (by omega)
    intro mine
    have block := geo.place_block mine
    omega
  · intro m other found'
    by_cases same : m = n
    · subst same
      rw [replaced] at found'
      rw [← Option.some.inj found']
      exact stored
    · rw [List.getElem?_set_ne (Ne.symm same)] at found'
      rw [← volume.stored m other found']
      apply DiskInode.load_congr
      intro i low
      have block := @Geometry.place_block geo m ((geo.place m).addr + i) ⟨Nat.le_add_right _ _, Nat.add_lt_add_left low _⟩
      have slot := geo.place_spec (volume.inside found')
      apply before
      · simp only [Geometry.place] at slot
        omega
      · intro mine
        have apart := geo.place_apart (Ne.symm same) mine
        omega
  · intro m other found'
    by_cases same : m = n
    · subst same
      rw [replaced] at found'
      rw [← Option.some.inj found']
      exact sound
    · rw [List.getElem?_set_ne (Ne.symm same)] at found'
      obtain ⟨links, exact, count, bound⟩ := volume.sound m other found'
      refine ⟨links.frame touches.outside fun id mine => ?_, exact, count, bound⟩
      exact volume.apart found found' same after (BlockTree.mem_ids.mpr (Or.inr mine))

end

/-! ### The largest file -/

section
variable {mem : Memory} {held blocks : List Nat} {inode : DiskInode} {d count at' upto current total : Nat}

/-- Where errors do not matter, a part of a program can be passed over. -/
theorem wp_after {α β : Type} {p : FsM β} {f : β → FsM α} {Q : α → Memory → Prop} (next : ∀ b mem', wp (f b) Q (fun _ => True) mem') :
    wp (p >>= f) Q (fun _ => True) mem :=
  wp_bind.mpr (wp_intro (fun b mem' _ => next b mem') fun _ _ => trivial)

/-- Each round needs an entry of the double indirect block. -/
theorem fillIndirect2_limit (there : at' + count = upto) :
    wp (DiskInode.fillIndirect2 held d (upto / 128) (upto % 128) count (at' / 128) (at' % 128) blocks)
      (fun _ _ => at' < upto → upto ≤ 128 * 128) (fun _ => True) mem := by
  induction count generalizing at' blocks mem with
  | zero => exact fun less => by omega
  | succ count ih =>
    have inside : at' / 128 < upto / 128 ∨ at' / 128 = upto / 128 ∧ at' % 128 < upto % 128 := by omega
    unfold DiskInode.fillIndirect2
    rw [if_pos inside]
    refine wp_after fun rest mem₁ => ?_
    by_cases entry : at' / 128 < inodeIndirect1Count
    · have row : at' / 128 < 128 := entry
      refine wp_after fun indirect1 mem₂ => wp_after fun _ mem₃ => wp_after fun next mem₄ => ?_
      obtain ⟨block, rest⟩ := next
      refine wp_after fun _ mem₅ => ?_
      rw [BlockTree.round_position]
      refine wp_mono (ih (by omega)) (fun _ _ later _ => ?_) fun _ _ => trivial
      by_cases last : at' + 1 = upto
      · omega
      · exact later (by omega)
    · rw [DiskInode.readEntry, if_neg entry]
      exact trivial

theorem increaseIndirect2_limit : wp (inode.increaseIndirect2 held (128 + current) (128 + total) blocks)
    (fun _ _ => current < total → total ≤ 128 * 128) (fun _ => True) mem := by
  unfold DiskInode.increaseIndirect2
  refine wp_after fun next mem₁ => ?_
  obtain ⟨self, rest⟩ := next
  have width : inodeIndirect1Count = 128 := rfl
  simp only [width, wp_bind, wp_sub32 (Nat.le_add_right 128 _), Nat.add_sub_cancel_left, wp_pure]
  refine wp_intro (fun held' mem₂ _ => ?_) fun _ _ => trivial
  by_cases less : current < total
  · exact wp_mono (fillIndirect2_limit (by omega)) (fun _ _ limit _ => limit less) fun _ _ => trivial
  · exact wp_intro (fun _ _ _ less' => absurd less' less) fun _ _ => trivial

/-- A size that the three levels cannot hold is never reached. -/
theorem increaseSize_limit {newSize : Nat} (bound : blocksOf inode.size ≤ maxBlocks) : wp (inode.increaseSize held newSize blocks)
    (fun _ _ => blocksOf newSize ≤ maxBlocks) (fun _ => True) mem := by
  have direct : inodeDirectCount = 28 := rfl
  have width : inodeIndirect1Count = 128 := rfl
  by_cases fits : blocksOf newSize ≤ maxBlocks
  · exact wp_intro (fun _ _ _ => fits) fun _ _ => trivial
  by_cases small : newSize + 512 < 2 ^ 32
  · have limit : maxBlocks = 28 + (128 + 128 * 128) := rfl
    have size : inode.size + 512 < 2 ^ 32 := by
      unfold blocksOf maxBlocks at bound
      omega
    simp only [DiskInode.increaseSize, DiskInode.dataBlocks, wp_bind, BlockTree.dataBlocksOf_spec size, BlockTree.dataBlocksOf_spec small]
    refine wp_intro (fun next mem₁ _ => ?_) fun _ _ => trivial
    obtain ⟨self, rest⟩ := next
    dsimp only
    rw [if_neg (by omega), DiskInode.increaseIndirect1]
    refine wp_after fun next mem₂ => ?_
    obtain ⟨self, rest⟩ := next
    simp only [direct, width, wp_bind]
    rw [wp_sub32 (by omega), wp_sub32 (by omega)]
    refine wp_intro (fun _ mem₃ _ => wp_intro (fun rest mem₄ _ => ?_) fun _ _ => trivial) fun _ _ => trivial
    rw [if_neg (by omega)]
    obtain ⟨from', start⟩ : ∃ k, max (max (blocksOf inode.size) (min (blocksOf newSize) 28) - 28) (min (blocksOf newSize - 28) 128) = 128 + k :=
      ⟨_, (Nat.add_sub_cancel' (by omega)).symm⟩
    obtain ⟨upto, stop⟩ : ∃ k, blocksOf newSize - 28 = 128 + k := ⟨_, (Nat.add_sub_cancel' (by omega)).symm⟩
    rw [start, stop]
    refine wp_mono increaseIndirect2_limit (fun _ _ limit => ?_) fun _ _ => trivial
    have less := limit (by omega)
    omega
  · have size : wp (inode.increaseSize held newSize blocks) (fun _ _ => False) (fun _ => True) mem := by
      unfold DiskInode.increaseSize
      refine wp_after fun current mem₁ => wp_bind.mpr ?_
      rw [DiskInode.dataBlocks, DiskInode.dataBlocksOf, wp_bind]
      exact wp_add32_cases (fun less => absurd less small) fun _ => trivial
    exact wp_mono size (fun _ _ impossible => impossible.elim) fun _ _ => trivial

end

end SecureIpc.EasyFs

import SecureIpc.EasyFs.Release

/-! The blocks of an inode over every sequence of growing sizes. -/

namespace SecureIpc.Guarantees
open Lib EasyFs

/-- The index blocks of an inode with `n` data blocks, as the disk holds them. -/
def indexBlocks (mem : Memory) (inode : DiskInode) (n : Nat) : List Nat :=
  (if 28 < n then [inode.indirect1] else []) ++
    if 156 < n then inode.indirect2 :: (List.range ((n - 156 + 127) / 128)).map (indirectEntry mem inode.indirect2) else []

def increaseAll (held : List Nat) (inode : DiskInode) : List (Nat × List Nat) → FsM DiskInode
  | [] => return inode
  | (newSize, newBlocks) :: rest => do increaseAll held (← inode.increaseSize held newSize newBlocks) rest

def supplied (calls : List (Nat × List Nat)) : List Nat := calls.flatMap Prod.snd

/-- The sizes do not decrease and stay within the largest file, and each call comes with as many blocks as
`blocks_num_needed` says. -/
def Sufficient : Nat → List (Nat × List Nat) → Prop
  | _, [] => True
  | size, (newSize, newBlocks) :: rest =>
    (size ≤ newSize ∧ newSize ≤ (28 + 128 + 128 * 128) * 512 ∧
      ∀ (inode : DiskInode) (mem : Memory), inode.size = size → inode.blocksNumNeeded newSize mem = .ok (newBlocks.length, mem)) ∧
    Sufficient newSize rest

/-- `get_block_id` finds the blocks `data`; with the index blocks they are the blocks of `given`, each once. -/
structure Indexed (held : List Nat) (inode : DiskInode) (mem : Memory) (data given : List Nat) : Prop where
  count : inode.dataBlocks mem = .ok (data.length, mem)
  found : ∀ j b, data[j]? = some b → inode.getBlockId held j mem = .ok (b, mem)
  distinct : (data ++ indexBlocks mem inode data.length).Nodup
  all : (data ++ indexBlocks mem inode data.length).Perm given

section
variable {held given : List Nat} {mem : Memory} {tree : BlockTree} {size : Nat} {type : DiskInodeType}

theorem index_eq (links : tree.Links mem) (exact : tree.Exact) : indexBlocks mem (tree.inode size type) tree.data.length = tree.index := by
  have single : tree.single.toList = if 28 < tree.data.length then [(tree.inode size type).indirect1] else [] := by
    have present := exact.single
    cases found : tree.single with
    | none => simpa [found] using present
    | some s => simpa [found, BlockTree.inode] using present
  have double : tree.double.toList ++ tree.subs = if 156 < tree.data.length then (tree.inode size type).indirect2 ::
      (List.range ((tree.data.length - 156 + 127) / 128)).map (indirectEntry mem (tree.inode size type).indirect2) else [] := by
    have present := exact.double
    have count := exact.subs
    cases found : tree.double with
    | none =>
      have few : ¬156 < tree.data.length := by simpa [found] using present
      rw [if_neg few]
      have none : tree.subs = [] := List.eq_nil_of_length_eq_zero (by omega)
      simp [none]
    | some d =>
      have many : 156 < tree.data.length := by simpa [found] using present
      have block : (tree.inode size type).indirect2 = d := by simp [BlockTree.inode, found]
      have subs : DiskInode.entries mem d tree.subs.length = tree.subs := by
        refine (BlockTree.entries_eq tree.subs 0 fun a inside => ?_).trans (by simp)
        obtain ⟨_, d', found', entry⟩ := links.sub a _ (List.getElem?_eq_getElem inside)
        rw [Nat.zero_add, List.getElem?_eq_getElem inside, ← entry, Option.some.inj (found.symm.trans found')]
      rw [if_pos many, block, ← count]
      exact congrArg (d :: ·) subs.symm
  rw [indexBlocks, ← single, ← double, BlockTree.index, List.append_assoc]

structure HasBlocks (held given : List Nat) (mem : Memory) (size : Nat) (tree : BlockTree) : Prop where
  links : tree.Links mem
  exact : tree.Exact
  count : tree.data.length = blocksOf size
  bound : blocksOf size ≤ maxBlocks
  all : tree.ids.Perm given
  distinct : tree.ids.Nodup
  free : ∀ id ∈ tree.ids, id ∉ held

theorem HasBlocks.small (has : HasBlocks held given mem size tree) : size + 512 < 2 ^ 32 := by
  have bound := has.bound
  unfold blocksOf maxBlocks at bound
  omega

theorem HasBlocks.getBlockId {j b : Nat} (has : HasBlocks held given mem size tree) (few : held.length < 14) (found : tree.data[j]? = some b) :
    (tree.inode size type).getBlockId held j mem = .ok (b, mem) := by
  have indexFree : ∀ id ∈ tree.index, id ∉ held := fun id member => has.free id (BlockTree.mem_ids.mpr (Or.inr member))
  have spec : wp ((tree.inode size type).getBlockId held j) (fun b' mem' => b' = b ∧ mem' = mem) (fun _ => False) mem :=
    (has.links.getBlockId found indexFree (by omega)).mpr ⟨rfl, rfl⟩
  obtain ⟨b', mem', run, rfl, rfl⟩ := wp_returns spec
  exact run

theorem HasBlocks.indexed (has : HasBlocks held given mem size tree) (few : held.length < 14) :
    Indexed held (tree.inode size type) mem tree.data given := by
  have spec : wp (tree.inode size type).dataBlocks (fun n mem' => n = tree.data.length ∧ mem' = mem) (fun _ => False) mem := by
    rw [DiskInode.dataBlocks, show (tree.inode size type).size = size from rfl, BlockTree.dataBlocksOf_spec has.small]
    exact ⟨has.count.symm, rfl⟩
  obtain ⟨n, mem', run, rfl, rfl⟩ := wp_returns spec
  refine ⟨run, fun j b found => has.getBlockId few found, ?_, ?_⟩
  · rw [index_eq has.links has.exact]
    exact has.distinct
  · rw [index_eq has.links has.exact]
    exact has.all

theorem blocksNumNeeded_run {inode : DiskInode} {newSize : Nat} (le : inode.size ≤ newSize) (fits : newSize + 512 < 2 ^ 32) (mem : Memory) :
    inode.blocksNumNeeded newSize mem = .ok (totalOf (blocksOf newSize) - totalOf (blocksOf inode.size), mem) := by
  have spec : wp (inode.blocksNumNeeded newSize) (fun n mem' => n = totalOf (blocksOf newSize) - totalOf (blocksOf inode.size) ∧ mem' = mem)
      (fun _ => False) mem := (BlockTree.blocksNumNeeded_spec le fits).mpr ⟨rfl, rfl⟩
  obtain ⟨n, mem', run, rfl, rfl⟩ := wp_returns spec
  exact run

/-- One call. -/
theorem HasBlocks.increase {newSize : Nat} {newBlocks : List Nat} (has : HasBlocks held given mem size tree) (few : held.length < 14)
    (le : size ≤ newSize) (bound : newSize ≤ (28 + 128 + 128 * 128) * 512)
    (needed : (tree.inode size type).blocksNumNeeded newSize mem = .ok (newBlocks.length, mem)) (distinct : (given ++ newBlocks).Nodup)
    (small : ∀ id ∈ newBlocks, id < 2 ^ 32) (free : ∀ id ∈ newBlocks, id ∉ held) :
    ∃ tree' mem', (tree.inode size type).increaseSize held newSize newBlocks mem = .ok (tree'.inode newSize type, mem') ∧
      HasBlocks held (given ++ newBlocks) mem' newSize tree' ∧ tree.data <+: tree'.data := by
  have limit : blocksOf newSize ≤ maxBlocks := by
    unfold blocksOf maxBlocks
    omega
  have fits : newSize + 512 < 2 ^ 32 := by omega
  have count : newBlocks.length = totalOf (blocksOf newSize) - totalOf (blocksOf size) := by
    have needs := @blocksNumNeeded_run (tree.inode size type) newSize le fits mem
    rw [needed] at needs
    exact (Prod.mk.inj (Except.ok.inj needs)).1
  have perm : (tree.ids ++ newBlocks).Perm (given ++ newBlocks) := has.all.append_right newBlocks
  have held' : ∀ id ∈ tree.ids ++ newBlocks, id ∉ held := fun id member => by
    rcases List.mem_append.mp member with old | new
    · exact has.free id old
    · exact free id new
  obtain ⟨inode', mem', run, tree', rfl, added, exact', data⟩ := wp_returns (BlockTree.increaseSize_spec has.links has.exact has.count le limit
    count (perm.nodup_iff.mpr distinct) small held' few)
  refine ⟨tree', mem', run, ⟨added.links, exact', data, limit, added.grows.ids.trans perm, ?_, ?_⟩, added.grows.data⟩
  · exact added.grows.nodup (perm.nodup_iff.mpr distinct)
  · exact fun id member => held' id (added.grows.ids.mem_iff.mp member)

/-- All calls. -/
theorem HasBlocks.increaseAll {calls : List (Nat × List Nat)} (has : HasBlocks held given mem size tree) (few : held.length < 14)
    (enough : Sufficient size calls) (distinct : (given ++ supplied calls).Nodup) (small : ∀ id ∈ supplied calls, id < 2 ^ 32)
    (free : ∀ id ∈ supplied calls, id ∉ held) :
    ∃ size' tree' mem', Guarantees.increaseAll held (tree.inode size type) calls mem = .ok (tree'.inode size' type, mem') ∧
      HasBlocks held (given ++ supplied calls) mem' size' tree' ∧ tree.data <+: tree'.data ∧
      ∀ later, Sufficient size (calls ++ later) → Sufficient size' later := by
  induction calls generalizing given mem size tree with
  | nil =>
    refine ⟨size, tree, mem, rfl, ?_, List.prefix_rfl, fun _ rest => rest⟩
    rwa [supplied, List.flatMap_nil, List.append_nil]
  | cons call rest ih =>
    obtain ⟨newSize, newBlocks⟩ := call
    obtain ⟨⟨le, bound, needed⟩, enough'⟩ := enough
    have split : supplied ((newSize, newBlocks) :: rest) = newBlocks ++ supplied rest := rfl
    rw [split] at distinct small free
    rw [← List.append_assoc] at distinct
    obtain ⟨tree₁, mem₁, run, has₁, pre₁⟩ := has.increase few le bound (needed _ mem rfl) (List.nodup_append.mp distinct).1
      (fun id member => small id (List.mem_append_left _ member)) fun id member => free id (List.mem_append_left _ member)
    obtain ⟨size', tree', mem', runs, has', pre', keeps⟩ := ih has₁ enough' distinct (fun id member => small id (List.mem_append_right _ member))
      fun id member => free id (List.mem_append_right _ member)
    refine ⟨size', tree', mem', ?_, ?_, pre₁.trans pre', fun later enough => keeps later enough.2⟩
    · rw [Guarantees.increaseAll, run_bind run]
      exact runs
    · rwa [split, ← List.append_assoc]

theorem HasBlocks.clear (has : HasBlocks held given mem size tree) (few : held.length < 14) :
    ∃ blocks, (tree.inode size type).clearSize held mem = .ok ((blocks, .initialized type), mem) ∧ blocks.Perm given ∧
      DiskInode.totalBlocks size mem = .ok (blocks.length, mem) := by
  have indexFree : ∀ id ∈ tree.index, id ∉ held := fun id member => has.free id (BlockTree.mem_ids.mpr (Or.inr member))
  obtain ⟨⟨blocks, inode⟩, mem', run, rfl, perm, rfl⟩ := wp_returns (@BlockTree.clearSize_spec tree mem size type held has.links has.exact
    has.count has.distinct has.bound indexFree few)
  have length : blocks.length = totalOf (blocksOf size) := by
    rw [perm.length_eq, has.exact.length, has.count]
  have spec : wp (DiskInode.totalBlocks size) (fun n mem'' => n = blocks.length ∧ mem'' = mem') (fun _ => False) mem' :=
    (BlockTree.totalBlocks_spec has.small).mpr ⟨length.symm, rfl⟩
  obtain ⟨n, mem'', total, rfl, rfl⟩ := wp_returns spec
  exact ⟨blocks, run, perm.trans has.all, total⟩

theorem sufficient_first {first later : List (Nat × List Nat)} (enough : Sufficient size (first ++ later)) : Sufficient size first := by
  induction first generalizing size with
  | nil => trivial
  | cons call rest ih => exact ⟨enough.1, ih enough.2⟩

theorem hasBlocks_start (held : List Nat) (mem : Memory) : HasBlocks held [] mem 0 .empty :=
  ⟨BlockTree.empty_links mem, BlockTree.empty_exact, rfl, by decide, List.Perm.refl _, List.nodup_nil, nofun⟩

end

/-- From an empty inode, calls of `increase_size` with growing sizes and fresh blocks return, and use every block they are
given; the blocks found by `get_block_id` are distinct, apart from the index blocks, and stay through later calls; and
`clear_size` then returns all the blocks and leaves an empty inode. The blocks `held` are locked meanwhile. -/
theorem blocks_indexed_and_returned (type : DiskInodeType) (held : List Nat) (few : held.length < 14) (first later : List (Nat × List Nat))
    (enough : Sufficient 0 (first ++ later)) (distinct : (supplied (first ++ later)).Nodup)
    (fresh : ∀ id ∈ supplied (first ++ later), id < 2 ^ 32 ∧ id ∉ held) (mem : Memory) :
    ∃ inode mem' data inode' mem'' data', increaseAll held (.initialized type) first mem = .ok (inode, mem') ∧
      Indexed held inode mem' data (supplied first) ∧ increaseAll held inode later mem' = .ok (inode', mem'') ∧
      Indexed held inode' mem'' data' (supplied (first ++ later)) ∧ data <+: data' ∧
      ∃ blocks, inode'.clearSize held mem'' = .ok ((blocks, .initialized type), mem'') ∧ blocks.Perm (supplied (first ++ later)) ∧
        DiskInode.totalBlocks inode'.size mem'' = .ok (blocks.length, mem'') := by
  have joined : supplied (first ++ later) = supplied first ++ supplied later := List.flatMap_append
  rw [joined] at distinct fresh ⊢
  have start := hasBlocks_start held mem
  obtain ⟨size', tree', mem', run, has', _, keeps⟩ := start.increaseAll few (sufficient_first enough) (List.nodup_append.mp distinct).1
    (fun id member => (fresh id (List.mem_append_left _ member)).1) fun id member => (fresh id (List.mem_append_left _ member)).2
  obtain ⟨size'', tree'', mem'', run', has'', pre, _⟩ := has'.increaseAll few (keeps later enough) distinct
    (fun id member => (fresh id (List.mem_append_right _ member)).1) fun id member => (fresh id (List.mem_append_right _ member)).2
  rw [BlockTree.empty_inode] at run
  obtain ⟨blocks, clear, perm, total⟩ := has''.clear few
  exact ⟨_, mem', tree'.data, _, mem'', tree''.data, run, has'.indexed few, run', has''.indexed few, pre, blocks, clear, perm, total⟩

/-- A file that fills the direct blocks and grows into the second level of the index, beside the block of its inode. -/
theorem blocks_indexed_and_returned_large : ∃ inode mem' data inode' mem'' data',
    increaseAll [2] (.initialized .file) [(14000, List.range' 100 28)] (fun _ => 0) = .ok (inode, mem') ∧
    Indexed [2] inode mem' data (List.range' 100 28) ∧ increaseAll [2] inode [(81000, List.range' 200 134)] mem' = .ok (inode', mem'') ∧
    Indexed [2] inode' mem'' data' (List.range' 100 28 ++ List.range' 200 134) ∧ data <+: data' ∧
    ∃ blocks, inode'.clearSize [2] mem'' = .ok ((blocks, .initialized .file), mem'') ∧ blocks.Perm (List.range' 100 28 ++ List.range' 200 134) := by
  have enough : Sufficient 0 ([(14000, List.range' 100 28)] ++ [(81000, List.range' 200 134)]) := by
    refine ⟨⟨by decide, by decide, ?_⟩, ⟨by decide, by decide, ?_⟩, trivial⟩
    · intro inode mem empty
      have needs := blocksNumNeeded_run (show inode.size ≤ 14000 by omega) (by decide) mem
      rw [List.length_range']
      rwa [empty, show totalOf (blocksOf 14000) - totalOf (blocksOf 0) = 28 by decide] at needs
    · intro inode mem full
      have needs := blocksNumNeeded_run (show inode.size ≤ 81000 by omega) (by decide) mem
      rw [List.length_range']
      rwa [full, show totalOf (blocksOf 81000) - totalOf (blocksOf 14000) = 134 by decide] at needs
  obtain ⟨inode, mem', data, inode', mem'', data', run, indexed, run', indexed', pre, blocks, clear, perm, _⟩ :=
    blocks_indexed_and_returned .file [2] (by decide) [(14000, List.range' 100 28)] [(81000, List.range' 200 134)] enough (by decide +kernel)
      (by decide +kernel) fun _ => 0
  exact ⟨inode, mem', data, inode', mem'', data', run, indexed, run', indexed', pre, blocks, clear, perm⟩

end SecureIpc.Guarantees

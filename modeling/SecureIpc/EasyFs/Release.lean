import SecureIpc.EasyFs.Growth

/-! `clear_size` gives back every block of a file. -/

namespace SecureIpc.EasyFs
open Lib

namespace BlockTree

section
variable {tree : BlockTree} {mem : Memory} {size : Nat} {type : DiskInodeType} {held : List Nat}

theorem entries_eq (list : List Nat) (offset : Nat) {id count : Nat} (found : ∀ i < count, list[offset + i]? = some (indirectEntry mem id i)) :
    DiskInode.entries mem id count = (list.drop offset).take count := by
  apply List.ext_getElem?
  intro i
  rw [DiskInode.entries, List.getElem?_map, List.getElem?_take]
  by_cases inside : i < count
  · rw [if_pos inside, List.getElem?_drop, found i inside, List.getElem?_range inside]
    rfl
  · rw [if_neg inside, List.getElem?_eq_none (by simpa using inside)]
    rfl

theorem direct_take : (tree.inode size type).direct.take (min tree.data.length 28) = tree.data.take 28 := by
  apply List.ext_getElem?
  intro j
  rw [List.getElem?_take, List.getElem?_take]
  by_cases direct : j < 28
  · by_cases inside : j < tree.data.length
    · rw [if_pos (by omega), if_pos direct]
      simp [inode, inodeDirectCount, direct, inside]
    · rw [if_neg (by omega), if_pos direct, List.getElem?_eq_none (by omega)]
  · rw [if_neg (by omega), if_neg direct]

theorem direct_cleared : List.replicate (min tree.data.length 28) 0 ++ (tree.inode size type).direct.drop (min tree.data.length 28) =
    List.replicate 28 0 := by
  apply List.ext_getElem?
  intro j
  rw [List.getElem?_append, List.length_replicate]
  by_cases used : j < min tree.data.length 28
  · rw [if_pos used, List.getElem?_replicate, List.getElem?_replicate, if_pos used, if_pos (by omega)]
  · rw [if_neg used, List.getElem?_drop, List.getElem?_replicate]
    by_cases direct : j < 28
    · have none : tree.data[j]? = none := List.getElem?_eq_none (by omega)
      have index : min tree.data.length 28 + (j - min tree.data.length 28) = j := by omega
      rw [if_pos direct, index]
      simp [inode, inodeDirectCount, direct, none]
    · rw [if_neg direct]
      apply List.getElem?_eq_none
      simp [inode, inodeDirectCount]
      omega

theorem collectFull_spec {subs below : List Nat}
    (full : ∀ i s, subs[i]? = some s → DiskInode.entries mem s 128 = (below.drop (128 * i)).take 128)
    (free : ∀ s ∈ subs, s ∉ held) (few : held.length < 15) :
    wp (DiskInode.collectFull held subs) (fun v mem' => mem' = mem ∧ v.Perm (subs ++ below.take (128 * subs.length)))
      (fun _ => False) mem := by
  induction subs generalizing below with
  | nil => exact ⟨rfl, by simp⟩
  | cons s rest ih =>
    have width : inodeIndirect1Count = 128 := rfl
    have first : DiskInode.entries mem s 128 = below.take 128 := full 0 s rfl
    have later := @ih (below.drop 128) (fun i s' found => by
      have next := full (i + 1) s' found
      rw [List.drop_drop, show 128 + 128 * i = 128 * (i + 1) by omega]
      exact next) fun s' member => free s' (List.mem_cons_of_mem s member)
    simp only [DiskInode.collectFull, wp_bind, wp_lockBlock (free s List.mem_cons_self) few, wp_read, wp_pure, width, first]
    refine wp_mono later ?_ fun _ impossible => impossible
    rintro v mem' ⟨same, perm⟩
    refine ⟨same, ?_⟩
    have stretch : below.take (128 * (s :: rest).length) = below.take 128 ++ (below.drop 128).take (128 * rest.length) := by
      rw [List.length_cons, show 128 * (rest.length + 1) = 128 + 128 * rest.length by omega, List.take_add]
    rw [stretch]
    apply List.perm_iff_count.mpr
    intro id
    have count := List.perm_iff_count.mp perm id
    simp only [List.count_append, List.count_cons] at count ⊢
    omega

theorem Links.below {a s i j b : Nat} (links : tree.Links mem) (sub : tree.subs[a]? = some s) (found : tree.data[j]? = some b)
    (low : 156 ≤ j) (row : (j - 156) / 128 = a) (column : (j - 156) % 128 = i) : indirectEntry mem s i = b := by
  obtain ⟨s', sub', entry⟩ := links.second j b low found
  rw [row, sub] at sub'
  rwa [column, ← Option.some.inj sub'] at entry

theorem collectIndirect2_spec {d count : Nat} (links : tree.Links mem) (exact : tree.Exact) (double : tree.double = some d)
    (unique : tree.index.Nodup) (length : tree.data.length = 156 + count) (bound : count ≤ 128 * 128)
    (free : ∀ id ∈ tree.index, id ∉ held) (few : held.length < 14) :
    wp (DiskInode.collectIndirect2 held d count) (fun v mem' => mem' = mem ∧ v.Perm (tree.subs ++ tree.data.drop 156))
      (fun _ => False) mem := by
  have width : inodeIndirect1Count = 128 := rfl
  have room : ¬inodeIndirect2Count < count := Nat.not_lt.mpr bound
  have subs : tree.subs.length = (count + 127) / 128 := by
    rw [exact.subs, length, Nat.add_sub_cancel_left]
  have member : ∀ s ∈ tree.subs, s ∈ tree.index := fun s inside => mem_index.mpr (Or.inr (Or.inr inside))
  have locked : ∀ s ∈ tree.subs, s ∉ d :: held := by
    intro s inside
    refine List.not_mem_cons_of_ne_of_not_mem ?_ (free s (member s inside))
    rintro rfl
    exact (index_unique unique).2.2.1 s double inside
  -- the entries of the double indirect block are the blocks below it
  have rows : DiskInode.entries mem d (count / 128) = tree.subs.take (count / 128) := by
    refine (entries_eq tree.subs 0 fun a inside => ?_).trans (by rw [List.drop_zero])
    have below : a < tree.subs.length := by omega
    obtain ⟨_, d', double', entry⟩ := links.sub a _ (List.getElem?_eq_getElem below)
    rw [Nat.zero_add, List.getElem?_eq_getElem below, ← entry, Option.some.inj (double.symm.trans double')]
  have full : ∀ i s, (tree.subs.take (count / 128))[i]? = some s →
      DiskInode.entries mem s 128 = ((tree.data.drop 156).drop (128 * i)).take 128 := by
    intro i s found
    have inside : i < count / 128 := by
      have bound := (List.getElem?_eq_some_iff.mp found).1
      rw [List.length_take] at bound
      omega
    rw [List.getElem?_take, if_pos inside] at found
    rw [List.drop_drop]
    exact entries_eq tree.data (156 + 128 * i) fun k low => by
      have below : 156 + 128 * i + k < tree.data.length := by omega
      rw [List.getElem?_eq_getElem below, links.below found (List.getElem?_eq_getElem below) (by omega) (by omega) (by omega)]
  rw [DiskInode.collectIndirect2, if_neg room]
  simp only [width, wp_bind, wp_lockBlock (free d (mem_index.mpr (Or.inr (Or.inl double)))) (show held.length < 15 by omega), wp_read, rows]
  refine wp_mono (collectFull_spec full (fun s inside => locked s (List.mem_of_mem_take inside)) (by simp; omega)) ?_ fun _ impossible => impossible
  rintro v mem' ⟨rfl, perm⟩
  by_cases partly : 0 < count % 128
  · have below : count / 128 < tree.subs.length := by omega
    have found := List.getElem?_eq_getElem below
    obtain ⟨inside, d', double', entry⟩ := links.sub _ _ found
    obtain rfl : d = d' := Option.some.inj (double.symm.trans double')
    have outer : count / 128 < inodeIndirect1Count := inside
    have last : DiskInode.entries mem' tree.subs[count / 128] (count % 128) = tree.data.drop (156 + 128 * (count / 128)) := by
      refine (entries_eq tree.data (156 + 128 * (count / 128)) fun k low => ?_).trans (List.take_of_length_le ?_)
      · have here : 156 + 128 * (count / 128) + k < tree.data.length := by omega
        rw [List.getElem?_eq_getElem here, links.below found (List.getElem?_eq_getElem here) (by omega) (by omega) (by omega)]
      · rw [List.length_drop]
        omega
    have subs' : tree.subs.take (count / 128) ++ [tree.subs[count / 128]] = tree.subs := by
      rw [List.take_append_getElem, List.take_of_length_le (by omega)]
    have data : (tree.data.drop 156).take (128 * (tree.subs.take (count / 128)).length) ++ tree.data.drop (156 + 128 * (count / 128)) =
        tree.data.drop 156 := by
      rw [List.length_take_of_le (Nat.le_of_lt below), ← List.drop_drop, List.take_append_drop]
    simp only [if_pos partly, DiskInode.readEntry, if_pos outer, wp_bind, wp_read, entry,
      wp_lockBlock (locked _ (List.getElem_mem below)) (show (d :: held).length < 15 by simp; omega), last, wp_pure, true_and]
    apply List.perm_iff_count.mpr
    intro id
    have counted := List.perm_iff_count.mp perm id
    have inSubs := congrArg (List.count id) subs'
    have inData := congrArg (List.count id) data
    simp only [List.count_append, List.count_cons, List.count_nil] at counted inSubs inData ⊢
    omega
  · rw [if_neg partly]
    have all : tree.subs.take (count / 128) = tree.subs := List.take_of_length_le (by omega)
    have data : (tree.data.drop 156).take (128 * tree.subs.length) = tree.data.drop 156 := by
      apply List.take_of_length_le
      rw [List.length_drop]
      omega
    rw [all, data] at perm
    exact ⟨rfl, perm⟩

/-- All blocks come back, and the inode is as new. -/
theorem clearSize_spec (links : tree.Links mem) (exact : tree.Exact) (here : tree.data.length = blocksOf size) (unique : tree.ids.Nodup)
    (bound : blocksOf size ≤ maxBlocks) (free : ∀ id ∈ tree.index, id ∉ held) (few : held.length < 14) :
    wp ((tree.inode size type).clearSize held) (fun result mem' => mem' = mem ∧ result.1.Perm tree.ids ∧ result.2 = .initialized type)
      (fun _ => False) mem := by
  have limit : maxBlocks = 156 + 128 * 128 := rfl
  have direct : inodeDirectCount = 28 := rfl
  have fits : size + 512 < 2 ^ 32 := by
    unfold blocksOf at bound
    omega
  have first : (tree.inode size type).size = size := rfl
  simp only [DiskInode.clearSize, DiskInode.dataBlocks, wp_bind, first, direct, dataBlocksOf_spec fits, ← here, direct_take, direct_cleared]
  have noSingle : tree.data.length ≤ 28 → tree.single = none := fun few => by
    rw [← Option.not_isSome_iff_eq_none, exact.single]
    omega
  have noDouble : tree.data.length ≤ 156 → tree.double = none ∧ tree.subs = [] := fun few => by
    rw [← Option.not_isSome_iff_eq_none, exact.double, List.eq_nil_iff_length_eq_zero, exact.subs]
    omega
  by_cases onlyDirect : tree.data.length ≤ 28
  · obtain ⟨double, subs⟩ := noDouble (by omega)
    rw [if_pos onlyDirect]
    refine ⟨rfl, ?_, ?_⟩
    · simp [ids, index, noSingle onlyDirect, double, subs, List.take_of_length_le onlyDirect]
    · simp [inode, DiskInode.initialized, inodeDirectCount, noSingle onlyDirect, double]
  · obtain ⟨s, single⟩ := Option.isSome_iff_exists.mp (exact.single.mpr (by omega))
    have block : (tree.inode size type).indirect1 = s := by simp [inode, single]
    have entries : DiskInode.entries mem s (min (tree.data.length - 28) 128) = (tree.data.drop 28).take 128 := by
      refine (entries_eq tree.data 28 fun i low => ?_).trans ?_
      · have below : 28 + i < tree.data.length := by omega
        obtain ⟨s', single', entry⟩ := links.first (28 + i) _ (by omega) (by omega) (List.getElem?_eq_getElem below)
        rw [Nat.add_sub_cancel_left, ← Option.some.inj (single.symm.trans single')] at entry
        rw [List.getElem?_eq_getElem below, entry]
      · rw [List.take_eq_take_iff, List.length_drop]
        omega
    have width : inodeIndirect1Count = 128 := rfl
    simp only [if_neg onlyDirect, block, width, wp_bind, wp_lockBlock (free s (mem_index.mpr (Or.inl single))) (show held.length < 15 by omega),
      wp_read, entries]
    by_cases onlySingle : tree.data.length - 28 ≤ 128
    · obtain ⟨double, subs⟩ := noDouble (by omega)
      rw [if_pos onlySingle]
      refine ⟨rfl, ?_, ?_⟩
      · have stretch : tree.data.take 28 ++ (tree.data.drop 28).take 128 = tree.data := by
          rw [List.take_of_length_le (i := 128) (by rw [List.length_drop]; exact onlySingle), List.take_append_drop]
        apply List.perm_iff_count.mpr
        intro id
        have inData := congrArg (List.count id) stretch
        simp only [ids, index, single, double, subs, Option.toList_some, Option.toList_none, List.count_append, List.count_nil] at inData ⊢
        omega
      · simp [inode, DiskInode.initialized, inodeDirectCount, double]
    · obtain ⟨d, double⟩ := Option.isSome_iff_exists.mp (exact.double.mpr (by omega))
      have block' : (tree.inode size type).indirect2 = d := by simp [inode, double]
      rw [if_neg onlySingle]
      generalize counted : tree.data.length - 28 - 128 = count
      simp only [block', wp_bind, wp_pure]
      refine wp_mono (collectIndirect2_spec links exact double (index_nodup unique) (by omega) (by omega) free few) ?_ fun _ impossible => impossible
      rintro v mem' ⟨same, perm⟩
      refine ⟨same, ?_, ?_⟩
      · have stretch : tree.data.take 28 ++ (tree.data.drop 28).take 128 ++ tree.data.drop 156 = tree.data := by
          have rest : tree.data.drop 156 = (tree.data.drop 28).drop 128 := by rw [List.drop_drop]
          rw [rest, List.append_assoc, List.take_append_drop, List.take_append_drop]
        apply List.perm_iff_count.mpr
        intro id
        have inData := congrArg (List.count id) stretch
        have below := List.perm_iff_count.mp perm id
        simp only [ids, index, single, double, Option.toList_some, List.count_append] at inData below ⊢
        omega
      · simp [inode, DiskInode.initialized, inodeDirectCount]

end

end BlockTree

end SecureIpc.EasyFs

import SecureIpc.EasyFs.Codec

/-!
The blocks of a file: its data blocks in order, the single indirect block, the double indirect block and the
indirect blocks below it.
-/

namespace SecureIpc.EasyFs
open Lib

structure BlockTree where
  data : List Nat
  single : Option Nat
  double : Option Nat
  subs : List Nat
  deriving DecidableEq, Repr

section
variable {mem mem' : Memory} {id id' i i' value : Nat}

/-! ### Entries of indirect blocks -/

theorem indirectEntry_set_same (small : value < 2 ^ 32) : indirectEntry (setIndirectEntry mem id i value) id i = value :=
  Memory.readNat_writeNat_same small

theorem indirectEntry_set_other (inside : i < 128) (inside' : i' < 128) (other : id' ≠ id ∨ i' ≠ i) :
    indirectEntry (setIndirectEntry mem id i value) id' i' = indirectEntry mem id' i' := by
  apply Memory.readNat_writeNat_other
  unfold blockAddr blockSz
  omega

theorem Outside.indirectEntry {ids : List Nat} (outside : Outside ids mem mem') (other : id ∉ ids) (inside : i < 128) :
    indirectEntry mem' id i = indirectEntry mem id i :=
  outside.readNat other (by omega)

theorem setIndirectEntry_outside (inside : i < 128) : Outside [id] mem (setIndirectEntry mem id i value) :=
  writeNat_outsideBlock (by omega)

theorem snoc_getElem? {α : Type} {list : List α} {last a : α} {j : Nat} :
    (list ++ [last])[j]? = some a ↔ list[j]? = some a ∨ j = list.length ∧ last = a := by
  rcases Nat.lt_trichotomy j list.length with below | rfl | above
  · rw [List.getElem?_append_left below]
    simp only [Nat.ne_of_lt below, false_and, or_false]
  · simp
  · have outside : list[j]? = none := List.getElem?_eq_none (Nat.le_of_lt above)
    have outside' : (list ++ [last])[j]? = none := List.getElem?_eq_none (by
      rw [List.length_append]
      exact above)
    simp [outside, outside', Nat.ne_of_gt above]

end

namespace BlockTree

def empty : BlockTree := ⟨[], none, none, []⟩

def index (tree : BlockTree) : List Nat := tree.single.toList ++ tree.double.toList ++ tree.subs

def ids (tree : BlockTree) : List Nat := tree.data ++ tree.index

/-- The inode of a file with these blocks; what it does not use is zero. -/
def inode (tree : BlockTree) (size : Nat) (type : DiskInodeType) : DiskInode where
  size := size
  direct := (List.range inodeDirectCount).map (tree.data.getD · 0)
  indirect1 := tree.single.getD 0
  indirect2 := tree.double.getD 0
  type := type

def push (tree : BlockTree) (blocks : List Nat) : BlockTree := { tree with data := tree.data ++ blocks }

/-- The index blocks hold the blocks of the file. -/
structure Links (tree : BlockTree) (mem : Memory) : Prop where
  first : ∀ j b, 28 ≤ j → j < 156 → tree.data[j]? = some b → ∃ s, tree.single = some s ∧ indirectEntry mem s (j - 28) = b
  sub : ∀ a s, tree.subs[a]? = some s → a < 128 ∧ ∃ d, tree.double = some d ∧ indirectEntry mem d a = s
  second : ∀ j b, 156 ≤ j → tree.data[j]? = some b →
    ∃ s, tree.subs[(j - 156) / 128]? = some s ∧ indirectEntry mem s ((j - 156) % 128) = b

section
variable {tree : BlockTree} {mem mem' : Memory} {b s d : Nat}

theorem mem_index {id : Nat} : id ∈ tree.index ↔ tree.single = some id ∨ tree.double = some id ∨ id ∈ tree.subs := by
  simp [index]

theorem mem_ids {id : Nat} : id ∈ tree.ids ↔ id ∈ tree.data ∨ id ∈ tree.index := List.mem_append

theorem index_unique (unique : tree.index.Nodup) : (∀ s d, tree.single = some s → tree.double = some d → s ≠ d) ∧
    (∀ s, tree.single = some s → s ∉ tree.subs) ∧ (∀ d, tree.double = some d → d ∉ tree.subs) ∧ tree.subs.Nodup := by
  obtain ⟨above, distinct, apart⟩ := List.nodup_append.mp unique
  obtain ⟨_, _, different⟩ := List.nodup_append.mp above
  refine ⟨fun s d single double => different s (by simp [single]) d (by simp [double]), fun s single member => ?_,
    fun d double member => ?_, distinct⟩
  · exact apart s (by simp [single]) s member rfl
  · exact apart d (by simp [double]) d member rfl

theorem empty_inode (type : DiskInodeType) : empty.inode 0 type = .initialized type := by
  simp [inode, empty, DiskInode.initialized, inodeDirectCount]

theorem empty_links (mem : Memory) : empty.Links mem := ⟨by simp [empty], by simp [empty], by simp [empty]⟩

theorem Links.congr (links : tree.Links mem) (same : ∀ id ∈ tree.index, ∀ i < 128, indirectEntry mem' id i = indirectEntry mem id i) :
    tree.Links mem' := by
  constructor
  · intro j b low high found
    obtain ⟨s, single, entry⟩ := links.first j b low high found
    exact ⟨s, single, (same s (mem_index.mpr (Or.inl single)) _ (by omega)).trans entry⟩
  · intro a s found
    obtain ⟨inside, d, double, entry⟩ := links.sub a s found
    exact ⟨inside, d, double, (same d (mem_index.mpr (Or.inr (Or.inl double))) _ inside).trans entry⟩
  · intro j b low found
    obtain ⟨s, sub, entry⟩ := links.second j b low found
    have member : s ∈ tree.subs := List.mem_of_getElem? sub
    exact ⟨s, sub, (same s (mem_index.mpr (Or.inr (Or.inr member))) _ (Nat.mod_lt _ (by decide))).trans entry⟩

theorem Links.frame {ids : List Nat} (links : tree.Links mem) (outside : Outside ids mem mem') (apart : ∀ id ∈ tree.index, id ∉ ids) :
    tree.Links mem' :=
  links.congr fun _ member _ inside => outside.indirectEntry (apart _ member) inside

theorem Links.getBlockId {size j : Nat} {type : DiskInodeType} {held : List Nat} {Q : Nat → Memory → Prop} {E : FsFault → Prop}
    (links : tree.Links mem) (found : tree.data[j]? = some b) (free : ∀ id ∈ tree.index, id ∉ held) (few : held.length < 15) :
    wp ((tree.inode size type).getBlockId held j) Q E mem ↔ Q b mem := by
  unfold DiskInode.getBlockId
  by_cases direct : j < inodeDirectCount
  · have block : (tree.inode size type).direct.getD j 0 = b := by
      simp [inode, List.getD, direct, found]
    rw [if_pos direct, block]
    exact Iff.rfl
  · have low : 28 ≤ j := Nat.not_lt.mp direct
    rw [if_neg direct]
    by_cases first : j < indirect1Bound
    · obtain ⟨s, single, entry⟩ := links.first j b low first found
      have block : (tree.inode size type).indirect1 = s := by simp [inode, single]
      have inside : j - inodeDirectCount < inodeIndirect1Count := by
        unfold indirect1Bound at first
        omega
      simp only [if_pos first, block, wp_bind, wp_lockBlock (free s (mem_index.mpr (Or.inl single))) few, DiskInode.readEntry, if_pos inside,
        wp_read]
      rw [show j - inodeDirectCount = j - 28 from rfl, entry]
    · have high : 156 ≤ j := Nat.not_lt.mp first
      obtain ⟨s, sub, entry⟩ := links.second j b high found
      obtain ⟨inside, d, double, below⟩ := links.sub _ s sub
      have block : (tree.inode size type).indirect2 = d := by simp [inode, double]
      have member := mem_index.mpr (Or.inr (Or.inr (List.mem_of_getElem? sub)))
      have outer : (j - indirect1Bound) / inodeIndirect1Count < inodeIndirect1Count := inside
      have inner : (j - indirect1Bound) % inodeIndirect1Count < inodeIndirect1Count := Nat.mod_lt _ (by decide)
      have below' : indirectEntry mem d ((j - indirect1Bound) / inodeIndirect1Count) = s := below
      have entry' : indirectEntry mem s ((j - indirect1Bound) % inodeIndirect1Count) = b := entry
      simp only [if_neg first, block, wp_bind, wp_lockBlock (free d (mem_index.mpr (Or.inr (Or.inl double)))) few, DiskInode.readEntry,
        if_pos outer, if_pos inner, wp_read, below', wp_lockBlock (free s member) few, entry']

/-! ### Adding one block -/

theorem Links.pushDirect (links : tree.Links mem) {blocks : List Nat} (room : tree.data.length + blocks.length ≤ 28) :
    (tree.push blocks).Links mem := by
  have short : ∀ j b, (tree.push blocks).data[j]? = some b → j < 28 := by
    intro j b found
    obtain ⟨inside, _⟩ := List.getElem?_eq_some_iff.mp found
    rw [push, List.length_append] at inside
    omega
  constructor
  · intro j b low _ found
    have := short j b found
    omega
  · exact links.sub
  · intro j b low found
    have := short j b found
    omega

theorem Links.takeSingle (links : tree.Links mem) (none : tree.single = none) (b : Nat) : { tree with single := some b }.Links mem := by
  refine ⟨?_, links.sub, links.second⟩
  intro j b' low high found
  obtain ⟨s, single, _⟩ := links.first j b' low high found
  rw [none] at single
  cases single

theorem Links.takeDouble (links : tree.Links mem) (none : tree.double = none) (b : Nat) : { tree with double := some b }.Links mem := by
  refine ⟨links.first, ?_, links.second⟩
  intro a s found
  obtain ⟨_, d, double, _⟩ := links.sub a s found
  rw [none] at double
  cases double

theorem Links.pushFirst (links : tree.Links mem) (single : tree.single = some s) (low : 28 ≤ tree.data.length)
    (high : tree.data.length < 156) (unique : tree.index.Nodup) (small : b < 2 ^ 32) :
    (tree.push [b]).Links (setIndirectEntry mem s (tree.data.length - 28) b) := by
  obtain ⟨different, alone, _⟩ := index_unique unique
  have apart : ∀ id, tree.double = some id ∨ id ∈ tree.subs → id ≠ s := by
    rintro id (double | sub) rfl
    · exact different id id single double rfl
    · exact alone id single sub
  constructor
  · intro j b' from28 to156 found
    refine ⟨s, single, ?_⟩
    rcases snoc_getElem?.mp found with old | ⟨rfl, rfl⟩
    · obtain ⟨s', single', entry⟩ := links.first j b' from28 to156 old
      obtain rfl : s = s' := Option.some.inj (single.symm.trans single')
      have inside := (List.getElem?_eq_some_iff.mp old).1
      rw [indirectEntry_set_other (by omega) (by omega) (Or.inr (by omega)), entry]
    · exact indirectEntry_set_same small
  · intro a s' found
    obtain ⟨inside, d, double, entry⟩ := links.sub a s' found
    refine ⟨inside, d, double, ?_⟩
    rw [indirectEntry_set_other (by omega) inside (Or.inl (apart d (Or.inl double))), entry]
  · intro j b' from156 found
    rcases snoc_getElem?.mp found with old | ⟨rfl, rfl⟩
    · obtain ⟨s', sub, entry⟩ := links.second j b' from156 old
      refine ⟨s', sub, ?_⟩
      rw [indirectEntry_set_other (by omega) (Nat.mod_lt _ (by decide)) (Or.inl (apart s' (Or.inr (List.mem_of_getElem? sub)))), entry]
    · omega

theorem Links.takeSub (links : tree.Links mem) (double : tree.double = some d) (room : tree.subs.length < 128)
    (unique : tree.index.Nodup) (small : b < 2 ^ 32) :
    { tree with subs := tree.subs ++ [b] }.Links (setIndirectEntry mem d tree.subs.length b) := by
  obtain ⟨different, _, alone, _⟩ := index_unique unique
  have apart : ∀ id, tree.single = some id ∨ id ∈ tree.subs → id ≠ d := by
    rintro id (single | sub) rfl
    · exact different id id single double rfl
    · exact alone id double sub
  constructor
  · intro j b' low high found
    obtain ⟨s, single, entry⟩ := links.first j b' low high found
    refine ⟨s, single, ?_⟩
    rw [indirectEntry_set_other room (by omega) (Or.inl (apart s (Or.inl single))), entry]
  · intro a s found
    rcases snoc_getElem?.mp found with old | ⟨rfl, rfl⟩
    · obtain ⟨inside, d', double', entry⟩ := links.sub a s old
      obtain rfl : d = d' := Option.some.inj (double.symm.trans double')
      have before := (List.getElem?_eq_some_iff.mp old).1
      refine ⟨inside, d, double, ?_⟩
      rw [indirectEntry_set_other room inside (Or.inr (by omega)), entry]
    · exact ⟨room, d, double, indirectEntry_set_same small⟩
  · intro j b' low found
    obtain ⟨s, sub, entry⟩ := links.second j b' low found
    refine ⟨s, snoc_getElem?.mpr (Or.inl sub), ?_⟩
    rw [indirectEntry_set_other room (Nat.mod_lt _ (by decide)) (Or.inl (apart s (Or.inr (List.mem_of_getElem? sub)))), entry]

theorem Links.pushSecond (links : tree.Links mem) (low : 156 ≤ tree.data.length)
    (sub : tree.subs[(tree.data.length - 156) / 128]? = some s) (unique : tree.index.Nodup) (small : b < 2 ^ 32) :
    (tree.push [b]).Links (setIndirectEntry mem s ((tree.data.length - 156) % 128) b) := by
  have member := List.mem_of_getElem? sub
  have slot : (tree.data.length - 156) % 128 < 128 := Nat.mod_lt _ (by decide)
  obtain ⟨_, alone, alone', distinct⟩ := index_unique unique
  have apart : ∀ id, tree.single = some id ∨ tree.double = some id → id ≠ s := by
    rintro id (single | double) rfl
    · exact alone id single member
    · exact alone' id double member
  constructor
  · intro j b' from28 to156 found
    rcases snoc_getElem?.mp found with old | ⟨rfl, rfl⟩
    · obtain ⟨s', single, entry⟩ := links.first j b' from28 to156 old
      refine ⟨s', single, ?_⟩
      rw [indirectEntry_set_other slot (by omega) (Or.inl (apart s' (Or.inl single))), entry]
    · omega
  · intro a s' found
    obtain ⟨inside, d, double, entry⟩ := links.sub a s' found
    refine ⟨inside, d, double, ?_⟩
    rw [indirectEntry_set_other slot inside (Or.inl (apart d (Or.inr double))), entry]
  · intro j b' from156 found
    rcases snoc_getElem?.mp found with old | ⟨rfl, rfl⟩
    · obtain ⟨s', sub', entry⟩ := links.second j b' from156 old
      refine ⟨s', sub', ?_⟩
      have before := (List.getElem?_eq_some_iff.mp old).1
      rw [indirectEntry_set_other slot (Nat.mod_lt _ (by decide)), entry]
      -- the same block only for the same hundred and twenty-eight entries
      by_cases same : s' = s
      · obtain ⟨inside, at₁⟩ := List.getElem?_eq_some_iff.mp sub
        obtain ⟨inside', at₂⟩ := List.getElem?_eq_some_iff.mp sub'
        have equal := (List.Nodup.getElem_inj_iff distinct).mp (at₂.trans (same.trans at₁.symm))
        right
        omega
      · exact Or.inl same
    · exact ⟨s, sub, indirectEntry_set_same small⟩

end

end BlockTree

end SecureIpc.EasyFs

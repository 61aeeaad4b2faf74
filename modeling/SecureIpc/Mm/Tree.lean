import SecureIpc.Mm.Frames
import SecureIpc.Mm.UserRange

/-!
Page tables as trees. Every node has one path of indexes from the root, so writing an entry of a
node changes the translation of exactly the pages below that entry. `map` and `unmap` therefore act
on the function from pages to level-3 entries as updates at one page.
-/

namespace SecureIpc
open Lib

/-! ### Entries -/

namespace PageTableEntry

theorem new_bits {ppn flags : Nat} (small : flags < 256) : (new ppn flags).bits = ppn * 1024 + flags := by
  have shifted := Nat.shiftLeft_add_eq_or_of_lt (show flags < 2 ^ 10 by omega) ppn
  rw [new, ← shifted, Nat.shiftLeft_eq]

theorem ppn_new {ppn flags : Nat} (low : ppn < 2 ^ 44) (small : flags < 256) : (new ppn flags).ppn = ppn := by
  unfold PageTableEntry.ppn PhysPageNum.ofUsize
  rw [new_bits small]
  omega

theorem flags_new {ppn flags : Nat} (small : flags < 256) : (new ppn flags).flags = flags := by
  unfold PageTableEntry.flags
  rw [new_bits small]
  omega

theorem new_fits {ppn flags : Nat} (low : ppn < 2 ^ 44) (small : flags < 256) : (new ppn flags).bits % 2 ^ 64 = (new ppn flags).bits := by
  rw [new_bits small]
  omega

theorem empty_invalid : empty.isValid = false := by decide

end PageTableEntry

section
variable {mem mem' : PhysMem} {n m i j value : Nat}

theorem pteAddr_eq (n i : Nat) : pteAddr n i = n * 4096 + 8 * i := rfl

theorem readPte_congr (same : ∀ x, x / 4096 = n → mem' x = mem x) (small : i < 512) :
    readPte mem' n i = readPte mem n i := by
  have word : mem'.readWord (pteAddr n i) = mem.readWord (pteAddr n i) :=
    Memory.readWord_congr fun k bound => same _ (by rw [pteAddr_eq]; omega)
  rw [readPte, readPte, word]

theorem readPte_zero (zero : ∀ x, x / 4096 = n → mem x = 0) (small : i < 512) : readPte mem n i = .empty := by
  have same : readPte mem n i = readPte (fun _ => 0) n i := readPte_congr zero small
  have blank : Memory.readWord (fun _ => 0) (pteAddr n i) = 0 := by
    simp [Memory.readWord, Memory.load, List.range_succ, ofBytes]
  rw [same, readPte, blank, PageTableEntry.empty]

theorem readPte_write_same : readPte (mem.writeWord (pteAddr n i) value) n i = ⟨value % 2 ^ 64⟩ := by
  rw [readPte, Memory.readWord_writeWord_same]

theorem readPte_write_other (small : i < 512) (small' : j < 512) (other : ¬ (m = n ∧ j = i)) :
    readPte (mem.writeWord (pteAddr n i) value) m j = readPte mem m j := by
  have apart : pteAddr m j + 8 ≤ pteAddr n i ∨ pteAddr n i + 8 ≤ pteAddr m j := by
    rw [pteAddr_eq, pteAddr_eq]
    omega
  rw [readPte, Memory.readWord_writeWord_other apart, readPte]

theorem writePte_outside {x : Nat} (small : i < 512) (outside : x / 4096 ≠ n) :
    mem.writeWord (pteAddr n i) value x = mem x := by
  apply Memory.writeWord_outside
  rw [pteAddr_eq]
  omega

end

/-! ### Walks -/

/-- The node reached from `n` through the entries with the given indexes. -/
def walk (mem : PhysMem) : Nat → List Nat → Option Nat
  | n, [] => some n
  | n, i :: rest => (PageTable.child mem n i).bind fun next => walk mem next rest

theorem walk_append (mem : PhysMem) (n : Nat) (first second : List Nat) :
    walk mem n (first ++ second) = (walk mem n first).bind fun next => walk mem next second := by
  induction first generalizing n with
  | nil => rfl
  | cons i rest ih =>
    rw [List.cons_append, walk, walk, Option.bind_assoc]
    congr 1
    funext next
    exact ih next

/-- The level-3 entry of a page; a page without one is like an empty entry. -/
def PageTable.leaf (self : PageTable) (mem : PhysMem) (vpn : Nat) : PageTableEntry :=
  (self.translate mem vpn).getD .empty

/-- `nodes` is a tree below `root`, and `path` gives the way to each node. -/
structure Tree (mem : PhysMem) (root : Nat) (nodes : List Nat) (path : Nat → List Nat) : Prop where
  root_mem : root ∈ nodes
  root_path : path root = []
  depth : ∀ n ∈ nodes, (path n).length ≤ 2
  child : ∀ n ∈ nodes, (path n).length < 2 → ∀ i < 512, ∀ next, PageTable.child mem n i = some next →
    next ∈ nodes ∧ path next = path n ++ [i]
  small : ∀ n ∈ nodes, ∀ i ∈ path n, i < 512
  reach : ∀ n ∈ nodes, walk mem root (path n) = some n

section
variable {mem mem' : PhysMem} {root n i : Nat} {nodes : List Nat} {path : Nat → List Nat} {table : PageTable}

theorem child_congr (same : ∀ x, x / 4096 = n → mem' x = mem x) (small : i < 512) :
    PageTable.child mem' n i = PageTable.child mem n i := by
  unfold PageTable.child
  rw [readPte_congr same small]

theorem Tree.walk_mem (tree : Tree mem root nodes path) {indexes : List Nat} {next : Nat} (member : n ∈ nodes)
    (room : (path n).length + indexes.length ≤ 2) (small : ∀ i ∈ indexes, i < 512)
    (walked : walk mem n indexes = some next) : next ∈ nodes ∧ path next = path n ++ indexes := by
  induction indexes generalizing n with
  | nil =>
    obtain rfl := Option.some.inj walked
    exact ⟨member, (List.append_nil _).symm⟩
  | cons i rest ih =>
    obtain ⟨between, down, walked⟩ := Option.bind_eq_some_iff.mp walked
    rw [List.length_cons] at room
    obtain ⟨inside, way⟩ := tree.child n member (by omega) i (small i List.mem_cons_self) between down
    have longer : (path between).length = (path n).length + 1 := by rw [way, List.length_append]; rfl
    obtain ⟨last, full⟩ := ih inside (by omega) (fun j later => small j (List.mem_cons_of_mem i later)) walked
    exact ⟨last, by rw [full, way, List.append_assoc]; rfl⟩

theorem indexes_small (vpn : Nat) : (VirtPageNum.indexes vpn).1 < 512 ∧ (VirtPageNum.indexes vpn).2.1 < 512 ∧
    (VirtPageNum.indexes vpn).2.2 < 512 :=
  ⟨Nat.mod_lt _ (by decide), Nat.mod_lt _ (by decide), Nat.mod_lt _ (by decide)⟩

/-- The indexes determine a page up to the 27 bits of a page number. -/
theorem indexes_eq_iff {a b : Nat} : VirtPageNum.indexes a = VirtPageNum.indexes b ↔ a % 2 ^ 27 = b % 2 ^ 27 := by
  unfold VirtPageNum.indexes
  simp only [Prod.mk.injEq]
  omega

def upper (vpn : Nat) : List Nat := [(VirtPageNum.indexes vpn).1, (VirtPageNum.indexes vpn).2.1]

theorem upper_small (vpn : Nat) : ∀ i ∈ upper vpn, i < 512 := by
  obtain ⟨first, second, _⟩ := indexes_small vpn
  intro i member
  rcases List.mem_cons.mp member with rfl | later
  · exact first
  · exact List.mem_singleton.mp later ▸ second

theorem translate_eq_walk (table : PageTable) (mem : PhysMem) (vpn : Nat) : table.translate mem vpn =
    (walk mem table.rootPpn (upper vpn)).map fun node => readPte mem node (VirtPageNum.indexes vpn).2.2 := by
  unfold PageTable.translate PageTable.findPte upper
  generalize VirtPageNum.indexes vpn = indexes
  obtain ⟨a, b, c⟩ := indexes
  simp only [walk, bind, pure]
  cases first : PageTable.child mem table.rootPpn a with
  | none => simp only [Option.bind_none, Option.map_none]
  | some second =>
    cases third : PageTable.child mem second b with
    | none => simp [third]
    | some leaf => simp [third, readPte]

theorem findPte_of_walk {vpn node : Nat} (walked : walk mem table.rootPpn (upper vpn) = some node) :
    table.findPte mem vpn = some (pteAddr node (VirtPageNum.indexes vpn).2.2) := by
  unfold PageTable.findPte
  unfold upper at walked
  generalize VirtPageNum.indexes vpn = indexes at walked ⊢
  obtain ⟨a, b, c⟩ := indexes
  simp only [walk] at walked
  obtain ⟨second, first, walked⟩ := Option.bind_eq_some_iff.mp walked
  obtain ⟨third, next, walked⟩ := Option.bind_eq_some_iff.mp walked
  obtain rfl := Option.some.inj walked
  simp only [first, next, bind, Option.bind_some, pure]

theorem leaf_of_walk {vpn node : Nat} (walked : walk mem table.rootPpn (upper vpn) = some node) :
    table.leaf mem vpn = readPte mem node (VirtPageNum.indexes vpn).2.2 := by
  simp only [PageTable.leaf, translate_eq_walk, walked, Option.map_some, Option.getD_some]

theorem leaf_of_no_walk {vpn : Nat} (blocked : walk mem table.rootPpn (upper vpn) = none) :
    table.leaf mem vpn = .empty := by
  simp only [PageTable.leaf, translate_eq_walk, blocked, Option.map_none, Option.getD_none]

theorem Tree.walk_upper (tree : Tree mem root nodes path) {vpn node : Nat}
    (walked : walk mem root (upper vpn) = some node) : node ∈ nodes ∧ path node = upper vpn := by
  have found := tree.walk_mem tree.root_mem (by rw [tree.root_path]; exact Nat.le_refl 2) (upper_small vpn) walked
  rwa [tree.root_path, List.nil_append] at found

/-! ### Memory outside the nodes does not matter -/

theorem Tree.walk_congr (tree : Tree mem root nodes path) (same : ∀ x, x / 4096 ∈ nodes → mem' x = mem x)
    {indexes : List Nat} (member : n ∈ nodes) (room : (path n).length + indexes.length ≤ 2)
    (small : ∀ i ∈ indexes, i < 512) : walk mem' n indexes = walk mem n indexes := by
  induction indexes generalizing n with
  | nil => rfl
  | cons i rest ih =>
    have first := child_congr (fun x onFrame => same x (onFrame ▸ member)) (small i List.mem_cons_self)
    unfold walk
    rw [first]
    cases down : PageTable.child mem n i with
    | none => rfl
    | some next =>
      rw [List.length_cons] at room
      obtain ⟨inside, way⟩ := tree.child n member (by omega) i (small i List.mem_cons_self) next down
      have longer : (path next).length = (path n).length + 1 := by rw [way, List.length_append]; rfl
      exact ih inside (by omega) fun j later => small j (List.mem_cons_of_mem i later)

theorem Tree.congr (tree : Tree mem root nodes path) (same : ∀ x, x / 4096 ∈ nodes → mem' x = mem x) :
    Tree mem' root nodes path where
  root_mem := tree.root_mem
  root_path := tree.root_path
  depth := tree.depth
  child n member short i small next down := by
    rw [child_congr (fun x onFrame => same x (onFrame ▸ member)) small] at down
    exact tree.child n member short i small next down
  small := tree.small
  reach n member := by
    rw [tree.walk_congr same tree.root_mem (by rw [tree.root_path]; simpa using tree.depth n member) (tree.small n member)]
    exact tree.reach n member

theorem Tree.leaf_congr (tree : Tree mem table.rootPpn nodes path) (same : ∀ x, x / 4096 ∈ nodes → mem' x = mem x)
    (vpn : Nat) : table.leaf mem' vpn = table.leaf mem vpn := by
  have walks := tree.walk_congr same tree.root_mem (by rw [tree.root_path]; exact Nat.le_refl 2) (upper_small vpn)
  cases walked : walk mem table.rootPpn (upper vpn) with
  | none => rw [leaf_of_no_walk walked, leaf_of_no_walk (walks.trans walked)]
  | some node =>
    have inside := (tree.walk_upper walked).1
    rw [leaf_of_walk walked, leaf_of_walk (walks.trans walked)]
    exact readPte_congr (fun x onFrame => same x (onFrame ▸ inside)) (indexes_small vpn).2.2

end

end SecureIpc

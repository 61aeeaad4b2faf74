import SecureIpc.Mm.Tree

/-!
`map` and `unmap` of a page table, seen through its tree: new nodes are the only frames taken, the
entry of one page changes and every other page keeps its entry.
-/

namespace SecureIpc
open Lib

section
variable {mem mem' : PhysMem} {root node frame i : Nat} {nodes : List Nat} {path : Nat → List Nat}

/-! ### Adding a node -/

/-- `mem'` is `mem` with the empty node `frame` hung into entry `i` of `node`. -/
structure Grown (mem mem' : PhysMem) (nodes : List Nat) (node i frame : Nat) : Prop where
  fresh : frame ∉ nodes
  absent : PageTable.child mem node i = none
  here : PageTable.child mem' node i = some frame
  other : ∀ n ∈ nodes, ∀ j < 512, ¬ (n = node ∧ j = i) → readPte mem' n j = readPte mem n j
  blank : ∀ j < 512, readPte mem' frame j = .empty

theorem Grown.child_other (grown : Grown mem mem' nodes node i frame) {n j : Nat} (member : n ∈ nodes)
    (small : j < 512) (other : ¬ (n = node ∧ j = i)) : PageTable.child mem' n j = PageTable.child mem n j := by
  unfold PageTable.child
  rw [grown.other n member j small other]

theorem Grown.child_blank (grown : Grown mem mem' nodes node i frame) {j : Nat} (small : j < 512) :
    PageTable.child mem' frame j = none := by
  unfold PageTable.child
  rw [grown.blank j small, PageTableEntry.empty_invalid]
  rfl

/-- A walk of the old tree is a walk of the grown one: the entry that was filled in led nowhere before. -/
theorem Tree.walk_kept (tree : Tree mem root nodes path) (grown : Grown mem mem' nodes node i frame)
    {n last : Nat} {indexes : List Nat} (member : n ∈ nodes) (room : (path n).length + indexes.length ≤ 2)
    (small : ∀ i ∈ indexes, i < 512) (walked : walk mem n indexes = some last) : walk mem' n indexes = some last := by
  induction indexes generalizing n with
  | nil => exact walked
  | cons j rest ih =>
    obtain ⟨next, down, walked⟩ := Option.bind_eq_some_iff.mp walked
    rw [List.length_cons] at room
    obtain ⟨inside, way⟩ := tree.child n member (by omega) j (small j List.mem_cons_self) next down
    have kept : PageTable.child mem' n j = some next := by
      rw [grown.child_other member (small j List.mem_cons_self)]
      · exact down
      · rintro ⟨rfl, rfl⟩
        exact absurd (grown.absent.symm.trans down) (by simp)
    have longer : (path next).length = (path n).length + 1 := by rw [way, List.length_append]; rfl
    rw [walk, kept, Option.bind_some]
    exact ih inside (by omega) (fun i later => small i (List.mem_cons_of_mem j later)) walked

theorem Tree.grow (tree : Tree mem root nodes path) (grown : Grown mem mem' nodes node i frame)
    (member : node ∈ nodes) (short : (path node).length < 2) (index : i < 512) :
    Tree mem' root (nodes ++ [frame]) (fun n => if n = frame then path node ++ [i] else path n) := by
  have old : ∀ n ∈ nodes, n ≠ frame := fun n inside same => grown.fresh (same ▸ inside)
  have cases : ∀ n ∈ nodes ++ [frame], n ≠ frame → n ∈ nodes := by
    intro n inside different
    rcases List.mem_append.mp inside with before | last
    · exact before
    · exact absurd (List.mem_singleton.mp last) different
  have walks : ∀ n ∈ nodes, walk mem' root (path n) = some n := fun n inside =>
    tree.walk_kept grown tree.root_mem (by rw [tree.root_path]; simpa using tree.depth n inside) (tree.small n inside)
      (tree.reach n inside)
  refine ⟨List.mem_append_left _ tree.root_mem, ?_, ?_, ?_, ?_, ?_⟩
  · rw [if_neg (old root tree.root_mem)]
    exact tree.root_path
  · intro n inside
    by_cases new : n = frame
    · rw [if_pos new, List.length_append]
      exact short
    · rw [if_neg new]
      exact tree.depth n (cases n inside new)
  · intro n inside shortN j small next down
    by_cases new : n = frame
    · rw [new, grown.child_blank small] at down
      exact absurd down (by simp)
    · have before := cases n inside new
      rw [if_neg new] at shortN ⊢
      by_cases hung : n = node ∧ j = i
      · obtain ⟨rfl, rfl⟩ := hung
        obtain rfl := Option.some.inj (grown.here.symm.trans down)
        rw [if_pos rfl]
        exact ⟨List.mem_append_right _ (List.mem_singleton_self _), rfl⟩
      · rw [grown.child_other before small hung] at down
        obtain ⟨inside, way⟩ := tree.child n before shortN j small next down
        rw [if_neg (old next inside)]
        exact ⟨List.mem_append_left _ inside, way⟩
  · intro n inside j among
    by_cases new : n = frame
    · rw [if_pos new] at among
      rcases List.mem_append.mp among with above | last
      · exact tree.small node member j above
      · exact List.mem_singleton.mp last ▸ index
    · rw [if_neg new] at among
      exact tree.small n (cases n inside new) j among
  · intro n inside
    by_cases new : n = frame
    · rw [if_pos new, walk_append, walks node member, Option.bind_some, walk, grown.here, new]
      rfl
    · rw [if_neg new]
      exact walks n (cases n inside new)

/-- A walk of the grown tree that does not end in the new node is a walk of the old one. -/
theorem Tree.walk_grown (tree : Tree mem root nodes path) (grown : Grown mem mem' nodes node i frame) {a b last : Nat}
    (smallA : a < 512) (smallB : b < 512) (walked : walk mem' root [a, b] = some last) (different : last ≠ frame) :
    walk mem root [a, b] = some last := by
  obtain ⟨between, down, walked⟩ := Option.bind_eq_some_iff.mp walked
  obtain ⟨bottom, down', walked⟩ := Option.bind_eq_some_iff.mp walked
  obtain rfl := Option.some.inj walked
  have notNew : between ≠ frame := by
    intro same
    rw [same, grown.child_blank smallB] at down'
    exact absurd down' (by simp)
  have first : PageTable.child mem root a = some between := by
    by_cases hung : root = node ∧ a = i
    · rw [hung.1, hung.2, grown.here] at down
      exact absurd (Option.some.inj down).symm notNew
    · rw [grown.child_other tree.root_mem smallA hung] at down
      exact down
  obtain ⟨inside, _⟩ := tree.child root tree.root_mem (by rw [tree.root_path]; decide) a smallA between first
  have second : PageTable.child mem between b = some bottom := by
    by_cases hung : between = node ∧ b = i
    · rw [hung.1, hung.2, grown.here] at down'
      exact absurd (Option.some.inj down').symm different
    · rw [grown.child_other inside smallB hung] at down'
      exact down'
  simp [walk, first, second]

/-- Adding a node changes no translation. -/
theorem Tree.grow_leaf {table table' : PageTable} (tree : Tree mem table.rootPpn nodes path)
    (grown : Grown mem mem' nodes node i frame) (short : (path node).length < 2)
    (sameRoot : table'.rootPpn = table.rootPpn) (vpn : Nat) : table'.leaf mem' vpn = table.leaf mem vpn := by
  obtain ⟨smallA, smallB, smallC⟩ := indexes_small vpn
  cases walked : walk mem table.rootPpn (upper vpn) with
  | some last =>
    obtain ⟨inside, way⟩ := tree.walk_upper walked
    have kept : walk mem' table'.rootPpn (upper vpn) = some last := by
      rw [sameRoot]
      exact tree.walk_kept grown tree.root_mem (by rw [tree.root_path]; exact Nat.le_refl 2) (upper_small vpn) walked
    rw [leaf_of_walk walked, leaf_of_walk kept]
    apply grown.other last inside _ smallC
    rintro ⟨rfl, _⟩
    rw [way] at short
    exact absurd short (by simp [upper])
  | none =>
    rw [leaf_of_no_walk walked]
    cases after : walk mem' table'.rootPpn (upper vpn) with
    | none => exact leaf_of_no_walk after
    | some last =>
      rw [sameRoot] at after
      by_cases new : last = frame
      · rw [new] at after
        rw [leaf_of_walk (by rw [sameRoot]; exact after)]
        exact grown.blank _ smallC
      · have before := tree.walk_grown grown smallA smallB after new
        exact absurd (walked.symm.trans before) (by simp)

end

/-! ### Operations -/

/-- The nodes of a page table are its own and form a tree. -/
structure Table (layout : Layout) (mm : Mm) (table : PageTable) (path : Nat → List Nat) : Prop where
  owns : (frameStore layout).Owns mm table.frames
  tree : Tree mm.mem table.rootPpn table.frames path

/-- A table gains nodes; what it had keeps its place, and the frames of others are untouched. -/
structure Extends (layout : Layout) (mm mm' : Mm) (table table' : PageTable) (path path' : Nat → List Nat) : Prop where
  ok : Table layout mm' table' path'
  root : table'.rootPpn = table.rootPpn
  evolves : (frameStore layout).Evolves mm mm' table.frames table'.frames
  nodes : ∀ n ∈ table.frames, n ∈ table'.frames ∧ path' n = path n

section
variable {layout : Layout} {mm mm' mm'' : Mm} {table table' table'' : PageTable} {path path' path'' : Nat → List Nat}
variable {node i : Nat}

theorem Extends.refl (ok : Table layout mm table path) : Extends layout mm mm table table path path :=
  ⟨ok, rfl, .refl ok.owns, fun _ member => ⟨member, rfl⟩⟩

theorem Extends.trans (first : Extends layout mm mm' table table' path path')
    (second : Extends layout mm' mm'' table' table'' path' path'') :
    Extends layout mm mm'' table table'' path path'' where
  ok := second.ok
  root := second.root.trans first.root
  evolves := first.evolves.trans second.evolves
  nodes n member := by
    obtain ⟨inside, way⟩ := first.nodes n member
    obtain ⟨later, again⟩ := second.nodes n inside
    exact ⟨later, again.trans way⟩

theorem child_of_pte {mem : PhysMem} {pte : PageTableEntry} (entry : readPte mem node i = pte) (valid : pte.isValid = true) :
    PageTable.child mem node i = some pte.ppn := by
  unfold PageTable.child
  rw [entry, valid]
  rfl

theorem contains_V (flags : Nat) : PTEFlags.contains (flags ||| PTEFlags.V) PTEFlags.V = true := by
  unfold PTEFlags.contains PTEFlags.V
  rw [beq_iff_eq, Nat.and_one_is_mod, Nat.mod_two_eq_one_iff_testBit_zero, Nat.testBit_or, Nat.testBit_one_zero,
    Bool.or_true]

theorem or_V_small {flags : Nat} (small : flags < 256) : flags ||| PTEFlags.V < 256 :=
  Nat.or_lt_two_pow (n := 8) small (by decide)

/-- The permissions of an area are among the first five flags. -/
theorem perm_small {flags : Nat} (small : flags < 32) : flags < 256 := Nat.lt_trans small (by decide)

theorem isValid_new {ppn flags : Nat} (small : flags < 256) :
    (PageTableEntry.new ppn (flags ||| PTEFlags.V)).isValid = true := by
  unfold PageTableEntry.isValid
  rw [PageTableEntry.flags_new (or_V_small small)]
  exact contains_V flags

theorem grown_of_alloc {mem mem₁ : PhysMem} {nodes : List Nat} {frame : Nat} (fresh : frame ∉ nodes)
    (low : frame < 2 ^ 44) (member : node ∈ nodes) (small : i < 512) (absent : (readPte mem node i).isValid = false)
    (zero : ∀ x, x / 4096 = frame → mem₁ x = 0) (kept : ∀ x, x / 4096 ≠ frame → mem₁ x = mem x) :
    Grown mem (mem₁.writeWord (pteAddr node i) (PageTableEntry.new frame PTEFlags.V).bits) nodes node i frame := by
  have different : frame ≠ node := fun same => fresh (same ▸ member)
  refine ⟨fresh, ?_, ?_, ?_, ?_⟩
  · unfold PageTable.child
    rw [absent]
    rfl
  · have entry : readPte (mem₁.writeWord (pteAddr node i) (PageTableEntry.new frame PTEFlags.V).bits) node i =
        PageTableEntry.new frame PTEFlags.V := by
      rw [readPte_write_same, PageTableEntry.new_fits low (by decide)]
    rw [child_of_pte entry (isValid_new (show 0 < 256 by decide)), PageTableEntry.ppn_new low (by decide)]
  · intro n inside j smallJ other
    rw [readPte_write_other small smallJ other]
    exact readPte_congr (fun x onFrame => kept x fun same => fresh (by rw [← same, onFrame]; exact inside)) smallJ
  · intro j smallJ
    rw [readPte_write_other small smallJ fun same => different same.1]
    exact readPte_zero zero smallJ

theorem childCreate_spec (ok : Table layout mm table path) (member : node ∈ table.frames)
    (short : (path node).length < 2) (small : i < 512) :
    wp (table.childCreate node i) (fun r mm' => ∃ path', Extends layout mm mm' table r.1 path path' ∧
      r.2 ∈ r.1.frames ∧ path' r.2 = path node ++ [i] ∧ ∀ vpn, r.1.leaf mm'.mem vpn = table.leaf mm.mem vpn)
      (· = .outOfFrames) mm := by
  unfold PageTable.childCreate
  rw [wp_bind, wp_read, wp_ite]
  split
  · rename_i valid
    obtain ⟨inside, way⟩ := ok.tree.child node member short i small _ (child_of_pte rfl valid)
    exact ⟨path, .refl ok, inside, way, fun _ => rfl⟩
  · rename_i invalid
    rw [wp_bind]
    refine wp_mono (frameAlloc_spec ok.owns) ?_ fun _ same => same
    rintro frame mm₁ ⟨alloc, zero, kept⟩
    have owned : frame ∈ table.frames ++ [frame] := List.mem_append_right _ (List.mem_singleton_self frame)
    have fresh : frame ∉ table.frames := fun inside => alloc.owns.disjoint inside (List.mem_singleton_self frame)
    have low := live_small alloc.owns owned
    have grown := grown_of_alloc fresh low member small (Bool.eq_false_iff.mpr invalid) zero kept
    rw [wp_bind]
    refine ⟨fun n => if n = frame then path node ++ [i] else path n, ?_, ?_, ?_, ?_⟩
    · have written := evolves_mem alloc.owns (mm₁.mem.writeWord (pteAddr node i)
        (PageTableEntry.new frame PTEFlags.V).bits) fun x outside => writePte_outside small fun same =>
          outside (by rw [same]; exact List.mem_append_left _ member)
      refine ⟨⟨written.owns, ok.tree.grow grown member short small⟩, rfl, alloc.trans written, ?_⟩
      intro n inside
      refine ⟨List.mem_append_left _ inside, ?_⟩
      show (if n = frame then path node ++ [i] else path n) = path n
      rw [if_neg fun same : n = frame => fresh (same ▸ inside)]
    · show (PageTableEntry.new frame PTEFlags.V).ppn ∈ table.frames ++ [frame]
      rw [PageTableEntry.ppn_new low (by decide)]
      exact owned
    · show (if (PageTableEntry.new frame PTEFlags.V).ppn = frame then path node ++ [i] else _) = _
      rw [PageTableEntry.ppn_new low (by decide), if_pos rfl]
    · exact fun vpn => ok.tree.grow_leaf grown short rfl vpn

theorem findPteCreate_spec (ok : Table layout mm table path) (vpn : Nat) :
    wp (table.findPteCreate vpn) (fun r mm' => ∃ path', Extends layout mm mm' table r.1 path path' ∧
      r.2.1 ∈ r.1.frames ∧ path' r.2.1 = upper vpn ∧ r.2.2 = (VirtPageNum.indexes vpn).2.2 ∧
      ∀ v, r.1.leaf mm'.mem v = table.leaf mm.mem v) (· = .outOfFrames) mm := by
  obtain ⟨smallA, smallB, _⟩ := indexes_small vpn
  have shallow : (path table.rootPpn).length = 0 := by rw [ok.tree.root_path]; rfl
  unfold PageTable.findPteCreate
  apply wp_bind.mpr
  refine wp_mono (childCreate_spec ok ok.tree.root_mem (by omega) smallA) ?_ fun _ same => same
  rintro ⟨table₁, second⟩ mm₁ ⟨path₁, first, member, way, leaves⟩
  rw [ok.tree.root_path, List.nil_append] at way
  apply wp_bind.mpr
  refine wp_mono (childCreate_spec first.ok member (by rw [way]; exact Nat.one_lt_two) smallB) ?_ fun _ same => same
  rintro ⟨table₂, third⟩ mm₂ ⟨path₂, last, member', way', leaves'⟩
  refine ⟨path₂, first.trans last, member', ?_, rfl, fun v => (leaves' v).trans (leaves v)⟩
  rw [way', way]
  rfl

end

/-! ### Writing a level-3 entry -/

section
variable {mem : PhysMem} {root node i value : Nat} {nodes : List Nat} {path : Nat → List Nat} {table table' : PageTable}

theorem Tree.walk_write (tree : Tree mem root nodes path) (deep : (path node).length = 2) (small : i < 512)
    {n : Nat} {indexes : List Nat} (member : n ∈ nodes) (room : (path n).length + indexes.length ≤ 2)
    (smalls : ∀ j ∈ indexes, j < 512) :
    walk (mem.writeWord (pteAddr node i) value) n indexes = walk mem n indexes := by
  induction indexes generalizing n with
  | nil => rfl
  | cons j rest ih =>
    rw [List.length_cons] at room
    have different : ¬(n = node ∧ j = i) := by
      rintro ⟨rfl, _⟩
      omega
    have same : PageTable.child (mem.writeWord (pteAddr node i) value) n j = PageTable.child mem n j := by
      unfold PageTable.child
      rw [readPte_write_other small (smalls j List.mem_cons_self) different]
    rw [walk, walk, same]
    cases down : PageTable.child mem n j with
    | none => rfl
    | some next =>
      obtain ⟨inside, way⟩ := tree.child n member (by omega) j (smalls j List.mem_cons_self) next down
      have longer : (path next).length = (path n).length + 1 := by rw [way, List.length_append]; rfl
      rw [Option.bind_some, Option.bind_some]
      exact ih inside (by omega) fun k later => smalls k (List.mem_cons_of_mem j later)

theorem Tree.write (tree : Tree mem root nodes path) (deep : (path node).length = 2) (small : i < 512) :
    Tree (mem.writeWord (pteAddr node i) value) root nodes path where
  root_mem := tree.root_mem
  root_path := tree.root_path
  depth := tree.depth
  child n member short j smallJ next down := by
    have different : ¬(n = node ∧ j = i) := by
      rintro ⟨rfl, _⟩
      omega
    unfold PageTable.child at down
    rw [readPte_write_other small smallJ different] at down
    exact tree.child n member short j smallJ next down
  small := tree.small
  reach n member := by
    rw [tree.walk_write deep small tree.root_mem (by rw [tree.root_path]; simpa using tree.depth n member)
      (tree.small n member)]
    exact tree.reach n member

/-- Writing the entry of a page changes the entry of that page and of no other. -/
theorem Tree.leaf_write {vpn : Nat} (tree : Tree mem table.rootPpn nodes path) (member : node ∈ nodes)
    (way : path node = upper vpn) (sameRoot : table'.rootPpn = table.rootPpn) (v : Nat) :
    table'.leaf (mem.writeWord (pteAddr node (VirtPageNum.indexes vpn).2.2) value) v =
      if v % 2 ^ 27 = vpn % 2 ^ 27 then ⟨value % 2 ^ 64⟩ else table.leaf mem v := by
  obtain ⟨_, _, small⟩ := indexes_small vpn
  obtain ⟨_, _, small'⟩ := indexes_small v
  have deep : (path node).length = 2 := by rw [way]; rfl
  have walks := @Tree.walk_write mem table.rootPpn node _ value nodes path tree deep small table.rootPpn (upper v)
    tree.root_mem (by rw [tree.root_path]; exact Nat.le_refl 2) (upper_small v)
  cases walked : walk mem table.rootPpn (upper v) with
  | none =>
    have different : ¬v % 2 ^ 27 = vpn % 2 ^ 27 := by
      intro same
      have indexes := indexes_eq_iff.mpr same
      have reached := tree.reach node member
      rw [way] at reached
      unfold upper at reached walked
      rw [indexes, reached] at walked
      cases walked
    rw [if_neg different, leaf_of_no_walk walked, leaf_of_no_walk (by rw [sameRoot, walks, walked])]
  | some last =>
    rw [leaf_of_walk (show walk _ table'.rootPpn (upper v) = some last by rw [sameRoot, walks, walked]), leaf_of_walk walked]
    obtain ⟨_, there⟩ := tree.walk_upper walked
    by_cases same : v % 2 ^ 27 = vpn % 2 ^ 27
    · have indexes := indexes_eq_iff.mpr same
      have reached := tree.reach node member
      rw [way] at reached
      have target : last = node := by
        unfold upper at reached walked
        rw [indexes, reached] at walked
        exact (Option.some.inj walked).symm
      rw [if_pos same, target, indexes, readPte_write_same]
    · rw [if_neg same, readPte_write_other small small']
      rintro ⟨rfl, index⟩
      refine same (indexes_eq_iff.mp ?_)
      have uppers : upper v = upper vpn := there.symm.trans way
      unfold upper at uppers
      obtain ⟨first, rest⟩ := List.cons.inj uppers
      obtain ⟨second, _⟩ := List.cons.inj rest
      exact Prod.ext first (Prod.ext second index)

end

/-! ### Mapping and unmapping a page -/

section
variable {layout : Layout} {mm : Mm} {table : PageTable} {path : Nat → List Nat} {vpn ppn flags : Nat}

theorem Table.write {node i value : Nat} (ok : Table layout mm table path) (member : node ∈ table.frames)
    (deep : (path node).length = 2) (small : i < 512) :
    Extends layout mm { mm with mem := mm.mem.writeWord (pteAddr node i) value } table table path path := by
  have written := evolves_mem ok.owns (mm.mem.writeWord (pteAddr node i) value) fun x outside =>
    writePte_outside small fun same => outside (same ▸ member)
  exact ⟨⟨written.owns, ok.tree.write deep small⟩, rfl, written, fun n inside => ⟨inside, rfl⟩⟩

theorem map_spec (ok : Table layout mm table path) (low : ppn < 2 ^ 44) (small : flags < 256) :
    wp (table.map vpn ppn flags) (fun table' mm' => ∃ path', Extends layout mm mm' table table' path path' ∧
      (table.leaf mm.mem vpn).isValid = false ∧ ∀ v, table'.leaf mm'.mem v =
        if v % 2 ^ 27 = vpn % 2 ^ 27 then .new ppn (flags ||| PTEFlags.V) else table.leaf mm.mem v)
      (fun fault => fault = .outOfFrames ∨ fault = .alreadyMapped ∧ (table.leaf mm.mem vpn).isValid = true) mm := by
  unfold PageTable.map
  apply wp_bind.mpr
  refine wp_mono (findPteCreate_spec ok vpn) ?_ fun _ same => Or.inl same
  rintro ⟨table₁, node, index⟩ mm₁ ⟨path₁, grown, member, way, rfl, leaves⟩
  have entry : table₁.leaf mm₁.mem vpn = readPte mm₁.mem node (VirtPageNum.indexes vpn).2.2 := by
    apply leaf_of_walk
    rw [← way]
    exact grown.ok.tree.reach node member
  rw [leaves] at entry
  simp only [wp_bind, wp_read, wp_ite, wp_throw]
  split
  · rename_i valid
    rw [← entry] at valid
    exact Or.inr ⟨trivial, valid⟩
  · rename_i invalid
    rw [← entry, Bool.not_eq_true] at invalid
    have written := @Table.write layout mm₁ table₁ path₁ node _ (PageTableEntry.new ppn (flags ||| PTEFlags.V)).bits
      grown.ok member (by rw [way]; rfl) (indexes_small vpn).2.2
    refine ⟨path₁, grown.trans written, invalid, fun v => ?_⟩
    have leaf := @Tree.leaf_write mm₁.mem node (PageTableEntry.new ppn (flags ||| PTEFlags.V)).bits table₁.frames path₁
      table₁ table₁ vpn grown.ok.tree member way rfl v
    rw [PageTableEntry.new_fits low (or_V_small small), leaves] at leaf
    exact leaf

theorem unmap_spec (ok : Table layout mm table path) :
    wp (table.unmap vpn) (fun _ mm' => Extends layout mm mm' table table path path ∧
      (table.leaf mm.mem vpn).isValid = true ∧ ∀ v, table.leaf mm'.mem v =
        if v % 2 ^ 27 = vpn % 2 ^ 27 then .empty else table.leaf mm.mem v)
      (fun fault => (fault = .untranslated ∨ fault = .notMapped) ∧ (table.leaf mm.mem vpn).isValid = false) mm := by
  unfold PageTable.unmap
  simp only [wp_bind, wp_read]
  have found := translate_eq_walk table mm.mem vpn
  cases walked : walk mm.mem table.rootPpn (upper vpn) with
  | none =>
    have absent : table.findPte mm.mem vpn = none := by
      rw [walked, Option.map_none] at found
      exact Option.map_eq_none_iff.mp found
    rw [absent]
    exact ⟨Or.inl rfl, by rw [leaf_of_no_walk walked]; rfl⟩
  | some node =>
    obtain ⟨member, way⟩ := ok.tree.walk_upper walked
    have present : table.findPte mm.mem vpn = some (pteAddr node (VirtPageNum.indexes vpn).2.2) :=
      findPte_of_walk walked
    have leaf := leaf_of_walk walked
    rw [present]
    simp only [wp_bind, wp_read, wp_ite, wp_throw, wp_modify]
    have entry : PageTableEntry.mk (mm.mem.readWord (pteAddr node (VirtPageNum.indexes vpn).2.2)) = table.leaf mm.mem vpn :=
      leaf.symm
    rw [entry]
    split
    · rename_i valid
      have written := @Table.write layout mm table path node _ PageTableEntry.empty.bits ok member (by rw [way]; rfl)
        (indexes_small vpn).2.2
      exact ⟨written, valid, fun v => ok.tree.leaf_write member way rfl v⟩
    · rename_i invalid
      exact ⟨Or.inr trivial, Bool.eq_false_iff.mpr invalid⟩

end

end SecureIpc

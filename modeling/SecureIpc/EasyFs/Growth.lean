import Mathlib.Data.List.Basic
import SecureIpc.EasyFs.BlockTree

/-! Growing a file by the blocks it is given, and giving all of them back. -/

namespace SecureIpc.EasyFs
open Lib

/-- The data blocks of a file of `size` bytes. -/
def blocksOf (size : Nat) : Nat := (size + 511) / 512

/-- The blocks of a file with `n` data blocks, index blocks included. -/
def totalOf (n : Nat) : Nat := n + (if 28 < n then 1 else 0) + (if 156 < n then 1 + (n - 156 + 127) / 128 else 0)

def maxBlocks : Nat := 28 + 128 + 128 * 128

theorem totalOf_mono {n m : Nat} (le : n ≤ m) : totalOf n ≤ totalOf m := by
  unfold totalOf
  split_ifs <;> omega

namespace BlockTree

/-- There are as many index blocks as the data blocks need. -/
structure Exact (tree : BlockTree) : Prop where
  single : tree.single.isSome = true ↔ 28 < tree.data.length
  double : tree.double.isSome = true ↔ 156 < tree.data.length
  subs : tree.subs.length = (tree.data.length - 156 + 127) / 128

structure Grows (tree tree' : BlockTree) (blocks : List Nat) : Prop where
  data : tree.data <+: tree'.data
  subs : tree.subs <+: tree'.subs
  ids : tree'.ids.Perm (tree.ids ++ blocks)

section
variable {tree tree' tree'' : BlockTree} {mem mem' : Memory} {blocks rest : List Nat} {size s d : Nat} {type : DiskInodeType}

theorem empty_exact : empty.Exact := ⟨by simp [empty], by simp [empty], by simp [empty]⟩

theorem Exact.length (exact : tree.Exact) : tree.ids.length = totalOf tree.data.length := by
  have single : tree.single.toList.length = if 28 < tree.data.length then 1 else 0 := by
    cases present : tree.single with
    | none => simpa [present] using exact.single
    | some s => simpa [present] using exact.single
  have double : tree.double.toList.length = if 156 < tree.data.length then 1 else 0 := by
    cases present : tree.double with
    | none => simpa [present] using exact.double
    | some s => simpa [present] using exact.double
  rw [ids, index, List.length_append, List.length_append, List.length_append, single, double, exact.subs, totalOf]
  split_ifs <;> omega

theorem Grows.refl (tree : BlockTree) : tree.Grows tree [] := ⟨List.prefix_rfl, List.prefix_rfl, by simp⟩

theorem Grows.trans {more : List Nat} (first : tree.Grows tree' blocks) (second : tree'.Grows tree'' more) :
    tree.Grows tree'' (blocks ++ more) := by
  refine ⟨first.data.trans second.data, first.subs.trans second.subs, second.ids.trans ?_⟩
  rw [← List.append_assoc]
  exact first.ids.append_right more

theorem Grows.nodup (grows : tree.Grows tree' blocks) (unique : (tree.ids ++ blocks).Nodup) : tree'.ids.Nodup :=
  grows.ids.nodup_iff.mpr unique

theorem Grows.member (grows : tree.Grows tree' blocks) {id : Nat} : id ∈ tree'.ids ↔ id ∈ tree.ids ∨ id ∈ blocks := by
  rw [grows.ids.mem_iff, List.mem_append]

theorem grows_push (tree : BlockTree) (blocks : List Nat) : tree.Grows (tree.push blocks) blocks := by
  refine ⟨List.prefix_append _ _, List.prefix_rfl, ?_⟩
  apply List.perm_iff_count.mpr
  intro id
  simp only [ids, index, push, List.count_append]
  omega

theorem grows_single {b : Nat} (none : tree.single = none) : tree.Grows { tree with single := some b } [b] := by
  refine ⟨List.prefix_rfl, List.prefix_rfl, ?_⟩
  apply List.perm_iff_count.mpr
  intro id
  simp only [ids, index, none, Option.toList_none, Option.toList_some, List.count_append, List.count_nil]
  omega

theorem grows_double {b : Nat} (none : tree.double = none) : tree.Grows { tree with double := some b } [b] := by
  refine ⟨List.prefix_rfl, List.prefix_rfl, ?_⟩
  apply List.perm_iff_count.mpr
  intro id
  simp only [ids, index, none, Option.toList_none, Option.toList_some, List.count_append, List.count_nil]
  omega

theorem grows_sub (tree : BlockTree) (b : Nat) : tree.Grows { tree with subs := tree.subs ++ [b] } [b] := by
  refine ⟨List.prefix_rfl, List.prefix_append _ _, ?_⟩
  apply List.perm_iff_count.mpr
  intro id
  simp only [ids, index, List.count_append]
  omega

theorem index_nodup (unique : tree.ids.Nodup) : tree.index.Nodup := (List.nodup_append.mp unique).2.1

/-! ### The three loops -/

theorem inode_push {b : Nat} :
    { tree.inode size type with direct := (tree.inode size type).direct.set tree.data.length b } = (tree.push [b]).inode size type := by
  have direct : (tree.inode size type).direct.set tree.data.length b = ((tree.push [b]).inode size type).direct := by
    apply List.ext_getElem
    · simp [inode]
    · intro j inside inside'
      rw [List.getElem_set]
      by_cases here : tree.data.length = j
      · simp [inode, push, here]
      · rcases Nat.lt_or_gt_of_ne here with after | before
        · have far : (tree.data ++ [b])[j]? = none := List.getElem?_eq_none (by simpa using Nat.succ_le_of_lt after)
          simp [inode, push, here, List.getD, far, List.getElem?_eq_none (Nat.le_of_lt after)]
        · simp [inode, push, here, List.getD, List.getElem?_append_left before]
  rw [direct]
  rfl

theorem fillDirect_spec {Q : DiskInode × List Nat → Memory → Prop} {E : FsFault → Prop} :
    wp ((tree.inode size type).fillDirect blocks.length tree.data.length (blocks ++ rest)) Q E mem ↔
      Q ((tree.push blocks).inode size type, rest) mem := by
  induction blocks generalizing tree with
  | nil =>
    have same : tree.push [] = tree := by simp [push]
    rw [same]
    exact Iff.rfl
  | cons b blocks ih =>
    have step := @ih (tree.push [b])
    have count : (tree.push [b]).data.length = tree.data.length + 1 := by simp [push]
    have both : (tree.push [b]).push blocks = tree.push (b :: blocks) := by simp [push]
    rw [count, both, ← inode_push] at step
    exact step

theorem fillIndirect1_spec (links : tree.Links mem) (single : tree.single = some s) (low : 28 ≤ tree.data.length)
    (room : blocks ≠ [] → tree.data.length + blocks.length ≤ 156) (unique : tree.index.Nodup) (small : ∀ b ∈ blocks, b < 2 ^ 32) :
    wp (DiskInode.fillIndirect1 s blocks.length (tree.data.length - 28) (blocks ++ rest)) (fun left mem' => left = rest ∧
      (tree.push blocks).Links mem' ∧ Outside [s] mem mem') (fun _ => False) mem := by
  induction blocks generalizing tree mem with
  | nil =>
    have same : tree.push [] = tree := by simp [push]
    rw [same]
    exact ⟨rfl, links, Outside.refl _ _⟩
  | cons b blocks ih =>
    obtain ⟨first, others⟩ := List.forall_mem_cons.mp small
    have room := room (List.cons_ne_nil b blocks)
    rw [List.length_cons] at room
    have inside : tree.data.length - 28 < inodeIndirect1Count := show _ < 128 by omega
    have count : (tree.push [b]).data.length = tree.data.length + 1 := by simp [push]
    have both : (tree.push [b]).push blocks = tree.push (b :: blocks) := by simp [push]
    have later := ih (links.pushFirst single low (by omega) unique first) single (by omega) (fun _ => by omega) unique others
    rw [count, both, show tree.data.length + 1 - 28 = tree.data.length - 28 + 1 by omega] at later
    simp only [List.length_cons, List.cons_append, DiskInode.fillIndirect1, DiskInode.nextBlock, DiskInode.writeEntry, if_pos inside, wp_bind,
      wp_pure, wp_modify]
    refine wp_mono later ?_ fun _ impossible => impossible
    rintro left mem' ⟨rfl, linked, outside⟩
    exact ⟨rfl, linked, (setIndirectEntry_outside inside).trans outside⟩

structure Below (d : Nat) (tree tree' : BlockTree) (taken : List Nat) (mem mem' : Memory) : Prop where
  grows : tree.Grows tree' taken
  links : tree'.Links mem'
  outside : Outside (d :: tree'.subs) mem mem'
  single : tree'.single = tree.single
  double : tree'.double = tree.double
  subs : ∀ id ∈ tree'.subs, id ∈ tree.subs ++ taken

theorem Below.refl (links : tree.Links mem) : Below d tree tree [] mem mem :=
  ⟨Grows.refl tree, links, Outside.refl _ _, rfl, rfl, by simp⟩

theorem Below.trans {more : List Nat} {mem'' : Memory} (first : Below d tree tree' blocks mem mem')
    (second : Below d tree' tree'' more mem' mem'') : Below d tree tree'' (blocks ++ more) mem mem'' := by
  refine ⟨first.grows.trans second.grows, second.links, ?_, second.single.trans first.single, second.double.trans first.double, ?_⟩
  · refine Outside.trans (first.outside.mono ?_) second.outside
    exact List.cons_subset_cons d second.grows.subs.subset
  · intro id member
    rw [← List.append_assoc]
    rcases List.mem_append.mp (second.subs id member) with old | new
    · exact List.mem_append_left _ (first.subs id old)
    · exact List.mem_append_right _ new

/-- The start of a round: at the first entry of an indirect block, the block itself is taken. -/
theorem nextSub_spec {at' : Nat} (links : tree.Links mem) (double : tree.double = some d)
    (subs : tree.subs.length = (at' + 127) / 128) (bound : at' < 128 * 128) (enough : at' % 128 = 0 → blocks ≠ [])
    (unique : tree.index.Nodup) (small : ∀ b ∈ blocks, b < 2 ^ 32) :
    wp (DiskInode.nextSub d (at' / 128) (at' % 128) blocks) (fun rest mem' => ∃ tree' taken, blocks = taken ++ rest ∧
      taken.length = (if at' % 128 = 0 then 1 else 0) ∧ Below d tree tree' taken mem mem' ∧ tree'.data = tree.data ∧
      tree'.subs.length = at' / 128 + 1) (fun _ => False) mem := by
  unfold DiskInode.nextSub
  by_cases begins : at' % 128 = 0
  · obtain ⟨b, rest, rfl⟩ := List.exists_cons_of_ne_nil (enough begins)
    have count : tree.subs.length = at' / 128 := by omega
    have inside : at' / 128 < inodeIndirect1Count := show _ < 128 by omega
    simp only [if_pos begins, DiskInode.nextBlock, DiskInode.writeEntry, if_pos inside, wp_bind, wp_pure, wp_modify]
    refine ⟨{ tree with subs := tree.subs ++ [b] }, [b], rfl, rfl, ⟨grows_sub tree b, ?_, ?_, rfl, rfl, fun _ member => member⟩, rfl, ?_⟩
    · rw [← count]
      exact links.takeSub double (count ▸ inside) unique (small b List.mem_cons_self)
    · exact (setIndirectEntry_outside inside).mono (by simp)
    · simp [count]
  · simp only [if_neg begins, wp_pure]
    exact ⟨tree, [], rfl, rfl, Below.refl links, rfl, by omega⟩

theorem round_position {held : List Nat} {a1 b1 count at' : Nat} {rest : List Nat} :
    (if at' % 128 + 1 = inodeIndirect1Count then DiskInode.fillIndirect2 held d a1 b1 count (at' / 128 + 1) 0 rest
      else DiskInode.fillIndirect2 held d a1 b1 count (at' / 128) (at' % 128 + 1) rest) =
      DiskInode.fillIndirect2 held d a1 b1 count ((at' + 1) / 128) ((at' + 1) % 128) rest := by
  by_cases last : at' % 128 + 1 = inodeIndirect1Count
  · have wraps : at' % 128 + 1 = 128 := last
    rw [if_pos last, show (at' + 1) / 128 = at' / 128 + 1 by omega, show (at' + 1) % 128 = 0 by omega]
  · have stays : at' % 128 + 1 ≠ 128 := last
    rw [if_neg last, show (at' + 1) / 128 = at' / 128 by omega, show (at' + 1) % 128 = at' % 128 + 1 by omega]

/-- One round: the entry `at'` of the blocks below the double indirect block. -/
theorem fillIndirect2_round {held : List Nat} {count at' upto : Nat} {Q : List Nat → Memory → Prop} {E : FsFault → Prop}
    (links : tree.Links mem) (double : tree.double = some d) (here : tree.data.length = 156 + at')
    (subs : tree.subs.length = (at' + 127) / 128) (more : at' < upto) (bound : upto ≤ 128 * 128)
    (enough : blocks.length = count + 1 + ((upto + 127) / 128 - (at' + 127) / 128)) (unique : (tree.ids ++ blocks).Nodup)
    (small : ∀ b ∈ blocks, b < 2 ^ 32) (free : ∀ id ∈ tree.subs ++ blocks, id ∉ held) (few : held.length < 15)
    (next : ∀ tree' taken rest mem', blocks = taken ++ rest → Below d tree tree' taken mem mem' →
      tree'.data.length = 156 + (at' + 1) → tree'.subs.length = (at' + 1 + 127) / 128 →
      rest.length = count + ((upto + 127) / 128 - (at' + 1 + 127) / 128) →
      wp (DiskInode.fillIndirect2 held d (upto / 128) (upto % 128) count ((at' + 1) / 128) ((at' + 1) % 128) rest) Q E mem') :
    wp (DiskInode.fillIndirect2 held d (upto / 128) (upto % 128) (count + 1) (at' / 128) (at' % 128) blocks) Q E mem := by
  have inside : at' / 128 < upto / 128 ∨ at' / 128 = upto / 128 ∧ at' % 128 < upto % 128 := by omega
  unfold DiskInode.fillIndirect2
  simp only [if_pos inside, wp_bind]
  refine wp_mono (nextSub_spec links double subs (by omega) (fun _ empty => by simp [empty] at enough; omega)
    (index_nodup (List.nodup_append.mp unique).1) small) ?_ fun _ impossible => impossible.elim
  rintro rest mem₁ ⟨tree₁, taken, rfl, size, below, data, subs₁⟩
  have length : rest.length = count + 1 + ((upto + 127) / 128 - (at' / 128 + 1)) := by
    rw [List.length_append, size] at enough
    split_ifs at enough <;> omega
  obtain ⟨b, rest, rfl⟩ := List.exists_cons_of_length_pos (show 0 < rest.length by omega)
  have unique₁ : (tree₁.ids ++ b :: rest).Nodup := by
    rw [← List.append_assoc] at unique
    exact (below.grows.ids.append_right _).nodup_iff.mpr unique
  -- the indirect block of this entry
  obtain ⟨s, sub⟩ : ∃ s, tree₁.subs[at' / 128]? = some s := ⟨_, List.getElem?_eq_getElem (by omega)⟩
  have known : s ∈ tree₁.subs := List.mem_of_getElem? sub
  obtain ⟨_, d', double', entry⟩ := below.links.sub _ s sub
  obtain rfl : d = d' := Option.some.inj (double.symm.trans (below.double.symm.trans double'))
  have locked : s ∉ held := free s (by
    rw [← List.append_assoc]
    exact List.mem_append_left _ (below.subs s known))
  have outer : at' / 128 < inodeIndirect1Count := show _ < 128 by omega
  have inner : at' % 128 < inodeIndirect1Count := Nat.mod_lt _ (by decide)
  simp only [DiskInode.readEntry, if_pos outer, wp_read, entry, wp_lockBlock locked few, DiskInode.nextBlock, wp_pure,
    DiskInode.writeEntry, if_pos inner, wp_modify, round_position]
  have place : tree₁.data.length = 156 + at' := by rw [data, here]
  have linked := below.links.pushSecond (b := b) (by omega) (by rw [place, Nat.add_sub_cancel_left]; exact sub)
    (index_nodup (List.nodup_append.mp unique₁).1) (small b (by simp))
  rw [place, Nat.add_sub_cancel_left] at linked
  have entered : Below d tree₁ (tree₁.push [b]) [b] mem₁ (setIndirectEntry mem₁ s (at' % 128) b) := by
    refine ⟨grows_push tree₁ [b], linked, ?_, rfl, rfl, fun id member => List.mem_append_left _ member⟩
    exact (setIndirectEntry_outside inner).mono (by simpa [push] using Or.inr known)
  apply next _ (taken ++ [b]) rest _ (by simp) (below.trans entered)
  · rw [push, List.length_append, place]
    rfl
  · exact subs₁.trans (by omega)
  · rw [List.length_cons] at length
    omega

/-- The loop over the double indirect block, with `count` data blocks still to come. -/
theorem fillIndirect2_spec {held : List Nat} {count at' upto : Nat} (links : tree.Links mem) (double : tree.double = some d)
    (here : tree.data.length = 156 + at') (subs : tree.subs.length = (at' + 127) / 128) (there : at' + count = upto)
    (bound : upto ≤ 128 * 128) (enough : blocks.length = count + ((upto + 127) / 128 - (at' + 127) / 128))
    (unique : (tree.ids ++ blocks).Nodup) (small : ∀ b ∈ blocks, b < 2 ^ 32) (free : ∀ id ∈ tree.subs ++ blocks, id ∉ held)
    (few : held.length < 15) :
    wp (DiskInode.fillIndirect2 held d (upto / 128) (upto % 128) count (at' / 128) (at' % 128) blocks) (fun _ mem' =>
      ∃ tree', Below d tree tree' blocks mem mem' ∧ tree'.data.length = 156 + upto ∧ tree'.subs.length = (upto + 127) / 128)
      (fun _ => False) mem := by
  induction count generalizing tree mem at' blocks with
  | zero =>
    obtain rfl : at' = upto := there
    obtain rfl : blocks = [] := List.eq_nil_of_length_eq_zero (by omega)
    exact ⟨tree, Below.refl links, here, subs⟩
  | succ count ih =>
    apply fillIndirect2_round links double here subs (by omega) bound enough unique small free few
    rintro tree₁ taken rest mem₁ rfl below here₁ subs₁ left
    have unique₁ : (tree₁.ids ++ rest).Nodup := by
      rw [← List.append_assoc] at unique
      exact (below.grows.ids.append_right rest).nodup_iff.mpr unique
    have free₁ : ∀ id ∈ tree₁.subs ++ rest, id ∉ held := by
      intro id member
      apply free
      rw [← List.append_assoc]
      rcases List.mem_append.mp member with sub | later
      · exact List.mem_append_left _ (below.subs id sub)
      · exact List.mem_append_right _ later
    refine wp_mono (ih below.links (below.double.trans double) here₁ subs₁ (by omega) left unique₁
      (fun b member => small b (List.mem_append_right _ member)) free₁) ?_ fun _ impossible => impossible
    rintro _ mem' ⟨tree', below', data, subs'⟩
    exact ⟨tree', below.trans below', data, subs'⟩

/-! ### `increase_size` -/

/-- `tree'` is `tree` with the blocks of `taken`, and the index blocks have been written accordingly. -/
structure Added (tree tree' : BlockTree) (taken : List Nat) (mem mem' : Memory) : Prop where
  grows : tree.Grows tree' taken
  links : tree'.Links mem'
  index : ∀ id ∈ tree.index, id ∈ tree'.index
  outside : Outside tree'.index mem mem'

theorem Added.refl (links : tree.Links mem) : Added tree tree [] mem mem :=
  ⟨Grows.refl tree, links, fun _ member => member, Outside.refl _ _⟩

theorem Added.trans {more : List Nat} {mem'' : Memory} (first : Added tree tree' blocks mem mem')
    (second : Added tree' tree'' more mem' mem'') : Added tree tree'' (blocks ++ more) mem mem'' :=
  ⟨first.grows.trans second.grows, second.links, fun id member => second.index id (first.index id member),
    (first.outside.mono second.index).trans second.outside⟩

theorem Added.unique {rest : List Nat} (added : Added tree tree' blocks mem mem') (unique : (tree.ids ++ (blocks ++ rest)).Nodup) :
    (tree'.ids ++ rest).Nodup := by
  rw [← List.append_assoc] at unique
  exact (added.grows.ids.append_right rest).nodup_iff.mpr unique

theorem Below.added (below : Below d tree tree' blocks mem mem') (double : tree.double = some d) : Added tree tree' blocks mem mem' := by
  refine ⟨below.grows, below.links, ?_, ?_⟩
  · intro id member
    rw [mem_index] at member ⊢
    rw [below.single, below.double]
    exact member.imp_right (Or.imp_right fun sub => below.grows.subs.subset sub)
  · apply below.outside.mono
    intro id member
    rw [mem_index, below.double]
    rcases List.mem_cons.mp member with rfl | sub
    · exact Or.inr (Or.inl double)
    · exact Or.inr (Or.inr sub)

/-- Blocks behind the direct ones do not show in the inode. -/
theorem inode_extends (pre : tree.data <+: tree'.data) (long : 28 ≤ tree.data.length) (single : tree'.single = tree.single)
    (double : tree'.double = tree.double) : tree'.inode size type = tree.inode size type := by
  have direct : (List.range inodeDirectCount).map (tree'.data.getD · 0) = (List.range inodeDirectCount).map (tree.data.getD · 0) := by
    apply List.map_congr_left
    intro j inside
    have low : j < 28 := List.mem_range.mp inside
    obtain ⟨later, joined⟩ := pre
    rw [← joined, List.getD_append _ _ _ _ (by omega)]
  rw [inode, inode, direct, single, double]

theorem nextIndirect2_spec {current : Nat} (links : tree.Links mem) (present : tree.double.isSome = true ↔ 128 < current)
    (low : 128 ≤ current) (enough : current = 128 → blocks ≠ []) :
    wp ((tree.inode size type).nextIndirect2 current blocks) (fun result mem' => ∃ tree' taken d, blocks = taken ++ result.2 ∧
      taken.length = (if current = 128 then 1 else 0) ∧ result.1 = tree'.inode size type ∧ Added tree tree' taken mem mem' ∧ mem' = mem ∧
      tree' = { tree with double := some d }) (fun _ => False) mem := by
  unfold DiskInode.nextIndirect2
  by_cases first : current = inodeIndirect1Count
  · have begins : current = 128 := first
    obtain ⟨b, rest, rfl⟩ := List.exists_cons_of_ne_nil (enough begins)
    have none : tree.double = none := by
      cases double : tree.double with
      | none => rfl
      | some d =>
        rw [double] at present
        have := present.mp rfl
        omega
    simp only [if_pos first, DiskInode.nextBlock, wp_bind, wp_pure]
    refine ⟨{ tree with double := some b }, [b], b, rfl, by simp [begins], rfl, ?_, trivial, rfl⟩
    refine ⟨grows_double none, links.takeDouble none b, ?_, Outside.refl _ _⟩
    intro id member
    rw [mem_index, none] at member
    rw [mem_index]
    exact member.imp_right fun other => Or.inr (other.resolve_left (by simp))
  · have later : current ≠ 128 := first
    obtain ⟨d, double⟩ := Option.isSome_iff_exists.mp (present.mpr (by omega))
    simp only [if_neg first, wp_pure]
    exact ⟨tree, [], d, rfl, by simp [later], rfl, Added.refl links, trivial, by rw [← double]⟩

theorem nextIndirect1_spec {current : Nat} (links : tree.Links mem) (present : tree.single.isSome = true ↔ 28 < current)
    (low : 28 ≤ current) (enough : current = 28 → blocks ≠ []) :
    wp ((tree.inode size type).nextIndirect1 current blocks) (fun result mem' => ∃ tree' taken s, blocks = taken ++ result.2 ∧
      taken.length = (if current = 28 then 1 else 0) ∧ result.1 = tree'.inode size type ∧ Added tree tree' taken mem mem' ∧ mem' = mem ∧
      tree' = { tree with single := some s }) (fun _ => False) mem := by
  unfold DiskInode.nextIndirect1
  by_cases first : current = inodeDirectCount
  · have begins : current = 28 := first
    obtain ⟨b, rest, rfl⟩ := List.exists_cons_of_ne_nil (enough begins)
    have none : tree.single = none := by
      cases single : tree.single with
      | none => rfl
      | some s =>
        rw [single] at present
        have := present.mp rfl
        omega
    simp only [if_pos first, DiskInode.nextBlock, wp_bind, wp_pure]
    refine ⟨{ tree with single := some b }, [b], b, rfl, by simp [begins], rfl, ?_, trivial, rfl⟩
    refine ⟨grows_single none, links.takeSingle none b, ?_, Outside.refl _ _⟩
    intro id member
    rw [mem_index, none] at member
    rw [mem_index]
    exact Or.inr (member.resolve_left (by simp))
  · have later : current ≠ 28 := first
    obtain ⟨s, single⟩ := Option.isSome_iff_exists.mp (present.mpr (by omega))
    simp only [if_neg first, wp_pure]
    exact ⟨tree, [], s, rfl, by simp [later], rfl, Added.refl links, trivial, by rw [← single]⟩

theorem increaseIndirect2_spec {held : List Nat} {at' upto : Nat} (links : tree.Links mem) (exact : tree.Exact)
    (here : tree.data.length = 156 + at') (le : at' ≤ upto) (more : 0 < upto) (bound : upto ≤ 128 * 128)
    (enough : blocks.length = totalOf (156 + upto) - totalOf (156 + at')) (unique : (tree.ids ++ blocks).Nodup)
    (small : ∀ b ∈ blocks, b < 2 ^ 32) (free : ∀ id ∈ tree.ids ++ blocks, id ∉ held) (few : held.length < 14) :
    wp ((tree.inode size type).increaseIndirect2 held (128 + at') (128 + upto) blocks) (fun inode mem' => ∃ tree',
      inode = tree'.inode size type ∧ Added tree tree' blocks mem mem' ∧ tree'.Exact ∧ tree'.data.length = 156 + upto)
      (fun _ => False) mem := by
  unfold totalOf at enough
  rw [if_pos (by omega), if_pos (by omega), if_pos (by omega), Nat.add_sub_cancel_left, Nat.add_sub_cancel_left] at enough
  unfold DiskInode.increaseIndirect2
  refine wp_bind.mpr (wp_mono (nextIndirect2_spec links ?_ (Nat.le_add_right 128 at') ?_) ?_ fun _ impossible => impossible)
  · rw [exact.double]
    omega
  · rintro first rfl
    rw [List.length_nil, if_neg (by omega)] at enough
    omega
  rintro ⟨inode₁, rest⟩ mem₁ ⟨tree₁, taken, d, rfl, length, rfl, added, rfl, rfl⟩
  dsimp only at enough unique small free
  generalize made : ({ tree with double := some d } : BlockTree) = tree₁ at added
  have double : tree₁.double = some d := by rw [← made]
  have here₁ : tree₁.data.length = 156 + at' := by rw [← made, here]
  have subs₁ : tree₁.subs.length = (at' + 127) / 128 := by
    rw [← made, exact.subs, here, Nat.add_sub_cancel_left]
  have unique₁ : (tree₁.ids ++ rest).Nodup := added.unique unique
  have held₁ : ∀ id ∈ tree₁.ids ++ rest, id ∉ held := by
    intro id member
    apply free
    rw [← List.append_assoc]
    exact ((added.grows.ids.append_right rest).mem_iff).mp member
  have known : d ∈ tree₁.ids := mem_ids.mpr (Or.inr (mem_index.mpr (Or.inr (Or.inl double))))
  have left : rest.length = upto - at' + ((upto + 127) / 128 - (at' + 127) / 128) := by
    rw [List.length_append, length] at enough
    split_ifs at enough <;> omega
  have free₁ : ∀ id ∈ tree₁.subs ++ rest, id ∉ d :: held := by
    intro id member
    obtain ⟨inner, _, apart⟩ := List.nodup_append.mp unique₁
    rcases List.mem_append.mp member with sub | later
    · have listed : id ∈ tree₁.ids := mem_ids.mpr (Or.inr (mem_index.mpr (Or.inr (Or.inr sub))))
      refine List.not_mem_cons_of_ne_of_not_mem ?_ (held₁ id (List.mem_append_left _ listed))
      rintro rfl
      exact (index_unique (index_nodup inner)).2.2.1 id double sub
    · exact List.not_mem_cons_of_ne_of_not_mem (apart d known id later).symm (held₁ id (List.mem_append_right _ later))
  have width : inodeIndirect1Count = 128 := rfl
  have block : (tree₁.inode size type).indirect2 = d := by simp [inode, double]
  simp only [block, width, wp_bind, wp_sub32 (Nat.le_add_right 128 _), Nat.add_sub_cancel_left,
    wp_lockBlock (held₁ d (List.mem_append_left _ known)) (show held.length < 15 by omega)]
  refine wp_mono (fillIndirect2_spec added.links double here₁ subs₁ (by omega) bound left unique₁
    (fun b inside => small b (List.mem_append_right _ inside)) free₁ (by simp; omega)) ?_ fun _ impossible => impossible
  rintro _ mem' ⟨tree', below, data, subs⟩
  refine ⟨tree', ?_, added.trans (below.added double), ⟨?_, ?_, ?_⟩, data⟩
  · exact (inode_extends below.grows.data (by omega) below.single below.double).symm
  · rw [below.single, ← made, exact.single]
    omega
  · rw [below.double, double, data]
    simp [more]
  · rw [subs, data, Nat.add_sub_cancel_left]

theorem Added.free {rest held : List Nat} (added : Added tree tree' blocks mem mem') (free : ∀ id ∈ tree.ids ++ (blocks ++ rest), id ∉ held) :
    ∀ id ∈ tree'.ids ++ rest, id ∉ held := by
  intro id member
  apply free
  rw [← List.append_assoc]
  exact ((added.grows.ids.append_right rest).mem_iff).mp member

theorem increaseIndirect1_spec {held : List Nat} {current total : Nat} (links : tree.Links mem) (exact : tree.Exact)
    (here : tree.data.length = current) (low : 28 ≤ current) (le : current ≤ total) (more : 28 < total) (bound : total ≤ maxBlocks)
    (enough : blocks.length = totalOf total - totalOf current) (unique : (tree.ids ++ blocks).Nodup)
    (small : ∀ b ∈ blocks, b < 2 ^ 32) (free : ∀ id ∈ tree.ids ++ blocks, id ∉ held) (few : held.length < 14) :
    wp ((tree.inode size type).increaseIndirect1 held current total blocks) (fun inode mem' => ∃ tree',
      inode = tree'.inode size type ∧ Added tree tree' blocks mem mem' ∧ tree'.Exact ∧ tree'.data.length = total)
      (fun _ => False) mem := by
  have limit : maxBlocks = 156 + 128 * 128 := rfl
  unfold DiskInode.increaseIndirect1
  refine wp_bind.mpr (wp_mono (nextIndirect1_spec links (here ▸ exact.single) low ?_) ?_ fun _ impossible => impossible)
  · rintro first rfl
    unfold totalOf at enough
    rw [List.length_nil] at enough
    split_ifs at enough <;> omega
  rintro ⟨inode₁, rest⟩ mem₁ ⟨tree₁, taken, s, rfl, length, rfl, added, rfl, rfl⟩
  dsimp only at enough unique small free
  generalize made : ({ tree with single := some s } : BlockTree) = tree₁ at added
  have single : tree₁.single = some s := by rw [← made]
  have here₁ : tree₁.data.length = current := by rw [← made, here]
  have unique₁ : (tree₁.ids ++ rest).Nodup := added.unique unique
  have held₁ : ∀ id ∈ tree₁.ids ++ rest, id ∉ held := added.free free
  have known : s ∈ tree₁.ids := mem_ids.mpr (Or.inr (mem_index.mpr (Or.inl single)))
  have block : (tree₁.inode size type).indirect1 = s := by simp [inode, single]
  have width : inodeIndirect1Count = 128 := rfl
  have direct : inodeDirectCount = 28 := rfl
  simp only [block, width, direct, wp_bind, wp_sub32 low, wp_sub32 (Nat.le_of_lt more),
    wp_lockBlock (held₁ s (List.mem_append_left _ known)) (show held.length < 15 by omega)]
  -- the data blocks that go into the single indirect block
  obtain ⟨fill, filled⟩ : ∃ fill, fill = max current (min total 156) := ⟨_, rfl⟩
  have left : rest.length + totalOf current + (if current = 28 then 1 else 0) = totalOf total := by
    have mono := totalOf_mono le
    rw [List.length_append, length] at enough
    omega
  have room : fill - current ≤ rest.length := by
    unfold totalOf at left
    split_ifs at left <;> omega
  obtain ⟨part, later, rfl, count⟩ : ∃ part later, rest = part ++ later ∧ part.length = fill - current :=
    ⟨rest.take (fill - current), rest.drop (fill - current), (List.take_append_drop _ _).symm, List.length_take_of_le room⟩
  have counted : max (current - 28) (min (total - 28) 128) - (current - 28) = part.length := by omega
  have reached : max (current - 28) (min (total - 28) 128) = fill - 28 := by omega
  rw [counted, reached, ← here₁]
  refine wp_mono (fillIndirect1_spec added.links single (by omega) (fun some => ?_) (index_nodup (List.nodup_append.mp unique₁).1)
    fun b inside => small b (by simp [inside])) ?_ fun _ impossible => impossible
  · have positive := List.length_pos_iff.mpr some
    omega
  rintro next mem₂ ⟨given, linked, outside⟩
  obtain rfl : later = next := given.symm
  have added₂ : Added tree₁ (tree₁.push part) part mem₁ mem₂ := by
    refine ⟨grows_push tree₁ part, linked, fun _ member => member, outside.mono fun id member => ?_⟩
    rw [List.mem_singleton.mp member]
    exact mem_index.mpr (Or.inl single)
  have reached₂ : (tree₁.push part).data.length = fill := by
    rw [push, List.length_append, here₁]
    omega
  have exact₂ : (tree₁.push part).Exact := by
    refine ⟨?_, ?_, ?_⟩
    · rw [reached₂, push, single]
      simp only [Option.isSome_some, true_iff]
      omega
    · rw [reached₂, push, ← made, exact.double]
      omega
    · rw [reached₂, push, ← made, exact.subs]
      omega
  have same : (tree₁.push part).inode size type = tree₁.inode size type :=
    inode_extends (grows_push tree₁ part).data (by omega) rfl rfl
  rw [List.length_append] at left
  by_cases last : total - 28 ≤ 128
  · rw [if_pos last]
    obtain rfl : later = [] := by
      apply List.eq_nil_of_length_eq_zero
      unfold totalOf at left
      split_ifs at left <;> omega
    refine ⟨tree₁.push part, same.symm, added.trans ?_, exact₂, by omega⟩
    rwa [List.append_nil]
  · rw [if_neg last, ← same]
    obtain ⟨at', rfl⟩ : ∃ at', fill = 156 + at' := ⟨fill - 156, by omega⟩
    obtain ⟨upto, rfl⟩ : ∃ upto, total = 156 + upto := ⟨total - 156, by omega⟩
    have remaining : later.length = totalOf (156 + upto) - totalOf (156 + at') := by
      unfold totalOf at left ⊢
      split_ifs at left ⊢ <;> omega
    rw [show 156 + at' - 28 = 128 + at' by omega, show 156 + upto - 28 = 128 + upto by omega]
    refine wp_mono (increaseIndirect2_spec added₂.links exact₂ reached₂ (by omega) (by omega) (by omega) remaining (added₂.unique unique₁)
      (fun b inside => small b (by simp [inside])) (added₂.free held₁) few) ?_ fun _ impossible => impossible
    rintro inode mem' ⟨tree', made', added', exact', data⟩
    exact ⟨tree', made', added.trans (added₂.trans added'), exact', data⟩

/-! ### Sizes -/

theorem dataBlocksOf_spec {Q : Nat → Memory → Prop} {E : FsFault → Prop} (fits : size + 512 < 2 ^ 32) :
    wp (DiskInode.dataBlocksOf size) Q E mem ↔ Q (blocksOf size) mem := by
  have width : blockSz = 512 := rfl
  have rounded : (size + 512 - 1) / 512 = blocksOf size := rfl
  rw [DiskInode.dataBlocksOf, width, wp_bind, wp_add32 fits, rounded]
  exact Iff.rfl

theorem blocksOf_mono {newSize : Nat} (le : size ≤ newSize) : blocksOf size ≤ blocksOf newSize :=
  Nat.div_le_div_right (Nat.add_le_add_right le 511)

theorem totalBlocks_spec {Q : Nat → Memory → Prop} {E : FsFault → Prop} (fits : size + 512 < 2 ^ 32) :
    wp (DiskInode.totalBlocks size) Q E mem ↔ Q (totalOf (blocksOf size)) mem := by
  have few : totalOf (blocksOf size) < 2 ^ 32 := by
    unfold totalOf blocksOf
    split_ifs <;> omega
  have total : (blocksOf size + (if inodeDirectCount < blocksOf size then 1 else 0) + if indirect1Bound < blocksOf size then
      1 + (blocksOf size - indirect1Bound + inodeIndirect1Count - 1) / inodeIndirect1Count else 0) % 2 ^ 32 = totalOf (blocksOf size) :=
    Nat.mod_eq_of_lt few
  rw [DiskInode.totalBlocks, wp_bind, dataBlocksOf_spec fits, wp_pure, total]

theorem blocksNumNeeded_spec {inode : DiskInode} {newSize : Nat} {Q : Nat → Memory → Prop} {E : FsFault → Prop}
    (le : inode.size ≤ newSize) (fits : newSize + 512 < 2 ^ 32) :
    wp (inode.blocksNumNeeded newSize) Q E mem ↔ Q (totalOf (blocksOf newSize) - totalOf (blocksOf inode.size)) mem := by
  have mono := totalOf_mono (blocksOf_mono le)
  rw [DiskInode.blocksNumNeeded, if_pos le, wp_bind, totalBlocks_spec fits, wp_bind,
    totalBlocks_spec (Nat.lt_of_le_of_lt (Nat.add_le_add_right le 512) fits)]
  exact wp_sub32 mono

/-- `increase_size` with as many new blocks as it needs uses all of them. -/
theorem increaseSize_spec {held : List Nat} {newSize : Nat} (links : tree.Links mem) (exact : tree.Exact)
    (here : tree.data.length = blocksOf size) (le : size ≤ newSize) (bound : blocksOf newSize ≤ maxBlocks)
    (enough : blocks.length = totalOf (blocksOf newSize) - totalOf (blocksOf size)) (unique : (tree.ids ++ blocks).Nodup)
    (small : ∀ b ∈ blocks, b < 2 ^ 32) (free : ∀ id ∈ tree.ids ++ blocks, id ∉ held) (few : held.length < 14) :
    wp ((tree.inode size type).increaseSize held newSize blocks) (fun inode mem' => ∃ tree', inode = tree'.inode newSize type ∧
      Added tree tree' blocks mem mem' ∧ tree'.Exact ∧ tree'.data.length = blocksOf newSize) (fun _ => False) mem := by
  have limit : maxBlocks = 156 + 128 * 128 := rfl
  have fits : newSize + 512 < 2 ^ 32 := by
    unfold blocksOf at bound
    omega
  have mono := blocksOf_mono le
  have direct : inodeDirectCount = 28 := rfl
  have first : (tree.inode size type).size = size := rfl
  have second : ({ tree.inode size type with size := newSize } : DiskInode) = tree.inode newSize type := rfl
  simp only [DiskInode.increaseSize, DiskInode.dataBlocks, wp_bind, first, second, direct, dataBlocksOf_spec fits,
    dataBlocksOf_spec (show size + 512 < 2 ^ 32 by omega)]
  -- the direct blocks
  obtain ⟨fill, filled⟩ : ∃ fill, fill = max (blocksOf size) (min (blocksOf newSize) 28) := ⟨_, rfl⟩
  have total := totalOf_mono mono
  have room : fill - blocksOf size ≤ blocks.length := by
    unfold totalOf at enough total
    split_ifs at enough total <;> omega
  obtain ⟨part, later, rfl, count⟩ : ∃ part later, blocks = part ++ later ∧ part.length = fill - blocksOf size :=
    ⟨blocks.take (fill - blocksOf size), blocks.drop (fill - blocksOf size), (List.take_append_drop _ _).symm, List.length_take_of_le room⟩
  rw [← filled, ← count, ← here, fillDirect_spec]
  have reached : (tree.push part).data.length = fill := by
    rw [push, List.length_append, here]
    omega
  have added : Added tree (tree.push part) part mem mem := by
    refine ⟨grows_push tree part, ?_, fun _ member => member, Outside.refl _ _⟩
    by_cases none : part = []
    · rw [none, push, List.append_nil]
      exact links
    · have positive := List.length_pos_iff.mpr none
      exact links.pushDirect (by omega)
  have exact₁ : (tree.push part).Exact := by
    refine ⟨?_, ?_, ?_⟩
    · rw [reached, push, exact.single]
      omega
    · rw [reached, push, exact.double]
      omega
    · rw [reached, push, exact.subs]
      omega
  rw [List.length_append] at enough
  by_cases few' : blocksOf newSize ≤ 28
  · rw [if_pos few']
    obtain rfl : later = [] := by
      apply List.eq_nil_of_length_eq_zero
      unfold totalOf at enough
      split_ifs at enough <;> omega
    refine ⟨tree.push part, rfl, ?_, exact₁, by omega⟩
    rwa [List.append_nil]
  · rw [if_neg few']
    have remaining : later.length = totalOf (blocksOf newSize) - totalOf fill := by
      unfold totalOf at enough total ⊢
      split_ifs at enough total ⊢ <;> omega
    refine wp_mono (increaseIndirect1_spec added.links exact₁ reached (by omega) (by omega) (by omega) bound remaining (added.unique unique)
      (fun b inside => small b (by simp [inside])) (added.free free) few) ?_ fun _ impossible => impossible
    rintro inode mem' ⟨tree', made', added', exact', data⟩
    exact ⟨tree', made', added.trans added', exact', data⟩

end

end BlockTree

end SecureIpc.EasyFs

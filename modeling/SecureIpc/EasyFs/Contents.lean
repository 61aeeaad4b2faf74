import SecureIpc.EasyFs.Release
import SecureIpc.Lib.ByteString

/-! The bytes of a file, read and written block by block. -/

namespace SecureIpc.EasyFs
open Lib

namespace BlockTree

/-- The bytes of a file as a memory of its own. -/
def view (tree : BlockTree) (mem : Memory) : Memory := fun i => mem (blockAddr (tree.data.getD (i / 512) 0) + i % 512)

section
variable {tree : BlockTree} {mem mem' : Memory} {held ids : List Nat} {size start stop b i : Nat} {type : DiskInodeType}

theorem view_congr (same : ∀ x, x / 512 ∈ tree.data → mem' x = mem x) (inside : i < 512 * tree.data.length) :
    tree.view mem' i = tree.view mem i := by
  have bound : i / 512 < tree.data.length := by omega
  apply same
  rw [List.getD_eq_getElem _ _ bound, show (blockAddr tree.data[i / 512] + i % 512) / 512 = tree.data[i / 512] by
    unfold blockAddr blockSz
    omega]
  exact List.getElem_mem bound

theorem view_frame (outside : Outside ids mem mem') (apart : ∀ id ∈ tree.data, id ∉ ids) (inside : i < 512 * tree.data.length) :
    tree.view mem' i = tree.view mem i :=
  view_congr (fun x mine => outside x (apart _ mine)) inside

theorem view_extends {tree' : BlockTree} (pre : tree.data <+: tree'.data) (inside : i < 512 * tree.data.length) :
    tree'.view mem i = tree.view mem i := by
  have bound : i / 512 < tree.data.length := by omega
  have found : tree'.data[i / 512]? = tree.data[i / 512]? := by
    obtain ⟨rest, whole⟩ := pre
    rw [← whole, List.getElem?_append_left bound]
  simp only [view, List.getD, found]

theorem load_block {count : Nat} (found : tree.data[start / 512]? = some b) (inside : start % 512 + count ≤ 512) :
    mem.load (blockAddr b + start % 512) count = (tree.view mem).load start count := by
  apply List.map_congr_left
  intro i member
  have low := List.mem_range.mp member
  have block : (start + i) / 512 = start / 512 := by omega
  simp only [view, List.getD, block, found, Option.getD_some]
  rw [show blockAddr b + start % 512 + i = blockAddr b + (start + i) % 512 by omega]

theorem store_block {bytes : List UInt8} (unique : tree.data.Nodup) (found : tree.data[start / 512]? = some b)
    (inside : start % 512 + bytes.length ≤ 512) (here : i < 512 * tree.data.length) :
    tree.view (mem.store (blockAddr b + start % 512) bytes) i = (tree.view mem).store start bytes i := by
  have bound : i / 512 < tree.data.length := by omega
  by_cases same : i / 512 = start / 512
  · have place : tree.data.getD (i / 512) 0 = b := by simp [List.getD, same, found]
    simp only [view, place, Memory.store]
    by_cases stored : start ≤ i ∧ i < start + bytes.length
    · rw [if_pos (by omega), if_pos stored]
      congr 1
      omega
    · rw [if_neg (by omega), if_neg stored]
  · -- another block of the file is another block of the disk
    have other : tree.data[i / 512] ≠ b := by
      intro equal
      obtain ⟨bound', at'⟩ := List.getElem?_eq_some_iff.mp found
      exact same ((List.Nodup.getElem_inj_iff unique).mp (equal.trans at'.symm))
    rw [@Memory.store_outside (tree.view mem) start i bytes (by omega)]
    simp only [view, List.getD_eq_getElem _ _ bound]
    apply Memory.store_outside
    unfold blockAddr blockSz
    omega

/-! ### `read_at` -/

section
variable (links : tree.Links mem) (limit : tree.data.length ≤ maxBlocks) (free : ∀ id ∈ tree.ids, id ∉ held) (few : held.length < 15)
include links limit free few

theorem block_spec {α : Type} {next : Nat → FsM α} {Q : α → Memory → Prop} {E : FsFault → Prop} (found : tree.data[start / 512]? = some b) :
    wp ((tree.inode size type).getBlockId held (start / 512 % 2 ^ 32) >>= fun id => lockBlock held id >>= fun _ => next id) Q E mem ↔
      wp (next b) Q E mem := by
  have bound := (List.getElem?_eq_some_iff.mp found).1
  have small : start / 512 % 2 ^ 32 = start / 512 := by
    apply Nat.mod_eq_of_lt
    unfold maxBlocks at limit
    omega
  have indexFree : ∀ id ∈ tree.index, id ∉ held := fun id member => free id (mem_ids.mpr (Or.inr member))
  have dataFree : b ∉ held := free b (mem_ids.mpr (Or.inl (List.mem_of_getElem? found)))
  rw [small, wp_bind, links.getBlockId found indexFree few, wp_bind, wp_lockBlock dataFree few]

theorem readBlocks_spec {fuel : Nat} {Q : List UInt8 → Memory → Prop} {E : FsFault → Prop} (less : start < stop)
    (inside : stop ≤ 512 * tree.data.length) (enough : stop / 512 - start / 512 ≤ fuel) :
    wp ((tree.inode size type).readBlocks held stop fuel (start / 512) start) Q E mem ↔
      Q ((tree.view mem).load start (stop - start)) mem := by
  induction fuel generalizing start Q with
  | zero =>
    have bound : start / 512 < tree.data.length := by omega
    have last : min ((start / blockSz + 1) * blockSz) stop = stop := by
      unfold blockSz
      omega
    unfold DiskInode.readBlocks
    rw [last, block_spec links limit free few (List.getElem?_eq_getElem bound)]
    simp only [wp_bind, wp_read, if_pos, wp_pure]
    rw [show start % blockSz = start % 512 from rfl, load_block (List.getElem?_eq_getElem bound) (by omega)]
  | succ fuel ih =>
    have bound : start / 512 < tree.data.length := by omega
    have size' : blockSz = 512 := rfl
    unfold DiskInode.readBlocks
    rw [block_spec links limit free few (List.getElem?_eq_getElem bound)]
    simp only [wp_bind, wp_read, size', load_block (List.getElem?_eq_getElem bound)
      (show start % 512 + (min ((start / 512 + 1) * 512) stop - start) ≤ 512 by omega)]
    by_cases last : min ((start / 512 + 1) * 512) stop = stop
    · rw [if_pos last, last, wp_pure]
    · have next : min ((start / 512 + 1) * 512) stop = (start / 512 + 1) * 512 := by omega
      have later := @ih ((start / 512 + 1) * 512) (fun bytes mem' => Q ((tree.view mem).load start ((start / 512 + 1) * 512 - start) ++ bytes) mem')
        (by omega) (by omega)
      rw [Nat.mul_div_cancel _ (by decide : 0 < 512)] at later
      rw [if_neg last, next, wp_bind]
      simp only [wp_pure]
      rw [later]
      have split : stop - start = ((start / 512 + 1) * 512 - start) + (stop - (start / 512 + 1) * 512) := by omega
      rw [split, Memory.load_add, show start + ((start / 512 + 1) * 512 - start) = (start / 512 + 1) * 512 by omega]

/-- `read_at` returns the bytes of the file in the stretch, as far as the file goes. -/
theorem readAt_spec {offset len : Nat} {Q : List UInt8 → Memory → Prop} {E : FsFault → Prop} (here : tree.data.length = blocksOf size)
    (fits : offset + len < 2 ^ 64) :
    wp ((tree.inode size type).readAt held offset len) Q E mem ↔ Q (slice ((tree.view mem).load 0 size) offset len) mem := by
  have sum : checkedAdd offset len = some (offset + len) := if_pos fits
  have count : (tree.inode size type).size = size := rfl
  rw [slice_load]
  simp only [DiskInode.readAt, sum, Option.elim, wp_bind, wp_lift_ok, count]
  by_cases past : min (offset + len) size ≤ offset
  · rw [if_pos past, show min (offset + len) size - offset = 0 by omega]
    exact Iff.rfl
  · rw [if_neg past]
    apply readBlocks_spec links limit free few (by omega)
    · rw [here]
      unfold blocksOf
      omega
    · exact Nat.le_refl _

end

/-! ### `write_at` -/

/-- The bytes at `offset` of the file have become `buf`, and nothing else has changed. -/
structure Wrote (tree : BlockTree) (mem mem' : Memory) (offset : Nat) (buf : List UInt8) : Prop where
  view : ∀ i < 512 * tree.data.length, tree.view mem' i = (tree.view mem).store offset buf i
  outside : Outside tree.data mem mem'

theorem Wrote.append {offset : Nat} {first second : List UInt8} {mem'' : Memory} (write : Wrote tree mem mem' offset first)
    (later : Wrote tree mem' mem'' (offset + first.length) second) : Wrote tree mem mem'' offset (first ++ second) := by
  refine ⟨fun i inside => ?_, write.outside.trans later.outside⟩
  rw [later.view i inside, Memory.store_append]
  unfold Memory.store
  split
  · rfl
  · exact write.view i inside

theorem wrote_block {bytes : List UInt8} (unique : tree.data.Nodup) (found : tree.data[start / 512]? = some b)
    (inside : start % 512 + bytes.length ≤ 512) : Wrote tree mem (mem.store (blockAddr b + start % 512) bytes) start bytes := by
  refine ⟨fun i here => store_block unique found inside here, (store_outsideBlock inside).mono ?_⟩
  intro id member
  rw [List.mem_singleton.mp member]
  exact List.mem_of_getElem? found

theorem Wrote.links {offset : Nat} {buf : List UInt8} (write : Wrote tree mem mem' offset buf) (links : tree.Links mem)
    (unique : tree.ids.Nodup) : tree.Links mem' := by
  refine links.frame write.outside ?_
  intro id index data
  exact (List.nodup_append.mp unique).2.2 id data id index rfl

/-- The loop writes the bytes up to `stop`. -/
theorem writeBlocks_spec {fuel : Nat} {buf : List UInt8} (links : tree.Links mem) (unique : tree.ids.Nodup)
    (limit : tree.data.length ≤ maxBlocks) (free : ∀ id ∈ tree.ids, id ∉ held) (few : held.length < 15) (less : start < stop)
    (long : stop ≤ start + buf.length) (inside : stop ≤ 512 * tree.data.length) (enough : stop / 512 - start / 512 ≤ fuel) :
    wp ((tree.inode size type).writeBlocks held stop fuel (start / 512) start buf)
      (fun _ mem' => Wrote tree mem mem' start (buf.take (stop - start))) (fun _ => False) mem := by
  have distinct : tree.data.Nodup := (List.nodup_append.mp unique).1
  induction fuel generalizing start buf mem with
  | zero =>
    have bound : start / 512 < tree.data.length := by omega
    have last : min ((start / blockSz + 1) * blockSz) stop = stop := by
      unfold blockSz
      omega
    unfold DiskInode.writeBlocks
    simp only [last, if_pos]
    rw [block_spec links limit free few (List.getElem?_eq_getElem bound)]
    simp only [wp_bind, wp_modify, wp_pure]
    rw [show start % blockSz = start % 512 from rfl]
    exact wrote_block distinct (List.getElem?_eq_getElem bound) (by rw [List.length_take]; omega)
  | succ fuel ih =>
    have bound : start / 512 < tree.data.length := by omega
    have size' : blockSz = 512 := rfl
    have first : (buf.take (min ((start / 512 + 1) * 512) stop - start)).length = min ((start / 512 + 1) * 512) stop - start := by
      rw [List.length_take]
      omega
    have write := @wrote_block tree mem start _ (buf.take (min ((start / 512 + 1) * 512) stop - start)) distinct
      (List.getElem?_eq_getElem bound) (by omega)
    unfold DiskInode.writeBlocks
    rw [block_spec links limit free few (List.getElem?_eq_getElem bound)]
    simp only [wp_bind, wp_modify, size']
    by_cases last : min ((start / 512 + 1) * 512) stop = stop
    · rw [if_pos last, wp_pure]
      rwa [last] at write ⊢
    · have next : min ((start / 512 + 1) * 512) stop = (start / 512 + 1) * 512 := by omega
      rw [if_neg last]
      rw [next] at first write ⊢
      have later := @ih _ ((start / 512 + 1) * 512) (buf.drop ((start / 512 + 1) * 512 - start)) (write.links links unique) (by omega)
        (by rw [List.length_drop]; omega) (by omega)
      rw [Nat.mul_div_cancel _ (by decide : 0 < 512)] at later
      refine wp_mono later ?_ fun _ impossible => impossible
      intro _ mem' rest
      have split : stop - start = ((start / 512 + 1) * 512 - start) + (stop - (start / 512 + 1) * 512) := by omega
      rw [split, List.take_add]
      apply write.append
      rwa [first, show start + ((start / 512 + 1) * 512 - start) = (start / 512 + 1) * 512 by omega]

/-- Locking a block and reading an entry leave the disk alone. -/
theorem lockBlock_keeps {id : Nat} : wp (lockBlock held id) (fun _ mem' => mem' = mem) (fun _ => True) mem := by
  unfold lockBlock
  split_ifs <;> simp

theorem readEntry_keeps {id j : Nat} : wp (DiskInode.readEntry id j) (fun _ mem' => mem' = mem) (fun _ => True) mem := by
  unfold DiskInode.readEntry
  split_ifs <;> simp

theorem getBlockId_keeps {inode : DiskInode} {j : Nat} : wp (inode.getBlockId held j) (fun _ mem' => mem' = mem) (fun _ => True) mem := by
  unfold DiskInode.getBlockId
  dsimp only
  generalize (j - indirect1Bound) % inodeIndirect1Count = column
  split_ifs
  · rfl
  · refine wp_bind.mpr (wp_mono lockBlock_keeps ?_ fun _ _ => trivial)
    rintro _ _ rfl
    exact readEntry_keeps
  · refine wp_bind.mpr (wp_mono lockBlock_keeps ?_ fun _ _ => trivial)
    rintro _ _ rfl
    refine wp_bind.mpr (wp_mono readEntry_keeps ?_ fun _ _ => trivial)
    rintro _ _ rfl
    refine wp_bind.mpr (wp_mono lockBlock_keeps ?_ fun _ _ => trivial)
    rintro _ _ rfl
    exact readEntry_keeps

/-- Where there is nothing to write, the one round that is made leaves the disk alone. -/
theorem writeBlocks_nothing {fuel : Nat} {inode : DiskInode} {buf : List UInt8} :
    wp (inode.writeBlocks held start fuel (start / 512) start buf) (fun _ mem' => mem' = mem) (fun _ => True) mem := by
  have last : min ((start / blockSz + 1) * blockSz) start = start := by
    unfold blockSz
    omega
  have nothing : ∀ addr, mem.store addr (buf.take (start - start)) = mem := by
    intro addr
    rw [Nat.sub_self, List.take_zero]
    exact Memory.store_load_same mem addr 0
  unfold DiskInode.writeBlocks
  simp only [last, if_pos, wp_bind, wp_pure]
  refine wp_mono getBlockId_keeps ?_ fun _ _ => trivial
  rintro id _ rfl
  refine wp_mono lockBlock_keeps ?_ fun _ _ => trivial
  rintro _ _ rfl
  exact nothing _

/-- `write_at` writes what lies inside the file, and stops only for an empty buffer or one that reaches behind the end. -/
theorem writeAt_spec {offset : Nat} {buf : List UInt8} (links : tree.Links mem) (unique : tree.ids.Nodup)
    (limit : tree.data.length ≤ maxBlocks) (free : ∀ id ∈ tree.ids, id ∉ held) (few : held.length < 15)
    (here : tree.data.length = blocksOf size) :
    wp ((tree.inode size type).writeAt held offset buf) (fun written mem' => written = min (offset + buf.length) size - offset ∧
      Wrote tree mem mem' offset (buf.take written)) (fun _ => ¬(buf ≠ [] ∧ offset + buf.length ≤ size)) mem := by
  have count : (tree.inode size type).size = size := rfl
  have room : size ≤ 512 * tree.data.length := by
    rw [here]
    unfold blocksOf
    omega
  unfold maxBlocks at limit
  rw [DiskInode.writeAt, count]
  by_cases fits : offset + buf.length < 2 ^ 64
  · have sum : checkedAdd offset buf.length = some (offset + buf.length) := if_pos fits
    simp only [sum, Option.elim, wp_bind, wp_lift_ok]
    generalize reach : min (offset + buf.length) size = stop
    by_cases inside : offset ≤ stop
    · rw [if_pos inside, wp_bind]
      rcases Nat.eq_or_lt_of_le inside with rfl | less
      · refine wp_mono writeBlocks_nothing ?_ fun _ _ both => ?_
        · rintro _ _ rfl
          refine ⟨rfl, fun i _ => ?_, Outside.refl _ _⟩
          rw [Nat.sub_self, List.take_zero, Memory.store_outside (by simp only [List.length_nil]; omega)]
        · have positive := List.length_pos_iff.mpr both.1
          omega
      · refine wp_mono (writeBlocks_spec links unique limit free few less (by omega) (by omega) (Nat.le_refl _)) ?_ fun _ impossible => impossible.elim
        exact fun _ mem' write => ⟨rfl, write⟩
    · rw [if_neg inside]
      exact fun both => inside (by omega)
  · have sum : checkedAdd offset buf.length = none := if_neg fits
    simp only [sum, Option.elim, wp_bind, wp_lift_error]
    omega

end

end BlockTree

end SecureIpc.EasyFs

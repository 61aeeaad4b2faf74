import SecureIpc.EasyFs.BlockCache

/-! The block cache refines the blocks themselves. -/

namespace SecureIpc.EasyFs
open Lib

/-- How the cache stands for the blocks: each cached block has one entry in the queue, and a block that
is not cached, or not modified in the cache, is on the device. -/
structure Represents (s : CacheState) (a : Blocks) : Prop where
  ids : (s.queue.map Prod.fst).Nodup
  refs : (s.queue.map Prod.snd).Nodup
  small : s.queue.length ≤ blockCacheSize
  cached : ∀ {id ref}, (id, ref) ∈ s.queue → ∃ cache, s.caches ref = some cache ∧ cache.blockId = id ∧
    cache.cache = a.contents id ∧ (cache.modified = false → s.device id = a.contents id)
  live : ∀ {ref cache}, s.caches ref = some cache → ref ∈ s.queue.map Prod.snd
  fresh : ∀ {ref}, s.nextCache ≤ ref → s.caches ref = none
  uncached : ∀ {id}, id ∉ s.queue.map Prod.fst → s.device id = a.contents id
  held : List.Forall₂ (fun id ref => (id, ref) ∈ s.queue) a.held s.handles

variable {s : CacheState} {a : Blocks} {id ref : Nat}

theorem wp_cacheAt {Q : BlockCache → CacheState → Prop} {E : CacheFault → Prop} {cache : BlockCache}
    (found : s.caches ref = some cache) : wp (cacheAt ref) Q E s ↔ Q cache s := by
  simp only [cacheAt, wp_bind, wp_read, found, wp_pure]

theorem wp_handleAt {Q : Nat → CacheState → Prop} {E : CacheFault → Prop} {handle : Nat}
    (found : s.handles[handle]? = some ref) : wp (handleAt handle) Q E s ↔ Q ref s := by
  simp only [handleAt, wp_bind, wp_read, found, wp_pure]

namespace Represents

/-! ### Entries -/

theorem id_mem (entry : (id, ref) ∈ s.queue) : id ∈ s.queue.map Prod.fst := List.mem_map_of_mem entry

theorem ref_mem (entry : (id, ref) ∈ s.queue) : ref ∈ s.queue.map Prod.snd := List.mem_map_of_mem entry

theorem same_id {other : Nat} (rep : Represents s a) (entry : (id, ref) ∈ s.queue) (entry' : (other, ref) ∈ s.queue) :
    other = id := by
  obtain ⟨cache, found, block, _⟩ := rep.cached entry
  obtain ⟨cache', found', block', _⟩ := rep.cached entry'
  obtain rfl := Option.some.inj (found.symm.trans found')
  exact block'.symm.trans block

theorem same_ref {other : Nat} (rep : Represents s a) (entry : (id, ref) ∈ s.queue) (entry' : (id, other) ∈ s.queue) :
    other = ref := by
  have equal := List.inj_on_of_nodup_map rep.ids entry entry' rfl
  exact (Prod.mk.inj equal).2.symm

theorem handle (rep : Represents s a) {handle : Nat} (inside : handle < a.held.length) :
    ∃ ref, s.handles[handle]? = some ref ∧ (a.held.getD handle 0, ref) ∈ s.queue := by
  obtain ⟨same, each⟩ := List.forall₂_iff_get.mp rep.held
  have inside' : handle < s.handles.length := same ▸ inside
  refine ⟨s.handles[handle], List.getElem?_eq_getElem inside', ?_⟩
  rw [List.getD_eq_getElem?_getD, List.getElem?_eq_getElem inside]
  exact each handle inside inside'

/-! ### Counting references -/

theorem count_queue (rep : Represents s a) (entry : (id, ref) ∈ s.queue) :
    s.queue.countP (fun pair => pair.2 == ref) = 1 := by
  have counted : (s.queue.map Prod.snd).count ref = 1 := List.count_eq_one_of_mem rep.refs (ref_mem entry)
  rw [List.count, List.countP_map] at counted
  exact counted

theorem strongCount_eq (rep : Represents s a) (entry : (id, ref) ∈ s.queue) :
    s.strongCount ref = 1 + s.handles.count ref := by
  rw [CacheState.strongCount, rep.count_queue entry]

/-- With fewer than 16 blocks held, a full queue has an entry that no one holds. -/
theorem unheld (rep : Represents s a) (few : a.held.dedup.length < blockCacheSize) (full : s.queue.length = blockCacheSize) :
    ∃ pair ∈ s.queue, s.strongCount pair.2 = 1 := by
  by_contra none
  push Not at none
  have subset : s.queue.map Prod.fst ⊆ a.held.dedup := by
    intro id mem
    obtain ⟨⟨_, ref⟩, entry, rfl⟩ := List.mem_map.mp mem
    have counted := none _ entry
    rw [rep.strongCount_eq entry] at counted
    have holds : ref ∈ s.handles := List.count_pos_iff.mp (by omega)
    obtain ⟨handle, inside, rfl⟩ := List.mem_iff_getElem.mp holds
    obtain ⟨same, each⟩ := List.forall₂_iff_get.mp rep.held
    have entry' := each handle (same ▸ inside) inside
    rw [List.mem_dedup, rep.same_id entry' entry]
    exact List.getElem_mem _
  have bound := (List.subperm_of_subset rep.ids subset).length_le
  rw [List.length_map, full] at bound
  exact absurd few (Nat.not_lt.mpr bound)

/-! ### Writing back -/

/-- A cache that is written back, or has nothing to write back, is on the device. -/
theorem synced {cache : BlockCache} (block : cache.blockId = id) (same : cache.cache = a.contents id)
    (clean : cache.modified = false → s.device id = a.contents id) :
    (cache.sync s.device).2 = Function.update s.device id (a.contents id) ∧
      (cache.sync s.device).1 = { cache with modified := false } := by
  unfold BlockCache.sync
  split_ifs with modified
  · rw [block, same]
    exact ⟨rfl, rfl⟩
  · have unmodified : cache.modified = false := Bool.eq_false_iff.mpr modified
    rw [← clean unmodified, Function.update_eq_self, ← unmodified]
    exact ⟨rfl, rfl⟩

theorem syncCache_rule {Q : Unit → CacheState → Prop} {E : CacheFault → Prop} (rep : Represents s a)
    (entry : (id, ref) ∈ s.queue)
    (next : ∀ s', Represents s' a → s'.queue = s.queue → s'.device = Function.update s.device id (a.contents id) → Q () s') :
    wp (syncCache ref) Q E s := by
  obtain ⟨cache, found, block, same, clean⟩ := rep.cached entry
  obtain ⟨device, written⟩ := synced block same clean
  simp only [syncCache, wp_bind, wp_cacheAt found, wp_modify, device, written]
  refine next _ ⟨rep.ids, rep.refs, rep.small, ?_, ?_, ?_, ?_, rep.held⟩ rfl rfl
  · intro id' ref' entry'
    dsimp only
    by_cases which : ref' = ref
    · subst which
      obtain rfl := rep.same_id entry entry'
      exact ⟨_, Function.update_self .., block, same, fun _ => Function.update_self ..⟩
    · have other : id' ≠ id := by
        rintro rfl
        exact which (rep.same_ref entry entry')
      rw [Function.update_of_ne which, Function.update_of_ne other]
      exact rep.cached entry'
  · intro ref' cache' found'
    dsimp only at found' ⊢
    by_cases which : ref' = ref
    · rw [which]
      exact ref_mem entry
    · rw [Function.update_of_ne which] at found'
      exact rep.live found'
  · intro ref' large
    have which : ref' ≠ ref := by
      rintro rfl
      rw [rep.fresh large] at found
      cases found
    dsimp only
    rw [Function.update_of_ne which]
    exact rep.fresh large
  · intro id' absent
    have other : id' ≠ id := by
      rintro rfl
      exact absent (id_mem entry)
    dsimp only
    rw [Function.update_of_ne other]
    exact rep.uncached absent

/-- Writing back entry by entry: those behind are on the device. -/
theorem syncEntries_rule {Q : Unit → CacheState → Prop} {E : CacheFault → Prop} {entries : List (Nat × Nat)}
    (rep : Represents s a) (inside : entries ⊆ s.queue)
    (next : ∀ s', Represents s' a → s'.queue = s.queue → (∀ id ∈ entries.map Prod.fst, s'.device id = a.contents id) →
      (∀ id, s.device id = a.contents id → s'.device id = a.contents id) → Q () s') :
    wp (syncEntries entries) Q E s := by
  induction entries generalizing s with
  | nil => exact next s rep rfl nofun fun _ same => same
  | cons pair rest ih =>
    obtain ⟨id, ref⟩ := pair
    have entry := inside (List.mem_cons_self ..)
    apply wp_bind.mpr
    refine rep.syncCache_rule entry fun s₁ rep₁ queue₁ device₁ => ?_
    have kept : ∀ other, s.device other = a.contents other ∨ other = id → s₁.device other = a.contents other := by
      intro other written
      rw [device₁]
      by_cases which : other = id
      · rw [which, Function.update_self]
      · rw [Function.update_of_ne which]
        exact written.resolve_right which
    refine ih rep₁ (fun pair mem => queue₁ ▸ inside (List.mem_cons_of_mem _ mem)) fun s₂ rep₂ queue₂ done keeps => ?_
    refine next s₂ rep₂ (queue₂.trans queue₁) ?_ fun other same => keeps other (kept other (Or.inl same))
    intro other mem
    rcases List.mem_cons.mp mem with rfl | later
    · exact keeps _ (kept _ (Or.inr rfl))
    · exact done other later

theorem syncAll_rule {Q : Unit → CacheState → Prop} {E : CacheFault → Prop} (rep : Represents s a)
    (next : ∀ s', Represents s' a → s'.device = a.contents → Q () s') : wp blockCacheSyncAll Q E s := by
  simp only [blockCacheSyncAll, wp_bind, wp_read]
  refine rep.syncEntries_rule (fun _ mem => mem) fun s' rep' queue done _ => ?_
  refine next s' rep' (funext fun id => ?_)
  by_cases mem : id ∈ s.queue.map Prod.fst
  · exact done id mem
  · exact rep'.uncached (queue ▸ mem)

/-! ### Eviction -/

theorem nodup (rep : Represents s a) : s.queue.Nodup := List.Nodup.of_map _ rep.ids

theorem mem_erase (rep : Represents s a) {pair entry : Nat × Nat} : pair ∈ s.queue.erase entry ↔ pair ≠ entry ∧ pair ∈ s.queue :=
  rep.nodup.mem_erase_iff

theorem evict_rule {Q : Unit → CacheState → Prop} {E : CacheFault → Prop} (rep : Represents s a)
    (entry : (id, ref) ∈ s.queue) (unheld : ref ∉ s.handles)
    (next : ∀ s', Represents s' a → s'.queue = s.queue.erase (id, ref) → Q () s') :
    wp (dropRef ref) Q E { s with queue := s.queue.erase (id, ref) } := by
  obtain ⟨cache, found, block, same, clean⟩ := rep.cached entry
  obtain ⟨device, _⟩ := synced block same clean
  have others : ∀ pair ∈ s.queue.erase (id, ref), pair.2 ≠ ref := by
    rintro ⟨id', ref'⟩ mem rfl
    obtain ⟨different, mem'⟩ := rep.mem_erase.mp mem
    exact different (by rw [rep.same_id entry mem'])
  have free : CacheState.strongCount { s with queue := s.queue.erase (id, ref) } ref = 0 := by
    have none : (s.queue.erase (id, ref)).countP (fun pair => pair.2 == ref) = 0 :=
      List.countP_eq_zero.mpr fun pair mem equal => others pair mem (beq_iff_eq.mp equal)
    rw [CacheState.strongCount, none, List.count_eq_zero.mpr unheld]
  have sublist := List.erase_sublist (l := s.queue) (a := (id, ref))
  simp only [dropRef, syncCache, wp_bind, wp_read, free, if_true, wp_cacheAt (s := { s with queue := s.queue.erase (id, ref) }) found,
    wp_modify, device, Function.update_idem]
  refine next _ ⟨rep.ids.sublist (sublist.map _), rep.refs.sublist (sublist.map _),
    Nat.le_trans sublist.length_le rep.small, ?_, ?_, ?_, ?_, ?_⟩ rfl
  · intro id' ref' entry'
    obtain ⟨different, mem⟩ := rep.mem_erase.mp entry'
    have other : id' ≠ id := by
      rintro rfl
      exact different (by rw [rep.same_ref entry mem])
    dsimp only
    rw [Function.update_of_ne (others _ entry'), Function.update_of_ne other]
    exact rep.cached mem
  · intro ref' cache' found'
    dsimp only at found' ⊢
    by_cases which : ref' = ref
    · rw [which, Function.update_self] at found'
      cases found'
    · rw [Function.update_of_ne which] at found'
      obtain ⟨⟨id', _⟩, mem, rfl⟩ := List.mem_map.mp (rep.live found')
      exact List.mem_map.mpr ⟨_, rep.mem_erase.mpr ⟨fun equal => which (Prod.mk.inj equal).2, mem⟩, rfl⟩
  · intro ref' large
    dsimp only
    by_cases which : ref' = ref
    · rw [which, Function.update_self]
    · rw [Function.update_of_ne which]
      exact rep.fresh large
  · intro id' absent
    dsimp only
    by_cases which : id' = id
    · rw [which, Function.update_self]
    · rw [Function.update_of_ne which]
      refine rep.uncached fun mem => absent ?_
      obtain ⟨⟨_, ref'⟩, mem', rfl⟩ := List.mem_map.mp mem
      exact List.mem_map.mpr ⟨_, rep.mem_erase.mpr ⟨fun equal => which (Prod.mk.inj equal).1, mem'⟩, rfl⟩
  · obtain ⟨same, each⟩ := List.forall₂_iff_get.mp rep.held
    refine List.forall₂_iff_get.mpr ⟨same, fun handle inside inside' => rep.mem_erase.mpr ⟨?_, each handle inside inside'⟩⟩
    intro equal
    exact unheld ((Prod.mk.inj equal).2 ▸ List.getElem_mem _)

/-! ### Getting a block -/

theorem hold (rep : Represents s a) (entry : (id, ref) ∈ s.queue) :
    Represents { s with handles := s.handles ++ [ref] } { a with held := a.held ++ [id] } :=
  ⟨rep.ids, rep.refs, rep.small, rep.cached, rep.live, rep.fresh, rep.uncached,
    List.rel_append rep.held (.cons entry .nil)⟩

theorem load (rep : Represents s a) (absent : id ∉ s.queue.map Prod.fst) (room : s.queue.length < blockCacheSize) :
    Represents
      { s with
        caches := Function.update s.caches s.nextCache (some (.new id s.device)), nextCache := s.nextCache + 1
        queue := s.queue ++ [(id, s.nextCache)], handles := s.handles ++ [s.nextCache] }
      { a with held := a.held ++ [id] } := by
  have unused : s.nextCache ∉ s.queue.map Prod.snd := by
    intro mem
    obtain ⟨⟨id', ref'⟩, entry, equal⟩ := List.mem_map.mp mem
    obtain ⟨cache, found, _⟩ := rep.cached entry
    rw [rep.fresh (Nat.le_of_eq equal.symm)] at found
    cases found
  refine ⟨?_, ?_, ?_, ?_, ?_, ?_, ?_, ?_⟩
  · rw [List.map_append]
    exact rep.ids.append (List.nodup_singleton _) (List.disjoint_singleton.mpr absent)
  · rw [List.map_append]
    exact rep.refs.append (List.nodup_singleton _) (List.disjoint_singleton.mpr unused)
  · rw [List.length_append]
    exact room
  · intro id' ref' entry
    dsimp only
    rcases List.mem_append.mp entry with old | new
    · have which : ref' ≠ s.nextCache := fun equal => unused (equal ▸ ref_mem old)
      rw [Function.update_of_ne which]
      exact rep.cached old
    · obtain ⟨rfl, rfl⟩ := Prod.mk.inj (List.mem_singleton.mp new)
      exact ⟨_, Function.update_self .., rfl, rep.uncached absent, fun _ => rep.uncached absent⟩
  · intro ref' cache found
    dsimp only at found ⊢
    rw [List.map_append, List.mem_append]
    by_cases which : ref' = s.nextCache
    · exact Or.inr (List.mem_singleton.mpr which)
    · rw [Function.update_of_ne which] at found
      exact Or.inl (rep.live found)
  · intro ref' large
    dsimp only at large ⊢
    rw [Function.update_of_ne (by omega)]
    exact rep.fresh (by omega)
  · intro id' other
    rw [List.map_append, List.mem_append, not_or] at other
    exact rep.uncached other.1
  · refine List.rel_append (rep.held.imp fun _ _ mem => List.mem_append_left _ mem) (.cons ?_ .nil)
    exact List.mem_append_right _ (List.mem_singleton_self _)

theorem getBlockCache_rule {Q : Unit → CacheState → Prop} {E : CacheFault → Prop} (rep : Represents s a)
    (few : a.held.dedup.length < blockCacheSize)
    (next : ∀ s', Represents s' { a with held := a.held ++ [id] } → Q () s') : wp (getBlockCache id) Q E s := by
  simp only [getBlockCache, wp_bind, wp_read]
  cases cached : s.queue.find? fun pair => pair.1 == id with
  | some pair =>
    obtain ⟨id', ref⟩ := pair
    obtain rfl : id' = id := by simpa using List.find?_some cached
    exact next _ (rep.hold (List.mem_of_find?_eq_some cached))
  | none =>
    have absent : id ∉ s.queue.map Prod.fst := by
      intro mem
      obtain ⟨pair, entry, equal⟩ := List.mem_map.mp mem
      simpa [equal] using List.find?_eq_none.mp cached pair entry
    dsimp only
    rw [wp_ite]
    split_ifs with full
    · obtain ⟨pair, entry, counted⟩ := rep.unheld few full
      cases searched : s.queue.findIdx? fun pair => s.strongCount pair.2 == 1 with
      | none =>
        have all := List.findIdx?_eq_none_iff.mp searched pair entry
        rw [counted] at all
        cases all
      | some idx =>
        obtain ⟨inside, single, _⟩ := List.findIdx?_eq_some_iff_getElem.mp searched
        obtain ⟨victim, at_idx⟩ : ∃ victim, s.queue[idx] = victim := ⟨_, rfl⟩
        have entry : (victim.1, victim.2) ∈ s.queue := at_idx ▸ List.getElem_mem inside
        have unheld : victim.2 ∉ s.handles := by
          rw [at_idx, beq_iff_eq, rep.strongCount_eq entry] at single
          exact List.count_eq_zero.mp (by omega)
        have erased : s.queue.eraseIdx idx = s.queue.erase (victim.1, victim.2) := by
          rw [← rep.nodup.erase_getElem idx inside, at_idx]
        have ref : (s.queue.getD idx (0, 0)).2 = victim.2 := by
          rw [List.getD_eq_getElem?_getD, List.getElem?_eq_getElem inside, at_idx]
          rfl
        simp only [wp_bind, wp_modify, erased, ref]
        refine rep.evict_rule entry unheld fun s₁ rep₁ queue₁ => next _ (rep₁.load ?_ ?_)
        · intro mem
          rw [queue₁] at mem
          exact absent ((List.erase_sublist.map _).subset mem)
        · rw [queue₁, List.length_erase_of_mem entry, full]
          decide
    · exact next _ (rep.load absent (Nat.lt_of_le_of_ne rep.small full))

/-! ### Using and releasing a block -/

theorem write (rep : Represents s a) {cache : BlockCache} {block : Block} (entry : (id, ref) ∈ s.queue)
    (same : cache.blockId = id) (modified : cache.modified = true) (equal : cache.cache = block) :
    Represents { s with caches := Function.update s.caches ref (some cache) }
      { a with contents := Function.update a.contents id block } := by
  refine ⟨rep.ids, rep.refs, rep.small, ?_, ?_, ?_, ?_, rep.held⟩
  · intro id' ref' entry'
    dsimp only
    by_cases which : ref' = ref
    · subst which
      obtain rfl := rep.same_id entry entry'
      rw [Function.update_self, Function.update_self]
      refine ⟨cache, rfl, same, equal, fun clean => ?_⟩
      rw [modified] at clean
      cases clean
    · have other : id' ≠ id := by
        rintro rfl
        exact which (rep.same_ref entry entry')
      rw [Function.update_of_ne which, Function.update_of_ne other]
      exact rep.cached entry'
  · intro ref' cache' found'
    dsimp only at found' ⊢
    by_cases which : ref' = ref
    · rw [which]
      exact ref_mem entry
    · rw [Function.update_of_ne which] at found'
      exact rep.live found'
  · intro ref' large
    have which : ref' ≠ ref := by
      rintro rfl
      obtain ⟨_, found, _⟩ := rep.cached entry
      rw [rep.fresh large] at found
      cases found
    dsimp only
    rw [Function.update_of_ne which]
    exact rep.fresh large
  · intro id' absent
    have other : id' ≠ id := by
      rintro rfl
      exact absent (id_mem entry)
    dsimp only
    rw [Function.update_of_ne other]
    exact rep.uncached absent

theorem forall₂_eraseIdx {α β : Type} {R : α → β → Prop} {xs : List α} {ys : List β} (all : List.Forall₂ R xs ys) (i : Nat) :
    List.Forall₂ R (xs.eraseIdx i) (ys.eraseIdx i) := by
  induction all generalizing i with
  | nil => exact .nil
  | cons first rest ih =>
    cases i with
    | zero => exact rest
    | succ i => exact .cons first (ih i)

/-- The queue keeps the cache when a handle is released. -/
theorem release_rule {Q : Unit → CacheState → Prop} {E : CacheFault → Prop} {handle : Nat} (rep : Represents s a)
    (entry : (id, ref) ∈ s.queue)
    (next : ∀ s', Represents s' { a with held := a.held.eraseIdx handle } → Q () s') :
    wp (dropRef ref) Q E { s with handles := s.handles.eraseIdx handle } := by
  have released : Represents { s with handles := s.handles.eraseIdx handle } { a with held := a.held.eraseIdx handle } :=
    ⟨rep.ids, rep.refs, rep.small, rep.cached, rep.live, rep.fresh, rep.uncached, forall₂_eraseIdx rep.held handle⟩
  have counted : ¬CacheState.strongCount { s with handles := s.handles.eraseIdx handle } ref = 0 := by
    rw [released.strongCount_eq entry]
    omega
  simp only [dropRef, wp_bind, wp_read, counted, if_false, wp_pure]
  exact next _ released

end Represents

/-- The operations of the cache are those of the blocks. -/
theorem cache_refines : Refines execOp blocks Represents := by
  intro s a op rep allowed
  obtain ⟨few, _, usable⟩ := allowed
  suffices spec : wp (execOp op) (fun r s' => r = (a.step op).1 ∧ Represents s' (a.step op).2) (fun _ => False) s by
    obtain ⟨_, s', run, rfl, rep'⟩ := wp_returns spec
    exact ⟨s', run, rep'⟩
  cases op with
  | get blockId =>
    simp only [execOp, wp_bind, wp_pure]
    exact rep.getBlockCache_rule few fun s' rep' => ⟨rfl, rep'⟩
  | read handle offset size =>
    obtain ⟨inside, fits⟩ := usable
    obtain ⟨ref, found, entry⟩ := rep.handle inside
    obtain ⟨cache, cached, _, same, _⟩ := rep.cached entry
    simp only [execOp, wp_bind, wp_handleAt found, wp_cacheAt cached, BlockCache.read, if_pos fits, wp_lift_ok]
    rw [same]
    exact ⟨rfl, rep⟩
  | modify handle offset size f =>
    obtain ⟨inside, fits⟩ := usable
    obtain ⟨ref, found, entry⟩ := rep.handle inside
    obtain ⟨cache, cached, block, same, _⟩ := rep.cached entry
    simp only [execOp, wp_bind, wp_handleAt found, wp_cacheAt cached, BlockCache.modify, if_pos fits, wp_lift_ok, wp_modify,
      wp_pure]
    refine ⟨rfl, rep.write entry block rfl ?_⟩
    dsimp only
    rw [same]
  | release handle =>
    obtain ⟨ref, found, entry⟩ := rep.handle usable
    simp only [execOp, wp_bind, wp_handleAt found, wp_modify, wp_pure]
    exact rep.release_rule entry fun s' rep' => ⟨rfl, rep'⟩
  | syncAll =>
    simp only [execOp, wp_bind, wp_pure]
    exact rep.syncAll_rule fun s' rep' _ => ⟨rfl, rep'⟩

def CacheState.start (device : Nat → Block) : CacheState :=
  { device, caches := fun _ => none, nextCache := 0, queue := [], handles := [] }

theorem start_represents (device : Nat → Block) : Represents (.start device) ⟨device, []⟩ :=
  ⟨List.nodup_nil, List.nodup_nil, Nat.zero_le _, nofun, nofun, fun _ => rfl, fun _ => rfl, .nil⟩

/-- Any use of the cache that holds fewer than 16 blocks at a time returns what the blocks themselves
would, the queue keeps one entry for each block it caches and every held one among them, and writing
back makes the device equal to the blocks. -/
theorem cache_transparent (device : Nat → Block) (ops : List CacheOp) (allows : blocks.Allows ⟨device, []⟩ ops) :
    ∃ s, execAll execOp ops (.start device) = .ok ((blocks.run ⟨device, []⟩ ops).1, s) ∧
      (s.queue.map Prod.fst).Nodup ∧ s.queue.length ≤ blockCacheSize ∧
      List.Forall₂ (fun id ref => (id, ref) ∈ s.queue) (blocks.run ⟨device, []⟩ ops).2.held s.handles ∧
      ∃ s', blockCacheSyncAll s = .ok ((), s') ∧ s'.device = (blocks.run ⟨device, []⟩ ops).2.contents := by
  obtain ⟨s, run, rep⟩ := cache_refines.run (start_represents device) allows
  have spec : wp blockCacheSyncAll (fun _ s' => s'.device = (blocks.run ⟨device, []⟩ ops).2.contents) (fun _ => False) s :=
    rep.syncAll_rule fun _ _ same => same
  obtain ⟨_, s', synced, same⟩ := wp_returns spec
  exact ⟨s, run, rep.ids, rep.small, rep.held, s', synced, same⟩

instance (self : Blocks) (op : CacheOp) : Decidable (blocks.allowed self op) := by
  cases op <;> exact inferInstanceAs (Decidable (_ ∧ _ ∧ _))

instance decidableAllows : (self : Blocks) → (ops : List CacheOp) → Decidable (blocks.Allows self ops)
  | _, [] => inferInstanceAs (Decidable True)
  | self, op :: rest =>
    have : Decidable (blocks.Allows (blocks.step self op).2 rest) := decidableAllows _ rest
    inferInstanceAs (Decidable (_ ∧ _))

/-- A byte of block 5 is written, 17 other blocks are used one after the other, and the block is read again. -/
def evictingOps : List CacheOp :=
  [.get 5, .modify 0 1 1 fun _ => [7], .release 0] ++ (List.range' 6 17).flatMap (fun id => [.get id, .release 0]) ++
    [.get 5, .read 0 0 3, .release 0]

/-- The block has been written back when its cache was given up. -/
theorem cache_transparent_evicted : ∃ s, execAll execOp evictingOps (.start fun _ => List.replicate 512 1) =
      .ok (List.replicate 37 [] ++ [[], [1, 7, 1], []], s) ∧ s.queue.length ≤ 16 ∧
    ∃ s', blockCacheSyncAll s = .ok ((), s') ∧ s'.device 5 = [1, 7] ++ List.replicate 510 1 := by
  have allows : blocks.Allows ⟨fun _ => List.replicate 512 1, []⟩ evictingOps := by decide +kernel
  obtain ⟨s, run, _, small, _, s', synced, device⟩ := cache_transparent _ _ allows
  have results : (blocks.run ⟨fun _ => List.replicate 512 1, []⟩ evictingOps).1 = List.replicate 37 [] ++ [[], [1, 7, 1], []] := by
    decide +kernel
  have contents : (blocks.run ⟨fun _ => List.replicate 512 1, []⟩ evictingOps).2.contents 5 = [1, 7] ++ List.replicate 510 1 := by
    decide +kernel
  rw [results] at run
  rw [← device] at contents
  exact ⟨s, run, small, s', synced, contents⟩

end SecureIpc.EasyFs

import SecureIpc.Mm.Mapping

/-!
Mapping and unmapping the pages of an area: each page gets a frame of its own, and the rest of the
table and the frames of others stay as they are.
-/

namespace SecureIpc
open Lib

/-- The frames an area takes when it maps the pages from `start` on to `targets`. -/
def MapArea.taken (self : MapArea) (start : Nat) (targets : List Nat) : List (Nat × Nat) :=
  match self.mapType with
  | .identical => []
  | .framed => (List.range' start targets.length).zip targets

/-- The area and the table after the pages from `start` on have been mapped to `targets`. -/
structure Maps (layout : Layout) (mm mm' : Mm) (table table' : PageTable) (area area' : MapArea) (start : Nat)
    (targets : List Nat) : Prop where
  evolves : (frameStore layout).Evolves mm mm' (table.frames ++ area.frames) (table'.frames ++ area'.frames)
  tree : ∃ path, Tree mm'.mem table'.rootPpn table'.frames path
  root : table'.rootPpn = table.rootPpn
  area_eq : area' = { area with dataFrames := area.dataFrames ++ area.taken start targets }
  identical : area.mapType = .identical → targets = List.range' start targets.length
  free : ∀ i < targets.length, (table.leaf mm.mem (start + i)).isValid = false
  mapped : ∀ i (inside : i < targets.length),
    table'.leaf mm'.mem (start + i) = .new targets[i] (area.mapPerm ||| PTEFlags.V)
  other : ∀ v < 2 ^ 27, v < start ∨ start + targets.length ≤ v → table'.leaf mm'.mem v = table.leaf mm.mem v
  zero : area.mapType = .framed → ∀ target ∈ targets, ∀ x, x / 4096 = target → mm'.mem x = 0
  same : ∀ p ∈ area.frames, (frameStore layout).content mm' p = (frameStore layout).content mm p

def MapFault (leaf : Nat → PageTableEntry) (start count : Nat) (fault : Fault) : Prop :=
  fault = .outOfFrames ∨ fault = .alreadyMapped ∧ ∃ i < count, (leaf (start + i)).isValid = true

section
variable {layout : Layout} {mm mm₁ mm₂ : Mm} {table table₁ table₂ : PageTable} {area area₁ area₂ : MapArea}
variable {path : Nat → List Nat} {vpn target : Nat} {targets : List Nat}

theorem mod_page_eq {v vpn : Nat} (low : v < 2 ^ 27) (low' : vpn < 2 ^ 27) : v % 2 ^ 27 = vpn % 2 ^ 27 ↔ v = vpn := by
  rw [Nat.mod_eq_of_lt low, Nat.mod_eq_of_lt low']

theorem taken_cons (area : MapArea) (vpn target : Nat) (targets : List Nat) :
    area.taken vpn (target :: targets) = area.taken vpn [target] ++ area.taken (vpn + 1) targets := by
  unfold MapArea.taken
  cases area.mapType with
  | identical => rfl
  | framed => rfl

theorem Maps.nil (tree : Tree mm.mem table.rootPpn table.frames path)
    (owns : (frameStore layout).Owns mm (table.frames ++ area.frames)) (vpn : Nat) :
    Maps layout mm mm table table area area vpn [] := by
  have none : area.taken vpn [] = [] := by
    unfold MapArea.taken
    cases area.mapType <;> rfl
  refine ⟨.refl owns, ⟨path, tree⟩, rfl, ?_, fun _ => rfl, nofun, nofun, fun _ _ _ => rfl, nofun, fun _ _ => rfl⟩
  rw [none, List.append_nil]

theorem Maps.after (first : Maps layout mm mm₁ table table₁ area area₁ vpn [target]) {i : Nat}
    (low : vpn + 1 + i < 2 ^ 27) : table₁.leaf mm₁.mem (vpn + 1 + i) = table.leaf mm.mem (vpn + (i + 1)) := by
  rw [first.other (vpn + 1 + i) low (Or.inr (Nat.le_add_right _ i)), Nat.add_right_comm]
  rfl

theorem Maps.cons (first : Maps layout mm mm₁ table table₁ area area₁ vpn [target])
    (rest : Maps layout mm₁ mm₂ table₁ table₂ area₁ area₂ (vpn + 1) targets) (fits : vpn + 1 + targets.length ≤ 2 ^ 27) :
    Maps layout mm mm₂ table table₂ area area₂ vpn (target :: targets) := by
  have kind : area₁.mapType = area.mapType := by rw [first.area_eq]
  have perm : area₁.mapPerm = area.mapPerm := by rw [first.area_eq]
  have frames : area₁.frames = area.frames ++ (area.taken vpn [target]).map Prod.snd := by
    rw [first.area_eq, MapArea.frames, List.map_append]
    rfl
  refine ⟨first.evolves.trans rest.evolves, rest.tree, rest.root.trans first.root, ?_, ?_, ?_, ?_, ?_, ?_, ?_⟩
  · have more : area₁.taken (vpn + 1) targets = area.taken (vpn + 1) targets := by
      unfold MapArea.taken
      rw [kind]
    rw [rest.area_eq, more, first.area_eq, taken_cons area vpn target targets, List.append_assoc]
  · intro identical
    have one := first.identical identical
    have later := rest.identical (kind.trans identical)
    rw [List.length_cons, List.range'_succ, ← later]
    exact congrArg (· :: targets) (List.cons.inj one).1
  · intro i inside
    cases i with
    | zero => exact first.free 0 Nat.one_pos
    | succ i =>
      have before := rest.free i (Nat.lt_of_succ_lt_succ inside)
      rw [List.length_cons] at inside
      rwa [first.after (by omega)] at before
  · intro i inside
    cases i with
    | zero =>
      have here := first.mapped 0 Nat.one_pos
      rw [rest.other _ (by omega) (Or.inl (by omega))]
      exact here
    | succ i =>
      have later := rest.mapped i (Nat.lt_of_succ_lt_succ inside)
      rw [show vpn + 1 + i = vpn + (i + 1) by omega, perm] at later
      exact later
  · intro v low outside
    rw [List.length_cons] at outside
    rw [rest.other v low (by omega), first.other v low (by rw [List.length_singleton]; omega)]
  · intro framed goal member x onFrame
    rcases List.mem_cons.mp member with rfl | later
    · have cleared := first.zero framed goal (List.mem_singleton_self goal) x onFrame
      have owned : goal ∈ area₁.frames := by
        rw [frames]
        refine List.mem_append_right _ ?_
        unfold MapArea.taken
        rw [framed]
        exact List.mem_singleton_self goal
      rw [mem_of_content (rest.same goal owned) onFrame]
      exact cleared
    · exact rest.zero (kind.trans framed) goal later x onFrame
  · intro p owned
    have still : p ∈ area₁.frames := by
      rw [frames]
      exact List.mem_append_left _ owned
    exact (rest.same p still).trans (first.same p owned)

theorem Extends.frame {path' : Nat → List Nat} {X : List Nat} (grown : Extends layout mm mm₁ table table₁ path path')
    (owns : (frameStore layout).Owns mm (table.frames ++ X)) :
    (frameStore layout).Evolves mm mm₁ (table.frames ++ X) (table₁.frames ++ X) ∧
      ∀ p ∈ X, (frameStore layout).content mm₁ p = (frameStore layout).content mm p :=
  ⟨grown.evolves.frame owns, fun _ member => grown.evolves.frame_same owns member⟩

theorem mapOne_spec (tree : Tree mm.mem table.rootPpn table.frames path)
    (owns : (frameStore layout).Owns mm (table.frames ++ area.frames)) (perm : area.mapPerm < 32) (low : vpn < 2 ^ 27) :
    wp (area.mapOne table vpn) (fun r mm' => ∃ target, Maps layout mm mm' table r.2 area r.1 vpn [target])
      (MapFault (table.leaf mm.mem) vpn 1) mm := by
  have failed : ∀ {leaf : Nat → PageTableEntry}, leaf vpn = table.leaf mm.mem vpn → ∀ fault,
      (fault = .outOfFrames ∨ fault = .alreadyMapped ∧ (leaf vpn).isValid = true) →
      MapFault (table.leaf mm.mem) vpn 1 fault := by
    rintro leaf same fault (full | ⟨again, valid⟩)
    · exact Or.inl full
    · exact Or.inr ⟨again, 0, Nat.one_pos, by rw [Nat.add_zero, ← same]; exact valid⟩
  -- the pages of the table after the entry of `vpn` has been written
  have pages : ∀ {leaf leaf' : Nat → PageTableEntry} {entry : PageTableEntry},
      (∀ v, leaf' v = if v % 2 ^ 27 = vpn % 2 ^ 27 then entry else leaf v) →
      leaf' vpn = entry ∧ ∀ v < 2 ^ 27, v < vpn ∨ vpn + 1 ≤ v → leaf' v = leaf v := by
    intro leaf leaf' entry update
    refine ⟨by rw [update, if_pos rfl], fun v small outside => ?_⟩
    rw [update, if_neg]
    rw [mod_page_eq small low]
    omega
  unfold MapArea.mapOne
  cases kind : area.mapType with
  | identical =>
    dsimp only
    apply wp_bind.mpr
    refine wp_mono (map_spec ⟨owns.left, tree⟩ (show vpn < 2 ^ 44 by omega) (perm_small perm)) ?_ fun fault => failed rfl fault
    rintro table₁ mm₁ ⟨path₁, grown, invalid, leaves⟩
    obtain ⟨evolves, same⟩ := grown.frame owns
    obtain ⟨here, others⟩ := pages leaves
    have nothing : area.taken vpn [vpn] = [] := by
      unfold MapArea.taken
      rw [kind]
    refine ⟨vpn, evolves, ⟨path₁, grown.ok.tree⟩, grown.root, ?_, fun _ => rfl, ?_, ?_, others, ?_, same⟩
    · rw [nothing, List.append_nil]
    · intro i inside
      obtain rfl := Nat.lt_one_iff.mp inside
      exact invalid
    · intro i inside
      obtain rfl := Nat.lt_one_iff.mp inside
      exact here
    · intro framed
      rw [kind] at framed
      cases framed
  | framed =>
    dsimp only
    apply wp_bind.mpr
    refine wp_mono (frameAlloc_spec owns) ?_ fun _ full => Or.inl full
    rintro frame mm₁ ⟨alloc, zero, kept⟩
    have owned : frame ∈ table.frames ++ area.frames ++ [frame] := List.mem_append_right _ (List.mem_singleton_self frame)
    have fresh : frame ∉ table.frames ++ area.frames := fun member =>
      alloc.owns.disjoint member (List.mem_singleton_self frame)
    have unmoved : ∀ x, x / 4096 ∈ table.frames → mm₁.mem x = mm.mem x := fun x inside =>
      kept x fun same => fresh (List.mem_append_left _ (same ▸ inside))
    have tree₁ : Tree mm₁.mem table.rootPpn table.frames path := tree.congr unmoved
    have leaves₁ := tree.leaf_congr unmoved
    have owns₁ : (frameStore layout).Owns mm₁ (table.frames ++ (area.frames ++ [frame])) := by
      rw [← List.append_assoc]
      exact alloc.owns
    apply wp_bind.mpr
    refine wp_mono (map_spec ⟨owns₁.left, tree₁⟩ (live_small alloc.owns owned) (perm_small perm)) ?_ fun fault => failed (leaves₁ vpn) fault
    rintro table₁ mm₂ ⟨path₁, grown, invalid, leaves⟩
    obtain ⟨evolves, same⟩ := grown.frame owns₁
    have frames : (area.dataFrames ++ [(vpn, frame)]).map Prod.snd = area.frames ++ [frame] := List.map_append
    obtain ⟨here, others⟩ := pages leaves
    have one : area.taken vpn [frame] = [(vpn, frame)] := by
      unfold MapArea.taken
      rw [kind]
      rfl
    refine ⟨frame, ?_, ⟨path₁, grown.ok.tree⟩, grown.root, by rw [one, kind], ?_, ?_, ?_, ?_, ?_, ?_⟩
    · show (frameStore layout).Evolves mm mm₂ _ (table₁.frames ++ (area.dataFrames ++ [(vpn, frame)]).map Prod.snd)
      rw [frames]
      exact (alloc.perm (.refl _) (by rw [List.append_assoc])).trans evolves
    · intro identical
      rw [kind] at identical
      cases identical
    · intro i inside
      obtain rfl := Nat.lt_one_iff.mp inside
      rw [Nat.add_zero, ← leaves₁ vpn]
      exact invalid
    · intro i inside
      obtain rfl := Nat.lt_one_iff.mp inside
      exact here
    · intro v small outside
      rw [others v small outside]
      exact leaves₁ v
    · intro _ goal member x onFrame
      obtain rfl := List.mem_singleton.mp member
      rw [mem_of_content (same goal (List.mem_append_right _ (List.mem_singleton_self goal))) onFrame]
      exact zero x onFrame
    · intro p member
      rw [same p (List.mem_append_left _ member)]
      exact content_of_mem fun x onFrame => kept x fun clash =>
        fresh (List.mem_append_right _ (by rw [← clash, onFrame]; exact member))

theorem mapFrom_spec {count : Nat} (tree : Tree mm.mem table.rootPpn table.frames path)
    (owns : (frameStore layout).Owns mm (table.frames ++ area.frames)) (perm : area.mapPerm < 32)
    (fits : vpn + count ≤ 2 ^ 27) :
    wp (MapArea.mapFrom count vpn area table) (fun r mm' => ∃ targets, targets.length = count ∧
      Maps layout mm mm' table r.2 area r.1 vpn targets) (MapFault (table.leaf mm.mem) vpn count) mm := by
  induction count generalizing mm table area vpn path with
  | zero => exact ⟨[], rfl, .nil tree owns vpn⟩
  | succ count ih =>
    unfold MapArea.mapFrom
    apply wp_bind.mpr
    refine wp_mono (mapOne_spec tree owns perm (by omega)) ?_ ?_
    · rintro ⟨area₁, table₁⟩ mm₁ ⟨target, first⟩
      dsimp only at first
      obtain ⟨path₁, tree₁⟩ := first.tree
      have perm₁ : area₁.mapPerm < 32 := by
        rw [first.area_eq]
        exact perm
      refine wp_mono (ih tree₁ first.evolves.owns perm₁ (show vpn + 1 + count ≤ 2 ^ 27 by omega)) ?_ ?_
      · rintro ⟨area₂, table₂⟩ mm₂ ⟨targets, rfl, rest⟩
        exact ⟨target :: targets, rfl, first.cons rest (by omega)⟩
      · rintro fault (full | ⟨again, i, inside, valid⟩)
        · exact Or.inl full
        · refine Or.inr ⟨again, i + 1, by omega, ?_⟩
          rwa [first.after (by omega)] at valid
    · rintro fault (full | ⟨again, i, inside, valid⟩)
      · exact Or.inl full
      · exact Or.inr ⟨again, i, by omega, valid⟩

/-! ### Unmapping -/

/-- The table after `count` pages from `start` on have been unmapped and `frames` have become `frames'`. -/
structure Unmaps (layout : Layout) (mm mm' : Mm) (table : PageTable) (frames frames' : List Nat) (start count : Nat) :
    Prop where
  evolves : (frameStore layout).Evolves mm mm' (table.frames ++ frames) (table.frames ++ frames')
  tree : ∃ path, Tree mm'.mem table.rootPpn table.frames path
  cleared : ∀ i < count, table.leaf mm'.mem (start + i) = .empty
  other : ∀ v < 2 ^ 27, v < start ∨ start + count ≤ v → table.leaf mm'.mem v = table.leaf mm.mem v

theorem Unmaps.cons {frames frames₁ frames₂ : List Nat} {count : Nat}
    (first : Unmaps layout mm mm₁ table frames frames₁ vpn 1)
    (rest : Unmaps layout mm₁ mm₂ table frames₁ frames₂ (vpn + 1) count) (fits : vpn + 1 + count ≤ 2 ^ 27) :
    Unmaps layout mm mm₂ table frames frames₂ vpn (count + 1) := by
  refine ⟨first.evolves.trans rest.evolves, rest.tree, ?_, ?_⟩
  · intro i inside
    cases i with
    | zero =>
      rw [rest.other _ (by omega) (Or.inl (by omega))]
      exact first.cleared 0 Nat.one_pos
    | succ i =>
      have cleared := rest.cleared i (Nat.lt_of_succ_lt_succ inside)
      rwa [show vpn + 1 + i = vpn + (i + 1) by omega] at cleared
  · intro v low outside
    rw [rest.other v low (by omega), first.other v low (by omega)]

theorem filter_pages (vpn : Nat) (targets : List Nat) :
    ((List.range' (vpn + 1) targets.length).zip targets).filter (fun pair => pair.1 != vpn) =
      (List.range' (vpn + 1) targets.length).zip targets := by
  apply List.filter_eq_self.mpr
  rintro ⟨page, frame⟩ member
  have bound := List.mem_range'_1.mp (List.of_mem_zip member).1
  exact bne_iff_ne.mpr (show page ≠ vpn by omega)

theorem unmapOne_spec (tree : Tree mm.mem table.rootPpn table.frames path)
    (owns : (frameStore layout).Owns mm (table.frames ++ area.frames))
    (pages : area.dataFrames = area.taken vpn (target :: targets)) (low : vpn < 2 ^ 27)
    (valid : (table.leaf mm.mem vpn).isValid = true) :
    wp (area.unmapOne table vpn) (fun area' mm' => area'.mapType = area.mapType ∧
      area'.dataFrames = area.taken (vpn + 1) targets ∧
      Unmaps layout mm mm' table area.frames area'.frames vpn 1) (fun _ => False) mm := by
  -- taking the page out of the table, when its frame has been given back
  have unmapped : ∀ {frames : List Nat} {mm₁ : Mm} {area' : MapArea},
      (frameStore layout).Evolves mm mm₁ (table.frames ++ area.frames) (table.frames ++ frames) →
      mm₁.mem = mm.mem → area'.mapType = area.mapType → area'.dataFrames = area.taken (vpn + 1) targets →
      area'.frames = frames → wp (table.unmap vpn >>= fun _ => pure area') (fun area' mm' =>
        area'.mapType = area.mapType ∧ area'.dataFrames = area.taken (vpn + 1) targets ∧
        Unmaps layout mm mm' table area.frames area'.frames vpn 1) (fun _ => False) mm₁ := by
    intro frames mm₁ area' given unchanged kind remaining same
    have tree₁ : Tree mm₁.mem table.rootPpn table.frames path := by
      rw [unchanged]
      exact tree
    apply wp_bind.mpr
    refine wp_mono (unmap_spec ⟨given.owns.left, tree₁⟩) ?_ ?_
    · intro _ mm₂ both
      obtain ⟨kept, _, leaves⟩ := both
      rw [unchanged] at leaves
      refine ⟨kind, remaining, ?_, ⟨path, kept.ok.tree⟩, ?_, ?_⟩
      · rw [same]
        exact given.trans (kept.frame given.owns).1
      · intro i inside
        obtain rfl := Nat.lt_one_iff.mp inside
        rw [Nat.add_zero, leaves, if_pos rfl]
      · intro v small outside
        rw [leaves, if_neg]
        rw [mod_page_eq small low]
        omega
    · intro fault both
      obtain ⟨_, invalid⟩ := both
      rw [unchanged, valid] at invalid
      cases invalid
  unfold MapArea.unmapOne
  cases kind : area.mapType with
  | identical =>
    have nothing : ∀ vpn targets, area.taken vpn targets = [] := by
      intro vpn targets
      unfold MapArea.taken
      rw [kind]
    dsimp only
    rw [← kind]
    refine unmapped (.refl owns) rfl rfl ?_ rfl
    rw [pages, nothing, nothing]
  | framed =>
    have taken : ∀ vpn targets, area.taken vpn targets = (List.range' vpn targets.length).zip targets := by
      intro vpn targets
      unfold MapArea.taken
      rw [kind]
    have here : area.dataFrames = (vpn, target) :: area.taken (vpn + 1) targets := by
      rw [pages, taken, taken, List.length_cons, List.range'_succ, List.zip_cons_cons]
    have found : area.dataFrames.find? (fun pair => pair.1 == vpn) = some (vpn, target) := by
      rw [here]
      exact List.find?_cons_of_pos (beq_self_eq_true vpn)
    have remaining : area.dataFrames.filter (fun pair => pair.1 != vpn) = area.taken (vpn + 1) targets := by
      rw [here, List.filter_cons_of_neg (by simp), taken]
      exact filter_pages vpn targets
    have frames : area.frames = target :: (area.taken (vpn + 1) targets).map Prod.snd := by
      rw [MapArea.frames, here]
      rfl
    have before : (table.frames ++ area.frames).Perm (target :: (table.frames ++ (area.taken (vpn + 1) targets).map Prod.snd)) := by
      rw [frames]
      exact List.perm_middle
    rw [found]
    dsimp only
    apply wp_bind.mpr
    refine wp_mono (frameDealloc_spec (owns.perm before)) ?_ fun _ impossible => impossible
    intro _ mm₁ both
    obtain ⟨given, unchanged⟩ := both
    rw [← kind]
    refine unmapped (given.perm before.symm (.refl _)) unchanged rfl remaining ?_
    rw [MapArea.frames, remaining]

theorem unmapFrom_spec (tree : Tree mm.mem table.rootPpn table.frames path)
    (owns : (frameStore layout).Owns mm (table.frames ++ area.frames))
    (pages : area.dataFrames = area.taken vpn targets) (fits : vpn + targets.length ≤ 2 ^ 27)
    (valid : ∀ i < targets.length, (table.leaf mm.mem (vpn + i)).isValid = true) :
    wp (MapArea.unmapFrom targets.length vpn area table) (fun area' mm' => area'.frames = [] ∧
      Unmaps layout mm mm' table area.frames [] vpn targets.length) (fun _ => False) mm := by
  induction targets generalizing mm area vpn path with
  | nil =>
    have none : area.frames = [] := by
      rw [MapArea.frames, pages, MapArea.taken]
      cases area.mapType <;> rfl
    rw [none] at owns
    refine ⟨none, ?_, ⟨path, tree⟩, nofun, fun _ _ _ => rfl⟩
    rw [none]
    exact .refl owns
  | cons target rest ih =>
    rw [List.length_cons] at fits
    rw [List.length_cons, MapArea.unmapFrom]
    apply wp_bind.mpr
    refine wp_mono (unmapOne_spec tree owns pages (by omega) (valid 0 (Nat.succ_pos _))) ?_ fun _ impossible => impossible
    intro area₁ mm₁ both
    obtain ⟨kind, remaining, first⟩ := both
    obtain ⟨path₁, tree₁⟩ := first.tree
    have pages₁ : area₁.dataFrames = area₁.taken (vpn + 1) rest := by
      rw [remaining, MapArea.taken, MapArea.taken, kind]
    refine wp_mono (ih tree₁ first.evolves.owns pages₁ (by omega) ?_) ?_ fun _ impossible => impossible
    · intro i inside
      rw [first.other _ (by omega) (by omega), show vpn + 1 + i = vpn + (i + 1) by omega]
      exact valid (i + 1) (Nat.succ_lt_succ inside)
    · intro area' mm₂ both
      obtain ⟨empty, later⟩ := both
      exact ⟨empty, first.cons later (by omega)⟩

end

end SecureIpc

import SecureIpc.Mm.Space

/-!
Building address spaces: the kernel's, a program's and the copy that `fork` makes. Each is built from
frames that were free, so whatever others own stays as it is.
-/

namespace SecureIpc
open Lib

def trapContextVpn : Nat := 2 ^ 27 - 2

/-- The address space of a process: its areas are framed, and one of them is the trap-context page. -/
structure UserSpace (layout : Layout) (mm : Mm) (space : MemorySet) : Prop where
  whole : Space layout mm space
  framed : ∀ area ∈ space.areas, area.mapType = .framed
  trap : ∃ area ∈ space.areas, area.vpnStart = trapContextVpn ∧ area.vpnEnd = trampolineVpn ∧
    area.mapPerm = PTEFlags.R ||| PTEFlags.W

section
variable {layout : Layout} {mm mm' : Mm} {self self' : MemorySet} {area area' : MapArea}

/-! ### An empty address space -/

structure Blank (layout : Layout) (mm : Mm) (space : MemorySet) : Prop where
  table : ∃ path, Table layout mm space.pageTable path
  empty : ∀ v, space.pageTable.leaf mm.mem v = .empty
  areas : space.areas = []

theorem newBare_spec (valid : (frameStore layout).valid mm) :
    wp MemorySet.newBare (fun self mm' => Blank layout mm' self ∧ (frameStore layout).Evolves mm mm' [] self.frames)
      (· = .outOfFrames) mm := by
  unfold MemorySet.newBare PageTable.new
  simp only [wp_bind]
  refine wp_mono (frameAlloc_spec (Store.Owns.nil valid)) ?_ fun _ full => full
  intro frame mm' both
  obtain ⟨alloc, zero, _⟩ := both
  rw [List.nil_append] at alloc
  have childless : ∀ i < 512, PageTable.child mm'.mem frame i = none := by
    intro i small
    unfold PageTable.child
    rw [readPte_zero zero small, PageTableEntry.empty_invalid]
    rfl
  have tree : Tree mm'.mem frame [frame] fun _ => [] := by
    refine ⟨List.mem_singleton_self frame, rfl, fun _ _ => Nat.zero_le 2, ?_, by simp, ?_⟩
    · intro n member _ i small next down
      rw [List.mem_singleton.mp member, childless i small] at down
      cases down
    · intro n member
      rw [List.mem_singleton.mp member]
      rfl
  refine ⟨⟨⟨_, alloc.owns, tree⟩, ?_, rfl⟩, alloc⟩
  intro v
  apply leaf_of_no_walk
  show (PageTable.child mm'.mem frame _).bind _ = none
  rw [childless _ (indexes_small v).1]
  rfl

theorem trampoline_toPpn : PhysAddr.toPpn (PhysAddr.ofUsize layout.strampoline) = .ok layout.trampolinePpn := by
  have inside := layout.trampoline_inside
  have fits := layout.kernel_fits
  have limit : memoryEnd < 2 ^ 56 := by decide
  have aligned : PhysAddr.ofUsize layout.strampoline % pageSize = 0 := by
    have small : layout.strampoline < 2 ^ 56 := by omega
    rw [PhysAddr.ofUsize, Nat.mod_eq_of_lt small]
    exact layout.trampoline_aligned
  unfold PhysAddr.toPpn
  rw [if_pos aligned]
  rfl

theorem mapTrampoline_spec (blank : Blank layout mm self) :
    wp (self.mapTrampoline layout) (fun self' mm' => Space layout mm' self' ∧ self'.areas = [] ∧
      (frameStore layout).Evolves mm mm' self.frames self'.frames) (· = .outOfFrames) mm := by
  have page : VirtAddr.toVpn (VirtAddr.ofUsize trampoline) = .ok trampolineVpn := rfl
  obtain ⟨path, ok⟩ := blank.table
  have bare : self.frames = self.pageTable.frames := by
    rw [MemorySet.frames, MemorySet.dataFrames, blank.areas]
    exact List.append_nil _
  unfold MemorySet.mapTrampoline
  rw [page, trampoline_toPpn]
  simp only [wp_bind, wp_lift_ok]
  have low : layout.trampolinePpn < 2 ^ 44 := by
    have bound : PhysAddr.ofUsize layout.strampoline < 2 ^ 56 := Nat.mod_lt _ (Nat.two_pow_pos 56)
    unfold Layout.trampolinePpn PhysAddr.floor pageSize
    omega
  refine wp_mono (map_spec ok low (show PTEFlags.R ||| PTEFlags.X < 256 by decide)) ?_ ?_
  · intro table' mm' both
    obtain ⟨path', grown, _, leaves⟩ := both
    have evolves : (frameStore layout).Evolves mm mm' self.frames (⟨table', self.areas⟩ : MemorySet).frames := by
      rw [bare, MemorySet.frames, MemorySet.dataFrames, blank.areas]
      show (frameStore layout).Evolves mm mm' self.pageTable.frames (table'.frames ++ [])
      rw [List.append_nil]
      exact grown.evolves
    refine ⟨⟨evolves.owns, ⟨path', grown.ok.tree⟩, ?_, ?_, ?_, ?_, ?_⟩, blank.areas, evolves⟩
    · show ∀ area ∈ self.areas, _
      rw [blank.areas]
      nofun
    · show self.areas.Pairwise _
      rw [blank.areas]
      exact List.Pairwise.nil
    · show ∀ area ∈ self.areas, _
      rw [blank.areas]
      nofun
    · intro v low
      by_cases top : v = trampolineVpn
      · exact Or.inr (Or.inl top)
      · left
        show table'.leaf mm'.mem v = .empty
        rw [leaves, if_neg, blank.empty]
        rw [mod_page_eq low (by decide)]
        exact top
    · show table'.leaf mm'.mem trampolineVpn = _
      rw [leaves, if_pos rfl]
      rfl
  · intro fault failed
    rcases failed with full | ⟨_, valid⟩
    · exact full
    · rw [blank.empty, PageTableEntry.empty_invalid] at valid
      cases valid

/-! ### Areas without data -/

theorem ceil_le {va : Nat} (low : va < 2 ^ 39) : VirtAddr.ceil va ≤ 2 ^ 27 := by
  unfold VirtAddr.ceil pageSize
  split <;> omega

theorem mapArea_new_spec (startVa endVa : Nat) (kind : MapType) (perm : Nat) :
    wp (MapArea.new startVa endVa kind perm) (fun area mm' => mm' = mm ∧
      area = ⟨VirtAddr.floor startVa, VirtAddr.ceil endVa, [], kind, perm⟩ ∧
      VirtAddr.floor startVa ≤ VirtAddr.ceil endVa) (· = .badRange) mm := by
  unfold MapArea.new
  by_cases ordered : VirtAddr.floor startVa ≤ VirtAddr.ceil endVa
  · dsimp only
    rw [if_pos ordered]
    exact ⟨rfl, rfl, ordered⟩
  · dsimp only
    rw [if_neg ordered]
    exact rfl

theorem push_spec (space : Space layout mm self) (fresh : area.dataFrames = []) (ordered : area.vpnStart ≤ area.vpnEnd)
    (fits : area.vpnEnd ≤ 2 ^ 27) (perm : area.mapPerm < 32) :
    wp (self.push layout area none) (fun self' mm' => ∃ area', Pushed layout mm mm' self self' area area')
      (MapFault (self.pageTable.leaf mm.mem) area.vpnStart (area.vpnEnd - area.vpnStart)) mm := by
  unfold MemorySet.push
  apply wp_bind.mpr
  refine wp_mono (map_space space fresh ordered fits perm) ?_ fun _ failed => failed
  intro both mm' pushed
  obtain ⟨area', table'⟩ := both
  exact ⟨area', pushed⟩

theorem pushNew_spec (space : Space layout mm self) {startVa endVa perm : Nat} (kind : MapType) (low : endVa < 2 ^ 39)
    (small : perm < 32) : wp (MapArea.new startVa endVa kind perm >>= fun area => self.push layout area none)
      (fun self' mm' => ∃ area', VirtAddr.floor startVa ≤ VirtAddr.ceil endVa ∧
        Pushed layout mm mm' self self' ⟨VirtAddr.floor startVa, VirtAddr.ceil endVa, [], kind, perm⟩ area')
      (fun _ => True) mm := by
  apply wp_bind.mpr
  refine wp_mono (mapArea_new_spec startVa endVa kind perm) ?_ fun _ _ => trivial
  intro area mm₁ both
  obtain ⟨unchanged, same, ordered⟩ := both
  subst unchanged same
  refine wp_mono (push_spec space rfl ordered (ceil_le low) small) ?_ fun _ _ => trivial
  intro self' mm' both
  obtain ⟨area', pushed⟩ := both
  exact ⟨area', ordered, pushed⟩

theorem insertFramedArea_spec (space : Space layout mm self) (startVa : Nat) {endVa perm : Nat} (low : endVa < 2 ^ 39)
    (small : perm < 32) : wp (self.insertFramedArea layout startVa endVa perm)
      (fun self' mm' => ∃ area', VirtAddr.floor startVa ≤ VirtAddr.ceil endVa ∧
        Pushed layout mm mm' self self' ⟨VirtAddr.floor startVa, VirtAddr.ceil endVa, [], .framed, perm⟩ area')
      (fun _ => True) mm :=
  pushNew_spec space .framed low small

/-! ### The kernel's address space -/

def MemorySet.Identical (space : MemorySet) : Prop :=
  ∀ area ∈ space.areas, area.mapType = .identical ∧ area.vpnEnd ≤ lastFrame

theorem ceil_le_lastFrame {r : Nat} (below : r ≤ memoryEnd) : VirtAddr.ceil (VirtAddr.ofUsize r) ≤ lastFrame := by
  have limit : memoryEnd < 2 ^ 39 := by decide
  have last : lastFrame * 4096 = memoryEnd := by decide
  unfold VirtAddr.ceil VirtAddr.ofUsize pageSize
  rw [Nat.mod_eq_of_lt (by omega)]
  split
  · omega
  · omega

theorem pushIdentical_spec (space : Space layout mm self) (l : Nat) {r perm : Nat} (small : perm < 32) (below : r ≤ memoryEnd) :
    wp (self.pushIdentical layout l r perm) (fun self' mm' => Space layout mm' self' ∧
      (frameStore layout).Evolves mm mm' self.frames self'.frames ∧ (self.Identical → self'.Identical)) (fun _ => True) mm := by
  refine wp_mono (pushNew_spec space .identical (Nat.mod_lt r (Nat.two_pow_pos 39)) small) ?_ fun _ _ => trivial
  intro self' mm' both
  obtain ⟨area', _, pushed⟩ := both
  refine ⟨pushed.whole, pushed.evolves, ?_⟩
  intro identical area member
  rw [pushed.areas] at member
  rcases List.mem_append.mp member with old | new
  · exact identical area old
  · rw [List.mem_singleton.mp new, pushed.stored]
    exact ⟨rfl, ceil_le_lastFrame below⟩

theorem newKernel_spec (valid : (frameStore layout).valid mm) :
    wp (MemorySet.newKernel layout) (fun self mm' => Space layout mm' self ∧
      (frameStore layout).Evolves mm mm' [] self.frames ∧ self.Identical) (fun _ => True) mm := by
  have fits := layout.kernel_fits
  -- one more identity-mapped area
  have next : ∀ {F : List Nat} {mm₁ : Mm} {self : MemorySet} (l : Nat) {r perm : Nat}, perm < 32 → r ≤ memoryEnd →
      Space layout mm₁ self ∧ (frameStore layout).Evolves mm mm₁ F self.frames ∧ self.Identical →
      wp (self.pushIdentical layout l r perm) (fun self' mm' => Space layout mm' self' ∧
        (frameStore layout).Evolves mm mm' F self'.frames ∧ self'.Identical) (fun _ => True) mm₁ := by
    intro F mm₁ self l r perm small below both
    obtain ⟨space, evolves, identical⟩ := both
    refine wp_mono (pushIdentical_spec space l small below) ?_ fun _ _ => trivial
    intro self' mm' both
    obtain ⟨space', step, still⟩ := both
    exact ⟨space', evolves.trans step, still identical⟩
  unfold MemorySet.newKernel
  apply wp_bind.mpr
  refine wp_mono (newBare_spec valid) ?_ fun _ _ => trivial
  intro bare mm₀ both
  obtain ⟨blank, first⟩ := both
  apply wp_bind.mpr
  refine wp_mono (mapTrampoline_spec blank) ?_ fun _ _ => trivial
  intro ks mm₁ both
  obtain ⟨space, nothing, second⟩ := both
  have identical : ks.Identical := by
    unfold MemorySet.Identical
    rw [nothing]
    nofun
  apply wp_bind.mpr
  refine wp_mono (next _ (by decide) (Nat.le_trans layout.text_inside fits) ⟨space, first.trans second, identical⟩) ?_
    fun _ _ => trivial
  intro ks mm₂ text
  apply wp_bind.mpr
  refine wp_mono (next _ (by decide) (Nat.le_trans layout.rodata_inside fits) text) ?_ fun _ _ => trivial
  intro ks mm₃ rodata
  apply wp_bind.mpr
  refine wp_mono (next _ (by decide) (Nat.le_trans layout.data_inside fits) rodata) ?_ fun _ _ => trivial
  intro ks mm₄ data
  apply wp_bind.mpr
  refine wp_mono (next _ (by decide) (Nat.le_trans layout.bss_inside fits) data) ?_ fun _ _ => trivial
  intro ks mm₅ bss
  apply wp_bind.mpr
  refine wp_mono (next _ (by decide) (Nat.le_refl memoryEnd) bss) ?_ fun _ _ => trivial
  intro ks mm₆ memory
  apply wp_bind.mpr
  refine wp_mono (next _ (by decide) (by decide) memory) ?_ fun _ _ => trivial
  intro ks mm₇ device
  exact next _ (by decide) (by decide) device

/-! ### A program's address space -/

/-- What loading a program does to the address space it builds. -/
structure Loaded (layout : Layout) (mm mm' : Mm) (space space' : MemorySet) : Prop where
  whole : Space layout mm' space'
  framed : ∀ area ∈ space'.areas, area.mapType = .framed
  evolves : (frameStore layout).Evolves mm mm' space.frames space'.frames

theorem Loaded.trans {mm'' : Mm} {self'' : MemorySet} (first : Loaded layout mm mm' self self')
    (second : Loaded layout mm' mm'' self' self'') : Loaded layout mm mm'' self self'' :=
  ⟨second.whole, second.framed, first.evolves.trans second.evolves⟩

theorem Pushed.framed (pushed : Pushed layout mm mm' self self' area area')
    (framed : ∀ one ∈ self.areas, one.mapType = .framed) (kind : area.mapType = .framed) :
    ∀ one ∈ self'.areas, one.mapType = .framed := by
  intro one member
  rw [pushed.areas] at member
  rcases List.mem_append.mp member with old | new
  · exact framed one old
  · rw [List.mem_singleton.mp new, pushed.stored]
    exact kind

theorem segmentPerm_small (ph : ProgramHeader) : MemorySet.segmentPerm ph < 32 := by
  unfold MemorySet.segmentPerm
  cases ph.isRead <;> cases ph.isWrite <;> cases ph.isExecute <;> decide

def ProgramHeader.endVpn (ph : ProgramHeader) : Nat :=
  VirtAddr.ceil (VirtAddr.ofUsize ((ph.virtualAddr + ph.memSize) % 2 ^ 64))

theorem pushSegment_spec (space : Space layout mm self) (framed : ∀ area ∈ self.areas, area.mapType = .framed)
    (input : List UInt8) (ph : ProgramHeader) :
    wp (self.pushSegment layout input ph) (fun r mm' => Loaded layout mm mm' self r.1 ∧ r.2 = ph.endVpn)
      (fun _ => True) mm := by
  unfold MemorySet.pushSegment
  apply wp_bind.mpr
  refine wp_mono (mapArea_new_spec _ _ .framed (MemorySet.segmentPerm ph)) ?_ fun _ _ => trivial
  intro area mm₀ both
  obtain ⟨unchanged, same, ordered⟩ := both
  subst unchanged same
  apply wp_bind.mpr
  cases MemorySet.sliceInput input ph.offset ((ph.offset + ph.fileSize) % 2 ^ 64) with
  | error fault => trivial
  | ok data =>
    apply wp_lift_ok.mpr
    apply wp_bind.mpr
    have low : VirtAddr.ofUsize ((ph.virtualAddr + ph.memSize) % 2 ^ 64) < 2 ^ 39 := Nat.mod_lt _ (Nat.two_pow_pos 39)
    refine wp_mono (push_stored space framed rfl rfl ordered (ceil_le low) (segmentPerm_small ph) data) ?_ fun _ _ => trivial
    intro self' mm' both
    obtain ⟨mm₁, area', pushed, stored⟩ := both
    have mine : ∀ p ∈ self'.dataFrames, p ∈ self'.frames := fun p inside => List.mem_append_right _ inside
    exact ⟨⟨stored.space pushed.whole, pushed.framed framed rfl,
      pushed.evolves.trans (stored.evolves pushed.whole.owns mine)⟩, rfl⟩

def lastEnd : List (Option ProgramHeader) → Nat → Nat
  | [], last => last
  | none :: rest, last => lastEnd rest last
  | some ph :: rest, last => lastEnd rest (if ph.load = some true then ph.endVpn else last)

theorem pushSegments_spec (space : Space layout mm self) (framed : ∀ area ∈ self.areas, area.mapType = .framed)
    (input : List UInt8) (headers : List (Option ProgramHeader)) (last : Nat) :
    wp (MemorySet.pushSegments layout input headers self last)
      (fun r mm' => Loaded layout mm mm' self r.1 ∧ r.2 = lastEnd headers last) (fun _ => True) mm := by
  induction headers generalizing mm self last with
  | nil => exact ⟨⟨space, framed, .refl space.owns⟩, rfl⟩
  | cons header rest ih =>
    unfold MemorySet.pushSegments
    cases header with
    | none => trivial
    | some ph =>
      dsimp only
      cases load : ph.load with
      | none => trivial
      | some loaded =>
        cases loaded with
        | false =>
          have skip : lastEnd (some ph :: rest) last = lastEnd rest last := by
            rw [lastEnd, load]
            rfl
          rw [skip]
          exact ih space framed last
        | true =>
          have take : lastEnd (some ph :: rest) last = lastEnd rest ph.endVpn := by
            rw [lastEnd, load]
            rfl
          rw [take]
          dsimp only
          apply wp_bind.mpr
          refine wp_mono (pushSegment_spec space framed input ph) ?_ fun _ _ => trivial
          rintro ⟨self₁, stop⟩ mm₁ ⟨first, here⟩
          dsimp only at first here ⊢
          subst here
          refine wp_mono (ih first.whole first.framed ph.endVpn) ?_ fun _ _ => trivial
          intro r mm' both
          obtain ⟨more, final⟩ := both
          exact ⟨first.trans more, final⟩

def ElfFile.stackBottom (elf : ElfFile) : Nat :=
  (VirtAddr.toUsize (VirtAddr.ofVpn (lastEnd elf.programHeaders 0)) + pageSize) % 2 ^ 64

def ElfFile.stackTop (elf : ElfFile) : Nat := (elf.stackBottom + userStackSize) % 2 ^ 64

def ElfFile.stackArea (elf : ElfFile) : MapArea :=
  ⟨VirtAddr.floor (VirtAddr.ofUsize elf.stackBottom), VirtAddr.ceil (VirtAddr.ofUsize elf.stackTop), [], .framed,
    PTEFlags.R ||| PTEFlags.W ||| PTEFlags.U⟩

/-- A loaded program: its address space with a cleared stack. -/
structure Image (layout : Layout) (mm mm' : Mm) (elf : ElfFile) (space : MemorySet) : Prop where
  user : UserSpace layout mm' space
  evolves : (frameStore layout).Evolves mm mm' [] space.frames
  ordered : elf.stackArea.vpnStart ≤ elf.stackArea.vpnEnd
  stack : ∃ area ∈ space.areas, area = { elf.stackArea with dataFrames := area.dataFrames }

theorem fromElf_spec (valid : (frameStore layout).valid mm) (parse : List UInt8 → Option ElfFile) (input : List UInt8) :
    wp (MemorySet.fromElf layout parse input) (fun r mm' => ∃ elf, parse input = some elf ∧
      Image layout mm mm' elf r.1 ∧ r.2 = (elf.stackTop, elf.entryPoint)) (fun _ => True) mm := by
  unfold MemorySet.fromElf
  apply wp_bind.mpr
  refine wp_mono (newBare_spec valid) ?_ fun _ _ => trivial
  intro bare mm₀ both
  obtain ⟨blank, fresh⟩ := both
  apply wp_bind.mpr
  refine wp_mono (mapTrampoline_spec blank) ?_ fun _ _ => trivial
  intro self₁ mm₁ both
  obtain ⟨space₁, nothing, topped⟩ := both
  cases found : parse input with
  | none => trivial
  | some elf =>
    dsimp only
    by_cases magic : elf.magic ≠ [0x7f, 0x45, 0x4c, 0x46]
    · rw [if_pos magic]
      trivial
    · rw [if_neg magic]
      have framed₁ : ∀ area ∈ self₁.areas, area.mapType = .framed := by
        rw [nothing]
        nofun
      apply wp_bind.mpr
      refine wp_mono (pushSegments_spec space₁ framed₁ input elf.programHeaders 0) ?_ fun _ _ => trivial
      rintro ⟨self₂, last⟩ mm₂ ⟨loaded, here⟩
      dsimp only at loaded here ⊢
      subst here
      rw [← bind_assoc]
      apply wp_bind.mpr
      refine wp_mono (pushNew_spec loaded.whole .framed (Nat.mod_lt _ (Nat.two_pow_pos 39)) (by decide)) ?_ fun _ _ => trivial
      intro self₃ mm₃ both
      obtain ⟨stack, ordered, pushed⟩ := both
      have framed₃ := pushed.framed loaded.framed rfl
      rw [← bind_assoc]
      apply wp_bind.mpr
      refine wp_mono (pushNew_spec pushed.whole .framed (Nat.mod_lt _ (Nat.two_pow_pos 39)) (by decide)) ?_ fun _ _ => trivial
      intro self₄ mm₄ both
      obtain ⟨trap, _, trapped⟩ := both
      have inTrap : trap ∈ self₄.areas := by
        rw [trapped.areas]
        exact List.mem_append_right _ (List.mem_singleton_self trap)
      have inStack : stack ∈ self₄.areas := by
        rw [trapped.areas, pushed.areas]
        exact List.mem_append_left _ (List.mem_append_right _ (List.mem_singleton_self stack))
      have user : UserSpace layout mm₄ self₄ := by
        refine ⟨trapped.whole, trapped.framed framed₃ rfl, trap, inTrap, ?_⟩
        have start : VirtAddr.floor (VirtAddr.ofUsize trapContext) = trapContextVpn := by decide
        have stop : VirtAddr.ceil (VirtAddr.ofUsize trampoline) = trampolineVpn := by decide
        rw [trapped.stored]
        exact ⟨start, stop, rfl⟩
      have upward : elf.stackArea.vpnStart ≤ elf.stackArea.vpnEnd := by
        simp only [ElfFile.stackArea, ElfFile.stackTop, ElfFile.stackBottom]
        exact ordered
      have stackEq : stack = { elf.stackArea with dataFrames := stack.dataFrames } := by
        have stored := pushed.stored
        dsimp only at stored
        simp only [ElfFile.stackArea, ElfFile.stackTop, ElfFile.stackBottom]
        exact stored
      refine ⟨elf, rfl, ⟨user, ?_, upward, stack, inStack, stackEq⟩, ?_⟩
      · exact (((fresh.trans topped).trans loaded.evolves).trans pushed.evolves).trans trapped.evolves
      · unfold ElfFile.stackTop ElfFile.stackBottom
        rfl

/-! ### The copy of an address space -/

theorem translate_of_valid {table : PageTable} {mem : PhysMem} {v : Nat} (valid : (table.leaf mem v).isValid = true) :
    table.translate mem v = some (table.leaf mem v) := by
  unfold PageTable.leaf at valid ⊢
  cases found : table.translate mem v with
  | some pte => rfl
  | none =>
    rw [found, Option.getD_none, PageTableEntry.empty_invalid] at valid
    cases valid

theorem copyFrame_content (mm : Mm) (dst src : Nat) :
    (frameStore layout).content { mm with mem := copyFrame mm.mem dst src } dst = (frameStore layout).content mm src := by
  funext i
  have small := i.isLt
  show (if (dst * 4096 + i) / 4096 = dst then mm.mem (src * 4096 + (dst * 4096 + i) % 4096) else _) = mm.mem (src * 4096 + i)
  rw [if_pos (by omega)]
  congr 1
  omega

theorem copyFrame_outside (mem : PhysMem) (dst src : Nat) {x : Nat} (outside : x / 4096 ≠ dst) :
    copyFrame mem dst src x = mem x := by
  show (if x / 4096 = dst then _ else mem x) = mem x
  rw [if_neg outside]

def Leads (leaf : Nat → PageTableEntry) (vpn perm : Nat) (frames : List Nat) : Prop :=
  ∀ i (inside : i < frames.length), leaf (vpn + i) = .new frames[i] (perm ||| PTEFlags.V)

theorem Leads.head {leaf : Nat → PageTableEntry} {vpn perm frame : Nat} {rest : List Nat}
    (leads : Leads leaf vpn perm (frame :: rest)) : leaf vpn = .new frame (perm ||| PTEFlags.V) :=
  leads 0 (Nat.succ_pos _)

theorem Leads.tail {leaf : Nat → PageTableEntry} {vpn perm frame : Nat} {rest : List Nat}
    (leads : Leads leaf vpn perm (frame :: rest)) : Leads leaf (vpn + 1) perm rest := by
  intro i inside
  have here := leads (i + 1) (Nat.succ_lt_succ inside)
  rwa [show vpn + (i + 1) = vpn + 1 + i by omega] at here

/-- Copying pages: the frames `srcs` of one address space to the frames `dsts` of another. -/
theorem copyPages_spec {source target : MemorySet} {vpn perm perm' : Nat} {srcs dsts : List Nat}
    (space : Space layout mm source) (space' : Space layout mm target)
    (apart : ∀ p ∈ target.frames, p ∉ source.frames) (small : perm < 32) (small' : perm' < 32)
    (reads : Leads (source.pageTable.leaf mm.mem) vpn perm srcs)
    (writes : Leads (target.pageTable.leaf mm.mem) vpn perm' dsts)
    (srcOwned : ∀ p ∈ srcs, p ∈ source.dataFrames) (dstOwned : ∀ p ∈ dsts, p ∈ target.dataFrames) (nodup : dsts.Nodup)
    (count : srcs.length = dsts.length) :
    wp (MemorySet.copyPages source target dsts.length vpn) (fun _ mm' => Stored mm mm' dsts ∧
      dsts.map ((frameStore layout).content mm') = srcs.map ((frameStore layout).content mm)) (fun _ => False) mm := by
  induction dsts generalizing mm vpn srcs with
  | nil =>
    rw [List.eq_nil_of_length_eq_zero count]
    exact ⟨.refl mm [], rfl⟩
  | cons dst dsts ih =>
    cases srcs with
    | nil => cases count
    | cons src srcs =>
      have here : source.translate mm.mem vpn = some (.new src (perm ||| PTEFlags.V)) := by
        have valid : (PageTableEntry.new src (perm ||| PTEFlags.V)).isValid = true := isValid_new (perm_small small)
        rw [← reads.head] at valid ⊢
        exact translate_of_valid valid
      have there : target.translate mm.mem vpn = some (.new dst (perm' ||| PTEFlags.V)) := by
        have valid : (PageTableEntry.new dst (perm' ||| PTEFlags.V)).isValid = true := isValid_new (perm_small small')
        rw [← writes.head] at valid ⊢
        exact translate_of_valid valid
      have srcMine := srcOwned src List.mem_cons_self
      have dstMine := dstOwned dst List.mem_cons_self
      have srcPpn := PageTableEntry.ppn_new (live_small space.owns (List.mem_append_right _ srcMine)) (or_V_small (perm_small small))
      have dstPpn := PageTableEntry.ppn_new (live_small space'.owns (List.mem_append_right _ dstMine)) (or_V_small (perm_small small'))
      rw [List.length_cons, MemorySet.copyPages]
      simp only [wp_bind, wp_read, here, there, wp_modify]
      rw [srcPpn, dstPpn]
      generalize copied : ({ mm with mem := copyFrame mm.mem dst src } : Mm) = mm₁
      have first : Stored mm mm₁ [dst] := by
        subst copied
        exact ⟨rfl, fun x outside => copyFrame_outside mm.mem dst src fun same => outside (List.mem_singleton.mpr same)⟩
      have moved : (frameStore layout).content mm₁ dst = (frameStore layout).content mm src := by
        subst copied
        exact copyFrame_content mm dst src
      have unmoved : ∀ p, p ≠ dst → (frameStore layout).content mm₁ p = (frameStore layout).content mm p := fun p different =>
        content_of_mem fun x onFrame => first.outside x fun inside => different (onFrame ▸ List.mem_singleton.mp inside)
      have notSource : ∀ p ∈ source.frames, p ≠ dst := fun p theirs same =>
        apart dst (List.mem_append_right _ dstMine) (same ▸ theirs)
      have notTable : ∀ p ∈ target.pageTable.frames, p ≠ dst := fun p inside same =>
        space'.owns.disjoint inside (same ▸ dstMine)
      have keepSource : ∀ p ∈ source.pageTable.frames, (frameStore layout).content mm₁ p = (frameStore layout).content mm p :=
        fun p inside => unmoved p (notSource p (List.mem_append_left _ inside))
      have keepTarget : ∀ p ∈ target.pageTable.frames, (frameStore layout).content mm₁ p = (frameStore layout).content mm p :=
        fun p inside => unmoved p (notTable p inside)
      have owned : ∀ p ∈ [dst], p ∈ target.frames := fun p inside =>
        List.mem_singleton.mp inside ▸ List.mem_append_right _ dstMine
      have owns : (frameStore layout).Owns mm₁ source.frames := by
        have same : mm₁ = { mm with mem := mm₁.mem } := by rw [← first.allocator]
        rw [same]
        exact ⟨space.owns.valid, space.owns.nodup, space.owns.live⟩
      have leafSource := funext (space.leaf_keep keepSource)
      have leafTarget := funext (space'.leaf_keep keepTarget)
      refine wp_mono (ih (space.keep owns keepSource) (space'.keep (first.evolves space'.owns owned).owns keepTarget)
        (by rw [leafSource]; exact reads.tail) (by rw [leafTarget]; exact writes.tail)
        (fun p member => srcOwned p (List.mem_cons_of_mem _ member)) (fun p member => dstOwned p (List.mem_cons_of_mem _ member))
        (List.nodup_cons.mp nodup).2 (Nat.succ.inj count)) ?_ fun _ impossible => impossible
      intro _ mm' both
      obtain ⟨rest, contents⟩ := both
      refine ⟨⟨rest.allocator.trans first.allocator, fun x outside => ?_⟩, ?_⟩
      · rw [rest.outside x fun inside => outside (List.mem_cons_of_mem _ inside),
          first.outside x fun inside => outside (List.mem_singleton.mp inside ▸ List.mem_cons_self)]
      · have still : (frameStore layout).content mm' dst = (frameStore layout).content mm₁ dst :=
          content_of_mem fun x onFrame => rest.outside x (by rw [onFrame]; exact (List.nodup_cons.mp nodup).1)
        have others : srcs.map ((frameStore layout).content mm₁) = srcs.map ((frameStore layout).content mm) :=
          List.map_congr_left fun p member =>
            unmoved p (notSource p (List.mem_append_right _ (srcOwned p (List.mem_cons_of_mem _ member))))
        rw [List.map_cons, List.map_cons, still, moved, contents, others]

structure Copied (layout : Layout) (mm mm' : Mm) (area area' : MapArea) : Prop where
  shape : area' = { area with dataFrames := area'.dataFrames }
  contents : area'.frames.map ((frameStore layout).content mm') = area.frames.map ((frameStore layout).content mm)

theorem Placed.leads {leaf : Nat → PageTableEntry} (placed : Placed leaf area) (framed : area.mapType = .framed) :
    Leads leaf area.vpnStart area.mapPerm area.frames := by
  have mapped := placed.mapped
  simp only [targets_framed framed] at mapped
  exact mapped

theorem Placed.frames_length {leaf : Nat → PageTableEntry} (placed : Placed leaf area) (framed : area.mapType = .framed) :
    area.frames.length = area.vpnEnd - area.vpnStart := by
  have count := placed.count
  rwa [targets_framed framed] at count

theorem frames_subset (member : area ∈ self.areas) : ∀ p ∈ area.frames, p ∈ self.dataFrames := fun _ inside =>
  mem_dataFrames.mpr ⟨area, member, inside⟩

theorem frames_nodup (member : area ∈ self.areas) (owns : (frameStore layout).Owns mm self.frames) : area.frames.Nodup :=
  (List.nodup_flatMap.mp owns.right.nodup).1 area member

theorem copyAreas_spec {source : MemorySet} {areas : List MapArea} (space : Space layout mm source)
    (framed : ∀ area ∈ source.areas, area.mapType = .framed) (target : Space layout mm self)
    (framed' : ∀ area ∈ self.areas, area.mapType = .framed) (apart : ∀ p ∈ source.frames, p ∉ self.frames)
    (subset : ∀ area ∈ areas, area ∈ source.areas)
    (pairs : areas.Pairwise fun first second => ∀ v, first.Holds v → ¬second.Holds v)
    (free : ∀ one ∈ self.areas, ∀ area ∈ areas, ∀ v, one.Holds v → ¬area.Holds v) :
    wp (MemorySet.copyAreas layout source areas self) (fun self' mm' => Loaded layout mm mm' self self' ∧
      (∀ p ∈ self.dataFrames, (frameStore layout).content mm' p = (frameStore layout).content mm p) ∧
      ∃ copies, self'.areas = self.areas ++ copies ∧ List.Forall₂ (Copied layout mm mm') areas copies)
      (· = .outOfFrames) mm := by
  induction areas generalizing mm self with
  | nil => exact ⟨⟨target, framed', .refl target.owns⟩, fun _ _ => rfl, [], (List.append_nil _).symm, .nil⟩
  | cons area rest ih =>
    have member := subset area List.mem_cons_self
    have kind := framed area member
    have placed := space.placed area member
    unfold MemorySet.copyAreas
    apply wp_bind.mpr
    refine wp_mono (push_spec target (show area.fromAnother.dataFrames = [] from rfl) placed.ordered placed.fits placed.perm) ?_ ?_
    · intro self₁ mm₁ both
      obtain ⟨area₁, pushed⟩ := both
      have shape : area₁ = { area with dataFrames := area₁.dataFrames } := pushed.stored
      have kind₁ : area₁.mapType = .framed := by
        rw [shape]
        exact kind
      have framed₁ := pushed.framed framed' kind
      have inside₁ : area₁ ∈ self₁.areas := by
        rw [pushed.areas]
        exact List.mem_append_right _ (List.mem_singleton_self area₁)
      have space₁ := space.other pushed.evolves apart
      have apart₁ := pushed.evolves.apart_other space.owns apart
      have placed₁ := pushed.whole.placed area₁ inside₁
      have start : area₁.vpnStart = area.vpnStart := by rw [shape]
      have count₁ : area₁.frames.length = area.vpnEnd - area.vpnStart := by
        rw [placed₁.frames_length kind₁, shape]
      have reads := (space₁.placed area member).leads kind
      have writes := placed₁.leads kind₁
      rw [start] at writes
      apply wp_bind.mpr
      rw [← count₁]
      refine wp_mono (copyPages_spec space₁ pushed.whole (fun p mine theirs => apart₁ p theirs mine) placed.perm placed₁.perm
        reads writes (frames_subset member) (frames_subset inside₁) (frames_nodup inside₁ pushed.whole.owns)
        ((placed.frames_length kind).trans count₁.symm)) ?_ fun _ impossible => impossible.elim
      intro _ mm₂ both
      obtain ⟨stored, contents⟩ := both
      have mine : ∀ p ∈ area₁.frames, p ∈ self₁.frames := fun p inside =>
        List.mem_append_right _ (frames_subset inside₁ p inside)
      have step := stored.evolves pushed.whole.owns mine
      have whole₂ : Space layout mm₂ self₁ := by
        refine pushed.whole.keep step.owns fun p inside => content_of_mem fun x onFrame => stored.outside x ?_
        rw [onFrame]
        exact fun clash => pushed.whole.owns.disjoint inside (frames_subset inside₁ p clash)
      have space₂ := space₁.other step apart₁
      have free₁ : ∀ one ∈ self₁.areas, ∀ later ∈ rest, ∀ v, one.Holds v → ¬later.Holds v := by
        intro one present later ahead v held
        rw [pushed.areas] at present
        rcases List.mem_append.mp present with old | new
        · exact free one old later (List.mem_cons_of_mem _ ahead) v held
        · rw [List.mem_singleton.mp new, shape] at held
          exact (List.pairwise_cons.mp pairs).1 later ahead v held
      refine wp_mono (ih space₂ whole₂ framed₁ apart₁ (fun later ahead => subset later (List.mem_cons_of_mem _ ahead))
        (List.pairwise_cons.mp pairs).2 free₁) ?_ fun _ full => full
      intro self' mm' both
      obtain ⟨loaded, unchanged, copies, appended, copied⟩ := both
      have evolves := pushed.evolves.trans step
      -- the frames of the source are those it had at the beginning
      have original : ∀ p ∈ source.frames, (frameStore layout).content mm₂ p = (frameStore layout).content mm p :=
        evolves.same_other space.owns apart
      have source_frames : ∀ one ∈ source.areas, one.frames.map ((frameStore layout).content mm₂) =
          one.frames.map ((frameStore layout).content mm) := by
        intro one present
        exact List.map_congr_left fun p inside => original p (List.mem_append_right _ (frames_subset present p inside))
      refine ⟨⟨loaded.whole, loaded.framed, evolves.trans loaded.evolves⟩, ?_, area₁ :: copies, ?_, .cons ⟨shape, ?_⟩ ?_⟩
      · intro p inside
        have inside' : p ∈ self₁.dataFrames := by
          obtain ⟨one, present, frame⟩ := mem_dataFrames.mp inside
          refine mem_dataFrames.mpr ⟨one, ?_, frame⟩
          rw [pushed.areas]
          exact List.mem_append_left _ present
        have notNew : p ∉ area₁.frames := by
          intro clash
          have frames := pushed.whole.owns.right.nodup
          rw [MemorySet.dataFrames, pushed.areas, List.flatMap_append, List.flatMap_singleton] at frames
          exact (List.nodup_append.mp frames).2.2 p inside p clash rfl
        have copying : (frameStore layout).content mm₂ p = (frameStore layout).content mm₁ p :=
          content_of_mem fun x onFrame => stored.outside x (by rw [onFrame]; exact notNew)
        exact (unchanged p inside').trans (copying.trans (pushed.same p inside))
      · rw [appended, pushed.areas, List.append_assoc]
        rfl
      · have kept : area₁.frames.map ((frameStore layout).content mm') = area₁.frames.map ((frameStore layout).content mm₂) :=
          List.map_congr_left fun p inside => unchanged p (frames_subset inside₁ p inside)
        have before : area.frames.map ((frameStore layout).content mm₁) = area.frames.map ((frameStore layout).content mm) :=
          List.map_congr_left fun p inside => pushed.evolves.same_other space.owns apart p
            (List.mem_append_right _ (frames_subset member p inside))
        rw [kept, contents, before]
      · refine List.forall₂_iff_get.mpr ⟨copied.length_eq, fun i bound bound' => ?_⟩
        have one := (List.forall₂_iff_get.mp copied).2 i bound bound'
        refine ⟨one.shape, ?_⟩
        rw [one.contents]
        exact source_frames _ (subset _ (List.mem_cons_of_mem _ (List.get_mem rest ⟨i, bound⟩)))
    · intro fault failed
      rcases failed with full | ⟨_, i, inside, valid⟩
      · exact full
      · -- the pages of an area that has not been copied yet are free
        have ordered := placed.ordered
        have fits := placed.fits
        have held : area.Holds (area.vpnStart + i) := ⟨Nat.le_add_right _ i, by
          have bound : i < area.vpnEnd - area.vpnStart := inside
          omega⟩
        rcases target.known _ (Nat.lt_of_lt_of_le held.2 fits) with empty | top | ⟨one, present, theirs⟩
        · have blank : (self.pageTable.leaf mm.mem (area.vpnStart + i)).isValid = false := by
            rw [empty]
            exact PageTableEntry.empty_invalid
          have clash : (self.pageTable.leaf mm.mem (area.vpnStart + i)).isValid = true := valid
          rw [blank] at clash
          cases clash
        · exact absurd (top ▸ held) (space.clear area member)
        · exact absurd held (free one present area List.mem_cons_self _ theirs)

/-- `from_existed_user`: an address space of its own with the pages of the old one. -/
theorem fromExistedUser_spec {source : MemorySet} (user : UserSpace layout mm source) :
    wp (MemorySet.fromExistedUser layout source) (fun self' mm' => UserSpace layout mm' self' ∧
      (frameStore layout).Evolves mm mm' [] self'.frames ∧ List.Forall₂ (Copied layout mm mm') source.areas self'.areas)
      (· = .outOfFrames) mm := by
  unfold MemorySet.fromExistedUser
  apply wp_bind.mpr
  refine wp_mono (newBare_spec user.whole.owns.valid) ?_ fun _ full => full
  intro bare mm₀ both
  obtain ⟨blank, fresh⟩ := both
  apply wp_bind.mpr
  refine wp_mono (mapTrampoline_spec blank) ?_ fun _ failed => failed
  intro self₁ mm₁ both
  obtain ⟨space₁, nothing, topped⟩ := both
  have evolves := fresh.trans topped
  have source₁ := user.whole.other evolves fun _ _ => List.not_mem_nil
  have apart₁ := evolves.apart_other user.whole.owns fun _ _ => List.not_mem_nil
  have same₁ := evolves.same_other user.whole.owns fun _ _ => List.not_mem_nil
  have none₁ : ∀ {P : MapArea → Prop}, ∀ area ∈ self₁.areas, P area := by
    intro P
    rw [nothing]
    nofun
  refine wp_mono (copyAreas_spec source₁ user.framed space₁ none₁ apart₁ (fun _ member => member) user.whole.apart none₁) ?_
    fun _ full => full
  intro self' mm' both
  obtain ⟨loaded, _, copies, appended, copied⟩ := both
  rw [nothing, List.nil_append] at appended
  subst appended
  refine ⟨⟨loaded.whole, loaded.framed, ?_⟩, evolves.trans loaded.evolves, ?_⟩
  · obtain ⟨trap, member, start, stop, perm⟩ := user.trap
    obtain ⟨i, bound, here⟩ := List.getElem_of_mem member
    have bound' : i < self'.areas.length := copied.length_eq ▸ bound
    have one := (List.forall₂_iff_get.mp copied).2 i bound bound'
    refine ⟨self'.areas.get ⟨i, bound'⟩, List.get_mem _ _, ?_⟩
    rw [one.shape, List.get_eq_getElem, here]
    exact ⟨start, stop, perm⟩
  · refine List.forall₂_iff_get.mpr ⟨copied.length_eq, fun i bound bound' => ?_⟩
    have one := (List.forall₂_iff_get.mp copied).2 i bound bound'
    refine ⟨one.shape, ?_⟩
    rw [one.contents]
    exact List.map_congr_left fun p inside => same₁ p (List.mem_append_right _ (frames_subset (List.get_mem _ _) p inside))

end

end SecureIpc

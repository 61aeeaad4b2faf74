import SecureIpc.Mm.MemorySet

/-! How many free frames an operation takes: with that many left, it does not run out of frames. -/

namespace SecureIpc
open Lib

def StackFrameAllocator.free (self : StackFrameAllocator) : Nat := self.stop - self.current + self.recycled.length

/-- The operation takes at most `n` frames. -/
def Takes {α : Type} (p : MmM α) (n : Nat) : Prop :=
  ∀ mm, wp p (fun _ mm' => mm.frames.free ≤ mm'.frames.free + n) (fun fault => fault = .outOfFrames → mm.frames.free < n) mm

section
variable {α β : Type} {p : MmM α} {m n : Nat} {table : PageTable}

theorem Takes.pure (a : α) : Takes (pure a) 0 := fun _ => Nat.le_refl _

theorem Takes.mono (takes : Takes p m) (le : m ≤ n) : Takes p n := by
  intro mm
  apply wp_mono (takes mm)
  · intro _ mm' taken
    omega
  · intro fault full out
    have few := full out
    omega

theorem Takes.bind {f : α → MmM β} (first : Takes p m) (second : ∀ a, Takes (f a) n) : Takes (p >>= f) (m + n) := by
  intro mm
  apply wp_bind.mpr
  apply wp_mono (first mm)
  · intro a mm₁ taken
    apply wp_mono (second a mm₁)
    · intro _ mm₂ more
      omega
    · intro fault full out
      have few := full out
      omega
  · intro fault full out
    have few := full out
    omega

theorem Takes.next {f : α → MmM β} (first : Takes p 0) (second : ∀ a, Takes (f a) n) : Takes (p >>= f) n :=
  (first.bind second).mono (Nat.le_of_eq (Nat.zero_add n))

theorem Takes.throw {fault : Fault} (other : fault ≠ .outOfFrames) : Takes (throw fault : MmM α) 0 :=
  fun _ out => absurd out other

theorem Takes.read (f : Mm → α) : Takes (Program.read f) 0 := fun _ => Nat.le_refl _

theorem Takes.store {f : Mm → Mm} (same : ∀ mm, (f mm).frames = mm.frames) : Takes (modify f : MmM Unit) 0 := by
  intro mm
  apply wp_modify.mpr
  rw [same]
  exact Nat.le_refl _

theorem Takes.lift {result : Except Fault α} (other : result ≠ .error .outOfFrames) : Takes (Program.lift result) 0 := by
  cases result with
  | ok a => exact fun _ => Nat.le_refl _
  | error fault => exact fun _ out => absurd (congrArg Except.error out) other

theorem Takes.ite {c : Prop} [Decidable c] {q : MmM α} (yes : Takes p n) (no : Takes q n) : Takes (if c then p else q) n := by
  split
  · exact yes
  · exact no

/-! ### Tables -/

theorem frameAlloc_takes : Takes Mm.frameAlloc 1 := by
  intro mm
  unfold wp Mm.frameAlloc StackFrameAllocator.alloc StackFrameAllocator.free
  cases recycled : mm.frames.recycled with
  | cons top rest =>
    simp only [List.length_cons]
    omega
  | nil =>
    by_cases full : mm.frames.current = mm.frames.stop
    · simp [full]
    · simp only [full, if_false, List.length_nil]
      omega

theorem writePte_takes (node i bits : Nat) : Takes (Mm.writePte node i bits) 0 := .store fun _ => rfl

theorem childCreate_takes (node i : Nat) : Takes (table.childCreate node i) 1 := by
  unfold PageTable.childCreate
  apply (Takes.read _).next
  intro pte
  apply Takes.ite ((Takes.pure _).mono (Nat.zero_le 1))
  exact frameAlloc_takes.bind fun frame => (writePte_takes _ _ _).next fun _ => .pure _

theorem findPteCreate_takes (vpn : Nat) : Takes (table.findPteCreate vpn) 2 := by
  unfold PageTable.findPteCreate
  exact (childCreate_takes _ _).bind fun _ => (childCreate_takes _ _).bind fun _ => .pure _

/-- Mapping a page takes at most two frames. -/
theorem map_takes (vpn ppn flags : Nat) : Takes (table.map vpn ppn flags) 2 := by
  unfold PageTable.map
  apply (findPteCreate_takes vpn).bind (n := 0)
  intro both
  obtain ⟨self, node, index⟩ := both
  apply (Takes.read _).next
  intro pte
  apply Takes.ite (.throw (by decide))
  exact (writePte_takes _ _ _).next fun _ => .pure _

theorem unmap_takes (vpn : Nat) : Takes (table.unmap vpn) 0 := by
  unfold PageTable.unmap
  apply (Takes.read _).next
  intro found
  cases found with
  | none => exact .throw (by decide)
  | some addr =>
    apply (Takes.read _).next
    intro pte
    exact .ite (.store fun _ => rfl) (.throw (by decide))

theorem new_takes : Takes PageTable.new 1 := frameAlloc_takes.bind fun _ => .pure _

/-! ### Areas and address spaces -/

def MapArea.pageCount (self : MapArea) : Nat := self.vpnEnd - self.vpnStart

theorem mapOne_takes (area : MapArea) (vpn : Nat) : Takes (area.mapOne table vpn) 3 := by
  unfold MapArea.mapOne
  cases area.mapType with
  | identical => exact ((map_takes _ _ _).bind fun _ => .pure _).mono (by decide)
  | framed => exact frameAlloc_takes.bind fun _ => (map_takes _ _ _).bind fun _ => .pure _

theorem mapFrom_takes (count vpn : Nat) (area : MapArea) : Takes (MapArea.mapFrom count vpn area table) (3 * count) := by
  induction count generalizing vpn area table with
  | zero => exact .pure _
  | succ count ih =>
    unfold MapArea.mapFrom
    exact ((mapOne_takes area vpn).bind fun r => ih (vpn + 1) r.1).mono (by omega)

theorem writeFrame_takes (layout : Layout) (ppn : Nat) (bytes : List UInt8) : Takes (writeFrame layout ppn bytes) 0 :=
  .ite (.store fun _ => rfl) (.throw (by decide))

theorem copyDataFrom_takes (layout : Layout) (fuel vpn : Nat) (data : List UInt8) :
    Takes (copyDataFrom layout table fuel vpn data) 0 := by
  induction fuel generalizing vpn data with
  | zero =>
    unfold copyDataFrom
    apply (Takes.read _).next
    intro found
    cases found with
    | none => exact .throw (by decide)
    | some pte => exact (writeFrame_takes _ _ _).next fun _ => .pure _
  | succ fuel ih =>
    unfold copyDataFrom
    apply (Takes.read _).next
    intro found
    cases found with
    | none => exact .throw (by decide)
    | some pte => exact (writeFrame_takes _ _ _).next fun _ => .ite (.pure _) (ih _ _)

/-- An area takes at most three frames for each of its pages. -/
theorem push_takes (self : MemorySet) (layout : Layout) (area : MapArea) (data : Option (List UInt8)) :
    Takes (self.push layout area data) (3 * area.pageCount) := by
  unfold MemorySet.push
  apply (mapFrom_takes _ _ area).bind (n := 0)
  intro both
  obtain ⟨mapped, pageTable⟩ := both
  cases data with
  | none => exact .pure _
  | some data =>
    have copied : Takes (mapped.copyData layout pageTable data) 0 :=
      .ite (copyDataFrom_takes _ _ _ data) (.throw (by decide))
    exact copied.next fun _ => .pure _

theorem newBare_takes : Takes MemorySet.newBare 1 := new_takes.bind fun _ => .pure _

theorem mapTrampoline_takes (self : MemorySet) (layout : Layout) : Takes (self.mapTrampoline layout) 2 := by
  have virtual : VirtAddr.toVpn (VirtAddr.ofUsize trampoline) ≠ .error .outOfFrames := nofun
  have physical : PhysAddr.toPpn (PhysAddr.ofUsize layout.strampoline) ≠ .error .outOfFrames := by
    unfold PhysAddr.toPpn
    split <;> nofun
  unfold MemorySet.mapTrampoline
  apply (Takes.lift virtual).next
  intro vpn
  apply (Takes.lift physical).next
  intro ppn
  exact (map_takes _ _ _).bind fun _ => .pure _

theorem copyPages_takes (source target : MemorySet) (count vpn : Nat) : Takes (MemorySet.copyPages source target count vpn) 0 := by
  induction count generalizing vpn with
  | zero => exact .pure _
  | succ count ih =>
    unfold MemorySet.copyPages
    apply (Takes.read _).next
    intro found
    split
    · apply Takes.next
      · exact .store fun _ => rfl
      · exact fun _ => ih (vpn + 1)
    · exact .throw (by decide)

theorem copyAreas_takes (layout : Layout) (source : MemorySet) (areas : List MapArea) (self : MemorySet) :
    Takes (MemorySet.copyAreas layout source areas self) (3 * (areas.map MapArea.pageCount).sum) := by
  induction areas generalizing self with
  | nil => exact .pure _
  | cons area rest ih =>
    unfold MemorySet.copyAreas
    rw [List.map_cons, List.sum_cons, Nat.mul_add]
    exact (push_takes self layout area.fromAnother none).bind fun _ =>
      (copyPages_takes _ _ _ _).next fun _ => ih _

theorem fromExistedUser_takes (layout : Layout) (source : MemorySet) :
    Takes (MemorySet.fromExistedUser layout source) (3 + 3 * (source.areas.map MapArea.pageCount).sum) := by
  unfold MemorySet.fromExistedUser
  exact (newBare_takes.bind fun _ => (mapTrampoline_takes _ layout).bind fun _ => copyAreas_takes layout source _ _).mono
    (by omega)

end

end SecureIpc

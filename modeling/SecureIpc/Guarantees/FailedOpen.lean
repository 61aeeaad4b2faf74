import SecureIpc.Guarantees.DiskBoot
import SecureIpc.Guarantees.DiskInvariant

/-!
What a failing `sys_open` leaves behind. The quota is asked last, so a call that it refuses has already created or emptied
the file.
-/

namespace SecureIpc.Guarantees
open Lib EasyFs

/-- `open_file` makes a new file, or empties one that has bytes. -/
def OpenChanges (listing : Listing) (name : Utf8) (flags : BitVec 32) : Prop :=
  match listing.find name with
  | none => OpenFlags.contains flags OpenFlags.CREATE = true
  | some file => (OpenFlags.contains flags OpenFlags.CREATE = true ∨ OpenFlags.contains flags OpenFlags.TRUNC = true) ∧ file.2 ≠ []

instance (listing : Listing) (name : Utf8) (flags : BitVec 32) : Decidable (OpenChanges listing name flags) := by
  unfold OpenChanges
  split <;> infer_instance

section
variable {geo : Geometry} {base : Platform} {start : Memory} {k k' : Kernel (onEasyFs geo base start)} {listing : Listing} {name : Utf8}
  {flags : BitVec 32} {file : DirEntry × List UInt8} {i : Nat}

theorem openChanges_none (new : listing.find name = none) :
    OpenChanges listing name flags ↔ OpenFlags.contains flags OpenFlags.CREATE = true := by
  rw [OpenChanges, new]

theorem openChanges_some (found : listing.find name = some file) : OpenChanges listing name flags ↔
    (OpenFlags.contains flags OpenFlags.CREATE = true ∨ OpenFlags.contains flags OpenFlags.TRUNC = true) ∧ file.2 ≠ [] := by
  rw [OpenChanges, found]

/-- What `open_file` leaves on the disk. -/
structure Opened (geo : Geometry) (listing : Listing) (name : Utf8) (flags : BitVec 32) (inode : Option Inode) (disk : Memory) : Prop where
  files : ∃ after, Listed geo after disk ∧ (after = listing ↔ ¬OpenChanges listing name flags)
  missing : inode = none → ¬OpenChanges listing name flags

theorem find_ok {r : Option Inode} {disk : Memory} (listed : Listed geo listing k.disk)
    (run : (onEasyFs geo base start).fs.find name k.disk = some (r, disk)) :
    disk = k.disk ∧ r = (listing.find name).map fun file => geo.place file.1.inodeNumber := by
  have found := wp_ok (@Listed.find geo listing k.disk name listed) (toOption_eq_some.mp run)
  exact found

theorem clearInode_empties (listed : Listed geo listing k.disk) (found : listing.find name = some file) :
    wp (@clearInode (onEasyFs geo base start) (geo.place file.1.inodeNumber)) (fun _ k' => ∃ disk : Memory, k' = { k with disk := disk } ∧
      ∃ after, Listed geo after disk ∧ (after = listing ↔ file.2 = [])) (fun _ => False) k := by
  obtain ⟨i, here, number⟩ := listed.position found
  obtain ⟨_, disk, run, after⟩ := wp_returns (listed.clear here)
  rw [number]
  refine (wp_clearInode (congrArg (fun result => (Except.toOption result).map Prod.snd) run)).mpr ⟨disk, rfl, _, after, ?_⟩
  obtain ⟨inside, rfl⟩ := List.getElem?_eq_some_iff.mp here
  constructor
  · intro same
    have at' := congrArg (fun list => list[i]?) same
    simp only [List.getElem?_set_self inside, here] at at'
    exact (congrArg Prod.snd (Option.some.inj at')).symm
  · intro empty
    rw [← empty]
    exact List.set_getElem_self inside

theorem openFile_outcome (listed : Listed geo listing k.disk) : wp (openFile name flags)
    (fun inode k' => ∃ disk : Memory, k' = { k with disk := disk } ∧ Opened geo listing name flags inode disk) (fun _ => True) k := by
  have clears : ∀ file, listing.find name = some file →
      (OpenFlags.contains flags OpenFlags.CREATE = true ∨ OpenFlags.contains flags OpenFlags.TRUNC = true) →
      wp (do @clearInode (onEasyFs geo base start) (geo.place file.1.inodeNumber)
             return some (geo.place file.1.inodeNumber)) (fun inode k' => ∃ disk : Memory, k' = { k with disk := disk } ∧
        Opened geo listing name flags inode disk) (fun _ => True) k := by
    intro file found asked
    refine wp_bind.mpr (wp_mono (clearInode_empties listed found) ?_ fun _ impossible => impossible.elim)
    rintro _ _ ⟨disk, rfl, after, lists, same⟩
    refine ⟨disk, rfl, ⟨after, lists, ?_⟩, nofun⟩
    rw [same, openChanges_some found]
    tauto
  unfold openFile
  by_cases create : OpenFlags.contains flags OpenFlags.CREATE = true
  · rw [if_pos create]
    refine wp_bind.mpr (onDisk_rule (fun r disk run => ?_) trivial)
    obtain ⟨rfl, rfl⟩ := find_ok listed run
    cases found : listing.find name with
    | some file => exact clears file found (Or.inl create)
    | none =>
      refine onDisk_rule (fun r disk run => ?_) trivial
      obtain ⟨known, _⟩ | ⟨_, rfl, entry, lists⟩ := wp_ok listed.create (toOption_eq_some.mp run)
      · exact absurd found known
      refine ⟨disk, rfl, ⟨_, lists, ?_⟩, nofun⟩
      rw [openChanges_none found]
      simp [create]
  · rw [if_neg create]
    refine wp_bind.mpr (onDisk_rule (fun r disk run => ?_) trivial)
    obtain ⟨rfl, rfl⟩ := find_ok listed run
    cases found : listing.find name with
    | none =>
      have unchanged : ¬OpenChanges listing name flags := by
        rw [openChanges_none found]
        exact create
      exact ⟨k.disk, rfl, ⟨listing, listed, by simp [unchanged]⟩, fun _ => unchanged⟩
    | some file =>
      by_cases trunc : OpenFlags.contains flags OpenFlags.TRUNC = true
      · simp only [Option.map_some, trunc, if_true]
        exact clears file found (Or.inr trunc)
      · simp only [Option.map_some, trunc]
        have unchanged : ¬OpenChanges listing name flags := by
          rw [openChanges_some found]
          tauto
        exact ⟨k.disk, rfl, ⟨listing, listed, by simp [unchanged]⟩, fun _ => unchanged⟩

theorem reserveFiles_refused {quota : QuotaState} {amount : Nat} {error : IpcError} (refused : quota.reserveFiles amount = .error error) :
    error = .tooManyFiles := by
  unfold QuotaState.reserveFiles at refused
  split at refused
  · exact (Except.error.inj refused).symm
  · split at refused
    · exact (Except.error.inj refused).symm
    · cases refused

/-- The quota refuses a descriptor with `EMFILE` and changes nothing; a descriptor is no negative number. -/
theorem openFd_outcome {task task' : TaskControlBlock} {file : File} {ret : Int} (run : task.openFd file = .ok (task', ret)) :
    ret = -24 ∧ task' = task ∨ 0 ≤ ret := by
  unfold TaskControlBlock.openFd at run
  cases reserved : task.security.reserveFileFd with
  | error error =>
    rw [reserved] at run
    obtain ⟨rfl, rfl⟩ := Prod.mk.inj (Except.ok.inj run)
    unfold ProcessSecurityState.reserveFileFd at reserved
    cases counted : task.security.quota.reserveFiles 1 with
    | ok quota =>
      rw [counted] at reserved
      cases reserved
    | error refused =>
      rw [counted] at reserved
      obtain rfl := Except.error.inj reserved
      obtain rfl := reserveFiles_refused counted
      exact Or.inl ⟨rfl, rfl⟩
  | ok security =>
    rw [reserved] at run
    simp only [TaskControlBlock.installFd_eq] at run
    obtain ⟨_, rfl⟩ := Prod.mk.inj (Except.ok.inj run)
    exact Or.inr (Int.natCast_nonneg _)

/-! ### The call -/

theorem sysOpen_failed {id path flags : Nat} {task : TaskControlBlock} {r : Int} (current : k.current = some id) (found : k.tasks id = some task)
    (listed : Listed geo listing k.disk) (run : sysOpen path flags k = .ok (r, k')) (failed : r < 0) :
    k'.tasks = k.tasks ∧ (Listed geo listing k'.disk ↔ ¬(r = -24 ∧ ∃ name,
      tryTranslatedStr k.mm.mem task.getUserToken path maxStrLen = .ok (some name) ∧ OpenChanges listing name (BitVec.ofNat 32 flags))) := by
  have spec : wp (sysOpen path flags) (fun r k' => r < 0 → k'.tasks = k.tasks ∧ (Listed geo listing k'.disk ↔ ¬(r = -24 ∧ ∃ name,
      tryTranslatedStr k.mm.mem task.getUserToken path maxStrLen = .ok (some name) ∧ OpenChanges listing name (BitVec.ofNat 32 flags))))
      (fun _ => True) k := by
    simp only [sysOpen, wp_bind, wp_currentTask, current, wp_currentUserToken current found, wp_userMemory]
    refine wp_fault (fun name named => ?_) fun _ => trivial
    cases name with
    | none => exact fun _ => ⟨rfl, by simp [listed, ipcErrorToRet]⟩
    | some name =>
      cases valid : OpenFlags.fromBits (BitVec.ofNat 32 flags) with
      | none => exact fun _ => ⟨rfl, by simp [listed, ipcErrorToRet]⟩
      | some openFlags =>
        obtain rfl : BitVec.ofNat 32 flags = openFlags := by
          unfold OpenFlags.fromBits at valid
          split at valid
          · exact Option.some.inj valid
          · cases valid
        refine wp_bind.mpr (wp_mono (openFile_outcome listed) ?_ fun _ _ => trivial)
        rintro inode _ ⟨disk, rfl, ⟨after, lists, same⟩, missing⟩
        have files : Listed geo listing disk ↔ ¬OpenChanges listing name (BitVec.ofNat 32 flags) :=
          ⟨fun still => same.mp (lists.unique still), fun unchanged => same.mpr unchanged ▸ lists⟩
        cases inode with
        | none =>
          intro _
          refine ⟨rfl, ?_⟩
          show Listed geo listing disk ↔ _
          simp [files, missing rfl]
        | some inode =>
          simp only [newInode, wp_bind, wp_read, wp_modify, wp_pure, wp_innerOf, found]
          refine wp_fault (fun opened ran => ?_) fun _ => trivial
          obtain ⟨task', ret⟩ := opened
          intro failed
          rcases openFd_outcome ran with ⟨rfl, rfl⟩ | positive
          · refine ⟨Kernel.set_self found, ?_⟩
            show Listed geo listing disk ↔ _
            simp [files, named]
          · omega
  exact wp_ok spec run failed

theorem openFile_creates {map : FileMap} (holds : Holds geo map k.disk) (new : name ∉ map.names) (room : RoomFor geo map name) :
    ∃ disk : Memory, openFile name OpenFlags.CREATE k = .ok (some (geo.place (map.length + 1)), { k with disk := disk }) ∧
      Holds geo (map ++ [(name, [])]) disk := by
  obtain ⟨disk, made, after⟩ := holds.create_new new room.1 room.2.1 room.2.2.1 room.2.2.2
  have spec : wp (openFile name OpenFlags.CREATE) (fun inode k' => inode = some (geo.place (map.length + 1)) ∧ k' = { k with disk := disk })
      (fun _ => False) k := by
    unfold openFile
    rw [if_pos (by decide)]
    refine wp_bind.mpr ((wp_find holds).mpr ?_)
    rw [FileMap.index_none.mpr new]
    exact (wp_onDisk (congrArg Except.toOption made)).mpr ⟨rfl, rfl⟩
  obtain ⟨_, _, run, rfl, rfl⟩ := wp_returns spec
  exact ⟨disk, run, after⟩

theorem openFile_misses {map : FileMap} (holds : Holds geo map k.disk) (new : name ∉ map.names) : openFile name 0 k = .ok (none, k) := by
  have spec : wp (openFile name 0) (fun inode k' => inode = none ∧ k' = k) (fun _ => False) k := by
    unfold openFile
    rw [if_neg (by decide)]
    refine wp_bind.mpr ((wp_find holds).mpr ?_)
    rw [FileMap.index_none.mpr new]
    exact ⟨rfl, rfl⟩
  obtain ⟨_, _, run, rfl, rfl⟩ := wp_returns spec
  exact run

end

section
variable {P : Platform} {k k' : Kernel P} {id path flags : Nat} {task : TaskControlBlock} {name : Utf8}

theorem openFd_full {file : File} (full : task.security.quota.openFiles = maxOpenFiles) : task.openFd file = .ok (task, -24) := by
  have reserved : task.security.reserveFileFd = .error .tooManyFiles := by
    unfold ProcessSecurityState.reserveFileFd QuotaState.reserveFiles
    rw [full]
    rfl
  rw [TaskControlBlock.openFd, reserved]
  rfl

theorem sysOpen_missing (current : k.current = some id) (found : k.tasks id = some task)
    (named : tryTranslatedStr k.mm.mem task.getUserToken path maxStrLen = .ok (some name))
    (valid : OpenFlags.fromBits (BitVec.ofNat 32 flags) = some (BitVec.ofNat 32 flags))
    (opened : openFile name (BitVec.ofNat 32 flags) k = .ok (none, k)) : sysOpen path flags k = .ok (-1, k) := by
  have spec : wp (sysOpen path flags) (fun r k' => r = -1 ∧ k' = k) (fun _ => False) k := by
    simp only [sysOpen, wp_bind, wp_currentTask, current, wp_currentUserToken current found, wp_userMemory, named]
    refine wp_of_run (a := some name) rfl ?_
    simp only [valid, wp_bind]
    exact wp_of_run opened ⟨rfl, rfl⟩
  obtain ⟨_, _, run, rfl, rfl⟩ := wp_returns spec
  exact run

/-- A full table fails the call after `open_file`. -/
theorem sysOpen_refused {inode : P.fs.Inode} {disk : P.fs.State} (current : k.current = some id) (found : k.tasks id = some task)
    (full : task.security.quota.openFiles = maxOpenFiles)
    (named : tryTranslatedStr k.mm.mem task.getUserToken path maxStrLen = .ok (some name))
    (valid : OpenFlags.fromBits (BitVec.ofNat 32 flags) = some (BitVec.ofNat 32 flags))
    (opened : openFile name (BitVec.ofNat 32 flags) k = .ok (some inode, { k with disk })) :
    ∃ k', sysOpen path flags k = .ok (-24, k') ∧ k'.disk = disk := by
  have spec : wp (sysOpen path flags) (fun r k' => r = -24 ∧ k'.disk = disk) (fun _ => False) k := by
    simp only [sysOpen, wp_bind, wp_currentTask, current, wp_currentUserToken current found, wp_userMemory, named]
    refine wp_of_run (a := some name) rfl ?_
    simp only [valid, wp_bind]
    refine wp_of_run opened ?_
    simp only [newInode, wp_bind, wp_read, wp_modify, wp_pure, wp_innerOf, found, openFd_full full]
    exact ⟨rfl, rfl⟩
  obtain ⟨_, k', run, rfl, same⟩ := wp_returns spec
  exact ⟨k', run, same⟩

end

end SecureIpc.Guarantees

import SecureIpc.Lib.Slots
import SecureIpc.Task.Task

/-!
The accounting of one process: its descriptor table, the two counters and the mask of pipe
descriptors describe the same set of open files, whatever the process opens, closes or duplicates.
-/

namespace SecureIpc
open Lib

/-! ### Installing a file -/

namespace TaskControlBlock

theorem file_eq_slot (self : TaskControlBlock) (fd : Nat) : self.file fd = slot self.fdTable fd := rfl

theorem installFd_eq (self : TaskControlBlock) (file : File) :
    self.installFd file = .ok ({ self with fdTable := fill self.fdTable file }, freeSlot self.fdTable) := by
  unfold installFd allocFd
  rcases freeSlot_cases self.fdTable with ⟨inside, empty⟩ | ⟨last, full⟩
  · have first : self.fdTable.findIdx? Option.isNone = some (freeSlot self.fdTable) := by
      unfold freeSlot at inside ⊢
      cases search : self.fdTable.findIdx? Option.isNone with
      | some first => rfl
      | none =>
        rw [search] at inside
        exact absurd inside (Nat.lt_irrefl _)
    simp only [first, setIndex_ok inside, fill, if_pos inside]
    rfl
  · have none : self.fdTable.findIdx? Option.isNone = none := by
      apply List.findIdx?_eq_none_iff.mpr
      intro entry member
      rw [← Bool.not_eq_true', Option.not_isNone]
      exact full entry member
    have inside : self.fdTable.length < (self.fdTable ++ [Option.none]).length := by simp
    have grown : (self.fdTable ++ [Option.none]).set self.fdTable.length (some file) = self.fdTable ++ [some file] := by
      rw [List.set_append_right _ _ (Nat.le_refl _), Nat.sub_self]
      rfl
    simp only [none, setIndex_ok inside, grown, fill, last, if_neg (Nat.lt_irrefl _)]
    rfl

end TaskControlBlock

/-! ### The accounting invariant -/

def isPipeSlot (entry : Option File) : Bool := entry.any File.isPipe

/-- The quota counts the open files and pipe ends of the table, and the mask marks the pipe ends. -/
structure Accounted (table : List (Option File)) (quota : QuotaState) : Prop where
  files : quota.openFiles = table.countP Option.isSome
  pipes : quota.openPipes = table.countP isPipeSlot
  mask : ∀ fd, quota.pipeFdMask.getLsbD fd = isPipeSlot (slot table fd)
  fewFiles : quota.openFiles ≤ maxOpenFiles
  fewPipes : quota.openPipes ≤ maxOpenPipeFds
  short : table.length ≤ maxOpenFiles

theorem accounted_initial : Accounted [some .stdin, some .stdout, some .stdout] .initial where
  files := rfl
  pipes := rfl
  mask fd := by
    match fd with
    | 0 | 1 | 2 => rfl
    | fd + 3 => simp [QuotaState.initial, slot, isPipeSlot]
  fewFiles := by decide
  fewPipes := by decide
  short := by decide

section
variable {table : List (Option File)} {quota : QuotaState} {file : File} {fd : Nat}

theorem Accounted.isPipeFd (accounted : Accounted table quota) : quota.isPipeFd fd = isPipeSlot (slot table fd) := by
  unfold QuotaState.isPipeFd
  split_ifs with large
  · have short := accounted.short
    rw [slot_eq_none (by unfold maxOpenFiles at short; omega)]
    rfl
  · rw [cast_bit, and_twoPow_ne_zero (by omega), accounted.mask]

theorem Accounted.fill_plain (accounted : Accounted table quota) (room : quota.openFiles + 1 ≤ maxOpenFiles)
    (plain : file.isPipe = false) : Accounted (fill table file) { quota with openFiles := quota.openFiles + 1 } where
  files := by rw [countP_fill rfl, accounted.files]; rfl
  pipes := by
    rw [countP_fill rfl, accounted.pipes]
    simp [isPipeSlot, plain]
  mask other := by
    rw [slot_fill]
    simp only [accounted.mask]
    split_ifs with same
    · rw [same, slot_freeSlot]
      exact plain.symm
    · rfl
  fewFiles := room
  fewPipes := accounted.fewPipes
  short := length_fill accounted.short (by rw [← accounted.files]; omega)

theorem Accounted.freeSlot_lt (accounted : Accounted table quota) (room : quota.openFiles + 1 ≤ maxOpenFiles) :
    freeSlot table < maxOpenFiles :=
  Lib.freeSlot_lt accounted.short (by rw [← accounted.files]; omega)

theorem Accounted.fill_pipe (accounted : Accounted table quota) (room : quota.openFiles + 1 ≤ maxOpenFiles)
    (roomForPipe : quota.openPipes + 1 ≤ maxOpenPipeFds) (isPipe : file.isPipe = true) :
    Accounted (fill table file)
      ⟨quota.openFiles + 1, quota.openPipes + 1, quota.pipeFdMask ||| BitVec.twoPow 64 (freeSlot table)⟩ where
  files := by rw [countP_fill rfl, accounted.files]; rfl
  pipes := by
    rw [countP_fill rfl, accounted.pipes]
    simp [isPipeSlot, isPipe]
  mask other := by
    have small : freeSlot table < 64 := Nat.lt_trans (accounted.freeSlot_lt room) (by decide)
    rw [BitVec.getLsbD_or, BitVec.getLsbD_twoPow, accounted.mask, slot_fill]
    split_ifs with same
    · simp [same, small, isPipeSlot, isPipe]
    · simp [Ne.symm same]
  fewFiles := room
  fewPipes := roomForPipe
  short := length_fill accounted.short (by rw [← accounted.files]; omega)

theorem registerPipeFd_eq (small : fd < maxOpenFiles) :
    quota.registerPipeFd fd = .ok { quota with pipeFdMask := quota.pipeFdMask ||| BitVec.twoPow 64 fd } := by
  have bit : fd < 64 := Nat.lt_trans small (by decide)
  simp [QuotaState.registerPipeFd, debugAssert, small, bit]
  rfl

/-- Closing an open descriptor never violates an assertion. -/
theorem Accounted.release (accounted : Accounted table quota) (opened : slot table fd = some file) :
    ∃ quota', quota.releaseFd fd = .ok quota' ∧ Accounted (table.set fd none) quota' := by
  have files := countP_clear table fd (p := Option.isSome) rfl
  have pipes := countP_clear table fd (p := isPipeSlot) rfl
  rw [opened, ← accounted.files] at files
  rw [opened, ← accounted.pipes] at pipes
  simp only [Option.isSome_some, if_true] at files
  have positive : 0 < quota.openFiles := by omega
  have small : fd < 64 := by
    have short := accounted.short
    by_contra large
    rw [slot_eq_none (by unfold maxOpenFiles at short; omega)] at opened
    cases opened
  have mask : ∀ other, (quota.pipeFdMask &&& ~~~(BitVec.twoPow 64 fd)).getLsbD other =
      isPipeSlot (slot (table.set fd none) other) := by
    intro other
    rw [BitVec.getLsbD_and, BitVec.getLsbD_not, BitVec.getLsbD_twoPow, slot_clear, accounted.mask]
    split_ifs with same
    · simp [same, small, isPipeSlot]
    · by_cases inside : other < 64
      · simp [Ne.symm same, inside]
      · rw [slot_eq_none (by have short := accounted.short; unfold maxOpenFiles at short; omega)]
        rfl
  have short : (table.set fd none).length ≤ maxOpenFiles := by rw [List.length_set]; exact accounted.short
  unfold QuotaState.releaseFd
  rw [accounted.isPipeFd, opened]
  have fewFiles := accounted.fewFiles
  have fewPipes := accounted.fewPipes
  cases isPipe : isPipeSlot (some file) with
  | true =>
    rw [isPipe, if_pos rfl] at pipes
    have some : 0 < quota.openPipes := by omega
    refine ⟨⟨quota.openFiles - 1, quota.openPipes - 1, quota.pipeFdMask &&& ~~~(BitVec.twoPow 64 fd)⟩, ?_, ?_⟩
    · simp [debugAssert, positive, some, small, BitVec.twoPow_eq]
      rfl
    · exact ⟨by simp only; omega, by simp only; omega, mask, by simp only; omega, by simp only; omega, short⟩
  | false =>
    rw [isPipe, if_neg Bool.false_ne_true] at pipes
    refine ⟨⟨quota.openFiles - 1, quota.openPipes, quota.pipeFdMask &&& ~~~(BitVec.twoPow 64 fd)⟩, ?_, ?_⟩
    · simp [debugAssert, positive, small, BitVec.twoPow_eq]
    · exact ⟨by simp only; omega, by simp only; omega, mask, by simp only; omega, by simp only; omega, short⟩

/-! ### The operations -/

theorem reserveFiles_eq (quota : QuotaState) (small : quota.openFiles ≤ maxOpenFiles) :
    quota.reserveFiles 1 = if quota.openFiles + 1 ≤ maxOpenFiles then .ok { quota with openFiles := quota.openFiles + 1 }
      else .error .tooManyFiles := by
  have fits : quota.openFiles + 1 < 2 ^ 64 := by unfold maxOpenFiles at small; omega
  unfold QuotaState.reserveFiles
  simp only [checkedAdd, if_pos fits]
  split_ifs <;> first | rfl | omega

theorem reservePipeFds_ok {amount : Nat} {quota' : QuotaState} (run : quota.reservePipeFds amount = .ok quota') :
    quota.openFiles + amount ≤ maxOpenFiles ∧ quota.openPipes + amount ≤ maxOpenPipeFds ∧
      quota' = { quota with openFiles := quota.openFiles + amount, openPipes := quota.openPipes + amount } := by
  unfold QuotaState.reservePipeFds at run
  split at run
  · cases run
  · rename_i nextFiles added
    obtain ⟨_, rfl⟩ := checkedAdd_eq_some.mp added
    split at run
    · cases run
    · split at run
      · cases run
      · rename_i nextPipes added
        obtain ⟨_, rfl⟩ := checkedAdd_eq_some.mp added
        split at run
        · cases run
        · exact ⟨by omega, by omega, (Except.ok.inj run).symm⟩

/-- Which of the two limits refuses a new pipe. -/
theorem reservePipeFds_error {error : IpcError} (files : quota.openFiles ≤ maxOpenFiles) (pipes : quota.openPipes ≤ maxOpenPipeFds)
    (run : quota.reservePipeFds 2 = .error error) :
    error = .tooManyFiles ∧ maxOpenFiles < quota.openFiles + 2 ∨
      error = .resourceExhausted ∧ quota.openFiles + 2 ≤ maxOpenFiles ∧ maxOpenPipeFds < quota.openPipes + 2 := by
  have fitFiles : quota.openFiles + 2 < 2 ^ 64 := by unfold maxOpenFiles at files; omega
  have fitPipes : quota.openPipes + 2 < 2 ^ 64 := by unfold maxOpenPipeFds at pipes; omega
  unfold QuotaState.reservePipeFds at run
  simp only [checkedAdd, if_pos fitFiles, if_pos fitPipes] at run
  split_ifs at run with full fullPipes
  · exact Or.inl ⟨(Except.error.inj run).symm, full⟩
  · exact Or.inr ⟨(Except.error.inj run).symm, Nat.le_of_not_lt full, fullPipes⟩

theorem releasePipeFds_eq {amount : Nat} (files : amount ≤ quota.openFiles) (pipes : amount ≤ quota.openPipes) :
    quota.releasePipeFds amount =
      .ok { quota with openFiles := quota.openFiles - amount, openPipes := quota.openPipes - amount } := by
  simp [QuotaState.releasePipeFds, debugAssert, files, pipes]
  rfl

variable {task : TaskControlBlock}

/-- The open files of `after` are open in `before`, or are the file `new`. -/
def OpenFrom (before after : List (Option File)) (new : Option File) : Prop :=
  ∀ fd file, slot after fd = some file → (∃ old, slot before old = some file) ∨ new = some file

theorem OpenFrom.refl {new : Option File} : OpenFrom table table new := fun fd _ looked => Or.inl ⟨fd, looked⟩

theorem OpenFrom.clear : OpenFrom table (table.set fd none) none := by
  intro other file looked
  rw [slot_clear] at looked
  split_ifs at looked
  exact Or.inl ⟨other, looked⟩

theorem OpenFrom.fill : OpenFrom table (fill table file) (some file) := by
  intro other found looked
  rw [slot_fill] at looked
  split_ifs at looked
  · exact Or.inr looked
  · exact Or.inl ⟨other, looked⟩

theorem OpenFrom.fill_old (opened : slot table fd = some file) : OpenFrom table (Lib.fill table file) none := by
  intro other found looked
  rcases OpenFrom.fill other found looked with old | new
  · exact Or.inl old
  · exact Or.inl ⟨fd, opened.trans new⟩

theorem openFd_spec (accounted : Accounted task.fdTable task.security.quota) (plain : file.isPipe = false) :
    ∃ fdTable quota ret,
      task.openFd file = .ok ({ task with fdTable, security := { task.security with quota } }, ret) ∧
      Accounted fdTable quota ∧ OpenFrom task.fdTable fdTable (some file) := by
  unfold TaskControlBlock.openFd ProcessSecurityState.reserveFileFd
  rw [reserveFiles_eq _ accounted.fewFiles]
  split_ifs with room
  · refine ⟨fill task.fdTable file, _, freeSlot task.fdTable, ?_, accounted.fill_plain room plain, .fill⟩
    simp only [bind, Except.bind, pure, Except.pure, TaskControlBlock.installFd_eq]
  · exact ⟨task.fdTable, task.security.quota, _, rfl, accounted, .refl⟩

theorem closeFd_spec (accounted : Accounted task.fdTable task.security.quota) (fd : Nat) :
    ∃ fdTable quota ret,
      task.closeFd fd = .ok ({ task with fdTable, security := { task.security with quota } }, ret) ∧
      Accounted fdTable quota ∧ OpenFrom task.fdTable fdTable none := by
  unfold TaskControlBlock.closeFd ProcessSecurityState.releaseFd
  rw [TaskControlBlock.file_eq_slot]
  cases opened : slot task.fdTable fd with
  | none => exact ⟨task.fdTable, task.security.quota, -1, rfl, accounted, .refl⟩
  | some file =>
    obtain ⟨quota, released, after⟩ := accounted.release opened
    refine ⟨task.fdTable.set fd none, quota, 0, ?_, after, .clear⟩
    simp only [released, bind, Except.bind, pure, Except.pure]

theorem dupFd_spec (accounted : Accounted task.fdTable task.security.quota) (fd : Nat) :
    ∃ fdTable quota ret,
      task.dupFd fd = .ok ({ task with fdTable, security := { task.security with quota } }, ret) ∧
      Accounted fdTable quota ∧ OpenFrom task.fdTable fdTable none := by
  unfold TaskControlBlock.dupFd ProcessSecurityState.reserveDupFd QuotaState.reserveDupFd
  rw [TaskControlBlock.file_eq_slot, accounted.isPipeFd]
  cases opened : slot task.fdTable fd with
  | none => exact ⟨task.fdTable, task.security.quota, -1, rfl, accounted, .refl⟩
  | some file =>
    have kind : isPipeSlot (some file) = file.isPipe := rfl
    rw [kind]
    cases isPipe : file.isPipe with
    | false =>
      simp only [Bool.false_eq_true, if_false, reserveFiles_eq _ accounted.fewFiles]
      split_ifs with room
      · refine ⟨fill task.fdTable file, _, freeSlot task.fdTable, ?_, accounted.fill_plain room isPipe, .fill_old opened⟩
        simp only [bind, Except.bind, pure, Except.pure, TaskControlBlock.installFd_eq, Except.mapError]
        rfl
      · exact ⟨task.fdTable, task.security.quota, _, rfl, accounted, .refl⟩
    | true =>
      simp only [if_true]
      cases reserved : task.security.quota.reservePipeFds 1 with
      | error error => exact ⟨task.fdTable, task.security.quota, _, rfl, accounted, .refl⟩
      | ok quota =>
        obtain ⟨room, roomForPipe, rfl⟩ := reservePipeFds_ok reserved
        refine ⟨fill task.fdTable file, _, freeSlot task.fdTable, ?_, accounted.fill_pipe room roomForPipe isPipe,
          .fill_old opened⟩
        simp only [bind, Except.bind, pure, Except.pure, TaskControlBlock.installFd_eq, Except.mapError,
          ProcessSecurityState.registerPipeFd, registerPipeFd_eq (accounted.freeSlot_lt room), if_true]

theorem pipe_registered (reader writer : File) {quota' : QuotaState} (accounted : Accounted table quota)
    (reserved : quota.reservePipeFds 2 = .ok quota') (isReader : reader.isPipe = true) (isWriter : writer.isPipe = true) :
    ∃ middle last, quota'.registerPipeFd (freeSlot table) = .ok middle ∧
      middle.registerPipeFd (freeSlot (fill table reader)) = .ok last ∧
      Accounted (fill (fill table reader) writer) last := by
  obtain ⟨room, roomForPipe, rfl⟩ := reservePipeFds_ok reserved
  have one := accounted.fill_pipe (by omega) (by omega) isReader
  have two := one.fill_pipe room roomForPipe isWriter
  exact ⟨_, _, registerPipeFd_eq (accounted.freeSlot_lt (by omega)), registerPipeFd_eq (one.freeSlot_lt room), two⟩

/-- Two files installed and taken away again leave the entries of the table as they were. -/
theorem slot_released (table : List (Option File)) (reader writer : File) (fd : Nat) :
    slot (((fill (fill table reader) writer).set (freeSlot table) none).set (freeSlot (fill table reader)) none) fd =
      slot table fd := by
  rw [slot_clear, slot_clear, slot_fill, slot_fill]
  split_ifs with second first
  · have free := slot_freeSlot (fill table reader)
    rw [slot_fill, ← second] at free
    split_ifs at free with same
    exact free.symm
  · rw [first, slot_freeSlot]
  · rfl

/-- Both ends of a new pipe taken away again; the table may have grown by empty slots. -/
theorem pipe_released (reader writer : File) {quota' : QuotaState} (accounted : Accounted table quota)
    (reserved : quota.reservePipeFds 2 = .ok quota') :
    quota'.releasePipeFds 2 = .ok quota ∧
      Accounted (((fill (fill table reader) writer).set (freeSlot table) none).set (freeSlot (fill table reader)) none)
        quota := by
  obtain ⟨room, roomForPipe, rfl⟩ := reservePipeFds_ok reserved
  have files := accounted.files
  have counts : ∀ p : Option File → Bool, p none = false → (((fill (fill table reader) writer).set (freeSlot table)
      none).set (freeSlot (fill table reader)) none).countP p = table.countP p := by
    intro p empty
    have second := countP_clear ((fill (fill table reader) writer).set (freeSlot table) none)
      (freeSlot (fill table reader)) empty
    have first := countP_clear (fill (fill table reader) writer) (freeSlot table) empty
    have apart : freeSlot (fill table reader) ≠ freeSlot table := by
      intro same
      have free := slot_freeSlot (fill table reader)
      rw [slot_fill, if_pos same] at free
      cases free
    rw [slot_clear, if_neg apart, slot_fill, if_pos rfl] at second
    rw [slot_fill, if_neg apart.symm, slot_fill, if_pos rfl, countP_fill empty, countP_fill empty] at first
    omega
  refine ⟨?_, ?_⟩
  · rw [releasePipeFds_eq (by simp only; omega) (by simp only; omega)]
    simp only [Nat.add_sub_cancel]
  · refine ⟨?_, ?_, ?_, accounted.fewFiles, accounted.fewPipes, ?_⟩
    · rw [counts _ rfl]
      exact files
    · rw [counts _ rfl]
      exact accounted.pipes
    · intro fd
      rw [slot_released]
      exact accounted.mask fd
    · rw [List.length_set, List.length_set]
      refine length_fill (length_fill accounted.short (by omega)) ?_
      rw [countP_fill rfl, ← files]
      simp only [Option.isSome_some, if_true]
      omega

end

end SecureIpc

import SecureIpc.Guarantees.Exec
import SecureIpc.Mm.UserString

/-!
`sys_exec` from the caller's strings to the start of the new program. The strings are read byte by
byte as characters and written as UTF-8, so that only ASCII arrives unchanged.
-/

namespace SecureIpc
open Lib

/-! ### The bytes of a string and its characters -/

/-- The `String` that `try_translated_str` makes of bytes. -/
def encode (bytes : List UInt8) : Utf8 := bytes.flatMap utf8OfLatin1

theorem utf8OfLatin1_cases (b : UInt8) :
    (b < 0x80 ∧ utf8OfLatin1 b = [b]) ∨ (¬b < 0x80 ∧ (utf8OfLatin1 b).length = 2 ∧ 0 ∉ utf8OfLatin1 b) := by
  have high : ∀ n < 256, ¬UInt8.ofNat n < 0x80 → 0 ∉ utf8OfLatin1 (UInt8.ofNat n) := by decide +kernel
  by_cases ascii : b < 0x80
  · exact Or.inl ⟨ascii, if_pos ascii⟩
  · have nonzero := high b.toNat b.toNat_lt
    rw [UInt8.ofNat_toNat] at nonzero
    refine Or.inr ⟨ascii, ?_, nonzero ascii⟩
    rw [utf8OfLatin1, if_neg ascii]
    rfl

theorem encode_cons (b : UInt8) (rest : List UInt8) : encode (b :: rest) = utf8OfLatin1 b ++ encode rest := List.flatMap_cons

theorem encode_length (bytes : List UInt8) :
    bytes.length ≤ (encode bytes).length ∧ (encode bytes).length ≤ 2 * bytes.length := by
  induction bytes with
  | nil => exact ⟨Nat.le_refl 0, Nat.le_refl 0⟩
  | cons b rest ih =>
    rw [encode_cons, List.length_append, List.length_cons]
    rcases utf8OfLatin1_cases b with ⟨_, one⟩ | ⟨_, two, _⟩
    · rw [one, List.length_singleton]
      omega
    · omega

theorem encode_free {bytes : List UInt8} (free : 0 ∉ bytes) : 0 ∉ encode bytes := by
  intro zero
  obtain ⟨b, member, inside⟩ := List.mem_flatMap.mp zero
  rcases utf8OfLatin1_cases b with ⟨_, one⟩ | ⟨_, _, nonzero⟩
  · rw [one, List.mem_singleton] at inside
    exact free (inside ▸ member)
  · exact nonzero inside

theorem encode_eq_self {bytes : List UInt8} : encode bytes = bytes ↔ ∀ b ∈ bytes, b < 0x80 := by
  induction bytes with
  | nil => exact ⟨nofun, fun _ => rfl⟩
  | cons b rest ih =>
    rw [encode_cons, List.forall_mem_cons, ← ih]
    rcases utf8OfLatin1_cases b with ⟨ascii, one⟩ | ⟨high, two, _⟩
    · rw [one, List.singleton_append, List.cons.injEq]
      exact ⟨fun same => ⟨ascii, same.2⟩, fun same => ⟨rfl, same.2⟩⟩
    · refine ⟨fun same => ?_, fun same => absurd same.1 high⟩
      have lengths := congrArg List.length same
      have longer := (encode_length rest).1
      rw [List.length_append, two, List.length_cons] at lengths
      omega

/-! ### The caller's arguments -/

section
variable {mem : PhysMem} {token : Nat}

/-- The array at `args` points to these strings, each one followed by a zero byte. -/
inductive CallerArgv (mem : PhysMem) (token : Nat) : Nat → List (List UInt8) → Prop where
  | nil {args : Nat} (last : UserHolds mem token args (toBytes 8 0)) : CallerArgv mem token args []
  | cons {args ptr : Nat} {bytes : List UInt8} {strings : List (List UInt8)} (nonzero : ptr ≠ 0) (word : ptr < 2 ^ 64)
      (pointer : UserHolds mem token args (toBytes 8 ptr)) (free : 0 ∉ bytes)
      (string : UserHolds mem token ptr (bytes ++ [0])) (rest : CallerArgv mem token ((args + 8) % 2 ^ 64) strings) :
      CallerArgv mem token args (bytes :: strings)

theorem copyFromUser_holds {addr : Nat} {bytes : List UInt8} (run : copyFromUser mem token addr 8 = .ok (.ok bytes)) :
    UserHolds mem token addr bytes ∧ bytes.length = 8 := by
  by_cases range : UserRange mem token addr 8 false
  · obtain ⟨value, success, size, holds⟩ := copyFromUser_ok (by decide) range
    obtain rfl := Except.ok.inj (Except.ok.inj (run.symm.trans success))
    exact ⟨holds, size⟩
  · have checked : checkUserRange mem token addr 8 false = false := by
      rw [← Bool.not_eq_true, checkUserRange_iff_range (by decide)]
      exact range
    have refused : tryTranslatedByteBuffer mem token addr 8 false = .ok none := by
      unfold tryTranslatedByteBuffer
      rw [checked]
      rfl
    unfold copyFromUser at run
    rw [if_neg (by decide), refused] at run
    cases run

theorem tryTranslatedStr_some {start maxLen : Nat} {arg : Utf8} (run : tryTranslatedStr mem token start maxLen = .ok (some arg)) :
    ∃ bytes, bytes.length < maxLen ∧ 0 ∉ bytes ∧ UserHolds mem token start (bytes ++ [0]) ∧ arg = encode bytes := by
  have accepted : start ≠ 0 ∧ maxLen ≠ 0 ∧ start + maxLen ≤ 2 ^ 38 := by
    unfold tryTranslatedStr at run
    by_cases refused : start = 0 ∨ maxLen = 0
    · rw [if_pos refused] at run
      cases run
    rw [if_neg refused] at run
    cases sum : checkedAdd start maxLen with
    | none =>
      rw [sum] at run
      cases run
    | some limit =>
      rw [sum] at run
      dsimp only at run
      by_cases large : userVaLimit < limit
      · rw [if_pos large] at run
        cases run
      have total := checkedAdd_eq_some.mp sum
      have value : userVaLimit = 2 ^ 38 := rfl
      omega
  obtain ⟨nonzero, positive, below⟩ := accepted
  rw [tryTranslatedStr_eq nonzero positive below] at run
  obtain ⟨bytes, read, rfl⟩ := Option.map_eq_some_iff.mp (Except.ok.inj run)
  obtain ⟨short, _, each, zero⟩ := (readString_pages below).mp read
  refine ⟨bytes, short, fun member => ?_, fun i inside => ?_, rfl⟩
  · obtain ⟨i, inside, value⟩ := List.mem_iff_getElem.mp member
    exact (each i inside).2 value
  · by_cases last : i < bytes.length
    · rw [List.getElem_append_left last]
      exact (each i last).1
    · rw [List.length_append, List.length_singleton] at inside
      obtain rfl : i = bytes.length := by omega
      rw [List.getElem_append_right (Nat.le_refl _)]
      simpa using zero

/-- One turn of the loop over the argument pointers: an error, the end of the array, or an argument. -/
theorem execArgs_step {room args : Nat} {outcome : Except Int (List Utf8)} (run : execArgs mem token room args = .ok outcome) :
    outcome = .error (-14) ∨ outcome = .error (-1) ∨ ∃ bytes, copyFromUser mem token args 8 = .ok (.ok bytes) ∧
      (ofBytes bytes = 0 ∧ outcome = .ok [] ∨ ofBytes bytes ≠ 0 ∧ ∃ room' arg others, room = room' + 1 ∧
        tryTranslatedStr mem token (ofBytes bytes) maxStrLen = .ok (some arg) ∧
        execArgs mem token room' ((args + 8) % 2 ^ 64) = .ok others ∧ outcome = others.map (arg :: ·)) := by
  unfold execArgs at run
  cases copied : copyFromUser mem token args 8 with
  | error fault =>
    rw [copied] at run
    cases run
  | ok value =>
    rw [copied] at run
    cases value with
    | error error => exact Or.inl (Except.ok.inj run).symm
    | ok bytes =>
      simp only [bind, Except.bind, pure, Except.pure] at run
      by_cases zero : ofBytes bytes = 0
      · rw [if_pos zero] at run
        exact Or.inr (Or.inr ⟨bytes, rfl, Or.inl ⟨zero, (Except.ok.inj run).symm⟩⟩)
      rw [if_neg zero] at run
      cases room with
      | zero => exact Or.inr (Or.inl (Except.ok.inj run).symm)
      | succ room =>
        dsimp only at run
        cases translated : tryTranslatedStr mem token (ofBytes bytes) maxStrLen with
        | error fault =>
          rw [translated] at run
          cases run
        | ok string =>
          rw [translated] at run
          cases string with
          | none => exact Or.inl (Except.ok.inj run).symm
          | some arg =>
            dsimp only at run
            cases later : execArgs mem token room ((args + 8) % 2 ^ 64) with
            | error fault =>
              rw [later] at run
              cases run
            | ok others =>
              rw [later] at run
              refine Or.inr (Or.inr ⟨bytes, rfl, Or.inr ⟨zero, room, arg, others, rfl, translated, later, ?_⟩⟩)
              cases others with
              | error ret => exact (Except.ok.inj run).symm
              | ok rest => exact (Except.ok.inj run).symm

theorem execArgs_ok {room args : Nat} {argsVec : List Utf8} (run : execArgs mem token room args = .ok (.ok argsVec)) :
    ∃ bytes, copyFromUser mem token args 8 = .ok (.ok bytes) ∧
      (ofBytes bytes = 0 ∧ argsVec = [] ∨ ofBytes bytes ≠ 0 ∧ ∃ room' arg rest, room = room' + 1 ∧
        tryTranslatedStr mem token (ofBytes bytes) maxStrLen = .ok (some arg) ∧
        execArgs mem token room' ((args + 8) % 2 ^ 64) = .ok (.ok rest) ∧ argsVec = arg :: rest) := by
  rcases execArgs_step run with failed | failed | ⟨bytes, copied, ⟨zero, done⟩ | ⟨nonzero, room', arg, others, left, translated, later, done⟩⟩
  · cases failed
  · cases failed
  · exact ⟨bytes, copied, Or.inl ⟨zero, Except.ok.inj done⟩⟩
  · cases others with
    | error ret => cases done
    | ok rest => exact ⟨bytes, copied, Or.inr ⟨nonzero, room', arg, rest, left, translated, later, Except.ok.inj done⟩⟩

theorem execArgs_error {room args : Nat} {ret : Int} (run : execArgs mem token room args = .ok (.error ret)) : ret < 0 := by
  induction room using Nat.strongRecOn generalizing args with
  | ind room ih =>
    rcases execArgs_step run with failed | failed | ⟨_, _, ⟨_, done⟩ | ⟨_, room', _, others, rfl, _, later, done⟩⟩
    · obtain rfl := Except.error.inj failed
      decide
    · obtain rfl := Except.error.inj failed
      decide
    · cases done
    · cases others with
      | error ret' =>
        obtain rfl := Except.error.inj done
        exact ih room' (Nat.lt_succ_self room') later
      | ok rest => cases done

theorem CallerArgv.free {args : Nat} {strings : List (List UInt8)} (listed : CallerArgv mem token args strings) :
    ∀ string ∈ strings, 0 ∉ string := by
  induction listed with
  | nil => exact nofun
  | cons _ _ _ free _ _ ih => exact List.forall_mem_cons.mpr ⟨free, ih⟩

theorem execArgs_strings {args : Nat} {strings : List (List UInt8)} (listed : CallerArgv mem token args strings) :
    ∀ {room argsVec}, execArgs mem token room args = .ok (.ok argsVec) → argsVec = strings.map encode := by
  induction listed with
  | nil last =>
    intro room argsVec run
    obtain ⟨bytes, copied, result⟩ := execArgs_ok run
    obtain ⟨holds, size⟩ := copyFromUser_holds copied
    obtain rfl := holds.same last (by rw [toBytes_length]; exact size)
    rcases result with ⟨_, rfl⟩ | ⟨nonzero, _⟩
    · rfl
    · exact absurd (by decide) nonzero
  | @cons args ptr bytes strings nonzero word pointer free string rest ih =>
    intro room argsVec run
    obtain ⟨read, copied, result⟩ := execArgs_ok run
    obtain ⟨holds, size⟩ := copyFromUser_holds copied
    obtain rfl := holds.same pointer (by rw [toBytes_length]; exact size)
    have value : ofBytes (toBytes 8 ptr) = ptr := by
      rw [ofBytes_toBytes]
      exact Nat.mod_eq_of_lt word
    rw [value] at result
    rcases result with ⟨zero, _⟩ | ⟨_, room', arg, others, _, translated, later, rfl⟩
    · exact absurd zero nonzero
    · obtain ⟨bytes', _, free', string', rfl⟩ := tryTranslatedStr_some translated
      obtain rfl := string'.same_string free' free string
      rw [ih later]
      rfl

/-- At most `room` arguments, none longer than twice the limit. -/
theorem execArgs_bounds {room args : Nat} {argsVec : List Utf8} (run : execArgs mem token room args = .ok (.ok argsVec)) :
    argsVec.length ≤ room ∧ ∀ arg ∈ argsVec, 0 ∉ arg ∧ arg.length < 2 ^ 32 := by
  induction argsVec generalizing room args with
  | nil => exact ⟨Nat.zero_le _, nofun⟩
  | cons arg rest ih =>
    obtain ⟨_, _, result⟩ := execArgs_ok run
    rcases result with ⟨_, none⟩ | ⟨_, room', arg', rest', rfl, translated, later, same⟩
    · cases none
    · obtain ⟨rfl, rfl⟩ := List.cons.inj same
      obtain ⟨few, each⟩ := ih later
      obtain ⟨bytes, short, free, _, rfl⟩ := tryTranslatedStr_some translated
      have double := (encode_length bytes).2
      have limit : maxStrLen = 65536 := rfl
      refine ⟨Nat.succ_le_succ few, List.forall_mem_cons.mpr ⟨⟨encode_free free, ?_⟩, each⟩⟩
      omega

end

/-! ### The call -/

section
variable {P : Platform} {k k₂ k' : Kernel P} {s : System P} {id path args : Nat} {task : TaskControlBlock}
variable {data : List UInt8} {elf : ElfFile} {argsVec : List Utf8} {strings : List (List UInt8)} {mm₁ : Mm}
variable {image : MemorySet × Nat × Nat}

/-- `path` names a file with these contents. -/
def ReadsFile (k : Kernel P) (token path : Nat) (data : List UInt8) (k₂ : Kernel P) : Prop :=
  ∃ name inode k₁, tryTranslatedStr k.mm.mem token path maxStrLen = .ok (some name) ∧
    openFile name 0 k = .ok (some inode, k₁) ∧ readAll inode readAllBound 0 [] k₁ = .ok (data, k₂)

theorem ReadsFile.acts {token : Nat} (file : ReadsFile k token path data k₂) : Acts k k₂ ∧ ∃ disk, k₂ = { k with disk } := by
  obtain ⟨name, inode, k₁, _, opened, read⟩ := file
  obtain ⟨disk₁, rfl, onward, fresh⟩ := wp_ok (openFile_onward (E := fun _ => True) name 0 trivial) opened
  obtain ⟨disk₂, rfl, onward'⟩ := wp_ok (readAll_onward (E := fun _ => True) onward (fresh inode rfl) readAllBound [] trivial) read
  exact ⟨onward'.act.one, disk₂, rfl⟩

/-- With a file to load and its arguments read, the call is `exec`. -/
theorem sysExec_rule {Q : Int → Kernel P → Prop} {E : Halt → Prop} (current : k.current = some id)
    (found : k.tasks id = some task) (file : ReadsFile k task.getUserToken path data k₂)
    (listed : execArgs k.mm.mem task.getUserToken maxArgv args = .ok (.ok argsVec))
    (next : wp (exec id data argsVec) (fun _ k' => Q argsVec.length k') E k₂) : wp (sysExec path args) Q E k := by
  obtain ⟨_, disk, same⟩ := file.acts
  obtain ⟨name, inode, k₁, named, opened, read⟩ := file
  have current₂ : k₂.current = some id := by
    rw [same]
    exact current
  simp only [sysExec, wp_bind, wp_currentUserToken current found, wp_userMemory, named, listed, fault, Except.mapError, wp_lift_ok]
  refine wp_of_run opened ?_
  dsimp only
  rw [wp_bind]
  refine wp_of_run read ?_
  rw [wp_bind, wp_currentTask, current₂]
  dsimp only
  rw [wp_bind]
  exact next

/-- The call puts the arguments where the program can write them, or stops. -/
theorem sysExec_spec (sound : Sound k) (current : k.current = some id) (found : k.tasks id = some task)
    (file : ReadsFile k task.getUserToken path data k₂)
    (listed : execArgs k.mm.mem task.getUserToken maxArgv args = .ok (.ok argsVec))
    (loaded : MemorySet.fromElf P.layout P.parseElf data k₂.mm = .ok (image, mm₁)) :
    wp (sysExec path args) (fun r k' => r = argsVec.length ∧ Room mm₁ image.1.token image.2.1 argsVec ∧
      ∃ task', k'.tasks id = some task' ∧ Execed k'.mm.mem task' image.2.1 argsVec)
      (fun halt => halt = .fault .argumentArea ∧ ¬Room mm₁ image.1.token image.2.1 argsVec) k := by
  obtain ⟨acts, disk, same⟩ := file.acts
  have current₂ : k₂.current = some id := by
    rw [same]
    exact current
  have found₂ : k₂.tasks id = some task := by
    rw [same]
    exact found
  obtain ⟨few, short⟩ := execArgs_bounds listed
  have most : maxArgv = 64 := rfl
  refine sysExec_rule current found file listed ?_
  refine wp_mono (exec_rule (acts.sound sound) current₂ found₂ loaded (fun arg member => (short arg member).2) (by omega)) ?_
    fun _ failed => failed
  exact fun _ _ done => ⟨rfl, done⟩

theorem fromElf_image (sound : Sound k) (current : k.current = some id) (found : k.tasks id = some task)
    (file : ReadsFile k task.getUserToken path data k₂) (parsed : P.parseElf data = some elf)
    (loaded : MemorySet.fromElf P.layout P.parseElf data k₂.mm = .ok (image, mm₁)) :
    Image P.layout k₂.mm mm₁ elf image.1 ∧ image.2.1 = elf.stackTop := by
  obtain ⟨_, disk, same⟩ := file.acts
  have alive := sound.table.current_live current (table_place found)
  have before := ((sound.isolated.task found).space alive).whole.owns
  have valid : (frameStore P.layout).valid k₂.mm := by
    rw [same]
    exact before.valid
  obtain ⟨elf', parsed', loads, place⟩ := wp_ok (fromElf_spec valid P.parseElf data) loaded
  obtain rfl := Option.some.inj (parsed.symm.trans parsed')
  refine ⟨loads, ?_⟩
  rw [place]

/-- A call that returns a count has read its arguments and loaded the program. -/
theorem sysExec_ok {r : Int} (current : k.current = some id) (found : k.tasks id = some task)
    (file : ReadsFile k task.getUserToken path data k₂) (ran : sysExec path args k = .ok (r, k')) (success : 0 ≤ r) :
    ∃ argsVec image mm₁, execArgs k.mm.mem task.getUserToken maxArgv args = .ok (.ok argsVec) ∧
      MemorySet.fromElf P.layout P.parseElf data k₂.mm = .ok (image, mm₁) := by
  have ⟨name, _, _, named, _⟩ := file
  cases listed : execArgs k.mm.mem task.getUserToken maxArgv args with
  | error f =>
    have stops : wp (sysExec path args) (fun _ _ => False) (fun _ => True) k := by
      simp only [sysExec, wp_bind, wp_currentUserToken current found, wp_userMemory, named, listed, fault, Except.mapError,
        wp_lift_ok, wp_lift_error]
    exact (wp_ok stops ran).elim
  | ok outcome =>
    cases outcome with
    | error ret =>
      have returns : wp (sysExec path args) (fun r _ => r = ret) (fun _ => True) k := by
        simp only [sysExec, wp_bind, wp_currentUserToken current found, wp_userMemory, named, listed, fault, Except.mapError,
          wp_lift_ok, wp_pure]
      have value := wp_ok returns ran
      have negative := execArgs_error listed
      omega
    | ok argsVec =>
      cases loaded : MemorySet.fromElf P.layout P.parseElf data k₂.mm with
      | ok pair => exact ⟨argsVec, pair.1, pair.2, rfl, rfl⟩
      | error f =>
        have stops : wp (sysExec path args) (fun _ _ => False) (fun _ => True) k := by
          refine sysExec_rule current found file listed ?_
          unfold exec
          rw [wp_bind]
          refine wp_zoom ?_
          unfold wp
          rw [loaded]
          trivial
        exact (wp_ok stops ran).elim

/-! ### Runs -/

theorem readAll_round {image : List UInt8} {k : Kernel (machine image)} {fuel offset : Nat} {v : List UInt8} :
    readAll () (fuel + 1) offset v k = (if (slice image offset 512).length = 0 then pure v
      else readAll () fuel (offset + (slice image offset 512).length) (v ++ slice image offset 512) : KernelM (machine image) _) k := by
  have short : (slice image offset 512).take 512 = slice image offset 512 := List.take_of_length_le (by rw [slice_length]; omega)
  rw [← short]
  rfl

theorem readAll_behind {image : List UInt8} {k : Kernel (machine image)} {fuel offset : Nat} {v : List UInt8} (behind : image.length ≤ offset) :
    readAll () (fuel + 1) offset v k = .ok (v ++ image.drop offset, k) := by
  rw [readAll_round, if_pos (by rw [slice_length]; omega), List.drop_of_length_le behind, List.append_nil]
  rfl

theorem readAll_image {image : List UInt8} {k : Kernel (machine image)} {fuel offset : Nat} {v : List UInt8}
    (enough : image.length ≤ offset + 512 * fuel) : readAll () (fuel + 1) offset v k = .ok (v ++ image.drop offset, k) := by
  induction fuel generalizing offset v with
  | zero => exact readAll_behind (by omega)
  | succ fuel ih =>
    by_cases behind : image.length ≤ offset
    · exact readAll_behind behind
    · have length := @slice_length image offset 512
      have rest : slice image offset 512 ++ image.drop (offset + (slice image offset 512).length) = image.drop offset := by
        by_cases last : image.length ≤ offset + 512
        · rw [slice, List.take_of_length_le (by rw [List.length_drop]; omega), List.length_drop,
            show offset + (image.length - offset) = image.length by omega, List.drop_length, List.append_nil]
        · rw [show (slice image offset 512).length = 512 by omega, slice, ← List.drop_drop, List.take_append_drop]
      rw [readAll_round, if_neg (by omega), ih (by omega), List.append_assoc, rest]

theorem machine_readsFile {image : List UInt8} {k : Kernel (machine image)} {token path : Nat} {name : Utf8} (small : image.length ≤ 512 * 16540)
    (named : tryTranslatedStr k.mm.mem token path maxStrLen = .ok (some name)) : ReadsFile k token path image k :=
  ⟨name, (), k, named, rfl, readAll_image (show image.length ≤ 0 + 512 * 16540 by omega)⟩

theorem sample_readsFile {k : Kernel sample} {token path : Nat} {name : Utf8}
    (named : tryTranslatedStr k.mm.mem token path maxStrLen = .ok (some name)) : ReadsFile k token path sampleImage k :=
  machine_readsFile (by rw [sampleImage, executable_length]; decide) named

theorem sample_parses : sample.parseElf sampleImage = some (executableElf 7 0x1000 4) := by
  have parse : sample.parseElf = ElfFile.read := rfl
  rw [parse]
  exact @ElfFile.read_executable 7 0x1000 [1, 2, 3, 4] (by decide) (by decide) (by decide)

/-- The first process writes a pointer to its first string, and executes the file of that name. -/
theorem sample_exec : ∃ (s : System sample) (k' : Kernel sample) (task : TaskControlBlock), Reachable s ∧
    s.kernel.current = some initproc ∧ s.kernel.tasks initproc = some task ∧
    tryTranslatedStr s.kernel.mm.mem task.getUserToken 0x10000 maxStrLen = .ok (some [1, 2, 3, 4]) ∧
    CallerArgv s.kernel.mm.mem task.getUserToken 0x10008 [[1, 2, 3, 4]] ∧ sysExec 0x10000 0x10008 s.kernel = .ok (1, k') := by
  have ran : ((run sample [.schedule 0 [], .store 0x1000A 1]).toOption.any fun s => s.kernel.current == some initproc &&
      (s.kernel.tasks initproc).any fun task =>
        (tryTranslatedStr s.kernel.mm.mem task.getUserToken 0x10000 maxStrLen).toOption == some (some [1, 2, 3, 4]) &&
        UserHolds s.kernel.mm.mem task.getUserToken 0x10008 (toBytes 8 0x10000) &&
        UserHolds s.kernel.mm.mem task.getUserToken 0x10000 [1, 2, 3, 4, 0] &&
        UserHolds s.kernel.mm.mem task.getUserToken 0x10010 (toBytes 8 0) &&
        (sysExec 0x10000 0x10008 s.kernel).toOption.any fun result => result.1 == 1) = true := by decide +kernel
  simp only [Option.any_eq_true, toOption_eq_some, Bool.and_eq_true, beq_iff_eq, decide_eq_true_eq] at ran
  obtain ⟨s, result, current, task, found, ⟨⟨⟨named, pointer⟩, string⟩, last⟩, ⟨r, k'⟩, execed, value⟩ := ran
  dsimp only at value
  subst value
  refine ⟨s, k', task, run_reachable result, current, found, named, ?_, execed⟩
  exact .cons (by decide) (by decide) pointer (by decide) string (.nil last)

/-! ### Room for the arguments -/

/-- The arguments are on the new stack, or the call returns an error and the process is as before. -/
def ExecOutcome (k : Kernel P) (id : Nat) (task : TaskControlBlock) (path args : Nat) (elf : ElfFile) (argsVec : List Utf8) : Prop :=
  (∃ k' task' pointers, sysExec path args k = .ok (argsVec.length, k') ∧ k'.tasks id = some task' ∧
    Startup k'.mm.mem task' elf argsVec pointers) ∨
  ∃ r k', sysExec path args k = .ok (r, k') ∧ r < 0 ∧ k'.tasks id = some task ∧
    TrapContext.load k'.mm.mem task.trapCxPpn = TrapContext.load k.mm.mem task.trapCxPpn

/-- `sys_exec` places the arguments of a program that can be loaded exactly when they fit. -/
theorem exec_arguments_placed_iff (reachable : Reachable s) (current : s.kernel.current = some id)
    (found : s.kernel.tasks id = some task) (file : ReadsFile s.kernel task.getUserToken path data k₂)
    (listed : execArgs s.kernel.mm.mem task.getUserToken maxArgv args = .ok (.ok argsVec))
    (parsed : P.parseElf data = some elf)
    (loaded : MemorySet.fromElf P.layout P.parseElf data k₂.mm = .ok (image, mm₁)) :
    ExecOutcome s.kernel id task path args elf argsVec ↔
      argumentBytes argsVec ≤ userStackSize ∧ argumentBytes argsVec < elf.stackTop ∧ elf.stackTop ≤ 2 ^ 38 := by
  have sound := reachable.sound
  obtain ⟨loads, top⟩ := fromElf_image sound current found file parsed loaded
  have spec := sysExec_spec sound current found file listed loaded
  rw [top] at spec
  have size : userStackSize = 8192 := rfl
  constructor
  · intro outcome
    rcases outcome with ⟨k', task', pointers, ran, found', startup⟩ | ⟨r, k', ran, negative, _⟩
    · obtain ⟨_, room, task'', found'', execed⟩ := wp_ok spec ran
      obtain rfl := Option.some.inj (found'.symm.trans found'')
      have limit := room.2.1
      have positive := room.1
      have total : argumentBytes argsVec = (argsVec.length + 1) * 8 + stringBytes argsVec := rfl
      have bottom := loads.stackTop_eq (by omega)
      obtain ⟨_, rfl⟩ := execed.pointers_eq positive startup
      refine ⟨?_, positive, by omega⟩
      by_cases none : argsVec = []
      · rw [none]
        decide
      · obtain ⟨range, member, lowest⟩ := stringRanges_lowest none
        have inside := startup.inside range (List.mem_cons_of_mem _ member)
        omega
    · have value := (wp_ok spec ran).1
      omega
  · intro ⟨fits, positive, low⟩
    have bottom := loads.stackTop_eq low
    have room : Room mm₁ image.1.token elf.stackTop argsVec :=
      ⟨positive, by omega, fun a above below => loads.stackPage low (by omega) (by omega)⟩
    cases ran : sysExec path args s.kernel with
    | error halt => exact absurd room (wp_error spec ran).2
    | ok result =>
      obtain ⟨r, k'⟩ := result
      obtain ⟨rfl, _, task', found', execed⟩ := wp_ok spec ran
      exact Or.inl ⟨k', task', _, ran, found', execed.startup positive (by omega)⟩

end

theorem sample_arguments_placed : ∃ (s : System sample) (task : TaskControlBlock), Reachable s ∧
    s.kernel.tasks initproc = some task ∧ sample.parseElf sampleImage = some (executableElf 7 0x1000 4) ∧
    ExecOutcome s.kernel initproc task 0x10000 0x10008 (executableElf 7 0x1000 4) [[1, 2, 3, 4]] := by
  obtain ⟨s, k', task, reachable, current, found, named, argv, ran⟩ := sample_exec
  have file := sample_readsFile named
  obtain ⟨argsVec, image, mm₁, listed, loaded⟩ := sysExec_ok current found file ran (by decide)
  obtain rfl := execArgs_strings argv listed
  refine ⟨s, task, reachable, found, sample_parses, ?_⟩
  exact (exec_arguments_placed_iff reachable current found file listed sample_parses loaded).mpr (by decide +kernel)

/-! ### More arguments than the stack holds -/

/-- A program of 334 characters and 24 pointers to them. -/
def crowdedImage : List UInt8 :=
  executable 7 0x1000 (List.replicate 334 0x61 ++ List.replicate 2 0 ++ (List.replicate 24 (toBytes 8 0x10000)).flatten)

def crowded : Platform := machine crowdedImage

theorem execArgs_replicate {mem : PhysMem} {token : Nat} {arg : Utf8} {bytes : List UInt8} (nonzero : ofBytes bytes ≠ 0)
    (string : tryTranslatedStr mem token (ofBytes bytes) maxStrLen = .ok (some arg)) {count args room : Nat}
    (enough : count ≤ room) (word : args + 8 * count < 2 ^ 64)
    (slots : ∀ i < count, copyFromUser mem token (args + 8 * i) 8 = .ok (.ok bytes))
    (last : copyFromUser mem token (args + 8 * count) 8 = .ok (.ok (toBytes 8 0))) :
    execArgs mem token room args = .ok (.ok (List.replicate count arg)) := by
  induction count generalizing args room with
  | zero =>
    unfold execArgs
    rw [Nat.mul_zero, Nat.add_zero] at last
    rw [last]
    rfl
  | succ count ih =>
    obtain ⟨room, rfl⟩ := Nat.exists_eq_add_of_le' (Nat.le_trans (Nat.succ_pos count) enough)
    have first : copyFromUser mem token args 8 = .ok (.ok bytes) := slots 0 (Nat.succ_pos count)
    have rest := @ih (args + 8) room (by omega) (by omega) (fun i less => by
      rw [show args + 8 + 8 * i = args + 8 * (i + 1) by omega]
      exact slots (i + 1) (Nat.succ_lt_succ less)) (by
      rw [show args + 8 + 8 * count = args + 8 * (count + 1) by omega]
      exact last)
    unfold execArgs
    rw [first]
    simp only [bind, Except.bind, if_neg nonzero, string]
    rw [Nat.mod_eq_of_lt (show args + 8 < 2 ^ 64 by omega), rest]
    rfl

/-- 24 strings of 334 bytes pass every check of `sys_exec`, and stop the kernel. -/
theorem too_many_arguments : ∃ (s : System crowded) (task : TaskControlBlock), Reachable s ∧
    s.kernel.current = some initproc ∧ s.kernel.tasks initproc = some task ∧
    ReadsFile s.kernel task.getUserToken 0x10000 crowdedImage s.kernel ∧
    execArgs s.kernel.mm.mem task.getUserToken maxArgv 0x10150 = .ok (.ok (List.replicate 24 (List.replicate 334 0x61))) ∧
    (∃ image mm₁, MemorySet.fromElf crowded.layout crowded.parseElf crowdedImage s.kernel.mm = .ok (image, mm₁)) ∧
    sysExec 0x10000 0x10150 s.kernel = .error (.fault .argumentArea) := by
  have ran : ((run crowded [.schedule 0 []]).toOption.any fun s => s.kernel.current == some initproc &&
      (s.kernel.tasks initproc).any fun task =>
        (tryTranslatedStr s.kernel.mm.mem task.getUserToken 0x10000 maxStrLen).toOption == some (some (List.replicate 334 0x61)) &&
        (List.range 24).all (fun i => (copyFromUser s.kernel.mm.mem task.getUserToken (0x10150 + 8 * i) 8).toOption.any
          fun bytes => bytes.toOption == some (toBytes 8 0x10000)) &&
        (copyFromUser s.kernel.mm.mem task.getUserToken (0x10150 + 8 * 24) 8).toOption.any
          (fun bytes => bytes.toOption == some (toBytes 8 0)) &&
        (MemorySet.fromElf crowded.layout crowded.parseElf crowdedImage s.kernel.mm).toOption.any fun loaded =>
          loaded.1.2.1 == 0x14000 &&
            ((PageTable.fromToken loaded.1.1.token).translate loaded.2.mem 0x11).all
              fun pte => !PTEFlags.contains pte.flags PTEFlags.U) = true := by decide +kernel
  simp only [Option.any_eq_true, toOption_eq_some, Bool.and_eq_true, beq_iff_eq, List.all_eq_true, List.mem_range] at ran
  obtain ⟨s, result, current, task, found, ⟨⟨named, slots⟩, last⟩, ⟨image, mm₁⟩, loaded, top, guard⟩ := ran
  have reachable := run_reachable result
  have file : ReadsFile s.kernel task.getUserToken 0x10000 crowdedImage s.kernel :=
    machine_readsFile (by
      rw [crowdedImage, executable_length]
      simp only [List.length_append, List.length_replicate, List.length_flatten, List.map_replicate, toBytes_length, List.sum_replicate_nat]
      omega) named
  have listed : execArgs s.kernel.mm.mem task.getUserToken maxArgv 0x10150 = .ok (.ok (List.replicate 24 (List.replicate 334 0x61))) := by
    refine @execArgs_replicate _ _ _ (toBytes 8 0x10000) (by decide) named _ _ _ (by decide) (by decide) (fun i less => ?_) ?_
    · obtain ⟨outcome, copied, bytes⟩ := slots i less
      rw [copied, bytes]
    · obtain ⟨outcome, copied, bytes⟩ := last
      rw [copied, bytes]
  have spec := sysExec_spec reachable.sound current found file listed loaded
  dsimp only at top guard
  have tooMuch : ¬Room mm₁ image.1.token image.2.1 (List.replicate 24 (List.replicate 334 0x61)) := by
    intro ⟨_, range⟩
    have total : argumentBytes (List.replicate 24 (List.replicate 334 0x61)) = 8240 := by decide +kernel
    rw [top, total] at range
    -- the lowest byte of the strings lies on the guard page
    obtain ⟨pte, leaf, user, _⟩ := range.2 73680 (by decide) (by decide)
    rw [translate_eq_some.mpr leaf] at guard
    simp [user] at guard
  refine ⟨s, task, reachable, current, found, file, listed, ⟨image, mm₁, loaded⟩, ?_⟩
  cases ran : sysExec 0x10000 0x10150 s.kernel with
  | ok outcome => exact absurd (wp_ok spec ran).2.1 tooMuch
  | error halt => rw [(wp_error spec ran).1]

section
variable {P : Platform} {k k₂ k' : Kernel P} {s : System P} {id path args : Nat} {task : TaskControlBlock}
variable {data : List UInt8} {elf : ElfFile} {argsVec : List Utf8} {strings : List (List UInt8)} {mm₁ : Mm}
variable {image : MemorySet × Nat × Nat}

/-! ### The strings of the new program -/

/-- A program finds the caller's strings on its stack exactly when they are ASCII. -/
theorem exec_passes_strings_iff {r : Int} (reachable : Reachable s) (current : s.kernel.current = some id)
    (found : s.kernel.tasks id = some task) (listed : CallerArgv s.kernel.mm.mem task.getUserToken args strings)
    (file : ReadsFile s.kernel task.getUserToken path data k₂) (parsed : P.parseElf data = some elf)
    (fits : argumentBytes strings ≤ userStackSize) (ran : sysExec path args s.kernel = .ok (r, k')) (success : 0 ≤ r) :
    (∃ task' pointers, k'.tasks id = some task' ∧ Startup k'.mm.mem task' elf strings pointers) ↔
      ∀ string ∈ strings, ∀ b ∈ string, b < 0x80 := by
  have sound := reachable.sound
  obtain ⟨argsVec, image, mm₁, read, loaded⟩ := sysExec_ok current found file ran success
  obtain ⟨loads, top⟩ := fromElf_image sound current found file parsed loaded
  have spec := sysExec_spec sound current found file read loaded
  rw [top] at spec
  obtain ⟨_, room, task', found', execed⟩ := wp_ok spec ran
  have encoded := execArgs_strings listed read
  have size : userStackSize = 8192 := rfl
  constructor
  · intro ⟨task'', pointers, found'', startup⟩
    obtain rfl := Option.some.inj (found'.symm.trans found'')
    obtain ⟨count, rfl⟩ := execed.pointers_eq room.1 startup
    have places := stringPlaces_length (elf.stackTop - (argsVec.length + 1) * 8) argsVec
    intro string member
    obtain ⟨i, inside, rfl⟩ := List.mem_iff_getElem.mp member
    -- the program reads the original string and its encoding at the same address
    have original := startup.string _ _ (zipWith_mem (by omega) inside)
    have written := (execed.parts room.1).2.2 _ _ (zipWith_mem (by omega) (show i < argsVec.length by omega))
    have free := listed.free _ member
    have value : argsVec[i] = encode strings[i] := by
      simp only [encoded, List.getElem_map]
    rw [value] at written
    exact encode_eq_self.mp (written.same_string (encode_free free) free original)
  · intro ascii
    have same : strings.map encode = strings := by
      rw [List.map_congr_left fun string member => encode_eq_self.mpr (ascii string member)]
      exact List.map_id' strings
    rw [same] at encoded
    subst encoded
    have limit := room.2.1
    have positive := room.1
    have bottom := loads.stackTop_eq (by omega)
    exact ⟨task', _, found', execed.startup positive (by omega)⟩

end

theorem sample_strings_passed : ∃ (s : System sample) (k' : Kernel sample) (task' : TaskControlBlock) (pointers : List Nat),
    Reachable s ∧ sysExec 0x10000 0x10008 s.kernel = .ok (1, k') ∧ k'.tasks initproc = some task' ∧
    Startup k'.mm.mem task' (executableElf 7 0x1000 4) [[1, 2, 3, 4]] pointers := by
  obtain ⟨s, k', task, reachable, current, found, named, argv, ran⟩ := sample_exec
  obtain ⟨task', pointers, found', startup⟩ := (exec_passes_strings_iff reachable current found argv (sample_readsFile named) sample_parses
    (by decide) ran (by decide)).mpr (by simp)
  exact ⟨s, k', task', pointers, reachable, ran, found', startup⟩

/-- The byte `E9` arrives as the two bytes `C3 A9`. -/
theorem latin1_string_changed : ∃ (s : System sample) (k' : Kernel sample) (task : TaskControlBlock), Reachable s ∧
    s.kernel.current = some initproc ∧ s.kernel.tasks initproc = some task ∧
    CallerArgv s.kernel.mm.mem task.getUserToken 0x10008 [[0xE9]] ∧ sysExec 0x10002 0x10008 s.kernel = .ok (1, k') ∧
    ∀ task' elf pointers, k'.tasks initproc = some task' → ¬Startup k'.mm.mem task' elf [[0xE9]] pointers := by
  have ran : ((run sample [.schedule 0 [], .store 0x10000 0xE9, .store 0x10001 0, .store 0x1000A 1]).toOption.any fun s =>
      s.kernel.current == some initproc && (s.kernel.tasks initproc).any fun task =>
        UserHolds s.kernel.mm.mem task.getUserToken 0x10008 (toBytes 8 0x10000) &&
        UserHolds s.kernel.mm.mem task.getUserToken 0x10000 [0xE9, 0] &&
        UserHolds s.kernel.mm.mem task.getUserToken 0x10010 (toBytes 8 0) &&
        (sysExec 0x10002 0x10008 s.kernel).toOption.any fun result => result.1 == 1 &&
          (result.2.tasks initproc).any fun task' =>
            UserHolds result.2.mm.mem task'.getUserToken (task'.register result.2.mm.mem 11) (toBytes 8 0x13FED) &&
            userByte result.2.mm.mem task'.getUserToken 0x13FED == some 0xC3) = true := by decide +kernel
  simp only [Option.any_eq_true, toOption_eq_some, Bool.and_eq_true, beq_iff_eq, decide_eq_true_eq] at ran
  obtain ⟨s, result, current, task, found, ⟨⟨pointer, string⟩, last⟩, ⟨r, k'⟩, execed, value, task', found', place, byte⟩ := ran
  dsimp only at value found' place byte
  subst value
  refine ⟨s, k', task, run_reachable result, current, found, ?_, execed, ?_⟩
  · exact .cons (by decide) (by decide) pointer (by decide) string (.nil last)
  · intro task'' elf pointers found'' startup
    obtain rfl := Option.some.inj (found'.symm.trans found'')
    obtain ⟨first, rfl⟩ := List.length_eq_one_iff.mp startup.count
    have limit := (startup.inside (first, 2) (List.mem_cons_of_mem _ List.mem_cons_self)).2
    have word : elf.stackTop < 2 ^ 64 := Nat.mod_lt _ (Nat.two_pow_pos 64)
    have small : first < 2 ^ 64 := Nat.lt_of_le_of_lt (Nat.le_trans (Nat.le_add_right first 2) limit) word
    have argv := startup.pointer 0 Nat.one_pos
    simp only [Nat.mul_zero, Nat.add_zero, List.getElem_cons_zero] at argv
    have same : first = 0x13FED := argv.same_word place small (by decide)
    subst same
    have original := startup.string _ [0xE9] List.mem_cons_self 0 (Nat.succ_pos 1)
    rw [Nat.add_zero, byte] at original
    exact absurd original (by decide)

end SecureIpc

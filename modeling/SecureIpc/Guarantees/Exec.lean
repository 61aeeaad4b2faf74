import SecureIpc.Run.Step
import SecureIpc.Task.Argv

/-!
What a program finds after `sys_exec`: the registers, `argv` and the strings on its new stack. The
strings are written as UTF-8, and nothing compares their size with that of the stack.
-/

namespace SecureIpc
open Lib

/-- The program reads `bytes` at `addr`. -/
def UserHolds (mem : PhysMem) (token addr : Nat) (bytes : List UInt8) : Prop :=
  ∀ i (inside : i < bytes.length), userByte mem token (addr + i) = some bytes[i]

instance {mem : PhysMem} {token addr : Nat} {bytes : List UInt8} : Decidable (UserHolds mem token addr bytes) :=
  inferInstanceAs (Decidable (∀ i (inside : i < bytes.length), userByte mem token (addr + i) = some bytes[i]))

theorem Shows.holds {mem : PhysMem} {token addr : Nat} {view : Memory} {bytes : List UInt8} {write : Bool}
    (shows : Shows mem token view) (range : UserRange mem token addr bytes.length write)
    (loaded : view.load addr bytes.length = bytes) : UserHolds mem token addr bytes := by
  intro i inside
  have limit := range.1
  rw [shows.userByte (by omega) (range.2 _ (by omega) (by omega))]
  have value := congrArg (·[i]?) loaded
  simpa [Memory.load, inside] using value

theorem load_readWord (view : Memory) (addr : Nat) : view.load addr 8 = toBytes 8 (view.readWord addr) := by
  have same := toBytes_ofBytes (view.load addr 8)
  rw [Memory.load_length] at same
  exact same.symm

section
variable {P : Platform} {k k' : Kernel P} {id : Nat} {task : TaskControlBlock} {memorySet : MemorySet}

def TaskControlBlock.register (task : TaskControlBlock) (mem : PhysMem) (n : Nat) : Nat :=
  mem.readWord (TrapContext.wordAddr task.trapCxPpn n)

def argumentRanges (argv : Nat) (pointers : List Nat) (strings : List (List UInt8)) : List (Nat × Nat) :=
  (argv, 8 * (strings.length + 1)) :: List.zipWith (fun place string => (place, string.length + 1)) pointers strings

/-- The program is about to start with these strings on its stack. -/
structure Startup (mem : PhysMem) (task : TaskControlBlock) (elf : ElfFile) (strings : List (List UInt8)) (pointers : List Nat) :
    Prop where
  argc : task.register mem 10 = strings.length
  count : pointers.length = strings.length
  pointer : ∀ i (inside : i < pointers.length),
    UserHolds mem task.getUserToken (task.register mem 11 + 8 * i) (toBytes 8 pointers[i])
  last : UserHolds mem task.getUserToken (task.register mem 11 + 8 * strings.length) (toBytes 8 0)
  string : ∀ place string, (place, string) ∈ pointers.zip strings → UserHolds mem task.getUserToken place (string ++ [0])
  inside : ∀ range ∈ argumentRanges (task.register mem 11) pointers strings,
    elf.stackBottom ≤ range.1 ∧ range.1 + range.2 ≤ elf.stackTop
  apart : (argumentRanges (task.register mem 11) pointers strings).Pairwise fun first second =>
    first.1 + first.2 ≤ second.1 ∨ second.1 + second.2 ≤ first.1
  aligned : task.register mem 2 % 8 = 0
  below : ∀ range ∈ argumentRanges (task.register mem 11) pointers strings, task.register mem 2 ≤ range.1

/-- The arguments can be written below the top of the stack. -/
def Room (mm : Mm) (token top : Nat) (args : List Utf8) : Prop :=
  argumentBytes args < top ∧ UserRange mm.mem token (top - argumentBytes args) (argumentBytes args) true

/-- What `exec` leaves behind, wherever the arguments lie. -/
structure Execed (mem : PhysMem) (task : TaskControlBlock) (top : Nat) (args : List Utf8) : Prop where
  argc : task.register mem 10 = args.length
  argv : task.register mem 11 = top - (args.length + 1) * 8
  sp : task.register mem 2 = (top - argumentBytes args) - (top - argumentBytes args) % 8
  range : UserRange mem task.getUserToken (top - argumentBytes args) (argumentBytes args) true
  block : ∃ view view', Shows mem task.getUserToken view' ∧ ArgumentBlock view view' top args

theorem trapCxPpnOf_rule (user : UserSpace P.layout k.mm memorySet) :
    wp (trapCxPpnOf memorySet) (fun ppn k' => k' = k ∧ ppn ∈ memorySet.dataFrames ∧ ppn ∉ memorySet.userFrames)
      (fun _ => False) k := by
  have page : VirtAddr.toVpn (VirtAddr.ofUsize trapContext) = .ok trapContextVpn := by decide
  obtain ⟨frame, owned, unreachable, leaf⟩ := user.trapFrame
  have small := live_small user.whole.owns (List.mem_append_right _ owned)
  have valid : (memorySet.pageTable.leaf k.mm.mem trapContextVpn).isValid = true := by
    rw [leaf]
    exact isValid_new (by decide)
  have found : memorySet.translate k.mm.mem trapContextVpn = some _ := translate_of_valid valid
  unfold trapCxPpnOf
  rw [page]
  simp only [wp_bind, userMemory, wp_read, fault, Except.mapError, wp_lift_ok]
  rw [found, leaf]
  refine ⟨rfl, ?_⟩
  rw [PageTableEntry.ppn_new small (by decide)]
  exact ⟨owned, unreachable⟩

theorem Execed.start {mm : Mm} {view view' : Memory} {ppn top : Nat} {args : List Utf8} {context : TrapContext}
    (user : UserSpace P.layout mm memorySet) (owned : ppn ∈ memorySet.dataFrames) (unreachable : ppn ∉ memorySet.userFrames)
    (range : UserRange mm.mem memorySet.token (top - argumentBytes args) (argumentBytes args) true)
    (shows : Shows mm.mem memorySet.token view') (block : ArgumentBlock view view' top args) (word : top < 2 ^ 64)
    (few : args.length < 2 ^ 16) (registers : context.x =
      (((List.replicate 32 0).set 2 (top - argumentBytes args - (top - argumentBytes args) % 8)).set 10 args.length).set 11
        (top - (args.length + 1) * 8)) :
    Execed (context.store ppn mm.mem) { task with memorySet, trapCxPpn := ppn } top args := by
  have size : context.words.length = 37 := by
    rw [TrapContext.words, List.length_append, registers]
    rfl
  have apart : ∀ x, x / 4096 ∈ memorySet.pageTable.frames ∨ x / 4096 ∈ memorySet.userFrames →
      context.store ppn mm.mem x = mm.mem x := by
    intro x mine
    have other : x / 4096 ≠ ppn := by
      rintro rfl
      rcases mine with table | page
      · exact user.whole.owns.disjoint table owned
      · exact unreachable page
    have length : (context.words.flatMap (toBytes 8)).length = 296 := by
      rw [List.length_flatMap]
      simp [toBytes_length, size]
    apply Memory.store_outside
    rw [length]
    show x < ppn * 4096 ∨ ppn * 4096 + 296 ≤ x
    omega
  obtain ⟨table, shows'⟩ := shows.keep user apart
  have register : ∀ n (inside : n < context.words.length), TaskControlBlock.register { task with memorySet, trapCxPpn := ppn }
      (context.store ppn mm.mem) n = context.words[n] % 2 ^ 64 := fun n inside => Memory.readWord_storeWords inside
  refine ⟨?_, ?_, ?_, table.range.mpr range, view, view', shows', block⟩
  · have value : context.words[10] = args.length := by
      simp only [TrapContext.words, registers]
      rfl
    rw [register 10 (by omega), value]
    exact Nat.mod_eq_of_lt (by omega)
  · have value : context.words[11] = top - (args.length + 1) * 8 := by
      simp only [TrapContext.words, registers]
      rfl
    rw [register 11 (by omega), value]
    exact Nat.mod_eq_of_lt (by omega)
  · have value : context.words[2] = top - argumentBytes args - (top - argumentBytes args) % 8 := by
      simp only [TrapContext.words, registers]
      rfl
    rw [register 2 (by omega), value]
    exact Nat.mod_eq_of_lt (by omega)

theorem exec_rule (sound : Sound k) (current : k.current = some id) (found : k.tasks id = some task) {data : List UInt8}
    {args : List Utf8} {top entry : Nat} {mm₁ : Mm}
    (loaded : MemorySet.fromElf P.layout P.parseElf data k.mm = .ok ((memorySet, top, entry), mm₁))
    (short : ∀ arg ∈ args, arg.length < 2 ^ 32) (few : args.length < 2 ^ 16) :
    wp (exec id data args) (fun _ k' => Room mm₁ memorySet.token top args ∧
      ∃ task', k'.tasks id = some task' ∧ Execed k'.mm.mem task' top args)
      (fun halt => halt = .fault .argumentArea ∧ ¬Room mm₁ memorySet.token top args) k := by
  have alive := sound.table.current_live current (table_place found)
  have before := ((sound.isolated.task found).space alive).whole.owns
  obtain ⟨elf, _, image, place⟩ := wp_ok (fromElf_spec before.valid P.parseElf data) loaded
  have topEq : top = elf.stackTop := congrArg Prod.fst place
  have aligned : top % 8 = 0 := by
    have page := elf.stackTop_aligned
    omega
  have word : top < 2 ^ 64 := by
    rw [topEq]
    exact Nat.mod_lt _ (Nat.two_pow_pos 64)
  have pushes := pushArguments_rule image.user.distinct.shows aligned word short few
  unfold exec
  rw [wp_bind]
  refine wp_zoom (wp_of_run loaded ?_)
  dsimp only
  rw [wp_bind]
  refine wp_mono (trapCxPpnOf_rule (k := { k with mm := mm₁ }) image.user) ?_ fun _ impossible => impossible.elim
  intro trapCxPpn k₁ both
  obtain ⟨same, owned, unreachable⟩ := both
  subst same
  rw [wp_bind]
  refine wp_zoom (wp_intro (fun stack mm₂ run => ?_) fun fault run => ?_)
  rotate_left
  · have failed := wp_error pushes run
    exact ⟨congrArg Halt.fault failed.1, failed.2⟩
  obtain ⟨room, rfl, view', becomes, block⟩ := wp_ok pushes run
  have stored := wp_ok (pushArguments_stored image.user _ args) run
  have user₂ := image.user.stored stored fun _ => userFrames_subset
  have beside := image.beside before stored
  have found₂ : ({ k with mm := mm₂ } : Kernel P).tasks id = some task := found
  dsimp only
  rw [wp_bind]
  refine innerOf_rule found₂ ?_
  rw [wp_bind]
  refine wp_zoom (wp_mono (drop_spec beside.owns.left) ?_ fun _ impossible => impossible.elim)
  intro _ mm₃ both
  obtain ⟨memory, _⟩ := both
  rw [wp_bind, wp_putInner, wp_bind, kernelToken, wp_read]
  have found₃ := Kernel.setTask_same { k with mm := mm₃ } id { task with memorySet, trapCxPpn }
  rw [initTrapCx, wp_bind]
  refine innerOf_rule found₃ ?_
  refine ⟨room, _, found₃, ?_⟩
  show Execed (TrapContext.store _ trapCxPpn mm₃.mem) _ top args
  rw [memory]
  exact Execed.start user₂ owned unreachable (becomes.table.range.mpr room.2) becomes.shows block word few rfl

/-! ### The program finds its arguments -/

section
variable {mem : PhysMem} {elf : ElfFile} {args : List Utf8} {top : Nat}

theorem Execed.parts (execed : Execed mem task top args) (room : argumentBytes args < top) :
    (∀ i (inside : i < (stringPlaces (top - (args.length + 1) * 8) args).length),
      UserHolds mem task.getUserToken (top - (args.length + 1) * 8 + 8 * i)
        (toBytes 8 (stringPlaces (top - (args.length + 1) * 8) args)[i])) ∧
      UserHolds mem task.getUserToken (top - 8) (toBytes 8 0) ∧
      ∀ place arg, (place, arg) ∈ (stringPlaces (top - (args.length + 1) * 8) args).zip args →
        UserHolds mem task.getUserToken place (arg ++ [0]) := by
  obtain ⟨view, view', shows, block⟩ := execed.block
  have total : argumentBytes args = (args.length + 1) * 8 + stringBytes args := rfl
  have count := stringPlaces_length (top - (args.length + 1) * 8) args
  have holds : ∀ {addr bytes}, view'.load addr (List.length bytes) = bytes → top - argumentBytes args ≤ addr →
      addr + bytes.length ≤ top → UserHolds mem task.getUserToken addr bytes := fun loaded above below =>
    shows.holds (execed.range.part above (by omega)) loaded
  have word : ∀ {addr value}, view'.readWord addr = value → top - argumentBytes args ≤ addr → addr + 8 ≤ top →
      UserHolds mem task.getUserToken addr (toBytes 8 value) := by
    intro addr value read above below
    refine holds ?_ above (by rw [toBytes_length]; exact below)
    rw [toBytes_length, load_readWord, read]
  refine ⟨fun i inside => ?_, ?_, fun place arg member => ?_⟩
  · exact word (block.arguments.pointer inside) (by omega) (by omega)
  · exact word block.last (by omega) (by omega)
  · have listed : (place, arg.length + 1) ∈ stringRanges (top - (args.length + 1) * 8) args := by
      rw [stringRanges, ← List.map_uncurry_zip_eq_zipWith]
      exact List.mem_map_of_mem member
    have limits := stringRanges_inside (by omega) _ listed
    have size : (arg ++ [0]).length = arg.length + 1 := List.length_append
    refine holds ?_ ?_ ?_
    · rw [size]
      exact block.arguments.string member
    · omega
    · omega

theorem Execed.startup (execed : Execed mem task elf.stackTop args) (room : argumentBytes args < elf.stackTop)
    (inside : elf.stackBottom ≤ elf.stackTop - argumentBytes args) :
    Startup mem task elf args (stringPlaces (elf.stackTop - (args.length + 1) * 8) args) := by
  obtain ⟨pointers, last, strings⟩ := execed.parts room
  have total : argumentBytes args = (args.length + 1) * 8 + stringBytes args := rfl
  have argv := execed.argv
  have places := stringRanges_inside (show stringBytes args ≤ elf.stackTop - (args.length + 1) * 8 by omega)
  have ranges : ∀ range ∈ argumentRanges (task.register mem 11) (stringPlaces (elf.stackTop - (args.length + 1) * 8) args) args,
      elf.stackTop - argumentBytes args ≤ range.1 ∧ range.1 + range.2 ≤ elf.stackTop := by
    intro range member
    rw [argv] at member
    rcases List.mem_cons.mp member with rfl | string
    · dsimp only
      omega
    · have place := places range string
      omega
  refine ⟨execed.argc, stringPlaces_length _ args, ?_, ?_, strings, fun range member => ?_, ?_, ?_, fun range member => ?_⟩
  · rw [argv]
    exact pointers
  · rw [argv, show elf.stackTop - (args.length + 1) * 8 + 8 * args.length = elf.stackTop - 8 by omega]
    exact last
  · have place := ranges range member
    omega
  · rw [argv]
    have apart := stringRanges_apart (show stringBytes args ≤ elf.stackTop - (args.length + 1) * 8 by omega)
    exact .cons (fun range member => Or.inr (places range member).2) (apart.imp Or.inr)
  · rw [execed.sp]
    omega
  · have place := ranges range member
    rw [execed.sp]
    omega

end

/-! ### What the program finds is determined -/

theorem UserHolds.same {mem : PhysMem} {token addr : Nat} {first second : List UInt8} (left : UserHolds mem token addr first)
    (right : UserHolds mem token addr second) (size : first.length = second.length) : first = second := by
  refine List.ext_getElem size fun i inside inside' => ?_
  exact Option.some.inj ((left i inside).symm.trans (right i inside'))

theorem UserHolds.same_word {mem : PhysMem} {token addr value value' : Nat} (left : UserHolds mem token addr (toBytes 8 value))
    (right : UserHolds mem token addr (toBytes 8 value')) (small : value < 2 ^ 64) (small' : value' < 2 ^ 64) : value = value' := by
  have bytes := congrArg ofBytes (left.same right (by rw [toBytes_length, toBytes_length]))
  rw [ofBytes_toBytes, ofBytes_toBytes] at bytes
  have power : 256 ^ 8 = 2 ^ 64 := rfl
  rwa [power, Nat.mod_eq_of_lt small, Nat.mod_eq_of_lt small'] at bytes

/-- A string ends at its first zero byte. -/
theorem UserHolds.same_string {mem : PhysMem} {token addr : Nat} {first second : List UInt8} (free : 0 ∉ first) (free' : 0 ∉ second)
    (left : UserHolds mem token addr (first ++ [0])) (right : UserHolds mem token addr (second ++ [0])) : first = second := by
  have shorter : ∀ {a b : List UInt8}, 0 ∉ b → UserHolds mem token addr (a ++ [0]) → UserHolds mem token addr (b ++ [0]) →
      ¬a.length < b.length := by
    intro a b free left right less
    have zero := left a.length (by simp)
    have other := right a.length (by simp; omega)
    rw [List.getElem_append_right (Nat.le_refl _)] at zero
    rw [List.getElem_append_left less] at other
    have value := Option.some.inj (other.symm.trans zero)
    simp only [Nat.sub_self, List.getElem_cons_zero] at value
    exact free (value ▸ List.getElem_mem less)
  have size : first.length = second.length :=
    Nat.le_antisymm (Nat.le_of_not_lt (shorter free right left)) (Nat.le_of_not_lt (shorter free' left right))
  exact List.append_cancel_right (left.same right (by simp [size]))

theorem zipWith_mem {α β γ : Type} {f : α → β → γ} {left : List α} {right : List β} {i : Nat} (inside : i < left.length)
    (inside' : i < right.length) : f left[i] right[i] ∈ List.zipWith f left right := by
  have bound : i < (List.zipWith f left right).length := by
    rw [List.length_zipWith]
    omega
  rw [← List.getElem_zipWith (h := bound)]
  exact List.getElem_mem bound

/-- The pointers in `argv` are those that `exec` has put there. -/
theorem Execed.pointers_eq {mem : PhysMem} {elf : ElfFile} {args : List Utf8} {strings : List (List UInt8)} {pointers : List Nat}
    (execed : Execed mem task elf.stackTop args) (room : argumentBytes args < elf.stackTop)
    (startup : Startup mem task elf strings pointers) :
    strings.length = args.length ∧ pointers = stringPlaces (elf.stackTop - (args.length + 1) * 8) args := by
  have word : elf.stackTop < 2 ^ 64 := Nat.mod_lt _ (Nat.two_pow_pos 64)
  have total : argumentBytes args = (args.length + 1) * 8 + stringBytes args := rfl
  have size : strings.length = args.length := startup.argc.symm.trans execed.argc
  have places := stringRanges_inside (show stringBytes args ≤ elf.stackTop - (args.length + 1) * 8 by omega)
  refine ⟨size, List.ext_getElem ?_ fun i inside inside' => ?_⟩
  · rw [startup.count, size, stringPlaces_length]
  · have mine := startup.pointer i inside
    have theirs := (execed.parts room).1 i inside'
    rw [execed.argv] at mine
    have less : i < strings.length := by
      rw [← startup.count]
      exact inside
    have less' : i < args.length := by omega
    have mineInside := startup.inside _ (List.mem_cons_of_mem _ (zipWith_mem inside less))
    have theirsInside := places _ (zipWith_mem inside' less')
    dsimp only at mineInside theirsInside
    exact mine.same_word theirs (by omega) (by omega)

end

end SecureIpc

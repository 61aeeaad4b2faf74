import SecureIpc.Run.Invariant

/-! The process table, the scheduler and the reaping of children in every run. -/

namespace SecureIpc
open Lib

section
variable {P : Platform} {k k' : Kernel P} {s s' : System P} {id pid : Nat}

/-! ### A process is not removed in the step in which it exits -/

/-- The task is there, and if it has exited, no task is running. -/
def Stays (k : Kernel P) (id pid : Nat) : Prop :=
  ∃ task, k.tasks id = some task ∧ task.pid = pid ∧ (task.isZombie = true → k.current = none)

theorem Stays.setTask {other : Nat} {task task' : TaskControlBlock} (stays : Stays k id pid)
    (found : k.tasks other = some task) (tasks : k'.tasks = Kernel.set k.tasks other (some task'))
    (samePid : task'.pid = task.pid)
    (exits : task'.isZombie = true → task.isZombie = true ∨ k'.current = none)
    (rests : k.current = none → k'.current = none) : Stays k' id pid := by
  obtain ⟨own, looked, rfl, resting⟩ := stays
  by_cases same : id = other
  · subst same
    obtain rfl := Option.some.inj (found.symm.trans looked)
    refine ⟨task', by rw [tasks, Kernel.set_same], samePid, fun zombie => ?_⟩
    rcases exits zombie with already | idle
    · exact rests (resting already)
    · exact idle
  · exact ⟨own, by rw [tasks, Kernel.set_other same, looked], rfl, fun zombie => rests (resting zombie)⟩

theorem Act.stays (act : Act k k') (formed : k.table.WellFormed) (stays : Stays k id pid) : Stays k' id pid := by
  cases act with
  | environment | files | began | ended | memory | take | store | makePipe => exact stays
  | signals found => exact stays.setTask found rfl rfl Or.inl fun idle => idle
  | credentials _ found => exact stays.setTask found rfl rfl Or.inl fun idle => idle
  | descriptors _ found => exact stays.setTask found rfl rfl Or.inl fun idle => idle
  | exec _ found => exact stays.setTask found rfl rfl Or.inl fun idle => idle
  | suspend _ _ found => exact stays.setTask found rfl rfl (fun _ => Or.inr rfl) fun _ => rfl
  | @exit other task memorySet mm exitCode current found =>
    obtain ⟨own, looked, rfl, _⟩ := stays
    by_cases same : id = other
    · subst same
      obtain rfl := Option.some.inj (found.symm.trans looked)
      exact ⟨_, Kernel.set_same _ _ _, rfl, fun _ => rfl⟩
    · have kept : ∃ after, Kernel.adopted k.tasks task.children id = some after ∧ after.pid = own.pid := by
        unfold Kernel.adopted
        rw [looked]
        split_ifs
        · exact ⟨_, rfl, rfl⟩
        · exact ⟨_, rfl, rfl⟩
        · exact ⟨_, rfl, rfl⟩
      obtain ⟨after, adopted, samePid⟩ := kept
      exact ⟨after, (Kernel.set_other same).trans adopted, samePid, fun _ => rfl⟩
  | @fork parent trapCxPpn task memorySet kernelSpace mm₁ mm₂ current found =>
    obtain ⟨own, looked, rfl, resting⟩ := stays
    by_cases same : id = parent
    · subst same
      obtain rfl := Option.some.inj (found.symm.trans looked)
      exact ⟨_, Kernel.set_same _ _ _, rfl, resting⟩
    · have old : id ≠ k.nextTask := Nat.ne_of_lt (formed.small (table_place looked))
      exact ⟨own, (Kernel.set_other same).trans ((Kernel.set_other old).trans looked), rfl, resting⟩
  | @reap parent child vpn task exited pidAllocator kernelSpace mm₁ mm₂ current found member exitedFound zombie =>
    obtain ⟨own, looked, rfl, resting⟩ := stays
    have notChild : id ≠ child := by
      rintro rfl
      obtain rfl := Option.some.inj (exitedFound.symm.trans looked)
      rw [resting zombie] at current
      cases current
    by_cases same : id = parent
    · subst same
      obtain rfl := Option.some.inj (found.symm.trans looked)
      exact ⟨_, (Kernel.set_other notChild).trans (Kernel.set_same _ _ _), rfl, resting⟩
    · exact ⟨own, (Kernel.set_other notChild).trans ((Kernel.set_other same).trans looked), rfl, resting⟩

theorem staysLasting (id pid : Nat) : Lasting (P := P) fun k => Stays k id pid where
  act act sound stays := act.stays sound.table stays
  mark marked stays := by
    obtain ⟨found⟩ := marked
    exact stays.setTask found rfl rfl Or.inl fun idle => idle
  note _ stays := stays

/-- A task that lives before a step is still there after it, under the same pid. -/
theorem StepActs.stays (acts : StepActs s s') (sound : Sound s.kernel) {task : TaskControlBlock}
    (found : s.kernel.tasks id = some task) (alive : task.isZombie = false) :
    ∃ after, s'.kernel.tasks id = some after ∧ after.pid = task.pid := by
  obtain ⟨now, consoleInput, k, started, acts⟩ := acts
  have sound₁ := started_sound sound started
  have both : ∃ after, k.tasks id = some after ∧ after.pid = task.pid ∧ after.isZombie = false := by
    rcases started with rfl | ⟨idle, queue, first⟩
    · exact ⟨task, found, rfl, alive⟩
    · rename_i other rest next
      by_cases same : id = other
      · subst same
        obtain rfl := Option.some.inj (found.symm.trans first)
        exact ⟨_, Kernel.set_same _ _ _, rfl, rfl⟩
      · exact ⟨task, (Kernel.set_other same).trans found, rfl, alive⟩
  obtain ⟨after, looked, samePid, living⟩ := both
  have stays : Stays k id task.pid :=
    ⟨after, looked, samePid, fun zombie => absurd (living.symm.trans zombie) Bool.false_ne_true⟩
  obtain ⟨last, found', samePid', _⟩ := (staysLasting id task.pid).finishes acts sound₁ stays
  exact ⟨last, found', samePid'⟩

/-! ### The scheduler -/

theorem Sound.live_iff (sound : Sound k) : k.pid2tcb pid = some id ↔
    ∃ task, k.tasks id = some task ∧ task.isZombie = false ∧ task.pid = pid := by
  refine Iff.trans sound.table.registered ⟨?_, ?_⟩
  · rintro ⟨_, looked, rfl, alive⟩
    obtain ⟨task, found, rfl⟩ := Option.map_eq_some_iff.mp looked
    exact ⟨task, found, alive, rfl⟩
  · rintro ⟨task, found, alive, rfl⟩
    exact ⟨task.place, table_place found, rfl, alive⟩

/-- Queue, processor and pid map agree on the live processes. So a step never hands a registered
pid to another process, removing a pid from the map never fails, and a signal to a pid that no live
process has is answered with `-ESRCH`. -/
theorem scheduler_agrees_with_processes (reachable : Reachable s) :
    (∀ id task, s.kernel.tasks id = some task → task.isZombie = false →
      s.kernel.readyQueue.count id + (if s.kernel.current = some id then 1 else 0) = 1) ∧
    (∀ id, id ∈ s.kernel.readyQueue ∨ s.kernel.current = some id →
      ∃ task, s.kernel.tasks id = some task ∧ task.isZombie = false) ∧
    (∀ pid id, s.kernel.pid2tcb pid = some id ↔
      ∃ task, s.kernel.tasks id = some task ∧ task.isZombie = false ∧ task.pid = pid) ∧
    (∀ event s', step event s = .ok ((), s') → ∀ pid before after,
      s.kernel.pid2tcb pid = some before → s'.kernel.pid2tcb pid = some after → after = before) ∧
    (∀ event, step event s ≠ .error .pidNotRegistered) ∧
    ∀ pid signum, validSignal signum →
      (∀ id task, s.kernel.tasks id = some task → task.isZombie = false → task.pid ≠ pid) →
      sysKill pid signum s = .ok (-3, s) := by
  have sound := reachable.sound
  refine ⟨?_, ?_, fun pid id => sound.live_iff, ?_, ?_, ?_⟩
  · intro id task found alive
    rcases sound.table.scheduled.mpr ⟨task.pid, task.place, table_place found, rfl, alive⟩ with waiting | running
    · have apart : s.kernel.current ≠ some id := fun running => sound.table.apart running waiting
      have once : s.kernel.readyQueue.count id = 1 := List.count_eq_one_of_mem sound.table.once waiting
      rw [if_neg apart, once]
    · have running : s.kernel.current = some id := running
      have absent : s.kernel.readyQueue.count id = 0 := List.count_eq_zero_of_not_mem (sound.table.apart running)
      rw [if_pos running, absent]
  · intro id scheduled
    obtain ⟨pid, live⟩ := sound.table.scheduled.mp scheduled
    obtain ⟨task, found, alive, _⟩ := sound.live_iff.mp (sound.table.registered.mpr live)
    exact ⟨task, found, alive⟩
  · intro event s' stepped pid before after registered registered'
    obtain ⟨task, found, alive, rfl⟩ := sound.live_iff.mp registered
    have acts := step_acts sound stepped
    have sound' := acts.sound sound
    obtain ⟨kept, still, samePid⟩ := acts.stays sound found alive
    obtain ⟨other, found', _, samePid'⟩ := sound'.live_iff.mp registered'
    exact sound'.table.pids (table_place found') (table_place still) (samePid'.trans samePid.symm)
  · intro event stopped
    cases step_stops sound stopped
  · intro pid signum valid unused
    have unregistered : s.kernel.pid2tcb pid = none := by
      rw [Option.eq_none_iff_forall_ne_some]
      intro id registered
      obtain ⟨task, found, alive, samePid⟩ := sound.live_iff.mp registered
      exact unused id task found alive samePid
    have accepted : ¬(signum < 0 ∨ wordOfInt signum > maxSig) := by
      rintro (negative | large)
      · exact Int.not_le.mpr negative valid.1
      · exact Nat.not_le.mpr large valid.2
    have looked : (kernel (pid2task pid) : SystemM P (Option Nat)) s = .ok (none, s) := by
      rw [← unregistered]
      rfl
    unfold sysKill
    rw [if_neg accepted]
    simp only [SignalFlags.fromBits, bind, StateT.bind, looked, Except.bind]
    rfl

/-- The child runs, and its parent waits. -/
theorem scheduler_agrees_forked : ∃ s : System sample, Reachable s ∧ s.kernel.current = some 1 ∧ s.kernel.readyQueue = [0] ∧
    (∃ child, s.kernel.tasks 1 = some child ∧ s.kernel.pid2tcb child.pid = some 1) ∧
    ∀ id, id ∈ s.kernel.readyQueue ∨ s.kernel.current = some id → ∃ task, s.kernel.tasks id = some task ∧ task.isZombie = false := by
  obtain ⟨s, parent, child, forked, _⟩ := forkedRun_reaches
  obtain ⟨_, scheduled, registered, _⟩ := scheduler_agrees_with_processes forked.reachable
  refine ⟨s, forked.reachable, forked.current, forked.queue, ⟨child, forked.childFound, ?_⟩, scheduled⟩
  exact (registered child.pid 1).mpr ⟨child, forked.childFound, forked.childAlive, rfl⟩

end

end SecureIpc

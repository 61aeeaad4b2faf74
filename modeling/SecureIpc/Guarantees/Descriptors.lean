import SecureIpc.Run.Step

/-! Descriptors and quotas in every run. -/

namespace SecureIpc
open Lib

variable {P : Platform} {s : System P}

/-- Every subtraction of the quota follows the assertion that it does not saturate. -/
theorem quota_matches_descriptors (reachable : Reachable s) :
    (∀ id task, s.kernel.tasks id = some task → task.isZombie = false →
      task.security.quota.openFiles = task.fdTable.countP Option.isSome ∧
      task.security.quota.openPipes = task.fdTable.countP isPipeSlot ∧
      (∀ fd, task.security.quota.pipeFdMask.getLsbD fd = true ↔ ∃ endpoint, task.file fd = some (.pipe endpoint)) ∧
      task.security.quota.openFiles ≤ maxOpenFiles ∧ task.security.quota.openPipes ≤ maxOpenPipeFds ∧
      task.fdTable.length ≤ maxOpenFiles) ∧
    ∀ event, step event s ≠ .error .quotaAssert := by
  refine ⟨?_, ?_⟩
  · intro id task found alive
    obtain ⟨files, pipes, mask, fewFiles, fewPipes, short⟩ := (reachable.sound.task found).accounted alive
    refine ⟨files, pipes, fun fd => ?_, fewFiles, fewPipes, short⟩
    rw [mask fd, TaskControlBlock.file_eq_slot]
    cases slot task.fdTable fd with
    | none => simp [isPipeSlot]
    | some file =>
      cases file with
      | pipe endpoint => exact ⟨fun _ => ⟨endpoint, rfl⟩, fun _ => rfl⟩
      | stdin | stdout | inode => simp [isPipeSlot, File.isPipe]
  · intro event stopped
    cases step_stops reachable.sound stopped

/-- The child of a process with three descriptors of a pipe. -/
theorem quota_matches_descriptors_forked : ∃ (s : System sample) (child : TaskControlBlock), Reachable s ∧ s.kernel.tasks 1 = some child ∧
    child.security.quota.openPipes = 3 ∧ child.security.quota.openFiles = child.fdTable.countP Option.isSome ∧
    child.fdTable.countP isPipeSlot = 3 ∧ ∀ event, step event s ≠ .error .quotaAssert := by
  obtain ⟨s, parent, child, forked, _⟩ := forkedRun_reaches
  obtain ⟨matching, asserts⟩ := quota_matches_descriptors forked.reachable
  obtain ⟨files, pipes, _⟩ := matching 1 child forked.childFound forked.childAlive
  exact ⟨s, child, forked.reachable, forked.childFound, forked.childPipes, files, pipes.symm.trans forked.childPipes, asserts⟩

end SecureIpc

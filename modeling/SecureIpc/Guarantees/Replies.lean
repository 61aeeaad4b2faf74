import SecureIpc.User.Auditctl

/-! `auditctl read` against a kernel that replies anything: it ends, and shows nothing twice or out of range. -/

namespace SecureIpc
open Lib

namespace Auditctl

/-! ### Arbitrary replies -/

/-- A reply to `audit_read`: any return value, and anything in the buffer. -/
structure Reply where
  result : Int
  contents : Nat → AuditRecordV1

/-- The replies to come, the calls so far with their `after_sequence` and their reply, and the output. -/
structure Replied where
  stats : Int × IpcStatsV1
  replies : Nat → Reply
  calls : List (Nat × Reply)
  output : List Line

def replying : Environment Replied where
  stat := Program.read fun s => s.stats
  read records afterSequence := fun s =>
    let reply := s.replies s.calls.length
    .ok ((reply.result, (List.range records.length).map reply.contents),
      { s with calls := s.calls ++ [(afterSequence, reply)] })
  println line := modify fun s => { s with output := s.output ++ [line] }

def shown (output : List Line) : List AuditRecordV1 :=
  output.filterMap fun line => match line with
    | .record record => some record
    | _ => none

@[simp] theorem shown_append (output more : List Line) : shown (output ++ more) = shown output ++ shown more :=
  List.filterMap_append

def Reply.batch (self : Reply) : List AuditRecordV1 := (List.range self.result.toNat).map self.contents

/-- The reply to a call with this cursor is a number of records, and all of them are valid. -/
def Reply.Accepted (self : Reply) (cursor : Nat) : Prop :=
  0 < self.result ∧ self.result ≤ batchSize ∧ invalidIndex self.batch 0 cursor = none

instance (reply : Reply) (cursor : Nat) : Decidable (reply.Accepted cursor) := inferInstanceAs (Decidable (_ ∧ _ ∧ _))

def visible (through : Nat) (call : Nat × Reply) : List AuditRecordV1 :=
  if call.2.Accepted call.1 then call.2.batch.takeWhile fun record => record.sequence ≤ through else []

section
variable {through cursor displayed : Nat} {records batch : List AuditRecordV1} {s : Replied}

theorem wp_replying_println {Q : Unit → Replied → Prop} {E : Fault → Prop} {line : Line} :
    wp (replying.println line) Q E s ↔ Q () { s with output := s.output ++ [line] } := Iff.rfl

theorem invalidIndex_ascends {index previous : Nat} (valid : invalidIndex batch index previous = none) :
    (previous :: batch.map (·.sequence)).Pairwise (· < ·) := by
  induction batch generalizing index previous with
  | nil => simp
  | cons record rest ih =>
    simp only [invalidIndex] at valid
    split_ifs at valid with invalid
    have above : previous < record.sequence := by
      simp only [not_or, Nat.not_le] at invalid
      exact invalid.2.2.1
    have later := ih valid
    rw [List.map_cons, List.pairwise_cons]
    constructor
    · intro sequence member
      rcases List.mem_cons.mp member with rfl | member
      · exact above
      · exact Nat.lt_trans above (List.rel_of_pairwise_cons later member)
    · exact later

/-! ### One batch -/

/-- The display loop shows the records up to `through`; if it comes to the end, the cursor is behind all of them. -/
theorem showBatch_shows (ascends : (cursor :: batch.map (·.sequence)).Pairwise (· < ·)) :
    wp (replying.showBatch through batch cursor displayed)
      (fun r s' => s'.replies = s.replies ∧ s'.calls = s.calls ∧
        shown s'.output = shown s.output ++ batch.takeWhile (fun record => record.sequence ≤ through) ∧
        (r.1 = false → cursor ≤ r.2.1 ∧ (cursor ≤ through → r.2.1 ≤ through) ∧
          ∀ record ∈ batch, record.sequence ≤ through ∧ record.sequence ≤ r.2.1))
      (fun _ => False) s := by
  induction batch generalizing s cursor displayed with
  | nil => simp [Environment.showBatch, wp_pure]
  | cons record rest ih =>
    have warned : wp (replying.warn record) (fun _ s₁ => s₁.replies = s.replies ∧ s₁.calls = s.calls ∧
        shown s₁.output = shown s.output) (fun _ => False) s := by
      unfold Environment.warn
      rw [wp_ite]
      split_ifs
      · simp [wp_replying_println, shown]
      · simp [wp_pure]
    unfold Environment.showBatch
    rw [wp_bind]
    apply wp_mono warned _ fun _ impossible => impossible
    intro _ s₁ both
    obtain ⟨replies, calls, same⟩ := both
    rw [wp_ite]
    split_ifs with beyond
    · simp [wp_pure, replies, calls, same, Nat.not_le.mpr beyond]
    · have inside := Nat.not_lt.mp beyond
      have above : cursor < record.sequence := List.rel_of_pairwise_cons ascends List.mem_cons_self
      rw [wp_bind, wp_replying_println]
      apply wp_mono (ih (List.Pairwise.of_cons ascends)) _ fun _ impossible => impossible
      intro r s₂ both
      obtain ⟨replies₂, calls₂, shown₂, rest₂⟩ := both
      simp only [shown_append, same] at shown₂
      have first : shown [Line.record record] = [record] := rfl
      refine ⟨replies₂.trans replies, calls₂.trans calls, ?_, fun stays => ?_⟩
      · simp [shown₂, first, inside]
      · obtain ⟨later, bounded, all⟩ := rest₂ stays
        refine ⟨Nat.le_trans (Nat.le_of_lt above) later, fun _ => bounded inside, ?_⟩
        intro other member
        rcases List.mem_cons.mp member with rfl | member
        · exact ⟨inside, later⟩
        · exact all other member

/-! ### One round -/

/-- What a round shows, and how far it brings the cursor if there is another one. -/
theorem readRound_rule (buffer : records.length = batchSize) : wp (replying.readRound through records cursor displayed)
    (fun next s' => s'.replies = s.replies ∧ s'.calls = s.calls ++ [(cursor, s.replies s.calls.length)] ∧
      shown s'.output = shown s.output ++ visible through (cursor, s.replies s.calls.length) ∧
      ∀ records' cursor' displayed', next = .again records' cursor' displayed' → records'.length = batchSize ∧
        cursor < cursor' ∧ cursor' ≤ through ∧
        ∀ record ∈ visible through (cursor, s.replies s.calls.length), record.sequence ≤ cursor')
    (fun _ => False) s := by
  generalize made : s.replies s.calls.length = reply
  have read : replying.read records cursor s = .ok ((reply.result, (List.range records.length).map reply.contents),
      { s with calls := s.calls ++ [(cursor, reply)] }) := by
    rw [← made]
    rfl
  unfold Environment.readRound
  rw [wp_bind]
  apply wp_of_run read
  -- a round that ends the loop without showing anything
  have refuse : ∀ {next : Round} {output : List Line}, ¬reply.Accepted cursor → shown output = shown s.output →
      (∀ records' cursor' displayed', next ≠ .again records' cursor' displayed') →
      s.replies = s.replies ∧ s.calls ++ [(cursor, reply)] = s.calls ++ [(cursor, reply)] ∧
        shown output = shown s.output ++ visible through (cursor, reply) ∧
        ∀ records' cursor' displayed', next = .again records' cursor' displayed' → records'.length = batchSize ∧
          cursor < cursor' ∧ cursor' ≤ through ∧ ∀ record ∈ visible through (cursor, reply), record.sequence ≤ cursor' := by
    intro next output refused same ends
    have hidden : visible through (cursor, reply) = [] := if_neg refused
    rw [same, hidden, List.append_nil]
    exact ⟨rfl, rfl, rfl, fun _ _ _ again => absurd again (ends _ _ _)⟩
  dsimp only
  by_cases negative : reply.result < 0
  · rw [if_pos negative, wp_bind, wp_replying_println, wp_bind, wp_replying_println, wp_pure]
    exact refuse (fun accepted => by have := accepted.1; omega) (by simp [shown]) nofun
  by_cases zero : reply.result = 0
  · rw [if_neg negative, if_pos zero, wp_pure]
    exact refuse (fun accepted => by have := accepted.1; omega) rfl nofun
  rw [if_neg negative, if_neg zero]
  by_cases large : reply.result.toNat > ((List.range records.length).map reply.contents).length
  · rw [if_pos large, wp_bind, wp_replying_println, wp_pure]
    simp only [List.length_map, List.length_range] at large
    exact refuse (fun accepted => by have := accepted.2.1; omega) (by simp [shown]) nofun
  rw [if_neg large]
  simp only [List.length_map, List.length_range, gt_iff_lt, Nat.not_lt] at large
  have taken : ((List.range records.length).map reply.contents).take reply.result.toNat = reply.batch := by
    simp [Reply.batch, ← List.map_take, List.take_range, large]
  rw [sliceTo, if_pos (by simpa using large), taken, wp_bind, wp_lift_ok]
  cases valid : invalidIndex reply.batch 0 cursor with
  | some index =>
    dsimp only
    rw [wp_bind, wp_replying_println, wp_pure]
    exact refuse (fun accepted => by simp [accepted.2.2] at valid) (by simp [shown]) nofun
  | none =>
    have accepted : reply.Accepted cursor := ⟨by omega, by omega, valid⟩
    have ascends := invalidIndex_ascends valid
    have batch : visible through (cursor, reply) = reply.batch.takeWhile fun record => record.sequence ≤ through :=
      if_pos accepted
    dsimp only
    rw [wp_bind]
    apply wp_mono (showBatch_shows ascends) _ fun _ impossible => impossible
    rintro ⟨left, cursor', displayed'⟩ s₂ ⟨replies₂, calls₂, shown₂, went⟩
    dsimp only at went ⊢
    rw [wp_ite]
    split_ifs with leaves
    · simp [replies₂, calls₂, shown₂, batch]
    · obtain ⟨_, bounded, all⟩ := went (Bool.not_eq_true _ ▸ leaves)
      -- the batch is not empty, so its first record has moved the cursor
      have first : reply.contents 0 ∈ reply.batch :=
        List.mem_map.mpr ⟨0, List.mem_range.mpr (by omega), rfl⟩
      have above : cursor < (reply.contents 0).sequence :=
        List.rel_of_pairwise_cons ascends (List.mem_map.mpr ⟨_, first, rfl⟩)
      obtain ⟨inside, reached⟩ := all _ first
      refine ⟨replies₂, calls₂, by rw [shown₂, batch], ?_⟩
      intro records' next count same
      injection same with records_eq cursor_eq
      subst records_eq cursor_eq
      refine ⟨by simp [buffer], by omega, bounded (by omega), fun record member => ?_⟩
      rw [batch] at member
      exact (all record ((List.takeWhile_sublist _).mem member)).2

/-! ### The whole command -/

/-- What has been displayed is in order and in the range, and is exactly what the valid replies contain. -/
structure Safe (start through : Nat) (s : Replied) : Prop where
  ordered : (shown s.output).Pairwise fun a b => a.sequence < b.sequence
  range : ∀ record ∈ shown s.output, start < record.sequence ∧ record.sequence ≤ through
  exact : shown s.output = s.calls.flatMap (visible through)

theorem visible_range {call : Nat × Reply} {record : AuditRecordV1} (member : record ∈ visible through call) :
    call.1 < record.sequence ∧ record.sequence ≤ through := by
  unfold visible at member
  split_ifs at member with accepted
  · have inside := List.all_eq_true.mp List.all_takeWhile record member
    have ascends := invalidIndex_ascends accepted.2.2
    have present := (List.takeWhile_sublist _).mem member
    exact ⟨List.rel_of_pairwise_cons ascends (List.mem_map.mpr ⟨record, present, rfl⟩), by simpa using inside⟩
  · cases member

theorem visible_ordered (call : Nat × Reply) : (visible through call).Pairwise fun a b => a.sequence < b.sequence := by
  unfold visible
  split_ifs with accepted
  · have ascends := (invalidIndex_ascends accepted.2.2).of_cons
    exact (List.pairwise_map.mp ascends).sublist (List.takeWhile_sublist _)
  · exact .nil

theorem Safe.round {start : Nat} {s s' : Replied} {reply : Reply} (safe : Safe start through s) (reached : start ≤ cursor)
    (behind : ∀ record ∈ shown s.output, record.sequence ≤ cursor) (calls : s'.calls = s.calls ++ [(cursor, reply)])
    (output : shown s'.output = shown s.output ++ visible through (cursor, reply)) : Safe start through s' := by
  constructor
  · rw [output, List.pairwise_append]
    refine ⟨safe.ordered, visible_ordered _, fun before old after new => ?_⟩
    have := behind before old
    have := (visible_range new).1
    omega
  · intro record member
    rw [output, List.mem_append] at member
    rcases member with old | new
    · exact safe.range record old
    · obtain ⟨above, inside⟩ := visible_range new
      exact ⟨by omega, inside⟩
  · rw [output, calls, safe.exact]
    simp

theorem Safe.summary {start : Nat} (safe : Safe start through s) (line : Line) (silent : shown [line] = []) :
    Safe start through { s with output := s.output ++ [line] } := by
  obtain ⟨ordered, range, exact_⟩ := safe
  constructor
  all_goals simpa [silent]

/-- The loop ends within the number of rounds, whatever the replies are. -/
theorem readLoop_ends {start rounds : Nat} (buffer : records.length = batchSize) (reached : start ≤ cursor)
    (behind : ∀ record ∈ shown s.output, record.sequence ≤ cursor) (safe : Safe start through s)
    (enough : through - cursor < rounds) : wp (replying.readLoop through rounds records cursor displayed)
      (fun r s' => (∃ code, r = some code) ∧ Safe start through s') (fun _ => False) s := by
  induction rounds generalizing s records cursor displayed with
  | zero => omega
  | succ rounds ih =>
    have finished : ∀ (s : Replied) (cursor displayed : Nat), Safe start through s →
        wp (replying.finish through cursor displayed)
          (fun r s' => (∃ code, r = some code) ∧ Safe start through s') (fun _ => False) s := by
      intro s cursor displayed safe
      unfold Environment.finish
      rw [wp_bind, wp_replying_println, wp_pure]
      exact ⟨⟨0, rfl⟩, safe.summary _ rfl⟩
    unfold Environment.readLoop
    rw [wp_ite]
    split_ifs with more
    · rw [wp_bind]
      apply wp_mono (readRound_rule buffer) _ fun _ impossible => impossible
      intro next s₁ both
      obtain ⟨_, calls, output, again⟩ := both
      have safe₁ := safe.round reached behind calls output
      cases next with
      | leave cursor' displayed' => exact finished s₁ cursor' displayed' safe₁
      | exit code => exact ⟨⟨code, rfl⟩, safe₁⟩
      | again records' cursor' displayed' =>
        obtain ⟨buffer', above, inside, shown'⟩ := again _ _ _ rfl
        apply ih buffer' (by omega) _ safe₁ (by omega)
        intro record member
        rw [output, List.mem_append] at member
        rcases member with old | new
        · have := behind record old
          omega
        · exact shown' record new
    · exact finished s cursor displayed safe

/-- For every cursor, all statistics and every sequence of replies: each round ends the loop or moves
the cursor up, at most to `through`; the command ends; and it has displayed records of valid batches
only, in ascending order, behind the cursor and up to `through`. -/
theorem read_terminates_safely (stats : Int × IpcStatsV1) (replies : Nat → Reply) (start : Nat) :
    (∀ (through : Nat) (records : List AuditRecordV1) (cursor displayed : Nat) (s : Replied),
      records.length = batchSize → ∃ next s', replying.readRound through records cursor displayed s = .ok (next, s') ∧
        ∀ records' cursor' displayed', next = .again records' cursor' displayed' →
          records'.length = batchSize ∧ cursor < cursor' ∧ cursor' ≤ through) ∧
    ∀ rounds, stats.2.nextSequence - 1 - start < rounds →
      ∃ code s', replying.readRecords rounds start ⟨stats, replies, [], []⟩ = .ok (some code, s') ∧
        Safe start (stats.2.nextSequence - 1) s' := by
  constructor
  · intro through records cursor displayed s buffer
    obtain ⟨next, s', run, _, _, _, again⟩ := wp_returns (readRound_rule (s := s) buffer)
    refine ⟨next, s', run, fun records' cursor' displayed' same => ?_⟩
    obtain ⟨buffer', above, inside, _⟩ := again records' cursor' displayed' same
    exact ⟨buffer', above, inside⟩
  · intro rounds enough
    have empty : Safe start (stats.2.nextSequence - 1) ⟨stats, replies, [], []⟩ := ⟨.nil, nofun, rfl⟩
    have loaded : wp replying.loadStats (fun r s' => Safe start (stats.2.nextSequence - 1) s' ∧ shown s'.output = [] ∧
        ∀ accepted, r = .ok accepted → accepted = stats.2) (fun _ => False) ⟨stats, replies, [], []⟩ := by
      have failed : ∀ line, shown [line] = [] → wp (do replying.println line; return .error exitError)
          (fun (r : Except Int IpcStatsV1) s' => Safe start (stats.2.nextSequence - 1) s' ∧ shown s'.output = [] ∧
            ∀ accepted, r = .ok accepted → accepted = stats.2) (fun _ => False) ⟨stats, replies, [], []⟩ := by
        intro line silent
        rw [wp_bind, wp_replying_println, wp_pure]
        exact ⟨empty.summary line silent, silent, nofun⟩
      unfold Environment.loadStats
      rw [wp_bind, show replying.stat = Program.read fun s => s.stats from rfl, wp_read]
      dsimp only
      simp only [wp_ite]
      split_ifs
      · exact failed _ rfl
      · exact failed _ rfl
      · exact failed _ rfl
      · exact failed _ rfl
      · exact ⟨empty, rfl, fun _ same => (Except.ok.inj same).symm⟩
    have spec : wp (replying.readRecords rounds start) (fun r s' => (∃ code, r = some code) ∧
        Safe start (stats.2.nextSequence - 1) s') (fun _ => False) ⟨stats, replies, [], []⟩ := by
      unfold Environment.readRecords
      rw [wp_bind]
      apply wp_mono loaded _ fun _ impossible => impossible
      intro r s₁ both
      obtain ⟨safe, nothing, accepted⟩ := both
      cases r with
      | error code => exact ⟨⟨code, rfl⟩, safe⟩
      | ok known =>
        obtain rfl := accepted known rfl
        apply readLoop_ends List.length_replicate (Nat.le_refl start) _ safe enough
        simp [nothing]
    obtain ⟨r, s', run, ⟨code, rfl⟩, safe⟩ := wp_returns spec
    exact ⟨code, s', run, safe⟩

end

end Auditctl

end SecureIpc

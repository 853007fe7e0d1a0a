import AkumaMiot.Tasks.Dead
import AkumaMiot.Tasks.Fates

/-!
# Late answers

A lease that ran out takes the sub-task from its holder, not from its assignee, and whatever the
clock does next leaves the assignee able to answer.
-/
namespace AkumaMiot.TaskTable

variable {A : Type}

/-- Whoever holds a sub-task is the one it is assigned to. -/
def Held (t : TaskTable A) : Prop :=
  ∀ id r, t.get id = some r → id.isParent = false → r.status = .inProgress → r.holder = r.assignee

/-- The sub-task is the account's to answer: claimed by it, or assigned to it and not claimed. -/
def AwaitsFrom (t : TaskTable A) (id : TaskId) (a : A) : Prop :=
  id.isParent = false ∧ ∃ r, t.get id = some r ∧
    ((r.status = .inProgress ∧ r.holder = some a) ∨ (r.status = .pending ∧ r.assignee = some a))

theorem advance_held {cfg : Config} {now : BlockNumber} {r : Task A}
    (held : r.status = .inProgress → r.holder = r.assignee) :
    (advance cfg now r).status = .inProgress →
      (advance cfg now r).holder = (advance cfg now r).assignee := by
  rcases advance_cases cfg now r with
    ⟨_, moved⟩ | ⟨_, _, _, moved⟩ | ⟨_, _, _, _, moved⟩ | ⟨_, _, _, _, moved⟩ | ⟨_, _, _, moved⟩ <;>
    rw [moved]
  · exact held
  · exact fun working => by cases working
  · exact held
  · exact held
  · exact held

section Accounts

variable [DecidableEq A]

theorem step_held {t : TaskTable A} (descended : t.Descended) (held : t.Held) (op : Op A)
    (now : BlockNumber) : (t.step op now).Held := by
  intro id r' found sub
  cases old : t.get id with
  -- A new row is on offer.
  | none => exact fun working => absurd working (step_new old op now r' found).1
  | some r =>
    obtain rfl := (get_some old).2
    have fate := step_fate descended old sub op now
    rw [found] at fate
    have held := held r.id r old sub
    cases fate with
    | stays other => exact held
    | ticked => exact advance_held held
    | claimed who auth text pending mine accepted => exact fun _ => mine.symm
    | submitted who auth act text r' submits status offers accepted =>
      exact fun working => by simp [status] at working
    | cleared who auth text accepted => exact fun working => by cases working
    | reopened who auth text r' status offers accepted =>
      exact fun working => by simp [status] at working
    | rehomed who auth to_ r' status offers accepted =>
      exact fun working => by simp [status] at working

/-- Somebody's result for the sub-task is accepted, it is cleared, reopened or moved to another
cat, or its parent is dropped. -/
def Resolves (t : TaskTable A) (op : Op A) (now : BlockNumber) (id : TaskId) : Prop :=
  match op with
  | .call (.update who auth task act text) =>
    task = id ∧ (act = .done ∨ act = .failed ∨ act = .clear ∨ act = .reopen) ∧
      (t.update who auth task act text now).1.isOk = true
  | .call (.reassign who auth task to_) =>
    task = id ∧ (t.reassign who auth task to_ now).1.isOk = true
  | .gc _ | .clearAll _ => id.parentId ∉ (t.step op now).ids
  | _ => False

instance (t : TaskTable A) (op : Op A) (now : BlockNumber) (id : TaskId) :
    Decidable (t.Resolves op now id) :=
  match op with
  | .call (.update ..) =>
    inferInstanceAs (Decidable (_ = _ ∧ (_ = _ ∨ _ = _ ∨ _ = _ ∨ _ = _) ∧ _ = true))
  | .call (.reassign ..) => inferInstanceAs (Decidable (_ = _ ∧ _ = true))
  | .gc keepFor => inferInstanceAs (Decidable (id.parentId ∉ (t.step (.gc keepFor) now).ids))
  | .clearAll auth => inferInstanceAs (Decidable (id.parentId ∉ (t.step (.clearAll auth) now).ids))
  | .call (.setLeader _) | .call (.openParent ..) | .call (.plan ..) | .call (.say ..) |
    .call (.publishStandaloneArtifact ..) | .call .tick => .isFalse False.elim

/-- What the clock and the other accounts do to a sub-task leaves it to its assignee. -/
theorem step_awaits {t : TaskTable A} (descended : t.Descended) (held : t.Held) {id : TaskId}
    {a : A} (awaits : t.AwaitsFrom id a) {op : Op A} {now : BlockNumber}
    (unresolved : ¬ t.Resolves op now id) : (t.step op now).AwaitsFrom id a := by
  obtain ⟨sub, r, found, mine⟩ := awaits
  obtain rfl := (get_some found).2
  have fate := step_fate descended found sub op now
  refine ⟨sub, ?_⟩
  -- Either way the assignee is who answers.
  have assigned : r.assignee = some a := by
    rcases mine with ⟨working, holds⟩ | ⟨_, assigned⟩
    · exact (held r.id r found sub working).symm.trans holds
    · exact assigned
  cases left : (t.step op now).get r.id with
  | none =>
    rw [left] at fate
    cases fate with
    | dropped swept gone =>
      rcases swept with ⟨_, rfl⟩ | ⟨_, rfl⟩ <;> exact absurd gone unresolved
  | some r' =>
    rw [left] at fate
    refine ⟨r', rfl, ?_⟩
    cases fate with
    | stays other => exact mine
    | ticked =>
      -- An expired lease puts it back on offer to its assignee; all else leaves it as it was.
      rcases advance_cases t.cfg now r with ⟨_, moved⟩ | ⟨_, _, _, moved⟩ |
        ⟨_, _, _, _, moved⟩ | ⟨_, _, _, _, moved⟩ | ⟨_, _, _, moved⟩ <;> rw [moved]
      · exact mine
      · exact .inr ⟨rfl, assigned⟩
      · exact mine
      · exact mine
      · exact mine
    | claimed who auth text pending mine' accepted =>
      obtain rfl := Option.some.inj (mine'.symm.trans assigned)
      exact .inl ⟨rfl, rfl⟩
    | submitted who auth act text r' submits status offers accepted =>
      exact absurd ⟨rfl, by tauto, accepted⟩ unresolved
    | cleared who auth text accepted => exact absurd ⟨rfl, by tauto, accepted⟩ unresolved
    | reopened who auth text r' status offers accepted =>
      exact absurd ⟨rfl, by tauto, accepted⟩ unresolved
    | rehomed who auth to_ r' status offers accepted => exact absurd ⟨rfl, accepted⟩ unresolved

/-- A result that fits is taken from who the sub-task awaits it from. -/
theorem AwaitsFrom.answered {t : TaskTable A} {id : TaskId} {a : A} (awaits : t.AwaitsFrom id a)
    (auth : Authority) (now : BlockNumber) (outcome : Outcome)
    (fits : outcome.text.utf8ByteSize ≤ t.cfg.limits.maxResult) :
    let act := if outcome.isFailed then Act.failed else Act.done
    let answer := t.update a auth id act outcome.text now
    answer.1 = .ok [.record a id act outcome.text] ∧
      ∃ r, answer.2.get id = some r ∧ r.status = .awaitingClearance ∧ r.outcome = some outcome := by
  obtain ⟨sub, r, found, mine⟩ := awaits
  intro act answer
  have kind : r.isParent = false := by rw [Task.isParent, (get_some found).2, sub]
  have taken : t.submit a id outcome now = t.accept [.record a id act outcome.text] now := by
    simp only [submit, if_neg (Nat.not_lt.mpr fits), found, kind, Bool.false_eq_true, if_false]
    rcases mine with ⟨status, mine⟩ | ⟨status, mine⟩ <;> simp only [status, mine, if_true] <;> rfl
  have eq : answer = t.accept [.record a id act outcome.text] now := by
    cases outcome <;> exact taken
  have rows : ∀ e ∈ [Effect.record a id act outcome.text], SubEffect id e := by
    simpa using .record _ _ _
  refine ⟨by rw [eq]; rfl, _, by rw [eq]; exact applyAll_sub sub rows found now, ?_⟩
  cases outcome <;> exact ⟨rfl, rfl⟩

/-! ## Runs -/

theorem run_held {t : TaskTable A} (descended : t.Descended) (held : t.Held)
    (ops : List (Op A × BlockNumber)) : (t.run ops).Descended ∧ (t.run ops).Held :=
  Machine.run_keeps (fun t => Descended t ∧ Held t)
    (fun _ op kept => ⟨step_descended kept.1 op.1 op.2, step_held kept.1 kept.2 op.1 op.2⟩)
    ⟨descended, held⟩

/-- Once an account has claimed a sub-task or was assigned it, and until a result for it is
accepted, it is cleared, reopened or moved, or its parent is dropped: whatever is called and however
often the clock expires, offers, nudges or fails what, that account's result is accepted and is the
sub-task's outcome. -/
theorem late_answer_run (cfg : Config) (root : Option A) (before after : List (Op A × BlockNumber))
    (id : TaskId) (a : A) (awaits : ((new cfg root).run before).AwaitsFrom id a)
    (unresolved : Machine.Meets next (fun t op => ¬ t.Resolves op.1 op.2 id)
      ((new cfg root).run before) after)
    (auth : Authority) (now : BlockNumber) (outcome : Outcome)
    (fits : outcome.text.utf8ByteSize ≤ cfg.limits.maxResult) :
    let act := if outcome.isFailed then Act.failed else Act.done
    let answer := ((new cfg root).run (before ++ after)).update a auth id act outcome.text now
    answer.1 = .ok [.record a id act outcome.text] ∧
      ∃ r, answer.2.get id = some r ∧ r.status = .awaitingClearance ∧ r.outcome = some outcome := by
  have start : (new cfg root).Held := fun _ _ found => by cases found
  have reached := run_held (new_descended cfg root) start before
  have still : ((new cfg root).run (before ++ after)).AwaitsFrom id a := by
    rw [run_append, run_eq _ after]
    refine (Machine.run_invariant
      (fun t : TaskTable A => (t.Descended ∧ t.Held) ∧ t.AwaitsFrom id a) ?_ ⟨reached, awaits⟩
      unresolved).2
    intro t op kept unresolved
    exact ⟨⟨step_descended kept.1.1 op.1 op.2, step_held kept.1.1 kept.1.2 op.1 op.2⟩,
      step_awaits kept.1.1 kept.1.2 kept.2 unresolved⟩
  have same : ((new cfg root).run (before ++ after)).cfg = cfg := (run_frame _ _).1
  exact still.answered auth now outcome (by rw [same]; exact fits)

/-- The parent fails at block 3, the lease runs out at 11, and the offers are spent at 12. -/
theorem late_answer_run_failed :
    let before : List (Op Nat × BlockNumber) := [(.call (.setLeader 1), 1),
      (.call (.openParent 0 .root "t"), 1),
      (.call (.plan 1 .leader ⟨1, 0⟩ [⟨2, "a", "b"⟩, ⟨3, "c", "d"⟩]), 1),
      (.call (.update 2 .peer ⟨1, 1⟩ .claim ""), 1)]
    let after := [2, 3, 4, 5, 11, 12, 13].map fun now => ((.call .tick : Op Nat), now)
    let t := (new briefTimers (some 0)).run (before ++ after)
    t.Dead 1 ∧ (t.get ⟨1, 1⟩).map (fun r => (r.status, r.reoffers)) = some (.pending, 1) ∧
      (t.update 2 .peer ⟨1, 1⟩ .done "r" 14).1 = .ok [.record 2 ⟨1, 1⟩ .done "r"] :=
  ⟨by decide, by decide, (late_answer_run briefTimers (some 0) _ _ ⟨1, 1⟩ 2
    ⟨rfl, _, rfl, .inl ⟨rfl, rfl⟩⟩ (by decide) .peer 14 (.done "r") (by decide)).1⟩

end Accounts

end AkumaMiot.TaskTable

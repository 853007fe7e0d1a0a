import AkumaMiot.Tasks.Ids

/-!
# Unanswered directives

A parent counts the directives sent about it, and fails when they are too many. The counter is
meant to start again with every answer; beside the table the run keeps the true number. A reopen
and a reassign answer a directive too, and leave the counter where it is.
-/
namespace AkumaMiot.TaskTable

variable {A : Type}

/-- How many directives the row with this id has counted. -/
def used (t : TaskTable A) (id : TaskId) : Nat := ((t.get id).map (·.directiveNudgesUsed)).getD 0

/-- A directive about this parent. -/
def directs (id : TaskId) : Effect A → Bool
  | .directed _ task _ => task = id
  | _ => false

/-! ## One effect -/

/-- A rewrite that lets no counter grow. -/
theorem used_updateTask (t : TaskTable A) (id task : TaskId) (f : Task A → Task A) (n : Nat)
    (keeps : ∀ r, (f r).id = r.id)
    (counts : ∀ r, id = task → (f r).directiveNudgesUsed ≤ r.directiveNudgesUsed + n) :
    (t.updateTask task f).used id ≤ t.used id + n := by
  rw [used, used, t.get_updateTask id task f keeps]
  split
  next same =>
    cases t.get id with
    | none => exact Nat.zero_le _
    | some r => exact counts r same
  · exact Nat.le_add_right _ _

theorem used_updateTask_eq (t : TaskTable A) (id : TaskId) (f : Task A → Task A)
    (keeps : ∀ r, (f r).id = r.id) (resets : ∀ r, (f r).directiveNudgesUsed = 0) :
    (t.updateTask id f).used id = 0 := by
  rw [used, t.get_updateTask id id f keeps, if_pos rfl]
  cases t.get id with
  | none => rfl
  | some r => exact resets r

/-- A row that has counted nothing yet. -/
theorem used_pushTask (t : TaskTable A) (id : TaskId) {r : Task A}
    (new : r.directiveNudgesUsed = 0) : (t.pushTask r).used id ≤ t.used id := by
  rw [used, used, get, get, pushTask, KeyedList.lookup, KeyedList.lookup, List.find?_append]
  cases t.tasks.find? fun x => x.id = id with
  | some p => exact Nat.le_refl _
  | none =>
    by_cases here : r.id = id <;> simp [here, new]

/-- An effect adds one if it is a directive about the row, and nothing otherwise. -/
theorem apply_used (t : TaskTable A) (e : Effect A) (now : BlockNumber) (id : TaskId) :
    (t.apply e now).used id ≤ t.used id + if directs id e then 1 else 0 := by
  cases e with
  | opened who task text => exact used_pushTask _ id rfl
  | assigned to_ task what expect =>
    simp only [apply]
    split
    · refine t.used_updateTask id task _ _ ?_ ?_
      · exact fun _ => rfl
      · exact fun _ _ => Nat.le_add_right _ _
    · exact t.used_pushTask id rfl
  | directed to_ task d =>
    by_cases elected : d = .leaderElected
    · -- An election clears every parent's counter.
      refine Nat.le_trans ?_ (Nat.le_add_right _ _)
      rw [elected, used, used, get_elected]
      cases t.get id with
      | none => exact Nat.le_refl _
      | some r =>
        simp only [Option.map_some, Option.getD_some]
        split
        · exact Nat.zero_le _
        · exact Nat.le_refl _
    · simp only [apply, if_neg elected]
      refine t.used_updateTask id task _ _ ?_ ?_
      · exact fun _ => rfl
      · intro r same
        simp only [directs, same, decide_true, if_true]
        exact Nat.min_le_left _ _
  | record who task act text =>
    cases act with
    | claim | reopen =>
      refine t.used_updateTask id task _ _ ?_ ?_
      · exact fun _ => rfl
      · exact fun _ _ => Nat.le_add_right _ _
    | done | failed | clear =>
      refine Nat.le_trans (used_updateTask _ id task.parentId _ 0 ?_ ?_)
        (t.used_updateTask id task _ 0 ?_ ?_)
      · exact fun _ => rfl
      · exact fun _ _ => Nat.zero_le _
      · exact fun _ => rfl
      · exact fun _ _ => Nat.le_refl _
    | artifact => exact Nat.le_refl _
  | requeued task holder why =>
    cases why with
    | unclaimed | leaseExpired =>
      refine t.used_updateTask id task _ _ ?_ ?_
      · exact fun _ => rfl
      · exact fun _ _ => Nat.le_add_right _ _
    | rehomed | reopened => exact Nat.le_refl _
  | planned _ task _ =>
    refine t.used_updateTask id task _ _ ?_ ?_
    · exact fun _ => rfl
    · exact fun _ _ => Nat.zero_le _
  | closed task title body author =>
    refine used_updateTask _ id task _ 0 ?_ ?_
    · exact fun _ => rfl
    · exact fun _ _ => Nat.le_refl _
  | nudge _ task _ _ | nudgeBudgetSpent _ task | failed task | rehomed task _ _ =>
    refine t.used_updateTask id task _ _ ?_ ?_
    · exact fun _ => rfl
    · exact fun _ _ => Nat.le_add_right _ _
  | _ => exact Nat.le_refl _

theorem applyAll_used (t : TaskTable A) (es : List (Effect A)) (now : BlockNumber) (id : TaskId) :
    (t.applyAll es now).used id ≤ t.used id + es.countP (directs id) := by
  induction es generalizing t with
  | nil => exact Nat.le_refl _
  | cons e es ih =>
    have rest := ih (t.apply e now)
    have first := t.apply_used e now id
    rw [applyAll_cons, List.countP_cons]
    omega

theorem sweep_used (t : TaskTable A) (gone : List Nat) (id : TaskId) :
    (t.sweep gone).used id ≤ t.used id := by
  by_cases kept : id.parent ∈ gone
  · have absent : (t.sweep gone).get id = none := by
      refine get_eq_none.mpr fun there => ?_
      obtain ⟨r, present, rfl⟩ := List.mem_map.mp there
      have := (List.mem_filter.mp present).2
      simp [kept] at this
    rw [used, absent]
    exact Nat.zero_le _
  · have found : (t.sweep gone).get id = t.get id :=
      KeyedList.lookup_filter Task.id (fun k => !gone.contains k.parent) (by simpa using kept) _
    exact Nat.le_of_eq (by rw [used, found, ← used])

/-! ## One operation -/

section Accounts

variable [DecidableEq A]

/-- The directives about a parent that an operation returns. -/
def sent (t : TaskTable A) (op : Op A) (now : BlockNumber) (id : TaskId) : Nat :=
  match op with
  | .call c => (returned (t.call c now).1).countP (directs id)
  | _ => 0

/-- An accepted act that answers what the leader was last asked about this parent. -/
def Answered (t : TaskTable A) (op : Op A) (now : BlockNumber) (id : TaskId) : Prop :=
  match op with
  | .call (.setLeader who) => t.leader ≠ some who
  | .call (.plan who auth parent items) =>
      parent = id ∧ (t.plan who auth parent items now).1.isOk = true
  | .call (.reassign who auth task to_) =>
      task.parentId = id ∧ (t.reassign who auth task to_ now).1.isOk = true
  | .call (.update who auth task act text) =>
      task.parentId = id ∧ (act = .done ∨ act = .failed ∨ act = .clear ∨ act = .reopen) ∧
        (t.update who auth task act text now).1.isOk = true
  | _ => False

instance (t : TaskTable A) (op : Op A) (now : BlockNumber) (id : TaskId) :
    Decidable (t.Answered op now id) :=
  match op with
  | .call (.setLeader _) => inferInstanceAs (Decidable (_ ≠ _))
  | .call (.plan ..) => inferInstanceAs (Decidable (_ = _ ∧ _ = true))
  | .call (.reassign ..) => inferInstanceAs (Decidable (_ = _ ∧ _ = true))
  | .call (.update ..) =>
    inferInstanceAs (Decidable (_ = _ ∧ (_ = _ ∨ _ = _ ∨ _ = _ ∨ _ = _) ∧ _ = true))
  | .call (.openParent ..) | .call (.say ..) | .call (.publishStandaloneArtifact ..) |
    .call .tick | .gc _ | .clearAll _ => .isFalse False.elim

/-- A reopen or a reassign that is accepted finds its parent's counter where it would set it. -/
def Unspent (t : TaskTable A) (op : Op A) (now : BlockNumber) : Prop :=
  match op with
  | .call (.reassign who auth id to_) =>
      (t.reassign who auth id to_ now).1.isOk = true → t.used id.parentId = 0
  | .call (.update who auth id .reopen text) =>
      (t.update who auth id .reopen text now).1.isOk = true → t.used id.parentId = 0
  | _ => True

instance (t : TaskTable A) (op : Op A) (now : BlockNumber) : Decidable (t.Unspent op now) :=
  match op with
  | .call (.reassign ..) => inferInstanceAs (Decidable (_ = true → _ = 0))
  | .call (.update _ _ _ .reopen _) => inferInstanceAs (Decidable (_ = true → _ = 0))
  | .call (.update _ _ _ .claim _) | .call (.update _ _ _ .done _) |
    .call (.update _ _ _ .failed _) | .call (.update _ _ _ .clear _) |
    .call (.update _ _ _ .artifact _) => .isTrue trivial
  | .call (.setLeader ..) | .call (.openParent ..) | .call (.plan ..) | .call (.say ..) |
    .call (.publishStandaloneArtifact ..) | .call .tick | .gc _ | .clearAll _ => .isTrue trivial

/-- No operation counts more directives than it sends. -/
theorem step_used (t : TaskTable A) (op : Op A) (now : BlockNumber) (id : TaskId) :
    (t.step op now).used id ≤ t.used id + t.sent op now id := by
  cases op with
  | call c =>
    rw [step, t.call_folds c now]
    exact t.applyAll_used _ now id
  | gc keepFor =>
    rw [step, gc_eq_sweep]
    exact t.sweep_used _ id
  | clearAll auth =>
    simp only [step, clearAll]
    split
    · exact Nat.le_refl _
    · rw [gc_eq_sweep]
      refine Nat.le_trans (sweep_used _ _ id) (Nat.le_trans (t.applyAll_used _ now id) ?_)
      rw [List.countP_eq_zero.mpr]
      · exact Nat.le_refl _
      · intro e member
        obtain ⟨_, _, rfl⟩ := List.mem_map.mp member
        simp [directs]

/-- With no directive among its effects, a call leaves a counter of nothing at nothing. -/
theorem used_zero {t : TaskTable A} {c : Call A} {now : BlockNumber} {id : TaskId}
    (zero : t.used id = 0) (silent : ∀ e ∈ returned (t.call c now).1, directs id e = false) :
    (t.call c now).2.used id = 0 := by
  have bound := t.step_used (.call c) now id
  rw [sent, List.countP_eq_zero.mpr fun e member => by simp [silent e member], zero] at bound
  exact Nat.le_zero.mp bound

omit [DecidableEq A] in
/-- An election clears them all. -/
theorem elected_used (t : TaskTable A) (who : A) (task id : TaskId) (parent : id.isParent = true)
    (now : BlockNumber) : (t.apply (.directed who task .leaderElected) now).used id = 0 := by
  rw [used]
  cases found : (t.apply (.directed who task .leaderElected) now).get id with
  | none => rfl
  | some r =>
    obtain ⟨present, same⟩ := get_some found
    simp only [apply, if_true] at present
    obtain ⟨x, _, rfl⟩ := List.mem_map.mp present
    by_cases kind : x.isParent = true
    · rw [if_pos kind]
      rfl
    · rw [if_neg kind] at same
      exact absurd (by rw [Task.isParent, same]; exact parent) kind

/-- An accepted answer leaves the counter at nothing. -/
theorem answered_used {t : TaskTable A} {op : Op A} {now : BlockNumber} {id : TaskId}
    (parent : id.isParent = true) (answered : t.Answered op now id) (unspent : t.Unspent op now) :
    (t.step op now).used id = 0 := by
  -- A result that is in resets the counter of the parent.
  have submitted : ∀ who task outcome, task.parentId = id →
      (t.submit who task outcome now).1.isOk = true →
      (t.submit who task outcome now).2.used id = 0 := by
    intro who task outcome same ok
    rcases t.submit_cases who task outcome now with
      ⟨_, left⟩ | ⟨_, act, _, _, acts, _, left⟩ <;> rw [left] at ok ⊢
    · cases ok
    · subst same
      rcases acts with rfl | rfl <;>
      · refine used_updateTask_eq _ task.parentId _ ?_ ?_ <;> exact fun _ => rfl
  cases op with
  | gc keepFor => cases answered
  | clearAll auth => cases answered
  | call c =>
    cases c with
    | setLeader who =>
      rcases t.setLeader_cases who now with ⟨same, _⟩ | ⟨_, left⟩
      · exact absurd same answered
      · simp only [step, call, left]
        exact t.elected_used who _ id parent now
    | plan who auth task items =>
      obtain ⟨rfl, ok⟩ := answered
      simp only [step, call]
      rcases t.plan_cases who auth task items now with
        ⟨_, left⟩ | ⟨_, _, _, _, _, _, left⟩ <;> rw [left] at ok ⊢
      · cases ok
      -- The plan resets it, and its offers count no directive.
      · have planned : (t.apply (.planned who task (items.length % 2 ^ 32)) now).used task = 0 := by
          refine t.used_updateTask_eq task _ ?_ ?_ <;> exact fun _ => rfl
        have offers := (t.apply (.planned who task (items.length % 2 ^ 32)) now).applyAll_used
          (planOffers task items) now task
        rw [planned, List.countP_eq_zero.mpr] at offers
        · exact Nat.le_zero.mp offers
        · intro e member
          obtain ⟨_, _, rfl⟩ := List.mem_mapIdx.mp member
          simp [directs]
    | reassign who auth task to_ =>
      obtain ⟨rfl, ok⟩ := answered
      refine used_zero (unspent ok) fun e member => ?_
      rcases t.reassign_cases who auth task to_ now with
        ⟨_, left⟩ | ⟨_, _, _, _, _, _, left⟩ <;> simp only [call, left] at ok member
      · cases ok
      · simp only [accept, returned, List.mem_cons, List.not_mem_nil, or_false] at member
        rcases member with rfl | rfl | rfl <;> rfl
    | update who auth task act text =>
      obtain ⟨rfl, acts, ok⟩ := answered
      cases act with
      | done => exact submitted who task _ rfl ok
      | failed => exact submitted who task _ rfl ok
      | clear =>
        rcases t.clear_cases who auth task now with ⟨_, left⟩ | ⟨_, _, _, _, _, left⟩ <;>
          simp only [step, call, update, left] at ok ⊢
        · cases ok
        · refine used_updateTask_eq _ task.parentId _ ?_ ?_ <;> exact fun _ => rfl
      | reopen =>
        refine used_zero (unspent ok) fun e member => ?_
        rcases t.reopen_cases who auth task text now with
          ⟨_, left⟩ | ⟨_, _, _, _, _, left⟩ <;> simp only [call, update, left] at ok member
        · cases ok
        · simp only [accept, returned, List.mem_cons, Option.mem_toList,
            Option.map_eq_some_iff] at member
          rcases member with rfl | rfl | ⟨_, _, rfl⟩ <;> rfl
      | claim | artifact => simp at acts
    | _ => cases answered

/-! ## Runs -/

/-- The table, and beside it how many directives each parent was sent since its last answer. -/
def counted (s : TaskTable A × (TaskId → Nat)) (op : Op A × BlockNumber) :
    TaskTable A × (TaskId → Nat) :=
  (s.1.step op.1 op.2, fun id =>
    if s.1.Answered op.1 op.2 id then 0 else s.2 id + s.1.sent op.1 op.2 id)

/-- The directives sent about a parent since the last answer. -/
def unanswered (t : TaskTable A) (ops : List (Op A × BlockNumber)) : TaskId → Nat :=
  (Machine.run counted (t, fun _ => 0) ops).2

/-- Every counter stays within the true number. -/
theorem counted_within (t : TaskTable A) (count : TaskId → Nat) {ops : List (Op A × BlockNumber)}
    (within : ∀ id, id.isParent = true → t.used id ≤ count id)
    (unspent : Machine.Meets next (fun t op => t.Unspent op.1 op.2) t ops) :
    ∀ id, id.isParent = true → (t.run ops).used id ≤ (Machine.run counted (t, count) ops).2 id := by
  induction ops generalizing t count with
  | nil => exact within
  | cons op ops ih =>
    refine ih _ _ (fun id parent => ?_) unspent.2
    split
    next answered => exact Nat.le_of_eq (answered_used parent answered unspent.1)
    · have sends := t.step_used op.1 op.2 id
      exact Nat.le_trans sends (Nat.add_le_add_right (within id parent) _)

end Accounts

/-- A tick fails a parent only on a full counter. -/
theorem tick_failed {t : TaskTable A} {now : BlockNumber} {id : TaskId}
    (member : .failed id ∈ (t.tick now).1) :
    id.isParent = true ∧ t.cfg.timers.maxDirectiveNudges ≤ t.used id := by
  have row : ∀ e ∈ t.stage1 now, directs id e = false ∧ e ≠ .failed id := by
    intro e member
    obtain ⟨r, _, _, effects⟩ := stage1_row member
    cases subtaskEffects_row effects <;> exact ⟨rfl, by simp⟩
  simp only [tick] at member
  split at member
  · exact absurd rfl (row _ member).2
  next who _ =>
    rcases List.mem_append.mp member with one | two
    · exact absurd rfl (row _ one).2
    · obtain ⟨q, _, rfl, spent⟩ := stage2_failed two
      obtain ⟨p, _, parent, _, same | ⟨_, _, same⟩⟩ := stage2_cases two
      · obtain same := Effect.failed.inj same
        refine ⟨by rw [same]; exact parent, ?_⟩
        -- Stage 1 has counted nothing for the parent.
        have before := t.applyAll_used (t.stage1 now) now q.1
        rw [List.countP_eq_zero.mpr fun e member => by simp [(row e member).1]] at before
        rw [applyAll_cfg] at spent
        have full : t.cfg.timers.maxDirectiveNudges ≤ (t.applyAll (t.stage1 now) now).used q.1 := by
          rw [used]
          cases found : (t.applyAll (t.stage1 now) now).get q.1 with
          | none => simp [found] at spent
          | some p' => simpa [found] using spent
        exact Nat.le_trans full before
      · cases same

variable [DecidableEq A]

/-- From a new table on: as long as every reopen and reassign that is accepted finds the parent's
counter at nothing, a parent fails only when its budget of directives was sent since the last
answer. -/
theorem unanswered_run (cfg : Config) (root : Option A) (ops : List (Op A × BlockNumber))
    (unspent : Machine.Meets next (fun t op => t.Unspent op.1 op.2) (new cfg root) ops)
    (now : BlockNumber) (id : TaskId)
    (failed : .failed id ∈ (((new cfg root).run ops).tick now).1) :
    cfg.timers.maxDirectiveNudges ≤ (new cfg root).unanswered ops id := by
  obtain ⟨parent, full⟩ := tick_failed failed
  have within := counted_within (new cfg root) (fun _ => 0)
    (fun _ _ => Nat.le_refl _) unspent id parent
  rw [(run_frame _ ops).1] at full
  exact Nat.le_trans full within

/-- Two directives, one block apart. -/
def twoDirectives : Config := { timers := {
  claimWindow := 1, maxReoffers := 1, directiveNag := 1, maxDirectiveNudges := 2 } }

/-- The leader is asked twice for a plan, and answers neither. -/
theorem unanswered_run_unplanned :
    let ops : List (Op Nat × BlockNumber) := [(.call (.setLeader 1), 1),
      (.call (.openParent 0 .root "t"), 1), (.call .tick, 2), (.call .tick, 3)]
    (new twoDirectives (some 0)).unanswered ops ⟨1, 0⟩ = 2 ∧
      2 ≤ (new twoDirectives (some 0)).unanswered ops ⟨1, 0⟩ :=
  ⟨by decide, unanswered_run twoDirectives (some 0) _ (by decide) 4 ⟨1, 0⟩ (by decide)⟩

/-- The leader answers the first directive with a reassign, and is told it answered none. -/
theorem unanswered_run_reassigned :
    let ops : List (Op Nat × BlockNumber) := [(.call (.setLeader 1), 1),
      (.call (.openParent 0 .root "t"), 1), (.call (.plan 1 .leader ⟨1, 0⟩ [⟨2, "a", "b"⟩]), 1),
      (.call .tick, 2), (.call (.reassign 1 .leader ⟨1, 1⟩ 3), 2), (.call .tick, 3)]
    .failed ⟨1, 0⟩ ∈ (((new twoDirectives (some 0)).run ops).tick 4).1 ∧
      ¬ 2 ≤ (new twoDirectives (some 0)).unanswered ops ⟨1, 0⟩ := by
  decide

end AkumaMiot.TaskTable

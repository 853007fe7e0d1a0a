import AkumaMiot.Tasks.Rows

/-!
# What a call can do, and the log it leaves

Every verb either refuses and leaves the table alone, or accepts under its guards and folds
the effects it returns. Replaying the returned effects therefore rebuilds the table.
-/
namespace AkumaMiot.TaskTable

variable {A : Type}

/-! ## Folding an answer -/

/-- The effects an answer carries. A refusal carries none. -/
def returned : Except Error (List (Effect A)) → List (Effect A)
  | .ok effects => effects
  | .error _ => []

/-- What every verb keeps: a refusal leaves the table alone, and an acceptance leaves the
table its effects fold to. -/
def Folds (t : TaskTable A) (now : BlockNumber)
    (result : Except Error (List (Effect A)) × TaskTable A) : Prop :=
  result.2 = t.applyAll (returned result.1) now

private theorem folds_refusal {t : TaskTable A} {now : BlockNumber}
    {result : Except Error (List (Effect A)) × TaskTable A}
    (refused : ∃ why, result = (.error why, t)) : Folds t now result := by
  obtain ⟨_, rfl⟩ := refused
  rfl

private theorem folds_accept {t : TaskTable A} {now : BlockNumber} {effects : List (Effect A)}
    {result : Except Error (List (Effect A)) × TaskTable A}
    (accepted : result = t.accept effects now) : Folds t now result := by
  subst accepted
  rfl

/-- The tick's effects fold to the table it leaves, although its second stage is decided over
what the first one left. -/
theorem tick_folds (t : TaskTable A) (now : BlockNumber) :
    (t.tick now).2 = t.applyAll (t.tick now).1 now := by
  simp only [tick]
  split
  · rfl
  · exact (t.applyAll_append ..).symm

/-! ## Inversion, one verb at a time -/

theorem openParent_cases (t : TaskTable A) (who : A) (auth : Authority) (text : String)
    (now : BlockNumber) :
    (∃ why, t.openParent who auth text now = (.error why, t)) ∨
    ((auth = .root ∨ auth = .leader) ∧
      t.tasks.length + 1 + t.cfg.limits.maxSubtasks ≤ t.cfg.limits.maxTasks ∧
      t.openParent who auth text now =
        (.ok (TaskId.ofParent t.nextParent, [.opened who (TaskId.ofParent t.nextParent) text]),
          t.apply (.opened who (TaskId.ofParent t.nextParent) text) now)) := by
  simp only [openParent]
  split
  · exact .inl ⟨_, rfl⟩
  next allowed =>
    split
    · exact .inl ⟨_, rfl⟩
    · split
      · exact .inl ⟨_, rfl⟩
      next room => exact .inr ⟨not_not.mp allowed, Nat.le_of_not_gt room, rfl⟩

theorem say_cases (t : TaskTable A) (who : A) (auth : Authority) (to_ : Option A) (body : String)
    (noAck offRecord : Bool) :
    (∃ why, t.say who auth to_ body noAck offRecord = (.error why, t)) ∨
    t.say who auth to_ body noAck offRecord =
      (.ok [.said who to_ body (auth = .root) noAck offRecord], t) := by
  simp only [say]
  split
  · exact .inl ⟨_, rfl⟩
  · exact .inr rfl

theorem publishStandaloneArtifact_cases (t : TaskTable A) (who : A) (body : String)
    (now : BlockNumber) :
    (∃ why, t.publishStandaloneArtifact who body now = (.error why, t)) ∨
    ∃ title, t.publishStandaloneArtifact who body now =
      (.ok (t.nextStandaloneArtifact,
          [.standaloneArtifact who t.nextStandaloneArtifact title body]),
        t.apply (.standaloneArtifact who t.nextStandaloneArtifact title body) now) := by
  simp only [publishStandaloneArtifact]
  split
  · exact .inl ⟨_, rfl⟩
  · exact .inr ⟨_, rfl⟩

theorem clear_cases (t : TaskTable A) (who : A) (auth : Authority) (id : TaskId)
    (now : BlockNumber) :
    (∃ why, t.clear who auth id now = (.error why, t)) ∨
    ∃ r, auth = .leader ∧ t.get id = some r ∧ r.isParent = false ∧
      r.status = .awaitingClearance ∧
      t.clear who auth id now = t.accept [.record who id .clear ""] now := by
  simp only [clear]
  split
  · exact .inl ⟨_, rfl⟩
  next leads =>
    split
    · exact .inl ⟨_, rfl⟩
    next r found =>
      split
      · exact .inl ⟨_, rfl⟩
      next kind =>
        split
        · exact .inl ⟨_, rfl⟩
        next status =>
          exact .inr ⟨r, not_not.mp leads, found, by simpa using kind, not_not.mp status, rfl⟩

theorem reopen_cases (t : TaskTable A) (who : A) (auth : Authority) (id : TaskId) (text : String)
    (now : BlockNumber) :
    (∃ why, t.reopen who auth id text now = (.error why, t)) ∨
    ∃ r, auth = .leader ∧ t.get id = some r ∧ r.isParent = false ∧
      r.status = .awaitingClearance ∧
      t.reopen who auth id text now =
        t.accept (.record who id .reopen "" :: .requeued id none .reopened ::
          (r.assignee.map fun to_ => .assigned to_ id r.text r.expect).toList) now := by
  simp only [reopen]
  split
  · exact .inl ⟨_, rfl⟩
  next leads =>
    split
    · exact .inl ⟨_, rfl⟩
    next r found =>
      split
      · exact .inl ⟨_, rfl⟩
      next kind =>
        split
        · exact .inl ⟨_, rfl⟩
        next status =>
          -- Handed back to whoever it was assigned to, if it was to anybody.
          refine .inr ⟨r, not_not.mp leads, found, by simpa using kind, not_not.mp status, ?_⟩
          cases r.assignee <;> rfl

theorem commitArtifact_cases (t : TaskTable A) (who : A) (auth : Authority) (id : TaskId)
    (body : String) (now : BlockNumber) :
    (∃ why, t.commitArtifact who auth id body now = (.error why, t)) ∨
    ∃ p title, auth = .leader ∧ id.isParent = true ∧ t.get id = some p ∧ p.status = .planned ∧
      (∀ r ∈ t.subtasks id, r.status = .cleared) ∧
      t.commitArtifact who auth id body now =
        t.accept [.record who id .artifact "", .closed id title body who] now := by
  simp only [commitArtifact]
  -- In the order of the checks; only the last leads to an acceptance.
  split
  · exact .inl ⟨_, rfl⟩
  next leads =>
    split
    · exact .inl ⟨_, rfl⟩
    next kind =>
      split
      · exact .inl ⟨_, rfl⟩
      · split
        · exact .inl ⟨_, rfl⟩
        next p found =>
          split
          · exact .inl ⟨_, rfl⟩
          next status =>
            split
            · exact .inl ⟨_, rfl⟩
            next cleared =>
              refine .inr ⟨p, _, not_not.mp leads, by simpa using kind, found,
                not_not.mp status, ?_, rfl⟩
              simpa [Task.isCleared] using cleared

section Accounts

variable [DecidableEq A]

theorem setLeader_cases (t : TaskTable A) (who : A) (now : BlockNumber) :
    (t.leader = some who ∧ t.setLeader who now = ([], t)) ∨
    (t.leader ≠ some who ∧ t.setLeader who now =
      ([.directed who TaskId.default .leaderElected],
        t.apply (.directed who TaskId.default .leaderElected) now)) := by
  by_cases same : t.leader = some who
  · exact .inl ⟨same, by simp [setLeader, same]⟩
  · exact .inr ⟨same, by simp [setLeader, same, applyAll]⟩

theorem plan_cases (t : TaskTable A) (who : A) (auth : Authority) (parent : TaskId)
    (items : List (PlanItem A)) (now : BlockNumber) :
    (∃ why, t.plan who auth parent items now = (.error why, t)) ∨
    (auth = .leader ∧ parent.isParent = true ∧ items ≠ [] ∧
      items.length ≤ t.cfg.limits.maxSubtasks ∧ (∀ item ∈ items, t.root ≠ some item.who) ∧
      (∃ p, t.get parent = some p ∧ p.status = .opened) ∧
      t.plan who auth parent items now =
        t.accept (.planned who parent (items.length % 2 ^ 32) :: planOffers parent items) now) := by
  simp only [plan]
  split
  · exact .inl ⟨_, rfl⟩
  next leads =>
    split
    · exact .inl ⟨_, rfl⟩
    next kind =>
      split
      · exact .inl ⟨_, rfl⟩
      next nonempty =>
        split
        · exact .inl ⟨_, rfl⟩
        next fits =>
          split
          · exact .inl ⟨_, rfl⟩
          next assignable =>
            split
            · exact .inl ⟨_, rfl⟩
            next p found =>
              split
              next opened =>
                -- The check of every item found none that is refused.
                refine .inr ⟨not_not.mp leads, by simpa using kind, by simpa using nonempty,
                  Nat.le_of_not_gt fits, ?_, ⟨p, found, opened⟩, rfl⟩
                intro item member root
                have accepted := List.findSome?_eq_none_iff.mp assignable item member
                simp [refusesItem, root] at accepted
              · split <;> exact .inl ⟨_, rfl⟩

theorem reassign_cases (t : TaskTable A) (who : A) (auth : Authority) (id : TaskId) (to_ : A)
    (now : BlockNumber) :
    (∃ why, t.reassign who auth id to_ now = (.error why, t)) ∨
    ∃ r, auth = .leader ∧ t.root ≠ some to_ ∧ t.get id = some r ∧ r.isParent = false ∧
      (r.status = .pending ∨ r.status = .awaitingClearance) ∧
      t.reassign who auth id to_ now = t.accept [.rehomed id r.assignee to_,
        .requeued id none .rehomed, .assigned to_ id r.text r.expect] now := by
  simp only [reassign]
  -- In the order of the checks; only the last leads to an acceptance.
  split
  · exact .inl ⟨_, rfl⟩
  next leads =>
    split
    · exact .inl ⟨_, rfl⟩
    next assignable =>
      split
      · exact .inl ⟨_, rfl⟩
      next r found =>
        split
        · exact .inl ⟨_, rfl⟩
        next kind =>
          split
          · exact .inl ⟨_, rfl⟩
          next status =>
            exact .inr ⟨r, not_not.mp leads, assignable, found, by simpa using kind,
              not_not.mp status, rfl⟩

theorem claim_cases (t : TaskTable A) (who : A) (id : TaskId) (now : BlockNumber) :
    (∃ why, t.claim who id now = (.error why, t)) ∨
    ∃ r, t.get id = some r ∧ r.isParent = false ∧ r.status = .pending ∧
      r.assignee = some who ∧ t.claim who id now =
        t.accept [.record who id .claim "", .nudge who id t.cfg.timers.maxNudges false] now := by
  simp only [claim]
  split
  · exact .inl ⟨_, rfl⟩
  next r found =>
    split
    · exact .inl ⟨_, rfl⟩
    next kind =>
      split
      · exact .inl ⟨_, rfl⟩
      · split
        · exact .inl ⟨_, rfl⟩
        next status =>
          split
          · exact .inl ⟨_, rfl⟩
          next mine =>
            exact .inr ⟨r, found, by simpa using kind, not_not.mp status, not_not.mp mine, rfl⟩

theorem submit_cases (t : TaskTable A) (who : A) (id : TaskId) (outcome : Outcome)
    (now : BlockNumber) :
    (∃ why, t.submit who id outcome now = (.error why, t)) ∨
    ∃ r act, t.get id = some r ∧ r.isParent = false ∧ (act = .done ∨ act = .failed) ∧
      ((r.status = .inProgress ∧ r.holder = some who) ∨
        (r.status = .pending ∧ r.assignee = some who)) ∧
      t.submit who id outcome now = t.accept [.record who id act outcome.text] now := by
  simp only [submit]
  split
  · exact .inl ⟨_, rfl⟩
  · split
    · exact .inl ⟨_, rfl⟩
    next r found =>
      have submits : (if outcome.isFailed then Act.failed else Act.done) = .done ∨
          (if outcome.isFailed then Act.failed else Act.done) = .failed := by
        cases outcome.isFailed <;> simp
      split
      · exact .inl ⟨_, rfl⟩
      next kind =>
        split
        -- Done by its holder, or by the assignee without claiming it first.
        next status =>
          split
          next held => exact .inr ⟨r, _, found, by simpa using kind, submits,
            .inl ⟨status, held⟩, rfl⟩
          · exact .inl ⟨_, rfl⟩
        next status =>
          split
          next mine => exact .inr ⟨r, _, found, by simpa using kind, submits,
            .inr ⟨status, mine⟩, rfl⟩
          · exact .inl ⟨_, rfl⟩
        · exact .inl ⟨_, rfl⟩
        · exact .inl ⟨_, rfl⟩

/-! ## Calls -/

/-- A call of one of the verbs that answer with effects. -/
inductive Call (A : Type)
  | setLeader (who : A)
  | openParent (who : A) (auth : Authority) (text : String)
  | plan (who : A) (auth : Authority) (parent : TaskId) (items : List (PlanItem A))
  | say (who : A) (auth : Authority) (to_ : Option A) (body : String) (noAck offRecord : Bool)
  | publishStandaloneArtifact (who : A) (body : String)
  | reassign (who : A) (auth : Authority) (id : TaskId) (to_ : A)
  | update (who : A) (auth : Authority) (id : TaskId) (act : Act) (text : String)
  | tick

/-- The answer of a call and the table it leaves. -/
def call (t : TaskTable A) (c : Call A) (now : BlockNumber) :
    Except Error (List (Effect A)) × TaskTable A :=
  match c with
  | .setLeader who => let (effects, t) := t.setLeader who now; (.ok effects, t)
  | .openParent who auth text =>
    let (answer, t) := t.openParent who auth text now; (answer.map (·.2), t)
  | .plan who auth parent items => t.plan who auth parent items now
  | .say who auth to_ body noAck offRecord => t.say who auth to_ body noAck offRecord
  | .publishStandaloneArtifact who body =>
    let (answer, t) := t.publishStandaloneArtifact who body now; (answer.map (·.2), t)
  | .reassign who auth id to_ => t.reassign who auth id to_ now
  | .update who auth id act text => t.update who auth id act text now
  | .tick => let (effects, t) := t.tick now; (.ok effects, t)

private theorem update_folds (t : TaskTable A) (who : A) (auth : Authority) (id : TaskId)
    (act : Act) (text : String) (now : BlockNumber) :
    Folds t now (t.update who auth id act text now) := by
  -- A refusal folds nothing, and what is accepted is folded as it is returned.
  cases act with
  | claim =>
    rcases t.claim_cases who id now with refused | ⟨_, _, _, _, _, accepted⟩
    · exact folds_refusal refused
    · exact folds_accept accepted
  | done =>
    rcases t.submit_cases who id (.done text) now with refused | ⟨_, _, _, _, _, _, accepted⟩
    · exact folds_refusal refused
    · exact folds_accept accepted
  | failed =>
    rcases t.submit_cases who id (.failed text) now with refused | ⟨_, _, _, _, _, _, accepted⟩
    · exact folds_refusal refused
    · exact folds_accept accepted
  | clear =>
    rcases t.clear_cases who auth id now with refused | ⟨_, _, _, _, _, accepted⟩
    · exact folds_refusal refused
    · exact folds_accept accepted
  | reopen =>
    rcases t.reopen_cases who auth id text now with refused | ⟨_, _, _, _, _, accepted⟩
    · exact folds_refusal refused
    · exact folds_accept accepted
  | artifact =>
    rcases t.commitArtifact_cases who auth id text now with
      refused | ⟨_, _, _, _, _, _, _, accepted⟩
    · exact folds_refusal refused
    · exact folds_accept accepted

theorem call_folds (t : TaskTable A) (c : Call A) (now : BlockNumber) :
    Folds t now (t.call c now) := by
  cases c with
  | setLeader who =>
    rcases t.setLeader_cases who now with ⟨_, left⟩ | ⟨_, left⟩ <;>
      simp only [Folds, call, left] <;> rfl
  | openParent who auth text =>
    rcases t.openParent_cases who auth text now with ⟨_, left⟩ | ⟨_, _, left⟩ <;>
      simp only [Folds, call, left] <;> rfl
  | plan who auth parent items =>
    rcases t.plan_cases who auth parent items now with refused | ⟨_, _, _, _, _, _, accepted⟩
    · exact folds_refusal refused
    · exact folds_accept accepted
  | say who auth to_ body noAck offRecord =>
    rcases t.say_cases who auth to_ body noAck offRecord with ⟨_, left⟩ | left <;>
      simp only [Folds, call, left] <;> rfl
  | publishStandaloneArtifact who body =>
    rcases t.publishStandaloneArtifact_cases who body now with ⟨_, left⟩ | ⟨_, left⟩ <;>
      simp only [Folds, call, left] <;> rfl
  | reassign who auth id to_ =>
    rcases t.reassign_cases who auth id to_ now with refused | ⟨_, _, _, _, _, _, accepted⟩
    · exact folds_refusal refused
    · exact folds_accept accepted
  | update who auth id act text => exact t.update_folds who auth id act text now
  | tick => exact t.tick_folds now

/-- A refused call returns no effects and changes nothing. -/
theorem call_refused {t : TaskTable A} {c : Call A} {now : BlockNumber} {why : Error}
    (refused : (t.call c now).1 = .error why) : (t.call c now).2 = t := by
  have folded := t.call_folds c now
  rw [Folds, refused] at folded
  exact folded

/-! ## What a call tells -/

/-- The effects each verb may return. -/
inductive Answers : Call A → Effect A → Prop
  | elected (who : A) : Answers (.setLeader who) (.directed who TaskId.default .leaderElected)
  | opened (who : A) (auth : Authority) (text : String) (id : TaskId) :
    Answers (.openParent who auth text) (.opened who id text)
  | planned (who : A) (auth : Authority) (parent : TaskId) (items : List (PlanItem A))
      (count : Nat) : Answers (.plan who auth parent items) (.planned who parent count)
  | offered (who : A) (auth : Authority) (parent id : TaskId) (items : List (PlanItem A)) (to_ : A)
      (what expect : String) :
    Answers (.plan who auth parent items) (.assigned to_ id what expect)
  | said (who : A) (auth : Authority) (to_ : Option A) (body : String)
      (noAck offRecord fromRoot : Bool) :
    Answers (.say who auth to_ body noAck offRecord) (.said who to_ body fromRoot noAck offRecord)
  | published (who : A) (body title : String) (id : Nat) :
    Answers (.publishStandaloneArtifact who body) (.standaloneArtifact who id title body)
  | rehomed (who : A) (auth : Authority) (id : TaskId) (old : Option A) (to_ : A) :
    Answers (.reassign who auth id to_) (.rehomed id old to_)
  | moved (who : A) (auth : Authority) (id : TaskId) (to_ : A) :
    Answers (.reassign who auth id to_) (.requeued id none .rehomed)
  | moved_offered (who : A) (auth : Authority) (id : TaskId) (to_ : A) (what expect : String) :
    Answers (.reassign who auth id to_) (.assigned to_ id what expect)
  | recorded (who : A) (auth : Authority) (id : TaskId) (act act' : Act) (text text' : String) :
    Answers (.update who auth id act text) (.record who id act' text')
  | claimed (who : A) (auth : Authority) (id : TaskId) (text : String) (remaining : Nat) :
    Answers (.update who auth id .claim text) (.nudge who id remaining false)
  | reopened (who : A) (auth : Authority) (id : TaskId) (text : String) :
    Answers (.update who auth id .reopen text) (.requeued id none .reopened)
  | reopened_offered (who : A) (auth : Authority) (id : TaskId) (text : String) (to_ : A)
      (what expect : String) :
    Answers (.update who auth id .reopen text) (.assigned to_ id what expect)
  | closed (who : A) (auth : Authority) (id : TaskId) (text title : String) :
    Answers (.update who auth id .artifact text) (.closed id title text who)
  | row (id : TaskId) (e : Effect A) (row : RowEffect id e) : Answers .tick e
  | failed (id : TaskId) : Answers .tick (.failed id)
  | directed (leader : A) (id : TaskId) (d : Directive) : Answers .tick (.directed leader id d)

omit [DecidableEq A] in
/-- The tick rewrites rows, directs the leader and fails parents. -/
theorem tick_answers {t : TaskTable A} {now : BlockNumber} {e : Effect A}
    (member : e ∈ (t.tick now).1) : Answers .tick e := by
  have first : ∀ e ∈ t.stage1 now, Answers .tick e := by
    intro e member
    obtain ⟨r, _, effects⟩ := List.mem_flatMap.mp member
    exact .row _ _ (subtaskEffects_row effects)
  simp only [tick] at member
  split at member
  · exact first e member
  · rcases List.mem_append.mp member with one | two
    · exact first e one
    · obtain ⟨_, _, _, _, rfl | ⟨_, _, rfl⟩⟩ := stage2_cases two
      · exact .failed _
      · exact .directed _ _ _

private theorem update_answers {t : TaskTable A} {who : A} {auth : Authority} {id : TaskId}
    {act : Act} {text : String} {now : BlockNumber} :
    ∀ e ∈ returned (t.update who auth id act text now).1,
      Answers (.update who auth id act text) e := by
  -- Done and failed are one verb, told apart by the outcome.
  have submitted : ∀ outcome, ∀ e ∈ returned (t.submit who id outcome now).1,
      Answers (.update who auth id act text) e := by
    intro outcome
    rcases t.submit_cases who id outcome now with ⟨_, left⟩ | ⟨_, _, _, _, _, _, left⟩
    · simp [left, returned]
    · simp only [left, accept, returned, List.mem_singleton, forall_eq]
      exact .recorded _ _ _ _ _ _ _
  cases act with
  | claim =>
    rcases t.claim_cases who id now with ⟨_, left⟩ | ⟨_, _, _, _, _, left⟩
    · simp [update, left, returned]
    · simp only [update, left, accept, returned, List.forall_mem_cons]
      exact ⟨.recorded _ _ _ _ _ _ _, .claimed _ _ _ _ _, by simp⟩
  | done => exact submitted _
  | failed => exact submitted _
  | clear =>
    rcases t.clear_cases who auth id now with ⟨_, left⟩ | ⟨_, _, _, _, _, left⟩
    · simp [update, left, returned]
    · simp only [update, left, accept, returned, List.mem_singleton, forall_eq]
      exact .recorded _ _ _ _ _ _ _
  | reopen =>
    rcases t.reopen_cases who auth id text now with ⟨_, left⟩ | ⟨_, _, _, _, _, left⟩
    · simp [update, left, returned]
    · simp only [update, left, accept, returned, List.forall_mem_cons, Option.mem_toList,
        Option.map_eq_some_iff]
      refine ⟨.recorded _ _ _ _ _ _ _, .reopened _ _ _ _, ?_⟩
      rintro e ⟨to_, _, rfl⟩
      exact .reopened_offered _ _ _ _ _ _ _
  | artifact =>
    rcases t.commitArtifact_cases who auth id text now with
      ⟨_, left⟩ | ⟨_, _, _, _, _, _, _, left⟩
    · simp [update, left, returned]
    · simp only [update, left, accept, returned, List.forall_mem_cons]
      exact ⟨.recorded _ _ _ _ _ _ _, .closed _ _ _ _ _, by simp⟩

/-- A call returns nothing but its answers. -/
theorem call_answers (t : TaskTable A) (c : Call A) (now : BlockNumber) :
    ∀ e ∈ returned (t.call c now).1, Answers c e := by
  cases c with
  | setLeader who =>
    rcases t.setLeader_cases who now with ⟨_, left⟩ | ⟨_, left⟩
    · simp [call, left, returned]
    · simp only [call, left, returned, List.mem_singleton, forall_eq]
      exact .elected _
  | openParent who auth text =>
    rcases t.openParent_cases who auth text now with ⟨_, left⟩ | ⟨_, _, left⟩
    · simp [call, left, returned, Except.map]
    · simp only [call, left, returned, Except.map, List.mem_singleton, forall_eq]
      exact .opened _ _ _ _
  | plan who auth parent items =>
    rcases t.plan_cases who auth parent items now with ⟨_, left⟩ | ⟨_, _, _, _, _, _, left⟩
    · simp [call, left, returned]
    · simp only [call, left, accept, returned, List.forall_mem_cons]
      refine ⟨.planned _ _ _ _ _, fun e offer => ?_⟩
      -- Every offer is of an item of the plan.
      obtain ⟨_, _, rfl⟩ := List.mem_mapIdx.mp offer
      exact .offered _ _ _ _ _ _ _ _
  | say who auth to_ body noAck offRecord =>
    rcases t.say_cases who auth to_ body noAck offRecord with ⟨_, left⟩ | left
    · simp [call, left, returned]
    · simp only [call, left, returned, List.mem_singleton, forall_eq]
      exact .said _ _ _ _ _ _ _
  | publishStandaloneArtifact who body =>
    rcases t.publishStandaloneArtifact_cases who body now with ⟨_, left⟩ | ⟨_, left⟩
    · simp [call, left, returned, Except.map]
    · simp only [call, left, returned, Except.map, List.mem_singleton, forall_eq]
      exact .published _ _ _ _
  | reassign who auth id to_ =>
    rcases t.reassign_cases who auth id to_ now with ⟨_, left⟩ | ⟨_, _, _, _, _, _, left⟩
    · simp [call, left, returned]
    · simp only [call, left, accept, returned, List.forall_mem_cons]
      exact ⟨.rehomed _ _ _ _ _, .moved _ _ _ _, .moved_offered _ _ _ _ _ _, by simp⟩
  | update who auth id act text => exact update_answers
  | tick => exact fun e => tick_answers

/-- The effects that are about tasks or chat, which the table folds itself. -/
def Tabled : Effect A → Prop
  | .statsReported .. | .statsReported2 .. | .message .. | .reacted .. | .voted .. => False
  | .patronRequested .. | .patronApproved .. | .patronRejected .. | .patronRevoked .. => False
  | _ => True

omit [DecidableEq A] in
theorem Answers.tabled {c : Call A} {e : Effect A} (answers : Answers c e) : Tabled e := by
  cases answers with
  | row id e row => cases row <;> trivial
  | _ => trivial

/-! ## Runs and their logs -/

/-- The table a sequence of calls leaves, each at its own block. -/
def runCalls (t : TaskTable A) (calls : List (Call A × BlockNumber)) : TaskTable A :=
  calls.foldl (fun t (c, now) => (t.call c now).2) t

/-- The log of a sequence of calls: what each returned, at its block. -/
def logOf : TaskTable A → List (Call A × BlockNumber) → List (BlockNumber × List (Effect A))
  | _, [] => []
  | t, (c, now) :: calls =>
    let (answer, t') := t.call c now
    (now, returned answer) :: logOf t' calls

/-- Fold a log into a table. -/
def replay (t : TaskTable A) (log : List (BlockNumber × List (Effect A))) : TaskTable A :=
  log.foldl (fun t (now, effects) => t.applyAll effects now) t

/-- Replaying the log of a run into a copy of the starting table rebuilds the table the run
left, and a refused call adds nothing to either. -/
theorem replay_logOf (t : TaskTable A) (calls : List (Call A × BlockNumber)) :
    t.replay (t.logOf calls) = t.runCalls calls ∧
      ∀ (t : TaskTable A) (c : Call A) (now : BlockNumber) (why : Error),
        (t.call c now).1 = .error why →
          returned (t.call c now).1 = [] ∧ (t.call c now).2 = t := by
  constructor
  · induction calls generalizing t with
    | nil => rfl
    | cons head calls ih =>
      obtain ⟨c, now⟩ := head
      have folded : t.applyAll (returned (t.call c now).1) now = (t.call c now).2 :=
        (t.call_folds c now).symm
      simp only [replay, logOf, runCalls, List.foldl_cons] at ih ⊢
      rw [folded]
      exact ih _
  · intro t c now why refused
    exact ⟨by rw [refused]; rfl, call_refused refused⟩

/-- A task is opened and planned, its leader is not let claim the item, and whom it is offered is. -/
def claimed : List (Call Nat × BlockNumber) :=
  [(.setLeader 1, 1), (.openParent 0 .root "cook", 1),
    (.plan 1 .leader ⟨1, 0⟩ [⟨2, "fish", "fry it"⟩], 2), (.update 1 .leader ⟨1, 1⟩ .claim "", 3),
    (.update 2 .peer ⟨1, 1⟩ .claim "", 3)]

theorem replay_logOf_claimed :
    let t : TaskTable Nat := .new {} (some 0)
    let planned := t.runCalls (claimed.take 3)
    t.replay (t.logOf claimed) = t.runCalls claimed ∧
      (t.logOf claimed).map (fun block => block.2.length) = [1, 1, 2, 0, 2] ∧
      (planned.call (.update 1 .leader ⟨1, 1⟩ .claim "") 3).2 = planned := by
  intro t planned
  have replays := replay_logOf t claimed
  refine ⟨replays.1, by decide +kernel, ?_⟩
  have refused : (planned.call (.update 1 .leader ⟨1, 1⟩ .claim "") 3).1 = .error .notYours := by
    decide +kernel
  exact (replays.2 planned _ 3 _ refused).2

end Accounts

end AkumaMiot.TaskTable

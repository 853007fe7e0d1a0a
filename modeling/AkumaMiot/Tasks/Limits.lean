import AkumaMiot.Tasks.Ids

/-!
# What a call can reach

A peer without a sub-task of its own can publish, and that is all. And the rows of a table stay
within their limit as long as every plan finds room for its sub-tasks.
-/
namespace AkumaMiot.TaskTable

variable {A : Type}

/-! ## A peer's calls -/

/-- A call that `who` makes as a peer. The leader's installation, the tick and the collector are
nobody's calls. -/
def Op.ByPeer (who : A) : Op A → Prop
  | .call (.openParent by_ auth _) | .call (.plan by_ auth _ _) | .call (.say by_ auth _ _ _ _)
  | .call (.reassign by_ auth _ _) | .call (.update by_ auth _ _ _) => by_ = who ∧ auth = .peer
  | .call (.publishStandaloneArtifact by_ _) => by_ = who
  | .clearAll auth => auth = .peer
  | .call (.setLeader _) | .call .tick | .gc _ => False

/-- Nothing changed but that standalone artifacts were published. -/
structure Published (t t' : TaskTable A) : Prop where
  same : t' = { t with
    standaloneArtifacts := t'.standaloneArtifacts
    nextStandaloneArtifact := t'.nextStandaloneArtifact }
  artifacts : t.standaloneArtifacts <+: t'.standaloneArtifacts
  counter : t.nextStandaloneArtifact ≤ t'.nextStandaloneArtifact

theorem Published.refl (t : TaskTable A) : t.Published t := ⟨rfl, List.prefix_rfl, Nat.le_refl _⟩

theorem Published.trans {a b c : TaskTable A} (first : a.Published b) (second : b.Published c) :
    a.Published c where
  same := by rw [second.same, first.same]
  artifacts := first.artifacts.trans second.artifacts
  counter := Nat.le_trans first.counter second.counter

theorem Published.tasks {t t' : TaskTable A} (published : t.Published t') : t'.tasks = t.tasks := by
  rw [published.same]

/-- No sub-task is assigned to `who`, and none is held. -/
def Idle (t : TaskTable A) (who : A) : Prop :=
  ∀ r ∈ t.tasks, r.isParent = false → r.assignee ≠ some who ∧ r.holder ≠ some who

section Accounts

variable [DecidableEq A]

/-- Every act on a task is the leader's, the assignee's or the holder's. -/
theorem update_idle {t : TaskTable A} {who : A} (idle : t.Idle who) (id : TaskId) (act : Act)
    (text : String) (now : BlockNumber) : (t.update who .peer id act text now).2 = t := by
  -- A result comes from the holder or the assignee, and an idle peer is neither.
  have submit : ∀ outcome, (t.submit who id outcome now).2 = t := by
    intro outcome
    rcases t.submit_cases who id outcome now with ⟨_, left⟩ | ⟨r, _, found, kind, _, mine, _⟩
    · rw [left]
    · obtain ⟨assigned, held⟩ := idle r (get_some found).1 kind
      rcases mine with ⟨_, holds⟩ | ⟨_, assignee⟩
      · exact absurd holds held
      · exact absurd assignee assigned
  cases act with
  | claim =>
    rcases t.claim_cases who id now with ⟨_, left⟩ | ⟨r, found, kind, _, mine, _⟩
    · rw [update, left]
    · exact absurd mine (idle r (get_some found).1 kind).1
  | done => exact submit _
  | failed => exact submit _
  | clear =>
    rcases t.clear_cases who .peer id now with ⟨_, left⟩ | ⟨_, leads, _⟩
    · rw [update, left]
    · cases leads
  | reopen =>
    rcases t.reopen_cases who .peer id text now with ⟨_, left⟩ | ⟨_, leads, _⟩
    · rw [update, left]
    · cases leads
  | artifact =>
    rcases t.commitArtifact_cases who .peer id text now with ⟨_, left⟩ | ⟨_, _, leads, _⟩
    · rw [update, left]
    · cases leads

theorem peer_step {t : TaskTable A} {who : A} (idle : t.Idle who) {op : Op A}
    (peer : op.ByPeer who) (now : BlockNumber) : t.Published (t.step op now) := by
  -- Whatever is refused leaves the table as it is.
  have refused : ∀ {t' : TaskTable A}, t' = t → t.Published t' := fun same => same ▸ .refl t
  cases op with
  | gc keepFor => cases peer
  | clearAll auth =>
    obtain rfl : auth = .peer := peer
    exact refused rfl
  | call c =>
    cases c with
    | setLeader by_ => cases peer
    | tick => cases peer
    | openParent by_ auth text =>
      obtain ⟨rfl, rfl⟩ := peer
      rcases t.openParent_cases by_ .peer text now with ⟨_, left⟩ | ⟨allowed, _⟩
      · exact refused (by simp only [step, call, left])
      · rcases allowed with root | leads
        · cases root
        · cases leads
    | plan by_ auth parent items =>
      obtain ⟨rfl, rfl⟩ := peer
      rcases t.plan_cases by_ .peer parent items now with ⟨_, left⟩ | ⟨leads, _⟩
      · exact refused (by simp only [step, call, left])
      · cases leads
    | say by_ auth to_ body noAck offRecord =>
      rcases t.say_cases by_ auth to_ body noAck offRecord with ⟨_, left⟩ | left <;>
        exact refused (by simp only [step, call, left])
    | publishStandaloneArtifact by_ body =>
      rcases t.publishStandaloneArtifact_cases by_ body now with ⟨_, left⟩ | ⟨title, left⟩
      · exact refused (by simp only [step, call, left])
      · simp only [step, call, left]
        exact ⟨rfl, List.prefix_append _ _, Nat.le_max_left _ _⟩
    | reassign by_ auth id to_ =>
      obtain ⟨rfl, rfl⟩ := peer
      rcases t.reassign_cases by_ .peer id to_ now with ⟨_, left⟩ | ⟨_, leads, _⟩
      · exact refused (by simp only [step, call, left])
      · cases leads
    | update by_ auth id act text =>
      obtain ⟨rfl, rfl⟩ := peer
      exact refused (update_idle idle id act text now)

/-- Whatever a peer calls that no sub-task is assigned to and none is held by, rows, committed
artifacts, leader and parent counter stay as they were. -/
theorem peer_run (t : TaskTable A) (who : A) (idle : t.Idle who)
    (ops : List (Op A × BlockNumber)) (peer : ∀ op ∈ ops, op.1.ByPeer who) :
    (t.run ops).tasks = t.tasks ∧ (t.run ops).artifacts = t.artifacts ∧
      (t.run ops).leader = t.leader ∧ (t.run ops).nextParent = t.nextParent ∧
      t.Published (t.run ops) := by
  suffices published : t.Published (t.run ops) by
    refine ⟨?_, ?_, ?_, ?_, published⟩ <;> rw [published.same]
  have meets : Machine.Meets next (fun _ op => op.1.ByPeer who) t ops :=
    Machine.meets_of_forall peer
  refine (Machine.run_invariant (fun t' => t'.Idle who ∧ t.Published t') ?_ ⟨idle, .refl t⟩ meets).2
  rintro t' op ⟨idle, published⟩ peer
  have stepped := peer_step idle peer op.2
  refine ⟨fun r member => idle r ?_, published.trans stepped⟩
  exact stepped.tasks ▸ member

/-- Cat 9 has no sub-task: it can neither claim cat 2's nor clear the table. -/
theorem peer_run_refused :
    let t : TaskTable Nat := (new {} (some 0)).run [
      (.call (.setLeader 1), 1), (.call (.openParent 0 .root "t"), 1),
      (.call (.plan 1 .leader ⟨1, 0⟩ [⟨2, "a", "b"⟩]), 2)]
    let ops : List (Op Nat × BlockNumber) := [
      (.call (.update 9 .peer ⟨1, 1⟩ .claim ""), 3), (.call (.publishStandaloneArtifact 9 "# n"), 3),
      (.clearAll .peer, 4)]
    (t.run ops).tasks = t.tasks ∧ (t.run ops).standaloneArtifacts.length = 1 := by
  refine ⟨(peer_run _ 9 ?_ _ ?_).1, by decide⟩
  · unfold Idle
    decide
  · simp [Op.ByPeer]

/-! ## How many rows -/

/-- A plan that is accepted finds a free row for each of its items. -/
def PlanFits (t : TaskTable A) (op : Op A) (now : BlockNumber) : Prop :=
  match op with
  | .call (.plan who auth parent items) => (t.plan who auth parent items now).1.isOk = true →
      t.tasks.length + items.length ≤ t.cfg.limits.maxTasks
  | _ => True

instance (t : TaskTable A) (op : Op A) (now : BlockNumber) : Decidable (t.PlanFits op now) :=
  match op with
  | .call (.plan ..) => inferInstanceAs (Decidable (_ = true → _ ≤ _))
  | .call (.setLeader ..) | .call (.openParent ..) | .call (.say ..) |
    .call (.publishStandaloneArtifact ..) | .call (.reassign ..) | .call (.update ..) |
    .call .tick | .gc _ | .clearAll _ => .isTrue trivial

omit [DecidableEq A] in
/-- Each effect adds at most one row. -/
theorem applyAll_length (t : TaskTable A) (es : List (Effect A)) (now : BlockNumber) :
    (t.applyAll es now).tasks.length ≤ t.tasks.length + es.countP (fun e => (creates e).isSome) := by
  induction es generalizing t with
  | nil => exact Nat.le_refl _
  | cons e es ih =>
    have rest := ih (t.apply e now)
    have length : ∀ t : TaskTable A, t.tasks.length = t.ids.length := fun t => by simp
    rw [applyAll_cons, List.countP_cons]
    rcases t.apply_ids e now with same | ⟨id, created, _, grown⟩
    · have stays : (t.apply e now).tasks.length = t.tasks.length := by
        rw [length, same, ← length]
      omega
    · have one : (t.apply e now).tasks.length = t.tasks.length + 1 := by
        rw [length, grown, List.length_append, ← length]
        rfl
      rw [created]
      simp only [Option.isSome_some, if_true]
      omega

theorem plan_length {t : TaskTable A} {who : A} {auth : Authority} {parent : TaskId}
    {items : List (PlanItem A)} {now : BlockNumber}
    (fits : t.PlanFits (.call (.plan who auth parent items)) now)
    (within : t.tasks.length ≤ t.cfg.limits.maxTasks) :
    (t.plan who auth parent items now).2.tasks.length ≤ t.cfg.limits.maxTasks := by
  rcases t.plan_cases who auth parent items now with ⟨_, left⟩ | ⟨_, _, _, _, _, _, left⟩
  · rw [left]
    exact within
  · have room := fits (by rw [left]; rfl)
    have grows := t.applyAll_length
      (.planned who parent (items.length % 2 ^ 32) :: planOffers parent items) now
    have offers : (planOffers parent items).countP (fun e => (creates e).isSome) ≤ items.length :=
      Nat.le_trans List.countP_le_length (by simp [planOffers])
    rw [left]
    have none_ : (creates (.planned who parent (items.length % 2 ^ 32) : Effect A)).isSome = false :=
      rfl
    rw [List.countP_cons, none_] at grows
    simp only [Bool.false_eq_true, if_false, Nat.add_zero] at grows
    exact Nat.le_trans grows (by omega)

theorem step_length {t : TaskTable A} {op : Op A} {now : BlockNumber} (fits : t.PlanFits op now)
    (within : t.tasks.length ≤ t.cfg.limits.maxTasks) :
    (t.step op now).tasks.length ≤ t.cfg.limits.maxTasks := by
  have fewer : ∀ {u : TaskTable A}, u.ids.Sublist t.ids →
      u.tasks.length ≤ t.cfg.limits.maxTasks := by
    intro u sub
    have := sub.length_le
    simp only [List.length_map] at this
    omega
  have kept : ∀ {u : TaskTable A}, u.ids = t.ids → u.tasks.length ≤ t.cfg.limits.maxTasks :=
    fun same => fewer (same ▸ List.Sublist.refl _)
  cases op with
  | gc keepFor => exact fewer (t.gc_ids now keepFor)
  | clearAll auth => exact fewer (t.clearAll_ids auth now)
  | call c =>
    cases c with
    | plan who auth parent items => exact plan_length fits within
    | openParent who auth text =>
      -- `open` makes room for the sub-tasks of its own parent.
      rcases t.openParent_cases who auth text now with ⟨_, left⟩ | ⟨_, room, left⟩ <;>
        simp only [step, call, left]
      · exact within
      · have one : (t.apply (.opened who (.ofParent t.nextParent) text) now).tasks.length =
            t.tasks.length + 1 := by simp [apply, pushTask]
        omega
    | _ =>
      exact kept (t.call_ids _ now (fun _ _ _ same => by cases same)
        fun _ _ _ _ same => by cases same)

/-- From a new table on, as long as every plan that is accepted finds room for its items, there are
never more rows than the limit. -/
theorem capped_run (cfg : Config) (root : Option A) (ops : List (Op A × BlockNumber))
    (fits : Machine.Meets next (fun t op => t.PlanFits op.1 op.2) (new cfg root) ops) :
    ((new cfg root).run ops).tasks.length ≤ cfg.limits.maxTasks := by
  refine (Machine.run_invariant
    (fun t => t.cfg = cfg ∧ t.tasks.length ≤ cfg.limits.maxTasks) ?_
    ⟨rfl, Nat.zero_le _⟩ fits).2
  rintro t op ⟨rfl, within⟩ fits
  exact ⟨(t.step_frame op.1 op.2).1, step_length fits within⟩

/-- Room for four rows, three sub-tasks a parent. -/
def fourRows : Config := { limits := { maxSubtasks := 2, maxTasks := 4 } }

theorem capped_run_fits :
    let ops : List (Op Nat × BlockNumber) := [(.call (.setLeader 1), 1),
      (.call (.openParent 0 .root "t"), 1),
      (.call (.plan 1 .leader ⟨1, 0⟩ [⟨2, "a", "b"⟩, ⟨3, "c", "d"⟩]), 2)]
    ((new fourRows (some 0)).run ops).tasks.length = 3 ∧
      ((new fourRows (some 0)).run ops).tasks.length ≤ 4 :=
  ⟨by decide, capped_run fourRows (some 0) _ (by decide)⟩

/-- Two parents are opened before either is planned: each found room for its own sub-tasks. -/
theorem capped_run_crowded :
    let ops : List (Op Nat × BlockNumber) := [(.call (.setLeader 1), 1),
      (.call (.openParent 0 .root "t"), 1), (.call (.openParent 0 .root "u"), 1),
      (.call (.plan 1 .leader ⟨1, 0⟩ [⟨2, "a", "b"⟩, ⟨3, "c", "d"⟩]), 2),
      (.call (.plan 1 .leader ⟨2, 0⟩ [⟨2, "a", "b"⟩, ⟨3, "c", "d"⟩]), 2)]
    ¬ ((new fourRows (some 0)).run ops).tasks.length ≤ fourRows.limits.maxTasks := by
  decide

end Accounts

end AkumaMiot.TaskTable

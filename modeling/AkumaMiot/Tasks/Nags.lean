import AkumaMiot.Tasks.Dead
import AkumaMiot.Tasks.Fates

/-!
# Nudges and offers are counted

A claim starts the count of nudges, and a claim or a move to another cat the count of offers. The
counters a row carries say how far its ticks have got, whatever happens in between.
-/
namespace AkumaMiot.TaskTable

variable {A : Type}

/-- A nudge about this sub-task, or the word that there will be no more. -/
def nags (id : TaskId) : Effect A → Bool
  | .nudge _ task _ _ => task = id
  | .nudgeBudgetSpent _ task => task = id
  | _ => false

/-- This sub-task is offered to its assignee again, for want of a claim. -/
def reoffers (id : TaskId) : Effect A → Bool
  | .requeued task _ .unclaimed => task = id
  | _ => false

/-- All that is said to the holder between a claim and the end of the lease: each nudge names how
many are left after it, and the one that leaves none is marked as the last. -/
def countdown (holder : A) (id : TaskId) (max : Nat) : List (Effect A) :=
  (List.range max).map (fun i => .nudge holder id (max - 1 - i) (max - 1 - i = 0)) ++
    [.nudgeBudgetSpent holder id]

theorem countdown_nudge (holder : A) (id : TaskId) {max n : Nat} (left : n < max) :
    (countdown holder id max)[n]? =
      some (.nudge holder id (max - (n + 1)) (max - (n + 1) = 0)) := by
  have same : max - 1 - n = max - (n + 1) := by omega
  rw [countdown, List.getElem?_append_left (by simpa using left)]
  simp [left, same]

theorem countdown_spent (holder : A) (id : TaskId) (max : Nat) :
    (countdown holder id max)[max]? = some (.nudgeBudgetSpent holder id) := by
  rw [countdown, List.getElem?_append_right (by simp)]
  simp

theorem nags_concerns {id : TaskId} {e : Effect A} (nag : nags id e = true) :
    concerns e = some id := by
  cases e <;> simp_all [nags, concerns]

theorem reoffers_concerns {id : TaskId} {e : Effect A} (offer : reoffers id e = true) :
    concerns e = some id := by
  cases e with
  | requeued task holder why => cases why <;> simp_all [reoffers, concerns]
  | _ => cases offer

theorem reoffer_silent (r : Task A) (id : TaskId) :
    (reoffer r).filter (nags id) = [] ∧ (reoffer r).filter (reoffers id) = [] := by
  unfold reoffer
  split <;> exact ⟨rfl, rfl⟩

/-! ## One tick -/

/-- The holder was told the first `n` of what there is to say. -/
def Counting (cfg : Config) (holder : A) (n : Nat) (r : Task A) : Prop :=
  r.holder = some holder ∧
    ((r.budgetAnnounced = false ∧ r.nudgesUsed = n ∧ n ≤ cfg.timers.maxNudges) ∨
      (r.budgetAnnounced = true ∧ cfg.timers.maxNudges ≤ r.nudgesUsed ∧
        n = cfg.timers.maxNudges + 1))

/-- A tick says the next of it to whoever is at work, or nothing. -/
theorem advance_counts {cfg : Config} (now : BlockNumber) {holder : A} {n : Nat} {r : Task A}
    (working : r.status = .inProgress) (counting : Counting cfg holder n r) :
    ((subtaskEffects cfg now r).filter (nags r.id) = [] ∧
      ((advance cfg now r).status = .inProgress → Counting cfg holder n (advance cfg now r))) ∨
    ∃ e, (countdown holder r.id cfg.timers.maxNudges)[n]? = some e ∧
      (subtaskEffects cfg now r).filter (nags r.id) = [e] ∧
      Counting cfg holder (n + 1) (advance cfg now r) := by
  obtain ⟨held, count⟩ := counting
  have silent : subtaskEffects cfg now r = [] →
      (subtaskEffects cfg now r).filter (nags r.id) = [] ∧
        ((advance cfg now r).status = .inProgress → Counting cfg holder n (advance cfg now r)) := by
    intro none_
    rw [advance, none_]
    exact ⟨rfl, fun _ => ⟨held, count⟩⟩
  by_cases expired : leaseExpired r now = true
  -- The lease is over: the sub-task is nobody's work any more.
  · have effects : subtaskEffects cfg now r =
        .requeued r.id r.holder .leaseExpired :: reoffer r := by
      simp only [subtaskEffects, working, expired, if_true]
    refine .inl ⟨?_, fun still => ?_⟩
    · rw [effects, List.filter_cons_of_neg (by simp [nags]), (reoffer_silent r r.id).1]
    · rw [advance, effects] at still
      unfold reoffer at still
      split at still <;> cases still
  · by_cases due : r.nextNag.any (fun deadline => deadline ≤ now) = true
    · rcases count with ⟨unsaid, rfl, within⟩ | ⟨said, spent, all⟩
      · by_cases left : r.nudgesUsed < cfg.timers.maxNudges
        -- One more nudge, which says how many are left after it.
        · let remaining := cfg.timers.maxNudges - (r.nudgesUsed + 1)
          have effects : subtaskEffects cfg now r =
              [.nudge holder r.id remaining (remaining = 0)] := by
            simp only [subtaskEffects, working, expired, due, held, left, Bool.false_eq_true,
              if_false, if_true, remaining]
          refine .inr ⟨_, countdown_nudge holder r.id left, ?_, ?_⟩
          · rw [effects]
            simp [nags, remaining]
          · rw [advance, effects]
            refine ⟨held, .inl ⟨unsaid, ?_, left⟩⟩
            simp only [List.foldl_cons, List.foldl_nil, onRow, remaining]
            omega
        -- None left, and that was not said yet.
        · have all : r.nudgesUsed = cfg.timers.maxNudges := by omega
          have effects : subtaskEffects cfg now r = [.nudgeBudgetSpent holder r.id] := by
            simp only [subtaskEffects, working, expired, due, held, left, unsaid, Bool.not_false,
              Bool.false_eq_true, if_false, if_true]
          refine .inr ⟨_, by rw [all]; exact countdown_spent holder r.id _, ?_, ?_⟩
          · rw [effects]
            simp [nags]
          · rw [advance, effects]
            exact ⟨held, .inr ⟨rfl, Nat.le_of_eq all.symm, congrArg (· + 1) all⟩⟩
      · refine .inl (silent ?_)
        simp only [subtaskEffects, working, expired, due, held, Nat.not_lt.mpr spent, said,
          Bool.not_true, Bool.false_eq_true, if_false, if_true]
    · refine .inl (silent ?_)
      simp only [subtaskEffects, working, expired, due, Bool.false_eq_true, if_false]

/-- A tick that offers a row again counts the offer. -/
theorem advance_offers {cfg : Config} (bytes : Bytes cfg) (now : BlockNumber) (r : Task A) :
    (advance cfg now r).reoffers =
        r.reoffers + ((subtaskEffects cfg now r).filter (reoffers r.id)).length ∧
      (r.reoffers ≤ cfg.timers.maxReoffers →
        (advance cfg now r).reoffers ≤ cfg.timers.maxReoffers) := by
  have small := bytes.reoffers
  by_cases lapsed : r.status = .pending ∧ offerLapsed cfg r now = true
  · have left : r.reoffers < cfg.timers.maxReoffers := by
      have both := lapsed.2
      simp only [offerLapsed, Bool.and_eq_true, decide_eq_true_eq] at both
      exact both.1
    have effects : subtaskEffects cfg now r = .requeued r.id none .unclaimed :: reoffer r := by
      simp only [subtaskEffects, lapsed.1, lapsed.2, if_true]
    have one : (subtaskEffects cfg now r).filter (reoffers r.id) =
        [.requeued r.id none .unclaimed] := by
      rw [effects, List.filter_cons_of_pos (by simp [reoffers]), (reoffer_silent r r.id).2]
    have counted : (advance cfg now r).reoffers = r.reoffers + 1 := by
      -- The count is below its budget, so a byte holds one more.
      have saturates : u8SaturatingAdd r.reoffers 1 = r.reoffers + 1 := by
        unfold u8SaturatingAdd
        omega
      rw [advance, effects]
      unfold reoffer
      split <;> exact saturates
    rw [one, counted]
    exact ⟨rfl, fun _ => left⟩
  · have none_ : (subtaskEffects cfg now r).filter (reoffers r.id) = [] := by
      rcases subtaskEffects_cases cfg now r with
        eq | ⟨_, _, eq⟩ | ⟨_, _, _, _, eq⟩ | ⟨_, _, eq⟩ | ⟨status, elapsed, _⟩
      · rw [eq, List.filter_nil]
      · rw [eq, List.filter_cons_of_neg (by simp [reoffers]), (reoffer_silent r r.id).2]
      · rw [eq]
        rfl
      · rw [eq]
        rfl
      · exact absurd ⟨status, elapsed⟩ lapsed
    -- No other move of the row touches the count.
    have same : (advance cfg now r).reoffers = r.reoffers := by
      rcases advance_cases cfg now r with ⟨_, moved⟩ | ⟨_, _, _, moved⟩ |
        ⟨_, _, _, _, moved⟩ | ⟨_, _, _, _, moved⟩ | ⟨status, elapsed, _⟩
      · rw [moved]
      · rw [moved]
      · rw [moved]
      · rw [moved]
      · exact absurd ⟨status, elapsed⟩ lapsed
    rw [none_, same]
    exact ⟨rfl, fun within => within⟩

section Accounts

variable [DecidableEq A]

/-! ## One operation -/

/-- What a tick returns; the other operations' effects are not the clock's. -/
def ticked (t : TaskTable A) (op : Op A) (now : BlockNumber) : List (Effect A) :=
  match op with
  | .call .tick => (t.tick now).1
  | _ => []

omit [DecidableEq A] in
theorem ticked_other {op : Op A} (other : op ≠ .call .tick) (t : TaskTable A) (now : BlockNumber) :
    t.ticked op now = [] := by
  cases op with
  | call c =>
    cases c with
    | tick => exact absurd rfl other
    | _ => rfl
  | gc | clearAll => rfl

omit [DecidableEq A] in
/-- What ticks say of one kind about a sub-task is what its row makes them say. -/
theorem ticked_filter {t : TaskTable A} (descended : t.Descended) {r : Task A}
    (found : t.get r.id = some r) (sub : r.id.isParent = false) (now : BlockNumber)
    {says_ : Effect A → Bool} (concern : ∀ {e}, says_ e = true → concerns e = some r.id) :
    (t.ticked (.call .tick) now).filter says_ = (subtaskEffects t.cfg now r).filter says_ := by
  rw [← (tick_get descended found sub now).2, List.filter_filter]
  refine List.filter_congr fun e _ => ?_
  cases about : says_ e with
  | true => simp [concern about]
  | false => rfl

/-- The sub-task is at work. -/
def Working (t : TaskTable A) (id : TaskId) : Prop :=
  (t.get id).any (fun r => r.status = .inProgress) = true

instance (t : TaskTable A) (id : TaskId) : Decidable (t.Working id) :=
  inferInstanceAs (Decidable (_ = true))

omit [DecidableEq A] in
theorem working_iff {t : TaskTable A} {id : TaskId} :
    t.Working id ↔ ∃ r, t.get id = some r ∧ r.status = .inProgress := by
  simp [Working, Option.any_eq_true]

/-- While the sub-task stays at work, a step says the next of what there is to say, or nothing. -/
theorem step_counts {t : TaskTable A} (descended : t.Descended) {holder : A} {n : Nat} {r : Task A}
    (found : t.get r.id = some r) (sub : r.id.isParent = false) (working : r.status = .inProgress)
    (counting : Counting t.cfg holder n r) (op : Op A) (now : BlockNumber) :
    ∃ m, ((t.ticked op now).filter (nags r.id) = [] ∧ m = n ∨
        ∃ e, (countdown holder r.id t.cfg.timers.maxNudges)[n]? = some e ∧
          (t.ticked op now).filter (nags r.id) = [e] ∧ m = n + 1) ∧
      ∀ r', (t.step op now).get r.id = some r' → r'.status = .inProgress →
        Counting t.cfg holder m r' := by
  have fate := step_fate descended found sub op now
  by_cases ticks : op = .call .tick
  -- Only a tick says anything; all else takes the sub-task off the holder or leaves the row.
  · subst ticks
    rw [ticked_filter descended found sub now nags_concerns, step, call,
      (tick_get descended found sub now).1]
    rcases advance_counts now working counting with ⟨silent, still⟩ | ⟨e, next, one, counting'⟩
    · refine ⟨n, .inl ⟨silent, rfl⟩, fun r' found' working' => ?_⟩
      obtain rfl := Option.some.inj found'
      exact still working'
    · refine ⟨n + 1, .inr ⟨e, next, one, rfl⟩, fun r' found' _ => ?_⟩
      obtain rfl := Option.some.inj found'
      exact counting'
  · rw [ticked_other ticks]
    refine ⟨n, .inl ⟨rfl, rfl⟩, fun r' found' working' => ?_⟩
    rw [found'] at fate
    cases fate with
    | stays other => exact counting
    | ticked => exact absurd rfl ticks
    | claimed who auth text pending mine accepted => simp [working] at pending
    | submitted who auth act text r' submits status offers accepted =>
      simp [status] at working'
    | cleared who auth text accepted => cases working'
    | reopened who auth text r' status offers accepted => simp [status] at working'
    | rehomed who auth to_ r' status offers accepted => simp [status] at working'

/-- The operation starts the count of offers: an accepted claim of the sub-task, an accepted move
to another cat, or the plan that makes it. -/
def Restarts (t : TaskTable A) (op : Op A) (now : BlockNumber) (id : TaskId) : Prop :=
  (id ∉ t.ids ∧ id ∈ (t.step op now).ids) ∨
  match op with
  | .call (.update who auth task .claim text) =>
    task = id ∧ (t.update who auth task .claim text now).1.isOk = true
  | .call (.reassign who auth task to_) =>
    task = id ∧ (t.reassign who auth task to_ now).1.isOk = true
  | _ => False

instance (t : TaskTable A) (op : Op A) (now : BlockNumber) (id : TaskId) :
    Decidable (t.Restarts op now id) :=
  @instDecidableOr _ _ (inferInstanceAs (Decidable (id ∉ t.ids ∧ id ∈ (t.step op now).ids))) <|
  match op with
  | .call (.update _ _ _ .claim _) => inferInstanceAs (Decidable (_ = _ ∧ _ = true))
  | .call (.reassign ..) => inferInstanceAs (Decidable (_ = _ ∧ _ = true))
  | .call (.update _ _ _ .done _) | .call (.update _ _ _ .failed _) |
    .call (.update _ _ _ .clear _) | .call (.update _ _ _ .reopen _) |
    .call (.update _ _ _ .artifact _) => .isFalse False.elim
  | .call (.setLeader _) | .call (.openParent ..) | .call (.plan ..) | .call (.say ..) |
    .call (.publishStandaloneArtifact ..) | .call .tick | .gc _ | .clearAll _ =>
    .isFalse False.elim

/-- Whatever starts the count starts it from none. -/
theorem Restarts.row {t : TaskTable A} {op : Op A} {now : BlockNumber} {id : TaskId}
    (restarts : t.Restarts op now id) :
    ∃ r, (t.step op now).get id = some r ∧ r.reoffers = 0 := by
  rcases restarts with ⟨absent, there⟩ | acts
  · cases found : (t.step op now).get id with
    | none => exact absurd there (get_eq_none.mp found)
    | some r => exact ⟨r, rfl, (step_new (get_eq_none.mpr absent) op now r found).2⟩
  · split at acts
    · obtain ⟨rfl, accepted⟩ := acts
      obtain ⟨_, _, _, _, _, after⟩ := claim_row accepted
      exact ⟨_, after, rfl⟩
    · obtain ⟨rfl, accepted⟩ := acts
      obtain ⟨r, after, _, none_⟩ := reassign_row accepted
      exact ⟨r, after, none_⟩
    · exact acts.elim

/-- Between restarts a step adds what the tick offers again to the row's count. -/
theorem step_offers {t : TaskTable A} (descended : t.Descended) (bytes : Bytes t.cfg) {r : Task A}
    (found : t.get r.id = some r) (sub : r.id.isParent = false) {op : Op A} {now : BlockNumber}
    (calm : ¬ t.Restarts op now r.id) :
    (r.reoffers ≤ t.cfg.timers.maxReoffers →
      r.reoffers + ((t.ticked op now).filter (reoffers r.id)).length ≤ t.cfg.timers.maxReoffers) ∧
      ∀ r', (t.step op now).get r.id = some r' →
        r'.reoffers = r.reoffers + ((t.ticked op now).filter (reoffers r.id)).length := by
  have fate := step_fate descended found sub op now
  -- Only a tick offers on its own account; every other step that offers is a restart.
  by_cases ticks : op = .call .tick
  · subst ticks
    obtain ⟨counted, within⟩ := advance_offers bytes now r
    rw [ticked_filter descended found sub now reoffers_concerns, step, call,
      (tick_get descended found sub now).1]
    exact ⟨fun few => counted ▸ within few, fun r' found' => Option.some.inj found' ▸ counted⟩
  · rw [ticked_other ticks]
    refine ⟨fun few => few, fun r' found' => ?_⟩
    rw [found'] at fate
    cases fate with
    | stays other => rfl
    | ticked => exact absurd rfl ticks
    | claimed who auth text pending mine accepted =>
      exact absurd (.inr ⟨rfl, accepted⟩) calm
    | submitted who auth act text r' submits status offers accepted => exact offers
    | cleared who auth text accepted => rfl
    | reopened who auth text r' status offers accepted => exact offers
    | rehomed who auth to_ r' status offers accepted =>
      exact absurd (.inr ⟨rfl, accepted⟩) calm

omit [DecidableEq A] in
/-- Nothing is offered again that is not there. -/
theorem ticked_absent {t : TaskTable A} {id : TaskId} (sub : id.isParent = false)
    (absent : id ∉ t.ids) (op : Op A) (now : BlockNumber) :
    (t.ticked op now).filter (reoffers id) = [] := by
  by_cases ticks : op = .call .tick
  · subst ticks
    have first : ∀ e ∈ t.stage1 now, concerns e ≠ some id := by
      intro e member here
      obtain ⟨r, present, _, effects⟩ := stage1_row member
      rw [(subtaskEffects_row effects).concerns_eq] at here
      exact absent (Option.some.inj here ▸ List.mem_map_of_mem present)
    have none_ : ∀ e ∈ (t.tick now).1, concerns e ≠ some id := by
      intro e member
      simp only [tick] at member
      split at member
      · exact first e member
      · exact (List.mem_append.mp member).elim (first e) (stage2_aside sub)
    exact List.filter_eq_nil_iff.mpr fun e member offer =>
      none_ e member (reoffers_concerns offer)
  · rw [ticked_other ticks]
    rfl

/-! ## Runs -/

/-- What the ticks of a run say of one kind. -/
def said (kind : Effect A → Bool) : TaskTable A → List (Op A × BlockNumber) → List (Effect A)
  | _, [] => []
  | t, op :: ops => (t.ticked op.1 op.2).filter kind ++ said kind (t.next op) ops

theorem run_counts {t : TaskTable A} (descended : t.Descended) {holder : A} {n : Nat} {id : TaskId}
    {r : Task A} (found : t.get id = some r) (sub : id.isParent = false)
    (counting : Counting t.cfg holder n r) {ops : List (Op A × BlockNumber)}
    (working : Machine.Meets next (fun t _ => t.Working id) t ops) :
    said (nags id) t ops <+: (countdown holder id t.cfg.timers.maxNudges).drop n := by
  induction ops generalizing t n r with
  | nil => exact List.nil_prefix
  | cons op ops ih =>
    obtain rfl := (get_some found).2
    obtain ⟨working, later⟩ := working
    obtain ⟨x, found', status⟩ := working_iff.mp working
    obtain rfl := Option.some.inj (found.symm.trans found')
    obtain ⟨m, next_, counts⟩ := step_counts descended found sub status counting op.1 op.2
    have cfg : (t.next op).cfg = t.cfg := (t.step_frame op.1 op.2).1
    -- The rest of the run starts from the counter that this step leaves.
    have rest : said (nags r.id) (t.next op) ops <+:
        (countdown holder r.id t.cfg.timers.maxNudges).drop m := by
      cases ops with
      | nil => exact List.nil_prefix
      | cons op' ops =>
        obtain ⟨r', found', status'⟩ := working_iff.mp later.1
        have counts' := counts r' found' status'
        rw [← cfg] at counts' ⊢
        exact ih (step_descended descended op.1 op.2) found' counts' later
    rw [said]
    rcases next_ with ⟨silent, rfl⟩ | ⟨e, here, one, rfl⟩
    · rw [silent]
      exact rest
    · obtain ⟨small, same⟩ := List.getElem?_eq_some_iff.mp here
      rw [one, List.drop_eq_getElem_cons small, same]
      exact List.cons_prefix_cons.mpr ⟨rfl, rest⟩

theorem run_offers {t : TaskTable A} (descended : t.Descended) (bytes : Bytes t.cfg) {id : TaskId}
    (sub : id.isParent = false) {ops : List (Op A × BlockNumber)}
    (calm : Machine.Meets next (fun t op => ¬ t.Restarts op.1 op.2 id) t ops) :
    (t.get id = none → said (reoffers id) t ops = []) ∧
      ∀ r, t.get id = some r → r.reoffers ≤ t.cfg.timers.maxReoffers →
        r.reoffers + (said (reoffers id) t ops).length ≤ t.cfg.timers.maxReoffers := by
  induction ops generalizing t with
  | nil => exact ⟨fun _ => rfl, fun _ _ few => few⟩
  | cons op ops ih =>
    obtain ⟨calm, later⟩ := calm
    have cfg : (t.next op).cfg = t.cfg := (t.step_frame op.1 op.2).1
    have kept : (t.next op).Descended := step_descended descended op.1 op.2
    obtain ⟨gone, there⟩ := ih kept (by rw [cfg]; exact bytes) later
    refine ⟨fun absent => ?_, fun r found few => ?_⟩
    -- To come into being is to start the count, which no step of this run does.
    · have absent := get_eq_none.mp absent
      have still : (t.next op).get id = none :=
        get_eq_none.mpr fun made => calm (.inl ⟨absent, made⟩)
      rw [said, ticked_absent sub absent, gone still]
      rfl
    · obtain rfl := (get_some found).2
      obtain ⟨fits, counts⟩ := step_offers descended bytes found sub calm
      rw [said, List.length_append, ← Nat.add_assoc]
      cases after : (t.next op).get r.id with
      | none =>
        rw [gone after]
        exact fits few
      | some r' =>
        have count := counts r' after
        have rest := there r' after (by rw [cfg, count]; exact fits few)
        rw [cfg, count] at rest
        exact rest

/-- From an accepted claim of a sub-task, and as long as it stays in progress, all that ticks say
to nudge its holder is a beginning of the countdown; and from whatever starts the count of its
offers until the next such operation, no more than its budget of offers is made. -/
theorem budgets_run (cfg : Config) (root : Option A) (bytes : Bytes cfg)
    (before : List (Op A × BlockNumber)) (op : Op A) (now : BlockNumber) (id : TaskId)
    (sub : id.isParent = false) (after : List (Op A × BlockNumber)) :
    let t := (new cfg root).run before
    (∀ who auth text, op = .call (.update who auth id .claim text) →
      (t.update who auth id .claim text now).1.isOk = true →
      Machine.Meets next (fun t _ => t.Working id) (t.step op now) after →
      said (nags id) (t.step op now) after <+: countdown who id cfg.timers.maxNudges) ∧
    (t.Restarts op now id →
      Machine.Meets next (fun t op => ¬ t.Restarts op.1 op.2 id) (t.step op now) after →
      (said (reoffers id) (t.step op now) after).length ≤ cfg.timers.maxReoffers) := by
  intro t
  have descended : (t.step op now).Descended :=
    step_descended (run_descended (new_descended cfg root) before) op now
  have same : (t.step op now).cfg = cfg :=
    (t.step_frame op now).1.trans ((new cfg root).run_frame before).1
  constructor
  · rintro who auth text rfl accepted working
    obtain ⟨_, _, _, _, _, found⟩ := claim_row accepted
    have counts := run_counts descended found sub (n := 0)
      ⟨rfl, .inl ⟨rfl, rfl, Nat.zero_le _⟩⟩ working
    rw [same] at counts
    exact counts
  · intro restarts calm
    obtain ⟨r, found, none_⟩ := restarts.row
    have most := (run_offers descended (by rw [same]; exact bytes) sub calm).2 r found
      (by rw [none_]; exact Nat.zero_le _)
    rw [same, none_, Nat.zero_add] at most
    exact most

/-- A claimed sub-task is nudged three times, the last time as such, and then no more. -/
theorem budgets_run_claimed :
    let before : List (Op Nat × BlockNumber) := [(.call (.setLeader 1), 1),
      (.call (.openParent 0 .root "t"), 1),
      (.call (.plan 1 .leader ⟨1, 0⟩ [⟨2, "a", "b"⟩]), 1)]
    let t := (new briefTimers (some 0)).run before
    let claim : Op Nat := .call (.update 2 .peer ⟨1, 1⟩ .claim "")
    let ticks := [2, 3, 4, 5, 6].map fun now => ((.call .tick : Op Nat), now)
    said (nags ⟨1, 1⟩) (t.step claim 1) ticks = countdown 2 ⟨1, 1⟩ 3 ∧
      said (nags ⟨1, 1⟩) (t.step claim 1) ticks <+: countdown 2 ⟨1, 1⟩ 3 ∧
      (said (reoffers ⟨1, 1⟩) (t.step claim 1) ticks).length ≤ 1 := by
  intro before t claim ticks
  have budgets := budgets_run briefTimers (some 0) (by decide) before claim 1 ⟨1, 1⟩ rfl ticks
  exact ⟨by decide, budgets.1 2 .peer "" rfl (by decide) (by decide),
    budgets.2 (by decide) (by decide)⟩

end Accounts

end AkumaMiot.TaskTable

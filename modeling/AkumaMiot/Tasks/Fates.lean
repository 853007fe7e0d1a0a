import AkumaMiot.Tasks.Ticking

/-!
# What becomes of a sub-task

Sub-tasks keep ids of their own even where the parent counter has wrapped, since only a plan adds
them and it adds none twice. So one operation does one of a few things to a sub-task's row, and
what holds of the row over a run is read off those.
-/
namespace AkumaMiot.TaskTable

variable {A : Type}

/-! ## One effect -/

/-- The row an effect is about. -/
def concerns : Effect A → Option TaskId
  | .opened _ task _ | .planned _ task _ | .assigned _ task _ _ | .directed _ task _ => some task
  | .nudge _ task _ _ | .record _ task _ _ | .nudgeBudgetSpent _ task => some task
  | .requeued task _ _ | .rehomed task _ _ | .closed task _ _ _ | .failed task => some task
  | _ => none

theorem get_pushTask {t : TaskTable A} {id : TaskId} {r : Task A} (found : t.get id = some r)
    (x : Task A) : (t.pushTask x).get id = some r := by
  unfold get KeyedList.lookup at found ⊢
  rw [pushTask, List.find?_append, found, Option.some_or]

/-- A sub-task's row is left alone by what is about other rows: whatever else an effect rewrites
is a parent's. -/
theorem apply_aside {t : TaskTable A} {id : TaskId} {r : Task A} (found : t.get id = some r)
    (sub : id.isParent = false) {e : Effect A} (other : concerns e ≠ some id) (now : BlockNumber) :
    (t.apply e now).get id = some r := by
  have notParent : ∀ task : TaskId, id ≠ task.parentId := by
    rintro task rfl
    simp at sub
  have elsewhere : ∀ {u : TaskTable A} {task : TaskId} {f : Task A → Task A}, u.get id = some r →
      id ≠ task → (∀ x, (f x).id = x.id) → (u.updateTask task f).get id = some r :=
    fun found ne keeps => (get_updateTask_ne _ ne _ keeps).trans found
  cases e with
  | opened who task text => exact get_pushTask found _
  | assigned to_ task what expect =>
    have ne : id ≠ task := fun same => other (same ▸ rfl)
    simp only [apply]
    split
    · exact elsewhere found ne fun _ => rfl
    · exact get_pushTask found _
  | directed to_ task d =>
    have ne : id ≠ task := fun same => other (same ▸ rfl)
    by_cases elected : d = .leaderElected
    · -- An election resets the parents.
      have kind : r.isParent = false := by rw [Task.isParent, (get_some found).2, sub]
      rw [elected, get_elected, found, Option.map_some, if_neg (by simp [kind])]
    · simp only [apply, if_neg elected]
      exact elsewhere found ne fun _ => rfl
  | record who task act text =>
    have ne : id ≠ task := fun same => other (same ▸ rfl)
    cases act with
    | claim | reopen => exact elsewhere found ne fun _ => rfl
    -- The parent is waited for no longer, or sooner.
    | done | failed | clear =>
      refine elsewhere (elsewhere found ne ?_) (notParent task) ?_ <;> exact fun _ => rfl
    | artifact => exact found
  | requeued task holder why =>
    have ne : id ≠ task := fun same => other (same ▸ rfl)
    cases why with
    | unclaimed | leaseExpired => exact elsewhere found ne fun _ => rfl
    | rehomed | reopened => exact found
  | closed task title body author =>
    have ne : id ≠ task := fun same => other (same ▸ rfl)
    exact elsewhere found ne fun _ => rfl
  | planned _ task _ | nudge _ task _ _ | nudgeBudgetSpent _ task | failed task
  | rehomed task _ _ =>
    have ne : id ≠ task := fun same => other (same ▸ rfl)
    exact elsewhere found ne fun _ => rfl
  | _ => exact found

theorem applyAll_aside {t : TaskTable A} {id : TaskId} {r : Task A} (found : t.get id = some r)
    (sub : id.isParent = false) {es : List (Effect A)} (other : ∀ e ∈ es, concerns e ≠ some id)
    (now : BlockNumber) : (t.applyAll es now).get id = some r := by
  induction es generalizing t with
  | nil => exact found
  | cons e es ih =>
    exact ih (apply_aside found sub (other e (by simp)) now) fun e' member =>
      other e' (by simp [member])

/-- The effects that calls return about sub-tasks. -/
inductive SubEffect (id : TaskId) : Effect A → Prop
  | row {e : Effect A} (row : RowEffect id e) : SubEffect id e
  | record (who : A) (act : Act) (text : String) : SubEffect id (.record who id act text)
  | rehomed (old : Option A) (to_ : A) : SubEffect id (.rehomed id old to_)

/-- What such an effect makes of its row. -/
def onSub (cfg : Config) (now : BlockNumber) (r : Task A) : Effect A → Task A
  | .record who _ .claim _ => { r with
      status := .inProgress
      holder := some who
      leaseUntil := some (u32SaturatingAdd now cfg.timers.lease)
      nextNag := some (u32SaturatingAdd now cfg.timers.workNag)
      nudgesUsed := 0
      reoffers := 0
      budgetAnnounced := false
      offeredAt := none }
  | .record who _ .done text => { r with
      status := .awaitingClearance
      outcome := some (.done text)
      holder := some who
      leaseUntil := none
      nextNag := none
      offeredAt := none
      nudgesUsed := 0 }
  | .record who _ .failed text => { r with
      status := .awaitingClearance
      outcome := some (.failed text)
      holder := some who
      leaseUntil := none
      nextNag := none
      offeredAt := none
      nudgesUsed := 0 }
  | .record _ _ .clear _ => { r with status := .cleared }
  | .record _ _ .reopen _ => { r with
      status := .pending
      outcome := none
      holder := none
      offeredAt := some now
      leaseUntil := none
      nextNag := none
      nudgesUsed := 0
      budgetAnnounced := false }
  | .rehomed _ _ to_ => { r with
      assignee := some to_
      status := .pending
      holder := none
      outcome := none
      offeredAt := some now
      leaseUntil := none
      nextNag := none
      nudgesUsed := 0
      reoffers := 0
      budgetAnnounced := false }
  | e => onRow cfg now r e

theorem SubEffect.apply_get {id : TaskId} (sub : id.isParent = false) {e : Effect A}
    (effect : SubEffect id e) {t : TaskTable A} {r : Task A} (found : t.get id = some r)
    (now : BlockNumber) : (t.apply e now).get id = some (onSub t.cfg now r e) := by
  have notParent : id ≠ id.parentId := by
    intro same
    rw [same] at sub
    cases sub
  cases effect with
  | row row =>
    have there : id ∈ t.ids := (get_some found).2 ▸ List.mem_map_of_mem (get_some found).1
    have same : onSub t.cfg now r e = onRow t.cfg now r e := by cases row <;> rfl
    rw [row.apply_eq there, same]
    exact get_updateTask_found found _ fun x => onRow_id _ _ _ _
  | record who act text =>
    cases act with
    | claim | reopen => exact get_updateTask_found found _ fun _ => rfl
    | done | failed | clear =>
      -- The parent's row is rewritten next.
      refine (get_updateTask_ne _ notParent _ ?_).trans (get_updateTask_found found _ ?_)
      all_goals exact fun _ => rfl
    | artifact => exact found
  | rehomed old to_ => exact get_updateTask_found found _ fun _ => rfl

theorem applyAll_sub {id : TaskId} (sub : id.isParent = false) {es : List (Effect A)}
    (effects : ∀ e ∈ es, SubEffect id e) {t : TaskTable A} {r : Task A} (found : t.get id = some r)
    (now : BlockNumber) : (t.applyAll es now).get id = some (es.foldl (onSub t.cfg now) r) := by
  induction es generalizing t r with
  | nil => exact found
  | cons e es ih =>
    have rest := ih (fun e' member => effects e' (by simp [member]))
      ((effects e (by simp)).apply_get sub found now)
    rwa [apply_cfg] at rest

/-- The row that is found under this id has been planned. -/
def PlannedOnce (t : TaskTable A) (id : TaskId) : Prop :=
  ∃ p, t.get id = some p ∧ p.status ≠ .opened

/-- Nothing opens a row again. -/
theorem PlannedOnce.apply {t : TaskTable A} {id : TaskId} (once : t.PlannedOnce id) (e : Effect A)
    (now : BlockNumber) : (t.apply e now).PlannedOnce id := by
  have updated : ∀ {u : TaskTable A} (task : TaskId) {f : Task A → Task A}, u.PlannedOnce id →
      (∀ x, (f x).id = x.id) → (∀ x, (f x).status = .opened → x.status = .opened) →
      (u.updateTask task f).PlannedOnce id := by
    rintro u task f ⟨p, found, status⟩ keeps opened
    rw [PlannedOnce, u.get_updateTask id task f keeps, found]
    split
    · exact ⟨f p, rfl, fun now => status (opened p now)⟩
    · exact ⟨p, rfl, status⟩
  have row := once
  obtain ⟨p, found, status⟩ := row
  cases e with
  -- A new row stands behind the ones that are found before it.
  | opened who task text => exact ⟨p, get_pushTask found _, status⟩
  | planned who task count => exact updated task once (fun _ => rfl) fun _ opened => by cases opened
  | assigned to_ task what expect =>
    simp only [TaskTable.apply]
    split
    · exact updated task once (fun _ => rfl) fun _ opened => by cases opened
    · exact ⟨p, get_pushTask found _, status⟩
  | directed to_ task d =>
    by_cases elected : d = .leaderElected
    · rw [elected]
      refine ⟨_, by rw [get_elected, found, Option.map_some], ?_⟩
      split <;> exact status
    · simp only [TaskTable.apply, if_neg elected]
      exact updated task once (fun _ => rfl) fun _ opened => opened
  | record who task act text =>
    cases act with
    | claim | reopen => exact updated task once (fun _ => rfl) fun _ opened => by cases opened
    | done | failed | clear =>
      refine updated task.parentId (updated task once ?_ ?_) ?_ ?_
      all_goals first
        | exact fun _ => rfl
        | exact fun _ opened => opened
        | exact fun _ opened => by cases opened
    | artifact => exact once
  | requeued task holder why =>
    cases why with
    | unclaimed => exact updated task once (fun _ => rfl) fun _ opened => opened
    | leaseExpired => exact updated task once (fun _ => rfl) fun _ opened => by cases opened
    | rehomed | reopened => exact once
  | closed task title body author =>
    exact updated task (u := { t with artifacts := _ }) once (fun _ => rfl)
      fun _ opened => by cases opened
  | failed task => exact updated task once (fun _ => rfl) fun _ opened => by cases opened
  | rehomed task old to_ => exact updated task once (fun _ => rfl) fun _ opened => by cases opened
  | nudge _ task _ _ | nudgeBudgetSpent _ task =>
    exact updated task once (fun _ => rfl) fun _ opened => opened
  | _ => exact once

theorem PlannedOnce.applyAll {t : TaskTable A} {id : TaskId} (once : t.PlannedOnce id)
    (es : List (Effect A)) (now : BlockNumber) : (t.applyAll es now).PlannedOnce id := by
  induction es generalizing t with
  | nil => exact once
  | cons e es ih => exact ih (once.apply e now)

/-! ## Sub-tasks come from a plan -/

/-- No two sub-tasks share an id, and the parent of each is found and was planned. -/
structure Descended (t : TaskTable A) : Prop where
  once : (t.ids.filter fun id => !id.isParent).Nodup
  planned : ∀ id ∈ t.ids, id.isParent = false → t.PlannedOnce id.parentId

theorem new_descended (cfg : Config) (root : Option A) : (new cfg root).Descended :=
  ⟨List.nodup_nil, fun id there => by cases there⟩

theorem Descended.of_ids {t u : TaskTable A} (descended : t.Descended) (ids : u.ids = t.ids)
    (planned : ∀ id, t.PlannedOnce id → u.PlannedOnce id) : u.Descended where
  once := ids ▸ descended.once
  planned id there sub := planned _ (descended.planned id (ids ▸ there) sub)

/-- One more row: a parent, or the sub-task of a parent that was planned. -/
theorem Descended.apply {t : TaskTable A} (descended : t.Descended) {e : Effect A}
    (fits : ∀ id, creates e = some id →
      (opens e ≠ none → id.isParent = true) ∧ (id.isParent = false → t.PlannedOnce id.parentId))
    (now : BlockNumber) : (t.apply e now).Descended := by
  rcases t.apply_ids e now with same | ⟨id, created, absent, added⟩
  · exact descended.of_ids same fun _ once => once.apply e now
  · obtain ⟨parent, planned⟩ := fits id created
    constructor
    · rw [added, List.filter_append]
      by_cases kind : id.isParent = true
      · simpa [kind] using descended.once
      · have new : id ∉ t.ids := absent (by_contra fun opening => kind (parent opening))
        have alone : [id].filter (fun id => !id.isParent) = [id] := by simp [kind]
        rw [alone]
        refine List.nodup_append.mpr
          ⟨descended.once, List.nodup_singleton id, fun a there b last => ?_⟩
        rw [List.mem_singleton.mp last]
        exact fun same => new (same ▸ (List.mem_filter.mp there).1)
    · intro other there sub
      rw [added] at there
      refine PlannedOnce.apply ?_ e now
      rcases List.mem_append.mp there with old | last
      · exact descended.planned other old sub
      · obtain rfl := List.mem_singleton.mp last
        exact planned sub

/-- A sweep leaves the rows under the other parents. -/
theorem get_sweep (t : TaskTable A) {gone : List Nat} {id : TaskId}
    (kept : (!gone.contains id.parent) = true) : (t.sweep gone).get id = t.get id :=
  KeyedList.lookup_filter Task.id (fun k => !gone.contains k.parent) kept t.tasks

theorem Descended.sweep {t : TaskTable A} (descended : t.Descended) (gone : List Nat) :
    (t.sweep gone).Descended := by
  have fewer : (t.sweep gone).ids.Sublist t.ids := List.filter_sublist.map Task.id
  constructor
  · exact descended.once.sublist (fewer.filter _)
  · intro id there sub
    obtain ⟨r, present, rfl⟩ := List.mem_map.mp there
    obtain ⟨old, kept⟩ := List.mem_filter.mp present
    obtain ⟨p, found, status⟩ := descended.planned r.id (List.mem_map_of_mem old) sub
    have same : (t.sweep gone).get r.id.parentId = t.get r.id.parentId := get_sweep t kept
    exact ⟨p, same.trans found, status⟩

/-! ## The tick -/

theorem RowEffect.concerns_eq {id : TaskId} {e : Effect A} (row : RowEffect id e) :
    concerns e = some id := by
  cases row <;> rfl

/-- What stage 1 says about a sub-task comes from its own row. -/
theorem stage1_split {t : TaskTable A} (descended : t.Descended) {id : TaskId} {r : Task A}
    (found : t.get id = some r) (sub : id.isParent = false) (now : BlockNumber) :
    ∃ before after, t.stage1 now = before ++ (subtaskEffects t.cfg now r ++ after) ∧
      (∀ e ∈ before, concerns e ≠ some id) ∧ ∀ e ∈ after, concerns e ≠ some id := by
  obtain ⟨present, same⟩ := get_some found
  have selected : r ∈ t.tasks.filter fun r => !r.isParent :=
    List.mem_filter.mpr ⟨present, by rw [Task.isParent, same, sub]; rfl⟩
  have once : ((t.tasks.filter fun r => !r.isParent).map Task.id).Nodup := by
    have ids : (t.tasks.filter fun r => !r.isParent).map Task.id =
        t.ids.filter fun id => !id.isParent := by
      rw [ids, List.filter_map]
      rfl
    exact ids ▸ descended.once
  -- Its row is in one place of the sub-tasks, and no other row there has its id.
  obtain ⟨xs, ys, eq⟩ := List.append_of_mem selected
  rw [eq, List.map_append, List.map_cons, List.nodup_append] at once
  obtain ⟨_, tail, apart⟩ := once
  have aside : ∀ rs : List (Task A), (∀ x ∈ rs, x.id ≠ id) →
      ∀ e ∈ rs.flatMap (subtaskEffects t.cfg now), concerns e ≠ some id := by
    intro rs others e member here
    obtain ⟨x, there, effects⟩ := List.mem_flatMap.mp member
    rw [(subtaskEffects_row effects).concerns_eq] at here
    exact others x there (Option.some.inj here)
  refine ⟨xs.flatMap (subtaskEffects t.cfg now), ys.flatMap (subtaskEffects t.cfg now), ?_,
    aside xs fun x there here => ?_, aside ys fun x there here => ?_⟩
  · rw [stage1, eq, List.flatMap_append, List.flatMap_cons]
  · exact apart x.id (List.mem_map_of_mem there) r.id (by simp) (here.trans same.symm)
  · exact (List.nodup_cons.mp tail).1 (same ▸ here ▸ List.mem_map_of_mem there)

theorem stage2_aside {t : TaskTable A} {leader : A} {now : BlockNumber} {id : TaskId}
    (sub : id.isParent = false) {e : Effect A} (member : e ∈ t.stage2 leader now) :
    concerns e ≠ some id := by
  obtain ⟨p, _, parent, _, rfl | ⟨d, _, rfl⟩⟩ := stage2_cases member <;>
  · rintro here
    obtain rfl := Option.some.inj here
    rw [Task.isParent, sub] at parent
    cases parent

/-- A tick advances a sub-task's row and says what it decided for it. -/
theorem tick_get {t : TaskTable A} (descended : t.Descended) {id : TaskId} {r : Task A}
    (found : t.get id = some r) (sub : id.isParent = false) (now : BlockNumber) :
    (t.tick now).2.get id = some (advance t.cfg now r) ∧
      (t.tick now).1.filter (fun e => concerns e = some id) = subtaskEffects t.cfg now r := by
  obtain ⟨before, after, eq, aside, aside'⟩ := stage1_split descended found sub now
  obtain ⟨present, same⟩ := get_some found
  have rows : ∀ e ∈ subtaskEffects t.cfg now r, RowEffect id e := fun e member =>
    same ▸ subtaskEffects_row member
  have none_ : ∀ es : List (Effect A), (∀ e ∈ es, concerns e ≠ some id) →
      es.filter (fun e => concerns e = some id) = [] := fun es aside =>
    List.filter_eq_nil_iff.mpr fun e member => by simpa using aside e member
  have said : (t.stage1 now).filter (fun e => concerns e = some id) =
      subtaskEffects t.cfg now r := by
    rw [eq, List.filter_append, List.filter_append, none_ before aside, none_ after aside',
      List.nil_append, List.append_nil, List.filter_eq_self]
    exact fun e member => decide_eq_true (rows e member).concerns_eq
  have advanced : (t.applyAll (t.stage1 now) now).get id = some (advance t.cfg now r) := by
    have still := applyAll_aside found sub aside now
    have there : id ∈ (t.applyAll before now).ids :=
      (get_some still).2 ▸ List.mem_map_of_mem (get_some still).1
    rw [eq, applyAll_append, applyAll_append, applyAll_row rows there, applyAll_cfg]
    refine applyAll_aside ?_ sub aside' now
    exact get_updateTask_found still _ fun x => foldl_onRow_id _ _ _ x
  simp only [tick]
  split
  · exact ⟨advanced, said⟩
  next leader _ =>
    constructor
    · exact applyAll_aside advanced sub (fun e => stage2_aside sub) now
    · rw [List.filter_append, said, none_ _ fun e => stage2_aside sub, List.append_nil]

/-! ## New rows -/

/-- Nobody works on the row, and it was offered no more than once. -/
def New (r : Task A) : Prop := r.status ≠ .inProgress ∧ r.reoffers = 0

/-- An offer leaves nobody at work. -/
theorem applyAll_assigned_new {t : TaskTable A} {id : TaskId} {es : List (Effect A)}
    (offers : ∀ e ∈ es, ∃ to_ task what expect, e = .assigned to_ task what expect)
    {now : BlockNumber} (new : ∀ r ∈ t.tasks, r.id = id → New r) :
    ∀ r ∈ (t.applyAll es now).tasks, r.id = id → New r := by
  induction es generalizing t with
  | nil => exact new
  | cons e es ih =>
    obtain ⟨to_, task, what, expect, rfl⟩ := offers e (by simp)
    refine ih (fun e' member => offers e' (by simp [member])) fun r present same => ?_
    simp only [apply] at present
    split at present
    -- An offer of a row that is there keeps its count of offers.
    · rcases KeyedList.mem_update Task.id present with old | ⟨x, old, _, rfl⟩
      · exact new r old same
      · exact ⟨by simp, (new x old same).2⟩
    · rcases List.mem_append.mp present with old | last
      · exact new r old same
      · rw [List.mem_singleton.mp last]
        exact ⟨by simp [Task.ofAssigned], rfl⟩

section Accounts

variable [DecidableEq A]

/-- A sub-task that a step adds is on offer. -/
theorem step_new {t : TaskTable A} {id : TaskId} (absent : t.get id = none) (op : Op A)
    (now : BlockNumber) :
    ∀ r, (t.step op now).get id = some r → New r := by
  have fewer : ∀ {u : TaskTable A}, u.ids.Sublist t.ids → ∀ r, u.get id = some r → New r := by
    intro u sublist r found
    have there : id ∈ u.ids := (get_some found).2 ▸ List.mem_map_of_mem (get_some found).1
    exact absurd (sublist.subset there) (get_eq_none.mp absent)
  cases op with
  | gc keepFor => exact fewer (t.gc_ids now keepFor)
  | clearAll auth => exact fewer (t.clearAll_ids auth now)
  | call c =>
    by_cases plans : ∃ who auth parent items, c = .plan who auth parent items
    · obtain ⟨who, auth, parent, items, rfl⟩ := plans
      rcases t.plan_cases who auth parent items now with
        ⟨_, left⟩ | ⟨_, kind, _, _, _, _, left⟩ <;> rw [step, call, left]
      · exact fewer (List.Sublist.refl _)
      · let begun := t.apply (.planned who parent (items.length % 2 ^ 32)) now
        have ids : begun.ids = t.ids := t.updateTask_ids parent _ fun _ => rfl
        have offered : ∀ r ∈ (begun.applyAll (planOffers parent items) now).tasks,
            r.id = id → New r := by
          refine applyAll_assigned_new (fun e member => ?_) fun r present same => ?_
          · obtain ⟨i, _, rfl⟩ := List.mem_mapIdx.mp member
            exact ⟨_, _, _, _, rfl⟩
          · have there : r.id ∈ begun.ids := List.mem_map_of_mem present
            rw [ids, same] at there
            exact absurd there (get_eq_none.mp absent)
        exact fun r found => offered r (get_some found).1 (get_some found).2
    · by_cases opening : ∃ who auth text, c = .openParent who auth text
      · obtain ⟨who, auth, text, rfl⟩ := opening
        rcases t.openParent_step who auth text now with ⟨_, left⟩ | ⟨_, left⟩ <;> rw [left]
        · exact fewer (List.Sublist.refl _)
        · intro r found
          have last := (get_some found).1
          rcases List.mem_append.mp last with old | new
          · refine absurd ?_ (get_eq_none.mp absent)
            exact (get_some found).2 ▸ List.mem_map_of_mem old
          · rw [List.mem_singleton.mp new]
            exact ⟨by simp [Task.ofOpened], rfl⟩
      · have ids : (t.call c now).2.ids = t.ids := by
          refine t.call_ids c now ?_ ?_
          · exact fun who auth text same => opening ⟨who, auth, text, same⟩
          · exact fun who auth parent items same => plans ⟨who, auth, parent, items, same⟩
        exact fewer (ids ▸ List.Sublist.refl _)

theorem plan_descended {t : TaskTable A} (descended : t.Descended) (who : A) (auth : Authority)
    (parent : TaskId) (items : List (PlanItem A)) (now : BlockNumber) :
    (t.plan who auth parent items now).2.Descended := by
  rcases t.plan_cases who auth parent items now with
    ⟨_, left⟩ | ⟨_, kind, _, _, _, ⟨p, found, _⟩, left⟩ <;> rw [left]
  · exact descended
  · -- The parent is planned first; then each offer adds a sub-task under it.
    let start := t.apply (.planned who parent (items.length % 2 ^ 32)) now
    have once : start.PlannedOnce parent :=
      ⟨_, get_updateTask_found found _ fun _ => rfl, by simp⟩
    have begun : start.Descended := descended.apply (fun _ created => by cases created) now
    have offers : ∀ (es : List (Effect A)) (u : TaskTable A), u.Descended → u.PlannedOnce parent →
        (∀ e ∈ es, ∃ to_ n what expect, e = .assigned to_ ⟨parent.parent, n⟩ what expect) →
        (u.applyAll es now).Descended := by
      intro es
      induction es with
      | nil => exact fun u begun _ _ => begun
      | cons e es ih =>
        intro u begun once offer
        obtain ⟨to_, n, what, expect, rfl⟩ := offer e (by simp)
        refine ih _ (begun.apply (fun id created => ?_) now) (once.apply _ now) fun e' member =>
          offer e' (by simp [member])
        obtain rfl := Option.some.inj created
        refine ⟨fun opening => absurd rfl opening, fun _ => ?_⟩
        have same : TaskId.parentId ⟨parent.parent, n⟩ = parent.parentId := rfl
        rw [same, TaskId.parentId_of_isParent kind]
        exact once
    refine offers (planOffers parent items) start begun once fun e member => ?_
    obtain ⟨i, _, rfl⟩ := List.mem_mapIdx.mp member
    exact ⟨_, _, _, _, rfl⟩

theorem step_descended {t : TaskTable A} (descended : t.Descended) (op : Op A)
    (now : BlockNumber) : (t.step op now).Descended := by
  cases op with
  | gc keepFor =>
    rw [step, gc_eq_sweep]
    exact descended.sweep _
  | clearAll auth =>
    simp only [step, clearAll]
    split
    · exact descended
    · rw [gc_eq_sweep]
      refine Descended.sweep (descended.of_ids ?_ fun _ once => once.applyAll _ now) _
      refine applyAll_ids (fun e member => ?_) now
      obtain ⟨_, _, rfl⟩ := List.mem_map.mp member
      exact .of_creates_none rfl
  | call c =>
    by_cases plans : ∃ who auth parent items, c = .plan who auth parent items
    · obtain ⟨who, auth, parent, items, rfl⟩ := plans
      exact plan_descended descended who auth parent items now
    · by_cases opening : ∃ who auth text, c = .openParent who auth text
      · obtain ⟨who, auth, text, rfl⟩ := opening
        rcases t.openParent_step who auth text now with ⟨_, same⟩ | ⟨_, stepped⟩
        · rw [same]
          exact descended
        · rw [stepped]
          refine descended.apply (fun id created => ?_) now
          obtain rfl := Option.some.inj created
          exact ⟨fun _ => rfl, fun sub => by cases sub⟩
      · refine descended.of_ids (t.call_ids c now ?_ ?_) fun id once => ?_
        · exact fun who auth text same => opening ⟨who, auth, text, same⟩
        · exact fun who auth parent items same => plans ⟨who, auth, parent, items, same⟩
        · rw [step, t.call_folds c now]
          exact once.applyAll _ now

/-! ## One operation -/

/-- What an operation makes of a sub-task's row. -/
inductive Fate (t : TaskTable A) (now : BlockNumber) (r : Task A) : Op A → Option (Task A) → Prop
  | stays {op : Op A} (other : op ≠ .call .tick) : Fate t now r op (some r)
  | dropped {op : Op A} (swept : (∃ keepFor, op = .gc keepFor) ∨ ∃ auth, op = .clearAll auth)
      (gone : r.id.parentId ∉ (t.step op now).ids) : Fate t now r op none
  | ticked : Fate t now r (.call .tick) (some (advance t.cfg now r))
  | claimed (who : A) (auth : Authority) (text : String) (pending : r.status = .pending)
      (mine : r.assignee = some who)
      (accepted : (t.update who auth r.id .claim text now).1.isOk = true) :
    Fate t now r (.call (.update who auth r.id .claim text)) (some { r with
      status := .inProgress
      holder := some who
      leaseUntil := some (u32SaturatingAdd now t.cfg.timers.lease)
      nextNag := some (u32SaturatingAdd now t.cfg.timers.workNag)
      nudgesUsed := 0
      reoffers := 0
      budgetAnnounced := false
      offeredAt := none })
  | submitted (who : A) (auth : Authority) (act : Act) (text : String) (r' : Task A)
      (submits : act = .done ∨ act = .failed) (status : r'.status = .awaitingClearance)
      (offers : r'.reoffers = r.reoffers)
      (accepted : (t.update who auth r.id act text now).1.isOk = true) :
    Fate t now r (.call (.update who auth r.id act text)) (some r')
  | cleared (who : A) (auth : Authority) (text : String)
      (accepted : (t.update who auth r.id .clear text now).1.isOk = true) :
    Fate t now r (.call (.update who auth r.id .clear text)) (some { r with status := .cleared })
  | reopened (who : A) (auth : Authority) (text : String) (r' : Task A)
      (status : r'.status = .pending) (offers : r'.reoffers = r.reoffers)
      (accepted : (t.update who auth r.id .reopen text now).1.isOk = true) :
    Fate t now r (.call (.update who auth r.id .reopen text)) (some r')
  | rehomed (who : A) (auth : Authority) (to_ : A) (r' : Task A) (status : r'.status = .pending)
      (offers : r'.reoffers = 0) (accepted : (t.reassign who auth r.id to_ now).1.isOk = true) :
    Fate t now r (.call (.reassign who auth r.id to_)) (some r')

/-- A call that says nothing about a sub-task leaves its row. -/
theorem Fate.aside {t : TaskTable A} {now : BlockNumber} {r : Task A} (found : t.get r.id = some r)
    (sub : r.id.isParent = false) {c : Call A} (other : c ≠ .tick)
    (silent : ∀ e, Answers c e → e ∈ returned (t.call c now).1 → concerns e ≠ some r.id) :
    Fate t now r (.call c) ((t.step (.call c) now).get r.id) := by
  have same : (t.step (.call c) now).get r.id = some r := by
    rw [step, t.call_folds c now]
    exact applyAll_aside found sub
      (fun e member => silent e (t.call_answers c now e member) member) now
  rw [same]
  exact .stays fun same => other (Op.call.inj same)

theorem sweep_fate {t : TaskTable A} {now : BlockNumber} {r : Task A} {op : Op A}
    (swept : (∃ keepFor, op = .gc keepFor) ∨ ∃ auth, op = .clearAll auth) {u : TaskTable A}
    {gone : List Nat} (found : u.get r.id = some r) (left : t.step op now = u.sweep gone) :
    Fate t now r op ((t.step op now).get r.id) := by
  -- A parent goes with all its sub-tasks.
  cases kept : !gone.contains r.id.parent with
  | true =>
    have other : op ≠ .call .tick := by
      rintro rfl
      rcases swept with ⟨_, same⟩ | ⟨_, same⟩ <;> cases same
    rw [left, get_sweep u kept, found]
    exact .stays other
  | false =>
    have dropped : ∀ id : TaskId, id.parent = r.id.parent → id ∉ (u.sweep gone).ids := by
      intro id number there
      obtain ⟨x, present, rfl⟩ := List.mem_map.mp there
      have still := (List.mem_filter.mp present).2
      rw [number, kept] at still
      cases still
    rw [left, get_eq_none.mpr (dropped r.id rfl)]
    exact .dropped swept (left ▸ dropped r.id.parentId rfl)

/-- An accepted claim. -/
theorem claim_row {t : TaskTable A} {who : A} {id : TaskId} {now : BlockNumber}
    (accepted : (t.claim who id now).1.isOk = true) :
    ∃ r, t.get id = some r ∧ id.isParent = false ∧ r.status = .pending ∧ r.assignee = some who ∧
      (t.claim who id now).2.get id = some { r with
        status := .inProgress
        holder := some who
        leaseUntil := some (u32SaturatingAdd now t.cfg.timers.lease)
        nextNag := some (u32SaturatingAdd now t.cfg.timers.workNag)
        nudgesUsed := 0
        reoffers := 0
        budgetAnnounced := false
        offeredAt := none } := by
  rcases t.claim_cases who id now with ⟨why, left⟩ | ⟨r, found, kind, status, mine, left⟩
  · rw [left] at accepted
    cases accepted
  · have sub : id.isParent = false := by rw [← (get_some found).2]; exact kind
    have rows : ∀ e ∈ [Effect.record who id .claim "", .nudge who id t.cfg.timers.maxNudges false],
        SubEffect id e := by simpa using ⟨.record _ _ _, .row (.nudge _ _ _)⟩
    have after := applyAll_sub sub rows found now
    simp only [List.foldl_cons, List.foldl_nil, onSub, onRow, Nat.sub_self] at after
    rw [left]
    exact ⟨r, found, sub, status, mine, after⟩

/-- An accepted move to another cat. -/
theorem reassign_row {t : TaskTable A} {who : A} {auth : Authority} {id : TaskId} {to_ : A}
    {now : BlockNumber} (accepted : (t.reassign who auth id to_ now).1.isOk = true) :
    ∃ r', (t.reassign who auth id to_ now).2.get id = some r' ∧ r'.status = .pending ∧
      r'.reoffers = 0 := by
  rcases t.reassign_cases who auth id to_ now with ⟨why, left⟩ | ⟨r, _, _, found, kind, _, left⟩
  · rw [left] at accepted
    cases accepted
  · have sub : id.isParent = false := by rw [← (get_some found).2]; exact kind
    have rows : ∀ e ∈ [.rehomed id r.assignee to_, .requeued id none .rehomed,
        .assigned to_ id r.text r.expect], SubEffect id e := by
      simpa using ⟨.rehomed _ _, .row (.requeued _ _), .row (.assigned _ _ _)⟩
    rw [left]
    exact ⟨_, applyAll_sub sub rows found now, rfl, rfl⟩

theorem update_fate {t : TaskTable A} (now : BlockNumber) {r : Task A}
    (found : t.get r.id = some r) (sub : r.id.isParent = false) (who : A) (auth : Authority)
    (act : Act) (text : String) :
    Fate t now r (.call (.update who auth r.id act text))
      ((t.step (.call (.update who auth r.id act text)) now).get r.id) := by
  have refused : ∀ why, t.update who auth r.id act text now = (.error why, t) →
      Fate t now r (.call (.update who auth r.id act text))
        ((t.step (.call (.update who auth r.id act text)) now).get r.id) := by
    intro why left
    rw [step, call, left, found]
    exact .stays fun same => by cases same
  -- An accepted act folds effects about the row alone.
  have accepted : ∀ es, t.update who auth r.id act text now = t.accept es now →
      (∀ e ∈ es, SubEffect r.id e) →
      (t.update who auth r.id act text now).1.isOk = true ∧
        (t.step (.call (.update who auth r.id act text)) now).get r.id =
          some (es.foldl (onSub t.cfg now) r) := by
    intro es left rows
    rw [step, call, left]
    exact ⟨rfl, applyAll_sub sub rows found now⟩
  have submits : ∀ outcome, (act = .done ∨ act = .failed) →
      t.update who auth r.id act text now = t.submit who r.id outcome now →
      Fate t now r (.call (.update who auth r.id act text))
        ((t.step (.call (.update who auth r.id act text)) now).get r.id) := by
    intro outcome submits eq
    rcases t.submit_cases who r.id outcome now with
      ⟨why, left⟩ | ⟨_, act', _, _, submits', _, left⟩
    · exact refused why (eq.trans left)
    · obtain ⟨ok, after⟩ := accepted _ (eq.trans left) (by simpa using .record _ _ _)
      rw [after]
      rcases submits' with rfl | rfl <;> exact .submitted who auth act text _ submits rfl rfl ok
  cases act with
  | claim =>
    rcases t.claim_cases who r.id now with ⟨why, left⟩ | ⟨_, _, _, _, _, left⟩
    · exact refused why left
    · have ok : (t.claim who r.id now).1.isOk = true := by rw [left]; rfl
      obtain ⟨x, found', _, status, mine, after⟩ := claim_row ok
      obtain rfl := Option.some.inj (found.symm.trans found')
      rw [step, call, update, after]
      exact .claimed who auth text status mine ok
  | done => exact submits _ (.inl rfl) rfl
  | failed => exact submits _ (.inr rfl) rfl
  | clear =>
    rcases t.clear_cases who auth r.id now with ⟨why, left⟩ | ⟨_, _, _, _, _, left⟩
    · exact refused why left
    · obtain ⟨ok, after⟩ := accepted _ left (by simpa using .record _ _ _)
      rw [after]
      exact .cleared who auth text ok
  | reopen =>
    rcases t.reopen_cases who auth r.id text now with ⟨why, left⟩ | ⟨x, _, found', _, _, left⟩
    · exact refused why left
    · obtain rfl := Option.some.inj (found.symm.trans found')
      obtain ⟨ok, after⟩ := accepted _ left (by
        intro e member
        simp only [List.mem_cons, Option.mem_toList, Option.map_eq_some_iff] at member
        rcases member with rfl | rfl | ⟨to_, _, rfl⟩
        · exact .record _ _ _
        · exact .row (.requeued _ _)
        · exact .row (.assigned _ _ _))
      rw [after]
      cases r.assignee <;> exact .reopened who auth text _ rfl rfl ok
  -- Only a parent takes an artifact.
  | artifact =>
    rcases t.commitArtifact_cases who auth r.id text now with
      ⟨why, left⟩ | ⟨_, _, _, kind, _, _, _, _⟩
    · exact refused why left
    · rw [sub] at kind
      cases kind

theorem reassign_fate {t : TaskTable A} (now : BlockNumber) {r : Task A}
    (found : t.get r.id = some r) (who : A) (auth : Authority) (to_ : A) :
    Fate t now r (.call (.reassign who auth r.id to_))
      ((t.step (.call (.reassign who auth r.id to_)) now).get r.id) := by
  rcases t.reassign_cases who auth r.id to_ now with ⟨why, left⟩ | ⟨_, _, _, _, _, _, left⟩
  · rw [step, call, left, found]
    exact .stays fun same => by cases same
  · have ok : (t.reassign who auth r.id to_ now).1.isOk = true := by rw [left]; rfl
    obtain ⟨r', after, status, offers⟩ := reassign_row ok
    rw [step, call, after]
    exact .rehomed who auth to_ r' status offers ok

/-- One operation does one of these to a sub-task's row. -/
theorem step_fate {t : TaskTable A} (descended : t.Descended) {r : Task A}
    (found : t.get r.id = some r) (sub : r.id.isParent = false) (op : Op A) (now : BlockNumber) :
    Fate t now r op ((t.step op now).get r.id) := by
  have notParent : ∀ id : TaskId, id.isParent = true → some id ≠ some r.id := by
    rintro id parent same
    rw [Option.some.inj same, sub] at parent
    cases parent
  cases op with
  | gc keepFor => exact sweep_fate (.inl ⟨_, rfl⟩) found (gc_eq_sweep t now keepFor)
  | clearAll auth =>
    by_cases root : auth = .root
    · -- The parents it fails are no sub-tasks.
      let failing := (t.tasks.filter fun r =>
        r.isParent && (r.status = .opened || r.status = .planned)).map (·.id)
      obtain ⟨gone, left⟩ : ∃ gone, t.step (.clearAll auth) now =
          (t.applyAll (failing.map Effect.failed) now).sweep gone := by
        rw [step, clearAll, if_neg (not_not.mpr root)]
        exact ⟨_, gc_eq_sweep _ now 0⟩
      refine sweep_fate (.inr ⟨_, rfl⟩) (applyAll_aside found sub (fun e member => ?_) now) left
      obtain ⟨id, failed, rfl⟩ := List.mem_map.mp member
      obtain ⟨p, live, rfl⟩ := List.mem_map.mp failed
      exact notParent _ (Bool.and_eq_true _ _ ▸ (List.mem_filter.mp live).2).1
    · have left : t.step (.clearAll auth) now = t := by rw [step, clearAll, if_pos root]
      rw [left, found]
      exact .stays fun same => by cases same
  | call c =>
    cases c with
    | tick =>
      rw [step, call, (tick_get descended found sub now).1]
      exact .ticked
    | update who auth id act text =>
      by_cases same : id = r.id
      · subst same
        exact update_fate now found sub who auth act text
      · refine .aside found sub (fun same => by cases same) fun e answers _ => ?_
        cases answers <;> exact fun here => same (Option.some.inj here)
    | reassign who auth id to_ =>
      by_cases same : id = r.id
      · subst same
        exact reassign_fate now found who auth to_
      · refine .aside found sub (fun same => by cases same) fun e answers _ => ?_
        cases answers <;> exact fun here => same (Option.some.inj here)
    | setLeader who =>
      refine .aside found sub (fun same => by cases same) fun e answers _ => ?_
      cases answers
      exact notParent _ rfl
    | openParent who auth text =>
      rcases t.openParent_step who auth text now with ⟨_, left⟩ | ⟨_, left⟩
      · rw [left, found]
        exact .stays fun same => by cases same
      · have parent : concerns (.opened who (.ofParent t.nextParent) text : Effect A) ≠ some r.id :=
          notParent (.ofParent t.nextParent) rfl
        rw [left, apply_aside found sub parent now]
        exact .stays fun same => by cases same
    | plan who auth parent items =>
      have stays : (t.step (.call (.plan who auth parent items)) now).get r.id = some r := by
        rcases t.plan_cases who auth parent items now with
          ⟨_, left⟩ | ⟨_, kind, _, _, _, ⟨p, opened, status⟩, left⟩ <;> rw [step, call, left]
        · exact found
        · refine applyAll_aside found sub (fun e member => ?_) now
          rcases List.mem_cons.mp member with rfl | offer
          · exact notParent _ kind
          · obtain ⟨i, _, rfl⟩ := List.mem_mapIdx.mp offer
            -- The parent of a sub-task that is there is not planned again.
            intro here
            have same : r.id.parentId = parent := by
              rw [← Option.some.inj here]
              exact TaskId.parentId_of_isParent kind
            have there : r.id ∈ t.ids := List.mem_map_of_mem (get_some found).1
            obtain ⟨q, found', planned⟩ := descended.planned r.id there sub
            rw [same, opened] at found'
            exact planned (Option.some.inj found' ▸ status)
      rw [stays]
      exact .stays fun same => by cases same
    | say who auth to_ body noAck offRecord =>
      refine .aside found sub (fun same => by cases same) fun e answers _ => ?_
      cases answers
      exact fun here => by cases here
    | publishStandaloneArtifact who body =>
      refine .aside found sub (fun same => by cases same) fun e answers _ => ?_
      cases answers
      exact fun here => by cases here

theorem run_descended {t : TaskTable A} (descended : t.Descended) (ops : List (Op A × BlockNumber)) :
    (t.run ops).Descended :=
  Machine.run_keeps Descended (fun _ op descended => step_descended descended op.1 op.2) descended

end Accounts

end AkumaMiot.TaskTable

import AkumaMiot.Tasks.Ids

/-!
# The tick, one row at a time

Under distinct ids each row is rewritten by what the tick decided for that row alone. What a row
may still cost in effects goes down by at least what the tick returns for it, so that a table that
is left to its ticks goes quiet.
-/
namespace AkumaMiot.TaskTable

variable {A : Type}

/-! ## Rewriting a selection -/

theorem updateTask_updateTask (t : TaskTable A) (id : TaskId) (f g : Task A → Task A)
    (keeps : ∀ r, (f r).id = r.id) :
    (t.updateTask id f).updateTask id g = t.updateTask id (g ∘ f) := by
  simp only [updateTask, KeyedList.update_update Task.id id f g keeps]

theorem updateTask_id (t : TaskTable A) (id : TaskId) : t.updateTask id (fun r => r) = t := by
  have same : KeyedList.update Task.id id (fun r : Task A => r) t.tasks = t.tasks :=
    KeyedList.update_id Task.id id t.tasks
  rw [updateTask, same]

/-- Effects that rewrite one row each, decided over the rows as they were, rewrite them all at
once. -/
theorem applyAll_rewrites {t : TaskTable A} (distinct : t.ids.Nodup) (now : BlockNumber)
    (effects : Task A → List (Effect A)) (rewrite : Task A → Task A → Task A)
    (keeps : ∀ r x, (rewrite r x).id = x.id) {rs : List (Task A)} (rows : ∀ r ∈ rs, r ∈ t.tasks)
    (once : (rs.map Task.id).Nodup)
    (rewrites : ∀ r ∈ rs, ∀ u : TaskTable A, u.cfg = t.cfg → r.id ∈ u.ids →
      u.applyAll (effects r) now = u.updateTask r.id (rewrite r)) :
    (t.applyAll (rs.flatMap effects) now).tasks =
      t.tasks.map fun x => if x.id ∈ rs.map Task.id then rewrite x x else x := by
  induction rs generalizing t with
  | nil => simp
  | cons r rs ih =>
    have present := rows r (by simp)
    obtain ⟨fresh, once⟩ := List.nodup_cons.mp once
    have first : t.applyAll (effects r) now = t.updateTask r.id (rewrite r) :=
      rewrites r (by simp) t rfl (List.mem_map_of_mem present)
    -- With distinct ids only the row itself is rewritten.
    have mapped : (t.updateTask r.id (rewrite r)).tasks =
        t.tasks.map fun x => if x.id = r.id then rewrite x x else x := by
      rw [updateTask, KeyedList.update_eq_map Task.id r.id _ _ distinct]
      refine List.map_congr_left fun x there => ?_
      split
      next same => rw [List.inj_on_of_nodup_map distinct there present same]
      · rfl
    have ids : (t.updateTask r.id (rewrite r)).ids = t.ids := t.updateTask_ids r.id _ (keeps r)
    rw [List.flatMap_cons, applyAll_append, first, ih (ids ▸ distinct) ?_ once ?_, mapped,
      List.map_map]
    · refine List.map_congr_left fun x there => ?_
      simp only [Function.comp_apply, List.map_cons, List.mem_cons]
      by_cases same : x.id = r.id
      · have later : x.id ∉ rs.map Task.id := same ▸ fresh
        rw [if_pos same, keeps, if_neg later, if_pos (.inl same)]
      · rw [if_neg same, if_congr (or_iff_right same) rfl rfl]
    · intro r' member
      rw [mapped]
      have other : r'.id ≠ r.id := fun same => fresh (same ▸ List.mem_map_of_mem member)
      exact List.mem_map.mpr ⟨r', rows r' (by simp [member]), if_neg other⟩
    · exact fun r' member u cfg => rewrites r' (by simp [member]) u cfg

/-- A row is selected when one with its id is. -/
theorem mem_ids_filter {t : TaskTable A} (distinct : t.ids.Nodup) {p : Task A → Bool} {x : Task A}
    (present : x ∈ t.tasks) : x.id ∈ (t.tasks.filter p).map Task.id ↔ p x = true := by
  constructor
  · intro there
    obtain ⟨r, selected, same⟩ := List.mem_map.mp there
    obtain ⟨old, holds⟩ := List.mem_filter.mp selected
    rw [← List.inj_on_of_nodup_map distinct old present same]
    exact holds
  · exact fun holds => List.mem_map_of_mem (List.mem_filter.mpr ⟨present, holds⟩)

/-! ## Stage 1 -/

/-- What a row effect makes of its row. -/
def onRow (cfg : Config) (now : BlockNumber) (r : Task A) : Effect A → Task A
  | .assigned to_ _ what expect => { r with
      assignee := some to_
      status := .pending
      text := what
      expect := expect
      offeredAt := some now }
  | .nudge _ _ remaining _ => { r with
      nudgesUsed := cfg.timers.maxNudges - remaining
      nextNag := some (u32SaturatingAdd now cfg.timers.workNag) }
  | .requeued _ _ .unclaimed => { r with
      offeredAt := some now
      reoffers := u8SaturatingAdd r.reoffers 1 }
  | .requeued _ _ .leaseExpired => { r with
      status := .pending
      holder := none
      offeredAt := some now
      leaseUntil := none
      nextNag := none
      nudgesUsed := 0
      budgetAnnounced := false }
  | .nudgeBudgetSpent _ _ => { r with
      budgetAnnounced := true
      nextNag := none }
  | _ => r

theorem onRow_id (cfg : Config) (now : BlockNumber) (r : Task A) (e : Effect A) :
    (onRow cfg now r e).id = r.id := by
  cases e with
  | requeued task holder why => cases why <;> rfl
  | _ => rfl

theorem RowEffect.apply_eq {id : TaskId} {e : Effect A} (row : RowEffect id e) {t : TaskTable A}
    (there : id ∈ t.ids) (now : BlockNumber) :
    t.apply e now = t.updateTask id fun r => onRow t.cfg now r e := by
  cases row with
  | assigned to_ what expect =>
    have found : (t.get id).isSome = true := by
      rw [Option.isSome_iff_ne_none]
      exact fun absent => get_eq_none.mp absent there
    simp only [apply, if_pos found]
    rfl
  | requeued holder why =>
    cases why with
    | unclaimed | leaseExpired => rfl
    | rehomed | reopened => exact (t.updateTask_id id).symm
  | nudge to_ remaining last => rfl
  | nudgeBudgetSpent holder => rfl

/-- What stage 1 makes of a row, if it is a sub-task's. -/
def advance (cfg : Config) (now : BlockNumber) (r : Task A) : Task A :=
  (subtaskEffects cfg now r).foldl (onRow cfg now) r

theorem foldl_onRow_id (cfg : Config) (now : BlockNumber) (es : List (Effect A)) (r : Task A) :
    (es.foldl (onRow cfg now) r).id = r.id := by
  induction es generalizing r with
  | nil => rfl
  | cons e es ih => rw [List.foldl_cons, ih, onRow_id]

theorem applyAll_row {id : TaskId} {es : List (Effect A)} (rows : ∀ e ∈ es, RowEffect id e)
    {t : TaskTable A} (there : id ∈ t.ids) (now : BlockNumber) :
    t.applyAll es now = t.updateTask id fun r => es.foldl (onRow t.cfg now) r := by
  induction es generalizing t with
  | nil => exact (t.updateTask_id id).symm
  | cons e es ih =>
    have keeps : ∀ r, (onRow t.cfg now r e).id = r.id := fun r => onRow_id _ _ r e
    rw [applyAll_cons, (rows e (by simp)).apply_eq there,
      ih (fun e' member => rows e' (by simp [member])),
      updateTask_updateTask t id _ _ keeps]
    · rfl
    · rw [t.updateTask_ids id _ keeps]
      exact there

/-- Stage 1 advances every sub-task, and leaves the parents. -/
theorem stage1_tasks {t : TaskTable A} (distinct : t.ids.Nodup) (now : BlockNumber) :
    (t.applyAll (t.stage1 now) now).tasks =
      t.tasks.map fun r => if r.isParent then r else advance t.cfg now r := by
  have once : ((t.tasks.filter fun r => !r.isParent).map Task.id).Nodup :=
    distinct.sublist (List.filter_sublist.map Task.id)
  have mapped := applyAll_rewrites distinct now (subtaskEffects t.cfg now)
    (fun r x => (subtaskEffects t.cfg now r).foldl (onRow t.cfg now) x)
    (fun r x => foldl_onRow_id _ _ _ x) (fun r member => (List.mem_filter.mp member).1) once ?_
  · rw [stage1, mapped]
    refine List.map_congr_left fun x present => ?_
    rw [if_congr (mem_ids_filter distinct present) rfl rfl]
    by_cases kind : x.isParent = true <;> simp [kind, advance]
  · intro r _ u cfg there
    rw [applyAll_row (fun e => subtaskEffects_row) there, cfg]

/-- What stage 1 does to a sub-task's row, and how much it says about it. -/
theorem advance_cases (cfg : Config) (now : BlockNumber) (r : Task A) :
    (subtaskEffects cfg now r = [] ∧ advance cfg now r = r) ∨
    (r.status = .inProgress ∧ leaseExpired r now = true ∧ (subtaskEffects cfg now r).length ≤ 2 ∧
      advance cfg now r = { r with
        status := .pending
        holder := none
        offeredAt := some now
        leaseUntil := none
        nextNag := none
        nudgesUsed := 0
        budgetAnnounced := false }) ∨
    (r.status = .inProgress ∧ leaseExpired r now = false ∧ r.nudgesUsed < cfg.timers.maxNudges ∧
      (subtaskEffects cfg now r).length = 1 ∧
      advance cfg now r = { r with
        nudgesUsed := r.nudgesUsed + 1
        nextNag := some (u32SaturatingAdd now cfg.timers.workNag) }) ∨
    (r.status = .inProgress ∧ leaseExpired r now = false ∧ r.budgetAnnounced = false ∧
      (subtaskEffects cfg now r).length = 1 ∧
      advance cfg now r = { r with
        budgetAnnounced := true
        nextNag := none }) ∨
    (r.status = .pending ∧ offerLapsed cfg r now = true ∧ (subtaskEffects cfg now r).length ≤ 2 ∧
      advance cfg now r = { r with
        offeredAt := some now
        reoffers := u8SaturatingAdd r.reoffers 1 }) := by
  -- Offering a row again changes nothing its requeue has not changed.
  have offered : ∀ x : Task A, x.status = .pending → x.offeredAt = some now →
      x.assignee = r.assignee → x.text = r.text → x.expect = r.expect →
      (reoffer r).length ≤ 1 ∧ (reoffer r).foldl (onRow cfg now) x = x := by
    intro x status offered assignee text expect
    unfold reoffer
    split
    next to_ assigned =>
      refine ⟨Nat.le_refl _, ?_⟩
      rw [assigned] at assignee
      simp only [List.foldl_cons, List.foldl_nil, onRow, ← status, ← offered, ← assignee, ← text,
        ← expect]
    · exact ⟨Nat.zero_le _, rfl⟩
  unfold advance subtaskEffects
  split
  next status =>
    split
    next expired =>
      refine .inr (.inl ⟨status, expired, ?_⟩)
      obtain ⟨length, same⟩ := offered { r with
        status := .pending
        holder := none
        offeredAt := some now
        leaseUntil := none
        nextNag := none
        nudgesUsed := 0
        budgetAnnounced := false } rfl rfl rfl rfl rfl
      exact ⟨by simpa using length, same⟩
    next holding =>
      have holding : leaseExpired r now = false := by simpa using holding
      split
      · split
        · exact .inl ⟨rfl, rfl⟩
        · split
          next left =>
            refine .inr (.inr (.inl ⟨status, holding, left, rfl, ?_⟩))
            have count : cfg.timers.maxNudges - (cfg.timers.maxNudges - (r.nudgesUsed + 1)) =
                r.nudgesUsed + 1 := by omega
            simp only [List.foldl_cons, List.foldl_nil, onRow, count]
          · split
            next silent =>
              exact .inr (.inr (.inr (.inl ⟨status, holding, by simpa using silent, rfl, rfl⟩)))
            · exact .inl ⟨rfl, rfl⟩
      · exact .inl ⟨rfl, rfl⟩
  next status =>
    split
    next lapsed =>
      refine .inr (.inr (.inr (.inr ⟨status, lapsed, ?_⟩)))
      obtain ⟨length, same⟩ := offered { r with
        offeredAt := some now
        reoffers := u8SaturatingAdd r.reoffers 1 } status rfl rfl rfl rfl
      exact ⟨by simpa using length, same⟩
    · exact .inl ⟨rfl, rfl⟩
  · exact .inl ⟨rfl, rfl⟩

/-! ## Stage 2 -/

/-- The directive a row is due for. -/
def asked (t : TaskTable A) (now : BlockNumber) (r : Task A) : Option Directive :=
  if r.isParent && r.nextDirective ≤ now then t.directiveFor r else none

theorem asked_live {t : TaskTable A} {now : BlockNumber} {r : Task A} {d : Directive}
    (asks : t.asked now r = some d) :
    r.isParent = true ∧ (r.status = .opened ∨ r.status = .planned) := by
  unfold asked at asks
  split at asks
  next due => exact ⟨(Bool.and_eq_true _ _ ▸ due).1, (directiveFor_live asks).1⟩
  · cases asks

/-- What stage 2 makes of a row, if it is due. -/
def decided (t : TaskTable A) (now : BlockNumber) (r : Task A) : Task A :=
  match t.asked now r with
  | none => r
  | some _ =>
    if t.cfg.timers.maxDirectiveNudges ≤ r.directiveNudgesUsed then
      { r with status := .failed, closedAt := some now }
    else
      { r with
        nextDirective := u32SaturatingAdd now t.cfg.timers.directiveNag
        directiveNudgesUsed := u8SaturatingAdd r.directiveNudgesUsed 1 }

theorem decided_id (t : TaskTable A) (now : BlockNumber) (r : Task A) :
    (t.decided now r).id = r.id := by
  unfold decided
  split
  · rfl
  · split <;> rfl

/-- What stage 2 says about a row. -/
def decision (t : TaskTable A) (leader : A) (r : Task A) : List (Effect A) :=
  ((t.directiveFor r).map fun d =>
    if t.cfg.timers.maxDirectiveNudges ≤ r.directiveNudgesUsed then .failed r.id
    else .directed leader r.id d).toList

theorem stage2_eq {t : TaskTable A} (distinct : t.ids.Nodup) (leader : A) (now : BlockNumber) :
    t.stage2 leader now =
      (t.tasks.filter fun r => r.isParent && r.nextDirective ≤ now).flatMap (t.decision leader) := by
  rw [stage2, due, List.map_filterMap, List.filterMap_eq_flatMap_toList]
  refine List.flatMap_congr fun r member => ?_
  have found : t.get r.id = some r :=
    KeyedList.lookup_of_mem Task.id distinct (List.mem_filter.mp member).1
  rw [decision]
  cases t.directiveFor r with
  | none => rfl
  | some d => simp only [Option.map_some, found, Option.any_some, decide_eq_true_eq]

/-- Stage 2 decides every row that is due. -/
theorem stage2_tasks {t : TaskTable A} (distinct : t.ids.Nodup) (leader : A) (now : BlockNumber) :
    (t.applyAll (t.stage2 leader now) now).tasks = t.tasks.map (t.decided now) := by
  have once : ((t.tasks.filter fun r => r.isParent && r.nextDirective ≤ now).map Task.id).Nodup :=
    distinct.sublist (List.filter_sublist.map Task.id)
  -- The rewrite of a row depends on whether it is asked about and on its counter.
  have mapped := applyAll_rewrites distinct now (t.decision leader)
    (fun r x => match t.directiveFor r with
      | none => x
      | some _ =>
        if t.cfg.timers.maxDirectiveNudges ≤ r.directiveNudgesUsed then
          { x with status := .failed, closedAt := some now }
        else
          { x with
            nextDirective := u32SaturatingAdd now t.cfg.timers.directiveNag
            directiveNudgesUsed := u8SaturatingAdd x.directiveNudgesUsed 1 })
    (fun r x => by split <;> [rfl; (split <;> rfl)])
    (fun r member => (List.mem_filter.mp member).1) once ?_
  · rw [stage2_eq distinct, mapped]
    refine List.map_congr_left fun x present => ?_
    rw [if_congr (mem_ids_filter distinct present) rfl rfl, decided, asked]
    split
    next due => rfl
    · rfl
  · intro r member u cfg there
    unfold decision
    cases asks : t.directiveFor r with
    | none => exact (u.updateTask_id r.id).symm
    | some d =>
      have notElected : d ≠ .leaderElected := (directiveFor_live asks).2
      by_cases spent : t.cfg.timers.maxDirectiveNudges ≤ r.directiveNudgesUsed
      · simp only [Option.map_some, Option.toList_some, if_pos spent]
        rfl
      · simp only [Option.map_some, Option.toList_some, if_neg spent, applyAll_cons, applyAll_nil,
          apply, if_neg notElected, cfg]

/-- Stage 2 says one thing about each row that is due. -/
theorem stage2_length {t : TaskTable A} (distinct : t.ids.Nodup) (leader : A) (now : BlockNumber) :
    (t.stage2 leader now).length = (t.tasks.map fun r => (t.asked now r).toList.length).sum := by
  rw [stage2_eq distinct, List.length_flatMap]
  induction t.tasks with
  | nil => rfl
  | cons r rs ih =>
    rw [List.map_cons, List.sum_cons, ← ih, List.filter_cons, asked]
    split
    · simp only [List.map_cons, List.sum_cons, decision]
      cases t.directiveFor r <;> rfl
    · simp

/-! ## What a row still costs -/

/-- The timers' budgets are bytes in the source. -/
structure Bytes (cfg : Config) : Prop where
  nudges : cfg.timers.maxNudges < 2 ^ 8
  reoffers : cfg.timers.maxReoffers < 2 ^ 8
  directives : cfg.timers.maxDirectiveNudges < 2 ^ 8

instance (cfg : Config) : Decidable (Bytes cfg) :=
  decidable_of_iff (cfg.timers.maxNudges < 2 ^ 8 ∧ cfg.timers.maxReoffers < 2 ^ 8 ∧
    cfg.timers.maxDirectiveNudges < 2 ^ 8) ⟨fun ⟨a, b, c⟩ => ⟨a, b, c⟩, fun ⟨a, b, c⟩ => ⟨a, b, c⟩⟩

/-- The most effects ticks can still return about a row. -/
def cost (cfg : Config) (r : Task A) : Nat :=
  if r.isParent then
    if r.status = .opened ∨ r.status = .planned then
      cfg.timers.maxDirectiveNudges - r.directiveNudgesUsed + 1
    else 0
  else match r.status with
  | .inProgress => cfg.timers.maxNudges - r.nudgesUsed + (if r.budgetAnnounced then 0 else 1) + 2 +
      2 * (cfg.timers.maxReoffers - r.reoffers)
  | .pending => 2 * (cfg.timers.maxReoffers - r.reoffers)
  | _ => 0

def costs (t : TaskTable A) : Nat := (t.tasks.map (cost t.cfg)).sum

theorem cost_inProgress {cfg : Config} {r : Task A} (sub : r.isParent = false)
    (status : r.status = .inProgress) :
    cost cfg r = cfg.timers.maxNudges - r.nudgesUsed + (if r.budgetAnnounced then 0 else 1) + 2 +
      2 * (cfg.timers.maxReoffers - r.reoffers) := by
  simp [cost, sub, status]

theorem cost_pending {cfg : Config} {r : Task A} (sub : r.isParent = false)
    (status : r.status = .pending) : cost cfg r = 2 * (cfg.timers.maxReoffers - r.reoffers) := by
  simp [cost, sub, status]

theorem cost_live {cfg : Config} {r : Task A} (parent : r.isParent = true)
    (live : r.status = .opened ∨ r.status = .planned) :
    cost cfg r = cfg.timers.maxDirectiveNudges - r.directiveNudgesUsed + 1 := by
  rw [cost, if_pos parent, if_pos live]

/-- A sub-task pays for what stage 1 says about it. -/
theorem advance_pays {cfg : Config} (bytes : Bytes cfg) (now : BlockNumber) {r : Task A}
    (sub : r.isParent = false) :
    (subtaskEffects cfg now r).length + cost cfg (advance cfg now r) ≤ cost cfg r := by
  have small := bytes.reoffers
  have kind : (advance cfg now r).isParent = false := by
    rw [Task.isParent, advance, foldl_onRow_id]
    exact sub
  rcases advance_cases cfg now r with ⟨silent, same⟩ | ⟨status, _, two, moved⟩ |
    ⟨status, _, left, one, moved⟩ | ⟨status, _, silent, one, moved⟩ | ⟨status, lapsed, two, moved⟩
  · exact Nat.le_of_eq (by rw [silent, same, List.length_nil, Nat.zero_add])
  · rw [cost_pending kind (by rw [moved]), cost_inProgress sub status, moved]
    dsimp only
    omega
  · rw [cost_inProgress kind (by rw [moved]; exact status), cost_inProgress sub status, moved, one]
    dsimp only
    omega
  · rw [cost_inProgress kind (by rw [moved]; exact status), cost_inProgress sub status, moved, one,
      silent]
    simp only [Bool.false_eq_true, if_false, if_true]
    omega
  · -- An offer that lapsed is one of those left.
    have left : r.reoffers < cfg.timers.maxReoffers := by
      simp only [offerLapsed, Bool.and_eq_true, decide_eq_true_eq] at lapsed
      exact lapsed.1
    rw [cost_pending kind (by rw [moved]; exact status), cost_pending sub status, moved]
    simp only [u8SaturatingAdd]
    omega

/-- A parent pays for what stage 2 says about it. -/
theorem decided_pays {t : TaskTable A} (bytes : Bytes t.cfg) (now : BlockNumber) (r : Task A) :
    (t.asked now r).toList.length + cost t.cfg (t.decided now r) ≤ cost t.cfg r := by
  have small := bytes.directives
  unfold decided
  cases asks : t.asked now r with
  | none => simp
  | some d =>
    obtain ⟨parent, live⟩ := asked_live asks
    dsimp only
    rw [cost_live parent live, Option.toList_some, List.length_singleton]
    split
    · have past : cost t.cfg { r with status := .failed, closedAt := some now } = 0 := by
        have kind : Task.isParent { r with status := .failed, closedAt := some now } = true := parent
        simp [cost, kind]
      omega
    next left =>
      have still : cost t.cfg { r with
          nextDirective := u32SaturatingAdd now t.cfg.timers.directiveNag
          directiveNudgesUsed := u8SaturatingAdd r.directiveNudgesUsed 1 } =
          t.cfg.timers.maxDirectiveNudges - u8SaturatingAdd r.directiveNudgesUsed 1 + 1 := by
        rw [cost, if_pos live]
        exact if_pos parent
      rw [still, u8SaturatingAdd]
      omega

theorem sum_pays {α : Type} {paid left due : α → Nat} {xs : List α}
    (pays : ∀ x ∈ xs, paid x + left x ≤ due x) :
    (xs.map paid).sum + (xs.map left).sum ≤ (xs.map due).sum := by
  induction xs with
  | nil => exact Nat.le_refl _
  | cons x xs ih =>
    have here := pays x (by simp)
    have rest := ih fun y member => pays y (by simp [member])
    simp only [List.map_cons, List.sum_cons]
    omega

/-- Stage 1 says nothing about parents. -/
theorem stage1_length (t : TaskTable A) (now : BlockNumber) :
    (t.stage1 now).length = (t.tasks.map fun r =>
      if r.isParent then 0 else (subtaskEffects t.cfg now r).length).sum := by
  rw [stage1, List.length_flatMap]
  induction t.tasks with
  | nil => rfl
  | cons r rs ih =>
    by_cases kind : r.isParent = true <;> simp [kind, ih]

/-- Every tick is paid for. -/
theorem tick_pays {t : TaskTable A} (distinct : t.ids.Nodup) (bytes : Bytes t.cfg)
    (now : BlockNumber) : (t.tick now).1.length + (t.tick now).2.costs ≤ t.costs := by
  have first : (t.stage1 now).length + (t.applyAll (t.stage1 now) now).costs ≤ t.costs := by
    rw [stage1_length, costs, applyAll_cfg, stage1_tasks distinct, List.map_map]
    refine sum_pays fun r _ => ?_
    by_cases kind : r.isParent = true
    · simp [kind]
    · simp only [Function.comp_apply, kind, Bool.false_eq_true, if_false]
      exact advance_pays bytes now (by simpa using kind)
  simp only [tick]
  split
  · exact first
  next leader _ =>
    have still : (t.applyAll (t.stage1 now) now).ids.Nodup := by
      rw [applyAll_ids fun e => stage1_known]
      exact distinct
    have second : ((t.applyAll (t.stage1 now) now).stage2 leader now).length +
        ((t.applyAll (t.stage1 now) now).applyAll
          ((t.applyAll (t.stage1 now) now).stage2 leader now) now).costs ≤
        (t.applyAll (t.stage1 now) now).costs := by
      rw [stage2_length still, costs, applyAll_cfg, stage2_tasks still, List.map_map]
      exact sum_pays fun r _ => decided_pays (by rw [applyAll_cfg]; exact bytes) now r
    dsimp only
    rw [List.length_append]
    omega

/-- No row costs more than its budgets. -/
theorem costs_le (t : TaskTable A) :
    t.costs ≤
      (t.cfg.timers.maxNudges + 3 + 2 * t.cfg.timers.maxReoffers) *
        t.tasks.countP (fun r => !r.isParent) +
      (t.cfg.timers.maxDirectiveNudges + 1) * t.tasks.countP Task.isParent := by
  rw [costs]
  induction t.tasks with
  | nil => simp
  | cons r rs ih =>
    simp only [List.map_cons, List.sum_cons, List.countP_cons]
    by_cases kind : r.isParent = true
    · have one : cost t.cfg r ≤ t.cfg.timers.maxDirectiveNudges + 1 := by
        simp only [cost, kind, if_true]
        split <;> omega
      simp only [kind, Bool.not_true, Bool.false_eq_true, if_false, if_true, Nat.mul_add, Nat.mul_one]
      omega
    · have one : cost t.cfg r ≤ t.cfg.timers.maxNudges + 3 + 2 * t.cfg.timers.maxReoffers := by
        simp only [cost, kind, Bool.false_eq_true, if_false]
        split <;> (try split) <;> omega
      simp only [kind, Bool.not_false, Bool.false_eq_true, if_false, if_true, Nat.mul_add,
        Nat.mul_one]
      omega

/-! ## Ticks and nothing else -/

/-- The effects of one tick after the other. -/
def ticks : TaskTable A → List BlockNumber → List (Effect A)
  | _, [] => []
  | t, now :: blocks => (t.tick now).1 ++ ticks (t.tick now).2 blocks

@[simp] theorem tick_cfg (t : TaskTable A) (now : BlockNumber) : (t.tick now).2.cfg = t.cfg := by
  simp only [tick]
  split
  · rw [applyAll_cfg]
  · rw [applyAll_cfg, applyAll_cfg]

/-- The ticks of any blocks together cost what the rows have left. -/
theorem ticks_paid {t : TaskTable A} (distinct : t.ids.Nodup) (bytes : Bytes t.cfg)
    (blocks : List BlockNumber) : (t.ticks blocks).length ≤ t.costs := by
  induction blocks generalizing t with
  | nil => exact Nat.zero_le _
  | cons now blocks ih =>
    have here := tick_pays distinct bytes now
    have rest := ih (t := (t.tick now).2) (by rw [tick_ids]; exact distinct)
      (by rw [tick_cfg]; exact bytes)
    rw [ticks, List.length_append]
    omega

variable [DecidableEq A]

/-- From every table a run leads to in which each new parent got a number of its own: however many
ticks follow, and at whatever blocks, their effects stay within the budgets of the rows. -/
theorem ticks_run (cfg : Config) (root : Option A) (ops : List (Op A × BlockNumber))
    (bytes : Bytes cfg)
    (fresh : Machine.Meets next (fun t op => t.Fresh op.1 op.2) (new cfg root) ops)
    (blocks : List BlockNumber) :
    (((new cfg root).run ops).ticks blocks).length ≤
      (cfg.timers.maxNudges + 3 + 2 * cfg.timers.maxReoffers) *
        ((new cfg root).run ops).tasks.countP (fun r => !r.isParent) +
      (cfg.timers.maxDirectiveNudges + 1) *
        ((new cfg root).run ops).tasks.countP Task.isParent := by
  have same : ((new cfg root).run ops).cfg = cfg := (run_frame _ ops).1
  have distinct : ((new cfg root).run ops).ids.Nodup := run_distinct (new_distinct cfg root) fresh
  have paid := ticks_paid distinct (by rw [same]; exact bytes) blocks
  have most := costs_le ((new cfg root).run ops)
  rw [same] at most
  exact Nat.le_trans paid most

/-- One cat, one sub-task that nobody claims. -/
def unclaimed : List (Op Nat × BlockNumber) :=
  [(.call (.setLeader 1), 1), (.call (.openParent 0 .root "t"), 1),
    (.call (.plan 1 .leader ⟨1, 0⟩ [⟨2, "a", "b"⟩]), 1)]

theorem ticks_run_unclaimed :
    let t := (new {} (some 0)).run unclaimed
    (t.ticks [101, 201, 301, 401, 501, 601]).length = 10 ∧
      (t.ticks [101, 201, 301, 401, 501, 601]).length ≤ 12 * 1 + 4 * 1 :=
  ⟨by decide, ticks_run {} (some 0) unclaimed (by decide) (by decide) _⟩

/-- An `open` and a `clear_all`. -/
def opensAndClears : List (Op Nat × BlockNumber) :=
  [(.call (.openParent 0 .root ""), 1), (.clearAll .root, 1)]

/-- A parent is asked about once. -/
def oneDirective : Config := { timers := { directiveNag := 1, maxDirectiveNudges := 1 } }

/-- Nothing happened yet but that numbers were given out. -/
def counting (cfg : Config) (n : Nat) : TaskTable Nat := { new cfg (some 0) with nextParent := n }

theorem run_opensAndClears_once {cfg : Config} (limits : cfg.limits = {}) {n : Nat}
    (room : n + 1 < 2 ^ 32) :
    (counting cfg n).run opensAndClears = counting cfg (n + 1) := by
  obtain ⟨timers, _⟩ := cfg
  cases limits
  have counter : max n (u32Succ n) = n + 1 := by
    rw [u32Succ, Nat.mod_eq_of_lt room]
    omega
  have opened : (counting { timers } n).step (.call (.openParent 0 .root "")) 1 =
      { counting { timers } (n + 1) with tasks := [Task.ofOpened 0 (.ofParent n) "" 1] } := by
    have grown : (counting { timers } n).step (.call (.openParent 0 .root "")) 1 =
        { counting { timers } (max n (u32Succ n)) with
          tasks := [Task.ofOpened 0 (.ofParent n) "" 1] } := rfl
    rw [grown, counter]
  let failed : TaskTable Nat := { counting { timers } (n + 1) with
    tasks := [{ Task.ofOpened 0 (.ofParent n) "" 1 with status := .failed, closedAt := some 1 }] }
  have effects : (TaskTable.applyAll { counting { timers } (n + 1) with
      tasks := [Task.ofOpened 0 (.ofParent n) "" 1] } [.failed (.ofParent n)] 1) = failed := by
    simp [applyAll, apply, updateTask, KeyedList.update, Task.ofOpened, failed]
  have swept : failed.sweep [n] = counting { timers } (n + 1) := by
    simp [failed, sweep, Task.ofOpened, TaskId.ofParent, counting, new]
  have cleared : TaskTable.step { counting { timers } (n + 1) with
      tasks := [Task.ofOpened 0 (.ofParent n) "" 1] } (.clearAll .root) 1 =
      (failed.gc 1 0).2 := by
    rw [← effects]
    rfl
  have steps : (counting { timers } n).run opensAndClears =
      ((counting { timers } n).step (.call (.openParent 0 .root "")) 1).step (.clearAll .root) 1 :=
    rfl
  have doomed : failed.doomed 1 0 = [n] := rfl
  rw [steps, opened, cleared, gc_eq_sweep, doomed, swept]

theorem run_opensAndClears {cfg : Config} (limits : cfg.limits = {}) (k : Nat)
    (room : k + 1 < 2 ^ 32) :
    (new cfg (some 0)).run (List.replicate k opensAndClears).flatten = counting cfg (k + 1) := by
  induction k with
  | zero => rfl
  | succ k ih =>
    rw [List.replicate_succ', List.flatten_append, run_append, ih (by omega), List.flatten_singleton]
    exact run_opensAndClears_once limits room

/-- The last number is given out twice: the second parent is failed at every tick. -/
theorem ticks_run_twice :
    let ops : List (Op Nat × BlockNumber) := (List.replicate (2 ^ 32 - 2) opensAndClears).flatten ++
      [(.call (.setLeader 1), 1), (.call (.openParent 0 .root "t"), 1),
        (.call (.openParent 0 .root "u"), 1)]
    let t := (new oneDirective (some 0)).run ops
    ¬ (t.ticks [2, 3, 4]).length ≤
      (oneDirective.timers.maxNudges + 3 + 2 * oneDirective.timers.maxReoffers) *
        t.tasks.countP (fun r => !r.isParent) +
      (oneDirective.timers.maxDirectiveNudges + 1) * t.tasks.countP Task.isParent := by
  dsimp only
  rw [run_append, run_opensAndClears rfl _ (by decide)]
  decide

end AkumaMiot.TaskTable

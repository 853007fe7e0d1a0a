import AkumaMiot.Tasks.Table

/-!
# Rows under the fold

What folding an effect leaves alone, how rows are found again afterwards, and what the first
stage of the tick can decide for one row.
-/
namespace AkumaMiot.TaskTable

variable {A : Type}

/-! ## Frames -/

@[simp] theorem updateTask_cfg (t : TaskTable A) (id : TaskId) (f : Task A → Task A) :
    (t.updateTask id f).cfg = t.cfg := rfl

@[simp] theorem updateTask_root (t : TaskTable A) (id : TaskId) (f : Task A → Task A) :
    (t.updateTask id f).root = t.root := rfl

@[simp] theorem updateTask_artifacts (t : TaskTable A) (id : TaskId) (f : Task A → Task A) :
    (t.updateTask id f).artifacts = t.artifacts := rfl

@[simp] theorem updateTask_nextParent (t : TaskTable A) (id : TaskId) (f : Task A → Task A) :
    (t.updateTask id f).nextParent = t.nextParent := rfl

@[simp] theorem updateTask_leader (t : TaskTable A) (id : TaskId) (f : Task A → Task A) :
    (t.updateTask id f).leader = t.leader := rfl

/-- Folding never changes the config or the root. -/
theorem apply_frame (t : TaskTable A) (e : Effect A) (now : BlockNumber) :
    (t.apply e now).cfg = t.cfg ∧ (t.apply e now).root = t.root := by
  cases e with
  | assigned to_ task what expect => simp only [apply]; split <;> exact ⟨rfl, rfl⟩
  | directed to_ task d => simp only [apply]; split <;> exact ⟨rfl, rfl⟩
  | record who task act text => cases act <;> exact ⟨rfl, rfl⟩
  | requeued task holder why => cases why <;> exact ⟨rfl, rfl⟩
  | _ => exact ⟨rfl, rfl⟩

@[simp] theorem apply_cfg (t : TaskTable A) (e : Effect A) (now : BlockNumber) :
    (t.apply e now).cfg = t.cfg := (t.apply_frame e now).1

@[simp] theorem apply_root (t : TaskTable A) (e : Effect A) (now : BlockNumber) :
    (t.apply e now).root = t.root := (t.apply_frame e now).2

@[simp] theorem applyAll_nil (t : TaskTable A) (now : BlockNumber) : t.applyAll [] now = t := rfl

@[simp] theorem applyAll_cons (t : TaskTable A) (e : Effect A) (es : List (Effect A))
    (now : BlockNumber) : t.applyAll (e :: es) now = (t.apply e now).applyAll es now := rfl

theorem applyAll_append (t : TaskTable A) (xs ys : List (Effect A)) (now : BlockNumber) :
    t.applyAll (xs ++ ys) now = (t.applyAll xs now).applyAll ys now :=
  List.foldl_append

@[simp] theorem applyAll_cfg (t : TaskTable A) (es : List (Effect A)) (now : BlockNumber) :
    (t.applyAll es now).cfg = t.cfg := by
  induction es generalizing t with
  | nil => rfl
  | cons e es ih => simp [ih]

@[simp] theorem applyAll_root (t : TaskTable A) (es : List (Effect A)) (now : BlockNumber) :
    (t.applyAll es now).root = t.root := by
  induction es generalizing t with
  | nil => rfl
  | cons e es ih => simp [ih]

/-- Folding only ever appends to the committed artifacts. -/
theorem apply_artifacts (t : TaskTable A) (e : Effect A) (now : BlockNumber) :
    t.artifacts <+: (t.apply e now).artifacts := by
  cases e with
  | closed task title body author => exact List.prefix_append _ _
  | assigned to_ task what expect => simp only [apply]; split <;> exact List.prefix_rfl
  | directed to_ task d => simp only [apply]; split <;> exact List.prefix_rfl
  | record who task act text => cases act <;> exact List.prefix_rfl
  | requeued task holder why => cases why <;> exact List.prefix_rfl
  | _ => exact List.prefix_rfl

theorem applyAll_artifacts (t : TaskTable A) (es : List (Effect A)) (now : BlockNumber) :
    t.artifacts <+: (t.applyAll es now).artifacts := by
  induction es generalizing t with
  | nil => exact List.prefix_rfl
  | cons e es ih => exact (t.apply_artifacts e now).trans (ih (t.apply e now))

/-- The parent an effect opens, if it opens one. -/
def opens : Effect A → Option TaskId
  | .opened _ task _ => some task
  | _ => none

theorem apply_nextParent {t : TaskTable A} {e : Effect A} {now : BlockNumber}
    (opensNone : opens e = none) : (t.apply e now).nextParent = t.nextParent := by
  cases e with
  | opened who task text => simp [opens] at opensNone
  | assigned to_ task what expect => simp only [apply]; split <;> rfl
  | directed to_ task d => simp only [apply]; split <;> rfl
  | record who task act text => cases act <;> rfl
  | requeued task holder why => cases why <;> rfl
  | _ => rfl

theorem applyAll_nextParent {t : TaskTable A} {es : List (Effect A)} {now : BlockNumber}
    (opensNone : ∀ e ∈ es, opens e = none) : (t.applyAll es now).nextParent = t.nextParent := by
  induction es generalizing t with
  | nil => rfl
  | cons e es ih =>
    rw [applyAll_cons, ih fun e' member => opensNone e' (by simp [member]),
      apply_nextParent (opensNone e (by simp))]

/-- Only an election installs a leader. -/
theorem apply_leader {t : TaskTable A} {e : Effect A} {now : BlockNumber}
    (noElection : ∀ who task, e ≠ .directed who task .leaderElected) :
    (t.apply e now).leader = t.leader := by
  cases e with
  | directed to_ task d =>
    have notElected : d ≠ .leaderElected := fun elected => noElection to_ task (elected ▸ rfl)
    simp only [apply, if_neg notElected, updateTask_leader]
  | assigned to_ task what expect => simp only [apply]; split <;> rfl
  | record who task act text => cases act <;> rfl
  | requeued task holder why => cases why <;> rfl
  | _ => rfl

theorem applyAll_leader {t : TaskTable A} {es : List (Effect A)} {now : BlockNumber}
    (noElection : ∀ e ∈ es, ∀ who task, e ≠ .directed who task .leaderElected) :
    (t.applyAll es now).leader = t.leader := by
  induction es generalizing t with
  | nil => rfl
  | cons e es ih =>
    rw [applyAll_cons, ih fun e' member => noElection e' (by simp [member]),
      apply_leader (noElection e (by simp))]

/-! ## Finding rows -/

/-- Every effect's rewrite of a row keeps the row's id. -/
theorem get_updateTask (t : TaskTable A) (j k : TaskId) (f : Task A → Task A)
    (keeps : ∀ r, (f r).id = r.id) :
    (t.updateTask k f).get j = if j = k then (t.get j).map f else t.get j :=
  KeyedList.lookup_update Task.id j k f keeps t.tasks

theorem get_updateTask_ne (t : TaskTable A) {j k : TaskId} (ne : j ≠ k) (f : Task A → Task A)
    (keeps : ∀ r, (f r).id = r.id) : (t.updateTask k f).get j = t.get j := by
  rw [t.get_updateTask j k f keeps, if_neg ne]

theorem get_updateTask_found {t : TaskTable A} {id : TaskId} {r : Task A}
    (found : t.get id = some r) (f : Task A → Task A) (keeps : ∀ r, (f r).id = r.id) :
    (t.updateTask id f).get id = some (f r) := by
  rw [t.get_updateTask id id f keeps, if_pos rfl, found, Option.map_some]

/-- An election gives every parent its directives anew, under its id. -/
theorem get_elected (t : TaskTable A) (to_ : A) (task id : TaskId) (now : BlockNumber) :
    (t.apply (.directed to_ task .leaderElected) now).get id = (t.get id).map fun r =>
      if r.isParent then { r with nextDirective := now, directiveNudgesUsed := 0 } else r := by
  simp only [apply, if_true, get]
  refine KeyedList.lookup_map Task.id id _ (fun r => ?_) t.tasks
  split <;> rfl

theorem get_some {t : TaskTable A} {id : TaskId} {r : Task A} (found : t.get id = some r) :
    r ∈ t.tasks ∧ r.id = id :=
  KeyedList.lookup_some Task.id found

theorem get_eq_none {t : TaskTable A} {id : TaskId} :
    t.get id = none ↔ id ∉ t.tasks.map Task.id :=
  KeyedList.lookup_eq_none Task.id

theorem mem_subtasks {t : TaskTable A} {id : TaskId} {r : Task A} :
    r ∈ t.subtasks id ↔ r ∈ t.tasks ∧ r.id.parent = id.parent ∧ r.isParent = false := by
  simp [subtasks]

/-- Rewriting rows under their ids rewrites the sub-tasks of each parent. -/
theorem subtasks_map (t : TaskTable A) (g : Task A → Task A)
    (keeps : ∀ r ∈ t.tasks, (g r).id = r.id) (id : TaskId) :
    ({ t with tasks := t.tasks.map g } : TaskTable A).subtasks id = (t.subtasks id).map g := by
  simp only [subtasks, List.filter_map]
  congr 1
  apply List.filter_congr
  intro r member
  simp only [Function.comp_apply, Task.isParent, keeps r member]

/-! ## The tick, one row at a time -/

/-- What stage 1 can decide for a row, with the guard it decided it under. -/
theorem subtaskEffects_cases (cfg : Config) (now : BlockNumber) (r : Task A) :
    subtaskEffects cfg now r = [] ∨
    (r.status = .inProgress ∧ leaseExpired r now = true ∧
      subtaskEffects cfg now r = .requeued r.id r.holder .leaseExpired :: reoffer r) ∨
    (r.status = .inProgress ∧ ∃ holder remaining last,
      subtaskEffects cfg now r = [.nudge holder r.id remaining last]) ∨
    (r.status = .inProgress ∧ ∃ holder,
      subtaskEffects cfg now r = [.nudgeBudgetSpent holder r.id]) ∨
    (r.status = .pending ∧ offerLapsed cfg r now = true ∧
      subtaskEffects cfg now r = .requeued r.id none .unclaimed :: reoffer r) := by
  unfold subtaskEffects
  split
  next status =>
    split
    next expired => exact .inr (.inl ⟨status, expired, rfl⟩)
    · split
      · split
        · exact .inl rfl
        · split
          · exact .inr (.inr (.inl ⟨status, _, _, _, rfl⟩))
          · split
            · exact .inr (.inr (.inr (.inl ⟨status, _, rfl⟩)))
            · exact .inl rfl
      · exact .inl rfl
  next status =>
    split
    next lapsed => exact .inr (.inr (.inr (.inr ⟨status, lapsed, rfl⟩)))
    · exact .inl rfl
  · exact .inl rfl

/-- The effects that rewrite one sub-task's row and nothing else. -/
inductive RowEffect (id : TaskId) : Effect A → Prop
  | assigned (to_ : A) (what expect : String) : RowEffect id (.assigned to_ id what expect)
  | requeued (holder : Option A) (why : Requeue) : RowEffect id (.requeued id holder why)
  | nudge (to_ : A) (remaining : Nat) (last : Bool) : RowEffect id (.nudge to_ id remaining last)
  | nudgeBudgetSpent (holder : A) : RowEffect id (.nudgeBudgetSpent holder id)

theorem reoffer_row {r : Task A} {e : Effect A} (member : e ∈ reoffer r) : RowEffect r.id e := by
  unfold reoffer at member
  split at member
  · simp only [List.mem_singleton] at member
    subst member
    exact .assigned _ _ _
  · simp at member

theorem subtaskEffects_row {cfg : Config} {now : BlockNumber} {r : Task A} {e : Effect A}
    (member : e ∈ subtaskEffects cfg now r) : RowEffect r.id e := by
  rcases subtaskEffects_cases cfg now r with
    none | ⟨_, _, eq⟩ | ⟨_, _, _, _, eq⟩ | ⟨_, _, eq⟩ | ⟨_, _, eq⟩
  · simp [none] at member
  · rw [eq] at member
    rcases List.mem_cons.mp member with rfl | offer
    · exact .requeued _ _
    · exact reoffer_row offer
  · rw [eq, List.mem_singleton] at member
    subst member
    exact .nudge _ _ _
  · rw [eq, List.mem_singleton] at member
    subst member
    exact .nudgeBudgetSpent _
  · rw [eq] at member
    rcases List.mem_cons.mp member with rfl | offer
    · exact .requeued _ _
    · exact reoffer_row offer

theorem RowEffect.opens_none {id : TaskId} {e : Effect A} (row : RowEffect id e) :
    opens e = none := by
  cases row <;> rfl

/-- A row effect leaves every other row where it is. -/
theorem RowEffect.get_other {id other : TaskId} {e : Effect A} (row : RowEffect id e)
    (ne : other ≠ id) (t : TaskTable A) (now : BlockNumber) :
    (t.apply e now).get other = t.get other := by
  cases row with
  | assigned to_ what expect =>
    simp only [apply]
    split
    · exact t.get_updateTask_ne ne _ fun _ => rfl
    · simp [get, pushTask, KeyedList.lookup, List.find?_append, Task.ofAssigned, Ne.symm ne]
  | requeued holder why =>
    cases why with
    | unclaimed | leaseExpired => exact t.get_updateTask_ne ne _ fun _ => rfl
    | rehomed | reopened => rfl
  | nudge to_ remaining last => exact t.get_updateTask_ne ne _ fun _ => rfl
  | nudgeBudgetSpent holder => exact t.get_updateTask_ne ne _ fun _ => rfl

theorem get_other_applyAll {id other : TaskId} {es : List (Effect A)}
    (rows : ∀ e ∈ es, RowEffect id e) (ne : other ≠ id) (t : TaskTable A) (now : BlockNumber) :
    (t.applyAll es now).get other = t.get other := by
  induction es generalizing t with
  | nil => rfl
  | cons e es ih =>
    rw [applyAll_cons, ih fun e' member => rows e' (by simp [member])]
    exact (rows e (by simp)).get_other ne t now

/-! ## The tick's second stage -/

/-- A directive is only due for a parent that is still open. -/
theorem directiveFor_live {t : TaskTable A} {p : Task A} {d : Directive}
    (asked : t.directiveFor p = some d) :
    (p.status = .opened ∨ p.status = .planned) ∧ d ≠ .leaderElected := by
  unfold directiveFor at asked
  split at asked
  next status =>
    obtain rfl := Option.some.inj asked
    exact ⟨.inl status, by simp⟩
  next status =>
    refine ⟨.inr status, ?_⟩
    simp only at asked
    repeat' split at asked
    all_goals first | (obtain rfl := Option.some.inj asked; simp) | simp at asked
  · simp at asked

/-- Stage 2 fails a live parent or directs the leader to it. -/
theorem stage2_cases {t : TaskTable A} {leader : A} {now : BlockNumber} {e : Effect A}
    (member : e ∈ t.stage2 leader now) :
    ∃ p ∈ t.tasks, p.isParent = true ∧ (p.status = .opened ∨ p.status = .planned) ∧
      (e = .failed p.id ∨ ∃ d, d ≠ .leaderElected ∧ e = .directed leader p.id d) := by
  simp only [stage2, due, List.mem_map, List.mem_filterMap, List.mem_filter,
    Option.map_eq_some_iff, Bool.and_eq_true] at member
  obtain ⟨_, ⟨p, ⟨present, parent, _⟩, d, asked, rfl⟩, rfl⟩ := member
  obtain ⟨live, notElected⟩ := directiveFor_live asked
  refine ⟨p, present, parent, live, ?_⟩
  simp only
  split
  · exact .inl rfl
  · exact .inr ⟨d, notElected, rfl⟩

/-- The tick fails the parents that are due and whose directives are spent. -/
theorem stage2_failed {t : TaskTable A} {leader : A} {now : BlockNumber} {id : TaskId}
    (member : .failed id ∈ t.stage2 leader now) :
    ∃ q ∈ t.due now, q.1 = id ∧ ((t.get q.1).any fun p =>
      t.cfg.timers.maxDirectiveNudges ≤ p.directiveNudgesUsed) = true := by
  obtain ⟨q, due, decided⟩ := List.mem_map.mp member
  refine ⟨q, due, ?_⟩
  dsimp only at decided
  split at decided
  next spent =>
    cases decided
    exact ⟨rfl, spent⟩
  · cases decided

end AkumaMiot.TaskTable

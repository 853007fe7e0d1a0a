import AkumaMiot.Tasks.Rows

/-!
# Sweeping before the fold

A producer ticks and then drops what is long closed; a follower drops first and folds the
tick's effects afterwards. The two orders agree unless the tick offers a row again that the
same block drops.
-/
namespace AkumaMiot.TaskTable

variable {A : Type}

/-- The table without the rows of some parents. -/
def sweep (t : TaskTable A) (gone : List Nat) : TaskTable A :=
  { t with tasks := t.tasks.filter fun r => !gone.contains r.id.parent }

theorem gc_eq_sweep (t : TaskTable A) (now keepFor : BlockNumber) :
    (t.gc now keepFor).2 = t.sweep (t.doomed now keepFor) := by
  simp only [gc]
  split
  next none =>
    rw [List.isEmpty_iff] at none
    simp [sweep, none]
  · rfl

/-- A sweep that drops no row changes nothing. -/
theorem gc_of_dropped_zero {t : TaskTable A} {now keepFor : BlockNumber}
    (none : (t.gc now keepFor).1 = 0) : (t.gc now keepFor).2 = t := by
  simp only [gc] at none ⊢
  split at none
  next empty => rw [if_pos empty]
  next some =>
    rw [if_neg some]
    simp only at none ⊢
    have all : (t.tasks.filter fun r => !(t.doomed now keepFor).contains r.id.parent).length =
        t.tasks.length :=
      Nat.le_antisymm (List.length_filter_le ..) (Nat.le_of_sub_eq_zero none)
    rw [(List.length_filter_eq_length_iff.trans List.filter_eq_self.symm).mp all]

@[simp] theorem gc_cfg (t : TaskTable A) (now keepFor : BlockNumber) :
    (t.gc now keepFor).2.cfg = t.cfg := by
  rw [gc_eq_sweep]
  rfl

/-! ## One effect -/

/-- The row an effect creates where there is none. -/
def creates : Effect A → Option TaskId
  | .opened _ task _ => some task
  | .assigned _ task _ _ => some task
  | _ => none

theorem sweep_updateTask (t : TaskTable A) (gone : List Nat) (id : TaskId) (f : Task A → Task A)
    (keeps : ∀ r, (f r).id = r.id) :
    (t.updateTask id f).sweep gone = (t.sweep gone).updateTask id f := by
  simp only [sweep, updateTask]
  congr 2
  exact KeyedList.filter_update_comm Task.id (fun k => !gone.contains k.parent) id f keeps t.tasks

theorem sweep_pushTask (t : TaskTable A) {gone : List Nat} {r : Task A}
    (outside : r.id.parent ∉ gone) : (t.pushTask r).sweep gone = (t.sweep gone).pushTask r := by
  simp [sweep, pushTask, List.filter_append, outside]

/-- Folding commutes with the sweep for every effect that creates no row the sweep drops. -/
theorem sweep_apply (t : TaskTable A) {gone : List Nat} {e : Effect A} (now : BlockNumber)
    (outside : ∀ id, creates e = some id → id.parent ∉ gone) :
    (t.apply e now).sweep gone = (t.sweep gone).apply e now := by
  cases e with
  | opened who task text => exact sweep_pushTask _ (outside task rfl)
  | assigned to_ task what expect =>
    have kept : task.parent ∉ gone := outside task rfl
    have found : (t.sweep gone).get task = t.get task :=
      KeyedList.lookup_filter Task.id (fun k => !gone.contains k.parent) (by simpa using kept) _
    simp only [apply, found]
    split
    · exact t.sweep_updateTask gone task _ fun _ => rfl
    · exact t.sweep_pushTask kept
  | directed to_ task d =>
    simp only [apply]
    split
    · simp only [sweep, List.filter_map]
      congr 3
      refine List.filter_congr fun r _ => ?_
      simp only [Function.comp_apply]
      split <;> rfl
    · exact t.sweep_updateTask gone task _ fun _ => rfl
  | record who task act text =>
    cases act with
    | claim | reopen => exact t.sweep_updateTask gone task _ fun _ => rfl
    | done | failed | clear =>
      refine (sweep_updateTask _ gone _ _ ?_).trans
        (congrArg (updateTask · _ _) (t.sweep_updateTask gone _ _ ?_)) <;>
        exact fun _ => rfl
    | artifact => rfl
  | requeued task holder why =>
    cases why with
    | unclaimed | leaseExpired => exact t.sweep_updateTask gone task _ fun _ => rfl
    | rehomed | reopened => rfl
  | closed task title body author => exact sweep_updateTask _ gone task _ fun _ => rfl
  | planned _ task _ | nudge _ task _ _ | nudgeBudgetSpent _ task | failed task
  | rehomed task _ _ => exact t.sweep_updateTask gone task _ fun _ => rfl
  | _ => rfl

theorem sweep_applyAll (t : TaskTable A) {gone : List Nat} (es : List (Effect A))
    (now : BlockNumber)
    (outside : ∀ e ∈ es, ∀ id, creates e = some id → id.parent ∉ gone) :
    (t.applyAll es now).sweep gone = (t.sweep gone).applyAll es now := by
  induction es generalizing t with
  | nil => rfl
  | cons e es ih =>
    simp only [applyAll_cons]
    rw [ih _ fun e' member => outside e' (by simp [member]), sweep_apply t now (outside e (by simp))]

/-! ## The tick dooms nobody and spares nobody -/

/-- The parents' rows. -/
def parents (t : TaskTable A) : List (Task A) := t.tasks.filter Task.isParent

theorem doomed_of_parents {t u : TaskTable A} (same : t.parents = u.parents)
    (now keepFor : BlockNumber) : t.doomed now keepFor = u.doomed now keepFor := by
  have split : ∀ t : TaskTable A,
      (t.tasks.filter fun r => r.isParent && (r.status = .closed || r.status = .failed)) =
        t.parents.filter fun r => r.status = .closed || r.status = .failed := by
    intro t
    simp only [parents, List.filter_filter]
    exact List.filter_congr fun r _ => Bool.and_comm _ _
  simp only [doomed, split, same]

/-- A sub-task's row effect leaves the parents alone. -/
theorem RowEffect.parents {id : TaskId} {e : Effect A} (row : RowEffect id e)
    (sub : id.isParent = false) (t : TaskTable A) (now : BlockNumber) :
    (t.apply e now).parents = t.parents := by
  have updated : ∀ f : Task A → Task A, (∀ r, (f r).id = r.id) →
      (t.updateTask id f).parents = t.parents := by
    intro f keeps
    have filtered := KeyedList.filter_update Task.id TaskId.isParent id f keeps t.tasks
    rw [if_neg (by simp [sub])] at filtered
    exact filtered
  cases row with
  | assigned to_ what expect =>
    simp only [apply]
    split
    · exact updated _ fun _ => rfl
    · simp [TaskTable.parents, pushTask, List.filter_append, Task.isParent, Task.ofAssigned, sub]
  | requeued holder why =>
    cases why with
    | unclaimed | leaseExpired => exact updated _ fun _ => rfl
    | rehomed | reopened => rfl
  | nudge to_ remaining last => exact updated _ fun _ => rfl
  | nudgeBudgetSpent holder => exact updated _ fun _ => rfl

theorem applyAll_parents {es : List (Effect A)}
    (rows : ∀ e ∈ es, ∃ id : TaskId, id.isParent = false ∧ RowEffect id e) (t : TaskTable A)
    (now : BlockNumber) : (t.applyAll es now).parents = t.parents := by
  induction es generalizing t with
  | nil => rfl
  | cons e es ih =>
    obtain ⟨id, sub, row⟩ := rows e (by simp)
    rw [applyAll_cons, ih fun e' member => rows e' (by simp [member]), row.parents sub]

theorem stage1_row {t : TaskTable A} {now : BlockNumber} {e : Effect A}
    (member : e ∈ t.stage1 now) :
    ∃ r ∈ t.tasks, r.isParent = false ∧ e ∈ subtaskEffects t.cfg now r := by
  obtain ⟨r, row, effects⟩ := List.mem_flatMap.mp member
  obtain ⟨present, sub⟩ := List.mem_filter.mp row
  exact ⟨r, present, by simpa using sub, effects⟩

theorem stage1_parents (t : TaskTable A) (now : BlockNumber) :
    (t.applyAll (t.stage1 now) now).parents = t.parents := by
  apply applyAll_parents
  intro e member
  obtain ⟨r, _, sub, effects⟩ := stage1_row member
  exact ⟨r.id, sub, subtaskEffects_row effects⟩

/-- Stage 1 elects nobody. -/
theorem stage1_leader (t : TaskTable A) (now : BlockNumber) :
    (t.applyAll (t.stage1 now) now).leader = t.leader := by
  refine applyAll_leader fun e member who task elects => ?_
  obtain ⟨r, _, _, effects⟩ := stage1_row member
  cases subtaskEffects_row effects <;> cases elects

/-- Directing the leader, or failing a parent now, dooms nothing that is kept a block or
more. -/
theorem doomed_decide {t : TaskTable A} {now keepFor : BlockNumber} {e : Effect A}
    (keep : 1 ≤ keepFor)
    (decided : (∃ to_ task d, d ≠ .leaderElected ∧ e = .directed to_ task d) ∨
      ∃ id : TaskId, id.parent ∉ t.doomed now keepFor ∧ e = .failed id) :
    (t.apply e now).doomed now keepFor = t.doomed now keepFor := by
  have merged : ∀ xs : List (Task A), ((xs.filter fun r =>
        r.isParent && (r.status = .closed || r.status = .failed)).filter
        fun r => keepFor ≤ now - r.closedAt.getD now).map (fun r => r.id.parent) =
      (xs.filter fun r => (keepFor ≤ now - r.closedAt.getD now : Bool) &&
        (r.isParent && (r.status = .closed || r.status = .failed))).map fun r => r.id.parent := by
    intro xs
    rw [List.filter_filter]
  rcases decided with ⟨to_, task, d, notElected, rfl⟩ | ⟨id, spared, rfl⟩
  · simp only [apply, if_neg notElected, doomed, updateTask, merged]
    exact KeyedList.map_filter_update Task.id _ _ task _ t.tasks fun _ _ _ => ⟨rfl, rfl⟩
  · simp only [apply, doomed, updateTask, merged] at spared ⊢
    refine KeyedList.map_filter_update Task.id _ _ id _ t.tasks fun r present hit => ⟨?_, rfl⟩
    -- Neither the row failed now nor the row it was can be among the doomed.
    have before : ((keepFor ≤ now - r.closedAt.getD now : Bool) &&
        (r.isParent && (r.status = .closed || r.status = .failed))) = false := by
      rw [Bool.eq_false_iff]
      intro dead
      exact spared (List.mem_map.mpr ⟨r, List.mem_filter.mpr ⟨present, dead⟩, by rw [hit]⟩)
    have positive : keepFor ≠ 0 := Nat.ne_of_gt keep
    rw [before]
    simp [positive]

/-- Neither a re-offer nor a failure of this block's tick is about a parent it also drops. -/
def Calm (t : TaskTable A) (now keepFor : BlockNumber) : Prop :=
  (∀ r ∈ t.tasks, r.isParent = false →
    (r.status = .inProgress ∧ leaseExpired r now = true ∨
      r.status = .pending ∧ offerLapsed t.cfg r now = true) →
    r.id.parent ∉ t.doomed now keepFor) ∧
  ∀ r ∈ t.tasks, r.isParent = true → r.status = .opened ∨ r.status = .planned →
    r.id.parent ∉ t.doomed now keepFor

instance (t : TaskTable A) (now keepFor : BlockNumber) : Decidable (t.Calm now keepFor) :=
  inferInstanceAs (Decidable (_ ∧ _))

theorem stage1_outside {t : TaskTable A} {now keepFor : BlockNumber} (calm : t.Calm now keepFor)
    {e : Effect A} (member : e ∈ t.stage1 now) (id : TaskId) (created : creates e = some id) :
    id.parent ∉ t.doomed now keepFor := by
  obtain ⟨r, present, sub, effects⟩ := stage1_row member
  -- Only a re-offer names a row to create, and it names the row it is about.
  have offered : e ∈ reoffer r → id = r.id := by
    intro offer
    simp only [reoffer] at offer
    split at offer
    · obtain rfl := List.mem_singleton.mp offer
      exact (Option.some.inj created).symm
    · simp at offer
  rcases subtaskEffects_cases t.cfg now r with
    none | ⟨status, expired, eq⟩ | ⟨_, _, _, _, eq⟩ | ⟨_, _, eq⟩ | ⟨status, lapsed, eq⟩
  · simp [none] at effects
  · rw [eq] at effects
    rcases List.mem_cons.mp effects with rfl | offer
    · simp [creates] at created
    · rw [offered offer]
      exact calm.1 r present sub (.inl ⟨status, expired⟩)
  · rw [eq, List.mem_singleton] at effects
    subst effects
    simp [creates] at created
  · rw [eq, List.mem_singleton] at effects
    subst effects
    simp [creates] at created
  · rw [eq] at effects
    rcases List.mem_cons.mp effects with rfl | offer
    · simp [creates] at created
    · rw [offered offer]
      exact calm.1 r present sub (.inr ⟨status, lapsed⟩)

theorem stage2_doomed {t : TaskTable A} {now keepFor : BlockNumber} {es : List (Effect A)}
    (keep : 1 ≤ keepFor)
    (decided : ∀ e ∈ es, (∃ to_ task d, d ≠ .leaderElected ∧ e = .directed to_ task d) ∨
      ∃ id : TaskId, id.parent ∉ t.doomed now keepFor ∧ e = .failed id) :
    (t.applyAll es now).doomed now keepFor = t.doomed now keepFor := by
  induction es generalizing t with
  | nil => rfl
  | cons e es ih =>
    have first := doomed_decide keep (decided e (by simp))
    rw [applyAll_cons, ih, first]
    rw [first]
    exact fun e' member => decided e' (by simp [member])

/-- Dropping first and folding the tick's effects afterwards gives what ticking first gave. -/
theorem tick_gc {t : TaskTable A} {now keepFor : BlockNumber} (keep : 1 ≤ keepFor)
    (calm : t.Calm now keepFor) :
    ((t.tick now).2.gc now keepFor).2 = (t.gc now keepFor).2.applyAll (t.tick now).1 now := by
  have first : (t.applyAll (t.stage1 now) now).doomed now keepFor = t.doomed now keepFor :=
    doomed_of_parents (t.stage1_parents now) now keepFor
  have swept := t.sweep_applyAll (t.stage1 now) now fun e => stage1_outside calm
  simp only [gc_eq_sweep, tick]
  split
  · rw [first, swept]
  next leader _ =>
    have decided : ∀ e ∈ (t.applyAll (t.stage1 now) now).stage2 leader now,
        (∃ to_ task d, d ≠ .leaderElected ∧ e = .directed to_ task d) ∨
        ∃ id : TaskId, id.parent ∉ (t.applyAll (t.stage1 now) now).doomed now keepFor ∧
          e = .failed id := by
      intro e member
      obtain ⟨p, present, parent, live, rfl | ⟨d, notElected, rfl⟩⟩ := stage2_cases member
      · refine .inr ⟨p.id, ?_, rfl⟩
        have old : p ∈ t.parents := by
          rw [← t.stage1_parents now]
          exact List.mem_filter.mpr ⟨present, parent⟩
        rw [first]
        exact calm.2 p (List.mem_filter.mp old).1 parent live
      · exact .inl ⟨_, _, d, notElected, rfl⟩
    rw [stage2_doomed keep decided, first, applyAll_append, ← swept]
    apply sweep_applyAll
    intro e member id created
    rcases decided e member with ⟨_, _, _, _, rfl⟩ | ⟨_, _, rfl⟩ <;> simp [creates] at created

end AkumaMiot.TaskTable

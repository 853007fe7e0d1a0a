import AkumaMiot.Tasks.Ids

/-!
# Rows whose parent is over

`clear_all` drops rows on top of the effects it returns. And a parent that the tick fails leaves
its sub-tasks behind, which the next ticks go on offering and nudging about.
-/
namespace AkumaMiot.TaskTable

variable {A : Type}

/-! ## What `clear_all` does not tell -/

/-- A parent that is over, or that `clear_all` fails. -/
def Cleared (r : Task A) : Prop :=
  r.isParent = true ∧
    (r.status = .opened ∨ r.status = .planned ∨ r.status = .closed ∨ r.status = .failed)

instance (r : Task A) : Decidable (Cleared r) := inferInstanceAs (Decidable (_ ∧ _))

/-- Failing a parent moves no row. -/
theorem apply_failed_mem {t : TaskTable A} (id : TaskId) (now : BlockNumber) {r : Task A}
    (present : r ∈ t.tasks) : ∃ r' ∈ (t.apply (.failed id) now).tasks, r'.id = r.id ∧
      (r'.status = r.status ∨ r'.status = .failed) := by
  rcases KeyedList.mem_update_of_mem Task.id id
    (fun p => { p with status := .failed, closedAt := some now }) present with kept | ⟨_, hit⟩
  · exact ⟨r, kept, rfl, .inl rfl⟩
  · exact ⟨_, hit, rfl, .inr rfl⟩

theorem applyAll_failed_mem {t : TaskTable A} (failing : List TaskId) (now : BlockNumber)
    {r : Task A} (present : r ∈ t.tasks) :
    ∃ r' ∈ (t.applyAll (failing.map Effect.failed) now).tasks, r'.id = r.id ∧
      (r'.status = r.status ∨ r'.status = .failed) := by
  induction failing generalizing t r with
  | nil => exact ⟨r, present, rfl, .inl rfl⟩
  | cons id failing ih =>
    obtain ⟨x, there, same, status⟩ := apply_failed_mem id now present
    obtain ⟨r', there', same', status'⟩ := ih there
    refine ⟨r', there', same'.trans same, ?_⟩
    rcases status' with keeps | failed
    · exact status.imp keeps.trans keeps.trans
    · exact .inr failed

/-- A row that is failed is there, failed, in the end. -/
theorem applyAll_failed_hit {t : TaskTable A} {failing : List TaskId} (now : BlockNumber)
    {id : TaskId} (member : id ∈ failing) (there : id ∈ t.ids) :
    ∃ r' ∈ (t.applyAll (failing.map Effect.failed) now).tasks, r'.id = id ∧ r'.status = .failed := by
  induction failing generalizing t with
  | nil => cases member
  | cons head failing ih =>
    have same : (t.apply (.failed head) now).ids = t.ids := t.updateTask_ids head _ fun _ => rfl
    rcases List.mem_cons.mp member with rfl | later
    · cases found : t.get id with
      | none => exact absurd there (get_eq_none.mp found)
      | some p =>
        have failed := get_some (get_updateTask_found found
          (fun p => { p with status := .failed, closedAt := some now }) fun _ => rfl)
        obtain ⟨r', there', same', status⟩ := applyAll_failed_mem failing now failed.1
        exact ⟨r', there', same'.trans failed.2, status.elim (fun s => s) fun s => s⟩
    · exact ih later (same ▸ there)

/-- With nothing to keep it for, whatever is over is dropped. -/
theorem mem_doomed_now {t : TaskTable A} (now : BlockNumber) {r : Task A} (present : r ∈ t.tasks)
    (parent : r.isParent = true) (past : r.status = .closed ∨ r.status = .failed) :
    r.id.parent ∈ t.doomed now 0 := by
  simp only [doomed, List.mem_map, List.mem_filter]
  exact ⟨r, ⟨⟨present, by rcases past with past | past <;> simp [parent, past]⟩, by simp⟩, rfl⟩

/-- Folding what `clear_all` returns gives the table it leaves exactly when there was no parent
for it to drop. -/
theorem clearAll_folds (t : TaskTable A) (auth : Authority) (now : BlockNumber) :
    Folds t now (t.clearAll auth now) ↔ auth ≠ .root ∨ ∀ r ∈ t.tasks, ¬ Cleared r := by
  by_cases root : auth = .root
  · subst root
    let openIds := (t.tasks.filter fun r =>
      r.isParent && (r.status = .opened || r.status = .planned)).map (·.id)
    let folded := t.applyAll (openIds.map Effect.failed) now
    have left : t.clearAll .root now = (.ok (openIds.map Effect.failed), (folded.gc now 0).2) := rfl
    have folds : Folds t now (t.clearAll .root now) ↔ (folded.gc now 0).2 = folded := by
      rw [left]
      exact .rfl
    rw [folds, or_iff_right (by simp), gc_eq_sweep]
    constructor
    · intro same r present cleared
      obtain ⟨parent, status⟩ := cleared
      -- It is over once the effects are folded, and then it is dropped.
      have past : ∃ r' ∈ folded.tasks, r'.id = r.id ∧
          (r'.status = .closed ∨ r'.status = .failed) := by
        have live : r.status = .opened ∨ r.status = .planned → ∃ r' ∈ folded.tasks, r'.id = r.id ∧
            (r'.status = .closed ∨ r'.status = .failed) := by
          intro live
          have failing : r.id ∈ openIds := List.mem_map_of_mem (List.mem_filter.mpr
            ⟨present, by rcases live with live | live <;> simp [parent, live]⟩)
          obtain ⟨r', there, same, failed⟩ :=
            applyAll_failed_hit now failing (List.mem_map_of_mem present)
          exact ⟨r', there, same, .inr failed⟩
        have dead : r.status = .closed ∨ r.status = .failed → ∃ r' ∈ folded.tasks, r'.id = r.id ∧
            (r'.status = .closed ∨ r'.status = .failed) := by
          intro dead
          obtain ⟨r', there, same, status⟩ := applyAll_failed_mem openIds now present
          refine ⟨r', there, same, ?_⟩
          rcases status with keeps | failed
          · exact dead.imp keeps.trans keeps.trans
          · exact .inr failed
        rcases status with opened | planned | closed | failed
        · exact live (.inl opened)
        · exact live (.inr planned)
        · exact dead (.inl closed)
        · exact dead (.inr failed)
      obtain ⟨r', there, sameId, past⟩ := past
      have doomed := mem_doomed_now now there (by rw [Task.isParent, sameId]; exact parent)
        past
      have tasks := congrArg (fun u : TaskTable A => u.tasks) same
      have kept := List.filter_eq_self.mp tasks r' there
      simp [doomed] at kept
    · intro none_
      have noneOpen : openIds = [] := by
        simp only [openIds, List.map_eq_nil_iff, List.filter_eq_nil_iff]
        intro r present live
        simp only [Bool.and_eq_true, Bool.or_eq_true, decide_eq_true_eq] at live
        exact none_ r present ⟨live.1, live.2.elim .inl fun planned => .inr (.inl planned)⟩
      have same : folded = t := by simp only [folded, noneOpen, List.map_nil, applyAll_nil]
      have noneDead : t.doomed now 0 = [] := by
        simp only [doomed, List.map_eq_nil_iff, List.filter_eq_nil_iff, List.mem_filter]
        rintro r ⟨present, dead⟩ _
        simp only [Bool.and_eq_true, Bool.or_eq_true, decide_eq_true_eq] at dead
        exact none_ r present ⟨dead.1, .inr (.inr dead.2)⟩
      rw [same, noneDead]
      simp [sweep]
  · have left : t.clearAll auth now = (.error .notAuthorized, t) := by simp [clearAll, root]
    rw [left]
    exact iff_of_true rfl (.inl root)

/-- An open parent is failed by the effects, and dropped by the call alone. -/
theorem clearAll_folds_drops :
    let t : TaskTable Nat := (new {} (some 0)).run [(.call (.openParent 0 .root "t"), 1)]
    ¬ Folds t 2 (t.clearAll .root 2) := by
  unfold Folds
  decide

/-! ## Sub-tasks of a parent that is over -/

/-- Nothing more is offered or nudged about: a result is in, or the offers are spent. -/
def Settled (cfg : Config) (r : Task A) : Prop :=
  r.status = .awaitingClearance ∨ r.status = .cleared ∨
    (r.status = .pending ∧ cfg.timers.maxReoffers ≤ r.reoffers)

/-- The parent with this number is closed or failed. -/
def Dead (t : TaskTable A) (number : Nat) : Prop :=
  ∃ p ∈ t.tasks, p.isParent = true ∧ (p.status = .closed ∨ p.status = .failed) ∧
    p.id.parent = number

instance (cfg : Config) (r : Task A) : Decidable (Settled cfg r) :=
  inferInstanceAs (Decidable (_ ∨ _ ∨ _))

instance (t : TaskTable A) (number : Nat) : Decidable (t.Dead number) :=
  inferInstanceAs (Decidable (∃ p ∈ t.tasks, _))

/-- Whatever outlives its parent is settled. -/
def Laid (t : TaskTable A) : Prop :=
  ∀ r ∈ t.tasks, r.isParent = false → t.Dead r.id.parent → Settled t.cfg r

/-- The sub-task or parent an effect wakes somebody about. -/
def wakesAbout : Effect A → Option TaskId
  | .assigned _ id _ _ | .nudge _ id _ _ | .directed _ id _ => some id
  | _ => none

/-- An effect that makes no parent end, and wakes up nothing whose parent had ended in `t`. -/
def Harmless (t : TaskTable A) : Effect A → Prop
  | .opened _ id _ | .planned _ id _ => id.isParent = true
  | .assigned _ id _ _ | .rehomed id _ _ => ¬ t.Dead id.parent
  | .record _ id act _ => act = .claim ∨ act = .reopen → ¬ t.Dead id.parent
  | .requeued id _ why => why = .unclaimed ∨ why = .leaseExpired → ¬ t.Dead id.parent
  | .closed .. | .failed _ => False
  | _ => True

/-- Seen from `t`, no parent has ended since, and what outlived its parent is settled if it was. -/
structure Calmed (t u : TaskTable A) : Prop where
  cfg : u.cfg = t.cfg
  parents : ∀ p ∈ u.tasks, p.isParent = true → p.status = .closed ∨ p.status = .failed →
    ∃ q ∈ t.tasks, q.id = p.id ∧ (q.status = .closed ∨ q.status = .failed)
  subs : ∀ r ∈ u.tasks, r.isParent = false → t.Dead r.id.parent →
    Settled t.cfg r ∨ ∃ q ∈ t.tasks, q.id = r.id ∧ (Settled t.cfg q → Settled t.cfg r)

theorem Calmed.refl (t : TaskTable A) : t.Calmed t :=
  ⟨rfl, fun p present _ past => ⟨p, present, rfl, past⟩, fun r present _ _ =>
    .inr ⟨r, present, rfl, fun settled => settled⟩⟩

theorem Calmed.laid {t u : TaskTable A} (calmed : t.Calmed u) (laid : t.Laid) : u.Laid := by
  rintro r present sub ⟨p, there, parent, past, number⟩
  obtain ⟨q, old, same, past⟩ := calmed.parents p there parent past
  have dead : t.Dead r.id.parent :=
    ⟨q, old, by rw [Task.isParent, same]; exact parent, past, by rw [same, number]⟩
  rw [calmed.cfg]
  rcases calmed.subs r present sub dead with settled | ⟨x, before, sameId, keeps⟩
  · exact settled
  · refine keeps (laid x before ?_ (sameId ▸ dead))
    rw [Task.isParent, sameId]
    exact sub

/-- A rewrite of one row. -/
theorem Calmed.updateTask {t u : TaskTable A} (calmed : t.Calmed u) (id : TaskId)
    (f : Task A → Task A) (keeps : ∀ r, (f r).id = r.id)
    (parents : ∀ r ∈ u.tasks, r.id = id → (f r).status = .closed ∨ (f r).status = .failed →
      r.status = .closed ∨ r.status = .failed)
    (subs : ∀ r ∈ u.tasks, r.id = id → r.isParent = false → t.Dead id.parent →
      Settled t.cfg (f r) ∨ (Settled t.cfg r → Settled t.cfg (f r))) :
    t.Calmed (u.updateTask id f) where
  cfg := calmed.cfg
  parents p present parent past := by
    rcases KeyedList.mem_update Task.id present with old | ⟨r, old, hit, rfl⟩
    · exact calmed.parents p old parent past
    · rw [Task.isParent, keeps] at parent
      obtain ⟨q, before, same, past⟩ := calmed.parents r old parent (parents r old hit past)
      exact ⟨q, before, same.trans (keeps r).symm, past⟩
  subs r present sub dead := by
    rcases KeyedList.mem_update Task.id present with old | ⟨x, old, hit, rfl⟩
    · exact calmed.subs r old sub dead
    · rw [Task.isParent, keeps] at sub
      rw [keeps] at dead ⊢
      rcases subs x old hit sub (hit ▸ dead) with settled | keepsSettled
      · exact .inl settled
      · rcases calmed.subs x old sub dead with settled | ⟨q, before, same, kept⟩
        · exact .inl (keepsSettled settled)
        · exact .inr ⟨q, before, same, fun settled => keepsSettled (kept settled)⟩

theorem Calmed.of_tasks {t u u' : TaskTable A} (calmed : t.Calmed u) (tasks : u'.tasks = u.tasks)
    (cfg : u'.cfg = u.cfg) : t.Calmed u' :=
  ⟨cfg.trans calmed.cfg, tasks ▸ calmed.parents, tasks ▸ calmed.subs⟩

/-- A rewrite that leaves status and offers alone. -/
theorem Calmed.remind {t u : TaskTable A} (calmed : t.Calmed u) (id : TaskId)
    (f : Task A → Task A) (keeps : ∀ r, (f r).id = r.id) (status : ∀ r, (f r).status = r.status)
    (offers : ∀ r, (f r).reoffers = r.reoffers) : t.Calmed (u.updateTask id f) := by
  refine calmed.updateTask id f keeps (fun r _ _ past => status r ▸ past) fun r _ _ _ _ => .inr ?_
  rw [Settled, Settled, status, offers]
  exact fun settled => settled

/-- A row whose parent has not ended may be rewritten, as long as no parent ends. -/
theorem Calmed.works {t u : TaskTable A} (calmed : t.Calmed u) (id : TaskId)
    (f : Task A → Task A) (keeps : ∀ r, (f r).id = r.id)
    (past : ∀ r, (f r).status ≠ .closed ∧ (f r).status ≠ .failed) (alive : ¬ t.Dead id.parent) :
    t.Calmed (u.updateTask id f) := by
  refine calmed.updateTask id f keeps (fun r _ _ ends => ?_) fun r _ _ _ dead => absurd dead alive
  exact ends.elim (fun closed => absurd closed (past r).1) fun failed => absurd failed (past r).2

/-- A result that is in, or cleared, is settled. -/
theorem Calmed.rests {t u : TaskTable A} (calmed : t.Calmed u) (id : TaskId)
    (f : Task A → Task A) (keeps : ∀ r, (f r).id = r.id)
    (rests : ∀ r, (f r).status = .awaitingClearance ∨ (f r).status = .cleared) :
    t.Calmed (u.updateTask id f) := by
  refine calmed.updateTask id f keeps (fun r _ _ ends => ?_) fun r _ _ _ _ => .inl ?_
  · rcases rests r with rests | rests <;> simp [rests] at ends
  · exact (rests r).imp_right .inl

/-- A row added under a parent that has not ended, or a new parent. -/
theorem Calmed.pushTask {t u : TaskTable A} (calmed : t.Calmed u) {r : Task A}
    (past : r.status ≠ .closed ∧ r.status ≠ .failed)
    (alive : r.isParent = false → ¬ t.Dead r.id.parent) : t.Calmed (u.pushTask r) where
  cfg := calmed.cfg
  parents p present parent ends := by
    rcases List.mem_append.mp present with old | new
    · exact calmed.parents p old parent ends
    · rw [List.mem_singleton.mp new] at ends
      exact ends.elim (fun closed => absurd closed past.1) fun failed => absurd failed past.2
  subs x present sub dead := by
    rcases List.mem_append.mp present with old | new
    · exact calmed.subs x old sub dead
    · obtain rfl := List.mem_singleton.mp new
      exact absurd dead (alive sub)

theorem Calmed.apply {t u : TaskTable A} (calmed : t.Calmed u) {e : Effect A}
    (harmless : t.Harmless e) (now : BlockNumber) : t.Calmed (u.apply e now) := by
  cases e with
  | opened who task text =>
    have counted : t.Calmed { u with nextParent := max u.nextParent (u32Succ task.parent) } :=
      calmed.of_tasks rfl rfl
    refine counted.pushTask (r := Task.ofOpened who task text now) (by simp [Task.ofOpened])
      fun sub => ?_
    have parent : task.isParent = true := harmless
    rw [Task.isParent, Task.ofOpened, parent] at sub
    cases sub
  | planned who task count =>
    refine calmed.updateTask task _ (fun _ => rfl) (by simp) fun r _ hit sub _ => ?_
    have parent : task.isParent = true := harmless
    rw [Task.isParent, hit, parent] at sub
    cases sub
  | assigned to_ task what expect =>
    simp only [TaskTable.apply]
    split
    · exact calmed.works task _ (fun _ => rfl) (fun _ => by simp) harmless
    · exact calmed.pushTask (by simp [Task.ofAssigned]) fun _ => harmless
  | directed to_ task d =>
    simp only [TaskTable.apply]
    split
    · -- The parents' deadlines move, nothing else.
      refine ⟨calmed.cfg, fun p present parent past => ?_, fun r present sub dead => ?_⟩
      · obtain ⟨x, old, rfl⟩ := List.mem_map.mp present
        by_cases kind : x.isParent = true
        · rw [if_pos kind] at past ⊢
          exact calmed.parents x old kind past
        · rw [if_neg kind] at past parent ⊢
          exact calmed.parents x old parent past
      · obtain ⟨x, old, rfl⟩ := List.mem_map.mp present
        by_cases kind : x.isParent = true
        · rw [if_pos kind] at sub
          have sub : x.isParent = false := sub
          rw [kind] at sub
          cases sub
        · rw [if_neg kind] at sub dead ⊢
          exact calmed.subs x old sub dead
    · exact calmed.remind task _ (fun _ => rfl) (fun _ => rfl) fun _ => rfl
  | nudge to_ task remaining last =>
    exact calmed.remind task _ (fun _ => rfl) (fun _ => rfl) fun _ => rfl
  | nudgeBudgetSpent holder task =>
    exact calmed.remind task _ (fun _ => rfl) (fun _ => rfl) fun _ => rfl
  | rehomed task old to_ => exact calmed.works task _ (fun _ => rfl) (fun _ => by simp) harmless
  | record who task act text =>
    cases act with
    | claim =>
      exact calmed.works task _ (fun _ => rfl) (fun _ => by simp) (harmless (.inl rfl))
    | reopen =>
      exact calmed.works task _ (fun _ => rfl) (fun _ => by simp) (harmless (.inr rfl))
    | done | failed =>
      refine Calmed.remind (calmed.rests task _ ?_ ?_) _ _ ?_ ?_ ?_
      · exact fun _ => rfl
      · exact fun _ => .inl rfl
      all_goals exact fun _ => rfl
    | clear =>
      refine Calmed.remind (calmed.rests task _ ?_ ?_) _ _ ?_ ?_ ?_
      · exact fun _ => rfl
      · exact fun _ => .inr rfl
      all_goals exact fun _ => rfl
    | artifact => exact calmed
  | requeued task holder why =>
    cases why with
    | unclaimed =>
      refine calmed.updateTask task _ (fun _ => rfl) (fun r _ _ past => past) ?_
      exact fun r _ _ _ dead => absurd dead (harmless (.inl rfl))
    | leaseExpired =>
      exact calmed.works task _ (fun _ => rfl) (fun _ => by simp) (harmless (.inr rfl))
    | rehomed | reopened => exact calmed
  | closed task title body author => exact harmless.elim
  | failed task => exact harmless.elim
  | standaloneArtifact author id title body => exact calmed.of_tasks rfl rfl
  | _ => exact calmed

theorem Calmed.applyAll {t u : TaskTable A} (calmed : t.Calmed u) {es : List (Effect A)}
    (harmless : ∀ e ∈ es, t.Harmless e) (now : BlockNumber) : t.Calmed (u.applyAll es now) := by
  induction es generalizing u with
  | nil => exact calmed
  | cons e es ih =>
    exact ih (calmed.apply (harmless e (by simp)) now) fun e' member =>
      harmless e' (by simp [member])

/-! ## A parent ends -/

/-- Rewriting a parent's row leaves the sub-tasks where they are. -/
theorem subtasks_updateTask (t : TaskTable A) {id : TaskId} (parent : id.isParent = true)
    (f : Task A → Task A) (keeps : ∀ r, (f r).id = r.id) (q : TaskId) :
    (t.updateTask id f).subtasks q = t.subtasks q := by
  have filtered := KeyedList.filter_update Task.id
    (fun k => k.parent = q.parent && !k.isParent) id f keeps t.tasks
  rw [if_neg (by simp [parent])] at filtered
  exact filtered

/-- A parent may end whose sub-tasks are all settled. -/
theorem Laid.ends {t : TaskTable A} (laid : t.Laid) {id : TaskId} (parent : id.isParent = true)
    (f : Task A → Task A) (keeps : ∀ r, (f r).id = r.id)
    (settled : ∀ r ∈ t.subtasks id, Settled t.cfg r) : (t.updateTask id f).Laid := by
  rintro r present sub ⟨p, there, isParent, past, number⟩
  have old : r ∈ t.tasks := by
    rcases KeyedList.mem_update Task.id present with old | ⟨x, _, hit, rfl⟩
    · exact old
    · rw [Task.isParent, keeps, hit, parent] at sub
      cases sub
  rcases KeyedList.mem_update Task.id there with before | ⟨x, _, hit, rfl⟩
  · exact laid r old sub ⟨p, before, isParent, past, number⟩
  · refine settled r (mem_subtasks.mpr ⟨old, ?_, sub⟩)
    rw [← number, keeps, hit]

/-- Stage 2 keeps what it finds in order, if the parents it fails leave nothing to do. -/
theorem Laid.decided {t : TaskTable A} (laid : t.Laid) {es : List (Effect A)} (now : BlockNumber)
    (decided : ∀ e ∈ es, ∃ id : TaskId, id.isParent = true ∧
      ((e = .failed id ∧ ∀ r ∈ t.subtasks id, Settled t.cfg r) ∨
        ∃ leader d, d ≠ .leaderElected ∧ e = .directed leader id d)) :
    (t.applyAll es now).Laid := by
  induction es generalizing t with
  | nil => exact laid
  | cons e es ih =>
    obtain ⟨id, parent, here⟩ := decided e (by simp)
    have first : (t.apply e now).Laid ∧ ∀ q, (t.apply e now).subtasks q = t.subtasks q := by
      rcases here with ⟨rfl, settled⟩ | ⟨leader, d, notElected, rfl⟩
      · exact ⟨laid.ends parent _ (fun _ => rfl) settled,
          t.subtasks_updateTask parent _ fun _ => rfl⟩
      · simp only [TaskTable.apply, if_neg notElected]
        refine ⟨(Calmed.remind (.refl t) id _ ?_ ?_ ?_).laid laid,
          t.subtasks_updateTask parent _ ?_⟩
        all_goals exact fun _ => rfl
    refine ih first.1 fun e' member => ?_
    obtain ⟨id', parent', later⟩ := decided e' (by simp [member])
    refine ⟨id', parent', later.imp_left (And.imp_right fun settled => ?_)⟩
    rw [first.2, apply_cfg]
    exact settled

/-! ## One operation -/

/-- Whatever stage 1 acts on is not settled. -/
theorem acted_unsettled {cfg : Config} {now : BlockNumber} {r : Task A} {e : Effect A}
    (member : e ∈ subtaskEffects cfg now r) : ¬ Settled cfg r := by
  rintro (awaiting | cleared | ⟨pending, spent⟩)
  · simp [subtaskEffects, awaiting] at member
  · simp [subtaskEffects, cleared] at member
  · simp [subtaskEffects, pending, offerLapsed, Nat.not_lt.mpr spent] at member

/-- Distinct ids let a live parent be the only one with its number. -/
theorem live_not_dead {t : TaskTable A} (distinct : t.ids.Nodup) {p : Task A}
    (present : p ∈ t.tasks) (parent : p.isParent = true)
    (live : p.status = .opened ∨ p.status = .planned) : ¬ t.Dead p.id.parent := by
  rintro ⟨q, there, parent', past, number⟩
  have same : q.id = p.id := by
    rw [← TaskId.parentId_of_isParent parent', ← TaskId.parentId_of_isParent parent,
      TaskId.parentId, TaskId.parentId, number]
  obtain rfl := List.inj_on_of_nodup_map distinct there present same
  rcases live with live | live <;> simp [live] at past

theorem stage1_harmless {t : TaskTable A} (laid : t.Laid) {now : BlockNumber} {e : Effect A}
    (member : e ∈ t.stage1 now) : t.Harmless e := by
  obtain ⟨r, present, sub, effects⟩ := stage1_row member
  have alive : ¬ t.Dead r.id.parent := fun dead => acted_unsettled effects (laid r present sub dead)
  cases subtaskEffects_row effects with
  | assigned => exact alive
  | requeued => exact fun _ => alive
  | nudge | nudgeBudgetSpent => trivial

/-- No effect of a tick that wakes somebody is about anything that had ended. -/
theorem tick_quiet {t : TaskTable A} (distinct : t.ids.Nodup) (laid : t.Laid) {now : BlockNumber}
    {e : Effect A} (member : e ∈ (t.tick now).1) {id : TaskId} (about : wakesAbout e = some id) :
    ¬ t.Dead id.parent := by
  have first : e ∈ t.stage1 now → ¬ t.Dead id.parent := by
    intro member
    obtain ⟨r, present, sub, effects⟩ := stage1_row member
    have same : id = r.id := by
      cases subtaskEffects_row effects with
      | assigned | nudge => exact (Option.some.inj about).symm
      | requeued | nudgeBudgetSpent => cases about
    rw [same]
    exact fun dead => acted_unsettled effects (laid r present sub dead)
  simp only [tick] at member
  split at member
  · exact first member
  · rcases List.mem_append.mp member with one | two
    · exact first one
    · obtain ⟨p, present, parent, live, rfl | ⟨d, _, rfl⟩⟩ := stage2_cases two
      · cases about
      · obtain rfl := Option.some.inj about
        -- Stage 1 has not touched the parents.
        have old : p ∈ t.parents := by
          rw [← t.stage1_parents now]
          exact List.mem_filter.mpr ⟨present, parent⟩
        exact live_not_dead distinct (List.mem_filter.mp old).1 parent live

theorem sweep_laid {t : TaskTable A} (laid : t.Laid) (gone : List Nat) : (t.sweep gone).Laid := by
  rintro r present sub ⟨p, there, past⟩
  exact laid r (List.mem_filter.mp present).1 sub ⟨p, (List.mem_filter.mp there).1, past⟩

/-- After `clear_all` no parent is over, since none is there. -/
theorem clearAll_laid {t : TaskTable A} (laid : t.Laid) (auth : Authority) (now : BlockNumber) :
    (t.clearAll auth now).2.Laid := by
  have swept : ∀ u : TaskTable A, (u.gc now 0).2.Laid := by
    intro u
    rw [gc_eq_sweep]
    rintro r _ _ ⟨p, there, parent, past, _⟩
    obtain ⟨present, kept⟩ := List.mem_filter.mp there
    simp [mem_doomed_now now present parent past] at kept
  simp only [clearAll]
  split
  · exact laid
  · exact swept _

section Accounts

variable [DecidableEq A]

/-- The operation ends no parent that still has work to do, and takes up no work whose parent has
ended. Every new parent gets a number of its own. -/
def Spares (t : TaskTable A) (op : Op A) (now : BlockNumber) : Prop :=
  t.Fresh op now ∧
  match op with
  | .call .tick => t.leader.isSome = true →
      let t := t.applyAll (t.stage1 now) now
      ∀ q ∈ t.due now, ((t.get q.1).any fun p =>
        t.cfg.timers.maxDirectiveNudges ≤ p.directiveNudgesUsed) = true →
        ∀ r ∈ t.subtasks q.1, Settled t.cfg r
  | .call (.update who auth id act text) => act = .claim ∨ act = .reopen →
      (t.update who auth id act text now).1.isOk = true → ¬ t.Dead id.parent
  | .call (.reassign who auth id to_) =>
      (t.reassign who auth id to_ now).1.isOk = true → ¬ t.Dead id.parent
  | _ => True

instance (t : TaskTable A) (op : Op A) (now : BlockNumber) : Decidable (t.Spares op now) :=
  @instDecidableAnd _ _ (inferInstanceAs (Decidable (t.Fresh op now))) <|
  match op with
  | .call .tick =>
    let u := t.applyAll (t.stage1 now) now
    inferInstanceAs (Decidable (_ = true →
      ∀ q ∈ u.due now, _ = true → ∀ r ∈ u.subtasks q.1, Settled u.cfg r))
  | .call (.update ..) => inferInstanceAs (Decidable (_ ∨ _ → _ = true → ¬ t.Dead _))
  | .call (.reassign ..) => inferInstanceAs (Decidable (_ = true → ¬ t.Dead _))
  | .call (.setLeader ..) | .call (.openParent ..) | .call (.plan ..) | .call (.say ..) |
    .call (.publishStandaloneArtifact ..) | .gc _ | .clearAll _ => .isTrue trivial

omit [DecidableEq A] in
theorem tick_laid {t : TaskTable A} (laid : t.Laid) (now : BlockNumber)
    (spares : t.leader.isSome = true →
      let t := t.applyAll (t.stage1 now) now
      ∀ q ∈ t.due now, ((t.get q.1).any fun p =>
        t.cfg.timers.maxDirectiveNudges ≤ p.directiveNudgesUsed) = true →
        ∀ r ∈ t.subtasks q.1, Settled t.cfg r) : (t.tick now).2.Laid := by
  have first : (t.applyAll (t.stage1 now) now).Laid :=
    ((Calmed.refl t).applyAll (fun e => stage1_harmless laid) now).laid laid
  simp only [tick]
  split
  · exact first
  next who found =>
    refine first.decided now fun e member => ?_
    obtain ⟨p, _, parent, _, rfl | ⟨d, notElected, rfl⟩⟩ := stage2_cases member
    · obtain ⟨q, due, same, spent⟩ := stage2_failed member
      refine ⟨p.id, parent, .inl ⟨rfl, ?_⟩⟩
      rw [← same]
      exact spares (by rw [← t.stage1_leader now, found]; rfl) q due spent
    · exact ⟨p.id, parent, .inr ⟨who, d, notElected, rfl⟩⟩

theorem submit_laid {t : TaskTable A} (laid : t.Laid) (who : A) (id : TaskId) (outcome : Outcome)
    (now : BlockNumber) : (t.submit who id outcome now).2.Laid := by
  rcases t.submit_cases who id outcome now with ⟨_, left⟩ | ⟨_, act, _, _, acts, _, left⟩ <;>
    rw [left]
  · exact laid
  · have calm : t.Harmless (.record who id act outcome.text) := by
      rcases acts with rfl | rfl <;> exact fun wakes => by simp at wakes
    exact ((Calmed.refl t).apply calm now).laid laid

theorem update_laid {t : TaskTable A} (laid : t.Laid) (who : A) (auth : Authority) (id : TaskId)
    (act : Act) (text : String) (now : BlockNumber)
    (spares : act = .claim ∨ act = .reopen →
      (t.update who auth id act text now).1.isOk = true → ¬ t.Dead id.parent) :
    (t.update who auth id act text now).2.Laid := by
  cases act with
  | claim =>
    have spares := spares (.inl rfl)
    simp only [update] at spares ⊢
    rcases t.claim_cases who id now with ⟨_, left⟩ | ⟨_, _, _, _, _, left⟩ <;>
      rw [left] at spares ⊢
    · exact laid
    · refine ((Calmed.refl t).applyAll (fun e member => ?_) now).laid laid
      simp only [List.mem_cons, List.not_mem_nil, or_false] at member
      rcases member with rfl | rfl
      · exact fun _ => spares rfl
      · trivial
  | done => exact submit_laid laid who id _ now
  | failed => exact submit_laid laid who id _ now
  | clear =>
    rcases t.clear_cases who auth id now with ⟨_, left⟩ | ⟨_, _, _, _, _, left⟩ <;>
      simp only [update, left]
    · exact laid
    · refine ((Calmed.refl t).apply (e := .record who id .clear "") ?_ now).laid laid
      exact fun wakes => by simp at wakes
  | reopen =>
    have spares := spares (.inr rfl)
    simp only [update] at spares ⊢
    rcases t.reopen_cases who auth id text now with ⟨_, left⟩ | ⟨_, _, _, _, _, left⟩ <;>
      rw [left] at spares ⊢
    · exact laid
    · refine ((Calmed.refl t).applyAll (fun e member => ?_) now).laid laid
      simp only [List.mem_cons, Option.mem_toList, Option.map_eq_some_iff] at member
      rcases member with rfl | rfl | ⟨to_, _, rfl⟩
      · exact fun _ => spares rfl
      · exact fun why => by simp at why
      · exact spares rfl
  -- A parent that closes has only cleared rows under it.
  | artifact =>
    rcases t.commitArtifact_cases who auth id text now with
      ⟨_, left⟩ | ⟨_, title, _, parent, _, _, cleared, left⟩ <;> simp only [update, left]
    · exact laid
    · refine Laid.ends (t := { t with
        artifacts := t.artifacts ++ [(id.parentId, ⟨title, text, who, now⟩)] }) laid parent
        (fun p => { p with status := .closed, closedAt := some now }) (fun _ => rfl) ?_
      exact fun r member => .inr (.inl (cleared r member))

theorem plan_laid {t : TaskTable A} (distinct : t.ids.Nodup) (laid : t.Laid) (who : A)
    (auth : Authority) (parent : TaskId) (items : List (PlanItem A)) (now : BlockNumber) :
    (t.plan who auth parent items now).2.Laid := by
  rcases t.plan_cases who auth parent items now with
    ⟨_, left⟩ | ⟨_, kind, _, _, _, ⟨p, found, opened⟩, left⟩ <;> rw [left]
  · exact laid
  · obtain ⟨present, same⟩ := get_some found
    have alive : ¬ t.Dead parent.parent :=
      same ▸ live_not_dead distinct present (by rw [Task.isParent, same]; exact kind) (.inl opened)
    refine ((Calmed.refl t).applyAll (fun e member => ?_) now).laid laid
    rcases List.mem_cons.mp member with rfl | offer
    · exact kind
    · obtain ⟨_, _, rfl⟩ := List.mem_mapIdx.mp offer
      exact alive

theorem step_laid {t : TaskTable A} (distinct : t.ids.Nodup) (laid : t.Laid) {op : Op A}
    {now : BlockNumber} (spares : t.Spares op now) : (t.step op now).Laid := by
  -- An effect that wakes nothing up leaves what is laid as it is.
  have calm : ∀ e, t.Harmless e → (t.apply e now).Laid := fun e harmless =>
    ((Calmed.refl t).apply harmless now).laid laid
  cases op with
  | gc keepFor =>
    rw [step, gc_eq_sweep]
    exact sweep_laid laid _
  | clearAll auth => exact clearAll_laid laid auth now
  | call c =>
    cases c with
    | setLeader who =>
      rcases t.setLeader_cases who now with ⟨_, left⟩ | ⟨_, left⟩ <;> simp only [step, call, left]
      · exact laid
      · exact calm _ trivial
    | openParent who auth text =>
      rcases t.openParent_step who auth text now with ⟨_, same⟩ | ⟨_, stepped⟩
      · rw [same]
        exact laid
      · rw [stepped]
        exact calm _ rfl
    | plan who auth parent items => exact plan_laid distinct laid who auth parent items now
    | say who auth to_ body noAck offRecord =>
      rcases t.say_cases who auth to_ body noAck offRecord with ⟨_, left⟩ | left <;>
        simp only [step, call, left] <;> exact laid
    | publishStandaloneArtifact who body =>
      rcases t.publishStandaloneArtifact_cases who body now with ⟨_, left⟩ | ⟨_, left⟩ <;>
        simp only [step, call, left]
      · exact laid
      · exact calm _ trivial
    | reassign who auth id to_ =>
      have spares := spares.2
      simp only [step, call] at spares ⊢
      rcases t.reassign_cases who auth id to_ now with ⟨_, left⟩ | ⟨_, _, _, _, _, _, left⟩ <;>
        rw [left] at spares ⊢
      · exact laid
      · refine ((Calmed.refl t).applyAll (fun e member => ?_) now).laid laid
        simp only [List.mem_cons, List.not_mem_nil, or_false] at member
        rcases member with rfl | rfl | rfl
        · exact spares rfl
        · exact fun why => by simp at why
        · exact spares rfl
    | update who auth id act text => exact update_laid laid who auth id act text now spares.2
    | tick => exact tick_laid laid now spares.2

/-- From a new table on: as long as no parent ends that still has work to do and no work of an
ended parent is taken up again, ticks leave whatever has ended alone. -/
theorem dead_quiet_run (cfg : Config) (root : Option A) (ops : List (Op A × BlockNumber))
    (spares : Machine.Meets next (fun t op => t.Spares op.1 op.2) (new cfg root) ops)
    (now : BlockNumber) :
    ∀ e ∈ (((new cfg root).run ops).tick now).1, ∀ id, wakesAbout e = some id →
      ¬ ((new cfg root).run ops).Dead id.parent := by
  have start : (new cfg root).ids.Nodup ∧ (new cfg root).Laid := by
    refine ⟨new_distinct cfg root, fun r present => ?_⟩
    cases present
  have kept : ((new cfg root).run ops).ids.Nodup ∧ ((new cfg root).run ops).Laid :=
    Machine.run_invariant (fun t : TaskTable A => t.ids.Nodup ∧ t.Laid)
      (fun _ _ inv ok => ⟨step_distinct inv.1 ok.1, step_laid inv.1 inv.2 ok⟩) start spares
  exact fun e member id about => tick_quiet kept.1 kept.2 member about

/-- Every timer runs out after a block. -/
def briefTimers : Config := { timers := {
  lease := 10, claimWindow := 1, workNag := 1, maxNudges := 3, maxReoffers := 1, directiveNag := 1,
  maxDirectiveNudges := 1 } }

/-- A parent that nobody plans fails with no sub-task, and no tick mentions it again. -/
theorem dead_quiet_run_unplanned :
    let ops : List (Op Nat × BlockNumber) := [(.call (.setLeader 1), 1),
      (.call (.openParent 0 .root "t"), 1), (.call .tick, 2), (.call .tick, 3)]
    let t := (new briefTimers (some 0)).run ops
    t.Dead 1 ∧ ∀ e ∈ (t.tick 4).1, ∀ id, wakesAbout e = some id → ¬ t.Dead id.parent :=
  ⟨by decide, dead_quiet_run briefTimers (some 0) _ (by decide) 4⟩

/-- The parent fails for want of an answer about one sub-task while cat 2 works on the other, and
cat 2 is nudged about that afterwards. -/
theorem dead_quiet_run_nudged :
    let ops : List (Op Nat × BlockNumber) := [(.call (.setLeader 1), 1),
      (.call (.openParent 0 .root "t"), 1),
      (.call (.plan 1 .leader ⟨1, 0⟩ [⟨2, "a", "b"⟩, ⟨3, "c", "d"⟩]), 1),
      (.call (.update 2 .peer ⟨1, 1⟩ .claim ""), 1), (.call .tick, 2), (.call .tick, 3)]
    let t := (new briefTimers (some 0)).run ops
    ¬ ∀ e ∈ (t.tick 4).1, ∀ id, wakesAbout e = some id → ¬ t.Dead id.parent := by
  intro ops t quiet
  have dead : t.Dead 1 := by decide
  have nudged : Effect.nudge 2 ⟨1, 1⟩ 0 true ∈ (t.tick 4).1 := by decide
  exact quiet _ nudged ⟨1, 1⟩ rfl dead

end Accounts

end AkumaMiot.TaskTable

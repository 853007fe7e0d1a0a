import AkumaMiot.Tasks.Dead
import AkumaMiot.Tasks.Directives
import AkumaMiot.Tasks.Ticking

/-!
# Every parent comes to its end

Leases and offers run out, after which a live parent always has a directive due, and the budget of
directives runs out too. So a table that is ticked at every block has no live parent left after
the sum of these.
-/
namespace AkumaMiot.TaskTable

variable {A : Type}

/-! ## Deadlines of a reachable table -/

/-- The deadline a sub-task has that was last touched at block `n` or before. -/
def Deadlined (cfg : Config) (n : Nat) (r : Task A) : Prop :=
  match r.status with
  | .inProgress => ∃ deadline : Nat, r.leaseUntil = some deadline ∧ deadline ≤ n + cfg.timers.lease
  | .pending => ∃ offered : Nat, r.offeredAt = some offered ∧ offered ≤ n
  | .awaitingClearance | .cleared => True
  | _ => False

/-- A parent asks for its next directive soon, and a sub-task has its deadline. -/
def Timely (cfg : Config) (n : Nat) (r : Task A) : Prop :=
  if r.isParent then (r.nextDirective : Nat) ≤ n + cfg.timers.directiveNag else Deadlined cfg n r

/-- An effect that opens, plans, closes or fails is about a parent. -/
def Proper : Effect A → Prop
  | .opened _ id _ | .planned _ id _ | .closed id _ _ _ | .failed id => id.isParent = true
  | _ => True

/-- A row of a parent is only asked for its next directive. -/
theorem Timely.of_parent {cfg : Config} {n : Nat} {r : Task A} (parent : r.isParent = true)
    (next : (r.nextDirective : Nat) ≤ n + cfg.timers.directiveNag) : Timely cfg n r := by
  rw [Timely, if_pos parent]
  exact next

theorem Timely.next {cfg : Config} {n : Nat} {r : Task A} (timely : Timely cfg n r)
    (parent : r.isParent = true) :
    (r.nextDirective : Nat) ≤ n + cfg.timers.directiveNag := by
  rw [Timely, if_pos parent] at timely
  exact timely

theorem Timely.sub {cfg : Config} {n : Nat} {r : Task A} (timely : Timely cfg n r)
    (sub : r.isParent = false) : Deadlined cfg n r := by
  rw [Timely, if_neg (by simp [sub])] at timely
  exact timely

/-- A rewrite that sets no later directive, and gives a sub-task its deadline. -/
theorem Timely.rewrite {cfg : Config} {n : Nat} {r r' : Task A} (timely : Timely cfg n r)
    (id : r'.id = r.id)
    (next : r'.nextDirective = r.nextDirective ∨
      (r'.nextDirective : Nat) ≤ n + cfg.timers.directiveNag)
    (sub : r.isParent = false → Deadlined cfg n r') : Timely cfg n r' := by
  have kind : r'.isParent = r.isParent := by rw [Task.isParent, Task.isParent, id]
  by_cases parent : r.isParent = true
  · refine .of_parent (kind.trans parent) ?_
    rcases next with same | soon
    · rw [same]
      exact timely.next parent
    · exact soon
  · rw [Timely, if_neg (by rw [kind]; exact parent)]
    exact sub (by simpa using parent)

theorem Timely.later {cfg : Config} {n m : Nat} {r : Task A} (timely : Timely cfg n r)
    (le : n ≤ m) : Timely cfg m r := by
  by_cases parent : r.isParent = true
  · exact .of_parent parent (Nat.le_trans (timely.next parent) (Nat.add_le_add_right le _))
  · have old := timely.sub (by simpa using parent)
    rw [Timely, if_neg parent]
    unfold Deadlined at old ⊢
    cases status : r.status <;> simp only [status] at old ⊢
    · obtain ⟨offered, known, soon⟩ := old
      exact ⟨offered, known, by omega⟩
    · obtain ⟨deadline, known, soon⟩ := old
      exact ⟨deadline, known, by omega⟩

/-- The rows that are left once a row has been rewritten. -/
theorem updateTask_timely {t : TaskTable A} {n : Nat} (timely : ∀ r ∈ t.tasks, Timely t.cfg n r)
    (id : TaskId) (f : Task A → Task A)
    (rewrites : ∀ r ∈ t.tasks, r.id = id → Timely t.cfg n r → Timely t.cfg n (f r)) :
    ∀ r ∈ (t.updateTask id f).tasks, Timely t.cfg n r := by
  intro r present
  rcases KeyedList.mem_update Task.id present with old | ⟨x, there, hit, rfl⟩
  · exact timely r old
  · exact rewrites x there hit (timely x there)

/-- A row that has just been offered. -/
theorem Timely.pending {cfg : Config} {n now : Nat} (soon : now ≤ n) {r : Task A}
    (status : r.status = .pending) (offered : r.offeredAt = some now)
    (next : r.isParent = true → (r.nextDirective : Nat) ≤ n + cfg.timers.directiveNag) :
    Timely cfg n r := by
  by_cases kind : r.isParent = true
  · exact .of_parent kind (next kind)
  · rw [Timely, if_neg kind, Deadlined, status]
    exact ⟨now, offered, soon⟩

theorem apply_timely {t : TaskTable A} {n now : Nat} (soon : now ≤ n)
    (timely : ∀ r ∈ t.tasks, Timely t.cfg n r) {e : Effect A} (proper : Proper e) :
    ∀ r ∈ (t.apply e now).tasks, Timely t.cfg n r := by
  have soonest : now ≤ n + t.cfg.timers.directiveNag := Nat.le_trans soon (Nat.le_add_right _ _)
  have pushed : ∀ {u : TaskTable A} {x : Task A}, u.tasks = t.tasks → Timely t.cfg n x →
      ∀ r ∈ (u.pushTask x).tasks, Timely t.cfg n r := by
    intro u x same new r present
    rcases List.mem_append.mp present with old | last
    · exact timely r (same ▸ old)
    · rw [List.mem_singleton.mp last]
      exact new
  have ends : ∀ {r r' : Task A} {id : TaskId}, id.isParent = true → r.id = id →
      r'.isParent = r.isParent → r'.nextDirective = r.nextDirective → Timely t.cfg n r →
      Timely t.cfg n r' := by
    intro r r' id proper hit kind next timely
    have parent : r.isParent = true := by rw [Task.isParent, hit]; exact proper
    exact .of_parent (kind.trans parent) (next ▸ timely.next parent)
  cases e with
  | opened who task text =>
    have parent : (Task.ofOpened who task text now).isParent = true := proper
    exact pushed (u := { t with nextParent := max t.nextParent (u32Succ task.parent) }) rfl
      (.of_parent parent (Nat.le_trans soon (Nat.le_add_right _ _)))
  | planned who task count =>
    refine updateTask_timely timely task _ fun r _ hit _ => ?_
    have parent : r.isParent = true := by rw [Task.isParent, hit]; exact proper
    refine .of_parent parent (Nat.le_trans (Nat.min_le_left _ _) (Nat.add_le_add_right soon _))
  | assigned to_ task what expect =>
    simp only [apply]
    split
    · refine updateTask_timely timely task _ fun r _ _ timely => ?_
      exact .pending soon rfl rfl timely.next
    · refine pushed rfl (.pending soon rfl rfl fun _ => ?_)
      exact Nat.le_trans soon (Nat.le_add_right _ _)
  | directed to_ task d =>
    simp only [apply]
    split
    · intro r present
      obtain ⟨x, there, rfl⟩ := List.mem_map.mp present
      by_cases kind : x.isParent = true
      · rw [if_pos kind]
        exact .of_parent kind (Nat.le_trans soon (Nat.le_add_right _ _))
      · rw [if_neg kind]
        exact timely x there
    · refine updateTask_timely timely task _ fun r _ _ timely => ?_
      refine timely.rewrite rfl (.inr ?_) fun sub => ?_
      · exact Nat.le_trans (Nat.min_le_left _ _) (Nat.add_le_add_right soon _)
      · exact timely.sub sub
  | nudge to_ task remaining last =>
    refine updateTask_timely timely task _ fun r _ _ timely => ?_
    exact timely.rewrite rfl (.inl rfl) fun sub => timely.sub sub
  | nudgeBudgetSpent holder task =>
    refine updateTask_timely timely task _ fun r _ _ timely => ?_
    exact timely.rewrite rfl (.inl rfl) fun sub => timely.sub sub
  | rehomed task old to_ =>
    refine updateTask_timely timely task _ fun r _ _ timely => ?_
    exact .pending soon rfl rfl timely.next
  | record who task act text =>
    -- Every result and every clearance makes the parent ask again at once.
    have asked : ∀ {u : TaskTable A}, u.cfg = t.cfg → (∀ r ∈ u.tasks, Timely u.cfg n r) →
        ∀ id, ∀ r ∈ (u.updateTask id fun p => { p with
          nextDirective := now
          directiveNudgesUsed := 0 }).tasks, Timely t.cfg n r := by
      intro u cfg timely id
      rw [← cfg]
      refine updateTask_timely timely id _ fun r _ _ timely => ?_
      exact timely.rewrite rfl (.inr (cfg ▸ soonest)) fun sub => timely.sub sub
    cases act with
    | claim =>
      refine updateTask_timely timely task _ fun r _ _ timely => ?_
      refine timely.rewrite rfl (.inl rfl) fun _ => ⟨_, rfl, ?_⟩
      exact Nat.le_trans (Nat.min_le_left _ _) (Nat.add_le_add_right soon _)
    | done | failed | clear =>
      refine asked (u := t.updateTask task _) rfl ?_ task.parentId
      refine updateTask_timely timely task _ fun r _ _ timely => ?_
      exact timely.rewrite rfl (.inl rfl) fun _ => trivial
    | reopen =>
      refine updateTask_timely timely task _ fun r _ _ timely => ?_
      exact .pending soon rfl rfl timely.next
    | artifact => exact timely
  | requeued task holder why =>
    cases why with
    | unclaimed =>
      refine updateTask_timely timely task _ fun r _ _ timely => ?_
      refine timely.rewrite rfl (.inl rfl) fun sub => ?_
      have old := timely.sub sub
      unfold Deadlined at old ⊢
      cases status : r.status <;> simp only [status] at old ⊢
      · exact ⟨now, rfl, soon⟩
      · exact old
    | leaseExpired =>
      refine updateTask_timely timely task _ fun r _ _ timely => ?_
      exact .pending soon rfl rfl timely.next
    | rehomed | reopened => exact timely
  | closed task title body author =>
    refine updateTask_timely (t := { t with
      artifacts := t.artifacts ++ [(task.parentId, ⟨title, body, author, now⟩)] }) timely task _ ?_
    exact fun r _ hit timely => ends proper hit rfl rfl timely
  | failed task =>
    exact updateTask_timely timely task _ fun r _ hit timely => ends proper hit rfl rfl timely
  | _ => exact timely

theorem applyAll_timely {t : TaskTable A} {n now : Nat} (soon : now ≤ n)
    (timely : ∀ r ∈ t.tasks, Timely t.cfg n r) {es : List (Effect A)}
    (proper : ∀ e ∈ es, Proper e) : ∀ r ∈ (t.applyAll es now).tasks, Timely t.cfg n r := by
  induction es generalizing t with
  | nil => exact timely
  | cons e es ih =>
    have first := apply_timely soon timely (proper e (by simp))
    have rest := ih (t := t.apply e now) (by rw [apply_cfg]; exact first) fun e' member =>
      proper e' (by simp [member])
    rw [apply_cfg] at rest
    exact rest

/-! ## Planned parents have sub-tasks -/

/-- There is a sub-task of every parent that is planned. -/
def Staffed (t : TaskTable A) : Prop :=
  ∀ p ∈ t.tasks, p.isParent = true → p.status = .planned →
    ∃ id ∈ t.ids, id.isParent = false ∧ id.parent = p.id.parent

/-- A planned row was planned before, unless a plan has just been accepted for it. -/
theorem apply_planned {t : TaskTable A} {e : Effect A} {now : BlockNumber} {p : Task A}
    (present : p ∈ (t.apply e now).tasks) (planned : p.status = .planned) :
    (∃ q ∈ t.tasks, q.id = p.id ∧ q.status = .planned) ∨
      ∃ who count, e = .planned who p.id count := by
  have updated : ∀ {u : TaskTable A} {id : TaskId} {f : Task A → Task A},
      p ∈ (u.updateTask id f).tasks → u.tasks = t.tasks → (∀ r, (f r).id = r.id) →
      (∀ r, (f r).status = .planned → r.status = .planned) →
      ∃ q ∈ t.tasks, q.id = p.id ∧ q.status = .planned := by
    intro u id f there same keeps status
    rcases KeyedList.mem_update Task.id there with old | ⟨x, old, _, rfl⟩
    · exact ⟨p, same ▸ old, rfl, planned⟩
    · exact ⟨x, same ▸ old, (keeps x).symm, status x planned⟩
  have pushed : ∀ {u : TaskTable A} {r : Task A}, p ∈ (u.pushTask r).tasks → u.tasks = t.tasks →
      r.status ≠ .planned → ∃ q ∈ t.tasks, q.id = p.id ∧ q.status = .planned := by
    intro u r there same status
    rcases List.mem_append.mp there with old | last
    · exact ⟨p, same ▸ old, rfl, planned⟩
    · rw [List.mem_singleton.mp last] at planned
      exact absurd planned status
  cases e with
  | opened who task text => exact .inl (pushed present rfl (by simp [Task.ofOpened]))
  | planned who task count =>
    rcases KeyedList.mem_update Task.id present with old | ⟨x, _, hit, rfl⟩
    · exact .inl ⟨p, old, rfl, planned⟩
    · exact .inr ⟨who, count, by rw [← hit]⟩
  | assigned to_ task what expect =>
    refine .inl ?_
    simp only [apply] at present
    split at present
    · exact updated present rfl (fun _ => rfl) fun _ status => by cases status
    · exact pushed present rfl (by simp [Task.ofAssigned])
  | directed to_ task d =>
    refine .inl ?_
    simp only [apply] at present
    split at present
    · obtain ⟨x, there, rfl⟩ := List.mem_map.mp present
      refine ⟨x, there, ?_, ?_⟩
      · split <;> rfl
      · split at planned <;> exact planned
    · exact updated present rfl (fun _ => rfl) fun _ status => status
  | record who task act text =>
    refine .inl ?_
    cases act with
    | claim | reopen => exact updated present rfl (fun _ => rfl) fun _ status => by cases status
    | done | failed | clear =>
      -- The result's row is no longer planned, and the parent's status stays.
      rcases KeyedList.mem_update Task.id present with old | ⟨x, there, _, rfl⟩
      · exact updated old rfl (fun _ => rfl) fun _ status => by cases status
      · rcases KeyedList.mem_update Task.id there with old | ⟨y, _, _, rfl⟩
        · exact ⟨x, old, rfl, planned⟩
        · cases planned
    | artifact => exact ⟨p, present, rfl, planned⟩
  | requeued task holder why =>
    refine .inl ?_
    cases why with
    | unclaimed => exact updated present rfl (fun _ => rfl) fun _ status => status
    | leaseExpired => exact updated present rfl (fun _ => rfl) fun _ status => by cases status
    | rehomed | reopened => exact ⟨p, present, rfl, planned⟩
  | rehomed task old to_ =>
    exact .inl (updated present rfl (fun _ => rfl) fun _ status => by cases status)
  | closed task title body author =>
    exact .inl (updated present rfl (fun _ => rfl) fun _ status => by cases status)
  | failed task => exact .inl (updated present rfl (fun _ => rfl) fun _ status => by cases status)
  | nudge to_ task remaining last =>
    exact .inl (updated present rfl (fun _ => rfl) fun _ status => status)
  | nudgeBudgetSpent holder task =>
    exact .inl (updated present rfl (fun _ => rfl) fun _ status => status)
  | _ => exact .inl ⟨p, present, rfl, planned⟩

theorem applyAll_planned {t : TaskTable A} {es : List (Effect A)} {now : BlockNumber} {p : Task A}
    (present : p ∈ (t.applyAll es now).tasks) (planned : p.status = .planned) :
    (∃ q ∈ t.tasks, q.id = p.id ∧ q.status = .planned) ∨
      ∃ who count, .planned who p.id count ∈ es := by
  induction es generalizing t with
  | nil => exact .inl ⟨p, present, rfl, planned⟩
  | cons e es ih =>
    rcases ih present with ⟨q, there, same, status⟩ | ⟨who, count, member⟩
    · rcases apply_planned there status with ⟨q', old, same', status'⟩ | ⟨who, count, rfl⟩
      · exact .inl ⟨q', old, same'.trans same, status'⟩
      · exact .inr ⟨who, count, by rw [same]; simp⟩
    · exact .inr ⟨who, count, by simp [member]⟩

/-- Folding drops no id. -/
theorem applyAll_grows (t : TaskTable A) (es : List (Effect A)) (now : BlockNumber) :
    t.ids ⊆ (t.applyAll es now).ids := by
  induction es generalizing t with
  | nil => exact List.Subset.refl _
  | cons e es ih =>
    refine List.Subset.trans ?_ (ih (t.apply e now))
    rcases t.apply_ids e now with same | ⟨_, _, _, added⟩
    · rw [same]
      exact List.Subset.refl _
    · rw [added]
      exact List.subset_append_left _ _

/-- What is assigned is there afterwards. -/
theorem applyAll_assigned {t : TaskTable A} {es : List (Effect A)} {now : BlockNumber} {to_ : A}
    {id : TaskId} {what expect : String} (member : .assigned to_ id what expect ∈ es) :
    id ∈ (t.applyAll es now).ids := by
  induction es generalizing t with
  | nil => cases member
  | cons e es ih =>
    rcases List.mem_cons.mp member with rfl | later
    · refine applyAll_grows _ es now ?_
      simp only [apply]
      split
      next found =>
        rw [updateTask_ids]
        · by_contra absent
          simp [get_eq_none.mpr absent] at found
        · exact fun _ => rfl
      · rw [pushTask_ids]
        simp [Task.ofAssigned]
    · exact ih later

theorem Staffed.applyAll {t : TaskTable A} (staffed : t.Staffed) {es : List (Effect A)}
    (now : BlockNumber) (plans : ∀ who id count, .planned who id count ∈ es →
      ∃ sub ∈ (t.applyAll es now).ids, sub.isParent = false ∧ sub.parent = id.parent) :
    (t.applyAll es now).Staffed := by
  intro p present parent planned
  rcases applyAll_planned present planned with ⟨q, there, same, status⟩ | ⟨who, count, member⟩
  · obtain ⟨id, old, sub, number⟩ :=
      staffed q there (by rw [Task.isParent, same]; exact parent) status
    exact ⟨id, t.applyAll_grows es now old, sub, by rw [number, same]⟩
  · exact plans who p.id count member

/-- A parent is swept with its sub-tasks. -/
theorem Staffed.sweep {t : TaskTable A} (staffed : t.Staffed) (gone : List Nat) :
    (t.sweep gone).Staffed := by
  intro p present parent planned
  obtain ⟨old, kept⟩ := List.mem_filter.mp present
  obtain ⟨id, there, sub, number⟩ := staffed p old parent planned
  obtain ⟨r, row, rfl⟩ := List.mem_map.mp there
  refine ⟨r.id, List.mem_map_of_mem (List.mem_filter.mpr ⟨row, ?_⟩), sub, number⟩
  rw [number]
  exact kept

/-! ## Every operation -/

/-- Whatever happened so far happened at block `n` or before. -/
structure Timed (n : Nat) (t : TaskTable A) : Prop where
  timely : ∀ r ∈ t.tasks, Timely t.cfg n r
  staffed : t.Staffed

theorem Timed.sweep {n : Nat} {t : TaskTable A} (timed : t.Timed n) (gone : List Nat) :
    (t.sweep gone).Timed n :=
  ⟨fun r present => timed.timely r (List.mem_filter.mp present).1, timed.staffed.sweep gone⟩

theorem Timed.applyAll {n now : Nat} (soon : now ≤ n) {t : TaskTable A} (timed : t.Timed n)
    {es : List (Effect A)} (proper : ∀ e ∈ es, Proper e)
    (plans : ∀ who id count, .planned who id count ∈ es →
      ∃ sub ∈ (t.applyAll es now).ids, sub.isParent = false ∧ sub.parent = id.parent) :
    (t.applyAll es now).Timed n := by
  refine ⟨fun r present => ?_, timed.staffed.applyAll now plans⟩
  rw [applyAll_cfg]
  exact applyAll_timely soon timed.timely proper r present

section Accounts

variable [DecidableEq A]

/-- No call opens, plans, closes or fails what is no parent. -/
theorem call_proper {t : TaskTable A} {c : Call A} {now : BlockNumber} :
    ∀ e ∈ returned (t.call c now).1, Proper e := by
  intro e member
  have answers := call_answers _ _ _ e member
  cases answers with
  | opened who auth text id =>
    rcases t.openParent_cases who auth text now with ⟨_, left⟩ | ⟨_, _, left⟩
    · simp [call, left, returned, Except.map] at member
    · simp only [call, left, returned, Except.map, List.mem_singleton] at member
      cases member
      rfl
  | planned who auth parent items count =>
    rcases t.plan_cases who auth parent items now with ⟨_, left⟩ | ⟨_, kind, _⟩
    · simp [call, left, returned] at member
    · exact kind
  | closed who auth id text title =>
    rcases t.commitArtifact_cases who auth id text now with ⟨_, left⟩ | ⟨_, _, _, kind, _⟩
    · simp [call, update, left, returned] at member
    · exact kind
  | failed id => exact (tick_failed member).1
  | row id e row => cases row <;> trivial
  | _ => trivial

/-- A plan assigns its first line. -/
theorem plan_staffs {t : TaskTable A} {c : Call A} {now : BlockNumber} {who : A} {id : TaskId}
    {count : Nat} (member : .planned who id count ∈ returned (t.call c now).1) :
    ∃ sub ∈ (t.applyAll (returned (t.call c now).1) now).ids,
      sub.isParent = false ∧ sub.parent = id.parent := by
  cases call_answers _ _ _ _ member with
  | planned who auth parent items count =>
    rcases t.plan_cases who auth id items now with ⟨_, left⟩ | ⟨_, _, some_, _, _, _, left⟩
    · simp [call, left, returned] at member
    · obtain ⟨item, rest, rfl⟩ := List.exists_cons_of_ne_nil some_
      refine ⟨⟨id.parent, 1⟩, ?_, rfl, rfl⟩
      have first : .assigned item.who ⟨id.parent, 1⟩ item.what item.expect ∈
          returned (t.call (.plan who auth id (item :: rest)) now).1 := by
        simp [call, left, accept, returned, planOffers]
      exact applyAll_assigned first
  | row id e row => cases row

theorem step_timed {n now : Nat} (soon : now ≤ n) {t : TaskTable A} (timed : t.Timed n)
    (op : Op A) : (t.step op now).Timed n := by
  cases op with
  | call c =>
    rw [step, t.call_folds c now]
    exact timed.applyAll soon call_proper fun who id count => plan_staffs
  | gc keepFor =>
    rw [step, gc_eq_sweep]
    exact timed.sweep _
  | clearAll auth =>
    simp only [step, clearAll]
    split
    · exact timed
    · rw [gc_eq_sweep]
      refine Timed.sweep (timed.applyAll soon (fun e member => ?_) fun who id count member => ?_) _
      · simp only [List.mem_map, List.mem_filter, Bool.and_eq_true] at member
        obtain ⟨_, ⟨r, ⟨_, parent, _⟩, rfl⟩, rfl⟩ := member
        exact parent
      · simp at member

theorem run_timed {n : Nat} {t : TaskTable A} (timed : t.Timed n) {ops : List (Op A × BlockNumber)}
    (soon : ∀ op ∈ ops, (op.2 : Nat) ≤ n) : (t.run ops).Timed n := by
  have meets : Machine.Meets next (fun _ op => (op.2 : Nat) ≤ n) t ops :=
    Machine.meets_of_forall soon
  exact Machine.run_invariant (fun t : TaskTable A => t.Timed n)
    (fun _ op timed soon => step_timed soon timed op.1) timed meets

end Accounts

/-! ## Sub-tasks come to rest -/

/-- The block by which a table that was left alone at block `n` has no offer open any more. -/
def restsBy (cfg : Config) (n : Nat) : Nat :=
  n + cfg.timers.lease + cfg.timers.maxReoffers * cfg.timers.claimWindow

/-- The source's timers do something. -/
structure Positive (cfg : Config) : Prop where
  lease : 1 ≤ cfg.timers.lease
  claimWindow : 1 ≤ cfg.timers.claimWindow
  directiveNag : 1 ≤ cfg.timers.directiveNag

/-- At block `b`, after a tick at every block since `n`: a lease or an offer has not run out, and
when it does the offers that are left fit. -/
structure Expiring (cfg : Config) (n b : Nat) (r : Task A) : Prop where
  lease : r.status = .inProgress → ∃ deadline : Nat, r.leaseUntil = some deadline ∧
    (b = n ∨ b < deadline) ∧
    deadline + (cfg.timers.maxReoffers - r.reoffers) * cfg.timers.claimWindow ≤ restsBy cfg n
  offer : r.status = .pending → r.reoffers < cfg.timers.maxReoffers →
    ∃ offered : Nat, r.offeredAt = some offered ∧
    (b = n ∨ b < u32SaturatingAdd offered cfg.timers.claimWindow) ∧
    offered + (cfg.timers.maxReoffers - r.reoffers) * cfg.timers.claimWindow ≤ restsBy cfg n

theorem Deadlined.expiring {cfg : Config} {n : Nat} {r : Task A} (deadlined : Deadlined cfg n r) :
    Expiring cfg n n r := by
  have offers : (cfg.timers.maxReoffers - r.reoffers) * cfg.timers.claimWindow ≤
      cfg.timers.maxReoffers * cfg.timers.claimWindow := Nat.mul_le_mul_right _ (Nat.sub_le _ _)
  unfold Deadlined at deadlined
  refine ⟨fun status => ?_, fun status _ => ?_⟩ <;> rw [status] at deadlined
  · obtain ⟨deadline, known, soon⟩ := deadlined
    refine ⟨deadline, known, .inl rfl, ?_⟩
    unfold restsBy
    omega
  · obtain ⟨offered, known, soon⟩ := deadlined
    refine ⟨offered, known, .inl rfl, ?_⟩
    unfold restsBy
    omega

/-- A new offer, made when the last one or the lease ran out. -/
theorem Expiring.offered {cfg : Config} (positive : Positive cfg) {n b : Nat}
    (room : restsBy cfg n < 2 ^ 32) {r : Task A} (status : r.status = .pending)
    (known : r.offeredAt = some (b + 1))
    (fits : b + 1 + (cfg.timers.maxReoffers - r.reoffers) * cfg.timers.claimWindow ≤ restsBy cfg n) :
    Expiring cfg n (b + 1) r := by
  refine ⟨fun working => (by simp [status] at working), fun _ left => ⟨b + 1, known, .inr ?_, fits⟩⟩
  have window := positive.claimWindow
  have one : cfg.timers.claimWindow ≤
      (cfg.timers.maxReoffers - r.reoffers) * cfg.timers.claimWindow :=
    Nat.le_mul_of_pos_left _ (by omega)
  unfold u32SaturatingAdd
  omega

/-- One tick later. -/
theorem Expiring.advance {cfg : Config} (bytes : Bytes cfg) (positive : Positive cfg) {n b : Nat}
    (room : restsBy cfg n < 2 ^ 32) {r : Task A} (expiring : Expiring cfg n b r) :
    Expiring cfg n (b + 1) (advance cfg (b + 1) r) := by
  have lease := positive.lease
  have window := positive.claimWindow
  have small := bytes.reoffers
  have kept : ∀ {r' : Task A}, r'.status = r.status → r'.leaseUntil = r.leaseUntil →
      r'.reoffers = r.reoffers → r.status = .inProgress → leaseExpired r (b + 1) = false →
      Expiring cfg n (b + 1) r' := by
    intro r' status until_ reoffers working holding
    obtain ⟨deadline, known, _, fits⟩ := expiring.lease working
    refine ⟨fun _ => ⟨deadline, until_.trans known, .inr ?_, by rw [reoffers]; exact fits⟩,
      fun pending => ?_⟩
    · simp only [leaseExpired, known, Option.any_some, decide_eq_false_iff_not] at holding
      exact Nat.lt_of_not_le holding
    · rw [status, working] at pending
      cases pending
  rcases advance_cases cfg (b + 1) r with ⟨silent, same⟩ | ⟨status, expired, _, moved⟩ |
    ⟨status, holding, _, _, moved⟩ | ⟨status, holding, _, _, moved⟩ | ⟨status, lapsed, _, moved⟩
  · rw [same]
    refine ⟨fun working => ?_, fun pending left => ?_⟩
    · refine (kept rfl rfl rfl working ?_).lease working
      rw [Bool.eq_false_iff]
      intro expired
      simp [subtaskEffects, working, expired] at silent
    · obtain ⟨offered, known, _, fits⟩ := expiring.offer pending left
      refine ⟨offered, known, .inr ?_, fits⟩
      by_contra past
      have lapsed : offerLapsed cfg r (b + 1) = true := by
        simp only [offerLapsed, known, Option.any_some, Bool.and_eq_true, decide_eq_true_eq]
        exact ⟨left, by omega⟩
      simp [subtaskEffects, pending, lapsed] at silent
  · obtain ⟨deadline, known, ahead, fits⟩ := expiring.lease status
    rw [moved]
    refine .offered positive room rfl rfl ?_
    simp only [leaseExpired, known, Option.any_some, decide_eq_true_eq] at expired
    have offers : (cfg.timers.maxReoffers - r.reoffers) * cfg.timers.claimWindow ≤
        cfg.timers.maxReoffers * cfg.timers.claimWindow := Nat.mul_le_mul_right _ (Nat.sub_le _ _)
    unfold restsBy at fits ⊢
    dsimp only
    omega
  · exact moved ▸ kept rfl rfl rfl status holding
  · exact moved ▸ kept rfl rfl rfl status holding
  · simp only [offerLapsed, Bool.and_eq_true, decide_eq_true_eq] at lapsed
    obtain ⟨left, lapsed⟩ := lapsed
    obtain ⟨offered, known, ahead, fits⟩ := expiring.offer status left
    simp only [known, Option.any_some, decide_eq_true_eq] at lapsed
    rw [moved]
    refine .offered positive room status rfl ?_
    -- One offer fewer is left, and its window has passed.
    have one : (cfg.timers.maxReoffers - r.reoffers) * cfg.timers.claimWindow =
        (cfg.timers.maxReoffers - (r.reoffers + 1)) * cfg.timers.claimWindow +
          cfg.timers.claimWindow := by
      rw [← Nat.succ_mul]
      congr 1
      omega
    have offers : (cfg.timers.maxReoffers - (r.reoffers + 1)) * cfg.timers.claimWindow ≤
        cfg.timers.maxReoffers * cfg.timers.claimWindow := Nat.mul_le_mul_right _ (Nat.sub_le _ _)
    have count : u8SaturatingAdd r.reoffers 1 = r.reoffers + 1 := by
      unfold u8SaturatingAdd
      omega
    unfold u32SaturatingAdd at lapsed ahead
    unfold restsBy at fits room ⊢
    dsimp only
    rw [count]
    omega

theorem Expiring.settled {cfg : Config} (positive : Positive cfg) {n m b : Nat}
    (late : restsBy cfg n ≤ b) {r : Task A} (expiring : Expiring cfg n b r)
    (deadlined : Deadlined cfg m r) : Settled cfg r := by
  have lease := positive.lease
  unfold Deadlined at deadlined
  unfold restsBy at late
  cases status : r.status <;> simp only [status] at deadlined
  · refine .inr (.inr ⟨status, ?_⟩)
    by_contra left
    obtain ⟨offered, _, ahead, fits⟩ := expiring.offer status (by omega)
    have one : cfg.timers.claimWindow ≤
        (cfg.timers.maxReoffers - r.reoffers) * cfg.timers.claimWindow :=
      Nat.le_mul_of_pos_left _ (by omega)
    unfold restsBy at fits
    unfold u32SaturatingAdd at ahead
    omega
  · obtain ⟨deadline, _, ahead, fits⟩ := expiring.lease status
    unfold restsBy at fits
    omega
  · exact .inl status
  · exact .inr (.inl status)

/-! ## Parents come to their end -/

/-- The block by which every directive that can still be sent has been sent. -/
def endsBy (cfg : Config) (n : Nat) : Nat :=
  restsBy cfg n + (cfg.timers.maxDirectiveNudges + 1) * cfg.timers.directiveNag

/-- At block `b`, once the sub-tasks are at rest: a live parent's next directive is ahead, and the
directives that are left fit. -/
def Running (cfg : Config) (n b : Nat) (r : Task A) : Prop :=
  r.status = .opened ∨ r.status = .planned → restsBy cfg n ≤ b →
    b < r.nextDirective ∧ (r.nextDirective : Nat) +
      (cfg.timers.maxDirectiveNudges - r.directiveNudgesUsed) * cfg.timers.directiveNag ≤
        endsBy cfg n

/-- A live parent whose sub-tasks are at rest has something to ask. -/
theorem directiveFor_settled {t : TaskTable A} {p : Task A}
    (live : p.status = .opened ∨ p.status = .planned)
    (staffed : p.status = .planned → ∃ r, r ∈ t.subtasks p.id)
    (settled : ∀ r ∈ t.subtasks p.id, Settled t.cfg r) : (t.directiveFor p).isSome = true := by
  rcases live with opened | planned
  · simp [directiveFor, opened]
  · obtain ⟨r, member⟩ := staffed planned
    have some_ : (t.subtasks p.id).isEmpty = false := by
      cases subs : t.subtasks p.id with
      | nil => rw [subs] at member; cases member
      | cons x xs => rfl
    simp only [directiveFor, planned, some_, Bool.false_eq_true, if_false]
    split
    · rfl
    next unspent =>
      split
      · rfl
      next awaited =>
        -- What is neither spent nor awaiting is cleared.
        have cleared : (t.subtasks p.id).all Task.isCleared = true := by
          refine List.all_eq_true.mpr fun r member => ?_
          rcases settled r member with awaiting | cleared | ⟨pending, spent⟩
          · exact absurd (List.any_eq_true.mpr ⟨r, member, by simp [awaiting]⟩) awaited
          · simp [Task.isCleared, cleared]
          · exact absurd (List.any_eq_true.mpr ⟨r, member, by simp [pending, spent]⟩) unspent
        rw [if_pos cleared]
        rfl

/-- One tick later. -/
theorem Running.decided {t : TaskTable A} (bytes : Bytes t.cfg) (positive : Positive t.cfg)
    {n b : Nat} (room : endsBy t.cfg n < 2 ^ 32) {p : Task A} (parent : p.isParent = true)
    (next : (p.nextDirective : Nat) ≤ b + t.cfg.timers.directiveNag)
    (running : Running t.cfg n b p)
    (asks : restsBy t.cfg n ≤ b + 1 → p.status = .opened ∨ p.status = .planned →
      (t.directiveFor p).isSome = true) :
    Running t.cfg n (b + 1) (t.decided (b + 1) p) := by
  have small := bytes.directives
  have nag := positive.directiveNag
  intro live late
  have budget : (t.cfg.timers.maxDirectiveNudges - p.directiveNudgesUsed) *
      t.cfg.timers.directiveNag ≤
      t.cfg.timers.maxDirectiveNudges * t.cfg.timers.directiveNag :=
    Nat.mul_le_mul_right _ (Nat.sub_le _ _)
  have whole : (t.cfg.timers.maxDirectiveNudges + 1) * t.cfg.timers.directiveNag =
      t.cfg.timers.maxDirectiveNudges * t.cfg.timers.directiveNag + t.cfg.timers.directiveNag :=
    Nat.succ_mul _ _
  unfold TaskTable.decided at live ⊢
  cases asked : t.asked (b + 1) p with
  | none =>
    rw [asked] at live
    dsimp only at live ⊢
    -- It has something to ask, so it is not time yet.
    have ahead : ¬ (p.nextDirective : Nat) ≤ b + 1 := by
      intro due
      rw [TaskTable.asked, if_pos (by simp [parent, due])] at asked
      have some_ := asks late live
      rw [asked] at some_
      cases some_
    refine ⟨Nat.lt_of_not_le ahead, ?_⟩
    by_cases first : restsBy t.cfg n ≤ b
    · exact (running live first).2
    · unfold endsBy
      simp only [BlockNumber] at next ⊢
      omega
  | some d =>
    rw [asked] at live
    dsimp only at live ⊢
    have due : (p.nextDirective : Nat) ≤ b + 1 := by
      unfold TaskTable.asked at asked
      split at asked
      next due =>
        simp only [parent, Bool.true_and, decide_eq_true_eq] at due
        exact due
      · cases asked
    by_cases spent : t.cfg.timers.maxDirectiveNudges ≤ p.directiveNudgesUsed
    · rw [if_pos spent] at live
      simp at live
    · rw [if_neg spent] at live ⊢
      dsimp only at live ⊢
      have one : (t.cfg.timers.maxDirectiveNudges - p.directiveNudgesUsed) *
          t.cfg.timers.directiveNag =
          (t.cfg.timers.maxDirectiveNudges - (p.directiveNudgesUsed + 1)) *
            t.cfg.timers.directiveNag + t.cfg.timers.directiveNag := by
        rw [← Nat.succ_mul]
        congr 1
        omega
      have count : u8SaturatingAdd p.directiveNudgesUsed 1 = p.directiveNudgesUsed + 1 := by
        unfold u8SaturatingAdd
        omega
      have fits : b + 1 + (t.cfg.timers.maxDirectiveNudges - p.directiveNudgesUsed) *
          t.cfg.timers.directiveNag ≤ endsBy t.cfg n := by
        by_cases first : restsBy t.cfg n ≤ b
        · have old := running live first
          simp only [BlockNumber] at old due
          omega
        · unfold endsBy
          omega
      rw [count]
      unfold u32SaturatingAdd
      simp only [BlockNumber]
      omega

/-! ## A table that is only ticked -/

/-- How a table that was left alone at block `n` stands at block `b`. -/
structure Waning (n b : Nat) (t : TaskTable A) : Prop where
  timed : t.Timed b
  distinct : t.ids.Nodup
  led : t.leader.isSome = true
  subs : ∀ r ∈ t.tasks, r.isParent = false → Expiring t.cfg n b r
  parents : ∀ r ∈ t.tasks, r.isParent = true → Running t.cfg n b r

theorem Timed.waning {n : Nat} {t : TaskTable A} (positive : Positive t.cfg) (timed : t.Timed n)
    (distinct : t.ids.Nodup) (led : t.leader.isSome = true) : t.Waning n n where
  timed := timed
  distinct := distinct
  led := led
  subs r present sub := ((timed.timely r present).sub sub).expiring
  parents r _ _ _ late := by
    have lease := positive.lease
    unfold restsBy at late
    omega

/-- The two stages of a tick, as the rows see them. -/
theorem tick_tasks {t : TaskTable A} (distinct : t.ids.Nodup) (led : t.leader.isSome = true)
    (now : BlockNumber) : (t.tick now).2.tasks =
      (t.applyAll (t.stage1 now) now).tasks.map ((t.applyAll (t.stage1 now) now).decided now) := by
  have still : (t.applyAll (t.stage1 now) now).ids.Nodup := by
    rw [applyAll_ids fun e => stage1_known]
    exact distinct
  simp only [tick]
  split
  next none_ =>
    rw [stage1_leader] at none_
    simp [none_] at led
  next leader _ => exact stage2_tasks still leader now

theorem tick_leader (t : TaskTable A) (now : BlockNumber) : (t.tick now).2.leader = t.leader := by
  simp only [tick]
  split
  · exact t.stage1_leader now
  next leader _ =>
    rw [applyAll_leader, stage1_leader]
    rintro e member who task rfl
    obtain ⟨_, _, _, _, same | ⟨d, notElected, same⟩⟩ := stage2_cases member
    · cases same
    · cases same
      exact notElected rfl

/-- A tick at each of the `count` blocks after `n`. -/
def ticksAfter (n count : Nat) : List (Op A × BlockNumber) :=
  (List.range' (n + 1) count).map fun now => (.call .tick, now)

theorem ticksAfter_succ (n count : Nat) : (ticksAfter n (count + 1) : List (Op A × BlockNumber)) =
    ticksAfter n count ++ [(.call .tick, n + count + 1)] := by
  have last : n + 1 + 1 * count = n + count + 1 := by omega
  simp only [ticksAfter, List.range'_concat, List.map_append, List.map_cons, List.map_nil, last]

section Accounts

variable [DecidableEq A]

theorem Waning.tick {n b : Nat} {t : TaskTable A} (bytes : Bytes t.cfg) (positive : Positive t.cfg)
    (room : endsBy t.cfg n < 2 ^ 32) (waning : t.Waning n b) :
    (t.tick (b + 1)).2.Waning n (b + 1) := by
  let first := t.applyAll (t.stage1 (b + 1)) (b + 1)
  have cfg : first.cfg = t.cfg := applyAll_cfg _ _ _
  have rests : restsBy t.cfg n < 2 ^ 32 := by
    unfold endsBy at room
    omega
  have later : t.Timed (b + 1) :=
    ⟨fun r present => (waning.timed.timely r present).later (Nat.le_succ b), waning.timed.staffed⟩
  have stage1 : first.tasks = t.tasks.map fun r =>
      if r.isParent then r else advance t.cfg (b + 1) r := stage1_tasks waning.distinct (b + 1)
  have timed1 : first.Timed (b + 1) := by
    refine later.applyAll (Nat.le_refl _) (fun e member => ?_) fun who id count member => ?_
    · obtain ⟨r, _, _, effects⟩ := stage1_row member
      cases subtaskEffects_row effects <;> trivial
    · obtain ⟨r, _, _, effects⟩ := stage1_row member
      cases subtaskEffects_row effects
  have subs1 : ∀ r ∈ first.tasks, r.isParent = false → Expiring t.cfg n (b + 1) r := by
    intro r present sub
    rw [stage1] at present
    obtain ⟨x, there, rfl⟩ := List.mem_map.mp present
    by_cases kind : x.isParent = true
    · rw [if_pos kind, kind] at sub
      cases sub
    · rw [if_neg kind]
      exact (waning.subs x there (by simpa using kind)).advance bytes positive rests
  -- Once the sub-tasks are at rest, stage 2 finds every live parent with something to ask.
  have asks : ∀ p ∈ first.tasks, p.isParent = true → restsBy t.cfg n ≤ b + 1 →
      p.status = .opened ∨ p.status = .planned → (first.directiveFor p).isSome = true := by
    intro p present parent late live
    refine directiveFor_settled live (fun planned => ?_) fun r member => ?_
    · obtain ⟨id, there, sub, number⟩ := timed1.staffed p present parent planned
      obtain ⟨r, row, rfl⟩ := List.mem_map.mp there
      exact ⟨r, mem_subtasks.mpr ⟨row, number, sub⟩⟩
    · obtain ⟨row, _, sub⟩ := mem_subtasks.mp member
      rw [cfg]
      exact (subs1 r row sub).settled positive late (cfg ▸ (timed1.timely r row).sub sub)
  have tasks : (t.tick (b + 1)).2.tasks = first.tasks.map (first.decided (b + 1)) :=
    tick_tasks waning.distinct waning.led (b + 1)
  refine ⟨step_timed (Nat.le_refl _) later (.call .tick), ?_, ?_, fun r present sub => ?_,
    fun r present parent => ?_⟩
  · rw [tick_ids]
    exact waning.distinct
  · rw [tick_leader]
    exact waning.led
  · rw [tasks] at present
    obtain ⟨x, there, rfl⟩ := List.mem_map.mp present
    have kind : x.isParent = false := by
      rw [Task.isParent, decided_id] at sub
      exact sub
    have same : first.decided (b + 1) x = x := by simp [decided, asked, kind]
    rw [same, tick_cfg]
    exact subs1 x there kind
  · rw [tasks] at present
    obtain ⟨x, there, rfl⟩ := List.mem_map.mp present
    have kind : x.isParent = true := by
      rw [Task.isParent, decided_id] at parent
      exact parent
    have old : x ∈ t.tasks := by
      rw [stage1] at there
      obtain ⟨y, row, same⟩ := List.mem_map.mp there
      by_cases isParent : y.isParent = true
      · rw [if_pos isParent] at same
        exact same ▸ row
      · rw [if_neg isParent] at same
        rw [← same, Task.isParent, advance, foldl_onRow_id] at kind
        exact absurd kind isParent
    rw [tick_cfg, ← cfg]
    refine Running.decided (cfg ▸ bytes) (cfg ▸ positive) (cfg ▸ room) kind ?_ ?_ ?_
    · exact cfg ▸ (waning.timed.timely x old).next kind
    · exact cfg ▸ waning.parents x old kind
    · exact cfg ▸ asks x there kind

theorem Waning.run {n : Nat} {t : TaskTable A} (bytes : Bytes t.cfg) (positive : Positive t.cfg)
    (room : endsBy t.cfg n < 2 ^ 32) (waning : t.Waning n n) (count : Nat) :
    (t.run (ticksAfter n count)).Waning n (n + count) := by
  induction count with
  | zero => exact waning
  | succ count ih =>
    have same : (t.run (ticksAfter n count)).cfg = t.cfg := (run_frame t _).1
    rw [ticksAfter_succ, run_append]
    exact ih.tick (same ▸ bytes) (same ▸ positive) (same ▸ room)

/-- The ticks after which no parent is left open. -/
def span (cfg : Config) : Nat :=
  cfg.timers.lease + cfg.timers.maxReoffers * cfg.timers.claimWindow +
    (cfg.timers.maxDirectiveNudges + 2) * cfg.timers.directiveNag

/-- No parent of a table that was reached at blocks up to `n` and has a leader is still open once it
was ticked at every block of the span after `n`, as long as every new parent got a number of its own
and the blocks do not run out. -/
theorem ended_run (cfg : Config) (root : Option A) (ops : List (Op A × BlockNumber)) (n : Nat)
    (bytes : Bytes cfg) (positive : Positive cfg) (blocks : ∀ op ∈ ops, (op.2 : Nat) ≤ n)
    (fresh : Machine.Meets next (fun t op => t.Fresh op.1 op.2) (new cfg root) ops)
    (room : n + span cfg < 2 ^ 32) (led : ((new cfg root).run ops).leader.isSome = true) :
    ∀ r ∈ ((new cfg root).run (ops ++ ticksAfter n (span cfg))).tasks, r.isParent = true →
      r.status ≠ .opened ∧ r.status ≠ .planned := by
  have same : ((new cfg root).run ops).cfg = cfg := (run_frame _ ops).1
  have start : (new cfg root).Timed n := by
    refine ⟨fun r present => ?_, fun r present => ?_⟩ <;> cases present
  have distinct : ((new cfg root).run ops).ids.Nodup := run_distinct (new_distinct cfg root) fresh
  -- The span holds the last directive and every nudge of it.
  have enough : endsBy cfg n + cfg.timers.directiveNag = n + span cfg := by
    have one : (cfg.timers.maxDirectiveNudges + 2) * cfg.timers.directiveNag =
        (cfg.timers.maxDirectiveNudges + 1) * cfg.timers.directiveNag + cfg.timers.directiveNag :=
      Nat.succ_mul _ _
    unfold endsBy restsBy span
    omega
  have reached : ((new cfg root).run ops).Waning n n :=
    (run_timed start blocks).waning (by rw [same]; exact positive) distinct led
  have waning := reached.run (by rw [same]; exact bytes) (by rw [same]; exact positive)
    (by rw [same]; omega) (span cfg)
  intro r present parent
  rw [run_append] at present
  have running := waning.parents r present parent
  rw [(run_frame _ _).1, same] at running
  -- A parent that were still live would have a directive ahead of the end.
  suffices past : ¬ (r.status = .opened ∨ r.status = .planned) from not_or.mp past
  intro live
  obtain ⟨ahead, fits⟩ := running live (by unfold endsBy at enough; omega)
  simp only [BlockNumber] at ahead fits
  omega

/-- One sub-task is claimed and never done, the other is never claimed. -/
theorem ended_run_claimed :
    let ops : List (Op Nat × BlockNumber) := [(.call (.setLeader 1), 1),
      (.call (.openParent 0 .root "t"), 1),
      (.call (.plan 1 .leader ⟨1, 0⟩ [⟨2, "a", "b"⟩, ⟨3, "c", "d"⟩]), 1),
      (.call (.update 2 .peer ⟨1, 1⟩ .claim ""), 1)]
    ((new briefTimers (some 0)).run ops).get ⟨1, 0⟩ ≠ none ∧
      ∀ r ∈ ((new briefTimers (some 0)).run (ops ++ ticksAfter 1 (span briefTimers))).tasks,
        r.isParent = true → r.status ≠ .opened ∧ r.status ≠ .planned :=
  ⟨by decide, ended_run briefTimers (some 0) _ 1 (by decide) ⟨by decide, by decide, by decide⟩
    (by decide) (run_fresh (fun _ there => by cases there) (by decide)) (by decide) (by decide)⟩

theorem opensAndClears_blocks {k : Nat} {op : Op Nat × BlockNumber}
    (member : op ∈ (List.replicate k opensAndClears).flatten) : (op.2 : Nat) = 1 := by
  obtain ⟨pair, these, inside⟩ := List.mem_flatten.mp member
  rw [(List.mem_replicate.mp these).2] at inside
  simp only [opensAndClears, List.mem_cons, List.not_mem_nil, or_false] at inside
  rcases inside with rfl | rfl <;> rfl

/-- The last number is given out twice: the directives about the second parent are counted on the
first, and the second is open for good. -/
theorem ended_run_twice :
    let ops : List (Op Nat × BlockNumber) := (List.replicate (2 ^ 32 - 2) opensAndClears).flatten ++
      [(.call (.setLeader 1), 1), (.call (.openParent 0 .root "t"), 1),
        (.call (.openParent 0 .root "u"), 1)]
    Bytes briefTimers ∧ Positive briefTimers ∧ (∀ op ∈ ops, (op.2 : Nat) ≤ 1) ∧
      1 + span briefTimers < 2 ^ 32 ∧
      ((new briefTimers (some 0)).run ops).leader.isSome = true ∧
      ∃ r ∈ ((new briefTimers (some 0)).run (ops ++ ticksAfter 1 (span briefTimers))).tasks,
        r.isParent = true ∧ r.status = .opened := by
  dsimp only
  refine ⟨by decide, ⟨by decide, by decide, by decide⟩, fun op member => ?_, by decide, ?_, ?_⟩
  · rcases List.mem_append.mp member with early | late
    · exact Nat.le_of_eq (opensAndClears_blocks early)
    · simp only [List.mem_cons, List.not_mem_nil, or_false] at late
      rcases late with rfl | rfl | rfl <;> exact Nat.le_refl 1
  · rw [run_append, run_opensAndClears rfl _ (by decide)]
    decide
  · rw [run_append, run_append, run_opensAndClears rfl _ (by decide)]
    decide +kernel

end Accounts

end AkumaMiot.TaskTable

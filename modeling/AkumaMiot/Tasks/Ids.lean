import AkumaMiot.Lib.Machine
import AkumaMiot.Tasks.Lifecycle
import AkumaMiot.Tasks.Sweep

/-!
# Which rows there are

Only `open` and a plan add rows, and only the collector drops them. As long as no `open` gives a
new parent the number of one that is still there, ids are distinct.
-/
namespace AkumaMiot.TaskTable

variable {A : Type}

/-- The ids of the rows, in order. -/
abbrev ids (t : TaskTable A) : List TaskId := t.tasks.map Task.id

theorem new_distinct (cfg : Config) (root : Option A) : (new cfg root).ids.Nodup := List.nodup_nil

/-! ## One effect -/

theorem pushTask_ids (t : TaskTable A) (r : Task A) : (t.pushTask r).ids = t.ids ++ [r.id] :=
  List.map_append

theorem updateTask_ids (t : TaskTable A) (id : TaskId) (f : Task A → Task A)
    (keeps : ∀ r, (f r).id = r.id) : (t.updateTask id f).ids = t.ids :=
  KeyedList.map_key_update Task.id id f keeps t.tasks

/-- The rows an effect adds: none, or the one it creates and does not find. -/
theorem apply_ids (t : TaskTable A) (e : Effect A) (now : BlockNumber) :
    (t.apply e now).ids = t.ids ∨
      ∃ id, creates e = some id ∧ (opens e = none → id ∉ t.ids) ∧
        (t.apply e now).ids = t.ids ++ [id] := by
  cases e with
  | opened who task text =>
    exact .inr ⟨task, rfl, by simp [opens], pushTask_ids _ _⟩
  | assigned to_ task what expect =>
    simp only [apply]
    split
    · exact .inl (t.updateTask_ids task _ fun _ => rfl)
    -- The first offer of a sub-task creates its row.
    next absent =>
      refine .inr ⟨task, rfl, fun _ => ?_, pushTask_ids _ _⟩
      exact get_eq_none.mp (by simpa using absent)
  | directed to_ task d =>
    refine .inl ?_
    simp only [apply]
    split
    · simp only [ids, List.map_map]
      refine List.map_congr_left fun r _ => ?_
      simp only [Function.comp_apply]
      split <;> rfl
    · exact t.updateTask_ids task _ fun _ => rfl
  | record who task act text =>
    refine .inl ?_
    cases act with
    | claim | reopen => exact t.updateTask_ids task _ fun _ => rfl
    | done | failed | clear =>
      refine (updateTask_ids _ _ _ ?_).trans (t.updateTask_ids task _ ?_) <;> exact fun _ => rfl
    | artifact => rfl
  | requeued task holder why =>
    refine .inl ?_
    cases why with
    | unclaimed | leaseExpired => exact t.updateTask_ids task _ fun _ => rfl
    | rehomed | reopened => rfl
  | closed task title body author => exact .inl (updateTask_ids _ task _ fun _ => rfl)
  | planned _ task _ | nudge _ task _ _ | nudgeBudgetSpent _ task | failed task
  | rehomed task _ _ => exact .inl (t.updateTask_ids task _ fun _ => rfl)
  | _ => exact .inl rfl

/-- It is about rows that are there. -/
def Known (t : TaskTable A) (e : Effect A) : Prop :=
  opens e = none ∧ ∀ id, creates e = some id → id ∈ t.ids

theorem Known.of_creates_none {t : TaskTable A} {e : Effect A} (none_ : creates e = none) :
    Known t e := by
  refine ⟨?_, fun id created => by simp [none_] at created⟩
  cases e <;> first | rfl | simp [creates] at none_

theorem Known.assigned {t : TaskTable A} {id : TaskId} {r : Task A} (found : t.get id = some r)
    (to_ : A) (what expect : String) : Known t (.assigned to_ id what expect) := by
  refine ⟨rfl, fun other created => ?_⟩
  obtain rfl := Option.some.inj created
  exact (get_some found).2 ▸ List.mem_map_of_mem (get_some found).1

theorem applyAll_ids {t : TaskTable A} {es : List (Effect A)} (known : ∀ e ∈ es, Known t e)
    (now : BlockNumber) : (t.applyAll es now).ids = t.ids := by
  induction es generalizing t with
  | nil => rfl
  | cons e es ih =>
    have same : (t.apply e now).ids = t.ids := by
      obtain ⟨opensNone, there⟩ := known e (by simp)
      rcases t.apply_ids e now with same | ⟨id, created, absent, _⟩
      · exact same
      · exact absurd (there id created) (absent opensNone)
    rw [applyAll_cons, ih, same]
    intro e' member
    obtain ⟨opensNone, there⟩ := known e' (by simp [member])
    exact ⟨opensNone, fun id created => same ▸ there id created⟩

/-- Rows are only ever added at the end, and none twice. -/
theorem applyAll_distinct {t : TaskTable A} (distinct : t.ids.Nodup) {es : List (Effect A)}
    (opensNone : ∀ e ∈ es, opens e = none) (now : BlockNumber) :
    (t.applyAll es now).ids.Nodup := by
  induction es generalizing t with
  | nil => exact distinct
  | cons e es ih =>
    refine ih ?_ fun e' member => opensNone e' (by simp [member])
    rcases t.apply_ids e now with same | ⟨id, _, absent, added⟩
    · rw [same]
      exact distinct
    · rw [added]
      exact List.nodup_append.mpr ⟨distinct, by simp, fun a there b last same =>
        absent (opensNone e (by simp)) (by simp_all)⟩

/-! ## One call -/

/-- A reoffer is about the row itself. -/
theorem stage1_known {t : TaskTable A} {now : BlockNumber} {e : Effect A}
    (member : e ∈ t.stage1 now) : Known t e := by
  obtain ⟨r, present, _, effects⟩ := stage1_row member
  have row := subtaskEffects_row effects
  refine ⟨row.opens_none, fun id created => ?_⟩
  cases row with
  | assigned =>
    obtain rfl := Option.some.inj created
    exact List.mem_map_of_mem present
  | _ => cases created

theorem stage2_known {t u : TaskTable A} {leader : A} {now : BlockNumber} {e : Effect A}
    (member : e ∈ t.stage2 leader now) : Known u e := by
  obtain ⟨_, _, _, _, rfl | ⟨_, _, rfl⟩⟩ := stage2_cases member <;> exact .of_creates_none rfl

theorem tick_ids (t : TaskTable A) (now : BlockNumber) : (t.tick now).2.ids = t.ids := by
  have first : (t.applyAll (t.stage1 now) now).ids = t.ids :=
    applyAll_ids (fun e => stage1_known) now
  simp only [tick]
  split
  · exact first
  · rw [applyAll_ids (fun e => stage2_known), first]

section Accounts

variable [DecidableEq A]

/-- Whatever is not `open` or a plan is about rows that are there. -/
theorem call_ids (t : TaskTable A) (c : Call A) (now : BlockNumber)
    (notOpen : ∀ who auth text, c ≠ .openParent who auth text)
    (notPlan : ∀ who auth parent items, c ≠ .plan who auth parent items) :
    (t.call c now).2.ids = t.ids := by
  -- A record is about a row; it never makes one.
  have recorded : ∀ who id act text, (t.apply (.record who id act text) now).ids = t.ids :=
    fun who id act text => (t.apply_ids _ now).resolve_right (by simp [creates])
  cases c with
  | tick => exact t.tick_ids now
  | openParent who auth text => exact absurd rfl (notOpen who auth text)
  | plan who auth parent items => exact absurd rfl (notPlan who auth parent items)
  | setLeader who =>
    rcases t.setLeader_cases who now with ⟨_, left⟩ | ⟨_, left⟩ <;> simp only [call, left]
    exact (t.apply_ids _ now).resolve_right (by simp [creates])
  | say who auth to_ body noAck offRecord =>
    rcases t.say_cases who auth to_ body noAck offRecord with ⟨_, left⟩ | left <;>
      simp only [call, left]
  | publishStandaloneArtifact who body =>
    rcases t.publishStandaloneArtifact_cases who body now with ⟨_, left⟩ | ⟨_, left⟩ <;>
      simp only [call, left]
    rfl
  | reassign who auth id to_ =>
    rcases t.reassign_cases who auth id to_ now with
      ⟨_, left⟩ | ⟨r, _, _, found, _, _, left⟩ <;> simp only [call, left]
    refine applyAll_ids (fun e member => ?_) now
    simp only [List.mem_cons, List.not_mem_nil, or_false] at member
    rcases member with rfl | rfl | rfl
    · exact .of_creates_none rfl
    · exact .of_creates_none rfl
    · exact .assigned found _ _ _
  | update who auth id act text =>
    have submitted : ∀ outcome, (t.submit who id outcome now).2.ids = t.ids := by
      intro outcome
      rcases t.submit_cases who id outcome now with ⟨_, left⟩ | ⟨_, _, _, _, _, _, left⟩ <;>
        rw [left]
      exact recorded _ _ _ _
    cases act with
    | claim =>
      rcases t.claim_cases who id now with ⟨_, left⟩ | ⟨_, _, _, _, _, left⟩ <;>
        simp only [call, update, left]
      refine applyAll_ids (fun e member => ?_) now
      simp only [List.mem_cons, List.not_mem_nil, or_false] at member
      rcases member with rfl | rfl <;> exact .of_creates_none rfl
    | done => exact submitted _
    | failed => exact submitted _
    | clear =>
      rcases t.clear_cases who auth id now with ⟨_, left⟩ | ⟨_, _, _, _, _, left⟩ <;>
        simp only [call, update, left]
      exact recorded who id .clear ""
    | reopen =>
      rcases t.reopen_cases who auth id text now with ⟨_, left⟩ | ⟨r, _, found, _, _, left⟩ <;>
        simp only [call, update, left]
      refine applyAll_ids (fun e member => ?_) now
      simp only [List.mem_cons, Option.mem_toList, Option.map_eq_some_iff] at member
      rcases member with rfl | rfl | ⟨to_, _, rfl⟩
      · exact .of_creates_none rfl
      · exact .of_creates_none rfl
      · exact .assigned found _ _ _
    | artifact =>
      rcases t.commitArtifact_cases who auth id text now with
        ⟨_, left⟩ | ⟨_, _, _, _, _, _, _, left⟩ <;> simp only [call, update, left]
      refine applyAll_ids (fun e member => ?_) now
      simp only [List.mem_cons, List.not_mem_nil, or_false] at member
      rcases member with rfl | rfl <;> exact .of_creates_none rfl

theorem plan_distinct {t : TaskTable A} (distinct : t.ids.Nodup) (who : A) (auth : Authority)
    (parent : TaskId) (items : List (PlanItem A)) (now : BlockNumber) :
    (t.plan who auth parent items now).2.ids.Nodup := by
  rcases t.plan_cases who auth parent items now with ⟨_, left⟩ | ⟨_, _, _, _, _, _, left⟩ <;>
    rw [left]
  · exact distinct
  · refine applyAll_distinct distinct (fun e member => ?_) now
    rcases List.mem_cons.mp member with rfl | offer
    · rfl
    · obtain ⟨_, _, rfl⟩ := List.mem_mapIdx.mp offer
      rfl

/-! ## Runs -/

omit [DecidableEq A] in
theorem gc_ids (t : TaskTable A) (now keepFor : BlockNumber) :
    ((t.gc now keepFor).2.ids).Sublist t.ids := by
  rw [gc_eq_sweep]
  exact List.filter_sublist.map Task.id

omit [DecidableEq A] in
theorem clearAll_ids (t : TaskTable A) (auth : Authority) (now : BlockNumber) :
    ((t.clearAll auth now).2.ids).Sublist t.ids := by
  simp only [clearAll]
  split
  · exact List.Sublist.refl _
  · rw [← applyAll_ids (t := t) (fun e member => ?_) now]
    · exact gc_ids _ now 0
    · obtain ⟨_, _, rfl⟩ := List.mem_map.mp member
      exact .of_creates_none rfl

/-- No `open` gives a new parent the id of a row that is there. -/
def Fresh (t : TaskTable A) (op : Op A) (now : BlockNumber) : Prop :=
  ∀ id ∈ t.givenOut op now, id ∉ t.ids

instance (t : TaskTable A) (op : Op A) (now : BlockNumber) : Decidable (t.Fresh op now) :=
  inferInstanceAs (Decidable (∀ id ∈ t.givenOut op now, id ∉ t.ids))

theorem step_distinct {t : TaskTable A} (distinct : t.ids.Nodup) {op : Op A} {now : BlockNumber}
    (fresh : t.Fresh op now) : (t.step op now).ids.Nodup := by
  cases op with
  | gc keepFor => exact distinct.sublist (t.gc_ids now keepFor)
  | clearAll auth => exact distinct.sublist (t.clearAll_ids auth now)
  | call c =>
    by_cases plans : ∃ who auth parent items, c = .plan who auth parent items
    · obtain ⟨who, auth, parent, items, rfl⟩ := plans
      exact plan_distinct distinct who auth parent items now
    · by_cases opening : ∃ who auth text, c = .openParent who auth text
      · obtain ⟨who, auth, text, rfl⟩ := opening
        rcases t.openParent_step who auth text now with ⟨_, same⟩ | ⟨given, stepped⟩
        · rw [same]
          exact distinct
        · rw [stepped]
          -- The number given out is fresh, so no row has it yet.
          have absent : TaskId.ofParent t.nextParent ∉ t.ids := fresh _ (by rw [given]; simp)
          have added : (t.apply (.opened who (.ofParent t.nextParent) text) now).ids =
              t.ids ++ [.ofParent t.nextParent] := pushTask_ids _ _
          rw [added]
          refine List.nodup_append.mpr ⟨distinct, by simp, fun a there b last same => ?_⟩
          rw [List.mem_singleton] at last
          exact absent (last ▸ same ▸ there)
      · refine (t.call_ids c now ?_ ?_).symm ▸ distinct
        · exact fun who auth text same => opening ⟨who, auth, text, same⟩
        · exact fun who auth parent items same => plans ⟨who, auth, parent, items, same⟩

/-- One operation at its block. -/
def next (t : TaskTable A) (op : Op A × BlockNumber) : TaskTable A := t.step op.1 op.2

theorem run_eq (t : TaskTable A) (ops : List (Op A × BlockNumber)) :
    t.run ops = Machine.run next t ops := rfl

theorem run_append (t : TaskTable A) (xs ys : List (Op A × BlockNumber)) :
    t.run (xs ++ ys) = (t.run xs).run ys := List.foldl_append

/-- While every new parent gets an id of its own, so does every row. -/
theorem run_distinct {t : TaskTable A} (distinct : t.ids.Nodup) {ops : List (Op A × BlockNumber)}
    (fresh : Machine.Meets next (fun t op => t.Fresh op.1 op.2) t ops) : (t.run ops).ids.Nodup :=
  Machine.run_invariant (fun t : TaskTable A => t.ids.Nodup)
    (fun _ _ distinct fresh => step_distinct distinct fresh) distinct fresh

/-! ## While the parent counter has room -/

/-- Every number in use was given out before. -/
def Issued (t : TaskTable A) : Prop := ∀ id ∈ t.ids, id.parent < t.nextParent

omit [DecidableEq A] in
theorem Issued.fresh {t : TaskTable A} (issued : t.Issued) (op : Op A) (now : BlockNumber) :
    t.Fresh op now := by
  intro id given there
  cases op with
  | call c =>
    cases c with
    | openParent who auth text =>
      rcases t.openParent_cases who auth text now with ⟨_, left⟩ | ⟨_, _, left⟩
      · simp [givenOut, left] at given
      · simp only [givenOut, left, List.mem_singleton] at given
        subst given
        exact Nat.lt_irrefl _ (issued _ there)
    | _ => simp [givenOut] at given
  | _ => simp [givenOut] at given

theorem step_issued {t : TaskTable A} (issued : t.Issued) {op : Op A} {now : BlockNumber}
    (room : t.nextParent + (t.givenOut op now).length < 2 ^ 32) : (t.step op now).Issued := by
  have counter := (t.step_counter op now room).2
  have fewer : ∀ {u : TaskTable A}, u.ids.Sublist t.ids → u.nextParent = (t.step op now).nextParent →
      u.Issued := by
    intro u sub next id there
    have old := issued id (sub.subset there)
    omega
  cases op with
  | gc keepFor => exact fewer (t.gc_ids now keepFor) rfl
  | clearAll auth => exact fewer (t.clearAll_ids auth now) rfl
  | call c =>
    by_cases plans : ∃ who auth parent items, c = .plan who auth parent items
    · obtain ⟨who, auth, parent, items, rfl⟩ := plans
      rcases t.plan_cases who auth parent items now with
        ⟨_, left⟩ | ⟨_, _, _, _, _, ⟨p, found, _⟩, left⟩
      · exact fewer (by simp only [step, call, left]; exact List.Sublist.refl _) rfl
      · -- A plan's sub-tasks are numbered under their parent.
        have numbered : ∀ (es : List (Effect A)) (u : TaskTable A),
            (∀ e ∈ es, ∀ id, creates e = some id → id.parent = parent.parent) →
            ∀ id ∈ (u.applyAll es now).ids, id ∈ u.ids ∨ id.parent = parent.parent := by
          intro es
          induction es with
          | nil => exact fun u _ id there => .inl there
          | cons e es ih =>
            intro u under id there
            rcases ih (u.apply e now) (fun e' member => under e' (by simp [member])) id there with
              before | new
            · rcases u.apply_ids e now with same | ⟨added, created, _, grown⟩
              · exact .inl (same ▸ before)
              · rw [grown] at before
                rcases List.mem_append.mp before with old | last
                · exact .inl old
                · rw [List.mem_singleton.mp last]
                  exact .inr (under e (by simp) added created)
            · exact .inr new
        intro id there
        rw [counter]
        simp only [step, call, left, accept] at there
        have under : ∀ e ∈ Effect.planned who parent (items.length % 2 ^ 32) ::
            planOffers parent items, ∀ id, creates e = some id → id.parent = parent.parent := by
          intro e member other created
          rcases List.mem_cons.mp member with rfl | offer
          · cases created
          · obtain ⟨_, _, rfl⟩ := List.mem_mapIdx.mp offer
            obtain rfl := Option.some.inj created
            rfl
        rcases numbered _ t under id there with old | new
        · have := issued id old
          omega
        · obtain ⟨present, same⟩ := get_some found
          have := issued p.id (List.mem_map_of_mem present)
          rw [same] at this
          omega
    · by_cases opening : ∃ who auth text, c = .openParent who auth text
      · obtain ⟨who, auth, text, rfl⟩ := opening
        rcases t.openParent_step who auth text now with ⟨_, same⟩ | ⟨given, stepped⟩
        · exact fewer (by rw [same]) rfl
        · rw [given] at counter
          intro id there
          rw [counter]
          rw [stepped] at there
          have added : (t.apply (.opened who (.ofParent t.nextParent) text) now).ids =
              t.ids ++ [.ofParent t.nextParent] := pushTask_ids _ _
          rw [added] at there
          rcases List.mem_append.mp there with old | last
          · have := issued id old
            simp only [List.length_singleton]
            omega
          · rw [List.mem_singleton.mp last]
            exact Nat.lt_succ_self _
      · have same := t.call_ids c now
          (fun who auth text same => opening ⟨who, auth, text, same⟩)
          fun who auth parent items same => plans ⟨who, auth, parent, items, same⟩
        exact fewer (same ▸ List.Sublist.refl _) rfl

/-- Every number a run gives out is new as long as the counter has not come to its end. -/
theorem run_fresh {t : TaskTable A} (issued : t.Issued) {ops : List (Op A × BlockNumber)}
    (room : t.nextParent + (t.allGivenOut ops).length < 2 ^ 32) :
    Machine.Meets next (fun t op => t.Fresh op.1 op.2) t ops := by
  induction ops generalizing t with
  | nil => trivial
  | cons head ops ih =>
    obtain ⟨op, now⟩ := head
    simp only [allGivenOut, List.length_append] at room
    have here : t.nextParent + (t.givenOut op now).length < 2 ^ 32 := by omega
    refine ⟨issued.fresh op now, ih (step_issued issued here) ?_⟩
    show (t.step op now).nextParent + ((t.step op now).allGivenOut ops).length < 2 ^ 32
    rw [(t.step_counter op now here).2]
    omega

end Accounts

end AkumaMiot.TaskTable

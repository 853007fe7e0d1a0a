import AkumaMiot.Tasks.Invariant
import AkumaMiot.Tasks.Replay

/-!
# What every reachable task table keeps

Every verb, the tick and the collector keep the invariant, so every run from a new table
does. The ids a run opens are the numbers from its counter on, in order.
-/
namespace AkumaMiot.TaskTable

variable {A : Type}

namespace Inv

/-! ## The tick -/

/-- An effect that fails a live parent, or reminds the leader of one. -/
inductive Settles (t : TaskTable A) : Effect A → Prop
  | failed {id : TaskId} (live : Live t id) : Settles t (.failed id)
  | directed (to_ : A) (id : TaskId) (d : Directive) : Settles t (.directed to_ id d)

theorem settles {t : TaskTable A} (inv : Inv t) {e : Effect A} (settle : Settles t e)
    (now : BlockNumber) : Inv (t.apply e now) := by
  cases settle with
  | failed live => exact inv.failed live now
  | directed to_ id d => exact inv.directed to_ id d now

/-- A live parent stays live while others are failed or reminded. -/
theorem live_apply {t : TaskTable A} {id : TaskId} {e : Effect A} (live : Live t id)
    (settle : Settles t e) (now : BlockNumber) : Live (t.apply e now) id := by
  intro r member same
  cases settle with
  | failed _ =>
    rcases KeyedList.mem_update Task.id member with old | ⟨x, old, _, rfl⟩
    · exact live r old same
    · exact ⟨(live x old same).1, by simp⟩
  | directed to_ other d =>
    simp only [apply] at member
    split at member
    · obtain ⟨x, old, rfl⟩ := List.mem_map.mp member
      by_cases kind : x.isParent = true
      · rw [if_pos kind] at same ⊢
        exact live x old same
      · rw [if_neg kind] at same ⊢
        exact live x old same
    · rcases KeyedList.mem_update Task.id member with old | ⟨x, old, _, rfl⟩
      · exact live r old same
      · exact live x old same

theorem settleAll {t : TaskTable A} (inv : Inv t) {es : List (Effect A)}
    (settle : ∀ e ∈ es, Settles t e) (now : BlockNumber) : Inv (t.applyAll es now) := by
  induction es generalizing t with
  | nil => exact inv
  | cons e es ih =>
    have first := settle e (by simp)
    refine ih (inv.settles first now) fun other member => ?_
    cases settle other (by simp [member]) with
    | failed live => exact .failed (live_apply live first now)
    | directed to_ id d => exact .directed to_ id d

/-- A parent that is neither closed nor anything but a parent is live. -/
theorem live_of_mem {t : TaskTable A} (inv : Inv t) {p : Task A} (present : p ∈ t.tasks)
    (parent : p.isParent = true) (status : p.status = .opened ∨ p.status = .planned) :
    Live t p.id := by
  intro r member same
  obtain rfl := inv.unique (inv.get_of_mem present) member same
  exact ⟨parent, by rcases status with status | status <;> simp [status]⟩

/-- Both requeues leave the row pending, and only then is it offered again. -/
theorem reoffer {t : TaskTable A} (inv : Inv t) {r x : Task A} (found : t.get r.id = some x)
    (status : x.status = .pending) (assignable : ∀ to_, r.assignee = some to_ → t.root ≠ some to_)
    (now : BlockNumber) : Inv (t.applyAll (reoffer r) now) := by
  unfold TaskTable.reoffer
  split
  next to_ mine => exact inv.offered found status (assignable to_ mine) _ _ _
  · exact inv

/-- One row's share of stage 1. -/
theorem subtaskEffects {t : TaskTable A} (inv : Inv t) {r : Task A} (found : t.get r.id = some r)
    (now : BlockNumber) : Inv (t.applyAll (subtaskEffects t.cfg now r) now) := by
  have assignable : ∀ to_, r.assignee = some to_ → t.root ≠ some to_ := fun to_ mine isRoot =>
    ((inv.rows r (get_some found).1).1 to_ isRoot).1 mine
  rcases subtaskEffects_cases t.cfg now r with
    none | ⟨status, _, eq⟩ | ⟨_, holder, remaining, last, eq⟩ | ⟨_, holder, eq⟩ | ⟨status, _, eq⟩
  · rw [none]; exact inv
  · rw [eq, applyAll_cons]
    exact (inv.leaseExpired found status _ now).reoffer (get_updateTask_found found _ fun _ => rfl)
      rfl (by simpa using assignable) now
  · rw [eq]; exact inv.nudge holder r.id remaining last now
  · rw [eq]; exact inv.budgetSpent holder r.id now
  · rw [eq, applyAll_cons]
    exact (inv.unclaimed found status _ now).reoffer (get_updateTask_found found _ fun _ => rfl)
      status (by simpa using assignable) now

/-- Each row's share is decided before any is folded, and folding one row's share leaves the
other rows as they were when theirs was decided. -/
theorem stage1_rows {t : TaskTable A} (inv : Inv t) (rows : List (Task A))
    (distinct : (rows.map Task.id).Nodup) (found : ∀ r ∈ rows, t.get r.id = some r)
    (now : BlockNumber) :
    Inv (t.applyAll (rows.flatMap (TaskTable.subtaskEffects t.cfg now)) now) := by
  induction rows generalizing t with
  | nil => exact inv
  | cons r rows ih =>
    simp only [List.map_cons, List.nodup_cons] at distinct
    rw [List.flatMap_cons, applyAll_append]
    have first := inv.subtaskEffects (found r (by simp)) now
    have rest := ih first distinct.2 fun x member => by
      have ne : x.id ≠ r.id := fun same => distinct.1 (List.mem_map.mpr ⟨x, member, same⟩)
      rw [get_other_applyAll (fun e => subtaskEffects_row) ne]
      exact found x (by simp [member])
    rwa [applyAll_cfg] at rest

theorem stage1 {t : TaskTable A} (inv : Inv t) (now : BlockNumber) :
    Inv (t.applyAll (t.stage1 now) now) := by
  refine inv.stage1_rows _ ?_ (fun r member => ?_) now
  · exact inv.distinct.sublist (List.filter_sublist.map Task.id)
  · exact inv.get_of_mem (List.mem_filter.mp member).1

theorem tick {t : TaskTable A} (inv : Inv t) (now : BlockNumber) : Inv (t.tick now).2 := by
  have first := inv.stage1 now
  simp only [TaskTable.tick]
  split
  · exact first
  next leader _ =>
    refine first.settleAll (fun e member => ?_) now
    obtain ⟨p, present, parent, status, rfl | ⟨d, _, rfl⟩⟩ := stage2_cases member
    · exact .failed (first.live_of_mem present parent status)
    · exact .directed _ _ _

/-! ## The collector -/

/-- The collector takes a parent together with everything under it. -/
theorem gc {t : TaskTable A} (inv : Inv t) (now keepFor : BlockNumber) :
    Inv (t.gc now keepFor).2 := by
  simp only [TaskTable.gc]
  split
  · exact inv
  · let kept : Task A → Bool := fun r => !(t.doomed now keepFor).contains r.id.parent
    have old : ∀ r ∈ t.tasks.filter kept, r ∈ t.tasks := fun r member =>
      (List.mem_filter.mp member).1
    have ids : ∀ r ∈ t.tasks.filter kept, r.id.parentId ∈ (t.tasks.filter kept).map Task.id := by
      intro r member
      obtain ⟨p, present, same⟩ := List.mem_map.mp (inv.parents r (old r member))
      refine List.mem_map.mpr ⟨p, List.mem_filter.mpr ⟨present, ?_⟩, same⟩
      have number : p.id.parent = r.id.parent := by rw [same]; rfl
      simpa only [kept, number] using (List.mem_filter.mp member).2
    -- A parent that is kept keeps everything under it.
    have subs : ∀ p ∈ t.tasks.filter kept,
        ({ t with tasks := t.tasks.filter kept } : TaskTable A).subtasks p.id =
          t.subtasks p.id := by
      intro p member
      simp only [subtasks, List.filter_filter]
      apply List.filter_congr
      intro r _
      by_cases number : r.id.parent = p.id.parent
      · have keep := (List.mem_filter.mp member).2
        have also : kept r = true := by simpa only [kept, number] using keep
        simp [also]
      · simp [number]
    constructor
    · exact inv.distinct.sublist (List.filter_sublist.map Task.id)
    · exact fun r member => inv.rows r (old r member)
    · exact fun r member => inv.issued r (old r member)
    · exact ids
    · intro p member parent
      exact subs p member ▸ inv.groups p (old p member) parent
    · exact inv.artifactIds
    · exact inv.artifactsIssued
    · exact fun p member => inv.artifactOf p (old p member)

theorem clearAll {t : TaskTable A} (inv : Inv t) (auth : Authority) (now : BlockNumber) :
    Inv (t.clearAll auth now).2 := by
  simp only [TaskTable.clearAll]
  split
  · exact inv
  · refine (inv.settleAll (fun e member => ?_) now).gc now 0
    simp only [List.mem_map, List.mem_filter, Bool.and_eq_true, Bool.or_eq_true,
      decide_eq_true_eq] at member
    obtain ⟨_, ⟨p, ⟨present, parent, status⟩, rfl⟩, rfl⟩ := member
    exact .failed (inv.live_of_mem present parent status)

end Inv

/-! ## The verbs -/

section Accounts

variable [DecidableEq A]

namespace Inv

theorem reassign {t : TaskTable A} (inv : Inv t) (who : A) (auth : Authority) (id : TaskId)
    (to_ : A) (now : BlockNumber) : Inv (t.reassign who auth id to_ now).2 := by
  rcases t.reassign_cases who auth id to_ now with
    ⟨_, refused⟩ | ⟨r, _, assignable, found, kind, status, accepted⟩
  · rw [refused]; exact inv
  · have live : r.status ≠ .cleared := by rcases status with status | status <;> simp [status]
    rw [accepted]
    exact (inv.rehomed found kind live assignable r.assignee now).offered
      (get_updateTask_found found _ fun _ => rfl) rfl assignable r.text r.expect now

theorem update {t : TaskTable A} (inv : Inv t) (who : A) (auth : Authority) (id : TaskId)
    (act : Act) (text : String) (now : BlockNumber) :
    Inv (t.update who auth id act text now).2 := by
  have submit : ∀ outcome, Inv (t.submit who id outcome now).2 := fun outcome => by
    rcases t.submit_cases who id outcome now with
      ⟨_, refused⟩ | ⟨r, act, found, kind, submits, by_, accepted⟩
    · rw [refused]; exact inv
    · rw [accepted]; exact inv.recordSubmit found kind submits by_ _ now
  cases act with
  | claim =>
    rcases t.claim_cases who id now with ⟨_, refused⟩ | ⟨r, found, kind, status, mine, accepted⟩
    · rw [TaskTable.update, refused]; exact inv
    · rw [TaskTable.update, accepted]
      exact (inv.recordClaim found status mine "" now).nudge who id _ false now
  | done => exact submit _
  | failed => exact submit _
  | clear =>
    rcases t.clear_cases who auth id now with ⟨_, refused⟩ | ⟨r, _, found, kind, status, accepted⟩
    · rw [TaskTable.update, refused]; exact inv
    · rw [TaskTable.update, accepted]; exact inv.recordClear found kind status who "" now
  | reopen =>
    rcases t.reopen_cases who auth id text now with
      ⟨_, refused⟩ | ⟨r, _, found, kind, status, accepted⟩
    · rw [TaskTable.update, refused]; exact inv
    · rw [TaskTable.update, accepted]
      -- It goes back to the one it was offered to, if there is one.
      have reopened := inv.recordReopen found kind status who "" now
      cases mine : r.assignee with
      | none => exact reopened
      | some to_ =>
        exact reopened.offered (get_updateTask_found found _ fun _ => rfl) rfl
          (fun isRoot => ((inv.rows r (get_some found).1).1 to_ isRoot).1 mine) r.text r.expect now
  | artifact =>
    rcases t.commitArtifact_cases who auth id text now with
      ⟨_, refused⟩ | ⟨p, title, _, kind, found, status, cleared, accepted⟩
    · rw [TaskTable.update, refused]; exact inv
    · rw [TaskTable.update, accepted]
      have parent : p.isParent = true := by rw [Task.isParent, (get_some found).2, kind]
      exact inv.closed found parent status cleared title text who now

end Inv

/-! ## Runs -/

/-- Everything that can happen to a table between its making and its end. -/
inductive Op (A : Type)
  | call (c : Call A)
  | gc (keepFor : BlockNumber)
  | clearAll (auth : Authority)

def step (t : TaskTable A) (op : Op A) (now : BlockNumber) : TaskTable A :=
  match op with
  | .call c => (t.call c now).2
  | .gc keepFor => (t.gc now keepFor).2
  | .clearAll auth => (t.clearAll auth now).2

/-- The id an accepted `open` answers with. -/
def givenOut (t : TaskTable A) (op : Op A) (now : BlockNumber) : List TaskId :=
  match op with
  | .call (.openParent who auth text) =>
    match (t.openParent who auth text now).1 with
    | .ok (id, _) => [id]
    | .error _ => []
  | _ => []

def run (t : TaskTable A) (ops : List (Op A × BlockNumber)) : TaskTable A :=
  ops.foldl (fun t (op, now) => t.step op now) t

/-- Every id a run gives out, in order. -/
def allGivenOut : TaskTable A → List (Op A × BlockNumber) → List TaskId
  | _, [] => []
  | t, (op, now) :: ops => t.givenOut op now ++ allGivenOut (t.step op now) ops

/-- An `open` opens the id it answers with. -/
theorem openParent_step (t : TaskTable A) (who : A) (auth : Authority) (text : String)
    (now : BlockNumber) :
    (t.givenOut (.call (.openParent who auth text)) now = [] ∧
      t.step (.call (.openParent who auth text)) now = t) ∨
    (t.givenOut (.call (.openParent who auth text)) now = [.ofParent t.nextParent] ∧
      t.step (.call (.openParent who auth text)) now =
        t.apply (.opened who (.ofParent t.nextParent) text) now) := by
  rcases t.openParent_cases who auth text now with ⟨_, refused⟩ | ⟨_, _, accepted⟩
  · exact .inl ⟨by simp only [givenOut, refused], by simp only [step, call, refused]⟩
  · exact .inr ⟨by simp only [givenOut, accepted], by simp only [step, call, accepted]⟩

theorem Inv.step {t : TaskTable A} (inv : Inv t) (op : Op A) (now : BlockNumber)
    (small : t.cfg.limits.maxSubtasks ≤ 65535)
    (room : t.nextParent + (t.givenOut op now).length < 2 ^ 32) : Inv (t.step op now) := by
  cases op with
  | gc keepFor => exact inv.gc now keepFor
  | clearAll auth => exact inv.clearAll auth now
  | call c =>
    cases c with
    | setLeader who =>
      rcases t.setLeader_cases who now with ⟨_, left⟩ | ⟨_, left⟩ <;>
        simp only [TaskTable.step, call, left]
      · exact inv
      · exact inv.directed _ _ _ now
    | openParent who auth text =>
      rcases t.openParent_step who auth text now with ⟨_, same⟩ | ⟨given, stepped⟩
      · rw [same]; exact inv
      -- The number given out still fits.
      · rw [given] at room
        rw [stepped]; exact inv.opened who text now room
    | plan who auth parent items =>
      rcases t.plan_cases who auth parent items now with
        ⟨_, refused⟩ | ⟨_, kind, nonempty, few, assignable, ⟨p, found, status⟩, accepted⟩
      · simp only [TaskTable.step, call, refused]; exact inv
      · simp only [TaskTable.step, call, accepted]
        exact inv.planned found kind status nonempty (Nat.le_trans few small) assignable who _ now
    | say who auth to_ body noAck offRecord =>
      rcases t.say_cases who auth to_ body noAck offRecord with ⟨_, left⟩ | left <;>
        simp only [TaskTable.step, call, left] <;> exact inv
    | publishStandaloneArtifact who body =>
      rcases t.publishStandaloneArtifact_cases who body now with ⟨_, left⟩ | ⟨_, left⟩ <;>
        simp only [TaskTable.step, call, left]
      · exact inv
      · exact inv.of_eq rfl rfl rfl rfl rfl
    | reassign who auth id to_ => exact inv.reassign who auth id to_ now
    | update who auth id act text => exact inv.update who auth id act text now
    | tick => exact inv.tick now

/-! ## Ids and artifacts over a run -/

omit [DecidableEq A] in
@[simp] theorem gc_frame (t : TaskTable A) (now keepFor : BlockNumber) :
    (t.gc now keepFor).2.cfg = t.cfg ∧ (t.gc now keepFor).2.root = t.root ∧
      (t.gc now keepFor).2.artifacts = t.artifacts ∧
      (t.gc now keepFor).2.nextParent = t.nextParent := by
  simp only [gc]
  split <;> simp

theorem step_frame (t : TaskTable A) (op : Op A) (now : BlockNumber) :
    (t.step op now).cfg = t.cfg ∧ (t.step op now).root = t.root ∧
      t.artifacts <+: (t.step op now).artifacts := by
  cases op with
  | call c =>
    have folded : (t.call c now).2 = t.applyAll (returned (t.call c now).1) now :=
      t.call_folds c now
    simp only [step, folded, applyAll_cfg, applyAll_root, true_and]
    exact t.applyAll_artifacts _ now
  | gc keepFor => simp [step]
  | clearAll auth =>
    simp only [step, clearAll]
    split
    · exact ⟨rfl, rfl, List.prefix_rfl⟩
    · simpa using t.applyAll_artifacts _ now

/-- Only `open` opens a parent. -/
theorem call_opens_none (t : TaskTable A) (c : Call A) (now : BlockNumber)
    (other : ∀ who auth text, c ≠ .openParent who auth text) :
    ∀ e ∈ returned (t.call c now).1, opens e = none := by
  intro e member
  cases call_answers _ _ _ e member with
  | opened who auth text id => exact absurd rfl (other who auth text)
  | row id e row => exact row.opens_none
  | _ => rfl

/-- One step gives out the numbers from the counter on. -/
theorem step_counter (t : TaskTable A) (op : Op A) (now : BlockNumber)
    (room : t.nextParent + (t.givenOut op now).length < 2 ^ 32) :
    t.givenOut op now =
        (List.range' t.nextParent (t.givenOut op now).length).map TaskId.ofParent ∧
      (t.step op now).nextParent = t.nextParent + (t.givenOut op now).length := by
  cases op with
  | gc keepFor => simp [givenOut, step]
  | clearAll auth =>
    simp only [givenOut, step, clearAll]
    split
    · simp
    · rw [(gc_frame _ now 0).2.2.2, applyAll_nextParent]
      · simp
      · intro e member
        obtain ⟨_, _, rfl⟩ := List.mem_map.mp member
        rfl
  | call c =>
    by_cases opening : ∃ who auth text, c = .openParent who auth text
    · obtain ⟨who, auth, text, rfl⟩ := opening
      rcases t.openParent_step who auth text now with ⟨given, stepped⟩ | ⟨given, stepped⟩
      · simp [given, stepped]
      · rw [given, List.length_singleton] at room
        rw [given, stepped]
        refine ⟨by simp, ?_⟩
        simp only [apply, pushTask, TaskId.ofParent, u32Succ, List.length_singleton]
        rw [Nat.mod_eq_of_lt room]
        omega
    · have other : ∀ who auth text, c ≠ .openParent who auth text := fun who auth text same =>
        opening ⟨who, auth, text, same⟩
      have given : t.givenOut (.call c) now = [] := by
        cases c with
        | openParent who auth text => exact absurd rfl (other who auth text)
        | _ => rfl
      -- The call folds what it returned, and only an `open` moves the counter.
      have folded : (t.call c now).2 = t.applyAll (returned (t.call c now).1) now :=
        t.call_folds c now
      simp only [given, step, folded, applyAll_nextParent (t.call_opens_none c now other)]
      simp

theorem run_frame (t : TaskTable A) (ops : List (Op A × BlockNumber)) :
    (t.run ops).cfg = t.cfg ∧ (t.run ops).root = t.root ∧ t.artifacts <+: (t.run ops).artifacts := by
  induction ops generalizing t with
  | nil => exact ⟨rfl, rfl, List.prefix_rfl⟩
  | cons head ops ih =>
    obtain ⟨op, now⟩ := head
    obtain ⟨cfg, root, artifacts⟩ := t.step_frame op now
    obtain ⟨cfg', root', artifacts'⟩ := ih (t.step op now)
    exact ⟨cfg'.trans cfg, root'.trans root, artifacts.trans artifacts'⟩

/-- A run keeps the invariant and gives out consecutive numbers, until the counter is spent. -/
theorem Inv.run {t : TaskTable A} (inv : Inv t) (ops : List (Op A × BlockNumber))
    (small : t.cfg.limits.maxSubtasks ≤ 65535)
    (room : t.nextParent + (t.allGivenOut ops).length < 2 ^ 32) :
    Inv (t.run ops) ∧ t.allGivenOut ops =
      (List.range' t.nextParent (t.allGivenOut ops).length).map TaskId.ofParent := by
  induction ops generalizing t with
  | nil => exact ⟨inv, rfl⟩
  | cons head ops ih =>
    obtain ⟨op, now⟩ := head
    simp only [allGivenOut, List.length_append] at room ⊢
    have here : t.nextParent + (t.givenOut op now).length < 2 ^ 32 := by omega
    obtain ⟨given, counter⟩ := t.step_counter op now here
    obtain ⟨kept, rest⟩ := ih (inv.step op now small here)
      (by rw [(t.step_frame op now).1]; exact small) (by rw [counter]; omega)
    refine ⟨kept, ?_⟩
    rw [← List.range'_append_1, List.map_append, ← given, ← counter, ← rest]

/-! ## The lifecycle -/

/-- What an operator can rely on in any table a run reaches. -/
structure Lifecycle (t : TaskTable A) : Prop where
  unique : (t.tasks.map Task.id).Nodup
  parentPresent : ∀ r ∈ t.tasks, r.isParent = false → r.id.parentId ∈ t.tasks.map Task.id
  opened : ∀ p ∈ t.tasks, p.status = .opened → p.isParent = true ∧ t.subtasks p.id = []
  planned : ∀ p ∈ t.tasks, p.status = .planned → p.isParent = true ∧
    ∃ k, 1 ≤ k ∧ (t.subtasks p.id).map (·.id.sub) = List.range' 1 k
  pending : ∀ r ∈ t.tasks, r.status = .pending → r.isParent = false ∧
    r.holder = none ∧ r.leaseUntil = none ∧ r.outcome = none ∧ r.offeredAt.isSome = true
  inProgress : ∀ r ∈ t.tasks, r.status = .inProgress → r.isParent = false ∧
    r.holder.isSome = true ∧ r.holder = r.assignee ∧ r.leaseUntil.isSome = true ∧
    r.nudgesUsed ≤ t.cfg.timers.maxNudges
  finished : ∀ r ∈ t.tasks, r.status = .awaitingClearance ∨ r.status = .cleared →
    r.isParent = false ∧ r.outcome.isSome = true
  closed : ∀ p ∈ t.tasks, p.status = .closed → p.isParent = true ∧ p.closedAt.isSome = true ∧
    (∀ r ∈ t.subtasks p.id, r.status = .cleared) ∧
    (t.artifacts.filter fun a => a.1 = p.id).length = 1
  failed : ∀ p ∈ t.tasks, p.status = .failed → p.isParent = true ∧ p.closedAt.isSome = true ∧
    t.artifacts.filter (fun a => a.1 = p.id) = []
  artifactOnce : (t.artifacts.map Prod.fst).Nodup
  rootIdle : ∀ root, t.root = some root →
    ∀ r ∈ t.tasks, r.assignee ≠ some root ∧ r.holder ≠ some root

omit [DecidableEq A] in
/-- A parent's artifacts, from the list of those that have one. -/
theorem artifacts_of_parent {artifacts : List (TaskId × Artifact A)}
    (once : (artifacts.map Prod.fst).Nodup) (id : TaskId) :
    (artifacts.filter fun a => a.1 = id).length = if id ∈ artifacts.map Prod.fst then 1 else 0 := by
  have count : (artifacts.filter fun a => a.1 = id).length =
      (artifacts.map Prod.fst).count id := by
    rw [List.count, List.countP_map, ← List.countP_eq_length_filter]
    exact List.countP_congr fun a _ => by simp
  rw [count]
  split
  next member => exact List.count_eq_one_of_mem once member
  next absent => exact List.count_eq_zero_of_not_mem absent

omit [DecidableEq A] in
theorem Inv.lifecycle {t : TaskTable A} (inv : Inv t) : Lifecycle t := by
  constructor
  · exact inv.distinct
  · exact fun r member _ => inv.parents r member
  · intro p member status
    -- What the status says of a row is in the invariant of rows, and what it says of the rows
    -- under it in that of groups.
    have row := inv.rows p member
    simp only [Task.Ok, status] at row
    have group := inv.groups p member row.2
    simp only [GroupOk, status] at group
    exact ⟨row.2, group⟩
  · intro p member status
    have row := inv.rows p member
    simp only [Task.Ok, status] at row
    have group := inv.groups p member row.2
    simp only [GroupOk, status] at group
    exact ⟨row.2, group⟩
  · intro r member status
    have row := inv.rows r member
    simp only [Task.Ok, status] at row
    exact row.2
  · intro r member status
    have row := inv.rows r member
    simp only [Task.Ok, status] at row
    exact ⟨row.2.1, row.2.2.2⟩
  · intro r member status
    have row := inv.rows r member
    rcases status with status | status <;> simp only [Task.Ok, status] at row <;> exact row.2
  · intro p member status
    have row := inv.rows p member
    simp only [Task.Ok, status] at row
    have group := inv.groups p member row.2.1
    simp only [GroupOk, status] at group
    refine ⟨row.2.1, row.2.2, group, ?_⟩
    rw [artifacts_of_parent inv.artifactIds,
      if_pos ((inv.artifactOf p member row.2.1).mpr status)]
  · intro p member status
    have row := inv.rows p member
    simp only [Task.Ok, status] at row
    refine ⟨row.2.1, row.2.2, List.eq_nil_of_length_eq_zero ?_⟩
    rw [artifacts_of_parent inv.artifactIds, if_neg]
    rw [inv.artifactOf p member row.2.1, status]
    simp
  · exact inv.artifactIds
  · exact fun root isRoot r member => (inv.rows r member).1 root isRoot

/-- Every run from a new table, with room left in the parent counter: the table keeps its
lifecycle, no id is given out twice, the root stays who it was, and what any earlier moment of
the run had committed is still committed, unaltered and in place. -/
theorem lifecycle_run (cfg : Config) (root : Option A) (ops : List (Op A × BlockNumber))
    (small : cfg.limits.maxSubtasks ≤ 65535)
    (room : ((new cfg root).allGivenOut ops).length < 2 ^ 32 - 1) :
    Lifecycle ((new cfg root).run ops) ∧ ((new cfg root).allGivenOut ops).Nodup ∧
      ((new cfg root).run ops).root = root ∧
      ∀ before after, ops = before ++ after →
        ((new cfg root).run before).artifacts <+: ((new cfg root).run ops).artifacts := by
  have start : (new cfg root).nextParent = 1 := rfl
  obtain ⟨inv, given⟩ := (Inv.new cfg root).run ops small (by rw [start]; omega)
  refine ⟨inv.lifecycle, ?_, ((new cfg root).run_frame ops).2.1, ?_⟩
  · rw [given]
    exact List.Nodup.map (fun i j same => congrArg TaskId.parent same) List.nodup_range'
  · rintro before after rfl
    have split : (new cfg root).run (before ++ after) = ((new cfg root).run before).run after :=
      List.foldl_append
    rw [split]
    exact (run_frame _ after).2.2

/-- The operator opens, the leader plans for two cats, one claims and reports. -/
theorem lifecycle_run_reported :
    let ops : List (Op Nat × BlockNumber) := [
      (.call (.setLeader 1), 1),
      (.call (.openParent 0 .root "t"), 1),
      (.call (.plan 1 .leader ⟨1, 0⟩ [⟨2, "a", "b"⟩, ⟨3, "c", "d"⟩]), 2),
      (.call (.update 2 .peer ⟨1, 1⟩ .claim ""), 3),
      (.call (.update 2 .peer ⟨1, 1⟩ .done "r"), 4),
      (.gc 0, 5)]
    Lifecycle ((new {} (some 0)).run ops) ∧
      ((new {} (some 0)).run ops).tasks.map Task.status = [.planned, .awaitingClearance, .pending] :=
  ⟨(lifecycle_run {} (some 0) _ (by decide) (by decide)).1, by decide⟩

end Accounts

end AkumaMiot.TaskTable

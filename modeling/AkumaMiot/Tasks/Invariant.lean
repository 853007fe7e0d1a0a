import AkumaMiot.Tasks.Rows
import Mathlib.Data.List.Induction
import Mathlib.Tactic.Common

/-!
# The invariant of the task table

One row at a time `Task.Ok`, one parent with its sub-tasks at a time `GroupOk`, and the table
as a whole `Inv`. Every effect keeps `Inv` under the guard of the act that emits it.
-/
namespace AkumaMiot

variable {A : Type}

/-- What a row keeps by itself, by status. The root never has a row to work on. -/
def Task.Ok (cfg : Config) (root : Option A) (r : Task A) : Prop :=
  (∀ who, root = some who → r.assignee ≠ some who ∧ r.holder ≠ some who) ∧
  match r.status with
  | .opened | .planned => r.isParent = true
  | .closed | .failed => r.isParent = true ∧ r.closedAt.isSome = true
  | .pending =>
    r.isParent = false ∧ r.holder = none ∧ r.leaseUntil = none ∧ r.outcome = none ∧
      r.offeredAt.isSome = true
  | .inProgress =>
    r.isParent = false ∧ r.outcome = none ∧ r.holder.isSome = true ∧ r.holder = r.assignee ∧
      r.leaseUntil.isSome = true ∧ r.nudgesUsed ≤ cfg.timers.maxNudges
  | .awaitingClearance | .cleared => r.isParent = false ∧ r.outcome.isSome = true

/-- A pending or held row is a sub-task. -/
theorem Task.Ok.sub_of_working {cfg : Config} {root : Option A} {r : Task A}
    (own : r.Ok cfg root) (working : r.status = .pending ∨ r.status = .inProgress) :
    r.isParent = false := by
  rcases working with status | status <;> simp only [Task.Ok, status] at own <;> exact own.2.1

/-- What a parent and its sub-tasks keep together. -/
def GroupOk (p : Task A) (subs : List (Task A)) : Prop :=
  match p.status with
  | .opened => subs = []
  | .planned => ∃ k, 1 ≤ k ∧ subs.map (·.id.sub) = List.range' 1 k
  | .closed => ∀ r ∈ subs, r.status = .cleared
  | _ => True

/-- A rewrite of one row that the invariant survives: a live parent may fail, and a cleared
sub-task stays cleared. -/
structure Task.Touch (cfg : Config) (root : Option A) (r r' : Task A) : Prop where
  id : r'.id = r.id
  ok : r'.Ok cfg root
  parent : r.isParent = true → r'.status = r.status ∨ (r.status ≠ .closed ∧ r'.status = .failed)
  cleared : r.status = .cleared → r'.status = .cleared

namespace TaskTable

/-- The inductive invariant of a table whose parents got their ids from its own counter. -/
structure Inv (t : TaskTable A) : Prop where
  distinct : (t.tasks.map Task.id).Nodup
  rows : ∀ r ∈ t.tasks, r.Ok t.cfg t.root
  issued : ∀ r ∈ t.tasks, r.id.parent < t.nextParent
  parents : ∀ r ∈ t.tasks, r.id.parentId ∈ t.tasks.map Task.id
  groups : ∀ p ∈ t.tasks, p.isParent = true → GroupOk p (t.subtasks p.id)
  artifactIds : (t.artifacts.map Prod.fst).Nodup
  artifactsIssued : ∀ id ∈ t.artifacts.map Prod.fst, id.parent < t.nextParent
  artifactOf : ∀ p ∈ t.tasks, p.isParent = true →
    (p.id ∈ t.artifacts.map Prod.fst ↔ p.status = .closed)

/-- The row `id` names, if any, is a parent that is not closed. -/
def Live (t : TaskTable A) (id : TaskId) : Prop :=
  ∀ r ∈ t.tasks, r.id = id → r.isParent = true ∧ r.status ≠ .closed

namespace Inv

theorem new (cfg : Config) (root : Option A) : Inv (TaskTable.new cfg root) := by
  constructor <;> simp [TaskTable.new]

/-- The invariant does not look at the leader, the standalone artifacts or their counter. -/
theorem of_eq {t t' : TaskTable A} (inv : Inv t) (tasks : t'.tasks = t.tasks)
    (artifacts : t'.artifacts = t.artifacts) (nextParent : t'.nextParent = t.nextParent)
    (cfg : t'.cfg = t.cfg) (root : t'.root = t.root) : Inv t' := by
  have subs : ∀ id, t'.subtasks id = t.subtasks id := fun id => by simp only [subtasks, tasks]
  constructor
  · rw [tasks]; exact inv.distinct
  · rw [tasks, cfg, root]; exact inv.rows
  · rw [tasks, nextParent]; exact inv.issued
  · rw [tasks]; exact inv.parents
  · rw [tasks]; intro p member parent; rw [subs]; exact inv.groups p member parent
  · rw [artifacts]; exact inv.artifactIds
  · rw [artifacts, nextParent]; exact inv.artifactsIssued
  · rw [tasks, artifacts]; exact inv.artifactOf

/-- A row is the only one with its id. -/
theorem unique {t : TaskTable A} (inv : Inv t) {id : TaskId} {r x : Task A}
    (found : t.get id = some r) (member : x ∈ t.tasks) (same : x.id = id) : x = r := by
  obtain ⟨present, eq⟩ := get_some found
  exact List.inj_on_of_nodup_map inv.distinct member present (same.trans eq.symm)

theorem get_of_mem {t : TaskTable A} (inv : Inv t) {r : Task A} (member : r ∈ t.tasks) :
    t.get r.id = some r :=
  KeyedList.lookup_of_mem Task.id inv.distinct member

/-! ## Rewriting rows in place -/

/-- Rows rewritten under their ids: what is left to show is each row, each parent with its
sub-tasks, and the artifacts. -/
theorem rewrite {t t' : TaskTable A} (inv : Inv t) (g : Task A → Task A)
    (tasks : t'.tasks = t.tasks.map g) (nextParent : t'.nextParent = t.nextParent)
    (ids : ∀ r ∈ t.tasks, (g r).id = r.id)
    (ok : ∀ r ∈ t.tasks, (g r).Ok t'.cfg t'.root)
    (groups : ∀ p ∈ t.tasks, p.isParent = true → GroupOk (g p) ((t.subtasks p.id).map g))
    (artifactIds : (t'.artifacts.map Prod.fst).Nodup)
    (artifactsIssued : ∀ id ∈ t'.artifacts.map Prod.fst, id.parent < t.nextParent)
    (artifactOf : ∀ p ∈ t.tasks, p.isParent = true →
      (p.id ∈ t'.artifacts.map Prod.fst ↔ (g p).status = .closed)) : Inv t' := by
  have sameIds : t'.tasks.map Task.id = t.tasks.map Task.id := by
    rw [tasks, List.map_map]
    exact List.map_congr_left fun r member => ids r member
  -- Every row there is now is an old row, rewritten.
  have each : ∀ {P : Task A → Prop}, (∀ r ∈ t.tasks, P (g r)) → ∀ r ∈ t'.tasks, P r :=
    fun h r member => by
      rw [tasks] at member
      obtain ⟨x, present, rfl⟩ := List.mem_map.mp member
      exact h x present
  have kind : ∀ r ∈ t.tasks, (g r).isParent = r.isParent := fun r member => by
    simp only [Task.isParent, ids r member]
  constructor
  · exact sameIds ▸ inv.distinct
  · exact each ok
  · exact each fun r member => by rw [ids r member, nextParent]; exact inv.issued r member
  · exact each fun r member => by rw [ids r member, sameIds]; exact inv.parents r member
  · refine each fun p member parent => ?_
    have subs : t'.subtasks (g p).id = (t.subtasks p.id).map g := by
      rw [ids p member, ← subtasks_map t g ids]
      simp only [subtasks, tasks]
    rw [kind p member] at parent
    exact subs ▸ groups p member parent
  · exact artifactIds
  · exact nextParent ▸ artifactsIssued
  · refine each fun p member parent => ?_
    rw [kind p member] at parent
    rw [ids p member]
    exact artifactOf p member parent

private theorem group_map {t : TaskTable A} {g : Task A → Task A} {p : Task A}
    (touch : ∀ r ∈ t.tasks, Task.Touch t.cfg t.root r (g r)) (present : p ∈ t.tasks)
    (parent : p.isParent = true) (group : GroupOk p (t.subtasks p.id)) :
    GroupOk (g p) ((t.subtasks p.id).map g) := by
  have subs : ((t.subtasks p.id).map g).map (·.id.sub) = (t.subtasks p.id).map (·.id.sub) := by
    rw [List.map_map]
    exact List.map_congr_left fun r member => by
      simp [(touch r (mem_subtasks.mp member).1).id]
  rcases (touch p present).parent parent with same | ⟨_, failed⟩
  · unfold GroupOk at group ⊢
    rw [same]
    split at group
    · simp [group]
    · simpa only [subs] using group
    · intro r member
      obtain ⟨x, sub, rfl⟩ := List.mem_map.mp member
      exact (touch x (mem_subtasks.mp sub).1).cleared (group x sub)
    · trivial
  · simp [GroupOk, failed]

theorem map {t : TaskTable A} (inv : Inv t) (g : Task A → Task A)
    (touch : ∀ r ∈ t.tasks, Task.Touch t.cfg t.root r (g r)) :
    Inv { t with tasks := t.tasks.map g } := by
  refine inv.rewrite g rfl rfl (fun r member => (touch r member).id)
    (fun r member => (touch r member).ok)
    (fun p member parent => group_map touch member parent (inv.groups p member parent))
    inv.artifactIds inv.artifactsIssued fun p member parent => ?_
  rw [inv.artifactOf p member parent]
  rcases (touch p member).parent parent with same | ⟨live, failed⟩
  · rw [same]
  · simp [live, failed]

/-- A row left as it is. -/
theorem keeps {t : TaskTable A} (inv : Inv t) {r : Task A} (member : r ∈ t.tasks) :
    Task.Touch t.cfg t.root r r :=
  ⟨rfl, inv.rows r member, fun _ => .inl rfl, fun same => same⟩

theorem updateTask {t : TaskTable A} (inv : Inv t) (id : TaskId) (f : Task A → Task A)
    (touch : ∀ r ∈ t.tasks, r.id = id → Task.Touch t.cfg t.root r (f r)) :
    Inv (t.updateTask id f) := by
  rw [TaskTable.updateTask, KeyedList.update_eq_map Task.id id f t.tasks inv.distinct]
  apply inv.map
  intro r member
  split
  next hit => exact touch r member hit
  · exact inv.keeps member

/-- A rewrite of the row an act found. -/
theorem updateFound {t : TaskTable A} (inv : Inv t) {id : TaskId} {r : Task A}
    (found : t.get id = some r) (f : Task A → Task A)
    (touch : r.Ok t.cfg t.root → Task.Touch t.cfg t.root r (f r)) : Inv (t.updateTask id f) := by
  apply inv.updateTask
  intro x member same
  obtain rfl := inv.unique found member same
  exact touch (inv.rows x member)

/-- Only the directive deadline of a row moves. -/
theorem remind {t : TaskTable A} (inv : Inv t) (id : TaskId) (next : BlockNumber)
    (used : Task A → Nat) :
    Inv (t.updateTask id fun p =>
      { p with nextDirective := next, directiveNudgesUsed := used p }) := by
  apply inv.updateTask
  intro r member _
  exact ⟨rfl, inv.rows r member, fun _ => .inl rfl, fun same => same⟩

/-! ## The effects of the sub-task acts -/

theorem nudge {t : TaskTable A} (inv : Inv t) (to_ : A) (id : TaskId) (remaining : Nat)
    (last : Bool) (now : BlockNumber) : Inv (t.apply (.nudge to_ id remaining last) now) := by
  apply inv.updateTask
  intro r member _
  refine ⟨rfl, ?_, fun _ => .inl rfl, fun same => same⟩
  obtain ⟨root, own⟩ := inv.rows r member
  refine ⟨root, ?_⟩
  revert own
  cases r.status with
  | inProgress => exact fun ⟨kind, outcome, held, mine, lease, _⟩ =>
      ⟨kind, outcome, held, mine, lease, Nat.sub_le _ _⟩
  | _ => exact fun own => own

theorem budgetSpent {t : TaskTable A} (inv : Inv t) (holder : A) (id : TaskId)
    (now : BlockNumber) : Inv (t.apply (.nudgeBudgetSpent holder id) now) := by
  apply inv.updateTask
  intro r member _
  exact ⟨rfl, inv.rows r member, fun _ => .inl rfl, fun same => same⟩

/-- An act that replaces the status of an uncleared sub-task. -/
theorem act {t : TaskTable A} (inv : Inv t) {id : TaskId} {r : Task A}
    (found : t.get id = some r) (kind : r.isParent = false) (open_ : r.status ≠ .cleared)
    (f : Task A → Task A) (keepsId : (f r).id = r.id)
    (ok : r.Ok t.cfg t.root → (f r).Ok t.cfg t.root) : Inv (t.updateTask id f) :=
  inv.updateFound found f fun own =>
    ⟨keepsId, ok own, fun parent => by simp [kind] at parent, fun cleared => absurd cleared open_⟩

theorem recordClaim {t : TaskTable A} (inv : Inv t) {id : TaskId} {r : Task A} {who : A}
    (found : t.get id = some r) (status : r.status = .pending) (mine : r.assignee = some who)
    (text : String) (now : BlockNumber) : Inv (t.apply (.record who id .claim text) now) := by
  have kind := (inv.rows r (get_some found).1).sub_of_working (by simp [status])
  refine inv.act found kind (by simp [status]) _ rfl fun own => ?_
  simp only [Task.Ok, status] at own
  obtain ⟨root, kind, _, _, outcome, _⟩ := own
  refine ⟨fun w isRoot => ⟨(root w isRoot).1, mine ▸ (root w isRoot).1⟩, ?_⟩
  exact ⟨kind, outcome, rfl, mine.symm, rfl, Nat.zero_le _⟩

theorem recordSubmit {t : TaskTable A} (inv : Inv t) {id : TaskId} {r : Task A} {who : A}
    {act : Act} (found : t.get id = some r) (kind : r.isParent = false)
    (submits : act = .done ∨ act = .failed)
    (by_ : (r.status = .inProgress ∧ r.holder = some who) ∨
      (r.status = .pending ∧ r.assignee = some who))
    (text : String) (now : BlockNumber) : Inv (t.apply (.record who id act text) now) := by
  have open_ : r.status ≠ .cleared := by rcases by_ with ⟨status, _⟩ | ⟨status, _⟩ <;> simp [status]
  have submitted : ∀ outcome : Outcome, Inv (t.updateTask id fun r => { r with
      status := .awaitingClearance, outcome := some outcome, holder := some who
      leaseUntil := none, nextNag := none, offeredAt := none, nudgesUsed := 0 }) := by
    intro outcome
    refine inv.act found kind open_ _ rfl fun own => ⟨fun w isRoot => ?_, kind, rfl⟩
    refine ⟨(own.1 w isRoot).1, ?_⟩
    rcases by_ with ⟨_, held⟩ | ⟨_, mine⟩
    · exact held ▸ (own.1 w isRoot).2
    · exact mine ▸ (own.1 w isRoot).1
  rcases submits with rfl | rfl <;> exact (submitted _).remind _ _ _

theorem recordClear {t : TaskTable A} (inv : Inv t) {id : TaskId} {r : Task A}
    (found : t.get id = some r) (kind : r.isParent = false)
    (status : r.status = .awaitingClearance) (who : A) (text : String) (now : BlockNumber) :
    Inv (t.apply (.record who id .clear text) now) := by
  have cleared : Inv (t.updateTask id fun r => { r with status := .cleared }) := by
    refine inv.act found kind (by simp [status]) _ rfl fun own => ?_
    simp only [Task.Ok, status] at own
    exact ⟨own.1, kind, own.2.2⟩
  exact cleared.remind _ _ _

theorem recordReopen {t : TaskTable A} (inv : Inv t) {id : TaskId} {r : Task A}
    (found : t.get id = some r) (kind : r.isParent = false)
    (status : r.status = .awaitingClearance) (who : A) (text : String) (now : BlockNumber) :
    Inv (t.apply (.record who id .reopen text) now) := by
  refine inv.act found kind (by simp [status]) _ rfl fun own => ?_
  exact ⟨fun w isRoot => ⟨(own.1 w isRoot).1, by simp⟩, kind, rfl, rfl, rfl, rfl⟩

theorem rehomed {t : TaskTable A} (inv : Inv t) {id : TaskId} {r : Task A} {to_ : A}
    (found : t.get id = some r) (kind : r.isParent = false) (open_ : r.status ≠ .cleared)
    (assignable : t.root ≠ some to_) (old : Option A) (now : BlockNumber) :
    Inv (t.apply (.rehomed id old to_) now) := by
  refine inv.act found kind open_ _ rfl fun _ => ?_
  refine ⟨fun w isRoot => ⟨fun same => ?_, by simp⟩, kind, rfl, rfl, rfl, rfl⟩
  exact assignable (isRoot.trans same.symm)

/-- An offer of a pending row keeps it pending. -/
theorem offered {t : TaskTable A} (inv : Inv t) {id : TaskId} {r : Task A} {to_ : A}
    (found : t.get id = some r) (status : r.status = .pending) (assignable : t.root ≠ some to_)
    (what expect : String) (now : BlockNumber) :
    Inv (t.apply (.assigned to_ id what expect) now) := by
  have kind := (inv.rows r (get_some found).1).sub_of_working (by simp [status])
  simp only [apply, found, Option.isSome_some, if_true]
  refine inv.act found kind (by simp [status]) _ rfl fun own => ?_
  simp only [Task.Ok, status] at own
  obtain ⟨root, kind, holder, lease, outcome, _⟩ := own
  refine ⟨fun w isRoot => ⟨fun same => ?_, by simp [holder]⟩, kind, holder, lease, outcome, rfl⟩
  exact assignable (isRoot.trans same.symm)

theorem leaseExpired {t : TaskTable A} (inv : Inv t) {id : TaskId} {r : Task A}
    (found : t.get id = some r) (status : r.status = .inProgress) (holder : Option A)
    (now : BlockNumber) : Inv (t.apply (.requeued id holder .leaseExpired) now) := by
  have kind := (inv.rows r (get_some found).1).sub_of_working (by simp [status])
  refine inv.act found kind (by simp [status]) _ rfl fun own => ?_
  simp only [Task.Ok, status] at own
  exact ⟨fun w isRoot => ⟨(own.1 w isRoot).1, by simp⟩, kind, rfl, rfl, own.2.2.1, rfl⟩

theorem unclaimed {t : TaskTable A} (inv : Inv t) {id : TaskId} {r : Task A}
    (found : t.get id = some r) (status : r.status = .pending) (holder : Option A)
    (now : BlockNumber) : Inv (t.apply (.requeued id holder .unclaimed) now) := by
  have kind := (inv.rows r (get_some found).1).sub_of_working (by simp [status])
  refine inv.act found kind (by simp [status]) _ rfl fun own => ?_
  simp only [Task.Ok, status] at own ⊢
  exact ⟨own.1, kind, own.2.2.1, own.2.2.2.1, own.2.2.2.2.1, rfl⟩

/-! ## The effects on parents -/

theorem failed {t : TaskTable A} (inv : Inv t) {id : TaskId} (live : Live t id)
    (now : BlockNumber) : Inv (t.apply (.failed id) now) := by
  apply inv.updateTask
  intro r member same
  obtain ⟨parent, notClosed⟩ := live r member same
  refine ⟨rfl, ⟨(inv.rows r member).1, parent, rfl⟩, fun _ => .inr ⟨notClosed, rfl⟩, ?_⟩
  intro cleared
  have own := inv.rows r member
  simp [Task.Ok, cleared, parent] at own

theorem directed {t : TaskTable A} (inv : Inv t) (to_ : A) (id : TaskId) (d : Directive)
    (now : BlockNumber) : Inv (t.apply (.directed to_ id d) now) := by
  simp only [apply]
  split
  · refine of_eq (inv.map (fun r => if r.isParent = true then
      { r with nextDirective := now, directiveNudgesUsed := 0 } else r) ?_) rfl rfl rfl rfl rfl
    intro r member
    split
    · exact ⟨rfl, inv.rows r member, fun _ => .inl rfl, fun same => same⟩
    · exact inv.keeps member
  · exact inv.remind _ _ _

theorem closed {t : TaskTable A} (inv : Inv t) {id : TaskId} {p : Task A}
    (found : t.get id = some p) (parent : p.isParent = true) (status : p.status = .planned)
    (cleared : ∀ r ∈ t.subtasks id, r.status = .cleared) (title body : String) (author : A)
    (now : BlockNumber) : Inv (t.apply (.closed id title body author) now) := by
  obtain ⟨present, rfl⟩ := get_some found
  have self : p.id.parentId = p.id := TaskId.parentId_of_isParent parent
  let g : Task A → Task A := fun r =>
    if r.id = p.id then { r with status := .closed, closedAt := some now } else r
  have other : ∀ r, r.id ≠ p.id → g r = r := fun r ne => if_neg ne
  have hit : g p = { p with status := .closed, closedAt := some now } := if_pos rfl
  -- The id is one row's, so a row is the parent that closes, or is left as it is.
  have byId : ∀ {P : Task A → Prop} (r), r ∈ t.tasks → P p → (r.id ≠ p.id → P r) → P r :=
    fun r member here there => by
      by_cases same : r.id = p.id
      · exact inv.unique found member same ▸ here
      · exact there same
  -- A sub-task is no parent, so no group changes.
  have subs : ∀ q : TaskId, (t.subtasks q).map g = t.subtasks q := fun q => by
    apply (List.map_congr_left fun r member => other r fun same => ?_).trans (List.map_id _)
    have sub : p.isParent = false := by
      rw [← (mem_subtasks.mp member).2.2, Task.isParent, Task.isParent, same]
    simp [parent] at sub
  have artifacts : (t.apply (.closed p.id title body author) now).artifacts.map Prod.fst =
      t.artifacts.map Prod.fst ++ [p.id] := by
    simp [apply, TaskId.parentId_of_isParent parent]
  have fresh : p.id ∉ t.artifacts.map Prod.fst := by
    rw [inv.artifactOf p present parent, status]; simp
  refine inv.rewrite g (KeyedList.update_eq_map Task.id p.id _ t.tasks inv.distinct) rfl
    ?_ ?_ ?_ ?_ ?_ ?_
  · intro r _; simp only [g]; split <;> rfl
  · intro r member
    refine byId (P := fun r => (g r).Ok _ _) r member ?_ fun ne => ?_
    · rw [hit]; exact ⟨(inv.rows p present).1, parent, rfl⟩
    · rw [other r ne]; exact inv.rows r member
  · intro q member
    rw [subs]
    refine byId (P := fun q => q.isParent = true → GroupOk (g q) (t.subtasks q.id)) q member ?_
      fun ne => ?_
    · rw [hit]; exact fun _ => cleared
    · rw [other q ne]; exact inv.groups q member
  · rw [artifacts]
    refine List.nodup_append.mpr ⟨inv.artifactIds, by simp, fun a member b last same => ?_⟩
    rw [List.mem_singleton] at last
    exact fresh (last ▸ same ▸ member)
  · rw [artifacts]
    intro a member
    rcases List.mem_append.mp member with old | new
    · exact inv.artifactsIssued a old
    · rw [List.mem_singleton] at new
      exact new ▸ inv.issued p present
  · rw [artifacts]
    intro q member
    refine byId (P := fun q => q.isParent = true → (q.id ∈ _ ↔ (g q).status = _)) q member ?_
      fun ne isParent => ?_
    · simp [hit]
    · rw [other q ne, List.mem_append, List.mem_singleton, or_iff_left ne]
      exact inv.artifactOf q member isParent

/-! ## Rows that appear and rows that go -/

/-- Rows appended under ids the table does not have yet. -/
theorem extend {t t' : TaskTable A} (inv : Inv t) (g : Task A → Task A) (new : List (Task A))
    (tasks : t'.tasks = t.tasks.map g ++ new) (cfg : t'.cfg = t.cfg) (root : t'.root = t.root)
    (artifacts : t'.artifacts = t.artifacts) (next : t.nextParent ≤ t'.nextParent)
    (ids : ∀ r, (g r).id = r.id) (ok : ∀ r ∈ t.tasks, (g r).Ok t.cfg t.root)
    (newOk : ∀ r ∈ new, r.Ok t.cfg t.root) (newIds : (new.map Task.id).Nodup)
    (absent : ∀ r ∈ new, r.id ∉ t.tasks.map Task.id)
    (newIssued : ∀ r ∈ new, r.id.parent < t'.nextParent)
    (newParents : ∀ r ∈ new, r.id.parentId ∈ t.tasks.map Task.id ∨ r.isParent = true)
    (groups : ∀ p ∈ t'.tasks, p.isParent = true → GroupOk p (t'.subtasks p.id))
    (artifactOf : ∀ p ∈ t'.tasks, p.isParent = true →
      (p.id ∈ t.artifacts.map Prod.fst ↔ p.status = .closed)) : Inv t' := by
  have sameIds : t'.tasks.map Task.id = t.tasks.map Task.id ++ new.map Task.id := by
    rw [tasks, List.map_append, List.map_map]
    congr 1
    exact List.map_congr_left fun r _ => ids r
  -- A row is an old one, rewritten, or one of those appended.
  have each : ∀ {P : Task A → Prop}, (∀ r ∈ t.tasks, P (g r)) → (∀ r ∈ new, P r) →
      ∀ r ∈ t'.tasks, P r := fun old fresh r member => by
    rw [tasks] at member
    rcases List.mem_append.mp member with here | here
    · obtain ⟨x, present, rfl⟩ := List.mem_map.mp here
      exact old x present
    · exact fresh r here
  constructor
  · rw [sameIds]
    refine List.nodup_append.mpr ⟨inv.distinct, newIds, fun a old b fresh same => ?_⟩
    obtain ⟨r, member, rfl⟩ := List.mem_map.mp fresh
    exact absent r member (same ▸ old)
  · rw [cfg, root]; exact each ok newOk
  · exact each (fun r member => by
      rw [ids r]
      exact Nat.lt_of_lt_of_le (inv.issued r member) next) newIssued
  · rw [sameIds]
    refine each (fun r member => ?_) fun r member => ?_
    · rw [ids r]; exact List.mem_append_left _ (inv.parents r member)
    · rcases newParents r member with old | parent
      · exact List.mem_append_left _ old
      · rw [TaskId.parentId_of_isParent parent]
        exact List.mem_append_right _ (List.mem_map_of_mem member)
  · exact groups
  · rw [artifacts]; exact inv.artifactIds
  · rw [artifacts]
    exact fun id member => Nat.lt_of_lt_of_le (inv.artifactsIssued id member) next
  · rw [artifacts]; exact artifactOf

theorem opened {t : TaskTable A} (inv : Inv t) (who : A) (text : String) (now : BlockNumber)
    (room : t.nextParent + 1 < 2 ^ 32) :
    Inv (t.apply (.opened who (.ofParent t.nextParent) text) now) := by
  let fresh := Task.ofOpened who (.ofParent t.nextParent) text now
  let t' := t.apply (.opened who (.ofParent t.nextParent) text) now
  have tasks : t'.tasks = t.tasks ++ [fresh] := rfl
  have isParent : fresh.isParent = true := rfl
  have nextParent : t'.nextParent = t.nextParent + 1 := by
    simp only [t', apply, pushTask, TaskId.ofParent, u32Succ, Nat.mod_eq_of_lt room]
    omega
  have absent : ∀ r ∈ t.tasks, r.id.parent ≠ t.nextParent := fun r member =>
    Nat.ne_of_lt (inv.issued r member)
  have subs : ∀ id, t'.subtasks id = t.subtasks id := fun id => by
    simp [subtasks, tasks, isParent]
  -- A sub-task's parent number was given out before, and this one was not.
  have noSubs : t.subtasks fresh.id = [] :=
    List.eq_nil_iff_forall_not_mem.mpr fun r sub =>
      absent r (mem_subtasks.mp sub).1 (mem_subtasks.mp sub).2.1
  refine inv.extend id [fresh] (by rw [List.map_id]; rfl) rfl rfl rfl
    (nextParent ▸ Nat.le_succ _) (fun _ => rfl) inv.rows ?_ (by simp) ?_ ?_ ?_ ?_ ?_
  · rintro r (_ | ⟨_, ⟨⟩⟩)
    exact ⟨fun w _ => by simp [fresh, Task.ofOpened], rfl⟩
  · rintro r (_ | ⟨_, ⟨⟩⟩) old
    obtain ⟨x, member, same⟩ := List.mem_map.mp old
    exact absent x member (by rw [same]; rfl)
  · rintro r (_ | ⟨_, ⟨⟩⟩)
    rw [nextParent]
    exact Nat.lt_succ_self _
  · rintro r (_ | ⟨_, ⟨⟩⟩)
    exact .inr isParent
  · intro p member parent
    rw [subs]
    rcases List.mem_append.mp member with old | last
    · exact inv.groups p old parent
    · rw [List.mem_singleton.mp last, noSubs]
      rfl
  · intro p member parent
    rcases List.mem_append.mp member with old | last
    · exact inv.artifactOf p old parent
    · rw [List.mem_singleton.mp last]
      refine ⟨fun committed => ?_, fun closed => by simp [Task.ofOpened] at closed⟩
      exact absurd (inv.artifactsIssued _ committed) (Nat.lt_irrefl _)

/-- The rows a plan's offers push. -/
def planRows (parent : TaskId) (items : List (PlanItem A)) (now : BlockNumber) : List (Task A) :=
  items.mapIdx fun i item => Task.ofAssigned item.who ⟨parent.parent, i + 1⟩ item.what item.expect
    now

/-- A plan of at most 65535 items is numbered from 1. -/
theorem planRows_ids (parent : TaskId) (items : List (PlanItem A)) (now : BlockNumber) :
    (planRows parent items now).map Task.id =
      (List.range' 1 items.length).map fun i => ⟨parent.parent, i⟩ := by
  apply List.ext_getElem (by simp [planRows])
  intro i _ _
  simp [planRows, Task.ofAssigned, Nat.add_comm]

theorem mem_planRows {parent : TaskId} {items : List (PlanItem A)} {now : BlockNumber}
    {r : Task A} (member : r ∈ planRows parent items now) :
    ∃ item ∈ items, ∃ i, r = Task.ofAssigned item.who ⟨parent.parent, i + 1⟩ item.what
      item.expect now := by
  obtain ⟨i, below, rfl⟩ := List.mem_mapIdx.mp member
  exact ⟨_, List.getElem_mem below, i, rfl⟩

/-- Offers to ids the table does not have yet push one pending row each. -/
theorem applyAll_planOffers (t : TaskTable A) (parent : TaskId) (items : List (PlanItem A))
    (now : BlockNumber) (few : items.length ≤ 65535)
    (absent : ∀ i, ⟨parent.parent, i + 1⟩ ∉ t.tasks.map Task.id) :
    t.applyAll (planOffers parent items) now =
      { t with tasks := t.tasks ++ planRows parent items now } := by
  induction items using List.reverseRecOn with
  | nil => simp [planOffers, planRows]
  | append_singleton items item ih =>
    rw [List.length_append, List.length_singleton] at few
    have small : items.length + 1 < 2 ^ 16 := by omega
    -- Not an id of the table, nor of the rows pushed before it: these are numbered up to here.
    have none : ({ t with tasks := t.tasks ++ planRows parent items now } : TaskTable A).get
        ⟨parent.parent, items.length + 1⟩ = none := by
      rw [get_eq_none, List.map_append, List.mem_append, planRows_ids]
      rintro (old | new)
      · exact absent _ old
      · obtain ⟨i, member, same⟩ := List.mem_map.mp new
        have := (List.mem_range'_1.mp member).2
        simp only [TaskId.mk.injEq] at same
        omega
    have offers : planOffers parent (items ++ [item]) = planOffers parent items ++
        [.assigned item.who ⟨parent.parent, items.length + 1⟩ item.what item.expect] := by
      simp only [planOffers, List.mapIdx_append, List.mapIdx_cons, List.mapIdx_nil, Nat.zero_add,
        Nat.mod_eq_of_lt small]
    have rows : planRows parent (items ++ [item]) now = planRows parent items now ++
        [Task.ofAssigned item.who ⟨parent.parent, items.length + 1⟩ item.what item.expect now] := by
      simp [planRows, List.mapIdx_append]
    rw [offers, rows, applyAll_append, ih (by omega), applyAll_cons, applyAll_nil]
    simp [apply, none, pushTask]

theorem planned {t : TaskTable A} (inv : Inv t) {parent : TaskId} {p : Task A}
    {items : List (PlanItem A)} (found : t.get parent = some p) (kind : parent.isParent = true)
    (status : p.status = .opened) (nonempty : items ≠ []) (few : items.length ≤ 65535)
    (assignable : ∀ item ∈ items, t.root ≠ some item.who) (who : A) (count : Nat)
    (now : BlockNumber) :
    Inv (t.applyAll (.planned who parent count :: planOffers parent items) now) := by
  obtain ⟨present, rfl⟩ := get_some found
  let new := planRows p.id items now
  let g : Task A → Task A := fun r => if r.id = p.id then { r with
    status := .planned
    nextDirective := u32SaturatingAdd now t.cfg.timers.directiveNag
    directiveNudgesUsed := 0 } else r
  let t' : TaskTable A := { t with tasks := t.tasks.map g ++ new }
  have gid : ∀ r, (g r).id = r.id := fun r => by simp only [g]; split <;> rfl
  have gkind : ∀ r, (g r).isParent = r.isParent := fun r => by simp only [Task.isParent, gid]
  have other : ∀ r, r.id ≠ p.id → g r = r := fun r ne => if_neg ne
  have hit : (g p).status = .planned := by simp [g]
  -- A parent that is open has no sub-tasks yet, so every id of the plan is new.
  have noSubs : t.subtasks p.id = [] := by
    have group := inv.groups p present kind
    simpa [GroupOk, status] using group
  have absent : ∀ i, ⟨p.id.parent, i + 1⟩ ∉ t.tasks.map Task.id := by
    intro i old
    obtain ⟨r, member, same⟩ := List.mem_map.mp old
    have sub : r ∈ t.subtasks p.id :=
      mem_subtasks.mpr ⟨member, by rw [same], by simp [Task.isParent, same, TaskId.isParent]⟩
    rw [noSubs] at sub
    exact absurd sub (by simp)
  have folded : t.applyAll (.planned who p.id count :: planOffers p.id items) now = t' := by
    have updated : t.apply (.planned who p.id count) now = { t with tasks := t.tasks.map g } := by
      simp only [apply, TaskTable.updateTask,
        KeyedList.update_eq_map Task.id p.id _ t.tasks inv.distinct]
      rfl
    have sameIds : (t.tasks.map g).map Task.id = t.tasks.map Task.id := by
      rw [List.map_map]
      exact List.map_congr_left fun r _ => gid r
    rw [applyAll_cons, updated, applyAll_planOffers _ _ _ _ few (sameIds ▸ absent)]
  rw [folded]
  have newSub : ∀ r ∈ new, r.id.parent = p.id.parent ∧ r.isParent = false := fun r member => by
    obtain ⟨_, _, _, rfl⟩ := mem_planRows member
    exact ⟨rfl, by simp [Task.ofAssigned, Task.isParent, TaskId.isParent]⟩
  -- The plan's parent gets the new rows for its sub-tasks, and every other group is as it was.
  have subs : ∀ q, t'.subtasks q =
      t.subtasks q ++ if p.id.parent = q.parent then new else [] := fun q => by
    have old : (t.subtasks q).map g = t.subtasks q := by
      apply (List.map_congr_left fun r member => other r fun same => ?_).trans (List.map_id _)
      have sub := (mem_subtasks.mp member).2.2
      rw [Task.isParent, same, kind] at sub
      exact Bool.noConfusion sub
    rw [← old, ← subtasks_map t g fun r _ => gid r]
    simp only [t', subtasks, List.filter_append]
    congr 1
    split
    next here =>
      refine List.filter_eq_self.mpr fun r member => ?_
      simp [(newSub r member).1, (newSub r member).2, here]
    next there =>
      refine List.filter_eq_nil_iff.mpr fun r member => ?_
      simp [(newSub r member).1, there]
  refine inv.extend g new rfl rfl rfl rfl (Nat.le_refl _) gid ?_ ?_ ?_ ?_ ?_ ?_ ?_ ?_
  · intro r member
    by_cases same : r.id = p.id
    · simp only [g, if_pos same]
      exact ⟨(inv.rows r member).1, by rw [← kind]; exact congrArg TaskId.isParent same⟩
    · rw [other r same]; exact inv.rows r member
  · intro r member
    obtain ⟨item, planned, i, rfl⟩ := mem_planRows member
    refine ⟨fun w isRoot => ⟨fun same => ?_, by simp [Task.ofAssigned]⟩,
      by simp [Task.ofAssigned, Task.isParent, TaskId.isParent], rfl, rfl, rfl, rfl⟩
    exact assignable item planned (isRoot.trans same.symm)
  · rw [planRows_ids]
    refine List.Nodup.map (fun i j same => ?_) List.nodup_range'
    exact congrArg TaskId.sub same
  · intro r member
    obtain ⟨_, _, i, rfl⟩ := mem_planRows member
    exact absent i
  · intro r member
    rw [(newSub r member).1]
    exact inv.issued p present
  · intro r member
    refine .inl (List.mem_map.mpr ⟨p, present, ?_⟩)
    rw [TaskId.parentId, (newSub r member).1]
    exact (TaskId.parentId_of_isParent kind).symm
  · intro q member parent
    rw [subs]
    rcases List.mem_append.mp member with here | last
    · obtain ⟨x, old, rfl⟩ := List.mem_map.mp here
      by_cases same : x.id = p.id
      · rw [gid, same, noSubs, if_pos rfl, List.nil_append]
        obtain rfl := inv.unique found old same
        simp only [GroupOk, hit]
        refine ⟨items.length, List.length_pos_iff.mpr nonempty, ?_⟩
        -- The sub-tasks of a plan are numbered from one, without a gap.
        have ids := congrArg (List.map TaskId.sub) (planRows_ids x.id items now)
        simpa [List.map_map, Function.comp_def] using ids
      · have apart : p.id.parent ≠ x.id.parent := fun eq => same <| by
          rw [gkind] at parent
          rw [← TaskId.parentId_of_isParent parent, ← TaskId.parentId_of_isParent kind,
            TaskId.parentId, TaskId.parentId, eq]
        rw [gid, if_neg apart, List.append_nil, other x same]
        rw [gkind] at parent
        exact inv.groups x old parent
    · rw [(newSub q last).2] at parent
      exact Bool.noConfusion parent
  · intro q member parent
    rcases List.mem_append.mp member with here | last
    · obtain ⟨x, old, rfl⟩ := List.mem_map.mp here
      rw [gkind] at parent
      rw [gid, inv.artifactOf x old parent]
      by_cases same : x.id = p.id
      · obtain rfl := inv.unique found old same
        simp [hit, status]
      · rw [other x same]
    · rw [(newSub q last).2] at parent
      exact Bool.noConfusion parent

end Inv

end TaskTable

end AkumaMiot

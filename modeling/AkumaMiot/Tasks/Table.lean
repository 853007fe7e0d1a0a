import AkumaMiot.Primitives
import AkumaMiot.Lib.KeyedList

/-!
# The task table

Parent, directed sub-task, claim, submit, clear, artifact, as a pure state machine. Each verb
decides its effects first and then folds them through `apply`, the only place rows,
artifacts, counters and the leader are written.
-/
namespace AkumaMiot

/-- A parent, or one sub-task of one; `id.isParent` tells which. -/
structure Task (A : Type) where
  id : TaskId
  status : TaskStatus
  text : String
  expect : String
  assignee : Option A
  holder : Option A
  outcome : Option Outcome
  openedBy : A
  openedAt : BlockNumber
  offeredAt : Option BlockNumber
  leaseUntil : Option BlockNumber
  nextNag : Option BlockNumber
  nudgesUsed : Nat
  reoffers : Nat
  budgetAnnounced : Bool
  nextDirective : BlockNumber
  directiveNudgesUsed : Nat
  closedAt : Option BlockNumber
deriving DecidableEq, Repr

namespace Task

variable {A : Type}

def isParent (r : Task A) : Bool := r.id.isParent

def isCleared (r : Task A) : Bool := r.status = .cleared

/-- The row `Opened` creates. -/
def ofOpened (who : A) (task : TaskId) (text : String) (now : BlockNumber) : Task A where
  id := task
  status := .opened
  text := text
  expect := ""
  assignee := none
  holder := none
  outcome := none
  openedBy := who
  openedAt := now
  offeredAt := none
  leaseUntil := none
  nextNag := none
  nudgesUsed := 0
  reoffers := 0
  budgetAnnounced := false
  nextDirective := now
  directiveNudgesUsed := 0
  closedAt := none

/-- The row a first `Assigned` creates. -/
def ofAssigned (to_ : A) (task : TaskId) (what expect : String) (now : BlockNumber) : Task A where
  id := task
  status := .pending
  text := what
  expect := expect
  assignee := some to_
  holder := none
  outcome := none
  openedBy := to_
  openedAt := now
  offeredAt := some now
  leaseUntil := none
  nextNag := none
  nudgesUsed := 0
  reoffers := 0
  budgetAnnounced := false
  nextDirective := now
  directiveNudgesUsed := 0
  closedAt := none

end Task

/-- The part of the table that belongs in storage. -/
structure State (A : Type) where
  tasks : List (Task A) := []
  artifacts : List (TaskId × Artifact A) := []
  standaloneArtifacts : List (Nat × Artifact A) := []
  nextParent : Nat := 1
  nextStandaloneArtifact : Nat := 1
  leader : Option A := none
  root : Option A := none
deriving DecidableEq, Repr

/-- The table: stored state plus the caller's config. -/
structure TaskTable (A : Type) extends State A where
  cfg : Config
deriving DecidableEq, Repr

namespace TaskTable

variable {A : Type}

/-- `TaskTable::new`. -/
def new (cfg : Config) (root : Option A) : TaskTable A :=
  { root := root, cfg := cfg }

def fromState (state : State A) (cfg : Config) : TaskTable A := ⟨state, cfg⟩

def intoState (t : TaskTable A) : State A := t.toState

def get (t : TaskTable A) (id : TaskId) : Option (Task A) := KeyedList.lookup Task.id id t.tasks

/-- Every sub-task of `parent`, in creation order. -/
def subtasks (t : TaskTable A) (parent : TaskId) : List (Task A) :=
  t.tasks.filter fun r => r.id.parent = parent.parent && !r.isParent

/-- What `if let Ok(t) = self.task_mut(id)` does to the rows. -/
def updateTask (t : TaskTable A) (id : TaskId) (f : Task A → Task A) : TaskTable A :=
  { t with tasks := KeyedList.update Task.id id f t.tasks }

def pushTask (t : TaskTable A) (r : Task A) : TaskTable A :=
  { t with tasks := t.tasks ++ [r] }

/-- Fold one effect into the table. Live calls and a replay of the log both come here. -/
def apply (t : TaskTable A) (effect : Effect A) (now : BlockNumber) : TaskTable A :=
  match effect with
  | .opened who task text =>
    -- A replayed log may name a number that this table has not given out yet.
    { t with nextParent := max t.nextParent (u32Succ task.parent) }.pushTask
      (Task.ofOpened who task text now)
  | .planned _ task _ =>
    t.updateTask task fun p => { p with
      status := .planned
      nextDirective := u32SaturatingAdd now t.cfg.timers.directiveNag
      directiveNudgesUsed := 0 }
  | .assigned to_ task what expect =>
    if (t.get task).isSome then
      -- Offered again: how often, and how often it was nudged, is kept.
      t.updateTask task fun r => { r with
        assignee := some to_
        status := .pending
        text := what
        expect := expect
        offeredAt := some now }
    else
      -- The first offer: `plan` creates no sub-task rows of its own.
      t.pushTask (Task.ofAssigned to_ task what expect now)
  | .directed to_ task directive =>
    if directive = .leaderElected then
      -- The new leader is told about every parent at once.
      { t with
        leader := some to_
        tasks := t.tasks.map fun r =>
          if r.isParent then { r with nextDirective := now, directiveNudgesUsed := 0 } else r }
    else
      t.updateTask task fun p => { p with
        nextDirective := u32SaturatingAdd now t.cfg.timers.directiveNag
        directiveNudgesUsed := u8SaturatingAdd p.directiveNudgesUsed 1 }
  | .nudge _ task remaining _ =>
    -- The effect says how many are left, the row how many were used.
    t.updateTask task fun r => { r with
      nudgesUsed := t.cfg.timers.maxNudges - remaining
      nextNag := some (u32SaturatingAdd now t.cfg.timers.workNag) }
  | .record who task act text =>
    match act with
    | .claim =>
      t.updateTask task fun r => { r with
        status := .inProgress
        holder := some who
        leaseUntil := some (u32SaturatingAdd now t.cfg.timers.lease)
        nextNag := some (u32SaturatingAdd now t.cfg.timers.workNag)
        nudgesUsed := 0
        reoffers := 0
        budgetAnnounced := false
        offeredAt := none }
    -- A result is in: the leader is asked about the parent at the next tick.
    | .done | .failed =>
      let outcome := if act = .failed then Outcome.failed text else Outcome.done text
      (t.updateTask task fun r => { r with
        status := .awaitingClearance
        outcome := some outcome
        holder := some who
        leaseUntil := none
        nextNag := none
        offeredAt := none
        nudgesUsed := 0 }).updateTask task.parentId fun p => { p with
          nextDirective := now
          directiveNudgesUsed := 0 }
    | .clear =>
      (t.updateTask task fun r => { r with status := .cleared }).updateTask task.parentId
        fun p => { p with
          nextDirective := now
          directiveNudgesUsed := 0 }
    -- The assignee stays, and so does the count of offers.
    | .reopen =>
      t.updateTask task fun r => { r with
        status := .pending
        outcome := none
        holder := none
        offeredAt := some now
        leaseUntil := none
        nextNag := none
        nudgesUsed := 0
        budgetAnnounced := false }
    -- The state change rides on the `Closed` effect that comes with it.
    | .artifact => t
  | .requeued task _ why =>
    match why with
    | .unclaimed =>
      -- An offer nobody took up is made again.
      t.updateTask task fun r => { r with
        offeredAt := some now
        reoffers := u8SaturatingAdd r.reoffers 1 }
    | .leaseExpired =>
      t.updateTask task fun r => { r with
        status := .pending
        holder := none
        offeredAt := some now
        leaseUntil := none
        nextNag := none
        nudgesUsed := 0
        budgetAnnounced := false }
    -- Said beside `Rehomed` and `Record`, which change the row.
    | .rehomed | .reopened => t
  | .rehomed task _ to_ =>
    t.updateTask task fun r => { r with
      assignee := some to_
      status := .pending
      holder := none
      outcome := none
      offeredAt := some now
      leaseUntil := none
      nextNag := none
      nudgesUsed := 0
      reoffers := 0
      budgetAnnounced := false }
  | .nudgeBudgetSpent _ task =>
    t.updateTask task fun r => { r with
      budgetAnnounced := true
      nextNag := none }
  | .closed task title body author =>
    let committed : Artifact A := ⟨title, body, author, now⟩
    { t with artifacts := t.artifacts ++ [(task.parentId, committed)] }.updateTask task
      fun p => { p with status := .closed, closedAt := some now }
  | .failed task =>
    t.updateTask task fun p => { p with status := .failed, closedAt := some now }
  | .standaloneArtifact author id title body =>
    let published : Artifact A := ⟨title, body, author, now⟩
    { t with
      nextStandaloneArtifact := max t.nextStandaloneArtifact (u32Succ id)
      standaloneArtifacts := t.standaloneArtifacts ++ [(id, published)] }
  -- Chat, votes, stats and patrons touch no task state.
  | .said .. | .message .. | .reacted .. | .voted .. | .statsReported .. | .statsReported2 .. => t
  | .patronRequested .. | .patronApproved .. | .patronRejected .. | .patronRevoked .. => t

/-- `for e in &effects { self.apply(e, now) }`. -/
def applyAll (t : TaskTable A) (effects : List (Effect A)) (now : BlockNumber) : TaskTable A :=
  effects.foldl (fun t e => t.apply e now) t

/-! ## Acts

Each hands back its `Result` and the table as the call left it. -/

/-- The accepting tail every verb shares: fold the effects, then return them. -/
def accept (t : TaskTable A) (effects : List (Effect A)) (now : BlockNumber) :
    Except Error (List (Effect A)) × TaskTable A :=
  (.ok effects, t.applyAll effects now)

section Acts

variable [DecidableEq A]

/-- Install a new leader, and tell it so. -/
def setLeader (t : TaskTable A) (who : A) (now : BlockNumber) : List (Effect A) × TaskTable A :=
  if t.leader = some who then ([], t)
  else
    let effects := [.directed who TaskId.default .leaderElected]
    (effects, t.applyAll effects now)

/-- `open`: a new parent task, by the operator or the leader. -/
def openParent (t : TaskTable A) (who : A) (auth : Authority) (text : String)
    (now : BlockNumber) : Except Error (TaskId × List (Effect A)) × TaskTable A :=
  if ¬ (auth = .root ∨ auth = .leader) then (.error .notAuthorized, t)
  else if text.utf8ByteSize > t.cfg.limits.maxText then (.error .tooLong, t)
  -- One parent plus its eventual sub-tasks has to fit.
  else if t.tasks.length + 1 + t.cfg.limits.maxSubtasks > t.cfg.limits.maxTasks then
    (.error .tooManyTasks, t)
  else
    let id := TaskId.ofParent t.nextParent
    let effects := [.opened who id text]
    (.ok (id, effects), t.applyAll effects now)

/-- Why one line of a plan is refused, if it is. -/
def refusesItem (t : TaskTable A) (item : PlanItem A) : Option Error :=
  if t.root = some item.who then some .rootNotAssignable
  else if item.what.utf8ByteSize > t.cfg.limits.maxText ∨
      item.expect.utf8ByteSize > t.cfg.limits.maxText then some .tooLong
  else none

/-- The offers of a plan: item `i` is sub-task `(i + 1) as u16`. -/
def planOffers (parent : TaskId) (items : List (PlanItem A)) : List (Effect A) :=
  items.mapIdx fun i item =>
    .assigned item.who ⟨parent.parent, (i + 1) % 2 ^ 16⟩ item.what item.expect

/-- Split a parent into directed sub-tasks, all in one call. -/
def plan (t : TaskTable A) (who : A) (auth : Authority) (parent : TaskId)
    (items : List (PlanItem A)) (now : BlockNumber) :
    Except Error (List (Effect A)) × TaskTable A :=
  if auth ≠ .leader then (.error .notAuthorized, t)
  else if !parent.isParent then (.error .wrongKind, t)
  else if items.isEmpty then (.error .emptyPlan, t)
  else if items.length > t.cfg.limits.maxSubtasks then (.error .tooManySubtasks, t)
  else match items.findSome? t.refusesItem with
  | some why => (.error why, t)
  | none =>
    match t.get parent with
    | none => (.error .noSuchTask, t)
    | some p =>
      if p.status = .opened then
        t.accept (.planned who parent (items.length % 2 ^ 32) :: planOffers parent items) now
      else if p.status = .planned then (.error .alreadyPlanned, t)
      else (.error .wrongStatus, t)

/-- Say something. Chat touches no task state, so nothing is folded. -/
def say (t : TaskTable A) (who : A) (auth : Authority) (to_ : Option A) (body : String)
    (noAck offRecord : Bool) : Except Error (List (Effect A)) × TaskTable A :=
  if body.utf8ByteSize > t.cfg.limits.maxMessage then (.error .tooLong, t)
  else (.ok [.said who to_ body (auth = .root) noAck offRecord], t)

/-- Publish markdown with no task behind it. -/
def publishStandaloneArtifact (t : TaskTable A) (who : A) (body : String) (now : BlockNumber) :
    Except Error (Nat × List (Effect A)) × TaskTable A :=
  if body.utf8ByteSize > t.cfg.limits.maxArtifact then (.error .tooLong, t)
  else
    let id := t.nextStandaloneArtifact
    let title := titleFromMarkdown body t.cfg.limits.maxTitle
    let effects := [.standaloneArtifact who id title body]
    (.ok (id, effects), t.applyAll effects now)

/-- Move a sub-task to a different cat. -/
def reassign (t : TaskTable A) (_who : A) (auth : Authority) (id : TaskId) (to_ : A)
    (now : BlockNumber) : Except Error (List (Effect A)) × TaskTable A :=
  if auth ≠ .leader then (.error .notAuthorized, t)
  else if t.root = some to_ then (.error .rootNotAssignable, t)
  else match t.get id with
  | none => (.error .noSuchTask, t)
  | some r =>
    if r.isParent then (.error .wrongKind, t)
    -- Nobody's work is taken from them.
    else if ¬ (r.status = .pending ∨ r.status = .awaitingClearance) then (.error .wrongStatus, t)
    else t.accept [.rehomed id r.assignee to_, .requeued id none .rehomed,
      .assigned to_ id r.text r.expect] now

def claim (t : TaskTable A) (who : A) (id : TaskId) (now : BlockNumber) :
    Except Error (List (Effect A)) × TaskTable A :=
  match t.get id with
  | none => (.error .noSuchTask, t)
  | some r =>
    if r.isParent then (.error .wrongKind, t)
    else if r.status = .inProgress then (.error .alreadyClaimed, t)
    else if r.status ≠ .pending then (.error .wrongStatus, t)
    else if r.assignee ≠ some who then (.error .notYours, t)
    -- The first nudge is said at once and leaves the whole budget.
    else t.accept [.record who id .claim "", .nudge who id t.cfg.timers.maxNudges false] now

/-- A result, with or without a claim before it. -/
def submit (t : TaskTable A) (who : A) (id : TaskId) (outcome : Outcome) (now : BlockNumber) :
    Except Error (List (Effect A)) × TaskTable A :=
  if outcome.text.utf8ByteSize > t.cfg.limits.maxResult then (.error .tooLong, t)
  else match t.get id with
  | none => (.error .noSuchTask, t)
  | some r =>
    let act := if outcome.isFailed then Act.failed else Act.done
    let accepted := t.accept [.record who id act outcome.text] now
    if r.isParent then (.error .wrongKind, t)
    else match r.status with
    | .inProgress => if r.holder = some who then accepted else (.error .notYours, t)
    -- A submit without a claim, and the late submit of an expired lease.
    | .pending => if r.assignee = some who then accepted else (.error .notYours, t)
    | .awaitingClearance => (.error .alreadySubmitted, t)
    | _ => (.error .wrongStatus, t)

def clear (t : TaskTable A) (who : A) (auth : Authority) (id : TaskId) (now : BlockNumber) :
    Except Error (List (Effect A)) × TaskTable A :=
  if auth ≠ .leader then (.error .notAuthorized, t)
  else match t.get id with
  | none => (.error .noSuchTask, t)
  | some r =>
    if r.isParent then (.error .wrongKind, t)
    else if r.status ≠ .awaitingClearance then (.error .wrongStatus, t)
    else t.accept [.record who id .clear ""] now

def reopen (t : TaskTable A) (who : A) (auth : Authority) (id : TaskId) (_why : String)
    (now : BlockNumber) : Except Error (List (Effect A)) × TaskTable A :=
  if auth ≠ .leader then (.error .notAuthorized, t)
  else match t.get id with
  | none => (.error .noSuchTask, t)
  | some r =>
    if r.isParent then (.error .wrongKind, t)
    else if r.status ≠ .awaitingClearance then (.error .wrongStatus, t)
    else
      let offer := match r.assignee with
        | some to_ => [.assigned to_ id r.text r.expect]
        | none => []
      t.accept ([.record who id .reopen "", .requeued id none .reopened] ++ offer) now

def commitArtifact (t : TaskTable A) (who : A) (auth : Authority) (id : TaskId) (body : String)
    (now : BlockNumber) : Except Error (List (Effect A)) × TaskTable A :=
  if auth ≠ .leader then (.error .notAuthorized, t)
  else if !id.isParent then (.error .wrongKind, t)
  else if body.utf8ByteSize > t.cfg.limits.maxArtifact then (.error .tooLong, t)
  else match t.get id with
  | none => (.error .noSuchTask, t)
  | some p =>
    if p.status ≠ .planned then (.error .wrongStatus, t)
    -- A plan is never empty, so there is something to be cleared.
    else if (t.subtasks id).any (fun r => !r.isCleared) then (.error .subtasksOutstanding, t)
    else
      let title := titleFromMarkdown body t.cfg.limits.maxTitle
      t.accept [.record who id .artifact "", .closed id title body who] now

/-- Every per-task act. -/
def update (t : TaskTable A) (who : A) (auth : Authority) (id : TaskId) (act : Act)
    (text : String) (now : BlockNumber) : Except Error (List (Effect A)) × TaskTable A :=
  match act with
  | .claim => t.claim who id now
  | .done => t.submit who id (.done text) now
  | .failed => t.submit who id (.failed text) now
  | .clear => t.clear who auth id now
  | .reopen => t.reopen who auth id text now
  | .artifact => t.commitArtifact who auth id text now

end Acts

/-! ## The tick -/

/-- Offer a row to its assignee again. -/
def reoffer (r : Task A) : List (Effect A) :=
  match r.assignee with
  | some to_ => [.assigned to_ r.id r.text r.expect]
  | none => []

/-- Whether a held row's lease has run out. -/
def leaseExpired (r : Task A) (now : BlockNumber) : Bool :=
  r.leaseUntil.any fun deadline => deadline ≤ now

/-- Whether an unclaimed row's offer has lapsed with offers left. -/
def offerLapsed (cfg : Config) (r : Task A) (now : BlockNumber) : Bool :=
  r.reoffers < cfg.timers.maxReoffers &&
    r.offeredAt.any fun offered => u32SaturatingAdd offered cfg.timers.claimWindow ≤ now

/-- What stage 1 of the tick decides for one sub-task. Lease expiry comes before nudges. -/
def subtaskEffects (cfg : Config) (now : BlockNumber) (r : Task A) : List (Effect A) :=
  match r.status with
  | .inProgress =>
    if leaseExpired r now then .requeued r.id r.holder .leaseExpired :: reoffer r
    else if r.nextNag.any (fun deadline => deadline ≤ now) then
      match r.holder with
      | none => []
      | some holder =>
        -- The last nudge says that it is, and after it the budget is said to be spent, once.
        if r.nudgesUsed < cfg.timers.maxNudges then
          let remaining := cfg.timers.maxNudges - (r.nudgesUsed + 1)
          [.nudge holder r.id remaining (remaining = 0)]
        else if !r.budgetAnnounced then [.nudgeBudgetSpent holder r.id]
        else []
    else []
  | .pending =>
    if offerLapsed cfg r now then .requeued r.id none .unclaimed :: reoffer r else []
  | _ => []

/-- What, if anything, this parent needs the leader to type right now. -/
def directiveFor (t : TaskTable A) (parent : Task A) : Option Directive :=
  match parent.status with
  | .opened => some .planNeeded
  | .planned =>
    let subs := t.subtasks parent.id
    if subs.isEmpty then none
    -- The most pressing comes first: who will not be offered again, then who waits, then the end.
    else if subs.any (fun r => r.status = .pending && t.cfg.timers.maxReoffers ≤ r.reoffers) then
      some .reassignNeeded
    else if subs.any (fun r => r.status = .awaitingClearance) then some .clearanceNeeded
    else if subs.all Task.isCleared then some .artifactNeeded
    else none
  | _ => none

/-- Stage 1: sub-task deadlines, decided over the table as it stands. -/
def stage1 (t : TaskTable A) (now : BlockNumber) : List (Effect A) :=
  (t.tasks.filter (fun r => !r.isParent)).flatMap (subtaskEffects t.cfg now)

/-- The parents stage 2 has a directive for. -/
def due (t : TaskTable A) (now : BlockNumber) : List (TaskId × Directive) :=
  (t.tasks.filter fun r => r.isParent && r.nextDirective ≤ now).filterMap fun r =>
    (t.directiveFor r).map fun d => (r.id, d)

/-- Stage 2: one directive for each due parent, or its failure once the budget is spent. -/
def stage2 (t : TaskTable A) (leader : A) (now : BlockNumber) : List (Effect A) :=
  (t.due now).map fun (id, directive) =>
    let exhausted := (t.get id).any fun p =>
      t.cfg.timers.maxDirectiveNudges ≤ p.directiveNudgesUsed
    if exhausted then .failed id else .directed leader id directive

/-- Advance every deadline to `now`. -/
def tick (t : TaskTable A) (now : BlockNumber) : List (Effect A) × TaskTable A :=
  let first := t.stage1 now
  let t := t.applyAll first now
  -- Nobody to direct.
  match t.leader with
  | none => (first, t)
  | some leader =>
    let second := t.stage2 leader now
    (first ++ second, t.applyAll second now)

/-- The numbers of the parents closed at least `keepFor` blocks ago. -/
def doomed (t : TaskTable A) (now keepFor : BlockNumber) : List Nat :=
  ((t.tasks.filter fun r => r.isParent && (r.status = .closed || r.status = .failed)).filter
    fun r => keepFor ≤ now - r.closedAt.getD now).map fun r => r.id.parent

/-- Drop those parents' rows. Artifacts stay. Returns how many rows went. -/
def gc (t : TaskTable A) (now keepFor : BlockNumber) : Nat × TaskTable A :=
  let gone := t.doomed now keepFor
  -- The sub-tasks go by their parent's number.
  if gone.isEmpty then (0, t)
  else
    let kept := t.tasks.filter fun r => !gone.contains r.id.parent
    (t.tasks.length - kept.length, { t with tasks := kept })

/-- Fail every open parent at once, then sweep everything already dead. -/
def clearAll (t : TaskTable A) (auth : Authority) (now : BlockNumber) :
    Except Error (List (Effect A)) × TaskTable A :=
  if auth ≠ .root then (.error .notAuthorized, t)
  else
    let openIds := (t.tasks.filter fun r =>
      r.isParent && (r.status = .opened || r.status = .planned)).map (·.id)
    let effects := openIds.map Effect.failed
    -- Closed just now, they are old enough for a sweep that keeps nothing.
    (.ok effects, ((t.applyAll effects now).gc now 0).2)

end TaskTable

end AkumaMiot

import AkumaMiot.Agent.Loop
import Mathlib.Logic.Relation

/-!
# What one step of the loop is made of

A step is a chain of moves, each on one part of the machine, and asks the model at most once, at
its end. What every move keeps, every step keeps.
-/
namespace AkumaMiot

namespace AgentStateMachine

/-- Nothing changed but the clocks, the budgets of check-ins and nudges, and the warnings. -/
structure Minor (m m' : AgentStateMachine) : Prop where
  history : m'.history = m.history
  fresh : m'.fresh = m.fresh
  toolLog : m'.toolLog = m.toolLog
  toolBase : m'.toolBase = m.toolBase
  turnsFed : m'.turnsFed = m.turnsFed
  backTx : m'.backTx = m.backTx
  queries : m'.queries = m.queries
  bg : m'.bg = m.bg
  records : m'.records = m.records
  followups : m'.followups = m.followups
  held : m'.held = m.held
  session : m'.session = m.session
  pending : m'.pending = m.pending
  running : m'.running = m.running
  live : m'.live = m.live
  notices : m'.notices = m.notices
  flights : m'.flights = m.flights
  heldReleases : m'.heldReleases = m.heldReleases
  syntheticWakes : m'.syntheticWakes = m.syntheticWakes
  tasks : m'.tasks = m.tasks
  trace : m'.trace = m.trace

/-- What reading a result and acting on a call both leave alone. -/
structure Keeps (m m' : AgentStateMachine) : Prop where
  toolBase : m'.toolBase = m.toolBase
  turnsFed : m'.turnsFed = m.turnsFed
  followups : m'.followups = m.followups
  held : m'.held = m.held
  session : m'.session = m.session
  pending : m'.pending = m.pending
  heldReleases : m'.heldReleases = m.heldReleases
  syntheticWakes : m'.syntheticWakes = m.syntheticWakes
  sent : m'.trace.sent = m.trace.sent
  taken : m'.trace.taken = m.trace.taken
  fed : m'.trace.fed = m.trace.fed

theorem Keeps.refl (m : AgentStateMachine) : Keeps m m := by constructor <;> rfl

theorem Keeps.trans {a b c : AgentStateMachine} (first : Keeps a b) (second : Keeps b c) :
    Keeps a c where
  toolBase := second.toolBase.trans first.toolBase
  turnsFed := second.turnsFed.trans first.turnsFed
  followups := second.followups.trans first.followups
  held := second.held.trans first.held
  session := second.session.trans first.session
  pending := second.pending.trans first.pending
  heldReleases := second.heldReleases.trans first.heldReleases
  syntheticWakes := second.syntheticWakes.trans first.syntheticWakes
  sent := second.sent.trans first.sent
  taken := second.taken.trans first.taken
  fed := second.fed.trans first.fed

theorem Minor.keeps {m m' : AgentStateMachine} (minor : m.Minor m') : m.Keeps m' where
  toolBase := minor.toolBase
  turnsFed := minor.turnsFed
  followups := minor.followups
  held := minor.held
  session := minor.session
  pending := minor.pending
  heldReleases := minor.heldReleases
  syntheticWakes := minor.syntheticWakes
  sent := congrArg Trace.sent minor.trace
  taken := congrArg Trace.taken minor.trace
  fed := congrArg Trace.fed minor.trace

theorem land_keeps (m : AgentStateMachine) (flight : Option Nat) : Keeps m (m.land flight) := by
  cases flight with
  | none => exact .refl m
  | some id => constructor <;> rfl

theorem settleFlight_keeps (m : AgentStateMachine) (flight : Option Nat) :
    Keeps m (m.settleFlight flight) := by
  cases flight with
  | none => constructor <;> rfl
  | some id =>
    unfold settleFlight
    simp only
    split <;> constructor <;> rfl

theorem back_keeps (p : AgentStateMachine × List Row) (b : Back) : Keeps p.1 (back p b).1 := by
  cases b with
  | recordDone flight => constructor <;> rfl
  | result name out session flight asked =>
    have settled := (settleFlight_keeps p.1 flight).trans (land_keeps _ flight)
    unfold back
    simp only
    split
    · exact settled.trans (by constructor <;> rfl)
    · exact settled.trans (by constructor <;> rfl)

/-- Taking a flight off changes the counts and the lists of what is out, and nothing else. -/
theorem settled_eq (m : AgentStateMachine) (flight : Option Nat) :
    ∃ queries bg live running,
      (m.settleFlight flight).land flight = { m with queries, bg, live, running } := by
  cases flight with
  | none => exact ⟨m.queries - 1, m.bg, m.live, m.running, rfl⟩
  | some id =>
    by_cases background : id ∈ m.bg
    · refine ⟨m.queries, m.bg.filter (· ≠ id), m.live.filter (· ≠ id),
        m.running.eraseP (·.id = id), ?_⟩
      simp only [settleFlight, background, if_true, land]
    · refine ⟨m.queries - 1, m.bg, m.live.filter (· ≠ id), m.running.eraseP (·.id = id), ?_⟩
      simp only [settleFlight, background, if_false, land]

/-- A result of this session is logged and becomes a row. -/
theorem back_current (m : AgentStateMachine) (results : List Row) (name : String) (out : ToolOut)
    (flight : Option Nat) (asked : Asked) :
    ∃ queries bg live running, back (m, results) (.result name out m.session flight asked) =
      ({ m with
          queries, bg, live, running
          toolLog := m.toolLog ++ [(name, keep out.text)]
          trace := { m.trace with read := m.trace.read ++ [⟨name, out, asked⟩] } },
        results ++ [⟨m.nextId, feed m.nextId (keep out.text), asked⟩]) := by
  obtain ⟨queries, bg, live, running, eq⟩ := settled_eq m flight
  refine ⟨queries, bg, live, running, ?_⟩
  simp only [back, eq, ne_eq, not_true, if_false]
  rfl

/-- A result of a session that is over is not fed. -/
theorem back_stale (m : AgentStateMachine) (results : List Row) (name : String) (out : ToolOut)
    {session : Nat} (stale : session ≠ m.session) (flight : Option Nat) (asked : Asked) :
    ∃ queries bg live running, back (m, results) (.result name out session flight asked) =
      ({ m with
          queries, bg, live, running
          trace := { m.trace with read := m.trace.read ++ [⟨name, out, asked⟩] } }, results) := by
  obtain ⟨queries, bg, live, running, eq⟩ := settled_eq m flight
  refine ⟨queries, bg, live, running, ?_⟩
  simp only [back, eq, ne_eq, stale, not_false_iff, if_true]

theorem instant_keeps (m : AgentStateMachine) (name : String) (out : ToolOut) :
    Keeps m (m.instant name out) := by constructor <;> rfl

theorem startQuery_keeps (m : AgentStateMachine) (c : Call) : Keeps m (m.startQuery c) := by
  constructor <;> rfl

theorem startRecord_keeps (m : AgentStateMachine) (c : Call) : Keeps m (m.startRecord c) := by
  constructor <;> rfl

theorem compact_keeps (m : AgentStateMachine) (summary : String) : Keeps m (m.compact summary) := by
  constructor <;> rfl

theorem noteActed_keeps (t : Thinking) (m : AgentStateMachine) (c : Call) :
    Keeps m (m.noteActed t c) := by constructor <;> rfl

theorem dispatch_keeps (host : Host) (m : AgentStateMachine) (c : Call) :
    Keeps m (m.dispatch host c) := by
  unfold dispatch
  split
  · exact startQuery_keeps m c
  · exact startRecord_keeps m c
  · exact instant_keeps m _ _

theorem act_keeps (host : Host) (mo : Moment) (totalTokens : Nat) (p : AgentStateMachine × Bool)
    (c : Call) : Keeps p.1 (act host mo totalTokens p c).1 := by
  unfold act
  simp only
  split
  · exact compact_keeps p.1 _
  · split
    · exact instant_keeps p.1 _ _
    · exact dispatch_keeps host p.1 c

theorem acts_keep (host : Host) (mo : Moment) (totalTokens : Nat) (t : Thinking)
    (calls : List Call) (p : AgentStateMachine × Bool) :
    Keeps p.1
      (calls.foldl (fun p c => act host mo totalTokens (p.1.noteActed t c, p.2) c) p).1 := by
  induction calls generalizing p with
  | nil => exact .refl p.1
  | cons c calls ih =>
    exact ((noteActed_keeps t p.1 c).trans
      (act_keeps host mo totalTokens (p.1.noteActed t c, p.2) c)).trans (ih _)

theorem reckon_keeps (host : Host) (t : Thinking) (answer : Turn) (startedNothing : Bool)
    (m : AgentStateMachine) : Keeps m (m.reckon host t answer startedNothing) := by
  cases startedNothing <;> constructor <;> rfl

theorem sayUnless_keeps (m : AgentStateMachine) (nothing : Bool) (who : Speaker)
    (said : String) : Keeps m (m.sayUnless nothing who said) := by
  cases nothing <;> constructor <;> rfl

theorem answered_keeps (host : Host) (mo : Moment) (t : Thinking) (answer : Turn)
    (m : AgentStateMachine) : Keeps m (m.answered host mo t answer).1 := by
  unfold answered
  simp only
  refine Keeps.trans ?_ (reckon_keeps host t answer _ _)
  refine Keeps.trans ?_ (sayUnless_keeps _ _ _ _)
  refine Keeps.trans ?_ (acts_keep host mo answer.totalTokens t answer.calls (_, false))
  exact sayUnless_keeps m _ _ _

theorem age_keeps (mo : Moment) (m : AgentStateMachine) : Keeps m (m.age mo) := by
  unfold age
  simp only
  split
  · constructor <;> rfl
  · exact .refl m

/-- Aging rewrites the conversation, and nothing else. -/
theorem age_eq (mo : Moment) (m : AgentStateMachine) :
    m.age mo = { m with fresh := (m.age mo).fresh, history := (m.age mo).history } := by
  unfold age
  simp only
  split <;> rfl

/-! ## The watchdog -/

/-- What a tick makes of the machine, but for notices: nothing, a release, or a nudge. -/
inductive Watched (host : Host) (mo : Moment) (m : AgentStateMachine) : AgentStateMachine → Prop
  | nothing : Watched host mo m m
  | released (text : String) (some_ : m.held ≠ []) (queries : m.queries = 0)
      (records : m.records = 0) (left : m.heldReleases < MAX_HELD_RELEASES) :
      Watched host mo m
        { { m with heldReleases := m.heldReleases + 1 }.queueOwn text with
          idleSince := some mo.now }
  | nagged (text reminder : String) (nag : host.localNag = true)
      (some_ : mo.reminder = some reminder) (left : m.localNudges < MAX_LOCAL_TASK_NUDGES) :
      Watched host mo m
        { { m with localNudges := m.localNudges + 1 }.queueOwn text with
          lastUnfulfilledPromise := none
          awaitingNudgeReply := true
          idleSince := some mo.now }

theorem maybeReleaseHeld_watched (host : Host) (mo : Moment) (m : AgentStateMachine) :
    Watched host mo m (m.maybeReleaseHeld host mo).2 ∧
      ((m.maybeReleaseHeld host mo).1 = false → (m.maybeReleaseHeld host mo).2 = m) := by
  unfold maybeReleaseHeld
  split
  · exact ⟨.nothing, fun _ => rfl⟩
  next due =>
    simp only [not_or, not_not] at due
    split
    · exact ⟨.nothing, fun _ => rfl⟩
    next left =>
      split
      · exact ⟨.nothing, fun _ => rfl⟩
      · split
        · exact ⟨.nothing, fun _ => rfl⟩
        · exact ⟨.released _ due.1 due.2.1 due.2.2.1 (by simpa using (not_or.mp left).1), nofun⟩

theorem maybeNag_watched (host : Host) (mo : Moment) (m : AgentStateMachine) :
    Watched host mo m (m.maybeNag host mo) := by
  unfold maybeNag
  split
  · exact .nothing
  next due =>
    split
    · exact .nothing
    next left =>
      split
      next since reminder idle some_ =>
        split
        · exact .nothing
        · refine .nagged _ reminder ?_ some_ (not_le.mp left)
          simp only [not_or] at due
          simpa using due.2.2.2.2
      · exact .nothing

theorem watch_watched (host : Host) (mo : Moment) (m : AgentStateMachine) :
    ∃ m' notices, Watched host mo m m' ∧ m.watch host mo = { m' with notices } := by
  obtain ⟨watched, not_⟩ := maybeReleaseHeld_watched host mo m
  unfold watch
  simp only
  generalize m.maybeReleaseHeld host mo = released at watched not_
  obtain ⟨did, m'⟩ := released
  cases did with
  | true => exact ⟨m', _, watched, rfl⟩
  | false =>
    have same : m' = m := not_ rfl
    subst same
    exact ⟨_, _, maybeNag_watched host mo m', rfl⟩

/-- A tick queues one wake at most. -/
theorem watch_pending (host : Host) (mo : Moment) {m : AgentStateMachine}
    (none_ : m.pending = []) : (m.watch host mo).pending.tail = [] := by
  obtain ⟨m', notices, watched, eq⟩ := watch_watched host mo m
  rw [eq]
  cases watched with
  | nothing => simp [none_]
  | released text => simp [queueOwn, none_]
  | nagged text reminder => simp [queueOwn, none_]

section Turn

variable (mo : Moment) (m : AgentStateMachine) (b : Batch) (check : Bool)

@[simp] theorem turn_turnsFed : (m.turn mo b check).1.turnsFed = m.turnsFed + 1 :=
  (age_keeps mo _).turnsFed

@[simp] theorem turn_followups : (m.turn mo b check).1.followups = m.followups :=
  (age_keeps mo _).followups

@[simp] theorem turn_heldReleases : (m.turn mo b check).1.heldReleases = m.heldReleases :=
  (age_keeps mo _).heldReleases

@[simp] theorem turn_syntheticWakes : (m.turn mo b check).1.syntheticWakes = m.syntheticWakes :=
  (age_keeps mo _).syntheticWakes

@[simp] theorem turn_pending : (m.turn mo b check).1.pending = m.pending :=
  (age_keeps mo _).pending

@[simp] theorem turn_held : (m.turn mo b check).1.held = m.held := (age_keeps mo _).held

@[simp] theorem turn_session : (m.turn mo b check).1.session = m.session :=
  (age_keeps mo _).session

@[simp] theorem turn_taken : (m.turn mo b check).1.trace.taken = m.trace.taken :=
  (age_keeps mo _).taken

@[simp] theorem turn_sent : (m.turn mo b check).1.trace.sent = m.trace.sent :=
  (age_keeps mo _).sent

theorem turn_began : (m.turn mo b check).2.began = m.trace.sent.length :=
  congrArg List.length (age_keeps mo _).sent

/-- What is in flight and what was read is no business of a turn's. -/
theorem turn_flights : (m.turn mo b check).1.backTx = m.backTx ∧
    (m.turn mo b check).1.tasks = m.tasks ∧ (m.turn mo b check).1.toolLog = m.toolLog ∧
    (m.turn mo b check).1.toolBase = m.toolBase := by
  unfold turn
  simp only
  rw [age_eq]
  exact ⟨rfl, rfl, rfl, rfl⟩

/-- Of the pieces of a turn's message, only the batch's own hold wakes or results. -/
theorem prompt_flatMap {α : Type} (f : Piece → List α) (notices : ∀ texts, f (.notices texts) = [])
    (note : ∀ text, f (.note text) = []) (running : ∀ text, f (.running text) = [])
    (checkIn : f .checkIn = []) (reminder : ∀ text, f (.reminder text) = [])
    (lastTurn : f .lastTurn = []) :
    (m.prompt mo b check).flatMap f = (b.wakes.map Piece.wake).flatMap f ++
      if b.results = [] then [] else f (.results b.results (b.results.map m.rowOf)) := by
  have others : ∀ (o : Option String) (g : String → Piece), (∀ x, f (g x) = []) →
      (o.toList.map g).flatMap f = [] := by
    intro o g empty
    cases o <;> simp [empty]
  have reminded : (if b.wakes = [] then [] else mo.reminder.toList.map Piece.reminder).flatMap f =
      [] := by
    split
    · rfl
    · exact others _ _ reminder
  unfold prompt
  simp only [List.flatMap_append, others _ _ note, others _ _ running, reminded, List.append_nil]
  split <;> split <;> split <;> split <;> simp_all

theorem prompt_rows : (m.prompt mo b check).flatMap Piece.rows = b.results := by
  rw [prompt_flatMap mo m b check Piece.rows (fun _ => rfl) (fun _ => rfl) (fun _ => rfl) rfl
    (fun _ => rfl) rfl]
  simp only [List.flatMap_map, Piece.rows, List.flatMap_eq_nil_iff.mpr fun _ _ => rfl,
    List.nil_append]
  split
  next none_ => exact none_.symm
  · rfl

theorem prompt_wakes : (m.prompt mo b check).flatMap Piece.wakes = b.wakes := by
  rw [prompt_flatMap mo m b check Piece.wakes (fun _ => rfl) (fun _ => rfl) (fun _ => rfl) rfl
    (fun _ => rfl) rfl]
  simp [List.flatMap_map, Piece.wakes]

end Turn

theorem stubIn_pieces (full stub : String) (history : List HistoryEntry) :
    (stubIn full stub history).map HistoryEntry.pieces = history.map HistoryEntry.pieces := by
  induction history with
  | nil => rfl
  | cons e older ih =>
    unfold stubIn
    split
    · rfl
    · rw [List.map_cons, ih, List.map_cons]

/-- A stub says less of a row; what the entry was made of stays what it was. -/
theorem age_pieces (mo : Moment) (m : AgentStateMachine) :
    (m.age mo).history.map HistoryEntry.pieces = m.history.map HistoryEntry.pieces := by
  have each : ∀ (due : List Fresh) (history : List HistoryEntry),
      (due.foldl (fun history f => (stubIn f.full (f.stub m.toolBase) history.reverse).reverse)
        history).map HistoryEntry.pieces = history.map HistoryEntry.pieces := by
    intro due
    induction due with
    | nil => exact fun _ => rfl
    | cons f due ih =>
      intro history
      rw [List.foldl_cons, ih, List.map_reverse, stubIn_pieces, ← List.map_reverse,
        List.reverse_reverse]
  unfold age
  simp only
  split
  · exact each _ _
  · rfl

/-- The message of a turn holds the batch's wakes and results and no others, and it is what is
added to the conversation. -/
theorem turn_fed (mo : Moment) (m : AgentStateMachine) (b : Batch) (check : Bool) :
    ∃ pieces : List Piece, pieces.flatMap Piece.rows = b.results ∧
      pieces.flatMap Piece.wakes = b.wakes ∧
      (m.turn mo b check).1.trace =
        { m.trace with fed := m.trace.fed ++ [⟨m.session, pieces, false⟩] } ∧
      (m.turn mo b check).1.history.map HistoryEntry.pieces =
        m.history.map HistoryEntry.pieces ++ [pieces] := by
  refine ⟨(m.startTurn b check).prompt mo b check, prompt_rows mo _ b check,
    prompt_wakes mo _ b check, ?_, ?_⟩
  · unfold turn
    simp only
    rw [age_eq]
    rfl
  · unfold turn
    simp only [List.map_append, age_pieces]
    rfl


/-- What waits is not looked at when something is taken. -/
theorem take_pending (m : AgentStateMachine) (b : Batch) (i : Inbound) (waiting : List Inbound) :
    take ({ m with pending := waiting }, b) i =
      ({ (take (m, b) i).1 with pending := waiting }, (take (m, b) i).2) := by
  cases i <;> rfl

@[simp] theorem take_pending_eq (p : AgentStateMachine × Batch) (i : Inbound) :
    (take p i).1.pending = p.1.pending := by cases i <;> rfl

/-- Nor what came back. -/
theorem back_backTx (m : AgentStateMachine) (results : List Row) (b : Back) (unread : List Back) :
    back ({ m with backTx := unread }, results) b =
      ({ (back (m, results) b).1 with backTx := unread }, (back (m, results) b).2) := by
  cases b with
  | recordDone flight => rfl
  | result name out session flight asked =>
    by_cases same : session = m.session
    · cases flight with
      | none => simp [back, settleFlight, land, nextId, same]
      | some id =>
        by_cases background : id ∈ m.bg <;>
          simp [back, settleFlight, land, nextId, same, background]
    · cases flight with
      | none => simp [back, settleFlight, land, same]
      | some id =>
        by_cases background : id ∈ m.bg <;> simp [back, settleFlight, land, same, background]

end AgentStateMachine

namespace Agent

open AgentStateMachine

theorem send_at (s : Agent) (i : Nat → Inbound) : (s.send i).at_ = s.at_ := by
  unfold send
  split <;> rfl

theorem lands_at (s : Agent) (flight : Nat) (out : ToolOut) : (s.lands flight out).at_ = s.at_ := by
  unfold lands
  split <;> rfl

@[simp] theorem readEarly_pending (s : Agent) : s.readEarly.m.pending = s.m.pending ++ s.inbox :=
  rfl

@[simp] theorem readEarly_inbox (s : Agent) : s.readEarly.inbox = [] := rfl

section Think

variable (mo : Moment) (s : Agent) (b : Batch) (check : Bool)

@[simp] theorem think_turnsFed : (think mo s b check).m.turnsFed = s.m.turnsFed + 1 :=
  turn_turnsFed mo _ b check

@[simp] theorem think_followups : (think mo s b check).m.followups = s.m.followups :=
  turn_followups mo _ b check

@[simp] theorem think_heldReleases : (think mo s b check).m.heldReleases = s.m.heldReleases :=
  turn_heldReleases mo _ b check

@[simp] theorem think_syntheticWakes :
    (think mo s b check).m.syntheticWakes = s.m.syntheticWakes := turn_syntheticWakes mo _ b check

@[simp] theorem think_pending : (think mo s b check).m.pending = s.m.pending :=
  turn_pending mo _ b check

@[simp] theorem think_inbox : (think mo s b check).inbox = s.inbox := rfl

@[simp] theorem think_taken : (think mo s b check).m.trace.taken = s.m.trace.taken :=
  turn_taken mo _ b check

end Think

/-! ## Moves -/

/-- What a step has in hand: a batch, or a turn the model is thinking on. -/
inductive Hand
  | batch (b : Batch)
  | thinking (t : Thinking)
deriving DecidableEq, Repr

def Hand.wakes : Hand → List Wake
  | batch b => b.wakes
  | thinking _ => []

def Hand.results : Hand → List Row
  | batch b => b.results
  | thinking _ => []

/-- What the loop has in hand where it awaits. -/
def hand (s : Agent) : Hand :=
  match s.at_ with
  | .collect results => .batch { results }
  | .converse t => .thinking t
  | .retry t => .thinking t
  | _ => .batch {}

/-- One move of the step that answers `e`. `spent` says that a model call runs out of retries in
it. -/
inductive Moves (host : Host) (e : Event) (spent : Prop) : Agent × Hand → Agent × Hand → Prop
  | minor (s : Agent) (h : Hand) {m : AgentStateMachine} (minor : s.m.Minor m) (wasIdle : Bool) :
      Moves host e spent (s, h) ({ s with m, wasIdle }, h)
  | arrive (s : Agent) (h : Hand) (at_ : Point) (past : at_ = .ended → s.opened = false) :
      Moves host e spent (s, h) ({ s with at_ }, h)
  | close (s : Agent) (h : Hand) (none_ : s.m.pending = []) (empty : s.inbox = [])
      (gone : s.hungUp = true) :
      Moves host e spent (s, h) ({ s with opened := false }, h)
  | takePending (s : Agent) (b : Batch) {i : Inbound} {rest : List Inbound}
      (waiting : s.m.pending = i :: rest) (foreign : ∀ j ∈ rest ++ s.inbox, j.own = false) :
      Moves host e spent (s, .batch b)
        ({ s with m := (take ({ s.m with pending := rest }, b) i).1 }, .batch (take (s.m, b) i).2)
  | takeInbox (s : Agent) (b : Batch) {i : Inbound} {rest : List Inbound}
      (none_ : s.m.pending = []) (queued : s.inbox = i :: rest)
      (foreign : ∀ j ∈ i :: rest, j.own = false) :
      Moves host e spent (s, .batch b)
        ({ s with m := (take (s.m, b) i).1, inbox := rest }, .batch (take (s.m, b) i).2)
  | read (s : Agent) (b : Batch) {x : Back} {rest : List Back} (unread : s.m.backTx = x :: rest) :
      Moves host e spent (s, .batch b)
        ({ s with m := { (back (s.m, b.results) x).1 with backTx := rest } },
          .batch { b with results := (back (s.m, b.results) x).2 })
  | watch (s : Agent) {mo : Moment} (tick : e = .tick mo) (none_ : s.m.pending = []) :
      Moves host e spent (s, .batch {}) ({ s with m := s.m.watch host mo }, .batch {})
  | drop (s : Agent) {b : Batch} (none_ : s.m.pending = []) (wakes : b.wakes = [])
      (results : b.results = []) :
      Moves host e spent (s, .batch b) ({ s with m := s.m.refund b }, .batch {})
  | hold (s : Agent) {b : Batch} (none_ : s.m.pending = []) (wakes : b.wakes = [])
      (capped : MAX_FOLLOWUPS ≤ s.m.followups) :
      Moves host e spent (s, .batch b) ({ s with m := (s.m.refund b).holdBack b }, .batch {})
  | readEarly (s : Agent) (h : Hand) (foreign : ∀ j ∈ s.inbox, j.own = false) :
      Moves host e spent (s, h) (s.readEarly, h)
  | retry (s : Agent) (t : Thinking) :
      Moves host e spent (s, .thinking t) (s, .thinking { t with attempt := t.attempt + 1 })
  | giveUp (s : Agent) (t : Thinking) (past : spent ∨ s.resetWaiting = true) :
      Moves host e spent (s, .thinking t) ({ s with m := s.m.giveUp t }, .batch {})
  | done (s : Agent) (t : Thinking) : Moves host e spent (s, .thinking t) (s, .batch {})
  | unsay (s : Agent) (t : Thinking) :
      Moves host e spent (s, .thinking t)
        ({ s with m := { s.m with history := s.m.history.dropLast } }, .thinking t)
  | say (s : Agent) (t : Thinking) (who : Speaker) (said : String) :
      Moves host e spent (s, .thinking t)
        ({ s with m := s.m.say who said }, .thinking t)
  | note (s : Agent) (t : Thinking) (c : Call) (inbox : s.inbox = [])
      (current : s.resetWaiting = false) :
      Moves host e spent (s, .thinking t) ({ s with m := s.m.noteActed t c }, .thinking t)
  | compact (s : Agent) (h : Hand) (summary : String) :
      Moves host e spent (s, h) ({ s with m := s.m.compact summary }, h)
  | instant (s : Agent) (t : Thinking) (name : String) (out : ToolOut) (inbox : s.inbox = [])
      (current : s.resetWaiting = false) :
      Moves host e spent (s, .thinking t) ({ s with m := s.m.instant name out }, .thinking t)
  | query (s : Agent) (t : Thinking) (c : Call) (inbox : s.inbox = [])
      (current : s.resetWaiting = false) :
      Moves host e spent (s, .thinking t) ({ s with m := s.m.startQuery c }, .thinking t)
  | record (s : Agent) (t : Thinking) (c : Call) :
      Moves host e spent (s, .thinking t) ({ s with m := s.m.startRecord c }, .thinking t)
  | send (s : Agent) (h : Hand) {i : Nat → Inbound} (foreign : ∀ n, (i n).own = false)
      (numbered : ∀ n, (i n).after = n)
      (asked : (∃ why, e = .reset why) ∨ ∀ n, (i n).isReset = false) :
      Moves host e spent (s, h) (s.send i, h)
  | hangUp (s : Agent) (h : Hand) : Moves host e spent (s, h) ({ s with hungUp := true }, h)
  | lands (s : Agent) (h : Hand) (flight : Nat) (out : ToolOut) :
      Moves host e spent (s, h) (s.lands flight out, h)

/-- The model is asked, with what is in hand. -/
inductive Asks : Agent → Batch → Agent → Prop
  | check (mo : Moment) (s : Agent) (none_ : s.m.pending = []) (empty : s.inbox = [])
      (left : s.m.followups < MAX_FOLLOWUPS) :
      Asks s {} (think mo { s with m := s.m.followUp } {} true)
  | followUp (mo : Moment) (s : Agent) {b : Batch} (none_ : s.m.pending = [])
      (wakes : b.wakes = []) (left : s.m.followups < MAX_FOLLOWUPS) :
      Asks s b (think mo { s with m := (s.m.refund b).followUp } b false)
  | wake (mo : Moment) (s : Agent) {b : Batch} (none_ : s.m.pending = []) (wakes : b.wakes ≠ []) :
      Asks s b (think mo { s with m := ((s.m.refund b).unhold b).1 } ((s.m.refund b).unhold b).2
        false)

/-- What a turn begins with, of a machine with a batch in hand. -/
structure Poised (m : AgentStateMachine) (b : Batch) (m' : AgentStateMachine) (b' : Batch) :
    Prop where
  history : m'.history = m.history
  fresh : m'.fresh = m.fresh
  toolLog : m'.toolLog = m.toolLog
  toolBase : m'.toolBase = m.toolBase
  turnsFed : m'.turnsFed = m.turnsFed
  session : m'.session = m.session
  pending : m'.pending = m.pending
  backTx : m'.backTx = m.backTx
  tasks : m'.tasks = m.tasks
  trace : m'.trace = m.trace
  /-- What was held goes in first, or stays held. -/
  results : m'.held ++ b'.results = m.held ++ b.results
  held : m'.held = [] ∨ m'.held = m.held ∧ m.followups < MAX_FOLLOWUPS

/-- However the model is asked, it is by a turn. -/
theorem Asks.turned {s s' : Agent} {b : Batch} (asked : Asks s b s') :
    ∃ m b' mo check, Poised s.m b m b' ∧ s'.m = (m.turn mo b' check).1 ∧
      s'.hand = .thinking (m.turn mo b' check).2 ∧ s'.inbox = s.inbox := by
  cases asked with
  | check mo s none_ empty left =>
    refine ⟨{ s.m.followUp with idleSince := none }, {}, mo, true, ?_, rfl, rfl, rfl⟩
    exact ⟨rfl, rfl, rfl, rfl, rfl, rfl, rfl, rfl, rfl, rfl, rfl, .inr ⟨rfl, left⟩⟩
  | @followUp mo s b none_ wakes left =>
    refine ⟨{ (s.m.refund b).followUp with idleSince := none }, b, mo, false, ?_, rfl, rfl, rfl⟩
    exact ⟨rfl, rfl, rfl, rfl, rfl, rfl, rfl, rfl, rfl, rfl, rfl, .inr ⟨rfl, left⟩⟩
  | @wake mo s b none_ wakes =>
    refine ⟨{ ((s.m.refund b).unhold b).1 with idleSince := none }, ((s.m.refund b).unhold b).2, mo,
      false, ?_, rfl, rfl, rfl⟩
    exact ⟨rfl, rfl, rfl, rfl, rfl, rfl, rfl, rfl, rfl, rfl, rfl, .inl rfl⟩

/-- While results are held only past the follow-ups, a turn holds none. -/
theorem Poised.none_ {m m' : AgentStateMachine} {b b' : Batch} (poised : Poised m b m' b')
    (full : m.held ≠ [] → MAX_FOLLOWUPS ≤ m.followups) : m'.held = [] := by
  rcases poised.held with none_ | ⟨same, left⟩
  · exact none_
  · by_contra some_
    rw [same] at some_
    exact absurd left (not_lt.mpr (full some_))

variable {host : Host} {e : Event} {spent : Prop}

/-- Moves, and the model asked at most once after them. -/
def Steps (host : Host) (e : Event) (spent : Prop) (x : Agent × Hand) (s : Agent) : Prop :=
  ∃ y, Relation.ReflTransGen (Moves host e spent) x y ∧
    (y = (s, s.hand) ∨ ∃ b, y.2 = .batch b ∧ Asks y.1 b s)

theorem Steps.of_moves {x y : Agent × Hand} {s : Agent}
    (moves : Relation.ReflTransGen (Moves host e spent) x y) (steps : Steps host e spent y s) :
    Steps host e spent x s := by
  obtain ⟨z, more, ends⟩ := steps
  exact ⟨z, moves.trans more, ends⟩

theorem Steps.of_move {x y : Agent × Hand} {s : Agent} (move : Moves host e spent x y)
    (steps : Steps host e spent y s) : Steps host e spent x s :=
  Steps.of_moves (.single move) steps

/-- The invariant rule: what every move keeps, and every asking of the model, a step keeps. -/
theorem Steps.invariant {J : Agent × Hand → Prop}
    (moves : ∀ x y, Moves host e spent x y → J x → J y)
    (asks : ∀ s b s', Asks s b s' → J (s, .batch b) → J (s', s'.hand))
    {x : Agent × Hand} {s : Agent} (steps : Steps host e spent x s) (start : J x) :
    J (s, s.hand) := by
  obtain ⟨y, chain, ends⟩ := steps
  have kept : J y := by
    clear ends
    induction chain with
    | refl => exact start
    | tail _ move ih => exact moves _ _ move ih
  rcases ends with same | ⟨b, batch, asked⟩
  · exact same ▸ kept
  · obtain ⟨r, h⟩ := y
    simp only at batch asked
    exact asks r b s asked (batch ▸ kept)

/-- The frame rule: what no move changes is as it was, up to where the model is asked. -/
theorem Steps.frame {α : Type} {f : AgentStateMachine → α}
    (moves : ∀ x y, Moves host e spent x y → f y.1.m = f x.1.m) {x : Agent × Hand} {s : Agent}
    (steps : Steps host e spent x s) :
    f s.m = f x.1.m ∨ ∃ r b, Asks r b s ∧ f r.m = f x.1.m := by
  obtain ⟨y, chain, ends⟩ := steps
  have same : f y.1.m = f x.1.m := by
    clear ends
    induction chain with
    | refl => rfl
    | tail _ move ih => rw [moves _ _ move, ih]
  rcases ends with rfl | ⟨b, _, asked⟩
  · exact .inl same
  · exact .inr ⟨y.1, b, asked, same⟩

/-- A step that ends where its last move left it. -/
theorem Steps.rest {s : Agent} {h : Hand} (same : s.hand = h) : Steps host e spent (s, h) s :=
  ⟨_, .refl, .inl (by rw [same])⟩

theorem Steps.asks {s s' : Agent} {b : Batch} (asks : Asks s b s') :
    Steps host e spent (s, .batch b) s' :=
  ⟨_, .refl, .inr ⟨b, rfl, asks⟩⟩

/-! ## The loop's own invariant -/

/-- Nothing waits early where the loop selects, and what waits anywhere is someone else's. -/
structure Settled (s : Agent) : Prop where
  none_ : s.at_ = .select ∨ (∃ results, s.at_ = .collect results) → s.m.pending = []
  foreign : ∀ i ∈ s.m.pending ++ s.inbox, i.own = false

/-! ## Batches -/

theorem deliver_steps (mo : Moment) (s : Agent) (b : Batch) (none_ : s.m.pending = []) :
    Steps host e spent (s, .batch b) (deliver mo s b) := by
  unfold deliver
  simp only
  split
  next nothing =>
    exact .of_move (.drop s none_ nothing.1 nothing.2.1)
      (.of_move (.arrive _ _ .top nofun) (.rest rfl))
  · split
    next wakes =>
      split
      next capped =>
        exact .of_move (.hold s none_ wakes capped) (.of_move (.arrive _ _ .top nofun) (.rest rfl))
      next left => exact .asks (.followUp mo s none_ wakes (not_le.mp left))
    next wakes => exact .asks (.wake mo s none_ wakes)

/-- Everything that was read early is taken. -/
theorem pending_taken (s : Agent) (b : Batch) (waiting : List Inbound)
    (are : s.m.pending = waiting) (foreign : ∀ j ∈ waiting.tail ++ s.inbox, j.own = false) :
    Relation.ReflTransGen (Moves host e spent) (s, .batch b)
      ({ s with m := (waiting.foldl take ({ s.m with pending := [] }, b)).1 },
        .batch (waiting.foldl take ({ s.m with pending := [] }, b)).2) := by
  induction waiting generalizing s b with
  | nil =>
    obtain ⟨m, inbox, hungUp, opened, wasIdle, at_⟩ := s
    cases m
    simp only at are
    subst are
    exact .refl
  | cons i rest ih =>
    have others : ∀ j ∈ rest.tail ++ s.inbox, j.own = false := fun j member =>
      foreign j (by
        rcases List.mem_append.mp member with tail | queued
        · exact List.mem_append_left _ (List.mem_of_mem_tail tail)
        · exact List.mem_append_right _ queued)
    refine .head (.takePending s b are foreign) ?_
    have more := ih { s with m := (take ({ s.m with pending := rest }, b) i).1 } (take (s.m, b) i).2
      (by simp) others
    -- The rest is folded over the machine as it is, but for what waits in it.
    have same : ({ (take ({ s.m with pending := rest }, b) i).1 with pending := [] },
        (take (s.m, b) i).2) = take ({ s.m with pending := [] }, b) i := by
      rw [take_pending s.m b i rest, take_pending s.m b i []]
    simp only [same] at more
    exact more

theorem inbox_taken (s : Agent) (b : Batch) (queued : List Inbound) (are : s.inbox = queued)
    (none_ : s.m.pending = []) (foreign : ∀ j ∈ queued, j.own = false) :
    Relation.ReflTransGen (Moves host e spent) (s, .batch b)
      ({ s with m := (queued.foldl take (s.m, b)).1, inbox := [] },
        .batch (queued.foldl take (s.m, b)).2) := by
  induction queued generalizing s b with
  | nil =>
    obtain ⟨m, inbox, hungUp, opened, wasIdle, at_⟩ := s
    simp only at are
    subst are
    exact .refl
  | cons i rest ih =>
    refine .head (.takeInbox s b none_ are foreign) ?_
    exact ih { s with m := (take (s.m, b) i).1, inbox := rest } (take (s.m, b) i).2 rfl
      (by simpa using none_) (fun j member => foreign j (List.mem_cons_of_mem i member))

theorem back_read (s : Agent) (b : Batch) (unread : List Back) (are : s.m.backTx = unread) :
    Relation.ReflTransGen (Moves host e spent) (s, .batch b)
      ({ s with m := (unread.foldl back ({ s.m with backTx := [] }, b.results)).1 },
        .batch
          { b with results := (unread.foldl back ({ s.m with backTx := [] }, b.results)).2 }) := by
  induction unread generalizing s b with
  | nil =>
    obtain ⟨m, inbox, hungUp, opened, wasIdle, at_⟩ := s
    cases m
    simp only at are
    subst are
    exact .refl
  | cons x rest ih =>
    refine .head (.read s b are) ?_
    have more := ih { s with m := { (back (s.m, b.results) x).1 with backTx := rest } }
      { b with results := (back (s.m, b.results) x).2 } rfl
    have same : ({ (back (s.m, b.results) x).1 with backTx := [] }, (back (s.m, b.results) x).2) =
        back ({ s.m with backTx := [] }, b.results) x := (back_backTx s.m b.results x []).symm
    simp only [same] at more
    exact more

@[simp] theorem taken_pending (p : AgentStateMachine × Batch) (is : List Inbound) :
    (is.foldl take p).1.pending = p.1.pending := by
  induction is generalizing p with
  | nil => rfl
  | cons i is ih => rw [List.foldl_cons, ih, take_pending_eq]

@[simp] theorem taken_backTx (p : AgentStateMachine × Batch) (is : List Inbound) :
    (is.foldl take p).1.backTx = p.1.backTx := by
  induction is generalizing p with
  | nil => rfl
  | cons i is ih =>
    rw [List.foldl_cons, ih]
    cases i <;> rfl

theorem reads_keep (p : AgentStateMachine × List Row) (unread : List Back) :
    p.1.Keeps (unread.foldl back p).1 := by
  induction unread generalizing p with
  | nil => exact .refl p.1
  | cons x rest ih => exact (back_keeps p x).trans (ih _)

/-- What waits early is foreign but for one wake of the loop's own at its head. -/
theorem aggregate_steps (mo : Moment) (s : Agent) (b : Batch)
    (foreign : ∀ j ∈ s.m.pending.tail ++ s.inbox, j.own = false) :
    Steps host e spent (s, .batch b) (aggregate mo s b) := by
  have queued : ∀ j ∈ s.inbox, j.own = false := fun j member =>
    foreign j (List.mem_append_right _ member)
  refine .of_moves (pending_taken s b _ rfl foreign) ?_
  refine .of_moves (inbox_taken _ _ s.inbox rfl (by simp) queued) ?_
  refine .of_moves (back_read _ _ _ rfl) ?_
  unfold aggregate
  simp only
  split
  · exact .of_move (.arrive _ _ (.collect _) nofun) (.rest (by simp_all [hand]))
  · refine deliver_steps mo _ _ ?_
    simp only
    rw [(reads_keep _ _).pending]
    simp

theorem wait_steps (mo : Moment) (s : Agent)
    (foreign : ∀ j ∈ s.m.pending ++ s.inbox, j.own = false) :
    Steps host e spent (s, .batch {}) (wait mo s) := by
  unfold wait
  split
  · exact .of_move (.arrive _ _ .select nofun) (.rest rfl)
  · refine aggregate_steps mo s {} fun j member => foreign j ?_
    rcases List.mem_append.mp member with tail | queued
    · exact List.mem_append_left _ (List.mem_of_mem_tail tail)
    · exact List.mem_append_right _ queued

theorem idle_steps (mo : Moment) (s : Agent)
    (foreign : ∀ j ∈ s.m.pending ++ s.inbox, j.own = false) :
    Steps host e spent (s, .batch {}) (idle mo s) := by
  unfold idle
  split
  · split
    next closed => exact .of_move (.arrive s _ _ fun _ => by simpa using closed) (.rest rfl)
    · split
      · exact .of_move (.minor _ _ (by constructor <;> rfl) true) (wait_steps mo _ foreign)
      · exact wait_steps mo s foreign
  · exact wait_steps mo s foreign

theorem top_steps (mo : Moment) (s : Agent)
    (foreign : ∀ j ∈ s.m.pending ++ s.inbox, j.own = false) :
    Steps host e spent (s, .batch {}) (top mo s) := by
  unfold top
  split
  · refine .of_move (.minor s _ (m := { s.m with checkArmed := false }) (by constructor <;> rfl)
      s.wasIdle) ?_
    refine .of_move (.readEarly _ _ fun j member => ?_) ?_
    · exact foreign j (by simp [show j ∈ s.inbox from member])
    simp only
    split
    next ready => exact .asks (.check mo _ ready.1 rfl ready.2)
    · exact idle_steps mo _ (by simpa using foreign)
  · exact idle_steps mo s foreign

theorem recvInbox_steps (mo : Moment) {s : Agent} (settled : s.Settled) :
    Steps host e spent (s, s.hand) (recvInbox mo s) := by
  unfold recvInbox
  split
  next i rest opened queued here =>
    have none_ := settled.none_ (.inl here)
    have foreign : ∀ j ∈ i :: rest, j.own = false := fun j member =>
      settled.foreign j (by simp [queued, List.mem_cons.mp member])
    rw [show s.hand = .batch {} by simp [hand, here]]
    refine .of_move (.takeInbox s {} none_ queued foreign) (aggregate_steps mo _ _ ?_)
    simpa [none_] using fun j member => foreign j (List.mem_cons_of_mem i member)
  -- While a batch is collected, the message ends it.
  next i rest results opened queued here =>
    have none_ := settled.none_ (.inr ⟨results, here⟩)
    have foreign : ∀ j ∈ i :: rest, j.own = false := fun j member =>
      settled.foreign j (by simp [queued, List.mem_cons.mp member])
    rw [show s.hand = .batch { results } by simp [hand, here]]
    refine .of_move (.takeInbox s _ none_ queued foreign) (deliver_steps mo _ _ ?_)
    simpa using none_
  -- Every sender is gone: the channel is closed once, then what is left is gathered.
  next opened queued here =>
    split
    next gone =>
      rw [show s.hand = .batch {} by simp [hand, here]]
      refine .of_move (.close s _ (settled.none_ (.inl here)) queued gone)
        (aggregate_steps mo _ _ ?_)
      simp [settled.none_ (.inl here), queued]
    · exact .rest rfl
  next results opened queued here =>
    split
    next gone =>
      exact .of_move (.close s _ (settled.none_ (.inr ⟨_, here⟩)) queued gone)
        (.rest (by simp [hand, here]))
    · exact .rest rfl
  · exact .rest rfl

theorem recvBack_steps (mo : Moment) {s : Agent} (settled : s.Settled) :
    Steps host e spent (s, s.hand) (recvBack mo s) := by
  unfold recvBack
  split
  next x rest unread here =>
    rw [show s.hand = .batch {} by simp [hand, here]]
    refine .of_move (.read s {} unread) ?_
    -- Reading does not look at what is left in the channel.
    rw [back_backTx s.m [] x rest]
    refine aggregate_steps mo _ _ ?_
    simp only
    rw [(back_keeps (s.m, []) x).pending, settled.none_ (.inl here)]
    exact fun j member => settled.foreign j (List.mem_append_right _ (by simpa using member))
  next x rest results unread here =>
    rw [show s.hand = .batch { results } by simp [hand, here]]
    refine .of_move (.read s _ unread) ?_
    rw [back_backTx s.m results x rest]
    simp only
    split
    · exact .of_move (.arrive _ _ (.collect _) nofun) (.rest rfl)
    · refine deliver_steps mo _ _ ?_
      simpa using (back_keeps (s.m, results) x).pending.trans
        (settled.none_ (.inr ⟨results, here⟩))
  · exact .rest rfl

/-! ## Acting -/

theorem dispatch_moves (s : Agent) (t : Thinking) (c : Call) (inbox : s.inbox = [])
    (current : s.resetWaiting = false) :
    Moves host e spent (s, .thinking t) ({ s with m := s.m.dispatch host c }, .thinking t) := by
  unfold dispatch
  split
  · exact .query s t c inbox current
  · exact .record s t c
  · exact .instant s t _ _ inbox current

theorem act_moves (mo : Moment) (totalTokens : Nat) (s : Agent) (t : Thinking) (compacted : Bool)
    (c : Call) (inbox : s.inbox = []) (current : s.resetWaiting = false) :
    Relation.ReflTransGen (Moves host e spent) (s, .thinking t)
      ({ s with m := (act host mo totalTokens (s.m.noteActed t c, compacted) c).1 },
        .thinking t) := by
  refine .head (.note s t c inbox current) ?_
  unfold act
  simp only
  split
  · exact .single (.compact { s with m := s.m.noteActed t c } _ _)
  · split
    · exact .single (.instant { s with m := s.m.noteActed t c } t _ _ inbox current)
    · exact .single (dispatch_moves { s with m := s.m.noteActed t c } t c inbox current)

theorem acts_moves (mo : Moment) (totalTokens : Nat) (t : Thinking) (calls : List Call)
    (s : Agent) (compacted : Bool) (inbox : s.inbox = []) (current : s.resetWaiting = false) :
    Relation.ReflTransGen (Moves host e spent) (s, .thinking t)
      ({ s with m := (calls.foldl (fun p c => act host mo totalTokens (p.1.noteActed t c, p.2) c)
          (s.m, compacted)).1 }, .thinking t) := by
  induction calls generalizing s compacted with
  | nil => exact .refl
  | cons c calls ih =>
    refine (act_moves mo totalTokens s t compacted c inbox current).trans ?_
    have same := ((noteActed_keeps t s.m c).trans
      (act_keeps host mo totalTokens (s.m.noteActed t c, compacted) c)).pending
    exact ih { s with m := _ } _ inbox (by simpa [resetWaiting, same] using current)

theorem reckon_minor (m : AgentStateMachine) (t : Thinking) (answer : Turn)
    (startedNothing : Bool) : m.Minor (m.reckon host t answer startedNothing) := by
  cases startedNothing <;> constructor <;> rfl

theorem sayUnless_moves (s : Agent) (t : Thinking) (nothing : Bool) (who : Speaker)
    (said : String) :
    Relation.ReflTransGen (Moves host e spent) (s, .thinking t)
      ({ s with m := s.m.sayUnless nothing who said }, .thinking t) := by
  cases nothing with
  | true => exact .refl
  | false => exact .single (.say s t who said)

theorem answered_moves (mo : Moment) (t : Thinking) (answer : Turn) (s : Agent)
    (inbox : s.inbox = []) (current : s.resetWaiting = false) :
    Relation.ReflTransGen (Moves host e spent) (s, .thinking t)
      ({ s with m := (s.m.answered host mo t answer).1 }, .batch {}) := by
  unfold answered
  simp only
  refine (sayUnless_moves s t (trimText answer.text = "") .assistant
    (trimText answer.text)).trans ?_
  generalize own : s.m.sayUnless (trimText answer.text = "") .assistant _ = m
  have same : m.pending = s.m.pending := by
    rw [← own]
    exact (sayUnless_keeps s.m _ _ _).pending
  refine (acts_moves mo answer.totalTokens t answer.calls { s with m } false inbox
    (by simpa [resetWaiting, same] using current)).trans ?_
  generalize answer.calls.foldl _ _ = acted
  refine .tail ?_ (.done _ t)
  exact .tail (sayUnless_moves { s with m := acted.1 } t _ .called _)
    (.minor _ _ (reckon_minor _ t answer _) s.wasIdle)

theorem warn_minor (m : AgentStateMachine) (pct : Nat) : m.Minor (m.warn pct) := by
  unfold warn
  split <;> constructor <;> rfl

theorem replied_steps (mo : Moment) (s : Agent) (t : Thinking) (answer : Turn)
    (foreign : ∀ j ∈ s.inbox, j.own = false) :
    Steps host e spent (s, .thinking t) (s.replied host mo t answer) := by
  refine .of_move (.minor s _ (m := { s.m with lastTurnEnd := some mo.now })
    (by constructor <;> rfl) s.wasIdle) ?_
  refine .of_move (.readEarly _ _ foreign) ?_
  unfold replied
  simp only
  split
  -- A reset waits, and the answer is dropped.
  · exact .of_move (.done _ t) (.of_move (.arrive _ _ .top nofun) (.rest rfl))
  next current =>
    split
    · exact .of_move (.unsay _ t)
        (.of_move (.done _ t) (.of_move (.arrive _ _ .top nofun) (.rest rfl)))
    · refine .of_moves (answered_moves mo t answer _ rfl (by simpa using current)) ?_
      split
      · exact .of_move (.arrive _ _ .top nofun) (.rest rfl)
      next pct used =>
        split
        · exact .of_move (.arrive _ _ .summarize nofun) (.rest rfl)
        · exact .of_move (.minor _ _ (warn_minor _ pct) s.wasIdle)
            (.of_move (.arrive _ _ .top nofun) (.rest rfl))

/-- The model call under way has no retries left. -/
def exhausts (s : Agent) (e : Event) : Prop :=
  ∃ t, e matches .failed ∧ s.at_ = .converse t ∧ LLM_RETRIES ≤ t.attempt

theorem failed_steps (s : Agent) (t : Thinking) (foreign : ∀ j ∈ s.inbox, j.own = false)
    (spends : LLM_RETRIES ≤ t.attempt → spent) :
    Steps host e spent (s, .thinking t) (s.failed t) := by
  unfold failed
  split
  · refine .of_move (.readEarly s _ foreign) ?_
    simp only
    split
    next waiting =>
      exact .of_move (.giveUp _ t (.inr waiting)) (.of_move (.arrive _ _ .top nofun) (.rest rfl))
    · exact .of_move (.retry _ t) (.of_move (.arrive _ _ (.retry _) nofun) (.rest rfl))
  next left =>
    exact .of_move (.giveUp s t (.inl (spends (not_lt.mp left))))
      (.of_move (.arrive _ _ .top nofun) (.rest rfl))

/-- Every step is a chain of moves, and the model asked at most once at its end. -/
theorem step_steps (host : Host) {s : Agent} (settled : s.Settled) (e : Event) :
    Steps host e (s.exhausts e) (s, s.hand) (s.step host e) := by
  have inbox : ∀ j ∈ s.inbox, j.own = false := fun j member =>
    settled.foreign j (List.mem_append_right _ member)
  unfold step
  split
  · exact .of_move (.send s _ (fun _ => rfl) (fun _ => rfl) (.inr fun _ => rfl))
      (.rest (by simp only [hand, send_at]))
  · exact .of_move (.send s _ (fun _ => rfl) (fun _ => rfl) (.inl ⟨_, rfl⟩))
      (.rest (by simp only [hand, send_at]))
  · exact .of_move (.hangUp s _) (.rest rfl)
  · exact .of_move (.lands s _ _ _) (.rest (by simp only [hand, lands_at]))
  next mo here =>
    rw [show s.hand = .batch {} by simp [hand, here]]
    exact top_steps mo s settled.foreign
  · exact recvInbox_steps _ settled
  · exact recvBack_steps _ settled
  next mo here =>
    have none_ := settled.none_ (.inl here)
    rw [show s.hand = .batch {} by simp [hand, here]]
    refine .of_move (.watch s rfl none_) (aggregate_steps mo _ _ ?_)
    -- A tick queues one wake of the loop's own at most, and it is the head.
    rw [watch_pending host mo none_]
    exact fun j member => settled.foreign j (List.mem_append_right _ (by simpa using member))
  next mo results here =>
    rw [show s.hand = .batch { results } by simp [hand, here]]
    exact deliver_steps mo s _ (settled.none_ (.inr ⟨results, here⟩))
  next mo answer t here =>
    rw [show s.hand = .thinking t by simp [hand, here]]
    exact replied_steps mo s t answer inbox
  next t here =>
    rw [show s.hand = .thinking t by simp [hand, here]]
    exact failed_steps s t inbox fun spends => ⟨t, rfl, here, spends⟩
  next t here =>
    rw [show s.hand = .thinking t by simp [hand, here]]
    exact .of_move (.arrive s _ (.converse _) nofun) (.rest rfl)
  next summary here =>
    rw [show s.hand = .batch {} by simp [hand, here]]
    exact .of_move (.compact s _ _) (.of_move (.arrive _ _ .top nofun) (.rest rfl))
  · exact .rest rfl

/-! ## Every state is settled -/

theorem Settled.of_none {s : Agent} (none_ : s.m.pending = [])
    (foreign : ∀ i ∈ s.inbox, i.own = false) : s.Settled :=
  ⟨fun _ => none_, by simpa [none_] using foreign⟩

/-- Where nothing is selected or collected, all that counts is whose messages wait. -/
theorem Settled.of_foreign {s : Agent} (here : s.at_ ≠ .select ∧ ∀ rs, s.at_ ≠ .collect rs)
    (foreign : ∀ i ∈ s.m.pending ++ s.inbox, i.own = false) : s.Settled :=
  ⟨fun at_ => (at_.elim here.1 fun ⟨rs, collects⟩ => here.2 rs collects).elim, foreign⟩

theorem think_settled (mo : Moment) {s : Agent} (b : Batch) (check : Bool)
    (foreign : ∀ i ∈ s.m.pending ++ s.inbox, i.own = false) : (think mo s b check).Settled :=
  .of_foreign ⟨nofun, nofun⟩ (by simpa [think] using foreign)

theorem deliver_settled (mo : Moment) {s : Agent} (b : Batch) (none_ : s.m.pending = [])
    (foreign : ∀ i ∈ s.inbox, i.own = false) : (deliver mo s b).Settled := by
  unfold deliver
  simp only
  split
  · exact .of_none none_ foreign
  · split
    · split
      · exact .of_none none_ foreign
      · exact think_settled mo _ _ (by simpa [followUp, refund, none_] using foreign)
    · exact think_settled mo _ _ (by simpa [unhold, refund, none_] using foreign)

theorem aggregate_settled (mo : Moment) (s : Agent) (b : Batch) : (aggregate mo s b).Settled := by
  have none_ : ∀ p : AgentStateMachine × Batch, p.1.pending = [] → ∀ (is : List Inbound)
      (unread : List Back) results,
      (unread.foldl back ({ (is.foldl take p).1 with backTx := [] }, results)).1.pending = [] := by
    intro p empty is unread results
    rw [(reads_keep _ _).pending]
    simpa using empty
  unfold aggregate
  simp only
  split
  · exact .of_none (none_ _ (by simp) _ _ _) (by simp)
  · exact deliver_settled mo _ (none_ _ (by simp) _ _ _) (by simp)

theorem wait_settled (mo : Moment) {s : Agent}
    (foreign : ∀ i ∈ s.m.pending ++ s.inbox, i.own = false) : (wait mo s).Settled := by
  unfold wait
  split
  next none_ => exact ⟨fun _ => none_, foreign⟩
  · exact aggregate_settled mo s {}

theorem idle_settled (mo : Moment) {s : Agent}
    (foreign : ∀ i ∈ s.m.pending ++ s.inbox, i.own = false) : (idle mo s).Settled := by
  unfold idle
  split
  · split
    · exact .of_foreign ⟨nofun, nofun⟩ foreign
    · split
      · exact wait_settled mo foreign
      · exact wait_settled mo foreign
  · exact wait_settled mo foreign

theorem top_settled (mo : Moment) {s : Agent}
    (foreign : ∀ i ∈ s.m.pending ++ s.inbox, i.own = false) : (top mo s).Settled := by
  unfold top
  simp only
  split
  · split
    · exact think_settled mo _ _ (by simpa [followUp] using foreign)
    · exact idle_settled mo (by simpa using foreign)
  · exact idle_settled mo foreign

theorem recvInbox_settled (mo : Moment) {s : Agent} (settled : s.Settled) :
    (recvInbox mo s).Settled := by
  unfold recvInbox
  split
  · exact aggregate_settled mo _ _
  next i rest results opened queued here =>
    have none_ : (take (s.m, { results }) i).1.pending = [] := by
      rw [take_pending_eq]
      exact settled.none_ (.inr ⟨_, here⟩)
    refine deliver_settled mo _ none_ fun j member => ?_
    exact settled.foreign j (by rw [queued]; simp [show j ∈ rest from member])
  · split
    · exact aggregate_settled mo _ _
    · exact settled
  · split
    · exact ⟨settled.none_, settled.foreign⟩
    · exact settled
  · exact settled

theorem recvBack_settled (mo : Moment) {s : Agent} (settled : s.Settled) :
    (recvBack mo s).Settled := by
  unfold recvBack
  split
  · exact aggregate_settled mo _ _
  next x rest results unread here =>
    have none_ : (back ({ s.m with backTx := rest }, results) x).1.pending = [] :=
      (back_keeps _ x).pending.trans (settled.none_ (.inr ⟨_, here⟩))
    have foreign : ∀ i ∈ s.inbox, i.own = false := fun i member =>
      settled.foreign i (List.mem_append_right _ member)
    simp only
    split
    · exact .of_none none_ foreign
    · exact deliver_settled mo _ none_ foreign
  · exact settled

theorem replied_settled (host : Host) (mo : Moment) {s : Agent} (t : Thinking) (answer : Turn)
    (settled : s.Settled) : (s.replied host mo t answer).Settled := by
  have foreign : ∀ i ∈ s.m.pending ++ s.inbox, i.own = false := settled.foreign
  unfold replied
  simp only
  split
  · exact .of_foreign ⟨nofun, nofun⟩ (by simpa using foreign)
  · split
    · exact .of_foreign ⟨nofun, nofun⟩ (by simpa using foreign)
    · have same := (answered_keeps host mo t answer
        ({ s with m := { s.m with lastTurnEnd := some mo.now } }.readEarly).m).pending
      split
      · exact .of_foreign ⟨nofun, nofun⟩ (by simpa [same] using foreign)
      next pct used =>
        split
        · exact .of_foreign ⟨nofun, nofun⟩ (by simpa [same] using foreign)
        · refine .of_foreign ⟨nofun, nofun⟩ ?_
          simpa [(warn_minor _ pct).pending, same] using foreign

theorem failed_settled {s : Agent} (t : Thinking) (settled : s.Settled) :
    (s.failed t).Settled := by
  unfold failed
  simp only
  split
  · split
    · exact .of_foreign ⟨nofun, nofun⟩ (by simpa [giveUp] using settled.foreign)
    · exact .of_foreign ⟨nofun, nofun⟩ (by simpa using settled.foreign)
  · exact .of_foreign ⟨nofun, nofun⟩ (by simpa [giveUp] using settled.foreign)

theorem send_settled {s : Agent} {i : Nat → Inbound} (mine : ∀ n, (i n).own = false)
    (settled : s.Settled) : (s.send i).Settled := by
  unfold send
  split
  · exact settled
  · refine ⟨settled.none_, fun j member => ?_⟩
    rw [← List.append_assoc] at member
    rcases List.mem_append.mp member with old | new
    · exact settled.foreign j old
    · exact List.mem_singleton.mp new ▸ mine _

theorem lands_settled {s : Agent} (flight : Nat) (out : ToolOut) (settled : s.Settled) :
    (s.lands flight out).Settled := by
  unfold lands
  split
  · exact settled
  · exact ⟨settled.none_, settled.foreign⟩

theorem step_settled (host : Host) {s : Agent} (settled : s.Settled) (e : Event) :
    (s.step host e).Settled := by
  unfold step
  split
  · exact send_settled (fun _ => rfl) settled
  · exact send_settled (fun _ => rfl) settled
  · exact ⟨settled.none_, settled.foreign⟩
  · exact lands_settled _ _ settled
  · exact top_settled _ settled.foreign
  · exact recvInbox_settled _ settled
  · exact recvBack_settled _ settled
  · exact aggregate_settled _ _ _
  next mo results here =>
    exact deliver_settled mo _ (settled.none_ (.inr ⟨_, here⟩)) fun i member =>
      settled.foreign i (List.mem_append_right _ member)
  · exact replied_settled host _ _ _ settled
  · exact failed_settled _ settled
  · exact .of_foreign ⟨nofun, nofun⟩ settled.foreign
  · exact .of_foreign ⟨nofun, nofun⟩ settled.foreign
  · exact settled

theorem start_settled (host : Host) (saved : Option Saved) : (start host saved).Settled := by
  unfold start
  split
  · exact .of_none rfl (by simp)
  · split <;> exact .of_none rfl (by simp)

theorem run_settled (host : Host) {s : Agent} (settled : s.Settled) (events : List Event) :
    (Machine.run (step host) s events).Settled := by
  induction events generalizing s with
  | nil => exact settled
  | cons e events ih => exact ih (step_settled host settled e)

theorem after_settled (host : Host) (saved : Option Saved) (events : List Event) :
    (after host saved events).Settled :=
  run_settled host (start_settled host saved) events

/-- The loop awaits with no wake in hand. -/
theorem hand_wakes (s : Agent) : s.hand.wakes = [] := by
  unfold hand
  split <;> rfl

end Agent

end AkumaMiot

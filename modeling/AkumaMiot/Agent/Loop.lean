import AkumaMiot.Agent.Texts
import AkumaMiot.Lib.Machine

/-!
# The agent state machine

One loop thinks until its inbox closes and nothing is left in flight. It waits at the points
where the source awaits, and what runs between two of them is one step: messages are queued and
calls come back while it waits, in any order, and the steps say which of them it looked at next.

What the model is asked is put together from pieces, and an entry of the conversation remembers
the pieces it was made of. That, the numbers that tell one message or query from another, and
the trace of a run are for the reader of the model: no function of the loop looks at them.
-/
namespace AkumaMiot

/-- Result-driven turns in a row, with no new wake, before results are held back. -/
def MAX_FOLLOWUPS : Nat := 8
/-- Consecutive unanswered local-task nudges before the loop stops. -/
def MAX_LOCAL_TASK_NUDGES : Nat := 3
/-- Releases of held results in a row, with nobody else writing. -/
def MAX_HELD_RELEASES : Nat := 3
/-- A turn whose model call fails is tried again this many more times. -/
def LLM_RETRIES : Nat := 4
/-- Check-ins in a row answered with only more words. -/
def MAX_CHECK_INS : Nat := 3

def CHECK_IN : String :=
  "(Check-in: none of your tools are running and nothing else is coming back to you. If you " ++
  "said you'd do something next, call its tool now — a message saying you will doesn't do it. " ++
  "If you're finished, or waiting on someone, call nothing and write nothing.)"

def RESTARTED : String :=
  "(You were restarted. The conversation above is from before it. Anything you started then " ++
  "that was still running is gone, and anything that needed a restart — a reboot, a reinstall " ++
  "— has happened. Check before redoing it.)"

/-! ## What comes in and what is fed -/

/-- Which of the queries started this is, how many messages had been queued by then, and in which
session. -/
structure Asked where
  no : Nat
  after : Nat
  session : Nat
deriving DecidableEq, Repr

/-- Worth a turn. -/
structure Wake where
  text : String
  kind : String
  /-- How many messages had been queued before it. -/
  after : Nat
  /-- The loop queued it for itself. -/
  own : Bool := false
deriving DecidableEq, Repr

inductive Inbound
  | wake (w : Wake)
  /-- Start over. -/
  | reset (why : String) (after : Nat)
deriving DecidableEq, Repr

namespace Inbound

/-- How many messages had been queued before it. -/
def after : Inbound → Nat
  | wake w => w.after
  | reset _ n => n

def isReset : Inbound → Bool
  | wake _ => false
  | reset .. => true

/-- The loop queued it for itself. -/
def own : Inbound → Bool
  | wake w => w.own
  | reset .. => false

end Inbound

/-- A result queued for a turn, by the id it is logged under. -/
structure Row where
  id : Nat
  text : String
  asked : Asked
deriving DecidableEq, Repr

/-- One part of the message a turn puts to the model. -/
inductive Piece
  | wake (w : Wake)
  | results (rows : List Row) (texts : List String)
  | notices (texts : List String)
  | note (text : String)
  | running (text : String)
  | checkIn
  | reminder (text : String)
  | lastTurn
deriving DecidableEq, Repr

namespace Piece

def text : Piece → String
  | wake w => w.text
  | results _ texts => "Results of tools you called:\n" ++ joinTexts "\n\n" texts
  | notices texts => joinTexts "\n" texts
  | note text => text
  | running text => text
  | checkIn => CHECK_IN
  | reminder text => text
  | lastTurn =>
    s!"(This is your last turn without someone writing to you: {MAX_FOLLOWUPS} in a row. " ++
    "After it, tool results are held until a message arrives, then fed with it. If you're in " ++
    "the middle of something, SendMessage whoever asked now: what you've done, what's still " ++
    "running, what's next.)"

def wakes : Piece → List Wake
  | wake w => [w]
  | _ => []

def rows : Piece → List Row
  | results rows _ => rows
  | _ => []

end Piece

inductive Speaker
  | user | assistant | called
deriving DecidableEq, Repr

/-- An entry of the conversation, with the pieces a prompt was made of. -/
structure HistoryEntry where
  who : Speaker
  said : String
  pieces : List Piece := []
deriving DecidableEq, Repr

/-- A tool call: its name, those of its arguments the loop reads, the one line that says what it
is doing, and the row history keeps of it. -/
structure Call where
  name : String
  id : Option String := none
  entry : Option Nat := none
  offset : Option Nat := none
  summary : Option String := none
  background : Bool := false
  gist : String := ""
  row : String := ""
deriving DecidableEq, Repr

/-- What the model answered a turn with. -/
structure Turn where
  text : String
  calls : List Call := []
  totalTokens : Nat := 0
deriving DecidableEq, Repr

/-- What a host makes of a call that is not the loop's own. -/
inductive Dispatch
  | query | record | unknown
deriving DecidableEq, Repr

/-- What differs between `kot chat` and a cat. Durations are in milliseconds. -/
structure Host where
  dispatch : Call → Dispatch
  checkBeforeIdle : Bool := true
  localNag : Bool := true
  localNagAfter : Nat := 150000
  heldReleaseAfter : Nat := 30000
  rebootTool : Bool := false
  restartNote : Option String := none
  startNote : Option String := none
  aboutMe : String := ""
  /-- The model's context window, if known. -/
  window : Option Nat := none

/-- A running call's buffer and clocks, in seconds, as the loop finds them. -/
structure Figures where
  queued : Bool := false
  ran : Nat := 0
  bytes : Nat := 0
  /-- `bytes`, for a reader. -/
  size : String := ""
  quiet : Nat := 0
  tail : Nat → String := fun _ => ""
  /-- Quiet for `Host::stall_after`, and no notice out for this silence. -/
  stalled : Bool := false

/-- What the clock, the host's reminder and the calls in flight say while one step runs. -/
structure Moment where
  now : Nat
  reminder : Option String := none
  figures : Nat → Figures := fun _ => {}

/-- A call in flight, as the live record lists it. -/
structure Flight where
  id : Nat
  tool : String
  arg : String
deriving DecidableEq, Repr

/-- What a finished call sends back. -/
inductive Back
  /-- A query's result, tagged with the session it was asked in and its flight (`none`: an
  instant one, never in flight). -/
  | result (name : String) (out : ToolOut) (session : Nat) (flight : Option Nat) (asked : Asked)
  | recordDone (flight : Nat)
deriving DecidableEq, Repr

/-- A spawned call that has not come back. -/
inductive Spawned
  | query (flight : Nat) (name : String) (session : Nat) (asked : Asked)
  | record (flight : Nat)
deriving DecidableEq, Repr

def Spawned.flight : Spawned → Nat
  | query flight .. => flight
  | record flight => flight

/-- What it sends when it is done. -/
def Spawned.back (out : ToolOut) : Spawned → Back
  | query flight name session asked => .result name out session (some flight) asked
  | record flight => .recordDone flight

/-! ## The trace of a run -/

/-- The message one turn put to the model, and the session it was put in. It is `lost` where
the turn was given up. -/
structure Fed where
  session : Nat
  pieces : List Piece
  lost : Bool := false
deriving DecidableEq, Repr

/-- A result as it was read from the channel. -/
structure Landed where
  name : String
  out : ToolOut
  asked : Asked
deriving DecidableEq, Repr

/-- A call acted on: how many messages had been queued when the model was asked and when the
loop acted. -/
structure Acted where
  call : Call
  began : Nat
  done : Nat
deriving DecidableEq, Repr

structure Trace where
  /-- Every message queued, in order. -/
  sent : List Inbound := []
  /-- Every message taken, in order. -/
  taken : List Inbound := []
  /-- How many queries were started. -/
  asks : Nat := 0
  /-- Every query result read, in order. -/
  read : List Landed := []
  /-- Every turn's message, in order. -/
  fed : List Fed := []
  acted : List Acted := []
deriving DecidableEq, Repr

/-! ## The machine -/

structure AgentStateMachine where
  history : List HistoryEntry := []
  /-- Every query result, full text. Result `id` is at `id - toolBase`. -/
  toolLog : List (String × String) := []
  toolBase : Nat := 0
  fresh : List Fresh := []
  turnsFed : Nat := 0
  lastTurnEnd : Option Nat := none
  warnedTier : Nat := 0
  pendingWarning : Option String := none
  kinds : List String := []
  /-- The sending half of the channel: what was sent and is not yet read. -/
  backTx : List Back := []
  queries : Nat := 0
  /-- Flights of background calls still running. -/
  bg : List Nat := []
  records : Nat := 0
  followups : Nat := 0
  /-- Results that arrived past `MAX_FOLLOWUPS`, oldest first. -/
  held : List Row := []
  checkArmed : Bool := false
  checkIns : Nat := 0
  /-- Bumped by every reset. -/
  session : Nat := 0
  /-- Inbound traffic read early, kept for the main loop, in order. -/
  pending : List Inbound := []
  /-- The live record's calls in flight. -/
  running : List Flight := []
  /-- The flights with a buffer and a cancel switch. -/
  live : List Nat := []
  notices : List String := []
  /-- The next flight id. -/
  flights : Nat := 0
  idleSince : Option Nat := none
  restartNote : Option String := none
  localNudges : Nat := 0
  heldReleases : Nat := 0
  /-- Wakes the loop queued for itself and has not yet folded into a batch. -/
  syntheticWakes : Nat := 0
  awaitingNudgeReply : Bool := false
  lastUnfulfilledPromise : Option String := none
  /-- The calls spawned and not back. -/
  tasks : List Spawned := []
  trace : Trace := {}
deriving DecidableEq, Repr

/-- The wakes and results gathered for one turn. -/
structure Batch where
  wakes : List Wake := []
  results : List Row := []
deriving DecidableEq, Repr

namespace AgentStateMachine

def nextId (m : AgentStateMachine) : Nat := m.toolBase + m.toolLog.length

/-- Result `id`'s tool and full text, if it is still kept. -/
def logged (m : AgentStateMachine) (id : Nat) : Option (String × String) :=
  if m.toolBase ≤ id then m.toolLog[id - m.toolBase]? else none

/-- The query about to be started. -/
def asking (m : AgentStateMachine) : Asked := ⟨m.trace.asks, m.trace.sent.length, m.session⟩

/-- One inbound item into the batch being assembled. A reset empties the batch too. -/
def take (p : AgentStateMachine × Batch) (i : Inbound) : AgentStateMachine × Batch :=
  let (m, b) := p
  match i with
  | .wake w =>
    let taken := if w.own then m.trace.taken else m.trace.taken ++ [i]
    ({ m with trace := { m.trace with taken } }, { b with wakes := b.wakes ++ [w] })
  | .reset _ _ =>
    ({ m with
        session := m.session + 1
        history := []
        fresh := []
        restartNote := none
        warnedTier := 0
        pendingWarning := none
        followups := 0
        held := []
        notices := []
        checkArmed := false
        checkIns := 0
        localNudges := 0
        heldReleases := 0
        syntheticWakes := 0
        awaitingNudgeReply := false
        lastUnfulfilledPromise := none
        idleSince := none
        trace := { m.trace with taken := m.trace.taken ++ [i] } },
      { wakes := [], results := [] })

/-- A call came back: off the running list, if it was ever on it. -/
def land (m : AgentStateMachine) (flight : Option Nat) : AgentStateMachine :=
  match flight with
  | none => m
  | some id =>
    { m with
      live := m.live.filter (· ≠ id)
      running := m.running.eraseP (·.id = id) }

/-- A background flight's result, or one less to wait for. -/
def settleFlight (m : AgentStateMachine) (flight : Option Nat) : AgentStateMachine :=
  match flight with
  | some f =>
    if f ∈ m.bg then { m with bg := m.bg.filter (· ≠ f) }
    else { m with queries := m.queries - 1 }
  | none => { m with queries := m.queries - 1 }

/-- A query result: logged, and queued for the next turn by id unless it is of a session that
is over. -/
def back (p : AgentStateMachine × List Row) (b : Back) : AgentStateMachine × List Row :=
  let (m, results) := p
  match b with
  | .recordDone flight => ({ m with records := m.records - 1 }.land (some flight), results)
  | .result name out session flight asked =>
    let m := (m.settleFlight flight).land flight
    let m := { m with trace := { m.trace with read := m.trace.read ++ [⟨name, out, asked⟩] } }
    if session ≠ m.session then (m, results)
    else
      let id := m.nextId
      let text := keep out.text
      ({ m with toolLog := m.toolLog ++ [(name, text)] }, results ++ [⟨id, feed id text, asked⟩])

/-! ### The watchdog -/

/-- A wake the loop queues for itself. -/
def queueOwn (m : AgentStateMachine) (text : String) : AgentStateMachine :=
  let w : Wake := ⟨text, m.kinds.getLast?.getD "said", m.trace.sent.length, true⟩
  { m with pending := m.pending ++ [.wake w], syntheticWakes := m.syntheticWakes + 1 }

/-- Results are held, nothing is running, and it has been quiet for long enough: queue a wake so
they are fed. Answers whether it queued one. -/
def maybeReleaseHeld (host : Host) (mo : Moment) (m : AgentStateMachine) :
    Bool × AgentStateMachine :=
  if m.held = [] ∨ m.queries ≠ 0 ∨ m.records ≠ 0 ∨ !host.checkBeforeIdle then (false, m)
  else if m.heldReleases ≥ MAX_HELD_RELEASES ∨ m.pending ≠ [] then (false, m)
  else match m.idleSince with
    | none => (false, m)
    | some since =>
      if mo.now - since < host.heldReleaseAfter then (false, m)
      else
        let m := { m with heldReleases := m.heldReleases + 1 }
        let tail := if m.heldReleases ≥ MAX_HELD_RELEASES then
            " This is the last time they're released without someone writing to you: if " ++
            "you're in the middle of something, SendMessage whoever asked now."
          else ""
        let text := s!"(Nobody has written for a while, and {m.held.length} of your tool " ++
          s!"result(s) were held back after {MAX_FOLLOWUPS} follow-up turns in a row. They're " ++
          s!"attached — carry on.{tail})"
        (true, { m.queueOwn text with idleSince := some mo.now })

/-- Idle with open local tasks for long enough: queue a wake reminding the model. -/
def maybeNag (host : Host) (mo : Moment) (m : AgentStateMachine) : AgentStateMachine :=
  if m.queries ≠ 0 ∨ m.bg ≠ [] ∨ m.records ≠ 0 ∨ !host.checkBeforeIdle ∨ !host.localNag then m
  else if m.localNudges ≥ MAX_LOCAL_TASK_NUDGES then m
  else match m.idleSince, mo.reminder with
    | some since, some reminder =>
      if mo.now - since < host.localNagAfter then m
      else
        let m := { m with localNudges := m.localNudges + 1 }
        let tail := if m.localNudges ≥ MAX_LOCAL_TASK_NUDGES then
            " This is the last reminder on these — if you're stuck or waiting on someone, say " ++
            "so; nothing more will nudge you about them."
          else ""
        let callout := match m.lastUnfulfilledPromise with
          | some said =>
            s!"\nLast time you said this, then called no tool: \"{said}\". A message alone " ++
            "didn't do it then either — call the tool in this response, not another promise."
          | none => ""
        let text := s!"(Idle {human ((mo.now - since) / 1000)} with open local tasks.{tail}\n" ++
          s!"{reminder}\nDo the next step now, or call LocalTask to update the list.{callout})"
        { m.queueOwn text with
          lastUnfulfilledPromise := none
          awaitingNudgeReply := true
          idleSince := some mo.now }
    | _, _ => m

/-- The queries still out, what the model can look at or cancel. -/
def runningQueries (m : AgentStateMachine) : List Flight := m.running.filter (·.id ∈ m.live)

/-- The notice a call gone quiet gets. -/
def stallNotice (f : Flight) (g : Figures) : String :=
  let heard := if g.bytes = 0 then s!"no output at all in {human g.ran}"
    else s!"no new output for {human g.quiet}"
  s!"[r{f.id} {f.tool} still running] {f.arg} — {human g.ran} so far, {heard}. It may be " ++
  s!"stalled: Running r{f.id} shows its output so far, Cancel r{f.id} stops it. Or leave it — " ++
  "its result comes back when it finishes."

/-- On the watchdog's tick. One self-made wake a tick. -/
def watch (host : Host) (mo : Moment) (m : AgentStateMachine) : AgentStateMachine :=
  let (released, m) := m.maybeReleaseHeld host mo
  let m := if released then m else m.maybeNag host mo
  let quiet := m.runningQueries.filter fun f => (mo.figures f.id).stalled
  { m with notices := m.notices ++ quiet.map fun f => stallNotice f (mo.figures f.id) }

/-! ### One turn -/

/-- A running call's line at the top of a turn. -/
def runningLine (f : Flight) (g : Figures) : String :=
  if g.queued then s!"r{f.id} {f.tool} {f.arg} — queued behind the calls before it"
  else
    let out := if g.bytes = 0 then "no output yet"
      else s!"{g.size} of output, last {human g.quiet} ago"
    s!"r{f.id} {f.tool} {f.arg} — {human g.ran}, {out}"

/-- What is still out, for the top of a turn. -/
def stillRunning (mo : Moment) (m : AgentStateMachine) : Option String :=
  let rows := m.runningQueries.map fun f => runningLine f (mo.figures f.id)
  if rows = [] then none
  else some ("Still running (Running <id> for output so far, Cancel <id> to stop one):\n" ++
    joinTexts "\n" rows)

/-- The last user's entry that holds the row, with the stub in its place. -/
def stubIn (full stub : String) : List HistoryEntry → List HistoryEntry
  | [] => []
  | e :: older =>
    match if e.who = .user then replaceFirst full.toList stub.toList e.said.toList else none with
    | some said => { e with said := String.ofList said } :: older
    | none => e :: stubIn full stub older

/-- Turns since a row was fed. -/
def turnsSince (m : AgentStateMachine) (f : Fresh) : Nat := m.turnsFed - f.turn

/-- Fed `RESULT_TURNS` or more turns ago. -/
def due (m : AgentStateMachine) : List Fresh :=
  m.fresh.filter fun f => m.turnsSince f ≥ RESULT_TURNS

/-- Every row that is due replaced by its stub, in the message it went out in. -/
def stubDue (m : AgentStateMachine) : AgentStateMachine :=
  { m with
    fresh := m.fresh.filter fun f => ¬m.turnsSince f ≥ RESULT_TURNS
    history := m.due.foldl (fun history f =>
      (stubIn f.full (f.stub m.toolBase) history.reverse).reverse) m.history }

/-- Rows are stubbed in batches, since each rewrite costs the provider's prefix cache. -/
def age (mo : Moment) (m : AgentStateMachine) : AgentStateMachine :=
  let cold := m.lastTurnEnd.any fun at_ => mo.now - at_ ≥ CACHE_COLD
  let oldest := ((m.fresh.map m.turnsSince).max?).getD 0
  if shouldAge oldest (m.due.map Fresh.chars).sum cold then m.stubDue else m

/-- A result's row as it is fed. -/
def rowOf (m : AgentStateMachine) (r : Row) : String :=
  rowText r.id ((m.logged r.id).getD ("", "")).1 r.text

/-- What aging will need of a fed row, unless it is short. -/
def freshOf (m : AgentStateMachine) (r : Row) : Option Fresh :=
  let (name, full) := (m.logged r.id).getD ("", "")
  if (m.rowOf r).length > AGE_MIN_CHARS then
    some ⟨r.id, name, takeChars STUB_HEAD (firstLine full), full.length, m.turnsFed, m.rowOf r⟩
  else none

/-- The message of a turn, piece by piece. -/
def prompt (mo : Moment) (m : AgentStateMachine) (b : Batch) (check : Bool) : List Piece :=
  b.wakes.map .wake ++
  (if b.results = [] then [] else [.results b.results (b.results.map m.rowOf)]) ++
  (if m.notices = [] then [] else [.notices m.notices]) ++
  m.restartNote.toList.map .note ++
  (m.stillRunning mo).toList.map .running ++
  (if check then [.checkIn] else []) ++
  (if b.wakes = [] then [] else mo.reminder.toList.map .reminder) ++
  (if b.wakes = [] ∧ m.followups ≥ MAX_FOLLOWUPS then [.lastTurn] else [])

/-- What a turn still knows once the model is thinking. -/
structure Thinking where
  check : Bool
  awaitingNudgeReply : Bool
  /-- There were results in it. -/
  results : Bool
  attempt : Nat := 0
  /-- How many messages had been queued when the model was asked. -/
  began : Nat
deriving DecidableEq, Repr

/-- The count of turns and what a wake settles, before the message is put together. -/
def startTurn (m : AgentStateMachine) (b : Batch) (check : Bool) : AgentStateMachine :=
  let woken := b.wakes ≠ []
  { m with
    kinds := if woken then (b.wakes.map Wake.kind).destutter (· ≠ ·) else m.kinds
    awaitingNudgeReply := if woken then false else m.awaitingNudgeReply
    checkIns := (if woken then 0 else m.checkIns) + (if check then 1 else 0)
    turnsFed := m.turnsFed + 1 }

/-- A turn up to where the model is asked. -/
def turn (mo : Moment) (m : AgentStateMachine) (b : Batch) (check : Bool) :
    AgentStateMachine × Thinking :=
  let awaiting := b.wakes ≠ [] ∧ m.awaitingNudgeReply
  let m := m.startTurn b check
  let pieces := m.prompt mo b check
  let m := { m with
    fresh := m.fresh ++ b.results.filterMap m.freshOf
    notices := []
    restartNote := none }.age mo
  ({ m with
      history := m.history ++ [⟨.user, joinTexts "\n\n" (pieces.map Piece.text), pieces⟩]
      pendingWarning := none
      trace := { m.trace with fed := m.trace.fed ++ [⟨m.session, pieces, false⟩] } },
    { check, awaitingNudgeReply := awaiting, results := b.results ≠ [],
      began := m.trace.sent.length })

/-- What a failed turn leaves: it never happened, as far as history goes. -/
def giveUp (m : AgentStateMachine) (t : Thinking) : AgentStateMachine :=
  { m with
    history := m.history.dropLast
    localNudges := if t.awaitingNudgeReply then m.localNudges - 1 else m.localNudges
    trace := { m.trace with
      fed := m.trace.fed.dropLast ++ m.trace.fed.getLast?.toList.map ({ · with lost := true }) } }

/-! ### What becomes of a batch -/

/-- A wake the loop made for itself isn't anyone writing: only a real one gives the release
budget back. -/
def refund (m : AgentStateMachine) (b : Batch) : AgentStateMachine :=
  { m with
    heldReleases := if b.wakes.length > m.syntheticWakes then 0 else m.heldReleases
    syntheticWakes := 0 }

/-- Past the cap results are held, and a notice is dropped. -/
def holdBack (m : AgentStateMachine) (b : Batch) : AgentStateMachine :=
  { m with notices := [], held := m.held ++ b.results }

def followUp (m : AgentStateMachine) : AgentStateMachine :=
  { m with followups := m.followups + 1 }

/-- What was held is older than anything in this batch, so first. -/
def unhold (m : AgentStateMachine) (b : Batch) : AgentStateMachine × Batch :=
  ({ m with followups := 0, held := [] }, { b with results := m.held ++ b.results })

/-! ### Acting -/

/-- History replaced by a summary. -/
def compact (m : AgentStateMachine) (summary : String) : AgentStateMachine :=
  { m with history := [⟨.assistant, summary, []⟩], fresh := [], warnedTier := 0 }

/-- Instant, but still a result: it comes back like any other. -/
def instant (m : AgentStateMachine) (name : String) (out : ToolOut) : AgentStateMachine :=
  { m with
    queries := m.queries + 1
    backTx := m.backTx ++ [.result name out m.session none m.asking]
    trace := { m.trace with asks := m.trace.asks + 1 } }

/-- `Bash`, `ReadFile` and the like, the same for every host. -/
def localTools : List String :=
  ["Bash", "ReadFile", "WriteFile", "Edit", "MultiEdit", "LS", "Glob", "Grep"]

/-- The flight a call takes. -/
def takeOff (m : AgentStateMachine) (c : Call) : AgentStateMachine :=
  { m with flights := m.flights + 1, running := m.running ++ [⟨m.flights, c.name, c.gist⟩] }

def startQuery (m : AgentStateMachine) (c : Call) : AgentStateMachine :=
  let background := c.name = "Bash" ∧ c.background
  { m.takeOff c with
    bg := if background then m.bg ++ [m.flights] else m.bg
    queries := if background then m.queries else m.queries + 1
    live := m.live ++ [m.flights]
    tasks := m.tasks ++ [.query m.flights c.name m.session m.asking]
    trace := { m.trace with asks := m.trace.asks + 1 } }

def startRecord (m : AgentStateMachine) (c : Call) : AgentStateMachine :=
  { m.takeOff c with
    records := m.records + 1
    tasks := m.tasks ++ [.record m.flights] }

def dispatch (host : Host) (m : AgentStateMachine) (c : Call) : AgentStateMachine :=
  match if c.name ∈ localTools then .query else host.dispatch c with
  | .query => m.startQuery c
  | .record => m.startRecord c
  -- Fed back, so the model learns it rather than retrying blind.
  | .unknown => m.instant c.name { arg := c.gist, ok := false, facts := ["no such tool here"] }

/-- A flight's id as a call names it. -/
def flightNamed (text : String) : String :=
  String.ofList ((trim text.toList).dropWhile fun c => c = 'r' ∨ c = 'R' ∨ c = '#')

def aboutRunning (mo : Moment) (m : AgentStateMachine) (c : Call) : ToolOut :=
  let queries := m.runningQueries
  if queries = [] then { arg := "", ok := true, body := "Nothing is running." }
  else match (c.id.map flightNamed).filter (· ≠ "") with
    | none =>
      let printed := queries.filter fun f => (mo.figures f.id).bytes > 0
      { arg := "", ok := true, facts := [s!"{queries.length} running"],
        body := joinTexts "\n" ((m.stillRunning mo).getD "" :: printed.map fun f =>
          s!"--- r{f.id} latest output:\n{(mo.figures f.id).tail 400}") }
    | some w =>
      match queries.find? fun f => toString f.id = w with
      | none =>
        { arg := s!"r{w}", ok := false, facts := ["not running"],
          body := (m.stillRunning mo).getD "" }
      | some f =>
        let g := mo.figures f.id
        if g.queued then
          { arg := s!"r{w}", ok := true,
            body := s!"r{f.id} {f.tool} {f.arg} — queued: it runs when the calls before it " ++
              "finish." }
        else
          let out := if g.bytes = 0 then "(no output yet)" else g.tail RUNNING_TAIL
          { arg := s!"r{w}", ok := true,
            body := s!"r{f.id} {f.tool} {f.arg} — running {human g.ran}, {g.size} of output, " ++
              s!"last {human g.quiet} ago\n{out}" }

/-- `Cancel` only throws the switch: the call's result comes back marked cancelled. -/
def cancel (mo : Moment) (m : AgentStateMachine) (c : Call) : ToolOut :=
  let w := flightNamed (c.id.getD "")
  match m.runningQueries.find? fun f => toString f.id = w with
  | none =>
    { arg := s!"r{w}", ok := false, facts := ["not running"],
      body := (m.stillRunning mo).getD "Nothing is running." }
  | some f =>
    { arg := s!"r{w}", ok := true,
      body := s!"Cancelling r{f.id} ({f.tool} {f.arg}). Its result comes back marked cancelled." }

def inspect (m : AgentStateMachine) (c : Call) : ToolOut :=
  match c.entry with
  | none =>
    { arg := "None", ok := false,
      facts := [s!"no such id (#{m.toolBase}–#{m.nextId - 1} stored)"] }
  | some i =>
    if i < m.toolBase then
      { arg := s!"#{i}", ok := false,
        facts := ["from before a restart — not kept; run it again if you need it"] }
    else match m.logged i with
      | some (name, out) =>
        let total := out.length
        let begin_ := min (c.offset.getD 0) total
        let end_ := min (begin_ + INSPECT_CHARS) total
        let page := takeChars (end_ - begin_) (skipChars begin_ out)
        let more := if end_ < total then
          s!"\n… [Inspect \x7b\"id\": {i}, \"offset\": {end_}\x7d for the next part]" else ""
        { arg := s!"#{i} {name}", ok := true, facts := [s!"chars {begin_}–{end_} of {total}"],
          body := page ++ more }
      | none =>
        { arg := s!"Some({i})", ok := false,
          facts := [s!"no such id (#{m.toolBase}–#{m.nextId - 1} stored)"] }

def browseTools (m : AgentStateMachine) : ToolOut :=
  if m.toolLog = [] then { arg := "", ok := true, body := "No tool results stored yet." }
  else
    let lines := m.toolLog.mapIdx fun i row =>
      s!"{m.toolBase + i}: {row.1} — {takeChars 60 (firstLine row.2)}"
    { arg := "", ok := true, facts := [s!"{lines.length} stored"], body := joinTexts "\n" lines }

def tokenBudget (host : Host) (m : AgentStateMachine) (totalTokens : Nat) : ToolOut :=
  let usage := match pctUsed totalTokens host.window, host.window with
    | some p, some w => s!"{totalTokens}/{w} tokens ({p}%) used last turn"
    | _, _ => s!"{totalTokens} tokens used last turn (context window unknown for this model)"
  { arg := "", ok := true,
    body := s!"{usage}. {m.toolLog.length} tool result(s) stored — BrowseTools to list them." }

/-- The tools this loop runs itself. -/
def sessionTools : List String :=
  ["TokenBudget", "BrowseTools", "Inspect", "AboutMe", "Running", "Cancel"]

def sessionTool (host : Host) (mo : Moment) (m : AgentStateMachine) (c : Call)
    (totalTokens : Nat) : ToolOut :=
  match c.name with
  | "TokenBudget" => m.tokenBudget host totalTokens
  | "BrowseTools" => m.browseTools
  | "Running" => m.aboutRunning mo c
  | "Cancel" => m.cancel mo c
  | "Inspect" => m.inspect c
  | _ => { arg := "", ok := true, body := host.aboutMe }

/-- One call of a turn. Answers with whether the conversation has been compacted. -/
def act (host : Host) (mo : Moment) (totalTokens : Nat) (p : AgentStateMachine × Bool)
    (c : Call) : AgentStateMachine × Bool :=
  let (m, compacted) := p
  if c.name = "Compact" ∨ (c.name = "Reboot" ∧ host.rebootTool) then
    (m.compact (c.summary.getD ""), true)
  else if c.name ∈ sessionTools then
    (m.instant c.name (m.sessionTool host mo c totalTokens), compacted)
  else (m.dispatch host c, compacted)

/-- An entry the model made. -/
def say (m : AgentStateMachine) (who : Speaker) (said : String) : AgentStateMachine :=
  { m with history := m.history ++ [⟨who, said, []⟩] }

def sayUnless (m : AgentStateMachine) (nothing : Bool) (who : Speaker) (said : String) :
    AgentStateMachine :=
  if nothing then m else m.say who said

/-- A call noted in the trace. -/
def noteActed (t : Thinking) (m : AgentStateMachine) (c : Call) : AgentStateMachine :=
  { m with trace := { m.trace with
      acted := m.trace.acted ++ [⟨c, t.began, m.trace.sent.length⟩] } }

/-- What a turn's calls and words leave of the budgets. -/
def reckon (host : Host) (t : Thinking) (answer : Turn) (startedNothing : Bool)
    (m : AgentStateMachine) : AgentStateMachine :=
  let m := if startedNothing then m
    else { m with localNudges := 0, checkIns := 0, lastUnfulfilledPromise := none }
  let text := trimText answer.text
  let wrote := answer.calls ≠ [] ∨ text ≠ ""
  let onlyText := answer.calls = [] ∧ text ≠ ""
  let working : Bool := if t.check then onlyText else t.results ∨ (t.awaitingNudgeReply ∧ onlyText)
  let promise :=
    if answer.calls = [] then
      if t.awaitingNudgeReply ∧ text ≠ "" then some text else m.lastUnfulfilledPromise
    else if t.awaitingNudgeReply then none else m.lastUnfulfilledPromise
  { m with
    checkArmed := working ∧ wrote ∧ startedNothing ∧ m.checkIns < MAX_CHECK_INS ∧
      host.checkBeforeIdle
    lastUnfulfilledPromise := promise }

/-- What the model answered, acted on. Answers with whether the conversation has been
compacted. -/
def answered (host : Host) (mo : Moment) (t : Thinking) (answer : Turn) (m : AgentStateMachine) :
    AgentStateMachine × Bool :=
  let own := trimText answer.text
  let m := m.sayUnless (own = "") .assistant own
  let (acted, compacted) := answer.calls.foldl
    (fun p c => act host mo answer.totalTokens (p.1.noteActed t c, p.2) c) (m, false)
  let calls := "[" ++ joinTexts "," (answer.calls.map Call.row) ++ "]"
  -- A compaction just replaced the history they'd go in.
  let kept := acted.sayUnless (answer.calls = [] ∨ compacted) .called calls
  (kept.reckon host t answer (acted.queries = m.queries), compacted)

/-- A warning for the next turn, at a checkpoint of the context window. -/
def warn (m : AgentStateMachine) (pct : Nat) : AgentStateMachine :=
  match budgetCheckpoint pct m.warnedTier with
  | some tier =>
    { m with
      warnedTier := tier
      pendingWarning := some (s!"⚠ context budget: {pct}% of your window used. Consider " ++
        "calling Compact soon (past tool results survive it) — this session force-compacts " ++
        s!"at {FORCE_COMPACT_PCT}%.") }
  | none => m

end AgentStateMachine

open AgentStateMachine (Thinking)

/-! ## The loop -/

/-- Where the loop awaits. `top` is where it begins again. -/
inductive Point
  | top
  /-- For anything at all. -/
  | select
  /-- For the rest of a batch of results. -/
  | collect (results : List Row)
  /-- For the model. -/
  | converse (t : Thinking)
  /-- To ask the model again. -/
  | retry (t : Thinking)
  /-- For the model's summary of the conversation. -/
  | summarize
  | ended
deriving DecidableEq, Repr

structure Agent where
  m : AgentStateMachine := {}
  inbox : List Inbound := []
  /-- Every sender of the inbox is gone. -/
  hungUp : Bool := false
  opened : Bool := true
  wasIdle : Bool := false
  at_ : Point := .top
deriving DecidableEq, Repr

namespace Agent

/-- A turn, up to where the model is asked. -/
def think (mo : Moment) (s : Agent) (b : Batch) (check : Bool) : Agent :=
  let (m, t) := { s.m with idleSince := none }.turn mo b check
  { s with m, wasIdle := false, at_ := .converse t }

/-- What is done with a batch: fed, held back, or nothing. -/
def deliver (mo : Moment) (s : Agent) (b : Batch) : Agent :=
  let s := { s with m := s.m.refund b }
  if b.wakes = [] ∧ b.results = [] ∧ s.m.notices = [] then { s with at_ := .top }
  else if b.wakes = [] then
    if s.m.followups ≥ MAX_FOLLOWUPS then { s with m := s.m.holdBack b, at_ := .top }
    else think mo { s with m := s.m.followUp } b false
  else
    let (m, b) := s.m.unhold b
    think mo { s with m } b false

/-- Everything already queued, then, for results with no wake, the rest of the batch. -/
def aggregate (mo : Moment) (s : Agent) (b : Batch) : Agent :=
  let (m, b) := s.m.pending.foldl AgentStateMachine.take ({ s.m with pending := [] }, b)
  let (m, b) := s.inbox.foldl AgentStateMachine.take (m, b)
  let (m, results) := m.backTx.foldl AgentStateMachine.back ({ m with backTx := [] }, b.results)
  let s := { s with m, inbox := [] }
  if b.wakes = [] ∧ results ≠ [] ∧ m.queries > 0 then { s with at_ := .collect results }
  else deliver mo s { b with results }

/-- Wait for anything at all, traffic already read early first. -/
def wait (mo : Moment) (s : Agent) : Agent :=
  if s.m.pending = [] then { s with at_ := .select } else aggregate mo s {}

/-- Idle, over, or waiting. -/
def idle (mo : Moment) (s : Agent) : Agent :=
  if s.m.queries = 0 ∧ s.m.records = 0 then
    if !s.opened then { s with at_ := .ended }
    else if !s.wasIdle then
      wait mo { s with wasIdle := true, m := { s.m with idleSince := some mo.now } }
    else wait mo s
  else wait mo s

/-- The head of the loop. About to idle mid-work: one check-in first. -/
def top (mo : Moment) (s : Agent) : Agent :=
  if s.m.checkArmed ∧ s.m.queries = 0 then
    let m := { s.m with checkArmed := false, pending := s.m.pending ++ s.inbox }
    let s := { s with m, inbox := [] }
    if m.pending = [] ∧ m.followups < MAX_FOLLOWUPS then
      think mo { s with m := m.followUp } {} true
    else idle mo s
  else idle mo s

/-- `inbox.recv()`, where something is there or every sender is gone. -/
def recvInbox (mo : Moment) (s : Agent) : Agent :=
  match s.opened, s.inbox, s.at_ with
  | true, i :: rest, .select =>
    let (m, b) := AgentStateMachine.take (s.m, {}) i
    aggregate mo { s with m, inbox := rest } b
  | true, i :: rest, .collect results =>
    let (m, b) := AgentStateMachine.take (s.m, { results }) i
    deliver mo { s with m, inbox := rest } b
  | true, [], .select => if s.hungUp then aggregate mo { s with opened := false } {} else s
  | true, [], .collect _ => if s.hungUp then { s with opened := false } else s
  | _, _, _ => s

/-- `back_rx.recv()`, where something is there. -/
def recvBack (mo : Moment) (s : Agent) : Agent :=
  match s.m.backTx, s.at_ with
  | b :: rest, .select =>
    let (m, results) := AgentStateMachine.back ({ s.m with backTx := rest }, []) b
    aggregate mo { s with m } { results }
  | b :: rest, .collect results =>
    let (m, results) := AgentStateMachine.back ({ s.m with backTx := rest }, results) b
    if m.queries > 0 then { s with m, at_ := .collect results }
    else deliver mo { s with m } { results }
  | _, _ => s

/-- Whatever is read to find out stays queued, in order. -/
def readEarly (s : Agent) : Agent :=
  { s with m := { s.m with pending := s.m.pending ++ s.inbox }, inbox := [] }

/-- Whether a reset is among what was read. -/
def resetWaiting (s : Agent) : Bool := s.m.pending.any Inbound.isReset

/-- The model call failed. -/
def failed (s : Agent) (t : Thinking) : Agent :=
  if t.attempt < LLM_RETRIES then
    let s := s.readEarly
    if s.resetWaiting then { s with m := s.m.giveUp t, at_ := .top }
    else { s with at_ := .retry { t with attempt := t.attempt + 1 } }
  else { s with m := s.m.giveUp t, at_ := .top }

/-- The model answered. -/
def replied (host : Host) (mo : Moment) (s : Agent) (t : Thinking) (answer : Turn) : Agent :=
  let s := { s with m := { s.m with lastTurnEnd := some mo.now } }.readEarly
  -- This turn answered a session that no longer exists: act on none of it.
  if s.resetWaiting then { s with at_ := .top }
  else if t.check ∧ answer.calls = [] ∧ trimText answer.text = "" then
    { s with m := { s.m with history := s.m.history.dropLast }, at_ := .top }
  else
    let (m, compacted) := s.m.answered host mo t answer
    match pctUsed answer.totalTokens host.window with
    | none => { s with m, at_ := .top }
    | some pct =>
      if pct ≥ FORCE_COMPACT_PCT ∧ !compacted then { s with m, at_ := .summarize }
      else { s with m := m.warn pct, at_ := .top }

/-- The model's own summary, where it gave one. -/
def summarized (s : Agent) (summary : Option String) : Agent :=
  let text := match summary.map trimText with
    | some text =>
      if text = "" then "(compaction summary unavailable — history cleared anyway)" else text
    | none => "(compaction summary unavailable — history cleared anyway)"
  { s with m := s.m.compact text, at_ := .top }

/-- A message is queued. -/
def send (s : Agent) (i : Nat → Inbound) : Agent :=
  if s.hungUp then s
  else
    let i := i s.m.trace.sent.length
    { s with
      inbox := s.inbox ++ [i]
      m := { s.m with trace := { s.m.trace with sent := s.m.trace.sent ++ [i] } } }

/-- A spawned call is done, and sends what it has. -/
def lands (s : Agent) (flight : Nat) (out : ToolOut) : Agent :=
  match s.m.tasks.find? (·.flight = flight) with
  | none => s
  | some task =>
    { s with m := { s.m with
        tasks := s.m.tasks.eraseP (·.flight = flight)
        backTx := s.m.backTx ++ [task.back out] } }

/-- What can happen next. -/
inductive Event
  | wake (text kind : String)
  | reset (why : String)
  | hangUp
  | lands (flight : Nat) (out : ToolOut)
  | go (mo : Moment)
  | inbox (mo : Moment)
  | channel (mo : Moment)
  | tick (mo : Moment)
  | deadline (mo : Moment)
  | replied (mo : Moment) (answer : Turn)
  | failed
  | woke
  | summarized (summary : Option String)

/-- One step. What cannot happen where the loop is changes nothing. -/
def step (host : Host) (s : Agent) (e : Event) : Agent :=
  match e, s.at_ with
  | .wake text kind, _ => s.send fun n => .wake ⟨text, kind, n, false⟩
  | .reset why, _ => s.send fun n => .reset why n
  | .hangUp, _ => { s with hungUp := true }
  | .lands flight out, _ => s.lands flight out
  | .go mo, .top => s.top mo
  | .inbox mo, _ => s.recvInbox mo
  | .channel mo, _ => s.recvBack mo
  | .tick mo, .select => aggregate mo { s with m := s.m.watch host mo } {}
  | .deadline mo, .collect results => deliver mo s { results }
  | .replied mo answer, .converse t => s.replied host mo t answer
  | .failed, .converse t => s.failed t
  | .woke, .retry t => { s with at_ := .converse t }
  | .summarized summary, .summarize => s.summarized summary
  | _, _ => s

/-- What the history file holds. -/
structure Saved where
  history : List (Speaker × String)
  fresh : List Fresh := []
  turns : Nat := 0
  nextId : Nat := 0

/-- The agent as it starts, from what its history file holds if it keeps one. -/
def start (host : Host) : Option Saved → Agent
  | none => {}
  | some saved =>
    if saved.history = [] then { m := { restartNote := host.startNote } }
    else
      { m := {
          history := saved.history.map fun e => ⟨e.1, e.2, []⟩
          fresh := saved.fresh
          turnsFed := saved.turns
          toolBase := saved.nextId
          restartNote := some (host.restartNote.getD RESTARTED) } }

/-- The agent after a run from its start. -/
def after (host : Host) (saved : Option Saved) (events : List Event) : Agent :=
  Machine.run (step host) (start host saved) events

end Agent

end AkumaMiot

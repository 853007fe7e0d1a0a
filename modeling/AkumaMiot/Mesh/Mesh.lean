import Mathlib.Data.Finset.Card
import Std.Data.TreeMap

/-!
# Who produces blocks

Leader election for the mesh of nodes as a pure state machine: terms, one vote a term, a
majority, pre-votes, and leader stickiness. The clock and the network are the caller's.

Terms, heads and the clock are `u64` in the source and natural numbers here: what follows is about
runs in which none of them comes to 2^64. A term counts elections up by one; past the end it would
wrap to 0 in a pre-vote, which nobody grants.
-/
namespace AkumaMiot

/-- A node's name. -/
abbrev Name := String

/-- How one node reaches a peer. -/
abbrev Route := String

inductive Role
  | follower | preCandidate | candidate | leader
deriving DecidableEq, Repr

/-- What must survive a restart, or a node could vote twice in one term. -/
structure Hard where
  term : Nat := 0
  votedFor : Option Name := none
  headTerm : Nat := 0
deriving DecidableEq, Repr

/-- What a node says about itself. A leader's status is its heartbeat. -/
structure Status where
  name : Name
  account : String
  term : Nat
  role : Role
  leader : Option Name
  head : Nat
  headTerm : Nat
deriving DecidableEq, Repr

structure VoteRequest where
  term : Nat
  candidate : Name
  head : Nat
  headTerm : Nat
  pre : Bool
deriving DecidableEq, Repr

structure VoteReply where
  term : Nat
  granted : Bool
deriving DecidableEq, Repr

/-- Election timeouts, in milliseconds. -/
structure Timing where
  electionMinMs : Nat := 4000
  electionMaxMs : Nat := 8000
deriving DecidableEq, Repr

structure Mesh where
  name : Name
  routes : List Route
  timing : Timing
  hard : Hard
  hardDirty : Bool
  role : Role
  leader : Option Name
  leaderRoute : Option Route
  lastLeaderContact : Option Nat
  leaderSince : Nat
  deadline : Nat
  rng : UInt64
  votes : Finset Route
  campaignTerm : Nat
  seen : Std.TreeMap Route (Nat × Status)
  heard : Std.TreeMap Name (Nat × Status)
  lagging : Std.TreeMap Route (Nat × Nat)
  pushed : Finset Route
  learner : Bool

namespace Mesh

/-- xorshift64. Only spreads timeouts. -/
def nextRng (rng : UInt64) : UInt64 :=
  let a := rng ^^^ (rng <<< 13)
  let b := a ^^^ (a >>> 7)
  b ^^^ (b <<< 17)

def resetDeadline (m : Mesh) (now : Nat) : Mesh :=
  let rng := nextRng m.rng
  -- Somewhere between the two bounds, so that not all campaign at once.
  let span := m.timing.electionMaxMs - m.timing.electionMinMs + 1
  { m with rng := rng, deadline := now + m.timing.electionMinMs + rng.toNat % span }

/-- `Mesh::new`. The generator must not start at zero. -/
def new (name : Name) (routes : List Route) (timing : Timing) (hard : Hard) (now : Nat)
    (seed : UInt64) : Mesh :=
  resetDeadline {
    name := name
    routes := routes
    timing := timing
    hard := hard
    hardDirty := false
    role := .follower
    leader := none
    leaderRoute := none
    lastLeaderContact := none
    leaderSince := 0
    deadline := 0
    rng := seed ||| 1
    votes := ∅
    campaignTerm := 0
    seen := ∅
    heard := ∅
    lagging := ∅
    pushed := ∅
    learner := false } now

/-- This node only follows: it never campaigns and never votes. -/
def asLearner (m : Mesh) : Mesh := { m with learner := true }

def term (m : Mesh) : Nat := m.hard.term

def isLeader (m : Mesh) : Bool := m.role = .leader

/-- Members needed to win, this node included. -/
def quorum (m : Mesh) : Nat := (m.routes.length + 1) / 2 + 1

/-- `Some` once after every change to `Hard`. -/
def takeDirty (m : Mesh) : Option Hard × Mesh :=
  (if m.hardDirty then some m.hard else none, { m with hardDirty := false })

def status (m : Mesh) (head : Nat) (account : String) : Status where
  name := m.name
  account := account
  term := m.hard.term
  role := m.role
  leader := m.leader
  head := head
  headTerm := m.hard.headTerm

/-- This node just appended a block, in its current term. -/
def appended (m : Mesh) : Mesh :=
  if m.hard.headTerm ≠ m.hard.term then
    { m with hard := { m.hard with headTerm := m.hard.term }, hardDirty := true }
  else m

def becomeLeader (m : Mesh) (now : Nat) : Mesh :=
  { m with
    -- What another leadership saw of the peers is not this one's.
    lagging := ∅
    pushed := ∅
    role := .leader
    leader := some m.name
    leaderRoute := none
    leaderSince := now
    lastLeaderContact := none
    votes := ∅ }

def stepDown (m : Mesh) (now : Nat) : Mesh :=
  resetDeadline { m with
    role := .follower
    leader := none
    leaderRoute := none
    votes := ∅ } now

def adoptTerm (m : Mesh) (term now : Nat) : Mesh :=
  -- A new term has a new vote.
  let m := if term > m.hard.term then
    { m with hard := { m.hard with term := term, votedFor := none }, hardDirty := true }
  else m
  m.stepDown now

def campaign (m : Mesh) (now head : Nat) : Option VoteRequest × Mesh :=
  let m := { m.resetDeadline now with leader := none, leaderRoute := none, votes := ∅ }
  if m.quorum = 1 then
    -- Alone: nobody to ask.
    let hard := { m.hard with term := m.hard.term + 1, votedFor := some m.name }
    (none, { m with hard := hard, hardDirty := true }.becomeLeader now)
  else
    -- First whether it would win: nothing of this is stored, and no term is used up.
    let m := { m with role := .preCandidate, campaignTerm := m.hard.term + 1 }
    (some ⟨m.campaignTerm, m.name, head, m.hard.headTerm, true⟩, m)

/-- The names this node has a status of, no older than an election window and no later than
its own term. -/
def fresh (m : Mesh) (now : Nat) : List Name :=
  ((m.seen.toList.map (·.2) ++ m.heard.toList.map (·.2)).filter fun (at_, st) =>
    now - at_ ≤ m.timing.electionMinMs && st.term ≤ m.hard.term).map (·.2.name)

/-- Advance the clock. Answers with a vote request to broadcast, if a campaign just began. -/
def tick (m : Mesh) (now head : Nat) : Option VoteRequest × Mesh :=
  if m.role = .leader then
    -- Check-quorum: a leader that cannot reach a majority stops claiming to lead.
    if m.quorum > 1 ∧ now ≥ m.leaderSince + m.timing.electionMinMs ∧
        (m.fresh now).toFinset.card + 1 < m.quorum then (none, m.stepDown now)
    else (none, m)
  else if m.learner ∨ now < m.deadline then (none, m)
  else m.campaign now head

/-- Lexicographic, as Rust compares the pairs. -/
def upToDate (m : Mesh) (headTerm head myHead : Nat) : Bool :=
  m.hard.headTerm < headTerm || (m.hard.headTerm = headTerm && myHead ≤ head)

/-- What a peer's status means, however it arrived. -/
def observe (m : Mesh) (route : Option Route) (st : Status) (now : Nat) : Mesh :=
  let m := if st.term > m.hard.term then m.adoptTerm st.term now else m
  if st.role = .leader ∧ st.term = m.hard.term ∧ m.role ≠ .leader then
    resetDeadline { m with
      role := .follower
      votes := ∅
      -- A route is not traded for none.
      leaderRoute := if m.leader ≠ some st.name ∨ route.isSome then route else m.leaderRoute
      leader := some st.name
      lastLeaderContact := some now } now
  else if m.leader = some st.name ∧ st.role ≠ .leader then
    -- Our leader stepped down.
    { m with leader := none, leaderRoute := none }
  -- A learner is in nobody's list, and hears of the leader from those who are.
  else if m.learner ∧ m.leader = none ∧ st.term = m.hard.term ∧ st.role = .follower then
    { m with leader := st.leader }
  else m

/-- A peer's status answered on `route`. Our own route is dropped from the list. -/
def onStatus (m : Mesh) (route : Route) (st : Status) (now : Nat) : Mesh :=
  if st.name = m.name then { m with routes := m.routes.filter (· ≠ route) }
  else { m with seen := m.seen.insert route (now, st) }.observe (some route) st now

/-- A peer told us its status by calling us. -/
def onInbound (m : Mesh) (st : Status) (now : Nat) : Mesh :=
  if st.name = m.name then m
  else
    let m := { m with heard := m.heard.insert st.name (now, st) }
    -- If it answered before, the route it answered on is known.
    match (m.seen.toList.find? fun (_, _, s) => s.name = st.name).map (·.1) with
    | some r => { m with seen := m.seen.insert r (now, st) }.observe (some r) st now
    | none => m.observe none st now

/-- Whether to take blocks pushed by the node whose status is `st`. -/
def acceptsPushFrom (m : Mesh) (st : Status) : Bool :=
  m.role ≠ .leader && st.role = .leader && st.term = m.hard.term && m.leader = some st.name

/-- One peer's turn in `pushTargets`. -/
def pushTarget (m : Mesh) (now head : Nat) (acc : Std.TreeMap Route (Nat × Nat) × List Route)
    (peer : Route × Nat × Status) : Std.TreeMap Route (Nat × Nat) × List Route :=
  let (lagging, out) := acc
  let (route, at_, st) := peer
  let window := m.timing.electionMinMs
  if now - at_ > window ∨ st.head = head then (lagging.erase route, out)
  else
    -- Its clock starts again whenever its head moves.
    let e := (lagging[route]?).getD (st.head, now)
    let e := if e.1 ≠ st.head then (st.head, now) else e
    let lagging := lagging.insert route e
    if route ∈ m.pushed ∨ now - e.2 ≥ window then (lagging, out ++ [route]) else (lagging, out)

/-- Leader only: the routes to push blocks to. -/
def pushTargets (m : Mesh) (now head : Nat) : List Route × Mesh :=
  if m.role ≠ .leader then ([], { m with lagging := ∅, pushed := ∅ })
  else
    let (lagging, out) := m.seen.toList.foldl (m.pushTarget now head) (m.lagging, [])
    (out, { m with lagging := lagging, pushed := m.pushed ∪ out.toFinset })

/-- Where to pull blocks from, best first. -/
def pullSources (m : Mesh) (now : Nat) : List Route :=
  if !m.learner then m.leaderRoute.toList
  else
    -- The leader before the others, and of those who is further on.
    let out : List (Bool × Nat × Route) := (m.seen.toList.filter fun (_, at_, st) =>
      now - at_ ≤ m.timing.electionMinMs && st.term = m.hard.term && st.leader.isSome).map
        fun (r, _, st) => (decide (st.role = .leader), st.head, r)
    (out.mergeSort fun a b => (a.1 && !b.1) || (a.1 == b.1 && b.2.1 ≤ a.2.1)).map (·.2.2)

/-- Whether the vote of this term is still free for `candidate`. -/
def free (m : Mesh) (candidate : Name) : Bool :=
  match m.hard.votedFor with
  | none => true
  | some c => c = candidate

def castVote (m : Mesh) (candidate : Name) (now : Nat) : Mesh :=
  (if m.hard.votedFor ≠ some candidate then
    { m with hard := { m.hard with votedFor := some candidate }, hardDirty := true }
  else m).resetDeadline now

/-- Answer a vote request. `head` is this node's own. -/
def onVoteRequest (m : Mesh) (req : VoteRequest) (now head : Nat) : VoteReply × Mesh :=
  let deny (m : Mesh) : VoteReply × Mesh := (⟨m.hard.term, false⟩, m)
  if m.learner then deny m
  else
    -- Never help depose a leader we can still hear.
    let leaderAlive := m.role = .leader ∨
      (m.lastLeaderContact.any (fun t => now < t + m.timing.electionMinMs) ∧ m.leader.isSome)
    if leaderAlive ∨ req.candidate = m.name then deny m
    else if req.pre then
      -- A pre-vote is an opinion: nothing changes by it.
      (⟨m.hard.term, req.term > m.hard.term && m.upToDate req.headTerm req.head head⟩, m)
    else if req.term < m.hard.term then deny m
    else
      let m := if req.term > m.hard.term then m.adoptTerm req.term now else m
      let granted := m.free req.candidate && m.upToDate req.headTerm req.head head
      let m := if granted then m.castVote req.candidate now else m
      (⟨m.hard.term, granted⟩, m)

/-- A reply to a request this node sent. Answers with the real request to broadcast if a
pre-vote just succeeded. -/
def onVoteReply (m : Mesh) (route : Route) (req : VoteRequest) (reply : VoteReply)
    (now head : Nat) : Option VoteRequest × Mesh :=
  if reply.term > m.hard.term then (none, m.adoptTerm reply.term now)
  else if !reply.granted then (none, m)
  else if req.pre then
    -- An answer to a campaign that is over does not count.
    if m.role ≠ .preCandidate ∨ req.term ≠ m.campaignTerm then (none, m)
    else
      let m := { m with votes := insert route m.votes }
      if m.votes.card + 1 ≥ m.quorum then
        -- Now in earnest: a new term, and its own vote.
        let hard := { m.hard with term := m.campaignTerm, votedFor := some m.name }
        let m := { m with hard := hard, hardDirty := true, role := .candidate, votes := ∅ }
        (some ⟨m.hard.term, m.name, head, m.hard.headTerm, false⟩, m.resetDeadline now)
      else (none, m)
  else if m.role = .candidate ∧ req.term = m.hard.term then
    let m := { m with votes := insert route m.votes }
    if m.votes.card + 1 ≥ m.quorum then (none, m.becomeLeader now) else (none, m)
  else (none, m)

end Mesh

end AkumaMiot

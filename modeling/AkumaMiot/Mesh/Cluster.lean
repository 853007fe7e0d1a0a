import AkumaMiot.Mesh.Mesh
import AkumaMiot.Lib.Machine
import Mathlib.Logic.Function.Basic

/-!
# A cluster of meshes on a network that may do anything

A node's messages wait in its outbox until its hard state is on disk. Once sent they stay in
the air for ever: a message delivered again is a duplicate, one delivered late is a delay,
and one never delivered is lost. A restart comes back with the hard state last persisted.
-/
namespace AkumaMiot

/-- Who votes, and how each node reaches its peers. Nodes are told apart by name. -/
structure Network where
  voters : Finset Name
  routes : Name → List Route
  peer : Name → Route → Option Name
  timing : Name → Timing

/-- Each voter's routes map one-to-one onto the other voters; it may hold others. -/
structure Network.WellFormed (net : Network) : Prop where
  oneToOne : ∀ n ∈ net.voters, ∀ v ∈ net.voters, v ≠ n → ∀ r ∈ net.routes n, ∀ r' ∈ net.routes n,
    net.peer n r = some v → net.peer n r' = some v → r = r'
  onto : ∀ n ∈ net.voters, ∀ v ∈ net.voters, v ≠ n → ∃ r ∈ net.routes n, net.peer n r = some v

inductive Packet
  | status (st : Status)
  | request (req : VoteRequest)
  | reply (voter : Name) (req : VoteRequest) (reply : VoteReply)
deriving DecidableEq, Repr

structure Cluster where
  mesh : Name → Mesh
  persisted : Name → Hard
  outbox : Name → List Packet
  sent : List Packet

namespace Cluster

/-- A node starting from the hard state on its disk. -/
def boot (net : Network) (n : Name) (hard : Hard) (now : Nat) (seed : UInt64) : Mesh :=
  let m := Mesh.new n (net.routes n) (net.timing n) hard now seed
  if n ∈ net.voters then m else m.asLearner

/-- Every node just started, with nothing in the air. -/
def start (net : Network) (hard : Name → Hard) (now : Name → Nat) (seed : Name → UInt64) :
    Cluster where
  mesh := fun n => boot net n (hard n) (now n) (seed n)
  persisted := hard
  outbox := fun _ => []
  sent := []

/-- Node `n` handled something: its new state, and what it wants to say. -/
def act (c : Cluster) (n : Name) (m : Mesh) (out : List Packet) : Cluster :=
  { c with
    mesh := Function.update c.mesh n m
    outbox := Function.update c.outbox n (c.outbox n ++ out) }

/-- Everything that can happen. The clocks and the heads are whatever the nodes say. -/
inductive Event
  | tick (n : Name) (now head : Nat)
  | appended (n : Name)
  | pushTargets (n : Name) (now head : Nat)
  /-- `n` prepares a status, for a poll of its own or as the answer to one. -/
  | say (n : Name) (head : Nat) (account : String)
  /-- A status comes back on a route that `n` polled. -/
  | polled (n : Name) (route : Route) (st : Status) (now : Nat)
  /-- A status arrives at `n` uninvited. -/
  | inbound (n : Name) (st : Status) (now : Nat)
  | requested (n : Name) (req : VoteRequest) (now head : Nat)
  /-- The reply to a request of `n` comes back on the route it was sent on. -/
  | replied (n : Name) (route : Route) (voter : Name) (req : VoteRequest) (reply : VoteReply)
      (now head : Nat)
  | persist (n : Name)
  | leave (n : Name) (p : Packet)
  | restart (n : Name) (now : Nat) (seed : UInt64)

/-- One event. An event that cannot happen leaves everything as it is. -/
def step (net : Network) (c : Cluster) : Event → Cluster
  | .tick n now head =>
    let (out, m) := (c.mesh n).tick now head
    c.act n m (out.toList.map .request)
  | .appended n => c.act n (c.mesh n).appended []
  | .pushTargets n now head => c.act n ((c.mesh n).pushTargets now head).2 []
  | .say n head account => c.act n (c.mesh n) [.status ((c.mesh n).status head account)]
  | .polled n route st now =>
    if .status st ∈ c.sent ∧ route ∈ net.routes n ∧ net.peer n route = some st.name then
      c.act n ((c.mesh n).onStatus route st now) []
    else c
  | .inbound n st now =>
    if .status st ∈ c.sent then c.act n ((c.mesh n).onInbound st now) [] else c
  | .requested n req now head =>
    if .request req ∈ c.sent then
      let (reply, m) := (c.mesh n).onVoteRequest req now head
      c.act n m [.reply n req reply]
    else c
  | .replied n route voter req reply now head =>
    if .reply voter req reply ∈ c.sent ∧ route ∈ net.routes n ∧ net.peer n route = some voter ∧
        req.candidate = n then
      let (out, m) := (c.mesh n).onVoteReply route req reply now head
      c.act n m (out.toList.map .request)
    else c
  | .persist n =>
    let (dirty, m) := (c.mesh n).takeDirty
    { c with
      mesh := Function.update c.mesh n m
      persisted := Function.update c.persisted n (dirty.getD (c.persisted n)) }
  | .leave n p =>
    if p ∈ c.outbox n ∧ (c.mesh n).hardDirty = false then
      { c with
        outbox := Function.update c.outbox n ((c.outbox n).erase p)
        sent := p :: c.sent }
    else c
  | .restart n now seed =>
    { c with
      mesh := Function.update c.mesh n (boot net n (c.persisted n) now seed)
      outbox := Function.update c.outbox n [] }

end Cluster

end AkumaMiot

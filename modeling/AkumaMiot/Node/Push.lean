import AkumaMiot.Node.Pull

/-!
# Pushing

A primary that sees a peer's head stuck brings the peer's log to its own from its side: it
asks for the peer's head, compares logs once in its term, and sends what is to be done. Any
request and any reply may be lost.
-/
namespace AkumaMiot

/-- What a primary tells a peer to do. A checkpoint's state is missing when its hex is bad. -/
inductive PushOp (B : Type)
  /-- Adopt this checkpoint: ours is past yours. -/
  | checkpoint (height : Nat) (state : Option B)
  /-- Drop your log above `fork`, back to your last compaction at or below it. -/
  | rewind (fork : Nat)
  /-- Append these, from your head on. -/
  | blocks (rows : List (BlockRow B))
deriving DecidableEq, Repr

/-- Why a push was refused. -/
inductive PushRefusal
  | notFollowing (sender : Name) (term : Nat)
  | badCheckpointHex
  | adoptCheckpoint (e : StoreError)
  | rewind (e : StoreError)
  | badHex (height : Nat)
  | corruptBody (height : Nat)
  | append (height : Nat) (e : StoreError)
deriving DecidableEq, Repr

structure PushReply where
  accepted : Bool
  head : Nat
  lastCheckpoint : Nat
  why : Option PushRefusal
deriving DecidableEq, Repr

/-- Whether the database takes what a push writes. -/
structure PushCommits where
  append : Nat → Bool := fun _ => true
  checkpoint : Bool := true
  rewind : Bool := true
  aux : Bool := true

/-- What a session does next, seen from under the primary's lock. -/
inductive PushStep (B : Type)
  | done
  | stateless
  | compare
  | send (op : PushOp B)
deriving DecidableEq, Repr

namespace Node

variable {A B H : Type}

/-! ## The receiving side -/

def pushReply (n : Node A B H) (why : Option PushRefusal) : PushReply :=
  ⟨why.isNone, n.store.head, n.store.lastCheckpoint, why⟩

section Receiving

variable [DecidableEq A]

/-- Rows onto the log, up to the first that is not the next block. -/
def pushRows (env : Env A B H) (commits : Nat → Bool) (n : Node A B H) :
    List (BlockRow B) → Option (Option PushRefusal × Node A B H)
  | [] => some (none, n)
  | row :: rows =>
    let head := n.store.head
    if row.height ≤ head then pushRows env commits n rows -- a pull got there first
    else if row.height ≠ u64Succ head then some (none, n)
    else match row.body with
    | none => some (some (.badHex row.height), n)
    | some body =>
      match env.openBody body with
      | none => some (some (.corruptBody row.height), n)
      | some (effects, at_) =>
        match n.store.append (commits row.height) row.height body with
        | (.error e, _) => some (some (.append row.height e), n)
        | (.ok _, store) => do
          let n ← { n with store := store }.applyBlock env row.height effects at_
          pushRows env commits { n with mesh := n.mesh.appended } rows

/-- What a push does to a node that follows its sender. -/
def takePush (n : Node A B H) (env : Env A B H) (commits : PushCommits) :
    PushOp B → Option (PushReply × Node A B H)
  | .checkpoint height state =>
    if height > n.store.lastCheckpoint then
      match state with
      | none => some (n.pushReply (some .badCheckpointHex), n)
      | some state =>
        match n.store.adoptCheckpoint commits.checkpoint height state with
        | (.error e, _) => some (n.pushReply (some (.adoptCheckpoint e)), n)
        | (.ok _, store) => do
          let n ← { n with store := store }.reloadFromStore env
          let n := { n with mesh := n.mesh.appended }.saveHard env commits.aux
          return (n.pushReply none, n)
    else some (n.pushReply none, n)
  | .rewind fork =>
    if fork < n.store.head then
      match n.store.rewindForFork commits.rewind fork with
      | (.error e, _) => some (n.pushReply (some (.rewind e)), n)
      | (.ok _, store) => do
        let n ← { n with store := store }.reloadFromStore env
        return (n.pushReply none, n)
    else some (n.pushReply none, n)
  | .blocks rows => do
    let (why, n) ← n.pushRows env commits.append rows
    match why with
    | some why => return (n.pushReply (some why), n)
    | none =>
      let n := n.saveHard env commits.aux
      return (n.pushReply none, n)

/-- The sender's status, as if it had called. -/
def hear (n : Node A B H) (env : Env A B H) (leader : Status) (now : Nat) (commits : Bool) :
    Option (Node A B H) :=
  { n with mesh := n.mesh.onInbound leader now }.followMesh env now commits

/-- The receiving side of a push whose signature holds. -/
def chainPush (n : Node A B H) (env : Env A B H) (leader : Status) (now : Nat)
    (commits : PushCommits) (op : PushOp B) : Option (PushReply × Node A B H) := do
  let n ← n.hear env leader now commits.aux
  if n.producing || !n.mesh.acceptsPushFrom leader then
    return (n.pushReply (some (.notFollowing leader.name leader.term)), n)
  else n.takePush env commits op

end Receiving

/-! ## The sending side -/

/-- What to tell a peer that is at `theirs`. -/
def pushNext (n : Node A B H) (fuel : Nat) (route : Route) (theirs : ChainHead) :
    Option (PushStep B) :=
  if !n.producing then some .done
  else
    let myCp := n.store.lastCheckpoint
    let myHead := n.store.head
    if theirs.lastCheckpoint > myCp then
      -- They compacted where we never did.
      some (.send (.rewind (theirs.lastCheckpoint - 1)))
    else if theirs.lastCheckpoint < myCp then
      match n.store.checkpointState with
      | none => some .stateless
      | some state => some (.send (.checkpoint myCp (some state)))
    else if (route, n.mesh.term) ∉ n.pushReconciled then some .compare
    else if theirs.head < myHead then
      (n.store.rowsFrom fuel syncPage (u64Succ theirs.head)).map fun rows => .send (.blocks rows)
    else some .done

/-- Logs were compared with this peer, in this term. -/
def markReconciled (n : Node A B H) (route : Route) : Node A B H :=
  { n with pushReconciled := insert (route, n.mesh.term) n.pushReconciled }

/-- The last height the peer's log agrees with ours, read page by page. A page that is not
answered is an empty one. -/
def forkAgainst [DecidableEq B] (ours theirs : Store B B) (pages : Nat) (answered : Nat → Bool)
    (theirHead : Nat) : (fuel fork start : Nat) → Option Nat
  | 0, _, _ => none
  | fuel + 1, fork, start =>
    if start ≤ theirHead then do
      let rows ← if answered start then theirs.chainBlocks pages start syncPage else some []
      if rows = [] then return fork
      else
        let bodies := decodedBodies rows
        let agreed := ours.forkPoint start bodies
        let last := (start + bodies.length + (2 ^ 64 - 1)) % 2 ^ 64
        let start := (start + bodies.length) % 2 ^ 64
        if agreed < last ∨ bodies.length < rows.length then return agreed
        else forkAgainst ours theirs pages answered theirHead fuel agreed start
    else some fork

end Node

/-! ## A primary and a peer -/

/-- Why a session lasts no longer than this many rounds. -/
def pushRounds : Nat := 1000

/-- A session under way: where the peer said it is, and how many rounds are left. -/
structure PushSession where
  theirs : ChainHead
  left : Nat
deriving DecidableEq, Repr

/-- A primary, a peer, and the session between them. `ended` is how the session that has just
ended did. -/
structure Link (A B H : Type) where
  leader : Node A B H
  follower : Node A B H
  session : Option PushSession
  ended : Option Bool

/-- What becomes of one round's messages, and when the peer takes them. -/
structure PushFate where
  answered : Nat → Bool := fun _ => true
  request : Bool := true
  reply : Bool := true
  now : Nat := 0
  commits : PushCommits := {}

inductive LinkEvent (B : Type)
  /-- A session asks for the peer's head. -/
  | begin_ (answered : Bool)
  /-- One round of it. -/
  | round (fate : PushFate)
  /-- The primary closes a block. -/
  | close (at_ : Nat) (commits : Commits)
  /-- The peer hears anything else from the mesh. -/
  | hears (mesh : Mesh)
  /-- The peer's process ends and starts again on its store. -/
  | restart (mesh : Mesh)

namespace Link

variable {A B H : Type}

def fails (k : Link A B H) : Link A B H := { k with session := none, ended := some false }

def succeeds (k : Link A B H) : Link A B H := { k with session := none, ended := some true }

/-- The next round, if one is left. -/
def continues (k : Link A B H) (s : PushSession) (theirs : ChainHead) : Link A B H :=
  if s.left ≤ 1 then k.succeeds else { k with session := some ⟨theirs, s.left - 1⟩, ended := none }

section Running

variable [DecidableEq A]

/-- Send one operation, and wait for the reply. -/
def sends (k : Link A B H) (env : Env A B H) (account : String) (s : PushSession)
    (fate : PushFate) (op : PushOp B) : Option (Link A B H) :=
  if !fate.request then some k.fails
  else do
    let status := k.leader.mesh.status k.leader.store.head account
    let (reply, follower) ← k.follower.chainPush env status fate.now fate.commits op
    let k := { k with follower := follower }
    if !fate.reply then return k.fails
    else if !reply.accepted then return k.fails
    else return k.continues s ⟨reply.head, reply.lastCheckpoint⟩

variable [DecidableEq B]

/-- One round of `push_to`. -/
def round (k : Link A B H) (env : Env A B H) (fuel : Nat) (route : Route) (account : String)
    (s : PushSession) (fate : PushFate) : Option (Link A B H) := do
  match ← k.leader.pushNext fuel route s.theirs with
  | .done => return k.succeeds
  | .stateless => return k.fails
  | .send op => k.sends env account s fate op
  | .compare =>
    let fork ← Node.forkAgainst k.leader.store k.follower.store fuel fate.answered s.theirs.head
      fuel s.theirs.lastCheckpoint (u64Succ s.theirs.lastCheckpoint)
    let k := { k with leader := k.leader.markReconciled route }
    if fork ≥ s.theirs.head then return k.continues s s.theirs -- their log is a prefix of ours
    else k.sends env account s fate (.rewind fork)

/-- One event. A panic, or a loop that does not end, ends the run. -/
def step (env : Env A B H) (fuel : Nat) (route : Route) (account : String) (k : Link A B H) :
    LinkEvent B → Option (Link A B H)
  | .begin_ answered =>
    if k.session.isSome then some k
    else if answered then
      some { k with session := some ⟨k.follower.store.chainHead, pushRounds⟩, ended := none }
    else some k.fails
  | .round fate =>
    match k.session with
    | none => some k
    | some s => k.round env fuel route account s fate
  | .close at_ commits =>
    (k.leader.advance env at_ commits).map fun n => { k with leader := n, ended := none }
  | .hears mesh => some { k with follower := { k.follower with mesh := mesh } }
  | .restart mesh =>
    (Node.open_ env k.follower.store mesh).map fun n => { k with follower := n }

def next (env : Env A B H) (fuel : Nat) (route : Route) (account : String)
    (k : Option (Link A B H)) (e : LinkEvent B) : Option (Link A B H) :=
  k.bind fun k => k.step env fuel route account e

end Running

end Link

end AkumaMiot

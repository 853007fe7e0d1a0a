import AkumaMiot.Node.Node

/-!
# Pulling

A replica asks its primary for its head, its checkpoint and its blocks, page by page. The
answers come from the primary's store. A loop that the source leaves unbounded counts fuel
here; `none` is a loop that has not ended yet, or a panic.
-/
namespace AkumaMiot

/-- One block as a peer serves it. A body is missing when its hex does not decode. -/
structure BlockRow (B : Type) where
  height : Nat
  body : Option B
deriving DecidableEq, Repr

structure ChainHead where
  head : Nat
  lastCheckpoint : Nat
deriving DecidableEq, Repr

/-- A page is bounded, so that one catch-up request cannot come back as one huge response. -/
def syncPage : Nat := 256

/-- The bodies of a page, up to the first whose hex is bad. -/
def decodedBodies {B : Type} : List (BlockRow B) → List B
  | ⟨_, some body⟩ :: rows => body :: decodedBodies rows
  | _ => []

/-! ## What a store answers -/

namespace Store

variable {β σ : Type}

def chainHead (s : Store β σ) : ChainHead := ⟨s.head, s.lastCheckpoint⟩

def chainCheckpoint (s : Store β σ) : Option (Nat × σ) :=
  s.checkpointState.map (s.lastCheckpoint, ·)

/-- `while h <= head && rows.len() < limit`, with `room` rows left below the limit. -/
def rowsFrom (s : Store β σ) (fuel room h : Nat) : Option (List (BlockRow β)) :=
  match fuel with
  | 0 => none
  | fuel + 1 =>
    if h ≤ s.head ∧ 0 < room then
      match s.block h with
      | some body => (rowsFrom s fuel (room - 1) (u64Succ h)).map (⟨h, some body⟩ :: ·)
      | none => rowsFrom s fuel room (u64Succ h)
    else some []

def chainBlocks (s : Store β σ) (fuel start limit : Nat) : Option (List (BlockRow β)) :=
  s.rowsFrom fuel (min limit syncPage) start

/-- The blocks a replica compares its own with, from `start` up to at least `myHead`. -/
def theirBlocks (s : Store β σ) (pages myHead : Nat) : (fuel start : Nat) → Option (List β)
  | 0, _ => none
  | fuel + 1, start =>
    if start ≤ myHead then do
      let rows ← s.chainBlocks pages start syncPage
      if rows = [] then return []
      else
        let rest ← theirBlocks s pages myHead fuel ((start + rows.length) % 2 ^ 64)
        return decodedBodies rows ++ rest
    else some []

end Store

namespace Node

variable {A B H : Type}

/-! ## Under the lock -/

section Executing

variable [DecidableEq A]

/-- The role or the primary may have changed while an answer was under way. -/
def followsNot (n : Node A B H) (peer : Route) : Bool := n.producing || n.peer ≠ some peer

/-- A page's rows onto the log, until one cannot go there. -/
def syncRows (env : Env A B H) (commits : Bool) (n : Node A B H) :
    List (BlockRow B) → Option (Bool × Node A B H)
  | [] => some (true, n)
  | row :: rows =>
    if row.height ≤ n.store.head then syncRows env commits n rows -- a push got there first
    else match row.body with
    | none => some (false, n)
    | some body =>
      match n.store.append commits row.height body with
      | (.error _, _) => some (false, n)
      | (.ok _, store) => do
        let (effects, at_) ← env.openBody body
        let n ← { n with store := store }.applyBlock env row.height effects at_
        syncRows env commits { n with mesh := n.mesh.appended } rows

/-- A page that was fetched. Answers whether to ask for the next one. -/
def takePage (n : Node A B H) (env : Env A B H) (commits : Commits) (peer : Route)
    (rows : List (BlockRow B)) : Option (Bool × Node A B H) :=
  if n.followsNot peer then some (false, n)
  else do
    let (goes, n) ← n.syncRows env commits.append rows
    return if goes then (true, n.saveHard env commits.aux) else (false, n)

/-- A checkpoint that was fetched. Answers whether it was adopted. -/
def takeCheckpoint (n : Node A B H) (env : Env A B H) (commits : Commits) (peer : Route)
    (answer : Option (Nat × B)) : Option (Bool × Node A B H) :=
  match answer with
  | none => some (false, n)
  | some (height, state) =>
    if n.followsNot peer then some (false, n)
    else match n.store.adoptCheckpoint commits.append height state with
    | (.error _, _) => none
    | (.ok _, store) => do
      let n ← { n with store := store }.reloadFromStore env
      return (true, { n with mesh := n.mesh.appended }.saveHard env commits.aux)

/-- Leader wins, back to the last compaction at or below `fork`. -/
def rewind (n : Node A B H) (env : Env A B H) (commits : Bool) (peer : Route) (fork : Nat) :
    Option (Node A B H) :=
  if n.followsNot peer then some n
  else match n.store.rewindForFork commits fork with
  | (.error _, _) => none
  | (.ok _, store) => { n with store := store }.reloadFromStore env

/-! ## Whole rounds

Here the database takes every commit and nothing else touches the replica, so that the parts
above follow each other. `primary` is the store that answers; none when it cannot be asked. -/

variable [DecidableEq B]

/-- If the primary has compacted past us, adopt its checkpoint. -/
def adoptPeerCheckpointIfAhead (n : Node A B H) (env : Env A B H) (peer : Route)
    (primary : Store B B) (peerCp : Nat) : Option (Bool × Node A B H) :=
  if peerCp ≤ n.store.lastCheckpoint then some (false, n)
  else n.takeCheckpoint env {} peer primary.chainCheckpoint

/-- Compare our whole range against the primary's. False if it could not be asked. -/
def reconcileIfDiverged (n : Node A B H) (env : Env A B H) (fuel : Nat) (peer : Route)
    (primary : Option (Store B B)) : Option (Bool × Node A B H) :=
  match primary with
  | none => some (false, n)
  | some primary =>
    let myHead := n.store.head
    let myCp := n.store.lastCheckpoint
    let ph := primary.chainHead
    if ph.lastCheckpoint < myCp then
      -- We compacted where the primary never did; nothing of ours can be checked against it.
      (n.rewind env true peer (myCp - 1)).map (true, ·)
    else do
      let (adopted, n) ← n.adoptPeerCheckpointIfAhead env peer primary ph.lastCheckpoint
      if adopted then return (true, n)
      else if myHead = myCp then return (true, n)
      else
        let theirs ← primary.theirBlocks fuel myHead fuel (u64Succ myCp)
        let fork := n.store.forkPoint (u64Succ myCp) theirs
        if fork < myHead then (n.rewind env true peer fork).map (true, ·) else return (true, n)

/-- Ask for pages until the primary's head is reached, or it has nothing to give. -/
def syncPages (env : Env A B H) (pages : Nat) (peer : Route) (primary : Store B B) (head : Nat) :
    (fuel : Nat) → (n : Node A B H) → Option (Node A B H)
  | 0, _ => none
  | fuel + 1, n =>
    let start := u64Succ n.store.head
    if start > head then some n
    else do
      let rows ← primary.chainBlocks pages start syncPage
      if rows = [] then return n
      else
        let (goes, n) ← n.takePage env {} peer rows
        if goes then syncPages env pages peer primary head fuel n else return n

/-- Fetch and fold whatever the primary has beyond our head. -/
def syncOnce (n : Node A B H) (env : Env A B H) (fuel : Nat) (peer : Route)
    (primary : Option (Store B B)) : Option (Node A B H) :=
  match primary with
  | none => some n
  | some primary => do
    let head := primary.chainHead
    let (_, n) ← n.adoptPeerCheckpointIfAhead env peer primary head.lastCheckpoint
    syncPages env fuel peer primary head.head fuel n

/-- One replica tick: reconcile first if the primary is new, then tail it. -/
def replicaRound (n : Node A B H) (env : Env A B H) (fuel : Nat) (primary : Option (Store B B)) :
    Option (Node A B H) :=
  if n.producing then some n
  else match n.peer with
  | none => some n
  | some peer =>
    if n.needsReconcile then do
      let (answered, n) ← n.reconcileIfDiverged env fuel peer primary
      if answered then
        let n := if n.peer = some peer then { n with needsReconcile := false } else n
        n.syncOnce env fuel peer primary
      else return n
    else n.syncOnce env fuel peer primary

end Executing

end Node

end AkumaMiot

import AkumaMiot.Lib.HashMap
import AkumaMiot.Litter.Pallet
import AkumaMiot.Mesh.Mesh
import AkumaMiot.Store.Store

/-!
# The node

Chain state in memory, the block log on disk, and the role the mesh gives. A primary executes
extrinsics and writes a block's effects as its body; everyone else folds bodies. A panic ends
the process, so a function that may panic answers `none`.
-/
namespace AkumaMiot

/-- A signed extrinsic, decoded. -/
structure UncheckedExtrinsic (A : Type) where
  signer : A
  nonce : Nat
  call : LitterCall A
deriving DecidableEq, Repr

/-- What a build of the node runs on: the runtime's constants, the bytes its codecs write and
read, and the checks of an extrinsic besides its nonce. -/
structure Env (A B H : Type) where
  rt : Runtime A
  root : A
  leader : A
  roster : List (String × A)
  /-- The signature, `CheckGenesis`, the version checks and `CheckMortality`. -/
  admits : Storage A → UncheckedExtrinsic A → Bool
  txHash : B → H
  decodeExtrinsic : B → Option (UncheckedExtrinsic A)
  sealBody : List (Effect A) → Nat → B
  openBody : B → Option (List (Effect A) × Option Nat)
  encodeSnapshot : Storage A → B
  decodeSnapshot : B → Option (Storage A)
  encodeHard : Hard → List UInt8
  openBody_sealBody : ∀ effects at_, openBody (sealBody effects at_) = some (effects, some at_)
  decodeSnapshot_encodeSnapshot : ∀ ext, decodeSnapshot (encodeSnapshot ext) = some ext

/-- Why an extrinsic is not even dispatched. -/
inductive InvalidTransaction
  | badProof | payment | stale | future
deriving DecidableEq, Repr

/-- One line of `/events`. -/
structure Entry (A : Type) where
  seq : Nat
  block : Nat
  effect : Effect A
  at_ : Option Nat
deriving DecidableEq, Repr

def logCap : Nat := 4096

inductive TxState
  | pending
  | applied (height : Nat)
  | sealed (height : Nat)
deriving DecidableEq, Repr

structure MempoolEntry (B : Type) where
  bytes : B
  insertedAt : Nat
  carried : Bool
deriving DecidableEq, Repr

def mempoolCap : Nat := 512
def txStatusCap : Nat := 1024

def auxMesh : String := "mesh"

/-- Whether the database takes each of the commits of one critical section. -/
structure Commits where
  append : Bool := true
  aux : Bool := true
  compact : Bool := true
deriving DecidableEq, Repr

structure Node (A B H : Type) where
  ext : Storage A
  log : List (Entry A)
  seq : Nat
  block : Nat
  store : Store B B
  /-- Effects absorbed since the open block began; its body when it closes. -/
  pending : List (Effect A)
  pendingCompaction : Bool
  mesh : Mesh
  producing : Bool
  peer : Option Route
  /-- A new primary was just adopted; compare logs before tailing it. -/
  needsReconcile : Bool
  followed : Option Name
  /-- Routes whose log was compared against ours, and in which term of ours. -/
  pushReconciled : Finset (Route × Nat)
  mempool : HashMap H (MempoolEntry B)
  mempoolOrder : List H
  txStatus : HashMap H TxState
  txStatusOrder : List H

/-! ## The runtime's entry points -/

namespace Storage

variable {A B H : Type} [DecidableEq A]

/-- `CheckNonce`: an account that no provider keeps alive cannot pay, and the nonce must be the
very next one. -/
def checkNonce (s : Storage A) (who : A) (nonce : Nat) :
    Except InvalidTransaction (Storage A) :=
  match s.account.lookup who with
  | none => .error .payment
  | some a =>
    if a.providers = 0 then .error .payment
    else if nonce < a.nonce then .error .stale
    else if nonce > a.nonce then .error .future
    else .ok { s with account := s.account.insert who { a with nonce := nonce + 1 } }

/-- `Executive::apply_extrinsic`. A refused dispatch still advances the nonce. -/
def applyExtrinsic (s : Storage A) (env : Env A B H) (uxt : UncheckedExtrinsic A) :
    Except InvalidTransaction (Except DispatchError Unit) × Storage A :=
  if !env.admits s uxt then (.error .badProof, s)
  else match s.checkNonce uxt.signer uxt.nonce with
  | .error e => (.error e, s)
  | .ok s =>
    match s.dispatch env.rt (.signed uxt.signer) uxt.call with
    | .ok s' => (.ok (.ok ()), s')
    | .error e => (.ok (.error e), s)

end Storage

namespace Env

variable {A B H : Type} [DecidableEq A]

/-- Genesis `members` plus root and leader. -/
def trustedAccounts (env : Env A B H) : List A :=
  let members := env.roster.map Prod.snd
  let v := if env.root ∈ members then members else members ++ [env.root]
  if env.leader ∈ v then v else v ++ [env.leader]

/-- A fresh chain with block 1 open, every trusted account alive. -/
def genesis (env : Env A B H) (replaying : Bool) : Storage A :=
  let ext := (Storage.genesis (some env.root) (some env.leader) env.roster).setReplaying replaying
  env.trustedAccounts.foldl Storage.incProviders (ext.initializeBlock env.rt)

end Env

namespace Node

variable {A B H : Type}

/-! ## The event log and the open block -/

/-- An off-the-record `Said`: told live, never written into a block. -/
def offRecord : Effect A → Bool
  | .said _ _ _ _ _ off => off
  | _ => false

def absorbOne (n : Node A B H) (e : Effect A) : Node A B H :=
  let entry : Entry A := ⟨n.seq + 1, n.block, e, none⟩
  let log := if n.log.length ≥ logCap then n.log.tail else n.log
  { n with
    seq := n.seq + 1
    log := log ++ [entry]
    pending := if offRecord e then n.pending else n.pending ++ [e] }

def absorb (n : Node A B H) (effects : List (Effect A)) : Node A B H := effects.foldl absorbOne n

/-- Give every log entry of one block its seal time. -/
def stampBlock (n : Node A B H) (height : Nat) (at_ : Option Nat) : Node A B H :=
  { n with log := n.log.map fun e => if e.block = height then { e with at_ := at_ } else e }

/-- Everything the pallet emitted since the last drain. -/
def drain (n : Node A B H) : List (Effect A) × Node A B H :=
  (n.ext.events, { n with ext := { n.ext with events := [] } })

def drainAbsorb (n : Node A B H) : Node A B H :=
  let (fx, n) := n.drain
  n.absorb fx

/-- Persist the election's state if it changed. -/
def saveHard (n : Node A B H) (env : Env A B H) (commits : Bool) : Node A B H :=
  let (hard, mesh) := n.mesh.takeDirty
  match hard with
  | some h => { n with mesh := mesh, store := (n.store.putAux commits auxMesh (env.encodeHard h)).2 }
  | none => { n with mesh := mesh }

/-- `Executive::initialize_block` of the header numbered `n.block`. The system asserts that the
number is the next one. -/
def initializeBlock (n : Node A B H) (env : Env A B H) : Option (Node A B H) :=
  if n.block = n.ext.blockNumber + 1 then some { n with ext := n.ext.initializeBlock env.rt }
  else none

/-! ## Transactions -/

section Transactions

variable [DecidableEq H]

/-- Record a hash's status, evicting the oldest tracked one at the cap. -/
def setTxStatus (n : Node A B H) (hash : H) (st : TxState) : Node A B H :=
  let n := if hash ∈ n.txStatus then n
    else if n.txStatusOrder.length ≥ txStatusCap then
      match n.txStatusOrder with
      | [] => { n with txStatusOrder := [hash] }
      | old :: rest =>
        { n with txStatus := n.txStatus.erase old, txStatusOrder := rest ++ [hash] }
    else { n with txStatusOrder := n.txStatusOrder ++ [hash] }
  { n with txStatus := n.txStatus.insert hash st }

/-- Queue an extrinsic this node could not hand to the primary. -/
def mempoolInsert (n : Node A B H) (hash : H) (bytes : B) (now : Nat) : Node A B H :=
  if hash ∈ n.mempool then n
  else
    let n := if n.mempoolOrder.length ≥ mempoolCap then
      match n.mempoolOrder with
      | [] => n
      | old :: rest => { n with mempool := n.mempool.erase old, mempoolOrder := rest }
    else n
    { n with
      mempoolOrder := n.mempoolOrder ++ [hash]
      mempool := n.mempool.insert hash ⟨bytes, now, false⟩ }.setTxStatus
        hash .pending

def mempoolRemove (n : Node A B H) (hash : H) : Node A B H :=
  { n with mempool := n.mempool.erase hash }

end Transactions

/-! ## Producing -/

/-- Write the open block's effects as `height`'s body, and forget them. -/
def persist (n : Node A B H) (env : Env A B H) (height at_ : Nat) (commits : Commits) :
    Node A B H :=
  let body := env.sealBody n.pending at_
  let n := n.stampBlock height (some at_)
  let n := match n.store.append commits.append height body with
    | (.ok _, store) => { n with store := store, mesh := n.mesh.appended }.saveHard env commits.aux
    | (.error _, _) => n
  { n with pending := [] }

/-- What closing a block does to a status: applied at that height becomes sealed. -/
def sealStatus (closing : Nat) : TxState → TxState
  | .applied height => if height = closing then .sealed height else .applied height
  | st => st

/-- Snapshot state as of the block just closed, and shrink the log. -/
def compactAt (n : Node A B H) (env : Env A B H) (height : Nat) (commits : Bool) : Node A B H :=
  { n with store := (n.store.compact commits height (env.encodeSnapshot n.ext)).2 }

/-- Close the open block and open the next. -/
def advance (n : Node A B H) (env : Env A B H) (at_ : Nat) (commits : Commits) :
    Option (Node A B H) :=
  let closing := n.block
  let n := n.persist env closing at_ commits
  let n := { n with txStatus := n.txStatus.mapValues (sealStatus closing) }
  let n := if n.pendingCompaction then
    { n.compactAt env closing commits.compact with pendingCompaction := false } else n
  ({ n with block := n.block + 1 }.initializeBlock env).map drainAbsorb

/-! ## Folding -/

/-- Discard what opening a block emitted. -/
def drainDiscard (n : Node A B H) : Node A B H := n.drain.2

section Executing

variable [DecidableEq A]

/-- Fold one already-decided block into state, and open the next. -/
def applyBlock (n : Node A B H) (env : Env A B H) (height : Nat) (effects : List (Effect A))
    (at_ : Option Nat) : Option (Node A B H) :=
  let now := n.ext.now
  let n := { n with ext := effects.foldl (fun s e => s.replayEffect env.rt e now) n.ext }
  let n := (n.absorb effects).stampBlock height at_
  ({ n with pending := [], block := height + 1 }.initializeBlock env).map drainDiscard

/-- Restore state from a checkpoint, and open the block after it. -/
def restoreFromSnapshot (n : Node A B H) (env : Env A B H) (height : Nat) (blob : B) :
    Option (Node A B H) := do
  let ext ← env.decodeSnapshot blob
  -- The snapshot carries its producer's `Replaying`; this node's own role decides.
  let n := { n with
    ext := ext.setReplaying (!n.producing)
    log := []
    seq := 0
    pending := []
    block := height + 1 }
  return (← n.initializeBlock env).drainDiscard

/-- Fold the stored blocks at `heights`, in order. -/
def replayBlocks (env : Env A B H) : Node A B H → List Nat → Option (Node A B H)
  | n, [] => some n
  | n, h :: hs => do
    let body ← n.store.block h
    let (effects, at_) ← env.openBody body
    let n ← { n with block := h }.applyBlock env h effects at_
    replayBlocks env n hs

/-- Rebuild state from the store: the checkpoint if there is one, then every block above. -/
def replay (n : Node A B H) (env : Env A B H) : Option (Node A B H) := do
  let head := n.store.head
  let cp := n.store.lastCheckpoint
  let n ← if cp > 0 then (do
      let blob ← n.store.checkpointState
      n.restoreFromSnapshot env cp blob)
    else some n
  replayBlocks env n (Store.heights (cp + 1) head)

/-- Throw away state in memory and rebuild it from the store alone. -/
def reloadFromStore (n : Node A B H) (env : Env A B H) : Option (Node A B H) :=
  { n with
    ext := env.genesis (!n.producing)
    block := 1
    log := []
    seq := 0
    pending := []
    pendingCompaction := false }.replay env

/-- A process just started on a store: at genesis, following nobody yet. -/
def started (env : Env A B H) (store : Store B B) (mesh : Mesh) : Node A B H where
  ext := env.genesis true
  log := []
  seq := 0
  block := 1
  store := store
  pending := []
  pendingCompaction := false
  mesh := mesh
  producing := false
  peer := none
  needsReconcile := false
  followed := none
  pushReconciled := ∅
  mempool := ∅
  mempoolOrder := []
  txStatus := ∅
  txStatusOrder := []

/-- `Node::open`, on what a store holds. -/
def open_ (env : Env A B H) (store : Store B B) (mesh : Mesh) : Option (Node A B H) :=
  (started env store mesh).replay env

/-! ## Executing -/

/-- The calls after which the log is to be shrunk. -/
def wantsCompaction : LitterCall A → Bool
  | .clearAll | .requestCompaction => true
  | _ => false

/-- Check and dispatch one signed extrinsic into the open block; answers whether it was
dispatched without a refusal. -/
def submit (n : Node A B H) (env : Env A B H) (uxt : UncheckedExtrinsic A) :
    Bool × Node A B H :=
  let (r, ext) := n.ext.applyExtrinsic env uxt
  let n := { n with ext := ext }.drainAbsorb
  match r with
  | .ok (.ok ()) =>
    (true, { n with pendingCompaction := n.pendingCompaction || wantsCompaction uxt.call })
  | _ => (false, n)

section Accepting

variable [DecidableEq H]

/-- `accept_extrinsic` on the primary, its last critical section: the role is read again. -/
def acceptHere (n : Node A B H) (env : Env A B H) (bytes : B) : Node A B H :=
  match env.decodeExtrinsic bytes with
  | none => n
  | some uxt =>
    if !n.producing then n
    else
      let height := n.block
      match n.submit env uxt with
      | (true, n) =>
        (n.mempoolRemove (env.txHash bytes)).setTxStatus (env.txHash bytes) (.applied height)
      | (false, n) => n

/-- `mempool_round` with the entry applied here. The role is not read again. -/
def mempoolHere (n : Node A B H) (env : Env A B H) (hash : H) (bytes : B) : Node A B H :=
  match env.decodeExtrinsic bytes with
  | none => n.mempoolRemove hash
  | some uxt =>
    let height := n.block
    match n.submit env uxt with
    | (true, n) => (n.setTxStatus hash (.applied height)).mempoolRemove hash
    | (false, n) => n.mempoolRemove hash

/-- `mempool_round` with a peer's answer about an entry. -/
def mempoolAnswered (n : Node A B H) (hash : H) (answer : TxState) : Node A B H :=
  match answer with
  | .sealed height => (n.setTxStatus hash (.sealed height)).mempoolRemove hash
  | .applied height => n.setTxStatus hash (.applied height)
  | .pending => n

end Accepting

/-! ## Changing role -/

/-- The first part of `follow_mesh`: take up block production, or give it up and forget the
open block. -/
def takeRole (n : Node A B H) (env : Env A B H) (lead : Bool) : Option (Node A B H) :=
  if lead && !n.producing then
    let n := { n with producing := true }
    some { n with ext := (n.ext.setReplaying false).tickNow env.rt }.drainAbsorb
  else if !lead && n.producing then
    { n with producing := false }.reloadFromStore env
  else some n

/-- Where to pull from next. A learner keeps the source it has while that is one. -/
def nextRoute (n : Node A B H) (now : Nat) : Option Route :=
  let sources := n.mesh.pullSources now
  match n.peer with
  | some p => if n.mesh.learner && p ∈ sources then some p else sources.head?
  | none => sources.head?

/-- The second part of `follow_mesh`: whom to pull from, and whether logs must be compared
first. -/
def takeRoute (n : Node A B H) (now : Nat) : Node A B H :=
  let route := n.nextRoute now
  let newLeader := n.mesh.learner && route.isSome && n.mesh.leader.isSome &&
    n.mesh.leader ≠ n.followed
  let n := if route ≠ n.peer ∨ newLeader then
    { n with peer := route, needsReconcile := n.needsReconcile || route.isSome } else n
  { n with followed := if n.mesh.isLeader then none else n.mesh.leader }

/-- Apply whatever the mesh last decided. -/
def followMesh (n : Node A B H) (env : Env A B H) (now : Nat) (commits : Bool) :
    Option (Node A B H) := do
  let n := n.saveHard env commits
  let n ← n.takeRole env n.mesh.isLeader
  return n.takeRoute now

end Executing

end Node

/-! ## Bytes left as what they stand for -/

/-- What the codecs write, before it is bytes. -/
inductive Plain (A : Type)
  | extrinsic (uxt : UncheckedExtrinsic A)
  | body (effects : List (Effect A)) (at_ : Option Nat)
  | snapshot (ext : Storage A)
deriving DecidableEq

/-- A build whose bytes stand for themselves, where every signature verifies. -/
def Env.plain {A : Type} (rt : Runtime A) (root leader : A) (roster : List (String × A)) :
    Env A (Plain A) (Plain A) where
  rt := rt
  root := root
  leader := leader
  roster := roster
  admits := fun _ _ => true
  txHash := id
  decodeExtrinsic
    | .extrinsic uxt => some uxt
    | _ => none
  sealBody := fun effects at_ => .body effects (some at_)
  openBody
    | .body effects at_ => some (effects, at_)
    | _ => none
  encodeSnapshot := .snapshot
  decodeSnapshot
    | .snapshot ext => some ext
    | _ => none
  encodeHard := fun _ => []
  openBody_sealBody := fun _ _ => rfl
  decodeSnapshot_encodeSnapshot := fun _ => rfl

/-! ## A litter of one node -/

/-- The shipped constants; the litter's root is 0 and its leader 1. -/
def soloEnv : Env Nat (Plain Nat) (Plain Nat) :=
  .plain { verify := fun _ _ _ => false } 0 1 [("root", 0), ("lead", 1)]

/-- A node that follows nobody, and the same node elected. -/
def soloMesh : Mesh := .new "nami" [] {} {} 0 1

def soloMeshElected : Mesh := soloMesh.becomeLeader 0

def solo : Node Nat (Plain Nat) (Plain Nat) := .started soloEnv (.openDb Store.emptyDb) soloMesh

/-- Root's first extrinsic: a parent task. -/
def openTask : Plain Nat := .extrinsic ⟨0, 0, .openParent "build"⟩

end AkumaMiot

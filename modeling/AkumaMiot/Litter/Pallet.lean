import AkumaMiot.Tasks.Table
import Mathlib.Data.Finmap

/-!
# The litter pallet

The task table as chain storage, and what lives beside it: work stats, votes, comments,
patrons. A call recovers its signer, acts on storage and deposits what happened as events. A
node that folds somebody else's blocks replays those events instead.
-/
namespace AkumaMiot

/-- A FRAME `StorageMap`. -/
abbrev StorageMap (κ ν : Type) : Type := Finmap fun _ : κ => ν

structure CatStats where
  turns : Nat
  toolCalls : Nat
  tokens : Nat
  ms : Nat
deriving DecidableEq, Repr

/-- A request waiting for root or a patron. -/
structure PatronRequest (A : Type) where
  name : String
  note : String
  at_ : BlockNumber
  carrier : A
deriving DecidableEq, Repr

/-- An approved patron. -/
structure Patron (A : Type) where
  name : String
  note : String
  approvedBy : A
  at_ : BlockNumber
deriving DecidableEq, Repr

/-- An artifact's votes. -/
structure Tally (A : Type) where
  up : List A := []
  down : List A := []
deriving DecidableEq, Repr

/-- One comment on one artifact, stamped with the epoch it was made in. -/
structure Comment (A : Type) where
  who : A
  at_ : BlockNumber
  epoch : Nat
  body : String
deriving DecidableEq, Repr

/-- What `frame_system` keeps for an account, as far as this chain uses it. -/
structure AccountInfo where
  nonce : Nat := 0
  providers : Nat := 0
deriving DecidableEq, Repr

def maxPatronRequests : Nat := 16
def maxPatronName : Nat := 32
def maxPatronNote : Nat := 500
def commentKeep : Nat := 64

/-- What a patron request's signature is over, besides its fixed context: the chain, named by
its roster, and the request. -/
structure RequestMessage (A : Type) where
  domain : List (String × A)
  name : String
  note : String
deriving DecidableEq, Repr

abbrev Signature : Type := Vector UInt8 64

/-- What the runtime configures the pallet with. -/
structure Runtime (A : Type) where
  miotConfig : Config := {}
  gcKeepFor : BlockNumber := 14400
  /-- `T::PatronSignature::verify`. -/
  verify : A → RequestMessage A → Signature → Bool

/-- Chain state: the pallet's storage, and what it uses of `frame_system`'s. -/
structure Storage (A : Type) where
  litter : State A := {}
  replaying : Bool := false
  stats : StorageMap A CatStats := ∅
  messagesSent : StorageMap A Nat := ∅
  votes : StorageMap ArtifactId (Tally A) := ∅
  epoch : Nat := 0
  comments : StorageMap ArtifactId (List (Comment A)) := ∅
  roster : List (String × A) := []
  patronRequests : StorageMap A (PatronRequest A) := ∅
  patrons : StorageMap A (Patron A) := ∅
  blockNumber : Nat := 0
  account : StorageMap A AccountInfo := ∅
  events : List (Effect A) := []
deriving DecidableEq

/-- Who a call came from. -/
inductive Origin (A : Type)
  | root
  | signed (who : A)
  | none
deriving DecidableEq, Repr

/-- Why a call was refused: what the table refuses, what this pallet does, or the origin. -/
inductive DispatchError
  | badOrigin
  | task (e : Error)
  | badSignature | alreadyKnown | noSuchPatron | badName | tooManyRequests
deriving DecidableEq, Repr

/-- The pallet's calls. -/
inductive LitterCall (A : Type)
  | openParent (text : String)
  | plan (parent : TaskId) (assignments : List (PlanItem A))
  | update (task : TaskId) (act : Act) (text : String)
  | setLeader (who : A)
  | setRoot (who : A)
  | reassign (task : TaskId) (to_ : A)
  | say (to_ : Option A) (body : String) (noAck offRecord : Bool)
  | clearAll
  | publishStandaloneArtifact (text : String)
  | requestCompaction
  | reportStats (turns toolCalls tokens ms : Nat)
  | reportStats2 (turns toolCalls messages tokens ms : Nat)
  | post (id : MessageId) (to_ : Option A) (body : String) (parent : Option MessageId)
      (artifactId : Option ArtifactId) (tags : List String) (noAck offRecord : Bool)
  | react (target : MessageId) (emoji : String)
  | vote (artifact : ArtifactId) (up : Bool)
  | carryPatronRequest (who : A) (name note : String) (sig : Signature)
  | approvePatron (who : A)
  | rejectPatronRequest (who : A)
  | revokePatron (who : A)
deriving DecidableEq, Repr

/-- `ensure!`. -/
def ensure (p : Prop) [Decidable p] (e : DispatchError) : Except DispatchError Unit :=
  if p then .ok () else .error e

variable {A : Type}

def ensureSigned : Origin A → Except DispatchError A
  | .signed who => .ok who
  | _ => .error .badOrigin

def ensureRoot : Origin A → Except DispatchError Unit
  | .root => .ok ()
  | _ => .error .badOrigin

/-- One voter, one side: the other side moves them, their own side again withdraws. -/
def castVote [DecidableEq A] (t : Tally A) (who : A) (up : Bool) : Tally A :=
  let (own, other) := if up then (t.up, t.down) else (t.down, t.up)
  let (own, other) :=
    if who ∈ own then (own.erase who, other) else (own ++ [who], other.erase who)
  if up then ⟨own, other⟩ else ⟨other, own⟩

namespace Storage

/-! ## The system's part -/

/-- `block_number().unique_saturated_into()`, from a `u64` to a `u32`. -/
def now (s : Storage A) : BlockNumber := min s.blockNumber (2 ^ 32 - 1)

/-- `deposit_event`. The system populates no events at genesis. -/
def depositEvent (s : Storage A) (e : Effect A) : Storage A :=
  if s.blockNumber = 0 then s else { s with events := s.events ++ [e] }

section System

variable [DecidableEq A]

def incProviders (s : Storage A) (who : A) : Storage A :=
  -- The first provider makes the account.
  let a := (s.account.lookup who).getD {}
  let a := { a with providers := u32SaturatingAdd a.providers 1 }
  { s with account := s.account.insert who a }

/-- The account dies with its last provider, its nonce with it. -/
def decProviders (s : Storage A) (who : A) : Storage A :=
  match s.account.lookup who with
  | some a =>
    if a.providers ≤ 1 then { s with account := s.account.erase who }
    else { s with account := s.account.insert who { a with providers := a.providers - 1 } }
  | none => s

end System

/-! ## Reading -/

def table (s : Storage A) (rt : Runtime A) : TaskTable A :=
  TaskTable.fromState s.litter rt.miotConfig

section Calls

variable [DecidableEq A]

def isRoot (s : Storage A) (who : A) : Bool := s.litter.root = some who

def isMember (s : Storage A) (who : A) : Bool :=
  s.isRoot who || s.roster.any fun (_, a) => a = who

def isPatron (s : Storage A) (who : A) : Bool := (s.patrons.lookup who).isSome

def ensureNotPatron (s : Storage A) (who : A) : Except DispatchError Unit :=
  ensure (s.isPatron who = false) (.task .notAuthorized)

/-- Decided from the recovered caller, never from a field the caller filled in. -/
def authorityOf (who : A) (state : State A) : Authority :=
  if state.root = some who then .root
  else if state.leader = some who then .leader
  else .peer

/-- Lower-case letters, digits, `_` and `-`, at most 32 of them, and nobody's already. -/
def nameIsFree (s : Storage A) (name : String) : Bool :=
  let shaped := !name.isEmpty && name.utf8ByteSize ≤ maxPatronName &&
    name.toList.all fun c => c.isLower || c.isDigit || c = '_' || c = '-'
  shaped && !(s.roster.any fun (n, _) => n = name) &&
    !(s.patrons.any fun _ p => p.name = name) &&
    !(s.patronRequests.any fun _ r => r.name = name)

def requestMessage (s : Storage A) (name note : String) : RequestMessage A :=
  ⟨s.roster, name, note⟩

/-! ## Writing -/

/-- Store the table, and tell what happened. -/
def commit (s : Storage A) (table : TaskTable A) (effects : List (Effect A)) : Storage A :=
  effects.foldl depositEvent { s with litter := table.intoState }

/-- Load, apply, store, emit. A refused act writes nothing and emits nothing. -/
def apply (s : Storage A) (rt : Runtime A) (who : A)
    (f : TaskTable A → Authority → BlockNumber → Except Error (List (Effect A)) × TaskTable A) :
    Except DispatchError (Storage A) :=
  match f (s.table rt) (authorityOf who s.litter) s.now with
  | (.error e, _) => .error (.task e)
  | (.ok effects, table) => .ok (s.commit table effects)

/-- A comment joins its artifact's thread, the oldest dropped past the cap. -/
def comment (s : Storage A) (artifact : ArtifactId) (who : A) (body : String) (at_ : BlockNumber) :
    Storage A :=
  let thread := (s.comments.lookup artifact).getD [] ++ [⟨who, at_, s.epoch, body⟩]
  let thread := if thread.length > commentKeep then thread.tail else thread
  { s with comments := s.comments.insert artifact thread }

/-- A patron effect into storage, for the live call and the replay alike. -/
def foldPatron (s : Storage A) (effect : Effect A) (now : BlockNumber) : Storage A :=
  match effect with
  | .patronRequested who name note carrier =>
    { s with patronRequests := s.patronRequests.insert who ⟨name, note, now, carrier⟩ }
  | .patronApproved who name by_ =>
    let note := ((s.patronRequests.lookup who).map PatronRequest.note).getD ""
    let s := { s with patronRequests := s.patronRequests.erase who }
    -- An account of its own, so that it has a nonce; only once, should it be folded twice.
    let s := if s.isPatron who then s else s.incProviders who
    { s with patrons := s.patrons.insert who ⟨name, note, by_, now⟩ }
  | .patronRejected who _ => { s with patronRequests := s.patronRequests.erase who }
  | .patronRevoked who _ =>
    if s.isPatron who then { s with patrons := s.patrons.erase who }.decProviders who else s
  | _ => s

/-- Fold an effect that already happened into storage, without telling anyone again. -/
def replayEffect (s : Storage A) (rt : Runtime A) (effect : Effect A) (now : BlockNumber) :
    Storage A :=
  match effect with
  | .statsReported who turns toolCalls tokens ms =>
    { s with stats := s.stats.insert who ⟨turns, toolCalls, tokens, ms⟩ }
  | .statsReported2 who turns toolCalls messages tokens ms =>
    { s with
      stats := s.stats.insert who ⟨turns, toolCalls, tokens, ms⟩
      messagesSent := s.messagesSent.insert who messages }
  | .voted who artifact up =>
    let tally := castVote ((s.votes.lookup artifact).getD {}) who up
    { s with votes := s.votes.insert artifact tally }
  | .patronRequested .. | .patronApproved .. | .patronRejected .. | .patronRevoked .. =>
    s.foldPatron effect now
  -- A message about an artifact is a comment on it.
  | .message _ sender _ body _ (some a) _ _ _ _ => s.comment a sender body now
  -- All else is the table's, which passes over what is not.
  | _ => { s with litter := ((s.table rt).apply effect now).intoState }

/-! ## The calls -/

/-- `open`. -/
def openParent (s : Storage A) (rt : Runtime A) (origin : Origin A) (text : String) :
    Except DispatchError (Storage A) := do
  let who ← ensureSigned origin
  s.ensureNotPatron who
  s.apply rt who fun t auth now =>
    let (answer, t) := t.openParent who auth text now
    (answer.map Prod.snd, t)

def plan (s : Storage A) (rt : Runtime A) (origin : Origin A) (parent : TaskId)
    (assignments : List (PlanItem A)) : Except DispatchError (Storage A) := do
  let who ← ensureSigned origin
  s.ensureNotPatron who
  s.apply rt who fun t auth now => t.plan who auth parent assignments now

def update (s : Storage A) (rt : Runtime A) (origin : Origin A) (task : TaskId) (act : Act)
    (text : String) : Except DispatchError (Storage A) := do
  let who ← ensureSigned origin
  s.ensureNotPatron who
  s.apply rt who fun t auth now => t.update who auth task act text now

/-- Operator only. -/
def setLeader (s : Storage A) (rt : Runtime A) (origin : Origin A) (who : A) :
    Except DispatchError (Storage A) := do
  let caller ← ensureSigned origin
  ensure (s.litter.root = some caller) (.task .notAuthorized)
  let (effects, table) := (s.table rt).setLeader who s.now
  return s.commit table effects

/-- Patrons may: the one verb of the table they have. -/
def say (s : Storage A) (rt : Runtime A) (origin : Origin A) (to_ : Option A) (body : String)
    (noAck offRecord : Bool) : Except DispatchError (Storage A) := do
  let who ← ensureSigned origin
  s.apply rt who fun t auth _ => t.say who auth to_ body noAck offRecord

/-- Fail every open parent at once, and open a new epoch. -/
def clearAll (s : Storage A) (rt : Runtime A) (origin : Origin A) :
    Except DispatchError (Storage A) := do
  let who ← ensureSigned origin
  s.ensureNotPatron who
  let s ← s.apply rt who fun t auth now => t.clearAll auth now
  -- A refusal by the table returned before this.
  return { s with epoch := u32SaturatingAdd s.epoch 1 }

def reassign (s : Storage A) (rt : Runtime A) (origin : Origin A) (task : TaskId) (to_ : A) :
    Except DispatchError (Storage A) := do
  let who ← ensureSigned origin
  s.ensureNotPatron who
  s.apply rt who fun t auth now => t.reassign who auth task to_ now

/-- Governance only; no signed call gets here. -/
def setRoot (s : Storage A) (origin : Origin A) (who : A) : Except DispatchError (Storage A) := do
  ensureRoot origin
  return { s with litter := { s.litter with root := some who } }

def publishStandaloneArtifact (s : Storage A) (rt : Runtime A) (origin : Origin A)
    (text : String) : Except DispatchError (Storage A) := do
  let who ← ensureSigned origin
  s.ensureNotPatron who
  s.apply rt who fun t _ now =>
    -- The number it got is not part of what the call answers.
    let (answer, t) := t.publishStandaloneArtifact who text now
    (answer.map Prod.snd, t)

def requestCompaction (s : Storage A) (origin : Origin A) :
    Except DispatchError (Storage A) := do
  let who ← ensureSigned origin
  s.ensureNotPatron who
  ensure (authorityOf who s.litter = .root) (.task .notAuthorized)
  return { s with epoch := u32SaturatingAdd s.epoch 1 }

def reportStats (s : Storage A) (origin : Origin A) (turns toolCalls tokens ms : Nat) :
    Except DispatchError (Storage A) := do
  let who ← ensureSigned origin
  s.ensureNotPatron who
  let s := { s with stats := s.stats.insert who ⟨turns, toolCalls, tokens, ms⟩ }
  return s.depositEvent (.statsReported who turns toolCalls tokens ms)

def reportStats2 (s : Storage A) (origin : Origin A)
    (turns toolCalls messages tokens ms : Nat) : Except DispatchError (Storage A) := do
  let who ← ensureSigned origin
  s.ensureNotPatron who
  let s := { s with
    stats := s.stats.insert who ⟨turns, toolCalls, tokens, ms⟩
    messagesSent := s.messagesSent.insert who messages }
  return s.depositEvent (.statsReported2 who turns toolCalls messages tokens ms)

def post (s : Storage A) (rt : Runtime A) (origin : Origin A) (id : MessageId) (to_ : Option A)
    (body : String) (parent : Option MessageId) (artifactId : Option ArtifactId)
    (tags : List String) (noAck offRecord : Bool) : Except DispatchError (Storage A) := do
  let who ← ensureSigned origin
  ensure (body.utf8ByteSize ≤ rt.miotConfig.limits.maxMessage) (.task .tooLong)
  ensure (tags.length ≤ 8) (.task .tooLong)
  ensure (∀ t ∈ tags, t ≠ "" ∧ t.utf8ByteSize ≤ 32) (.task .tooLong)
  -- Who speaks for root is recorded, since root may change.
  let fromRoot : Bool := authorityOf who s.litter = .root
  let s := match artifactId with
    | some a => s.comment a who body s.now
    | none => s
  return s.depositEvent
    (.message id who to_ body parent artifactId tags fromRoot noAck offRecord)

def react (s : Storage A) (origin : Origin A) (target : MessageId) (emoji : String) :
    Except DispatchError (Storage A) := do
  let who ← ensureSigned origin
  ensure (emoji ≠ "" ∧ emoji.utf8ByteSize ≤ 16) (.task .tooLong)
  return s.depositEvent (.reacted who target emoji)

def vote (s : Storage A) (origin : Origin A) (artifact : ArtifactId) (up : Bool) :
    Except DispatchError (Storage A) := do
  let who ← ensureSigned origin
  let tally := castVote ((s.votes.lookup artifact).getD {}) who up
  let s := { s with votes := s.votes.insert artifact tally }
  return s.depositEvent (.voted who artifact up)

/-- Storage and the event of a patron call, once its checks passed. -/
def recordPatron (s : Storage A) (effect : Effect A) : Storage A :=
  (s.foldPatron effect s.now).depositEvent effect

/-- A member puts a stranger's signed request on chain. -/
def carryPatronRequest (s : Storage A) (rt : Runtime A) (origin : Origin A) (who : A)
    (name note : String) (sig : Signature) : Except DispatchError (Storage A) := do
  let carrier ← ensureSigned origin
  s.ensureNotPatron carrier
  ensure (s.isMember carrier = true) (.task .notAuthorized)
  -- Nobody asks twice, and nobody who is already in.
  ensure (s.isMember who = false ∧ s.isPatron who = false ∧
    (s.patronRequests.lookup who).isSome = false) .alreadyKnown
  ensure (note ≠ "" ∧ note.utf8ByteSize ≤ maxPatronNote) (.task .tooLong)
  ensure (s.nameIsFree name = true) .badName
  ensure (s.patronRequests.keys.card < maxPatronRequests) .tooManyRequests
  -- The costly check comes last.
  ensure (rt.verify who (s.requestMessage name note) sig = true) .badSignature
  return s.recordPatron (.patronRequested who name note carrier)

/-- Root or any patron. -/
def approvePatron (s : Storage A) (origin : Origin A) (who : A) :
    Except DispatchError (Storage A) := do
  let by_ ← ensureSigned origin
  ensure (s.isRoot by_ = true ∨ s.isPatron by_ = true) (.task .notAuthorized)
  match s.patronRequests.lookup who with
  | none => .error .noSuchPatron
  | some req => return s.recordPatron (.patronApproved who req.name by_)

/-- Root or any patron. -/
def rejectPatronRequest (s : Storage A) (origin : Origin A) (who : A) :
    Except DispatchError (Storage A) := do
  let by_ ← ensureSigned origin
  ensure (s.isRoot by_ = true ∨ s.isPatron by_ = true) (.task .notAuthorized)
  ensure ((s.patronRequests.lookup who).isSome = true) .noSuchPatron
  return s.recordPatron (.patronRejected who by_)

/-- Root, or whoever approved it and is still a patron itself. -/
def revokePatron (s : Storage A) (origin : Origin A) (who : A) :
    Except DispatchError (Storage A) := do
  let by_ ← ensureSigned origin
  match s.patrons.lookup who with
  | none => .error .noSuchPatron
  | some p =>
    ensure (s.isRoot by_ = true ∨ (p.approvedBy = by_ ∧ s.isPatron by_ = true))
      (.task .notAuthorized)
    return s.recordPatron (.patronRevoked who by_)

/-- One call. FRAME runs it in a storage layer of its own, so that a refusal leaves nothing. -/
def dispatch (s : Storage A) (rt : Runtime A) (origin : Origin A) :
    LitterCall A → Except DispatchError (Storage A)
  | .openParent text => s.openParent rt origin text
  | .plan parent assignments => s.plan rt origin parent assignments
  | .update task act text => s.update rt origin task act text
  | .setLeader who => s.setLeader rt origin who
  | .setRoot who => s.setRoot origin who
  | .reassign task to_ => s.reassign rt origin task to_
  | .say to_ body noAck offRecord => s.say rt origin to_ body noAck offRecord
  | .clearAll => s.clearAll rt origin
  | .publishStandaloneArtifact text => s.publishStandaloneArtifact rt origin text
  | .requestCompaction => s.requestCompaction origin
  | .reportStats turns toolCalls tokens ms => s.reportStats origin turns toolCalls tokens ms
  | .reportStats2 turns toolCalls messages tokens ms =>
    s.reportStats2 origin turns toolCalls messages tokens ms
  | .post id to_ body parent artifactId tags noAck offRecord =>
    s.post rt origin id to_ body parent artifactId tags noAck offRecord
  | .react target emoji => s.react origin target emoji
  | .vote artifact up => s.vote origin artifact up
  | .carryPatronRequest who name note sig => s.carryPatronRequest rt origin who name note sig
  | .approvePatron who => s.approvePatron origin who
  | .rejectPatronRequest who => s.rejectPatronRequest origin who
  | .revokePatron who => s.revokePatron origin who

/-! ## The hooks -/

/-- `GenesisConfig::build`. -/
def genesis (root leader : Option A) (roster : List (String × A)) : Storage A :=
  { litter := { root := root, leader := leader }, roster := roster }

/-- Tick, unless folding somebody else's blocks, then drop what is long closed. -/
def onInitialize (s : Storage A) (rt : Runtime A) (n : Nat) : Storage A :=
  let now := min n (2 ^ 32 - 1)
  let (effects, table) := if s.replaying then ([], s.table rt) else (s.table rt).tick now
  let (dropped, table) := table.gc now rt.gcKeepFor
  -- Most blocks change nothing, and then nothing is written.
  if effects ≠ [] ∨ dropped > 0 then s.commit table effects else s

/-- Run the tick for the block that is open, once, on promotion. -/
def tickNow (s : Storage A) (rt : Runtime A) : Storage A :=
  let (effects, table) := (s.table rt).tick s.now
  if effects ≠ [] then s.commit table effects else s

def setReplaying (s : Storage A) (on : Bool) : Storage A := { s with replaying := on }

/-- `Executive::initialize_block` of the next header. The system has forgotten the events of
the block before. -/
def initializeBlock (s : Storage A) (rt : Runtime A) : Storage A :=
  let n := s.blockNumber + 1
  { s with blockNumber := n, events := [] }.onInitialize rt n

end Calls

end Storage

end AkumaMiot

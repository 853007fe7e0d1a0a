import AkumaMiot.Node.Push

/-!
# A node's process

Everything a running node does, one critical section at a time. What a round waits for
outside the lock is an event of its own, so a poll, a block close, a client and a peer may
come between any two parts of a round. A panic ends the process.
-/
namespace AkumaMiot

/-- What a node is started with. -/
structure NodeConfig where
  name : Name
  /-- The other members, as this node reaches them. -/
  peers : List Route
  timing : Timing
  learner : Bool
deriving DecidableEq, Repr

/-- Where a write goes from here. -/
inductive WriteRoute
  | here
  | primary (p : Route)
  /-- There may be a primary that this node has no route to. -/
  | nobody (leader : Option Name)
deriving DecidableEq, Repr

def mempoolTtlMs : Nat := 15 * 60 * 1000

/-- An entry as a mempool round copied it. -/
structure Queued (B H : Type) where
  hash : H
  bytes : B
  carried : Bool
deriving DecidableEq, Repr

namespace Node

variable {A B H : Type}

def route (n : Node A B H) : WriteRoute :=
  if n.producing then .here
  else match n.peer with
  | some p => .primary p
  | none => .nobody n.mesh.leader

/-- Primary only: which routes to push to. Anyone else forgets what it compared. -/
def startPushes (n : Node A B H) (now : Nat) : Node A B H :=
  if !n.producing then { n with pushReconciled := ∅ }
  else { n with mesh := (n.mesh.pushTargets now n.store.head).2 }

section Mempool

variable [DecidableEq H]

/-- A peer took these on: stop offering them. -/
def mempoolCarried (n : Node A B H) (hashes : List H) : Node A B H :=
  { n with mempool := hashes.foldl (fun pool hash =>
      match pool.lookup hash with
      | some e => pool.insert hash { e with carried := true }
      | none => pool) n.mempool }

/-- Whether an entry may still stay in the mempool. -/
def keeps (now : Nat) (e : MempoolEntry B) : Bool := now - e.insertedAt < mempoolTtlMs

/-- The start of `mempool_round`: expired entries are dropped outright. -/
def mempoolExpire (n : Node A B H) (now : Nat) : Node A B H :=
  { n with mempool := n.mempool.retain fun _ e => keeps now e }

def mempoolEntries (n : Node A B H) : List (Queued B H) :=
  n.mempool.entries.map fun e => ⟨e.1, e.2.bytes, e.2.carried⟩

/-- The end of an entry's turn in `mempool_round`, on the route found when the turn began.
`taken` says whether the primary took what was forwarded. -/
def mempoolTurn [DecidableEq A] (n : Node A B H) (env : Env A B H) (e : Queued B H)
    (taken : Bool) : WriteRoute → Node A B H
  -- Without a route the entry stays, and is at most relayed again.
  | .nobody _ => n
  -- Someone else is delivering it.
  | .here => if e.carried then n.mempoolRemove e.hash else n.mempoolHere env e.hash e.bytes
  | .primary _ => if e.carried || taken then n.mempoolRemove e.hash else n

end Mempool

end Node

/-! ## The process -/

structure Process (A B H : Type) where
  node : Node A B H
  /-- The request whose replies a campaign awaits, and the one to send after. -/
  campaign : Option (VoteRequest × Option VoteRequest)
  /-- What the mempool round under way has still to handle. -/
  entries : List (Queued B H)
  /-- The entry it is handling, and the route it found for it. -/
  turn : Option (Queued B H × WriteRoute)

inductive ProcessEvent (B H : Type)
  /-- The polls of a mesh round are in. -/
  | round (polled : List (Route × Status)) (now later : Nat) (commits : Bool)
  | voteRequest (req : VoteRequest) (now later : Nat) (commits : Bool)
  | voteReply (route : Route) (reply : VoteReply) (now later : Nat) (commits : Bool)
  /-- Every reply to the request is in: the next request leaves, if there is one. -/
  | collected
  | inbound (st : Status) (carried : List H) (now : Nat) (commits : Bool)
  | push (leader : Status) (now : Nat) (commits : PushCommits) (op : PushOp B)
  | close (at_ : Nat) (commits : Commits)
  | page (peer : Route) (rows : List (BlockRow B)) (commits : Commits)
  | checkpoint (peer : Route) (answer : Option (Nat × B)) (commits : Commits)
  | rewind (peer : Route) (fork : Nat) (commits : Bool)
  | reconciled (peer : Route)
  | pushReconciled (route : Route)
  /-- An extrinsic came in where there is a primary. -/
  | accept (bytes : B)
  /-- An extrinsic came in and there was no route for it. -/
  | queue (bytes : B) (now : Nat)
  /-- A mempool round begins. -/
  | mempoolRound (now : Nat)
  /-- The round takes up an entry. A hash map has no order. -/
  | turn (hash : H)
  | answered (answer : TxState)
  | turned (taken : Bool)
  | restart (cfg : NodeConfig)

namespace Process

variable {A B H : Type}

/-- The poller is between a mesh round and a mempool round. -/
def idle (p : Process A B H) : Bool := p.campaign.isNone && p.entries.isEmpty && p.turn.isNone

/-- How a name seeds the spread of election timeouts. -/
def seed (name : Name) : UInt64 :=
  name.toByteArray.data.toList.foldl (fun h b => (h ^^^ b.toUInt64) * 0x100000001b3)
    0xcbf29ce484222325

/-- The election's state as a store keeps it; none when its bytes cannot be read. -/
def storedHard (readHard : List UInt8 → Option Hard) (store : Store B B) : Option Hard :=
  match store.aux auxMesh with
  | none => some {}
  | some bytes => readHard bytes

section Executing

variable [DecidableEq A]

/-- `Node::open`, and the process around it. -/
def open_ (env : Env A B H) (readHard : List UInt8 → Option Hard) (cfg : NodeConfig)
    (store : Store B B) : Option (Process A B H) := do
  let hard ← storedHard readHard store
  let mesh := Mesh.new cfg.name cfg.peers cfg.timing hard 0 (seed cfg.name)
  let n ← Node.open_ env store (if cfg.learner then mesh.asLearner else mesh)
  return ⟨n, none, [], none⟩

variable [DecidableEq H]

def step (env : Env A B H) (readHard : List UInt8 → Option Hard) (p : Process A B H) :
    ProcessEvent B H → Option (Process A B H)
  | .round polled now later commits =>
    if !p.idle then some p
    else do
      let m := polled.foldl (fun m (route, st) => m.onStatus route st now) p.node.mesh
      let (req, m) := m.tick now p.node.store.head
      let n ← { p.node with mesh := m }.followMesh env later commits
      return { p with node := n.startPushes now, campaign := req.map (·, none) }
  | .voteRequest req now later commits => do
    let (_, m) := p.node.mesh.onVoteRequest req now p.node.store.head
    let n ← { p.node with mesh := m }.followMesh env later commits
    return { p with node := n }
  | .voteReply route reply now later commits =>
    match p.campaign with
    | none => some p
    | some (req, next) => do
      let (nx, m) := p.node.mesh.onVoteReply route req reply now p.node.store.head
      let n ← { p.node with mesh := m }.followMesh env later commits
      return { p with node := n, campaign := some (req, nx.or next) }
  | .collected =>
    match p.campaign with
    | none => some p
    | some (_, next) => some { p with campaign := next.map (·, none) }
  | .inbound st carried now commits =>
    ((p.node.mempoolCarried carried).hear env st now commits).map ({ p with node := · })
  | .push leader now commits op =>
    (p.node.chainPush env leader now commits op).map fun (_, n) => { p with node := n }
  | .close at_ commits =>
    if p.node.producing then (p.node.advance env at_ commits).map ({ p with node := · })
    else some p
  | .page peer rows commits =>
    (p.node.takePage env commits peer rows).map fun (_, n) => { p with node := n }
  | .checkpoint peer answer commits =>
    (p.node.takeCheckpoint env commits peer answer).map fun (_, n) => { p with node := n }
  | .rewind peer fork commits =>
    (p.node.rewind env commits peer fork).map ({ p with node := · })
  | .reconciled peer =>
    some { p with node :=
      if p.node.peer = some peer then { p.node with needsReconcile := false } else p.node }
  | .pushReconciled route => some { p with node := p.node.markReconciled route }
  | .accept bytes => some { p with node := p.node.acceptHere env bytes }
  | .queue bytes now =>
    some { p with node := p.node.mempoolInsert (env.txHash bytes) bytes now }
  | .mempoolRound now =>
    if !p.idle then some p
    else
      let n := p.node.mempoolExpire now
      some { p with node := n, entries := n.mempoolEntries }
  | .turn hash =>
    match p.turn, p.entries.find? (·.hash = hash) with
    | none, some e =>
      some { p with
        entries := p.entries.eraseP (·.hash = hash)
        turn := some (e, p.node.route) }
    | _, _ => some p
  | .answered answer =>
    match p.turn with
    | some (e, .nobody _) =>
      some { p with
        node := p.node.mempoolAnswered e.hash answer
        turn := match answer with
          | .sealed _ => none
          | _ => p.turn }
    | _ => some p
  | .turned taken =>
    match p.turn with
    | some (e, route) =>
      some { p with node := p.node.mempoolTurn env e taken route, turn := none }
    | none => some p
  | .restart cfg => open_ env readHard cfg p.node.store.reopen

/-- One event of a process that may have ended. -/
def next (env : Env A B H) (readHard : List UInt8 → Option Hard) (p : Option (Process A B H))
    (e : ProcessEvent B H) : Option (Process A B H) :=
  p.bind fun p => p.step env readHard e

/-! ## What one event can do -/

/-- The events that find nothing to do. -/
def Idles (p : Process A B H) : ProcessEvent B H → Prop
  | .round _ _ _ _ | .mempoolRound _ => p.idle = false
  | .voteReply _ _ _ _ _ | .collected => p.campaign = none
  | .close _ _ => p.node.producing = false
  | .turn hash => p.turn.isSome ∨ p.entries.find? (·.hash = hash) = none
  | .answered _ => ∀ e leader, p.turn ≠ some (e, .nobody leader)
  | .turned _ => p.turn = none
  | .voteRequest _ _ _ _ | .inbound _ _ _ _ | .push _ _ _ _ | .page _ _ _ | .checkpoint _ _ _
  | .rewind _ _ _ | .reconciled _ | .pushReconciled _ | .accept _ | .queue _ _ | .restart _ =>
    False

/-- What one event can make of a process. -/
inductive Steps (env : Env A B H) (readHard : List UInt8 → Option Hard) (p : Process A B H) :
    ProcessEvent B H → Process A B H → Prop
  | idle {e : ProcessEvent B H} (idles : p.Idles e) : Steps env readHard p e p
  | round {polled : List (Route × Status)} {now later : Nat} {commits : Bool} {n : Node A B H}
    (idle : p.idle = true)
    (followed : Node.followMesh { p.node with
      mesh := ((polled.foldl (fun m (route, st) => m.onStatus route st now) p.node.mesh).tick now
        p.node.store.head).2 } env later commits = some n) :
    Steps env readHard p (.round polled now later commits)
      { p with
        node := n.startPushes now
        campaign := ((polled.foldl (fun m (route, st) => m.onStatus route st now)
          p.node.mesh).tick now p.node.store.head).1.map (·, none) }
  | voteRequest {req : VoteRequest} {now later : Nat} {commits : Bool} {n : Node A B H}
    (followed : Node.followMesh { p.node with
      mesh := (p.node.mesh.onVoteRequest req now p.node.store.head).2 } env later commits =
        some n) :
    Steps env readHard p (.voteRequest req now later commits) { p with node := n }
  | voteReply {route : Route} {reply : VoteReply} {now later : Nat} {commits : Bool}
    {req : VoteRequest} {next : Option VoteRequest} {n : Node A B H}
    (under : p.campaign = some (req, next))
    (followed : Node.followMesh { p.node with
      mesh := (p.node.mesh.onVoteReply route req reply now p.node.store.head).2 } env later
        commits = some n) :
    Steps env readHard p (.voteReply route reply now later commits)
      { p with
        node := n
        campaign := some (req,
          (p.node.mesh.onVoteReply route req reply now p.node.store.head).1.or next) }
  | collected {req : VoteRequest} {next : Option VoteRequest}
    (under : p.campaign = some (req, next)) :
    Steps env readHard p .collected { p with campaign := next.map (·, none) }
  | inbound {st : Status} {carried : List H} {now : Nat} {commits : Bool} {n : Node A B H}
    (heard : (p.node.mempoolCarried carried).hear env st now commits = some n) :
    Steps env readHard p (.inbound st carried now commits) { p with node := n }
  | push {leader : Status} {now : Nat} {commits : PushCommits} {op : PushOp B}
    {reply : PushReply} {n : Node A B H}
    (pushed : p.node.chainPush env leader now commits op = some (reply, n)) :
    Steps env readHard p (.push leader now commits op) { p with node := n }
  | close {at_ : Nat} {commits : Commits} {n : Node A B H} (leads : p.node.producing = true)
    (advanced : p.node.advance env at_ commits = some n) :
    Steps env readHard p (.close at_ commits) { p with node := n }
  | page {peer : Route} {rows : List (BlockRow B)} {commits : Commits} {goes : Bool}
    {n : Node A B H} (taken : p.node.takePage env commits peer rows = some (goes, n)) :
    Steps env readHard p (.page peer rows commits) { p with node := n }
  | checkpoint {peer : Route} {answer : Option (Nat × B)} {commits : Commits} {adopted : Bool}
    {n : Node A B H} (taken : p.node.takeCheckpoint env commits peer answer = some (adopted, n)) :
    Steps env readHard p (.checkpoint peer answer commits) { p with node := n }
  | rewind {peer : Route} {fork : Nat} {commits : Bool} {n : Node A B H}
    (rewound : p.node.rewind env commits peer fork = some n) :
    Steps env readHard p (.rewind peer fork commits) { p with node := n }
  | reconciled (peer : Route) :
    Steps env readHard p (.reconciled peer)
      { p with
        node :=
          if p.node.peer = some peer then { p.node with needsReconcile := false } else p.node }
  | pushReconciled (route : Route) :
    Steps env readHard p (.pushReconciled route) { p with node := p.node.markReconciled route }
  | accept (bytes : B) :
    Steps env readHard p (.accept bytes) { p with node := p.node.acceptHere env bytes }
  | queue (bytes : B) (now : Nat) :
    Steps env readHard p (.queue bytes now)
      { p with node := p.node.mempoolInsert (env.txHash bytes) bytes now }
  | mempoolRound (now : Nat) (idle : p.idle = true) :
    Steps env readHard p (.mempoolRound now)
      { p with
        node := p.node.mempoolExpire now
        entries := (p.node.mempoolExpire now).mempoolEntries }
  | turn {hash : H} {e : Queued B H} (none_ : p.turn = none)
    (found : p.entries.find? (·.hash = hash) = some e) :
    Steps env readHard p (.turn hash)
      { p with
        entries := p.entries.eraseP (·.hash = hash)
        turn := some (e, p.node.route) }
  | answered {e : Queued B H} {leader : Option Name} (answer : TxState)
    (turn : p.turn = some (e, .nobody leader)) :
    Steps env readHard p (.answered answer)
      { p with
        node := p.node.mempoolAnswered e.hash answer
        turn := match answer with
          | .sealed _ => none
          | _ => p.turn }
  | turned {e : Queued B H} {route : WriteRoute} (taken : Bool)
    (turn : p.turn = some (e, route)) :
    Steps env readHard p (.turned taken)
      { p with node := p.node.mempoolTurn env e taken route, turn := none }
  | restart {cfg : NodeConfig} {p' : Process A B H}
    (opened : open_ env readHard cfg p.node.store.reopen = some p') :
    Steps env readHard p (.restart cfg) p'

theorem step_steps {env : Env A B H} {readHard : List UInt8 → Option Hard} {p p' : Process A B H}
    {e : ProcessEvent B H} (stepped : p.step env readHard e = some p') :
    Steps env readHard p e p' := by
  cases e with
  | round polled now later commits =>
    simp only [step] at stepped
    split at stepped
    next busy =>
      cases stepped
      exact .idle (by simpa [Idles] using busy)
    next idle =>
      simp only [Option.bind_eq_bind, Option.bind_eq_some_iff, Option.pure_def,
        Option.some.injEq] at stepped
      obtain ⟨n, followed, rfl⟩ := stepped
      exact .round (by simpa using idle) followed
  | voteRequest req now later commits =>
    simp only [step, Option.bind_eq_bind, Option.bind_eq_some_iff, Option.pure_def,
      Option.some.injEq] at stepped
    obtain ⟨n, followed, rfl⟩ := stepped
    exact .voteRequest followed
  | voteReply route reply now later commits =>
    simp only [step] at stepped
    split at stepped
    next none_ =>
      cases stepped
      exact .idle none_
    next req next under =>
      simp only [Option.bind_eq_bind, Option.bind_eq_some_iff, Option.pure_def,
        Option.some.injEq] at stepped
      obtain ⟨n, followed, rfl⟩ := stepped
      exact .voteReply under followed
  | collected =>
    simp only [step] at stepped
    split at stepped
    next none_ =>
      cases stepped
      exact .idle none_
    next req next under =>
      cases stepped
      exact .collected under
  | inbound st carried now commits =>
    obtain ⟨n, heard, rfl⟩ := Option.map_eq_some_iff.mp stepped
    exact .inbound heard
  | push leader now commits op =>
    obtain ⟨⟨reply, n⟩, pushed, rfl⟩ := Option.map_eq_some_iff.mp stepped
    exact .push pushed
  | close at_ commits =>
    simp only [step] at stepped
    split at stepped
    next leads =>
      obtain ⟨n, advanced, rfl⟩ := Option.map_eq_some_iff.mp stepped
      exact .close leads advanced
    next follows =>
      cases stepped
      exact .idle (by simpa [Idles] using follows)
  | page peer rows commits =>
    obtain ⟨⟨goes, n⟩, taken, rfl⟩ := Option.map_eq_some_iff.mp stepped
    exact .page taken
  | checkpoint peer answer commits =>
    obtain ⟨⟨adopted, n⟩, taken, rfl⟩ := Option.map_eq_some_iff.mp stepped
    exact .checkpoint taken
  | rewind peer fork commits =>
    obtain ⟨n, rewound, rfl⟩ := Option.map_eq_some_iff.mp stepped
    exact .rewind rewound
  | reconciled peer =>
    cases stepped
    exact .reconciled peer
  | pushReconciled route =>
    cases stepped
    exact .pushReconciled route
  | accept bytes =>
    cases stepped
    exact .accept bytes
  | queue bytes now =>
    cases stepped
    exact .queue bytes now
  | mempoolRound now =>
    simp only [step] at stepped
    split at stepped
    next busy =>
      cases stepped
      exact .idle (by simpa [Idles] using busy)
    next idle =>
      cases stepped
      exact .mempoolRound now (by simpa using idle)
  | turn hash =>
    simp only [step] at stepped
    split at stepped
    next e none_ found =>
      cases stepped
      exact .turn none_ found
    next other =>
      cases stepped
      refine .idle ?_
      cases turn : p.turn with
      | some t => exact .inl (by rw [turn]; rfl)
      | none =>
        cases found : p.entries.find? (·.hash = hash) with
        | none => exact .inr found
        | some e => exact (other e turn found).elim
  | answered answer =>
    simp only [step] at stepped
    split at stepped
    next e leader turn =>
      cases stepped
      exact .answered answer turn
    next other =>
      cases stepped
      exact .idle other
  | turned taken =>
    simp only [step] at stepped
    split at stepped
    next e route turn =>
      cases stepped
      exact .turned taken turn
    next none_ =>
      cases stepped
      exact .idle none_
  | restart cfg => exact .restart stepped

end Executing

end Process

end AkumaMiot

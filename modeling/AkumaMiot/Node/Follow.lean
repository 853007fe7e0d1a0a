import AkumaMiot.Lib.Machine
import AkumaMiot.Node.Stays

/-!
# A member and its replica rounds

One round follows another, and each gives up the lock wherever it awaits an answer. Whatever else
the process does may come in between: the mesh may be heard and followed, a leader may push, and
the node may lead and close blocks of its own.
-/
namespace AkumaMiot

variable {A B H : Type}

/-- Where a replica round is. `myHead` and `myCp` are ours as the comparison read them. -/
inductive Stage (B : Type)
  /-- The logs are to be compared first. -/
  | owed
  /-- Awaits the peer's head, to compare. -/
  | asked (myHead myCp : Nat)
  /-- Awaits the peer's checkpoint, which is past ours. -/
  | adopting (myHead myCp : Nat)
  /-- Awaits the peer's blocks from `start` on; `theirs` are those it has given. -/
  | comparing (myHead myCp start : Nat) (theirs : List B)
  /-- About to look for the fork. -/
  | forking (myHead myCp : Nat) (theirs : List B)
  /-- About to rewind. -/
  | diverged (fork : Nat)
  /-- The comparison is done. -/
  | compared
  /-- Awaits the peer's head, to tail it. -/
  | tailing
  /-- Awaits the peer's checkpoint, to start from it. -/
  | catching (head : Nat)
  /-- About to look whether anything is left to ask for. -/
  | next (head : Nat)
  /-- Awaits a page. -/
  | paging (head : Nat)

namespace Stage

/-- Nothing is left to compare. -/
def tails : Stage B → Bool
  | tailing | catching _ | next _ | paging _ => true
  | _ => false

/-- What it has read of either log is kept. -/
def begun : Stage B → Bool
  | owed => false
  | _ => true

/-- The blocks to compare, if there are any. -/
def compare (myHead myCp : Nat) : Stage B :=
  if myHead = myCp then .compared -- nothing of our own above the checkpoint
  else if u64Succ myCp ≤ myHead then .comparing myHead myCp (u64Succ myCp) []
  else .forking myHead myCp []

theorem compare_tails (myHead myCp : Nat) : (compare myHead myCp : Stage B).tails = false := by
  unfold compare
  split
  · rfl
  · split <;> rfl

end Stage

structure Round (B : Type) where
  peer : Route
  stage : Stage B
  /-- The term in which its work counts; none once it had the lock while its peer was not
  followed, and had something to finish under it. -/
  since : Option Nat

inductive PullEvent (B : Type)
  | begin_
  /-- The round has the lock. -/
  | locks (commits : Bool)
  | head (answer : Option ChainHead)
  | checkpoint (answer : Option (Nat × B)) (commits : Commits)
  | blocks (rows : List (BlockRow B)) (commits : Commits)

/-- What the rounds did. -/
inductive Happened (B : Type)
  /-- A comparison with the peer followed was completed, in this term. -/
  | reconciled (peer : Route) (term : Nat)
  /-- A page of the peer's was put on this log, in this term. -/
  | pulled (peer : Route) (term : Nat) (log : Store B B)

/-- A process, the round under way, and what the rounds did, the latest first. -/
structure Follower (A B H : Type) where
  process : Process A B H
  round : Option (Round B)
  happened : List (Happened B)

inductive FollowEvent (B H : Type)
  | pull (e : PullEvent B)
  | other (e : ProcessEvent B H)

namespace Follower

section Running

variable [DecidableEq A] [DecidableEq B]

/-- The node and the round after a part of the round. -/
def now (f : Follower A B H) (n : Node A B H) (round : Option (Round B)) : Follower A B H :=
  { f with process := { f.process with node := n }, round }

/-- One part of a round. What is not awaited changes nothing. -/
def pull (f : Follower A B H) (env : Env A B H) (r : Round B) (e : PullEvent B) :
    Option (Follower A B H) :=
  let n := f.process.node
  let at_ (stage : Stage B) : Option (Round B) := some { r with stage }
  let under (stage : Stage B) (since : Option Nat) : Option (Round B) :=
    some { r with stage, since := if n.peer = some r.peer then since else none }
  match r.stage, e with
  | .owed, .locks _ =>
    some (f.now n (under (.asked n.store.head n.store.lastCheckpoint) (some n.mesh.term)))
  | .asked _ _, .head none => some (f.now n none) -- try again next tick
  | .asked myHead myCp, .head (some ph) =>
    if ph.lastCheckpoint < myCp then
      -- We compacted where the primary never did.
      some (f.now n (at_ (.diverged (myCp - 1))))
    else if ph.lastCheckpoint ≤ n.store.lastCheckpoint then
      some (f.now n (at_ (.compare myHead myCp)))
    else some (f.now n (at_ (.adopting myHead myCp)))
  | .adopting myHead myCp, .checkpoint answer commits => do
    let (adopted, n) ← n.takeCheckpoint env commits r.peer answer
    return f.now n (at_ (if adopted then .compared else .compare myHead myCp))
  | .comparing myHead myCp start theirs, .blocks rows _ =>
    if rows = [] then some (f.now n (at_ (.forking myHead myCp theirs)))
    else
      let start := (start + rows.length) % 2 ^ 64
      let theirs := theirs ++ decodedBodies rows
      some (f.now n (at_ (if start ≤ myHead then .comparing myHead myCp start theirs
        else .forking myHead myCp theirs)))
  | .forking myHead myCp theirs, .locks _ =>
    let fork := n.store.forkPoint (u64Succ myCp) theirs
    some (f.now n (at_ (if fork < myHead then .diverged fork else .compared)))
  | .diverged fork, .locks commits => do
    let n' ← n.rewind env commits r.peer fork
    return f.now n' (under .compared r.since)
  | .compared, .locks _ =>
    if n.peer = some r.peer then
      some { f.now { n with needsReconcile := false } (at_ .tailing) with
        happened := .reconciled r.peer n.mesh.term :: f.happened }
    else some (f.now n (under .tailing none))
  | .tailing, .head none => some (f.now n none)
  | .tailing, .head (some ph) =>
    if ph.lastCheckpoint ≤ n.store.lastCheckpoint then some (f.now n (at_ (.next ph.head)))
    else some (f.now n (at_ (.catching ph.head)))
  | .catching head, .checkpoint answer commits => do
    let (_, n) ← n.takeCheckpoint env commits r.peer answer
    return f.now n (at_ (.next head))
  | .next head, .locks _ =>
    some (f.now n (if u64Succ n.store.head > head then none else at_ (.paging head)))
  | .paging head, .blocks rows commits =>
    if rows = [] then some (f.now n none)
    else do
      let (goes, n') ← n.takePage env commits r.peer rows
      return { f.now n' (if goes then at_ (.next head) else none) with
        happened := if n.followsNot r.peer then f.happened
          else .pulled r.peer n.mesh.term n.store :: f.happened }
  | _, _ => some f

/-- A round begins, if none is under way and there is somebody to follow. -/
def begin_ (f : Follower A B H) : Follower A B H :=
  let n := f.process.node
  match f.round, n.peer with
  | none, some peer =>
    if n.producing then f
    else if n.needsReconcile then { f with round := some ⟨peer, .owed, none⟩ }
    else { f with round := some ⟨peer, .tailing, some n.mesh.term⟩ }
  | _, _ => f

variable [DecidableEq H]

/-- One event. The parts of a round are the round's own, and a restart ends it. -/
def step (env : Env A B H) (readHard : List UInt8 → Option Hard) (f : Follower A B H) :
    FollowEvent B H → Option (Follower A B H)
  | .pull .begin_ => some f.begin_
  | .pull e =>
    match f.round with
    | none => some f
    | some r => f.pull env r e
  | .other e =>
    if e.pulls then some f
    else (f.process.step env readHard e).map fun p =>
      { f with process := p, round := if e.restarts then none else f.round }

def next_ (env : Env A B H) (readHard : List UInt8 → Option Hard) (f : Option (Follower A B H))
    (e : FollowEvent B H) : Option (Follower A B H) :=
  f.bind fun f => f.step env readHard e

theorem step_pull {env : Env A B H} {readHard : List UInt8 → Option Hard} {f f' : Follower A B H}
    {e : PullEvent B} (stepped : f.step env readHard (.pull e) = some f') :
    (e = .begin_ ∧ f' = f.begin_) ∨ f' = f ∨ ∃ r, f.round = some r ∧ f.pull env r e = some f' := by
  cases begins : e with
  | begin_ =>
    rw [begins] at stepped
    exact .inl ⟨rfl, (Option.some.inj stepped).symm⟩
  | _ =>
    rw [begins] at stepped
    cases under : f.round with
    | none =>
      simp only [step, under, Option.some.injEq] at stepped
      exact .inr (.inl stepped.symm)
    | some r =>
      simp only [step, under] at stepped
      exact .inr (.inr ⟨r, rfl, stepped⟩)

end Running

/-- A process before its first round. -/
def fresh (p : Process A B H) : Follower A B H := ⟨p, none, []⟩

/-- Every page that was put on the log was pulled from a peer with which the log had been compared
before, in the term of the page. -/
def Reconciled (happened : List (Happened B)) : Prop :=
  ∀ later peer term log earlier, happened = later ++ .pulled peer term log :: earlier →
    .reconciled peer term ∈ earlier

/-! ## What a member must not miss -/

/-- A leader is not heard on the route followed to lead a later term, unless the logs are still to
be compared and no round has begun to. And while a round is under way whose route is not followed
any more, its leader is not heard to lead, unless the round still counts in that term. -/
def Seen (f : Follower A B H) : FollowEvent B H → Prop
  | .pull _ => True
  | .other e => ∀ told ∈ e.told f.process.node.mesh, told.2.role = .leader →
      if f.process.node.peer = some told.1 then
        told.2.term ≤ f.process.node.mesh.term ∨ (f.process.node.needsReconcile = true ∧
          ∀ r ∈ f.round, r.peer = told.1 → r.stage.begun = false)
      else ∀ r ∈ f.round, r.peer = told.1 → r.stage.begun = true →
        told.2.term < f.process.node.mesh.term ∨ r.since = some told.2.term

/-- A member stays one. -/
def Votes : FollowEvent B H → Prop
  | .other (.restart cfg) => cfg.learner = false
  | _ => True

/-- Whoever is followed without a comparison owed was compared with, in the term there is. -/
structure Inv (f : Follower A B H) : Prop where
  member : f.process.node.Member
  settled : ∀ q, f.process.node.peer = some q → f.process.node.needsReconcile = false →
    .reconciled q f.process.node.mesh.term ∈ f.happened
  /-- A round that follows its peer still counts. -/
  counts : ∀ r ∈ f.round, r.stage.begun = true → f.process.node.peer = some r.peer →
    r.since = some f.process.node.mesh.term
  tails : ∀ r ∈ f.round, r.stage.tails = true → ∀ term, r.since = some term →
    .reconciled r.peer term ∈ f.happened
  /-- Nobody stands in a term in which it followed. -/
  stands : ∀ r ∈ f.round, ∀ term, r.since = some term → term ≤ f.process.node.mesh.term ∧
    (term = f.process.node.mesh.term → ¬ f.process.node.mesh.Stands)
  ordered : Reconciled f.happened

theorem Reconciled.cons {one : Happened B} {happened : List (Happened B)}
    (ordered : Reconciled happened)
    (new : ∀ peer term log, one = .pulled peer term log → .reconciled peer term ∈ happened) :
    Reconciled (one :: happened) := by
  intro later peer term log earlier same
  cases later with
  | nil =>
    obtain ⟨rfl, rfl⟩ := List.cons.inj same
    exact new peer term log rfl
  | cons first later =>
    obtain ⟨_, rest⟩ := List.cons.inj same
    exact ordered later peer term log earlier rest

variable {env : Env A B H} {readHard : List UInt8 → Option Hard}

/-- A route that is settled stays in its term. -/
theorem settled_kept {f : Follower A B H} {e : ProcessEvent B H} {n' : Node A B H}
    (turns : f.process.node.Turns (e.told f.process.node.mesh) n') (seen : f.Seen (.other e))
    {q : Route} (follows : n'.peer = some q) (was : f.process.node.peer = some q)
    (owed : f.process.node.needsReconcile = false) :
    n'.mesh.term = f.process.node.mesh.term := by
  rcases turns.route q follows with ⟨_, kept⟩ | ⟨st, told, leads, term⟩
  · exact kept
  · have known := seen (q, st) told leads
    rw [if_pos was] at known
    have later := turns.later
    rcases known with known | ⟨owes, _⟩
    · have known : st.term ≤ f.process.node.mesh.term := known
      omega
    · rw [owed] at owes
      cases owes

/-- A round that follows its peer after an event counts in the term there is then. -/
theorem counts_kept {f : Follower A B H} (inv : Inv f) {e : ProcessEvent B H} {n' : Node A B H}
    (turns : f.process.node.Turns (e.told f.process.node.mesh) n') (seen : f.Seen (.other e))
    {r : Round B} (under : r ∈ f.round) (begun : r.stage.begun = true)
    (follows : n'.peer = some r.peer) : r.since = some n'.mesh.term := by
  have later := turns.later
  rcases turns.route r.peer follows with ⟨was, kept⟩ | ⟨st, told, leads, term⟩
  · rw [kept]
    exact inv.counts r under begun was
  -- The peer is followed since this very event: what was seen of it says which term it leads.
  · have known := seen (r.peer, st) told leads
    by_cases was : f.process.node.peer = some r.peer
    · rw [if_pos was] at known
      rcases known with known | ⟨_, known⟩
      · have known : st.term ≤ f.process.node.mesh.term := known
        have same : n'.mesh.term = f.process.node.mesh.term := by omega
        rw [same]
        exact inv.counts r under begun was
      · rw [known r under rfl] at begun
        cases begun
    · rw [if_neg was] at known
      rcases known r under rfl begun with old | counts
      · have old : st.term < f.process.node.mesh.term := old
        omega
      · rw [← term]
        exact counts

/-- A part of a round after which less is left to know. -/
theorem Inv.moves {f : Follower A B H} (inv : Inv f) {n : Node A B H} {adds : Nat → B → Prop}
    (stays : f.process.node.Stays adds n) {round : Option (Round B)}
    (counts : ∀ r ∈ round, r.stage.begun = true → f.process.node.peer = some r.peer →
      r.since = some f.process.node.mesh.term)
    (tails : ∀ r ∈ round, r.stage.tails = true → ∀ term, r.since = some term →
      .reconciled r.peer term ∈ f.happened)
    (stands : ∀ r ∈ round, ∀ term, r.since = some term → term ≤ f.process.node.mesh.term ∧
      (term = f.process.node.mesh.term → ¬ f.process.node.mesh.Stands)) :
    Inv (f.now n round) where
  member := inv.member.stays stays
  -- Peer, term and debt are as they were, so each fact is the one there was.
  settled q follows owed := by
    have known := inv.settled q (stays.peer ▸ follows) (stays.owed ▸ owed)
    rw [← stays.term] at known
    exact known
  counts r under begun follows := by
    have counted := counts r under begun (stays.peer ▸ follows)
    rw [← stays.term] at counted
    exact counted
  tails := tails
  stands r under term since := by
    have known := stands r under term since
    rw [← stays.term, ← stays.stands] at known
    exact known
  ordered := inv.ordered

/-- The round is over. -/
theorem Inv.ends {f : Follower A B H} (inv : Inv f) {n : Node A B H} {adds : Nat → B → Prop}
    (stays : f.process.node.Stays adds n) : Inv (f.now n none) := inv.moves stays nofun nofun nofun

/-- The round goes on, counting as before. -/
theorem Inv.goesOn {f : Follower A B H} (inv : Inv f) {n : Node A B H} {adds : Nat → B → Prop}
    (stays : f.process.node.Stays adds n) {r : Round B} (under : f.round = some r)
    (begun : r.stage.begun = true) {stage : Stage B}
    (late : stage.tails = true → r.stage.tails = true) :
    Inv (f.now n (some { r with stage })) := by
  refine inv.moves stays (fun r' after _ follows => ?_) (fun r' after tails => ?_) fun r' after => ?_
  · obtain rfl := Option.some.inj after
    exact inv.counts r under begun follows
  · obtain rfl := Option.some.inj after
    exact inv.tails r under (late tails)
  · obtain rfl := Option.some.inj after
    exact inv.stands r under

/-- Who follows somebody does not stand. -/
theorem follows_stands {f : Follower A B H} (inv : Inv f) {q : Route}
    (follows : f.process.node.peer = some q) : ¬ f.process.node.mesh.Stands := by
  intro stands
  have silent := inv.member.routed.silent (by rcases stands with role | role <;> simp [role])
  rw [inv.member.peer, silent] at follows
  cases follows

/-- The round goes on under the lock, and counts no more where its peer is not followed. -/
theorem Inv.locks {f : Follower A B H} (inv : Inv f) {n : Node A B H} {adds : Nat → B → Prop}
    (stays : f.process.node.Stays adds n) {r : Round B} {stage : Stage B} {since : Option Nat}
    (counts : f.process.node.peer = some r.peer → since = some f.process.node.mesh.term)
    (early : stage.tails = true → since = none) :
    Inv (f.now n (some { r with
      stage, since := if f.process.node.peer = some r.peer then since else none })) := by
  refine inv.moves stays (fun r' after _ follows => ?_) (fun r' after tails => ?_) fun r' after => ?_
  · obtain rfl := Option.some.inj after
    exact (if_pos follows).trans (counts follows)
  · obtain rfl := Option.some.inj after
    intro term now
    -- A round that is not counted has nothing to say of a term.
    have now : (if f.process.node.peer = some r.peer then since else none) = some term := now
    rw [early tails, ite_self] at now
    cases now
  · obtain rfl := Option.some.inj after
    intro term now
    have now : (if f.process.node.peer = some r.peer then since else none) = some term := now
    split at now
    next follows =>
      obtain rfl := Option.some.inj ((counts follows).symm.trans now)
      exact ⟨le_rfl, fun _ => follows_stands inv follows⟩
    · cases now

theorem begin_inv {f : Follower A B H} (inv : Inv f) : Inv f.begin_ := by
  unfold begin_
  simp only
  split
  next peer _ follows =>
    split
    · exact inv
    · split
      · refine ⟨inv.member, inv.settled, fun r after begun => ?_, fun r after tails => ?_,
          fun r after term since => ?_, inv.ordered⟩
        · obtain rfl := Option.some.inj after
          cases begun
        · obtain rfl := Option.some.inj after
          cases tails
        · obtain rfl := Option.some.inj after
          cases since
      next owed =>
        -- It tails at once only where no comparison is owed.
        have quiet := follows_stands inv follows
        have settled := inv.settled peer follows (by simpa using owed)
        refine ⟨inv.member, inv.settled, fun r after _ _ => ?_, fun r after _ term since => ?_,
          fun r after term since => ?_, inv.ordered⟩
        · obtain rfl := Option.some.inj after
          rfl
        · obtain rfl := Option.some.inj after
          obtain rfl := Option.some.inj since
          exact settled
        · obtain rfl := Option.some.inj after
          obtain rfl := Option.some.inj since
          exact ⟨le_rfl, fun _ => quiet⟩
  · exact inv

section Running

variable [DecidableEq A]

/-- A process that starts follows nobody. -/
theorem open_member {cfg : NodeConfig} {store : Store B B} {p : Process A B H}
    (votes : cfg.learner = false) (opened : Process.open_ env readHard cfg store = some p) :
    p.node.Member ∧ p.node.peer = none := by
  simp only [Process.open_, votes, Option.bind_eq_bind, Option.bind_eq_some_iff, Option.pure_def,
    Option.some.injEq, Bool.false_eq_true, if_false] at opened
  obtain ⟨hard, _, n, opened, rfl⟩ := opened
  have started := Node.replay_refolded opened
  rw [started]
  exact ⟨⟨rfl, Mesh.new_routed _ _ _ _ _ _, rfl, rfl⟩, rfl⟩

theorem open_inv {f : Follower A B H} {cfg : NodeConfig} {store : Store B B} {p : Process A B H}
    (votes : cfg.learner = false) (opened : Process.open_ env readHard cfg store = some p)
    (ordered : Reconciled f.happened) : Inv { f with process := p, round := none } := by
  obtain ⟨member, nobody⟩ := open_member votes opened
  exact ⟨member, fun q follows => by simp [nobody] at follows, nofun, nofun, nofun, ordered⟩

/-- Whatever else the process does. -/
theorem other_inv [DecidableEq H] {f : Follower A B H} (inv : Inv f) {e : ProcessEvent B H}
    (seen : f.Seen (.other e)) (pulls : e.pulls = false) (runs : e.restarts = false)
    {p : Process A B H} (stepped : f.process.step env readHard e = some p) :
    Inv { f with process := p } := by
  obtain ⟨member, turns, _⟩ := Process.step_turns inv.member pulls runs stepped
  have later := turns.later
  refine ⟨member, fun q follows owed => ?_, fun r under begun follows => ?_, inv.tails,
    fun r under term since => ?_, inv.ordered⟩
  · by_cases was : f.process.node.peer = some q
    -- It follows the peer it followed before, and owes it nothing: that was settled already.
    · have settled := (turns.stays q follows was).symm.trans owed
      simp only [settled_kept turns seen follows was settled]
      exact inv.settled q was settled
    · have owes := turns.owed q follows was
      rw [owes] at owed
      cases owed
  · exact counts_kept inv turns seen under begun follows
  · obtain ⟨past, quiet⟩ := inv.stands r under term since
    have past' : term ≤ p.node.mesh.term := past.trans later
    refine ⟨past', fun same stands => ?_⟩
    have same : term = p.node.mesh.term := same
    rcases turns.stands stands with stood | before
    · exact quiet (by omega) stood
    · omega

variable [DecidableEq B]

theorem pull_inv {f f' : Follower A B H} (inv : Inv f) {r : Round B} (under : f.round = some r)
    {e : PullEvent B} (pulled : f.pull env r e = some f') : Inv f' := by
  have still : f.process.node.Stays (fun _ _ => True) f.process.node := .refl _
  unfold pull at pulled
  simp only at pulled
  split at pulled
  · cases pulled
    exact inv.locks still (fun _ => rfl) nofun
  · cases pulled
    exact inv.ends still
  next myHead myCp ph asked =>
    have begun : r.stage.begun = true := by rw [asked]; rfl
    split at pulled
    · cases pulled
      exact inv.goesOn still under begun nofun
    · split at pulled
      · cases pulled
        refine inv.goesOn still under begun fun tails => ?_
        rw [Stage.compare_tails] at tails
        cases tails
      · cases pulled
        exact inv.goesOn still under begun nofun
  next myHead myCp answer commits adopting =>
    have begun : r.stage.begun = true := by rw [adopting]; rfl
    simp only [Option.bind_eq_bind, Option.bind_eq_some_iff, Option.pure_def,
      Option.some.injEq] at pulled
    obtain ⟨⟨adopted, n⟩, taken, rfl⟩ := pulled
    have stays : f.process.node.Stays (fun _ _ => True) n := (Node.TakesIn.takeCheckpoint taken).stays
    refine inv.goesOn stays under begun fun tails => ?_
    cases adopted with
    | true => cases tails
    | false =>
      have early : (Stage.compare myHead myCp : Stage B).tails = true := tails
      rw [Stage.compare_tails] at early
      cases early
  next myHead myCp start theirs rows commits comparing =>
    have begun : r.stage.begun = true := by rw [comparing]; rfl
    split at pulled
    · cases pulled
      exact inv.goesOn still under begun nofun
    · cases pulled
      refine inv.goesOn still under begun ?_
      split <;> exact nofun
  next myHead myCp theirs commits forking =>
    have begun : r.stage.begun = true := by rw [forking]; rfl
    cases pulled
    refine inv.goesOn still under begun ?_
    split <;> exact nofun
  next fork commits diverged =>
    have begun : r.stage.begun = true := by rw [diverged]; rfl
    simp only [Option.bind_eq_bind, Option.bind_eq_some_iff, Option.pure_def,
      Option.some.injEq] at pulled
    obtain ⟨n, rewound, rfl⟩ := pulled
    have stays : f.process.node.Stays (fun _ _ => True) n := (Node.TakesIn.rewind rewound).stays
    exact inv.locks stays (inv.counts r under begun) nofun
  next commits compared =>
    have begun : r.stage.begun = true := by rw [compared]; rfl
    -- The comparison counts if the peer is still followed.
    split at pulled
    next follows =>
      cases pulled
      have since := inv.counts r under begun follows
      refine ⟨⟨inv.member.learner, inv.member.routed, inv.member.peer, inv.member.role⟩,
        fun q peer _ => ?_, fun r' after _ _ => ?_, fun r' after _ term now => ?_,
        fun r' after => ?_, inv.ordered.cons fun _ _ _ same => nomatch same⟩
      · obtain rfl := Option.some.inj (follows.symm.trans peer)
        exact List.mem_cons_self
      · obtain rfl := Option.some.inj after
        exact since
      · obtain rfl := Option.some.inj after
        obtain rfl := Option.some.inj (since.symm.trans now)
        exact List.mem_cons_self
      · obtain rfl := Option.some.inj after
        exact inv.stands r under
    next other =>
      cases pulled
      have lost : Inv (f.now f.process.node (some { r with
          stage := .tailing, since := if f.process.node.peer = some r.peer then none else none })) :=
        inv.locks still (fun follows => absurd follows other) fun _ => rfl
      rw [if_neg other] at lost
      exact lost
  · cases pulled
    exact inv.ends still
  next ph late =>
    have begun : r.stage.begun = true := by rw [late]; rfl
    split at pulled
    · cases pulled
      exact inv.goesOn still under begun fun _ => by rw [late]; rfl
    · cases pulled
      exact inv.goesOn still under begun fun _ => by rw [late]; rfl
  next head answer commits late =>
    have begun : r.stage.begun = true := by rw [late]; rfl
    simp only [Option.bind_eq_bind, Option.bind_eq_some_iff, Option.pure_def,
      Option.some.injEq] at pulled
    obtain ⟨⟨adopted, n⟩, taken, rfl⟩ := pulled
    have stays : f.process.node.Stays (fun _ _ => True) n := (Node.TakesIn.takeCheckpoint taken).stays
    refine inv.goesOn stays under begun fun _ => ?_
    rw [late]
    rfl
  next head _ late =>
    have begun : r.stage.begun = true := by rw [late]; rfl
    cases pulled
    split
    · exact inv.ends still
    · exact inv.goesOn still under begun fun _ => by rw [late]; rfl
  next head rows commits late =>
    have begun : r.stage.begun = true := by rw [late]; rfl
    have tails : r.stage.tails = true := by rw [late]; rfl
    split at pulled
    · cases pulled
      exact inv.ends still
    · simp only [Option.bind_eq_bind, Option.bind_eq_some_iff, Option.pure_def,
        Option.some.injEq] at pulled
      obtain ⟨⟨goes, n⟩, taken, rfl⟩ := pulled
      have stays : f.process.node.Stays (fun _ _ => True) n :=
        Node.TakesIn.stays (.takePage (fun _ _ _ _ => trivial) taken)
      have kept : Inv
          (f.now n (if goes = true then some { r with stage := .next head } else none)) := by
        split
        · exact inv.goesOn stays under begun fun _ => tails
        · exact inv.ends stays
      -- A page that is put on the log comes from a peer that is followed still.
      cases follows : f.process.node.followsNot r.peer with
      | true =>
        exact ⟨kept.member, kept.settled, kept.counts, kept.tails, kept.stands, kept.ordered⟩
      | false =>
        have peer : f.process.node.peer = some r.peer := by
          simpa [Node.followsNot] using (Bool.or_eq_false_iff.mp follows).2
        have since := inv.counts r under begun peer
        refine ⟨kept.member, fun q follows owed => ?_, kept.counts,
          fun r' after tails term since => ?_,
          kept.stands, inv.ordered.cons fun _ _ _ same => ?_⟩
        · exact List.mem_cons_of_mem _ (kept.settled q follows owed)
        · exact List.mem_cons_of_mem _ (kept.tails r' after tails term since)
        · cases same
          exact inv.tails r under tails _ since
  · cases pulled
    exact inv

variable [DecidableEq H]

theorem step_inv {f f' : Follower A B H} (inv : Inv f) {e : FollowEvent B H} (seen : f.Seen e)
    (votes : Votes e) (stepped : f.step env readHard e = some f') : Inv f' := by
  cases e with
  | pull e =>
    rcases step_pull stepped with ⟨_, rfl⟩ | rfl | ⟨r, under, pulled⟩
    · exact begin_inv inv
    -- Without a round there is nothing to go on with.
    · exact inv
    · exact pull_inv inv under pulled
  | other e =>
    simp only [step] at stepped
    split at stepped
    · cases stepped
      exact inv
    next pulls =>
      obtain ⟨p, moved, rfl⟩ := Option.map_eq_some_iff.mp stepped
      cases restarts : e.restarts with
      | false => exact other_inv inv seen (by simpa using pulls) restarts moved
      | true =>
        cases e with
        | restart cfg => exact open_inv votes moved inv.ordered
        | _ => cases restarts

end Running

end Follower

end AkumaMiot

import AkumaMiot.Node.Ledger
import AkumaMiot.Node.Undiverged

/-!
# Replicas of one log

What holds of followers over whole runs. Whatever a process went through, once it follows it holds
what its log says. So followers of one log answer alike however they came by it, and a follower that
is started again answers as before. Only an extrinsic that is executed after the node was
demoted gets past this.
-/
namespace AkumaMiot

variable {A B H : Type}

/-- Heights fit their type, and no peer has a checkpoint at height 0. -/
def ProcessEvent.InRange : ProcessEvent B H → Prop
  | .checkpoint _ (some (height, _)) _ => 0 < height ∧ height < 2 ^ 64
  | .push _ _ _ (.checkpoint height _) => height < 2 ^ 64
  | _ => True

instance : (e : ProcessEvent B H) → Decidable e.InRange
  | .checkpoint _ (some (height, _)) _ => inferInstanceAs (Decidable (0 < height ∧ height < 2 ^ 64))
  | .push _ _ _ (.checkpoint height _) => inferInstanceAs (Decidable (height < 2 ^ 64))
  | .checkpoint _ none _ | .push _ _ _ (.rewind _) | .push _ _ _ (.blocks _) => isTrue trivial
  | .round .. | .voteRequest .. | .voteReply .. | .collected | .inbound .. | .close .. | .page ..
  | .rewind .. | .reconciled _ | .pushReconciled _ | .accept _ | .queue .. | .mempoolRound _
  | .turn _ | .answered _ | .turned _ | .restart _ => isTrue trivial

theorem ProcessEvent.InRange.offers {e : ProcessEvent B H} (inRange : e.InRange) :
    ∀ h state, e.Offers h state → 0 < h ∧ h < 2 ^ 64 := by
  intro h state offered
  unfold ProcessEvent.Offers at offered
  split at offered
  next peer height state commits =>
    subst offered
    exact inRange
  next leader now commits height state =>
    obtain ⟨rfl, rfl, above⟩ := offered
    exact ⟨above, inRange⟩
  · exact offered.elim

/-- Stores at the same point of the same chain are one log. -/
theorem SameChain.log_eq {s p : Store B B} (same : SameChain s p) {l m : ChainLog B B}
    (mine : Store.Holds s l) (theirs : Store.Holds p m) : l = m := by
  have base : l.base = m.base := mine.last.symm.trans (same.last.trans theirs.last)
  have head : l.head = m.head := mine.head.symm.trans (same.head.trans theirs.head)
  have state : l.state = m.state :=
    (Store.checkpointState_eq mine).symm.trans (same.state.trans (Store.checkpointState_eq theirs))
  have agree : ∀ h, l.base < h → h ≤ l.head → m.blockAt h = l.blockAt h := by
    intro h _ _
    exact (theirs.blocks h).symm.trans ((same.blocks h).symm.trans (mine.blocks h))
  have trails := ChainLog.Trails.of_agree base agree
  exact ChainLog.ext base state (trails.caught_up (Nat.le_of_eq head.symm))

section Executing

variable [DecidableEq A]

omit [DecidableEq A] in
theorem Env.feedFrom_opens {env : Env A B H} {height : Nat} {all all' : List (Entry A)}
    {bodies : List B} (fed : env.feedFrom height all bodies = some all') :
    ∀ b ∈ bodies, (env.openBody b).isSome = true := by
  induction bodies generalizing height all with
  | nil => exact nofun
  | cons body bodies ih =>
    simp only [Env.feedFrom, Option.bind_eq_bind, Option.bind_eq_some_iff] at fed
    obtain ⟨⟨effects, at_⟩, opens, fed⟩ := fed
    intro b member
    rcases List.mem_cons.mp member with rfl | member
    · rw [opens]
      rfl
    · exact ih fed b member

/-- Whoever holds what a log says can read the log again. -/
theorem Node.Folded.readable {env : Env A B H} {l : ChainLog B B} {n : Node A B H}
    (folded : Node.Folded env l n) : Readable env l := by
  obtain ⟨all, feed, _⟩ := folded.feed
  refine ⟨Env.feedFrom_opens feed, fun blob state => ?_⟩
  obtain ⟨base, based, _⟩ := Option.bind_eq_some_iff.mp folded.state
  simp only [Env.baseState, state] at based
  obtain ⟨ext, decodes, opened⟩ := Option.bind_eq_some_iff.mp based
  split at opened
  next number => exact ⟨ext, decodes, number⟩
  · cases opened

/-- Two that hold what one log says hold the same. -/
theorem Node.Folded.alike {env : Env A B H} {l : ChainLog B B} {n m : Node A B H}
    (mine : Node.Folded env l n) (theirs : Node.Folded env l m) :
    n.ext = m.ext ∧ n.log = m.log ∧ n.seq = m.seq ∧ n.block = m.block := by
  obtain ⟨all, feed, log, seq⟩ := mine.feed
  obtain ⟨all', feed', log', seq'⟩ := theirs.feed
  obtain rfl := Option.some.inj (feed.symm.trans feed')
  refine ⟨Option.some.inj (mine.state.symm.trans theirs.state), ?_, ?_, ?_⟩
  · rw [log, log']
  · rw [seq, seq']
  · rw [mine.block, theirs.block]

namespace Process

variable {env : Env A B H} {readHard : List UInt8 → Option Hard}

theorem open_replica {cfg : NodeConfig} {store : Store B B} {l : ChainLog B B}
    {p : Process A B H} (holds : Store.Holds store l)
    (opened : open_ env readHard cfg store = some p) : Node.Replica env p.node := by
  simp only [open_, Option.bind_eq_bind, Option.bind_eq_some_iff, Option.pure_def,
    Option.some.injEq] at opened
  obtain ⟨hard, _, n, opened, rfl⟩ := opened
  exact Node.reloadFromStore_replica rfl holds ((Node.open_reloads env store _).symm.trans opened)

variable [DecidableEq H]

/-- Nothing is executed late, and what a peer offers is in range. -/
def Replicates (p : Option (Process A B H)) (e : ProcessEvent B H) : Prop :=
  ∀ q ∈ p, ¬ q.Late e ∧ e.InRange

instance (p : Option (Process A B H)) (e : ProcessEvent B H) : Decidable (Replicates p e) :=
  inferInstanceAs (Decidable (∀ q ∈ p, ¬ q.Late e ∧ e.InRange))

theorem step_replica {p p' : Process A B H} {e : ProcessEvent B H}
    (replica : Node.Replica env p.node) (prompt : ¬ p.Late e) (inRange : e.InRange)
    (stepped : p.step env readHard e = some p') : Node.Replica env p'.node := by
  cases restarts : e.restarts with
  | false => exact (step_works restarts stepped).replica prompt inRange.offers replica
  | true =>
    cases e with
    | restart cfg =>
      obtain ⟨_, l, holds, _⟩ := replica
      have again : Store.Holds p.node.store.reopen l := by
        rw [Store.reopen_eq holds]
        exact holds
      exact open_replica again stepped
    | _ => cases restarts

theorem run_replica {cfg : NodeConfig} {store : Store B B} {l : ChainLog B B}
    (holds : Store.Holds store l) {p : Process A B H}
    (opened : open_ env readHard cfg store = some p) {events : List (ProcessEvent B H)}
    (replicates : Machine.Meets (next env readHard) Replicates (some p) events)
    {q : Process A B H}
    (reached : Machine.run (next env readHard) (some p) events = some q) :
    Node.Replica env q.node := by
  refine Machine.run_invariant (fun s => ∀ r : Process A B H, s = some r → Node.Replica env r.node)
    ?_ ?_ replicates q reached
  · intro s e replica ok r stepped
    obtain ⟨before, rfl, stepped⟩ := Option.bind_eq_some_iff.mp stepped
    obtain ⟨prompt, inRange⟩ := ok before rfl
    exact step_replica (replica before rfl) prompt inRange stepped
  · rintro r ⟨⟩
    exact open_replica holds opened

/-- In every run that executes nothing late, whoever follows holds exactly what its log says: chain
state, event log and its numbers, and nothing that was executed besides. -/
theorem replica_run (env : Env A B H) (readHard : List UInt8 → Option Hard) (cfg : NodeConfig)
    (store : Store B B) (l : ChainLog B B) (holds : Store.Holds store l) (p : Process A B H)
    (opened : open_ env readHard cfg store = some p) (events : List (ProcessEvent B H))
    (replicates : Machine.Meets (next env readHard) Replicates (some p) events)
    (q : Process A B H) (reached : Machine.run (next env readHard) (some p) events = some q)
    (follows : q.node.producing = false) :
    ∃ m, Store.Holds q.node.store m ∧ Node.Folded env m q.node := by
  obtain ⟨_, m, held, folded⟩ := run_replica holds opened replicates reached
  exact ⟨m, held, folded follows⟩

/-- Two processes that follow, with the same log after runs that execute nothing late, have the same
state and answer readers of their event logs alike. -/
theorem replicas_agree (env : Env A B H) (readHard readHard' : List UInt8 → Option Hard)
    (cfg cfg' : NodeConfig) (store store' : Store B B) (l l' : ChainLog B B)
    (holds : Store.Holds store l) (holds' : Store.Holds store' l') (p p' : Process A B H)
    (opened : open_ env readHard cfg store = some p)
    (opened' : open_ env readHard' cfg' store' = some p') (events events' : List (ProcessEvent B H))
    (replicates : Machine.Meets (next env readHard) Replicates (some p) events)
    (replicates' : Machine.Meets (next env readHard') Replicates (some p') events')
    (q q' : Process A B H) (reached : Machine.run (next env readHard) (some p) events = some q)
    (reached' : Machine.run (next env readHard') (some p') events' = some q')
    (follows : q.node.producing = false) (follows' : q'.node.producing = false)
    (same : SameChain q.node.store q'.node.store) :
    q.node.ext = q'.node.ext ∧ (∀ since, q.node.events since = q'.node.events since) ∧
      q.node.seq = q'.node.seq ∧ q.node.block = q'.node.block := by
  obtain ⟨m, held, folded⟩ :=
    replica_run env readHard cfg store l holds p opened events replicates q reached follows
  obtain ⟨m', held', folded'⟩ :=
    replica_run env readHard' cfg' store' l' holds' p' opened' events' replicates' q' reached'
      follows'
  obtain rfl := same.log_eq held held'
  obtain ⟨ext, log, seq, block⟩ := folded.alike folded'
  refine ⟨ext, fun since => ?_, seq, block⟩
  simp only [Node.events, log]

/-- After a run that executes nothing late, a follower that is started again on its store, under any
configuration, opens whenever the election's state there can be read, and then has the state and the
event log it had. -/
theorem restart_run (env : Env A B H) (readHard : List UInt8 → Option Hard) (cfg cfg' : NodeConfig)
    (store : Store B B) (l : ChainLog B B) (holds : Store.Holds store l) (p : Process A B H)
    (opened : open_ env readHard cfg store = some p) (events : List (ProcessEvent B H))
    (replicates : Machine.Meets (next env readHard) Replicates (some p) events)
    (q : Process A B H) (reached : Machine.run (next env readHard) (some p) events = some q)
    (follows : q.node.producing = false)
    (reads : (storedHard readHard q.node.store).isSome = true) :
    ∃ r, q.step env readHard (.restart cfg') = some r ∧ r.node.ext = q.node.ext ∧
      r.node.log = q.node.log ∧ r.node.seq = q.node.seq ∧ r.node.block = q.node.block := by
  obtain ⟨m, held, folded⟩ :=
    replica_run env readHard cfg store l holds p opened events replicates q reached follows
  have reopened := Store.reopen_eq held
  obtain ⟨hard, read⟩ := Option.isSome_iff_exists.mp reads
  have opens : ∀ mesh, ∃ n, Node.open_ env q.node.store mesh = some n ∧ Node.Folded env m n := by
    intro mesh
    have held : Store.Holds (Node.started env q.node.store mesh).store m := held
    obtain ⟨n, reloaded, _⟩ := Node.reloadFromStore_returns folded.readable held
    exact ⟨n, (Node.open_reloads env q.node.store mesh).trans reloaded,
      Node.reloadFromStore_folded rfl held reloaded⟩
  let mesh := Mesh.new cfg'.name cfg'.peers cfg'.timing hard 0 (seed cfg'.name)
  obtain ⟨n, opens, again⟩ := opens (if cfg'.learner then mesh.asLearner else mesh)
  refine ⟨⟨n, none, [], none⟩, ?_, again.alike folded⟩
  simp only [step, open_, reopened, read, Option.bind_eq_bind, Option.bind_some]
  rw [opens]
  rfl

end Process

end Executing

/-! ## A member deposed, and another that pulls -/

namespace Process

/-- "b" says that it leads a later term. -/
def rival : ProcessEvent (Plain Nat) (Plain Nat) :=
  .inbound ⟨"b", "", 5, .leader, some "b", 0, 4⟩ [] 9003 true

/-- A member leads, seals a call in its first block, executes another and is deposed. -/
def deposed : List (ProcessEvent (Plain Nat) (Plain Nat)) :=
  [.round [] 9000 9000 true, .accept openTask, .close 9002 {},
    .accept (.extrinsic ⟨0, 1, .openParent "more"⟩), rival]

/-- Another hears of it and pulls its first block. -/
def pulled : List (ProcessEvent (Plain Nat) (Plain Nat)) :=
  [.round [("a", ⟨"a", "", 1, .leader, some "a", 1, 1⟩)] 0 0 true,
    .page "a" [⟨1, some (.body [.opened 0 ⟨1, 0⟩ "build"] (some 9002))⟩] {}]

/-- What is asked of either here. -/
def outlined (q : Process Nat (Plain Nat) (Plain Nat)) : Bool × Nat × Nat × Option (Plain Nat) :=
  (q.node.producing, q.node.store.lastCheckpoint, q.node.store.head, q.node.store.block 1)

/-- A log of one block. -/
theorem log_of_one {s : Store (Plain Nat) (Plain Nat)} {m : ChainLog (Plain Nat) (Plain Nat)}
    {b : Plain Nat} (holds : Store.Holds s m) (last : s.lastCheckpoint = 0) (head : s.head = 1)
    (first : s.block 1 = some b) : m = ChainLog.genesis.push b := by
  have base : m.base = 0 := holds.last.symm.trans last
  have top : m.head = 1 := holds.head.symm.trans head
  have there : m.blockAt 1 = some b := (holds.blocks 1).symm.trans first
  refine ChainLog.ext base (m.state_none base) ?_
  rw [ChainLog.blockAt, if_pos (by omega), base] at there
  have one : m.blocks.length = 1 := by
    unfold ChainLog.head at top
    omega
  obtain ⟨x, only⟩ := List.length_eq_one_iff.mp one
  rw [only] at there ⊢
  obtain rfl : x = b := by simpa using there
  rfl

def theFirst : Plain Nat := .body [.opened 0 ⟨1, 0⟩ "build"] (some 9002)

theorem solo_opens : open_ soloEnv (fun _ => some {}) soloConfig (.openDb Store.emptyDb) =
    some soloProcess := rfl

theorem second_opens : open_ soloEnv (fun _ => some {}) Follower.secondConfig
    (.openDb Store.emptyDb) = some Follower.secondProcess := rfl

theorem deposed_outlined : (Machine.run (next soloEnv fun _ => some {}) (some soloProcess)
    deposed).map outlined = some (false, 0, 1, some theFirst) := by
  decide +kernel

theorem pulled_outlined : (Machine.run (next soloEnv fun _ => some {})
    (some Follower.secondProcess) pulled).map outlined = some (false, 0, 1, some theFirst) := by
  decide +kernel

theorem replica_run_deposed : ∃ q, Machine.run (next soloEnv fun _ => some {}) (some soloProcess)
      deposed = some q ∧
    ∃ m, Store.Holds q.node.store m ∧ Node.Folded soloEnv m q.node := by
  obtain ⟨q, reached, outline⟩ := Option.map_eq_some_iff.mp deposed_outlined
  obtain ⟨follows, _⟩ := Prod.mk.inj outline
  exact ⟨q, reached, replica_run soloEnv _ soloConfig _ .genesis Store.openDb_empty soloProcess
    solo_opens deposed (by decide +kernel) q reached follows⟩

theorem replicas_agree_pulled : ∃ q q',
    Machine.run (next soloEnv fun _ => some {}) (some soloProcess) deposed = some q ∧
    Machine.run (next soloEnv fun _ => some {}) (some Follower.secondProcess) pulled = some q' ∧
    q.node.ext = q'.node.ext ∧ (∀ since, q.node.events since = q'.node.events since) ∧
      q.node.seq = q'.node.seq ∧ q.node.block = q'.node.block := by
  obtain ⟨q, reached, outline⟩ := Option.map_eq_some_iff.mp deposed_outlined
  obtain ⟨q', reached', outline'⟩ := Option.map_eq_some_iff.mp pulled_outlined
  simp only [outlined, Prod.mk.injEq] at outline outline'
  obtain ⟨follows, last, head, first⟩ := outline
  obtain ⟨follows', last', head', first'⟩ := outline'
  have meets : Machine.Meets (next soloEnv fun _ => some {}) Replicates (some soloProcess)
      deposed := by
    decide +kernel
  have meets' : Machine.Meets (next soloEnv fun _ => some {}) Replicates
      (some Follower.secondProcess) pulled := by
    decide +kernel
  obtain ⟨_, m, held, _⟩ := run_replica Store.openDb_empty solo_opens meets reached
  obtain ⟨_, m', held', _⟩ := run_replica Store.openDb_empty second_opens meets' reached'
  obtain rfl := log_of_one held last head first
  obtain rfl := log_of_one held' last' head' first'
  exact ⟨q, q', reached, reached', replicas_agree soloEnv _ _ soloConfig Follower.secondConfig _ _
    .genesis .genesis Store.openDb_empty Store.openDb_empty soloProcess Follower.secondProcess
    solo_opens second_opens deposed pulled meets meets' q q' reached reached' follows follows'
    (.of_holds held held')⟩

theorem restart_run_deposed : ∃ q r, Machine.run (next soloEnv fun _ => some {}) (some soloProcess)
      deposed = some q ∧ q.step soloEnv (fun _ => some {}) (.restart Follower.secondConfig) = some r ∧
    r.node.ext = q.node.ext ∧ r.node.log = q.node.log ∧ r.node.seq = q.node.seq ∧
      r.node.block = q.node.block := by
  obtain ⟨q, reached, outline⟩ := Option.map_eq_some_iff.mp deposed_outlined
  obtain ⟨follows, _⟩ := Prod.mk.inj outline
  have reads : (storedHard (fun _ => some {}) q.node.store).isSome = true := by
    unfold storedHard
    split <;> rfl
  obtain ⟨r, opens, same⟩ := restart_run soloEnv (fun _ => some {}) soloConfig
    Follower.secondConfig _ .genesis Store.openDb_empty soloProcess solo_opens deposed
    (by decide +kernel) q reached follows reads
  exact ⟨q, r, reached, opens, same⟩

/-- An entry is taken up while the node leads and executed once it does not: what it did is in the
follower's state and in no block. -/
theorem replica_run_late : ∃ q, Machine.run (next soloEnv fun _ => some {}) (some soloProcess)
      [.queue openTask 0, .round [] 9000 9000 true, .mempoolRound 9001, .turn openTask, rival,
        .turned false] = some q ∧
    q.node.producing = false ∧ ∀ m, ¬ Node.Folded soloEnv m q.node := by
  have told : (Machine.run (next soloEnv fun _ => some {}) (some soloProcess) [.queue openTask 0,
      .round [] 9000 9000 true, .mempoolRound 9001, .turn openTask, rival, .turned false]).map
        (fun q => (q.node.producing, q.node.pending.length)) = some (false, 1) := by
    decide +kernel
  obtain ⟨q, reached, outline⟩ := Option.map_eq_some_iff.mp told
  obtain ⟨follows, waiting⟩ := Prod.mk.inj outline
  refine ⟨q, reached, follows, fun m folded => ?_⟩
  rw [folded.pending] at waiting
  cases waiting

end Process

end AkumaMiot

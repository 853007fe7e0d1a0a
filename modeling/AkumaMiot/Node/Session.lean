import AkumaMiot.Lib.Machine
import AkumaMiot.Node.Converge
import AkumaMiot.Node.Push

/-!
# Push sessions over whole terms

A primary compares logs with a peer once in its term. From then on the peer's log is behind
the primary's: a later session may adopt or append and needs to compare nothing. This stands
as long as the rewind that a comparison calls for is carried out.
-/
namespace AkumaMiot

variable {A B H : Type}

namespace Node

/-! ## The two stores -/

section Executing

variable [DecidableEq A]

theorem followMesh_holds {env : Env A B H} {n n' : Node A B H} {now : Nat} {commits : Bool}
    {l : ChainLog B B} (holds : Store.Holds n.store l)
    (followed : n.followMesh env now commits = some n') : Store.Holds n'.store l := by
  rw [(followMesh_elsewhere followed).2]
  exact saveHard_holds holds env commits

end Executing

/-- A primary's log only moves on, and nothing else a session reads changes when it closes a
block. -/
theorem advance_behind {env : Env A B H} {n n' : Node A B H} {at_ : Nat} {commits : Commits}
    {l : ChainLog B B} (holds : Store.Holds n.store l) (opened : 0 < n.block)
    (advanced : n.advance env at_ commits = some n') :
    0 < n'.block ∧ n'.producing = n.producing ∧ n'.mesh.term = n.mesh.term ∧
      n'.pushReconciled = n.pushReconciled ∧
      ∃ l', Store.Holds n'.store l' ∧ l.Behind l' := by
  obtain ⟨m, next, rfl⟩ := Option.map_eq_some_iff.mp advanced
  obtain rfl := initializeBlock_eq next
  rw [drainAbsorb_eq]
  have kept : (n.persist env n.block at_ commits).block = n.block ∧
      (n.persist env n.block at_ commits).producing = n.producing ∧
      (n.persist env n.block at_ commits).mesh.term = n.mesh.term ∧
      (n.persist env n.block at_ commits).pushReconciled = n.pushReconciled ∧
      ∃ l', Store.Holds (n.persist env n.block at_ commits).store l' ∧ l.Behind l' := by
    unfold persist stampBlock
    simp only
    rcases Store.append_refines holds commits.append n.block (env.sealBody n.pending at_) with
      ⟨why, refused⟩ | ⟨height, _, store, appended, pushed, _⟩
    · rw [refused]
      exact ⟨rfl, rfl, rfl, rfl, l, holds, .refl l⟩
    · -- The open block is not block 0, so its height did not wrap.
      have room : n.store.head + 1 < 2 ^ 64 := by
        have small : n.store.head < 2 ^ 64 := holds.head ▸ holds.small
        refine Nat.lt_of_le_of_ne small fun full => ?_
        rw [u64Succ, full, Nat.mod_self] at height
        omega
      have term : ∀ m : Mesh, m.appended.takeDirty.2.term = m.term := by
        intro m
        unfold Mesh.appended Mesh.takeDirty Mesh.term
        simp only
        split <;> rfl
      simp only [appended]
      have held := saveHard_holds
        (n := { n with store := store, mesh := n.mesh.appended
                       log := n.log.map fun e =>
                        if e.block = n.block then { e with at_ := some at_ } else e })
        (pushed room) env commits.aux
      rw [saveHard_eq]
      exact ⟨rfl, rfl, term n.mesh, rfl, _, held, .push l _⟩
  obtain ⟨block, producing, term, marks, l', holds', behind⟩ := kept
  simp only
  split
  · unfold compactAt
    simp only
    refine ⟨by omega, producing, term, marks, ?_⟩
    rcases Store.compact_refines holds' commits.compact n.block
        (env.encodeSnapshot (n.persist env n.block at_ commits).ext) with
      ⟨why, refused⟩ | ⟨_, _, above, _, store, compacted, held, _⟩
    · simp only [refused]
      exact ⟨l', holds', behind⟩
    · simp only [compacted]
      exact ⟨_, held, behind.trans (.compactTo l' _ above)⟩
  · exact ⟨by omega, producing, term, marks, l', holds', behind⟩

/-! ## Comparing -/

/-- Pages may be lost; a fork point that was found is one. -/
theorem forkAgainst_spec [DecidableEq B] {ours theirs : Store B B} {f : ChainLog B B}
    (holds : Store.Holds theirs f) (short : f.head + 1 < 2 ^ 64) {pages : Nat}
    {answered : Nat → Bool} {fuel fork start found : Nat} (next : fork + 1 = start)
    (above : f.base < start) (below : fork ≤ f.head)
    (went : forkAgainst ours theirs pages answered f.head fuel fork start = some found) :
    fork ≤ found ∧ found ≤ f.head ∧
      ∀ h, start ≤ h → h ≤ found → ours.block h = f.blockAt h := by
  induction fuel generalizing fork start with
  | zero => simp [forkAgainst] at went
  | succ fuel ih =>
    have stop : fork = found → fork ≤ found ∧ found ≤ f.head ∧
        ∀ h, start ≤ h → h ≤ found → ours.block h = f.blockAt h := by
      rintro rfl
      exact ⟨Nat.le_refl _, below, fun h low high => by omega⟩
    unfold forkAgainst at went
    split at went
    next inside =>
      simp only [Option.bind_eq_bind] at went
      split at went
      next answers =>
        obtain ⟨rows, asked, went⟩ := Option.bind_eq_some_iff.mp went
        split at went
        · exact stop (Option.some.inj went)
        next some =>
          -- The page is what the peer's log has there.
          rw [Store.chainBlocks, Store.rowsFrom_eq holds short above, Nat.min_self] at asked
          split at asked
          next enough =>
            obtain rfl := Option.some.inj asked
            generalize counted : min syncPage (f.head + 1 - start) = count at went some
            have inside' : start + count ≤ f.head + 1 := by omega
            obtain ⟨reads, length⟩ := f.decodedBodies_rows above inside'
            rw [ChainLog.rows_eq_nil] at some
            have positive : 0 < start := by omega
            obtain ⟨low, high, same, _⟩ := ours.forkPoint_spec positive (by rw [length]; omega) reads
            rw [length] at high
            simp only [length, ChainLog.length_rows, Nat.lt_irrefl, or_false] at went
            have last : (start + count + (2 ^ 64 - 1)) % 2 ^ 64 = start + count - 1 := by
              rw [show start + count + (2 ^ 64 - 1) = start + count - 1 + 2 ^ 64 by omega,
                Nat.add_mod_right, Nat.mod_eq_of_lt (by omega)]
            rw [last, Nat.mod_eq_of_lt (by omega)] at went
            split at went
            · obtain rfl := Option.some.inj went
              exact ⟨by omega, by omega, same⟩
            next all =>
              obtain ⟨more, within, rest⟩ := ih (by omega) (by omega) (by omega) went
              refine ⟨by omega, within, fun h from_ upto => ?_⟩
              by_cases early : h < start + count
              · exact same h from_ (by omega)
              · exact rest h (by omega) upto
          · simp at asked
      · exact stop (Option.some.inj went)
    · exact stop (Option.some.inj went)

/-! ## Receiving -/

section Executing

variable [DecidableEq A]

/-- A reply says where the peer is. -/
theorem takePush_reply {env : Env A B H} {n n' : Node A B H} {commits : PushCommits}
    {op : PushOp B} {reply : PushReply} (taken : n.takePush env commits op = some (reply, n')) :
    reply.head = n'.store.head ∧ reply.lastCheckpoint = n'.store.lastCheckpoint := by
  -- The reply is made from the node as the operation leaves it, whatever the answer.
  cases op with
  | checkpoint height state =>
    simp only [takePush] at taken
    split at taken
    · cases state with
      | none =>
        cases taken
        exact ⟨rfl, rfl⟩
      | some state =>
        simp only at taken
        split at taken
        · cases taken
          exact ⟨rfl, rfl⟩
        · simp only [Option.bind_eq_bind, Option.bind_eq_some_iff, Option.pure_def] at taken
          obtain ⟨m, _, taken⟩ := taken
          cases taken
          exact ⟨rfl, rfl⟩
    · cases taken
      exact ⟨rfl, rfl⟩
  | rewind fork =>
    simp only [takePush] at taken
    split at taken
    · split at taken
      · cases taken
        exact ⟨rfl, rfl⟩
      · simp only [Option.bind_eq_bind, Option.bind_eq_some_iff, Option.pure_def] at taken
        obtain ⟨m, _, taken⟩ := taken
        cases taken
        exact ⟨rfl, rfl⟩
    · cases taken
      exact ⟨rfl, rfl⟩
  | blocks rows =>
    simp only [takePush, Option.bind_eq_bind, Option.bind_eq_some_iff] at taken
    obtain ⟨⟨why, m⟩, _, taken⟩ := taken
    cases why with
    | none =>
      cases taken
      exact ⟨rfl, rfl⟩
    | some why =>
      cases taken
      exact ⟨rfl, rfl⟩

/-- A checkpoint past the peer's own is refused or taken. -/
theorem takePush_checkpoint {env : Env A B H} {n n' : Node A B H} {commits : PushCommits}
    {f : ChainLog B B} (holds : Store.Holds n.store f) {height : Nat} {state : B}
    {reply : PushReply} (ahead : f.base < height) (small : height < 2 ^ 64)
    (taken : n.takePush env commits (.checkpoint height (some state)) = some (reply, n')) :
    (reply.accepted = false ∧ Store.Holds n'.store f) ∨
      ∃ above, Store.Holds n'.store (.trusted height state above) := by
  simp only [takePush, holds.last, if_pos ahead] at taken
  rcases Store.adoptCheckpoint_refines holds commits.checkpoint (by omega) small state with
    ⟨why, refused⟩ | ⟨_, store, adopted, held, _⟩
  · rw [refused] at taken
    cases taken
    exact .inl ⟨rfl, holds⟩
  · simp only [adopted, Option.bind_eq_bind, Option.bind_eq_some_iff, Option.pure_def] at taken
    obtain ⟨m, reloaded, taken⟩ := taken
    cases taken
    refine .inr ⟨by omega, saveHard_holds (n := { m with mesh := m.mesh.appended }) ?_ env _⟩
    rw [reloadFromStore_refolded reloaded]
    exact held

/-- A rewind below the peer's head is refused or taken. -/
theorem takePush_rewind {env : Env A B H} {n n' : Node A B H} {commits : PushCommits}
    {f : ChainLog B B} (holds : Store.Holds n.store f) {fork : Nat} {reply : PushReply}
    (below : fork < f.head)
    (taken : n.takePush env commits (.rewind fork) = some (reply, n')) :
    (commits.rewind = false ∧ reply.accepted = false ∧ Store.Holds n'.store f) ∨
      Store.Holds n'.store (f.rewind fork) := by
  simp only [takePush, holds.head, if_pos below] at taken
  cases committed : commits.rewind with
  | false =>
    simp only [committed, Store.rewindForFork, Bool.not_false, if_true] at taken
    cases taken
    exact .inl ⟨rfl, rfl, holds⟩
  | true =>
    obtain ⟨r, store, rewound, held⟩ := holds.rewindForFork fork
    simp only [committed, rewound, Option.bind_eq_bind, Option.bind_eq_some_iff,
      Option.pure_def] at taken
    obtain ⟨m, reloaded, taken⟩ := taken
    cases taken
    refine .inr ?_
    rw [reloadFromStore_refolded reloaded]
    exact held

/-- Rows of a log go onto a log that trails it. -/
theorem pushRows_trails {env : Env A B H} {commits : Nat → Bool} {l : ChainLog B B}
    {rows : List (BlockRow B)} (each : ∀ row ∈ rows, row.body = l.blockAt row.height)
    {n n' : Node A B H} {f : ChainLog B B} (holds : Store.Holds n.store f) (trails : f.Trails l)
    {why : Option PushRefusal} (pushed : n.pushRows env commits rows = some (why, n')) :
    ∃ f', Store.Holds n'.store f' ∧ f'.Trails l ∧ f'.state = f.state := by
  induction rows generalizing n f with
  | nil =>
    cases pushed
    exact ⟨f, holds, trails, rfl⟩
  | cons row rows ih =>
    have rest : ∀ r ∈ rows, r.body = l.blockAt r.height := fun r member => each r (by simp [member])
    unfold pushRows at pushed
    simp only at pushed
    split at pushed
    · exact ih rest holds trails pushed
    next above =>
      split at pushed
      · cases pushed
        exact ⟨f, holds, trails, rfl⟩
      next contiguous =>
        split at pushed
        · cases pushed
          exact ⟨f, holds, trails, rfl⟩
        next body isBody =>
          split at pushed
          · cases pushed
            exact ⟨f, holds, trails, rfl⟩
          next effects at_ opens =>
            rcases Store.append_refines holds (commits row.height) row.height body with
              ⟨why, refused⟩ | ⟨height, _, store, appended, held, _⟩
            · rw [refused] at pushed
              cases pushed
              exact ⟨f, holds, trails, rfl⟩
            · -- A row above the head is not one that wrapped around to it.
              have small := holds.small
              have at_head := holds.head
              have room : n.store.head + 1 < 2 ^ 64 := by
                refine Nat.lt_of_le_of_ne (at_head ▸ small) fun full => above ?_
                rw [height, u64Succ, full, Nat.mod_self]
                exact Nat.zero_le _
              rw [u64Succ_of_lt room, at_head] at height
              have there : l.blockAt (f.head + 1) = some body := by
                rw [← height, ← each row (by simp)]
                exact isBody
              simp only [appended, Option.bind_eq_bind, Option.bind_eq_some_iff] at pushed
              obtain ⟨m, applied, pushed⟩ := pushed
              have frame := applyBlock_eq applied
              exact ih (n := { m with mesh := m.mesh.appended }) (f := f.push body) rest
                (by rw [frame]; exact held room) (trails.push there) pushed

theorem takePush_blocks {env : Env A B H} {n n' : Node A B H} {commits : PushCommits}
    {f l : ChainLog B B} (holds : Store.Holds n.store f) {rows : List (BlockRow B)}
    {reply : PushReply} (each : ∀ row ∈ rows, row.body = l.blockAt row.height)
    (trails : f.Trails l) (taken : n.takePush env commits (.blocks rows) = some (reply, n')) :
    ∃ f', Store.Holds n'.store f' ∧ f'.Trails l ∧ f'.state = f.state := by
  simp only [takePush, Option.bind_eq_bind, Option.bind_eq_some_iff] at taken
  obtain ⟨⟨why, m⟩, pushed, taken⟩ := taken
  obtain ⟨f', held, trails', state⟩ := pushRows_trails each holds trails pushed
  cases why with
  | none =>
    cases taken
    exact ⟨f', saveHard_holds held env _, trails', state⟩
  | some why =>
    cases taken
    exact ⟨f', held, trails', state⟩

end Executing

/-! ## What to tell a peer -/

/-- What each step of a primary is an answer to. -/
def Answers (n : Node A B H) (route : Route) (theirs : ChainHead) : PushStep B → Prop
  | .done => theirs.lastCheckpoint = n.store.lastCheckpoint ∧
      (route, n.mesh.term) ∈ n.pushReconciled
  | .stateless => True
  | .compare => theirs.lastCheckpoint = n.store.lastCheckpoint
  | .send (.rewind fork) => n.store.lastCheckpoint < theirs.lastCheckpoint ∧
      fork = theirs.lastCheckpoint - 1
  | .send (.checkpoint height state) => theirs.lastCheckpoint < height ∧
      height = n.store.lastCheckpoint ∧ state.isSome = true ∧ n.store.checkpointState = state
  | .send (.blocks rows) => theirs.lastCheckpoint = n.store.lastCheckpoint ∧
      (route, n.mesh.term) ∈ n.pushReconciled ∧
      ∀ row ∈ rows, row.body = n.store.block row.height

theorem pushNext_answers {n : Node A B H} (leads : n.producing = true) {fuel : Nat} {route : Route}
    {theirs : ChainHead} {step : PushStep B} (next : n.pushNext fuel route theirs = some step) :
    n.Answers route theirs step := by
  unfold pushNext at next
  simp only [leads, Bool.not_true, Bool.false_eq_true, if_false] at next
  split at next
  next ahead =>
    obtain rfl := Option.some.inj next
    exact ⟨ahead, rfl⟩
  next notAhead =>
    split at next
    next behind =>
      split at next
      · obtain rfl := Option.some.inj next
        trivial
      next state read =>
        obtain rfl := Option.some.inj next
        exact ⟨behind, rfl, rfl, read⟩
    next notBehind =>
      -- Neither checkpoint is ahead of the other.
      have level := Nat.le_antisymm (Nat.not_lt.mp notAhead) (Nat.not_lt.mp notBehind)
      split at next
      · obtain rfl := Option.some.inj next
        exact level
      next marked =>
        split at next
        · obtain ⟨rows, served, rfl⟩ := Option.map_eq_some_iff.mp next
          exact ⟨level, not_not.mp marked, Store.rowsFrom_reads served⟩
        · obtain rfl := Option.some.inj next
          exact ⟨level, not_not.mp marked⟩

end Node

namespace Link

/-! ## The invariant -/

/-- A primary of log `l` and a peer of log `f`. Once they were compared in this term, the
peer is behind. -/
structure Together (route : Route) (leader follower : Node A B H) (l f : ChainLog B B) :
    Prop where
  leads : leader.producing = true
  opened : 0 < leader.block
  ours : Store.Holds leader.store l
  theirs : Store.Holds follower.store f
  marked : (route, leader.mesh.term) ∈ leader.pushReconciled → f.Behind l

/-- A session knows where the peer is, and one that has ended well at the primary's head left
the peer with the primary's log. -/
def Inv (route : Route) (k : Link A B H) : Prop :=
  ∃ l f, Together route k.leader k.follower l f ∧
    (∀ s, k.session = some s → s.theirs = ⟨f.head, f.base⟩) ∧
    (k.ended = some true → f.head = l.head → f = l)

namespace Together

variable {route : Route} {k : Link A B H} {l f : ChainLog B B}

theorem fails (both : Together route k.leader k.follower l f) : Inv route k.fails :=
  ⟨l, f, both, by simp [Link.fails], by simp [Link.fails]⟩

theorem succeeds (both : Together route k.leader k.follower l f)
    (caught : f.head = l.head → f = l) : Inv route k.succeeds :=
  ⟨l, f, both, by simp [Link.succeeds], fun _ => caught⟩

theorem continues (both : Together route k.leader k.follower l f)
    (caught : f.head = l.head → f = l) (s : PushSession) :
    Inv route (k.continues s ⟨f.head, f.base⟩) := by
  unfold Link.continues
  split
  · exact both.succeeds caught
  · refine ⟨l, f, both, fun s' same => ?_, by simp⟩
    obtain rfl := Option.some.inj same
    rfl

end Together

/-! ## One round -/

section Running

variable [DecidableEq A]

/-- What the peer does with an operation that reaches it. -/
def Takes (k : Link A B H) (env : Env A B H) (account : String) (fate : PushFate) : Prop :=
  fate.request = true ∧ ∀ n, k.follower.hear env
      (k.leader.mesh.status k.leader.store.head account) fate.now fate.commits.aux = some n →
    n.producing = false ∧
      n.mesh.acceptsPushFrom (k.leader.mesh.status k.leader.store.head account) = true

instance (k : Link A B H) (env : Env A B H) (account : String) (fate : PushFate) :
    Decidable (k.Takes env account fate) :=
  let status := k.leader.mesh.status k.leader.store.head account
  decidable_of_iff (fate.request = true ∧
      (k.follower.hear env status fate.now fate.commits.aux).all
        (fun n => !n.producing && n.mesh.acceptsPushFrom status) = true)
    (by simp [Takes, status, Option.all_eq_true])

/-- One operation sent: the peer's store is as it was, or what the operation makes of it. -/
theorem sends_inv {route : Route} {k k' : Link A B H} {l f : ChainLog B B}
    (both : ∀ {follower : Node A B H} {f' : ChainLog B B}, Store.Holds follower.store f' →
      ((route, k.leader.mesh.term) ∈ k.leader.pushReconciled → f'.Behind l) →
      Together route k.leader follower l f')
    (theirs : Store.Holds k.follower.store f) {env : Env A B H} {account : String}
    {s : PushSession} {fate : PushFate} {op : PushOp B}
    (kept : ¬ (k.Takes env account fate ∧ fate.commits.rewind = true) →
      (route, k.leader.mesh.term) ∈ k.leader.pushReconciled → f.Behind l)
    (outcome : ∀ {n n' : Node A B H} {reply : PushReply}, Store.Holds n.store f →
      n.takePush env fate.commits op = some (reply, n') →
      (reply.accepted = false ∧ Store.Holds n'.store f ∧
        ((route, k.leader.mesh.term) ∈ k.leader.pushReconciled → f.Behind l)) ∨
      ∃ f', Store.Holds n'.store f' ∧
        ((route, k.leader.mesh.term) ∈ k.leader.pushReconciled → f'.Behind l) ∧
        (reply.accepted = true → f'.head = l.head → f' = l))
    (sent : k.sends env account s fate op = some k') : Inv route k' := by
  unfold sends at sent
  cases request : fate.request with
  -- The request never arrived: nothing happened to the peer.
  | false =>
    simp only [request, Bool.not_false, if_true] at sent
    obtain rfl := Option.some.inj sent
    exact (both theirs (kept fun takes => by simp [takes.1.1] at request)).fails
  | true =>
    simp only [request, Bool.not_true, Bool.false_eq_true, if_false, Node.chainPush,
      Option.bind_eq_bind, Option.bind_eq_some_iff] at sent
    obtain ⟨⟨reply, n'⟩, ⟨n, heard, taken⟩, sent⟩ := sent
    have holds : Store.Holds n.store f := Node.followMesh_holds
      (n := { k.follower with mesh := k.follower.mesh.onInbound _ fate.now }) theirs heard
    split at taken
    -- The peer heard it and refused to be pushed to.
    next refuses =>
      cases taken
      have stays := kept fun takes => by
        obtain ⟨folding, accepts⟩ := takes.1.2 n' heard
        simp [folding, accepts] at refuses
      have left : Inv route ({ k with follower := n' }.fails) := (both holds stays).fails
      simp only [Node.pushReply, Option.isNone_some, Bool.not_false, if_true, ite_self] at sent
      obtain rfl := Option.some.inj sent
      exact left
    -- The peer ran the operation, and its reply says where it is now.
    next accepts =>
      obtain ⟨atHead, atBase⟩ := Node.takePush_reply taken
      rcases outcome holds taken with ⟨refused, held, stays⟩ | ⟨f', held, behind, caught⟩
      · have left : Inv route ({ k with follower := n' }.fails) := (both held stays).fails
        simp only [refused, Bool.not_false, if_true, ite_self] at sent
        obtain rfl := Option.some.inj sent
        exact left
      · have after := both held behind
        split at sent
        · obtain rfl := Option.some.inj sent
          exact after.fails (k := { k with follower := n' })
        · split at sent
          · obtain rfl := Option.some.inj sent
            exact after.fails (k := { k with follower := n' })
          next accepted =>
            obtain rfl := Option.some.inj sent
            rw [atHead, atBase, held.head, held.last]
            exact after.continues (k := { k with follower := n' })
              (caught (by simpa using accepted)) s

variable [DecidableEq B]

/-- When a comparison is sound: the checkpoints it takes to be the same have one state, and the
rewind it calls for is carried out. -/
def SoundCompare (k : Link A B H) (env : Env A B H) (fuel : Nat) (account : String)
    (s : PushSession) (fate : PushFate) : Prop :=
  s.theirs.head + 1 < 2 ^ 64 ∧
    k.leader.store.checkpointState = k.follower.store.checkpointState ∧
    ∀ fork, Node.forkAgainst k.leader.store k.follower.store fuel fate.answered s.theirs.head
        fuel s.theirs.lastCheckpoint (u64Succ s.theirs.lastCheckpoint) = some fork →
      fork < s.theirs.head → k.Takes env account fate ∧ fate.commits.rewind = true

instance (k : Link A B H) (env : Env A B H) (fuel : Nat) (account : String) (s : PushSession)
    (fate : PushFate) : Decidable (k.SoundCompare env fuel account s fate) :=
  decidable_of_iff (s.theirs.head + 1 < 2 ^ 64 ∧
      k.leader.store.checkpointState = k.follower.store.checkpointState ∧
      (Node.forkAgainst k.leader.store k.follower.store fuel fate.answered s.theirs.head
        fuel s.theirs.lastCheckpoint (u64Succ s.theirs.lastCheckpoint)).all
        (fun fork => decide (fork < s.theirs.head →
          k.Takes env account fate ∧ fate.commits.rewind = true)) = true)
    (by simp only [SoundCompare, Option.all_eq_true, decide_eq_true_eq])

theorem round_inv {env : Env A B H} {fuel : Nat} {route : Route} {account : String}
    {k k' : Link A B H} {s : PushSession} {fate : PushFate} {l f : ChainLog B B}
    (both : Together route k.leader k.follower l f) (here : s.theirs = ⟨f.head, f.base⟩)
    (sound : k.leader.pushNext fuel route s.theirs = some .compare →
      k.SoundCompare env fuel account s fate)
    (went : k.round env fuel route account s fate = some k') : Inv route k' := by
  have small : l.base < 2 ^ 64 := Nat.lt_of_le_of_lt l.base_le_head both.ours.small
  have again : ∀ {follower : Node A B H} {f' : ChainLog B B}, Store.Holds follower.store f' →
      ((route, k.leader.mesh.term) ∈ k.leader.pushReconciled → f'.Behind l) →
      Together route k.leader follower l f' := fun held marked =>
    ⟨both.leads, both.opened, both.ours, held, marked⟩
  unfold round at went
  simp only [Option.bind_eq_bind, Option.bind_eq_some_iff] at went
  obtain ⟨step, next, went⟩ := went
  have answers := Node.pushNext_answers both.leads next
  rw [here] at answers
  cases step with
  | done =>
    obtain ⟨level, marked⟩ := answers
    obtain rfl := Option.some.inj went
    exact both.succeeds ((both.marked marked).eq (level.trans both.ours.last))
  | stateless =>
    obtain rfl := Option.some.inj went
    exact both.fails
  | send op =>
    refine sends_inv again both.theirs (fun _ => both.marked) ?_ went
    intro n n' reply holds taken
    cases op with
    | rewind fork =>
      -- The peer compacted where the primary never did: back to genesis.
      obtain ⟨ahead, rfl⟩ := answers
      have below := f.base_le_head
      rw [both.ours.last] at ahead
      simp only at ahead taken
      rcases Node.takePush_rewind holds (by omega) taken with ⟨_, refused, held⟩ | held
      · exact .inl ⟨refused, held, both.marked⟩
      · rw [ChainLog.rewind, if_neg (by omega)] at held
        refine .inr ⟨_, held, fun marked => ?_, fun _ bare => (ChainLog.eq_genesis bare.symm).symm⟩
        exact absurd (both.marked marked).base (Nat.not_le.mpr ahead)
    | checkpoint height state =>
      obtain ⟨behind, rfl, present, read⟩ := answers
      rw [both.ours.last] at behind taken
      obtain ⟨blob, rfl⟩ := Option.isSome_iff_exists.mp present
      rw [Store.checkpointState_eq both.ours] at read
      rcases Node.takePush_checkpoint holds behind small taken with
        ⟨refused, held⟩ | ⟨above, held⟩
      · exact .inl ⟨refused, held, both.marked⟩
      · have level : (ChainLog.trusted l.base blob above : ChainLog B B).Behind l :=
          ⟨Nat.le_refl _, fun _ => ⟨read.symm, .of_nil rfl rfl⟩⟩
        exact .inr ⟨_, held, fun _ => level, fun _ => level.eq rfl⟩
    | blocks rows =>
      obtain ⟨level, marked, each⟩ := answers
      rw [both.ours.last] at level
      obtain ⟨state, trails⟩ := (both.marked marked).level level
      obtain ⟨f', held, trails', state'⟩ := Node.takePush_blocks holds
        (fun row member => (each row member).trans (both.ours.blocks _)) trails taken
      have behind : f'.Behind l :=
        ⟨Nat.le_of_eq trails'.1, fun _ => ⟨state'.trans state, trails'⟩⟩
      exact .inr ⟨f', held, fun _ => behind, fun _ => behind.eq trails'.1⟩
  | compare =>
    obtain ⟨short, states, carried⟩ := sound next
    have level : f.base = l.base := answers.trans both.ours.last
    rw [Store.checkpointState_eq both.ours, Store.checkpointState_eq both.theirs] at states
    simp only [Option.bind_eq_some_iff] at went
    obtain ⟨fork, found, went⟩ := went
    have carried := carried fork found
    rw [here] at short carried found went
    have first : u64Succ f.base = f.base + 1 := by
      have below := f.base_le_head
      exact u64Succ_of_lt (by simp only at short; omega)
    simp only [first] at short carried found went
    obtain ⟨low, high, same⟩ := Node.forkAgainst_spec both.theirs short rfl
      (Nat.lt_succ_self _) f.base_le_head found
    split at went
    next agreed =>
      -- Their log is a prefix of ours.
      obtain rfl := Option.some.inj went
      have trails : f.Trails l := .of_agree level fun h above below => by
        rw [← both.ours.blocks]
        exact same h above (Nat.le_trans below agreed)
      have behind : f.Behind l := ⟨Nat.le_of_eq level, fun _ => ⟨states.symm, trails⟩⟩
      have after : Together route (k.leader.markReconciled route) k.follower l f :=
        ⟨both.leads, both.opened, both.ours, both.theirs, fun _ => behind⟩
      exact after.continues (k := { k with leader := k.leader.markReconciled route })
        (behind.eq level) s
    next diverged =>
      have takes := carried (Nat.lt_of_not_le diverged)
      refine sends_inv (k := { k with leader := k.leader.markReconciled route })
        (fun held marked => ⟨both.leads, both.opened, both.ours, held, marked⟩) both.theirs
        (fun lost => absurd takes lost) ?_ went
      intro n n' reply holds taken
      rcases Node.takePush_rewind holds (Nat.lt_of_not_le diverged) taken with
        ⟨lost, _⟩ | held
      · rw [takes.2] at lost
        simp at lost
      · rw [ChainLog.rewind, if_pos low] at held
        have behind : ({ f with blocks := [] } : ChainLog B B).Behind l :=
          ⟨Nat.le_of_eq level, fun _ => ⟨states.symm, .of_nil level rfl⟩⟩
        exact .inr ⟨_, held, fun _ => behind, fun _ => behind.eq level⟩

/-! ## Every run -/

/-- The condition on a run: its comparisons are sound. -/
def ComparesSoundly (env : Env A B H) (fuel : Nat) (route : Route) (account : String)
    (k : Option (Link A B H)) (e : LinkEvent B) : Prop :=
  ∀ k', k = some k' → ∀ fate, e = .round fate → ∀ s, k'.session = some s →
    k'.leader.pushNext fuel route s.theirs = some .compare →
    k'.SoundCompare env fuel account s fate

instance (env : Env A B H) (fuel : Nat) (route : Route) (account : String)
    (k : Option (Link A B H)) (e : LinkEvent B) :
    Decidable (ComparesSoundly env fuel route account k e) :=
  match k, e with
  | none, _ => .isTrue fun _ same => nomatch same
  | some k, .round fate =>
    match underWay : k.session with
    | none => .isTrue fun k' same _ _ s found => by
      obtain rfl := Option.some.inj same
      simp [underWay] at found
    | some s =>
      if safe : k.leader.pushNext fuel route s.theirs = some .compare →
          k.SoundCompare env fuel account s fate then
        .isTrue fun k' same fate' event s' found => by
          obtain rfl := Option.some.inj same
          obtain rfl := LinkEvent.round.inj event
          obtain rfl := Option.some.inj (underWay.symm.trans found)
          exact safe
      else .isFalse fun sound => safe (sound k rfl fate rfl s underWay)
  | some _, .begin_ _ | some _, .close _ _ | some _, .hears _ | some _, .restart _ =>
    .isTrue fun _ _ _ event => nomatch event

theorem step_inv {env : Env A B H} {fuel : Nat} {route : Route} {account : String}
    {k k' : Link A B H} {e : LinkEvent B} (inv : Inv route k)
    (sound : ComparesSoundly env fuel route account (some k) e)
    (stepped : k.step env fuel route account e = some k') : Inv route k' := by
  obtain ⟨l, f, both, session, ended⟩ := inv
  cases e with
  | begin_ answered =>
    simp only [step] at stepped
    split at stepped
    · obtain rfl := Option.some.inj stepped
      exact ⟨l, f, both, session, ended⟩
    · split at stepped
      · obtain rfl := Option.some.inj stepped
        refine ⟨l, f, both, fun s same => ?_, by simp⟩
        obtain rfl := Option.some.inj same
        simp only [Store.chainHead, both.theirs.head, both.theirs.last]
      · obtain rfl := Option.some.inj stepped
        exact both.fails
  | round fate =>
    simp only [step] at stepped
    split at stepped
    · obtain rfl := Option.some.inj stepped
      exact ⟨l, f, both, session, ended⟩
    next s underWay =>
      exact round_inv both (session s underWay) (sound k rfl fate rfl s underWay) stepped
  -- The leader closes a block: its log grows, and the peer's stays behind it.
  | close at_ commits =>
    obtain ⟨n, advanced, rfl⟩ := Option.map_eq_some_iff.mp stepped
    obtain ⟨opened, producing, term, marks, l', held, behind⟩ :=
      Node.advance_behind both.ours both.opened advanced
    refine ⟨l', f, ⟨producing.trans both.leads, opened, held, both.theirs, ?_⟩, session, by simp⟩
    intro marked
    rw [term, marks] at marked
    exact (both.marked marked).trans behind
  | hears mesh =>
    obtain rfl := Option.some.inj stepped
    exact ⟨l, f, ⟨both.leads, both.opened, both.ours, both.theirs, both.marked⟩, session, ended⟩
  -- The process starts again on the same disk.
  | restart mesh =>
    obtain ⟨n, opened, rfl⟩ := Option.map_eq_some_iff.mp stepped
    have held : Store.Holds n.store f := by
      rw [Node.replay_refolded opened]
      exact both.theirs
    exact ⟨l, f, ⟨both.leads, both.opened, both.ours, held, both.marked⟩, session, ended⟩

/-- In every run whose comparisons are sound, a session that ends well with the peer at the
primary's head leaves the peer with the primary's log. -/
theorem push_converges (env : Env A B H) (fuel : Nat) (route : Route) (account : String)
    {leader follower : Node A B H} {l f : ChainLog B B} (ours : Store.Holds leader.store l)
    (theirs : Store.Holds follower.store f) (leads : leader.producing = true)
    (opened : 0 < leader.block) (fresh : (route, leader.mesh.term) ∉ leader.pushReconciled)
    (events : List (LinkEvent B))
    (sound : Machine.Meets (next env fuel route account)
      (ComparesSoundly env fuel route account) (some ⟨leader, follower, none, none⟩) events)
    {k : Link A B H}
    (reached : Machine.run (next env fuel route account) (some ⟨leader, follower, none, none⟩)
      events = some k)
    (well : k.ended = some true) (level : k.follower.store.head = k.leader.store.head) :
    SameChain k.follower.store k.leader.store := by
  have inv : ∀ k, Machine.run (next env fuel route account)
      (some ⟨leader, follower, none, none⟩) events = some k → Inv route k := by
    -- The two logs are in the invariant of the link, which every event keeps.
    refine Machine.run_invariant (fun s => ∀ k, s = some k → Inv route k) ?_ ?_ sound
    · intro s e inv sound k' stepped
      obtain ⟨k, rfl, stepped⟩ := Option.bind_eq_some_iff.mp stepped
      exact step_inv (inv k rfl) sound stepped
    · intro k start
      obtain rfl := Option.some.inj start
      exact ⟨l, f, ⟨leads, opened, ours, theirs, fun marked => absurd marked fresh⟩, by simp,
        by simp⟩
  obtain ⟨l', f', both, _, ended⟩ := inv k reached
  rw [both.ours.head, both.theirs.head] at level
  obtain rfl := ended well level
  exact .of_holds both.theirs both.ours

end Running

/-! ## Two logs that share a height -/

/-- The primary of the pair, and a peer that hears of it. -/
def pushing (mine theirs : Store (Plain Nat) (Plain Nat)) : Link Nat (Plain Nat) (Plain Nat) where
  leader := { Node.started soloEnv mine soloMeshElected with producing := true }
  follower := .started soloEnv theirs (.new "sora" ["http://nami"] {} {} 0 1)
  session := none
  ended := none

theorem oneBlock_holds (at_ : Nat) :
    Store.Holds (Node.freshStore.append true 1 (Node.soloBlock at_)).2
      (ChainLog.genesis.push (Node.soloBlock at_)) :=
  Node.freshStore_holds.appended (by decide) _

def sharing : Link Nat (Plain Nat) (Plain Nat) :=
  pushing (Node.freshStore.append true 1 (Node.soloBlock 2)).2
    (Node.freshStore.append true 1 (Node.soloBlock 1)).2

/-- Every message arrives: compared and rewound, then brought up. -/
theorem push_converges_delivered :
    ∃ k, Machine.run (next soloEnv 8 "http://sora" "") (some sharing)
        [.begin_ true, .round {}, .round {}, .round {}] = some k ∧
      k.ended = some true ∧ SameChain k.follower.store k.leader.store := by
  let events : List (LinkEvent (Plain Nat)) := [.begin_ true, .round {}, .round {}, .round {}]
  let final := Machine.run (next soloEnv 8 "http://sora" "") (some sharing) events
  have told : final.all (fun k => k.ended == some true &&
      k.follower.store.head == k.leader.store.head) = true ∧ final.isSome = true := by
    decide +kernel
  obtain ⟨k, reached⟩ := Option.isSome_iff_exists.mp told.2
  have ends := told.1
  simp only [reached, Option.all_some, Bool.and_eq_true, beq_iff_eq] at ends
  exact ⟨k, reached, ends.1, push_converges soloEnv 8 "http://sora" "" (oneBlock_holds 2)
    (oneBlock_holds 1) rfl (by decide) (by decide) events (by decide +kernel) reached ends.1
    ends.2⟩

/-- The rewind is lost. The next session finds the logs compared and the heads level. -/
theorem push_converges_lost :
    ∃ k, Machine.run (next soloEnv 8 "http://sora" "") (some sharing)
        [.begin_ true, .round { request := false }, .begin_ true, .round {}] = some k ∧
      k.ended = some true ∧ k.follower.store.head = k.leader.store.head ∧
      ¬ SameChain k.follower.store k.leader.store := by
  let final := Machine.run (next soloEnv 8 "http://sora" "") (some sharing)
    [.begin_ true, .round { request := false }, .begin_ true, .round {}]
  have told : final.all (fun k => k.ended == some true &&
      k.follower.store.head == k.leader.store.head &&
      k.follower.store.block 1 != k.leader.store.block 1) = true ∧ final.isSome = true := by
    decide +kernel
  obtain ⟨k, reached⟩ := Option.isSome_iff_exists.mp told.2
  have ends := told.1
  simp only [reached, Option.all_some, Bool.and_eq_true, beq_iff_eq, bne_iff_ne] at ends
  exact ⟨k, reached, ends.1.1, ends.1.2, fun same => ends.2 (same.blocks 1)⟩

end Link

end AkumaMiot

import AkumaMiot.Lib.Returns
import AkumaMiot.Node.Frames
import AkumaMiot.Node.Served
import AkumaMiot.Node.Taking
import AkumaMiot.Store.Invariant

/-!
# A replica's round

After one round that reconciles, a replica's log is its primary's, whatever the two logs were,
unless both had a checkpoint at one height with different states: heights are all the round
compares there. And the round panics on what it cannot read of the blocks and the state it fetches.
-/
namespace AkumaMiot

variable {A B H : Type}

/-- Every body of a log opens, and its state is a chain's state at the base. -/
structure Readable (env : Env A B H) (l : ChainLog B B) : Prop where
  bodies : ∀ b ∈ l.blocks, (env.openBody b).isSome = true
  state : ∀ blob, l.state = some blob →
    ∃ ext, env.decodeSnapshot blob = some ext ∧ ext.blockNumber = l.base

/-- Every block of a log above one height, up to another, opens. -/
def Opens (env : Env A B H) (l : ChainLog B B) (low high : Nat) : Prop :=
  ∀ h b, low < h → h ≤ high → l.blockAt h = some b → (env.openBody b).isSome = true

/-- The state of a log is a chain's state at the base. -/
def Restores (env : Env A B H) (l : ChainLog B B) : Prop :=
  ∀ blob, l.state = some blob → ∃ ext, env.decodeSnapshot blob = some ext ∧ ext.blockNumber = l.base

theorem opens_split {env : Env A B H} {l : ChainLog B B} {low mid high : Nat} (first : low ≤ mid)
    (last : mid ≤ high) :
    Opens env l low high ↔ Opens env l low mid ∧ Opens env l mid high := by
  constructor
  · intro opens
    exact ⟨fun h b above below => opens h b above (below.trans last),
      fun h b above below => opens h b (first.trans_lt above) below⟩
  · rintro ⟨opens, opens'⟩ h b above below
    by_cases early : h ≤ mid
    · exact opens h b above early
    · exact opens' h b (Nat.lt_of_not_le early) below

theorem opens_nil (env : Env A B H) (l : ChainLog B B) {low high : Nat} (none_ : high ≤ low) :
    Opens env l low high := fun _ _ above below =>
  absurd (above.trans_le below) (Nat.not_lt.mpr none_)

/-- There is no block up to the base. -/
theorem opens_base {env : Env A B H} {l : ChainLog B B} :
    Opens env l 0 l.head ↔ Opens env l l.base l.head := by
  rw [opens_split (Nat.zero_le l.base) l.base_le_head]
  refine and_iff_right fun h b _ below there => ?_
  rw [ChainLog.blockAt_none (.inl below)] at there
  cases there

theorem readable_iff {env : Env A B H} {l : ChainLog B B} :
    Readable env l ↔ Opens env l l.base l.head ∧ Restores env l := by
  constructor
  · intro readable
    refine ⟨fun h b above _ there => readable.bodies b ?_, readable.state⟩
    rw [ChainLog.blockAt, if_pos above] at there
    exact List.mem_of_getElem? there
  · rintro ⟨opens, restores⟩
    refine ⟨fun b member => ?_, restores⟩
    obtain ⟨i, short, rfl⟩ := List.mem_iff_getElem.mp member
    have below : l.base + 1 + i ≤ l.head := by
      unfold ChainLog.head
      omega
    refine opens (l.base + 1 + i) _ (by omega) below ?_
    rw [ChainLog.blockAt, if_pos (by omega), show l.base + 1 + i - l.base - 1 = i by omega,
      List.getElem?_eq_getElem short]

/-- A log without blocks is read by its state alone. -/
theorem readable_bare {env : Env A B H} {l : ChainLog B B} (empty : l.blocks = []) :
    Readable env l ↔ Restores env l :=
  ⟨Readable.state, fun restores => ⟨by simp [empty], restores⟩⟩

/-- What two stores must share to be at the same point of the same chain. -/
structure SameChain (s p : Store B B) : Prop where
  head : s.head = p.head
  last : s.lastCheckpoint = p.lastCheckpoint
  state : s.checkpointState = p.checkpointState
  blocks : ∀ h, s.block h = p.block h

theorem SameChain.of_holds {s p : Store B B} {l : ChainLog B B} (mine : Store.Holds s l)
    (theirs : Store.Holds p l) : SameChain s p where
  head := mine.head.trans theirs.head.symm
  last := mine.last.trans theirs.last.symm
  state := (Store.checkpointState_eq mine).trans (Store.checkpointState_eq theirs).symm
  blocks h := (mine.blocks h).trans (theirs.blocks h).symm

namespace Readable

variable {env : Env A B H} {l : ChainLog B B}

theorem openBody (readable : Readable env l) {h : Nat} {b : B} (there : l.blockAt h = some b) :
    ∃ effects at_, env.openBody b = some (effects, at_) := by
  unfold ChainLog.blockAt at there
  split at there
  · obtain ⟨⟨effects, at_⟩, opens⟩ := Option.isSome_iff_exists.mp
      (readable.bodies b (List.mem_of_getElem? there))
    exact ⟨effects, at_, opens⟩
  · simp at there

end Readable

namespace Node

/-! ## A replica at the end of its log -/

/-- A replica that follows `peer`, whose store is the log `m` and which has the block after the
log's last one open. -/
structure Tailing (n : Node A B H) (peer : Route) (m : ChainLog B B) : Prop where
  folding : n.producing = false
  follows : n.peer = some peer
  holds : Store.Holds n.store m
  seated : n.ext.blockNumber = n.block
  next : n.block = m.head + 1

theorem Tailing.not_followsNot {n : Node A B H} {peer : Route} {m : ChainLog B B}
    (tails : Tailing n peer m) : n.followsNot peer = false := by
  simp [followsNot, tails.folding, tails.follows]

theorem saveHard_holds {n : Node A B H} {m : ChainLog B B} (holds : Store.Holds n.store m)
    (env : Env A B H) (commits : Bool) : Store.Holds (n.saveHard env commits).store m := by
  unfold saveHard
  cases n.mesh.takeDirty with
  | mk hard mesh =>
    cases hard with
    | none => exact holds
    | some hard =>
      rcases Store.putAux_refines holds commits auxMesh (env.encodeHard hard) with
        ⟨why, refused⟩ | ⟨_, s, put, kept, _⟩
      · simp only [refused]
        exact holds
      · simp only [put]
        exact kept

/-- The mesh is not what tails a log. -/
theorem Tailing.saveHard {n : Node A B H} {peer : Route} {m : ChainLog B B}
    (tails : Tailing n peer m) (env : Env A B H) (commits : Bool) (mesh : Mesh) :
    Tailing ({ n with mesh := mesh }.saveHard env commits) peer m where
  folding := by rw [saveHard_eq]; exact tails.folding
  follows := by rw [saveHard_eq]; exact tails.follows
  holds := saveHard_holds (n := { n with mesh := mesh }) tails.holds env commits
  seated := by rw [saveHard_eq]; exact tails.seated
  next := by rw [saveHard_eq]; exact tails.next

/-! ## What a round reads -/

/-- Where a reconciliation leaves a replica of log `f` beside a primary of log `l`. -/
inductive Landing (f l : ChainLog B B) : ChainLog B B → Prop
  /-- Nothing of it is in the way. -/
  | kept (trails : f.Trails l) : Landing f l f
  /-- Back to its own checkpoint, or on to the primary's. -/
  | cleared {m : ChainLog B B} (apart : ¬ f.Trails l) (low : f.base ≤ l.base)
      (base : m.base = l.base) (empty : m.blocks = [])
      (state : m.state = if f.base = l.base then f.state else l.state) : Landing f l m
  /-- Back to genesis, from a checkpoint that is ahead. -/
  | undone (ahead : l.base < f.base) : Landing f l .genesis

/-- What of a primary's log a replica of log `f` reads after it reconciled: the blocks it does not
have, and the state it starts over from if its own checkpoint was ahead. -/
def Fetches (env : Env A B H) (f l : ChainLog B B) : Prop :=
  (f.Trails l → Opens env l f.head l.head) ∧ (¬ f.Trails l → Opens env l l.base l.head) ∧
    (l.base < f.base → Restores env l)

/-- What a replica of log `f` reads of a primary's log `l`: the blocks above its own if it trails
it, and otherwise the whole of it. -/
structure Fetchable (env : Env A B H) (f l : ChainLog B B) : Prop where
  rest : f.Trails l → Opens env l f.head l.head
  whole : ¬ f.Trails l → Readable env l

/-- Where the states at one checkpoint height agree, that is what a round reads. -/
theorem fetchable_iff {env : Env A B H} {f l : ChainLog B B}
    (agree : f.base = l.base → f.state = l.state) :
    Fetchable env f l ↔
      (¬ f.Trails l → (f.base = l.base → Restores env f) ∧ (f.base < l.base → Restores env l)) ∧
        Fetches env f l := by
  have level : f.base = l.base → (Restores env f ↔ Restores env l) := by
    intro base
    rw [Restores, Restores, agree base, base]
  constructor
  · rintro ⟨rest, whole⟩
    refine ⟨fun apart => ?_, rest, fun apart => (readable_iff.mp (whole apart)).1, fun ahead => ?_⟩
    · have restores := (readable_iff.mp (whole apart)).2
      exact ⟨fun base => (level base).mpr restores, fun _ => restores⟩
    · exact (readable_iff.mp (whole fun trails => Nat.ne_of_gt ahead trails.1)).2
  · rintro ⟨restores, rest, blocks, ahead⟩
    refine ⟨rest, fun apart => readable_iff.mpr ⟨blocks apart, ?_⟩⟩
    obtain ⟨own, behind⟩ := restores apart
    rcases Nat.lt_trichotomy f.base l.base with low | base | high
    · exact behind low
    · exact (level base).mp (own base)
    · exact ahead high

/-! ## Logs that fill the heights -/

/-- A round's parts decide neither the role nor the primary. -/
def Steady (n n' : Node A B H) : Prop := n'.producing = n.producing ∧ n'.peer = n.peer

theorem Steady.trans {a b c : Node A B H} (first : a.Steady b) (second : b.Steady c) :
    a.Steady c := ⟨second.1.trans first.1, second.2.trans first.2⟩

theorem Steady.followsNot {n n' : Node A B H} (steady : n.Steady n') (peer : Route) :
    n'.followsNot peer = n.followsNot peer := by
  unfold Node.followsNot
  rw [steady.1, steady.2]

theorem saveHard_steady (n : Node A B H) (env : Env A B H) (commits : Bool) :
    n.Steady (n.saveHard env commits) := by
  rw [saveHard_eq]
  exact ⟨rfl, rfl⟩

section Executing

variable [DecidableEq A]

/-! ## Reloading -/

theorem genesis_blockNumber (env : Env A B H) (replaying : Bool) :
    (env.genesis replaying).blockNumber = 1 := by
  have kept : ∀ (accounts : List A) (s : Storage A),
      (accounts.foldl Storage.incProviders s).blockNumber = s.blockNumber := by
    intro accounts
    induction accounts with
    | nil => exact fun s => rfl
    | cons a as ih => exact fun s => ih (s.incProviders a)
  unfold Env.genesis
  rw [kept]
  exact Storage.initializeBlock_blockNumber _ _

/-- Folding a readable log up to its head. -/
theorem replayBlocks_returns {env : Env A B H} {m : ChainLog B B} (readable : Readable env m)
    {n : Node A B H} (holds : Store.Holds n.store m) {h count : Nat} (above : m.base < h)
    (whole : h + count = m.head + 1) (seated : n.ext.blockNumber = h) (block : n.block = h) :
    ∃ n', replayBlocks env n (List.range' h count) = some n' ∧
      n'.ext.blockNumber = h + count ∧ n'.block = h + count := by
  induction count generalizing n h with
  | zero => exact ⟨n, rfl, seated, block⟩
  | succ count ih =>
    obtain ⟨b, there⟩ := m.blockAt_some above (by omega)
    obtain ⟨effects, at_, opens⟩ := readable.openBody there
    obtain ⟨n1, applied, seated1⟩ :=
      applyBlock_seated (n := { n with block := h }) seated env effects at_
    have frame := applyBlock_eq applied
    have block1 : n1.block = h + 1 := by rw [frame]
    have read : n.store.block h = some b := (holds.blocks h).trans there
    obtain ⟨n', folded, number, at_end⟩ := ih (n := n1) (h := h + 1) (by rw [frame]; exact holds)
      (by omega) (by omega) (seated1.trans block1) block1
    refine ⟨n', ?_, by omega, by omega⟩
    rw [List.range'_succ]
    simp only [replayBlocks, read, opens, applied, Option.bind_eq_bind, Option.bind_some]
    exact folded

theorem reloadFromStore_returns {env : Env A B H} {m : ChainLog B B} (readable : Readable env m)
    {n : Node A B H} (holds : Store.Holds n.store m) :
    ∃ n', n.reloadFromStore env = some n' ∧ n'.ext.blockNumber = m.head + 1 ∧
      n'.block = m.head + 1 := by
  unfold reloadFromStore replay
  simp only [holds.last, holds.head, Option.bind_eq_bind]
  have all : m.base + 1 + (m.head + 1 - (m.base + 1)) = m.head + 1 := by
    have := m.base_le_head
    omega
  unfold Store.heights
  split
  -- A compacted log is replayed over the state of its checkpoint, any other over genesis.
  next compacted =>
    have state : n.store.checkpointState = m.state := Store.checkpointState_eq holds
    obtain ⟨blob, there⟩ := Option.isSome_iff_exists.mp (m.present.mpr compacted)
    obtain ⟨ext, decodes, number⟩ := readable.state blob there
    rw [state, there]
    simp only [Option.bind_some, restoreFromSnapshot, decodes, Option.bind_eq_bind]
    rw [initializeBlock_next env (by exact (congrArg (· + 1) number).symm)]
    simp only [Option.bind_some, Option.pure_def]
    -- The block after the checkpoint is the one that is initialized, so the replay begins there.
    have seated := (Storage.initializeBlock_blockNumber (ext.setReplaying (!n.producing))
      env.rt).trans (congrArg (· + 1) number)
    obtain ⟨n', folded, number', block'⟩ := replayBlocks_returns readable
      (n := drainDiscard { n with
        ext := (ext.setReplaying (!n.producing)).initializeBlock env.rt
        log := []
        seq := 0
        pending := []
        pendingCompaction := false
        block := m.base + 1 }) holds (Nat.lt_succ_self _) all seated rfl
    exact ⟨n', folded, number'.trans all, block'.trans all⟩
  next fresh =>
    have genesis : m.base + 1 = 1 := by omega
    obtain ⟨n', folded, number', block'⟩ := replayBlocks_returns readable
      (n := { n with
        ext := env.genesis (!n.producing)
        block := 1
        log := []
        seq := 0
        pending := []
        pendingCompaction := false }) holds (Nat.lt_succ_self _) all
      ((genesis_blockNumber env _).trans genesis.symm) genesis.symm
    exact ⟨n', folded, number'.trans all, block'.trans all⟩

theorem replayBlocks_opens {env : Env A B H} {m : ChainLog B B} {n n' : Node A B H}
    (holds : Store.Holds n.store m) {h count : Nat}
    (replayed : replayBlocks env n (List.range' h count) = some n') {k : Nat} (low : h ≤ k)
    (high : k < h + count) {b : B} (there : m.blockAt k = some b) :
    (env.openBody b).isSome = true := by
  induction count generalizing n h with
  | zero => omega
  | succ count ih =>
    rw [List.range'_succ] at replayed
    simp only [replayBlocks, Option.bind_eq_bind, Option.bind_eq_some_iff] at replayed
    obtain ⟨body, read, ⟨effects, at_⟩, opens, n1, applied, replayed⟩ := replayed
    by_cases here : k = h
    · subst here
      obtain rfl := Option.some.inj (there.symm.trans ((holds.blocks k).symm.trans read))
      exact opens ▸ rfl
    · refine ih (n := n1) ?_ replayed (by omega) (by omega)
      rw [applyBlock_eq applied]
      exact holds

/-- A process whose reload does not panic runs on a readable log. -/
theorem Readable.of_reload {env : Env A B H} {m : ChainLog B B} {n n' : Node A B H}
    (holds : Store.Holds n.store m) (reloaded : n.reloadFromStore env = some n') :
    Readable env m := by
  -- Every block of the log was opened by the replay, whichever state it began from.
  have within : ∀ {n1 : Node A B H}, Store.Holds n1.store m →
      replayBlocks env n1 (Store.heights (m.base + 1) m.head) = some n' →
      Opens env m m.base m.head := by
    intro n1 holds1 replayed h b above below there
    exact replayBlocks_opens holds1 replayed above (by omega) there
  unfold reloadFromStore replay at reloaded
  simp only [holds.last, holds.head, Option.bind_eq_bind] at reloaded
  split at reloaded
  next compacted =>
    obtain ⟨n1, restored, replayed⟩ := Option.bind_eq_some_iff.mp reloaded
    obtain ⟨blob, there, restored⟩ := Option.bind_eq_some_iff.mp restored
    have frame := restoreFromSnapshot_eq restored
    refine readable_iff.mpr ⟨within (by rw [frame]; exact holds) replayed, fun blob' same => ?_⟩
    have state : n.store.checkpointState = m.state := Store.checkpointState_eq holds
    obtain rfl := Option.some.inj (same.symm.trans (state.symm.trans there))
    simp only [restoreFromSnapshot, Option.bind_eq_bind, Option.bind_eq_some_iff] at restored
    obtain ⟨ext, decodes, n2, opened, _⟩ := restored
    refine ⟨ext, decodes, ?_⟩
    -- The next block cannot be initialized over a state of another height.
    unfold initializeBlock at opened
    split at opened
    next asserted => exact (Nat.succ.inj asserted).symm
    · simp at opened
  next fresh =>
    refine readable_iff.mpr ⟨within (by exact holds) reloaded, fun blob same => ?_⟩
    rw [m.state_none (by omega)] at same
    simp at same

/-- A replica whose store has just become `m` reloads if it can read the log, and tails it. -/
theorem reload_tails (env : Env A B H) {m : ChainLog B B} {n : Node A B H} {peer : Route}
    (folding : n.producing = false) (follows : n.peer = some peer) (holds : Store.Holds n.store m) :
    Returns (n.reloadFromStore env) (Readable env m) (Tailing · peer m) := by
  constructor
  · intro readable
    obtain ⟨n', reloaded, _⟩ := reloadFromStore_returns readable holds
    exact ⟨n', reloaded⟩
  · intro n' reloaded
    have readable := Readable.of_reload holds reloaded
    refine ⟨readable, ?_⟩
    obtain ⟨n'', again, number, block⟩ := reloadFromStore_returns readable holds
    obtain rfl := Option.some.inj (again.symm.trans reloaded)
    have frame := reloadFromStore_refolded reloaded
    refine ⟨?_, ?_, ?_, number.trans block.symm, block⟩
    · rw [frame]; exact folding
    · rw [frame]; exact follows
    · rw [frame]; exact holds

theorem TakesIn.steady {env : Env A B H} {adds : Nat → B → Prop} {n n' : Node A B H}
    (takes : TakesIn env adds n n') : n.Steady n' := by
  induction takes with
  | nothing n => exact ⟨rfl, rfl⟩
  | applied appended applied added =>
    rw [applyBlock_eq applied]
    exact ⟨rfl, rfl⟩
  | adopted adopted reloaded =>
    rw [reloadFromStore_refolded reloaded]
    exact ⟨rfl, rfl⟩
  | rewound rewound reloaded =>
    rw [reloadFromStore_refolded reloaded]
    exact ⟨rfl, rfl⟩
  | saved n commits => exact saveHard_steady n env commits
  | trans _ _ first second => exact first.trans second

theorem adoptPeerCheckpointIfAhead_steady {env : Env A B H} {n n' : Node A B H} {peer : Route}
    {primary : Store B B} {peerCp : Nat} {adopted : Bool}
    (asked : n.adoptPeerCheckpointIfAhead env peer primary peerCp = some (adopted, n')) :
    n.Steady n' := by
  have takes : TakesIn env (fun _ _ => True) n n' := .adoptPeerCheckpointIfAhead asked
  exact takes.steady

theorem rewind_steady {env : Env A B H} {n n' : Node A B H} {commits : Bool} {peer : Route}
    {fork : Nat} (rewound : n.rewind env commits peer fork = some n') : n.Steady n' := by
  have takes : TakesIn env (fun _ _ => True) n n' := .rewind rewound
  exact takes.steady

/-- A page whose every row could be one of a log that fills the heights: a row that does not
fit finds room above the head. -/
theorem syncRows_stops {env : Env A B H} {commits : Bool} {n n' : Node A B H}
    {rows : List (BlockRow B)} {goes : Bool}
    (each : ∀ row ∈ rows, row.height < 2 ^ 64 ∧ row.body.isSome = true)
    (synced : n.syncRows env commits rows = some (goes, n')) :
    n.Steady n' ∧ (goes = false → n'.store.head + 1 < 2 ^ 64) := by
  induction rows generalizing n with
  | nil =>
    cases synced
    exact ⟨⟨rfl, rfl⟩, by simp⟩
  | cons row rows ih =>
    obtain ⟨small, decodes⟩ := each row (by simp)
    have later := fun m => @ih m fun r member => each r (by simp [member])
    unfold syncRows at synced
    split at synced
    · exact later _ synced
    -- A row at or below the head is passed over; one above it is applied, or ends the page.
    next above =>
      split at synced
      next bad => simp [bad] at decodes
      · split at synced
        · cases synced
          exact ⟨⟨rfl, rfl⟩, fun _ => by omega⟩
        · simp only [Option.bind_eq_bind, Option.bind_eq_some_iff] at synced
          obtain ⟨⟨effects, at_⟩, _, m, applied, synced⟩ := synced
          have kept : n.Steady m := by
            rw [applyBlock_eq applied]
            exact ⟨rfl, rfl⟩
          obtain ⟨steady, stops⟩ := later _ synced
          exact ⟨kept.trans steady, stops⟩

/-- Beside a primary that fills the heights, pages never bring a replica to the primary's head:
the height after the last one wraps, and the loop asks again. -/
theorem syncPages_full {env : Env A B H} {p : Store B B} {l : ChainLog B B}
    (served : Store.Holds p l) (full : l.head + 1 = 2 ^ 64) {pages fuel : Nat} {peer : Route}
    {n n' : Node A B H} (follows : n.followsNot peer = false)
    (synced : syncPages env pages peer p l.head fuel n = some n') :
    n'.store.head + 1 < 2 ^ 64 := by
  induction fuel generalizing n with
  | zero => simp [syncPages] at synced
  | succ fuel ih =>
    unfold syncPages at synced
    have small := u64Succ_lt n.store.head
    simp only [if_neg (show ¬ u64Succ n.store.head > l.head by omega), Option.bind_eq_bind,
      Option.bind_eq_some_iff] at synced
    obtain ⟨rows, asked, synced⟩ := synced
    -- A log whose next height wraps serves a full page from wherever it is asked.
    obtain ⟨length, each⟩ := Store.rowsFrom_full served full small asked
    have some : rows ≠ [] := by
      rintro rfl
      simp [syncPage] at length
    simp only [if_neg some, Option.bind_eq_some_iff] at synced
    obtain ⟨⟨goes, m⟩, taken, synced⟩ := synced
    simp only [takePage, follows, Bool.false_eq_true, if_false, Option.bind_eq_bind,
      Option.bind_eq_some_iff, Option.pure_def, Option.some.injEq] at taken
    obtain ⟨⟨goes', m'⟩, rowsTaken, taken⟩ := taken
    obtain ⟨steady, stops⟩ := syncRows_stops each rowsTaken
    cases goes' with
    -- The page was taken whole, and the loop asks for the next.
    | true =>
      cases taken
      refine ih ?_ synced
      rw [(saveHard_steady m' env _).followsNot, steady.followsNot]
      exact follows
    | false =>
      cases taken
      cases synced
      exact stops rfl

/-! ## The round's parts -/

/-- The next block of a log, as a row. -/
theorem syncRows_next {env : Env A B H} {n : Node A B H} {peer : Route} {m : ChainLog B B}
    (tails : Tailing n peer m) (short : m.head + 1 < 2 ^ 64) (b : B) (rows : List (BlockRow B)) :
    env.openBody b = none ∧ n.syncRows env true (⟨m.head + 1, some b⟩ :: rows) = none ∨
      (env.openBody b).isSome = true ∧ ∃ n1, Tailing n1 peer (m.push b) ∧
        n.syncRows env true (⟨m.head + 1, some b⟩ :: rows) = n1.syncRows env true rows := by
  obtain ⟨store, appended, holds⟩ := tails.holds.append short b
  rw [syncRows, if_neg (by rw [tails.holds.head]; simp)]
  simp only [appended]
  -- The block is on disk before its body is read.
  cases opens : env.openBody b with
  | none => exact .inl ⟨rfl, rfl⟩
  | some opened =>
    obtain ⟨effects, at_⟩ := opened
    obtain ⟨n1, applied, seated⟩ := applyBlock_seated (n := { n with store := store })
      (tails.seated.trans tails.next) env effects at_
    have frame := applyBlock_eq applied
    refine .inr ⟨rfl, { n1 with mesh := n1.mesh.appended }, ?_, ?_⟩
    · exact ⟨by rw [frame]; exact tails.folding, by rw [frame]; exact tails.follows,
        by rw [frame]; exact holds, seated, by rw [frame, m.head_push]⟩
    · simp only [applied, Option.bind_eq_bind, Option.bind_some]

/-- A page of the next blocks is taken if each of them opens. -/
theorem syncRows_extends {env : Env A B H} {l : ChainLog B B} (short : l.head + 1 < 2 ^ 64)
    {n : Node A B H} {peer : Route} {m : ChainLog B B} (tails : Tailing n peer m)
    (trails : m.Trails l) {count : Nat} (within : m.head + count ≤ l.head) :
    Returns (n.syncRows env true (l.rows (m.head + 1) count))
      (Opens env l m.head (m.head + count))
      (fun r => r.1 = true ∧ ∃ m', Tailing r.2 peer m' ∧ m'.Trails l ∧ m'.state = m.state ∧
        m'.head = m.head + count) := by
  induction count generalizing n m with
  | zero =>
    exact (Returns.of_some ⟨rfl, m, tails, trails, rfl, rfl⟩).weaken
      (iff_of_true trivial (opens_nil env l (Nat.le_refl _))) fun _ => id
  | succ count ih =>
    have above : l.base < m.head + 1 := by
      rw [← trails.1]
      exact Nat.lt_succ_of_le m.base_le_head
    obtain ⟨b, there⟩ := l.blockAt_some above (by omega)
    have one : Opens env l m.head (m.head + 1) ↔ (env.openBody b).isSome = true := by
      constructor
      · exact fun opens => opens (m.head + 1) b (Nat.lt_succ_self _) (Nat.le_refl _) there
      · intro opens h b' low high there'
        obtain rfl : h = m.head + 1 := by omega
        obtain rfl := Option.some.inj (there.symm.trans there')
        exact opens
    rw [ChainLog.rows_succ, there,
      opens_split (Nat.le_succ m.head) (by omega : m.head + 1 ≤ m.head + (count + 1)), one]
    rcases syncRows_next tails (by omega) b (l.rows (m.head + 1 + 1) count) with
      ⟨bad, fails⟩ | ⟨opens, n1, tails1, goes⟩
    · rw [fails]
      exact .of_none fun ⟨opens, _⟩ => by simp [bad] at opens
    · have later := ih tails1 (trails.push there) (by rw [m.head_push]; omega)
      simp only [m.head_push] at later
      rw [goes]
      refine later.weaken ?_ fun r ⟨whole, m', tails', trails', state, head⟩ =>
        ⟨whole, m', tails', trails', state, by omega⟩
      rw [and_iff_right opens, show m.head + 1 + count = m.head + (count + 1) by omega]

theorem takePage_extends {env : Env A B H} {l : ChainLog B B} (short : l.head + 1 < 2 ^ 64)
    {n : Node A B H} {peer : Route} {m : ChainLog B B} (tails : Tailing n peer m)
    (trails : m.Trails l) {count : Nat} (within : m.head + count ≤ l.head) :
    Returns (n.takePage env {} peer (l.rows (m.head + 1) count))
      (Opens env l m.head (m.head + count))
      (fun r => r.1 = true ∧ ∃ m', Tailing r.2 peer m' ∧ m'.Trails l ∧ m'.state = m.state ∧
        m'.head = m.head + count) := by
  rw [takePage, if_neg (by simp [tails.not_followsNot])]
  refine (syncRows_extends short tails trails within).andThen fun r taken => ?_
  obtain ⟨goes, n'⟩ := r
  obtain ⟨rfl, m', tails', rest⟩ := taken
  exact .of_some ⟨rfl, m', tails'.saveHard env true n'.mesh, rest⟩

theorem rewind_lands (env : Env A B H) {n : Node A B H} {peer : Route} {m : ChainLog B B}
    (tails : Tailing n peer m) (fork : Nat) :
    Returns (n.rewind env true peer fork) (Readable env (m.rewind fork))
      (Tailing · peer (m.rewind fork)) := by
  obtain ⟨_, store, rewound, holds⟩ := tails.holds.rewindForFork fork
  simp only [rewind, tails.not_followsNot, rewound]
  exact reload_tails env (n := { n with store := store }) tails.folding tails.follows holds

/-- A checkpoint that was served is taken on trust, if its state restores. -/
theorem takeCheckpoint_adopts {env : Env A B H} {l : ChainLog B B} {p : Store B B}
    (served : Store.Holds p l) {n : Node A B H} {peer : Route} {m : ChainLog B B}
    (tails : Tailing n peer m) (above : 0 < l.base) :
    Returns (n.takeCheckpoint env {} peer p.chainCheckpoint) (Restores env l)
      (fun r => r.1 = true ∧ ∃ m', Tailing r.2 peer m' ∧ m'.base = l.base ∧ m'.state = l.state ∧
        m'.blocks = []) := by
  obtain ⟨state, there⟩ := Option.isSome_iff_exists.mp (l.present.mpr above)
  have answer : p.chainCheckpoint = some (l.base, state) := by
    rw [Store.chainCheckpoint, Store.checkpointState_eq served, there, served.last]
    rfl
  have small : l.base < 2 ^ 64 := Nat.lt_of_le_of_lt l.base_le_head served.small
  obtain ⟨store, adopted, holds⟩ := tails.holds.adoptCheckpoint above small state
  have restores : Readable env (.trusted l.base state above) ↔ Restores env l := by
    rw [readable_bare rfl, Restores, Restores, there]
    rfl
  simp only [takeCheckpoint, answer, tails.not_followsNot, adopted, Option.bind_eq_bind]
  refine ((reload_tails env (n := { n with store := store }) tails.folding tails.follows holds).weaken
    restores fun _ => id).andThen fun n' tails' => ?_
  exact .of_some ⟨rfl, _, tails'.saveHard env true n'.mesh.appended, rfl, there.symm, rfl⟩

/-! ## The round -/

theorem syncPages_reaches {env : Env A B H} {l : ChainLog B B} {p : Store B B}
    (served : Store.Holds p l) (short : l.head + 1 < 2 ^ 64) {pages : Nat}
    (paged : syncPage < pages) {n : Node A B H} {peer : Route} {m : ChainLog B B}
    (tails : Tailing n peer m) (trails : m.Trails l) {fuel : Nat}
    (enough : l.head - m.head < fuel) :
    Returns (syncPages env pages peer p l.head fuel n) (Opens env l m.head l.head)
      (fun n' => ∃ m', Tailing n' peer m' ∧ m'.Trails l ∧ m'.state = m.state ∧
        m'.head = l.head) := by
  induction fuel generalizing n m with
  | zero => omega
  | succ fuel ih =>
    have low := trails.head_le
    have start : u64Succ n.store.head = m.head + 1 := by
      rw [tails.holds.head, u64Succ_of_lt (by omega)]
    unfold syncPages
    simp only [start]
    split
    next past =>
      exact (Returns.of_some ⟨m, tails, trails, rfl, by omega⟩).weaken
        (iff_of_true trivial (opens_nil env l (by omega))) fun _ => id
    next under =>
      have above : l.base < m.head + 1 := by
        rw [← trails.1]
        exact Nat.lt_succ_of_le m.base_le_head
      rw [Store.chainBlocks_eq served short above paged]
      have page : syncPage = 256 := rfl
      -- Every page has a row at least, so the fuel that is left is enough for the rest.
      generalize counted : min syncPage (l.head + 1 - (m.head + 1)) = count
      have some : l.rows (m.head + 1) count ≠ [] := by
        rw [ne_eq, ChainLog.rows_eq_nil]
        omega
      have within : m.head + count ≤ l.head := by omega
      simp only [Option.bind_eq_bind, Option.bind_some, if_neg some]
      rw [opens_split (Nat.le_add_right m.head count) within]
      refine (takePage_extends short tails trails within).bind fun r taken => ?_
      obtain ⟨goes, n1⟩ := r
      obtain ⟨rfl, m1, tails1, trails1, state1, head1⟩ := taken
      rw [← head1, ← state1]
      exact ih tails1 trails1 (by omega)

theorem syncOnce_catches_up {env : Env A B H} {f l : ChainLog B B} {p : Store B B}
    (served : Store.Holds p l) (short : l.head + 1 < 2 ^ 64) {n : Node A B H}
    {peer : Route} {m : ChainLog B B} (tails : Tailing n peer m) (landing : Landing f l m)
    {fuel : Nat} (enough : l.head < fuel) (paged : syncPage < fuel) :
    Returns (n.syncOnce env fuel peer (some p)) (Fetches env f l)
      (fun n' => ∃ m', Tailing n' peer m' ∧ m'.base = l.base ∧ m'.blocks = l.blocks ∧
        m'.state = if f.base = l.base then f.state else l.state) := by
  -- Once the two logs have the same base the pages bring everything there is.
  have tail : ∀ {n1 : Node A B H} {m1 : ChainLog B B}, Tailing n1 peer m1 → m1.Trails l →
      (m1.state = if f.base = l.base then f.state else l.state) →
      Returns (syncPages env fuel peer p l.head fuel n1) (Opens env l m1.head l.head)
        (fun n' => ∃ m', Tailing n' peer m' ∧ m'.base = l.base ∧ m'.blocks = l.blocks ∧
          m'.state = if f.base = l.base then f.state else l.state) := by
    intro n1 m1 tails1 trails1 state1
    refine (syncPages_reaches served short paged tails1 trails1 (by omega)).weaken .rfl
      fun n' ⟨m', tails', trails', state', head'⟩ => ?_
    exact ⟨m', tails', trails'.1, trails'.caught_up (Nat.le_of_eq head'.symm), state'.trans state1⟩
  unfold syncOnce adoptPeerCheckpointIfAhead
  simp only [Store.chainHead, served.last, served.head, tails.holds.last]
  cases landing with
  | kept trails =>
    rw [if_pos (Nat.le_of_eq trails.1.symm)]
    refine (tail tails trails (if_pos trails.1).symm).weaken ?_ fun _ => id
    have level : ¬ l.base < f.base := Nat.not_lt.mpr (Nat.le_of_eq trails.1)
    simp [Fetches, trails, level]
  | cleared apart low base empty state =>
    rw [if_pos (Nat.le_of_eq base.symm)]
    refine (tail tails (.of_nil base empty) state).weaken ?_ fun _ => id
    have head : m.head = l.base := by simp [ChainLog.head, base, empty]
    simp [Fetches, apart, Nat.not_lt.mpr low, head]
  | undone ahead =>
    have differ : f.base ≠ l.base := Nat.ne_of_gt ahead
    have apart : ¬ f.Trails l := fun trails => differ trails.1
    have fetches : Fetches env f l ↔ Opens env l l.base l.head ∧ Restores env l := by
      simp [Fetches, apart, ahead]
    -- A log that was never compacted has no checkpoint to take.
    by_cases bare : l.base = 0
    · rw [if_pos (show l.base ≤ ChainLog.genesis.base from Nat.le_of_eq bare)]
      have state : (ChainLog.genesis : ChainLog B B).state =
          if f.base = l.base then f.state else l.state := by
        rw [if_neg differ, l.state_none bare]
        rfl
      refine (tail tails (.of_nil bare.symm rfl) state).weaken ?_ fun _ => id
      rw [fetches, ← opens_base]
      exact (and_iff_left fun blob same => by simp [l.state_none bare] at same).symm
    · rw [if_neg (show ¬ l.base ≤ ChainLog.genesis.base from fun le => bare (Nat.le_zero.mp le))]
      refine ((takeCheckpoint_adopts served tails (by omega)).bind fun r taken => ?_).weaken
        (and_comm.trans fetches.symm) fun _ => id
      obtain ⟨adopted, n1⟩ := r
      obtain ⟨rfl, m1, tails1, base1, state1, empty1⟩ := taken
      have head : m1.head = l.base := by simp [ChainLog.head, base1, empty1]
      exact (tail tails1 (.of_nil base1 empty1) (by rw [state1, if_neg differ])).weaken
        (by rw [head]) fun _ => id

section Comparing

variable [DecidableEq B]

theorem reconcile_lands {env : Env A B H} {f l : ChainLog B B} {p : Store B B}
    (served : Store.Holds p l) (short : l.head + 1 < 2 ^ 64) {n : Node A B H} {peer : Route}
    (tails : Tailing n peer f) {fuel : Nat} (enough : l.head + 1 < fuel)
    (paged : syncPage < fuel) :
    Returns (n.reconcileIfDiverged env fuel peer (some p))
      (¬ f.Trails l → (f.base = l.base → Restores env f) ∧ (f.base < l.base → Restores env l))
      (fun r => r.1 = true ∧ ∃ m, Tailing r.2 peer m ∧ Landing f l m) := by
  unfold reconcileIfDiverged
  simp only [Store.chainHead, tails.holds.last, tails.holds.head, served.last]
  split
  next ahead =>
    -- Our checkpoint is ahead of theirs: all the way back.
    have genesis : f.rewind (f.base - 1) = .genesis := if_neg (by omega)
    have back := rewind_lands env tails (f.base - 1)
    rw [genesis] at back
    refine (back.weaken (iff_of_true ?_ ?_) fun _ => id).map fun n' tails' =>
      ⟨rfl, _, tails', .undone ahead⟩
    · exact ⟨by simp [ChainLog.genesis], by simp [ChainLog.genesis]⟩
    · exact fun _ => ⟨fun level => by omega, fun behind => by omega⟩
  next notAhead =>
    unfold adoptPeerCheckpointIfAhead
    rw [tails.holds.last]
    split
    next level =>
      have base : f.base = l.base := by omega
      simp only [Option.bind_eq_bind, Option.bind_some, Bool.false_eq_true, if_false,
        Option.pure_def]
      have stays : f.Trails l → Returns (some (true, n))
          (¬ f.Trails l → (f.base = l.base → Restores env f) ∧ (f.base < l.base → Restores env l))
          (fun r => r.1 = true ∧ ∃ m, Tailing r.2 peer m ∧ Landing f l m) := fun trails =>
        (Returns.of_some ⟨rfl, f, tails, .kept trails⟩).weaken
          (iff_of_true trivial fun apart => absurd trails apart) fun _ => id
      split
      next bare =>
        -- Nothing of our own above the checkpoint.
        have empty : f.blocks = [] := by
          rw [← List.length_eq_zero_iff]
          unfold ChainLog.head at bare
          omega
        exact stays (.of_nil base empty)
      next grown =>
        have fits : f.base + 1 < 2 ^ 64 := by
          have := f.base_le_head
          have := tails.holds.small
          omega
        rw [u64Succ_of_lt fits]
        have above : l.base < f.base + 1 := by omega
        have enough' : l.head + 1 - (f.base + 1) < fuel := by omega
        obtain ⟨theirs, asked, reads, ends, covers⟩ :=
          Store.theirBlocks_eq served short f.head above enough' paged
        have flat : f.base + 1 + theirs.length < 2 ^ 64 := by
          rcases ends with rfl | ends
          · simpa using fits
          · omega
        have positive : 0 < f.base + 1 := Nat.succ_pos f.base
        obtain ⟨landing, _, same, most⟩ := n.store.forkPoint_spec positive flat reads
        rw [asked]
        simp only [Option.bind_some]
        split
        next diverged =>
          -- Logs that agree have no fork below the replica's head.
          have apart : ¬ f.Trails l := by
            intro trails
            have whole := most f.head (by have := trails.head_le; omega) fun h _ high =>
              (tails.holds.blocks h).trans (trails.blockAt high)
            omega
          have kept : f.rewind (n.store.forkPoint (f.base + 1) theirs) = { f with blocks := [] } :=
            if_pos (by omega)
          have back := rewind_lands env tails (n.store.forkPoint (f.base + 1) theirs)
          rw [kept, readable_bare rfl] at back
          refine (back.weaken ?_ fun _ => id).map fun n' tails' =>
            ⟨rfl, _, tails', .cleared apart (Nat.le_of_eq base) base rfl (if_pos base).symm⟩
          exact ⟨fun restores _ => ⟨fun _ => restores, fun behind => by omega⟩,
            fun needs => (needs apart).1 base⟩
        next agreed =>
          refine stays (.of_agree base fun h low high => ?_)
          rw [← same h low (by omega)]
          exact tails.holds.blocks h
    next behind =>
      -- They compacted past us.
      have apart : ¬ f.Trails l := fun trails => by have := trails.1; omega
      have restores : Restores env l ↔ (¬ f.Trails l →
          (f.base = l.base → Restores env f) ∧ (f.base < l.base → Restores env l)) :=
        ⟨fun restores _ => ⟨fun level => by omega, fun _ => restores⟩,
          fun needs => (needs apart).2 (by omega)⟩
      refine ((takeCheckpoint_adopts served tails (by omega)).weaken restores fun _ => id).andThen
        fun r taken => ?_
      obtain ⟨adopted, n1⟩ := r
      obtain ⟨rfl, m, tails', base, state, empty⟩ := taken
      exact .of_some ⟨rfl, m, tails', .cleared apart (by omega) base empty
        (by rw [state, if_neg (by omega)])⟩

/-- A round that reconciles returns if what it has to read can be read, and where it ends then,
whatever the two logs were. -/
theorem replicaRound_lands (env : Env A B H) {f l : ChainLog B B} {p : Store B B}
    (served : Store.Holds p l) (short : l.head + 1 < 2 ^ 64) {n : Node A B H} {peer : Route}
    (tails : Tailing n peer f) (owes : n.needsReconcile = true) {fuel : Nat}
    (enough : l.head + 1 < fuel) (paged : syncPage < fuel) :
    Returns (n.replicaRound env fuel (some p))
      ((¬ f.Trails l → (f.base = l.base → Restores env f) ∧ (f.base < l.base → Restores env l)) ∧
        Fetches env f l)
      (fun n' => ∃ m', Store.Holds n'.store m' ∧ m'.base = l.base ∧ m'.blocks = l.blocks ∧
        m'.state = if f.base = l.base then f.state else l.state) := by
  unfold replicaRound
  simp only [tails.folding, tails.follows, owes, if_true, Bool.false_eq_true, if_false]
  refine (reconcile_lands served short tails enough paged).bind fun r reconciled => ?_
  obtain ⟨answered, n1⟩ := r
  obtain ⟨rfl, m, tails1, landing⟩ := reconciled
  have tails2 : Tailing { n1 with needsReconcile := false } peer m :=
    ⟨tails1.folding, tails1.follows, tails1.holds, tails1.seated, tails1.next⟩
  simp only [if_true, if_pos tails1.follows]
  exact (syncOnce_catches_up served short tails2 landing (by omega) paged).weaken .rfl
    fun n' ⟨m', tails', rest⟩ => ⟨m', tails'.holds, rest⟩

theorem reconcile_steady {env : Env A B H} {fuel : Nat} {peer : Route} {p : Store B B}
    {n n' : Node A B H} {answered : Bool}
    (reconciled : n.reconcileIfDiverged env fuel peer (some p) = some (answered, n')) :
    n.Steady n' ∧ answered = true := by
  unfold reconcileIfDiverged at reconciled
  simp only at reconciled
  -- Rewound, served by a checkpoint, or found to agree: whichever it is, the peer answered.
  split at reconciled
  · obtain ⟨m, rewound, same⟩ := Option.map_eq_some_iff.mp reconciled
    cases same
    exact ⟨rewind_steady rewound, rfl⟩
  · simp only [Option.bind_eq_bind, Option.bind_eq_some_iff] at reconciled
    obtain ⟨⟨adopted, m⟩, asked, reconciled⟩ := reconciled
    have first : n.Steady m := adoptPeerCheckpointIfAhead_steady asked
    split at reconciled
    · cases reconciled
      exact ⟨first, rfl⟩
    · split at reconciled
      · cases reconciled
        exact ⟨first, rfl⟩
      · simp only [Option.bind_eq_some_iff] at reconciled
        obtain ⟨theirs, _, reconciled⟩ := reconciled
        split at reconciled
        · obtain ⟨m', rewound, same⟩ := Option.map_eq_some_iff.mp reconciled
          cases same
          exact ⟨first.trans (rewind_steady rewound), rfl⟩
        · cases reconciled
          exact ⟨first, rfl⟩

theorem replicaRound_full {env : Env A B H} {p : Store B B} {l : ChainLog B B}
    (served : Store.Holds p l) (full : l.head + 1 = 2 ^ 64) {fuel : Nat} {peer : Route}
    {n n' : Node A B H} (folding : n.producing = false) (follows : n.peer = some peer)
    (owes : n.needsReconcile = true)
    (returned : n.replicaRound env fuel (some p) = some n') : n'.store.head + 1 < 2 ^ 64 := by
  simp only [replicaRound, folding, follows, owes, Bool.false_eq_true, if_false, if_true,
    Option.bind_eq_bind, Option.bind_eq_some_iff] at returned
  obtain ⟨⟨answered, m⟩, reconciled, returned⟩ := returned
  obtain ⟨steady, rfl⟩ := reconcile_steady reconciled
  have there : m.peer = some peer := steady.2.trans follows
  rw [if_pos there] at returned
  simp only [if_true, syncOnce, Option.bind_eq_bind, Option.bind_eq_some_iff, Store.chainHead,
    served.head] at returned
  obtain ⟨⟨adopted, m'⟩, asked, synced⟩ := returned
  have kept : Steady { m with needsReconcile := false } m' :=
    adoptPeerCheckpointIfAhead_steady asked
  -- Reconciling changes neither whom the node follows nor that it folds.
  have follows' : m'.followsNot peer = false := by
    rw [kept.followsNot]
    simp [followsNot, steady.1, there, folding]
  exact syncPages_full served full follows' synced

/-! ## Convergence -/

/-- With enough fuel a round returns, and the replica's log is the primary's. -/
def Converges (n : Node A B H) (env : Env A B H) (p : Store B B) : Prop :=
  ∃ enough, ∀ fuel, enough ≤ fuel →
    ∃ n', n.replicaRound env fuel (some p) = some n' ∧ SameChain n'.store p

/-- The primary's log must leave a height free. -/
theorem Converges.short {env : Env A B H} {n : Node A B H} {p : Store B B} {f l : ChainLog B B}
    {peer : Route} (tails : Tailing n peer f) (served : Store.Holds p l)
    (owes : n.needsReconcile = true) (converges : n.Converges env p) : l.head + 1 < 2 ^ 64 := by
  obtain ⟨enough, converges⟩ := converges
  obtain ⟨n', returned, same⟩ := converges enough (Nat.le_refl _)
  by_contra past
  have full : l.head + 1 = 2 ^ 64 := by
    have := served.small
    omega
  have stops := replicaRound_full served full tails.folding tails.follows owes returned
  rw [same.head, served.head] at stops
  omega

/-- A round that converges read all it had to, and left the state of one checkpoint height. -/
theorem Converges.reads {env : Env A B H} {n : Node A B H} {p : Store B B} {f l : ChainLog B B}
    {peer : Route} (tails : Tailing n peer f) (served : Store.Holds p l)
    (owes : n.needsReconcile = true) (converges : n.Converges env p) :
    (f.base = l.base → f.state = l.state) ∧ Fetchable env f l := by
  have short := converges.short tails served owes
  obtain ⟨enough, converges⟩ := converges
  let fuel := enough + l.head + syncPage + 2
  have heads : l.head + 1 < fuel := by omega
  have pages : syncPage < fuel := by omega
  obtain ⟨n', returned, same⟩ := converges fuel (by omega)
  obtain ⟨reads, m', holds, _, _, state⟩ :=
    (replicaRound_lands env served short tails owes heads pages).sound n' returned
  have agree : f.base = l.base → f.state = l.state := by
    intro level
    rw [if_pos level] at state
    rw [← state, ← Store.checkpointState_eq holds, same.state, Store.checkpointState_eq served]
  exact ⟨agree, (fetchable_iff agree).mpr reads⟩

/-- A round that reconciles converges exactly if the primary's log leaves a height free, the states
are the same where both checkpoints are at one height, and the replica can read what it has to
fetch. -/
theorem replicaRound_converges {env : Env A B H} {n : Node A B H} {p : Store B B}
    {f l : ChainLog B B} {peer : Route} (tails : Tailing n peer f) (served : Store.Holds p l)
    (owes : n.needsReconcile = true) :
    n.Converges env p ↔ p.head + 1 < 2 ^ 64 ∧
      (n.store.lastCheckpoint = p.lastCheckpoint →
        n.store.checkpointState = p.checkpointState) ∧ Fetchable env f l := by
  rw [served.head, tails.holds.last, served.last, Store.checkpointState_eq tails.holds,
    Store.checkpointState_eq served]
  constructor
  · intro converges
    exact ⟨converges.short tails served owes, converges.reads tails served owes⟩
  · rintro ⟨short, agree, fetchable⟩
    refine ⟨l.head + syncPage + 2, fun fuel enough => ?_⟩
    have heads : l.head + 1 < fuel := by omega
    have pages : syncPage < fuel := by omega
    have lands := replicaRound_lands env served short tails owes heads pages
    obtain ⟨n', landed⟩ := lands.total ((fetchable_iff agree).mp fetchable)
    obtain ⟨_, m', holds, base, blocks, state⟩ := lands.sound n' landed
    have whole : m' = l := by
      refine ChainLog.ext base ?_ blocks
      rw [state]
      -- At one height the two states have to agree already: the node keeps its own.
      split
      next level => exact agree level
      · rfl
    subst whole
    exact ⟨n', landed, .of_holds holds served⟩

end Comparing

end Executing

/-! ## Two replicas of one litter -/

/-- A node that has just seen a new primary. -/
def soloReplica (store : Store (Plain Nat) (Plain Nat)) : Node Nat (Plain Nat) (Plain Nat) :=
  { started soloEnv store soloMesh with peer := some "http://sora", needsReconcile := true }

def freshStore : Store (Plain Nat) (Plain Nat) := .openDb Store.emptyDb

theorem freshStore_holds : Store.Holds freshStore ChainLog.genesis := Store.openDb_empty

/-- A block with one effect, closed at a time of its own. -/
def soloBlock (at_ : Nat) : Plain Nat := .body [.opened 0 ⟨1, 0⟩ "build"] (some at_)

/-- A state as of block 1, in some epoch. -/
def soloSnapshot (epoch : Nat) : Plain Nat :=
  .snapshot { soloEnv.genesis true with epoch := epoch }

theorem soloReplica_reloads {s : Store (Plain Nat) (Plain Nat)}
    {f : ChainLog (Plain Nat) (Plain Nat)} (readable : Readable soloEnv f)
    (holds : Store.Holds s f) :
    ∃ n, (soloReplica s).reloadFromStore soloEnv = some n ∧ Tailing n "http://sora" f ∧
      n.needsReconcile = true := by
  have reloads := reload_tails soloEnv (n := soloReplica s) rfl rfl holds
  obtain ⟨n, reloaded⟩ := reloads.total readable
  exact ⟨n, reloaded, (reloads.sound n reloaded).2, by rw [reloadFromStore_refolded reloaded]; rfl⟩

theorem readable_soloSnapshot (epoch : Nat) :
    Readable soloEnv (.trusted 1 (soloSnapshot epoch) Nat.one_pos) := by
  refine ⟨by simp [ChainLog.trusted], fun blob same => ?_⟩
  obtain rfl := Option.some.inj same
  exact ⟨_, rfl, genesis_blockNumber soloEnv true⟩

/-- Logs that share a height and not its block. -/
theorem replicaRound_converges_diverged :
    let mine := (freshStore.append true 1 (soloBlock 1)).2
    let theirs := ((freshStore.append true 1 (soloBlock 2)).2.append true 2 (soloBlock 3)).2
    ∃ n, (soloReplica mine).reloadFromStore soloEnv = some n ∧ n.Converges soloEnv theirs := by
  intro mine theirs
  have holds : Store.Holds mine (ChainLog.genesis.push (soloBlock 1)) :=
    freshStore_holds.appended (by decide) _
  have first : Store.Holds (freshStore.append true 1 (soloBlock 2)).2
      (ChainLog.genesis.push (soloBlock 2)) := freshStore_holds.appended (by decide) _
  have served : Store.Holds theirs ((ChainLog.genesis.push (soloBlock 2)).push (soloBlock 3)) :=
    first.appended (by decide) _
  have readable : Readable soloEnv (ChainLog.genesis.push (soloBlock 1)) :=
    ⟨by decide, by simp [ChainLog.genesis, ChainLog.push]⟩
  have readable' : Readable soloEnv ((ChainLog.genesis.push (soloBlock 2)).push (soloBlock 3)) :=
    ⟨by decide, by simp [ChainLog.genesis, ChainLog.push]⟩
  obtain ⟨n, reloaded, tails, owes⟩ := soloReplica_reloads readable holds
  refine ⟨n, reloaded, (replicaRound_converges tails served owes).mpr ?_⟩
  rw [reloadFromStore_refolded reloaded]
  exact ⟨by decide, fun _ => rfl, fun trails => absurd trails.2 (by decide), fun _ => readable'⟩

/-- Checkpoints at one height, with states of two epochs. -/
theorem replicaRound_converges_level :
    let mine := (freshStore.adoptCheckpoint true 1 (soloSnapshot 0)).2
    let theirs := (freshStore.adoptCheckpoint true 1 (soloSnapshot 1)).2
    ∃ n, (soloReplica mine).reloadFromStore soloEnv = some n ∧ ¬ n.Converges soloEnv theirs := by
  intro mine theirs
  have held := fun epoch =>
    freshStore_holds.adopted Nat.one_pos (by decide) (soloSnapshot epoch)
  obtain ⟨n, reloaded, tails, owes⟩ := soloReplica_reloads (readable_soloSnapshot 0) (held 0)
  refine ⟨n, reloaded, fun converges => ?_⟩
  have same := (converges.reads tails (held 1) owes).1 rfl
  have epochs : soloSnapshot 0 = soloSnapshot 1 := Option.some.inj same
  exact absurd (congrArg Storage.epoch (Plain.snapshot.inj epochs)) Nat.zero_ne_one

end Node

end AkumaMiot

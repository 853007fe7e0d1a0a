import AkumaMiot.Lib.Machine
import AkumaMiot.Lib.Recent
import AkumaMiot.Node.Converge
import AkumaMiot.Node.Waiting
import AkumaMiot.Node.Works

/-!
# The event log of a node

What `/events` answers from. A node numbers what it absorbs from 1 since its log was last rebuilt,
keeps the latest entries, and stamps those of a block when the block is sealed. None of this
depends on the role, on what a peer sends or on what the database takes.
-/
namespace AkumaMiot

variable {A B H : Type}

namespace Entry

/-- The entries that `effects` make in `block`, after number `seq`. -/
def numbered (block : Nat) (at_ : Option Nat) (seq : Nat) : List (Effect A) → List (Entry A)
  | [] => []
  | e :: es => ⟨seq + 1, block, e, at_⟩ :: numbered block at_ (seq + 1) es

/-- The seal time, on an entry of that block. -/
def stamp (height : Nat) (at_ : Option Nat) (e : Entry A) : Entry A :=
  if e.block = height then { e with at_ := at_ } else e

/-- The loop of `stamp_block`, on the entries from the latest down: it ends at a lower block. -/
def stampFrom (height : Nat) (at_ : Option Nat) : List (Entry A) → List (Entry A)
  | [] => []
  | e :: es => if e.block < height then e :: es else e.stamp height at_ :: stampFrom height at_ es

@[simp] theorem stamp_seq (height : Nat) (at_ : Option Nat) (e : Entry A) :
    (e.stamp height at_).seq = e.seq := by
  unfold stamp
  split <;> rfl

@[simp] theorem stamp_block (height : Nat) (at_ : Option Nat) (e : Entry A) :
    (e.stamp height at_).block = e.block := by
  unfold stamp
  split <;> rfl

@[simp] theorem stamp_effect (height : Nat) (at_ : Option Nat) (e : Entry A) :
    (e.stamp height at_).effect = e.effect := by
  unfold stamp
  split <;> rfl

theorem numbered_seq (block : Nat) (at_ : Option Nat) (seq : Nat) (effects : List (Effect A)) :
    (numbered block at_ seq effects).map Entry.seq = List.range' (seq + 1) effects.length := by
  induction effects generalizing seq with
  | nil => rfl
  | cons e es ih => rw [numbered, List.map_cons, ih, List.length_cons, List.range'_succ]

theorem numbered_effect (block : Nat) (at_ : Option Nat) (seq : Nat) (effects : List (Effect A)) :
    (numbered block at_ seq effects).map Entry.effect = effects := by
  induction effects generalizing seq with
  | nil => rfl
  | cons e es ih => rw [numbered, List.map_cons, ih]

theorem numbered_length (block : Nat) (at_ : Option Nat) (seq : Nat) (effects : List (Effect A)) :
    (numbered block at_ seq effects).length = effects.length := by
  have counted := congrArg List.length (numbered_effect block at_ seq effects)
  rwa [List.length_map] at counted

theorem numbered_mem {block : Nat} {at_ : Option Nat} {seq : Nat} {effects : List (Effect A)}
    {e : Entry A} (member : e ∈ numbered block at_ seq effects) : e.block = block ∧ e.at_ = at_ := by
  induction effects generalizing seq with
  | nil => cases member
  | cons f fs ih =>
    rcases List.mem_cons.mp member with rfl | member
    · exact ⟨rfl, rfl⟩
    · exact ih member

theorem stamp_numbered (block : Nat) (before at_ : Option Nat) (seq : Nat)
    (effects : List (Effect A)) :
    (numbered block before seq effects).map (stamp block at_) = numbered block at_ seq effects := by
  induction effects generalizing seq with
  | nil => rfl
  | cons e es ih =>
    rw [numbered, List.map_cons, ih]
    simp only [stamp, if_pos, numbered]

/-- Entries of lower blocks are not stamped. -/
theorem stamp_lower {height : Nat} {at_ : Option Nat} {es : List (Entry A)}
    (lower : ∀ e ∈ es, e.block < height) : es.map (stamp height at_) = es := by
  have same : es.map (stamp height at_) = es.map id :=
    List.map_congr_left fun e member => if_neg (Nat.ne_of_lt (lower e member))
  rw [same, List.map_id]

/-- On entries whose blocks only fall, the loop stamps what a pass over all of them would. -/
theorem stampFrom_falling {height : Nat} {at_ : Option Nat} {es : List (Entry A)}
    (falling : es.Pairwise fun later earlier => earlier.block ≤ later.block) :
    stampFrom height at_ es = es.map (stamp height at_) := by
  induction es with
  | nil => rfl
  | cons e es ih =>
    obtain ⟨first, rest⟩ := List.pairwise_cons.mp falling
    rw [stampFrom]
    split
    next low =>
      symm
      apply stamp_lower
      intro f member
      rcases List.mem_cons.mp member with rfl | member
      · exact low
      · exact Nat.lt_of_le_of_lt (first f member) low
    · rw [List.map_cons, ih rest]

end Entry

namespace Node

/-- `/events`: what is numbered above `since`. -/
def events (n : Node A B H) (since : Nat) : List (Entry A) := n.log.filter (since < ·.seq)

/-- What a reader of a node's event log can rely on. -/
structure Fed (n : Node A B H) : Prop where
  /-- The latest entries are kept, numbered without a gap up to the node's own number. -/
  kept : n.log.length = min n.seq logCap
  numbered : n.log.map Entry.seq = List.range' (n.seq - n.log.length + 1) n.log.length
  sorted : n.log.Pairwise (·.block ≤ ·.block)
  opened : ∀ e ∈ n.log, e.block ≤ n.block
  /-- An entry of the open block has no seal time yet. -/
  unsealed : ∀ e ∈ n.log, e.block = n.block → e.at_ = none
  /-- The open block's body is what the log tells of it on the record, as far back as it goes. -/
  body : ((n.log.filter (·.block = n.block)).map Entry.effect).filter (!offRecord ·) <:+ n.pending
  answers : ∀ since, n.events since = n.log.rtake (n.seq - since)
  /-- Who is behind by no more than is kept misses nothing. -/
  gapless : ∀ since, since ≤ n.seq → n.seq ≤ since + logCap →
    (n.events since).map Entry.seq = List.range' (since + 1) (n.seq - since)
  /-- The loop over the log that ends early stamps what the whole log would. -/
  stamps : ∀ at_, n.stampBlock n.block at_ =
    { n with log := (Entry.stampFrom n.block at_ n.log.reverse).reverse }

/-- `all` is all that the log was given since it was last rebuilt. -/
structure History (n : Node A B H) (all : List (Entry A)) : Prop where
  kept : n.log = all.rtake logCap
  numbered : all.map Entry.seq = List.range' 1 n.seq
  sorted : all.Pairwise (·.block ≤ ·.block)
  opened : ∀ e ∈ all, e.block ≤ n.block
  unsealed : ∀ e ∈ all, e.block = n.block → e.at_ = none
  body : n.pending = ((all.filter (·.block = n.block)).map Entry.effect).filter (!offRecord ·)

theorem History.length {n : Node A B H} {all : List (Entry A)} (history : n.History all) :
    all.length = n.seq := by
  have counted := congrArg List.length history.numbered
  rwa [List.length_map, List.length_range'] at counted

theorem History.fed {n : Node A B H} {all : List (Entry A)} (history : n.History all) :
    n.Fed := by
  have suffix : n.log <:+ all := by
    rw [history.kept]
    exact Recent.rtake_suffix all logCap
  have member : ∀ {e}, e ∈ n.log → e ∈ all := fun there => suffix.subset there
  have kept : n.log.length = min n.seq logCap := by
    rw [history.kept, Recent.length_rtake, history.length, Nat.min_comm]
  have sorted : n.log.Pairwise (·.block ≤ ·.block) := history.sorted.sublist suffix.sublist
  have numbered : n.log.map Entry.seq =
      List.range' (n.seq - n.log.length + 1) n.log.length := by
    have first : 1 + (n.seq - logCap) = n.seq - min n.seq logCap + 1 := by
      generalize logCap = cap
      omega
    have count : n.seq - (n.seq - logCap) = min n.seq logCap := by
      generalize logCap = cap
      omega
    rw [kept, history.kept, Recent.map_rtake, history.numbered, List.rtake, List.length_range',
      List.drop_range', Nat.mul_one, first, count]
  have answers : ∀ since, n.events since = n.log.rtake (n.seq - since) := by
    intro since
    rw [events, Recent.filter_numbered numbered]
    congr 1
    omega
  refine ⟨kept, numbered, sorted, fun e there => history.opened e (member there),
    fun e there => history.unsealed e (member there), ?_, answers, fun since known behind => ?_,
    fun at_ => ?_⟩
  · rw [history.body]
    obtain ⟨lost, whole⟩ := suffix
    rw [← whole, List.filter_append, List.map_append, List.filter_append]
    exact List.suffix_append _ _
  · have within : n.seq - since ≤ logCap := by
      generalize logCap = cap at behind
      omega
    have first : 1 + (n.seq - (n.seq - since)) = since + 1 := by omega
    have count : n.seq - (n.seq - (n.seq - since)) = n.seq - since := by omega
    rw [answers, history.kept, Recent.rtake_rtake, Nat.min_eq_left within, Recent.map_rtake,
      history.numbered, List.rtake, List.length_range', List.drop_range', Nat.mul_one, first, count]
  · have falling : n.log.reverse.Pairwise fun later earlier => earlier.block ≤ later.block :=
      List.pairwise_reverse.mpr sorted
    rw [Entry.stampFrom_falling falling, List.map_reverse, List.reverse_reverse]
    rfl

/-! ## Absorbing -/

/-- Nothing but the log, its number, the open block and its body is told of. -/
theorem History.same {n m : Node A B H} {all : List (Entry A)} (history : n.History all)
    (log : m.log = n.log) (seq : m.seq = n.seq) (block : m.block = n.block)
    (pending : m.pending = n.pending) : m.History all where
  kept := by rw [log, history.kept]
  numbered := by rw [seq, history.numbered]
  sorted := history.sorted
  opened e there := by
    rw [block]
    exact history.opened e there
  unsealed e there here := history.unsealed e there (block ▸ here)
  body := by rw [pending, block, history.body]

theorem absorbOne_log {n : Node A B H} {all : List (Entry A)} (kept : n.log = all.rtake logCap)
    (e : Effect A) :
    (n.absorbOne e).log = (all ++ Entry.numbered n.block none n.seq [e]).rtake logCap := by
  have pushed : (n.absorbOne e).log = Recent.push logCap n.log ⟨n.seq + 1, n.block, e, none⟩ := rfl
  rw [pushed, kept, Recent.push_rtake (by decide)]
  rfl

/-- Whatever is absorbed, the latest entries are kept. -/
theorem absorb_log {n : Node A B H} {all : List (Entry A)} (kept : n.log = all.rtake logCap)
    (effects : List (Effect A)) :
    (n.absorb effects).log = (all ++ Entry.numbered n.block none n.seq effects).rtake logCap := by
  induction effects generalizing n all with
  | nil =>
    rw [Entry.numbered, List.append_nil]
    exact kept
  | cons e es ih =>
    have grown := ih (absorbOne_log kept e)
    rw [List.append_assoc] at grown
    exact grown

theorem History.absorbOne {n : Node A B H} {all : List (Entry A)} (history : n.History all)
    (e : Effect A) : (n.absorbOne e).History (all ++ Entry.numbered n.block none n.seq [e]) where
  kept := absorbOne_log history.kept e
  numbered := by
    have next : (n.absorbOne e).seq = n.seq + 1 := rfl
    rw [next, List.map_append, history.numbered, Entry.numbered_seq, List.range'_1_concat,
      Nat.add_comm 1]
    rfl
  sorted := by
    refine List.pairwise_append.mpr ⟨history.sorted, List.pairwise_singleton _ _, ?_⟩
    intro old there new here
    rw [(Entry.numbered_mem here).1]
    exact history.opened old there
  opened f there := by
    rcases List.mem_append.mp there with old | new
    · exact history.opened f old
    · exact Nat.le_of_eq (Entry.numbered_mem new).1
  unsealed f there here := by
    rcases List.mem_append.mp there with old | new
    · exact history.unsealed f old here
    · exact (Entry.numbered_mem new).2
  body := by
    have block : (n.absorbOne e).block = n.block := rfl
    have grown : (n.absorbOne e).pending = n.pending ++ [e].filter (!offRecord ·) := by
      cases off : offRecord e with
      | true => simp [Node.absorbOne, off]
      | false => simp [Node.absorbOne, off]
    rw [block, grown, history.body, List.filter_append, List.map_append, List.filter_append]
    simp [Entry.numbered]

theorem History.absorb {n : Node A B H} {all : List (Entry A)} (history : n.History all)
    (effects : List (Effect A)) :
    (n.absorb effects).History (all ++ Entry.numbered n.block none n.seq effects) := by
  induction effects generalizing n all with
  | nil =>
    rw [Entry.numbered, List.append_nil]
    exact history
  | cons e es ih =>
    have grown := ih (history.absorbOne e)
    rw [List.append_assoc] at grown
    exact grown

/-- The open block is sealed, and the next one opens. -/
theorem History.opens {n m : Node A B H} {all : List (Entry A)} (history : n.History all)
    (at_ : Option Nat) (log : m.log = n.log.map (Entry.stamp n.block at_)) (seq : m.seq = n.seq)
    (block : m.block = n.block + 1) (pending : m.pending = []) :
    m.History (all.map (Entry.stamp n.block at_)) := by
  have lower : ∀ e ∈ all.map (Entry.stamp n.block at_), e.block ≤ n.block := by
    intro e there
    obtain ⟨old, member, rfl⟩ := List.mem_map.mp there
    rw [Entry.stamp_block]
    exact history.opened old member
  refine ⟨?_, ?_, ?_, fun e there => ?_, fun e there here => ?_, ?_⟩
  · rw [log, history.kept, Recent.map_rtake]
  · rw [seq, ← history.numbered, List.map_map]
    exact List.map_congr_left fun e _ => Entry.stamp_seq _ _ e
  · rw [List.pairwise_map]
    simpa using history.sorted
  · have low := lower e there
    omega
  -- Nothing is of the block that opens.
  · have low := lower e there
    omega
  · have none_ : (all.map (Entry.stamp n.block at_)).filter (·.block = m.block) = [] := by
      rw [List.filter_eq_nil_iff]
      intro e there
      have low := lower e there
      simp only [decide_eq_true_eq]
      omega
    rw [pending, none_]
    rfl

/-! ## Whatever a node does -/

/-- The event log is in order, and the open block is the one the chain state has open. -/
def Feeds (n : Node A B H) : Prop := n.Seated ∧ ∃ all, n.History all

theorem Feeds.rests {n m : Node A B H} (feeds : n.Feeds) (rests : n.Rests m) : m.Feeds := by
  obtain ⟨seated, all, history⟩ := feeds
  refine ⟨?_, all, history.same rests.log rests.seq rests.block rests.pending⟩
  rw [Seated, rests.ext, rests.block]
  exact seated

/-- What the chain state has told is absorbed. -/
theorem Feeds.drainAbsorb {n m : Node A B H} (feeds : n.Feeds) (log : m.log = n.log)
    (seq : m.seq = n.seq) (block : m.block = n.block) (pending : m.pending = n.pending)
    (number : m.ext.blockNumber = n.ext.blockNumber) : m.drainAbsorb.Feeds := by
  obtain ⟨seated, all, history⟩ := feeds
  refine ⟨?_, _, (history.same (m := m.drain.2) log seq block pending).absorb m.drain.1⟩
  rw [Seated, drainAbsorb_eq]
  exact number.trans (seated.trans block.symm)

/-- A log that was just cleared. -/
theorem cleared_feeds {n : Node A B H} (seated : n.Seated) (log : n.log = []) (seq : n.seq = 0)
    (pending : n.pending = []) : n.Feeds := by
  refine ⟨seated, [], ?_, ?_, .nil, nofun, nofun, ?_⟩
  · rw [log, List.rtake_nil]
  · rw [seq]
    rfl
  · rw [pending]
    rfl

theorem tickNow_blockNumber (s : Storage A) (rt : Runtime A) :
    (s.tickNow rt).blockNumber = s.blockNumber := by
  unfold Storage.tickNow
  simp only
  split
  · exact (Storage.deposit_frame _ _).2.1
  · rfl

theorem initializeBlock_asserts {n n' : Node A B H} {env : Env A B H}
    (opened : n.initializeBlock env = some n') : n.block = n.ext.blockNumber + 1 := by
  unfold initializeBlock at opened
  split at opened
  next asserted => exact asserted
  · cases opened

theorem persist_log (n : Node A B H) (env : Env A B H) (height at_ : Nat) (commits : Commits) :
    (n.persist env height at_ commits).log = n.log.map (Entry.stamp height (some at_)) := by
  unfold persist
  simp only
  split
  · rw [saveHard_eq]
    rfl
  · rfl

theorem Feeds.advance {env : Env A B H} {n n' : Node A B H} {at_ : Nat} {commits : Commits}
    (feeds : n.Feeds) (advanced : n.advance env at_ commits = some n') : n'.Feeds := by
  obtain ⟨seated, all, history⟩ := feeds
  obtain ⟨m, opened, rfl⟩ := Option.map_eq_some_iff.mp advanced
  obtain rfl := initializeBlock_eq opened
  have log := persist_log n env n.block at_ commits
  rw [persist_eq] at log ⊢
  -- Whether or not the log is shrunk too, the open block is closed and the next one is open.
  have closed : ∀ m : Node A B H, m.log = n.log.map (Entry.stamp n.block (some at_)) →
      m.seq = n.seq → m.block = n.block + 1 → m.pending = [] →
      m.ext.blockNumber = n.ext.blockNumber + 1 → m.drainAbsorb.Feeds := by
    intro m log seq block pending number
    have opens : m.Feeds := by
      refine ⟨?_, _, history.opens _ log seq block pending⟩
      rw [Seated, number, block, seated]
    exact opens.drainAbsorb rfl rfl rfl rfl rfl
  simp only
  split
  · exact closed _ log rfl rfl rfl (Storage.initializeBlock_blockNumber _ _)
  · exact closed _ log rfl rfl rfl (Storage.initializeBlock_blockNumber _ _)

/-! ### Folding -/

section Executing

variable [DecidableEq A] {env : Env A B H}

/-- A block that was folded is the one that was open. -/
theorem applyBlock_height {n n' : Node A B H} {height : Nat} {effects : List (Effect A)}
    {at_ : Option Nat} (seated : n.Seated)
    (applied : n.applyBlock env height effects at_ = some n') : height = n.block := by
  obtain ⟨m, opened, _⟩ := Option.map_eq_some_iff.mp applied
  let folded := effects.foldl (fun s e => s.replayEffect env.rt e n.ext.now) n.ext
  have asserted : height + 1 = ({ n with ext := folded }.absorb effects).ext.blockNumber + 1 :=
    initializeBlock_asserts opened
  have number : folded.blockNumber = n.ext.blockNumber :=
    (Storage.replayEffects_table n.ext env.rt effects n.ext.now).2.1
  have same : ({ n with ext := folded }.absorb effects).ext = folded :=
    congrArg Node.ext (absorb_eq { n with ext := folded } effects)
  rw [same, number, seated] at asserted
  exact Nat.succ.inj asserted

/-- What folding the open block leaves of the log. -/
theorem applyBlock_log {n n' : Node A B H} {height : Nat} {effects : List (Effect A)}
    {at_ : Option Nat} (applied : n.applyBlock env height effects at_ = some n') :
    n'.log = (n.absorb effects).log.map (Entry.stamp height at_) ∧
      n'.seq = n.seq + effects.length := by
  obtain ⟨m, opened, rfl⟩ := Option.map_eq_some_iff.mp applied
  obtain rfl := initializeBlock_eq opened
  have absorbed : ∀ ext, (({ n with ext := ext } : Node A B H).absorb effects).log =
      (n.absorb effects).log := by
    intro ext
    have apart : ∀ (es : List (Effect A)) (a b : Node A B H), a.log = b.log → a.seq = b.seq →
        a.block = b.block → (a.absorb es).log = (b.absorb es).log := by
      intro es
      induction es with
      | nil => exact fun a b log _ _ => log
      | cons e es ih =>
        intro a b log seq block
        apply ih (a.absorbOne e) (b.absorbOne e)
        · simp only [absorbOne, log, seq, block]
        · simp only [absorbOne, seq]
        · exact block
    exact apart effects _ _ rfl rfl rfl
  refine ⟨?_, ?_⟩
  · rw [← absorbed]
    rfl
  · show (Node.absorb _ effects).seq = _
    rw [absorb_eq]

theorem Feeds.applyBlock {n n' : Node A B H} {height : Nat} {effects : List (Effect A)}
    {at_ : Option Nat} (feeds : n.Feeds)
    (applied : n.applyBlock env height effects at_ = some n') : n'.Feeds := by
  obtain ⟨seated, all, history⟩ := feeds
  have height_eq := applyBlock_height seated applied
  have closes := applyBlock_eq applied
  obtain ⟨log, seq⟩ := applyBlock_log applied
  have block : (n.absorb effects).block = n.block := by rw [absorb_eq]
  refine ⟨?_, _, (history.absorb effects).opens at_ (m := n') ?_ ?_ ?_ ?_⟩
  · obtain ⟨m, opened, rfl⟩ := Option.map_eq_some_iff.mp applied
    have asserted := initializeBlock_asserts opened
    rw [initializeBlock_eq opened]
    exact (Storage.initializeBlock_blockNumber _ _).trans asserted.symm
  · rw [log, block, height_eq]
  · rw [seq, absorb_eq]
  · rw [closes, block, height_eq]
  · rw [closes]

theorem replayBlocks_feeds {n n' : Node A B H} (feeds : n.Feeds) {h count : Nat}
    (next : n.block = h) (replayed : replayBlocks env n (List.range' h count) = some n') :
    n'.Feeds := by
  induction count generalizing n h with
  | zero =>
    cases replayed
    exact feeds
  | succ count ih =>
    rw [List.range'_succ] at replayed
    simp only [replayBlocks, Option.bind_eq_bind, Option.bind_eq_some_iff] at replayed
    obtain ⟨body, _, ⟨effects, at_⟩, _, m, applied, replayed⟩ := replayed
    have here : ({ n with block := h } : Node A B H) = n := by rw [← next]
    rw [here] at applied
    refine ih (feeds.applyBlock applied) ?_ replayed
    rw [applyBlock_eq applied]

/-- Whatever the log held before, it is in order once it is rebuilt. -/
theorem reloadFromStore_feeds {n n' : Node A B H}
    (reloaded : n.reloadFromStore env = some n') : n'.Feeds := by
  unfold reloadFromStore replay at reloaded
  simp only [Option.bind_eq_bind] at reloaded
  split at reloaded
  -- From a checkpoint, the block above it is open before any is folded.
  next compacted =>
    obtain ⟨m, restored, replayed⟩ := Option.bind_eq_some_iff.mp reloaded
    obtain ⟨blob, _, restored⟩ := Option.bind_eq_some_iff.mp restored
    have frame := restoreFromSnapshot_eq restored
    have log : m.log = [] := by rw [frame]
    have seq : m.seq = 0 := by rw [frame]
    have pending : m.pending = [] := by rw [frame]
    have block : m.block = n.store.lastCheckpoint + 1 := by rw [frame]
    simp only [restoreFromSnapshot, Option.bind_eq_bind, Option.bind_eq_some_iff,
      Option.pure_def, Option.some.injEq] at restored
    obtain ⟨ext, _, opening, opened, rfl⟩ := restored
    have asserted := initializeBlock_asserts opened
    have seated : opening.drainDiscard.Seated := by
      rw [initializeBlock_eq opened]
      exact (Storage.initializeBlock_blockNumber _ _).trans asserted.symm
    exact replayBlocks_feeds (cleared_feeds seated log seq pending) block replayed
  next fresh =>
    have genesis : n.store.lastCheckpoint = 0 := by omega
    have seated : ({ n with
        ext := env.genesis (!n.producing)
        block := 1
        log := []
        seq := 0
        pending := []
        pendingCompaction := false } : Node A B H).Seated := genesis_blockNumber env _
    refine replayBlocks_feeds (cleared_feeds seated rfl rfl rfl) ?_ reloaded
    rw [genesis]

/-- A process just started is one that threw away what it had. -/
theorem open_reloads (env : Env A B H) (store : Store B B) (mesh : Mesh) :
    Node.open_ env store mesh = (started env store mesh).reloadFromStore env := rfl

/-! ### Executing -/

theorem dispatch_blockNumber {s s' : Storage A} {rt : Runtime A} {origin : Origin A}
    {c : LitterCall A} (accepted : s.dispatch rt origin c = .ok s') :
    s'.blockNumber = s.blockNumber := by
  cases Storage.dispatch_accepted accepted with
  | @verb who call effects t answer passes is_ answered =>
    exact (Storage.deposit_frame _ _).2.1
  | @own who c e passes recorded =>
    have told := (Storage.deposit_frame (s.replayEffect rt e s.now) [e]).2.1
    exact told.trans (s.replayEffect_table rt e s.now).2.2.1
  | clearAll passes answered => exact (Storage.deposit_frame _ _).2.1
  | requestCompaction passes => rfl
  | setRoot who => rfl

theorem applyExtrinsic_blockNumber (s : Storage A) (env : Env A B H)
    (uxt : UncheckedExtrinsic A) :
    (s.applyExtrinsic env uxt).2.blockNumber = s.blockNumber := by
  unfold Storage.applyExtrinsic
  split
  · rfl
  · split
    · rfl
    next spent checked =>
      have number : spent.blockNumber = s.blockNumber := by
        unfold Storage.checkNonce at checked
        split at checked
        · cases checked
        · split at checked
          · cases checked
          · split at checked
            · cases checked
            · split at checked
              · cases checked
              · cases checked
                rfl
      split
      next accepted => exact (dispatch_blockNumber accepted).trans number
      · exact number

/-- An executed extrinsic, in the terms of its state alone. -/
theorem submit_eq (n : Node A B H) (env : Env A B H) (uxt : UncheckedExtrinsic A) :
    ∃ compaction, (n.submit env uxt).2 = { drainAbsorb
      { n with ext := (n.ext.applyExtrinsic env uxt).2 } with pendingCompaction := compaction } := by
  unfold submit
  cases applied : n.ext.applyExtrinsic env uxt with
  | mk r ext =>
    simp only
    split
    · exact ⟨_, rfl⟩
    · exact ⟨_, rfl⟩

/-- Every move keeps the event log in order. -/
theorem Works.feeds {may : May B} {n n' : Node A B H}
    (works : Works env may n n') (feeds : n.Feeds) : n'.Feeds := by
  induction works with
  | rests rests => exact feeds.rests rests
  | submitted n uxt leads =>
    obtain ⟨compaction, executed⟩ := submit_eq n env uxt
    rw [executed]
    obtain ⟨seated, all, history⟩ := feeds.drainAbsorb
      (m := { n with ext := (n.ext.applyExtrinsic env uxt).2 }) rfl rfl rfl rfl
      (applyExtrinsic_blockNumber n.ext env uxt)
    exact ⟨seated, all, history.same rfl rfl rfl rfl⟩
  | closed leads taken advanced => exact feeds.advance advanced
  | promoted follows => exact feeds.drainAbsorb rfl rfl rfl rfl (tickNow_blockNumber _ _)
  | demoted leads reloaded => exact reloadFromStore_feeds reloaded
  | @applied n n' commits height body store effects at_ follows opens appended applied =>
    obtain ⟨seated, all, history⟩ := feeds
    have logged : ({ n with store := store } : Node A B H).Feeds :=
      ⟨seated, all, history.same rfl rfl rfl rfl⟩
    exact logged.applyBlock applied
  | adopted follows offered adopted reloaded => exact reloadFromStore_feeds reloaded
  | rewound follows rewound reloaded => exact reloadFromStore_feeds reloaded
  | trans _ _ first second => exact second (first feeds)

end Executing

end Node

namespace Process

variable [DecidableEq A] {env : Env A B H} {readHard : List UInt8 → Option Hard}

theorem open_feeds {cfg : NodeConfig} {store : Store B B} {p : Process A B H}
    (opened : open_ env readHard cfg store = some p) : p.node.Feeds := by
  simp only [open_, Option.bind_eq_bind, Option.bind_eq_some_iff, Option.pure_def,
    Option.some.injEq] at opened
  obtain ⟨hard, _, n, opened, rfl⟩ := opened
  exact Node.reloadFromStore_feeds ((Node.open_reloads env store _).symm.trans opened)

variable [DecidableEq H]

theorem step_feeds {p p' : Process A B H} (feeds : p.node.Feeds) {e : ProcessEvent B H}
    (stepped : p.step env readHard e = some p') : p'.node.Feeds := by
  cases restarts : e.restarts with
  | false => exact (step_works restarts stepped).feeds feeds
  | true =>
    cases e with
    | restart cfg => exact open_feeds stepped
    | _ => cases restarts

/-- In every state of every run of a node, its event log is in order: nothing that a client, a
peer, the mesh or the database does, and no change of role, leaves a gap in the numbers, an entry
out of order or a body without what the log tells of it on the record. -/
theorem fed_run (env : Env A B H) (readHard : List UInt8 → Option Hard) (cfg : NodeConfig)
    (store : Store B B) (p : Process A B H) (opened : open_ env readHard cfg store = some p)
    (events : List (ProcessEvent B H)) (q : Process A B H)
    (reached : Machine.run (next env readHard) (some p) events = some q) : q.node.Fed := by
  have kept : ∀ r, Machine.run (next env readHard) (some p) events = some r → r.node.Feeds := by
    refine Machine.run_keeps (fun s => ∀ r : Process A B H, s = some r → r.node.Feeds) ?_ ?_
    · intro s e feeds r stepped
      obtain ⟨before, rfl, stepped⟩ := Option.bind_eq_some_iff.mp stepped
      exact step_feeds (feeds before rfl) stepped
    · rintro r ⟨⟩
      exact open_feeds opened
  obtain ⟨_, all, history⟩ := kept q reached
  exact history.fed

/-- A node of one opens, leads, executes a call, closes the block and restarts: what the call told
is numbered anew, with its block's seal time. -/
theorem fed_run_restarted : ∃ q, Machine.run (next soloEnv fun _ => some {}) (some soloProcess)
      [.round [] 9000 9000 true, .accept openTask, .close 9002 {}, .restart soloConfig] = some q ∧
    q.node.Fed ∧ (q.node.events 0).map (fun e => (e.seq, e.block, e.at_)) = [(1, 1, some 9002)] := by
  let events : List (ProcessEvent (Plain Nat) (Plain Nat)) :=
    [.round [] 9000 9000 true, .accept openTask, .close 9002 {}, .restart soloConfig]
  have told : (Machine.run (next soloEnv fun _ => some {}) (some soloProcess) events).map
      (fun q => (q.node.events 0).map fun e => (e.seq, e.block, e.at_)) =
        some [(1, 1, some 9002)] := by
    decide +kernel
  obtain ⟨q, reached, served⟩ := Option.map_eq_some_iff.mp told
  have opened : open_ soloEnv (fun _ => some {}) soloConfig (.openDb Store.emptyDb) =
    some soloProcess := rfl
  exact ⟨q, reached, fed_run soloEnv _ soloConfig _ soloProcess opened events q reached, served⟩

end Process

end AkumaMiot

import AkumaMiot.Node.Feed
import AkumaMiot.Node.Session

/-!
# What a log says

Chain state and event log as functions of the block log alone: its base, and its bodies folded
in order. A node that follows holds exactly these in memory, whatever has happened to it, so a
restart rebuilds what there was, and two nodes with one log answer alike.
-/
namespace AkumaMiot

variable {A B H : Type}

namespace Env

variable [DecidableEq A]

/-- One block folded into the state that has it open, and the next one opened. -/
def fold (env : Env A B H) (s : Storage A) (body : B) : Option (Storage A) :=
  (env.openBody body).map fun (effects, _) =>
    { (effects.foldl (fun s' e => s'.replayEffect env.rt e s.now) s).initializeBlock env.rt with
      events := [] }

/-- The state a log starts from, with the block above its base open. -/
def baseState (env : Env A B H) (l : ChainLog B B) : Option (Storage A) :=
  match l.state with
  | none => some (env.genesis true)
  | some blob => do
    let ext ← env.decodeSnapshot blob
    if ext.blockNumber = l.base then
      return { (ext.setReplaying true).initializeBlock env.rt with events := [] }
    else none

/-- The chain state that a log stands for. -/
def stateOf (env : Env A B H) (l : ChainLog B B) : Option (Storage A) := do
  l.blocks.foldlM env.fold (← env.baseState l)

omit [DecidableEq A] in
/-- The entries that blocks from `height` on make, after `all`. -/
def feedFrom (env : Env A B H) : (height : Nat) → (all : List (Entry A)) → List B →
    Option (List (Entry A))
  | _, all, [] => some all
  | height, all, body :: bodies => do
    let (effects, at_) ← env.openBody body
    feedFrom env (height + 1) (all ++ Entry.numbered height at_ all.length effects) bodies

omit [DecidableEq A] in
/-- Everything that a log tells, numbered from 1. -/
def feedOf (env : Env A B H) (l : ChainLog B B) : Option (List (Entry A)) :=
  env.feedFrom (l.base + 1) [] l.blocks

/-! ## One block more -/

theorem baseState_push (env : Env A B H) (l : ChainLog B B) (body : B) :
    env.baseState (l.push body) = env.baseState l := rfl

theorem stateOf_push {env : Env A B H} {l : ChainLog B B} {s : Storage A}
    (state : env.stateOf l = some s) (body : B) : env.stateOf (l.push body) = env.fold s body := by
  obtain ⟨base, based, folded⟩ := Option.bind_eq_some_iff.mp state
  have blocks : (l.push body).blocks = l.blocks ++ [body] := rfl
  simp only [stateOf, baseState_push, based, blocks, List.foldlM_append, folded,
    Option.bind_eq_bind, Option.bind_some, List.foldlM_cons, List.foldlM_nil, Option.pure_def]
  cases env.fold s body with
  | none => rfl
  | some s' => rfl

omit [DecidableEq A] in
theorem feedFrom_append {env : Env A B H} {height : Nat} {all all' : List (Entry A)}
    {bodies : List B} (fed : env.feedFrom height all bodies = some all') (more : List B) :
    env.feedFrom height all (bodies ++ more) =
      env.feedFrom (height + bodies.length) all' more := by
  induction bodies generalizing height all with
  | nil =>
    cases fed
    rfl
  | cons body bodies ih =>
    simp only [feedFrom, Option.bind_eq_bind, Option.bind_eq_some_iff] at fed
    obtain ⟨⟨effects, at_⟩, opens, fed⟩ := fed
    have later : height + 1 + bodies.length = height + (body :: bodies).length := by
      rw [List.length_cons]
      omega
    simp only [List.cons_append, feedFrom, opens, Option.bind_eq_bind, Option.bind_some]
    rw [ih fed, later]

omit [DecidableEq A] in
theorem feedOf_push {env : Env A B H} {l : ChainLog B B} {all : List (Entry A)}
    (feed : env.feedOf l = some all) {body : B} {effects : List (Effect A)} {at_ : Option Nat}
    (opens : env.openBody body = some (effects, at_)) :
    env.feedOf (l.push body) =
      some (all ++ Entry.numbered (l.head + 1) at_ all.length effects) := by
  have height : l.base + 1 + l.blocks.length = l.head + 1 := by
    unfold ChainLog.head
    omega
  simp only [feedOf, ChainLog.push]
  rw [feedFrom_append feed, height]
  simp only [feedFrom, opens, Option.bind_eq_bind, Option.bind_some]

/-! ## What can be said of them -/

theorem fold_blockNumber {env : Env A B H} {s s' : Storage A} {body : B}
    (folded : env.fold s body = some s') : s'.blockNumber = s.blockNumber + 1 := by
  obtain ⟨⟨effects, at_⟩, _, rfl⟩ := Option.map_eq_some_iff.mp folded
  have number := (Storage.replayEffects_table s env.rt effects s.now).2.1
  exact (Storage.initializeBlock_blockNumber _ _).trans (congrArg (· + 1) number)

/-- A log's state has the block above the log open. -/
theorem stateOf_blockNumber {env : Env A B H} {l : ChainLog B B} {s : Storage A}
    (state : env.stateOf l = some s) : s.blockNumber = l.head + 1 := by
  obtain ⟨base, based, folded⟩ := Option.bind_eq_some_iff.mp state
  have start : base.blockNumber = l.base + 1 := by
    unfold baseState at based
    split at based
    next none_ =>
      cases based
      have genesis : l.base = 0 := by
        have absent := l.present
        rw [none_] at absent
        simpa using absent
      rw [Node.genesis_blockNumber, genesis]
    next blob _ =>
      obtain ⟨ext, _, opened⟩ := Option.bind_eq_some_iff.mp based
      split at opened
      next number =>
        cases opened
        exact (Storage.initializeBlock_blockNumber _ _).trans (congrArg (· + 1) number)
      · cases opened
  have each : ∀ (bodies : List B) (s0 : Storage A), bodies.foldlM env.fold s0 = some s →
      s.blockNumber = s0.blockNumber + bodies.length := by
    intro bodies
    induction bodies with
    | nil =>
      intro s0 folded
      cases folded
      rfl
    | cons body bodies ih =>
      intro s0 folded
      rw [List.foldlM_cons] at folded
      obtain ⟨s1, one, rest⟩ := Option.bind_eq_some_iff.mp folded
      rw [ih s1 rest, fold_blockNumber one, List.length_cons]
      omega
  rw [each l.blocks base folded, start]
  unfold ChainLog.head
  omega

omit [DecidableEq A] in
/-- What a log tells is of its blocks. -/
theorem feedFrom_blocks {env : Env A B H} {height : Nat} {all all' : List (Entry A)}
    {bodies : List B} (fed : env.feedFrom height all bodies = some all')
    (lower : ∀ e ∈ all, e.block < height) : ∀ e ∈ all', e.block < height + bodies.length := by
  induction bodies generalizing height all with
  | nil =>
    cases fed
    exact lower
  | cons body bodies ih =>
    simp only [feedFrom, Option.bind_eq_bind, Option.bind_eq_some_iff] at fed
    obtain ⟨⟨effects, at_⟩, _, fed⟩ := fed
    have later : height + 1 + bodies.length = height + (body :: bodies).length := by
      rw [List.length_cons]
      omega
    rw [← later]
    apply ih fed
    intro e there
    rcases List.mem_append.mp there with old | new
    · exact Nat.lt_succ_of_lt (lower e old)
    · rw [(Entry.numbered_mem new).1]
      exact Nat.lt_succ_self height

omit [DecidableEq A] in
theorem feedOf_blocks {env : Env A B H} {l : ChainLog B B} {all : List (Entry A)}
    (feed : env.feedOf l = some all) : ∀ e ∈ all, e.block < l.head + 1 := by
  have height : l.base + 1 + l.blocks.length = l.head + 1 := by
    unfold ChainLog.head
    omega
  rw [← height]
  exact feedFrom_blocks feed nofun

end Env

namespace Node

variable [DecidableEq A] {env : Env A B H}

/-- What is in memory is what the log says, and nothing else is waiting there. -/
structure Folded (env : Env A B H) (l : ChainLog B B) (n : Node A B H) : Prop where
  state : env.stateOf l = some n.ext
  feed : ∃ all, env.feedOf l = some all ∧ n.log = all.rtake logCap ∧ n.seq = all.length
  block : n.block = l.head + 1
  pending : n.pending = []
  compaction : n.pendingCompaction = false

theorem Folded.seated {l : ChainLog B B} {n : Node A B H} (folded : Folded env l n) :
    n.Seated := (Env.stateOf_blockNumber folded.state).trans folded.block.symm

theorem Folded.same {l : ChainLog B B} {n m : Node A B H} (folded : Folded env l n)
    (ext : m.ext = n.ext) (log : m.log = n.log) (seq : m.seq = n.seq) (block : m.block = n.block)
    (pending : m.pending = n.pending) (compaction : m.pendingCompaction = n.pendingCompaction) :
    Folded env l m where
  state := by rw [ext, folded.state]
  feed := by
    rw [log, seq]
    exact folded.feed
  block := by rw [block, folded.block]
  pending := by rw [pending, folded.pending]
  compaction := by rw [compaction, folded.compaction]

/-! ## One block -/

theorem applyBlock_ext {n n' : Node A B H} {height : Nat} {effects : List (Effect A)}
    {at_ : Option Nat} (applied : n.applyBlock env height effects at_ = some n') :
    n'.ext = { (effects.foldl (fun s e => s.replayEffect env.rt e n.ext.now)
      n.ext).initializeBlock env.rt with events := [] } := by
  obtain ⟨m, opened, rfl⟩ := Option.map_eq_some_iff.mp applied
  let folded := effects.foldl (fun s e => s.replayEffect env.rt e n.ext.now) n.ext
  have same : ({ n with ext := folded }.absorb effects).ext = folded :=
    congrArg Node.ext (absorb_eq { n with ext := folded } effects)
  have ext : m.ext = ({ n with ext := folded }.absorb effects).ext.initializeBlock env.rt :=
    congrArg Node.ext (initializeBlock_eq opened)
  rw [same] at ext
  simp only [drainDiscard, drain, ext, folded]

/-- A block that is folded is one more that the log says. -/
theorem Folded.applied {l : ChainLog B B} {n n' : Node A B H} {height : Nat} {body : B}
    {effects : List (Effect A)} {at_ : Option Nat} (folded : Folded env l n)
    (opens : env.openBody body = some (effects, at_))
    (applied : n.applyBlock env height effects at_ = some n') : Folded env (l.push body) n' := by
  obtain ⟨all, feed, kept, count⟩ := folded.feed
  have closes := applyBlock_eq applied
  have here : height = l.head + 1 := (applyBlock_height folded.seated applied).trans folded.block
  obtain ⟨log, seq⟩ := applyBlock_log applied
  refine ⟨?_, ⟨_, Env.feedOf_push feed opens, ?_, ?_⟩, ?_, ?_, ?_⟩
  · rw [Env.stateOf_push folded.state, Env.fold, opens, applyBlock_ext applied]
    rfl
  -- What the log told before is of lower blocks, so only this block's entries are stamped.
  · rw [log, absorb_log kept, Recent.map_rtake, List.map_append, folded.block, here,
      Entry.stamp_numbered, Entry.stamp_lower (Env.feedOf_blocks feed), count]
  · rw [seq, count, List.length_append, Entry.numbered_length]
  · rw [closes, ChainLog.head_push, here]
  · rw [closes]
  · rw [closes]
    exact folded.compaction

/-! ## The whole log -/

theorem replayBlocks_folded {m l : ChainLog B B} {n n' : Node A B H} (rest : List B)
    (holds : Store.Holds n.store m) (base : l.base = m.base) (state : l.state = m.state)
    (split : m.blocks = l.blocks ++ rest) (folded : Folded env l n)
    (replayed : replayBlocks env n (List.range' (l.head + 1) rest.length) = some n') :
    Folded env m n' := by
  induction rest generalizing l n with
  | nil =>
    cases replayed
    rw [List.append_nil] at split
    rw [← ChainLog.ext base state split.symm]
    exact folded
  | cons body rest ih =>
    rw [List.length_cons, List.range'_succ] at replayed
    simp only [replayBlocks, Option.bind_eq_bind, Option.bind_eq_some_iff] at replayed
    obtain ⟨stored, read, ⟨effects, at_⟩, opens, n1, applied, replayed⟩ := replayed
    -- The block read next is the next of the log.
    have there : m.blockAt (l.head + 1) = some body := by
      have above : m.base < l.head + 1 := by
        rw [← base]
        exact Nat.lt_succ_of_le l.base_le_head
      have index : l.head + 1 - m.base - 1 = l.blocks.length := by
        unfold ChainLog.head
        omega
      rw [ChainLog.blockAt, if_pos above, index, split, List.getElem?_append_right le_rfl,
        Nat.sub_self]
      rfl
    obtain rfl : stored = body := Option.some.inj (read.symm.trans ((holds.blocks _).trans there))
    have seat : ({ n with block := l.head + 1 } : Node A B H) = n := by rw [← folded.block]
    rw [seat] at applied
    have one := folded.applied opens applied
    have held : Store.Holds n1.store m := by
      rw [applyBlock_eq applied]
      exact holds
    refine ih (l := l.push stored) held base state ?_ one ?_
    · rw [split]
      simp [ChainLog.push]
    · rw [ChainLog.head_push]
      exact replayed

theorem reloadFromStore_folded {l : ChainLog B B} {n n' : Node A B H}
    (follows : n.producing = false) (holds : Store.Holds n.store l)
    (reloaded : n.reloadFromStore env = some n') : Folded env l n' := by
  have start : ({ l with blocks := [] } : ChainLog B B).head = l.base := Nat.add_zero l.base
  have count : l.head + 1 - (l.base + 1) = l.blocks.length := by
    unfold ChainLog.head
    omega
  unfold reloadFromStore replay at reloaded
  simp only [holds.last, holds.head, Option.bind_eq_bind, Store.heights, count] at reloaded
  split at reloaded
  next compacted =>
    obtain ⟨m, restored, replayed⟩ := Option.bind_eq_some_iff.mp reloaded
    obtain ⟨blob, read, restored⟩ := Option.bind_eq_some_iff.mp restored
    have frame := restoreFromSnapshot_eq restored
    have state : l.state = some blob := (Store.checkpointState_eq holds).symm.trans read
    simp only [restoreFromSnapshot, Option.bind_eq_bind, Option.bind_eq_some_iff,
      Option.pure_def, Option.some.injEq] at restored
    obtain ⟨ext, decodes, opening, opened, rfl⟩ := restored
    have asserted : l.base + 1 = ext.blockNumber + 1 := initializeBlock_asserts opened
    have number : ext.blockNumber = l.base := (Nat.succ.inj asserted).symm
    have based : Folded env { l with blocks := [] } opening.drainDiscard := by
      refine ⟨?_, ⟨[], rfl, ?_, ?_⟩, ?_, ?_, ?_⟩
      · simp only [Env.stateOf, Env.baseState, state, decodes, number, Option.bind_eq_bind,
          Option.bind_some, if_true, Option.pure_def, List.foldlM_nil]
        rw [initializeBlock_eq opened]
        simp only [drainDiscard, drain, follows, Bool.not_false]
      · rw [frame, List.rtake_nil]
      · rw [frame]
        rfl
      · rw [frame, start]
      · rw [frame]
      · rw [frame]
    refine replayBlocks_folded l.blocks (l := { l with blocks := [] }) ?_ rfl rfl rfl based ?_
    · rw [frame]
      exact holds
    · rw [start]
      exact replayed
  next fresh =>
    have genesis : l.base = 0 := by omega
    have none_ : l.state = none := l.state_none genesis
    refine replayBlocks_folded l.blocks (l := { l with blocks := [] }) ?_ rfl rfl rfl ?_
      (by rw [start]; exact reloaded)
    · exact holds
    · refine ⟨?_, ⟨[], rfl, (List.rtake_nil _).symm, rfl⟩, ?_, rfl, rfl⟩
      · simp only [Env.stateOf, Env.baseState, none_, follows, Bool.not_false, Option.bind_eq_bind,
          Option.bind_some, List.foldlM_nil, Option.pure_def]
      · rw [start, genesis]

/-! ## Whatever a node does -/

/-- The store is a log, and whoever follows has exactly that in memory. -/
structure Replica (env : Env A B H) (n : Node A B H) : Prop where
  opened : 0 < n.block
  log : ∃ l, Store.Holds n.store l ∧ (n.producing = false → Folded env l n)

theorem reloadFromStore_replica {l : ChainLog B B} {n n' : Node A B H}
    (follows : n.producing = false) (holds : Store.Holds n.store l)
    (reloaded : n.reloadFromStore env = some n') : Replica env n' := by
  have folded := reloadFromStore_folded follows holds reloaded
  refine ⟨?_, l, ?_, fun _ => folded⟩
  · rw [folded.block]
    exact Nat.succ_pos _
  · rw [reloadFromStore_refolded reloaded]
    exact holds

/-- Every move keeps a replica one, where nothing is executed late and every checkpoint offered
has a height. -/
theorem Works.replica {may : May B} {n n' : Node A B H}
    (works : Works env may n n') (prompt : ¬ may.late)
    (heights : ∀ h state, may.offers h state → 0 < h ∧ h < 2 ^ 64) (replica : Replica env n) :
    Replica env n' := by
  induction works with
  | rests rests =>
    obtain ⟨opened, l, holds, folded⟩ := replica
    refine ⟨rests.block ▸ opened, l, ?_, fun follows => ?_⟩
    · rcases rests.store with same | ⟨commits, value, put⟩
      · rw [same]
        exact holds
      · rw [put]
        rcases Store.putAux_refines holds commits auxMesh value with
          ⟨why, refused⟩ | ⟨_, s, taken, kept, _⟩
        · rw [refused]
          exact holds
        · rw [taken]
          exact kept
    · exact (folded (rests.producing ▸ follows)).same rests.ext rests.log rests.seq rests.block
        rests.pending rests.compaction
  | submitted n uxt leads =>
    have leads := leads.resolve_right prompt
    obtain ⟨opened, l, holds, _⟩ := replica
    obtain ⟨compaction, executed⟩ := submit_eq n env uxt
    rw [executed, drainAbsorb_eq]
    refine ⟨opened, l, holds, fun follows => ?_⟩
    have follows : n.producing = false := follows
    rw [leads] at follows
    cases follows
  | closed leads taken advanced =>
    obtain ⟨opened, l, holds, _⟩ := replica
    obtain ⟨opened', producing, _, _, l', holds', _⟩ := advance_behind holds opened advanced
    refine ⟨opened', l', holds', fun follows => ?_⟩
    rw [producing, leads] at follows
    cases follows
  | @promoted n follows =>
    obtain ⟨opened, l, holds, _⟩ := replica
    unfold promote
    rw [drainAbsorb_eq]
    exact ⟨opened, l, holds, nofun⟩
  | @demoted n n' leads reloaded =>
    obtain ⟨_, l, holds, _⟩ := replica
    exact reloadFromStore_replica (n := { n with producing := false }) rfl holds reloaded
  | @applied n n' commits height body store effects at_ follows opens appended applied =>
    obtain ⟨_, l, holds, folded⟩ := replica
    have folded := folded follows
    have logged : Folded env l { n with store := store } := folded.same rfl rfl rfl rfl rfl rfl
    have height_eq : height = n.block :=
      applyBlock_height (n := { n with store := store }) logged.seated applied
    have one := logged.applied opens applied
    refine ⟨?_, l.push body, ?_, fun _ => one⟩
    · rw [one.block]
      exact Nat.succ_pos _
    · rw [applyBlock_eq applied]
      rcases Store.append_refines holds commits height body with
        ⟨why, refused⟩ | ⟨next, _, s, taken, held, _⟩
      · rw [refused] at appended
        cases appended
      · rw [taken] at appended
        cases appended
        apply held
        -- The open block is above the head, so the height did not wrap.
        have small : n.store.head < 2 ^ 64 := holds.head ▸ holds.small
        refine Nat.lt_of_le_of_ne small fun full => ?_
        rw [u64Succ, full, Nat.mod_self, height_eq, folded.block] at next
        cases next
  | @adopted n n' commits height state store follows offered adopted reloaded =>
    obtain ⟨_, l, holds, _⟩ := replica
    obtain ⟨above, small⟩ := heights height state offered
    rcases Store.adoptCheckpoint_refines holds commits above small state with
      ⟨why, refused⟩ | ⟨_, s, taken, held, _⟩
    · rw [refused] at adopted
      cases adopted
    · rw [taken] at adopted
      cases adopted
      exact reloadFromStore_replica (n := { n with store := store }) follows held reloaded
  | @rewound n n' commits fork r store follows rewound reloaded =>
    obtain ⟨_, l, holds, _⟩ := replica
    rcases Store.rewindForFork_refines holds commits fork with
      ⟨why, refused⟩ | ⟨_, s, taken, held, _⟩
    · rw [refused] at rewound
      cases rewound
    · rw [taken] at rewound
      cases rewound
      exact reloadFromStore_replica (n := { n with store := store }) follows held reloaded
  | trans _ _ first second => exact second (first replica)

end Node

end AkumaMiot

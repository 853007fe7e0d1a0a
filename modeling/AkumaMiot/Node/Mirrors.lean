import AkumaMiot.Litter.Beside
import AkumaMiot.Node.Replicas

/-!
# A primary and its log

A primary executes, everyone else replays what it recorded. Beside the task table nothing comes
apart: the log's state, with what the open block has recorded so far, is the primary's own. Off the
record nothing is changed there, and what a compaction drops is in its snapshot.
-/
namespace AkumaMiot

variable {A B H : Type} [DecidableEq A]

namespace Storage

/-- Effects replayed in order, in one block. -/
def replayAll (s : Storage A) (rt : Runtime A) (effects : List (Effect A)) (now : BlockNumber) :
    Storage A := effects.foldl (fun s e => s.replayEffect rt e now) s

variable {rt : Runtime A}

/-- What is off the record is about the table only, so leaving it out changes nothing beside. -/
theorem replayAll_onRecord (rt : Runtime A) (effects : List (Effect A)) {s f : Storage A}
    (agree : Agree s f) (now : BlockNumber) : Agree (s.replayAll rt effects now)
      (f.replayAll rt (effects.filter (!Node.offRecord ·)) now) := by
  induction effects generalizing s f with
  | nil => exact agree
  | cons e es ih =>
    cases off : Node.offRecord e with
    | false =>
      rw [List.filter_cons_of_pos (by rw [off]; rfl)]
      exact ih (agree.replayEffect e now)
    | true =>
      rw [List.filter_cons_of_neg (by rw [off]; decide)]
      apply ih
      have tabled : TaskTable.Tabled e := by
        cases e with
        | said => trivial
        | _ => cases off
      exact (replayEffect_tabled tabled s now).symm.trans agree

theorem replayAll_append (s : Storage A) (es fs : List (Effect A)) (now : BlockNumber) :
    s.replayAll rt (es ++ fs) now = (s.replayAll rt es now).replayAll rt fs now :=
  List.foldl_append

theorem checkNonce_mirrors {s spent : Storage A} {who : A} {nonce : Nat}
    (checked : s.checkNonce who nonce = .ok spent) : Mirrors rt s spent := by
  unfold checkNonce at checked
  split at checked
  · cases checked
  next a found =>
    split at checked
    · cases checked
    · split at checked
      · cases checked
      · split at checked
        · cases checked
        · cases checked
          refine ⟨[], (List.append_nil _).symm, rfl, fun f agree => ?_⟩
          refine { agree with providers := fun x => (agree.providers x).trans ?_ }
          -- The nonce is the only thing of the account that changes.
          by_cases same : x = who
          · subst same
            simp only [providers, found, Finmap.lookup_insert, Option.getD_some]
          · simp only [providers, Finmap.lookup_insert_of_ne _ same]

/-- An extrinsic, executed or refused, is what it recorded, unless it opened an epoch. -/
theorem applyExtrinsic_mirrors {s : Storage A} (opened : s.blockNumber ≠ 0) (env : Env A B H)
    (uxt : UncheckedExtrinsic A)
    (stays : (s.applyExtrinsic env uxt).1 = .ok (.ok ()) → ¬ OpensEpoch uxt.call) :
    Mirrors env.rt s (s.applyExtrinsic env uxt).2 := by
  unfold applyExtrinsic at stays ⊢
  split
  · exact .refl s
  next admitted =>
    rw [if_neg admitted] at stays
    split
    · exact .refl s
    next spent checked =>
      simp only [checked] at stays
      have first : Mirrors env.rt s spent := checkNonce_mirrors checked
      obtain ⟨_, _, number, _⟩ := id first
      split
      next accepted =>
        simp only [accepted] at stays
        have second := dispatch_mirrors (number ▸ opened) (stays trivial) accepted
        exact first.trans second
      · exact first

theorem tickNow_mirrors {s : Storage A} (opened : s.blockNumber ≠ 0) (rt : Runtime A) :
    Mirrors rt s (s.tickNow rt) := by
  unfold tickNow
  simp only
  split
  · exact commit_mirrors opened _ fun e member => (TaskTable.tick_answers member).tabled
  · exact .refl s

end Storage

namespace Node

variable {env : Env A B H}

/-- The log's state, with what the open block has recorded, agrees with the node's own beside the
table, unless a compaction is due that will say so. -/
structure Mirrored (env : Env A B H) (l : ChainLog B B) (n : Node A B H) : Prop where
  seated : n.Seated
  block : n.block = l.head + 1
  drained : n.ext.events = []
  agrees : ∃ f, env.stateOf l = some f ∧ (n.pendingCompaction = false →
    Storage.Agree n.ext (f.replayAll env.rt n.pending n.ext.now))

theorem Mirrored.opened {l : ChainLog B B} {n : Node A B H} (mirrored : Mirrored env l n) :
    n.ext.blockNumber ≠ 0 := by
  have seated : n.ext.blockNumber = n.block := mirrored.seated
  rw [seated, mirrored.block]
  exact Nat.succ_ne_zero _

/-- What happened within the open block is absorbed. -/
theorem Mirrored.absorbs {l : ChainLog B B} {n m : Node A B H} (mirrored : Mirrored env l n)
    (block : m.block = n.block) (pending : m.pending = n.pending)
    (due : m.pendingCompaction = false → n.pendingCompaction = false ∧
      Storage.Mirrors env.rt n.ext m.ext)
    (number : m.ext.blockNumber = n.ext.blockNumber) : Mirrored env l m.drainAbsorb := by
  obtain ⟨f, state, agrees⟩ := mirrored.agrees
  rw [drainAbsorb_eq]
  refine ⟨?_, block.trans mirrored.block, rfl, f, state, fun none_ => ?_⟩
  · exact number.trans (mirrored.seated.trans block.symm)
  · obtain ⟨was, effects, told, _, replays⟩ := due none_
    have clock : m.ext.now = n.ext.now := by
      simp only [Storage.now, number]
    have events : m.ext.events = effects := by
      rw [told, mirrored.drained, List.nil_append]
    have first := replays _ (agrees was)
    have second := Storage.replayAll_onRecord env.rt effects
      (.refl (f.replayAll env.rt n.pending n.ext.now)) n.ext.now
    have whole : Storage.Agree m.ext (f.replayAll env.rt
        (m.pending ++ m.ext.events.filter (!offRecord ·)) m.ext.now) := by
      rw [clock, pending, events, Storage.replayAll_append]
      exact first.trans second
    exact { whole with }

/-! ## A follower -/

omit [DecidableEq A] in
theorem initializeBlock_quiet {s : Storage A} (rt : Runtime A) (folding : s.replaying = true) :
    (s.initializeBlock rt).events = [] := by
  unfold Storage.initializeBlock Storage.onInitialize
  simp only [folding, if_true]
  split
  · rfl
  · rfl

theorem genesis_quiet (env : Env A B H) : (env.genesis true).events = [] := by
  have kept : ∀ (accounts : List A) (s : Storage A),
      (accounts.foldl Storage.incProviders s).events = s.events := by
    intro accounts
    induction accounts with
    | nil => exact fun s => rfl
    | cons a as ih => exact fun s => ih (s.incProviders a)
  unfold Env.genesis
  rw [kept]
  exact initializeBlock_quiet env.rt rfl

/-- Nothing is left to absorb in the state of a log. -/
theorem stateOf_events {l : ChainLog B B} {s : Storage A} (state : env.stateOf l = some s) :
    s.events = [] := by
  obtain ⟨base, based, folded⟩ := Option.bind_eq_some_iff.mp state
  have start : base.events = [] := by
    unfold Env.baseState at based
    split at based
    · cases based
      exact genesis_quiet env
    · obtain ⟨ext, _, opened⟩ := Option.bind_eq_some_iff.mp based
      split at opened
      · cases opened
        rfl
      · cases opened
  have each : ∀ (bodies : List B) (s0 : Storage A), s0.events = [] →
      bodies.foldlM env.fold s0 = some s → s.events = [] := by
    intro bodies
    induction bodies with
    | nil =>
      intro s0 quiet folded
      cases folded
      exact quiet
    | cons body bodies ih =>
      intro s0 _ folded
      rw [List.foldlM_cons] at folded
      obtain ⟨s1, one, rest⟩ := Option.bind_eq_some_iff.mp folded
      obtain ⟨⟨effects, at_⟩, _, rfl⟩ := Option.map_eq_some_iff.mp one
      exact ih _ rfl rest
  exact each l.blocks base start folded

theorem Folded.mirrored {l : ChainLog B B} {n : Node A B H} (folded : Folded env l n) :
    Mirrored env l n := by
  refine ⟨folded.seated, folded.block, stateOf_events folded.state, n.ext, folded.state, fun _ => ?_⟩
  rw [folded.pending]
  exact .refl n.ext

/-! ## Closing a block -/

omit [DecidableEq A] in
theorem persist_appends (env : Env A B H) {l : ChainLog B B} {n : Node A B H}
    (holds : Store.Holds n.store l)
    (next : n.block = l.head + 1) (room : l.head + 1 < 2 ^ 64) {commits : Commits}
    (takes : commits.append = true) (at_ : Nat) :
    Store.Holds (n.persist env n.block at_ commits).store
      (l.push (env.sealBody n.pending at_)) := by
  obtain ⟨store, appended, held⟩ := holds.append room (env.sealBody n.pending at_)
  unfold persist
  simp only
  have same : (n.stampBlock n.block (some at_)).store.append commits.append n.block
      (env.sealBody n.pending at_) = (.ok (), store) := by
    rw [takes, next]
    exact appended
  rw [same]
  exact saveHard_holds (n := { n.stampBlock n.block (some at_) with
    store := store, mesh := n.mesh.appended }) held env commits.aux

/-- What the block that opens tells is about the table only. -/
theorem opening_agrees {s f : Storage A} (rt : Runtime A) (agree : Storage.Agree s f)
    (now : BlockNumber) : Storage.Agree (s.initializeBlock rt)
      (f.replayAll rt ((s.initializeBlock rt).events.filter (!offRecord ·)) now) := by
  have opens : Storage.Agree (s.initializeBlock rt) f :=
    (Storage.initializeBlock_agree s).symm.trans agree
  refine opens.trans (Storage.replayEffects_tabled rt (fun e member => ?_) f now)
  exact Storage.initializeBlock_told (List.mem_of_mem_filter member)

/-- A block opens on a log whose state agrees with the node's. -/
theorem Mirrored.opens {l : ChainLog B B} {m : Node A B H} {s f : Storage A}
    (ext : m.ext = s.initializeBlock env.rt) (number : s.blockNumber = l.head)
    (block : m.block = l.head + 1) (pending : m.pending = []) (state : env.stateOf l = some f)
    (agree : Storage.Agree s f) : Mirrored env l m.drainAbsorb := by
  rw [drainAbsorb_eq]
  refine ⟨?_, block, rfl, f, state, fun _ => ?_⟩
  · show m.ext.blockNumber = m.block
    rw [ext, Storage.initializeBlock_blockNumber, number, block]
  · have opens := opening_agrees env.rt agree
      ({ m.ext with events := [] } : Storage A).now
    rw [← ext] at opens
    simp only [pending, List.nil_append]
    exact { opens with }

/-- A block closed by a primary whose database takes it, compacted or not. -/
theorem Mirrored.advance {l : ChainLog B B} {n n' : Node A B H} {at_ : Nat} {commits : Commits}
    (mirrored : Mirrored env l n) (holds : Store.Holds n.store l) (room : l.head + 1 < 2 ^ 64)
    (appends : commits.append = true) (compacts : commits.compact = true)
    (advanced : n.advance env at_ commits = some n') :
    ∃ l', Store.Holds n'.store l' ∧ Mirrored env l' n' := by
  obtain ⟨f, state, agrees⟩ := mirrored.agrees
  have held := persist_appends env holds mirrored.block room appends at_
  have seated : n.ext.blockNumber = n.block := mirrored.seated
  have head : (l.push (env.sealBody n.pending at_)).head = n.block := by
    rw [ChainLog.head_push, mirrored.block]
  obtain ⟨m, opened, rfl⟩ := Option.map_eq_some_iff.mp advanced
  obtain rfl := initializeBlock_eq opened
  clear opened
  have stored : ∀ m : Node A B H, m.drainAbsorb.store = m.store := fun m => by rw [drainAbsorb_eq]
  rw [persist_eq] at held ⊢
  simp only at held ⊢
  split
  -- The snapshot is the primary's own state, and the log starts from it.
  next due =>
    have above : (l.push (env.sealBody n.pending at_)).base < n.block := by
      rw [mirrored.block]
      exact Nat.lt_succ_of_le l.base_le_head
    have top := ChainLog.head_compactTo (l.push (env.sealBody n.pending at_))
      (env.encodeSnapshot n.ext) above (Nat.le_of_eq head.symm)
    refine ⟨(l.push (env.sealBody n.pending at_)).compactTo n.block (env.encodeSnapshot n.ext)
      above, ?_, Mirrored.opens (s := n.ext)
        (f := { (n.ext.setReplaying true).initializeBlock env.rt with events := [] }) rfl ?_ ?_ rfl
          ?_ ?_⟩
    · rw [stored]
      rcases Store.compact_refines held commits.compact n.block (env.encodeSnapshot n.ext) with
        ⟨why, refused⟩ | ⟨_, _, _, _, s', taken, kept, _⟩
      · exfalso
        simp only [Store.compact, held.head, held.last, head, compacts] at refused
        rw [if_neg (by omega)] at refused
        cases refused
      · simp only [compactAt, taken]
        exact kept
    · exact seated.trans (top.trans head).symm
    · exact (congrArg (· + 1) (top.trans head)).symm
    · have none_left : ((l.push (env.sealBody n.pending at_)).compactTo n.block
          (env.encodeSnapshot n.ext) above).blocks = [] := by
        refine List.drop_of_length_le ?_
        unfold ChainLog.head at head
        omega
      have base : ((l.push (env.sealBody n.pending at_)).compactTo n.block
          (env.encodeSnapshot n.ext) above).state = some (env.encodeSnapshot n.ext) := rfl
      have at_base : ((l.push (env.sealBody n.pending at_)).compactTo n.block
          (env.encodeSnapshot n.ext) above).base = n.block := rfl
      simp only [Env.stateOf, Env.baseState, base, none_left, at_base,
        env.decodeSnapshot_encodeSnapshot, Option.bind_eq_bind, Option.bind_some,
        Option.pure_def, List.foldlM_nil, seated, if_true]
    · have replaying : Storage.Agree n.ext (n.ext.setReplaying true) :=
        ⟨rfl, rfl, rfl, rfl, rfl, rfl, fun _ => rfl, rfl⟩
      have opens : Storage.Agree (n.ext.setReplaying true)
          ((n.ext.setReplaying true).initializeBlock env.rt) := Storage.initializeBlock_agree _
      exact { replaying.trans opens with }
  -- What was recorded is the block's body, and the log's state replays it.
  next kept =>
    have due : n.pendingCompaction = false := by simpa using kept
    have folded := Env.stateOf_push state (env.sealBody n.pending at_)
    rw [Env.fold, env.openBody_sealBody] at folded
    have clock : n.ext.now = f.now := by
      simp only [Storage.now, seated, mirrored.block, Env.stateOf_blockNumber state]
    have closed := agrees due
    rw [clock] at closed
    refine ⟨l.push (env.sealBody n.pending at_), ?_, Mirrored.opens (s := n.ext) rfl ?_ ?_ rfl
      folded ?_⟩
    · rw [stored]
      exact held
    · exact seated.trans head.symm
    · exact (congrArg (· + 1) head).symm
    · let replayed := f.replayAll env.rt n.pending f.now
      have opens : Storage.Agree replayed (replayed.initializeBlock env.rt) :=
        Storage.initializeBlock_agree replayed
      exact { closed.trans opens with }

/-! ## Whatever a node does -/

/-- The store is a log that agrees with the node. -/
def Recorded (env : Env A B H) (n : Node A B H) : Prop :=
  ∃ l, Store.Holds n.store l ∧ Mirrored env l n

theorem Replica.recorded {n : Node A B H} (replica : Replica env n)
    (follows : n.producing = false) : Recorded env n := by
  obtain ⟨_, l, holds, folded⟩ := replica
  exact ⟨l, holds, (folded follows).mirrored⟩

theorem Recorded.rests {n m : Node A B H} (recorded : Recorded env n) (rests : n.Rests m) :
    Recorded env m := by
  obtain ⟨l, holds, mirrored⟩ := recorded
  refine ⟨l, ?_, ?_, rests.block.trans mirrored.block, ?_, ?_⟩
  · rcases rests.store with same | ⟨commits, value, put⟩
    · rw [same]
      exact holds
    · rw [put]
      rcases Store.putAux_refines holds commits auxMesh value with
        ⟨why, refused⟩ | ⟨_, s, taken, kept, _⟩
      · rw [refused]
        exact holds
      · rw [taken]
        exact kept
  · rw [Seated, rests.ext, rests.block]
    exact mirrored.seated
  · rw [rests.ext, mirrored.drained]
  · rw [rests.ext, rests.pending, rests.compaction]
    exact mirrored.agrees

/-- Only a call that opens an epoch leaves something that its effects do not say, and after it a
compaction is due. -/
theorem Recorded.submit {n : Node A B H} (recorded : Recorded env n)
    (uxt : UncheckedExtrinsic A) : Recorded env (n.submit env uxt).2 := by
  obtain ⟨l, holds, mirrored⟩ := recorded
  have number := applyExtrinsic_blockNumber n.ext env uxt
  unfold Node.submit
  cases applied : n.ext.applyExtrinsic env uxt with
  | mk r ext =>
    rw [applied] at number
    -- What of the buffer's compaction is known says whether the call opened an epoch.
    have absorbed : ∀ compaction : Bool, (compaction = false → n.pendingCompaction = false ∧
        (r = .ok (.ok ()) → ¬ Storage.OpensEpoch uxt.call)) →
        Recorded env { drainAbsorb { n with ext := ext } with pendingCompaction := compaction } := by
      intro compaction due
      have mirrors : compaction = false → n.pendingCompaction = false ∧
          Storage.Mirrors env.rt n.ext ext := by
        intro none_
        obtain ⟨was, stays⟩ := due none_
        have executed := Storage.applyExtrinsic_mirrors mirrored.opened env uxt
        rw [applied] at executed
        exact ⟨was, executed stays⟩
      have absorbs := mirrored.absorbs
        (m := { n with ext := ext, pendingCompaction := compaction }) rfl rfl mirrors number
      rw [drainAbsorb_eq] at absorbs ⊢
      exact ⟨l, holds, absorbs.seated, absorbs.block, absorbs.drained, absorbs.agrees⟩
    simp only
    split
    · apply absorbed
      intro none_
      obtain ⟨was, stays⟩ := Bool.or_eq_false_iff.mp none_
      rw [drainAbsorb_eq] at was
      refine ⟨was, fun _ opens => ?_⟩
      cases call : uxt.call with
      | clearAll | requestCompaction =>
        rw [call] at stays
        cases stays
      | _ =>
        rw [call] at opens
        exact opens.elim
    next refused =>
      have kept := absorbed n.pendingCompaction fun was => ⟨was, fun done => absurd done refused⟩
      have same : { drainAbsorb { n with ext := ext } with
          pendingCompaction := n.pendingCompaction } = drainAbsorb { n with ext := ext } := by
        rw [drainAbsorb_eq]
      rw [same] at kept
      exact kept

/-- Every move but the closing of a block keeps the log in agreement with the node. -/
theorem Works.recorded {may : May B} {n n' : Node A B H} (works : Works env may n n')
    (prompt : ¬ may.late) (heights : ∀ h state, may.offers h state → 0 < h ∧ h < 2 ^ 64)
    (stays : ∀ commits, ¬ may.closes commits) (replica : Replica env n)
    (recorded : Recorded env n) : Recorded env n' := by
  have followed : ∀ {a b : Node A B H}, Works env may a b → Replica env a → b.producing = false →
      Recorded env b := fun works replica follows =>
    (works.replica prompt heights replica).recorded follows
  induction works with
  | rests rests => exact recorded.rests rests
  | submitted n uxt leads => exact recorded.submit uxt
  | closed leads taken advanced => exact absurd taken (stays _)
  | @promoted n follows =>
    obtain ⟨l, holds, mirrored⟩ := recorded
    have ticked : Storage.Mirrors env.rt n.ext ((n.ext.setReplaying false).tickNow env.rt) := by
      obtain ⟨effects, told, number, replays⟩ :=
        Storage.tickNow_mirrors (s := n.ext.setReplaying false) mirrored.opened env.rt
      exact ⟨effects, told, number, fun f agree => replays f { agree with }⟩
    have absorbs := mirrored.absorbs (m := { n with
      producing := true
      ext := (n.ext.setReplaying false).tickNow env.rt }) rfl rfl (fun was => ⟨was, ticked⟩)
      (tickNow_blockNumber _ _)
    unfold promote
    rw [drainAbsorb_eq] at absorbs ⊢
    exact ⟨l, holds, absorbs⟩
  | @demoted n n' leads reloaded =>
    refine followed (.demoted leads reloaded) replica ?_
    rw [reloadFromStore_refolded reloaded]
  | @applied n n' commits height body store effects at_ follows opens appended applied =>
    refine followed (.applied follows opens appended applied) replica ?_
    rw [applyBlock_eq applied]
    exact follows
  | @adopted n n' commits height state store follows offered adopted reloaded =>
    refine followed (.adopted follows offered adopted reloaded) replica ?_
    rw [reloadFromStore_refolded reloaded]
    exact follows
  | @rewound n n' commits fork r store follows rewound reloaded =>
    refine followed (.rewound follows rewound reloaded) replica ?_
    rw [reloadFromStore_refolded reloaded]
    exact follows
  | trans one _ first second =>
    exact second (one.replica prompt heights replica) (first replica recorded)

end Node

namespace Process

variable [DecidableEq H] {env : Env A B H} {readHard : List UInt8 → Option Hard}

/-- The database takes the block that an event closes, and there is a height left for it. -/
def Takes (p : Process A B H) : ProcessEvent B H → Prop
  | .close _ commits => commits.append = true ∧ commits.compact = true ∧
      p.node.store.head + 1 < 2 ^ 64
  | _ => True

instance (p : Process A B H) : (e : ProcessEvent B H) → Decidable (p.Takes e)
  | .close _ commits => inferInstanceAs (Decidable (commits.append = true ∧
      commits.compact = true ∧ p.node.store.head + 1 < 2 ^ 64))
  | .round .. | .voteRequest .. | .voteReply .. | .collected | .inbound .. | .push .. | .page ..
  | .checkpoint .. | .rewind .. | .reconciled _ | .pushReconciled _ | .accept _ | .queue ..
  | .mempoolRound _ | .turn _ | .answered _ | .turned _ | .restart _ => isTrue trivial

/-- Nothing is executed late, what a peer offers is in range, and the database takes every block. -/
def Records (p : Option (Process A B H)) (e : ProcessEvent B H) : Prop :=
  Replicates p e ∧ ∀ q ∈ p, q.Takes e

instance (p : Option (Process A B H)) (e : ProcessEvent B H) : Decidable (Records p e) :=
  inferInstanceAs (Decidable (Replicates p e ∧ ∀ q ∈ p, q.Takes e))

theorem step_recorded {p p' : Process A B H} {e : ProcessEvent B H}
    (replica : Node.Replica env p.node) (recorded : Node.Recorded env p.node) (prompt : ¬ p.Late e)
    (inRange : e.InRange) (takes : p.Takes e) (stepped : p.step env readHard e = some p') :
    Node.Recorded env p'.node := by
  cases restarts : e.restarts with
  | true =>
    cases e with
    | restart cfg =>
      have again := step_replica replica prompt inRange stepped
      apply again.recorded
      simp only [step, open_, Option.bind_eq_bind, Option.bind_eq_some_iff, Option.pure_def,
        Option.some.injEq] at stepped
      obtain ⟨hard, _, n, opened, rfl⟩ := stepped
      rw [Node.open_reloads] at opened
      rw [Node.reloadFromStore_refolded opened]
      rfl
    | _ => cases restarts
  | false =>
    have works := step_works restarts stepped
    cases e with
    | close at_ commits =>
      obtain ⟨appends, compacts, room⟩ := takes
      cases step_steps stepped with
      | idle idles => exact recorded
      | close leads advanced =>
        obtain ⟨l, holds, mirrored⟩ := recorded
        exact mirrored.advance holds (holds.head ▸ room) appends compacts advanced
    | _ => exact works.recorded prompt inRange.offers (fun _ closes => closes) replica recorded

theorem run_recorded {cfg : NodeConfig} {store : Store B B} {l : ChainLog B B}
    (holds : Store.Holds store l) {p : Process A B H}
    (opened : open_ env readHard cfg store = some p) {events : List (ProcessEvent B H)}
    (records : Machine.Meets (next env readHard) Records (some p) events) {q : Process A B H}
    (reached : Machine.run (next env readHard) (some p) events = some q) :
    Node.Replica env q.node ∧ Node.Recorded env q.node := by
  refine Machine.run_invariant (fun s => ∀ r : Process A B H, s = some r →
    Node.Replica env r.node ∧ Node.Recorded env r.node) ?_ ?_ records q reached
  · intro s e kept ok r stepped
    obtain ⟨before, rfl, stepped⟩ := Option.bind_eq_some_iff.mp stepped
    obtain ⟨replica, recorded⟩ := kept before rfl
    obtain ⟨prompt, inRange⟩ := ok.1 before rfl
    exact ⟨step_replica replica prompt inRange stepped,
      step_recorded replica recorded prompt inRange (ok.2 before rfl) stepped⟩
  · rintro r ⟨⟩
    have replica := open_replica holds opened
    refine ⟨replica, replica.recorded ?_⟩
    simp only [open_, Option.bind_eq_bind, Option.bind_eq_some_iff, Option.pure_def,
      Option.some.injEq] at opened
    obtain ⟨hard, _, n, opened, rfl⟩ := opened
    rw [Node.open_reloads] at opened
    rw [Node.reloadFromStore_refolded opened]
    rfl

end Process

end AkumaMiot

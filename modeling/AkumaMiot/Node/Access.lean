import AkumaMiot.Node.Nonces
import AkumaMiot.Node.Patrons
import AkumaMiot.Node.Replicas

/-!
# Who may read and who may write

A node keeps the chain's patrons beside its chain state, and its listener keeps the pins that
follow from them. Both are read anew when what was absorbed says that patrons moved, and after a
rebuild, whose checkpoint has patrons in it and no effect that says so. So access follows the chain
in every state a node gets to, and whom the node turns away at its door is whom the chain would.
-/
namespace AkumaMiot

/-- Whether an effect makes or unmakes a patron. -/
def movesPatrons {A : Type} : Effect A → Bool
  | .patronApproved .. | .patronRevoked .. => true
  | _ => false

namespace Storage

variable {A : Type}

/-- `Pallet::patrons`, by name. A map is read in no particular order. -/
def patronNames (s : Storage A) : Multiset (String × A) :=
  s.patrons.entries.map fun e => (e.2.name, e.1)

end Storage

variable {A B H : Type} [DecidableEq A]

/-- Who mesh-internal traffic is allowed to come from: members, root and leader. -/
def Env.isTrustedSigner (env : Env A B H) (a : A) : Bool :=
  a ∈ env.roster.map Prod.snd || a = env.root || a = env.leader

/-- What a node keeps of who may talk to it. -/
structure Gate (A : Type) where
  /-- This node's own account. -/
  identity : A
  /-- `--patrons`, by name. They read, and write nothing. -/
  patrons : List (String × A)
  /-- Patrons approved on chain, by name: a cache of state. -/
  chainPatrons : Multiset (String × A)
  /-- The listener's live pin set. -/
  tlsReaders : Multiset A

namespace Gate

/-- `reader_accounts`: whom the listener lets in whatever the chain says. -/
def staticReaders (g : Gate A) (env : Env A B H) : List A :=
  (g.patrons.map Prod.snd ++ [g.identity]).foldl (fun v a => if a ∈ v then v else v ++ [a])
    env.trustedAccounts

/-- The gate of a node that is being opened. -/
def opening (env : Env A B H) (identity : A) (patrons : List (String × A)) : Gate A :=
  let g : Gate A := ⟨identity, patrons, 0, 0⟩
  { g with tlsReaders := g.staticReaders env }

/-- Approved on chain. -/
def isChainPatron (g : Gate A) (a : A) : Bool := a ∈ g.chainPatrons.map Prod.snd

/-- Who may read from this node. -/
def isReader (g : Gate A) (env : Env A B H) (a : A) : Bool :=
  env.isTrustedSigner a || a = g.identity || g.patrons.any (fun (_, f) => f = a) || g.isChainPatron a

/-- Who a write may come from. -/
def canWrite (g : Gate A) (env : Env A B H) (a : A) : Bool :=
  env.isTrustedSigner a || g.isChainPatron a

/-- The first thing `accept_extrinsic` does: it answers for the chain, and takes nothing in. -/
def turnsAway (g : Gate A) (env : Env A B H) (bytes : B) : Bool :=
  match env.decodeExtrinsic bytes with
  | some uxt => !g.canWrite env uxt.signer
  | none => false

/-- Read the patrons from state again, and hand the listener its new pin set. -/
def refreshPatrons (g : Gate A) (env : Env A B H) (ext : Storage A) : Gate A :=
  let patrons := ext.patronNames
  let readers := g.staticReaders env
  { g with
    chainPatrons := patrons
    tlsReaders := (readers : Multiset A) +
      (patrons.map Prod.snd).filter (· ∉ readers) }

/-- What `absorb` does to the gate, over the state it finds. -/
def absorb (g : Gate A) (env : Env A B H) (ext : Storage A) (effects : List (Effect A)) : Gate A :=
  if effects.any movesPatrons then g.refreshPatrons env ext else g

end Gate

/-! ## Patrons that stay -/

namespace Storage

variable {s s' : Storage A} {rt : Runtime A}

theorem tickNow_elsewhere (s : Storage A) (rt : Runtime A) : Elsewhere s (s.tickNow rt) := by
  unfold tickNow
  simp only
  split
  · refine commit_elsewhere ?_ _
    rw [TaskTable.tick_folds, TaskTable.applyAll_root]
    rfl
  · exact .refl s

theorem replayEffect_still {e : Effect A} (still : movesPatrons e = false) (s : Storage A)
    (rt : Runtime A) (now : BlockNumber) : (s.replayEffect rt e now).patrons = s.patrons := by
  cases e with
  | patronApproved | patronRevoked => cases still
  | message id sender to_ body parent artifact =>
    cases artifact with
    | none => rfl
    | some a => rfl
  | _ => rfl

theorem replayEffects_still {effects : List (Effect A)} (still : effects.any movesPatrons = false)
    (s : Storage A) (rt : Runtime A) (now : BlockNumber) :
    (effects.foldl (fun s e => s.replayEffect rt e now) s).patrons = s.patrons := by
  induction effects generalizing s with
  | nil => rfl
  | cons e es ih =>
    simp only [List.any_cons, Bool.or_eq_false_iff] at still
    rw [List.foldl_cons, ih still.2, replayEffect_still still.1]

/-- An accepted call that makes or unmakes a patron says so. -/
theorem dispatch_still {who : A} {c : LitterCall A} (opened : s.blockNumber ≠ 0)
    (accepted : s.dispatch rt (.signed who) c = .ok s') :
    s'.patrons = s.patrons ∨ s'.events.any movesPatrons = true := by
  cases dispatch_accepted accepted with
  | @verb _ _ call effects t => exact .inl (commit_agree s t effects).patrons
  | @own _ _ e passes recorded =>
    cases moves : movesPatrons e with
    | false => exact .inl (by rw [depositEvent_eq]; exact replayEffect_still moves s rt s.now)
    | true =>
      obtain ⟨_, _, number, _⟩ := replayEffect_table s rt e s.now
      rw [depositEvent_events (number ▸ opened) e, List.any_append]
      exact .inr (by simp [moves])
  | @clearAll _ effects t => exact .inl (commit_agree s t effects).patrons
  | requestCompaction => exact .inl rfl

theorem applyExtrinsic_still {env : Env A B H} {uxt : UncheckedExtrinsic A}
    (opened : s.blockNumber ≠ 0) :
    (s.applyExtrinsic env uxt).2.patrons = s.patrons ∨
      (s.applyExtrinsic env uxt).2.events.any movesPatrons = true := by
  unfold applyExtrinsic
  split
  · exact .inl rfl
  · split
    · exact .inl rfl
    next t checked =>
      have kept := checkNonce_elsewhere checked
      split
      next t' accepted =>
        have counted : t.blockNumber = s.blockNumber := by
          obtain ⟨_, _, _, rfl⟩ := checkNonce_counts checked
          rfl
        rcases dispatch_still (counted ▸ opened) accepted with same | told
        · exact .inl (same.trans kept.patrons)
        · exact .inr told
      · exact .inl kept.patrons

end Storage

/-! ## The gate beside the node -/

namespace Gate

variable {env : Env A B H} {g : Gate A} {ext ext' : Storage A}

/-- What is kept is what the state says. -/
def Fresh (g : Gate A) (env : Env A B H) (ext : Storage A) : Prop := g.refreshPatrons env ext = g

theorem fresh_refreshPatrons (g : Gate A) (env : Env A B H) (ext : Storage A) :
    (g.refreshPatrons env ext).Fresh env ext := rfl

theorem Fresh.same (fresh : g.Fresh env ext) (same : ext'.patrons = ext.patrons) :
    g.Fresh env ext' := by
  have names : ext'.patronNames = ext.patronNames := by
    unfold Storage.patronNames
    rw [same]
  unfold Fresh refreshPatrons at fresh ⊢
  rw [names]
  exact fresh

/-- Effects that say when patrons moved keep the gate fresh. -/
theorem Fresh.absorb (fresh : g.Fresh env ext) {effects : List (Effect A)}
    (told : ext'.patrons = ext.patrons ∨ effects.any movesPatrons = true) :
    (g.absorb env ext' effects).Fresh env ext' := by
  unfold Gate.absorb
  split
  · exact fresh_refreshPatrons g env ext'
  next quiet => exact fresh.same (told.resolve_right quiet)

end Gate

namespace Node

/-- What a node's work does to the gate beside it. A rebuild absorbs every block that it folds,
and ends by reading the state. -/
inductive Guards (env : Env A B H) (may : May B) :
    Node A B H × Gate A → Node A B H × Gate A → Prop
  | rests {n n' : Node A B H} (g : Gate A) (rests : n.Rests n') : Guards env may (n, g) (n', g)
  | submitted (n : Node A B H) (g : Gate A) (uxt : UncheckedExtrinsic A)
      (leads : n.producing = true ∨ may.late) :
      Guards env may (n, g) ((n.submit env uxt).2,
        g.absorb env (n.ext.applyExtrinsic env uxt).2 (n.ext.applyExtrinsic env uxt).2.events)
  | closed {n n' : Node A B H} (g : Gate A) {at_ : Nat} {commits : Commits}
      (leads : n.producing = true) (taken : may.closes commits)
      (advanced : n.advance env at_ commits = some n') :
      Guards env may (n, g) (n',
        g.absorb env (n.ext.initializeBlock env.rt) (n.ext.initializeBlock env.rt).events)
  | promoted {n : Node A B H} (g : Gate A) (follows : n.producing = false) :
      Guards env may (n, g) (n.promote env,
        g.absorb env ((n.ext.setReplaying false).tickNow env.rt)
          ((n.ext.setReplaying false).tickNow env.rt).events)
  | demoted {n n' : Node A B H} (g : Gate A) (leads : n.producing = true)
      (reloaded : { n with producing := false }.reloadFromStore env = some n') :
      Guards env may (n, g) (n', g.refreshPatrons env n'.ext)
  | applied {n n' : Node A B H} (g : Gate A) {commits : Bool} {height : Nat} {body : B}
      {store : Store B B} {effects : List (Effect A)} {at_ : Option Nat}
      (follows : n.producing = false) (opens : env.openBody body = some (effects, at_))
      (appended : n.store.append commits height body = (.ok (), store))
      (applied : { n with store := store }.applyBlock env height effects at_ = some n') :
      Guards env may (n, g) (n',
        g.absorb env (effects.foldl (fun s e => s.replayEffect env.rt e n.ext.now) n.ext) effects)
  | adopted {n n' : Node A B H} (g : Gate A) {commits : Bool} {height : Nat} {state : B}
      {store : Store B B} (follows : n.producing = false) (offered : may.offers height state)
      (adopted : n.store.adoptCheckpoint commits height state = (.ok (), store))
      (reloaded : { n with store := store }.reloadFromStore env = some n') :
      Guards env may (n, g) (n', g.refreshPatrons env n'.ext)
  | rewound {n n' : Node A B H} (g : Gate A) {commits : Bool} {fork : Nat} {r : Rewind B}
      {store : Store B B} (follows : n.producing = false)
      (rewound : n.store.rewindForFork commits fork = (.ok r, store))
      (reloaded : { n with store := store }.reloadFromStore env = some n') :
      Guards env may (n, g) (n', g.refreshPatrons env n'.ext)
  | trans {a b c : Node A B H × Gate A} (first : Guards env may a b) (second : Guards env may b c) :
      Guards env may a c

/-- Whatever a node does does something to its gate. -/
theorem Works.guards {env : Env A B H} {may : May B} {n n' : Node A B H}
    (works : Works env may n n') (g : Gate A) : ∃ g', Guards env may (n, g) (n', g') := by
  induction works generalizing g with
  | rests rests => exact ⟨_, .rests g rests⟩
  | submitted n uxt leads => exact ⟨_, .submitted n g uxt leads⟩
  | closed leads taken advanced => exact ⟨_, .closed g leads taken advanced⟩
  | promoted follows => exact ⟨_, .promoted g follows⟩
  | demoted leads reloaded => exact ⟨_, .demoted g leads reloaded⟩
  | applied follows opens appended applied => exact ⟨_, .applied g follows opens appended applied⟩
  | adopted follows offered adopted reloaded =>
    exact ⟨_, .adopted g follows offered adopted reloaded⟩
  | rewound follows rewound reloaded => exact ⟨_, .rewound g follows rewound reloaded⟩
  | trans _ _ first second =>
    obtain ⟨g1, one⟩ := first g
    obtain ⟨g2, two⟩ := second g1
    exact ⟨g2, .trans one two⟩

/-! ## What a rebuild ends with -/

section Rebuilding

variable {env : Env A B H} {P : Storage A → Prop}

theorem replayBlocks_ext (folds : ∀ (s : Storage A) (effects : List (Effect A)), P s →
      P { (effects.foldl (fun t e => t.replayEffect env.rt e s.now) s).initializeBlock env.rt with
        events := [] })
    {n n' : Node A B H} {hs : List Nat} (start : P n.ext)
    (replayed : replayBlocks env n hs = some n') : P n'.ext := by
  induction hs generalizing n with
  | nil =>
    cases replayed
    exact start
  | cons h hs ih =>
    simp only [replayBlocks, Option.bind_eq_bind, Option.bind_eq_some_iff] at replayed
    obtain ⟨body, _, ⟨effects, at_⟩, _, m, applied, replayed⟩ := replayed
    refine ih ?_ replayed
    rw [applyBlock_ext applied]
    exact folds n.ext effects start

/-- What holds at genesis and of what checkpoints decode to, and is kept by folding a block, holds
of every state rebuilt. -/
theorem reloadFromStore_ext (genesis : ∀ replaying, P (env.genesis replaying))
    (folds : ∀ (s : Storage A) (effects : List (Effect A)), P s →
      P { (effects.foldl (fun t e => t.replayEffect env.rt e s.now) s).initializeBlock env.rt with
        events := [] })
    {n n' : Node A B H}
    (restores : ∀ blob ext, n.store.checkpointState = some blob →
      env.decodeSnapshot blob = some ext →
        P { (ext.setReplaying (!n.producing)).initializeBlock env.rt with events := [] })
    (reloaded : n.reloadFromStore env = some n') : P n'.ext := by
  unfold reloadFromStore replay at reloaded
  simp only [Option.bind_eq_bind] at reloaded
  split at reloaded
  · obtain ⟨m, restored, replayed⟩ := Option.bind_eq_some_iff.mp reloaded
    obtain ⟨blob, read, restored⟩ := Option.bind_eq_some_iff.mp restored
    refine replayBlocks_ext folds ?_ replayed
    simp only [restoreFromSnapshot, Option.bind_eq_bind, Option.bind_eq_some_iff,
      Option.pure_def, Option.some.injEq] at restored
    obtain ⟨ext, decodes, opening, opened, rfl⟩ := restored
    rw [initializeBlock_eq opened]
    exact restores blob ext read decodes
  · exact replayBlocks_ext folds (genesis _) reloaded

end Rebuilding

/-! ## The gate follows the state -/

/-- A block is open, and the gate is what its state says. -/
structure Guarded (env : Env A B H) (s : Node A B H × Gate A) : Prop where
  opened : s.1.ext.blockNumber ≠ 0
  fresh : s.2.Fresh env s.1.ext

theorem reloadFromStore_opened {env : Env A B H} {n n' : Node A B H}
    (reloaded : n.reloadFromStore env = some n') : n'.ext.blockNumber ≠ 0 := by
  refine reloadFromStore_ext (P := fun s => s.blockNumber ≠ 0) (fun replaying => ?_)
    (fun s effects _ => ?_) (fun blob ext _ _ => ?_) reloaded
  · rw [genesis_blockNumber]
    exact Nat.one_ne_zero
  · simp only [Storage.initializeBlock_blockNumber]
    exact Nat.succ_ne_zero _
  · simp only [Storage.initializeBlock_blockNumber]
    exact Nat.succ_ne_zero _

theorem Guards.guarded {env : Env A B H} {may : May B} {s s' : Node A B H × Gate A}
    (guards : Guards env may s s') (guarded : Guarded env s) : Guarded env s' := by
  induction guards with
  | rests g rests =>
    obtain ⟨opened, fresh⟩ := guarded
    refine ⟨?_, ?_⟩
    · simp only [rests.ext]
      exact opened
    · simp only [rests.ext]
      exact fresh
  | submitted n g uxt leads =>
    obtain ⟨opened, fresh⟩ := guarded
    obtain ⟨compaction, executed⟩ := submit_eq n env uxt
    have ext : (n.submit env uxt).2.ext = { (n.ext.applyExtrinsic env uxt).2 with events := [] } := by
      rw [executed, drainAbsorb_eq]
    refine ⟨?_, ?_⟩
    · simp only [ext, applyExtrinsic_blockNumber]
      exact opened
    · simp only [ext]
      exact (fresh.absorb (Storage.applyExtrinsic_still opened)).same rfl
  | @closed n n' g at_ commits leads taken advanced =>
    obtain ⟨opened, fresh⟩ := guarded
    have kept := (Storage.initializeBlock_elsewhere n.ext env.rt).patrons
    have ext : n'.ext = { n.ext.initializeBlock env.rt with events := [] } := by
      obtain ⟨log, store, mesh, rfl⟩ := advance_eq advanced
      rw [drainAbsorb_eq]
    refine ⟨?_, ?_⟩
    · simp only [ext, Storage.initializeBlock_blockNumber]
      exact Nat.succ_ne_zero _
    · simp only [ext]
      exact (fresh.absorb (.inl kept)).same rfl
  | @promoted n g follows =>
    obtain ⟨opened, fresh⟩ := guarded
    have kept := (Storage.tickNow_elsewhere (n.ext.setReplaying false) env.rt).patrons
    have ext : (n.promote env).ext =
        { (n.ext.setReplaying false).tickNow env.rt with events := [] } := by
      unfold promote
      rw [drainAbsorb_eq]
    refine ⟨?_, ?_⟩
    · simp only [ext, tickNow_blockNumber]
      exact opened
    · simp only [ext]
      exact (fresh.absorb (.inl kept)).same rfl
  | demoted g leads reloaded =>
    exact ⟨reloadFromStore_opened reloaded, Gate.fresh_refreshPatrons g env _⟩
  | @applied n n' g commits height body store effects at_ follows opens appended applied =>
    obtain ⟨opened, fresh⟩ := guarded
    have told : (effects.foldl (fun s e => s.replayEffect env.rt e n.ext.now) n.ext).patrons =
        n.ext.patrons ∨ effects.any movesPatrons = true := by
      cases moves : effects.any movesPatrons with
      | true => exact .inr rfl
      | false => exact .inl (Storage.replayEffects_still moves n.ext env.rt n.ext.now)
    refine ⟨?_, ?_⟩
    · simp only [applyBlock_ext applied, Storage.initializeBlock_blockNumber]
      exact Nat.succ_ne_zero _
    · simp only [applyBlock_ext applied]
      exact (fresh.absorb told).same (Storage.initializeBlock_elsewhere _ env.rt).patrons
  | adopted g follows offered adopted reloaded =>
    exact ⟨reloadFromStore_opened reloaded, Gate.fresh_refreshPatrons g env _⟩
  | rewound g follows rewound reloaded =>
    exact ⟨reloadFromStore_opened reloaded, Gate.fresh_refreshPatrons g env _⟩
  | trans _ _ first second => exact second (first guarded)

end Node

/-! ## Who is let in -/

theorem Env.mem_trustedAccounts (env : Env A B H) (a : A) :
    a ∈ env.trustedAccounts ↔ env.isTrustedSigner a = true := by
  have pushed : ∀ (v : List A) (b : A), a ∈ (if b ∈ v then v else v ++ [b]) ↔ a ∈ v ∨ a = b := by
    intro v b
    split
    next there =>
      constructor
      · exact .inl
      · rintro (old | rfl)
        · exact old
        · exact there
    next => rw [List.mem_append, List.mem_singleton]
  simp only [Env.trustedAccounts, Env.isTrustedSigner, pushed, Bool.or_eq_true, decide_eq_true_eq]

namespace Gate

variable {env : Env A B H} {g : Gate A} {ext : Storage A}

theorem mem_staticReaders (g : Gate A) (env : Env A B H) (a : A) :
    a ∈ g.staticReaders env ↔
      env.isTrustedSigner a = true ∨ a ∈ g.patrons.map Prod.snd ∨ a = g.identity := by
  have joined : ∀ (more v : List A),
      a ∈ more.foldl (fun v b => if b ∈ v then v else v ++ [b]) v ↔ a ∈ v ∨ a ∈ more := by
    intro more
    induction more with
    | nil => simp
    | cons b more ih =>
      intro v
      rw [List.foldl_cons, ih, List.mem_cons]
      split
      next there =>
        constructor
        · rintro (old | new)
          · exact .inl old
          · exact .inr (.inr new)
        · rintro (old | rfl | new)
          · exact .inl old
          · exact .inl there
          · exact .inr new
      next => rw [List.mem_append, List.mem_singleton, or_assoc]
  rw [staticReaders, joined, env.mem_trustedAccounts, List.mem_append, List.mem_singleton]

theorem mem_patronNames (s : Storage A) (a : A) :
    a ∈ s.patronNames.map Prod.snd ↔ s.isPatron a = true := by
  rw [Storage.isPatron, Option.isSome_iff_exists]
  simp only [Storage.patronNames, Multiset.mem_map]
  constructor
  · rintro ⟨_, ⟨⟨who, p⟩, there, rfl⟩, rfl⟩
    exact ⟨p, Finmap.mem_lookup_iff.mpr there⟩
  · rintro ⟨p, found⟩
    exact ⟨(p.name, a), ⟨⟨a, p⟩, Finmap.mem_lookup_iff.mp found, rfl⟩, rfl⟩

theorem Fresh.isChainPatron (fresh : g.Fresh env ext) (a : A) :
    g.isChainPatron a = ext.isPatron a := by
  have kept : g.chainPatrons = ext.patronNames := (congrArg Gate.chainPatrons fresh).symm
  rw [Bool.eq_iff_iff, Gate.isChainPatron, decide_eq_true_eq, kept, mem_patronNames]

/-- A write may come from a genesis account or from a patron that the chain has. -/
theorem Fresh.canWrite (fresh : g.Fresh env ext) (a : A) :
    g.canWrite env a = (env.isTrustedSigner a || ext.isPatron a) := by
  rw [Gate.canWrite, fresh.isChainPatron]

/-- Whom the headers let read is whom the listener lets in. -/
theorem Fresh.isReader (fresh : g.Fresh env ext) (a : A) :
    g.isReader env a = true ↔ a ∈ g.tlsReaders := by
  have pins : g.tlsReaders = (g.staticReaders env : Multiset A) +
      (ext.patronNames.map Prod.snd).filter (· ∉ g.staticReaders env) :=
    (congrArg Gate.tlsReaders fresh).symm
  rw [pins, Multiset.mem_add, Multiset.mem_filter, Multiset.mem_coe, mem_patronNames,
    mem_staticReaders]
  simp only [Gate.isReader, fresh.isChainPatron, Bool.or_eq_true, decide_eq_true_eq,
    List.any_eq_true, List.mem_map]
  constructor
  · rintro (((trusted | own) | ⟨e, there, rfl⟩) | patron)
    · exact .inl (.inl trusted)
    · exact .inl (.inr (.inr own))
    · exact .inl (.inr (.inl ⟨e, there, rfl⟩))
    · exact (Classical.em _).elim .inl fun out => .inr ⟨patron, out⟩
  · rintro ((trusted | ⟨e, there, rfl⟩ | own) | ⟨patron, _⟩)
    · exact .inl (.inl (.inl trusted))
    · exact .inl (.inr ⟨e, there, rfl⟩)
    · exact .inl (.inl (.inr own))
    · exact .inr patron

end Gate

/-! ## Whole runs -/

namespace Process

variable [DecidableEq H]

/-- A run of a process and of the gate beside it. A restart may be under other `--patrons`. -/
inductive Admits (env : Env A B H) (readHard : List UInt8 → Option Hard) :
    Process A B H × Gate A → List (ProcessEvent B H) → Process A B H × Gate A → Prop
  | nil (s : Process A B H × Gate A) : Admits env readHard s [] s
  | event {p p' : Process A B H} {g g' : Gate A} {e : ProcessEvent B H}
      {es : List (ProcessEvent B H)} {s : Process A B H × Gate A} (runs : e.restarts = false)
      (stepped : p.step env readHard e = some p')
      (guards : Node.Guards env (p.may e) (p.node, g) (p'.node, g'))
      (rest : Admits env readHard (p', g') es s) : Admits env readHard (p, g) (e :: es) s
  | restart {p p' : Process A B H} (g : Gate A) {cfg : NodeConfig}
      {es : List (ProcessEvent B H)} {s : Process A B H × Gate A} (identity : A)
      (patrons : List (String × A)) (stepped : p.step env readHard (.restart cfg) = some p')
      (rest : Admits env readHard
        (p', (Gate.opening env identity patrons).refreshPatrons env p'.node.ext) es s) :
      Admits env readHard (p, g) (.restart cfg :: es) s

variable {env : Env A B H} {readHard : List UInt8 → Option Hard}

/-- A process that has ended stays so. -/
theorem run_ended (events : List (ProcessEvent B H)) :
    Machine.run (next env readHard) (none : Option (Process A B H)) events = none :=
  Machine.run_keeps (· = none) (by rintro s e rfl; rfl) rfl

/-- Every run of a process is one of its gate too. -/
theorem admits_of_run {p q : Process A B H} {events : List (ProcessEvent B H)}
    (reached : Machine.run (next env readHard) (some p) events = some q) (g : Gate A) :
    ∃ g', Admits env readHard (p, g) events (q, g') := by
  induction events generalizing p g with
  | nil =>
    cases reached
    exact ⟨g, .nil _⟩
  | cons e es ih =>
    rw [Machine.run_cons] at reached
    have one : ∃ p', p.step env readHard e = some p' := by
      cases stepped : p.step env readHard e with
      | some p' => exact ⟨p', rfl⟩
      | none =>
        rw [next, Option.bind_some, stepped, run_ended] at reached
        cases reached
    obtain ⟨p', stepped⟩ := one
    rw [next, Option.bind_some, stepped] at reached
    cases restarts : e.restarts with
    | false =>
      obtain ⟨g1, guards⟩ := (step_works restarts stepped).guards g
      obtain ⟨g', rest⟩ := ih reached g1
      exact ⟨g', .event restarts stepped guards rest⟩
    | true =>
      cases e with
      | restart cfg =>
        obtain ⟨g', rest⟩ := ih reached
          ((Gate.opening env g.identity g.patrons).refreshPatrons env p'.node.ext)
        exact ⟨g', .restart g g.identity g.patrons stepped rest⟩
      | _ => cases restarts

/-- And every run of a process and its gate is one of the process. -/
theorem Admits.run {s s' : Process A B H × Gate A} {events : List (ProcessEvent B H)}
    (admits : Admits env readHard s events s') :
    Machine.run (next env readHard) (some s.1) events = some s'.1 := by
  induction admits with
  | nil s => rfl
  | event runs stepped guards rest ih =>
    rw [Machine.run_cons, next, Option.bind_some, stepped]
    exact ih
  | restart g identity patrons stepped rest ih =>
    rw [Machine.run_cons, next, Option.bind_some, stepped]
    exact ih

omit [DecidableEq H] in
theorem open_guarded {cfg : NodeConfig} {store : Store B B} {p : Process A B H}
    (opened : open_ env readHard cfg store = some p) (g : Gate A) :
    Node.Guarded env (p.node, g.refreshPatrons env p.node.ext) := by
  simp only [open_, Option.bind_eq_bind, Option.bind_eq_some_iff, Option.pure_def,
    Option.some.injEq] at opened
  obtain ⟨hard, _, n, opened, rfl⟩ := opened
  rw [Node.open_reloads] at opened
  exact ⟨Node.reloadFromStore_opened opened, Gate.fresh_refreshPatrons g env n.ext⟩

theorem Admits.guarded {s s' : Process A B H × Gate A} {events : List (ProcessEvent B H)}
    (admits : Admits env readHard s events s') (guarded : Node.Guarded env (s.1.node, s.2)) :
    Node.Guarded env (s'.1.node, s'.2) := by
  induction admits with
  | nil s => exact guarded
  | event runs stepped guards rest ih => exact ih (guards.guarded guarded)
  | restart g identity patrons stepped rest ih => exact ih (open_guarded stepped _)

/-- Whatever a node went through, it lets read whom its listener lets connect, and those are its
operator's readers and the patrons its chain state has then; and only a genesis account or such a
patron can write. -/
theorem readers_run (env : Env A B H) (readHard : List UInt8 → Option Hard) (cfg : NodeConfig)
    (store : Store B B) (p : Process A B H) (opened : open_ env readHard cfg store = some p)
    (identity : A) (patrons : List (String × A)) (events : List (ProcessEvent B H))
    (q : Process A B H) (g : Gate A)
    (admits : Admits env readHard
      (p, (Gate.opening env identity patrons).refreshPatrons env p.node.ext) events (q, g)) :
    (∀ a, g.isReader env a = true ↔ a ∈ g.tlsReaders) ∧
    (∀ a, g.isReader env a = true ↔
      a ∈ g.staticReaders env ∨ q.node.ext.isPatron a = true) ∧
    ∀ a, g.canWrite env a = true ↔
      env.isTrustedSigner a = true ∨ q.node.ext.isPatron a = true := by
  have guarded := admits.guarded (open_guarded opened _)
  refine ⟨guarded.fresh.isReader, fun a => ?_, fun a => ?_⟩
  · rw [Gate.mem_staticReaders]
    simp only [Gate.isReader, guarded.fresh.isChainPatron, Bool.or_eq_true, decide_eq_true_eq,
      List.any_eq_true, List.mem_map, or_assoc]
    exact or_congr .rfl or_left_comm
  · rw [guarded.fresh.canWrite, Bool.or_eq_true]

end Process

/-! ## The door and the chain -/

namespace Storage

variable {env : Env A B H} {s s' : Storage A}

/-- A genesis account has a provider and a patron has one. -/
structure Standing (env : Env A B H) (s : Storage A) : Prop where
  trusted : ∀ a, env.isTrustedSigner a = true → (s.isPatron a).toNat + 1 ≤ s.providers a
  stranger : ∀ a, env.isTrustedSigner a = false → s.providers a = (s.isPatron a).toNat

theorem Standing.elsewhere (standing : s.Standing env) (else_ : Elsewhere s s') :
    s'.Standing env := by
  have patron : ∀ a, s'.isPatron a = s.isPatron a := by
    intro a
    rw [isPatron, isPatron, else_.patrons]
  constructor
  · intro a trusted
    rw [else_.providers, patron]
    exact standing.trusted a trusted
  · intro a stranger
    rw [else_.providers, patron]
    exact standing.stranger a stranger

/-- A patron that comes brings its provider, and one that goes takes it. -/
theorem Standing.moved (standing : s.Standing env) (who : A)
    (others : ∀ a, a ≠ who → s'.isPatron a = s.isPatron a ∧ s'.providers a = s.providers a)
    (itself : (s'.isPatron who = s.isPatron who ∧ s'.providers who = s.providers who) ∨
      (s.isPatron who = false ∧ s'.isPatron who = true ∧
        s'.providers who = u32SaturatingAdd (s.providers who) 1) ∨
      (s.isPatron who = true ∧ s'.isPatron who = false ∧
        s'.providers who = s.providers who - 1)) : s'.Standing env := by
  have same : ∀ a, s'.isPatron a = s.isPatron a ∧ s'.providers a = s.providers a →
      (env.isTrustedSigner a = true → (s'.isPatron a).toNat + 1 ≤ s'.providers a) ∧
      (env.isTrustedSigner a = false → s'.providers a = (s'.isPatron a).toNat) := by
    rintro a ⟨patron, providers⟩
    rw [patron, providers]
    exact ⟨standing.trusted a, standing.stranger a⟩
  have every : ∀ a, (env.isTrustedSigner a = true → (s'.isPatron a).toNat + 1 ≤ s'.providers a) ∧
      (env.isTrustedSigner a = false → s'.providers a = (s'.isPatron a).toNat) := by
    intro a
    by_cases self : a = who
    · subst self
      have trusted := standing.trusted a
      have stranger := standing.stranger a
      rcases itself with still | ⟨was, now, more⟩ | ⟨was, now, less⟩
      · exact same a still
      · rw [was] at trusted stranger
        rw [now, more, u32SaturatingAdd]
        simp only [Bool.toNat_false, Bool.toNat_true] at trusted stranger ⊢
        exact ⟨fun t => by have := trusted t; omega, fun t => by have := stranger t; omega⟩
      · rw [was] at trusted stranger
        rw [now, less]
        simp only [Bool.toNat_false, Bool.toNat_true] at trusted stranger ⊢
        exact ⟨fun t => by have := trusted t; omega, fun t => by have := stranger t; omega⟩
    · exact same a (others a self)
  exact ⟨fun a => (every a).1, fun a => (every a).2⟩

theorem isPatron_approved (s : Storage A) (who by_ a : A) (name : String) (now : BlockNumber) :
    (s.foldPatron (.patronApproved who name by_) now).isPatron a =
      if a = who then true else s.isPatron a := by
  rw [foldPatron_approved]
  simp only [isPatron]
  split
  next same => rw [same, Finmap.lookup_insert]; rfl
  next other => rw [Finmap.lookup_insert_of_ne _ other]

theorem isPatron_revoked (s : Storage A) (who by_ a : A) (now : BlockNumber) :
    (s.foldPatron (.patronRevoked who by_) now).isPatron a =
      if a = who then false else s.isPatron a := by
  rw [foldPatron_revoked]
  cases was : s.isPatron who with
  | true =>
    simp only [isPatron, if_true]
    split
    next same => rw [same, Finmap.lookup_erase]; rfl
    next other => rw [Finmap.lookup_erase_ne other]
  | false =>
    simp only [Bool.false_eq_true, if_false]
    split
    next same => rw [same]; exact was
    next => rfl

/-- However often it is approved or revoked, a patron has its provider once. -/
theorem Standing.foldPatron (standing : s.Standing env) (e : Effect A) (now : BlockNumber) :
    (s.foldPatron e now).Standing env := by
  cases e with
  | patronApproved who name by_ =>
    have patron := fun a => isPatron_approved s who by_ a name now
    cases was : s.isPatron who with
    | true =>
      have same : (s.foldPatron (.patronApproved who name by_) now).providers = s.providers := by
        rw [foldPatron_approved, was]
        rfl
      refine standing.moved who (fun a other => ⟨?_, congrFun same a⟩) (.inl ⟨?_, congrFun same who⟩)
      · rw [patron, if_neg other]
      · rw [patron, if_pos rfl, was]
    | false =>
      have inc : (s.foldPatron (.patronApproved who name by_) now).providers =
          (s.incProviders who).providers := by
        rw [foldPatron_approved, was]
        rfl
      refine standing.moved who (fun a other => ⟨?_, ?_⟩) (.inr (.inl ⟨was, ?_, ?_⟩))
      · rw [patron, if_neg other]
      · rw [inc, incProviders_providers, if_neg other]
      · rw [patron, if_pos rfl]
      · rw [inc, incProviders_providers, if_pos rfl]
  | patronRevoked who by_ =>
    have patron := fun a => isPatron_revoked s who by_ a now
    cases was : s.isPatron who with
    | true =>
      have dec : (s.foldPatron (.patronRevoked who by_) now).providers =
          (s.decProviders who).providers := by
        rw [foldPatron_revoked, was]
        rfl
      refine standing.moved who (fun a other => ⟨?_, ?_⟩) (.inr (.inr ⟨was, ?_, ?_⟩))
      · rw [patron, if_neg other]
      · rw [dec, decProviders_providers, if_neg other]
      · rw [patron, if_pos rfl]
      · rw [dec, decProviders_providers, if_pos rfl]
    | false =>
      have same : (s.foldPatron (.patronRevoked who by_) now).providers = s.providers := by
        rw [foldPatron_revoked, was]
        rfl
      refine standing.moved who (fun a other => ⟨?_, congrFun same a⟩) (.inl ⟨?_, congrFun same who⟩)
      · rw [patron, if_neg other]
      · rw [patron, if_pos rfl, was]
  | _ => exact ⟨standing.trusted, standing.stranger⟩

theorem Standing.replayEffect (standing : s.Standing env) (e : Effect A) (now : BlockNumber) :
    (s.replayEffect env.rt e now).Standing env := by
  cases e with
  | patronApproved who name by_ => exact standing.foldPatron (.patronApproved who name by_) now
  | patronRevoked who by_ => exact standing.foldPatron (.patronRevoked who by_) now
  | patronRequested | patronRejected => exact ⟨standing.trusted, standing.stranger⟩
  | _ => exact standing.elsewhere (replayEffect_elsewhere s env.rt _ now fun _ => rfl)

theorem Standing.replayEffects (standing : s.Standing env) (effects : List (Effect A))
    (now : BlockNumber) :
    (effects.foldl (fun t e => t.replayEffect env.rt e now) s).Standing env := by
  induction effects generalizing s with
  | nil => exact standing
  | cons e es ih => exact ih (standing.replayEffect e now)

theorem Standing.dispatched (standing : s.Standing env) {who : A} {c : LitterCall A}
    (accepted : s.dispatch env.rt (.signed who) c = .ok s') : s'.Standing env := by
  cases dispatch_accepted accepted with
  | @verb _ _ call effects t passes is_ answer =>
    have root := ((s.table env.rt).step_frame (.call call) s.now).2.1
    simp only [TaskTable.step, answer] at root
    exact standing.elsewhere (commit_elsewhere root effects)
  | @own _ _ e passes recorded =>
    exact (standing.replayEffect e s.now).elsewhere (deposit_elsewhere _ [e])
  | @clearAll _ effects t passes answer =>
    have root := ((s.table env.rt).step_frame (.clearAll (authorityOf who s.litter)) s.now).2.1
    simp only [TaskTable.step, answer] at root
    have cleared := commit_elsewhere (s := s) root effects
    exact standing.elsewhere ⟨cleared.root, cleared.roster, cleared.patronRequests,
      cleared.patrons, cleared.providers⟩
  | requestCompaction => exact standing.elsewhere ⟨rfl, rfl, rfl, rfl, fun _ => rfl⟩

theorem Standing.applyExtrinsic (standing : s.Standing env) (uxt : UncheckedExtrinsic A) :
    (s.applyExtrinsic env uxt).2.Standing env := by
  unfold Storage.applyExtrinsic
  split
  · exact standing
  · split
    · exact standing
    next t checked =>
      have counted := standing.elsewhere (checkNonce_elsewhere checked)
      split
      next accepted => exact counted.dispatched accepted
      next => exact counted

/-! ### Genesis -/

theorem incProviders_others (accounts : List A) (s : Storage A) {a : A} (other : a ∉ accounts) :
    (accounts.foldl incProviders s).providers a = s.providers a := by
  induction accounts generalizing s with
  | nil => rfl
  | cons b more ih =>
    have here : a ≠ b := fun same => other (same ▸ List.mem_cons_self)
    have later : a ∉ more := fun there => other (List.mem_cons_of_mem b there)
    rw [List.foldl_cons, ih _ later, incProviders_providers, if_neg here]

/-- A provider once given stays, however many more are given. -/
theorem incProviders_keeps (accounts : List A) (s : Storage A) {a : A} (some_ : 0 < s.providers a) :
    0 < (accounts.foldl incProviders s).providers a := by
  induction accounts generalizing s with
  | nil => exact some_
  | cons b more ih =>
    rw [List.foldl_cons]
    refine ih _ ?_
    rw [incProviders_providers, u32SaturatingAdd]
    split
    · omega
    · exact some_

theorem incProviders_listed {accounts : List A} (s : Storage A) {a : A} (there : a ∈ accounts) :
    0 < (accounts.foldl incProviders s).providers a := by
  induction accounts generalizing s with
  | nil => cases there
  | cons b more ih =>
    rw [List.foldl_cons]
    rcases List.mem_cons.mp there with rfl | later
    · refine incProviders_keeps more _ ?_
      rw [incProviders_providers, if_pos rfl, u32SaturatingAdd]
      omega
    · exact ih _ later

/-- At genesis every trusted account has its provider, and there are no patrons. -/
theorem genesis_standing (env : Env A B H) (replaying : Bool) :
    (env.genesis replaying).Standing env := by
  let start := ((genesis (some env.root) (some env.leader) env.roster).setReplaying replaying)
  have opened := initializeBlock_elsewhere start env.rt
  have fresh : ∀ a, (start.initializeBlock env.rt).providers a = 0 := fun a => opened.providers a
  have none_ : ∀ a, (env.genesis replaying).isPatron a = false := by
    intro a
    have patrons : (env.genesis replaying).patrons = ∅ :=
      (incProviders_all_frame env.trustedAccounts (start.initializeBlock env.rt)).2.2.2.trans
        opened.patrons
    rw [isPatron, patrons]
    rfl
  constructor
  · intro a trusted
    rw [none_]
    exact incProviders_listed _ ((env.mem_trustedAccounts a).mpr trusted)
  · intro a stranger
    have out : a ∉ env.trustedAccounts := by
      rw [env.mem_trustedAccounts, stranger]
      exact Bool.false_ne_true
    rw [none_]
    exact (incProviders_others _ _ out).trans (fresh a)

/-! ### Refusals -/

theorem checkNonce_payment (s : Storage A) (who : A) (nonce : Nat) :
    s.checkNonce who nonce = .error .payment ↔ s.providers who = 0 := by
  unfold checkNonce providers
  cases s.account.lookup who with
  | none => simp
  | some a =>
    simp only [Option.getD_some]
    split
    next none_ => simp [none_]
    next some_ =>
      split
      · simp [some_]
      · split
        · simp [some_]
        · simp [some_]

/-- The chain turns an account away for want of a provider exactly when it is neither a genesis
account nor a patron. -/
theorem Standing.payment (standing : s.Standing env) {uxt : UncheckedExtrinsic A}
    (admitted : env.admits s uxt = true) :
    s.applyExtrinsic env uxt = (.error .payment, s) ↔
      (env.isTrustedSigner uxt.signer || s.isPatron uxt.signer) = false := by
  have count : s.providers uxt.signer = 0 ↔
      (env.isTrustedSigner uxt.signer || s.isPatron uxt.signer) = false := by
    cases signs : env.isTrustedSigner uxt.signer with
    | true =>
      have some_ := standing.trusted _ signs
      simp only [Bool.true_or, Bool.true_eq_false, iff_false]
      omega
    | false =>
      rw [standing.stranger _ signs]
      cases s.isPatron uxt.signer <;> simp
  rw [← count, ← checkNonce_payment s uxt.signer uxt.nonce]
  unfold Storage.applyExtrinsic
  simp only [admitted, Bool.not_true, Bool.false_eq_true, if_false]
  cases checked : s.checkNonce uxt.signer uxt.nonce with
  | error e => simp
  | ok t =>
    simp only [reduceCtorEq, iff_false]
    split <;> simp

end Storage

/-! ### What checkpoints found -/

namespace Store

variable {β σ : Type} {s : Store β σ}

/-- A checkpoint's state after a commit was there before, or is the one written. -/
theorem append_states {commits : Bool} {height h : Nat} {b : β} {v : σ}
    (found : (s.append commits height b).2.db (.checkpoint h) = some v) :
    s.db (.checkpoint h) = some v := by
  unfold append at found
  split at found
  · exact found
  · split at found
    · exact found
    · rcases KeyValue.commit_some found with before | wrote
      · exact before
      · simp [putBlock, putHead, keyHead] at wrote

theorem compact_states {commits : Bool} {height h : Nat} {state v : σ}
    (found : (s.compact commits height state).2.db (.checkpoint h) = some v) :
    s.db (.checkpoint h) = some v ∨ v = state := by
  unfold compact at found
  split at found
  · exact .inl found
  · split at found
    · exact .inl found
    · rcases KeyValue.commit_some found with before | wrote
      · exact .inl before
      · simp only [List.mem_append, List.mem_cons, List.not_mem_nil, or_false] at wrote
        rcases wrote with (((new | last) | dropped) | dropped)
        · cases new
          exact .inr rfl
        · cases last
        · unfold dropCheckpoint at dropped
          split at dropped
          · cases List.mem_singleton.mp dropped
          · cases dropped
        · obtain ⟨_, _, same⟩ := List.mem_map.mp dropped
          cases same

theorem adoptCheckpoint_states {commits : Bool} {height h : Nat} {state v : σ}
    (found : (s.adoptCheckpoint commits height state).2.db (.checkpoint h) = some v) :
    s.db (.checkpoint h) = some v ∨ v = state := by
  unfold adoptCheckpoint at found
  split at found
  · exact .inl found
  · rcases KeyValue.commit_some found with before | wrote
    · exact .inl before
    · simp only [List.mem_append, List.mem_cons, List.not_mem_nil, or_false] at wrote
      rcases wrote with ((dropped | dropped) | new | last | head)
      · obtain ⟨_, _, same⟩ := List.mem_map.mp dropped
        cases same
      · unfold dropCheckpoint at dropped
        split at dropped
        · cases List.mem_singleton.mp dropped
        · cases dropped
      · cases new
        exact .inr rfl
      · cases last
      · cases head

theorem rewindForFork_states {commits : Bool} {fork h : Nat} {v : σ}
    (found : (s.rewindForFork commits fork).2.db (.checkpoint h) = some v) :
    s.db (.checkpoint h) = some v := by
  unfold rewindForFork at found
  simp only at found
  split at found
  · exact found
  · rcases KeyValue.commit_some found with before | wrote
    · exact before
    · simp only [List.mem_append, List.mem_cons, List.not_mem_nil, or_false] at wrote
      rcases wrote with ((dropped | forgotten) | head)
      · obtain ⟨_, _, same⟩ := List.mem_map.mp dropped
        cases same
      · have dropped := (List.mem_ite_nil_right.mp forgotten).2
        simp [KeyValue.delete, putLastCp, keyLastCp] at dropped
      · cases head

theorem putAux_states {commits : Bool} {name : String} {value : List UInt8} {h : Nat} {v : σ}
    (found : (s.putAux commits name value).2.db (.checkpoint h) = some v) :
    s.db (.checkpoint h) = some v := by
  unfold putAux at found
  split at found
  · exact found
  · rcases KeyValue.commit_some found with before | wrote
    · exact before
    · simp [auxKey] at wrote

theorem checkpointState_row {v : σ} (found : s.checkpointState = some v) :
    ∃ h, s.db (.checkpoint h) = some v := by
  unfold checkpointState at found
  split at found
  · cases found
  · exact ⟨_, found⟩

end Store

namespace Node

variable {env : Env A B H}

/-- Accounts stand as they should in chain state and in every checkpoint on disk. -/
structure Founded (env : Env A B H) (n : Node A B H) : Prop where
  ext : n.ext.Standing env
  checkpoints : ∀ h blob ext, n.store.db (.checkpoint h) = some blob →
    env.decodeSnapshot blob = some ext → ext.Standing env

theorem reloadFromStore_standing {n n' : Node A B H} (reloaded : n.reloadFromStore env = some n')
    (checkpoints : ∀ h blob ext, n.store.db (.checkpoint h) = some blob →
      env.decodeSnapshot blob = some ext → ext.Standing env) : Founded env n' := by
  constructor
  · refine reloadFromStore_ext (Storage.genesis_standing env) (fun s effects standing => ?_)
      (fun blob ext read decodes => ?_) reloaded
    · have folded := standing.replayEffects effects s.now
      exact (folded.elsewhere (Storage.initializeBlock_elsewhere _ env.rt)).elsewhere
        ⟨rfl, rfl, rfl, rfl, fun _ => rfl⟩
    · obtain ⟨h, there⟩ := Store.checkpointState_row read
      have standing := checkpoints h blob ext there decodes
      have role : (ext.setReplaying (!n.producing)).Standing env :=
        ⟨standing.trusted, standing.stranger⟩
      exact (role.elsewhere (Storage.initializeBlock_elsewhere _ env.rt)).elsewhere
        ⟨rfl, rfl, rfl, rfl, fun _ => rfl⟩
  · rw [reloadFromStore_refolded reloaded]
    exact checkpoints

omit [DecidableEq A] in
theorem saveHard_states {n : Node A B H} {commits : Bool} {h : Nat} {v : B}
    (found : (n.saveHard env commits).store.db (.checkpoint h) = some v) :
    n.store.db (.checkpoint h) = some v := by
  rcases (saveHard_rests n env commits).store with same | ⟨taken, value, put⟩
  · rw [← same]
    exact found
  · rw [put] at found
    exact Store.putAux_states found

omit [DecidableEq A] in
/-- A close writes one checkpoint at most, and it is of the state that the block ended in. -/
theorem advance_states {n n' : Node A B H} {at_ : Nat} {commits : Commits}
    (advanced : n.advance env at_ commits = some n') {h : Nat} {v : B}
    (found : n'.store.db (.checkpoint h) = some v) :
    n.store.db (.checkpoint h) = some v ∨ v = env.encodeSnapshot n.ext := by
  have persisted : ∀ {w : B}, (n.persist env n.block at_ commits).store.db (.checkpoint h) = some w →
      n.store.db (.checkpoint h) = some w := by
    intro w found
    unfold persist at found
    simp only at found
    split at found
    next store taken =>
      have saved := saveHard_states found
      have wrote : (n.store.append commits.append n.block (env.sealBody n.pending at_)).2.db
          (.checkpoint h) = some w := by
        rw [stampBlock] at taken
        simp only at taken
        rw [taken]
        exact saved
      exact Store.append_states wrote
    · exact found
  obtain ⟨m, opened, rfl⟩ := Option.map_eq_some_iff.mp advanced
  rw [drainAbsorb_eq, initializeBlock_eq opened] at found
  simp only at found
  split at found
  · have still : (n.persist env n.block at_ commits).ext = n.ext := by rw [persist_eq]
    rcases Store.compact_states found with before | new
    · exact .inl (persisted before)
    · refine .inr (new.trans ?_)
      simp only [still]
  · exact .inl (persisted found)

/-- Whatever a node does, accounts stand as they should, if they do in what it is offered. -/
theorem Works.founded {may : May B} {n n' : Node A B H} (works : Works env may n n')
    (offers : ∀ height blob ext, may.offers height blob → env.decodeSnapshot blob = some ext →
      ext.Standing env) (founded : Founded env n) : Founded env n' := by
  induction works with
  | @rests n n' rests =>
    obtain ⟨standing, checkpoints⟩ := founded
    refine ⟨rests.ext ▸ standing, fun h blob ext found decodes => ?_⟩
    rcases rests.store with same | ⟨commits, value, put⟩
    · rw [same] at found
      exact checkpoints h blob ext found decodes
    · rw [put] at found
      exact checkpoints h blob ext (Store.putAux_states found) decodes
  | submitted n uxt leads =>
    obtain ⟨standing, checkpoints⟩ := founded
    obtain ⟨compaction, executed⟩ := submit_eq n env uxt
    rw [executed, drainAbsorb_eq]
    have executed := standing.applyExtrinsic uxt
    exact ⟨⟨executed.trusted, executed.stranger⟩, checkpoints⟩
  | @closed n n' at_ commits leads taken advanced =>
    obtain ⟨standing, checkpoints⟩ := founded
    constructor
    · have next := standing.elsewhere (Storage.initializeBlock_elsewhere n.ext env.rt)
      obtain ⟨log, store, mesh, rfl⟩ := advance_eq advanced
      rw [drainAbsorb_eq]
      exact ⟨next.trusted, next.stranger⟩
    · intro h blob ext found decodes
      rcases advance_states advanced found with before | rfl
      · exact checkpoints h blob ext before decodes
      · rw [env.decodeSnapshot_encodeSnapshot, Option.some.injEq] at decodes
        exact decodes ▸ standing
  | @promoted n follows =>
    obtain ⟨standing, checkpoints⟩ := founded
    unfold promote
    rw [drainAbsorb_eq]
    have role : (n.ext.setReplaying false).Standing env := ⟨standing.trusted, standing.stranger⟩
    have ticked := role.elsewhere (Storage.tickNow_elsewhere _ env.rt)
    exact ⟨⟨ticked.trusted, ticked.stranger⟩, checkpoints⟩
  | demoted leads reloaded => exact reloadFromStore_standing reloaded founded.checkpoints
  | @applied n n' commits height body store effects at_ follows opens appended applied =>
    obtain ⟨standing, checkpoints⟩ := founded
    constructor
    · rw [applyBlock_ext applied]
      have folded := standing.replayEffects effects n.ext.now
      have next := folded.elsewhere (Storage.initializeBlock_elsewhere _ env.rt)
      exact ⟨next.trusted, next.stranger⟩
    · intro h blob ext found decodes
      rw [applyBlock_eq applied] at found
      have before : (n.store.append commits height body).2.db (.checkpoint h) = some blob := by
        rw [appended]
        exact found
      exact checkpoints h blob ext (Store.append_states before) decodes
  | @adopted n n' commits height state store follows offered adopted reloaded =>
    refine reloadFromStore_standing reloaded fun h blob ext found decodes => ?_
    have wrote : (n.store.adoptCheckpoint commits height state).2.db (.checkpoint h) = some blob := by
      rw [adopted]
      exact found
    rcases Store.adoptCheckpoint_states wrote with before | rfl
    · exact founded.checkpoints h blob ext before decodes
    · exact offers height blob ext offered decodes
  | @rewound n n' commits fork r store follows rewound reloaded =>
    refine reloadFromStore_standing reloaded fun h blob ext found decodes => ?_
    have kept : (n.store.rewindForFork commits fork).2.db (.checkpoint h) = some blob := by
      rw [rewound]
      exact found
    exact founded.checkpoints h blob ext (Store.rewindForFork_states kept) decodes
  | trans _ _ first second => exact second (first founded)

end Node

namespace Process

variable [DecidableEq H] {env : Env A B H} {readHard : List UInt8 → Option Hard}

/-- Accounts stand in what the event's checkpoint is of. -/
def Founds (env : Env A B H) (e : ProcessEvent B H) : Prop :=
  ∀ height blob ext, e.Offers height blob → env.decodeSnapshot blob = some ext → ext.Standing env

/-- Accounts stand in what the checkpoints on disk are of. An empty store has none. -/
def Backed (env : Env A B H) (store : Store B B) : Prop :=
  ∀ h blob ext, store.db (.checkpoint h) = some blob → env.decodeSnapshot blob = some ext →
    ext.Standing env

omit [DecidableEq H] in
theorem open_founded {cfg : NodeConfig} {store : Store B B} {p : Process A B H}
    (opened : open_ env readHard cfg store = some p) (backed : Backed env store) :
    Node.Founded env p.node := by
  simp only [open_, Option.bind_eq_bind, Option.bind_eq_some_iff, Option.pure_def,
    Option.some.injEq] at opened
  obtain ⟨hard, _, n, opened, rfl⟩ := opened
  rw [Node.open_reloads] at opened
  exact Node.reloadFromStore_standing opened backed

theorem Admits.founded {s s' : Process A B H × Gate A} {events : List (ProcessEvent B H)}
    (admits : Admits env readHard s events s') (founds : ∀ e ∈ events, Founds env e)
    (founded : Node.Founded env s.1.node) : Node.Founded env s'.1.node := by
  induction admits with
  | nil s => exact founded
  | event runs stepped guards rest ih =>
    have offers := founds _ List.mem_cons_self
    exact ih (fun e later => founds e (List.mem_cons_of_mem _ later))
      ((step_works runs stepped).founded offers founded)
  | restart g identity patrons stepped rest ih =>
    exact ih (fun e later => founds e (List.mem_cons_of_mem _ later))
      (open_founded stepped founded.checkpoints)

/-- Whatever a node went through, if accounts stand in the checkpoints that it was offered: whom it
turns away at its door is whom its chain would turn away for want of standing, and accounts stand
in every checkpoint that it has to offer. -/
theorem door_run (env : Env A B H) (readHard : List UInt8 → Option Hard) (cfg : NodeConfig)
    (store : Store B B) (backed : Backed env store) (p : Process A B H)
    (opened : open_ env readHard cfg store = some p) (identity : A) (patrons : List (String × A))
    (events : List (ProcessEvent B H)) (founds : ∀ e ∈ events, Founds env e) (q : Process A B H)
    (g : Gate A) (admits : Admits env readHard
      (p, (Gate.opening env identity patrons).refreshPatrons env p.node.ext) events (q, g)) :
    (∀ bytes uxt, env.decodeExtrinsic bytes = some uxt → env.admits q.node.ext uxt = true →
      (g.turnsAway env bytes = true ↔
        q.node.ext.applyExtrinsic env uxt = (.error .payment, q.node.ext))) ∧
    Backed env q.node.store := by
  have fresh := (admits.guarded (open_guarded opened _)).fresh
  obtain ⟨standing, checkpoints⟩ := admits.founded founds (open_founded opened backed)
  refine ⟨fun bytes uxt decodes admitted => ?_, checkpoints⟩
  rw [standing.payment admitted, Gate.turnsAway, decodes]
  simp only [Bool.not_eq_true', fresh.canWrite]

/-- Root carries a stranger's request and grants it, and the block closes. -/
def letIn : List (ProcessEvent (Plain Nat) (Plain Nat)) :=
  let sig : Signature := Vector.replicate 64 0
  [.round [] 9000 9000 true, .accept (.extrinsic ⟨0, 0, .carryPatronRequest 9 "vet" "to help" sig⟩),
   .accept (.extrinsic ⟨0, 1, .approvePatron 9⟩), .close 9002 {}]

/-- The gate of the leader's node, which another reads from. -/
def soloGate : Gate Nat := .opening Storage.openEnv 1 [("sitter", 7)]

theorem letIn_opens : open_ Storage.openEnv (fun _ => some {}) soloConfig (.openDb Store.emptyDb) =
    some soloProcess := rfl

theorem letIn_runs : ∃ q g, Admits Storage.openEnv (fun _ => some {})
      (soloProcess, soloGate.refreshPatrons Storage.openEnv soloProcess.node.ext) letIn (q, g) ∧
    q.node.ext.isPatron 9 = true ∧ q.node.ext.isPatron 8 = false := by
  have told : (Machine.run (next Storage.openEnv fun _ => some {}) (some soloProcess) letIn).map
      (fun q => (q.node.ext.isPatron 9, q.node.ext.isPatron 8)) = some (true, false) := by
    decide +kernel
  obtain ⟨q, reached, patrons⟩ := Option.map_eq_some_iff.mp told
  obtain ⟨g, admits⟩ := admits_of_run reached
    (soloGate.refreshPatrons Storage.openEnv soloProcess.node.ext)
  obtain ⟨nine, eight⟩ := Prod.mk.inj patrons
  exact ⟨q, g, admits, nine, eight⟩

/-- The new patron's key is pinned and may write. -/
theorem readers_run_letIn : ∃ q g, Admits Storage.openEnv (fun _ => some {})
      (soloProcess, soloGate.refreshPatrons Storage.openEnv soloProcess.node.ext) letIn (q, g) ∧
    9 ∈ g.tlsReaders ∧ g.canWrite Storage.openEnv 9 = true ∧
    g.canWrite Storage.openEnv 8 = false := by
  obtain ⟨q, g, admits, nine, eight⟩ := letIn_runs
  obtain ⟨pinned, readers, writers⟩ := readers_run Storage.openEnv (fun _ => some {}) soloConfig
    (.openDb Store.emptyDb) soloProcess letIn_opens 1 [("sitter", 7)] letIn q g admits
  refine ⟨q, g, admits, ?_, ?_, ?_⟩
  · rw [← pinned, readers]
    exact .inr nine
  · rw [writers]
    exact .inr nine
  · rw [Bool.eq_false_iff, ne_eq, writers, eight]
    decide

/-- A stranger is turned away at the door, for what the chain would say. -/
theorem door_run_letIn : ∃ q g, Admits Storage.openEnv (fun _ => some {})
      (soloProcess, soloGate.refreshPatrons Storage.openEnv soloProcess.node.ext) letIn (q, g) ∧
    g.turnsAway Storage.openEnv (.extrinsic ⟨8, 0, .openParent "mine"⟩) = true ∧
    q.node.ext.applyExtrinsic Storage.openEnv ⟨8, 0, .openParent "mine"⟩ =
      (.error .payment, q.node.ext) := by
  obtain ⟨q, g, admits, _, eight⟩ := letIn_runs
  have opens := letIn_opens
  have backed : Backed Storage.openEnv (Store.openDb Store.emptyDb) := by
    intro h blob ext found
    cases found
  have founds : ∀ e ∈ letIn, Founds Storage.openEnv e := by
    intro e there height blob ext offered
    simp only [letIn, List.mem_cons, List.not_mem_nil, or_false] at there
    rcases there with rfl | rfl | rfl | rfl <;> exact offered.elim
  obtain ⟨door, _⟩ := door_run Storage.openEnv (fun _ => some {}) soloConfig
    (.openDb Store.emptyDb) backed soloProcess opens 1 [("sitter", 7)] letIn founds q g admits
  have same := door (.extrinsic ⟨8, 0, .openParent "mine"⟩) ⟨8, 0, .openParent "mine"⟩ rfl rfl
  have fresh := (admits.guarded (open_guarded opens _)).fresh
  have away : g.turnsAway Storage.openEnv (.extrinsic ⟨8, 0, .openParent "mine"⟩) = true := by
    have writes : g.canWrite Storage.openEnv 8 = false := by
      rw [fresh.canWrite, eight]
      decide
    simp only [Gate.turnsAway, Storage.openEnv, Env.plain] at writes ⊢
    rw [writes]
    rfl
  exact ⟨q, g, admits, away, same.mp away⟩

end Process

end AkumaMiot

import AkumaMiot.Lib.Blake2b
import AkumaMiot.Node.Replicas

/-!
# One directory, one genesis

A node is started on its data directory again and again, under whatever genesis its operator
configures that day. The chain's own genesis hash is zero for every chain, so the store remembers a
hash of root, leader and roster, and every start compares. Whoever the first start was for, nobody
else's chain is ever folded into that directory.
-/
namespace AkumaMiot

variable {A B H : Type}

/-- What a chain starts from. -/
structure Genesis (A : Type) where
  root : A
  leader : A
  roster : List (String × A)
deriving DecidableEq, Repr

/-- A build, started under one genesis. -/
def Env.under (env : Env A B H) (g : Genesis A) : Env A B H :=
  { env with root := g.root, leader := g.leader, roster := g.roster }

namespace Genesis

/-- `(root, leader, roster).encode()`. -/
def codec (account : Scale.Codec A) : Scale.Codec (A × A × List (String × A)) :=
  account.pair (account.pair (Scale.text.pair account).list)

def bytes (account : Scale.Codec A) (g : Genesis A) : List UInt8 :=
  (codec account).encode (g.root, g.leader, g.roster)

/-- What a store remembers about the genesis it was built under: a hash over root, leader and the
roster, names included. -/
def fingerprint (account : Scale.Codec A) (g : Genesis A) : List UInt8 :=
  Blake2b.hash 32 (g.bytes account)

/-- Accounts that their codec can write, and lengths that fit their prefixes. -/
structure Fits (fits : A → Prop) (g : Genesis A) : Prop where
  root : fits g.root
  leader : fits g.leader
  roster : g.roster.length < 2 ^ 32
  entries : ∀ e ∈ g.roster, e.1.utf8ByteSize < 2 ^ 32 ∧ fits e.2

/-- No two geneses are written with the same bytes. -/
theorem bytes_inj {account : Scale.Codec A} {fits : A → Prop} (lawful : account.Lawful fits)
    {g g' : Genesis A} (fit : g.Fits fits) (fit' : g'.Fits fits)
    (same : g'.bytes account = g.bytes account) : g' = g := by
  have codes := lawful.pair (lawful.pair (Scale.text_lawful.pair lawful).list)
  have read := codes.inverse (a := (g.root, g.leader, g.roster))
    ⟨fit.root, fit.leader, fit.roster, fit.entries⟩
  have read' := codes.inverse (a := (g'.root, g'.leader, g'.roster))
    ⟨fit'.root, fit'.leader, fit'.roster, fit'.entries⟩
  unfold bytes codec at same
  rw [same, read] at read'
  simp only [Option.some.injEq, Prod.mk.injEq, and_true] at read'
  cases g
  cases g'
  simp only at read'
  obtain ⟨rfl, rfl, rfl⟩ := read'
  rfl

/-- One hash of two geneses that are written differently. -/
def Collide (account : Scale.Codec A) (g g' : Genesis A) : Prop :=
  g.bytes account ≠ g'.bytes account ∧
    Blake2b.hash 32 (g.bytes account) = Blake2b.hash 32 (g'.bytes account)

theorem collide_of_ne {account : Scale.Codec A} {g g' : Genesis A}
    (written : g.bytes account ≠ g'.bytes account)
    (same : g.fingerprint account = g'.fingerprint account) : Collide account g g' :=
  ⟨written, same⟩

-- Nothing below computes the hash.
attribute [irreducible] fingerprint

end Genesis

def auxGenesis : String := "genesis"

/-! ## Nothing but a start writes the genesis -/

namespace Node

theorem saveHard_aux (n : Node A B H) (env : Env A B H) (commits : Bool) {name : String}
    (other : name ≠ auxMesh) : (n.saveHard env commits).store.aux name = n.store.aux name := by
  rcases (saveHard_rests n env commits).store with same | ⟨taken, value, put⟩
  · rw [same]
  · rw [put]
    exact Store.putAux_other _ _ _ (Store.auxKey_inj.not.mpr other)

/-- What a close does to the store leaves the other singletons. -/
theorem advance_aux {env : Env A B H} {n n' : Node A B H} {at_ : Nat} {commits : Commits}
    (advanced : n.advance env at_ commits = some n') {name : String} (other : name ≠ auxMesh) :
    n'.store.aux name = n.store.aux name := by
  obtain ⟨m, opened, rfl⟩ := Option.map_eq_some_iff.mp advanced
  rw [drainAbsorb_eq]
  rw [initializeBlock_eq opened]
  have persisted : (n.persist env n.block at_ commits).store.aux name = n.store.aux name := by
    unfold persist
    simp only
    split
    next store taken =>
      have appended := Store.append_aux n.store commits.append n.block
        (env.sealBody n.pending at_) name
      rw [stampBlock] at taken
      simp only at taken
      rw [taken] at appended
      exact (saveHard_aux _ env commits.aux other).trans appended
    · rfl
  simp only
  split
  · exact (Store.compact_aux _ _ _ _ name).trans persisted
  · exact persisted

variable [DecidableEq A]

/-- Whatever a node does, it writes no singleton but the election's. -/
theorem Works.aux {env : Env A B H} {may : May B} {n n' : Node A B H} (works : Works env may n n')
    {name : String} (other : name ≠ auxMesh) : n'.store.aux name = n.store.aux name := by
  induction works with
  | rests rests =>
    rcases rests.store with same | ⟨commits, value, put⟩
    · rw [same]
    · rw [put]
      exact Store.putAux_other _ _ _ (Store.auxKey_inj.not.mpr other)
  | submitted n uxt leads =>
    obtain ⟨compaction, executed⟩ := submit_eq n env uxt
    rw [executed, drainAbsorb_eq]
  | closed leads taken advanced => exact advance_aux advanced other
  | promoted follows =>
    unfold promote
    rw [drainAbsorb_eq]
  | demoted leads reloaded => rw [reloadFromStore_refolded reloaded]
  | @applied n n' commits height body store effects at_ follows opens appended applied =>
    have kept := Store.append_aux n.store commits height body name
    rw [appended] at kept
    rw [applyBlock_eq applied]
    exact kept
  | @adopted n n' commits height state store follows offered adopted reloaded =>
    have kept := Store.adoptCheckpoint_aux n.store commits height state name
    rw [adopted] at kept
    rw [reloadFromStore_refolded reloaded]
    exact kept
  | @rewound n n' commits fork r store follows rewound reloaded =>
    have kept := Store.rewindForFork_aux n.store commits fork name
    rw [rewound] at kept
    rw [reloadFromStore_refolded reloaded]
    exact kept
  | trans _ _ first second => exact second.trans first

end Node

/-! ## Starting -/

section Executing

variable [DecidableEq A]

/-- `Node::open`, with its check of the genesis, and what the store holds afterwards. It does not
start when it refuses or panics. -/
def Process.start (env : Env A B H) (readHard : List UInt8 → Option Hard)
    (account : Scale.Codec A) (g : Genesis A) (cfg : NodeConfig) (commits : Bool)
    (store : Store B B) : Option (Process A B H) × Store B B :=
  match storedHard readHard store with
  | none => (none, store)
  | some _ =>
    match store.aux auxGenesis with
    | some had =>
      if had = g.fingerprint account then (open_ (env.under g) readHard cfg store, store)
      else (none, store)
    -- A store from before this check has no record, and is adopted.
    | none =>
      match store.putAux commits auxGenesis (g.fingerprint account) with
      | (.error _, store) => (none, store)
      | (.ok _, store) => (open_ (env.under g) readHard cfg store, store)

/-- A data directory, and the process that has it open. -/
structure Directory (A B H : Type) where
  store : Store B B
  running : Option (Genesis A × Process A B H)

inductive DirectoryEvent (A B H : Type)
  /-- Somebody starts a node here, under a genesis of theirs. -/
  | start (g : Genesis A) (cfg : NodeConfig) (commits : Bool)
  | event (e : ProcessEvent B H)
  /-- The process ends between two of its critical sections. -/
  | stop

namespace Directory

variable [DecidableEq H]

/-- What happens to a directory. A panic of a running process ends its history. -/
def step (env : Env A B H) (readHard : List UInt8 → Option Hard) (account : Scale.Codec A)
    (d : Directory A B H) : DirectoryEvent A B H → Option (Directory A B H)
  | .start g cfg commits =>
    match d.running with
    -- The database is locked.
    | some _ => some d
    | none =>
      let (p, store) := Process.start env readHard account g cfg commits d.store.reopen
      some ⟨store, p.map (g, ·)⟩
  | .event e =>
    match d.running with
    | none => some d
    | some (g, p) =>
      -- A restart is a stop and a start.
      if e.restarts then some d
      else (p.step (env.under g) readHard e).map fun p => ⟨p.node.store, some (g, p)⟩
  | .stop => some { d with running := none }

def next (env : Env A B H) (readHard : List UInt8 → Option Hard) (account : Scale.Codec A)
    (d : Option (Directory A B H)) (e : DirectoryEvent A B H) : Option (Directory A B H) :=
  d.bind fun d => d.step env readHard account e

/-! ## What a directory remembers -/

variable {env : Env A B H} {readHard : List UInt8 → Option Hard} {account : Scale.Codec A}

/-- The process that runs has the directory's store, and was started under the genesis that the
store remembers. -/
def Sound (account : Scale.Codec A) (d : Directory A B H) : Prop :=
  ∀ g p, d.running = some (g, p) →
    d.store = p.node.store ∧ d.store.aux auxGenesis = some (g.fingerprint account)

omit [DecidableEq A] [DecidableEq H] in
theorem sound_rest (store : Store B B) : Sound account (⟨store, none⟩ : Directory A B H) := by
  intro g p running
  simp at running

omit [DecidableEq H] in
theorem open_store {cfg : NodeConfig} {store : Store B B} {p : Process A B H}
    (opened : Process.open_ env readHard cfg store = some p) : p.node.store = store := by
  simp only [Process.open_, Option.bind_eq_bind, Option.bind_eq_some_iff, Option.pure_def,
    Option.some.injEq] at opened
  obtain ⟨hard, _, n, opened, rfl⟩ := opened
  rw [Node.open_reloads] at opened
  rw [Node.reloadFromStore_refolded opened]
  rfl

omit [DecidableEq H] in
/-- A process that starts is the genesis's that the store remembers from then on. -/
theorem start_built {g : Genesis A} {cfg : NodeConfig} {commits : Bool} {store after : Store B B}
    {p : Process A B H}
    (started : Process.start env readHard account g cfg commits store = (some p, after)) :
    p.node.store = after ∧ after.aux auxGenesis = some (g.fingerprint account) := by
  unfold Process.start at started
  split at started
  · simp at started
  · split at started
    next had remembers =>
      split at started
      next same =>
        simp only [Prod.mk.injEq] at started
        obtain ⟨opened, rfl⟩ := started
        rw [← same]
        exact ⟨open_store opened, remembers⟩
      next => simp at started
    next fresh =>
      have wrote := Store.putAux_aux store commits auxGenesis (g.fingerprint account)
      split at started
      · simp at started
      next result written put =>
        simp only [Prod.mk.injEq] at started
        obtain ⟨opened, rfl⟩ := started
        rw [put] at wrote
        cases commits with
        | false => simp [Store.putAux] at put
        | true => exact ⟨open_store opened, wrote⟩

omit [DecidableEq H] in
/-- Where a genesis is remembered a start writes nothing, and starts nothing of another's. -/
theorem start_remembered (env : Env A B H) (readHard : List UInt8 → Option Hard)
    (account : Scale.Codec A) (g : Genesis A) (cfg : NodeConfig) (commits : Bool)
    {store : Store B B} {had : List UInt8} (remembers : store.aux auxGenesis = some had) :
    (Process.start env readHard account g cfg commits store).2 = store ∧
      (had ≠ g.fingerprint account →
        (Process.start env readHard account g cfg commits store).1 = none) := by
  unfold Process.start
  split
  · exact ⟨rfl, fun _ => rfl⟩
  · rw [remembers]
    simp only
    split
    next same => exact ⟨rfl, fun other => absurd same other⟩
    next => exact ⟨rfl, fun _ => rfl⟩

/-- What one event keeps: the process has the store, and a genesis once remembered stays. -/
theorem step_sound {d d' : Directory A B H} {e : DirectoryEvent A B H} (sound : d.Sound account)
    (stepped : d.step env readHard account e = some d') :
    d'.Sound account ∧
      ∀ had, d.store.aux auxGenesis = some had → d'.store.aux auxGenesis = some had := by
  cases e with
  | start g cfg commits =>
    simp only [step] at stepped
    split at stepped
    · cases stepped
      exact ⟨sound, fun _ kept => kept⟩
    · cases stepped
      refine ⟨fun g' p running => ?_, fun had remembers => ?_⟩
      · obtain ⟨_, started, same⟩ := Option.map_eq_some_iff.mp running
        cases same
        obtain ⟨store, built⟩ := start_built (Prod.ext started rfl)
        exact ⟨store.symm, built⟩
      · have again : d.store.reopen.aux auxGenesis = some had := remembers
        have same := (start_remembered env readHard account g cfg commits again).1
        simp only [same]
        exact again
  | event e =>
    simp only [step] at stepped
    split at stepped
    · cases stepped
      exact ⟨sound, fun _ kept => kept⟩
    next g p running =>
      split at stepped
      · cases stepped
        exact ⟨sound, fun _ kept => kept⟩
      next runs =>
        obtain ⟨p', took, rfl⟩ := Option.map_eq_some_iff.mp stepped
        obtain ⟨store, built⟩ := sound g p running
        have works := Process.step_works (by simpa using runs) took
        have kept : p'.node.store.aux auxGenesis = d.store.aux auxGenesis := by
          rw [works.aux (by decide), store]
        refine ⟨?_, fun had remembers => kept.trans remembers⟩
        rintro g' p'' ⟨⟩
        exact ⟨rfl, kept.trans built⟩
  | stop =>
    cases stepped
    exact ⟨sound_rest d.store, fun _ kept => kept⟩

theorem run_sound {d d' : Directory A B H} {events : List (DirectoryEvent A B H)}
    (sound : d.Sound account)
    (reached : Machine.run (next env readHard account) (some d) events = some d') :
    d'.Sound account ∧
      ∀ had, d.store.aux auxGenesis = some had → d'.store.aux auxGenesis = some had := by
  refine Machine.run_keeps (fun s => ∀ r : Directory A B H, s = some r → r.Sound account ∧
    ∀ had, d.store.aux auxGenesis = some had → r.store.aux auxGenesis = some had) ?_ ?_ d'
      reached
  · intro s e kept r stepped
    obtain ⟨before, rfl, stepped⟩ := Option.bind_eq_some_iff.mp stepped
    obtain ⟨sound, remembers⟩ := kept before rfl
    obtain ⟨sound', remembers'⟩ := step_sound sound stepped
    exact ⟨sound', fun had was => remembers' had (remembers had was)⟩
  · rintro r ⟨⟩
    exact ⟨sound, fun _ kept => kept⟩

/-- Whatever else is started in a directory and however often, every process that ever runs there
runs under one genesis, unless two geneses collide; and a start under any other fingerprint is
refused and leaves what is stored as it is. -/
theorem genesis_run (env : Env A B H) (readHard : List UInt8 → Option Hard)
    (account : Scale.Codec A) (fits : A → Prop) (lawful : account.Lawful fits) (store : Store B B)
    (before after : List (DirectoryEvent A B H)) (d d' : Directory A B H) (g : Genesis A)
    (p : Process A B H) (fit : g.Fits fits)
    (reached : Machine.run (next env readHard account) (some ⟨store, none⟩) before = some d)
    (running : d.running = some (g, p))
    (reached' : Machine.run (next env readHard account) (some d) after = some d') :
    (∀ g' p', d'.running = some (g', p') → g'.Fits fits →
      g' = g ∨ Genesis.Collide account g' g) ∧
    ∀ g' cfg commits, d'.running = none → g'.fingerprint account ≠ g.fingerprint account →
      d'.step env readHard account (.start g' cfg commits) = some ⟨d'.store.reopen, none⟩ := by
  obtain ⟨sound, _⟩ := run_sound (sound_rest store) reached
  obtain ⟨sound', kept⟩ := run_sound sound reached'
  obtain ⟨_, built⟩ := sound g p running
  have remembers := kept _ built
  constructor
  · intro g' p' running' fit'
    obtain ⟨_, built'⟩ := sound' g' p' running'
    have same : g'.fingerprint account = g.fingerprint account :=
      Option.some.inj (built'.symm.trans remembers)
    by_cases written : g'.bytes account = g.bytes account
    · exact .inl (Genesis.bytes_inj lawful fit fit' written)
    · exact .inr (Genesis.collide_of_ne written same)
  · intro g' cfg commits rests other
    have again : d'.store.reopen.aux auxGenesis = some (g.fingerprint account) := remembers
    obtain ⟨same, refused⟩ := start_remembered env readHard account g' cfg commits again
    simp only [step, rests, same, refused (Ne.symm other), Option.map_none]

end Directory

end Executing

namespace Directory

/-- The genesis of the litter of one node, and one in which somebody else is root. -/
def solo : Genesis Nat := ⟨0, 1, [("root", 0), ("lead", 1)]⟩

def usurped : Genesis Nat := { solo with root := 1 }

theorem solo_fits : solo.Fits (· < 256 ^ 4) where
  root := by decide
  leader := by decide
  roster := by decide
  entries := by decide

/-- The first start, and what the process does until it ends. -/
def firstBoot : List (DirectoryEvent Nat (Plain Nat) (Plain Nat)) :=
  [.start solo Process.soloConfig true]

def worked : List (DirectoryEvent Nat (Plain Nat) (Plain Nat)) :=
  [.event (.round [] 9000 9000 true), .event (.accept openTask), .event (.close 9002 {}), .stop]

def soloNext := next (H := Plain Nat) soloEnv (fun _ => some {}) (Scale.uint 4)

/-- A node leads, executes a call, closes the block and ends. Started again with somebody else as
root, it is not let at its log. -/
theorem genesis_run_usurped : ∃ d d' : Directory Nat (Plain Nat) (Plain Nat),
    Machine.run soloNext (some ⟨.openDb Store.emptyDb, none⟩) firstBoot = some d ∧
    Machine.run soloNext (some d) worked = some d' ∧ d'.store.head = 1 ∧
    d'.step soloEnv (fun _ => some {}) (Scale.uint 4) (.start usurped Process.soloConfig true) =
      some ⟨d'.store.reopen, none⟩ := by
  have told : (Machine.run soloNext (some ⟨.openDb Store.emptyDb, none⟩) firstBoot).map
      (fun d => d.running.map Prod.fst) = some (some solo) := by
    decide +kernel
  obtain ⟨d, reached, running⟩ := Option.map_eq_some_iff.mp told
  obtain ⟨⟨g, p⟩, running, rfl⟩ := Option.map_eq_some_iff.mp running
  have later : ((Machine.run soloNext (some ⟨.openDb Store.emptyDb, none⟩) firstBoot).bind fun d =>
      (Machine.run soloNext (some d) worked).map fun d' => (d'.running.isNone, d'.store.head)) =
        some (true, 1) := by
    decide +kernel
  rw [reached, Option.bind_some] at later
  obtain ⟨d', reached', outline⟩ := Option.map_eq_some_iff.mp later
  obtain ⟨rests, head⟩ := Prod.mk.inj outline
  have other : usurped.fingerprint (Scale.uint 4) ≠ solo.fingerprint (Scale.uint 4) := by
    decide +kernel
  have guarded := genesis_run soloEnv (fun _ => some {}) (Scale.uint 4) _ (Scale.uint_lawful 4)
    (.openDb Store.emptyDb) firstBoot worked d d' solo p solo_fits reached running reached'
  exact ⟨d, d', reached, reached', head,
    guarded.2 usurped Process.soloConfig true (Option.isNone_iff_eq_none.mp rests) other⟩

end Directory

end AkumaMiot

import AkumaMiot.Lib.Machine
import AkumaMiot.Node.Frames

/-!
# What a sealed transaction is in

A status, the open block's effects and the store are three pieces of state. A status that
turns sealed when this node closes a block tells the truth if the block's append is taken and
the status was set in the very block that closes.
-/
namespace AkumaMiot

variable {A B H : Type}

namespace Node

/-! ## The open block's buffer -/

theorem advance_txStatus [DecidableEq H] {env : Env A B H} {n n' : Node A B H} {at_ : Nat}
    {commits : Commits} (advanced : n.advance env at_ commits = some n') (hash : H) :
    n'.txStatus.lookup hash = (n.txStatus.lookup hash).map (sealStatus n.block) := by
  obtain ⟨_, _, _, rfl⟩ := advance_eq advanced
  rw [drainAbsorb_eq]
  exact HashMap.lookup_mapValues ..

section Executing

variable [DecidableEq A]

/-- The effects an extrinsic has if it is submitted now. -/
def effectsOf (n : Node A B H) (env : Env A B H) (uxt : UncheckedExtrinsic A) :
    List (Effect A) :=
  (n.ext.applyExtrinsic env uxt).2.events

theorem submit_pending (n : Node A B H) (env : Env A B H) (uxt : UncheckedExtrinsic A) :
    (n.submit env uxt).2.pending =
      n.pending ++ (n.effectsOf env uxt).filter fun e => !offRecord e := by
  unfold submit effectsOf
  simp only
  split <;> rw [drainAbsorb_eq]

/-- Unless production is given up, following the mesh only adds to the buffer. -/
theorem followMesh_pending {env : Env A B H} {n n' : Node A B H} {now : Nat} {commits : Bool}
    (followed : n.followMesh env now commits = some n')
    (keeps : (n.producing && !n.mesh.isLeader) = false) :
    ∃ more, n'.pending = n.pending ++ more := by
  simp only [followMesh, Option.bind_eq_bind, Option.bind_eq_some_iff, Option.pure_def,
    Option.some.injEq] at followed
  obtain ⟨m, role, rfl⟩ := followed
  have routed : (m.takeRoute now).pending = m.pending := by
    unfold takeRoute
    simp only
    split <;> rfl
  have saved : (n.saveHard env commits).pending = n.pending ∧
      (n.saveHard env commits).producing = n.producing ∧
      (n.saveHard env commits).mesh.isLeader = n.mesh.isLeader := by
    rw [saveHard_eq]
    exact ⟨rfl, rfl, rfl⟩
  rw [routed]
  -- The role is taken from the mesh: a role that is given up is excluded here.
  unfold takeRole at role
  split at role
  · obtain rfl := Option.some.inj role
    rw [drainAbsorb_eq]
    exact ⟨_, by rw [← saved.1]⟩
  · split at role
    next demoted =>
      rw [saved.2.1, saved.2.2, Bool.and_comm, keeps] at demoted
      simp at demoted
    · obtain rfl := Option.some.inj role
      exact ⟨[], by rw [saved.1, List.append_nil]⟩

end Executing

section Statuses

variable [DecidableEq H]

theorem setTxStatus_pending (n : Node A B H) (hash : H) (st : TxState) :
    (n.setTxStatus hash st).pending = n.pending := by
  rw [n.setTxStatus_eq hash st]

theorem mempoolInsert_frame (n : Node A B H) (hash : H) (bytes : B) (now : Nat) :
    (n.mempoolInsert hash bytes now).pending = n.pending ∧
      (n.mempoolInsert hash bytes now).ext = n.ext := by
  unfold mempoolInsert
  split
  · exact ⟨rfl, rfl⟩
  · rw [setTxStatus_eq]
    split
    · split <;> exact ⟨rfl, rfl⟩
    · exact ⟨rfl, rfl⟩

theorem acceptHere_frame [DecidableEq A] {env : Env A B H} {n : Node A B H} {bytes : B}
    {uxt : UncheckedExtrinsic A} (decoded : env.decodeExtrinsic bytes = some uxt)
    (producing : n.producing = true) :
    (n.acceptHere env bytes).pending = (n.submit env uxt).2.pending ∧
      (n.acceptHere env bytes).ext = (n.submit env uxt).2.ext := by
  unfold acceptHere
  simp only [decoded, producing]
  cases submitted : n.submit env uxt with
  | mk accepted n' =>
    cases accepted with
    | true =>
      simp only [Bool.not_true, Bool.false_eq_true, if_false]
      rw [setTxStatus_eq]
      exact ⟨rfl, rfl⟩
    | false => exact ⟨rfl, rfl⟩

theorem mempoolHere_frame [DecidableEq A] {env : Env A B H} {n : Node A B H} {hash : H} {bytes : B}
    {uxt : UncheckedExtrinsic A} (decoded : env.decodeExtrinsic bytes = some uxt) :
    (n.mempoolHere env hash bytes).pending = (n.submit env uxt).2.pending ∧
      (n.mempoolHere env hash bytes).ext = (n.submit env uxt).2.ext := by
  unfold mempoolHere
  simp only [decoded]
  cases submitted : n.submit env uxt with
  | mk accepted n' =>
    cases accepted with
    | true =>
      simp only
      rw [setTxStatus_eq]
      exact ⟨rfl, rfl⟩
    | false => exact ⟨rfl, rfl⟩

end Statuses

end Node

/-! ## A node and its history -/

/-- What may happen to a node. The mesh may decide anything, a peer may answer anything, and
the database may refuse any commit. -/
inductive NodeEvent (B H : Type)
  | accept (bytes : B)
  | queue (hash : H) (bytes : B) (now : Nat)
  | mempoolHere (hash : H) (bytes : B)
  | mempoolAnswered (hash : H) (answer : TxState)
  | close (at_ : Nat) (commits : Commits)
  | mesh (decided : Mesh) (now : Nat) (commits : Bool)
  | append (height : Nat) (body : B) (commits : Commits)
  | adopt (height : Nat) (state : B) (commits : Bool)
  | rewind (fork : Nat)

/-- A node beside what it has done: the effects of every extrinsic it executed, latest first,
the hashes it accepted into the block that is open now, and the bodies it wrote. -/
structure Witnessed (A B H : Type) where
  node : Node A B H
  produced : List (H × List (Effect A))
  opened : List H
  written : List (Nat × B)

namespace Witnessed

/-- A fresh block replaces the one that was open. -/
def replaced (w : Witnessed A B H) (n : Node A B H) : Witnessed A B H :=
  { w with node := n, opened := [] }

variable [DecidableEq H]

/-- What is accepted into the open block is in its buffer. -/
def Inv (w : Witnessed A B H) : Prop :=
  ∀ hash ∈ w.opened, ∃ fx, w.produced.lookup hash = some fx ∧
    (fx.filter fun e => !Node.offRecord e) <:+: w.node.pending

theorem Inv.grown {w : Witnessed A B H} (inv : Inv w) {n : Node A B H} (more : List (Effect A))
    (grown : n.pending = w.node.pending ++ more) : Inv { w with node := n } := by
  intro hash member
  obtain ⟨fx, latest, inside⟩ := inv hash member
  refine ⟨fx, latest, ?_⟩
  rw [grown]
  exact inside.trans (List.prefix_append _ _).isInfix

theorem Inv.same {w : Witnessed A B H} (inv : Inv w) {n : Node A B H}
    (same : n.pending = w.node.pending) : Inv { w with node := n } :=
  inv.grown [] (by rw [same, List.append_nil])

theorem Inv.replaced (w : Witnessed A B H) (n : Node A B H) : Inv (w.replaced n) := by
  intro hash member
  simp [Witnessed.replaced] at member

variable [DecidableEq A]

/-- An extrinsic executed into the open block, if it was accepted. -/
def executed (w : Witnessed A B H) (env : Env A B H) (hash : H) (bytes : B)
    (n : Node A B H) : Witnessed A B H :=
  match env.decodeExtrinsic bytes with
  | some uxt =>
    if (w.node.submit env uxt).1 then
      { w with
        node := n
        produced := (hash, w.node.effectsOf env uxt) :: w.produced
        opened := hash :: w.opened }
    else { w with node := n }
  | none => { w with node := n }

/-- One event. A panic ends the process. -/
def step (env : Env A B H) (w : Witnessed A B H) : NodeEvent B H → Option (Witnessed A B H)
  | .accept bytes =>
    if w.node.producing then
      some (w.executed env (env.txHash bytes) bytes (w.node.acceptHere env bytes))
    else some w
  | .queue hash bytes now => some { w with node := w.node.mempoolInsert hash bytes now }
  | .mempoolHere hash bytes =>
    some (w.executed env hash bytes (w.node.mempoolHere env hash bytes))
  | .mempoolAnswered hash answer =>
    some { w with node := w.node.mempoolAnswered hash answer }
  | .close at_ commits =>
    if w.node.producing then
      (w.node.advance env at_ commits).map fun n =>
        let body := env.sealBody w.node.pending at_
        let taken := (w.node.store.append commits.append w.node.block body).1
        { w.replaced n with
          written := match taken with
            | .ok _ => (w.node.block, body) :: w.written
            | .error _ => w.written }
    else some w
  | .mesh decided now commits =>
    let n := { w.node with mesh := decided }
    (n.followMesh env now commits).map fun n' =>
      -- Giving up production throws the open block away.
      if w.node.producing && !decided.isLeader then w.replaced n' else { w with node := n' }
  | .append height body commits =>
    if w.node.producing then some w
    else match w.node.store.append commits.append height body with
      | (.error _, _) => some w
      | (.ok _, store) => do
        let (effects, at_) ← env.openBody body
        let n ← { w.node with store := store }.applyBlock env height effects at_
        return w.replaced ({ n with mesh := n.mesh.appended }.saveHard env commits.aux)
  | .adopt height state commits =>
    if w.node.producing then some w
    else do
      let n ← { w.node with
        store := (w.node.store.adoptCheckpoint true height state).2 }.reloadFromStore env
      return w.replaced ({ n with mesh := n.mesh.appended }.saveHard env commits)
  | .rewind fork =>
    if w.node.producing then some w
    else do
      let n ← { w.node with
        store := (w.node.store.rewindForFork true fork).2 }.reloadFromStore env
      return w.replaced n

/-- One event of a process that may have ended. -/
def next (env : Env A B H) (w : Option (Witnessed A B H)) (e : NodeEvent B H) :
    Option (Witnessed A B H) :=
  w.bind fun w => w.step env e

/-! ## Telling the truth -/

/-- What the claim asks of a close: each hash that turns sealed at the closing height has its
effects, but for what is off the record, in the body written there. -/
def SealsRight (env : Env A B H) (w w' : Witnessed A B H) : Prop :=
  ∀ hash height, w.node.txStatus.lookup hash = some (.applied height) →
    w'.node.txStatus.lookup hash = some (.sealed height) →
    ∃ fx body effects at_, w.produced.lookup hash = some fx ∧
      w'.written.lookup height = some body ∧
      env.openBody body = some (effects, at_) ∧
      (fx.filter fun e => !Node.offRecord e) <:+: effects

/-- When a close is sound: the append is taken, and every hash that is applied at the closing
height was accepted by this node into the block that closes. -/
def SoundClose (w : Witnessed A B H) (commits : Commits) : Prop :=
  commits.append = true ∧ w.node.block = u64Succ w.node.store.head ∧
    ∀ entry ∈ w.node.txStatus.entries, entry.2 = .applied w.node.block → entry.1 ∈ w.opened

instance (w : Witnessed A B H) (commits : Commits) : Decidable (SoundClose w commits) :=
  inferInstanceAs (Decidable (_ ∧ _ ∧ _))

/-! ## One event -/

/-- An accepted extrinsic's effects go to the end of the buffer. -/
theorem Inv.executed {w : Witnessed A B H} (inv : Inv w) {env : Env A B H} {hash : H} {bytes : B}
    {n : Node A B H}
    (unread : env.decodeExtrinsic bytes = none → n.pending = w.node.pending)
    (read : ∀ uxt, env.decodeExtrinsic bytes = some uxt →
      n.pending = (w.node.submit env uxt).2.pending) : Inv (w.executed env hash bytes n) := by
  unfold Witnessed.executed
  split
  next uxt decoded =>
    have grown := (read uxt decoded).trans (Node.submit_pending w.node env uxt)
    split
    · intro other member
      by_cases mine : other = hash
      · subst mine
        refine ⟨w.node.effectsOf env uxt, by simp, ?_⟩
        rw [grown]
        exact (List.suffix_append _ _).isInfix
      · have old : other ∈ w.opened := by simpa [mine] using member
        obtain ⟨fx, latest, inside⟩ := inv.grown _ grown other old
        have miss : (other == hash) = false := by simpa using mine
        exact ⟨fx, by simpa only [List.lookup_cons, miss] using latest, inside⟩
    · exact inv.grown _ grown
  next decoded => exact inv.same (unread decoded)

/-- The events that pass a node by: only who produces accepts and closes, and only who follows
takes what a primary hands it. -/
def Idles (w : Witnessed A B H) : NodeEvent B H → Prop
  | .accept _ | .close _ _ => w.node.producing = false
  | .append _ _ _ | .adopt _ _ _ | .rewind _ => w.node.producing = true
  | .queue _ _ _ | .mempoolHere _ _ | .mempoolAnswered _ _ | .mesh _ _ _ => False

/-- What one event can make of a node. -/
inductive Steps (env : Env A B H) (w : Witnessed A B H) :
    NodeEvent B H → Witnessed A B H → Prop
  | idle {e : NodeEvent B H} (idles : w.Idles e) : Steps env w e w
  | accept {bytes : B} (producing : w.node.producing = true) :
    Steps env w (.accept bytes)
      (w.executed env (env.txHash bytes) bytes (w.node.acceptHere env bytes))
  | queue (hash : H) (bytes : B) (now : Nat) :
    Steps env w (.queue hash bytes now) { w with node := w.node.mempoolInsert hash bytes now }
  | mempoolHere (hash : H) (bytes : B) :
    Steps env w (.mempoolHere hash bytes)
      (w.executed env hash bytes (w.node.mempoolHere env hash bytes))
  | mempoolAnswered (hash : H) (answer : TxState) :
    Steps env w (.mempoolAnswered hash answer)
      { w with node := w.node.mempoolAnswered hash answer }
  | close {at_ : Nat} {commits : Commits} {n : Node A B H} (producing : w.node.producing = true)
    (advanced : w.node.advance env at_ commits = some n) :
    Steps env w (.close at_ commits)
      { w.replaced n with
        written :=
          match (w.node.store.append commits.append w.node.block
            (env.sealBody w.node.pending at_)).1 with
          | .ok _ => (w.node.block, env.sealBody w.node.pending at_) :: w.written
          | .error _ => w.written }
  | mesh {decided : Mesh} {now : Nat} {commits : Bool} {n : Node A B H}
    (followed : Node.followMesh { w.node with mesh := decided } env now commits = some n) :
    Steps env w (.mesh decided now commits)
      (if w.node.producing && !decided.isLeader then w.replaced n else { w with node := n })
  | refused {height : Nat} {body : B} {commits : Commits} {why : StoreError} {store : Store B B}
    (follows : w.node.producing = false)
    (refused : w.node.store.append commits.append height body = (.error why, store)) :
    Steps env w (.append height body commits) w
  | append {height : Nat} {body : B} {commits : Commits} {u : Unit} {store : Store B B}
    {effects : List (Effect A)} {at_ : Option Nat} {n : Node A B H}
    (follows : w.node.producing = false)
    (taken : w.node.store.append commits.append height body = (.ok u, store))
    (opened : env.openBody body = some (effects, at_))
    (applied : Node.applyBlock { w.node with store := store } env height effects at_ = some n) :
    Steps env w (.append height body commits)
      (w.replaced (Node.saveHard { n with mesh := n.mesh.appended } env commits.aux))
  | adopt {height : Nat} {state : B} {commits : Bool} {n : Node A B H}
    (follows : w.node.producing = false)
    (reloaded : Node.reloadFromStore { w.node with
      store := (w.node.store.adoptCheckpoint true height state).2 } env = some n) :
    Steps env w (.adopt height state commits)
      (w.replaced (Node.saveHard { n with mesh := n.mesh.appended } env commits))
  | rewind {fork : Nat} {n : Node A B H} (follows : w.node.producing = false)
    (reloaded : Node.reloadFromStore { w.node with
      store := (w.node.store.rewindForFork true fork).2 } env = some n) :
    Steps env w (.rewind fork) (w.replaced n)

theorem step_steps {env : Env A B H} {w w' : Witnessed A B H} {e : NodeEvent B H}
    (stepped : w.step env e = some w') : Steps env w e w' := by
  cases e with
  | accept bytes =>
    simp only [step] at stepped
    split at stepped
    next producing =>
      obtain rfl := Option.some.inj stepped
      exact .accept producing
    next follows =>
      obtain rfl := Option.some.inj stepped
      exact .idle (by simpa [Idles] using follows)
  | queue hash bytes now =>
    obtain rfl := Option.some.inj stepped
    exact .queue hash bytes now
  | mempoolHere hash bytes =>
    obtain rfl := Option.some.inj stepped
    exact .mempoolHere hash bytes
  | mempoolAnswered hash answer =>
    obtain rfl := Option.some.inj stepped
    exact .mempoolAnswered hash answer
  | close at_ commits =>
    simp only [step] at stepped
    split at stepped
    next producing =>
      obtain ⟨n, advanced, rfl⟩ := Option.map_eq_some_iff.mp stepped
      exact .close producing advanced
    next follows =>
      obtain rfl := Option.some.inj stepped
      exact .idle (by simpa [Idles] using follows)
  | mesh decided now commits =>
    obtain ⟨n, followed, rfl⟩ := Option.map_eq_some_iff.mp stepped
    exact .mesh followed
  | append height body commits =>
    simp only [step] at stepped
    split at stepped
    next producing =>
      obtain rfl := Option.some.inj stepped
      exact .idle producing
    next follows =>
      have follows : w.node.producing = false := by simpa using follows
      split at stepped
      next why store refused =>
        obtain rfl := Option.some.inj stepped
        exact .refused follows refused
      next u store taken =>
        simp only [Option.bind_eq_bind, Option.bind_eq_some_iff, Option.pure_def,
          Option.some.injEq] at stepped
        obtain ⟨⟨effects, at_⟩, opened, n, applied, rfl⟩ := stepped
        exact .append follows taken opened applied
  | adopt height state commits =>
    simp only [step] at stepped
    split at stepped
    next producing =>
      obtain rfl := Option.some.inj stepped
      exact .idle producing
    next follows =>
      simp only [Option.bind_eq_bind, Option.bind_eq_some_iff, Option.pure_def,
        Option.some.injEq] at stepped
      obtain ⟨n, reloaded, rfl⟩ := stepped
      exact .adopt (by simpa using follows) reloaded
  | rewind fork =>
    simp only [step] at stepped
    split at stepped
    next producing =>
      obtain rfl := Option.some.inj stepped
      exact .idle producing
    next follows =>
      simp only [Option.bind_eq_bind, Option.bind_eq_some_iff, Option.pure_def,
        Option.some.injEq] at stepped
      obtain ⟨n, reloaded, rfl⟩ := stepped
      exact .rewind (by simpa using follows) reloaded

theorem step_inv {env : Env A B H} {w w' : Witnessed A B H} {e : NodeEvent B H} (inv : Inv w)
    (stepped : w.step env e = some w') : Inv w' := by
  cases step_steps stepped with
  | idle => exact inv
  | accept producing =>
    refine inv.executed (fun unread => ?_) fun uxt read => (Node.acceptHere_frame read producing).1
    simp [Node.acceptHere, unread]
  | queue hash bytes now => exact inv.same (Node.mempoolInsert_frame ..).1
  | mempoolHere hash bytes =>
    refine inv.executed (fun unread => ?_) fun uxt read => (Node.mempoolHere_frame read).1
    simp [Node.mempoolHere, unread, Node.mempoolRemove]
  | mempoolAnswered hash answer =>
    refine inv.same ?_
    cases answer with
    | pending => rfl
    | applied height => exact Node.setTxStatus_pending ..
    | sealed height => exact Node.setTxStatus_pending w.node hash (.sealed height)
  | @mesh decided now commits n followed =>
    split
    · exact .replaced w n
    next keeps =>
      obtain ⟨more, grown⟩ := Node.followMesh_pending followed (by simpa using keeps)
      exact inv.grown _ grown
  | refused => exact inv
  -- A block that opens has accepted nothing yet.
  | @close at_ commits n _ _ => exact Inv.replaced w n
  | append _ _ _ _ => exact .replaced w _
  | adopt _ _ => exact .replaced w _
  | rewind _ _ => exact .replaced w _

/-! ## A close -/

/-- A sound close seals nothing whose effects are not in the body. -/
theorem close_sealsRight {env : Env A B H} {w w' : Witnessed A B H} {at_ : Nat}
    {commits : Commits} (inv : Inv w) (sound : w.node.producing = true → SoundClose w commits)
    (closed : w.step env (.close at_ commits) = some w') : SealsRight env w w' := by
  intro hash height applied turned
  simp only [step] at closed
  split at closed
  next producing =>
    obtain ⟨taken, contiguous, accepted⟩ := sound producing
    obtain ⟨n, advanced, rfl⟩ := Option.map_eq_some_iff.mp closed
    have status := Node.advance_txStatus advanced hash
    rw [applied] at status
    -- Only the closing height's statuses turn.
    have closing : height = w.node.block := by
      have turned' : n.txStatus.lookup hash = some (.sealed height) := turned
      rw [status] at turned'
      by_cases same : height = w.node.block
      · exact same
      · simp [Node.sealStatus, same] at turned'
    subst closing
    have entry := AList.mem_lookup_iff.mp (Option.mem_def.mpr applied)
    obtain ⟨fx, latest, inside⟩ := inv hash (accepted _ entry rfl)
    refine ⟨fx, env.sealBody w.node.pending at_, w.node.pending, some at_, latest, ?_,
      env.openBody_sealBody _ _, inside⟩
    simp [Store.append, contiguous, taken]
  · obtain rfl := Option.some.inj closed
    rw [applied] at turned
    simp at turned

/-! ## Every run -/

/-- A node as it starts, with nothing done yet. -/
def fresh (n : Node A B H) : Witnessed A B H := ⟨n, [], [], []⟩

/-- The condition on a run: what a primary closes, it closes soundly. -/
def ClosesSoundly (w : Option (Witnessed A B H)) (e : NodeEvent B H) : Prop :=
  match w, e with
  | some w, .close _ commits => w.node.producing = true → SoundClose w commits
  | _, _ => True

instance (w : Option (Witnessed A B H)) (e : NodeEvent B H) : Decidable (ClosesSoundly w e) := by
  cases w with
  | none => exact .isTrue trivial
  | some w => cases e <;> unfold ClosesSoundly <;> infer_instance

/-- In every run whose closes are sound, each close seals only what is in the body it wrote. -/
theorem sealed_run (env : Env A B H) (n : Node A B H) (events : List (NodeEvent B H))
    (sound : Machine.Meets (next env) ClosesSoundly (some (fresh n)) events)
    {before after : List (NodeEvent B H)} {at_ : Nat} {commits : Commits}
    (split : events = before ++ .close at_ commits :: after) {w w' : Witnessed A B H}
    (reached : Machine.run (next env) (some (fresh n)) before = some w)
    (closed : w.step env (.close at_ commits) = some w') : SealsRight env w w' := by
  subst split
  obtain ⟨first, now, _⟩ := Machine.meets_append.mp sound
  have inv : ∀ w, Machine.run (next env) (some (fresh n)) before = some w → Inv w := by
    refine Machine.run_invariant (fun s => ∀ w, s = some w → Inv w) ?_ ?_ first
    · intro s e inv _ w stepped
      obtain ⟨s, rfl, stepped⟩ := Option.bind_eq_some_iff.mp stepped
      exact step_inv (inv s rfl) stepped
    · intro w start
      obtain rfl := Option.some.inj start
      intro hash member
      simp [fresh] at member
  rw [reached] at now
  exact close_sealsRight (inv w reached) now closed

end Witnessed

/-! ## A node alone -/

namespace Witnessed

/-- Elected, it takes a transaction and closes the block. -/
theorem sealed_run_told :
    ∃ w w', Machine.run (next soloEnv) (some (fresh solo)) [.mesh soloMeshElected 0 true,
        .accept openTask] = some w ∧
      w.step soloEnv (.close 7 {}) = some w' ∧ SealsRight soloEnv w w' ∧
      w'.node.txStatus.lookup openTask = some (.sealed 1) := by
  let before : List (NodeEvent (Plain Nat) (Plain Nat)) :=
    [.mesh soloMeshElected 0 true, .accept openTask]
  let final := Machine.run (next soloEnv) (some (fresh solo)) (before ++ [.close 7 {}])
  have told : final.bind (fun w => w.node.txStatus.lookup openTask) = some (.sealed 1) := by
    decide +kernel
  obtain ⟨w', closed, status⟩ := Option.bind_eq_some_iff.mp told
  rw [show final = _ from Machine.run_append .., Machine.run_cons, Machine.run_nil] at closed
  obtain ⟨w, reached, stepped⟩ := Option.bind_eq_some_iff.mp closed
  exact ⟨w, w', reached, stepped,
    sealed_run soloEnv solo (before ++ [.close 7 {}]) (by decide +kernel) rfl reached stepped,
    status⟩

/-- It loses its role and gets it back while the block is open. The block that closes is
another one, yet the transaction dropped with the first is called sealed. -/
theorem sealed_run_dropped :
    ∃ w w', Machine.run (next soloEnv) (some (fresh solo)) [.mesh soloMeshElected 0 true,
        .accept openTask, .mesh soloMesh 0 true, .mesh soloMeshElected 0 true] = some w ∧
      w.step soloEnv (.close 7 {}) = some w' ∧ ¬ SealsRight soloEnv w w' := by
  let before : List (NodeEvent (Plain Nat) (Plain Nat)) := [.mesh soloMeshElected 0 true,
    .accept openTask, .mesh soloMesh 0 true, .mesh soloMeshElected 0 true]
  let reach := Machine.run (next soloEnv) (some (fresh solo)) before
  have left : reach.bind (fun w =>
        if w.node.txStatus.lookup openTask = some (.applied 1) then
          w.produced.lookup openTask else none) =
      some [.opened 0 ⟨1, 0⟩ "build"] := by decide +kernel
  have told : (next soloEnv reach (.close 7 {})).bind (fun w =>
        if w.node.txStatus.lookup openTask = some (.sealed 1) then w.written.lookup 1 else none) =
      some (.body [] (some 7)) := by decide +kernel
  obtain ⟨w, reached, produced⟩ := Option.bind_eq_some_iff.mp left
  rw [reached] at told
  obtain ⟨w', closed, written⟩ := Option.bind_eq_some_iff.mp told
  refine ⟨w, w', reached, closed, fun right => ?_⟩
  obtain ⟨applied, produced⟩ := Option.ite_none_right_eq_some.mp produced
  obtain ⟨turned, written⟩ := Option.ite_none_right_eq_some.mp written
  obtain ⟨fx, body, effects, at_, latest, wrote, opens, inside⟩ := right openTask 1 applied turned
  -- The body is empty, and the transaction's one effect is on the record.
  obtain rfl := Option.some.inj (wrote.symm.trans written)
  obtain rfl := Option.some.inj (latest.symm.trans produced)
  obtain ⟨rfl, _⟩ := Prod.mk.inj (Option.some.inj opens)
  have empty := List.eq_nil_of_infix_nil inside
  simp [Node.offRecord] at empty

end Witnessed

end AkumaMiot

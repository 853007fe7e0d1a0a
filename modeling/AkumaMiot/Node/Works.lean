import AkumaMiot.Node.Upkeep

/-!
# What a node's work does to its chain

Whatever a node does to its chain state, its event log and its block log is made of eight moves.
Three are a primary's, four are a follower's, and one changes neither the state nor a block.
-/
namespace AkumaMiot

variable {A B H : Type}

namespace Node

/-- The chain state, the event log and the blocks are as they were. -/
structure Rests (n n' : Node A B H) : Prop where
  ext : n'.ext = n.ext
  log : n'.log = n.log
  seq : n'.seq = n.seq
  block : n'.block = n.block
  pending : n'.pending = n.pending
  compaction : n'.pendingCompaction = n.pendingCompaction
  producing : n'.producing = n.producing
  store : n'.store = n.store ∨
    ∃ commits value, n'.store = (n.store.putAux commits auxMesh value).2

theorem Rests.refl (n : Node A B H) : n.Rests n := ⟨rfl, rfl, rfl, rfl, rfl, rfl, rfl, .inl rfl⟩

/-- A rest in which the block log is not written. -/
theorem Rests.then {a b c : Node A B H} (first : a.Rests b) (still : b.store = a.store)
    (second : b.Rests c) : a.Rests c where
  ext := second.ext.trans first.ext
  log := second.log.trans first.log
  seq := second.seq.trans first.seq
  block := second.block.trans first.block
  pending := second.pending.trans first.pending
  compaction := second.compaction.trans first.compaction
  producing := second.producing.trans first.producing
  store := by
    rw [← still]
    exact second.store

theorem saveHard_rests (n : Node A B H) (env : Env A B H) (commits : Bool) :
    n.Rests (n.saveHard env commits) := by
  unfold saveHard
  cases n.mesh.takeDirty with
  | mk hard mesh =>
    cases hard with
    | some h => exact ⟨rfl, rfl, rfl, rfl, rfl, rfl, rfl, .inr ⟨commits, env.encodeHard h, rfl⟩⟩
    | none => exact ⟨rfl, rfl, rfl, rfl, rfl, rfl, rfl, .inl rfl⟩

theorem takeRoute_rests (n : Node A B H) (now : Nat) : n.Rests (n.takeRoute now) := by
  unfold takeRoute
  simp only
  split <;> exact ⟨rfl, rfl, rfl, rfl, rfl, rfl, rfl, .inl rfl⟩

theorem startPushes_rests (n : Node A B H) (now : Nat) : n.Rests (n.startPushes now) := by
  unfold startPushes
  split <;> exact ⟨rfl, rfl, rfl, rfl, rfl, rfl, rfl, .inl rfl⟩

section Queue

variable [DecidableEq H]

theorem setTxStatus_rests (n : Node A B H) (hash : H) (st : TxState) :
    n.Rests (n.setTxStatus hash st) := by
  rw [setTxStatus_eq]
  exact ⟨rfl, rfl, rfl, rfl, rfl, rfl, rfl, .inl rfl⟩

theorem mempoolRemove_rests (n : Node A B H) (hash : H) : n.Rests (n.mempoolRemove hash) :=
  ⟨rfl, rfl, rfl, rfl, rfl, rfl, rfl, .inl rfl⟩

theorem mempoolInsert_rests (n : Node A B H) (hash : H) (bytes : B) (now : Nat) :
    n.Rests (n.mempoolInsert hash bytes now) := by
  unfold mempoolInsert
  split
  · exact .refl n
  · refine .then ?_ ?_ (setTxStatus_rests _ hash .pending)
    · split
      · split <;> exact ⟨rfl, rfl, rfl, rfl, rfl, rfl, rfl, .inl rfl⟩
      · exact ⟨rfl, rfl, rfl, rfl, rfl, rfl, rfl, .inl rfl⟩
    · split
      · split <;> rfl
      · rfl

theorem mempoolAnswered_rests (n : Node A B H) (hash : H) (answer : TxState) :
    n.Rests (n.mempoolAnswered hash answer) := by
  cases answer with
  | pending => exact .refl n
  | applied height => exact setTxStatus_rests n hash (.applied height)
  | «sealed» height =>
    have told := setTxStatus_rests n hash (.sealed height)
    exact ⟨told.ext, told.log, told.seq, told.block, told.pending, told.compaction,
      told.producing, told.store⟩

end Queue

/-! ## The moves -/

/-- Take up block production. -/
def promote (n : Node A B H) (env : Env A B H) : Node A B H :=
  drainAbsorb { n with producing := true, ext := (n.ext.setReplaying false).tickNow env.rt }

variable [DecidableEq A]

/-- What the moves depend on, besides the node. -/
structure May (B : Type) where
  /-- An extrinsic may be executed by a node that no longer leads. -/
  late : Prop
  /-- The checkpoints that may be offered, by height and state. -/
  offers : Nat → B → Prop
  /-- The commits that a close may meet with. -/
  closes : Commits → Prop

/-- What work does. -/
inductive Works (env : Env A B H) (may : May B) : Node A B H → Node A B H → Prop
  | rests {n n' : Node A B H} (rests : n.Rests n') : Works env may n n'
  | submitted (n : Node A B H) (uxt : UncheckedExtrinsic A) (leads : n.producing = true ∨ may.late) :
      Works env may n (n.submit env uxt).2
  | closed {n n' : Node A B H} {at_ : Nat} {commits : Commits} (leads : n.producing = true)
      (taken : may.closes commits) (advanced : n.advance env at_ commits = some n') : Works env may n n'
  | promoted {n : Node A B H} (follows : n.producing = false) :
      Works env may n (n.promote env)
  | demoted {n n' : Node A B H} (leads : n.producing = true)
      (reloaded : { n with producing := false }.reloadFromStore env = some n') :
      Works env may n n'
  | applied {n n' : Node A B H} {commits : Bool} {height : Nat} {body : B} {store : Store B B}
      {effects : List (Effect A)} {at_ : Option Nat} (follows : n.producing = false)
      (opens : env.openBody body = some (effects, at_))
      (appended : n.store.append commits height body = (.ok (), store))
      (applied : { n with store := store }.applyBlock env height effects at_ = some n') :
      Works env may n n'
  | adopted {n n' : Node A B H} {commits : Bool} {height : Nat} {state : B} {store : Store B B}
      (follows : n.producing = false) (offered : may.offers height state)
      (adopted : n.store.adoptCheckpoint commits height state = (.ok (), store))
      (reloaded : { n with store := store }.reloadFromStore env = some n') :
      Works env may n n'
  | rewound {n n' : Node A B H} {commits : Bool} {fork : Nat} {r : Rewind B} {store : Store B B}
      (follows : n.producing = false)
      (rewound : n.store.rewindForFork commits fork = (.ok r, store))
      (reloaded : { n with store := store }.reloadFromStore env = some n') :
      Works env may n n'
  | trans {a b c : Node A B H} (first : Works env may a b)
      (second : Works env may b c) : Works env may a c

namespace Works

variable {env : Env A B H} {may : May B} {n n' : Node A B H}

theorem refl (n : Node A B H) : Works env may n n := .rests (.refl n)

/-! ## Following the mesh -/

theorem takeRole {lead : Bool} (taken : n.takeRole env lead = some n') :
    Works env may n n' := by
  unfold Node.takeRole at taken
  split at taken
  next up =>
    cases taken
    simp only [Bool.and_eq_true, Bool.not_eq_true'] at up
    exact .promoted up.2
  · split at taken
    next down =>
      simp only [Bool.and_eq_true] at down
      exact .demoted down.2 taken
    · cases taken
      exact .refl n

/-- The election has moved, and is followed. -/
theorem followMesh {mesh : Mesh} {now : Nat} {commits : Bool}
    (followed : { n with mesh := mesh }.followMesh env now commits = some n') :
    Works env may n n' := by
  simp only [Node.followMesh, Option.bind_eq_bind, Option.bind_eq_some_iff, Option.pure_def,
    Option.some.injEq] at followed
  obtain ⟨m, taken, rfl⟩ := followed
  have saved := saveHard_rests { n with mesh := mesh } env commits
  have rests : n.Rests ({ n with mesh := mesh }.saveHard env commits) :=
    ⟨saved.ext, saved.log, saved.seq, saved.block, saved.pending, saved.compaction,
      saved.producing, saved.store⟩
  exact .trans (.rests rests) (.trans (.takeRole taken) (.rests (takeRoute_rests m now)))

/-! ## Taking in another's log -/

/-- A block taken in counts for the election, which is then written. -/
theorem saved (n : Node A B H) (mesh : Mesh) (commits : Bool) :
    Works env may n ({ n with mesh := mesh }.saveHard env commits) := by
  have rests := saveHard_rests { n with mesh := mesh } env commits
  exact .rests ⟨rests.ext, rests.log, rests.seq, rests.block, rests.pending, rests.compaction,
    rests.producing, rests.store⟩

theorem counted (n : Node A B H) (mesh : Mesh) :
    Works env may n { n with mesh := mesh } :=
  .rests ⟨rfl, rfl, rfl, rfl, rfl, rfl, rfl, .inl rfl⟩

theorem syncRows {commits goes : Bool} {rows : List (BlockRow B)} (follows : n.producing = false)
    (synced : n.syncRows env commits rows = some (goes, n')) : Works env may n n' := by
  induction rows generalizing n with
  | nil =>
    cases synced
    exact .refl _
  | cons row rows ih =>
    unfold Node.syncRows at synced
    split at synced
    -- A row at or below the head is passed over; one above it is applied, or ends the page.
    · exact ih follows synced
    · split at synced
      · cases synced
        exact .refl _
      next body decodes =>
        split at synced
        · cases synced
          exact .refl _
        next store appended =>
          simp only [Option.bind_eq_bind, Option.bind_eq_some_iff] at synced
          obtain ⟨⟨effects, at_⟩, opens, m, applied, synced⟩ := synced
          have still : m.producing = false := by
            rw [applyBlock_eq applied]
            exact follows
          exact .trans (.applied follows opens appended applied)
            (.trans (.counted m m.mesh.appended) (ih still synced))

theorem takePage {commits : Commits} {peer : Route} {rows : List (BlockRow B)} {goes : Bool}
    (taken : n.takePage env commits peer rows = some (goes, n')) : Works env may n n' := by
  unfold Node.takePage at taken
  split at taken
  · cases taken
    exact .refl n
  next follows =>
    simp only [Node.followsNot, Bool.or_eq_true, not_or, Bool.not_eq_true] at follows
    simp only [Option.bind_eq_bind, Option.bind_eq_some_iff, Option.pure_def] at taken
    obtain ⟨⟨went, m⟩, synced, taken⟩ := taken
    cases went with
    | true =>
      cases taken
      exact .trans (.syncRows follows.1 synced) (.saved m m.mesh commits.aux)
    | false =>
      cases taken
      exact .syncRows follows.1 synced

theorem takeCheckpoint {commits : Commits} {peer : Route} {answer : Option (Nat × B)}
    {adopted : Bool} (offered : ∀ height state, answer = some (height, state) →
      may.offers height state)
    (taken : n.takeCheckpoint env commits peer answer = some (adopted, n')) :
    Works env may n n' := by
  unfold Node.takeCheckpoint at taken
  split at taken
  · cases taken
    exact .refl n
  next height state =>
    split at taken
    · cases taken
      exact .refl n
    next follows =>
      simp only [Node.followsNot, Bool.or_eq_true, not_or, Bool.not_eq_true] at follows
      split at taken
      · simp at taken
      next store adopts =>
        simp only [Option.bind_eq_bind, Option.bind_eq_some_iff, Option.pure_def] at taken
        obtain ⟨m, reloaded, taken⟩ := taken
        cases taken
        exact .trans (.adopted follows.1 (offered height state rfl) adopts reloaded)
          (.saved m m.mesh.appended commits.aux)

theorem rewind {commits : Bool} {peer : Route} {fork : Nat}
    (taken : n.rewind env commits peer fork = some n') : Works env may n n' := by
  unfold Node.rewind at taken
  split at taken
  · cases taken
    exact .refl n
  next follows =>
    simp only [Node.followsNot, Bool.or_eq_true, not_or, Bool.not_eq_true] at follows
    split at taken
    · simp at taken
    next r store rewinds => exact .rewound follows.1 rewinds taken

theorem pushRows {commits : Nat → Bool} {rows : List (BlockRow B)} {why : Option PushRefusal}
    (follows : n.producing = false) (pushed : n.pushRows env commits rows = some (why, n')) :
    Works env may n n' := by
  induction rows generalizing n with
  | nil =>
    cases pushed
    exact .refl _
  | cons row rows ih =>
    unfold Node.pushRows at pushed
    simp only at pushed
    split at pushed
    · exact ih follows pushed
    · split at pushed
      · cases pushed
        exact .refl _
      · split at pushed
        · cases pushed
          exact .refl _
        next body decodes =>
          split at pushed
          · cases pushed
            exact .refl _
          next effects at_ opens =>
            split at pushed
            · cases pushed
              exact .refl _
            next store appended =>
              simp only [Option.bind_eq_bind, Option.bind_eq_some_iff] at pushed
              obtain ⟨m, applied, pushed⟩ := pushed
              have still : m.producing = false := by
                rw [applyBlock_eq applied]
                exact follows
              exact .trans (.applied follows opens appended applied)
                (.trans (.counted m m.mesh.appended) (ih still pushed))

theorem takePush {commits : PushCommits} {op : PushOp B} {reply : PushReply}
    (follows : n.producing = false)
    (offered : ∀ height state, op = .checkpoint height (some state) → 0 < height →
      may.offers height state)
    (taken : n.takePush env commits op = some (reply, n')) : Works env may n n' := by
  cases op with
  | checkpoint height state =>
    simp only [Node.takePush] at taken
    split at taken
    next above =>
      cases state with
      | none =>
        cases taken
        exact .refl _
      | some state =>
        simp only at taken
        split at taken
        · cases taken
          exact .refl _
        next store adopts =>
          simp only [Option.bind_eq_bind, Option.bind_eq_some_iff, Option.pure_def] at taken
          obtain ⟨m, reloaded, taken⟩ := taken
          cases taken
          have height_pos : 0 < height := by omega
          exact .trans (.adopted follows (offered height _ rfl height_pos) adopts reloaded)
            (.saved m m.mesh.appended commits.aux)
    · cases taken
      exact .refl _
  | rewind fork =>
    simp only [Node.takePush] at taken
    split at taken
    · split at taken
      · cases taken
        exact .refl _
      next r store rewinds =>
        simp only [Option.bind_eq_bind, Option.bind_eq_some_iff, Option.pure_def] at taken
        obtain ⟨m, reloaded, taken⟩ := taken
        cases taken
        exact .rewound follows rewinds reloaded
    · cases taken
      exact .refl _
  | blocks rows =>
    simp only [Node.takePush, Option.bind_eq_bind, Option.bind_eq_some_iff] at taken
    obtain ⟨⟨why, m⟩, pushed, taken⟩ := taken
    cases why with
    | some why =>
      cases taken
      exact .pushRows follows pushed
    | none =>
      cases taken
      exact .trans (.pushRows follows pushed) (.saved m m.mesh commits.aux)

theorem chainPush {leader : Status} {now : Nat} {commits : PushCommits} {op : PushOp B}
    {reply : PushReply}
    (offered : ∀ height state, op = .checkpoint height (some state) → 0 < height →
      may.offers height state)
    (pushed : n.chainPush env leader now commits op = some (reply, n')) :
    Works env may n n' := by
  simp only [Node.chainPush, Option.bind_eq_bind, Option.bind_eq_some_iff] at pushed
  obtain ⟨m, heard, pushed⟩ := pushed
  split at pushed
  · cases pushed
    exact .followMesh heard
  next takes =>
    simp only [Bool.or_eq_true, not_or, Bool.not_eq_true] at takes
    exact .trans (.followMesh heard) (.takePush takes.1 offered pushed)

/-! ## The queue -/

/-- What is done with a hash after its extrinsic was executed. -/
theorem afterSubmit {n : Node A B H} {uxt : UncheckedExtrinsic A} {accepted : Bool}
    {m : Node A B H} (submitted : n.submit env uxt = (accepted, m))
    (leads : n.producing = true ∨ may.late) (rests : m.Rests n') : Works env may n n' := by
  have executed : Works env may n (n.submit env uxt).2 := .submitted n uxt leads
  rw [submitted] at executed
  exact .trans executed (.rests rests)

variable [DecidableEq H]

theorem acceptHere (n : Node A B H) (bytes : B) :
    Works env may n (n.acceptHere env bytes) := by
  unfold Node.acceptHere
  split
  · exact .refl n
  next uxt _ =>
    split
    · exact .refl n
    next leads =>
      have leads : n.producing = true := by simpa using leads
      cases submitted : n.submit env uxt with
      | mk accepted m =>
        cases accepted with
        | true =>
          have told := setTxStatus_rests (m.mempoolRemove (env.txHash bytes)) (env.txHash bytes)
            (.applied n.block)
          exact afterSubmit submitted (.inl leads) ((mempoolRemove_rests m _).then rfl told)
        | false => exact afterSubmit submitted (.inl leads) (.refl m)

theorem mempoolHere (n : Node A B H) (hash : H) (bytes : B) (leads : n.producing = true ∨ may.late) :
    Works env may n (n.mempoolHere env hash bytes) := by
  unfold Node.mempoolHere
  split
  · exact .rests (mempoolRemove_rests n hash)
  next uxt _ =>
    cases submitted : n.submit env uxt with
    | mk accepted m =>
      cases accepted with
      | true =>
        have told := setTxStatus_rests m hash (.applied n.block)
        exact afterSubmit submitted leads
          ⟨told.ext, told.log, told.seq, told.block, told.pending, told.compaction,
            told.producing, told.store⟩
      | false => exact afterSubmit submitted leads (mempoolRemove_rests m hash)

end Works

end Node

/-! ## One event -/

/-- The checkpoints an event offers. A push that does not raise the checkpoint is
passed over. -/
def ProcessEvent.Offers (e : ProcessEvent B H) (height : Nat) (state : B) : Prop :=
  match e with
  | .checkpoint _ (some offered) _ => (height, state) = offered
  | .push _ _ _ (.checkpoint offered (some blob)) => height = offered ∧ state = blob ∧ 0 < height
  | _ => False

/-- The commits that an event closes a block with. -/
def ProcessEvent.Closes (e : ProcessEvent B H) (commits : Commits) : Prop :=
  match e with
  | .close _ taken => commits = taken
  | _ => False

namespace Process

variable [DecidableEq A] [DecidableEq H] {env : Env A B H} {readHard : List UInt8 → Option Hard}

/-- The end of a turn that was begun by a primary and ends with the node following: the role is
not read again, so an entry nobody carries is executed outside any block. -/
def Late (p : Process A B H) (e : ProcessEvent B H) : Prop :=
  p.node.producing = false ∧
    match e, p.turn with
    | .turned _, some (entry, .here) => entry.carried = false
    | _, _ => False

instance (p : Process A B H) (e : ProcessEvent B H) : Decidable (p.Late e) := by
  unfold Late
  split <;> infer_instance

/-- What one event may do. -/
def may (p : Process A B H) (e : ProcessEvent B H) : Node.May B := ⟨p.Late e, e.Offers, e.Closes⟩

/-- One event that is not a restart. -/
theorem step_works {p p' : Process A B H} {e : ProcessEvent B H} (runs : e.restarts = false)
    (stepped : p.step env readHard e = some p') :
    Node.Works env (p.may e) p.node p'.node := by
  cases step_steps stepped with
  | restart => simp [ProcessEvent.restarts] at runs
  | idle | collected | turn => exact .refl _
  | @round polled now later commits n idle followed =>
    exact .trans (.followMesh followed) (.rests (Node.startPushes_rests n now))
  | voteRequest followed => exact .followMesh followed
  | voteReply under followed => exact .followMesh followed
  | @inbound st carried now commits n heard =>
    have carries : p.node.Rests (p.node.mempoolCarried carried) :=
      ⟨rfl, rfl, rfl, rfl, rfl, rfl, rfl, .inl rfl⟩
    have followed : Node.Works env (p.may (.inbound st carried now commits))
        (p.node.mempoolCarried carried) n := .followMesh heard
    exact .trans (.rests carries) followed
  | push pushed =>
    refine .chainPush (fun height state same above => ?_) pushed
    subst same
    exact ⟨rfl, rfl, above⟩
  | close leads advanced => exact .closed leads rfl advanced
  | page taken => exact .takePage taken
  | checkpoint taken =>
    refine .takeCheckpoint (fun height state same => ?_) taken
    subst same
    exact rfl
  | rewind rewound => exact .rewind rewound
  | reconciled peer =>
    simp only
    split
    · exact .rests ⟨rfl, rfl, rfl, rfl, rfl, rfl, rfl, .inl rfl⟩
    · exact .refl _
  | pushReconciled route => exact .rests ⟨rfl, rfl, rfl, rfl, rfl, rfl, rfl, .inl rfl⟩
  | accept bytes => exact .acceptHere _ bytes
  | queue bytes now => exact .rests (Node.mempoolInsert_rests _ _ bytes now)
  | mempoolRound now idle => exact .rests ⟨rfl, rfl, rfl, rfl, rfl, rfl, rfl, .inl rfl⟩
  | answered answer turn => exact .rests (Node.mempoolAnswered_rests _ _ answer)
  | @turned entry route taken turn =>
    cases route with
    | nobody leader => exact .refl _
    | primary peer =>
      simp only [Node.mempoolTurn]
      split
      · exact .rests (Node.mempoolRemove_rests _ _)
      · exact .refl _
    | here =>
      simp only [Node.mempoolTurn]
      split
      · exact .rests (Node.mempoolRemove_rests _ _)
      next fresh =>
        refine .mempoolHere _ _ _ ?_
        cases role : p.node.producing with
        | true => exact .inl rfl
        | false => exact .inr ⟨role, by simpa only [turn, Bool.not_eq_true] using fresh⟩

end Process

end AkumaMiot

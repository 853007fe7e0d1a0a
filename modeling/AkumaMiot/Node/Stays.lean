import AkumaMiot.Mesh.Routes
import AkumaMiot.Node.Upkeep

/-!
# What leaves a node's route alone

Only following the mesh changes whom a node pulls from. Everything else keeps the route, the term
and the role, and adds to the log what it says it adds.
-/
namespace AkumaMiot

variable {A B H : Type}

namespace Store

variable {β σ : Type}

/-- The log holds this block above its last compaction. -/
def Has (s : Store β σ) (h : Nat) (b : β) : Prop :=
  s.lastCheckpoint < h ∧ h ≤ s.head ∧ s.block h = some b

/-- Every block of the log was there before or is one of those that were added. -/
def From (adds : Nat → β → Prop) (s s' : Store β σ) : Prop :=
  ∀ h b, s'.Has h b → s.Has h b ∨ adds h b

variable {adds : Nat → β → Prop}

theorem From.refl (s : Store β σ) : From adds s s := fun _ _ has => .inl has

theorem From.trans {a b c : Store β σ} (first : From adds a b) (second : From adds b c) :
    From adds a c := fun h block has => (second h block has).elim (first h block) .inr

theorem From.mono {more : Nat → β → Prop} {s s' : Store β σ} (from_ : From adds s s')
    (wider : ∀ h b, adds h b → more h b) : From more s s' :=
  fun h b has => (from_ h b has).imp_right (wider h b)

/-- A log with no block above its last compaction. -/
theorem From.of_empty {s s' : Store β σ} (empty : s'.head = s'.lastCheckpoint) :
    From adds s s' := fun h b has => absurd (has.1.trans_le has.2.1) (by omega)

theorem append_from {s s' : Store β σ} {commits : Bool} {height : Nat} {body : β}
    (appended : s.append commits height body = (.ok (), s')) (added : adds height body) :
    From adds s s' := by
  unfold append at appended
  split at appended
  · cases appended
  next next =>
    split at appended
    · cases appended
    · cases appended
      rintro h b ⟨above, within, read⟩
      simp only [block, putBlock, putHead, KeyValue.commit, List.foldl_cons, List.foldl_nil]
        at above within read
      rw [Function.update_of_ne (by simp [keyHead])] at read
      by_cases here : h = height
      · subst here
        rw [Function.update_self] at read
        exact .inr (Option.some.inj read ▸ added)
      · rw [Function.update_of_ne (by simp [here])] at read
        have small : u64Succ s.head ≤ s.head + 1 := Nat.mod_le _ _
        exact .inl ⟨above, by omega, read⟩

theorem adoptCheckpoint_empty {s s' : Store β σ} {commits : Bool} {height : Nat} {state : σ}
    (adopted : s.adoptCheckpoint commits height state = (.ok (), s')) :
    s'.head = s'.lastCheckpoint := by
  unfold adoptCheckpoint at adopted
  split at adopted
  · cases adopted
  · cases adopted
    rfl

theorem rewindForFork_empty {s s' : Store β σ} {commits : Bool} {fork : Nat} {r : Rewind σ}
    (rewound : s.rewindForFork commits fork = (.ok r, s')) : s'.head = s'.lastCheckpoint := by
  unfold rewindForFork at rewound
  simp only at rewound
  split at rewound
  · cases rewound
  · cases rewound
    simp only
    split <;> split <;> omega

theorem putAux_from (s : Store β σ) (commits : Bool) (name : String) (value : List UInt8) :
    From adds s (s.putAux commits name value).2 := by
  rintro h b ⟨above, within, read⟩
  have untouched : (s.putAux commits name value).2.block h = s.block h :=
    putAux_other s commits value (block_ne_auxKey h name)
  rw [untouched] at read
  refine .inl ⟨?_, ?_, read⟩
  · cases commits <;> exact above
  · cases commits <;> exact within

end Store

namespace Node

/-- The role, the route and the term are as they were; the log has gained only what `adds` says. -/
structure Stays (adds : Nat → B → Prop) (n n' : Node A B H) : Prop where
  peer : n'.peer = n.peer
  owed : n'.needsReconcile = n.needsReconcile
  producing : n'.producing = n.producing
  learner : n'.mesh.learner = n.mesh.learner
  role : n'.mesh.role = n.mesh.role
  route : n'.mesh.leaderRoute = n.mesh.leaderRoute
  term : n'.mesh.term = n.mesh.term
  campaign : n'.mesh.campaignTerm = n.mesh.campaignTerm
  log : Store.From adds n.store n'.store

variable {adds : Nat → B → Prop} {env : Env A B H}

theorem Stays.refl (n : Node A B H) : n.Stays adds n := by
  constructor <;> first | rfl | exact .refl _

theorem Stays.trans {a b c : Node A B H} (first : a.Stays adds b)
    (second : b.Stays adds c) : a.Stays adds c where
  peer := second.peer.trans first.peer
  owed := second.owed.trans first.owed
  producing := second.producing.trans first.producing
  learner := second.learner.trans first.learner
  role := second.role.trans first.role
  route := second.route.trans first.route
  term := second.term.trans first.term
  campaign := second.campaign.trans first.campaign
  log := first.log.trans second.log

/-- A change to none of it. -/
theorem Stays.apart {n n' : Node A B H} (apart : n' = { n with
      ext := n'.ext
      log := n'.log
      seq := n'.seq
      block := n'.block
      pending := n'.pending
      pendingCompaction := n'.pendingCompaction
      pushReconciled := n'.pushReconciled
      mempool := n'.mempool
      mempoolOrder := n'.mempoolOrder
      txStatus := n'.txStatus
      txStatusOrder := n'.txStatusOrder }) : n.Stays adds n' := by
  rw [apart]
  constructor <;> first | rfl | exact .refl _

theorem Stays.appended (n : Node A B H) : n.Stays adds { n with mesh := n.mesh.appended } := by
  have same : ∀ m : Mesh, m.appended = { m with
      hard := { m.hard with headTerm := m.appended.hard.headTerm }
      hardDirty := m.appended.hardDirty } := by
    intro m
    unfold Mesh.appended
    split <;> rfl
  rw [same]
  constructor <;> first | rfl | exact .refl _

theorem Stays.saveHard (n : Node A B H) (env : Env A B H) (commits : Bool) :
    n.Stays adds (n.saveHard env commits) := by
  unfold Node.saveHard
  cases dirty : n.mesh.takeDirty with
  | mk hard mesh =>
    have mesh_eq : mesh = { n.mesh with hardDirty := false } := by
      have := congrArg Prod.snd dirty
      exact this.symm
    subst mesh_eq
    cases hard with
    | none => constructor <;> first | rfl | exact .refl _
    | some h => constructor <;> first | rfl | exact Store.putAux_from _ _ _ _

theorem Stays.startPushes (n : Node A B H) (now : Nat) : n.Stays adds (n.startPushes now) := by
  unfold Node.startPushes
  split
  · exact .apart rfl
  · unfold Mesh.pushTargets
    split <;> constructor <;> first | rfl | exact .refl _

theorem Stays.refolded {n n' : Node A B H} (refolded : n.Refolded n') : n.Stays adds n' := by
  rw [refolded]
  exact .apart rfl

/-- A store that took the place of the last. -/
theorem Stays.stored {n : Node A B H} {store : Store B B} (from_ : Store.From adds n.store store) :
    n.Stays adds { n with store } := by
  constructor <;> first | rfl | exact from_

theorem Stays.advance {n n' : Node A B H} {at_ : Nat} {commits : Commits}
    (advanced : n.advance env at_ commits = some n') : n.Stays (fun _ _ => True) n' := by
  have any : ∀ (m : Node A B H) (store : Store B B),
      m.Stays (fun _ _ => True) { m with store := store } :=
    fun m store => .stored fun _ _ _ => .inr trivial
  have persisted : n.Stays (fun _ _ => True) (n.persist env n.block at_ commits) := by
    unfold persist
    simp only
    split
    next store _ =>
      refine .trans (b := n.stampBlock n.block (some at_)) (.apart rfl) (.trans ?_ (.apart rfl))
      exact (any _ store).trans ((Stays.appended _).trans (.saveHard _ env commits.aux))
    · exact .apart rfl
  obtain ⟨m, opened, rfl⟩ := Option.map_eq_some_iff.mp advanced
  obtain rfl := initializeBlock_eq opened
  rw [drainAbsorb_eq]
  refine persisted.trans ?_
  simp only
  split
  · exact .trans (any _ _) (.apart rfl)
  · exact .apart rfl

section Executing

variable [DecidableEq A]

/-! ## Taking in another's log -/

theorem TakesIn.stays {n n' : Node A B H} (takes : TakesIn env adds n n') : n.Stays adds n' := by
  induction takes with
  | nothing n => exact .refl n
  | @applied n n' commits height body store effects at_ appended applied added =>
    refine (Stays.stored (Store.append_from appended added)).trans (.trans ?_ (.appended n'))
    rw [applyBlock_eq applied]
    exact .apart rfl
  | @adopted n n' height state commits store adopted reloaded =>
    -- What is adopted or rewound leaves an empty log behind, so nothing was added.
    exact (Stays.stored (.of_empty (Store.adoptCheckpoint_empty adopted))).trans
      ((Stays.refolded (reloadFromStore_refolded reloaded)).trans (.appended n'))
  | rewound rewound reloaded =>
    exact (Stays.stored (.of_empty (Store.rewindForFork_empty rewound))).trans
      (.refolded (reloadFromStore_refolded reloaded))
  | saved n commits => exact .saveHard n env commits
  | trans _ _ first second => exact first.trans second

/-! ## Queueing -/

theorem Stays.submit (n : Node A B H) (uxt : UncheckedExtrinsic A) :
    n.Stays adds (n.submit env uxt).2 := by
  unfold Node.submit
  cases n.ext.applyExtrinsic env uxt with
  | mk r ext =>
    simp only
    rw [drainAbsorb_eq]
    split <;> exact .apart rfl

section Statuses

variable [DecidableEq H]

omit [DecidableEq A] in
theorem Stays.setTxStatus (n : Node A B H) (hash : H) (st : TxState) :
    n.Stays adds (n.setTxStatus hash st) := by
  rw [setTxStatus_eq]
  exact .apart rfl

omit [DecidableEq A] in
theorem Stays.mempoolInsert (n : Node A B H) (hash : H) (bytes : B) (now : Nat) :
    n.Stays adds (n.mempoolInsert hash bytes now) := by
  unfold Node.mempoolInsert
  split
  · exact .refl n
  · refine .trans ?_ (.setTxStatus _ _ _)
    split
    · split <;> exact .apart rfl
    · exact .apart rfl

omit [DecidableEq A] in
theorem Stays.mempoolAnswered (n : Node A B H) (hash : H) (answer : TxState) :
    n.Stays adds (n.mempoolAnswered hash answer) := by
  cases answer with
  | pending => exact .refl n
  | applied height => exact .setTxStatus n hash (.applied height)
  | «sealed» height => exact (Stays.setTxStatus n hash (.sealed height)).trans (.apart rfl)

theorem Stays.acceptHere (n : Node A B H) (bytes : B) :
    n.Stays adds (n.acceptHere env bytes) := by
  unfold Node.acceptHere
  split
  · exact .refl n
  next uxt _ =>
    split
    · exact .refl n
    · have submits : n.Stays adds (n.submit env uxt).2 := .submit n uxt
      cases submitted : n.submit env uxt with
      | mk accepted n' =>
        rw [submitted] at submits
        cases accepted with
        | true => exact submits.trans ((Stays.apart rfl).trans (.setTxStatus _ _ _))
        | false => exact submits

theorem Stays.mempoolHere (n : Node A B H) (hash : H) (bytes : B) :
    n.Stays adds (n.mempoolHere env hash bytes) := by
  unfold Node.mempoolHere
  split
  · exact .apart rfl
  next uxt _ =>
    have submits : n.Stays adds (n.submit env uxt).2 := .submit n uxt
    cases submitted : n.submit env uxt with
    | mk accepted n' =>
      rw [submitted] at submits
      cases accepted with
      | true => exact submits.trans ((Stays.setTxStatus _ _ _).trans (.apart rfl))
      | false => exact submits.trans (.apart rfl)

theorem Stays.mempoolTurn (n : Node A B H) (e : Queued B H) (taken : Bool) (route : WriteRoute) :
    n.Stays adds (n.mempoolTurn env e taken route) := by
  cases route with
  | nobody leader => exact .refl n
  | here =>
    unfold Node.mempoolTurn
    simp only
    split
    · exact .apart rfl
    · exact .mempoolHere _ _ _
  | primary p =>
    unfold Node.mempoolTurn
    simp only
    split
    · exact .apart rfl
    · exact .refl n

end Statuses

end Executing

/-! ## Following the mesh -/

/-- A node that is no learner, as it is between two events. -/
structure Member (n : Node A B H) : Prop where
  learner : n.mesh.learner = false
  routed : n.mesh.Routed
  peer : n.peer = n.mesh.leaderRoute
  role : n.producing = n.mesh.isLeader

/-- Who produces blocks pulls from nobody. -/
theorem Member.folding {n : Node A B H} (member : n.Member) {q : Route}
    (follows : n.peer = some q) :
    n.producing = false := by
  rw [member.role]
  by_contra leads
  have leads : n.mesh.role = .leader := by simpa [Mesh.isLeader] using leads
  rw [member.peer, member.routed.silent (by simp [leads])] at follows
  cases follows

theorem Member.stays {n n' : Node A B H} (member : n.Member) (stays : n.Stays adds n') :
    n'.Member where
  learner := stays.learner.trans member.learner
  routed := ⟨fun other => stays.route.trans (member.routed.silent (stays.role ▸ other)),
    fun pre => stays.term ▸ stays.campaign ▸ member.routed.campaign (stays.role ▸ pre)⟩
  peer := stays.peer.trans (member.peer.trans stays.route.symm)
  role := by rw [stays.producing, member.role, Mesh.isLeader, Mesh.isLeader, stays.role]

/-- What an event that tells statuses of routes does to a member. A route that is new is owed a
reconciliation. -/
structure Turns (told : List (Route × Status)) (n n' : Node A B H) : Prop where
  later : n.mesh.term ≤ n'.mesh.term
  route : ∀ q, n'.peer = some q → (n.peer = some q ∧ n'.mesh.term = n.mesh.term) ∨
    ∃ st, (q, st) ∈ told ∧ st.role = .leader ∧ st.term = n'.mesh.term
  stays : ∀ q, n'.peer = some q → n.peer = some q → n'.needsReconcile = n.needsReconcile
  owed : ∀ q, n'.peer = some q → n.peer ≠ some q → n'.needsReconcile = true
  stands : n'.mesh.Stands → n.mesh.Stands ∨ n.mesh.term < n'.mesh.term

theorem Stays.stands {n n' : Node A B H} (stays : n.Stays adds n') :
    n'.mesh.Stands ↔ n.mesh.Stands := by
  rw [Mesh.Stands, stays.role, Mesh.Stands]

theorem Stays.turns {n n' : Node A B H} (stays : n.Stays adds n') : n.Turns [] n' where
  later := stays.term.ge
  route _ follows := .inl ⟨stays.peer ▸ follows, stays.term⟩
  stays _ _ _ := stays.owed
  owed _ follows other := absurd (stays.peer ▸ follows) other
  stands now := .inl (stays.stands.mp now)

theorem Turns.stays_after {told : List (Route × Status)} {a b c : Node A B H}
    (turns : a.Turns told b) (stays : b.Stays adds c) : a.Turns told c where
  later := turns.later.trans stays.term.ge
  route q follows := by
    rw [stays.term]
    exact turns.route q (stays.peer ▸ follows)
  stays q follows was := stays.owed.trans (turns.stays q (stays.peer ▸ follows) was)
  owed q follows other := stays.owed.trans (turns.owed q (stays.peer ▸ follows) other)
  stands now := stays.term ▸ turns.stands (stays.stands.mp now)

theorem Turns.stays_before {told : List (Route × Status)} {a b c : Node A B H}
    (stays : a.Stays adds b) (turns : b.Turns told c) : a.Turns told c where
  later := stays.term.ge.trans turns.later
  route q follows := by
    rw [← stays.term, ← stays.peer]
    exact turns.route q follows
  stays q follows was := (turns.stays q follows (stays.peer.trans was)).trans stays.owed
  owed q follows other := turns.owed q follows (stays.peer ▸ other)
  stands now := by
    rw [← stays.term, ← stays.stands]
    exact turns.stands now

theorem nextRoute_member {n : Node A B H} (learner : n.mesh.learner = false) (now : Nat) :
    n.nextRoute now = n.mesh.leaderRoute := by
  have head : n.mesh.leaderRoute.toList.head? = n.mesh.leaderRoute := by
    cases n.mesh.leaderRoute <;> rfl
  unfold nextRoute Mesh.pullSources
  simp only [learner, Bool.not_false, if_true, Bool.false_and, Bool.false_eq_true, if_false, head]
  split <;> rfl

/-- A member pulls from the leader, and from nobody else. -/
theorem takeRoute_member {n : Node A B H} (learner : n.mesh.learner = false) (now : Nat) :
    (n.takeRoute now).peer = n.mesh.leaderRoute ∧
      (n.takeRoute now).producing = n.producing ∧
      (n.takeRoute now).needsReconcile =
        if n.mesh.leaderRoute ≠ n.peer then n.needsReconcile || n.mesh.leaderRoute.isSome
        else n.needsReconcile := by
  unfold takeRoute
  simp only [nextRoute_member learner, learner, Bool.false_and, Bool.false_eq_true, or_false]
  split
  · exact ⟨rfl, rfl, rfl⟩
  next same => exact ⟨(not_not.mp same).symm, rfl, rfl⟩

section Executing

variable [DecidableEq A]

theorem takeRole_producing {n n' : Node A B H} {lead : Bool}
    (taken : n.takeRole env lead = some n') :
    n'.producing = lead ∧ n'.peer = n.peer ∧ n'.needsReconcile = n.needsReconcile := by
  unfold takeRole at taken
  split at taken
  next up =>
    obtain rfl := Option.some.inj taken
    rw [drainAbsorb_eq]
    simp only [Bool.and_eq_true] at up
    exact ⟨up.1.symm, rfl, rfl⟩
  next notUp =>
    split at taken
    next down =>
      rw [reloadFromStore_refolded taken]
      simp only [Bool.and_eq_true, Bool.not_eq_true'] at down
      exact ⟨down.1.symm, rfl, rfl⟩
    next notDown =>
      obtain rfl := Option.some.inj taken
      refine ⟨?_, rfl, rfl⟩
      cases lead <;> cases role : n.producing <;> simp [role] at notUp notDown ⊢

/-- A member whose mesh has moved, once it follows it. -/
theorem Member.followMesh {n n' : Node A B H} (member : n.Member) {mesh : Mesh}
    {told : List (Route × Status)} (led : n.mesh.Led told mesh) {now : Nat} {commits : Bool}
    (followed : { n with mesh := mesh }.followMesh env now commits = some n') :
    n'.Member ∧ n.Turns told n' ∧ Store.From adds n.store n'.store := by
  have elsewhere := followMesh_elsewhere followed
  have saved : ({ n with mesh := mesh } : Node A B H).Stays adds
      ({ n with mesh := mesh }.saveHard env commits) := .saveHard _ env commits
  simp only [Node.followMesh, Option.bind_eq_bind, Option.bind_eq_some_iff, Option.pure_def,
    Option.some.injEq] at followed
  obtain ⟨m, taken, rfl⟩ := followed
  have role := takeRole_elsewhere taken
  obtain ⟨producing, peer, owed⟩ := takeRole_producing taken
  -- The mesh is only marked as written.
  have same : m.mesh = ({ n with mesh := mesh }.saveHard env commits).mesh := role.1
  have learner : m.mesh.learner = false := by
    rw [same, saved.learner]
    exact led.learner.trans member.learner
  obtain ⟨peer', producing', owed'⟩ := takeRoute_member learner now
  have mesh' : (m.takeRoute now).mesh = m.mesh := (takeRoute_elsewhere m now).1
  have route : m.mesh.leaderRoute = mesh.leaderRoute := by rw [same, saved.route]
  have term : m.mesh.term = mesh.term := by rw [same, saved.term]
  have was : m.peer = n.peer := peer.trans saved.peer
  have owes : m.needsReconcile = n.needsReconcile := owed.trans saved.owed
  have routed := led.routed member.routed
  refine ⟨⟨?_, ?_, ?_, ?_⟩, ⟨?_, ?_, ?_, ?_, ?_⟩, ?_⟩
  · rw [mesh']; exact learner
  · rw [mesh', same]
    exact ⟨fun other => saved.route.trans (routed.silent (saved.role ▸ other)),
      fun pre => saved.term ▸ saved.campaign ▸ routed.campaign (saved.role ▸ pre)⟩
  · rw [mesh']; exact peer'
  · rw [mesh', producing', producing, same]
  · rw [mesh', term]; exact led.later
  · intro q follows
    rw [peer', route] at follows
    rw [mesh', term, member.peer]
    exact led.route q follows
  · intro q follows before
    rw [peer'] at follows
    rw [owed', if_neg (by rw [follows, was, before]; simp), owes]
  · intro q follows other
    rw [peer'] at follows
    rw [owed', if_pos (by rw [follows, was]; exact Ne.symm other), follows]
    simp
  · rw [mesh', same, saved.stands, saved.term]
    exact led.stands member.routed
  · rw [elsewhere.2]
    exact saved.log

end Executing

end Node

/-! ## One event -/

/-- The parts of a replica's round. -/
def ProcessEvent.pulls : ProcessEvent B H → Bool
  | .page .. | .checkpoint .. | .rewind .. | .reconciled .. => true
  | _ => false

/-- The statuses an event tells, where they came by a route. -/
def ProcessEvent.told (m : Mesh) : ProcessEvent B H → List (Route × Status)
  | .round polled .. => polled
  | .inbound st .. => (m.routeOf st).toList.map (·, st)
  | .push leader .. => (m.routeOf leader).toList.map (·, leader)
  | _ => []

/-- The blocks an event may add to the log of a node, which is in `term` after it. -/
def ProcessEvent.brings (n : Node A B H) (term : Nat) : ProcessEvent B H → Nat → B → Prop
  | .push leader _ _ op => fun h b => op.brings h b ∧ leader.term = term
  | .close .. => fun _ _ => n.producing = true
  | _ => fun _ _ => False

namespace Process

variable {env : Env A B H} {readHard : List UInt8 → Option Hard}

/-- What does not follow the mesh. -/
theorem stays_turns {n n' : Node A B H} {adds : Nat → B → Prop} (member : n.Member)
    (stays : n.Stays adds n') {told : List (Route × Status)} (none_ : told = []) :
    n'.Member ∧ n.Turns told n' ∧ Store.From adds n.store n'.store :=
  ⟨member.stays stays, none_ ▸ stays.turns, stays.log⟩

variable [DecidableEq A] [DecidableEq H]

theorem step_turns {p p' : Process A B H} {e : ProcessEvent B H} (member : p.node.Member)
    (other : e.pulls = false) (runs : e.restarts = false)
    (stepped : p.step env readHard e = some p') :
    p'.node.Member ∧ p.node.Turns (e.told p.node.mesh) p'.node ∧
      Store.From (e.brings p.node p'.node.mesh.term) p.node.store p'.node.store := by
  cases step_steps stepped with
  | page | checkpoint | rewind | reconciled => simp [ProcessEvent.pulls] at other
  | restart => simp [ProcessEvent.restarts] at runs
  | idle =>
    refine ⟨member, ⟨le_rfl, fun q follows => .inl ⟨follows, rfl⟩, fun _ _ _ => rfl, ?_, .inl⟩,
      .refl _⟩
    exact fun q follows other => absurd follows other
  | @round polled now later commits n idle followed =>
    -- What the poll told and what the clock told are one step of the election.
    have led := (Mesh.polled_led p.node.mesh polled now).trans
      (Mesh.tick_led _ now p.node.store.head)
    rw [List.append_nil] at led
    obtain ⟨member', turns, from_⟩ := member.followMesh led followed
    have pushes : n.Stays (fun _ _ => False) (n.startPushes now) := .startPushes n now
    exact ⟨member'.stays pushes, turns.stays_after pushes, from_.trans pushes.log⟩
  | voteRequest followed => exact member.followMesh (Mesh.onVoteRequest_led _ _ _ _) followed
  | voteReply under followed =>
    exact member.followMesh (Mesh.onVoteReply_led member.routed _ _ _ _ _) followed
  | collected under => exact stays_turns member (.refl _) rfl
  | @inbound st carried now commits n heard =>
    have carries : p.node.Stays (fun _ _ => False) (p.node.mempoolCarried carried) := .apart rfl
    obtain ⟨member', turns, from_⟩ :=
      (member.stays carries).followMesh (Mesh.onInbound_led _ st now) heard
    exact ⟨member', .stays_before carries turns, carries.log.trans from_⟩
  | @push leader now commits op reply n pushed =>
    simp only [Node.chainPush, Option.bind_eq_bind, Option.bind_eq_some_iff] at pushed
    obtain ⟨m, heard, pushed⟩ := pushed
    let brings : Nat → B → Prop := fun h b => op.brings h b ∧ leader.term = n.mesh.term
    have followed : m.Member ∧ _ ∧ Store.From brings p.node.store m.store :=
      member.followMesh (Mesh.onInbound_led _ leader now) heard
    obtain ⟨member', turns, from_⟩ := followed
    split at pushed
    · cases pushed
      exact ⟨member', turns, from_⟩
    next takes =>
      have stays := (Node.TakesIn.takePush pushed).stays
      -- A push is taken only of a leader of the node's own term.
      have same : leader.term = n.mesh.term := by
        rw [stays.term]
        simp only [Bool.or_eq_true, Bool.not_eq_true', not_or, Mesh.acceptsPushFrom] at takes
        simp_all [Mesh.term]
      refine ⟨member'.stays stays, turns.stays_after stays, from_.trans ?_⟩
      exact stays.log.mono fun h b brought => ⟨brought, same⟩
  | close leads advanced =>
    have stays := Node.Stays.advance advanced
    exact ⟨member.stays stays, stays.turns, stays.log.mono fun _ _ _ => leads⟩
  -- The rest is about no route at all.
  | pushReconciled route => exact stays_turns member (.apart rfl) rfl
  | accept bytes => exact stays_turns member (.acceptHere _ _) rfl
  | queue bytes now => exact stays_turns member (.mempoolInsert _ _ _ _) rfl
  | mempoolRound now idle => exact stays_turns member (.apart rfl) rfl
  | turn none_ found => exact stays_turns member (.refl _) rfl
  | answered answer turn => exact stays_turns member (.mempoolAnswered _ _ _) rfl
  | turned taken turn => exact stays_turns member (.mempoolTurn _ _ _ _) rfl

end Process

end AkumaMiot

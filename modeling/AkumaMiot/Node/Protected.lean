import AkumaMiot.Node.Nonces
import AkumaMiot.Node.OffRecord
import AkumaMiot.Node.Stays

/-!
# Replay protection

Members share one history: a block that one of them sealed is found on the disks of the others,
and so is a state it was compacted to. A member is protected when it refuses, as a primary,
whatever its state already includes.
-/
namespace AkumaMiot

variable {A B H : Type}

/-! ## A member and what its state includes -/

/-- A node beside what its state includes: `opened` are the extrinsics it accepted into the block
it has open. -/
structure Tracked (A B H : Type) where
  seen : Witnessed A B H
  opened : List (UncheckedExtrinsic A) := []
  contents : Contents A := {}

namespace Tracked

variable [DecidableEq A]

/-- The extrinsic an event gets accepted. -/
def accepts (env : Env A B H) (n : Node A B H) : NodeEvent B H → Option (UncheckedExtrinsic A)
  | .accept bytes =>
    if n.producing then (env.decodeExtrinsic bytes).filter fun x => (n.submit env x).1 else none
  | .mempoolHere _ bytes => (env.decodeExtrinsic bytes).filter fun x => (n.submit env x).1
  | _ => none

/-- An accepted extrinsic is counted. If it brings an account to life, nothing of that account's is
counted any more. -/
def takes (t : Tracked A B H) (env : Env A B H) (x : UncheckedExtrinsic A)
    (seen : Witnessed A B H) : Tracked A B H where
  seen := seen
  opened := x :: t.opened
  contents := { t.contents with
    counted := x :: t.contents.counted.filter fun y =>
      t.seen.node.ext.revives env x ≠ some y.signer }

/-- What is in the block that closes is in the state. -/
def closes (t : Tracked A B H) (seen : Witnessed A B H) : Tracked A B H where
  seen := seen
  contents := { t.contents with included := t.contents.included ++ t.opened }

variable [DecidableEq B]

/-- A state rebuilt from its store. -/
def rebuilt (l : Ledger A B) (env : Env A B H) (seen : Witnessed A B H) : Tracked A B H where
  seen := seen
  contents := l.rebuilds env seen.node.store

/-- The record after an event that left `seen`. -/
def after (t : Tracked A B H) (l : Ledger A B) (env : Env A B H) (e : NodeEvent B H)
    (seen : Witnessed A B H) : Tracked A B H :=
  match e with
  | .accept _ | .mempoolHere _ _ =>
    match accepts env t.seen.node e with
    | some x => t.takes env x seen
    | none => { t with seen := seen }
  | .queue _ _ _ | .mempoolAnswered _ _ => { t with seen := seen }
  | .close _ _ => if t.seen.node.producing then t.closes seen else { t with seen := seen }
  | .mesh decided _ _ =>
    if t.seen.node.producing && !decided.isLeader then rebuilt l env seen
    else { t with seen := seen }
  | .append height body commits =>
    if t.seen.node.producing then { t with seen := seen }
    else match t.seen.node.store.append commits.append height body with
      | (.error _, _) => { t with seen := seen }
      | (.ok _, _) => { seen := seen, contents := l.folds env t.contents height body }
  | .adopt _ _ _ | .rewind _ =>
    if t.seen.node.producing then { t with seen := seen } else rebuilt l env seen

variable [DecidableEq H]

def step (t : Tracked A B H) (l : Ledger A B) (env : Env A B H) (e : NodeEvent B H) :
    Option (Tracked A B H) :=
  (t.seen.step env e).map (t.after l env e)

end Tracked

/-! ## The members -/

/-- Every member that runs, and the history they share. -/
structure Members (A B H : Type) where
  member : Name → Option (Tracked A B H) := fun _ => none
  ledger : Ledger A B := {}

inductive MembersEvent (B H : Type)
  | node (who : Name) (e : NodeEvent B H)
  /-- A process is started on whatever its disk holds. The one before it may have been stopped
  between any two commits. -/
  | start (who : Name) (store : Store B B) (mesh : Mesh)

variable [DecidableEq A]

/-- What a close adds to the history. -/
def Ledger.grows (l : Ledger A B) (env : Env A B H) (t : Tracked A B H) :
    NodeEvent B H → Ledger A B
  | .close at_ commits =>
    let n := t.seen.node
    if !n.producing then l
    else
      let body := env.sealBody n.pending at_
      { blocks := match n.store.append commits.append n.block body with
          | (.ok _, _) => ⟨n.block, body, t.opened⟩ :: l.blocks
          | (.error _, _) => l.blocks
        compactions := if n.pendingCompaction then
            ⟨env.encodeSnapshot n.ext, (t.closes t.seen).contents⟩ :: l.compactions
          else l.compactions }
  | _ => l

namespace Members

variable [DecidableEq B] [DecidableEq H]

/-- One event of one member. A panic ends its process. -/
def step (env : Env A B H) (ms : Members A B H) : MembersEvent B H → Members A B H
  | .node who e =>
    match ms.member who with
    | none => ms
    | some t =>
      { member := Function.update ms.member who (t.step ms.ledger env e)
        ledger := ms.ledger.grows env t e }
  | .start who store mesh =>
    let opened := (Node.open_ env store mesh).map fun n => .rebuilt ms.ledger env (.fresh n)
    { ms with member := Function.update ms.member who opened }

/-- What the claim asks: a primary refuses whatever its state already includes. -/
def Refuses (env : Env A B H) (ms : Members A B H) : Prop :=
  ∀ who t, ms.member who = some t → t.seen.node.producing = true →
    ∀ x ∈ t.contents.included,
      ∃ e, t.seen.node.ext.applyExtrinsic env x = (.error e, t.seen.node.ext)

end Members

/-! ## When it does -/

namespace Tracked

/-- What a member has to refuse: what it accepted into the open block, and as a primary whatever
its state includes. -/
def owed (t : Tracked A B H) : List (UncheckedExtrinsic A) :=
  if t.seen.node.producing then t.opened ++ t.contents.included else t.opened

/-- The extrinsic brings no account to life that has signed what is to be refused. -/
def LetsRest (t : Tracked A B H) (env : Env A B H) (x : UncheckedExtrinsic A) : Prop :=
  ∀ y ∈ t.owed, t.seen.node.ext.revives env x ≠ some y.signer

/-- The nonces count what the state includes, as far as its signers are alive. -/
def CountsAll (t : Tracked A B H) : Prop :=
  ∀ x ∈ t.contents.included,
    x ∈ t.contents.counted ∨ t.seen.node.ext.account.lookup x.signer = none

/-- The condition on one event: an extrinsic that is executed lets accounts rest, and who takes up
production counts what its state includes. -/
def Guarded (env : Env A B H) (t : Tracked A B H) : NodeEvent B H → Prop
  | .accept bytes =>
    t.seen.node.producing = true → ∀ x ∈ env.decodeExtrinsic bytes, t.LetsRest env x
  | .mempoolHere _ bytes => ∀ x ∈ env.decodeExtrinsic bytes, t.LetsRest env x
  | .mesh decided _ _ => (decided.isLeader && !t.seen.node.producing) = true → t.CountsAll
  | _ => True

instance (env : Env A B H) (t : Tracked A B H) (x : UncheckedExtrinsic A) :
    Decidable (t.LetsRest env x) := inferInstanceAs (Decidable (∀ y ∈ t.owed, _))

instance (t : Tracked A B H) : Decidable t.CountsAll :=
  inferInstanceAs (Decidable (∀ x ∈ t.contents.included, _))

instance (env : Env A B H) (t : Tracked A B H) (e : NodeEvent B H) :
    Decidable (t.Guarded env e) :=
  match e with
  | .accept _ => inferInstanceAs (Decidable (_ = true → ∀ x ∈ _, t.LetsRest env x))
  | .mempoolHere .. => inferInstanceAs (Decidable (∀ x ∈ _, t.LetsRest env x))
  | .mesh .. => inferInstanceAs (Decidable (_ = true → t.CountsAll))
  | .queue .. | .mempoolAnswered .. | .close .. | .append .. | .adopt .. | .rewind _ =>
    .isTrue trivial

/-- What is counted is spent, and so is what is to be refused. -/
structure Spends (t : Tracked A B H) : Prop where
  counted : ∀ x ∈ t.contents.counted, t.seen.node.ext.Spent x
  owed : ∀ x ∈ t.owed, t.seen.node.ext.Spent x

end Tracked

def Members.Guarded (env : Env A B H) (ms : Members A B H) : MembersEvent B H → Prop
  | .node who e => ∀ t ∈ ms.member who, t.Guarded env e
  | .start _ _ _ => True

instance (env : Env A B H) (ms : Members A B H) (e : MembersEvent B H) :
    Decidable (ms.Guarded env e) :=
  match e with
  | .node who e => inferInstanceAs (Decidable (∀ t ∈ ms.member who, t.Guarded env e))
  | .start .. => .isTrue trivial

/-! ## One event of one member -/

namespace Tracked

variable {env : Env A B H} {t t' : Tracked A B H} {seen : Witnessed A B H}

/-- A step that lets the accounts be, and owes nothing that is not spent. -/
theorem Spends.kept (spends : t.Spends)
    (account : t'.seen.node.ext.account = t.seen.node.ext.account)
    (counted : ∀ x ∈ t'.contents.counted, x ∈ t.contents.counted)
    (owed : ∀ x ∈ t'.owed, t.seen.node.ext.Spent x) : t'.Spends where
  counted x member := (spends.counted x (counted x member)).same account
  owed x member := (owed x member).same account

/-- A step that is about neither accounts nor the role. -/
theorem Spends.moves (spends : t.Spends)
    (account : seen.node.ext.account = t.seen.node.ext.account)
    (role : seen.node.producing = t.seen.node.producing) :
    ({ t with seen := seen } : Tracked A B H).Spends := by
  refine spends.kept account (fun _ => id) fun x member => spends.owed x ?_
  simp only [Tracked.owed, role] at member
  exact member

/-- An extrinsic that was executed. -/
theorem Spends.executes (spends : t.Spends) {bytes : B}
    (unread : env.decodeExtrinsic bytes = none → seen.node.ext = t.seen.node.ext)
    (read : ∀ x, env.decodeExtrinsic bytes = some x →
      seen.node.ext = (t.seen.node.submit env x).2.ext)
    (role : seen.node.producing = t.seen.node.producing)
    (rests : ∀ x ∈ env.decodeExtrinsic bytes, t.LetsRest env x) :
    Spends (match (env.decodeExtrinsic bytes).filter fun x => (t.seen.node.submit env x).1 with
      | some x => t.takes env x seen
      | none => { t with seen := seen }) := by
  cases decoded : env.decodeExtrinsic bytes with
  | none => exact spends.moves (by rw [unread decoded]) role
  | some x =>
    obtain ⟨account, accepted⟩ := Node.submit_applied t.seen.node env x
    rw [← read x decoded] at account
    have owed : ∀ y ∈ t.owed, (t.seen.node.ext.applyExtrinsic env x).2.Spent y := fun y member =>
      (spends.owed y member).applied env fun _ => rests x decoded y member
    cases took : (t.seen.node.submit env x).1 with
    | true =>
      simp only [Option.filter_some, took, if_true]
      -- The nonce of what was accepted is spent, and its account is the only one that changed.
      have spent := Storage.Spent.accepted (accepted.mp took)
      constructor
      · intro y member
        rcases List.mem_cons.mp member with rfl | old
        · exact spent.same account
        · obtain ⟨before, alive⟩ := List.mem_filter.mp old
          refine ((spends.counted y before).applied env fun _ => ?_).same account
          exact of_decide_eq_true alive
      · intro y member
        have mine : y = x ∨ y ∈ t.owed := by
          cases leads : t.seen.node.producing <;>
            simpa [Tracked.owed, takes, role, leads, or_assoc] using member
        rcases mine with rfl | old
        · exact spent.same account
        · exact (owed y old).same account
    | false =>
      simp only [Option.filter_some, took, Bool.false_eq_true, if_false]
      -- What was refused changes no account.
      have refused : (t.seen.node.ext.applyExtrinsic env x).1 ≠ .ok (.ok ()) := fun ok => by
        simp [accepted.mpr ok] at took
      constructor
      · intro y member
        exact ((spends.counted y member).applied env fun ok => absurd ok refused).same account
      · intro y member
        refine (owed y ?_).same account
        simpa only [Tracked.owed, role] using member

/-- What was opened and what was included are owed alike. -/
theorem Spends.closes (spends : t.Spends) (producing : t.seen.node.producing = true)
    (account : seen.node.ext.account = t.seen.node.ext.account) : (t.closes seen).Spends := by
  refine spends.kept account (fun _ => id) fun x member => spends.owed x ?_
  have inside : x ∈ t.contents.included ++ t.opened := by
    cases later : seen.node.producing with
    | true => simpa [Tracked.owed, Tracked.closes, later] using member
    | false => simp [Tracked.owed, Tracked.closes, later] at member
  rw [Tracked.owed, if_pos producing]
  exact List.mem_append.mpr (List.mem_append.mp inside).symm

omit [DecidableEq A] in
theorem mem_owed_of_opened {x : UncheckedExtrinsic A} (opened : x ∈ t.opened) : x ∈ t.owed := by
  unfold Tracked.owed
  split
  · exact List.mem_append_left _ opened
  · exact opened

/-- Who takes up production owes what its state includes, and has counted it. -/
theorem Spends.leads (spends : t.Spends) (counts : t.CountsAll)
    (account : seen.node.ext.account = t.seen.node.ext.account) :
    ({ t with seen := seen } : Tracked A B H).Spends := by
  have included : ∀ x ∈ t.contents.included, t.seen.node.ext.Spent x := by
    intro x member
    rcases counts x member with counted | dead
    · exact spends.counted x counted
    · intro a found
      rw [dead] at found
      cases found
  refine spends.kept account (fun _ => id) fun x member => ?_
  have inside : x ∈ t.opened ∨ x ∈ t.contents.included := by
    cases later : seen.node.producing with
    | true => simpa [Tracked.owed, later] using member
    | false => exact .inl (by simpa [Tracked.owed, later] using member)
  rcases inside with mine | old
  · exact spends.owed x (mem_owed_of_opened mine)
  · exact included x old

/-- Who folds owes nothing before it takes up production. -/
theorem Spends.follows {c : Contents A} (follows : seen.node.producing = false)
    (counted : ∀ x ∈ c.counted, seen.node.ext.Spent x) :
    ({ seen := seen, contents := c } : Tracked A B H).Spends where
  counted := counted
  owed x member := by simp [Tracked.owed, follows] at member

end Tracked

namespace Node

variable {env : Env A B H} {n n' : Node A B H}

omit [DecidableEq A] in
theorem advance_account {at_ : Nat} {commits : Commits}
    (advanced : n.advance env at_ commits = some n') :
    n'.ext.account = n.ext.account := by
  obtain ⟨_, _, _, rfl⟩ := advance_eq advanced
  rw [drainAbsorb_eq]
  exact Storage.initializeBlock_account _ _

/-- Following the mesh is taking the role it decides. -/
theorem followMesh_takes {now : Nat} {commits : Bool}
    (followed : n.followMesh env now commits = some n') :
    ∃ m, (n.saveHard env commits).takeRole env n.mesh.isLeader = some m ∧
      n'.ext = m.ext ∧ n'.producing = m.producing ∧ n'.store = m.store := by
  simp only [followMesh, Option.bind_eq_bind, Option.bind_eq_some_iff, Option.pure_def,
    Option.some.injEq] at followed
  obtain ⟨m, taken, rfl⟩ := followed
  have decided : (n.saveHard env commits).mesh.isLeader = n.mesh.isLeader := by
    rw [saveHard_eq]
    rfl
  rw [decided] at taken
  refine ⟨m, taken, ?_⟩
  unfold takeRoute
  simp only
  split <;> exact ⟨rfl, rfl, rfl⟩

theorem followMesh_producing {now : Nat} {commits : Bool}
    (followed : n.followMesh env now commits = some n') : n'.producing = n.mesh.isLeader := by
  obtain ⟨m, taken, _, role, _⟩ := followMesh_takes followed
  exact role.trans (takeRole_producing taken).1

/-- Unless production is given up, following the mesh lets accounts be. -/
theorem followMesh_account {now : Nat} {commits : Bool}
    (followed : n.followMesh env now commits = some n')
    (keeps : (n.producing && !n.mesh.isLeader) = false) : n'.ext.account = n.ext.account := by
  obtain ⟨m, taken, ext, _, _⟩ := followMesh_takes followed
  have saved : (n.saveHard env commits).ext = n.ext ∧
      (n.saveHard env commits).producing = n.producing := by
    rw [saveHard_eq]
    exact ⟨rfl, rfl⟩
  rw [ext]
  unfold takeRole at taken
  rw [saved.2, Bool.and_comm (!n.mesh.isLeader), keeps] at taken
  split at taken
  · obtain rfl := Option.some.inj taken
    rw [drainAbsorb_eq, ← saved.1]
    exact Storage.tickNow_account _ _
  · obtain rfl := Option.some.inj taken
    rw [saved.1]

/-- Giving up production rebuilds the state. -/
theorem followMesh_rebuilds [DecidableEq B] {l : Ledger A B} (sound : l.Sound env) {now : Nat}
    {commits : Bool} (followed : n.followMesh env now commits = some n')
    (demoted : (n.producing && !n.mesh.isLeader) = true) :
    ∀ x ∈ (l.rebuilds env n'.store).counted, n'.ext.Spent x := by
  obtain ⟨m, taken, ext, _, store⟩ := followMesh_takes followed
  have role : (n.saveHard env commits).producing = n.producing := by
    rw [saveHard_eq]
  have given : n.mesh.isLeader = false := by simpa using (Bool.and_eq_true_iff.mp demoted).2
  unfold takeRole at taken
  rw [role, Bool.and_comm (!n.mesh.isLeader), demoted, given] at taken
  rw [store, ext]
  exact reloadFromStore_spent sound taken

end Node

namespace Tracked

variable [DecidableEq B] [DecidableEq H] {env : Env A B H} {l : Ledger A B} {t t' : Tracked A B H}

omit [DecidableEq H] in
/-- An event that passes the member by changes nothing. -/
theorem after_idle {e : NodeEvent B H} (idles : t.seen.Idles e) :
    t.after l env e t.seen = t := by
  cases e with
  | accept bytes => simp only [after, accepts, show t.seen.node.producing = false from idles]; rfl
  | close at_ commits =>
    simp only [after, show t.seen.node.producing = false from idles]
    rfl
  | append height body commits => exact if_pos idles
  | adopt height state commits => exact if_pos idles
  | rewind fork => exact if_pos idles
  | queue _ _ _ | mempoolHere _ _ | mempoolAnswered _ _ | mesh _ _ _ => exact idles.elim

/-- The step lemma: one case per event. -/
theorem step_spends {e : NodeEvent B H} (sound : l.Sound env) (spends : t.Spends)
    (guarded : t.Guarded env e) (stepped : t.step l env e = some t') : t'.Spends := by
  obtain ⟨seen, happened, rfl⟩ := Option.map_eq_some_iff.mp stepped
  cases Witnessed.step_steps happened with
  | idle idles =>
    rw [after_idle idles]
    exact spends
  | @accept bytes producing =>
    have stays : t.seen.node.Stays (fun _ _ => False) (t.seen.node.acceptHere env bytes) :=
      .acceptHere _ bytes
    simp only [after, accepts, producing, if_true]
    refine spends.executes (fun unread => ?_) (fun x read => ?_) ?_ (guarded producing)
    · rw [Handing.executed_node]
      simp [Node.acceptHere, unread]
    · rw [Handing.executed_node]
      exact (Node.acceptHere_frame read producing).2
    · rw [Handing.executed_node]
      exact stays.producing
  | queue hash bytes now =>
    have stays : t.seen.node.Stays (fun _ _ => False) (t.seen.node.mempoolInsert hash bytes now) :=
      .mempoolInsert _ hash bytes now
    exact spends.moves (congrArg Storage.account (Node.mempoolInsert_frame ..).2) stays.producing
  | mempoolHere hash bytes =>
    have stays : t.seen.node.Stays (fun _ _ => False) (t.seen.node.mempoolHere env hash bytes) :=
      .mempoolHere _ hash bytes
    refine spends.executes (fun unread => ?_) (fun x read => ?_) ?_ guarded
    · rw [Handing.executed_node]
      simp [Node.mempoolHere, unread, Node.mempoolRemove]
    · rw [Handing.executed_node]
      exact (Node.mempoolHere_frame read).2
    · rw [Handing.executed_node]
      exact stays.producing
  | mempoolAnswered hash answer =>
    have stays : t.seen.node.Stays (fun _ _ => False) (t.seen.node.mempoolAnswered hash answer) :=
      .mempoolAnswered _ hash answer
    refine spends.moves ?_ stays.producing
    cases answer with
    | pending => rfl
    | applied height =>
      simp only [Node.mempoolAnswered]
      rw [Node.setTxStatus_eq]
    | «sealed» height =>
      simp only [Node.mempoolAnswered, Node.mempoolRemove]
      rw [Node.setTxStatus_eq]
  | close producing advanced =>
    simp only [after, producing, if_true]
    exact spends.closes producing (Node.advance_account advanced)
  | @mesh decided now commits n followed =>
    have role : n.producing = decided.isLeader := Node.followMesh_producing followed
    by_cases demoted : (t.seen.node.producing && !decided.isLeader) = true
    -- Who gives up production folds its log again, and owes nothing any more.
    · simp only [after, demoted, if_true]
      refine .follows ?_ (Node.followMesh_rebuilds sound followed demoted)
      have given := (Bool.and_eq_true_iff.mp demoted).2
      exact role.trans (by simpa using given)
    · have account := Node.followMesh_account (n := { t.seen.node with mesh := decided }) followed
        (by simpa using demoted)
      simp only [after, demoted]
      by_cases promoted : (decided.isLeader && !t.seen.node.producing) = true
      · exact spends.leads (guarded promoted) account
      · refine spends.moves account (role.trans ?_)
        revert demoted promoted
        cases decided.isLeader <;> cases t.seen.node.producing <;> simp
  | refused follows refused =>
    simp only [after, follows, refused]
    exact spends
  -- Who follows owes nothing; what it counted is spent in the log it folds.
  | @append height body commits u store effects at_ n follows taken opened applied =>
    have stays : n.producing = t.seen.node.producing := by rw [Node.applyBlock_eq applied]
    have before : ∀ x ∈ t.contents.counted,
        ({ t.seen.node with store := store } : Node A B H).ext.Spent x := spends.counted
    have spent : ∀ x ∈ (l.folds env t.contents height body).counted, n.ext.Spent x :=
      Node.applyBlock_spent before opened applied
    simp only [after, follows, taken]
    refine .follows ?_ ?_
    · simp only [Witnessed.replaced]
      rw [Node.saveHard_eq]
      exact stays.trans follows
    · simp only [Witnessed.replaced]
      rw [Node.saveHard_eq]
      exact spent
  | @adopt height state commits n follows reloaded =>
    have stays : n.producing = t.seen.node.producing := by
      rw [Node.reloadFromStore_refolded reloaded]
    have spent := Node.reloadFromStore_spent sound reloaded
    simp only [after, follows]
    refine .follows ?_ ?_
    · simp only [Witnessed.replaced]
      rw [Node.saveHard_eq]
      exact stays.trans follows
    · simp only [Witnessed.replaced]
      rw [Node.saveHard_rebuilds, Node.saveHard_eq]
      exact spent
  | @rewind fork n follows reloaded =>
    have stays : n.producing = t.seen.node.producing := by
      rw [Node.reloadFromStore_refolded reloaded]
    simp only [after, follows]
    exact .follows (stays.trans follows) (Node.reloadFromStore_spent sound reloaded)

end Tracked

namespace Members

variable [DecidableEq B] [DecidableEq H] {env : Env A B H} {ms : Members A B H}

/-- No compaction counts what its state has not spent, and no member owes what it has not. -/
structure Inv (env : Env A B H) (ms : Members A B H) : Prop where
  ledger : ms.ledger.Sound env
  member : ∀ who t, ms.member who = some t → t.Spends

omit [DecidableEq B] [DecidableEq H] in
/-- A compaction counts what its primary counted. -/
theorem grows_sound {l : Ledger A B} {t : Tracked A B H} (sound : l.Sound env) (spends : t.Spends)
    (e : NodeEvent B H) : (l.grows env t e).Sound env := by
  cases e with
  | close at_ commits =>
    intro c member s decoded
    simp only [Ledger.grows] at member
    split at member
    · exact sound c member s decoded
    · simp only at member
      split at member
      · rcases List.mem_cons.mp member with rfl | old
        · obtain rfl := Option.some.inj ((env.decodeSnapshot_encodeSnapshot _).symm.trans decoded)
          exact spends.counted
        · exact sound c old s decoded
      · exact sound c member s decoded
  | _ => exact sound

theorem step_inv (inv : Inv env ms) {e : MembersEvent B H} (guarded : ms.Guarded env e) :
    Inv env (ms.step env e) := by
  cases e with
  | node who e =>
    simp only [step]
    split
    · exact inv
    next t runs =>
      have spends := inv.member who t runs
      refine ⟨grows_sound inv.ledger spends e, fun other t' found => ?_⟩
      by_cases same : other = who
      -- This member took the step; the ledger knows what it wrote.
      · subst same
        simp only [Function.update_self] at found
        exact Tracked.step_spends inv.ledger spends (guarded t runs) found
      · simp only [Function.update_of_ne same] at found
        exact inv.member other t' found
  | start who store mesh =>
    refine ⟨inv.ledger, fun other t found => ?_⟩
    by_cases same : other = who
    · subst same
      simp only [step, Function.update_self] at found
      obtain ⟨n, opened, rfl⟩ := Option.map_eq_some_iff.mp found
      have idle : n.producing = false := by
        rw [Node.replay_refolded opened]
        rfl
      have stored : n.store = store := by
        rw [Node.replay_refolded opened]
        rfl
      -- A process that starts folds what is on its disk, and owes nothing yet.
      have spent := Node.replay_spent inv.ledger opened
      refine .follows idle fun x counted => spent x ?_
      rw [← stored]
      exact counted
    · simp only [step, Function.update_of_ne same] at found
      exact inv.member other t found

omit [DecidableEq B] [DecidableEq H] in
/-- Who owes only what is spent refuses all of it. -/
theorem Inv.refuses (inv : Inv env ms) : ms.Refuses env := by
  intro who t runs producing x included
  refine Storage.Spent.refused ((inv.member who t runs).owed x ?_) env
  rw [Tracked.owed, if_pos producing]
  exact List.mem_append_right _ included

/-! ## Every run -/

/-- In every run of the members, from the first process started on, that meets the condition, every
primary refuses whatever its state already includes. -/
theorem replay_protected (env : Env A B H) (events : List (MembersEvent B H))
    (guarded : Machine.Meets (step env) (Guarded env) {} events) :
    (Machine.run (step env) {} events).Refuses env := by
  have inv : Inv env (Machine.run (step env) {} events) := by
    refine Machine.run_invariant (Inv env) (fun _ _ inv ok => step_inv inv ok) ?_ guarded
    exact ⟨by simp [Ledger.Sound], by simp⟩
  exact inv.refuses

/-! ## A member alone -/

/-- What a process leaves on its disk. -/
def disk (ms : Members A B H) (who : Name) : Store B B :=
  match ms.member who with
  | some t => t.seen.node.store.reopen
  | none => .openDb Store.emptyDb

/-- Nami is elected. -/
def elects : MembersEvent (Plain Nat) (Plain Nat) := .node "nami" (.mesh soloMeshElected 0 true)

/-- Nami's first block. -/
def seals (extrinsics : List (Plain Nat)) : List (MembersEvent (Plain Nat) (Plain Nat)) :=
  [.start "nami" (.openDb Store.emptyDb) soloMesh, elects] ++
    extrinsics.map (fun x => .node "nami" (.accept x)) ++ [.node "nami" (.close 7 {})]

/-- Its process is started again on the disk it left, and it is elected again. -/
def restarts (env : Env Nat (Plain Nat) (Plain Nat))
    (events : List (MembersEvent (Plain Nat) (Plain Nat))) :
    List (MembersEvent (Plain Nat) (Plain Nat)) :=
  events ++ [.start "nami" ((Machine.run (step env) {} events).disk "nami") soloMesh, elects]

def opening : UncheckedExtrinsic Nat := ⟨0, 0, .openParent "build"⟩

/-- The log was compacted at the block, so the nonces come back with the state. -/
theorem replay_protected_compacted :
    let ms := Machine.run (step soloEnv) {}
      (restarts soloEnv (seals [openTask, .extrinsic ⟨0, 1, .requestCompaction⟩]))
    (∃ t, ms.member "nami" = some t ∧ t.seen.node.producing = true ∧
      opening ∈ t.contents.included) ∧ ms.Refuses soloEnv := by
  intro ms
  refine ⟨?_, replay_protected soloEnv _ (by decide +kernel)⟩
  have told : (ms.member "nami").bind (fun t =>
      if t.seen.node.producing = true ∧ opening ∈ t.contents.included then some () else none) =
        some () := by decide +kernel
  obtain ⟨t, runs, told⟩ := Option.bind_eq_some_iff.mp told
  exact ⟨t, runs, (Option.ite_none_right_eq_some.mp told).1⟩

/-- The block was folded from the log, so the nonces are those of genesis: the transaction is
accepted a second time. -/
theorem replay_protected_restarted :
    ¬ (Machine.run (step soloEnv) {} (restarts soloEnv (seals [openTask]))).Refuses soloEnv := by
  intro refuses
  have told : ((Machine.run (step soloEnv) {} (restarts soloEnv (seals [openTask]))).member
      "nami").bind (fun t => if t.seen.node.producing = true ∧ opening ∈ t.contents.included ∧
        (t.seen.node.submit soloEnv opening).1 = true then some () else none) =
          some () := by decide +kernel
  obtain ⟨t, runs, told⟩ := Option.bind_eq_some_iff.mp told
  obtain ⟨⟨producing, included, accepted⟩, _⟩ := Option.ite_none_right_eq_some.mp told
  obtain ⟨e, refused⟩ := refuses "nami" t runs producing opening included
  have taken := (Node.submit_applied t.seen.node soloEnv opening).2.mp accepted
  rw [refused] at taken
  cases taken

def meows : UncheckedExtrinsic Nat := ⟨5, 0, .say none "meow" true false⟩

/-- Root revokes the patron it approved, and approves it again. -/
def approvesTwice : List (UncheckedExtrinsic Nat) :=
  let carries := LitterCall.carryPatronRequest 5 "guest" "hello" (Vector.replicate 64 0)
  [⟨0, 0, carries⟩, ⟨0, 1, .approvePatron 5⟩, meows, ⟨0, 2, .revokePatron 5⟩, ⟨0, 3, carries⟩,
    ⟨0, 4, .approvePatron 5⟩]

/-- The patron's nonce died with its account: what it said first can be said again. -/
example :
    let env := Env.plain { verify := fun _ _ _ => true } 0 1 [("root", 0), ("lead", 1)]
    let ms := Machine.run (step env) {} (seals (approvesTwice.map .extrinsic))
    (ms.member "nami").bind (fun t =>
      if t.seen.node.producing = true ∧ meows ∈ t.contents.included ∧
        (t.seen.node.submit env meows).1 = true then some () else none) = some () := by
  decide +kernel

end Members

end AkumaMiot

import AkumaMiot.Litter.Accounts
import AkumaMiot.Node.Frames
import AkumaMiot.Store.Log

/-!
# Spent nonces

An extrinsic is spent in a state whose nonce for the signer is past the extrinsic's. A spent
extrinsic is refused, and stays spent for as long as nothing brings the signer's account to life
again. Executing an extrinsic spends it. Folding the block it is in does not.
-/
namespace AkumaMiot

variable {A B H : Type} [DecidableEq A]

namespace Storage

/-- The signer's nonce is past the extrinsic's, if there is a signer. -/
def Spent (s : Storage A) (x : UncheckedExtrinsic A) : Prop :=
  ∀ a, s.account.lookup x.signer = some a → x.nonce < a.nonce

/-- Whose account an extrinsic brings to life if it is submitted: that of the patron it
approves. -/
def revives (s : Storage A) (env : Env A B H) (x : UncheckedExtrinsic A) : Option A :=
  match x.call with
  | .approvePatron who =>
    if env.admits s x ∧ (s.checkNonce x.signer x.nonce).isOk ∧
        (s.isRoot x.signer ∨ s.isPatron x.signer) ∧ (s.patronRequests.lookup who).isSome ∧
        s.account.lookup who = none then some who
    else none
  | _ => none

/-! ## Staying spent -/

section Spent

variable {s s' : Storage A} {x y : UncheckedExtrinsic A}

theorem Spent.refused (spent : s.Spent x) (env : Env A B H) :
    ∃ e, s.applyExtrinsic env x = (.error e, s) := by
  have stale : ∃ e, s.checkNonce x.signer x.nonce = .error e := by
    unfold checkNonce
    cases found : s.account.lookup x.signer with
    | none => exact ⟨_, rfl⟩
    | some a =>
      simp only [spent a found, if_true]
      split <;> exact ⟨_, rfl⟩
  obtain ⟨e, stale⟩ := stale
  unfold applyExtrinsic
  split
  · exact ⟨_, rfl⟩
  · exact ⟨e, by simp only [stale]⟩

theorem Spent.ages {born : A → Prop} (spent : s.Spent x) (ages : Ages s.account s'.account born)
    (unborn : s.account.lookup x.signer = none → ¬ born x.signer) : s'.Spent x := by
  intro a found
  rcases ages x.signer a found with ⟨old, was, le⟩ | ⟨none, alive⟩
  · exact (spent old was).trans_le le
  · exact absurd alive (unborn none)

theorem Spent.same (spent : s.Spent x) (same : s'.account = s.account) : s'.Spent x := by
  intro a found
  rw [same] at found
  exact spent a found

/-- Folding keeps spent what nobody it approves has signed. -/
theorem Spent.folded (spent : s.Spent x) (rt : Runtime A) {effects : List (Effect A)}
    (now : BlockNumber) (unborn : ∀ e ∈ effects, approves e ≠ some x.signer) :
    (effects.foldl (fun s e => s.replayEffect rt e now) s).Spent x := by
  induction effects generalizing s with
  | nil => exact spent
  | cons e es ih =>
    have first : (s.replayEffect rt e now).Spent x :=
      spent.ages (replayEffect_ages s rt e now) fun _ => unborn e (by simp)
    exact ih first fun other member => unborn other (by simp [member])

/-! ## Being spent -/

/-- What `CheckNonce` leaves of the state: the signer's nonce is counted. -/
theorem checkNonce_counts {who : A} {nonce : Nat} (checked : s.checkNonce who nonce = .ok s') :
    ∃ a, s.account.lookup who = some a ∧ a.nonce = nonce ∧
      s' = { s with account := s.account.insert who { a with nonce := nonce + 1 } } := by
  unfold checkNonce at checked
  split at checked
  · cases checked
  next a found =>
    split at checked
    · cases checked
    · split at checked
      · cases checked
      next notStale =>
        split at checked
        · cases checked
        next notFuture =>
          exact ⟨a, found, by omega, (Except.ok.inj checked).symm⟩

/-- An extrinsic is refused and nothing happens, or it is counted and then dispatched. -/
theorem applyExtrinsic_cases (s : Storage A) (env : Env A B H) (x : UncheckedExtrinsic A) :
    (∃ e, s.applyExtrinsic env x = (.error e, s)) ∨
      ∃ m, env.admits s x = true ∧ s.checkNonce x.signer x.nonce = .ok m ∧
        ((∃ s', m.dispatch env.rt (.signed x.signer) x.call = .ok s' ∧
            s.applyExtrinsic env x = (.ok (.ok ()), s')) ∨
          ∃ e, s.applyExtrinsic env x = (.ok (.error e), m)) := by
  unfold applyExtrinsic
  cases admitted : env.admits s x with
  | false => exact .inl ⟨_, rfl⟩
  | true =>
    cases checked : s.checkNonce x.signer x.nonce with
    | error e => exact .inl ⟨e, rfl⟩
    | ok m =>
      refine .inr ⟨m, rfl, rfl, ?_⟩
      cases dispatched : m.dispatch env.rt (.signed x.signer) x.call with
      | error e => exact .inr ⟨e, by simp [dispatched]⟩
      | ok s' => exact .inl ⟨s', rfl, by simp [dispatched]⟩

/-- Counting a nonce only moves the signer's, and moves it on. -/
theorem checkNonce_ages {who : A} {nonce : Nat} (checked : s.checkNonce who nonce = .ok s') :
    Ages s.account s'.account fun _ => False := by
  obtain ⟨a, found, counted, rfl⟩ := checkNonce_counts checked
  intro other info now
  by_cases same : other = who
  · subst same
    rw [Finmap.lookup_insert] at now
    obtain rfl := Option.some.inj now
    exact .inl ⟨a, found, by simp only; omega⟩
  · rw [Finmap.lookup_insert_of_ne _ same] at now
    exact .inl ⟨info, now, Nat.le_refl _⟩

/-- The account a call brings to life is the one its extrinsic was said to revive. -/
theorem dispatch_revives {m : Storage A} {env : Env A B H} (admitted : env.admits s x = true)
    (checked : s.checkNonce x.signer x.nonce = .ok m)
    (accepted : m.dispatch env.rt (.signed x.signer) x.call = .ok s') {who : A}
    (approved : approvesCall x.call = some who) (dead : m.account.lookup who = none) :
    s.revives env x = some who := by
  obtain ⟨a, found, _, rfl⟩ := checkNonce_counts checked
  have stranger : who ≠ x.signer := by
    rintro rfl
    rw [Finmap.lookup_insert] at dead
    cases dead
  have never : s.account.lookup who = none := by
    rwa [Finmap.lookup_insert_of_ne _ stranger] at dead
  cases called : x.call with
  | approvePatron requester =>
    rw [called] at approved accepted
    obtain rfl := Option.some.inj approved
    cases dispatch_accepted accepted with
    | verb _ is_ => cases is_
    | own passes recorded =>
      obtain ⟨r, pending, _⟩ := Option.map_eq_some_iff.mp recorded
      have known : (s.patronRequests.lookup requester).isSome = true := by
        rw [show s.patronRequests.lookup requester = some r from pending]
        rfl
      have allowed : s.isRoot x.signer = true ∨ s.isPatron x.signer = true := passes
      simp only [revives, called]
      exact if_pos ⟨admitted, by rw [checked]; rfl, allowed, known, never⟩
  | _ =>
    rw [called] at approved
    cases approved

/-- An extrinsic leaves spent what is not signed by the account it revives. -/
theorem Spent.applied (spent : s.Spent y) (env : Env A B H)
    (unborn : (s.applyExtrinsic env x).1 = .ok (.ok ()) → s.revives env x ≠ some y.signer) :
    (s.applyExtrinsic env x).2.Spent y := by
  rcases applyExtrinsic_cases s env x with ⟨e, refused⟩ | ⟨m, admitted, checked, answer⟩
  · rw [refused]
    exact spent
  · have counted : m.Spent y := spent.ages (checkNonce_ages checked) fun _ => id
    rcases answer with ⟨s', accepted, answer⟩ | ⟨e, answer⟩
    · rw [answer] at unborn ⊢
      refine counted.ages (dispatch_ages accepted) fun dead approved => unborn rfl ?_
      exact dispatch_revives admitted checked accepted approved dead
    · rw [answer]
      exact counted

/-- An accepted extrinsic is spent. -/
theorem Spent.accepted {env : Env A B H} (accepted : (s.applyExtrinsic env x).1 = .ok (.ok ())) :
    (s.applyExtrinsic env x).2.Spent x := by
  rcases applyExtrinsic_cases s env x with ⟨e, refused⟩ | ⟨m, admitted, checked, answer⟩
  · simp [refused] at accepted
  · obtain ⟨a, found, same, rfl⟩ := checkNonce_counts checked
    rcases answer with ⟨s', dispatched, answer⟩ | ⟨e, answer⟩
    · rw [answer]
      refine Spent.ages (fun info now => ?_) (dispatch_ages dispatched) fun dead => ?_
      · rw [Finmap.lookup_insert] at now
        obtain rfl := Option.some.inj now
        exact Nat.lt_succ_self _
      · rw [Finmap.lookup_insert] at dead
        cases dead
    · simp [answer] at accepted

end Spent

end Storage

/-! ## What a state includes -/

/-- The sealed extrinsics whose effects a state includes, and those its nonces count. -/
structure Contents (A : Type) where
  included : List (UncheckedExtrinsic A) := []
  counted : List (UncheckedExtrinsic A) := []

/-- A block some primary sealed, with what it had accepted into it. -/
structure SealedBlock (A B : Type) where
  height : Nat
  body : B
  accepted : List (UncheckedExtrinsic A)

/-- A state some primary compacted its log to. -/
structure Compaction (A B : Type) where
  state : B
  contents : Contents A

/-- Every block sealed so far, and every compaction. Blocks and states are known by what they
are, wherever they are found. -/
structure Ledger (A B : Type) where
  blocks : List (SealedBlock A B) := []
  compactions : List (Compaction A B) := []

/-- The patrons a body approves. -/
def Env.approvals (env : Env A B H) (body : B) : List A :=
  match env.openBody body with
  | some (effects, _) => effects.filterMap Storage.approves
  | none => []

namespace Ledger

variable [DecidableEq B]

/-- What a block's primary had accepted into it. -/
def accepted (l : Ledger A B) (height : Nat) (body : B) : List (UncheckedExtrinsic A) :=
  (l.blocks.filter fun b => b.height = height ∧ b.body = body).flatMap (·.accepted)

/-- What a compacted state includes and counts. -/
def compacted (l : Ledger A B) (state : B) : Contents A :=
  let found := l.compactions.filter fun c => c.state = state
  ⟨found.flatMap (·.contents.included), found.flatMap (·.contents.counted)⟩

/-- Folding a block includes what is in it and counts none of that. What was counted of an account
that the block gives life to is counted no more. -/
def folds (l : Ledger A B) (env : Env A B H) (c : Contents A) (height : Nat) (body : B) :
    Contents A where
  included := c.included ++ l.accepted height body
  counted := c.counted.filter fun x => x.signer ∉ env.approvals body

def foldsStored (l : Ledger A B) (env : Env A B H) (store : Store B B) (c : Contents A)
    (height : Nat) : Contents A :=
  match store.block height with
  | some body => l.folds env c height body
  | none => c

/-- What a state includes and counts that was rebuilt from a store. -/
def rebuilds (l : Ledger A B) (env : Env A B H) (store : Store B B) : Contents A :=
  let base := (store.checkpointState.map l.compacted).getD {}
  (Store.heights (store.lastCheckpoint + 1) store.head).foldl (l.foldsStored env store) base

/-- Nothing a compaction counts is unspent in its state. -/
def Sound (l : Ledger A B) (env : Env A B H) : Prop :=
  ∀ c ∈ l.compactions, ∀ s, env.decodeSnapshot c.state = some s →
    ∀ x ∈ c.contents.counted, s.Spent x

end Ledger

namespace Node

variable {env : Env A B H} {n n' : Node A B H}

/-- What a submitted extrinsic leaves of the accounts, and when it is accepted. -/
theorem submit_applied (n : Node A B H) (env : Env A B H) (x : UncheckedExtrinsic A) :
    (n.submit env x).2.ext.account = (n.ext.applyExtrinsic env x).2.account ∧
      ((n.submit env x).1 = true ↔ (n.ext.applyExtrinsic env x).1 = .ok (.ok ())) := by
  unfold submit
  cases applied : n.ext.applyExtrinsic env x with
  | mk r ext =>
    simp only
    rw [drainAbsorb_eq]
    split
    · exact ⟨rfl, by simp⟩
    next refused => exact ⟨rfl, by simpa using refused⟩

/-! ## Rebuilding -/

theorem applyBlock_account {height : Nat} {effects : List (Effect A)} {at_ : Option Nat}
    (applied : n.applyBlock env height effects at_ = some n') :
    n'.ext.account =
      (effects.foldl (fun s e => s.replayEffect env.rt e n.ext.now) n.ext).account := by
  obtain ⟨m, opened, rfl⟩ := Option.map_eq_some_iff.mp applied
  rw [initializeBlock_eq opened, absorb_eq]
  exact Storage.initializeBlock_account _ _

omit [DecidableEq A] in
theorem restoreFromSnapshot_account {height : Nat} {blob : B}
    (restored : n.restoreFromSnapshot env height blob = some n') :
    ∃ s, env.decodeSnapshot blob = some s ∧ n'.ext.account = s.account := by
  simp only [restoreFromSnapshot, Option.bind_eq_bind, Option.bind_eq_some_iff, Option.pure_def,
    Option.some.injEq] at restored
  obtain ⟨s, decoded, m, opened, rfl⟩ := restored
  refine ⟨s, decoded, ?_⟩
  rw [initializeBlock_eq opened]
  exact Storage.initializeBlock_account _ _

variable [DecidableEq B] {l : Ledger A B}

/-- Folding a block leaves spent what it leaves counted. -/
theorem applyBlock_spent {c : Contents A} (spent : ∀ x ∈ c.counted, n.ext.Spent x) {height : Nat}
    {body : B} {effects : List (Effect A)} {at_ : Option Nat}
    (opened : env.openBody body = some (effects, at_))
    (applied : n.applyBlock env height effects at_ = some n') :
    ∀ x ∈ (l.folds env c height body).counted, n'.ext.Spent x := by
  intro x counted
  obtain ⟨before, unborn⟩ := List.mem_filter.mp counted
  refine Storage.Spent.same ?_ (applyBlock_account applied)
  refine (spent x before).folded env.rt n.ext.now fun e member approved => ?_
  have listed : x.signer ∈ env.approvals body := by
    simp only [Env.approvals, opened]
    exact List.mem_filterMap.mpr ⟨e, member, approved⟩
  simp [listed] at unborn

theorem replayBlocks_spent {hs : List Nat} {c : Contents A}
    (spent : ∀ x ∈ c.counted, n.ext.Spent x) (replayed : replayBlocks env n hs = some n') :
    ∀ x ∈ (hs.foldl (l.foldsStored env n.store) c).counted, n'.ext.Spent x := by
  induction hs generalizing n c with
  | nil =>
    obtain rfl := Option.some.inj replayed
    exact spent
  | cons h hs ih =>
    simp only [replayBlocks, Option.bind_eq_bind, Option.bind_eq_some_iff] at replayed
    obtain ⟨body, stored, ⟨effects, at_⟩, opened, m, applied, replayed⟩ := replayed
    have store : m.store = n.store := by rw [applyBlock_eq applied]
    have first : l.foldsStored env n.store c h = l.folds env c h body := by
      simp only [Ledger.foldsStored, stored]
    rw [List.foldl_cons, first, ← store]
    exact ih (applyBlock_spent (n := { n with block := h }) spent opened applied) replayed

/-- Whatever a state is rebuilt over, it has spent what its checkpoint counts and no later block
undoes. -/
theorem replay_spent (sound : l.Sound env) (replayed : n.replay env = some n') :
    ∀ x ∈ (l.rebuilds env n.store).counted, n'.ext.Spent x := by
  unfold replay at replayed
  simp only [Option.bind_eq_bind] at replayed
  unfold Ledger.rebuilds
  split at replayed
  next compacted =>
    obtain ⟨m, restored, replayed⟩ := Option.bind_eq_some_iff.mp replayed
    obtain ⟨blob, found, restored⟩ := Option.bind_eq_some_iff.mp restored
    obtain ⟨s, decoded, account⟩ := restoreFromSnapshot_account restored
    have store : m.store = n.store := by rw [restoreFromSnapshot_eq restored]
    rw [found]
    rw [← store] at replayed ⊢
    refine replayBlocks_spent (fun x counted => ?_) replayed
    obtain ⟨c, member, told⟩ := List.mem_flatMap.mp counted
    obtain ⟨known, same⟩ := List.mem_filter.mp member
    obtain rfl := of_decide_eq_true same
    exact (sound c known s decoded x told).same account
  next below =>
    have base : n.store.checkpointState = none := if_pos (by omega)
    rw [base]
    exact replayBlocks_spent (by simp) replayed

theorem reloadFromStore_spent (sound : l.Sound env)
    (reloaded : n.reloadFromStore env = some n') :
    ∀ x ∈ (l.rebuilds env n'.store).counted, n'.ext.Spent x := by
  have store : n'.store = n.store := by rw [reloadFromStore_refolded reloaded]
  have spent := replay_spent (l := l) sound reloaded
  rw [store]
  exact spent

/-- A rebuild reads heights, blocks and the checkpoint. -/
theorem saveHard_rebuilds (commits : Bool) :
    l.rebuilds env (n.saveHard env commits).store = l.rebuilds env n.store := by
  unfold saveHard
  cases dirty : n.mesh.takeDirty with
  | mk hard mesh =>
    cases hard with
    | none => rfl
    | some h =>
      cases commits with
      | false => rfl
      | true =>
        let store := (n.store.putAux true auxMesh (env.encodeHard h)).2
        have block : store.block = n.store.block :=
          funext fun height => Store.putAux_other _ _ _ (Store.block_ne_auxKey height auxMesh)
        have state : store.checkpointState = n.store.checkpointState :=
          if_congr Iff.rfl rfl
            (Store.putAux_other _ _ _ (Store.checkpoint_ne_auxKey _ auxMesh))
        have reads : l.foldsStored env store = l.foldsStored env n.store := by
          funext c height
          unfold Ledger.foldsStored
          rw [block]
        unfold Ledger.rebuilds
        rw [reads, state]
        rfl

end Node

end AkumaMiot

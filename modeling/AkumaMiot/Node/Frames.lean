import AkumaMiot.Litter.Fold
import AkumaMiot.Node.Node

/-!
# What a node's steps leave alone

Each step changes a few fields and says which. A node is seated when the block it has open is
the one its chain state has open; that is what opening the next block asserts, so a seated
node never panics there.
-/
namespace AkumaMiot

variable {A B H : Type}

namespace Node

/-- Absorbing numbers the entries and adds what is on the record to the open block. -/
theorem absorb_eq (n : Node A B H) (effects : List (Effect A)) :
    n.absorb effects = { n with
      seq := n.seq + effects.length
      log := (n.absorb effects).log
      pending := n.pending ++ effects.filter fun e => !offRecord e } := by
  induction effects generalizing n with
  | nil => simp [absorb]
  | cons e es ih =>
    have one : n.absorb (e :: es) = (n.absorbOne e).absorb es := rfl
    rw [one, ih]
    have counted : n.seq + 1 + es.length = n.seq + (es.length + 1) := by omega
    by_cases off : offRecord e = true
    · simp [absorbOne, off, counted]
    · simp [absorbOne, off, counted]

theorem drainAbsorb_eq (n : Node A B H) :
    n.drainAbsorb = { n with
      ext := { n.ext with events := [] }
      seq := n.seq + n.ext.events.length
      log := n.drainAbsorb.log
      pending := n.pending ++ n.ext.events.filter fun e => !offRecord e } := by
  have absorbed := absorb_eq n.drain.2 n.drain.1
  exact absorbed

theorem saveHard_eq (n : Node A B H) (env : Env A B H) (commits : Bool) :
    n.saveHard env commits = { n with
      mesh := n.mesh.takeDirty.2
      store := (n.saveHard env commits).store } := by
  unfold saveHard
  cases saved : n.mesh.takeDirty with
  | mk hard mesh =>
    cases hard with
    | some h => rfl
    | none => rfl

theorem initializeBlock_eq {n n' : Node A B H} {env : Env A B H}
    (opened : n.initializeBlock env = some n') :
    n' = { n with ext := n.ext.initializeBlock env.rt } := by
  unfold initializeBlock at opened
  split at opened
  · exact (Option.some.inj opened).symm
  · simp at opened

theorem initializeBlock_next {n : Node A B H} (env : Env A B H)
    (next : n.block = n.ext.blockNumber + 1) :
    n.initializeBlock env = some { n with ext := n.ext.initializeBlock env.rt } := if_pos next

theorem setTxStatus_eq [DecidableEq H] (n : Node A B H) (hash : H) (st : TxState) :
    n.setTxStatus hash st = { n with
      txStatus := (n.setTxStatus hash st).txStatus
      txStatusOrder := (n.setTxStatus hash st).txStatusOrder } := by
  unfold setTxStatus
  simp only
  split
  · rfl
  · split
    · split <;> rfl
    · rfl

/-! ## Closing -/

theorem persist_eq (n : Node A B H) (env : Env A B H) (height at_ : Nat) (commits : Commits) :
    n.persist env height at_ commits = { n with
      log := (n.persist env height at_ commits).log
      store := (n.persist env height at_ commits).store
      mesh := (n.persist env height at_ commits).mesh
      pending := [] } := by
  unfold persist stampBlock
  simp only
  split
  · rw [saveHard_eq]
  · rfl

/-- A close forgets the buffer, settles the statuses and opens the next block. -/
theorem advance_eq {env : Env A B H} {n n' : Node A B H} {at_ : Nat} {commits : Commits}
    (advanced : n.advance env at_ commits = some n') :
    ∃ log store mesh, n' = drainAbsorb { n with
      ext := n.ext.initializeBlock env.rt
      log := log
      block := n.block + 1
      store := store
      pending := []
      pendingCompaction := false
      mesh := mesh
      txStatus := n.txStatus.mapValues (sealStatus n.block) } := by
  obtain ⟨m, opened, rfl⟩ := Option.map_eq_some_iff.mp advanced
  obtain rfl := initializeBlock_eq opened
  rw [persist_eq]
  simp only
  split
  · exact ⟨_, _, _, rfl⟩
  next none =>
    have same : n.pendingCompaction = false := by simpa using none
    exact ⟨_, _, _, by rw [same]⟩

/-! ## Folding -/

theorem restoreFromSnapshot_eq {n n' : Node A B H} {env : Env A B H} {height : Nat} {blob : B}
    (restored : n.restoreFromSnapshot env height blob = some n') :
    n' = { n with
      ext := n'.ext
      log := []
      seq := 0
      pending := []
      block := height + 1 } := by
  simp only [restoreFromSnapshot, Option.bind_eq_bind, Option.bind_eq_some_iff, Option.pure_def,
    Option.some.injEq] at restored
  obtain ⟨ext, _, m, opened, rfl⟩ := restored
  rw [initializeBlock_eq opened]
  rfl

/-- What folding a log may change. -/
def Refolded (n n' : Node A B H) : Prop :=
  n' = { n with
    ext := n'.ext
    log := n'.log
    seq := n'.seq
    pending := n'.pending
    block := n'.block
    pendingCompaction := n'.pendingCompaction }

theorem Refolded.refl (n : Node A B H) : n.Refolded n := rfl

theorem Refolded.trans {a b c : Node A B H} (first : a.Refolded b) (second : b.Refolded c) :
    a.Refolded c := by
  unfold Refolded at *
  rw [first] at second
  exact second

section Executing

variable [DecidableEq A]

theorem applyBlock_eq {n n' : Node A B H} {env : Env A B H} {height : Nat}
    {effects : List (Effect A)} {at_ : Option Nat}
    (applied : n.applyBlock env height effects at_ = some n') :
    n' = { n with
      ext := n'.ext
      log := n'.log
      seq := n'.seq
      pending := []
      block := height + 1 } := by
  obtain ⟨m, opened, rfl⟩ := Option.map_eq_some_iff.mp applied
  rw [initializeBlock_eq opened, absorb_eq]
  rfl

theorem replayBlocks_refolded {env : Env A B H} {n n' : Node A B H} {hs : List Nat}
    (replayed : replayBlocks env n hs = some n') : n.Refolded n' := by
  induction hs generalizing n with
  | nil =>
    obtain rfl := Option.some.inj replayed
    exact .refl n
  | cons h hs ih =>
    simp only [replayBlocks, Option.bind_eq_bind, Option.bind_eq_some_iff] at replayed
    obtain ⟨body, _, ⟨effects, at_⟩, _, m, applied, replayed⟩ := replayed
    have first : n.Refolded m := by
      rw [applyBlock_eq applied]
      rfl
    exact first.trans (ih replayed)

theorem replay_refolded {env : Env A B H} {n n' : Node A B H}
    (replayed : n.replay env = some n') : n.Refolded n' := by
  unfold replay at replayed
  simp only [Option.bind_eq_bind] at replayed
  split at replayed
  · obtain ⟨m, restored, replayed⟩ := Option.bind_eq_some_iff.mp replayed
    obtain ⟨blob, _, restored⟩ := Option.bind_eq_some_iff.mp restored
    refine Refolded.trans ?_ (replayBlocks_refolded replayed)
    rw [restoreFromSnapshot_eq restored]
    rfl
  · exact replayBlocks_refolded replayed

theorem reloadFromStore_refolded {env : Env A B H} {n n' : Node A B H}
    (reloaded : n.reloadFromStore env = some n') : n.Refolded n' := by
  have folded := replay_refolded reloaded
  exact folded

/-! ## Following -/

/-- The election and the log are as they were. -/
def Elsewhere (n n' : Node A B H) : Prop := n'.mesh = n.mesh ∧ n'.store = n.store

omit [DecidableEq A] in
theorem Elsewhere.trans {a b c : Node A B H} (first : a.Elsewhere b) (second : b.Elsewhere c) :
    a.Elsewhere c := ⟨second.1.trans first.1, second.2.trans first.2⟩

omit [DecidableEq A] in
theorem takeRoute_elsewhere (n : Node A B H) (now : Nat) : n.Elsewhere (n.takeRoute now) := by
  unfold takeRoute
  simp only
  split <;> exact ⟨rfl, rfl⟩

theorem takeRole_elsewhere {env : Env A B H} {n n' : Node A B H} {lead : Bool}
    (taken : n.takeRole env lead = some n') : n.Elsewhere n' := by
  unfold takeRole at taken
  split at taken
  · obtain rfl := Option.some.inj taken
    rw [drainAbsorb_eq]
    exact ⟨rfl, rfl⟩
  · split at taken
    · rw [reloadFromStore_refolded taken]
      exact ⟨rfl, rfl⟩
    · obtain rfl := Option.some.inj taken
      exact ⟨rfl, rfl⟩

/-- Once the election's state is written, following the mesh leaves it alone. -/
theorem followMesh_elsewhere {env : Env A B H} {n n' : Node A B H} {now : Nat} {commits : Bool}
    (followed : n.followMesh env now commits = some n') :
    (n.saveHard env commits).Elsewhere n' := by
  simp only [followMesh, Option.bind_eq_bind, Option.bind_eq_some_iff, Option.pure_def,
    Option.some.injEq] at followed
  obtain ⟨m, taken, rfl⟩ := followed
  exact (takeRole_elsewhere taken).trans (takeRoute_elsewhere m now)

/-! ## Seats -/

/-- The block a node has open is the one its chain state has open. -/
def Seated (n : Node A B H) : Prop := n.ext.blockNumber = n.block

theorem applyBlock_seated {n : Node A B H} {height : Nat} (seated : n.ext.blockNumber = height)
    (env : Env A B H) (effects : List (Effect A)) (at_ : Option Nat) :
    ∃ n', n.applyBlock env height effects at_ = some n' ∧ n'.Seated := by
  let folded := effects.foldl (fun s e => s.replayEffect env.rt e n.ext.now) n.ext
  let closed : Node A B H := { ({ n with ext := folded }.absorb effects).stampBlock height at_ with
    pending := [], block := height + 1 }
  have number : closed.ext.blockNumber = height := by
    have same : closed.ext = folded := congrArg Node.ext (absorb_eq { n with ext := folded } effects)
    rw [same]
    exact (Storage.replayEffects_table n.ext env.rt effects n.ext.now).2.1.trans seated
  have opens := initializeBlock_next (n := closed) env (congrArg (· + 1) number.symm)
  refine ⟨_, congrArg (Option.map drainDiscard) opens, ?_⟩
  exact (Storage.initializeBlock_blockNumber _ _).trans (congrArg (· + 1) number)

end Executing

end Node

end AkumaMiot

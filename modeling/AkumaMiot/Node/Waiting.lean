import AkumaMiot.Lib.Machine
import AkumaMiot.Node.Upkeep

/-!
# Who is told to wait

A client polls a hash that is pending until the answer changes. Only the mempool can change
it, so a hash that leaves the mempool must not be left pending.
-/
namespace AkumaMiot

variable {A B H : Type}

namespace Node

variable [DecidableEq H]

/-- Every hash that is answered pending is still in the mempool. -/
def Waits (n : Node A B H) : Prop :=
  ∀ hash, n.txStatus.lookup hash = some .pending → hash ∈ n.mempool

/-- The hash whose status gives way when `hash` is given one. -/
def statusEvicted (n : Node A B H) (hash : H) : Option H :=
  if hash ∈ n.txStatus then none
  else if n.txStatusOrder.length ≥ txStatusCap then n.txStatusOrder.head?
  else none

/-- The hash that a new entry pushes out of the mempool. -/
def entryEvicted (n : Node A B H) : Option H :=
  if n.mempoolOrder.length ≥ mempoolCap then n.mempoolOrder.head? else none

theorem Tends.waits {env : Env A B H} {n n' : Node A B H} (tends : Tends env n n') :
    n'.Waits ↔ n.Waits := by
  induction tends with
  | beside beside => simp only [Waits, beside.queued, beside.pending]
  | logged => exact .rfl
  | moved => exact .rfl
  | saved n commits =>
    rw [saveHard_eq]
    exact .rfl
  | trans _ _ first second => exact second.trans first

/-! ## Statuses and entries -/

theorem lookup_setTxStatus (n : Node A B H) (hash : H) (st : TxState) (h : H) :
    (n.setTxStatus hash st).txStatus.lookup h =
      if h = hash then some st
      else if n.statusEvicted hash = some h then none
      else n.txStatus.lookup h := by
  by_cases same : h = hash
  · subst same
    simp [setTxStatus]
  · rw [if_neg same]
    unfold setTxStatus statusEvicted
    simp only [AList.lookup_insert_ne same]
    split
    · rfl
    · split
      · cases order : n.txStatusOrder with
        | nil => simp
        | cons old rest =>
          by_cases evicted : old = h
          · simp [evicted]
          · simp [evicted, AList.lookup_erase_ne (Ne.symm evicted)]
      · simp

theorem setTxStatus_mempool (n : Node A B H) (hash : H) (st : TxState) :
    (n.setTxStatus hash st).mempool = n.mempool := by
  rw [setTxStatus_eq]

/-- A new entry goes in, its hash is pending, and the oldest of each list may give way. -/
theorem mempoolInsert_reads {n : Node A B H} {hash : H} (fresh : hash ∉ n.mempool) (bytes : B)
    (now : Nat) (h : H) :
    (h ∈ (n.mempoolInsert hash bytes now).mempool ↔
      h = hash ∨ h ∈ n.mempool ∧ n.entryEvicted ≠ some h) ∧
    (n.mempoolInsert hash bytes now).txStatus.lookup h =
      if h = hash then some .pending
      else if n.statusEvicted hash = some h then none
      else n.txStatus.lookup h := by
  unfold mempoolInsert entryEvicted
  rw [if_neg fresh, setTxStatus_mempool, lookup_setTxStatus]
  simp only [AList.mem_insert]
  split
  · cases order : n.mempoolOrder with
    | nil => exact ⟨by simp, rfl⟩
    | cons old rest =>
      refine ⟨?_, rfl⟩
      simp only [AList.mem_erase, List.head?_cons, ne_eq, Option.some.injEq]
      refine or_congr_right ⟨fun ⟨other, queued⟩ => ⟨queued, fun same => other same.symm⟩, ?_⟩
      exact fun ⟨queued, other⟩ => ⟨fun same => other same.symm, queued⟩
  · exact ⟨by simp, rfl⟩

theorem mempoolInsert_waits {n : Node A B H} (waits : n.Waits) {hash : H}
    (fresh : hash ∉ n.mempool) (bytes : B) (now : Nat) :
    (n.mempoolInsert hash bytes now).Waits ↔ ∀ old ∈ n.entryEvicted,
      n.txStatus.lookup old = some .pending → n.statusEvicted hash = some old := by
  have reads := mempoolInsert_reads fresh bytes now
  constructor
  · intro kept old evicted pending
    by_contra stays
    have other : old ≠ hash := fun same => fresh (same ▸ waits old pending)
    have still : (n.mempoolInsert hash bytes now).txStatus.lookup old = some .pending := by
      rw [(reads old).2, if_neg other, if_neg stays, pending]
    rcases (reads old).1.mp (kept old still) with same | ⟨_, inside⟩
    · exact other same
    · exact inside evicted
  · intro gone h pending
    rw [(reads h).1]
    by_cases same : h = hash
    · exact .inl same
    · rw [(reads h).2, if_neg same] at pending
      split at pending
      · simp at pending
      next stays =>
        exact .inr ⟨waits h pending, fun evicted => stays (gone h evicted pending)⟩

theorem mempoolRemove_waits {n : Node A B H} (waits : n.Waits) (hash : H) :
    (n.mempoolRemove hash).Waits ↔ n.txStatus.lookup hash ≠ some .pending := by
  unfold Waits mempoolRemove
  simp only [AList.mem_erase]
  constructor
  · intro kept pending
    exact (kept hash pending).1 rfl
  · intro settled h pending
    refine ⟨?_, waits h pending⟩
    rintro rfl
    exact settled pending

/-- A status that is not pending settles its hash. -/
theorem setTxStatus_waits {n : Node A B H} (waits : n.Waits) (hash : H) {st : TxState}
    (settled : st ≠ .pending) : (n.setTxStatus hash st).Waits ∧
      (n.setTxStatus hash st).txStatus.lookup hash ≠ some .pending := by
  constructor
  · intro h pending
    rw [setTxStatus_mempool]
    rw [lookup_setTxStatus] at pending
    split at pending
    · exact absurd (Option.some.inj pending) settled
    · split at pending
      · simp at pending
      · exact waits h pending
  · simp [lookup_setTxStatus, settled]

theorem mempoolExpire_waits {n : Node A B H} (waits : n.Waits) (now : Nat) :
    (n.mempoolExpire now).Waits ↔ ∀ hash e, n.mempool.lookup hash = some e →
      keeps now e = false → n.txStatus.lookup hash ≠ some .pending := by
  have stays : ∀ hash, hash ∈ (n.mempoolExpire now).mempool ↔
      ∃ e, n.mempool.lookup hash = some e ∧ keeps now e = true := by
    intro hash
    rw [mempoolExpire, ← AList.lookup_isSome, HashMap.lookup_retain, Option.isSome_iff_exists]
    simp only [Option.filter_eq_some_iff]
  constructor
  · intro kept hash e found old pending
    obtain ⟨e', found', young⟩ := (stays hash).mp (kept hash pending)
    rw [found] at found'
    cases found'
    simp [old] at young
  · intro settled hash pending
    obtain ⟨e, found⟩ := Option.isSome_iff_exists.mp (AList.lookup_isSome.mpr (waits hash pending))
    refine (stays hash).mpr ⟨e, found, ?_⟩
    cases young : keeps now e with
    | true => rfl
    | false => exact absurd pending (settled hash e found young)

theorem mempoolAnswered_waits {n : Node A B H} (waits : n.Waits) (hash : H) (answer : TxState) :
    (n.mempoolAnswered hash answer).Waits := by
  cases answer with
  | pending => exact waits
  | applied height => exact (setTxStatus_waits waits hash (by simp)).1
  | «sealed» height =>
    have closed : TxState.sealed height ≠ .pending := by simp
    obtain ⟨kept, settled⟩ := setTxStatus_waits waits hash closed
    exact (mempoolRemove_waits kept hash).mpr settled

section Executing

variable [DecidableEq A]

omit [DecidableEq H] in
theorem submit_queue (n : Node A B H) (env : Env A B H) (uxt : UncheckedExtrinsic A) :
    (n.submit env uxt).2.mempool = n.mempool ∧ (n.submit env uxt).2.txStatus = n.txStatus := by
  unfold submit
  cases applied : n.ext.applyExtrinsic env uxt with
  | mk r ext =>
    simp only
    rw [drainAbsorb_eq]
    split <;> exact ⟨rfl, rfl⟩

theorem Waits.submit {n : Node A B H} (waits : n.Waits) (env : Env A B H)
    (uxt : UncheckedExtrinsic A) : (n.submit env uxt).2.Waits := by
  obtain ⟨mempool, txStatus⟩ := n.submit_queue env uxt
  unfold Waits
  rw [mempool, txStatus]
  exact waits

/-- What the chain takes is settled; what it refuses is dropped as it is. -/
theorem mempoolHere_waits {n : Node A B H} (waits : n.Waits) (env : Env A B H) (hash : H)
    (bytes : B) :
    (n.mempoolHere env hash bytes).Waits ↔
      (∃ uxt, env.decodeExtrinsic bytes = some uxt ∧ (n.submit env uxt).1 = true) ∨
        n.txStatus.lookup hash ≠ some .pending := by
  unfold mempoolHere
  cases decoded : env.decodeExtrinsic bytes with
  | none =>
    simp only [mempoolRemove_waits waits, reduceCtorEq, false_and, exists_false, false_or]
  | some uxt =>
    have after := waits.submit env uxt
    have statuses := (n.submit_queue env uxt).2
    simp only [Option.some.injEq, exists_eq_left']
    cases submitted : n.submit env uxt with
    | mk accepted n' =>
      rw [submitted] at after statuses
      -- Taken, the hash is applied before it leaves; refused, it leaves as it is.
      cases accepted with
      | true =>
        have applied : TxState.applied n.block ≠ .pending := by simp
        obtain ⟨kept, settled⟩ := setTxStatus_waits after hash applied
        simp only [mempoolRemove_waits kept, true_or, iff_true]
        exact settled
      | false =>
        simp only [mempoolRemove_waits after, Bool.false_eq_true, false_or]
        rw [show n'.txStatus = n.txStatus from statuses]

theorem acceptHere_waits {n : Node A B H} (waits : n.Waits) (env : Env A B H) (bytes : B) :
    (n.acceptHere env bytes).Waits := by
  unfold acceptHere
  split
  · exact waits
  next uxt _ =>
    split
    · exact waits
    · have after := waits.submit env uxt
      cases submitted : n.submit env uxt with
      | mk accepted n' =>
        rw [submitted] at after
        cases accepted with
        | false => exact after
        | true =>
          -- The hash is settled before anyone reads that it left.
          intro h pending
          have elsewhere : n'.txStatus.lookup h = some .pending ∧ h ≠ env.txHash bytes := by
            rw [lookup_setTxStatus] at pending
            split at pending
            · simp at pending
            next other =>
              split at pending
              · simp at pending
              · exact ⟨pending, other⟩
          rw [setTxStatus_mempool]
          exact AList.mem_erase.mpr ⟨elsewhere.2, after h elsewhere.1⟩

end Executing

end Node

/-! ## A process -/

namespace Process

section Leaving

variable [DecidableEq A] [DecidableEq H]

/-- The hashes that an event takes out of the mempool without giving them a status. -/
def leaves (env : Env A B H) (p : Process A B H) : ProcessEvent B H → List H
  | .queue bytes _ => if env.txHash bytes ∈ p.node.mempool then [] else p.node.entryEvicted.toList
  | .mempoolRound now =>
    if !p.idle then []
    else (p.node.mempool.entries.filter fun e => !Node.keeps now e.2).map (·.1)
  | .turned taken =>
    match p.turn with
    | some (e, .here) =>
      if e.carried then [e.hash]
      else match env.decodeExtrinsic e.bytes with
      | none => [e.hash]
      | some uxt => if (p.node.submit env uxt).1 then [] else [e.hash]
    | some (e, .primary _) => if e.carried || taken then [e.hash] else []
    | _ => []
  | _ => []

/-- The hash whose status an event forgets to make room. -/
def forgets (env : Env A B H) (p : Process A B H) : ProcessEvent B H → Option H
  | .queue bytes _ => p.node.statusEvicted (env.txHash bytes)
  | _ => none

/-- Nothing leaves the mempool while it is answered pending. -/
def Settles (env : Env A B H) (p : Process A B H) (e : ProcessEvent B H) : Prop :=
  ∀ hash ∈ p.leaves env e, p.node.txStatus.lookup hash = some .pending →
    p.forgets env e = some hash

instance (env : Env A B H) (p : Process A B H) (e : ProcessEvent B H) :
    Decidable (p.Settles env e) := inferInstanceAs (Decidable (∀ hash ∈ _, _))

variable {env : Env A B H} {readHard : List UInt8 → Option Hard}

theorem settles_one {p : Process A B H} {e : ProcessEvent B H} {hash : H}
    (leaves : p.leaves env e = [hash]) (remembers : p.forgets env e = none) :
    p.Settles env e ↔ p.node.txStatus.lookup hash ≠ some .pending := by
  simp only [Settles, leaves, remembers, List.mem_singleton, forall_eq, reduceCtorEq, imp_false,
    ne_eq]

theorem settles_nothing {p : Process A B H} {e : ProcessEvent B H} (leaves : p.leaves env e = []) :
    p.Settles env e := by
  intro hash member
  simp [leaves] at member

/-- A turn ends with its hash settled, or still queued, or dropped as it was. -/
theorem turned_waits {p : Process A B H} (waits : p.node.Waits) {e : Queued B H} {taken : Bool}
    {route : WriteRoute} (turn : p.turn = some (e, route)) :
    (p.node.mempoolTurn env e taken route).Waits ↔ p.Settles env (.turned taken) := by
  have dropped : p.leaves env (.turned taken) = [e.hash] →
      ((p.node.mempoolRemove e.hash).Waits ↔ p.Settles env (.turned taken)) := fun leaves =>
    (Node.mempoolRemove_waits waits e.hash).trans (settles_one leaves rfl).symm
  -- What the turn takes out depends on the route found when it began.
  cases route with
  | nobody leader =>
    exact iff_of_true waits (settles_nothing (by simp only [leaves, turn]))
  | primary peer =>
    by_cases out : (e.carried || taken) = true
    · simp only [Node.mempoolTurn, out, if_true]
      exact dropped (by simp only [leaves, turn, out, if_true])
    · simp only [Node.mempoolTurn, if_neg out]
      exact iff_of_true waits (settles_nothing (by simp only [leaves, turn, if_neg out]))
  | here =>
    by_cases carried : e.carried = true
    · simp only [Node.mempoolTurn, carried, if_true]
      exact dropped (by simp only [leaves, turn, carried, if_true])
    · simp only [Node.mempoolTurn, if_neg carried]
      rw [Node.mempoolHere_waits waits]
      cases decoded : env.decodeExtrinsic e.bytes with
      | none =>
        have out : p.leaves env (.turned taken) = [e.hash] := by
          simp only [leaves, turn, if_neg carried, decoded]
        rw [settles_one out rfl]
        simp
      | some uxt =>
        simp only [Option.some.injEq, exists_eq_left']
        cases accepted : (p.node.submit env uxt).1 with
        | true =>
          refine iff_of_true (.inl rfl) (settles_nothing ?_)
          simp only [leaves, turn, if_neg carried, decoded, accepted, if_true]
        | false =>
          have out : p.leaves env (.turned taken) = [e.hash] := by
            simp only [leaves, turn, if_neg carried, decoded, accepted, Bool.false_eq_true,
              if_false]
          rw [settles_one out rfl]
          simp

theorem mempoolRound_waits {p : Process A B H} (waits : p.node.Waits) (idle : p.idle = true)
    (now : Nat) : (p.node.mempoolExpire now).Waits ↔ p.Settles env (.mempoolRound now) := by
  rw [Node.mempoolExpire_waits waits]
  simp only [Settles, leaves, forgets, idle, Bool.not_true, Bool.false_eq_true, if_false,
    List.mem_map, List.mem_filter, reduceCtorEq, imp_false]
  constructor
  · rintro settled hash ⟨⟨_, e⟩, ⟨member, old⟩, rfl⟩
    exact settled _ e (AList.mem_lookup_iff.mpr member) (by simpa using old)
  · intro settled hash e found old
    exact settled hash ⟨⟨hash, e⟩, ⟨AList.mem_lookup_iff.mp found, by simpa using old⟩, rfl⟩

theorem queue_waits {p : Process A B H} (waits : p.node.Waits) (bytes : B) (now : Nat) :
    (p.node.mempoolInsert (env.txHash bytes) bytes now).Waits ↔
      p.Settles env (.queue bytes now) := by
  by_cases queued : env.txHash bytes ∈ p.node.mempool
  · refine iff_of_true ?_ (settles_nothing (if_pos queued))
    rw [Node.mempoolInsert, if_pos queued]
    exact waits
  · rw [Node.mempoolInsert_waits waits queued]
    simp only [Settles, leaves, forgets, if_neg queued, Option.mem_toList, Option.mem_def]

theorem open_waits {cfg : NodeConfig} {store : Store B B} {p : Process A B H}
    (opened : open_ env readHard cfg store = some p) : p.node.Waits := by
  simp only [open_, Option.bind_eq_bind, Option.bind_eq_some_iff, Option.pure_def,
    Option.some.injEq] at opened
  obtain ⟨hard, _, n, replayed, rfl⟩ := opened
  rw [Node.replay_refolded replayed]
  intro hash pending
  simp [Node.started] at pending

/-- An event that finds nothing to do takes nothing out. -/
theorem settles_idle {p : Process A B H} {e : ProcessEvent B H} (idles : p.Idles e) :
    p.Settles env e := by
  cases e with
  | mempoolRound now => exact settles_nothing (if_pos (by rw [show p.idle = false from idles]; rfl))
  | turned taken => exact settles_nothing (by simp only [leaves, show p.turn = none from idles])
  | queue => exact idles.elim
  | _ => exact settles_nothing rfl

/-- One event leaves nobody waiting in vain exactly when what it takes out of the mempool was
not pending. -/
theorem step_waits {p p' : Process A B H} {e : ProcessEvent B H} (waits : p.node.Waits)
    (stepped : p.step env readHard e = some p') : p'.node.Waits ↔ p.Settles env e := by
  cases step_steps stepped with
  | idle idles => exact iff_of_true waits (settles_idle idles)
  | accept bytes => exact iff_of_true (Node.acceptHere_waits waits env bytes) (settles_nothing rfl)
  | queue bytes now => exact queue_waits waits bytes now
  | mempoolRound now idle => exact mempoolRound_waits waits idle now
  | turn none_ found => exact iff_of_true waits (settles_nothing rfl)
  | answered answer turn =>
    exact iff_of_true (Node.mempoolAnswered_waits waits _ answer) (settles_nothing rfl)
  | turned taken turn => exact turned_waits waits turn
  | restart opened => exact iff_of_true (open_waits opened) (settles_nothing rfl)
  | _ =>
    -- The rest is work that the queue does not see.
    exact iff_of_true ((step_tends rfl rfl stepped).waits.mpr waits) (settles_nothing rfl)

/-- What ends a process takes nothing out of its mempool. -/
theorem step_ends {p : Process A B H} {e : ProcessEvent B H}
    (ended : p.step env readHard e = none) : p.Settles env e := by
  cases e with
  | queue => simp [step] at ended
  | mempoolRound =>
    simp only [step] at ended
    split at ended <;> simp at ended
  | turned =>
    simp only [step] at ended
    split at ended <;> simp at ended
  | _ => exact settles_nothing rfl

/-- The process may have ended. -/
def NobodyWaitsInVain (p : Option (Process A B H)) : Prop := ∀ q, p = some q → q.node.Waits

def SettlesNext (env : Env A B H) (p : Option (Process A B H)) (e : ProcessEvent B H) : Prop :=
  ∀ q ∈ p, q.Settles env e

instance (env : Env A B H) (p : Option (Process A B H)) (e : ProcessEvent B H) :
    Decidable (SettlesNext env p e) := inferInstanceAs (Decidable (∀ q ∈ p, q.Settles env e))

/-- In every state that a run of a node passes, what is pending is in the mempool, exactly when
every event settles what it takes out of the mempool. -/
theorem pending_run (env : Env A B H) (readHard : List UInt8 → Option Hard) (cfg : NodeConfig)
    (store : Store B B) (p : Process A B H) (opened : open_ env readHard cfg store = some p)
    (events : List (ProcessEvent B H)) :
    (∀ before, before <+: events → ∀ q,
      Machine.run (next env readHard) (some p) before = some q → q.node.Waits) ↔
      Machine.Meets (next env readHard) (SettlesNext env) (some p) events := by
  refine Machine.always_iff_meets NobodyWaitsInVain ?_ ?_
  · intro s e waits
    cases s with
    | none => exact iff_of_true (by simp [NobodyWaitsInVain, next]) (by simp [SettlesNext])
    | some q =>
      have waits : q.node.Waits := waits q rfl
      show NobodyWaitsInVain (q.step env readHard e) ↔ SettlesNext env (some q) e
      simp only [SettlesNext, Option.mem_def, Option.some.injEq, forall_eq']
      cases stepped : q.step env readHard e with
      | none => exact iff_of_true (by simp [NobodyWaitsInVain]) (step_ends stepped)
      | some q' =>
        simp only [NobodyWaitsInVain, Option.some.injEq, forall_eq']
        exact step_waits waits stepped
  · rintro q ⟨⟩
    exact open_waits opened

end Leaving

/-! ## A node alone -/

/-- A litter of one. -/
def soloConfig : NodeConfig := ⟨"nami", [], {}, false⟩

def soloProcess : Process Nat (Plain Nat) (Plain Nat) :=
  ⟨.started soloEnv (.openDb Store.emptyDb) (.new "nami" [] {} {} 0 (seed "nami")), none, [], none⟩

/-- An extrinsic comes in before the node leads. Once it leads, its mempool round applies it. -/
theorem pending_run_applied :
    ∃ q, Machine.run (next soloEnv fun _ => none) (some soloProcess) [.queue openTask 0,
        .round [] 9000 9000 true, .mempoolRound 9001, .turn openTask, .turned false,
        .close 9002 {}] = some q ∧ q.node.Waits ∧
      q.node.txStatus.lookup openTask = some (.sealed 1) := by
  let events : List (ProcessEvent (Plain Nat) (Plain Nat)) := [.queue openTask 0,
    .round [] 9000 9000 true, .mempoolRound 9001, .turn openTask, .turned false, .close 9002 {}]
  have told : (Machine.run (next soloEnv fun _ => none) (some soloProcess) events).map
      (·.node.txStatus.lookup openTask) = some (some (.sealed 1)) := by
    decide +kernel
  obtain ⟨q, reached, status⟩ := Option.map_eq_some_iff.mp told
  have opened : open_ soloEnv (fun _ => none) soloConfig (.openDb Store.emptyDb) =
    some soloProcess := rfl
  have waits := (pending_run soloEnv _ soloConfig _ soloProcess opened events).mpr
    (by decide +kernel)
  exact ⟨q, reached, waits events (List.prefix_refl _) q reached, status⟩

/-- Fifteen minutes without a primary: the entry is dropped and its hash is pending for good. -/
theorem pending_run_expired :
    open_ soloEnv (fun _ => none) soloConfig (.openDb Store.emptyDb) = some soloProcess ∧
    ∃ q, Machine.run (next soloEnv fun _ => none) (some soloProcess) [.queue openTask 0,
        .mempoolRound 900000] = some q ∧ ¬ q.node.Waits := by
  have told : (Machine.run (next soloEnv fun _ => none) (some soloProcess) [.queue openTask 0,
      .mempoolRound 900000]).map
        (fun q => (q.node.txStatus.lookup openTask, decide (openTask ∈ q.node.mempool))) =
      some (some .pending, false) := by
    decide +kernel
  obtain ⟨q, reached, status⟩ := Option.map_eq_some_iff.mp told
  obtain ⟨pending, gone⟩ := Prod.mk.inj status
  refine ⟨rfl, q, reached, fun waits => ?_⟩
  exact absurd (waits openTask pending) (by simpa using gone)

end Process

end AkumaMiot

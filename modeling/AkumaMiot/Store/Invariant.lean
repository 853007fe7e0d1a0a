import AkumaMiot.Lib.Machine
import AkumaMiot.Store.Log

/-!
# The block log invariant

What a reader of a store can rely on after any sequence of calls, accepted or refused.
-/
namespace AkumaMiot

/-- A call on a store. `commits` says whether the database takes the commit. -/
inductive StoreOp (β σ : Type)
  | append (commits : Bool) (height : UInt64) (block : β)
  | compact (commits : Bool) (height : UInt64) (state : σ)
  | adoptCheckpoint (commits : Bool) (height : UInt64) (state : σ)
  | rewindForFork (commits : Bool) (forkPoint : UInt64)
  | putAux (commits : Bool) (name : String) (value : List UInt8)
  | reopen

namespace Store

variable {β σ : Type}

private def accepted {ε α : Type} : Except ε α → Bool
  | .ok _ => true
  | .error _ => false

/-- Whether a call is accepted, and the store it leaves. -/
def call (s : Store β σ) : StoreOp β σ → Bool × Store β σ
  | .append commits height block =>
    let (answer, s) := s.append commits height.toNat block; (accepted answer, s)
  | .compact commits height state =>
    let (answer, s) := s.compact commits height.toNat state; (accepted answer, s)
  | .adoptCheckpoint commits height state =>
    let (answer, s) := s.adoptCheckpoint commits height.toNat state; (accepted answer, s)
  | .rewindForFork commits forkPoint =>
    let (answer, s) := s.rewindForFork commits forkPoint.toNat; (accepted answer, s)
  | .putAux commits name value =>
    let (answer, s) := s.putAux commits name value; (accepted answer, s)
  | .reopen => (true, s.reopen)

/-- The checkpoint a call records, if it is one that records. -/
def StoreOp.records : StoreOp β σ → Option (Nat × σ)
  | .compact _ height state | .adoptCheckpoint _ height state => some (height.toNat, state)
  | _ => none

/-- A store beside the checkpoint last recorded in it. -/
structure Recorded (β σ : Type) where
  store : Store β σ
  last : Option (Nat × σ)

def Recorded.step (r : Recorded β σ) (op : StoreOp β σ) : Recorded β σ where
  store := (r.store.call op).2
  last := if (r.store.call op).1 then (StoreOp.records op).or r.last else r.last

/-- A store just created. -/
def Recorded.fresh : Recorded β σ := ⟨openDb emptyDb, none⟩

/-- No checkpoint is adopted at genesis. -/
def StoreOp.Proper : StoreOp β σ → Prop
  | .adoptCheckpoint _ height _ => 1 ≤ height.toNat
  | _ => True

instance (op : StoreOp β σ) : Decidable (StoreOp.Proper op) := by
  cases op <;> unfold StoreOp.Proper <;> infer_instance

/-- The one call whose height arithmetic wraps: block 0 appended after block `u64::MAX`. -/
def Wraps (s : Store β σ) : StoreOp β σ → Prop
  | .append _ height _ => s.head = 2 ^ 64 - 1 ∧ height = 0
  | _ => False

instance (s : Store β σ) (op : StoreOp β σ) : Decidable (Wraps s op) := by
  cases op <;> unfold Wraps <;> infer_instance

/-- What can be relied on in every state. -/
structure BlockLog (r : Recorded β σ) : Prop where
  blocks : ∀ h, (r.store.block h).isSome = true ↔
    r.store.lastCheckpoint < h ∧ h ≤ r.store.head
  ordered : r.store.lastCheckpoint ≤ r.store.head
  present : r.store.checkpointState.isSome = true ↔ 0 < r.store.lastCheckpoint
  recorded : ∀ state, r.store.checkpointState = some state →
    r.last = some (r.store.lastCheckpoint, state)
  noOther : ∀ h, h ≠ r.store.lastCheckpoint → r.store.db (.checkpoint h) = none
  reopens : r.store.reopen.head = r.store.head ∧
    r.store.reopen.lastCheckpoint = r.store.lastCheckpoint

/-- What can be relied on of a call: a refusal changes nothing, and only `putAux` changes an
auxiliary value, its own. -/
structure CallFrame (s : Store β σ) (op : StoreOp β σ) : Prop where
  refused : (s.call op).1 = false → (s.call op).2 = s
  aux : ∀ name, (∀ commits value, op ≠ .putAux commits name value) →
    (s.call op).2.aux name = s.aux name

/-! ## One call -/

/-- What the run keeps: the store is a log, and its state is the one last recorded. -/
def Stands (r : Recorded β σ) : Prop :=
  ∃ l : ChainLog β σ, Holds r.store l ∧ ∀ state, l.state = some state → r.last = some (l.base, state)

theorem checkpointState_eq {s : Store β σ} {l : ChainLog β σ} (holds : Holds s l) :
    s.checkpointState = l.state := by
  unfold checkpointState
  rw [holds.last]
  split
  next genesis => exact (l.state_none genesis).symm
  · rw [holds.checkpoints, if_pos rfl]

theorem Stands.blockLog {r : Recorded β σ} (stands : Stands r) : BlockLog r := by
  obtain ⟨l, holds, recorded⟩ := stands
  constructor
  · intro h
    rw [holds.last, holds.head, ← l.blockAt_isSome, block, holds.blocks]
  · rw [holds.last, holds.head]; exact l.base_le_head
  · rw [checkpointState_eq holds, holds.last, l.present]
  · rw [checkpointState_eq holds, holds.last]; exact recorded
  · intro h other
    rw [holds.checkpoints, if_neg (holds.last ▸ other)]
  · rw [reopen_eq holds]; exact ⟨rfl, rfl⟩

private theorem refusal {r : Recorded β σ} {op : StoreOp β σ} (stands : Stands r)
    (refused : r.store.call op = (false, r.store)) :
    Stands (r.step op) ∧ CallFrame r.store op := by
  have same : r.step op = r := by simp [Recorded.step, refused]
  exact ⟨same.symm ▸ stands, fun _ => by rw [refused], fun _ _ => by rw [refused]⟩

private theorem acceptance {r : Recorded β σ} {op : StoreOp β σ} {s : Store β σ}
    (called : r.store.call op = (true, s)) {l : ChainLog β σ} (holds : Holds s l)
    (recorded : ∀ state, l.state = some state →
      (StoreOp.records op).or r.last = some (l.base, state))
    (aux : ∀ name, (∀ commits value, op ≠ .putAux commits name value) →
      s.aux name = r.store.aux name) : Stands (r.step op) ∧ CallFrame r.store op := by
  refine ⟨⟨l, by rw [Recorded.step, called]; exact holds, ?_⟩, by rw [called]; simp, ?_⟩
  · simpa only [Recorded.step, called, if_true] using recorded
  · rw [called]; exact aux

/-- One proper call that does not wrap keeps a store a log, and shows its frame. -/
theorem call_stands {r : Recorded β σ} (stands : Stands r) (op : StoreOp β σ)
    (proper : StoreOp.Proper op) (flat : ¬ Wraps r.store op) :
    Stands (r.step op) ∧ CallFrame r.store op := by
  obtain ⟨l, holds, recorded⟩ := id stands
  cases op with
  | append commits height b =>
    rcases append_refines holds commits height.toNat b with
      ⟨why, refused⟩ | ⟨next, _, s', accepts, pushed, aux⟩
    · exact refusal stands (by simp only [call, refused]; rfl)
    -- A height that does not wrap leaves room for one more block.
    · have room : r.store.head + 1 < 2 ^ 64 := by
        have below : r.store.head < 2 ^ 64 := holds.head ▸ holds.small
        refine Nat.lt_of_le_of_ne below fun full => flat ⟨by omega, ?_⟩
        rw [u64Succ, full, Nat.mod_self] at next
        exact UInt64.toNat_inj.mp next
      exact acceptance (by simp only [call, accepts]; rfl) (pushed room) recorded
        fun name _ => aux name
  | compact commits height state =>
    rcases compact_refines holds commits height.toNat state with
      ⟨why, refused⟩ | ⟨_, _, above, pruned, s', accepts, compacted, aux⟩
    · exact refusal stands (by simp only [call, refused]; rfl)
    · exact acceptance (by simp only [call, accepts]; rfl) compacted
        (by simp [StoreOp.records, ChainLog.compactTo]) fun name _ => aux name
  | adoptCheckpoint commits height state =>
    rcases adoptCheckpoint_refines holds commits proper height.toNat_lt state with
      ⟨why, refused⟩ | ⟨_, s', accepts, adopted, aux⟩
    · exact refusal stands (by simp only [call, refused]; rfl)
    · exact acceptance (by simp only [call, accepts]; rfl) adopted
        (by simp [StoreOp.records, ChainLog.trusted]) fun name _ => aux name
  | rewindForFork commits forkPoint =>
    rcases rewindForFork_refines holds commits forkPoint.toNat with
      ⟨why, refused⟩ | ⟨_, s', accepts, rewound, aux⟩
    · exact refusal stands (by simp only [call, refused]; rfl)
    · refine acceptance (by simp only [call, accepts]; rfl) rewound (fun state => ?_)
        fun name _ => aux name
      -- The state rewound to is the one recorded, or there is none at genesis.
      unfold ChainLog.rewind
      split
      · exact recorded state
      · simp [ChainLog.genesis]
  | putAux commits name value =>
    rcases putAux_refines holds commits name value with
      ⟨why, refused⟩ | ⟨_, s', accepts, kept, aux⟩
    · exact refusal stands (by simp only [call, refused]; rfl)
    · refine acceptance (by simp only [call, accepts]; rfl) kept recorded fun other notMe => ?_
      have ne : other ≠ name := fun same => notMe commits value (by rw [same])
      rw [aux, if_neg ne]
  | reopen =>
    exact acceptance (by simp only [call, reopen_eq holds]) holds recorded fun _ _ => rfl

/-! ## Every run -/

theorem fresh_stands : Stands (Recorded.fresh : Recorded β σ) :=
  ⟨.genesis, openDb_empty, by simp [ChainLog.genesis]⟩

/-- In every run that does not append across the end of the heights, every state is a block
log and every call keeps to its frame. -/
theorem blockLog_run (ops : List (StoreOp β σ)) (proper : ∀ op ∈ ops, StoreOp.Proper op)
    (flat : Machine.Meets Recorded.step (fun r op => ¬ Wraps r.store op) Recorded.fresh ops) :
    BlockLog (Machine.run Recorded.step Recorded.fresh ops) ∧
      ∀ before op after, ops = before ++ op :: after →
        CallFrame (Machine.run Recorded.step Recorded.fresh before).store op := by
  have each : Machine.Meets Recorded.step
      (fun r op => StoreOp.Proper op ∧ ¬ Wraps r.store op) Recorded.fresh ops :=
    Machine.meets_and (Machine.meets_of_forall proper) flat
  have reach : ∀ {is : List (StoreOp β σ)}, Machine.Meets Recorded.step
      (fun r op => StoreOp.Proper op ∧ ¬ Wraps r.store op) Recorded.fresh is →
      Stands (Machine.run Recorded.step Recorded.fresh is) := fun {is} meets =>
    Machine.run_invariant Stands (fun r op stands ok => (call_stands stands op ok.1 ok.2).1)
      fresh_stands meets
  refine ⟨(reach each).blockLog, ?_⟩
  rintro before op after rfl
  obtain ⟨first, now, _⟩ := Machine.meets_append.mp each
  exact (call_stands (reach first) op now.1 now.2).2

/-- A checkpoint taken on trust, two blocks, and a rewind onto it. -/
theorem blockLog_run_rewound :
    let ops : List (StoreOp Nat Nat) := [.adoptCheckpoint true 5 50, .append true 6 60,
      .append true 7 70, .append true 9 90, .rewindForFork true 6, .reopen]
    BlockLog (Machine.run Recorded.step Recorded.fresh ops) ∧
      (Machine.run Recorded.step Recorded.fresh ops).store.checkpointState = some 50 :=
  ⟨(blockLog_run _ (by decide) (by decide)).1, by decide⟩

/-- A peer's checkpoint at `u64::MAX` leaves a head whose successor is 0, so block 0 is taken
and the head falls below the checkpoint. -/
theorem blockLog_run_wraps :
    ¬ ∀ ops : List (StoreOp Unit Unit), (∀ op ∈ ops, StoreOp.Proper op) →
      BlockLog (Machine.run Recorded.step Recorded.fresh ops) := fun holds =>
  absurd (holds [.adoptCheckpoint true 18446744073709551615 (), .append true 0 ()]
    (by decide)).ordered (by decide)

end Store

end AkumaMiot

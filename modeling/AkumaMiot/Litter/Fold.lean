import AkumaMiot.Lib.Machine
import AkumaMiot.Litter.Calls
import AkumaMiot.Tasks.Sweep

/-!
# A follower's table

A producer opens a block with the tick and executes calls in it; a follower opens the same
block without the tick and replays the events the producer recorded. What a call does to the
table is what its events fold to, so the two tables stay equal through every block whose tick
re-offers no row that the same block drops.
-/
namespace AkumaMiot

variable {A : Type}

namespace Storage

/-! ## Depositing -/

theorem deposit_frame (s : Storage A) (effects : List (Effect A)) :
    (effects.foldl depositEvent s).litter = s.litter ∧
      (effects.foldl depositEvent s).blockNumber = s.blockNumber ∧
      (effects.foldl depositEvent s).replaying = s.replaying := by
  induction effects generalizing s with
  | nil => exact ⟨rfl, rfl, rfl⟩
  | cons e es ih =>
    obtain ⟨litter, number, replaying⟩ := ih (s.depositEvent e)
    have same : (s.depositEvent e).litter = s.litter ∧
        (s.depositEvent e).blockNumber = s.blockNumber ∧
        (s.depositEvent e).replaying = s.replaying := by
      unfold depositEvent
      split <;> exact ⟨rfl, rfl, rfl⟩
    exact ⟨litter.trans same.1, number.trans same.2.1, replaying.trans same.2.2⟩

theorem depositEvent_events {s : Storage A} (opened : s.blockNumber ≠ 0) (e : Effect A) :
    s.depositEvent e = { s with events := s.events ++ [e] } := if_neg opened

theorem deposit_events {s : Storage A} (opened : s.blockNumber ≠ 0) (effects : List (Effect A)) :
    (effects.foldl depositEvent s).events = s.events ++ effects := by
  induction effects generalizing s with
  | nil => simp
  | cons e es ih =>
    have next := depositEvent_events opened e
    rw [List.foldl_cons, next, ih (by exact opened)]
    simp

/-- Reading back a stored table whose config is the runtime's. -/
theorem table_commit (s : Storage A) (rt : Runtime A) {t : TaskTable A}
    (config : t.cfg = rt.miotConfig) (effects : List (Effect A)) :
    (s.commit t effects).table rt = t := by
  have stored : (s.commit t effects).litter = t.toState :=
    (deposit_frame { s with litter := t.intoState } effects).1
  simp only [table, TaskTable.fromState, stored, ← config]

variable {rt : Runtime A}

/-! ## What a call adds -/

/-- A step within a block: its events say what it did to the table. -/
def Tells (rt : Runtime A) (s s' : Storage A) : Prop :=
  ∃ effects, s'.events = s.events ++ effects ∧
    s'.table rt = (s.table rt).applyAll effects s.now ∧
    s'.blockNumber = s.blockNumber ∧ s'.replaying = s.replaying

theorem Tells.refl (s : Storage A) : Tells rt s s := ⟨[], by simp, rfl, rfl, rfl⟩

theorem Tells.trans {s s' s'' : Storage A} (first : Tells rt s s') (second : Tells rt s' s'') :
    Tells rt s s'' := by
  obtain ⟨xs, events, table, number, replaying⟩ := first
  obtain ⟨ys, events', table', number', replaying'⟩ := second
  refine ⟨xs ++ ys, ?_, ?_, number'.trans number, replaying'.trans replaying⟩
  · rw [events', events, List.append_assoc]
  · rw [table', table, TaskTable.applyAll_append]
    simp only [now, number]

theorem commit_tells {s : Storage A} (opened : s.blockNumber ≠ 0) {effects : List (Effect A)}
    {t : TaskTable A} (folded : t = (s.table rt).applyAll effects s.now) :
    Tells rt s (s.commit t effects) := by
  have config : t.cfg = rt.miotConfig := by
    rw [folded, TaskTable.applyAll_cfg]
    rfl
  obtain ⟨_, number, replaying⟩ := deposit_frame { s with litter := t.intoState } effects
  exact ⟨effects, deposit_events (by exact opened) effects,
    (s.table_commit rt config effects).trans folded, number, replaying⟩

/-! ## Opening a block -/

/-- The number a block opens at, as the table counts. -/
def opensAt (s : Storage A) : BlockNumber := min (s.blockNumber + 1) (2 ^ 32 - 1)

/-- Whether or not anything is stored, the table is the one the tick and the sweep leave. -/
theorem onInitialize_table (s : Storage A) (rt : Runtime A) (n : Nat)
    (effects : List (Effect A)) {t : TaskTable A}
    (ticked : (effects, t) =
      if s.replaying then ([], s.table rt) else (s.table rt).tick (min n (2 ^ 32 - 1)))
    (config : t.cfg = rt.miotConfig) (quiet : effects = [] → t = s.table rt) :
    (s.onInitialize rt n).table rt = (t.gc (min n (2 ^ 32 - 1)) rt.gcKeepFor).2 ∧
      (s.blockNumber ≠ 0 → (s.onInitialize rt n).events = s.events ++ effects) ∧
      (s.onInitialize rt n).blockNumber = s.blockNumber ∧
      (s.onInitialize rt n).replaying = s.replaying := by
  simp only [onInitialize, ← ticked]
  split
  · exact ⟨s.table_commit rt (by simp [config]) effects,
      fun opened => deposit_events (by exact opened) effects, (deposit_frame _ effects).2⟩
  next nothing =>
    simp only [not_or, not_not, Nat.not_lt, Nat.le_zero] at nothing
    obtain ⟨none, kept⟩ := nothing
    rw [TaskTable.gc_of_dropped_zero kept, quiet none, none]
    exact ⟨rfl, fun _ => by simp, rfl, rfl⟩

/-- A producer's new block: the tick's effects recorded, the table ticked and swept. -/
theorem initializeBlock_producing {s : Storage A} (rt : Runtime A)
    (producing : s.replaying = false) :
    (s.initializeBlock rt).table rt =
        (((s.table rt).tick s.opensAt).2.gc s.opensAt rt.gcKeepFor).2 ∧
      (s.initializeBlock rt).events = ((s.table rt).tick s.opensAt).1 ∧
      (s.initializeBlock rt).blockNumber = s.blockNumber + 1 ∧
      (s.initializeBlock rt).replaying = false := by
  have folds := (s.table rt).tick_folds s.opensAt
  have config : ((s.table rt).tick s.opensAt).2.cfg = rt.miotConfig := by
    rw [folds, TaskTable.applyAll_cfg]
    rfl
  obtain ⟨table, events, number, replaying⟩ :=
    onInitialize_table { s with blockNumber := s.blockNumber + 1, events := [] } rt
      (s.blockNumber + 1) ((s.table rt).tick s.opensAt).1 (by rw [producing]; rfl)
      config (fun none => by rw [folds, none]; rfl)
  exact ⟨table, (events (Nat.succ_ne_zero _)).trans (List.nil_append _), number,
    replaying.trans producing⟩

/-- A follower's new block: the table swept, nothing ticked. -/
theorem initializeBlock_folding {s : Storage A} (rt : Runtime A)
    (folding : s.replaying = true) :
    (s.initializeBlock rt).table rt = ((s.table rt).gc s.opensAt rt.gcKeepFor).2 ∧
      (s.initializeBlock rt).blockNumber = s.blockNumber + 1 ∧
      (s.initializeBlock rt).replaying = true := by
  obtain ⟨table, _, number, replaying⟩ :=
    onInitialize_table { s with blockNumber := s.blockNumber + 1, events := [] } rt
      (s.blockNumber + 1) [] (by rw [folding]; rfl) rfl (fun _ => rfl)
  exact ⟨table, number, replaying.trans folding⟩

theorem initializeBlock_blockNumber (s : Storage A) (rt : Runtime A) :
    (s.initializeBlock rt).blockNumber = s.blockNumber + 1 := by
  cases folding : s.replaying with
  | true => exact (initializeBlock_folding rt folding).2.1
  | false => exact (initializeBlock_producing rt folding).2.2.1

section Calls

variable [DecidableEq A]

theorem foldPatron_frame (s : Storage A) (e : Effect A) (now : BlockNumber) :
    (s.foldPatron e now).litter = s.litter ∧ (s.foldPatron e now).events = s.events ∧
      (s.foldPatron e now).blockNumber = s.blockNumber ∧
      (s.foldPatron e now).replaying = s.replaying := by
  unfold foldPatron
  split
  · exact ⟨rfl, rfl, rfl, rfl⟩
  · simp only
    split <;> exact ⟨rfl, rfl, rfl, rfl⟩
  · exact ⟨rfl, rfl, rfl, rfl⟩
  · split
    · unfold decProviders
      split
      · split <;> exact ⟨rfl, rfl, rfl, rfl⟩
      · exact ⟨rfl, rfl, rfl, rfl⟩
    · exact ⟨rfl, rfl, rfl, rfl⟩
  · exact ⟨rfl, rfl, rfl, rfl⟩

/-! ## What a replay does -/

theorem replayEffect_table (s : Storage A) (rt : Runtime A) (e : Effect A) (now : BlockNumber) :
    (s.replayEffect rt e now).table rt = (s.table rt).apply e now ∧
      (s.replayEffect rt e now).events = s.events ∧
      (s.replayEffect rt e now).blockNumber = s.blockNumber ∧
      (s.replayEffect rt e now).replaying = s.replaying := by
  have folded : ∀ t : TaskTable A, t.cfg = rt.miotConfig →
      ({ s with litter := t.intoState } : Storage A).table rt = t := by
    intro t config
    simp only [table, TaskTable.fromState, TaskTable.intoState, ← config]
  unfold replayEffect
  split
  · exact ⟨rfl, rfl, rfl, rfl⟩
  · exact ⟨rfl, rfl, rfl, rfl⟩
  · exact ⟨rfl, rfl, rfl, rfl⟩
  iterate 4
    · obtain ⟨litter, events, number, replaying⟩ := s.foldPatron_frame _ now
      exact ⟨congrArg (TaskTable.fromState · rt.miotConfig) litter, events, number, replaying⟩
  · exact ⟨rfl, rfl, rfl, rfl⟩
  · exact ⟨folded _ (TaskTable.apply_cfg _ _ _), rfl, rfl, rfl⟩

/-- Replaying a block's events folds them into the table. -/
theorem replayEffects_table (s : Storage A) (rt : Runtime A) (effects : List (Effect A))
    (now : BlockNumber) :
    (effects.foldl (fun s e => s.replayEffect rt e now) s).table rt =
        (s.table rt).applyAll effects now ∧
      (effects.foldl (fun s e => s.replayEffect rt e now) s).blockNumber = s.blockNumber ∧
      (effects.foldl (fun s e => s.replayEffect rt e now) s).replaying = s.replaying := by
  induction effects generalizing s with
  | nil => exact ⟨rfl, rfl, rfl⟩
  | cons e es ih =>
    obtain ⟨table, _, number, replaying⟩ := s.replayEffect_table rt e now
    obtain ⟨table', number', replaying'⟩ := ih (s.replayEffect rt e now)
    exact ⟨by rw [List.foldl_cons, table', table, TaskTable.applyAll_cons],
      number'.trans number, replaying'.trans replaying⟩

/-! ## What a call tells -/

/-- The calls that are never replayed from their events alone. -/
def Unrecorded : LitterCall A → Prop
  | .clearAll | .requestCompaction | .setRoot _ => True
  | _ => False

instance (c : LitterCall A) : Decidable (Unrecorded c) :=
  match c with
  | .clearAll | .requestCompaction | .setRoot .. => .isTrue trivial
  | .openParent .. | .plan .. | .update .. | .setLeader .. | .reassign .. | .say .. |
    .publishStandaloneArtifact .. | .reportStats .. | .reportStats2 .. | .post .. | .react .. |
    .vote .. | .carryPatronRequest .. | .approvePatron .. | .rejectPatronRequest .. |
    .revokePatron .. => .isFalse False.elim

theorem dispatch_tells {s s' : Storage A} {origin : Origin A} {c : LitterCall A}
    (opened : s.blockNumber ≠ 0) (recorded : ¬ Unrecorded c)
    (accepted : s.dispatch rt origin c = .ok s') : Tells rt s s' := by
  cases dispatch_accepted accepted with
  | @verb _ _ call effects t _ _ answer =>
    have folded := (s.table rt).call_folds call s.now
    rw [TaskTable.Folds, answer] at folded
    exact commit_tells opened folded
  | @own _ _ e =>
    obtain ⟨table, events, number, replaying⟩ := s.replayEffect_table rt e s.now
    rw [depositEvent_events (by rw [number]; exact opened)]
    exact ⟨[e], by rw [← events], table, number, replaying⟩
  | clearAll | requestCompaction | setRoot => exact absurd trivial recorded

/-! ## Whole blocks -/

/-- A call and who it came from. -/
abbrev Signed (A : Type) : Type := Origin A × LitterCall A

/-- One call in the open block. A refused one leaves nothing. -/
def attempt (rt : Runtime A) (s : Storage A) (c : Signed A) : Storage A :=
  match s.dispatch rt c.1 c.2 with
  | .ok s' => s'
  | .error _ => s

/-- A producer's block. -/
def produceBlock (rt : Runtime A) (s : Storage A) (calls : List (Signed A)) : Storage A :=
  calls.foldl (attempt rt) (s.initializeBlock rt)

/-- A follower's block, from the effects the producer recorded. -/
def foldBlock (rt : Runtime A) (s : Storage A) (effects : List (Effect A)) : Storage A :=
  let s := s.initializeBlock rt
  effects.foldl (fun s' e => s'.replayEffect rt e s.now) s

/-- A producer, and the follower of its blocks, one block on. -/
def followBlock (rt : Runtime A) (both : Storage A × Storage A) (calls : List (Signed A)) :
    Storage A × Storage A :=
  let produced := produceBlock rt both.1 calls
  (produced, foldBlock rt both.2 produced.events)

theorem calls_tell (rt : Runtime A) (s : Storage A) {calls : List (Signed A)}
    (opened : s.blockNumber ≠ 0)
    (recorded : ∀ c ∈ calls, ¬ Unrecorded c.2) : Tells rt s (calls.foldl (attempt rt) s) := by
  induction calls generalizing s with
  | nil => exact .refl s
  | cons c calls ih =>
    have one : Tells rt s (attempt rt s c) := by
      unfold attempt
      split
      next accepted => exact dispatch_tells opened (recorded c (by simp)) accepted
      · exact .refl s
    have number := one.choose_spec.2.2.1
    exact one.trans (ih _ (by rw [number]; exact opened)
      fun c' member => recorded c' (by simp [member]))

/-- The block that opens next neither re-offers nor fails what it drops. -/
def CalmBlock (rt : Runtime A) (s : Storage A) : Prop :=
  (s.table rt).Calm s.opensAt rt.gcKeepFor

instance (s : Storage A) : Decidable (CalmBlock rt s) :=
  inferInstanceAs (Decidable (TaskTable.Calm ..))

/-- What holds of the two at the end of every block. -/
structure InStep (both : Storage A × Storage A) : Prop where
  litter : both.2.litter = both.1.litter
  number : both.2.blockNumber = both.1.blockNumber
  producing : both.1.replaying = false
  folding : both.2.replaying = true

theorem followBlock_inStep {both : Storage A × Storage A} {calls : List (Signed A)}
    (keep : 1 ≤ rt.gcKeepFor) (inStep : InStep both) (calm : CalmBlock rt both.1)
    (recorded : ∀ c ∈ calls, ¬ Unrecorded c.2) : InStep (followBlock rt both calls) := by
  obtain ⟨s, f⟩ := both
  obtain ⟨litter, number, producing, folding⟩ := inStep
  simp only at litter number producing folding calm
  obtain ⟨ticked, started, first, stillProducing⟩ := initializeBlock_producing rt producing
  obtain ⟨swept, second, stillFolding⟩ := initializeBlock_folding rt folding
  obtain ⟨effects, events, called, after, role⟩ :=
    calls_tell rt (s.initializeBlock rt) (by omega) recorded
  obtain ⟨replayed, number', role'⟩ := replayEffects_table (f.initializeBlock rt) rt
    ((s.initializeBlock rt).events ++ effects) (f.initializeBlock rt).now
  have sameTable : f.table rt = s.table rt := by simp only [table, litter]
  have opening : f.opensAt = s.opensAt := by simp only [opensAt, number]
  have clock : (f.initializeBlock rt).now = s.opensAt := by
    simp only [now, second, number, opensAt]
  have clock' : (s.initializeBlock rt).now = s.opensAt := by simp only [now, first, opensAt]
  -- The follower swept before the tick's effects, the producer after them.
  have tables : (foldBlock rt f (produceBlock rt s calls).events).table rt =
      (produceBlock rt s calls).table rt := by
    rw [foldBlock, produceBlock, events, replayed, TaskTable.applyAll_append, called, started,
      swept, ticked, sameTable, opening, clock, clock', TaskTable.tick_gc keep calm]
  exact {
    litter := congrArg TaskTable.toState tables
    number := by
      simp only [followBlock, foldBlock, produceBlock, events, number', after, first, second,
        number]
    producing := role.trans stillProducing
    folding := by
      simp only [followBlock, foldBlock, produceBlock, events, role', stillFolding] }

/-- A producer and a follower of it, from the same state. -/
def together (s : Storage A) : Storage A × Storage A := (s.setReplaying false, s.setReplaying true)

/-- Through every run of calm blocks, the follower's table is the producer's at the end of
each. -/
theorem follower_litter (rt : Runtime A) (keep : 1 ≤ rt.gcKeepFor) (s : Storage A)
    (blocks : List (List (Signed A)))
    (recorded : ∀ calls ∈ blocks, ∀ c ∈ calls, ¬ Unrecorded c.2)
    (calm : Machine.Meets (followBlock rt) (fun both _ => CalmBlock rt both.1) (together s) blocks)
    (done : List (List (Signed A))) (part : done <+: blocks) :
    (Machine.run (followBlock rt) (together s) done).2.litter =
      (Machine.run (followBlock rt) (together s) done).1.litter := by
  obtain ⟨rest, rfl⟩ := part
  have start : InStep (together s) := ⟨rfl, rfl, rfl, rfl⟩
  have calmSoFar := (Machine.meets_append.mp calm).1
  have recordedSoFar : Machine.Meets (followBlock rt)
      (fun _ (calls : List (Signed A)) => ∀ c ∈ calls, ¬ Unrecorded c.2) (together s) done :=
    Machine.meets_of_forall fun calls member => recorded calls (by simp [member])
  exact (Machine.run_invariant InStep
    (fun _ _ inStep both => followBlock_inStep keep inStep both.1 both.2) start
    (Machine.meets_and calmSoFar recordedSoFar)).litter

end Calls

/-! ## A re-offer in the block that drops its parent -/

/-- The shortest timers there are, and rows kept for a single block. -/
def impatient : Runtime Nat where
  miotConfig := { timers := {
    claimWindow := 1, lease := 1, workNag := 1, directiveNag := 1,
    maxNudges := 1, maxReoffers := 3, maxDirectiveNudges := 1 } }
  gcKeepFor := 1
  verify := fun _ _ _ => false

/-- Root is 0, the leader is 1, and 2 and 3 work. -/
def litterOfFour : Storage Nat :=
  genesis (some 0) (some 1) [("root", 0), ("lead", 1), ("tama", 2), ("kuro", 3)]

/-- One sub-task is answered and never cleared, the other never claimed. -/
def unansweredPlan : List (Signed Nat) :=
  [(.signed 0, .openParent "build"),
   (.signed 1, .plan (.ofParent 1) [⟨2, "this", ""⟩, ⟨3, "that", ""⟩]),
   (.signed 2, .update ⟨1, 1⟩ .done "built")]

/-- Until the parent fails, every block is calm. -/
theorem follower_litter_unanswered :
    (Machine.run (followBlock impatient) (together litterOfFour) [unansweredPlan, []]).2.litter =
      (Machine.run (followBlock impatient) (together litterOfFour) [unansweredPlan, []]).1.litter :=
  follower_litter impatient (by decide) litterOfFour [unansweredPlan, [], []] (by decide)
    (by decide +kernel) [unansweredPlan, []] (by decide)

/-- The parent fails in block 3. Block 4 drops its rows and re-offers one of them, so the
follower is left with a sub-task whose parent is gone. -/
theorem follower_litter_drifts :
    let both := Machine.run (followBlock impatient) (together litterOfFour)
      [unansweredPlan, [], [], []]
    both.1.litter.tasks = [] ∧ both.2.litter.tasks.map Task.id = [⟨1, 2⟩] ∧
      both.2.litter ≠ both.1.litter := by
  decide +kernel

end Storage

end AkumaMiot

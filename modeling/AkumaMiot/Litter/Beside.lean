import AkumaMiot.Litter.Told

/-!
# What a follower keeps beside the table

Stats, votes, comments and patrons are written by the call on the producer and by the replay
of its effect on the follower. Both write the same, whatever became of the two tables: what is
beside the table is never computed from it.
-/
namespace AkumaMiot.Storage

variable {A : Type}

/-- `System::providers`. -/
def providers [DecidableEq A] (s : Storage A) (who : A) : Nat :=
  ((s.account.lookup who).getD {}).providers

/-- Two states that agree on everything beside the table. -/
structure Agree [DecidableEq A] (s f : Storage A) : Prop where
  stats : f.stats = s.stats
  messagesSent : f.messagesSent = s.messagesSent
  votes : f.votes = s.votes
  comments : f.comments = s.comments
  patronRequests : f.patronRequests = s.patronRequests
  patrons : f.patrons = s.patrons
  providers : ∀ who, f.providers who = s.providers who
  epoch : f.epoch = s.epoch

/-! ## Frames -/

theorem depositEvent_eq (s : Storage A) (e : Effect A) :
    s.depositEvent e = { s with events := (s.depositEvent e).events } := by
  unfold depositEvent
  split <;> rfl

theorem deposit_eq (s : Storage A) (effects : List (Effect A)) :
    effects.foldl depositEvent s =
      { s with events := (effects.foldl depositEvent s).events } := by
  induction effects generalizing s with
  | nil => rfl
  | cons e es ih => rw [List.foldl_cons, ih, depositEvent_eq]

section Calls

variable [DecidableEq A] {rt : Runtime A}

theorem Agree.refl (s : Storage A) : Agree s s := ⟨rfl, rfl, rfl, rfl, rfl, rfl, fun _ => rfl, rfl⟩

theorem Agree.trans {a b c : Storage A} (first : Agree a b) (second : Agree b c) : Agree a c where
  stats := second.stats.trans first.stats
  messagesSent := second.messagesSent.trans first.messagesSent
  votes := second.votes.trans first.votes
  comments := second.comments.trans first.comments
  patronRequests := second.patronRequests.trans first.patronRequests
  patrons := second.patrons.trans first.patrons
  providers := fun who => (second.providers who).trans (first.providers who)
  epoch := second.epoch.trans first.epoch

theorem Agree.symm {a b : Storage A} (agree : Agree a b) : Agree b a where
  stats := agree.stats.symm
  messagesSent := agree.messagesSent.symm
  votes := agree.votes.symm
  comments := agree.comments.symm
  patronRequests := agree.patronRequests.symm
  patrons := agree.patrons.symm
  providers := fun who => (agree.providers who).symm
  epoch := agree.epoch.symm

theorem deposit_agree (s : Storage A) (effects : List (Effect A)) :
    Agree s (effects.foldl depositEvent s) := by
  rw [deposit_eq]
  exact ⟨rfl, rfl, rfl, rfl, rfl, rfl, fun _ => rfl, rfl⟩

theorem commit_agree (s : Storage A) (t : TaskTable A) (effects : List (Effect A)) :
    Agree s (s.commit t effects) := by
  have stored : Agree s { s with litter := t.intoState } :=
    ⟨rfl, rfl, rfl, rfl, rfl, rfl, fun _ => rfl, rfl⟩
  exact stored.trans (deposit_agree _ effects)

/-- Opening a block, with or without a tick, is about the table only. -/
theorem initializeBlock_agree (s : Storage A) : Agree s (s.initializeBlock rt) := by
  have opened : Agree s { s with blockNumber := s.blockNumber + 1, events := [] } :=
    ⟨rfl, rfl, rfl, rfl, rfl, rfl, fun _ => rfl, rfl⟩
  refine opened.trans ?_
  unfold initializeBlock onInitialize
  by_cases folding : s.replaying = true
  · simp only [folding, if_true]
    split
    · exact commit_agree ..
    · exact .refl _
  · simp only [folding, Bool.false_eq_true, if_false]
    split
    · exact commit_agree ..
    · exact .refl _

/-! ## Patrons -/

theorem incProviders_providers (s : Storage A) (who x : A) :
    (s.incProviders who).providers x =
      if x = who then u32SaturatingAdd (s.providers who) 1 else s.providers x := by
  unfold incProviders providers
  by_cases same : x = who
  · rw [same, if_pos rfl, Finmap.lookup_insert]
    rfl
  · rw [if_neg same, Finmap.lookup_insert_of_ne _ same]

theorem decProviders_providers (s : Storage A) (who x : A) :
    (s.decProviders who).providers x =
      if x = who then s.providers who - 1 else s.providers x := by
  unfold decProviders
  cases found : s.account.lookup who with
  | none =>
    by_cases same : x = who
    · rw [same, if_pos rfl]
      simp [providers, found]
    · rw [if_neg same]
  | some a =>
    by_cases same : x = who
    · subst same
      simp only [if_true]
      split
      next last =>
        simp only [providers, Finmap.lookup_erase, found, Option.getD_some, Option.getD_none]
        omega
      next => simp only [providers, Finmap.lookup_insert, found, Option.getD_some]
    · simp only [if_neg same]
      split
      · simp only [providers, Finmap.lookup_erase_ne same]
      · simp only [providers, Finmap.lookup_insert_of_ne _ same]

theorem foldPatron_approved (s : Storage A) (who by_ : A) (name : String) (now : BlockNumber) :
    s.foldPatron (.patronApproved who name by_) now = { s with
      patronRequests := s.patronRequests.erase who
      patrons := s.patrons.insert who
        ⟨name, ((s.patronRequests.lookup who).map PatronRequest.note).getD "", by_, now⟩
      account := if s.isPatron who then s.account else (s.incProviders who).account } := by
  have same : ({ s with patronRequests := s.patronRequests.erase who } : Storage A).isPatron who =
      s.isPatron who := rfl
  unfold foldPatron
  simp only [same]
  split <;> rfl

theorem foldPatron_revoked (s : Storage A) (who by_ : A) (now : BlockNumber) :
    s.foldPatron (.patronRevoked who by_) now = { s with
      patrons := if s.isPatron who then s.patrons.erase who else s.patrons
      account := if s.isPatron who then (s.decProviders who).account else s.account } := by
  unfold foldPatron
  simp only
  split
  · unfold decProviders
    simp only
    split
    · split <;> rfl
    · rfl
  · rfl

/-- One patron effect, folded into two states that agree, leaves them agreeing. -/
theorem Agree.foldPatron {s f : Storage A} (agree : Agree s f) (e : Effect A)
    (now : BlockNumber) : Agree (s.foldPatron e now) (f.foldPatron e now) := by
  have known : ∀ who, f.isPatron who = s.isPatron who := fun who => by
    simp only [isPatron, agree.patrons]
  cases e with
  | patronRequested who name note carrier =>
    exact { agree with
      patronRequests := congrArg (Finmap.insert who _) agree.patronRequests }
  | patronApproved who name by_ =>
    rw [foldPatron_approved, foldPatron_approved, known, agree.patronRequests, agree.patrons]
    refine { agree with patronRequests := rfl, patrons := rfl, providers := fun x => ?_ }
    split
    · exact agree.providers x
    · -- The one provider a new patron gets comes on top of the same count.
      have inc : (f.incProviders who).providers x = (s.incProviders who).providers x := by
        simp only [incProviders_providers, agree.providers]
      exact inc
  | patronRejected who by_ =>
    exact { agree with patronRequests := congrArg (Finmap.erase who) agree.patronRequests }
  | patronRevoked who by_ =>
    rw [foldPatron_revoked, foldPatron_revoked, known, agree.patrons]
    refine { agree with patrons := rfl, providers := fun x => ?_ }
    split
    · have dec : (f.decProviders who).providers x = (s.decProviders who).providers x := by
        simp only [decProviders_providers, agree.providers]
      exact dec
    · exact agree.providers x
  | _ => exact agree

/-! ## Replaying -/

/-- What is about tasks is replayed into the table only. -/
theorem replayEffect_tabled {e : Effect A} (tabled : TaskTable.Tabled e) (f : Storage A)
    (now : BlockNumber) : Agree f (f.replayEffect rt e now) := by
  cases e with
  | statsReported | statsReported2 | message | reacted | voted => exact tabled.elim
  | patronRequested | patronApproved | patronRejected | patronRevoked => exact tabled.elim
  | _ => exact ⟨rfl, rfl, rfl, rfl, rfl, rfl, fun _ => rfl, rfl⟩

theorem replayEffects_tabled (rt : Runtime A) {effects : List (Effect A)}
    (tabled : ∀ e ∈ effects, TaskTable.Tabled e) (f : Storage A) (now : BlockNumber) :
    Agree f (effects.foldl (fun f e => f.replayEffect rt e now) f) := by
  induction effects generalizing f with
  | nil => exact .refl f
  | cons e es ih =>
    exact (replayEffect_tabled (tabled e (by simp)) f now).trans
      (ih (fun e' member => tabled e' (by simp [member])) _)

/-- A step within a block: replaying its events keeps a follower agreeing. -/
def Mirrors (rt : Runtime A) (s s' : Storage A) : Prop :=
  ∃ effects, s'.events = s.events ++ effects ∧ s'.blockNumber = s.blockNumber ∧
    ∀ f, Agree s f → Agree s' (effects.foldl (fun f e => f.replayEffect rt e s.now) f)

theorem Mirrors.refl (s : Storage A) : Mirrors rt s s := ⟨[], by simp, rfl, fun _ agree => agree⟩

theorem Mirrors.trans {a b c : Storage A} (first : Mirrors rt a b) (second : Mirrors rt b c) :
    Mirrors rt a c := by
  obtain ⟨xs, events, number, replay⟩ := first
  obtain ⟨ys, events', number', replay'⟩ := second
  have clock : b.now = a.now := by simp only [now, number]
  refine ⟨xs ++ ys, by rw [events', events, List.append_assoc], number'.trans number, ?_⟩
  intro f agree
  rw [List.foldl_append]
  rw [clock] at replay'
  exact replay' _ (replay f agree)

theorem commit_mirrors {s : Storage A} (opened : s.blockNumber ≠ 0) (t : TaskTable A)
    {effects : List (Effect A)} (tabled : ∀ e ∈ effects, TaskTable.Tabled e) :
    Mirrors rt s (s.commit t effects) := by
  refine ⟨effects, deposit_events (by exact opened) effects,
    (deposit_frame { s with litter := t.intoState } effects).2.1, fun f agree => ?_⟩
  exact ((commit_agree s t effects).symm.trans agree).trans (replayEffects_tabled rt tabled f s.now)

/-! ## The calls -/

/-- The calls that open a new epoch. -/
def OpensEpoch : LitterCall A → Prop
  | .clearAll | .requestCompaction => True
  | _ => False

instance (c : LitterCall A) : Decidable (OpensEpoch c) :=
  match c with
  | .clearAll | .requestCompaction => .isTrue trivial
  | .openParent .. | .plan .. | .update .. | .setLeader .. | .setRoot .. | .reassign .. |
    .say .. | .publishStandaloneArtifact .. | .reportStats .. | .reportStats2 .. | .post .. |
    .react .. | .vote .. | .carryPatronRequest .. | .approvePatron .. |
    .rejectPatronRequest .. | .revokePatron .. => .isFalse False.elim

theorem comment_agree {s f : Storage A} (agree : Agree s f) (a : ArtifactId) (who : A)
    (body : String) (at_ : BlockNumber) :
    Agree (s.comment a who body at_) (f.comment a who body at_) := by
  refine { agree with comments := ?_ }
  simp only [comment, agree.comments, agree.epoch]

/-- An effect, replayed into two states that agree, leaves them agreeing. -/
theorem Agree.replayEffect {s f : Storage A} (agree : Agree s f) (e : Effect A)
    (now : BlockNumber) : Agree (s.replayEffect rt e now) (f.replayEffect rt e now) := by
  cases e with
  | statsReported who turns toolCalls tokens ms =>
    exact { agree with stats := congrArg (Finmap.insert who _) agree.stats }
  | statsReported2 who turns toolCalls messages tokens ms =>
    exact { agree with
      stats := congrArg (Finmap.insert who _) agree.stats
      messagesSent := congrArg (Finmap.insert who _) agree.messagesSent }
  | voted who artifact up =>
    refine { agree with votes := ?_ }
    simp only [Storage.replayEffect, agree.votes]
  | patronRequested who name note carrier =>
    exact agree.foldPatron (.patronRequested who name note carrier) now
  | patronApproved who name by_ => exact agree.foldPatron (.patronApproved who name by_) now
  | patronRejected who by_ => exact agree.foldPatron (.patronRejected who by_) now
  | patronRevoked who by_ => exact agree.foldPatron (.patronRevoked who by_) now
  | message id sender to_ body parent artifactId =>
    cases artifactId with
    | none => exact { agree with }
    | some a => exact comment_agree agree a sender body now
  | _ => exact { agree with }

theorem dispatch_mirrors {s s' : Storage A} {origin : Origin A} {c : LitterCall A}
    (opened : s.blockNumber ≠ 0) (stays : ¬ OpensEpoch c)
    (accepted : s.dispatch rt origin c = .ok s') : Mirrors rt s s' := by
  cases dispatch_accepted accepted with
  | @verb _ _ call effects t _ _ answer =>
    have answers := TaskTable.call_answers (s.table rt) call s.now
    rw [answer] at answers
    exact commit_mirrors opened t fun e member => (answers e member).tabled
  | @own _ _ e =>
    obtain ⟨_, events, number, _⟩ := s.replayEffect_table rt e s.now
    have told := depositEvent_events (s := s.replayEffect rt e s.now) (number ▸ opened) e
    refine ⟨[e], by rw [told, ← events], by rw [told]; exact number, fun f agree => ?_⟩
    exact (deposit_agree _ [e]).symm.trans (agree.replayEffect e s.now)
  | setRoot who => exact ⟨[], by simp, rfl, fun f agree => { agree with }⟩
  | clearAll | requestCompaction => exact absurd trivial stays

theorem calls_mirror (rt : Runtime A) (s : Storage A) {calls : List (Signed A)}
    (opened : s.blockNumber ≠ 0)
    (stays : ∀ c ∈ calls, ¬ OpensEpoch c.2) : Mirrors rt s (calls.foldl (attempt rt) s) := by
  induction calls generalizing s with
  | nil => exact .refl s
  | cons c calls ih =>
    have one : Mirrors rt s (attempt rt s c) := by
      unfold attempt
      split
      next accepted => exact dispatch_mirrors opened (stays c (by simp)) accepted
      · exact .refl s
    have number := one.choose_spec.2.1
    exact one.trans (ih _ (by rw [number]; exact opened)
      fun c' member => stays c' (by simp [member]))

/-! ## Whole blocks -/

/-- What holds of a producer and a follower at the end of every block. -/
structure Alike (both : Storage A × Storage A) : Prop where
  agree : Agree both.1 both.2
  number : both.2.blockNumber = both.1.blockNumber

theorem followBlock_alike {both : Storage A × Storage A} {calls : List (Signed A)}
    (alike : Alike both) (stays : ∀ c ∈ calls, ¬ OpensEpoch c.2) :
    Alike (followBlock rt both calls) := by
  obtain ⟨s, f⟩ := both
  obtain ⟨agree, number⟩ := alike
  simp only at agree number
  have first : Agree (s.initializeBlock rt) (f.initializeBlock rt) :=
    ((initializeBlock_agree s).symm.trans agree).trans (initializeBlock_agree f)
  have sameNumber : (f.initializeBlock rt).blockNumber = (s.initializeBlock rt).blockNumber := by
    rw [initializeBlock_blockNumber, initializeBlock_blockNumber, number]
  have clock : (f.initializeBlock rt).now = (s.initializeBlock rt).now := by
    simp only [now, sameNumber]
  obtain ⟨effects, events, produced, replay⟩ :=
    calls_mirror rt (s.initializeBlock rt)
      (by rw [initializeBlock_blockNumber]; exact Nat.succ_ne_zero _) stays
  -- What the block opened with is about tasks; the follower replays it to no effect here.
  have opening := replayEffects_tabled rt
    (fun e (told : e ∈ (s.initializeBlock rt).events) => initializeBlock_told told)
    (f.initializeBlock rt) (f.initializeBlock rt).now
  refine ⟨?_, ?_⟩
  · simp only [followBlock, foldBlock, produceBlock, events, List.foldl_append]
    rw [clock] at opening ⊢
    exact replay _ (first.trans opening)
  · have folded := (replayEffects_table (f.initializeBlock rt) rt
      (produceBlock rt s calls).events (f.initializeBlock rt).now).2.1
    exact folded.trans (sameNumber.trans produced.symm)

/-- Through every run of blocks that opens no epoch, the follower has what the producer has
beside the table at the end of each. -/
theorem follower_agrees (rt : Runtime A) (s : Storage A) (blocks : List (List (Signed A)))
    (stays : ∀ calls ∈ blocks, ∀ c ∈ calls, ¬ OpensEpoch c.2) :
    Agree (Machine.run (followBlock rt) (together s) blocks).1
      (Machine.run (followBlock rt) (together s) blocks).2 := by
  have start : Alike (together s) :=
    ⟨⟨rfl, rfl, rfl, rfl, rfl, rfl, fun _ => rfl, rfl⟩, rfl⟩
  have recorded : Machine.Meets (followBlock rt)
      (fun _ (calls : List (Signed A)) => ∀ c ∈ calls, ¬ OpensEpoch c.2) (together s) blocks :=
    Machine.meets_of_forall stays
  exact (Machine.run_invariant Alike (fun _ _ alike stays => followBlock_alike alike stays) start
    recorded).agree

end Calls

/-! ## A litter with a patron -/

/-- A vote that flips, a comment, and a patron who is let in and votes. -/
def busyBlocks : List (List (Signed Nat)) :=
  [[(.signed 2, .vote (.note 1) true), (.signed 2, .vote (.note 1) false),
    (.signed 2, .post ⟨1⟩ none "fine" none (some (.note 1)) [] false false),
    (.signed 3, .carryPatronRequest 9 "vet" "to help" (Vector.replicate 64 0))],
   [(.signed 0, .approvePatron 9), (.signed 9, .vote (.note 1) true),
    (.signed 3, .reportStats2 1 2 3 4 5)],
   [(.signed 9, .reportStats 1 2 3 4), (.signed 0, .revokePatron 9)]]

theorem follower_agrees_busy :
    let both := Machine.run (followBlock { impatient with verify := fun _ _ _ => true })
      (together litterOfFour) busyBlocks
    Agree both.1 both.2 ∧ both.2.votes.lookup (.note 1) = some ⟨[9], [2]⟩ :=
  ⟨follower_agrees _ litterOfFour busyBlocks (by decide), by decide +kernel⟩

end AkumaMiot.Storage

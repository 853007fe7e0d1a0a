import AkumaMiot.Litter.Pallet
import AkumaMiot.Tasks.Replay

/-!
# What an accepted call did

A call of the pallet is a verb of the task table, an effect of the pallet's own, or one of the
three that no event tells of. An effect of the pallet's own is written by the call as it is
written by its replay.
-/
namespace AkumaMiot

variable {A : Type}

/-! ## Guard chains -/

theorem bind_ok {ε α β : Type} {x : Except ε α} {f : α → Except ε β} {b : β} :
    (x >>= f) = .ok b ↔ ∃ a, x = .ok a ∧ f a = .ok b := by
  cases x with
  | error e => simp [bind, Except.bind]
  | ok a => simp [bind, Except.bind]

theorem ensure_ok {p : Prop} [Decidable p] {e : DispatchError} {u : Unit} :
    ensure p e = .ok u ↔ p := by
  unfold ensure
  split <;> simp_all

theorem pure_ok {ε α : Type} {a b : α} : (pure a : Except ε α) = .ok b ↔ a = b := by
  simp [pure, Except.pure]

theorem ensureSigned_ok {origin : Origin A} {who : A} :
    ensureSigned origin = .ok who ↔ origin = .signed who := by
  cases origin <;> simp [ensureSigned]

theorem ensureRoot_ok {origin : Origin A} {u : Unit} :
    ensureRoot origin = .ok u ↔ origin = .root := by
  cases origin <;> simp [ensureRoot]

namespace Storage

variable [DecidableEq A]

theorem ensureNotPatron_ok {s : Storage A} {who : A} {u : Unit} :
    s.ensureNotPatron who = .ok u ↔ s.isPatron who = false := ensure_ok

/-! ## The calls by kind -/

/-- The verb of the task table a call is. -/
def verb (who : A) (auth : Authority) : LitterCall A → Option (TaskTable.Call A)
  | .openParent text => some (.openParent who auth text)
  | .plan parent assignments => some (.plan who auth parent assignments)
  | .update task act text => some (.update who auth task act text)
  | .setLeader leader => some (.setLeader leader)
  | .reassign task to_ => some (.reassign who auth task to_)
  | .say to_ body noAck offRecord => some (.say who auth to_ body noAck offRecord)
  | .publishStandaloneArtifact text => some (.publishStandaloneArtifact who text)
  | _ => none

/-- The effect of the pallet's own a call records. -/
def records (s : Storage A) (who : A) : LitterCall A → Option (Effect A)
  | .reportStats turns toolCalls tokens ms => some (.statsReported who turns toolCalls tokens ms)
  | .reportStats2 turns toolCalls messages tokens ms =>
    some (.statsReported2 who turns toolCalls messages tokens ms)
  | .post id to_ body parent artifactId tags noAck offRecord =>
    some (.message id who to_ body parent artifactId tags (authorityOf who s.litter = .root)
      noAck offRecord)
  | .react target emoji => some (.reacted who target emoji)
  | .vote artifact up => some (.voted who artifact up)
  | .carryPatronRequest requester name note _ => some (.patronRequested requester name note who)
  | .approvePatron requester =>
    (s.patronRequests.lookup requester).map fun r => .patronApproved requester r.name who
  | .rejectPatronRequest requester => some (.patronRejected requester who)
  | .revokePatron patron => some (.patronRevoked patron who)
  | _ => none

/-- What a call checks of its signer and its arguments before anything is written. The table's
verbs check the rest themselves. -/
def Passes (rt : Runtime A) (s : Storage A) (who : A) : LitterCall A → Prop
  | .say .. | .vote .. => True
  | .setLeader _ => s.litter.root = some who
  | .setRoot _ => False
  | .requestCompaction => s.isPatron who = false ∧ authorityOf who s.litter = .root
  | .post _ _ body _ _ tags _ _ =>
    body.utf8ByteSize ≤ rt.miotConfig.limits.maxMessage ∧ tags.length ≤ 8 ∧
      ∀ t ∈ tags, t ≠ "" ∧ t.utf8ByteSize ≤ 32
  | .react _ emoji => emoji ≠ "" ∧ emoji.utf8ByteSize ≤ 16
  | .carryPatronRequest requester name note sig =>
    s.isPatron who = false ∧ s.isMember who = true ∧
      (s.isMember requester = false ∧ s.isPatron requester = false ∧
        (s.patronRequests.lookup requester).isSome = false) ∧
      (note ≠ "" ∧ note.utf8ByteSize ≤ maxPatronNote) ∧ s.nameIsFree name = true ∧
      s.patronRequests.keys.card < maxPatronRequests ∧
      rt.verify requester (s.requestMessage name note) sig = true
  | .approvePatron _ => s.isRoot who = true ∨ s.isPatron who = true
  | .rejectPatronRequest requester =>
    (s.isRoot who = true ∨ s.isPatron who = true) ∧
      (s.patronRequests.lookup requester).isSome = true
  | .revokePatron patron => ∃ p, s.patrons.lookup patron = some p ∧
    (s.isRoot who = true ∨ (p.approvedBy = who ∧ s.isPatron who = true))
  | _ => s.isPatron who = false

/-- What an accepted call left, from whom it came, and the checks it passed. -/
inductive Accepted (rt : Runtime A) (s : Storage A) : Origin A → LitterCall A → Storage A → Prop
  | verb {who : A} {c : LitterCall A} {call : TaskTable.Call A} {effects : List (Effect A)}
      {t : TaskTable A} (passes : Passes rt s who c)
      (is_ : verb who (authorityOf who s.litter) c = some call)
      (answer : (s.table rt).call call s.now = (.ok effects, t)) :
      Accepted rt s (.signed who) c (s.commit t effects)
  | own {who : A} {c : LitterCall A} {e : Effect A} (passes : Passes rt s who c)
      (recorded : records s who c = some e) :
      Accepted rt s (.signed who) c ((s.replayEffect rt e s.now).depositEvent e)
  | clearAll {who : A} {effects : List (Effect A)} {t : TaskTable A}
      (passes : Passes rt s who .clearAll)
      (answer : (s.table rt).clearAll (authorityOf who s.litter) s.now = (.ok effects, t)) :
      Accepted rt s (.signed who) .clearAll
        { s.commit t effects with epoch := u32SaturatingAdd (s.commit t effects).epoch 1 }
  | requestCompaction {who : A} (passes : Passes rt s who .requestCompaction) :
      Accepted rt s (.signed who) .requestCompaction
        { s with epoch := u32SaturatingAdd s.epoch 1 }
  | setRoot (who : A) :
      Accepted rt s .root (.setRoot who) { s with litter := { s.litter with root := some who } }

/-! ## Every accepted call -/

theorem apply_accepted {s s' : Storage A} {rt : Runtime A} {who : A}
    {f : TaskTable A → Authority → BlockNumber → Except Error (List (Effect A)) × TaskTable A}
    (accepted : s.apply rt who f = .ok s') :
    ∃ effects t, f (s.table rt) (authorityOf who s.litter) s.now = (.ok effects, t) ∧
      s' = s.commit t effects := by
  unfold apply at accepted
  split at accepted
  · simp at accepted
  next effects t answer => exact ⟨effects, t, answer, (Except.ok.inj accepted).symm⟩


/-- A call that writes what the replay of its effect writes. -/
theorem Accepted.recording {s s' : Storage A} {rt : Runtime A} {who : A} {c : LitterCall A}
    {e : Effect A} (passes : Passes rt s who c) (recorded : records s who c = some e)
    (wrote : (s.replayEffect rt e s.now).depositEvent e = s') :
    Accepted rt s (.signed who) c s' := wrote ▸ .own passes recorded

theorem dispatch_accepted {s s' : Storage A} {rt : Runtime A} {origin : Origin A}
    {c : LitterCall A} (accepted : s.dispatch rt origin c = .ok s') :
    Accepted rt s origin c s' := by
  cases c with
  | openParent text =>
    simp only [dispatch, openParent, bind_ok, ensureSigned_ok, ensureNotPatron_ok] at accepted
    obtain ⟨who, rfl, _, member, accepted⟩ := accepted
    obtain ⟨effects, t, answer, rfl⟩ := apply_accepted accepted
    exact .verb member rfl answer
  | plan parent assignments =>
    simp only [dispatch, plan, bind_ok, ensureSigned_ok, ensureNotPatron_ok] at accepted
    obtain ⟨who, rfl, _, member, accepted⟩ := accepted
    obtain ⟨effects, t, answer, rfl⟩ := apply_accepted accepted
    exact .verb member rfl answer
  | update task act text =>
    simp only [dispatch, update, bind_ok, ensureSigned_ok, ensureNotPatron_ok] at accepted
    obtain ⟨who, rfl, _, member, accepted⟩ := accepted
    obtain ⟨effects, t, answer, rfl⟩ := apply_accepted accepted
    exact .verb member rfl answer
  | reassign task to_ =>
    simp only [dispatch, reassign, bind_ok, ensureSigned_ok, ensureNotPatron_ok] at accepted
    obtain ⟨who, rfl, _, member, accepted⟩ := accepted
    obtain ⟨effects, t, answer, rfl⟩ := apply_accepted accepted
    exact .verb member rfl answer
  | say to_ body noAck offRecord =>
    simp only [dispatch, say, bind_ok, ensureSigned_ok] at accepted
    obtain ⟨who, rfl, accepted⟩ := accepted
    obtain ⟨effects, t, answer, rfl⟩ := apply_accepted accepted
    exact .verb trivial rfl answer
  | publishStandaloneArtifact text =>
    simp only [dispatch, publishStandaloneArtifact, bind_ok, ensureSigned_ok,
      ensureNotPatron_ok] at accepted
    obtain ⟨who, rfl, _, member, accepted⟩ := accepted
    obtain ⟨effects, t, answer, rfl⟩ := apply_accepted accepted
    exact .verb member rfl answer
  -- The calls of the root, and those that only record.
  | setLeader leader =>
    simp only [dispatch, setLeader, bind_ok, ensureSigned_ok, ensure_ok, pure_ok] at accepted
    obtain ⟨who, rfl, _, root, rfl⟩ := accepted
    exact .verb root rfl rfl
  | clearAll =>
    simp only [dispatch, clearAll, bind_ok, ensureSigned_ok, ensureNotPatron_ok, pure_ok]
      at accepted
    obtain ⟨who, rfl, _, member, cleared, accepted, rfl⟩ := accepted
    obtain ⟨effects, t, answer, rfl⟩ := apply_accepted accepted
    exact .clearAll member answer
  | requestCompaction =>
    simp only [dispatch, requestCompaction, bind_ok, ensureSigned_ok, ensureNotPatron_ok,
      ensure_ok, pure_ok] at accepted
    obtain ⟨who, rfl, _, member, _, root, rfl⟩ := accepted
    exact .requestCompaction ⟨member, root⟩
  | setRoot who =>
    simp only [dispatch, setRoot, bind_ok, ensureRoot_ok, pure_ok] at accepted
    obtain ⟨_, rfl, rfl⟩ := accepted
    exact .setRoot who
  | reportStats turns toolCalls tokens ms =>
    simp only [dispatch, reportStats, bind_ok, ensureSigned_ok, ensureNotPatron_ok, pure_ok]
      at accepted
    obtain ⟨who, rfl, _, member, rfl⟩ := accepted
    exact .recording member rfl rfl
  | reportStats2 turns toolCalls messages tokens ms =>
    simp only [dispatch, reportStats2, bind_ok, ensureSigned_ok, ensureNotPatron_ok, pure_ok]
      at accepted
    obtain ⟨who, rfl, _, member, rfl⟩ := accepted
    exact .recording member rfl rfl
  | post id to_ body parent artifactId tags noAck offRecord =>
    simp only [dispatch, post, bind_ok, ensureSigned_ok, ensure_ok, pure_ok] at accepted
    obtain ⟨who, rfl, _, short, _, few, _, fits, rfl⟩ := accepted
    cases artifactId with
    | none => exact .recording ⟨short, few, fits⟩ rfl rfl
    | some a => exact .recording ⟨short, few, fits⟩ rfl rfl
  | react target emoji =>
    simp only [dispatch, react, bind_ok, ensureSigned_ok, ensure_ok, pure_ok] at accepted
    obtain ⟨who, rfl, _, short, rfl⟩ := accepted
    exact .recording short rfl rfl
  | vote artifact up =>
    simp only [dispatch, vote, bind_ok, ensureSigned_ok, pure_ok] at accepted
    obtain ⟨who, rfl, rfl⟩ := accepted
    exact .recording trivial rfl rfl
  | carryPatronRequest requester name note sig =>
    simp only [dispatch, carryPatronRequest, bind_ok, ensureSigned_ok, ensureNotPatron_ok,
      ensure_ok, pure_ok] at accepted
    obtain ⟨who, rfl, _, own, _, member, _, stranger, _, noted, _, free, _, room, _, signed,
      rfl⟩ := accepted
    exact .recording ⟨own, member, stranger, noted, free, room, signed⟩ rfl rfl
  -- The name approved is the one that was asked for.
  | approvePatron requester =>
    simp only [dispatch, approvePatron, bind_ok, ensureSigned_ok, ensure_ok] at accepted
    obtain ⟨who, rfl, _, allowed, accepted⟩ := accepted
    split at accepted
    · simp at accepted
    next req found =>
      rw [pure_ok] at accepted
      subst accepted
      have recorded : records s who (.approvePatron requester) =
          some (.patronApproved requester req.name who) := by simp only [records, found]; rfl
      exact .recording allowed recorded rfl
  | rejectPatronRequest requester =>
    simp only [dispatch, rejectPatronRequest, bind_ok, ensureSigned_ok, ensure_ok, pure_ok]
      at accepted
    obtain ⟨who, rfl, _, allowed, _, pending, rfl⟩ := accepted
    exact .recording ⟨allowed, pending⟩ rfl rfl
  | revokePatron patron =>
    simp only [dispatch, revokePatron, bind_ok, ensureSigned_ok] at accepted
    obtain ⟨who, rfl, accepted⟩ := accepted
    split at accepted
    · simp at accepted
    next p found =>
      simp only [bind_ok, ensure_ok, pure_ok] at accepted
      obtain ⟨_, allowed, rfl⟩ := accepted
      exact .recording ⟨p, found, allowed⟩ rfl rfl

end Storage

end AkumaMiot

import AkumaMiot.Litter.Fold

/-!
# What a call does to accounts

A nonce only ever goes up while its account lives. An account dies with its last provider and
comes to life, with a nonce of zero, when a patron is approved.
-/
namespace AkumaMiot.Storage

variable {A : Type}

/-! ## Frames -/

theorem deposit_account (s : Storage A) (effects : List (Effect A)) :
    (effects.foldl depositEvent s).account = s.account := by
  induction effects generalizing s with
  | nil => rfl
  | cons e es ih =>
    rw [List.foldl_cons, ih]
    unfold depositEvent
    split <;> rfl

theorem depositEvent_account (s : Storage A) (e : Effect A) :
    (s.depositEvent e).account = s.account := deposit_account s [e]

theorem commit_account (s : Storage A) (t : TaskTable A) (effects : List (Effect A)) :
    (s.commit t effects).account = s.account := deposit_account _ effects

theorem initializeBlock_account (s : Storage A) (rt : Runtime A) :
    (s.initializeBlock rt).account = s.account := by
  unfold initializeBlock onInitialize
  simp only
  split <;> rename_i ticked <;> split <;> first | exact commit_account _ _ _ | rfl

theorem tickNow_account (s : Storage A) (rt : Runtime A) :
    (s.tickNow rt).account = s.account := by
  unfold tickNow
  simp only
  split
  · exact commit_account _ _ _
  · rfl

/-! ## One step -/

/-- No nonce goes back, and only `born` come to life. -/
def Ages [DecidableEq A] (old new : StorageMap A AccountInfo) (born : A → Prop) : Prop :=
  ∀ who a, new.lookup who = some a →
    (∃ b, old.lookup who = some b ∧ b.nonce ≤ a.nonce) ∨ (old.lookup who = none ∧ born who)

section Calls

variable [DecidableEq A]

theorem Ages.refl (accounts : StorageMap A AccountInfo) (born : A → Prop) :
    Ages accounts accounts born := fun _ a found => .inl ⟨a, found, Nat.le_refl _⟩

theorem Ages.of_eq {old new : StorageMap A AccountInfo} {born : A → Prop} (same : new = old) :
    Ages old new born := same ▸ .refl old born

/-- Without births, steps compose. -/
theorem Ages.trans {a b c : StorageMap A AccountInfo} (first : Ages a b fun _ => False)
    (second : Ages b c fun _ => False) : Ages a c fun _ => False := by
  intro who info found
  rcases second who info found with ⟨mid, there, le⟩ | ⟨_, no⟩
  · rcases first who mid there with ⟨old, was, le'⟩ | ⟨_, no⟩
    · exact .inl ⟨old, was, le'.trans le⟩
    · exact no.elim
  · exact no.elim

theorem incProviders_ages (s : Storage A) (who : A) :
    Ages s.account (s.incProviders who).account (· = who) := by
  intro other info found
  simp only [incProviders] at found
  by_cases same : other = who
  · subst same
    rw [Finmap.lookup_insert] at found
    obtain rfl := Option.some.inj found
    cases was : s.account.lookup other with
    | none => exact .inr ⟨rfl, rfl⟩
    | some b => exact .inl ⟨b, rfl, by simp⟩
  · rw [Finmap.lookup_insert_of_ne _ same] at found
    exact .inl ⟨info, found, Nat.le_refl _⟩

theorem decProviders_ages (s : Storage A) (who : A) (born : A → Prop) :
    Ages s.account (s.decProviders who).account born := by
  intro other info found
  unfold decProviders at found
  split at found
  next a was =>
    split at found
    · by_cases same : other = who
      · subst same
        simp at found
      · rw [Finmap.lookup_erase_ne same] at found
        exact .inl ⟨info, found, Nat.le_refl _⟩
    · by_cases same : other = who
      · subst same
        rw [Finmap.lookup_insert] at found
        obtain rfl := Option.some.inj found
        exact .inl ⟨a, was, Nat.le_refl _⟩
      · rw [Finmap.lookup_insert_of_ne _ same] at found
        exact .inl ⟨info, found, Nat.le_refl _⟩
  · exact .inl ⟨info, found, Nat.le_refl _⟩

/-- Whom an effect approves as a patron. -/
def approves : Effect A → Option A
  | .patronApproved who _ _ => some who
  | _ => none

theorem foldPatron_ages (s : Storage A) (e : Effect A) (now : BlockNumber) :
    Ages s.account (s.foldPatron e now).account (fun who => approves e = some who) := by
  unfold foldPatron
  split
  · exact .refl _ _
  next who name by_ =>
    simp only
    split
    · exact .refl _ _
    · intro other info found
      rcases incProviders_ages { s with patronRequests := s.patronRequests.erase who } who other
          info found with old | ⟨none, same⟩
      · exact .inl old
      · exact .inr ⟨none, by rw [same]; rfl⟩
  · exact .refl _ _
  · split
    · exact decProviders_ages _ _ _
    · exact .refl _ _
  · exact .refl _ _

theorem replayEffect_ages (s : Storage A) (rt : Runtime A) (e : Effect A) (now : BlockNumber) :
    Ages s.account (s.replayEffect rt e now).account (fun who => approves e = some who) := by
  unfold replayEffect
  split
  · exact .refl _ _
  · exact .refl _ _
  · exact .refl _ _
  iterate 4
    · exact foldPatron_ages s _ now
  · exact .refl _ _
  · exact .refl _ _

/-! ## Calls -/

/-- Whom a call approves as a patron. -/
def approvesCall : LitterCall A → Option A
  | .approvePatron who => some who
  | _ => none

theorem records_approves {s : Storage A} {who : A} {c : LitterCall A} {e : Effect A}
    (recorded : records s who c = some e) : approves e = approvesCall c := by
  cases c with
  | approvePatron requester =>
    obtain ⟨_, _, rfl⟩ := Option.map_eq_some_iff.mp recorded
    rfl
  | openParent | plan | update | setLeader | setRoot | reassign | say | clearAll
  | publishStandaloneArtifact | requestCompaction => cases recorded
  | _ =>
    cases recorded
    rfl

/-- An accepted call ages accounts, and gives life to nobody but the patron it approves. -/
theorem dispatch_ages {s s' : Storage A} {rt : Runtime A} {origin : Origin A} {c : LitterCall A}
    (accepted : s.dispatch rt origin c = .ok s') :
    Ages s.account s'.account (fun who => approvesCall c = some who) := by
  cases dispatch_accepted accepted with
  | verb => exact .of_eq (commit_account _ _ _)
  | @own _ _ e _ recorded =>
    rw [depositEvent_account, ← records_approves recorded]
    exact replayEffect_ages s rt e s.now
  | @clearAll _ effects t => exact .of_eq (commit_account s t effects)
  | requestCompaction | setRoot => exact .refl _ _

end Calls

end AkumaMiot.Storage

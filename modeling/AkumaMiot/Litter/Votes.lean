import AkumaMiot.Lib.Machine
import AkumaMiot.Litter.Beside

/-!
# Votes

A tally keeps two lists that are edited in place. What it stands for is a map from voters to the
side they are on, which a vote changes at its own voter only: so nobody is on both sides, and where
somebody stands follows from their own votes alone.
-/
namespace AkumaMiot

variable {A : Type} [DecidableEq A]

/-! ## One tally -/

/-- Where a vote leaves its voter: on the side voted for, or nowhere if they stood there. -/
def turned (stood : Option Bool) (up : Bool) : Option Bool :=
  if stood = some up then none else some up

namespace Tally

/-- Where a voter stands, `up` or not. -/
def side (t : Tally A) (who : A) : Option Bool :=
  if who ∈ t.up then some true else if who ∈ t.down then some false else none

omit [DecidableEq A] in
/-- Each voter appears at most once, on one side. -/
def Once (t : Tally A) : Prop := (t.up ++ t.down).Nodup

omit [DecidableEq A] in
theorem once_iff {t : Tally A} :
    t.Once ↔ t.up.Nodup ∧ t.down.Nodup ∧ ∀ who ∈ t.up, who ∉ t.down := by
  rw [Once, List.nodup_append]
  constructor
  · rintro ⟨up, down, apart⟩
    exact ⟨up, down, fun who high low => apart who high who low rfl⟩
  · rintro ⟨up, down, apart⟩
    exact ⟨up, down, fun a high b low same => apart a high (same ▸ low)⟩

/-- The two sides exchanged. -/
def swap (t : Tally A) : Tally A := ⟨t.down, t.up⟩

omit [DecidableEq A] in
theorem swap_once {t : Tally A} : t.swap.Once ↔ t.Once := by
  simp only [once_iff, swap]
  constructor
  · rintro ⟨down, up, apart⟩
    exact ⟨up, down, fun who high low => apart who low high⟩
  · rintro ⟨up, down, apart⟩
    exact ⟨down, up, fun who low high => apart who high low⟩

/-- Against a side is for the other. -/
theorem castVote_swap (t : Tally A) (who : A) :
    castVote t who false = (castVote t.swap who true).swap := by
  simp only [castVote, swap, Bool.false_eq_true, if_false, if_true]

theorem side_swap {t : Tally A} (once : t.Once) (who : A) :
    t.swap.side who = (t.side who).map fun up => !up := by
  have apart := (once_iff.mp once).2.2 who
  unfold side swap
  by_cases high : who ∈ t.up
  · simp [high, apart high]
  · by_cases low : who ∈ t.down <;> simp [high, low]

theorem castVote_up (t : Tally A) (who : A) : castVote t who true =
    if who ∈ t.up then ⟨t.up.erase who, t.down⟩ else ⟨t.up ++ [who], t.down.erase who⟩ := by
  unfold castVote
  simp only [if_true]
  split <;> rfl

theorem castVote_up_once {t : Tally A} (once : t.Once) (who : A) : (castVote t who true).Once := by
  obtain ⟨up, down, apart⟩ := once_iff.mp once
  rw [castVote_up, once_iff]
  split
  · exact ⟨up.erase who, down, fun x high => apart x (List.mem_of_mem_erase high)⟩
  next absent =>
    refine ⟨?_, down.erase who, fun x high low => ?_⟩
    · exact List.nodup_append.mpr ⟨up, List.nodup_singleton who, fun a there b last same =>
        absent (List.mem_singleton.mp last ▸ same ▸ there)⟩
    · rcases List.mem_append.mp high with old | new
      · exact apart x old (List.mem_of_mem_erase low)
      · rw [List.mem_singleton.mp new] at low
        exact down.not_mem_erase low

theorem castVote_up_side {t : Tally A} (once : t.Once) (who x : A) :
    (castVote t who true).side x =
      if x = who then turned (t.side who) true else t.side x := by
  obtain ⟨up, down, apart⟩ := once_iff.mp once
  rw [castVote_up]
  by_cases own : x = who
  · subst own
    by_cases high : x ∈ t.up
    · simp [side, turned, high, apart x high, up.not_mem_erase]
    · by_cases low : x ∈ t.down <;> simp [side, turned, high, low]
  -- Neither list changes for anybody else.
  · by_cases high : who ∈ t.up <;> simp [side, high, own, List.mem_erase_of_ne own]

/-- A vote keeps every voter on at most one side. -/
theorem castVote_once {t : Tally A} (once : t.Once) (who : A) (up : Bool) :
    (castVote t who up).Once := by
  cases up with
  | true => exact castVote_up_once once who
  -- A vote against is a vote for with the sides exchanged.
  | false =>
    rw [castVote_swap, swap_once]
    exact castVote_up_once (swap_once.mpr once) who

/-- A vote turns its own voter and leaves all others where they stand. -/
theorem castVote_side {t : Tally A} (once : t.Once) (who : A) (up : Bool) :
    (castVote t who up).side = Function.update t.side who (turned (t.side who) up) := by
  funext x
  rw [Function.update_apply]
  cases up with
  | true => exact castVote_up_side once who x
  | false =>
    have once' := swap_once.mpr once
    rw [castVote_swap, side_swap (castVote_up_once once' who), castVote_up_side once',
      side_swap once, side_swap once]
    split
    · rcases t.side who with _ | up
      · rfl
      · cases up <;> rfl
    · cases t.side x <;> simp

/-! ## Any sequence of votes -/

/-- The votes of one voter, in order. -/
def ownVotes (who : A) (votes : List (A × Bool)) : List Bool :=
  (votes.filter fun v => v.1 = who).map Prod.snd

theorem votes_once {t : Tally A} (once : t.Once) (votes : List (A × Bool)) :
    (votes.foldl (fun t v => castVote t v.1 v.2) t).Once :=
  Machine.run_keeps Once (fun _ v once => castVote_once once v.1 v.2) once

theorem votes_side {t : Tally A} (once : t.Once) (votes : List (A × Bool)) (who : A) :
    (votes.foldl (fun t v => castVote t v.1 v.2) t).side who =
      (ownVotes who votes).foldl turned (t.side who) := by
  induction votes generalizing t with
  | nil => rfl
  | cons v votes ih =>
    rw [List.foldl_cons, ih (castVote_once once v.1 v.2), castVote_side once, Function.update_apply]
    by_cases own : v.1 = who
    · simp [ownVotes, own]
    · simp [ownVotes, own, Ne.symm own]

end Tally

/-! ## The pallet -/

namespace Storage

/-- `Pallet::tally`. -/
def tally (s : Storage A) (artifact : ArtifactId) : Tally A := (s.votes.lookup artifact).getD {}

/-- What happens to a state: on a producer blocks open and calls are made, on a replica effects
are folded. -/
inductive Deed (A : Type)
  | block
  | call (origin : Origin A) (c : LitterCall A)
  | fold (effect : Effect A) (now : BlockNumber)

def deed (rt : Runtime A) (s : Storage A) : Deed A → Storage A
  | .block => s.initializeBlock rt
  | .call origin c => attempt rt s (origin, c)
  | .fold effect now => s.replayEffect rt effect now

/-- The vote on an artifact that this is. -/
def voteOn (artifact : ArtifactId) : Deed A → Option (A × Bool)
  | .call (.signed who) (.vote a up) => if a = artifact then some (who, up) else none
  | .fold (.voted who a up) _ => if a = artifact then some (who, up) else none
  | _ => none

theorem Agree.tally {s f : Storage A} (agree : Agree s f) (artifact : ArtifactId) :
    f.tally artifact = s.tally artifact := by
  unfold Storage.tally
  rw [agree.votes]

theorem foldPatron_votes (s : Storage A) (e : Effect A) (now : BlockNumber) :
    (s.foldPatron e now).votes = s.votes := by
  cases e with
  | patronApproved who name by_ => rw [foldPatron_approved]
  | patronRevoked who by_ =>
    simp only [foldPatron]
    split
    · unfold decProviders
      split
      · split <;> rfl
      · rfl
    · rfl
  | _ => rfl

/-- A replica folds a vote as the producer's call records it, and nothing else touches a tally. -/
theorem replayEffect_tally (rt : Runtime A) (s : Storage A) (e : Effect A) (now : BlockNumber)
    (artifact : ArtifactId) : (s.replayEffect rt e now).tally artifact =
      (voteOn artifact (.fold e now)).toList.foldl (fun t v => castVote t v.1 v.2)
        (s.tally artifact) := by
  cases e with
  | voted who a up =>
    simp only [replayEffect, voteOn, tally]
    by_cases here : a = artifact
    · rw [here, Finmap.lookup_insert]
      simp
    · rw [Finmap.lookup_insert_of_ne _ (Ne.symm here), if_neg here]
      rfl
  | patronRequested who name note carrier => rfl
  | patronApproved who name by_ =>
    simp only [replayEffect, tally, foldPatron_votes]
    rfl
  | patronRejected who by_ => rfl
  | patronRevoked who by_ =>
    simp only [replayEffect, tally, foldPatron_votes]
    rfl
  | message id sender to_ body parent artifactId => cases artifactId <;> rfl
  | _ => rfl

theorem attempt_tally (rt : Runtime A) (s : Storage A) (origin : Origin A) (c : LitterCall A)
    (artifact : ArtifactId) : (attempt rt s (origin, c)).tally artifact =
      (voteOn artifact (.call origin c)).toList.foldl (fun t v => castVote t v.1 v.2)
        (s.tally artifact) := by
  have told : ∀ (s : Storage A) e, (s.depositEvent e).tally artifact = s.tally artifact := by
    intro s e
    rw [depositEvent_eq]
    rfl
  by_cases votes : ∃ a up, c = .vote a up
  -- A signed vote is told and folded, as a replica folds it; nobody else may vote.
  · obtain ⟨a, up, rfl⟩ := votes
    cases origin with
    | signed who =>
      have left : attempt rt s (.signed who, .vote a up) =
          (s.replayEffect rt (.voted who a up) s.now).depositEvent (.voted who a up) := rfl
      rw [left, told, replayEffect_tally]
      rfl
    | root => rfl
    | none => rfl
  · have silent : voteOn artifact (.call origin c) = none := by
      cases origin <;> cases c <;> first | rfl | exact absurd ⟨_, _, rfl⟩ votes
    rw [silent]
    unfold attempt
    split
    next s' accepted =>
      cases dispatch_accepted accepted with
      | @verb _ _ call effects t _ _ answer => exact (commit_agree s t effects).tally artifact
      | @own who _ e passes recorded =>
        -- Of the calls that fold their own effect only a vote folds a vote.
        have notVote : voteOn artifact (.fold e s.now) = none := by
          cases e with
          | voted who' a up =>
            cases c with
            | vote a' up' => exact absurd ⟨_, _, rfl⟩ votes
            | approvePatron requester =>
              obtain ⟨_, _, same⟩ := Option.map_eq_some_iff.mp recorded
              cases same
            | _ => cases recorded
          | _ => rfl
        rw [told, replayEffect_tally, notVote]
      | @clearAll who effects t passes answer =>
        exact (commit_agree s t effects).tally artifact
      | requestCompaction passes => rfl
      | setRoot who => rfl
    · rfl

theorem deed_tally (rt : Runtime A) (s : Storage A) (d : Deed A) (artifact : ArtifactId) :
    (s.deed rt d).tally artifact =
      (voteOn artifact d).toList.foldl (fun t v => castVote t v.1 v.2) (s.tally artifact) := by
  cases d with
  | block => exact (initializeBlock_agree s).tally artifact
  | call origin c => exact attempt_tally rt s origin c artifact
  | fold effect now => exact replayEffect_tally rt s effect now artifact

theorem run_tally (rt : Runtime A) (s : Storage A) (deeds : List (Deed A)) (artifact : ArtifactId) :
    (Machine.run (deed rt) s deeds).tally artifact =
      (deeds.filterMap (voteOn artifact)).foldl (fun t v => castVote t v.1 v.2)
        (s.tally artifact) := by
  induction deeds generalizing s with
  | nil => rfl
  | cons d deeds ih =>
    rw [Machine.run_cons, ih, deed_tally, List.filterMap_cons]
    cases voteOn artifact d <;> rfl

/-- From genesis on, whatever is called or folded, and whoever votes in what order: each voter
appears at most once in an artifact's tally, and where they stand follows from their own votes on
it, so that it is the same in every run with those. -/
theorem votes_run (rt : Runtime A) (root leader : Option A) (roster : List (String × A))
    (deeds : List (Deed A)) (artifact : ArtifactId) :
    let t := (Machine.run (deed rt) (genesis root leader roster) deeds).tally artifact
    (t.up ++ t.down).Nodup ∧ ∀ who,
      t.side who = (Tally.ownVotes who (deeds.filterMap (voteOn artifact))).foldl turned none := by
  intro t
  have once : (Tally.mk [] [] : Tally A).Once := List.nodup_nil
  have start : (genesis root leader roster).tally artifact = ⟨[], []⟩ := by
    rw [tally, genesis, Finmap.lookup_empty]
    rfl
  have folded : t = (deeds.filterMap (voteOn artifact)).foldl
      (fun t v => castVote t v.1 v.2) ⟨[], []⟩ := by rw [← start, ← run_tally]
  rw [folded]
  exact ⟨Tally.votes_once once _, fun who => Tally.votes_side once _ who⟩

end Storage

end AkumaMiot

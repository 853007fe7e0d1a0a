import AkumaMiot.Mesh.Mesh

/-!
# What one node keeps by itself

The safety of an election rests on a few fields of each node. Here is what every handler does
to them, for any notion `won` of having won a term and any record `granted` of the routes
that answered a real vote request with yes.
-/
namespace AkumaMiot

/-- A later hard state: the term never falls, and a vote cast in a term stays. -/
def Hard.Advances (h h' : Hard) : Prop :=
  h.term < h'.term ∨ (h.term = h'.term ∧ (h.votedFor = none ∨ h'.votedFor = h.votedFor))

/-- In term `t` this hard state voted for `c`, or it has left the term behind. -/
def Hard.Backs (h : Hard) (c : Name) (t : Nat) : Prop :=
  t < h.term ∨ (t = h.term ∧ h.votedFor = some c)

theorem Hard.Advances.refl (h : Hard) : h.Advances h := .inr ⟨rfl, .inr rfl⟩

theorem Hard.Advances.trans {a b c : Hard} (first : a.Advances b) (second : b.Advances c) :
    a.Advances c := by
  rcases first with up | ⟨same, kept⟩
  · rcases second with up' | ⟨same', _⟩
    · exact .inl (Nat.lt_trans up up')
    · exact .inl (same' ▸ up)
  · rcases second with up' | ⟨same', kept'⟩
    · exact .inl (same ▸ up')
    · refine .inr ⟨same.trans same', ?_⟩
      rcases kept with none | kept
      · exact .inl none
      · rcases kept' with none | kept'
        · exact .inl (kept ▸ none)
        · exact .inr (kept'.trans kept)

/-- A vote once backed stays backed. -/
theorem Hard.Backs.mono {h h' : Hard} {c : Name} {t : Nat} (backs : h.Backs c t)
    (later : h.Advances h') : h'.Backs c t := by
  rcases backs with past | ⟨now, voted⟩
  · rcases later with up | ⟨same, _⟩
    · exact .inl (Nat.lt_trans past up)
    · exact .inl (same ▸ past)
  · rcases later with up | ⟨same, none | kept⟩
    · exact .inl (now ▸ up)
    · simp [voted] at none
    · exact .inr ⟨now.trans same, kept.trans voted⟩

/-- No hard state backs two candidates in its own term. -/
theorem Hard.Backs.unique {h : Hard} {c c' : Name} (one : h.Backs c h.term)
    (two : h.Backs c' h.term) : c = c' := by
  rcases one with past | ⟨_, one⟩
  · exact absurd past (Nat.lt_irrefl _)
  · rcases two with past | ⟨_, two⟩
    · exact absurd past (Nat.lt_irrefl _)
    · exact Option.some.inj (one.symm.trans two)

/-- What one node's own fields say about the election. -/
structure Mesh.Sound (won : Name → Nat → Prop) (granted : Route → Nat → Prop) (m : Mesh) :
    Prop where
  leader : ∀ c, m.leader = some c → won c m.hard.term
  leads : m.role = .leader → won m.name m.hard.term
  silent : m.role = .preCandidate ∨ m.role = .candidate → m.leader = none
  campaign : m.role = .preCandidate → m.campaignTerm = m.hard.term + 1
  votesSelf : m.role = .candidate → m.hard.votedFor = some m.name
  votes : m.role = .candidate → ∀ r ∈ m.votes, granted r m.hard.term
  learner : m.learner = true → m.role = .follower

/-- What a status claims, when its sender keeps `Sound`. -/
structure Status.Sound (won : Name → Nat → Prop) (st : Status) : Prop where
  leader : ∀ c, st.leader = some c → won c st.term
  leads : st.role = .leader → won st.name st.term

/-- What every handler leaves alone or only moves forward. Routes are only ever dropped, and
only by a status that carries the node's own name. -/
structure Mesh.Moves (m m' : Mesh) : Prop where
  name : m'.name = m.name
  learner : m'.learner = m.learner
  advances : m.hard.Advances m'.hard
  clean : m'.hardDirty = false → m.hardDirty = false ∧ m'.hard = m.hard

namespace Mesh

variable {won : Name → Nat → Prop} {granted : Route → Nat → Prop}

theorem Moves.refl (m : Mesh) : m.Moves m :=
  ⟨rfl, rfl, .refl _, fun clean => ⟨clean, rfl⟩⟩

theorem Moves.trans {a b c : Mesh} (first : a.Moves b) (second : b.Moves c) : a.Moves c where
  name := second.name.trans first.name
  learner := second.learner.trans first.learner
  advances := first.advances.trans second.advances
  clean := fun clean =>
    have ⟨mid, same⟩ := second.clean clean
    have ⟨start, same'⟩ := first.clean mid
    ⟨start, same.trans same'⟩

theorem new_sound (name : Name) (routes : List Route) (timing : Timing) (hard : Hard) (now : Nat)
    (seed : UInt64) : (new name routes timing hard now seed).Sound won granted := by
  constructor <;> simp [new, resetDeadline]

theorem Sound.mono {m : Mesh} (sound : m.Sound won granted) {won' : Name → Nat → Prop}
    {granted' : Route → Nat → Prop} (wins : ∀ c t, won c t → won' c t)
    (grants : ∀ r t, granted r t → granted' r t) : m.Sound won' granted' where
  leader := fun c names => wins _ _ (sound.leader c names)
  leads := fun role => wins _ _ (sound.leads role)
  silent := sound.silent
  campaign := sound.campaign
  votesSelf := sound.votesSelf
  votes := fun role r member => grants _ _ (sound.votes role r member)
  learner := sound.learner

/-- What a node says about itself is what it keeps. -/
theorem Sound.status {m : Mesh} (sound : m.Sound won granted) (head : Nat) (account : String) :
    (m.status head account).Sound won :=
  ⟨sound.leader, sound.leads⟩

/-! ## Terms and leaders seen elsewhere -/

theorem stepDown_sound (m : Mesh) (now : Nat) : (m.stepDown now).Sound won granted := by
  constructor <;> simp [stepDown, resetDeadline]

theorem stepDown_moves (m : Mesh) (now : Nat) : m.Moves (m.stepDown now) :=
  ⟨rfl, rfl, .refl _, fun clean => ⟨clean, rfl⟩⟩

theorem adoptTerm_sound (m : Mesh) (term now : Nat) :
    (m.adoptTerm term now).Sound won granted := stepDown_sound _ _

theorem adoptTerm_moves (m : Mesh) (term now : Nat) : m.Moves (m.adoptTerm term now) := by
  unfold adoptTerm
  split
  next higher => exact ⟨rfl, rfl, .inl higher, by simp [stepDown, resetDeadline]⟩
  · exact stepDown_moves m now

theorem adoptTerm_routes (m : Mesh) (term now : Nat) :
    (m.adoptTerm term now).routes = m.routes := by
  unfold adoptTerm
  split <;> rfl

theorem becomeLeader_sound {m : Mesh} (wins : won m.name m.hard.term)
    (votes : m.learner = false) (now : Nat) : (m.becomeLeader now).Sound won granted := by
  constructor <;> simp [becomeLeader, wins, votes]

theorem tick_spec {m : Mesh} (sound : m.Sound won granted) (now head : Nat)
    (alone : m.learner = false → m.quorum = 1 → ∀ t, won m.name t) :
    (m.tick now head).2.Sound won granted ∧ m.Moves (m.tick now head).2 ∧
      (m.tick now head).2.routes = m.routes ∧
      ∀ req, (m.tick now head).1 = some req → req.candidate = m.name ∧ req.pre = true := by
  unfold tick
  split
  · split
    · exact ⟨stepDown_sound _ _, stepDown_moves _ _, rfl, by simp⟩
    · exact ⟨sound, .refl m, rfl, by simp⟩
  next follows =>
    split
    · exact ⟨sound, .refl m, rfl, by simp⟩
    next due =>
      have votes : m.learner = false := by
        cases learner : m.learner with
        | false => rfl
        | true => exact absurd (.inl learner) due
      -- Overdue: it campaigns, and where it is alone its own vote elects it.
      simp only [campaign]
      split
      next one =>
        refine ⟨becomeLeader_sound ?_ ?_ now, ?_, rfl, by simp⟩
        · exact alone votes one _
        · exact votes
        · exact ⟨rfl, rfl, .inl (Nat.lt_succ_self _), by simp [becomeLeader]⟩
      · refine ⟨?_, ⟨rfl, rfl, .refl _, fun clean => ⟨clean, rfl⟩⟩, rfl, ?_⟩
        · constructor <;> simp [resetDeadline, votes]
        · rintro req ⟨⟩
          exact ⟨rfl, rfl⟩

theorem observe_spec {m : Mesh} (sound : m.Sound won granted) (route : Option Route) {st : Status}
    (honest : st.Sound won) (now : Nat) :
    (m.observe route st now).Sound won granted ∧ m.Moves (m.observe route st now) ∧
      (m.observe route st now).routes = m.routes := by
  -- A later term is adopted first; what follows starts from there.
  obtain ⟨m₁, eq, sound₁, moves, routes⟩ : ∃ m₁, (if st.term > m.hard.term then
      m.adoptTerm st.term now else m) = m₁ ∧ m₁.Sound won granted ∧ m.Moves m₁ ∧
      m₁.routes = m.routes := by
    -- A leader is followed, a peer of the own term is counted, and hearsay of a leader is taken
    -- by a learner alone.
    split
    · exact ⟨_, rfl, adoptTerm_sound _ _ _, adoptTerm_moves _ _ _, adoptTerm_routes _ _ _⟩
    · exact ⟨m, rfl, sound, .refl m, rfl⟩
  simp only [observe, eq]
  split
  next leads =>
    refine ⟨?_, moves.trans ⟨rfl, rfl, .refl _, fun clean => ⟨clean, rfl⟩⟩, routes⟩
    have wins : won st.name m₁.hard.term := leads.2.1 ▸ honest.leads leads.1
    constructor <;> simp [resetDeadline, wins]
  · split
    · refine ⟨?_, moves.trans ⟨rfl, rfl, .refl _, fun clean => ⟨clean, rfl⟩⟩, routes⟩
      exact ⟨by simp, sound₁.leads, by simp, sound₁.campaign, sound₁.votesSelf, sound₁.votes,
        sound₁.learner⟩
    · split
      next hearsay =>
        refine ⟨?_, moves.trans ⟨rfl, rfl, .refl _, fun clean => ⟨clean, rfl⟩⟩, routes⟩
        have follows := sound₁.learner hearsay.1
        refine ⟨fun c names => ?_, sound₁.leads, by simp [follows], sound₁.campaign,
          sound₁.votesSelf, sound₁.votes, sound₁.learner⟩
        exact hearsay.2.2.1 ▸ honest.leader c names
      · exact ⟨sound₁, moves, routes⟩

theorem onStatus_spec {m : Mesh} (sound : m.Sound won granted) (route : Route) {st : Status}
    (honest : st.Sound won) (now : Nat) :
    (m.onStatus route st now).Sound won granted ∧ m.Moves (m.onStatus route st now) ∧
      ∀ r ∈ m.routes, r ∈ (m.onStatus route st now).routes ∨ (r = route ∧ st.name = m.name) := by
  unfold onStatus
  split
  next mine =>
    refine ⟨⟨sound.leader, sound.leads, sound.silent, sound.campaign, sound.votesSelf,
      sound.votes, sound.learner⟩, ⟨rfl, rfl, .refl _, fun clean => ⟨clean, rfl⟩⟩, ?_⟩
    intro r member
    by_cases self : r = route
    · exact .inr ⟨self, mine⟩
    · exact .inl (List.mem_filter.mpr ⟨member, by simpa using self⟩)
  · have seen : ({ m with seen := m.seen.insert route (now, st) } : Mesh).Sound won granted :=
      ⟨sound.leader, sound.leads, sound.silent, sound.campaign, sound.votesSelf, sound.votes,
        sound.learner⟩
    obtain ⟨kept, moves, routes⟩ := observe_spec seen (some route) honest now
    exact ⟨kept, ⟨moves.name, moves.learner, moves.advances, moves.clean⟩,
      fun r member => .inl (by rw [routes]; exact member)⟩

theorem onInbound_spec {m : Mesh} (sound : m.Sound won granted) {st : Status}
    (honest : st.Sound won) (now : Nat) :
    (m.onInbound st now).Sound won granted ∧ m.Moves (m.onInbound st now) ∧
      (m.onInbound st now).routes = m.routes := by
  unfold onInbound
  split
  · exact ⟨sound, .refl m, rfl⟩
  · have heard : ∀ seen, ({ m with
        heard := m.heard.insert st.name (now, st), seen := seen } : Mesh).Sound won granted :=
      fun _ => ⟨sound.leader, sound.leads, sound.silent, sound.campaign, sound.votesSelf,
        sound.votes, sound.learner⟩
    dsimp only
    split
    next r _ =>
      obtain ⟨kept, moves, routes⟩ := observe_spec (heard _) (some r) honest now
      exact ⟨kept, ⟨moves.name, moves.learner, moves.advances, moves.clean⟩, routes⟩
    · obtain ⟨kept, moves, routes⟩ := observe_spec (heard _) none honest now
      exact ⟨kept, ⟨moves.name, moves.learner, moves.advances, moves.clean⟩, routes⟩

/-! ## Votes -/

theorem castVote_spec {m : Mesh} (sound : m.Sound won granted) {candidate : Name}
    (free : m.free candidate = true) (now : Nat) :
    (m.castVote candidate now).Sound won granted ∧ m.Moves (m.castVote candidate now) ∧
      (m.castVote candidate now).routes = m.routes ∧
      (m.castVote candidate now).hard.term = m.hard.term ∧
      (m.castVote candidate now).hard.votedFor = some candidate := by
  unfold castVote
  split
  next fresh =>
    have none : m.hard.votedFor = none := by
      unfold Mesh.free at free
      split at free
      next none => exact none
      next c voted => exact absurd (by simpa [voted] using free) fresh
    refine ⟨⟨sound.leader, sound.leads, sound.silent, sound.campaign, fun role => ?_, sound.votes,
      sound.learner⟩, ⟨rfl, rfl, .inr ⟨rfl, .inl none⟩, by simp [resetDeadline]⟩, rfl, rfl, rfl⟩
    simp [sound.votesSelf role] at none
  next already =>
    refine ⟨⟨sound.leader, sound.leads, sound.silent, sound.campaign, sound.votesSelf, sound.votes,
      sound.learner⟩, ⟨rfl, rfl, .refl _, fun clean => ⟨clean, rfl⟩⟩, rfl, rfl, ?_⟩
    exact not_not.mp already

/-- A vote cast is in the voter's hard state when the reply is made. -/
theorem onVoteRequest_spec {m : Mesh} (sound : m.Sound won granted) (req : VoteRequest)
    (now head : Nat) :
    (m.onVoteRequest req now head).2.Sound won granted ∧
      m.Moves (m.onVoteRequest req now head).2 ∧
      (m.onVoteRequest req now head).2.routes = m.routes ∧
      ((m.onVoteRequest req now head).1.granted = true → req.pre = false →
        m.learner = false ∧ req.candidate ≠ m.name ∧
        (m.onVoteRequest req now head).2.hard.term = req.term ∧
        (m.onVoteRequest req now head).2.hard.votedFor = some req.candidate) := by
  unfold onVoteRequest
  dsimp only
  split
  · exact ⟨sound, .refl m, rfl, by simp⟩
  next votes =>
    split
    · exact ⟨sound, .refl m, rfl, by simp⟩
    next quiet =>
      -- A pre-vote changes nothing, and a past term is refused.
      have other : req.candidate ≠ m.name := fun same => quiet (.inr same)
      split
      next pre => exact ⟨sound, .refl m, rfl, by simp [pre]⟩
      · split
        · exact ⟨sound, .refl m, rfl, by simp⟩
        next notPast =>
          obtain ⟨m₁, eq, sound₁, moves, routes, term⟩ : ∃ m₁, (if req.term > m.hard.term then
              m.adoptTerm req.term now else m) = m₁ ∧ m₁.Sound won granted ∧ m.Moves m₁ ∧
              m₁.routes = m.routes ∧ m₁.hard.term = req.term := by
            split
            next higher =>
              refine ⟨_, rfl, adoptTerm_sound _ _ _, adoptTerm_moves _ _ _,
                adoptTerm_routes _ _ _, ?_⟩
              rw [adoptTerm, if_pos higher]
              rfl
            · exact ⟨m, rfl, sound, .refl m, rfl, by omega⟩
          rw [eq]
          split
          -- Only here is a vote cast, and the hard state holds it.
          next grants =>
            have free : m₁.free req.candidate = true := (Bool.and_eq_true_iff.mp grants).1
            obtain ⟨kept, moves', routes', term', voted⟩ := castVote_spec sound₁ free now
            refine ⟨kept, moves.trans moves', routes'.trans routes, fun _ _ => ?_⟩
            exact ⟨by simpa using votes, other, term'.trans term, voted⟩
          next denied => exact ⟨sound₁, moves, routes, by simp [denied]⟩

/-- A candidacy is in the candidate's hard state when its request is made. `elect` is what a
quorum of grants is worth. -/
theorem onVoteReply_spec {m : Mesh} (sound : m.Sound won granted) (route : Route)
    (req : VoteRequest) (reply : VoteReply) (now head : Nat)
    (answered : reply.granted = true → req.pre = false → granted route req.term)
    (elect : ∀ votes : Finset Route, m.learner = false → votes.card + 1 ≥ m.quorum →
      (∀ r ∈ votes, granted r m.hard.term) → won m.name m.hard.term) :
    (m.onVoteReply route req reply now head).2.Sound won granted ∧
      m.Moves (m.onVoteReply route req reply now head).2 ∧
      (m.onVoteReply route req reply now head).2.routes = m.routes ∧
      ∀ out, (m.onVoteReply route req reply now head).1 = some out →
        m.learner = false ∧ out.candidate = m.name ∧ out.pre = false ∧
        (m.onVoteReply route req reply now head).2.hard.term = out.term ∧
        (m.onVoteReply route req reply now head).2.hard.votedFor = some m.name := by
  unfold onVoteReply
  dsimp only
  split
  · exact ⟨adoptTerm_sound _ _ _, adoptTerm_moves _ _ _, adoptTerm_routes _ _ _, by simp⟩
  · split
    · exact ⟨sound, .refl m, rfl, by simp⟩
    next grants =>
      have grants : reply.granted = true := by simpa using grants
      split
      · split
        · exact ⟨sound, .refl m, rfl, by simp⟩
        -- A pre-vote that reaches the quorum opens the campaign of the next term, with its own
        -- vote cast.
        next current =>
          have role : m.role = .preCandidate := not_not.mp fun other => current (.inl other)
          have votes : m.learner = false := by
            cases learner : m.learner with
            | false => rfl
            | true => simp [sound.learner learner] at role
          have ahead := sound.campaign role
          split
          · refine ⟨?_, ⟨rfl, rfl, .inl ?_, by simp [resetDeadline]⟩, rfl, ?_⟩
            · constructor <;> simp [resetDeadline, sound.silent (.inl role), votes]
            · show m.hard.term < m.campaignTerm
              omega
            · rintro out ⟨⟩
              exact ⟨votes, rfl, rfl, rfl, rfl⟩
          · refine ⟨⟨sound.leader, sound.leads, sound.silent, sound.campaign, sound.votesSelf, ?_,
              sound.learner⟩, ⟨rfl, rfl, .refl _, fun clean => ⟨clean, rfl⟩⟩, rfl, by simp⟩
            simp [role]
      next real =>
        split
        -- A grant in the term of the campaign: the set of grants grows, and wins with the quorum.
        next counts =>
          have all : ∀ r ∈ insert route m.votes, granted r m.hard.term := by
            intro r member
            rcases Finset.mem_insert.mp member with rfl | old
            · exact counts.2 ▸ answered grants (by simpa using real)
            · exact sound.votes counts.1 r old
          have votes : m.learner = false := by
            cases learner : m.learner with
            | false => rfl
            | true => simp [sound.learner learner] at counts
          split
          next enough =>
            refine ⟨becomeLeader_sound ?_ ?_ now, ⟨rfl, rfl, .refl _, fun clean => ⟨clean, rfl⟩⟩,
              rfl, by simp⟩
            · exact elect _ votes enough all
            · exact votes
          · exact ⟨⟨sound.leader, sound.leads, sound.silent, sound.campaign, sound.votesSelf,
              fun _ => all, sound.learner⟩, ⟨rfl, rfl, .refl _, fun clean => ⟨clean, rfl⟩⟩, rfl,
              by simp⟩
        · exact ⟨sound, .refl m, rfl, by simp⟩

/-! ## The rest -/

theorem appended_spec {m : Mesh} (sound : m.Sound won granted) :
    m.appended.Sound won granted ∧ m.Moves m.appended ∧ m.appended.routes = m.routes := by
  unfold appended
  split
  · exact ⟨⟨sound.leader, sound.leads, sound.silent, sound.campaign, sound.votesSelf, sound.votes,
      sound.learner⟩, ⟨rfl, rfl, .inr ⟨rfl, .inr rfl⟩, by simp⟩, rfl⟩
  · exact ⟨sound, .refl m, rfl⟩

theorem pushTargets_spec {m : Mesh} (sound : m.Sound won granted) (now head : Nat) :
    (m.pushTargets now head).2.Sound won granted ∧ m.Moves (m.pushTargets now head).2 ∧
      (m.pushTargets now head).2.routes = m.routes := by
  unfold pushTargets
  split <;>
    exact ⟨⟨sound.leader, sound.leads, sound.silent, sound.campaign, sound.votesSelf, sound.votes,
      sound.learner⟩, ⟨rfl, rfl, .refl _, fun clean => ⟨clean, rfl⟩⟩, rfl⟩

end Mesh

end AkumaMiot

import AkumaMiot.Mesh.Mesh

/-!
# How a node comes by the route it follows

A route is followed because the leader was heard on it. A route that is followed after a step was
followed before it, in the same term, or a status that came by it leads the term there is now.
-/
namespace AkumaMiot

namespace Mesh

/-- The route a status that was sent to us is known by, if it is. -/
def routeOf (m : Mesh) (st : Status) : Option Route :=
  (m.seen.toList.find? fun (_, _, s) => s.name = st.name).map (·.1)

/-- Only who follows has a route to follow, and a campaign is for a later term. -/
structure Routed (m : Mesh) : Prop where
  silent : m.role ≠ .follower → m.leaderRoute = none
  campaign : m.role = .preCandidate → m.term < m.campaignTerm

/-- It leads its term, or asks to. -/
def Stands (m : Mesh) : Prop := m.role = .leader ∨ m.role = .candidate

/-- What hearing `told`, each status on its route, does to the route followed. -/
structure Led (told : List (Route × Status)) (m m' : Mesh) : Prop where
  learner : m'.learner = m.learner
  later : m.term ≤ m'.term
  route : ∀ q, m'.leaderRoute = some q → (m.leaderRoute = some q ∧ m'.term = m.term) ∨
    ∃ st, (q, st) ∈ told ∧ st.role = .leader ∧ st.term = m'.term
  routed : m.Routed → m'.Routed
  /-- A node stands in a later term than it followed in. -/
  stands : m.Routed → m'.Stands → m.Stands ∨ m.term < m'.term

theorem Led.refl (m : Mesh) : m.Led [] m :=
  ⟨rfl, le_rfl, fun _ same => .inl ⟨same, rfl⟩, id, fun _ => .inl⟩

theorem Led.trans {a b c : Mesh} {told heard : List (Route × Status)} (first : a.Led told b)
    (second : b.Led heard c) : a.Led (told ++ heard) c where
  learner := second.learner.trans first.learner
  later := first.later.trans second.later
  route q now := by
    rcases second.route q now with ⟨before, same⟩ | ⟨st, member, leads, term⟩
    · rcases first.route q before with ⟨start, same'⟩ | ⟨st, member, leads, term⟩
      · exact .inl ⟨start, same.trans same'⟩
      · exact .inr ⟨st, List.mem_append_left _ member, leads, term.trans same.symm⟩
    · exact .inr ⟨st, List.mem_append_right _ member, leads, term⟩
  routed start := second.routed (first.routed start)
  stands start now := by
    rcases second.stands (first.routed start) now with before | later
    · exact (first.stands start before).imp_right fun later => later.trans_le second.later
    · exact .inr (first.later.trans_lt later)

/-- What is told counts after what nobody told. -/
theorem Led.after {a b c : Mesh} {heard : List (Route × Status)} (first : a.Led [] b)
    (second : b.Led heard c) : a.Led heard c := first.trans second

/-- Nothing that decides the route changed. -/
theorem Led.of_same {m m' : Mesh} (learner : m'.learner = m.learner) (term : m'.term = m.term)
    (route : m'.leaderRoute = m.leaderRoute) (role : m'.role = m.role)
    (campaign : m'.campaignTerm = m.campaignTerm) : m.Led [] m' where
  learner := learner
  later := term.ge
  route _ some_ := .inl ⟨route ▸ some_, term⟩
  routed start := ⟨fun other => route.trans (start.silent (role ▸ other)),
    fun pre => term ▸ campaign ▸ start.campaign (role ▸ pre)⟩
  stands _ now := .inl (by simpa [Stands, role] using now)

/-- Nobody is followed after. -/
theorem Led.of_none {m m' : Mesh} (learner : m'.learner = m.learner) (later : m.term ≤ m'.term)
    (none_ : m'.leaderRoute = none) (campaign : m'.role = .preCandidate → m'.term < m'.campaignTerm)
    (stands : m'.Stands → m.Stands ∨ m.term < m'.term) : m.Led [] m' where
  learner := learner
  later := later
  route _ some_ := by simp [none_] at some_
  routed _ := ⟨fun _ => none_, campaign⟩
  stands _ := stands

theorem stepDown_led (m : Mesh) (now : Nat) : m.Led [] (m.stepDown now) :=
  .of_none rfl le_rfl rfl (by simp [stepDown, resetDeadline])
    (by simp [Stands, stepDown, resetDeadline])

theorem adoptTerm_led (m : Mesh) (term now : Nat) : m.Led [] (m.adoptTerm term now) := by
  unfold adoptTerm
  split
  next higher =>
    exact .of_none rfl (le_of_lt higher) rfl (by simp [stepDown, resetDeadline])
      (by simp [Stands, stepDown, resetDeadline])
  · exact stepDown_led m now

theorem becomeLeader_led {m n : Mesh} (learner : n.learner = m.learner) (later : m.term ≤ n.term)
    (stands : m.Stands ∨ m.term < n.term) (now : Nat) : m.Led [] (n.becomeLeader now) :=
  .of_none learner later rfl (by simp [becomeLeader]) fun _ => stands

theorem tick_led (m : Mesh) (now head : Nat) : m.Led [] (m.tick now head).2 := by
  unfold tick
  split
  · split
    · exact stepDown_led m now
    · exact .refl m
  · split
    · exact .refl m
    · unfold campaign
      simp only
      split
      · refine becomeLeader_led ?_ ?_ (.inr ?_) now
        · rfl
        · exact Nat.le_succ m.hard.term
        · exact Nat.lt_succ_self m.hard.term
      · exact .of_none rfl le_rfl rfl (fun _ => Nat.lt_succ_self _) (by simp [Stands])

theorem observe_led (m : Mesh) (route : Option Route) (st : Status) (now : Nat) :
    m.Led (route.toList.map (·, st)) (m.observe route st now) := by
  -- A later term is adopted first, which forgets the leader.
  obtain ⟨m₁, eq, led⟩ : ∃ m₁, (if st.term > m.hard.term then m.adoptTerm st.term now else m) = m₁ ∧
      m.Led [] m₁ := by
    split
    · exact ⟨_, rfl, adoptTerm_led _ _ _⟩
    · exact ⟨m, rfl, .refl m⟩
  refine led.after ?_
  simp only [observe, eq]
  split
  next leads =>
    refine ⟨rfl, le_rfl, fun q now_ => ?_, fun _ => ⟨?_, ?_⟩, fun _ => ?_⟩
    · simp only [resetDeadline] at now_
      split at now_
      · exact .inr ⟨st, by simp [now_], leads.1, leads.2.1⟩
      · exact .inl ⟨now_, rfl⟩
    · simp [resetDeadline]
    · simp [resetDeadline]
    · simp [Stands, resetDeadline]
  · split
    · exact ⟨rfl, le_rfl, fun q some_ => by simp at some_,
        fun start => ⟨fun _ => rfl, start.campaign⟩, fun _ => .inl⟩
    · have same : ∀ heard, m₁.Led heard m₁ := fun heard =>
        (Led.refl m₁).after
          ⟨rfl, le_rfl, fun _ now_ => .inl ⟨now_, rfl⟩, id, fun _ => .inl⟩
      split
      · exact ⟨rfl, le_rfl, fun q now_ => .inl ⟨now_, rfl⟩,
          fun start => ⟨start.silent, start.campaign⟩, fun _ => .inl⟩
      · exact same _

theorem onStatus_led (m : Mesh) (route : Route) (st : Status) (now : Nat) :
    m.Led [(route, st)] (m.onStatus route st now) := by
  unfold onStatus
  split
  · exact ⟨rfl, le_rfl, fun q now_ => .inl ⟨now_, rfl⟩,
      fun start => ⟨start.silent, start.campaign⟩, fun _ => .inl⟩
  · have led := observe_led { m with seen := m.seen.insert route (now, st) } (some route) st now
    exact ⟨led.learner, led.later, led.route,
      fun start => led.routed ⟨start.silent, start.campaign⟩,
      fun start => led.stands ⟨start.silent, start.campaign⟩⟩

theorem polled_led (m : Mesh) (polled : List (Route × Status)) (now : Nat) :
    m.Led polled (polled.foldl (fun m (route, st) => m.onStatus route st now) m) := by
  induction polled generalizing m with
  | nil => exact .refl m
  | cons one polled ih => exact (onStatus_led m one.1 one.2 now).trans (ih _)

theorem onInbound_led (m : Mesh) (st : Status) (now : Nat) :
    m.Led ((m.routeOf st).toList.map (·, st)) (m.onInbound st now) := by
  unfold onInbound
  split
  · exact ⟨rfl, le_rfl, fun q now_ => .inl ⟨now_, rfl⟩, id, fun _ => .inl⟩
  · dsimp only
    split
    next r known =>
      have same : m.routeOf st = some r := known
      rw [same]
      have led := observe_led { m with
        heard := m.heard.insert st.name (now, st), seen := m.seen.insert r (now, st) } (some r) st now
      exact ⟨led.learner, led.later, led.route,
        fun start => led.routed ⟨start.silent, start.campaign⟩,
      fun start => led.stands ⟨start.silent, start.campaign⟩⟩
    next known =>
      have same : m.routeOf st = none := known
      rw [same]
      have led := observe_led { m with heard := m.heard.insert st.name (now, st) } none st now
      exact ⟨led.learner, led.later, led.route,
        fun start => led.routed ⟨start.silent, start.campaign⟩,
      fun start => led.stands ⟨start.silent, start.campaign⟩⟩

theorem castVote_led (m : Mesh) (candidate : Name) (now : Nat) :
    m.Led [] (m.castVote candidate now) := by
  unfold castVote
  split <;> exact .of_same rfl rfl rfl rfl rfl

theorem onVoteRequest_led (m : Mesh) (req : VoteRequest) (now head : Nat) :
    m.Led [] (m.onVoteRequest req now head).2 := by
  have voted : ∀ (n : Mesh) (granted : Bool),
      n.Led [] (if granted then n.castVote req.candidate now else n) := by
    intro n granted
    split
    · exact castVote_led n _ _
    · exact .refl n
  unfold onVoteRequest
  simp only
  split
  · exact .refl m
  · split
    · exact .refl m
    · split
      · exact .refl m
      · split
        · exact .refl m
        · split
          · exact (adoptTerm_led m req.term now).trans (voted _ _)
          · exact voted m _

/-- A candidate follows nobody, whatever its term. -/
theorem onVoteReply_led {m : Mesh} (routed : m.Routed) (route : Route) (req : VoteRequest)
    (reply : VoteReply) (now head : Nat) :
    m.Led [] (m.onVoteReply route req reply now head).2 := by
  unfold onVoteReply
  dsimp only
  split
  · exact adoptTerm_led m _ _
  · split
    · exact .refl m
    · split
      · split
        · exact .refl m
        -- A pre-candidate follows nobody already, so its new term drops no leader.
        next campaigns =>
          simp only [not_or, not_not] at campaigns
          split
          · have later := routed.campaign campaigns.1
            exact .of_none rfl (le_of_lt later) (routed.silent (by simp [campaigns.1]))
              (by simp [resetDeadline]) fun _ => .inr later
          · exact .of_same rfl rfl rfl rfl rfl
      · split
        next stands =>
          split
          · exact becomeLeader_led rfl le_rfl (.inl (.inr stands.1)) now
          · exact .of_same rfl rfl rfl rfl rfl
        · exact .refl m

theorem new_routed (name : Name) (routes : List Route) (timing : Timing) (hard : Hard) (now : Nat)
    (seed : UInt64) : (new name routes timing hard now seed).Routed :=
  ⟨by simp [new, resetDeadline], by simp [new, resetDeadline]⟩

end Mesh

end AkumaMiot

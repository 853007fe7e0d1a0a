import AkumaMiot.Mesh.Safety

/-!
# A healthy leader stays

While a majority of the voters hears its leader, none of them grants a pre-vote, so a
pre-vote that is begun and answered meanwhile never gathers a quorum and nobody starts a
real vote on account of it. A node that hears nothing at all only ever asks: its clock alone
never moves its term.
-/
namespace AkumaMiot

namespace Mesh

/-! ## What a handler does to a canvass -/

/-- A pre-candidate's votes are those it had, or none. -/
def Canvasses (m m' : Mesh) : Prop :=
  m'.role = .preCandidate → m'.votes = ∅ ∨ (m.role = .preCandidate ∧ m'.votes = m.votes)

theorem Canvasses.refl (m : Mesh) : m.Canvasses m := fun role => .inr ⟨role, rfl⟩

theorem Canvasses.of_role {m m' : Mesh} (other : m'.role ≠ .preCandidate) : m.Canvasses m' :=
  fun role => absurd role other

theorem adoptTerm_role (m : Mesh) (term now : Nat) : (m.adoptTerm term now).role = .follower := by
  unfold adoptTerm
  split <;> rfl

/-- A canvass that begins, begins without votes. -/
theorem tick_canvasses (m : Mesh) (now head : Nat) :
    m.Canvasses (m.tick now head).2 ∧
      ((m.tick now head).1.isSome → (m.tick now head).2.votes = ∅) := by
  unfold tick
  split
  · split
    · exact ⟨.of_role (by simp [stepDown, resetDeadline]), by simp⟩
    · exact ⟨.refl m, by simp⟩
  · split
    · exact ⟨.refl m, by simp⟩
    · unfold campaign
      simp only
      split
      · exact ⟨.of_role (by simp [becomeLeader]), by simp⟩
      · exact ⟨fun _ => .inl rfl, fun _ => rfl⟩

theorem adopts_canvasses (m : Mesh) (p : Prop) [Decidable p] (term now : Nat) :
    ∃ m₁, (if p then m.adoptTerm term now else m) = m₁ ∧ m.Canvasses m₁ := by
  refine ⟨_, rfl, ?_⟩
  split
  · exact .of_role (by simp [adoptTerm_role])
  · exact .refl m

theorem observe_canvasses (m : Mesh) (route : Option Route) (st : Status) (now : Nat) :
    m.Canvasses (m.observe route st now) := by
  obtain ⟨m₁, eq, adopted⟩ := adopts_canvasses m (st.term > m.hard.term) st.term now
  simp only [observe, eq]
  split
  · exact .of_role (by simp [resetDeadline])
  · split
    · exact adopted
    · split
      · exact adopted
      · exact adopted

theorem onStatus_canvasses (m : Mesh) (route : Route) (st : Status) (now : Nat) :
    m.Canvasses (m.onStatus route st now) := by
  unfold onStatus
  split
  · exact fun role => .inr ⟨role, rfl⟩
  · have seen := observe_canvasses { m with seen := m.seen.insert route (now, st) }
      (some route) st now
    exact seen

theorem onInbound_canvasses (m : Mesh) (st : Status) (now : Nat) :
    m.Canvasses (m.onInbound st now) := by
  unfold onInbound
  split
  · exact .refl m
  · simp only
    split
    next r _ =>
      have seen := observe_canvasses { m with
        heard := m.heard.insert st.name (now, st), seen := m.seen.insert r (now, st) }
        (some r) st now
      exact seen
    · have heard := observe_canvasses { m with heard := m.heard.insert st.name (now, st) }
        none st now
      exact heard

theorem castVote_canvasses (m : Mesh) (candidate : Name) (now : Nat) :
    m.Canvasses (m.castVote candidate now) := by
  unfold castVote
  split <;> exact fun role => .inr ⟨role, rfl⟩

theorem onVoteRequest_canvasses (m : Mesh) (req : VoteRequest) (now head : Nat) :
    m.Canvasses (m.onVoteRequest req now head).2 := by
  obtain ⟨m₁, eq, adopted⟩ := adopts_canvasses m (req.term > m.hard.term) req.term now
  simp only [onVoteRequest, eq]
  split
  · exact .refl m
  · split
    · exact .refl m
    · split
      · exact .refl m
      · split
        · exact .refl m
        · split
          · intro role
            rcases castVote_canvasses _ _ _ role with none | ⟨role', same⟩
            · exact .inl none
            · rw [same]
              exact adopted role'
          · exact adopted

/-- A voter that hears its leader grants nothing, nor does a learner, nor anybody itself. -/
theorem onVoteRequest_grants {m : Mesh} {req : VoteRequest} {now head : Nat}
    (granted : (m.onVoteRequest req now head).1.granted = true) :
    m.learner = false ∧ req.candidate ≠ m.name ∧ m.role ≠ .leader ∧
      (m.leader.isSome → ¬ m.lastLeaderContact.any fun t => now < t + m.timing.electionMinMs) := by
  unfold onVoteRequest at granted
  simp only at granted
  split at granted
  · simp at granted
  next votes =>
    split at granted
    · simp at granted
    next quiet =>
      refine ⟨by simpa using votes, fun same => quiet (.inr same),
        fun leads => quiet (.inl (.inl leads)), fun follows hears => ?_⟩
      exact quiet (.inl (.inr ⟨hears, follows⟩))

/-- A reply counts towards a canvass only if it is the grant of a pre-vote, and a real request
goes out only when the quorum is reached. -/
theorem onVoteReply_canvasses (m : Mesh) (route : Route) (req : VoteRequest) (reply : VoteReply)
    (now head : Nat) :
    ((m.onVoteReply route req reply now head).2.role = .preCandidate →
      (m.onVoteReply route req reply now head).2.votes = ∅ ∨ (m.role = .preCandidate ∧
        ∀ r ∈ (m.onVoteReply route req reply now head).2.votes, r ∈ m.votes ∨
          (r = route ∧ reply.granted = true ∧ req.pre = true))) ∧
    ((m.onVoteReply route req reply now head).1.isSome →
      m.role = .preCandidate ∧ reply.granted = true ∧ req.pre = true ∧
        m.quorum ≤ (insert route m.votes).card + 1) := by
  have unmoved : m.role = .preCandidate → m.votes = ∅ ∨ (m.role = .preCandidate ∧
      ∀ r ∈ m.votes, r ∈ m.votes ∨ (r = route ∧ reply.granted = true ∧ req.pre = true)) :=
    fun role => .inr ⟨role, fun r member => .inl member⟩
  unfold onVoteReply
  simp only
  split
  · exact ⟨fun role => absurd role (by simp [adoptTerm_role]), by simp⟩
  · split
    · exact ⟨unmoved, by simp⟩
    next grants =>
      have grants : reply.granted = true := by simpa using grants
      split
      -- Only a grant of a pre-vote adds to the votes of a canvass.
      next pre =>
        split
        · exact ⟨unmoved, by simp⟩
        next current =>
          have role : m.role = .preCandidate := not_not.mp fun other => current (.inl other)
          split
          next enough =>
            exact ⟨fun role => absurd role (by simp [resetDeadline]),
              fun _ => ⟨role, grants, pre, enough⟩⟩
          · refine ⟨fun _ => .inr ⟨role, fun r member => ?_⟩, by simp⟩
            rcases Finset.mem_insert.mp member with rfl | old
            · exact .inr ⟨rfl, grants, pre⟩
            · exact .inl old
      · split
        -- A grant of a real vote is counted by a candidate, which canvasses no more.
        next counts =>
          split
          · exact ⟨fun role => absurd role (by simp [becomeLeader]), by simp⟩
          · exact ⟨fun role => absurd (counts.1.symm.trans role) (by simp), by simp⟩
        · exact ⟨unmoved, by simp⟩

/-! ## What moves a term -/

theorem tick_term {m : Mesh} (asks : 1 < m.quorum) (now head : Nat) :
    (m.tick now head).2.hard.term = m.hard.term ∧ (m.tick now head).2.routes = m.routes := by
  unfold tick
  split
  · split <;> exact ⟨rfl, rfl⟩
  · split
    · exact ⟨rfl, rfl⟩
    · have many : ({ m.resetDeadline now with
          leader := none, leaderRoute := none, votes := ∅ } : Mesh).quorum ≠ 1 := Nat.ne_of_gt asks
      unfold campaign
      simp only
      rw [if_neg many]
      exact ⟨rfl, rfl⟩

theorem onVoteRequest_term {m : Mesh} {req : VoteRequest}
    (old : req.pre = true ∨ req.term ≤ m.hard.term) (now head : Nat) :
    (m.onVoteRequest req now head).2.hard.term = m.hard.term ∧
      (m.onVoteRequest req now head).2.routes = m.routes := by
  unfold onVoteRequest
  simp only
  split
  · exact ⟨rfl, rfl⟩
  · split
    · exact ⟨rfl, rfl⟩
    · split
      · exact ⟨rfl, rfl⟩
      next real =>
        have past : ¬ req.term > m.hard.term := by
          rcases old with pre | past
          · exact absurd pre real
          · exact Nat.not_lt.mpr past
        rw [if_neg past]
        split
        · exact ⟨rfl, rfl⟩
        · split
          · unfold castVote
            split <;> exact ⟨rfl, rfl⟩
          · exact ⟨rfl, rfl⟩

end Mesh

namespace Cluster

/-! ## An interval of a run -/

/-- The time on `v`'s clock when it handles an event, if it does. -/
def Event.clock (v : Name) : Event → Option Nat
  | .tick n now _ | .pushTargets n now _ | .polled n _ _ now | .inbound n _ now
  | .requested n _ now _ | .replied n _ _ _ _ now _ | .restart n now _ =>
    if n = v then some now else none
  | _ => none

/-- A node that leads, or follows a leader it has heard from within its window, whatever its
clock says when it is next looked at. -/
def Hears (m : Mesh) (clock : Option Nat) : Prop :=
  m.role = .leader ∨ (m.leader.isSome = true ∧
    ∀ now ∈ clock, m.lastLeaderContact.any (fun t => now < t + m.timing.electionMinMs) = true)

instance (m : Mesh) (clock : Option Nat) : Decidable (Hears m clock) := by
  unfold Hears
  infer_instance

/-- A cluster in some interval of its run, beside the replies made in the interval, and the
nodes whose canvass was begun in it. -/
structure Interval where
  cluster : Cluster
  answered : List Packet := []
  begun : List Name := []

namespace Interval

def step (net : Network) (i : Interval) (e : Event) : Interval where
  cluster := Cluster.step net i.cluster e
  answered := match e with
    | .requested n req now head =>
      if .request req ∈ i.cluster.sent then
        .reply n req ((i.cluster.mesh n).onVoteRequest req now head).1 :: i.answered
      else i.answered
    | _ => i.answered
  begun := match e with
    | .tick n now head =>
      if ((i.cluster.mesh n).tick now head).1.isSome then n :: i.begun else i.begun
    | _ => i.begun

/-- Whether a reply that may be counted was made in the interval. -/
def InTime (i : Interval) : Event → Prop
  | .replied n _ voter req reply _ _ =>
    n ∈ i.begun → req.pre = true → .reply voter req reply ∈ i.answered
  | _ => True

instance (i : Interval) (e : Event) : Decidable (i.InTime e) := by
  cases e <;> unfold InTime <;> infer_instance

/-- The condition on an interval: each of `m` hears its leader all along, and what a canvass
begun in the interval is answered, it is answered in it. -/
def Healthy (m : Finset Name) (i : Interval) (e : Event) : Prop :=
  (∀ v ∈ m, Hears (i.cluster.mesh v) (e.clock v)) ∧ i.InTime e

instance (m : Finset Name) (i : Interval) (e : Event) : Decidable (Healthy m i e) :=
  inferInstanceAs (Decidable (_ ∧ _))

/-! ## Who grants -/

/-- The route leads to a voter outside the majority. -/
def Outside (net : Network) (m : Finset Name) (n : Name) (r : Route) : Prop :=
  r ∈ net.routes n ∧ ∃ v ∈ net.voters, v ∉ m ∧ v ≠ n ∧ net.peer n r = some v

/-- What holds all through a healthy interval. -/
structure Calm (net : Network) (m : Finset Name) (i : Interval) : Prop where
  inv : Inv net i.cluster
  answered : ∀ v req reply, .reply v req reply ∈ i.answered → reply.granted = true →
    v ∈ net.voters ∧ v ∉ m ∧ v ≠ req.candidate
  votes : ∀ n ∈ i.begun, (i.cluster.mesh n).role = .preCandidate →
    ∀ r ∈ (i.cluster.mesh n).votes, Outside net m n r

/-- Too few voters are left outside a majority. -/
theorem Calm.few {net : Network} {m : Finset Name} {i : Interval} (wf : net.WellFormed)
    (calm : Calm net m i) (voters : m ⊆ net.voters) (majority : net.voters.card < 2 * m.card)
    {n : Name} (votes : n ∈ net.voters) (outside : n ∉ m) {routes : Finset Route}
    (granted : ∀ r ∈ routes, Outside net m n r) :
    routes.card + 1 < (i.cluster.mesh n).quorum := by
  have size := calm.inv.routes_length wf votes
  have fits : routes.card ≤ ((net.voters \ m).erase n).card := by
    refine Finset.card_le_card_of_injOn (fun r => (net.peer n r).getD n) ?_ ?_
    · intro r member
      obtain ⟨_, v, voter, notIn, other, peer⟩ := granted r member
      simp [peer, voter, notIn, other]
    · intro r member r' member' same
      obtain ⟨route, v, voter, _, other, peer⟩ := granted r member
      obtain ⟨route', v', _, _, _, peer'⟩ := granted r' member'
      simp only [peer, peer', Option.getD_some] at same
      exact wf.oneToOne n votes v voter other r route r' route' peer (same ▸ peer')
  have left : ((net.voters \ m).erase n).card + 1 + m.card = net.voters.card := by
    rw [Finset.card_erase_add_one (Finset.mem_sdiff.mpr ⟨votes, outside⟩),
      Finset.card_sdiff_add_card_eq_card voters]
  unfold Mesh.quorum
  omega

/-- One more route is counted only when a grant came back on it that was made in time. -/
theorem Calm.counts {net : Network} {m : Finset Name} {i : Interval} (calm : Calm net m i)
    {n : Name} {route : Route} {voter : Name} {req : VoteRequest} {reply : VoteReply}
    (begun : n ∈ i.begun) (inTime : req.pre = true → .reply voter req reply ∈ i.answered)
    (arrives : route ∈ net.routes n ∧ net.peer n route = some voter ∧ req.candidate = n)
    (pre : req.pre = true) (granted : reply.granted = true)
    (role : (i.cluster.mesh n).role = .preCandidate) :
    ∀ r ∈ insert route (i.cluster.mesh n).votes, Outside net m n r := by
  intro r member
  obtain ⟨known, peer, mine⟩ := arrives
  rcases Finset.mem_insert.mp member with rfl | old
  · obtain ⟨isVoter, notIn, other⟩ := calm.answered voter req reply (inTime pre) granted
    exact ⟨known, voter, isVoter, notIn, mine ▸ other, peer⟩
  · exact calm.votes n begun role r old

/-- A canvass that was begun and answered in the interval does not reach its quorum. -/
theorem Calm.fails {net : Network} {m : Finset Name} {i : Interval} (wf : net.WellFormed)
    (voters : m ⊆ net.voters) (majority : net.voters.card < 2 * m.card) (calm : Calm net m i)
    {n : Name} {route : Route} {voter : Name} {req : VoteRequest} {reply : VoteReply}
    {now head : Nat} (healthy : Healthy m i (.replied n route voter req reply now head))
    (begun : n ∈ i.begun)
    (arrives : route ∈ net.routes n ∧ net.peer n route = some voter ∧ req.candidate = n) :
    ((i.cluster.mesh n).onVoteReply route req reply now head).1 = none := by
  obtain ⟨hears, inTime⟩ := healthy
  refine Option.not_isSome_iff_eq_none.mp fun asks => ?_
  obtain ⟨role, granted, pre, enough⟩ :=
    ((i.cluster.mesh n).onVoteReply_canvasses route req reply now head).2 asks
  have sound := calm.inv.sound n
  have votes : n ∈ net.voters := by
    refine calm.inv.learner n (Bool.eq_false_iff.mpr fun learner => ?_)
    simp [sound.learner learner] at role
  -- Whoever canvasses follows nobody.
  have outside : n ∉ m := by
    intro member
    rcases hears n member with leads | ⟨follows, _⟩
    · simp [leads] at role
    · simp [sound.silent (.inl role)] at follows
  have few := calm.few wf voters majority votes outside
    (calm.counts begun (inTime begun) arrives pre granted role)
  omega

/-! ## Every event -/

/-- What one node's handler must keep for the canvasses of the interval. -/
theorem Calm.canvass {net : Network} {m : Finset Name} {i : Interval} (calm : Calm net m i)
    {n : Name} {mesh : Mesh} (moves : (i.cluster.mesh n).Canvasses mesh) {k : Name}
    (begun : k ∈ i.begun)
    (role : (Function.update i.cluster.mesh n mesh k).role = .preCandidate) :
    ∀ r ∈ (Function.update i.cluster.mesh n mesh k).votes, Outside net m k r := by
  by_cases here : k = n
  · subst here
    rw [Function.update_self] at role ⊢
    rcases moves role with none | ⟨role', same⟩
    · simp [none]
    · rw [same]
      exact calm.votes k begun role'
  · rw [Function.update_of_ne here] at role ⊢
    exact calm.votes k begun role

theorem step_calm {net : Network} {m : Finset Name} {i : Interval} {e : Event}
    (wf : net.WellFormed) (calm : Calm net m i) (healthy : Healthy m i e) :
    Calm net m (i.step net e) := by
  have inv : Inv net (i.step net e).cluster := step_inv wf calm.inv e
  cases e with
  -- A canvass that begins here begins with no votes.
  | tick n now head =>
    obtain ⟨moves, fresh⟩ := (i.cluster.mesh n).tick_canvasses now head
    refine ⟨inv, calm.answered, fun k begun role => ?_⟩
    by_cases old : k ∈ i.begun
    · exact calm.canvass moves old role
    · have began : ((i.cluster.mesh n).tick now head).1.isSome ∧ k = n := by
        simp only [step] at begun
        split at begun
        next asks => exact ⟨asks, by simpa [old] using begun⟩
        · exact absurd begun old
      obtain ⟨asks, rfl⟩ := began
      have none : ((i.step net (.tick k now head)).cluster.mesh k).votes = ∅ := by
        simp only [step, Cluster.step, Cluster.act, Function.update_self]
        exact fresh asks
      simp [none]
  | requested n req now head =>
    by_cases arrives : Packet.request req ∈ i.cluster.sent
    · refine ⟨inv, fun v req' reply made granted => ?_, fun k begun role => ?_⟩
      · simp only [step, if_pos arrives] at made
        rcases List.mem_cons.mp made with same | old
        -- The voter that grants neither leads nor hears a leader; a member of the majority does
        -- one of the two.
        · obtain ⟨rfl, rfl, rfl⟩ := Packet.reply.inj same
          obtain ⟨votes, other, notLeads, deaf⟩ := Mesh.onVoteRequest_grants granted
          rw [calm.inv.name] at other
          refine ⟨calm.inv.learner _ votes, fun member => ?_, other.symm⟩
          rcases healthy.1 _ member with leads | ⟨follows, hears⟩
          · exact notLeads leads
          · exact deaf follows (hears now (by simp [Event.clock]))
        · exact calm.answered v req' reply old granted
      · simp only [step, Cluster.step, if_pos arrives] at role ⊢
        exact calm.canvass (Mesh.onVoteRequest_canvasses _ _ _ _) begun role
    · have same : i.step net (.requested n req now head) = i := by
        simp [step, Cluster.step, arrives]
      rw [same]
      exact calm
  -- A grant that comes in now was made in this interval, so it came from outside the majority.
  | replied n route voter req reply now head =>
    refine ⟨inv, calm.answered, fun k begun role => ?_⟩
    by_cases arrives : Packet.reply voter req reply ∈ i.cluster.sent ∧ route ∈ net.routes n ∧
        net.peer n route = some voter ∧ req.candidate = n
    · simp only [step, Cluster.step, if_pos arrives, Cluster.act] at role ⊢
      by_cases here : k = n
      · subst here
        rw [Function.update_self] at role ⊢
        rcases ((i.cluster.mesh k).onVoteReply_canvasses route req reply now head).1 role with
          none | ⟨role', each⟩
        · simp [none]
        · intro r member
          rcases each r member with old | ⟨rfl, granted, pre⟩
          · exact calm.votes k begun role' r old
          · exact calm.counts begun (healthy.2 begun) arrives.2 pre granted role' r (by simp)
      · rw [Function.update_of_ne here] at role ⊢
        exact calm.votes k begun role
    · simp only [step, Cluster.step, if_neg arrives] at role ⊢
      exact calm.votes k begun role
  | polled n route st now =>
    refine ⟨inv, calm.answered, fun k begun role => ?_⟩
    simp only [step, Cluster.step] at role ⊢
    split at role <;> rename_i arrives
    · rw [if_pos arrives]
      exact calm.canvass (Mesh.onStatus_canvasses _ _ _ _) begun role
    · rw [if_neg arrives]
      exact calm.votes k begun role
  | inbound n st now =>
    refine ⟨inv, calm.answered, fun k begun role => ?_⟩
    simp only [step, Cluster.step] at role ⊢
    split at role <;> rename_i arrives
    · rw [if_pos arrives]
      exact calm.canvass (Mesh.onInbound_canvasses _ _ _) begun role
    · rw [if_neg arrives]
      exact calm.votes k begun role
  | appended n =>
    refine ⟨inv, calm.answered, fun k begun role => calm.canvass ?_ begun role⟩
    unfold Mesh.appended
    split
    · exact fun role => .inr ⟨role, rfl⟩
    · exact .refl _
  | pushTargets n now head =>
    refine ⟨inv, calm.answered, fun k begun role => calm.canvass ?_ begun role⟩
    unfold Mesh.pushTargets
    split <;> exact fun role => .inr ⟨role, rfl⟩
  | say n head account =>
    exact ⟨inv, calm.answered, fun k begun role => calm.canvass (.refl _) begun role⟩
  | persist n =>
    have moves : (i.cluster.mesh n).Canvasses (i.cluster.mesh n).takeDirty.2 :=
      fun role => .inr ⟨role, rfl⟩
    exact ⟨inv, calm.answered, fun k begun role => calm.canvass moves begun role⟩
  | leave n p =>
    refine ⟨inv, calm.answered, fun k begun role => ?_⟩
    simp only [step, Cluster.step] at role ⊢
    split at role <;> rename_i ready
    · rw [if_pos ready]
      exact calm.votes k begun role
    · rw [if_neg ready]
      exact calm.votes k begun role
  | restart n now seed =>
    refine ⟨inv, calm.answered, fun k begun role => calm.canvass (.of_role ?_) begun role⟩
    unfold boot
    split <;> simp [Mesh.new, Mesh.resetDeadline, Mesh.asLearner]

end Interval

/-! ## A node nobody answers -/

/-- The events in which `n` is given no reply, no status and no real request of a later term. -/
def Unheard (n : Name) (c : Cluster) : Event → Prop
  | .polled k _ _ _ | .inbound k _ _ | .replied k _ _ _ _ _ _ | .restart k _ _ => k ≠ n
  | .requested k req _ _ => k = n → req.pre = true ∨ req.term ≤ (c.mesh n).hard.term
  | _ => True

instance (n : Name) (c : Cluster) (e : Event) : Decidable (Unheard n c e) := by
  cases e <;> unfold Unheard <;> infer_instance

theorem step_unheard (net : Network) {n : Name} {c : Cluster} {e : Event}
    (unheard : Unheard n c e) (asks : 1 < (c.mesh n).quorum) :
    ((step net c e).mesh n).hard.term = (c.mesh n).hard.term ∧
      ((step net c e).mesh n).routes = (c.mesh n).routes := by
  have acts : ∀ (k : Name) (m : Mesh), (k = n → m.hard.term = (c.mesh n).hard.term ∧
      m.routes = (c.mesh n).routes) →
      (Function.update c.mesh k m n).hard.term = (c.mesh n).hard.term ∧
        (Function.update c.mesh k m n).routes = (c.mesh n).routes := by
    intro k m same
    by_cases here : n = k
    · rw [here, Function.update_self]
      exact here ▸ same here.symm
    · rw [Function.update_of_ne here]
      exact ⟨rfl, rfl⟩
  cases e with
  | tick k now head => exact acts k _ fun here => here ▸ Mesh.tick_term (here ▸ asks) now head
  | appended k =>
    refine acts k _ fun here => ?_
    unfold Mesh.appended
    split <;> exact here ▸ ⟨rfl, rfl⟩
  | pushTargets k now head =>
    refine acts k _ fun here => ?_
    unfold Mesh.pushTargets
    split <;> exact here ▸ ⟨rfl, rfl⟩
  | say k head account => exact acts k _ fun here => here ▸ ⟨rfl, rfl⟩
  | polled k route st now =>
    simp only [step]
    split
    · exact acts k _ fun here => absurd here unheard
    · exact ⟨rfl, rfl⟩
  | inbound k st now =>
    simp only [step]
    split
    · exact acts k _ fun here => absurd here unheard
    · exact ⟨rfl, rfl⟩
  | requested k req now head =>
    simp only [step]
    split
    · exact acts k _ fun here => here ▸ Mesh.onVoteRequest_term (here ▸ unheard here) now head
    · exact ⟨rfl, rfl⟩
  | replied k route voter req reply now head =>
    simp only [step]
    split
    · exact acts k _ fun here => absurd here unheard
    · exact ⟨rfl, rfl⟩
  | persist k => exact acts k _ fun here => here ▸ ⟨rfl, rfl⟩
  | leave k p =>
    simp only [step]
    split <;> exact ⟨rfl, rfl⟩
  | restart k now seed => exact acts k _ fun here => absurd here unheard

theorem run_unheard {net : Network} {n : Name} {c : Cluster} {es : List Event}
    (asks : 1 < (c.mesh n).quorum) (unheard : Machine.Meets (step net) (Unheard n) c es) :
    ((Machine.run (step net) c es).mesh n).hard.term = (c.mesh n).hard.term := by
  have kept := Machine.run_invariant (fun c' : Cluster =>
      (c'.mesh n).hard.term = (c.mesh n).hard.term ∧ (c'.mesh n).routes = (c.mesh n).routes)
    (fun c' e same unheard => by
      have asks' : 1 < (c'.mesh n).quorum := by
        unfold Mesh.quorum at asks ⊢
        rw [same.2]
        exact asks
      obtain ⟨term, routes⟩ := step_unheard net unheard asks'
      exact ⟨term.trans same.1, routes.trans same.2⟩) ⟨rfl, rfl⟩ unheard
  exact kept.1

/-! ## Every run -/

/-- In every run of a well-formed cluster, from any moment on: while every member of a majority
hears its leader, a canvass begun since then, and answered since then, leads to no real vote;
and a node with others to ask, given no reply, no status and no real request of a later term,
stays in its term. Terms and clocks have no bound here: they are those of a run that stays below
2^64. -/
theorem undisturbed_run {net : Network} (wf : net.WellFormed) (hard : Name → Hard)
    (now : Name → Nat) (seed : Name → UInt64) (before : List Event) :
    let c := Machine.run (step net) (start net hard now seed) before
    (∀ m ⊆ net.voters, net.voters.card < 2 * m.card → ∀ during n route voter req reply now head,
      Machine.Meets (Interval.step net) (Interval.Healthy m) { cluster := c }
        (during ++ [.replied n route voter req reply now head]) →
      let i := Machine.run (Interval.step net) { cluster := c } during
      n ∈ i.begun → route ∈ net.routes n → net.peer n route = some voter → req.candidate = n →
      ((i.cluster.mesh n).onVoteReply route req reply now head).1 = none) ∧
    (∀ n, 1 < (c.mesh n).quorum → ∀ after, Machine.Meets (step net) (Unheard n) c after →
      ((Machine.run (step net) c after).mesh n).hard.term = (c.mesh n).hard.term) := by
  intro c
  have inv : Inv net c := Machine.run_invariant (Inv net) (fun c e inv _ => step_inv wf inv e)
    (start_inv net hard now seed) (Machine.meets_of_forall (p := fun _ => True) fun _ _ => trivial)
  refine ⟨?_, fun n asks after unheard => run_unheard asks unheard⟩
  intro m voters majority during n route voter req reply now head healthy i begun known peer mine
  obtain ⟨all, last, _⟩ := Machine.meets_append.mp healthy
  have calm : Interval.Calm net m i := Machine.run_invariant (Interval.Calm net m)
    (fun i e calm healthy => Interval.step_calm wf calm healthy)
    ⟨inv, by simp, by simp⟩ all
  exact calm.fails wf voters majority last begun ⟨known, peer, mine⟩

/-! ## `a` leads, `b` follows it, and `c` hears nothing -/

/-- `a` is elected, and `b` hears its status. -/
def led : List Event :=
  let st : Status := ⟨"a", "", 1, .leader, some "a", 0, 0⟩
  electing ++ [.say "a" 0 "", .leave "a" (.status st), .inbound "b" st 9100]

/-- `c` asks for a pre-vote. -/
def asking : VoteRequest := ⟨1, "c", 0, 0, true⟩

/-- Both of the others answer `c`. -/
def refusing : List Event :=
  [.tick "c" 9300 0, .leave "c" (.request asking), .requested "a" asking 9301 0,
    .leave "a" (.reply "a" asking ⟨1, false⟩), .requested "b" asking 9302 0,
    .leave "b" (.reply "b" asking ⟨1, false⟩)]

theorem undisturbed_run_led :
    let c := Machine.run (step threeVoters)
      (start threeVoters (fun _ => {}) (fun _ => 0) fun _ => 1) led
    let i := Machine.run (Interval.step threeVoters) { cluster := c } refusing
    ("c" ∈ i.begun ∧ ((i.cluster.mesh "c").onVoteReply "b" asking ⟨1, false⟩ 9303 0).1 = none) ∧
      ((Machine.run (step threeVoters) c [.tick "c" 9300 0, .tick "c" 99300 0]).mesh "c").hard.term =
        (c.mesh "c").hard.term := by
  have safe := undisturbed_run threeVoters_wellFormed (fun _ => {}) (fun _ => 0) (fun _ => 1) led
  refine ⟨⟨by decide +kernel, ?_⟩, safe.2 "c" (by decide +kernel) _ (by decide +kernel)⟩
  exact safe.1 {"a", "b"} (by decide) (by decide) refusing "c" "b" "b" asking ⟨1, false⟩ 9303 0
    (by decide +kernel) (by decide +kernel) (by decide) rfl rfl

/-- Whether an event gives `n` a reply or a status. -/
def Event.answers (n : Name) : Event → Bool
  | .polled k _ _ _ | .inbound k _ _ | .replied k _ _ _ _ _ _ => k = n
  | _ => false

/-- A real request of a later term is neither, and moves `b`'s term. -/
theorem undisturbed_run_asked :
    let c := start threeVoters (fun _ => {}) (fun _ => 0) fun _ => 1
    1 < (c.mesh "b").quorum ∧ (∀ e ∈ electing, e.answers "b" = false) ∧
      ((Machine.run (step threeVoters) c electing).mesh "b").hard.term ≠
        (c.mesh "b").hard.term := by
  decide +kernel

end Cluster

end AkumaMiot

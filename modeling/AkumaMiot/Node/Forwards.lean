import AkumaMiot.Mesh.Safety
import AkumaMiot.Node.Follow

/-!
# A write that is handed on

Any node takes a write. One that does not lead hands it to the leader it knows, which may have lost
its leadership to another by then. Every hop is to the winner of the term that the hop is made in,
and a winner that hands on is in a later term by then. So a write goes through ever later terms, and
no node hands it on twice in one: there is no loop of nodes that take each other for the leader.
-/
namespace AkumaMiot

namespace Mesh

/-! ## Where a route leads -/

/-- What was heard on a route is what is behind it, and the route to the leader leads to somebody
else. -/
structure Reaches (peer : Route → Option Name) (m : Mesh) : Prop where
  seen : ∀ r e, m.seen[r]? = some e → peer r = some e.2.name
  route : ∀ r, m.leaderRoute = some r → ∃ a, m.leader = some a ∧ a ≠ m.name ∧ peer r = some a

namespace Reaches

variable {peer : Route → Option Name} {m m' : Mesh}

theorem same (reaches : m.Reaches peer) (seen : m'.seen = m.seen) (leader : m'.leader = m.leader)
    (route : m'.leaderRoute = m.leaderRoute) (name : m'.name = m.name) : m'.Reaches peer := by
  constructor
  · rw [seen]
    exact reaches.seen
  · rw [route, leader, name]
    exact reaches.route

/-- Nobody is followed. -/
theorem nowhere (reaches : m.Reaches peer) (seen : m'.seen = m.seen)
    (none_ : m'.leaderRoute = none) : m'.Reaches peer := by
  constructor
  · rw [seen]
    exact reaches.seen
  · intro r some_
    rw [none_] at some_
    cases some_

theorem new (peer : Route → Option Name) (name : Name) (routes : List Route) (timing : Timing)
    (hard : Hard) (now : Nat) (seed : UInt64) :
    (Mesh.new name routes timing hard now seed).Reaches peer := by
  constructor
  · intro r e found
    simp [Mesh.new, Mesh.resetDeadline] at found
  · intro r some_
    simp [Mesh.new, Mesh.resetDeadline] at some_

theorem adoptTerm (reaches : m.Reaches peer) (term now : Nat) :
    (m.adoptTerm term now).Reaches peer := by
  unfold Mesh.adoptTerm
  split
  · exact reaches.nowhere rfl rfl
  · exact reaches.nowhere rfl rfl

theorem tick (reaches : m.Reaches peer) (now head : Nat) : (m.tick now head).2.Reaches peer := by
  unfold Mesh.tick
  split
  · split
    · exact reaches.nowhere rfl rfl
    · exact reaches
  · split
    · exact reaches
    · unfold Mesh.campaign
      simp only
      split
      · exact reaches.nowhere rfl rfl
      · exact reaches.nowhere rfl rfl

/-- Somebody else's status, heard on a route that leads to it or on none. -/
theorem observe (reaches : m.Reaches peer) {route : Option Route} {st : Status}
    (other : st.name ≠ m.name) (known : ∀ r, route = some r → peer r = some st.name) (now : Nat) :
    (m.observe route st now).Reaches peer := by
  obtain ⟨m1, adopted, name, reaches⟩ : ∃ m1,
      (if st.term > m.hard.term then m.adoptTerm st.term now else m) = m1 ∧ m1.name = m.name ∧
        m1.Reaches peer := by
    split
    next later =>
      refine ⟨_, rfl, ?_, reaches.adoptTerm _ _⟩
      simp only [Mesh.adoptTerm, later, if_true, stepDown, resetDeadline]
    · exact ⟨m, rfl, rfl, reaches⟩
  simp only [Mesh.observe, adopted]
  split
  -- A leader: its own route, or the one that it is known by already.
  · refine ⟨reaches.seen, fun r some_ => ?_⟩
    have fresh : ∃ a, some st.name = some a ∧ a ≠ m1.name ∧ peer r = some a := by
      simp only [resetDeadline] at some_
      split at some_
      · exact ⟨st.name, rfl, name ▸ other, known r some_⟩
      next kept =>
        have same : m1.leader = some st.name := by
          by_contra differs
          exact kept (.inl differs)
        obtain ⟨a, leads, rest⟩ := reaches.route r some_
        exact ⟨a, same.symm.trans leads, rest⟩
    exact fresh
  · split
    · exact reaches.nowhere rfl rfl
    · split
      next learns =>
        -- A learner that knows no leader has no route to one.
        refine ⟨reaches.seen, fun r some_ => ?_⟩
        obtain ⟨a, leads, _⟩ := reaches.route r some_
        rw [learns.2.1] at leads
        cases leads
      · exact reaches

/-- One more status on a route that leads to who sent it. -/
theorem insert (reaches : m.Reaches peer) {r : Route} {st : Status} (known : peer r = some st.name)
    (now : Nat) : { m with seen := m.seen.insert r (now, st) }.Reaches peer := by
  refine ⟨fun r' e found => ?_, reaches.route⟩
  simp only [Std.TreeMap.getElem?_insert] at found
  split at found
  next same =>
    cases found
    rw [← Std.LawfulEqCmp.eq_of_compare same]
    exact known
  · exact reaches.seen r' e found

theorem onStatus (reaches : m.Reaches peer) {r : Route} {st : Status}
    (known : peer r = some st.name) (now : Nat) : (m.onStatus r st now).Reaches peer := by
  unfold Mesh.onStatus
  split
  · exact reaches.same rfl rfl rfl rfl
  next other =>
    refine (reaches.insert known now).observe other ?_ now
    rintro _ ⟨⟩
    exact known

theorem onInbound (reaches : m.Reaches peer) (st : Status) (now : Nat) :
    (m.onInbound st now).Reaches peer := by
  unfold Mesh.onInbound
  split
  · exact reaches
  next other =>
    have heard : { m with heard := m.heard.insert st.name (now, st) }.Reaches peer :=
      reaches.same rfl rfl rfl rfl
    dsimp only
    split
    next r found =>
      -- The route was heard from before, and what was heard had this name.
      obtain ⟨⟨r', e⟩, first, rfl⟩ := Option.map_eq_some_iff.mp found
      have listed := List.mem_of_find?_eq_some first
      have named := List.find?_some first
      have behind := reaches.seen r' e (Std.TreeMap.mem_toList_iff_getElem?_eq_some.mp listed)
      have known : peer r' = some st.name := by
        rw [behind, of_decide_eq_true named]
      refine (heard.insert known now).observe other ?_ now
      rintro _ ⟨⟩
      exact known
    · refine heard.observe other ?_ now
      intro r none_
      cases none_

theorem castVote (reaches : m.Reaches peer) (candidate : Name) (now : Nat) :
    (m.castVote candidate now).Reaches peer := by
  unfold Mesh.castVote
  split <;> exact reaches.same rfl rfl rfl rfl

theorem onVoteRequest (reaches : m.Reaches peer) (req : VoteRequest) (now head : Nat) :
    (m.onVoteRequest req now head).2.Reaches peer := by
  have voted : ∀ (n : Mesh) (granted : Bool), n.Reaches peer →
      (if granted then n.castVote req.candidate now else n).Reaches peer := by
    intro n granted reaches
    split
    · exact reaches.castVote _ _
    · exact reaches
  unfold Mesh.onVoteRequest
  simp only
  split
  · exact reaches
  · split
    · exact reaches
    · split
      · exact reaches
      · split
        · exact reaches
        · split
          · exact voted _ _ (reaches.adoptTerm _ _)
          · exact voted _ _ reaches

theorem onVoteReply (reaches : m.Reaches peer) (route : Route) (req : VoteRequest)
    (reply : VoteReply) (now head : Nat) :
    (m.onVoteReply route req reply now head).2.Reaches peer := by
  unfold Mesh.onVoteReply
  dsimp only
  split
  · exact reaches.adoptTerm _ _
  · split
    · exact reaches
    · split
      · split
        · exact reaches
        · split
          · exact reaches.same rfl rfl rfl rfl
          · exact reaches.same rfl rfl rfl rfl
      · split
        · split
          · exact reaches.nowhere rfl rfl
          · exact reaches.same rfl rfl rfl rfl
        · exact reaches

end Reaches

/-- `route`, as a member's mesh decides it. -/
def writeRoute (m : Mesh) : WriteRoute :=
  if m.isLeader then .here
  else match m.leaderRoute with
  | some p => .primary p
  | none => .nobody m.leader

end Mesh

/-! ## A cluster's routes -/

namespace Cluster

theorem boot_reaches (net : Network) (n : Name) (hard : Hard) (now : Nat) (seed : UInt64) :
    (boot net n hard now seed).Reaches (net.peer n) := by
  unfold boot
  split
  · exact .new _ _ _ _ _ _ _
  · exact (Mesh.Reaches.new (net.peer n) n (net.routes n) (net.timing n) hard now seed).same rfl rfl
      rfl rfl

theorem step_reaches {net : Network} {c : Cluster} (reaches : ∀ n, (c.mesh n).Reaches (net.peer n))
    (e : Event) (n : Name) : ((step net c e).mesh n).Reaches (net.peer n) := by
  have each : ∀ {k : Name} {m : Mesh} {out : List Packet}, m.Reaches (net.peer k) →
      ((c.act k m out).mesh n).Reaches (net.peer n) := by
    intro k m out next
    by_cases here : n = k
    · subst here
      simpa only [act, Function.update_self] using next
    · simpa only [act, Function.update_of_ne here] using reaches n
  cases e with
  | tick k now head => exact each ((reaches k).tick now head)
  | appended k =>
    refine each ?_
    unfold Mesh.appended
    split
    · exact (reaches k).same rfl rfl rfl rfl
    · exact reaches k
  | pushTargets k now head =>
    refine each ?_
    unfold Mesh.pushTargets
    split <;> exact (reaches k).same rfl rfl rfl rfl
  | say k head account => exact each (reaches k)
  | polled k route st now =>
    simp only [step]
    split
    next arrives => exact each ((reaches k).onStatus arrives.2.2 now)
    · exact reaches n
  | inbound k st now =>
    simp only [step]
    split
    · exact each ((reaches k).onInbound st now)
    · exact reaches n
  | requested k req now head =>
    simp only [step]
    split
    · exact each ((reaches k).onVoteRequest req now head)
    · exact reaches n
  | replied k route voter req reply now head =>
    simp only [step]
    split
    · exact each ((reaches k).onVoteReply route req reply now head)
    · exact reaches n
  | persist k =>
    simp only [step]
    by_cases here : n = k
    · subst here
      simp only [Function.update_self]
      exact (reaches n).same rfl rfl rfl rfl
    · simpa only [Function.update_of_ne here] using reaches n
  | leave k p =>
    simp only [step]
    split <;> exact reaches n
  | restart k now seed =>
    simp only [step]
    by_cases here : n = k
    · subst here
      simp only [Function.update_self]
      exact boot_reaches net n _ now seed
    · simpa only [Function.update_of_ne here] using reaches n

/-! ## Whose term it is -/

/-- Who won a term against others is in it, or past it. -/
theorem Inv.won_term {net : Network} {c : Cluster} (inv : Inv net c) {a : Name} {t : Nat}
    (many : 1 < net.voters.card) (won : Won net c.sent a t) : t ≤ (c.mesh a).term := by
  obtain ⟨_, q, _, more, cast⟩ := won
  obtain ⟨v, voted⟩ : q.Nonempty := by
    rw [← Finset.card_pos]
    omega
  -- A vote was asked for, and who asks for votes casts its own.
  have own : Cast c.sent a a t := by
    obtain ⟨p, sent, casts⟩ := cast many v voted
    cases p with
    | status st => cases casts
    | request req =>
      have casts' := casts
      simp only [Packet.casts] at casts'
      split at casts'
      · cases casts'
      · simp only [Option.some.injEq, Prod.mk.injEq] at casts'
        obtain ⟨rfl, rfl, rfl⟩ := casts'
        exact ⟨_, sent, casts⟩
    | reply voter req answer =>
      obtain ⟨asked, _⟩ := (inv.said _ (.inl sent)).reply voter req answer rfl
      simp only [Packet.casts] at casts
      split at casts
      next real =>
        simp only [Bool.and_eq_true, Bool.not_eq_true'] at real
        simp only [Option.some.injEq, Prod.mk.injEq] at casts
        obtain ⟨_, rfl, rfl⟩ := casts
        exact ⟨_, asked, by simp [Packet.casts, real.2]⟩
      · cases casts
  obtain ⟨p, sent, casts⟩ := own
  rcases (inv.onDisk p sent a a t casts).mono (inv.persisted a) with past | ⟨now, _⟩
  · exact Nat.le_of_lt past
  · exact Nat.le_of_eq now

theorem Inv.won_unique {net : Network} {c : Cluster} (inv : Inv net c) {a b : Name} {t : Nat}
    (one : Won net c.sent a t) (two : Won net c.sent b t) : a = b := by
  refine Won.unique ?_ one two
  rintro v x y t ⟨p, sent, casts⟩ ⟨q, sent', casts'⟩
  exact inv.once p q (.inl sent) (.inl sent') v x y t casts casts'

/-! ## A write on its way -/

/-- A cluster, the node that has the write, and the hops that the write made, latest first: who
handed it on, and in which term. -/
structure Errand where
  cluster : Cluster
  at_ : Name
  hops : List (Name × Nat)

inductive ErrandEvent
  | event (e : Event)
  /-- Whoever has the write finds a route for it. -/
  | route

namespace Errand

/-- One event. A write that is executed or queued stays where it is. -/
def step (net : Network) (w : Errand) : ErrandEvent → Errand
  | .event e => { w with cluster := Cluster.step net w.cluster e }
  | .route =>
    match (w.cluster.mesh w.at_).writeRoute with
    | .primary p =>
      match net.peer w.at_ p with
      | some next =>
        { w with at_ := next, hops := (w.at_, (w.cluster.mesh w.at_).term) :: w.hops }
      -- Nobody answers there.
      | none => w
    | .here | .nobody _ => w

/-- The write is at a voter, which won the term of the last hop, and the terms rose. -/
structure Inv (net : Network) (w : Errand) : Prop where
  cluster : Cluster.Inv net w.cluster
  reaches : ∀ n, (w.cluster.mesh n).Reaches (net.peer n)
  votes : w.at_ ∈ net.voters
  voters : ∀ hop ∈ w.hops, hop.1 ∈ net.voters ∧ 1 < net.voters.card
  won : ∀ hop ∈ w.hops.head?, Won net w.cluster.sent w.at_ hop.2
  rise : w.hops.Pairwise fun later earlier => earlier.2 < later.2

/-- Whom a voter hands a write to, and in which term. -/
theorem routed {net : Network} {w : Errand} (inv : Inv net w) {p : Route}
    (routes : (w.cluster.mesh w.at_).writeRoute = .primary p) :
    ∃ a, net.peer w.at_ p = some a ∧ a ≠ w.at_ ∧
      Won net w.cluster.sent a (w.cluster.mesh w.at_).term := by
  unfold Mesh.writeRoute at routes
  split at routes
  · cases routes
  · split at routes
    next p' follows =>
      cases routes
      obtain ⟨a, leads, other, behind⟩ := (inv.reaches w.at_).route p follows
      rw [inv.cluster.name] at other
      exact ⟨a, behind, other, (inv.cluster.sound w.at_).leader a leads⟩
    · cases routes

theorem step_inv {net : Network} (wf : net.WellFormed) {w : Errand} (inv : Inv net w)
    (e : ErrandEvent) : Inv net (w.step net e) := by
  cases e with
  | event e =>
    exact {
      cluster := Cluster.step_inv wf inv.cluster e
      reaches := step_reaches inv.reaches e
      votes := inv.votes
      voters := inv.voters
      won := fun hop last => (inv.won hop last).mono (step_sent net w.cluster e)
      rise := inv.rise }
  | route =>
    simp only [step]
    split
    next p routes =>
      obtain ⟨a, behind, other, won⟩ := routed inv routes
      rw [behind]
      have many : 1 < net.voters.card :=
        Finset.one_lt_card.mpr ⟨a, won.1, w.at_, inv.votes, other⟩
      refine ⟨inv.cluster, inv.reaches, won.1, ?_, ?_, ?_⟩
      · intro hop there
        rcases List.mem_cons.mp there with rfl | old
        · exact ⟨inv.votes, many⟩
        · exact inv.voters hop old
      · rintro hop ⟨⟩
        exact won
      · refine List.pairwise_cons.mpr ⟨fun hop there => ?_, inv.rise⟩
        cases made : w.hops with
        | nil =>
          rw [made] at there
          cases there
        | cons last rest =>
          have rise := inv.rise
          rw [made] at there rise
          have before : hop.2 ≤ last.2 := by
            rcases List.mem_cons.mp there with rfl | earlier
            · exact Nat.le_refl _
            · exact Nat.le_of_lt ((List.pairwise_cons.mp rise).1 hop earlier)
          have mine : Won net w.cluster.sent w.at_ last.2 := inv.won last (by simp [made])
          have reached := inv.cluster.won_term many mine
          -- In the term it won itself it knows no other leader.
          have past : last.2 ≠ (w.cluster.mesh w.at_).term := by
            intro same
            exact other (inv.cluster.won_unique won (same ▸ mine))
          simp only
          omega
    · exact inv
    · exact inv

theorem run_inv {net : Network} (wf : net.WellFormed) {w : Errand} (inv : Inv net w)
    (events : List ErrandEvent) : Inv net (Machine.run (step net) w events) :=
  Machine.run_keeps (Inv net) (fun _ e inv => step_inv wf inv e) inv

theorem start_inv (net : Network) (hard : Name → Hard) (now : Name → Nat) (seed : Name → UInt64)
    {who : Name} (votes : who ∈ net.voters) : Inv net ⟨start net hard now seed, who, []⟩ where
  cluster := Cluster.start_inv net hard now seed
  reaches n := boot_reaches net n (hard n) (now n) (seed n)
  votes := votes
  voters hop there := by cases there
  won hop last := by cases last
  rise := .nil

/-! ### In a cluster at rest -/

/-- While nothing else happens, every hop is made in the term that its node is in. -/
theorem still_hops (net : Network) (w : Errand) (k : Nat)
    (made : ∀ hop ∈ w.hops, hop.2 = (w.cluster.mesh hop.1).term) :
    (Machine.run (step net) w (List.replicate k .route)).cluster = w.cluster ∧
      ∀ hop ∈ (Machine.run (step net) w (List.replicate k .route)).hops,
        hop.2 = (w.cluster.mesh hop.1).term := by
  induction k generalizing w with
  | zero => exact ⟨rfl, made⟩
  | succ k ih =>
    have one : (w.step net .route).cluster = w.cluster ∧
        ∀ hop ∈ (w.step net .route).hops, hop.2 = (w.cluster.mesh hop.1).term := by
      simp only [step]
      split
      · split
        · refine ⟨rfl, fun hop there => ?_⟩
          rcases List.mem_cons.mp there with rfl | old
          · rfl
          · exact made hop old
        · exact ⟨rfl, made⟩
      · exact ⟨rfl, made⟩
      · exact ⟨rfl, made⟩
    obtain ⟨cluster, hops⟩ := one
    rw [List.replicate_succ, Machine.run_cons]
    rw [← cluster] at hops ⊢
    exact ih _ hops

/-- Whatever a cluster goes through while a write that a voter took is handed from node to node,
every hop is made in a later term than the one before it, and to who won the term it is made in. So
in a cluster at rest such a write comes to rest within as many hops as there are voters. Of a
learner's there is nothing to say: it hands a write to any member it pulls from. -/
theorem forward_run (net : Network) (wf : net.WellFormed) (hard : Name → Hard) (now : Name → Nat)
    (seed : Name → UInt64) (who : Name) (votes : who ∈ net.voters) (events : List ErrandEvent) :
    let w := Machine.run (step net) ⟨start net hard now seed, who, []⟩ events
    w.hops.Pairwise (fun later earlier => earlier.2 < later.2) ∧
    (∀ hop ∈ w.hops.head?, Won net w.cluster.sent w.at_ hop.2) ∧
    ∀ k, (Machine.run (step net) { w with hops := [] } (List.replicate k .route)).hops.length ≤
      net.voters.card := by
  intro w
  have inv : Inv net w := run_inv wf (start_inv net hard now seed votes) events
  refine ⟨inv.rise, inv.won, fun k => ?_⟩
  have fresh : Inv net { w with hops := [] } := {
    cluster := inv.cluster
    reaches := inv.reaches
    votes := inv.votes
    voters := fun _ => nofun
    won := fun _ => nofun
    rise := .nil }
  have after := run_inv wf fresh (List.replicate k .route)
  obtain ⟨_, terms⟩ := still_hops net { w with hops := [] } k fun _ => nofun
  -- A node has one term, and every hop has another.
  have distinct : ((Machine.run (step net) { w with hops := [] }
      (List.replicate k .route)).hops.map Prod.fst).Nodup := by
    rw [List.nodup_iff_pairwise_ne, List.pairwise_map]
    refine after.rise.imp_of_mem fun {later earlier} there there' rises same => ?_
    have term := terms later there
    have term' := terms earlier there'
    rw [same] at term
    omega
  calc _ = ((Machine.run (step net) { w with hops := [] }
        (List.replicate k .route)).hops.map Prod.fst).length := (List.length_map _).symm
    _ = ((Machine.run (step net) { w with hops := [] }
        (List.replicate k .route)).hops.map Prod.fst).toFinset.card :=
      (List.toFinset_card_of_nodup distinct).symm
    _ ≤ net.voters.card := by
      refine Finset.card_le_card fun n there => ?_
      obtain ⟨hop, member, rfl⟩ := List.mem_map.mp (List.mem_toFinset.mp there)
      exact (after.voters hop member).1

/-- `a` is elected and the others hear of it, and then `c` is, and `a` hears. Meanwhile `b` hands a
write to `a`, which hands it on. -/
def overtaken : List ErrandEvent :=
  let elected : Status := ⟨"a", "aa", 1, .leader, some "a", 0, 0⟩
  let pre : VoteRequest := ⟨2, "c", 0, 0, true⟩
  let real : VoteRequest := ⟨2, "c", 0, 0, false⟩
  let next : Status := ⟨"c", "cc", 2, .leader, some "c", 0, 0⟩
  electing.map .event ++
    [.event (.say "a" 0 "aa"), .event (.leave "a" (.status elected)),
      .event (.polled "b" "a" elected 9005), .event (.polled "c" "a" elected 9005), .route,
      .event (.tick "c" 30000 0), .event (.persist "c"), .event (.leave "c" (.request pre)),
      .event (.requested "b" pre 30001 0), .event (.leave "b" (.reply "b" pre ⟨1, true⟩)),
      .event (.replied "c" "b" "b" pre ⟨1, true⟩ 30002 0), .event (.persist "c"),
      .event (.leave "c" (.request real)), .event (.requested "b" real 30003 0),
      .event (.persist "b"), .event (.leave "b" (.reply "b" real ⟨2, true⟩)),
      .event (.replied "c" "b" "b" real ⟨2, true⟩ 30004 0), .event (.say "c" 0 "cc"),
      .event (.leave "c" (.status next)), .event (.polled "a" "c" next 30005), .route]

theorem forward_run_overtaken :
    let w := Machine.run (step threeVoters)
      ⟨start threeVoters (fun _ => {}) (fun _ => 0) fun _ => 1, "b", []⟩ overtaken
    (w.at_, w.hops) = ("c", [("a", 2), ("b", 1)]) ∧
      w.hops.Pairwise (fun later earlier => earlier.2 < later.2) ∧
      Won threeVoters w.cluster.sent "c" 2 := by
  have told : ((Machine.run (step threeVoters)
      ⟨start threeVoters (fun _ => {}) (fun _ => 0) fun _ => 1, "b", []⟩ overtaken).at_,
      (Machine.run (step threeVoters)
        ⟨start threeVoters (fun _ => {}) (fun _ => 0) fun _ => 1, "b", []⟩ overtaken).hops) =
      ("c", [("a", 2), ("b", 1)]) := by
    decide +kernel
  obtain ⟨rise, won, _⟩ := forward_run threeVoters threeVoters_wellFormed (fun _ => {})
    (fun _ => 0) (fun _ => 1) "b" (by decide) overtaken
  obtain ⟨at_, hops⟩ := Prod.mk.inj told
  rw [at_, hops] at won
  exact ⟨told, rise, won ("a", 2) rfl⟩

end Errand

end Cluster

/-! ## The node's own route -/

variable {A B H : Type}

theorem Node.Member.route {n : Node A B H} (member : n.Member) : n.route = n.mesh.writeRoute := by
  cases follows : n.mesh.leaderRoute with
  | none => simp only [Node.route, Mesh.writeRoute, member.role, member.peer, follows]
  | some p => simp only [Node.route, Mesh.writeRoute, member.role, member.peer, follows]

namespace Process

variable [DecidableEq A] [DecidableEq H] {env : Env A B H} {readHard : List UInt8 → Option Hard}

theorem step_member {p p' : Process A B H} {e : ProcessEvent B H} (member : p.node.Member)
    (runs : e.restarts = false) (stepped : p.step env readHard e = some p') : p'.node.Member := by
  cases pulls : e.pulls with
  | false => exact (step_turns member pulls runs stepped).1
  | true =>
    cases step_steps stepped with
    | idle => exact member
    | page taken =>
      have takes : Node.TakesIn env (fun _ _ => True) _ _ :=
        .takePage (fun _ _ _ _ => trivial) taken
      exact member.stays takes.stays
    | checkpoint taken =>
      have takes : Node.TakesIn env (fun _ _ => True) _ _ := .takeCheckpoint taken
      exact member.stays takes.stays
    | rewind rewound =>
      have takes : Node.TakesIn env (fun _ _ => True) _ _ := .rewind rewound
      exact member.stays takes.stays
    | reconciled peer =>
      simp only
      split
      · exact ⟨member.learner, member.routed, member.peer, member.role⟩
      · exact member
    | _ => simp [ProcessEvent.pulls] at pulls

/-- In every state of every run of a voter, it takes a write itself, hands it on or queues it as
its mesh says. -/
theorem route_run {cfg : NodeConfig} {store : Store B B} {p q : Process A B H}
    {events : List (ProcessEvent B H)} (votes : cfg.learner = false)
    (opened : open_ env readHard cfg store = some p)
    (again : ∀ cfg', .restart cfg' ∈ events → cfg'.learner = false)
    (reached : Machine.run (next env readHard) (some p) events = some q) :
    q.node.route = q.node.mesh.writeRoute := by
  refine Node.Member.route ?_
  have meets : Machine.Meets (next env readHard)
      (fun _ e => ∀ cfg', e = .restart cfg' → cfg'.learner = false) (some p) events :=
    Machine.meets_of_forall
      (p := fun e : ProcessEvent B H => ∀ cfg', e = .restart cfg' → cfg'.learner = false)
      fun e there cfg' same => again cfg' (same ▸ there)
  refine Machine.run_invariant (fun s => ∀ r : Process A B H, s = some r → r.node.Member) ?_ ?_
    meets q reached
  · intro s e member votes r stepped
    obtain ⟨before, rfl, stepped⟩ := Option.bind_eq_some_iff.mp stepped
    cases restarts : e.restarts with
    | false => exact step_member (member before rfl) restarts stepped
    | true =>
      cases e with
      | restart cfg' => exact (Follower.open_member (votes cfg' rfl) stepped).1
      | _ => cases restarts
  · rintro r ⟨⟩
    exact (Follower.open_member votes opened).1

end Process

end AkumaMiot

import AkumaMiot.Mesh.Cluster
import AkumaMiot.Mesh.Local

/-!
# Election safety

A vote on the wire is backed by the voter's disk, so no voter ever has votes for two
candidates of one term on the wire. Winning a term takes a majority of such votes, and they
never leave the wire, so a term has one winner for ever. Every leader, and every leader named
anywhere, has won its term.
-/
namespace AkumaMiot

/-- The vote a packet carries: who voted, for whom, in which term. A real request carries the
candidate's own. -/
def Packet.casts : Packet → Option (Name × Name × Nat)
  | .status _ => none
  | .request req => if req.pre then none else some (req.candidate, req.candidate, req.term)
  | .reply voter req answer =>
    if answer.granted && !req.pre then some (voter, req.candidate, req.term) else none

namespace Cluster

/-- `v` is on the wire as having voted for `c` in term `t`. -/
def Cast (sent : List Packet) (v c : Name) (t : Nat) : Prop :=
  ∃ p ∈ sent, p.casts = some (v, c, t)

/-- A majority of the voters is on the wire for `c`, itself among them. A lone voter needs
nobody. -/
def Won (net : Network) (sent : List Packet) (c : Name) (t : Nat) : Prop :=
  c ∈ net.voters ∧ ∃ q ⊆ net.voters, net.voters.card < 2 * q.card ∧
    (1 < net.voters.card → ∀ v ∈ q, Cast sent v c t)

/-- The node behind `r` granted `n` a real vote in term `t`. -/
def Granted (net : Network) (sent : List Packet) (n : Name) (r : Route) (t : Nat) : Prop :=
  r ∈ net.routes n ∧ ∃ v ∈ net.voters, v ≠ n ∧ net.peer n r = some v ∧ Cast sent v n t ∧
    Cast sent n n t

/-- Two majorities share a voter, and a voter votes once. -/
theorem Won.unique {net : Network} {sent : List Packet} {c c' : Name} {t : Nat}
    (once : ∀ v c c' t, Cast sent v c t → Cast sent v c' t → c = c')
    (one : Won net sent c t) (two : Won net sent c' t) : c = c' := by
  obtain ⟨votes, q, sub, more, cast⟩ := one
  obtain ⟨votes', q', sub', more', cast'⟩ := two
  by_cases many : 1 < net.voters.card
  · obtain ⟨v, both⟩ := Finset.inter_nonempty_of_card_lt_card_add_card sub sub'
      (show net.voters.card < q.card + q'.card by omega)
    rw [Finset.mem_inter] at both
    exact once v c c' t (cast many v both.1) (cast' many v both.2)
  · exact Finset.card_le_one.mp (by omega) c votes c' votes'

theorem Cast.mono {sent sent' : List Packet} (grow : sent ⊆ sent') {v c : Name} {t : Nat}
    (cast : Cast sent v c t) : Cast sent' v c t := by
  obtain ⟨q, member, casts⟩ := cast
  exact ⟨q, grow member, casts⟩

theorem Won.mono {net : Network} {sent sent' : List Packet} (grow : sent ⊆ sent') {c : Name}
    {t : Nat} (won : Won net sent c t) : Won net sent' c t := by
  obtain ⟨votes, q, sub, more, cast⟩ := won
  exact ⟨votes, q, sub, more, fun many v member => (cast many v member).mono grow⟩

theorem Granted.mono {net : Network} {sent sent' : List Packet} (grow : sent ⊆ sent') {n : Name}
    {r : Route} {t : Nat} (granted : Granted net sent n r t) : Granted net sent' n r t := by
  obtain ⟨route, v, votes, other, peer, cast, own⟩ := granted
  exact ⟨route, v, votes, other, peer, cast.mono grow, own.mono grow⟩

/-- A packet someone said, on the wire or still waiting. -/
def Said (c : Cluster) (p : Packet) : Prop := p ∈ c.sent ∨ ∃ n, p ∈ c.outbox n

/-- What a packet says is true of its cluster. -/
structure PacketOk (net : Network) (c : Cluster) (p : Packet) : Prop where
  status : ∀ st, p = .status st → st.Sound (Won net c.sent)
  voter : ∀ v a t, p.casts = some (v, a, t) → v ∈ net.voters
  reply : ∀ v req reply, p = .reply v req reply → Packet.request req ∈ c.sent ∧
    (p.casts ≠ none → v ≠ req.candidate)

/-- The invariant of a cluster. -/
structure Inv (net : Network) (c : Cluster) : Prop where
  name : ∀ n, (c.mesh n).name = n
  learner : ∀ n, (c.mesh n).learner = false → n ∈ net.voters
  routes : ∀ n, ∀ r ∈ net.routes n, net.peer n r ≠ some n → r ∈ (c.mesh n).routes
  sound : ∀ n, (c.mesh n).Sound (Won net c.sent) (Granted net c.sent n)
  persisted : ∀ n, (c.persisted n).Advances (c.mesh n).hard
  clean : ∀ n, (c.mesh n).hardDirty = false → c.persisted n = (c.mesh n).hard
  said : ∀ p, Said c p → PacketOk net c p
  waiting : ∀ n, ∀ p ∈ c.outbox n, ∀ v a t, p.casts = some (v, a, t) →
    v = n ∧ (c.mesh n).hard.Backs a t
  onDisk : ∀ p ∈ c.sent, ∀ v a t, p.casts = some (v, a, t) → (c.persisted v).Backs a t
  once : ∀ p q, Said c p → Said c q → ∀ v a b t, p.casts = some (v, a, t) →
    q.casts = some (v, b, t) → a = b

theorem boot_spec (net : Network) (n : Name) (hard : Hard) (now : Nat) (seed : UInt64) :
    (boot net n hard now seed).name = n ∧
      ((boot net n hard now seed).learner = false → n ∈ net.voters) ∧
      (boot net n hard now seed).routes = net.routes n ∧
      (boot net n hard now seed).hard = hard ∧
      ∀ won granted, (boot net n hard now seed).Sound won granted := by
  unfold boot
  split
  next votes =>
    exact ⟨rfl, fun _ => votes, rfl, rfl, fun _ _ => Mesh.new_sound _ _ _ _ _ _⟩
  · refine ⟨rfl, fun votes => by simp [Mesh.asLearner] at votes, rfl, rfl, fun won granted => ?_⟩
    constructor <;> simp [Mesh.asLearner, Mesh.new, Mesh.resetDeadline]

theorem start_inv (net : Network) (hard : Name → Hard) (now : Name → Nat) (seed : Name → UInt64) :
    Inv net (start net hard now seed) := by
  have silent : ∀ p, ¬ Said (start net hard now seed) p := by
    simp [Said, start]
  have boots := fun n => boot_spec net n (hard n) (now n) (seed n)
  constructor
  · exact fun n => (boots n).1
  · exact fun n => (boots n).2.1
  · exact fun n r member _ => (boots n).2.2.1 ▸ member
  · exact fun n => (boots n).2.2.2.2 _ _
  · intro n
    show (hard n).Advances (boot net n (hard n) (now n) (seed n)).hard
    rw [(boots n).2.2.2.1]
    exact .refl _
  · exact fun n _ => (boots n).2.2.2.1.symm
  · exact fun p said => absurd said (silent p)
  · exact fun n p member => absurd (.inr ⟨n, member⟩) (silent p)
  · exact fun p member => absurd (.inl member) (silent p)
  · exact fun p q said => absurd said (silent p)

/-- What a node may say once it has become `m`. -/
structure MaySay (net : Network) (c : Cluster) (n : Name) (m : Mesh) (p : Packet) : Prop where
  ok : PacketOk net c p
  backed : ∀ v a t, p.casts = some (v, a, t) →
    v = n ∧ m.hard.term = t ∧ m.hard.votedFor = some a

/-- A node that moves forward and says only what its hard state backs keeps the invariant. -/
theorem Inv.act {net : Network} {c : Cluster} (inv : Inv net c) {n : Name} {m : Mesh}
    {out : List Packet} (sound : m.Sound (Won net c.sent) (Granted net c.sent n))
    (moves : (c.mesh n).Moves m)
    (routes : ∀ r ∈ (c.mesh n).routes, r ∈ m.routes ∨ net.peer n r = some n)
    (speech : ∀ p ∈ out, MaySay net c n m p) : Inv net (c.act n m out) := by
  -- A vote already said by `n` is backed by what `n` has become.
  have backed : ∀ p, Said c p → ∀ a t, p.casts = some (n, a, t) → m.hard.Backs a t := by
    rintro p (sent | ⟨k, waits⟩) a t casts
    · exact ((inv.onDisk p sent n a t casts).mono (inv.persisted n)).mono moves.advances
    · obtain ⟨rfl, backs⟩ := inv.waiting k p waits n a t casts
      exact backs.mono moves.advances
  have said : ∀ p, Said (c.act n m out) p → Said c p ∨ p ∈ out := by
    rintro p (sent | ⟨k, waits⟩)
    · exact .inl (.inl sent)
    · by_cases here : k = n
      · subst here
        simp only [Cluster.act, Function.update_self, List.mem_append] at waits
        rcases waits with old | new
        · exact .inl (.inr ⟨k, old⟩)
        · exact .inr new
      · simp only [Cluster.act, Function.update_of_ne here] at waits
        exact .inl (.inr ⟨k, waits⟩)
  have each : ∀ {P : Name → Mesh → Prop}, (∀ k, k ≠ n → P k (c.mesh k)) → P n m →
      ∀ k, P k ((c.act n m out).mesh k) := by
    intro P others here k
    by_cases same : k = n
    · subst same
      simpa [Cluster.act] using here
    · simpa [Cluster.act, same] using others k same
  constructor
  · exact each (P := fun k m => m.name = k) (fun k _ => inv.name k) (moves.name.trans (inv.name n))
  · exact each (P := fun k m => m.learner = false → k ∈ net.voters) (fun k _ => inv.learner k)
      fun votes => inv.learner n (moves.learner ▸ votes)
  · refine each (P := fun k m => ∀ r ∈ net.routes k, net.peer k r ≠ some k → r ∈ m.routes)
      (fun k _ => inv.routes k) fun r member other => ?_
    rcases routes r (inv.routes n r member other) with kept | self
    · exact kept
    · exact absurd self other
  · exact each (P := fun k m => m.Sound (Won net c.sent) (Granted net c.sent k))
      (fun k _ => inv.sound k) sound
  · exact each (P := fun k m => (c.persisted k).Advances m.hard) (fun k _ => inv.persisted k)
      ((inv.persisted n).trans moves.advances)
  · refine each (P := fun k m => m.hardDirty = false → c.persisted k = m.hard)
      (fun k _ => inv.clean k) fun clean => ?_
    obtain ⟨before, same⟩ := moves.clean clean
    exact (inv.clean n before).trans same.symm
  · intro p saying
    rcases said p saying with old | new
    · exact ⟨(inv.said p old).status, (inv.said p old).voter, (inv.said p old).reply⟩
    · exact ⟨(speech p new).ok.status, (speech p new).ok.voter, (speech p new).ok.reply⟩
  · intro k p member v a t casts
    by_cases here : k = n
    · subst here
      simp only [Cluster.act, Function.update_self, List.mem_append] at member ⊢
      rcases member with old | new
      · obtain ⟨rfl, backs⟩ := inv.waiting k p old v a t casts
        exact ⟨rfl, backs.mono moves.advances⟩
      · obtain ⟨rfl, term, voted⟩ := (speech p new).backed v a t casts
        exact ⟨rfl, .inr ⟨term.symm, voted⟩⟩
    · simp only [Cluster.act, Function.update_of_ne here] at member ⊢
      exact inv.waiting k p member v a t casts
  · exact inv.onDisk
  · intro p q saying saying' v a b t casts casts'
    -- Between an old vote and a new one, what the node has become decides.
    have mixed : ∀ p q a b, Said c p → q ∈ out → p.casts = some (v, a, t) →
        q.casts = some (v, b, t) → a = b := by
      intro p q a b old new casts casts'
      obtain ⟨rfl, rfl, voted⟩ := (speech q new).backed v b t casts'
      exact (backed p old a _ casts).unique (.inr ⟨rfl, voted⟩)
    rcases said p saying with old | new
    · rcases said q saying' with old' | new'
      · exact inv.once p q old old' v a b t casts casts'
      · exact mixed p q a b old new' casts casts'
    · rcases said q saying' with old' | new'
      · exact (mixed q p b a old' new casts' casts).symm
      · have voted := ((speech p new).backed v a t casts).2.2
        have voted' := ((speech q new').backed v b t casts').2.2
        exact Option.some.inj (voted.symm.trans voted')

/-! ## Majorities -/

/-- A voter's routes still reach every other voter. -/
theorem Inv.routes_length {net : Network} {c : Cluster} (wf : net.WellFormed) (inv : Inv net c)
    {n : Name} (votes : n ∈ net.voters) :
    net.voters.card ≤ (c.mesh n).routes.length + 1 := by
  have reached : net.voters.erase n ⊆
      ((c.mesh n).routes.toFinset).image fun r => (net.peer n r).getD n := by
    intro v member
    obtain ⟨other, voter⟩ := Finset.mem_erase.mp member
    obtain ⟨r, route, peer⟩ := wf.onto n votes v voter other
    refine Finset.mem_image.mpr ⟨r, List.mem_toFinset.mpr ?_, by simp [peer]⟩
    exact inv.routes n r route (by simp [peer, other])
  calc net.voters.card ≤ (net.voters.erase n).card + 1 := by
        rw [Finset.card_erase_add_one votes]
    _ ≤ (c.mesh n).routes.toFinset.card + 1 :=
      Nat.succ_le_succ ((Finset.card_le_card reached).trans Finset.card_image_le)
    _ ≤ (c.mesh n).routes.length + 1 := Nat.succ_le_succ (List.toFinset_card_le _)

/-- A quorum of granted routes is a majority of the voters. -/
theorem Inv.elect {net : Network} {c : Cluster} (wf : net.WellFormed) (inv : Inv net c)
    {n : Name} {t : Nat} (routes : Finset Route) (votes : (c.mesh n).learner = false)
    (enough : routes.card + 1 ≥ (c.mesh n).quorum)
    (granted : ∀ r ∈ routes, Granted net c.sent n r t) : Won net c.sent n t := by
  have voter := inv.learner n votes
  have size := inv.routes_length wf voter
  let behind : Route → Name := fun r => (net.peer n r).getD n
  have injective : Set.InjOn behind routes := by
    intro r member r' member' same
    obtain ⟨route, v, isVoter, other, peer, _⟩ := granted r member
    obtain ⟨route', v', _, _, peer', _⟩ := granted r' member'
    simp only [behind, peer, peer', Option.getD_some] at same
    exact wf.oneToOne n voter v isVoter other r route r' route' peer (same ▸ peer')
  have outside : n ∉ routes.image behind := by
    intro member
    obtain ⟨r, member, same⟩ := Finset.mem_image.mp member
    obtain ⟨_, v, _, other, peer, _⟩ := granted r member
    simp only [behind, peer, Option.getD_some] at same
    exact other same
  have card : (insert n (routes.image behind)).card = routes.card + 1 := by
    rw [Finset.card_insert_of_notMem outside, Finset.card_image_of_injOn injective]
  refine ⟨voter, insert n (routes.image behind), ?_, ?_, fun many v member => ?_⟩
  · intro v member
    rcases Finset.mem_insert.mp member with rfl | member
    · exact voter
    · obtain ⟨r, route, rfl⟩ := Finset.mem_image.mp member
      obtain ⟨_, v, isVoter, _, peer, _⟩ := granted r route
      simpa only [behind, peer, Option.getD_some] using isVoter
  · rw [card]
    unfold Mesh.quorum at enough
    omega
  · rcases Finset.mem_insert.mp member with rfl | member
    · -- The candidate's own vote left with the request its grants answer.
      unfold Mesh.quorum at enough
      obtain ⟨r, member⟩ := Finset.card_pos.mp (show 0 < routes.card by omega)
      obtain ⟨_, _, _, _, _, _, own⟩ := granted r member
      exact own
    · obtain ⟨r, route, rfl⟩ := Finset.mem_image.mp member
      obtain ⟨_, v, _, _, peer, cast, _⟩ := granted r route
      simpa only [behind, peer, Option.getD_some] using cast

/-! ## Every event -/

/-- A request is the candidate's own, and a real one casts its own vote. -/
private theorem request_ok {net : Network} {c : Cluster} {n : Name} {m : Mesh}
    {req : VoteRequest} (candidate : req.candidate = n)
    (real : req.pre = false → n ∈ net.voters ∧ m.hard.term = req.term ∧
      m.hard.votedFor = some n) : MaySay net c n m (.request req) := by
  have casts : ∀ v a t, (Packet.request req).casts = some (v, a, t) →
      req.pre = false ∧ v = n ∧ a = n ∧ t = req.term := by
    intro v a t casts
    simp only [Packet.casts] at casts
    split at casts
    · simp at casts
    next pre =>
      simp only [Option.some.injEq, Prod.mk.injEq, candidate] at casts
      exact ⟨by simpa using pre, casts.1.symm, casts.2.1.symm, casts.2.2.symm⟩
  refine ⟨⟨by simp, fun v a t cast => ?_, by simp⟩, fun v a t cast => ?_⟩
  · obtain ⟨pre, rfl, _⟩ := casts v a t cast
    exact (real pre).1
  · obtain ⟨pre, rfl, rfl, rfl⟩ := casts v a t cast
    exact ⟨rfl, (real pre).2⟩

theorem Inv.persist {net : Network} {c : Cluster} (inv : Inv net c) (n : Name) :
    Inv net (step net c (.persist n)) := by
  -- What is written is the vote as it stands, and was written already where it is clean.
  have disk : ∀ k, (step net c (.persist n)).persisted k =
      if k = n then (c.mesh n).hard else c.persisted k := by
    intro k
    by_cases here : k = n
    · subst here
      cases dirty : (c.mesh k).hardDirty with
      | true => simp [step, Mesh.takeDirty, dirty]
      | false => simp [step, Mesh.takeDirty, dirty, inv.clean k dirty]
    · simp [step, Mesh.takeDirty, here]
  have mesh : ∀ k, ∃ dirty, (step net c (.persist n)).mesh k =
      { c.mesh k with hardDirty := dirty } ∧ (k ≠ n → dirty = (c.mesh k).hardDirty) := by
    intro k
    by_cases here : k = n
    · subst here
      exact ⟨false, by simp [step, Mesh.takeDirty], by simp⟩
    · exact ⟨_, by simp [step, Mesh.takeDirty, here], fun _ => rfl⟩
  have hard : ∀ k, ((step net c (.persist n)).mesh k).hard = (c.mesh k).hard := fun k => by
    obtain ⟨_, eq, _⟩ := mesh k
    rw [eq]
  have saved : ∀ k, (c.persisted k).Advances ((step net c (.persist n)).persisted k) := fun k => by
    rw [disk]
    split
    next here => exact here ▸ inv.persisted k
    · exact .refl _
  constructor
  · intro k
    obtain ⟨_, eq, _⟩ := mesh k
    rw [eq]; exact inv.name k
  · intro k
    obtain ⟨_, eq, _⟩ := mesh k
    rw [eq]; exact inv.learner k
  · intro k
    obtain ⟨_, eq, _⟩ := mesh k
    rw [eq]; exact inv.routes k
  · intro k
    obtain ⟨_, eq, _⟩ := mesh k
    rw [eq]
    have sound := inv.sound k
    exact ⟨sound.leader, sound.leads, sound.silent, sound.campaign, sound.votesSelf, sound.votes,
      sound.learner⟩
  · intro k
    rw [hard, disk]
    split
    next here => exact here ▸ .refl _
    · exact inv.persisted k
  · intro k clean
    rw [hard, disk]
    split
    next here => rw [here]
    next other =>
      obtain ⟨dirty, eq, same⟩ := mesh k
      rw [eq] at clean
      exact inv.clean k ((same other).symm.trans clean)
  · exact fun p said => ⟨(inv.said p said).status, (inv.said p said).voter, (inv.said p said).reply⟩
  · exact fun k p waits v a t casts => hard k ▸ inv.waiting k p waits v a t casts
  · exact fun p sent v a t casts => (inv.onDisk p sent v a t casts).mono (saved v)
  · exact inv.once

/-- A message leaves only when everything it says is on disk. -/
theorem Inv.leave {net : Network} {c : Cluster} (inv : Inv net c) {n : Name} {p : Packet}
    (waits : p ∈ c.outbox n) (clean : (c.mesh n).hardDirty = false) :
    Inv net { c with
      outbox := Function.update c.outbox n ((c.outbox n).erase p)
      sent := p :: c.sent } := by
  have fewer : ∀ k, ∀ q ∈ Function.update c.outbox n ((c.outbox n).erase p) k,
      q ∈ c.outbox k := by
    intro k q member
    by_cases here : k = n
    · subst here
      rw [Function.update_self] at member
      exact List.mem_of_mem_erase member
    · rwa [Function.update_of_ne here] at member
  have said : ∀ q, Said { c with
      outbox := Function.update c.outbox n ((c.outbox n).erase p)
      sent := p :: c.sent } q → Said c q := by
    rintro q (sent | ⟨k, member⟩)
    · rcases List.mem_cons.mp sent with rfl | old
      · exact .inr ⟨n, waits⟩
      · exact .inl old
    · exact .inr ⟨k, fewer k q member⟩
  -- Who was granted a vote by a message stays granted it.
  have grow : c.sent ⊆ p :: c.sent := List.subset_cons_self p c.sent
  constructor
  · exact inv.name
  · exact inv.learner
  · exact inv.routes
  · exact fun k => (inv.sound k).mono (fun _ _ won => won.mono grow)
      fun _ _ granted => granted.mono grow
  · exact inv.persisted
  · exact inv.clean
  · intro q saying
    have ok := inv.said q (said q saying)
    refine ⟨fun st same => ?_, ok.voter, fun v req reply same => ?_⟩
    · exact ⟨fun a names => ((ok.status st same).leader a names).mono grow,
        fun leads => ((ok.status st same).leads leads).mono grow⟩
    · exact ⟨List.mem_cons_of_mem _ (ok.reply v req reply same).1, (ok.reply v req reply same).2⟩
  · exact fun k q member => inv.waiting k q (fewer k q member)
  · intro q member v a t casts
    rcases List.mem_cons.mp member with rfl | old
    -- It waited at a member whose vote is clean, so what backs it is on disk.
    · obtain ⟨rfl, backs⟩ := inv.waiting n q waits v a t casts
      exact inv.clean v clean ▸ backs
    · exact inv.onDisk q old v a t casts
  · exact fun q q' saying saying' => inv.once q q' (said q saying) (said q' saying')

theorem Inv.restart {net : Network} {c : Cluster} (inv : Inv net c) (n : Name) (now : Nat)
    (seed : UInt64) : Inv net (step net c (.restart n now seed)) := by
  have boots := boot_spec net n (c.persisted n) now seed
  have fewer : ∀ k, ∀ q ∈ Function.update c.outbox n [] k, k ≠ n ∧ q ∈ c.outbox k := by
    intro k q member
    by_cases here : k = n
    · subst here
      simp at member
    · exact ⟨here, by rwa [Function.update_of_ne here] at member⟩
  have said : ∀ q, Said (step net c (.restart n now seed)) q → Said c q := by
    rintro q (sent | ⟨k, member⟩)
    · exact .inl sent
    · exact .inr ⟨k, (fewer k q member).2⟩
  -- Whoever is not restarted is as it was; who is, comes up with what is on its disk.
  have each : ∀ {P : Name → Mesh → Prop}, (∀ k, P k (c.mesh k)) →
      P n (boot net n (c.persisted n) now seed) →
      ∀ k, P k ((step net c (.restart n now seed)).mesh k) := by
    intro P others here k
    by_cases same : k = n
    · subst same
      simpa [step] using here
    · simpa [step, same] using others k
  constructor
  · exact each (P := fun k m => m.name = k) inv.name boots.1
  · exact each (P := fun k m => m.learner = false → k ∈ net.voters) inv.learner boots.2.1
  · exact each (P := fun k m => ∀ r ∈ net.routes k, net.peer k r ≠ some k → r ∈ m.routes) inv.routes
      fun r member _ => by rw [boots.2.2.1]; exact member
  · exact each (P := fun k m => m.Sound (Won net c.sent) (Granted net c.sent k)) inv.sound
      (boots.2.2.2.2 _ _)
  · refine each (P := fun k m => (c.persisted k).Advances m.hard) inv.persisted ?_
    rw [boots.2.2.2.1]
    exact .refl _
  · exact each (P := fun k m => m.hardDirty = false → c.persisted k = m.hard) inv.clean
      fun _ => boots.2.2.2.1.symm
  · intro q saying
    have ok := inv.said q (said q saying)
    exact ⟨ok.status, ok.voter, ok.reply⟩
  · intro k q member v a t casts
    obtain ⟨other, old⟩ := fewer k q member
    have mesh : (step net c (.restart n now seed)).mesh k = c.mesh k :=
      Function.update_of_ne other _ _
    rw [mesh]
    exact inv.waiting k q old v a t casts
  · exact inv.onDisk
  · exact fun q q' saying saying' => inv.once q q' (said q saying) (said q' saying')

theorem step_inv {net : Network} {c : Cluster} (wf : net.WellFormed) (inv : Inv net c)
    (e : Event) : Inv net (step net c e) := by
  -- A voter whose own vote is a quorum has won as soon as it stands.
  have alone : ∀ n, (c.mesh n).learner = false → (c.mesh n).quorum = 1 →
      ∀ t, Won net c.sent (c.mesh n).name t := by
    intro n votes one t
    rw [inv.name]
    exact inv.elect wf ∅ votes (by simp [one]) (by simp)
  cases e with
  | tick n now head =>
    obtain ⟨sound, moves, routes, requests⟩ :=
      Mesh.tick_spec (inv.sound n) now head (alone n)
    refine inv.act sound moves (fun r member => .inl (routes ▸ member)) fun p member => ?_
    simp only [List.mem_map, Option.mem_toList] at member
    obtain ⟨req, out, rfl⟩ := member
    obtain ⟨candidate, pre⟩ := requests req out
    exact request_ok (candidate.trans (inv.name n)) (by simp [pre])
  | appended n =>
    obtain ⟨sound, moves, routes⟩ := Mesh.appended_spec (inv.sound n)
    exact inv.act sound moves (fun r member => .inl (routes ▸ member)) (by simp)
  | pushTargets n now head =>
    obtain ⟨sound, moves, routes⟩ := Mesh.pushTargets_spec (inv.sound n) now head
    exact inv.act sound moves (fun r member => .inl (routes ▸ member)) (by simp)
  | say n head account =>
    refine inv.act (inv.sound n) (.refl _) (fun r member => .inl member) fun p member => ?_
    rw [List.mem_singleton] at member
    subst member
    refine ⟨⟨fun st same => ?_, by simp [Packet.casts], by simp⟩, by simp [Packet.casts]⟩
    obtain rfl := Packet.status.inj same
    exact (inv.sound n).status head account
  | polled n route st now =>
    simp only [step]
    split
    next arrives =>
      have honest := (inv.said _ (.inl arrives.1)).status st rfl
      obtain ⟨sound, moves, routes⟩ := Mesh.onStatus_spec (inv.sound n) route honest now
      refine inv.act sound moves (fun r member => ?_) (by simp)
      rcases routes r member with kept | ⟨rfl, self⟩
      · exact .inl kept
      · exact .inr (by rw [arrives.2.2, self, inv.name])
    · exact inv
  | inbound n st now =>
    simp only [step]
    split
    next arrives =>
      have honest := (inv.said _ (.inl arrives)).status st rfl
      obtain ⟨sound, moves, routes⟩ := Mesh.onInbound_spec (inv.sound n) honest now
      exact inv.act sound moves (fun r member => .inl (routes ▸ member)) (by simp)
    · exact inv
  | requested n req now head =>
    simp only [step]
    split
    next arrives =>
      obtain ⟨sound, moves, routes, voted⟩ := Mesh.onVoteRequest_spec (inv.sound n) req now head
      refine inv.act sound moves (fun r member => .inl (routes ▸ member)) fun p member => ?_
      rw [List.mem_singleton] at member
      subst member
      -- A reply casts a vote only for the term it was asked for, and for the candidate that
      -- asked.
      have casts : ∀ v a t, (Packet.reply n req ((c.mesh n).onVoteRequest req now head).1).casts =
          some (v, a, t) → (v = n ∧ a = req.candidate ∧ t = req.term) ∧
          (c.mesh n).learner = false ∧ req.candidate ≠ (c.mesh n).name ∧
          ((c.mesh n).onVoteRequest req now head).2.hard.term = req.term ∧
          ((c.mesh n).onVoteRequest req now head).2.hard.votedFor = some req.candidate := by
        intro v a t casts
        simp only [Packet.casts] at casts
        split at casts
        next yes =>
          simp only [Bool.and_eq_true, Bool.not_eq_true'] at yes
          simp only [Option.some.injEq, Prod.mk.injEq] at casts
          exact ⟨⟨casts.1.symm, casts.2.1.symm, casts.2.2.symm⟩, voted yes.1 yes.2⟩
        · simp at casts
      refine ⟨⟨by simp, fun v a t cast => ?_, fun v req' answer same => ?_⟩, fun v a t cast => ?_⟩
      · obtain ⟨⟨rfl, _⟩, votes, _⟩ := casts v a t cast
        exact inv.learner v votes
      · obtain ⟨rfl, rfl, rfl⟩ := Packet.reply.inj same
        refine ⟨arrives, fun some => ?_⟩
        obtain ⟨⟨v', a, t⟩, cast⟩ := Option.ne_none_iff_exists'.mp some
        have other := (casts v' a t cast).2.2.1
        rw [inv.name] at other
        exact other.symm
      · obtain ⟨⟨rfl, rfl, rfl⟩, _, _, term, vote⟩ := casts v a t cast
        exact ⟨rfl, term, vote⟩
    · exact inv
  | replied n route voter req reply now head =>
    simp only [step]
    split
    next arrives =>
      obtain ⟨sent, known, peer, candidate⟩ := arrives
      have ok := inv.said _ (.inl sent)
      -- A vote that is granted was asked for by this candidate, and comes from another voter.
      have answered : reply.granted = true → req.pre = false →
          Granted net c.sent n route req.term := by
        intro yes real
        have casts : (Packet.reply voter req reply).casts = some (voter, n, req.term) := by
          simp [Packet.casts, yes, real, candidate]
        obtain ⟨asked, other⟩ := ok.reply voter req reply rfl
        refine ⟨known, voter, ok.voter _ _ _ casts, ?_, peer, ⟨_, sent, casts⟩, _, asked, ?_⟩
        · exact candidate ▸ other (by simp [casts])
        · simp [Packet.casts, real, candidate]
      obtain ⟨sound, moves, routes, requests⟩ := Mesh.onVoteReply_spec (inv.sound n) route req reply
        now head answered fun votes learner enough all => by
          rw [inv.name]
          exact inv.elect wf votes learner enough all
      refine inv.act sound moves (fun r member => .inl (routes ▸ member)) fun p member => ?_
      simp only [List.mem_map, Option.mem_toList] at member
      obtain ⟨out, yes, rfl⟩ := member
      obtain ⟨votes, mine, _, term, voted⟩ := requests out yes
      refine request_ok (mine.trans (inv.name n)) fun _ => ⟨inv.learner n votes, term, ?_⟩
      rw [voted, inv.name]
    · exact inv
  | persist n => exact inv.persist n
  | leave n p =>
    simp only [step]
    split
    next ready => exact inv.leave ready.1 ready.2
    · exact inv
  | restart n now seed => exact inv.restart n now seed

/-! ## Every run -/

theorem step_sent (net : Network) (c : Cluster) (e : Event) : c.sent ⊆ (step net c e).sent := by
  cases e with
  | leave n p =>
    simp only [step]
    split
    · exact List.subset_cons_self p c.sent
    · exact List.Subset.refl _
  | polled | inbound | requested | replied =>
    simp only [step]
    split <;> exact List.Subset.refl _
  | _ => exact List.Subset.refl _

/-- In every run of a well-formed cluster, two leaders of one term, at any two moments, are the
same node, and two leaders named in one term are the same name. Terms have no bound here: they are
those of a run that stays below 2^64. -/
theorem election_safety {net : Network} (wf : net.WellFormed) (hard : Name → Hard)
    (now : Name → Nat) (seed : Name → UInt64) (before after : List Event) :
    let earlier := Machine.run (step net) (start net hard now seed) before
    let later := Machine.run (step net) earlier after
    (∀ a b, (earlier.mesh a).role = .leader → (later.mesh b).role = .leader →
      (earlier.mesh a).hard.term = (later.mesh b).hard.term → a = b) ∧
    (∀ a b x y, (earlier.mesh a).leader = some x → (later.mesh b).leader = some y →
      (earlier.mesh a).hard.term = (later.mesh b).hard.term → x = y) := by
  intro earlier later
  have reach : ∀ {c : Cluster} (es : List Event), Inv net c →
      Inv net (Machine.run (step net) c es) := fun es inv =>
    Machine.run_invariant (Inv net) (fun c e inv _ => step_inv wf inv e) inv
      (Machine.meets_of_forall (p := fun _ => True) fun _ _ => trivial)
  have inv : Inv net earlier := reach before (start_inv net hard now seed)
  have inv' : Inv net later := reach after inv
  have grow : earlier.sent ⊆ later.sent :=
    Machine.run_grows (R := fun c c' : Cluster => c.sent ⊆ c'.sent)
      (fun _ => List.Subset.refl _) (fun one two => List.Subset.trans one two) (step_sent net)
      earlier after
  -- In all that is ever sent a voter casts one vote a term.
  have once : ∀ v c c' t, Cast later.sent v c t → Cast later.sent v c' t → c = c' := by
    rintro v c c' t ⟨p, sent, casts⟩ ⟨q, sent', casts'⟩
    exact inv'.once p q (.inl sent) (.inl sent') v c c' t casts casts'
  constructor
  · intro a b leads leads' same
    have won := ((inv.sound a).leads leads).mono grow
    have won' := (inv'.sound b).leads leads'
    rw [inv.name] at won
    rw [inv'.name, ← same] at won'
    exact Won.unique once won won'
  · intro a b x y names names' same
    have won := ((inv.sound a).leader x names).mono grow
    have won' := (inv'.sound b).leader y names'
    exact Won.unique once won (same ▸ won')

/-- Three voters, each routing to the others by name. -/
def threeVoters : Network where
  voters := {"a", "b", "c"}
  routes := fun n => ["a", "b", "c"].filter (· ≠ n)
  peer := fun _ r => some r
  timing := fun _ => {}

theorem threeVoters_wellFormed : threeVoters.WellFormed := by
  constructor
  · intro n _ v _ _ r _ r' _ peer peer'
    exact (Option.some.inj peer).trans (Option.some.inj peer').symm
  · decide

/-- `a` times out, and `b` grants it first a pre-vote and then a real vote. -/
def electing : List Event :=
  let pre : VoteRequest := ⟨1, "a", 0, 0, true⟩
  let real : VoteRequest := ⟨1, "a", 0, 0, false⟩
  [.tick "a" 9000 0, .leave "a" (.request pre), .requested "b" pre 9001 0,
    .leave "b" (.reply "b" pre ⟨0, true⟩), .replied "a" "b" "b" pre ⟨0, true⟩ 9002 0,
    .persist "a", .leave "a" (.request real), .requested "b" real 9003 0, .persist "b",
    .leave "b" (.reply "b" real ⟨1, true⟩), .replied "a" "b" "b" real ⟨1, true⟩ 9004 0]

/-- With `b`'s votes `a` leads, and nobody else leads its term. -/
theorem election_safety_elected :
    let c := Machine.run (step threeVoters)
      (start threeVoters (fun _ => {}) (fun _ => 0) fun _ => 1) electing
    (c.mesh "a").role = .leader ∧ ∀ b, (c.mesh b).role = .leader →
      (c.mesh "a").hard.term = (c.mesh b).hard.term → "a" = b := by
  have leads : ((Machine.run (step threeVoters)
      (start threeVoters (fun _ => {}) (fun _ => 0) fun _ => 1) electing).mesh "a").role =
      .leader := by decide +kernel
  have safe := election_safety threeVoters_wellFormed (fun _ => {}) (fun _ => 0) (fun _ => 1)
    electing []
  simp only [Machine.run_nil] at safe
  exact ⟨leads, fun b => safe.1 "a" b leads⟩

end Cluster

end AkumaMiot

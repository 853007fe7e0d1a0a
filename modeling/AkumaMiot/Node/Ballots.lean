import AkumaMiot.Lib.Machine
import AkumaMiot.Mesh.HardJson
import AkumaMiot.Node.Upkeep

/-!
# Votes on disk

A vote that somebody is told of must be on disk first, or a restart forgets it and the node
votes twice in one term. The write may fail, and the node says it all the same.
-/
namespace AkumaMiot

variable {A B H : Type}

/-- A real vote: for whom, in which term. -/
structure Ballot where
  candidate : Name
  term : Nat
deriving DecidableEq, Repr

/-- A hard state that holds this vote. -/
def Hard.Carries (h : Hard) (b : Ballot) : Prop := h.term = b.term ∧ h.votedFor = some b.candidate

theorem Hard.Carries.backs {h d : Hard} {b : Ballot} (carries : h.Carries b)
    (later : h.Advances d) : d.Backs b.candidate b.term :=
  Hard.Backs.mono (.inr ⟨carries.1.symm, carries.2⟩) later

/-- The vote in a request: a pre-vote commits nobody. -/
def VoteRequest.ballots (req : VoteRequest) : List Ballot :=
  if req.pre then [] else [⟨req.candidate, req.term⟩]

theorem VoteRequest.mem_ballots {req : VoteRequest} {b : Ballot} (member : b ∈ req.ballots) :
    req.pre = false ∧ b = ⟨req.candidate, req.term⟩ := by
  unfold ballots at member
  split at member
  · simp at member
  next real => exact ⟨by simpa using real, List.mem_singleton.mp member⟩

/-- A pre-vote that succeeds changes the hard state. -/
theorem Mesh.onVoteReply_dirty {m : Mesh} {route : Route} {req out : VoteRequest}
    {reply : VoteReply} {now head : Nat}
    (asks : (m.onVoteReply route req reply now head).1 = some out) :
    (m.onVoteReply route req reply now head).2.hardDirty = true := by
  revert asks
  unfold onVoteReply
  dsimp only
  split
  · simp
  · split
    · simp
    · split
      · split
        · simp
        · split
          · exact fun _ => rfl
          · simp
      · split
        · split <;> simp
        · simp

namespace Node

/-- What the store holds of the election, and that the mesh in memory has only moved on. -/
structure Trusts (readHard : List UInt8 → Option Hard) (d : Hard) (n : Node A B H) : Prop where
  stored : Process.storedHard readHard n.store = some d
  behind : d.Advances n.mesh.hard
  honest : Honest n.mesh

variable {readHard : List UInt8 → Option Hard} {env : Env A B H}

/-- What a write leaves on disk. -/
theorem Trusts.saveHard {d : Hard} {n : Node A B H} (trusts : n.Trusts readHard d)
    (reads : ∀ h, readHard (env.encodeHard h) = some h) (commits : Bool) :
    (n.saveHard env commits).Trusts readHard
      (if n.mesh.hardDirty && commits then n.mesh.hard else d) := by
  have mesh : (n.saveHard env commits).mesh = n.mesh.takeDirty.2 := by rw [saveHard_eq]
  have hard : (n.saveHard env commits).mesh.hard = n.mesh.hard := by rw [mesh]; rfl
  refine ⟨?_, ?_, ?_⟩
  · unfold Node.saveHard Mesh.takeDirty
    cases dirty : n.mesh.hardDirty with
    | false => simpa [dirty] using trusts.stored
    | true =>
      simp only [if_true, Process.storedHard, Store.putAux_aux, Bool.true_and]
      cases commits with
      | false => exact trusts.stored
      | true => exact reads n.mesh.hard
  · rw [hard]
    split
    · exact .refl _
    · exact trusts.behind
  · rw [mesh]
    have honest := trusts.honest
    exact ⟨honest.leader, honest.leads, honest.silent, honest.campaign, honest.votesSelf,
      honest.votes, honest.learner⟩

/-- Whatever a node works on, the store's vote only moves on. -/
theorem Tends.trusts [DecidableEq H] (reads : ∀ h, readHard (env.encodeHard h) = some h)
    {n n' : Node A B H} (tends : Tends env n n') {d : Hard} (trusts : n.Trusts readHard d) :
    ∃ d', d.Advances d' ∧ n'.Trusts readHard d' := by
  induction tends generalizing d with
  | beside beside =>
    refine ⟨d, .refl d, ?_, ?_, ?_⟩
    · rw [beside.store]; exact trusts.stored
    · rw [beside.mesh]; exact trusts.behind
    · rw [beside.mesh]; exact trusts.honest
  | logged aux =>
    refine ⟨d, .refl d, ?_, trusts.behind, trusts.honest⟩
    rw [Process.storedHard, aux]
    exact trusts.stored
  | moved moves =>
    obtain ⟨honest, moved⟩ := moves trusts.honest
    exact ⟨d, .refl d, trusts.stored, trusts.behind.trans moved.advances, honest⟩
  -- The store now holds the mesh's vote, which was ahead of the store's.
  | saved n commits =>
    refine ⟨_, ?_, trusts.saveHard reads commits⟩
    split
    · exact trusts.behind
    · exact .refl d
  | trans _ _ first second =>
    obtain ⟨d₁, on, trusts⟩ := first trusts
    obtain ⟨d₂, on', trusts⟩ := second trusts
    exact ⟨d₂, on.trans on', trusts⟩

theorem Elsewhere.trusts {n n' : Node A B H} (elsewhere : n.Elsewhere n') {d : Hard}
    (trusts : n.Trusts readHard d) : n'.Trusts readHard d := by
  refine ⟨?_, ?_, ?_⟩
  · rw [elsewhere.2]; exact trusts.stored
  · rw [elsewhere.1]; exact trusts.behind
  · rw [elsewhere.1]; exact trusts.honest

/-- A mesh that moved on, written down and followed. -/
theorem followMesh_trusts [DecidableEq A] (reads : ∀ h, readHard (env.encodeHard h) = some h)
    {n n' : Node A B H} {mesh : Mesh} {now : Nat} {commits : Bool} {d : Hard}
    (trusts : n.Trusts readHard d) (honest : Honest mesh) (moves : n.mesh.Moves mesh)
    (followed : { n with mesh := mesh }.followMesh env now commits = some n') :
    n'.Trusts readHard (if mesh.hardDirty && commits then mesh.hard else d) := by
  have moved : ({ n with mesh := mesh } : Node A B H).Trusts readHard d :=
    ⟨trusts.stored, trusts.behind.trans moves.advances, honest⟩
  exact (followMesh_elsewhere followed).trusts (moved.saveHard reads commits)

end Node

/-! ## A process and the votes it told -/

/-- A process beside the real votes that left it, and every hard state its store has held. -/
structure Sworn (A B H : Type) where
  process : Process A B H
  told : List Ballot
  written : List Hard

namespace Sworn

/-- The vote of a request that leaves once the replies to the last one are in. -/
def awaited (p : Process A B H) : List Ballot :=
  (p.campaign.bind Prod.snd).toList.flatMap VoteRequest.ballots

section Running

variable [DecidableEq A] [DecidableEq H]

/-- The real votes an event lets out: a granted reply, or a request. -/
def ballots (p : Process A B H) : ProcessEvent B H → List Ballot
  | .round polled now _ _ =>
    if !p.idle then []
    else
      let m := polled.foldl (fun m (route, st) => m.onStatus route st now) p.node.mesh
      (m.tick now p.node.store.head).1.toList.flatMap VoteRequest.ballots
  | .voteRequest req now _ _ =>
    let (reply, _) := p.node.mesh.onVoteRequest req now p.node.store.head
    if reply.granted then req.ballots else []
  | .collected => awaited p
  | _ => []

def step (env : Env A B H) (readHard : List UInt8 → Option Hard) (w : Sworn A B H)
    (e : ProcessEvent B H) : Option (Sworn A B H) :=
  (w.process.step env readHard e).map fun p => {
    process := p
    told := ballots w.process e ++ w.told
    written := (Process.storedHard readHard p.node.store).toList ++ w.written }

def next (env : Env A B H) (readHard : List UInt8 → Option Hard) (w : Option (Sworn A B H))
    (e : ProcessEvent B H) : Option (Sworn A B H) :=
  w.bind fun w => w.step env readHard e

end Running

/-- A process that has said nothing yet. -/
def fresh (readHard : List UInt8 → Option Hard) (p : Process A B H) : Sworn A B H :=
  ⟨p, [], (Process.storedHard readHard p.node.store).toList⟩

/-- Every vote that left had been written, and the store still stands by it; no two votes of
one term are for different candidates. -/
structure Durable (readHard : List UInt8 → Option Hard) (w : Sworn A B H) : Prop where
  written : ∀ b ∈ w.told, ∃ h ∈ w.written, h.Carries b
  stands : ∀ b ∈ w.told, ∃ d, Process.storedHard readHard w.process.node.store = some d ∧
    d.Backs b.candidate b.term
  once : ∀ b ∈ w.told, ∀ b' ∈ w.told, b.term = b'.term → b.candidate = b'.candidate

/-- Whether the store holds the term and the vote that the mesh has. -/
def holdsVote (readHard : List UInt8 → Option Hard) (n : Node A B H) : Bool :=
  (Process.storedHard readHard n.store).any fun d =>
    d.term = n.mesh.hard.term && d.votedFor = n.mesh.hard.votedFor

/-- The database takes the write of a vote that is cast here. A vote that is told again was
taken before, or is written again and taken now. -/
def Kept (readHard : List UInt8 → Option Hard) (p : Process A B H) : ProcessEvent B H → Prop
  | .voteRequest req now _ commits =>
    (p.node.mesh.onVoteRequest req now p.node.store.head).1.granted = true → req.pre = false →
      if req.term > p.node.mesh.hard.term ∨ p.node.mesh.hard.votedFor = none then commits = true
      else holdsVote readHard p.node = true ∨ (p.node.mesh.hardDirty = true ∧ commits = true)
  | .voteReply route reply now _ commits =>
    ∀ req ∈ p.campaign.map Prod.fst,
      (p.node.mesh.onVoteReply route req reply now p.node.store.head).1.isSome = true →
        commits = true
  | _ => True

/-- What has left and what is about to. -/
def pledged (w : Sworn A B H) : List Ballot := w.told ++ awaited w.process

/-- The store has only moved on, from one vote it was told to hold to the next. -/
structure Inv (readHard : List UInt8 → Option Hard) (w : Sworn A B H) (d : Hard) : Prop where
  trusts : w.process.node.Trusts readHard d
  behind : ∀ h ∈ w.written, h.Advances d
  written : ∀ b ∈ w.pledged, ∃ h ∈ w.written, h.Carries b
  once : ∀ b ∈ w.pledged, ∀ b' ∈ w.pledged, b.term = b'.term → b.candidate = b'.candidate

variable {env : Env A B H} {readHard : List UInt8 → Option Hard}

theorem Inv.durable {w : Sworn A B H} {d : Hard} (inv : Inv readHard w d) :
    Durable readHard w := by
  have pledged : ∀ b ∈ w.told, b ∈ w.pledged := fun b member => List.mem_append_left _ member
  refine ⟨fun b member => inv.written b (pledged b member), fun b member => ?_, ?_⟩
  · obtain ⟨h, held, carries⟩ := inv.written b (pledged b member)
    exact ⟨d, inv.trusts.stored, carries.backs (inv.behind h held)⟩
  · exact fun b member b' member' => inv.once b (pledged b member) b' (pledged b' member')

/-- The store moved on; every vote not pledged before is in it now. -/
theorem Inv.later {w w' : Sworn A B H} {d d' : Hard} (inv : Inv readHard w d)
    (on : d.Advances d') (trusts : w'.process.node.Trusts readHard d')
    (written : w'.written = d' :: w.written)
    (pledged : ∀ b ∈ w'.pledged, b ∈ w.pledged ∨ d'.Carries b) : Inv readHard w' d' := by
  -- Old or new, the store stands by it.
  have backs : ∀ b ∈ w'.pledged, d'.Backs b.candidate b.term := by
    intro b member
    rcases pledged b member with old | new
    · obtain ⟨h, held, carries⟩ := inv.written b old
      exact carries.backs ((inv.behind h held).trans on)
    · exact new.backs (.refl d')
  refine ⟨trusts, ?_, ?_, ?_⟩
  · rw [written]
    intro h held
    rcases List.mem_cons.mp held with rfl | old
    · exact .refl h
    · exact (inv.behind h old).trans on
  · rw [written]
    intro b member
    rcases pledged b member with old | new
    · obtain ⟨h, held, carries⟩ := inv.written b old
      exact ⟨h, List.mem_cons_of_mem _ held, carries⟩
    · exact ⟨d', List.mem_cons_self, new⟩
  · intro b member b' member' same
    rcases pledged b member with old | new
    · rcases pledged b' member' with old' | new'
      · exact inv.once b old b' old' same
      · have one : d'.Backs b.candidate d'.term := new'.1 ▸ same ▸ backs b member
        exact one.unique (new'.1 ▸ backs b' member')
    · have two : d'.Backs b'.candidate d'.term := new.1 ▸ same ▸ backs b' member'
      exact Hard.Backs.unique (new.1 ▸ backs b member) two

/-- A vote that is granted is in the store when the reply leaves. -/
theorem granted_carries {n : Node A B H} {d : Hard} (trusts : n.Trusts readHard d)
    {req : VoteRequest} {now later : Nat} {commits : Bool} {p : Process A B H} (node : p.node = n)
    (kept : Kept readHard p (.voteRequest req now later commits))
    (granted : (n.mesh.onVoteRequest req now n.store.head).1.granted = true)
    (real : req.pre = false) :
    Hard.Carries (if (n.mesh.onVoteRequest req now n.store.head).2.hardDirty && commits then
      (n.mesh.onVoteRequest req now n.store.head).2.hard else d) ⟨req.candidate, req.term⟩ := by
  subst node
  obtain ⟨_, moves, _, casts⟩ :=
    Mesh.onVoteRequest_spec trusts.honest req now p.node.store.head
  obtain ⟨_, _, term, vote⟩ := casts granted real
  have condition := kept granted real
  generalize p.node.mesh.onVoteRequest req now p.node.store.head = answer at *
  split at condition
  next fresh =>
    -- A vote that is cast here makes the hard state dirty.
    have dirty : answer.2.hardDirty = true := by
      cases clean : answer.2.hardDirty with
      | true => rfl
      | false =>
        have same := (moves.clean clean).2
        rcases fresh with higher | none
        · rw [← same, term] at higher
          exact absurd higher (Nat.lt_irrefl _)
        · rw [← same, vote] at none
          simp at none
    rw [dirty, condition]
    exact ⟨term, vote⟩
  next again =>
    obtain ⟨notHigher, cast⟩ := not_or.mp again
    split
    · exact ⟨term, vote⟩
    next unwritten =>
      rcases condition with held | ⟨dirty, commits⟩
      · -- The store holds the vote that the mesh had, which is the one that is told.
        have held : d.term = p.node.mesh.hard.term ∧ d.votedFor = p.node.mesh.hard.votedFor := by
          simpa [holdsVote, trusts.stored] using held
        rcases moves.advances with up | ⟨same, none | kept⟩
        · omega
        · exact absurd none cast
        · exact ⟨held.1.trans (same.trans term), held.2.trans (kept.symm.trans vote)⟩
      · have dirty' : answer.2.hardDirty = true := by
          cases clean : answer.2.hardDirty with
          | true => rfl
          | false => simp [(moves.clean clean).1] at dirty
        simp [dirty', commits] at unwritten

/-- What is on disk once a mesh that moved on is written down. -/
theorem advances_written {n : Node A B H} {d : Hard} (trusts : n.Trusts readHard d) {m : Mesh}
    (moves : n.mesh.Moves m) (commits : Bool) :
    d.Advances (if m.hardDirty && commits then m.hard else d) := by
  split
  · exact trusts.behind.trans moves.advances
  · exact .refl d

/-- What an event that casts no vote leaves to show. -/
theorem quiet_moves {p p' : Process A B H} {e : ProcessEvent B H} {d d' : Hard}
    (on : d.Advances d') (trusts : p'.node.Trusts readHard d') (silent : ballots p e = [])
    (campaign : p'.campaign = p.campaign) :
    ∃ d', d.Advances d' ∧ p'.node.Trusts readHard d' ∧
      (∀ b ∈ ballots p e, b ∈ awaited p ∨ d'.Carries b) ∧
      ∀ b ∈ awaited p', b ∈ awaited p ∨ d'.Carries b :=
  ⟨d', on, trusts, by simp [silent], fun b member => .inl (by rwa [awaited, campaign] at member)⟩

section Running

variable [DecidableEq A] [DecidableEq H]

omit [DecidableEq H] in
/-- A process that starts comes back with what its store holds. -/
theorem open_trusts {cfg : NodeConfig} {store : Store B B} {hard : Hard} {n : Node A B H}
    (read : Process.storedHard readHard store = some hard)
    (opened : Node.open_ env store (if cfg.learner then
      (Mesh.new cfg.name cfg.peers cfg.timing hard 0 (Process.seed cfg.name)).asLearner
      else Mesh.new cfg.name cfg.peers cfg.timing hard 0 (Process.seed cfg.name)) = some n) :
    n.Trusts readHard hard := by
  have started := Node.replay_refolded opened
  have honest : ∀ m : Mesh, m.Sound (fun _ _ => True) (fun _ _ => True) → m.role = .follower →
      Node.Honest m.asLearner := fun m sound follows =>
    ⟨sound.leader, sound.leads, sound.silent, sound.campaign, sound.votesSelf, sound.votes,
      fun _ => follows⟩
  rw [started]
  refine ⟨read, ?_, ?_⟩
  · simp only [Node.started]
    split <;> exact .refl hard
  · simp only [Node.started]
    split
    · exact honest _ (Mesh.new_sound _ _ _ _ _ _) rfl
    · exact Mesh.new_sound _ _ _ _ _ _

/-- One event: the store moves on, and a vote that leaves was on its way or is in the store. -/
theorem step_moves (reads : ∀ h, readHard (env.encodeHard h) = some h) {p p' : Process A B H}
    {e : ProcessEvent B H} {d : Hard} (trusts : p.node.Trusts readHard d) (kept : Kept readHard p e)
    (stepped : p.step env readHard e = some p') :
    ∃ d', d.Advances d' ∧ p'.node.Trusts readHard d' ∧
      (∀ b ∈ ballots p e, b ∈ awaited p ∨ d'.Carries b) ∧
      ∀ b ∈ awaited p', b ∈ awaited p ∨ d'.Carries b := by
  cases Process.step_steps stepped with
  | idle idles =>
    refine quiet_moves (.refl d) trusts ?_ rfl
    cases e with
    | round polled now later commits => exact if_pos (by rw [show p.idle = false from idles]; rfl)
    | collected => simp only [ballots, awaited, show p.campaign = none from idles]; rfl
    | voteRequest => exact idles.elim
    | _ => rfl
  | @round polled now later commits n idle followed =>
    obtain ⟨d', on, trusts'⟩ := (Process.step_tends rfl rfl stepped).trusts reads trusts
    -- What a tick asks for is a pre-vote.
    obtain ⟨kept', _⟩ := Process.polled_moves trusts.honest polled now
    obtain ⟨_, _, pre⟩ := Process.tick_moves kept' now p.node.store.head
    refine ⟨d', on, trusts', fun b member => ?_, fun b member => ?_⟩
    · simp only [ballots, idle, Bool.not_true, Bool.false_eq_true, if_false, List.mem_flatMap,
        Option.mem_toList] at member
      obtain ⟨req, asks, voted⟩ := member
      simp [VoteRequest.ballots, pre req asks] at voted
    · simp only [awaited] at member
      generalize (Mesh.tick _ now p.node.store.head).1 = out at member
      cases out <;> simp at member
  | @voteRequest req now later commits n followed =>
    obtain ⟨honest, moves, _⟩ :=
      Mesh.onVoteRequest_spec trusts.honest req now p.node.store.head
    refine ⟨_, advances_written trusts moves commits,
      Node.followMesh_trusts reads trusts honest moves followed, fun b member => .inr ?_,
      fun b member => .inl member⟩
    simp only [ballots] at member
    split at member
    next granted =>
      obtain ⟨real, rfl⟩ := VoteRequest.mem_ballots member
      exact granted_carries trusts rfl kept granted real
    · simp at member
  | @voteReply route reply now later commits req next n under followed =>
    obtain ⟨honest, moves, _, asks⟩ := Mesh.onVoteReply_spec trusts.honest route req reply now
      p.node.store.head (fun _ _ => trivial) fun _ _ _ _ => trivial
    refine ⟨_, advances_written trusts moves commits,
      Node.followMesh_trusts reads trusts honest moves followed, by simp [ballots],
      fun b member => ?_⟩
    simp only [awaited, Option.bind_some] at member
    cases out : (p.node.mesh.onVoteReply route req reply now p.node.store.head).1 with
    | none =>
      rw [out, Option.none_or] at member
      exact .inl (by simpa [awaited, under] using member)
    | some real =>
      -- The candidacy is in the hard state, and the write of it was taken.
      obtain ⟨_, candidate, _, term, vote⟩ := asks real out
      have taken : commits = true := kept req (by simp [under]) (by rw [out]; rfl)
      rw [out, Option.some_or] at member
      obtain ⟨_, rfl⟩ := VoteRequest.mem_ballots (by simpa using member)
      refine .inr ?_
      rw [Mesh.onVoteReply_dirty out, taken]
      exact ⟨term, vote.trans (by rw [candidate])⟩
  | @collected req next under =>
    refine ⟨d, .refl d, trusts, fun b member => .inl member, fun b member => ?_⟩
    simp only [awaited] at member
    cases next <;> simp at member
  | @restart cfg p' opened =>
    simp only [Process.open_, Option.bind_eq_bind, Option.bind_eq_some_iff, Option.pure_def,
      Option.some.injEq] at opened
    obtain ⟨hard, read, n, opened, rfl⟩ := opened
    refine ⟨d, .refl d, ?_, by simp [ballots], by simp [awaited]⟩
    obtain rfl : d = hard := Option.some.inj (trusts.stored.symm.trans read)
    exact open_trusts read opened
  | accept | queue | mempoolRound | turn | answered | turned =>
    exact quiet_moves (.refl d) ((Process.step_elsewhere rfl stepped).trusts trusts) rfl
      (Process.step_campaign rfl rfl stepped)
  | _ =>
    obtain ⟨d', on, trusts'⟩ := (Process.step_tends rfl rfl stepped).trusts reads trusts
    exact quiet_moves on trusts' rfl (Process.step_campaign rfl rfl stepped)

theorem step_inv (reads : ∀ h, readHard (env.encodeHard h) = some h) {w w' : Sworn A B H}
    {e : ProcessEvent B H} {d : Hard} (inv : Inv readHard w d)
    (kept : Kept readHard w.process e) (stepped : w.step env readHard e = some w') :
    ∃ d', Inv readHard w' d' := by
  obtain ⟨p, moved, rfl⟩ := Option.map_eq_some_iff.mp stepped
  obtain ⟨d', on, trusts, tells, awaits⟩ := step_moves reads inv.trusts kept moved
  refine ⟨d', inv.later on trusts (by rw [trusts.stored]; rfl) fun b member => ?_⟩
  rcases List.mem_append.mp member with told | waits
  · rcases List.mem_append.mp told with new | old
    · exact (tells b new).imp_left fun member => List.mem_append_right _ member
    · exact .inl (List.mem_append_left _ old)
  · exact (awaits b waits).imp_left fun member => List.mem_append_right _ member

/-- Kept, unless the process has ended. -/
def KeptNext (readHard : List UInt8 → Option Hard) (w : Option (Sworn A B H))
    (e : ProcessEvent B H) : Prop := ∀ v ∈ w, Kept readHard v.process e

instance (readHard : List UInt8 → Option Hard) (p : Process A B H) (e : ProcessEvent B H) :
    Decidable (Kept readHard p e) :=
  match e with
  | .voteRequest _ _ _ _ => inferInstanceAs (Decidable (_ = true → _ = false → ite _ _ _))
  | .voteReply _ _ _ _ _ => inferInstanceAs (Decidable (∀ req ∈ _, _ → _))
  | .round _ _ _ _ | .collected | .inbound _ _ _ _ | .push _ _ _ _ | .close _ _ | .page _ _ _
  | .checkpoint _ _ _ | .rewind _ _ _ | .reconciled _ | .pushReconciled _ | .accept _
  | .queue _ _ | .mempoolRound _ | .turn _ | .answered _ | .turned _ | .restart _ =>
    inferInstanceAs (Decidable True)

instance (readHard : List UInt8 → Option Hard) (w : Option (Sworn A B H))
    (e : ProcessEvent B H) : Decidable (KeptNext readHard w e) :=
  inferInstanceAs (Decidable (∀ v ∈ w, Kept readHard v.process e))

/-- In every run whose votes are taken by the database when they are cast, no vote leaves that
was not written, the store stands by all of them, and there is one candidate in a term. -/
theorem durable_run (env : Env A B H) (readHard : List UInt8 → Option Hard)
    (reads : ∀ h, readHard (env.encodeHard h) = some h) (cfg : NodeConfig) (store : Store B B)
    (p : Process A B H) (opened : Process.open_ env readHard cfg store = some p)
    (events : List (ProcessEvent B H))
    (kept : Machine.Meets (next env readHard) (KeptNext readHard) (some (fresh readHard p)) events)
    {w : Sworn A B H}
    (reached : Machine.run (next env readHard) (some (fresh readHard p)) events = some w) :
    Durable readHard w := by
  have inv : ∀ w, Machine.run (next env readHard) (some (fresh readHard p)) events = some w →
      ∃ d, Inv readHard w d := by
    -- The invariant holds of the process just opened, and every step of the run keeps it.
    refine Machine.run_invariant (fun s => ∀ w, s = some w → ∃ d, Inv readHard w d) ?_ ?_ kept
    · intro s e inv kept w stepped
      obtain ⟨v, rfl, stepped⟩ := Option.bind_eq_some_iff.mp stepped
      obtain ⟨d, inv⟩ := inv v rfl
      exact step_inv reads inv (kept v rfl) stepped
    · rintro w ⟨⟩
      simp only [Process.open_, Option.bind_eq_bind, Option.bind_eq_some_iff, Option.pure_def,
        Option.some.injEq] at opened
      obtain ⟨hard, read, n, opened, rfl⟩ := opened
      have trusts := open_trusts read opened
      refine ⟨hard, trusts, ?_, by simp [pledged, fresh, awaited], by simp [pledged, fresh, awaited]⟩
      intro h held
      obtain rfl : h = hard := by simpa [fresh, trusts.stored] using held
      exact .refl h
  exact (inv w reached).elim fun _ inv => inv.durable

end Running

/-! ## A voter -/

/-- The hard state as it is really written. -/
def voterEnv : Env Nat (Plain Nat) (Plain Nat) := { soloEnv with encodeHard := Hard.toVec }

def voterConfig : NodeConfig := ⟨"nami", ["http://zoro", "http://robin"], {}, false⟩

def voter : Process Nat (Plain Nat) (Plain Nat) :=
  ⟨.started voterEnv (.openDb Store.emptyDb)
    (.new "nami" ["http://zoro", "http://robin"] {} {} 0 (Process.seed "nami")), none, [], none⟩

/-- Asks for a vote in term 1. -/
def asks (candidate : Name) : VoteRequest := ⟨1, candidate, 0, 0, false⟩

/-- The first candidate has the vote. After a restart the second one does not get it. -/
theorem durable_run_refused :
    ∃ w, Machine.run (next voterEnv Hard.fromSlice) (some (fresh Hard.fromSlice voter))
        [.voteRequest (asks "zoro") 10 10 true, .restart voterConfig,
          .voteRequest (asks "robin") 10 10 true] = some w ∧
      Durable Hard.fromSlice w ∧ w.told = [⟨"zoro", 1⟩] := by
  let events : List (ProcessEvent (Plain Nat) (Plain Nat)) := [
    .voteRequest (asks "zoro") 10 10 true, .restart voterConfig,
    .voteRequest (asks "robin") 10 10 true]
  have told : (Machine.run (next voterEnv Hard.fromSlice) (some (fresh Hard.fromSlice voter))
      events).map Sworn.told = some [⟨"zoro", 1⟩] := by
    decide +kernel
  obtain ⟨w, reached, told⟩ := Option.map_eq_some_iff.mp told
  have opened : Process.open_ voterEnv Hard.fromSlice voterConfig (.openDb Store.emptyDb) =
    some voter := rfl
  exact ⟨w, reached, durable_run voterEnv Hard.fromSlice Hard.fromSlice_toVec voterConfig _ voter
    opened events (by decide +kernel) reached, told⟩

/-- The first write fails, and the vote is told all the same. After a restart the second
candidate has the vote of the same term. -/
theorem durable_run_twice :
    Process.open_ voterEnv Hard.fromSlice voterConfig (.openDb Store.emptyDb) = some voter ∧
    ∃ w, Machine.run (next voterEnv Hard.fromSlice) (some (fresh Hard.fromSlice voter))
        [.voteRequest (asks "zoro") 10 10 false, .restart voterConfig,
          .voteRequest (asks "robin") 10 10 true] = some w ∧ ¬ Durable Hard.fromSlice w := by
  have told : (Machine.run (next voterEnv Hard.fromSlice) (some (fresh Hard.fromSlice voter)) [
      .voteRequest (asks "zoro") 10 10 false, .restart voterConfig,
      .voteRequest (asks "robin") 10 10 true]).map Sworn.told =
        some [⟨"robin", 1⟩, ⟨"zoro", 1⟩] := by
    decide +kernel
  obtain ⟨w, reached, told⟩ := Option.map_eq_some_iff.mp told
  refine ⟨rfl, w, reached, fun durable => ?_⟩
  have same := durable.once ⟨"robin", 1⟩ (by simp [told]) ⟨"zoro", 1⟩ (by simp [told]) rfl
  simp at same

end Sworn

end AkumaMiot

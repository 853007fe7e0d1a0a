import AkumaMiot.Lib.Machine
import AkumaMiot.Mesh.Mesh

/-!
# Who is pushed to

A leader pushes to a peer that does not pull. What it compares at each call is the head of the
peer's last status with its own, and a lag clock runs as long as the calls see the same head. The
clock of a route is a record of the run: it dates from a call, and every call since then saw the
head that it holds.
-/
namespace AkumaMiot

namespace Mesh

/-! ## What a node's mesh is told and asked -/

inductive Input
  | status (route : Route) (st : Status) (now : Nat)
  | inbound (st : Status) (now : Nat)
  | pushTargets (now head : Nat)
  | tick (now head : Nat)
  | voteRequest (req : VoteRequest) (now head : Nat)
  | voteReply (route : Route) (req : VoteRequest) (reply : VoteReply) (now head : Nat)
  | appended
  | takeDirty

def handle (m : Mesh) : Input → Mesh
  | .status route st now => m.onStatus route st now
  | .inbound st now => m.onInbound st now
  | .pushTargets now head => (m.pushTargets now head).2
  | .tick now head => (m.tick now head).2
  | .voteRequest req now head => (m.onVoteRequest req now head).2
  | .voteReply route req reply now head => (m.onVoteReply route req reply now head).2
  | .appended => m.appended
  | .takeDirty => m.takeDirty.2

/-! ## What is remembered -/

/-- Between two calls a node keeps what the calls recorded, or forgets all of it, and a peer that
answered once has a last status. -/
structure Remembers (m n : Mesh) : Prop where
  timing : n.timing = m.timing
  record : n.lagging = m.lagging ∧ n.pushed = m.pushed ∨ n.lagging = ∅ ∧ n.pushed = ∅
  seen : ∀ route : Route, m.seen[route]?.isSome → n.seen[route]?.isSome

namespace Remembers

theorem of_same {m n : Mesh} (timing : n.timing = m.timing) (lagging : n.lagging = m.lagging)
    (pushed : n.pushed = m.pushed) (seen : n.seen = m.seen) : m.Remembers n :=
  ⟨timing, .inl ⟨lagging, pushed⟩, fun route => by rw [seen]; exact id⟩

theorem refl (m : Mesh) : m.Remembers m := .of_same rfl rfl rfl rfl

theorem trans {a b c : Mesh} (first : a.Remembers b) (second : b.Remembers c) :
    a.Remembers c where
  timing := second.timing.trans first.timing
  record := by
    rcases second.record with ⟨lagging, pushed⟩ | forgot
    · rw [lagging, pushed]
      exact first.record
    · exact .inr forgot
  seen route known := second.seen route (first.seen route known)

end Remembers

theorem resetDeadline_remembers (m : Mesh) (now : Nat) : m.Remembers (m.resetDeadline now) :=
  .of_same rfl rfl rfl rfl

theorem stepDown_remembers (m : Mesh) (now : Nat) : m.Remembers (m.stepDown now) :=
  .of_same rfl rfl rfl rfl

theorem adoptTerm_remembers (m : Mesh) (term now : Nat) : m.Remembers (m.adoptTerm term now) := by
  unfold adoptTerm
  split
  · exact .of_same rfl rfl rfl rfl
  · exact stepDown_remembers m now

theorem campaign_remembers (m : Mesh) (now head : Nat) : m.Remembers (m.campaign now head).2 := by
  unfold campaign
  dsimp only
  split
  · exact ⟨rfl, .inr ⟨rfl, rfl⟩, fun _ => id⟩
  · exact .of_same rfl rfl rfl rfl

theorem tick_remembers (m : Mesh) (now head : Nat) : m.Remembers (m.tick now head).2 := by
  unfold tick
  split
  · split
    · exact stepDown_remembers m now
    · exact .refl m
  · split
    · exact .refl m
    · exact campaign_remembers m now head

theorem observe_remembers (m : Mesh) (route : Option Route) (st : Status) (now : Nat) :
    m.Remembers (m.observe route st now) := by
  unfold observe
  dsimp only
  have adopted : m.Remembers (if st.term > m.hard.term then m.adoptTerm st.term now else m) := by
    split
    · exact adoptTerm_remembers m st.term now
    · exact .refl m
  refine adopted.trans ?_
  generalize (if st.term > m.hard.term then m.adoptTerm st.term now else m) = n
  split
  · exact .of_same rfl rfl rfl rfl
  · split
    · exact .of_same rfl rfl rfl rfl
    · split
      · exact .of_same rfl rfl rfl rfl
      · exact .refl n

theorem insert_remembers (m : Mesh) (route : Route) (now : Nat) (st : Status) :
    m.Remembers { m with seen := m.seen.insert route (now, st) } := by
  refine ⟨rfl, .inl ⟨rfl, rfl⟩, fun r known => ?_⟩
  rw [Std.TreeMap.getElem?_insert]
  split
  · rfl
  · exact known

theorem onStatus_remembers (m : Mesh) (route : Route) (st : Status) (now : Nat) :
    m.Remembers (m.onStatus route st now) := by
  unfold onStatus
  split
  · exact .of_same rfl rfl rfl rfl
  · exact (insert_remembers m route now st).trans (observe_remembers ..)

theorem onInbound_remembers (m : Mesh) (st : Status) (now : Nat) :
    m.Remembers (m.onInbound st now) := by
  unfold onInbound
  split
  · exact .refl m
  · have noted : m.Remembers { m with heard := m.heard.insert st.name (now, st) } :=
      .of_same rfl rfl rfl rfl
    dsimp only
    split
    next r _ =>
      exact noted.trans ((insert_remembers _ r now st).trans (observe_remembers _ (some r) st now))
    · exact noted.trans (observe_remembers _ none st now)

theorem castVote_remembers (m : Mesh) (candidate : Name) (now : Nat) :
    m.Remembers (m.castVote candidate now) := by
  unfold castVote
  split
  · exact .of_same rfl rfl rfl rfl
  · exact resetDeadline_remembers m now

theorem onVoteRequest_remembers (m : Mesh) (req : VoteRequest) (now head : Nat) :
    m.Remembers (m.onVoteRequest req now head).2 := by
  unfold onVoteRequest
  dsimp only
  split
  · exact .refl m
  split
  · exact .refl m
  split
  · exact .refl m
  split
  · exact .refl m
  have adopted : m.Remembers (if req.term > m.hard.term then m.adoptTerm req.term now else m) := by
    split
    · exact adoptTerm_remembers m req.term now
    · exact .refl m
  refine adopted.trans ?_
  generalize (if req.term > m.hard.term then m.adoptTerm req.term now else m) = n
  split
  · exact castVote_remembers n req.candidate now
  · exact .refl n

theorem onVoteReply_remembers (m : Mesh) (route : Route) (req : VoteRequest) (reply : VoteReply)
    (now head : Nat) : m.Remembers (m.onVoteReply route req reply now head).2 := by
  unfold onVoteReply
  dsimp only
  split
  · exact adoptTerm_remembers m reply.term now
  split
  · exact .refl m
  split
  · split
    · exact .refl m
    · split
      · exact .of_same rfl rfl rfl rfl
      · exact .of_same rfl rfl rfl rfl
  split
  · split
    · exact ⟨rfl, .inr ⟨rfl, rfl⟩, fun _ => id⟩
    · exact .of_same rfl rfl rfl rfl
  · exact .refl m

theorem appended_remembers (m : Mesh) : m.Remembers m.appended := by
  unfold appended
  split
  · exact .of_same rfl rfl rfl rfl
  · exact .refl m

/-- Whatever is not a call leaves the record of the calls as it is, or clears it. -/
theorem handle_remembers (m : Mesh) (i : Input) (quiet : ∀ now head, i ≠ .pushTargets now head) :
    m.Remembers (m.handle i) := by
  cases i with
  | status route st now => exact onStatus_remembers m route st now
  | inbound st now => exact onInbound_remembers m st now
  | pushTargets now head => exact absurd rfl (quiet now head)
  | tick now head => exact tick_remembers m now head
  | voteRequest req now head => exact onVoteRequest_remembers m req now head
  | voteReply route req reply now head => exact onVoteReply_remembers m route req reply now head
  | appended => exact appended_remembers m
  | takeDirty => exact .of_same rfl rfl rfl rfl

/-! ## One call -/

/-- The lag clock of a route after a call: its head and since when. -/
def lag (window now head : Nat) (clock : Option (Nat × Nat)) (at_ : Nat) (st : Status) :
    Option (Nat × Nat) :=
  if now - at_ > window ∨ st.head = head then none
  else
    let e := clock.getD (st.head, now)
    some (if e.1 ≠ st.head then (st.head, now) else e)

/-- A clock that runs after a call either started at it or ran before, for the same head. -/
theorem lag_some {window now head at_ : Nat} {clock : Option (Nat × Nat)} {st : Status}
    {e : Nat × Nat} (runs : lag window now head clock at_ st = some e) :
    now - at_ ≤ window ∧ st.head ≠ head ∧ e.1 = st.head ∧ (e.2 = now ∨ clock = some e) := by
  unfold lag at runs
  split at runs
  · cases runs
  next behind =>
    rw [not_or, not_lt] at behind
    refine ⟨behind.1, behind.2, ?_⟩
    cases clock with
    | none =>
      obtain rfl : (st.head, now) = e := by simpa using runs
      exact ⟨rfl, .inl rfl⟩
    | some c =>
      simp only [Option.getD_some, Option.some.injEq] at runs
      split at runs
      · subst runs
        exact ⟨rfl, .inl rfl⟩
      next same =>
        subst runs
        exact ⟨not_not.mp same, .inr rfl⟩

theorem pushTarget_eq (m : Mesh) (now head : Nat) (lagging : Std.TreeMap Route (Nat × Nat))
    (out : List Route) (route : Route) (at_ : Nat) (st : Status) :
    m.pushTarget now head (lagging, out) (route, at_, st) =
      match lag m.timing.electionMinMs now head lagging[route]? at_ st with
      | none => (lagging.erase route, out)
      | some e => (lagging.insert route e,
          if route ∈ m.pushed ∨ m.timing.electionMinMs ≤ now - e.2 then out ++ [route]
          else out) := by
  unfold pushTarget lag
  dsimp only
  split
  · rfl
  · dsimp only
    generalize (if ((lagging[route]?).getD (st.head, now)).1 ≠ st.head then (st.head, now)
      else (lagging[route]?).getD (st.head, now)) = e
    split <;> rfl

/-- The turn of another peer is nothing to a route. -/
theorem pushTarget_other (m : Mesh) (now head : Nat)
    (acc : Std.TreeMap Route (Nat × Nat) × List Route) {peer : Route × Nat × Status}
    {route : Route} (other : peer.1 ≠ route) :
    (m.pushTarget now head acc peer).1[route]? = acc.1[route]? ∧
      (route ∈ (m.pushTarget now head acc peer).2 ↔ route ∈ acc.2) := by
  obtain ⟨lagging, out⟩ := acc
  obtain ⟨r, at_, st⟩ := peer
  have apart : compare r route ≠ .eq := fun same => other (Std.LawfulEqCmp.eq_of_compare same)
  rw [pushTarget_eq]
  split
  · exact ⟨by simp [Std.TreeMap.getElem?_erase, apart], .rfl⟩
  · refine ⟨by simp [Std.TreeMap.getElem?_insert, apart], ?_⟩
    split
    · simp [Ne.symm other]
    · exact .rfl

theorem pushTarget_own (m : Mesh) (now head : Nat)
    (acc : Std.TreeMap Route (Nat × Nat) × List Route) (route : Route) (at_ : Nat) (st : Status) :
    let clock := lag m.timing.electionMinMs now head acc.1[route]? at_ st
    (m.pushTarget now head acc (route, at_, st)).1[route]? = clock ∧
      (route ∈ (m.pushTarget now head acc (route, at_, st)).2 ↔ route ∈ acc.2 ∨
        ∃ e, clock = some e ∧ (route ∈ m.pushed ∨ m.timing.electionMinMs ≤ now - e.2)) := by
  intro clock
  obtain ⟨lagging, out⟩ := acc
  rw [pushTarget_eq]
  split
  next stopped =>
    rw [show clock = none from stopped]
    exact ⟨Std.TreeMap.getElem?_erase_self, by simp⟩
  next e runs =>
    rw [show clock = some e from runs]
    refine ⟨Std.TreeMap.getElem?_insert_self, ?_⟩
    split
    next due => simp [due]
    next early => simp [early]

/-- Over all peers, a route is decided by its own turn. -/
theorem pushTarget_fold (m : Mesh) (now head : Nat) {peers : List (Route × Nat × Status)}
    (distinct : peers.Pairwise fun a b => a.1 ≠ b.1)
    (acc : Std.TreeMap Route (Nat × Nat) × List Route) (route : Route) :
    ((∀ peer ∈ peers, peer.1 ≠ route) →
      (peers.foldl (m.pushTarget now head) acc).1[route]? = acc.1[route]? ∧
      (route ∈ (peers.foldl (m.pushTarget now head) acc).2 ↔ route ∈ acc.2)) ∧
    ∀ at_ st, (route, at_, st) ∈ peers →
      let clock := lag m.timing.electionMinMs now head acc.1[route]? at_ st
      (peers.foldl (m.pushTarget now head) acc).1[route]? = clock ∧
      (route ∈ (peers.foldl (m.pushTarget now head) acc).2 ↔ route ∈ acc.2 ∨
        ∃ e, clock = some e ∧ (route ∈ m.pushed ∨ m.timing.electionMinMs ≤ now - e.2)) := by
  induction peers generalizing acc with
  | nil => simp
  | cons peer peers ih =>
    obtain ⟨first, rest⟩ := List.pairwise_cons.mp distinct
    obtain ⟨others, own⟩ := ih rest (m.pushTarget now head acc peer)
    rw [List.foldl_cons]
    -- Each route has one turn among the peers, and the turns of the others leave it alone.
    constructor
    · intro absent
      obtain ⟨clock, out⟩ := pushTarget_other m now head acc (absent peer (by simp))
      obtain ⟨clock', out'⟩ := others fun p member => absent p (List.mem_cons_of_mem _ member)
      exact ⟨clock'.trans clock, out'.trans out⟩
    · intro at_ st member
      rcases List.mem_cons.mp member with here | later
      · subst here
        obtain ⟨clock, out⟩ := pushTarget_own m now head acc route at_ st
        obtain ⟨clock', out'⟩ := others fun p there => (first p there).symm
        exact ⟨clock'.trans clock, out'.trans out⟩
      · obtain ⟨clock, out⟩ := pushTarget_other m now head acc (first _ later)
        have turn := own at_ st later
        rw [clock, out] at turn
        exact turn

theorem seen_distinct (m : Mesh) : m.seen.toList.Pairwise fun a b => a.1 ≠ b.1 :=
  Std.TreeMap.distinct_keys_toList.imp fun apart same => apart (by
    rw [same]
    exact Std.ReflCmp.compare_self)

/-- A leader's call on a peer that answered once. -/
theorem pushTargets_own {m : Mesh} (leads : m.role = .leader) (now head : Nat) {route : Route}
    {at_ : Nat} {st : Status} (last : m.seen[route]? = some (at_, st)) :
    let clock := lag m.timing.electionMinMs now head m.lagging[route]? at_ st
    (m.pushTargets now head).2.lagging[route]? = clock ∧
      (route ∈ (m.pushTargets now head).1 ↔
        ∃ e, clock = some e ∧ (route ∈ m.pushed ∨ m.timing.electionMinMs ≤ now - e.2)) := by
  have turn := (pushTarget_fold m now head m.seen_distinct (m.lagging, []) route).2 at_ st
    (Std.TreeMap.mem_toList_iff_getElem?_eq_some.mpr last)
  simpa [pushTargets, leads] using turn

/-- A peer that never answered is no target. -/
theorem pushTargets_unseen {m : Mesh} (leads : m.role = .leader) (now head : Nat) {route : Route}
    (never : m.seen[route]? = none) :
    (m.pushTargets now head).2.lagging[route]? = m.lagging[route]? ∧
      route ∉ (m.pushTargets now head).1 := by
  have absent : ∀ peer ∈ m.seen.toList, peer.1 ≠ route := by
    rintro ⟨r, last⟩ member rfl
    rw [Std.TreeMap.mem_toList_iff_getElem?_eq_some, never] at member
    cases member
  have turn := (pushTarget_fold m now head m.seen_distinct (m.lagging, []) route).1 absent
  simpa [pushTargets, leads] using turn

/-- A call hears nothing. -/
@[simp] theorem pushTargets_seen (m : Mesh) (now head : Nat) :
    (m.pushTargets now head).2.seen = m.seen := by
  unfold pushTargets
  split <;> rfl

theorem leads_of_target {m : Mesh} {now head : Nat} {route : Route}
    (target : route ∈ (m.pushTargets now head).1) : m.role = .leader := by
  unfold pushTargets at target
  split at target
  · cases target
  next leads => exact not_not.mp leads

/-! ## Whole runs -/

/-- If the input is a call, it sees the peer fresh, at head `h`, and away from the leader's. -/
def SeesBehind (route : Route) (h : Nat) (m : Mesh) : Input → Prop
  | .pushTargets now head => ∃ at_ st, m.seen[route]? = some (at_, st) ∧
      now - at_ ≤ m.timing.electionMinMs ∧ st.head = h ∧ h ≠ head
  | _ => True

/-- From a call at `since` on, every call saw the peer at head `h`, away from the leader's. -/
def Lagged (s : Mesh) (inputs : List Input) (route : Route) (h since : Nat) : Prop :=
  ∃ before head after, inputs = before ++ .pushTargets since head :: after ∧
    Machine.Meets handle (SeesBehind route h) (Machine.run handle s before)
      (.pushTargets since head :: after)

/-- Some call returned the route. -/
def Returned (s : Mesh) (inputs : List Input) (route : Route) : Prop :=
  ∃ before now head, before ++ [.pushTargets now head] <+: inputs ∧
    route ∈ ((Machine.run handle s before).pushTargets now head).1

/-- What the calls recorded is what happened. -/
structure Recorded (s : Mesh) (inputs : List Input) : Prop where
  pushed : ∀ route ∈ (Machine.run handle s inputs).pushed, Returned s inputs route
  lagging : ∀ (route : Route) (h since : Nat),
    (Machine.run handle s inputs).lagging[route]? = some (h, since) →
      (Machine.run handle s inputs).seen[route]?.isSome ∧ Lagged s inputs route h since

section

variable {s : Mesh} {inputs : List Input} {route : Route} {h since : Nat}

theorem Returned.snoc (before : Returned s inputs route) (i : Input) :
    Returned s (inputs ++ [i]) route := by
  obtain ⟨first, now, head, ahead, returned⟩ := before
  exact ⟨first, now, head, ahead.trans (List.prefix_append ..), returned⟩

theorem Lagged.snoc (lagged : Lagged s inputs route h since) {i : Input}
    (behind : SeesBehind route h (Machine.run handle s inputs) i) :
    Lagged s (inputs ++ [i]) route h since := by
  obtain ⟨before, head, after, rfl, meets⟩ := lagged
  refine ⟨before, head, after ++ [i], by simp, ?_⟩
  rw [← List.cons_append, Machine.meets_append]
  refine ⟨meets, ?_, trivial⟩
  rwa [← Machine.run_append]

theorem SeesBehind.of_quiet {m : Mesh} {i : Input} (quiet : ∀ now head, i ≠ .pushTargets now head) :
    SeesBehind route h m i := by
  cases i with
  | pushTargets now head => exact absurd rfl (quiet now head)
  | _ => trivial

/-- Between calls nothing is recorded. -/
theorem Recorded.quiet (recorded : Recorded s inputs) {i : Input}
    (quiet : ∀ now head, i ≠ .pushTargets now head) : Recorded s (inputs ++ [i]) := by
  have kept := handle_remembers (Machine.run handle s inputs) i quiet
  constructor
  · intro route member
    rw [Machine.run_concat] at member
    -- Kept, or forgotten with a leadership that ended or began.
    rcases kept.record with ⟨_, pushed⟩ | ⟨_, forgot⟩
    · rw [pushed] at member
      exact (recorded.pushed route member).snoc i
    · rw [forgot] at member
      simp at member
  · intro route h since runs
    rw [Machine.run_concat] at runs ⊢
    rcases kept.record with ⟨lagging, _⟩ | ⟨forgot, _⟩
    · rw [lagging] at runs
      obtain ⟨known, lagged⟩ := recorded.lagging route h since runs
      exact ⟨kept.seen route known, lagged.snoc (.of_quiet quiet)⟩
    · rw [forgot] at runs
      simp at runs

/-- A clock that runs after a call dates from a call since which every call saw the same head. -/
theorem Recorded.clock (recorded : Recorded s inputs) {now head at_ : Nat} {st : Status}
    {e : Nat × Nat} (last : (Machine.run handle s inputs).seen[route]? = some (at_, st))
    (runs : lag (Machine.run handle s inputs).timing.electionMinMs now head
      (Machine.run handle s inputs).lagging[route]? at_ st = some e) :
    e.1 = st.head ∧ Lagged s (inputs ++ [.pushTargets now head]) route e.1 e.2 := by
  obtain ⟨fresh, differs, same, start⟩ := lag_some runs
  have behind : SeesBehind route e.1 (Machine.run handle s inputs) (.pushTargets now head) :=
    ⟨at_, st, last, fresh, same.symm, same ▸ differs⟩
  refine ⟨same, ?_⟩
  rcases start with began | before
  · exact ⟨inputs, head, [], by rw [began], by rw [began]; exact ⟨behind, trivial⟩⟩
  · exact (recorded.lagging route e.1 e.2 before).2.snoc behind

theorem Recorded.call (recorded : Recorded s inputs) (now head : Nat) :
    Recorded s (inputs ++ [.pushTargets now head]) := by
  have returned : ∀ route ∈ ((Machine.run handle s inputs).pushTargets now head).1,
      Returned s (inputs ++ [.pushTargets now head]) route :=
    fun route member => ⟨inputs, now, head, List.prefix_rfl, member⟩
  by_cases leads : (Machine.run handle s inputs).role = .leader
  · constructor
    · intro route member
      rw [Machine.run_concat] at member
      simp only [handle, pushTargets, leads] at member returned
      rcases Finset.mem_union.mp member with old | new
      · exact (recorded.pushed route old).snoc _
      · exact returned route (List.mem_toFinset.mp new)
    · intro route h since runs
      rw [Machine.run_concat] at runs ⊢
      rw [show ((Machine.run handle s inputs).handle (.pushTargets now head)).seen =
        (Machine.run handle s inputs).seen from pushTargets_seen ..]
      cases last : (Machine.run handle s inputs).seen[route]? with
      -- A clock for a peer that never answered would be one from before, which did answer.
      | none =>
        have clock := (pushTargets_unseen leads now head last).1
        have known := (recorded.lagging route h since (clock.symm.trans runs)).1
        rw [last] at known
        cases known
      | some answer =>
        obtain ⟨at_, st⟩ := answer
        have clock := (pushTargets_own leads now head last).1
        exact ⟨rfl, (recorded.clock last (clock.symm.trans runs)).2⟩
  · have cleared : (Machine.run handle s inputs).handle (.pushTargets now head) =
        { Machine.run handle s inputs with lagging := ∅, pushed := ∅ } := by
      simp [handle, pushTargets, leads]
    constructor
    · intro route member
      rw [Machine.run_concat, cleared] at member
      simp at member
    · intro route h since runs
      rw [Machine.run_concat, cleared] at runs
      simp at runs

/-- From the moment a node leads, its record is what happened. -/
theorem run_recorded (m : Mesh) (elected : Nat) (inputs : List Input) :
    Recorded (m.becomeLeader elected) inputs := by
  -- On the last input: only a call records anything.
  induction inputs using List.reverseRecOn with
  | nil => exact ⟨by simp [becomeLeader], by simp [becomeLeader]⟩
  | append_singleton inputs i recorded =>
    by_cases call : ∃ now head, i = .pushTargets now head
    · obtain ⟨now, head, rfl⟩ := call
      exact recorded.call now head
    · exact recorded.quiet fun now head same => call ⟨now, head, same⟩

theorem run_timing (s : Mesh) (inputs : List Input) :
    (Machine.run handle s inputs).timing = s.timing := by
  refine Machine.run_keeps (fun m : Mesh => m.timing = s.timing) (fun m i same => ?_) rfl
  refine Eq.trans ?_ same
  cases i with
  | pushTargets now head =>
    simp only [handle, pushTargets]
    split <;> rfl
  | _ => exact (handle_remembers _ _ (by simp)).timing

end

/-! ## Who pulls is spared -/

/-- The head in the last status of a peer. -/
def shown (m : Mesh) (route : Route) : Option Nat := m.seen[route]?.map fun last => last.2.head

/-- A span from one call to another, or the same, at least a window later. -/
def Lasts (window : Nat) (span : List Input) : Prop :=
  ∃ t head t' head', span.head? = some (.pushTargets t head) ∧
    span.getLast? = some (.pushTargets t' head') ∧ window ≤ t' - t

/-- Over a span that starts in `m`, a peer's head matches the leader's at a call, or changes. -/
inductive Stirs (m : Mesh) (route : Route) (span : List Input) : Prop
  | reached (before : List Input) (now head : Nat)
      (call : before ++ [.pushTargets now head] <+: span)
      (same : (Machine.run handle m before).shown route = some head)
  | changed (p q : List Input) (within : p <+: span) (within' : q <+: span)
      (other : (Machine.run handle m p).shown route ≠ (Machine.run handle m q).shown route)

/-- Over a span that starts in `m`, the calls notice that a peer's head matches or changes, or that
there is no telling. -/
inductive Noticed (m : Mesh) (route : Route) (span : List Input) : Prop
  /-- A call sees it at the leader's head. -/
  | reached (before : List Input) (now head : Nat)
      (call : before ++ [.pushTargets now head] <+: span)
      (same : (Machine.run handle m before).shown route = some head)
  /-- Two calls see it at different heads. -/
  | moved (before before' : List Input) (now head now' head' : Nat)
      (call : before ++ [.pushTargets now head] <+: span)
      (call' : before' ++ [.pushTargets now' head'] <+: span)
      (other : (Machine.run handle m before).shown route ≠
        (Machine.run handle m before').shown route)
  /-- A call finds no status of it within the window. -/
  | silent (before : List Input) (now head : Nat)
      (call : before ++ [.pushTargets now head] <+: span)
      (stale : ∀ at_ st, (Machine.run handle m before).seen[route]? = some (at_, st) →
        m.timing.electionMinMs < now - at_)
  /-- Its statuses never go back. -/
  | rises (up : ∀ p q h h', p <+: q → q <+: span →
      (Machine.run handle m p).shown route = some h →
      (Machine.run handle m q).shown route = some h' → h ≤ h')

/-- A peer that showed a head once shows one from then on. -/
theorem run_shown {m : Mesh} {route : Route} (known : (m.shown route).isSome) (inputs : List Input) :
    ((Machine.run handle m inputs).shown route).isSome := by
  refine Machine.run_keeps (fun n : Mesh => (n.shown route).isSome) (fun n i known => ?_) known
  rw [shown, Option.isSome_map] at known ⊢
  cases i with
  | pushTargets now head => simpa [handle] using known
  | _ => exact (handle_remembers n _ (by simp)).seen route known

section

variable {m : Mesh} {route : Route} {span before : List Input} {h now head : Nat}

theorem behind_at (behind : Machine.Meets handle (SeesBehind route h) m span)
    (call : before ++ [.pushTargets now head] <+: span) :
    SeesBehind route h (Machine.run handle m before) (.pushTargets now head) := by
  obtain ⟨rest, rfl⟩ := call
  exact (Machine.meets_append.mp (Machine.meets_append.mp behind).1).2.1

theorem shown_of_behind (behind : Machine.Meets handle (SeesBehind route h) m span)
    (call : before ++ [.pushTargets now head] <+: span) :
    (Machine.run handle m before).shown route = some h ∧ h ≠ head := by
  obtain ⟨at_, st, last, _, same, differs⟩ := behind_at behind call
  exact ⟨by simp [shown, last, same], differs⟩

/-- Statuses that never go back show one head throughout, when the first and the last call see the
same. -/
theorem shown_still (behind : Machine.Meets handle (SeesBehind route h) m span) {window : Nat}
    (lasts : Lasts window span)
    (up : ∀ p q h h', p <+: q → q <+: span → (Machine.run handle m p).shown route = some h →
      (Machine.run handle m q).shown route = some h' → h ≤ h')
    {p : List Input} (within : p <+: span) : (Machine.run handle m p).shown route = some h := by
  obtain ⟨t, first, t', last, starts, ends, _⟩ := lasts
  obtain ⟨rest, rfl⟩ := List.head?_eq_some_iff.mp starts
  obtain ⟨before, whole⟩ := List.getLast?_eq_some_iff.mp ends
  have call : before ++ [.pushTargets t' last] <+: .pushTargets t first :: rest := by rw [whole]
  have opened : m.shown route = some h :=
    (shown_of_behind behind (List.prefix_append ([] ++ [_]) rest)).1
  have closed := (shown_of_behind behind call).1
  -- What comes last is a call, and it hears nothing.
  rw [whole] at within
  rcases List.prefix_concat_iff.mp within with all | inside
  · rw [all, Machine.run_concat, ← closed]
    simp [shown, handle]
  · obtain ⟨k, between⟩ := Option.isSome_iff_exists.mp (run_shown (by rw [opened]; rfl) p)
    have low : h ≤ k :=
      up [] p h k List.nil_prefix (inside.trans ((List.prefix_append ..).trans call)) opened between
    have high : k ≤ h := up p before k h inside ((List.prefix_append ..).trans call) between closed
    rw [between, Nat.le_antisymm low high]

/-- Of a peer whose head every call sees unchanged, away from the leader's, nothing was noticed. -/
theorem not_noticed (behind : Machine.Meets handle (SeesBehind route h) m span)
    (lasts : Lasts m.timing.electionMinMs span) (stirs : Stirs m route span) :
    ¬ Noticed m route span := by
  intro noticed
  cases noticed with
  | reached before now head call same =>
    obtain ⟨stays, differs⟩ := shown_of_behind behind call
    exact differs (Option.some.inj (stays.symm.trans same))
  | moved before before' now head now' head' call call' other =>
    exact other ((shown_of_behind behind call).1.trans (shown_of_behind behind call').1.symm)
  | silent before now head call stale =>
    obtain ⟨at_, st, last, fresh, _⟩ := behind_at behind call
    rw [run_timing] at fresh
    exact absurd (stale at_ st last) (Nat.not_lt.mpr fresh)
  | rises up =>
    cases stirs with
    | reached before now head call same =>
      obtain ⟨stays, differs⟩ := shown_of_behind behind call
      exact differs (Option.some.inj (stays.symm.trans same))
    | changed p q within within' other =>
      exact other ((shown_still behind lasts up within).trans
        (shown_still behind lasts up within').symm)

end

/-- What one call of a leadership returns. -/
theorem pushTargets_run (m : Mesh) (elected : Nat) {inputs : List Input} {now head : Nat}
    {route : Route} (target : route ∈
      ((Machine.run handle (m.becomeLeader elected) inputs).pushTargets now head).1) :
    ∃ at_ st, (Machine.run handle (m.becomeLeader elected) inputs).seen[route]? = some (at_, st) ∧
      now - at_ ≤ m.timing.electionMinMs ∧ st.head ≠ head ∧
      (Returned (m.becomeLeader elected) inputs route ∨
        ∃ since, m.timing.electionMinMs ≤ now - since ∧
          Lagged (m.becomeLeader elected) (inputs ++ [.pushTargets now head]) route st.head
            since) := by
  have recorded := run_recorded m elected inputs
  have timing : (Machine.run handle (m.becomeLeader elected) inputs).timing = m.timing :=
    run_timing _ _
  have leads := leads_of_target target
  cases last : (Machine.run handle (m.becomeLeader elected) inputs).seen[route]? with
  | none => exact absurd target (pushTargets_unseen leads now head last).2
  | some answer =>
    obtain ⟨at_, st⟩ := answer
    obtain ⟨e, runs, due⟩ := (pushTargets_own leads now head last).2.mp target
    obtain ⟨fresh, differs, -, -⟩ := lag_some runs
    obtain ⟨same, lagged⟩ := recorded.clock last runs
    rw [timing] at fresh due
    refine ⟨at_, st, rfl, fresh, differs, ?_⟩
    -- It was pushed to before, or its clock has run long enough; the clock tells since when.
    rcases due with before | waited
    · exact .inl (recorded.pushed route before)
    · exact .inr ⟨e.2, waited, same ▸ lagged⟩

/-- Every span of the calls that lasts a window is of the kind. -/
def EachWindow (s : Mesh) (calls : List Input) (kind : Mesh → List Input → Prop) : Prop :=
  ∀ before span after, calls = before ++ span ++ after → Lasts s.timing.electionMinMs span →
    kind (Machine.run handle s before) span

theorem EachWindow.left {s : Mesh} {calls more : List Input} {kind : Mesh → List Input → Prop}
    (each : EachWindow s (calls ++ more) kind) : EachWindow s calls kind := by
  intro before span after parts
  exact each before span (after ++ more) (by rw [parts, List.append_assoc])

/-- The first time a peer is pushed to, nothing was noticed of it over a window. -/
theorem spared_run (m : Mesh) (elected : Nat) {calls : List Input} {route : Route}
    (stirs : EachWindow (m.becomeLeader elected) calls (Stirs · route))
    (noticed : EachWindow (m.becomeLeader elected) calls (Noticed · route)) :
    ¬ Returned (m.becomeLeader elected) calls route := by
  -- Who was pushed to before was pushed to in a shorter run, so take the shortest.
  induction len : calls.length using Nat.strong_induction_on generalizing calls with
  | _ n ih =>
    subst len
    rintro ⟨inputs, now, head, ⟨rest, rfl⟩, target⟩
    obtain ⟨at_, st, -, -, -, returned | ⟨since, waited, lagged⟩⟩ :=
      pushTargets_run m elected target
    · have shorter : inputs.length < (inputs ++ [Input.pushTargets now head] ++ rest).length := by
        simp
      rw [List.append_assoc] at stirs noticed
      exact ih inputs.length shorter stirs.left noticed.left rfl returned
    · obtain ⟨before, first, after, parts, behind⟩ := lagged
      have lasts : Lasts m.timing.electionMinMs (.pushTargets since first :: after) := by
        refine ⟨since, first, now, head, rfl, ?_, waited⟩
        rw [← List.getLast?_append_of_ne_nil before (by simp), ← parts]
        simp
      have timing : (Machine.run handle (m.becomeLeader elected) before).timing = m.timing :=
        run_timing _ _
      exact not_noticed behind (by rw [timing]; exact lasts)
        (stirs before _ rest (by rw [parts]) lasts) (noticed before _ rest (by rw [parts]) lasts)

/-- In a leadership, whatever the node is told and asked: who is pushed to was heard within the
window, at a head other than the leader's, and was pushed to before, or every call over a window
saw that head and differed. Whose head matches or changes in every window is never pushed to, as
long as the calls notice. Heads and clocks have no bound here: they are those of a run that stays
below 2^64. -/
theorem push_spares_run (m : Mesh) (elected : Nat) (inputs : List Input) (now head : Nat)
    (route : Route) :
    let s := m.becomeLeader elected
    let window := m.timing.electionMinMs
    let calls := inputs ++ [.pushTargets now head]
    (route ∈ ((Machine.run handle s inputs).pushTargets now head).1 →
      ∃ at_ st, (Machine.run handle s inputs).seen[route]? = some (at_, st) ∧
        now - at_ ≤ window ∧ st.head ≠ head ∧
        (Returned s inputs route ∨
          ∃ since, window ≤ now - since ∧ Lagged s calls route st.head since)) ∧
    (EachWindow s calls (Stirs · route) → EachWindow s calls (Noticed · route) →
      ¬ Returned s calls route) := by
  intro s window calls
  exact ⟨pushTargets_run m elected, spared_run m elected⟩

/-- The head of a peer as its statuses show it goes up and back between two calls, which both see
it where it was. -/
theorem push_spares_run_unnoticed :
    let m := Mesh.new "a" ["b", "c"] {} {} 0 1
    let s := m.becomeLeader 0
    let shows head now : Input := .status "b" ⟨"b", "", 0, .follower, some "a", head, 0⟩ now
    let calls : List Input :=
      [shows 10 0, .pushTargets 0 20, shows 11 1000, shows 10 2000, .pushTargets 4000 20]
    EachWindow s calls (Stirs · "b") ∧ Returned s calls "b" := by
  intro m s shows calls
  constructor
  · rintro before span after parts ⟨t, first, t', last, starts, ends, long⟩
    obtain ⟨rest, rfl⟩ := List.head?_eq_some_iff.mp starts
    -- A span starts at a call, and the one that starts at the last call does not last.
    rcases before with _ | ⟨_, _ | ⟨_, _ | ⟨_, _ | ⟨_, _ | ⟨_, before⟩⟩⟩⟩⟩ <;>
      simp only [calls, shows, List.nil_append, List.cons_append, List.cons.injEq,
        Input.pushTargets.injEq, reduceCtorEq, false_and, and_false, List.nil_eq,
        List.append_eq_nil_iff] at parts
    · obtain ⟨rfl, ⟨rfl, rfl⟩, parts⟩ := parts
      rcases rest with _ | ⟨i, rest⟩
      · simp only [List.getLast?_singleton, Option.some.injEq, Input.pushTargets.injEq] at ends
        have : (4000 : Nat) ≤ t' - 0 := long
        omega
      · simp only [List.cons_append, List.cons.injEq] at parts
        obtain ⟨rfl, _⟩ := parts
        exact .changed [] [_, _] List.nil_prefix ⟨rest, rfl⟩ (by decide +kernel)
    · obtain ⟨_, _, _, _, ⟨rfl, rfl⟩, rfl, rfl⟩ := parts
      simp only [List.getLast?_singleton, Option.some.injEq, Input.pushTargets.injEq] at ends
      have : (4000 : Nat) ≤ t' - 4000 := long
      omega
  · exact ⟨[_, _, _, _], 4000, 20, List.prefix_rfl, by decide +kernel⟩

end Mesh

end AkumaMiot

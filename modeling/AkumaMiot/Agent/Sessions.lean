import AkumaMiot.Agent.Told

/-!
# Nothing crosses a reset

A reset can be queued while the model thinks, between retries, with queries in flight, with
results held, or between two wakes. What was queued or asked before it is told from what came
after by how many messages had been queued by then.
-/
namespace AkumaMiot

/-- Every reset taken was queued before the `n`-th message. -/
def After (taken : List Inbound) (n : Nat) : Prop :=
  ∀ r ∈ taken, r.isReset = true → r.after < n

theorem After.wake {taken : List Inbound} {n : Nat} (after : After taken n) (w : Wake) :
    After (taken ++ [.wake w]) n := by
  intro r member reset
  rcases List.mem_append.mp member with old | new
  · exact after r old reset
  · rw [List.mem_singleton.mp new] at reset
    cases reset

/-- The wakes taken since the last reset that was. -/
def sinceReset (taken : List Inbound) : List Wake :=
  taken.foldl (fun wakes i => match i with
    | .wake w => wakes ++ [w]
    | .reset .. => []) []

@[simp] theorem sinceReset_wake (taken : List Inbound) (w : Wake) :
    sinceReset (taken ++ [.wake w]) = sinceReset taken ++ [w] := by
  simp [sinceReset]

@[simp] theorem sinceReset_reset (taken : List Inbound) (why : String) (n : Nat) :
    sinceReset (taken ++ [.reset why n]) = [] := by
  simp [sinceReset]

/-- The messages are numbered by where they were queued. -/
def Numbered (sent : List Inbound) : Prop := sent.map Inbound.after = List.range sent.length

theorem Numbered.send {sent : List Inbound} {i : Inbound} (numbered : Numbered sent)
    (next : i.after = sent.length) : Numbered (sent ++ [i]) := by
  unfold Numbered at numbered ⊢
  rw [List.map_append, numbered, List.length_append, List.length_singleton, List.range_succ,
    List.map_singleton, next]

theorem Numbered.prefix_lt {sent before later : List Inbound} (numbered : Numbered sent)
    (split : before ++ later = sent) : ∀ i ∈ before, i.after < before.length := by
  have firsts : before.map Inbound.after = List.range before.length := by
    have := congrArg (List.take before.length) numbered
    rw [← split, List.map_append, List.take_left' (List.length_map _), List.take_range] at this
    simpa [Nat.min_eq_left] using this
  intro i member
  exact List.mem_range.mp (firsts ▸ List.mem_map_of_mem member)

theorem Numbered.at_ {sent before later : List Inbound} {i : Inbound} (numbered : Numbered sent)
    (split : before ++ i :: later = sent) : i.after = before.length := by
  have here := congrArg (fun l => l[before.length]?) numbered
  rw [← split] at here
  simpa using here

/-- It was asked in this session, after every reset taken. -/
def Asked.Current (taken : List Inbound) (session : Nat) (asked : Asked) : Prop :=
  asked.session = session ∧ After taken asked.after

/-- It was asked no later than in this session, and if in this one after every reset. -/
def Asked.Fits (taken : List Inbound) (session : Nat) (asked : Asked) (of : Nat) : Prop :=
  of ≤ session ∧ (of = session → asked.Current taken session)

namespace Back

def Fits (taken : List Inbound) (session : Nat) : Back → Prop
  | result _ _ of _ asked => asked.Fits taken session of
  | recordDone _ => True

end Back

namespace Spawned

def Fits (taken : List Inbound) (session : Nat) : Spawned → Prop
  | query _ _ of asked => asked.Fits taken session of
  | record _ => True

theorem back_fits {taken : List Inbound} {session : Nat} (out : ToolOut) {task : Spawned}
    (fits : task.Fits taken session) : (task.back out).Fits taken session := by
  cases task <;> exact fits

end Spawned

namespace AgentStateMachine

/-- What the conversation was made of. -/
def pieces (m : AgentStateMachine) : List (List Piece) := m.history.map HistoryEntry.pieces

/-- Somebody's wakes that this session's turns put to the model. -/
def spoken (m : AgentStateMachine) : List Wake :=
  ((m.trace.fed.filter (·.session = m.session)).flatMap
    (·.pieces.flatMap Piece.wakes)).filter (!·.own)

end AgentStateMachine

namespace Agent

open AgentStateMachine

variable {host : Host} {e : Event} {spent : Prop}

/-- A message's wakes and rows are all of this session. -/
def Clean (taken : List Inbound) (session : Nat) (pieces : List Piece) : Prop :=
  (∀ w ∈ pieces.flatMap Piece.wakes, After taken w.after) ∧
    ∀ r ∈ pieces.flatMap Piece.rows, r.asked.Current taken session

/-- What is in hand is of this session. -/
def Hand.Clean (taken : List Inbound) (session : Nat) : Hand → Prop
  | batch b => (∀ w ∈ b.wakes, After taken w.after) ∧
      ∀ r ∈ b.results, r.asked.Current taken session
  | thinking t => After taken t.began

/-- The machine and its messages, with `h` in hand. -/
structure Session (s : Agent) (h : Hand) : Prop where
  numbered : Numbered s.m.trace.sent
  kept : s.m.trace.taken ++ (s.m.pending ++ s.inbox).filter (!·.own) = s.m.trace.sent
  mine : ∀ i ∈ s.m.pending, i.own = true → After s.m.trace.taken i.after
  counted : s.m.session = s.m.trace.taken.countP Inbound.isReset
  history : ∀ pieces ∈ s.m.pieces, Clean s.m.trace.taken s.m.session pieces
  held : ∀ r ∈ s.m.held, r.asked.Current s.m.trace.taken s.m.session
  unread : ∀ b ∈ s.m.backTx, b.Fits s.m.trace.taken s.m.session
  flying : ∀ t ∈ s.m.tasks, t.Fits s.m.trace.taken s.m.session
  hand : h.Clean s.m.trace.taken s.m.session
  fed : ∀ f ∈ s.m.trace.fed, f.session ≤ s.m.session
  spoken : s.m.spoken ++ h.wakes.filter (!·.own) = sinceReset s.m.trace.taken
  acted : ∀ d ∈ s.m.trace.acted, d.done ≤ s.m.trace.sent.length ∧
    ∀ r ∈ s.m.trace.sent, r.isReset = true → r.after < d.done → r.after < d.began
  closed : s.opened = false →
    s.hungUp = true ∧ s.inbox = [] ∧ ∀ i ∈ s.m.pending, i.own = true
  past : s.at_ = .ended → s.opened = false

/-- Every reset taken was queued before whatever is queued next. -/
theorem Session.now {s : Agent} {h : Hand} (session : Session s h) :
    After s.m.trace.taken s.m.trace.sent.length := by
  intro r member _
  have first := session.numbered.prefix_lt session.kept r member
  have := congrArg List.length session.kept
  rw [List.length_append] at this
  omega

theorem clean_nil (taken : List Inbound) (session : Nat) : Clean taken session [] :=
  ⟨by simp, by simp⟩

theorem Hand.clean_nil (taken : List Inbound) (session : Nat) :
    (Hand.batch {}).Clean taken session :=
  ⟨List.forall_mem_nil _, List.forall_mem_nil _⟩

/-- A move that hands nothing over and queues nothing. -/
theorem Session.of_keeps {s : Agent} {h h' : Hand} (session : Session s h) {m : AgentStateMachine}
    (keeps : s.m.Keeps m) (pieces : ∀ p ∈ m.pieces, p ∈ s.m.pieces ∨ p = [])
    (backTx : m.backTx = s.m.backTx) (tasks : m.tasks = s.m.tasks)
    (acted : m.trace.acted = s.m.trace.acted) (clean : h'.Clean s.m.trace.taken s.m.session)
    (wakes : h'.wakes.filter (!·.own) = h.wakes.filter (!·.own)) (wasIdle : Bool) :
    Session { s with m, wasIdle } h' where
  numbered := by simpa only [keeps.sent] using session.numbered
  kept := by simpa only [keeps.sent, keeps.taken, keeps.pending] using session.kept
  mine := by simpa only [keeps.taken, keeps.pending] using session.mine
  counted := by simpa only [keeps.taken, keeps.session] using session.counted
  history p member := by
    rw [keeps.taken, keeps.session]
    -- What is said anew has no pieces.
    rcases pieces p member with old | rfl
    · exact session.history p old
    · exact clean_nil _ _
  held := by simpa only [keeps.held, keeps.taken, keeps.session] using session.held
  unread := by simpa only [backTx, keeps.taken, keeps.session] using session.unread
  flying := by simpa only [tasks, keeps.taken, keeps.session] using session.flying
  hand := by simpa only [keeps.taken, keeps.session] using clean
  fed := by simpa only [keeps.fed, keeps.session] using session.fed
  spoken := by
    simpa only [AgentStateMachine.spoken, keeps.fed, keeps.session, keeps.taken, wakes]
      using session.spoken
  acted := by simpa only [acted, keeps.sent] using session.acted
  closed := by simpa only [keeps.pending] using session.closed
  past := session.past

/-! ## Taking -/

/-- Taking a reset leaves nothing from before it. -/
theorem Session.reset {s s' : Agent} {b : Batch} {why : String} {n : Nat} {waiting : List Inbound}
    (session : Session s (.batch b))
    (eq : s'.m = { (take (s.m, b) (.reset why n)).1 with pending := waiting })
    (kept : s'.m.trace.taken ++ (waiting ++ s'.inbox).filter (!·.own) = s.m.trace.sent)
    (foreign : ∀ j ∈ waiting, j.own = false) (opened : s'.opened = s.opened)
    (hungUp : s'.hungUp = s.hungUp) (at_ : s'.at_ = s.at_)
    (closed : s.opened = false → s'.inbox = [] ∧ ∀ i ∈ waiting, i.own = true) :
    Session s' (.batch {}) := by
  -- No turn was fed in the session that begins here.
  have older : ∀ f ∈ s.m.trace.fed, f.session ≠ s.m.session + 1 := fun f member is => by
    have := session.fed f member
    omega
  exact {
    numbered := by rw [eq]; exact session.numbered
    kept := by rw [eq] at kept ⊢; exact kept
    mine := by
      intro i member own
      rw [eq] at member
      rw [foreign i member] at own
      cases own
    counted := by
      rw [eq]
      simp [take, session.counted, Inbound.isReset]
    history := by rw [eq]; exact List.forall_mem_nil _
    held := by rw [eq]; exact List.forall_mem_nil _
    -- Results still out were asked in a session that is over by now.
    unread := by
      intro x member
      rw [eq] at member ⊢
      have fits := session.unread x member
      cases x with
      | recordDone flight => trivial
      | result name out of flight asked =>
        exact ⟨fits.1.trans (Nat.le_succ _),
          fun is => absurd (is ▸ fits.1) (Nat.not_succ_le_self _)⟩
    flying := by
      intro x member
      rw [eq] at member ⊢
      have fits := session.flying x member
      cases x with
      | record flight => trivial
      | query flight name of asked =>
        exact ⟨fits.1.trans (Nat.le_succ _),
          fun is => absurd (is ▸ fits.1) (Nat.not_succ_le_self _)⟩
    hand := Hand.clean_nil _ _
    fed := by
      rw [eq]
      exact fun f member => (session.fed f member).trans (Nat.le_succ _)
    spoken := by
      have empty : s'.m.spoken = [] := by
        have none_ : s.m.trace.fed.filter (·.session = s.m.session + 1) = [] :=
          List.filter_eq_nil_iff.mpr fun f member => by simpa using older f member
        rw [eq]
        exact congrArg (fun fed : List Fed =>
          (fed.flatMap (·.pieces.flatMap Piece.wakes)).filter (!·.own)) none_
      rw [empty, eq]
      simp [take, Hand.wakes]
    acted := by rw [eq]; exact session.acted
    closed := by
      intro shut
      rw [opened] at shut
      rw [hungUp, eq]
      exact ⟨(session.closed shut).1, closed shut⟩
    past := by rw [at_, opened]; exact session.past }

/-- A wake taken is from after every reset taken before it. -/
theorem Session.wake {s s' : Agent} {b : Batch} {w : Wake} {waiting : List Inbound}
    (session : Session s (.batch b))
    (eq : s'.m = { (take (s.m, b) (.wake w)).1 with pending := waiting })
    (later : After s.m.trace.taken w.after)
    (kept : s'.m.trace.taken ++ (waiting ++ s'.inbox).filter (!·.own) = s.m.trace.sent)
    (foreign : ∀ j ∈ waiting, j.own = false) (opened : s'.opened = s.opened)
    (hungUp : s'.hungUp = s.hungUp) (at_ : s'.at_ = s.at_)
    (closed : s.opened = false → s'.inbox = [] ∧ ∀ i ∈ waiting, i.own = true) :
    Session s' (.batch (take (s.m, b) (.wake w)).2) := by
  -- Whether it is the loop's own or somebody's, the resets taken are the same.
  have more : ∀ n, After s.m.trace.taken n → After s'.m.trace.taken n := by
    intro n after
    rw [eq]
    simp only [take]
    split
    · exact after
    · exact after.wake w
  have same : s'.m.session = s.m.session := by rw [eq]; rfl
  have current : ∀ asked : Asked, asked.Current s.m.trace.taken s.m.session →
      asked.Current s'.m.trace.taken s'.m.session :=
    fun asked now => ⟨now.1.trans same.symm, more _ now.2⟩
  have fits : ∀ {asked : Asked} {of : Nat}, asked.Fits s.m.trace.taken s.m.session of →
      asked.Fits s'.m.trace.taken s'.m.session of :=
    fun fits => ⟨fits.1.trans_eq same.symm, fun is => current _ (fits.2 (is.trans same))⟩
  exact {
    numbered := by rw [eq]; exact session.numbered
    kept := by rw [eq] at kept ⊢; exact kept
    mine := by
      intro i member own
      rw [eq] at member
      rw [foreign i member] at own
      cases own
    counted := by
      rw [same, session.counted, eq]
      cases own : w.own <;> simp [take, own, Inbound.isReset]
    history := by
      intro pieces member
      have clean := session.history pieces (by rw [eq] at member; exact member)
      exact ⟨fun w member => more _ (clean.1 w member),
        fun r member => current _ (clean.2 r member)⟩
    held := by
      intro r member
      exact current _ (session.held r (by rw [eq] at member; exact member))
    unread := by
      intro x member
      have old := session.unread x (by rw [eq] at member; exact member)
      cases x with
      | recordDone flight => trivial
      | result name out of flight asked => exact fits old
    flying := by
      intro x member
      have old := session.flying x (by rw [eq] at member; exact member)
      cases x with
      | record flight => trivial
      | query flight name of asked => exact fits old
    hand := by
      refine ⟨fun v member => more _ ?_, fun r member => current _ (session.hand.2 r member)⟩
      rcases List.mem_append.mp member with old | new
      · exact session.hand.1 v old
      · exact List.mem_singleton.mp new ▸ later
    fed := by rw [eq]; exact session.fed
    spoken := by
      have spoken := session.spoken
      have same : s'.m.spoken = s.m.spoken := by rw [eq]; rfl
      have taken : s'.m.trace.taken =
          if w.own then s.m.trace.taken else s.m.trace.taken ++ [.wake w] := by rw [eq]; rfl
      rw [same, taken]
      cases own : w.own with
      | true => simpa [take, Hand.wakes, List.filter_append, own] using spoken
      | false =>
        have wakes : (Hand.batch (take (s.m, b) (.wake w)).2).wakes.filter (!·.own) =
            b.wakes.filter (!·.own) ++ [w] := by
          simp [take, Hand.wakes, List.filter_append, own]
        rw [wakes, ← List.append_assoc]
        simp only [Bool.false_eq_true, if_false, sinceReset_wake]
        exact congrArg (· ++ [w]) spoken
    acted := by rw [eq]; exact session.acted
    closed := by
      intro shut
      rw [opened] at shut
      rw [hungUp, eq]
      exact ⟨(session.closed shut).1, closed shut⟩
    past := by rw [at_, opened]; exact session.past }

/-- Whatever is taken. -/
theorem Session.taking {s s' : Agent} {b : Batch} {i : Inbound}
    (session : Session s (.batch b)) (waiting : List Inbound)
    (eq : s'.m = { (take (s.m, b) i).1 with pending := waiting })
    (queue : s.m.pending ++ s.inbox = i :: (waiting ++ s'.inbox))
    (head : i.own = true → i ∈ s.m.pending)
    (foreign : ∀ j ∈ waiting, j.own = false) (opened : s'.opened = s.opened)
    (hungUp : s'.hungUp = s.hungUp) (at_ : s'.at_ = s.at_)
    (closed : s.opened = false → s'.inbox = [] ∧ ∀ i ∈ waiting, i.own = true) :
    Session s' (.batch (take (s.m, b) i).2) := by
  have kept := session.kept
  rw [queue] at kept
  cases i with
  | reset why n =>
    refine session.reset eq ?_ foreign opened hungUp at_ closed
    rw [eq, ← kept]
    simp [take, Inbound.own]
  | wake w =>
    cases own : w.own with
    -- A wake of the loop's own is nobody's message, and is not counted among those taken.
    | true =>
      refine session.wake eq (session.mine (.wake w) (head own) own) ?_ foreign opened hungUp at_
        closed
      rw [eq, ← kept]
      simp [take, Inbound.own, own]
    | false =>
      have split : s.m.trace.taken ++ Inbound.wake w ::
          (waiting ++ s'.inbox).filter (!·.own) = s.m.trace.sent := by
        rw [← kept, List.filter_cons_of_pos (by simp [Inbound.own, own])]
      -- Messages are taken in the order they were queued, so its number is how many were taken.
      have here : w.after = s.m.trace.taken.length := session.numbered.at_ split
      refine session.wake eq (fun r member _ => ?_) ?_ foreign opened hungUp at_ closed
      · rw [here]
        exact session.numbered.prefix_lt split r member
      · rw [eq, ← split]
        simp [take, own]

/-! ## Reading, asking and acting -/

theorem Session.read {s : Agent} {b : Batch} {x : Back} {rest : List Back}
    (session : Session s (.batch b)) (unread : s.m.backTx = x :: rest) :
    Session { s with m := { (back (s.m, b.results) x).1 with backTx := rest } }
      (.batch { b with results := (back (s.m, b.results) x).2 }) := by
  have others : ∀ y ∈ rest, y.Fits s.m.trace.taken s.m.session := fun y member =>
    session.unread y (by simp [unread, member])
  cases x with
  | recordDone flight =>
    exact { session with unread := others }
  | result name out of flight asked =>
    have fits : asked.Fits s.m.trace.taken s.m.session of :=
      session.unread (.result name out of flight asked) (by simp [unread])
    by_cases current : of = s.m.session
    · subst current
      obtain ⟨queries, bg, live, running, eq⟩ :=
        AgentStateMachine.back_current s.m b.results name out flight asked
      rw [eq]
      exact { session with
        unread := others
        hand := ⟨session.hand.1, fun r member => by
          rcases List.mem_append.mp member with old | new
          · exact session.hand.2 r old
          · rw [List.mem_singleton.mp new]
            exact fits.2 rfl⟩ }
    · -- A session that is over: nothing of it is fed.
      obtain ⟨queries, bg, live, running, eq⟩ :=
        back_stale s.m b.results name out current flight asked
      rw [eq]
      exact { session with unread := others }

/-- A turn puts its batch to the model. -/
theorem Session.think {s : Agent} {b : Batch} (session : Session s (.batch b)) (mo : Moment)
    (check : Bool) : Session (think mo s b check) (think mo s b check).hand := by
  obtain ⟨pieces, rows, wakes, trace, history⟩ :=
    turn_fed mo { s.m with idleSince := none } b check
  obtain ⟨backTx, tasks, toolLog, toolBase⟩ :=
    turn_flights mo { s.m with idleSince := none } b check
  have sent : (Agent.think mo s b check).m.trace.sent = s.m.trace.sent := turn_sent mo _ b check
  have taken : (Agent.think mo s b check).m.trace.taken = s.m.trace.taken := turn_taken mo _ b check
  have held : (Agent.think mo s b check).m.held = s.m.held := turn_held mo _ b check
  have same : (Agent.think mo s b check).m.session = s.m.session := turn_session mo _ b check
  have began : (Agent.think mo s b check).hand =
      .thinking ({ s.m with idleSince := none }.turn mo b check).2 := rfl
  exact {
    numbered := by rw [sent]; exact session.numbered
    kept := by rw [taken, think_pending, sent]; exact session.kept
    mine := by rw [think_pending, taken]; exact session.mine
    counted := by rw [same, taken]; exact session.counted
    history := by
      rw [taken, same]
      intro p member
      rw [AgentStateMachine.pieces, show (Agent.think mo s b check).m.history.map
        HistoryEntry.pieces = _ from history] at member
      rcases List.mem_append.mp member with old | new
      · exact session.history p old
      · rw [List.mem_singleton.mp new, Clean, wakes, rows]
        exact session.hand
    held := by rw [held, taken, same]; exact session.held
    unread := by
      rw [show (Agent.think mo s b check).m.backTx = _ from backTx, taken, same]
      exact session.unread
    flying := by
      rw [show (Agent.think mo s b check).m.tasks = _ from tasks, taken, same]
      exact session.flying
    hand := by
      rw [began, taken, Hand.Clean, turn_began]
      exact session.now
    fed := by
      rw [show (Agent.think mo s b check).m.trace = _ from trace, same]
      intro f member
      rcases List.mem_append.mp member with old | new
      · exact session.fed f old
      · rw [List.mem_singleton.mp new]
    spoken := by
      -- What was in hand is what this session's turns now say.
      have spoken : (Agent.think mo s b check).m.spoken =
          s.m.spoken ++ b.wakes.filter (!·.own) := by
        rw [AgentStateMachine.spoken, show (Agent.think mo s b check).m.trace = _ from trace, same]
        simp [AgentStateMachine.spoken, List.filter_append, wakes]
      rw [spoken, taken]
      simpa [began, Hand.wakes] using session.spoken
    acted := by
      rw [show (Agent.think mo s b check).m.trace = _ from trace]
      exact session.acted
    closed := by
      rw [think_pending]
      exact session.closed
    past := nofun }

/-- A query asked now fits. -/
theorem Session.asking {s : Agent} {h : Hand} (session : Session s h) :
    s.m.asking.Fits s.m.trace.taken s.m.session s.m.session :=
  ⟨le_rfl, fun _ => ⟨rfl, session.now⟩⟩

theorem Session.instant {s : Agent} {h : Hand} (session : Session s h) (name : String)
    (out : ToolOut) : Session { s with m := s.m.instant name out } h :=
  { session with
    unread := fun b member => by
      rcases List.mem_append.mp member with old | new
      · exact session.unread b old
      · rw [List.mem_singleton.mp new]
        exact session.asking }

theorem Session.query {s : Agent} {h : Hand} (session : Session s h) (c : Call) :
    Session { s with m := s.m.startQuery c } h :=
  { session with
    flying := fun t member => by
      rcases List.mem_append.mp member with old | new
      · exact session.flying t old
      · rw [List.mem_singleton.mp new]
        exact session.asking }

theorem Session.record {s : Agent} {h : Hand} (session : Session s h) (c : Call) :
    Session { s with m := s.m.startRecord c } h :=
  { session with
    flying := fun t member => by
      rcases List.mem_append.mp member with old | new
      · exact session.flying t old
      · rw [List.mem_singleton.mp new]
        trivial }

/-- A call is acted on with everything queued read and no reset in it, so every reset was taken
before the model was asked. -/
theorem Session.note {s : Agent} {t : Thinking} (session : Session s (.thinking t)) (c : Call)
    (inbox : s.inbox = []) (current : s.resetWaiting = false) :
    Session { s with m := s.m.noteActed t c } (.thinking t) :=
  { session with
    acted := fun d member => by
      rcases List.mem_append.mp member with old | new
      · exact session.acted d old
      · rw [List.mem_singleton.mp new]
        refine ⟨le_rfl, fun r sent reset _ => session.hand r ?_ reset⟩
        have kept := session.kept
        rw [inbox, List.append_nil] at kept
        rcases List.mem_append.mp (kept ▸ sent) with taken | waits
        · exact taken
        · have waiting := List.any_eq_false.mp current r (List.mem_of_mem_filter waits)
          exact absurd reset waiting }

theorem Session.lands {s : Agent} {h : Hand} (session : Session s h) (flight : Nat)
    (out : ToolOut) : Session (s.lands flight out) h := by
  unfold Agent.lands
  split
  · exact session
  next task found =>
    exact
      { session with
        unread := fun b member => by
          rcases List.mem_append.mp member with old | new
          · exact session.unread b old
          · rw [List.mem_singleton.mp new]
            exact Spawned.back_fits out (session.flying task (List.mem_of_find?_eq_some found))
        flying := fun t member => session.flying t (List.mem_of_mem_eraseP member) }

/-! ## Queueing -/

theorem Session.send {s : Agent} {h : Hand} (session : Session s h) {i : Nat → Inbound}
    (foreign : ∀ n, (i n).own = false) (numbered : ∀ n, (i n).after = n) :
    Session (s.send i) h := by
  unfold Agent.send
  split
  · exact session
  next on =>
    exact
      { session with
        numbered := session.numbered.send (numbered _)
        kept := by
          show s.m.trace.taken ++ (s.m.pending ++ (s.inbox ++ _)).filter (!·.own) = _
          rw [← List.append_assoc, List.filter_append, ← List.append_assoc, session.kept]
          simp [foreign]
        -- It is queued after every call acted on.
        acted := fun d member => by
          obtain ⟨done, before⟩ := session.acted d member
          refine ⟨done.trans (by simp), fun r sent reset early => ?_⟩
          rcases List.mem_append.mp sent with old | new
          · exact before r old reset early
          · rw [List.mem_singleton.mp new, numbered] at early
            omega
        closed := fun shut => absurd (session.closed shut).1 on }

/-- The loop's own wake is queued last, so after every reset taken. -/
theorem Session.queueOwn {s : Agent} {h : Hand} (session : Session s h) (text : String) :
    Session { s with m := s.m.queueOwn text } h :=
  { session with
    kept := by
      show s.m.trace.taken ++ ((s.m.pending ++ _) ++ s.inbox).filter (!·.own) = s.m.trace.sent
      rw [← session.kept]
      simp [List.filter_append, Inbound.own]
    mine := fun i member own => by
      rcases List.mem_append.mp member with old | new
      · exact session.mine i old own
      · rw [List.mem_singleton.mp new]
        exact session.now
    closed := fun shut => by
      obtain ⟨hungUp, inbox, mine⟩ := session.closed shut
      refine ⟨hungUp, inbox, fun i member => ?_⟩
      rcases List.mem_append.mp member with old | new
      · exact mine i old
      · rw [List.mem_singleton.mp new]
        rfl }

theorem Session.watch {s : Agent} {h : Hand} (session : Session s h) (host : Host) (mo : Moment) :
    Session { s with m := s.m.watch host mo } h := by
  obtain ⟨m', notices, watched, eq⟩ := watch_watched host mo s.m
  rw [eq]
  cases watched with
  | nothing => exact { session with }
  | released text => exact { session.queueOwn text with }
  | nagged text reminder => exact { session.queueOwn text with }

/-! ## Moves -/

/-- A turn given up is marked so, in the session it was put in. -/
theorem giveUp_spoken (m : AgentStateMachine) (t : Thinking) : (m.giveUp t).spoken = m.spoken := by
  rcases List.eq_nil_or_concat m.trace.fed with none_ | ⟨older, last, some_⟩
  · simp [AgentStateMachine.spoken, AgentStateMachine.giveUp, none_]
  · by_cases here : last.session = m.session <;>
      simp [AgentStateMachine.spoken, AgentStateMachine.giveUp, some_, List.filter_append, here]

theorem Session.giveUp {s : Agent} {t : Thinking} (session : Session s (.thinking t)) :
    Session { s with m := s.m.giveUp t } (.batch {}) :=
  { session with
    history := fun pieces member => by
      refine session.history pieces ?_
      obtain ⟨e, entry, is⟩ := List.mem_map.mp member
      exact List.mem_map.mpr ⟨e, List.dropLast_subset _ entry, is⟩
    hand := Hand.clean_nil _ _
    fed := fun f member => by
      rcases List.mem_append.mp member with old | new
      · exact session.fed f (List.dropLast_subset _ old)
      · obtain ⟨last, some_, rfl⟩ := List.mem_map.mp new
        exact session.fed last (List.mem_of_getLast? (Option.mem_toList.mp some_))
    spoken := by
      rw [giveUp_spoken]
      exact session.spoken }

/-- What every move keeps. -/
theorem Moves.session {x y : Agent × Hand} (move : Moves host e spent x y)
    (session : Session x.1 x.2) : Session y.1 y.2 := by
  cases move with
  | minor s h minor wasIdle =>
    refine session.of_keeps minor.keeps ?_ minor.backTx minor.tasks
      (congrArg Trace.acted minor.trace) session.hand rfl wasIdle
    intro p member
    rw [AgentStateMachine.pieces, minor.history] at member
    exact .inl member
  | arrive s h at_ past => exact { session with past }
  | close s h none_ empty gone =>
    exact { session with
      closed := fun _ => ⟨gone, empty, fun i member => by simp [none_] at member⟩
      past := fun _ => rfl }
  -- Taken from what was read early, or from the inbox: either way it is the oldest there is.
  | @takePending s b i rest waiting foreign =>
    refine session.taking rest (by rw [take_pending]) (by simp [waiting])
      (fun _ => by simp [waiting]) (fun j member => foreign j (List.mem_append_left _ member))
      rfl rfl rfl fun shut => ?_
    obtain ⟨hungUp, inbox, mine⟩ := session.closed shut
    exact ⟨inbox, fun j member => mine j (by simp [waiting, member])⟩
  | @takeInbox s b i rest none_ queued foreign =>
    have waits : (take (s.m, b) i).1.pending = [] := by rw [take_pending_eq, none_]
    refine session.taking (take (s.m, b) i).1.pending rfl
      (by rw [waits, none_, queued]; rfl) (fun own => ?_)
      (by rw [waits]; exact List.forall_mem_nil _) rfl rfl rfl fun shut => ?_
    · rw [foreign i (by simp)] at own
      cases own
    · have inbox := (session.closed shut).2.1
      rw [queued] at inbox
      cases inbox
  | read s b unread => exact session.read unread
  | watch s tick none_ => exact session.watch host _
  | drop s none_ wakes results =>
    exact { session with
      hand := Hand.clean_nil _ _
      spoken := by
        have spoken := session.spoken
        simp only [Hand.wakes, wakes] at spoken
        exact spoken }
  | hold s none_ wakes capped =>
    exact { session with
      held := fun r member => (List.mem_append.mp member).elim (session.held r) (session.hand.2 r)
      hand := Hand.clean_nil _ _
      spoken := by
        have spoken := session.spoken
        simp only [Hand.wakes, wakes] at spoken
        exact spoken }
  -- Reading early moves messages and loses none.
  | readEarly s h foreign =>
    exact { session with
      kept := by
        show s.m.trace.taken ++ (s.m.pending ++ s.inbox ++ []).filter (!·.own) = _
        rw [List.append_nil]
        exact session.kept
      mine := fun i member own => by
        rcases List.mem_append.mp member with old | new
        · exact session.mine i old own
        · rw [foreign i new] at own
          cases own
      closed := fun shut => by
        obtain ⟨hungUp, inbox, mine⟩ := session.closed shut
        refine ⟨hungUp, rfl, fun i member => ?_⟩
        rcases List.mem_append.mp member with old | new
        · exact mine i old
        · rw [inbox] at new
          cases new }
  | retry s t => exact { session with }
  | giveUp s t past => exact session.giveUp
  | done s t => exact { session with hand := Hand.clean_nil _ _ }
  -- One entry less is said, and the rest is as it was.
  | unsay s t =>
    exact { session with
      history := fun pieces member => by
        refine session.history pieces ?_
        obtain ⟨e, entry, is⟩ := List.mem_map.mp member
        exact List.mem_map.mpr ⟨e, List.dropLast_subset _ entry, is⟩ }
  | say s t who said_ =>
    have keeps : s.m.Keeps (s.m.say who said_) := by constructor <;> rfl
    refine session.of_keeps keeps (fun p member => ?_) rfl rfl rfl session.hand rfl s.wasIdle
    rw [AgentStateMachine.pieces, AgentStateMachine.say, List.map_append] at member
    exact (List.mem_append.mp member).imp id List.mem_singleton.mp
  | note s t c inbox current => exact session.note c inbox current
  | compact s h summary =>
    refine session.of_keeps (compact_keeps s.m summary) (fun p member => .inr ?_)
      rfl rfl rfl session.hand rfl s.wasIdle
    simpa [AgentStateMachine.pieces, AgentStateMachine.compact] using member
  | instant s t name out => exact session.instant name out
  | query s t c => exact session.query c
  | record s t c => exact session.record c
  | send s h foreign numbered => exact session.send foreign numbered
  | hangUp s h => exact { session with closed := fun shut => ⟨rfl, (session.closed shut).2⟩ }
  | lands s h flight out => exact session.lands flight out

theorem Asks.session {s s' : Agent} {b : Batch} (asked : Asks s b s')
    (session : Session s (.batch b)) : Session s' s'.hand := by
  cases asked with
  | check mo s =>
    have ready : Session { s with m := s.m.followUp } (.batch {}) := { session with }
    exact ready.think mo true
  | @followUp mo s b =>
    have ready : Session { s with m := (s.m.refund b).followUp } (.batch b) := { session with }
    exact ready.think mo false
  | @wake mo s b =>
    -- What was held goes in first.
    have ready : Session { s with m := ((s.m.refund b).unhold b).1 }
        (.batch ((s.m.refund b).unhold b).2) := { session with
      held := List.forall_mem_nil _
      hand := ⟨session.hand.1, fun r member =>
        (List.mem_append.mp member).elim (session.held r) (session.hand.2 r)⟩ }
    exact ready.think mo false

/-! ## Runs -/

theorem step_session (host : Host) {s : Agent} (settled : s.Settled) (e : Event)
    (session : Session s s.hand) : Session (s.step host e) (s.step host e).hand :=
  (step_steps host settled e).invariant (J := fun x => Session x.1 x.2)
    (fun _ _ move => move.session) (fun _ _ _ asked => asked.session) session

/-- Before anything was queued. -/
theorem Session.fresh {m : AgentStateMachine} (history : ∀ e ∈ m.history, e.pieces = [])
    (pending : m.pending = []) (held : m.held = []) (backTx : m.backTx = []) (tasks : m.tasks = [])
    (session : m.session = 0) (trace : m.trace = {}) : Session { m } (.batch {}) where
  numbered := by rw [trace]; rfl
  kept := by rw [trace, pending]; rfl
  mine := by rw [pending]; exact List.forall_mem_nil _
  counted := by rw [trace, session]; rfl
  history pieces member := by
    obtain ⟨e, entry, rfl⟩ := List.mem_map.mp member
    rw [history e entry]
    exact clean_nil _ _
  held := by rw [held]; exact List.forall_mem_nil _
  unread := by rw [backTx]; exact List.forall_mem_nil _
  flying := by rw [tasks]; exact List.forall_mem_nil _
  hand := Hand.clean_nil _ _
  fed := by rw [trace]; exact List.forall_mem_nil _
  spoken := by rw [AgentStateMachine.spoken, trace]; rfl
  acted := by rw [trace]; exact List.forall_mem_nil _
  closed := nofun
  past := nofun

theorem start_session (host : Host) (saved : Option Saved) :
    Session (start host saved) (start host saved).hand := by
  unfold start
  split
  · exact .fresh (List.forall_mem_nil _) rfl rfl rfl rfl rfl rfl
  · split
    · exact .fresh (List.forall_mem_nil _) rfl rfl rfl rfl rfl rfl
    · refine .fresh (fun e member => ?_) rfl rfl rfl rfl rfl rfl
      obtain ⟨row, _, rfl⟩ := List.mem_map.mp member
      rfl

/-- Sessions do not mix. A message, a query and a model call each know how many messages had
been queued before them, and so which side of a reset they are on. -/
structure Isolated (saved : Option Saved) (s : Agent) : Prop where
  /-- What is queued is taken in order and nothing of it is dropped. -/
  kept : s.m.trace.taken ++ s.m.pending ++ s.inbox = s.m.trace.sent
  /-- A message was queued before those after it. -/
  numbered : Numbered s.m.trace.sent
  /-- A session is what lies between two resets taken. -/
  counted : s.m.session = s.m.trace.taken.countP Inbound.isReset
  /-- Of what the model is asked with, no wake was queued before a reset that was taken. -/
  wakes : ∀ r ∈ s.m.trace.taken, r.isReset = true →
    ∀ w ∈ s.m.pieces.flatten.flatMap Piece.wakes, r.after < w.after
  /-- No row in it is of a query started before one was queued, or before one was taken. -/
  rows : ∀ row ∈ s.m.pieces.flatten.flatMap Piece.rows, row.asked.session = s.m.session ∧
    ∀ r ∈ s.m.trace.taken, r.isReset = true → r.after < row.asked.after
  /-- What a turn put to the model is its pieces and nothing else, but for rows that were aged. -/
  said : Voiced (fun f => f ∈ restored saved ∨ s.m.Tells f) s.m.toolBase s.m.history
  /-- No call of a turn was acted on with a reset queued since its model call was begun. -/
  calls : ∀ d ∈ s.m.trace.acted, ∀ r ∈ s.m.trace.sent, r.isReset = true →
    ¬(d.began ≤ r.after ∧ r.after < d.done)
  /-- Every wake taken since the last reset was put to the model, in order. -/
  put : s.m.spoken = sinceReset s.m.trace.taken
  /-- Nothing is left in the queue at the end. -/
  atEnd : s.at_ = .ended → s.m.trace.taken = s.m.trace.sent

theorem Session.isolated {saved : Option Saved} {s : Agent} (settled : s.Settled)
    (session : Session s s.hand) (told : Told (· ∈ restored saved) s s.hand) :
    Isolated saved s := by
  have kept : s.m.trace.taken ++ s.m.pending ++ s.inbox = s.m.trace.sent := by
    rw [List.append_assoc, ← session.kept, List.filter_eq_self.mpr]
    exact fun i member => by simp [settled.foreign i member]
  refine ⟨kept, session.numbered, session.counted, ?_, ?_, told.worded.entries, ?_, ?_, ?_⟩
  · intro r taken reset w member
    obtain ⟨piece, within, is⟩ := List.mem_flatMap.mp member
    obtain ⟨pieces, said_, here⟩ := List.mem_flatten.mp within
    exact (session.history pieces said_).1 w (List.mem_flatMap.mpr ⟨piece, here, is⟩) r taken reset
  · intro row member
    obtain ⟨piece, within, is⟩ := List.mem_flatMap.mp member
    obtain ⟨pieces, said_, here⟩ := List.mem_flatten.mp within
    exact (session.history pieces said_).2 row (List.mem_flatMap.mpr ⟨piece, here, is⟩)
  · rintro d acted r sent reset ⟨since, until_⟩
    exact absurd ((session.acted d acted).2 r sent reset until_) (not_lt.mpr since)
  · have spoken := session.spoken
    rw [hand_wakes] at spoken
    simpa using spoken
  · intro ended
    obtain ⟨hungUp, inbox, mine⟩ := session.closed (session.past ended)
    -- Once the inbox is closed only wakes of the loop's own could wait, and none of them is left.
    have none_ : s.m.pending = [] := by
      by_contra some_
      obtain ⟨i, member⟩ := List.exists_mem_of_ne_nil _ some_
      have foreign := settled.foreign i (List.mem_append_left _ member)
      rw [mine i member] at foreign
      cases foreign
    simpa [none_, inbox] using kept

/-- Nothing of an earlier session reaches the model or is acted on, and nothing that was queued
is lost, in every run. -/
theorem session_isolated (host : Host) (saved : Option Saved) (events : List Event) :
    Isolated saved (after host saved events) := by
  have kept : (after host saved events).Settled ∧
      Session (after host saved events) (after host saved events).hand :=
    Machine.run_keeps (fun s => s.Settled ∧ Session s s.hand)
      (fun s e inv => ⟨step_settled host inv.1 e, step_session host inv.1 e inv.2⟩)
      ⟨start_settled host saved, start_session host saved⟩
  exact kept.2.isolated kept.1 (after_told host saved events)

end Agent

end AkumaMiot

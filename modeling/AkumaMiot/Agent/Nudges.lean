import AkumaMiot.Agent.Budgets
import AkumaMiot.Agent.Feeding
import Mathlib.Data.List.Infix

/-!
# A model that only talks

With nothing in flight and nobody writing, what wakes the model is the watchdog's nudge, and what
gives it another turn is a check-in. A wake gives back the check-ins, and nothing gives back the
nudges but a query, a reset or a model call that failed.
-/
namespace AkumaMiot

namespace AgentStateMachine

/-! ## The budgets of talk -/

/-- The turns, the check-ins and the nudges are what they were, and what would bring on a turn. -/
structure Frugal (m m' : AgentStateMachine) : Prop where
  turnsFed : m'.turnsFed = m.turnsFed
  checkIns : m'.checkIns = m.checkIns
  checkArmed : m'.checkArmed = m.checkArmed
  localNudges : m'.localNudges = m.localNudges
  held : m'.held = m.held
  notices : m'.notices = m.notices

theorem Frugal.refl (m : AgentStateMachine) : Frugal m m := by constructor <;> rfl

theorem Frugal.trans {a b c : AgentStateMachine} (first : Frugal a b) (second : Frugal b c) :
    Frugal a c where
  turnsFed := second.turnsFed.trans first.turnsFed
  checkIns := second.checkIns.trans first.checkIns
  checkArmed := second.checkArmed.trans first.checkArmed
  localNudges := second.localNudges.trans first.localNudges
  held := second.held.trans first.held
  notices := second.notices.trans first.notices

theorem back_frugal (p : AgentStateMachine × List Row) (b : Back) : Frugal p.1 (back p b).1 := by
  obtain ⟨m, results⟩ := p
  cases b with
  | recordDone flight => constructor <;> rfl
  | result name out session flight asked =>
    by_cases current : session = m.session
    · subst current
      obtain ⟨queries, bg, live, running, eq⟩ := back_current m results name out flight asked
      rw [eq]
      constructor <;> rfl
    · obtain ⟨queries, bg, live, running, eq⟩ := back_stale m results name out current flight asked
      rw [eq]
      constructor <;> rfl

theorem backs_frugal (p : AgentStateMachine × List Row) (unread : List Back) :
    Frugal p.1 (unread.foldl back p).1 := by
  induction unread generalizing p with
  | nil => exact .refl p.1
  | cons x rest ih => exact (back_frugal p x).trans (ih _)

theorem act_frugal (host : Host) (mo : Moment) (totalTokens : Nat) (p : AgentStateMachine × Bool)
    (c : Call) : Frugal p.1 (act host mo totalTokens p c).1 := by
  unfold act
  simp only
  split
  · constructor <;> rfl
  · split
    · constructor <;> rfl
    · unfold dispatch
      split <;> constructor <;> rfl

theorem acts_frugal (host : Host) (mo : Moment) (totalTokens : Nat) (t : Thinking)
    (calls : List Call) (p : AgentStateMachine × Bool) :
    Frugal p.1
      (calls.foldl (fun p c => act host mo totalTokens (p.1.noteActed t c, p.2) c) p).1 := by
  induction calls generalizing p with
  | nil => exact .refl p.1
  | cons c calls ih =>
    have noted : Frugal p.1 (p.1.noteActed t c) := by constructor <;> rfl
    exact (noted.trans (act_frugal host mo totalTokens (p.1.noteActed t c, p.2) c)).trans (ih _)

theorem sayUnless_frugal (m : AgentStateMachine) (nothing : Bool) (who : Speaker) (said : String) :
    Frugal m (m.sayUnless nothing who said) := by
  cases nothing <;> constructor <;> rfl

theorem warn_frugal (m : AgentStateMachine) (pct : Nat) : Frugal m (m.warn pct) := by
  unfold warn
  split <;> constructor <;> rfl

/-- One of the loop's own wakes leaves no trace of having been taken. -/
theorem take_own (m : AgentStateMachine) (b : Batch) {w : Wake} (own : w.own = true) :
    take (m, b) (.wake w) = (m, { b with wakes := b.wakes ++ [w] }) := by
  simp only [take, own, if_true]

section Turn

variable (mo : Moment) (m : AgentStateMachine) (b : Batch) (check : Bool)

@[simp] theorem turn_localNudges : (m.turn mo b check).1.localNudges = m.localNudges := by
  unfold turn
  simp only
  rw [age_eq]
  rfl

@[simp] theorem turn_checkIns : (m.turn mo b check).1.checkIns =
    (if b.wakes ≠ [] then 0 else m.checkIns) + (if check then 1 else 0) := by
  unfold turn
  simp only
  rw [age_eq]
  rfl

@[simp] theorem turn_checkArmed : (m.turn mo b check).1.checkArmed = m.checkArmed := by
  unfold turn
  simp only
  rw [age_eq]
  rfl

@[simp] theorem turn_live : (m.turn mo b check).1.live = m.live := by
  unfold turn
  simp only
  rw [age_eq]
  rfl

@[simp] theorem turn_notices : (m.turn mo b check).1.notices = [] := by
  unfold turn
  simp only
  rw [age_eq]

end Turn

end AgentStateMachine

namespace Agent

open AgentStateMachine

variable {host : Host} {e : Event}

/-! ## No nudge but the watchdog's -/

/-- How many nudges one event has the watchdog send. -/
def nudges (host : Host) (s : Agent) : Event → Nat
  | .tick mo =>
    if s.at_ = .select ∧ s.m.localNudges < (s.m.watch host mo).localNudges then 1 else 0
  | _ => 0

/-- How many a run of events has it send. -/
def nudgesSent (host : Host) (s : Agent) : List Event → Nat
  | [] => 0
  | e :: events => nudges host s e + nudgesSent host (s.step host e) events

theorem take_localNudges (p : AgentStateMachine × Batch) (i : Inbound) :
    (take p i).1.localNudges ≤ p.1.localNudges := by
  cases i with
  | wake w => exact Nat.le_refl _
  | reset why n => exact Nat.zero_le _

theorem takes_localNudges (p : AgentStateMachine × Batch) (is : List Inbound) :
    (is.foldl take p).1.localNudges ≤ p.1.localNudges := by
  induction is generalizing p with
  | nil => exact Nat.le_refl _
  | cons i is ih => exact (ih _).trans (take_localNudges p i)

theorem deliver_localNudges (mo : Moment) (s : Agent) (b : Batch) :
    (deliver mo s b).m.localNudges = s.m.localNudges := by
  unfold deliver
  simp only
  split
  · rfl
  · split
    · split
      · rfl
      · exact turn_localNudges mo _ _ _
    · exact turn_localNudges mo _ _ _

theorem aggregate_localNudges (mo : Moment) (s : Agent) (b : Batch) :
    (aggregate mo s b).m.localNudges ≤ s.m.localNudges := by
  have read : ∀ (p : AgentStateMachine × Batch),
      (p.1.backTx.foldl back ({ p.1 with backTx := [] }, p.2.results)).1.localNudges =
        p.1.localNudges := fun p => (backs_frugal _ _).localNudges
  have taken := (takes_localNudges
    (s.m.pending.foldl take ({ s.m with pending := [] }, b)) s.inbox).trans
    (takes_localNudges ({ s.m with pending := [] }, b) s.m.pending)
  unfold aggregate
  simp only
  split
  · exact (read _).le.trans taken
  · rw [deliver_localNudges]
    exact (read _).le.trans taken

theorem wait_localNudges (mo : Moment) (s : Agent) :
    (wait mo s).m.localNudges ≤ s.m.localNudges := by
  unfold wait
  split
  · exact Nat.le_refl _
  · exact aggregate_localNudges mo s {}

theorem idle_localNudges (mo : Moment) (s : Agent) :
    (idle mo s).m.localNudges ≤ s.m.localNudges := by
  unfold idle
  split
  · split
    · exact Nat.le_refl _
    · split
      · exact wait_localNudges mo _
      · exact wait_localNudges mo s
  · exact wait_localNudges mo s

theorem top_localNudges (mo : Moment) (s : Agent) :
    (top mo s).m.localNudges ≤ s.m.localNudges := by
  unfold top
  simp only
  split
  · split
    · exact (turn_localNudges mo _ _ _).le
    · exact idle_localNudges mo _
  · exact idle_localNudges mo s

theorem recvInbox_localNudges (mo : Moment) (s : Agent) :
    (recvInbox mo s).m.localNudges ≤ s.m.localNudges := by
  unfold recvInbox
  split
  next i rest _ _ _ => exact (aggregate_localNudges mo _ _).trans (take_localNudges (s.m, {}) i)
  next i rest results _ _ _ =>
    rw [deliver_localNudges]
    exact take_localNudges (s.m, { results }) i
  · split
    · exact aggregate_localNudges mo _ _
    · exact Nat.le_refl _
  · split <;> exact Nat.le_refl _
  · exact Nat.le_refl _

theorem recvBack_localNudges (mo : Moment) (s : Agent) :
    (recvBack mo s).m.localNudges ≤ s.m.localNudges := by
  unfold recvBack
  split
  next x rest _ _ =>
    exact (aggregate_localNudges mo _ _).trans
      (back_frugal ({ s.m with backTx := rest }, []) x).localNudges.le
  next x rest results _ _ =>
    have read := (back_frugal ({ s.m with backTx := rest }, results) x).localNudges.le
    simp only
    split
    · exact read
    · rw [deliver_localNudges]
      exact read
  · exact Nat.le_refl _

theorem reckon_localNudges (host : Host) (t : Thinking) (answer : Turn) (startedNothing : Bool)
    (m : AgentStateMachine) :
    (m.reckon host t answer startedNothing).localNudges ≤ m.localNudges := by
  cases startedNothing with
  | true => exact Nat.le_refl _
  | false => exact Nat.zero_le _

theorem answered_localNudges (host : Host) (mo : Moment) (t : Thinking) (answer : Turn)
    (m : AgentStateMachine) : (m.answered host mo t answer).1.localNudges ≤ m.localNudges := by
  unfold answered
  simp only
  refine (reckon_localNudges host t answer _ _).trans ?_
  rw [(sayUnless_frugal _ _ _ _).localNudges,
    (acts_frugal host mo answer.totalTokens t answer.calls (_, false)).localNudges,
    (sayUnless_frugal m _ _ _).localNudges]

theorem replied_localNudges (host : Host) (mo : Moment) (s : Agent) (t : Thinking)
    (answer : Turn) : (s.replied host mo t answer).m.localNudges ≤ s.m.localNudges := by
  have answered := answered_localNudges host mo t answer
    ({ s with m := { s.m with lastTurnEnd := some mo.now } }.readEarly).m
  unfold replied
  simp only
  split
  · exact Nat.le_refl _
  · split
    · exact Nat.le_refl _
    · split
      · exact answered
      · split
        · exact answered
        · exact (warn_frugal _ _).localNudges.le.trans answered

theorem giveUp_localNudges (m : AgentStateMachine) (t : Thinking) :
    (m.giveUp t).localNudges ≤ m.localNudges := by
  unfold giveUp
  simp only
  split
  · exact Nat.sub_le _ _
  · exact Nat.le_refl _

theorem failed_localNudges (s : Agent) (t : Thinking) :
    (s.failed t).m.localNudges ≤ s.m.localNudges := by
  unfold failed
  simp only
  split
  · split
    · exact giveUp_localNudges _ t
    · exact Nat.le_refl _
  · exact giveUp_localNudges _ t

theorem watch_localNudges (host : Host) (mo : Moment) {m : AgentStateMachine}
    (within : m.localNudges ≤ MAX_LOCAL_TASK_NUDGES) :
    (m.watch host mo).localNudges ≤ MAX_LOCAL_TASK_NUDGES := by
  obtain ⟨m', notices, watched, eq⟩ := watch_watched host mo m
  rw [eq]
  cases watched with
  | nothing => exact within
  | released => exact within
  | nagged _ _ _ _ left => exact left

/-- The budget of nudges is never overdrawn. -/
theorem step_localNudges (host : Host) {s : Agent} (e : Event)
    (within : s.m.localNudges ≤ MAX_LOCAL_TASK_NUDGES) :
    (s.step host e).m.localNudges ≤ MAX_LOCAL_TASK_NUDGES := by
  unfold step
  split
  · unfold send
    split <;> exact within
  · unfold send
    split <;> exact within
  · exact within
  · unfold lands
    split <;> exact within
  -- Only a tick raises the count, and it looks at the budget first.
  · exact (top_localNudges _ s).trans within
  · exact (recvInbox_localNudges _ s).trans within
  · exact (recvBack_localNudges _ s).trans within
  next mo _ => exact (aggregate_localNudges mo _ _).trans (watch_localNudges host mo within)
  · rw [deliver_localNudges]
    exact within
  · exact (replied_localNudges host _ s _ _).trans within
  · exact (failed_localNudges s _).trans within
  · exact within
  · exact within
  · exact within

theorem after_localNudges (host : Host) (saved : Option Saved) (events : List Event) :
    (after host saved events).m.localNudges ≤ MAX_LOCAL_TASK_NUDGES := by
  have start_ : (start host saved).m.localNudges ≤ MAX_LOCAL_TASK_NUDGES := by
    unfold start
    split
    · exact Nat.zero_le _
    · split <;> exact Nat.zero_le _
  exact Machine.run_keeps (fun s : Agent => s.m.localNudges ≤ MAX_LOCAL_TASK_NUDGES)
    (fun _ e within => step_localNudges host e within) start_

/-! ## What has a buffer is a query -/

/-- Every flight with a buffer is a query's, still out or back and unread. -/
def Tracked (m : AgentStateMachine) : Prop :=
  ∀ f ∈ m.live,
    (∃ name session asked, Spawned.query f name session asked ∈ m.tasks) ∨
      ∃ name out session asked, Back.result name out session (some f) asked ∈ m.backTx

theorem Tracked.of_eq {m m' : AgentStateMachine} (tracked : Tracked m) (live : m'.live = m.live)
    (tasks : m'.tasks = m.tasks) (backTx : m'.backTx = m.backTx) : Tracked m' := by
  simpa only [Tracked, live, tasks, backTx] using tracked

theorem Tracked.read {m : AgentStateMachine} {results : List Row} {x : Back} {rest : List Back}
    (tracked : Tracked m) (unread : m.backTx = x :: rest) :
    Tracked { (back (m, results) x).1 with backTx := rest } := by
  -- What lands loses its buffer, so a flight that keeps one is not what was read.
  have lands : (back (m, results) x).1.tasks = m.tasks ∧
      ∀ f ∈ (back (m, results) x).1.live, f ∈ m.live ∧
        ∀ name out session asked, x ≠ .result name out session (some f) asked := by
    cases x with
    | recordDone flight =>
      refine ⟨rfl, fun f member => ⟨?_, nofun⟩⟩
      simp only [back, land, List.mem_filter] at member
      exact member.1
    | result name out session flight asked =>
      cases flight with
      | none =>
        by_cases current : session = m.session <;>
          simp [back, settleFlight, land, current]
      | some id =>
        have landed : (back (m, results) (.result name out session (some id) asked)).1.live =
              m.live.filter (· ≠ id) ∧
            (back (m, results) (.result name out session (some id) asked)).1.tasks = m.tasks := by
          by_cases current : session = m.session <;> by_cases background : id ∈ m.bg <;>
            simp [back, settleFlight, land, current, background]
        refine ⟨landed.2, fun f member => ?_⟩
        rw [landed.1, List.mem_filter] at member
        refine ⟨member.1, fun _ _ _ _ same => ?_⟩
        cases same
        simp at member
  intro f member
  obtain ⟨tasks, live⟩ := lands
  obtain ⟨was, other⟩ := live f member
  simp only [tasks]
  rcases tracked f was with task | ⟨name, out, session, asked, back_⟩
  · exact .inl task
  · rw [unread] at back_
    rcases List.mem_cons.mp back_ with here | later
    · exact absurd here.symm (other name out session asked)
    · exact .inr ⟨name, out, session, asked, later⟩

theorem Tracked.lands {s : Agent} (tracked : Tracked s.m) (flight : Nat) (out : ToolOut) :
    Tracked (s.lands flight out).m := by
  unfold Agent.lands
  split
  · exact tracked
  next task found =>
    intro f member
    rcases tracked f member with
      ⟨name, session, asked, flying⟩ | ⟨name, out, session, asked, unread⟩
    · rcases List.mem_cons.mp ((perm_cons_eraseP found).mem_iff.mp flying) with landed | still
      · refine .inr ⟨name, out, session, asked, List.mem_append_right _ ?_⟩
        rw [← landed]
        exact List.mem_singleton.mpr rfl
      · exact .inl ⟨name, session, asked, still⟩
    · exact .inr ⟨name, out, session, asked, List.mem_append_left _ unread⟩

variable {spent : Prop}

theorem Moves.tracked {x y : Agent × Hand} (move : Moves host e spent x y)
    (tracked : Tracked x.1.m) : Tracked y.1.m := by
  cases move with
  | minor s h minor => exact tracked.of_eq minor.live minor.tasks minor.backTx
  | @takePending s b i => cases i <;> exact tracked
  | @takeInbox s b i => cases i <;> exact tracked
  | read s b unread => exact tracked.read unread
  | watch s tick none_ =>
    obtain ⟨m', notices, watched, eq⟩ := watch_watched host _ s.m
    rw [eq]
    cases watched <;> exact tracked
  -- An instant result has no flight: it only joins what is unread.
  | instant s t name out =>
    intro f member
    rcases tracked f member with flying | ⟨name, out, session, asked, unread⟩
    · exact .inl flying
    · exact .inr ⟨name, out, session, asked, List.mem_append_left _ unread⟩
  | query s t c =>
    intro f member
    rcases List.mem_append.mp member with old | new
    · rcases tracked f old with ⟨name, session, asked, flying⟩ | unread
      · exact .inl ⟨name, session, asked, List.mem_append_left _ flying⟩
      · exact .inr unread
    -- The flight that has just taken off is that of the task behind it.
    · rw [List.mem_singleton.mp new]
      exact .inl ⟨_, _, _, List.mem_append_right _ (List.mem_singleton.mpr rfl)⟩
  | record s t c =>
    intro f member
    rcases tracked f member with ⟨name, session, asked, flying⟩ | unread
    · exact .inl ⟨name, session, asked, List.mem_append_left _ flying⟩
    · exact .inr unread
  | send s h =>
    unfold Agent.send
    split <;> exact tracked
  | lands s h flight out => exact tracked.lands flight out
  | _ => exact tracked

theorem Asks.tracked {s s' : Agent} {b : Batch} (asked : Asks s b s') (tracked : Tracked s.m) :
    Tracked s'.m := by
  have thought : ∀ (mo : Moment) (s : Agent) (b : Batch) (check : Bool), Tracked s.m →
      Tracked (think mo s b check).m := by
    intro mo s b check tracked
    obtain ⟨backTx, tasks, _⟩ := turn_flights mo { s.m with idleSince := none } b check
    exact tracked.of_eq (turn_live mo _ b check) tasks backTx
  cases asked with
  | check mo s => exact thought mo _ _ _ tracked
  | followUp mo s => exact thought mo _ _ _ tracked
  | wake mo s => exact thought mo _ _ _ tracked

theorem step_tracked (host : Host) {s : Agent} (settled : s.Settled) (e : Event)
    (tracked : Tracked s.m) : Tracked (s.step host e).m :=
  (step_steps host settled e).invariant (J := fun x => Tracked x.1.m)
    (fun _ _ move => move.tracked) (fun _ _ _ asked => asked.tracked) tracked

theorem after_tracked (host : Host) (saved : Option Saved) (events : List Event) :
    Tracked (after host saved events).m := by
  have start_ : Tracked (start host saved).m := by
    unfold start
    split
    · exact nofun
    · split <;> exact nofun
  have both : ((after host saved events).Settled ∧ Tracked (after host saved events).m) :=
    Machine.run_keeps (fun s : Agent => s.Settled ∧ Tracked s.m)
      (fun _ e kept => ⟨step_settled host kept.1 e, step_tracked host kept.1 e kept.2⟩)
      ⟨start_settled host saved, start_⟩
  exact both.2

/-! ## What was taken -/

theorem takes_taken (p : AgentStateMachine × Batch) (is : List Inbound) :
    (is.foldl take p).1.trace.taken = p.1.trace.taken ++ is.filter fun i => !i.own := by
  induction is generalizing p with
  | nil => exact (List.append_nil _).symm
  | cons i is ih =>
    rw [List.foldl_cons, ih]
    cases i with
    | wake w => cases own : w.own <;> simp [take, Inbound.own, own]
    | reset why n => simp [take, Inbound.own]

theorem deliver_taken (mo : Moment) (s : Agent) (b : Batch) :
    (deliver mo s b).m.trace.taken = s.m.trace.taken := by
  unfold deliver
  simp only
  split
  · rfl
  · split
    · split
      · rfl
      · exact turn_taken mo _ _ _
    · exact turn_taken mo _ _ _

theorem aggregate_taken (mo : Moment) (s : Agent) (b : Batch) :
    (aggregate mo s b).m.trace.taken =
      s.m.trace.taken ++ (s.m.pending ++ s.inbox).filter fun i => !i.own := by
  have taken := takes_taken ({ s.m with pending := [] }, b) (s.m.pending ++ s.inbox)
  rw [List.foldl_append] at taken
  have read : ∀ (p : AgentStateMachine × Batch),
      (p.1.backTx.foldl back ({ p.1 with backTx := [] }, p.2.results)).1.trace.taken =
        p.1.trace.taken := fun p => (reads_keep _ _).taken
  unfold aggregate
  simp only
  split
  · exact (read _).trans taken
  · rw [deliver_taken]
    exact (read _).trans taken

/-! ## A turn that answers a wake -/

/-- A turn has just begun for a wake, with all that was held back. -/
structure Woken (s : Agent) : Prop where
  held : s.m.held = []
  notices : s.m.notices = []
  checkIns : s.m.checkIns = 0
  asks : ∃ t, s.at_ = .converse t

theorem deliver_woken (mo : Moment) (s : Agent) {b : Batch} (wakes : b.wakes ≠ []) :
    Woken (deliver mo s b) ∧ (deliver mo s b).m.turnsFed = s.m.turnsFed + 1 := by
  unfold deliver
  simp only [wakes, false_and, if_false]
  refine ⟨⟨turn_held mo _ _ _, turn_notices mo _ _ _, ?_, ⟨_, rfl⟩⟩, turn_turnsFed mo _ _ _⟩
  exact (turn_checkIns mo _ _ _).trans (by simp [unhold, wakes])

/-- If the last message taken is a wake, there is a wake in hand. -/
theorem takes_woken {is more : List Inbound} {w : Wake} (p : AgentStateMachine × Batch)
    (last : (is.filter fun i => !i.own) = more ++ [.wake w]) :
    (is.foldl take p).2.wakes ≠ [] := by
  rcases List.eq_nil_or_concat is with rfl | ⟨front, i, rfl⟩
  · simp at last
  · rw [List.concat_eq_append, List.foldl_append, List.foldl_cons, List.foldl_nil]
    cases i with
    | wake v => simp [take]
    | reset why n =>
      rw [List.concat_eq_append, List.filter_append] at last
      have ends := congrArg List.getLast? last
      simp [Inbound.own] at ends

/-- More was taken than this, and a wake last. -/
def Took (taken : List Inbound) (s : Agent) : Prop :=
  ∃ more w, s.m.trace.taken = taken ++ (more ++ [.wake w])

theorem Took.not_same {taken : List Inbound} {s : Agent} (took : Took taken s) :
    s.m.trace.taken ≠ taken := by
  obtain ⟨more, w, grown⟩ := took
  intro same
  simpa [same] using congrArg List.length grown

theorem Took.of_eq {before taken : List Inbound} {s : Agent} (same : before = taken)
    (took : Took taken s) : Took before s := same ▸ took

theorem gathered_woken (mo : Moment) (s : Agent) (b : Batch)
    (wakes : ((s.m.pending ++ s.inbox).foldl take ({ s.m with pending := [] }, b)).2.wakes ≠ []) :
    Woken (aggregate mo s b) := by
  rw [List.foldl_append] at wakes
  unfold aggregate
  simp only [wakes, false_and, if_false]
  refine (deliver_woken mo _ ?_).1
  exact wakes

theorem aggregate_woken (mo : Moment) (s : Agent) (b : Batch)
    (took : Took s.m.trace.taken (aggregate mo s b)) : Woken (aggregate mo s b) := by
  obtain ⟨more, w, grown⟩ := took
  rw [aggregate_taken] at grown
  exact gathered_woken mo s b (takes_woken _ (List.append_cancel_left grown))

theorem wait_woken (mo : Moment) (s : Agent) (took : Took s.m.trace.taken (wait mo s)) :
    Woken (wait mo s) := by
  unfold wait at took ⊢
  split
  next none_ =>
    rw [if_pos none_] at took
    exact absurd rfl took.not_same
  next waiting =>
    rw [if_neg waiting] at took
    exact aggregate_woken mo s {} took

theorem idle_woken (mo : Moment) (s : Agent) (took : Took s.m.trace.taken (idle mo s)) :
    Woken (idle mo s) := by
  unfold idle at took ⊢
  split
  next still =>
    rw [if_pos still] at took
    split
    next closed =>
      rw [if_pos closed] at took
      -- The loop is over, and takes nothing.
      exact absurd rfl took.not_same
    next opened =>
      rw [if_neg opened] at took
      split
      next fresh =>
        rw [if_pos fresh] at took
        exact wait_woken mo _ took
      next old =>
        rw [if_neg old] at took
        exact wait_woken mo s took
  next busy =>
    rw [if_neg busy] at took
    exact wait_woken mo s took

theorem top_woken (mo : Moment) (s : Agent) (took : Took s.m.trace.taken (top mo s)) :
    Woken (top mo s) := by
  unfold top at took ⊢
  simp only at took ⊢
  split
  next armed =>
    rw [if_pos armed] at took
    split
    next ready =>
      rw [if_pos ready] at took
      exact absurd (turn_taken mo _ _ _) took.not_same
    next waiting =>
      rw [if_neg waiting] at took
      exact idle_woken mo _ took
  next unarmed =>
    rw [if_neg unarmed] at took
    exact idle_woken mo s took

theorem recvInbox_woken (mo : Moment) (s : Agent) (took : Took s.m.trace.taken (recvInbox mo s)) :
    Woken (recvInbox mo s) := by
  have one := fun (b : Batch) (i : Inbound) => takes_taken (s.m, b) [i]
  revert took
  unfold recvInbox
  split
  next i rest _ _ _ =>
    rintro ⟨more, w, grown⟩
    have all : (take (s.m, {}) i).1.trace.taken = _ := one {} i
    simp only [aggregate_taken, take_pending_eq, all, List.append_assoc] at grown
    -- What was taken beyond the first is what ends with the wake.
    have last := List.append_cancel_left grown
    rw [← List.filter_append, List.singleton_append] at last
    refine gathered_woken mo { s with m := (take (s.m, {}) i).1, inbox := rest }
      (take (s.m, {}) i).2 ?_
    have wakes := takes_woken ({ s.m with pending := [] }, ({} : Batch)) last
    rw [List.foldl_cons, take_pending s.m {} i []] at wakes
    simpa only [take_pending_eq] using wakes
  next i rest results _ _ _ =>
    rintro ⟨more, w, grown⟩
    have all : (take (s.m, { results }) i).1.trace.taken = _ := one { results } i
    simp only [deliver_taken, all] at grown
    -- Nothing more is gathered: the batch goes out as it stands.
    have wakes := takes_woken (s.m, ({ results } : Batch)) (List.append_cancel_left grown)
    exact (deliver_woken mo _ wakes).1
  · split
    · exact aggregate_woken mo _ {}
    · exact fun took => absurd rfl took.not_same
  · split
    · exact fun took => absurd rfl took.not_same
    · exact fun took => absurd rfl took.not_same
  · exact fun took => absurd rfl took.not_same

theorem recvBack_woken (mo : Moment) (s : Agent) (took : Took s.m.trace.taken (recvBack mo s)) :
    Woken (recvBack mo s) := by
  revert took
  unfold recvBack
  split
  next x rest _ _ =>
    intro took
    have same := (back_keeps ({ s.m with backTx := rest }, []) x).taken
    exact aggregate_woken mo _ _ (.of_eq same took)
  next x rest results _ _ =>
    have same := (back_keeps ({ s.m with backTx := rest }, results) x).taken
    simp only
    split
    · exact fun took => absurd same took.not_same
    · exact fun took => absurd ((deliver_taken mo _ _).trans same) took.not_same
  · exact fun took => absurd rfl took.not_same

theorem watch_taken (host : Host) (mo : Moment) (m : AgentStateMachine) :
    (m.watch host mo).trace.taken = m.trace.taken := by
  obtain ⟨m', notices, watched, eq⟩ := watch_watched host mo m
  rw [eq]
  cases watched <;> rfl

theorem replied_taken (host : Host) (mo : Moment) (s : Agent) (t : Thinking) (answer : Turn) :
    (s.replied host mo t answer).m.trace.taken = s.m.trace.taken := by
  have answered := (answered_keeps host mo t answer
    ({ s with m := { s.m with lastTurnEnd := some mo.now } }.readEarly).m).taken
  unfold replied
  simp only
  split
  · rfl
  · split
    · rfl
    · split
      · exact answered
      · split
        · exact answered
        · exact (congrArg Trace.taken (warn_minor _ _).trace).trans answered

/-- A step that takes somebody's wake last begins that wake's turn. -/
theorem step_woken (host : Host) {s : Agent} {e : Event}
    (took : Took s.m.trace.taken (s.step host e)) : Woken (s.step host e) := by
  -- Where nothing is taken there is nothing to show.
  have still : ∀ {r : Agent}, r.m.trace.taken = s.m.trace.taken → Took s.m.trace.taken r →
      Woken r := fun same took => absurd same took.not_same
  revert took
  unfold step
  split
  · refine still ?_
    unfold send
    split <;> rfl
  · refine still ?_
    unfold send
    split <;> rfl
  · exact still rfl
  · refine still ?_
    unfold lands
    split <;> rfl
  · exact top_woken _ s
  · exact recvInbox_woken _ s
  · exact recvBack_woken _ s
  next mo _ =>
    intro took
    exact aggregate_woken mo _ {} (.of_eq (watch_taken host mo s.m) took)
  · exact still (deliver_taken _ _ _)
  · exact still (replied_taken host _ s _ _)
  · refine still ?_
    unfold failed
    simp only
    split
    · split <;> rfl
    · rfl
  · exact still rfl
  · exact still rfl
  · exact still rfl

/-! ## A step of talk -/

/-- No query is out, and no result of one waits to be read. -/
def Silent (m : AgentStateMachine) : Prop :=
  (∀ t ∈ m.tasks, t.asked = []) ∧ ∀ b ∈ m.backTx, b.asked = []

instance (m : AgentStateMachine) : Decidable (Silent m) := inferInstanceAs (Decidable (_ ∧ _))

theorem Silent.of_eq {m m' : AgentStateMachine} (silent : Silent m') (tasks : m'.tasks = m.tasks)
    (backTx : m'.backTx = m.backTx) : Silent m := ⟨tasks ▸ silent.1, backTx ▸ silent.2⟩

/-- The model is left alone: nothing is there to be fed, and the check-ins are within bounds. -/
structure Chatting (s : Agent) : Prop where
  held : s.m.held = []
  notices : s.m.notices = []
  alone : ∀ results, s.at_ ≠ .collect results
  works : ∀ t, s.at_ ≠ .retry t
  armed : s.m.checkArmed = true → s.m.checkIns < MAX_CHECK_INS
  checkIns : s.m.checkIns ≤ MAX_CHECK_INS

/-- Every turn is a check-in, or one of those that a nudge sent meanwhile is good for. -/
structure Spent (sent : Nat) (m m' : AgentStateMachine) : Prop where
  nudges : m'.localNudges = m.localNudges + sent
  turns : m'.turnsFed + m.checkIns ≤ m.turnsFed + m'.checkIns + (1 + MAX_CHECK_INS) * sent

theorem Spent.trans {sent more : Nat} {a b c : AgentStateMachine} (first : Spent sent a b)
    (second : Spent more b c) : Spent (sent + more) a c := by
  refine ⟨by rw [second.nudges, first.nudges, Nat.add_assoc], ?_⟩
  have turns := first.turns
  have turns' := second.turns
  rw [Nat.mul_add]
  omega

/-- A step that leaves the model to its talk, and the nudges it sent. -/
def Chats (sent : Nat) (s s' : Agent) : Prop := Chatting s' ∧ Spent sent s.m s'.m

theorem Chatting.stays {s s' : Agent} (chatting : Chatting s) (frugal : s.m.Frugal s'.m)
    (here : (∀ results, s'.at_ ≠ .collect results) ∧ ∀ t, s'.at_ ≠ .retry t) : Chats 0 s s' := by
  refine ⟨⟨frugal.held.trans chatting.held, frugal.notices.trans chatting.notices, here.1, here.2,
    ?_, ?_⟩, frugal.localNudges, ?_⟩
  · rw [frugal.checkArmed, frugal.checkIns]
    exact chatting.armed
  · rw [frugal.checkIns]
    exact chatting.checkIns
  · rw [frugal.turnsFed, frugal.checkIns]
    exact Nat.le_refl _

theorem Chats.from_ {sent : Nat} {r s s' : Agent} (chats : Chats sent r s')
    (same : r.m.localNudges = s.m.localNudges ∧ r.m.checkIns = s.m.checkIns ∧
      r.m.turnsFed = s.m.turnsFed) : Chats sent s s' := by
  obtain ⟨chatting, nudges, turns⟩ := chats
  obtain ⟨nudges', checkIns, turnsFed⟩ := same
  exact ⟨chatting, nudges' ▸ nudges, checkIns ▸ turnsFed ▸ turns⟩

theorem Chats.trans {sent more : Nat} {s r s' : Agent} (first : Chats sent s r)
    (second : Chats more r s') : Chats (sent + more) s s' := ⟨second.1, first.2.trans second.2⟩

theorem Chats.stays {sent : Nat} {s r s' : Agent} (chats : Chats sent s r)
    (frugal : r.m.Frugal s'.m)
    (here : (∀ results, s'.at_ ≠ .collect results) ∧ ∀ t, s'.at_ ≠ .retry t) :
    Chats sent s s' := chats.trans (chats.1.stays frugal here)

theorem Chatting.keeps {s : Agent} {m : AgentStateMachine} (chatting : Chatting s)
    (frugal : s.m.Frugal m) : Chatting { s with m } := by
  have stay : Chats 0 s { s with m } := chatting.stays frugal ⟨chatting.alone, chatting.works⟩
  exact stay.1

theorem backs_silent (p : AgentStateMachine × List Row) {unread : List Back}
    (records : ∀ b ∈ unread, b.asked = []) : (unread.foldl back p).2 = p.2 := by
  induction unread generalizing p with
  | nil => rfl
  | cons x rest ih =>
    rw [List.foldl_cons, ih _ fun b member => records b (List.mem_cons_of_mem x member)]
    cases x with
    | recordDone flight => rfl
    | result name out session flight asked =>
      cases records (.result name out session flight asked) (List.mem_cons_self ..)

theorem deliver_nothing (mo : Moment) {s : Agent} (quiet : s.m.notices = []) :
    deliver mo s {} = { s with m := s.m.refund {}, at_ := .top } := if_pos ⟨rfl, rfl, quiet⟩

/-- Nothing came in, so nothing is done. -/
theorem aggregate_chats (mo : Moment) {s : Agent} (chatting : Chatting s)
    (records : ∀ b ∈ s.m.backTx, b.asked = []) (none_ : s.m.pending = []) (empty : s.inbox = []) :
    Chats 0 s (aggregate mo s {}) := by
  have nothing := backs_silent ({ s.m with pending := [], backTx := [] }, []) records
  have read := backs_frugal ({ s.m with pending := [], backTx := [] }, []) s.m.backTx
  unfold aggregate
  simp only [none_, empty, List.foldl_nil, nothing, ne_eq, not_true, false_and, and_false,
    if_false]
  rw [deliver_nothing mo (read.notices.trans chatting.notices)]
  exact chatting.stays ⟨read.turnsFed, read.checkIns, read.checkArmed, read.localNudges, read.held,
    read.notices⟩ ⟨nofun, nofun⟩

/-- With nobody's message taken, none was there. -/
theorem none_taken {s : Agent} {b : Batch} {mo : Moment}
    (same : (aggregate mo s b).m.trace.taken = s.m.trace.taken) :
    ∀ i ∈ s.m.pending ++ s.inbox, i.own = true := by
  rw [aggregate_taken, List.append_right_eq_self, List.filter_eq_nil_iff] at same
  exact fun i member => by simpa using same i member

theorem nobody {is : List Inbound} (own : ∀ i ∈ is, i.own = true)
    (foreign : ∀ i ∈ is, i.own = false) : is = [] := by
  refine List.eq_nil_iff_forall_not_mem.mpr fun i member => ?_
  exact Bool.false_ne_true ((foreign i member).symm.trans (own i member))

theorem wait_chats (mo : Moment) {s : Agent} (chatting : Chatting s)
    (records : ∀ b ∈ s.m.backTx, b.asked = [])
    (foreign : ∀ i ∈ s.m.pending ++ s.inbox, i.own = false)
    (same : (wait mo s).m.trace.taken = s.m.trace.taken) : Chats 0 s (wait mo s) := by
  revert same
  unfold wait
  split
  · exact fun _ => chatting.stays (.refl _) ⟨nofun, nofun⟩
  · intro same
    obtain ⟨none_, empty⟩ := List.append_eq_nil_iff.mp (nobody (none_taken same) foreign)
    exact aggregate_chats mo chatting records none_ empty

theorem idle_chats (mo : Moment) {s : Agent} (chatting : Chatting s)
    (records : ∀ b ∈ s.m.backTx, b.asked = [])
    (foreign : ∀ i ∈ s.m.pending ++ s.inbox, i.own = false)
    (same : (idle mo s).m.trace.taken = s.m.trace.taken) : Chats 0 s (idle mo s) := by
  revert same
  unfold idle
  split
  · split
    · exact fun _ => chatting.stays (.refl _) ⟨nofun, nofun⟩
    · split
      · intro same
        have timed : Chatting { s with
            wasIdle := true, m := { s.m with idleSince := some mo.now } } :=
          ⟨chatting.held, chatting.notices, chatting.alone, chatting.works, chatting.armed,
            chatting.checkIns⟩
        exact (wait_chats mo timed records foreign same).from_ ⟨rfl, rfl, rfl⟩
      · exact wait_chats mo chatting records foreign
  · exact wait_chats mo chatting records foreign

/-- A check-in is a turn, and counted as one. -/
theorem Chatting.check {s : Agent} (chatting : Chatting s) (mo : Moment)
    (left : s.m.checkIns < MAX_CHECK_INS) (disarmed : s.m.checkArmed = false) :
    Chats 0 s (think mo s {} true) := by
  have counted : (think mo s {} true).m.checkIns = s.m.checkIns + 1 := turn_checkIns mo _ {} true
  have still : (think mo s {} true).m.checkArmed = false :=
    (turn_checkArmed mo _ {} true).trans disarmed
  refine ⟨⟨(turn_held mo _ {} true).trans chatting.held, turn_notices mo _ {} true, nofun, nofun,
    fun armed => ?_, ?_⟩, turn_localNudges mo _ {} true, ?_⟩
  · rw [still] at armed
    cases armed
  · rw [counted]
    exact left
  · rw [counted, think_turnsFed]
    omega

theorem top_chats (mo : Moment) {s : Agent} (chatting : Chatting s)
    (records : ∀ b ∈ s.m.backTx, b.asked = [])
    (foreign : ∀ i ∈ s.m.pending ++ s.inbox, i.own = false)
    (same : (top mo s).m.trace.taken = s.m.trace.taken) : Chats 0 s (top mo s) := by
  revert same
  unfold top
  simp only
  split
  next ready =>
    split
    · -- The check-in it was armed for is one of those left.
      intro _
      have disarmed : Chatting { s with m := { s.m with
          checkArmed := false, pending := s.m.pending ++ s.inbox }.followUp, inbox := [] } :=
        ⟨chatting.held, chatting.notices, chatting.alone, chatting.works, nofun,
          chatting.checkIns⟩
      exact (disarmed.check mo (chatting.armed ready.1) rfl).from_ ⟨rfl, rfl, rfl⟩
    · intro same
      have disarmed : Chatting { s with
          m := { s.m with checkArmed := false, pending := s.m.pending ++ s.inbox }, inbox := [] } :=
        ⟨chatting.held, chatting.notices, chatting.alone, chatting.works, nofun,
          chatting.checkIns⟩
      exact (idle_chats mo disarmed records (by simpa using foreign) same).from_ ⟨rfl, rfl, rfl⟩
  · exact idle_chats mo chatting records foreign

theorem recvInbox_chats (mo : Moment) {s : Agent} (chatting : Chatting s)
    (records : ∀ b ∈ s.m.backTx, b.asked = []) (settled : s.Settled)
    (same : (recvInbox mo s).m.trace.taken = s.m.trace.taken) : Chats 0 s (recvInbox mo s) := by
  have stay : Chats 0 s s := chatting.stays (.refl _) ⟨chatting.alone, chatting.works⟩
  revert same
  unfold recvInbox
  split
  next i rest _ queued here =>
    intro same
    have foreign := settled.foreign i (by simp [queued])
    -- What is queued is foreign, so taking it would show among what was taken.
    have all : (take (s.m, {}) i).1.trace.taken = _ := takes_taken (s.m, {}) [i]
    simp [aggregate_taken, all, foreign] at same
  next results _ _ here => exact absurd here (chatting.alone _)
  next _ empty here =>
    split
    · intro same
      have closed : Chatting { s with opened := false } :=
        ⟨chatting.held, chatting.notices, chatting.alone, chatting.works, chatting.armed,
          chatting.checkIns⟩
      exact (aggregate_chats mo closed records (settled.none_ (.inl here)) empty).from_
        ⟨rfl, rfl, rfl⟩
    · exact fun _ => stay
  next results _ _ here => exact absurd here (chatting.alone _)
  · exact fun _ => stay

theorem recvBack_chats (mo : Moment) {s : Agent} (chatting : Chatting s)
    (records : ∀ b ∈ s.m.backTx, b.asked = []) (settled : s.Settled)
    (same : (recvBack mo s).m.trace.taken = s.m.trace.taken) : Chats 0 s (recvBack mo s) := by
  revert same
  unfold recvBack
  split
  next x rest unread here =>
    intro same
    have others : ∀ b ∈ rest, b.asked = [] := fun b member =>
      records b (by rw [unread]; exact List.mem_cons_of_mem x member)
    cases x with
    -- A chatting agent asked nothing that could come back.
    | result name out session flight asked =>
      cases records (.result name out session flight asked) (by rw [unread]; simp)
    | recordDone flight =>
      have read := back_frugal ({ s.m with backTx := rest }, []) (.recordDone flight)
      have landed : Chatting { s with
          m := (back ({ s.m with backTx := rest }, []) (.recordDone flight)).1 } :=
        chatting.keeps ⟨read.turnsFed, read.checkIns, read.checkArmed, read.localNudges, read.held,
          read.notices⟩
      obtain ⟨none_, empty⟩ :=
        List.append_eq_nil_iff.mp (nobody (none_taken same) settled.foreign)
      exact (aggregate_chats mo landed others none_ empty).from_ ⟨rfl, rfl, rfl⟩
  next x rest results _ here => exact absurd here (chatting.alone _)
  · exact fun _ => chatting.stays (.refl _) ⟨chatting.alone, chatting.works⟩

/-! ### The watchdog -/

theorem watch_quiet (host : Host) (mo : Moment) {m : AgentStateMachine} (none_ : m.live = []) :
    (m.watch host mo).notices = m.notices := by
  have kept : ∀ {m m' : AgentStateMachine}, Watched host mo m m' →
      m'.live = m.live ∧ m'.notices = m.notices := by
    intro m m' watched
    cases watched <;> exact ⟨rfl, rfl⟩
  have first := kept (maybeReleaseHeld_watched host mo m).1
  have second := kept (maybeNag_watched host mo (m.maybeReleaseHeld host mo).2)
  unfold watch
  simp only
  split <;> simp [runningQueries, first, second, none_]

/-- With nothing held back and nothing running, a tick does nothing or nudges. -/
theorem watch_cases (host : Host) (mo : Moment) {m : AgentStateMachine} (held : m.held = [])
    (none_ : m.live = []) :
    m.watch host mo = m ∨
      ∃ text, m.localNudges < MAX_LOCAL_TASK_NUDGES ∧
        m.watch host mo = { { m with localNudges := m.localNudges + 1 }.queueOwn text with
          lastUnfulfilledPromise := none
          awaitingNudgeReply := true
          idleSince := some mo.now } := by
  have quiet := watch_quiet host mo none_
  obtain ⟨m', notices, watched, eq⟩ := watch_watched host mo m
  rw [eq] at quiet ⊢
  simp only at quiet
  subst quiet
  cases watched with
  | nothing => exact .inl rfl
  | released text some_ => exact absurd held some_
  | nagged text reminder nag some_ left => exact .inr ⟨text, left, rfl⟩

/-- A nudge is a wake of its own, and gets a turn of its own. -/
theorem nudged_chats (mo : Moment) {s : Agent} {w : Wake} (own : w.own = true)
    (waiting : s.m.pending = [.wake w]) (empty : s.inbox = []) :
    Woken (aggregate mo s {}) ∧ (aggregate mo s {}).m.turnsFed = s.m.turnsFed + 1 ∧
      (aggregate mo s {}).m.localNudges = s.m.localNudges := by
  have read := backs_frugal ({ s.m with pending := [], backTx := [] }, []) s.m.backTx
  refine ⟨gathered_woken mo s {} (by simp [waiting, empty, take]), ?_⟩
  unfold aggregate
  simp only [waiting, empty, List.foldl_cons, List.foldl_nil, take_own _ _ own, List.nil_append,
    List.cons_ne_nil, false_and, if_false]
  exact ⟨(deliver_woken mo _ (List.cons_ne_nil _ _)).2.trans (congrArg (· + 1) read.turnsFed),
    (deliver_localNudges mo _ _).trans read.localNudges⟩

theorem tick_chats (host : Host) (mo : Moment) {s : Agent} (chatting : Chatting s)
    (silent : Silent s.m) (tracked : Tracked s.m) (settled : s.Settled) (here : s.at_ = .select)
    (same : (aggregate mo { s with m := s.m.watch host mo } {}).m.trace.taken =
      s.m.trace.taken) :
    Chats (nudges host s (.tick mo)) s (aggregate mo { s with m := s.m.watch host mo } {}) := by
  have none_ := settled.none_ (.inl here)
  have live : s.m.live = [] := by
    refine List.eq_nil_iff_forall_not_mem.mpr fun f member => ?_
    rcases tracked f member with ⟨_, _, _, flying⟩ | ⟨_, _, _, _, unread⟩
    · cases silent.1 _ flying
    · cases silent.2 _ unread
  have foreign : ∀ i ∈ s.inbox, i.own = false := fun i member =>
    settled.foreign i (List.mem_append_right _ member)
  have empty : s.inbox = [] := nobody (fun i member =>
    none_taken (s := { s with m := s.m.watch host mo }) (same.trans (watch_taken host mo s.m).symm)
      i (List.mem_append_right _ member)) foreign
  rcases watch_cases host mo chatting.held live with still | ⟨text, left, nudged⟩
  · have none_sent : nudges host s (.tick mo) = 0 := by
      simp only [nudges, still, Nat.lt_irrefl, and_false, if_false]
    rw [still, none_sent]
    exact aggregate_chats mo chatting silent.2 none_ empty
  · have sent : nudges host s (.tick mo) = 1 := by
      simp only [nudges, nudged, here, queueOwn, Nat.lt_add_one, and_self, if_true]
    have waiting : (s.m.watch host mo).pending =
        [.wake ⟨text, s.m.kinds.getLast?.getD "said", s.m.trace.sent.length, true⟩] := by
      simp only [nudged, queueOwn, none_, List.nil_append]
    obtain ⟨woken, turnsFed, localNudges⟩ :=
      nudged_chats mo (s := { s with m := s.m.watch host mo }) rfl waiting empty
    obtain ⟨t, thinks⟩ := woken.asks
    -- The check-ins forgotten are no more than those the nudge pays for.
    have capped := chatting.checkIns
    refine ⟨⟨woken.held, woken.notices, by simp [thinks], by simp [thinks],
      fun _ => by rw [woken.checkIns]; decide, by rw [woken.checkIns]; exact Nat.zero_le _⟩, ?_, ?_⟩
    · rw [localNudges, sent, nudged]
      rfl
    · rw [turnsFed, sent, woken.checkIns, nudged]
      simp only [queueOwn]
      omega

/-! ### Replies -/

/-- A call that leaves no query behind started none. -/
theorem act_silent {host : Host} {mo : Moment} {totalTokens : Nat} {p : AgentStateMachine × Bool}
    {c : Call} (silent : Silent (act host mo totalTokens p c).1) :
    Silent p.1 ∧ (act host mo totalTokens p c).1.queries = p.1.queries := by
  have fedBack : ∀ {m : AgentStateMachine} {name : String} {out : ToolOut},
      ¬ Silent (m.instant name out) := by
    intro m name out silent
    cases silent.2 _ (List.mem_append_right m.backTx (List.mem_singleton.mpr rfl))
  revert silent
  unfold act
  simp only
  split
  · exact fun silent => ⟨silent, rfl⟩
  · split
    · exact fun silent => absurd silent fedBack
    · unfold dispatch
      split
      · intro silent
        cases silent.1 _ (List.mem_append_right p.1.tasks (List.mem_singleton.mpr rfl))
      · refine fun silent => ⟨⟨fun t member => ?_, silent.2⟩, rfl⟩
        exact silent.1 t (List.mem_append_left _ member)
      · exact fun silent => absurd silent fedBack

theorem acts_silent {host : Host} {mo : Moment} {totalTokens : Nat} {t : Thinking}
    (calls : List Call) (p : AgentStateMachine × Bool)
    (silent : Silent
      (calls.foldl (fun p c => act host mo totalTokens (p.1.noteActed t c, p.2) c) p).1) :
    Silent p.1 ∧
      (calls.foldl (fun p c => act host mo totalTokens (p.1.noteActed t c, p.2) c) p).1.queries =
        p.1.queries := by
  induction calls generalizing p with
  | nil => exact ⟨silent, rfl⟩
  | cons c calls ih =>
    obtain ⟨after, queries⟩ := ih _ silent
    obtain ⟨before, queries'⟩ := act_silent after
    exact ⟨before, queries.trans queries'⟩

/-- A reckoning of a turn that started nothing: a check-in is asked for only where one is left. -/
theorem reckon_chats {host : Host} {t : Thinking} {answer : Turn} {s : Agent}
    (chatting : Chatting s) : Chats 0 s { s with m := s.m.reckon host t answer true } := by
  refine ⟨⟨chatting.held, chatting.notices, chatting.alone, chatting.works, fun armed => ?_,
    chatting.checkIns⟩, rfl, Nat.le_refl _⟩
  simp only [reckon, decide_eq_true_eq] at armed
  exact armed.2.2.2.1

theorem sayUnless_flights (m : AgentStateMachine) (nothing : Bool) (who : Speaker)
    (said : String) : (m.sayUnless nothing who said).tasks = m.tasks ∧
      (m.sayUnless nothing who said).backTx = m.backTx := by
  cases nothing <;> exact ⟨rfl, rfl⟩

/-- Words and records start nothing, so the budgets stay. -/
theorem answered_chats (host : Host) (mo : Moment) (t : Thinking) (answer : Turn) {s : Agent}
    (chatting : Chatting s) (silent : Silent (s.m.answered host mo t answer).1) :
    Chats 0 s { s with m := (s.m.answered host mo t answer).1 } := by
  revert silent
  unfold answered
  simp only
  generalize said : s.m.sayUnless (trimText answer.text = "") .assistant _ = m
  have frugal : s.m.Frugal m := said ▸ sayUnless_frugal s.m _ _ _
  have acted := acts_frugal host mo answer.totalTokens t answer.calls (m, false)
  have quiet : Silent (answer.calls.foldl (fun p c =>
      act host mo answer.totalTokens (p.1.noteActed t c, p.2) c) (m, false)).1 → _ :=
    acts_silent answer.calls (m, false)
  generalize answer.calls.foldl _ _ = done at acted quiet
  intro silent
  have flights := sayUnless_flights done.1 (answer.calls = [] ∨ done.2) .called
    ("[" ++ joinTexts "," (answer.calls.map Call.row) ++ "]")
  have before : Silent done.1 := silent.of_eq ((reckon_minor _ t answer _).tasks.trans flights.1)
    ((reckon_minor _ t answer _).backTx.trans flights.2)
  -- No query was started, so the count is what it was before the calls.
  have nothing : done.1.queries = m.queries := (quiet before).2
  have kept := (frugal.trans acted).trans (sayUnless_frugal done.1 (answer.calls = [] ∨ done.2)
    .called ("[" ++ joinTexts "," (answer.calls.map Call.row) ++ "]"))
  simp only [nothing, decide_true]
  exact (reckon_chats (chatting.keeps kept)).from_ ⟨kept.localNudges, kept.checkIns, kept.turnsFed⟩

theorem replied_chats {host : Host} {mo : Moment} {t : Thinking} {answer : Turn} {s : Agent}
    (chatting : Chatting s) (silent : Silent (s.replied host mo t answer).m) :
    Chats 0 s (s.replied host mo t answer) := by
  revert silent
  have early : Chats 0 s { s with m := { s.m with lastTurnEnd := some mo.now } }.readEarly :=
    chatting.stays (by constructor <;> rfl) ⟨chatting.alone, chatting.works⟩
  unfold replied
  simp only
  split
  · exact fun _ => early.stays (.refl _) ⟨nofun, nofun⟩
  · split
    · exact fun _ => early.stays (by constructor <;> rfl) ⟨nofun, nofun⟩
    -- Acted on: what the turn costs against the window changes no budget of this kind.
    · have acted := answered_chats host mo t answer early.1
      split
      · exact fun silent => (early.trans (acted silent)).stays (.refl _) ⟨nofun, nofun⟩
      next pct _ =>
        split
        · exact fun silent => (early.trans (acted silent)).stays (.refl _) ⟨nofun, nofun⟩
        · intro silent
          have minor := warn_minor (AgentStateMachine.answered host mo t answer
            ({ s with m := { s.m with lastTurnEnd := some mo.now } }.readEarly).m).1 pct
          exact (early.trans (acted (silent.of_eq minor.tasks minor.backTx))).stays
            (warn_frugal _ pct) ⟨nofun, nofun⟩

theorem nudges_elsewhere {s : Agent}
    (elsewhere : ∀ mo, e = .tick mo → s.at_ = .select → False) : nudges host s e = 0 := by
  cases e with
  | tick mo => exact if_neg fun both => elsewhere mo rfl both.1
  | _ => rfl

/-! ## Every step -/

/-- While nobody writes, no query is out and no model call fails, a step leaves the model to its
talk. -/
theorem step_chats (host : Host) {s : Agent} {e : Event} (chatting : Chatting s)
    (settled : s.Settled) (tracked : Tracked s.m) (silent : Silent s.m)
    (after_ : Silent (s.step host e).m) (works : e ≠ .failed)
    (same : (s.step host e).m.trace.taken = s.m.trace.taken) :
    Chats (nudges host s e) s (s.step host e) := by
  have stay : Chats 0 s s := chatting.stays (.refl _) ⟨chatting.alone, chatting.works⟩
  revert same after_
  unfold step
  split
  · refine fun _ _ => ?_
    unfold send
    split
    · exact stay
    · exact stay.stays (by constructor <;> rfl) ⟨chatting.alone, chatting.works⟩
  · refine fun _ _ => ?_
    unfold send
    split
    · exact stay
    · exact stay.stays (by constructor <;> rfl) ⟨chatting.alone, chatting.works⟩
  · exact fun _ _ => stay.stays (.refl _) ⟨chatting.alone, chatting.works⟩
  · refine fun _ _ => ?_
    unfold lands
    split
    · exact stay
    · exact stay.stays (by constructor <;> rfl) ⟨chatting.alone, chatting.works⟩
  next mo _ => exact fun _ => top_chats mo chatting silent.2 settled.foreign
  next mo => exact fun _ => recvInbox_chats mo chatting silent.2 settled
  next mo => exact fun _ => recvBack_chats mo chatting silent.2 settled
  -- Only here is a nudge given.
  next mo here => exact fun _ => tick_chats host mo chatting silent tracked settled here
  -- Results were collected only for a query, and there is none.
  next here => exact absurd here (chatting.alone _)
  next mo answer t here => exact fun after_ _ => replied_chats chatting after_
  next here => exact absurd rfl works
  next here => exact absurd here (chatting.works _)
  next summary here =>
    refine fun _ _ => ?_
    unfold summarized
    simp only
    split
    · split <;> exact stay.stays (by constructor <;> rfl) ⟨nofun, nofun⟩
    · exact stay.stays (by constructor <;> rfl) ⟨nofun, nofun⟩
  · rw [nudges_elsewhere (by assumption)]
    exact fun _ _ => stay

/-! ## Whole runs -/

theorem Moves.grows {x y : Agent × Hand} (move : Moves host e spent x y) :
    x.1.m.trace.taken <+: y.1.m.trace.taken := by
  have same : ∀ {a b : List Inbound}, a = b → a <+: b := fun eq => eq ▸ List.prefix_rfl
  have took : ∀ (m : AgentStateMachine) (b : Batch) (i : Inbound),
      m.trace.taken <+: (take (m, b) i).1.trace.taken := fun m b i =>
    ⟨_, (takes_taken (m, b) [i]).symm⟩
  cases move with
  | minor s h minor => exact same (congrArg Trace.taken minor.trace).symm
  | @takePending s b i rest => exact took { s.m with pending := rest } b i
  | takeInbox s b => exact took s.m b _
  | read s b unread => exact same (back_keeps (s.m, b.results) _).taken.symm
  | watch s tick none_ => exact same (watch_taken host _ s.m).symm
  | send s h =>
    unfold Agent.send
    split <;> exact List.prefix_rfl
  | lands s h =>
    unfold Agent.lands
    split <;> exact List.prefix_rfl
  | _ => exact List.prefix_rfl

theorem Asks.taken {s s' : Agent} {b : Batch} (asked : Asks s b s') :
    s'.m.trace.taken = s.m.trace.taken := by
  cases asked with
  | check mo => exact think_taken mo _ _ _
  | followUp mo => exact think_taken mo _ _ _
  | wake mo => exact think_taken mo _ _ _

/-- What was taken stays taken. -/
theorem step_grows (host : Host) {s : Agent} (settled : s.Settled) (e : Event) :
    s.m.trace.taken <+: (s.step host e).m.trace.taken :=
  (step_steps host settled e).invariant (J := fun x => s.m.trace.taken <+: x.1.m.trace.taken)
    (fun _ _ move kept => kept.trans move.grows)
    (fun _ _ _ asked kept => asked.taken ▸ kept)
    List.prefix_rfl

theorem run_grows (host : Host) {s : Agent} (settled : s.Settled) (events : List Event) :
    s.m.trace.taken <+: (Machine.run (step host) s events).m.trace.taken := by
  induction events generalizing s with
  | nil => exact List.prefix_rfl
  | cons e events ih =>
    exact (step_grows host settled e).trans (ih (step_settled host settled e))

theorem run_chats (host : Host) {s : Agent} {events : List Event} (chatting : Chatting s)
    (settled : s.Settled) (tracked : Tracked s.m)
    (silent : ∀ part, part <+: events → Silent (Machine.run (step host) s part).m)
    (works : ∀ e ∈ events, e ≠ .failed)
    (alone : (Machine.run (step host) s events).m.trace.taken = s.m.trace.taken) :
    Chats (nudgesSent host s events) s (Machine.run (step host) s events) := by
  induction events generalizing s with
  | nil => exact chatting.stays (.refl _) ⟨chatting.alone, chatting.works⟩
  | cons e events ih =>
    have settled' := step_settled host settled e
    -- What the whole run did not take, no step of it took.
    have same : (s.step host e).m.trace.taken = s.m.trace.taken := by
      have first := step_grows host settled e
      have rest := run_grows host settled' events
      rw [Machine.run_cons] at alone
      rw [alone] at rest
      exact (first.eq_of_length_le rest.length_le).symm
    have one := step_chats host chatting settled tracked (silent [] (List.nil_prefix ..))
      (silent [e] (by simp)) (works e (by simp)) same
    refine one.trans (ih one.1 settled' (step_tracked host settled e tracked)
      (fun part ahead => silent (e :: part) (List.cons_prefix_cons.mpr ⟨rfl, ahead⟩))
      (fun e' member => works e' (List.mem_cons_of_mem e member)) ?_)
    rw [Machine.run_cons] at alone
    rw [alone, same]

/-- From the step that takes somebody's wake, while nobody else's message is taken, no query is
out and no model call fails: the nudges are no more than their budget, and the turns no more than
those nudges and that wake are good for, however long the agent idles. -/
theorem nudges_bounded (host : Host) (saved : Option Saved) (earlier : List Event) (e : Event)
    (events : List Event)
    (woken : Took (after host saved earlier).m.trace.taken (after host saved (earlier ++ [e])))
    (alone : (after host saved (earlier ++ e :: events)).m.trace.taken =
      (after host saved (earlier ++ [e])).m.trace.taken)
    (silent : ∀ part, part <+: events → Silent (after host saved (earlier ++ e :: part)).m)
    (works : ∀ e' ∈ events, e' ≠ .failed) :
    nudgesSent host (after host saved (earlier ++ [e])) events ≤ MAX_LOCAL_TASK_NUDGES ∧
      (after host saved (earlier ++ e :: events)).m.turnsFed ≤
        (after host saved earlier).m.turnsFed +
          (1 + MAX_LOCAL_TASK_NUDGES) * (1 + MAX_CHECK_INS) := by
  have begun := step_steps host (after_settled host saved earlier) e
  have settled := after_settled host saved (earlier ++ [e])
  have tracked := after_tracked host saved (earlier ++ [e])
  have within := after_localNudges host saved (earlier ++ e :: events)
  have later : ∀ part, after host saved (earlier ++ e :: part) =
      Machine.run (step host) ((after host saved earlier).step host e) part := fun part =>
    Machine.run_append (step host) (start host saved) earlier (e :: part)
  simp only [later, Machine.run_nil] at woken alone silent settled tracked within ⊢
  -- The wake's own turn begins with every check-in left.
  have fresh := step_woken host woken
  obtain ⟨t, thinks⟩ := fresh.asks
  have chatting : Chatting ((after host saved earlier).step host e) :=
    ⟨fresh.held, fresh.notices, by simp [thinks], by simp [thinks],
      fun _ => by rw [fresh.checkIns]; decide, by rw [fresh.checkIns]; exact Nat.zero_le _⟩
  obtain ⟨still, sent, turns⟩ := run_chats host chatting settled tracked silent works alone
  have capped := still.checkIns
  have own : _ ≤ (after host saved earlier).m.turnsFed + 1 := begun.turnsFed
  rw [fresh.checkIns] at turns
  simp only [MAX_LOCAL_TASK_NUDGES, MAX_CHECK_INS] at within turns capped ⊢
  omega

/-- A host whose model can read files. -/
def chattyHost : Host :=
  { dispatch := fun c => if c.name = "ReadFile" then .query else .unknown }

/-- A file was read, and before anybody looked at it somebody wrote. -/
def readThenAsked : List Event :=
  [.go { now := 0 }, .wake "read it" "said", .inbox { now := 0 },
    .replied { now := 0 } { text := "", calls := [{ name := "ReadFile" }] }, .go { now := 0 },
    .lands 0 { arg := "src", ok := true }, .wake "what does it say?" "said"]

/-- The model says what it will do, and does not. -/
def promises : List Event :=
  [.replied { now := 0 } { text := "Next I will fix it.", calls := [] }, .go { now := 0 }]

/-- The model talks for as long as it is let, and the idle agent is reminded of its tasks. -/
def talksUntil (now : Nat) : List Event :=
  promises ++ promises ++ promises ++ promises ++ [.tick { now, reminder := some "1. fix it" }]

theorem nudges_bounded_talks :
    nudgesSent chattyHost (after chattyHost none (readThenAsked ++ [.inbox { now := 0 }]))
        (talksUntil 150000) ≤ MAX_LOCAL_TASK_NUDGES ∧
      (after chattyHost none
        (readThenAsked ++ .inbox { now := 0 } :: talksUntil 150000)).m.turnsFed ≤
        (after chattyHost none readThenAsked).m.turnsFed +
          (1 + MAX_LOCAL_TASK_NUDGES) * (1 + MAX_CHECK_INS) := by
  refine nudges_bounded chattyHost none readThenAsked (.inbox { now := 0 }) (talksUntil 150000)
    ⟨[], ⟨"what does it say?", "said", 1, false⟩, by decide +kernel⟩ (by decide +kernel)
    (fun part ahead => ?_) (by simp [talksUntil, promises])
  have all : ∀ part ∈ (talksUntil 150000).inits,
      Silent (after chattyHost none (readThenAsked ++ .inbox { now := 0 } :: part)).m := by
    decide +kernel
  exact all part ((List.mem_inits part _).mpr ahead)

-- With something read along with the wake, a model that only talks gets every turn there is.
example :
    (after chattyHost none (readThenAsked ++ .inbox { now := 0 } ::
      (talksUntil 150000 ++ talksUntil 300000 ++ talksUntil 450000 ++
        talksUntil 900000))).m.turnsFed =
      (after chattyHost none readThenAsked).m.turnsFed + 16 := by
  decide +kernel

end Agent

end AkumaMiot

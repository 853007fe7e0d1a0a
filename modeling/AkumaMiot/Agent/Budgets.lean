import AkumaMiot.Agent.Moves

/-!
# How long the agent goes on by itself

With nobody writing, turns come of results, of check-ins and of releases of what was held. Every
one of them spends of one of two budgets, and only a release gives back the follow-ups.
-/
namespace AkumaMiot

namespace Agent

open AgentStateMachine

variable {host : Host} {e : Event} {spent : Prop}

/-- No move is a turn. -/
theorem Moves.turnsFed {x y : Agent × Hand} (move : Moves host e spent x y) :
    y.1.m.turnsFed = x.1.m.turnsFed := by
  cases move with
  | minor s h minor => exact minor.turnsFed
  | @takePending s b i => cases i <;> rfl
  | @takeInbox s b i => cases i <;> rfl
  | read s b unread => exact (back_keeps (s.m, b.results) _).turnsFed
  | watch s tick none_ =>
    obtain ⟨m', notices, watched, eq⟩ := watch_watched host _ s.m
    rw [eq]
    cases watched <;> rfl
  | send s h => unfold Agent.send; split <;> rfl
  | lands s h => unfold Agent.lands; split <;> rfl
  | _ => rfl

/-- Nor is asking the model more than one. -/
theorem Asks.turnsFed {s s' : Agent} {b : Batch} (asked : Asks s b s') :
    s'.m.turnsFed = s.m.turnsFed + 1 := by
  obtain ⟨m, b', mo, check, poised, is, _⟩ := asked.turned
  rw [is, turn_turnsFed, poised.turnsFed]

theorem Steps.turnsFed {x : Agent × Hand} {s : Agent} (steps : Steps host e spent x s) :
    s.m.turnsFed ≤ x.1.m.turnsFed + 1 := by
  rcases steps.frame (fun _ _ move => move.turnsFed) with same | ⟨r, b, asked, same⟩
  · exact same.le.trans (Nat.le_succ _)
  · rw [asked.turnsFed, same]

/-! ## The budgets -/

/-- The budgets are within their bounds, and the loop's own wakes are counted where they are. -/
structure Budgeted (x : Agent × Hand) : Prop where
  followups : x.1.m.followups ≤ MAX_FOLLOWUPS
  releases : x.1.m.heldReleases ≤ MAX_HELD_RELEASES
  own : x.1.m.pending.countP Inbound.own + x.2.wakes.countP Wake.own = x.1.m.syntheticWakes

/-- A move that changes no budget and takes no wake. -/
theorem Budgeted.of_keeps {s s' : Agent} {h h' : Hand} (budgeted : Budgeted (s, h))
    (keeps : s.m.Keeps s'.m) (same : h'.wakes = h.wakes) : Budgeted (s', h') where
  followups := keeps.followups ▸ budgeted.followups
  releases := keeps.heldReleases ▸ budgeted.releases
  own := by simpa only [keeps.pending, same, keeps.syntheticWakes] using budgeted.own

theorem Budgeted.taking {s s' : Agent} {b : Batch} {i : Inbound}
    (budgeted : Budgeted (s, .batch b)) (waiting : List Inbound)
    (pending : s'.m = { (take (s.m, b) i).1 with pending := waiting })
    (counts : s.m.pending.countP Inbound.own = waiting.countP Inbound.own + [i].countP Inbound.own)
    (foreign : waiting.countP Inbound.own = 0) :
    Budgeted (s', .batch (take (s.m, b) i).2) := by
  have own := budgeted.own
  cases i with
  | wake w =>
    refine ⟨by rw [pending]; exact budgeted.followups, by rw [pending]; exact budgeted.releases, ?_⟩
    have mine : [Inbound.wake w].countP Inbound.own = [w].countP Wake.own := by
      cases own : w.own <;> simp [Inbound.own, own]
    rw [pending]
    simp only [take, Hand.wakes, List.countP_append] at own ⊢
    omega
  | reset why n =>
    -- A reset leaves none of the loop's own wakes, wherever they were.
    refine ⟨by simp [pending, take], by simp [pending, take], ?_⟩
    simp [pending, take, Hand.wakes, foreign]

theorem countP_own {is : List Inbound} (foreign : ∀ i ∈ is, i.own = false) :
    is.countP Inbound.own = 0 :=
  List.countP_eq_zero.mpr fun i member => by simp [foreign i member]

theorem Moves.budgeted {x y : Agent × Hand} (move : Moves host e spent x y)
    (budgeted : Budgeted x) : Budgeted y := by
  cases move with
  | minor s h minor =>
    exact ⟨minor.followups ▸ budgeted.followups, minor.heldReleases ▸ budgeted.releases,
      by simpa only [minor.pending, minor.syntheticWakes] using budgeted.own⟩
  -- What is taken up for the turn and what stays pending are one list, counted in two parts.
  | @takePending s b i rest waiting foreign =>
    have others : ∀ j ∈ rest, j.own = false := fun j member => foreign j (by simp [member])
    refine budgeted.taking rest (by rw [take_pending]) ?_ (countP_own others)
    rw [waiting, List.countP_cons, List.countP_singleton]
  | @takeInbox s b i rest none_ queued foreign =>
    refine budgeted.taking [] ?_ ?_ rfl
    · have same : (take (s.m, b) i).1.pending = [] := by rw [take_pending_eq]; exact none_
      rw [← same]
    · simp [none_, foreign i]
  | read s b unread =>
    exact budgeted.of_keeps ((back_keeps (s.m, b.results) _).trans (by constructor <;> rfl)) rfl
  -- A watcher sends at most one wake of the agent's own, and none is waiting when it looks.
  | watch s tick none_ =>
    have own : s.m.syntheticWakes = 0 := by simpa [none_, Hand.wakes] using budgeted.own.symm
    obtain ⟨m', notices, watched, eq⟩ := watch_watched host _ s.m
    rw [eq]
    cases watched with
    | nothing => exact ⟨budgeted.followups, budgeted.releases, budgeted.own⟩
    | released text some_ queries records left =>
      exact ⟨budgeted.followups, left, by simp [queueOwn, none_, own, Hand.wakes, Inbound.own]⟩
    | nagged text reminder =>
      exact ⟨budgeted.followups, budgeted.releases,
        by simp [queueOwn, none_, own, Hand.wakes, Inbound.own]⟩
  -- A turn dropped or held back gives back the wake it was taken up with.
  | drop s none_ wakes results =>
    exact ⟨budgeted.followups, by simp [refund, wakes, budgeted.releases],
      by simp [refund, none_, Hand.wakes]⟩
  | hold s none_ wakes capped =>
    exact ⟨budgeted.followups, by simp [refund, holdBack, wakes, budgeted.releases],
      by simp [refund, holdBack, none_, Hand.wakes]⟩
  | readEarly s h foreign =>
    refine ⟨budgeted.followups, budgeted.releases, ?_⟩
    rw [readEarly_pending, List.countP_append, countP_own foreign]
    exact budgeted.own
  | giveUp s t => exact ⟨budgeted.followups, budgeted.releases, budgeted.own⟩
  | compact s h summary => exact budgeted.of_keeps (compact_keeps s.m summary) rfl
  | note s t c => exact budgeted.of_keeps (noteActed_keeps t s.m c) rfl
  | instant s t name out => exact budgeted.of_keeps (instant_keeps s.m name out) rfl
  | query s t c => exact budgeted.of_keeps (startQuery_keeps s.m c) rfl
  | record s t c => exact budgeted.of_keeps (startRecord_keeps s.m c) rfl
  | send s h =>
    unfold Agent.send
    split <;> exact ⟨budgeted.followups, budgeted.releases, budgeted.own⟩
  | lands s h =>
    unfold Agent.lands
    split <;> exact ⟨budgeted.followups, budgeted.releases, budgeted.own⟩
  | _ => exact ⟨budgeted.followups, budgeted.releases, budgeted.own⟩

theorem Asks.budgeted {s s' : Agent} {b : Batch} (asked : Asks s b s')
    (budgeted : Budgeted (s, .batch b)) : Budgeted (s', s'.hand) := by
  cases asked with
  | check mo s none_ empty left =>
    refine ⟨by rw [think_followups]; exact left,
      by rw [think_heldReleases]; exact budgeted.releases,
      ?_⟩
    rw [think_pending, hand_wakes, think_syntheticWakes]
    exact budgeted.own
  | @followUp mo s b none_ wakes left =>
    refine ⟨by rw [think_followups]; exact left, ?_, ?_⟩
    · rw [think_heldReleases]
      simp [AgentStateMachine.followUp, refund, wakes, budgeted.releases]
    · rw [think_pending, hand_wakes, think_syntheticWakes]
      simp [AgentStateMachine.followUp, refund, none_]
  | @wake mo s b none_ wakes =>
    refine ⟨by rw [think_followups]; exact Nat.zero_le _, ?_, ?_⟩
    · rw [think_heldReleases]
      simp only [unhold, refund]
      split
      · exact Nat.zero_le _
      · exact budgeted.releases
    · rw [think_pending, hand_wakes, think_syntheticWakes]
      simp [unhold, refund, none_]

/-! ## What runs since the last wake -/

/-- What was taken begins with `taken`; and while it is no more than that, the turns since there
were `before` of them are within what the releases and the follow-ups account for. -/
structure Alone (taken : List Inbound) (before : Nat) (x : Agent × Hand) : Prop where
  grown : taken <+: x.1.m.trace.taken
  own : x.1.m.trace.taken = taken → ∀ w ∈ x.2.wakes, w.own = true
  turns : x.1.m.trace.taken = taken →
    x.1.m.turnsFed + (1 + MAX_FOLLOWUPS) * x.1.m.syntheticWakes ≤
      before + (1 + MAX_FOLLOWUPS) * x.1.m.heldReleases + x.1.m.followups + 1

variable {taken : List Inbound} {before : Nat}

/-- A move that changes no budget, and neither takes a message nor a wake into its hand. -/
theorem Alone.of_keeps {s s' : Agent} {h h' : Hand} (alone : Alone taken before (s, h))
    (keeps : s.m.Keeps s'.m) (same : ∀ w ∈ h'.wakes, w ∈ h.wakes) :
    Alone taken before (s', h') where
  grown := keeps.taken ▸ alone.grown
  own is w member := alone.own (keeps.taken ▸ is) w (same w member)
  turns is := by
    have turns := alone.turns (keeps.taken ▸ is)
    simpa only [keeps.turnsFed, keeps.syntheticWakes, keeps.heldReleases, keeps.followups]
      using turns

/-- Once anything more was taken there is nothing to say. -/
theorem Alone.of_more {s s' : Agent} {h h' : Hand} {i : Inbound}
    (alone : Alone taken before (s, h)) (more : s'.m.trace.taken = s.m.trace.taken ++ [i]) :
    Alone taken before (s', h') := by
  have longer : s'.m.trace.taken ≠ taken := by
    intro is
    have := alone.grown.length_le
    simp only [← is, more, List.length_append, List.length_singleton] at this
    omega
  exact ⟨more ▸ alone.grown.trans (List.prefix_append _ _), fun is => absurd is longer,
    fun is => absurd is longer⟩

theorem Alone.taking {s s' : Agent} {b : Batch} {i : Inbound}
    (alone : Alone taken before (s, .batch b)) (waiting : List Inbound)
    (eq : s'.m = { (take (s.m, b) i).1 with pending := waiting }) :
    Alone taken before (s', .batch (take (s.m, b) i).2) := by
  cases i with
  | reset why n => exact alone.of_more (by rw [eq]; rfl)
  | wake w =>
    cases own : w.own with
    | false => exact alone.of_more (i := .wake w) (by rw [eq]; simp [take, own])
    | true =>
      have same : s'.m.trace.taken = s.m.trace.taken := by rw [eq]; simp [take, own]
      refine ⟨same ▸ alone.grown, fun is v member => ?_, fun is => ?_⟩
      · rcases List.mem_append.mp member with old | new
        · exact alone.own (same ▸ is) v old
        · rw [List.mem_singleton.mp new, own]
      · rw [eq]
        exact alone.turns (same ▸ is)

theorem Moves.alone {x y : Agent × Hand} (move : Moves host e spent x y)
    (quiet : host.localNag = false ∨ ∀ mo, e = .tick mo → mo.reminder = none)
    (alone : Alone taken before x) : Alone taken before y := by
  cases move with
  | minor s h minor =>
    refine ⟨by simpa only [minor.trace] using alone.grown,
      by simpa only [minor.trace] using alone.own, fun is => ?_⟩
    have turns := alone.turns (by simpa only [minor.trace] using is)
    simpa only [minor.turnsFed, minor.syntheticWakes, minor.heldReleases, minor.followups]
      using turns
  | @takePending s b i rest waiting foreign =>
    exact alone.taking rest (by rw [take_pending])
  | @takeInbox s b i rest none_ queued foreign =>
    exact alone.taking (take (s.m, b) i).1.pending rfl
  | read s b unread =>
    exact alone.of_keeps ((back_keeps (s.m, b.results) _).trans (by constructor <;> rfl))
      fun _ member => member
  | watch s tick none_ =>
    obtain ⟨m', notices, watched, eq⟩ := watch_watched host _ s.m
    rw [eq]
    cases watched with
    | nothing => exact ⟨alone.grown, alone.own, alone.turns⟩
    | released text some_ queries records left =>
      -- The release it counts pays for the turns its wake will begin.
      refine ⟨alone.grown, alone.own, fun is => ?_⟩
      have turns := alone.turns is
      simp only [queueOwn, Nat.mul_add, Nat.mul_one] at turns ⊢
      omega
    | nagged text reminder nag some_ left =>
      rcases quiet with off | none_
      · rw [off] at nag
        cases nag
      · rw [none_ _ tick] at some_
        cases some_
  | drop s none_ wakes results =>
    refine ⟨alone.grown, fun is _ member => (List.not_mem_nil member).elim, fun is => ?_⟩
    have turns := alone.turns is
    simp only [refund, wakes, List.length_nil] at turns ⊢
    simp only [gt_iff_lt, Nat.not_lt_zero, if_false]
    omega
  | hold s none_ wakes capped =>
    refine ⟨alone.grown, fun is _ member => (List.not_mem_nil member).elim, fun is => ?_⟩
    have turns := alone.turns is
    simp only [refund, holdBack, wakes, List.length_nil] at turns ⊢
    simp only [gt_iff_lt, Nat.not_lt_zero, if_false]
    omega
  | giveUp s t =>
    exact ⟨alone.grown, fun is _ member => (List.not_mem_nil member).elim, alone.turns⟩
  | compact s h summary => exact alone.of_keeps (compact_keeps s.m summary) fun _ member => member
  | note s t c => exact alone.of_keeps (noteActed_keeps t s.m c) fun _ member => member
  | instant s t name out => exact alone.of_keeps (instant_keeps s.m name out) fun _ member => member
  | query s t c => exact alone.of_keeps (startQuery_keeps s.m c) fun _ member => member
  | record s t c => exact alone.of_keeps (startRecord_keeps s.m c) fun _ member => member
  | send s h =>
    unfold Agent.send
    split <;> exact ⟨alone.grown, alone.own, alone.turns⟩
  | lands s h =>
    unfold Agent.lands
    split <;> exact ⟨alone.grown, alone.own, alone.turns⟩
  | _ => exact ⟨alone.grown, alone.own, alone.turns⟩

theorem Asks.alone {s s' : Agent} {b : Batch} (asked : Asks s b s')
    (budgeted : Budgeted (s, .batch b)) (alone : Alone taken before (s, .batch b)) :
    Alone taken before (s', s'.hand) := by
  cases asked with
  | check mo s none_ empty left =>
    refine ⟨by rw [think_taken]; exact alone.grown, fun _ => by simp [hand_wakes], fun is => ?_⟩
    rw [think_taken] at is
    have turns := alone.turns is
    simp only [think_turnsFed, think_syntheticWakes, think_heldReleases, think_followups,
      AgentStateMachine.followUp] at turns ⊢
    omega
  | @followUp mo s b none_ wakes left =>
    refine ⟨by rw [think_taken]; exact alone.grown, fun _ => by simp [hand_wakes], fun is => ?_⟩
    rw [think_taken] at is
    have turns := alone.turns is
    simp only [think_turnsFed, think_syntheticWakes, think_heldReleases, think_followups,
      AgentStateMachine.followUp, refund, wakes, List.length_nil, gt_iff_lt, Nat.not_lt_zero,
      if_false] at turns ⊢
    omega
  | @wake mo s b none_ wakes =>
    refine ⟨by rw [think_taken]; exact alone.grown, fun _ => by simp [hand_wakes], fun is => ?_⟩
    rw [think_taken] at is
    have turns := alone.turns is
    -- Every wake in hand is the loop's own, so the releases are not given back, and the one that
    -- was counted for it covers the follow-ups it forgets.
    have mine : b.wakes.length = s.m.syntheticWakes := by
      have counted := budgeted.own
      rw [none_, List.countP_eq_length.mpr (alone.own is)] at counted
      simpa [Hand.wakes] using counted
    have some_ : 0 < b.wakes.length := List.length_pos_iff.mpr wakes
    have capped := budgeted.followups
    simp only [think_turnsFed, think_syntheticWakes, think_heldReleases, think_followups,
      unhold, refund, mine, gt_iff_lt, Nat.lt_irrefl, if_false] at turns capped ⊢
    have one : (1 + MAX_FOLLOWUPS) * 1 ≤ (1 + MAX_FOLLOWUPS) * s.m.syntheticWakes :=
      Nat.mul_le_mul_left _ (mine ▸ some_)
    omega

/-! ## Whole runs -/

theorem step_budgeted (host : Host) {s : Agent} (settled : s.Settled) (e : Event)
    (budgeted : Budgeted (s, s.hand)) : Budgeted (s.step host e, (s.step host e).hand) :=
  (step_steps host settled e).invariant (fun _ _ move => move.budgeted)
    (fun _ _ _ asked => asked.budgeted) budgeted

theorem run_budgeted (host : Host) {s : Agent} (settled : s.Settled)
    (budgeted : Budgeted (s, s.hand)) (events : List Event) :
    Budgeted (Machine.run (step host) s events, (Machine.run (step host) s events).hand) := by
  induction events generalizing s with
  | nil => exact budgeted
  | cons e events ih =>
    exact ih (step_settled host settled e) (step_budgeted host settled e budgeted)

theorem start_budgeted (host : Host) (saved : Option Saved) :
    Budgeted (start host saved, (start host saved).hand) := by
  unfold start
  split
  · exact ⟨Nat.zero_le _, Nat.zero_le _, rfl⟩
  · split <;> exact ⟨Nat.zero_le _, Nat.zero_le _, rfl⟩

theorem step_alone (host : Host) {s : Agent} (settled : s.Settled) (e : Event)
    (quiet : host.localNag = false ∨ ∀ mo, e = .tick mo → mo.reminder = none)
    (budgeted : Budgeted (s, s.hand)) (alone : Alone taken before (s, s.hand)) :
    Alone taken before (s.step host e, (s.step host e).hand) := by
  have both := (step_steps host settled e).invariant
    (J := fun x => Budgeted x ∧ Alone taken before x)
    (fun _ _ move kept => ⟨move.budgeted kept.1, move.alone quiet kept.2⟩)
    (fun _ _ _ asked kept => ⟨asked.budgeted kept.1, asked.alone kept.1 kept.2⟩)
    ⟨budgeted, alone⟩
  exact both.2

theorem run_alone (host : Host) {s : Agent} (settled : s.Settled) (events : List Event)
    (quiet : host.localNag = false ∨ ∀ e ∈ events, ∀ mo, e = .tick mo → mo.reminder = none)
    (budgeted : Budgeted (s, s.hand)) (alone : Alone taken before (s, s.hand)) :
    Alone taken before
      (Machine.run (step host) s events, (Machine.run (step host) s events).hand) := by
  induction events generalizing s with
  | nil => exact alone
  | cons e events ih =>
    refine ih (step_settled host settled e) (quiet.imp_right fun none_ e' member =>
      none_ e' (List.mem_cons_of_mem e member)) (step_budgeted host settled e budgeted) ?_
    exact step_alone host settled e (quiet.imp_right fun none_ => none_ e (by simp)) budgeted alone

/-- With the local-task nag off, from any step until the next message is taken, the step's own
turn included, no more turns run than the releases and the follow-ups allow. The step may be the
one that takes somebody's wake. -/
theorem turns_bounded (host : Host) (saved : Option Saved) (earlier : List Event) (e : Event)
    (events : List Event)
    (nagOff : host.localNag = false ∨ ∀ e' ∈ events, ∀ mo, e' = .tick mo → mo.reminder = none)
    (alone : (after host saved (earlier ++ e :: events)).m.trace.taken =
      (after host saved (earlier ++ [e])).m.trace.taken) :
    (after host saved (earlier ++ e :: events)).m.turnsFed ≤
      (after host saved earlier).m.turnsFed + (1 + MAX_HELD_RELEASES) * (1 + MAX_FOLLOWUPS) := by
  have settled := after_settled host saved earlier
  have budgeted := run_budgeted host (start_settled host saved) (start_budgeted host saved) earlier
  -- The step itself runs one turn at most, and leaves no wake of the loop's own to be counted.
  have once := (step_steps host settled e).turnsFed
  have settled' := step_settled host settled e
  have budgeted' := step_budgeted host settled e budgeted
  have none_ : ((after host saved earlier).step host e).m.syntheticWakes = 0 := by
    have counted := budgeted'.own
    rw [hand_wakes, countP_own fun i member =>
      settled'.foreign i (List.mem_append_left _ member)] at counted
    exact counted.symm
  have begun : Alone ((after host saved earlier).step host e).m.trace.taken
      (after host saved earlier).m.turnsFed
      ((after host saved earlier).step host e, ((after host saved earlier).step host e).hand) := by
    refine ⟨List.prefix_refl _, fun _ => by simp [hand_wakes], fun _ => ?_⟩
    simp only [none_] at once ⊢
    omega
  have same : ∀ es, after host saved (earlier ++ es) =
      Machine.run (step host) (after host saved earlier) es := fun es => Machine.run_append _ _ _ _
  rw [same, same, Machine.run_cons, Machine.run_cons, Machine.run_nil] at alone
  rw [same, Machine.run_cons]
  -- What the budgets account for is bounded with them.
  have ends := (run_alone host settled' events nagOff budgeted' begun).turns alone
  have bounds := run_budgeted host settled' budgeted' events
  have followups := bounds.followups
  have releases := Nat.mul_le_mul_left (1 + MAX_FOLLOWUPS) bounds.releases
  have product : (1 + MAX_HELD_RELEASES) * (1 + MAX_FOLLOWUPS) = 36 := rfl
  have full : (1 + MAX_FOLLOWUPS) * MAX_HELD_RELEASES = 27 := rfl
  have most : MAX_FOLLOWUPS = 8 := rfl
  simp only at ends followups releases
  omega

/-- A host with the nag off. -/
def quietHost : Host := { dispatch := fun _ => .unknown, localNag := false }

/-- The model asks for one more file. -/
def readsMore : List Event :=
  [.replied { now := 0 } { text := "", calls := [{ name := "ReadFile" }] }, .go { now := 0 }]

/-- The file that flight `n` read lands, and the model asks for another. -/
def readsOn (n : Nat) : List Event :=
  [.lands n { arg := "src", ok := true }, .channel { now := 0 }] ++ readsMore

theorem turns_bounded_readsOn :
    (after quietHost none
      ([.go { now := 0 }, .wake "read it" "said"] ++ .inbox { now := 0 } ::
        (readsMore ++ readsOn 0))).m.turnsFed ≤
      (after quietHost none [.go { now := 0 }, .wake "read it" "said"]).m.turnsFed +
        (1 + MAX_HELD_RELEASES) * (1 + MAX_FOLLOWUPS) :=
  turns_bounded quietHost none _ _ _ (.inl rfl) (by decide +kernel)

/-- Nine files read on end, the last one held, and the tick that releases it. -/
def readsThrough (first : Nat) : List Event :=
  readsMore ++ (List.range' first 9).flatMap readsOn ++ [.tick { now := 30000 }]

-- A model that always wants another file gets every turn there is, and no more.
example : (after quietHost none ([.go { now := 0 }, .wake "read it" "said", .inbox { now := 0 }] ++
    readsThrough 0 ++ readsThrough 9 ++ readsThrough 18 ++ readsThrough 27)).m.turnsFed = 36 := by
  decide +kernel

end Agent

end AkumaMiot

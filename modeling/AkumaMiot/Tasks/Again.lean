import AkumaMiot.Tasks.Progress

/-!
# A second tick in the same block

Whatever a tick says moves the deadline it acted on past the block. As long as ids are distinct,
nothing is left to say when the block is ticked again.
-/
namespace AkumaMiot.TaskTable

variable {A : Type}

/-- The timers that set a new deadline do move it. -/
structure Moving (cfg : Config) : Prop where
  claimWindow : 1 ≤ cfg.timers.claimWindow
  workNag : 1 ≤ cfg.timers.workNag
  directiveNag : 1 ≤ cfg.timers.directiveNag

theorem lt_deadline {now timer : Nat} (room : now + 1 < 2 ^ 32) (positive : 1 ≤ timer) :
    ¬ u32SaturatingAdd now timer ≤ now := by
  unfold u32SaturatingAdd
  omega

/-- Stage 1 leaves nothing to say about a row. -/
theorem subtaskEffects_advance {cfg : Config} {now : BlockNumber} (moving : Moving cfg)
    (room : (now : Nat) + 1 < 2 ^ 32) (r : Task A) :
    subtaskEffects cfg now (advance cfg now r) = [] := by
  have later := lt_deadline room moving.claimWindow
  have next := lt_deadline room moving.workNag
  rcases advance_cases cfg now r with ⟨silent, moved⟩ | ⟨_, _, _, moved⟩ |
    ⟨working, holding, _, _, moved⟩ | ⟨working, holding, _, _, moved⟩ | ⟨pending, _, _, moved⟩
  · rw [moved]
    exact silent
  · rw [moved]
    simp [subtaskEffects, offerLapsed, later]
  · rw [moved]
    unfold leaseExpired at holding
    simp [subtaskEffects, working, leaseExpired, holding, next]
  · rw [moved]
    unfold leaseExpired at holding
    simp [subtaskEffects, working, leaseExpired, holding]
  · rw [moved]
    simp [subtaskEffects, pending, offerLapsed, later]

/-- Stage 2 leaves the sub-tasks. -/
theorem decided_sub {t : TaskTable A} {now : BlockNumber} {r : Task A} (sub : r.isParent = false) :
    t.decided now r = r := by
  simp [decided, asked, sub]

theorem decided_subtasks (t : TaskTable A) (now : BlockNumber) (id : TaskId) :
    ({ t with tasks := t.tasks.map (t.decided now) } : TaskTable A).subtasks id = t.subtasks id := by
  rw [subtasks_map t _ (fun r _ => t.decided_id now r)]
  exact (List.map_congr_left fun r member => decided_sub (mem_subtasks.mp member).2.2).trans
    (List.map_id _)

/-- What is asked about a parent depends on its row and its sub-tasks. -/
theorem directiveFor_congr {t u : TaskTable A} {p : Task A} (cfg : u.cfg = t.cfg)
    (subs : u.subtasks p.id = t.subtasks p.id) : u.directiveFor p = t.directiveFor p := by
  simp only [directiveFor, cfg, subs]

/-- A parent that stage 2 has decided is asked about no more. -/
theorem asked_decided {t u : TaskTable A} {now : BlockNumber} (moving : Moving t.cfg)
    (room : (now : Nat) + 1 < 2 ^ 32) (cfg : u.cfg = t.cfg)
    (subs : ∀ id, u.subtasks id = t.subtasks id) (r : Task A) :
    u.asked now (t.decided now r) = none := by
  have later := lt_deadline room moving.directiveNag
  cases asks : t.asked now r with
  | none =>
    have same : t.decided now r = r := by simp only [decided, asks]
    have also : u.asked now r = t.asked now r := by
      simp only [asked, directiveFor_congr cfg (subs r.id)]
    rw [same, also, asks]
  | some d =>
    by_cases spent : t.cfg.timers.maxDirectiveNudges ≤ r.directiveNudgesUsed
    · have failed : t.decided now r = { r with status := .failed, closedAt := some now } := by
        simp only [decided, asks, if_pos spent]
      rw [failed, asked]
      split <;> rfl
    · have directed : t.decided now r = { r with
          nextDirective := u32SaturatingAdd now t.cfg.timers.directiveNag
          directiveNudgesUsed := u8SaturatingAdd r.directiveNudgesUsed 1 } := by
        simp only [decided, asks, if_neg spent]
      rw [directed, asked]
      simp [later]

/-- A table in which nothing is due ticks to itself. -/
theorem tick_idle {t : TaskTable A} {now : BlockNumber}
    (subs : ∀ r ∈ t.tasks, r.isParent = false → subtaskEffects t.cfg now r = [])
    (parents : t.leader.isSome = true → ∀ r ∈ t.tasks, t.asked now r = none) :
    t.tick now = ([], t) := by
  have first : t.stage1 now = [] := by
    refine List.flatMap_eq_nil_iff.mpr fun r member => ?_
    obtain ⟨present, kind⟩ := List.mem_filter.mp member
    exact subs r present (by simpa using kind)
  simp only [tick, first, applyAll_nil]
  split
  · rfl
  next leader led =>
    have second : t.stage2 leader now = [] := by
      have none_ : t.due now = [] := by
        refine List.filterMap_eq_nil_iff.mpr fun r member => ?_
        obtain ⟨present, due⟩ := List.mem_filter.mp member
        have asks := parents (by rw [led]; rfl) r present
        rw [asked, if_pos due] at asks
        rw [asks, Option.map_none]
      rw [stage2, none_, List.map_nil]
    rw [second]
    rfl

/-- The second tick of a block says nothing and changes nothing. -/
theorem tick_again {t : TaskTable A} (distinct : t.ids.Nodup) (moving : Moving t.cfg)
    {now : BlockNumber} (room : (now : Nat) + 1 < 2 ^ 32) :
    (t.tick now).2.tick now = ([], (t.tick now).2) := by
  let first := t.applyAll (t.stage1 now) now
  have cfg : first.cfg = t.cfg := applyAll_cfg _ _ _
  have advanced : ∀ r ∈ first.tasks, r.isParent = false → subtaskEffects t.cfg now r = [] := by
    intro r present sub
    rw [stage1_tasks distinct] at present
    obtain ⟨x, _, rfl⟩ := List.mem_map.mp present
    by_cases parent : x.isParent = true
    · simp [parent] at sub
    · rw [if_neg parent]
      exact subtaskEffects_advance moving room x
  cases led : t.leader with
  -- Without a leader there is no second stage.
  | none =>
    have alone : (t.tick now).2 = first := by
      simp only [tick, stage1_leader, led]
      rfl
    have silent : first.leader.isSome = false := by
      rw [stage1_leader, led]
      rfl
    rw [alone]
    refine tick_idle (by rw [cfg]; exact advanced) fun some_ => ?_
    rw [silent] at some_
    cases some_
  | some leader =>
    have tasks := tick_tasks distinct (by rw [led]; rfl) now
    have subs : ∀ id, (t.tick now).2.subtasks id = first.subtasks id := by
      intro id
      rw [← decided_subtasks first now id]
      simp only [subtasks, tasks]
      rfl
    have same : (t.tick now).2.cfg = t.cfg := t.tick_cfg now
    -- The first stage left its rows with nothing to say, and the second does not touch them.
    refine tick_idle (fun r present sub => ?_) fun _ r present => ?_
    · rw [tasks] at present
      obtain ⟨x, there, rfl⟩ := List.mem_map.mp present
      have kind : x.isParent = false := by rw [Task.isParent, ← decided_id first now x]; exact sub
      have left : first.decided now x = x := decided_sub kind
      rw [same, left]
      exact advanced x there kind
    · rw [tasks] at present
      obtain ⟨x, _, rfl⟩ := List.mem_map.mp present
      exact asked_decided (by rw [cfg]; exact moving) room (same.trans cfg.symm) subs x

section Accounts

variable [DecidableEq A]

/-- In every table a run leads to in which each new parent got a number of its own, and at every
block whose deadlines do not come to the end of the clock, a second tick says nothing and leaves
the table as it is. -/
theorem tick_again_run (cfg : Config) (root : Option A) (ops : List (Op A × BlockNumber))
    (moving : Moving cfg)
    (fresh : Machine.Meets next (fun t op => t.Fresh op.1 op.2) (new cfg root) ops)
    (now : BlockNumber) (room : (now : Nat) + 1 < 2 ^ 32) :
    (((new cfg root).run ops).tick now).2.tick now =
      ([], (((new cfg root).run ops).tick now).2) := by
  have same : ((new cfg root).run ops).cfg = cfg := (run_frame _ ops).1
  exact tick_again (run_distinct (new_distinct cfg root) fresh) (by rw [same]; exact moving) room

/-- The first tick nudges, offers again and directs. -/
theorem tick_again_run_busy :
    let ops : List (Op Nat × BlockNumber) := [(.call (.setLeader 1), 1),
      (.call (.openParent 0 .root "t"), 1),
      (.call (.plan 1 .leader ⟨1, 0⟩ [⟨2, "a", "b"⟩, ⟨3, "c", "d"⟩]), 1),
      (.call (.update 2 .peer ⟨1, 1⟩ .claim ""), 1)]
    let t := (new briefTimers (some 0)).run ops
    (t.tick 2).1.length = 4 ∧ (t.tick 2).2.tick 2 = ([], (t.tick 2).2) :=
  ⟨by decide, tick_again_run briefTimers (some 0) _ ⟨by decide, by decide, by decide⟩ (by decide) 2
    (by decide)⟩

/-- The last number is given out twice: the directives about the second parent are counted on the
first, which the second tick of the block fails. -/
theorem tick_again_run_twice :
    let ops : List (Op Nat × BlockNumber) := (List.replicate (2 ^ 32 - 2) opensAndClears).flatten ++
      [(.call (.setLeader 1), 1), (.call (.openParent 0 .root "t"), 1),
        (.call (.openParent 0 .root "u"), 1)]
    let t := (new oneDirective (some 0)).run ops
    ¬ (t.tick 2).2.tick 2 = ([], (t.tick 2).2) := by
  dsimp only
  rw [run_append, run_opensAndClears rfl _ (by decide)]
  decide

end Accounts

end AkumaMiot.TaskTable

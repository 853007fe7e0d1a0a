import AkumaMiot.Agent.Told

/-!
# Where a query's result goes

A result may be fed at once, collected up to a deadline, read behind a turn that is thinking, held
once the follow-ups are spent and fed later, or fed beside a wake. Each of these hands it over.
-/
namespace AkumaMiot

namespace Back

/-- The query a result is of. -/
def asked : Back → List Nat
  | result _ _ _ _ asked => [asked.no]
  | recordDone _ => []

/-- It was asked in this session, if it is a result. -/
def Current (session : Nat) : Back → Prop
  | result _ _ of _ _ => of = session
  | recordDone _ => True

end Back

namespace Spawned

def asked : Spawned → List Nat
  | query _ _ _ asked => [asked.no]
  | record _ => []

def Current (session : Nat) : Spawned → Prop
  | query _ _ of _ => of = session
  | record _ => True

theorem back_asked (out : ToolOut) (task : Spawned) : (task.back out).asked = task.asked := by
  cases task <;> rfl

theorem back_current {session : Nat} (out : ToolOut) {task : Spawned}
    (current : task.Current session) :
    (task.back out).Current session := by
  cases task <;> exact current

end Spawned

/-- The rows a turn's message fed, unless the turn was given up. -/
def Fed.rows (f : Fed) : List Row := if f.lost then [] else f.pieces.flatMap Piece.rows

/-- Results as rows, in the order they were read, by the ids they were logged under. -/
def rowsOf (toolBase : Nat) (read : List Landed) : List Row :=
  read.mapIdx fun i r => ⟨toolBase + i, feed (toolBase + i) (keep r.out.text), r.asked⟩

theorem rowsOf_append (toolBase : Nat) (read : List Landed) (r : Landed) :
    rowsOf toolBase (read ++ [r]) = rowsOf toolBase read ++
      [⟨toolBase + read.length, feed (toolBase + read.length) (keep r.out.text), r.asked⟩] := by
  simp [rowsOf, List.mapIdx_append]

theorem rowsOf_nos (toolBase : Nat) (read : List Landed) :
    (rowsOf toolBase read).map (·.asked.no) = read.map (·.asked.no) := by
  induction read using List.reverseRecOn with
  | nil => rfl
  | append_singleton read r ih => simp [rowsOf_append, ih]

/-- What is found first is what is taken out first. -/
theorem perm_cons_eraseP {α : Type} {p : α → Bool} {l : List α} {a : α}
    (found : l.find? p = some a) :
    l.Perm (a :: l.eraseP p) := by
  induction l with
  | nil => cases found
  | cons b l ih =>
    cases holds : p b with
    | true =>
      rw [List.find?_cons_of_pos holds] at found
      obtain rfl := Option.some.inj found
      rw [List.eraseP_cons_of_pos holds]
    | false =>
      rw [List.find?_cons_of_neg (by simp [holds])] at found
      rw [List.eraseP_cons_of_neg (by simp [holds])]
      exact (List.Perm.cons b (ih found)).trans (.swap a b _)

namespace AgentStateMachine

/-- Every row fed, in order. -/
def fedRows (m : AgentStateMachine) : List Row := m.trace.fed.flatMap Fed.rows

/-- The queries whose results were read, are unread, and are not yet in. -/
def askedNos (m : AgentStateMachine) : List Nat :=
  m.trace.read.map (·.asked.no) ++ m.backTx.flatMap Back.asked ++ m.tasks.flatMap Spawned.asked

end AgentStateMachine

namespace Agent

open AgentStateMachine

variable {host : Host} {e : Event} {spent : Prop}

/-- The queries and their results in a machine with `results` in hand. -/
structure Handed (m : AgentStateMachine) (results : List Row) : Prop where
  log : m.toolLog = m.trace.read.map fun r => (r.name, keep r.out.text)
  rows : m.fedRows ++ m.held ++ results = rowsOf m.toolBase m.trace.read
  full : m.held ≠ [] → MAX_FOLLOWUPS ≤ m.followups
  places : m.askedNos.Perm (List.range m.trace.asks)
  unread : ∀ b ∈ m.backTx, b.Current m.session
  flying : ∀ t ∈ m.tasks, t.Current m.session

theorem Handed.read {m : AgentStateMachine} {results : List Row} {x : Back} {rest : List Back}
    (handed : Handed m results) (unread : m.backTx = x :: rest) :
    Handed { (back (m, results) x).1 with backTx := rest } (back (m, results) x).2 := by
  have places := handed.places
  unfold askedNos at places
  rw [unread, List.flatMap_cons] at places
  have others : ∀ b ∈ rest, b.Current m.session := fun b member =>
    handed.unread b (by simp [unread, member])
  cases x with
  | recordDone flight =>
    exact ⟨handed.log, handed.rows, handed.full, places, others, handed.flying⟩
  | result name out session flight asked =>
    have current : session = m.session := handed.unread (.result name out session flight asked)
      (by simp [unread])
    subst current
    obtain ⟨queries, bg, live, running, eq⟩ := back_current m results name out flight asked
    rw [eq]
    refine ⟨?_, ?_, handed.full, ?_, others, handed.flying⟩
    · simp only [handed.log, List.map_append, List.map_cons, List.map_nil]
    · -- Its row comes after every row there is, under the id it is logged under.
      have id : m.nextId = m.toolBase + m.trace.read.length := by
        rw [nextId, handed.log, List.length_map]
      simp only [fedRows]
      rw [rowsOf_append, ← handed.rows, ← id]
      simp [fedRows]
    · simpa [askedNos, Back.asked] using places

theorem range_snoc (nos : List Nat) {n : Nat} (perm : nos.Perm (List.range n)) :
    (nos ++ [n]).Perm (List.range (n + 1)) := by
  rw [List.range_succ]
  exact perm.append_right [n]

theorem Handed.instant {m : AgentStateMachine} {results : List Row} (handed : Handed m results)
    (name : String) (out : ToolOut) : Handed (m.instant name out) results where
  log := handed.log
  rows := handed.rows
  full := handed.full
  places := by
    refine List.Perm.trans ?_ (range_snoc _ handed.places)
    -- The new one is unread, before everything in flight.
    simp only [askedNos, AgentStateMachine.instant, List.flatMap_append, List.flatMap_cons,
      List.flatMap_nil, List.append_nil, Back.asked, asking, List.append_assoc]
    exact ((List.perm_append_comm).append_left _).append_left _
  unread b member := by
    rcases List.mem_append.mp member with old | new
    · exact handed.unread b old
    · rw [List.mem_singleton.mp new]
      rfl
  flying := handed.flying

theorem Handed.query {m : AgentStateMachine} {results : List Row} (handed : Handed m results)
    (c : Call) : Handed (m.startQuery c) results where
  log := handed.log
  rows := handed.rows
  full := handed.full
  places := by
    refine List.Perm.trans (.of_eq ?_) (range_snoc _ handed.places)
    simp [askedNos, startQuery, takeOff, Spawned.asked, asking]
  unread := handed.unread
  flying t member := by
    rcases List.mem_append.mp member with old | new
    · exact handed.flying t old
    · rw [List.mem_singleton.mp new]
      rfl

theorem Handed.record {m : AgentStateMachine} {results : List Row} (handed : Handed m results)
    (c : Call) : Handed (m.startRecord c) results where
  log := handed.log
  rows := handed.rows
  full := handed.full
  places := by
    refine List.Perm.trans (.of_eq ?_) handed.places
    simp [askedNos, startRecord, takeOff, Spawned.asked]
  unread := handed.unread
  flying t member := by
    rcases List.mem_append.mp member with old | new
    · exact handed.flying t old
    · rw [List.mem_singleton.mp new]
      trivial

theorem Handed.lands {s : Agent} {results : List Row} (handed : Handed s.m results) (flight : Nat)
    (out : ToolOut) : Handed (s.lands flight out).m results := by
  unfold Agent.lands
  split
  · exact handed
  next task found =>
    have perm := perm_cons_eraseP found
    refine ⟨handed.log, handed.rows, handed.full, ?_, ?_, ?_⟩
    · refine List.Perm.trans ?_ handed.places
      have moved := perm.flatMap_right Spawned.asked
      simp only [askedNos, List.flatMap_append, List.flatMap_cons, List.flatMap_nil,
        List.append_nil, Spawned.back_asked, List.append_assoc] at moved ⊢
      exact ((moved.symm).append_left _).append_left _
    · intro b member
      rcases List.mem_append.mp member with old | new
      · exact handed.unread b old
      · rw [List.mem_singleton.mp new]
        exact Spawned.back_current out (handed.flying task (List.mem_of_find?_eq_some found))
    · exact fun t member => handed.flying t (List.mem_of_mem_eraseP member)

/-- A turn feeds what it is given, after all that was fed before. -/
theorem Handed.turn {m : AgentStateMachine} {b : Batch} (handed : Handed m b.results)
    (none_ : m.held = []) (mo : Moment) (check : Bool) : Handed (m.turn mo b check).1 [] := by
  obtain ⟨pieces, rows, wakes, trace, history⟩ := turn_fed mo m b check
  obtain ⟨backTx, tasks, toolLog, toolBase⟩ := turn_flights mo m b check
  refine ⟨by rw [toolLog, trace]; exact handed.log, ?_, by simp [none_], ?_, ?_, ?_⟩
  · have fed := handed.rows
    rw [none_] at fed
    simp only [fedRows, turn_held, none_, toolBase, trace, List.flatMap_append, List.flatMap_cons,
      List.flatMap_nil, Fed.rows, Bool.false_eq_true, if_false, rows, List.append_nil] at fed ⊢
    exact fed
  · simp only [askedNos, backTx, tasks, trace]
    exact handed.places
  · rw [backTx, turn_session]
    exact handed.unread
  · rw [tasks, turn_session]
    exact handed.flying

/-! ## Runs without a reset -/

/-- The queries are accounted for, and no reset is on its way. -/
structure Feeding (x : Agent × Hand) : Prop where
  handed : Handed x.1.m x.2.results
  current : ∀ i ∈ x.1.m.pending ++ x.1.inbox, i.isReset = false

theorem Feeding.taking {s s' : Agent} {b : Batch} {i : Inbound}
    (feeding : Feeding (s, .batch b)) (waiting : List Inbound)
    (eq : s'.m = { (take (s.m, b) i).1 with pending := waiting })
    (wake : i.isReset = false)
    (current : ∀ j ∈ waiting ++ s'.inbox, j.isReset = false) :
    Feeding (s', .batch (take (s.m, b) i).2) := by
  cases i with
  | reset why n => cases wake
  | wake w =>
    have handed := feeding.handed
    refine ⟨?_, by simpa only [eq] using current⟩
    simp only [eq]
    exact ⟨handed.log, handed.rows, handed.full, handed.places, handed.unread, handed.flying⟩

theorem Moves.feeding {x y : Agent × Hand} (move : Moves host e spent x y) (kept : ¬spent)
    (none_ : ∀ why, e ≠ .reset why) (feeding : Feeding x) : Feeding y := by
  have handed := feeding.handed
  have current := feeding.current
  cases move with
  | minor s h minor =>
    have same : ∀ {m : AgentStateMachine}, s.m.Minor m → Handed m h.results := fun minor => by
      refine ⟨?_, ?_, ?_, ?_, ?_, ?_⟩
      · rw [minor.toolLog, minor.trace]; exact handed.log
      · rw [fedRows, minor.trace, minor.held, minor.toolBase]; exact handed.rows
      · rw [minor.held, minor.followups]; exact handed.full
      · rw [askedNos, minor.trace, minor.backTx, minor.tasks]; exact handed.places
      · rw [minor.backTx, minor.session]; exact handed.unread
      · rw [minor.tasks, minor.session]; exact handed.flying
    exact ⟨same minor, by simpa only [minor.pending] using current⟩
  | @takePending s b i rest waiting foreign =>
    rw [waiting] at current
    refine feeding.taking rest (by rw [take_pending]) (current i (by simp)) ?_
    exact fun j member => current j (List.mem_cons_of_mem i member)
  | @takeInbox s b i rest empty queued foreign =>
    rw [empty, queued] at current
    refine feeding.taking (take (s.m, b) i).1.pending rfl (current i (by simp)) ?_
    rw [take_pending_eq, empty]
    exact fun j member => current j (List.mem_cons_of_mem i member)
  | read s b unread =>
    refine ⟨handed.read unread, ?_⟩
    simpa only [(back_keeps (s.m, b.results) _).pending] using current
  | watch s tick empty =>
    obtain ⟨m', notices, watched, eq⟩ := watch_watched host _ s.m
    rw [eq]
    -- A tick queues no reset, and hands nothing over.
    refine ⟨?_, fun i member => ?_⟩
    · cases watched <;>
        exact ⟨handed.log, handed.rows, handed.full, handed.places, handed.unread, handed.flying⟩
    · rcases List.mem_append.mp member with waits | queued
      · cases watched with
        | nothing => exact current i (List.mem_append_left _ waits)
        | released text =>
          simp only [queueOwn, empty, List.nil_append, List.mem_singleton] at waits
          rw [waits]
          rfl
        | nagged text reminder =>
          simp only [queueOwn, empty, List.nil_append, List.mem_singleton] at waits
          rw [waits]
          rfl
      · exact current i (List.mem_append_right _ queued)
  | drop s empty wakes results =>
    have rows := handed.rows
    simp only [Hand.results, results] at rows
    exact ⟨⟨handed.log, rows, handed.full, handed.places, handed.unread, handed.flying⟩, current⟩
  | hold s empty wakes capped =>
    refine ⟨⟨handed.log, ?_, fun _ => capped, handed.places, handed.unread, handed.flying⟩, current⟩
    have rows := handed.rows
    simp only [Hand.results, fedRows, refund, holdBack, List.append_nil, List.append_assoc]
      at rows ⊢
    exact rows
  | readEarly s h foreign =>
    refine ⟨⟨handed.log, handed.rows, handed.full, handed.places, handed.unread, handed.flying⟩, ?_⟩
    simpa using current
  | giveUp s t past =>
    have none_ : s.resetWaiting = false :=
      List.any_eq_false.mpr fun i member => by simp [current i (List.mem_append_left _ member)]
    rcases past with lost | waiting
    · exact absurd lost kept
    · rw [none_] at waiting
      cases waiting
  | instant s t name out => exact ⟨handed.instant name out, current⟩
  | query s t c => exact ⟨handed.query c, current⟩
  | record s t c => exact ⟨handed.record c, current⟩
  | @send s h i foreign numbered asked =>
    have wake : ∀ n, (i n).isReset = false := by
      rcases asked with ⟨why, is⟩ | wake
      · exact absurd is (none_ why)
      · exact wake
    unfold Agent.send
    split
    · exact feeding
    · refine ⟨⟨handed.log, handed.rows, handed.full, handed.places, handed.unread,
        handed.flying⟩, fun j member => ?_⟩
      rw [← List.append_assoc] at member
      rcases List.mem_append.mp member with old | new
      · exact current j old
      · rw [List.mem_singleton.mp new]
        exact wake _
  | lands s h flight out =>
    refine ⟨handed.lands flight out, ?_⟩
    unfold Agent.lands
    split <;> exact current
  | _ =>
    exact ⟨⟨handed.log, handed.rows, handed.full, handed.places, handed.unread, handed.flying⟩,
      current⟩

theorem Asks.feeding {s s' : Agent} {b : Batch} (asked : Asks s b s')
    (feeding : Feeding (s, .batch b)) : Feeding (s', s'.hand) := by
  have handed := feeding.handed
  obtain ⟨m, b', mo, check, poised, is, hand, inbox⟩ := asked.turned
  have none_ := poised.none_ handed.full
  refine ⟨?_, ?_⟩
  · rw [is, hand]
    refine Handed.turn ?_ none_ mo check
    refine ⟨?_, ?_, fun some_ => absurd none_ some_, ?_, ?_, ?_⟩
    · rw [poised.toolLog, poised.trace]
      exact handed.log
    · -- What was held goes in first.
      have rows : s.m.fedRows ++ s.m.held ++ b.results = rowsOf s.m.toolBase s.m.trace.read :=
        handed.rows
      rw [fedRows, poised.trace, poised.toolBase, ← rows, List.append_assoc, poised.results,
        ← List.append_assoc]
      rfl
    · rw [askedNos, poised.trace, poised.backTx, poised.tasks]
      exact handed.places
    · rw [poised.backTx, poised.session]
      exact handed.unread
    · rw [poised.tasks, poised.session]
      exact handed.flying
  · simp only [is, turn_pending, poised.pending, inbox]
    exact feeding.current

/-- The turn the model is asked on. -/
def asking (s : Agent) : Option Thinking :=
  match s.at_ with
  | .converse t => some t
  | _ => none

/-- The event is no reset, and no model call that runs out of retries. -/
def Lossless (s : Agent) : Event → Prop
  | .reset _ => False
  | .failed => ∀ t ∈ s.asking, t.attempt < LLM_RETRIES
  | _ => True

instance (s : Agent) (e : Event) : Decidable (Lossless s e) :=
  match e with
  | .reset _ => .isFalse id
  | .failed => inferInstanceAs (Decidable (∀ t ∈ s.asking, t.attempt < LLM_RETRIES))
  | .wake .. | .hangUp | .lands .. | .go _ | .inbox _ | .channel _ | .tick _ | .deadline _
  | .replied .. | .woke | .summarized _ => .isTrue trivial

theorem Lossless.kept {s : Agent} {e : Event} (lossless : Lossless s e) :
    ¬s.exhausts e ∧ ∀ why, e ≠ .reset why := by
  constructor
  · rintro ⟨t, failed, here, spent⟩
    cases e with
    | failed => exact absurd (lossless t (by simp [asking, here])) (not_lt.mpr spent)
    | _ => cases failed
  · rintro why rfl
    exact lossless

theorem step_feeding (host : Host) {s : Agent} (settled : s.Settled) {e : Event}
    (lossless : Lossless s e) (feeding : Feeding (s, s.hand)) :
    Feeding (s.step host e, (s.step host e).hand) :=
  (step_steps host settled e).invariant
    (fun _ _ move => move.feeding lossless.kept.1 lossless.kept.2)
    (fun _ _ _ asked => asked.feeding) feeding

theorem start_feeding (host : Host) (saved : Option Saved) :
    Feeding (start host saved, (start host saved).hand) := by
  unfold start
  split
  · exact ⟨⟨rfl, rfl, by simp, by simp [askedNos], by simp, by simp⟩, by simp⟩
  · split
    · exact ⟨⟨rfl, rfl, by simp, by simp [askedNos], by simp, by simp⟩, by simp⟩
    · exact ⟨⟨rfl, rfl, by simp, by simp [askedNos], by simp, by simp⟩, by simp⟩

/-- Where the results of an agent's queries are. -/
structure FedOnce (s : Agent) : Prop where
  /-- Every query started is in one place and no other: its result is fed, held, in hand for the
  next turn or unread, or it has none yet. -/
  once : ((s.m.fedRows ++ s.m.held ++ s.hand.results).map (·.asked.no) ++
    s.m.backTx.flatMap Back.asked ++ s.m.tasks.flatMap Spawned.asked).Perm
      (List.range s.m.trace.asks)
  /-- What is fed, then held, then in hand is what was read, in that order, each as it is fed. -/
  inOrder : s.m.fedRows ++ s.m.held ++ s.hand.results = rowsOf s.m.toolBase s.m.trace.read
  /-- What is fed of a result stands in the message of its turn, as the log's row of it. -/
  said : ∀ f ∈ s.m.trace.fed, ∀ r ∈ f.rows, ∃ i landed, s.m.trace.read[i]? = some landed ∧
    r.id = s.m.toolBase + i ∧ r.asked = landed.asked ∧
    (rowText r.id landed.name (feed r.id (keep landed.out.text))).toList <:+: f.said.toList
  /-- At the end nothing is left in hand. -/
  atEnd : s.at_ = .ended → s.hand.results = []

/-- A row of what was read is the log's row of it. -/
theorem Handed.rowOf {m : AgentStateMachine} {results : List Row} (handed : Handed m results)
    {r : Row} (there : r ∈ rowsOf m.toolBase m.trace.read) :
    ∃ i landed, m.trace.read[i]? = some landed ∧ r.id = m.toolBase + i ∧ r.asked = landed.asked ∧
      m.rowOf r = rowText r.id landed.name (feed r.id (keep landed.out.text)) := by
  obtain ⟨i, inside, is⟩ := List.mem_mapIdx.mp there
  have logged : m.logged (m.toolBase + i) =
      some (m.trace.read[i].name, keep m.trace.read[i].out.text) := by
    simp [AgentStateMachine.logged, handed.log, inside]
  have id : r.id = m.toolBase + i := by rw [← is]
  have text : r.text = feed r.id (keep m.trace.read[i].out.text) := by rw [← is]
  have asked : r.asked = m.trace.read[i].asked := by rw [← is]
  refine ⟨i, m.trace.read[i], List.getElem?_eq_getElem inside, id, asked, ?_⟩
  rw [AgentStateMachine.rowOf, ← text, id, logged, Option.getD_some]

theorem Feeding.fedOnce {s : Agent} {old : Fresh → Prop} (feeding : Feeding (s, s.hand))
    (told : Told old s s.hand) : FedOnce s where
  once := by
    have places := feeding.handed.places
    have rows : s.m.fedRows ++ s.m.held ++ s.hand.results = rowsOf s.m.toolBase s.m.trace.read :=
      feeding.handed.rows
    rw [rows, rowsOf_nos]
    exact places
  inOrder := feeding.handed.rows
  said f fed r within := by
    have rows : s.m.fedRows ++ s.m.held ++ s.hand.results = rowsOf s.m.toolBase s.m.trace.read :=
      feeding.handed.rows
    have there : r ∈ rowsOf s.m.toolBase s.m.trace.read := by
      rw [← rows]
      exact List.mem_append_left _ (List.mem_append_left _ (List.mem_flatMap.mpr ⟨f, fed, within⟩))
    obtain ⟨i, landed, read, id, asked, text⟩ := feeding.handed.rowOf there
    refine ⟨i, landed, read, id, asked, text ▸ told.worded.row fed ?_⟩
    unfold Fed.rows at within
    split at within
    · cases within
    · exact within
  atEnd ended := by simp [hand, ended, Hand.results]

/-- Every query result is fed exactly once, in every run without a reset whose model calls do not
run out of retries. What is fed is the messages that the run puts to the model. -/
theorem results_fed_once (host : Host) (saved : Option Saved) (events : List Event)
    (meets : Machine.Meets (step host) Lossless (start host saved) events) :
    FedOnce (after host saved events) ∧
      (after host saved events).m.trace.fed.map Fed.said =
        prompts host (start host saved) events := by
  have kept : (after host saved events).Settled ∧
      Feeding (after host saved events, (after host saved events).hand) :=
    Machine.run_invariant (fun s => s.Settled ∧ Feeding (s, s.hand))
      (fun s e inv lossless => ⟨step_settled host inv.1 e, step_feeding host inv.1 lossless inv.2⟩)
      ⟨start_settled host saved, start_feeding host saved⟩ meets
  exact ⟨kept.2.fedOnce (after_told host saved events), after_prompts host saved events⟩

/-- A host with two tools that look things up. -/
def lookupHost : Host := { dispatch := fun _ => .query }

/-- Three lookups, one of them a command in the background; two land while the third is waited
for, which is read behind a turn. -/
def lookups : List Event :=
  let at_ : Moment := { now := 0 }
  [.go at_, .wake "look them up" "said", .inbox at_,
    .failed, .woke,
    .replied at_ { text := "", calls := [{ name := "Peers" }, { name := "Running" },
      { name := "Bash", background := true }, { name := "Stats" }] },
    .go at_, .channel at_, .lands 1 { arg := "$ sleep 9", ok := true },
    .lands 0 { arg := "", ok := true, body := "kuro, meow" }, .channel at_, .deadline at_,
    .lands 2 { arg := "", ok := true, body := "4 turns" }, .replied at_ { text := "nya" },
    .go at_]

theorem results_fed_once_lookups : FedOnce (after lookupHost none lookups) ∧
    (after lookupHost none lookups).m.trace.fed.map Fed.said =
      prompts lookupHost (start lookupHost none) lookups :=
  results_fed_once lookupHost none lookups (by decide +kernel)

end Agent

end AkumaMiot

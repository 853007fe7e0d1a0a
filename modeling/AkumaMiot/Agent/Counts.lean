import AkumaMiot.Agent.Feeding
import AkumaMiot.Lib.KeyedList

/-!
# What is in flight

`queries` and `records` are raised where a call is dispatched and lowered where its result is
taken from the channel, whatever session it was asked in. A background call is in neither: its
flight is in `bg` for as long. The counts saturate at zero, and hide a result that was never
counted; that none ever does is part of their being exact.
-/
namespace AkumaMiot

open KeyedList

/-! ## What a call starts -/

inductive Starts
  | nothing | instant | query | background | record
deriving DecidableEq, Repr

/-- What becomes of a call: the loop's own tools answer at once, and so does a tool that is not
there. Only a `Bash` call is run in the background. -/
def Host.starts (host : Host) (c : Call) : Starts :=
  if c.name = "Compact" ∨ (c.name = "Reboot" ∧ host.rebootTool) then .nothing
  else if c.name ∈ AgentStateMachine.sessionTools then .instant
  else match if c.name ∈ AgentStateMachine.localTools then .query else host.dispatch c with
    | .query => if c.name = "Bash" ∧ c.background then .background else .query
    | .record => .record
    | .unknown => .instant

/-- What a result is of: a query, by its number and its flight if it has one, or a record. -/
inductive Due
  | query (no : Nat) (flight : Option Nat)
  | record (flight : Nat)
deriving DecidableEq, Repr

def Back.due : Back → Due
  | .result _ _ _ flight asked => .query asked.no flight
  | .recordDone flight => .record flight

def Spawned.due : Spawned → Due
  | .query flight _ _ asked => .query asked.no (some flight)
  | .record flight => .record flight

theorem Spawned.back_due (out : ToolOut) (task : Spawned) : (task.back out).due = task.due := by
  cases task <;> rfl

/-- A call that was dispatched: queries are numbered, and so are flights. -/
inductive Dispatched
  | instant (no : Nat)
  | query (no flight : Nat)
  | background (no flight : Nat)
  | record (flight : Nat)
deriving DecidableEq, Repr

namespace Dispatched

def no : Dispatched → Option Nat
  | instant no => some no
  | query no _ => some no
  | background no _ => some no
  | record _ => none

def flight : Dispatched → Option Nat
  | instant _ => none
  | query _ flight => some flight
  | background _ flight => some flight
  | record flight => some flight

def due : Dispatched → Due
  | instant no => .query no none
  | query no flight => .query no (some flight)
  | background no flight => .query no (some flight)
  | record flight => .record flight

/-- A query that its turn's batch waits for. -/
def awaited : Dispatched → Bool
  | instant _ => true
  | query .. => true
  | background .. => false
  | record _ => false

def recorded : Dispatched → Bool
  | record _ => true
  | _ => false

/-- The flight of a background call. -/
def aside : Dispatched → Option Nat
  | background _ flight => some flight
  | _ => none

/-- What a result is of says which query and which flight. -/
theorem eq_of_due {d e : Dispatched} (same : d.due = e.due) :
    d.no = e.no ∧ d.flight = e.flight := by
  cases d <;> cases e <;> simp_all [due, no, flight]

theorem aside_eq_some {d : Dispatched} {flight : Nat} :
    d.aside = some flight ↔ ∃ no, .background no flight = d := by
  cases d <;> simp [aside, eq_comm]

theorem flight_of_aside {d : Dispatched} {flight : Nat} (is : d.aside = some flight) :
    d.flight = some flight := by
  obtain ⟨no, rfl⟩ := aside_eq_some.mp is
  rfl

end Dispatched

/-- The calls dispatched so far, in order, and the numbers their queries and flights took. -/
structure CallLog where
  dispatched : List Dispatched := []
  asks : Nat := 0
  flights : Nat := 0

namespace CallLog

def call (host : Host) (l : CallLog) (c : Call) : CallLog :=
  match host.starts c with
  | .nothing => l
  | .instant => { l with dispatched := l.dispatched ++ [.instant l.asks], asks := l.asks + 1 }
  | .query => ⟨l.dispatched ++ [.query l.asks l.flights], l.asks + 1, l.flights + 1⟩
  | .background => ⟨l.dispatched ++ [.background l.asks l.flights], l.asks + 1, l.flights + 1⟩
  | .record =>
    { l with dispatched := l.dispatched ++ [.record l.flights], flights := l.flights + 1 }

def of (host : Host) (calls : List Call) : CallLog := calls.foldl (call host) {}

theorem of_concat (host : Host) (calls : List Call) (c : Call) :
    of host (calls ++ [c]) = (of host calls).call host c := by
  simp only [of, List.foldl_append, List.foldl_cons, List.foldl_nil]

/-- Queries are numbered in order, and flights too. -/
structure Numbered (l : CallLog) : Prop where
  nos : l.dispatched.filterMap Dispatched.no = List.range l.asks
  flights : l.dispatched.filterMap Dispatched.flight = List.range l.flights

theorem Numbered.call {l : CallLog} (numbered : l.Numbered) (host : Host) (c : Call) :
    (l.call host c).Numbered := by
  obtain ⟨nos, flights⟩ := numbered
  unfold CallLog.call
  split <;> constructor <;>
    simp [List.filterMap_append, nos, flights, Dispatched.no, Dispatched.flight, List.range_succ]

theorem of_numbered (host : Host) (calls : List Call) : (of host calls).Numbered := by
  induction calls using List.reverseRecOn with
  | nil => exact ⟨rfl, rfl⟩
  | append_singleton calls c ih =>
    rw [of_concat]
    exact ih.call host c

/-- A number is given out once. -/
theorem pairwise_of_range {f : Dispatched → Option Nat} {ds : List Dispatched} {n : Nat}
    (numbers : ds.filterMap f = List.range n) :
    ds.Pairwise fun d e => ∀ k, f d = some k → f e ≠ some k := by
  have once : (ds.filterMap f).Nodup := by
    rw [numbers]
    exact List.nodup_range
  refine (List.pairwise_filterMap.mp once).imp fun apart k one two => ?_
  exact apart k one k two rfl

theorem Numbered.once {l : CallLog} (numbered : l.Numbered) :
    (l.dispatched.map Dispatched.due).Nodup := by
  refine List.pairwise_map.mpr ?_
  refine List.Pairwise.imp₂ (fun d e no flight same => ?_) (pairwise_of_range numbered.nos)
    (pairwise_of_range numbered.flights)
  have both := Dispatched.eq_of_due same
  cases d with
  | record f => exact flight f rfl both.2.symm
  | instant n => exact no n rfl both.1.symm
  | query n f => exact no n rfl both.1.symm
  | background n f => exact no n rfl both.1.symm

/-- A flight is one call's. -/
theorem Numbered.apart {l : CallLog} (numbered : l.Numbered) {d e : Dispatched}
    (here : d ∈ l.dispatched) (there : e ∈ l.dispatched) {f : Nat} (one : d.flight = some f)
    (two : e.flight = some f) : d = e := by
  have pairwise := pairwise_of_range numbered.flights
  by_contra other
  have : Std.Symm fun d e : Dispatched => ∀ k, d.flight = some k → e.flight ≠ some k :=
    ⟨fun _ _ differ k one two => differ k two one⟩
  exact pairwise.forall here there other f one two

end CallLog

/-! ## The counts -/

namespace AgentStateMachine

/-- What the calls acted on have started. -/
def callLog (host : Host) (m : AgentStateMachine) : CallLog :=
  .of host (m.trace.acted.map Acted.call)

/-- The calls dispatched whose results are not among those taken. -/
def outstanding (host : Host) (taken : List Back) (m : AgentStateMachine) : List Dispatched :=
  remaining Dispatched.due (taken.map Back.due) (m.callLog host).dispatched

/-- What taking it from the channel does to the counts. -/
def settle (m : AgentStateMachine) : Back → AgentStateMachine
  | .result _ _ _ flight _ => m.settleFlight flight
  | .recordDone _ => { m with records := m.records - 1 }

/-- Taking this from the channel does not lower a count that is zero. -/
def Covers (m : AgentStateMachine) : Back → Prop
  | .result _ _ _ (some flight) _ => flight ∈ m.bg ∨ 0 < m.queries
  | .result _ _ _ none _ => 0 < m.queries
  | .recordDone _ => 0 < m.records

/-- What is in flight, and what was called, is as it was. -/
structure Same (m m' : AgentStateMachine) : Prop where
  backTx : m'.backTx = m.backTx
  tasks : m'.tasks = m.tasks
  queries : m'.queries = m.queries
  records : m'.records = m.records
  bg : m'.bg = m.bg
  flights : m'.flights = m.flights
  asks : m'.trace.asks = m.trace.asks
  acted : m'.trace.acted = m.trace.acted

theorem Same.refl (m : AgentStateMachine) : m.Same m := by constructor <;> rfl

theorem Same.trans {a b c : AgentStateMachine} (first : a.Same b) (second : b.Same c) :
    a.Same c where
  backTx := second.backTx.trans first.backTx
  tasks := second.tasks.trans first.tasks
  queries := second.queries.trans first.queries
  records := second.records.trans first.records
  bg := second.bg.trans first.bg
  flights := second.flights.trans first.flights
  asks := second.asks.trans first.asks
  acted := second.acted.trans first.acted

theorem back_same (m : AgentStateMachine) (results : List Row) (x : Back) :
    (m.settle x).Same (back (m, results) x).1 := by
  cases x with
  | recordDone flight => constructor <;> rfl
  | result name out session flight asked =>
    have landed : (m.settleFlight flight).Same ((m.settleFlight flight).land flight) := by
      cases flight <;> constructor <;> rfl
    simp only [back, settle]
    split <;> exact landed.trans (by constructor <;> rfl)

end AgentStateMachine

/-- What is in flight, after `taken` was taken from the channel. -/
structure InFlight (host : Host) (taken : List Back) (m : AgentStateMachine) : Prop where
  /-- Every call dispatched sends one result: it was taken, is unread, or is still to come. -/
  places : (taken.map Back.due ++ (m.backTx.map Back.due ++ m.tasks.map Spawned.due)).Perm
    ((m.callLog host).dispatched.map Dispatched.due)
  queries : m.queries = (m.outstanding host taken).countP Dispatched.awaited
  records : m.records = (m.outstanding host taken).countP Dispatched.recorded
  bg : ∀ flight, flight ∈ m.bg ↔ ∃ no, .background no flight ∈ m.outstanding host taken
  bgOnce : m.bg.Nodup
  asks : m.trace.asks = (m.callLog host).asks
  flights : m.flights = (m.callLog host).flights

/-- What is next in the channel is of the call `d`, and is not taken yet. -/
structure Next (host : Host) (taken : List Back) (m : AgentStateMachine) (x : Back)
    (d : Dispatched) : Prop where
  here : d ∈ (m.callLog host).dispatched
  due : d.due = x.due
  fresh : d.due ∉ taken.map Back.due
  left : (m.outstanding host taken).Perm (d :: m.outstanding host (taken ++ [x]))

namespace InFlight

open AgentStateMachine

variable {host : Host} {taken : List Back} {m m' : AgentStateMachine} {x : Back} {rest : List Back}
  {d : Dispatched}

theorem next (inFlight : InFlight host taken m) (unread : m.backTx = x :: rest) :
    ∃ d, Next host taken m x d := by
  have places := inFlight.places
  have once := (CallLog.of_numbered host (m.trace.acted.map Acted.call)).once
  rw [unread, List.map_cons, List.cons_append] at places
  obtain ⟨d, here, same⟩ := List.mem_map.mp
    (places.subset (List.mem_append_right _ (List.mem_cons_self ..)))
  have fresh : d.due ∉ taken.map Back.due := fun old =>
    List.disjoint_of_nodup_append (places.nodup_iff.mpr once) (same ▸ old) (List.mem_cons_self ..)
  refine ⟨d, here, same, fresh, ?_⟩
  have perm := remaining_perm once here fresh
  rw [same] at perm
  simpa only [outstanding, callLog, List.map_append, List.map_cons, List.map_nil] using perm

/-- A background flight's result is told from the others' by its flight. -/
theorem mem_bg (inFlight : InFlight host taken m) (next : Next host taken m x d) {flight : Nat}
    (is : d.flight = some flight) : flight ∈ m.bg ↔ d.aside = some flight := by
  have numbered := CallLog.of_numbered host (m.trace.acted.map Acted.call)
  rw [inFlight.bg]
  constructor
  · rintro ⟨no, member⟩
    rw [numbered.apart next.here (mem_remaining.mp member).1 is rfl]
    rfl
  · intro background
    obtain ⟨no, rfl⟩ := Dispatched.aside_eq_some.mp background
    exact ⟨no, mem_remaining.mpr ⟨next.here, next.fresh⟩⟩

theorem covers (inFlight : InFlight host taken m) (unread : m.backTx = x :: rest) :
    m.Covers x := by
  obtain ⟨d, next⟩ := inFlight.next unread
  have queries : m.queries = _ := inFlight.queries.trans (next.left.countP_eq _)
  have records : m.records = _ := inFlight.records.trans (next.left.countP_eq _)
  rw [List.countP_cons] at queries records
  have due := next.due
  -- The call it is of is one of those counted, by the count or by the set.
  cases x with
  | recordDone flight =>
    cases d with
    | record f => simp_all [Covers, Dispatched.recorded]
    | _ => cases due
  | result name out session flight asked =>
    cases d with
    | record f => cases due
    | instant no =>
      cases due
      simp_all [Covers, Dispatched.awaited]
    | query no f =>
      cases due
      simp_all [Covers, Dispatched.awaited]
    | background no f =>
      cases due
      exact .inl ((inFlight.mem_bg next rfl).mpr rfl)

theorem same (same : m.Same m') (inFlight : InFlight host taken m) : InFlight host taken m' := by
  obtain ⟨backTx, tasks, queries, records, bg, flights, asks, acted⟩ := same
  obtain ⟨places, queries', records', bg', bgOnce, asks', flights'⟩ := inFlight
  simp only [outstanding, callLog] at places queries' records' bg' asks' flights'
  constructor <;> simp only [outstanding, callLog, *, implies_true]

/-- One result more was taken. -/
theorem take (inFlight : InFlight host taken m) (unread : m.backTx = x :: rest)
    (next : Next host taken m x d) (backTx : m'.backTx = rest) (tasks : m'.tasks = m.tasks)
    (acted : m'.trace.acted = m.trace.acted) (asks : m'.trace.asks = m.trace.asks)
    (flights : m'.flights = m.flights)
    (queries : m.queries = m'.queries + if d.awaited then 1 else 0)
    (records : m.records = m'.records + if d.recorded then 1 else 0)
    (bg : m'.bg = m.bg.filter (d.aside ≠ some ·)) :
    InFlight host (taken ++ [x]) m' := by
  have callLog_ : m'.callLog host = m.callLog host := by rw [callLog, callLog, acted]
  have outstanding_ : m'.outstanding host (taken ++ [x]) = m.outstanding host (taken ++ [x]) := by
    rw [outstanding, outstanding, callLog_]
  constructor
  · have places := inFlight.places
    rw [unread] at places
    simpa [backTx, tasks, callLog_] using places
  · have was := inFlight.queries.trans (next.left.countP_eq _)
    rw [List.countP_cons] at was
    rw [outstanding_]
    omega
  · have was := inFlight.records.trans (next.left.countP_eq _)
    rw [List.countP_cons] at was
    rw [outstanding_]
    omega
  · intro flight
    rw [bg, List.mem_filter, inFlight.bg, outstanding_]
    simp only [next.left.mem_iff, List.mem_cons, ne_eq, decide_not, Bool.not_eq_true',
      decide_eq_false_iff_not]
    constructor
    · rintro ⟨⟨no, rfl | stays⟩, other⟩
      · exact absurd rfl other
      · exact ⟨no, stays⟩
    · rintro ⟨no, stays⟩
      refine ⟨⟨no, .inr stays⟩, fun same => ?_⟩
      -- It would be the very call whose result was taken.
      have numbered := CallLog.of_numbered host (m.trace.acted.map Acted.call)
      obtain ⟨there, left⟩ := mem_remaining.mp stays
      rw [← numbered.apart next.here there (Dispatched.flight_of_aside same) rfl, next.due] at left
      exact left (by simp)
  · rw [bg]
    exact inFlight.bgOnce.filter _
  · rw [asks, callLog_, inFlight.asks]
  · rw [flights, callLog_, inFlight.flights]

theorem settle (inFlight : InFlight host taken m) (unread : m.backTx = x :: rest) :
    InFlight host (taken ++ [x]) { m.settle x with backTx := rest } := by
  obtain ⟨d, next⟩ := inFlight.next unread
  have covers := inFlight.covers unread
  have due := next.due
  cases x with
  | recordDone flight =>
    cases d with
    | record f =>
      refine inFlight.take unread next rfl rfl rfl rfl rfl rfl ?_ ?_
      · exact (Nat.sub_add_cancel covers).symm
      · simp [AgentStateMachine.settle, Dispatched.aside]
    | _ => cases due
  | result name out session flight asked =>
    cases d with
    | record f => cases due
    | instant no =>
      cases due
      refine inFlight.take unread next rfl rfl rfl rfl rfl ?_ rfl ?_
      · exact (Nat.sub_add_cancel covers).symm
      · simp [AgentStateMachine.settle, settleFlight, Dispatched.aside]
    | query no f =>
      cases due
      -- Its flight is its own, so no background call is taken for it.
      have other : f ∉ m.bg := fun member => by cases (inFlight.mem_bg next rfl).mp member
      have some_ : 0 < m.queries := covers.resolve_left other
      simp only [AgentStateMachine.settle, settleFlight, other, if_false]
      refine inFlight.take unread next rfl rfl rfl rfl rfl ?_ rfl ?_
      · exact (Nat.sub_add_cancel some_).symm
      · simp [Dispatched.aside]
    | background no f =>
      cases due
      have member : f ∈ m.bg := (inFlight.mem_bg next rfl).mpr rfl
      simp only [AgentStateMachine.settle, settleFlight, member, if_true]
      refine inFlight.take unread next rfl rfl rfl rfl rfl rfl rfl ?_
      simp [Dispatched.aside, eq_comm]

theorem read (inFlight : InFlight host taken m) (unread : m.backTx = x :: rest)
    (results : List Row) :
    InFlight host (taken ++ [x]) { (back (m, results) x).1 with backTx := rest } := by
  refine (inFlight.settle unread).same ?_
  obtain ⟨backTx, tasks, queries, records, bg, flights, asks, acted⟩ := back_same m results x
  exact ⟨rfl, tasks, queries, records, bg, flights, asks, acted⟩

/-- Results are read in the order they came back. -/
theorem reads {read : List Back} (inFlight : InFlight host taken m)
    (unread : m.backTx = read ++ rest) (results : List Row) :
    InFlight host (taken ++ read) (read.foldl back ({ m with backTx := rest }, results)).1 ∧
      (read.foldl back ({ m with backTx := rest }, results)).1.backTx = rest := by
  induction read generalizing taken m results with
  | nil =>
    refine ⟨?_, rfl⟩
    rw [List.append_nil]
    exact inFlight.same ⟨unread.symm, rfl, rfl, rfl, rfl, rfl, rfl, rfl⟩
  | cons x read ih =>
    have one := inFlight.read unread results
    have more := ih one rfl (back (m, results) x).2
    rw [List.append_assoc] at more
    rw [List.foldl_cons, back_backTx]
    exact more

/-- One call more was dispatched. -/
theorem start (inFlight : InFlight host taken m)
    (callLog_ : m'.callLog host =
      ⟨(m.callLog host).dispatched ++ [d], m'.trace.asks, m'.flights⟩)
    (places : (m'.backTx.map Back.due ++ m'.tasks.map Spawned.due).Perm
      (m.backTx.map Back.due ++ m.tasks.map Spawned.due ++ [d.due]))
    (queries : m'.queries = m.queries + if d.awaited then 1 else 0)
    (records : m'.records = m.records + if d.recorded then 1 else 0)
    (bg : m'.bg = m.bg ++ d.aside.toList) : InFlight host taken m' := by
  have numbered := CallLog.of_numbered host (m'.trace.acted.map Acted.call)
  have same : CallLog.of host (m'.trace.acted.map Acted.call) = _ := callLog_
  have once := numbered.once
  rw [same, List.map_append, List.map_singleton] at once
  have new : d.due ∉ (m.callLog host).dispatched.map Dispatched.due := fun old =>
    List.disjoint_of_nodup_append once old (List.mem_singleton_self _)
  have fresh : d.due ∉ taken.map Back.due := fun old =>
    new (inFlight.places.subset (List.mem_append_left _ old))
  have outstanding_ : m'.outstanding host taken = m.outstanding host taken ++ [d] := by
    rw [outstanding, callLog_]
    exact remaining_concat fresh
  constructor
  · rw [callLog_, List.map_append]
    refine (places.append_left _).trans ?_
    rw [← List.append_assoc]
    exact inFlight.places.append_right _
  · rw [outstanding_, List.countP_append, ← inFlight.queries, queries, List.countP_singleton]
  · rw [outstanding_, List.countP_append, ← inFlight.records, records, List.countP_singleton]
  · intro flight
    simp only [bg, outstanding_, List.mem_append, inFlight.bg, Option.mem_toList,
      List.mem_singleton, exists_or, Dispatched.aside_eq_some]
  · rw [bg]
    refine inFlight.bgOnce.append (by cases d.aside <;> simp) fun flight old is => ?_
    -- A flight that is new is not in the set.
    obtain ⟨no, flies⟩ := (inFlight.bg flight).mp old
    have there := (mem_remaining.mp flies).1
    have one : d.flight = some flight := Dispatched.flight_of_aside (Option.mem_toList.mp is)
    have both : d ∈ (CallLog.of host (m'.trace.acted.map Acted.call)).dispatched ∧
        .background no flight ∈ (CallLog.of host (m'.trace.acted.map Acted.call)).dispatched := by
      rw [same]
      exact ⟨by simp, List.mem_append_left _ there⟩
    rw [numbered.apart both.1 both.2 one rfl] at new
    exact new (List.mem_map_of_mem there)
  · rw [callLog_]
  · rw [callLog_]

theorem lands {s : Agent} (inFlight : InFlight host taken s.m) (flight : Nat) (out : ToolOut) :
    InFlight host taken (s.lands flight out).m ∧
      ∃ sent, (s.lands flight out).m.backTx = s.m.backTx ++ sent := by
  unfold Agent.lands
  split
  · exact ⟨inFlight, [], (List.append_nil _).symm⟩
  next task found =>
    refine ⟨?_, _, rfl⟩
    obtain ⟨places, queries, records, bg, bgOnce, asks, flights⟩ := inFlight
    refine ⟨List.Perm.trans ?_ places, queries, records, bg, bgOnce, asks, flights⟩
    -- It was among the tasks, and is now among the unread.
    refine List.Perm.append_left _ ?_
    have moved := (perm_cons_eraseP found).map Spawned.due
    simp only [List.map_append, List.map_cons, List.map_nil, Spawned.back_due,
      List.append_assoc, List.singleton_append] at moved ⊢
    exact moved.symm.append_left _

/-! ## Calls -/

theorem callLog_call {t : AgentStateMachine.Thinking} {c : Call}
    (acted : m'.trace.acted = (m.noteActed t c).trace.acted) :
    m'.callLog host = (m.callLog host).call host c := by
  rw [callLog, acted, noteActed, List.map_append, List.map_singleton, CallLog.of_concat]
  rfl

variable (inFlight : InFlight host taken m) (t : AgentStateMachine.Thinking) (c : Call)
include inFlight

theorem compact (starts : host.starts c = .nothing) (summary : String) :
    InFlight host taken ((m.noteActed t c).compact summary) := by
  have callLog_ : ((m.noteActed t c).compact summary).callLog host =
      (m.callLog host).call host c := callLog_call (t := t) rfl
  rw [CallLog.call, starts] at callLog_
  obtain ⟨places, queries, records, bg, bgOnce, asks, flights⟩ := inFlight
  have outstanding_ : ((m.noteActed t c).compact summary).outstanding host taken =
      m.outstanding host taken := by
    rw [outstanding, callLog_, outstanding]
  exact ⟨callLog_ ▸ places, outstanding_ ▸ queries, outstanding_ ▸ records, outstanding_ ▸ bg,
    bgOnce, callLog_ ▸ asks, callLog_ ▸ flights⟩

theorem instant (starts : host.starts c = .instant) (name : String) (out : ToolOut) :
    InFlight host taken ((m.noteActed t c).instant name out) := by
  have callLog_ : ((m.noteActed t c).instant name out).callLog host =
      (m.callLog host).call host c := callLog_call (t := t) rfl
  rw [CallLog.call, starts] at callLog_
  simp only [← inFlight.asks, ← inFlight.flights] at callLog_
  refine inFlight.start (d := .instant m.trace.asks) callLog_ ?_ rfl rfl (List.append_nil _).symm
  simp only [AgentStateMachine.instant, noteActed, asking, List.map_append, List.map_cons,
    List.map_nil, Back.due, Dispatched.due, List.append_assoc]
  exact List.perm_append_comm.append_left _

theorem query (starts : host.starts c = if c.name = "Bash" ∧ c.background then .background
      else .query) : InFlight host taken ((m.noteActed t c).startQuery c) := by
  have callLog_ : ((m.noteActed t c).startQuery c).callLog host = (m.callLog host).call host c :=
    callLog_call (t := t) rfl
  rw [CallLog.call, starts] at callLog_
  by_cases background : c.name = "Bash" ∧ c.background = true
  · simp only [background, and_self, if_true, ← inFlight.asks, ← inFlight.flights] at callLog_
    refine inFlight.start (d := .background m.trace.asks m.flights) callLog_ ?_ ?_ rfl ?_
    · simp [startQuery, noteActed, takeOff, asking, Spawned.due, Dispatched.due]
    · simp [startQuery, noteActed, takeOff, background, Dispatched.awaited]
    · simp [startQuery, noteActed, takeOff, background, Dispatched.aside]
  · simp only [background, if_false, ← inFlight.asks, ← inFlight.flights] at callLog_
    refine inFlight.start (d := .query m.trace.asks m.flights) callLog_ ?_ ?_ rfl ?_
    · simp [startQuery, noteActed, takeOff, asking, Spawned.due, Dispatched.due]
    · simp [startQuery, noteActed, takeOff, background, Dispatched.awaited]
    · simp [startQuery, noteActed, takeOff, background, Dispatched.aside]

theorem record (starts : host.starts c = .record) :
    InFlight host taken ((m.noteActed t c).startRecord c) := by
  have callLog_ : ((m.noteActed t c).startRecord c).callLog host = (m.callLog host).call host c :=
    callLog_call (t := t) rfl
  rw [CallLog.call, starts] at callLog_
  simp only [← inFlight.asks, ← inFlight.flights] at callLog_
  refine inFlight.start (d := .record m.flights) callLog_ ?_ rfl rfl (List.append_nil _).symm
  simp [startRecord, noteActed, takeOff, Spawned.due, Dispatched.due]

/-- A call acted on is in flight from then on, and what it sends at once is sent last. -/
theorem act (mo : Moment) (totalTokens : Nat) (compacted : Bool) :
    InFlight host taken
        (AgentStateMachine.act host mo totalTokens (m.noteActed t c, compacted) c).1 ∧
      ∃ sent, (AgentStateMachine.act host mo totalTokens (m.noteActed t c, compacted) c).1.backTx =
        m.backTx ++ sent := by
  unfold AgentStateMachine.act
  simp only
  split
  -- What the call starts is read off the branch it takes here.
  next compacts =>
    exact ⟨inFlight.compact t c (by rw [Host.starts, if_pos compacts]) _, [],
      (List.append_nil _).symm⟩
  next stays =>
    split
    -- An instant result is sent before the next call is looked at.
    next own =>
      exact ⟨inFlight.instant t c (by rw [Host.starts, if_neg stays, if_pos own]) _ _, _, rfl⟩
    next foreign =>
      unfold dispatch
      split
      next is =>
        refine ⟨inFlight.query t c ?_, [], (List.append_nil _).symm⟩
        rw [Host.starts, if_neg stays, if_neg foreign, is]
      next is =>
        refine ⟨inFlight.record t c ?_, [], (List.append_nil _).symm⟩
        rw [Host.starts, if_neg stays, if_neg foreign, is]
      next is =>
        refine ⟨inFlight.instant t c ?_ _ _, _, rfl⟩
        rw [Host.starts, if_neg stays, if_neg foreign, is]

theorem acts (mo : Moment) (totalTokens : Nat) (calls : List Call) (compacted : Bool) :
    InFlight host taken (calls.foldl (fun p c =>
        AgentStateMachine.act host mo totalTokens (p.1.noteActed t c, p.2) c) (m, compacted)).1 ∧
      ∃ sent, (calls.foldl (fun p c =>
        AgentStateMachine.act host mo totalTokens (p.1.noteActed t c, p.2) c)
          (m, compacted)).1.backTx = m.backTx ++ sent := by
  induction calls generalizing m compacted with
  | nil => exact ⟨inFlight, [], (List.append_nil _).symm⟩
  | cons c calls ih =>
    obtain ⟨one, sent, now⟩ := inFlight.act t c mo totalTokens compacted
    obtain ⟨all, more, later⟩ := ih one (AgentStateMachine.act host mo totalTokens
      (m.noteActed t c, compacted) c).2
    refine ⟨all, sent ++ more, ?_⟩
    rw [List.foldl_cons, later, now, List.append_assoc]

end InFlight

/-! ## One step -/

namespace AgentStateMachine

theorem Minor.same {m m' : AgentStateMachine} (minor : m.Minor m') : m.Same m' where
  backTx := minor.backTx
  tasks := minor.tasks
  queries := minor.queries
  records := minor.records
  bg := minor.bg
  flights := minor.flights
  asks := congrArg Trace.asks minor.trace
  acted := congrArg Trace.acted minor.trace

/-- A reset ends a session, and nothing that is in flight. -/
theorem take_same (p : AgentStateMachine × Batch) (i : Inbound) : p.1.Same (take p i).1 := by
  cases i <;> constructor <;> rfl

theorem takes_same (p : AgentStateMachine × Batch) (is : List Inbound) :
    p.1.Same (is.foldl take p).1 := by
  induction is generalizing p with
  | nil => exact .refl p.1
  | cons i is ih => exact (take_same p i).trans (ih (take p i))

theorem watch_same (host : Host) (mo : Moment) (m : AgentStateMachine) :
    m.Same (m.watch host mo) := by
  obtain ⟨m', notices, watched, eq⟩ := watch_watched host mo m
  rw [eq]
  cases watched <;> constructor <;> rfl

theorem turn_same (mo : Moment) (m : AgentStateMachine) (b : Batch) (check : Bool) :
    m.Same (m.turn mo b check).1 := by
  unfold turn
  simp only
  rw [age_eq]
  constructor <;> rfl

theorem sayUnless_same (m : AgentStateMachine) (nothing : Bool) (who : Speaker) (said : String) :
    m.Same (m.sayUnless nothing who said) := by
  cases nothing <;> constructor <;> rfl

end AgentStateMachine

namespace Agent

open AgentStateMachine

variable {host : Host} {taken : List Back} {m m' : AgentStateMachine}

/-- Part of what came back was read. -/
def Reads (host : Host) (taken : List Back) (m m' : AgentStateMachine) : Prop :=
  ∃ gone, m.backTx = gone ++ m'.backTx ∧ InFlight host (taken ++ gone) m'

theorem Reads.of_same (inFlight : InFlight host taken m) (same : m.Same m') :
    Reads host taken m m' :=
  ⟨[], same.backTx.symm, by simpa using inFlight.same same⟩

theorem Reads.then {m'' : AgentStateMachine} (reads : Reads host taken m m')
    (same : m'.Same m'') : Reads host taken m m'' := by
  obtain ⟨gone, unread, inFlight⟩ := reads
  exact ⟨gone, same.backTx.symm ▸ unread, inFlight.same same⟩

/-- One is read, and more after it. -/
theorem Reads.cons {x : Back} {rest : List Back} (unread : m.backTx = x :: rest)
    (one : m'.backTx = rest) {m'' : AgentStateMachine}
    (reads : Reads host (taken ++ [x]) m' m'') : Reads host taken m m'' := by
  obtain ⟨gone, after, inFlight⟩ := reads
  refine ⟨x :: gone, by rw [unread, ← one, after, List.cons_append], ?_⟩
  simpa using inFlight

theorem think_same (mo : Moment) {s : Agent} (same : m.Same s.m) (b : Batch) (check : Bool) :
    m.Same (think mo s b check).m := by
  have cleared : s.m.Same { s.m with idleSince := none } := by constructor <;> rfl
  exact (same.trans cleared).trans (turn_same mo { s.m with idleSince := none } b check)

theorem deliver_same (mo : Moment) {s : Agent} (same : m.Same s.m) (b : Batch) :
    m.Same (deliver mo s b).m := by
  have refunded : m.Same (s.m.refund b) := same.trans (by constructor <;> rfl)
  unfold deliver
  simp only
  split
  · exact refunded
  · split
    · split
      · exact refunded.trans (by constructor <;> rfl)
      · exact think_same mo (refunded.trans (by constructor <;> rfl)) b false
    · exact think_same mo (refunded.trans (by constructor <;> rfl)) _ false

theorem Reads.deliver {s : Agent} (reads : Reads host taken m s.m) (mo : Moment) (b : Batch) :
    Reads host taken m (deliver mo s b).m :=
  reads.then (deliver_same mo (.refl s.m) b)

section Waiting

variable (mo : Moment) {s : Agent} (inFlight : InFlight host taken m) (same : m.Same s.m)
include inFlight same

/-- Everything that came back is read. -/
theorem aggregate_reads (b : Batch) : Reads host taken m (aggregate mo s b).m := by
  have first : s.m.Same { s.m with pending := [] } := by constructor <;> rfl
  have all := ((same.trans first).trans
    (takes_same ({ s.m with pending := [] }, b) s.m.pending)).trans (takes_same _ s.inbox)
  unfold aggregate
  simp only
  generalize s.inbox.foldl take _ = p at all ⊢
  obtain ⟨m', b⟩ := p
  obtain ⟨read, none_⟩ := (inFlight.same all).reads (List.append_nil _).symm b.results
  have reads : Reads host taken m
      (m'.backTx.foldl back ({ m' with backTx := [] }, b.results)).1 :=
    ⟨m'.backTx, by rw [none_, List.append_nil]; exact all.backTx.symm, read⟩
  split
  · exact reads
  · exact .deliver reads mo _

theorem wait_reads : Reads host taken m (wait mo s).m := by
  unfold wait
  split
  · exact .of_same inFlight same
  · exact aggregate_reads mo inFlight same {}

theorem idle_reads : Reads host taken m (idle mo s).m := by
  unfold idle
  split
  · split
    · exact .of_same inFlight same
    · split
      · exact wait_reads mo inFlight (same.trans (by constructor <;> rfl))
      · exact wait_reads mo inFlight same
  · exact wait_reads mo inFlight same

theorem top_reads : Reads host taken m (top mo s).m := by
  unfold top
  split
  · have early : m.Same { s.m with checkArmed := false, pending := s.m.pending ++ s.inbox } :=
      same.trans (by constructor <;> rfl)
    simp only
    split
    · exact .of_same inFlight (think_same mo (early.trans (by constructor <;> rfl)) {} true)
    · exact idle_reads mo inFlight early
  · exact idle_reads mo inFlight same

end Waiting

theorem recvInbox_reads (mo : Moment) (s : Agent) (inFlight : InFlight host taken s.m) :
    Reads host taken s.m (recvInbox mo s).m := by
  have same : s.m.Same s.m := .refl s.m
  unfold recvInbox
  split
  next i rest opened queued here =>
    exact aggregate_reads mo inFlight (take_same (s.m, {}) i) _
  next i rest results opened queued here =>
    exact .of_same inFlight (deliver_same mo (take_same (s.m, { results }) i) _)
  · split
    · exact aggregate_reads mo (s := { s with opened := false }) inFlight same _
    · exact .of_same inFlight same
  · split <;> exact .of_same inFlight same
  · exact .of_same inFlight same

theorem recvBack_reads (mo : Moment) (s : Agent) (inFlight : InFlight host taken s.m) :
    Reads host taken s.m (recvBack mo s).m := by
  unfold recvBack
  split
  next x rest unread here =>
    rw [back_backTx s.m [] x rest]
    exact .cons unread rfl (aggregate_reads mo (inFlight.read unread []) (.refl _) _)
  next x rest results unread here =>
    rw [back_backTx s.m results x rest]
    have one : Reads host (taken ++ [x]) _ _ :=
      .of_same (inFlight.read unread results) (.refl _)
    simp only
    split
    · exact .cons unread rfl one
    · exact .cons unread rfl (.deliver one mo _)
  · exact .of_same inFlight (.refl _)

/-- A step reads part of what came back, or adds to it. -/
inductive Passes (host : Host) (taken : List Back) (m m' : AgentStateMachine) : Prop
  | reads (reads : Reads host taken m m')
  | sends (sent : List Back) (unread : m'.backTx = m.backTx ++ sent)
      (inFlight : InFlight host taken m')

theorem Passes.of_same (inFlight : InFlight host taken m) (same : m.Same m') :
    Passes host taken m m' :=
  .reads (.of_same inFlight same)

theorem Passes.then {m'' : AgentStateMachine} (passes : Passes host taken m m')
    (same : m'.Same m'') : Passes host taken m m'' := by
  cases passes with
  | reads reads => exact .reads (reads.then same)
  | sends sent unread inFlight =>
    exact .sends sent (same.backTx.trans unread) (inFlight.same same)

theorem failed_same (s : Agent) (t : Thinking) : s.m.Same (s.failed t).m := by
  have early : s.m.Same s.readEarly.m := by constructor <;> rfl
  unfold failed
  split
  · simp only
    split
    · exact early.trans (by constructor <;> rfl)
    · exact early
  · constructor <;> rfl

theorem answered_passes (mo : Moment) (t : Thinking) (answer : Turn)
    (inFlight : InFlight host taken m) (same : m.Same m') :
    Passes host taken m (m'.answered host mo t answer).1 := by
  unfold answered
  simp only
  generalize said : m'.sayUnless (trimText answer.text = "") .assistant _ = spoken
  have same : m.Same spoken := by
    rw [← said]
    exact same.trans (sayUnless_same _ _ _ _)
  obtain ⟨now, sent, unread⟩ := (inFlight.same same).acts t mo answer.totalTokens answer.calls false
  generalize answer.calls.foldl _ _ = acted at now unread ⊢
  -- What is said of the calls, and the budgets, are no business of the counts.
  have reckoned (m : AgentStateMachine) (nothing : Bool) :
      m.Same (m.reckon host t answer nothing) := (reckon_minor m t answer nothing).same
  have kept := (sayUnless_same acted.1 (answer.calls = [] ∨ acted.2) .called
    ("[" ++ joinTexts "," (answer.calls.map Call.row) ++ "]")).trans
      (reckoned _ (acted.1.queries = spoken.queries))
  exact .sends sent (kept.backTx.trans (unread.trans (by rw [same.backTx]))) (now.same kept)

theorem replied_passes (mo : Moment) (s : Agent) (t : Thinking) (answer : Turn)
    (inFlight : InFlight host taken s.m) :
    Passes host taken s.m (s.replied host mo t answer).m := by
  have early : s.m.Same { s.m with
      lastTurnEnd := some mo.now, pending := s.m.pending ++ s.inbox } := by constructor <;> rfl
  have acted := answered_passes mo t answer inFlight early
  unfold replied
  simp only
  split
  · exact .of_same inFlight early
  · split
    · exact .of_same inFlight (early.trans (by constructor <;> rfl))
    · split
      · exact acted
      next pct used =>
        split
        · exact acted
        · exact .then acted (warn_minor _ pct).same

theorem step_passes (s : Agent) (inFlight : InFlight host taken s.m) (e : Event) :
    Passes host taken s.m (s.step host e).m := by
  -- A message that is queued, or that the loop takes, is no result.
  have sends : ∀ i, s.m.Same (s.send i).m := fun i => by
    unfold send
    split <;> constructor <;> rfl
  unfold step
  split
  · exact .of_same inFlight (sends _)
  · exact .of_same inFlight (sends _)
  · exact .of_same inFlight (.refl s.m)
  next flight out =>
    obtain ⟨now, sent, unread⟩ := inFlight.lands flight out
    exact .sends sent unread now
  · exact .reads (top_reads _ inFlight (.refl s.m))
  · exact .reads (recvInbox_reads _ s inFlight)
  · exact .reads (recvBack_reads _ s inFlight)
  next mo here =>
    exact .reads (aggregate_reads mo (s := { s with m := s.m.watch host mo }) inFlight
      (watch_same host mo s.m) {})
  · exact .of_same inFlight (deliver_same _ (.refl s.m) _)
  · exact replied_passes _ s _ _ inFlight
  · exact .of_same inFlight (failed_same s _)
  · exact .of_same inFlight (.refl s.m)
  · exact .of_same inFlight (by constructor <;> rfl)
  · exact .of_same inFlight (.refl s.m)

/-! ## Runs -/

/-- What a step took from the channel. -/
def takes (s s' : Agent) : List Back := s.m.backTx.take (s.m.backTx.length - s'.m.backTx.length)

/-- What a run took from the channel, in order. -/
def takenBy (host : Host) : Agent → List Event → List Back
  | _, [] => []
  | s, e :: es => takes s (s.step host e) ++ takenBy host (s.step host e) es

/-- What was there before and is not taken comes first of what is there after. -/
theorem Passes.takes {s s' : Agent} (passes : Passes host taken s.m s'.m) :
    (∃ sent, s.m.backTx ++ sent = s.takes s' ++ s'.m.backTx) ∧
      InFlight host (taken ++ s.takes s') s'.m := by
  cases passes with
  | reads reads =>
    obtain ⟨gone, unread, inFlight⟩ := reads
    have same : s.takes s' = gone := by
      rw [Agent.takes, unread, List.length_append, Nat.add_sub_cancel, List.take_left]
    rw [same]
    exact ⟨⟨[], by rw [List.append_nil, unread]⟩, inFlight⟩
  | sends sent unread inFlight =>
    have none_ : s.takes s' = [] := by
      rw [Agent.takes, unread, List.length_append, Nat.sub_eq_zero_of_le (Nat.le_add_right ..),
        List.take_zero]
    rw [none_, List.append_nil]
    exact ⟨⟨sent, unread.symm⟩, inFlight⟩

theorem run_inFlight (s : Agent) (inFlight : InFlight host taken s.m) (events : List Event) :
    InFlight host (taken ++ takenBy host s events) (Machine.run (step host) s events).m := by
  induction events generalizing s taken with
  | nil => simpa [takenBy] using inFlight
  | cons e events ih =>
    have next := ih (s.step host e) (step_passes s inFlight e).takes.2
    rw [List.append_assoc] at next
    exact next

theorem start_inFlight (host : Host) (saved : Option Saved) :
    InFlight host [] (start host saved).m := by
  have nothing : ({} : AgentStateMachine).Same (start host saved).m := by
    unfold start
    split
    · constructor <;> rfl
    · split <;> constructor <;> rfl
  refine InFlight.same nothing ⟨.refl _, rfl, rfl, fun flight => ?_, .nil, rfl, rfl⟩
  simp [outstanding, callLog, CallLog.of, remaining]

/-- In every state a run reaches the counts are of the calls dispatched whose results were not
taken, and reading what is in the channel lowers no count that is zero. -/
theorem counts_exact (host : Host) (saved : Option Saved) (events : List Event) :
    InFlight host (takenBy host (start host saved) events) (after host saved events).m ∧
      ∀ (read rest : List Back) (x : Back) (results : List Row),
        (after host saved events).m.backTx = read ++ x :: rest →
          (read.foldl back ({ (after host saved events).m with backTx := x :: rest },
            results)).1.Covers x := by
  have inFlight := run_inFlight (start host saved) (start_inFlight host saved) events
  rw [List.nil_append] at inFlight
  refine ⟨inFlight, fun read rest x results unread => ?_⟩
  obtain ⟨later, next⟩ := inFlight.reads unread results
  exact later.covers next

/-- Of four calls, one is in the background and one was answered at once and read. -/
example : (after lookupHost none (lookups.take 9)).m.queries = 2 ∧
    (after lookupHost none (lookups.take 9)).m.bg = [1] ∧
    (after lookupHost none lookups).m.bg = [] := by decide +kernel

end Agent

end AkumaMiot

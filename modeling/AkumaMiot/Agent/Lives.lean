import AkumaMiot.Agent.Feeding
import AkumaMiot.Agent.History

/-!
# An agent that is stopped and started again

An agent is killed at any moment and starts again from the file that its last write left. The
conversation it restores names results by ids, and the log these stood in is gone. An id that the
conversation shows never comes to name another result, and what aging says of a row is true, over
any number of starts.
-/
namespace AkumaMiot

/-! ## What is saved -/

namespace AgentStateMachine

/-- Of what is saved, a call can change the conversation alone, and what is to be aged of it. -/
structure Saves (m m' : AgentStateMachine) : Prop where
  fresh : m'.fresh ⊆ m.fresh
  toolLog : m'.toolLog = m.toolLog
  toolBase : m'.toolBase = m.toolBase

theorem Saves.trans {a b c : AgentStateMachine} (first : a.Saves b) (second : b.Saves c) :
    a.Saves c :=
  ⟨List.Subset.trans second.fresh first.fresh, second.toolLog.trans first.toolLog,
    second.toolBase.trans first.toolBase⟩

theorem act_saves (host : Host) (mo : Moment) (totalTokens : Nat) (p : AgentStateMachine × Bool)
    (c : Call) : p.1.Saves (act host mo totalTokens p c).1 := by
  unfold act
  simp only
  split
  · exact ⟨List.nil_subset _, rfl, rfl⟩
  · split
    · exact ⟨List.Subset.refl _, rfl, rfl⟩
    · unfold dispatch
      split <;> exact ⟨List.Subset.refl _, rfl, rfl⟩

theorem acted_saves (host : Host) (mo : Moment) (totalTokens : Nat) (t : Thinking)
    (p : AgentStateMachine × Bool) (c : Call) :
    p.1.Saves (act host mo totalTokens (p.1.noteActed t c, p.2) c).1 :=
  have noted : p.1.Saves (p.1.noteActed t c) := ⟨List.Subset.refl _, rfl, rfl⟩
  noted.trans (act_saves host mo totalTokens (p.1.noteActed t c, p.2) c)

theorem sayUnless_saves (m : AgentStateMachine) (nothing : Bool) (who : Speaker) (said : String) :
    m.Saves (m.sayUnless nothing who said) := by
  cases nothing <;> exact ⟨List.Subset.refl _, rfl, rfl⟩

end AgentStateMachine

namespace Agent

open AgentStateMachine

/-- The conversation and the log are of one mind. -/
structure Recorded (s : Agent) : Prop where
  settled : s.Settled
  told : Told (·.id < s.m.toolBase) s s.hand

theorem step_recorded (host : Host) {s : Agent} (recorded : Recorded s) (e : Event) :
    Recorded (s.step host e) where
  settled := step_settled host recorded.settled e
  told := by
    rw [(step_logs host recorded.settled e).1]
    exact step_told host recorded.settled e recorded.told

theorem Recorded.told_within {s : Agent} (recorded : Recorded s) {id : Nat}
    (told : id ∈ s.m.toldRows.map Row.id) : s.m.toolBase ≤ id ∧ id < s.m.nextId := by
  obtain ⟨r, there, rfl⟩ := List.mem_map.mp told
  obtain ⟨_, _, found, _⟩ := recorded.told.logged.rows r (by simp [there])
  exact logged_some found

theorem Recorded.told_rise {s : Agent} (recorded : Recorded s) :
    (s.m.toldRows.map Row.id).Pairwise (· < ·) := by
  have rise := recorded.told.logged.rise
  rw [List.append_assoc, List.map_append, List.pairwise_append] at rise
  exact rise.1

theorem Recorded.fresh_within {s : Agent} (recorded : Recorded s) {f : Fresh}
    (there : f ∈ s.m.fresh) : f.id < s.m.nextId := by
  rcases recorded.told.worded.fresh f there with before | ⟨_, found, _⟩
  · rw [nextId]
    omega
  · exact (logged_some found).2

theorem start_recorded (host : Host) {saved : Saved}
    (old : ∀ f ∈ saved.fresh, f.id < saved.nextId) : Recorded (start host (some saved)) := by
  by_cases empty : saved.history = []
  · have started : start host (some saved) = { m := { restartNote := host.startNote } } := by
      simp [start, empty]
    rw [started]
    exact ⟨⟨nofun, nofun⟩, .fresh rfl rfl (by simp) (by simp)⟩
  · have base : (start host (some saved)).m.toolBase = saved.nextId := by simp [start, empty]
    refine ⟨start_settled host _, start_told host fun f there => ?_⟩
    rw [base]
    exact old f (by simpa [restored] using there)

end Agent

/-! ## Lives -/

/-- What is saved of an agent. -/
def AgentStateMachine.saved (m : AgentStateMachine) : Agent.Saved :=
  ⟨m.history.map fun e => (e.who, e.said), m.fresh, m.turnsFed, m.nextId⟩

/-- An agent, its file, and the ids that rows were told under: in the conversation that was
restored, and in the one that the file has. -/
structure Life where
  agent : Agent
  file : Option String
  before : List Nat
  kept : List Nat

/-- Any write can fail. A step's own succeeds if `writes`, and of those that a `Reboot` makes while
an answer is acted on, the last that succeeds is among so many `calls`. -/
inductive LifeEvent
  | event (e : Agent.Event) (calls : Nat) (writes : Bool)
  /-- The process ends while it acts on an answer. -/
  | killed (mo : Moment) (answer : Turn) (calls : Nat)
  | restart

namespace Life

open AgentStateMachine Agent

/-- A turn is under way. -/
def inTurn (s : Agent) : Bool :=
  match s.at_ with
  | .converse _ | .retry _ | .summarize => true
  | _ => false

/-- What the last `Reboot` among the first calls of an answer saved. -/
def acting (host : Host) (mo : Moment) (s : Agent) (t : Thinking) (answer : Turn) (calls : Nat) :
    Option Saved :=
  let s := { s with m := { s.m with lastTurnEnd := some mo.now } }.readEarly
  if s.resetWaiting then none
  else
    let own := trimText answer.text
    let m := s.m.sayUnless (own = "") .assistant own
    ((answer.calls.take calls).foldl (fun (p : (AgentStateMachine × Bool) × Option Saved) c =>
      let acted := act host mo answer.totalTokens (p.1.1.noteActed t c, p.1.2) c
      (acted, if c.name = "Reboot" ∧ host.rebootTool then some acted.1.saved else p.2))
      ((m, false), none)).2

/-- What an event's calls save. -/
def rebooting (host : Host) (s : Agent) (calls : Nat) : Event → Option Saved
  | .replied mo answer =>
    match s.at_ with
    | .converse t => acting host mo s t answer calls
    | _ => none
  | _ => none

/-- What a reset saves. A result that woke the loop was read before it. -/
def cleared (s : Agent) (e : Event) : Saved :=
  let m := match e, s.at_, s.m.backTx with
    | .channel _, .select, x :: _ => (back (s.m, []) x).1
    | _, _, _ => s.m
  ⟨[], [], m.turnsFed, m.nextId⟩

/-- What an event saves. -/
def saves (host : Host) (life : Life) : LifeEvent → Option Saved
  | .event e calls writes =>
    let s := life.agent.step host e
    if writes ∧ inTurn life.agent ∧ s.at_ = .top then some s.m.saved
    else if writes ∧ s.m.session ≠ life.agent.m.session then some (cleared life.agent e)
    else rebooting host life.agent calls e
  | .killed mo answer calls => rebooting host life.agent calls (.replied mo answer)
  | .restart => none

variable {F : Type} (floats : Json.Floats F)

/-- The file after an event, and the ids of its conversation. -/
def written (host : Host) (life : Life) (e : LifeEvent) : Option String × List Nat :=
  match life.saves host e with
  | some saved =>
    (some (saveHistory floats saved), life.before ++ life.agent.m.toldRows.map Row.id)
  | none => (life.file, life.kept)

/-- A process that starts on a file. Of an empty conversation nothing is restored. -/
def opened (host : Host) (file : Option String) (kept : List Nat) : Life :=
  let saved := (loadHistory floats file).1
  { agent := start host (some saved)
    file
    before := if saved.history = [] then [] else kept
    kept }

def step (host : Host) (life : Life) (e : LifeEvent) : Life :=
  let (file, kept) := life.written floats host e
  match e with
  | .event e _ _ => { life with agent := life.agent.step host e, file, kept }
  | .killed _ _ _ | .restart => opened floats host file kept

/-- What the next process will find. -/
structure Stored (file : Option String) (kept : List Nat) : Prop where
  fresh : ∀ f ∈ (loadHistory floats file).1.fresh, f.id < (loadHistory floats file).1.nextId
  told : ∀ id ∈ kept, id < (loadHistory floats file).1.nextId
  rise : kept.Pairwise (· < ·)

structure Inv (life : Life) : Prop where
  recorded : Recorded life.agent
  before : ∀ id ∈ life.before, id < life.agent.m.toolBase
  rise : life.before.Pairwise (· < ·)
  stored : Stored floats life.file life.kept

variable {floats} {host : Host} {life : Life}

theorem opened_inv {file : Option String} {kept : List Nat} (stored : Stored floats file kept) :
    Inv floats (opened floats host file kept) := by
  have recorded := start_recorded host stored.fresh
  by_cases empty : (loadHistory floats file).1.history = []
  · refine ⟨recorded, ?_, ?_, stored⟩
    · simp [opened, empty]
    · simp [opened, empty]
  · refine ⟨recorded, fun id there => ?_, ?_, stored⟩
    · have base : (opened floats host file kept).agent.m.toolBase =
          (loadHistory floats file).1.nextId := by
        simp [opened, start, empty]
      rw [base]
      exact stored.told id (by simpa [opened, empty] using there)
    · simpa [opened, empty] using stored.rise

theorem Inv.once (inv : Inv floats life) :
    (life.before ++ life.agent.m.toldRows.map Row.id).Pairwise (· < ·) := by
  refine List.pairwise_append.mpr ⟨inv.rise, inv.recorded.told_rise, fun id old id' told => ?_⟩
  exact Nat.lt_of_lt_of_le (inv.before id old) (inv.recorded.told_within told).1

theorem Inv.told_lt (inv : Inv floats life) {id : Nat}
    (told : id ∈ life.before ++ life.agent.m.toldRows.map Row.id) : id < life.agent.m.nextId := by
  rcases List.mem_append.mp told with old | new
  · have low := inv.before id old
    rw [nextId]
    omega
  · exact (inv.recorded.told_within new).2

/-- What is saved goes on after every id that was told, and after every row that is to be aged. -/
structure Ahead (s : Agent) (saved : Saved) : Prop where
  fresh : ∀ f ∈ saved.fresh, f.id < saved.nextId
  nextId : s.m.nextId ≤ saved.nextId

theorem recorded_ahead {s : Agent} (recorded : Recorded s) {saved : Saved}
    (fresh : saved.fresh ⊆ s.m.fresh) (nextId : saved.nextId = s.m.nextId) : Ahead s saved where
  fresh _ there := nextId ▸ recorded.fresh_within (fresh there)
  nextId := nextId.ge

/-- What a `Reboot` saves is what the agent had, but for what a call clears. -/
theorem acting_saved {mo : Moment} {s : Agent} {t : Thinking} {answer : Turn} {calls : Nat}
    {saved : Saved} (saves : acting host mo s t answer calls = some saved) :
    saved.fresh ⊆ s.m.fresh ∧ saved.nextId = s.m.nextId := by
  have folded : ∀ (cs : List Call) (p : (AgentStateMachine × Bool) × Option Saved),
      s.m.Saves p.1.1 →
      (∀ saved ∈ p.2, saved.fresh ⊆ s.m.fresh ∧ saved.nextId = s.m.nextId) →
      ∀ saved ∈ (cs.foldl (fun (p : (AgentStateMachine × Bool) × Option Saved) c =>
        let acted := act host mo answer.totalTokens (p.1.1.noteActed t c, p.1.2) c
        (acted, if c.name = "Reboot" ∧ host.rebootTool then some acted.1.saved else p.2)) p).2,
        saved.fresh ⊆ s.m.fresh ∧ saved.nextId = s.m.nextId := by
    intro cs
    induction cs with
    | nil => exact fun _ _ held => held
    | cons c cs ih =>
      intro p kept held
      have after := kept.trans (acted_saves host mo answer.totalTokens t p.1 c)
      refine ih _ after ?_
      simp only
      split
      · rintro _ ⟨⟩
        refine ⟨after.fresh, ?_⟩
        simp only [AgentStateMachine.saved, AgentStateMachine.nextId, after.toolLog, after.toolBase]
      · exact held
  unfold acting at saves
  simp only at saves
  split at saves
  · cases saves
  · have early : s.m.Saves
        ({ s with m := { s.m with lastTurnEnd := some mo.now } } : Agent).readEarly.m :=
      ⟨List.Subset.refl _, rfl, rfl⟩
    exact folded _ _ (early.trans (sayUnless_saves _ _ _ _)) (by simp) saved saves

theorem rebooting_ahead {s : Agent} (recorded : Recorded s) {calls : Nat} {e : Event}
    {saved : Saved} (saves : rebooting host s calls e = some saved) : Ahead s saved := by
  unfold rebooting at saves
  split at saves
  · split at saves
    · obtain ⟨fresh, nextId⟩ := acting_saved saves
      exact recorded_ahead recorded fresh nextId
    · cases saves
  · cases saves

theorem cleared_ahead (s : Agent) (e : Event) : Ahead s (cleared s e) := by
  refine ⟨fun _ => nofun, ?_⟩
  unfold cleared
  simp only
  split
  next x rest _ _ =>
    have grows := back_grows s.m [] x rest
    exact grows.nextId_le
  · exact Nat.le_refl _

theorem saves_ahead (recorded : Recorded life.agent) {e : LifeEvent} {saved : Saved}
    (saves : life.saves host e = some saved) : Ahead life.agent saved := by
  cases e with
  | event e calls writes =>
    simp only [Life.saves] at saves
    split at saves
    · cases saves
      have ahead : Ahead (life.agent.step host e) (life.agent.step host e).m.saved :=
        recorded_ahead (step_recorded host recorded e) (List.Subset.refl _) rfl
      exact ⟨ahead.fresh, (step_logs host recorded.settled e).nextId_le⟩
    · split at saves
      · cases saves
        exact cleared_ahead _ _
      · exact rebooting_ahead recorded saves
  | killed mo answer calls =>
    simp only [Life.saves] at saves
    exact rebooting_ahead recorded saves
  | restart => cases saves

theorem written_stored (inv : Inv floats life) {e : LifeEvent}
    (fits : ∀ saved ∈ life.saves host e, saved.Fits) :
    Stored floats (life.written floats host e).1 (life.written floats host e).2 := by
  unfold written
  split
  next saved saves =>
    have ahead := saves_ahead inv.recorded saves
    have loaded : loadHistory floats (some (saveHistory floats saved)) = _ :=
      load_save (fits saved saves)
    refine ⟨?_, ?_, inv.once⟩
    · rw [loaded]
      exact ahead.fresh
    · rw [loaded]
      exact fun id told => Nat.lt_of_lt_of_le (inv.told_lt told) ahead.nextId
  · exact inv.stored

theorem step_inv (inv : Inv floats life) {e : LifeEvent}
    (fits : ∀ saved ∈ life.saves host e, saved.Fits) : Inv floats (life.step floats host e) := by
  have stored := written_stored inv fits
  cases e with
  | event e calls writes =>
    have base := (step_logs host inv.recorded.settled e).1
    refine ⟨step_recorded host inv.recorded e, fun id old => ?_, inv.rise, stored⟩
    show id < (life.agent.step host e).m.toolBase
    rw [base]
    exact inv.before id old
  | killed mo answer calls => exact opened_inv stored
  | restart => exact opened_inv stored

/-- What an agent is told of its old results is true. -/
structure Truthful (life : Life) : Prop where
  /-- A row of this process is what the log has under its id. -/
  rows : ∀ r ∈ life.agent.m.toldRows, life.agent.m.Shows r
  /-- The message that a row was told in has it, under its id and its name. -/
  said : ∀ f ∈ life.agent.m.trace.fed, ∀ r ∈ f.pieces.flatMap Piece.rows,
    (life.agent.m.rowOf r).toList <:+: f.said.toList
  /-- The conversation has the messages as they were put, but for such rows that were aged. -/
  voiced : Voiced (fun f => f.id < life.agent.m.toolBase ∨ life.agent.m.Tells f)
    life.agent.m.toolBase life.agent.m.history
  /-- A row that is to be aged is from before, or its stub says what the log has. -/
  fresh : ∀ f ∈ life.agent.m.fresh, f.id < life.agent.m.toolBase ∨ life.agent.m.Tells f
  /-- An id that was told before names no result. -/
  gone : ∀ id ∈ life.before, ∀ c : Call, c.entry = some id → life.agent.m.inspect c =
    { arg := s!"#{id}", ok := false,
      facts := ["from before a restart — not kept; run it again if you need it"] }
  /-- No two rows of the conversation have one id. -/
  once : (life.before ++ life.agent.m.toldRows.map Row.id).Pairwise (· < ·)

theorem Inv.truthful (inv : Inv floats life) : Truthful life where
  rows r there := inv.recorded.told.logged.rows r (by simp [there])
  said _ fed _ told := inv.recorded.told.worded.row fed told
  voiced := inv.recorded.told.worded.entries
  fresh := inv.recorded.told.worded.fresh
  gone id old c named := by
    simp only [inspect, named, inv.before id old, if_true]
  once := inv.once

instance (f : Fresh) : Decidable f.Fits :=
  decidable_of_iff (f.id < 2 ^ 64 ∧ f.chars < 2 ^ 64 ∧ f.turn < 2 ^ 64)
    ⟨fun ⟨id, chars, turn⟩ => ⟨id, chars, turn⟩, fun fits => ⟨fits.id, fits.chars, fits.turn⟩⟩

instance (saved : Saved) : Decidable saved.Fits :=
  decidable_of_iff
    ((∀ f ∈ saved.fresh, f.Fits) ∧ saved.turns < 2 ^ 64 ∧ saved.nextId < 2 ^ 64)
    ⟨fun ⟨fresh, turns, nextId⟩ => ⟨fresh, turns, nextId⟩,
      fun fits => ⟨fits.fresh, fits.turns, fits.nextId⟩⟩

end Life

end AkumaMiot

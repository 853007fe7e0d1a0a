import AkumaMiot.Agent.Budgets

/-!
# What the model is told

A turn's message is put together from pieces, and its results piece says each row under the id and
the name that the log has it by. What the model was told of a result stays what the log has, and
the conversation stays what the messages said, but for rows that are aged.
-/
namespace AkumaMiot

/-! ## Messages -/

/-- What is said of pieces. -/
def message (pieces : List Piece) : String := joinTexts "\n\n" (pieces.map Piece.text)

/-- What a turn's message said. -/
def Fed.said (f : Fed) : String := message f.pieces

/-- What is joined stands in the whole. -/
theorem infix_joinTexts {sep x : String} {texts : List String} (member : x ∈ texts) :
    x.toList <:+: (joinTexts sep texts).toList := by
  induction texts with
  | nil => cases member
  | cons t texts ih =>
    cases texts with
    | nil =>
      obtain rfl := List.mem_singleton.mp member
      have only : joinTexts sep [x] = x := String.intercalate_singleton
      exact (congrArg String.toList only).symm ▸ List.infix_refl _
    | cons u texts =>
      rw [joinTexts, String.intercalate_cons_cons, String.toList_append, String.toList_append]
      rcases List.mem_cons.mp member with rfl | later
      · rw [List.append_assoc]
        exact (List.prefix_append _ _).isInfix
      · exact (ih later).trans (List.suffix_append _ _).isInfix

theorem Piece.infix_message {p : Piece} {pieces : List Piece} (member : p ∈ pieces) :
    p.text.toList <:+: (message pieces).toList := infix_joinTexts (List.mem_map_of_mem member)

theorem Piece.infix_results {rows : List Row} {texts : List String} {x : String}
    (member : x ∈ texts) : x.toList <:+: (Piece.results rows texts).text.toList := by
  have text : (Piece.results rows texts).text.toList =
      "Results of tools you called:\n".toList ++ (joinTexts "\n\n" texts).toList :=
    String.toList_append
  rw [text]
  generalize "Results of tools you called:\n".toList = header
  exact (infix_joinTexts member).trans (List.suffix_append _ _).isInfix

/-- A row is in a piece of results. -/
theorem Piece.mem_rows {pieces : List Piece} {r : Row}
    (member : r ∈ pieces.flatMap Piece.rows) :
    ∃ rows texts, Piece.results rows texts ∈ pieces ∧ r ∈ rows := by
  obtain ⟨p, there, within⟩ := List.mem_flatMap.mp member
  cases p with
  | results rows texts => exact ⟨rows, texts, there, within⟩
  | _ => simp [Piece.rows] at within

/-! ## Rows and the log -/

namespace AgentStateMachine

/-- Every row that was in a turn's message, whatever became of the turn. -/
def toldRows (m : AgentStateMachine) : List Row :=
  m.trace.fed.flatMap fun f => f.pieces.flatMap Piece.rows

/-- The row is what is fed of the result that the log has under its id. -/
def Shows (m : AgentStateMachine) (r : Row) : Prop :=
  ∃ name out, m.logged r.id = some (name, out) ∧ r.text = feed r.id out

/-- The log has what it had, and perhaps more. -/
def Grows (m m' : AgentStateMachine) : Prop :=
  m'.toolBase = m.toolBase ∧ m.toolLog <+: m'.toolLog

theorem Grows.same {m m' : AgentStateMachine} (toolBase : m'.toolBase = m.toolBase)
    (toolLog : m'.toolLog = m.toolLog) : m.Grows m' :=
  ⟨toolBase, toolLog ▸ List.prefix_refl _⟩

theorem Grows.logged {m m' : AgentStateMachine} (grows : m.Grows m') {id : Nat}
    {row : String × String} (found : m.logged id = some row) : m'.logged id = some row := by
  unfold AgentStateMachine.logged at found ⊢
  rw [grows.1]
  split at found
  next above =>
    rw [if_pos above]
    obtain ⟨more, eq⟩ := grows.2
    rw [← eq, List.getElem?_append_left (List.getElem?_eq_some_iff.mp found).1]
    exact found
  · cases found

theorem Grows.trans {a b c : AgentStateMachine} (first : a.Grows b) (second : b.Grows c) :
    a.Grows c :=
  ⟨second.1.trans first.1, first.2.trans second.2⟩

theorem Grows.nextId_le {m m' : AgentStateMachine} (grows : m.Grows m') : m.nextId ≤ m'.nextId := by
  have longer := grows.2.length_le
  rw [nextId, nextId, grows.1]
  omega

theorem Shows.mono {m m' : AgentStateMachine} (grows : m.Grows m') {r : Row} (shows : m.Shows r) :
    m'.Shows r := by
  obtain ⟨name, out, found, text⟩ := shows
  exact ⟨name, out, grows.logged found, text⟩

/-- A result that is logged is shown under the next id. -/
theorem shows_next {m m' : AgentStateMachine} {name out : String} {asked : Asked}
    (toolBase : m'.toolBase = m.toolBase) (toolLog : m'.toolLog = m.toolLog ++ [(name, out)]) :
    m'.Shows ⟨m.nextId, feed m.nextId out, asked⟩ := by
  refine ⟨name, out, ?_, rfl⟩
  simp [logged, nextId, toolBase, toolLog]

theorem logged_some {m : AgentStateMachine} {id : Nat} {row : String × String}
    (found : m.logged id = some row) : m.toolBase ≤ id ∧ id < m.nextId := by
  unfold logged at found
  split at found
  next above =>
    obtain ⟨inside, _⟩ := List.getElem?_eq_some_iff.mp found
    refine ⟨above, ?_⟩
    rw [nextId]
    omega
  · cases found

/-- What aging would say of a row is what the log has. -/
def Tells (m : AgentStateMachine) (f : Fresh) : Prop :=
  ∃ out, m.logged f.id = some (f.name, out) ∧ f.head = takeChars STUB_HEAD (firstLine out) ∧
    f.chars = out.length ∧ f.full = rowText f.id f.name (feed f.id out)

theorem Tells.mono {m m' : AgentStateMachine} (grows : m.Grows m') {f : Fresh} (tells : m.Tells f) :
    m'.Tells f := by
  obtain ⟨out, found, rest⟩ := tells
  exact ⟨out, grows.logged found, rest⟩

theorem freshOf_tells {m : AgentStateMachine} {r : Row} {f : Fresh} (made : m.freshOf r = some f)
    (shows : m.Shows r) : m.Tells f := by
  obtain ⟨name, out, found, text⟩ := shows
  have row : m.rowOf r = rowText r.id name (feed r.id out) := by
    rw [rowOf, found, Option.getD_some, text]
  unfold freshOf at made
  simp only [found, Option.getD_some] at made
  split at made
  · cases made
    exact ⟨out, found, rfl, rfl, row⟩
  · cases made

theorem turn_grows (mo : Moment) (m : AgentStateMachine) (b : Batch) (check : Bool) :
    m.Grows (m.turn mo b check).1 := by
  obtain ⟨_, _, toolLog, toolBase⟩ := turn_flights mo m b check
  exact .same toolBase toolLog

theorem age_fresh (mo : Moment) (m : AgentStateMachine) : (m.age mo).fresh ⊆ m.fresh := by
  unfold age
  simp only
  split
  · exact fun f there => (List.mem_filter.mp there).1
  · exact List.Subset.refl _

end AgentStateMachine

namespace Agent

open AgentStateMachine

variable {host : Host} {e : Event} {spent : Prop}

theorem back_grows (m : AgentStateMachine) (results : List Row) (x : Back) (rest : List Back) :
    m.Grows { (back (m, results) x).1 with backTx := rest } := by
  cases x with
  | recordDone flight => exact .same rfl rfl
  | result name out session flight asked =>
    by_cases current : session = m.session
    · subst current
      obtain ⟨queries, bg, live, running, is⟩ := back_current m results name out flight asked
      rw [is]
      exact ⟨rfl, List.prefix_append _ _⟩
    · obtain ⟨queries, bg, live, running, is⟩ := back_stale m results name out current flight asked
      rw [is]
      exact .same rfl rfl

/-- Every row that was told, is held or is in hand is what the log has under its id, and no two
have one id. -/
structure Logged (m : AgentStateMachine) (results : List Row) : Prop where
  rows : ∀ r ∈ m.toldRows ++ m.held ++ results, m.Shows r
  rise : ((m.toldRows ++ m.held ++ results).map Row.id).Pairwise (· < ·)
  full : m.held ≠ [] → MAX_FOLLOWUPS ≤ m.followups

namespace Logged

variable {m m' : AgentStateMachine} {results results' : List Row}

/-- The log as it was, or more, and of the rows no others. -/
theorem fewer (logged : Logged m results) (grows : m.Grows m')
    (rows : (m'.toldRows ++ m'.held ++ results').Sublist (m.toldRows ++ m.held ++ results))
    (full : m'.held ≠ [] → MAX_FOLLOWUPS ≤ m'.followups) : Logged m' results' where
  rows r there := (logged.rows r (rows.subset there)).mono grows
  rise := logged.rise.sublist (rows.map Row.id)
  full := full

theorem taking {b : Batch} (logged : Logged m b.results) (i : Inbound) (waiting : List Inbound) :
    Logged { (take (m, b) i).1 with pending := waiting } (take (m, b) i).2.results := by
  cases i with
  | wake w => exact ⟨logged.rows, logged.rise, logged.full⟩
  | reset why n =>
    -- What was told was told; what waited is dropped.
    refine logged.fewer (.same rfl rfl) ?_ fun some_ => absurd rfl some_
    have told : (m.toldRows ++ [] ++ []).Sublist (m.toldRows ++ m.held ++ b.results) := by
      rw [List.append_nil, List.append_nil, List.append_assoc]
      exact List.sublist_append_left _ _
    exact told

theorem read (logged : Logged m results) (x : Back) (rest : List Back) :
    Logged { (back (m, results) x).1 with backTx := rest } (back (m, results) x).2 := by
  cases x with
  | recordDone flight => exact ⟨logged.rows, logged.rise, logged.full⟩
  | result name out session flight asked =>
    by_cases current : session = m.session
    · subst current
      obtain ⟨queries, bg, live, running, eq⟩ := back_current m results name out flight asked
      have grows := back_grows m results (.result name out m.session flight asked) rest
      rw [eq] at grows ⊢
      let row : Row := ⟨m.nextId, feed m.nextId (keep out.text), asked⟩
      have listed : m.toldRows ++ m.held ++ (results ++ [row]) =
          (m.toldRows ++ m.held ++ results) ++ [row] := (List.append_assoc _ _ _).symm
      refine ⟨fun r there => ?_, ?_, logged.full⟩
      · have there : r ∈ m.toldRows ++ m.held ++ (results ++ [row]) := there
        rw [listed] at there
        rcases List.mem_append.mp there with old | new
        · exact (logged.rows r old).mono grows
        · rw [List.mem_singleton.mp new]
          exact shows_next rfl rfl
      · have rise : ((m.toldRows ++ m.held ++ (results ++ [row])).map Row.id).Pairwise (· < ·) := by
          -- The next id is above that of any row there is.
          rw [listed, List.map_append, List.pairwise_append]
          refine ⟨logged.rise, List.pairwise_singleton _ _, fun id old id' new => ?_⟩
          obtain ⟨r, there, rfl⟩ := List.mem_map.mp old
          obtain ⟨_, _, found, _⟩ := logged.rows r there
          rw [List.mem_singleton.mp new]
          exact (logged_some found).2
        exact rise
    · obtain ⟨queries, bg, live, running, eq⟩ :=
        back_stale m results name out current flight asked
      rw [eq]
      exact ⟨logged.rows, logged.rise, logged.full⟩

/-- A turn tells what it is given, after all that was told before. -/
theorem turn {b : Batch} (logged : Logged m b.results) (none_ : m.held = []) (mo : Moment)
    (check : Bool) : Logged (m.turn mo b check).1 [] := by
  obtain ⟨pieces, rows, _, trace, _⟩ := turn_fed mo m b check
  obtain ⟨_, _, toolLog, toolBase⟩ := turn_flights mo m b check
  have told : (m.turn mo b check).1.toldRows = m.toldRows ++ b.results := by
    simp only [toldRows, trace, List.flatMap_append, List.flatMap_cons, List.flatMap_nil, rows,
      List.append_nil]
  refine logged.fewer (.same toolBase toolLog) ?_ ?_
  · rw [told, turn_held, none_, List.append_nil, List.append_nil, List.append_nil]
  · rw [turn_held, none_]
    exact fun some_ => absurd rfl some_

end Logged

/-- A turn that is given up said what it said. -/
theorem giveUp_pieces (m : AgentStateMachine) (t : Thinking) :
    (m.giveUp t).trace.fed.map Fed.pieces = m.trace.fed.map Fed.pieces := by
  have kept : ∀ fed : List Fed,
      (fed.dropLast ++ fed.getLast?.toList.map fun f : Fed => { f with lost := true }).map
        Fed.pieces = fed.map Fed.pieces := by
    intro fed
    induction fed using List.reverseRecOn with
    | nil => rfl
    | append_singleton fed f => simp
  exact kept m.trace.fed

theorem giveUp_toldRows (m : AgentStateMachine) (t : Thinking) :
    (m.giveUp t).toldRows = m.toldRows := by
  have told : ∀ m : AgentStateMachine, m.toldRows =
      (m.trace.fed.map Fed.pieces).flatMap (·.flatMap Piece.rows) :=
    fun _ => (List.flatMap_map _ _ _).symm
  rw [told, told, giveUp_pieces]

theorem Moves.logged {x y : Agent × Hand} (move : Moves host e spent x y)
    (logged : Logged x.1.m x.2.results) : Logged y.1.m y.2.results := by
  cases move with
  | minor s h minor =>
    refine logged.fewer (.same minor.toolBase minor.toolLog) ?_ ?_
    · rw [toldRows, minor.trace, minor.held]
      exact List.Sublist.refl _
    · rw [minor.held, minor.followups]
      exact logged.full
  | @takePending s b i rest waiting foreign =>
    have taken := logged.taking i rest
    rw [take_pending]
    exact taken
  | @takeInbox s b i rest none_ queued foreign => exact logged.taking i _
  | read s b unread => exact logged.read _ _
  | watch s tick none_ =>
    obtain ⟨m', notices, watched, eq⟩ := watch_watched host _ s.m
    rw [eq]
    cases watched <;> exact ⟨logged.rows, logged.rise, logged.full⟩
  | drop s none_ wakes results =>
    have rows := logged.rows
    have rise := logged.rise
    simp only [Hand.results, results] at rows rise
    exact ⟨rows, rise, logged.full⟩
  | @hold s b none_ wakes capped =>
    refine logged.fewer (.same rfl rfl) ?_ fun _ => capped
    have rows : (s.m.toldRows ++ (s.m.held ++ b.results) ++ []).Sublist
        (s.m.toldRows ++ s.m.held ++ b.results) := by
      rw [List.append_nil, List.append_assoc]
    exact rows
  | giveUp s t past =>
    refine logged.fewer (.same rfl rfl) ?_ logged.full
    rw [giveUp_toldRows]
    exact List.Sublist.refl _
  | @send s h i foreign numbered asked =>
    unfold Agent.send
    split
    · exact logged
    · exact ⟨logged.rows, logged.rise, logged.full⟩
  | lands s h flight out =>
    unfold Agent.lands
    split <;> exact ⟨logged.rows, logged.rise, logged.full⟩
  | _ => exact ⟨logged.rows, logged.rise, logged.full⟩

theorem Asks.logged {s s' : Agent} {b : Batch} (asked : Asks s b s')
    (logged : Logged s.m b.results) : Logged s'.m s'.hand.results := by
  obtain ⟨m, b', mo, check, poised, is, hand, _⟩ := asked.turned
  have none_ := poised.none_ logged.full
  rw [is, hand]
  refine Logged.turn ?_ none_ mo check
  refine logged.fewer (.same poised.toolBase poised.toolLog) ?_ fun some_ => absurd none_ some_
  rw [toldRows, poised.trace, List.append_assoc, List.append_assoc, poised.results]
  exact List.Sublist.refl _

theorem Moves.logs {x y : Agent × Hand} (move : Moves host e spent x y) : x.1.m.Grows y.1.m := by
  cases move with
  | minor s h minor => exact .same minor.toolBase minor.toolLog
  | @takePending s b i rest waiting foreign => cases i <;> exact .same rfl rfl
  | @takeInbox s b i rest none_ queued foreign => cases i <;> exact .same rfl rfl
  | read s b unread => exact back_grows s.m b.results _ _
  | watch s tick none_ =>
    obtain ⟨m', notices, watched, eq⟩ := watch_watched host _ s.m
    rw [eq]
    cases watched <;> exact .same rfl rfl
  | @send s h i foreign numbered asked =>
    unfold Agent.send
    split <;> exact .same rfl rfl
  | lands s h flight out =>
    unfold Agent.lands
    split <;> exact .same rfl rfl
  | _ => exact .same rfl rfl

theorem Asks.logs {s s' : Agent} {b : Batch} (asked : Asks s b s') : s.m.Grows s'.m := by
  obtain ⟨m, b', mo, check, poised, is, _⟩ := asked.turned
  have begun : s.m.Grows m := .same poised.toolBase poised.toolLog
  exact is ▸ begun.trans (turn_grows mo m b' check)

theorem step_logs (host : Host) {s : Agent} (settled : s.Settled) (e : Event) :
    s.m.Grows (s.step host e).m :=
  (step_steps host settled e).invariant (J := fun y => s.m.Grows y.1.m)
    (fun _ _ move grows => grows.trans move.logs)
    (fun _ _ _ asked grows => grows.trans asked.logs)
    (.same rfl rfl)

end Agent

/-! ## The conversation -/

/-- What is left of a text when such rows in it were replaced by their stubs. -/
inductive Aged (such : Fresh → Prop) (toolBase : Nat) (said : String) : String → Prop
  | whole : Aged such toolBase said said
  | stubbed {now : String} (aged : Aged such toolBase said now) {f : Fresh} (row : such f)
      {next : List Char}
      (found : replaceFirst f.full.toList (f.stub toolBase).toList now.toList = some next) :
      Aged such toolBase said (String.ofList next)

theorem Aged.mono {such such' : Fresh → Prop} (more : ∀ f, such f → such' f) {toolBase : Nat}
    {said now : String} (aged : Aged such toolBase said now) : Aged such' toolBase said now := by
  induction aged with
  | whole => exact .whole
  | stubbed _ row found ih => exact .stubbed ih (more _ row) found

/-- An entry that was made of pieces words them, but for such rows that were aged since. -/
def Voiced (such : Fresh → Prop) (toolBase : Nat) (history : List HistoryEntry) : Prop :=
  ∀ e ∈ history, e.pieces = [] ∨ Aged such toolBase (message e.pieces) e.said

section

variable {such : Fresh → Prop} {toolBase : Nat} {history : List HistoryEntry}

theorem Voiced.mono {such' : Fresh → Prop} (more : ∀ f, such f → such' f)
    (voiced : Voiced such toolBase history) : Voiced such' toolBase history :=
  fun e there => (voiced e there).imp_right (Aged.mono more)

theorem Voiced.of_subset {history' : List HistoryEntry} (voiced : Voiced such toolBase history)
    (fewer : history' ⊆ history) : Voiced such toolBase history' :=
  fun e there => voiced e (fewer there)

theorem Voiced.nil : Voiced such toolBase [] := fun _ there => absurd there List.not_mem_nil

theorem Voiced.append (voiced : Voiced such toolBase history) {e : HistoryEntry}
    (worded : e.pieces = [] ∨ Aged such toolBase (message e.pieces) e.said) :
    Voiced such toolBase (history ++ [e]) := by
  intro e' there
  rcases List.mem_append.mp there with old | new
  · exact voiced e' old
  · rw [List.mem_singleton.mp new]
    exact worded

end

namespace AgentStateMachine

theorem stubIn_voiced {such : Fresh → Prop} {toolBase : Nat} {f : Fresh} (row : such f)
    {history : List HistoryEntry} (voiced : Voiced such toolBase history) :
    Voiced such toolBase (stubIn f.full (f.stub toolBase) history) := by
  induction history with
  | nil => exact voiced
  | cons e older ih =>
    have others : Voiced such toolBase older := voiced.of_subset (List.subset_cons_self _ _)
    unfold stubIn
    split
    next said replaced =>
      intro e' there
      rcases List.mem_cons.mp there with rfl | old
      · split at replaced
        · exact (voiced e List.mem_cons_self).imp_right fun aged => .stubbed aged row replaced
        · cases replaced
      · exact others e' old
    · intro e' there
      rcases List.mem_cons.mp there with rfl | old
      · exact voiced e' List.mem_cons_self
      · exact ih others e' old

theorem age_voiced (mo : Moment) {m : AgentStateMachine} {such : Fresh → Prop}
    (rows : ∀ f ∈ m.fresh, such f) (voiced : Voiced such m.toolBase m.history) :
    Voiced such m.toolBase (m.age mo).history := by
  have reversed : ∀ {history : List HistoryEntry}, Voiced such m.toolBase history →
      Voiced such m.toolBase history.reverse :=
    fun voiced => voiced.of_subset fun _ there => List.mem_reverse.mp there
  have each : ∀ (due : List Fresh) (history : List HistoryEntry), (∀ f ∈ due, such f) →
      Voiced such m.toolBase history → Voiced such m.toolBase (due.foldl (fun history f =>
        (stubIn f.full (f.stub m.toolBase) history.reverse).reverse) history) := by
    intro due
    induction due with
    | nil => exact fun _ _ => id
    | cons f due ih =>
      intro history rows voiced
      refine ih _ (fun g there => rows g (List.mem_cons_of_mem f there)) ?_
      exact reversed (stubIn_voiced (rows f List.mem_cons_self) (reversed voiced))
  unfold age
  simp only
  split
  · exact each m.due m.history (fun f due => rows f (List.mem_filter.mp due).1) voiced
  · exact voiced

/-- The row as it is fed does not change while the log grows. -/
theorem Shows.rowOf {m m' : AgentStateMachine} (grows : m.Grows m') {r : Row}
    (shows : m.Shows r) : m'.rowOf r = m.rowOf r := by
  obtain ⟨name, out, found, _⟩ := shows
  rw [AgentStateMachine.rowOf, AgentStateMachine.rowOf, found, grows.logged found]

/-- What is said is what there is to say, of rows and, where they are aged, of what they were. Of
the rows from before only `old` is known. -/
structure Worded (old : Fresh → Prop) (m : AgentStateMachine) : Prop where
  /-- A message worded each of its rows as it is fed. -/
  rows : ∀ f ∈ m.trace.fed, ∀ rows texts, Piece.results rows texts ∈ f.pieces →
    texts = rows.map m.rowOf
  fresh : ∀ f ∈ m.fresh, old f ∨ m.Tells f
  entries : Voiced (fun f => old f ∨ m.Tells f) m.toolBase m.history

section

variable {old : Fresh → Prop} {m m' : AgentStateMachine}

/-- A row that was told stands in the message of its turn. -/
theorem Worded.row (worded : Worded old m) {f : Fed} (fed : f ∈ m.trace.fed) {r : Row}
    (told : r ∈ f.pieces.flatMap Piece.rows) : (m.rowOf r).toList <:+: f.said.toList := by
  obtain ⟨rows, texts, piece, there⟩ := Piece.mem_rows told
  have listed : m.rowOf r ∈ texts := by
    rw [worded.rows f fed rows texts piece]
    exact List.mem_map_of_mem there
  exact (Piece.infix_results listed).trans (Piece.infix_message piece)

/-- No message more, no row more to be aged, and of the conversation what was there. -/
theorem Worded.still (worded : Worded old m) (shown : ∀ r ∈ m.toldRows, m.Shows r)
    (grows : m.Grows m') (fed : m'.trace.fed.map Fed.pieces = m.trace.fed.map Fed.pieces)
    (fewer : m'.fresh ⊆ m.fresh)
    (entries : Voiced (fun f => old f ∨ m.Tells f) m.toolBase m'.history) : Worded old m' where
  rows f there rows texts piece := by
    have listed : f.pieces ∈ m.trace.fed.map Fed.pieces := fed ▸ List.mem_map_of_mem there
    obtain ⟨g, before, same⟩ := List.mem_map.mp listed
    rw [worded.rows g before rows texts (same ▸ piece)]
    refine List.map_congr_left fun r within => (Shows.rowOf grows (shown r ?_)).symm
    exact List.mem_flatMap.mpr
      ⟨g, before, List.mem_flatMap.mpr ⟨.results rows texts, same ▸ piece, within⟩⟩
  fresh f there := (worded.fresh f (fewer there)).imp_right (.mono grows)
  entries := by
    rw [grows.1]
    exact entries.mono fun f row => row.imp_right (.mono grows)

/-- Of the pieces of a turn's message, only the batch's own say results, each as it is fed. -/
theorem prompt_results (mo : Moment) (m : AgentStateMachine) (b : Batch) (check : Bool)
    {rows : List Row} {texts : List String}
    (piece : Piece.results rows texts ∈ m.prompt mo b check) : texts = rows.map m.rowOf := by
  have own : ¬ b.results = [] ∧ rows = b.results ∧ texts = b.results.map m.rowOf := by
    simpa [prompt] using piece
  rw [own.2.2, own.2.1]

/-- What a turn's aging goes by: the rows that were to be aged, and those it is given. -/
def ageable (m : AgentStateMachine) (b : Batch) (check : Bool) : List Fresh :=
  m.fresh ++ b.results.filterMap (m.startTurn b check).freshOf

/-- A turn's message is what it adds to the conversation, as the last of it. -/
theorem turn_said (mo : Moment) (m : AgentStateMachine) (b : Batch) (check : Bool) :
    ∃ (pieces : List Piece) (history : List HistoryEntry),
      (∀ rows texts, Piece.results rows texts ∈ pieces → texts = rows.map m.rowOf) ∧
      (∀ such : Fresh → Prop, (∀ f ∈ m.ageable b check, such f) →
        Voiced such m.toolBase m.history → Voiced such m.toolBase history) ∧
      (m.turn mo b check).1.trace.fed = m.trace.fed ++ [⟨m.session, pieces, false⟩] ∧
      (m.turn mo b check).1.history = history ++ [⟨.user, message pieces, pieces⟩] := by
  refine ⟨(m.startTurn b check).prompt mo b check, _, fun rows texts piece => ?_,
    fun such rows voiced => ?_, ?_, rfl⟩
  · exact prompt_results mo (m.startTurn b check) b check piece
  · exact age_voiced mo rows voiced
  · unfold turn
    simp only
    rw [age_eq]
    rfl

/-- A turn's message words the rows it is given, and they are to be aged in their turn. -/
theorem Worded.turn (worded : Worded old m) {b : Batch} (shown : ∀ r ∈ b.results, m.Shows r)
    (mo : Moment) (check : Bool) : Worded old (m.turn mo b check).1 := by
  obtain ⟨pieces, history, own, voiced, fed, said⟩ := turn_said mo m b check
  have grows := turn_grows mo m b check
  have ageable : ∀ f ∈ m.ageable b check, old f ∨ m.Tells f := by
    intro f there
    rcases List.mem_append.mp there with before | new
    · exact worded.fresh f before
    · obtain ⟨r, given, made⟩ := List.mem_filterMap.mp new
      exact .inr (freshOf_tells (m := m.startTurn b check) made (shown r given))
  have rowOf : (m.turn mo b check).1.rowOf = m.rowOf := by
    obtain ⟨_, _, toolLog, toolBase⟩ := turn_flights mo m b check
    funext r
    rw [AgentStateMachine.rowOf, AgentStateMachine.rowOf, logged, logged, toolLog, toolBase]
  constructor
  · rw [fed, rowOf]
    intro f there rows texts piece
    rcases List.mem_append.mp there with before | new
    · exact worded.rows f before rows texts piece
    · rw [List.mem_singleton.mp new] at piece
      exact own rows texts piece
  · exact fun f there => (ageable f (age_fresh mo _ there)).imp_right (.mono grows)
  · rw [said, grows.1]
    refine Voiced.append ?_ (.inr .whole)
    exact (voiced _ ageable worded.entries).mono fun f row => row.imp_right (.mono grows)

end

end AgentStateMachine

namespace Agent

open AgentStateMachine

variable {host : Host} {e : Event} {spent : Prop}

/-- A result that comes back is no part of the conversation yet. -/
theorem back_said (m : AgentStateMachine) (results : List Row) (x : Back) :
    (back (m, results) x).1.history = m.history ∧ (back (m, results) x).1.fresh = m.fresh := by
  cases x with
  | recordDone flight => exact ⟨rfl, rfl⟩
  | result name out session flight asked =>
    by_cases current : session = m.session
    · subst current
      obtain ⟨queries, bg, live, running, eq⟩ := back_current m results name out flight asked
      rw [eq]
      exact ⟨rfl, rfl⟩
    · obtain ⟨queries, bg, live, running, eq⟩ := back_stale m results name out current flight asked
      rw [eq]
      exact ⟨rfl, rfl⟩

/-- No move is a message to the model. -/
theorem Moves.fed {x y : Agent × Hand} (move : Moves host e spent x y) :
    y.1.m.trace.fed.map Fed.pieces = x.1.m.trace.fed.map Fed.pieces := by
  cases move with
  | minor s h minor => rw [minor.trace]
  | @takePending s b i => cases i <;> rfl
  | @takeInbox s b i => cases i <;> rfl
  | read s b unread => exact congrArg _ (back_keeps (s.m, b.results) _).fed
  | watch s tick none_ =>
    obtain ⟨m', notices, watched, eq⟩ := watch_watched host _ s.m
    rw [eq]
    cases watched <;> rfl
  | giveUp s t past => exact giveUp_pieces s.m t
  | send s h => unfold Agent.send; split <;> rfl
  | lands s h => unfold Agent.lands; split <;> rfl
  | _ => rfl

/-- No move makes a row to be aged. -/
theorem Moves.fresh {x y : Agent × Hand} (move : Moves host e spent x y) :
    y.1.m.fresh ⊆ x.1.m.fresh := by
  cases move with
  | minor s h minor => exact minor.fresh ▸ List.Subset.refl _
  | @takePending s b i =>
    cases i with
    | wake w => exact List.Subset.refl _
    | reset why n => exact List.nil_subset _
  | @takeInbox s b i =>
    cases i with
    | wake w => exact List.Subset.refl _
    | reset why n => exact List.nil_subset _
  | read s b unread => exact (back_said s.m b.results _).2 ▸ List.Subset.refl _
  | watch s tick none_ =>
    obtain ⟨m', notices, watched, eq⟩ := watch_watched host _ s.m
    rw [eq]
    cases watched <;> exact List.Subset.refl _
  | compact s h summary => exact List.nil_subset _
  | send s h => unfold Agent.send; split <;> exact List.Subset.refl _
  | lands s h => unfold Agent.lands; split <;> exact List.Subset.refl _
  | _ => exact List.Subset.refl _

/-- What a move adds to the conversation is made of no pieces. -/
theorem Moves.voiced {x y : Agent × Hand} (move : Moves host e spent x y) {such : Fresh → Prop}
    {toolBase : Nat} (voiced : Voiced such toolBase x.1.m.history) :
    Voiced such toolBase y.1.m.history := by
  cases move with
  | minor s h minor =>
    rw [minor.history]
    exact voiced
  | @takePending s b i =>
    cases i with
    | wake w => exact voiced
    | reset why n => exact Voiced.nil
  | @takeInbox s b i =>
    cases i with
    | wake w => exact voiced
    | reset why n => exact Voiced.nil
  | read s b unread =>
    have same := fun x => (back_said s.m b.results x).1
    simpa only [same] using voiced
  | watch s tick none_ =>
    obtain ⟨m', notices, watched, eq⟩ := watch_watched host _ s.m
    rw [eq]
    cases watched <;> exact voiced
  | giveUp s t past => exact voiced.of_subset (List.dropLast_subset _)
  | unsay s t => exact voiced.of_subset (List.dropLast_subset _)
  | say s t who said => exact voiced.append (.inl rfl)
  | compact s h summary =>
    intro e' there
    rw [List.mem_singleton.mp there]
    exact .inl rfl
  | send s h => unfold Agent.send; split <;> exact voiced
  | lands s h => unfold Agent.lands; split <;> exact voiced
  | _ => exact voiced

/-- Asking the model is a message more, and it is the last of the conversation. -/
theorem Asks.fed {s s' : Agent} {b : Batch} (asked : Asks s b s') :
    ∃ f : Fed, s'.m.trace.fed = s.m.trace.fed ++ [f] ∧
      s'.m.history.getLast?.map HistoryEntry.said = some f.said := by
  obtain ⟨m, b', mo, check, poised, is, _⟩ := asked.turned
  obtain ⟨pieces, history, _, _, fed, said⟩ := turn_said mo m b' check
  refine ⟨⟨m.session, pieces, false⟩, ?_, ?_⟩
  · rw [is, fed, poised.trace]
  · rw [is, said, List.getLast?_concat]
    rfl

/-- What was told is what there was to tell, row by row and message by message. -/
structure Told (old : Fresh → Prop) (s : Agent) (h : Hand) : Prop where
  logged : Logged s.m h.results
  worded : Worded old s.m

variable {old : Fresh → Prop}

theorem Moves.told {x y : Agent × Hand} (move : Moves host e spent x y) (told : Told old x.1 x.2) :
    Told old y.1 y.2 where
  logged := move.logged told.logged
  worded := told.worded.still (fun r there => told.logged.rows r (by simp [there])) move.logs
    move.fed move.fresh (move.voiced told.worded.entries)

theorem Asks.told {s s' : Agent} {b : Batch} (asked : Asks s b s') (told : Told old s (.batch b)) :
    Told old s' s'.hand := by
  refine ⟨asked.logged told.logged, ?_⟩
  obtain ⟨m, b', mo, check, poised, is, _⟩ := asked.turned
  have begun : s.m.Grows m := .same poised.toolBase poised.toolLog
  have worded : Worded old m := by
    refine told.worded.still (fun r there => told.logged.rows r (by simp [there])) begun ?_ ?_ ?_
    · rw [poised.trace]
    · rw [poised.fresh]
      exact List.Subset.refl _
    · rw [poised.history]
      exact told.worded.entries
  rw [is]
  refine worded.turn (fun r given => (told.logged.rows r ?_).mono begun) mo check
  have inside : r ∈ s.m.held ++ b.results := by
    rw [← poised.results]
    exact List.mem_append_right _ given
  rw [List.append_assoc]
  exact List.mem_append_right _ inside

/-! ## Runs -/

theorem step_told (host : Host) {s : Agent} (settled : s.Settled) (e : Event)
    (told : Told old s s.hand) : Told old (s.step host e) (s.step host e).hand :=
  (step_steps host settled e).invariant (J := fun y => Told old y.1 y.2)
    (fun _ _ move => move.told) (fun _ _ _ asked => asked.told) told

/-- The rows to be aged that the history file holds. -/
def restored (saved : Option Saved) : List Fresh := saved.toList.flatMap Saved.fresh

/-- Before anything was asked nothing was told. -/
theorem Told.fresh {m : AgentStateMachine} (trace : m.trace = {}) (held : m.held = [])
    (rows : ∀ f ∈ m.fresh, old f) (history : ∀ e ∈ m.history, e.pieces = []) :
    Told old { m } (.batch {}) where
  logged := {
    rows := by simp [toldRows, trace, held, Hand.results]
    rise := by simp [toldRows, trace, held, Hand.results]
    full := fun some_ => absurd held some_ }
  worded := {
    rows := by simp [trace]
    fresh := fun f there => .inl (rows f there)
    entries := fun e there => .inl (history e there) }

theorem start_told (host : Host) {saved : Option Saved} (rows : ∀ f ∈ restored saved, old f) :
    Told old (start host saved) (start host saved).hand := by
  unfold start
  split
  · exact .fresh rfl rfl (by simp) (by simp)
  · split
    · exact .fresh rfl rfl (by simp) (by simp)
    · refine .fresh rfl rfl (fun f there => ?_) (fun e there => ?_)
      · exact rows f (by simpa [restored] using there)
      · obtain ⟨row, _, rfl⟩ := List.mem_map.mp there
        rfl

theorem after_told (host : Host) (saved : Option Saved) (events : List Event) :
    Told (· ∈ restored saved) (after host saved events) (after host saved events).hand := by
  have kept : (after host saved events).Settled ∧
      Told (· ∈ restored saved) (after host saved events) (after host saved events).hand :=
    Machine.run_keeps (fun s => s.Settled ∧ Told (· ∈ restored saved) s s.hand)
      (fun s e inv => ⟨step_settled host inv.1 e, step_told host inv.1 e inv.2⟩)
      ⟨start_settled host saved, start_told host fun _ there => there⟩
  exact kept.2

/-- What a step puts to the model, where it begins a turn: the last of the conversation. -/
def prompted (s s' : Agent) : List String :=
  if s.m.turnsFed < s'.m.turnsFed then (s'.m.history.getLast?.map HistoryEntry.said).toList else []

/-- Every message that a run puts to the model, in order. -/
def prompts (host : Host) : Agent → List Event → List String
  | _, [] => []
  | s, e :: events => prompted s (s.step host e) ++ prompts host (s.step host e) events

theorem step_prompts (host : Host) {s : Agent} (settled : s.Settled) (e : Event) :
    (s.step host e).m.trace.fed.map Fed.said =
      s.m.trace.fed.map Fed.said ++ prompted s (s.step host e) := by
  have said : ∀ fed fed' : List Fed, fed.map Fed.pieces = fed'.map Fed.pieces →
      fed.map Fed.said = fed'.map Fed.said := by
    intro fed fed' same
    have messages : ∀ fed : List Fed, fed.map Fed.said = (fed.map Fed.pieces).map message :=
      fun fed => (List.map_map).symm
    rw [messages, messages, same]
  have still : ∀ x y, Moves host e (s.exhausts e) x y →
      (y.1.m.turnsFed, y.1.m.trace.fed.map Fed.pieces) =
        (x.1.m.turnsFed, x.1.m.trace.fed.map Fed.pieces) :=
    fun _ _ move => by rw [move.turnsFed, move.fed]
  rcases (step_steps host settled e).frame
    (f := fun m => (m.turnsFed, m.trace.fed.map Fed.pieces)) still with same | ⟨r, b, asked, same⟩
  · obtain ⟨turnsFed, fed⟩ := Prod.mk.inj same
    rw [said _ _ fed, prompted, if_neg turnsFed.le.not_gt, List.append_nil]
  · obtain ⟨turnsFed, fed⟩ := Prod.mk.inj same
    obtain ⟨f, more, last⟩ := asked.fed
    have turn : s.m.turnsFed < (step host s e).m.turnsFed := by
      rw [asked.turnsFed, turnsFed]
      exact Nat.lt_succ_self _
    rw [more, List.map_append, said _ _ fed, prompted, if_pos turn, last]
    rfl

/-- The messages of a run are what its turns were fed. -/
theorem run_prompts (host : Host) {s : Agent} (settled : s.Settled) (events : List Event) :
    (Machine.run (step host) s events).m.trace.fed.map Fed.said =
      s.m.trace.fed.map Fed.said ++ prompts host s events := by
  induction events generalizing s with
  | nil => exact (List.append_nil _).symm
  | cons e events ih =>
    have once := step_prompts host settled e
    rw [Machine.run_cons, ih (step_settled host settled e), once, prompts, List.append_assoc]

theorem after_prompts (host : Host) (saved : Option Saved) (events : List Event) :
    (after host saved events).m.trace.fed.map Fed.said =
      prompts host (start host saved) events := by
  have none_ : (start host saved).m.trace.fed = [] := by
    unfold start
    split
    · rfl
    · split <;> rfl
  rw [after, run_prompts host (start_settled host saved), none_, List.map_nil, List.nil_append]

end Agent

end AkumaMiot

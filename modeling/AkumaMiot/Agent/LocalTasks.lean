import AkumaMiot.Agent.Texts
import AkumaMiot.Lib.Machine
import AkumaMiot.Lib.Numerals

/-!
# A cat's own to-do list

The `LocalTask` tool: a list nobody else sees, at most so many open and so many finished. The
`debug` form of a text is a parameter, and the file the list is kept in is left out.
-/
namespace AkumaMiot

/-- Most open ones. -/
def MAX_OPEN : Nat := 50
/-- Most finished ones kept, oldest dropped first. -/
def MAX_CLOSED : Nat := 20

inductive LocalStatus
  | todo | doing | done | failed | dropped
deriving DecidableEq, Repr

namespace LocalStatus

def text : LocalStatus → String
  | todo => "todo"
  | doing => "doing"
  | done => "done"
  | failed => "failed"
  | dropped => "dropped"

def isOpen : LocalStatus → Bool
  | todo | doing => true
  | _ => false

/-- What a call makes of the task it names. -/
def ofAction (action : String) : LocalStatus :=
  if action = "start" then doing else if action = "done" then done
  else if action = "failed" then failed else dropped

end LocalStatus

structure LocalTask where
  id : String
  text : String
  status : LocalStatus
  /-- What came of it, for `done` and `failed`. -/
  note : String
deriving DecidableEq, Repr

def LocalTask.isOpen (t : LocalTask) : Bool := t.status.isOpen

structure LocalTasks where
  epoch : Nat
  next : UInt64
  tasks : List LocalTask
deriving DecidableEq, Repr

/-- `to_ascii_uppercase`. -/
def asciiUppercase (s : String) : String := String.ofList (s.toList.map Char.toUpper)

/-- The first `k` elements that satisfy `p` left out. -/
def dropFirst {α : Type} (p : α → Bool) : Nat → List α → List α
  | _, [] => []
  | k, a :: as => if k > 0 ∧ p a then dropFirst p (k - 1) as else a :: dropFirst p k as

namespace LocalTasks

/-- An empty list, in memory. -/
def load (epoch : Nat) : LocalTasks := { epoch := epoch, next := 1, tasks := [] }

def open_ (s : LocalTasks) : List LocalTask := s.tasks.filter (·.isOpen)

def closed (s : LocalTasks) : List LocalTask := s.tasks.filter (!·.isOpen)

/-- After a change, enough to name the next one. -/
def brief (s : LocalTasks) : String :=
  if s.open_ = [] then "None open."
  else
    let ids := joinTexts ", " (s.open_.map (·.id))
    s!"{s.open_.length} open: {ids}."

def trimClosed (s : LocalTasks) : LocalTasks :=
  { s with tasks := dropFirst (!·.isOpen) (s.closed.length - MAX_CLOSED) s.tasks }

def row (t : LocalTask) : String :=
  let note := if t.note = "" then "" else s!" — {t.note}"
  s!"{t.id} [{t.status.text}] {t.text}{note}"

/-- The list as the model reads it: open ones first, then what's done. -/
def render (s : LocalTasks) (lead : String) : String :=
  let out := if lead = "" then [] else [lead]
  if s.tasks = [] then joinTexts "\n" (out ++ ["Your local task list is empty."])
  else
    let opened := if s.open_ = [] then "Open: none."
      else "Open:\n" ++ joinTexts "\n" (s.open_.map row)
    let finished := if s.closed = [] then []
      else ["Finished:\n" ++ joinTexts "\n" (s.closed.map row)]
    joinTexts "\n" (out ++ [opened] ++ finished)

/-- The first task called `id`, with a new status and perhaps a note. -/
def mark (id : String) (status : LocalStatus) (note : Option String) :
    List LocalTask → List LocalTask
  | [] => []
  | t :: ts =>
    if t.id = id then { t with status := status, note := note.getD t.note } :: ts
    else t :: mark id status note ts

/-- A change answers with what changed and the open ids. -/
def changed (s : LocalTasks) (what : String) : Except String String × LocalTasks :=
  let s := s.trimClosed
  (.ok s!"{what} {s.brief}", s)

/-- One `LocalTask` call. -/
def apply (debug : String → String) (s : LocalTasks) (action id text : String) :
    Except String String × LocalTasks :=
  let id := asciiUppercase (trimText id)
  let text := trimText text
  if action = "list" then (.ok (s.render ""), s)
  else if action = "add" then
    if text = "" then (.error (s.render "add needs text: what to do."), s)
    else if s.open_.length ≥ MAX_OPEN then
      (.error (s.render s!"{MAX_OPEN} open already — finish or drop some first."), s)
    else
      let id := s!"L{s.next}"
      changed { s with
        next := s.next + 1
        tasks := s.tasks ++ [{ id := id, text := text, status := .todo, note := "" }] }
        s!"added {id}."
  else if action ∈ ["start", "done", "failed", "drop"] then
    match s.tasks.find? (·.id = id) with
    | none => (.error (s.render s!"no local task {debug id} — use an id from this list."), s)
    | some _ =>
      let status := LocalStatus.ofAction action
      -- a note is kept for what came of it, not for a start or a drop
      let note := if action ∈ ["done", "failed"] ∧ text ≠ "" then some text else none
      changed { s with tasks := mark id status note s.tasks } s!"{id} is {status.text}."
  else (.error (s.render
    s!"unknown action {debug action} — add, start, done, failed, drop or list."), s)

/-! ## The list beside its history -/

structure Call where
  action : String
  id : String
  text : String
deriving DecidableEq, Repr

/-- The id a call names, as it is looked for. -/
def Call.target (c : Call) : String := asciiUppercase (trimText c.id)

/-- A list, every id that came onto it, and the ids in the order they were last finished in. -/
structure History where
  list : LocalTasks
  issued : List String
  finishes : List String
deriving DecidableEq, Repr

def ids (s : LocalTasks) : List String := s.tasks.map (·.id)

/-- The open task a call finishes. -/
def finishing (s : LocalTasks) (c : Call) : Option LocalTask :=
  if c.action ∈ ["done", "failed", "drop"] then
    s.tasks.find? fun t => t.id = c.target ∧ t.isOpen
  else none

/-- The finished task a call starts again. -/
def reopening (s : LocalTasks) (c : Call) : Option LocalTask :=
  if c.action = "start" then s.tasks.find? fun t => t.id = c.target ∧ !t.isOpen else none

def call (debug : String → String) (s : LocalTasks) (c : Call) : LocalTasks :=
  (s.apply debug c.action c.id c.text).2

def History.step (debug : String → String) (h : History) (c : Call) : History :=
  let after := h.list.call debug c
  { list := after
    issued := h.issued ++ after.ids.filter (· ∉ h.list.ids)
    finishes := match h.list.finishing c with
      | none => h.finishes
      | some t => h.finishes.erase t.id ++ [t.id] }

def History.fresh (epoch : Nat) : History := ⟨load epoch, [], []⟩

/-- What is claimed of the list in every state. -/
structure Bounded (h : History) : Prop where
  /-- No id came onto the list twice, and none is there twice. -/
  issued : h.issued.Nodup
  listed : h.list.ids.Sublist h.issued
  opened : h.list.open_.length ≤ MAX_OPEN
  closed : h.list.closed.length ≤ MAX_CLOSED

/-- What is claimed of a call that leads from `h` to `after`. -/
structure Fair (h : History) (c : Call) (after : History) : Prop where
  opened : ∀ t ∈ h.list.tasks, t.isOpen = true → t.id ∈ after.list.ids
  /-- The task just finished is still listed, as finished. -/
  finished : ∀ t ∈ h.list.finishing c, ∃ t' ∈ after.list.closed, t'.id = t.id
  /-- What is dropped was finished before everything that is finished and kept. -/
  oldest : ∀ t ∈ h.list.tasks, t.id ∉ after.list.ids →
    ∀ t' ∈ after.list.closed, [t.id, t'.id].Sublist after.finishes

/-- The earliest added of the finished tasks and `t`. -/
def firstFinished (s : LocalTasks) (t : LocalTask) : Option LocalTask :=
  s.tasks.find? fun u => !u.isOpen ∨ u.id = t.id

/-- The calls that keep the list in order: the counter of ids has not come round, nothing is
started again where the list is full, and a task finished where it would be one too many is not
the earliest added of the finished ones, which has been finished for longest. -/
structure Orderly (h : History) (c : Call) : Prop where
  counts : c.action = "add" → h.issued.length < 2 ^ 64
  starts : ∀ _t ∈ h.list.reopening c, h.list.open_.length < MAX_OPEN
  finishes : ∀ t ∈ h.list.finishing c, MAX_CLOSED ≤ h.list.closed.length →
    ∃ first ∈ h.list.firstFinished t, first.id ≠ t.id ∧
      ∀ u ∈ h.list.closed, u.id ≠ first.id → [first.id, u.id].Sublist h.finishes

instance (h : History) (c : Call) : Decidable (Orderly h c) :=
  decidable_of_iff ((c.action = "add" → h.issued.length < 2 ^ 64) ∧
    (∀ _t ∈ h.list.reopening c, h.list.open_.length < MAX_OPEN) ∧
    ∀ t ∈ h.list.finishing c, MAX_CLOSED ≤ h.list.closed.length →
      ∃ first ∈ h.list.firstFinished t, first.id ≠ t.id ∧
        ∀ u ∈ h.list.closed, u.id ≠ first.id → [first.id, u.id].Sublist h.finishes)
    ⟨fun all => ⟨all.1, all.2.1, all.2.2⟩, fun o => ⟨o.counts, o.starts, o.finishes⟩⟩

/-! ## Marking and trimming -/

section
variable {α : Type} {p : α → Bool}

theorem dropFirst_zero (l : List α) : dropFirst p 0 l = l := by
  induction l with
  | nil => rfl
  | cons a as ih => simp [dropFirst, ih]

theorem dropFirst_one (l : List α) : dropFirst p 1 l = l.eraseP p := by
  induction l with
  | nil => rfl
  | cons a as ih =>
    cases here : p a with
    | true => simp [dropFirst, here, dropFirst_zero]
    | false => simp [dropFirst, here, ih]

theorem dropFirst_sublist (k : Nat) (l : List α) : (dropFirst p k l).Sublist l := by
  induction l generalizing k with
  | nil => exact .slnil
  | cons a as ih =>
    unfold dropFirst
    split
    · exact (ih (k - 1)).cons a
    · exact (ih k).cons_cons a

theorem filter_dropFirst (k : Nat) (l : List α) :
    (dropFirst p k l).filter p = (l.filter p).drop k := by
  induction l generalizing k with
  | nil => simp [dropFirst]
  | cons a as ih =>
    cases here : p a with
    | true =>
      cases k with
      | zero => rw [dropFirst_zero, List.drop_zero]
      | succ k => simp [dropFirst, here, ih]
    | false => simp [dropFirst, here, ih]

theorem filter_not_dropFirst (k : Nat) (l : List α) :
    (dropFirst p k l).filter (!p ·) = l.filter (!p ·) := by
  induction l generalizing k with
  | nil => rfl
  | cons a as ih =>
    cases here : p a with
    | true =>
      cases k with
      | zero => rw [dropFirst_zero]
      | succ k => simp [dropFirst, here, ih]
    | false => simp [dropFirst, here, ih]

/-- What goes with the first is the first. -/
theorem find_of_eraseP {a : α} {l : List α} (member : a ∈ l) (gone : a ∉ l.eraseP p) :
    l.find? p = some a := by
  induction l with
  | nil => cases member
  | cons b l ih =>
    cases here : p b with
    | true =>
      rw [List.eraseP_cons_of_pos here] at gone
      rcases List.mem_cons.mp member with rfl | later
      · rw [List.find?_cons_of_pos here]
      · exact absurd later gone
    | false =>
      rw [List.eraseP_cons_of_neg (by simp [here])] at gone
      rw [List.find?_cons_of_neg (by simp [here])]
      rcases List.mem_cons.mp member with rfl | later
      · exact absurd List.mem_cons_self gone
      · exact ih later fun kept => gone (List.mem_cons_of_mem b kept)

end

section
variable {id : String} {status : LocalStatus} {note : Option String} {ts : List LocalTask}

/-- A task marked. -/
def marked (status : LocalStatus) (note : Option String) (t : LocalTask) : LocalTask :=
  { t with status := status, note := note.getD t.note }

theorem mark_ids : (mark id status note ts).map (·.id) = ts.map (·.id) := by
  induction ts with
  | nil => rfl
  | cons t ts ih =>
    unfold mark
    split
    · rfl
    · rw [List.map_cons, List.map_cons, ih]

theorem countP_mark {t : LocalTask} (p : LocalTask → Bool) (found : ts.find? (·.id = id) = some t) :
    (mark id status note ts).countP p + (p t).toNat =
      ts.countP p + (p (marked status note t)).toNat := by
  induction ts with
  | nil => cases found
  | cons u ts ih =>
    unfold mark
    split
    next here =>
      rw [List.find?_cons_of_pos (by simpa using here)] at found
      cases found
      rw [List.countP_cons, List.countP_cons]
      have same : p { t with status := status, note := note.getD t.note } =
          p (marked status note t) := rfl
      rw [same]
      cases p t <;> cases p (marked status note t) <;> simp
    next other =>
      rw [List.find?_cons_of_neg (by simpa using other)] at found
      have rest := ih found
      rw [List.countP_cons, List.countP_cons]
      omega

theorem find_mark (shut : status.isOpen = false) :
    (mark id status note ts).find? (!·.isOpen) =
      (ts.find? fun u => !u.isOpen ∨ u.id = id).map fun u =>
        if u.id = id then marked status note u else u := by
  induction ts with
  | nil => rfl
  | cons t ts ih =>
    unfold mark
    split
    next here =>
      rw [List.find?_cons_of_pos (by simp [LocalTask.isOpen, shut]),
        List.find?_cons_of_pos (by simp [here]), Option.map_some, if_pos here, marked]
    next other =>
      cases stands : t.isOpen with
      | true =>
        rw [List.find?_cons_of_neg (by simp [stands]),
          List.find?_cons_of_neg (by simp [stands, other]), ih]
      | false =>
        rw [List.find?_cons_of_pos (by simp [stands]), List.find?_cons_of_pos (by simp [stands]),
          Option.map_some, if_neg other]

/-- Where ids are not repeated, marking changes the one task of that id. -/
theorem mem_mark {t u : LocalTask} (unique : (ts.map (·.id)).Nodup)
    (found : ts.find? (·.id = id) = some t) :
    u ∈ mark id status note ts ↔ (u ∈ ts ∧ u.id ≠ id) ∨ u = marked status note t := by
  induction ts with
  | nil => cases found
  | cons v ts ih =>
    obtain ⟨absent, rest⟩ := List.nodup_cons.mp unique
    unfold mark
    split
    next here =>
      rw [List.find?_cons_of_pos (by simpa using here)] at found
      cases found
      -- No later task has the id, so the rest of the list is as it was.
      have others : ∀ w ∈ ts, w.id ≠ id := fun w member same =>
        absent (List.mem_map.mpr ⟨w, member, same.trans here.symm⟩)
      constructor
      · intro member
        rcases List.mem_cons.mp member with rfl | later
        · exact .inr rfl
        · exact .inl ⟨List.mem_cons_of_mem _ later, others u later⟩
      · rintro (⟨member, other⟩ | rfl)
        · rcases List.mem_cons.mp member with rfl | later
          · exact absurd here other
          · exact List.mem_cons_of_mem _ later
        · exact List.mem_cons_self
    next other =>
      rw [List.find?_cons_of_neg (by simpa using other)] at found
      rw [List.mem_cons, ih rest found, List.mem_cons]
      constructor
      · rintro (rfl | ⟨member, differs⟩ | same)
        · exact .inl ⟨.inl rfl, other⟩
        · exact .inl ⟨.inr member, differs⟩
        · exact .inr same
      · rintro (⟨rfl | member, differs⟩ | same)
        · exact .inl rfl
        · exact .inr (.inl ⟨member, differs⟩)
        · exact .inr (.inr same)

end

/-! ## One call -/

/-- The list with the task that a call names marked, before it is trimmed. -/
def marking (s : LocalTasks) (c : Call) (note : Option String) : LocalTasks :=
  { s with tasks := mark c.target (.ofAction c.action) note s.tasks }

theorem ids_marking (s : LocalTasks) (c : Call) (note : Option String) :
    (s.marking c note).ids = s.ids := mark_ids

/-- The id a task is given. -/
def idOf (next : UInt64) : String := s!"L{next}"

theorem idOf_inj {a b : UInt64} (same : idOf a = idOf b) : a = b := by
  have digits : Nat.toDigits 10 a.toNat = Nat.toDigits 10 b.toNat := by
    have shown : a.toNat.repr = b.toNat.repr := (String.append_right_inj "L").mp same
    rw [← Nat.toList_repr, ← Nat.toList_repr, shown]
  exact UInt64.toNat_inj.mp (Numerals.toDigits_inj (by decide) (by decide) digits)

/-- All that a call can do to the list. -/
theorem call_cases (debug : String → String) (s : LocalTasks) (c : Call) :
    (s.call debug c = s ∧ s.finishing c = none) ∨
    (c.action = "add" ∧ s.open_.length < MAX_OPEN ∧ ∃ text, s.call debug c = trimClosed { s with
      next := s.next + 1
      tasks := s.tasks ++ [{ id := idOf s.next, text := text, status := .todo, note := "" }] }) ∨
    (c.action ∈ ["start", "done", "failed", "drop"] ∧
      ∃ t note, s.tasks.find? (·.id = c.target) = some t ∧
        s.call debug c = (s.marking c note).trimClosed) := by
  unfold call apply
  by_cases list : c.action = "list"
  · exact .inl ⟨by rw [if_pos list], by simp [finishing, list]⟩
  · by_cases add : c.action = "add"
    · have none_ : s.finishing c = none := by simp [finishing, add]
      rw [if_neg list, if_pos add]
      dsimp only
      split
      · exact .inl ⟨rfl, none_⟩
      · split
        · exact .inl ⟨rfl, none_⟩
        next room => exact .inr (.inl ⟨add, not_le.mp room, _, rfl⟩)
    · rw [if_neg list, if_neg add]
      dsimp only
      split
      next known =>
        split
        -- No task of that id at all, so none that is open.
        next missing =>
          refine .inl ⟨rfl, ?_⟩
          unfold finishing
          split
          · rw [List.find?_eq_none] at missing ⊢
            intro t member
            have other := missing t member
            simp only [decide_eq_true_eq] at other
            simp [Call.target, other]
          · rfl
        next t found => exact .inr (.inr ⟨known, t, _, found, rfl⟩)
      next unknown =>
        refine .inl ⟨rfl, ?_⟩
        unfold finishing
        rw [if_neg]
        intro known
        exact unknown (List.mem_cons_of_mem "start" known)

/-- What every run keeps. -/
structure Kept (h : History) : Prop extends Bounded h where
  counted : h.list.next = UInt64.ofNat (h.issued.length + 1)
  named : ∀ id ∈ h.issued, ∃ i < h.issued.length, id = idOf (UInt64.ofNat (i + 1))
  remembered : ∀ t ∈ h.list.closed, t.id ∈ h.finishes

theorem Kept.unique {h : History} (kept : Kept h) : h.list.ids.Nodup :=
  kept.listed.nodup kept.issued

theorem Kept.same {h : History} (kept : Kept h) {t u : LocalTask} (left : t ∈ h.list.tasks)
    (right : u ∈ h.list.tasks) (same : t.id = u.id) : t = u :=
  List.inj_on_of_nodup_map kept.unique left right same

/-- An id that is given out is new while the counter has not come round. -/
theorem Kept.new {h : History} (kept : Kept h) (room : h.issued.length < 2 ^ 64) :
    idOf h.list.next ∉ h.issued := by
  intro old
  obtain ⟨i, less, same⟩ := kept.named _ old
  rw [kept.counted] at same
  have numbers := congrArg UInt64.toNat (idOf_inj same)
  simp only [UInt64.toNat_ofNat'] at numbers
  omega

section
variable {debug : String → String} {h : History} {c : Call}

theorem filter_listed {ids : List String} {old : List String} (listed : ∀ id ∈ ids, id ∈ old) :
    ids.filter (· ∉ old) = [] := by
  rw [List.filter_eq_nil_iff]
  intro id member
  simpa using listed id member

/-- A call that changes nothing. -/
theorem Kept.idle (kept : Kept h) (same : h.list.call debug c = h.list)
    (none_ : h.list.finishing c = none) : Kept (h.step debug c) ∧ Fair h c (h.step debug c) := by
  have stays : h.step debug c = h := by
    unfold History.step
    rw [same, none_]
    dsimp only
    rw [filter_listed fun id member => member, List.append_nil]
  rw [stays]
  refine ⟨kept, fun t member _ => List.mem_map_of_mem member, fun t => ?_, fun t member gone => ?_⟩
  · rw [none_]
    intro found
    cases found
  · exact absurd (List.mem_map_of_mem member) gone

/-- Where there is no room for one more finished task, but none was added, nothing is trimmed. -/
theorem trimClosed_small {s : LocalTasks} (small : s.closed.length ≤ MAX_CLOSED) :
    s.trimClosed = s := by
  unfold trimClosed
  rw [Nat.sub_eq_zero_of_le small, dropFirst_zero]

theorem open_trimClosed (s : LocalTasks) : s.trimClosed.open_ = s.open_ := by
  have kept := filter_not_dropFirst (p := fun t : LocalTask => !t.isOpen)
    (s.closed.length - MAX_CLOSED) s.tasks
  simp only [Bool.not_not] at kept
  exact kept

theorem closed_trimClosed (s : LocalTasks) :
    s.trimClosed.closed = s.closed.drop (s.closed.length - MAX_CLOSED) :=
  filter_dropFirst _ _

theorem ids_trimClosed (s : LocalTasks) : s.trimClosed.ids.Sublist s.ids :=
  (dropFirst_sublist _ _).map _

/-- A task added. -/
theorem Kept.added (kept : Kept h) (add : c.action = "add")
    (room : h.list.open_.length < MAX_OPEN) (counts : h.issued.length < 2 ^ 64) {text : String}
    (called : h.list.call debug c = trimClosed { h.list with
      next := h.list.next + 1
      tasks := h.list.tasks ++
        [{ id := idOf h.list.next, text := text, status := .todo, note := "" }] }) :
    Kept (h.step debug c) ∧ Fair h c (h.step debug c) := by
  have none_ : h.list.finishing c = none := by simp [finishing, add]
  have new := kept.new counts
  have unlisted : idOf h.list.next ∉ h.list.ids := fun old => new (kept.listed.subset old)
  rw [trimClosed_small (by simpa [closed, LocalTask.isOpen, LocalStatus.isOpen] using kept.closed)]
    at called
  -- The id handed out is the only one that was not listed before.
  have fresh : (h.list.call debug c).ids.filter (· ∉ h.list.ids) = [idOf h.list.next] := by
    have longer : (h.list.call debug c).ids = h.list.ids ++ [idOf h.list.next] := by
      rw [called]
      simp [ids]
    rw [longer, List.filter_append, filter_listed fun id member => member]
    simp [unlisted]
  have after : h.step debug c =
      ⟨h.list.call debug c, h.issued ++ [idOf h.list.next], h.finishes⟩ := by
    unfold History.step
    dsimp only
    rw [none_, fresh]
  rw [after, called]
  refine ⟨⟨⟨?_, ?_, ?_, ?_⟩, ?_, ?_, ?_⟩, ?_, ?_, ?_⟩
  · exact List.nodup_append.mpr ⟨kept.issued, List.nodup_singleton _, by
      rintro a old b last rfl
      rw [List.mem_singleton.mp last] at old
      exact new old⟩
  · simpa [ids] using kept.listed.append (List.Sublist.refl [idOf h.list.next])
  · unfold open_
    rw [List.filter_append, List.length_append]
    exact room
  · simpa [closed, LocalTask.isOpen, LocalStatus.isOpen] using kept.closed
  · simp only [List.length_append, List.length_singleton]
    rw [kept.counted]
    -- The counter and the number of ids handed out go round together.
    apply UInt64.toNat_inj.mp
    simp [UInt64.toNat_add]
  · intro id member
    rw [List.length_append, List.length_singleton]
    rcases List.mem_append.mp member with old | last
    · obtain ⟨i, less, rfl⟩ := kept.named id old
      exact ⟨i, Nat.lt_succ_of_lt less, rfl⟩
    · rw [List.mem_singleton.mp last]
      exact ⟨h.issued.length, Nat.lt_succ_self _, by rw [kept.counted]⟩
  · intro t member
    refine kept.remembered t ?_
    simpa [closed, LocalTask.isOpen, LocalStatus.isOpen, List.filter_append] using member
  · intro t member _
    simp only [ids, List.map_append]
    exact List.mem_append_left _ (List.mem_map_of_mem member)
  · rw [none_]
    intro t found
    cases found
  · intro t member gone
    refine absurd ?_ gone
    simp only [ids, List.map_append]
    exact List.mem_append_left _ (List.mem_map_of_mem member)

theorem mem_finishes {id : String} (old : id ∈ h.finishes) :
    id ∈ (h.step debug c).finishes := by
  unfold History.step
  dsimp only
  split
  · exact old
  next t _ =>
    by_cases this_ : id = t.id
    · exact List.mem_append_right _ (List.mem_singleton.mpr this_)
    · exact List.mem_append_left _ ((List.mem_erase_of_ne this_).mpr old)

section
variable {t : LocalTask} {note : Option String}

theorem found_mem (found : h.list.tasks.find? (·.id = c.target) = some t) :
    t ∈ h.list.tasks ∧ t.id = c.target :=
  ⟨List.mem_of_find?_eq_some found, by simpa using List.find?_some found⟩

/-- A call finishes a task exactly if it marks an open one with a status that is not. -/
theorem finishing_eq (known : c.action ∈ ["start", "done", "failed", "drop"]) (kept : Kept h)
    (found : h.list.tasks.find? (·.id = c.target) = some t) : h.list.finishing c =
      if t.isOpen ∧ (LocalStatus.ofAction c.action).isOpen = false then some t else none := by
  obtain ⟨member, named⟩ := found_mem found
  have action : c.action ∈ ["done", "failed", "drop"] ↔
      (LocalStatus.ofAction c.action).isOpen = false := by
    simp only [List.mem_cons, List.not_mem_nil, or_false] at known
    rcases known with start | done | failed | drop
    · rw [start]; decide
    · rw [done]; decide
    · rw [failed]; decide
    · rw [drop]; decide
  unfold finishing
  by_cases shut : (LocalStatus.ofAction c.action).isOpen = false
  · rw [if_pos (action.mpr shut)]
    by_cases stands : t.isOpen = true
    · rw [if_pos ⟨stands, shut⟩]
      cases other : h.list.tasks.find? fun u => u.id = c.target ∧ u.isOpen with
      | none =>
        rw [List.find?_eq_none] at other
        exact absurd (other t member) (by simp [named, stands])
      | some u =>
        have fits := List.find?_some other
        simp only [decide_eq_true_eq] at fits
        -- The id is one task's, so the open task found under it is this one.
        rw [kept.same (List.mem_of_find?_eq_some other) member (fits.1.trans named.symm)]
    · rw [if_neg fun both => stands both.1, List.find?_eq_none]
      intro u other fits
      simp only [decide_eq_true_eq] at fits
      rw [kept.same other member (fits.1.trans named.symm)] at fits
      exact stands fits.2
  · rw [if_neg fun finishes => shut (action.mp finishes), if_neg fun both => shut both.2]

theorem mem_marking (kept : Kept h) (found : h.list.tasks.find? (·.id = c.target) = some t)
    {u : LocalTask} : u ∈ (h.list.marking c note).tasks ↔
      (u ∈ h.list.tasks ∧ u.id ≠ c.target) ∨ u = marked (.ofAction c.action) note t :=
  mem_mark kept.unique found

/-- Marking a task moves it from the open ones to the finished ones, or back, or neither. -/
theorem lengths_marking (note : Option String)
    (found : h.list.tasks.find? (·.id = c.target) = some t) :
    (h.list.marking c note).open_.length + t.isOpen.toNat =
        h.list.open_.length + (LocalStatus.ofAction c.action).isOpen.toNat ∧
      (h.list.marking c note).closed.length + (!t.isOpen).toNat =
        h.list.closed.length + (!(LocalStatus.ofAction c.action).isOpen).toNat := by
  unfold open_ closed
  rw [← List.countP_eq_length_filter, ← List.countP_eq_length_filter,
    ← List.countP_eq_length_filter, ← List.countP_eq_length_filter]
  exact ⟨countP_mark (·.isOpen) found, countP_mark (!·.isOpen) found⟩

/-- A list with a task marked and then trimmed is a list that a run can have. -/
theorem Kept.moved (kept : Kept h) (orderly : Orderly h c)
    (known : c.action ∈ ["start", "done", "failed", "drop"])
    (found : h.list.tasks.find? (·.id = c.target) = some t)
    (called : h.list.call debug c = (h.list.marking c note).trimClosed) :
    Kept (h.step debug c) := by
  obtain ⟨member, named⟩ := found_mem found
  obtain ⟨opened, _⟩ := lengths_marking note found
  have fewer : (h.list.call debug c).ids.Sublist h.list.ids := by
    rw [called, ← ids_marking h.list c note]
    exact ids_trimClosed _
  have issued : (h.step debug c).issued = h.issued := by
    unfold History.step
    dsimp only
    rw [filter_listed fun id listed => fewer.subset listed, List.append_nil]
  have list : (h.step debug c).list = (h.list.marking c note).trimClosed := called
  refine ⟨⟨?_, ?_, ?_, ?_⟩, ?_, ?_, ?_⟩
  · rw [issued]; exact kept.issued
  · rw [issued]; exact fewer.trans kept.listed
  · -- only a start can open a task, and then only one that was finished
    rw [list, open_trimClosed]
    have full := kept.opened
    cases stands : t.isOpen with
    | true =>
      have one := Bool.toNat_le (LocalStatus.ofAction c.action).isOpen
      rw [stands, Bool.toNat_true] at opened
      omega
    | false =>
      rw [stands] at opened
      cases starts : (LocalStatus.ofAction c.action).isOpen with
      | false =>
        rw [starts, Bool.toNat_false] at opened
        omega
      | true =>
        have start : c.action = "start" := by
          simp only [List.mem_cons, List.not_mem_nil, or_false] at known
          rcases known with start | done | failed | drop
          · exact start
          · rw [done] at starts; cases starts
          · rw [failed] at starts; cases starts
          · rw [drop] at starts; cases starts
        have room : h.list.open_.length < MAX_OPEN := by
          cases again : h.list.reopening c with
          | some u => exact orderly.starts u again
          | none =>
            unfold reopening at again
            rw [if_pos start, List.find?_eq_none] at again
            exact absurd (again t member) (by simp [named, stands])
        rw [starts] at opened
        simp only [Bool.toNat_false, Bool.toNat_true] at opened
        omega
  · rw [list, closed_trimClosed, List.length_drop]
    omega
  · rw [issued, list]; exact kept.counted
  · rw [issued]; exact kept.named
  · intro u shut
    rw [list, closed_trimClosed] at shut
    have shut := List.mem_filter.mp (List.mem_of_mem_drop shut)
    rcases (mem_marking kept found).mp shut.1 with ⟨old, _⟩ | rfl
    · exact mem_finishes (kept.remembered u (List.mem_filter.mpr ⟨old, shut.2⟩))
    · by_cases stands : t.isOpen = true
      · have finishes := finishing_eq known kept found
        rw [if_pos ⟨stands, by simpa [marked, LocalTask.isOpen] using shut.2⟩] at finishes
        unfold History.step
        rw [finishes]
        exact List.mem_append_right _ (List.mem_singleton.mpr rfl)
      · have shut : t ∈ h.list.closed := List.mem_filter.mpr ⟨member, by simpa using stands⟩
        exact mem_finishes (kept.remembered t shut)

/-- Where a task too many is finished, the first finished one goes, and an orderly call makes
sure that it is the one finished for longest. -/
theorem overfull (kept : Kept h) (orderly : Orderly h c)
    (known : c.action ∈ ["start", "done", "failed", "drop"])
    (found : h.list.tasks.find? (·.id = c.target) = some t)
    (many : MAX_CLOSED < (h.list.marking c note).closed.length) :
    h.list.finishing c = some t ∧ ∃ first ∈ h.list.closed, first.id ≠ t.id ∧
      (∀ u ∈ h.list.closed, u.id ≠ first.id → [first.id, u.id].Sublist h.finishes) ∧
      (h.list.marking c note).trimClosed.tasks =
        (h.list.marking c note).tasks.eraseP (!·.isOpen) ∧
      (h.list.marking c note).tasks.find? (!·.isOpen) = some first := by
  obtain ⟨member, named⟩ := found_mem found
  obtain ⟨_, counted⟩ := lengths_marking note found
  have few := kept.closed
  have one := Bool.toNat_le (!(LocalStatus.ofAction c.action).isOpen)
  -- Only a task that was open and is not any more makes one finished task too many.
  have stands : t.isOpen = true := by
    cases stands : t.isOpen with
    | true => rfl
    | false =>
      rw [stands, Bool.not_false, Bool.toNat_true] at counted
      omega
  have shut : (LocalStatus.ofAction c.action).isOpen = false := by
    cases shut : (LocalStatus.ofAction c.action).isOpen with
    | false => rfl
    | true =>
      rw [shut, Bool.not_true, Bool.toNat_false] at counted
      omega
  have finishes := finishing_eq known kept found
  rw [if_pos ⟨stands, shut⟩] at finishes
  rw [stands, shut, Bool.not_true, Bool.not_false, Bool.toNat_false, Bool.toNat_true] at counted
  -- The call is orderly, so what goes is another one, and was finished before all the rest.
  obtain ⟨first, isFirst, other, longest⟩ := orderly.finishes t finishes (by omega)
  have earliest := List.find?_some isFirst
  simp only [decide_eq_true_eq, Bool.not_eq_true'] at earliest
  have finished : first ∈ h.list.closed := List.mem_filter.mpr
    ⟨List.mem_of_find?_eq_some isFirst, by simpa using earliest.resolve_right other⟩
  refine ⟨finishes, first, finished, other, longest, ?_, ?_⟩
  · unfold trimClosed
    rw [show (h.list.marking c note).closed.length - MAX_CLOSED = 1 by omega]
    exact dropFirst_one _
  · change (mark c.target (.ofAction c.action) note h.list.tasks).find? _ = _
    rw [find_mark shut, ← named, show h.list.tasks.find? _ = some first from isFirst,
      Option.map_some, if_neg other]

/-- An orderly call that marks a task drops nothing but the task finished for longest. -/
theorem Kept.moved_fair (kept : Kept h) (orderly : Orderly h c)
    (known : c.action ∈ ["start", "done", "failed", "drop"])
    (found : h.list.tasks.find? (·.id = c.target) = some t)
    (called : h.list.call debug c = (h.list.marking c note).trimClosed) :
    Fair h c (h.step debug c) := by
  obtain ⟨member, named⟩ := found_mem found
  have list : (h.step debug c).list = (h.list.marking c note).trimClosed := called
  have shown : ∀ u ∈ h.list.tasks, ∃ u' ∈ (h.list.marking c note).tasks, u'.id = u.id := by
    intro u old
    have kept_ : u.id ∈ (h.list.marking c note).ids := by
      rw [ids_marking]
      exact List.mem_map_of_mem old
    exact List.mem_map.mp kept_
  have result : ∀ u ∈ h.list.finishing c,
      (marked (.ofAction c.action) note t) ∈ (h.list.marking c note).closed ∧ u = t := by
    intro u finishes
    rw [finishing_eq known kept found] at finishes
    split at finishes
    next both =>
      refine ⟨List.mem_filter.mpr ⟨(mem_marking kept found).mpr (.inr rfl), ?_⟩,
        (Option.some.inj finishes).symm⟩
      simpa [marked, LocalTask.isOpen] using both.2
    · cases finishes
  rcases Nat.lt_or_ge MAX_CLOSED (h.list.marking c note).closed.length with many | few
  · obtain ⟨finishes, first, finished, other, longest, erased, isFirst⟩ :=
      overfull kept orderly known found many
    have survives : ∀ u ∈ (h.list.marking c note).tasks, u.id ≠ first.id →
        u ∈ (h.step debug c).list.tasks := by
      intro u here differs
      rw [list, erased]
      by_contra gone
      rw [find_of_eraseP here gone] at isFirst
      exact differs (by rw [Option.some.inj isFirst])
    have firstOld := List.mem_filter.mp finished
    refine ⟨fun u old stands => ?_, fun u now => ?_, fun u old gone u' shut => ?_⟩
    · obtain ⟨u', here, same⟩ := shown u old
      refine List.mem_map.mpr ⟨u', survives u' here fun isSame => ?_, same⟩
      rw [kept.same old firstOld.1 (same.symm.trans isSame)] at stands
      simp [stands] at firstOld
    · obtain ⟨here, rfl⟩ := result u now
      have here := List.mem_filter.mp here
      exact ⟨_, List.mem_filter.mpr ⟨survives _ here.1 other.symm, here.2⟩, rfl⟩
    · obtain ⟨v, here, same⟩ := shown u old
      have dropped : u.id = first.id := by
        by_contra differs
        exact gone (List.mem_map.mpr ⟨v, survives v here (by rw [same]; exact differs), same⟩)
      have shut := List.mem_filter.mp shut
      have differs : u'.id ≠ first.id := fun isSame =>
        gone (List.mem_map.mpr ⟨u', shut.1, isSame.trans dropped.symm⟩)
      have order : (h.step debug c).finishes = h.finishes.erase t.id ++ [t.id] := by
        unfold History.step
        rw [finishes]
      have before : u' ∈ (h.list.marking c note).tasks := by
        have there := shut.1
        rw [list, erased] at there
        exact List.eraseP_sublist.subset there
      rw [order, dropped]
      rcases (mem_marking kept found).mp before with ⟨old', elsewhere⟩ | rfl
      · -- both were finished before, and the new one comes behind them
        have elsewhere : u'.id ≠ t.id := by rw [named]; exact elsewhere
        have pair := (longest u' (List.mem_filter.mpr ⟨old', shut.2⟩) differs).erase t.id
        rw [List.erase_of_not_mem (by simp [Ne.symm other, Ne.symm elsewhere])] at pair
        exact pair.trans (List.sublist_append_left _ _)
      · have earlier : first.id ∈ h.finishes.erase t.id :=
          (List.mem_erase_of_ne other).mpr (kept.remembered first finished)
        exact (List.singleton_sublist.mpr earlier).append (List.Sublist.refl [t.id])
  · have all : (h.step debug c).list = h.list.marking c note :=
      list.trans (trimClosed_small few)
    refine ⟨fun u old _ => ?_, fun u now => ?_, fun u old gone => ?_⟩
    · rw [all, ids_marking]
      exact List.mem_map_of_mem old
    · obtain ⟨here, rfl⟩ := result u now
      rw [all]
      exact ⟨_, here, rfl⟩
    · rw [all, ids_marking] at gone
      exact absurd (List.mem_map_of_mem old) gone

end

/-- An orderly call keeps what a run keeps, and is fair. -/
theorem step_kept (kept : Kept h) (orderly : Orderly h c) :
    Kept (h.step debug c) ∧ Fair h c (h.step debug c) := by
  rcases call_cases debug h.list c with
    ⟨same, none_⟩ | ⟨add, room, text, called⟩ | ⟨known, t, note, found, called⟩
  · exact kept.idle same none_
  · exact kept.added add room (orderly.counts add) called
  · exact ⟨kept.moved orderly known found called, kept.moved_fair orderly known found called⟩

end

/-! ## Every run -/

theorem fresh_kept (epoch : Nat) : Kept (.fresh epoch) :=
  ⟨⟨.nil, .slnil, Nat.zero_le _, Nat.zero_le _⟩, rfl, fun _ member => absurd member List.not_mem_nil,
    fun _ member => absurd member List.not_mem_nil⟩

/-- In every run of orderly calls the list stays in bounds, and every call is fair. -/
theorem localTasks_run (debug : String → String) (epoch : Nat) (calls : List Call)
    (orderly : Machine.Meets (History.step debug) Orderly (.fresh epoch) calls) :
    Bounded (Machine.run (History.step debug) (.fresh epoch) calls) ∧
      ∀ before c after, calls = before ++ c :: after →
        Fair (Machine.run (History.step debug) (.fresh epoch) before) c
          (Machine.run (History.step debug) (.fresh epoch) (before ++ [c])) := by
  have reach : ∀ {cs : List Call},
      Machine.Meets (History.step debug) Orderly (.fresh epoch) cs →
      Kept (Machine.run (History.step debug) (.fresh epoch) cs) := fun {cs} meets =>
    Machine.run_invariant Kept (fun h c kept ok => (step_kept kept ok).1) (fresh_kept epoch) meets
  refine ⟨(reach orderly).toBounded, ?_⟩
  rintro before c after rfl
  obtain ⟨first, now, _⟩ := Machine.meets_append.mp orderly
  rw [Machine.run_concat]
  exact (step_kept (reach first) now).2

/-- `n` tasks added, and the tasks of some numbers finished. -/
def adding (n : Nat) : List Call := List.replicate n ⟨"add", "", "a step"⟩

def finishAll (numbers : List Nat) : List Call := numbers.map fun n => ⟨"done", s!"l{n}", ""⟩

/-- Tasks finished in the order they were added in, one of them too many. -/
theorem localTasks_run_inOrder :
    let calls := adding 22 ++ finishAll (List.range' 1 21)
    (Bounded (Machine.run (History.step id) (.fresh 0) calls) ∧
      ∀ before c after, calls = before ++ c :: after →
        Fair (Machine.run (History.step id) (.fresh 0) before) c
          (Machine.run (History.step id) (.fresh 0) (before ++ [c]))) ∧
      "L1" ∉ (Machine.run (History.step id) (.fresh 0) calls).list.ids :=
  ⟨localTasks_run id 0 _ (by decide +kernel), by decide +kernel⟩

/-- The first task added, finished last, is not listed afterwards. And a task started again where
fifty others are open is one too many. -/
theorem localTasks_run_outOfOrder :
    (¬ ∀ calls : List Call,
      Bounded (Machine.run (History.step id) (.fresh 0) calls) ∧
        ∀ before c after, calls = before ++ c :: after →
          Fair (Machine.run (History.step id) (.fresh 0) before) c
            (Machine.run (History.step id) (.fresh 0) (before ++ [c]))) ∧
    ¬ ∀ calls : List Call, Bounded (Machine.run (History.step id) (.fresh 0) calls) := by
  refine ⟨fun holds => ?_, fun holds => ?_⟩
  · have fair := (holds (adding 21 ++ finishAll (List.range' 2 20) ++ [⟨"done", "L1", ""⟩])).2
      (adding 21 ++ finishAll (List.range' 2 20)) ⟨"done", "L1", ""⟩ [] rfl
    obtain ⟨t, listed, same⟩ := fair.finished ⟨"L1", "a step", .todo, ""⟩ (by decide +kernel)
    have gone : ∀ t ∈ (Machine.run (History.step id) (.fresh 0)
        (adding 21 ++ finishAll (List.range' 2 20) ++ [⟨"done", "L1", ""⟩])).list.closed,
        t.id ≠ "L1" := by decide +kernel
    exact gone t listed same
  · have bounded := holds (adding 50 ++ finishAll [1] ++ adding 1 ++ [⟨"start", "L1", ""⟩])
    exact absurd bounded.opened (by decide +kernel)

end LocalTasks

end AkumaMiot

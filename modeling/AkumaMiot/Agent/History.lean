import Mathlib.Data.Option.Basic
import AkumaMiot.Lib.Matches
import AkumaMiot.Llm.Messages

/-!
# A conversation kept across a restart

The conversation is saved as JSON after every turn and read back when the agent starts. A call in
it is without the fields that were too long to keep. Calls saved before that have such a field cut
or replaced by a note, which a model copies; on the way back in these fields go.
-/
namespace AkumaMiot

open Llm (CalledRow called calledRows)

variable {F : Type}

/-! ## Fields left out of a call -/

/-- What the message that answers a call says. -/
def CALLED_ACK : String := "(started — anything it returns comes back in a later message)"

/-- The length that is told of a field, if it goes. -/
def goneField (gone : String → Option Nat) : Json F → Option Nat
  | .str s => gone s
  | _ => none

/-- A value without the strings of its objects' fields that `gone` gives a length for, at any
depth, and a note for each. -/
def leaveOut (gone : String → Option Nat) : Json F → Json F × List String :=
  Json.fold
    { null := (.null, [])
      bool := fun b => (.bool b, [])
      posInt := fun n => (.posInt n, [])
      negInt := fun n => (.negInt n, [])
      float := fun f => (.float f, [])
      str := fun s => (.str s, [])
      arr := fun es => (.arr (es.map Prod.fst), es.flatMap Prod.snd)
      obj := fun fields =>
        (.obj ((fields.map fun f => (f.1, f.2.1)).filter fun f => (goneField gone f.2).isNone),
          fields.flatMap fun f =>
            match goneField gone f.2.1 with
            | some n => [s!"{f.1} ({n} chars)"]
            | none => f.2.2) }

/-- A value's own text, if it is a string, and the strings that stand in a field of an object. -/
def texts : Json F → Option String × List String :=
  Json.fold
    { null := (none, [])
      bool := fun _ => (none, [])
      posInt := fun _ => (none, [])
      negInt := fun _ => (none, [])
      float := fun _ => (none, [])
      str := fun s => (some s, [])
      arr := fun es => (none, es.flatMap Prod.snd)
      obj := fun fields => (none, fields.flatMap fun f => f.2.1.toList ++ f.2.2) }

def fieldTexts (v : Json F) : List String := (texts v).2

def calledAck (leftOut : List String) : String :=
  if leftOut = [] then CALLED_ACK
  else CALLED_ACK ++ " Left out of this history to keep it short (all of it was sent, whole): " ++
    joinTexts ", " leftOut ++ "."

section LeaveOut

variable {gone : String → Option Nat} {v : Json F}

theorem leaveOut_arr (es : List (Json F)) : leaveOut gone (.arr es) =
    (.arr (es.map fun e => (leaveOut gone e).1), es.flatMap fun e => (leaveOut gone e).2) := by
  simp only [leaveOut, Json.fold_arr, List.map_map, List.flatMap_map]
  rfl

theorem leaveOut_obj (fields : List (String × Json F)) :
    (leaveOut gone (.obj fields)).1 =
      .obj ((fields.map fun f => (f.1, (leaveOut gone f.2).1)).filter
        fun f => (goneField gone f.2).isNone) := by
  simp only [leaveOut, Json.fold_obj, List.map_map]
  rfl

theorem leaveOut_obj_notes (fields : List (String × Json F)) :
    (leaveOut gone (.obj fields)).2 = fields.flatMap fun f =>
      match goneField gone (leaveOut gone f.2).1 with
      | some n => [s!"{f.1} ({n} chars)"]
      | none => (leaveOut gone f.2).2 := by
  simp only [leaveOut, Json.fold_obj, List.flatMap_map]

/-- What is left of a value is a string only if it was that string. -/
theorem leaveOut_str {s : String} : (leaveOut gone v).1 = .str s ↔ v = .str s := by
  cases v with
  | arr es => simp [leaveOut_arr]
  | obj fields => simp [leaveOut_obj]
  | _ => simp [leaveOut, Json.fold]

theorem goneField_leaveOut : goneField gone (leaveOut gone v).1 = goneField gone v := by
  cases v with
  | arr es => rw [leaveOut_arr]; rfl
  | obj fields => rw [leaveOut_obj]; rfl
  | _ => rfl

theorem mem_fieldTexts_arr {es : List (Json F)} {s : String} :
    s ∈ fieldTexts (.arr es) ↔ ∃ e ∈ es, s ∈ fieldTexts e := by
  simp only [fieldTexts, texts, Json.fold_arr, List.flatMap_map, List.mem_flatMap]

theorem texts_own {s : String} : (texts v).1 = some s ↔ v = .str s := by
  cases v with
  | str t => simp [texts, Json.fold]
  | arr es => simp [texts, Json.fold_arr]
  | obj fields => simp [texts, Json.fold_obj]
  | _ => simp [texts, Json.fold]

theorem mem_fieldTexts_obj {fields : List (String × Json F)} {s : String} :
    s ∈ fieldTexts (.obj fields) ↔ ∃ f ∈ fields, f.2 = .str s ∨ s ∈ fieldTexts f.2 := by
  have parts : fieldTexts (.obj fields) =
      fields.flatMap fun f => (texts f.2).1.toList ++ fieldTexts f.2 := by
    simp only [fieldTexts, texts, Json.fold_obj, List.flatMap_map]
  simp only [parts, List.mem_flatMap, List.mem_append, Option.mem_toList, texts_own]

/-- The strings that are left are those that do not go. -/
theorem leaveOut_texts {s : String} (left : s ∈ fieldTexts (leaveOut gone v).1) :
    s ∈ fieldTexts v ∧ gone s = none := by
  induction v using Json.inductionOn with
  | arr es ih =>
    rw [leaveOut_arr, mem_fieldTexts_arr] at left
    obtain ⟨e', member, inside⟩ := left
    obtain ⟨e, there, rfl⟩ := List.mem_map.mp member
    obtain ⟨here, stays⟩ := ih e there inside
    exact ⟨mem_fieldTexts_arr.mpr ⟨e, there, here⟩, stays⟩
  | obj fields ih =>
    rw [leaveOut_obj, mem_fieldTexts_obj] at left
    obtain ⟨f', member, inside⟩ := left
    obtain ⟨member, stays⟩ := List.mem_filter.mp member
    obtain ⟨f, there, rfl⟩ := List.mem_map.mp member
    rcases inside with is | inside
    · have was := leaveOut_str.mp is
      simp only [goneField_leaveOut, was] at stays
      exact ⟨mem_fieldTexts_obj.mpr ⟨f, there, .inl was⟩, Option.isNone_iff_eq_none.mp stays⟩
    · obtain ⟨here, stays⟩ := ih f there inside
      exact ⟨mem_fieldTexts_obj.mpr ⟨f, there, .inr here⟩, stays⟩
  | _ => simp [leaveOut, Json.fold, fieldTexts, texts] at left

/-- A value with no string that goes is left as it is. -/
theorem leaveOut_clean (clean : ∀ s ∈ fieldTexts v, gone s = none) : leaveOut gone v = (v, []) := by
  induction v using Json.inductionOn with
  | arr es ih =>
    have each : ∀ e ∈ es, leaveOut gone e = (e, []) := fun e member =>
      ih e member fun s inside => clean s (mem_fieldTexts_arr.mpr ⟨e, member, inside⟩)
    rw [leaveOut_arr]
    congr 1
    · rw [List.map_congr_left (g := id) fun e member => by rw [each e member]; rfl, List.map_id]
    · exact List.flatMap_eq_nil_iff.mpr fun e member => by rw [each e member]
  | obj fields ih =>
    have each : ∀ f ∈ fields, leaveOut gone f.2 = (f.2, []) := fun f member =>
      ih f member fun s inside => clean s (mem_fieldTexts_obj.mpr ⟨f, member, .inr inside⟩)
    have stays : ∀ f ∈ fields, goneField gone f.2 = none := by
      intro f member
      cases value : f.2 with
      | str s => exact clean s (mem_fieldTexts_obj.mpr ⟨f, member, .inl value⟩)
      | _ => rfl
    refine Prod.ext ?_ ?_
    · have same : fields.map (fun f => (f.1, (leaveOut gone f.2).1)) = fields := by
        rw [List.map_congr_left (g := id) fun f member => by rw [each f member]; rfl, List.map_id]
      rw [leaveOut_obj, same, List.filter_eq_self.mpr fun f member => by rw [stays f member]; rfl]
    · rw [leaveOut_obj_notes]
      refine List.flatMap_eq_nil_iff.mpr fun f member => ?_
      rw [each f member, stays f member]
  | _ => rfl

theorem leaveOut_valid (valid : v.Valid) : (leaveOut gone v).1.Valid := by
  induction v using Json.inductionOn with
  | arr es ih =>
    rw [leaveOut_arr, Json.valid_arr]
    intro e' member
    obtain ⟨e, there, rfl⟩ := List.mem_map.mp member
    exact ih e there (Json.valid_arr.mp valid e there)
  | obj fields ih =>
    obtain ⟨distinct, parts⟩ := Json.valid_obj.mp valid
    rw [leaveOut_obj, Json.valid_obj]
    constructor
    · have names : (fields.map fun f => (f.1, (leaveOut gone f.2).1)).map Prod.fst =
          fields.map Prod.fst := by
        rw [List.map_map]
        rfl
      exact (List.filter_sublist.map Prod.fst).nodup (names ▸ distinct)
    · intro f' member
      obtain ⟨f, there, rfl⟩ := List.mem_map.mp (List.mem_filter.mp member).1
      exact ih f there (parts f there)
  | _ => exact valid

theorem leaveOut_depth {d : Nat} (shallow : v.depth ≤ d) : (leaveOut gone v).1.depth ≤ d := by
  induction v using Json.inductionOn generalizing d with
  | arr es ih =>
    cases d with
    | zero => simp [Json.depth, Json.fold_arr] at shallow
    | succ d =>
      rw [leaveOut_arr, Json.depth_arr_le]
      intro e' member
      obtain ⟨e, there, rfl⟩ := List.mem_map.mp member
      exact ih e there (Json.depth_arr_le.mp shallow e there)
  | obj fields ih =>
    cases d with
    | zero => simp [Json.depth, Json.fold_obj] at shallow
    | succ d =>
      rw [leaveOut_obj, Json.depth_obj_le]
      intro f' member
      obtain ⟨f, there, rfl⟩ := List.mem_map.mp (List.mem_filter.mp member).1
      exact ih f there (Json.depth_obj_le.mp shallow f there)
  | _ => exact shallow

theorem leaveOut_floats {x : F} (left : x ∈ (leaveOut gone v).1.floats) : x ∈ v.floats := by
  induction v using Json.inductionOn with
  | arr es ih =>
    rw [leaveOut_arr, Json.mem_floats_arr] at left
    obtain ⟨e', member, inside⟩ := left
    obtain ⟨e, there, rfl⟩ := List.mem_map.mp member
    exact Json.mem_floats_arr.mpr ⟨e, there, ih e there inside⟩
  | obj fields ih =>
    rw [leaveOut_obj, Json.mem_floats_obj] at left
    obtain ⟨f', member, inside⟩ := left
    obtain ⟨f, there, rfl⟩ := List.mem_map.mp (List.mem_filter.mp member).1
    exact Json.mem_floats_obj.mpr ⟨f, there, ih f there inside⟩
  | _ => exact left

end LeaveOut

/-! ## The marks of old calls -/

/-- `str::rsplit_once`, of a text that does not overlap itself. -/
def rsplitOnce (pat s : List Char) : Option (List Char × List Char) :=
  (Matches.all s pat).getLast?.map fun k => (s.take k, s.drop (k + pat.length))

/-- `str::split_once`. -/
def splitAtFirst (pat s : List Char) : Option (List Char × List Char) :=
  (Matches.all s pat).head?.map fun k => (s.take k, s.drop (k + pat.length))

/-- Digits and nothing else, as a `usize`. -/
def allDigits (cs : List Char) : Option Nat :=
  if cs ≠ [] ∧ cs.all Char.isDigit then Numerals.fromStrRadix 10 (2 ^ 64) cs else none

/-- `… (N chars in all)` behind a text that was cut. -/
def oldMarker (s : String) : Option Nat := do
  let tail := " chars in all)".toList
  let front ← if tail <:+ s.toList then some (s.toList.take (s.length - tail.length)) else none
  let (_, n) ← rsplitOnce "… (".toList front
  allDigits n

/-- `<N characters were sent here.` where a text was. -/
def secondMarker (s : String) : Option Nat := do
  let rest ← if s.toList.head? = some '<' then some s.toList.tail else none
  let (n, _) ← splitAtFirst " characters were sent here.".toList rest
  allDigits n

def clipMarker (s : String) : Option Nat := oldMarker s <|> secondMarker s

/-- A row without the fields that are such a mark. -/
def unmarked (r : CalledRow F) : CalledRow F :=
  let (args, leftOut) := leaveOut clipMarker r.args
  { r with args, ack := if leftOut = [] then r.ack else calledAck leftOut }

variable (floats : Json.Floats F)

def dropOldClipMarker (said : String) : String :=
  match calledRows floats said with
  | none => said
  | some rows => called floats (rows.map unmarked)

/-! ## The file -/

namespace Speaker

def text : Speaker → String
  | user => "user"
  | assistant => "assistant"
  | called => "called"

end Speaker

/-- Machine integers of 64 bits. -/
def json64 (n : Nat) : Json F := .posInt (UInt64.ofNat n)

def read64 : Json F → Option Nat
  | .posInt n => some n.toNat
  | _ => none

/-- A field of a record that may also stand as an array, where it is the one at `i`. -/
def member (key : String) (i : Nat) : Json F → Option (Json F)
  | .arr es => es[i]?
  | v => Llm.get key v

/-- A record has a field for each place of its array at most. -/
def isRecord (places : Nat) : Json F → Bool
  | .arr es => es.length ≤ places
  | .obj _ => true
  | _ => false

namespace Fresh

def json (f : Fresh) : Json F :=
  .obj [("id", json64 f.id), ("name", .str f.name), ("head", .str f.head),
    ("chars", json64 f.chars), ("turn", json64 f.turn), ("full", .str f.full)]

def ofJson (v : Json F) : Option Fresh := do
  guard (isRecord 6 v)
  return {
    id := ← (member "id" 0 v).bind read64
    name := ← (member "name" 1 v).bind Llm.asStr
    head := ← (member "head" 2 v).bind Llm.asStr
    chars := ← (member "chars" 3 v).bind read64
    turn := ← (member "turn" 4 v).bind read64
    full := ← (member "full" 5 v).bind Llm.asStr }

/-- Its counts are machine integers. -/
structure Fits (f : Fresh) : Prop where
  id : f.id < 2 ^ 64
  chars : f.chars < 2 ^ 64
  turn : f.turn < 2 ^ 64

end Fresh

/-- A list in an array. -/
def readAll {α : Type} (item : Json F → Option α) : Json F → Option (List α)
  | .arr es => es.mapM item
  | _ => none

/-- Two texts. -/
def readPair : Json F → Option (String × String)
  | .arr [.str who, .str said] => some (who, said)
  | _ => none

/-- What a field holds, or what stands for it where it is missing. -/
def orDefault {α : Type} (read : Json F → Option α) (default : α) : Option (Json F) → Option α
  | none => some default
  | some v => read v

namespace Agent

/-- The rows of a file as entries. -/
def parseEntries (rows : List (String × String)) : List (Speaker × String) :=
  rows.filterMap fun (who, said) =>
    if who = "user" then some (.user, said)
    else if who = "assistant" then some (.assistant, said)
    else if who = "called" then some (.called, dropOldClipMarker floats said)
    else none

namespace Saved

def json (saved : Saved) : Json F :=
  .obj
    [("history", .arr (saved.history.map fun e => .arr [.str e.1.text, .str e.2])),
      ("fresh", .arr (saved.fresh.map Fresh.json)), ("turns", json64 saved.turns),
      ("next_id", json64 saved.nextId)]

def ofJson (v : Json F) : Option Saved := do
  guard (isRecord 4 v)
  let rows ← (member "history" 0 v).bind (readAll readPair)
  return {
    history := parseEntries floats rows
    fresh := ← orDefault (readAll Fresh.ofJson) [] (member "fresh" 1 v)
    turns := ← orDefault read64 0 (member "turns" 2 v)
    nextId := ← orDefault read64 0 (member "next_id" 3 v) }

/-- Its counts are machine integers. -/
structure Fits (saved : Saved) : Prop where
  fresh : ∀ f ∈ saved.fresh, f.Fits
  turns : saved.turns < 2 ^ 64
  nextId : saved.nextId < 2 ^ 64

end Saved

/-- The text that is saved. -/
def saveHistory (saved : Saved) : String := String.ofList ((saved.json (F := F)).write floats)

/-! ### The format before -/

def RESULTS_HEADER : String := "Results of tools you called:\n"

/-- The id in a row's first line, `[#3 Bash] …`. -/
def rowId (line : List Char) : Option Nat := do
  let rest ← if "[#".toList <+: line then some (line.drop 2) else none
  let (n, rest) ← splitAtFirst " ".toList rest
  guard (Matches.all rest "] ".toList ≠ [])
  Numerals.fromStrRadix 10 (2 ^ 64) n

/-- The lines of a message from its results on. -/
def resultLines (said : String) : List (List Char) :=
  match (Matches.all said.toList RESULTS_HEADER.toList).head? with
  | none => []
  | some at_ => lines (said.toList.drop at_)

/-- A message with each row of its results cut to its first line. -/
def trimmed (said : String) : String :=
  match (Matches.all said.toList RESULTS_HEADER.toList).head? with
  | none => said
  | some at_ =>
    let heads := ((resultLines said).filter fun l => (rowId l).isSome).map fun l =>
      String.ofList (l.take STUB_HEAD)
    let short := String.ofList (said.toList.take at_) ++ RESULTS_HEADER ++ joinTexts "\n" heads ++
      "\n(Only each result's first line is kept: they're from before a restart and can't be " ++
      "read again.)"
    if short.utf8ByteSize < said.utf8ByteSize then short else said

/-- The ids that a message's results show. -/
def shownIds (e : Speaker × String) : List Nat :=
  if e.1 = .user then (resultLines e.2).filterMap rowId else []

/-- The history with its results trimmed, how many messages that changed, and the highest id. -/
def trimLegacy (history : List (Speaker × String)) :
    List (Speaker × String) × Nat × Option Nat :=
  (history.map fun e => if e.1 = .user then (e.1, trimmed e.2) else e,
    history.countP fun e => e.1 = .user ∧ trimmed e.2 ≠ e.2, (history.flatMap shownIds).max?)

/-- What the file holds, and how many messages of an old one were trimmed. What is no such file is
an empty conversation. -/
def loadHistory (text : Option String) : Saved × Nat :=
  match text.bind fun text => Json.parse floats Llm.RECURSION_LIMIT text.toList with
  | none => (⟨[], [], 0, 0⟩, 0)
  | some v =>
    match Saved.ofJson floats v with
    | some saved => (saved, 0)
    | none =>
      match readAll readPair v with
      | none => (⟨[], [], 0, 0⟩, 0)
      | some rows =>
        let (history, trimmed, highest) := trimLegacy (parseEntries floats rows)
        (⟨history, [], 0, highest.elim 0 fun id => (id + 1) % 2 ^ 64⟩, trimmed)

/-! ## What is saved is read back -/

variable {floats}

/-- What reading makes of an entry. -/
def reread (floats : Json.Floats F) (e : Speaker × String) : Speaker × String :=
  if e.1 = .called then (.called, dropOldClipMarker floats e.2) else e

theorem read64_json64 {n : Nat} (fits : n < 2 ^ 64) : read64 (json64 (F := F) n) = some n := by
  rw [json64, read64, UInt64.toNat_ofNat_of_lt' fits]

theorem readAll_map {α β : Type} {item : Json F → Option β} {write : α → Json F} {back : α → β}
    {xs : List α} (each : ∀ x ∈ xs, item (write x) = some (back x)) :
    readAll item (.arr (xs.map write)) = some (xs.map back) := by
  rw [readAll, List.mapM_map]
  induction xs with
  | nil => rfl
  | cons x xs ih =>
    obtain ⟨first, rest⟩ := List.forall_mem_cons.mp each
    rw [List.mapM_cons, Function.comp_apply, first, ih rest]
    rfl

theorem Fresh.ofJson_json {f : Fresh} (fits : f.Fits) :
    Fresh.ofJson (f.json (F := F)) = some f := by
  have id := read64_json64 (F := F) fits.id
  have chars := read64_json64 (F := F) fits.chars
  have turn := read64_json64 (F := F) fits.turn
  simp [Fresh.ofJson, Fresh.json, isRecord, member, Llm.get, KeyedList.lookup, Llm.asStr, id, chars,
    turn]

theorem parseEntries_written (history : List (Speaker × String)) :
    parseEntries floats (history.map fun e => (e.1.text, e.2)) = history.map (reread floats) := by
  induction history with
  | nil => rfl
  | cons e history ih =>
    rw [List.map_cons, List.map_cons, ← ih]
    obtain ⟨who, said⟩ := e
    cases who <;> simp [parseEntries, Speaker.text, reread]

theorem Saved.ofJson_json {saved : Saved} (fits : saved.Fits) :
    Saved.ofJson floats saved.json =
      some { saved with history := saved.history.map (reread floats) } := by
  have rows : readAll readPair (.arr (saved.history.map fun e =>
      (.arr [.str e.1.text, .str e.2] : Json F))) =
      some (saved.history.map fun e => (e.1.text, e.2)) := readAll_map fun _ _ => rfl
  have fresh : readAll Fresh.ofJson (.arr (saved.fresh.map (Fresh.json (F := F)))) =
      some saved.fresh := by
    have each : ∀ f ∈ saved.fresh, Fresh.ofJson (f.json (F := F)) = some (id f) := fun f there =>
      Fresh.ofJson_json (fits.fresh f there)
    rw [readAll_map each, List.map_id]
  have turns := read64_json64 (F := F) fits.turns
  have nextId := read64_json64 (F := F) fits.nextId
  simp [Saved.ofJson, Saved.json, isRecord, member, Llm.get, KeyedList.lookup, rows, fresh,
    orDefault, turns, nextId, parseEntries_written]

/-- A saved conversation is texts and machine integers, no deeper than three. -/
theorem Saved.reread_json (saved : Saved) :
    (saved.json : Json F).reread floats Llm.RECURSION_LIMIT = some saved.json := by
  have valid : (saved.json : Json F).Valid := by
    simp [Saved.json, Fresh.json, json64, Json.valid_obj, Json.valid_arr]
    rintro _ who said - rfl
    simp [Json.valid_arr]
  have shallow : (saved.json : Json F).depth ≤ 3 := by
    simp [Saved.json, Fresh.json, json64, Json.depth_obj_le, Json.depth_arr_le]
    rintro _ who said - rfl
    simp [Json.depth_arr_le]
  have noFloats : ∀ x, x ∉ (saved.json : Json F).floats := by
    simp [Saved.json, Fresh.json, json64, Json.mem_floats_obj, Json.mem_floats_arr]
  refine (Json.reread_eq_self valid).mpr ⟨?_, fun x there => absurd there (noFloats x)⟩
  exact Nat.le_trans shallow (by decide)

/-- A conversation that is saved and loaded is what it was, with the marks of old calls gone. -/
theorem load_save {saved : Saved} (fits : saved.Fits) :
    loadHistory floats (some (saveHistory floats saved)) =
      ({ saved with history := saved.history.map (reread floats) }, 0) := by
  have parsed : Json.parse floats Llm.RECURSION_LIMIT (saveHistory floats saved).toList =
      some saved.json := by
    rw [saveHistory, String.toList_ofList, Json.parse_write, Saved.reread_json]
  simp only [loadHistory, Option.bind_some, parsed, Saved.ofJson_json fits]

end Agent

/-! ### Entry for entry -/

section Rows

variable {floats} {r : CalledRow F} {rows : List (CalledRow F)}

/-- The arguments of a call come back as they were written. -/
def ReadsBack (floats : Json.Floats F) (r : CalledRow F) : Prop :=
  r.args.depth ≤ 125 ∧ ∀ f ∈ r.args.floats, floats.read (floats.write f) = some f

theorem ReadsBack.back (readable : ReadsBack floats r) (valid : r.args.Valid) :
    r.back floats = some r := by
  rw [CalledRow.back, (Json.reread_eq_self valid).mpr readable]
  rfl

theorem calledRows_readable (readable : ∀ r ∈ rows, ReadsBack floats r)
    (valid : ∀ r ∈ rows, r.args.Valid) : calledRows floats (called floats rows) = some rows := by
  rw [Llm.calledRows_called, Json.mapM_eq_self]
  exact fun r there => (readable r there).back (valid r there)

theorem unmarked_valid (valid : r.args.Valid) : (unmarked r).args.Valid := leaveOut_valid valid

theorem unmarked_readable (readable : ReadsBack floats r) : ReadsBack floats (unmarked r) :=
  ⟨leaveOut_depth readable.1, fun f left => readable.2 f (leaveOut_floats left)⟩

theorem unmarked_eq_self : unmarked r = r ↔ ∀ s ∈ fieldTexts r.args, clipMarker s = none := by
  constructor
  · intro same s inside
    have args : (leaveOut clipMarker r.args).1 = r.args := congrArg CalledRow.args same
    refine (leaveOut_texts (v := r.args) ?_).2
    rwa [args]
  · intro clean
    simp only [unmarked, leaveOut_clean clean, if_true]

/-- A row without marks has none. -/
theorem unmarked_again : unmarked (unmarked r) = unmarked r :=
  unmarked_eq_self.mpr fun _ left => (leaveOut_texts left).2

end Rows

namespace Llm.Entry

variable {floats} {e : Entry F}

/-- An entry without the marks of old calls. -/
def unmarked : Entry F → Entry F
  | called rows valid => called (rows.map AkumaMiot.unmarked) fun r' there => by
      obtain ⟨r, member, rfl⟩ := List.mem_map.mp there
      exact unmarked_valid (valid r member)
  | e => e

theorem unmarked_rows : e.unmarked.rows = e.rows.map AkumaMiot.unmarked := by cases e <;> rfl

theorem unmarked_again : e.unmarked.unmarked = e.unmarked := by
  cases e with
  | called rows valid => simp [unmarked, AkumaMiot.unmarked_again]
  | _ => rfl

theorem reread_encoded (readable : ∀ r ∈ e.rows, ReadsBack floats r) :
    Agent.reread floats (e.encoded floats) = e.unmarked.encoded floats := by
  cases e with
  | called rows valid =>
    have back : calledRows floats (Llm.called floats rows) = some rows :=
      calledRows_readable readable valid
    simp only [Agent.reread, encoded, dropOldClipMarker, back, if_true, unmarked]
  | _ => rfl

/-- An entry stays as it is where no field of its calls is a mark. -/
theorem unmarked_encoded (readable : ∀ r ∈ e.rows, ReadsBack floats r) :
    e.unmarked.encoded floats = e.encoded floats ↔
      ∀ r ∈ e.rows, ∀ s ∈ fieldTexts r.args, clipMarker s = none := by
  cases e with
  | called rows valid =>
    have back : calledRows floats (Llm.called floats rows) = some rows :=
      calledRows_readable readable valid
    have after : calledRows floats (Llm.called floats (rows.map AkumaMiot.unmarked)) =
        some (rows.map AkumaMiot.unmarked) := by
      refine calledRows_readable ?_ ?_
      · intro r' there
        obtain ⟨r, member, rfl⟩ := List.mem_map.mp there
        exact unmarked_readable (readable r member)
      · intro r' there
        obtain ⟨r, member, rfl⟩ := List.mem_map.mp there
        exact unmarked_valid (valid r member)
    have texts : Llm.called floats (rows.map AkumaMiot.unmarked) = Llm.called floats rows ↔
        rows.map AkumaMiot.unmarked = rows := by
      constructor
      -- One text is read back as one list of rows.
      · intro same
        rw [same, back] at after
        exact (Option.some.inj after).symm
      · intro same
        rw [same]
    have each : rows.map AkumaMiot.unmarked = rows ↔ ∀ r ∈ rows, AkumaMiot.unmarked r = r := by
      simpa using List.map_inj_left (l := rows) (f := AkumaMiot.unmarked) (g := id)
    simp only [unmarked, encoded, Prod.mk.injEq, true_and, texts, each, unmarked_eq_self,
      Entry.rows]
  | _ => simp [unmarked, rows]

end Llm.Entry

namespace Agent

variable {floats}

/-- A conversation of any entries, saved and loaded again, is there entry for entry with all that
aging and numbering need; only the marks of old calls are gone from it, and those at once. -/
theorem conversation_kept (history : List (Llm.Entry F)) (saved : Saved) (fits : saved.Fits)
    (is : saved.history = history.map (Llm.Entry.encoded floats))
    (readable : ∀ e ∈ history, ∀ r ∈ e.rows, ReadsBack floats r) :
    let loaded := (loadHistory floats (some (saveHistory floats saved))).1
    loaded = { saved with
      history := (history.map Llm.Entry.unmarked).map (Llm.Entry.encoded floats) } ∧
    loadHistory floats (some (saveHistory floats loaded)) = (loaded, 0) ∧
    (loaded = saved ↔
      ∀ e ∈ history, ∀ r ∈ e.rows, ∀ s ∈ fieldTexts r.args, clipMarker s = none) := by
  have once : ∀ history : List (Llm.Entry F), (∀ e ∈ history, ∀ r ∈ e.rows, ReadsBack floats r) →
      (history.map (Llm.Entry.encoded floats)).map (reread floats) =
        (history.map Llm.Entry.unmarked).map (Llm.Entry.encoded floats) := by
    intro history readable
    rw [List.map_map, List.map_map]
    exact List.map_congr_left fun e there => Llm.Entry.reread_encoded (readable e there)
  have still : ∀ e ∈ history.map Llm.Entry.unmarked, ∀ r ∈ e.rows, ReadsBack floats r := by
    intro e' listed r' inside
    obtain ⟨e, there, rfl⟩ := List.mem_map.mp listed
    rw [Llm.Entry.unmarked_rows] at inside
    obtain ⟨r, member, rfl⟩ := List.mem_map.mp inside
    exact unmarked_readable (readable e there r member)
  obtain ⟨entries, fresh, turns, nextId⟩ := saved
  obtain rfl : entries = _ := is
  intro loaded
  have first : loaded = ⟨(history.map Llm.Entry.unmarked).map (Llm.Entry.encoded floats), fresh,
      turns, nextId⟩ := by
    rw [← once history readable]
    exact congrArg Prod.fst (load_save fits)
  refine ⟨first, ?_, ?_⟩
  · have fits' : loaded.Fits := by
      rw [first]
      exact ⟨fits.fresh, fits.turns, fits.nextId⟩
    have clean : (history.map Llm.Entry.unmarked).map Llm.Entry.unmarked =
        history.map Llm.Entry.unmarked := by
      rw [List.map_map]
      exact List.map_congr_left fun e _ => Llm.Entry.unmarked_again
    rw [load_save fits', first]
    simp only [once _ still, clean]
  · rw [first, Saved.mk.injEq, List.map_map, List.map_inj_left]
    simp only [and_true]
    exact forall₂_congr fun e there => Llm.Entry.unmarked_encoded (readable e there)

/-- A file that was written while the body of a call stood as a note of its length. -/
def marked : List (Llm.Entry Json.FloatText) :=
  [.user "write it",
    .called [⟨"WriteFile", .obj [("path", .str "hda.rs"),
      ("content", .str "<5000 characters were sent here.>")], CALLED_ACK⟩] (by
        simp [Json.valid_obj])]

theorem marked_readable : ∀ e ∈ marked, ∀ r ∈ e.rows, ReadsBack .asText r := by
  simp [marked, Llm.Entry.rows, ReadsBack, Json.depth_obj_le, Json.mem_floats_obj]

def markedSaved : Saved :=
  ⟨marked.map (Llm.Entry.encoded .asText), [⟨6, "Bash", "$ make", 900, 2, "ok"⟩], 3, 7⟩

theorem markedSaved_fits : markedSaved.Fits where
  fresh f there := by
    rw [List.mem_singleton.mp there]
    exact ⟨by decide, by decide, by decide⟩
  turns := by decide
  nextId := by decide

theorem conversation_kept_marked :
    let loaded := (loadHistory .asText (some (saveHistory .asText markedSaved))).1
    loaded.fresh = markedSaved.fresh ∧ loaded.nextId = 7 ∧ loaded ≠ markedSaved ∧
      loadHistory .asText (some (saveHistory .asText loaded)) = (loaded, 0) := by
  have kept := conversation_kept marked markedSaved markedSaved_fits rfl marked_readable
  generalize (loadHistory .asText (some (saveHistory .asText markedSaved))).1 = loaded at kept
  obtain ⟨same, again, unchanged⟩ := kept
  have fresh : loaded.fresh = markedSaved.fresh := by rw [same]
  have nextId : loaded.nextId = 7 := by rw [same]; rfl
  refine ⟨fresh, nextId, fun eq => ?_, again⟩
  have mark : clipMarker "<5000 characters were sent here.>" = none :=
    unchanged.mp eq _ (List.mem_cons_of_mem _ List.mem_cons_self) _ List.mem_cons_self
      "<5000 characters were sent here.>" (mem_fieldTexts_obj.mpr
        ⟨_, List.mem_cons_of_mem _ List.mem_cons_self, .inl rfl⟩)
  exact absurd mark (by decide +kernel)

end Agent

end AkumaMiot

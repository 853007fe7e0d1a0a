import AkumaMiot.Agent.Loop
import AkumaMiot.Lib.Json
import Mathlib.Algebra.Order.BigOperators.Group.List
import Mathlib.Algebra.Order.Group.Nat

/-!
# What a provider is sent

The conversation as the messages of one request. The calls a model made are kept as JSON text
among the other entries, and become an assistant message with its calls and one answer to each.
A provider refuses a request with a call that is not answered at once, and an answer to no call.
-/
namespace AkumaMiot.Llm

variable {F : Type}

/-! ## Calls as an entry of the history -/

/-- One call as a `called` entry keeps it. -/
structure CalledRow (F : Type) where
  name : String
  args : Json F
  /-- What the message that answers it says. -/
  ack : String

namespace CalledRow

def json (r : CalledRow F) : Json F :=
  .obj [("name", .str r.name), ("args", r.args), ("ack", .str r.ack)]

end CalledRow

/-- `serde_json` gives up at arrays and objects 128 deep. -/
def RECURSION_LIMIT : Nat := 127

variable (floats : Json.Floats F)

/-- A `called` entry for these calls. -/
def called (rows : List (CalledRow F)) : String :=
  String.ofList ((Json.arr (rows.map CalledRow.json)).write floats)

/-- `Value::get`. -/
def get (key : String) : Json F → Option (Json F)
  | .obj fields => (KeyedList.lookup Prod.fst key fields).map Prod.snd
  | _ => none

def asStr : Json F → Option String
  | .str s => some s
  | _ => none

def calledRow (r : Json F) : Option (CalledRow F) := do
  let name ← get "name" r
  let name ← asStr name
  return {
    name
    args := (get "args" r).getD .null
    ack := ((get "ack" r).bind asStr).getD "" }

/-- `called` read back. -/
def calledRows (text : String) : Option (List (CalledRow F)) :=
  match Json.parse floats RECURSION_LIMIT text.toList with
  | some (.arr rows) => rows.mapM calledRow
  | _ => none

/-! ## Messages -/

structure ToolCall (F : Type) where
  callId : String
  fnName : String
  fnArguments : Json F

structure ToolResponse where
  callId : String
  content : String

inductive ContentPart (F : Type)
  | text (said : String)
  | toolCall (call : ToolCall F)
  | toolResponse (response : ToolResponse)

inductive ChatRole
  | system | user | assistant | tool
deriving DecidableEq

structure ChatMessage (F : Type) where
  role : ChatRole
  parts : List (ContentPart F)

namespace ChatMessage

def ofText (role : ChatRole) (said : String) : ChatMessage F := ⟨role, [.text said]⟩

def ofResponse (response : ToolResponse) : ChatMessage F := ⟨.tool, [.toolResponse response]⟩

def firstText (m : ChatMessage F) : Option String :=
  m.parts.findSome? fun
    | .text said => some said
    | _ => none

end ChatMessage

/-- Ids only have to pair a call with its ack inside this request. -/
def callId (i j : Nat) : String := s!"call_{i}_{j}"

def toolCalls (i : Nat) (rows : List (CalledRow F)) : List (ToolCall F) :=
  rows.mapIdx fun j r => ⟨callId i j, r.name, r.args⟩

/-- The calls of history entry `i`, with the text of the entry `before` it if that is one the
assistant said. -/
def pushCalls (i : Nat) (before : Option Speaker) (rows : List (CalledRow F))
    (messages : List (ChatMessage F)) : List (ChatMessage F) :=
  let calls := toolCalls i rows
  let merges := before = some .assistant ∧ messages.getLast?.any (·.role = .assistant)
  let said := if merges then messages.getLast?.bind ChatMessage.firstText else none
  let messages := if merges then messages.dropLast else messages
  messages ++ ⟨.assistant, said.toList.map .text ++ calls.map .toolCall⟩ ::
    (calls.zip rows).map fun (c, r) => .ofResponse ⟨c.callId, r.ack⟩

def pushEntry (i : Nat) (before : Option Speaker) (who : Speaker) (text : String)
    (messages : List (ChatMessage F)) : List (ChatMessage F) :=
  match who with
  | .user => messages ++ [.ofText .user text]
  | .assistant => messages ++ [.ofText .assistant text]
  | .called =>
    match calledRows floats text with
    | none => messages
    | some rows => if rows = [] then messages else pushCalls i before rows messages

/-- The history from entry `i` on. `before` is who the entry in front of that is from. -/
def pushEntries (i : Nat) (before : Option Speaker) :
    List (Speaker × String) → List (ChatMessage F) → List (ChatMessage F)
  | [], messages => messages
  | (who, text) :: history, messages =>
    pushEntries (i + 1) (some who) history (pushEntry floats i before who text messages)

/-- `history` as the messages a provider is sent. -/
def toMessages (system : String) (history : List (Speaker × String)) : List (ChatMessage F) :=
  pushEntries floats 0 none history [.ofText .system system]

/-! ## Reading the calls back -/

variable {floats}

theorem calledRow_json (r : CalledRow F) : calledRow r.json = some r := rfl

/-- A row stands inside an array and an object of its own. -/
theorem reread_json (r : CalledRow F) :
    r.json.reread floats 126 =
      (r.args.reread floats 125).map fun args => CalledRow.json { r with args } := by
  have name : (Json.str r.name).reread floats 125 = some (.str r.name) := rfl
  have ack : (Json.str r.ack).reread floats 125 = some (.str r.ack) := rfl
  rw [CalledRow.json, Json.reread_obj]
  simp only [List.mapM_cons, List.mapM_nil, name, ack, Option.map_some]
  cases r.args.reread floats 125 <;> rfl

/-- What reading makes of a row. -/
def CalledRow.back (floats : Json.Floats F) (r : CalledRow F) : Option (CalledRow F) :=
  (r.args.reread floats 125).map fun args => { r with args }

theorem calledRows_called (rows : List (CalledRow F)) :
    calledRows floats (called floats rows) = rows.mapM (CalledRow.back floats) := by
  have each : ∀ rows : List (CalledRow F),
      ((rows.map CalledRow.json).mapM (Json.reread floats 126)).bind
        (fun vs => vs.mapM calledRow) = rows.mapM (CalledRow.back floats) := by
    intro rows
    induction rows with
    | nil => rfl
    | cons r rows ih =>
      rw [List.map_cons, List.mapM_cons, List.mapM_cons, ← ih, reread_json, CalledRow.back]
      cases r.args.reread floats 125 with
      | none => rfl
      | some args =>
        cases (rows.map CalledRow.json).mapM (Json.reread floats 126) with
        | none => rfl
        | some vs =>
          simp [List.mapM_cons, calledRow_json]
  rw [calledRows, called, String.toList_ofList, Json.parse_write, ← each rows]
  have outer : (Json.arr (rows.map CalledRow.json)).reread floats RECURSION_LIMIT =
      ((rows.map CalledRow.json).mapM (Json.reread floats 126)).map .arr :=
    Json.reread_arr 126 _
  rw [outer]
  cases (rows.map CalledRow.json).mapM (Json.reread floats 126) <;> rfl

/-! ## The ids of the calls -/

theorem callId_toList (i j : Nat) : (callId i j).toList =
    "call_".toList ++ (Nat.toDigits 10 i ++ '_' :: Nat.toDigits 10 j) := by
  have text : callId i j = "call_" ++ Nat.repr i ++ "_" ++ Nat.repr j := rfl
  have bar : "_".toList = ['_'] := rfl
  simp [text, String.toList_append, Nat.toList_repr, bar]

theorem callId_inj {i j i' j' : Nat} (same : callId i j = callId i' j') : i = i' ∧ j = j' := by
  have chars := congrArg String.toList same
  rw [callId_toList, callId_toList, List.append_cancel_left_eq] at chars
  -- The index of the entry ends at the bar.
  have plain : ∀ k, ∀ c ∈ Nat.toDigits 10 k, (c != '_') = true := by
    intro k c member
    have digit := Json.isDigit_of_mem member
    rw [bne_iff_ne]
    rintro rfl
    exact absurd digit (by decide)
  have front := congrArg (List.takeWhile (· != '_')) chars
  rw [List.takeWhile_append_of_pos (plain i), List.takeWhile_append_of_pos (plain i'),
    List.takeWhile_cons_of_neg (by decide), List.takeWhile_cons_of_neg (by decide),
    List.append_nil, List.append_nil] at front
  rw [front] at chars
  have behind : Nat.toDigits 10 j = Nat.toDigits 10 j' := by simpa using chars
  exact ⟨Numerals.toDigits_inj (by decide) (by decide) front,
    Numerals.toDigits_inj (by decide) (by decide) behind⟩

/-! ## A request -/

namespace ContentPart

def said? : ContentPart F → Option String
  | text said => some said
  | _ => none

def call? : ContentPart F → Option (ToolCall F)
  | toolCall call => some call
  | _ => none

def response? : ContentPart F → Option ToolResponse
  | toolResponse response => some response
  | _ => none

end ContentPart

namespace ChatMessage

/-- The texts of a message, with whose they are. -/
def said (m : ChatMessage F) : List (ChatRole × String) :=
  (m.parts.filterMap ContentPart.said?).map fun text => (m.role, text)

def calls (m : ChatMessage F) : List (ToolCall F) := m.parts.filterMap ContentPart.call?

def responses (m : ChatMessage F) : List ToolResponse := m.parts.filterMap ContentPart.response?

end ChatMessage

/-- Every assistant message with calls is followed at once by one answer to each, in their order,
and there is no other answer. -/
inductive Answered : List (ChatMessage F) → Prop
  | nil : Answered []
  | plain {m : ChatMessage F} {rest : List (ChatMessage F)} (noCalls : m.calls = [])
      (noResponses : m.responses = []) (behind : Answered rest) : Answered (m :: rest)
  | calls {m : ChatMessage F} {rest : List (ChatMessage F)} (acks : List String)
      (assistant : m.role = .assistant) (noResponses : m.responses = [])
      (each : acks.length = m.calls.length) (behind : Answered rest) :
      Answered (m :: (m.calls.zip acks).map (fun (c, ack) => .ofResponse ⟨c.callId, ack⟩) ++ rest)

/-- An entry of a history. An argument is a value of `serde_json`, whose objects are maps. -/
inductive Entry (F : Type)
  | user (text : String)
  | assistant (text : String)
  | called (rows : List (CalledRow F)) (valid : ∀ r ∈ rows, r.args.Valid)

namespace Entry

def rows : Entry F → List (CalledRow F)
  | called rows _ => rows
  | _ => []

def said : Entry F → List (ChatRole × String)
  | user text => [(.user, text)]
  | assistant text => [(.assistant, text)]
  | called .. => []

/-- The entry as it stands in the history. -/
def encoded (floats : Json.Floats F) : Entry F → Speaker × String
  | user text => (.user, text)
  | assistant text => (.assistant, text)
  | called rows _ => (.called, Llm.called floats rows)

/-- The rows of an entry that come back from its text. -/
def kept (floats : Json.Floats F) : Entry F → List (CalledRow F)
  | called rows _ => (rows.mapM (CalledRow.back floats)).getD []
  | _ => []

end Entry

/-- A request that a provider takes and that has everything of the history. -/
structure WellFormed (system : String) (history : List (Entry F))
    (messages : List (ChatMessage F)) : Prop where
  answered : Answered messages
  distinct : ((messages.flatMap ChatMessage.calls).map ToolCall.callId).Nodup
  called : (messages.flatMap ChatMessage.calls).map (fun c => (c.fnName, c.fnArguments)) =
    (history.flatMap Entry.rows).map fun r => (r.name, r.args)
  acked : (messages.flatMap ChatMessage.responses).map ToolResponse.content =
    (history.flatMap Entry.rows).map CalledRow.ack
  said : messages.flatMap ChatMessage.said = (.system, system) :: history.flatMap Entry.said

/-! ### The messages of one entry -/

theorem Answered.append {xs ys : List (ChatMessage F)} (first : Answered xs) (next : Answered ys) :
    Answered (xs ++ ys) := by
  induction first with
  | nil => exact next
  | plain noCalls noResponses _ ih => exact .plain noCalls noResponses ih
  | calls acks assistant noResponses each _ ih =>
    rw [List.append_assoc]
    exact .calls acks assistant noResponses each ih

theorem answered_ofText (role : ChatRole) (text : String) :
    Answered [ChatMessage.ofText (F := F) role text] :=
  .plain rfl rfl .nil

/-- The calls of an entry behind what was said before them, and their answers. -/
def block (i : Nat) (said : Option String) (rows : List (CalledRow F)) : List (ChatMessage F) :=
  ⟨.assistant, said.toList.map .text ++ (toolCalls i rows).map .toolCall⟩ ::
    ((toolCalls i rows).zip rows).map fun (c, r) => .ofResponse ⟨c.callId, r.ack⟩

section Block

variable (i : Nat) (said : Option String) (rows : List (CalledRow F))

theorem length_toolCalls : (toolCalls i rows).length = rows.length := List.length_mapIdx

theorem toolCalls_called :
    (toolCalls i rows).map (fun c => (c.fnName, c.fnArguments)) =
      rows.map fun r => (r.name, r.args) := by
  apply List.ext_getElem (by simp [toolCalls])
  intro j _ _
  simp [toolCalls]

theorem callId_of_mem {i : Nat} {rows : List (CalledRow F)} {c : ToolCall F}
    (member : c ∈ toolCalls i rows) : ∃ j, c.callId = callId i j := by
  obtain ⟨j, _, rfl⟩ := List.mem_mapIdx.mp member
  exact ⟨j, rfl⟩

theorem toolCalls_distinct : ((toolCalls i rows).map ToolCall.callId).Nodup := by
  rw [List.Nodup, List.pairwise_iff_getElem]
  intro a b _ _ less same
  have ids : callId i a = callId i b := by simpa [toolCalls] using same
  have := (callId_inj ids).2
  omega

/-- The message the calls stand in. -/
theorem head_calls (i : Nat) (said : Option String) (rows : List (CalledRow F)) :
    let m : ChatMessage F :=
      ⟨.assistant, said.toList.map .text ++ (toolCalls i rows).map .toolCall⟩
    m.calls = toolCalls i rows ∧ m.responses = [] ∧
      m.said = said.toList.map fun text => (.assistant, text) := by
  have texts : ∀ {γ : Type} (pick : ContentPart F → Option γ), (∀ c, pick (.toolCall c) = none) →
      ((toolCalls i rows).map ContentPart.toolCall).filterMap pick = [] := by
    intro γ pick skips
    rw [List.filterMap_map]
    exact List.filterMap_eq_nil_iff.mpr fun c _ => skips c
  have calls : ((toolCalls i rows).map ContentPart.toolCall).filterMap ContentPart.call? =
      toolCalls i rows := by
    rw [List.filterMap_map]
    exact List.filterMap_some
  cases said with
  | none =>
    exact ⟨calls, texts _ fun _ => rfl,
      congrArg (List.map _) (texts ContentPart.said? fun _ => rfl)⟩
  | some text =>
    refine ⟨calls, texts _ fun _ => rfl, ?_⟩
    exact congrArg (fun ts => ((ChatRole.assistant, text) :: ts.map fun t => (.assistant, t)))
      (texts ContentPart.said? fun _ => rfl)

theorem answered_block : Answered (block i said rows) := by
  obtain ⟨calls, responses, -⟩ := head_calls i said rows
  have each : (rows.map CalledRow.ack).length = (ChatMessage.calls
      ⟨.assistant, said.toList.map .text ++ (toolCalls i rows).map .toolCall⟩).length := by
    rw [calls, length_toolCalls, List.length_map]
  have whole := Answered.calls (rows.map CalledRow.ack) rfl responses each .nil
  rw [calls, List.append_nil, List.zip_map_right, List.map_map] at whole
  exact whole

theorem block_calls : (block i said rows).flatMap ChatMessage.calls = toolCalls i rows := by
  have none_ : ((toolCalls i rows).zip rows).flatMap
      (fun p => (ChatMessage.ofResponse (F := F) ⟨p.1.callId, p.2.ack⟩).calls) = [] :=
    List.flatMap_eq_nil_iff.mpr fun _ _ => rfl
  rw [block, List.flatMap_cons, (head_calls i said rows).1, List.flatMap_map]
  exact (congrArg (toolCalls i rows ++ ·) none_).trans (List.append_nil _)

theorem block_acks : ((block i said rows).flatMap ChatMessage.responses).map ToolResponse.content =
    rows.map CalledRow.ack := by
  have one : ((toolCalls i rows).zip rows).flatMap
      (fun p => (ChatMessage.ofResponse (F := F) ⟨p.1.callId, p.2.ack⟩).responses) =
      ((toolCalls i rows).zip rows).map fun p => ⟨p.1.callId, p.2.ack⟩ := by
    exact List.flatMap_pure_eq_map _ _
  rw [block, List.flatMap_cons, (head_calls i said rows).2.1, List.nil_append, List.flatMap_map]
  refine (congrArg (List.map ToolResponse.content) one).trans ?_
  rw [List.map_map]
  have snd : ((toolCalls i rows).zip rows).map Prod.snd = rows :=
    List.map_snd_zip (length_toolCalls i rows).ge
  conv_rhs => rw [← snd, List.map_map]
  rfl

theorem block_said : (block i said rows).flatMap ChatMessage.said =
    said.toList.map fun text => (.assistant, text) := by
  have none_ : ((toolCalls i rows).zip rows).flatMap
      (fun p => (ChatMessage.ofResponse (F := F) ⟨p.1.callId, p.2.ack⟩).said) = [] :=
    List.flatMap_eq_nil_iff.mpr fun _ _ => rfl
  rw [block, List.flatMap_cons, (head_calls i said rows).2.2, List.flatMap_map]
  exact (congrArg (_ ++ ·) none_).trans (List.append_nil _)

end Block

/-! ### The whole history -/

/-- What holds of the messages for the entries so far. `before` is who the last one is from. -/
structure Sent (floats : Json.Floats F) (system : String) (i : Nat) (before : Option Speaker)
    (done : List (Entry F)) (messages : List (ChatMessage F)) : Prop where
  answered : Answered messages
  /-- What the assistant said last can be taken back. -/
  last : before = some .assistant →
    ∃ front text, messages = front ++ [.ofText .assistant text] ∧ Answered front
  earlier : ∀ c ∈ messages.flatMap ChatMessage.calls, ∃ k j, k < i ∧ c.callId = callId k j
  distinct : ((messages.flatMap ChatMessage.calls).map ToolCall.callId).Nodup
  called : (messages.flatMap ChatMessage.calls).map (fun c => (c.fnName, c.fnArguments)) =
    (done.flatMap (Entry.kept floats)).map fun r => (r.name, r.args)
  acked : (messages.flatMap ChatMessage.responses).map ToolResponse.content =
    (done.flatMap (Entry.kept floats)).map CalledRow.ack
  said : messages.flatMap ChatMessage.said = (.system, system) :: done.flatMap Entry.said

variable {system : String} {i : Nat} {before : Option Speaker} {done : List (Entry F)}
  {messages : List (ChatMessage F)}

/-- The calls go behind all that was there, or take the place of the last text and say it too. -/
theorem Sent.pushCalls_eq (sent : Sent floats system i before done messages)
    (rows : List (CalledRow F)) :
    ∃ front said, pushCalls i before rows messages = front ++ block i said rows ∧
      Answered front ∧
      front.flatMap ChatMessage.calls = messages.flatMap ChatMessage.calls ∧
      front.flatMap ChatMessage.responses = messages.flatMap ChatMessage.responses ∧
      front.flatMap ChatMessage.said ++ said.toList.map (fun text => (.assistant, text)) =
        messages.flatMap ChatMessage.said := by
  by_cases spoke : before = some .assistant
  · obtain ⟨front, text, rfl, answered⟩ := sent.last spoke
    refine ⟨front, some text, ?_, answered, ?_, ?_, ?_⟩
    · have first : (ChatMessage.ofText (F := F) .assistant text).firstText = some text := rfl
      have role : (ChatMessage.ofText (F := F) .assistant text).role = .assistant := rfl
      simp [pushCalls, spoke, role, first, block]
    · exact (List.flatMap_append.trans (List.append_nil _)).symm
    · exact (List.flatMap_append.trans (List.append_nil _)).symm
    · rw [List.flatMap_append]
      rfl
  · refine ⟨messages, none, ?_, sent.answered, rfl, rfl, List.append_nil _⟩
    simp [pushCalls, spoke, block]

theorem Sent.text (sent : Sent floats system i before done messages) {e : Entry F} {who : Speaker}
    {role : ChatRole} {text : String} (empty : e.kept floats = [])
    (spoken : e.said = [(role, text)]) (same : who = .assistant → role = .assistant) :
    Sent floats system (i + 1) (some who) (done ++ [e]) (messages ++ [.ofText role text]) := by
  have calls : (messages ++ [ChatMessage.ofText (F := F) role text]).flatMap ChatMessage.calls =
      messages.flatMap ChatMessage.calls :=
    List.flatMap_append.trans (List.append_nil _)
  have responses : (messages ++ [ChatMessage.ofText (F := F) role text]).flatMap
      ChatMessage.responses = messages.flatMap ChatMessage.responses :=
    List.flatMap_append.trans (List.append_nil _)
  have kept : (done ++ [e]).flatMap (Entry.kept floats) = done.flatMap (Entry.kept floats) := by
    simp [empty]
  refine ⟨sent.answered.append (answered_ofText role text), ?_, ?_, ?_, ?_, ?_, ?_⟩
  · intro who_
    obtain rfl := same (Option.some.inj who_)
    exact ⟨messages, text, rfl, sent.answered⟩
  · rw [calls]
    intro c member
    obtain ⟨k, j, less, id⟩ := sent.earlier c member
    exact ⟨k, j, by omega, id⟩
  · rw [calls]
    exact sent.distinct
  · rw [calls, kept]
    exact sent.called
  · rw [responses, kept]
    exact sent.acked
  · have behind : [ChatMessage.ofText (F := F) role text].flatMap ChatMessage.said =
        [(role, text)] := rfl
    rw [List.flatMap_append, sent.said, behind, List.flatMap_append, List.flatMap_singleton, spoken]
    rfl

/-- An entry that leaves nothing behind. -/
theorem Sent.skip (sent : Sent floats system i before done messages) {e : Entry F}
    (empty : e.kept floats = []) (silent : e.said = []) :
    Sent floats system (i + 1) (some .called) (done ++ [e]) messages := by
  have kept : (done ++ [e]).flatMap (Entry.kept floats) = done.flatMap (Entry.kept floats) := by
    simp [empty]
  have said : (done ++ [e]).flatMap Entry.said = done.flatMap Entry.said := by simp [silent]
  refine ⟨sent.answered, fun called => (by cases called), ?_, sent.distinct, ?_, ?_, ?_⟩
  · intro c member
    obtain ⟨k, j, less, id⟩ := sent.earlier c member
    exact ⟨k, j, by omega, id⟩
  · rw [kept]
    exact sent.called
  · rw [kept]
    exact sent.acked
  · rw [said]
    exact sent.said

theorem Sent.calls (sent : Sent floats system i before done messages) {e : Entry F}
    {rows : List (CalledRow F)} (kept : e.kept floats = rows) (silent : e.said = []) :
    Sent floats system (i + 1) (some .called) (done ++ [e]) (pushCalls i before rows messages) := by
  obtain ⟨front, said, shape, answered, calls, responses, texts⟩ := sent.pushCalls_eq rows
  have all : (done ++ [e]).flatMap (Entry.kept floats) =
      done.flatMap (Entry.kept floats) ++ rows := by simp [kept]
  have spoken : (done ++ [e]).flatMap Entry.said = done.flatMap Entry.said := by simp [silent]
  rw [shape]
  refine ⟨answered.append (answered_block i said rows), fun called => (by cases called),
    ?_, ?_, ?_, ?_, ?_⟩
  · intro c member
    rw [List.flatMap_append, calls, block_calls, List.mem_append] at member
    rcases member with old | new
    · obtain ⟨k, j, less, id⟩ := sent.earlier c old
      exact ⟨k, j, by omega, id⟩
    · obtain ⟨j, id⟩ := callId_of_mem new
      exact ⟨i, j, by omega, id⟩
  · rw [List.flatMap_append, calls, block_calls, List.map_append, List.nodup_append]
    refine ⟨sent.distinct, toolCalls_distinct i rows, ?_⟩
    intro id old id' new same
    obtain ⟨c, member, rfl⟩ := List.mem_map.mp old
    obtain ⟨c', member', rfl⟩ := List.mem_map.mp new
    -- The index of the entry tells its ids from those before.
    obtain ⟨k, j, less, first⟩ := sent.earlier c member
    obtain ⟨j', second⟩ := callId_of_mem member'
    rw [first, second] at same
    have same := (callId_inj same).1
    omega
  · rw [List.flatMap_append, calls, block_calls, List.map_append, sent.called, toolCalls_called,
      all, List.map_append]
  · rw [List.flatMap_append, responses, List.map_append, sent.acked, block_acks, all,
      List.map_append]
  · rw [List.flatMap_append, block_said, texts, spoken]
    exact sent.said

theorem sent_pushEntry (sent : Sent floats system i before done messages) (e : Entry F) :
    Sent floats system (i + 1) (some (e.encoded floats).1) (done ++ [e])
      (pushEntry floats i before (e.encoded floats).1 (e.encoded floats).2 messages) := by
  cases e with
  | user text => exact sent.text rfl rfl fun who => by cases who
  | assistant text => exact sent.text rfl rfl fun _ => rfl
  | called rows valid =>
    have back : calledRows floats (called floats rows) = rows.mapM (CalledRow.back floats) :=
      calledRows_called rows
    simp only [Entry.encoded, pushEntry, back]
    cases read : rows.mapM (CalledRow.back floats) with
    | none => exact sent.skip (by simp [Entry.kept, read]) rfl
    | some kept =>
      show Sent _ _ _ _ _ (if kept = [] then messages else pushCalls i before kept messages)
      split
      next nothing => exact sent.skip (by simp [Entry.kept, read, nothing]) rfl
      · exact sent.calls (by simp [Entry.kept, read]) rfl

theorem sent_pushEntries {history : List (Entry F)}
    (sent : Sent floats system i before done messages) :
    ∃ n last, Sent floats system n last (done ++ history)
      (pushEntries floats i before (history.map (Entry.encoded floats)) messages) := by
  induction history generalizing i before done messages with
  | nil => exact ⟨i, before, by simpa [pushEntries] using sent⟩
  | cons e history ih =>
    obtain ⟨n, last, rest⟩ := ih (sent_pushEntry sent e)
    refine ⟨n, last, ?_⟩
    rw [List.append_assoc, List.singleton_append] at rest
    exact rest

theorem sent_toMessages (floats : Json.Floats F) (system : String) (history : List (Entry F)) :
    ∃ n last, Sent floats system n last history
      (toMessages floats system (history.map (Entry.encoded floats))) := by
  have first : Sent floats system 0 none [] [.ofText .system system] :=
    ⟨answered_ofText .system system, fun none_ => (by cases none_),
      fun c member => (by cases member), List.nodup_nil, rfl, rfl, rfl⟩
  exact sent_pushEntries first

/-- Whatever the history, calls and answers are paired and what was said is there. -/
theorem request_answered (floats : Json.Floats F) (system : String) (history : List (Entry F)) :
    let messages := toMessages floats system (history.map (Entry.encoded floats))
    Answered messages ∧ ((messages.flatMap ChatMessage.calls).map ToolCall.callId).Nodup ∧
      messages.flatMap ChatMessage.said = (.system, system) :: history.flatMap Entry.said := by
  obtain ⟨_, _, sent⟩ := sent_toMessages floats system history
  exact ⟨sent.answered, sent.distinct, sent.said⟩

/-! ## Which calls come back -/

/-- Lists that are no longer than others, and as many together, are those. -/
theorem flatMap_eq_iff {α β : Type} {f g : α → List β} {xs : List α}
    (short : ∀ x ∈ xs, (f x).length ≤ (g x).length) :
    xs.flatMap f = xs.flatMap g ↔ ∀ x ∈ xs, f x = g x := by
  induction xs with
  | nil => simp
  | cons x xs ih =>
    have shorts := fun y member => short y (List.mem_cons_of_mem x member)
    have total : (xs.flatMap f).length ≤ (xs.flatMap g).length := by
      rw [List.length_flatMap, List.length_flatMap]
      exact List.sum_le_sum shorts
    have here := short x List.mem_cons_self
    rw [List.flatMap_cons, List.flatMap_cons, List.forall_mem_cons, ← ih shorts]
    constructor
    · intro same
      have lengths := congrArg List.length same
      rw [List.length_append, List.length_append] at lengths
      exact List.append_inj same (by omega)
    · rintro ⟨first, rest⟩
      rw [first, rest]

/-- What is kept of rows for the provider to see. -/
def shown (r : CalledRow F) : String × Json F := (r.name, r.args)

theorem back_eq_self {r : CalledRow F} :
    r.back floats = some r ↔ r.args.reread floats 125 = some r.args := by
  rw [CalledRow.back, Option.map_eq_some_iff]
  constructor
  · rintro ⟨args, read, same⟩
    rw [read, ← same]
  · exact fun read => ⟨r.args, read, rfl⟩

theorem back_shown {r k : CalledRow F} (back : r.back floats = some k) (same : shown k = shown r) :
    r.args.reread floats 125 = some r.args := by
  obtain ⟨args, read, rfl⟩ := Option.map_eq_some_iff.mp back
  have kept : args = r.args := congrArg Prod.snd same
  rw [read, kept]

theorem length_kept (e : Entry F) : (e.kept floats).length ≤ e.rows.length := by
  cases e with
  | user text => exact Nat.le_refl 0
  | assistant text => exact Nat.le_refl 0
  | called rows valid =>
    have each : ∀ {rows ks : List (CalledRow F)}, rows.mapM (CalledRow.back floats) = some ks →
        ks.length = rows.length := by
      intro rows
      induction rows with
      | nil =>
        rintro ks ⟨⟩
        rfl
      | cons r rows ih =>
        intro ks read
        simp only [List.mapM_cons, Option.bind_eq_bind, Option.bind_eq_some_iff,
          Option.pure_def, Option.some.injEq] at read
        obtain ⟨k, _, ks, rest, rfl⟩ := read
        rw [List.length_cons, List.length_cons, ih rest]
    rw [Entry.kept]
    cases read : rows.mapM (CalledRow.back floats) with
    | none => exact Nat.zero_le _
    | some ks => exact (each read).le

/-- An entry's rows are all there if each comes back. -/
theorem kept_shown (e : Entry F) :
    (e.kept floats).map shown = e.rows.map shown ↔
      ∀ r ∈ e.rows, r.args.reread floats 125 = some r.args := by
  cases e with
  | user text => simp [Entry.kept, Entry.rows]
  | assistant text => simp [Entry.kept, Entry.rows]
  | called rows valid =>
    have each : ∀ {rows ks : List (CalledRow F)}, rows.mapM (CalledRow.back floats) = some ks →
        ks.map shown = rows.map shown → ∀ r ∈ rows, r.args.reread floats 125 = some r.args := by
      intro rows
      induction rows with
      | nil => simp
      | cons r rows ih =>
        intro ks read same
        simp only [List.mapM_cons, Option.bind_eq_bind, Option.bind_eq_some_iff,
          Option.pure_def, Option.some.injEq] at read
        obtain ⟨k, back, ks, rest, rfl⟩ := read
        rw [List.map_cons, List.map_cons, List.cons.injEq] at same
        exact List.forall_mem_cons.mpr ⟨back_shown back same.1, ih rest same.2⟩
    rw [Entry.kept, Entry.rows]
    constructor
    · intro same
      cases read : rows.mapM (CalledRow.back floats) with
      | none =>
        -- Nothing is there of an entry that cannot be read.
        obtain rfl : rows = [] := by simpa [read] using same.symm
        simp
      | some ks =>
        rw [read] at same
        exact each read same
    · intro all
      have read : rows.mapM (CalledRow.back floats) = some rows :=
        Json.mapM_eq_self.mpr fun r member => back_eq_self.mpr (all r member)
      rw [read]
      rfl

theorem history_shown (history : List (Entry F)) :
    (history.flatMap (Entry.kept floats)).map shown = (history.flatMap Entry.rows).map shown ↔
      ∀ r ∈ history.flatMap Entry.rows, r.args.reread floats 125 = some r.args := by
  rw [List.map_flatMap, List.map_flatMap, flatMap_eq_iff]
  · simp only [kept_shown, List.mem_flatMap]
    constructor
    · rintro each r ⟨e, member, row⟩
      exact each e member r row
    · exact fun each e member r row => each r ⟨e, member, row⟩
  · intro e _
    rw [List.length_map, List.length_map]
    exact length_kept e

theorem valid_of_mem {history : List (Entry F)} {r : CalledRow F}
    (member : r ∈ history.flatMap Entry.rows) : r.args.Valid := by
  obtain ⟨e, _, row⟩ := List.mem_flatMap.mp member
  cases e with
  | user text => cases row
  | assistant text => cases row
  | called rows valid => exact valid r row

theorem wellFormed_iff (floats : Json.Floats F) (system : String) (history : List (Entry F)) :
    WellFormed system history (toMessages floats system (history.map (Entry.encoded floats))) ↔
      ∀ r ∈ history.flatMap Entry.rows, r.args.reread floats 125 = some r.args := by
  obtain ⟨_, _, sent⟩ := sent_toMessages floats system history
  rw [← history_shown]
  constructor
  · exact fun wellFormed => sent.called.symm.trans wellFormed.called
  · intro same
    have all := history_shown history |>.mp same
    -- A row that comes back has its ack too.
    have kept : history.flatMap (Entry.kept floats) = history.flatMap Entry.rows := by
      refine (flatMap_eq_iff fun e _ => length_kept e).mpr fun e member => ?_
      cases e with
      | user text => rfl
      | assistant text => rfl
      | called rows valid =>
        have read : rows.mapM (CalledRow.back floats) = some rows :=
          Json.mapM_eq_self.mpr fun r row =>
            back_eq_self.mpr (all r (List.mem_flatMap.mpr ⟨_, member, row⟩))
        rw [Entry.kept, read]
        rfl
    exact ⟨sent.answered, sent.distinct, sent.called.trans same, kept ▸ sent.acked, sent.said⟩

/-- A request has everything of the history if no call's arguments are nested too deep to be read
back out of their entry, and every float in them is read back as it was. -/
theorem request_wellFormed (floats : Json.Floats F) (system : String) (history : List (Entry F)) :
    WellFormed system history (toMessages floats system (history.map (Entry.encoded floats))) ↔
      ∀ r ∈ history.flatMap Entry.rows,
        r.args.depth ≤ 125 ∧ ∀ f ∈ r.args.floats, floats.read (floats.write f) = some f := by
  rw [wellFormed_iff]
  constructor
  · exact fun all r member => (Json.reread_eq_self (valid_of_mem member)).mp (all r member)
  · exact fun all r member => (Json.reread_eq_self (valid_of_mem member)).mpr (all r member)

/-- So many arrays, each inside the next. -/
def nested : Nat → Json F
  | 0 => .null
  | n + 1 => .arr [nested n]

theorem nested_depth (n : Nat) : (nested (F := F) n).depth = n := by
  induction n with
  | zero => rfl
  | succ n ih =>
    have outer : (nested (F := F) (n + 1)).depth = max (nested (F := F) n).depth 0 + 1 := by
      rw [nested, Json.depth, Json.fold_arr]
      rfl
    rw [outer, ih, Nat.max_zero]

theorem nested_valid (n : Nat) : (nested (F := F) n).Valid := by
  induction n with
  | zero => trivial
  | succ n ih =>
    refine Json.valid_arr.mpr fun e member => ?_
    rw [List.mem_singleton.mp member]
    exact ih

/-- A call whose arguments are 126 arrays is not in the request. -/
theorem request_wellFormed_deep :
    ¬ ∀ (system : String) (history : List (Entry Json.FloatText)),
      WellFormed system history (toMessages Json.Floats.asText system
        (history.map (Entry.encoded Json.Floats.asText))) := by
  intro always
  let row : CalledRow Json.FloatText := ⟨"post", nested 126, "ok"⟩
  have valid : ∀ r ∈ [row], r.args.Valid := by simpa [row] using nested_valid 126
  have all := (wellFormed_iff Json.Floats.asText "" [.called [row] valid]).mp (always _ _)
  have read := all row (by simp [Entry.rows])
  have shallow := ((Json.reread_eq_self (nested_valid 126)).mp read).1
  rw [nested_depth] at shallow
  omega

end AkumaMiot.Llm

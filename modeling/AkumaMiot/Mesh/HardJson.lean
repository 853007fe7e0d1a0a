import AkumaMiot.Lib.Json
import AkumaMiot.Mesh.Mesh

/-!
# The hard state as it is written down

`serde_json::to_vec` of a hard state, and what `serde_json::from_slice` makes of that.
-/
namespace AkumaMiot.Hard

open Json

/-- What stands before a field's value. -/
def key (before : Char) (name : String) : List Char := before :: (writeString name ++ [':'])

def votedForJson : Option Name → List Char
  | none => "null".toList
  | some name => writeString name

/-- The text of a hard state. -/
def json (h : Hard) : List Char :=
  key '\x7b' "term" ++ (Nat.toDigits 10 h.term ++
    (key ',' "voted_for" ++ (votedForJson h.votedFor ++
      (key ',' "head_term" ++ (Nat.toDigits 10 h.headTerm ++
        ['\x7d'])))))

def toVec (h : Hard) : List UInt8 := (String.ofList h.json).toByteArray.data.toList

def readVotedFor : Json.Reader (Option Name) := fun text =>
  match skip "null".toList text with
  | some (_, rest) => some (none, rest)
  | none => do
    let (_, text) ← skip ['\x22'] text
    let (name, rest) ← readString text
    return (some name, rest)

def ofJson (text : List Char) : Option Hard := do
  let (_, text) ← skip (key '\x7b' "term") text
  let (term, text) ← readNat text
  let (_, text) ← skip (key ',' "voted_for") text
  let (votedFor, text) ← readVotedFor text
  let (_, text) ← skip (key ',' "head_term") text
  let (headTerm, _) ← readNat text
  return ⟨term, votedFor, headTerm⟩

def fromSlice (bytes : List UInt8) : Option Hard :=
  (String.fromUTF8? ⟨bytes.toArray⟩).bind fun text => ofJson text.toList

theorem readVotedFor_json (vote : Option Name) (rest : List Char) :
    readVotedFor (votedForJson vote ++ rest) = some (vote, rest) := by
  cases vote with
  | none => simp only [readVotedFor, votedForJson, skip_append]
  | some name =>
    have text : writeString name ++ rest =
        ['\x22'] ++ (name.toList.flatMap escape ++ '\x22' :: rest) := by
      simp [writeString]
    -- A name begins with a quote.
    have other : skip "null".toList (writeString name ++ rest) = none :=
      skip_other _ (by decide)
    rw [readVotedFor, votedForJson, other, text]
    simp only [skip_append, readString_escaped, Option.bind_eq_bind, Option.bind_some,
      Option.pure_def]

theorem ofJson_json (h : Hard) : ofJson h.json = some h := by
  have comma : ∀ text, EndsNumber (key ',' "voted_for" ++ text) := fun text =>
    .of_piece text (by simp [key, isNumberChar, startsNumber])
  have brace : EndsNumber ['\x7d'] := @EndsNumber.of_piece ['\x7d'] [] (by decide)
  simp only [ofJson, json, skip_append, Option.bind_eq_bind, Option.bind_some,
    readNat_toDigits _ (comma _), readVotedFor_json, readNat_toDigits _ brace, Option.pure_def]

theorem fromSlice_toVec (h : Hard) : fromSlice h.toVec = some h := by
  have utf8 : ∀ s : String, String.fromUTF8? s.toByteArray = some s := fun s => by
    simp [String.fromUTF8?, s.isValidUTF8, String.fromUTF8]
  have text : String.fromUTF8? ⟨h.toVec.toArray⟩ = some (String.ofList h.json) := by
    rw [toVec, Array.toArray_toList]
    exact utf8 (String.ofList h.json)
  rw [fromSlice, text, Option.bind_some, String.toList_ofList, ofJson_json]

end AkumaMiot.Hard

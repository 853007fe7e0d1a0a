import AkumaMiot.Keys
import AkumaMiot.Lib.Base64
import AkumaMiot.Lib.BigEndian

/-!
# The operator's key as an OpenSSH line

The wire format inside the base64 is a sequence of length-prefixed strings, the algorithm's name
and the key. The decoder is any that reads back what standard base64 writes. A run of the parser
that panics has no result.
-/
namespace AkumaMiot

namespace Keys

open BigEndian

/-- An ASCII byte string. -/
def asciiBytes (s : String) : List UInt8 := s.toList.map fun c => UInt8.ofNat c.toNat

/-- A string behind its length. -/
def lengthPrefixed (field : List UInt8) : List UInt8 := encode 4 field.length ++ field

/-- What is inside the base64 of a key's line. -/
def wireOf (key : AccountId32) : List UInt8 :=
  lengthPrefixed (asciiBytes "ssh-ed25519") ++ lengthPrefixed key.toList

def sshPublicLine (key : AccountId32) (comment : String) : String :=
  "ssh-ed25519 " ++ String.ofList (Base64.encode (wireOf key)) ++ " " ++ comment

/-- `str::split_whitespace`. -/
def splitWhitespace (cs : List Char) : List (List Char) :=
  (cs.splitOnP isWhitespace).filter (· ≠ [])

/-- `ok_or`. -/
def okOr {α : Type} (what : String) (o : Option α) : ExceptT KeyError Option α :=
  match o with
  | some a => pure a
  | none => throw (.malformed what)

/-- `unwrap`, which panics on nothing. -/
def unwrap {α : Type} (o : Option α) : ExceptT KeyError Option α := ExceptT.lift o

/-- `usize::checked_add`. -/
def checkedAdd (a b : Nat) : Option Nat := if a + b < 2 ^ 64 then some (a + b) else none

/-- `buf.get(start..stop)`. -/
def getRange (buf : List UInt8) (start stop : Nat) : Option (List UInt8) :=
  if start ≤ stop ∧ stop ≤ buf.length then some ((buf.take stop).drop start) else none

/-- `u32::from_be_bytes` of a slice that has to have four bytes. -/
def u32OfBytes (bytes : List UInt8) : Option Nat :=
  if bytes.length = 4 then some (value bytes) else none

/-- Where the field at `start` begins behind its length, and where it ends. -/
def takeField (buf : List UInt8) (start : Nat) : ExceptT KeyError Option (Nat × Nat) := do
  let stop ← okOr "overflow" (checkedAdd start 4)
  let head ← okOr "truncated length" (getRange buf start stop)
  let len ← unwrap (u32OfBytes head)
  let last ← okOr "overflow" (checkedAdd stop len)
  if last > buf.length then throw (.malformed "truncated field")
  else pure (stop, last)

/-- `ed25519::Public::from_slice`. -/
def publicFromSlice (bytes : List UInt8) : Option AccountId32 :=
  if length : bytes.length = 32 then some ⟨bytes, length⟩ else none

/-- Parse one `authorized_keys` line into its public key. -/
def publicFromSsh (decoder : Base64.Decoder) (line : String) :
    ExceptT KeyError Option AccountId32 := do
  let fields := splitWhitespace line.toList
  let b64 ← okOr "no base64 field" (fields.find? fun f => "AAAA".toList.isPrefixOf f)
  let raw ← okOr "bad base64" (decoder.decode b64)
  let name ← takeField raw 0
  let algorithm ← unwrap (getRange raw name.1 name.2)
  if algorithm ≠ asciiBytes "ssh-ed25519" then throw .notEd25519
  else
    let place ← takeField raw name.2
    let key ← unwrap (getRange raw place.1 place.2)
    okOr "key is not 32 bytes" (publicFromSlice key)

/-! ## Fields -/

section
variable {α : Type}

/-- A computation that fails with an error of its own, and does not panic. -/
def Fails (run : ExceptT KeyError Option α) : Prop := ∃ e, run = throw e

theorem Fails.bind {β : Type} {run : ExceptT KeyError Option α}
    (fails : Fails run) (next : α → ExceptT KeyError Option β) : Fails (run >>= next) := by
  obtain ⟨e, rfl⟩ := fails
  exact ⟨e, rfl⟩

@[simp] theorem okOr_some (what : String) (a : α) : okOr what (some a) = pure a := rfl

@[simp] theorem unwrap_some (a : α) : unwrap (some a) = pure a := rfl

theorem okOr_cases (what : String) (o : Option α) :
    Fails (okOr what o) ∨ ∃ a, o = some a ∧ okOr what o = pure a := by
  cases o with
  | none => exact .inl ⟨_, rfl⟩
  | some a => exact .inr ⟨a, rfl, rfl⟩

end

theorem getRange_eq_some {buf bytes : List UInt8} {start stop : Nat} :
    getRange buf start stop = some bytes ↔
      ∃ front back, buf = front ++ bytes ++ back ∧ front.length = start ∧
        (front ++ bytes).length = stop := by
  constructor
  · intro read
    unfold getRange at read
    split at read
    next within =>
      cases read
      have length : (buf.take start).length = start := by
        rw [List.length_take]
        omega
      refine ⟨buf.take start, buf.drop stop, ?_, length, ?_⟩
      · have front : buf.take start = (buf.take stop).take start := by
          rw [List.take_take, Nat.min_eq_left within.1]
        rw [front, List.take_append_drop, List.take_append_drop]
      · rw [List.length_append, length, List.length_drop, List.length_take]
        omega
    next => cases read
  -- The other way round the range is what stands between the two.
  · rintro ⟨front, back, rfl, rfl, rfl⟩
    have within : front.length ≤ (front ++ bytes).length ∧
        (front ++ bytes).length ≤ (front ++ bytes ++ back).length := by
      simp only [List.length_append]
      omega
    rw [getRange, if_pos within, List.take_left, List.drop_left]

/-- A field is read, or there is an error: where one is read it stands behind its length. -/
theorem takeField_cases (front back : List UInt8) :
    Fails (takeField (front ++ back) front.length) ∨ ∃ field rest,
      back = lengthPrefixed field ++ rest ∧
      takeField (front ++ back) front.length =
        pure (front.length + 4, front.length + 4 + field.length) := by
  unfold takeField
  rcases okOr_cases "overflow" (checkedAdd front.length 4) with fails | ⟨stop, added, first⟩
  · exact .inl (fails.bind _)
  have stops : stop = front.length + 4 := by
    unfold checkedAdd at added
    split at added
    · exact (Option.some.inj added).symm
    · cases added
  rw [first, pure_bind]
  rcases okOr_cases "truncated length" (getRange (front ++ back) front.length stop) with
    fails | ⟨head, read, second⟩
  · exact .inl (fails.bind _)
  -- The length was read right behind what was read before.
  obtain ⟨front', tail, split, same, length⟩ := getRange_eq_some.mp read
  rw [List.append_assoc] at split
  obtain ⟨rfl, rfl⟩ := List.append_inj split same.symm
  rw [List.length_append, stops] at length
  have four : head.length = 4 := by omega
  have unwrapped : unwrap (u32OfBytes head) = pure (value head) := by
    rw [u32OfBytes, if_pos four, unwrap_some]
  rw [second, pure_bind, unwrapped, pure_bind]
  rcases okOr_cases "overflow" (checkedAdd stop (value head)) with fails | ⟨last, added', third⟩
  · exact .inl (fails.bind _)
  have ends : last = front.length + 4 + value head := by
    unfold checkedAdd at added'
    split at added'
    · rw [← Option.some.inj added', stops]
    · cases added'
  rw [third, pure_bind]
  split
  next => exact .inl ⟨_, rfl⟩
  -- The field ends inside the text, so it is as long as its length says.
  next within =>
    simp only [List.length_append] at within
    have field : (tail.take (value head)).length = value head := by
      rw [List.length_take]
      omega
    refine .inr ⟨tail.take (value head), tail.drop (value head), ?_, ?_⟩
    · rw [lengthPrefixed, field, ← four, encode_value, List.append_assoc, List.take_append_drop]
    · rw [field, stops, ends]

/-- A field that stands behind its length is read where the text is not too long to index. -/
theorem takeField_prefixed (front field rest : List UInt8)
    (fits : (front ++ (lengthPrefixed field ++ rest)).length < 2 ^ 32) :
    takeField (front ++ (lengthPrefixed field ++ rest)) front.length =
      pure (front.length + 4, front.length + 4 + field.length) := by
  simp only [lengthPrefixed, List.length_append, length_encode] at fits
  -- No sum overflows, since the text is short enough to be indexed.
  have first : checkedAdd front.length 4 = some (front.length + 4) := if_pos (by omega)
  have head : getRange (front ++ (lengthPrefixed field ++ rest)) front.length (front.length + 4) =
      some (encode 4 field.length) := by
    refine getRange_eq_some.mpr ⟨front, field ++ rest, ?_, rfl, ?_⟩
    · simp only [lengthPrefixed, List.append_assoc]
    · rw [List.length_append, length_encode]
  have len : u32OfBytes (encode 4 field.length) = some field.length := by
    rw [u32OfBytes, if_pos (length_encode 4 _), value_encode, Nat.mod_eq_of_lt (by omega)]
  have last : checkedAdd (front.length + 4) field.length =
      some (front.length + 4 + field.length) := if_pos (by omega)
  have within : ¬ front.length + 4 + field.length >
      (front ++ (lengthPrefixed field ++ rest)).length := by
    simp only [lengthPrefixed, List.length_append, length_encode]
    omega
  unfold takeField
  rw [first, okOr_some, pure_bind, head, okOr_some, pure_bind, len, unwrap_some, pure_bind, last,
    okOr_some, pure_bind, if_neg within]

/-! ## Lines -/

theorem splitWhitespace_cons {word : List Char} (plain : ∀ c ∈ word, isWhitespace c = false)
    (some_ : word ≠ []) {blank : Char} (blank_ : isWhitespace blank = true) (rest : List Char) :
    splitWhitespace (word ++ blank :: rest) = word :: splitWhitespace rest := by
  unfold splitWhitespace
  rw [List.splitOnP_append_cons_of_forall_mem plain blank blank_,
    List.filter_cons_of_pos (by simpa using some_)]

theorem notWhitespace {c : Char} (low : 43 ≤ c.toNat) (high : c.toNat < 128) :
    isWhitespace c = false := by
  have all : ∀ n, n < 128 → 43 ≤ n → isWhitespace (Char.ofNat n) = false := by decide
  have here := all c.toNat high low
  rwa [Char.ofNat_toNat] at here

/-- The base64 of a key: the length of the algorithm's name comes first, which is small. -/
theorem encode_wireOf (key : AccountId32) :
    ∃ rest, Base64.encode (wireOf key) = "AAAA".toList ++ rest := by
  have head : lengthPrefixed (asciiBytes "ssh-ed25519") =
      0 :: 0 :: 0 :: 11 :: asciiBytes "ssh-ed25519" := by decide
  rw [wireOf, head]
  simp only [List.cons_append]
  have zero : Base64.digits ((0 : UInt8).toNat * 2 ^ 16 + (0 : UInt8).toNat * 2 ^ 8 +
      (0 : UInt8).toNat) = "AAAA".toList := by decide
  rw [Base64.encode, zero]
  exact ⟨_, rfl⟩

/-- The field a reader of an operator's line finds. -/
theorem field_sshPublicLine (key : AccountId32) (comment : String) :
    (splitWhitespace (sshPublicLine key comment).toList).find?
      (fun f => "AAAA".toList.isPrefixOf f) = some (Base64.encode (wireOf key)) := by
  obtain ⟨rest, starts⟩ := encode_wireOf key
  have text : (sshPublicLine key comment).toList = "ssh-ed25519".toList ++ ' ' ::
      (Base64.encode (wireOf key) ++ ' ' :: comment.toList) := by
    simp [sshPublicLine]
  have all : ("ssh-ed25519".toList.all fun c => !isWhitespace c) = true := by decide
  have word : ∀ c ∈ "ssh-ed25519".toList, isWhitespace c = false := fun c member => by
    simpa using List.all_eq_true.mp all c member
  have plain : ∀ c ∈ Base64.encode (wireOf key), isWhitespace c = false := fun c member =>
    notWhitespace (Base64.encode_plain _ c member).1 (Base64.encode_plain _ c member).2
  have some_ : Base64.encode (wireOf key) ≠ [] := by simp [starts]
  rw [text, splitWhitespace_cons word (by decide) rfl, splitWhitespace_cons plain some_ rfl,
    List.find?_cons_of_neg (by decide), List.find?_cons_of_pos]
  rw [starts, List.isPrefixOf_iff_prefix]
  exact List.prefix_append _ _

/-! ## Keys -/

theorem publicFromSlice_toList (key : AccountId32) : publicFromSlice key.toList = some key := by
  rw [publicFromSlice, dif_pos key.toList_length]
  rfl

theorem publicFromSlice_eq_some {bytes : List UInt8} {key : AccountId32}
    (read : publicFromSlice bytes = some key) : bytes = key.toList := by
  unfold publicFromSlice at read
  split at read
  · rw [← Option.some.inj read]
    rfl
  · cases read

/-- What a line of ours is parsed to. -/
theorem publicFromSsh_line (decoder : Base64.Decoder) (key : AccountId32) (comment : String) :
    publicFromSsh decoder (sshPublicLine key comment) = pure key := by
  have sizes : (asciiBytes "ssh-ed25519").length = 11 := by decide
  have whole : (wireOf key).length = 51 := by
    simp [wireOf, lengthPrefixed, sizes]
  -- The two fields of a line of ours are its kind and its key.
  have first := takeField_prefixed [] (asciiBytes "ssh-ed25519") (lengthPrefixed key.toList)
    (by change (wireOf key).length < _; omega)
  have name : getRange (wireOf key) 4 15 = some (asciiBytes "ssh-ed25519") :=
    getRange_eq_some.mpr ⟨encode 4 11, lengthPrefixed key.toList, rfl, rfl, rfl⟩
  have second := takeField_prefixed (lengthPrefixed (asciiBytes "ssh-ed25519")) key.toList []
    (by rw [List.append_nil]; change (wireOf key).length < _; omega)
  rw [List.append_nil, key.toList_length] at second
  have bytes : getRange (wireOf key) 19 51 = some key.toList := by
    refine getRange_eq_some.mpr ⟨lengthPrefixed (asciiBytes "ssh-ed25519") ++ encode 4 32, [],
      ?_, rfl, ?_⟩
    · rw [List.append_nil, List.append_assoc, wireOf]
      simp only [lengthPrefixed, key.toList_length]
    · rw [List.length_append, key.toList_length]
      rfl
  have first : takeField (wireOf key) 0 = pure (4, 15) := first
  have second : takeField (wireOf key) 15 = pure (19, 51) := second
  unfold publicFromSsh
  dsimp only
  rw [field_sshPublicLine, okOr_some, pure_bind, decoder.inverse, okOr_some, pure_bind, first,
    pure_bind, name, unwrap_some, pure_bind, if_neg (not_not.mpr rfl), second, pure_bind, bytes,
    unwrap_some, pure_bind, publicFromSlice_toList, okOr_some]

/-- Any line ends in an error, or in the key that the decoded bytes spell out. -/
theorem publicFromSsh_cases (decoder : Base64.Decoder) (line : String) :
    Fails (publicFromSsh decoder line) ∨ ∃ key field raw rest,
      publicFromSsh decoder line = pure key ∧ field ∈ splitWhitespace line.toList ∧
      decoder.decode field = some raw ∧
      raw = lengthPrefixed (asciiBytes "ssh-ed25519") ++ (lengthPrefixed key.toList ++ rest) := by
  unfold publicFromSsh
  dsimp only
  rcases okOr_cases "no base64 field" ((splitWhitespace line.toList).find?
    fun f => "AAAA".toList.isPrefixOf f) with fails | ⟨field, found, first⟩
  · exact .inl (fails.bind _)
  rw [first, pure_bind]
  rcases okOr_cases "bad base64" (decoder.decode field) with fails | ⟨raw, decoded, second⟩
  · exact .inl (fails.bind _)
  rw [second, pure_bind]
  -- the first field
  rcases takeField_cases [] raw with fails | ⟨algorithm, rest, split, third⟩
  · exact .inl (Fails.bind fails _)
  rw [List.nil_append, List.length_nil, Nat.zero_add] at third
  have name : getRange raw 4 (4 + algorithm.length) = some algorithm :=
    getRange_eq_some.mpr ⟨encode 4 algorithm.length, rest, split, length_encode 4 _, by
      rw [List.length_append, length_encode]⟩
  rw [third, pure_bind, name, unwrap_some, pure_bind]
  by_cases other : algorithm ≠ asciiBytes "ssh-ed25519"
  · exact .inl ⟨_, if_pos other⟩
  rw [if_neg other]
  have same := not_not.mp other
  -- the second, where the first one ends
  have behind : (lengthPrefixed algorithm).length = 4 + algorithm.length := by
    rw [lengthPrefixed, List.length_append, length_encode]
  rcases takeField_cases (lengthPrefixed algorithm) rest with
    fails | ⟨bytes, rest', split', fourth⟩
  · rw [← split, behind] at fails
    exact .inl (fails.bind _)
  rw [← split, behind] at fourth
  have read : getRange raw (4 + algorithm.length + 4) (4 + algorithm.length + 4 + bytes.length) =
      some bytes := by
    refine getRange_eq_some.mpr
      ⟨lengthPrefixed algorithm ++ encode 4 bytes.length, rest', ?_, ?_, ?_⟩
    · rw [split, split']
      simp only [lengthPrefixed, List.append_assoc]
    · rw [List.length_append, behind, length_encode]
    · rw [List.length_append, List.length_append, behind, length_encode]
  rw [fourth, pure_bind, read, unwrap_some, pure_bind]
  rcases okOr_cases "key is not 32 bytes" (publicFromSlice bytes) with fails | ⟨key, made, last⟩
  · exact .inl fails
  refine .inr ⟨key, field, raw, rest', last, List.mem_of_find?_eq_some found, decoded, ?_⟩
  rw [split, split', same, publicFromSlice_eq_some made]

/-- Operator keys round-trip, the parser never panics, and a key it accepts is spelled out in the
decoded bytes. -/
theorem ssh_keys (decoder : Base64.Decoder) :
    (∀ key comment, publicFromSsh decoder (sshPublicLine key comment) = pure key) ∧
    (∀ line, (publicFromSsh decoder line).run ≠ none) ∧
    ∀ line key, publicFromSsh decoder line = pure key →
      ∃ field raw rest, field ∈ splitWhitespace line.toList ∧ decoder.decode field = some raw ∧
        raw = encode 4 11 ++ asciiBytes "ssh-ed25519" ++ encode 4 32 ++ key.toList ++ rest := by
  refine ⟨publicFromSsh_line decoder, fun line => ?_, fun line key parsed => ?_⟩
  · rcases publicFromSsh_cases decoder line with ⟨e, fails⟩ | ⟨key, _, _, _, parsed, _⟩
    · rw [fails]
      exact Option.some_ne_none _
    · rw [parsed]
      exact Option.some_ne_none _
  · rcases publicFromSsh_cases decoder line with
      ⟨e, fails⟩ | ⟨key', field, raw, rest, parsed', member, decoded, spelled⟩
    · rw [parsed] at fails
      cases fails
    · rw [parsed] at parsed'
      cases parsed'
      refine ⟨field, raw, rest, member, decoded, ?_⟩
      -- Both lengths are known, so the bytes are spelled out.
      rw [spelled, lengthPrefixed, lengthPrefixed, key.toList_length]
      simp only [List.append_assoc]
      rfl

/-- A key with a comment of two words, by the strict decoder. -/
theorem ssh_keys_strict :
    let key : AccountId32 := List.Vector.replicate 32 7
    publicFromSsh Base64.strict (sshPublicLine key "kuro meow") = pure key :=
  (ssh_keys Base64.strict).1 (List.Vector.replicate 32 7) "kuro meow"

end Keys

end AkumaMiot

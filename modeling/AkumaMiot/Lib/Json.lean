import AkumaMiot.Lib.KeyedList
import AkumaMiot.Lib.Numerals

/-!
# JSON

JSON values as a library holds them in memory, the compact text it writes for one, and its
reader. The reader takes any JSON text, and refuses what is nested deeper than it is told to
follow. Reading back a written value gives that value if it is no deeper and its floats read
back.
-/

/-- Floats are `F`. A negative integer `n` stands for `-n - 1`, an object for a map that keeps the
order of its fields. -/
inductive Json (F : Type) where
  | null
  | bool (b : Bool)
  | posInt (n : UInt64)
  | negInt (n : Fin (2 ^ 63))
  | float (f : F)
  | str (s : String)
  | arr (es : List (Json F))
  | obj (fields : List (String × Json F))

namespace Json

variable {F β : Type}

/-! ## Folds -/

/-- What a fold makes of a value, its parts being folded already. -/
structure Algebra (F β : Type) where
  null : β
  bool : Bool → β
  posInt : UInt64 → β
  negInt : Fin (2 ^ 63) → β
  float : F → β
  str : String → β
  arr : List β → β
  obj : List (String × β) → β

mutual

def fold (a : Algebra F β) : Json F → β
  | null => a.null
  | bool b => a.bool b
  | posInt n => a.posInt n
  | negInt n => a.negInt n
  | float f => a.float f
  | str s => a.str s
  | arr es => a.arr (foldElements a es)
  | obj fields => a.obj (foldFields a fields)

def foldElements (a : Algebra F β) : List (Json F) → List β
  | [] => []
  | e :: es => fold a e :: foldElements a es

def foldFields (a : Algebra F β) : List (String × Json F) → List (String × β)
  | [] => []
  | f :: fields => foldField a f :: foldFields a fields

def foldField (a : Algebra F β) : String × Json F → String × β
  | (key, v) => (key, fold a v)

end

theorem fold_arr (a : Algebra F β) (es : List (Json F)) :
    fold a (arr es) = a.arr (es.map (fold a)) := by
  have elements : ∀ es : List (Json F), foldElements a es = es.map (fold a) := by
    intro es
    induction es with
    | nil => rfl
    | cons e es ih => simp only [foldElements, ih, List.map_cons]
  simp only [fold, elements]

theorem fold_obj (a : Algebra F β) (fields : List (String × Json F)) :
    fold a (obj fields) = a.obj (fields.map fun f => (f.1, fold a f.2)) := by
  have each : ∀ fields : List (String × Json F),
      foldFields a fields = fields.map fun f => (f.1, fold a f.2) := by
    intro fields
    induction fields with
    | nil => rfl
    | cons f fields ih =>
      obtain ⟨key, v⟩ := f
      simp only [foldFields, foldField, ih, List.map_cons]
  simp only [fold, each]

/-- Induction over the parts of a value. -/
@[elab_as_elim]
theorem inductionOn {motive : Json F → Prop} (v : Json F) (null : motive null)
    (bool : ∀ b, motive (bool b)) (posInt : ∀ n, motive (posInt n))
    (negInt : ∀ n, motive (negInt n)) (float : ∀ f, motive (float f)) (str : ∀ s, motive (str s))
    (arr : ∀ es, (∀ e ∈ es, motive e) → motive (arr es))
    (obj : ∀ fields, (∀ f ∈ fields, motive f.2) → motive (obj fields)) : motive v :=
  @Json.rec F motive (fun es => ∀ e ∈ es, motive e) (fun fields => ∀ f ∈ fields, motive f.2)
    (fun f => motive f.2) null bool posInt negInt float str arr obj (fun _ => nofun)
    (fun _ _ first rest => List.forall_mem_cons.mpr ⟨first, rest⟩) (fun _ => nofun)
    (fun _ _ first rest => List.forall_mem_cons.mpr ⟨first, rest⟩) (fun _ _ value => value) v

/-- How many arrays and objects stand inside each other. -/
def depth : Json F → Nat :=
  fold
    { null := 0
      bool := fun _ => 0
      posInt := fun _ => 0
      negInt := fun _ => 0
      float := fun _ => 0
      str := fun _ => 0
      arr := fun ds => ds.foldr max 0 + 1
      obj := fun ds => (ds.map Prod.snd).foldr max 0 + 1 }

def floats : Json F → List F :=
  fold
    { null := []
      bool := fun _ => []
      posInt := fun _ => []
      negInt := fun _ => []
      float := fun f => [f]
      str := fun _ => []
      arr := fun fs => fs.flatten
      obj := fun fs => (fs.map Prod.snd).flatten }

/-- An object has one field of a name. -/
def Valid : Json F → Prop :=
  fold
    { null := True
      bool := fun _ => True
      posInt := fun _ => True
      negInt := fun _ => True
      float := fun _ => True
      str := fun _ => True
      arr := fun ps => ∀ p ∈ ps, p
      obj := fun ps => (ps.map Prod.fst).Nodup ∧ ∀ p ∈ ps, p.2 }

@[simp] theorem depth_str (s : String) : (str s : Json F).depth = 0 := rfl

@[simp] theorem depth_posInt (n : UInt64) : (posInt n : Json F).depth = 0 := rfl

@[simp] theorem floats_str (s : String) : (str s : Json F).floats = [] := rfl

@[simp] theorem floats_posInt (n : UInt64) : (posInt n : Json F).floats = [] := rfl

@[simp] theorem valid_str (s : String) : (str s : Json F).Valid := trivial

@[simp] theorem valid_posInt (n : UInt64) : (posInt n : Json F).Valid := trivial

theorem foldr_max_le {ns : List Nat} {d : Nat} : ns.foldr max 0 ≤ d ↔ ∀ n ∈ ns, n ≤ d := by
  induction ns with
  | nil => simp
  | cons n ns ih => simp [ih]

theorem depth_arr_le {es : List (Json F)} {d : Nat} :
    (arr es).depth ≤ d + 1 ↔ ∀ e ∈ es, e.depth ≤ d := by
  simp only [depth, fold_arr, Nat.add_le_add_iff_right, foldr_max_le, List.forall_mem_map]

theorem depth_obj_le {fields : List (String × Json F)} {d : Nat} :
    (obj fields).depth ≤ d + 1 ↔ ∀ f ∈ fields, f.2.depth ≤ d := by
  simp only [depth, fold_obj, Nat.add_le_add_iff_right, foldr_max_le, List.forall_mem_map]

theorem mem_floats_arr {es : List (Json F)} {x : F} :
    x ∈ (arr es).floats ↔ ∃ e ∈ es, x ∈ e.floats := by
  simp only [floats, fold_arr, List.mem_flatten, List.mem_map, exists_exists_and_eq_and]

theorem mem_floats_obj {fields : List (String × Json F)} {x : F} :
    x ∈ (obj fields).floats ↔ ∃ f ∈ fields, x ∈ f.2.floats := by
  simp only [floats, fold_obj, List.mem_flatten, List.mem_map, exists_exists_and_eq_and]

theorem valid_arr {es : List (Json F)} : (arr es).Valid ↔ ∀ e ∈ es, e.Valid := by
  simp only [Valid, fold_arr, List.forall_mem_map]

theorem valid_obj {fields : List (String × Json F)} :
    (obj fields).Valid ↔ (fields.map Prod.fst).Nodup ∧ ∀ f ∈ fields, f.2.Valid := by
  simp only [Valid, fold_obj, List.forall_mem_map, List.map_map]
  rfl

/-! ## Text -/

/-- A reader answers with a value and the text behind it. -/
abbrev Reader (α : Type) := List Char → Option (α × List Char)

/-- A fixed piece of the text. -/
def skip (piece : List Char) : Reader Unit := fun text =>
  if text.take piece.length = piece then some ((), text.drop piece.length) else none

def isSpace (c : Char) : Bool := c = ' ' || c = '\n' || c = '\t' || c = '\r'

def skipSpace (text : List Char) : List Char := text.dropWhile isSpace

theorem skipSpace_cons {c : Char} (rest : List Char) (solid : isSpace c = false) :
    skipSpace (c :: rest) = c :: rest := by
  simp [skipSpace, solid]

/-! ### Numbers -/

def startsNumber (c : Char) : Bool := c.isDigit || c = '-'

def isNumberChar (c : Char) : Bool :=
  startsNumber c || c = '+' || c = '.' || c = 'e' || c = 'E'

/-- How the numbers that are no machine integers are written and read. -/
structure Floats (F : Type) where
  write : F → List Char
  read : List Char → Option F
  /-- What is written looks like a number, and not like an integer. -/
  begins : ∀ f, ∃ c ∈ (write f).head?, startsNumber c = true
  chars : ∀ f, ∀ c ∈ write f, isNumberChar c = true
  marked : ∀ f, '.' ∈ write f ∨ 'e' ∈ write f

/-- The text of a number with a point or an exponent. -/
def looksFloat (text : List Char) : Bool :=
  text.head?.any startsNumber && text.all isNumberChar && (text.elem '.' || text.elem 'e')

abbrev FloatText := {text : List Char // looksFloat text = true}

/-- Floats that are kept as their text. -/
def Floats.asText : Floats FloatText where
  write := Subtype.val
  read text := if looks : looksFloat text = true then some ⟨text, looks⟩ else none
  begins f := by
    have looks := f.property
    simp only [looksFloat, Bool.and_eq_true, Option.any_eq_true] at looks
    exact looks.1.1
  chars f := by
    have looks := f.property
    simp only [looksFloat, Bool.and_eq_true, List.all_eq_true] at looks
    exact looks.1.2
  marked f := by
    have looks := f.property
    simp only [looksFloat, Bool.and_eq_true, Bool.or_eq_true, List.elem_iff] at looks
    exact looks.2

/-- Digits as they are written, with no zero in front. -/
def readDigits (ds : List Char) : Option Nat :=
  let n := Nat.ofDigitChars 10 ds 0
  if Nat.toDigits 10 n = ds then some n else none

/-- A natural number of any size. -/
def readNat : Reader Nat := fun text =>
  (readDigits (text.takeWhile isNumberChar)).map fun n => (n, text.dropWhile isNumberChar)

/-- A machine integer. Minus zero and what is too large are none. -/
def readInteger (run : List Char) : Option (Json F) :=
  if run.head? = some '-' then
    (readDigits run.tail).bind fun n =>
      if fits : 0 < n ∧ n ≤ 2 ^ 63 then some (negInt ⟨n - 1, by omega⟩) else none
  else
    (readDigits run).bind fun n =>
      if n < 2 ^ 64 then some (posInt (UInt64.ofNat n)) else none

def readNumber (floats : Floats F) (run : List Char) : Option (Json F) :=
  match readInteger run with
  | some n => some n
  | none => (floats.read run).map float

/-! ### Strings -/

/-- One character of a string. What is not ASCII stands as it is. -/
def escape (c : Char) : List Char :=
  if c = '\x22' then ['\\', '\x22']
  else if c = '\\' then ['\\', '\\']
  else if c = '\x08' then ['\\', 'b']
  else if c = '\t' then ['\\', 't']
  else if c = '\n' then ['\\', 'n']
  else if c = '\x0c' then ['\\', 'f']
  else if c = '\r' then ['\\', 'r']
  else if c.toNat < 32 then
    ['\\', 'u', '0', '0', Nat.digitChar (c.toNat / 16), Nat.digitChar (c.toNat % 16)]
  else [c]

def writeString (s : String) : List Char := '\x22' :: s.toList.flatMap escape ++ ['\x22']

/-- The character that a one-letter escape stands for. -/
def unescaped (e : Char) : Option Char :=
  if e = '\x22' then some '\x22'
  else if e = '\\' then some '\\'
  else if e = '/' then some '/'
  else if e = 'b' then some '\x08'
  else if e = 'f' then some '\x0c'
  else if e = 'n' then some '\n'
  else if e = 'r' then some '\r'
  else if e = 't' then some '\t'
  else none

def readHex4 : Reader Nat
  | a :: b :: c :: d :: rest => do
    let a ← Numerals.toDigit 16 a
    let b ← Numerals.toDigit 16 b
    let c ← Numerals.toDigit 16 c
    let d ← Numerals.toDigit 16 d
    return (((a * 16 + b) * 16 + c) * 16 + d, rest)
  | _ => none

/-- The second half of a surrogate pair whose first half was `n`. -/
def readTrail (n : Nat) : Reader Char
  | '\\' :: 'u' :: rest => (readHex4 rest).bind fun (m, rest) =>
    if 0xdc00 ≤ m ∧ m < 0xe000 then
      some (Char.ofNat ((n - 0xd800) * 1024 + (m - 0xdc00) + 0x10000), rest)
    else none
  | _ => none

/-- What stands behind a backslash. -/
def readEscape : Reader Char
  | [] => none
  | e :: rest =>
    if e = 'u' then
      (readHex4 rest).bind fun (n, rest) =>
        if n < 0xd800 ∨ 0xe000 ≤ n then some (Char.ofNat n, rest)
        else if n < 0xdc00 then readTrail n rest
        -- A second half does not come first.
        else none
    else (unescaped e).map fun c => (c, rest)

def readChar : Reader Char
  | [] => none
  | c :: rest =>
    if c = '\\' then readEscape rest
    else if c.toNat < 32 then none
    else some (c, rest)

/-- A string's characters up to its closing quote, `fuel` of them with the quote. -/
def readBody (fuel : Nat) : Reader (List Char) := fun text =>
  match fuel with
  | 0 => none
  | fuel + 1 =>
    if text.head? = some '\x22' then some ([], text.tail)
    else do
      let (c, rest) ← readChar text
      let (cs, rest) ← readBody fuel rest
      return (c :: cs, rest)

/-- A string behind its opening quote. -/
def readString : Reader String := fun text =>
  (readBody text.length text).map (Prod.map String.ofList id)

/-! ### Values -/

/-- Texts with a comma between each two. -/
def joined (texts : List (List Char)) : List Char := [','].intercalate texts

def write (floats : Floats F) : Json F → List Char :=
  fold
    { null := "null".toList
      bool := fun b => if b then "true".toList else "false".toList
      posInt := fun n => Nat.toDigits 10 n.toNat
      negInt := fun n => '-' :: Nat.toDigits 10 (n + 1)
      float := floats.write
      str := writeString
      arr := fun ts => '[' :: joined ts ++ [']']
      obj := fun ts =>
        '\x7b' :: joined (ts.map fun t => writeString t.1 ++ ':' :: t.2) ++ ['\x7d'] }

/-- Items up to a closing bracket, the first of which is here. -/
def readItems {α : Type} (item : Reader α) (close : Char) (fuel : Nat) : Reader (List α) :=
  fun text =>
    match fuel with
    | 0 => none
    | fuel + 1 => do
      let (a, rest) ← item text
      match skipSpace rest with
      | [] => none
      | c :: rest =>
        if c = ',' then
          let (as, rest) ← readItems item close fuel rest
          return (a :: as, rest)
        else if c = close then some ([a], rest)
        else none

/-- Items behind their opening bracket. -/
def readSeq {α : Type} (item : Reader α) (close : Char) : Reader (List α) := fun text =>
  if (skipSpace text).head? = some close then some ([], (skipSpace text).tail)
  else readItems item close text.length text

/-- A field of an object. -/
def readField {α : Type} (value : Reader α) : Reader (String × α) := fun text =>
  match skipSpace text with
  | '\x22' :: rest => do
    let (key, rest) ← readString rest
    match skipSpace rest with
    | ':' :: rest =>
      let (v, rest) ← value rest
      return ((key, v), rest)
    | _ => none
  | _ => none

/-- A field that comes again takes the place of the first. -/
def insertField {α : Type} (fields : List (String × α)) (f : String × α) : List (String × α) :=
  if f.1 ∈ fields.map Prod.fst then KeyedList.update Prod.fst f.1 (fun _ => f) fields
  else fields ++ [f]

def ofFields {α : Type} (fields : List (String × α)) : List (String × α) :=
  fields.foldl insertField []

def readWord (word : List Char) (v : Json F) : Reader (Json F) := fun text =>
  (skip word text).map (Prod.map (fun _ => v) id)

/-- A value. What stands inside an array or an object is for `inner`; without it there may be
neither. -/
def readWith (floats : Floats F) (inner : Option (Reader (Json F))) : Reader (Json F) := fun text =>
  match skipSpace text with
  | [] => none
  | c :: rest =>
    if c = '\x22' then (readString rest).map (Prod.map str id)
    else if c = '[' then
      inner.bind fun value => (readSeq value ']' rest).map (Prod.map arr id)
    else if c = '\x7b' then
      inner.bind fun value =>
        (readSeq (readField value) '\x7d' rest).map (Prod.map (fun fs => obj (ofFields fs)) id)
    else if startsNumber c then
      (readNumber floats ((c :: rest).takeWhile isNumberChar)).map fun v =>
        (v, (c :: rest).dropWhile isNumberChar)
    else
      readWord "null".toList null (c :: rest) <|>
      readWord "true".toList (bool true) (c :: rest) <|>
      readWord "false".toList (bool false) (c :: rest)

/-- A value with at most `limit` arrays and objects inside each other. -/
def readValue (floats : Floats F) : Nat → Reader (Json F)
  | 0 => readWith floats none
  | limit + 1 => readWith floats (some (readValue floats limit))

/-- A whole text. -/
def parse (floats : Floats F) (limit : Nat) (text : List Char) : Option (Json F) :=
  (readValue floats limit text).bind fun (v, rest) =>
    if skipSpace rest = [] then some v else none

/-! ## What is written is read back -/

theorem skip_append (piece rest : List Char) : skip piece (piece ++ rest) = some ((), rest) := by
  simp [skip]

theorem skip_other {piece : List Char} {c : Char} (rest : List Char)
    (first : piece.head?.any (· != c) = true) : skip piece (c :: rest) = none := by
  cases piece with
  | nil => simp at first
  | cons c' piece =>
    have other : c ≠ c' := fun same => by simp [same] at first
    simp [skip, other]

/-- A text that a number may stand before. -/
def EndsNumber (rest : List Char) : Prop := ∀ c ∈ rest.head?, isNumberChar c = false

theorem EndsNumber.of_piece {piece : List Char} (rest : List Char)
    (first : piece.head?.any (!isNumberChar ·) = true) : EndsNumber (piece ++ rest) := by
  cases piece with
  | nil => simp at first
  | cons c piece =>
    intro c' head
    obtain rfl : c = c' := by simpa using head
    simpa using first

theorem run_append {run rest : List Char} (chars : ∀ c ∈ run, isNumberChar c = true)
    (ends : EndsNumber rest) :
    (run ++ rest).takeWhile isNumberChar = run ∧ (run ++ rest).dropWhile isNumberChar = rest := by
  induction run with
  | nil =>
    cases rest with
    | nil => exact ⟨rfl, rfl⟩
    | cons c rest =>
      have stop : isNumberChar c = false := ends c (by simp)
      simp [stop]
  | cons c run ih =>
    have inside : isNumberChar c = true := chars c (by simp)
    obtain ⟨took, dropped⟩ := ih fun c' member => chars c' (by simp [member])
    simp [inside, took, dropped]

/-! ### Numbers -/

theorem readDigits_toDigits (n : Nat) : readDigits (Nat.toDigits 10 n) = some n := by
  simp [readDigits, Nat.ofDigitChars_ten_toDigits]

theorem isDigit_of_readDigits {ds : List Char} {n : Nat} (read : readDigits ds = some n) :
    ∀ c ∈ ds, c.isDigit = true := by
  intro c member
  simp only [readDigits] at read
  split at read
  next written =>
    rw [← written] at member
    exact Nat.isDigit_of_mem_toDigits (by decide) (by decide) member
  · cases read

theorem isDigit_of_mem {n : Nat} {c : Char} (member : c ∈ Nat.toDigits 10 n) :
    c.isDigit = true :=
  Nat.isDigit_of_mem_toDigits (by decide) (by decide) member

/-- The digits of a number begin with a digit. -/
theorem toDigits_begins (n : Nat) : ∃ c ds, Nat.toDigits 10 n = c :: ds ∧ c.isDigit = true := by
  cases digits : Nat.toDigits 10 n with
  | nil => exact absurd digits Nat.toDigits_ne_nil
  | cons c ds => exact ⟨c, ds, rfl, isDigit_of_mem (n := n) (by simp [digits])⟩

theorem isNumberChar_digit {c : Char} (digit : c.isDigit = true) : isNumberChar c = true := by
  simp [isNumberChar, startsNumber, digit]

theorem readNat_toDigits (n : Nat) {rest : List Char} (ends : EndsNumber rest) :
    readNat (Nat.toDigits 10 n ++ rest) = some (n, rest) := by
  have chars : ∀ c ∈ Nat.toDigits 10 n, isNumberChar c = true := fun c member =>
    isNumberChar_digit (isDigit_of_mem member)
  obtain ⟨took, dropped⟩ := run_append chars ends
  rw [readNat, took, dropped, readDigits_toDigits, Option.map_some]

theorem minus_not_digit : ('-').isDigit = false := by decide

theorem readInteger_posInt (n : UInt64) :
    readInteger (F := F) (Nat.toDigits 10 n.toNat) = some (posInt n) := by
  obtain ⟨c, ds, digits, digit⟩ := toDigits_begins n.toNat
  have unsigned : (Nat.toDigits 10 n.toNat).head? ≠ some '-' := by
    rw [digits]
    rintro ⟨⟩
    simp [minus_not_digit] at digit
  rw [readInteger, if_neg unsigned, readDigits_toDigits]
  simp [n.toNat_lt]

theorem readInteger_negInt (n : Fin (2 ^ 63)) :
    readInteger (F := F) ('-' :: Nat.toDigits 10 (n + 1)) = some (negInt n) := by
  have fits : (n : Nat) + 1 ≤ 2 ^ 63 := n.isLt
  simp only [readInteger, List.head?_cons, if_true, List.tail_cons, readDigits_toDigits,
    Option.bind_some, dif_pos (And.intro (Nat.succ_pos (n : Nat)) fits), Nat.add_sub_cancel]

/-- A number with a point or an exponent is no integer. -/
theorem readInteger_marked {run : List Char} (marked : '.' ∈ run ∨ 'e' ∈ run) :
    readInteger (F := F) run = none := by
  have refused : ∀ ds : List Char, '.' ∈ ds ∨ 'e' ∈ ds → readDigits ds = none := by
    intro ds marked
    cases read : readDigits ds with
    | none => rfl
    | some n =>
      have digits := isDigit_of_readDigits read
      rcases marked with point | exponent
      · exact absurd (digits _ point) (by decide)
      · exact absurd (digits _ exponent) (by decide)
  unfold readInteger
  split
  next minus =>
    -- The mark stands behind the minus sign.
    have behind : '.' ∈ run.tail ∨ 'e' ∈ run.tail := by
      cases run with
      | nil => simp at minus
      | cons c run =>
        obtain rfl : c = '-' := by simpa using minus
        simpa using marked
    rw [refused _ behind]
    rfl
  · rw [refused _ marked]
    rfl

/-! ### Strings -/

theorem readHex4_digits {n : Nat} (small : n < 256) (rest : List Char) :
    readHex4 ('0' :: '0' :: Nat.digitChar (n / 16) :: Nat.digitChar (n % 16) :: rest) =
      some (n, rest) := by
  have zero : Numerals.toDigit 16 '0' = some 0 := by decide
  have high : Numerals.toDigit 16 (Nat.digitChar (n / 16)) = some (n / 16) :=
    Numerals.toDigit_digitChar (by decide) (by omega)
  have low : Numerals.toDigit 16 (Nat.digitChar (n % 16)) = some (n % 16) :=
    Numerals.toDigit_digitChar (by decide) (by omega)
  have whole : n / 16 * 16 + n % 16 = n := by omega
  simp [readHex4, zero, high, low, whole]

/-- An escaped character is read back, and is not a closing quote. -/
theorem readChar_escape (c : Char) (rest : List Char) :
    readChar (escape c ++ rest) = some (c, rest) ∧
      (escape c ++ rest).head? ≠ some '\x22' := by
  unfold escape
  split
  next eq => exact ⟨by rw [eq]; rfl, by simp⟩
  split
  next eq => exact ⟨by rw [eq]; rfl, by simp⟩
  split
  next eq => exact ⟨by rw [eq]; rfl, by simp⟩
  split
  next eq => exact ⟨by rw [eq]; rfl, by simp⟩
  split
  next eq => exact ⟨by rw [eq]; rfl, by simp⟩
  split
  next eq => exact ⟨by rw [eq]; rfl, by simp⟩
  split
  next eq => exact ⟨by rw [eq]; rfl, by simp⟩
  split
  -- A control character with no letter of its own is written in four digits.
  next control =>
    refine ⟨?_, by simp⟩
    have hex := readHex4_digits (n := c.toNat) (by omega) rest
    have low : c.toNat < 0xd800 := by omega
    simp [readChar, readEscape, hex, low, Char.ofNat_toNat]
  next quote backslash _ _ _ _ _ plain =>
    exact ⟨by simp [readChar, backslash, plain], by simpa using quote⟩

theorem readBody_escaped {cs rest : List Char} {fuel : Nat} (enough : cs.length < fuel) :
    readBody fuel (cs.flatMap escape ++ '\x22' :: rest) = some (cs, rest) := by
  induction cs generalizing fuel with
  | nil =>
    cases fuel with
    | zero => simp at enough
    | succ fuel => simp [readBody]
  | cons c cs ih =>
    cases fuel with
    | zero => simp at enough
    | succ fuel =>
      obtain ⟨read, inside⟩ := readChar_escape c (cs.flatMap escape ++ '\x22' :: rest)
      rw [List.flatMap_cons, List.append_assoc, readBody, if_neg inside, read]
      simp [ih (Nat.lt_of_succ_lt_succ enough)]

theorem length_le_escaped (cs : List Char) : cs.length ≤ (cs.flatMap escape).length := by
  induction cs with
  | nil => exact Nat.le_refl 0
  | cons c cs ih =>
    have one : 1 ≤ (escape c).length := by
      unfold escape
      repeat' split
      all_goals simp
    rw [List.flatMap_cons, List.length_append, List.length_cons]
    omega

theorem readString_escaped (s : String) (rest : List Char) :
    readString (s.toList.flatMap escape ++ '\x22' :: rest) = some (s, rest) := by
  have enough := length_le_escaped s.toList
  rw [readString, readBody_escaped]
  · simp
  · simp only [List.length_append, List.length_cons]
    omega

/-! ### Sequences -/

section Sequences

variable {α γ : Type} {item : Reader α} {close : Char} {text : γ → List Char}
  {reads : γ → Option α} {xs : List γ}

/-- Where the items of a sequence end. -/
def Closes (close : Char) : Prop := close = ']' ∨ close = '\x7d'

theorem Closes.solid (closes : Closes close) : isSpace close = false := by
  rcases closes with rfl | rfl <;> decide

theorem Closes.ne_comma (closes : Closes close) : close ≠ ',' := by
  rcases closes with rfl | rfl <;> decide

theorem Closes.endsNumber (closes : Closes close) (rest : List Char) :
    EndsNumber (close :: rest) := by
  rintro c ⟨⟩
  rcases closes with rfl | rfl <;> decide

theorem endsNumber_comma (rest : List Char) : EndsNumber (',' :: rest) := by
  rintro c ⟨⟩
  decide

/-- The item reader gives `reads x` for what `text` writes of `x`. -/
def ReadsEach (item : Reader α) (text : γ → List Char) (reads : γ → Option α) (xs : List γ) :
    Prop :=
  ∀ x ∈ xs, ∀ rest, EndsNumber rest → item (text x ++ rest) = (reads x).map fun a => (a, rest)

theorem readItems_joined (each : ReadsEach item text reads xs) (closes : Closes close)
    (some_ : xs ≠ []) {fuel : Nat} (enough : xs.length ≤ fuel) (rest : List Char) :
    readItems item close fuel (joined (xs.map text) ++ close :: rest) =
      (xs.mapM reads).map fun as => (as, rest) := by
  induction xs generalizing fuel with
  | nil => exact absurd rfl some_
  | cons x xs ih =>
    cases fuel with
    | zero => simp at enough
    | succ fuel =>
      have here := each x List.mem_cons_self
      cases xs with
      | nil =>
        have alone : joined ([x].map text) = text x := List.intercalate_singleton
        rw [alone, readItems, here _ (closes.endsNumber rest), List.mapM_cons, List.mapM_nil]
        cases reads x with
        | none => rfl
        | some a => simp [skipSpace_cons _ closes.solid, closes.ne_comma]
      | cons y ys =>
        -- The comma ends the item, and what is behind it is a sequence again.
        have more : joined ((x :: y :: ys).map text) ++ close :: rest =
            text x ++ ',' :: (joined ((y :: ys).map text) ++ close :: rest) := by
          simp [joined, List.intercalate_cons_cons]
        have next := ih (fun z member => each z (List.mem_cons_of_mem x member)) (by simp)
          (Nat.le_of_succ_le_succ enough)
        have comma : isSpace ',' = false := by decide
        rw [more, readItems, here _ (endsNumber_comma _), List.mapM_cons]
        cases reads x with
        | none => rfl
        | some a =>
          simp only [Option.map_some, Option.bind_eq_bind, Option.bind_some,
            skipSpace_cons _ comma, if_true, next]
          cases (y :: ys).mapM reads <;> rfl

theorem length_le_joined (ts : List (List Char)) : ts.length ≤ (joined ts).length + 1 := by
  induction ts with
  | nil => exact Nat.zero_le _
  | cons t ts ih =>
    cases ts with
    | nil => simp
    | cons t' ts =>
      simp only [joined, List.intercalate_cons_cons, List.length_append, List.length_cons] at ih ⊢
      omega

/-- What is written of an item begins with neither a space nor a closing bracket. -/
def Begins (text : List Char) : Prop :=
  ∃ c rest, text = c :: rest ∧ isSpace c = false ∧ c ≠ ']' ∧ c ≠ '\x7d'

theorem readSeq_joined (each : ReadsEach item text reads xs) (closes : Closes close)
    (begins : ∀ x ∈ xs, Begins (text x)) (rest : List Char) :
    readSeq item close (joined (xs.map text) ++ close :: rest) =
      (xs.mapM reads).map fun as => (as, rest) := by
  cases xs with
  | nil => simp [readSeq, joined, skipSpace_cons _ closes.solid]
  | cons x xs =>
    obtain ⟨c, behind, first, solid, notSquare, notCurly⟩ := begins x List.mem_cons_self
    obtain ⟨whole, shape⟩ : ∃ whole, joined ((x :: xs).map text) ++ close :: rest = c :: whole := by
      cases xs with
      | nil => exact ⟨behind ++ close :: rest, by simp [joined, first]⟩
      | cons y ys =>
        rw [List.map_cons, List.map_cons, joined, List.intercalate_cons_cons, first]
        exact ⟨_, rfl⟩
    -- An item never begins like the end of a sequence.
    have open_ : (skipSpace (joined ((x :: xs).map text) ++ close :: rest)).head? ≠ some close := by
      rw [shape, skipSpace_cons _ solid]
      rcases closes with rfl | rfl
      · simpa using notSquare
      · simpa using notCurly
    have enough := length_le_joined ((x :: xs).map text)
    rw [readSeq, if_neg open_]
    apply readItems_joined each closes (by simp)
    simp only [List.length_map, List.length_append, List.length_cons] at enough ⊢
    omega

theorem readField_written {value : Reader α} {v : List Char} {w : Option α} {rest : List Char}
    (read : value (v ++ rest) = w.map fun a => (a, rest)) (key : String) :
    readField value (writeString key ++ ':' :: v ++ rest) =
      w.map fun a => ((key, a), rest) := by
  have quote : isSpace '\x22' = false := by decide
  have colon : isSpace ':' = false := by decide
  have text : writeString key ++ ':' :: v ++ rest =
      '\x22' :: (key.toList.flatMap escape ++ '\x22' :: ':' :: (v ++ rest)) := by
    simp [writeString]
  simp only [text, readField, skipSpace_cons _ quote, readString_escaped, Option.bind_eq_bind,
    Option.bind_some, skipSpace_cons _ colon, read]
  cases w <;> rfl

/-- Fields of different names all stay. -/
theorem ofFields_distinct {fields : List (String × α)}
    (distinct : (fields.map Prod.fst).Nodup) : ofFields fields = fields := by
  have after : ∀ before : List (String × α), ((before ++ fields).map Prod.fst).Nodup →
      fields.foldl insertField before = before ++ fields := by
    clear distinct
    induction fields with
    | nil => simp
    | cons f fields ih =>
      intro before distinct
      have absent : f.1 ∉ before.map Prod.fst := by
        rw [List.map_append, List.map_cons, List.nodup_append] at distinct
        exact fun member => distinct.2.2 _ member _ List.mem_cons_self rfl
      have regrouped : before ++ f :: fields = before ++ [f] ++ fields := by simp
      rw [List.foldl_cons, insertField, if_neg absent, regrouped]
      apply ih
      rwa [← regrouped]
  exact after [] distinct

end Sequences

/-! ### Values -/

variable (floats : Floats F)

/-- What reading makes of a value that is written, its parts being for `inner`. -/
def rereadWith (inner : Option (Json F → Option (Json F))) : Json F → Option (Json F)
  | float f => (floats.read (floats.write f)).map float
  | arr es => inner.bind fun part => (es.mapM part).map arr
  | obj fields =>
    inner.bind fun part =>
      (fields.mapM fun f => (part f.2).map fun v => (f.1, v)).map fun fs => obj (ofFields fs)
  | v => some v

def reread : Nat → Json F → Option (Json F)
  | 0 => rereadWith floats none
  | limit + 1 => rereadWith floats (some (reread limit))

variable {floats}

theorem digit_plain {c : Char} (digit : c.isDigit = true) :
    isSpace c = false ∧ c ≠ '\x22' ∧ c ≠ '[' ∧ c ≠ '\x7b' ∧ c ≠ ']' ∧ c ≠ '\x7d' := by
  refine ⟨?_, ?_, ?_, ?_, ?_, ?_⟩
  · simp only [isSpace, Bool.or_eq_false_iff, decide_eq_false_iff_not]
    refine ⟨⟨⟨?_, ?_⟩, ?_⟩, ?_⟩ <;> rintro rfl <;> exact absurd digit (by decide)
  all_goals
    rintro rfl
    exact absurd digit (by decide)

theorem startsNumber_plain {c : Char} (starts : startsNumber c = true) :
    isSpace c = false ∧ c ≠ '\x22' ∧ c ≠ '[' ∧ c ≠ '\x7b' ∧ c ≠ ']' ∧ c ≠ '\x7d' := by
  simp only [startsNumber, Bool.or_eq_true, decide_eq_true_eq] at starts
  rcases starts with digit | rfl
  · exact digit_plain digit
  · decide

/-- A run of number characters is read as a number, whatever may stand inside. -/
theorem readWith_number {inner : Option (Reader (Json F))} {c : Char} {run rest : List Char}
    (starts : startsNumber c = true) (chars : ∀ d ∈ c :: run, isNumberChar d = true)
    (ends : EndsNumber rest) :
    readWith floats inner (c :: run ++ rest) =
      (readNumber floats (c :: run)).map fun v => (v, rest) := by
  obtain ⟨solid, quote, square, curly, -, -⟩ := startsNumber_plain starts
  obtain ⟨took, dropped⟩ := run_append chars ends
  rw [List.cons_append] at took dropped ⊢
  simp only [readWith, skipSpace_cons _ solid, if_neg quote, if_neg square, if_neg curly,
    if_pos starts, took, dropped]

theorem readWith_posInt {inner : Option (Reader (Json F))} (n : UInt64) {rest : List Char}
    (ends : EndsNumber rest) :
    readWith floats inner ((posInt n).write floats ++ rest) = some (posInt n, rest) := by
  obtain ⟨c, ds, digits, digit⟩ := toDigits_begins n.toNat
  have chars : ∀ d ∈ c :: ds, isNumberChar d = true := fun d member =>
    isNumberChar_digit (isDigit_of_mem (n := n.toNat) (digits ▸ member))
  have read : readInteger (F := F) (c :: ds) = some (posInt n) := digits ▸ readInteger_posInt n
  have text : (posInt n).write floats = c :: ds := digits
  rw [text, readWith_number (by simp [startsNumber, digit]) chars ends, readNumber, read]
  rfl

theorem readWith_negInt {inner : Option (Reader (Json F))} (n : Fin (2 ^ 63)) {rest : List Char}
    (ends : EndsNumber rest) :
    readWith floats inner ((negInt n).write floats ++ rest) = some (negInt n, rest) := by
  have chars : ∀ d ∈ '-' :: Nat.toDigits 10 (n + 1), isNumberChar d = true := by
    intro d member
    rcases List.mem_cons.mp member with rfl | digit
    · decide
    · exact isNumberChar_digit (isDigit_of_mem digit)
  have text : (negInt n).write floats = '-' :: Nat.toDigits 10 (n + 1) := rfl
  rw [text, readWith_number (by decide) chars ends, readNumber, readInteger_negInt]
  rfl

theorem readWith_float {inner : Option (Reader (Json F))} (f : F) {rest : List Char}
    (ends : EndsNumber rest) :
    readWith floats inner ((float f).write floats ++ rest) =
      ((floats.read (floats.write f)).map float).map fun v => (v, rest) := by
  obtain ⟨c, first, starts⟩ := floats.begins f
  have chars := floats.chars f
  have noInteger := readInteger_marked (F := F) (floats.marked f)
  have text : (float f).write floats = floats.write f := rfl
  rw [text]
  cases written : floats.write f with
  | nil => simp [written] at first
  | cons c' run =>
    obtain rfl : c' = c := by simpa [written] using first
    rw [written] at chars noInteger
    rw [readWith_number starts chars ends, readNumber, noInteger]

theorem readWith_word {inner : Option (Reader (Json F))} (rest : List Char) :
    readWith floats inner ("null".toList ++ rest) = some (null, rest) ∧
      readWith floats inner ("true".toList ++ rest) = some (bool true, rest) ∧
      readWith floats inner ("false".toList ++ rest) = some (bool false, rest) := by
  have solid : isSpace 'n' = false ∧ isSpace 't' = false ∧ isSpace 'f' = false := by decide
  have noNumber : startsNumber 'n' = false ∧ startsNumber 't' = false ∧
      startsNumber 'f' = false := by decide
  refine ⟨?_, ?_, ?_⟩
  · simp [readWith, skipSpace_cons _ solid.1, noNumber.1, readWord, skip]
  · simp [readWith, skipSpace_cons _ solid.2.1, noNumber.2.1, readWord, skip]
  · simp [readWith, skipSpace_cons _ solid.2.2, noNumber.2.2, readWord, skip]

theorem readWith_str {inner : Option (Reader (Json F))} (s : String) (rest : List Char) :
    readWith floats inner ((str s).write floats ++ rest) = some (str s, rest) := by
  have quote : isSpace '\x22' = false := by decide
  have text : (str s).write floats ++ rest =
      '\x22' :: (s.toList.flatMap escape ++ '\x22' :: rest) := by
    simp [write, fold, writeString]
  simp [text, readWith, skipSpace_cons _ quote, readString_escaped]

theorem write_begins (v : Json F) : Begins (v.write floats) := by
  -- A digit or a minus sign is neither blank nor a bracket.
  have number : ∀ {c : Char} {run : List Char}, startsNumber c = true → Begins (c :: run) := by
    intro c run starts
    obtain ⟨solid, -, -, -, square, curly⟩ := startsNumber_plain starts
    exact ⟨c, run, rfl, solid, square, curly⟩
  cases v with
  | null => exact ⟨'n', "ull".toList, rfl, by decide, by decide, by decide⟩
  | bool b =>
    cases b with
    | false => exact ⟨'f', "alse".toList, rfl, by decide, by decide, by decide⟩
    | true => exact ⟨'t', "rue".toList, rfl, by decide, by decide, by decide⟩
  | posInt n =>
    obtain ⟨c, ds, digits, digit⟩ := toDigits_begins n.toNat
    have text : (posInt n).write floats = c :: ds := digits
    rw [text]
    exact number (by simp [startsNumber, digit])
  | negInt n => exact number (by decide)
  | float f =>
    obtain ⟨c, first, starts⟩ := floats.begins f
    have text : (float f).write floats = floats.write f := rfl
    rw [text]
    cases written : floats.write f with
    | nil => simp [written] at first
    | cons c' run =>
      obtain rfl : c' = c := by simpa [written] using first
      exact number starts
  | str s => exact ⟨'\x22', _, rfl, by decide, by decide, by decide⟩
  | arr es => exact ⟨'[', _, rfl, by decide, by decide, by decide⟩
  | obj fields => exact ⟨'\x7b', _, rfl, by decide, by decide, by decide⟩

theorem readWith_write {inner : Option (Reader (Json F))} {part : Option (Json F → Option (Json F))}
    (both : inner.isSome = part.isSome)
    (each : ∀ value ∈ inner, ∀ back ∈ part, ∀ vs, ReadsEach value (write floats) back vs)
    (v : Json F) {rest : List Char} (ends : EndsNumber rest) :
    readWith floats inner (v.write floats ++ rest) =
      (rereadWith floats part v).map fun w => (w, rest) := by
  cases v with
  | null => exact (readWith_word rest).1
  | bool b =>
    cases b with
    | false => exact (readWith_word rest).2.2
    | true => exact (readWith_word rest).2.1
  | posInt n => exact readWith_posInt n ends
  | negInt n => exact readWith_negInt n ends
  | float f => exact readWith_float f ends
  | str s => exact readWith_str s rest
  | arr es =>
    have bracket : isSpace '[' = false := by decide
    have text : (arr es).write floats ++ rest =
        '[' :: (joined (es.map (write floats)) ++ ']' :: rest) := by
      rw [write, fold_arr]
      simp
    cases inner with
    -- One level too deep: neither the text nor the value is read.
    | none =>
      obtain rfl : part = none := by simpa using both.symm
      simp [text, readWith, skipSpace_cons _ bracket, rereadWith]
    | some value =>
      obtain ⟨back, rfl⟩ : ∃ back, part = some back := Option.isSome_iff_exists.mp both.symm
      have elements := readSeq_joined (each value rfl back rfl es) (.inl rfl)
        (fun e _ => write_begins e) rest
      simp [text, readWith, skipSpace_cons _ bracket, rereadWith, elements, Option.map_map]
      rfl
  | obj fields =>
    have bracket : isSpace '\x7b' = false := by decide
    have text : (obj fields).write floats ++ rest =
        '\x7b' :: (joined (fields.map fun f => writeString f.1 ++ ':' :: f.2.write floats) ++
          '\x7d' :: rest) := by
      rw [write, fold_obj]
      simp [List.map_map]
      rfl
    cases inner with
    | none =>
      obtain rfl : part = none := by simpa using both.symm
      simp [text, readWith, skipSpace_cons _ bracket, rereadWith]
    | some value =>
      obtain ⟨back, rfl⟩ : ∃ back, part = some back := Option.isSome_iff_exists.mp both.symm
      have field : ReadsEach (readField value)
          (fun f : String × Json F => writeString f.1 ++ ':' :: f.2.write floats)
          (fun f => (back f.2).map fun w => (f.1, w)) fields := by
        intro f _ rest ends
        have here := each value rfl back rfl [f.2] f.2 (List.mem_singleton.mpr rfl) rest ends
        rw [readField_written here, Option.map_map]
        rfl
      have seq := readSeq_joined field (.inr rfl)
        (fun f _ => ⟨'\x22', _, rfl, by decide, by decide, by decide⟩) rest
      simp [text, readWith, skipSpace_cons _ bracket, rereadWith, seq, Option.map_map]
      rfl

/-- What is written can be read back, and `reread` is what comes of it. -/
theorem readValue_write (limit : Nat) (v : Json F) {rest : List Char} (ends : EndsNumber rest) :
    readValue floats limit (v.write floats ++ rest) =
      (reread floats limit v).map fun w => (w, rest) := by
  induction limit generalizing v rest with
  | zero => exact readWith_write rfl (fun _ none_ => by cases none_) v ends
  | succ limit ih =>
    apply readWith_write rfl _ v ends
    rintro value ⟨⟩ back ⟨⟩ vs w - rest ends
    exact ih w ends

theorem parse_write (limit : Nat) (v : Json F) :
    parse floats limit (v.write floats) = reread floats limit v := by
  have ends : EndsNumber [] := fun c member => by cases member
  have read : readValue floats limit (v.write floats ++ []) =
      (reread floats limit v).map fun w => (w, []) := readValue_write limit v ends
  rw [List.append_nil] at read
  rw [parse, read]
  cases reread floats limit v <;> rfl

/-! ### What survives -/

theorem mapM_eq_self {α : Type} {g : α → Option α} {xs : List α} :
    xs.mapM g = some xs ↔ ∀ x ∈ xs, g x = some x := by
  induction xs with
  | nil => simp
  | cons x xs ih =>
    rw [List.mapM_cons, List.forall_mem_cons, ← ih]
    cases g x <;> cases xs.mapM g <;> simp

theorem reread_arr (limit : Nat) (es : List (Json F)) :
    reread floats (limit + 1) (arr es) = (es.mapM (reread floats limit)).map arr := rfl

theorem reread_obj (limit : Nat) (fields : List (String × Json F)) :
    reread floats (limit + 1) (obj fields) =
      (fields.mapM fun f => (reread floats limit f.2).map fun v => (f.1, v)).map
        fun fs => obj (ofFields fs) := rfl

/-- Reading keeps the names of the fields. -/
theorem names_kept {g : Json F → Option (Json F)} {fields fs : List (String × Json F)}
    (read : (fields.mapM fun f => (g f.2).map fun v => (f.1, v)) = some fs) :
    fs.map Prod.fst = fields.map Prod.fst := by
  induction fields generalizing fs with
  | nil =>
    obtain rfl : [] = fs := by simpa using read
    rfl
  | cons f fields ih =>
    simp only [List.mapM_cons, Option.bind_eq_bind, Option.bind_eq_some_iff, Option.map_eq_some_iff,
      Option.pure_def, Option.some.injEq] at read
    obtain ⟨_, ⟨v, _, rfl⟩, fs, rest, rfl⟩ := read
    rw [List.map_cons, List.map_cons, ih rest]

/-- A value comes back as it was if it is nested no deeper than the reader follows, and its floats
are those that come back. -/
theorem reread_eq_self {limit : Nat} {v : Json F} (valid : v.Valid) :
    reread floats limit v = some v ↔
      v.depth ≤ limit ∧ ∀ f ∈ v.floats, floats.read (floats.write f) = some f := by
  induction limit generalizing v with
  | zero =>
    cases v with
    | float f => simp [reread, rereadWith, depth, Json.floats, fold]
    | arr es => simp [reread, rereadWith, depth, fold_arr]
    | obj fields => simp [reread, rereadWith, depth, fold_obj]
    | _ => simp [reread, rereadWith, depth, Json.floats, fold]
  | succ limit ih =>
    cases v with
    | float f => simp [reread, rereadWith, depth, Json.floats, fold]
    | arr es =>
      have parts := valid_arr.mp valid
      rw [reread_arr, depth_arr_le]
      simp only [mem_floats_arr, Option.map_eq_some_iff, arr.injEq, exists_eq_right, mapM_eq_self]
      constructor
      · intro each
        refine ⟨fun e member => ((ih (parts e member)).mp (each e member)).1, ?_⟩
        rintro f ⟨e, member, inside⟩
        exact ((ih (parts e member)).mp (each e member)).2 f inside
      · rintro ⟨shallow, exact_⟩ e member
        have inner : ∀ f ∈ e.floats, floats.read (floats.write f) = some f :=
          fun f inside => exact_ f ⟨e, member, inside⟩
        exact (ih (parts e member)).mpr ⟨shallow e member, inner⟩
    | obj fields =>
      obtain ⟨distinct, parts⟩ := valid_obj.mp valid
      have same : reread floats (limit + 1) (obj fields) = some (obj fields) ↔
          (fields.mapM fun f => (reread floats limit f.2).map fun v => (f.1, v)) = some fields := by
        rw [reread_obj, Option.map_eq_some_iff]
        constructor
        · rintro ⟨fs, read, eq⟩
          -- No field takes the place of another, the names being distinct still.
          have kept := names_kept read
          rw [ofFields_distinct (kept ▸ distinct)] at eq
          rwa [obj.inj eq] at read
        · exact fun read => ⟨fields, read, by rw [ofFields_distinct distinct]⟩
      have field : ∀ f : String × Json F,
          (reread floats limit f.2).map (fun v => (f.1, v)) = some f ↔
            reread floats limit f.2 = some f.2 := by
        intro f
        rw [Option.map_eq_some_iff]
        constructor
        · rintro ⟨v, read, eq⟩
          rw [read, ← eq]
        · exact fun read => ⟨f.2, read, rfl⟩
      rw [same, mapM_eq_self, depth_obj_le]
      simp only [mem_floats_obj, field]
      constructor
      · intro each
        refine ⟨fun f member => ((ih (parts f member)).mp (each f member)).1, ?_⟩
        rintro x ⟨f, member, inside⟩
        exact ((ih (parts f member)).mp (each f member)).2 x inside
      · rintro ⟨shallow, exact_⟩ f member
        have inner : ∀ x ∈ f.2.floats, floats.read (floats.write x) = some x :=
          fun x inside => exact_ x ⟨f, member, inside⟩
        exact (ih (parts f member)).mpr ⟨shallow f member, inner⟩
    | _ => simp [reread, rereadWith, depth, Json.floats, fold]

end Json

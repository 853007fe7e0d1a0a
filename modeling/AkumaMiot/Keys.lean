import AkumaMiot.Lib.Numerals
import AkumaMiot.Primitives
import Mathlib.Data.Vector.Basic

/-!
# Accounts in hex

An account is shown as 64 hex digits. The reader counts bytes, cuts the text into pairs of bytes
and gives each to the parser of integers, so that it panics where a cut goes through a character and
takes a plus sign for a digit.
-/
namespace AkumaMiot

open Numerals

/-- An ed25519 public key. -/
abbrev AccountId32 := List.Vector UInt8 32

inductive KeyError
  | notEd25519
  | malformed (what : String)
deriving DecidableEq, Repr

namespace Keys

/-! ## Texts by their bytes -/

/-- `str::len`. -/
def byteLen (cs : List Char) : Nat := (cs.map Char.utf8Size).sum

/-- `&s[n..]`. -/
def dropBytes : Nat → List Char → Option (List Char)
  | 0, cs => some cs
  | _ + 1, [] => none
  | n + 1, c :: cs => if c.utf8Size ≤ n + 1 then dropBytes (n + 1 - c.utf8Size) cs else none

/-- `&s[..n]`. -/
def takeBytes : Nat → List Char → Option (List Char)
  | 0, _ => some []
  | _ + 1, [] => none
  | n + 1, c :: cs =>
    if c.utf8Size ≤ n + 1 then (takeBytes (n + 1 - c.utf8Size) cs).map (c :: ·) else none

/-- `&s[start..stop]`, which panics beyond the end and inside a character. -/
def slice (cs : List Char) (start stop : Nat) : Option (List Char) :=
  (dropBytes start cs).bind (takeBytes (stop - start))

/-- `trim_start_matches("0x")`. -/
def dropZeroX : List Char → List Char
  | '0' :: 'x' :: cs => dropZeroX cs
  | cs => cs

/-! ## The two directions -/

/-- `{:02x}`. -/
def hexOf (byte : UInt8) : List Char := pad 2 (Nat.toDigits 16 byte.toNat)

def toHex (a : AccountId32) : String := String.ofList (a.toList.flatMap hexOf)

/-- One round of the loop; `none` is a panic. -/
def readByte (cs : List Char) (i : Nat) : ExceptT KeyError Option UInt8 := do
  let pair ← slice cs (i * 2) (i * 2 + 2)
  match fromStrRadix 16 (2 ^ 8) pair with
  | some byte => pure (UInt8.ofNat byte)
  | none => throw (.malformed "account hex is not valid hex")

/-- The loop over `out`, from its byte `i` on. -/
def readBytes (cs : List Char) : Nat → (n : Nat) → ExceptT KeyError Option (List.Vector UInt8 n)
  | _, 0 => pure .nil
  | i, n + 1 => do
    let byte ← readByte cs i
    let rest ← readBytes cs (i + 1) n
    pure (byte ::ᵥ rest)

/-- What is left of a request's field. -/
def stripped (s : String) : List Char := dropZeroX (trim s.toList)

def fromHex (s : String) : ExceptT KeyError Option AccountId32 :=
  let cs := stripped s
  if byteLen cs ≠ 64 then throw (.malformed "account hex must be exactly 32 bytes")
  else readBytes cs 0 32

/-! ## Pairs -/

/-- What two characters are read as. -/
def pairValue (a b : Char) : Option UInt8 := (fromStrRadix 16 (2 ^ 8) [a, b]).map UInt8.ofNat

/-- What the characters are read as, two at a time. -/
def decode : List Char → Option (List UInt8)
  | [] => some []
  | [_] => none
  | a :: b :: cs => (pairValue a b).bind fun byte => (decode cs).map (byte :: ·)

def HexDigit (c : Char) : Prop := (toDigit 16 c).isSome

/-- Pairs of hex digits, where a plus sign may stand for the first of a pair. -/
def Paired : List Char → Prop
  | [] => True
  | [_] => False
  | a :: b :: cs => (a = '+' ∨ HexDigit a) ∧ HexDigit b ∧ Paired cs

/-- Two bytes from the start is inside a character. -/
def Cut : List Char → Prop
  | [] => False
  | [a] => 2 < a.utf8Size
  | a :: b :: _ => 2 < a.utf8Size ∨ (a.utf8Size = 1 ∧ 1 < b.utf8Size)

/-- Some way into the text a pair goes through a character, and all before it are read. -/
def Broken (cs : List Char) : Prop := ∃ front back, cs = front ++ back ∧ Paired front ∧ Cut back

/-! ## Cuts -/

theorem byteLen_append (front back : List Char) :
    byteLen (front ++ back) = byteLen front + byteLen back := by
  simp [byteLen]

theorem byteLen_cons (c : Char) (cs : List Char) : byteLen (c :: cs) = c.utf8Size + byteLen cs := by
  simp [byteLen]

theorem dropBytes_append (front back : List Char) :
    dropBytes (byteLen front) (front ++ back) = some back := by
  induction front with
  | nil =>
    cases back <;> rfl
  | cons c front ih =>
    obtain ⟨m, size⟩ := Nat.exists_eq_succ_of_ne_zero c.utf8Size_pos.ne'
    rw [byteLen_cons, size, Nat.succ_eq_add_one, Nat.add_right_comm, List.cons_append, dropBytes,
      if_pos (by omega), size]
    rw [show m + byteLen front + 1 - (m + 1) = byteLen front by omega, ih]

theorem slice_at {front back : List Char} {i : Nat} (at_ : byteLen front = i * 2) :
    slice (front ++ back) (i * 2) (i * 2 + 2) = takeBytes 2 back := by
  rw [slice, ← at_, dropBytes_append, Option.bind_some, Nat.add_sub_cancel_left]

/-- What the first two bytes of a text are. -/
theorem takeBytes_two (a : Char) (cs : List Char) : takeBytes 2 (a :: cs) =
    if a.utf8Size = 1 then (cs.head?.filter (·.utf8Size = 1)).map fun b => [a, b]
    else if a.utf8Size = 2 then some [a] else none := by
  have zero : ∀ cs, takeBytes 0 cs = some [] := fun cs => by cases cs <;> rfl
  rcases a.utf8Size_eq with one | two | three | four
  -- One byte: the other is that of the next character, if that has no more.
  · cases cs with
    | nil => simp [takeBytes, one]
    | cons b cs =>
      rcases b.utf8Size_eq with size | size | size | size <;> simp [takeBytes, one, size, zero]
  · simp [takeBytes, two, zero]
  · simp [takeBytes, three]
  · simp [takeBytes, four]

/-! ## Digits and pairs -/

theorem hexDigit_ascii {c : Char} (digit : HexDigit c) : c.toNat < 128 := by
  obtain ⟨d, value⟩ := Option.isSome_iff_exists.mp digit
  have worth := (toDigit_eq_some.mp value).1
  unfold digitValue at worth
  split at worth
  · omega
  · split at worth
    · omega
    · split at worth
      · omega
      · cases worth

theorem utf8Size_ascii {c : Char} (ascii : c.toNat < 128) : c.utf8Size = 1 := by
  rw [Char.utf8Size_eq_one_iff, UInt32.le_iff_toNat_le]
  exact Nat.le_of_lt_succ ascii

/-- A pair of digits is never too large. -/
theorem fromStrRadix_pair (a b : Char) : fromStrRadix 16 (2 ^ 8) [a, b] =
    if a = '+' then toDigit 16 b
    else (toDigit 16 a).bind fun x => (toDigit 16 b).map fun y => x * 16 + y := by
  have less : ∀ {c : Char} {d : Nat}, toDigit 16 c = some d → d < 16 :=
    fun value => (toDigit_eq_some.mp value).2
  by_cases sign : a = '+'
  · cases value : toDigit 16 b with
    | none => simp [fromStrRadix, sign, readDigits, addDigit, value]
    | some y =>
      have := less value
      simp [fromStrRadix, sign, readDigits, addDigit, value]
      omega
  · cases value : toDigit 16 a with
    | none => simp [fromStrRadix, sign, readDigits, addDigit, value]
    | some x =>
      have := less value
      have small : x < 256 := by omega
      cases value' : toDigit 16 b with
      | none => simp [fromStrRadix, sign, readDigits, addDigit, value, value']
      | some y =>
        have := less value'
        simp [fromStrRadix, sign, readDigits, addDigit, value, value', small]
        omega

theorem pairValue_isSome {a b : Char} :
    (pairValue a b).isSome ↔ (a = '+' ∨ HexDigit a) ∧ HexDigit b := by
  rw [pairValue, fromStrRadix_pair, Option.isSome_map]
  split
  next sign => simp [sign, HexDigit]
  next digit =>
    rw [HexDigit, HexDigit]
    cases toDigit 16 a <;> cases toDigit 16 b <;> simp [digit]

theorem sign_not_hex : ¬ HexDigit '+' := by
  rw [HexDigit]
  decide

/-- A digit in lower case is how its value is written. -/
theorem toLower_digit {c : Char} {d : Nat} (value : toDigit 16 c = some d) :
    c.toLower = d.digitChar := by
  -- All digits are ASCII, which are few enough to try.
  have all : ∀ n, n < 128 →
      toDigit 16 (Char.ofNat n) = (toDigit 16 (Char.ofNat n)).filter
        fun d => (Char.ofNat n).toLower = d.digitChar := by decide +kernel
  have here := all c.toNat (hexDigit_ascii (by rw [HexDigit, value]; rfl))
  rw [Char.ofNat_toNat, value] at here
  simpa using (Option.filter_eq_some_iff.mp here.symm).2

theorem hexOf_eq (byte : UInt8) :
    hexOf byte = [(byte.toNat / 16).digitChar, (byte.toNat % 16).digitChar] := by
  have large : byte.toNat < 256 := byte.toNat_lt
  rw [hexOf, Nat.toDigits_eq_if (by decide)]
  split
  next single =>
    rw [Nat.div_eq_of_lt single, Nat.mod_eq_of_lt single]
    rfl
  next double =>
    rw [Nat.toDigits_of_lt_base (by omega)]
    rfl

/-- Two digits are read as the byte they are in lower case. -/
theorem hexOf_pairValue {a b : Char} {byte : UInt8} (unsigned : a ≠ '+')
    (value : pairValue a b = some byte) : hexOf byte = [a.toLower, b.toLower] := by
  rw [pairValue, fromStrRadix_pair, if_neg unsigned] at value
  obtain ⟨n, whole, rfl⟩ := Option.map_eq_some_iff.mp value
  obtain ⟨x, first, rest⟩ := Option.bind_eq_some_iff.mp whole
  obtain ⟨y, second, rfl⟩ := Option.map_eq_some_iff.mp rest
  have less := (toDigit_eq_some.mp first).2
  have less' := (toDigit_eq_some.mp second).2
  have nat : (UInt8.ofNat (x * 16 + y)).toNat = x * 16 + y := by
    rw [UInt8.toNat_ofNat']
    omega
  rw [hexOf_eq, nat, toLower_digit first, toLower_digit second,
    show (x * 16 + y) / 16 = x by omega, show (x * 16 + y) % 16 = y by omega]

theorem pairValue_hexOf (byte : UInt8) :
    pairValue (byte.toNat / 16).digitChar (byte.toNat % 16).digitChar = some byte := by
  have large : byte.toNat < 256 := byte.toNat_lt
  have other : ∀ d, d < 16 → d.digitChar ≠ '+' := by decide
  rw [pairValue, fromStrRadix_pair, if_neg (other _ (by omega)),
    toDigit_digitChar le_rfl (by omega), toDigit_digitChar le_rfl (by omega), Option.bind_some,
    Option.map_some, Option.map_some, Nat.div_add_mod', UInt8.ofNat_toNat]

/-! ## Texts of pairs -/

theorem decode_isSome {cs : List Char} : (decode cs).isSome ↔ Paired cs := by
  induction cs using decode.induct with
  | case1 => simp [decode, Paired]
  | case2 => simp [decode, Paired]
  | case3 a b cs ih =>
    rw [decode, Paired, ← ih, ← and_assoc, ← pairValue_isSome]
    cases pairValue a b <;> simp

theorem decode_hexOf (bytes : List UInt8) : decode (bytes.flatMap hexOf) = some bytes := by
  induction bytes with
  | nil => rfl
  | cons byte bytes ih =>
    rw [List.flatMap_cons, hexOf_eq, List.cons_append, List.cons_append, List.nil_append, decode,
      pairValue_hexOf, ih]
    rfl

theorem hexOf_decode {cs : List Char} {bytes : List UInt8} (unsigned : '+' ∉ cs)
    (value : decode cs = some bytes) : bytes.flatMap hexOf = cs.map Char.toLower := by
  induction cs using decode.induct generalizing bytes with
  | case1 =>
    cases value
    rfl
  | case2 => cases value
  | case3 a b cs ih =>
    obtain ⟨byte, first, rest⟩ := Option.bind_eq_some_iff.mp value
    obtain ⟨bytes, others, rfl⟩ := Option.map_eq_some_iff.mp rest
    have bare : a ≠ '+' := by
      rintro rfl
      simp at unsigned
    rw [List.flatMap_cons, hexOf_pairValue bare first,
      ih (fun sign => unsigned (by simp [sign])) others]
    rfl

/-! ## The loop -/

theorem pairValue_ascii {a b : Char} (value : (pairValue a b).isSome) :
    a.utf8Size = 1 ∧ b.utf8Size = 1 := by
  obtain ⟨first, second⟩ := pairValue_isSome.mp value
  refine ⟨?_, utf8Size_ascii (hexDigit_ascii second)⟩
  rcases first with rfl | digit
  · rfl
  · exact utf8Size_ascii (hexDigit_ascii digit)

/-- A text is cut at its first pair or, if that is read, at a later one. -/
theorem broken_cons {a b : Char} {cs : List Char} :
    Broken (a :: b :: cs) ↔ Cut (a :: b :: cs) ∨ ((pairValue a b).isSome ∧ Broken cs) := by
  constructor
  · rintro ⟨front, back, whole, paired, cut⟩
    cases front with
    | nil => exact .inl (by rw [whole]; exact cut)
    | cons x front =>
      cases front with
      | nil => cases paired
      | cons y front =>
        simp only [List.cons_append, List.cons.injEq] at whole
        obtain ⟨rfl, rfl, rest⟩ := whole
        obtain ⟨first, second, paired⟩ := paired
        exact .inr ⟨pairValue_isSome.mpr ⟨first, second⟩, front, back, rest, paired, cut⟩
  · rintro (cut | ⟨value, front, back, rfl, paired, cut⟩)
    · exact ⟨[], _, rfl, trivial, cut⟩
    · obtain ⟨first, second⟩ := pairValue_isSome.mp value
      exact ⟨a :: b :: front, back, rfl, ⟨first, second, paired⟩, cut⟩

theorem broken_single {a : Char} : Broken [a] ↔ Cut [a] := by
  constructor
  · rintro ⟨front, back, whole, paired, cut⟩
    cases front with
    | nil => exact (by rw [whole]; exact cut)
    | cons x front =>
      cases front with
      | nil => cases paired
      | cons y front => cases (List.cons.inj whole).2
  · exact fun cut => ⟨[], _, rfl, trivial, cut⟩

theorem not_broken_nil : ¬ Broken [] := by
  rintro ⟨front, back, whole, _, cut⟩
  obtain ⟨_, rfl⟩ := List.append_eq_nil_iff.mp whole.symm
  exact cut

theorem readByte_at {front rest : List Char} {i : Nat} (at_ : byteLen front = i * 2) :
    (readByte (front ++ rest) i).run = (takeBytes 2 rest).map fun pair =>
      match fromStrRadix 16 (2 ^ 8) pair with
      | some byte => .ok (UInt8.ofNat byte)
      | none => .error (.malformed "account hex is not valid hex") := by
  rw [readByte, slice_at at_]
  cases takeBytes 2 rest with
  | none => rfl
  | some pair =>
    change ExceptT.run (match fromStrRadix 16 (2 ^ 8) pair with
      | some byte => pure (UInt8.ofNat byte)
      | none => throw _) = _
    rw [Option.map_some]
    cases fromStrRadix 16 (2 ^ 8) pair <;> rfl

/-- A pair that goes through a character. -/
theorem readByte_cut {front rest : List Char} {i : Nat} (at_ : byteLen front = i * 2)
    (cut : Cut rest) : (readByte (front ++ rest) i).run = none := by
  have none_ : takeBytes 2 rest = none := by
    cases rest with
    | nil => cases cut
    | cons a rest =>
      rw [takeBytes_two]
      cases rest with
      | nil =>
        have wide : 2 < a.utf8Size := cut
        rw [if_neg (by omega), if_neg (by omega)]
      | cons b rest =>
        rcases cut with wide | ⟨one, wide⟩
        · rw [if_neg (by omega), if_neg (by omega)]
        · rw [if_pos one, List.head?_cons, Option.filter_some, if_neg (by simpa using wide.ne')]
          rfl
  rw [readByte_at at_, none_]
  rfl

/-- A pair that is read. -/
theorem readByte_read {front rest : List Char} {i : Nat} {a b : Char} {byte : UInt8}
    (at_ : byteLen front = i * 2) (value : pairValue a b = some byte) :
    (readByte (front ++ a :: b :: rest) i).run = some (.ok byte) := by
  obtain ⟨one, one'⟩ := pairValue_ascii (by rw [value]; rfl)
  obtain ⟨n, read, rfl⟩ := Option.map_eq_some_iff.mp value
  rw [readByte_at at_, takeBytes_two, if_pos one, List.head?_cons, Option.filter_some,
    if_pos (by simpa using one')]
  simp only [Option.map_some, read]

/-- A pair that is none of digits. -/
theorem readByte_refused {front rest : List Char} {i : Nat} {a : Char}
    (at_ : byteLen front = i * 2) (whole : ¬ Cut (a :: rest)) (long : 2 ≤ byteLen (a :: rest))
    (unread : ∀ b ∈ rest.head?, pairValue a b = none) :
    ∃ e, (readByte (front ++ a :: rest) i).run = some (.error e) := by
  have pos := a.utf8Size_pos
  rw [readByte_at at_, takeBytes_two]
  -- Two bytes are cut out here: two narrow characters, or one of two bytes, which is no digit.
  by_cases one : a.utf8Size = 1
  · cases rest with
    | nil =>
      simp [byteLen, one] at long
    | cons b rest =>
      have narrow : b.utf8Size = 1 := by
        have := b.utf8Size_pos
        by_contra wide
        exact whole (.inr ⟨one, by omega⟩)
      have none_ := Option.map_eq_none_iff.mp (unread b rfl)
      rw [if_pos one, List.head?_cons, Option.filter_some, if_pos (by simpa using narrow)]
      simp only [Option.map_some, none_]
      exact ⟨_, rfl⟩
  · have two : a.utf8Size = 2 := by
      by_contra other
      refine whole ?_
      cases rest with
      | nil => exact (by omega : 2 < a.utf8Size)
      | cons b rest => exact .inl (by omega)
    -- The one sign the parser of numbers allows is of one byte.
    have sign : a ≠ '+' := by
      rintro rfl
      exact one rfl
    have digit : toDigit 16 a = none := by
      rw [← Option.not_isSome_iff_eq_none]
      exact fun digit => one (utf8Size_ascii (hexDigit_ascii digit))
    have none_ : fromStrRadix 16 (2 ^ 8) [a] = none := by
      simp [fromStrRadix, sign, readDigits, addDigit, digit]
    rw [if_neg one, if_pos two]
    simp only [Option.map_some, none_]
    exact ⟨_, rfl⟩

theorem readBytes_succ (cs : List Char) (i n : Nat) : (readBytes cs i (n + 1)).run =
    match (readByte cs i).run with
    | none => none
    | some (.error e) => some (.error e)
    | some (.ok byte) => (readBytes cs (i + 1) n).run.map fun r => r.map (byte ::ᵥ ·) := by
  rw [readBytes, ExceptT.run_bind]
  cases (readByte cs i).run with
  | none => rfl
  | some first =>
    cases first with
    | error e => rfl
    | ok byte =>
      cases rest : (readBytes cs (i + 1) n).run with
      | none => simp [rest]
      | some r => cases r <;> simp [rest, Except.map]

/-- Where a pair goes through a character it is no pair of digits. -/
theorem decode_cut {cs : List Char} (cut : Cut cs) : decode cs = none := by
  rw [← Option.not_isSome_iff_eq_none]
  intro value
  cases cs with
  | nil => cases cut
  | cons a cs =>
    cases cs with
    | nil => cases value
    | cons b cs =>
      have paired := decode_isSome.mp value
      obtain ⟨one, one'⟩ := pairValue_ascii (pairValue_isSome.mpr ⟨paired.1, paired.2.1⟩)
      rcases cut with wide | ⟨_, wide⟩ <;> omega

/-- The loop panics where the text is broken, and else gives what the pairs are read as, if all
are. -/
theorem readBytes_spec {n i : Nat} {front rest : List Char} (at_ : byteLen front = i * 2)
    (left : byteLen rest = n * 2) :
    ((readBytes (front ++ rest) i n).run = none ↔ Broken rest) ∧
    ∀ bytes, (readBytes (front ++ rest) i n).run = some (.ok bytes) ↔
      decode rest = some bytes.toList := by
  -- On the bytes still to be read; what was read is `front`.
  induction n generalizing i front rest with
  | zero =>
    cases rest with
    | nil =>
      refine ⟨⟨fun none_ => (by cases none_), fun broken => absurd broken not_broken_nil⟩, ?_⟩
      intro bytes
      rw [List.Vector.eq_nil bytes]
      exact ⟨fun _ => rfl, fun _ => rfl⟩
    | cons a rest =>
      rw [byteLen_cons] at left
      have := a.utf8Size_pos
      omega
  | succ n ih =>
    cases rest with
    | nil => simp [byteLen] at left
    | cons a rest =>
      by_cases cut : Cut (a :: rest)
      · have broken : Broken (a :: rest) := ⟨[], _, rfl, trivial, cut⟩
        rw [readBytes_succ, readByte_cut at_ cut, decode_cut cut]
        simp [broken]
      · have refused : (∀ b ∈ rest.head?, pairValue a b = none) →
            ∃ e, (readBytes (front ++ a :: rest) i (n + 1)).run = some (.error e) := by
          intro unread
          obtain ⟨e, first⟩ := readByte_refused at_ cut (by omega) unread
          exact ⟨e, by rw [readBytes_succ, first]⟩
        cases rest with
        | nil =>
          obtain ⟨e, run⟩ := refused (by simp)
          rw [run, broken_single]
          simp [cut, decode]
        | cons b rest =>
          rw [broken_cons, or_iff_right cut, decode]
          cases value : pairValue a b with
          | none =>
            obtain ⟨e, run⟩ := refused (by simpa using value)
            simp [run]
          | some byte =>
            obtain ⟨one, one'⟩ := pairValue_ascii (by rw [value]; rfl)
            have passed : byteLen (front ++ [a, b]) = (i + 1) * 2 := by
              rw [byteLen_append, at_]
              simp [byteLen, one, one']
              omega
            have left' : byteLen rest = n * 2 := by
              simp [byteLen_cons, one, one'] at left
              omega
            obtain ⟨panics, parsed⟩ := ih passed left'
            rw [List.append_assoc] at panics parsed
            rw [readBytes_succ, readByte_read at_ value]
            refine ⟨by simpa using panics, fun bytes => ?_⟩
            obtain ⟨first, others, rfl⟩ := bytes.exists_eq_cons
            rw [Option.bind_some, Option.map_eq_some_iff, Option.map_eq_some_iff,
              List.Vector.toList_cons]
            constructor
            · rintro ⟨r, run, same⟩
              cases r with
              | error e => cases same
              | ok bytes =>
                have same := congrArg List.Vector.toList (Except.ok.inj same)
                rw [List.Vector.toList_cons, List.Vector.toList_cons] at same
                exact ⟨bytes.toList, (parsed bytes).mp run, same⟩
            · rintro ⟨bytes, decoded, same⟩
              obtain ⟨rfl, rfl⟩ := List.cons.inj same
              exact ⟨.ok others, (parsed others).mpr decoded, rfl⟩

/-! ## Accounts -/

/-- 64 hex digits. -/
def Hex64 (cs : List Char) : Prop := cs.length = 64 ∧ ∀ c ∈ cs, HexDigit c

theorem paired_iff {cs : List Char} : Paired cs ∧ '+' ∉ cs ↔
    (∃ n, cs.length = n * 2) ∧ ∀ c ∈ cs, HexDigit c := by
  induction cs using decode.induct with
  | case1 => exact ⟨fun _ => ⟨⟨0, rfl⟩, by simp⟩, fun _ => ⟨trivial, by simp⟩⟩
  | case2 a =>
    constructor
    · exact fun h => h.1.elim
    · rintro ⟨⟨n, single⟩, _⟩
      rw [List.length_singleton] at single
      omega
  | case3 a b cs ih =>
    constructor
    · rintro ⟨⟨first, second, paired⟩, unsigned⟩
      obtain ⟨⟨n, even⟩, digits⟩ := ih.mp ⟨paired, fun sign => unsigned (by simp [sign])⟩
      have digit : HexDigit a := first.resolve_left fun sign => unsigned (by simp [sign])
      exact ⟨⟨n + 1, by simp [even]; omega⟩, by simp [digit, second]; exact digits⟩
    · rintro ⟨⟨n, even⟩, digits⟩
      have rest : ∀ c ∈ cs, HexDigit c := fun c member => digits c (by simp [member])
      obtain ⟨paired, unsigned⟩ := ih.mpr ⟨⟨n - 1, by simp at even; omega⟩, rest⟩
      refine ⟨⟨.inr (digits a (by simp)), digits b (by simp), paired⟩, fun sign => ?_⟩
      exact sign_not_hex (digits '+' sign)

theorem byteLen_ascii {cs : List Char} (ascii : ∀ c ∈ cs, c.utf8Size = 1) :
    byteLen cs = cs.length := by
  induction cs with
  | nil => rfl
  | cons c cs ih =>
    rw [byteLen_cons, ascii c (by simp), ih fun c member => ascii c (by simp [member]),
      List.length_cons, Nat.add_comm]

theorem hex64_iff {cs : List Char} : Hex64 cs ↔ byteLen cs = 64 ∧ Paired cs ∧ '+' ∉ cs := by
  rw [paired_iff]
  have len : (∀ c ∈ cs, HexDigit c) → byteLen cs = cs.length := fun digits =>
    byteLen_ascii fun c member => utf8Size_ascii (hexDigit_ascii (digits c member))
  constructor
  · rintro ⟨long, digits⟩
    exact ⟨(len digits).trans long, ⟨32, long⟩, digits⟩
  · rintro ⟨long, _, digits⟩
    exact ⟨(len digits).symm.trans long, digits⟩

/-- What is asked of the parser: it answers, it takes just 64 hex digits, and it takes them for the
account that is shown so. -/
def ParsesExactly (s : String) : Prop := ∃ r, (fromHex s).run = some r ∧
  ((∃ a, r = .ok a) ↔ Hex64 (stripped s)) ∧
  ∀ a, r = .ok a → (toHex a).toList = (stripped s).map Char.toLower

/-- 64 bytes that it panics on, or takes with a plus sign for a digit. -/
def Misread (cs : List Char) : Prop :=
  byteLen cs = 64 ∧ (Broken cs ∨ (Paired cs ∧ '+' ∈ cs))

theorem fromHex_spec (s : String) (long : byteLen (stripped s) = 64) :
    ((fromHex s).run = none ↔ Broken (stripped s)) ∧
    ∀ a, (fromHex s).run = some (.ok a) ↔ decode (stripped s) = some a.toList := by
  have start : byteLen [] = 0 * 2 := rfl
  have whole : byteLen (stripped s) = 32 * 2 := long
  have loop := readBytes_spec start whole
  rw [fromHex, if_neg (by simpa using long)]
  exact loop

theorem dropZeroX_plain {cs : List Char} (plain : 'x' ∉ cs) : dropZeroX cs = cs := by
  unfold dropZeroX
  split
  · simp at plain
  · rfl

/-- Nothing is taken off an account as it is shown, however many zeros it begins with. -/
theorem stripped_toHex (a : AccountId32) : stripped (toHex a) = a.toList.flatMap hexOf := by
  have digits : ∀ c ∈ a.toList.flatMap hexOf, ∃ d, d < 16 ∧ c = d.digitChar := by
    intro c member
    obtain ⟨byte, _, there⟩ := List.mem_flatMap.mp member
    have large : byte.toNat < 256 := byte.toNat_lt
    rw [hexOf_eq] at there
    simp only [List.mem_cons, List.not_mem_nil, or_false] at there
    rcases there with rfl | rfl
    · exact ⟨_, by omega, rfl⟩
    · exact ⟨_, by omega, rfl⟩
  have other : ∀ d, d < 16 → 'x' ≠ d.digitChar := by decide
  rw [stripped, toHex, String.toList_ofList, trim_plain, dropZeroX_plain]
  · intro member
    obtain ⟨d, less, same⟩ := digits 'x' member
    exact other d less same
  · intro c member
    obtain ⟨d, less, rfl⟩ := digits c member
    exact digitChar_plain less

theorem byteLen_hexOf (bytes : List UInt8) : byteLen (bytes.flatMap hexOf) = bytes.length * 2 := by
  have one : ∀ d, d < 16 → d.digitChar.utf8Size = 1 := by decide
  induction bytes with
  | nil => rfl
  | cons byte bytes ih =>
    have large : byte.toNat < 256 := byte.toNat_lt
    rw [List.flatMap_cons, byteLen_append, ih, hexOf_eq, byteLen_cons, byteLen_cons,
      one _ (by omega), one _ (by omega), List.length_cons]
    simp [byteLen]
    omega

theorem fromHex_toHex (a : AccountId32) : (fromHex (toHex a)).run = some (.ok a) := by
  have shown := stripped_toHex a
  refine ((fromHex_spec (toHex a) ?_).2 a).mpr ?_
  · rw [shown, byteLen_hexOf, a.toList_length]
  · rw [shown, decode_hexOf]

theorem decode_byteLen {cs : List Char} {bytes : List UInt8} (value : decode cs = some bytes) :
    byteLen cs = bytes.length * 2 := by
  induction cs using decode.induct generalizing bytes with
  | case1 =>
    cases value
    rfl
  | case2 => cases value
  | case3 a b cs ih =>
    obtain ⟨byte, first, rest⟩ := Option.bind_eq_some_iff.mp value
    obtain ⟨bytes, others, rfl⟩ := Option.map_eq_some_iff.mp rest
    obtain ⟨one, one'⟩ := pairValue_ascii (by rw [first]; rfl)
    rw [byteLen_cons, byteLen_cons, one, one', ih others, List.length_cons]
    omega

/-- 64 bytes are taken exactly when they are pairs. -/
theorem fromHex_paired (s : String) (long : byteLen (stripped s) = 64) :
    (∃ a, (fromHex s).run = some (.ok a)) ↔ Paired (stripped s) := by
  rw [← decode_isSome, Option.isSome_iff_exists]
  constructor
  · rintro ⟨a, run⟩
    exact ⟨_, ((fromHex_spec s long).2 a).mp run⟩
  · rintro ⟨bytes, value⟩
    have count : bytes.length = 32 := by
      have := decode_byteLen value
      omega
    exact ⟨⟨bytes, count⟩, ((fromHex_spec s long).2 _).mpr value⟩

/-- What an account is shown as is always read back; of all texts just those are read exactly that
are not misread. -/
theorem hex_parses (a : AccountId32) (s : String) : (fromHex (toHex a)).run = some (.ok a) ∧
    (ParsesExactly s ↔ ¬ Misread (stripped s)) := by
  refine ⟨fromHex_toHex a, ?_⟩
  by_cases long : byteLen (stripped s) = 64
  · obtain ⟨panics, parsed⟩ := fromHex_spec s long
    have takes := fromHex_paired s long
    constructor
    -- A broken text panics; one with a plus sign is taken and should not be.
    · rintro ⟨r, run, exactly, _⟩ ⟨_, broken | ⟨paired, sign⟩⟩
      · rw [panics.mpr broken] at run
        cases run
      · obtain ⟨a, taken⟩ := takes.mpr paired
        have same : r = .ok a := Option.some.inj (run.symm.trans taken)
        exact (hex64_iff.mp (exactly.mp ⟨a, same⟩)).2.2 sign
    · intro fine
      obtain ⟨r, run⟩ := Option.ne_none_iff_exists'.mp
        fun none_ => fine ⟨long, .inl (panics.mp none_)⟩
      have unsigned : Paired (stripped s) → '+' ∉ stripped s :=
        fun paired sign => fine ⟨long, .inr ⟨paired, sign⟩⟩
      refine ⟨r, run, ⟨?_, ?_⟩, ?_⟩
      · rintro ⟨a, rfl⟩
        have paired := takes.mp ⟨a, run⟩
        exact hex64_iff.mpr ⟨long, paired, unsigned paired⟩
      · intro digits
        obtain ⟨a, taken⟩ := takes.mpr (hex64_iff.mp digits).2.1
        exact ⟨a, Option.some.inj (run.symm.trans taken)⟩
      · rintro a rfl
        have value := (parsed a).mp run
        rw [toHex, String.toList_ofList]
        exact hexOf_decode (unsigned (takes.mp ⟨a, run⟩)) value
  -- Another length is refused, and is not that of 64 digits.
  · have refused : (fromHex s).run =
        some (.error (.malformed "account hex must be exactly 32 bytes")) := by
      rw [fromHex, if_pos long]
      rfl
    refine ⟨fun _ misread => long misread.1, fun _ => ⟨_, refused, ⟨?_, ?_⟩, ?_⟩⟩
    · rintro ⟨a, same⟩
      cases same
    · exact fun digits => absurd (hex64_iff.mp digits).1 long
    · intro a same
      cases same

/-- A plus sign passes for a zero, and a character of two bytes at an odd place is cut. -/
theorem hex_parses_lenient :
    (fromHex "+a+a+a+a+a+a+a+a+a+a+a+a+a+a+a+a+a+a+a+a+a+a+a+a+a+a+a+a+a+a+a+a").run =
      some (.ok (List.Vector.replicate 32 10)) ∧
    (fromHex "aéaaaaaaaaaaaaaaaaaaaaaaaaaaaaaaaaaaaaaaaaaaaaaaaaaaaaaaaaaaaaa").run = none := by
  decide +kernel

end Keys

end AkumaMiot

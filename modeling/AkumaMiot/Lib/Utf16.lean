import AkumaMiot.Lib.Utf8

/-!
# Texts as UTF-16

A text of a language whose strings are units of sixteen bits: a character beyond the first plane is
two of them. Half of such a pair alone is no character, and stands for the replacement character
where a text is wanted.
-/
namespace Utf16

/-- The units of a character. -/
def units (c : Char) : List UInt16 :=
  if c.toNat < 0x10000 then [UInt16.ofNat c.toNat]
  else
    [UInt16.ofNat (0xd800 + (c.toNat - 0x10000) / 1024),
     UInt16.ofNat (0xdc00 + (c.toNat - 0x10000) % 1024)]

def ofString (s : String) : List UInt16 := s.toList.flatMap units

def isLead (u : UInt16) : Bool := 0xd800 ≤ u.toNat && u.toNat < 0xdc00

def isTrail (u : UInt16) : Bool := 0xdc00 ≤ u.toNat && u.toNat < 0xe000

def replacement : Char := Char.ofNat 0xfffd

/-- The characters of a text. -/
def chars : List UInt16 → List Char
  | [] => []
  | [u] => [if isLead u || isTrail u then replacement else Char.ofNat u.toNat]
  | u :: v :: rest =>
    if isLead u then
      if isTrail v then
        Char.ofNat (0x10000 + (u.toNat - 0xd800) * 1024 + (v.toNat - 0xdc00)) :: chars rest
      else replacement :: chars (v :: rest)
    else if isTrail u then replacement :: chars (v :: rest)
    else Char.ofNat u.toNat :: chars (v :: rest)

/-- The UTF-8 of a text. -/
def encode (text : List UInt16) : List UInt8 := Utf8.bytes (String.ofList (chars text))

theorem char_range (c : Char) : c.toNat < 0x110000 ∧ ¬ (0xd800 ≤ c.toNat ∧ c.toNat < 0xe000) := by
  have valid := c.valid
  have value : c.val.toNat = c.toNat := rfl
  simp only [UInt32.isValidChar, Nat.isValidChar, value] at valid
  omega

theorem chars_units (c : Char) (rest : List UInt16) :
    chars (units c ++ rest) = c :: chars rest := by
  obtain ⟨below, outside⟩ := char_range c
  -- A character of the first plane is one unit, which is no surrogate.
  by_cases plane : c.toNat < 0x10000
  · have unit : (UInt16.ofNat c.toNat).toNat = c.toNat := by
      rw [UInt16.toNat_ofNat', Nat.mod_eq_of_lt plane]
    have whole : isLead (UInt16.ofNat c.toNat) = false ∧
        isTrail (UInt16.ofNat c.toNat) = false := by
      simp only [isLead, isTrail, unit, Bool.and_eq_false_iff, decide_eq_false_iff_not]
      omega
    cases rest with
    | nil => simp [units, plane, chars, whole, unit, Char.ofNat_toNat]
    | cons v rest => simp [units, plane, chars, whole, unit, Char.ofNat_toNat]
  · have lead : (UInt16.ofNat (0xd800 + (c.toNat - 0x10000) / 1024)).toNat =
        0xd800 + (c.toNat - 0x10000) / 1024 := by
      rw [UInt16.toNat_ofNat', Nat.mod_eq_of_lt (by omega)]
    have trail : (UInt16.ofNat (0xdc00 + (c.toNat - 0x10000) % 1024)).toNat =
        0xdc00 + (c.toNat - 0x10000) % 1024 := by
      rw [UInt16.toNat_ofNat', Nat.mod_eq_of_lt (by omega)]
    have isLead_ : isLead (UInt16.ofNat (0xd800 + (c.toNat - 0x10000) / 1024)) = true := by
      simp only [isLead, lead, Bool.and_eq_true, decide_eq_true_eq]
      omega
    have isTrail_ : isTrail (UInt16.ofNat (0xdc00 + (c.toNat - 0x10000) % 1024)) = true := by
      simp only [isTrail, trail, Bool.and_eq_true, decide_eq_true_eq]
      omega
    -- The pair gives back what was split.
    have whole : 0x10000 + (0xd800 + (c.toNat - 0x10000) / 1024 - 0xd800) * 1024 +
        (0xdc00 + (c.toNat - 0x10000) % 1024 - 0xdc00) = c.toNat := by omega
    simp only [units, if_neg plane, List.cons_append, List.nil_append, chars, isLead_, isTrail_,
      if_true, lead, trail, whole, Char.ofNat_toNat]

/-- A text is told by its units. -/
theorem chars_ofString (s : String) : chars (ofString s) = s.toList := by
  have each : ∀ cs : List Char, chars (cs.flatMap units) = cs := by
    intro cs
    induction cs with
    | nil => rfl
    | cons c cs ih => rw [List.flatMap_cons, chars_units, ih]
  exact each s.toList

theorem encode_ofString (s : String) : encode (ofString s) = Utf8.bytes s := by
  rw [encode, chars_ofString, String.ofList_toList]

end Utf16

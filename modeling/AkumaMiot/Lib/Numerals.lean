import Mathlib.Algebra.Ring.Nat
import Mathlib.Algebra.Order.Monoid.Unbundled.Basic

/-!
# Numbers as text

Numbers in a base up to sixteen as `Nat.toDigits` writes them, and a reader of the kind that a
standard library has for machine integers: it takes digits of either case, lets a plus sign stand
before them, and refuses what is too large.
-/
namespace Numerals

/-! ## Reading -/

/-- What a digit is worth where the base is large enough. -/
def digitValue (c : Char) : Option Nat :=
  if 48 ≤ c.toNat ∧ c.toNat ≤ 57 then some (c.toNat - 48)
  else if 97 ≤ c.toNat ∧ c.toNat ≤ 122 then some (c.toNat - 87)
  else if 65 ≤ c.toNat ∧ c.toNat ≤ 90 then some (c.toNat - 55)
  else none

def toDigit (base : Nat) (c : Char) : Option Nat := (digitValue c).filter (· < base)

/-- One digit more, unless that is too much. -/
def addDigit (base bound n : Nat) (c : Char) : Option Nat :=
  (toDigit base c).bind fun d => if n * base + d < bound then some (n * base + d) else none

def readDigits (base bound : Nat) (cs : List Char) : Option Nat :=
  cs.foldlM (addDigit base bound) 0

/-- The parser of an unsigned type: a digit at least, after a plus sign or none. -/
def fromStrRadix (base bound : Nat) : List Char → Option Nat
  | [] => none
  | c :: cs =>
    -- A minus sign is no digit of an unsigned type.
    let digits := if c = '+' then cs else c :: cs
    if digits = [] then none else readDigits base bound digits

/-! ## Digits -/

variable {base bound n d : Nat} {c : Char} {cs : List Char}

theorem toDigit_eq_some : toDigit base c = some d ↔ digitValue c = some d ∧ d < base := by
  simp [toDigit, Option.filter_eq_some_iff]

theorem digitValue_digitChar (small : d < 16) : digitValue d.digitChar = some d := by
  revert d
  decide

theorem toDigit_digitChar (small : base ≤ 16) (less : d < base) :
    toDigit base d.digitChar = some d :=
  toDigit_eq_some.mpr ⟨digitValue_digitChar (less.trans_le small), less⟩

/-- A decimal digit is one in the base of ten. -/
theorem isDigit_iff_toDigit : c.isDigit = true ↔ (toDigit 10 c).isSome := by
  have range : c.isDigit = true ↔ 48 ≤ c.toNat ∧ c.toNat ≤ 57 := by
    simp [Char.isDigit, UInt32.le_iff_toNat_le]
  rw [range, Option.isSome_iff_exists]
  simp only [toDigit_eq_some, digitValue]
  split
  next inside => exact ⟨fun _ => ⟨_, rfl, by omega⟩, fun _ => inside⟩
  next outside =>
    refine ⟨fun inside => absurd inside outside, ?_⟩
    rintro ⟨d, value, less⟩
    split at value
    · cases value
      omega
    · split at value
      · cases value
        omega
      · cases value

theorem mem_toDigits (large : 1 < base) (member : c ∈ Nat.toDigits base n) :
    ∃ d, d < base ∧ c = d.digitChar := by
  induction n using Nat.strongRecOn with
  | ind n ih =>
    rw [Nat.toDigits_eq_if large] at member
    split at member
    next less => exact ⟨n, less, List.mem_singleton.mp member⟩
    next more =>
      rcases List.mem_append.mp member with front | last
      · exact ih (n / base) (Nat.div_lt_self (by omega) large) front
      · exact ⟨n % base, Nat.mod_lt _ (by omega), List.mem_singleton.mp last⟩

/-- A number other than zero does not begin with one. -/
theorem toDigits_head (large : 1 < base) (small : base ≤ 16) (pos : 0 < n) :
    ∃ d ds, 0 < d ∧ d < base ∧ Nat.toDigits base n = d.digitChar :: ds := by
  induction n using Nat.strongRecOn with
  | ind n ih =>
    rw [Nat.toDigits_eq_if large]
    split
    next less => exact ⟨n, [], pos, less, rfl⟩
    next more =>
      have enough : base ≤ n := Nat.not_lt.mp more
      obtain ⟨d, ds, first, inside, written⟩ :=
        ih (n / base) (Nat.div_lt_self pos large) (Nat.div_pos enough (by omega))
      exact ⟨d, ds ++ [(n % base).digitChar], first, inside, by rw [written]; rfl⟩

/-! ## What is written is read -/

theorem readDigits_concat (cs : List Char) (c : Char) : readDigits base bound (cs ++ [c]) =
    (readDigits base bound cs).bind fun n => addDigit base bound n c := by
  rw [readDigits, List.foldlM_append]
  refine congrArg _ (funext fun n => ?_)
  rw [List.foldlM_cons]
  cases addDigit base bound n c <;> rfl

theorem readDigits_single (c : Char) : readDigits base bound [c] = addDigit base bound 0 c := by
  rw [readDigits, List.foldlM_cons]
  cases addDigit base bound 0 c <;> rfl

theorem addDigit_eq_some {m : Nat} : addDigit base bound n c = some m ↔
    ∃ d, toDigit base c = some d ∧ m = n * base + d ∧ m < bound := by
  rw [addDigit, Option.bind_eq_some_iff]
  refine exists_congr fun d => and_congr_right fun _ => ?_
  rw [Option.ite_none_right_eq_some]
  constructor
  · rintro ⟨less, same⟩
    cases same
    exact ⟨rfl, less⟩
  · rintro ⟨rfl, less⟩
    exact ⟨less, rfl⟩

theorem readDigits_toDigits (large : 1 < base) (small : base ≤ 16) (fits : n < bound) :
    readDigits base bound (Nat.toDigits base n) = some n := by
  induction n using Nat.strongRecOn with
  | ind n ih =>
    rw [Nat.toDigits_eq_if large]
    split
    next less =>
      rw [readDigits_single]
      refine addDigit_eq_some.mpr ⟨n, toDigit_digitChar small less, by simp, fits⟩
    -- All digits but the last are those of the quotient.
    next more =>
      have less : n / base < n := Nat.div_lt_self (by omega) large
      have rest : n % base < base := Nat.mod_lt _ (by omega)
      rw [readDigits_concat, ih _ less (less.trans fits), Option.bind_some]
      refine addDigit_eq_some.mpr ⟨_, toDigit_digitChar small rest, ?_, fits⟩
      rw [Nat.div_add_mod']

/-- A number is told by its digits. -/
theorem toDigits_inj {m : Nat} (large : 1 < base) (small : base ≤ 16)
    (same : Nat.toDigits base m = Nat.toDigits base n) : m = n := by
  have left : readDigits base (max m n + 1) (Nat.toDigits base m) = some m :=
    readDigits_toDigits large small (by omega)
  have right : readDigits base (max m n + 1) (Nat.toDigits base n) = some n :=
    readDigits_toDigits large small (by omega)
  rw [same] at left
  exact Option.some.inj (left.symm.trans right)

theorem fromStrRadix_eq (some_ : cs ≠ []) (unsigned : '+' ∉ cs) :
    fromStrRadix base bound cs = readDigits base bound cs := by
  cases cs with
  | nil => exact absurd rfl some_
  | cons c cs =>
    have other : c ≠ '+' := by
      rintro rfl
      simp at unsigned
    simp [fromStrRadix, other]

/-- No plus sign is written. -/
theorem fromStrRadix_toDigits (large : 1 < base) (small : base ≤ 16) (fits : n < bound) :
    fromStrRadix base bound (Nat.toDigits base n) = some n := by
  have all := readDigits_toDigits large small fits
  rw [fromStrRadix_eq, all]
  · exact Nat.toDigits_ne_nil
  · intro member
    obtain ⟨d, less, same⟩ := mem_toDigits large member
    have value := digitValue_digitChar (less.trans_le small)
    rw [← same] at value
    cases value

/-- What is read in a smaller base than it was written in comes out smaller, but for a single
digit. -/
theorem readDigits_smaller {low : Nat} (large : 1 < low) (less : low < base) (small : base ≤ 16)
    (fits : n < bound) (digits : ∀ c ∈ Nat.toDigits base n, (toDigit low c).isSome) :
    ∃ m, readDigits low bound (Nat.toDigits base n) = some m ∧ m ≤ n ∧ (m = n ↔ n < low) := by
  induction n using Nat.strongRecOn with
  | ind n ih =>
    -- A digit that the smaller base has is worth less than it.
    have digit : ∀ d, d < base → d.digitChar ∈ Nat.toDigits base n →
        toDigit low d.digitChar = some d ∧ d < low := by
      intro d less member
      obtain ⟨d', value⟩ := Option.isSome_iff_exists.mp (digits _ member)
      obtain ⟨worth, inside⟩ := toDigit_eq_some.mp value
      rw [digitValue_digitChar (less.trans_le small)] at worth
      cases worth
      exact ⟨value, inside⟩
    rw [Nat.toDigits_eq_if (large.trans less)] at digits digit ⊢
    split at digits
    next single =>
      rw [if_pos single] at digit ⊢
      obtain ⟨value, inside⟩ := digit n single (by simp)
      refine ⟨n, ?_, le_rfl, by simp [inside]⟩
      rw [readDigits_single]
      exact addDigit_eq_some.mpr ⟨n, value, by simp, fits⟩
    next more =>
      rw [if_neg more] at digit ⊢
      have pos : 0 < n / base := Nat.div_pos (by omega) (by omega)
      have shorter : n / base < n := Nat.div_lt_self (by omega) (by omega)
      obtain ⟨value, inside⟩ := digit (n % base) (Nat.mod_lt _ (by omega)) (by simp)
      obtain ⟨m, read, below, -⟩ := ih _ shorter (shorter.trans fits)
        fun c member => digits c (List.mem_append_left _ member)
      have smaller : m * low + n % base < n := by
        calc m * low + n % base ≤ n / base * low + n % base := by
              exact Nat.add_le_add_right (Nat.mul_le_mul_right low below) _
          _ < n / base * base + n % base :=
              Nat.add_lt_add_right (Nat.mul_lt_mul_of_pos_left less pos) _
          _ = n := Nat.div_add_mod' n base
      refine ⟨m * low + n % base, ?_, smaller.le, by omega⟩
      rw [readDigits_concat, read, Option.bind_some]
      exact addDigit_eq_some.mpr ⟨_, value, rfl, smaller.trans fits⟩

/-! ## Padding -/

/-- Zeros before a number that is shorter. -/
def pad (width : Nat) (cs : List Char) : List Char :=
  List.replicate (width - cs.length) '0' ++ cs

end Numerals

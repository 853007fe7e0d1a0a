import Mathlib.Algebra.Ring.Nat

/-!
# Standard base64

Three bytes are four digits of six bits. What is left over at the end is padded with `=`, and the
bits that stand for no byte are zero.
-/
namespace Base64

/-- The digit of six bits. -/
def digit (n : Nat) : Char :=
  if n < 26 then Char.ofNat (65 + n)
  else if n < 52 then Char.ofNat (97 + (n - 26))
  else if n < 62 then Char.ofNat (48 + (n - 52))
  else if n = 62 then '+' else '/'

/-- The six bits of a digit. -/
def value (c : Char) : Option Nat :=
  if 65 ≤ c.toNat ∧ c.toNat ≤ 90 then some (c.toNat - 65)
  else if 97 ≤ c.toNat ∧ c.toNat ≤ 122 then some (c.toNat - 97 + 26)
  else if 48 ≤ c.toNat ∧ c.toNat ≤ 57 then some (c.toNat - 48 + 52)
  else if c = '+' then some 62 else if c = '/' then some 63 else none

/-- The four digits of 24 bits. -/
def digits (n : Nat) : List Char :=
  [digit (n / 2 ^ 18 % 64), digit (n / 2 ^ 12 % 64), digit (n / 2 ^ 6 % 64), digit (n % 64)]

/-- The three bytes of 24 bits. -/
def bytes (n : Nat) : List UInt8 :=
  [UInt8.ofNat (n / 2 ^ 16), UInt8.ofNat (n / 2 ^ 8), UInt8.ofNat n]

def encode : List UInt8 → List Char
  | [] => []
  | [a] => (digits (a.toNat * 2 ^ 16)).take 2 ++ ['=', '=']
  | [a, b] => (digits (a.toNat * 2 ^ 16 + b.toNat * 2 ^ 8)).take 3 ++ ['=']
  | a :: b :: c :: rest =>
    digits (a.toNat * 2 ^ 16 + b.toNat * 2 ^ 8 + c.toNat) ++ encode rest

/-- The 24 bits of four digits. -/
def bits (w x y z : Char) : Option Nat := do
  let w ← value w
  let x ← value x
  let y ← value y
  let z ← value z
  return ((w * 64 + x) * 64 + y) * 64 + z

/-- The last digits before one or two signs of padding. -/
def padded (w x y : Char) : Option (List UInt8) :=
  if y = '=' then do
    let n ← bits w x 'A' 'A'
    if n % 2 ^ 16 = 0 then some ((bytes n).take 1) else none
  else do
    let n ← bits w x y 'A'
    if n % 2 ^ 8 = 0 then some ((bytes n).take 2) else none

/-- Only what `encode` writes is taken: padding that is missing or not at the end, and bits behind
the last byte that are not zero, are refused. -/
def decode : List Char → Option (List UInt8)
  | [] => some []
  | w :: x :: y :: z :: rest =>
    if z = '=' then if rest = [] then padded w x y else none
    else do
      let n ← bits w x y z
      let tail ← decode rest
      return bytes n ++ tail
  | _ => none

/-! ## Digits -/

theorem value_digit {n : Nat} (small : n < 64) : value (digit n) = some n := by
  have all : ∀ n, n < 64 → value (digit n) = some n := by decide
  exact all n small

theorem digit_plain {n : Nat} (small : n < 64) :
    digit n ≠ '=' ∧ 43 ≤ (digit n).toNat ∧ (digit n).toNat < 128 := by
  have all : ∀ n, n < 64 → digit n ≠ '=' ∧ 43 ≤ (digit n).toNat ∧ (digit n).toNat < 128 := by
    decide
  exact all n small

theorem bits_digits {n : Nat} (small : n < 2 ^ 24) :
    bits (digit (n / 2 ^ 18 % 64)) (digit (n / 2 ^ 12 % 64)) (digit (n / 2 ^ 6 % 64))
      (digit (n % 64)) = some n := by
  have room : ∀ m, m % 64 < 64 := fun m => Nat.mod_lt m (by decide)
  simp only [bits, value_digit (room _), Option.pure_def, Option.bind_eq_bind, Option.bind_some,
    Option.some.injEq]
  omega

theorem bytes_eq (a b c : UInt8) :
    bytes (a.toNat * 2 ^ 16 + b.toNat * 2 ^ 8 + c.toNat) = [a, b, c] := by
  have below := a.toNat_lt
  have below' := b.toNat_lt
  have below'' := c.toNat_lt
  simp only [bytes, List.cons.injEq, and_true]
  refine ⟨UInt8.toNat_inj.mp ?_, UInt8.toNat_inj.mp ?_, UInt8.toNat_inj.mp ?_⟩ <;>
    rw [UInt8.toNat_ofNat'] <;> omega

/-! ## The round trip -/

theorem decode_encode (raw : List UInt8) : decode (encode raw) = some raw := by
  have zero : digit (0 % 64) = 'A' := rfl
  induction raw using encode.induct with
  | case1 => rfl
  -- One byte left: two digits, whose low bits are zero, and two signs of padding.
  | case2 a =>
    have below := a.toNat_lt
    have whole := bits_digits (n := a.toNat * 2 ^ 16) (by omega)
    rw [show a.toNat * 2 ^ 16 / 2 ^ 6 % 64 = 0 % 64 by omega,
      show a.toNat * 2 ^ 16 % 64 = 0 % 64 by omega, zero] at whole
    have first := bytes_eq a 0 0
    simp only [UInt8.toNat_zero, Nat.zero_mul, Nat.add_zero] at first
    simp only [encode, digits, List.take_succ_cons, List.take_zero, List.cons_append,
      List.nil_append, decode, if_true, padded, whole, Option.bind_eq_bind, Option.bind_some,
      Nat.mul_mod_left, first]
  -- Two bytes left: three digits and one sign of padding.
  | case3 a b =>
    have below := a.toNat_lt
    have below' := b.toNat_lt
    have whole := bits_digits (n := a.toNat * 2 ^ 16 + b.toNat * 2 ^ 8) (by omega)
    rw [show (a.toNat * 2 ^ 16 + b.toNat * 2 ^ 8) % 64 = 0 % 64 by omega, zero] at whole
    have first := bytes_eq a b 0
    simp only [UInt8.toNat_zero, Nat.add_zero] at first
    have plain := (digit_plain (n := (a.toNat * 2 ^ 16 + b.toNat * 2 ^ 8) / 2 ^ 6 % 64)
      (Nat.mod_lt _ (by decide))).1
    have aligned : (a.toNat * 2 ^ 16 + b.toNat * 2 ^ 8) % 2 ^ 8 = 0 := by omega
    simp only [encode, digits, List.take_succ_cons, List.take_zero, List.cons_append,
      List.nil_append, decode, if_true, padded, plain, if_false, whole, Option.bind_eq_bind,
      Option.bind_some, aligned, first]
  -- Three whole bytes are four digits, none of them padding.
  | case4 a b c rest ih =>
    have below := a.toNat_lt
    have below' := b.toNat_lt
    have below'' := c.toNat_lt
    have whole := bits_digits (n := a.toNat * 2 ^ 16 + b.toNat * 2 ^ 8 + c.toNat) (by omega)
    have plain := (digit_plain (n := (a.toNat * 2 ^ 16 + b.toNat * 2 ^ 8 + c.toNat) % 64)
      (Nat.mod_lt _ (by decide))).1
    simp only [encode, digits, List.cons_append, List.nil_append, decode, plain, if_false, whole,
      Option.bind_eq_bind, Option.bind_some, ih, Option.pure_def, bytes_eq]

/-- A text of base64 is printable ASCII with no blanks. -/
theorem encode_plain (raw : List UInt8) :
    ∀ c ∈ encode raw, 43 ≤ c.toNat ∧ c.toNat < 128 := by
  have room : ∀ m, m % 64 < 64 := fun m => Nat.mod_lt m (by decide)
  have plain : ∀ n, ∀ c ∈ digits n, 43 ≤ c.toNat ∧ c.toNat < 128 := by
    intro n c member
    simp only [digits, List.mem_cons, List.not_mem_nil, or_false] at member
    rcases member with rfl | rfl | rfl | rfl <;> exact (digit_plain (room _)).2
  have sign : ∀ c ∈ ['=', '='], 43 ≤ c.toNat ∧ c.toNat < 128 := by
    intro c member
    have same : c = '=' := by simpa using member
    rw [same]
    decide
  -- Every group is digits, but for the signs that pad the last.
  induction raw using encode.induct with
  | case1 => simp [encode]
  | case2 a =>
    intro c member
    rcases List.mem_append.mp member with data | pad
    · exact plain _ c (List.mem_of_mem_take data)
    · exact sign c pad
  | case3 a b =>
    intro c member
    rcases List.mem_append.mp member with data | pad
    · exact plain _ c (List.mem_of_mem_take data)
    · exact sign c (List.mem_cons_of_mem _ pad)
  | case4 a b c rest ih =>
    intro c' member
    rcases List.mem_append.mp member with data | later
    · exact plain _ c' data
    · exact ih c' later

/-- A decoder that reads back what `encode` writes. -/
structure Decoder where
  decode : List Char → Option (List UInt8)
  inverse : ∀ raw, decode (encode raw) = some raw

def strict : Decoder := ⟨decode, decode_encode⟩

end Base64

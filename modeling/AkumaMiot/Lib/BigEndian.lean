import Mathlib.Algebra.Ring.Nat

/-!
# Big-endian bytes of a number
-/
namespace BigEndian

/-- `u64::to_be_bytes`. -/
def toBytes (n : Nat) : List UInt8 :=
  [n / 2 ^ 56, n / 2 ^ 48, n / 2 ^ 40, n / 2 ^ 32, n / 2 ^ 24, n / 2 ^ 16, n / 2 ^ 8, n].map
    UInt8.ofNat

/-- `u64::from_be_bytes` of exactly eight bytes. -/
def ofBytes (bytes : List UInt8) : Option Nat :=
  if bytes.length = 8 then some (bytes.foldl (fun acc b => acc * 256 + b.toNat) 0) else none

@[simp] theorem length_toBytes (n : Nat) : (toBytes n).length = 8 := rfl

/-- A number of at most 64 bits survives the round trip. -/
theorem ofBytes_toBytes {n : Nat} (small : n < 2 ^ 64) : ofBytes (toBytes n) = some n := by
  simp only [ofBytes, length_toBytes, if_true, Option.some.injEq]
  simp only [toBytes, List.map_cons, List.map_nil, List.foldl_cons, List.foldl_nil,
    UInt8.toNat_ofNat']
  omega

/-- Each byte read multiplies the bound by 256. -/
theorem foldl_lt (bytes : List UInt8) (acc : Nat) :
    bytes.foldl (fun acc b => acc * 256 + b.toNat) acc < (acc + 1) * 256 ^ bytes.length := by
  induction bytes generalizing acc with
  | nil => simp
  | cons b bytes ih =>
    have small : acc * 256 + b.toNat + 1 ≤ (acc + 1) * 256 := by
      have := b.toNat_lt
      omega
    calc (b :: bytes).foldl (fun acc b => acc * 256 + b.toNat) acc
        < (acc * 256 + b.toNat + 1) * 256 ^ bytes.length := ih _
      _ ≤ (acc + 1) * 256 * 256 ^ bytes.length := Nat.mul_le_mul_right _ small
      _ = (acc + 1) * 256 ^ (b :: bytes).length := by
          rw [List.length_cons, Nat.pow_succ, Nat.mul_assoc, Nat.mul_comm 256]

theorem ofBytes_lt {bytes : List UInt8} {n : Nat} (read : ofBytes bytes = some n) :
    n < 2 ^ 64 := by
  unfold ofBytes at read
  split at read
  next eight =>
    cases read
    have below := foldl_lt bytes 0
    rwa [eight] at below
  next => cases read

/-! ## Any width -/

/-- The last `k` bytes of a number. -/
def encode : Nat → Nat → List UInt8
  | 0, _ => []
  | k + 1, n => UInt8.ofNat (n / 256 ^ k) :: encode k n

/-- The number that bytes stand for. -/
def value (bytes : List UInt8) : Nat := bytes.foldl (fun acc b => acc * 256 + b.toNat) 0

@[simp] theorem length_encode (k n : Nat) : (encode k n).length = k := by
  induction k with
  | zero => rfl
  | succ k ih => rw [encode, List.length_cons, ih]

/-- What is read first counts 256 for every byte behind it. -/
theorem foldl_eq (bytes : List UInt8) (acc : Nat) :
    bytes.foldl (fun acc b => acc * 256 + b.toNat) acc =
      acc * 256 ^ bytes.length + value bytes := by
  induction bytes generalizing acc with
  | nil => simp [value]
  | cons b bytes ih =>
    unfold value
    rw [List.foldl_cons, List.foldl_cons, ih, ih, List.length_cons, Nat.pow_succ, Nat.zero_mul,
      Nat.zero_add, Nat.add_mul, Nat.mul_assoc, Nat.mul_comm 256, Nat.add_assoc]

theorem value_cons (b : UInt8) (bytes : List UInt8) :
    value (b :: bytes) = b.toNat * 256 ^ bytes.length + value bytes := by
  unfold value
  rw [List.foldl_cons, foldl_eq, Nat.zero_mul, Nat.zero_add]
  rfl

theorem value_lt (bytes : List UInt8) : value bytes < 256 ^ bytes.length := by
  simpa [value] using foldl_lt bytes 0

theorem value_encode (k n : Nat) : value (encode k n) = n % 256 ^ k := by
  induction k with
  | zero => simp [encode, value, Nat.mod_one]
  | succ k ih =>
    rw [encode, value_cons, ih, length_encode, UInt8.toNat_ofNat',
      Nat.mod_pow_succ (x := n) (b := 256), Nat.add_comm, Nat.mul_comm]

/-- Whole multiples of the bound do not show. -/
theorem encode_add (k m n : Nat) : encode k (m * 256 ^ k + n) = encode k n := by
  induction k generalizing m with
  | zero => rfl
  | succ k ih =>
    have split : m * 256 ^ (k + 1) + n = m * 256 * 256 ^ k + n := by
      rw [Nat.pow_succ, Nat.mul_assoc, Nat.mul_comm 256]
    have top : UInt8.ofNat ((m * 256 * 256 ^ k + n) / 256 ^ k) = UInt8.ofNat (n / 256 ^ k) := by
      rw [Nat.add_comm, Nat.add_mul_div_right _ _ (Nat.pow_pos (by decide))]
      refine UInt8.toNat_inj.mp ?_
      rw [UInt8.toNat_ofNat', UInt8.toNat_ofNat']
      exact Nat.add_mul_mod_self_right _ _ _
    rw [encode, encode, split, top, ih]

theorem encode_value (bytes : List UInt8) : encode bytes.length (value bytes) = bytes := by
  induction bytes with
  | nil => rfl
  | cons b bytes ih =>
    have top : (b.toNat * 256 ^ bytes.length + value bytes) / 256 ^ bytes.length = b.toNat := by
      rw [Nat.mul_comm, Nat.mul_add_div (Nat.pow_pos (by decide)),
        Nat.div_eq_of_lt (value_lt bytes), Nat.add_zero]
    rw [List.length_cons, encode, value_cons, top, encode_add, ih, UInt8.ofNat_toNat]

end BigEndian

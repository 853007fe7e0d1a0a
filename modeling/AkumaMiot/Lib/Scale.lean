import Mathlib.Algebra.Ring.Nat
import Mathlib.Tactic.Common

/-!
# SCALE, a format read from the front

A codec writes a value and reads one off the front of its input, leaving the rest. Numbers are
fixed-width little-endian, a list is its length and its elements, a variant is its index and its
fields, and nothing says where a value ends but the value itself.
-/
namespace Scale

/-- `Encode` and `Decode` of a type. -/
structure Codec (α : Type) where
  encode : α → List UInt8
  decode : List UInt8 → Option (α × List UInt8)

/-- What fits is read back whatever follows it, and nothing is read but what was written. -/
structure Codec.Lawful {α : Type} (c : Codec α) (fits : α → Prop) : Prop where
  read {a : α} (fit : fits a) (rest : List UInt8) : c.decode (c.encode a ++ rest) = some (a, rest)
  written {bytes rest : List UInt8} {a : α} (reads : c.decode bytes = some (a, rest)) :
    fits a ∧ bytes = c.encode a ++ rest

variable {α β : Type}

namespace Codec.Lawful

variable {c : Codec α} {fits : α → Prop}

/-- With nothing after it, a value is all there is to read. -/
theorem inverse (lawful : c.Lawful fits) {a : α} (fit : fits a) :
    c.decode (c.encode a) = some (a, []) := by
  simpa only [List.append_nil] using lawful.read fit []

theorem of_iff {fits' : α → Prop} (lawful : c.Lawful fits) (same : ∀ a, fits a ↔ fits' a) :
    c.Lawful fits' where
  read fit rest := lawful.read ((same _).mpr fit) rest
  written reads := by
    obtain ⟨fit, wrote⟩ := lawful.written reads
    exact ⟨(same _).mp fit, wrote⟩

end Codec.Lawful

/-! ## Numbers -/

/-- The `w` bytes of a number, the lowest first. -/
def toBytes : Nat → Nat → List UInt8
  | 0, _ => []
  | w + 1, n => UInt8.ofNat n :: toBytes w (n / 256)

/-- The number of `w` bytes off the front. -/
def ofBytes : Nat → List UInt8 → Option (Nat × List UInt8)
  | 0, bytes => some (0, bytes)
  | _ + 1, [] => none
  | w + 1, b :: bytes => do
    let (n, rest) ← ofBytes w bytes
    pure (b.toNat + 256 * n, rest)

/-- An unsigned number `w` bytes wide. -/
def uint (w : Nat) : Codec Nat := ⟨toBytes w, ofBytes w⟩

@[simp] theorem length_toBytes (w n : Nat) : (toBytes w n).length = w := by
  induction w generalizing n with
  | zero => rfl
  | succ w ih => exact congrArg (· + 1) (ih (n / 256))

theorem ofBytes_toBytes {w n : Nat} (fit : n < 256 ^ w) (rest : List UInt8) :
    ofBytes w (toBytes w n ++ rest) = some (n, rest) := by
  induction w generalizing n with
  | zero =>
    have zero : n = 0 := by omega
    rw [zero]
    rfl
  | succ w ih =>
    have high : n / 256 < 256 ^ w := Nat.div_lt_of_lt_mul (by rwa [Nat.pow_succ'] at fit)
    have low : (UInt8.ofNat n).toNat + 256 * (n / 256) = n := by
      rw [UInt8.toNat_ofNat']
      exact Nat.mod_add_div n 256
    simp only [toBytes, List.cons_append, ofBytes, ih high, Option.bind_eq_bind, Option.bind_some,
      low, Option.pure_def]

theorem toBytes_ofBytes {w n : Nat} {bytes rest : List UInt8}
    (reads : ofBytes w bytes = some (n, rest)) : n < 256 ^ w ∧ bytes = toBytes w n ++ rest := by
  induction w generalizing n bytes with
  | zero =>
    cases reads
    exact ⟨Nat.one_pos, rfl⟩
  | succ w ih =>
    cases bytes with
    | nil => cases reads
    | cons b bytes =>
      simp only [ofBytes, Option.bind_eq_bind, Option.bind_eq_some_iff, Option.pure_def,
        Option.some.injEq, Prod.mk.injEq, Prod.exists] at reads
      obtain ⟨high, more, reads, number, rest_⟩ := reads
      subst rest_
      obtain ⟨bound, wrote⟩ := ih reads
      have byte := b.toNat_lt
      have low : UInt8.ofNat n = b := by
        rw [← number, ← UInt8.toNat_inj, UInt8.toNat_ofNat']
        omega
      have rest_ : n / 256 = high := by omega
      refine ⟨by rw [Nat.pow_succ]; omega, ?_⟩
      rw [toBytes, low, rest_, wrote, List.cons_append]

theorem uint_lawful (w : Nat) : (uint w).Lawful (· < 256 ^ w) where
  read fit rest := ofBytes_toBytes fit rest
  written reads := toBytes_ofBytes reads

/-! ## Products and representations -/

/-- Nothing is written for the one value there is. -/
def unit : Codec Unit := ⟨fun _ => [], fun bytes => some ((), bytes)⟩

theorem unit_lawful : unit.Lawful fun _ => True where
  read _ _ := rfl
  written reads := by
    cases reads
    exact ⟨trivial, rfl⟩

/-- One byte. -/
def byte : Codec UInt8 where
  encode b := [b]
  decode
    | [] => none
    | b :: rest => some (b, rest)

theorem byte_lawful : byte.Lawful fun _ => True where
  read _ _ := rfl
  written {bytes _ _} reads := by
    cases bytes with
    | nil => cases reads
    | cons b bytes =>
      cases reads
      exact ⟨trivial, rfl⟩

/-- One after the other. -/
def Codec.pair (c : Codec α) (d : Codec β) : Codec (α × β) where
  encode p := c.encode p.1 ++ d.encode p.2
  decode bytes := do
    let (a, bytes) ← c.decode bytes
    let (b, rest) ← d.decode bytes
    pure ((a, b), rest)

theorem Codec.Lawful.pair {c : Codec α} {d : Codec β} {fits : α → Prop} {fits' : β → Prop}
    (first : c.Lawful fits) (second : d.Lawful fits') :
    (c.pair d).Lawful fun p => fits p.1 ∧ fits' p.2 where
  read fit rest := by
    simp only [Codec.pair, List.append_assoc, first.read fit.1, second.read fit.2,
      Option.bind_eq_bind, Option.bind_some, Option.pure_def]
  written reads := by
    simp only [Codec.pair, Option.bind_eq_bind, Option.bind_eq_some_iff, Option.pure_def,
      Option.some.injEq, Prod.mk.injEq, Prod.exists] at reads
    obtain ⟨a, more, reads, b, rest, reads', rfl, rfl⟩ := reads
    obtain ⟨fit, wrote⟩ := first.written reads
    obtain ⟨fit', wrote'⟩ := second.written reads'
    refine ⟨⟨fit, fit'⟩, ?_⟩
    rw [wrote, wrote', Codec.pair, List.append_assoc]

/-- A value written as another, where not every other is one. -/
def Codec.as (c : Codec α) (unpack : β → α) (pack : α → Option β) : Codec β where
  encode b := c.encode (unpack b)
  decode bytes := do
    let (a, rest) ← c.decode bytes
    let b ← pack a
    pure (b, rest)

theorem Codec.Lawful.as {c : Codec α} {fits : α → Prop} (lawful : c.Lawful fits) {unpack : β → α}
    {pack : α → Option β} (packs : ∀ a b, pack a = some b ↔ unpack b = a) :
    (c.as unpack pack).Lawful fun b => fits (unpack b) where
  read {b} fit rest := by
    have packed : pack (unpack b) = some b := (packs _ b).mpr rfl
    simp only [Codec.as, lawful.read fit, packed, Option.bind_eq_bind, Option.bind_some,
      Option.pure_def]
  written reads := by
    simp only [Codec.as, Option.bind_eq_bind, Option.bind_eq_some_iff, Option.pure_def,
      Option.some.injEq, Prod.mk.injEq, Prod.exists] at reads
    obtain ⟨a, rest, reads, b, packed, rfl, rfl⟩ := reads
    obtain ⟨fit, wrote⟩ := lawful.written reads
    rw [← (packs a b).mp packed] at fit wrote
    exact ⟨fit, wrote⟩

/-! ## Enumerations -/

/-- One variant: its fields, and which values they make. -/
structure Variant (α : Type) where
  {Fields : Type}
  fields : Codec Fields
  build : Fields → α
  parts : α → Option Fields

structure Variant.Lawful (v : Variant α) (fits : α → Prop) : Prop where
  fields : v.fields.Lawful fun f => fits (v.build f)
  parts (f : v.Fields) : v.parts (v.build f) = some f
  built {a : α} {f : v.Fields} : v.parts a = some f → v.build f = a

/-- A value of the second is none of the first. -/
def Variant.Apart (v w : Variant α) : Prop := ∀ f, v.parts (w.build f) = none

/-- The index of the value's variant, counted on from `i`, and its fields. -/
def encodeFrom : Nat → List (Variant α) → α → List UInt8
  | _, [], _ => []
  | i, v :: variants, a =>
    match v.parts a with
    | some f => UInt8.ofNat i :: v.fields.encode f
    | none => encodeFrom (i + 1) variants a

/-- A type with these variants, in their order. -/
def enum (variants : List (Variant α)) : Codec α where
  encode := encodeFrom 0 variants
  decode
    | [] => none
    | i :: bytes =>
      match variants[i.toNat]? with
      | none => none
      | some v => do
        let (f, rest) ← v.fields.decode bytes
        pure (v.build f, rest)

theorem encodeFrom_build {variants : List (Variant α)} (apart : variants.Pairwise Variant.Apart)
    {k : Nat} {v : Variant α} (there : variants[k]? = some v) {f : v.Fields}
    (parts : v.parts (v.build f) = some f) (i : Nat) :
    encodeFrom i variants (v.build f) = UInt8.ofNat (i + k) :: v.fields.encode f := by
  induction variants generalizing i k with
  | nil => simp at there
  | cons w variants ih =>
    obtain ⟨first, others⟩ := List.pairwise_cons.mp apart
    cases k with
    | zero =>
      cases there
      simp only [encodeFrom, parts, Nat.add_zero]
    | succ k =>
      have later : variants[k]? = some v := there
      have other : w.parts (v.build f) = none := first v (List.mem_of_getElem? later) f
      simp only [encodeFrom, other, ih others later, Nat.add_assoc, Nat.add_comm 1 k]

theorem enum_lawful {variants : List (Variant α)} {fits : α → Prop}
    (lawful : ∀ v ∈ variants, v.Lawful fits) (apart : variants.Pairwise Variant.Apart)
    (few : variants.length ≤ 256) (all : ∀ a, fits a → ∃ v ∈ variants, (v.parts a).isSome) :
    (enum variants).Lawful fits where
  read {a} fit rest := by
    obtain ⟨v, member, some_⟩ := all a fit
    obtain ⟨f, parts⟩ := Option.isSome_iff_exists.mp some_
    -- The index written is the place of the variant in the list, which a byte can hold.
    obtain ⟨k, bound, there⟩ := List.mem_iff_getElem.mp member
    have built := (lawful v member).built parts
    subst built
    have index : (UInt8.ofNat k).toNat = k := by
      rw [UInt8.toNat_ofNat', Nat.mod_eq_of_lt (by omega)]
    have there : variants[k]? = some v := List.getElem?_eq_some_iff.mpr ⟨bound, there⟩
    simp only [enum, encodeFrom_build apart there parts, Nat.zero_add, List.cons_append, index,
      there, (lawful v member).fields.read fit, Option.bind_eq_bind, Option.bind_some,
      Option.pure_def]
  written {bytes rest a} reads := by
    cases bytes with
    | nil => cases reads
    | cons i bytes =>
      simp only [enum] at reads
      split at reads
      · cases reads
      next v there =>
        simp only [Option.bind_eq_bind, Option.bind_eq_some_iff, Option.pure_def,
          Option.some.injEq, Prod.mk.injEq, Prod.exists] at reads
        obtain ⟨f, rest, reads, rfl, rfl⟩ := reads
        -- What was read under an index is written back under it: no other variant takes the
        -- value.
        have sound := lawful v (List.mem_of_getElem? there)
        obtain ⟨fit, wrote⟩ := sound.fields.written reads
        have parts := sound.parts f
        refine ⟨fit, ?_⟩
        simp only [enum, encodeFrom_build apart there parts, Nat.zero_add, UInt8.ofNat_toNat,
          wrote, List.cons_append]

/-- The variants make values of these indices, from `i` on. -/
def Indexed (index : α → Nat) : Nat → List (Variant α) → Prop
  | _, [] => True
  | i, v :: variants => (∀ f, index (v.build f) = i) ∧ Indexed index (i + 1) variants

theorem Indexed.least {index : α → Nat} {variants : List (Variant α)} {i : Nat}
    (indexed : Indexed index i variants) {v : Variant α} (member : v ∈ variants) (f : v.Fields) :
    i ≤ index (v.build f) := by
  induction variants generalizing i with
  | nil => cases member
  | cons w variants ih =>
    rcases List.mem_cons.mp member with rfl | later
    · exact Nat.le_of_eq (indexed.1 f).symm
    · exact Nat.le_trans (Nat.le_succ i) (ih indexed.2 later)

theorem Indexed.apart {index : α → Nat} {variants : List (Variant α)} {i : Nat}
    (indexed : Indexed index i variants) {fits : α → Prop}
    (lawful : ∀ v ∈ variants, v.Lawful fits) : variants.Pairwise Variant.Apart := by
  induction variants generalizing i with
  | nil => exact .nil
  | cons v variants ih =>
    obtain ⟨first, others⟩ := List.forall_mem_cons.mp lawful
    refine .cons (fun w member f => ?_) (ih indexed.2 others)
    cases parts : v.parts (w.build f) with
    | none => rfl
    | some g =>
      have same := indexed.1 g
      rw [first.built parts] at same
      exact absurd (indexed.2.least member f) (by omega)

/-- A variant without fields. -/
def Variant.plain [DecidableEq α] (a : α) : Variant α where
  fields := unit
  build _ := a
  parts b := if b = a then some () else none

theorem Variant.plain_lawful [DecidableEq α] {a : α} {fits : α → Prop} (fit : fits a) :
    (Variant.plain a).Lawful fits where
  fields := unit_lawful.of_iff fun _ => ⟨fun _ => fit, fun _ => trivial⟩
  parts _ := if_pos rfl
  built {b _} parts := by
    by_cases same : b = a
    · exact same.symm
    · cases (if_neg same).symm.trans parts

/-- A type of variants without fields, in their order. -/
def plains [DecidableEq α] (values : List α) : Codec α := enum (values.map Variant.plain)

theorem plains_lawful [DecidableEq α] {values : List α} (distinct : values.Nodup)
    (few : values.length ≤ 256) : (plains values).Lawful (· ∈ values) := by
  refine enum_lawful (fun v member => ?_) ?_ (by simpa using few) (fun a member => ?_)
  · obtain ⟨a, member', rfl⟩ := List.mem_map.mp member
    exact Variant.plain_lawful member'
  · rw [List.pairwise_map]
    exact distinct.imp fun {a b} differ _ => if_neg (Ne.symm differ)
  · exact ⟨.plain a, List.mem_map_of_mem member, by simp [Variant.plain]⟩

/-- `bool`. -/
def bool : Codec Bool := plains [false, true]

theorem bool_lawful : bool.Lawful fun _ => True :=
  (plains_lawful (by decide) (by decide)).of_iff fun b => by cases b <;> simp

/-- `Option`. -/
def Codec.option (c : Codec α) : Codec (Option α) :=
  enum [⟨unit, fun _ => none, fun o => if o = none then some () else none⟩, ⟨c, some, id⟩]

theorem Codec.Lawful.option {c : Codec α} {fits : α → Prop} (lawful : c.Lawful fits) :
    c.option.Lawful fun o => ∀ a ∈ o, fits a := by
  refine enum_lawful ?_ ?_ (by simp) fun o _ => ?_
  · simp only [List.mem_cons, List.not_mem_nil, or_false, forall_eq_or_imp, forall_eq]
    refine ⟨⟨unit_lawful.of_iff (by simp), fun _ => rfl, fun {o _} parts => ?_⟩,
      ⟨lawful.of_iff (by simp), fun _ => rfl, Eq.symm⟩⟩
    cases o with
    | none => rfl
    | some a => cases parts
  · simp [Variant.Apart]
  · cases o <;> simp

/-! ## Lists and texts -/

/-- A number off the front, with its low two bits shifted out and no fewer than it needs. -/
def narrow (w least : Nat) (bytes : List UInt8) : Option (Nat × List UInt8) := do
  let (n, rest) ← ofBytes w bytes
  if least ≤ n / 4 then pure (n / 4, rest) else none

/-- `Compact<u32>`: a number in one, two, four or five bytes, whichever is the fewest. -/
def compact : Codec Nat where
  encode n :=
    if n < 2 ^ 6 then toBytes 1 (4 * n)
    else if n < 2 ^ 14 then toBytes 2 (4 * n + 1)
    else if n < 2 ^ 30 then toBytes 4 (4 * n + 2)
    else 3 :: toBytes 4 n
  decode
    | [] => none
    | b :: bytes =>
      if b.toNat % 4 = 0 then narrow 1 0 (b :: bytes)
      else if b.toNat % 4 = 1 then narrow 2 (2 ^ 6) (b :: bytes)
      else if b.toNat % 4 = 2 then narrow 4 (2 ^ 14) (b :: bytes)
      else if b = 3 then do
        let (n, rest) ← ofBytes 4 bytes
        if 2 ^ 30 ≤ n then pure (n, rest) else none
      else none

/-- So many values, one after the other. -/
def Codec.times (c : Codec α) : Nat → List UInt8 → Option (List α × List UInt8)
  | 0, bytes => some ([], bytes)
  | k + 1, bytes => do
    let (a, bytes) ← c.decode bytes
    let (as, rest) ← c.times k bytes
    pure (a :: as, rest)

/-- `Vec`. -/
def Codec.list (c : Codec α) : Codec (List α) where
  encode as := compact.encode as.length ++ as.flatMap c.encode
  decode bytes := do
    let (k, bytes) ← compact.decode bytes
    c.times k bytes

/-- `[T; k]`. -/
def Codec.array (c : Codec α) (k : Nat) : Codec (List α) := ⟨(·.flatMap c.encode), c.times k⟩

/-- `String`. -/
def text : Codec String :=
  byte.list.as (fun s => s.toByteArray.data.toList) fun bytes =>
    String.fromUTF8? bytes.toByteArray

theorem Codec.Lawful.times {c : Codec α} {fits : α → Prop} (lawful : c.Lawful fits)
    {as : List α} (fit : ∀ a ∈ as, fits a) (rest : List UInt8) :
    c.times as.length (as.flatMap c.encode ++ rest) = some (as, rest) := by
  induction as with
  | nil => rfl
  | cons a as ih =>
    obtain ⟨first, others⟩ := List.forall_mem_cons.mp fit
    simp only [List.length_cons, Codec.times, List.flatMap_cons, List.append_assoc,
      lawful.read first, ih others, Option.bind_eq_bind, Option.bind_some, Option.pure_def]

theorem Codec.Lawful.times_written {c : Codec α} {fits : α → Prop} (lawful : c.Lawful fits)
    {k : Nat} {bytes rest : List UInt8} {as : List α} (reads : c.times k bytes = some (as, rest)) :
    (∀ a ∈ as, fits a) ∧ as.length = k ∧ bytes = as.flatMap c.encode ++ rest := by
  induction k generalizing bytes as with
  | zero =>
    cases reads
    exact ⟨by simp, rfl, rfl⟩
  | succ k ih =>
    simp only [Codec.times, Option.bind_eq_bind, Option.bind_eq_some_iff, Option.pure_def,
      Option.some.injEq, Prod.mk.injEq, Prod.exists] at reads
    obtain ⟨a, more, reads, others, rest, reads', rfl, rfl⟩ := reads
    obtain ⟨fit, wrote⟩ := lawful.written reads
    obtain ⟨fits', length, wrote'⟩ := ih reads'
    refine ⟨List.forall_mem_cons.mpr ⟨fit, fits'⟩, by rw [List.length_cons, length], ?_⟩
    rw [wrote, wrote', List.flatMap_cons, List.append_assoc]

theorem Codec.Lawful.array {c : Codec α} {fits : α → Prop} (lawful : c.Lawful fits) (k : Nat) :
    (c.array k).Lawful fun as => as.length = k ∧ ∀ a ∈ as, fits a where
  read fit rest := fit.1 ▸ lawful.times fit.2 rest
  written reads := by
    obtain ⟨fits', length, wrote⟩ := lawful.times_written reads
    exact ⟨⟨length, fits'⟩, wrote⟩

theorem narrow_toBytes {w least m n : Nat} (low : m < 4) (fit : 4 * n + m < 256 ^ w)
    (enough : least ≤ n) (rest : List UInt8) :
    narrow w least (toBytes w (4 * n + m) ++ rest) = some (n, rest) := by
  have high : (4 * n + m) / 4 = n := by omega
  simp only [narrow, ofBytes_toBytes fit, Option.bind_eq_bind, Option.bind_some, high, enough,
    if_true, Option.pure_def]

/-- What the low bits say is how many bytes there are. -/
theorem toBytes_narrow {w least n : Nat} {b : UInt8} {bytes rest : List UInt8}
    (reads : narrow (w + 1) least (b :: bytes) = some (n, rest)) :
    least ≤ n ∧ 4 * n + b.toNat % 4 < 256 ^ (w + 1) ∧
      b :: bytes = toBytes (w + 1) (4 * n + b.toNat % 4) ++ rest := by
  simp only [narrow, Option.bind_eq_bind, Option.bind_eq_some_iff, Prod.exists] at reads
  obtain ⟨x, more, reads, number⟩ := reads
  split at number
  next enough =>
    simp only [Option.pure_def, Option.some.injEq, Prod.mk.injEq] at number
    obtain ⟨rfl, rfl⟩ := number
    obtain ⟨bound, wrote⟩ := toBytes_ofBytes reads
    have head : b.toNat = x % 256 := by
      rw [(List.cons.inj wrote).1, UInt8.toNat_ofNat']
    have whole : 4 * (x / 4) + b.toNat % 4 = x := by omega
    rw [whole]
    exact ⟨enough, bound, wrote⟩
  · cases number

/-- The low bits of the first byte are the number's. -/
theorem low_bits (n : Nat) : (UInt8.ofNat n).toNat % 4 = n % 4 := by
  rw [UInt8.toNat_ofNat']
  omega

theorem toBytes_succ (w n : Nat) (rest : List UInt8) :
    toBytes (w + 1) n ++ rest = UInt8.ofNat n :: (toBytes w (n / 256) ++ rest) := rfl

theorem compact_lawful : compact.Lawful (· < 2 ^ 32) where
  read {n} fit rest := by
    -- The number decides the width, in the order the writer tries them.
    by_cases one : n < 2 ^ 6
    · have reads := narrow_toBytes (w := 1) (m := 0) (by decide) (by omega) n.zero_le rest
      simp only [compact, one, if_true, Nat.add_zero, toBytes_succ, low_bits,
        Nat.mul_mod_right] at reads ⊢
      exact reads
    by_cases two : n < 2 ^ 14
    · have least : 2 ^ 6 ≤ n := by omega
      have reads := narrow_toBytes (w := 2) (m := 1) (by decide) (by omega) least rest
      simp only [compact, one, two, if_true, if_false, toBytes_succ, low_bits,
        Nat.mul_add_mod] at reads ⊢
      exact reads
    by_cases four : n < 2 ^ 30
    · have least : 2 ^ 14 ≤ n := by omega
      have reads := narrow_toBytes (w := 4) (m := 2) (by decide) (by omega) least rest
      simp only [compact, one, two, four, if_true, if_false, toBytes_succ, low_bits,
        Nat.mul_add_mod] at reads ⊢
      exact reads
    · have enough : 2 ^ 30 ≤ n := by omega
      have reads := ofBytes_toBytes (w := 4) (n := n) (by omega) rest
      have mode : (3 : UInt8).toNat % 4 = 3 := rfl
      have other : (3 : Nat) ≠ 0 ∧ (3 : Nat) ≠ 1 ∧ (3 : Nat) ≠ 2 := by decide
      simp only [compact, if_neg one, if_neg two, if_neg four, List.cons_append, mode,
        if_neg other.1, if_neg other.2.1, if_neg other.2.2, if_true, reads, if_pos enough,
        Option.bind_eq_bind, Option.bind_some, Option.pure_def]
  written {bytes rest n} reads := by
    cases bytes with
    | nil => cases reads
    | cons b bytes =>
      simp only [compact] at reads ⊢
      -- The two low bits decide the width, and a number that a shorter one would hold is refused.
      split at reads
      next bits =>
        obtain ⟨-, bound, wrote⟩ := toBytes_narrow reads
        rw [bits] at bound wrote
        refine ⟨by omega, ?_⟩
        rw [if_pos (by omega)]
        exact wrote
      · split at reads
        next bits =>
          obtain ⟨enough, bound, wrote⟩ := toBytes_narrow reads
          rw [bits] at bound wrote
          refine ⟨by omega, ?_⟩
          rw [if_neg (by omega), if_pos (by omega)]
          exact wrote
        · split at reads
          next bits =>
            obtain ⟨enough, bound, wrote⟩ := toBytes_narrow reads
            rw [bits] at bound wrote
            refine ⟨by omega, ?_⟩
            rw [if_neg (by omega), if_neg (by omega), if_pos (by omega)]
            exact wrote
          · split at reads
            next three =>
              simp only [Option.bind_eq_bind, Option.bind_eq_some_iff, Prod.exists] at reads
              obtain ⟨x, more, reads, number⟩ := reads
              split at number
              next enough =>
                cases number
                obtain ⟨bound, wrote⟩ := toBytes_ofBytes reads
                refine ⟨by omega, ?_⟩
                rw [if_neg (by omega), if_neg (by omega), if_neg (by omega), three, wrote,
                  List.cons_append]
              · cases number
            · cases reads

theorem Codec.Lawful.list {c : Codec α} {fits : α → Prop} (lawful : c.Lawful fits) :
    c.list.Lawful fun as => as.length < 2 ^ 32 ∧ ∀ a ∈ as, fits a where
  read fit rest := by
    simp only [Codec.list, List.append_assoc, compact_lawful.read fit.1, Option.bind_eq_bind,
      Option.bind_some, lawful.times fit.2]
  written reads := by
    simp only [Codec.list, Option.bind_eq_bind, Option.bind_eq_some_iff, Prod.exists] at reads
    obtain ⟨k, more, reads, reads'⟩ := reads
    obtain ⟨fit, wrote⟩ := compact_lawful.written reads
    obtain ⟨fits', length, wrote'⟩ := lawful.times_written reads'
    subst length
    refine ⟨⟨fit, fits'⟩, ?_⟩
    rw [wrote, wrote', Codec.list, List.append_assoc]

/-- A text is its bytes, where they are valid ones. -/
theorem fromUTF8_iff (bytes : List UInt8) (s : String) :
    String.fromUTF8? bytes.toByteArray = some s ↔ s.toByteArray.data.toList = bytes := by
  have same : s.toByteArray.data.toList = bytes ↔ s.toByteArray = bytes.toByteArray := by
    rw [← List.toList_data_toByteArray (l := bytes), Array.toList_inj, ByteArray.ext_iff,
      List.toList_data_toByteArray]
  rw [same]
  simp only [String.fromUTF8?]
  split
  next valid =>
    rw [Option.some_inj, ← String.toByteArray_inj]
    exact eq_comm
  next invalid => exact iff_of_false nofun fun same => invalid (same ▸ s.isValidUTF8)

theorem text_lawful : text.Lawful fun s => s.utf8ByteSize < 2 ^ 32 := by
  refine (byte_lawful.list.as fromUTF8_iff).of_iff fun s => ?_
  simp

end Scale

import AkumaMiot.Lib.Blake2b

/-!
# The page's BLAKE2b

`blake2b.js`. A word is a `BigInt`, which has no width of its own and is cut to 64 bits where it
may have grown.
-/
namespace AkumaMiot.Public

def IV : List Nat :=
  [0x6a09e667f3bcc908, 0xbb67ae8584caa73b, 0x3c6ef372fe94f82b, 0xa54ff53a5f1d36f1,
   0x510e527fade682d1, 0x9b05688c2b3e6c1f, 0x1f83d9abfb41bd6b, 0x5be0cd19137e2179]

def SIGMA : List (List Nat) :=
  [[0, 1, 2, 3, 4, 5, 6, 7, 8, 9, 10, 11, 12, 13, 14, 15],
   [14, 10, 4, 8, 9, 15, 13, 6, 1, 12, 0, 2, 11, 7, 5, 3],
   [11, 8, 12, 0, 5, 2, 15, 13, 10, 14, 3, 6, 7, 1, 9, 4],
   [7, 9, 3, 1, 13, 12, 11, 14, 2, 6, 5, 10, 4, 0, 15, 8],
   [9, 0, 5, 7, 2, 4, 10, 15, 14, 1, 11, 12, 6, 8, 3, 13],
   [2, 12, 6, 10, 0, 11, 8, 3, 4, 13, 7, 5, 15, 14, 1, 9],
   [12, 5, 1, 15, 14, 13, 4, 10, 0, 7, 6, 3, 9, 2, 8, 11],
   [13, 11, 7, 14, 12, 1, 3, 9, 5, 0, 15, 4, 8, 6, 2, 10],
   [6, 15, 14, 9, 11, 3, 0, 8, 12, 2, 13, 7, 1, 4, 10, 5],
   [10, 2, 8, 4, 7, 6, 1, 5, 15, 11, 9, 14, 3, 12, 13, 0],
   [0, 1, 2, 3, 4, 5, 6, 7, 8, 9, 10, 11, 12, 13, 14, 15],
   [14, 10, 4, 8, 9, 15, 13, 6, 1, 12, 0, 2, 11, 7, 5, 3]]

def M64 : Nat := (1 <<< 64) - 1

def rotr (x n : Nat) : Nat := ((x >>> n) ||| (x <<< (64 - n))) &&& M64

def G (v : List Nat) (a b c d x y : Nat) : List Nat :=
  let v := v.set a ((v.getD a 0 + v.getD b 0 + x) &&& M64)
  let v := v.set d (rotr (v.getD d 0 ^^^ v.getD a 0) 32)
  let v := v.set c ((v.getD c 0 + v.getD d 0) &&& M64)
  let v := v.set b (rotr (v.getD b 0 ^^^ v.getD c 0) 24)
  let v := v.set a ((v.getD a 0 + v.getD b 0 + y) &&& M64)
  let v := v.set d (rotr (v.getD d 0 ^^^ v.getD a 0) 16)
  let v := v.set c ((v.getD c 0 + v.getD d 0) &&& M64)
  v.set b (rotr (v.getD b 0 ^^^ v.getD c 0) 63)

/-- The body of the loop over the rounds. -/
def doRound (m v : List Nat) (r : Nat) : List Nat :=
  let s := SIGMA.getD r []
  let w := fun i => m.getD (s.getD i 0) 0
  let v := G v 0 4 8 12 (w 0) (w 1)
  let v := G v 1 5 9 13 (w 2) (w 3)
  let v := G v 2 6 10 14 (w 4) (w 5)
  let v := G v 3 7 11 15 (w 6) (w 7)
  let v := G v 0 5 10 15 (w 8) (w 9)
  let v := G v 1 6 11 12 (w 10) (w 11)
  let v := G v 2 7 8 13 (w 12) (w 13)
  G v 3 4 9 14 (w 14) (w 15)

/-- The word at `i`, its last byte taken first. -/
def readWord (block : List UInt8) (i : Nat) : Nat :=
  (List.range 8).reverse.foldl (fun w j => (w <<< 8) ||| (block.getD (i * 8 + j) 0).toNat) 0

def compress (h : List Nat) (block : List UInt8) (t : Nat) (last : Bool) : List Nat :=
  let m := (List.range 16).map (readWord block)
  let v := h ++ IV
  let v := v.set 12 (v.getD 12 0 ^^^ (t &&& M64))
  let v := v.set 13 (v.getD 13 0 ^^^ ((t >>> 64) &&& M64))
  let v := if last then v.set 14 (v.getD 14 0 ^^^ M64) else v
  let v := (List.range 12).foldl (doRound m) v
  (List.range 8).map fun i => h.getD i 0 ^^^ (v.getD i 0 ^^^ v.getD (i + 8) 0)

/-- Every full block except the last one. -/
def fullBlocks (input : List UInt8) (h : List Nat) (t i : Nat) : List Nat × Nat × Nat :=
  if 128 < input.length - i then
    fullBlocks input (compress h ((input.drop i).take 128) (t + 128) false) (t + 128) (i + 128)
  else (h, t, i)
termination_by input.length - i
decreasing_by omega

def blake2b (input : List UInt8) (outLen : Nat) : List UInt8 :=
  let h := IV.set 0 (IV.getD 0 0 ^^^ (0x01010000 ||| outLen))
  let (h, t, i) := fullBlocks input h 0 0
  let rest := input.drop i
  let last := rest ++ List.replicate (128 - rest.length) 0
  let h := compress h last (t + (input.length - i)) true
  (List.range outLen).map fun j => UInt8.ofNat ((h.getD (j >>> 3) 0 >>> (8 * (j &&& 7))) &&& 0xff)

/-! ## The page's words are those of the hash -/

/-- The page's array for an array of words. -/
def nat (v : List Blake2b.Word) : List Nat := v.map BitVec.toNat

theorem getD_nat (v : List Blake2b.Word) (i : Nat) : (nat v).getD i 0 = (v.getD i 0).toNat := by
  rw [nat, List.getD_eq_getElem?_getD, List.getElem?_map, List.getD_eq_getElem?_getD]
  cases v[i]? <;> rfl

theorem set_nat (v : List Blake2b.Word) (i : Nat) (x : Blake2b.Word) :
    (nat v).set i x.toNat = nat (v.set i x) := by
  rw [nat, nat, List.map_set]

theorem mask (n : Nat) : n &&& M64 = n % 2 ^ 64 := Nat.and_two_pow_sub_one_eq_mod n 64

theorem add_mask (a b : Blake2b.Word) : (a.toNat + b.toNat) &&& M64 = (a + b).toNat := by
  rw [mask, BitVec.toNat_add]

theorem add3_mask (a b x : Blake2b.Word) :
    (a.toNat + b.toNat + x.toNat) &&& M64 = (a + b + x).toNat := by
  rw [mask, BitVec.toNat_add, BitVec.toNat_add, Nat.mod_add_mod]

theorem rotr_nat (x : Blake2b.Word) {n : Nat} (inside : n < 64) :
    rotr x.toNat n = (x.rotateRight n).toNat := by
  have short : x.toNat >>> n < 2 ^ 64 := Nat.lt_of_le_of_lt (Nat.shiftRight_le _ _) x.isLt
  rw [rotr, mask, BitVec.toNat_rotateRight, Nat.mod_eq_of_lt inside, Nat.or_mod_two_pow,
    Nat.mod_eq_of_lt short]

theorem G_nat (v : List Blake2b.Word) (a b c d : Nat) (x y : Blake2b.Word) :
    G (nat v) a b c d x.toNat y.toNat = nat (Blake2b.mix v a b c d x y) := by
  simp only [G, Blake2b.mix, getD_nat, add_mask, add3_mask, ← BitVec.toNat_xor, set_nat,
    rotr_nat _ (show 32 < 64 by decide), rotr_nat _ (show 24 < 64 by decide),
    rotr_nat _ (show 16 < 64 by decide), rotr_nat _ (show 63 < 64 by decide)]

theorem doRound_nat (m v : List Blake2b.Word) {r : Nat} (inside : r < 12) :
    doRound (nat m) (nat v) r = nat (Blake2b.round m v (Blake2b.sigma.getD (r % 10) [])) := by
  have order : ∀ r, r < 12 → SIGMA.getD r [] = Blake2b.sigma.getD (r % 10) [] := by decide
  simp only [doRound, Blake2b.round, order r inside, getD_nat, G_nat]

theorem rounds_nat (m v : List Blake2b.Word) {rs : List Nat} (inside : ∀ r ∈ rs, r < 12) :
    rs.foldl (doRound (nat m)) (nat v) =
      nat (rs.foldl (fun v r => Blake2b.round m v (Blake2b.sigma.getD (r % 10) [])) v) := by
  induction rs generalizing v with
  | nil => rfl
  | cons r rs ih =>
    rw [List.foldl_cons, List.foldl_cons, doRound_nat m v (inside r List.mem_cons_self)]
    exact ih _ fun r' member => inside r' (List.mem_cons_of_mem r member)

theorem readWord_eq (block : List UInt8) (i : Nat) :
    readWord block i = Blake2b.number block i := by
  rw [readWord, List.foldl_reverse, Blake2b.number]
  congr 1
  funext j w
  have byte := (block.getD (8 * i + j) 0).toNat_lt
  rw [Nat.mul_comm i 8, ← Nat.shiftLeft_add_eq_or_of_lt (by omega), Nat.shiftLeft_eq]
  omega

theorem readWords_nat (block : List UInt8) :
    (List.range 16).map (readWord block) = nat (Blake2b.words block) := by
  rw [nat, Blake2b.words, List.map_map]
  refine List.map_congr_left fun i _ => ?_
  rw [readWord_eq, Function.comp_apply, BitVec.toNat_ofNat,
    Nat.mod_eq_of_lt (Blake2b.number_lt block i)]

theorem iv_nat : IV = nat Blake2b.iv := by decide

theorem xor_mask (a : Blake2b.Word) (n : Nat) :
    a.toNat ^^^ (n &&& M64) = (a ^^^ BitVec.ofNat 64 n).toNat := by
  rw [mask, BitVec.toNat_xor, BitVec.toNat_ofNat]

theorem xor_ones (a : Blake2b.Word) : a.toNat ^^^ M64 = (~~~a).toNat := by
  have ones : M64 = (BitVec.allOnes 64).toNat := by decide
  rw [ones, ← BitVec.toNat_xor, BitVec.xor_allOnes]

theorem compress_nat (h : List Blake2b.Word) (block : List UInt8) (t : Nat) (last : Bool) :
    compress (nat h) block t last = nat (Blake2b.compress h (Blake2b.words block) t last) := by
  have appended : nat h ++ IV = nat (h ++ Blake2b.iv) := by
    rw [iv_nat, nat, nat, nat, List.map_append]
  have inside : ∀ r ∈ List.range 12, r < 12 := fun r member => List.mem_range.mp member
  have ended : ∀ v : List Blake2b.Word,
      (if last then (nat v).set 14 ((v.getD 14 0).toNat ^^^ M64) else nat v) =
        nat (if last then v.set 14 (~~~v.getD 14 0) else v) := by
    intro v
    cases last with
    | false => rfl
    | true => simp only [if_true, xor_ones, set_nat]
  simp only [compress, Blake2b.compress, readWords_nat, appended, getD_nat, xor_mask, set_nat,
    Nat.shiftRight_eq_div_pow, ended, rounds_nat _ _ inside]
  rw [nat, List.map_map]
  refine List.map_congr_left fun i _ => ?_
  rw [Function.comp_apply, BitVec.toNat_xor, BitVec.toNat_xor, Nat.xor_assoc]

/-! ## Its blocks are those of the hash -/

theorem padded_full {bytes : List UInt8} (full : bytes.length = 128) :
    Blake2b.padded bytes = bytes := by
  simp [Blake2b.padded, full]

theorem fullBlocks_eq (input : List UInt8) (size : Nat) {k : Nat}
    (before : k ≤ Blake2b.blocks input - 1) :
    fullBlocks input (nat (Blake2b.after size input k)) (128 * k) (128 * k) =
      (nat (Blake2b.after size input (Blake2b.blocks input - 1)),
        128 * (Blake2b.blocks input - 1), 128 * (Blake2b.blocks input - 1)) := by
  -- By the number of full blocks that are left; the last block is never compressed here.
  generalize gap : Blake2b.blocks input - 1 - k = left
  induction left generalizing k with
  | zero =>
    obtain rfl : k = Blake2b.blocks input - 1 := by omega
    have stop : ¬ 128 < input.length - 128 * (Blake2b.blocks input - 1) := by
      simp only [Blake2b.blocks]
      omega
    rw [fullBlocks, if_neg stop]
  | succ left ih =>
    have more : 128 < input.length - 128 * k := by
      simp only [Blake2b.blocks] at gap
      omega
    have full : ((input.drop (128 * k)).take 128).length = 128 := by
      rw [List.length_take, List.length_drop]
      omega
    have here : compress (nat (Blake2b.after size input k)) ((input.drop (128 * k)).take 128)
        (128 * k + 128) false = nat (Blake2b.after size input (k + 1)) := by
      rw [compress_nat, Blake2b.after_succ, Blake2b.block, padded_full full, Nat.mul_succ]
    rw [fullBlocks, if_pos more, here]
    exact ih (by omega) (by omega)

theorem start_nat {size : Nat} (small : size ≤ 64) :
    IV.set 0 (IV.getD 0 0 ^^^ (0x01010000 ||| size)) = nat (Blake2b.start size) := by
  have all : ∀ size, size < 65 →
      IV.set 0 (IV.getD 0 0 ^^^ (0x01010000 ||| size)) = nat (Blake2b.start size) := by
    decide +kernel
  exact all size (by omega)

theorem toBytes_getElem? (w n i : Nat) (inside : i < w) :
    (Scale.toBytes w n)[i]? = some (UInt8.ofNat (n / 256 ^ i)) := by
  induction w generalizing n i with
  | zero => omega
  | succ w ih =>
    cases i with
    | zero => simp [Scale.toBytes]
    | succ i =>
      rw [Scale.toBytes, List.getElem?_cons_succ, ih _ _ (by omega), Nat.div_div_eq_div_mul,
        Nat.pow_succ']

/-- Eight bytes for each word, the lowest first. -/
theorem bytes_getElem? (h : List Blake2b.Word) {j : Nat} (inside : j < 8 * h.length) :
    (h.flatMap fun w => Scale.toBytes 8 w.toNat)[j]? =
      some (UInt8.ofNat ((h.getD (j / 8) 0).toNat / 256 ^ (j % 8))) := by
  induction h generalizing j with
  | nil => simp at inside
  | cons w h ih =>
    rw [List.flatMap_cons]
    by_cases here : j < 8
    · rw [List.getElem?_append_left (by simpa using here), toBytes_getElem? 8 _ j here,
        Nat.div_eq_of_lt here, Nat.mod_eq_of_lt here]
      rfl
    · rw [List.length_cons] at inside
      obtain ⟨i, rfl⟩ : ∃ i, j = i + 8 := ⟨j - 8, by omega⟩
      rw [List.getElem?_append_right (by simp), Scale.length_toBytes, Nat.add_sub_cancel,
        ih (by omega), Nat.add_div_right i (by decide), Nat.add_mod_right]
      rfl

/-- The bytes the page takes out of the words. -/
theorem out_eq {h : List Blake2b.Word} (eight : h.length = 8) {outLen : Nat} (small : outLen ≤ 64) :
    ((List.range outLen).map fun j =>
      UInt8.ofNat (((nat h).getD (j >>> 3) 0 >>> (8 * (j &&& 7))) &&& 0xff)) =
        (h.flatMap fun w => Scale.toBytes 8 w.toNat).take outLen := by
  apply List.ext_getElem?
  intro j
  rw [List.getElem?_map, List.getElem?_take]
  by_cases inside : j < outLen
  · have byte : ∀ n, UInt8.ofNat ((n >>> (8 * (j % 8))) &&& 0xff) =
        UInt8.ofNat (n / 256 ^ (j % 8)) := by
      intro n
      have low : ∀ k, k &&& 0xff = k % 256 := fun k => Nat.and_two_pow_sub_one_eq_mod k 8
      have power : 2 ^ (8 * (j % 8)) = 256 ^ (j % 8) := Nat.pow_mul 2 8 _
      rw [low, Nat.shiftRight_eq_div_pow, power, ← UInt8.toNat_inj, UInt8.toNat_ofNat',
        UInt8.toNat_ofNat', Nat.mod_mod]
    have eighth : j >>> 3 = j / 8 := Nat.shiftRight_eq_div_pow j 3
    have seven : j &&& 7 = j % 8 := Nat.and_two_pow_sub_one_eq_mod j 3
    rw [if_pos inside, bytes_getElem? h (by omega), List.getElem?_range inside, Option.map_some,
      eighth, seven, getD_nat, byte]
  · rw [if_neg inside, List.getElem?_eq_none (by simpa using inside)]
    rfl

/-- The page's hash is BLAKE2b, for every input and every size. -/
theorem blake2b_eq (input : List UInt8) {outLen : Nat} (small : outLen ≤ 64) :
    blake2b input outLen = Blake2b.hash outLen input := by
  have loop := fullBlocks_eq input outLen (Nat.zero_le _)
  have first : nat (Blake2b.after outLen input 0) = nat (Blake2b.start outLen) := rfl
  rw [first, Nat.mul_zero] at loop
  have most : 128 * (Blake2b.blocks input - 1) ≤ input.length ∧
      input.length - 128 * (Blake2b.blocks input - 1) ≤ 128 := by
    simp only [Blake2b.blocks]
    omega
  have count : 128 * (Blake2b.blocks input - 1) +
      (input.length - 128 * (Blake2b.blocks input - 1)) = input.length := by omega
  -- What is left is the last block, and there is no more behind it.
  have whole : (input.drop (128 * (Blake2b.blocks input - 1))).take 128 =
      input.drop (128 * (Blake2b.blocks input - 1)) := by
    apply List.take_of_length_le
    rw [List.length_drop]
    exact most.2
  have last : input.drop (128 * (Blake2b.blocks input - 1)) ++ List.replicate
      (128 - (input.drop (128 * (Blake2b.blocks input - 1))).length) 0 =
        Blake2b.block input (Blake2b.blocks input - 1) := by
    rw [Blake2b.block, whole]
    rfl
  simp only [blake2b, start_nat small, loop, count, last, compress_nat, Blake2b.hash,
    out_eq (Blake2b.length_compress _ _ _ _) small]

end AkumaMiot.Public

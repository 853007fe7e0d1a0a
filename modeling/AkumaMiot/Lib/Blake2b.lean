import AkumaMiot.Lib.Scale

/-!
# BLAKE2b

The hash without a key, as RFC 7693 defines it: words of 64 bits, blocks of 128 bytes, twelve
rounds.
-/
namespace Blake2b

abbrev Word := BitVec 64

def iv : List Word :=
  [0x6a09e667f3bcc908, 0xbb67ae8584caa73b, 0x3c6ef372fe94f82b, 0xa54ff53a5f1d36f1,
   0x510e527fade682d1, 0x9b05688c2b3e6c1f, 0x1f83d9abfb41bd6b, 0x5be0cd19137e2179]

/-- The order of the words in a round. Round ten begins again. -/
def sigma : List (List Nat) :=
  [[0, 1, 2, 3, 4, 5, 6, 7, 8, 9, 10, 11, 12, 13, 14, 15],
   [14, 10, 4, 8, 9, 15, 13, 6, 1, 12, 0, 2, 11, 7, 5, 3],
   [11, 8, 12, 0, 5, 2, 15, 13, 10, 14, 3, 6, 7, 1, 9, 4],
   [7, 9, 3, 1, 13, 12, 11, 14, 2, 6, 5, 10, 4, 0, 15, 8],
   [9, 0, 5, 7, 2, 4, 10, 15, 14, 1, 11, 12, 6, 8, 3, 13],
   [2, 12, 6, 10, 0, 11, 8, 3, 4, 13, 7, 5, 15, 14, 1, 9],
   [12, 5, 1, 15, 14, 13, 4, 10, 0, 7, 6, 3, 9, 2, 8, 11],
   [13, 11, 7, 14, 12, 1, 3, 9, 5, 0, 15, 4, 8, 6, 2, 10],
   [6, 15, 14, 9, 11, 3, 0, 8, 12, 2, 13, 7, 1, 4, 10, 5],
   [10, 2, 8, 4, 7, 6, 1, 5, 15, 11, 9, 14, 3, 12, 13, 0]]

/-- The mixing function `G`. -/
def mix (v : List Word) (a b c d : Nat) (x y : Word) : List Word :=
  let v := v.set a (v.getD a 0 + v.getD b 0 + x)
  let v := v.set d ((v.getD d 0 ^^^ v.getD a 0).rotateRight 32)
  let v := v.set c (v.getD c 0 + v.getD d 0)
  let v := v.set b ((v.getD b 0 ^^^ v.getD c 0).rotateRight 24)
  let v := v.set a (v.getD a 0 + v.getD b 0 + y)
  let v := v.set d ((v.getD d 0 ^^^ v.getD a 0).rotateRight 16)
  let v := v.set c (v.getD c 0 + v.getD d 0)
  v.set b ((v.getD b 0 ^^^ v.getD c 0).rotateRight 63)

/-- A round: the columns, then the diagonals. -/
def round (m : List Word) (v : List Word) (s : List Nat) : List Word :=
  let w := fun i => m.getD (s.getD i 0) 0
  let v := mix v 0 4 8 12 (w 0) (w 1)
  let v := mix v 1 5 9 13 (w 2) (w 3)
  let v := mix v 2 6 10 14 (w 4) (w 5)
  let v := mix v 3 7 11 15 (w 6) (w 7)
  let v := mix v 0 5 10 15 (w 8) (w 9)
  let v := mix v 1 6 11 12 (w 10) (w 11)
  let v := mix v 2 7 8 13 (w 12) (w 13)
  mix v 3 4 9 14 (w 14) (w 15)

/-- The compression function `F`, after `t` bytes. -/
def compress (h m : List Word) (t : Nat) (last : Bool) : List Word :=
  let v := h ++ iv
  let v := v.set 12 (v.getD 12 0 ^^^ BitVec.ofNat 64 t)
  let v := v.set 13 (v.getD 13 0 ^^^ BitVec.ofNat 64 (t / 2 ^ 64))
  let v := if last then v.set 14 (~~~v.getD 14 0) else v
  let v := (List.range 12).foldl (fun v r => round m v (sigma.getD (r % 10) [])) v
  (List.range 8).map fun i => h.getD i 0 ^^^ v.getD i 0 ^^^ v.getD (i + 8) 0

/-- The number that eight bytes of a block are, the lowest first. -/
def number (block : List UInt8) (i : Nat) : Nat :=
  (List.range 8).foldr (fun j n => (block.getD (8 * i + j) 0).toNat + 256 * n) 0

def words (block : List UInt8) : List Word :=
  (List.range 16).map fun i => BitVec.ofNat 64 (number block i)

/-- Zeros up to a whole block. -/
def padded (bytes : List UInt8) : List UInt8 := bytes ++ List.replicate (128 - bytes.length) 0

def block (message : List UInt8) (i : Nat) : List UInt8 :=
  padded ((message.drop (128 * i)).take 128)

/-- How many blocks there are. No message is one. -/
def blocks (message : List UInt8) : Nat := max 1 ((message.length + 127) / 128)

def start (size : Nat) : List Word :=
  iv.set 0 (iv.getD 0 0 ^^^ 0x01010000 ^^^ BitVec.ofNat 64 size)

/-- The state after the first `k` blocks, none of which is the last. -/
def after (size : Nat) (message : List UInt8) (k : Nat) : List Word :=
  (List.range k).foldl
    (fun h i => compress h (words (block message i)) (128 * (i + 1)) false) (start size)

/-- The hash of `size` bytes. -/
def hash (size : Nat) (message : List UInt8) : List UInt8 :=
  let last := blocks message - 1
  let h := compress (after size message last) (words (block message last)) message.length true
  (h.flatMap fun w => Scale.toBytes 8 w.toNat).take size

theorem after_succ (size : Nat) (message : List UInt8) (k : Nat) :
    after size message (k + 1) =
      compress (after size message k) (words (block message k)) (128 * (k + 1)) false := by
  rw [after, List.range_succ, List.foldl_append]
  rfl

theorem length_compress (h m : List Word) (t : Nat) (last : Bool) :
    (compress h m t last).length = 8 := by
  simp [compress]

theorem number_lt (block : List UInt8) (i : Nat) : number block i < 2 ^ 64 := by
  have each : ∀ js : List Nat,
      js.foldr (fun j n => (block.getD (8 * i + j) 0).toNat + 256 * n) 0 < 256 ^ js.length := by
    intro js
    induction js with
    | nil => simp
    | cons j js ih =>
      have byte := (block.getD (8 * i + j) 0).toNat_lt
      simp only [List.foldr_cons, List.length_cons, Nat.pow_succ]
      omega
  have whole := each (List.range 8)
  rw [List.length_range] at whole
  exact whole

end Blake2b

import AkumaMiot.Lib.Machine
import AkumaMiot.Lib.Numerals
import AkumaMiot.Lib.Utf8
import Mathlib.Data.Nat.Digits.Defs

/-!
# The buffer of a running call

What a call has printed so far, cut to its head and its newest tail whenever it grows too long, with
a marker in between. The marker of the cut before is inside the part that is cut.
-/
namespace AkumaMiot

/-- A running call's buffer, before it is cut. -/
def LIVE_BYTES : Nat := 512 * 1024
def LIVE_HEAD : Nat := 64 * 1024

/-- A call in flight, as far as what it prints goes. -/
structure Live where
  out : List UInt8 := []
  bytes : UInt64 := 0
  lastOutput : Option Nat := none
  stallNoted : Bool := false
deriving DecidableEq, Repr

namespace Live

/-- What a cut puts in place of `n` bytes. -/
def marker (n : Nat) : List UInt8 := Utf8.bytes s!"\n… [{n} bytes not kept] …\n"

def push (now : Nat) (live : Live) (chunk : List UInt8) : Live :=
  let out := live.out ++ chunk
  let out :=
    if out.length > LIVE_BYTES then
      -- Keep the head (what it set out to do) and the newest tail.
      let tailFrom := out.length - LIVE_BYTES / 2
      out.take LIVE_HEAD ++ marker (tailFrom - LIVE_HEAD) ++ out.drop tailFrom
    else out
  { out := out
    bytes := live.bytes + UInt64.ofNat chunk.length
    lastOutput := some now
    stallNoted := false }

/-! ## The buffer beside the stream -/

/-- What is read of a call's output at once, and when. -/
structure Chunk where
  now : Nat
  data : List UInt8
  small : data.length ≤ LIVE_BYTES / 2

/-- A buffer, and all that was pushed into it. -/
structure Streamed where
  live : Live := {}
  stream : List UInt8 := []
deriving DecidableEq, Repr

def Streamed.step (s : Streamed) (c : Chunk) : Streamed :=
  ⟨s.live.push c.now c.data, s.stream ++ c.data⟩

/-- The head of the stream, one marker for `n` bytes, and a suffix, which account for it all. -/
structure CutTo (s : Streamed) (n : Nat) (suffix : List UInt8) : Prop where
  out : s.live.out = s.stream.take LIVE_HEAD ++ marker n ++ suffix
  last : suffix <:+ s.stream
  account : LIVE_HEAD + n + suffix.length = s.stream.length

/-- The buffer is never too long, and it is the stream or says what is missing. -/
structure Truthful (s : Streamed) : Prop where
  bounded : s.live.out.length ≤ LIVE_BYTES
  told : s.live.out = s.stream ∨ ∃ n suffix, CutTo s n suffix

/-- A push that does not cut what has been cut. -/
def CutsOnce (s : Streamed) (c : Chunk) : Prop :=
  s.live.out = s.stream ∨ s.live.out.length + c.data.length ≤ LIVE_BYTES

/-! ## Markers -/

theorem digit_ascii {n : Nat} : ∀ c ∈ Nat.toDigits 10 n, c.toNat < 128 ∧ c ≠ ' ' := by
  intro c member
  obtain ⟨d, small, rfl⟩ := Numerals.mem_toDigits (by decide) member
  have all : ∀ d, d < 10 → d.digitChar.toNat < 128 ∧ d.digitChar ≠ ' ' := by decide
  exact all d small

/-- A number as it is printed. -/
def decimal (n : Nat) : List UInt8 := (Nat.toDigits 10 n).map fun c => UInt8.ofNat c.toNat

theorem marker_eq (n : Nat) : marker n =
    Utf8.bytes "\n… [" ++ (decimal n ++ 32 :: Utf8.bytes "bytes not kept] …\n") := by
  have text : toString n = String.ofList (Nat.toDigits 10 n) := by
    rw [← Nat.toList_repr, String.ofList_toList]
    rfl
  have digits : Utf8.bytes (toString n) = decimal n := by
    rw [text, Utf8.bytes_ascii fun c member => (digit_ascii c member).1]
    rfl
  have rest : Utf8.bytes " bytes not kept] …\n" = 32 :: Utf8.bytes "bytes not kept] …\n" := by
    decide +kernel
  unfold marker
  rw [Utf8.bytes_append, Utf8.bytes_append, digits]
  change Utf8.bytes "\n… [" ++ decimal n ++ Utf8.bytes " bytes not kept] …\n" = _
  rw [rest, List.append_assoc]

/-- A marker ends where it says, whatever stands behind it. -/
theorem marker_inj {m n : Nat} {xs ys : List UInt8}
    (same : marker m ++ xs = marker n ++ ys) : m = n ∧ xs = ys := by
  rw [marker_eq, marker_eq] at same
  simp only [List.append_assoc, List.cons_append, List.append_cancel_left_eq] at same
  have blank : ∀ k, ∀ b ∈ decimal k, (b != 32) = true := by
    intro k b member
    obtain ⟨c, digit, rfl⟩ := List.mem_map.mp member
    obtain ⟨ascii, other⟩ := digit_ascii c digit
    simp only [bne_iff_ne]
    intro isBlank
    refine other (Char.toNat_inj.mp ?_)
    have code := congrArg UInt8.toNat isBlank
    rw [UInt8.toNat_ofNat', Nat.mod_eq_of_lt (by omega)] at code
    exact code
  have front := congrArg (List.takeWhile (· != 32)) same
  rw [List.takeWhile_append_of_pos (blank m), List.takeWhile_append_of_pos (blank n),
    List.takeWhile_cons_of_neg (by decide), List.takeWhile_cons_of_neg (by decide),
    List.append_nil, List.append_nil] at front
  rw [front] at same
  refine ⟨?_, by simpa using same⟩
  exact Numerals.toDigits_inj (by decide) (by decide) (Utf8.map_ascii_inj
    (fun c member => (digit_ascii c member).1) (fun c member => (digit_ascii c member).1) front)

/-- A marker of less than a megabyte is short. -/
theorem marker_length {n : Nat} (small : n < 10 ^ 7) : (marker n).length ≤ 100 := by
  have digits := Nat.toDigits_length 10 n 7 (by decide) small
  have words : (Utf8.bytes "\n… [").length = 6 ∧
      (Utf8.bytes "bytes not kept] …\n").length = 20 := by decide +kernel
  rw [marker_eq, List.length_append, List.length_append, List.length_cons, words.1, words.2]
  unfold decimal
  rw [List.length_map]
  omega

/-! ## One push -/

section
variable {s : Streamed} {c : Chunk}

theorem step_short (short : s.live.out.length + c.data.length ≤ LIVE_BYTES) :
    (s.step c).live.out = s.live.out ++ c.data := by
  have fits : ¬ (s.live.out ++ c.data).length > LIVE_BYTES := by
    rw [List.length_append]
    omega
  exact if_neg fits

theorem step_long (long : LIVE_BYTES < s.live.out.length + c.data.length) :
    (s.step c).live.out = (s.live.out ++ c.data).take LIVE_HEAD ++
      marker (s.live.out.length + c.data.length - LIVE_BYTES / 2 - LIVE_HEAD) ++
      (s.live.out ++ c.data).drop (s.live.out.length + c.data.length - LIVE_BYTES / 2) := by
  rw [← List.length_append] at long ⊢
  exact if_pos long

/-- What a run keeps: where something is missing, it is more than a marker is long. -/
structure Kept (s : Streamed) : Prop where
  bounded : s.live.out.length ≤ LIVE_BYTES
  told : s.live.out = s.stream ∨ ∃ n suffix, CutTo s n suffix ∧ 1000 ≤ n ∧ n ≤ 2 * LIVE_BYTES

theorem Kept.truthful (kept : Kept s) : Truthful s := by
  refine ⟨kept.bounded, ?_⟩
  rcases kept.told with whole | ⟨n, suffix, cut, _⟩
  · exact .inl whole
  · exact .inr ⟨n, suffix, cut⟩

/-- The head stays what it is once the stream is long enough. -/
theorem CutTo.head {n : Nat} {suffix : List UInt8} (cut : CutTo s n suffix) (more : List UInt8) :
    (s.stream ++ more).take LIVE_HEAD = s.stream.take LIVE_HEAD :=
  List.take_append_of_le_length (by have := cut.account; omega)

theorem CutTo.head_length {n : Nat} {suffix : List UInt8} (cut : CutTo s n suffix) :
    (s.stream.take LIVE_HEAD).length = LIVE_HEAD := by
  rw [List.length_take]
  have := cut.account
  omega

/-- A push that does not cut what has been cut keeps the buffer truthful. -/
theorem Kept.step (kept : Kept s) (once : CutsOnce s c) : Kept (s.step c) := by
  have bytes : LIVE_BYTES = 524288 := rfl
  have head : LIVE_HEAD = 65536 := rfl
  rcases Nat.lt_or_ge LIVE_BYTES (s.live.out.length + c.data.length) with long | short
  · -- the first cut, of a buffer that is still the stream
    have whole : s.live.out = s.stream := once.resolve_right (Nat.not_le.mpr long)
    have chunk := c.small
    have before := kept.bounded
    have out := step_long long
    rw [whole] at out long before
    have total : (s.step c).stream.length = s.stream.length + c.data.length := List.length_append
    have mark := marker_length
      (n := s.stream.length + c.data.length - LIVE_BYTES / 2 - LIVE_HEAD) (by omega)
    have tail : ((s.step c).stream.drop
        (s.stream.length + c.data.length - LIVE_BYTES / 2)).length = LIVE_BYTES / 2 := by
      rw [List.length_drop, total]
      omega
    refine ⟨?_, .inr ⟨_, _, ⟨out, List.drop_suffix _ _, ?_⟩, by omega, by omega⟩⟩
    · rw [out, List.length_append, List.length_append, List.length_take]
      change _ + ((s.step c).stream.drop _).length ≤ LIVE_BYTES
      rw [tail]
      omega
    · change _ + _ + ((s.step c).stream.drop _).length = _
      rw [tail, total]
      omega
  · have out := step_short short
    refine ⟨by rw [out, List.length_append]; exact short, ?_⟩
    rcases kept.told with whole | ⟨n, suffix, cut, large, small⟩
    · exact .inl (by rw [out, whole]; rfl)
    · refine .inr ⟨n, suffix ++ c.data, ⟨?_, ?_, ?_⟩, large, small⟩
      · change _ = (s.stream ++ c.data).take LIVE_HEAD ++ _ ++ _
        rw [out, cut.out, cut.head, List.append_assoc _ suffix]
      · obtain ⟨front, split⟩ := cut.last
        exact ⟨front, by rw [← List.append_assoc, split]; rfl⟩
      · change _ = (s.stream ++ c.data).length
        rw [List.length_append, List.length_append, ← cut.account]
        omega

/-- A second cut takes the marker of the first for output, and forgets what that left out. -/
theorem Kept.second_cut (kept : Kept s) (truthful : Truthful (s.step c)) : CutsOnce s c := by
  have bytes : LIVE_BYTES = 524288 := rfl
  have head : LIVE_HEAD = 65536 := rfl
  -- Were this a second cut that tells the truth, the marker of the first would have to be part of
  -- the stream: the two accounts of what was left out then differ.
  by_contra again
  obtain ⟨cutBefore, long⟩ := not_or.mp again
  have long := Nat.not_le.mp long
  have chunk := c.small
  have before := kept.bounded
  obtain ⟨n, suffix, cut, large, small⟩ := kept.told.resolve_left cutBefore
  have first : (marker n).length ≤ 100 := marker_length (by omega)
  have out := step_long long
  have length : s.live.out.length = LIVE_HEAD + (marker n).length + suffix.length := by
    rw [cut.out, List.length_append, List.length_append, cut.head_length]
  have total : (s.step c).stream.length = s.stream.length + c.data.length := List.length_append
  have account := cut.account
  -- The front stays what it was: both cuts keep the first bytes of the stream.
  have front : (s.live.out ++ c.data).take LIVE_HEAD = (s.step c).stream.take LIVE_HEAD := by
    have same := cut.head c.data
    change _ = (s.stream ++ c.data).take LIVE_HEAD
    rw [same, cut.out, List.append_assoc, List.append_assoc,
      List.take_append_of_le_length (Nat.le_of_eq cut.head_length.symm), List.take_take,
      Nat.min_self]
  have headLength : ((s.step c).stream.take LIVE_HEAD).length = LIVE_HEAD := by
    rw [List.length_take, total]
    omega
  have tail : ((s.live.out ++ c.data).drop
      (s.live.out.length + c.data.length - LIVE_BYTES / 2)).length = LIVE_BYTES / 2 := by
    rw [List.length_drop, List.length_append]
    omega
  have second := marker_length
    (n := s.live.out.length + c.data.length - LIVE_BYTES / 2 - LIVE_HEAD) (by omega)
  -- The text is either the whole stream, too long for that, or cut once, where the numbers in the
  -- markers must agree.
  rcases truthful.told with whole | ⟨n', suffix', cut'⟩
  · have lengths := congrArg List.length whole
    rw [out, List.length_append, List.length_append, front, headLength, tail, total] at lengths
    omega
  · have text := cut'.out
    rw [out, front, List.append_assoc, List.append_assoc, List.append_cancel_left_eq] at text
    obtain ⟨same, rest⟩ := marker_inj text
    have account' := cut'.account
    rw [← same, ← rest, tail, total] at account'
    omega

end

/-! ## Every run -/

theorem empty_kept : Kept {} := ⟨Nat.zero_le _, .inl rfl⟩

theorem truthful_iff_once {s : Streamed} (kept : Kept s) (chunks : List Chunk) :
    (∀ before, before <+: chunks → Truthful (Machine.run Streamed.step s before)) ↔
      Machine.Meets Streamed.step CutsOnce s chunks := by
  have holds : ∀ s : Streamed, Kept s → Truthful s := fun _ kept => kept.truthful
  have keeps : ∀ (s : Streamed) (c : Chunk), Kept s → CutsOnce s c → Kept (s.step c) :=
    fun _ _ kept once => kept.step once
  have needs : ∀ (s : Streamed) (c : Chunk), Kept s → Truthful (s.step c) → CutsOnce s c :=
    fun _ _ kept truthful => kept.second_cut truthful
  exact Machine.always_iff_meets_of holds keeps needs kept

/-- Pushing chunks into an empty buffer, it is truthful all along exactly if it is cut at most
once. -/
theorem live_truthful (chunks : List Chunk) :
    (∀ before, before <+: chunks → Truthful (Machine.run Streamed.step {} before)) ↔
      Machine.Meets Streamed.step CutsOnce {} chunks :=
  truthful_iff_once empty_kept chunks

/-- The stream is what was pushed. -/
theorem stream_length (chunks : List Chunk) (s : Streamed) :
    (Machine.run Streamed.step s chunks).stream.length =
      s.stream.length + (chunks.map (·.data.length)).sum := by
  induction chunks generalizing s with
  | nil => rfl
  | cons c chunks ih =>
    rw [Machine.run_cons, ih, List.map_cons, List.sum_cons]
    change (s.stream ++ c.data).length + _ = _
    rw [List.length_append, Nat.add_assoc]

/-- What a call prints in full blocks of what is read at once. -/
def blocks (n : Nat) : List Chunk :=
  List.replicate n ⟨0, List.replicate 8192 0, by rw [List.length_replicate]; decide⟩

/-- Two megabytes of output are cut more than once. -/
theorem live_truthful_twoMegabytes :
    ¬ ∀ chunks before, before <+: chunks → Truthful (Machine.run Streamed.step {} before) := by
  intro always
  have once : Machine.Meets Streamed.step CutsOnce {} (blocks 256) :=
    (truthful_iff_once empty_kept _).mp (always (blocks 256))
  have kept : Kept (Machine.run Streamed.step {} (blocks 256)) :=
    Machine.run_invariant Kept (fun _ _ kept once => kept.step once) empty_kept once
  have length : (Machine.run Streamed.step {} (blocks 256)).stream.length = 2097152 := by
    rw [stream_length, blocks, List.map_replicate, List.length_replicate, List.sum_replicate_nat]
    decide
  have bytes : LIVE_BYTES = 524288 := rfl
  have head : LIVE_HEAD = 65536 := rfl
  have bounded := kept.bounded
  rcases kept.told with whole | ⟨n, suffix, cut, _, small⟩
  · rw [whole, length] at bounded
    omega
  · have account := cut.account
    rw [cut.out, List.length_append, List.length_append, cut.head_length] at bounded
    omega

end Live

end AkumaMiot

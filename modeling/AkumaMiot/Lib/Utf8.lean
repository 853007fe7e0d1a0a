import Mathlib.Data.List.Basic

/-!
# Texts as UTF-8 bytes
-/
namespace Utf8

/-- `str::as_bytes`. -/
def bytes (s : String) : List UInt8 := s.toList.flatMap String.utf8EncodeChar

theorem bytes_eq (s : String) : bytes s = s.toByteArray.data.toList := by
  rw [← String.utf8Encode_toList]
  simp [bytes, List.utf8Encode]

theorem bytes_append (s t : String) : bytes (s ++ t) = bytes s ++ bytes t := by
  simp [bytes]

theorem utf8EncodeChar_ascii {c : Char} (ascii : c.toNat < 128) :
    String.utf8EncodeChar c = [UInt8.ofNat c.toNat] := by
  have all : ∀ n, n < 128 →
      String.utf8EncodeChar (Char.ofNat n) = [UInt8.ofNat (Char.ofNat n).toNat] := by decide +kernel
  have here := all c.toNat ascii
  rwa [Char.ofNat_toNat] at here

theorem bytes_ascii {cs : List Char} (ascii : ∀ c ∈ cs, c.toNat < 128) :
    bytes (String.ofList cs) = cs.map fun c => UInt8.ofNat c.toNat := by
  unfold bytes
  rw [String.toList_ofList]
  induction cs with
  | nil => rfl
  | cons c cs ih =>
    rw [List.flatMap_cons, List.map_cons, utf8EncodeChar_ascii (ascii c List.mem_cons_self),
      ih fun c' member => ascii c' (List.mem_cons_of_mem c member)]
    rfl

/-- ASCII texts of the same bytes are the same. -/
theorem map_ascii_inj {cs ds : List Char} (ascii : ∀ c ∈ cs, c.toNat < 128)
    (ascii' : ∀ c ∈ ds, c.toNat < 128)
    (same : (cs.map fun c => UInt8.ofNat c.toNat) = ds.map fun c => UInt8.ofNat c.toNat) :
    cs = ds := by
  have back : ∀ {es : List Char}, (∀ c ∈ es, c.toNat < 128) →
      (es.map fun c => UInt8.ofNat c.toNat).map (fun b => Char.ofNat b.toNat) = es := by
    intro es small
    rw [List.map_map]
    refine (List.map_congr_left fun c member => ?_).trans (List.map_id es)
    have fits := small c member
    rw [Function.comp_apply, UInt8.toNat_ofNat', Nat.mod_eq_of_lt (by omega), Char.ofNat_toNat]
    rfl
  rw [← back ascii, same, back ascii']

end Utf8

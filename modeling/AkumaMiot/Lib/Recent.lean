import Mathlib.Data.List.DropRight

/-!
# The latest entries

A buffer that forgets its oldest entry for a new one holds the end of all that was ever put into
it.
-/
namespace Recent

variable {α β : Type} {cap : Nat}

/-- Put one more in, and forget the oldest when there is no room. -/
def push (cap : Nat) (xs : List α) (x : α) : List α :=
  (if xs.length ≥ cap then xs.tail else xs) ++ [x]

theorem length_rtake (xs : List α) (k : Nat) : (xs.rtake k).length = min k xs.length := by
  rw [List.rtake, List.length_drop]
  omega

theorem rtake_of_length_le {xs : List α} {k : Nat} (short : xs.length ≤ k) : xs.rtake k = xs := by
  rw [List.rtake, Nat.sub_eq_zero_of_le short, List.drop_zero]

theorem rtake_suffix (xs : List α) (k : Nat) : xs.rtake k <:+ xs := List.drop_suffix _ _

theorem map_rtake (f : α → β) (xs : List α) (k : Nat) : (xs.rtake k).map f = (xs.map f).rtake k := by
  rw [List.rtake, List.rtake, List.map_drop, List.length_map]

/-- The end of an end. -/
theorem rtake_rtake (xs : List α) (j k : Nat) : (xs.rtake k).rtake j = xs.rtake (min j k) := by
  rw [List.rtake, length_rtake, List.rtake, List.rtake, List.drop_drop]
  congr 1
  omega

theorem push_rtake (room : 0 < cap) (xs : List α) (x : α) :
    push cap (xs.rtake cap) x = (xs ++ [x]).rtake cap := by
  obtain ⟨less, rfl⟩ : ∃ n, cap = n + 1 := ⟨cap - 1, by omega⟩
  rw [List.rtake_concat_succ, push, length_rtake]
  by_cases full : less + 1 ≤ xs.length
  · rw [if_pos (by omega), List.rtake, List.rtake, List.tail_drop]
    congr 2
    omega
  · rw [if_neg (by omega), rtake_of_length_le (by omega), rtake_of_length_le (by omega)]

/-- Of entries whose numbers follow on each other, those numbered above a number are an end. -/
theorem filter_numbered {number : α → Nat} {xs : List α} {first : Nat}
    (numbered : xs.map number = List.range' first xs.length) (above : Nat) :
    xs.filter (above < number ·) = xs.rtake (first + xs.length - (above + 1)) := by
  induction xs generalizing first with
  | nil => rw [List.filter_nil, List.rtake_nil]
  | cons x xs ih =>
    rw [List.map_cons, List.length_cons, List.range'_succ] at numbered
    obtain ⟨here, rest⟩ := List.cons.inj numbered
    have known := ih rest
    by_cases taken : above < number x
    · rw [List.filter_cons_of_pos (by simpa using taken), known,
        rtake_of_length_le (by omega), rtake_of_length_le (by rw [List.length_cons]; omega)]
    · rw [List.filter_cons_of_neg (by simpa using taken), known, List.rtake, List.rtake,
        List.length_cons]
      by_cases none_ : first + xs.length ≤ above
      · rw [List.drop_of_length_le (by omega),
          List.drop_of_length_le (by rw [List.length_cons]; omega)]
      · rw [show xs.length + 1 - (first + (xs.length + 1) - (above + 1)) =
          xs.length - (first + 1 + xs.length - (above + 1)) + 1 by omega, List.drop_succ_cons]

end Recent

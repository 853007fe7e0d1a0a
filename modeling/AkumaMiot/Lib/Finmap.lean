import Mathlib.Data.Finmap

/-!
# Searching a finite map

A search through the entries in terms of lookups, and what an update leaves.
-/
namespace Finmap

variable {α : Type*} {β : α → Type*}

private theorem foldl_or {γ : Type*} (p : γ → Bool) (b : Bool) (l : List γ) :
    l.foldl (fun b x => b || p x) b = (b || l.any p) := by
  induction l generalizing b with
  | nil => simp
  | cons x l ih => rw [List.foldl_cons, ih, List.any_cons, Bool.or_assoc]

variable [DecidableEq α]

/-- A search finds an entry exactly when a lookup does. -/
theorem any_eq_true {f : ∀ a, β a → Bool} {s : Finmap β} :
    s.any f = true ↔ ∃ a b, s.lookup a = some b ∧ f a b = true := by
  induction s using induction_on with
  | H l =>
    have folded : any f (AList.toFinmap l) = l.entries.any fun e => f e.1 e.2 :=
      (foldl_or (fun e : Sigma β => f e.1 e.2) false l.entries).trans (Bool.false_or _)
    rw [folded, List.any_eq_true]
    constructor
    · rintro ⟨⟨a, b⟩, member, holds⟩
      exact ⟨a, b, AList.mem_lookup_iff.mpr member, holds⟩
    · rintro ⟨a, b, found, holds⟩
      exact ⟨⟨a, b⟩, AList.mem_lookup_iff.mp found, holds⟩

theorem any_eq_false {f : ∀ a, β a → Bool} {s : Finmap β} :
    s.any f = false ↔ ∀ a b, s.lookup a = some b → f a b = false := by
  rw [← Bool.not_eq_true, any_eq_true]
  simp

theorem lookup_of_lookup_erase {a x : α} {b : β x} {s : Finmap β}
    (found : (s.erase a).lookup x = some b) : s.lookup x = some b := by
  by_cases same : x = a
  · subst same
    rw [lookup_erase] at found
    cases found
  · rwa [lookup_erase_ne same] at found

/-! ## Counting keys -/

theorem card_keys_insert_le (a : α) (b : β a) (s : Finmap β) :
    (s.insert a b).keys.card ≤ s.keys.card + 1 := by
  have within : (s.insert a b).keys ⊆ Insert.insert a s.keys := by
    intro x member
    rw [mem_keys, mem_insert] at member
    rw [Finset.mem_insert, mem_keys]
    exact member
  exact (Finset.card_le_card within).trans (Finset.card_insert_le a s.keys)

theorem card_keys_erase_le (a : α) (s : Finmap β) : (s.erase a).keys.card ≤ s.keys.card := by
  rw [keys_erase]
  exact Finset.card_erase_le

end Finmap

import Mathlib.Data.List.Basic

/-!
# Finding and replacing one list in another

A search from the left that goes on behind each match, as text libraries do it, set beside the
places where the pattern stands at all. The two differ where matches overlap.
-/
namespace Matches

variable {α : Type}

/-- `pat` stands in `s` from index `i` on. -/
def Occurs (s pat : List α) (i : Nat) : Prop :=
  ∃ before after, s = before ++ pat ++ after ∧ before.length = i

/-- Of any two places where `pat` stands, the second is within the first. -/
def AllOverlap (s pat : List α) : Prop :=
  ∀ j k, Occurs s pat j → Occurs s pat k → j < k → k < j + pat.length

theorem occurs_zero {s pat : List α} : Occurs s pat 0 ↔ pat <+: s := by
  constructor
  · rintro ⟨before, after, rfl, none⟩
    rw [List.length_eq_zero_iff.mp none]
    exact ⟨after, rfl⟩
  · rintro ⟨after, rfl⟩
    exact ⟨[], after, rfl, rfl⟩

theorem occurs_succ {c : α} {s pat : List α} {i : Nat} :
    Occurs (c :: s) pat (i + 1) ↔ Occurs s pat i := by
  constructor
  · rintro ⟨before, after, split, length⟩
    cases before with
    | nil => cases length
    | cons b before =>
      rw [List.cons_append, List.cons_append] at split
      exact ⟨before, after, (List.cons.inj split).2, Nat.succ.inj length⟩
  · rintro ⟨before, after, rfl, rfl⟩
    exact ⟨c :: before, after, rfl, rfl⟩

theorem occurs_nil {pat : List α} {i : Nat} : Occurs [] pat i ↔ i = 0 ∧ pat = [] := by
  constructor
  · rintro ⟨before, after, split, rfl⟩
    have parts := List.append_eq_nil_iff.mp split.symm
    have first := List.append_eq_nil_iff.mp parts.1
    rw [first.1]
    exact ⟨rfl, first.2⟩
  · rintro ⟨rfl, rfl⟩
    exact ⟨[], [], rfl, rfl⟩

/-- What is before and behind a place is determined by its index. -/
theorem Occurs.split {s pat : List α} {i : Nat} (occurs : Occurs s pat i) :
    s = s.take i ++ pat ++ s.drop (i + pat.length) := by
  obtain ⟨before, after, rfl, rfl⟩ := occurs
  rw [← List.length_append, List.drop_left, List.append_assoc before, List.take_left,
    ← List.append_assoc]

/-! ## The search -/

variable [DecidableEq α]

/-- The indices of the matches in a list whose first element has index `i`, `skip` of whose
elements belong to the match before. An empty pattern matches at every boundary. -/
def indices (pat : List α) (i skip : Nat) : List α → List Nat
  | [] => if skip = 0 ∧ pat = [] then [i] else []
  | c :: s =>
    if skip = 0 ∧ pat.isPrefixOf (c :: s) then i :: indices pat (i + 1) (pat.length - 1) s
    else indices pat (i + 1) (skip - 1) s

/-- What is known of the matches found from `i` on, past the first `skip` elements. -/
structure Found (pat s : List α) (i skip : Nat) (found : List Nat) : Prop where
  /-- A match is a place. -/
  sound : ∀ k ∈ found, ∃ j, skip ≤ j ∧ k = i + j ∧ Occurs s pat j
  /-- Matches do not overlap. -/
  apart : found.Pairwise fun j k => j < k ∧ j + pat.length ≤ k
  /-- Every place is a match or overlaps one to its left. -/
  covers : ∀ j, skip ≤ j → Occurs s pat j →
    ∃ k ∈ found, k ≤ i + j ∧ (i + j = k ∨ i + j < k + pat.length)

theorem indices_found (pat s : List α) (i skip : Nat) :
    Found pat s i skip (indices pat i skip s) := by
  induction s generalizing i skip with
  | nil =>
    unfold indices
    split
    next here =>
      obtain ⟨rfl, rfl⟩ := here
      refine ⟨fun k found => ?_, List.pairwise_singleton _ _, fun j _ occurs => ?_⟩
      · exact ⟨0, Nat.le_refl 0, by simpa using found, occurs_nil.mpr ⟨rfl, rfl⟩⟩
      · rw [(occurs_nil.mp occurs).1]
        exact ⟨i, List.mem_singleton.mpr rfl, Nat.le_refl i, .inl rfl⟩
    next nowhere =>
      refine ⟨fun k found => by simp at found, .nil, fun j late occurs => ?_⟩
      obtain ⟨rfl, empty⟩ := occurs_nil.mp occurs
      exact absurd ⟨Nat.le_zero.mp late, empty⟩ nowhere
  | cons c s ih =>
    unfold indices
    split
    next here =>
      obtain ⟨rfl, first⟩ := here
      have here := occurs_zero.mpr (List.isPrefixOf_iff_prefix.mp first)
      have rest := ih (i + 1) (pat.length - 1)
      refine ⟨fun k found => ?_, List.pairwise_cons.mpr ⟨fun k found => ?_, rest.apart⟩,
        fun j _ occurs => ?_⟩
      · rcases List.mem_cons.mp found with rfl | later
        · exact ⟨0, Nat.le_refl 0, rfl, here⟩
        · obtain ⟨j, _, rfl, occurs⟩ := rest.sound k later
          exact ⟨j + 1, Nat.zero_le _, by omega, occurs_succ.mpr occurs⟩
      · -- the next match is behind the skipped elements, all of them this match's own
        obtain ⟨j, behind, rfl, _⟩ := rest.sound k found
        omega
      · by_cases inside : j = 0 ∨ j < pat.length
        · exact ⟨i, List.mem_cons_self, Nat.le_add_right i j, by omega⟩
        · cases j with
          | zero => exact absurd (.inl rfl) inside
          | succ j =>
            obtain ⟨k, found, low, near⟩ :=
              rest.covers j (by omega) (occurs_succ.mp occurs)
            exact ⟨k, List.mem_cons_of_mem i found, by omega, by omega⟩
    next nowhere =>
      have rest := ih (i + 1) (skip - 1)
      refine ⟨fun k found => ?_, rest.apart, fun j late occurs => ?_⟩
      · obtain ⟨j, behind, rfl, occurs⟩ := rest.sound k found
        exact ⟨j + 1, by omega, by omega, occurs_succ.mpr occurs⟩
      · cases j with
        | zero =>
          have first := List.isPrefixOf_iff_prefix.mpr (occurs_zero.mp occurs)
          exact absurd ⟨Nat.le_zero.mp late, first⟩ nowhere
        | succ j =>
          obtain ⟨k, found, low, near⟩ := rest.covers j (by omega) (occurs_succ.mp occurs)
          exact ⟨k, found, by omega, by omega⟩

/-- The matches in a whole list. -/
def all (s pat : List α) : List Nat := indices pat 0 0 s

theorem all_sound {s pat : List α} {k : Nat} (found : k ∈ all s pat) : Occurs s pat k := by
  obtain ⟨j, _, rfl, occurs⟩ := (indices_found pat s 0 0).sound k found
  rwa [Nat.zero_add]

theorem all_covers {s pat : List α} {j : Nat} (occurs : Occurs s pat j) :
    ∃ k ∈ all s pat, k ≤ j ∧ (j = k ∨ j < k + pat.length) := by
  obtain ⟨k, found, low, near⟩ := (indices_found pat s 0 0).covers j (Nat.zero_le j) occurs
  rw [Nat.zero_add] at low near
  exact ⟨k, found, low, near⟩

/-- The search counts one match exactly where the pattern stands and only over itself. -/
theorem all_once_iff (s pat : List α) :
    (all s pat).length = 1 ↔ (∃ k, Occurs s pat k) ∧ AllOverlap s pat := by
  constructor
  -- Every occurrence overlaps one that was counted, and there is only one.
  · intro once
    obtain ⟨k, only⟩ := List.length_eq_one_iff.mp once
    have stands : Occurs s pat k := all_sound (by rw [only]; exact List.mem_singleton.mpr rfl)
    refine ⟨⟨k, stands⟩, fun j j' first second later => ?_⟩
    obtain ⟨_, found, low, _⟩ := all_covers first
    obtain ⟨_, found', _, near⟩ := all_covers second
    rw [only, List.mem_singleton] at found found'
    omega
  · rintro ⟨⟨j, stands⟩, overlap⟩
    obtain ⟨k, found, _⟩ := all_covers stands
    have apart := (indices_found pat s 0 0).apart
    change (all s pat).Pairwise _ at apart
    -- Two that were counted would stand apart, and every two overlap.
    cases many : all s pat with
    | nil => rw [many] at found; cases found
    | cons a rest =>
      cases rest with
      | nil => rfl
      | cons b rest =>
        rw [many] at apart
        have gap := (List.pairwise_cons.mp apart).1 b List.mem_cons_self
        have first : Occurs s pat a := all_sound (by rw [many]; exact List.mem_cons_self)
        have second : Occurs s pat b :=
          all_sound (by rw [many]; exact List.mem_cons_of_mem a List.mem_cons_self)
        exact absurd (overlap a b first second gap.1) (Nat.not_lt.mpr gap.2)

/-! ## Replacing -/

/-- The list from `last` on with `new` in place of the `len` elements at each of the indices. -/
def splice (s new : List α) (len last : Nat) : List Nat → List α
  | [] => s.drop last
  | start :: rest => (s.take start).drop last ++ new ++ splice s new len (start + len) rest

/-- The first `count` matches replaced. -/
def replacen (s pat new : List α) (count : Nat) : List α :=
  splice s new pat.length 0 ((all s pat).take count)

/-- Every match replaced. -/
def replace (s pat new : List α) : List α := splice s new pat.length 0 (all s pat)

/-- A match that is the only place is the one that is replaced. -/
theorem replacen_only {s pat : List α} (new : List α) {k : Nat} (only : all s pat = [k]) :
    replacen s pat new 1 = s.take k ++ new ++ s.drop (k + pat.length) := by
  simp [replacen, only, splice]

end Matches

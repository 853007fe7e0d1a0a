import Mathlib.Data.List.Basic
import Mathlib.Data.List.Nodup

/-!
# Lists of rows addressed by a key

The first row with a key is the one an update rewrites, as `iter_mut().find` does. With
distinct keys an update is a map, and rows selected by key alone can be dropped before or
after it.
-/
namespace KeyedList

variable {α κ : Type} [DecidableEq κ] (key : α → κ)

/-- Rewrite the first row with key `k`. -/
def update (k : κ) (f : α → α) : List α → List α
  | [] => []
  | x :: xs => if key x = k then f x :: xs else x :: update k f xs

/-- The first row with key `k`. -/
def lookup (k : κ) (xs : List α) : Option α := xs.find? (fun x => key x = k)

theorem update_of_notMem (k : κ) (f : α → α) (xs : List α) (absent : k ∉ xs.map key) :
    update key k f xs = xs := by
  induction xs with
  | nil => rfl
  | cons x xs ih =>
    simp only [List.map_cons, List.mem_cons, not_or] at absent
    simp only [update, if_neg (Ne.symm absent.1), ih absent.2]

/-- Under distinct keys the first match is the only one. -/
theorem update_eq_map (k : κ) (f : α → α) (xs : List α) (distinct : (xs.map key).Nodup) :
    update key k f xs = xs.map (fun x => if key x = k then f x else x) := by
  induction xs with
  | nil => rfl
  | cons x xs ih =>
    simp only [List.map_cons, List.nodup_cons] at distinct
    by_cases hit : key x = k
    · have rest : update key k f xs = xs :=
        update_of_notMem key k f xs (hit ▸ distinct.1)
      rw [ih distinct.2] at rest
      simp only [update, if_pos hit, List.map_cons, rest]
    · simp only [update, if_neg hit, List.map_cons, ih distinct.2]

theorem map_key_update (k : κ) (f : α → α) (keeps : ∀ x, key (f x) = key x) (xs : List α) :
    (update key k f xs).map key = xs.map key := by
  induction xs with
  | nil => rfl
  | cons x xs ih =>
    simp only [update]
    split <;> simp [keeps, ih]

@[simp] theorem length_update (k : κ) (f : α → α) (xs : List α) :
    (update key k f xs).length = xs.length := by
  induction xs with
  | nil => rfl
  | cons x xs ih =>
    simp only [update]
    split <;> simp [ih]

/-- Every row of the result was there before, or is the rewritten one. -/
theorem mem_update {k : κ} {f : α → α} {xs : List α} {y : α} (member : y ∈ update key k f xs) :
    y ∈ xs ∨ ∃ x ∈ xs, key x = k ∧ y = f x := by
  induction xs with
  | nil => simp [update] at member
  | cons x xs ih =>
    simp only [update] at member
    split at member
    next hit =>
      rcases List.mem_cons.mp member with rfl | old
      · exact .inr ⟨x, by simp, hit, rfl⟩
      · exact .inl (by simp [old])
    next miss =>
      rcases List.mem_cons.mp member with rfl | old
      · exact .inl (by simp)
      · rcases ih old with old | ⟨z, hz, hit, rfl⟩
        · exact .inl (by simp [old])
        · exact .inr ⟨z, by simp [hz], hit, rfl⟩

/-- No row is lost: it is still there, or it is the one that was rewritten. -/
theorem mem_update_of_mem (k : κ) (f : α → α) {xs : List α} {x : α} (member : x ∈ xs) :
    x ∈ update key k f xs ∨ (key x = k ∧ f x ∈ update key k f xs) := by
  induction xs with
  | nil => cases member
  | cons y ys ih =>
    simp only [update]
    split
    next hit =>
      rcases List.mem_cons.mp member with rfl | later
      · exact .inr ⟨hit, by simp⟩
      · exact .inl (by simp [later])
    next miss =>
      rcases List.mem_cons.mp member with rfl | later
      · exact .inl (by simp)
      · exact (ih later).imp (fun kept => by simp [kept]) fun hit => ⟨hit.1, by simp [hit.2]⟩

/-- Two rewrites of one row are one. -/
theorem update_update (k : κ) (f g : α → α) (keeps : ∀ x, key (f x) = key x) (xs : List α) :
    update key k g (update key k f xs) = update key k (g ∘ f) xs := by
  induction xs with
  | nil => rfl
  | cons x xs ih =>
    by_cases hit : key x = k
    · simp [update, hit, keeps]
    · simp [update, hit, ih]

theorem update_id (k : κ) (xs : List α) : update key k id xs = xs := by
  induction xs with
  | nil => rfl
  | cons x xs ih =>
    simp only [update, ih, id_eq, ite_self]

/-- Selecting rows by their key commutes with an update that keeps keys; an update of a row
the selection drops is lost. -/
theorem filter_update (p : κ → Bool) (k : κ) (f : α → α) (keeps : ∀ x, key (f x) = key x)
    (xs : List α) :
    (update key k f xs).filter (fun x => p (key x)) =
      if p k then update key k f (xs.filter (fun x => p (key x)))
      else xs.filter (fun x => p (key x)) := by
  induction xs with
  | nil => simp [update]
  | cons x xs ih =>
    by_cases hit : key x = k
    · by_cases kept : p k = true
      · simp [update, hit, keeps, kept]
      · simp [update, hit, keeps, kept]
    · by_cases kept : p (key x) = true
      · simp only [update, if_neg hit, List.filter_cons, kept, if_true, ih]
        split <;> simp_all
      · simp only [update, if_neg hit, List.filter_cons, kept, ih, Bool.false_eq_true, if_false]

/-- With the first key absent from the selection, both orders do nothing to it; otherwise both
rewrite the same row. -/
theorem filter_update_comm (p : κ → Bool) (k : κ) (f : α → α) (keeps : ∀ x, key (f x) = key x)
    (xs : List α) :
    (update key k f xs).filter (fun x => p (key x)) =
      update key k f (xs.filter (fun x => p (key x))) := by
  rw [filter_update key p k f keeps xs]
  split
  · rfl
  next dropped =>
    refine (update_of_notMem key k f _ ?_).symm
    intro member
    obtain ⟨x, kept, rfl⟩ := List.mem_map.mp member
    exact dropped (List.mem_filter.mp kept).2

theorem lookup_filter (p : κ → Bool) {k : κ} (kept : p k = true) (xs : List α) :
    lookup key k (xs.filter (fun x => p (key x))) = lookup key k xs := by
  induction xs with
  | nil => rfl
  | cons x xs ih =>
    simp only [lookup] at ih ⊢
    by_cases hit : key x = k
    · simp [hit, kept]
    · by_cases here : p (key x) = true <;>
        simp only [List.filter_cons, here, if_true, if_false, Bool.false_eq_true,
          List.find?_cons, hit, decide_false, ih]

/-- An update that moves its row neither into nor out of a selection leaves what is read off
the selection alone. -/
theorem map_filter_update {β : Type} (q : α → Bool) (g : α → β) (k : κ) (f : α → α)
    (xs : List α)
    (same : ∀ x ∈ xs, key x = k → q (f x) = q x ∧ g (f x) = g x) :
    ((update key k f xs).filter q).map g = (xs.filter q).map g := by
  induction xs with
  | nil => rfl
  | cons x xs ih =>
    simp only [update]
    split
    next hit =>
      obtain ⟨selected, read⟩ := same x (by simp) hit
      by_cases here : q x = true <;> simp [selected, here, read]
    next miss =>
      have rest := ih fun y member => same y (by simp [member])
      by_cases here : q x = true <;> simp [here, rest]

theorem lookup_eq_none {k : κ} {xs : List α} : lookup key k xs = none ↔ k ∉ xs.map key := by
  simp only [lookup, List.find?_eq_none, decide_eq_true_eq, List.mem_map, not_exists, not_and]

theorem lookup_some {k : κ} {xs : List α} {x : α} (found : lookup key k xs = some x) :
    x ∈ xs ∧ key x = k :=
  ⟨List.mem_of_find?_eq_some found, by simpa using List.find?_some found⟩

/-- Under distinct keys a row is found by its own key. -/
theorem lookup_of_mem {xs : List α} {x : α} (distinct : (xs.map key).Nodup) (member : x ∈ xs) :
    lookup key (key x) xs = some x := by
  induction xs with
  | nil => simp at member
  | cons y ys ih =>
    simp only [List.map_cons, List.nodup_cons, List.mem_map, not_exists, not_and] at distinct
    rcases List.mem_cons.mp member with rfl | old
    · simp [lookup]
    · have other : key y ≠ key x := fun same => distinct.1 x old same.symm
      simpa [lookup, List.find?_cons, other] using ih distinct.2 old

/-- Rewriting all elements under their keys rewrites the one that is found. -/
theorem lookup_map (k : κ) (f : α → α) (keeps : ∀ x, key (f x) = key x) (xs : List α) :
    lookup key k (xs.map f) = (lookup key k xs).map f := by
  rw [lookup, List.find?_map]
  refine congrArg (Option.map f) (congrArg (List.find? · xs) (funext fun x => ?_))
  rw [Function.comp_apply, keeps]

/-- The row found after an update is the row found before it, rewritten if it was the target. -/
theorem lookup_update (j k : κ) (f : α → α) (keeps : ∀ x, key (f x) = key x) (xs : List α) :
    lookup key j (update key k f xs) =
      if j = k then (lookup key j xs).map f else lookup key j xs := by
  induction xs with
  | nil => simp [lookup, update]
  | cons x xs ih =>
    simp only [lookup] at ih
    by_cases hit : key x = k
    · by_cases same : j = k
      · simp [lookup, update, hit, same, keeps]
      · simp [lookup, update, hit, same, keeps, Ne.symm same]
    · by_cases here : key x = j
      · have : j ≠ k := fun same => hit (here.trans same)
        simp [lookup, update, here, this]
      · simp only [lookup, update, if_neg hit, List.find?_cons, here, decide_false, ih]

/-! ## Rows that are not gone -/

/-- The rows whose keys are not among those gone. -/
def remaining (gone : List κ) (xs : List α) : List α := xs.filter (key · ∉ gone)

variable {key}

theorem mem_remaining {gone : List κ} {xs : List α} {x : α} :
    x ∈ remaining key gone xs ↔ x ∈ xs ∧ key x ∉ gone := by
  simp [remaining]

theorem remaining_concat {gone : List κ} {xs : List α} {x : α} (fresh : key x ∉ gone) :
    remaining key gone (xs ++ [x]) = remaining key gone xs ++ [x] := by
  simp [remaining, fresh]

/-- Under distinct keys, one more gone is one row less. -/
theorem remaining_perm {gone : List κ} {xs : List α} {x : α} (distinct : (xs.map key).Nodup)
    (member : x ∈ xs) (here : key x ∉ gone) :
    (remaining key gone xs).Perm (x :: remaining key (gone ++ [key x]) xs) := by
  have once : xs.Nodup := .of_map key distinct
  have left : x ∉ remaining key (gone ++ [key x]) xs := fun member =>
    (mem_remaining.mp member).2 (by simp)
  have before : (remaining key gone xs).Nodup := once.filter _
  have after : (remaining key (gone ++ [key x]) xs).Nodup := once.filter _
  refine (List.perm_ext_iff_of_nodup before (List.nodup_cons.mpr ⟨left, after⟩)).mpr fun y => ?_
  rw [mem_remaining, List.mem_cons, mem_remaining, List.mem_append, List.mem_singleton, not_or]
  constructor
  · rintro ⟨old, stays⟩
    by_cases same : key y = key x
    · exact .inl (List.inj_on_of_nodup_map distinct old member same)
    · exact .inr ⟨old, stays, same⟩
  · rintro (rfl | ⟨old, stays, other⟩)
    · exact ⟨member, here⟩
    · exact ⟨old, stays⟩

end KeyedList

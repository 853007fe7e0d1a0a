import Mathlib.Logic.Function.Basic

/-!
# A key-value map under atomic commits

Each key has its own type of value. A commit folds its writes in order, so the last write to
a key is the one that stays; a write of `none` deletes.
-/
namespace KeyValue

variable {κ : Type} [DecidableEq κ] {ν : κ → Type}

/-- A map from keys to optional values. -/
abbrev Db (ν : κ → Type) := (k : κ) → Option (ν k)

structure Write (ν : κ → Type) where
  key : κ
  value : Option (ν key)

/-- Write `v` under `k`. -/
def put (k : κ) (v : ν k) : Write ν := ⟨k, some v⟩

/-- Remove what is under `k`. -/
def delete (k : κ) : Write ν := ⟨k, none⟩

def commit (db : Db ν) (writes : List (Write ν)) : Db ν :=
  writes.foldl (fun db w => Function.update db w.key w.value) db

@[simp] theorem commit_nil (db : Db ν) : commit db [] = db := rfl

theorem commit_append (db : Db ν) (xs ys : List (Write ν)) :
    commit db (xs ++ ys) = commit (commit db xs) ys := List.foldl_append

theorem commit_cons (db : Db ν) (w : Write ν) (ws : List (Write ν)) :
    commit db (w :: ws) = commit (Function.update db w.key w.value) ws := rfl

@[simp] theorem commit_put_self (db : Db ν) (k : κ) (v : ν k) :
    commit db [put k v] k = some v := by
  simp [commit, put]

@[simp] theorem commit_delete_self (db : Db ν) (k : κ) : commit db [delete k] k = none := by
  simp [commit, delete]

/-- A key no write touches keeps its value. -/
theorem commit_of_untouched (db : Db ν) (ws : List (Write ν)) {k : κ}
    (untouched : ∀ w ∈ ws, w.key ≠ k) : commit db ws k = db k := by
  induction ws generalizing db with
  | nil => rfl
  | cons w ws ih =>
    rw [commit_cons, ih _ fun w' member => untouched w' (by simp [member]),
      Function.update_of_ne (untouched w (by simp)).symm]

/-- What a key has after a commit it had before, or it was written. -/
theorem commit_some {db : Db ν} {ws : List (Write ν)} {k : κ} {v : ν k}
    (found : commit db ws k = some v) : db k = some v ∨ ⟨k, some v⟩ ∈ ws := by
  induction ws generalizing db with
  | nil => exact .inl found
  | cons w ws ih =>
    rw [commit_cons] at found
    rcases ih found with before | later
    · by_cases same : k = w.key
      · subst same
        rw [Function.update_self] at before
        exact .inr (List.mem_cons.mpr (.inl (congrArg (Write.mk w.key) before).symm))
      · rw [Function.update_of_ne same] at before
        exact .inl before
    · exact .inr (List.mem_cons_of_mem w later)

/-- A run of deletions removes exactly the keys it lists. -/
theorem commit_deletes (db : Db ν) (ks : List κ) (k : κ) :
    commit db (ks.map delete) k = if k ∈ ks then none else db k := by
  induction ks generalizing db with
  | nil => simp
  | cons j ks ih =>
    rw [List.map_cons, commit_cons, ih]
    by_cases same : k = j
    · subst same
      simp [delete]
    · by_cases later : k ∈ ks
      · simp [later]
      · simp [delete, later, same]

end KeyValue

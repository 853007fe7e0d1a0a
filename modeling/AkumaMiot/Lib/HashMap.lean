import Mathlib.Data.List.AList

/-!
# Hash maps whose values are rewritten in place

An `AList` with values of one type, and `values_mut` over all of it.
-/

/-- A map from keys to values of one type. -/
abbrev HashMap (κ ν : Type) : Type := AList fun _ : κ => ν

namespace HashMap

variable {κ ν : Type}

/-- Rewrite every value. -/
def mapValues (f : ν → ν) (m : HashMap κ ν) : HashMap κ ν where
  entries := m.entries.map fun e => ⟨e.1, f e.2⟩
  nodupKeys := by
    have keys : (m.entries.map fun e => (⟨e.1, f e.2⟩ : Σ _ : κ, ν)).keys = m.entries.keys := by
      simp [List.keys]
    rw [List.NodupKeys, keys]
    exact m.nodupKeys

/-- Keep the entries that `p` holds of. -/
def retain (p : κ → ν → Bool) (m : HashMap κ ν) : HashMap κ ν where
  entries := m.entries.filter fun e => p e.1 e.2
  nodupKeys := m.nodupKeys.sublist List.filter_sublist

variable [DecidableEq κ]

theorem lookup_retain (p : κ → ν → Bool) (m : HashMap κ ν) (k : κ) :
    (m.retain p).lookup k = (m.lookup k).filter (p k) := by
  refine Option.ext fun v => ?_
  rw [← Option.mem_def, AList.mem_lookup_iff, ← Option.mem_def, Option.mem_filter_iff,
    AList.mem_lookup_iff]
  exact List.mem_filter

@[simp] theorem lookup_mapValues (f : ν → ν) (m : HashMap κ ν) (k : κ) :
    (m.mapValues f).lookup k = (m.lookup k).map f :=
  List.dlookup_map₂ (f := fun _ => f) k

end HashMap

/-!
# State machines over whole runs

A machine is a total step function whose inputs carry everything the outside decides. What
one step keeps, in the states where a condition holds of its input, a run keeps whose every
step meets the condition.
-/
namespace Machine

variable {σ ι : Type} (step : σ → ι → σ)

/-- The state a sequence of inputs leads to. -/
def run (s : σ) (is : List ι) : σ := is.foldl step s

/-- Every input of the run meets `ok` in the state it is given in. -/
def Meets (ok : σ → ι → Prop) : σ → List ι → Prop
  | _, [] => True
  | s, i :: is => ok s i ∧ Meets ok (step s i) is

@[simp] theorem run_nil (s : σ) : run step s [] = s := rfl

@[simp] theorem run_cons (s : σ) (i : ι) (is : List ι) :
    run step s (i :: is) = run step (step s i) is := rfl

theorem run_append (s : σ) (is js : List ι) :
    run step s (is ++ js) = run step (run step s is) js := List.foldl_append

theorem run_concat (s : σ) (is : List ι) (i : ι) :
    run step s (is ++ [i]) = step (run step s is) i := run_append step s is [i]

variable {step} {ok : σ → ι → Prop}

theorem meets_append {s : σ} {is js : List ι} :
    Meets step ok s (is ++ js) ↔ Meets step ok s is ∧ Meets step ok (run step s is) js := by
  induction is generalizing s with
  | nil => simp [Meets]
  | cons i is ih => simp only [List.cons_append, Meets, ih, run_cons, and_assoc]

/-- The invariant rule. -/
theorem run_invariant (Inv : σ → Prop)
    (keeps : ∀ s i, Inv s → ok s i → Inv (step s i)) {s : σ} {is : List ι} (start : Inv s)
    (meets : Meets step ok s is) : Inv (run step s is) := by
  induction is generalizing s with
  | nil => exact start
  | cons i is ih => exact ih (keeps s i start meets.1) meets.2

/-- The invariant rule for what every step keeps. -/
theorem run_keeps (Inv : σ → Prop) (keeps : ∀ s i, Inv s → Inv (step s i)) {s : σ} {is : List ι}
    (start : Inv s) : Inv (run step s is) := by
  induction is generalizing s with
  | nil => exact start
  | cons i is ih => exact ih (keeps s i start)

/-- Where the condition keeps the invariant, and a property that the invariant implies fails after
any step that does not meet it, a run has the property in every state it passes exactly when it
meets the condition. -/
theorem always_iff_meets_of {Inv P : σ → Prop} (holds : ∀ s, Inv s → P s)
    (keeps : ∀ s i, Inv s → ok s i → Inv (step s i))
    (needs : ∀ s i, Inv s → P (step s i) → ok s i) {s : σ} {is : List ι} (start : Inv s) :
    (∀ before, before <+: is → P (run step s before)) ↔ Meets step ok s is := by
  induction is generalizing s with
  | nil => simpa [Meets] using holds s start
  | cons i is ih =>
    constructor
    · intro always
      have now : ok s i := needs s i start (always [i] (by simp))
      refine ⟨now, (ih (keeps s i start now)).mp fun before ahead => ?_⟩
      exact always (i :: before) (List.cons_prefix_cons.mpr ⟨rfl, ahead⟩)
    · rintro ⟨now, later⟩ before ahead
      cases before with
      | nil => exact holds s start
      | cons j before =>
        obtain ⟨rfl, rest⟩ := List.cons_prefix_cons.mp ahead
        exact (ih (keeps s j start now)).mpr later before rest

/-- Where the condition is exactly what the invariant needs, a run keeps the invariant in every
state it passes exactly when it meets the condition. -/
theorem always_iff_meets (Inv : σ → Prop) (exact_ : ∀ s i, Inv s → (Inv (step s i) ↔ ok s i))
    {s : σ} {is : List ι} (start : Inv s) :
    (∀ before, before <+: is → Inv (run step s before)) ↔ Meets step ok s is :=
  always_iff_meets_of (fun _ inv => inv) (fun s i inv => (exact_ s i inv).mpr)
    (fun s i inv => (exact_ s i inv).mp) start

theorem meets_and {ok' : σ → ι → Prop} {s : σ} {is : List ι} (left : Meets step ok s is)
    (right : Meets step ok' s is) : Meets step (fun s i => ok s i ∧ ok' s i) s is := by
  induction is generalizing s with
  | nil => trivial
  | cons i is ih => exact ⟨⟨left.1, right.1⟩, ih left.2 right.2⟩

/-- Conditions that agree wherever the invariant holds are met by the same runs. -/
theorem meets_congr {ok' : σ → ι → Prop} (Inv : σ → Prop) (keeps : ∀ s i, Inv s → Inv (step s i))
    (same : ∀ s i, Inv s → (ok s i ↔ ok' s i)) {s : σ} {is : List ι} (start : Inv s) :
    Meets step ok s is ↔ Meets step ok' s is := by
  induction is generalizing s with
  | nil => exact .rfl
  | cons i is ih => exact and_congr (same s i start) (ih (keeps s i start))

/-- A condition on the inputs alone. -/
theorem meets_of_forall {p : ι → Prop} {s : σ} {is : List ι} (each : ∀ i ∈ is, p i) :
    Meets step (fun _ i => p i) s is := by
  induction is generalizing s with
  | nil => trivial
  | cons i is ih => exact ⟨each i (by simp), ih fun j member => each j (by simp [member])⟩

instance [∀ s i, Decidable (ok s i)] (s : σ) (is : List ι) : Decidable (Meets step ok s is) :=
  go s is
where
  go (s : σ) : (is : List ι) → Decidable (Meets step ok s is)
    | [] => .isTrue trivial
    | i :: is => @instDecidableAnd _ _ inferInstance (go (step s i) is)

/-- What every step can only add to, a run can only add to. -/
theorem run_grows {R : σ → σ → Prop} (refl : ∀ s, R s s) (trans : ∀ {a b c}, R a b → R b c → R a c)
    (grows : ∀ s i, R s (step s i)) (s : σ) (is : List ι) : R s (run step s is) := by
  induction is generalizing s with
  | nil => exact refl s
  | cons i is ih => exact trans (grows s i) (ih _)

end Machine

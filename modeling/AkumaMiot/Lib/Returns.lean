/-!
# Computations that return exactly under a condition

A computation that may fail, or use up its fuel, is an `Option`. What is said of one here is total
and partial correctness at once: the condition it needs, without which it does not return, and
what holds of its result.
-/

variable {α β : Type}

/-- `r` returns if and only if the condition holds, and its result is as `post` says. -/
structure Returns (r : Option α) (condition : Prop) (post : α → Prop) : Prop where
  total : condition → ∃ a, r = some a
  sound : ∀ a, r = some a → condition ∧ post a

namespace Returns

variable {r : Option α} {c d : Prop} {post : α → Prop}

theorem of_some {a : α} (h : post a) : Returns (some a) True post :=
  ⟨fun _ => ⟨a, rfl⟩, fun _ same => ⟨trivial, Option.some.inj same ▸ h⟩⟩

theorem of_none (fails : ¬ c) : Returns none c post :=
  ⟨fun holds => absurd holds fails, fun _ same => by cases same⟩

/-- The same condition in other words, and a weaker result. -/
theorem weaken (h : Returns r c post) (same : c ↔ d) {post' : α → Prop}
    (implies : ∀ a, post a → post' a) : Returns r d post' :=
  ⟨fun holds => h.total (same.mpr holds), fun a returned =>
    ⟨same.mp (h.sound a returned).1, implies a (h.sound a returned).2⟩⟩

theorem bind {f : α → Option β} {post' : β → Prop} (first : Returns r c post)
    (next : ∀ a, post a → Returns (f a) d post') : Returns (r.bind f) (c ∧ d) post' := by
  constructor
  · rintro ⟨holds, holds'⟩
    obtain ⟨a, returned⟩ := first.total holds
    obtain ⟨b, returned'⟩ := (next a (first.sound a returned).2).total holds'
    exact ⟨b, by rw [returned]; exact returned'⟩
  · intro b returned
    obtain ⟨a, returned, returned'⟩ := Option.bind_eq_some_iff.mp returned
    obtain ⟨holds, result⟩ := first.sound a returned
    obtain ⟨holds', result'⟩ := (next a result).sound b returned'
    exact ⟨⟨holds, holds'⟩, result'⟩

/-- What follows needs nothing more. -/
theorem andThen {f : α → Option β} {post' : β → Prop} (first : Returns r c post)
    (next : ∀ a, post a → Returns (f a) True post') : Returns (r.bind f) c post' :=
  (first.bind next).weaken (and_iff_left trivial) fun _ => id

theorem map {f : α → β} {post' : β → Prop} (first : Returns r c post)
    (next : ∀ a, post a → post' (f a)) : Returns (r.map f) c post' := by
  rw [Option.map_eq_bind]
  exact first.andThen fun a result => .of_some (next a result)

end Returns

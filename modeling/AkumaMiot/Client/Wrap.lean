import Mathlib.Algebra.Order.Ring.Nat
import Mathlib.Data.List.Forall2

/-!
# Styled text wrapped at words

A line is broken at the last space that fits, or within a word where there is none. Of what a line
shows nothing is lost but one space at a break, and every character keeps its style.
-/
namespace AkumaMiot.Wrap

variable {σ : Type}

/-- A character in its style. -/
abbrev Cell (σ : Type) := Char × σ

structure Span (σ : Type) where
  content : List Char
  style : σ

structure Line (σ : Type) where
  style : σ
  spans : List (Span σ)

def Span.cells (span : Span σ) : List (Cell σ) := span.content.map fun c => (c, span.style)

/-- What one row shows. -/
def shown (row : List (Span σ)) : List (Cell σ) := row.flatMap Span.cells

/-- The cells of a line. Its style is patched with each span's. -/
def Line.cells (patch : σ → σ → σ) (line : Line σ) : List (Cell σ) :=
  line.spans.flatMap fun sp =>
    (sp.content.filter (· ≠ '\r')).map fun c => (c, patch line.style sp.style)

/-- One more cell, to the run of its style or a new one. -/
def merge [DecidableEq σ] (acc : List (Span σ) × List Char × σ) (cell : Cell σ) :
    List (Span σ) × List Char × σ :=
  let (spans, run, style) := acc
  if cell.2 ≠ style ∧ run ≠ [] then (spans ++ [⟨run, style⟩], [cell.1], cell.2)
  else (spans, run ++ [cell.1], cell.2)

/-- One styled row back into spans, runs of one style merged. -/
def toLine [DecidableEq σ] [Inhabited σ] (cells : List (Cell σ)) : List (Span σ) :=
  let (spans, run, style) := cells.foldl merge ([], [], (cells.head?.map Prod.snd).getD default)
  if run = [] then spans else spans ++ [⟨run, style⟩]

/-- The last place where it holds. -/
def rposition {α : Type} (p : α → Bool) : List α → Option Nat
  | [] => none
  | x :: xs =>
    match rposition p xs with
    | some i => some (i + 1)
    | none => if p x then some 0 else none

def isSpace (cell : Cell σ) : Bool := cell.1 = ' '

/-- The rows that are out, and the one that is filled. -/
structure Rows (σ : Type) where
  out : List (List (Span σ)) := []
  row : List (Cell σ) := []
  used : Nat := 0

section

variable (width : Char → Nat) (cols : Nat)

def rowWidth (row : List (Cell σ)) : Nat := (row.map fun c => width c.1).sum

variable [DecidableEq σ] [Inhabited σ]

/-- One more cell. -/
def place (s : Rows σ) (cell : Cell σ) : Rows σ :=
  let w := width cell.1
  if s.used + w > cols ∧ s.row ≠ [] then
    -- The row is exactly full: break here, the space goes.
    if isSpace cell then { out := s.out ++ [toLine s.row], row := [], used := 0 }
    else
      -- Back to the last space, if there is one past the start.
      let (out, row) :=
        match (rposition isSpace s.row).filter (0 < ·) with
        | some i => (s.out ++ [toLine (s.row.take i)], s.row.drop (i + 1))
        | none => (s.out ++ [toLine s.row], [])
      { out, row := row ++ [cell], used := rowWidth width row + w }
  else { s with row := s.row ++ [cell], used := s.used + w }

def wrapLine (cells : List (Cell σ)) : List (List (Span σ)) :=
  let s := cells.foldl (place width cols) {}
  s.out ++ [toLine s.row]

/-- Text wrapped to so many columns. -/
def wrapText (patch : σ → σ → σ) (text : List (Line σ)) : List (List (Span σ)) :=
  text.flatMap fun line => wrapLine width (max cols 1) (line.cells patch)

end

/-! ## What a row shows -/

@[simp] theorem shown_append (row more : List (Span σ)) :
    shown (row ++ more) = shown row ++ shown more := List.flatMap_append

@[simp] theorem shown_span (content : List Char) (style : σ) :
    shown [⟨content, style⟩] = content.map fun c => (c, style) := by
  simp [shown, Span.cells]

@[simp] theorem shown_nil : shown ([] : List (Span σ)) = [] := rfl

/-- What is in the spans and in the run is what was read. -/
def read (acc : List (Span σ) × List Char × σ) : List (Cell σ) :=
  shown acc.1 ++ acc.2.1.map fun c => (c, acc.2.2)

theorem read_merge [DecidableEq σ] (acc : List (Span σ) × List Char × σ) (cell : Cell σ) :
    read (merge acc cell) = read acc ++ [cell] := by
  obtain ⟨spans, run, style⟩ := acc
  unfold merge
  simp only
  split
  next => simp [read]
  next same =>
    by_cases empty : run = []
    · simp [read, empty]
    · have kept : cell.2 = style := by
        by_contra other
        exact same ⟨other, empty⟩
      simp [read, ← kept]

theorem read_foldl [DecidableEq σ] (cells : List (Cell σ))
    (acc : List (Span σ) × List Char × σ) : read (cells.foldl merge acc) = read acc ++ cells := by
  induction cells generalizing acc with
  | nil => simp
  | cons cell cells ih =>
    rw [List.foldl_cons, ih, read_merge, List.append_assoc]
    rfl

/-- Every cell is in its row as it was, style and all. -/
theorem shown_toLine [DecidableEq σ] [Inhabited σ] (cells : List (Cell σ)) :
    shown (toLine cells) = cells := by
  have whole := read_foldl cells ([], [], (cells.head?.map Prod.snd).getD default)
  unfold toLine
  generalize cells.foldl merge _ = acc at whole ⊢
  obtain ⟨spans, run, style⟩ := acc
  simp only [read, shown_nil, List.map_nil, List.nil_append] at whole ⊢
  split
  next empty => simpa [empty] using whole
  next => simpa using whole

/-! ## Where a line is broken -/

theorem rposition_some {α : Type} {p : α → Bool} {xs : List α} {i : Nat}
    (found : rposition p xs = some i) :
    ∃ x, p x = true ∧ xs = xs.take i ++ x :: xs.drop (i + 1) := by
  induction xs generalizing i with
  | nil => cases found
  | cons x xs ih =>
    rw [rposition] at found
    split at found
    next j later =>
      cases found
      obtain ⟨y, holds, eq⟩ := ih later
      exact ⟨y, holds, congrArg (x :: ·) eq⟩
    next =>
      split at found
      next holds =>
        cases found
        exact ⟨x, holds, rfl⟩
      next => cases found

theorem rposition_none {α : Type} {p : α → Bool} {xs : List α} (missing : rposition p xs = none) :
    ∀ x ∈ xs, p x = false := by
  induction xs with
  | nil => exact fun _ => nofun
  | cons x xs ih =>
    rw [rposition] at missing
    split at missing
    next => cases missing
    next later =>
      split at missing
      next => cases missing
      next first => exact List.forall_mem_cons.mpr ⟨eq_false_of_ne_true first, ih later⟩

/-- There is none past the start. -/
theorem rposition_start {α : Type} {p : α → Bool} {xs : List α}
    (missing : (rposition p xs).filter (0 < ·) = none) : ∀ x ∈ xs.tail, p x = false := by
  cases xs with
  | nil => exact fun _ => nofun
  | cons x xs =>
    refine rposition_none (Option.eq_none_iff_forall_ne_some.mpr fun i later => ?_)
    have found : rposition p (x :: xs) = some (i + 1) := by
      rw [rposition, show rposition p xs = some i from later]
    simp [found] at missing

/-- Cells in rows, none empty. Between two of them one space is gone; or a row was broken that has
no space past its start. -/
inductive Cut : List (Cell σ) → List (List (Cell σ)) → Prop
  | nil : Cut [] []
  | within {cells : List (Cell σ)} {rows : List (List (Cell σ))} (cut : Cut cells rows)
      {row : List (Cell σ)} (some_ : row ≠ []) (word : ∀ c ∈ row.tail, isSpace c = false) :
      Cut (cells ++ row) (rows ++ [row])
  | space {cells : List (Cell σ)} {rows : List (List (Cell σ))} (cut : Cut cells rows)
      {row : List (Cell σ)} (some_ : row ≠ []) {gone : Cell σ} (is : isSpace gone = true) :
      Cut (cells ++ row ++ [gone]) (rows ++ [row])

theorem Cut.nothing {cells : List (Cell σ)} {rows : List (List (Cell σ))} (cut : Cut cells rows)
    (none_ : rows = []) : cells = [] := by
  cases cut with
  | nil => rfl
  | within => simp at none_
  | space => simp at none_

/-- What a line's rows are: its cells, cut; no wider than the columns, unless of one character; and
one row, if the line is no wider. -/
structure Wrapped (width : Char → Nat) (cols : Nat) (cells : List (Cell σ))
    (rows : List (List (Cell σ))) : Prop where
  kept : ∃ before done last, rows = before ++ [last] ∧ Cut done before ∧ done ++ last = cells
  fits : (∀ c ∈ cells, width c.1 = 1 ∨ width c.1 = 2) →
    ∀ row ∈ rows, rowWidth width row ≤ cols ∨ row.length = 1
  short : rowWidth width cells ≤ cols → rows = [cells]

section

variable {width : Char → Nat} {cols : Nat}

theorem rowWidth_append (row more : List (Cell σ)) :
    rowWidth width (row ++ more) = rowWidth width row + rowWidth width more := by
  simp [rowWidth]

theorem rowWidth_cons (cell : Cell σ) (row : List (Cell σ)) :
    rowWidth width (cell :: row) = width cell.1 + rowWidth width row := by
  simp [rowWidth]

theorem rowWidth_pos {row : List (Cell σ)} (some_ : row ≠ [])
    (proper : ∀ c ∈ row, 0 < width c.1) : 0 < rowWidth width row := by
  obtain ⟨cell, rest, rfl⟩ := List.exists_cons_of_ne_nil some_
  have first := proper cell List.mem_cons_self
  rw [rowWidth_cons]
  omega

/-- Of a row that fits and is broken at a space, what stays fits, and what moves down leaves room
for two columns. -/
theorem broken_fits {row : List (Cell σ)} {i : Nat} {gone : Cell σ}
    (eq : row = row.take i ++ gone :: row.drop (i + 1)) (head : row.take i ≠ [])
    (proper : ∀ c ∈ row, 0 < width c.1) (fit : rowWidth width row ≤ cols ∨ row.length = 1) :
    rowWidth width (row.take i) ≤ cols ∧ rowWidth width (row.drop (i + 1)) + 2 ≤ cols := by
  have parts : rowWidth width row = rowWidth width (row.take i) +
      (width gone.1 + rowWidth width (row.drop (i + 1))) := by
    conv_lhs => rw [eq]
    rw [rowWidth_append, rowWidth_cons]
  have first := rowWidth_pos head fun c there => proper c (List.mem_of_mem_take there)
  have blank : 0 < width gone.1 := proper gone (by rw [eq]; simp)
  have longer : row.length ≠ 1 := by
    intro single
    have lengths := congrArg List.length eq
    have more := List.length_pos_of_ne_nil head
    rw [List.length_append, List.length_cons] at lengths
    omega
  have narrow := fit.resolve_right longer
  constructor <;> omega

variable [DecidableEq σ] [Inhabited σ]

/-- After the cells so far. -/
structure Placed (width : Char → Nat) (cols : Nat) (cells : List (Cell σ)) (s : Rows σ) :
    Prop where
  used : s.used = rowWidth width s.row
  kept : ∃ done, Cut done (s.out.map shown) ∧ done ++ s.row = cells
  fits : (∀ c ∈ cells, width c.1 = 1 ∨ width c.1 = 2) →
    ∀ row ∈ s.out.map shown ++ [s.row], rowWidth width row ≤ cols ∨ row.length = 1
  short : rowWidth width cells ≤ cols → s.out = []

theorem Placed.place {cells : List (Cell σ)} {s : Rows σ} (placed : Placed width cols cells s)
    (cell : Cell σ) : Placed width cols (cells ++ [cell]) (place width cols s cell) := by
  obtain ⟨done, cut, joined⟩ := placed.kept
  have used := placed.used
  have total : rowWidth width cells = rowWidth width done + s.used := by
    rw [← joined, rowWidth_append, used]
  have narrow (fits : ∀ c ∈ cells ++ [cell], width c.1 = 1 ∨ width c.1 = 2) :
      ∀ row ∈ s.out.map shown ++ [s.row], rowWidth width row ≤ cols ∨ row.length = 1 :=
    placed.fits fun c there => fits c (List.mem_append_left _ there)
  have one : rowWidth width [cell] = width cell.1 := by simp [rowWidth]
  unfold Wrap.place
  simp only
  split
  next full =>
    obtain ⟨wide, some_⟩ := full
    have tooWide : ¬rowWidth width (cells ++ [cell]) ≤ cols := by
      rw [rowWidth_append, total, one]
      omega
    split
    next space =>
      refine ⟨rfl, ⟨cells ++ [cell], ?_, List.append_nil _⟩, fun fits row there => ?_,
        fun short => absurd short tooWide⟩
      · rw [← joined, List.map_append, List.map_singleton, shown_toLine]
        exact cut.space some_ space
      · rw [List.map_append, List.map_singleton, shown_toLine] at there
        rcases List.mem_append.mp there with old | empty
        · exact narrow fits row old
        · rw [List.mem_singleton.mp empty]
          exact .inl (Nat.zero_le _)
    next word =>
      split
      next i found =>
        obtain ⟨at_, past⟩ := Option.filter_eq_some_iff.mp found
        obtain ⟨gone, is, eq⟩ := rposition_some at_
        have head : s.row.take i ≠ [] := by
          intro none_
          rcases List.take_eq_nil_iff.mp none_ with zero | empty
          · simp [zero] at past
          · exact some_ empty
        refine ⟨?_, ⟨done ++ s.row.take i ++ [gone], ?_, ?_⟩, fun fits row there => ?_,
          fun short => absurd short tooWide⟩
        · simp only [rowWidth_append, one]
        · rw [List.map_append, List.map_singleton, shown_toLine]
          exact cut.space head is
        · rw [← joined]
          conv_rhs => rw [eq]
          simp
        · have proper (c : Cell σ) (there : c ∈ s.row) : 0 < width c.1 := by
            have either := fits c (by simp [← joined, there])
            omega
          obtain ⟨stays, moves⟩ := broken_fits eq head proper (narrow fits s.row (by simp))
          rw [List.map_append, List.map_singleton, shown_toLine] at there
          rcases List.mem_append.mp there with old | new
          · rcases List.mem_append.mp old with older | taken
            · exact narrow fits row (List.mem_append_left _ older)
            · rw [List.mem_singleton.mp taken]
              exact .inl stays
          · rw [List.mem_singleton.mp new]
            have last := fits cell (by simp)
            have moved : rowWidth width (s.row.drop (i + 1) ++ [cell]) ≤ cols := by
              rw [rowWidth_append, one]
              omega
            exact .inl moved
      next none_ =>
        refine ⟨?_, ⟨done ++ s.row, ?_, ?_⟩, fun fits row there => ?_,
          fun short => absurd short tooWide⟩
        · simp [rowWidth]
        · rw [List.map_append, List.map_singleton, shown_toLine]
          exact cut.within some_ (rposition_start none_)
        · rw [joined]
          rfl
        · rw [List.map_append, List.map_singleton, shown_toLine] at there
          rcases List.mem_append.mp there with old | new
          · exact narrow fits row old
          · rw [List.mem_singleton.mp new]
            exact .inr rfl
  next room =>
    refine ⟨by rw [rowWidth_append, used, one], ⟨done, cut, ?_⟩, fun fits row there => ?_,
      fun short => placed.short ?_⟩
    · rw [← joined, List.append_assoc]
    · rcases List.mem_append.mp there with old | new
      · exact narrow fits row (List.mem_append_left _ old)
      · rw [List.mem_singleton.mp new]
        by_cases empty : s.row = []
        · simp [empty]
        · left
          rw [rowWidth_append, one, ← used]
          have fit : ¬s.used + width cell.1 > cols := fun wide => room ⟨wide, empty⟩
          omega
    · rw [rowWidth_append] at short
      omega

theorem wrapLine_wrapped (cells : List (Cell σ)) :
    Wrapped width cols cells ((wrapLine width cols cells).map shown) := by
  have run : ∀ (rest before : List (Cell σ)) (s : Rows σ), Placed width cols before s →
      Placed width cols (before ++ rest) (rest.foldl (Wrap.place width cols) s) := by
    intro rest
    induction rest with
    | nil => simp
    | cons cell rest ih =>
      intro before s placed
      have next_ := ih (before ++ [cell]) _ (placed.place cell)
      rwa [List.append_assoc] at next_
  have begun : Placed width cols [] ({} : Rows σ) :=
    ⟨rfl, ⟨[], .nil, rfl⟩, fun _ => by simp [rowWidth], fun _ => rfl⟩
  have whole := run cells [] {} begun
  rw [List.nil_append] at whole
  unfold wrapLine
  simp only [List.map_append, List.map_singleton, shown_toLine]
  generalize cells.foldl (Wrap.place width cols) {} = s at whole ⊢
  obtain ⟨done, cut, joined⟩ := whole.kept
  refine ⟨⟨_, done, _, rfl, cut, joined⟩, whole.fits, fun short => ?_⟩
  have none_ := whole.short short
  rw [none_] at cut ⊢
  rw [← joined, cut.nothing rfl]
  rfl

/-- A text is wrapped line by line. -/
theorem wrapText_wrapped (width : Char → Nat) (cols : Nat) (patch : σ → σ → σ)
    (text : List (Line σ)) :
    ∃ parts : List (List (List (Span σ))), wrapText width cols patch text = parts.flatten ∧
      List.Forall₂ (fun line rows =>
        Wrapped width (max cols 1) (line.cells patch) (rows.map shown)) text parts := by
  refine ⟨text.map fun line => wrapLine width (max cols 1) (line.cells patch), ?_, ?_⟩
  · rw [wrapText, List.flatMap_def]
  · refine List.forall₂_map_right_iff.mpr (List.forall₂_same.mpr fun line _ => ?_)
    exact wrapLine_wrapped (line.cells patch)

example :
    (wrapText (fun _ => 1) 9 (fun _ style => style)
      [⟨0, [⟨"upgrade i".toList, 0⟩, ⟨"t\r all".toList, 1⟩]⟩]).map (fun row =>
        row.map fun sp => (String.ofList sp.content, sp.style)) =
      [[("upgrade", 0)], [("i", 0), ("t all", 1)]] := by decide

end

end AkumaMiot.Wrap

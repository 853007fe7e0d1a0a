import AkumaMiot.Agent.Texts
import AkumaMiot.Lib.Matches

/-!
# The editing tools

`Edit` and `MultiEdit`: one stretch of a file's text replaced by another, or several in turn.
Positions are counted in characters. What is added to "not found" is a parameter.
-/
namespace AkumaMiot

open Matches

/-- The disk of the cat's host, in state `δ`: what a path reads as, and what a write answers
and leaves. -/
structure Disk (δ : Type) where
  read : δ → String → Except String String
  write : δ → String → String → Except String Unit × δ

/-- One edit of a `MultiEdit`. -/
structure FileEdit where
  old : String
  new : String
  replaceAll : Bool
deriving DecidableEq, Repr

section
variable (nearMiss : String → String → String)

/-- `old` must appear in `content` exactly once unless `replaceAll`. -/
def applyEdit (content old new : String) (replaceAll : Bool) : Except String String :=
  let n := (all content.toList old.toList).length
  if n = 0 then .error s!"old_string not found{nearMiss content old}"
  else if n > 1 ∧ !replaceAll then .error s!"old_string matches {n} times"
  else if replaceAll then .ok (String.ofList (replace content.toList old.toList new.toList))
  else .ok (String.ofList (replacen content.toList old.toList new.toList 1))

def editMeta (content old : String) (replaceAll : Bool) : String :=
  let n := (all content.toList old.toList).length
  if replaceAll then s!"{n} replaced" else "1 replaced"

variable {δ : Type} (disk : Disk δ)

/-- The tool `Edit`. -/
def edit (path old new : String) (replaceAll : Bool) (d : δ) : ToolOut × δ :=
  match disk.read d path with
  | .error e => ({ arg := path, ok := false, body := e }, d)
  | .ok content =>
    match applyEdit nearMiss content old new replaceAll with
    | .ok updated =>
      match disk.write d path updated with
      | (.ok (), d) =>
        ({ arg := path, ok := true, facts := [editMeta content old replaceAll] }, d)
      | (.error e, d) => ({ arg := path, ok := false, body := e }, d)
    | .error msg =>
      ({ arg := path, ok := false, facts := [msg], body := "Nothing written." }, d)

/-- The loop of `MultiEdit`, from the edit of index `i` on: the text it ends with, or the number
of the edit that failed and why. -/
def editInTurn (i : Nat) (content : String) : List FileEdit → Except (Nat × String) String
  | [] => .ok content
  | e :: edits =>
    match applyEdit nearMiss content e.old e.new e.replaceAll with
    | .ok updated => editInTurn (i + 1) updated edits
    | .error msg => .error (i + 1, msg)

/-- The tool `MultiEdit`. -/
def multiEdit (path : String) (edits : List FileEdit) (d : δ) : ToolOut × δ :=
  match disk.read d path with
  | .error e => ({ arg := path, ok := false, body := e }, d)
  | .ok content =>
    let n := edits.length
    match editInTurn nearMiss 0 content edits with
    | .error (i, msg) =>
      ({ arg := path, ok := false, facts := [s!"edit {i} of {n}: {msg}"],
         body := "Nothing written — every edit must succeed before any of them are applied." }, d)
    | .ok updated =>
      match disk.write d path updated with
      | (.ok (), d) => ({ arg := path, ok := true, facts := [s!"{n} edit(s) applied"] }, d)
      | (.error e, d) => ({ arg := path, ok := false, body := e }, d)

/-! ## What is asked of them -/

/-- An edit without `replaceAll` is taken only where `old` stands at one place, and then that
place is what is replaced. -/
def EditsThePlace (content old new : String) : Prop :=
  ∀ updated, applyEdit nearMiss content old new false = .ok updated →
    (∃! k, Occurs content.toList old.toList k) ∧
      ∀ before after, content.toList = before ++ old.toList ++ after →
        updated.toList = before ++ new.toList ++ after

/-- Every edit of a list succeeds on what the ones before it left. -/
inductive Succeeds : String → List FileEdit → String → Prop
  | done (content : String) : Succeeds content [] content
  | next {content updated final : String} {e : FileEdit} {edits : List FileEdit}
      (applied : applyEdit nearMiss content e.old e.new e.replaceAll = .ok updated)
      (rest : Succeeds updated edits final) : Succeeds content (e :: edits) final

/-- A `MultiEdit` writes what its edits end with if all of them succeed, and else leaves the disk
alone and says it failed. -/
structure AllOrNothing (path : String) (edits : List FileEdit) (d : δ) : Prop where
  all : ∀ content final, disk.read d path = .ok content → Succeeds nearMiss content edits final →
    (multiEdit nearMiss disk path edits d).2 = (disk.write d path final).2
  nothing : (¬ ∃ content final, disk.read d path = .ok content ∧
      Succeeds nearMiss content edits final) →
    (multiEdit nearMiss disk path edits d).2 = d ∧
      (multiEdit nearMiss disk path edits d).1.ok = false

end

/-- `old` stands in `content` more than once, and only over itself. -/
def Entangled (content old : String) : Prop :=
  (∃ j k, j < k ∧ Occurs content.toList old.toList j ∧ Occurs content.toList old.toList k) ∧
    AllOverlap content.toList old.toList

variable {nearMiss : String → String → String}

/-! ## One edit -/

/-- An edit is taken where the search counts one match, and puts `new` in its place. -/
theorem applyEdit_ok_iff {content old new updated : String} :
    applyEdit nearMiss content old new false = .ok updated ↔
      ∃ k, all content.toList old.toList = [k] ∧
        updated.toList =
          content.toList.take k ++ new.toList ++ content.toList.drop (k + old.toList.length) := by
  unfold applyEdit
  cases found : all content.toList old.toList with
  | nil => simp
  | cons k rest =>
    cases rest with
    | nil =>
      have place := replacen_only new.toList found
      constructor
      · intro taken
        have result : String.ofList (replacen content.toList old.toList new.toList 1) =
            updated := by simpa using taken
        exact ⟨k, rfl, by rw [← result, String.toList_ofList, place]⟩
      · rintro ⟨k', same, result⟩
        cases same
        have back : String.ofList (replacen content.toList old.toList new.toList 1) =
            updated := by rw [place, ← result, String.ofList_toList]
        simp [back]
    | cons k' rest => simp

theorem occurs_unique {s pat : List Char} {k : Nat} (only : all s pat = [k]) :
    (∃! k, Occurs s pat k) ↔ ¬ ∃ i j, i < j ∧ Occurs s pat i ∧ Occurs s pat j := by
  have stands : Occurs s pat k := all_sound (by rw [only]; exact List.mem_singleton.mpr rfl)
  constructor
  · rintro ⟨place, _, unique⟩ ⟨i, j, less, first, second⟩
    rw [unique i first, unique j second] at less
    exact Nat.lt_irrefl place less
  · intro single
    refine ⟨k, stands, fun j other => ?_⟩
    rcases Nat.lt_trichotomy j k with below | same | above
    · exact absurd ⟨j, k, below, other, stands⟩ single
    · exact same
    · exact absurd ⟨k, j, above, stands, other⟩ single

/-- An edit does what it is asked exactly where `old` is not entangled. -/
theorem editsThePlace_iff (content old new : String) :
    EditsThePlace nearMiss content old new ↔ ¬ Entangled content old := by
  constructor
  · rintro exact_ ⟨⟨i, j, less, first, second⟩, overlap⟩
    obtain ⟨k, only⟩ := List.length_eq_one_iff.mp ((all_once_iff _ _).mpr ⟨⟨i, first⟩, overlap⟩)
    obtain ⟨unique, _⟩ := exact_ _ (by
      rw [applyEdit_ok_iff]
      exact ⟨k, only, String.toList_ofList⟩)
    exact (occurs_unique only).mp unique ⟨i, j, less, first, second⟩
  · intro free updated taken
    obtain ⟨k, only, result⟩ := applyEdit_ok_iff.mp taken
    obtain ⟨_, overlap⟩ := (all_once_iff _ _).mp (by rw [only]; rfl)
    have unique := (occurs_unique only).mpr fun twice => free ⟨twice, overlap⟩
    refine ⟨unique, fun before after split => ?_⟩
    have here : Occurs content.toList old.toList before.length := ⟨before, after, split, rfl⟩
    have stands : Occurs content.toList old.toList k :=
      all_sound (by rw [only]; exact List.mem_singleton.mpr rfl)
    have same : k = before.length := unique.unique stands here
    rw [result, same, split, ← List.length_append, List.drop_left, List.append_assoc before,
      List.take_left]

/-! ## Several edits -/

theorem editInTurn_ok_iff {i : Nat} {content final : String} {edits : List FileEdit} :
    editInTurn nearMiss i content edits = .ok final ↔ Succeeds nearMiss content edits final := by
  induction edits generalizing i content with
  | nil =>
    constructor
    · intro taken
      cases taken
      exact .done _
    · intro succeeds
      cases succeeds
      rfl
  | cons e edits ih =>
    unfold editInTurn
    split
    -- The edit was applied: the rest goes on from the text it left.
    next updated applied =>
      rw [ih]
      constructor
      · exact .next applied
      · intro succeeds
        cases succeeds with
        | next applied' rest =>
          cases applied.symm.trans applied'
          exact rest
    -- An edit that fails ends the whole call, so no run of edits succeeds from here.
    next msg failed =>
      constructor
      · intro taken
        cases taken
      · intro succeeds
        cases succeeds with
        | next applied rest => cases failed.symm.trans applied

theorem multiEdit_allOrNothing {δ : Type} (disk : Disk δ) (path : String)
    (edits : List FileEdit) (d : δ) : AllOrNothing nearMiss disk path edits d := by
  constructor
  · intro content final reads succeeds
    unfold multiEdit
    rw [reads]
    dsimp only
    rw [editInTurn_ok_iff.mpr succeeds]
    dsimp only
    split
    next written => rw [written]
    next e written => rw [written]
  · intro fails
    unfold multiEdit
    cases reads : disk.read d path with
    | error e => exact ⟨rfl, rfl⟩
    | ok content =>
      cases result : editInTurn nearMiss 0 content edits with
      | error why => simp [result]
      | ok final => exact absurd ⟨content, final, reads, editInTurn_ok_iff.mp result⟩ fails

/-! ## Both -/

/-- Several edits are always all or nothing. One is of the place it names unless the text it
looks for is entangled with itself. -/
theorem edits_exact (content old new : String) {δ : Type} (disk : Disk δ) (path : String)
    (edits : List FileEdit) (d : δ) :
    AllOrNothing nearMiss disk path edits d ∧
      (EditsThePlace nearMiss content old new ↔ ¬ Entangled content old) :=
  ⟨multiEdit_allOrNothing disk path edits d, editsThePlace_iff content old new⟩

/-- The search does not see the second of two places that overlap. -/
theorem edits_exact_overlapping :
    ¬ ∀ content old new : String, EditsThePlace (fun _ _ => "") content old new := by
  intro holds
  have taken : applyEdit (fun _ _ => "") "aaa" "aa" "b" false = .ok "ba" := by decide +kernel
  obtain ⟨⟨place, _, unique⟩, _⟩ := holds "aaa" "aa" "b" "ba" taken
  have first := unique 0 ⟨[], ['a'], rfl, rfl⟩
  have second := unique 1 ⟨['a'], [], rfl, rfl⟩
  exact absurd (first.trans second.symm) (by decide)

end AkumaMiot

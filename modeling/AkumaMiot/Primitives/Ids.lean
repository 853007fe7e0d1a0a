import AkumaMiot.Lib.Numerals
import AkumaMiot.Node.Body

/-!
# Ids as people write them

A message's id is shown in hex and a task's or a note's in decimal. What is typed is read back with
some guessing: an id of a message that happens to have no letter is taken for a decimal.
-/
namespace AkumaMiot

open Numerals

/-- `str::split_once`. -/
def splitOnce (sep : Char) : List Char → Option (List Char × List Char)
  | [] => none
  | c :: cs =>
    if c = sep then some ([], cs)
    else (splitOnce sep cs).map fun halves => (c :: halves.1, halves.2)

/-! ## Display -/

/-- `{:08x}`. -/
def MessageId.display (id : MessageId) : String :=
  String.ofList (pad 8 (Nat.toDigits 16 id.value))

def TaskId.display (id : TaskId) : String :=
  if id.isParent then s!"t{id.parent}" else s!"t{id.parent}.{id.sub}"

def ArtifactId.display : ArtifactId → String
  | .task id => id.display
  | .note n => s!"{n}"

/-! ## Parse -/

/-- Digits alone are read as decimal, anything with letters as hex. -/
def MessageId.parse (s : String) : Option MessageId :=
  -- The zeros that pad an id go with the `0x` before it.
  let trimmed := (trim s.toList).dropWhile fun c => c = '#' ∨ c = '0' ∨ c = 'x'
  let digits := trimmed.dropWhile fun c => c = 'x'
  if digits = [] then none
  else
    let base := if digits.all Char.isDigit then 10 else 16
    (fromStrRadix base (2 ^ 64) digits).map MessageId.mk

def ArtifactId.parse (s : String) : Option ArtifactId :=
  match trim s.toList with
  | [] => none
  | c :: n =>
    if c = 't' ∨ c = 'T' then do
      -- Without a sub-task's number it is the parent.
      let halves := (splitOnce '.' n).getD (n, ['0'])
      let parent ← fromStrRadix 10 (2 ^ 32) halves.1
      let sub ← fromStrRadix 10 (2 ^ 16) halves.2
      some (.task ⟨parent, sub⟩)
    else (fromStrRadix 10 (2 ^ 32) (c :: n)).map .note

example : MessageId.parse "0x9f2c1ab0" = some ⟨0x9f2c1ab0⟩ := by decide

/-! ## Messages -/

theorem toDigits_plain {base n : Nat} (large : 1 < base) (small : base ≤ 16) :
    ∀ c ∈ Nat.toDigits base n, isWhitespace c = false := by
  intro c member
  obtain ⟨d, less, rfl⟩ := mem_toDigits large member
  exact digitChar_plain (less.trans_le small)

namespace MessageId

/-- What may stand before an id. -/
def decorations : List String := ["", "#", "0x"]

/-- One hex digit that is a decimal one too, or hex digits with a letter among them. -/
def Legible (id : MessageId) : Prop :=
  (0 < id.value ∧ id.value < 10) ∨ ∃ c ∈ Nat.toDigits 16 id.value, c.isDigit = false

theorem digitChar_kept {d : Nat} (pos : 0 < d) (less : d < 16) :
    ¬ (d.digitChar = '#' ∨ d.digitChar = '0' ∨ d.digitChar = 'x') := by
  have all : ∀ d, d < 16 → 0 < d →
      ¬ (d.digitChar = '#' ∨ d.digitChar = '0' ∨ d.digitChar = 'x') := by decide
  exact all d less pos

/-- What is left of an id, however it is written: its digits, without leading zeros. -/
theorem stripped (id : MessageId) {decoration : String} (known : decoration ∈ decorations) :
    (trim (decoration ++ id.display).toList).dropWhile (fun c => c = '#' ∨ c = '0' ∨ c = 'x') =
      if id.value = 0 then [] else Nat.toDigits 16 id.value := by
  -- What decorates an id is stripped like its zeros, and is never trimmed.
  have before : ∀ c ∈ decoration.toList,
      (c = '#' ∨ c = '0' ∨ c = 'x') ∧ isWhitespace c = false := by
    simp only [decorations, List.mem_cons, List.not_mem_nil, or_false] at known
    rcases known with rfl | rfl | rfl
    · exact fun c member => by cases member
    · intro c member
      have same : c ∈ ['#'] := member
      rw [List.mem_singleton.mp same]
      exact ⟨.inl rfl, rfl⟩
    · intro c member
      have same : c ∈ ['0', 'x'] := member
      simp only [List.mem_cons, List.not_mem_nil, or_false] at same
      rcases same with rfl | rfl
      · exact ⟨.inr (.inl rfl), rfl⟩
      · exact ⟨.inr (.inr rfl), rfl⟩
  rw [display, String.toList_append, String.toList_ofList, pad, trim_plain]
  · rw [List.dropWhile_append_of_pos, List.dropWhile_append_of_pos]
    · split
      next zero => rw [zero]; rfl
      next pos =>
        -- The first digit of a number that is not zero is kept.
        obtain ⟨d, ds, first, less, written⟩ :=
          toDigits_head (by decide : 1 < 16) le_rfl (Nat.pos_of_ne_zero pos)
        rw [written, List.dropWhile_cons_of_neg (by simpa using digitChar_kept first less)]
    · intro c member
      rw [List.eq_of_mem_replicate member]
      rfl
    · exact fun c member => by simpa using (before c member).1
  · intro c member
    rcases List.mem_append.mp member with front | shown
    · exact (before c front).2
    · rcases List.mem_append.mp shown with zero | digit
      · rw [List.eq_of_mem_replicate zero]
        rfl
      · exact toDigits_plain (by decide) le_rfl c digit

theorem parse_display {id : MessageId} (fits : id.Fits) {decoration : String}
    (known : decoration ∈ decorations) :
    parse (decoration ++ id.display) = some id ↔ id.Legible := by
  rw [parse, stripped id known]
  split
  -- Of the id zero nothing is left.
  next zero => simp [Legible, zero, Nat.toDigits_zero]
  next pos =>
    obtain ⟨d, ds, first, less, written⟩ :=
      toDigits_head (by decide : 1 < 16) le_rfl (Nat.pos_of_ne_zero pos)
    have bare : (Nat.toDigits 16 id.value).dropWhile (fun c => c = 'x') =
        Nat.toDigits 16 id.value := by
      have other : d.digitChar ≠ 'x' := fun same => digitChar_kept first less (by simp [same])
      rw [written, List.dropWhile_cons_of_neg (by simp [other])]
    rw [bare]
    simp only [Nat.toDigits_ne_nil, if_false]
    split
    next digits =>
      -- Read as decimal, which is less than what was written but for a single digit.
      have all : ∀ c ∈ Nat.toDigits 16 id.value, c.isDigit = true := by simpa using digits
      obtain ⟨m, value, -, same⟩ := readDigits_smaller (by decide : 1 < 10)
        (by decide : 10 < 16) le_rfl fits fun c member => isDigit_iff_toDigit.mp (all c member)
      rw [fromStrRadix_eq Nat.toDigits_ne_nil ?_, value]
      · constructor
        · intro read
          have whole : m = id.value := congrArg MessageId.value (Option.some.inj read)
          exact .inl ⟨Nat.pos_of_ne_zero pos, same.mp whole⟩
        · rintro (⟨_, single⟩ | ⟨c, member, letter⟩)
          · rw [same.mpr single]
            rfl
          · rw [all c member] at letter
            cases letter
      · intro sign
        cases all '+' sign
    next letters =>
      rw [fromStrRadix_toDigits (by decide) le_rfl fits]
      refine ⟨fun _ => .inr (by simpa using letters), fun _ => rfl⟩

end MessageId

/-! ## Artifacts -/

theorem splitOnce_append {sep : Char} {front : List Char} (none_ : sep ∉ front)
    (back : List Char) : splitOnce sep (front ++ sep :: back) = some (front, back) := by
  induction front with
  | nil => simp [splitOnce]
  | cons c front ih =>
    have other : c ≠ sep := fun same => none_ (by simp [same])
    rw [List.cons_append, splitOnce, if_neg other, ih fun there => none_ (by simp [there])]
    rfl

theorem splitOnce_none {sep : Char} {cs : List Char} (none_ : sep ∉ cs) :
    splitOnce sep cs = none := by
  induction cs with
  | nil => rfl
  | cons c cs ih =>
    have other : c ≠ sep := fun same => none_ (by simp [same])
    rw [splitOnce, if_neg other, ih fun there => none_ (by simp [there])]
    rfl

/-! ### In decimal -/

theorem decimal_digit {n : Nat} {c : Char} (member : c ∈ Nat.toDigits 10 n) :
    c.isDigit = true := Nat.isDigit_of_mem_toDigits (by decide) le_rfl member

theorem decimal_read {n bound : Nat} (fits : n < bound) :
    fromStrRadix 10 bound (Nat.toDigits 10 n) = some n :=
  fromStrRadix_toDigits (by decide) (by decide) fits

theorem decimal_plain {n : Nat} : ∀ c ∈ Nat.toDigits 10 n, isWhitespace c = false :=
  toDigits_plain (by decide) (by decide)

/-- The part of a task's id that tells one of its sub-tasks. -/
def subSuffix (sub : Nat) : List Char := if sub = 0 then [] else '.' :: Nat.toDigits 10 sub

theorem TaskId.display_toList (id : TaskId) :
    id.display.toList = 't' :: (Nat.toDigits 10 id.parent ++ subSuffix id.sub) := by
  rw [TaskId.display, subSuffix]
  by_cases zero : id.sub = 0
  · simp only [TaskId.isParent, zero, decide_true, if_true, List.append_nil]
    simp
    rfl
  · simp only [TaskId.isParent, zero, decide_false, if_false]
    simp
    rfl

theorem splitOnce_subSuffix (parent sub : Nat) :
    (splitOnce '.' (Nat.toDigits 10 parent ++ subSuffix sub)).getD
      (Nat.toDigits 10 parent ++ subSuffix sub, ['0']) =
      (Nat.toDigits 10 parent, Nat.toDigits 10 sub) := by
  have dotless : ∀ {n : Nat}, '.' ∉ Nat.toDigits 10 n := by
    intro n member
    cases decimal_digit member
  rw [subSuffix]
  split
  next zero =>
    rw [List.append_nil, splitOnce_none dotless, zero]
    rfl
  next child =>
    rw [splitOnce_append dotless]
    rfl

theorem subSuffix_plain {sub : Nat} : ∀ c ∈ subSuffix sub, isWhitespace c = false := by
  intro c member
  rw [subSuffix] at member
  split at member
  · cases member
  · rcases List.mem_cons.mp member with rfl | digit
    · rfl
    · exact decimal_plain c digit

namespace ArtifactId

theorem parse_task {id : TaskId} (fits : id.Fits) :
    parse id.display = some (.task id) := by
  rw [parse, trim_plain, TaskId.display_toList]
  · simp only [true_or, if_true, splitOnce_subSuffix]
    rw [decimal_read fits.1, decimal_read fits.2]
    rfl
  · rw [TaskId.display_toList]
    intro c member
    rcases List.mem_cons.mp member with rfl | rest
    · rfl
    · exact (List.mem_append.mp rest).elim (decimal_plain c) (subSuffix_plain c)

theorem parse_note {n : Nat} (fits : U32 n) : parse (display (.note n)) = some (.note n) := by
  have shown : (display (.note n)).toList = Nat.toDigits 10 n := by
    simp [display]
  rw [parse, trim_plain, shown]
  · split
    next none_ => exact absurd none_ Nat.toDigits_ne_nil
    next c cs written =>
      have digit : c.isDigit = true := decimal_digit (n := n) (by simp [written])
      rw [if_neg, ← written, decimal_read fits]
      · rfl
      · rintro (rfl | rfl) <;> cases digit
  · rw [shown]
    exact decimal_plain

theorem parse_display {id : ArtifactId} (fits : id.Fits) : parse id.display = some id := by
  cases id with
  | task id => exact parse_task fits
  | note n => exact parse_note fits

end ArtifactId

/-- An id of a message is read back as it is shown exactly when it is legible, an id of an
artifact always. -/
theorem ids_parse (id : MessageId) (fits : id.Fits) (artifact : ArtifactId)
    (fits' : artifact.Fits) :
    ((∀ decoration ∈ MessageId.decorations,
      MessageId.parse (decoration ++ id.display) = some id) ↔ id.Legible) ∧
    ArtifactId.parse artifact.display = some artifact := by
  refine ⟨⟨fun each => ?_, fun legible decoration known => ?_⟩, ArtifactId.parse_display fits'⟩
  · have bare : "" ∈ MessageId.decorations := by simp [MessageId.decorations]
    exact (MessageId.parse_display fits bare).mp (each "" bare)
  · exact (MessageId.parse_display fits known).mpr legible

theorem ids_parse_shown : ((∀ decoration ∈ MessageId.decorations,
      MessageId.parse (decoration ++ MessageId.display ⟨0x9f2c1ab0⟩) = some ⟨0x9f2c1ab0⟩) ↔
        MessageId.Legible ⟨0x9f2c1ab0⟩) ∧
    ArtifactId.parse (ArtifactId.display (.task ⟨5, 1⟩)) = some (.task ⟨5, 1⟩) :=
  ids_parse ⟨0x9f2c1ab0⟩ (by unfold MessageId.Fits U64; decide) (.task ⟨5, 1⟩)
    (by unfold ArtifactId.Fits TaskId.Fits U32; decide)

/-- Message 16 is shown as `00000010` and read as message 10; message 0 is refused. -/
theorem ids_parse_misread : MessageId.parse (MessageId.display ⟨16⟩) = some ⟨10⟩ ∧
    MessageId.parse (MessageId.display ⟨0⟩) = none := by
  decide +kernel

end AkumaMiot

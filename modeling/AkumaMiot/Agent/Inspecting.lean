import AkumaMiot.Agent.Loop
import Mathlib.Data.Nat.Digits.Defs

/-!
# Reading a result back

`Inspect` shows a stored result page by page. A page comes back as a result of its own, so that the
cut every result goes through meets it, with the heading and the pointer around it.
-/
namespace AkumaMiot

/-! ## What is fed of a text -/

/-- What is fed of the middle of a text: with the text too long, what of it is in the head and in
the tail. -/
def fedPart (pre shown post : List Char) : List Char :=
  if pre.length + shown.length + post.length ≤ FEED_CHARS then shown
  else shown.take (FEED_HEAD - pre.length) ++
    shown.drop (pre.length + shown.length + post.length - (FEED_CHARS - FEED_HEAD) - pre.length)

theorem headAndTail_short {head most : Nat} {note : Nat → String} {s : String}
    (short : s.length ≤ most) : headAndTail head most note s = s := if_pos short

theorem headAndTail_long {head most : Nat} {note : Nat → String} {s : String}
    (long : most < s.length) : (headAndTail head most note s).toList =
      s.toList.take head ++ ('\n' :: (note (s.length - most)).toList ++ ['\n']) ++
        s.toList.drop (s.length - (most - head)) := by
  unfold headAndTail
  dsimp only
  rw [if_neg (Nat.not_le.mpr long)]
  simp [takeChars, skipChars, toString]

/-- The last `k` characters of a text that ends in `tail` are the last `k` of `tail`. -/
theorem drop_tail {front tail : List Char} {k : Nat} (within : k ≤ tail.length) :
    (front ++ tail).drop ((front ++ tail).length - k) = tail.drop (tail.length - k) := by
  rw [List.length_append, show front.length + tail.length - k =
    front.length + (tail.length - k) by omega, List.drop_length_add_append]

/-- A result is stored with its middle left out if it is very long, and fed with its middle left out
if it is long: what is left is always the head and the tail of what the tool said. -/
theorem feed_keep (id : Nat) (s : String) :
    (s.length ≤ FEED_CHARS → feed id (keep s) = s) ∧
    (FEED_CHARS < s.length → ∃ note, (feed id (keep s)).toList =
      s.toList.take FEED_HEAD ++ note ++ s.toList.drop (s.length - (FEED_CHARS - FEED_HEAD))) := by
  have feeds : FEED_CHARS = 3000 := rfl
  have heads : FEED_HEAD = 1000 := rfl
  have stores : STORE_CHARS = 262144 := rfl
  rcases Nat.lt_or_ge STORE_CHARS s.length with huge | fits
  · refine ⟨fun short => by omega, fun _ => ?_⟩
    obtain ⟨mid, kept⟩ : ∃ mid, (keep s).toList = s.toList.take (STORE_CHARS / 4) ++ mid ++
        s.toList.drop (s.length - (STORE_CHARS - STORE_CHARS / 4)) :=
      ⟨_, headAndTail_long huge⟩
    have tail : (s.toList.drop (s.length - (STORE_CHARS - STORE_CHARS / 4))).length =
        STORE_CHARS - STORE_CHARS / 4 := by
      rw [List.length_drop, String.length_toList]
      omega
    have front : (s.toList.take (STORE_CHARS / 4)).length = STORE_CHARS / 4 := by
      rw [List.length_take, String.length_toList]
      omega
    have long : FEED_CHARS < (keep s).length := by
      rw [← String.length_toList, kept, List.length_append, tail]
      omega
    -- What is fed is cut well inside what is stored, so its ends are the ends of the text.
    have first : (keep s).toList.take FEED_HEAD = s.toList.take FEED_HEAD := by
      rw [kept, List.append_assoc, List.take_append_of_le_length (by omega), List.take_take,
        Nat.min_eq_left (by omega)]
    have last : (keep s).toList.drop ((keep s).length - (FEED_CHARS - FEED_HEAD)) =
        s.toList.drop (s.length - (FEED_CHARS - FEED_HEAD)) := by
      rw [← String.length_toList, kept, drop_tail (by omega), tail, List.drop_drop]
      exact congrArg (List.drop · s.toList) (by omega)
    rw [← first, ← last]
    exact ⟨_, headAndTail_long long⟩
  · have kept : keep s = s := headAndTail_short fits
    rw [kept]
    exact ⟨fun short => headAndTail_short short, fun long => ⟨_, headAndTail_long long⟩⟩

/-- `fedPart` is what stands between the rest of the text's head and tail, and the note. -/
theorem feed_parts (id : Nat) {s : String} {pre shown post : List Char}
    (parts : s.toList = pre ++ shown ++ post) :
    ∃ before front middle back after, (feed id (keep s)).toList =
      before ++ front ++ middle ++ back ++ after ∧ fedPart pre shown post = front ++ back := by
  have length : s.length = pre.length + shown.length + post.length := by
    rw [← String.length_toList, parts, List.length_append, List.length_append]
  have feeds : FEED_CHARS = 3000 := rfl
  have heads : FEED_HEAD = 1000 := rfl
  unfold fedPart
  split
  next short =>
    refine ⟨pre, shown, [], [], post, ?_, by rw [List.append_nil]⟩
    rw [(feed_keep id s).1 (by omega), parts, List.append_nil, List.append_nil]
  next long =>
    -- Head and tail are taken of all three parts, and the middle one keeps what reaches into
    -- them.
    obtain ⟨note, fed⟩ := (feed_keep id s).2 (by omega)
    rw [fed, parts, length]
    refine ⟨pre.take FEED_HEAD, _, post.take (FEED_HEAD - (pre ++ shown).length) ++ note ++
      pre.drop (pre.length + shown.length + post.length - (FEED_CHARS - FEED_HEAD)), _,
      post.drop (pre.length + shown.length + post.length - (FEED_CHARS - FEED_HEAD) -
        (pre ++ shown).length), ?_, rfl⟩
    simp only [List.take_append, List.drop_append, List.append_assoc, List.length_append,
      ← Nat.sub_sub]

theorem fedPart_length (pre shown post : List Char) :
    (fedPart pre shown post).length ≤ shown.length := by
  have feeds : FEED_CHARS = 3000 := rfl
  have heads : FEED_HEAD = 1000 := rfl
  unfold fedPart
  split
  · exact Nat.le_refl _
  · rw [List.length_append, List.length_take, List.length_drop]
    omega

/-- The middle of a text is fed whole where the text is not cut, or the cut is beside it. -/
theorem fedPart_eq_iff (pre shown post : List Char) : fedPart pre shown post = shown ↔
    pre.length + shown.length + post.length ≤ FEED_CHARS ∨
      shown.length + post.length ≤ FEED_CHARS - FEED_HEAD ∨
      pre.length + shown.length ≤ FEED_HEAD ∨ shown.length = 0 := by
  have feeds : FEED_CHARS = 3000 := rfl
  have heads : FEED_HEAD = 1000 := rfl
  unfold fedPart
  split
  next short => simp [short]
  next long =>
    constructor
    -- A part cut into is shorter than it was.
    · intro whole
      have lengths := congrArg List.length whole
      rw [List.length_append, List.length_take, List.length_drop] at lengths
      omega
    · rintro (short | tail | head | empty)
      · exact absurd short long
      · rw [show FEED_HEAD - pre.length = 0 by omega,
          show pre.length + shown.length + post.length - (FEED_CHARS - FEED_HEAD) - pre.length = 0
            by omega]
        rfl
      · rw [List.take_of_length_le (by omega), List.drop_of_length_le (by omega), List.append_nil]
      · rw [List.length_eq_zero_iff.mp empty, List.take_nil, List.drop_nil, List.append_nil]

/-! ## Pages -/

/-- What one `Inspect` shows of a text: its characters from `start` to `stop`. -/
structure Page where
  start : Nat
  stop : Nat
  total : Nat
  shown : List Char
deriving DecidableEq, Repr

namespace Page

/-- The page at an offset. -/
def of (out : String) (offset : Nat) : Page where
  start := min offset out.length
  stop := min (min offset out.length + INSPECT_CHARS) out.length
  total := out.length
  shown := (out.toList.drop (min offset out.length)).take
    (min (min offset out.length + INSPECT_CHARS) out.length - min offset out.length)

/-- The offset a page names for the next part, if there is one. -/
def named (p : Page) : Option Nat := if p.stop < p.total then some p.stop else none

/-- What stands before the characters, of a page of result `i`. -/
def heading (p : Page) (i : Nat) (name : String) : List Char :=
  s!"#{i} {name}  (chars {p.start}–{p.stop} of {p.total})\n".toList

/-- What stands behind them. -/
def pointer (p : Page) (i : Nat) : List Char :=
  match p.named with
  | none => []
  | some stop => s!"\n… [Inspect \x7b\"id\": {i}, \"offset\": {stop}\x7d for the next part]".toList

/-- The page as the tool's output. -/
def out (p : Page) (i : Nat) (name : String) : ToolOut :=
  { arg := s!"#{i} {name}", ok := true,
    facts := [s!"chars {p.start}–{p.stop} of {p.total}"],
    body := String.ofList (p.shown ++ p.pointer i) }

/-- What of the page's characters is fed. -/
def fed (p : Page) (i : Nat) (name : String) : List Char :=
  fedPart (p.heading i name) p.shown (p.pointer i)

end Page

/-- The pages of a text from an offset on, each at the offset that the one before it names. -/
inductive Reads (out : String) : Nat → List Page → Prop
  | last {offset : Nat} (ends : (Page.of out offset).named = none) :
    Reads out offset [Page.of out offset]
  | next {offset stop : Nat} {pages : List Page} (names : (Page.of out offset).named = some stop)
    (rest : Reads out stop pages) : Reads out offset (Page.of out offset :: pages)

/-- `Inspect` of a result that is stored. -/
theorem inspect_page {m : AgentStateMachine} {c : Call} {i : Nat} {name out : String}
    (logged : m.logged i = some (name, out)) (entry : c.entry = some i) :
    m.inspect c = (Page.of out (c.offset.getD 0)).out i name := by
  -- What is found in the log is not from before a restart.
  have stored : ¬ i < m.toolBase := by
    intro before
    unfold AgentStateMachine.logged at logged
    rw [if_neg (Nat.not_le.mpr before)] at logged
    cases logged
  unfold AgentStateMachine.inspect
  rw [entry]
  dsimp only
  rw [if_neg stored, logged]
  dsimp only
  have shown : ∀ a b : Nat, takeChars (b - a) (skipChars a out) =
      String.ofList ((out.toList.drop a).take (b - a)) := fun a b => by
    simp [takeChars, skipChars]
  rw [shown]
  unfold Page.out Page.pointer Page.named Page.of
  dsimp only
  split
  · rw [String.ofList_append, String.ofList_toList]
  · rw [List.append_nil, String.append_empty]

/-- What a page with anything on it comes back as. -/
theorem page_text {p : Page} (i : Nat) (name : String) (some_ : p.shown ≠ []) :
    (p.out i name).text.toList = p.heading i name ++ p.shown ++ p.pointer i := by
  have body : (p.out i name).body ≠ "" := by
    intro empty
    have chars := congrArg String.toList empty
    simp only [Page.out, String.toList_ofList, String.toList_empty] at chars
    exact some_ (List.append_eq_nil_iff.mp chars).1
  unfold ToolOut.text
  dsimp only
  rw [if_neg body]
  simp [Page.out, Page.heading, joinTexts, toString]

/-- What is fed of the page stands in a text, around where the text is cut. -/
def Page.StandsIn (p : Page) (i : Nat) (name : String) (text : List Char) : Prop :=
  ∃ before front middle back after, text = before ++ front ++ middle ++ back ++ after ∧
    p.fed i name = front ++ back

/-- `Page.fed` is what of the page's characters is in the text that is fed. -/
theorem feed_page (id : Nat) {p : Page} (i : Nat) (name : String) (some_ : p.shown ≠ []) :
    p.StandsIn i name (feed id (keep (p.out i name).text)).toList :=
  feed_parts id (page_text i name some_)

/-- A page of `total` characters from `start` on is not cut, or only beside what it shows. -/
def Fits (i : Nat) (name : String) (total start : Nat) : Prop :=
  let p : Page := ⟨start, min (start + INSPECT_CHARS) total, total, []⟩
  let shown := p.stop - p.start
  let before := (p.heading i name).length
  let after := (p.pointer i).length
  before + shown + after ≤ FEED_CHARS ∨ shown + after ≤ FEED_CHARS - FEED_HEAD ∨
    before + shown ≤ FEED_HEAD ∨ shown = 0

instance (i : Nat) (name : String) (total start : Nat) : Decidable (Fits i name total start) :=
  inferInstanceAs (Decidable (_ ∨ _ ∨ _ ∨ _))

theorem fed_of_eq_iff {out : String} {start : Nat} (within : start ≤ out.length) (i : Nat)
    (name : String) : (Page.of out start).fed i name = (Page.of out start).shown ↔
      Fits i name out.length start := by
  have begins : min start out.length = start := Nat.min_eq_left within
  have length : (Page.of out start).shown.length =
      min (start + INSPECT_CHARS) out.length - start := by
    unfold Page.of
    rw [begins, List.length_take, List.length_drop, String.length_toList]
    omega
  have page : Page.of out start =
      ⟨start, min (start + INSPECT_CHARS) out.length, out.length, (Page.of out start).shown⟩ := by
    conv_lhs => unfold Page.of
    rw [begins]
    unfold Page.of
    rw [begins]
  unfold Page.fed
  rw [fedPart_eq_iff, length, page]
  exact Iff.rfl

/-! ## Following the offsets -/

/-- Every page but the last moves on by a whole page. -/
theorem named_of {out : String} {start stop : Nat} (within : start ≤ out.length)
    (names : (Page.of out start).named = some stop) :
    stop = start + INSPECT_CHARS ∧ stop < out.length ∧
      out.toList.drop start = (Page.of out start).shown ++ out.toList.drop stop := by
  unfold Page.named Page.of at names
  dsimp only at names
  rw [Nat.min_eq_left within] at names
  split at names
  next more =>
    cases names
    have ends : min (start + INSPECT_CHARS) out.length = start + INSPECT_CHARS := by omega
    rw [ends] at more ⊢
    refine ⟨rfl, more, ?_⟩
    unfold Page.of
    rw [Nat.min_eq_left within, ends, Nat.add_sub_cancel_left, ← List.drop_drop,
      List.take_append_drop]
  next => cases names

theorem named_none {out : String} {start : Nat} (within : start ≤ out.length)
    (ends : (Page.of out start).named = none) :
    out.length ≤ start + INSPECT_CHARS ∧ (Page.of out start).shown = out.toList.drop start := by
  unfold Page.named Page.of at ends
  dsimp only at ends
  rw [Nat.min_eq_left within] at ends
  split at ends
  next => cases ends
  next done =>
    refine ⟨by omega, ?_⟩
    unfold Page.of
    rw [Nat.min_eq_left within]
    refine List.take_of_length_le ?_
    rw [List.length_drop, String.length_toList]
    omega

/-- Following the offsets comes to an end. -/
theorem reads_exists (out : String) {start : Nat} (within : start ≤ out.length) :
    ∃ pages, Reads out start pages := by
  induction left : out.length - start using Nat.strongRecOn generalizing start with
  | ind left ih =>
    cases names : (Page.of out start).named with
    | none => exact ⟨_, .last names⟩
    | some stop =>
      have step : 0 < INSPECT_CHARS := by decide
      obtain ⟨moves, below, _⟩ := named_of within names
      obtain ⟨pages, rest⟩ := ih (out.length - stop) (by omega) (by omega) rfl
      exact ⟨_, .next names rest⟩

/-- What is fed of the pages is the text exactly where every page fits. -/
theorem reads_fed {out : String} (i : Nat) (name : String) {start : Nat} {pages : List Page}
    (reads : Reads out start pages) (within : start ≤ out.length) :
    (pages.flatMap (·.fed i name)).length ≤ out.length - start ∧
    (pages.flatMap (·.fed i name) = out.toList.drop start ↔
      ∀ k, k = 0 ∨ start + k * INSPECT_CHARS < out.length →
        Fits i name out.length (start + k * INSPECT_CHARS)) := by
  have step : INSPECT_CHARS = 2700 := rfl
  have less : ∀ p : Page, (p.fed i name).length ≤ p.shown.length := fun p =>
    fedPart_length _ _ _
  induction reads with
  | @last start ends =>
    obtain ⟨done, shown⟩ := named_none within ends
    have fewer := less (Page.of out start)
    rw [shown, List.length_drop, String.length_toList] at fewer
    rw [List.flatMap_singleton]
    refine ⟨fewer, ?_⟩
    rw [← shown, fed_of_eq_iff within]
    constructor
    · intro fits k reached
      have first : k = 0 := by
        rw [step] at reached done
        omega
      rwa [first, Nat.zero_mul, Nat.add_zero]
    · intro fits
      have first := fits 0 (.inl rfl)
      rwa [Nat.zero_mul, Nat.add_zero] at first
  | @next start stop pages names rest ih =>
    obtain ⟨moves, below, parts⟩ := named_of within names
    obtain ⟨fewer, whole⟩ := ih (Nat.le_of_lt below)
    have first := less (Page.of out start)
    have lengths := congrArg List.length parts
    rw [List.length_append, List.length_drop, List.length_drop, String.length_toList] at lengths
    have along : ∀ k, start + (k + 1) * INSPECT_CHARS = stop + k * INSPECT_CHARS := fun k => by
      rw [moves, Nat.succ_mul]
      omega
    rw [List.flatMap_cons, parts]
    refine ⟨by rw [List.length_append]; omega, ?_⟩
    constructor
    · intro same
      have total := congrArg List.length same
      rw [List.length_append, List.length_append, List.length_drop, String.length_toList] at total
      -- No page feeds more than it shows, so each feeds all of it.
      obtain ⟨here, later⟩ := List.append_inj same (by omega)
      intro k reached
      cases k with
      | zero =>
        rw [Nat.zero_mul, Nat.add_zero]
        exact (fed_of_eq_iff within i name).mp here
      | succ k =>
        rw [along] at reached ⊢
        exact whole.mp later k (.inr (reached.resolve_left (Nat.succ_ne_zero k)))
    · intro fits
      have here := fits 0 (.inl rfl)
      rw [Nat.zero_mul, Nat.add_zero] at here
      rw [(fed_of_eq_iff within i name).mpr here]
      refine congrArg _ (whole.mpr fun k reached => ?_)
      rw [← along]
      refine fits (k + 1) (.inr ?_)
      rw [along]
      rcases reached with rfl | reached
      · rwa [Nat.zero_mul, Nat.add_zero]
      · exact reached

/-! ## Reading a whole result -/

/-- A number below 10^12 takes twelve characters at most. -/
theorem shown_length {n : Nat} (small : n < 10 ^ 12) : n.repr.length ≤ 12 := by
  rw [← String.length_toList, Nat.toList_repr]
  exact Nat.toDigits_length 10 n 12 (by decide) small

theorem Page.heading_length (p : Page) (i : Nat) (name : String) :
    (p.heading i name).length = 18 + name.length + i.repr.length + p.start.repr.length +
      p.stop.repr.length + p.total.repr.length := by
  have words : "#".length + " ".length + "  (chars ".length + "–".length + " of ".length +
      ")\n".length = 18 := by decide
  unfold Page.heading
  rw [String.length_toList]
  simp only [String.length_append, toString]
  omega

theorem Page.pointer_length (p : Page) (i : Nat) : (p.pointer i).length =
    if p.stop < p.total then 51 + i.repr.length + p.stop.repr.length else 0 := by
  have words : "\n… [Inspect \x7b\"id\": ".length + ", \"offset\": ".length +
      "\x7d for the next part]".length = 51 := by decide
  unfold Page.pointer Page.named
  by_cases more : p.stop < p.total
  · rw [if_pos more, if_pos more, String.length_toList]
    simp only [String.length_append, toString]
    omega
  · rw [if_neg more, if_neg more]
    rfl

/-- With a tool's name of at most 150 characters every page fits. -/
theorem fits_of_short {i total start : Nat} {name : String} (short : name.length ≤ 150)
    (known : i < 10 ^ 12) (small : total < 10 ^ 12) (within : start ≤ total) :
    Fits i name total start := by
  have feeds : FEED_CHARS = 3000 := rfl
  have step : INSPECT_CHARS = 2700 := rfl
  have id := shown_length known
  have first := shown_length (Nat.lt_of_le_of_lt within small)
  have last := shown_length (n := min (start + INSPECT_CHARS) total) (by omega)
  have all := shown_length small
  let p : Page := ⟨start, min (start + INSPECT_CHARS) total, total, []⟩
  have before : (p.heading i name).length =
      18 + name.length + i.repr.length + start.repr.length +
        (min (start + INSPECT_CHARS) total).repr.length + total.repr.length :=
    p.heading_length i name
  have after : (p.pointer i).length ≤
      51 + i.repr.length + (min (start + INSPECT_CHARS) total).repr.length := by
    rw [p.pointer_length i]
    split
    · exact Nat.le_refl _
    · exact Nat.zero_le _
  -- All the lengths are known by now: heading, page and pointer together are short enough.
  refine .inl ?_
  dsimp only [p] at before after ⊢
  omega

/-- `Inspect` answers with the page of the offset it is given, and what is fed of that stands in
the answer's row. Following the offsets from the start comes to an end, and what is fed on the way
is the result exactly where every page fits. -/
theorem inspect_reads_back (m : AgentStateMachine) (i : Nat) (name out : String)
    (logged : m.logged i = some (name, out)) :
    (∀ c : Call, c.entry = some i →
      let page := Page.of out (c.offset.getD 0)
      m.inspect c = page.out i name ∧
      (page.shown ≠ [] → ∀ id, page.StandsIn i name (feed id (keep (m.inspect c).text)).toList)) ∧
    (∃ pages, Reads out 0 pages) ∧
    ∀ pages, Reads out 0 pages → (pages.flatMap (·.fed i name) = out.toList ↔
      ∀ k, k = 0 ∨ k * INSPECT_CHARS < out.length →
        Fits i name out.length (k * INSPECT_CHARS)) := by
  refine ⟨fun c entry => ?_, reads_exists out (Nat.zero_le _), fun pages reads => ?_⟩
  · have answer := inspect_page logged entry
    refine ⟨answer, fun some_ id => ?_⟩
    rw [answer]
    exact feed_page id i name some_
  have whole := (reads_fed i name reads (Nat.zero_le _)).2
  simp only [Nat.zero_add, List.drop_zero] at whole
  exact whole

/-- Three pages of a long `Bash`. -/
theorem inspect_reads_back_bash :
    let out := String.ofList (List.replicate 6000 'x')
    ∃ pages, Reads out 0 pages ∧ pages.flatMap (·.fed 0 "Bash") = out.toList := by
  intro out
  obtain ⟨_, ⟨pages, reads⟩, whole⟩ :=
    inspect_reads_back { toolLog := [("Bash", out)] } 0 "Bash" out rfl
  refine ⟨pages, reads, (whole pages reads).mpr fun k reached => ?_⟩
  have length : out.length = 6000 := by
    rw [← String.length_toList, String.toList_ofList, List.length_replicate]
  have step : INSPECT_CHARS = 2700 := rfl
  rw [length, step] at reached ⊢
  exact fits_of_short (by decide) (by decide) (by decide) (by omega)

/-- A call of a tool that is not there, with a name of 250 characters and long arguments. -/
theorem inspect_reads_back_longName :
    ¬ ∀ (m : AgentStateMachine) (i : Nat) (name out : String), m.logged i = some (name, out) →
      ∃ pages, Reads out 0 pages ∧ pages.flatMap (·.fed i name) = out.toList := by
  intro holds
  have length : (String.ofList (List.replicate 6000 'x')).length = 6000 := by
    rw [← String.length_toList, String.toList_ofList, List.length_replicate]
  obtain ⟨pages, reads, same⟩ := holds
    { toolLog :=
        [(String.ofList (List.replicate 250 'n'), String.ofList (List.replicate 6000 'x'))] }
    0 (String.ofList (List.replicate 250 'n')) (String.ofList (List.replicate 6000 'x')) rfl
  have fits := (reads_fed 0 _ reads (Nat.zero_le _)).2.mp (same.trans List.drop_zero.symm) 0
    (.inl rfl)
  rw [length] at fits
  -- 278 characters before the page and 56 behind it.
  let p : Page := ⟨0, 2700, 6000, []⟩
  have before : (p.heading 0 (String.ofList (List.replicate 250 'n'))).length = 278 := by
    have name : (String.ofList (List.replicate 250 'n')).length = 250 := by
      rw [← String.length_toList, String.toList_ofList, List.length_replicate]
    have figures : (0 : Nat).repr.length + (0 : Nat).repr.length + (2700 : Nat).repr.length +
        (6000 : Nat).repr.length = 10 := by decide
    rw [p.heading_length, name]
    dsimp only [p]
    omega
  have after : (p.pointer 0).length = 56 := by
    have figures : (0 : Nat).repr.length + (2700 : Nat).repr.length = 5 := by decide
    rw [p.pointer_length, if_pos (by decide)]
    dsimp only [p]
    omega
  have feeds : FEED_CHARS = 3000 := rfl
  have heads : FEED_HEAD = 1000 := rfl
  have overfull : ¬ (278 + 2700 + 56 ≤ FEED_CHARS ∨ 2700 + 56 ≤ FEED_CHARS - FEED_HEAD ∨
      278 + 2700 ≤ FEED_HEAD ∨ 2700 = 0) := by omega
  apply overfull
  rw [← before, ← after]
  exact fits

end AkumaMiot

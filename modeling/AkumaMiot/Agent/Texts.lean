import AkumaMiot.Primitives
import Mathlib.Data.List.Destutter

/-!
# What the agent loop reads and writes

A tool's output, how much of it is kept and how much is fed, the row it is fed as and the stub
an old row shrinks to. Lengths are in characters.
-/
namespace AkumaMiot

/-- The most of one result kept at all. -/
def STORE_CHARS : Nat := 256 * 1024
/-- A single result fed back is cut to this. -/
def FEED_CHARS : Nat := 3000
def FEED_HEAD : Nat := 1000
/-- One `Inspect` page. -/
def INSPECT_CHARS : Nat := 2700
/-- Turns a fed result stays in the conversation in full. -/
def RESULT_TURNS : Nat := 6
def AGE_BATCH : Nat := 6
def AGE_FORCE_CHARS : Nat := 40000
/-- Milliseconds since the last turn after which aging is free. -/
def CACHE_COLD : Nat := 5 * 60 * 1000
/-- A fed row this short is left alone. -/
def AGE_MIN_CHARS : Nat := 400
def STUB_HEAD : Nat := 160
/-- How much of a running call's output `Running <id>` shows. -/
def RUNNING_TAIL : Nat := 2400

/-- `s.chars().take(n)`. -/
def takeChars (n : Nat) (s : String) : String := String.ofList (s.toList.take n)

/-- `s.chars().skip(n)`. -/
def skipChars (n : Nat) (s : String) : String := String.ofList (s.toList.drop n)

/-- `[..].join(sep)`. -/
def joinTexts (sep : String) (texts : List String) : String := String.intercalate sep texts

/-- The first of `lines()`, if any. -/
def firstLine (s : String) : String := String.ofList ((lines s.toList).headD [])

/-- `str::trim` of a text. -/
def trimText (s : String) : String := String.ofList (trim s.toList)

/-- `replacen(pat, new, 1)`, where `contains(pat)`. -/
def replaceFirst (pat new : List Char) : List Char → Option (List Char)
  | [] => if pat = [] then some new else none
  | c :: cs =>
    if pat.isPrefixOf (c :: cs) then some (new ++ (c :: cs).drop pat.length)
    else (replaceFirst pat new cs).map (c :: ·)

/-- `ui::human`, of seconds. -/
def human (secs : Nat) : String :=
  if secs < 60 then s!"{secs}s"
  else if secs < 3600 then s!"{secs / 60}m{pad (secs % 60)}s"
  else s!"{secs / 3600}h{pad ((secs % 3600) / 60)}m"
where
  pad (n : Nat) : String := if n < 10 then s!"0{n}" else s!"{n}"

/-- `ui::ToolOut`. -/
structure ToolOut where
  /-- The call's gist. -/
  arg : String
  ok : Bool
  /-- Right-hand facts. -/
  facts : List String := []
  body : String := ""
deriving DecidableEq, Repr

/-- The plain-text form a model reads back. -/
def ToolOut.text (out : ToolOut) : String :=
  let told := if out.facts = [] then "" else "  (" ++ joinTexts ", " out.facts ++ ")"
  if out.body = "" then s!"{out.arg}{told}" else s!"{out.arg}{told}\n{out.body}"

/-- All of a text if short, else its first `head` characters and the rest of `most` from its
end, with `note` in between for how many are missing. -/
def headAndTail (head most : Nat) (note : Nat → String) (s : String) : String :=
  let n := s.length
  if n ≤ most then s
  else s!"{takeChars head s}\n{note (n - most)}\n{skipChars (n - (most - head)) s}"

/-- What the model is fed of result `id`. -/
def feed (id : Nat) (s : String) : String :=
  headAndTail FEED_HEAD FEED_CHARS (fun cut =>
    s!"… [{cut} chars cut here — Inspect \x7b\"id\": {id}, \"offset\": {FEED_HEAD}\x7d " ++
      "reads on from this point] …") s

/-- What the tool log keeps of one result. -/
def keep (s : String) : String :=
  headAndTail (STORE_CHARS / 4) STORE_CHARS (fun cut => s!"… [{cut} chars not kept] …") s

/-- A fed row. -/
def rowText (id : Nat) (name fed : String) : String := s!"[#{id} {name}] {fed}"

/-- A row still in the conversation in full, and what its stub needs. -/
structure Fresh where
  id : Nat
  name : String
  /-- The result's first line, its call and how it went. -/
  head : String
  /-- The full result's length, as kept in the tool log. -/
  chars : Nat
  /-- The count of turns when it was fed. -/
  turn : Nat
  /-- The row exactly as it went into the message, to find and replace. -/
  full : String
deriving DecidableEq, Repr

/-- What the row of an old result is replaced by. -/
def Fresh.stub (f : Fresh) (toolBase : Nat) : String :=
  if f.id ≥ toolBase then
    s!"[#{f.id} {f.name}] {f.head} — {f.chars} chars, out of the conversation now; Inspect " ++
      s!"\x7b\"id\": {f.id}\x7d reads it again."
  else
    s!"[#{f.id} {f.name}] {f.head} — {f.chars} chars, from before a restart and no longer " ++
      "kept; run it again if you need it."

/-- Whether `age` rewrites now. -/
def shouldAge (oldestTurns dueChars : Nat) (cacheCold : Bool) : Bool :=
  if oldestTurns < RESULT_TURNS then false
  else cacheCold || oldestTurns ≥ RESULT_TURNS + AGE_BATCH || dueChars ≥ AGE_FORCE_CHARS

/-! ## The context window -/

/-- Above this a session force-compacts. -/
def FORCE_COMPACT_PCT : Nat := 98

/-- Used percentage of a known window, as a `u32`. -/
def pctUsed (totalTokens : Nat) (window : Option Nat) : Option Nat :=
  match window.filter (· > 0) with
  | none => none
  | some w => some (totalTokens * 100 / w % 2 ^ 32)

/-- 25, then every 10 from 30 up to 80, then every 2 up to 100. -/
def checkpoints : List Nat := [25] ++ List.range' 30 6 10 ++ List.range' 82 10 2

/-- The next checkpoint strictly above `lastWarned`, at or below `usedPct`. -/
def budgetCheckpoint (usedPct lastWarned : Nat) : Option Nat :=
  (checkpoints.filter fun c => c > lastWarned ∧ c ≤ usedPct).max?

example : checkpoints = [25, 30, 40, 50, 60, 70, 80, 82, 84, 86, 88, 90, 92, 94, 96, 98, 100] := by
  decide

end AkumaMiot

import Mathlib.Algebra.Ring.Nat

/-!
# The vocabulary shared by the task table, the pallet and the node

Time is a block number handed in by the caller, never a clock. What happened is
an `Effect`, what was refused is an `Error`.
-/
namespace AkumaMiot

/-- Chain height, a `u32`. -/
abbrev BlockNumber := Nat

/-- `u32::saturating_add`. -/
def u32SaturatingAdd (a b : Nat) : Nat := min (a + b) (2 ^ 32 - 1)

/-- `u8::saturating_add`. -/
def u8SaturatingAdd (a b : Nat) : Nat := min (a + b) (2 ^ 8 - 1)

/-- `n + 1` on a `u32`, which wraps in a release build. -/
def u32Succ (n : Nat) : Nat := (n + 1) % 2 ^ 32

/-- A parent task, or one sub-task of one. `sub = 0` is the parent itself. -/
structure TaskId where
  parent : Nat
  sub : Nat
deriving DecidableEq, Repr

namespace TaskId

/-- `TaskId::parent`, the address of a parent. -/
def ofParent (n : Nat) : TaskId := ⟨n, 0⟩

/-- `TaskId::default`, the address of no task. -/
def default : TaskId := ⟨0, 0⟩

def isParent (id : TaskId) : Bool := id.sub = 0

/-- The parent this id belongs to, itself if it is one. -/
def parentId (id : TaskId) : TaskId := ⟨id.parent, 0⟩

@[simp] theorem parentId_parent (id : TaskId) : id.parentId.parent = id.parent := rfl

@[simp] theorem parentId_isParent (id : TaskId) : id.parentId.isParent = true := rfl

/-- A parent is its own parent. -/
theorem parentId_of_isParent {id : TaskId} (parent : id.isParent = true) : id.parentId = id := by
  obtain ⟨p, s⟩ := id
  have zero : s = 0 := by simpa [isParent] using parent
  subst zero
  rfl

end TaskId

/-- Parents walk `opened → planned → closed | failed`, sub-tasks walk
`pending → inProgress → awaitingClearance → cleared`. -/
inductive TaskStatus
  | opened | planned | closed | failed
  | pending | inProgress | awaitingClearance | cleared
deriving DecidableEq, Repr

inductive Act
  | claim | done | failed | clear | reopen | artifact
deriving DecidableEq, Repr

/-- What a caller may be, decided from the recovered signer. -/
inductive Authority
  | root | leader | peer
deriving DecidableEq, Repr

/-- One line of a leader's plan. -/
structure PlanItem (A : Type) where
  who : A
  what : String
  expect : String
deriving DecidableEq, Repr

/-- A finished sub-task's result. -/
inductive Outcome
  | done (text : String)
  | failed (text : String)
deriving DecidableEq, Repr

def Outcome.text : Outcome → String
  | .done t | .failed t => t

/-- `Outcome::failed`. -/
def Outcome.isFailed : Outcome → Bool
  | .done _ => false
  | .failed _ => true

/-- A decision the table is waiting on the leader for. -/
inductive Directive
  | planNeeded | clearanceNeeded | artifactNeeded | reassignNeeded | leaderElected
deriving DecidableEq, Repr

/-- Why a sub-task went back into the queue. -/
inductive Requeue
  | unclaimed | rehomed | leaseExpired | reopened
deriving DecidableEq, Repr

/-- A message's identity, chosen by its sender. -/
structure MessageId where
  value : Nat
deriving DecidableEq, Repr

/-- Which artifact a vote or a comment is about. -/
inductive ArtifactId
  | task (id : TaskId)
  | note (n : Nat)
deriving DecidableEq, Repr

/-- Something that happened. State is a fold over these. -/
inductive Effect (A : Type)
  | assigned (to_ : A) (task : TaskId) (what expect : String)
  | directed (to_ : A) (task : TaskId) (directive : Directive)
  | nudge (to_ : A) (task : TaskId) (remaining : Nat) (last : Bool)
  | said (sender : A) (to_ : Option A) (body : String) (fromRoot noAck offRecord : Bool)
  | opened (who : A) (task : TaskId) (text : String)
  | planned (who : A) (task : TaskId) (count : Nat)
  | record (who : A) (task : TaskId) (act : Act) (text : String)
  | requeued (task : TaskId) (holder : Option A) (why : Requeue)
  | nudgeBudgetSpent (holder : A) (task : TaskId)
  | closed (task : TaskId) (title body : String) (author : A)
  | failed (task : TaskId)
  | rehomed (task : TaskId) (old : Option A) (to_ : A)
  | standaloneArtifact (author : A) (id : Nat) (title body : String)
  | statsReported (who : A) (turns toolCalls tokens ms : Nat)
  | statsReported2 (who : A) (turns toolCalls messages tokens ms : Nat)
  | message (id : MessageId) (sender : A) (to_ : Option A) (body : String)
      (parent : Option MessageId) (artifactId : Option ArtifactId) (tags : List String)
      (fromRoot noAck offRecord : Bool)
  | reacted (who : A) (target : MessageId) (emoji : String)
  | voted (who : A) (artifact : ArtifactId) (up : Bool)
  | patronRequested (who : A) (name note : String) (carrier : A)
  | patronApproved (who : A) (name : String) (by_ : A)
  | patronRejected (who : A) (by_ : A)
  | patronRevoked (who : A) (by_ : A)
deriving DecidableEq, Repr

/-- Every way an act can be refused. -/
inductive Error
  | notAuthorized | noSuchTask | wrongStatus | wrongKind | notYours | rootNotAssignable
  | emptyPlan | tooManySubtasks | alreadyPlanned | subtasksOutstanding | tooLong
  | alreadySubmitted | alreadyClaimed | tooManyTasks
deriving DecidableEq, Repr

/-- Deadlines, in blocks, and how often each reminder is repeated. -/
structure Timers where
  claimWindow : Nat := 100
  lease : Nat := 150
  workNag : Nat := 25
  directiveNag : Nat := 20
  maxNudges : Nat := 3
  maxReoffers : Nat := 3
  maxDirectiveNudges : Nat := 3
deriving DecidableEq, Repr

/-- Size bounds, enforced by the table itself. -/
structure Limits where
  maxText : Nat := 4 * 1024
  maxResult : Nat := 16 * 1024
  maxArtifact : Nat := 64 * 1024
  maxTitle : Nat := 128
  maxSubtasks : Nat := 8
  maxTasks : Nat := 512
  maxMessage : Nat := 2048
deriving DecidableEq, Repr

structure Config where
  timers : Timers := {}
  limits : Limits := {}
deriving DecidableEq, Repr

/-- A committed report. -/
structure Artifact (A : Type) where
  title : String
  body : String
  author : A
  createdAt : BlockNumber
deriving DecidableEq, Repr

/-! ## Titles -/

/-- `char::is_whitespace`, Unicode's `White_Space`. -/
def isWhitespace (c : Char) : Bool :=
  (9 ≤ c.toNat && c.toNat ≤ 13) || c.toNat = 0x20 || c.toNat = 0x85 || c.toNat = 0xA0 ||
  c.toNat = 0x1680 || (0x2000 ≤ c.toNat && c.toNat ≤ 0x200A) || c.toNat = 0x2028 ||
  c.toNat = 0x2029 || c.toNat = 0x202F || c.toNat = 0x205F || c.toNat = 0x3000

/-- `str::trim`. -/
def trim (cs : List Char) : List Char :=
  ((cs.dropWhile isWhitespace).reverse.dropWhile isWhitespace).reverse

theorem trim_plain {cs : List Char} (plain : ∀ c ∈ cs, isWhitespace c = false) : trim cs = cs := by
  have keeps : ∀ cs : List Char, (∀ c ∈ cs, isWhitespace c = false) →
      cs.dropWhile isWhitespace = cs := by
    intro cs plain
    cases cs with
    | nil => rfl
    | cons c cs => rw [List.dropWhile_cons_of_neg (by simp [plain c])]
  rw [trim, keeps cs plain, keeps cs.reverse (by simpa using plain), List.reverse_reverse]

theorem digitChar_plain {d : Nat} (small : d < 16) : isWhitespace d.digitChar = false := by
  revert d
  decide

private def stripCarriageReturn (line : List Char) : List Char :=
  if line.getLast? = some '\r' then line.dropLast else line

/-- `str::lines`: a carriage return is dropped only before a line feed, and a final line feed
opens no further line. -/
def lines (cs : List Char) : List (List Char) :=
  let segments := cs.splitOn '\n'
  segments.dropLast.map stripCarriageReturn ++ segments.getLast?.toList.filter (· ≠ [])

/-- The longest prefix of at most `max` UTF-8 bytes. -/
def truncate : Nat → List Char → List Char
  | _, [] => []
  | max, c :: cs => if c.utf8Size ≤ max then c :: truncate (max - c.utf8Size) cs else []

/-- The first `# ` heading, trimmed and cut to `max` bytes, or a stable fallback. -/
def titleFromMarkdown (body : String) (max : Nat) : String :=
  let heading := (lines body.toList).findSome? (fun l => List.isPrefixOf? ['#', ' '] l)
  let out := match heading.map trim with
    | some (c :: cs) => c :: cs
    | _ => "untitled".toList
  String.ofList (truncate max out)

example : titleFromMarkdown "# aaaaaaaaéb" 9 = "aaaaaaaa" := by decide

end AkumaMiot

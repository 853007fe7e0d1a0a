import AkumaMiot.Lib.BigEndian
import AkumaMiot.Lib.KeyValue

/-!
# The block log and its compaction points

Blocks by height, state only at compaction points, and a column of singletons. Block bodies
and states are opaque to the store. Every change is one commit, which may fail and then
changes nothing.
-/
namespace AkumaMiot

/-- `n + 1` on a `u64`, which wraps in a release build. -/
def u64Succ (n : Nat) : Nat := (n + 1) % 2 ^ 64

/-- The rows of the three columns. -/
inductive StoreKey
  | block (height : Nat)
  | checkpoint (height : Nat)
  | singleton (name : String)
deriving DecidableEq, Repr

/-- Bodies `β`, states `σ`, and raw bytes in the singletons. -/
abbrev StoreKey.Value (β σ : Type) : StoreKey → Type
  | .block _ => β
  | .checkpoint _ => σ
  | .singleton _ => List UInt8

abbrev StoreDb (β σ : Type) := KeyValue.Db (StoreKey.Value β σ)

abbrev StoreWrite (β σ : Type) := KeyValue.Write (StoreKey.Value β σ)

def keyHead : StoreKey := .singleton "head"

def keyLastCp : StoreKey := .singleton "last_checkpoint"

/-- Prefixed, so it can never collide with `head` or `last_checkpoint`. -/
def auxKey (name : String) : StoreKey := .singleton ("aux:" ++ name)

inductive StoreError
  | db
  | notContiguous (expected got : Nat)
  | badCheckpoint (head last got : Nat)
deriving DecidableEq, Repr

/-- Where a rewind landed, and what to do from there. -/
structure Rewind (σ : Type) where
  height : Nat
  state : Option σ
  dropped : Nat
deriving DecidableEq, Repr

structure Store (β σ : Type) where
  db : StoreDb β σ
  head : Nat
  lastCheckpoint : Nat

namespace Store

variable {β σ : Type}

/-- `for h in a..=b`. -/
def heights (a b : Nat) : List Nat := List.range' a (b + 1 - a)

/-- A database with nothing in it. -/
def emptyDb : StoreDb β σ := fun _ => none

def putBlock (h : Nat) (block : β) : StoreWrite β σ := ⟨.block h, some block⟩

def putCheckpoint (h : Nat) (state : σ) : StoreWrite β σ := ⟨.checkpoint h, some state⟩

def putHead (h : Nat) : StoreWrite β σ := ⟨keyHead, some (BigEndian.toBytes h)⟩

def putLastCp (h : Nat) : StoreWrite β σ := ⟨keyLastCp, some (BigEndian.toBytes h)⟩

def dropBlocks (hs : List Nat) : List (StoreWrite β σ) :=
  (hs.map StoreKey.block).map KeyValue.delete

/-- The deletion of a checkpoint's state, if there is a checkpoint. -/
def dropCheckpoint (last : Nat) : List (StoreWrite β σ) :=
  if last > 0 then [KeyValue.delete (.checkpoint last)] else []

/-- What a height reads as after `db.get(COL_META, key)?.and_then(be).unwrap_or(0)`. -/
def readHeight (db : StoreDb β σ) (name : String) : Nat :=
  ((db (.singleton name)).bind BigEndian.ofBytes).getD 0

/-- `Store::open`, on whatever the database holds. -/
def openDb (db : StoreDb β σ) : Store β σ where
  db := db
  head := readHeight db "head"
  lastCheckpoint := readHeight db "last_checkpoint"

def block (s : Store β σ) (height : Nat) : Option β := s.db (.block height)

def aux (s : Store β σ) (name : String) : Option (List UInt8) := s.db (auxKey name)

/-- The state at the latest compaction, if there is one. -/
def checkpointState (s : Store β σ) : Option σ :=
  if s.lastCheckpoint = 0 then none else s.db (.checkpoint s.lastCheckpoint)

/-- Append one block. `commits` says whether the database takes the commit. -/
def append (s : Store β σ) (commits : Bool) (height : Nat) (block : β) :
    Except StoreError Unit × Store β σ :=
  if height ≠ u64Succ s.head then (.error (.notContiguous (u64Succ s.head) height), s)
  else if !commits then (.error .db, s)
  else (.ok (), { s with
    db := KeyValue.commit s.db [putBlock height block, putHead height]
    head := height })

/-- Record a compaction; answers how many blocks were pruned. -/
def compact (s : Store β σ) (commits : Bool) (height : Nat) (state : σ) :
    Except StoreError Nat × Store β σ :=
  if height > s.head ∨ height ≤ s.lastCheckpoint then
    (.error (.badCheckpoint s.head s.lastCheckpoint height), s)
  else if !commits then (.error .db, s)
  else
    let pruned := heights (s.lastCheckpoint + 1) height
    let ops := [putCheckpoint height state, putLastCp height] ++ dropCheckpoint s.lastCheckpoint ++
      dropBlocks pruned
    (.ok pruned.length, { s with
      db := KeyValue.commit s.db ops
      lastCheckpoint := height })

/-- Take a peer's word for the state as of `height` and start the log clean from there. -/
def adoptCheckpoint (s : Store β σ) (commits : Bool) (height : Nat) (state : σ) :
    Except StoreError Unit × Store β σ :=
  if !commits then (.error .db, s)
  else
    let ops := dropBlocks (heights 1 s.head) ++ dropCheckpoint s.lastCheckpoint ++
      [putCheckpoint height state, putLastCp height, putHead height]
    (.ok (), {
      db := KeyValue.commit s.db ops
      head := height
      lastCheckpoint := height })

def putAux (s : Store β σ) (commits : Bool) (name : String) (value : List UInt8) :
    Except StoreError Unit × Store β σ :=
  if !commits then (.error .db, s)
  else (.ok (), { s with db := KeyValue.commit s.db [⟨auxKey name, some value⟩] })

/-- Leader wins: rewind to the latest compaction at or below the fork point, or to genesis. -/
def rewindForFork (s : Store β σ) (commits : Bool) (forkPoint : Nat) :
    Except StoreError (Rewind σ) × Store β σ :=
  let land := if forkPoint ≥ s.lastCheckpoint then s.lastCheckpoint else 0
  if !commits then (.error .db, s)
  else
    let forget := if land = 0 ∧ s.lastCheckpoint > 0 then
      [KeyValue.delete (.checkpoint s.lastCheckpoint), putLastCp 0] else []
    let ops := dropBlocks (heights (u64Succ land) s.head) ++ forget ++ [putHead land]
    let s' : Store β σ := {
      db := KeyValue.commit s.db ops
      head := land
      lastCheckpoint := if land = 0 then 0 else s.lastCheckpoint }
    let state := if land = 0 then none else s'.db (.checkpoint s.lastCheckpoint)
    (.ok ⟨land, state, s.head - land⟩, s')

/-- Close the store and open its database again. -/
def reopen (s : Store β σ) : Store β σ := openDb s.db

/-- The last height at which the log agrees with `theirs`, the leader's blocks from `start` on. -/
def forkPoint [DecidableEq β] (s : Store β σ) (start : Nat) (theirs : List β) : Nat :=
  go (start - 1) start theirs
where
  go (agreed h : Nat) : List β → Nat
    | [] => agreed
    | t :: ts => if s.block h = some t then go h (u64Succ h) ts else agreed

end Store

end AkumaMiot

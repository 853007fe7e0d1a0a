import AkumaMiot.Lib.Machine

/-!
# A reader of `/events`

The node numbers its log's entries from 1, and numbers them anew whenever it rebuilds the log.
A cursor that has read a log from its first entry knows again, by block and by count within
the block, what it has handled; one that came in the middle, or that is told of no rebuild,
does not.
-/
namespace AkumaMiot

/-- Where a reader of `/events` is. -/
structure EventCursor where
  seq : Nat
  block : Nat := 0
  inBlock : Nat := 0
  /-- Set by a rebuild: skip up to this block, and that many of its events. -/
  floor : Option (Nat × Nat) := none
  floorSeen : Nat := 0
deriving DecidableEq, Repr

namespace EventCursor

def new (since : Nat) : EventCursor := { seq := since }

/-- Feed `/head`'s `seq`; answers whether the node's log was rebuilt. -/
def checkHead (c : EventCursor) (headSeq : Nat) : Bool × EventCursor :=
  if headSeq ≥ c.seq then (false, c)
  else (true, { c with seq := 0, floor := some (c.block, c.inBlock), floorSeen := 0 })

/-- The count of events handled in the block they came in. -/
def count (c : EventCursor) (block : Nat) : EventCursor :=
  if block = c.block then { c with inBlock := c.inBlock + 1 }
  else { c with block := block, inBlock := 1 }

/-- Whether an entry is new to this reader. -/
def acceptAt (c : EventCursor) (seq block : Nat) : Bool × EventCursor :=
  let c := { c with seq := max c.seq seq }
  match c.floor with
  | some (fb, fcount) =>
    if block < fb then (false, c)
    else if block = fb ∧ c.floorSeen < fcount then
      (false, { c with floorSeen := c.floorSeen + 1 })
    else (true, { c with floor := none }.count block)
  | none => (true, c.count block)

end EventCursor

/-! ## The log -/

/-- An event of the node's, told from every other by when it happened. -/
structure Happening where
  id : Nat
  block : Nat
deriving DecidableEq, Repr

/-- The node's event log. The entry at index `i` is numbered `i + 1`. -/
structure EventLog where
  entries : List Happening := []
  /-- How many events have happened so far. -/
  happened : Nat := 0
  /-- The block that is open; an event happens in it. -/
  block : Nat := 1
deriving DecidableEq, Repr

/-- How a log changes. -/
inductive LogChange
  | grow (block : Nat)
  | rebuild (checkpoint : Nat)
deriving DecidableEq, Repr

namespace EventLog

/-- Blocks only ever close; after a rebuild the open block is above the checkpoint. -/
def change (l : EventLog) : LogChange → EventLog
  | .grow block =>
    let block := max l.block block
    { entries := l.entries ++ [⟨l.happened, block⟩], happened := l.happened + 1, block := block }
  | .rebuild checkpoint =>
    { l with
      entries := l.entries.filter fun e => checkpoint < e.block
      block := max l.block (checkpoint + 1) }

/-- How many entries a change takes off the log. -/
def loses (l : EventLog) : LogChange → Nat
  | .grow _ => 0
  | .rebuild checkpoint => l.entries.countP fun e => e.block ≤ checkpoint

/-- What `/head` says. -/
def head (l : EventLog) : Nat := l.entries.length

/-- What `/events` answers. -/
def since (l : EventLog) (seq : Nat) : List (Happening × Nat) :=
  (l.entries.zipIdx 1).filter fun e => seq < e.2

end EventLog

/-! ## A reader and the log it reads -/

/-- A log, the reader of it, how many events had happened when it started, what it accepted,
and how many entries left the log since it last polled. -/
structure Reader where
  log : EventLog
  cursor : EventCursor
  start : Nat
  accepted : List Nat
  dropped : Nat
deriving DecidableEq, Repr

/-- What may happen to a reader. -/
inductive ReaderEvent
  | log (change : LogChange)
  | poll
deriving DecidableEq, Repr

/-- Accept entries in order; answers which were new. -/
def EventCursor.acceptAll (c : EventCursor) : List (Happening × Nat) → List Nat × EventCursor
  | [] => ([], c)
  | (e, seq) :: rest =>
    let (isNew, c) := c.acceptAt seq e.block
    let (ids, c) := c.acceptAll rest
    (if isNew then e.id :: ids else ids, c)

namespace Reader

/-- A reader that starts at the log's head. -/
def begin_ (l : EventLog) : Reader := ⟨l, .new l.head, l.happened, [], 0⟩

def step (r : Reader) : ReaderEvent → Reader
  | .log change =>
    { r with log := r.log.change change, dropped := r.dropped + r.log.loses change }
  | .poll =>
    let (_, cursor) := r.cursor.checkHead r.log.head
    let (ids, cursor) := cursor.acceptAll (r.log.since cursor.seq)
    { r with cursor := cursor, accepted := r.accepted ++ ids, dropped := 0 }

/-- What the claim asks of a reader at any time: nothing accepted twice, nothing of before. -/
def NoRepeats (r : Reader) : Prop := r.accepted.Nodup ∧ ∀ id ∈ r.accepted, r.start ≤ id

/-- What it asks when the log was polled: everything since the start is accepted. -/
def CaughtUp (r : Reader) : Prop := ∀ e ∈ r.log.entries, r.start ≤ e.id → e.id ∈ r.accepted

/-- When a poll is sound: no entry left the log since the last one, or nothing of the log had
been read; or else the head gives the rebuild away, and what is still there of before the
start lies in blocks below the last one counted in. -/
def SoundPoll (r : Reader) : Prop :=
  r.dropped = 0 ∨ r.cursor.seq = 0 ∨ (r.log.head < r.cursor.seq ∧
    ∀ e ∈ r.log.entries, e.id < r.start → e.block < r.cursor.block)

instance (r : Reader) : Decidable (SoundPoll r) := inferInstanceAs (Decidable (_ ∨ _ ∨ _))

end Reader

namespace EventCursor

/-! ## Reading on -/

/-- Read entries numbered on from the cursor's own number. -/
def read (c : EventCursor) (es : List Happening) : List Nat × EventCursor :=
  c.acceptAll (es.zipIdx (c.seq + 1))

theorem acceptAt_seq (c : EventCursor) (seq block : Nat) :
    (c.acceptAt seq block).2.seq = max c.seq seq := by
  have counted : ∀ (c : EventCursor) (b : Nat), (c.count b).seq = c.seq := by
    intro c b
    unfold count
    split <;> rfl
  unfold acceptAt
  simp only
  split
  · split
    · rfl
    · split
      · rfl
      · exact counted ..
  · exact counted ..

@[simp] theorem read_nil (c : EventCursor) : c.read [] = ([], c) := rfl

theorem read_cons (c : EventCursor) (e : Happening) (es : List Happening) :
    c.read (e :: es) =
      let next := (c.acceptAt (c.seq + 1) e.block).2.read es
      (if (c.acceptAt (c.seq + 1) e.block).1 then e.id :: next.1 else next.1, next.2) := by
  have next : (c.acceptAt (c.seq + 1) e.block).2.seq + 1 = c.seq + 1 + 1 := by
    rw [acceptAt_seq]
    omega
  simp only [read, List.zipIdx_cons, acceptAll, next]

theorem read_append (c : EventCursor) (xs ys : List Happening) :
    c.read (xs ++ ys) =
      ((c.read xs).1 ++ ((c.read xs).2.read ys).1, ((c.read xs).2.read ys).2) := by
  induction xs generalizing c with
  | nil => rfl
  | cons x xs ih =>
    rw [List.cons_append, read_cons, read_cons, ih]
    simp only
    split <;> rfl

theorem read_seq (c : EventCursor) (es : List Happening) :
    (c.read es).2.seq = c.seq + es.length := by
  induction es generalizing c with
  | nil => rfl
  | cons e es ih =>
    rw [read_cons]
    simp only [ih, acceptAt_seq, List.length_cons]
    omega

/-- The floor is not, or no longer, in the way of an event of this block. -/
def Passed (c : EventCursor) (block : Nat) : Prop :=
  ∀ fb fcount, c.floor = some (fb, fcount) → fb ≤ block ∧ (block = fb → fcount ≤ c.floorSeen)

theorem acceptAt_passed {c : EventCursor} {seq block : Nat} (passed : c.Passed block) :
    c.acceptAt seq block = (true, { c with seq := max c.seq seq, floor := none }.count block) := by
  unfold acceptAt
  simp only
  split
  next fb fcount floor =>
    obtain ⟨above, seen⟩ := passed fb fcount floor
    rw [if_neg (Nat.not_lt.mpr above), if_neg fun both => Nat.not_lt.mpr (seen both.1) both.2]
  next floor =>
    rw [← floor]

/-- What lies below the floor, or counts up to it, is skipped. -/
theorem read_skips {c : EventCursor} {fb fcount : Nat} (floor : c.floor = some (fb, fcount))
    {es : List Happening} (below : ∀ e ∈ es, e.block ≤ fb)
    (counts : c.floorSeen + es.countP (fun e => e.block = fb) ≤ fcount) :
    c.read es = ([], { c with
      seq := c.seq + es.length
      floorSeen := c.floorSeen + es.countP (fun e => e.block = fb) }) := by
  induction es generalizing c with
  | nil => rfl
  | cons e es ih =>
    have lower := below e (by simp)
    have rest : ∀ e ∈ es, e.block ≤ fb := fun e member => below e (by simp [member])
    rw [read_cons]
    -- At the floor the event is counted; below it, it is only passed over.
    by_cases same : e.block = fb
    · rw [List.countP_cons_of_pos (by simpa using same)] at counts ⊢
      have skipped : c.acceptAt (c.seq + 1) e.block =
          (false, { c with seq := c.seq + 1, floorSeen := c.floorSeen + 1 }) := by
        unfold acceptAt
        simp only [floor, same, Nat.lt_irrefl, if_false, true_and]
        rw [if_pos (by omega), Nat.max_eq_right (Nat.le_succ _)]
      rw [skipped]
      simp only
      rw [ih (by exact floor) rest (by simp only; omega)]
      simp only [Bool.false_eq_true, if_false, List.length_cons, Nat.add_assoc, Nat.add_comm 1]
    · rw [List.countP_cons_of_neg (by simpa using same)] at counts ⊢
      have skipped : c.acceptAt (c.seq + 1) e.block = (false, { c with seq := c.seq + 1 }) := by
        unfold acceptAt
        simp only [floor]
        rw [if_pos (by omega), Nat.max_eq_right (Nat.le_succ _)]
      rw [skipped]
      simp only
      rw [ih (by exact floor) rest (by exact counts)]
      simp only [Bool.false_eq_true, if_false, List.length_cons, Nat.add_assoc, Nat.add_comm 1]

/-- Past the floor everything is accepted, and counted in the block it came in. -/
theorem read_accepts {c : EventCursor} {es : List Happening}
    (passed : ∀ e ∈ es, c.Passed e.block) (above : ∀ e ∈ es, c.block ≤ e.block)
    (sorted : es.Pairwise fun a b => a.block ≤ b.block) :
    (c.read es).1 = es.map Happening.id ∧
      c.block ≤ (c.read es).2.block ∧ (∀ e ∈ es, e.block ≤ (c.read es).2.block) ∧
      (c.read es).2.inBlock = (if (c.read es).2.block = c.block then c.inBlock else 0) +
        es.countP (fun e => e.block = (c.read es).2.block) ∧
      (es ≠ [] → (c.read es).2.floor = none ∧ ∃ e ∈ es, e.block = (c.read es).2.block) := by
  induction es generalizing c with
  | nil => simp
  | cons e es ih =>
    obtain ⟨first, sorted⟩ := List.pairwise_cons.mp sorted
    have mine := above e (by simp)
    rw [read_cons, acceptAt_passed (passed e (by simp))]
    generalize stepped : ({ c with seq := max c.seq (c.seq + 1), floor := none } :
      EventCursor).count e.block = c'
    have counted : c'.block = e.block ∧ c'.floor = none ∧
        c'.inBlock = (if e.block = c.block then c.inBlock else 0) + 1 := by
      subst stepped
      unfold count
      simp only
      split
      next same => exact ⟨same.symm, rfl, rfl⟩
      next => exact ⟨rfl, rfl, rfl⟩
    obtain ⟨block, floor, inBlock⟩ := counted
    obtain ⟨ids, up, last, counts, moved⟩ := ih (c := c')
      (fun x _ fb fcount some => by simp [floor] at some)
      (fun x member => block ▸ first x member) sorted
    rw [block] at up
    simp only [if_true, List.map_cons, List.cons.injEq, true_and]
    refine ⟨ids, Nat.le_trans mine up, List.forall_mem_cons.mpr ⟨up, last⟩, ?_, fun _ => ?_⟩
    · rw [counts]
      by_cases same : (c'.read es).2.block = e.block
      · rw [List.countP_cons_of_pos (by simpa using same.symm), same, block, if_pos rfl, inBlock]
        omega
      · -- The last block read is above this one, and so above the cursor's.
        have higher : (c'.read es).2.block ≠ c.block := by omega
        rw [List.countP_cons_of_neg (by simpa using Ne.symm same), block, if_neg same,
          if_neg higher]
    · cases es with
      | nil => exact ⟨floor, e, by simp, block.symm⟩
      | cons x xs =>
        obtain ⟨none, y, member, same⟩ := moved (by simp)
        exact ⟨none, y, by simp only [List.mem_cons] at member ⊢; exact .inr member, same⟩

end EventCursor

/-! ## Logs -/

namespace EventLog

/-- Every log there is comes about by changes of an empty one. -/
def made (changes : List LogChange) : EventLog := Machine.run change {} changes

/-- Entries stand in the order they happened in, and so do their blocks. -/
structure Ordered (l : EventLog) : Prop where
  ids : l.entries.Pairwise fun a b => a.id < b.id
  blocks : l.entries.Pairwise fun a b => a.block ≤ b.block
  bound : ∀ e ∈ l.entries, e.id < l.happened ∧ e.block ≤ l.block

theorem Ordered.change {l : EventLog} (ordered : l.Ordered) (change : LogChange) :
    (l.change change).Ordered := by
  cases change with
  | grow block =>
    refine ⟨List.pairwise_append.mpr ⟨ordered.ids, List.pairwise_singleton .., ?_⟩,
      List.pairwise_append.mpr ⟨ordered.blocks, List.pairwise_singleton .., ?_⟩, ?_⟩
    · intro e member x last
      rw [List.mem_singleton.mp last]
      exact (ordered.bound e member).1
    · intro e member x last
      rw [List.mem_singleton.mp last]
      exact Nat.le_trans (ordered.bound e member).2 (Nat.le_max_left ..)
    · intro e member
      rcases List.mem_append.mp member with old | last
      · exact ⟨Nat.lt_succ_of_lt (ordered.bound e old).1,
          Nat.le_trans (ordered.bound e old).2 (Nat.le_max_left ..)⟩
      · rw [List.mem_singleton.mp last]
        exact ⟨Nat.lt_succ_self _, Nat.le_refl _⟩
  | rebuild checkpoint =>
    refine ⟨ordered.ids.filter _, ordered.blocks.filter _, fun e member => ?_⟩
    obtain ⟨id, block⟩ := ordered.bound e (List.mem_filter.mp member).1
    exact ⟨id, Nat.le_trans block (Nat.le_max_left ..)⟩

theorem made_ordered (changes : List LogChange) : (made changes).Ordered := by
  refine Machine.run_keeps Ordered (fun l change ordered => ordered.change change) ?_
  exact ⟨.nil, .nil, by simp⟩

end EventLog

/-! ## What a reader keeps -/

namespace Reader

/-- The last block the reader counted in has left the log for good. -/
def Gone (r : Reader) : Prop :=
  (∀ e ∈ r.log.entries, r.cursor.block < e.block) ∧ r.cursor.block < r.log.block

theorem Gone.grow {r : Reader} (gone : r.Gone) (block : Nat) :
    (r.step (.log (.grow block))).Gone := by
  refine ⟨fun e member => ?_, Nat.lt_of_lt_of_le gone.2 (Nat.le_max_left ..)⟩
  rcases List.mem_append.mp member with there | last
  · exact gone.1 e there
  · rw [List.mem_singleton.mp last]
    exact Nat.lt_of_lt_of_le gone.2 (Nat.le_max_left ..)

/-- A rebuild drops the last block counted in, or leaves it whole. -/
theorem Gone.rebuild {r : Reader} {checkpoint : Nat}
    (dropped : r.Gone ∨ r.cursor.block ≤ checkpoint) :
    (r.step (.log (.rebuild checkpoint))).Gone := by
  refine ⟨fun e member => ?_, ?_⟩
  · obtain ⟨there, kept⟩ := List.mem_filter.mp member
    rcases dropped with gone | below
    · exact gone.1 e there
    · exact Nat.lt_of_le_of_lt below (by simpa using kept)
  · rcases dropped with gone | below
    · exact Nat.lt_of_lt_of_le gone.2 (Nat.le_max_left ..)
    · exact Nat.lt_of_lt_of_le (Nat.lt_succ_of_le below) (Nat.le_max_right ..)

/-- The reader's log is what it has read and what it has not. What it counted in its last block
is all of that block that it accepted. -/
structure Inv (r : Reader) (old fresh : List Happening) : Prop where
  ordered : r.log.Ordered
  entries : r.log.entries = old ++ fresh
  read : old.length ≤ r.cursor.seq
  still : r.dropped = 0 → old.length = r.cursor.seq
  once : r.NoRepeats
  past : ∀ id ∈ r.accepted, id < r.log.happened
  handled : ∀ e ∈ old, r.start ≤ e.id → e.id ∈ r.accepted ∧ e.block ≤ r.cursor.block
  unread : ∀ e ∈ fresh, r.start ≤ e.id ∧ e.id ∉ r.accepted ∧ r.cursor.block ≤ e.block
  within : r.cursor.block ≤ r.log.block
  started : r.start ≤ r.log.happened
  counted : r.Gone ∨
    r.cursor.inBlock = old.countP fun e => e.block = r.cursor.block ∧ r.start ≤ e.id
  floor : ∀ fb fcount, r.cursor.floor = some (fb, fcount) →
    fb = r.cursor.block ∧ fcount = r.cursor.inBlock ∧ (r.Gone ∨ fcount ≤ r.cursor.floorSeen)

theorem inv_begin {l : EventLog} (ordered : l.Ordered) : Inv (begin_ l) l.entries [] where
  ordered := ordered
  entries := (List.append_nil _).symm
  read := Nat.le_refl _
  still := fun _ => rfl
  once := ⟨List.nodup_nil, by simp [begin_]⟩
  past := by simp [begin_]
  handled := fun e member since => absurd (ordered.bound e member).1 (Nat.not_lt.mpr since)
  unread := by simp
  within := Nat.zero_le _
  started := Nat.le_refl _
  counted := by
    -- Nothing in the log is from after the start.
    refine .inr (List.countP_eq_zero.mpr fun e member both => ?_).symm
    have since := (of_decide_eq_true both).2
    exact Nat.not_le.mpr (ordered.bound e member).1 since
  floor := by simp [begin_, EventCursor.new]

theorem Inv.grow {r : Reader} {old fresh : List Happening} (inv : Inv r old fresh) (block : Nat) :
    Inv (r.step (.log (.grow block))) old
      (fresh ++ [⟨r.log.happened, max r.log.block block⟩]) where
  ordered := inv.ordered.change (.grow block)
  entries := by simp only [step, EventLog.change, inv.entries, List.append_assoc]
  read := inv.read
  still := inv.still
  once := inv.once
  past := fun id member => Nat.lt_succ_of_lt (inv.past id member)
  handled := inv.handled
  unread := by
    intro e member
    rcases List.mem_append.mp member with there | last
    · exact inv.unread e there
    · rw [List.mem_singleton.mp last]
      exact ⟨inv.started, fun accepted => Nat.lt_irrefl _ (inv.past _ accepted),
        Nat.le_trans inv.within (Nat.le_max_left ..)⟩
  within := Nat.le_trans inv.within (Nat.le_max_left ..)
  started := Nat.le_succ_of_le inv.started
  counted := inv.counted.imp (fun gone => gone.grow block) id
  floor := fun fb fcount floor =>
    have ⟨same, count, seen⟩ := inv.floor fb fcount floor
    ⟨same, count, seen.imp (fun gone => gone.grow block) id⟩

theorem Inv.rebuild {r : Reader} {old fresh : List Happening} (inv : Inv r old fresh)
    (checkpoint : Nat) :
    Inv (r.step (.log (.rebuild checkpoint)))
      (old.filter fun e => checkpoint < e.block) (fresh.filter fun e => checkpoint < e.block) where
  ordered := inv.ordered.change (.rebuild checkpoint)
  entries := by simp only [step, EventLog.change, inv.entries, List.filter_append]
  read := Nat.le_trans (List.length_filter_le ..) inv.read
  still := by
    intro none
    obtain ⟨before, now⟩ := Nat.add_eq_zero_iff.mp none
    have kept : ∀ e ∈ old, checkpoint < e.block := by
      intro e member
      have lost := List.countP_eq_zero.mp now e (by rw [inv.entries]; simp [member])
      simpa using lost
    rw [List.filter_eq_self.mpr (by simpa using kept)]
    exact inv.still before
  once := inv.once
  past := inv.past
  handled := fun e member => inv.handled e (List.mem_filter.mp member).1
  unread := fun e member => inv.unread e (List.mem_filter.mp member).1
  within := Nat.le_trans inv.within (Nat.le_max_left ..)
  started := inv.started
  counted := by
    by_cases below : r.cursor.block ≤ checkpoint
    · exact .inl (.rebuild (.inr below))
    · refine inv.counted.imp (fun gone => .rebuild (.inl gone)) fun counted => ?_
      -- The whole of the last block is still there.
      rw [List.countP_filter]
      refine counted.trans (List.countP_congr fun e _ => ?_)
      simp only [decide_eq_true_eq, Bool.and_eq_true]
      exact ⟨fun both => ⟨both, by omega⟩, And.left⟩
  floor := fun fb fcount floor =>
    have ⟨same, count, seen⟩ := inv.floor fb fcount floor
    ⟨same, count, seen.imp (fun gone => .rebuild (.inl gone)) id⟩

/-! ## A poll -/

/-- A sound poll comes to read exactly what is fresh, and its floor is out of the way. -/
theorem Inv.poll_reads {r : Reader} {old fresh : List Happening} (inv : Inv r old fresh)
    (sound : r.SoundPoll) :
    ∃ c : EventCursor, c.seq = old.length ∧ c.block = r.cursor.block ∧
      c.inBlock = r.cursor.inBlock ∧
      (∀ fb fcount, c.floor = some (fb, fcount) →
        fb = c.block ∧ fcount = c.inBlock ∧ (r.Gone ∨ fcount ≤ c.floorSeen)) ∧
      r.step .poll = { r with
        cursor := (c.read fresh).2, accepted := r.accepted ++ (c.read fresh).1, dropped := 0 } := by
  have size : r.log.head = old.length + fresh.length := by
    rw [EventLog.head, inv.entries, List.length_append]
  by_cases same : r.log.head ≥ r.cursor.seq
  · -- The log goes on where it was read to.
    have length : old.length = r.cursor.seq := by
      rcases sound with still | nothing | ⟨less, _⟩
      · exact inv.still still
      · have := inv.read
        omega
      · omega
    refine ⟨r.cursor, length.symm, rfl, rfl, inv.floor, ?_⟩
    have newer : r.log.since r.cursor.seq = fresh.zipIdx (r.cursor.seq + 1) := by
      have first : ∀ e ∈ old.zipIdx 1, ¬ r.cursor.seq < e.2 := by
        intro e member
        have := List.snd_lt_add_of_mem_zipIdx member
        omega
      have last : ∀ e ∈ fresh.zipIdx (old.length + 1), r.cursor.seq < e.2 := by
        intro e member
        have := List.le_snd_of_mem_zipIdx member
        omega
      rw [EventLog.since, inv.entries, List.zipIdx_append, List.filter_append,
        List.filter_eq_nil_iff.mpr (by simpa using first), List.nil_append, Nat.add_comm 1,
        List.filter_eq_self.mpr (by simpa using last), length]
    simp only [step, EventCursor.checkHead, if_pos same, newer, EventCursor.read]
  · -- The rebuild shows, and what was handled is skipped.
    have known : ∀ e ∈ r.log.entries, e.id < r.start → e.block < r.cursor.block := by
      rcases sound with still | nothing | ⟨_, known⟩
      · have := inv.still still
        omega
      · omega
      · exact known
    have below : ∀ e ∈ old, e.block ≤ r.cursor.block := by
      intro e member
      by_cases since : r.start ≤ e.id
      · exact (inv.handled e member since).2
      · exact Nat.le_of_lt (known e (by rw [inv.entries]; simp [member]) (by omega))
    let c : EventCursor := { r.cursor with
      seq := 0, floor := some (r.cursor.block, r.cursor.inBlock), floorSeen := 0 }
    have counts : old.countP (fun e => e.block = r.cursor.block) = r.cursor.inBlock ∨
        r.Gone ∧ old.countP (fun e => e.block = r.cursor.block) = 0 := by
      rcases inv.counted with gone | counted
      · refine .inr ⟨gone, List.countP_eq_zero.mpr fun e member => ?_⟩
        have higher := gone.1 e (by rw [inv.entries]; simp [member])
        simpa using Nat.ne_of_gt higher
      · refine .inl (.trans (List.countP_congr fun e member => ?_) counted.symm)
        simp only [decide_eq_true_eq]
        refine ⟨fun same => ⟨same, Nat.le_of_not_lt fun before => ?_⟩, And.left⟩
        have := known e (by rw [inv.entries]; simp [member]) before
        omega
    have skipped := EventCursor.read_skips (c := c) rfl below (by
      change 0 + _ ≤ _
      omega)
    refine ⟨(c.read old).2, ?_, ?_, ?_, ?_, ?_⟩
    · rw [EventCursor.read_seq]
      exact Nat.zero_add _
    · rw [skipped]
    · rw [skipped]
    · rw [skipped]
      rintro fb fcount floor
      obtain ⟨rfl, rfl⟩ := Prod.mk.inj (Option.some.inj floor)
      refine ⟨rfl, rfl, counts.symm.imp And.left fun same => ?_⟩
      change _ ≤ 0 + _
      omega
    · have everything : r.log.since 0 = (old ++ fresh).zipIdx 1 := by
        rw [EventLog.since, inv.entries]
        refine List.filter_eq_self.mpr fun e member => ?_
        have := List.le_snd_of_mem_zipIdx member
        simp only [decide_eq_true_eq]
        omega
      have reads : c.acceptAll ((old ++ fresh).zipIdx 1) = c.read (old ++ fresh) := rfl
      simp only [step, EventCursor.checkHead, if_neg same]
      rw [everything, reads, EventCursor.read_append, skipped]
      rfl

theorem Inv.poll {r : Reader} {old fresh : List Happening} (inv : Inv r old fresh)
    (sound : r.SoundPoll) : Inv (r.step .poll) r.log.entries [] ∧ (r.step .poll).CaughtUp := by
  obtain ⟨c, seq, block, inBlock, floor, polled⟩ := inv.poll_reads sound
  obtain ⟨_, freshIds, _⟩ := List.pairwise_append.mp (inv.entries ▸ inv.ordered.ids)
  obtain ⟨_, freshBlocks, _⟩ := List.pairwise_append.mp (inv.entries ▸ inv.ordered.blocks)
  have there : ∀ e ∈ fresh, e ∈ r.log.entries := fun e member => by rw [inv.entries]; simp [member]
  have passed : ∀ e ∈ fresh, c.Passed e.block := by
    intro e member fb fcount some
    obtain ⟨rfl, rfl, seen⟩ := floor fb fcount some
    have above := (inv.unread e member).2.2
    rw [block]
    refine ⟨above, fun same => ?_⟩
    rcases seen with gone | seen
    · exact absurd same (Nat.ne_of_gt (gone.1 e (there e member)))
    · exact seen
  obtain ⟨ids, up, last, counts, moved⟩ := EventCursor.read_accepts passed
    (fun e member => block ▸ (inv.unread e member).2.2) freshBlocks
  have seq' : (c.read fresh).2.seq = r.log.entries.length := by
    rw [EventCursor.read_seq, seq, inv.entries, List.length_append]
  rw [block] at up counts
  rw [inBlock] at counts
  rw [polled, ids]
  -- Every event of the log since the start is accepted now, in or below the last block.
  have handled : ∀ e ∈ r.log.entries, r.start ≤ e.id →
      e.id ∈ r.accepted ++ fresh.map Happening.id ∧ e.block ≤ (c.read fresh).2.block := by
    intro e member since
    rw [inv.entries] at member
    rcases List.mem_append.mp member with before | new
    · obtain ⟨accepted, below⟩ := inv.handled e before since
      exact ⟨by simp [accepted], Nat.le_trans below up⟩
    · exact ⟨List.mem_append_right _ (List.mem_map_of_mem new), last e new⟩
  have gone : fresh = [] → r.Gone → Gone { r with
      cursor := (c.read fresh).2, accepted := r.accepted ++ fresh.map Happening.id
      dropped := 0 } := by
    rintro rfl was
    rw [EventCursor.read_nil]
    exact ⟨fun e member => block ▸ was.1 e member, block ▸ was.2⟩
  refine ⟨{
    ordered := inv.ordered
    entries := (List.append_nil _).symm
    read := Nat.le_of_eq seq'.symm
    still := fun _ => seq'.symm
    once := ⟨?_, ?_⟩
    past := ?_
    handled := handled
    unread := by simp
    within := ?_
    started := inv.started
    counted := ?_
    floor := ?_ }, fun e member since => (handled e member since).1⟩
  · refine List.nodup_append.mpr ⟨inv.once.1, ?_, ?_⟩
    · exact List.pairwise_map.mpr (freshIds.imp Nat.ne_of_lt)
    · intro id before id' new same
      obtain ⟨e, member, rfl⟩ := List.mem_map.mp new
      exact (inv.unread e member).2.1 (same ▸ before)
  · intro id member
    rcases List.mem_append.mp member with before | new
    · exact inv.once.2 id before
    · obtain ⟨e, unread, rfl⟩ := List.mem_map.mp new
      exact (inv.unread e unread).1
  · intro id member
    rcases List.mem_append.mp member with before | new
    · exact inv.past id before
    · obtain ⟨e, unread, rfl⟩ := List.mem_map.mp new
      exact (inv.ordered.bound e (there e unread)).1
  · cases fresh with
    | nil => exact block ▸ inv.within
    | cons e es =>
      obtain ⟨_, x, member, same⟩ := moved (by simp)
      exact same ▸ (inv.ordered.bound x (there x member)).2
  · by_cases nothing : fresh = []
    · refine inv.counted.imp (gone nothing) fun counted => ?_
      subst nothing
      rw [EventCursor.read_nil, inv.entries, List.append_nil]
      simp only [inBlock, block]
      exact counted
    · right
      obtain ⟨_, x, member, same⟩ := moved nothing
      have fresh' : fresh.countP (fun e => e.block = (c.read fresh).2.block ∧ r.start ≤ e.id) =
          fresh.countP fun e => e.block = (c.read fresh).2.block := by
        refine List.countP_congr fun e member => ?_
        simp only [decide_eq_true_eq]
        exact ⟨And.left, fun same => ⟨same, (inv.unread e member).1⟩⟩
      have old' : old.countP (fun e => e.block = (c.read fresh).2.block ∧ r.start ≤ e.id) =
          if (c.read fresh).2.block = r.cursor.block then r.cursor.inBlock else 0 := by
        split
        next stays =>
          rw [stays]
          rcases inv.counted with gone | counted
          · have higher := gone.1 x (there x member)
            omega
          · exact counted.symm
        next moves =>
          refine List.countP_eq_zero.mpr fun e member both => ?_
          obtain ⟨at_, since⟩ := of_decide_eq_true both
          have := (inv.handled e member since).2
          omega
      rw [inv.entries, List.countP_append]
      change (c.read fresh).2.inBlock = old.countP _ + fresh.countP _
      rw [counts, fresh', old']
  · intro fb fcount some
    by_cases nothing : fresh = []
    · subst nothing
      obtain ⟨rfl, rfl, seen⟩ := floor fb fcount some
      exact ⟨rfl, rfl, seen.imp (gone rfl) id⟩
    · rw [(moved nothing).1] at some
      simp at some

/-! ## Every run -/

/-- The condition on a run: every poll is sound. -/
def PollsSoundly (r : Reader) (e : ReaderEvent) : Prop := e = .poll → r.SoundPoll

instance (r : Reader) (e : ReaderEvent) : Decidable (PollsSoundly r e) :=
  inferInstanceAs (Decidable (_ → _))

/-- However its log grows and is rebuilt, a reader whose polls are sound accepts nothing twice
and nothing of before it started, and each poll leaves it with everything since then. -/
theorem delivered_run (changes : List LogChange) (events : List ReaderEvent)
    (sound : Machine.Meets step PollsSoundly (begin_ (EventLog.made changes)) events) :
    (Machine.run step (begin_ (EventLog.made changes)) events).NoRepeats ∧
      ∀ before, events = before ++ [.poll] →
        (Machine.run step (begin_ (EventLog.made changes)) events).CaughtUp := by
  have inv : ∀ done, Machine.Meets step PollsSoundly (begin_ (EventLog.made changes)) done →
      ∃ old fresh, Inv (Machine.run step (begin_ (EventLog.made changes)) done) old fresh := by
    intro done sound
    refine Machine.run_invariant (fun r => ∃ old fresh, Inv r old fresh) ?_
      ⟨_, _, inv_begin (EventLog.made_ordered changes)⟩ sound
    rintro r e ⟨old, fresh, inv⟩ sound
    cases e with
    | log change =>
      cases change with
      | grow block => exact ⟨_, _, inv.grow block⟩
      | rebuild checkpoint => exact ⟨_, _, inv.rebuild checkpoint⟩
    | poll => exact ⟨_, _, (inv.poll (sound rfl)).1⟩
  obtain ⟨_, _, now⟩ := inv events sound
  refine ⟨now.once, ?_⟩
  rintro before rfl
  obtain ⟨first, last, _⟩ := Machine.meets_append.mp sound
  obtain ⟨_, _, then_⟩ := inv before first
  rw [Machine.run_append]
  exact (then_.poll (last rfl)).2

/-- A reader from the first event on sees through a rebuild in the middle of a block. -/
theorem delivered_run_rebuilt :
    let events : List ReaderEvent := [.log (.grow 10), .log (.grow 11), .log (.grow 11), .poll,
      .log (.rebuild 10), .poll, .log (.grow 11), .log (.grow 12), .poll]
    let r := Machine.run step (begin_ (EventLog.made [])) events
    (r.NoRepeats ∧ ∀ before, events = before ++ [.poll] → r.CaughtUp) ∧
      r.accepted = [0, 1, 2, 3, 4] :=
  ⟨delivered_run [] _ (by decide), by decide⟩

/-- A reader that started at the head, with one event of two left by a rebuild. -/
def startedLate : Reader :=
  Machine.run step (begin_ (EventLog.made [.grow 1, .grow 2])) [.log (.rebuild 1), .poll]

/-- A reader whose log lost the event it read, and grew to its number again by the next poll. -/
def regrown : Reader :=
  Machine.run step (begin_ (EventLog.made []))
    [.log (.grow 1), .poll, .log (.grow 2), .log (.rebuild 1), .poll]

/-- The one is given an event of before its start, the other misses one. -/
theorem delivered_run_unsound :
    (startedLate.start = 2 ∧ startedLate.accepted = [1] ∧ ¬ startedLate.NoRepeats) ∧
      regrown.log.entries = [⟨1, 2⟩] ∧ regrown.accepted = [0] ∧ ¬ regrown.CaughtUp := by
  refine ⟨⟨by decide, by decide, fun once => ?_⟩, by decide, by decide, fun caught => ?_⟩
  · exact absurd (once.2 1 (by decide)) (by decide)
  · exact absurd (caught ⟨1, 2⟩ (by decide) (by decide)) (by decide)

end Reader

end AkumaMiot

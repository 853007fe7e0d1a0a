import AkumaMiot.Agent.EventCursor
import AkumaMiot.Node.Node

/-!
# What a cat is woken by

A cat polls its node's log. What a poll accepts is a batch, of which the newest event of each kind
about each task is sent on as a wake. An event about no task has no task to be newest about.
-/
namespace AkumaMiot

variable {A : Type}

/-! ## What an event says of itself -/

namespace Effect

/-- The `t` it is rendered with. -/
def t : Effect A → String
  | said .. => "said"
  | opened .. => "opened"
  | planned .. => "planned"
  | assigned .. => "assigned"
  | directed .. => "directed"
  | nudge .. => "nudge"
  | record .. => "record"
  | requeued .. => "requeued"
  | nudgeBudgetSpent .. => "budget_spent"
  | closed .. => "closed"
  | failed .. => "failed"
  | rehomed .. => "rehomed"
  | standaloneArtifact .. => "standalone_artifact"
  -- One kind of event to readers.
  | statsReported .. | statsReported2 .. => "stats_reported"
  | message .. => "message"
  | reacted .. => "reacted"
  | voted .. => "voted"
  | patronRequested .. => "patron_requested"
  | patronApproved .. => "patron_approved"
  | patronRejected .. => "patron_rejected"
  | patronRevoked .. => "patron_revoked"

/-- The task it is rendered with. -/
def about : Effect A → Option TaskId
  | opened _ task _ | planned _ task _ | assigned _ task _ _ | directed _ task _
  | nudge _ task _ _ | record _ task _ _ | requeued task _ _ | nudgeBudgetSpent _ task
  | closed task _ _ _ | failed task | rehomed task _ _ => some task
  | _ => none

/-- The `from` it is rendered with. -/
def sender : Effect A → Option A
  | said who .. | message _ who .. => some who
  | requeued _ holder _ => holder
  | rehomed _ old _ => old
  | _ => none

def noAck : Effect A → Bool
  | said _ _ _ _ noAck _ | message _ _ _ _ _ _ _ _ noAck _ => noAck
  | _ => false

/-- Whether it should assemble a turn for its recipients. -/
def wakes : Effect A → Bool
  | assigned .. | directed .. | nudge .. | said .. | message .. => true
  | _ => false

/-- Who it is addressed to, if anyone specific. -/
def addressee : Effect A → Option A
  | assigned who .. | directed who .. | nudge who .. => some who
  | said _ who .. | message _ _ who .. => who
  | _ => none

end Effect

/-- Who an event wakes, as `/events` says it. -/
inductive WakeTarget (A : Type)
  | one (who : A)
  /-- A broadcast. -/
  | all
deriving DecidableEq, Repr

/-- Who an effect wakes: a line that needs no reply wakes nobody. -/
def wakeTarget (e : Effect A) : Option (WakeTarget A) :=
  if e.noAck || !e.wakes then none
  else some ((e.addressee.map WakeTarget.one).getD .all)

/-! ## One poll -/

/-- What `watch_chain` keeps between two polls. -/
structure Watcher where
  cursor : EventCursor
  seen : Finset Nat
  question : String
  epoch : Nat

/-- What a poll finds. A node numbers the entries of its log upwards. -/
structure Poll (A : Type) where
  headSeq : Option Nat
  lastCheckpoint : Option Nat
  log : List (Entry A)
  ordered : log.Pairwise fun a b => a.seq < b.seq

/-- What is sent into the inbox. A wake carries the event it is about. -/
inductive Sent (A : Type)
  | reset (why : String)
  | wake (text kind : String) (entry : Entry A)

namespace Sent

/-- The event of a wake. -/
def event : Sent A → Option (Entry A)
  | reset _ => none
  | wake _ _ e => some e

end Sent

/-- Accept entries in order; answers which were new. -/
def EventCursor.acceptBatch (c : EventCursor) : List (Entry A) → List (Entry A) × EventCursor
  | [] => ([], c)
  | e :: rest =>
    let (isNew, c) := c.acceptAt e.seq e.block
    let (batch, c) := c.acceptBatch rest
    (if isNew then e :: batch else batch, c)

namespace Watcher

/-- What the litter is working on. -/
def subject (question : String) (e : Entry A) : String :=
  match e.effect with
  -- Root speaking sets the subject if nothing else has.
  | .said _ _ body true _ _ => if question.isEmpty then body else question
  | .opened _ _ text => text
  | _ => question

def wakeKind (t : String) : String := if t = "said" ∨ t = "message" then "said" else "task"

/-- `Cat::prompt`: what a cat is told of an event, and of which kind the wake is. The words are
put together from the event, the question and the tables of the node. -/
def prompt (words : Entry A → String → String) (e : Entry A) (question : String) :
    Option (String × String) :=
  match e.effect with
  | .assigned .. | .nudge .. | .said .. | .message .. =>
    some (words e question, wakeKind e.effect.t)
  | .directed _ _ directive =>
    match directive with
    | .planNeeded | .clearanceNeeded | .artifactNeeded | .reassignNeeded =>
      some (words e question, wakeKind e.effect.t)
    | .leaderElected => none
  | _ => none

variable [DecidableEq A]

/-- Whether an event of the batch is to wake this cat. -/
def wakesMe (me : A) (e : Entry A) : Bool :=
  -- The sender's word that no reply is needed.
  if (e.effect.t = "said" ∨ e.effect.t = "message") ∧ e.effect.noAck then false
  else match wakeTarget e.effect with
  | some (.one who) => who = me
  -- A cat's own broadcast does not wake it.
  | some .all => e.effect.sender ≠ some me
  | none => false

/-- A task and a kind. -/
abbrev Key := Option TaskId × String

def key (e : Entry A) : Key := (e.effect.about, e.effect.t)

/-- Keep the newest of each key. -/
def keepLatest (latest : HashMap Key (Entry A)) (e : Entry A) : HashMap Key (Entry A) :=
  match latest.lookup (key e) with
  | some cur => if cur.seq ≥ e.seq then latest else latest.insert (key e) e
  | none => latest.insert (key e) e

/-- What is left of a batch, in the order of its numbers. -/
def mine (me : A) (batch : List (Entry A)) : List (Entry A) :=
  (((batch.filter (wakesMe me)).foldl keepLatest ∅).entries.map (·.2)).mergeSort
    fun a b => a.seq ≤ b.seq

/-- Send one event on, unless its number was seen or there is nothing to say of it. -/
def send (words : Entry A → String → String) (question : String)
    (acc : List (Sent A) × Finset Nat) (e : Entry A) : List (Sent A) × Finset Nat :=
  if e.seq ∈ acc.2 then acc
  else
    let seen := insert e.seq acc.2
    match prompt words e question with
    | none => (acc.1, seen)
    | some (text, kind) =>
      (acc.1 ++ [.wake ("[block " ++ toString e.block ++ "] " ++ text) kind e], seen)

/-- A log that was rebuilt is read again. -/
def reread (w : Watcher) : Option Nat → Watcher
  | some seq =>
    let (rebuilt, cursor) := w.cursor.checkHead seq
    { w with cursor := cursor, seen := if rebuilt then ∅ else w.seen }
  | none => w

/-- `/head` is in. A checkpoint that moved ends the session. -/
def readHead (w : Watcher) (p : Poll A) : List (Sent A) × Watcher :=
  let w := w.reread p.headSeq
  match p.lastCheckpoint with
  | some ep =>
    if ep ≠ w.epoch then
      ([.reset ("chain checkpoint moved (" ++ toString w.epoch ++ " -> " ++ toString ep ++ ")")],
        { w with epoch := ep, question := "" })
    else ([], w)
  | none => ([], w)

/-- What a poll accepts of the log, and where it leaves the cursor. -/
def accepts (w : Watcher) (p : Poll A) : List (Entry A) × EventCursor :=
  let w := (w.readHead p).2
  w.cursor.acceptBatch (p.log.filter fun e => w.cursor.seq < e.seq)

/-- One round of `watch_chain`, while somebody reads the inbox. -/
def poll (words : Entry A → String → String) (me : A) (w : Watcher) (p : Poll A) :
    List (Sent A) × Watcher :=
  let (resets, opened) := w.readHead p
  let (batch, cursor) := w.accepts p
  let question := batch.foldl subject opened.question
  let (wakes, seen) := (mine me batch).foldl (send words question) ([], opened.seen)
  (resets ++ wakes, { opened with cursor := cursor, seen := seen, question := question })

/-! ## What a cat is to be woken by -/

/-- A waking event addressed to this cat, on which it may reply. -/
def Addressed (me : A) (e : Entry A) : Prop :=
  e.effect.wakes = true ∧ e.effect.noAck = false ∧
    (e.effect.addressee = some me ∨ e.effect.addressee = none ∧ e.effect.sender ≠ some me)

/-- A newer event of the same kind about the same task is in the batch. -/
def Superseded (me : A) (batch : List (Entry A)) (e : Entry A) : Prop :=
  ∃ e' ∈ batch, Addressed me e' ∧ e'.effect.t = e.effect.t ∧
    (∃ task, e.effect.about = some task ∧ e'.effect.about = some task) ∧ e.seq < e'.seq

/-- Each event of the batch that is addressed to this cat and not superseded is sent as exactly
one wake, in the order of their numbers. -/
def SendsEach (me : A) (batch : List (Entry A)) (sent : List (Sent A)) : Prop :=
  (∀ e ∈ batch, Addressed me e → ¬ Superseded me batch e →
    (sent.filterMap Sent.event).count e = 1) ∧
  (sent.filterMap Sent.event).Pairwise fun a b => a.seq < b.seq

/-- The filter of the batch takes what is addressed to this cat. -/
theorem wakesMe_iff (me : A) (e : Entry A) : wakesMe me e = true ↔ Addressed me e := by
  unfold wakesMe Addressed wakeTarget
  cases effect : e.effect with
  | said sender to_ body fromRoot noAck offRecord =>
    cases noAck <;> cases to_ <;>
      simp [Effect.t, Effect.noAck, Effect.wakes, Effect.addressee, Effect.sender]
  | message id sender to_ body parent artifactId tags fromRoot noAck offRecord =>
    cases noAck <;> cases to_ <;>
      simp [Effect.t, Effect.noAck, Effect.wakes, Effect.addressee, Effect.sender]
  | _ => simp [Effect.t, Effect.noAck, Effect.wakes, Effect.addressee]

/-! ## The newest of each key -/

omit [DecidableEq A] in
/-- Of entries numbered apart, the map holds under each key the newest that has it. -/
theorem keepLatest_spec {xs : List (Entry A)} (ordered : xs.Pairwise fun a b => a.seq < b.seq)
    (k : Key) (e : Entry A) : (xs.foldl keepLatest ∅).lookup k = some e ↔
      e ∈ xs ∧ key e = k ∧ ∀ e' ∈ xs, key e' = k → e'.seq ≤ e.seq := by
  induction xs using List.reverseRecOn generalizing k e with
  | nil => simp
  | append_singleton xs x ih =>
    obtain ⟨before, -, later⟩ := List.pairwise_append.mp ordered
    have newest : ∀ a ∈ xs, a.seq < x.seq := fun a member => later a member x (by simp)
    rw [List.foldl_append]
    -- Each entry is newer than all before it, so it is put in.
    have put : keepLatest (xs.foldl keepLatest ∅) x =
        (xs.foldl keepLatest ∅).insert (key x) x := by
      unfold keepLatest
      split
      next cur found =>
        rw [if_neg (Nat.not_le.mpr (newest cur ((ih before _ _).mp found).1))]
      · rfl
    rw [List.foldl_cons, List.foldl_nil, put]
    by_cases own : k = key x
    · subst own
      rw [AList.lookup_insert]
      constructor
      · rintro ⟨rfl⟩
        refine ⟨by simp, rfl, fun e' member _ => ?_⟩
        rcases List.mem_append.mp member with old | last
        · exact (newest e' old).le
        · rw [List.mem_singleton.mp last]
      · rintro ⟨member, same, top⟩
        rcases List.mem_append.mp member with old | last
        · exact absurd (top x (by simp) rfl) (Nat.not_le.mpr (newest e old))
        · rw [List.mem_singleton.mp last]
    · rw [AList.lookup_insert_ne own, ih before]
      constructor
      · rintro ⟨member, same, top⟩
        refine ⟨List.mem_append_left _ member, same, fun e' member' same' => ?_⟩
        rcases List.mem_append.mp member' with old | last
        · exact top e' old same'
        · rw [List.mem_singleton.mp last] at same'
          exact absurd same'.symm own
      · rintro ⟨member, same, top⟩
        rcases List.mem_append.mp member with old | last
        · exact ⟨old, same, fun e' there => top e' (List.mem_append_left _ there)⟩
        · rw [List.mem_singleton.mp last] at same
          exact absurd same.symm own

section

variable {me : A} {batch : List (Entry A)}

/-- What is left of a batch: the newest of each key among what is addressed to this cat. -/
theorem mem_mine (ordered : batch.Pairwise fun a b => a.seq < b.seq) (e : Entry A) :
    e ∈ mine me batch ↔ (e ∈ batch ∧ Addressed me e) ∧
      ∀ e' ∈ batch, Addressed me e' → key e' = key e → e'.seq ≤ e.seq := by
  have spec := keepLatest_spec (ordered.filter (wakesMe me))
  rw [mine, List.mem_mergeSort, List.mem_map]
  constructor
  · rintro ⟨⟨k, e'⟩, member, rfl⟩
    obtain ⟨inside, same, top⟩ := (spec k e').mp (AList.mem_lookup_iff.mpr member)
    simp only [List.mem_filter, wakesMe_iff] at inside top
    exact ⟨inside, fun e there addressed key' => top e ⟨there, addressed⟩ (key'.trans same)⟩
  · rintro ⟨inside, top⟩
    refine ⟨⟨key e, e⟩, AList.mem_lookup_iff.mp ((spec (key e) e).mpr ⟨?_, rfl, ?_⟩), rfl⟩
    · simpa only [List.mem_filter, wakesMe_iff] using inside
    · intro e' there same
      rw [List.mem_filter, wakesMe_iff] at there
      exact top e' there.1 there.2 same

omit [DecidableEq A] in
/-- Entries of one batch with one number are one. -/
theorem eq_of_seq (ordered : batch.Pairwise fun a b => a.seq < b.seq) {a b : Entry A}
    (left : a ∈ batch) (right : b ∈ batch) (same : a.seq = b.seq) : a = b := by
  by_contra apart
  exact List.Pairwise.forall_of_forall_of_flip (R := fun a b : Entry A => a ≠ b → a.seq ≠ b.seq)
    (fun x _ differs => absurd rfl differs) (ordered.imp fun less _ => less.ne)
    (ordered.imp fun less _ => less.ne') left right apart same

theorem mine_ordered (ordered : batch.Pairwise fun a b => a.seq < b.seq) :
    (mine me batch).Pairwise fun a b => a.seq < b.seq := by
  have spec := keepLatest_spec (ordered.filter (wakesMe me))
  have once : (mine me batch).Nodup := by
    refine (List.mergeSort_perm _ _).nodup_iff.mpr ?_
    generalize (batch.filter (wakesMe me)).foldl keepLatest ∅ = latest at spec
    refine List.Nodup.map_on ?_ latest.nodupKeys.nodup
    rintro ⟨k, e⟩ left ⟨k', e'⟩ right rfl
    -- An entry lies under its own key.
    have own := ((spec k e).mp (AList.mem_lookup_iff.mpr left)).2.1
    have own' := ((spec k' e).mp (AList.mem_lookup_iff.mpr right)).2.1
    rw [← own, ← own']
  have sorted : (mine me batch).Pairwise fun a b => a.seq ≤ b.seq := by
    refine (List.pairwise_mergeSort (fun a b c => ?_) (fun a b => ?_) _).imp fun less => ?_
    · simpa using Nat.le_trans
    · simpa using Nat.le_total a.seq b.seq
    · simpa using less
  refine (sorted.and once).imp_of_mem fun left right both => ?_
  rw [mem_mine ordered] at left right
  exact lt_of_le_of_ne both.1 fun same => both.2 (eq_of_seq ordered left.1.1 right.1.1 same)

omit [DecidableEq A] in
/-- Of new numbers, each is sent that there are words for. -/
theorem send_all (words : Entry A → String → String) (question : String) {es : List (Entry A)}
    (ordered : es.Pairwise fun a b => a.seq < b.seq) {seen : Finset Nat}
    (new : ∀ e ∈ es, e.seq ∉ seen) (out : List (Sent A)) :
    (es.foldl (send words question) (out, seen)).1.filterMap Sent.event =
      out.filterMap Sent.event ++ es.filter fun e => (prompt words e question).isSome := by
  induction es generalizing out seen with
  | nil => simp
  | cons e es ih =>
    obtain ⟨first, rest⟩ := List.pairwise_cons.mp ordered
    have new' : ∀ a ∈ es, a.seq ∉ insert e.seq seen := by
      intro a member there
      rcases Finset.mem_insert.mp there with same | old
      · exact absurd same (first a member).ne'
      · exact new a (List.mem_cons_of_mem _ member) old
    rw [List.foldl_cons, send, if_neg (new e (by simp))]
    dsimp only
    split
    next silent => rw [ih rest new', List.filter_cons, if_neg (by simp [silent])]
    next text kind told =>
      rw [ih rest new', List.filter_cons, if_pos (by simp [told])]
      simp [Sent.event]

omit [DecidableEq A] in
theorem send_seen (words : Entry A → String → String) (question : String) (es : List (Entry A))
    (acc : List (Sent A) × Finset Nat) (n : Nat)
    (there : n ∈ (es.foldl (send words question) acc).2) : n ∈ acc.2 ∨ ∃ e ∈ es, e.seq = n := by
  induction es generalizing acc with
  | nil => exact .inl there
  | cons e es ih =>
    rcases ih _ there with before | ⟨a, member, same⟩
    -- A number is noted even where there is nothing to say.
    · unfold send at before
      split at before
      · exact .inl before
      · dsimp only at before
        have either : n ∈ insert e.seq acc.2 := by
          split at before <;> exact before
        rcases Finset.mem_insert.mp either with same | old
        · exact .inr ⟨e, by simp, same.symm⟩
        · exact .inl old
    · exact .inr ⟨a, List.mem_cons_of_mem _ member, same⟩

/-! ## What a poll takes of the log -/

omit [DecidableEq A] in
theorem acceptBatch_spec (c : EventCursor) (es : List (Entry A)) :
    (c.acceptBatch es).1.Sublist es ∧ c.seq ≤ (c.acceptBatch es).2.seq ∧
      ∀ e ∈ es, e.seq ≤ (c.acceptBatch es).2.seq := by
  induction es generalizing c with
  | nil => exact ⟨.slnil, le_rfl, by simp⟩
  | cons e es ih =>
    obtain ⟨within, later, all⟩ := ih (c.acceptAt e.seq e.block).2
    rw [EventCursor.acceptAt_seq] at later
    unfold EventCursor.acceptBatch
    refine ⟨?_, le_of_max_le_left later, fun a member => ?_⟩
    · dsimp only
      split
      · exact within.cons_cons e
      · exact within.cons e
    · rcases List.mem_cons.mp member with rfl | there
      · exact le_of_max_le_right later
      · exact all a there

/-- Every number seen was read. -/
def Read (w : Watcher) : Prop := ∀ n ∈ w.seen, n ≤ w.cursor.seq

theorem Read.reread {w : Watcher} (read : w.Read) (headSeq : Option Nat) :
    (w.reread headSeq).Read := by
  cases headSeq with
  | none => exact read
  | some seq =>
    intro n there
    simp only [Watcher.reread, EventCursor.checkHead] at there ⊢
    split at there
    next same =>
      rw [if_pos same]
      exact read n there
    · simp at there

omit [DecidableEq A] in
theorem Read.readHead {w : Watcher} (read : w.Read) (p : Poll A) : (w.readHead p).2.Read := by
  have again := read.reread p.headSeq
  unfold Watcher.readHead
  dsimp only
  split
  · split
    · exact again
    · exact again
  · exact again

omit [DecidableEq A] in
theorem readHead_sent (w : Watcher) (p : Poll A) :
    (w.readHead p).1.filterMap Sent.event = [] := by
  unfold readHead
  dsimp only
  split
  · split <;> simp [Sent.event]
  · rfl

omit [DecidableEq A] in
theorem accepts_spec {w : Watcher} (read : w.Read) (p : Poll A) :
    (w.accepts p).1.Pairwise (fun a b => a.seq < b.seq) ∧
    (∀ e ∈ (w.accepts p).1, e.seq ∉ (w.readHead p).2.seen) ∧
    (w.readHead p).2.cursor.seq ≤ (w.accepts p).2.seq ∧
    ∀ e ∈ (w.accepts p).1, e.seq ≤ (w.accepts p).2.seq := by
  obtain ⟨within, later, all⟩ := acceptBatch_spec (w.readHead p).2.cursor
    (p.log.filter fun e => (w.readHead p).2.cursor.seq < e.seq)
  refine ⟨(p.ordered.filter _).sublist within, fun e member seen => ?_, later,
    fun e member => all e (within.subset member)⟩
  have above := (List.mem_filter.mp (within.subset member)).2
  exact absurd (read.readHead p _ seen) (Nat.not_le.mpr (by simpa using above))

theorem Read.poll {w : Watcher} (read : w.Read) (words : Entry A → String → String) (me : A)
    (p : Poll A) : (w.poll words me p).2.Read := by
  obtain ⟨ordered, -, later, all⟩ := accepts_spec read p
  intro n there
  show n ≤ (w.accepts p).2.seq
  rcases send_seen _ _ _ _ n there with before | ⟨e, member, rfl⟩
  · exact (read.readHead p n before).trans later
  · exact all e ((mem_mine ordered e).mp member).1.1

/-- The events of a poll's wakes. -/
theorem poll_sent {w : Watcher} (read : w.Read) (words : Entry A → String → String) (me : A)
    (p : Poll A) : ∃ question, (w.poll words me p).1.filterMap Sent.event =
      (mine me (w.accepts p).1).filter fun e => (prompt words e question).isSome := by
  obtain ⟨ordered, new, -, -⟩ := accepts_spec read p
  refine ⟨(w.accepts p).1.foldl subject (w.readHead p).2.question, ?_⟩
  have left : (mine me (w.accepts p).1).Pairwise fun a b => a.seq < b.seq := mine_ordered ordered
  have wakes := send_all words ((w.accepts p).1.foldl subject (w.readHead p).2.question) left
    (fun e member => new e ((mem_mine ordered e).mp member).1.1) []
  show ((w.readHead p).1 ++ _).filterMap Sent.event = _
  rw [List.filterMap_append, readHead_sent, List.nil_append]
  exact wakes

end

/-! ## Who is woken -/

section

variable {me : A} {batch : List (Entry A)}

/-- No two events about no task are of one kind, and no word of a promotion is the newest about
its task. -/
def Apart (me : A) (batch : List (Entry A)) : Prop :=
  (∀ e ∈ batch, ∀ e' ∈ batch, Addressed me e → Addressed me e' → e.effect.about = none →
    e'.effect.t = e.effect.t → e = e') ∧
  ∀ e ∈ batch, Addressed me e → ∀ who task, e.effect = .directed who task .leaderElected →
    Superseded me batch e

omit [DecidableEq A] in
/-- There are words for whatever is addressed to somebody, except for a promotion. -/
theorem prompt_isSome {e : Entry A} (addressed : Addressed me e)
    (words : Entry A → String → String) (question : String) :
    (prompt words e question).isSome ↔
      ∀ who task, e.effect ≠ .directed who task .leaderElected := by
  obtain ⟨wakes, -, -⟩ := addressed
  unfold prompt
  cases effect : e.effect with
  | directed who task directive => cases directive <;> simp
  | assigned | nudge | said | message => simp
  | _ =>
    rw [effect] at wakes
    cases wakes

omit [DecidableEq A] in
/-- What is about no task is of a kind that never is. -/
theorem about_none {e e' : Entry A} (addressed : Addressed me e)
    (same : e'.effect.t = e.effect.t) (free : e.effect.about = none) :
    e'.effect.about = none := by
  obtain ⟨wakes, -, -⟩ := addressed
  cases effect : e.effect with
  | said | message =>
    rw [effect] at same
    cases effect' : e'.effect <;> rw [effect'] at same <;> first | rfl | simp [Effect.t] at same
  | assigned | directed | nudge =>
    rw [effect] at free
    cases free
  | _ =>
    rw [effect] at wakes
    cases wakes

omit [DecidableEq A] in
theorem not_superseded {e : Entry A} (free : e.effect.about = none) :
    ¬ Superseded me batch e := by
  rintro ⟨_, _, _, _, ⟨_, has, _⟩, _⟩
  simp [free] at has

/-- A poll wakes this cat as it should exactly when nothing in its batch is in the way of
another. -/
theorem sendsEach_iff {w : Watcher} (read : w.Read) (words : Entry A → String → String) (me : A)
    (p : Poll A) : SendsEach me (w.accepts p).1 (w.poll words me p).1 ↔
      Apart me (w.accepts p).1 := by
  obtain ⟨ordered, -, -, -⟩ := accepts_spec read p
  obtain ⟨question, sent⟩ := poll_sent read words me p
  have sorted : ((mine me (w.accepts p).1).filter
      fun e => (prompt words e question).isSome).Pairwise fun a b => a.seq < b.seq :=
    (mine_ordered ordered).filter _
  have once : ((mine me (w.accepts p).1).filter
      fun e => (prompt words e question).isSome).Nodup :=
    sorted.imp fun less same => less.ne (congrArg Entry.seq same)
  rw [SendsEach, sent]
  generalize (w.accepts p).1 = batch at *
  -- What is sent once is newest of its key, and there are words for it.
  have wakes : ∀ e, ((mine me batch).filter fun e =>
      (prompt words e question).isSome).count e = 1 ↔
        e ∈ mine me batch ∧ (prompt words e question).isSome := by
    intro e
    refine Iff.trans ⟨fun one => ?_, List.count_eq_one_of_mem once⟩ List.mem_filter
    exact List.count_pos_iff.mp (by rw [one]; exact Nat.one_pos)
  constructor
  -- Two events under one key cannot both be the newest, and for a promotion there are no words.
  · rintro ⟨each, -⟩
    have sends := fun e member addressed free => (wakes e).mp (each e member addressed free)
    constructor
    · intro e member e' member' addressed addressed' free same
      have free' := about_none addressed same free
      have first := (sends e member addressed (not_superseded free)).1
      have second := (sends e' member' addressed' (not_superseded free')).1
      rw [mem_mine ordered] at first second
      have keys : key e' = key e := by rw [key, key, free, free', same]
      refine eq_of_seq ordered member member' (Nat.le_antisymm ?_ ?_)
      · exact second.2 e member addressed keys.symm
      · exact first.2 e' member' addressed' keys
    · intro e member addressed who task promoted
      by_contra free
      have told := (sends e member addressed free).2
      exact (prompt_isSome addressed words question).mp told who task promoted
  · rintro ⟨lines, promoted⟩
    refine ⟨fun e member addressed free => (wakes e).mpr ⟨?_, ?_⟩, sorted⟩
    · refine (mem_mine ordered e).mpr ⟨⟨member, addressed⟩, fun e' member' addressed' same => ?_⟩
      obtain ⟨tasks, kinds⟩ := Prod.mk.inj same
      cases about : e.effect.about with
      -- About no task it is the only one of its kind; about a task a newer one would supersede it.
      | none => rw [lines e member e' member' addressed addressed' about kinds]
      | some task =>
        by_contra newer
        exact free ⟨e', member', addressed', kinds, ⟨task, about, tasks.trans about⟩,
          Nat.not_le.mp newer⟩
    · refine (prompt_isSome addressed words question).mpr fun who task effect => ?_
      exact free (promoted e member addressed who task effect)

/-- A cat that starts from what its session kept. -/
def start (session : Nat) (question : String) (epoch : Nat) : Watcher :=
  ⟨.new session, ∅, question, epoch⟩

/-- Over any polls: each wakes this cat by every event addressed to it that is not superseded, once
and in order, exactly when no batch holds two lines of one kind for it or a promotion for it that
is the newest about its task. -/
theorem wakes_run (words : Entry A → String → String) (me : A) (session : Nat) (question : String)
    (epoch : Nat) (polls : List (Poll A)) :
    Machine.Meets (fun w p => (poll words me w p).2)
        (fun w p => SendsEach me (w.accepts p).1 (w.poll words me p).1)
        (start session question epoch) polls ↔
      Machine.Meets (fun w p => (poll words me w p).2) (fun w p => Apart me (w.accepts p).1)
        (start session question epoch) polls := by
  refine Machine.meets_congr Read (fun w p read => read.poll words me p)
    (fun w p read => sendsEach_iff read words me p) ?_
  intro n there
  simp [start] at there

end

/-! ## Two people write -/

/-- A message to cat 1. -/
def note (seq from_ : Nat) (body : String) : Entry Nat :=
  ⟨seq, 1, .message ⟨seq⟩ from_ (some 1) body none none [] false false false, none⟩

/-- Two of them, from 2 and from 3, between two of its polls. -/
def twoWrite : Poll Nat where
  headSeq := some 2
  lastCheckpoint := some 0
  log := [note 1 2 "can you look at the parser?", note 2 3 "lunch?"]
  ordered := by simp [note]

/-- The first of them is never sent on. -/
theorem wakes_run_two_write : ¬ Machine.Meets (fun w p => (poll (fun _ _ => "") 1 w p).2)
    (fun w p => SendsEach 1 (w.accepts p).1 (w.poll (fun _ _ => "") 1 p).1)
    (start 0 "" 0) [twoWrite] := by
  rintro ⟨sends, -⟩
  have read : (start 0 "" 0).Read := by simp [Read, start]
  have batch : ((start 0 "" 0).accepts twoWrite).1 = twoWrite.log := rfl
  have apart := ((sendsEach_iff read _ 1 twoWrite).mp sends).1
  rw [batch] at apart
  have same := apart (note 1 2 "can you look at the parser?") (by simp [twoWrite])
    (note 2 3 "lunch?") (by simp [twoWrite]) ⟨rfl, rfl, .inl rfl⟩ ⟨rfl, rfl, .inl rfl⟩ rfl rfl
  exact absurd (congrArg Entry.seq same) (by decide)

end Watcher

end AkumaMiot

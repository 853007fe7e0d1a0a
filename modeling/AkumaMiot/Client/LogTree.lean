import Mathlib.Data.List.Destutter
import AkumaMiot.Lib.Forest
import AkumaMiot.Lib.HashMap

/-!
# The conversation as a tree

`kot log --tree` gathers the lines of a conversation in a map by their ids, hangs each on the one it
answers, and walks down from those that answer nothing in the window. Who shares an id with a later
line, and who is above itself, is not come by.
-/
namespace AkumaMiot

/-! ## What is printed -/

/-- What an event of `/events` is to the tree, with the names already found. -/
inductive LogEffect
  /-- A `said` or a `message`. Only the latter has an id. -/
  | speech (id : Option String) (sender to_ body : String) (parent : Option String)
      (tags : List String)
  | reacted (target emoji who : String)
  | other
deriving DecidableEq, Repr

structure LogEvent where
  block : Nat
  at_ : Option Nat
  effect : LogEffect
deriving DecidableEq, Repr

namespace LogTree

/-- A line of the conversation. Which event of the batch it is, is for the reader. -/
structure Msg where
  sender : String
  to_ : String
  body : String
  parent : Option String
  tags : List String
  at_ : Option Nat
  reactions : List String
  no : Nat
deriving DecidableEq, Repr

/-- What was gathered: the lines by id, and the ids in the order of the log. -/
structure Window where
  msgs : HashMap String Msg := ∅
  order : List String := []

/-- A line without an id is known by its block. -/
def idOf (block : Nat) (id : Option String) : String := id.getD ("b" ++ toString block)

def gather (w : Window) (e : LogEvent × Nat) : Window :=
  match e.1.effect with
  | .speech id sender to_ body parent tags =>
    let id := idOf e.1.block id
    -- A line with an id that was there takes the other's place.
    { msgs := w.msgs.insert id ⟨sender, to_, body, parent, tags, e.1.at_, [], e.2⟩
      order := if id ∈ w.msgs then w.order else w.order ++ [id] }
  | .reacted target emoji who =>
    match w.msgs.lookup target with
    | some m =>
      let reaction := emoji ++ (if emoji.length = 1 then " " ++ who else "")
      { w with msgs := w.msgs.insert target { m with reactions := m.reactions ++ [reaction] } }
    | none => w
  | .other => w

structure Links where
  children : HashMap String (List String) := ∅
  roots : List String := []
  /-- The parents this node's window does not hold. -/
  orphans : List String := []

/-- A reply hangs on its parent; one to an unseen parent is a root. -/
def link (msgs : HashMap String Msg) (l : Links) (id : String) : Links :=
  match (msgs.lookup id).bind (·.parent) with
  | some p =>
    if p ∈ msgs then
      { l with children := l.children.insert p ((l.children.lookup p).getD [] ++ [id]) }
    else { l with roots := l.roots ++ [id], orphans := l.orphans ++ [p] }
  | none => { l with roots := l.roots ++ [id] }

/-- A printed line, before it is put into words and colours. -/
structure Line where
  indent : String
  branch : String
  id : String
  msg : Msg
deriving DecidableEq, Repr

/-- Print a line and all that hangs on it after what was printed; none when the fuel does not
last. -/
def walk (msgs : HashMap String Msg) (children : HashMap String (List String)) :
    Nat → String → String → Bool → List Line → Option (List Line)
  | 0, _, _, _, _ => none
  | fuel + 1, id, indent, last, out => do
    -- `&msgs[id]`, which only ids of the window are given to.
    let m ← msgs.lookup id
    let branch := if out.isEmpty then "" else if last then "└─" else "├─"
    let kids := (children.lookup id).getD []
    let next := if last then indent ++ "   " else indent ++ "│  "
    kids.zipIdx.foldlM
      (fun out k => walk msgs children fuel k.1 next (k.2 + 1 = kids.length) out)
      (out ++ [⟨indent, branch, id, m⟩])

def window (batch : List LogEvent) : Window := batch.zipIdx.foldl gather {}

def links (w : Window) : Links := w.order.foldl (link w.msgs) {}

/-- `Client::log_tree`: the parents it misses, and the lines it prints. -/
def logTree (fuel : Nat) (batch : List LogEvent) : Option (List String × List Line) :=
  let w := window batch
  let l := links w
  -- `dedup` drops what repeats the reaction before it.
  let msgs := w.msgs.mapValues fun m => { m with reactions := m.reactions.destutter (· ≠ ·) }
  (l.roots.foldlM (fun out r => walk msgs l.children fuel r "" true out) []).map (l.orphans, ·)

/-! ## What is gathered -/

/-- The id a line is gathered under. -/
def key (e : LogEvent) : Option String :=
  match e.effect with
  | .speech id .. => some (idOf e.block id)
  | _ => none

/-- The id it answers. -/
def answers (e : LogEvent) : Option String :=
  match e.effect with
  | .speech _ _ _ _ parent _ => parent
  | _ => none

/-- The last event with an id. -/
def lastOf (k : String) (es : List (LogEvent × Nat)) : Option (LogEvent × Nat) :=
  es.foldl (fun found e => if key e.1 = some k then some e else found) none

theorem lastOf_concat (k : String) (es : List (LogEvent × Nat)) (e : LogEvent × Nat) :
    lastOf k (es ++ [e]) = if key e.1 = some k then some e else lastOf k es := by
  rw [lastOf, List.foldl_append]
  rfl

theorem lastOf_some {k : String} {es : List (LogEvent × Nat)} {e : LogEvent × Nat}
    (found : lastOf k es = some e) : e ∈ es ∧ key e.1 = some k := by
  induction es using List.reverseRecOn with
  | nil => cases found
  | append_singleton es x ih =>
    rw [lastOf_concat] at found
    split at found
    next own =>
      cases found
      exact ⟨by simp, own⟩
    · exact ⟨List.mem_append_left _ (ih found).1, (ih found).2⟩

theorem lastOf_isSome {k : String} {es : List (LogEvent × Nat)} {e : LogEvent × Nat}
    (member : e ∈ es) (own : key e.1 = some k) : (lastOf k es).isSome := by
  induction es using List.reverseRecOn with
  | nil => cases member
  | append_singleton es x ih =>
    rw [lastOf_concat]
    split
    · rfl
    next other =>
      rcases List.mem_append.mp member with before | last
      · exact ih before
      · rw [List.mem_singleton.mp last] at own
        exact absurd own other

/-- What the window is of its events: under each id the last of them with it. -/
structure Gathered (es : List (LogEvent × Nat)) (w : Window) : Prop where
  once : w.order.Nodup
  order : ∀ k, k ∈ w.order ↔ k ∈ w.msgs
  last : ∀ k, (w.msgs.lookup k).map (fun m => (m.no, m.parent)) =
    (lastOf k es).map fun e => (e.2, answers e.1)

theorem gathered (es : List (LogEvent × Nat)) : Gathered es (es.foldl gather {}) := by
  induction es using List.reverseRecOn with
  | nil => exact ⟨List.nodup_nil, by simp, by simp [lastOf]⟩
  | append_singleton es e ih =>
    rw [List.foldl_append, List.foldl_cons, List.foldl_nil]
    generalize es.foldl gather {} = w at ih
    unfold gather
    split
    -- A line spoken: it is the last one with its id, whether or not there was one before.
    next id sender to_ body parent tags speech =>
      have own : key e.1 = some (idOf e.1.block id) := by simp [key, speech]
      have replies : answers e.1 = parent := by simp [answers, speech]
      refine ⟨?_, fun k => ?_, fun k => ?_⟩
      · dsimp only
        split
        · exact ih.once
        next new =>
          refine List.nodup_append.mpr ⟨ih.once, List.nodup_singleton _, ?_⟩
          rintro a there b last rfl
          rw [List.mem_singleton] at last
          exact new (last ▸ (ih.order a).mp there)
      · dsimp only
        rw [AList.mem_insert]
        split
        next old =>
          rw [ih.order]
          refine (or_iff_right_of_imp ?_).symm
          rintro rfl
          exact old
        · rw [List.mem_append, List.mem_singleton, ih.order, or_comm]
      · rw [lastOf_concat, own]
        by_cases same : k = idOf e.1.block id
        · subst same
          simp [replies]
        · rw [AList.lookup_insert_ne same, if_neg (fun h => same (Option.some.inj h).symm)]
          exact ih.last k
    -- A reaction: the message is put back, its number and its parent as they were.
    next target emoji who reacts =>
      have silent : ∀ k, lastOf k (es ++ [e]) = lastOf k es := by
        intro k
        rw [lastOf_concat, if_neg (by simp [key, reacts])]
      split
      next m found =>
        refine ⟨ih.once, fun k => ?_, fun k => ?_⟩
        · rw [AList.mem_insert, ih.order]
          refine (or_iff_right_of_imp ?_).symm
          rintro rfl
          exact AList.lookup_isSome.mp (by rw [found]; rfl)
        · rw [silent, ← ih.last k]
          by_cases same : k = target
          · subst same
            rw [AList.lookup_insert, found]
            rfl
          · rw [AList.lookup_insert_ne same]
      · exact ⟨ih.once, ih.order, fun k => by rw [silent, ih.last]⟩
    next other =>
      refine ⟨ih.once, ih.order, fun k => ?_⟩
      rw [lastOf_concat, if_neg (by simp [key, other]), ih.last]

/-! ## What hangs on what -/

/-- The parent of a line, if the window holds it. -/
def parentIn (msgs : HashMap String Msg) (id : String) : Option String :=
  ((msgs.lookup id).bind (·.parent)).filter (· ∈ msgs)

theorem links_spec (msgs : HashMap String Msg) (order : List String) :
    (order.foldl (link msgs) {}).roots = Forest.roots (parentIn msgs) order ∧
    ∀ p, ((order.foldl (link msgs) {}).children.lookup p).getD [] =
      Forest.children (parentIn msgs) order p := by
  induction order using List.reverseRecOn with
  | nil => exact ⟨rfl, fun p => rfl⟩
  | append_singleton order id ih =>
    obtain ⟨roots, kids⟩ := ih
    rw [List.foldl_append, List.foldl_cons, List.foldl_nil]
    generalize order.foldl (link msgs) {} = l at roots kids
    simp only [Forest.roots, Forest.children, List.filter_append] at roots kids ⊢
    -- One more id: it hangs on its parent if that is in the window, and is a root if not.
    unfold link
    split
    next p parent =>
      split
      next here =>
        have up : parentIn msgs id = some p := by simp [parentIn, parent, here]
        refine ⟨by simp [roots, up], fun q => ?_⟩
        by_cases same : q = p
        · subst same
          simp [kids, up]
        · simp [AList.lookup_insert_ne same, kids, up, Ne.symm same]
      next gone =>
        have up : parentIn msgs id = none := by simp [parentIn, parent, gone]
        exact ⟨by simp [roots, up], fun q => by simp [kids, up]⟩
    next parent =>
      have up : parentIn msgs id = none := by simp [parentIn, parent]
      exact ⟨by simp [roots, up], fun q => by simp [kids, up]⟩

/-! ## What is walked -/

/-- How deep a line is indented. -/
def Line.depth (l : Line) : Nat := l.indent.length / 3

/-- A line as a node with its depth. -/
def Line.node (l : Line) : Nat × String := (l.depth, l.id)

section

variable {msgs : HashMap String Msg} {order : List String}

theorem parentIn_closed (known : ∀ k, k ∈ order ↔ k ∈ msgs) :
    Forest.Closed (parentIn msgs) order := by
  intro x _ p parent
  obtain ⟨_, inside⟩ := Option.filter_eq_some_iff.mp parent
  exact (known p).mpr (by simpa using inside)

/-- The lines are the nodes, each with its message. -/
def Shows (msgs : HashMap String Msg) (lines : List Line) (nodes : List (Nat × String)) : Prop :=
  lines.map Line.node = nodes ∧ ∀ l ∈ lines, msgs.lookup l.id = some l.msg

theorem foldlM_shows {κ : Type} {step : List Line → κ → Option (List Line)}
    {nodes : κ → List (Nat × String)} {ks : List κ} (each : ∀ k ∈ ks, ∀ out, ∃ lines,
      step out k = some (out ++ lines) ∧ Shows msgs lines (nodes k)) (out : List Line) :
    ∃ lines, ks.foldlM step out = some (out ++ lines) ∧ Shows msgs lines (ks.flatMap nodes) := by
  induction ks generalizing out with
  | nil => exact ⟨[], by simp, rfl, by simp⟩
  | cons k ks ih =>
    obtain ⟨first, printed, same, known⟩ := each k (by simp) out
    obtain ⟨rest, printed', same', known'⟩ :=
      ih (fun k there => each k (List.mem_cons_of_mem _ there)) (out ++ first)
    refine ⟨first ++ rest, ?_, ?_, fun l there => ?_⟩
    · rw [List.foldlM_cons, printed]
      simpa using printed'
    · rw [List.map_append, same, same', List.flatMap_cons]
    · exact (List.mem_append.mp there).elim (known l) (known' l)

/-- With fuel enough, what is printed is what lies below. -/
theorem walk_shows {children : HashMap String (List String)} (known : ∀ k, k ∈ order ↔ k ∈ msgs)
    (kids : ∀ p, (children.lookup p).getD [] = Forest.children (parentIn msgs) order p)
    {fuel d : Nat} {id indent : String} (deep : indent.length = 3 * d) (last : Bool)
    (member : id ∈ order) (fits : Forest.Fits (parentIn msgs) order fuel id) (out : List Line) :
    ∃ lines, walk msgs children fuel id indent last out = some (out ++ lines) ∧
      Shows msgs lines (Forest.preorder (parentIn msgs) order fuel d id) := by
  -- On the fuel: each child is walked with one less, three columns further in.
  induction fuel generalizing d id indent last out with
  | zero => cases fits
  | succ fuel ih =>
    obtain ⟨m, found⟩ :=
      Option.isSome_iff_exists.mp (AList.lookup_isSome.mpr ((known id).mp member))
    have deeper : (if last then indent ++ "   " else indent ++ "│  ").length = 3 * (d + 1) := by
      cases last <;> simp [deep] <;> rfl
    unfold walk
    simp only [found, Option.bind_eq_bind, Option.bind_some]
    rw [kids]
    generalize (if last then indent ++ "   " else indent ++ "│  ") = next at deeper
    generalize (if out.isEmpty then "" else if last then "└─" else "├─") = branch
    have each : ∀ k ∈ (Forest.children (parentIn msgs) order id).zipIdx, ∀ out, ∃ lines,
        walk msgs children fuel k.1 next
          (k.2 + 1 = (Forest.children (parentIn msgs) order id).length) out =
            some (out ++ lines) ∧
        Shows msgs lines (Forest.preorder (parentIn msgs) order fuel (d + 1) k.1) := by
      intro k there out
      have child : k.1 ∈ Forest.children (parentIn msgs) order id := by
        rw [← List.zipIdx_map_fst 0 (Forest.children (parentIn msgs) order id)]
        exact List.mem_map_of_mem there
      exact ih deeper _ (Forest.mem_children.mp child).1 (fits k.1 child) out
    obtain ⟨lines, printed, same, msgs'⟩ := foldlM_shows each (out ++ [⟨indent, branch, id, m⟩])
    rw [← List.flatMap_map Prod.fst (Forest.preorder (parentIn msgs) order fuel (d + 1)),
      List.zipIdx_map_fst] at same
    refine ⟨⟨indent, branch, id, m⟩ :: lines, by simpa using printed, ?_, ?_⟩
    · rw [List.map_cons, same, Forest.preorder]
      simp [Line.node, Line.depth, deep]
    · intro l there
      rcases List.mem_cons.mp there with rfl | below
      · exact found
      · exact msgs' l below

/-! ## More fuel -/

theorem foldlM_more {κ : Type} {step step' : List Line → κ → Option (List Line)} {ks : List κ}
    (more : ∀ k out r, step out k = some r → step' out k = some r) {out r : List Line}
    (done : ks.foldlM step out = some r) : ks.foldlM step' out = some r := by
  induction ks generalizing out with
  | nil => exact done
  | cons k ks ih =>
    rw [List.foldlM_cons] at done ⊢
    obtain ⟨first, stepped, rest⟩ := Option.bind_eq_some_iff.mp done
    rw [more k out first stepped]
    exact ih rest

/-- What is printed does not depend on how much fuel there was. -/
theorem walk_more {children : HashMap String (List String)} {fuel : Nat} {id indent : String}
    {last : Bool} {out r : List Line}
    (done : walk msgs children fuel id indent last out = some r) (extra : Nat) :
    walk msgs children (fuel + extra) id indent last out = some r := by
  induction fuel generalizing id indent last out r with
  | zero => cases done
  | succ fuel ih =>
    rw [Nat.succ_add]
    unfold walk at done ⊢
    obtain ⟨m, found, walked⟩ := Option.bind_eq_some_iff.mp done
    refine Option.bind_eq_some_iff.mpr ⟨m, found, ?_⟩
    exact foldlM_more (fun k out r => ih) walked

theorem logTree_more {fuel : Nat} {batch : List LogEvent} {r : List String × List Line}
    (done : logTree fuel batch = some r) (extra : Nat) : logTree (fuel + extra) batch = some r := by
  obtain ⟨lines, walked, rfl⟩ := Option.map_eq_some_iff.mp done
  refine Option.map_eq_some_iff.mpr ⟨lines, ?_, rfl⟩
  exact foldlM_more (fun r out lines walked => walk_more walked extra) walked

end

/-- What the program prints of a batch: with some fuel it comes to its end. -/
def Prints (batch : List LogEvent) (lines : List Line) : Prop :=
  ∃ fuel orphans, logTree fuel batch = some (orphans, lines)

theorem Prints.unique {batch : List LogEvent} {left right : List Line} (first : Prints batch left)
    (second : Prints batch right) : left = right := by
  obtain ⟨fuel, orphans, done⟩ := first
  obtain ⟨fuel', orphans', done'⟩ := second
  have long := logTree_more done fuel'
  have long' := logTree_more done' fuel
  rw [Nat.add_comm, long] at long'
  exact (Prod.mk.inj (Option.some.inj long')).2

/-! ## What a batch holds -/

/-- The ids of a batch. -/
def keys (batch : List LogEvent) : List String := batch.filterMap key

/-- The line that a line of the batch answers, if the batch holds it. -/
def parentOf (batch : List LogEvent) (k : String) : Option String :=
  ((batch.find? fun e => key e = some k).bind answers).filter (· ∈ keys batch)

section

variable {batch : List LogEvent}

theorem mem_keys {k : String} :
    k ∈ keys batch ↔ ∃ (i : Nat) (e : LogEvent), batch[i]? = some e ∧ key e = some k := by
  rw [keys, List.mem_filterMap]
  constructor
  · rintro ⟨e, member, own⟩
    obtain ⟨i, at_⟩ := List.getElem?_of_mem member
    exact ⟨i, e, at_, own⟩
  · rintro ⟨i, e, at_, own⟩
    exact ⟨e, List.mem_of_getElem? at_, own⟩

theorem mem_window {k : String} : k ∈ (window batch).msgs ↔ k ∈ keys batch := by
  have last := (gathered batch.zipIdx).last k
  rw [← AList.lookup_isSome, mem_keys]
  constructor
  · intro there
    obtain ⟨m, found⟩ := Option.isSome_iff_exists.mp there
    have found : ((batch.zipIdx.foldl gather {}).msgs.lookup k) = some m := found
    rw [found] at last
    obtain ⟨⟨e, i⟩, latest, _⟩ := Option.map_eq_some_iff.mp last.symm
    obtain ⟨member, own⟩ := lastOf_some latest
    exact ⟨i, e, List.mk_mem_zipIdx_iff_getElem?.mp member, own⟩
  · rintro ⟨i, e, at_, own⟩
    have some_ := lastOf_isSome (e := (e, i)) (List.mk_mem_zipIdx_iff_getElem?.mpr at_) own
    rw [← Option.isSome_map (f := fun e => (e.2, answers e.1)), ← last, Option.isSome_map] at some_
    exact some_

/-- Ids are told apart exactly when each line is the last with its id. -/
theorem keys_nodup_iff : (keys batch).Nodup ↔ ∀ (i : Nat) (e : LogEvent) (k : String),
    batch[i]? = some e → key e = some k → lastOf k batch.zipIdx = some (e, i) := by
  rw [keys, List.Nodup, List.pairwise_filterMap, List.pairwise_iff_getElem]
  constructor
  -- The last event with the id has an index, and it is no other.
  · intro apart i e k at_ own
    obtain ⟨⟨e', j⟩, latest⟩ := Option.isSome_iff_exists.mp
      (lastOf_isSome (e := (e, i)) (List.mk_mem_zipIdx_iff_getElem?.mpr at_) own)
    obtain ⟨member, own'⟩ := lastOf_some latest
    have at_' : batch[j]? = some e' := List.mk_mem_zipIdx_iff_getElem?.mp member
    obtain ⟨inside, here⟩ := List.getElem?_eq_some_iff.mp at_
    obtain ⟨inside', here'⟩ := List.getElem?_eq_some_iff.mp at_'
    rcases Nat.lt_trichotomy i j with less | same | more
    · exact absurd rfl (apart i j inside inside' less k (by rw [here, own]) k (by rw [here', own']))
    · subst same
      rw [latest, ← here, ← here']
    · exact absurd rfl (apart j i inside' inside more k (by rw [here', own']) k (by rw [here, own]))
  · intro each i j inside inside' less k own k' own' same
    subst same
    have first := each i _ k (List.getElem?_eq_getElem inside) own
    have second := each j _ k (List.getElem?_eq_getElem inside') own'
    rw [first] at second
    exact absurd (Prod.mk.inj (Option.some.inj second)).2 less.ne

/-- Only who speaks answers. -/
theorem answers_speaks {e : LogEvent} {p : String} (parent : answers e = some p) :
    (key e).isSome := by
  unfold answers at parent
  split at parent
  next speech => simp [key, speech]
  · cases parent

theorem parentOf_eq (once : (keys batch).Nodup) {i : Nat} {e : LogEvent} {k : String}
    (at_ : batch[i]? = some e) (own : key e = some k) :
    parentOf batch k = (answers e).filter (· ∈ keys batch) := by
  obtain ⟨e', found⟩ := Option.isSome_iff_exists.mp
    (List.find?_isSome (p := fun e => key e = some k) |>.mpr
      ⟨e, List.mem_of_getElem? at_, by simpa using own⟩)
  have own' : key e' = some k := by simpa using List.find?_some found
  obtain ⟨j, at_'⟩ := List.getElem?_of_mem (List.mem_of_find?_eq_some found)
  have last := keys_nodup_iff.mp once i e k at_ own
  rw [keys_nodup_iff.mp once j e' k at_' own'] at last
  obtain rfl : e' = e := (Prod.mk.inj (Option.some.inj last)).1
  rw [parentOf, found, Option.bind_some]

/-- Where ids are told apart, what a line hangs on is what the batch says it answers. -/
theorem parentIn_eq (once : (keys batch).Nodup) :
    parentIn (window batch).msgs = parentOf batch := by
  funext k
  -- What the window holds under an id is the last entry of that id, which is the only one.
  have last := (gathered batch.zipIdx).last k
  have parent : ((window batch).msgs.lookup k).bind (·.parent) =
      (batch.find? fun e => key e = some k).bind answers := by
    have here : (window batch).msgs = (batch.zipIdx.foldl gather {}).msgs := rfl
    rw [here]
    cases found : batch.find? fun e => key e = some k with
    -- No entry has this id: then the window has none either.
    | none =>
      have nobody : lastOf k batch.zipIdx = none := by
        cases latest : lastOf k batch.zipIdx with
        | none => rfl
        | some e =>
          obtain ⟨member, own⟩ := lastOf_some latest
          have there : e.1 ∈ batch :=
            List.mem_of_getElem? (List.mk_mem_zipIdx_iff_getElem?.mp member)
          exact absurd own (by simpa using List.find?_eq_none.mp found e.1 there)
      rw [nobody] at last
      rw [Option.map_eq_none_iff.mp last]
      rfl
    | some e =>
      have own : key e = some k := by simpa using List.find?_some found
      obtain ⟨i, at_⟩ := List.getElem?_of_mem (List.mem_of_find?_eq_some found)
      rw [keys_nodup_iff.mp once i e k at_ own] at last
      obtain ⟨m, stored, same⟩ := Option.map_eq_some_iff.mp last
      rw [stored]
      exact (Prod.mk.inj same).2
  rw [parentIn, parentOf, parent]
  simp only [mem_window]

/-- Whoever gathers a batch gets its ids in order, each once. -/
theorem window_order (batch : List LogEvent) : (window batch).order.Nodup ∧
    ∀ k, k ∈ (window batch).order ↔ k ∈ (window batch).msgs :=
  ⟨(gathered batch.zipIdx).once, (gathered batch.zipIdx).order⟩

/-- The batch is printed as the listing of its forest, each line with the last event of its id. -/
theorem logTree_prints (batch : List LogEvent) : ∃ lines, Prints batch lines ∧
    lines.map Line.node = Forest.listing (parentIn (window batch).msgs) (window batch).order
      (window batch).order.length ∧
    ∀ l ∈ lines, ∃ e, lastOf l.id batch.zipIdx = some (e, l.msg.no) := by
  obtain ⟨-, known⟩ := window_order batch
  have last := (gathered batch.zipIdx).last
  obtain ⟨roots, kids⟩ := links_spec (window batch).msgs (window batch).order
  have here : batch.zipIdx.foldl gather {} = window batch := rfl
  rw [here] at last
  -- The reactions are thinned out; nothing else of a message changes.
  let thin := fun m : Msg => { m with reactions := m.reactions.destutter (· ≠ ·) }
  have lookups : ∀ k, ((window batch).msgs.mapValues thin).lookup k =
      ((window batch).msgs.lookup k).map thin := HashMap.lookup_mapValues thin _
  have same : parentIn ((window batch).msgs.mapValues thin) = parentIn (window batch).msgs := by
    funext k
    have inside : ∀ p, p ∈ (window batch).msgs.mapValues thin ↔ p ∈ (window batch).msgs := by
      intro p
      rw [← AList.lookup_isSome, ← AList.lookup_isSome, lookups, Option.isSome_map]
    simp only [parentIn, lookups, inside]
    cases (window batch).msgs.lookup k <;> rfl
  have known' : ∀ k, k ∈ (window batch).order ↔ k ∈ (window batch).msgs.mapValues thin := by
    intro k
    rw [known, ← AList.lookup_isSome, ← AList.lookup_isSome, lookups, Option.isSome_map]
  have closed := parentIn_closed known
  have each : ∀ r ∈ (links (window batch)).roots, ∀ out, ∃ lines,
      walk ((window batch).msgs.mapValues thin) (links (window batch)).children
        (window batch).order.length r "" true out = some (out ++ lines) ∧
      Shows ((window batch).msgs.mapValues thin) lines (Forest.preorder
        (parentIn (window batch).msgs) (window batch).order (window batch).order.length 0 r) := by
    intro r root out
    have top : r ∈ Forest.roots (parentIn (window batch).msgs) (window batch).order :=
      roots ▸ root
    obtain ⟨member, none_⟩ := Forest.mem_roots.mp top
    have fits := Forest.fits_length closed member (Forest.root_rooted none_)
    rw [← same] at fits ⊢
    exact walk_shows known' (by rw [same]; exact kids) rfl true member fits out
  obtain ⟨lines, walked, nodes, shown⟩ := foldlM_shows each []
  refine ⟨lines, ⟨_, _, Option.map_eq_some_iff.mpr ⟨lines, walked, rfl⟩⟩, ?_, fun l there => ?_⟩
  · rw [nodes, Forest.listing, ← roots]
    rfl
  · have found := shown l there
    rw [lookups] at found
    obtain ⟨m, stored, thinned⟩ := Option.map_eq_some_iff.mp found
    have latest := last l.id
    rw [stored] at latest
    obtain ⟨⟨e, i⟩, there', same'⟩ := Option.map_eq_some_iff.mp latest.symm
    refine ⟨e, ?_⟩
    rw [there', ← thinned]
    exact congrArg (fun i => some (e, i)) (Prod.mk.inj same').1

/-! ## Who is shown -/

/-- Every line of the conversation is printed once, each under the one it answers if the window
holds that. -/
def ShowsAll (batch : List LogEvent) (lines : List Line) : Prop :=
  (∀ (i : Nat) (e : LogEvent), batch[i]? = some e → (key e).isSome →
    lines.countP (·.msg.no = i) = 1) ∧
  ∀ (i : Nat) (e : LogEvent) (p : String), batch[i]? = some e → answers e = some p →
    p ∈ keys batch → ∃ before above mid line after,
      lines = before ++ above :: mid ++ line :: after ∧ above.id = p ∧ line.msg.no = i ∧
        line.depth = above.depth + 1 ∧ ∀ l ∈ mid, above.depth < l.depth

/-- A line is printed once exactly when no later one has its id and its parents end. -/
theorem shown_once {lines : List Line}
    (nodes : lines.map Line.node = Forest.listing (parentIn (window batch).msgs)
      (window batch).order (window batch).order.length)
    (latest : ∀ l ∈ lines, ∃ e, lastOf l.id batch.zipIdx = some (e, l.msg.no))
    {i : Nat} {e : LogEvent} {k : String} (at_ : batch[i]? = some e) (own : key e = some k) :
    lines.countP (·.msg.no = i) = 1 ↔ lastOf k batch.zipIdx = some (e, i) ∧
      Forest.Rooted (parentIn (window batch).msgs) k := by
  obtain ⟨once, known⟩ := window_order batch
  have closed := parentIn_closed known
  have ids : lines.map (·.id) = (Forest.listing (parentIn (window batch).msgs)
      (window batch).order (window batch).order.length).map Prod.snd := by
    rw [← nodes, List.map_map]
    rfl
  have listed := Forest.mem_listing (y := k) closed
  rw [← ids] at listed
  -- A line is of this event exactly when it has its id, if the event is the last with it.
  have ofEvent : ∀ l ∈ lines, l.msg.no = i → lastOf k batch.zipIdx = some (e, i) ∧ l.id = k := by
    intro l there same
    obtain ⟨e', last⟩ := latest l there
    rw [same] at last
    obtain ⟨member, own'⟩ := lastOf_some last
    rw [List.mk_mem_zipIdx_iff_getElem?, at_] at member
    cases member
    obtain rfl : k = l.id := Option.some.inj (own.symm.trans own')
    exact ⟨last, rfl⟩
  constructor
  · intro one
    obtain ⟨l, there, same⟩ := List.countP_pos_iff.mp (by rw [one]; exact Nat.one_pos)
    obtain ⟨last, id_⟩ := ofEvent l there (by simpa using same)
    exact ⟨last, (listed.mp (id_ ▸ List.mem_map_of_mem there)).2⟩
  · rintro ⟨last, rooted⟩
    have member : k ∈ (window batch).order :=
      (known k).mpr (mem_window.mpr (mem_keys.mpr ⟨i, e, at_, own⟩))
    have counts : lines.countP (·.msg.no = i) = (lines.map (·.id)).count k := by
      rw [List.count, List.countP_map]
      refine List.countP_congr fun l there => ?_
      simp only [decide_eq_true_eq, Function.comp_apply, beq_iff_eq]
      constructor
      · exact fun same => (ofEvent l there same).2
      · intro id_
        obtain ⟨e', last'⟩ := latest l there
        rw [id_, last] at last'
        exact (Prod.mk.inj (Option.some.inj last')).2.symm
    rw [counts]
    refine List.count_eq_one_of_mem ?_ (listed.mpr ⟨member, rooted⟩)
    rw [ids]
    exact Forest.listing_nodup closed once

/-- Nodes that stand under one another are lines that do. -/
theorem under_lines {lines : List Line} {p k : String}
    (under : Forest.Under (lines.map Line.node) p k) : ∃ before above mid line after,
      lines = before ++ above :: mid ++ line :: after ∧ above.id = p ∧ line.id = k ∧
        line.depth = above.depth + 1 ∧ ∀ l ∈ mid, above.depth < l.depth := by
  obtain ⟨before, mid, after, d, whole, deeper⟩ := under
  obtain ⟨front, rest, rfl, front_, rest_⟩ := List.map_eq_append_iff.mp whole
  obtain ⟨line, last, rfl, line_, -⟩ := List.map_eq_cons_iff.mp rest_
  obtain ⟨first, upper, rfl, -, upper_⟩ := List.map_eq_append_iff.mp front_
  obtain ⟨above, between, rfl, above_, between_⟩ := List.map_eq_cons_iff.mp upper_
  obtain ⟨depth, up⟩ := Prod.mk.inj above_
  obtain ⟨depth', down⟩ := Prod.mk.inj line_
  refine ⟨first, above, between, line, last, rfl, up, down, by rw [depth', depth], ?_⟩
  intro l there
  rw [depth]
  exact deeper l.node (by rw [← between_]; exact List.mem_map_of_mem there)

/-- Whatever a batch holds, the walk ends; it shows the whole conversation exactly when no two
lines have one id and no line answers itself, straight or by others. -/
theorem tree_shows (batch : List LogEvent) : (∃ lines, Prints batch lines) ∧
    ∀ lines, Prints batch lines → (ShowsAll batch lines ↔ (keys batch).Nodup ∧
      ∀ k ∈ keys batch, ∀ n, Forest.climb (parentOf batch) (n + 1) k ≠ some k) := by
  obtain ⟨printed, prints, nodes, latest⟩ := logTree_prints batch
  obtain ⟨-, known⟩ := window_order batch
  have closed := parentIn_closed known
  have members : ∀ k, k ∈ (window batch).order ↔ k ∈ keys batch :=
    fun k => (known k).trans mem_window
  refine ⟨⟨printed, prints⟩, fun lines prints' => ?_⟩
  obtain rfl := prints.unique prints'
  constructor
  -- All shown: each is the last with its id and climbs out, so that nobody is above itself.
  · rintro ⟨each, -⟩
    have all : ∀ (i : Nat) (e : LogEvent) (k : String), batch[i]? = some e → key e = some k →
        lastOf k batch.zipIdx = some (e, i) ∧ Forest.Rooted (parentIn (window batch).msgs) k := by
      intro i e k at_ own
      exact (shown_once nodes latest at_ own).mp (each i e at_ (by rw [own]; rfl))
    have once : (keys batch).Nodup :=
      keys_nodup_iff.mpr fun i e k at_ own => (all i e k at_ own).1
    refine ⟨once, ?_⟩
    have rooted : ∀ k ∈ (window batch).order, Forest.Rooted (parentIn (window batch).msgs) k := by
      intro k member
      obtain ⟨i, e, at_, own⟩ := mem_keys.mp ((members k).mp member)
      exact (all i e k at_ own).2
    have acyclic := (Forest.rooted_iff_acyclic closed).mp rooted
    rw [parentIn_eq once] at acyclic
    exact fun k member => acyclic k ((members k).mpr member)
  -- Nobody above itself: all climb out, and the listing has each once and under its parent.
  · rintro ⟨once, acyclic⟩
    rw [← parentIn_eq once] at acyclic
    have rooted := (Forest.rooted_iff_acyclic closed).mpr
      fun k member => acyclic k ((members k).mp member)
    have last := keys_nodup_iff.mp once
    constructor
    · intro i e at_ spoken
      obtain ⟨k, own⟩ := Option.isSome_iff_exists.mp spoken
      have member := (members k).mpr (mem_keys.mpr ⟨i, e, at_, own⟩)
      exact (shown_once nodes latest at_ own).mpr ⟨last i e k at_ own, rooted k member⟩
    · intro i e p at_ parent held
      obtain ⟨k, own⟩ := Option.isSome_iff_exists.mp (answers_speaks parent)
      have member := (members k).mpr (mem_keys.mpr ⟨i, e, at_, own⟩)
      have hangs : parentIn (window batch).msgs k = some p := by
        rw [parentIn_eq once, parentOf_eq once at_ own, parent]
        simp [held]
      obtain ⟨before, above, mid, line, after, whole, up, down, deeper, between⟩ :=
        under_lines (nodes ▸ Forest.listing_under closed member (rooted k member) hangs)
      refine ⟨before, above, mid, line, after, whole, up, ?_, deeper, between⟩
      obtain ⟨e', last'⟩ := latest line (by rw [whole]; simp)
      rw [down, last i e k at_ own] at last'
      exact (Prod.mk.inj (Option.some.inj last')).2.symm

/-- Of two `said` in one block only the later is printed, and a message that answers itself not at
all. -/
theorem tree_shows_lost :
    (∃ lines, Prints [⟨5, none, .speech none "ada" "litter" "Hello." none []⟩,
        ⟨5, none, .speech none "bob" "litter" "Bye." none []⟩] lines ∧
      ¬ ShowsAll [⟨5, none, .speech none "ada" "litter" "Hello." none []⟩,
        ⟨5, none, .speech none "bob" "litter" "Bye." none []⟩] lines) ∧
    ∃ lines, Prints [⟨5, none, .speech (some "0000000a") "ada" "litter" "Me." (some "0000000a") []⟩]
        lines ∧
      ¬ ShowsAll [⟨5, none, .speech (some "0000000a") "ada" "litter" "Me." (some "0000000a") []⟩]
        lines := by
  constructor
  · refine ⟨[⟨"", "", "b5", "bob", "litter", "Bye.", none, [], none, [], 1⟩],
      ⟨2, [], by decide +kernel⟩, ?_⟩
    intro shows
    have first := shows.1 0 _ rfl rfl
    cases first
  · refine ⟨[], ⟨2, [], by decide +kernel⟩, ?_⟩
    intro shows
    have first := shows.1 0 _ rfl rfl
    cases first

end

end LogTree

end AkumaMiot

import Mathlib.Data.List.Dedup
import AkumaMiot.Node.Waiting

/-!
# Who makes room in the mempool

The mempool is a map and a queue of hashes. An entry leaves the map in many places, and its hash
stays in the queue. So the queue is what came in, stale hashes included, and a new entry meets a
full queue before the mempool is full.
-/
namespace AkumaMiot

variable {A B H : Type}

/-! ## A queue of keys -/

theorem dedup_filter [DecidableEq H] (p : H → Bool) (l : List H) :
    (l.filter p).dedup = l.dedup.filter p := by
  induction l with
  | nil => rfl
  | cons a l ih =>
    by_cases later : a ∈ l
    · rw [List.dedup_cons_of_mem later, List.filter_cons]
      split
      next stays =>
        rw [List.dedup_cons_of_mem (List.mem_filter.mpr ⟨later, stays⟩), ih]
      · exact ih
    · rw [List.dedup_cons_of_notMem later, List.filter_cons, List.filter_cons]
      split
      · rw [List.dedup_cons_of_notMem fun member => later (List.mem_filter.mp member).1, ih]
      · exact ih

/-- Only the last place of a key counts. -/
theorem dedup_concat [DecidableEq H] (l : List H) (a : H) :
    (l ++ [a]).dedup = (l.dedup.filter (· ≠ a)) ++ [a] := by
  induction l with
  | nil => rfl
  | cons b l ih =>
    rw [List.cons_append]
    by_cases later : b ∈ l
    · rw [List.dedup_cons_of_mem (List.mem_append_left _ later), List.dedup_cons_of_mem later, ih]
    · rw [List.dedup_cons_of_notMem later, List.filter_cons]
      by_cases same : b = a
      · rw [List.dedup_cons_of_mem (by simp [same]), ih]
        simp [same]
      · rw [List.dedup_cons_of_notMem (by simp [later, same]), ih]
        simp [same]

/-! ## What happens to a mempool -/

inductive MempoolEvent (A B H : Type)
  | insert (hash : H) (bytes : B) (now : Nat)
  | expire (now : Nat)
  /-- A poller took these over. -/
  | carried (hashes : List H)
  /-- A turn of a round ends: forwarded, left to who carries it, or applied here. -/
  | turned (e : Queued B H) (taken : Bool) (route : WriteRoute)
  /-- A peer says whether it sealed. -/
  | answered (hash : H) (answer : TxState)
  /-- It came in again where the primary is. -/
  | accept (bytes : B)
  /-- Whatever else the node did meanwhile. -/
  | elsewhere (n : Node A B H)

namespace Node

variable [DecidableEq A] [DecidableEq H]

def mempoolStep (env : Env A B H) (n : Node A B H) : MempoolEvent A B H → Node A B H
  | .insert hash bytes now => n.mempoolInsert hash bytes now
  | .expire now => n.mempoolExpire now
  | .carried hashes => n.mempoolCarried hashes
  | .turned e taken route => n.mempoolTurn env e taken route
  | .answered hash answer => n.mempoolAnswered hash answer
  | .accept bytes => n.acceptHere env bytes
  | .elsewhere n' => { n' with mempool := n.mempool, mempoolOrder := n.mempoolOrder }

/-- Entries may have left the map, and the queue does not know. -/
structure Sheds (n n' : Node A B H) : Prop where
  order : n'.mempoolOrder = n.mempoolOrder
  mempool : ∀ hash ∈ n'.mempool, hash ∈ n.mempool

omit [DecidableEq A] [DecidableEq H] in
theorem Sheds.refl (n : Node A B H) : n.Sheds n := ⟨rfl, fun _ => id⟩

omit [DecidableEq A] [DecidableEq H] in
theorem Sheds.trans {a b c : Node A B H} (first : a.Sheds b) (second : b.Sheds c) : a.Sheds c :=
  ⟨second.order.trans first.order, fun hash there => first.mempool hash (second.mempool hash there)⟩

omit [DecidableEq A] in
theorem mempoolRemove_sheds (n : Node A B H) (hash : H) : n.Sheds (n.mempoolRemove hash) :=
  ⟨rfl, fun _ there => (AList.mem_erase.mp there).2⟩

omit [DecidableEq A] in
theorem setTxStatus_order (n : Node A B H) (hash : H) (st : TxState) :
    (n.setTxStatus hash st).mempoolOrder = n.mempoolOrder := by
  rw [setTxStatus_eq]

omit [DecidableEq A] in
theorem setTxStatus_sheds (n : Node A B H) (hash : H) (st : TxState) :
    n.Sheds (n.setTxStatus hash st) :=
  ⟨setTxStatus_order n hash st, fun _ there => by rwa [setTxStatus_mempool] at there⟩

omit [DecidableEq H] in
theorem submit_sheds (n : Node A B H) (env : Env A B H) (uxt : UncheckedExtrinsic A) :
    n.Sheds (n.submit env uxt).2 := by
  refine ⟨?_, fun _ there => by rwa [(n.submit_queue env uxt).1] at there⟩
  unfold submit
  cases n.ext.applyExtrinsic env uxt with
  | mk r ext =>
    simp only
    rw [drainAbsorb_eq]
    split <;> rfl

theorem mempoolHere_sheds (n : Node A B H) (env : Env A B H) (hash : H) (bytes : B) :
    n.Sheds (n.mempoolHere env hash bytes) := by
  unfold mempoolHere
  split
  · exact mempoolRemove_sheds n hash
  next uxt _ =>
    have submits := n.submit_sheds env uxt
    -- Applied or refused, it is not tried again.
    cases submitted : n.submit env uxt with
    | mk accepted n' =>
      rw [submitted] at submits
      cases accepted with
      | true =>
        exact (submits.trans (setTxStatus_sheds n' hash _)).trans (mempoolRemove_sheds _ hash)
      | false => exact submits.trans (mempoolRemove_sheds n' hash)

theorem mempoolTurn_sheds (n : Node A B H) (env : Env A B H) (e : Queued B H) (taken : Bool)
    (route : WriteRoute) : n.Sheds (n.mempoolTurn env e taken route) := by
  cases route with
  | nobody leader => exact .refl n
  | here =>
    simp only [mempoolTurn]
    split
    · exact mempoolRemove_sheds n e.hash
    · exact mempoolHere_sheds n env e.hash e.bytes
  | primary p =>
    simp only [mempoolTurn]
    split
    · exact mempoolRemove_sheds n e.hash
    · exact .refl n

theorem acceptHere_sheds (n : Node A B H) (env : Env A B H) (bytes : B) :
    n.Sheds (n.acceptHere env bytes) := by
  unfold acceptHere
  split
  · exact .refl n
  next uxt _ =>
    split
    · exact .refl n
    · have submits := n.submit_sheds env uxt
      cases submitted : n.submit env uxt with
      | mk accepted n' =>
        rw [submitted] at submits
        cases accepted with
        | true => exact (submits.trans (mempoolRemove_sheds n' _)).trans (setTxStatus_sheds _ _ _)
        | false => exact submits

omit [DecidableEq A] in
theorem mempoolCarried_sheds (n : Node A B H) (hashes : List H) :
    n.Sheds (n.mempoolCarried hashes) := by
  refine ⟨rfl, fun hash there => ?_⟩
  unfold mempoolCarried at there
  generalize n.mempool = pool at there
  induction hashes generalizing pool with
  | nil => exact there
  | cons other hashes ih =>
    have kept := ih _ there
    dsimp only at kept
    split at kept
    next e found =>
      rcases (AList.mem_insert _).mp kept with rfl | inside
      · exact AList.lookup_isSome.mp (by rw [found]; rfl)
      · exact inside
    · exact kept

omit [DecidableEq A] in
theorem mempoolExpire_sheds (n : Node A B H) (now : Nat) : n.Sheds (n.mempoolExpire now) := by
  refine ⟨rfl, fun hash there => ?_⟩
  rw [mempoolExpire, ← AList.lookup_isSome, HashMap.lookup_retain] at there
  obtain ⟨e, found⟩ := Option.isSome_iff_exists.mp there
  exact AList.lookup_isSome.mp (by rw [(Option.filter_eq_some_iff.mp found).1]; rfl)

omit [DecidableEq A] in
theorem mempoolAnswered_sheds (n : Node A B H) (hash : H) (answer : TxState) :
    n.Sheds (n.mempoolAnswered hash answer) := by
  cases answer with
  | pending => exact .refl n
  | applied height => exact setTxStatus_sheds n hash (.applied height)
  | «sealed» height => exact (setTxStatus_sheds n hash _).trans (mempoolRemove_sheds _ hash)

/-- Nothing but an insertion tells the queue. -/
theorem mempoolStep_sheds (env : Env A B H) (n : Node A B H) {e : MempoolEvent A B H}
    (removes : ∀ hash bytes now, e ≠ .insert hash bytes now) : n.Sheds (n.mempoolStep env e) := by
  cases e with
  | insert hash bytes now => exact absurd rfl (removes hash bytes now)
  | expire now => exact mempoolExpire_sheds n now
  | carried hashes => exact mempoolCarried_sheds n hashes
  | turned e taken route => exact mempoolTurn_sheds n env e taken route
  | answered hash answer => exact mempoolAnswered_sheds n hash answer
  | accept bytes => exact acceptHere_sheds n env bytes
  | elsewhere n' => exact ⟨rfl, fun _ => id⟩

omit [DecidableEq A] in
/-- An insertion of a hash that waits already does nothing. -/
theorem mempoolInsert_again {n : Node A B H} {hash : H} (waits : hash ∈ n.mempool) (bytes : B)
    (now : Nat) : n.mempoolInsert hash bytes now = n := by
  rw [mempoolInsert, if_pos waits]

omit [DecidableEq A] in
/-- The queue after a new entry: its front is gone if it was full. -/
theorem mempoolInsert_order {n : Node A B H} {hash : H} (fresh : hash ∉ n.mempool) (bytes : B)
    (now : Nat) : (n.mempoolInsert hash bytes now).mempoolOrder =
      (if n.mempoolOrder.length ≥ mempoolCap then n.mempoolOrder.tail else n.mempoolOrder) ++
        [hash] := by
  unfold mempoolInsert
  rw [if_neg fresh, setTxStatus_order]
  dsimp only
  congr 1
  split
  · cases order : n.mempoolOrder with
    | nil => exact order
    | cons old rest => rfl
  · rfl

omit [DecidableEq A] [DecidableEq H] in
/-- What gives way to a new entry was the front of the queue. -/
theorem order_popped (n : Node A B H) : n.mempoolOrder = n.entryEvicted.toList ++
    (if n.mempoolOrder.length ≥ mempoolCap then n.mempoolOrder.tail else n.mempoolOrder) := by
  unfold entryEvicted
  split
  · cases n.mempoolOrder <;> rfl
  · rfl

end Node

/-! ## Who came first -/

namespace Mempool

/-- The node, and the live hashes, the one inserted longest ago first. -/
abbrev Line (A B H : Type) : Type := Node A B H × List H

variable [DecidableEq A] [DecidableEq H]

/-- Who comes in stands last; who leaves the mempool leaves the line. -/
def arrivals (n : Node A B H) : MempoolEvent A B H → List H
  | .insert hash _ _ => if hash ∈ n.mempool then [] else [hash]
  | _ => []

def next (env : Env A B H) (s : Line A B H) (e : MempoolEvent A B H) : Line A B H :=
  let n := s.1.mempoolStep env e
  -- Who leaves and comes in again stands last.
  (n, (s.2.filter (· ∈ n.mempool)) ++ arrivals s.1 e)

/-- Whom an insertion puts out stood first, in a mempool at its cap. -/
def EvictsOldest (env : Env A B H) (s : Line A B H) (e : MempoolEvent A B H) : Prop :=
  ∀ hash bytes now, e = .insert hash bytes now →
    ∀ old ∈ s.1.mempool, old ∉ (s.1.mempoolStep env e).mempool →
      s.1.mempool.keys.length = mempoolCap ∧ s.2.head? = some old

/-- A queued hash is stale that is not in the mempool, or stands in the queue again. A new entry
that meets a full queue with a live hash in front finds none that is stale. -/
def Unstale (n : Node A B H) (e : MempoolEvent A B H) : Prop :=
  ∀ hash bytes now, e = .insert hash bytes now → hash ∉ n.mempool →
    n.mempoolOrder.length ≥ mempoolCap → (∃ front ∈ n.mempool, n.mempoolOrder.head? = some front) →
      n.mempoolOrder.Nodup ∧ ∀ h ∈ n.mempoolOrder, h ∈ n.mempool

/-- The queue is bounded and knows every entry, and the line is what is live of it. -/
structure Inv (s : Line A B H) : Prop where
  bounded : s.1.mempoolOrder.length ≤ mempoolCap
  queued : ∀ h ∈ s.1.mempool, h ∈ s.1.mempoolOrder
  line : s.2 = (s.1.mempoolOrder.filter (· ∈ s.1.mempool)).dedup

variable {s : Line A B H} {env : Env A B H}

omit [DecidableEq A] in
theorem Inv.length (inv : Inv s) : s.1.mempool.keys.length = s.2.length := by
  refine (List.perm_of_nodup_nodup_toFinset_eq s.1.mempool.nodupKeys ?_ ?_).length_eq
  · rw [inv.line]
    exact List.nodup_dedup _
  · ext h
    rw [inv.line, List.mem_toFinset, List.mem_toFinset, List.mem_dedup, List.mem_filter,
      decide_eq_true_eq]
    show h ∈ s.1.mempool ↔ _
    exact ⟨fun there => ⟨inv.queued h there, there⟩, And.right⟩

theorem Inv.sheds (inv : Inv s) {e : MempoolEvent A B H}
    (removes : ∀ hash bytes now, e ≠ .insert hash bytes now) : Inv (next env s e) := by
  have sheds := s.1.mempoolStep_sheds env removes
  have nobody : arrivals s.1 e = [] := by
    cases e with
    | insert hash bytes now => exact absurd rfl (removes hash bytes now)
    | _ => rfl
  refine ⟨?_, ?_, ?_⟩
  · exact sheds.order ▸ inv.bounded
  · intro h there
    show h ∈ (s.1.mempoolStep env e).mempoolOrder
    rw [sheds.order]
    exact inv.queued h (sheds.mempool h there)
  · show s.2.filter _ ++ arrivals s.1 e = _
    rw [nobody, List.append_nil, inv.line, ← dedup_filter, List.filter_filter]
    show _ = ((s.1.mempoolStep env e).mempoolOrder.filter _).dedup
    rw [sheds.order]
    congr 1
    refine List.filter_congr fun h _ => ?_
    have was := sheds.mempool h
    by_cases there : h ∈ (s.1.mempoolStep env e).mempool
    · simp [next, there, was there]
    · simp [next, there]

theorem Inv.insert (inv : Inv s) {hash : H} (fresh : hash ∉ s.1.mempool) (bytes : B) (now : Nat) :
    Inv (next env s (.insert hash bytes now)) := by
  have reads := fun h => (Node.mempoolInsert_reads fresh bytes now h).1
  have order := Node.mempoolInsert_order fresh bytes now
  have popped := s.1.order_popped
  have room : (if s.1.mempoolOrder.length ≥ mempoolCap then s.1.mempoolOrder.tail
      else s.1.mempoolOrder).length < mempoolCap := by
    have bounded := inv.bounded
    have cap : 0 < mempoolCap := by decide
    split
    · rw [List.length_tail]
      omega
    · omega
  generalize (if s.1.mempoolOrder.length ≥ mempoolCap then s.1.mempoolOrder.tail
    else s.1.mempoolOrder) = rest at order popped room
  refine ⟨?_, ?_, ?_⟩
  · show (s.1.mempoolInsert hash bytes now).mempoolOrder.length ≤ mempoolCap
    rw [order, List.length_append]
    exact room
  -- Who is live and not put out is behind the front.
  · intro h there
    show h ∈ (s.1.mempoolInsert hash bytes now).mempoolOrder
    rw [order, List.mem_append, List.mem_singleton]
    rcases (reads h).mp there with same | ⟨live, stays⟩
    · exact .inr same
    · have stood := inv.queued h live
      rw [popped, List.mem_append, Option.mem_toList] at stood
      exact .inl (stood.resolve_left stays)
  · show s.2.filter (· ∈ (s.1.mempoolInsert hash bytes now).mempool) ++
      (if hash ∈ s.1.mempool then [] else [hash]) =
      ((s.1.mempoolInsert hash bytes now).mempoolOrder.filter
        (· ∈ (s.1.mempoolInsert hash bytes now).mempool)).dedup
    rw [if_neg fresh, order, List.filter_append]
    have last : [hash].filter (· ∈ (s.1.mempoolInsert hash bytes now).mempool) = [hash] := by
      simp [reads]
    rw [last, dedup_concat, inv.line, ← dedup_filter, ← dedup_filter, List.filter_filter,
      List.filter_filter]
    -- On both sides stands what is live and stays.
    have stay : ∀ h, (decide (h ∈ (s.1.mempoolInsert hash bytes now).mempool) &&
        decide (h ∈ s.1.mempool)) = (decide (h ∈ s.1.mempool) &&
          decide (s.1.entryEvicted ≠ some h)) := by
      intro h
      simp only [reads]
      grind
    have stay' : ∀ h, (decide (h ≠ hash) &&
        decide (h ∈ (s.1.mempoolInsert hash bytes now).mempool)) = (decide (h ∈ s.1.mempool) &&
          decide (s.1.entryEvicted ≠ some h)) := by
      intro h
      simp only [reads]
      grind
    simp only [stay, stay']
    rw [popped, List.filter_append]
    have gone : (s.1.entryEvicted.toList.filter fun h => decide (h ∈ s.1.mempool) &&
        decide (s.1.entryEvicted ≠ some h)) = [] := by
      cases s.1.entryEvicted <;> simp
    rw [gone, List.nil_append]

theorem Inv.next (inv : Inv s) (e : MempoolEvent A B H) : Inv (next env s e) := by
  by_cases inserts : ∃ hash bytes now, e = .insert hash bytes now
  · obtain ⟨hash, bytes, now, rfl⟩ := inserts
    by_cases waits : hash ∈ s.1.mempool
    -- It keeps the place it has.
    · have same : Mempool.next env s (.insert hash bytes now) =
          (s.1, s.2.filter (· ∈ s.1.mempool)) := by
        simp [Mempool.next, Node.mempoolStep, Node.mempoolInsert_again waits, arrivals, waits]
      rw [same]
      refine ⟨inv.bounded, inv.queued, ?_⟩
      simp only
      rw [inv.line, ← dedup_filter, List.filter_filter]
      simp
    · exact inv.insert waits bytes now
  · exact inv.sheds fun hash bytes now same => inserts ⟨hash, bytes, now, same⟩

omit [DecidableEq A] in
/-- Without a stale hash the queue is the line. -/
theorem Inv.unstale_iff (inv : Inv s) (full : s.1.mempoolOrder.length ≥ mempoolCap) :
    s.1.mempool.keys.length = mempoolCap ↔
      s.1.mempoolOrder.Nodup ∧ ∀ h ∈ s.1.mempoolOrder, h ∈ s.1.mempool := by
  have within : s.2.Sublist s.1.mempoolOrder := by
    rw [inv.line]
    exact (List.dedup_sublist _).trans List.filter_sublist
  constructor
  -- As many live ones as the queue is long leave no place for anything else.
  · intro live
    have same : s.2 = s.1.mempoolOrder := within.eq_of_length_le (by
      rw [← inv.length, live]
      exact inv.bounded)
    rw [← same, inv.line]
    refine ⟨List.nodup_dedup _, fun h member => ?_⟩
    simpa using (List.mem_filter.mp (List.mem_dedup.mp member)).2
  · rintro ⟨once, live⟩
    have same : s.2 = s.1.mempoolOrder := by
      rw [inv.line, List.filter_eq_self.mpr fun h member => by simpa using live h member,
        once.dedup]
    rw [inv.length, same]
    exact Nat.le_antisymm inv.bounded full

/-- One insertion puts out the oldest of a full mempool exactly when it meets no stale hash. -/
theorem evictsOldest_iff (inv : Inv s) (e : MempoolEvent A B H) :
    EvictsOldest env s e ↔ Unstale s.1 e := by
  by_cases inserts : ∃ hash bytes now, e = .insert hash bytes now
  swap
  · exact iff_of_true (fun hash bytes now same => absurd ⟨hash, bytes, now, same⟩ inserts)
      fun hash bytes now same => absurd ⟨hash, bytes, now, same⟩ inserts
  obtain ⟨hash, bytes, now, rfl⟩ := inserts
  have evicted : hash ∉ s.1.mempool → ∀ old ∈ s.1.mempool,
      (old ∉ (s.1.mempoolInsert hash bytes now).mempool ↔ s.1.mempoolOrder.length ≥ mempoolCap ∧
        s.1.mempoolOrder.head? = some old) := by
    intro fresh old live
    have other : old ≠ hash := fun same => fresh (same ▸ live)
    rw [(Node.mempoolInsert_reads fresh bytes now old).1, Node.entryEvicted]
    simp [other, live]
  constructor
  -- A full queue puts out its front, so if that was right the mempool was full.
  · rintro evicts _ _ _ ⟨⟩ fresh full ⟨front, live, first⟩
    have out := (evicted fresh front live).mpr ⟨full, first⟩
    exact (inv.unstale_iff full).mp (evicts hash bytes now rfl front live out).1
  · rintro unstale _ _ _ ⟨⟩ old live out
    by_cases waits : hash ∈ s.1.mempool
    · rw [Node.mempoolStep, Node.mempoolInsert_again waits] at out
      exact absurd live out
    · obtain ⟨full, first⟩ := (evicted waits old live).mp out
      have stands := unstale hash bytes now rfl waits full ⟨old, live, first⟩
      have same : s.2 = s.1.mempoolOrder := by
        rw [inv.line, List.filter_eq_self.mpr fun h member => by simpa using stands.2 h member,
          stands.1.dedup]
      exact ⟨(inv.unstale_iff full).mpr stands, by rw [same, first]⟩

/-- A node just started: nothing waits. -/
def start (env : Env A B H) (store : Store B B) (mesh : Mesh) : Line A B H :=
  (.started env store mesh, [])

theorem start_inv (env : Env A B H) (store : Store B B) (mesh : Mesh) :
    Inv (start env store mesh) := by
  refine ⟨Nat.zero_le _, fun h there => ?_, rfl⟩
  simp [start, Node.started] at there

/-- Whatever comes into the mempool and leaves it: every entry put out to make room was the oldest
of a full mempool exactly when no insertion meets a stale hash in a full queue with a live front. -/
theorem evictions_run (env : Env A B H) (store : Store B B) (mesh : Mesh)
    (events : List (MempoolEvent A B H)) :
    Machine.Meets (next env) (EvictsOldest env) (start env store mesh) events ↔
      Machine.Meets (next env) (fun s e => Unstale s.1 e) (start env store mesh) events := by
  exact Machine.meets_congr Inv (fun s e inv => inv.next e)
    (fun s e inv => evictsOldest_iff inv e) (start_inv env store mesh)

/-! ## A crowd that was too late -/

/-- All that waits came in at 0, in this order. -/
structure Crowd (hashes : List H) (n : Node A H H) : Prop where
  order : n.mempoolOrder = hashes
  since : ∀ h e, n.mempool.lookup h = some e → h ∈ hashes ∧ e.insertedAt = 0

theorem Crowd.join {env : Env A H H} {s : Line A H H} {here more : List H}
    (crowd : Crowd here s.1) (once : (here ++ more).Nodup)
    (room : (here ++ more).length ≤ mempoolCap) : Crowd (here ++ more)
      (Machine.run (next env) s (more.map fun h => .insert h h 0)).1 := by
  induction more generalizing here s with
  | nil => simpa using crowd
  | cons h more ih =>
    -- What was not in the pool before is let in: there is room, so nothing is evicted for it.
    have fresh : h ∉ s.1.mempool := by
      intro there
      obtain ⟨e, found⟩ := Option.isSome_iff_exists.mp (AList.lookup_isSome.mpr there)
      have apart := List.disjoint_of_nodup_append once (crowd.since h e found).1
      exact apart (by simp)
    have short : ¬ here.length ≥ mempoolCap := by
      simp only [List.length_append, List.length_cons] at room
      omega
    rw [List.map_cons, Machine.run_cons, List.append_cons] at *
    refine ih ⟨?_, ?_⟩ once room
    · show (s.1.mempoolInsert h h 0).mempoolOrder = _
      rw [Node.mempoolInsert_order fresh, crowd.order, if_neg short]
    · intro k e found
      have found : (s.1.mempoolInsert h h 0).mempool.lookup k = some e := found
      rw [Node.mempoolInsert, if_neg fresh, Node.setTxStatus_mempool] at found
      simp only [crowd.order, if_neg short] at found
      by_cases same : k = h
      · subst same
        rw [AList.lookup_insert] at found
        cases found
        exact ⟨by simp, rfl⟩
      · rw [AList.lookup_insert_ne same] at found
        exact ⟨List.mem_append_left _ (crowd.since k e found).1, (crowd.since k e found).2⟩

/-- They expire, and the first is tried again: its hash stands first in the queue, stale. -/
theorem Crowd.retried {env : Env A H H} {s : Line A H H} {first : H} {rest : List H}
    (crowd : Crowd (first :: rest) s.1) (many : (first :: rest).length + 1 = mempoolCap)
    {other : H} (new : other ≠ first) :
    ¬ Unstale (Machine.run (next env) s [.expire 900000, .insert first first 900001]).1
      (.insert other other 900002) := by
  have nobody : ∀ h, h ∉ (s.1.mempoolExpire 900000).mempool := by
    intro h there
    rw [← AList.lookup_isSome, Node.mempoolExpire, HashMap.lookup_retain] at there
    obtain ⟨e, found⟩ := Option.isSome_iff_exists.mp there
    obtain ⟨found, young⟩ := Option.filter_eq_some_iff.mp found
    simp [Node.keeps, (crowd.since h e found).2, mempoolTtlMs] at young
  have reads := fun h => (Node.mempoolInsert_reads (nobody first) first 900001 h).1
  have order := Node.mempoolInsert_order (nobody first) first 900001
  have queue : (s.1.mempoolExpire 900000).mempoolOrder = first :: rest := crowd.order
  rw [queue, if_neg (by omega)] at order
  show ¬ Unstale ((s.1.mempoolExpire 900000).mempoolInsert first first 900001) _
  generalize (s.1.mempoolExpire 900000).mempoolInsert first first 900001 = n at reads order
  intro unstale
  have fresh : other ∉ n.mempool := fun there =>
    ((reads other).mp there).elim new fun old => nobody other old.1
  have full : n.mempoolOrder.length ≥ mempoolCap := by
    rw [order, List.length_append, List.length_singleton, many]
  have front : n.mempoolOrder.head? = some first := by
    rw [order]
    rfl
  have stands := unstale other other 900002 rfl fresh full
    ⟨first, (reads first).mpr (.inl rfl), front⟩
  rw [order] at stands
  exact List.disjoint_of_nodup_append stands.1 (by simp) (List.mem_singleton_self first)

def write (i : Nat) : Plain Nat := .body [] (some i)

/-- 511 of them. -/
def early : List (Plain Nat) := write 0 :: (List.range 510).map fun i => write (i + 1)

/-- No primary for a quarter of an hour: 511 writes expire, and the first is tried again. -/
def retried : List (MempoolEvent Nat (Plain Nat) (Plain Nat)) :=
  early.map (fun h => .insert h h 0) ++ [.expire 900000, .insert (write 0) (write 0) 900001]

theorem early_once : early.Nodup := by
  have distinct : Function.Injective fun i => write (i + 1) := by
    intro i j same
    cases same
    rfl
  refine List.nodup_cons.mpr ⟨fun member => ?_, List.nodup_range.map distinct⟩
  obtain ⟨i, _, same⟩ := List.mem_map.mp member
  cases same

theorem early_length : early.length = 511 := by
  rw [early, List.length_cons, List.length_map, List.length_range]

/-- The next write puts it out, a millisecond later, although it is the only one that waits. -/
theorem evictions_run_retried : ¬ Machine.Meets (next soloEnv) (EvictsOldest soloEnv)
    (start soloEnv (.openDb Store.emptyDb) soloMesh)
    (retried ++ [.insert (write 511) (write 511) 900002]) := by
  intro meets
  have nobody : Crowd [] (start soloEnv (.openDb Store.emptyDb) soloMesh).1 := by
    refine ⟨rfl, fun h e found => ?_⟩
    simp [start, Node.started] at found
  have crowd : Crowd ([] ++ early) (Machine.run (next soloEnv) _ _).1 :=
    nobody.join early_once (by simp [early_length, mempoolCap])
  have inv : Inv (Machine.run (next soloEnv) (start soloEnv (.openDb Store.emptyDb) soloMesh)
      retried) := Machine.run_keeps Inv (fun s e inv => inv.next e) (start_inv ..)
  have unstale := (evictsOldest_iff inv _).mp (Machine.meets_append.mp meets).2.1
  rw [retried, Machine.run_append] at unstale
  have new : write 511 ≠ write 0 := by simp [write]
  exact crowd.retried (by simp [mempoolCap]) new unstale

end Mempool

end AkumaMiot

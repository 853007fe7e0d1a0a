import Mathlib.Data.Finset.Card
import Mathlib.Data.List.Nodup

/-!
# Forests made of parent links

Finitely many nodes, each of which may name one other as its parent. Where no node is above
itself, the nodes without a parent are the roots of trees that hold every node once, and a walk
down from them lists each node under its parent.
-/
namespace Forest

variable {α : Type} (up : α → Option α)

/-! ## Climbing -/

/-- Where that many steps up lead. -/
def climb : Nat → α → Option α
  | 0, x => some x
  | n + 1, x => (climb n x).bind up

/-- Climbing ends. -/
def Rooted (x : α) : Prop := ∃ n, climb up n x = none

variable {up} {x y : α}

theorem climb_add (m n : Nat) (x : α) :
    climb up (m + n) x = (climb up m x).bind (climb up n) := by
  induction n with
  | zero => cases climb up m x <;> simp [climb]
  | succ n ih =>
    rw [← Nat.add_assoc, climb, ih]
    cases climb up m x <;> rfl

theorem climb_succ (n : Nat) (x : α) : climb up (n + 1) x = (up x).bind (climb up n) := by
  rw [Nat.add_comm, climb_add]
  rfl

theorem climb_none {n : Nat} (ended : climb up n x = none) (m : Nat) :
    climb up (n + m) x = none := by
  rw [climb_add, ended]
  rfl

theorem Rooted.climb (rooted : Rooted up x) {n : Nat} (leads : Forest.climb up n x = some y) :
    Rooted up y := by
  obtain ⟨m, ended⟩ := rooted
  refine ⟨m, ?_⟩
  have further := climb_none ended n
  rwa [Nat.add_comm, climb_add, leads] at further

/-- Who is above itself never comes out. -/
theorem not_rooted {n : Nat} (cycle : climb up (n + 1) x = some x) : ¬ Rooted up x := by
  rintro ⟨m, ended⟩
  -- Going round as often as the climb is long, one stays inside.
  have round : ∀ k, climb up ((n + 1) * k) x = some x := by
    intro k
    induction k with
    | zero => rfl
    | succ k ih => rw [Nat.mul_succ, climb_add, ih, Option.bind_some, cycle]
  obtain ⟨d, far⟩ := Nat.exists_eq_add_of_le (Nat.le_mul_of_pos_left m (Nat.succ_pos n))
  have outside := climb_none ended d
  rw [← far, round] at outside
  cases outside

/-- Of two nodes above one, one is above the other. -/
theorem climb_meet {n m : Nat} {a b : α} (left : climb up n x = some a)
    (right : climb up m x = some b) :
    (∃ i, climb up i a = some b) ∨ ∃ i, climb up i b = some a := by
  rcases Nat.le_total n m with less | less
  · obtain ⟨i, rfl⟩ := Nat.exists_eq_add_of_le less
    rw [climb_add, left] at right
    exact .inl ⟨i, right⟩
  · obtain ⟨i, rfl⟩ := Nat.exists_eq_add_of_le less
    rw [climb_add, right] at left
    exact .inr ⟨i, left⟩

/-! ## Finitely many nodes -/

variable (up) in
/-- Every parent is a node. -/
def Closed (nodes : List α) : Prop := ∀ x ∈ nodes, ∀ p, up x = some p → p ∈ nodes

section

variable {nodes : List α} (closed : Closed up nodes)

include closed in
theorem climb_mem (member : x ∈ nodes) {n : Nat} (leads : climb up n x = some y) : y ∈ nodes := by
  induction n generalizing y with
  | zero => exact Option.some.inj leads ▸ member
  | succ n ih =>
    obtain ⟨z, before, step⟩ := Option.bind_eq_some_iff.mp leads
    exact closed z (ih before) y step

variable [DecidableEq α]

include closed in
/-- Whoever climbs further than there are nodes comes by one of them twice. -/
theorem climb_repeats (member : x ∈ nodes) (far : climb up nodes.length x ≠ none) :
    ∃ n k z, climb up n x = some z ∧ climb up (k + 1) z = some z := by
  have inside : ∀ i, i ≤ nodes.length → ∃ z ∈ nodes, climb up i x = some z := by
    intro i less
    cases here : climb up i x with
    | none =>
      obtain ⟨d, rest⟩ := Nat.exists_eq_add_of_le less
      exact absurd (rest ▸ climb_none here d) far
    | some z => exact ⟨z, climb_mem closed member here, rfl⟩
  -- More steps than nodes: two of them lead to the same.
  obtain ⟨i, left, j, right, apart, same⟩ :=
    Finset.exists_ne_map_eq_of_card_lt_of_maps_to (s := Finset.range (nodes.length + 1))
      (t := (nodes.map some).toFinset) (f := fun i => climb up i x)
      (by
        rw [Finset.card_range]
        exact Nat.lt_succ_of_le ((List.toFinset_card_le _).trans (by simp)))
      (fun i less => by
        obtain ⟨z, there, leads⟩ := inside i (Nat.lt_succ_iff.mp (Finset.mem_range.mp less))
        simp [leads, there])
  -- From the earlier of the two to the later is a way round.
  have ordered : ∀ i j, i < j → i < nodes.length + 1 → climb up i x = climb up j x →
      ∃ n k z, climb up n x = some z ∧ climb up (k + 1) z = some z := by
    intro i j less bound same
    obtain ⟨z, _, leads⟩ := inside i (Nat.lt_succ_iff.mp bound)
    obtain ⟨k, rfl⟩ := Nat.exists_eq_add_of_lt less
    refine ⟨i, k, z, leads, ?_⟩
    rw [Nat.add_assoc, climb_add, leads, Option.bind_some] at same
    exact same.symm
  rcases Nat.lt_or_gt_of_ne apart with less | more
  · exact ordered i j less (Finset.mem_range.mp left) same
  · exact ordered j i more (Finset.mem_range.mp right) same.symm

include closed in
theorem Rooted.height (rooted : Rooted up x) (member : x ∈ nodes) :
    Forest.climb up nodes.length x = none := by
  by_contra far
  obtain ⟨n, k, z, leads, cycle⟩ := climb_repeats closed member far
  exact not_rooted cycle (rooted.climb leads)

include closed in
/-- All climbs end where nobody is above itself. -/
theorem rooted_iff_acyclic : (∀ x ∈ nodes, Rooted up x) ↔
    ∀ x ∈ nodes, ∀ n, climb up (n + 1) x ≠ some x := by
  constructor
  · exact fun rooted x member n cycle => not_rooted cycle (rooted x member)
  · intro acyclic x member
    by_contra never
    obtain ⟨n, k, z, leads, cycle⟩ :=
      climb_repeats closed member fun ended => never ⟨_, ended⟩
    exact acyclic z (climb_mem closed member leads) k cycle

end

/-! ## Walking down -/

section

variable [DecidableEq α] (up) (nodes : List α)

def children (x : α) : List α := nodes.filter fun k => up k = some x

def roots : List α := nodes.filter fun x => up x = none

/-- A node and all below it, with their depths; as deep as there is fuel. -/
def preorder : Nat → Nat → α → List (Nat × α)
  | 0, _, _ => []
  | fuel + 1, d, x => (d, x) :: (children up nodes x).flatMap (preorder fuel (d + 1))

/-- The fuel lasts. -/
def Fits : Nat → α → Prop
  | 0, _ => False
  | fuel + 1, x => ∀ k ∈ children up nodes x, Fits fuel k

/-- All trees, one after the other. -/
def listing (fuel : Nat) : List (Nat × α) := (roots up nodes).flatMap (preorder up nodes fuel 0)

end

/-- In a list of nodes with their depths, `y` stands under `p`: one deeper, and between them is
only what is deeper than `p`. -/
def Under (lines : List (Nat × α)) (p y : α) : Prop :=
  ∃ before mid after d, lines = before ++ (d, p) :: mid ++ (d + 1, y) :: after ∧
    ∀ line ∈ mid, d < line.1

theorem Under.within {lines : List (Nat × α)} {p y : α} (under : Under lines p y)
    (left right : List (Nat × α)) : Under (left ++ lines ++ right) p y := by
  obtain ⟨before, mid, after, d, rfl, deeper⟩ := under
  exact ⟨left ++ before, mid, after ++ right, d, by simp, deeper⟩

section

variable [DecidableEq α] {nodes : List α} {fuel d : Nat}

theorem mem_children {k : α} : k ∈ children up nodes x ↔ k ∈ nodes ∧ up k = some x := by
  simp [children]

theorem preorder_deep {line : Nat × α} (member : line ∈ preorder up nodes fuel d x) :
    d ≤ line.1 := by
  induction fuel generalizing d x with
  | zero => cases member
  | succ fuel ih =>
    rcases List.mem_cons.mp member with rfl | below
    · exact le_rfl
    · obtain ⟨k, _, there⟩ := List.mem_flatMap.mp below
      exact (Nat.le_succ d).trans (ih there)

/-- With fuel enough, all are listed that are below, as deep as they are. -/
theorem mem_preorder (closed : Closed up nodes) (fits : Fits up nodes fuel x) (member : x ∈ nodes)
    {e : Nat} : (e, y) ∈ preorder up nodes fuel d x ↔
      y ∈ nodes ∧ ∃ n, e = d + n ∧ climb up n y = some x := by
  induction fuel generalizing d x with
  | zero => cases fits
  | succ fuel ih =>
    rw [preorder, List.mem_cons, List.mem_flatMap]
    constructor
    · rintro (same | ⟨k, child, there⟩)
      · obtain ⟨rfl, rfl⟩ := Prod.mk.inj same
        exact ⟨member, 0, rfl, rfl⟩
      · obtain ⟨isNode, parent⟩ := mem_children.mp child
        obtain ⟨inside, n, rfl, leads⟩ := (ih (fits k child) isNode).mp there
        refine ⟨inside, n + 1, by omega, ?_⟩
        rw [climb, leads, Option.bind_some, parent]
    · rintro ⟨inside, n, rfl, leads⟩
      cases n with
      | zero => exact .inl (by rw [Option.some.inj leads]; rfl)
      | succ n =>
        obtain ⟨k, before, parent⟩ := Option.bind_eq_some_iff.mp leads
        have child := mem_children.mpr ⟨climb_mem closed inside before, parent⟩
        refine .inr ⟨k, child, (ih (fits k child) (mem_children.mp child).1).mpr ?_⟩
        exact ⟨inside, n, by omega, before⟩

theorem preorder_nodup (closed : Closed up nodes) (once : nodes.Nodup)
    (fits : Fits up nodes fuel x) (member : x ∈ nodes) (rooted : Rooted up x) :
    ((preorder up nodes fuel d x).map Prod.snd).Nodup := by
  induction fuel generalizing d x with
  | zero => cases fits
  | succ fuel ih =>
    have below : ∀ k ∈ children up nodes x, ∀ y,
        y ∈ (preorder up nodes fuel (d + 1) k).map Prod.snd →
          up k = some x ∧ ∃ n, climb up n y = some k := by
      intro k child y there
      obtain ⟨⟨e, z⟩, listed, same⟩ := List.mem_map.mp there
      obtain rfl : z = y := same
      obtain ⟨isNode, parent⟩ := mem_children.mp child
      obtain ⟨-, n, -, leads⟩ := (mem_preorder closed (fits k child) isNode).mp listed
      exact ⟨parent, n, leads⟩
    rw [preorder, List.map_cons, List.map_flatMap, List.nodup_cons]
    constructor
    -- The node is not below itself.
    · intro again
      obtain ⟨k, child, there⟩ := List.mem_flatMap.mp again
      obtain ⟨parent, n, leads⟩ := below k child x there
      exact not_rooted (n := n) (by rw [climb, leads, Option.bind_some, parent]) rooted
    · refine List.nodup_flatMap.mpr ⟨fun k child => ?_, ?_⟩
      · obtain ⟨isNode, parent⟩ := mem_children.mp child
        refine ih (fits k child) isNode ?_
        -- A child climbs by its parent.
        obtain ⟨n, ended⟩ := rooted
        exact ⟨n + 1, by rw [climb_succ, parent, Option.bind_some, ended]⟩
      · refine (once.filter _).imp_of_mem fun {k k'} child child' apart => ?_
        intro y here there
        obtain ⟨parent, n, leads⟩ := below k child y here
        obtain ⟨parent', n', leads'⟩ := below k' child' y there
        -- Siblings above one node would be above their parent.
        have above : ∀ {k k' : α}, up k = some x → up k' = some x → k ≠ k' →
            ∀ i, climb up i k ≠ some k' := by
          intro k k' parent parent' apart i leads
          cases i with
          | zero => exact apart (Option.some.inj leads)
          | succ i =>
            rw [climb_succ, parent, Option.bind_some] at leads
            exact not_rooted (n := i) (by rw [climb, leads, Option.bind_some, parent']) rooted
        rcases climb_meet leads leads' with ⟨i, up_⟩ | ⟨i, up_⟩
        · exact above parent parent' apart i up_
        · exact above parent' parent apart.symm i up_

/-- Below the node it starts from, each node stands under its parent. -/
theorem preorder_under {e : Nat} {p : α} (there : (e, y) ∈ preorder up nodes fuel d x)
    (below : y ≠ x) (parent : up y = some p) : Under (preorder up nodes fuel d x) p y := by
  induction fuel generalizing d x with
  | zero => cases there
  | succ fuel ih =>
    rw [preorder] at there ⊢
    rcases List.mem_cons.mp there with same | inside
    · exact absurd (Prod.mk.inj same).2 below
    · obtain ⟨k, child, there⟩ := List.mem_flatMap.mp inside
      obtain ⟨first, last, split⟩ := List.append_of_mem child
      rw [split, List.flatMap_append, List.flatMap_cons]
      by_cases own : y = k
      -- It is a child of the first node, with only what is below its elder siblings between.
      · subst own
        have same : x = p := Option.some.inj ((mem_children.mp child).2.symm.trans parent)
        cases fuel with
        | zero => cases there
        | succ fuel =>
          refine ⟨[], first.flatMap (preorder up nodes (fuel + 1) (d + 1)),
            (children up nodes y).flatMap (preorder up nodes fuel (d + 1 + 1)) ++
              last.flatMap (preorder up nodes (fuel + 1) (d + 1)), d, ?_, ?_⟩
          · rw [← same, preorder]
            simp
          · intro line member
            obtain ⟨k, _, there⟩ := List.mem_flatMap.mp member
            exact preorder_deep there
      · have under := (ih there own).within
          ((d, x) :: first.flatMap (preorder up nodes fuel (d + 1)))
          (last.flatMap (preorder up nodes fuel (d + 1)))
        simpa using under

/-- As much fuel as there are nodes is enough. -/
theorem fits_length (closed : Closed up nodes) (member : x ∈ nodes) (rooted : Rooted up x) :
    Fits up nodes nodes.length x := by
  -- How deep the walk is and how much fuel it has left make up the number of nodes.
  have deep : ∀ fuel x, x ∈ nodes → Rooted up x → ∀ below, fuel + below = nodes.length →
      climb up below x ≠ none → Fits up nodes fuel x := by
    intro fuel
    induction fuel with
    | zero =>
      intro x member rooted below total far
      rw [Nat.zero_add] at total
      exact absurd (total ▸ rooted.height closed member) far
    | succ fuel ih =>
      intro x member rooted below total far k child
      obtain ⟨isNode, parent⟩ := mem_children.mp child
      have step : climb up (below + 1) k = climb up below x := by
        rw [climb_succ, parent, Option.bind_some]
      obtain ⟨n, ended⟩ := rooted
      refine ih k isNode ⟨n + 1, ?_⟩ (below + 1) (by omega) (step ▸ far)
      rw [climb_succ, parent, Option.bind_some, ended]
  exact deep nodes.length x member rooted 0 rfl (by simp [climb])

/-! ## All trees -/

omit [DecidableEq α] in
theorem mem_roots : x ∈ roots up nodes ↔ x ∈ nodes ∧ up x = none := by
  simp [roots]

omit [DecidableEq α] in
theorem root_rooted (root : up x = none) : Rooted up x := ⟨1, by rw [climb_succ, root]; rfl⟩

omit [DecidableEq α] in
/-- Whoever climbs out leaves by a root. -/
theorem Rooted.root (rooted : Rooted up x) : ∃ n r, Forest.climb up n x = some r ∧ up r = none := by
  obtain ⟨n, ended⟩ := rooted
  induction n with
  | zero => cases ended
  | succ n ih =>
    cases leads : Forest.climb up n x with
    | none => exact ih leads
    | some r =>
      rw [Forest.climb, leads, Option.bind_some] at ended
      exact ⟨n, r, leads, ended⟩

/-- Listed is exactly who climbs out. -/
theorem mem_listing (closed : Closed up nodes) :
    y ∈ (listing up nodes nodes.length).map Prod.snd ↔ y ∈ nodes ∧ Rooted up y := by
  rw [listing, List.map_flatMap, List.mem_flatMap]
  constructor
  · rintro ⟨r, root, there⟩
    obtain ⟨⟨e, z⟩, listed, same⟩ := List.mem_map.mp there
    obtain rfl : z = y := same
    obtain ⟨isNode, top⟩ := mem_roots.mp root
    have fits := fits_length closed isNode (root_rooted top)
    obtain ⟨inside, n, -, leads⟩ := (mem_preorder closed fits isNode).mp listed
    exact ⟨inside, n + 1, by rw [climb, leads, Option.bind_some, top]⟩
  · rintro ⟨member, rooted⟩
    obtain ⟨n, r, leads, top⟩ := rooted.root
    have isNode := climb_mem closed member leads
    have fits := fits_length closed isNode (root_rooted top)
    refine ⟨r, mem_roots.mpr ⟨isNode, top⟩, List.mem_map.mpr ⟨(0 + n, y), ?_, rfl⟩⟩
    exact (mem_preorder closed fits isNode).mpr ⟨member, n, rfl, leads⟩

theorem listing_nodup (closed : Closed up nodes) (once : nodes.Nodup) :
    ((listing up nodes nodes.length).map Prod.snd).Nodup := by
  rw [listing, List.map_flatMap]
  refine List.nodup_flatMap.mpr ⟨fun r root => ?_, ?_⟩
  · obtain ⟨isNode, top⟩ := mem_roots.mp root
    have rooted := root_rooted top
    exact preorder_nodup closed once (fits_length closed isNode rooted) isNode rooted
  · refine (once.filter _).imp_of_mem fun {r r'} root root' apart y here there => ?_
    have above : ∀ r ∈ roots up nodes, y ∈ (preorder up nodes nodes.length 0 r).map Prod.snd →
        up r = none ∧ ∃ n, climb up n y = some r := by
      intro r root there
      obtain ⟨⟨e, z⟩, listed, same⟩ := List.mem_map.mp there
      obtain rfl : z = y := same
      obtain ⟨isNode, top⟩ := mem_roots.mp root
      have fits := fits_length closed isNode (root_rooted top)
      obtain ⟨-, n, -, leads⟩ := (mem_preorder closed fits isNode).mp listed
      exact ⟨top, n, leads⟩
    -- Nothing is above a root.
    have alone : ∀ {r r' : α}, up r = none → r ≠ r' → ∀ i, climb up i r ≠ some r' := by
      intro r r' top apart i leads
      cases i with
      | zero => exact apart (Option.some.inj leads)
      | succ i =>
        rw [climb_succ, top] at leads
        cases leads
    obtain ⟨top, n, leads⟩ := above r root here
    obtain ⟨top', n', leads'⟩ := above r' root' there
    rcases climb_meet leads leads' with ⟨i, up_⟩ | ⟨i, up_⟩
    · exact alone top apart i up_
    · exact alone top' apart.symm i up_

theorem listing_under (closed : Closed up nodes) (member : y ∈ nodes) (rooted : Rooted up y)
    {p : α} (parent : up y = some p) : Under (listing up nodes nodes.length) p y := by
  obtain ⟨n, r, leads, top⟩ := rooted.root
  have isNode := climb_mem closed member leads
  have fits := fits_length closed isNode (root_rooted top)
  have there := (mem_preorder (d := 0) closed fits isNode).mpr ⟨member, n, rfl, leads⟩
  have below : y ≠ r := by
    rintro rfl
    rw [top] at parent
    cases parent
  obtain ⟨first, last, split⟩ := List.append_of_mem (mem_roots.mpr ⟨isNode, top⟩)
  rw [listing, split, List.flatMap_append, List.flatMap_cons, ← List.append_assoc]
  exact (preorder_under there below parent).within _ _

end

end Forest

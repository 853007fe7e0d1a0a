import Mathlib.Data.List.Basic

/-!
# What a block log is for

A base, the state there unless the base is genesis, and the blocks since. Nothing below the
base exists, and nothing is ever missing above it.
-/
namespace AkumaMiot

structure ChainLog (β σ : Type) where
  base : Nat
  state : Option σ
  blocks : List β
  present : state.isSome = true ↔ 0 < base

namespace ChainLog

variable {β σ : Type}

@[ext] theorem ext {l m : ChainLog β σ} (base : l.base = m.base) (state : l.state = m.state)
    (blocks : l.blocks = m.blocks) : l = m := by
  obtain ⟨_, _, _, _⟩ := l
  obtain ⟨_, _, _, _⟩ := m
  simp only at base state blocks
  subst base state blocks
  rfl

/-- Nothing yet. -/
def genesis : ChainLog β σ := ⟨0, none, [], by simp⟩

/-- A state taken on trust, with no blocks after it. -/
def trusted (h : Nat) (state : σ) (above : 0 < h) : ChainLog β σ := ⟨h, some state, [], by simpa⟩

/-- Genesis has no state. -/
theorem state_none (l : ChainLog β σ) (genesis : l.base = 0) : l.state = none := by
  rw [← Option.not_isSome_iff_eq_none, l.present]
  omega

def head (l : ChainLog β σ) : Nat := l.base + l.blocks.length

def blockAt (l : ChainLog β σ) (h : Nat) : Option β :=
  if l.base < h then l.blocks[h - l.base - 1]? else none

def push (l : ChainLog β σ) (b : β) : ChainLog β σ := { l with blocks := l.blocks ++ [b] }

/-- Move the base up to `h`, with the state there. -/
def compactTo (l : ChainLog β σ) (h : Nat) (state : σ) (above : l.base < h) : ChainLog β σ :=
  ⟨h, some state, l.blocks.drop (h - l.base), by simp; omega⟩

/-- Keep the base if the fork is not below it, else start over. -/
def rewind (l : ChainLog β σ) (fork : Nat) : ChainLog β σ :=
  if l.base ≤ fork then { l with blocks := [] } else genesis

theorem base_le_head (l : ChainLog β σ) : l.base ≤ l.head := Nat.le_add_right _ _

/-- Blocks stand at exactly the heights above the base and up to the head. -/
theorem blockAt_isSome (l : ChainLog β σ) (h : Nat) :
    (l.blockAt h).isSome = true ↔ l.base < h ∧ h ≤ l.head := by
  unfold blockAt head
  split
  · rw [Option.isSome_iff_ne_none, ne_eq, List.getElem?_eq_none_iff]
    omega
  · simp only [Option.isSome_none, Bool.false_eq_true, false_iff]
    omega

theorem blockAt_none {l : ChainLog β σ} {h : Nat} (outside : h ≤ l.base ∨ l.head < h) :
    l.blockAt h = none := by
  rw [← Option.not_isSome_iff_eq_none, blockAt_isSome]
  omega

theorem blockAt_push (l : ChainLog β σ) (b : β) (h : Nat) :
    (l.push b).blockAt h = if h = l.head + 1 then some b else l.blockAt h := by
  unfold blockAt push head
  simp only
  split
  next above =>
    rw [List.getElem?_append]
    split
    next old => rw [if_neg (by omega)]
    next new =>
      by_cases last : h = l.base + l.blocks.length + 1
      · subst last
        simp [show l.base + l.blocks.length + 1 - l.base - 1 - l.blocks.length = 0 by omega]
      · rw [if_neg last, List.getElem?_eq_none (by simp; omega), List.getElem?_eq_none (by omega)]
  · rw [if_neg (by omega)]

theorem blockAt_compactTo (l : ChainLog β σ) {h : Nat} (state : σ) (above : l.base < h)
    (k : Nat) : (l.compactTo h state above).blockAt k = if h < k then l.blockAt k else none := by
  unfold blockAt compactTo
  simp only
  split
  · rw [if_pos (by omega), List.getElem?_drop]
    congr 1
    omega
  · rfl

theorem head_push (l : ChainLog β σ) (b : β) : (l.push b).head = l.head + 1 := by
  simp [head, push, Nat.add_assoc]

theorem head_compactTo (l : ChainLog β σ) {h : Nat} (state : σ) (above : l.base < h)
    (below : h ≤ l.head) : (l.compactTo h state above).head = l.head := by
  simp only [head, compactTo, List.length_drop] at below ⊢
  omega

/-! ## One log behind another -/

/-- The same base and blocks, but not yet all of them. Nothing is said of the states. -/
def Trails (l m : ChainLog β σ) : Prop := l.base = m.base ∧ l.blocks <+: m.blocks

theorem Trails.of_nil {l m : ChainLog β σ} (base : l.base = m.base) (empty : l.blocks = []) :
    l.Trails m := ⟨base, empty ▸ List.nil_prefix⟩

theorem Trails.head_le {l m : ChainLog β σ} (trails : l.Trails m) : l.head ≤ m.head := by
  have shorter := trails.2.length_le
  unfold head
  rw [trails.1]
  omega

theorem Trails.push {l m : ChainLog β σ} (trails : l.Trails m) {b : β}
    (next : m.blockAt (l.head + 1) = some b) : (l.push b).Trails m := by
  refine ⟨trails.1, ?_⟩
  have above : m.base < l.head + 1 := by
    rw [← trails.1]
    exact Nat.lt_succ_of_le l.base_le_head
  rw [blockAt, if_pos above] at next
  have index : l.head + 1 - m.base - 1 = l.blocks.length := by
    unfold head
    rw [trails.1]
    omega
  rw [index] at next
  obtain ⟨rest, whole⟩ := trails.2
  rw [← whole, List.getElem?_append_right (Nat.le_refl _), Nat.sub_self] at next
  cases rest with
  | nil => simp at next
  | cons first rest =>
    obtain rfl : first = b := by simpa using next
    exact ⟨rest, by rw [← whole]; simp [ChainLog.push]⟩

/-- Logs that agree on the blocks of the first. -/
theorem Trails.of_agree {l m : ChainLog β σ} (base : l.base = m.base)
    (agree : ∀ h, l.base < h → h ≤ l.head → m.blockAt h = l.blockAt h) : l.Trails m := by
  refine ⟨base, List.prefix_iff_getElem?.mpr fun i short => ?_⟩
  have same := agree (l.base + i + 1) (by omega) (by unfold head; omega)
  rw [blockAt, blockAt, if_pos (by omega), if_pos (by omega)] at same
  rw [show l.base + i + 1 - m.base - 1 = i by omega,
    show l.base + i + 1 - l.base - 1 = i by omega] at same
  rw [same, List.getElem?_eq_getElem short]

theorem Trails.caught_up {l m : ChainLog β σ} (trails : l.Trails m) (there : m.head ≤ l.head) :
    l.blocks = m.blocks := by
  refine trails.2.eq_of_length_le ?_
  unfold head at there
  rw [trails.1] at there
  omega

theorem Trails.blockAt {l m : ChainLog β σ} (trails : l.Trails m) {h : Nat} (low : h ≤ l.head) :
    l.blockAt h = m.blockAt h := by
  unfold ChainLog.blockAt
  rw [trails.1]
  split
  next above =>
    obtain ⟨rest, whole⟩ := trails.2
    rw [← whole, List.getElem?_append_left]
    unfold head at low
    rw [trails.1] at low
    omega
  · rfl

theorem Trails.refl (l : ChainLog β σ) : l.Trails l := ⟨rfl, List.prefix_refl _⟩

theorem Trails.trans {l m k : ChainLog β σ} (first : l.Trails m) (second : m.Trails k) :
    l.Trails k := ⟨first.1.trans second.1, first.2.trans second.2⟩

theorem trails_push (l : ChainLog β σ) (b : β) : l.Trails (l.push b) :=
  ⟨rfl, List.prefix_append _ _⟩

/-- `l` may be brought to `m` by appending what is missing, or by adopting a later base. -/
structure Behind (l m : ChainLog β σ) : Prop where
  base : l.base ≤ m.base
  level : l.base = m.base → l.state = m.state ∧ l.Trails m

theorem Behind.refl (l : ChainLog β σ) : l.Behind l := ⟨Nat.le_refl _, fun _ => ⟨rfl, .refl l⟩⟩

theorem Behind.trans {l m k : ChainLog β σ} (first : l.Behind m) (second : m.Behind k) :
    l.Behind k := by
  refine ⟨Nat.le_trans first.base second.base, fun same => ?_⟩
  have one := first.level (Nat.le_antisymm first.base (same ▸ second.base))
  have two := second.level (Nat.le_antisymm second.base (same ▸ first.base))
  exact ⟨one.1.trans two.1, one.2.trans two.2⟩

theorem Behind.push (l : ChainLog β σ) (b : β) : l.Behind (l.push b) :=
  ⟨Nat.le_refl _, fun _ => ⟨rfl, trails_push l b⟩⟩

theorem Behind.compactTo (l : ChainLog β σ) {h : Nat} (state : σ) (above : l.base < h) :
    l.Behind (l.compactTo h state above) :=
  ⟨Nat.le_of_lt above, fun same => absurd same (Nat.ne_of_lt above)⟩

theorem Behind.eq {l m : ChainLog β σ} (behind : l.Behind m) (base : l.base = m.base)
    (head : l.head = m.head) : l = m := by
  obtain ⟨state, trails⟩ := behind.level base
  exact ext base state (trails.caught_up (Nat.le_of_eq head.symm))

/-- Genesis is all there is of a log without height. -/
theorem eq_genesis {l : ChainLog β σ} (bare : l.head = 0) : l = genesis := by
  have base : l.base = 0 := Nat.le_zero.mp (bare ▸ l.base_le_head)
  refine ext base (l.state_none base) (List.length_eq_zero_iff.mp ?_)
  unfold head at bare
  omega

end ChainLog

end AkumaMiot

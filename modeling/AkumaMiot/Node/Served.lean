import AkumaMiot.Node.Pull
import AkumaMiot.Store.Log

/-!
# What a log's answers say

Pages served from a block log, and where two logs part.
-/
namespace AkumaMiot

variable {β σ : Type}

theorem u64Succ_of_lt {h : Nat} (short : h + 1 < 2 ^ 64) : u64Succ h = h + 1 :=
  Nat.mod_eq_of_lt short

theorem u64Succ_lt (h : Nat) : u64Succ h < 2 ^ 64 := Nat.mod_lt _ (by decide)

namespace ChainLog

/-- The blocks a log has from a height on. -/
def Reads (l : ChainLog β σ) : Nat → List β → Prop
  | _, [] => True
  | h, b :: bs => l.blockAt h = some b ∧ l.Reads (h + 1) bs

theorem reads_append {l : ChainLog β σ} {h : Nat} {xs ys : List β} :
    l.Reads h (xs ++ ys) ↔ l.Reads h xs ∧ l.Reads (h + xs.length) ys := by
  induction xs generalizing h with
  | nil => simp [Reads]
  | cons x xs ih =>
    have index : h + 1 + xs.length = h + (xs.length + 1) := by omega
    simp only [List.cons_append, Reads, ih, List.length_cons, index, and_assoc]

/-- The rows of `count` heights from `start`. -/
def rows (l : ChainLog β σ) (start count : Nat) : List (BlockRow β) :=
  (List.range' start count).map fun h => ⟨h, l.blockAt h⟩

theorem rows_succ (l : ChainLog β σ) (start count : Nat) :
    l.rows start (count + 1) = ⟨start, l.blockAt start⟩ :: l.rows (start + 1) count := rfl

theorem rows_eq_nil {l : ChainLog β σ} {start count : Nat} :
    l.rows start count = [] ↔ count = 0 := by
  simp [rows]

@[simp] theorem length_rows (l : ChainLog β σ) (start count : Nat) :
    (l.rows start count).length = count := by simp [rows]

theorem blockAt_some {l : ChainLog β σ} {h : Nat} (above : l.base < h) (below : h ≤ l.head) :
    ∃ b, l.blockAt h = some b :=
  Option.isSome_iff_exists.mp ((l.blockAt_isSome h).mpr ⟨above, below⟩)

theorem decodedBodies_rows {l : ChainLog β σ} {start count : Nat} (above : l.base < start)
    (below : start + count ≤ l.head + 1) :
    l.Reads start (decodedBodies (l.rows start count)) ∧
      (decodedBodies (l.rows start count)).length = count := by
  induction count generalizing start with
  | zero => exact ⟨trivial, rfl⟩
  | succ count ih =>
    obtain ⟨b, there⟩ := l.blockAt_some above (by omega)
    have above' : l.base < start + 1 := by omega
    have below' : start + 1 + count ≤ l.head + 1 := by omega
    obtain ⟨reads, length⟩ := ih above' below'
    rw [rows_succ, there]
    exact ⟨⟨there, reads⟩, by simp [decodedBodies, length]⟩

end ChainLog

namespace Store

variable {s : Store β σ} {l : ChainLog β σ}

/-! ## Pages -/

/-- Below the last height there is, a page is the log's rows until it is full or the log ends,
one step of fuel for each. -/
theorem rowsFrom_eq (holds : Holds s l) (short : l.head + 1 < 2 ^ 64) {fuel room h : Nat}
    (above : l.base < h) :
    s.rowsFrom fuel room h = if min room (l.head + 1 - h) < fuel
      then some (l.rows h (min room (l.head + 1 - h))) else none := by
  induction fuel generalizing room h with
  | zero => rfl
  | succ fuel ih =>
    unfold rowsFrom
    split
    -- One more row, while there is room and the head is not passed.
    next inside =>
      obtain ⟨below, room_left⟩ := inside
      rw [holds.head] at below
      obtain ⟨b, there⟩ := l.blockAt_some above below
      have read : s.block h = some b := (holds.blocks h).trans there
      have one : min room (l.head + 1 - h) = min (room - 1) (l.head + 1 - (h + 1)) + 1 := by omega
      rw [read, u64Succ_of_lt (by omega), one, ChainLog.rows_succ, there]
      simp only [Nat.add_lt_add_iff_right]
      rw [ih (by omega)]
      split <;> rfl
    next outside =>
      have none : min room (l.head + 1 - h) = 0 := by
        rw [holds.head] at outside
        omega
      rw [none, if_pos (Nat.succ_pos fuel)]
      rfl

theorem chainBlocks_eq (holds : Holds s l) (short : l.head + 1 < 2 ^ 64) {fuel start : Nat}
    (above : l.base < start) (enough : syncPage < fuel) :
    s.chainBlocks fuel start syncPage =
      some (l.rows start (min syncPage (l.head + 1 - start))) := by
  unfold chainBlocks
  rw [rowsFrom_eq holds short above, Nat.min_self, if_pos (by omega)]

/-- A row has the block of its height. -/
theorem rowsFrom_reads {fuel room h : Nat} {rows : List (BlockRow β)}
    (served : s.rowsFrom fuel room h = some rows) :
    ∀ row ∈ rows, row.body = s.block row.height := by
  induction fuel generalizing room h rows with
  | zero => simp [rowsFrom] at served
  | succ fuel ih =>
    unfold rowsFrom at served
    split at served
    · split at served
      next body read =>
        obtain ⟨rest, next, rfl⟩ := Option.map_eq_some_iff.mp served
        intro row member
        rcases List.mem_cons.mp member with rfl | later
        · exact read.symm
        · exact ih next row later
      · exact ih served
    · obtain rfl := Option.some.inj served
      simp

/-- A log that ends at the last height there is has no end for the loop: only a full page
ends it. -/
theorem rowsFrom_full (holds : Holds s l) (full : l.head + 1 = 2 ^ 64) {fuel room h : Nat}
    (small : h < 2 ^ 64) {rows : List (BlockRow β)} (served : s.rowsFrom fuel room h = some rows) :
    rows.length = room ∧ ∀ row ∈ rows, row.height < 2 ^ 64 ∧ row.body.isSome = true := by
  induction fuel generalizing room h rows with
  | zero => simp [rowsFrom] at served
  | succ fuel ih =>
    unfold rowsFrom at served
    split at served
    next inside =>
      split at served
      next body _ =>
        obtain ⟨rest, next, rfl⟩ := Option.map_eq_some_iff.mp served
        obtain ⟨length, each⟩ := ih (u64Succ_lt h) next
        refine ⟨by rw [List.length_cons, length]; omega, fun row member => ?_⟩
        rcases List.mem_cons.mp member with rfl | later
        · exact ⟨small, rfl⟩
        · exact each row later
      · exact ih (u64Succ_lt h) served
    next outside =>
      obtain rfl := Option.some.inj served
      rw [holds.head] at outside
      have empty : room = 0 := by omega
      exact ⟨empty.symm, by simp⟩

/-- The blocks a replica gets to compare cover both logs' common range. -/
theorem theirBlocks_eq (holds : Holds s l) (short : l.head + 1 < 2 ^ 64) (myHead : Nat)
    {pages fuel start : Nat} (above : l.base < start) (enough : l.head + 1 - start < fuel)
    (paged : syncPage < pages) :
    ∃ theirs, s.theirBlocks pages myHead fuel start = some theirs ∧ l.Reads start theirs ∧
      (theirs = [] ∨ start + theirs.length ≤ l.head + 1) ∧
      min myHead l.head < start + theirs.length := by
  induction fuel generalizing start with
  | zero => omega
  | succ fuel ih =>
    unfold theirBlocks
    split
    next within =>
      simp only [chainBlocks_eq holds short above paged, Option.bind_eq_bind, Option.bind_some,
        ChainLog.rows_eq_nil, ChainLog.length_rows, Option.pure_def]
      generalize counted : min syncPage (l.head + 1 - start) = count
      have page : syncPage = 256 := rfl
      split
      -- An empty page ends the walk, and what was read covers the log.
      next none => exact ⟨[], rfl, trivial, .inl rfl, by simp; omega⟩
      -- A page was read: the walk goes on behind its last block.
      next some =>
        have fits : start + count ≤ l.head + 1 := by omega
        obtain ⟨reads, length⟩ := l.decodedBodies_rows above fits
        have flat : (start + count) % 2 ^ 64 = start + count := Nat.mod_eq_of_lt (by omega)
        have above' : l.base < start + count := by omega
        have enough' : l.head + 1 - (start + count) < fuel := by omega
        obtain ⟨rest, more, readsRest, ends, covers⟩ := ih above' enough'
        rw [flat, more]
        refine ⟨_, rfl, ChainLog.reads_append.mpr ⟨reads, by rw [length]; exact readsRest⟩, ?_, ?_⟩
        · right
          rcases ends with rfl | ends
          · simpa [length] using fits
          · rw [List.length_append, length]
            omega
        · rw [List.length_append, length]
          omega
    next beyond => exact ⟨[], rfl, trivial, .inl rfl, by simp; omega⟩

/-! ## Where two logs part -/

/-- A fork point is in the range that was compared, every block up to it is the same on both sides,
and no height of the range up to which all are is above it. -/
theorem forkPoint_spec [DecidableEq β] (s : Store β σ) {m : ChainLog β σ} {start : Nat}
    {theirs : List β} (positive : 0 < start) (flat : start + theirs.length < 2 ^ 64)
    (reads : m.Reads start theirs) :
    start - 1 ≤ s.forkPoint start theirs ∧
      s.forkPoint start theirs ≤ start - 1 + theirs.length ∧
      (∀ h, start ≤ h → h ≤ s.forkPoint start theirs → s.block h = m.blockAt h) ∧
      ∀ k, k < start + theirs.length → (∀ h, start ≤ h → h ≤ k → s.block h = m.blockAt h) →
        k ≤ s.forkPoint start theirs := by
  -- The walk carries the last height that agreed along.
  suffices parts : ∀ (ts : List β) (agreed h : Nat), agreed + 1 = h → h + ts.length < 2 ^ 64 →
      m.Reads h ts → agreed ≤ forkPoint.go s agreed h ts ∧
        forkPoint.go s agreed h ts ≤ agreed + ts.length ∧
        (∀ k, agreed < k → k ≤ forkPoint.go s agreed h ts → s.block k = m.blockAt k) ∧
        ∀ k, k < h + ts.length → (∀ j, h ≤ j → j ≤ k → s.block j = m.blockAt j) →
          k ≤ forkPoint.go s agreed h ts by
    obtain ⟨above, below, same, most⟩ := parts theirs (start - 1) start (by omega) flat reads
    exact ⟨above, below, fun h low high => same h (by omega) high, most⟩
  intro ts
  induction ts with
  | nil =>
    intro agreed h next _ _
    refine ⟨Nat.le_refl _, Nat.le_add_right _ _,
      fun k low high => absurd high (Nat.not_le.mpr low), fun k short _ => ?_⟩
    rw [← next] at short
    exact Nat.le_of_lt_succ short
  | cons t ts ih =>
    intro agreed h next flat reads
    simp only [List.length_cons] at flat ⊢
    unfold forkPoint.go
    split
    next same =>
      rw [u64Succ_of_lt (by omega)]
      obtain ⟨above, below, rest, most⟩ := ih h (h + 1) rfl (by omega) reads.2
      refine ⟨by omega, by omega, fun k low high => ?_, fun k short all =>
        most k (by omega) fun j low high => all j (by omega) high⟩
      by_cases here : k = h
      · subst here
        exact same.trans reads.1.symm
      · exact rest k (by omega) high
    next differs =>
      refine ⟨Nat.le_refl _, Nat.le_add_right _ _,
        fun k low high => absurd high (Nat.not_le.mpr low), fun k short all => ?_⟩
      -- A height above would have this block on both sides.
      by_contra past
      exact differs ((all h (Nat.le_refl h) (by omega)).trans reads.1)

end Store

end AkumaMiot

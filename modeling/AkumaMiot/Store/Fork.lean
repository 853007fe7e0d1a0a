import AkumaMiot.Store.Invariant
import Mathlib.Order.Bounds.Basic

/-!
# Where two logs part

Both ways a node reconciles decide what to throw away by `forkPoint`. On a store that is a
block log its answer is the length of the longest common prefix, whatever heights are named.
-/
namespace AkumaMiot

namespace Store

variable {β σ : Type}

/-- The lengths up to which `theirs` is the stored blocks from `start` upward. A missing block
equals no block of `theirs`, so it ends the prefix. -/
def SharedPrefix (s : Store β σ) (start : Nat) (theirs : List β) : Set Nat :=
  {n | n ≤ theirs.length ∧ ∀ i < n, s.block (start + i) = theirs[i]?}

theorem sharedPrefix_zero (s : Store β σ) (start : Nat) (theirs : List β) :
    0 ∈ s.SharedPrefix start theirs :=
  ⟨Nat.zero_le _, fun i below => absurd below (Nat.not_lt_zero i)⟩

/-- Past a first block that agrees, the prefix is one longer than that of the rest. -/
theorem sharedPrefix_succ {s : Store β σ} {start : Nat} {t : β} {ts : List β}
    (same : s.block start = some t) (n : Nat) :
    n + 1 ∈ s.SharedPrefix start (t :: ts) ↔ n ∈ s.SharedPrefix (start + 1) ts := by
  constructor
  · rintro ⟨short, agree⟩
    refine ⟨by simpa using short, fun i below => ?_⟩
    have here := agree (i + 1) (by omega)
    rwa [List.getElem?_cons_succ, ← Nat.add_assoc, Nat.add_right_comm] at here
  · rintro ⟨short, agree⟩
    refine ⟨by simpa using short, fun i below => ?_⟩
    cases i with
    | zero => exact same
    | succ i =>
      have here := agree i (by omega)
      rwa [List.getElem?_cons_succ, ← Nat.add_assoc, Nat.add_right_comm]

/-- A first block that differs, or is not there, leaves nothing shared. -/
theorem sharedPrefix_differs {s : Store β σ} {start : Nat} {t : β} {ts : List β}
    (differs : s.block start ≠ some t) {n : Nat}
    (shared : n ∈ s.SharedPrefix start (t :: ts)) : n = 0 := by
  by_contra some_
  exact differs (shared.2 0 (Nat.pos_of_ne_zero some_))

/-- The loop of `forkPoint` counts the shared prefix. The height wraps at the end of a `u64`,
where no block is stored on either side of the seam. -/
theorem forkPoint_go_spec [DecidableEq β] {s : Store β σ} (genesis : s.block 0 = none)
    (within : ∀ h, 2 ^ 64 ≤ h → s.block h = none) (theirs : List β) {start : Nat}
    (positive : 0 < start) (agreed : Nat) (last : agreed + 1 = start) :
    ∃ n, IsGreatest (s.SharedPrefix start theirs) n ∧
      forkPoint.go s agreed start theirs = agreed + n := by
  induction theirs generalizing start agreed with
  | nil => exact ⟨0, ⟨sharedPrefix_zero s start [], fun n shared => shared.1⟩, rfl⟩
  | cons t ts ih =>
    unfold forkPoint.go
    split
    next same =>
      have small : start < 2 ^ 64 := by
        by_contra large
        exact absurd (same.symm.trans (within start (not_lt.mp large))) (by simp)
      rcases Nat.lt_or_ge (start + 1) (2 ^ 64) with room | full
      · have next : u64Succ start = start + 1 := Nat.mod_eq_of_lt room
        obtain ⟨n, ⟨shared, longest⟩, counted⟩ := ih (Nat.succ_pos start) start rfl
        refine ⟨n + 1, ⟨(sharedPrefix_succ same n).mpr shared, fun m other => ?_⟩, ?_⟩
        · cases m with
          | zero => exact Nat.zero_le _
          | succ m => exact Nat.succ_le_succ (longest ((sharedPrefix_succ same m).mp other))
        · rw [next, counted]
          omega
      · -- the wrap: the loop looks at block 0 next, the prefix at one past the last height
        have next : u64Succ start = 0 := by
          rw [u64Succ, show start + 1 = 2 ^ 64 by omega, Nat.mod_self]
        have stops : forkPoint.go s start 0 ts = start := by
          cases ts with
          | nil => rfl
          | cons t' ts' => simp [forkPoint.go, genesis]
        refine ⟨1, ⟨(sharedPrefix_succ same 0).mpr (sharedPrefix_zero s _ ts), fun m other => ?_⟩,
          by rw [next, stops, last]⟩
        cases m with
        | zero => exact Nat.zero_le _
        | succ m =>
          cases ts with
          | nil => simpa using other.1
          | cons t' ts' =>
            have missing : s.block (start + 1) ≠ some t' := by simp [within _ full]
            rw [sharedPrefix_differs missing ((sharedPrefix_succ same m).mp other)]
    next differs =>
      exact ⟨0, ⟨sharedPrefix_zero s start _, fun n shared =>
        Nat.le_of_eq (sharedPrefix_differs differs shared)⟩, rfl⟩

/-- Whatever a database holds, a height read from it is a `u64`. -/
theorem readHeight_lt (db : StoreDb β σ) (name : String) : readHeight db name < 2 ^ 64 := by
  unfold readHeight
  cases found : (db (.singleton name)).bind BigEndian.ofBytes with
  | none => decide
  | some n =>
    obtain ⟨bytes, _, read⟩ := Option.bind_eq_some_iff.mp found
    exact BigEndian.ofBytes_lt read

/-- The head is what the database says, so it is a `u64` as well. -/
theorem BlockLog.head_lt {r : Recorded β σ} (log : BlockLog r) : r.store.head < 2 ^ 64 := by
  rw [← log.reopens.1]
  exact readHeight_lt _ _

/-- On a block log the fork point is the last height of the longest common prefix of `theirs`
and the stored blocks from `start` upward. -/
theorem forkPoint_longest [DecidableEq β] (r : Recorded β σ) (log : BlockLog r) (start : UInt64)
    (positive : 1 ≤ start.toNat) (theirs : List β) :
    ∃ n, IsGreatest (r.store.SharedPrefix start.toNat theirs) n ∧
      r.store.forkPoint start.toNat theirs = start.toNat - 1 + n := by
  have missing : ∀ h, r.store.head < h → r.store.block h = none := fun h above =>
    Option.not_isSome_iff_eq_none.mp fun stored =>
      absurd ((log.blocks h).mp stored).2 (Nat.not_le.mpr above)
  have genesis : r.store.block 0 = none :=
    Option.not_isSome_iff_eq_none.mp fun stored =>
      absurd ((log.blocks 0).mp stored).1 (Nat.not_lt_zero _)
  exact forkPoint_go_spec genesis (fun h large => missing h (log.head_lt.trans_le large))
    theirs positive (start.toNat - 1) (by omega)

/-- Two blocks agree, a third differs, and the fourth would agree again. -/
theorem forkPoint_longest_parts :
    let ops : List (StoreOp Nat Unit) := [.adoptCheckpoint true 5 (), .append true 6 60,
      .append true 7 70, .append true 8 80, .append true 9 90]
    let r := Machine.run Recorded.step Recorded.fresh ops
    (∃ n, IsGreatest (r.store.SharedPrefix 6 [60, 70, 81, 90]) n ∧
      r.store.forkPoint 6 [60, 70, 81, 90] = 5 + n) ∧
      r.store.forkPoint 6 [60, 70, 81, 90] = 7 :=
  ⟨forkPoint_longest _ (blockLog_run _ (by decide) (by decide)).1 6 (by decide) _, by decide⟩

end Store

end AkumaMiot

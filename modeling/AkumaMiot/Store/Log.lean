import AkumaMiot.Store.ChainLog
import AkumaMiot.Store.Store

/-!
# The store is a block log

`Holds` ties a store, its memory and its disk, to the log it stands for. Every accepted
operation is the log's own operation, and every refused one changes nothing.
-/
namespace AkumaMiot.Store

variable {β σ : Type}

/-- The store's memory and its database both say `l`. -/
structure Holds (s : Store β σ) (l : ChainLog β σ) : Prop where
  last : s.lastCheckpoint = l.base
  head : s.head = l.head
  small : l.head < 2 ^ 64
  blocks : ∀ h, s.db (.block h) = l.blockAt h
  checkpoints : ∀ h, s.db (.checkpoint h) = if h = l.base then l.state else none
  diskHead : readHeight s.db "head" = l.head
  diskLast : readHeight s.db "last_checkpoint" = l.base

/-! ## Reading after a commit -/

theorem mem_heights {a b h : Nat} : h ∈ heights a b ↔ a ≤ h ∧ h ≤ b := by
  simp only [heights, List.mem_range'_1]
  omega

theorem auxKey_ne_head (name : String) : auxKey name ≠ keyHead := by
  intro same
  have chars := congrArg String.toList (StoreKey.singleton.inj same)
  simp at chars

theorem auxKey_ne_lastCp (name : String) : auxKey name ≠ keyLastCp := by
  intro same
  have chars := congrArg String.toList (StoreKey.singleton.inj same)
  simp at chars

theorem block_ne_auxKey (h : Nat) (name : String) : StoreKey.block h ≠ auxKey name := by
  simp [auxKey]

theorem checkpoint_ne_auxKey (h : Nat) (name : String) : StoreKey.checkpoint h ≠ auxKey name := by
  simp [auxKey]

theorem auxKey_inj {a b : String} : auxKey a = auxKey b ↔ a = b := by
  constructor
  · intro same
    have chars := congrArg String.toList (StoreKey.singleton.inj same)
    simpa [String.toList_inj] using chars
  · rintro rfl
    rfl

@[simp] theorem dropBlocks_block (db : StoreDb β σ) (a b h : Nat) :
    KeyValue.commit db (dropBlocks (heights a b)) (.block h) =
      if a ≤ h ∧ h ≤ b then none else db (.block h) := by
  rw [dropBlocks, KeyValue.commit_deletes]
  simp [mem_heights]

@[simp] theorem dropBlocks_checkpoint (db : StoreDb β σ) (hs : List Nat) (h : Nat) :
    KeyValue.commit db (dropBlocks hs) (.checkpoint h) = db (.checkpoint h) := by
  rw [dropBlocks, KeyValue.commit_deletes, if_neg (by simp)]

@[simp] theorem dropBlocks_singleton (db : StoreDb β σ) (hs : List Nat) (name : String) :
    KeyValue.commit db (dropBlocks hs) (.singleton name) = db (.singleton name) := by
  rw [dropBlocks, KeyValue.commit_deletes, if_neg (by simp)]

private theorem dropCheckpoint_eq (last : Nat) :
    (dropCheckpoint last : List (StoreWrite β σ)) =
      (if last > 0 then [StoreKey.checkpoint last] else []).map KeyValue.delete := by
  unfold dropCheckpoint
  split <;> rfl

@[simp] theorem dropCheckpoint_block (db : StoreDb β σ) (last h : Nat) :
    KeyValue.commit db (dropCheckpoint last) (.block h) = db (.block h) := by
  rw [dropCheckpoint_eq, KeyValue.commit_deletes, if_neg]
  split <;> simp

@[simp] theorem dropCheckpoint_checkpoint (db : StoreDb β σ) (last h : Nat) :
    KeyValue.commit db (dropCheckpoint last) (.checkpoint h) =
      if h = last ∧ 0 < last then none else db (.checkpoint h) := by
  rw [dropCheckpoint_eq, KeyValue.commit_deletes]
  by_cases some : last > 0 <;> simp [some]

@[simp] theorem dropCheckpoint_singleton (db : StoreDb β σ) (last : Nat) (name : String) :
    KeyValue.commit db (dropCheckpoint last) (.singleton name) = db (.singleton name) := by
  rw [dropCheckpoint_eq, KeyValue.commit_deletes, if_neg]
  split <;> simp

/-! Deletions touch no auxiliary value. -/

theorem dropBlocks_ne_auxKey {hs : List Nat} (name : String) :
    ∀ w ∈ (dropBlocks hs : List (StoreWrite β σ)), w.key ≠ auxKey name := by
  intro w member
  simp only [dropBlocks, List.map_map, List.mem_map] at member
  obtain ⟨h, _, rfl⟩ := member
  exact block_ne_auxKey h name

theorem dropCheckpoint_ne_auxKey {last : Nat} (name : String) :
    ∀ w ∈ (dropCheckpoint last : List (StoreWrite β σ)), w.key ≠ auxKey name := by
  intro w member
  unfold dropCheckpoint at member
  split at member
  · rw [List.mem_singleton] at member
    subst member
    exact checkpoint_ne_auxKey last name
  · simp at member

theorem readHeight_of_bytes {db : StoreDb β σ} {name : String} {h : Nat} (small : h < 2 ^ 64)
    (bytes : db (.singleton name) = some (BigEndian.toBytes h)) : readHeight db name = h := by
  rw [readHeight, bytes, Option.bind_some, BigEndian.ofBytes_toBytes small]
  rfl

theorem readHeight_congr {db db' : StoreDb β σ} {name : String}
    (same : db' (.singleton name) = db (.singleton name)) :
    readHeight db' name = readHeight db name := by
  rw [readHeight, readHeight, same]

/-! ## The operations -/

theorem holds_mk {db : StoreDb β σ} {head last : Nat} {l : ChainLog β σ} (atBase : last = l.base)
    (atHead : head = l.head) (small : l.head < 2 ^ 64)
    (blocks : ∀ h, db (.block h) = l.blockAt h)
    (checkpoints : ∀ h, db (.checkpoint h) = if h = l.base then l.state else none)
    (diskHead : readHeight db "head" = l.head)
    (diskLast : readHeight db "last_checkpoint" = l.base) : Holds ⟨db, head, last⟩ l :=
  ⟨atBase, atHead, small, blocks, checkpoints, diskHead, diskLast⟩

/-- A database nobody wrote to yet is an empty log. -/
theorem openDb_empty : Holds (openDb (emptyDb : StoreDb β σ)) ChainLog.genesis := by
  refine holds_mk rfl rfl (by simp [ChainLog.genesis, ChainLog.head]) (fun h => ?_) (fun h => ?_)
    rfl rfl
  · simp [emptyDb, ChainLog.genesis, ChainLog.blockAt]
  · exact (ite_self none).symm

theorem append_refines {s : Store β σ} {l : ChainLog β σ} (holds : Holds s l) (commits : Bool)
    (height : Nat) (b : β) :
    (∃ why, s.append commits height b = (.error why, s)) ∨
    (height = u64Succ s.head ∧ commits = true ∧ ∃ s', s.append commits height b = (.ok (), s') ∧
      (s.head + 1 < 2 ^ 64 → Holds s' (l.push b)) ∧ ∀ name, s'.aux name = s.aux name) := by
  unfold append
  split
  · exact .inl ⟨_, rfl⟩
  next next =>
    split
    · exact .inl ⟨_, rfl⟩
    next taken =>
      have next : height = u64Succ s.head := not_not.mp next
      refine .inr ⟨next, by simpa using taken, _, rfl, fun room => ?_, fun name => ?_⟩
      -- The next height does not wrap, so it is the one above the log.
      · have height : height = l.head + 1 := by
          rw [next, u64Succ, Nat.mod_eq_of_lt room, holds.head]
        subst height
        rw [holds.head] at room
        refine holds_mk holds.last (l.head_push b).symm (by rwa [l.head_push]) (fun h => ?_)
          (fun h => ?_) ?_ ?_
        · rw [l.blockAt_push]
          by_cases last : h = l.head + 1
          · subst last
            simp [KeyValue.commit, putBlock, putHead, keyHead]
          · simp [KeyValue.commit, putBlock, putHead, keyHead, last, holds.blocks]
        · refine Eq.trans ?_ (holds.checkpoints h)
          simp [KeyValue.commit, putBlock, putHead, keyHead]
        · rw [l.head_push]
          exact readHeight_of_bytes room (by simp [KeyValue.commit, putBlock, putHead, keyHead])
        · refine (readHeight_congr ?_).trans holds.diskLast
          simp [KeyValue.commit, putBlock, putHead, keyHead]
      -- Blocks and the head are kept under other keys than the rest.
      · apply KeyValue.commit_of_untouched
        simp [putBlock, putHead, (auxKey_ne_head name).symm, block_ne_auxKey _ name]

theorem compact_refines {s : Store β σ} {l : ChainLog β σ} (holds : Holds s l) (commits : Bool)
    (height : Nat) (state : σ) :
    (∃ why, s.compact commits height state = (.error why, s)) ∨
    (commits = true ∧ height ≤ l.head ∧ ∃ (above : l.base < height) (pruned : Nat) (s' : Store β σ),
      s.compact commits height state = (.ok pruned, s') ∧ Holds s' (l.compactTo height state above) ∧
      ∀ name, s'.aux name = s.aux name) := by
  unfold compact
  split
  · exact .inl ⟨_, rfl⟩
  next inside =>
    split
    · exact .inl ⟨_, rfl⟩
    next taken =>
      rw [holds.head, holds.last] at inside
      have above : l.base < height := by omega
      have below : height ≤ l.head := by omega
      have small : height < 2 ^ 64 := Nat.lt_of_le_of_lt below holds.small
      refine .inr ⟨by simpa using taken, below, above, _, _, rfl, ?_, fun name => ?_⟩
      -- Block by block and checkpoint by checkpoint: what the commit leaves is the compacted log.
      · refine holds_mk rfl (by rw [l.head_compactTo state above below]; exact holds.head)
          (by rw [l.head_compactTo state above below]; exact holds.small) (fun h => ?_)
          (fun h => ?_) ?_ ?_
        · have old : KeyValue.commit s.db [putCheckpoint height state, putLastCp height] (.block h) =
              l.blockAt h := by
            simp [KeyValue.commit, putCheckpoint, putLastCp, keyLastCp, holds.blocks]
          rw [KeyValue.commit_append, KeyValue.commit_append, dropBlocks_block,
            dropCheckpoint_block, old, holds.last, l.blockAt_compactTo]
          by_cases kept : height < h
          · rw [if_pos kept, if_neg (by omega)]
          · rw [if_neg kept]
            split
            · rfl
            · exact ChainLog.blockAt_none (by omega)
        · rw [KeyValue.commit_append, KeyValue.commit_append, dropBlocks_checkpoint,
            dropCheckpoint_checkpoint, holds.last]
          -- Only the new checkpoint is left: the one at the old base is dropped.
          by_cases here : h = height
          · subst here
            rw [if_neg (by omega)]
            simp [KeyValue.commit, putCheckpoint, putLastCp, keyLastCp, ChainLog.compactTo]
          · have old : KeyValue.commit s.db [putCheckpoint height state, putLastCp height]
                (.checkpoint h) = if h = l.base then l.state else none := by
              rw [← holds.checkpoints]
              simp [KeyValue.commit, putCheckpoint, putLastCp, keyLastCp, here]
            rw [old, if_neg (show h ≠ (l.compactTo height state above).base from here)]
            split
            · rfl
            next genesis =>
              split
              next atBase => exact l.state_none (by omega)
              · rfl
        · rw [l.head_compactTo state above below]
          refine (readHeight_congr ?_).trans holds.diskHead
          rw [KeyValue.commit_append, KeyValue.commit_append, dropBlocks_singleton,
            dropCheckpoint_singleton]
          simp [KeyValue.commit, putCheckpoint, putLastCp, keyLastCp]
        · refine readHeight_of_bytes small ?_
          rw [KeyValue.commit_append, KeyValue.commit_append, dropBlocks_singleton,
            dropCheckpoint_singleton]
          simp [KeyValue.commit, putCheckpoint, putLastCp, keyLastCp, ChainLog.compactTo]
      · refine KeyValue.commit_of_untouched _ _
          (List.forall_mem_append.mpr ⟨List.forall_mem_append.mpr ⟨?_, ?_⟩, ?_⟩)
        · simp [putCheckpoint, putLastCp, (auxKey_ne_lastCp name).symm, checkpoint_ne_auxKey]
        · exact dropCheckpoint_ne_auxKey name
        · exact dropBlocks_ne_auxKey name

theorem adoptCheckpoint_refines {s : Store β σ} {l : ChainLog β σ} (holds : Holds s l)
    (commits : Bool) {height : Nat} (above : 0 < height) (small : height < 2 ^ 64) (state : σ) :
    (∃ why, s.adoptCheckpoint commits height state = (.error why, s)) ∨
    (commits = true ∧ ∃ s', s.adoptCheckpoint commits height state = (.ok (), s') ∧
      Holds s' (.trusted height state above) ∧ ∀ name, s'.aux name = s.aux name) := by
  unfold adoptCheckpoint
  split
  · exact .inl ⟨_, rfl⟩
  next taken =>
    refine .inr ⟨by simpa using taken, _, rfl, ?_, fun name => ?_⟩
    · refine holds_mk rfl rfl small (fun h => ?_) (fun h => ?_) ?_ ?_
      -- No block is left: the log had them all between its base and its head.
      · have gone : KeyValue.commit s.db (dropBlocks (heights 1 s.head) ++
            dropCheckpoint s.lastCheckpoint) (.block h) = none := by
          rw [KeyValue.commit_append, dropCheckpoint_block, dropBlocks_block, holds.blocks,
            holds.head]
          split
          · rfl
          · exact ChainLog.blockAt_none (by omega)
        have none : (ChainLog.trusted height state above : ChainLog β σ).blockAt h = none := by
          simp [ChainLog.trusted, ChainLog.blockAt]
        rw [KeyValue.commit_append, KeyValue.commit_of_untouched, gone, none]
        simp [putCheckpoint, putLastCp, putHead, keyHead, keyLastCp]
      · have gone : KeyValue.commit s.db (dropBlocks (heights 1 s.head) ++
            dropCheckpoint s.lastCheckpoint) (.checkpoint h) = none := by
          rw [KeyValue.commit_append, dropCheckpoint_checkpoint, dropBlocks_checkpoint,
            holds.checkpoints, holds.last]
          split
          · rfl
          · split
            next atBase => exact l.state_none (by omega)
            · rfl
        rw [KeyValue.commit_append]
        by_cases here : h = height
        · subst here
          simp [KeyValue.commit, putCheckpoint, putLastCp, putHead, keyHead, keyLastCp,
            ChainLog.trusted]
        · rw [KeyValue.commit_of_untouched, gone]
          · exact (if_neg here).symm
          simp [putCheckpoint, putLastCp, putHead, keyHead, keyLastCp, Ne.symm here]
      · rw [KeyValue.commit_append]
        refine readHeight_of_bytes small ?_
        simp [KeyValue.commit, putHead, keyHead, ChainLog.trusted, ChainLog.head]
      · rw [KeyValue.commit_append]
        refine readHeight_of_bytes small ?_
        simp [KeyValue.commit, putLastCp, putHead, keyHead, keyLastCp, ChainLog.trusted]
    · refine KeyValue.commit_of_untouched _ _
        (List.forall_mem_append.mpr ⟨List.forall_mem_append.mpr ⟨?_, ?_⟩, ?_⟩)
      · exact dropBlocks_ne_auxKey name
      · exact dropCheckpoint_ne_auxKey name
      · simp [putCheckpoint, putLastCp, putHead, (auxKey_ne_lastCp name).symm,
          (auxKey_ne_head name).symm, checkpoint_ne_auxKey]

/-- The answer of a rewind is the base it landed on and the state there. -/
theorem rewindForFork_refines {s : Store β σ} {l : ChainLog β σ} (holds : Holds s l)
    (commits : Bool) (fork : Nat) :
    (∃ why, s.rewindForFork commits fork = (.error why, s)) ∨
    (commits = true ∧ ∃ s', s.rewindForFork commits fork =
        (.ok ⟨(l.rewind fork).base, (l.rewind fork).state, l.head - (l.rewind fork).base⟩, s') ∧
      Holds s' (l.rewind fork) ∧ ∀ name, s'.aux name = s.aux name) := by
  -- No block is left behind the base, wherever the rewind lands.
  have gone : ∀ land h, land ≤ l.base → l.base < h →
      KeyValue.commit s.db (dropBlocks (heights (u64Succ land) s.head)) (.block h) = none := by
    intro land h low high
    rw [dropBlocks_block, holds.blocks, holds.head]
    split
    · rfl
    next outside =>
      have first : u64Succ land ≤ land + 1 := Nat.mod_le _ _
      exact ChainLog.blockAt_none (by omega)
  have none : ∀ land h, land ≤ l.base →
      KeyValue.commit s.db (dropBlocks (heights (u64Succ land) s.head)) (.block h) = none := by
    intro land h low
    by_cases high : l.base < h
    · exact gone land h low high
    · rw [dropBlocks_block, holds.blocks, ChainLog.blockAt_none (.inl (by omega)), ite_self]
  unfold rewindForFork
  -- A fork at or behind the checkpoint lands on it; a fork before it goes back to genesis.
  by_cases keep : l.base ≤ fork
  · have rewound : l.rewind fork = { l with blocks := [] } := if_pos keep
    have land : (if fork ≥ s.lastCheckpoint then s.lastCheckpoint else 0) = l.base := by
      rw [holds.last, if_pos keep]
    have forgets : ¬ (l.base = 0 ∧ s.lastCheckpoint > 0) := by rw [holds.last]; omega
    simp only [land, if_neg forgets, List.append_nil]
    split
    · exact .inl ⟨_, rfl⟩
    next taken =>
      have state : KeyValue.commit s.db (dropBlocks (heights (u64Succ l.base) s.head) ++
          [putHead l.base]) (.checkpoint s.lastCheckpoint) = l.state := by
        rw [KeyValue.commit_append, KeyValue.commit_of_untouched, dropBlocks_checkpoint,
          holds.checkpoints, if_pos holds.last]
        simp [putHead, keyHead]
      refine .inr ⟨by simpa using taken, _, Prod.ext ?_ rfl, ?_, fun name => ?_⟩
      · simp only [rewound, state]
        split
        next genesis => rw [l.state_none genesis, holds.head]
        · rw [holds.head]
      · have small : l.base < 2 ^ 64 := Nat.lt_of_le_of_lt l.base_le_head holds.small
        rw [rewound]
        refine holds_mk ?_ rfl small (fun h => ?_) (fun h => ?_) ?_ ?_
        · rw [holds.last]
          split
          next genesis => exact genesis.symm
          · rfl
        · rw [KeyValue.commit_append, KeyValue.commit_of_untouched, none l.base h (Nat.le_refl _)]
          · simp [ChainLog.blockAt]
          · simp [putHead, keyHead]
        · rw [KeyValue.commit_append, KeyValue.commit_of_untouched, dropBlocks_checkpoint]
          · exact holds.checkpoints h
          · simp [putHead, keyHead]
        · rw [KeyValue.commit_append]
          exact readHeight_of_bytes small (by simp [KeyValue.commit, putHead, keyHead,
            ChainLog.head])
        · refine (readHeight_congr ?_).trans holds.diskLast
          rw [KeyValue.commit_append, KeyValue.commit_of_untouched, dropBlocks_singleton]
          simp [putHead, keyHead]
      · refine KeyValue.commit_of_untouched _ _ (List.forall_mem_append.mpr ⟨?_, ?_⟩)
        · exact dropBlocks_ne_auxKey name
        · simp [putHead, (auxKey_ne_head name).symm]
  · have rewound : l.rewind fork = .genesis := if_neg keep
    have land : (if fork ≥ s.lastCheckpoint then s.lastCheckpoint else 0) = 0 := by
      rw [holds.last, if_neg (by omega)]
    have positive : s.lastCheckpoint > 0 := by rw [holds.last]; omega
    simp only [land, positive, and_self, if_true]
    split
    · exact .inl ⟨_, rfl⟩
    next taken =>
      refine .inr ⟨by simpa using taken, _, Prod.ext ?_ rfl, ?_, fun name => ?_⟩
      · simp [rewound, holds.head, ChainLog.genesis]
      · rw [rewound]
        refine holds_mk rfl rfl (by simp [ChainLog.genesis, ChainLog.head]) (fun h => ?_)
          (fun h => ?_) ?_ ?_
        · rw [KeyValue.commit_append, KeyValue.commit_append, KeyValue.commit_of_untouched,
            KeyValue.commit_of_untouched, none 0 h (Nat.zero_le _)]
          · simp [ChainLog.blockAt, ChainLog.genesis]
          · simp [KeyValue.delete, putLastCp, keyLastCp]
          · simp [putHead, keyHead]
        · rw [KeyValue.commit_append, KeyValue.commit_append, KeyValue.commit_of_untouched]
          · refine Eq.trans ?_ (ite_self Option.none).symm
            by_cases here : h = s.lastCheckpoint
            · subst here
              simp [KeyValue.commit, KeyValue.delete, putLastCp, keyLastCp]
            · rw [KeyValue.commit_of_untouched, dropBlocks_checkpoint, holds.checkpoints,
                if_neg (holds.last ▸ here)]
              simp [KeyValue.delete, putLastCp, keyLastCp, Ne.symm here]
          · simp [putHead, keyHead]
        · rw [KeyValue.commit_append]
          exact readHeight_of_bytes (by simp [ChainLog.genesis, ChainLog.head])
            (by simp [KeyValue.commit, putHead, keyHead, ChainLog.genesis, ChainLog.head])
        · rw [KeyValue.commit_append, KeyValue.commit_append]
          exact readHeight_of_bytes (by simp [ChainLog.genesis])
            (by simp [KeyValue.commit, KeyValue.delete, putHead, putLastCp, keyHead, keyLastCp,
              ChainLog.genesis])
      · refine KeyValue.commit_of_untouched _ _
          (List.forall_mem_append.mpr ⟨List.forall_mem_append.mpr ⟨?_, ?_⟩, ?_⟩)
        · exact dropBlocks_ne_auxKey name
        · simp [KeyValue.delete, putLastCp, (auxKey_ne_lastCp name).symm, checkpoint_ne_auxKey]
        · simp [putHead, (auxKey_ne_head name).symm]

/-- A singleton that is put leaves every other row alone. -/
theorem putAux_other (s : Store β σ) (commits : Bool) {name : String} (value : List UInt8)
    {k : StoreKey} (other : k ≠ auxKey name) : (s.putAux commits name value).2.db k = s.db k := by
  unfold putAux
  split
  · rfl
  · exact KeyValue.commit_of_untouched _ _ (by simpa using other.symm)

theorem putAux_refines {s : Store β σ} {l : ChainLog β σ} (holds : Holds s l) (commits : Bool)
    (name : String) (value : List UInt8) :
    (∃ why, s.putAux commits name value = (.error why, s)) ∨
    (commits = true ∧ ∃ s', s.putAux commits name value = (.ok (), s') ∧ Holds s' l ∧
      ∀ other, s'.aux other = if other = name then some value else s.aux other) := by
  unfold putAux
  split
  · exact .inl ⟨_, rfl⟩
  next taken =>
    -- An auxiliary key is none of the keys of the log.
    have keeps : ∀ k, auxKey name ≠ k →
        KeyValue.commit s.db [⟨auxKey name, some value⟩] k = s.db k := fun k ne =>
      KeyValue.commit_of_untouched _ _ (by simpa using ne)
    refine .inr ⟨by simpa using taken, _, rfl, ?_, fun other => ?_⟩
    · refine holds_mk holds.last holds.head holds.small (fun h => ?_) (fun h => ?_) ?_ ?_
      · exact (keeps _ (block_ne_auxKey h name).symm).trans (holds.blocks h)
      · exact (keeps _ (checkpoint_ne_auxKey h name).symm).trans (holds.checkpoints h)
      · exact (readHeight_congr (keeps _ (auxKey_ne_head name))).trans holds.diskHead
      · exact (readHeight_congr (keeps _ (auxKey_ne_lastCp name))).trans holds.diskLast
    · show KeyValue.commit s.db _ (auxKey other) = _
      by_cases same : other = name
      · subst same
        rw [if_pos rfl]
        exact KeyValue.commit_put_self _ _ _
      · rw [keeps _ fun eq => same (auxKey_inj.mp eq.symm), if_neg same]
        rfl

theorem reopen_eq {s : Store β σ} {l : ChainLog β σ} (holds : Holds s l) : s.reopen = s := by
  obtain ⟨db, head, last⟩ := s
  simp only [reopen, openDb, holds.diskHead, holds.diskLast, ← holds.head, ← holds.last]

/-! ## Calls that are taken -/

theorem Holds.append {s : Store β σ} {l : ChainLog β σ} (holds : Holds s l)
    (room : l.head + 1 < 2 ^ 64) (b : β) :
    ∃ s', s.append true (l.head + 1) b = (.ok (), s') ∧ Holds s' (l.push b) := by
  have next : l.head + 1 = u64Succ s.head := by
    rw [holds.head, u64Succ, Nat.mod_eq_of_lt room]
  rcases append_refines holds true (l.head + 1) b with ⟨why, refused⟩ | ⟨_, _, s', taken, held, _⟩
  · simp [Store.append, ← next] at refused
  · exact ⟨s', taken, held (by rw [holds.head]; exact room)⟩

theorem Holds.adoptCheckpoint {s : Store β σ} {l : ChainLog β σ} (holds : Holds s l) {height : Nat}
    (above : 0 < height) (small : height < 2 ^ 64) (state : σ) :
    ∃ s', s.adoptCheckpoint true height state = (.ok (), s') ∧
      Holds s' (.trusted height state above) := by
  rcases adoptCheckpoint_refines holds true above small state with
    ⟨why, refused⟩ | ⟨_, s', taken, held, _⟩
  · simp [Store.adoptCheckpoint] at refused
  · exact ⟨s', taken, held⟩

theorem Holds.rewindForFork {s : Store β σ} {l : ChainLog β σ} (holds : Holds s l) (fork : Nat) :
    ∃ r s', s.rewindForFork true fork = (.ok r, s') ∧ Holds s' (l.rewind fork) := by
  rcases rewindForFork_refines holds true fork with ⟨why, refused⟩ | ⟨_, s', taken, held, _⟩
  · simp [Store.rewindForFork] at refused
  · exact ⟨_, s', taken, held⟩

theorem Holds.appended {s : Store β σ} {l : ChainLog β σ} (holds : Holds s l)
    (room : l.head + 1 < 2 ^ 64) (b : β) : Holds (s.append true (l.head + 1) b).2 (l.push b) := by
  obtain ⟨s', taken, held⟩ := holds.append room b
  rw [taken]
  exact held

theorem Holds.adopted {s : Store β σ} {l : ChainLog β σ} (holds : Holds s l) {height : Nat}
    (above : 0 < height) (small : height < 2 ^ 64) (state : σ) :
    Holds (s.adoptCheckpoint true height state).2 (.trusted height state above) := by
  obtain ⟨s', taken, held⟩ := holds.adoptCheckpoint above small state
  rw [taken]
  exact held

end AkumaMiot.Store

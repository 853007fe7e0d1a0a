import AkumaMiot.Node.Session

/-!
# What a peer's rows may do to a log

A pull and a push both append blocks that a peer sent. A push reads a body before it stores it.
A pull stores it first, and a body that does not read then ends the process, at once and at
every later start.
-/
namespace AkumaMiot

variable {A B H : Type}

/-- A log grown by rows of a page, each the next block and each with a body that opens. -/
structure GrownBy (env : Env A B H) (rows : List (BlockRow B)) (m m' : ChainLog B B) : Prop where
  trails : m.Trails m'
  state : m'.state = m.state
  each : ∀ h b, m.head < h → m'.blockAt h = some b →
    ⟨h, some b⟩ ∈ rows ∧ (env.openBody b).isSome = true

namespace GrownBy

variable {env : Env A B H} {rows : List (BlockRow B)} {m m' : ChainLog B B}

theorem refl (env : Env A B H) (rows : List (BlockRow B)) (m : ChainLog B B) :
    GrownBy env rows m m := by
  refine ⟨.refl m, rfl, fun h b above there => ?_⟩
  rw [ChainLog.blockAt_none (.inr above)] at there
  simp at there

theorem more (grown : GrownBy env rows m m') (row : BlockRow B) :
    GrownBy env (row :: rows) m m' :=
  ⟨grown.trails, grown.state, fun h b above there =>
    ⟨List.mem_cons_of_mem row (grown.each h b above there).1, (grown.each h b above there).2⟩⟩

/-- One row, and then the others. -/
theorem push {b : B} (opens : (env.openBody b).isSome = true)
    (grown : GrownBy env rows (m.push b) m') :
    GrownBy env (⟨m.head + 1, some b⟩ :: rows) m m' := by
  refine ⟨(m.trails_push b).trans grown.trails, grown.state, fun h b' above there => ?_⟩
  by_cases here : h = m.head + 1
  · subst here
    have read := grown.trails.blockAt (h := m.head + 1) (by rw [m.head_push])
    rw [m.blockAt_push, if_pos rfl, there] at read
    obtain rfl := Option.some.inj read
    exact ⟨List.mem_cons_self, opens⟩
  · obtain ⟨member, opens'⟩ := grown.each h b' (by rw [m.head_push]; omega) there
    exact ⟨List.mem_cons_of_mem _ member, opens'⟩

theorem readable (grown : GrownBy env rows m m') (readable : Readable env m) :
    Readable env m' := by
  have before := readable_iff.mp readable
  refine readable_iff.mpr ⟨fun h b above _ there => ?_, fun blob same => ?_⟩
  · by_cases old : h ≤ m.head
    · rw [← grown.trails.blockAt old] at there
      exact before.1 h b (grown.trails.1 ▸ above) old there
    · exact (grown.each h b (Nat.lt_of_not_le old) there).2
  · rw [grown.state] at same
    rw [← grown.trails.1]
    exact readable.state blob same

end GrownBy

/-- Every body that a pull gets to store opens. The pull goes through a page row by row, passes
over what it has, and ends at the first row that is not the next block. -/
def PageOpens (env : Env A B H) (commits : Bool) : (head : Nat) → List (BlockRow B) → Prop
  | _, [] => True
  | head, row :: rows =>
    if row.height ≤ head then PageOpens env commits head rows
    else match row.body with
    | none => True
    | some body => row.height = u64Succ head → commits = true →
      (env.openBody body).isSome = true ∧ PageOpens env commits row.height rows

/-- The store that a pull's page leaves, also when the process ends on the way. -/
def Store.afterRows (env : Env A B H) (commits : Bool) (s : Store B B) :
    List (BlockRow B) → Store B B
  | [] => s
  | row :: rows =>
    if row.height ≤ s.head then afterRows env commits s rows
    else match row.body with
    | none => s
    | some body =>
      match s.append commits row.height body with
      | (.error _, _) => s
      | (.ok _, store) =>
        if (env.openBody body).isSome then afterRows env commits store rows else store

namespace Node

/-- A node with the block after its log's last one open. -/
structure AtHead (n : Node A B H) (m : ChainLog B B) : Prop where
  holds : Store.Holds n.store m
  seated : n.ext.blockNumber = n.block
  next : n.block = m.head + 1

theorem Tailing.atHead {n : Node A B H} {peer : Route} {m : ChainLog B B}
    (tails : Tailing n peer m) : AtHead n m := ⟨tails.holds, tails.seated, tails.next⟩

section Executing

variable [DecidableEq A]

/-- The next block, stored and folded. -/
theorem AtHead.applied {n : Node A B H} {m : ChainLog B B} (stands : AtHead n m)
    (env : Env A B H) {height : Nat} {body : B} {store : Store B B} (above : ¬ height ≤ n.store.head)
    {commits : Bool} (appended : n.store.append commits height body = (.ok (), store))
    (effects : List (Effect A)) (at_ : Option Nat) :
    height = m.head + 1 ∧ ∃ n', { n with store := store }.applyBlock env height effects at_ =
      some n' ∧ ∀ mesh, AtHead { n' with mesh := mesh } (m.push body) := by
  obtain ⟨why, refused⟩ | ⟨height_eq, _, s, accepted, held, _⟩ :=
    Store.append_refines stands.holds commits height body
  · rw [refused] at appended
    simp at appended
  obtain rfl : s = store := (Prod.mk.inj (accepted.symm.trans appended)).2
  have small := stands.holds.small
  have head := stands.holds.head
  -- A height above the head is not one that wrapped around to it.
  have room : n.store.head + 1 < 2 ^ 64 := by
    refine Nat.lt_of_le_of_ne (head ▸ small) fun full => above ?_
    rw [height_eq, u64Succ, full, Nat.mod_self]
    exact Nat.zero_le _
  rw [u64Succ_of_lt room, head] at height_eq
  subst height_eq
  obtain ⟨n', folded, seated⟩ := applyBlock_seated (n := { n with store := s })
    (stands.seated.trans stands.next) env effects at_
  have frame := applyBlock_eq folded
  refine ⟨rfl, n', folded, fun mesh => ⟨?_, seated, ?_⟩⟩
  · have kept : n'.store = s := by rw [frame]
    exact kept ▸ held room
  · have block : n'.block = m.head + 1 + 1 := by rw [frame]
    rw [m.head_push]
    exact block

/-- A page whose bodies open is taken up to its first bad row. -/
theorem syncRows_grows {env : Env A B H} {commits : Bool} {rows : List (BlockRow B)}
    {n : Node A B H} {m : ChainLog B B} (stands : AtHead n m)
    (opens : PageOpens env commits n.store.head rows) :
    ∃ goes n' m', n.syncRows env commits rows = some (goes, n') ∧ AtHead n' m' ∧
      GrownBy env rows m m' := by
  induction rows generalizing n m with
  | nil => exact ⟨true, n, m, rfl, stands, .refl env [] m⟩
  | cons row rows ih =>
    obtain ⟨height, body⟩ := row
    unfold syncRows
    unfold PageOpens at opens
    split
    -- A row at or below the head was there before: only the rest of the page counts.
    next low =>
      rw [if_pos low] at opens
      obtain ⟨goes, n', m', synced, stands', grown⟩ := ih stands opens
      exact ⟨goes, n', m', synced, stands', grown.more _⟩
    next above =>
      rw [if_neg above] at opens
      cases body with
      | none => exact ⟨false, n, m, rfl, stands, .refl env _ m⟩
      | some body =>
        simp only at opens ⊢
        split
        · exact ⟨false, n, m, rfl, stands, .refl env _ m⟩
        next store appended =>
          -- The store takes the next height and no other, so the body is one that has to open.
          obtain ⟨why, refused⟩ | ⟨next, taken, _⟩ :=
            Store.append_refines stands.holds commits height body
          · rw [refused] at appended
            simp at appended
          obtain ⟨openable, later⟩ := opens next taken
          obtain ⟨⟨effects, at_⟩, read⟩ := Option.isSome_iff_exists.mp openable
          obtain ⟨rfl, n1, folded, stands1⟩ := stands.applied env above appended effects at_
          have head : n1.store.head = m.head + 1 :=
            (stands1 n1.mesh).holds.head.trans (m.head_push body)
          obtain ⟨goes, n', m', synced, stands', grown⟩ :=
            ih (stands1 n1.mesh.appended) (by rw [head]; exact later)
          refine ⟨goes, n', m', ?_, stands', grown.push openable⟩
          simp only [read, folded, Option.bind_eq_bind, Option.bind_some]
          exact synced

/-- A page with a body that does not open ends the process, and leaves the body in the log. -/
theorem syncRows_panics {env : Env A B H} {commits : Bool} {rows : List (BlockRow B)}
    {n : Node A B H} {m : ChainLog B B} (stands : AtHead n m)
    (bad : ¬ PageOpens env commits n.store.head rows) :
    n.syncRows env commits rows = none ∧
      ∃ m', Store.Holds (n.store.afterRows env commits rows) m' ∧ ¬ Readable env m' := by
  induction rows generalizing n m with
  | nil => exact absurd trivial bad
  | cons row rows ih =>
    obtain ⟨height, body⟩ := row
    unfold syncRows Store.afterRows
    unfold PageOpens at bad
    split
    next low =>
      rw [if_pos low] at bad
      exact ih stands bad
    next above =>
      rw [if_neg above] at bad
      cases body with
      | none => exact absurd trivial bad
      | some body =>
        simp only [Classical.not_imp] at bad ⊢
        obtain ⟨next, taken, bad⟩ := bad
        have small := stands.holds.small
        have head := stands.holds.head
        -- A full log would wrap to a height that is not above it.
        have room : n.store.head + 1 < 2 ^ 64 := by
          refine Nat.lt_of_le_of_ne (head ▸ small) fun full => above ?_
          rw [next, u64Succ, full, Nat.mod_self]
          exact Nat.zero_le _
        have height_eq : height = m.head + 1 := by rw [next, u64Succ_of_lt room, head]
        subst height_eq
        subst taken
        obtain ⟨store, appended, held⟩ := stands.holds.append (head ▸ room) body
        simp only [appended]
        cases read : env.openBody body with
        -- The body that does not open is on disk before it is read.
        | none =>
          refine ⟨rfl, m.push body, held, fun readable => ?_⟩
          have opens := readable.bodies body (by simp [ChainLog.push])
          simp [read] at opens
        | some opened =>
          obtain ⟨effects, at_⟩ := opened
          obtain ⟨_, n1, folded, stands1⟩ := stands.applied env above appended effects at_
          have store_eq : n1.store = store := by rw [applyBlock_eq folded]
          simp only [read, Option.isSome_some, true_and] at bad
          obtain ⟨panics, m', left, unreadable⟩ := ih (stands1 n1.mesh.appended) (by
            have at_head := (stands1 n1.mesh).holds.head.trans (m.head_push body)
            exact at_head ▸ bad)
          simp only [folded, Option.bind_eq_bind, Option.bind_some, Option.isSome_some, if_true]
          exact ⟨panics, m', by rw [← store_eq]; exact left, unreadable⟩

/-- A push takes what it can and refuses the rest. -/
theorem pushRows_grows (env : Env A B H) (commits : Nat → Bool) (rows : List (BlockRow B))
    {n : Node A B H} {m : ChainLog B B} (stands : AtHead n m) :
    ∃ why n' m', n.pushRows env commits rows = some (why, n') ∧ AtHead n' m' ∧
      GrownBy env rows m m' := by
  induction rows generalizing n m with
  | nil => exact ⟨none, n, m, rfl, stands, .refl env [] m⟩
  | cons row rows ih =>
    obtain ⟨height, body⟩ := row
    unfold pushRows
    simp only
    -- Whatever does not fit is refused before the store is touched.
    split
    · obtain ⟨why, n', m', pushed, stands', grown⟩ := ih stands
      exact ⟨why, n', m', pushed, stands', grown.more _⟩
    next above =>
      split
      · exact ⟨none, n, m, rfl, stands, .refl env _ m⟩
      · cases body with
        | none => exact ⟨_, n, m, rfl, stands, .refl env _ m⟩
        | some body =>
          simp only
          split
          · exact ⟨_, n, m, rfl, stands, .refl env _ m⟩
          next effects at_ read =>
            split
            · exact ⟨_, n, m, rfl, stands, .refl env _ m⟩
            next store appended =>
              obtain ⟨rfl, n1, folded, stands1⟩ := stands.applied env above appended effects at_
              obtain ⟨why, n', m', pushed, stands', grown⟩ := ih (stands1 n1.mesh.appended)
              refine ⟨why, n', m', ?_, stands', grown.push (read ▸ rfl)⟩
              simp only [folded, Option.bind_eq_bind, Option.bind_some]
              exact pushed

/-! ## Starting again -/

theorem open_returns {env : Env A B H} {s : Store B B} {m : ChainLog B B}
    (holds : Store.Holds s m) (readable : Readable env m) (mesh : Mesh) :
    (open_ env s mesh).isSome = true := by
  obtain ⟨n', reloaded, _⟩ :=
    reloadFromStore_returns readable (n := started env s mesh) holds
  have opened : open_ env s mesh = some n' := reloaded
  exact opened ▸ rfl

theorem open_panics {env : Env A B H} {s : Store B B} {m : ChainLog B B}
    (holds : Store.Holds s m) (unreadable : ¬ Readable env m) (mesh : Mesh) :
    open_ env s mesh = none := by
  cases opened : open_ env s mesh with
  | none => rfl
  | some n' =>
    have reloaded : (started env s mesh).reloadFromStore env = some n' := opened
    exact absurd (Readable.of_reload (n := started env s mesh) holds reloaded) unreadable

/-- A follower that is told of a leader hears it out, whatever its mesh makes of that. -/
theorem hear_returns (env : Env A B H) {n : Node A B H} {m : ChainLog B B} (stands : AtHead n m)
    (folding : n.producing = false) (leader : Status) (now : Nat) (commits : Bool) :
    ∃ n', n.hear env leader now commits = some n' ∧ Store.Holds n'.store m ∧
      (n'.producing = false → AtHead n' m) := by
  have saved : ∀ mesh : Mesh, AtHead ({ n with mesh := mesh }.saveHard env commits) m ∧
      ({ n with mesh := mesh }.saveHard env commits).producing = false := by
    intro mesh
    have held := saveHard_holds (n := { n with mesh := mesh }) stands.holds env commits
    rw [saveHard_eq] at held ⊢
    exact ⟨⟨held, stands.seated, stands.next⟩, folding⟩
  obtain ⟨stands', folding'⟩ := saved (n.mesh.onInbound leader now)
  unfold hear followMesh
  generalize { n with mesh := n.mesh.onInbound leader now }.saveHard env commits = n1 at *
  -- The route is all that following changes beside the role.
  have route : ∀ k : Node A B H, (k.takeRoute now).store = k.store ∧
      (k.takeRoute now).ext = k.ext ∧ (k.takeRoute now).block = k.block ∧
      (k.takeRoute now).producing = k.producing := by
    intro k
    unfold takeRoute
    simp only
    split <;> exact ⟨rfl, rfl, rfl, rfl⟩
  simp only [takeRole, folding', Bool.not_false, Bool.and_true, Bool.and_false, Bool.false_eq_true,
    if_false, Option.bind_eq_bind, Option.pure_def]
  split
  · simp only [Option.bind_some]
    refine ⟨_, rfl, ?_, fun no => ?_⟩
    · rw [(route _).1, drainAbsorb_eq]
      exact stands'.holds
    · rw [(route _).2.2.2, drainAbsorb_eq] at no
      simp at no
  · simp only [Option.bind_some]
    obtain ⟨store, ext, block, _⟩ := route n1
    refine ⟨_, rfl, store ▸ stands'.holds, fun _ => ⟨store ▸ stands'.holds, ?_, ?_⟩⟩
    · rw [ext, block]
      exact stands'.seated
    · rw [block]
      exact stands'.next

/-! ## Both paths -/

/-- A pull takes of a page what it should, and leaves a store that a process starts on. -/
def PullSound (env : Env A B H) (n : Node A B H) (m : ChainLog B B) (commits : Commits)
    (peer : Route) (rows : List (BlockRow B)) : Prop :=
  ∃ goes n' m', n.takePage env commits peer rows = some (goes, n') ∧ Store.Holds n'.store m' ∧
    GrownBy env rows m m' ∧ ∀ mesh, (open_ env n'.store mesh).isSome = true

/-- A push does. -/
def PushSound (env : Env A B H) (n : Node A B H) (m : ChainLog B B) (leader : Status) (now : Nat)
    (commits : PushCommits) (rows : List (BlockRow B)) : Prop :=
  ∃ reply n' m', n.chainPush env leader now commits (.blocks rows) = some (reply, n') ∧
    Store.Holds n'.store m' ∧ GrownBy env rows m m' ∧
    ∀ mesh, (open_ env n'.store mesh).isSome = true

theorem pushSound {env : Env A B H} {n : Node A B H} {m : ChainLog B B} (stands : AtHead n m)
    (folding : n.producing = false) (readable : Readable env m) (leader : Status) (now : Nat)
    (commits : PushCommits) (rows : List (BlockRow B)) :
    PushSound env n m leader now commits rows := by
  obtain ⟨n1, heard, held, stands1⟩ := hear_returns env stands folding leader now commits.aux
  unfold PushSound chainPush
  simp only [heard, Option.bind_eq_bind, Option.bind_some]
  split
  · exact ⟨_, n1, m, rfl, held, .refl env rows m, open_returns held readable⟩
  next accepts =>
    have folding1 : n1.producing = false := by
      simp only [Bool.or_eq_true, not_or, Bool.not_eq_true] at accepts
      exact accepts.1
    obtain ⟨why, n', m', pushed, stands', grown⟩ :=
      pushRows_grows env commits.append rows (stands1 folding1)
    -- What a push brings opens, so the log it leaves is one the process can start from.
    have starts := grown.readable readable
    cases why with
    | none =>
      refine ⟨(n'.saveHard env commits.aux).pushReply none, n'.saveHard env commits.aux, m', ?_,
        saveHard_holds stands'.holds env _, grown,
        open_returns (saveHard_holds stands'.holds env _) starts⟩
      simp only [takePush, pushed, Option.bind_eq_bind, Option.bind_some, Option.pure_def]
    | some why =>
      refine ⟨n'.pushReply (some why), n', m', ?_, stands'.holds, grown,
        open_returns stands'.holds starts⟩
      simp only [takePush, pushed, Option.bind_eq_bind, Option.bind_some, Option.pure_def]

theorem pullSound {env : Env A B H} {n : Node A B H} {peer : Route} {m : ChainLog B B}
    (tails : Tailing n peer m) (readable : Readable env m) (commits : Commits)
    {rows : List (BlockRow B)} (opens : PageOpens env commits.append n.store.head rows) :
    PullSound env n m commits peer rows := by
  obtain ⟨goes, n', m', synced, stands', grown⟩ := syncRows_grows tails.atHead opens
  have starts := grown.readable readable
  unfold PullSound takePage
  simp only [tails.not_followsNot, Bool.false_eq_true, if_false, synced, Option.bind_eq_bind,
    Option.bind_some, Option.pure_def, Option.some.injEq]
  cases goes with
  | true =>
    exact ⟨_, _, m', rfl, saveHard_holds stands'.holds env _, grown,
      open_returns (saveHard_holds stands'.holds env _) starts⟩
  | false => exact ⟨_, _, m', rfl, stands'.holds, grown, open_returns stands'.holds starts⟩

/-- A push never stores what does not read. A pull keeps to that exactly if every body it gets
to store opens. -/
theorem rows_sound {env : Env A B H} {n : Node A B H} {peer : Route} {m : ChainLog B B}
    (tails : Tailing n peer m) (readable : Readable env m) (rows : List (BlockRow B)) :
    (∀ commits, PullSound env n m commits peer rows ↔
      PageOpens env commits.append n.store.head rows) ∧
    ∀ leader now commits, PushSound env n m leader now commits rows := by
  refine ⟨fun commits => ⟨fun sound => ?_, pullSound tails readable commits⟩,
    fun leader now commits =>
      pushSound tails.atHead tails.folding readable leader now commits rows⟩
  by_contra bad
  obtain ⟨goes, n', m', taken, _⟩ := sound
  have panics := (syncRows_panics tails.atHead bad).1
  simp [takePage, tails.not_followsNot, panics] at taken

end Executing

/-! ## A body from a newer build -/

/-- A page with the next block, whose body is no body. -/
def badPage : List (BlockRow (Plain Nat)) := [⟨1, some (soloSnapshot 0)⟩]

theorem genesis_readable {env : Env A B H} : Readable env (ChainLog.genesis : ChainLog B B) :=
  ⟨by simp [ChainLog.genesis], by simp [ChainLog.genesis]⟩

/-- A page with one good block. -/
theorem rows_sound_good :
    ∃ n, (soloReplica freshStore).reloadFromStore soloEnv = some n ∧
      PullSound soloEnv n .genesis {} "http://sora" [⟨1, some (soloBlock 1)⟩] := by
  obtain ⟨n, reloaded, tails, _⟩ := soloReplica_reloads genesis_readable freshStore_holds
  refine ⟨n, reloaded, ((rows_sound tails genesis_readable _).1 {}).mpr ?_⟩
  rw [tails.holds.head]
  exact fun _ _ => ⟨rfl, trivial⟩

/-- The pull stores the body, the process ends, and no start on that store succeeds. -/
theorem rows_sound_corrupt :
    ∃ n, (soloReplica freshStore).reloadFromStore soloEnv = some n ∧
      n.takePage soloEnv {} "http://sora" badPage = none ∧
      ∀ mesh, open_ soloEnv (n.store.afterRows soloEnv true badPage) mesh = none := by
  obtain ⟨n, reloaded, tails, _⟩ := soloReplica_reloads genesis_readable freshStore_holds
  have bad : ¬ PageOpens soloEnv true n.store.head badPage := by
    rw [tails.holds.head]
    intro opens
    have read := (opens rfl rfl).1
    simp [soloEnv, Env.plain, soloSnapshot] at read
  obtain ⟨panics, m', left, unreadable⟩ := syncRows_panics tails.atHead bad
  refine ⟨n, reloaded, ?_, open_panics left unreadable⟩
  simp [takePage, tails.not_followsNot, panics]

end Node

end AkumaMiot

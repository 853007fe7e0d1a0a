import AkumaMiot.Node.Follow

/-!
# What is extended is the leader's own log

What a leader writes in its term is one log, and it answers with that log and pushes it. A
comparison that is over leaves a member's log with no block that the leader's has another for.
-/
namespace AkumaMiot

variable {A B H : Type}

namespace Store

variable {β σ : Type} {leader : Nat → β} {adds : Nat → β → Prop} {s s' : Store β σ}

/-- No block differs from the leader's at its height, which is a 64-bit number. -/
def Agrees (leader : Nat → β) (s : Store β σ) : Prop :=
  ∀ h b, h < 2 ^ 64 → s.Has h b → b = leader h

/-- Only blocks above `lo` and up to `hi` may differ. -/
def AgreesBut (leader : Nat → β) (lo hi : Nat) (s : Store β σ) : Prop :=
  ∀ h b, h < 2 ^ 64 → s.Has h b → b = leader h ∨ (lo < h ∧ h ≤ hi)

theorem Agrees.grows (agrees : s.Agrees leader) (from_ : From adds s s')
    (added : ∀ h b, adds h b → b = leader h) : s'.Agrees leader :=
  fun h b small has => (from_ h b has).elim (agrees h b small) (added h b)

theorem AgreesBut.grows {lo hi : Nat} (agrees : s.AgreesBut leader lo hi) (from_ : From adds s s')
    (added : ∀ h b, adds h b → b = leader h) : s'.AgreesBut leader lo hi :=
  fun h b small has => (from_ h b has).elim (agrees h b small) fun new => .inl (added h b new)

theorem Agrees.of_empty (empty : s.head = s.lastCheckpoint) : s.Agrees leader :=
  fun h b _ has => absurd (has.1.trans_le has.2.1) (by omega)

/-- The blocks that a fork was looked for in agree up to it. -/
theorem forkPoint_go_agrees [DecidableEq β] {theirs : List β} {agreed start : Nat}
    (heard : ∀ i t, theirs[i]? = some t → start + i < 2 ^ 64 → t = leader (start + i))
    (below : agreed < start) {k : Nat} (above : start ≤ k) (small : k < 2 ^ 64)
    (within : k ≤ forkPoint.go s agreed start theirs) : s.block k = some (leader k) := by
  induction theirs generalizing agreed start with
  | nil =>
    unfold forkPoint.go at within
    omega
  | cons t theirs ih =>
    unfold forkPoint.go at within
    split at within
    next same =>
      have first : t = leader start := heard 0 t rfl (by omega)
      rcases Nat.eq_or_lt_of_le above with rfl | later
      · rw [same, first]
      · have next : u64Succ start = start + 1 := Nat.mod_eq_of_lt (by omega)
        rw [next] at within
        refine ih (fun i t found => ?_) (Nat.lt_succ_self _) later within
        have := heard (i + 1) t found
        rwa [show start + (i + 1) = start + 1 + i by omega] at this
    · omega

theorem forkPoint_agrees [DecidableEq β] {theirs : List β} {last : Nat}
    (heard : ∀ i t, theirs[i]? = some t → last + 1 + i < 2 ^ 64 → t = leader (last + 1 + i))
    {k : Nat} (above : last < k) (small : k < 2 ^ 64)
    (within : k ≤ s.forkPoint (u64Succ last) theirs) : s.block k = some (leader k) := by
  have next : u64Succ last = last + 1 := Nat.mod_eq_of_lt (by omega)
  unfold forkPoint at within
  rw [next] at within
  exact forkPoint_go_agrees heard (by omega) above small within

end Store

/-- The bodies of a page that is the leader's log from `start` on. -/
theorem decodedBodies_served (leader : Nat → B) (start count : Nat) :
    decodedBodies ((List.range' start count).map fun h => ⟨h, some (leader h)⟩) =
      (List.range' start count).map leader := by
  induction count generalizing start with
  | zero => rfl
  | succ count ih =>
    rw [List.range'_succ, List.map_cons, decodedBodies, ih, List.map_cons]

namespace Stage

/-- What a round knows of the peer it follows: where the log may still differ from the leader's,
and that what it was given is the leader's. -/
def Fits (leader : Nat → B) (s : Store B B) : Stage B → Prop
  | owed | diverged _ => True
  | asked myHead myCp | adopting myHead myCp => s.AgreesBut leader myCp myHead
  | comparing myHead myCp start theirs => s.AgreesBut leader myCp myHead ∧
      start = (myCp + 1 + theirs.length) % 2 ^ 64 ∧
      ∀ i t, theirs[i]? = some t → myCp + 1 + i < 2 ^ 64 → t = leader (myCp + 1 + i)
  | forking myHead myCp theirs => s.AgreesBut leader myCp myHead ∧
      ∀ i t, theirs[i]? = some t → myCp + 1 + i < 2 ^ 64 → t = leader (myCp + 1 + i)
  | compared | tailing | catching _ | next _ | paging _ => s.Agrees leader

/-- The rows awaited are of the leader's log, and those to compare leave no block out. -/
def Served (leader : Nat → B) (rows : List (BlockRow B)) : Stage B → Prop
  | comparing _ _ start _ =>
    rows = (List.range' start rows.length).map fun h => ⟨h, some (leader h)⟩
  | paging _ => ∀ row ∈ rows, ∀ b ∈ row.body, b = leader row.height
  | _ => True

instance [DecidableEq B] (leader : Nat → B) (rows : List (BlockRow B)) (stage : Stage B) :
    Decidable (stage.Served leader rows) := by
  cases stage <;> unfold Served <;> infer_instance

variable {leader : Nat → B} {adds : Nat → B → Prop} {s s' : Store B B}

theorem Fits.grows {stage : Stage B} (fits : stage.Fits leader s) (from_ : Store.From adds s s')
    (added : ∀ h b, adds h b → b = leader h) : stage.Fits leader s' := by
  cases stage with
  | owed => trivial
  | diverged fork => trivial
  | asked myHead myCp => exact Store.AgreesBut.grows fits from_ added
  | adopting myHead myCp => exact Store.AgreesBut.grows fits from_ added
  | comparing myHead myCp start theirs => exact ⟨fits.1.grows from_ added, fits.2⟩
  | forking myHead myCp theirs => exact ⟨fits.1.grows from_ added, fits.2⟩
  | compared => exact Store.Agrees.grows fits from_ added
  | tailing => exact Store.Agrees.grows fits from_ added
  | catching head => exact Store.Agrees.grows fits from_ added
  | next head => exact Store.Agrees.grows fits from_ added
  | paging head => exact Store.Agrees.grows fits from_ added

theorem fits_compare {myHead myCp : Nat} (agrees : s.AgreesBut leader myCp myHead) :
    (compare myHead myCp : Stage B).Fits leader s := by
  unfold compare
  split
  next none_ =>
    subst none_
    exact fun h b small has => (agrees h b small has).resolve_right (by omega)
  · split
    · exact ⟨agrees, rfl, nofun⟩
    · exact ⟨agrees, nofun⟩

/-- A page more of what the leader wrote. -/
theorem heard_more {myCp start : Nat} (count : Nat) {theirs : List B}
    (begins : start = (myCp + 1 + theirs.length) % 2 ^ 64)
    (heard : ∀ i t, theirs[i]? = some t → myCp + 1 + i < 2 ^ 64 → t = leader (myCp + 1 + i)) :
    ∀ i t, (theirs ++ (List.range' start count).map leader)[i]? = some t →
      myCp + 1 + i < 2 ^ 64 → t = leader (myCp + 1 + i) := by
  intro i t found small
  by_cases old : i < theirs.length
  · rw [List.getElem?_append_left old] at found
    exact heard i t found small
  · rw [List.getElem?_append_right (not_lt.mp old), List.getElem?_map] at found
    obtain ⟨h, at_, rfl⟩ := Option.map_eq_some_iff.mp found
    rw [Nat.mod_eq_of_lt (by omega)] at begins
    obtain ⟨within, rfl⟩ := List.getElem?_eq_some_iff.mp at_
    rw [List.getElem_range']
    congr 1
    omega

theorem fits_page {myHead myCp start : Nat} {theirs : List B} {rows : List (BlockRow B)}
    (fits : (comparing myHead myCp start theirs).Fits leader s)
    (served : rows = (List.range' start rows.length).map fun h => ⟨h, some (leader h)⟩) :
    (if (start + rows.length) % 2 ^ 64 ≤ myHead then
        comparing myHead myCp ((start + rows.length) % 2 ^ 64) (theirs ++ decodedBodies rows)
      else forking myHead myCp (theirs ++ decodedBodies rows)).Fits leader s := by
  obtain ⟨agrees, begins, heard⟩ := fits
  have bodies : decodedBodies rows = (List.range' start rows.length).map leader := by
    rw [served, decodedBodies_served, List.length_map, List.length_range']
  have more := heard_more rows.length begins heard
  rw [← bodies] at more
  have count : (decodedBodies rows).length = rows.length := by simp [bodies]
  split
  · refine ⟨agrees, ?_, more⟩
    rw [begins, List.length_append, count, ← Nat.add_assoc, Nat.mod_add_mod]
  · exact ⟨agrees, more⟩

end Stage

namespace Node

variable {env : Env A B H} {n n' : Node A B H}

/-- Writing the election's state down leaves the heights alone. -/
theorem saveHard_heights (n : Node A B H) (env : Env A B H) (commits : Bool) :
    (n.saveHard env commits).store.head = n.store.head ∧
      (n.saveHard env commits).store.lastCheckpoint = n.store.lastCheckpoint := by
  unfold saveHard
  cases dirty : n.mesh.takeDirty with
  | mk hard mesh =>
    cases hard with
    | none => exact ⟨rfl, rfl⟩
    | some h => cases commits <;> exact ⟨rfl, rfl⟩

section Executing

variable [DecidableEq A]

/-- A checkpoint that was adopted leaves no block above it. -/
theorem takeCheckpoint_empty {commits : Commits} {peer : Route} {answer : Option (Nat × B)}
    (taken : n.takeCheckpoint env commits peer answer = some (true, n')) :
    n'.store.head = n'.store.lastCheckpoint := by
  unfold takeCheckpoint at taken
  split at taken
  · cases taken
  · split at taken
    · cases taken
    · split at taken
      · cases taken
      next store adopts =>
        simp only [Option.bind_eq_bind, Option.bind_eq_some_iff, Option.pure_def] at taken
        obtain ⟨m, reloaded, taken⟩ := taken
        cases taken
        have kept : m.store = store := by rw [reloadFromStore_refolded reloaded]
        have empty : m.store.head = m.store.lastCheckpoint :=
          kept ▸ Store.adoptCheckpoint_empty adopts
        obtain ⟨head, lastCheckpoint⟩ :=
          saveHard_heights { m with mesh := m.mesh.appended } env commits.aux
        exact head.trans (empty.trans lastCheckpoint.symm)

/-- Nor does a rewind. -/
theorem rewind_empty {commits : Bool} {peer : Route} {fork : Nat}
    (follows : n.followsNot peer = false)
    (rewound : n.rewind env commits peer fork = some n') :
    n'.store.head = n'.store.lastCheckpoint := by
  unfold rewind at rewound
  rw [follows] at rewound
  simp only [Bool.false_eq_true, if_false] at rewound
  split at rewound
  · cases rewound
  next r store rewinds =>
    rw [reloadFromStore_refolded rewound]
    exact Store.rewindForFork_empty rewinds

end Executing

end Node

namespace Follower

/-- A page that was put on a log found no block on it that the leader of the term has another
for. -/
def Undiverged (leaders : Nat → Nat → B) (f : Follower A B H) : Prop :=
  ∀ peer term log, .pulled peer term log ∈ f.happened → log.Agrees (leaders term)

/-- Who is asked or pushes answers with what the leader of the term wrote. -/
def Serves (leaders : Nat → Nat → B) (f : Follower A B H) : FollowEvent B H → Prop
  | .pull (.blocks rows _) => ∀ r ∈ f.round, r.since = some f.process.node.mesh.term →
    r.stage.Served (leaders f.process.node.mesh.term) rows
  | .other (.push leader _ _ (.blocks rows)) =>
    ∀ row ∈ rows, ∀ b ∈ row.body, b = leaders leader.term row.height
  | _ => True

/-- Nothing on the log of who tails differs from the leader's log. -/
structure Same (leaders : Nat → Nat → B) (f : Follower A B H) : Prop where
  settled : ∀ q, f.process.node.peer = some q → f.process.node.needsReconcile = false →
    f.process.node.store.Agrees (leaders f.process.node.mesh.term)
  fits : ∀ r ∈ f.round, r.since = some f.process.node.mesh.term →
    r.stage.Fits (leaders f.process.node.mesh.term) f.process.node.store
  undiverged : f.Undiverged leaders

variable {env : Env A B H} {readHard : List UInt8 → Option Hard} {leaders : Nat → Nat → B}

/-- A part of a round that adds only blocks of the leader's. -/
theorem Same.moves {f : Follower A B H} (same : Same leaders f) {n : Node A B H}
    {adds : Nat → B → Prop} (stays : f.process.node.Stays adds n)
    (added : ∀ q, f.process.node.peer = some q → ∀ h b, adds h b →
      b = leaders f.process.node.mesh.term h) {round : Option (Round B)}
    (fits : ∀ r ∈ round, r.since = some f.process.node.mesh.term →
      r.stage.Fits (leaders f.process.node.mesh.term) n.store) : Same leaders (f.now n round) where
  settled q follows owed := by
    have was : f.process.node.peer = some q := stays.peer ▸ follows
    have agrees := (same.settled q was (stays.owed ▸ owed)).grows stays.log (added q was)
    rw [← stays.term] at agrees
    exact agrees
  fits r under since := by
    have fits := fits r under (stays.term ▸ since)
    rw [← stays.term] at fits
    exact fits
  undiverged := same.undiverged

/-- A part of a round that adds nothing. -/
theorem Same.goesOn {f : Follower A B H} (same : Same leaders f) {n : Node A B H}
    (stays : f.process.node.Stays (fun _ _ => False) n) {peer : Route} {stage : Stage B}
    {since : Option Nat} (fits : since = some f.process.node.mesh.term →
      stage.Fits (leaders f.process.node.mesh.term) n.store) :
    Same leaders (f.now n (some ⟨peer, stage, since⟩)) :=
  same.moves stays (fun _ _ _ _ none_ => none_.elim) fun r' under counts => by
    obtain rfl := Option.some.inj under
    exact fits counts

theorem Same.ends {f : Follower A B H} (same : Same leaders f) {n : Node A B H}
    (stays : f.process.node.Stays (fun _ _ => False) n) : Same leaders (f.now n none) :=
  same.moves stays (fun _ _ _ _ none_ => none_.elim) nofun

theorem begin_same {f : Follower A B H} (same : Same leaders f) : Same leaders f.begin_ := by
  unfold begin_
  simp only
  split
  next peer _ follows =>
    split
    · exact same
    · split
      · refine ⟨same.settled, fun r after _ => ?_, same.undiverged⟩
        obtain rfl := Option.some.inj after
        trivial
      next owed =>
        have agrees := same.settled peer follows (by simpa using owed)
        refine ⟨same.settled, fun r after _ => ?_, same.undiverged⟩
        obtain rfl := Option.some.inj after
        exact agrees
  · exact same

theorem open_same [DecidableEq A] {f : Follower A B H} {cfg : NodeConfig} {store : Store B B}
    {p : Process A B H} (votes : cfg.learner = false)
    (opened : Process.open_ env readHard cfg store = some p) (undiverged : f.Undiverged leaders) :
    Same leaders { f with process := p, round := none } := by
  obtain ⟨_, nobody⟩ := open_member votes opened
  exact ⟨fun q follows => by simp [nobody] at follows, nofun, undiverged⟩

section Running

variable [DecidableEq A]

/-- A page that the leader served. -/
theorem Same.paged {f : Follower A B H} (inv : Inv f) (same : Same leaders f) {r : Round B}
    {head : Nat}
    (under : f.round = some r) (paging : r.stage = .paging head) {rows : List (BlockRow B)}
    {commits : Commits} (serves : f.Serves leaders (.pull (.blocks rows commits))) {goes : Bool}
    {n : Node A B H} (taken : f.process.node.takePage env commits r.peer rows = some (goes, n)) :
    Same leaders { f.now n (if goes then some { r with stage := .next head } else none) with
      happened := if f.process.node.followsNot r.peer then f.happened
        else .pulled r.peer f.process.node.mesh.term f.process.node.store :: f.happened } := by
  have fits := same.fits r under
  rw [paging] at fits
  cases follows : f.process.node.followsNot r.peer with
  | true =>
    -- Nothing is put on the log.
    unfold Node.takePage at taken
    rw [follows] at taken
    cases taken
    exact same.ends (.refl _)
  | false =>
    have peer : f.process.node.peer = some r.peer := by
      simpa [Node.followsNot] using (Bool.or_eq_false_iff.mp follows).2
    have counts := inv.counts r under (by rw [paging]; rfl) peer
    have served := serves r under counts
    rw [paging] at served
    have stays : f.process.node.Stays
        (fun h b => ∃ row ∈ rows, row.height = h ∧ row.body = some b) n :=
      Node.TakesIn.stays (.takePage (fun row member b body => ⟨row, member, rfl, body⟩) taken)
    have added : ∀ h b, (∃ row ∈ rows, row.height = h ∧ row.body = some b) →
        b = leaders f.process.node.mesh.term h := by
      rintro h b ⟨row, member, rfl, body⟩
      exact served row member b body
    have kept : Same leaders
        (f.now n (if goes then some { r with stage := .next head } else none)) := by
      refine same.moves stays (fun _ _ => added) fun r' after _ => ?_
      cases goes with
      | true =>
        obtain rfl := Option.some.inj after
        exact Store.Agrees.grows (fits counts) stays.log added
      | false => cases after
    refine ⟨kept.settled, kept.fits, fun q term log pulled => ?_⟩
    rcases List.mem_cons.mp pulled with new | old
    · cases new
      exact fits counts
    · exact same.undiverged q term log old

/-- Whatever else the process does. A leader's push is the only thing that adds to the log of who
does not stand. -/
theorem other_same [DecidableEq H] {f : Follower A B H} (inv : Inv f) (same : Same leaders f)
    {e : ProcessEvent B H} (seen : f.Seen (.other e)) (serves : f.Serves leaders (.other e))
    (pulls : e.pulls = false) (runs : e.restarts = false) {p : Process A B H}
    (stepped : f.process.step env readHard e = some p) :
    Same leaders { f with process := p } := by
  obtain ⟨_, turns, from_⟩ := Process.step_turns inv.member pulls runs stepped
  have later := turns.later
  have added : ¬ f.process.node.mesh.Stands → ∀ h b,
      e.brings f.process.node p.node.mesh.term h b → b = leaders p.node.mesh.term h := by
    intro quiet h b brought
    cases e with
    | push leader now commits op =>
      obtain ⟨brings, term⟩ := brought
      cases op with
      | blocks rows =>
        obtain ⟨row, member, rfl, body⟩ := brings
        rw [← term]
        exact serves row member b body
      | _ => exact brings.elim
    | close at_ commits =>
      -- Who does not stand closes no block.
      have leads : f.process.node.producing = true := brought
      rw [inv.member.role] at leads
      exact absurd (.inl (by simpa [Mesh.isLeader] using leads)) quiet
    | _ => exact brought.elim
  refine ⟨fun q follows owed => ?_, fun r under since => ?_, same.undiverged⟩
  · by_cases was : f.process.node.peer = some q
    · have settled := (turns.stays q follows was).symm.trans owed
      have agrees := same.settled q was settled
      rw [← settled_kept turns seen follows was settled] at agrees
      exact agrees.grows from_ (added (follows_stands inv was))
    · have owes := turns.owed q follows was
      rw [owes] at owed
      cases owed
  · -- A round that counts does so in the term it was in.
    have since : r.since = some p.node.mesh.term := since
    obtain ⟨past, quiet⟩ := inv.stands r under _ since
    have term : p.node.mesh.term = f.process.node.mesh.term := by omega
    have fits := same.fits r under (since.trans (congrArg some term))
    rw [← term] at fits
    exact fits.grows from_ (added (quiet term))

variable [DecidableEq B]

theorem pull_same {f f' : Follower A B H} (inv : Inv f) (same : Same leaders f) {r : Round B}
    (under : f.round = some r) {e : PullEvent B} (serves : f.Serves leaders (.pull e))
    (pulled : f.pull env r e = some f') : Same leaders f' := by
  have still : f.process.node.Stays (fun _ _ => False) f.process.node := .refl _
  have fits := same.fits r under
  unfold pull at pulled
  simp only at pulled
  split at pulled
  next commits owed =>
    cases pulled
    -- Whatever is on the log lies between our checkpoint and our head.
    exact same.goesOn still fun _ h b _ has => .inr ⟨has.1, has.2.1⟩
  next =>
    cases pulled
    exact same.ends still
  next myHead myCp ph asked =>
    rw [asked] at fits
    split at pulled
    · cases pulled
      exact same.goesOn still fun _ => trivial
    · split at pulled
      · cases pulled
        exact same.goesOn still fun counts => Stage.fits_compare (fits counts)
      · cases pulled
        exact same.goesOn still fits
  next myHead myCp answer commits adopting =>
    rw [adopting] at fits
    simp only [Option.bind_eq_bind, Option.bind_eq_some_iff, Option.pure_def,
      Option.some.injEq] at pulled
    obtain ⟨⟨adopted, n⟩, taken, rfl⟩ := pulled
    have stays : f.process.node.Stays (fun _ _ => False) n := (Node.TakesIn.takeCheckpoint taken).stays
    refine same.goesOn stays fun counts => ?_
    cases adopted with
    | true => exact .of_empty (Node.takeCheckpoint_empty taken)
    | false =>
      refine Stage.fits_compare (Store.AgreesBut.grows (fits counts) stays.log ?_)
      exact fun _ _ none_ => none_.elim
  next myHead myCp start theirs rows commits comparing =>
    rw [comparing] at fits
    split at pulled
    · cases pulled
      refine same.goesOn still fun counts => ?_
      obtain ⟨agrees, _, heard⟩ := fits counts
      exact ⟨agrees, heard⟩
    · cases pulled
      refine same.goesOn still fun counts => Stage.fits_page (fits counts) ?_
      have served := serves r under counts
      rw [comparing] at served
      exact served
  next myHead myCp theirs commits forking =>
    rw [forking] at fits
    cases pulled
    refine same.goesOn still fun counts => ?_
    obtain ⟨agrees, heard⟩ := fits counts
    split
    · trivial
    next shares =>
      intro h b small has
      rcases agrees h b small has with agreed | ⟨above, within⟩
      · exact agreed
      · have read := Store.forkPoint_agrees heard above small (within.trans (not_lt.mp shares))
        exact Option.some.inj (has.2.2.symm.trans read)
  next fork commits diverged =>
    simp only [Option.bind_eq_bind, Option.bind_eq_some_iff, Option.pure_def,
      Option.some.injEq] at pulled
    obtain ⟨n, rewound, rfl⟩ := pulled
    refine same.goesOn (Node.TakesIn.rewind rewound).stays fun counts => ?_
    have follows : f.process.node.peer = some r.peer := by
      by_contra other
      rw [if_neg other] at counts
      cases counts
    have takes : f.process.node.followsNot r.peer = false := by
      simp [Node.followsNot, inv.member.folding follows, follows]
    exact .of_empty (Node.rewind_empty takes rewound)
  next commits compared =>
    rw [compared] at fits
    split at pulled
    next follows =>
      cases pulled
      have agrees := fits (inv.counts r under (by rw [compared]; rfl) follows)
      refine ⟨fun q peer _ => agrees, fun r' after _ => ?_, fun peer term log pulled => ?_⟩
      · obtain rfl := Option.some.inj after
        exact agrees
      · refine same.undiverged peer term log ((List.mem_cons.mp pulled).resolve_left ?_)
        exact fun same => by cases same
    · cases pulled
      exact same.goesOn still fun begun => by cases begun
  next =>
    cases pulled
    exact same.ends still
  next ph tailing =>
    rw [tailing] at fits
    split at pulled
    · cases pulled
      exact same.goesOn still fits
    · cases pulled
      exact same.goesOn still fits
  next head answer commits catching =>
    rw [catching] at fits
    simp only [Option.bind_eq_bind, Option.bind_eq_some_iff, Option.pure_def,
      Option.some.injEq] at pulled
    obtain ⟨⟨adopted, n⟩, taken, rfl⟩ := pulled
    have stays : f.process.node.Stays (fun _ _ => False) n := (Node.TakesIn.takeCheckpoint taken).stays
    refine same.goesOn stays fun counts => ?_
    exact Store.Agrees.grows (fits counts) stays.log fun _ _ none_ => none_.elim
  next head commits next =>
    rw [next] at fits
    cases pulled
    split
    · exact same.ends still
    · exact same.goesOn still fits
  next head rows commits paging =>
    rw [paging] at fits
    split at pulled
    · cases pulled
      exact same.ends still
    · simp only [Option.bind_eq_bind, Option.bind_eq_some_iff, Option.pure_def,
        Option.some.injEq] at pulled
      obtain ⟨⟨goes, n⟩, taken, rfl⟩ := pulled
      exact same.paged inv under paging serves taken
  next =>
    cases pulled
    exact same

variable [DecidableEq H]

theorem step_same {f f' : Follower A B H} (inv : Inv f) (same : Same leaders f)
    {e : FollowEvent B H} (seen : f.Seen e) (votes : Votes e) (serves : f.Serves leaders e)
    (stepped : f.step env readHard e = some f') : Same leaders f' := by
  cases e with
  | pull e =>
    rcases step_pull stepped with ⟨_, rfl⟩ | rfl | ⟨r, under, pulled⟩
    · exact begin_same same
    · exact same
    · exact pull_same inv same under serves pulled
  | other e =>
    simp only [step] at stepped
    split at stepped
    · cases stepped
      exact same
    next pulls =>
      obtain ⟨p, moved, rfl⟩ := Option.map_eq_some_iff.mp stepped
      cases restarts : e.restarts with
      | false => exact other_same inv same seen serves (by simpa using pulls) restarts moved
      | true =>
        cases e with
        | restart cfg => exact open_same votes moved same.undiverged
        | _ => cases restarts

/-! ## Whole runs -/

/-- The process may have ended. -/
def SeenNext (f : Option (Follower A B H)) (e : FollowEvent B H) : Prop := ∀ g ∈ f, g.Seen e

def ServesNext (leaders : Nat → Nat → B) (f : Option (Follower A B H)) (e : FollowEvent B H) :
    Prop := ∀ g ∈ f, g.Serves leaders e

/-- A member that misses nothing puts no page on its log before it has compared the log with that
leader's, in the leader's term; and where leaders serve what they wrote, no page goes on top of a
block that the leader has another for. -/
theorem reconciled_run (env : Env A B H) (readHard : List UInt8 → Option Hard) (cfg : NodeConfig)
    (store : Store B B) (p : Process A B H) (votes : cfg.learner = false)
    (opened : Process.open_ env readHard cfg store = some p) (events : List (FollowEvent B H))
    (members : ∀ e ∈ events, Votes e)
    (seen : Machine.Meets (next_ env readHard) SeenNext (some (fresh p)) events)
    {f : Follower A B H}
    (reached : Machine.run (next_ env readHard) (some (fresh p)) events = some f) :
    Reconciled f.happened ∧ ∀ leaders : Nat → Nat → B,
      Machine.Meets (next_ env readHard) (ServesNext leaders) (some (fresh p)) events →
        f.Undiverged leaders := by
  have start : Inv (fresh p) := open_inv (f := fresh p) votes opened fun later _ _ _ _ none_ => by
    cases later <;> cases none_
  have votes' : Machine.Meets (next_ env readHard) (fun _ e => Votes e) (some (fresh p)) events :=
    Machine.meets_of_forall members
  have meets := Machine.meets_and seen votes'
  -- The order of what happened needs no leader; the agreement of the logs needs what the leaders
  -- serve.
  constructor
  · refine (Machine.run_invariant (fun f => ∀ g ∈ f, Inv g) ?_ ?_ meets f reached).ordered
    · rintro s e inv ⟨seen, votes⟩ g' stepped
      obtain ⟨g, rfl, stepped⟩ := Option.bind_eq_some_iff.mp stepped
      exact step_inv (inv g rfl) (seen g rfl) votes stepped
    · rintro g ⟨⟩
      exact start
  · intro leaders serves
    refine (Machine.run_invariant (fun f => ∀ g ∈ f, Inv g ∧ Same leaders g) ?_ ?_
      (Machine.meets_and meets serves) f reached).2.undiverged
    · rintro s e inv ⟨⟨seen, votes⟩, serves⟩ g' stepped
      obtain ⟨g, rfl, stepped⟩ := Option.bind_eq_some_iff.mp stepped
      obtain ⟨inv, same⟩ := inv g rfl
      exact ⟨step_inv inv (seen g rfl) votes stepped,
        step_same inv same (seen g rfl) votes (serves g rfl) stepped⟩
    · rintro g ⟨⟩
      exact ⟨start, open_same (f := fresh p) votes opened nofun⟩

end Running

instance (f : Follower A B H) (e : FollowEvent B H) : Decidable (f.Seen e) :=
  match e with
  | .pull _ => .isTrue trivial
  | .other e => inferInstanceAs (Decidable (∀ told ∈ e.told f.process.node.mesh,
      told.2.role = .leader →
        if f.process.node.peer = some told.1 then
          told.2.term ≤ f.process.node.mesh.term ∨ (f.process.node.needsReconcile = true ∧
            ∀ r ∈ f.round, r.peer = told.1 → r.stage.begun = false)
        else ∀ r ∈ f.round, r.peer = told.1 → r.stage.begun = true →
          told.2.term < f.process.node.mesh.term ∨ r.since = some told.2.term))

instance (f : Option (Follower A B H)) (e : FollowEvent B H) : Decidable (SeenNext f e) :=
  inferInstanceAs (Decidable (∀ g ∈ f, g.Seen e))

instance [DecidableEq B] (leaders : Nat → Nat → B) (f : Follower A B H) (e : FollowEvent B H) :
    Decidable (f.Serves leaders e) := by
  unfold Serves
  split <;> infer_instance

instance [DecidableEq B] (leaders : Nat → Nat → B) (f : Option (Follower A B H))
    (e : FollowEvent B H) : Decidable (ServesNext leaders f e) :=
  inferInstanceAs (Decidable (∀ g ∈ f, g.Serves leaders e))

/-! ## A member of two -/

/-- The member "b", which knows one route. -/
def secondConfig : NodeConfig := ⟨"b", ["a"], {}, false⟩

def secondProcess : Process Nat (Plain Nat) (Plain Nat) :=
  ⟨.started soloEnv (.openDb Store.emptyDb) (.new "b" ["a"] {} {} 0 (Process.seed "b")), none, [],
    none⟩

/-- On its route, "a" says that it leads. -/
def aLeads (term now : Nat) : FollowEvent (Plain Nat) (Plain Nat) :=
  .other (.round [("a", ⟨"a", "", term, .leader, some "a", 1, term⟩)] now now true)

/-- The log is compared with that of "a", and one block of it is put on the log. -/
def firstBlock : List (FollowEvent (Plain Nat) (Plain Nat)) :=
  [.pull .begin_, .pull (.locks true), .pull (.head (some ⟨1, 0⟩)), .pull (.locks true),
    .pull (.head (some ⟨1, 0⟩)), .pull (.locks true),
    .pull (.blocks [⟨1, some (.body [] (some 7))⟩] {}), .pull (.locks true)]

/-- The terms of the comparisons, and of the pages with the first block of the log they were put
on. -/
def outline : Happened (Plain Nat) → Nat × Option (Option (Plain Nat))
  | .reconciled _ term => (term, none)
  | .pulled _ term log =>
    (term, some (if log.lastCheckpoint < 1 ∧ 1 ≤ log.head then log.block 1 else none))

theorem reconciled_run_first : ∃ f,
    Machine.run (next_ soloEnv fun _ => none) (some (fresh secondProcess))
      (aLeads 1 10 :: firstBlock) = some f ∧
    f.happened.map outline = [(1, some none), (1, none)] ∧ Reconciled f.happened := by
  have told : (Machine.run (next_ soloEnv fun _ => none) (some (fresh secondProcess))
      (aLeads 1 10 :: firstBlock)).map (·.happened.map outline) =
      some [(1, some none), (1, none)] := by
    decide +kernel
  obtain ⟨f, reached, happened⟩ := Option.map_eq_some_iff.mp told
  have run := reconciled_run soloEnv (fun _ => none) secondConfig (.openDb Store.emptyDb)
    secondProcess rfl rfl (aLeads 1 10 :: firstBlock) (by simp [aLeads, firstBlock, Votes])
    (by decide +kernel) reached
  exact ⟨f, reached, happened, run.1⟩

/-- The leader of term 1 wrote one first block, and the leader of term 3 has another. -/
def twoLeaders (term height : Nat) : Plain Nat :=
  .body [] (some (if height = 1 ∧ term = 3 then 8 else 7))

/-- "a" leads again before "b" has heard who led in between. -/
def ledAgain : List (FollowEvent (Plain Nat) (Plain Nat)) :=
  aLeads 1 10 :: firstBlock ++
    [aLeads 3 20, .pull .begin_, .pull (.head (some ⟨2, 0⟩)), .pull (.locks true),
      .pull (.blocks [⟨2, some (.body [] (some 7))⟩] {})]

/-- Its log shares a height with that of the leader of term 3, but not the block, and is extended
with no comparison in that term. -/
theorem reconciled_run_missed : ∃ f,
    Machine.run (next_ soloEnv fun _ => none) (some (fresh secondProcess)) ledAgain = some f ∧
    Machine.Meets (next_ soloEnv fun _ => none) (ServesNext twoLeaders)
      (some (fresh secondProcess)) ledAgain ∧
    ¬ Reconciled f.happened ∧ ¬ f.Undiverged twoLeaders := by
  -- The run is played once, for what it says of the pages and for where it ends.
  have told : (Machine.run (next_ soloEnv fun _ => none) (some (fresh secondProcess))
      ledAgain).map (·.happened.map outline) =
      some [(3, some (some (.body [] (some 7)))), (1, some none), (1, none)] := by
    decide +kernel
  obtain ⟨f, reached, happened⟩ := Option.map_eq_some_iff.mp told
  obtain ⟨last, rest, all, extended, rest_⟩ := List.map_eq_cons_iff.mp happened
  cases last with
  | reconciled peer term => cases extended
  | pulled peer term log =>
    obtain ⟨rfl, first⟩ := Prod.mk.inj extended
    refine ⟨f, reached, by decide +kernel, fun ordered => ?_, fun undiverged => ?_⟩
    · have compared := List.mem_map_of_mem (f := outline) (ordered [] peer 3 log rest all)
      rw [rest_] at compared
      simp [outline] at compared
    · have agrees := undiverged peer 3 log (all ▸ List.mem_cons_self)
      have first := Option.some.inj first
      split at first
      next above =>
        have same := agrees 1 _ (by decide) ⟨above.1, above.2, first⟩
        simp [twoLeaders] at same
      · cases first

end Follower

end AkumaMiot

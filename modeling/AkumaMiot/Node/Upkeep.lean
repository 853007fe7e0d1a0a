import AkumaMiot.Mesh.Local
import AkumaMiot.Node.Frames
import AkumaMiot.Node.Process
import AkumaMiot.Node.Taking
import AkumaMiot.Store.Log

/-!
# What a node's work does to its election and its queue

Following the mesh, closing a block, taking a page or a push: all of it is made of four
moves. The election's state in memory moves on, it is written, the log changes beside it, and
something else changes that neither the election nor the queue reads.
-/
namespace AkumaMiot

variable {A B H : Type}

namespace Store

variable {β σ : Type}

theorem append_aux (s : Store β σ) (commits : Bool) (height : Nat) (b : β) (name : String) :
    (s.append commits height b).2.aux name = s.aux name := by
  unfold append
  split
  · rfl
  · split
    · rfl
    · refine KeyValue.commit_of_untouched _ _ ?_
      simp [putBlock, putHead, block_ne_auxKey, (auxKey_ne_head name).symm]

theorem compact_aux (s : Store β σ) (commits : Bool) (height : Nat) (state : σ) (name : String) :
    (s.compact commits height state).2.aux name = s.aux name := by
  unfold compact
  split
  · rfl
  · split
    · rfl
    · refine KeyValue.commit_of_untouched _ _ (List.forall_mem_append.mpr
        ⟨List.forall_mem_append.mpr ⟨?_, dropCheckpoint_ne_auxKey name⟩,
          dropBlocks_ne_auxKey name⟩)
      simp [putCheckpoint, putLastCp, checkpoint_ne_auxKey, (auxKey_ne_lastCp name).symm]

theorem adoptCheckpoint_aux (s : Store β σ) (commits : Bool) (height : Nat) (state : σ)
    (name : String) : (s.adoptCheckpoint commits height state).2.aux name = s.aux name := by
  unfold adoptCheckpoint
  split
  · rfl
  · refine KeyValue.commit_of_untouched _ _ (List.forall_mem_append.mpr
      ⟨List.forall_mem_append.mpr ⟨dropBlocks_ne_auxKey name, dropCheckpoint_ne_auxKey name⟩, ?_⟩)
    simp [putCheckpoint, putLastCp, putHead, checkpoint_ne_auxKey, (auxKey_ne_lastCp name).symm,
      (auxKey_ne_head name).symm]

theorem rewindForFork_aux (s : Store β σ) (commits : Bool) (fork : Nat) (name : String) :
    (s.rewindForFork commits fork).2.aux name = s.aux name := by
  have forget : ∀ (c : Prop) [Decidable c], ∀ w ∈ (if c then
      [KeyValue.delete (.checkpoint s.lastCheckpoint), putLastCp 0] else [] :
        List (StoreWrite β σ)), w.key ≠ auxKey name := by
    intro c _ w member
    split at member
    · rcases List.mem_cons.mp member with rfl | member
      · exact checkpoint_ne_auxKey _ name
      · obtain rfl := List.mem_singleton.mp member
        exact (auxKey_ne_lastCp name).symm
    · simp at member
  unfold rewindForFork
  simp only
  split
  · rfl
  · refine KeyValue.commit_of_untouched _ _ (List.forall_mem_append.mpr
      ⟨List.forall_mem_append.mpr ⟨dropBlocks_ne_auxKey name, forget _⟩, ?_⟩)
    simp [putHead, (auxKey_ne_head name).symm]

theorem putAux_aux (s : Store β σ) (commits : Bool) (name : String) (value : List UInt8) :
    (s.putAux commits name value).2.aux name = if commits then some value else s.aux name := by
  cases commits with
  | false => rfl
  | true => exact KeyValue.commit_put_self _ _ _

end Store

namespace Node

theorem submit_elsewhere [DecidableEq A] (n : Node A B H) (env : Env A B H)
    (uxt : UncheckedExtrinsic A) : n.Elsewhere (n.submit env uxt).2 := by
  unfold submit
  cases applied : n.ext.applyExtrinsic env uxt with
  | mk r ext =>
    simp only
    rw [drainAbsorb_eq]
    split <;> exact ⟨rfl, rfl⟩

section Statuses

variable [DecidableEq H]

/-- Whatever else changed, the election and the queue read the same. -/
structure Beside (n n' : Node A B H) : Prop where
  mesh : n'.mesh = n.mesh
  store : n'.store = n.store
  queued : ∀ hash, hash ∈ n'.mempool ↔ hash ∈ n.mempool
  pending : ∀ hash, n'.txStatus.lookup hash = some .pending ↔
    n.txStatus.lookup hash = some .pending

/-- A mesh that says nothing unsound about itself. -/
abbrev Honest (m : Mesh) : Prop := m.Sound (fun _ _ => True) (fun _ _ => True)

/-- What a node's work can do. -/
inductive Tends (env : Env A B H) : Node A B H → Node A B H → Prop
  | beside {n n' : Node A B H} (beside : n.Beside n') : Tends env n n'
  | logged {n : Node A B H} {store : Store B B}
      (aux : ∀ name, store.aux name = n.store.aux name) : Tends env n { n with store := store }
  | moved {n : Node A B H} {mesh : Mesh}
      (moves : Honest n.mesh → Honest mesh ∧ n.mesh.Moves mesh) :
      Tends env n { n with mesh := mesh }
  | saved (n : Node A B H) (commits : Bool) : Tends env n (n.saveHard env commits)
  | trans {a b c : Node A B H} (first : Tends env a b) (second : Tends env b c) : Tends env a c

variable {env : Env A B H}

theorem Tends.refl (n : Node A B H) : Tends env n n :=
  .beside ⟨rfl, rfl, fun _ => .rfl, fun _ => .rfl⟩

theorem Tends.refolded {n n' : Node A B H} (refolded : n.Refolded n') : Tends env n n' := by
  rw [refolded]
  exact .beside ⟨rfl, rfl, fun _ => .rfl, fun _ => .rfl⟩

/-- A block that was folded in counts as appended. -/
theorem Tends.appended (n : Node A B H) : Tends env n { n with mesh := n.mesh.appended } :=
  .moved fun honest => ⟨(Mesh.appended_spec honest).1, (Mesh.appended_spec honest).2.1⟩

theorem Tends.appendedSaved (n : Node A B H) (commits : Bool) :
    Tends env n ({ n with mesh := n.mesh.appended }.saveHard env commits) :=
  (Tends.appended n).trans (.saved _ commits)

theorem Tends.drainAbsorb (n : Node A B H) : Tends env n n.drainAbsorb := by
  rw [drainAbsorb_eq]
  exact .beside ⟨rfl, rfl, fun _ => .rfl, fun _ => .rfl⟩

/-! ## Closing -/

theorem Tends.persist (n : Node A B H) (height at_ : Nat) (commits : Commits) :
    Tends env n (n.persist env height at_ commits) := by
  have stamped : Tends env n (n.stampBlock height (some at_)) :=
    .beside ⟨rfl, rfl, fun _ => .rfl, fun _ => .rfl⟩
  have emptied : ∀ m : Node A B H, Tends env m { m with pending := [] } := fun m =>
    .beside ⟨rfl, rfl, fun _ => .rfl, fun _ => .rfl⟩
  unfold Node.persist
  simp only
  have aux := Store.append_aux n.store commits.append height (env.sealBody n.pending at_)
  split
  next store appended =>
    have appended : n.store.append commits.append height (env.sealBody n.pending at_) =
      (.ok (), store) := appended
    rw [appended] at aux
    refine stamped.trans (.trans ?_ (emptied _))
    exact (Tends.logged (n := n.stampBlock height (some at_)) aux).trans (.appendedSaved _ _)
  · exact stamped.trans (emptied _)

/-- Only what was applied turns sealed. -/
theorem Tends.sealed (n : Node A B H) (height : Nat) :
    Tends env n { n with txStatus := n.txStatus.mapValues (sealStatus height) } := by
  refine .beside ⟨rfl, rfl, fun _ => .rfl, fun hash => ?_⟩
  simp only [HashMap.lookup_mapValues, Option.map_eq_some_iff]
  constructor
  · rintro ⟨st, found, same⟩
    cases st with
    | pending => exact found
    | applied height =>
      simp only [sealStatus] at same
      split at same <;> simp at same
    | «sealed» height => simp [sealStatus] at same
  · exact fun found => ⟨_, found, rfl⟩

theorem Tends.compactAt (n : Node A B H) (height : Nat) (commits : Bool) :
    Tends env n (n.compactAt env height commits) :=
  .logged (Store.compact_aux n.store commits height _)

theorem Tends.advance {n n' : Node A B H} {at_ : Nat} {commits : Commits}
    (advanced : n.advance env at_ commits = some n') : Tends env n n' := by
  obtain ⟨m, opened, rfl⟩ := Option.map_eq_some_iff.mp advanced
  obtain rfl := initializeBlock_eq opened
  refine .trans (.persist n n.block at_ commits) (.trans (.sealed _ n.block) ?_)
  refine .trans ?_ (.drainAbsorb _)
  simp only
  split
  · exact .trans (.compactAt _ n.block commits.compact)
      (.beside ⟨rfl, rfl, fun _ => .rfl, fun _ => .rfl⟩)
  · exact .beside ⟨rfl, rfl, fun _ => .rfl, fun _ => .rfl⟩

/-! ## Following -/

theorem Tends.takeRoute (n : Node A B H) (now : Nat) : Tends env n (n.takeRoute now) := by
  refine .beside ?_
  unfold Node.takeRoute
  simp only
  split <;> exact ⟨rfl, rfl, fun _ => .rfl, fun _ => .rfl⟩

theorem Tends.startPushes (n : Node A B H) (now : Nat) : Tends env n (n.startPushes now) := by
  unfold Node.startPushes
  split
  · exact .beside ⟨rfl, rfl, fun _ => .rfl, fun _ => .rfl⟩
  · refine .moved fun honest => ?_
    obtain ⟨kept, moves, _⟩ := Mesh.pushTargets_spec honest now n.store.head
    exact ⟨kept, moves⟩

section Executing

variable [DecidableEq A]

theorem Tends.takeRole {n n' : Node A B H} {lead : Bool}
    (taken : n.takeRole env lead = some n') : Tends env n n' := by
  unfold Node.takeRole at taken
  split at taken
  · obtain rfl := Option.some.inj taken
    rw [drainAbsorb_eq]
    exact .beside ⟨rfl, rfl, fun _ => .rfl, fun _ => .rfl⟩
  · split at taken
    · have demoted : Tends env n { n with producing := false } :=
        .beside ⟨rfl, rfl, fun _ => .rfl, fun _ => .rfl⟩
      exact demoted.trans (.refolded (reloadFromStore_refolded taken))
    · obtain rfl := Option.some.inj taken
      exact .refl n

/-- The election's state is written first. -/
theorem followMesh_tends {n n' : Node A B H} {now : Nat} {commits : Bool}
    (followed : n.followMesh env now commits = some n') :
    Tends env (n.saveHard env commits) n' := by
  simp only [followMesh, Option.bind_eq_bind, Option.bind_eq_some_iff, Option.pure_def,
    Option.some.injEq] at followed
  obtain ⟨m, taken, rfl⟩ := followed
  exact .trans (.takeRole taken) (.takeRoute m now)

theorem Tends.hear {n n' : Node A B H} {st : Status} {now : Nat} {commits : Bool}
    (heard : n.hear env st now commits = some n') : Tends env n n' := by
  refine .trans (.moved fun honest => ?_) (.trans (.saved _ commits) (followMesh_tends heard))
  have sound : st.Sound fun _ _ => True := ⟨fun _ _ => trivial, fun _ => trivial⟩
  obtain ⟨kept, moves, _⟩ := Mesh.onInbound_spec honest sound now
  exact ⟨kept, moves⟩

/-! ## Taking in another's log -/

theorem TakesIn.tends {adds : Nat → B → Prop} {n n' : Node A B H}
    (takes : TakesIn env adds n n') : Tends env n n' := by
  induction takes with
  | nothing n => exact .refl n
  | @applied n n' commits height body store effects at_ appended applied added =>
    have aux := Store.append_aux n.store commits height body
    rw [appended] at aux
    refine .trans (.logged aux) (.trans ?_ (.appended n'))
    rw [applyBlock_eq applied]
    exact .beside ⟨rfl, rfl, fun _ => .rfl, fun _ => .rfl⟩
  | @adopted n n' height state commits store adopted reloaded =>
    have aux := Store.adoptCheckpoint_aux n.store commits height state
    rw [adopted] at aux
    exact .trans (.logged aux) (.trans (.refolded (reloadFromStore_refolded reloaded))
      (.appended n'))
  | @rewound n n' fork commits r store rewound reloaded =>
    have aux := Store.rewindForFork_aux n.store commits fork
    rw [rewound] at aux
    exact .trans (.logged aux) (.refolded (reloadFromStore_refolded reloaded))
  | saved n commits => exact .saved n commits
  | trans _ _ first second => exact .trans first second

theorem Tends.chainPush {n n' : Node A B H} {leader : Status} {now : Nat} {commits : PushCommits}
    {op : PushOp B} {reply : PushReply}
    (pushed : n.chainPush env leader now commits op = some (reply, n')) : Tends env n n' := by
  simp only [Node.chainPush, Option.bind_eq_bind, Option.bind_eq_some_iff] at pushed
  obtain ⟨m, heard, pushed⟩ := pushed
  split at pushed
  · cases pushed
    exact .hear heard
  · exact .trans (.hear heard) (TakesIn.takePush pushed).tends

end Executing

/-- A peer's word that it carries an entry leaves the entry where it is. -/
theorem Tends.mempoolCarried (n : Node A B H) (hashes : List H) :
    Tends env n (n.mempoolCarried hashes) := by
  refine .beside ⟨rfl, rfl, fun hash => ?_, fun _ => .rfl⟩
  unfold Node.mempoolCarried
  generalize n.mempool = pool
  induction hashes generalizing pool with
  | nil => exact .rfl
  | cons other hashes ih =>
    rw [List.foldl_cons, ih]
    split
    next e found =>
      rw [AList.mem_insert]
      refine or_iff_right_of_imp ?_
      rintro rfl
      exact AList.lookup_isSome.mp (by rw [found]; rfl)
    · exact .rfl

/-! ## The queue's own steps -/

theorem setTxStatus_elsewhere (n : Node A B H) (hash : H) (st : TxState) :
    n.Elsewhere (n.setTxStatus hash st) := by
  rw [setTxStatus_eq]
  exact ⟨rfl, rfl⟩

theorem mempoolInsert_elsewhere (n : Node A B H) (hash : H) (bytes : B) (now : Nat) :
    n.Elsewhere (n.mempoolInsert hash bytes now) := by
  unfold mempoolInsert
  split
  · exact ⟨rfl, rfl⟩
  · refine .trans ?_ (setTxStatus_elsewhere _ _ _)
    split
    · split <;> exact ⟨rfl, rfl⟩
    · exact ⟨rfl, rfl⟩

theorem mempoolAnswered_elsewhere (n : Node A B H) (hash : H) (answer : TxState) :
    n.Elsewhere (n.mempoolAnswered hash answer) := by
  cases answer with
  | pending => exact ⟨rfl, rfl⟩
  | applied height => exact setTxStatus_elsewhere n hash (.applied height)
  | «sealed» height => exact setTxStatus_elsewhere n hash (.sealed height)

theorem acceptHere_elsewhere [DecidableEq A] (n : Node A B H) (env : Env A B H) (bytes : B) :
    n.Elsewhere (n.acceptHere env bytes) := by
  unfold acceptHere
  split
  · exact ⟨rfl, rfl⟩
  next uxt _ =>
    split
    · exact ⟨rfl, rfl⟩
    · have submits := n.submit_elsewhere env uxt
      cases submitted : n.submit env uxt with
      | mk accepted n' =>
        rw [submitted] at submits
        cases accepted with
        | true => exact .trans ⟨submits.1, submits.2⟩ (setTxStatus_elsewhere _ _ _)
        | false => exact submits

theorem mempoolHere_elsewhere [DecidableEq A] (n : Node A B H) (env : Env A B H) (hash : H)
    (bytes : B) : n.Elsewhere (n.mempoolHere env hash bytes) := by
  unfold mempoolHere
  split
  · exact ⟨rfl, rfl⟩
  next uxt _ =>
    have submits := n.submit_elsewhere env uxt
    cases submitted : n.submit env uxt with
    | mk accepted n' =>
      rw [submitted] at submits
      cases accepted with
      | true => exact .trans submits (setTxStatus_elsewhere n' hash (.applied n.block))
      | false => exact submits

theorem mempoolTurn_elsewhere [DecidableEq A] (n : Node A B H) (env : Env A B H) (e : Queued B H)
    (taken : Bool) (route : WriteRoute) : n.Elsewhere (n.mempoolTurn env e taken route) := by
  cases route with
  | nobody leader => exact ⟨rfl, rfl⟩
  | here =>
    unfold mempoolTurn
    simp only
    split
    · exact ⟨rfl, rfl⟩
    · exact mempoolHere_elsewhere _ _ _ _
  | primary p =>
    unfold mempoolTurn
    simp only
    split <;> exact ⟨rfl, rfl⟩

end Statuses

end Node

/-! ## One event -/

/-- The events of the queue itself. -/
def ProcessEvent.queues : ProcessEvent B H → Bool
  | .accept _ | .queue _ _ | .mempoolRound _ | .turn _ | .answered _ | .turned _ => true
  | _ => false

/-- The events of a campaign. -/
def ProcessEvent.campaigns : ProcessEvent B H → Bool
  | .round _ _ _ _ | .voteReply _ _ _ _ _ | .collected => true
  | _ => false

def ProcessEvent.restarts : ProcessEvent B H → Bool
  | .restart _ => true
  | _ => false

namespace Process

variable [DecidableEq A] [DecidableEq H] {env : Env A B H} {readHard : List UInt8 → Option Hard}

/-- What a status says of its sender asks nothing here. -/
theorem anyStatus (st : Status) : st.Sound fun _ _ => True :=
  ⟨fun _ _ => trivial, fun _ => trivial⟩

theorem polled_moves {m : Mesh} (honest : Node.Honest m) (polled : List (Route × Status))
    (now : Nat) :
    Node.Honest (polled.foldl (fun m (route, st) => m.onStatus route st now) m) ∧
      m.Moves (polled.foldl (fun m (route, st) => m.onStatus route st now) m) := by
  induction polled generalizing m with
  | nil => exact ⟨honest, .refl m⟩
  | cons answer polled ih =>
    obtain ⟨route, st⟩ := answer
    obtain ⟨kept, moves, _⟩ := Mesh.onStatus_spec honest route (anyStatus st) now
    obtain ⟨kept', moves'⟩ := ih kept
    exact ⟨kept', moves.trans moves'⟩

theorem tick_moves {m : Mesh} (honest : Node.Honest m) (now head : Nat) :
    Node.Honest (m.tick now head).2 ∧ m.Moves (m.tick now head).2 ∧
      ∀ req, (m.tick now head).1 = some req → req.pre = true := by
  obtain ⟨kept, moves, _, pre⟩ := Mesh.tick_spec honest now head fun _ _ _ => trivial
  exact ⟨kept, moves, fun req asks => (pre req asks).2⟩

/-- Whatever is not the queue's own is work. -/
theorem step_tends {p p' : Process A B H} {e : ProcessEvent B H} (other : e.queues = false)
    (runs : e.restarts = false) (stepped : p.step env readHard e = some p') :
    Node.Tends env p.node p'.node := by
  cases step_steps stepped with
  | accept | queue | mempoolRound | turn | answered | turned => simp [ProcessEvent.queues] at other
  | restart => simp [ProcessEvent.restarts] at runs
  | idle => exact .refl _
  | @round polled now later commits n idle followed =>
    -- The election moves in memory, is written, and then is followed.
    refine .trans (.moved fun honest => ?_) (.trans (.saved _ commits)
      (.trans (Node.followMesh_tends followed) (.startPushes n now)))
    obtain ⟨kept, moves⟩ := polled_moves honest polled now
    obtain ⟨kept', moves', _⟩ := tick_moves kept now p.node.store.head
    exact ⟨kept', moves.trans moves'⟩
  | @voteRequest req now later commits n followed =>
    refine .trans (.moved fun honest => ?_) (.trans (.saved _ commits)
      (Node.followMesh_tends followed))
    obtain ⟨kept, moves, _⟩ := Mesh.onVoteRequest_spec honest req now p.node.store.head
    exact ⟨kept, moves⟩
  | @voteReply route reply now later commits req next n under followed =>
    refine .trans (.moved fun honest => ?_) (.trans (.saved _ commits)
      (Node.followMesh_tends followed))
    obtain ⟨kept, moves, _⟩ := Mesh.onVoteReply_spec honest route req reply now
      p.node.store.head (fun _ _ => trivial) fun _ _ _ _ => trivial
    exact ⟨kept, moves⟩
  | collected => exact .refl _
  | @inbound st carried now commits n heard =>
    exact .trans (.mempoolCarried p.node carried) (.hear heard)
  | push pushed => exact .chainPush pushed
  | close leads advanced => exact .advance advanced
  | @page _ _ _ _ n taken =>
    have takes : Node.TakesIn env (fun _ _ => True) p.node n :=
      .takePage (fun _ _ _ _ => trivial) taken
    exact takes.tends
  | @checkpoint _ _ _ _ n taken =>
    have takes : Node.TakesIn env (fun _ _ => True) p.node n := .takeCheckpoint taken
    exact takes.tends
  | @rewind _ _ _ n rewound =>
    have takes : Node.TakesIn env (fun _ _ => True) p.node n := .rewind rewound
    exact takes.tends
  | reconciled peer =>
    simp only
    split
    · exact .beside ⟨rfl, rfl, fun _ => .rfl, fun _ => .rfl⟩
    · exact .refl _
  | pushReconciled route => exact .beside ⟨rfl, rfl, fun _ => .rfl, fun _ => .rfl⟩

/-- Only a campaign's own events and a restart change the campaign. -/
theorem step_campaign {p p' : Process A B H} {e : ProcessEvent B H}
    (other : e.campaigns = false) (runs : e.restarts = false)
    (stepped : p.step env readHard e = some p') : p'.campaign = p.campaign := by
  cases step_steps stepped with
  | round | voteReply | collected => simp [ProcessEvent.campaigns] at other
  | restart => simp [ProcessEvent.restarts] at runs
  | _ => rfl

/-- The queue's own events leave the election alone. -/
theorem step_elsewhere {p p' : Process A B H} {e : ProcessEvent B H} (queues : e.queues = true)
    (stepped : p.step env readHard e = some p') : p.node.Elsewhere p'.node := by
  cases step_steps stepped with
  | accept bytes => exact Node.acceptHere_elsewhere _ _ _
  | queue bytes now => exact Node.mempoolInsert_elsewhere _ _ _ _
  | answered answer turn => exact Node.mempoolAnswered_elsewhere _ _ _
  | turned taken turn => exact Node.mempoolTurn_elsewhere _ _ _ _ _
  | idle | mempoolRound | turn => exact ⟨rfl, rfl⟩
  | _ => simp [ProcessEvent.queues] at queues

end Process

end AkumaMiot

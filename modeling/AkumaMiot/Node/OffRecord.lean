import AkumaMiot.Litter.Told
import AkumaMiot.Node.Sealed

/-!
# Off the record

A line said off the record is told live and kept out of the open block's buffer. A message
posted off the record passes the same filter as if it were on it, so a block closes clean
when no such message was accepted into it.
-/
namespace AkumaMiot

variable {A B H : Type}

/-- Whether an effect carries what was said or posted off the record. -/
def Effect.isPrivate : Effect A → Bool
  | .said _ _ _ _ _ off => off
  | .message _ _ _ _ _ _ _ _ _ off => off
  | _ => false

/-- A message posted off the record. -/
def LitterCall.postsPrivate : LitterCall A → Bool
  | .post _ _ _ _ _ _ _ off => off
  | _ => false

namespace Node

/-- Whether an effect is private and yet joins the open block. -/
def leaks (e : Effect A) : Bool := e.isPrivate && !offRecord e

theorem leaks_of_tabled {e : Effect A} (tabled : TaskTable.Tabled e) : leaks e = false := by
  cases e with
  | said sender to_ body fromRoot noAck off => cases off <;> rfl
  | message => exact tabled.elim
  | _ => rfl

theorem leaks_of_own {c : LitterCall A} {e : Effect A} (own : Storage.Own c e)
    (leak : leaks e = true) : c.postsPrivate = true := by
  cases own with
  | posted => simpa [leaks, Effect.isPrivate, LitterCall.postsPrivate, offRecord] using leak
  | _ => simp [leaks, Effect.isPrivate] at leak

/-- What passes the filter and is private leaks. -/
theorem leaks_of_absorbed {effects : List (Effect A)} {e : Effect A}
    (absorbed : e ∈ effects.filter fun e => !offRecord e) (isPrivate : e.isPrivate = true) :
    e ∈ effects ∧ leaks e = true := by
  obtain ⟨told, recorded⟩ := List.mem_filter.mp absorbed
  exact ⟨told, by simp [leaks, isPrivate, recorded]⟩

/-- The events that wait to be absorbed leak nothing. -/
def Sound (s : Storage A) : Prop := ∀ e ∈ s.events, leaks e = false

theorem Sound.cleared (s : Storage A) : Sound { s with events := [] } := by simp [Sound]

theorem genesis_sound [DecidableEq A] (env : Env A B H) (replaying : Bool) :
    Sound (env.genesis replaying) := by
  have providers : ∀ (accounts : List A) (s : Storage A),
      (accounts.foldl Storage.incProviders s).events = s.events := by
    intro accounts
    induction accounts with
    | nil => intro s; rfl
    | cons a accounts ih => exact fun s => ih (s.incProviders a)
  intro e told
  unfold Env.genesis at told
  rw [providers] at told
  exact leaks_of_tabled (Storage.initializeBlock_told told)

/-! ## What reaches the buffer -/

section Executing

variable [DecidableEq A]

theorem submit_leaks {n : Node A B H} {env : Env A B H} {uxt : UncheckedExtrinsic A}
    (sound : Sound n.ext) {e : Effect A} (told : e ∈ n.effectsOf env uxt) (leak : leaks e = true) :
    (n.submit env uxt).1 = true ∧ uxt.call.postsPrivate = true := by
  -- What was told before the call hides nothing, so the effect is of this call.
  have before : ∀ s : Storage A, s.events = n.ext.events → e ∈ s.events → False := by
    intro s same member
    rw [same] at member
    simp [sound e member] at leak
  unfold effectsOf Storage.applyExtrinsic at told
  unfold submit Storage.applyExtrinsic
  split at told
  · exact (before _ rfl told).elim
  next admitted =>
    rw [if_neg admitted]
    cases checked : n.ext.checkNonce uxt.signer uxt.nonce with
    | error why => rw [checked] at told; exact (before _ rfl told).elim
    | ok s =>
      have same : s.events = n.ext.events := by
        unfold Storage.checkNonce at checked
        split at checked
        · simp at checked
        · repeat' split at checked
          all_goals first | (obtain rfl := Except.ok.inj checked; rfl) | simp at checked
      simp only [checked] at told ⊢
      cases dispatched : s.dispatch env.rt (.signed uxt.signer) uxt.call with
      | error why => rw [dispatched] at told; exact (before _ same told).elim
      | ok s' =>
        simp only [dispatched] at told
        refine ⟨rfl, ?_⟩
        -- A task hides nothing either: only what the call itself records can.
        rcases Storage.dispatch_told dispatched told with old | tabled | own
        · exact (before _ same old).elim
        · simp [leaks_of_tabled tabled] at leak
        · exact leaks_of_own own leak

/-- What a submission adds to the buffer is private only if it is a message that was posted off
the record, and accepted. -/
theorem submit_private {n : Node A B H} {env : Env A B H} {uxt : UncheckedExtrinsic A}
    (sound : Sound n.ext) {e : Effect A} (member : e ∈ (n.submit env uxt).2.pending)
    (isPrivate : e.isPrivate = true) :
    e ∈ n.pending ∨ (n.submit env uxt).1 = true ∧ uxt.call.postsPrivate = true := by
  rw [submit_pending] at member
  refine (List.mem_append.mp member).imp id fun absorbed => ?_
  obtain ⟨told, leak⟩ := leaks_of_absorbed absorbed isPrivate
  exact submit_leaks sound told leak

theorem submit_sound (n : Node A B H) (env : Env A B H) (uxt : UncheckedExtrinsic A) :
    Sound (n.submit env uxt).2.ext := by
  unfold submit
  simp only
  split <;> rw [drainAbsorb_eq] <;> exact .cleared _

/-- The calls this node accepts with an extrinsic. -/
def acceptedCalls (n : Node A B H) (env : Env A B H) (bytes : B) : List (LitterCall A) :=
  match env.decodeExtrinsic bytes with
  | some uxt => if (n.submit env uxt).1 then [uxt.call] else []
  | none => []

/-! ## Folding leaves an empty buffer -/

theorem applyBlock_quiet {n n' : Node A B H} {env : Env A B H} {height : Nat}
    {effects : List (Effect A)} {at_ : Option Nat}
    (applied : n.applyBlock env height effects at_ = some n') :
    n'.pending = [] ∧ Sound n'.ext := by
  obtain ⟨m, opened, rfl⟩ := Option.map_eq_some_iff.mp applied
  obtain rfl := initializeBlock_eq opened
  exact ⟨rfl, .cleared _⟩

theorem replayBlocks_quiet {env : Env A B H} {n n' : Node A B H} {hs : List Nat}
    (quiet : n.pending = [] ∧ Sound n.ext) (replayed : replayBlocks env n hs = some n') :
    n'.pending = [] ∧ Sound n'.ext := by
  induction hs generalizing n with
  | nil =>
    obtain rfl := Option.some.inj replayed
    exact quiet
  | cons h hs ih =>
    simp only [replayBlocks, Option.bind_eq_bind, Option.bind_eq_some_iff] at replayed
    obtain ⟨_, _, _, _, m, applied, replayed⟩ := replayed
    exact ih (applyBlock_quiet applied) replayed

theorem replay_quiet {env : Env A B H} {n n' : Node A B H}
    (quiet : n.pending = [] ∧ Sound n.ext) (replayed : n.replay env = some n') :
    n'.pending = [] ∧ Sound n'.ext := by
  unfold replay at replayed
  simp only [Option.bind_eq_bind] at replayed
  split at replayed
  · obtain ⟨m, restored, replayed⟩ := Option.bind_eq_some_iff.mp replayed
    obtain ⟨blob, _, restored⟩ := Option.bind_eq_some_iff.mp restored
    refine replayBlocks_quiet ?_ replayed
    simp only [restoreFromSnapshot, Option.bind_eq_bind, Option.bind_eq_some_iff,
      Option.pure_def, Option.some.injEq] at restored
    obtain ⟨ext, _, opened, started, rfl⟩ := restored
    obtain rfl := initializeBlock_eq started
    exact ⟨rfl, .cleared _⟩
  · exact replayBlocks_quiet quiet replayed

theorem reloadFromStore_quiet {env : Env A B H} {n n' : Node A B H}
    (reloaded : n.reloadFromStore env = some n') : n'.pending = [] ∧ Sound n'.ext :=
  replay_quiet ⟨rfl, genesis_sound env _⟩ reloaded

omit [DecidableEq A] in
/-- What a block opens with is not private. -/
theorem advance_quiet {env : Env A B H} {n n' : Node A B H} {at_ : Nat} {commits : Commits}
    (advanced : n.advance env at_ commits = some n') :
    (∀ e ∈ n'.pending, e.isPrivate = false) ∧ Sound n'.ext := by
  obtain ⟨_, _, _, rfl⟩ := advance_eq advanced
  rw [drainAbsorb_eq]
  refine ⟨fun e member => Bool.eq_false_iff.mpr fun isPrivate => ?_, .cleared _⟩
  obtain ⟨told, leak⟩ := leaks_of_absorbed member isPrivate
  rw [leaks_of_tabled (Storage.initializeBlock_told told)] at leak
  simp at leak

/-- A change of role adds nothing private. -/
theorem followMesh_quiet {env : Env A B H} {n n' : Node A B H} {now : Nat} {commits : Bool}
    (sound : Sound n.ext) (followed : n.followMesh env now commits = some n') :
    Sound n'.ext ∧ ∀ e ∈ n'.pending, e.isPrivate = true → e ∈ n.pending := by
  simp only [followMesh, Option.bind_eq_bind, Option.bind_eq_some_iff, Option.pure_def,
    Option.some.injEq] at followed
  obtain ⟨m, role, rfl⟩ := followed
  have routed : (m.takeRoute now).pending = m.pending ∧ (m.takeRoute now).ext = m.ext := by
    unfold takeRoute
    simp only
    split <;> exact ⟨rfl, rfl⟩
  rw [routed.1, routed.2]
  rw [saveHard_eq] at role
  unfold takeRole at role
  split at role
  · obtain rfl := Option.some.inj role
    rw [drainAbsorb_eq]
    refine ⟨.cleared _, fun e member isPrivate => ?_⟩
    rcases List.mem_append.mp member with old | new
    · exact old
    · -- What promotion tells is the tick's.
      obtain ⟨told, leak⟩ := leaks_of_absorbed new isPrivate
      have quiet : leaks e = false := by
        rcases Storage.tickNow_told told with before | tabled
        · exact sound e before
        · exact leaks_of_tabled tabled
      simp [quiet] at leak
  · split at role
    · obtain ⟨pending, sound⟩ := reloadFromStore_quiet role
      exact ⟨sound, by simp [pending]⟩
    · obtain rfl := Option.some.inj role
      exact ⟨sound, fun _ member _ => member⟩

end Executing

end Node

/-! ## A node and what it hands its store -/

/-- A node beside the calls whose effects wait in its buffer, and every body it passed to
`Store::append`, latest first. -/
structure Handing (A B H : Type) where
  seen : Witnessed A B H
  calls : List (LitterCall A)
  handed : List B

namespace Handing

variable [DecidableEq A] [DecidableEq H]

/-- The calls an event takes into the buffer. -/
def taken (env : Env A B H) (n : Node A B H) : NodeEvent B H → List (LitterCall A)
  | .accept bytes => if n.producing then n.acceptedCalls env bytes else []
  | .mempoolHere _ bytes => n.acceptedCalls env bytes
  | _ => []

/-- The bodies an event passes to `Store::append`. -/
def appends (env : Env A B H) (n : Node A B H) : NodeEvent B H → List B
  | .close at_ _ => if n.producing then [env.sealBody n.pending at_] else []
  | .append _ body _ => if n.producing then [] else [body]
  | _ => []

/-- Whether an event closes the block this node produces. -/
def closes (n : Node A B H) : NodeEvent B H → Bool
  | .close _ _ => n.producing
  | _ => false

/-- One event. An empty buffer holds no call, nor does a block that just opened. -/
def step (env : Env A B H) (o : Handing A B H) (e : NodeEvent B H) : Option (Handing A B H) :=
  (o.seen.step env e).map fun seen =>
    { seen := seen
      calls := if closes o.seen.node e || seen.node.pending.isEmpty then []
        else taken env o.seen.node e ++ o.calls
      handed := appends env o.seen.node e ++ o.handed }

/-- One event of a process that may have ended. -/
def next (env : Env A B H) (o : Option (Handing A B H)) (e : NodeEvent B H) :
    Option (Handing A B H) :=
  o.bind fun o => o.step env e

/-- What the claim asks: no body holds anything private. -/
def KeptOff (env : Env A B H) (o : Handing A B H) : Prop :=
  ∀ body ∈ o.handed, ∀ effects at_, env.openBody body = some (effects, at_) →
    ∀ e ∈ effects, e.isPrivate = false

/-- When what an event hands the store is clean: no message was posted off the record into the
block that closes, and a peer's block came clean. -/
def Clean (env : Env A B H) (o : Option (Handing A B H)) (e : NodeEvent B H) : Prop :=
  match o, e with
  | some o, .close _ _ => o.seen.node.producing = true → ∀ c ∈ o.calls, c.postsPrivate = false
  | some o, .append _ body _ => o.seen.node.producing = false →
    ∀ opened, env.openBody body = some opened → ∀ e ∈ opened.1, e.isPrivate = false
  | _, _ => True

omit [DecidableEq A] [DecidableEq H] in
theorem all_opened {opened : Option (List (Effect A) × Option Nat)} :
    opened.all (fun o => o.1.all fun e => !e.isPrivate) = true ↔
      ∀ o, opened = some o → ∀ e ∈ o.1, e.isPrivate = false := by
  simp [Option.all_eq_true]

instance (env : Env A B H) (o : Option (Handing A B H)) (e : NodeEvent B H) :
    Decidable (Clean env o e) :=
  match o, e with
  | some o, .close .. => inferInstanceAs (Decidable (_ = true → ∀ c ∈ o.calls, _ = false))
  | some o, .append _ body _ =>
    decidable_of_iff (o.seen.node.producing = false →
      (env.openBody body).all (fun opened => opened.1.all fun e => !e.isPrivate) = true)
      (imp_congr_right fun _ => all_opened)
  | some _, .accept _ | some _, .queue .. | some _, .mempoolHere .. | some _, .mempoolAnswered .. |
    some _, .mesh .. | some _, .adopt .. | some _, .rewind _ | none, _ => .isTrue trivial

/-- Anything private in the buffer comes from a message that was posted there off the
record. -/
structure Inv (env : Env A B H) (o : Handing A B H) : Prop where
  sound : Node.Sound o.seen.node.ext
  posted : ∀ e ∈ o.seen.node.pending, e.isPrivate = true →
    ∃ c ∈ o.calls, c.postsPrivate = true
  kept : KeptOff env o

/-! ## One event -/

omit [DecidableEq H] in
theorem executed_node (w : Witnessed A B H) (env : Env A B H) (hash : H) (bytes : B)
    (n : Node A B H) : (w.executed env hash bytes n).node = n := by
  unfold Witnessed.executed
  split
  · split <;> rfl
  · rfl

omit [DecidableEq H] in
/-- An accepted call is taken. -/
theorem mem_acceptedCalls {n : Node A B H} {env : Env A B H} {bytes : B}
    {uxt : UncheckedExtrinsic A} (decoded : env.decodeExtrinsic bytes = some uxt)
    (accepted : (n.submit env uxt).1 = true) : uxt.call ∈ n.acceptedCalls env bytes := by
  simp [Node.acceptedCalls, decoded, accepted]

/-- What an event leaves in the buffer that is private was there before, or is taken now. -/
def Explained (env : Env A B H) (n : Node A B H) (ev : NodeEvent B H) (n' : Node A B H) : Prop :=
  Node.Sound n'.ext ∧ ∀ e ∈ n'.pending, e.isPrivate = true →
    closes n ev = false ∧ (e ∈ n.pending ∨ ∃ c ∈ taken env n ev, c.postsPrivate = true)

section Explained

variable {env : Env A B H} {n n' : Node A B H} {ev : NodeEvent B H}

omit [DecidableEq H]

theorem Explained.unmoved (sound : Node.Sound n.ext) (ext : n'.ext = n.ext)
    (pending : n'.pending = n.pending) (quiet : closes n ev = false) : Explained env n ev n' := by
  refine ⟨ext ▸ sound, fun e member _ => ⟨quiet, .inl ?_⟩⟩
  rwa [← pending]

theorem Explained.emptied (quiet : n'.pending = [] ∧ Node.Sound n'.ext) :
    Explained env n ev n' := ⟨quiet.2, by simp [quiet.1]⟩

theorem Explained.executed {uxt : UncheckedExtrinsic A} (sound : Node.Sound n.ext)
    (same : n'.pending = (n.submit env uxt).2.pending ∧ n'.ext = (n.submit env uxt).2.ext)
    (quiet : closes n ev = false)
    (took : (n.submit env uxt).1 = true → uxt.call ∈ taken env n ev) :
    Explained env n ev n' := by
  obtain ⟨pending, ext⟩ := same
  refine ⟨ext ▸ Node.submit_sound n env uxt, fun e member isPrivate => ⟨quiet, ?_⟩⟩
  rw [pending] at member
  exact (Node.submit_private sound member isPrivate).imp id
    fun posted => ⟨uxt.call, took posted.1, posted.2⟩

end Explained

theorem step_explained {env : Env A B H} {w w' : Witnessed A B H} {ev : NodeEvent B H}
    (sound : Node.Sound w.node.ext) (stepped : w.step env ev = some w') :
    Explained env w.node ev w'.node := by
  cases Witnessed.step_steps stepped with
  | idle idles =>
    -- Only who produces closes a block.
    refine .unmoved sound rfl rfl ?_
    cases ev with
    | close at_ commits => exact idles
    | _ => rfl
  | @accept bytes producing =>
    rw [executed_node]
    cases decoded : env.decodeExtrinsic bytes with
    | none =>
      exact .unmoved sound (by simp [Node.acceptHere, decoded])
        (by simp [Node.acceptHere, decoded]) rfl
    | some uxt =>
      refine .executed sound (Node.acceptHere_frame decoded producing) rfl fun accepted => ?_
      simp only [taken, producing, if_true]
      exact mem_acceptedCalls decoded accepted
  | queue hash bytes now =>
    obtain ⟨pending, ext⟩ := Node.mempoolInsert_frame w.node hash bytes now
    exact .unmoved sound ext pending rfl
  | mempoolHere hash bytes =>
    rw [executed_node]
    cases decoded : env.decodeExtrinsic bytes with
    | none =>
      exact .unmoved sound (by simp [Node.mempoolHere, decoded, Node.mempoolRemove])
        (by simp [Node.mempoolHere, decoded, Node.mempoolRemove]) rfl
    | some uxt =>
      exact .executed sound (Node.mempoolHere_frame decoded) rfl (mem_acceptedCalls decoded)
  | mempoolAnswered hash answer =>
    cases answer with
    | pending => exact .unmoved sound rfl rfl rfl
    | applied height =>
      refine .unmoved sound ?_ ?_ rfl <;>
        simp only [Node.mempoolAnswered] <;> rw [Node.setTxStatus_eq]
    | sealed height =>
      refine .unmoved sound ?_ ?_ rfl <;>
        simp only [Node.mempoolAnswered, Node.mempoolRemove] <;> rw [Node.setTxStatus_eq]
  | @close at_ commits n producing advanced =>
    obtain ⟨clean, sound⟩ := Node.advance_quiet advanced
    refine ⟨sound, fun e member isPrivate => ?_⟩
    have told : e ∈ n.pending := member
    simp [clean e told] at isPrivate
  | @mesh decided now commits n followed =>
    obtain ⟨sound, old⟩ := Node.followMesh_quiet (n := { w.node with mesh := decided }) sound followed
    have both : Explained env w.node (.mesh decided now commits) n :=
      ⟨sound, fun e member isPrivate => ⟨rfl, .inl (old e member isPrivate)⟩⟩
    split
    · exact both
    · exact both
  | refused follows refused => exact .unmoved sound rfl rfl rfl
  -- A log taken over, whole or by a block, is folded into an empty buffer.
  | append follows taken opened applied =>
    have quiet := Node.applyBlock_quiet applied
    refine .emptied ?_
    simp only [Witnessed.replaced]
    rw [Node.saveHard_eq]
    exact quiet
  | adopt follows reloaded =>
    have quiet := Node.reloadFromStore_quiet reloaded
    refine .emptied ?_
    simp only [Witnessed.replaced]
    rw [Node.saveHard_eq]
    exact quiet
  | rewind follows reloaded => exact .emptied (Node.reloadFromStore_quiet reloaded)

omit [DecidableEq A] [DecidableEq H] in
/-- A clean hand-over leaves nothing private in any body. -/
theorem appends_kept {env : Env A B H} {o : Handing A B H} {ev : NodeEvent B H} (inv : Inv env o)
    (clean : Clean env (some o) ev) {body : B} (given : body ∈ appends env o.seen.node ev)
    {opened : List (Effect A) × Option Nat} (opens : env.openBody body = some opened) :
    ∀ e ∈ opened.1, e.isPrivate = false := by
  cases ev with
  | close at_ commits =>
    simp only [appends] at given
    split at given
    next producing =>
      rw [List.mem_singleton] at given
      rw [given, env.openBody_sealBody] at opens
      obtain rfl := Option.some.inj opens
      refine fun e member => Bool.eq_false_iff.mpr fun isPrivate => ?_
      -- Anything private in the buffer was posted off the record by a call of the open block.
      obtain ⟨c, taken, posts⟩ := inv.posted e member isPrivate
      simp [clean producing c taken] at posts
    · simp at given
  | append height peers commits =>
    simp only [appends] at given
    split at given
    · simp at given
    next idle =>
      rw [List.mem_singleton] at given
      subst given
      exact clean (by simpa using idle) opened opens
  | _ => simp [appends] at given

theorem step_inv {env : Env A B H} {o o' : Handing A B H} {ev : NodeEvent B H} (inv : Inv env o)
    (clean : Clean env (some o) ev) (stepped : o.step env ev = some o') : Inv env o' := by
  obtain ⟨seen, next, rfl⟩ := Option.map_eq_some_iff.mp stepped
  obtain ⟨sound, explained⟩ := step_explained inv.sound next
  refine ⟨sound, fun e member isPrivate => ?_, ?_⟩
  · obtain ⟨open_, source⟩ := explained e member isPrivate
    have full : seen.node.pending.isEmpty = false :=
      List.isEmpty_eq_false_iff_exists_mem.mpr ⟨e, member⟩
    simp only [open_, full, Bool.or_self, Bool.false_eq_true, if_false, List.mem_append]
    rcases source with old | ⟨c, took, posts⟩
    · obtain ⟨c, there, posts⟩ := inv.posted e old isPrivate
      exact ⟨c, .inr there, posts⟩
    · exact ⟨c, .inl took, posts⟩
  · intro body member effects at_ opens
    rcases List.mem_append.mp member with given | old
    · exact appends_kept inv clean given opens
    · exact inv.kept body old effects at_ opens

/-! ## Every run -/

/-- A node as it opens, with nothing handed over yet. -/
def fresh (n : Node A B H) : Handing A B H := ⟨.fresh n, [], []⟩

/-- In every run whose hand-overs are clean, no body a node passes to its store holds anything
said or posted off the record. -/
theorem offRecord_run (env : Env A B H) (store : Store B B) (mesh : Mesh) (n : Node A B H)
    (opened : Node.open_ env store mesh = some n) (events : List (NodeEvent B H))
    (clean : Machine.Meets (next env) (Clean env) (some (fresh n)) events) {o : Handing A B H}
    (reached : Machine.run (next env) (some (fresh n)) events = some o) : KeptOff env o := by
  have inv : ∀ o, Machine.run (next env) (some (fresh n)) events = some o → Inv env o := by
    refine Machine.run_invariant (fun s => ∀ o, s = some o → Inv env o) ?_ ?_ clean
    · intro s ev inv clean o stepped
      obtain ⟨s, rfl, stepped⟩ := Option.bind_eq_some_iff.mp stepped
      exact step_inv (inv s rfl) clean stepped
    · intro o start
      obtain rfl := Option.some.inj start
      obtain ⟨pending, sound⟩ := Node.replay_quiet ⟨rfl, Node.genesis_sound env true⟩ opened
      refine ⟨sound, ?_, by simp [KeptOff, fresh]⟩
      intro e member
      have none : e ∈ n.pending := member
      simp [pending] at none
  exact (inv o reached).kept

/-- Root says one line off the record and posts another on it. -/
theorem offRecord_run_said :
    ∃ o, Machine.run (next soloEnv) (some (fresh solo)) [.mesh soloMeshElected 0 true,
        .accept (.extrinsic ⟨0, 0, .say none "psst" false true⟩),
        .accept (.extrinsic ⟨0, 1, .post ⟨7⟩ none "hello" none none [] false false⟩),
        .close 7 {}] = some o ∧ KeptOff soloEnv o ∧
      o.handed = [.body [.message ⟨7⟩ 0 none "hello" none none [] true false false] (some 7)] := by
  let events : List (NodeEvent (Plain Nat) (Plain Nat)) := [.mesh soloMeshElected 0 true,
    .accept (.extrinsic ⟨0, 0, .say none "psst" false true⟩),
    .accept (.extrinsic ⟨0, 1, .post ⟨7⟩ none "hello" none none [] false false⟩), .close 7 {}]
  have told : (Machine.run (next soloEnv) (some (fresh solo)) events).map Handing.handed =
      some [.body [.message ⟨7⟩ 0 none "hello" none none [] true false false] (some 7)] := by
    decide +kernel
  obtain ⟨o, reached, handed⟩ := Option.map_eq_some_iff.mp told
  have opened : Node.open_ soloEnv (.openDb Store.emptyDb) soloMesh = some solo := rfl
  exact ⟨o, reached, offRecord_run soloEnv _ _ solo opened events (by decide +kernel) reached,
    handed⟩

/-- Root posts one message off the record. It is in the block's body for good. -/
theorem offRecord_run_posted :
    ∃ o, Machine.run (next soloEnv) (some (fresh solo)) [.mesh soloMeshElected 0 true,
        .accept (.extrinsic ⟨0, 0, .post ⟨7⟩ none "psst" none none [] false true⟩),
        .close 7 {}] = some o ∧ ¬ KeptOff soloEnv o := by
  have told : (Machine.run (next soloEnv) (some (fresh solo)) [.mesh soloMeshElected 0 true,
        .accept (.extrinsic ⟨0, 0, .post ⟨7⟩ none "psst" none none [] false true⟩),
        .close 7 {}]).map Handing.handed =
      some [.body [.message ⟨7⟩ 0 none "psst" none none [] true false true] (some 7)] := by
    decide +kernel
  obtain ⟨o, reached, handed⟩ := Option.map_eq_some_iff.mp told
  refine ⟨o, reached, fun kept => ?_⟩
  have off := kept (.body [.message ⟨7⟩ 0 none "psst" none none [] true false true] (some 7))
    (by rw [handed]; exact List.mem_singleton_self _) _ _ rfl _ (List.mem_singleton_self _)
  simp [Effect.isPrivate] at off

end Handing

end AkumaMiot

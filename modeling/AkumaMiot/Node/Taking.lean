import AkumaMiot.Node.Frames
import AkumaMiot.Node.Push

/-!
# Taking in another's log

Pulled or pushed, what a node takes in of another's log is made of five moves: a block is
appended and applied, a checkpoint is adopted, the log is rewound, the election's state is saved,
or nothing happens. What every move keeps, taking in keeps.
-/
namespace AkumaMiot

variable {A B H : Type}

/-- The blocks a push brings. -/
def PushOp.brings (op : PushOp B) (h : Nat) (b : B) : Prop :=
  match op with
  | .blocks rows => ∃ row ∈ rows, row.height = h ∧ row.body = some b
  | _ => False

namespace Node

variable [DecidableEq A]

/-- The moves, where the blocks appended are those that `adds` names. -/
inductive TakesIn (env : Env A B H) (adds : Nat → B → Prop) : Node A B H → Node A B H → Prop
  | nothing (n : Node A B H) : TakesIn env adds n n
  | applied {n n' : Node A B H} {commits : Bool} {height : Nat} {body : B} {store : Store B B}
      {effects : List (Effect A)} {at_ : Option Nat}
      (appended : n.store.append commits height body = (.ok (), store))
      (applied : { n with store := store }.applyBlock env height effects at_ = some n')
      (added : adds height body) : TakesIn env adds n { n' with mesh := n'.mesh.appended }
  | adopted {n n' : Node A B H} {height : Nat} {state : B} {commits : Bool} {store : Store B B}
      (adopted : n.store.adoptCheckpoint commits height state = (.ok (), store))
      (reloaded : { n with store := store }.reloadFromStore env = some n') :
      TakesIn env adds n { n' with mesh := n'.mesh.appended }
  | rewound {n n' : Node A B H} {fork : Nat} {commits : Bool} {r : Rewind B} {store : Store B B}
      (rewound : n.store.rewindForFork commits fork = (.ok r, store))
      (reloaded : { n with store := store }.reloadFromStore env = some n') : TakesIn env adds n n'
  | saved (n : Node A B H) (commits : Bool) : TakesIn env adds n (n.saveHard env commits)
  | trans {a b c : Node A B H} (first : TakesIn env adds a b) (second : TakesIn env adds b c) :
      TakesIn env adds a c

namespace TakesIn

variable {env : Env A B H} {adds : Nat → B → Prop} {n n' : Node A B H}

/-! ## Pulling -/

theorem syncRows {commits goes : Bool} {rows : List (BlockRow B)}
    (each : ∀ row ∈ rows, ∀ b, row.body = some b → adds row.height b)
    (synced : n.syncRows env commits rows = some (goes, n')) : TakesIn env adds n n' := by
  induction rows generalizing n with
  | nil =>
    cases synced
    exact .nothing _
  | cons row rows ih =>
    have later := fun m => @ih m fun r member => each r (List.mem_cons_of_mem row member)
    unfold Node.syncRows at synced
    split at synced
    · exact later _ synced
    · split at synced
      · cases synced
        exact .nothing _
      next body decodes =>
        split at synced
        · cases synced
          exact .nothing _
        next store appended =>
          simp only [Option.bind_eq_bind, Option.bind_eq_some_iff] at synced
          obtain ⟨⟨effects, at_⟩, _, m, applied, synced⟩ := synced
          exact .trans (.applied appended applied (each row (by simp) body decodes))
            (later _ synced)

theorem takePage {commits : Commits} {peer : Route} {rows : List (BlockRow B)} {goes : Bool}
    (each : ∀ row ∈ rows, ∀ b, row.body = some b → adds row.height b)
    (taken : n.takePage env commits peer rows = some (goes, n')) : TakesIn env adds n n' := by
  unfold Node.takePage at taken
  split at taken
  · cases taken
    exact .nothing _
  · simp only [Option.bind_eq_bind, Option.bind_eq_some_iff, Option.pure_def] at taken
    obtain ⟨⟨went, m⟩, synced, taken⟩ := taken
    cases went with
    | true =>
      cases taken
      exact .trans (.syncRows each synced) (.saved m commits.aux)
    | false =>
      cases taken
      exact .syncRows each synced

theorem takeCheckpoint {commits : Commits} {peer : Route} {answer : Option (Nat × B)}
    {adopted : Bool} (taken : n.takeCheckpoint env commits peer answer = some (adopted, n')) :
    TakesIn env adds n n' := by
  unfold Node.takeCheckpoint at taken
  split at taken
  · cases taken
    exact .nothing _
  · split at taken
    · cases taken
      exact .nothing _
    · split at taken
      · simp at taken
      next store adopts =>
        simp only [Option.bind_eq_bind, Option.bind_eq_some_iff, Option.pure_def] at taken
        obtain ⟨m, reloaded, taken⟩ := taken
        cases taken
        exact .trans (.adopted adopts reloaded) (.saved _ commits.aux)

theorem adoptPeerCheckpointIfAhead {peer : Route} {primary : Store B B} {peerCp : Nat}
    {adopted : Bool}
    (asked : n.adoptPeerCheckpointIfAhead env peer primary peerCp = some (adopted, n')) :
    TakesIn env adds n n' := by
  unfold Node.adoptPeerCheckpointIfAhead at asked
  split at asked
  · cases asked
    exact .nothing _
  · exact .takeCheckpoint asked

theorem rewind {commits : Bool} {peer : Route} {fork : Nat}
    (rewound : n.rewind env commits peer fork = some n') : TakesIn env adds n n' := by
  unfold Node.rewind at rewound
  split at rewound
  · cases rewound
    exact .nothing _
  · split at rewound
    · simp at rewound
    next r store rewinds => exact .rewound rewinds rewound

/-! ## Being pushed to -/

theorem pushRows {commits : Nat → Bool} {rows : List (BlockRow B)} {why : Option PushRefusal}
    (each : ∀ row ∈ rows, ∀ b, row.body = some b → adds row.height b)
    (pushed : n.pushRows env commits rows = some (why, n')) : TakesIn env adds n n' := by
  induction rows generalizing n with
  | nil =>
    cases pushed
    exact .nothing _
  | cons row rows ih =>
    have later := fun m => @ih m fun r member => each r (List.mem_cons_of_mem row member)
    unfold Node.pushRows at pushed
    simp only at pushed
    split at pushed
    -- A row of a height it has is passed over; whatever else does not fit ends the push.
    · exact later _ pushed
    · split at pushed
      · cases pushed
        exact .nothing _
      · split at pushed
        · cases pushed
          exact .nothing _
        next body decodes =>
          split at pushed
          · cases pushed
            exact .nothing _
          · split at pushed
            · cases pushed
              exact .nothing _
            next store appended =>
              simp only [Option.bind_eq_bind, Option.bind_eq_some_iff] at pushed
              obtain ⟨m, applied, pushed⟩ := pushed
              exact .trans (.applied appended applied (each row (by simp) body decodes))
                (later _ pushed)

theorem takePush {commits : PushCommits} {op : PushOp B} {reply : PushReply}
    (taken : n.takePush env commits op = some (reply, n')) : TakesIn env op.brings n n' := by
  cases op with
  | checkpoint height state =>
    simp only [Node.takePush] at taken
    split at taken
    · cases state with
      | none =>
        cases taken
        exact .nothing _
      | some state =>
        simp only at taken
        split at taken
        · cases taken
          exact .nothing _
        next store adopts =>
          simp only [Option.bind_eq_bind, Option.bind_eq_some_iff, Option.pure_def] at taken
          obtain ⟨m, reloaded, taken⟩ := taken
          cases taken
          exact .trans (.adopted adopts reloaded) (.saved _ commits.aux)
    · cases taken
      exact .nothing _
  | rewind fork =>
    simp only [Node.takePush] at taken
    split at taken
    · split at taken
      · cases taken
        exact .nothing _
      next r store rewinds =>
        simp only [Option.bind_eq_bind, Option.bind_eq_some_iff, Option.pure_def] at taken
        obtain ⟨m, reloaded, taken⟩ := taken
        cases taken
        exact .rewound rewinds reloaded
    · cases taken
      exact .nothing _
  | blocks rows =>
    -- Every row that is sent has its body in the request.
    have each : ∀ row ∈ rows, ∀ b, row.body = some b → (PushOp.blocks rows).brings row.height b :=
      fun row member b body => ⟨row, member, rfl, body⟩
    simp only [Node.takePush, Option.bind_eq_bind, Option.bind_eq_some_iff] at taken
    obtain ⟨⟨why, m⟩, pushed, taken⟩ := taken
    cases why with
    | some why =>
      cases taken
      exact .pushRows each pushed
    | none =>
      cases taken
      exact .trans (.pushRows each pushed) (.saved m commits.aux)

end TakesIn

end Node

end AkumaMiot

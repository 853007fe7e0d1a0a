import AkumaMiot.Litter.Fold

/-!
# What a block tells

Opening a block tells what the tick decided. A call tells what the table answers it, or one
effect of the pallet's own.
-/
namespace AkumaMiot

variable {A : Type}

namespace Storage

theorem deposit_told {s : Storage A} (effects : List (Effect A)) {e : Effect A}
    (told : e ∈ (effects.foldl depositEvent s).events) : e ∈ s.events ∨ e ∈ effects := by
  by_cases opened : s.blockNumber = 0
  · have silent : ∀ effects : List (Effect A), effects.foldl depositEvent s = s := by
      intro effects
      induction effects with
      | nil => rfl
      | cons e es ih => rw [List.foldl_cons, depositEvent, if_pos opened, ih]
    rw [silent] at told
    exact .inl told
  · rw [deposit_events opened] at told
    exact List.mem_append.mp told

theorem depositEvent_told {s : Storage A} {d e : Effect A} (told : e ∈ (s.depositEvent d).events) :
    e ∈ s.events ∨ e = d := by
  rcases deposit_told [d] told with old | new
  · exact .inl old
  · exact .inr (List.mem_singleton.mp new)

variable {rt : Runtime A}

/-- What a block opens with is about tasks. -/
theorem initializeBlock_told {s : Storage A} {e : Effect A}
    (told : e ∈ (s.initializeBlock rt).events) : TaskTable.Tabled e := by
  unfold initializeBlock onInitialize at told
  by_cases folding : s.replaying = true
  · simp only [folding, if_true] at told
    split at told
    · rcases deposit_told _ told with old | new
      · simp at old
      · simp at new
    · simp at told
  · simp only [folding, Bool.false_eq_true, if_false] at told
    split at told
    · rcases deposit_told _ told with old | new
      · simp at old
      · exact (TaskTable.tick_answers new).tabled
    · simp at told

theorem tickNow_told {s : Storage A} {e : Effect A} (told : e ∈ (s.tickNow rt).events) :
    e ∈ s.events ∨ TaskTable.Tabled e := by
  unfold tickNow at told
  simp only at told
  split at told
  · exact (deposit_told _ told).imp id fun new => (TaskTable.tick_answers new).tabled
  · exact .inl told

/-- An effect of the pallet's own, and the call it tells of. -/
inductive Own : LitterCall A → Effect A → Prop
  | reported (who : A) (turns toolCalls tokens ms : Nat) :
    Own (.reportStats turns toolCalls tokens ms) (.statsReported who turns toolCalls tokens ms)
  | reported2 (who : A) (turns toolCalls messages tokens ms : Nat) :
    Own (.reportStats2 turns toolCalls messages tokens ms)
      (.statsReported2 who turns toolCalls messages tokens ms)
  | posted (id : MessageId) (who : A) (to_ : Option A) (body : String)
      (parent : Option MessageId) (artifactId : Option ArtifactId) (tags : List String)
      (fromRoot noAck offRecord : Bool) :
    Own (.post id to_ body parent artifactId tags noAck offRecord)
      (.message id who to_ body parent artifactId tags fromRoot noAck offRecord)
  | reacted (who : A) (target : MessageId) (emoji : String) :
    Own (.react target emoji) (.reacted who target emoji)
  | voted (who : A) (artifact : ArtifactId) (up : Bool) :
    Own (.vote artifact up) (.voted who artifact up)
  | requested (who : A) (name note : String) (sig : Signature) (carrier : A) :
    Own (.carryPatronRequest who name note sig) (.patronRequested who name note carrier)
  | approved (who : A) (name : String) (by_ : A) :
    Own (.approvePatron who) (.patronApproved who name by_)
  | rejected (who by_ : A) : Own (.rejectPatronRequest who) (.patronRejected who by_)
  | revoked (who by_ : A) : Own (.revokePatron who) (.patronRevoked who by_)

section Calls

variable [DecidableEq A]

theorem records_own {s : Storage A} {who : A} {c : LitterCall A} {e : Effect A}
    (recorded : records s who c = some e) : Own c e := by
  cases c with
  | approvePatron requester =>
    obtain ⟨req, _, rfl⟩ := Option.map_eq_some_iff.mp recorded
    exact .approved requester req.name who
  | openParent | plan | update | setLeader | setRoot | reassign | say | clearAll
  | publishStandaloneArtifact | requestCompaction => cases recorded
  | _ =>
    cases recorded
    constructor

/-- What an accepted call tells. -/
theorem dispatch_told {s s' : Storage A} {origin : Origin A} {c : LitterCall A}
    (accepted : s.dispatch rt origin c = .ok s') {e : Effect A} (told : e ∈ s'.events) :
    e ∈ s.events ∨ TaskTable.Tabled e ∨ Own c e := by
  cases dispatch_accepted accepted with
  | @verb _ _ call effects t _ _ answer =>
    refine (deposit_told _ told).imp id fun new => .inl ?_
    have answers := TaskTable.call_answers (s.table rt) call s.now
    rw [answer] at answers
    exact (answers e new).tabled
  | @own _ _ d _ recorded =>
    have events := (s.replayEffect_table rt d s.now).2.1
    rcases depositEvent_told told with old | rfl
    · exact .inl (events ▸ old)
    · exact .inr (.inr (records_own recorded))
  | @clearAll _ effects t _ answer =>
    refine (deposit_told _ told).imp id fun new => .inl ?_
    unfold TaskTable.clearAll at answer
    split at answer
    · simp at answer
    · obtain rfl := Except.ok.inj (Prod.mk.inj answer).1
      obtain ⟨_, _, rfl⟩ := List.mem_map.mp new
      trivial
  | requestCompaction | setRoot => exact .inl told

end Calls

end Storage

end AkumaMiot

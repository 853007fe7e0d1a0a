import AkumaMiot.Lib.Scale
import AkumaMiot.Primitives

/-!
# Block bodies, as bytes

A body is its effects and, since seal times, the eight bytes of the time behind them. Nothing says
which of the two it is but how many bytes are left once the effects are read.
-/
namespace AkumaMiot

open Scale

variable {A : Type}

/-! ## The effects' encoding -/

section Effects

def TaskId.codec : Codec TaskId :=
  ((uint 4).pair (uint 2)).as (fun id => (id.parent, id.sub)) fun (parent, sub) =>
    some ⟨parent, sub⟩

def MessageId.codec : Codec MessageId := (uint 8).as (·.value) fun value => some ⟨value⟩

def ArtifactId.variants : List (Variant ArtifactId) :=
  [⟨TaskId.codec, .task, fun | .task id => some id | _ => none⟩,
   ⟨uint 4, .note, fun | .note n => some n | _ => none⟩]

def ArtifactId.codec : Codec ArtifactId := enum variants

def Act.codec : Codec Act := plains [.claim, .done, .failed, .clear, .reopen, .artifact]

def Directive.codec : Codec Directive :=
  plains [.planNeeded, .clearanceNeeded, .artifactNeeded, .reassignNeeded, .leaderElected]

def Requeue.codec : Codec Requeue := plains [.unclaimed, .rehomed, .leaseExpired, .reopened]

/-- `AccountId32`, its 32 bytes. -/
def accountId : Codec (List UInt8) := byte.array 32

variable (account : Codec A)

/-- The variants in the order they are declared in, each with its fields in theirs. -/
def Effect.variants : List (Variant (Effect A)) :=
  [⟨account.pair (TaskId.codec.pair (text.pair text)),
      fun (to_, task, what, expect) => .assigned to_ task what expect,
      fun | .assigned to_ task what expect => some (to_, task, what, expect) | _ => none⟩,
   ⟨account.pair (TaskId.codec.pair Directive.codec),
      fun (to_, task, directive) => .directed to_ task directive,
      fun | .directed to_ task directive => some (to_, task, directive) | _ => none⟩,
   ⟨account.pair (TaskId.codec.pair ((uint 1).pair bool)),
      fun (to_, task, remaining, last) => .nudge to_ task remaining last,
      fun | .nudge to_ task remaining last => some (to_, task, remaining, last) | _ => none⟩,
   ⟨account.pair (account.option.pair (text.pair (bool.pair (bool.pair bool)))),
      fun (sender, to_, body, fromRoot, noAck, offRecord) =>
        .said sender to_ body fromRoot noAck offRecord,
      fun
        | .said sender to_ body fromRoot noAck offRecord =>
          some (sender, to_, body, fromRoot, noAck, offRecord)
        | _ => none⟩,
   ⟨account.pair (TaskId.codec.pair text), fun (who, task, text) => .opened who task text,
      fun | .opened who task text => some (who, task, text) | _ => none⟩,
   ⟨account.pair (TaskId.codec.pair (uint 4)), fun (who, task, count) => .planned who task count,
      fun | .planned who task count => some (who, task, count) | _ => none⟩,
   ⟨account.pair (TaskId.codec.pair (Act.codec.pair text)),
      fun (who, task, act, text) => .record who task act text,
      fun | .record who task act text => some (who, task, act, text) | _ => none⟩,
   ⟨TaskId.codec.pair (account.option.pair Requeue.codec),
      fun (task, holder, why) => .requeued task holder why,
      fun | .requeued task holder why => some (task, holder, why) | _ => none⟩,
   ⟨account.pair TaskId.codec, fun (holder, task) => .nudgeBudgetSpent holder task,
      fun | .nudgeBudgetSpent holder task => some (holder, task) | _ => none⟩,
   ⟨TaskId.codec.pair (text.pair (text.pair account)),
      fun (task, title, body, author) => .closed task title body author,
      fun | .closed task title body author => some (task, title, body, author) | _ => none⟩,
   ⟨TaskId.codec, .failed, fun | .failed task => some task | _ => none⟩,
   ⟨TaskId.codec.pair (account.option.pair account),
      fun (task, old, to_) => .rehomed task old to_,
      fun | .rehomed task old to_ => some (task, old, to_) | _ => none⟩,
   ⟨account.pair ((uint 4).pair (text.pair text)),
      fun (author, id, title, body) => .standaloneArtifact author id title body,
      fun | .standaloneArtifact author id title body => some (author, id, title, body)
          | _ => none⟩,
   ⟨account.pair ((uint 4).pair ((uint 4).pair ((uint 8).pair (uint 8)))),
      fun (who, turns, toolCalls, tokens, ms) => .statsReported who turns toolCalls tokens ms,
      fun
        | .statsReported who turns toolCalls tokens ms => some (who, turns, toolCalls, tokens, ms)
        | _ => none⟩,
   ⟨account.pair ((uint 4).pair ((uint 4).pair ((uint 4).pair ((uint 8).pair (uint 8))))),
      fun (who, turns, toolCalls, messages, tokens, ms) =>
        .statsReported2 who turns toolCalls messages tokens ms,
      fun
        | .statsReported2 who turns toolCalls messages tokens ms =>
          some (who, turns, toolCalls, messages, tokens, ms)
        | _ => none⟩,
   ⟨MessageId.codec.pair (account.pair (account.option.pair (text.pair
        (MessageId.codec.option.pair (ArtifactId.codec.option.pair (text.list.pair
          (bool.pair (bool.pair bool)))))))),
      fun (id, sender, to_, body, parent, artifactId, tags, fromRoot, noAck, offRecord) =>
        .message id sender to_ body parent artifactId tags fromRoot noAck offRecord,
      fun
        | .message id sender to_ body parent artifactId tags fromRoot noAck offRecord =>
          some (id, sender, to_, body, parent, artifactId, tags, fromRoot, noAck, offRecord)
        | _ => none⟩,
   ⟨account.pair (MessageId.codec.pair text), fun (who, target, emoji) => .reacted who target emoji,
      fun | .reacted who target emoji => some (who, target, emoji) | _ => none⟩,
   ⟨account.pair (ArtifactId.codec.pair bool), fun (who, artifact, up) => .voted who artifact up,
      fun | .voted who artifact up => some (who, artifact, up) | _ => none⟩,
   ⟨account.pair (text.pair (text.pair account)),
      fun (who, name, note, carrier) => .patronRequested who name note carrier,
      fun | .patronRequested who name note carrier => some (who, name, note, carrier)
          | _ => none⟩,
   ⟨account.pair (text.pair account), fun (who, name, by_) => .patronApproved who name by_,
      fun | .patronApproved who name by_ => some (who, name, by_) | _ => none⟩,
   ⟨account.pair account, fun (who, by_) => .patronRejected who by_,
      fun | .patronRejected who by_ => some (who, by_) | _ => none⟩,
   ⟨account.pair account, fun (who, by_) => .patronRevoked who by_,
      fun | .patronRevoked who by_ => some (who, by_) | _ => none⟩]

def Effect.codec : Codec (Effect A) := enum (variants account)

end Effects

/-! ## What can be encoded -/

/-- A `String` whose length `Compact<u32>` can hold. -/
def Short (s : String) : Prop := s.utf8ByteSize < 2 ^ 32

/-- `u32`. -/
def U32 (n : Nat) : Prop := n < 2 ^ 32

/-- `u64`. -/
def U64 (n : Nat) : Prop := n < 2 ^ 64

def TaskId.Fits (id : TaskId) : Prop := U32 id.parent ∧ id.sub < 2 ^ 16

def MessageId.Fits (id : MessageId) : Prop := U64 id.value

def ArtifactId.Fits : ArtifactId → Prop
  | .task id => id.Fits
  | .note n => U32 n

/-- The numbers are within their types, the accounts are ones, and no text is too long. -/
def Effect.Fits (account : A → Prop) : Effect A → Prop
  | .assigned to_ task what expect => account to_ ∧ task.Fits ∧ Short what ∧ Short expect
  | .directed to_ task _ => account to_ ∧ task.Fits
  | .nudge to_ task remaining _ => account to_ ∧ task.Fits ∧ remaining < 2 ^ 8
  | .said sender to_ body _ _ _ => account sender ∧ (∀ a ∈ to_, account a) ∧ Short body
  | .opened who task text => account who ∧ task.Fits ∧ Short text
  | .planned who task count => account who ∧ task.Fits ∧ U32 count
  | .record who task _ text => account who ∧ task.Fits ∧ Short text
  | .requeued task holder _ => task.Fits ∧ ∀ a ∈ holder, account a
  | .nudgeBudgetSpent holder task => account holder ∧ task.Fits
  | .closed task title body author => task.Fits ∧ Short title ∧ Short body ∧ account author
  | .failed task => task.Fits
  | .rehomed task old to_ => task.Fits ∧ (∀ a ∈ old, account a) ∧ account to_
  | .standaloneArtifact author id title body =>
    account author ∧ U32 id ∧ Short title ∧ Short body
  | .statsReported who turns toolCalls tokens ms =>
    account who ∧ U32 turns ∧ U32 toolCalls ∧ U64 tokens ∧ U64 ms
  | .statsReported2 who turns toolCalls messages tokens ms =>
    account who ∧ U32 turns ∧ U32 toolCalls ∧ U32 messages ∧ U64 tokens ∧ U64 ms
  | .message id sender to_ body parent artifactId tags _ _ _ =>
    id.Fits ∧ account sender ∧ (∀ a ∈ to_, account a) ∧ Short body ∧ (∀ p ∈ parent, p.Fits) ∧
      (∀ a ∈ artifactId, a.Fits) ∧ tags.length < 2 ^ 32 ∧ ∀ tag ∈ tags, Short tag
  | .reacted who target emoji => account who ∧ target.Fits ∧ Short emoji
  | .voted who artifact _ => account who ∧ artifact.Fits
  | .patronRequested who name note carrier =>
    account who ∧ Short name ∧ Short note ∧ account carrier
  | .patronApproved who name by_ => account who ∧ Short name ∧ account by_
  | .patronRejected who by_ => account who ∧ account by_
  | .patronRevoked who by_ => account who ∧ account by_

theorem TaskId.codec_lawful : TaskId.codec.Lawful TaskId.Fits := by
  refine ((uint_lawful 4).pair (uint_lawful 2)).as fun p id => ?_
  obtain ⟨parent, sub⟩ := p
  cases id
  simp [eq_comm]

theorem MessageId.codec_lawful : MessageId.codec.Lawful MessageId.Fits := by
  refine (uint_lawful 8).as fun value id => ?_
  cases id
  simp [eq_comm]

theorem ArtifactId.variants_lawful : ∀ v ∈ ArtifactId.variants, v.Lawful ArtifactId.Fits := by
  simp only [variants, List.forall_mem_cons, List.not_mem_nil, false_imp_iff, implies_true,
    and_true]
  refine ⟨⟨TaskId.codec_lawful, fun _ => rfl, fun {a _} parts => ?_⟩,
    ⟨uint_lawful 4, fun _ => rfl, fun {a _} parts => ?_⟩⟩
  · cases a <;> cases parts; rfl
  · cases a <;> cases parts; rfl

theorem ArtifactId.variants_indexed : Indexed ArtifactId.ctorIdx 0 ArtifactId.variants :=
  ⟨fun _ => rfl, fun _ => rfl, trivial⟩

theorem ArtifactId.codec_lawful : ArtifactId.codec.Lawful ArtifactId.Fits :=
  enum_lawful variants_lawful (variants_indexed.apart variants_lawful) (by decide) fun a _ => by
    cases a <;> simp [variants]

theorem Act.codec_lawful : Act.codec.Lawful fun _ => True :=
  (plains_lawful (by decide) (by decide)).of_iff fun act => by cases act <;> simp

theorem Directive.codec_lawful : Directive.codec.Lawful fun _ => True :=
  (plains_lawful (by decide) (by decide)).of_iff fun directive => by cases directive <;> simp

theorem Requeue.codec_lawful : Requeue.codec.Lawful fun _ => True :=
  (plains_lawful (by decide) (by decide)).of_iff fun why => by cases why <;> simp

theorem Effect.variants_indexed (account : Codec A) :
    Indexed Effect.ctorIdx 0 (Effect.variants account) := by
  simp only [variants, Indexed, and_true]
  and_intros <;> exact fun _ => rfl

theorem Effect.variants_parts (account : Codec A) :
    ∀ v ∈ Effect.variants account, ∀ f, v.parts (v.build f) = some f := by
  simp only [variants, List.forall_mem_cons, List.not_mem_nil, false_imp_iff, implies_true,
    and_true]

theorem Effect.variants_built (account : Codec A) :
    ∀ v ∈ Effect.variants account, ∀ e f, v.parts e = some f → v.build f = e := by
  simp only [variants, List.forall_mem_cons, List.not_mem_nil, false_imp_iff, implies_true,
    and_true]
  and_intros <;> (intro e f parts; cases e <;> cases parts; rfl)

/-- Every effect is one of the variant its constructor names. -/
theorem Effect.variants_all (account : Codec A) (e : Effect A) :
    ∃ v, (Effect.variants account)[e.ctorIdx]? = some v ∧ (v.parts e).isSome := by
  cases e <;> exact ⟨_, rfl, rfl⟩

theorem Effect.variants_fields {account : Codec A} {fits : A → Prop} (who : account.Lawful fits) :
    ∀ v ∈ Effect.variants account, v.fields.Lawful fun f => Effect.Fits fits (v.build f) := by
  have task := TaskId.codec_lawful
  have flag := bool_lawful
  simp only [variants, List.forall_mem_cons, List.not_mem_nil, false_imp_iff, implies_true,
    and_true]
  refine ⟨(who.pair (task.pair (text_lawful.pair text_lawful))).of_iff ?_, 
    (who.pair (task.pair Directive.codec_lawful)).of_iff ?_,
    (who.pair (task.pair ((uint_lawful 1).pair flag))).of_iff ?_,
    (who.pair (who.option.pair (text_lawful.pair (flag.pair (flag.pair flag))))).of_iff ?_,
    (who.pair (task.pair text_lawful)).of_iff ?_,
    (who.pair (task.pair (uint_lawful 4))).of_iff ?_,
    (who.pair (task.pair (Act.codec_lawful.pair text_lawful))).of_iff ?_,
    (task.pair (who.option.pair Requeue.codec_lawful)).of_iff ?_,
    (who.pair task).of_iff ?_,
    (task.pair (text_lawful.pair (text_lawful.pair who))).of_iff ?_,
    task.of_iff ?_,
    (task.pair (who.option.pair who)).of_iff ?_,
    (who.pair ((uint_lawful 4).pair (text_lawful.pair text_lawful))).of_iff ?_,
    (who.pair ((uint_lawful 4).pair ((uint_lawful 4).pair ((uint_lawful 8).pair
      (uint_lawful 8))))).of_iff ?_,
    (who.pair ((uint_lawful 4).pair ((uint_lawful 4).pair ((uint_lawful 4).pair
      ((uint_lawful 8).pair (uint_lawful 8)))))).of_iff ?_,
    (MessageId.codec_lawful.pair (who.pair (who.option.pair (text_lawful.pair
      (MessageId.codec_lawful.option.pair (ArtifactId.codec_lawful.option.pair
        (text_lawful.list.pair (flag.pair (flag.pair flag))))))))).of_iff ?_,
    (who.pair (MessageId.codec_lawful.pair text_lawful)).of_iff ?_,
    (who.pair (ArtifactId.codec_lawful.pair flag)).of_iff ?_,
    (who.pair (text_lawful.pair (text_lawful.pair who))).of_iff ?_,
    (who.pair (text_lawful.pair who)).of_iff ?_,
    (who.pair who).of_iff ?_,
    (who.pair who).of_iff ?_⟩ <;>
    simp only [Effect.Fits, Short, U32, U64, true_and, and_true, implies_true,
      Nat.reducePow]

theorem Effect.codec_lawful {account : Codec A} {fits : A → Prop} (who : account.Lawful fits) :
    (Effect.codec account).Lawful (Effect.Fits fits) := by
  have lawful : ∀ v ∈ Effect.variants account, v.Lawful (Effect.Fits fits) := fun v member =>
    ⟨variants_fields who v member, variants_parts account v member,
      variants_built account v member _ _⟩
  refine enum_lawful lawful ((variants_indexed account).apart lawful) (by simp [variants])
    fun e _ => ?_
  obtain ⟨v, there, parts⟩ := variants_all account e
  exact ⟨v, List.mem_of_getElem? there, parts⟩

/-! ## Sealing and opening -/

section Body

variable (scale : Codec (List (Effect A)))

/-- `seal_body`: the effects, then the seal time, a `u64`. -/
def sealBody (effects : List (Effect A)) (at_ : Nat) : List UInt8 :=
  scale.encode effects ++ (uint 8).encode at_

/-- `open_body`. A body from before seal times reads as `none`. -/
def openBody (body : List UInt8) : Option (List (Effect A) × Option Nat) := do
  let (effects, input) ← scale.decode body
  let at_ := if input.length = 8 then ((uint 8).decode input).map (·.1) else none
  pure (effects, at_)

variable {scale} {fits : List (Effect A) → Prop}

/-- What is read first is the effects, and what is left of the body says how it was written. -/
theorem openBody_append (lawful : scale.Lawful fits) {effects : List (Effect A)}
    (fit : fits effects) (input : List UInt8) :
    openBody scale (scale.encode effects ++ input) =
      some (effects, if input.length = 8 then ((uint 8).decode input).map (·.1) else none) := by
  simp only [openBody, lawful.read fit, Option.bind_eq_bind, Option.bind_some, Option.pure_def]

/-- A sealed body opens to its effects and its time, one from before seal times to its effects and
none, and a reader of effects alone finds the same ones in a new body. -/
theorem opens_sealed (lawful : scale.Lawful fits) {effects : List (Effect A)} (fit : fits effects)
    {at_ : Nat} (u64 : at_ < 2 ^ 64) :
    openBody scale (sealBody scale effects at_) = some (effects, some at_) ∧
      openBody scale (scale.encode effects) = some (effects, none) ∧
      scale.decode (sealBody scale effects at_) = some (effects, (uint 8).encode at_) := by
  have time : (uint 8).decode ((uint 8).encode at_) = some (at_, []) := (uint_lawful 8).inverse u64
  have eight : ((uint 8).encode at_).length = 8 := length_toBytes 8 at_
  refine ⟨?_, ?_, lawful.read fit _⟩
  · rw [sealBody, openBody_append lawful fit, if_pos eight, time, Option.map_some]
  · have none_left := openBody_append lawful fit []
    rwa [List.append_nil] at none_left

/-- A body that opens with a time is the one sealed so, byte for byte. -/
theorem opens_iff_sealed (lawful : scale.Lawful fits) {body : List UInt8}
    {effects : List (Effect A)} {at_ : Nat} :
    openBody scale body = some (effects, some at_) ↔
      fits effects ∧ at_ < 2 ^ 64 ∧ body = sealBody scale effects at_ := by
  refine ⟨fun opens => ?_, fun ⟨fit, u64, same⟩ => same ▸ (opens_sealed lawful fit u64).1⟩
  simp only [openBody, Option.bind_eq_bind, Option.bind_eq_some_iff, Option.pure_def,
    Option.some.injEq, Prod.mk.injEq, Prod.exists] at opens
  obtain ⟨effects, input, reads, rfl, time⟩ := opens
  obtain ⟨fit, wrote⟩ := lawful.written reads
  split at time
  next eight =>
    obtain ⟨⟨at_, rest⟩, reads, rfl⟩ := Option.map_eq_some_iff.mp time
    obtain ⟨u64, wrote'⟩ := (uint_lawful 8).written reads
    -- The eight bytes left are the time's, and nothing is left of them.
    have none_left : rest = [] := by
      have lengths := congrArg List.length wrote'
      have eight' : ((uint 8).encode at_).length = 8 := length_toBytes 8 at_
      rw [List.length_append, eight, eight'] at lengths
      exact List.eq_nil_of_length_eq_zero (by omega)
    rw [none_left, List.append_nil] at wrote'
    exact ⟨fit, u64, by rw [wrote, wrote', sealBody]⟩
  · cases time

/-- No body from before seal times is also a sealed one. -/
theorem sealBody_ne_encode (lawful : scale.Lawful fits) {effects others : List (Effect A)}
    (fit : fits effects) (fit' : fits others) {at_ : Nat} (u64 : at_ < 2 ^ 64) :
    sealBody scale effects at_ ≠ scale.encode others := by
  intro same
  have opens := (opens_sealed lawful fit u64).1
  rw [same, (opens_sealed lawful fit' u64).2.1] at opens
  cases opens

end Body

/-- `Vec<Effect<AccountId>>`. -/
def vecEffect : Codec (List (Effect (List UInt8))) := (Effect.codec accountId).list

theorem accountId_lawful : accountId.Lawful (·.length = 32) :=
  (byte_lawful.array 32).of_iff fun _ => by simp

theorem vecEffect_lawful :
    vecEffect.Lawful fun es => es.length < 2 ^ 32 ∧ ∀ e ∈ es, e.Fits (·.length = 32) :=
  (Effect.codec_lawful accountId_lawful).list

/-- A message, a record and a revocation. -/
def talk : List (Effect (List UInt8)) :=
  let cat := List.replicate 32 7
  let root := List.replicate 32 1
  [.message ⟨9⟩ cat (some root) "done, see the report" (some ⟨8⟩) (some (.task ⟨5, 0⟩)) ["akuma"]
      false true false,
    .record cat ⟨5, 1⟩ .done "ok", .requeued ⟨5, 2⟩ none .leaseExpired,
    .patronRevoked (List.replicate 32 3) root]

theorem opens_sealed_talk :
    openBody vecEffect (sealBody vecEffect talk 1790000000123) = some (talk, some 1790000000123) ∧
      openBody vecEffect (vecEffect.encode talk) = some (talk, none) ∧
      vecEffect.decode (sealBody vecEffect talk 1790000000123) =
        some (talk, (uint 8).encode 1790000000123) :=
  opens_sealed vecEffect_lawful
    (by
      have texts : Short "done, see the report" ∧ Short "akuma" ∧ Short "ok" := by
        simp only [Short]
        decide +kernel
      simp [talk, Effect.Fits, TaskId.Fits, MessageId.Fits, ArtifactId.Fits, U32, U64, texts])
    (by decide)

-- `Said` is the fourth variant, and a body of one letter to the litter at large.
example : sealBody vecEffect [.said (List.replicate 32 7) none "o" false true false] 258 =
    [4, 3] ++ List.replicate 32 7 ++ [0, 4, 111, 0, 1, 0] ++ [2, 1, 0, 0, 0, 0, 0, 0] := by
  decide +kernel

end AkumaMiot

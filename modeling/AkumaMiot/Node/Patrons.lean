import AkumaMiot.Lib.Finmap
import AkumaMiot.Litter.Accounts
import AkumaMiot.Litter.Beside
import AkumaMiot.Node.Node
import AkumaMiot.Tasks.Lifecycle

/-!
# Who is a patron

A stranger asks, a member carries the request, root or a patron lets the stranger in. Whatever
is called by whomever: a name has one bearer, nobody is a patron and a requester at once, and a
patron holds the one provider it was given.
-/
namespace AkumaMiot.Storage

variable {A : Type} [DecidableEq A]

/-! ## What a litter's patrons are -/

def isPending (s : Storage A) (who : A) : Bool := (s.patronRequests.lookup who).isSome

/-- What a patron or a requester is called. -/
def GoesBy (s : Storage A) (who : A) (name : String) : Prop :=
  (∃ p, s.patrons.lookup who = some p ∧ p.name = name) ∨
    ∃ r, s.patronRequests.lookup who = some r ∧ r.name = name

/-- `[a-z0-9_-]`, 1 to 32 of them. -/
def Shaped (name : String) : Prop :=
  name ≠ "" ∧ name.utf8ByteSize ≤ maxPatronName ∧
    ∀ c ∈ name.toList, c.isLower ∨ c.isDigit ∨ c = '_' ∨ c = '-'

/-- What holds of patrons and requests under one root and one roster, where `base` counts the
providers that are not the pallet's. -/
structure Membership (root : A) (roster : List (String × A)) (base : A → Nat)
    (s : Storage A) : Prop where
  sameRoot : s.litter.root = some root
  sameRoster : s.roster = roster
  rosterNames : (roster.map Prod.fst).Nodup
  apart : ∀ who, s.isPatron who = true → s.isPending who = false
  outside : ∀ who, s.isPatron who = true ∨ s.isPending who = true →
    who ≠ root ∧ who ∉ roster.map Prod.snd
  unlisted : ∀ who name, s.GoesBy who name → name ∉ roster.map Prod.fst
  alone : ∀ who other name, s.GoesBy who name → s.GoesBy other name → who = other
  shaped : ∀ who name, s.GoesBy who name → Shaped name
  bounded : s.patronRequests.keys.card ≤ maxPatronRequests
  providers : ∀ who, s.providers who = base who + if s.isPatron who then 1 else 0

/-! ## Reading -/

theorem goesBy_some (s : Storage A) (who : A) :
    (∃ name, s.GoesBy who name) ↔ s.isPatron who = true ∨ s.isPending who = true := by
  simp only [GoesBy, isPatron, isPending, Option.isSome_iff_exists]
  constructor
  · rintro ⟨_, ⟨p, found, _⟩ | ⟨r, found, _⟩⟩
    · exact .inl ⟨p, found⟩
    · exact .inr ⟨r, found⟩
  · rintro (⟨p, found⟩ | ⟨r, found⟩)
    · exact ⟨p.name, .inl ⟨p, found, rfl⟩⟩
    · exact ⟨r.name, .inr ⟨r, found, rfl⟩⟩

theorem isMember_eq_false {s : Storage A} {who : A} :
    s.isMember who = false ↔ s.litter.root ≠ some who ∧ who ∉ s.roster.map Prod.snd := by
  simp only [isMember, isRoot, Bool.or_eq_false_iff, decide_eq_false_iff_not, List.any_eq_false,
    List.mem_map, not_exists, not_and, decide_eq_true_eq]

theorem nameIsFree_iff {s : Storage A} {name : String} :
    s.nameIsFree name = true ↔
      Shaped name ∧ name ∉ s.roster.map Prod.fst ∧ ∀ who, ¬ s.GoesBy who name := by
  have listed : (s.roster.any fun entry => entry.1 = name) = false ↔
      name ∉ s.roster.map Prod.fst := by
    rw [List.any_eq_false, List.mem_map, not_exists]
    constructor
    · rintro none entry ⟨member, named⟩
      exact none entry member (decide_eq_true named)
    · intro none entry member named
      exact none entry ⟨member, of_decide_eq_true named⟩
  have worn : (s.patrons.any fun _ p => p.name = name) = false ∧
      (s.patronRequests.any fun _ r => r.name = name) = false ↔ ∀ who, ¬ s.GoesBy who name := by
    simp only [Finmap.any_eq_false, decide_eq_false_iff_not, GoesBy, not_or, not_exists, not_and,
      forall_and]
  have shaped : (!name.isEmpty && name.utf8ByteSize ≤ maxPatronName &&
      name.toList.all fun c => c.isLower || c.isDigit || c = '_' || c = '-') = true ↔
        Shaped name := by
    simp [Shaped, List.all_eq_true, or_assoc, and_assoc]
  simp only [nameIsFree, Bool.and_eq_true, shaped, Bool.not_eq_true', listed, and_assoc, worn]

/-! ## What leaves patrons alone -/

/-- A step that is about neither patrons nor what they are told apart from. -/
structure Elsewhere (s s' : Storage A) : Prop where
  root : s'.litter.root = s.litter.root
  roster : s'.roster = s.roster
  patronRequests : s'.patronRequests = s.patronRequests
  patrons : s'.patrons = s.patrons
  providers : ∀ who, s'.providers who = s.providers who

theorem Elsewhere.refl (s : Storage A) : Elsewhere s s := ⟨rfl, rfl, rfl, rfl, fun _ => rfl⟩

theorem Elsewhere.trans {a b c : Storage A} (first : Elsewhere a b) (second : Elsewhere b c) :
    Elsewhere a c where
  root := second.root.trans first.root
  roster := second.roster.trans first.roster
  patronRequests := second.patronRequests.trans first.patronRequests
  patrons := second.patrons.trans first.patrons
  providers who := (second.providers who).trans (first.providers who)

theorem deposit_elsewhere (s : Storage A) (effects : List (Effect A)) :
    Elsewhere s (effects.foldl depositEvent s) := by
  rw [deposit_eq]
  exact ⟨rfl, rfl, rfl, rfl, fun _ => rfl⟩

theorem commit_elsewhere {s : Storage A} {t : TaskTable A} (root : t.root = s.litter.root)
    (effects : List (Effect A)) : Elsewhere s (s.commit t effects) := by
  have stored : Elsewhere s { s with litter := t.intoState } :=
    ⟨root, rfl, rfl, rfl, fun _ => rfl⟩
  exact stored.trans (deposit_elsewhere _ effects)

/-- The tick and the sweep of a new block are about tasks. -/
theorem initializeBlock_elsewhere (s : Storage A) (rt : Runtime A) :
    Elsewhere s (s.initializeBlock rt) := by
  have opened : Elsewhere s { s with blockNumber := s.blockNumber + 1, events := [] } :=
    ⟨rfl, rfl, rfl, rfl, fun _ => rfl⟩
  refine opened.trans ?_
  unfold initializeBlock onInitialize
  by_cases folding : s.replaying = true
  · simp only [folding, if_true]
    split
    · exact commit_elsewhere (TaskTable.gc_frame _ _ _).2.1 _
    · exact .refl _
  · simp only [folding, Bool.false_eq_true, if_false]
    split
    · refine commit_elsewhere ((TaskTable.gc_frame _ _ _).2.1.trans ?_) _
      rw [TaskTable.tick_folds, TaskTable.applyAll_root]
      rfl
    · exact .refl _

/-- `CheckNonce` counts, and lets providers be. -/
theorem checkNonce_elsewhere {s s' : Storage A} {who : A} {nonce : Nat}
    (checked : s.checkNonce who nonce = .ok s') : Elsewhere s s' := by
  unfold checkNonce at checked
  split at checked
  · simp at checked
  next a found =>
    split at checked
    · simp at checked
    split at checked
    · simp at checked
    split at checked
    · simp at checked
    obtain rfl := Except.ok.inj checked
    refine ⟨rfl, rfl, rfl, rfl, fun x => ?_⟩
    unfold providers
    by_cases same : x = who
    · subst same
      rw [Finmap.lookup_insert, found]
      rfl
    · rw [Finmap.lookup_insert_of_ne _ same]

/-- Every effect that is not about patrons. -/
theorem replayEffect_elsewhere (s : Storage A) (rt : Runtime A) (e : Effect A) (now : BlockNumber)
    (other : ∀ f : Storage A, f.foldPatron e now = f) : Elsewhere s (s.replayEffect rt e now) := by
  have folded : Elsewhere s (s.foldPatron e now) := by
    rw [other]
    exact .refl s
  unfold replayEffect
  split
  · exact ⟨rfl, rfl, rfl, rfl, fun _ => rfl⟩
  · exact ⟨rfl, rfl, rfl, rfl, fun _ => rfl⟩
  · exact ⟨rfl, rfl, rfl, rfl, fun _ => rfl⟩
  iterate 4
    · exact folded
  · exact ⟨rfl, rfl, rfl, rfl, fun _ => rfl⟩
  · exact ⟨TaskTable.apply_root _ _ _, rfl, rfl, rfl, fun _ => rfl⟩

/-! ## What keeps membership -/

section Keeping

variable {root : A} {roster : List (String × A)} {base : A → Nat} {s s' : Storage A}

theorem Membership.elsewhere (m : Membership root roster base s) (else_ : Elsewhere s s') :
    Membership root roster base s' where
  sameRoot := else_.root.trans m.sameRoot
  sameRoster := else_.roster.trans m.sameRoster
  rosterNames := m.rosterNames
  -- What is said of members reads only what the step left alone.
  apart := by
    simp only [isPatron, isPending, else_.patrons, else_.patronRequests]
    exact m.apart
  outside := by
    simp only [isPatron, isPending, else_.patrons, else_.patronRequests]
    exact m.outside
  unlisted := by
    simp only [GoesBy, else_.patrons, else_.patronRequests]
    exact m.unlisted
  alone := by
    simp only [GoesBy, else_.patrons, else_.patronRequests]
    exact m.alone
  shaped := by
    simp only [GoesBy, else_.patrons, else_.patronRequests]
    exact m.shaped
  bounded := by
    rw [else_.patronRequests]
    exact m.bounded
  providers who := by
    rw [else_.providers]
    simp only [isPatron, else_.patrons]
    exact m.providers who

/-- Nobody gets a name: some become patrons under their own, some lose theirs. -/
theorem Membership.settled (m : Membership root roster base s)
    (same : s'.litter = s.litter ∧ s'.roster = s.roster)
    (names : ∀ who name, s'.GoesBy who name → s.GoesBy who name)
    (apart : ∀ who, s'.isPatron who = true → s'.isPending who = false)
    (fewer : s'.patronRequests.keys.card ≤ s.patronRequests.keys.card)
    (providers : ∀ who, s'.providers who = base who + if s'.isPatron who then 1 else 0) :
    Membership root roster base s' where
  sameRoot := by rw [same.1]; exact m.sameRoot
  sameRoster := same.2.trans m.sameRoster
  rosterNames := m.rosterNames
  apart := apart
  outside who known := by
    obtain ⟨name, goes⟩ := (s'.goesBy_some who).mpr known
    exact m.outside who ((s.goesBy_some who).mp ⟨name, names who name goes⟩)
  unlisted who name goes := m.unlisted who name (names who name goes)
  alone who other name goes goes' :=
    m.alone who other name (names who name goes) (names other name goes')
  shaped who name goes := m.shaped who name (names who name goes)
  bounded := fewer.trans m.bounded
  providers := providers

theorem goesBy_requested {who x : A} {name n note : String} {carrier : A} {now : BlockNumber}
    (goes : (s.foldPatron (.patronRequested who name note carrier) now).GoesBy x n) :
    s.GoesBy x n ∨ (x = who ∧ n = name) := by
  rcases goes with patron | ⟨r, found, rfl⟩
  · exact .inl (.inl patron)
  · by_cases same : x = who
    · subst same
      change (s.patronRequests.insert x _).lookup x = some r at found
      rw [Finmap.lookup_insert] at found
      obtain rfl := Option.some.inj found
      exact .inr ⟨rfl, rfl⟩
    · change (s.patronRequests.insert who _).lookup x = some r at found
      rw [Finmap.lookup_insert_of_ne _ same] at found
      exact .inl (.inr ⟨r, found, rfl⟩)

/-- A stranger's request joins, under a name of its own. -/
theorem Membership.requested (m : Membership root roster base s) {who : A}
    {name note : String} {carrier : A} {now : BlockNumber} (stranger : s.isMember who = false)
    (unknown : s.isPatron who = false ∧ s.isPending who = false)
    (free : s.nameIsFree name = true) (room : s.patronRequests.keys.card < maxPatronRequests) :
    Membership root roster base (s.foldPatron (.patronRequested who name note carrier) now) := by
  obtain ⟨shaped, unlisted, unworn⟩ := nameIsFree_iff.mp free
  obtain ⟨notRoot, offRoster⟩ := isMember_eq_false.mp stranger
  rw [m.sameRoot] at notRoot
  rw [m.sameRoster] at offRoster unlisted
  -- The requester is the only one about whom anything changes.
  have pending : ∀ x, x ≠ who →
      (s.foldPatron (.patronRequested who name note carrier) now).isPending x = s.isPending x :=
    fun x other => congrArg Option.isSome (Finmap.lookup_insert_of_ne s.patronRequests other)
  exact {
    sameRoot := m.sameRoot
    sameRoster := m.sameRoster
    rosterNames := m.rosterNames
    apart := fun x patron => by
      by_cases same : x = who
      · subst same
        have was : s.isPatron x = true := patron
        rw [unknown.1] at was
        cases was
      · rw [pending x same]
        exact m.apart x patron
    outside := fun x known => by
      obtain ⟨n, goes⟩ := (goesBy_some _ x).mpr known
      rcases goesBy_requested goes with old | ⟨rfl, _⟩
      · exact m.outside x ((s.goesBy_some x).mp ⟨n, old⟩)
      · exact ⟨fun same => notRoot (congrArg some same.symm), offRoster⟩
    unlisted := fun x n goes => by
      rcases goesBy_requested goes with old | ⟨_, rfl⟩
      · exact m.unlisted x n old
      · exact unlisted
    alone := fun x y n goes goes' => by
      rcases goesBy_requested goes with old | ⟨rfl, rfl⟩ <;>
        rcases goesBy_requested goes' with old' | ⟨rfl, same⟩
      · exact m.alone x y n old old'
      · exact absurd old (same ▸ unworn x)
      · exact absurd old' (unworn y)
      · rfl
    shaped := fun x n goes => by
      rcases goesBy_requested goes with old | ⟨_, rfl⟩
      · exact m.shaped x n old
      · exact shaped
    bounded := (Finmap.card_keys_insert_le ..).trans room
    providers := m.providers }

theorem isPending_erase {who x : A} (none : s.isPending x = false) :
    ((s.patronRequests.erase who).lookup x).isSome = false := by
  cases found : (s.patronRequests.erase who).lookup x with
  | none => rfl
  | some r =>
    rw [isPending, Finmap.lookup_of_lookup_erase found] at none
    cases none

/-- A request is dropped. -/
theorem Membership.rejected (m : Membership root roster base s) (who by_ : A)
    (now : BlockNumber) :
    Membership root roster base (s.foldPatron (.patronRejected who by_) now) := by
  refine m.settled ⟨rfl, rfl⟩ ?_ (fun x patron => ?_) (Finmap.card_keys_erase_le who _) m.providers
  · rintro x n (patron | ⟨r, found, named⟩)
    · exact .inl patron
    · exact .inr ⟨r, Finmap.lookup_of_lookup_erase found, named⟩
  · exact isPending_erase (m.apart x patron)

/-- A request becomes its requester's patronage, and the requester gets its provider. -/
theorem Membership.approved (m : Membership root roster base s)
    (roomy : ∀ who, who ≠ root → who ∉ roster.map Prod.snd → base who + 1 < 2 ^ 32)
    {who : A} {req : PatronRequest A} (found : s.patronRequests.lookup who = some req) (by_ : A)
    (now : BlockNumber) :
    Membership root roster base (s.foldPatron (.patronApproved who req.name by_) now) := by
  have pending : s.isPending who = true := by simp only [isPending, found, Option.isSome_some]
  obtain ⟨notRoot, offRoster⟩ := m.outside who (.inr pending)
  have notYet : s.isPatron who = false := by
    cases patron : s.isPatron who with
    | false => rfl
    | true => rw [m.apart who patron] at pending; cases pending
  have count : s.providers who = base who := by
    rw [m.providers, notYet]
    rfl
  have patron : ∀ x, (s.foldPatron (.patronApproved who req.name by_) now).isPatron x =
      if x = who then true else s.isPatron x := by
    intro x
    rw [foldPatron_approved]
    simp only [isPatron]
    split
    next same => rw [same, Finmap.lookup_insert]; rfl
    next other => rw [Finmap.lookup_insert_of_ne _ other]
  -- The patron goes by the name its request had, so no name is new.
  have names : ∀ x n, (s.foldPatron (.patronApproved who req.name by_) now).GoesBy x n →
      s.GoesBy x n := by
    intro x n goes
    rw [foldPatron_approved] at goes
    rcases goes with ⟨p, there, rfl⟩ | ⟨r, there, rfl⟩
    · by_cases same : x = who
      · subst same
        rw [Finmap.lookup_insert] at there
        obtain rfl := Option.some.inj there
        exact .inr ⟨req, found, rfl⟩
      · rw [Finmap.lookup_insert_of_ne _ same] at there
        exact .inl ⟨p, there, rfl⟩
    · exact .inr ⟨r, Finmap.lookup_of_lookup_erase there, rfl⟩
  refine m.settled ?_ names (fun x now_ => ?_) ?_ fun x => ?_
  · rw [foldPatron_approved]
    exact ⟨rfl, rfl⟩
  · rw [patron] at now_
    rw [foldPatron_approved]
    by_cases same : x = who
    · subst same
      simp only [isPending, Finmap.lookup_erase, Option.isSome_none]
    · rw [if_neg same] at now_
      exact isPending_erase (m.apart x now_)
  · rw [foldPatron_approved]
    exact Finmap.card_keys_erase_le who _
  · rw [patron, foldPatron_approved, notYet]
    have counted : (s.incProviders who).providers x =
        base x + if (if x = who then true else s.isPatron x) then 1 else 0 := by
      rw [incProviders_providers]
      split
      next same =>
        -- The count of providers has room for one more, and does not saturate.
        have room := roomy who notRoot offRoster
        rw [count, same]
        simp only [u32SaturatingAdd, if_true]
        omega
      · exact m.providers x
    exact counted

/-- A patron is no longer one, and gives its provider back. -/
theorem Membership.revoked (m : Membership root roster base s) {who : A}
    (was : s.isPatron who = true) (by_ : A) (now : BlockNumber) :
    Membership root roster base (s.foldPatron (.patronRevoked who by_) now) := by
  rw [foldPatron_revoked]
  simp only [was, if_true]
  -- Its patronage goes, and nobody else's.
  have patron : ∀ x, ((s.patrons.erase who).lookup x).isSome =
      if x = who then false else s.isPatron x := by
    intro x
    split
    next same => rw [same, Finmap.lookup_erase]; rfl
    next other => rw [Finmap.lookup_erase_ne other]; rfl
  refine m.settled ⟨rfl, rfl⟩ ?_ (fun x still => ?_) (Nat.le_refl _) fun x => ?_
  · rintro x n (⟨p, found, named⟩ | requester)
    · exact .inl ⟨p, Finmap.lookup_of_lookup_erase found, named⟩
    · exact .inr requester
  · simp only [isPatron, patron] at still
    split at still
    · cases still
    · exact m.apart x still
  · simp only [isPatron, patron]
    have counted : (s.decProviders who).providers x =
        base x + if (if x = who then false else s.isPatron x) then 1 else 0 := by
      rw [decProviders_providers]
      split
      next same =>
        rw [m.providers, was, same]
        rfl
      · exact m.providers x
    exact counted

/-- What a recorded effect of the pallet's own does to membership, by the call it is of. -/
theorem Membership.recorded (m : Membership root roster base s)
    (roomy : ∀ who, who ≠ root → who ∉ roster.map Prod.snd → base who + 1 < 2 ^ 32)
    {rt : Runtime A} {who : A} {c : LitterCall A} {e : Effect A} (passes : Passes rt s who c)
    (recorded : records s who c = some e) :
    Membership root roster base (s.replayEffect rt e s.now) := by
  cases c with
  | carryPatronRequest requester name note sig =>
    obtain rfl := Option.some.inj recorded
    obtain ⟨_, _, ⟨stranger, notPatron, notPending⟩, _, free, room, _⟩ := passes
    exact m.requested stranger ⟨notPatron, notPending⟩ free room
  | approvePatron requester =>
    obtain ⟨req, found, rfl⟩ := Option.map_eq_some_iff.mp recorded
    exact m.approved roomy found who s.now
  | rejectPatronRequest requester =>
    obtain rfl := Option.some.inj recorded
    exact m.rejected requester who s.now
  | revokePatron patron =>
    obtain rfl := Option.some.inj recorded
    obtain ⟨p, found, _⟩ := passes
    exact m.revoked (by simp only [isPatron, found, Option.isSome_some]) who s.now
  -- These are recorded by the task table, not by the pallet itself.
  | openParent | plan | update | setLeader | setRoot | reassign | say | clearAll
  | publishStandaloneArtifact | requestCompaction => cases recorded
  | _ =>
    obtain rfl := Option.some.inj recorded
    exact m.elsewhere (replayEffect_elsewhere s rt _ s.now fun _ => rfl)

theorem Membership.dispatched (m : Membership root roster base s)
    (roomy : ∀ who, who ≠ root → who ∉ roster.map Prod.snd → base who + 1 < 2 ^ 32)
    {rt : Runtime A} {who : A} {c : LitterCall A}
    (accepted : s.dispatch rt (.signed who) c = .ok s') : Membership root roster base s' := by
  cases dispatch_accepted accepted with
  | @verb _ _ call effects t _ _ answer =>
    have root := ((s.table rt).step_frame (.call call) s.now).2.1
    simp only [TaskTable.step, answer] at root
    exact m.elsewhere (commit_elsewhere root effects)
  | @own _ _ e passes recorded =>
    exact (m.recorded roomy passes recorded).elsewhere (deposit_elsewhere _ [e])
  | @clearAll _ effects t _ answer =>
    have root := ((s.table rt).step_frame (.clearAll (authorityOf who s.litter)) s.now).2.1
    simp only [TaskTable.step, answer] at root
    have cleared := commit_elsewhere (s := s) root effects
    exact m.elsewhere ⟨cleared.root, cleared.roster, cleared.patronRequests, cleared.patrons,
      cleared.providers⟩
  | requestCompaction => exact m.elsewhere ⟨rfl, rfl, rfl, rfl, fun _ => rfl⟩

end Keeping

/-! ## Who becomes a patron -/

theorem isPatron_foldPatron {s : Storage A} {e : Effect A} {now : BlockNumber} {x : A}
    (patron : (s.foldPatron e now).isPatron x = true) :
    s.isPatron x = true ∨ approves e = some x := by
  cases e with
  | patronApproved who name by_ =>
    rw [foldPatron_approved] at patron
    by_cases same : x = who
    · exact .inr (congrArg some same.symm)
    · simp only [isPatron, Finmap.lookup_insert_of_ne _ same] at patron
      exact .inl patron
  | patronRevoked who by_ =>
    rw [foldPatron_revoked] at patron
    cases was : s.isPatron who with
    | true =>
      simp only [was, if_true] at patron
      obtain ⟨p, found⟩ := Option.isSome_iff_exists.mp patron
      exact .inl (Option.isSome_iff_exists.mpr ⟨p, Finmap.lookup_of_lookup_erase found⟩)
    | false =>
      simp only [was, Bool.false_eq_true, if_false] at patron
      exact .inl patron
  | _ => exact .inl patron

theorem isPatron_replayEffect {s : Storage A} (rt : Runtime A) (e : Effect A)
    (now : BlockNumber) {x : A} (patron : (s.replayEffect rt e now).isPatron x = true) :
    s.isPatron x = true ∨ approves e = some x := by
  unfold replayEffect at patron
  split at patron
  · exact .inl patron
  · exact .inl patron
  · exact .inl patron
  iterate 4
    · exact isPatron_foldPatron patron
  · exact .inl patron
  · exact .inl patron

/-- An accepted call makes a patron only of the one it approves, for root or for a patron. -/
theorem dispatch_isPatron {s s' : Storage A} {rt : Runtime A} {who x : A} {c : LitterCall A}
    (accepted : s.dispatch rt (.signed who) c = .ok s') (before : s.isPatron x = false)
    (patron : s'.isPatron x = true) :
    c = .approvePatron x ∧ (s.isRoot who = true ∨ s.isPatron who = true) := by
  -- A call that leaves the patrons alone makes nobody one.
  have unchanged : ∀ {t : Storage A}, t.patrons = s.patrons → t.isPatron x ≠ true := by
    intro t same now
    simp only [isPatron, same] at now
    exact Bool.false_ne_true (before.symm.trans now)
  cases dispatch_accepted accepted with
  | @verb _ _ call effects t =>
    exact absurd patron (unchanged (commit_agree s t effects).patrons)
  | @own _ _ e passes recorded =>
    rw [depositEvent_eq] at patron
    rcases isPatron_replayEffect rt e s.now patron with was | approved
    · rw [before] at was
      cases was
    · rw [records_approves recorded] at approved
      cases c with
      | approvePatron requester =>
        obtain rfl := Option.some.inj approved
        exact ⟨rfl, passes⟩
      | _ => cases approved
  | @clearAll _ effects t =>
    exact absurd patron (unchanged (commit_agree s t effects).patrons)
  | requestCompaction => exact absurd patron (unchanged rfl)

/-! ## Whole runs -/

/-- What a litter lives through. -/
inductive Happening (A : Type)
  | block
  | checkNonce (who : A) (nonce : Nat)
  | call (who : A) (c : LitterCall A)
deriving DecidableEq, Repr

def happen (rt : Runtime A) (s : Storage A) : Happening A → Storage A
  | .block => s.initializeBlock rt
  | .checkNonce who nonce =>
    match s.checkNonce who nonce with
    | .ok s' => s'
    | .error _ => s
  | .call who c => attempt rt s (.signed who, c)

theorem Membership.happen {root : A} {roster : List (String × A)} {base : A → Nat}
    {s : Storage A} (m : Membership root roster base s)
    (roomy : ∀ who, who ≠ root → who ∉ roster.map Prod.snd → base who + 1 < 2 ^ 32)
    (rt : Runtime A) (h : Happening A) : Membership root roster base (s.happen rt h) := by
  cases h with
  | block => exact m.elsewhere (initializeBlock_elsewhere s rt)
  | checkNonce who nonce =>
    simp only [Storage.happen]
    split
    next s' checked => exact m.elsewhere (checkNonce_elsewhere checked)
    · exact m
  | call who c =>
    simp only [Storage.happen, attempt]
    split
    next s' accepted => exact m.dispatched roomy accepted
    · exact m

/-! ## Genesis -/

/-- Every account is given life as often as it is trusted. -/
theorem providers_trusted (accounts : List A) (s : Storage A) (who : A) :
    (accounts.foldl incProviders s).providers who ≤ s.providers who + accounts.count who := by
  induction accounts generalizing s with
  | nil => exact Nat.le_refl _
  | cons a as ih =>
    have rest := ih (s.incProviders a)
    rw [incProviders_providers] at rest
    rw [List.foldl_cons, List.count_cons]
    by_cases same : who = a
    · subst same
      have one : u32SaturatingAdd (s.providers who) 1 ≤ s.providers who + 1 := Nat.min_le_left _ _
      simp only [if_true, beq_self_eq_true] at rest ⊢
      omega
    · have other : (a == who) = false := beq_false_of_ne (Ne.symm same)
      simp only [if_neg same, other] at rest ⊢
      omega

theorem incProviders_all_frame (accounts : List A) (s : Storage A) :
    (accounts.foldl incProviders s).litter = s.litter ∧
      (accounts.foldl incProviders s).roster = s.roster ∧
      (accounts.foldl incProviders s).patronRequests = s.patronRequests ∧
      (accounts.foldl incProviders s).patrons = s.patrons := by
  induction accounts generalizing s with
  | nil => exact ⟨rfl, rfl, rfl, rfl⟩
  | cons a as ih => exact ih (s.incProviders a)

/-- Of strangers, the chain starts with the leader at most, once. -/
theorem genesis_roomy {B H : Type} (env : Env A B H) (replaying : Bool) (who : A)
    (notRoot : who ≠ env.root) (offRoster : who ∉ env.roster.map Prod.snd) :
    (env.genesis replaying).providers who + 1 < 2 ^ 32 := by
  have started : ((genesis (some env.root) (some env.leader) env.roster).setReplaying
      replaying |>.initializeBlock env.rt).providers who = 0 :=
    (initializeBlock_elsewhere _ env.rt).providers who
  have once : env.trustedAccounts.count who ≤ 1 := by
    have listed : (env.roster.map Prod.snd).count who = 0 := List.count_eq_zero.mpr offRoster
    have root : [env.root].count who = 0 := List.count_eq_zero.mpr (by simpa using notRoot)
    have leader : [env.leader].count who ≤ 1 := List.count_le_length
    simp only [Env.trustedAccounts]
    split <;> split <;> simp only [List.count_append, listed, root] <;> omega
  have bound : (env.genesis replaying).providers who ≤ 0 + env.trustedAccounts.count who :=
    started ▸ providers_trusted env.trustedAccounts _ who
  omega

theorem genesis_membership {B H : Type} (env : Env A B H) (replaying : Bool)
    (distinct : (env.roster.map Prod.fst).Nodup) :
    Membership env.root env.roster (env.genesis replaying).providers (env.genesis replaying) := by
  obtain ⟨litter, roster, requests, patrons⟩ := incProviders_all_frame env.trustedAccounts
    ((genesis (some env.root) (some env.leader) env.roster).setReplaying replaying
      |>.initializeBlock env.rt)
  have opened := initializeBlock_elsewhere
    ((genesis (some env.root) (some env.leader) env.roster).setReplaying replaying) env.rt
  have noPatrons : (env.genesis replaying).patrons = ∅ := patrons.trans opened.patrons
  have noRequests : (env.genesis replaying).patronRequests = ∅ :=
    requests.trans opened.patronRequests
  -- At genesis there are no patrons and no requests, so nearly everything holds of nobody.
  have nobody : ∀ who, (env.genesis replaying).isPatron who = false := fun who => by
    simp only [isPatron, noPatrons, Finmap.lookup_empty, Option.isSome_none]
  have nameless : ∀ who name, ¬ (env.genesis replaying).GoesBy who name := fun who name => by
    simp [GoesBy, noPatrons, noRequests]
  exact {
    sameRoot := (congrArg State.root litter).trans opened.root
    sameRoster := roster.trans opened.roster
    rosterNames := distinct
    apart := fun who patron => absurd patron (by simp [nobody])
    outside := fun who known => by
      obtain ⟨name, goes⟩ := ((env.genesis replaying).goesBy_some who).mpr known
      exact absurd goes (nameless who name)
    unlisted := fun who name goes => absurd goes (nameless who name)
    alone := fun who _ name goes => absurd goes (nameless who name)
    shaped := fun who name goes => absurd goes (nameless who name)
    bounded := by
      rw [noRequests]
      exact Nat.zero_le _
    providers := fun who => by
      rw [nobody]
      rfl }

/-- Whatever is called from genesis on, and whoever calls it, membership holds, and only root
and the patrons there are make a patron. -/
theorem patrons_run {B H : Type} (env : Env A B H) (replaying : Bool)
    (distinct : (env.roster.map Prod.fst).Nodup) (before : List (Happening A))
    (next : Happening A) :
    let s := Machine.run (happen env.rt) (env.genesis replaying) before
    Membership env.root env.roster (env.genesis replaying).providers s ∧
      ∀ x, s.isPatron x = false → (s.happen env.rt next).isPatron x = true →
        ∃ by_, next = .call by_ (.approvePatron x) ∧
          (s.isRoot by_ = true ∨ s.isPatron by_ = true) := by
  intro s
  have membership : Membership env.root env.roster (env.genesis replaying).providers s :=
    Machine.run_keeps _ (fun _ h m => m.happen (genesis_roomy env replaying) env.rt h)
      (genesis_membership env replaying distinct)
  refine ⟨membership, fun x not patron => ?_⟩
  -- Only an accepted call touches the patrons.
  have unchanged : ∀ {t : Storage A}, Elsewhere s t → t.isPatron x ≠ true := by
    intro t else_ now
    simp only [isPatron, else_.patrons] at now
    exact Bool.false_ne_true (not.symm.trans now)
  cases next with
  | block => exact absurd patron (unchanged (initializeBlock_elsewhere s env.rt))
  | checkNonce who nonce =>
    simp only [happen] at patron
    split at patron
    next checked => exact absurd patron (unchanged (checkNonce_elsewhere checked))
    · exact absurd patron (unchanged (.refl s))
  | call who c =>
    simp only [happen, attempt] at patron
    split at patron
    next accepted =>
      obtain ⟨rfl, allowed⟩ := dispatch_isPatron accepted not patron
      exact ⟨who, rfl, allowed⟩
    · exact absurd patron (unchanged (.refl s))

/-- A stranger who asks, is let in by root, lets in another and is revoked. -/
def doorway : List (Happening Nat) :=
  let sig : Signature := Vector.replicate 64 0
  [.call 0 (.carryPatronRequest 9 "vet" "to help" sig),
   .call 0 (.carryPatronRequest 8 "vet" "me too" sig), .call 9 (.approvePatron 9),
   .call 0 (.approvePatron 9), .checkNonce 9 0, .block,
   .call 0 (.carryPatronRequest 8 "nurse" "me too" sig), .call 9 (.approvePatron 8),
   .call 8 (.revokePatron 9), .call 0 (.revokePatron 9)]

def openEnv : Env Nat (Plain Nat) (Plain Nat) :=
  .plain { verify := fun _ _ _ => true } 0 1 [("root", 0), ("lead", 1)]

theorem patrons_run_doorway :
    (Machine.run (happen openEnv.rt) (openEnv.genesis false) doorway).isPatron 8 = true ∧
      Membership openEnv.root openEnv.roster (openEnv.genesis false).providers
        (Machine.run (happen openEnv.rt) (openEnv.genesis false) doorway) :=
  ⟨by decide +kernel, (patrons_run openEnv false (by decide) doorway .block).1⟩

end AkumaMiot.Storage

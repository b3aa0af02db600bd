import HybridMemory.NVMain.CoinMigrator

/-!
# The page swap protocol

A migration in cycle-accurate mode is a small protocol for each of its two pages: the page
is read into the buffer, and once both are there each is written to the place of the other
one. `Phase` is that protocol without the code around it, and `InPhase` says what the
fields of the hook, the states in the decoder and the requests in flight are in a phase.
Here the moves of the protocol are the completions of requests: `Swapping.readComplete`,
`Swapping.writeComplete` and `Swapping.retry` show that each of them leads from a phase to
a phase, or to the end of the migration, whatever the order in which they come and
whichever writes are accepted at once, and that no assertion fails on the way.
-/

namespace HybridMemory.NVMain

open Transition Function

/-! ### The phases of a swap -/

@[simp] theorem Side.other_other (s : Side) : s.other.other = s := by cases s <;> rfl

theorem Side.other_ne (s : Side) : s.other ≠ s := by cases s <;> decide

theorem Side.eq_other_of_ne {s s' : Side} (h : s' ≠ s) : s' = s.other := by
  cases s <;> cases s' <;> simp_all [Side.other]

theorem Side.forall_iff {P : Side → Prop} (s : Side) : (∀ s', P s') ↔ P s ∧ P s.other := by
  refine ⟨fun h => ⟨h s, h s.other⟩, fun ⟨hs, ho⟩ s' => ?_⟩
  by_cases h : s' = s
  · exact h ▸ hs
  · exact Side.eq_other_of_ne h ▸ ho

theorem Side.exists_iff {P : Side → Prop} (s : Side) : (∃ s', P s') ↔ P s ∨ P s.other := by
  simpa only [not_forall, not_not, not_and_or] using not_congr (Side.forall_iff (P := (¬ P ·)) s)

/-- The progress of a write: it waits to be issued, it was issued, or it has completed.
`marked` says whether the page it goes to was marked as being written, which is so only if
the write was issued at the first attempt. -/
inductive WriteStatus
  | held
  | issued (marked : Bool)
  | completed (marked : Bool)
  deriving DecidableEq

namespace WriteStatus

/-- The state of the page the write goes to. -/
def state : WriteStatus → MigratorState
  | held | issued false => .buffered
  | issued true => .writing
  | completed _ => .done

/-- The states this page has gone through. -/
def history : WriteStatus → List MigratorState
  | held | issued false => [.reading, .buffered]
  | issued true => [.reading, .buffered, .writing]
  | completed false => [.reading, .buffered, .done]
  | completed true => [.reading, .buffered, .writing, .done]

def isHeld : WriteStatus → Bool
  | held => true
  | _ => false

def isIssued : WriteStatus → Bool
  | issued _ => true
  | _ => false

def isCompleted : WriteStatus → Bool
  | completed _ => true
  | _ => false

theorem state_ne_done {w : WriteStatus} (h : w.isCompleted = false) : w.state ≠ .done := by
  cases w with
  | held => decide
  | issued marked => cases marked <;> decide
  | completed marked => cases h

theorem state_eq_done {w : WriteStatus} (h : w.isCompleted = true) : w.state = .done := by
  cases w with
  | completed marked => rfl
  | held | issued => cases h

end WriteStatus

/-- The phases of a swap: which pages are in the buffer, and then how far the writes of the
data of the two pages are. -/
inductive Phase
  | reading (buffered : Side → Bool)
  | writing (status : Side → WriteStatus)

namespace Phase

/-- The phase of a swap that has just been started. -/
def first : Phase := .reading fun _ => false

/-- The state of a page. It is the target of the other page's write. -/
def stateOf : Phase → Side → MigratorState
  | .reading b, s => if b s then .buffered else .reading
  | .writing st, s => (st s.other).state

/-- The states a page has gone through. -/
def historyOf : Phase → Side → List MigratorState
  | .reading b, s => if b s then [.reading, .buffered] else [.reading]
  | .writing st, s => (st s.other).history

/-- The data of a page have been written. -/
def writtenOf : Phase → Side → Bool
  | .reading _, _ => false
  | .writing st, s => (st s).isCompleted

/-- The request of a page is in flight. -/
def outstanding : Phase → Side → Bool
  | .reading b, s => !b s
  | .writing st, s => (st s).isIssued

/-- The write of a page waits to be issued. -/
def holds : Phase → Side → Bool
  | .reading _, _ => false
  | .writing st, s => (st s).isHeld

/-- The page that the request of a page goes to. -/
def target : Phase → Side → Side
  | .reading _, s => s
  | .writing _, s => s.other

def tag : Phase → MigrationTag
  | .reading _ => .read
  | .writing _ => .write

/-- The swap is not over. -/
def Open : Phase → Prop
  | .reading b => ∃ s, b s = false
  | .writing st => ∃ s, (st s).isCompleted = false

end Phase

namespace CoinMigrator

/-! ### The invariant -/

/-- The states a page was given in the last migration. -/
def historyOf (m : CoinMigrator) (key : UInt64) : List MigratorState :=
  (m.entered.filter fun e => e.1 = key).map Prod.snd

/-- The order of the states: `READING`, `BUFFERED`, maybe `WRITING`, `DONE`; an atomic swap
goes from `READING` to `DONE`. -/
def InOrder (atomic : Bool) (l : List MigratorState) : Prop :=
  if atomic then l <+: [.reading, .done]
  else l <+: [.reading, .buffered, .done] ∨ l <+: [.reading, .buffered, .writing, .done]

/-- A page that no migration is at work on: it was never migrated, or it is done and its
data are written. -/
def Settled (m : CoinMigrator) (key : UInt64) : Prop :=
  m.decoder.migrationState key = none ∨
    m.decoder.migrationState key = some .done ∧ (m.decoder.migrationMap key).isSome ∧
      m.written key = true

/-- No migration is in progress. -/
structure Idle (m : CoinMigrator) : Prop where
  migrating : m.decoder.migrating = false
  settled : ∀ key, m.Settled key
  buffered : ∀ s, m.buffered s = false
  inFlight : m.inFlight = []
  inOrder : ∀ key, InOrder m.atomic (m.historyOf key)

/-- The pair of pages of the migration in progress. -/
structure OwnsPair (m : CoinMigrator) : Prop where
  migrating : m.decoder.migrating = true
  input : m.decoder.inputPage = m.key .promotee
  output : m.decoder.outputPage = m.key .demotee
  key_ne : ∀ s, m.key s ≠ m.key s.other
  map : ∀ s, (m.decoder.migrationMap (m.key s)).isSome
  settled : ∀ key, (∀ s, key ≠ m.key s) → m.Settled key
  entered : ∀ key, (∀ s, key ≠ m.key s) → m.historyOf key = []
  cycleAccurate : m.atomic = false

/-- What the hook, the decoder and the requests are in a phase of a swap. -/
structure InPhase (m : CoinMigrator) (phase : Phase) : Prop where
  state : ∀ s, m.decoder.migrationState (m.key s) = some (phase.stateOf s)
  history : ∀ s, m.historyOf (m.key s) = phase.historyOf s
  written : ∀ s, m.written (m.key s) = phase.writtenOf s
  buffered : ∀ s, m.buffered s = phase.holds s
  request : ∀ s, ∃ r, m.request s = some r ∧ r.data = s ∧ r.tag = phase.tag ∧
    r.address = m.page (phase.target s) ∧ r.id < m.allocated
  id_ne : ∀ s r r', m.request s = some r → m.request s.other = some r' → r.id ≠ r'.id
  inFlight : ∀ r, r ∈ m.inFlight ↔ ∃ s, phase.outstanding s ∧ m.request s = some r

/-- A swap is under way. -/
def Swapping (m : CoinMigrator) (phase : Phase) : Prop :=
  phase.Open ∧ m.OwnsPair ∧ m.InPhase phase

/-- The invariant of a migrator. -/
structure Inv (c : SwapConfig) (d : MigratorConfig) (m : CoinMigrator) : Prop where
  config : m.config = c
  decoder : m.decoder.config = d
  phase : m.Idle ∨ ∃ phase, m.Swapping phase

/-- What the completions of requests leave alone: the configuration, the choices of
victims, and which pages have a state. -/
structure Frame (m m' : CoinMigrator) : Prop where
  config : m'.config = m.config
  decoder : m'.decoder.config = m.decoder.config
  currentPromotionPage : m'.currentPromotionPage = m.currentPromotionPage
  choices : m'.choices = m.choices
  victims : m'.victims = m.victims
  known : ∀ key, (m'.decoder.migrationState key).isSome = (m.decoder.migrationState key).isSome

variable {m m' m'' : CoinMigrator} {phase : Phase} {s : Side} {r : MigrationRequest}

theorem Frame.refl (m : CoinMigrator) : Frame m m := ⟨rfl, rfl, rfl, rfl, rfl, fun _ => rfl⟩

theorem Frame.trans (h : Frame m m') (h' : Frame m' m'') : Frame m m'' :=
  ⟨h'.config.trans h.config, h'.decoder.trans h.decoder,
    h'.currentPromotionPage.trans h.currentPromotionPage, h'.choices.trans h.choices,
    h'.victims.trans h.victims, fun key => (h'.known key).trans (h.known key)⟩

/-! ### Setting a state -/

/-- The migrator after the state of a page was set. -/
def withState (m : CoinMigrator) (key : UInt64) (state : MigratorState) : CoinMigrator :=
  { m with
    decoder := m.decoder.withState key state
    entered := m.entered ++ [(key, state)] }

/-- The assertions of `SetMigrationState` hold for a page that has another state. -/
theorem setState_eq {address : NVMAddress} {key : UInt64} {old new : MigratorState}
    (hkey : m.decoder.config.getAddressKey address.translated = key)
    (hold : m.decoder.migrationState key = some old) (hne : old ≠ new) :
    m.setState address new = some (m.withState key new) := by
  subst hkey
  have hguard : (m.decoder.migrationState
      (m.decoder.config.getAddressKey address.translated)).isSome ∧ m.decoder.migrationState
      (m.decoder.config.getAddressKey address.translated) ≠ some new := by
    rw [hold]
    exact ⟨rfl, fun heq => hne (Option.some.inj heq)⟩
  simp only [setState, Migrator.setMigrationState, if_pos hguard, Option.map_some]
  rfl

theorem frame_withState {key : UInt64} {old : MigratorState} (state : MigratorState)
    (hold : m.decoder.migrationState key = some old) : Frame m (m.withState key state) := by
  refine ⟨rfl, rfl, rfl, rfl, rfl, fun k => ?_⟩
  simp only [withState, Migrator.withState, update_apply]
  split_ifs with hk
  · simp [hk, hold]
  · rfl

theorem frame_retire_withState {key : UInt64} {old : MigratorState} (r : MigrationRequest)
    (state : MigratorState) (hold : m.decoder.migrationState key = some old) :
    Frame m ((m.retire r).withState key state) := by
  have hretire : Frame m (m.retire r) := ⟨rfl, rfl, rfl, rfl, rfl, fun _ => rfl⟩
  exact hretire.trans (frame_withState state hold)

theorem state_withState (m : CoinMigrator) (key k : UInt64) (state : MigratorState) :
    (m.withState key state).decoder.migrationState k =
      if k = key then some state else m.decoder.migrationState k := by
  simp only [withState, Migrator.withState, update_apply]

theorem historyOf_withState (m : CoinMigrator) (key k : UInt64) (state : MigratorState) :
    (m.withState key state).historyOf k =
      if k = key then m.historyOf k ++ [state] else m.historyOf k := by
  simp only [historyOf, withState, List.filter_append, List.map_append]
  split_ifs with h
  · simp [h]
  · simp [Ne.symm h]

theorem settled_withState {key k : UInt64} {state : MigratorState} (hk : k ≠ key)
    (h : m.Settled k) : (m.withState key state).Settled k := by
  unfold Settled at h ⊢
  rw [state_withState, if_neg hk]
  exact h

theorem migrating_withState (m : CoinMigrator) (key : UInt64) (state : MigratorState) :
    (m.withState key state).decoder.migrating =
      if (m.withState key state).decoder.migrationState m.decoder.inputPage = some .done ∧
        (m.withState key state).decoder.migrationState m.decoder.outputPage = some .done
      then false else m.decoder.migrating := rfl

/-- A pair stays the pair in progress until both its pages are done. -/
theorem OwnsPair.withState (h : m.OwnsPair) (s : Side) {state : MigratorState}
    (hopen : ∃ s', (m.withState (m.key s) state).decoder.migrationState (m.key s') ≠ some .done) :
    (m.withState (m.key s) state).OwnsPair where
  migrating := by
    rw [migrating_withState, h.input, h.output, if_neg, h.migrating]
    rintro ⟨hp, hd⟩
    obtain ⟨s', hs'⟩ := hopen
    cases s' with
    | promotee => exact hs' hp
    | demotee => exact hs' hd
  input := h.input
  output := h.output
  key_ne := h.key_ne
  map := h.map
  settled key hkey := settled_withState (hkey s) (h.settled key hkey)
  entered key hkey := by
    have hne : key ≠ m.key s := hkey s
    rw [historyOf_withState, if_neg hne]
    exact h.entered key hkey
  cycleAccurate := h.cycleAccurate

theorem OwnsPair.key_inj (h : m.OwnsPair) {s s' : Side} (heq : m.key s' = m.key s) : s' = s := by
  by_contra hne
  rw [Side.eq_other_of_ne hne] at heq
  exact h.key_ne s heq.symm

theorem OwnsPair.state_withState (h : m.OwnsPair) (s s' : Side) (state : MigratorState) :
    (m.withState (m.key s) state).decoder.migrationState (m.key s') =
      if s' = s then some state else m.decoder.migrationState (m.key s') := by
  rw [CoinMigrator.state_withState]
  exact if_congr ⟨h.key_inj, congrArg _⟩ rfl rfl

theorem OwnsPair.historyOf_withState (h : m.OwnsPair) (s s' : Side) (state : MigratorState) :
    (m.withState (m.key s) state).historyOf (m.key s') =
      if s' = s then m.historyOf (m.key s') ++ [state] else m.historyOf (m.key s') := by
  rw [CoinMigrator.historyOf_withState]
  exact if_congr ⟨h.key_inj, congrArg _⟩ rfl rfl

/-- What the request of a page is. -/
theorem InPhase.of_request (h : m.InPhase phase) (hr : m.request s = some r) :
    r.data = s ∧ r.tag = phase.tag ∧ r.address = m.page (phase.target s) ∧ r.id < m.allocated := by
  obtain ⟨r', hr', hspec⟩ := h.request s
  rwa [Option.some.inj (hr.symm.trans hr')]

/-- The identities of the two requests tell them apart. -/
theorem InPhase.eq_of_id_eq (h : m.InPhase phase) {s s' : Side} {r r' : MigrationRequest}
    (hr : m.request s = some r) (hr' : m.request s' = some r') (hid : r'.id = r.id) : s' = s := by
  by_contra hne
  rw [Side.eq_other_of_ne hne] at hr'
  exact h.id_ne s r r' hr hr' hid.symm

/-- A request with a fresh identity in place of the old one is not taken for the other. -/
theorem InPhase.id_ne_update (h : m.InPhase phase) {fresh : MigrationRequest}
    (hfresh : fresh.id = m.allocated) {s' : Side} {r₁ r₂ : MigrationRequest}
    (h₁ : update m.request s (some fresh) s' = some r₁)
    (h₂ : update m.request s (some fresh) s'.other = some r₂) : r₁.id ≠ r₂.id := by
  -- the new identity is above all that were handed out before
  by_cases hss : s' = s
  · subst hss
    rw [update_self] at h₁
    rw [update_of_ne s'.other_ne] at h₂
    obtain ⟨-, -, -, hold⟩ := h.of_request h₂
    rw [← Option.some.inj h₁, hfresh]
    exact hold.ne'
  · rw [update_of_ne hss] at h₁
    rw [Side.eq_other_of_ne hss, Side.other_other, update_self] at h₂
    obtain ⟨-, -, -, hold⟩ := h.of_request h₁
    rw [← Option.some.inj h₂, hfresh]
    exact hold.ne

/-- What is left in flight when the request of a page retires. -/
theorem InPhase.mem_retire (h : m.InPhase phase) (hr : m.request s = some r)
    (r' : MigrationRequest) : r' ∈ (m.retire r).inFlight ↔
      ∃ s', (s' ≠ s ∧ phase.outstanding s') ∧ m.request s' = some r' := by
  simp only [retire, List.mem_filter, h.inFlight, decide_eq_true_eq]
  constructor
  · rintro ⟨⟨s', hout, hr'⟩, hid⟩
    refine ⟨s', ⟨fun heq => hid ?_, hout⟩, hr'⟩
    rw [heq] at hr'
    exact congrArg _ (Option.some.inj (hr'.symm.trans hr))
  · rintro ⟨s', ⟨hss, hout⟩, hr'⟩
    exact ⟨⟨s', hout, hr'⟩, fun hid => hss (h.eq_of_id_eq hr hr' hid)⟩

/-! ### The moves of a swap -/

/-- **A read completes**: the page is in the buffer. -/
theorem InPhase.buffer (hpair : m.OwnsPair) {b : Side → Bool} (h : m.InPhase (.reading b))
    (hs : b s = false) (hr : m.request s = some r) :
    (((m.retire r).withState (m.key s) .buffered).copyRequest s r).InPhase
      (.reading (update b s true)) where
  state s' := by
    refine (OwnsPair.state_withState hpair s s' .buffered).trans ?_
    have hold := h.state s'
    by_cases hss : s' = s
    · simp [hss, Phase.stateOf]
    · simpa [hss, Phase.stateOf] using hold
  history s' := by
    refine (OwnsPair.historyOf_withState hpair s s' .buffered).trans ?_
    have hold := h.history s'
    by_cases hss : s' = s
    · subst hss
      simp [hold, Phase.historyOf, hs]
    · simpa [hss, Phase.historyOf] using hold
  written := h.written
  buffered := h.buffered
  request s' := by
    by_cases hss : s' = s
    · subst hss
      obtain ⟨hdata, htag, haddr, -⟩ := h.of_request hr
      exact ⟨_, update_self _ _ _, hdata, htag, haddr, Nat.lt_succ_self _⟩
    · obtain ⟨r', hr', hdata, htag, haddr, hid⟩ := h.request s'
      exact ⟨r', (update_of_ne hss _ _).trans hr', hdata, htag, haddr,
        Nat.lt_succ_of_lt hid⟩
  id_ne _ _ _ h₁ h₂ := h.id_ne_update rfl h₁ h₂
  inFlight r' := by
    refine (h.mem_retire hr r').trans (exists_congr fun s' => ?_)
    by_cases hss : s' = s
    · simp [hss, Phase.outstanding]
    · have hreq : (((m.retire r).withState (m.key s) .buffered).copyRequest s r).request s'
          = m.request s' := update_of_ne hss _ _
      simp [hreq, hss, Phase.outstanding]

/-- The writes are issued or held back once both pages are in the buffer. -/
def withWrites (m : CoinMigrator) (promo demo : MigrationRequest) (issued : Side → Bool) :
    CoinMigrator :=
  { m with
    request := Side.pick (some { promo with address := demo.address, tag := .write })
      (some { demo with address := promo.address, tag := .write })
    inFlight := (if issued .promotee then
        [{ promo with address := demo.address, tag := .write }] else []) ++
      (if issued .demotee then
        [{ demo with address := promo.address, tag := .write }] else []) ++ m.inFlight
    buffered := fun s => !issued s }

/-- The writes in flight are those that were issued. -/
theorem mem_withWrites {promo demo : MigrationRequest} (h : m.InPhase (.reading fun _ => true))
    (issued : Side → Bool) (r : MigrationRequest) :
    r ∈ (m.withWrites promo demo issued).inFlight ↔
      ∃ s, issued s ∧ (m.withWrites promo demo issued).request s = some r := by
  have hnone : ∀ r, r ∉ m.inFlight := fun r hr => by
    simpa [Phase.outstanding] using (h.inFlight r).mp hr
  simp only [withWrites, List.mem_append, hnone, or_false, List.mem_ite_nil_right,
    List.mem_singleton, Side.exists_iff .promotee, Side.other, Side.pick, Option.some.injEq,
    eq_comm (a := r)]

/-- **The writes are issued**, or kept for later. -/
theorem InPhase.write {promo demo : MigrationRequest} (h : m.InPhase (.reading fun _ => true))
    (hp : m.request .promotee = some promo) (hd : m.request .demotee = some demo)
    (issued : Side → Bool) : (m.withWrites promo demo issued).InPhase
      (.writing fun s => if issued s then .issued false else .held) where
  state s := by
    refine (h.state s).trans ?_
    simp only [Phase.stateOf, if_true]
    split_ifs <;> rfl
  history s := by
    refine (h.history s).trans ?_
    simp only [Phase.historyOf, if_true]
    split_ifs <;> rfl
  written s := by
    refine (h.written s).trans ?_
    simp only [Phase.writtenOf]
    split_ifs <;> rfl
  buffered s := by
    simp only [withWrites, Phase.holds]
    cases issued s <;> rfl
  request s := by
    obtain ⟨hpd, -, hpa, hpi⟩ := h.of_request hp
    obtain ⟨hdd, -, hda, hdi⟩ := h.of_request hd
    cases s with
    | promotee => exact ⟨_, rfl, hpd, rfl, hda, hpi⟩
    | demotee => exact ⟨_, rfl, hdd, rfl, hpa, hdi⟩
  id_ne s r₁ r₂ h₁ h₂ := by
    have hne := h.id_ne .promotee promo demo hp hd
    cases s with
    | promotee =>
      obtain rfl := Option.some.inj h₁
      obtain rfl := Option.some.inj h₂
      exact hne
    | demotee =>
      obtain rfl := Option.some.inj h₁
      obtain rfl := Option.some.inj h₂
      exact hne.symm
  inFlight r := by
    refine (mem_withWrites h issued r).trans (exists_congr fun s => and_congr_left fun _ => ?_)
    simp only [Phase.outstanding]
    cases issued s <;> simp [WriteStatus.isIssued]

section Writing

variable {st : Side → WriteStatus}

/-- A change of the status of one write. -/
theorem Phase.stateOf_update (s s' : Side) (w : WriteStatus) :
    (Phase.writing (update st s w)).stateOf s' =
      if s' = s.other then w.state else (Phase.writing st).stateOf s' := by
  simp only [Phase.stateOf, update_apply]
  cases s <;> cases s' <;> rfl

theorem Phase.historyOf_update (s s' : Side) (w : WriteStatus) :
    (Phase.writing (update st s w)).historyOf s' =
      if s' = s.other then w.history else (Phase.writing st).historyOf s' := by
  simp only [Phase.historyOf, update_apply]
  cases s <;> cases s' <;> rfl

/-- What a new status of a write leaves as it was. -/
theorem apply_update_status {α : Type} (f : WriteStatus → α) {w : WriteStatus}
    (hw : f (st s) = f w) (s' : Side) : f (st s') = f (update st s w s') := by
  by_cases hss : s' = s
  · rw [hss, update_self, hw]
  · rw [update_of_ne hss]

/-- **A write that was accepted at once is marked**: its page is being written. -/
theorem InPhase.mark (hpair : m.OwnsPair) (h : m.InPhase (.writing st))
    (hs : st s = .issued false) : (m.withState (m.key s.other) .writing).InPhase
      (.writing (update st s (.issued true))) where
  state s' := by
    refine (OwnsPair.state_withState hpair s.other s' .writing).trans ?_
    rw [Phase.stateOf_update]
    split_ifs
    · rfl
    · exact h.state s'
  history s' := by
    refine (OwnsPair.historyOf_withState hpair s.other s' .writing).trans ?_
    rw [Phase.historyOf_update]
    split_ifs with hss
    · rw [h.history, hss]
      simp [Phase.historyOf, hs, WriteStatus.history]
    · exact h.history s'
  written s' := by
    refine (h.written s').trans ?_
    exact apply_update_status WriteStatus.isCompleted (by rw [hs]; rfl) s'
  buffered s' := by
    refine (h.buffered s').trans ?_
    exact apply_update_status WriteStatus.isHeld (by rw [hs]; rfl) s'
  request := h.request
  id_ne := h.id_ne
  inFlight r := by
    refine (h.inFlight r).trans (exists_congr fun s' => and_congr_left fun _ => ?_)
    exact iff_of_eq (congrArg (· = true)
      (apply_update_status WriteStatus.isIssued (by rw [hs]; rfl) s'))

/-- The migrator after a write of the data of page `s` has completed. -/
def afterWrite (m : CoinMigrator) (s : Side) (r : MigrationRequest) : CoinMigrator :=
  { (m.retire r).withState (m.key s.other) .done with
    written := update m.written (m.key s) true }

/-- **A write completes**: the page at its address is done. -/
theorem InPhase.complete (hpair : m.OwnsPair) (h : m.InPhase (.writing st)) {marked : Bool}
    (hs : st s = .issued marked) (hr : m.request s = some r) :
    (m.afterWrite s r).InPhase (.writing (update st s (.completed marked))) where
  state s' := by
    refine (OwnsPair.state_withState hpair s.other s' .done).trans ?_
    rw [Phase.stateOf_update]
    split_ifs
    · rfl
    · exact h.state s'
  history s' := by
    refine (OwnsPair.historyOf_withState hpair s.other s' .done).trans ?_
    rw [Phase.historyOf_update]
    split_ifs with hss
    · rw [h.history, hss]
      cases marked <;> simp [Phase.historyOf, hs, WriteStatus.history]
    · exact h.history s'
  written s' := by
    have hw : (m.afterWrite s r).written (m.key s') =
        if s' = s then true else m.written (m.key s') :=
      (update_apply _ _ _ _).trans (if_congr ⟨hpair.key_inj, congrArg _⟩ rfl rfl)
    refine hw.trans ?_
    by_cases hss : s' = s
    · simp [hss, Phase.writtenOf, WriteStatus.isCompleted]
    · simp [hss, Phase.writtenOf, h.written]
  buffered s' := by
    refine (h.buffered s').trans ?_
    exact apply_update_status WriteStatus.isHeld (by rw [hs]; rfl) s'
  request := h.request
  id_ne := h.id_ne
  inFlight r' := by
    refine (h.mem_retire hr r').trans (exists_congr fun s' => and_congr_left fun _ => ?_)
    by_cases hss : s' = s
    · simp [hss, Phase.outstanding, WriteStatus.isIssued]
    · simp [hss, Phase.outstanding]

/-- **A write is issued at a later attempt**; the state of its page is not touched. -/
theorem InPhase.reissue (h : m.InPhase (.writing st)) (hs : st s = .held)
    (hr : m.request s = some r) :
    InPhase { m with inFlight := r :: m.inFlight, buffered := update m.buffered s false }
      (.writing (update st s (.issued false))) where
  state s' := by
    refine (h.state s').trans (congrArg some ?_)
    exact apply_update_status WriteStatus.state (by rw [hs]; rfl) s'.other
  history s' := by
    refine (h.history s').trans ?_
    exact apply_update_status WriteStatus.history (by rw [hs]; rfl) s'.other
  written s' := by
    refine (h.written s').trans ?_
    exact apply_update_status WriteStatus.isCompleted (by rw [hs]; rfl) s'
  buffered s' := by
    by_cases hss : s' = s
    · simp [Phase.holds, hss, WriteStatus.isHeld]
    · simpa [Phase.holds, hss] using h.buffered s'
  request := h.request
  id_ne := h.id_ne
  inFlight r' := by
    simp only [List.mem_cons, h.inFlight]
    constructor
    · rintro (rfl | ⟨s', hout, hr'⟩)
      · exact ⟨s, by simp [Phase.outstanding, WriteStatus.isIssued], hr⟩
      · refine ⟨s', ?_, hr'⟩
        by_cases hss : s' = s
        · simp [hss, Phase.outstanding, WriteStatus.isIssued]
        · simpa [hss, Phase.outstanding] using hout
    · rintro ⟨s', hout, hr'⟩
      by_cases hss : s' = s
      · rw [hss, hr] at hr'
        exact Or.inl (Option.some.inj hr').symm
      · exact Or.inr ⟨s', by simpa [hss, Phase.outstanding] using hout, hr'⟩

end Writing

/-! ### Completions -/

/-- The pair of a migration does not depend on the requests. -/
theorem OwnsPair.of_eq (h : m.OwnsPair) (hd : m'.decoder = m.decoder) (hp : m'.page = m.page)
    (he : m'.entered = m.entered) (ha : m'.atomic = m.atomic) (hw : m'.written = m.written) :
    m'.OwnsPair := by
  have hkey : m'.key = m.key := by
    funext s
    simp only [key, hd, hp]
  refine ⟨hd ▸ h.migrating, by rw [hd, hkey, h.input], by rw [hd, hkey, h.output],
    hkey ▸ h.key_ne, by rw [hd, hkey]; exact h.map, fun k hk => ?_, fun k hk => ?_,
    ha ▸ h.cycleAccurate⟩
  · have := h.settled k (hkey ▸ hk)
    simpa only [Settled, hd, hw] using this
  · have := h.entered k (hkey ▸ hk)
    simpa only [historyOf, he] using this

theorem InPhase.sideOf_eq (h : m.InPhase phase) (hr : m.request s = some r) :
    m.sideOf r = some s := by
  cases s with
  | promotee => simp [sideOf, hr]
  | demotee =>
    obtain ⟨r', hr', -⟩ := h.request .promotee
    have hne : r'.id ≠ r.id := h.id_ne .promotee r' r hr' hr
    simp [sideOf, hr, hr', hne]

theorem InPhase.of_findRequest (h : m.InPhase phase) {id : ℕ} {tag : MigrationTag}
    (hfind : m.findRequest id tag = some r) :
    phase.tag = tag ∧ ∃ s, phase.outstanding s ∧ m.request s = some r ∧ r.data = s ∧
      r.address = m.page (phase.target s) := by
  have htag : r.tag = tag := by
    have := List.find?_some hfind
    simp only [decide_eq_true_eq] at this
    exact this.2
  obtain ⟨s, hout, hr⟩ := (h.inFlight r).mp (List.mem_of_find?_eq_some hfind)
  obtain ⟨hdata, htag', haddr, -⟩ := h.of_request hr
  exact ⟨htag'.symm.trans htag, s, hout, hr, hdata, haddr⟩

/-- Marking a write that was issued at once. -/
theorem InPhase.markWriting {st : Side → WriteStatus} (hpair : m.OwnsPair)
    (h : m.InPhase (.writing st)) (hr : m.request s = some r) (issued : Side → Bool)
    (hs : issued s → st s = .issued false) :
    ∃ m', m.markWriting s r issued = some m' ∧ m'.OwnsPair ∧ m'.InPhase (.writing
        (if issued s then update st s (.issued true) else st)) ∧
      m'.request = m.request ∧ Frame m m' := by
  unfold CoinMigrator.markWriting
  split_ifs with hi
  · obtain ⟨-, -, haddr, -⟩ := h.of_request hr
    have hstate := h.state s.other
    simp only [Phase.stateOf, Side.other_other, hs hi, WriteStatus.state] at hstate
    have hkey : m.decoder.config.getAddressKey r.address.translated = m.key s.other := by
      rw [haddr]
      rfl
    refine ⟨_, setState_eq hkey hstate (by decide), hpair.withState s.other ⟨s.other, ?_⟩,
      h.mark hpair (hs hi), rfl, frame_withState _ hstate⟩
    rw [hpair.state_withState, if_pos rfl]
    decide
  · exact ⟨m, rfl, hpair, h, rfl, Frame.refl m⟩

/-- The writes are issued once both pages are in the buffer. -/
theorem InPhase.issueWrites {promo demo : MigrationRequest} (hpair : m.OwnsPair)
    (h : m.InPhase (.reading fun _ => true)) (hp : m.request .promotee = some promo)
    (hd : m.request .demotee = some demo) (issued : Side → Bool) :
    ∃ m' phase, m.issueWrites promo demo issued = some m' ∧ m'.Swapping phase ∧
      (∀ s, phase.writtenOf s = false) ∧ Frame m m' := by
  have hpair₁ : (m.withWrites promo demo issued).OwnsPair := hpair.of_eq rfl rfl rfl rfl rfl
  obtain ⟨m₂, hm₂, hpair₂, h₂, hreq₂, hframe₂⟩ :=
    (h.write hp hd issued).markWriting (s := .demotee) hpair₁ rfl issued fun hi => if_pos hi
  obtain ⟨m₃, hm₃, hpair₃, h₃, -, hframe₃⟩ :=
    h₂.markWriting (s := .promotee) hpair₂ (by rw [hreq₂]; rfl) issued fun hi => by
      split_ifs <;> simp [hi, update]
  have hframe₁ : Frame m (m.withWrites promo demo issued) :=
    ⟨rfl, rfl, rfl, rfl, rfl, fun _ => rfl⟩
  generalize hst : (if issued .promotee then _ else _ : Side → WriteStatus) = st at h₃
  have hw : ∀ s, (st s).isCompleted = false := fun s => by
    rw [← hst]
    cases s <;> split_ifs <;> simp_all [update, WriteStatus.isCompleted]
  exact ⟨m₃, .writing st, Option.bind_eq_some_iff.mpr ⟨m₂, hm₂, hm₃⟩,
    ⟨⟨.promotee, hw _⟩, hpair₃, h₃⟩, hw, hframe₁.trans (hframe₂.trans hframe₃)⟩

theorem isBuffered_eq {d : Migrator} {address : NVMAddress} {key : UInt64}
    {state : MigratorState} (hkey : d.config.getAddressKey address.translated = key)
    (hmap : (d.migrationMap key).isSome) (hstate : d.migrationState key = some state) :
    d.isBuffered address = decide (state = .buffered ∨ state = .writing) := by
  subst hkey
  simp [Migrator.isBuffered, hmap, hstate]

/-- Whether the other page is in the buffer when a read completes. -/
theorem InPhase.isBuffered_other {b : Side → Bool} (hpair : m.OwnsPair)
    (h : m.InPhase (.reading b)) (s : Side) (r : MigrationRequest) :
    ((m.retire r).withState (m.key s) .buffered).decoder.isBuffered (m.page s.other) =
      b s.other := by
  have hpair₀ : (m.retire r).OwnsPair := hpair.of_eq rfl rfl rfl rfl rfl
  have hother : ((m.retire r).withState (m.key s) .buffered).decoder.migrationState
      (m.key s.other) = some (if b s.other then .buffered else .reading) := by
    refine (hpair₀.state_withState s s.other .buffered).trans ?_
    rw [if_neg s.other_ne]
    exact h.state s.other
  refine (isBuffered_eq rfl ?_ hother).trans (by cases b s.other <;> rfl)
  exact hpair.map s.other

/-- A page that is in the buffer is not done, so its pair stays the pair in progress. -/
theorem OwnsPair.buffer (h : m.OwnsPair) (s : Side) (r : MigrationRequest) :
    (((m.retire r).withState (m.key s) .buffered).copyRequest s r).OwnsPair := by
  have hpair₀ : (m.retire r).OwnsPair := h.of_eq rfl rfl rfl rfl rfl
  have hpair₁ : ((m.retire r).withState (m.key s) .buffered).OwnsPair := by
    refine hpair₀.withState s ⟨s, ?_⟩
    refine ne_of_eq_of_ne (hpair₀.state_withState s s .buffered) ?_
    simp
  exact hpair₁.of_eq rfl rfl rfl rfl rfl

/-- **A read completes.** -/
theorem Swapping.readComplete (h : m.Swapping phase) {id : ℕ}
    (hfind : m.findRequest id .read = some r) (issued : Side → Bool) :
    ∃ m' phase', m.readComplete r issued = some m' ∧ m'.Swapping phase' ∧
      (∀ s, phase'.writtenOf s = false) ∧ Frame m m' := by
  obtain ⟨-, hpair, hin⟩ := h
  obtain ⟨htag, s, hout, hr, -, haddr⟩ := hin.of_findRequest hfind
  cases phase with
  | writing st => cases htag
  | reading b =>
    have hb : b s = false := by simpa [Phase.outstanding] using hout
    have hstate := hin.state s
    simp only [Phase.stateOf, hb] at hstate
    have hset : (m.retire r).setState r.address .buffered =
        some ((m.retire r).withState (m.key s) .buffered) :=
      setState_eq (by rw [haddr]; rfl) hstate (by decide)
    have hside : ((m.retire r).withState (m.key s) .buffered).sideOf r = some s :=
      hin.sideOf_eq hr
    have hbuf := hin.isBuffered_other hpair s r
    have hin' := hin.buffer hpair hb hr
    have hpair' := hpair.buffer s r
    have hframe : Frame m (((m.retire r).withState (m.key s) .buffered).copyRequest s r) :=
      (frame_retire_withState r .buffered hstate).trans ⟨rfl, rfl, rfl, rfl, rfl, fun _ => rfl⟩
    have hpage : ((m.retire r).withState (m.key s) .buffered).page = m.page := rfl
    simp only [CoinMigrator.readComplete, hset, Option.bind_some, hside, hpage, hbuf]
    split_ifs with hob
    · have hall : update b s true = fun _ => true := by
        funext s'
        by_cases hss : s' = s
        · simp [hss]
        · rw [update_of_ne hss, Side.eq_other_of_ne hss, hob]
      rw [hall] at hin'
      obtain ⟨promo, hpromo, -⟩ := hin'.request .promotee
      obtain ⟨demo, hdemo, -⟩ := hin'.request .demotee
      simp only [hpromo, hdemo, Option.bind_some]
      obtain ⟨m', phase', hm', hsw, hw, hf⟩ := hin'.issueWrites hpair' hpromo hdemo issued
      exact ⟨m', phase', hm', hsw, hw, hframe.trans hf⟩
    · refine ⟨_, .reading (update b s true), rfl, ⟨⟨s.other, ?_⟩, hpair', hin'⟩,
        fun _ => rfl, hframe⟩
      rw [update_of_ne s.other_ne]
      exact Bool.eq_false_iff.mpr hob

theorem inOrder_history (w : WriteStatus) : InOrder false w.history := by
  cases w with
  | held => exact Or.inl (by decide)
  | issued marked => cases marked <;> [exact Or.inl (by decide); exact Or.inr (by decide)]
  | completed marked => cases marked <;> [exact Or.inl (by decide); exact Or.inr (by decide)]

theorem inOrder_historyOf (phase : Phase) (s : Side) : InOrder false (phase.historyOf s) := by
  cases phase with
  | reading b =>
    simp only [Phase.historyOf]
    split_ifs <;> exact Or.inl (by decide)
  | writing st => exact inOrder_history _

theorem inOrder_nil (atomic : Bool) : InOrder atomic [] := by
  cases atomic
  · exact Or.inl List.nil_prefix
  · exact List.nil_prefix

/-- All pages are in order during a swap. -/
theorem Swapping.inOrder (h : m.Swapping phase) (key : UInt64) :
    InOrder m.atomic (m.historyOf key) := by
  obtain ⟨-, hpair, hin⟩ := h
  rw [hpair.cycleAccurate]
  by_cases hkey : ∃ s, key = m.key s
  · obtain ⟨s, rfl⟩ := hkey
    exact hin.history s ▸ inOrder_historyOf phase s
  · rw [hpair.entered key fun s hs => hkey ⟨s, hs⟩]
    exact inOrder_nil _

section Done

variable {st : Side → WriteStatus} {marked : Bool}

theorem afterWrite_settled (hpair : m.OwnsPair) {key : UInt64} (hkey : ∀ s', key ≠ m.key s') :
    (m.afterWrite s r).Settled key := by
  have h : ((m.retire r).withState (m.key s.other) .done).Settled key :=
    settled_withState (hkey s.other) (hpair.settled key hkey)
  unfold Settled at h ⊢
  have hw : (m.afterWrite s r).written key = m.written key :=
    update_of_ne (hkey s) _ _
  rw [hw]
  exact h

theorem afterWrite_ownsPair (hpair : m.OwnsPair)
    (hopen : (m.afterWrite s r).decoder.migrationState (m.key s) ≠ some .done) :
    (m.afterWrite s r).OwnsPair := by
  have hpair₀ : (m.retire r).OwnsPair := hpair.of_eq rfl rfl rfl rfl rfl
  have h : ((m.retire r).withState (m.key s.other) .done).OwnsPair :=
    hpair₀.withState s.other ⟨s, hopen⟩
  exact ⟨h.migrating, h.input, h.output, h.key_ne, h.map,
    fun key hkey => afterWrite_settled hpair hkey, h.entered, h.cycleAccurate⟩

/-- With the second write the migration is over. -/
theorem InPhase.idle_afterWrite (hpair : m.OwnsPair) (h : m.InPhase (.writing st))
    (hs : st s = .issued marked) (hr : m.request s = some r)
    (hother : (st s.other).isCompleted) : (m.afterWrite s r).Idle := by
  have hin := h.complete hpair hs hr
  have hall : ∀ s', (update st s (.completed marked) s').isCompleted :=
    (Side.forall_iff s).mpr ⟨by simp [WriteStatus.isCompleted], by
      rwa [update_of_ne s.other_ne]⟩
  generalize update st s (.completed marked) = st' at hin hall
  have hdone : ∀ s', (m.afterWrite s r).decoder.migrationState (m.key s') = some .done :=
    fun s' => (hin.state s').trans (congrArg some (WriteStatus.state_eq_done (hall s'.other)))
  refine ⟨?_, fun key => ?_, fun s' => ?_, ?_, fun key => ?_⟩
  · refine (migrating_withState (m.retire r) (m.key s.other) .done).trans (if_pos ?_)
    exact ⟨(congrArg _ hpair.input).trans (hdone .promotee),
      (congrArg _ hpair.output).trans (hdone .demotee)⟩
  · by_cases hkey : ∃ s', key = m.key s'
    · obtain ⟨s', rfl⟩ := hkey
      exact Or.inr ⟨hdone s', hpair.map s', (hin.written s').trans (hall s')⟩
    · exact afterWrite_settled hpair fun s' hs' => hkey ⟨s', hs'⟩
  · refine (hin.buffered s').trans ?_
    have := hall s'
    cases hst : st' s' <;> simp_all [Phase.holds, WriteStatus.isHeld, WriteStatus.isCompleted]
  · refine List.eq_nil_iff_forall_not_mem.mpr fun r' hr' => ?_
    obtain ⟨s', hout, -⟩ := (hin.inFlight r').mp hr'
    have := hall s'
    cases hst : st' s' <;> simp_all [Phase.outstanding, WriteStatus.isIssued,
      WriteStatus.isCompleted]
  · have hatomic : (m.afterWrite s r).atomic = false := hpair.cycleAccurate
    rw [hatomic]
    by_cases hkey : ∃ s', key = m.key s'
    · obtain ⟨s', rfl⟩ := hkey
      exact hin.history s' ▸ inOrder_historyOf _ s'
    · have hnil := hpair.entered key fun s' hs' => hkey ⟨s', hs'⟩
      have heq : (m.afterWrite s r).historyOf key = m.historyOf key := by
        refine (historyOf_withState (m.retire r) (m.key s.other) key .done).trans (if_neg ?_)
        exact fun hk => hkey ⟨s.other, hk⟩
      rw [heq, hnil]
      exact inOrder_nil _

/-- **A write completes.** -/
theorem Swapping.writeComplete (h : m.Swapping phase) {id : ℕ}
    (hfind : m.findRequest id .write = some r) :
    ∃ m', m.writeComplete r = some m' ∧ ((m'.Idle ∧ ∃ s, phase.writtenOf s = true) ∨
        ∃ phase', m'.Swapping phase' ∧ ∃ s, phase'.writtenOf s = true) ∧ Frame m m' := by
  obtain ⟨-, hpair, hin⟩ := h
  obtain ⟨htag, s, hout, hr, hdata, haddr⟩ := hin.of_findRequest hfind
  cases phase with
  | reading b => cases htag
  | writing st =>
    obtain ⟨marked, hs⟩ : ∃ marked, st s = .issued marked := by
      cases hst : st s <;> simp_all [Phase.outstanding, WriteStatus.isIssued]
    have hstate := hin.state s.other
    simp only [Phase.stateOf, Side.other_other, hs] at hstate
    have hset : (m.retire r).setState r.address .done =
        some ((m.retire r).withState (m.key s.other) .done) :=
      setState_eq (by rw [haddr]; rfl) hstate (by cases marked <;> decide)
    have hres : m.writeComplete r = some (m.afterWrite s r) := by
      simp only [CoinMigrator.writeComplete, hset, Option.map_some, hdata]
      rfl
    have hframe : Frame m (m.afterWrite s r) :=
      (frame_retire_withState r .done hstate).trans ⟨rfl, rfl, rfl, rfl, rfl, fun _ => rfl⟩
    refine ⟨_, hres, ?_, hframe⟩
    -- the migration is over if the other write has completed, and goes on if not
    cases hother : (st s.other).isCompleted with
    | true => exact Or.inl ⟨hin.idle_afterWrite hpair hs hr hother, s.other, hother⟩
    | false =>
      have hin' := hin.complete hpair hs hr
      refine Or.inr ⟨.writing (update st s (.completed marked)), ⟨⟨s.other, ?_⟩,
        afterWrite_ownsPair hpair ?_, hin'⟩, s, ?_⟩
      · rwa [update_of_ne s.other_ne]
      · refine ne_of_eq_of_ne (hin'.state s) fun heq => ?_
        simp only [Phase.stateOf, update_of_ne s.other_ne] at heq
        exact WriteStatus.state_ne_done hother (Option.some.inj heq)
      · simp [Phase.writtenOf, WriteStatus.isCompleted]

end Done

/-- A later attempt to issue a write that waits. -/
theorem Swapping.retry (h : m.Swapping phase) (s : Side) (issued : Side → Bool) :
    ∃ phase', (m.retry s issued).Swapping phase' ∧ phase'.writtenOf = phase.writtenOf := by
  obtain ⟨hopen, hpair, hin⟩ := h
  obtain ⟨r, hr, -⟩ := hin.request s
  simp only [CoinMigrator.retry, hr]
  split_ifs with hi
  · simp only [Bool.and_eq_true, hin.buffered] at hi
    cases phase with
    | reading b => cases hi.1
    | writing st =>
      have hs : st s = .held := by
        cases hst : st s <;> simp_all [Phase.holds, WriteStatus.isHeld]
      refine ⟨.writing (update st s (.issued false)), ⟨⟨s, ?_⟩,
        hpair.of_eq rfl rfl rfl rfl rfl, hin.reissue hs hr⟩, ?_⟩
      · simp [WriteStatus.isCompleted]
      · funext s'
        exact (apply_update_status WriteStatus.isCompleted (by rw [hs]; rfl) s').symm
  · exact ⟨phase, ⟨hopen, hpair, hin⟩, rfl⟩

theorem retry_eq_of_not_buffered (h : m.buffered s = false) (issued : Side → Bool) :
    m.retry s issued = m := by
  unfold CoinMigrator.retry
  cases m.request s <;> simp [h]

theorem frame_retry (m : CoinMigrator) (s : Side) (issued : Side → Bool) :
    Frame m (m.retry s issued) := by
  unfold CoinMigrator.retry
  cases m.request s with
  | none => exact Frame.refl m
  | some r =>
    simp only
    split_ifs
    · exact ⟨rfl, rfl, rfl, rfl, rfl, fun _ => rfl⟩
    · exact Frame.refl m

end CoinMigrator

end HybridMemory.NVMain

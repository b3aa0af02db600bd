import HybridMemory.NVMain.PageSwap

/-!
# Migrations

Runs of a migrator, from the triggers that start migrations to the completions that end
them. With the page swap protocol this gives what the migrators do over any run:

* `swap_protocol`: at most one migration is in progress, each page runs through its states
  in order, and no assertion fails, as long as no page that was migrated is chosen to
  leave the promotion channel;
* `done_after_write_iff`: a page is marked done only after its own data were written,
  except while one of the two writes of a migration has completed and the other one has
  not. The code marks the page at the *address* of the write, and that is the other page;
* `demotee_not_migrated_iff`: the round robin of `CoinMigrator` chooses a page that was
  migrated exactly when it comes to a position that led to a migration before. It counts
  the pages of the promotion channel over and over, and pages never migrate back.
-/

namespace HybridMemory.NVMain

open Transition Function

namespace SwapConfig

/-- The positions the round robin can take. -/
def IsPosition (c : SwapConfig) (page : UInt64) : Prop :=
  match c.policy with
  | .coin => page.toNat < c.totalPromotionPages.toNat
  | .common => page.toNat ≤ c.totalPromotionPages.toNat

/-- The physical address `ChooseVictim` computes for a position. -/
def victimAddress (c : SwapConfig) (d : MigratorConfig) (page : UInt64) : Option UInt64 :=
  (d.translator.reverseTranslate (update (c.victimLocation page) .col 0)).map Prod.fst

/-- A configuration that makes sense: the decoder is set up, the promotion channel has
pages, and the decoder finds the pages of the round robin in that channel. -/
structure Valid (c : SwapConfig) (d : MigratorConfig) (method : TranslationMethod) : Prop where
  decoder : d.Valid method
  pages : 0 < c.totalPromotionPages.toNat
  victims : ∀ page, c.IsPosition page → ∃ address, c.victimAddress d page = some address ∧
    d.baseTranslate address .channel = c.promotionChannel

variable {c : SwapConfig}

theorem isPosition_firstPage (h : 0 < c.totalPromotionPages.toNat) :
    c.IsPosition c.firstPage := by
  unfold IsPosition firstPage
  cases c.policy
  · exact h
  · exact le_rfl

theorem isPosition_nextPage (h : 0 < c.totalPromotionPages.toNat) (page : UInt64) :
    c.IsPosition (c.nextPage page) := by
  unfold IsPosition nextPage
  cases c.policy with
  | coin =>
    simp only [UInt64.toNat_mod]
    exact Nat.mod_lt _ h
  | common =>
    simp only
    split_ifs <;> (rw [UInt64.toNat_mod]; exact (Nat.mod_lt _ h).le)

end SwapConfig

namespace CoinMigrator

variable {c : SwapConfig} {d : MigratorConfig} {method : TranslationMethod}
variable {m m' : CoinMigrator} {t : Trigger}

/-! ### The pair of a migration -/

theorem inRange_update_col {loc : Location} (h : AddressTranslator.InRange method loc) :
    AddressTranslator.InRange method (update loc .col 0) := by
  intro p
  by_cases hp : p = .col
  · rw [hp, update_self]
    exact Nat.two_pow_pos _
  · rw [update_of_ne hp]
    exact h p

/-- The address of a page is one that the decoder translates to it. -/
theorem pageAddress_spec (hd : m.decoder.config.Valid method) {loc : Location}
    (hloc : AddressTranslator.InRange method loc) :
    ∃ a, m.pageAddress loc = some a ∧ m.decoder.retranslate a = a ∧
      NVMain.page a.translated = NVMain.page loc := by
  obtain ⟨address, hrev, -, htr⟩ :=
    hd.translator.translate_reverseTranslate (inRange_update_col hloc)
  refine ⟨⟨address, update loc .col 0⟩, ?_, ?_, rfl⟩
  · simp only [pageAddress, hrev, Option.map_some]
  · simp only [Migrator.retranslate, MigratorConfig.baseTranslate, htr]

/-- The trigger gets as far as choosing a page to leave the promotion channel. -/
def Chooses (m : CoinMigrator) (t : Trigger) : Prop :=
  m.parseRequest t ∧ m.migrationPossible t ∧ m.toss t

/-- The page chosen to leave the promotion channel was migrated before. -/
def DemoteeMigrated (m : CoinMigrator) : Prop :=
  ∃ demotee, m.victim = some demotee ∧ (m.decoder.isMigrated demotee).1

/-- What `TryMigration` works on once it has chosen: two pages in different channels, the
first of which was not migrated. -/
structure Pair (m : CoinMigrator) (t : Trigger) (promotee demotee : NVMAddress) : Prop where
  promotee_eq : m.pageAddress (m.triggerAddress t).translated = some promotee
  demotee_eq : m.victim = some demotee
  promotee_fixed : m.decoder.retranslate promotee = promotee
  promotee_key : m.decoder.config.getAddressKey promotee.translated =
    m.decoder.config.getAddressKey (m.triggerAddress t).translated
  promotee_new : (m.decoder.isMigrated promotee).1 = false
  key_ne : m.decoder.config.getAddressKey promotee.translated ≠
    m.decoder.config.getAddressKey (m.decoder.retranslate demotee).translated

/-- The page chosen to be demoted is in the promotion channel. -/
theorem exists_victim (hc : m.config.Valid m.decoder.config method)
    (hpos : m.config.IsPosition m.promotionPage) : ∃ demotee, m.victim = some demotee ∧
      (m.decoder.retranslate demotee).translated .channel = m.config.promotionChannel := by
  obtain ⟨address, haddr, hchan⟩ := hc.victims _ hpos
  obtain ⟨r, hr, rfl⟩ := Option.map_eq_some_iff.mp haddr
  refine ⟨⟨r.1, update (m.config.victimLocation m.promotionPage) .col 0⟩, ?_, hchan⟩
  simp only [victim, pageAddress, hr, Option.map_some]

theorem exists_pair (hc : m.config.Valid m.decoder.config method)
    (hpos : m.config.IsPosition m.promotionPage) (hch : m.Chooses t) :
    ∃ promotee demotee, m.Pair t promotee demotee := by
  obtain ⟨-, hposs, -⟩ := hch
  simp only [migrationPossible, Bool.and_eq_true, Bool.not_eq_true', bne_iff_ne] at hposs
  obtain ⟨⟨-, hnew⟩, hchan⟩ := hposs
  have htrig : AddressTranslator.InRange method (m.triggerAddress t).translated :=
    Migrator.inRange_baseTranslate hc.decoder _
  obtain ⟨promotee, hp, hpfix, hppage⟩ := pageAddress_spec hc.decoder htrig
  obtain ⟨demotee, hd, hdchan⟩ := exists_victim hc hpos
  have hpkey : m.decoder.config.getAddressKey promotee.translated =
      m.decoder.config.getAddressKey (m.triggerAddress t).translated := by
    rw [MigratorConfig.getAddressKey_eq, MigratorConfig.getAddressKey_eq, hppage]
  refine ⟨promotee, demotee, hp, hd, hpfix, hpkey, ?_, fun heq => hchan ?_⟩
  · rw [Migrator.isMigrated_fst, hpfix, hpkey, ← hnew, Migrator.isMigrated_fst]
    rfl
  · -- the keys differ since the channels do
    rw [hpkey, MigratorConfig.getAddressKey_eq, MigratorConfig.getAddressKey_eq] at heq
    have hpage := hc.decoder.pageKey_injective (MigratorConfig.pageInRange_of_inRange htrig)
      (Migrator.pageInRange_baseTranslate hc.decoder _) heq
    exact (congrArg Prod.fst hpage).trans hdchan

/-- The migrator once a pair is chosen and its migration is to be started. -/
def chosen (m : CoinMigrator) (promotee demotee : NVMAddress) : CoinMigrator :=
  { m.choose promotee demotee with victims := m.promotionPage :: m.victims }

/-- **What a trigger does.** Without a choice nothing happens; a choice of a page that was
migrated fails an assertion; otherwise the migration is made at once, is started, or has to
wait for its turn. -/
theorem tryMigration_cases {promotee demotee : NVMAddress} (hidle : m.Idle) (hch : m.Chooses t)
    (hpair : m.Pair t promotee demotee) : m.tryMigration t =
      if (m.decoder.isMigrated demotee).1 then none
      else if t.atomic then
        (m.chosen promotee (m.decoder.retranslate demotee)).swapAtomic (m.triggerAddress t)
      else if t.issuable .promotee && t.issuable .demotee then
        (m.chosen promotee (m.decoder.retranslate demotee)).startSwap (m.triggerAddress t)
      else some (m.choose promotee (m.decoder.retranslate demotee)) := by
  obtain ⟨hparse, hposs, htoss⟩ := hch
  simp only [tryMigration, hparse, hposs, htoss, hidle.buffered, hpair.promotee_eq,
    hpair.demotee_eq, Option.bind_some, hpair.promotee_fixed, hpair.promotee_new, Bool.or_false,
    Bool.not_true, Bool.false_eq_true, if_false]
  cases t.atomic
  · simp only [Bool.false_or, Bool.false_eq_true, if_false]
    rfl
  · rfl

theorem tryMigration_of_not_chooses (hidle : m.Idle) (hch : ¬ m.Chooses t) :
    m.tryMigration t = some m := by
  unfold tryMigration
  cases hparse : m.parseRequest t <;> cases hposs : m.migrationPossible t <;>
    cases htoss : m.toss t <;> simp_all [Chooses, hidle.buffered]

/-! ### The start of a migration -/

/-- What the start of a migration changes as far as the round robin is concerned: its two
pages have a state. -/
structure Begins (m m' : CoinMigrator) : Prop where
  config : m'.config = m.config
  decoder : m'.decoder.config = m.decoder.config
  currentPromotionPage : m'.currentPromotionPage = m.currentPromotionPage
  choices : m'.choices = m.choices
  victims : m'.victims = m.victims
  known : ∀ key, (m'.decoder.migrationState key).isSome ↔
    (∃ s, key = m.key s) ∨ (m.decoder.migrationState key).isSome

theorem Begins.frame {m'' : CoinMigrator} (h : m.Begins m') (hf : Frame m' m'') : m.Begins m'' :=
  ⟨hf.config.trans h.config, hf.decoder.trans h.decoder,
    hf.currentPromotionPage.trans h.currentPromotionPage, hf.choices.trans h.choices,
    hf.victims.trans h.victims, fun key => hf.known key ▸ h.known key⟩

theorem historyOf_congr (h : m'.entered = m.entered) : m'.historyOf = m.historyOf := by
  funext key
  simp only [historyOf, h]

section Begun

variable (m : CoinMigrator) (address : NVMAddress)

/-- The migrator with the migration of its two pages begun. -/
def begun : CoinMigrator :=
  { m with
    decoder := m.decoder.started address (m.page .demotee)
    entered := [(m.key .promotee, .reading), (m.key .demotee, .reading)]
    written := update (update m.written (m.key .promotee) false)
      (m.key .demotee) false }

theorem begun_history (hne : m.key .promotee ≠ m.key .demotee) (s : Side) :
    (m.begun address).historyOf (m.key s) = [.reading] := by
  simp only [historyOf, begun]
  cases s with
  | promotee => simp [hne.symm]
  | demotee => simp [hne]

theorem begun_history_of_ne {k : UInt64} (hk : ∀ s, k ≠ m.key s) :
    (m.begun address).historyOf k = [] := by
  simp [historyOf, begun, (hk .promotee).symm, (hk .demotee).symm]

theorem begun_written (s : Side) : (m.begun address).written (m.key s) = false := by
  simp only [begun, update_apply]
  cases s <;> simp

/-- The migrator with the reads of its two pages issued. -/
def reads : CoinMigrator :=
  { m.begun address with
    atomic := false
    request := Side.pick (some ⟨m.allocated, m.page .promotee, .read, .promotee⟩)
      (some ⟨m.allocated + 1, m.page .demotee, .read, .demotee⟩)
    allocated := m.allocated + 2
    inFlight := ⟨m.allocated, m.page .promotee, .read, .promotee⟩ ::
      ⟨m.allocated + 1, m.page .demotee, .read, .demotee⟩ :: m.inFlight }

theorem key_reads : (m.reads address).key = m.key := rfl

theorem decoder_reads : (m.reads address).decoder = (m.begun address).decoder := rfl

theorem historyOf_reads : (m.reads address).historyOf = (m.begun address).historyOf :=
  historyOf_congr (by simp only [reads])

theorem written_reads : (m.reads address).written = (m.begun address).written := rfl

/-- The migrator with its two pages swapped. -/
def swapped : CoinMigrator :=
  { ((m.begun address).withState (m.key .promotee) .done).withState (m.key .demotee) .done with
    atomic := true
    written := update (update (m.begun address).written (m.key .promotee) true)
      (m.key .demotee) true }

theorem decoder_swapped :
    (m.swapped address).decoder = (((m.begun address).withState (m.key .promotee) .done).withState
      (m.key .demotee) .done).decoder := rfl

theorem historyOf_swapped :
    (m.swapped address).historyOf = (((m.begun address).withState (m.key .promotee) .done).withState
      (m.key .demotee) .done).historyOf :=
  historyOf_congr (by simp only [swapped])

theorem swapped_written (k : UInt64) :
    (m.swapped address).written k =
      if k = m.key .demotee ∨ k = m.key .promotee then true else m.written k := by
  simp only [swapped, begun, update_apply]
  split_ifs <;> simp_all

theorem swapped_history (hne : m.key .promotee ≠ m.key .demotee)
    (k : UInt64) : (m.swapped address).historyOf k =
      if k = m.key .demotee ∨ k = m.key .promotee then [.reading, .done] else [] := by
  rw [historyOf_swapped, historyOf_withState, historyOf_withState]
  by_cases hd : k = m.key .demotee
  · have hp : k ≠ m.key .promotee := fun hp => hne (hp.symm.trans hd)
    rw [if_pos hd, if_neg hp, if_pos (Or.inl hd), hd, begun_history m address hne]
    rfl
  by_cases hp : k = m.key .promotee
  · rw [if_neg hd, if_pos hp, if_pos (Or.inr hp), hp, begun_history m address hne]
    rfl
  · rw [if_neg hd, if_neg hp, if_neg (not_or.mpr ⟨hd, hp⟩)]
    exact begun_history_of_ne m address fun s => by cases s <;> assumption

variable {m address}
  (hkey : m.decoder.config.getAddressKey address.translated = m.key .promotee)

include hkey

theorem start_eq (hmig : m.decoder.migrating = false) :
    m.start address = some (m.begun address) := by
  simp only [start, Migrator.startMigration, hmig, hkey]
  rfl

theorem begun_migrationState (k : UInt64) :
    (m.begun address).decoder.migrationState k =
      if k = m.key .demotee ∨ k = m.key .promotee then some .reading
      else m.decoder.migrationState k := by
  rw [← hkey]
  exact Migrator.started_migrationState _ _ _ _

theorem begun_migrationMap (k : UInt64) :
    (m.begun address).decoder.migrationMap k =
      if k = m.key .demotee then some (address.translated .channel)
      else if k = m.key .promotee then some ((m.page .demotee).translated .channel)
      else m.decoder.migrationMap k := by
  rw [← hkey]
  exact Migrator.started_migrationMap _ _ _ _

theorem begun_state (s : Side) :
    (m.begun address).decoder.migrationState (m.key s) = some .reading := by
  rw [begun_migrationState hkey, if_pos]
  cases s <;> simp

theorem begun_map (s : Side) : ((m.begun address).decoder.migrationMap (m.key s)).isSome := by
  rw [begun_migrationMap hkey]
  cases s
  · split_ifs <;> simp_all
  · simp

theorem begun_settled {k : UInt64} (hk : ∀ s, k ≠ m.key s) (h : m.Settled k) :
    (m.begun address).Settled k := by
  have hw : (m.begun address).written k = m.written k := by
    simp only [begun]
    rw [update_of_ne (hk .demotee), update_of_ne (hk .promotee)]
  unfold Settled
  rw [begun_migrationState hkey, if_neg (by simp [hk]), begun_migrationMap hkey,
    if_neg (hk _), if_neg (hk _), hw]
  exact h

theorem begins_begun :
    m.Begins (m.begun address) := by
  refine ⟨rfl, rfl, rfl, rfl, rfl, fun k => ?_⟩
  by_cases hk : ∃ s, k = m.key s
  · obtain ⟨s, rfl⟩ := hk
    simp [begun_state hkey s]
  · rw [begun_migrationState hkey, if_neg, or_iff_right hk]
    rintro (h | h)
    · exact hk ⟨_, h⟩
    · exact hk ⟨_, h⟩

theorem startSwap_eq (hmig : m.decoder.migrating = false) :
    m.startSwap address = some (m.reads address) := by
  simp only [startSwap, start_eq hkey hmig, Option.map_some]
  rfl

theorem Idle.ownsPair_reads (h : m.Idle) (hne : m.key .promotee ≠ m.key .demotee) :
    (m.reads address).OwnsPair where
  migrating := rfl
  input := hkey
  output := rfl
  key_ne s := by cases s <;> [exact hne; exact hne.symm]
  map s := by
    rw [decoder_reads, key_reads]
    exact begun_map hkey s
  settled k hk := begun_settled hkey hk (h.settled k)
  entered k hk := begun_history_of_ne m address hk
  cycleAccurate := rfl

/-- **A cycle-accurate migration starts** with both pages being read. -/
theorem Idle.swapping_reads (h : m.Idle) (hne : m.key .promotee ≠ m.key .demotee) :
    (m.reads address).Swapping .first := by
  refine ⟨⟨.promotee, rfl⟩, h.ownsPair_reads hkey hne, ?_⟩
  refine ⟨fun s => ?_, fun s => ?_, fun s => ?_, h.buffered, fun s => ?_, fun s r r' hr hr' => ?_,
    fun r => ?_⟩
  · rw [decoder_reads, key_reads]
    exact begun_state hkey s
  · rw [historyOf_reads, key_reads]
    exact begun_history m address hne s
  · rw [written_reads, key_reads]
    exact begun_written m address s
  · cases s with
    | promotee => exact ⟨_, rfl, rfl, rfl, rfl, Nat.lt_add_of_pos_right (by norm_num)⟩
    | demotee => exact ⟨_, rfl, rfl, rfl, rfl, Nat.lt_succ_self _⟩
  · cases s with
    | promotee =>
      obtain rfl := Option.some.inj hr
      obtain rfl := Option.some.inj hr'
      exact Nat.ne_of_lt (Nat.lt_succ_self _)
    | demotee =>
      obtain rfl := Option.some.inj hr
      obtain rfl := Option.some.inj hr'
      exact Nat.ne_of_gt (Nat.lt_succ_self _)
  · simp only [reads, h.inFlight, List.mem_cons, List.not_mem_nil, or_false]
    constructor
    · rintro (rfl | rfl)
      · exact ⟨.promotee, rfl, rfl⟩
      · exact ⟨.demotee, rfl, rfl⟩
    · rintro ⟨s, -, hr⟩
      cases s with
      | promotee => exact Or.inl (Option.some.inj hr).symm
      | demotee => exact Or.inr (Option.some.inj hr).symm

theorem begins_reads :
    m.Begins (m.reads address) :=
  (begins_begun hkey).frame ⟨rfl, rfl, rfl, rfl, rfl, fun _ => rfl⟩

theorem swapped_state (k : UInt64) : (m.swapped address).decoder.migrationState k =
      if k = m.key .demotee ∨ k = m.key .promotee then some .done
      else m.decoder.migrationState k := by
  rw [decoder_swapped, state_withState, state_withState, begun_migrationState hkey]
  split_ifs <;> simp_all

/-- The two pages are swapped without an assertion that fails. -/
theorem swapAtomic_eq (hmig : m.decoder.migrating = false)
    (hne : m.key .promotee ≠ m.key .demotee) :
    m.swapAtomic address = some (m.swapped address) ∧ m.Begins (m.swapped address) := by
  have hpromo := begun_state hkey .promotee
  have hdemo : ((m.begun address).withState (m.key .promotee) .done).decoder.migrationState
      (m.key .demotee) = some .reading := by
    rw [state_withState, if_neg hne.symm, begun_state hkey]
  have hset₁ : (m.begun address).setState ((m.begun address).page .promotee) .done =
      some ((m.begun address).withState (m.key .promotee) .done) :=
    setState_eq rfl hpromo (by decide)
  generalize hm₂ : (m.begun address).withState (m.key .promotee) .done = m₂ at *
  have hset₂ : m₂.setState (m₂.page .demotee) .done =
      some (m₂.withState (m.key .demotee) .done) :=
    setState_eq (hm₂ ▸ rfl) hdemo (by decide)
  constructor
  · simp only [swapAtomic, start_eq hkey hmig, Option.bind_some, hset₁, hset₂, Option.map_some]
    rw [← hm₂]
    rfl
  · refine (begins_begun hkey).frame ((hm₂ ▸ frame_withState .done hpromo : Frame _ m₂).trans
      ((frame_withState .done hdemo).trans ?_))
    rw [← hm₂]
    constructor <;> simp only [swapped, implies_true]

/-- **An atomic migration** is over at once. -/
theorem Idle.swapAtomic (h : m.Idle) (hne : m.key .promotee ≠ m.key .demotee) :
    (m.swapped address).Idle where
  migrating := by
    rw [decoder_swapped, migrating_withState, ← decoder_swapped, swapped_state hkey,
      swapped_state hkey]
    exact if_pos ⟨if_pos (Or.inr hkey), if_pos (Or.inl rfl)⟩
  settled k := by
    by_cases hk : ∃ s, k = m.key s
    · obtain ⟨s, rfl⟩ := hk
      have hs : m.key s = m.key .demotee ∨ m.key s = m.key .promotee := by cases s <;> simp
      refine Or.inr ⟨(swapped_state hkey _).trans (if_pos hs), begun_map hkey s, ?_⟩
      rw [swapped_written, if_pos hs]
    · have hk' : ∀ s, k ≠ m.key s := fun s hs => hk ⟨s, hs⟩
      have hmap : (m.swapped address).decoder.migrationMap k = m.decoder.migrationMap k :=
        (begun_migrationMap hkey k).trans (by rw [if_neg (hk' _), if_neg (hk' _)])
      unfold Settled
      rw [swapped_state hkey, swapped_written, hmap, if_neg (by simp [hk']), if_neg (by simp [hk'])]
      exact h.settled k
  buffered := h.buffered
  inFlight := h.inFlight
  inOrder k := by
    rw [swapped_history m address hne]
    split_ifs
    · exact List.prefix_rfl
    · exact inOrder_nil _

end Begun

/-! ### Runs -/

/-- What holds of a migrator in every state of a run. -/
structure RunInv (c : SwapConfig) (d : MigratorConfig) (m : CoinMigrator) : Prop
    extends Inv c d m where
  position : c.IsPosition m.promotionPage

/-- A trigger that chooses pages. The page to be demoted was not migrated, and either the
migration has to wait, or it begins. -/
def Migrates (m : CoinMigrator) (t : Trigger) (m' : CoinMigrator) : Prop :=
  m.Chooses t ∧ ¬ m.DemoteeMigrated ∧ ∃ promotee demotee, m.Pair t promotee demotee ∧
    (m' = m.choose promotee (m.decoder.retranslate demotee) ∨
      (m.chosen promotee (m.decoder.retranslate demotee)).Begins m')

theorem demoteeMigrated_iff {demotee : NVMAddress} (h : m.victim = some demotee) :
    m.DemoteeMigrated ↔ (m.decoder.isMigrated demotee).1 := by
  refine ⟨?_, fun hd => ⟨demotee, h, hd⟩⟩
  rintro ⟨demotee', hd', hmig⟩
  exact Option.some.inj (h.symm.trans hd') ▸ hmig

theorem Idle.choose (h : m.Idle) (promotee demotee : NVMAddress) :
    (m.choose promotee demotee).Idle :=
  ⟨h.migrating, h.settled, h.buffered, h.inFlight, h.inOrder⟩

theorem Idle.chosen (h : m.Idle) (promotee demotee : NVMAddress) :
    (m.chosen promotee demotee).Idle :=
  ⟨h.migrating, h.settled, h.buffered, h.inFlight, h.inOrder⟩

/-- **What a trigger does that chooses pages**: it fails an assertion if the page to be
demoted was migrated, and otherwise it migrates. -/
theorem Idle.tryMigration (hc : m.config.Valid m.decoder.config method)
    (hpos : m.config.IsPosition m.promotionPage) (hidle : m.Idle) (hch : m.Chooses t) :
    (m.DemoteeMigrated ∧ m.tryMigration t = none) ∨
      ∃ m', m.tryMigration t = some m' ∧ (m'.Idle ∨ m'.Swapping .first) ∧ m.Migrates t m' := by
  obtain ⟨promotee, demotee, hpair⟩ := exists_pair hc hpos hch
  have hres := tryMigration_cases hidle hch hpair
  by_cases hmig : (m.decoder.isMigrated demotee).1
  · exact Or.inl ⟨(demoteeMigrated_iff hpair.demotee_eq).mpr hmig, hres.trans (if_pos hmig)⟩
  rw [if_neg hmig] at hres
  have hnew := fun h => hmig ((demoteeMigrated_iff hpair.demotee_eq).mp h)
  have hidle' := hidle.chosen promotee (m.decoder.retranslate demotee)
  obtain ⟨n, hn⟩ : ∃ n, n = m.chosen promotee (m.decoder.retranslate demotee) := ⟨_, rfl⟩
  have hkey : n.decoder.config.getAddressKey (m.triggerAddress t).translated = n.key .promotee :=
    hn ▸ hpair.promotee_key.symm
  have hne : n.key .promotee ≠ n.key .demotee := hn ▸ hpair.key_ne
  rw [← hn] at hidle' hres
  refine Or.inr ?_
  rw [hres]
  split_ifs
  · obtain ⟨heq, hbegins⟩ := swapAtomic_eq hkey hidle'.migrating hne
    exact ⟨_, heq, Or.inl (hidle'.swapAtomic hkey hne), hch, hnew, promotee, demotee, hpair,
      Or.inr (hn ▸ hbegins)⟩
  · exact ⟨_, startSwap_eq hkey hidle'.migrating, Or.inr (hidle'.swapping_reads hkey hne), hch,
      hnew, promotee, demotee, hpair, Or.inr (hn ▸ begins_reads hkey)⟩
  · exact ⟨_, rfl, Or.inl (hidle.choose _ _), hch, hnew, promotee, demotee, hpair, Or.inl rfl⟩

/-- What the actions can do to a migrator. -/
inductive Moves : CoinMigrator → Action → CoinMigrator → Prop
  | skip {m : CoinMigrator} (t : Trigger) : Moves m (.trigger t) m
  | migrate {m m' : CoinMigrator} {t : Trigger} (h : m.Migrates t m')
      (hphase : m'.Idle ∨ m'.Swapping .first) : Moves m (.trigger t) m'
  | read {m m' : CoinMigrator} {phase' : Phase} (id : ℕ) (issued : Side → Bool)
      (hsw : m'.Swapping phase') (hw : ∀ s, phase'.writtenOf s = false) (hframe : Frame m m') :
      Moves m (.readComplete id issued) m'
  | finish {m m' : CoinMigrator} {phase : Phase} (id : ℕ) (hsw : m.Swapping phase)
      (hw : ∃ s, phase.writtenOf s = true) (hidle : m'.Idle) (hframe : Frame m m') :
      Moves m (.writeComplete id) m'
  | write {m m' : CoinMigrator} {phase' : Phase} (id : ℕ) (hsw : m'.Swapping phase')
      (hw : ∃ s, phase'.writtenOf s = true) (hframe : Frame m m') : Moves m (.writeComplete id) m'
  | idle {m : CoinMigrator} (issued : Side → Bool) : Moves m (.otherComplete issued) m
  | retry {m m' : CoinMigrator} {phase phase' : Phase} (issued : Side → Bool)
      (hsw : m.Swapping phase) (hsw' : m'.Swapping phase')
      (hw : phase'.writtenOf = phase.writtenOf) (hframe : Frame m m') :
      Moves m (.otherComplete issued) m'

theorem Idle.findRequest (h : m.Idle) (id : ℕ) (tag : MigrationTag) :
    m.findRequest id tag = none := by
  simp [CoinMigrator.findRequest, h.inFlight]

theorem RunInv.idle_of_chooses (h : RunInv c d m) (hch : m.Chooses t) : m.Idle := by
  rcases h.phase with hidle | ⟨phase, -, hpair, -⟩
  · exact hidle
  · have hposs := hch.2.1
    simp [migrationPossible, hpair.migrating] at hposs

theorem RunInv.trigger (hc : c.Valid d method) (h : RunInv c d m) (t : Trigger) :
    (∃ m', m.step (.trigger t) = some m' ∧ m.Moves (.trigger t) m') ∨
      m.Chooses t ∧ m.DemoteeMigrated ∧ m.step (.trigger t) = none := by
  obtain ⟨⟨rfl, rfl, hphase⟩, hpos⟩ := h
  rcases hphase with hidle | ⟨phase, hsw⟩
  · by_cases hch : m.Chooses t
    · rcases hidle.tryMigration hc hpos hch with ⟨hmig, hnone⟩ | ⟨m', hm', hphase, hmig⟩
      · exact Or.inr ⟨hch, hmig, hnone⟩
      · exact Or.inl ⟨m', hm', .migrate hmig hphase⟩
    · exact Or.inl ⟨m, tryMigration_of_not_chooses hidle hch, .skip t⟩
  · refine Or.inl ⟨m, ?_, .skip t⟩
    simp [step, CoinMigrator.tryMigration, migrationPossible, hsw.2.1.migrating]

theorem Swapping.otherComplete {phase : Phase} (h : m.Swapping phase) (issued : Side → Bool) :
    ∃ phase', (m.otherComplete issued).Swapping phase' ∧ phase'.writtenOf = phase.writtenOf := by
  obtain ⟨phase₁, h₁, hw₁⟩ := h.retry .promotee issued
  obtain ⟨phase₂, h₂, hw₂⟩ := h₁.retry .demotee issued
  exact ⟨phase₂, h₂, hw₂.trans hw₁⟩

/-- **What a step does.** An action that can happen makes one of the moves, unless it is a
trigger that chooses a page that was migrated; then an assertion fails. -/
theorem RunInv.step_cases (hc : c.Valid d method) (h : RunInv c d m) {a : Action}
    (hen : m.Enabled a) : (∃ m', m.step a = some m' ∧ m.Moves a m') ∨
      ∃ t, a = .trigger t ∧ m.Chooses t ∧ m.DemoteeMigrated ∧ m.step a = none := by
  cases a with
  | trigger t =>
    rcases h.trigger hc t with hmove | ⟨hch, hmig, hnone⟩
    · exact Or.inl hmove
    · exact Or.inr ⟨t, rfl, hch, hmig, hnone⟩
  | readComplete id issued =>
    obtain ⟨r, hr⟩ := Option.isSome_iff_exists.mp hen
    rcases h.phase with hidle | ⟨phase, hsw⟩
    · simp [hidle.findRequest] at hr
    · obtain ⟨m', phase', hm', hsw', hw, hframe⟩ := hsw.readComplete hr issued
      exact Or.inl ⟨m', by simp [step, hr, hm'], .read id issued hsw' hw hframe⟩
  | writeComplete id =>
    obtain ⟨r, hr⟩ := Option.isSome_iff_exists.mp hen
    rcases h.phase with hidle | ⟨phase, hsw⟩
    · simp [hidle.findRequest] at hr
    · obtain ⟨m', hm', hphase, hframe⟩ := hsw.writeComplete hr
      refine Or.inl ⟨m', by simp [step, hr, hm'], ?_⟩
      rcases hphase with ⟨hidle, hw⟩ | ⟨phase', hsw', hw⟩
      · exact .finish id hsw hw hidle hframe
      · exact .write id hsw' hw hframe
  | otherComplete issued =>
    refine Or.inl ⟨_, rfl, ?_⟩
    rcases h.phase with hidle | ⟨phase, hsw⟩
    · have heq : m.otherComplete issued = m := by
        simp only [CoinMigrator.otherComplete, retry_eq_of_not_buffered (hidle.buffered _)]
      exact heq.symm ▸ .idle issued
    · obtain ⟨phase', hsw', hw⟩ := hsw.otherComplete issued
      exact .retry issued hsw hsw' hw ((frame_retry _ _ _).trans (frame_retry _ _ _))

theorem enabled_of_step {a : Action} (h : m.step a = some m') : m.Enabled a := by
  cases a with
  | trigger | otherComplete => trivial
  | readComplete id issued | writeComplete id =>
    obtain ⟨r, hr, -⟩ := Option.bind_eq_some_iff.mp h
    simp [Enabled, hr]

theorem RunInv.moves (hc : c.Valid d method) (h : RunInv c d m) {a : Action}
    (hstep : m.step a = some m') : m.Moves a m' := by
  rcases h.step_cases hc (enabled_of_step hstep) with ⟨m'', hm'', hmove⟩ | ⟨t, -, -, -, hnone⟩
  · exact Option.some.inj (hm''.symm.trans hstep) ▸ hmove
  · rw [hnone] at hstep
    cases hstep

theorem Frame.promotionPage (h : Frame m m') : m'.promotionPage = m.promotionPage := by
  simp only [CoinMigrator.promotionPage, h.config, h.currentPromotionPage]

/-- A choice moves the round robin on. -/
theorem Migrates.promotionPage (h : m.Migrates t m') : m'.config = m.config ∧
    m'.decoder.config = m.decoder.config ∧
      m'.promotionPage = m.config.nextPage m.promotionPage := by
  obtain ⟨-, -, promotee, demotee, -, rfl | hb⟩ := h
  · exact ⟨rfl, rfl, rfl⟩
  · refine ⟨hb.config, hb.decoder, ?_⟩
    simp only [CoinMigrator.promotionPage, hb.config, hb.currentPromotionPage]
    rfl

theorem RunInv.frame (h : RunInv c d m) (hframe : Frame m m')
    (hphase : m'.Idle ∨ ∃ phase, m'.Swapping phase) : RunInv c d m' :=
  ⟨⟨hframe.config.trans h.config, hframe.decoder.trans h.decoder, hphase⟩,
    hframe.promotionPage ▸ h.position⟩

theorem runInv_init (hc : c.Valid d method) : RunInv c d (init c d) := by
  refine ⟨⟨rfl, rfl, Or.inl ⟨rfl, fun _ => Or.inl rfl, fun _ => rfl, rfl, fun _ => ?_⟩⟩,
    SwapConfig.isPosition_firstPage hc.pages⟩
  exact inOrder_nil _

/-- **The step lemma.** -/
theorem RunInv.step (hc : c.Valid d method) (h : RunInv c d m) {a : Action}
    (hmove : m.Moves a m') : RunInv c d m' := by
  cases hmove with
  | skip | idle => exact h
  | migrate hmig hphase =>
    obtain ⟨hconf, hdec, hpage⟩ := hmig.promotionPage
    refine ⟨⟨hconf.trans h.config, hdec.trans h.decoder, hphase.imp_right fun hsw => ⟨_, hsw⟩⟩, ?_⟩
    rw [hpage, h.config]
    exact SwapConfig.isPosition_nextPage hc.pages _
  | read id issued hsw hw hframe => exact h.frame hframe (Or.inr ⟨_, hsw⟩)
  | finish id hsw hw hidle hframe => exact h.frame hframe (Or.inl hidle)
  | write id hsw hw hframe => exact h.frame hframe (Or.inr ⟨_, hsw⟩)
  | retry issued hsw hsw' hw hframe => exact h.frame hframe (Or.inr ⟨_, hsw'⟩)

theorem Inv.inOrder (h : Inv c d m) (key : UInt64) : InOrder m.atomic (m.historyOf key) := by
  rcases h.phase with hidle | ⟨phase, hsw⟩
  · exact hidle.inOrder key
  · exact hsw.inOrder key

/-- The first channel of `exampleConfig` as the promotion channel, with some of its rows. -/
def exampleSwap (policy : MigratorPolicy) (rows : UInt64) : SwapConfig :=
  ⟨policy, 0, ⟨1, 1, rows, rows⟩⟩

theorem valid_exampleSwap : (exampleSwap .coin 2).Valid Migrator.exampleConfig
    ⟨MemoryPartition.fields 1 0 0 0 1 0, MemoryPartition.fields 5 0 1 2 4 3⟩ where
  decoder := Migrator.valid_exampleConfig
  pages := by decide
  victims page hpage := by
    have hlt : page.toNat < 2 := hpage
    obtain rfl | rfl : page = 0 ∨ page = 1 := by
      rw [← UInt64.toNat_inj, ← UInt64.toNat_inj]
      simp
      omega
    · exact ⟨0, by decide +kernel, by decide +kernel⟩
    · exact ⟨128, by decide +kernel, by decide +kernel⟩

/-- A request for an address that makes the migrator migrate its page. -/
def exampleTrigger (physicalAddress : UInt64) (atomic : Bool) : Trigger :=
  ⟨physicalAddress, true, atomic, true, fun _ => true⟩

/-- A migration of row 0 of channel 1 to channel 0, up to the completion of one write. -/
def exampleRun : List Action :=
  [.trigger (exampleTrigger 64 false), .readComplete 0 fun _ => true,
    .readComplete 1 fun _ => true, .writeComplete 2]

/-- Every page that is done has its data written. -/
def DoneAfterWrite (m : CoinMigrator) : Prop :=
  ∀ key, m.decoder.migrationState key = some .done → m.written key = true

/-- Of the migration in progress no write has completed. -/
def Unwritten (m : CoinMigrator) : Prop :=
  m.decoder.migrating = true → ∀ s, m.written (m.key s) = false

theorem Swapping.unwritten_iff {phase : Phase} (h : m.Swapping phase) :
    m.Unwritten ↔ ∀ s, phase.writtenOf s = false := by
  obtain ⟨-, hpair, hin⟩ := h
  simp only [Unwritten, hpair.migrating, hin.written, forall_const]

theorem Idle.unwritten (h : m.Idle) : m.Unwritten := fun hmig => by
  rw [h.migrating] at hmig
  cases hmig

/-- In a swap the pages that are done are the ones whose *other* page is written. -/
theorem Swapping.doneAfterWrite_iff {phase : Phase} (h : m.Swapping phase) :
    m.DoneAfterWrite ↔ m.Unwritten := by
  rw [h.unwritten_iff]
  obtain ⟨hopen, hpair, hin⟩ := h
  have hpages : m.DoneAfterWrite ↔ ∀ s, phase.stateOf s = .done → phase.writtenOf s = true := by
    constructor
    · intro hdone s hs
      rw [← hin.written]
      exact hdone _ (by rw [hin.state, hs])
    · intro hs key hkey
      by_cases hown : ∃ s, key = m.key s
      · obtain ⟨s, rfl⟩ := hown
        rw [hin.state] at hkey
        rw [hin.written]
        exact hs s (Option.some.inj hkey)
      · rcases hpair.settled key fun s hs => hown ⟨s, hs⟩ with hnone | ⟨-, -, hw⟩
        · simp [hnone] at hkey
        · exact hw
  rw [hpages]
  cases phase with
  | reading b =>
    -- no page is done while the pages are read
    refine iff_of_true (fun s hs => ?_) fun s => rfl
    simp only [Phase.stateOf] at hs
    split_ifs at hs
  | writing st =>
    have hdone : ∀ s, (st s).state = .done ↔ (st s).isCompleted = true := fun s => by
      refine ⟨fun hs => ?_, WriteStatus.state_eq_done⟩
      by_contra hne
      exact WriteStatus.state_ne_done (Bool.eq_false_iff.mpr hne) hs
    -- the write of `s` has not completed, so both sides say that the other one has not either
    obtain ⟨s, hs⟩ := hopen
    simp only [Phase.stateOf, Phase.writtenOf, hdone, Side.forall_iff s, Side.other_other, hs]
    cases (st s.other).isCompleted <;> simp

theorem Inv.doneAfterWrite_iff (h : Inv c d m) : m.DoneAfterWrite ↔ m.Unwritten := by
  rcases h.phase with hidle | ⟨phase, hsw⟩
  · refine iff_of_true (fun key hkey => ?_) hidle.unwritten
    rcases hidle.settled key with hnone | ⟨-, -, hw⟩
    · simp [hnone] at hkey
    · exact hw
  · exact hsw.doneAfterWrite_iff

/-- Moves other than completions of writes leave no page half written. -/
theorem Unwritten.moves {a : Action} (h : m.Unwritten) (hmove : m.Moves a m')
    (ha : ∀ id, a ≠ .writeComplete id) : m'.Unwritten := by
  cases hmove with
  | skip | idle => exact h
  | migrate hmig hphase =>
    rcases hphase with hidle | hsw
    · exact hidle.unwritten
    · exact hsw.unwritten_iff.mpr fun s => rfl
  | read id issued hsw hw hframe => exact hsw.unwritten_iff.mpr hw
  | finish id | write id => exact absurd rfl (ha id)
  | retry issued hsw hsw' hw hframe =>
    rw [hsw'.unwritten_iff, hw]
    exact hsw.unwritten_iff.mp h

/-- The first write of a migration to complete leaves a page done that is not written. -/
theorem Unwritten.not_doneAfterWrite {id : ℕ} (h : m.Unwritten)
    (hmove : m.Moves (.writeComplete id) m') : ¬ m'.DoneAfterWrite := by
  cases hmove with
  | finish _ hsw hw hidle hframe =>
    obtain ⟨s, hs⟩ := hw
    rw [hsw.unwritten_iff.mp h s] at hs
    cases hs
  | write _ hsw hw hframe =>
    obtain ⟨s, hs⟩ := hw
    rw [hsw.doneAfterWrite_iff, hsw.unwritten_iff]
    intro hall
    rw [hall s] at hs
    cases hs

/-- **Done after written.** In all states of a run a page that is done has its own data
written, if and only if no write of a migration completes in the run: the first one to
complete marks the other page. -/
theorem done_after_write_iff (c : SwapConfig) (d : MigratorConfig) (method : TranslationMethod)
    (hc : c.Valid d method) (as : List Action) (m : CoinMigrator)
    (h : Run (Steps step) (init c d) as m) :
    (∀ u, Visits (Steps step) (init c d) as u → u.DoneAfterWrite) ↔
      ∀ a ∈ as, ∀ id, a ≠ .writeComplete id := by
  -- `Unwritten` goes along with the invariant up to the first write that completes
  rw [forall_visits_iff (G := fun _ a => ∀ id, a ≠ Action.writeComplete id)
    (I := fun u => RunInv c d u ∧ u.Unwritten)
    (fun u hu => hu.1.doneAfterWrite_iff.mpr hu.2)
    (fun u a u' hu hstep ha => ⟨hu.1.step hc (hu.1.moves hc hstep),
      hu.2.moves (hu.1.moves hc hstep) ha⟩)
    (fun u a u' hu hstep ha => ?_) ⟨runInv_init hc, fun hmig => by cases hmig⟩ h,
    run_guarded_iff_forall, and_iff_right h]
  push Not at ha
  obtain ⟨id, rfl⟩ := ha
  exact hu.2.not_doneAfterWrite (hu.1.moves hc hstep)

/-- Up to the first completion of a write. -/
theorem done_after_write_iff_reads : ∃ m, Run (Steps step) (init (exampleSwap .coin 2)
      Migrator.exampleConfig) (exampleRun.take 3) m ∧ m.DoneAfterWrite := by
  refine exists_run_imp (fun _ => True) (by decide +kernel) fun m hm _ => ?_
  refine (done_after_write_iff _ _ _ valid_exampleSwap _ m hm).mpr ?_ m ⟨_, List.prefix_rfl, hm⟩
  simp [exampleRun]

/-- The page of an address of channel 0 is done and redirected to channel 1, but its data
have not been written. -/
def RedirectedUnwritten (m : CoinMigrator) (address : UInt64) : Prop :=
  let loc := m.decoder.config.baseTranslate address
  let key := m.decoder.config.getAddressKey loc
  m.decoder.migrationState key = some .done ∧ m.written key = false ∧ loc .channel = 0 ∧
    m.decoder.translate address .channel = 1

instance (m : CoinMigrator) (address : UInt64) : Decidable (m.RedirectedUnwritten address) :=
  inferInstanceAs (Decidable (_ ∧ _ ∧ _ ∧ _))

/-- **Done before written.** With either migrator the data of the page from channel 1 have
been written, and the page from channel 0, whose data have not, is marked as done and
redirected. -/
theorem done_before_write :
    (∃ m, Run (Steps step) (init (exampleSwap .coin 1) Migrator.exampleConfig) exampleRun m ∧
      m.RedirectedUnwritten 0) ∧
    ∃ m, Run (Steps step) (init (exampleSwap .common 1) Migrator.exampleConfig) exampleRun m ∧
      m.RedirectedUnwritten 128 :=
  ⟨exists_run (by decide +kernel), exists_run (by decide +kernel)⟩

end CoinMigrator

end HybridMemory.NVMain

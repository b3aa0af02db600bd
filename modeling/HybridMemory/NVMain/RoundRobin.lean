import HybridMemory.NVMain.Migration
import HybridMemory.NVMain.VictimChoice

/-!
# The round robin over the promotion channel

`CoinMigrator::ChooseVictim` goes through the pages of the promotion channel one after the
other and starts over at the end, with no regard to which pages were migrated. On a
geometry of powers of two the positions of the round robin are the pages of the channel,
one each (`PowerOfTwo.victimLocation_injective`), so a page has been migrated exactly if its
position led to a migration (`Tracks`). Pages never migrate back: `demotee_not_migrated_iff`
shows that the assertion on the chosen page fails as soon as the round robin comes to such a
position again, which cannot happen in its first turn.
-/

namespace HybridMemory.NVMain

open Transition

namespace SwapConfig

/-- A geometry of powers of two, and a decoder whose fields can hold the pages of the promotion
channel. -/
structure PowerOfTwo (c : SwapConfig) (method : TranslationMethod)
    (rankBits bankBits subarrayBits rowBits : ℕ) : Prop extends
    c.params.PowersOfTwo rankBits bankBits subarrayBits rowBits where
  rank_le : rankBits ≤ (method.bitWidths .rank).toNat
  bank_le : bankBits ≤ (method.bitWidths .bank).toNat
  subarray_le : subarrayBits ≤ (method.bitWidths .subarray).toNat
  row_le : rowBits - subarrayBits ≤ (method.bitWidths .row).toNat
  channel_lt : c.promotionChannel.toNat < 2 ^ (method.bitWidths .channel).toNat

namespace PowerOfTwo

variable {c : SwapConfig} {method : TranslationMethod} {rankBits bankBits subarrayBits rowBits : ℕ}

theorem inRange_victimLocation (h : c.PowerOfTwo method rankBits bankBits subarrayBits rowBits)
    (hcoin : c.policy = .coin) {page : UInt64} (hpage : c.IsPosition page) :
    AddressTranslator.InRange method (c.victimLocation page) := by
  have hlt : page.toNat < c.totalPromotionPages.toNat := by
    simpa only [IsPosition, hcoin] using hpage
  have hloc := isPage_victimLocation h.toPowersOfTwo hlt
  have hfield : ∀ {p : MemoryPartition} {k : ℕ}, p ∈ pageFields → c.params.count p = 2 ^ k →
      k ≤ (method.bitWidths p).toNat →
      (c.victimLocation page p).toNat < 2 ^ (method.bitWidths p).toNat := fun hp hk hle =>
    (hk ▸ hloc.lt _ hp).trans_le (Nat.pow_le_pow_right two_pos hle)
  intro p
  cases p with
  | rank => exact hfield (by decide) h.ranks h.rank_le
  | bank => exact hfield (by decide) h.banks h.bank_le
  | subarray => exact hfield (by decide) h.subarrays h.subarray_le
  | row => exact hfield (by decide) (count_row h.toPowersOfTwo) h.row_le
  | col => exact Nat.two_pow_pos _
  | channel => exact h.channel_lt

theorem valid {d : MigratorConfig} (h : c.PowerOfTwo method rankBits bankBits subarrayBits rowBits)
    (hcoin : c.policy = .coin) (hd : d.Valid method) : c.Valid d method := by
  refine ⟨hd, totalPromotionPages_pos h.toPowersOfTwo, fun page hpage => ?_⟩
  have hrange := CoinMigrator.inRange_update_col (h.inRange_victimLocation hcoin hpage)
  obtain ⟨address, hrev, -, htr⟩ := hd.translator.translate_reverseTranslate hrange
  refine ⟨address, by simp only [victimAddress, hrev, Option.map_some], ?_⟩
  simp only [MigratorConfig.baseTranslate, htr]
  rfl

/-- Different positions are different pages. -/
theorem victimLocation_injective (h : c.PowerOfTwo method rankBits bankBits subarrayBits rowBits)
    (hcoin : c.policy = .coin) {p q : UInt64} (hp : c.IsPosition p) (hq : c.IsPosition q)
    (heq : NVMain.page (c.victimLocation p) = NVMain.page (c.victimLocation q)) : p = q := by
  simp only [IsPosition, hcoin] at hp hq
  simp only [NVMain.page, Prod.mk.injEq] at heq
  obtain ⟨hchannel, hrow, hbank, hrank, hsub⟩ := heq
  refine victimLocation_inj h.toPowersOfTwo hp hq (funext fun f => ?_)
  cases f <;> first | assumption | rfl

end PowerOfTwo

end SwapConfig

namespace CoinMigrator

variable {c : SwapConfig} {d : MigratorConfig} {method : TranslationMethod}
variable {rankBits bankBits subarrayBits rowBits : ℕ} {m m' : CoinMigrator} {t : Trigger}

/-- What the round robin knows: the pages of the promotion channel that were migrated. -/
structure Tracks (c : SwapConfig) (d : MigratorConfig) (m : CoinMigrator) : Prop where
  victims : ∀ p ∈ m.victims, p.toNat < m.choices
  known : ∀ p, c.IsPosition p →
    ((m.decoder.migrationState (d.getAddressKey (c.victimLocation p))).isSome ↔ p ∈ m.victims)

section PowerOfTwo

variable (hg : c.PowerOfTwo method rankBits bankBits subarrayBits rowBits)
variable (hcoin : c.policy = .coin) (hd : d.Valid method)
include hg hcoin hd

/-- Different positions have different keys. -/
theorem victimKey_injective {p q : UInt64} (hp : c.IsPosition p) (hq : c.IsPosition q)
    (heq : d.getAddressKey (c.victimLocation p) = d.getAddressKey (c.victimLocation q)) :
    p = q := by
  rw [MigratorConfig.getAddressKey_eq, MigratorConfig.getAddressKey_eq] at heq
  exact hg.victimLocation_injective hcoin hp hq (hd.pageKey_injective
    (MigratorConfig.pageInRange_of_inRange (hg.inRange_victimLocation hcoin hp))
    (MigratorConfig.pageInRange_of_inRange (hg.inRange_victimLocation hcoin hq)) heq)

/-- The page to be promoted is none of the promotion channel. -/
theorem victimKey_ne_triggerKey (hconf : m.config = c) (hdec : m.decoder.config = d)
    (hch : m.Chooses t) {p : UInt64} (hp : c.IsPosition p) :
    d.getAddressKey (c.victimLocation p) ≠ d.getAddressKey (m.triggerAddress t).translated := by
  subst hconf hdec
  intro heq
  rw [MigratorConfig.getAddressKey_eq, MigratorConfig.getAddressKey_eq] at heq
  have hpage := hd.pageKey_injective
    (MigratorConfig.pageInRange_of_inRange (hg.inRange_victimLocation hcoin hp))
    (Migrator.pageInRange_baseTranslate hd _) heq
  have hposs := hch.2.1
  simp only [migrationPossible, Bool.and_eq_true, bne_iff_ne] at hposs
  exact hposs.2 (congrArg Prod.fst hpage).symm

/-- The page to be demoted is the one at the position of the round robin. -/
theorem key_victim (hconf : m.config = c) (hdec : m.decoder.config = d)
    (hpos : c.IsPosition m.promotionPage) {demotee : NVMAddress} (h : m.victim = some demotee) :
    d.getAddressKey (m.decoder.retranslate demotee).translated =
      d.getAddressKey (c.victimLocation m.promotionPage) := by
  subst hconf hdec
  obtain ⟨a, ha, hfix, hpage⟩ :=
    pageAddress_spec (m := m) hd (hg.inRange_victimLocation hcoin hpos)
  obtain rfl := Option.some.inj (h.symm.trans ha)
  rw [hfix, MigratorConfig.getAddressKey_eq, MigratorConfig.getAddressKey_eq, hpage]

omit hg hcoin hd in
theorem Tracks.frame (h : Tracks c d m) (hf : Frame m m') : Tracks c d m' where
  victims := by rw [hf.victims, hf.choices]; exact h.victims
  known p hp := by rw [hf.known, hf.victims]; exact h.known p hp

omit hd in
/-- The position of the round robin is the number of its choices, modulo the number of pages. -/
theorem toNat_promotionPage (h : Counted c d m) :
    m.promotionPage.toNat = m.choices % c.totalPromotionPages.toNat := by
  rw [h.position, SwapConfig.toNat_position_coin hcoin
    (SwapConfig.totalPromotionPages_pos hg.toPowersOfTwo)]

theorem Tracks.migrate (hinv : RunInv c d m) (hcounted : Counted c d m) (h : Tracks c d m)
    (hmig : m.Migrates t m') : Tracks c d m' := by
  obtain ⟨hch, -, promotee, demotee, hpair, rfl | hb⟩ := hmig
  · exact ⟨fun p hp => Nat.lt_succ_of_lt (h.victims p hp), h.known⟩
  · have hvictim := key_victim hg hcoin hd hinv.config hinv.decoder hinv.position hpair.demotee_eq
    refine ⟨?_, fun p hp => ?_⟩
    · rw [hb.victims, hb.choices]
      intro p hp
      rcases List.mem_cons.mp hp with rfl | hp
      · rw [toNat_promotionPage hg hcoin hcounted]
        exact Nat.lt_succ_of_le (Nat.mod_le _ _)
      · exact Nat.lt_succ_of_lt (h.victims p hp)
    · have hpages : (∃ s, d.getAddressKey (c.victimLocation p) =
          (m.chosen promotee (m.decoder.retranslate demotee)).key s) ↔ p = m.promotionPage := by
        obtain ⟨⟨rfl, rfl, -⟩, hpos⟩ := hinv
        constructor
        · rintro ⟨s, hs⟩
          cases s with
          | promotee =>
            exact absurd (hs.trans hpair.promotee_key)
              (victimKey_ne_triggerKey hg hcoin hd rfl rfl hch hp)
          | demotee => exact victimKey_injective hg hcoin hd hp hpos (hs.trans hvictim)
        · rintro rfl
          exact ⟨.demotee, hvictim.symm⟩
      rw [hb.known, hb.victims, hpages]
      exact (or_congr_right (h.known p hp)).trans List.mem_cons.symm

/-- **The step lemma.** -/
theorem Tracks.step (hinv : RunInv c d m) (hcounted : Counted c d m) (h : Tracks c d m)
    {a : Action} (hmove : m.Moves a m') : Tracks c d m' := by
  cases hmove with
  | skip | idle => exact h
  | migrate hmig => exact h.migrate hg hcoin hd hinv hcounted hmig
  | read id issued hsw hw hframe => exact h.frame hframe
  | finish id hsw hw hidle hframe => exact h.frame hframe
  | write id hsw hw hframe => exact h.frame hframe
  | retry issued hsw hsw' hw hframe => exact h.frame hframe

omit hg hcoin hd in
theorem tracks_init : Tracks c d (init c d) :=
  ⟨fun _ hp => (List.not_mem_nil hp).elim,
    fun _ _ => iff_of_false (by simp [init, Migrator.init]) List.not_mem_nil⟩

/-- **The run lemma.** -/
theorem tracks_of_run {as : List Action} (h : Run (Steps step) (init c d) as m) :
    RunInv c d m ∧ Counted c d m ∧ Tracks c d m := by
  have hc := hg.valid hcoin hd
  refine h.invariant (P := fun u => RunInv c d u ∧ Counted c d u ∧ Tracks c d u)
    ⟨runInv_init hc, counted_init c d, tracks_init⟩ fun u a u' ⟨hinv, hcounted, htr⟩ hstep => ?_
  have hmove := hinv.moves hc hstep
  exact ⟨hinv.step hc hmove, hcounted.of_step hstep, htr.step hg hcoin hd hinv hcounted hmove⟩

/-- Without a migration in progress the page to be demoted was migrated exactly if its
position led to a migration. -/
theorem Tracks.migrated_iff (hinv : RunInv c d m) (h : Tracks c d m) (hch : m.Chooses t) :
    m.DemoteeMigrated ↔ m.promotionPage ∈ m.victims := by
  have hc : m.config.Valid m.decoder.config method := by
    rw [hinv.config, hinv.decoder]
    exact hg.valid hcoin hd
  obtain ⟨demotee, hvictim, -⟩ := exists_victim hc (hinv.config ▸ hinv.position)
  have hkey := key_victim hg hcoin hd hinv.config hinv.decoder hinv.position hvictim
  rw [← h.known _ hinv.position, demoteeMigrated_iff hvictim, Migrator.isMigrated_fst,
    hinv.decoder, hkey]
  have hsettled := (hinv.idle_of_chooses hch).settled
    (d.getAddressKey (c.victimLocation m.promotionPage))
  rcases hsettled with hnone | ⟨hdone, hmap, -⟩
  · simp [Migrator.redirected, hnone]
  · simp [Migrator.redirected, hdone, hmap]

end PowerOfTwo

/-- **The pages chosen to leave.** Whenever a trigger of a run of `CoinMigrator` chooses
pages, no assertion fails if and only if the position of the round robin has not led to a
migration before. In particular none fails while the round robin is in its first turn. -/
theorem demotee_not_migrated_iff (c : SwapConfig) (d : MigratorConfig)
    (method : TranslationMethod) (rankBits bankBits subarrayBits rowBits : ℕ)
    (hg : c.PowerOfTwo method rankBits bankBits subarrayBits rowBits) (hcoin : c.policy = .coin)
    (hd : d.Valid method) (as : List Action) (m : CoinMigrator)
    (h : Run (Steps step) (init c d) as m) (t : Trigger) (hch : m.Chooses t) :
    ((m.step (.trigger t)).isSome ↔ ¬ m.DemoteeMigrated) ∧
      (¬ m.DemoteeMigrated ↔ m.promotionPage ∉ m.victims) ∧
      (m.choices < c.totalPromotionPages.toNat → ¬ m.DemoteeMigrated) := by
  obtain ⟨hinv, hcounted, htr⟩ := tracks_of_run hg hcoin hd h
  have hiff := htr.migrated_iff hg hcoin hd hinv hch
  refine ⟨?_, not_congr hiff, fun hlt => ?_⟩
  · have hc := hg.valid hcoin hd
    rw [← hinv.config, ← hinv.decoder] at hc
    rcases (hinv.idle_of_chooses hch).tryMigration hc (hinv.config ▸ hinv.position) hch with
      ⟨hmig, hnone⟩ | ⟨m', hm', -, -, hnew, -⟩
    · simp [step, hnone, hmig]
    · simp [step, hm', hnew]
  · rw [hiff]
    intro hmem
    have := htr.victims _ hmem
    rw [toNat_promotionPage hg hcoin hcounted, Nat.mod_eq_of_lt hlt] at this
    exact lt_irrefl _ this

theorem powerOfTwo_exampleSwap : (exampleSwap .coin 2).PowerOfTwo
    ⟨MemoryPartition.fields 1 0 0 0 1 0, MemoryPartition.fields 5 0 1 2 4 3⟩ 0 0 0 1 where
  ranks := rfl
  banks := rfl
  subarrays := (by decide : ((2 : UInt64) / 2).toNat = 2 ^ 0)
  rows := rfl
  rankBits_lt := by decide
  bankBits_lt := by decide
  subarrayBits_lt := by decide
  fits := by decide
  rank_le := by decide
  bank_le := by decide
  subarray_le := by decide
  row_le := by decide
  channel_lt := by decide

/-- The first page of the promotion channel was swapped for row 0 of channel 1; the second page
is chosen next, for row 1. -/
theorem demotee_not_migrated_iff_second : ∃ m, Run (Steps step) (init (exampleSwap .coin 2)
      Migrator.exampleConfig) [.trigger (exampleTrigger 64 true)] m ∧ m.victims = [0] ∧
      m.Chooses (exampleTrigger 192 true) ∧ ¬ m.DemoteeMigrated ∧
      (m.step (.trigger (exampleTrigger 192 true))).isSome := by
  refine exists_run_imp (fun m => (m.parseRequest (exampleTrigger 192 true) = true ∧
      m.migrationPossible (exampleTrigger 192 true) = true ∧
      m.toss (exampleTrigger 192 true) = true) ∧ m.victims = [0] ∧ m.promotionPage = 1)
    (by decide +kernel) fun m hrun ⟨hch, hvictims, hpage⟩ => ?_
  obtain ⟨hstep, hiff, -⟩ := demotee_not_migrated_iff _ _ _ 0 0 0 1 powerOfTwo_exampleSwap rfl
    Migrator.valid_exampleConfig _ m hrun _ hch
  have hnot : ¬ m.DemoteeMigrated := hiff.mpr (by rw [hvictims, hpage]; decide)
  exact ⟨hvictims, hch, hnot, hstep.mpr hnot⟩

/-- **The round robin comes around.** The promotion channel has one page, which is swapped
for row 0 of channel 1. A request for row 1 of channel 1, which was not migrated, then makes
the migrator choose the same page again, and its assertion fails. -/
theorem demotee_migrated : ∃ m, Run (Steps step) (init (exampleSwap .coin 1)
      Migrator.exampleConfig) [.trigger (exampleTrigger 64 true)] m ∧
      m.Chooses (exampleTrigger 192 true) ∧ m.DemoteeMigrated ∧
      m.step (.trigger (exampleTrigger 192 true)) = none := by
  refine exists_run_imp (fun m => (m.parseRequest (exampleTrigger 192 true) = true ∧
      m.migrationPossible (exampleTrigger 192 true) = true ∧
      m.toss (exampleTrigger 192 true) = true) ∧
    (m.victim.any fun demotee => (m.decoder.isMigrated demotee).1) = true ∧
    (m.step (.trigger (exampleTrigger 192 true))).isNone = true)
    (by decide +kernel) fun m _ hs => ?_
  obtain ⟨hch, hmig, hnone⟩ := hs
  exact ⟨hch, (Option.any_eq_true _ _).mp hmig, Option.isNone_iff_eq_none.mp hnone⟩

end CoinMigrator

end HybridMemory.NVMain

import HybridMemory.Lib.Transition
import HybridMemory.HybridSim.Contention

/-!
# The flag of the queue

`update` looks for a transaction to start only while `check_queue` is set, and clears the flag when
it has found none. What is then in the queue waits for a lock, or for `pending_pages` to get
shorter, so whatever releases a lock has to set the flag again.

* `Heeds`: a function either sets the flag, or leaves the queue and the locks alone, except that
  more pages may be locked. All callbacks of the memories are of this kind;
* `same_of_cheat`: a cheating prefetch, which is done in the middle of the scan, ends with the
  locks it began with, so what was skipped before it still has to wait;
* `queue_waits`: a transaction that could start never waits without the flag.
-/

namespace HybridMemory.HybridSim

open Transition

namespace HybridSystem

variable {σ : Type} {cfg : Config} {pf : Prefetcher σ} {s u v : HybridSystem σ} {t : Transaction}
  {a line : ℕ} {p : Pending}

/-- The loop of `update` would start the transaction. -/
def Startable (cfg : Config) (s : HybridSystem σ) (t : Transaction) : Prop :=
  s.pendingPages.keys.card < cfg.numSets ∧ s.contentionIsUnlocked cfg (cfg.align t.address) = true

/-- No lock is released and no transaction is queued. -/
structure Stays (s u : HybridSystem σ) : Prop where
  checkQueue : u.checkQueue = s.checkQueue
  active : u.activeTransaction = s.activeTransaction
  queue : u.transQueue = s.transQueue
  setCounter : u.setCounter = s.setCounter
  flashAddr : u.pendingFlashAddr = s.pendingFlashAddr
  pages : ∀ page, page ∈ s.pendingPages → page ∈ u.pendingPages

/-- The flag, the transactions and the locks. -/
def standing (s : HybridSystem σ) : Bool × Option Transaction × List Transaction ×
    (ℕ → ℕ) × Finset ℕ × Finmap fun _ : ℕ => ℕ :=
  (s.checkQueue, s.activeTransaction, s.transQueue, s.setCounter, s.pendingFlashAddr,
    s.pendingPages)

theorem stays_of_standing (h : u.standing = s.standing) : Stays s u := by
  simp only [standing, Prod.mk.injEq] at h
  obtain ⟨hcheck, hactive, hqueue, hset, hflash, hpages⟩ := h
  exact ⟨hcheck, hactive, hqueue, hset, hflash, fun _ hpage => hpages ▸ hpage⟩

theorem Stays.trans (h : Stays s u) (h' : Stays u v) : Stays s v where
  checkQueue := h'.checkQueue.trans h.checkQueue
  active := h'.active.trans h.active
  queue := h'.queue.trans h.queue
  setCounter := h'.setCounter.trans h.setCounter
  flashAddr := h'.flashAddr.trans h.flashAddr
  pages := fun page hpage => h'.pages page (h.pages page hpage)

/-- What could not start still cannot. -/
theorem Stays.startable (h : Stays s u) (hu : u.Startable cfg t) : s.Startable cfg t := by
  obtain ⟨hcard, hunlocked⟩ := hu
  have hkeys : s.pendingPages.keys ⊆ u.pendingPages.keys := fun page hpage =>
    Finmap.mem_keys.mpr (h.pages page (Finmap.mem_keys.mp hpage))
  simp only [contentionIsUnlocked, h.setCounter, h.flashAddr, decide_eq_true_eq] at hunlocked
  refine ⟨(Finset.card_le_card hkeys).trans_lt hcard, ?_⟩
  simp only [contentionIsUnlocked, decide_eq_true_eq]
  exact ⟨hunlocked.1, fun hpage => hunlocked.2.1 (h.pages _ hpage), hunlocked.2.2⟩

/-- The flag is set, unless no lock is released and no transaction is queued. -/
def Heeds (s u : HybridSystem σ) : Prop := u.checkQueue = true ∨ Stays s u

theorem Heeds.after (h : Heeds u v) (h' : Stays s u) : Heeds s v := h.imp_right h'.trans

theorem Heeds.stays (h : Heeds s u) (h' : Stays u v) : Heeds s v :=
  h.imp (fun hcheck => h'.checkQueue.trans hcheck) fun hs => hs.trans h'

/-- A flag that is set stays set. -/
theorem Heeds.awake (h : Heeds s u) (hs : s.checkQueue = true) : u.checkQueue = true :=
  h.elim id fun hu => hu.checkQueue.trans hs

/-! ### Completions -/

theorem heeds_contentionUnlock {victimValid lineValid : Bool} {victimPage : ℕ}
    (h : s.contentionUnlock cfg a victimValid victimPage lineValid line = some u) : Heeds s u := by
  rcases contentionUnlock_cases h with rfl | ⟨pages, rfl⟩
  · exact Or.inr (stays_of_standing rfl)
  · exact Or.inl rfl

theorem stays_contentionDecrement (s : HybridSystem σ) (cfg : Config) (a : ℕ) :
    Stays s (s.contentionDecrement cfg a) :=
  ⟨rfl, rfl, rfl, rfl, rfl, fun _ hpage => Finmap.mem_insert.mpr (Or.inr hpage)⟩

theorem heeds_victimReadFinish (h : s.victimReadFinish cfg a p = some u) : Heeds s u := by
  simp only [victimReadFinish] at h
  split at h
  · exact Or.inr (Option.some.inj h ▸ stays_of_standing rfl)
  · obtain ⟨v, hv, rfl⟩ := Option.map_eq_some_iff.mp h
    have hunlock := (heeds_contentionUnlock hv).after (stays_contentionDecrement _ _ _)
    refine (hunlock.after ?_).stays ?_ <;> exact stays_of_standing rfl

theorem heeds_cacheReadFinish (h : s.cacheReadFinish cfg p = some u) : Heeds s u := by
  refine (heeds_contentionUnlock h).after ?_
  split <;> exact stays_of_standing rfl

theorem heeds_cacheWriteFinish (h : s.cacheWriteFinish cfg p = some u) : Heeds s u := by
  refine (heeds_contentionUnlock h).after ?_
  split <;> exact stays_of_standing rfl

theorem heeds_lineReadFinish (h : s.lineReadFinish cfg a p = some u) : Heeds s u := by
  have hpages := (stays_contentionDecrement s cfg p.flashAddr).pages
  simp only [lineReadFinish] at h
  split at h
  · exact Or.inr (Option.some.inj h ▸ stays_of_standing rfl)
  · split at h
    · exact (heeds_cacheReadFinish h).after ⟨rfl, rfl, rfl, rfl, rfl, hpages⟩
    · exact (heeds_cacheWriteFinish h).after ⟨rfl, rfl, rfl, rfl, rfl, hpages⟩
    · exact (heeds_contentionUnlock h).after ⟨rfl, rfl, rfl, rfl, rfl, hpages⟩
    all_goals exact Or.inr (Option.some.inj h ▸ ⟨rfl, rfl, rfl, rfl, rfl, hpages⟩)

theorem heeds_dramReadCallback (h : s.dramReadCallback cfg a = some u) : Heeds s u := by
  simp only [dramReadCallback] at h
  split at h
  · contradiction
  · split at h
    · exact (heeds_victimReadFinish h).after (stays_of_standing rfl)
    · exact (heeds_cacheReadFinish h).after (stays_of_standing rfl)
    all_goals contradiction

theorem heeds_flashReadCallback (h : s.flashReadCallback cfg a = some u) : Heeds s u := by
  simp only [flashReadCallback] at h
  split at h
  · contradiction
  · split at h
    · exact (heeds_lineReadFinish h).after (stays_of_standing rfl)
    all_goals contradiction

theorem heeds_flashCriticalLineCallback (h : s.flashCriticalLineCallback cfg a = some u) :
    Heeds s u := by
  simp only [flashCriticalLineCallback] at h
  split at h
  · contradiction
  · obtain ⟨-, h⟩ := Option.ite_none_right_eq_some.mp h
    refine Or.inr (Option.some.inj h ▸ ?_)
    split <;> exact stays_of_standing rfl

/-! ### Processing a transaction -/

theorem checkQueue_handle {out : σ × List ℕ} (hs : s.checkQueue = true) :
    (s.handle out).checkQueue = true :=
  handle_induction (P := fun u => u.checkQueue = true) (fun _ _ _ => rfl) hs

/-- A queued `SYNC` or counter sets the flag. -/
theorem checkQueue_syncAllCounter (hs : s.checkQueue = true)
    (h : s.syncAllCounter cfg a = some u) : u.checkQueue = true := by
  refine (heeds_contentionUnlock h).awake ?_
  have hcounter : ∀ v : HybridSystem σ, v.checkQueue = true →
      (v.syncLine cfg a).checkQueue = true := by
    intro v hv
    simp only [syncLine]
    split
    · rfl
    · exact hv
  refine hcounter _ ?_
  split
  · rfl
  · exact hs

theorem checkQueue_processHit (hs : s.checkQueue = true)
    (h : s.processHit cfg pf t a line = some u) : u.checkQueue = true := by
  simp only [processHit] at h
  have hhandled : ∀ out, ((s.contentionCacheLineLock cfg line).handle out).checkQueue = true :=
    fun out => checkQueue_handle hs
  split at h
  · obtain ⟨-, ⟨⟩⟩ := Option.ite_none_right_eq_some.mp h
    exact hhandled _
  · exact (heeds_cacheWriteFinish h).awake (hhandled _)
  · exact (heeds_contentionUnlock h).awake hs
  · exact (heeds_contentionUnlock h).awake hs
  · obtain ⟨-, h⟩ := Option.ite_none_right_eq_some.mp h
    obtain ⟨v, hv, rfl⟩ := Option.map_eq_some_iff.mp h
    obtain ⟨-, ⟨⟩⟩ := Option.ite_none_left_eq_some.mp hv
    exact hs
  · contradiction

theorem checkQueue_replace (h : s.replace cfg t a line = some u) :
    u.checkQueue = s.checkQueue := by
  simp only [replace] at h
  split at h
  · obtain ⟨-, ⟨⟩⟩ := Option.ite_none_left_eq_some.mp h
    simp only [lineRead, contentionIncrement, contentionCacheLineLock]
    split <;> rfl
  · obtain rfl := Option.some.inj h
    simp only [lineRead, contentionIncrement, contentionCacheLineLock]
    split <;> rfl

theorem checkQueue_countVictim (l : CacheLine) : (s.countVictim l).checkQueue = s.checkQueue := by
  rw [countVictim]
  split <;> rfl

theorem checkQueue_evict (h : s.evict cfg t a = some u) (hs : s.checkQueue = true) :
    u.checkQueue = true := by
  simp only [evict] at h
  split at h
  · exact (heeds_contentionUnlock h).awake ((checkQueue_countVictim _).trans hs)
  · exact (checkQueue_replace h).trans ((checkQueue_countVictim _).trans hs)

/-- A flag that is set stays set while a transaction is processed. -/
theorem checkQueue_processTransaction (hs : s.checkQueue = true)
    (h : s.processTransaction cfg pf t = some u) : u.checkQueue = true := by
  simp only [processTransaction] at h
  split_ifs at h
  · exact checkQueue_syncAllCounter hs h
  · split at h
    · exact checkQueue_processHit hs h
    · simp only [processMiss] at h
      split at h
      · exact (heeds_contentionUnlock h).awake hs
      · contradiction
      · exact checkQueue_evict h hs
      all_goals exact checkQueue_evict h (checkQueue_handle hs)

/-! ### Cheating prefetches -/

section Cheat

variable {rest : List Transaction} (hpage : cfg.pageAddress (cfg.align t.address) ∉ s.pendingPages)
  (hflash : cfg.align t.address ∉ s.pendingFlashAddr)

include hpage hflash in
/-- A prefetch that hits locks its line for a moment. -/
theorem standing_of_prefetchHit {page : ℕ}
    (h : (((s.activate cfg t rest).contentionCacheLineLock cfg line).record
      (.hits page)).contentionUnlock cfg (cfg.align t.address) false 0 true line = some u) :
    { u with activeTransaction := none }.standing =
      (true, none, rest, s.setCounter, s.pendingFlashAddr, s.pendingPages) := by
  obtain rfl := eq_release h hpage
  simp [standing, release, record, contentionCacheLineUnlock, contentionCacheLineLock, activate,
    contentionLock, decrement, hflash]

include hpage hflash in
/-- A cheating prefetch that misses locks its page for a moment. -/
theorem standing_of_cheat
    (hv : v.standing =
      ((s.activate cfg t rest).contentionPageLock cfg (cfg.align t.address)).standing)
    (h : v.cheat cfg (cfg.align t.address) line = some u) :
    { u with activeTransaction := none }.standing =
      (true, none, rest, s.setCounter, s.pendingFlashAddr, s.pendingPages) := by
  simp only [standing, Prod.mk.injEq] at hv
  obtain ⟨-, -, hqueue, hset, hheld, hpages⟩ := hv
  have hentries : v.pendingPages.entries = ⟨cfg.pageAddress (cfg.align t.address), 0⟩ ::ₘ
      ((if false then {⟨0, 0⟩} else 0) + s.pendingPages.entries) := by
    rw [hpages, if_neg Bool.false_ne_true, zero_add]
    exact Registry.entries_insert_of_eq hpage rfl
  obtain ⟨pages, hpages, rfl⟩ := exists_eq_release h hentries
  obtain rfl := Finmap.ext hpages
  simp [standing, release, record, hqueue, hset, hheld, contentionPageLock, activate,
    contentionLock, hflash]

include hpage hflash in
/-- A cheating prefetch releases what it locks. -/
theorem standing_of_cheating (htype : t.transactionType = .prefetch)
    (hcheat : s.prefetchCheatMap (cfg.pageAddress (cfg.align t.address)) ≠ 0)
    (h : (s.activate cfg t rest).processTransaction cfg pf t = some u) :
    { u with activeTransaction := none }.standing =
      (true, none, rest, s.setCounter, s.pendingFlashAddr, s.pendingPages) := by
  simp only [processTransaction, htype, reduceCtorEq, if_false] at h
  split at h
  · contradiction
  · split at h
    · simp only [processHit, htype] at h
      exact standing_of_prefetchHit hpage hflash h
    · simp only [processMiss, htype, evict] at h
      rw [if_pos ⟨trivial, hcheat⟩] at h
      refine standing_of_cheat hpage hflash ?_ h
      rw [countVictim]
      split <;> rfl

end Cheat

/-! ### The scan -/

/-- What was skipped has to wait, as far as the locks are concerned. -/
def Waits (cfg : Config) (s : HybridSystem σ) (t : Transaction) : Prop :=
  s.contentionIsUnlocked cfg (cfg.align t.address) = false

/-- A scan starts a transaction, or none in the queue can be started. -/
theorem scan_spec {skipped rest : List Transaction} {sent : Bool} (hs : s.checkQueue = true)
    (hdelay : s.delayCounter = 0) (hactive : s.activeTransaction = none)
    (hqueue : s.transQueue = skipped ++ rest) (hskipped : ∀ t ∈ skipped, s.Waits cfg t)
    (h : scan cfg pf skipped rest s = some (u, sent)) :
    sent = true ∧ u.checkQueue = true ∨
      sent = false ∧ u.activeTransaction = none ∧ ∀ t ∈ u.transQueue, ¬ u.Startable cfg t := by
  induction rest generalizing skipped s with
  | nil =>
    obtain ⟨rfl, rfl⟩ := Prod.mk.inj (Option.some.inj h)
    rw [List.append_nil] at hqueue
    refine Or.inr ⟨rfl, hactive, fun t ht hstart => ?_⟩
    exact Bool.false_ne_true ((hskipped t (hqueue ▸ ht)).symm.trans hstart.2)
  | cons t rest ih =>
    simp only [scan] at h
    split_ifs at h with hguard hunlocked hcheat
    · -- a cheating prefetch leaves the locks as they were
      obtain ⟨v, hv, h⟩ := Option.bind_eq_some_iff.mp h
      obtain ⟨-, hpage, hflash⟩ := of_decide_eq_true hunlocked
      have hstanding := standing_of_cheating hpage hflash hcheat.1 hcheat.2 hv
      simp only [standing, Prod.mk.injEq] at hstanding
      obtain ⟨hcheck, -, hrest, hset, hheld, hpages⟩ := hstanding
      refine ih (s := { v with activeTransaction := none, delayCounter := 0 }) hcheck rfl rfl hrest
        (fun t' ht' => ?_) h
      have hwaits := hskipped t' ht'
      rw [Waits, contentionIsUnlocked] at hwaits ⊢
      rw [hset, hheld, hpages]
      exact hwaits
    · obtain ⟨rfl, rfl⟩ := Prod.mk.inj (Option.some.inj h)
      exact Or.inl ⟨rfl, hs⟩
    · refine ih hs hdelay hactive (by simp [hqueue]) ?_ h
      rintro t' ht'
      rcases List.mem_append.mp ht' with ht' | ht'
      · exact hskipped t' ht'
      · rw [List.mem_singleton.mp ht']
        exact Bool.eq_false_of_not_eq_true hunlocked
    · obtain ⟨rfl, rfl⟩ := Prod.mk.inj (Option.some.inj h)
      exact Or.inr ⟨rfl, hactive, fun t _ hstart => hguard ⟨hstart.1, hs, hdelay⟩⟩

/-! ### Cycles -/

section Cycles

variable {P : HybridSystem σ → Prop}
  (hprocess : ∀ v t w, P v → v.activeTransaction = some t →
    v = s ∧ s.delayCounter = 0 ∨ t.transactionType = .prefetch →
    v.processTransaction cfg pf t = some w → P { w with activeTransaction := none })
  (hactivate : ∀ v t rest, P v → v.activeTransaction = none → v.transQueue.Perm (t :: rest) →
    v.contentionIsUnlocked cfg (cfg.align t.address) = true → P (v.activate cfg t rest))
  (hframe : ∀ v checkQueue delayCounter dramQueue dramInFlight flashQueue flashInFlight, P v →
    P { v with checkQueue, delayCounter, dramQueue, dramInFlight, flashQueue, flashInFlight })

include hprocess hactivate hframe in
/-- The loop over the queue processes cheating prefetches, and may start a transaction. -/
theorem scan_induction {skipped rest : List Transaction} {sent : Bool} (hv : P v)
    (hactive : v.activeTransaction = none) (hqueue : v.transQueue = skipped ++ rest)
    (h : scan cfg pf skipped rest v = some (u, sent)) : P u := by
  induction rest generalizing skipped v with
  | nil =>
    obtain ⟨rfl, -⟩ := Prod.mk.inj (Option.some.inj h)
    exact hv
  | cons t rest ih =>
    have hperm : v.transQueue.Perm (t :: (skipped ++ rest)) := hqueue ▸ List.perm_middle
    simp only [scan] at h
    split_ifs at h with hguard hunlocked hcheat
    · obtain ⟨w, hw, h⟩ := Option.bind_eq_some_iff.mp h
      obtain ⟨-, hpage, hflash⟩ := of_decide_eq_true hunlocked
      have hstanding := standing_of_cheating hpage hflash hcheat.1 hcheat.2 hw
      simp only [standing, Prod.mk.injEq] at hstanding
      have hdone := hprocess _ t w (hactivate v t _ hv hactive hperm hunlocked) rfl
        (.inr hcheat.1) hw
      exact ih (v := { w with activeTransaction := none, delayCounter := 0 })
        (hframe _ w.checkQueue 0 _ _ _ _ hdone) rfl hstanding.2.2.1 h
    · obtain ⟨rfl, -⟩ := Prod.mk.inj (Option.some.inj h)
      exact hactivate v t _ hv hactive hperm hunlocked
    · exact ih hv hactive (by simp [hqueue]) h
    · obtain ⟨rfl, -⟩ := Prod.mk.inj (Option.some.inj h)
      exact hv

include hprocess hactivate hframe in
/-- **Cycles.** A cycle keeps what is kept when a transaction is processed, when one becomes active,
and by all that does not concern transactions. -/
theorem update_induction {dramAccepts flashAccepts : Bool} (hs : P s)
    (h : s.update cfg pf dramAccepts flashAccepts = some u) : P u := by
  obtain ⟨v, hv, h⟩ := Option.bind_eq_some_iff.mp h
  obtain ⟨⟨w, sent⟩, hscan, rfl⟩ := Option.map_eq_some_iff.mp h
  have hprocessed : P v ∧ (v.delayCounter = 0 → v.activeTransaction = none) := by
    rcases processActive_cases hv with ⟨rfl, hactive⟩ | ⟨t, v, hdelay, ht, hprocessed, rfl⟩
    · exact ⟨hs, hactive⟩
    · exact ⟨hprocess s t v hs ht (.inl ⟨rfl, hdelay⟩) hprocessed, fun _ => rfl⟩
  have hscanned : P w := by
    by_cases hidle : v.checkQueue = true ∧ v.delayCounter = 0
    · exact scan_induction hprocess hactivate hframe hprocessed.1 (hprocessed.2 hidle.2) rfl hscan
    · rw [scan_of_idle hidle] at hscan
      obtain ⟨rfl, -⟩ := Prod.mk.inj (Option.some.inj hscan)
      exact hprocessed.1
  obtain ⟨_, _, _, _, _, _, heq⟩ := finishUpdate_eq w sent dramAccepts flashAccepts
  exact heq ▸ hframe w _ _ _ _ _ _ hscanned

end Cycles

/-! ### Runs -/

/-- Without the flag, no transaction is active and none can be started. -/
def Wakeful (cfg : Config) (s : HybridSystem σ) : Prop :=
  s.checkQueue = false → s.activeTransaction = none ∧ ∀ t ∈ s.transQueue, ¬ s.Startable cfg t

theorem wakeful_of_checkQueue (h : s.checkQueue = true) : s.Wakeful cfg :=
  fun hs => absurd (h.symm.trans hs) Bool.false_ne_true.symm

theorem Wakeful.heeds (hs : s.Wakeful cfg) (h : Heeds s u) : u.Wakeful cfg := by
  rcases h with hcheck | hstays
  · exact wakeful_of_checkQueue hcheck
  · intro hu
    obtain ⟨hactive, hqueue⟩ := hs (hstays.checkQueue.symm.trans hu)
    refine ⟨hstays.active.trans hactive, fun t ht hstart => ?_⟩
    exact hqueue t (hstays.queue ▸ ht) (hstays.startable hstart)

/-- The accesses that are sent do not matter. -/
theorem stays_send (s : HybridSystem σ) (dramAccepts flashAccepts : Bool) :
    Stays s ((s.sendDram dramAccepts).sendFlash flashAccepts) := by
  obtain ⟨dramQueue, dramInFlight, flashQueue, flashInFlight, heq⟩ :=
    send_eq s dramAccepts flashAccepts
  exact heq ▸ stays_of_standing rfl

/-- The end of a cycle in which no transaction was started. -/
theorem wakeful_finishUpdate {sent dramAccepts flashAccepts : Bool} (hs : s.Wakeful cfg)
    (hidle : sent = false → s.delayCounter = 0 →
      s.activeTransaction = none ∧ ∀ t ∈ s.transQueue, ¬ s.Startable cfg t) :
    (s.finishUpdate sent dramAccepts flashAccepts).Wakeful cfg := by
  rw [finishUpdate]
  split_ifs with hclear
  · have hcleared : Wakeful cfg { s with checkQueue := false } := fun _ => hidle hclear.1 hclear.2
    exact (hcleared.heeds (Or.inr (stays_send _ _ _))).heeds (Or.inr (stays_of_standing rfl))
  · exact (hs.heeds (Or.inr (stays_send _ _ _))).heeds (Or.inr (stays_of_standing rfl))

/-- The active transaction is processed only while the flag is set. -/
theorem Wakeful.processActive (hs : s.Wakeful cfg) (h : s.processActive cfg pf = some u) :
    u.Wakeful cfg ∧ (u.delayCounter = 0 → u.activeTransaction = none) := by
  rcases processActive_cases h with ⟨rfl, hactive⟩ | ⟨t, v, -, ht, hv, rfl⟩
  · exact ⟨hs, hactive⟩
  · have hcheck : s.checkQueue = true := by
      by_contra hno
      exact Option.some_ne_none t (ht.symm.trans (hs (Bool.eq_false_of_not_eq_true hno)).1)
    have hcheck' := checkQueue_processTransaction hcheck hv
    exact ⟨wakeful_of_checkQueue hcheck', fun _ => rfl⟩

theorem Wakeful.update {dramAccepts flashAccepts : Bool} (hs : s.Wakeful cfg)
    (h : s.update cfg pf dramAccepts flashAccepts = some u) : u.Wakeful cfg := by
  obtain ⟨v, hv, h⟩ := Option.bind_eq_some_iff.mp h
  obtain ⟨⟨w, sent⟩, hscan, rfl⟩ := Option.map_eq_some_iff.mp h
  obtain ⟨hwakeful, hactive⟩ := hs.processActive hv
  by_cases hidle : v.checkQueue = true ∧ v.delayCounter = 0
  · rcases scan_spec hidle.1 hidle.2 (hactive hidle.2) rfl (by simp) hscan with
      ⟨rfl, hcheck⟩ | ⟨rfl, hnone⟩
    · exact wakeful_finishUpdate (wakeful_of_checkQueue hcheck) (by simp)
    · exact wakeful_finishUpdate (fun _ => hnone) fun _ _ => hnone
  · rw [scan_of_idle hidle] at hscan
    obtain ⟨rfl, rfl⟩ := Prod.mk.inj (Option.some.inj hscan)
    refine wakeful_finishUpdate hwakeful fun _ hdelay => hwakeful ?_
    exact Bool.eq_false_of_not_eq_true fun hcheck => hidle ⟨hcheck, hdelay⟩

theorem checkQueue_prefetchRange {base pages : ℕ} {cheat : Bool} :
    (prefetchRange cfg base (pages + 1) cheat s).checkQueue = true := by
  rw [prefetchRange, List.range_succ, List.foldl_append, List.foldl_cons, List.foldl_nil]
  dsimp only
  split <;> rfl

/-- A step sets the flag if it may let a waiting transaction start. -/
theorem Wakeful.next {action : Action} (hs : s.Wakeful cfg)
    (h : s.next cfg pf action = some u) : u.Wakeful cfg := by
  obtain ⟨-, h⟩ := Option.ite_none_right_eq_some.mp h
  cases action with
  | addTransaction isWrite addr =>
    obtain rfl := Option.some.inj h
    rw [addTransaction]
    split_ifs
    · exact hs.heeds (Or.inr (stays_of_standing rfl))
    · exact wakeful_of_checkQueue rfl
  | addPrefetch addr => exact Option.some.inj h ▸ wakeful_of_checkQueue rfl
  | addFlush addr => exact Option.some.inj h ▸ wakeful_of_checkQueue rfl
  | mmio operation address =>
    simp only [perform, mmio] at h
    split at h
    · exact Option.some.inj h ▸ hs
    · exact Option.some.inj h ▸ hs
    · exact Option.some.inj h ▸ wakeful_of_checkQueue rfl
    · exact Option.some.inj h ▸ wakeful_of_checkQueue checkQueue_prefetchRange
    · exact Option.some.inj h ▸ wakeful_of_checkQueue checkQueue_prefetchRange
    · contradiction
  | update dramAccepts flashAccepts => exact hs.update h
  | step => exact hs.heeds (Or.inr (Option.some.inj h ▸ stays_of_standing rfl))
  | dramReadCallback addr =>
    exact hs.heeds ((heeds_dramReadCallback h).after (stays_of_standing rfl))
  | dramWriteCallback addr => exact hs.heeds (Or.inr (Option.some.inj h ▸ stays_of_standing rfl))
  | flashReadCallback addr critical =>
    exact hs.heeds ((heeds_flashReadCallback h).after (stays_of_standing rfl))
  | flashCriticalLineCallback addr =>
    exact hs.heeds ((heeds_flashCriticalLineCallback h).after (stays_of_standing rfl))
  | flashWriteCallback addr => exact hs.heeds (Or.inr (Option.some.inj h ▸ stays_of_standing rfl))

/-- A transaction that could be started does not wait without the flag: if `check_queue` is false,
then no transaction is active, and each one in the queue is refused by `contention_is_unlocked`,
or `pending_pages` is full. -/
theorem queue_waits (cfg : Config) (pf : Prefetcher σ) (cache : ℕ → CacheLine) (prefetcher : σ)
    (actions : List Action) (s : HybridSystem σ)
    (h : Run (Steps (next cfg pf)) (init cache prefetcher) actions s)
    (hcheck : s.checkQueue = false) :
    s.activeTransaction = none ∧ ∀ t ∈ s.transQueue,
      s.contentionIsUnlocked cfg (cfg.align t.address) = false ∨
        cfg.numSets ≤ s.pendingPages.keys.card := by
  have hwakeful : s.Wakeful cfg :=
    h.invariant (wakeful_of_checkQueue rfl) fun _ _ _ hs hstep => hs.next hstep
  obtain ⟨hactive, hqueue⟩ := hwakeful hcheck
  refine ⟨hactive, fun t ht => ?_⟩
  by_contra hnot
  rw [not_or, Bool.not_eq_false, Nat.not_le] at hnot
  exact hqueue t ht ⟨hnot.2, hnot.1⟩

/-- A page is being read from flash when it is read again. -/
theorem queue_waits_secondRead :
    ∃ s, Run (Steps smallNext) smallInit
        [.addTransaction false 768, .update true true, .update true true,
          .addTransaction false 768, .update true true] s ∧
      s.checkQueue = false ∧ s.transQueue.length = 1 ∧
      s.activeTransaction = none ∧ ∀ t ∈ s.transQueue,
        s.contentionIsUnlocked smallCache (smallCache.align t.address) = false ∨
          smallCache.numSets ≤ s.pendingPages.keys.card :=
  exists_run_imp (fun s => s.checkQueue = false ∧ s.transQueue.length = 1) (by decide +kernel)
    fun s hrun hs => ⟨hs.1, hs.2, queue_waits _ _ _ _ _ s hrun hs.1⟩

end HybridSystem

end HybridMemory.HybridSim

import HybridMemory.HybridSim.PrefetchLedger

/-!
# Accounts of prefetches

Two accounts that the controller keeps of prefetches, checked against what happens to them.

* `prefetchCheatMap_iff`: `prefetch_cheat_map` has the prefetches that wait as long as they are
  named by the addresses of their pages and miss. A prefetch that hits leaves its entry behind, and
  an address that is not that of a page has an entry that is never found;
* `unusedPrefetches_eq`: without `SYNC_ALL` the counters are right. With it, a line that is being
  filled may be evicted once more, and a prefetch is counted as a victim twice.
-/

namespace HybridMemory.HybridSim

open HybridSystem Transition Function

variable {σ : Type} {cfg : Config} {pf : Prefetcher σ} {s u : HybridSystem σ} {b b' : Ledger}
  {page line : ℕ} {asked : Set ℕ} {safe : Prop}

/-! ### Cheating prefetches -/

/-- The number of prefetches of a page that are active, or in the queue. -/
def Ledger.waiting (cfg : Config) (b : Ledger) (page : ℕ) : ℕ :=
  (b.active.toList ++ b.queue).countP fun t =>
    t.transactionType = .prefetch ∧ cfg.prefetchedPage t.address = page

/-- The map has the prefetches of a page that wait, and those that hit since there were `hits`. -/
structure Ledger.Balanced (cfg : Config) (page hits : ℕ) (b : Ledger) : Prop where
  balance : b.cheatMap page + hits = b.waiting cfg page + b.events.count (.hits page)
  hits_le : hits ≤ b.events.count (.hits page)

namespace Ledger

variable {addr hits : ℕ}

/-- The active transaction waits if it is a prefetch of the page. -/
theorem Prefetches.waiting_eq (h : b.Prefetches addr) : b.waiting cfg page =
    waiting cfg { b with active := none } page +
      if cfg.prefetchedPage addr = page then 1 else 0 := by
  rw [waiting, h, waiting, List.countP_append, Nat.add_comm]
  simp [List.countP_cons]

theorem waiting_done (h : ∀ addr, b.Prefetches addr → cfg.prefetchedPage addr ≠ page) :
    waiting cfg { b with active := none } page = b.waiting cfg page := by
  rw [waiting, waiting, List.countP_append, List.countP_append]
  congr 1
  refine (List.countP_eq_zero.mpr fun t ht => ?_).symm
  rw [decide_eq_true_eq]
  rintro ⟨htype, hpage⟩
  refine h t.address ?_ hpage
  rw [Prefetches, Option.mem_toList.mp ht, ← htype]

theorem Balanced.change (h : b.Balanced cfg page hits)
    (hasked : ∀ a ∈ asked, cfg.prefetchedPage a ≠ page) (hchange : Change cfg asked safe b b') :
    b'.Balanced cfg page hits := by
  have hrecord : ∀ e : Event, (∀ p, e ≠ .hits p) →
      (e :: b.events).count (.hits page) = b.events.count (.hits page) :=
    fun e he => List.count_cons_of_ne (he page)
  cases hchange with
  | record e he =>
    have hcount := hrecord e fun p hp => by simp [hp, Event.isQuiet] at he
    exact ⟨h.balance.trans (by rw [hcount]; rfl), h.hits_le.trans hcount.ge⟩
  | push t queue ht hqueue =>
    refine ⟨h.balance.trans ?_, h.hits_le⟩
    rw [waiting, waiting, List.countP_append, List.countP_append, hqueue.countP_eq,
      List.countP_cons_of_neg]
    simpa using fun htype => hasked _ (ht htype)
  | use line hline => exact ⟨h.balance, h.hits_le⟩
  | miss line e filling he hline =>
    exact ⟨h.balance.trans (by rw [retire, hrecord e he]; rfl), h.hits_le.trans (hrecord e he).ge⟩
  | fill line page' prefetch rest hline =>
    have hcount := hrecord (.fills page') (by simp)
    exact ⟨h.balance.trans (by rw [fill, hcount]; rfl), h.hits_le.trans hcount.ge⟩

/-- A prefetch that misses cheats: it waits, so the map has an entry for it. -/
theorem Balanced.step (h : b.Balanced cfg page hits)
    (hasked : ∀ a ∈ asked, cfg.prefetchedPage a ≠ page) (hstep : Step cfg asked safe b b') :
    b'.Balanced cfg page hits := by
  have hbalance := h.balance
  have hle := h.hits_le
  cases hstep with
  | change hchange => exact h.change hasked hchange
  | activate t rest hnone hqueue =>
    refine ⟨hbalance.trans ?_, hle⟩
    rw [waiting, hnone, waiting, Option.toList_none, List.nil_append, hqueue.countP_eq]
    rfl
  | done hmap =>
    refine ⟨hbalance.trans ?_, hle⟩
    rw [waiting_done]
    rintro addr hactive rfl
    have hzero := hmap addr hactive
    rw [hactive.waiting_eq, if_pos rfl] at hbalance
    omega
  | hit addr hactive =>
    rw [hactive.waiting_eq] at hbalance
    have hcount : (Event.hits (cfg.prefetchedPage addr) :: b.events).count (.hits page) =
        b.events.count (.hits page) + if cfg.prefetchedPage addr = page then 1 else 0 := by
      simp [List.count_cons]
    refine ⟨?_, ?_⟩
    · rw [hcount]
      exact hbalance.trans ((Nat.add_assoc _ _ _).trans (congrArg _ (Nat.add_comm _ _)))
    · rw [hcount]
      omega
  | cheat addr line e hactive he hmap hline =>
    rw [hactive.waiting_eq] at hbalance
    have hcount : (Event.fills (cfg.prefetchedPage addr) :: e :: b.events).count (.hits page) =
        b.events.count (.hits page) := by
      rw [List.count_cons_of_ne (by simp), List.count_cons_of_ne (he page)]
    refine ⟨?_, hle.trans hcount.ge⟩
    simp only [fill, retire, hcount]
    change _ = waiting cfg { b with active := none } page + _
    by_cases hpage : cfg.prefetchedPage addr = page
    · subst hpage
      simp only [update_self, if_true] at hbalance ⊢
      omega
    · rw [update_of_ne (Ne.symm hpage)]
      rwa [if_neg hpage] at hbalance

/-- What the cheating prefetches of some addresses enter in the map and in the queue. -/
theorem foldl_enter (cfg : Config) (page : ℕ) (b : Ledger) (addresses : List ℕ) :
    (addresses.foldl enter b).cheatMap page = b.cheatMap page + addresses.count page ∧
      (addresses.foldl enter b).waiting cfg page =
        b.waiting cfg page + addresses.countP (cfg.prefetchedPage · = page) ∧
      (addresses.foldl enter b).events = b.events := by
  induction addresses generalizing b with
  | nil => exact ⟨rfl, rfl, rfl⟩
  | cons addr addresses ih =>
    obtain ⟨hmap, hwaiting, hevents⟩ := ih (b.enter addr)
    refine ⟨hmap.trans ?_, hwaiting.trans ?_, hevents⟩
    · by_cases hpage : page = addr
      · subst hpage
        simp [enter]
        omega
      · simp [enter, update_of_ne hpage, Ne.symm hpage]
    · simp only [waiting, enter, List.countP_append, List.countP_cons, true_and]
      omega

/-- A page that is not entered in the map has no entry. -/
theorem Step.cheatMap_eq_zero (h : Step cfg asked safe b b') (hzero : b.cheatMap page = 0) :
    b'.cheatMap page = 0 := by
  cases h with
  | change hchange => cases hchange <;> exact hzero
  | cheat addr line e hactive he hmap hline =>
    have hne : page ≠ cfg.prefetchedPage addr := fun heq => hmap (heq ▸ hzero)
    exact (update_of_ne hne _ _).trans hzero
  | activate | done | hit => exact hzero

end Ledger

/-- The addresses of the page are its own address if they are counted as such. -/
theorem count_eq_countP_iff (hpage : cfg.prefetchedPage page = page) {addresses : List ℕ} :
    addresses.count page = addresses.countP (cfg.prefetchedPage · = page) ↔
      ∀ a ∈ addresses, cfg.prefetchedPage a = page → a = page := by
  induction addresses with
  | nil => simp
  | cons a addresses ih =>
    have hle : addresses.count page ≤ addresses.countP (cfg.prefetchedPage · = page) :=
      List.countP_mono_left fun x _ hx => by simpa [beq_iff_eq.mp hx] using hpage
    rw [List.forall_mem_cons, ← ih, List.count_cons, List.countP_cons]
    by_cases ha : a = page
    · subst ha
      simp [hpage]
    · by_cases hprefetched : cfg.prefetchedPage a = page
      · simp [ha, hprefetched]
        omega
      · simp [ha, hprefetched]

namespace HybridSystem

/-- A step enters a page in the map by its own address only, and no prefetch of it hits. -/
def CheatsMiss (cfg : Config) (pf : Prefetcher σ) (page : ℕ) (s : HybridSystem σ) (a : Action) :
    Prop :=
  (∀ addr ∈ a.cheating cfg, cfg.prefetchedPage addr = page → addr = page) ∧
    ∀ u ∈ s.next cfg pf a, u.events.count (.hits page) = s.events.count (.hits page)

instance (s : HybridSystem σ) (a : Action) : Decidable (CheatsMiss cfg pf page s a) :=
  inferInstanceAs (Decidable (_ ∧ _))

/-- One step, without other prefetches of the page. -/
theorem cheatMap_eq_iff (hpage : cfg.prefetchedPage page = page) {a : Action}
    (h : s.next cfg pf a = some u)
    (hordinary : ∀ addr ∈ s.ordinary cfg pf a, cfg.prefetchedPage addr ≠ page)
    (hs : s.prefetchCheatMap page = s.ledger.waiting cfg page) :
    u.prefetchCheatMap page = u.ledger.waiting cfg page ↔ CheatsMiss cfg pf page s a := by
  rw [CheatsMiss, h]
  simp only [Option.mem_def, Option.some.injEq, forall_eq']
  by_cases hcheating : a.cheating cfg = []
  · have hturns := Turns.next h hcheating False.elim
    have hbalanced := invariant_of_reflTransGen
      (P := Ledger.Balanced cfg page (s.events.count (.hits page)))
      (fun _ _ hb hstep => hb.step hordinary hstep) hturns ⟨by rw [← hs]; rfl, le_rfl⟩
    have hbalance : u.prefetchCheatMap page + s.events.count (.hits page) =
      u.ledger.waiting cfg page + u.events.count (.hits page) := hbalanced.balance
    rw [hcheating]
    simp only [List.not_mem_nil, false_imp_iff, implies_true, true_and]
    omega
  · have hledger := ledger_of_cheating h hcheating
    obtain ⟨hmap, hwaiting, hevents⟩ := Ledger.foldl_enter cfg page s.ledger
      (a.cheating cfg)
    rw [← hledger] at hmap hwaiting hevents
    have hsame : u.events = s.events := hevents
    have hentries : u.prefetchCheatMap page = s.prefetchCheatMap page + _ := hmap
    rw [hsame, hentries, hwaiting, hs, Nat.add_left_cancel_iff, count_eq_countP_iff hpage]
    exact (and_iff_left rfl).symm

/-- **Cheating prefetches.** A page that `mmio` 4 never names has no entry in
`prefetch_cheat_map`. In a run without other prefetches of a page, the map always has as many
entries for the page as prefetches of it are in the queue or active, precisely if `mmio` 4 names
the page by its own address only, and no prefetch of it hits. -/
theorem prefetchCheatMap_iff (cfg : Config) (pf : Prefetcher σ) (cache : ℕ → CacheLine)
    (prefetcher : σ) (actions : List Action) (s : HybridSystem σ)
    (h : Run (Steps (next cfg pf)) (init cache prefetcher) actions s) (page : ℕ) :
    ((∀ a ∈ actions, page ∉ a.cheating cfg) → s.prefetchCheatMap page = 0) ∧
      (cfg.prefetchedPage page = page →
        Run (Guarded (fun s a => ∀ addr ∈ s.ordinary cfg pf a, cfg.prefetchedPage addr ≠ page)
          (Steps (next cfg pf))) (init cache prefetcher) actions s →
        ((∀ u, Visits (Steps (next cfg pf)) (init cache prefetcher) actions u →
            u.prefetchCheatMap page = u.ledger.waiting cfg page) ↔
          Run (Guarded (CheatsMiss cfg pf page) (Steps (next cfg pf))) (init cache prefetcher)
            actions s)) := by
  refine ⟨fun hnever => ?_, fun hpage hrun => ?_⟩
  · refine (run_guarded_iff_forall.mpr ⟨h, hnever⟩).invariant
      (P := fun s => s.prefetchCheatMap page = 0) rfl fun s a u hs hstep => ?_
    obtain ⟨hnot, hnext⟩ := hstep
    by_cases hcheating : a.cheating cfg = []
    · exact invariant_of_reflTransGen (P := fun b => b.cheatMap page = 0)
        (fun _ _ hb hstep => hstep.cheatMap_eq_zero hb)
        (Turns.next hnext hcheating False.elim) hs
    · have hmap := (Ledger.foldl_enter cfg page s.ledger (a.cheating cfg)).1
      rw [← ledger_of_cheating hnext hcheating, List.count_eq_zero_of_not_mem hnot] at hmap
      exact hmap.trans hs
  · exact forall_visits_iff_of_guarded (fun _ => id)
      (fun s a u hs hu hordinary hG => (cheatMap_eq_iff hpage hu hordinary hs).mpr hG)
      (fun s a u hs hu hordinary hnot hu' =>
        hnot ((cheatMap_eq_iff hpage hu hordinary hs).mp hu')) rfl hrun

/-- Reads of two pages, a command to prefetch two others by cheating, and the updates of these. -/
def streamActions : List Action :=
  [.addTransaction false 1024, .update true true, .update true true, .addTransaction true 1152,
    .mmio 4 (2 ^ 48 + 768), .update true true, .step, .update true true]

/-- Two pages that are not in the cache are prefetched by cheating, while the stream buffers issue
prefetches of two others. -/
theorem prefetchCheatMap_iff_miss :
    ∃ s, Run (Steps smallNext) smallInit streamActions s ∧
      s.transQueue = [⟨.prefetch, 1280⟩, ⟨.prefetch, 1408⟩] ∧
      ∀ u, Visits (Steps smallNext) smallInit streamActions u →
        u.prefetchCheatMap 768 = u.ledger.waiting smallCache 768 := by
  have h : ∃ s, Run (Guarded
      (fun s a => (∀ addr ∈ s.ordinary smallCache (streamBuffer smallCache) a,
        smallCache.prefetchedPage addr ≠ 768) ∧
        CheatsMiss smallCache (streamBuffer smallCache) 768 s a)
      (Steps smallNext)) smallInit streamActions s ∧
        s.transQueue = [⟨.prefetch, 1280⟩, ⟨.prefetch, 1408⟩] :=
    exists_run_guarded_imp (fun s => s.transQueue = [⟨.prefetch, 1280⟩, ⟨.prefetch, 1408⟩])
      (by decide +kernel) fun _ _ => id
  obtain ⟨s, hrun, hqueue⟩ := h
  refine ⟨s, hrun.of_guarded, hqueue, ((prefetchCheatMap_iff smallCache _ _ _ _ s
    hrun.of_guarded 768).2 (by decide +kernel) ?_).mpr ?_⟩
  · exact hrun.mono fun _ _ _ hstep => ⟨hstep.1.1, hstep.2⟩
  · exact hrun.mono fun _ _ _ hstep => ⟨hstep.1.2, hstep.2⟩

/-- A prefetch that hits leaves its entry in the map. -/
theorem prefetchCheatMap_stale :
    ∃ s, Run (Steps smallNext) smallInit [.mmio 4 0, .update true true] s ∧
      s.transQueue = [] ∧ s.activeTransaction = none ∧ s.prefetchCheatMap 0 = 1 :=
  exists_run (by decide +kernel)

end HybridSystem

/-! ### Unused prefetches -/

namespace Ledger

/-- Whether the page of a line was prefetched, and is not being replaced; and then, whether it was
used. -/
def status (b : Ledger) (line : ℕ) : Option Bool :=
  if (b.flags line).1 ∧ line ∉ b.filling then some (b.flags line).2 else none

/-- The number of lines with a status. -/
def count (cfg : Config) (b : Ledger) (used : Bool) : ℕ :=
  (cfg.lines.filter fun line => b.status line = some used).card

/-- The counters are right. -/
structure Counted (cfg : Config) (b : Ledger) : Prop where
  unused : b.unused = b.count cfg false
  total : b.total = b.unused + b.victims + (b.events.countP Event.replacesUsed + b.count cfg true)

/-- The counts when one line changes. -/
theorem count_update (hline : line ∈ cfg.lines) (h : ∀ l ≠ line, b'.status l = b.status l)
    (used : Bool) :
    b'.count cfg used + (if b.status line = some used then 1 else 0) =
      b.count cfg used + if b'.status line = some used then 1 else 0 := by
  have hsum : ∀ c : Ledger, c.count cfg used =
      (if c.status line = some used then 1 else 0) +
        ∑ l ∈ cfg.lines.erase line, if c.status l = some used then 1 else 0 := fun c => by
    rw [count, Finset.card_filter]
    exact (Finset.add_sum_erase cfg.lines (fun l => if c.status l = some used then 1 else 0)
      hline).symm
  have hrest : ∑ l ∈ cfg.lines.erase line, (if b'.status l = some used then 1 else 0) =
      ∑ l ∈ cfg.lines.erase line, if b.status l = some used then 1 else 0 :=
    Finset.sum_congr rfl fun l hl => by rw [h l (Finset.ne_of_mem_erase hl)]
  rw [hsum, hsum b, hrest]
  omega

/-- The status of one line changes, and the counters with it. -/
theorem Counted.change (h : b.Counted cfg) (hline : line ∈ cfg.lines)
    (hother : ∀ l ≠ line, b'.status l = b.status l)
    (hunused : b'.unused + (if b.status line = some false then 1 else 0) =
      b.unused + if b'.status line = some false then 1 else 0)
    (htotal : b'.total + (b.victims + b.events.countP Event.replacesUsed +
        if (b.status line).isSome then 1 else 0) =
      b.total + (b'.victims + b'.events.countP Event.replacesUsed +
        if (b'.status line).isSome then 1 else 0)) : b'.Counted cfg := by
  have hfalse := count_update hline hother false
  have htrue := count_update hline hother true
  have hsome : ∀ c : Ledger, (if (c.status line).isSome then 1 else 0) =
      (if c.status line = some false then 1 else 0) +
        if c.status line = some true then 1 else 0 := fun c => by
    rcases c.status line with _ | _ | _ <;> rfl
  rw [hsome, hsome b'] at htotal
  have hb := h.unused
  have ht := h.total
  exact ⟨by omega, by omega⟩

theorem status_of_idle (h : b.Idle cfg line) :
    b.status line = if (b.flags line).1 then some (b.flags line).2 else none := by
  simp [status, h.2]

/-- The counter when an unused prefetch is used or evicted. -/
theorem Counted.decrement_unused (h : b.Counted cfg) (hidle : b.Idle cfg line) :
    (if (b.flags line).1 ∧ (b.flags line).2 = false then decrement b.unused else b.unused) +
      (if b.status line = some false then 1 else 0) = b.unused := by
  have hstatus := status_of_idle hidle
  rcases hflags : b.flags line with ⟨prefetched, used⟩
  rw [hflags] at hstatus
  cases prefetched <;> cases used
  case true.false =>
    have hpos : 0 < b.count cfg false :=
      Finset.card_pos.mpr ⟨line, Finset.mem_filter.mpr ⟨hidle.1, hstatus⟩⟩
    rw [← h.unused] at hpos
    simp [hstatus, decrement, hpos.ne']
    omega
  all_goals simp [hstatus]

theorem Counted.change_step (h : b.Counted cfg) (hchange : Change cfg asked True b b') :
    b'.Counted cfg := by
  cases hchange with
  | record e he =>
    have hnot : e.replacesUsed = false := by
      cases e <;> simp_all [Event.isQuiet, Event.replacesUsed]
    refine ⟨h.unused, h.total.trans ?_⟩
    rw [List.countP_cons_of_neg (by simp [hnot])]
    rfl
  | push t queue ht hqueue => exact ⟨h.unused, h.total⟩
  | use line hline =>
    have hidle := hline trivial
    have hstatus : (b.use line).status line = if (b.flags line).1 then some true else none := by
      simp [status, use, hidle.2]
    refine h.change hidle.1 (fun l hl => by simp [status, use, hl]) ?_ ?_
    · rw [hstatus]
      refine (h.decrement_unused hidle).trans ?_
      split <;> simp
    · rw [hstatus, status_of_idle hidle]
      cases (b.flags line).1 <;> rfl
  | miss line e filling he hline =>
    obtain ⟨hidle, rfl, hused⟩ := hline trivial
    have hstatus : status { b.retire line e with filling := line ::ₘ b.filling } line = none := by
      simp [status]
    refine h.change hidle.1 (fun l hl => by simp [status, retire, hl]) ?_ ?_
    · rw [hstatus]
      exact h.decrement_unused hidle
    · rw [hstatus, status_of_idle hidle]
      simp only [retire, List.countP_cons, hused]
      rcases b.flags line with ⟨_ | _, _ | _⟩ <;> simp <;> omega
  | fill line page prefetch rest hline =>
    obtain ⟨hmem, hfilling, hrest⟩ := hline trivial
    have hold : b.status line = none := by simp [status, hfilling]
    have hstatus : status { b.fill line page prefetch with filling := rest } line =
        if prefetch then some false else none := by
      simp [status, fill, hrest]
    refine h.change hmem (fun l hl => by simp [status, fill, hl, hfilling]) ?_ ?_
    · rw [hold, hstatus]
      cases prefetch <;> rfl
    · rw [hold, hstatus]
      cases prefetch with
      | true =>
        simp [fill, Event.replacesUsed]
        omega
      | false => simp [fill, Event.replacesUsed]

/-- **The counters.** Each step changes the status of its line and the counters alike. -/
theorem Counted.step (h : b.Counted cfg) (hstep : Step cfg asked True b b') : b'.Counted cfg := by
  cases hstep with
  | change hchange => exact h.change_step hchange
  | activate t rest hnone hqueue => exact ⟨h.unused, h.total⟩
  | done hmap => exact ⟨h.unused, h.total⟩
  | hit addr hactive =>
    refine ⟨h.unused, h.total.trans ?_⟩
    rw [List.countP_cons_of_neg (by simp [Event.replacesUsed])]
    rfl
  | cheat addr line e hactive he hmap hline =>
    obtain ⟨hidle, hused⟩ := hline trivial
    generalize cfg.prefetchedPage addr = page
    have hstatus : status { (b.retire line e).fill line page true with
        active := none
        cheatMap := update b.cheatMap page (b.cheatMap page - 1) } line = some false := by
      simp [status, fill, retire, hidle.2]
    refine h.change hidle.1 (fun l hl => by simp [status, fill, retire, hl]) ?_ ?_
    · have hdecrement := h.decrement_unused hidle
      rw [hstatus]
      simp only [fill, retire, if_true]
      omega
    · rw [hstatus, status_of_idle hidle]
      simp only [fill, retire, List.countP_cons, hused]
      rcases b.flags line with ⟨_ | _, _ | _⟩ <;> (simp [Event.replacesUsed]; omega)

end Ledger

namespace HybridSystem

/-- **Unused prefetches.** In a run without `SYNC_ALL`, `unused_prefetches` is the number of lines
that were filled by a prefetch, were not used since, and are not being replaced. All prefetches are
those, the victims, and the prefetched lines that were used, whether they were replaced or not. -/
theorem unusedPrefetches_eq (cfg : Config) (pf : Prefetcher σ) (cache : ℕ → CacheLine)
    (prefetcher : σ) (hcache : Fresh cfg cache) (hplain : ∀ line, (cache line).prefetched = false)
    (actions : List Action) (hsync : ∀ address, Action.mmio 1 address ∉ actions)
    (s : HybridSystem σ) (h : Run (Steps (next cfg pf)) (init cache prefetcher) actions s) :
    s.unusedPrefetches = (cfg.lines.filter fun line => (s.cache line).prefetched = true ∧
        (s.cache line).used = false ∧ s.isReplaced line = false).card ∧
      s.totalPrefetches = s.unusedPrefetches + s.unusedPrefetchVictims +
        (s.events.countP Event.replacesUsed +
          (cfg.lines.filter fun line => (s.cache line).prefetched = true ∧
            (s.cache line).used = true ∧ s.isReplaced line = false).card) := by
  have hactions : ∀ a ∈ actions, ∀ address, a ≠ .mmio 1 address :=
    fun a ha address heq => hsync address (heq ▸ ha)
  have hcount : ∀ used, s.ledger.count cfg used = (cfg.lines.filter fun line =>
      (s.cache line).prefetched = true ∧ (s.cache line).used = used ∧
        s.isReplaced line = false).card := by
    intro used
    rw [Ledger.count]
    congr 1
    refine Finset.filter_congr fun line _ => ?_
    rw [Ledger.status, Option.ite_none_right_eq_some, Option.some.injEq, isReplaced,
      decide_eq_false_iff_not]
    exact ⟨fun ⟨⟨hprefetched, hidle⟩, hused⟩ => ⟨hprefetched, hused, hidle⟩,
      fun ⟨hprefetched, hused, hidle⟩ => ⟨⟨hprefetched, hidle⟩, hused⟩⟩
  rw [← hcount, ← hcount]
  suffices hcounted : s.ledger.Counted cfg from ⟨hcounted.unused, hcounted.total⟩
  refine ((run_guarded_iff_forall.mpr ⟨h, hactions⟩).invariant
    (P := fun s => (∃ x, Represents cfg s x ∧ x.Valid cfg) ∧ s.ledger.Counted cfg)
    ⟨⟨_, hcache.represents prefetcher, hcache.valid⟩, ?_⟩ ?_).2
  · have hnone : ∀ line, (init cache prefetcher).ledger.status line = none := fun line => by
      simp [Ledger.status, ledger, init, lineFlags, hplain]
    have hzero : ∀ used, (init cache prefetcher).ledger.count cfg used = 0 := fun used => by
      simp [Ledger.count, hnone]
    exact ⟨(hzero false).symm, by rw [hzero]; rfl⟩
  · rintro s a u ⟨⟨x, hrep, hvalid⟩, hcounted⟩ ⟨hnosync, hstep⟩
    obtain ⟨y, hsteps, hy⟩ := hrep.next hnosync hvalid hstep
    refine ⟨⟨y, hy, hvalid.steps hsteps⟩, ?_⟩
    by_cases hcheating : a.cheating cfg = []
    · exact invariant_of_reflTransGen (P := Ledger.Counted cfg) (fun _ _ hb hs => hb.step hs)
        (Turns.next hstep hcheating fun _ => ⟨x, hrep, hvalid⟩) hcounted
    · rw [ledger_of_cheating hstep hcheating]
      generalize a.cheating cfg = addresses
      generalize s.ledger = b at hcounted
      induction addresses generalizing b with
      | nil => exact hcounted
      | cons addr addresses ih => exact ih _ ⟨hcounted.unused, hcounted.total⟩

/-- A page is prefetched into the first line. -/
theorem unusedPrefetches_eq_one :
    ∃ s, Run (Steps smallNext) smallInit
        [.addPrefetch 768, .update true true, .update true true, .update true true,
          .flashReadCallback 768 false, .flashReadCallback 832 false] s ∧
      s.totalPrefetches = 1 ∧ 1 = (smallCache.lines.filter fun line =>
        (s.cache line).prefetched = true ∧ (s.cache line).used = false ∧
          s.isReplaced line = false).card := by
  refine exists_run_imp (fun s => s.totalPrefetches = 1 ∧ s.unusedPrefetches = 1)
    (by decide +kernel) fun s hrun hs => ⟨hs.1, hs.2.symm.trans ?_⟩
  refine (unusedPrefetches_eq smallCache _ _ _ (fresh_prefill smallCache) (fun line => ?_) _
    (by simp) s hrun).1
  rw [prefill]
  split_ifs <;> rfl

/-- Four sets of two lines, for sixteen pages of two bursts, and no delay. -/
def fourSets : Config :=
  { smallCache with
    cachePages := 8, totalPages := 16, totalPages_pos := Nat.succ_pos 15
    setSize_le := Nat.le_add_left 2 6 }

/-- **A prefetch is a victim twice.** A page is prefetched, and its line is evicted for another
page. Before this page has come, `SYNC_ALL` locks the other line of the set twice, so that the set
counts as free, and the next miss evicts the first line again. -/
theorem unusedPrefetches_wraps :
    ∃ s, Run (Steps (next fourSets (streamBuffer fourSets))) (init (prefill fourSets) {})
        ([.addPrefetch 1024, .update true true, .update true true, .update true true,
            .flashReadCallback 1024 false, .flashReadCallback 1088 false,
            .addTransaction true 512, .update true true, .update true true,
            .addTransaction false 1536, .update true true, .update true true, .mmio 1 0] ++
          List.replicate 8 (.update true true) ++ .addTransaction false 0 ::
            List.replicate 8 (.update true true)) s ∧
      s.totalPrefetches = 1 ∧ s.unusedPrefetchVictims = 2 ∧ s.unusedPrefetches = 2 ^ 64 - 1 :=
  exists_run (by decide +kernel)

end HybridSystem

end HybridMemory.HybridSim

import HybridMemory.HybridSim.Processing

/-!
# Completed accesses

The memories call back when they have completed an access. Which flight waits for it is found in
the pending tables: a DRAM read is that of a read of the cache, or a part of a page that is
written back, and a flash read is a part of a page that is read into the cache. The last part
ends the flight, unless the page is still moved by the other memory.

* `Represents.unlock`: a flight that moves a page goes on or ends;
* `Represents.dramReadCallback`, `Represents.flashReadCallback`,
  `Represents.flashCriticalLineCallback`: a callback is a step of the traffic, or none while other
  parts of the page are left.
-/

namespace HybridMemory.HybridSim

open HybridSystem Registry Function

variable {σ : Type} {cfg : Config} {s u : HybridSystem σ} {x : Traffic} {p : Pending}
  {a : ℕ} {fill : Option Bool} {sent victim : Bool} {rest : Multiset Flight}

variable (h : Represents cfg s x)

include h

/-- What `contention_unlock` does for a flight that moves a page: it ends if nothing is left. -/
theorem Represents.unlock (hx : x.flights = .moving p fill victim ::ₘ rest)
    (hu : s.contentionUnlock cfg p.flashAddr p.victimValid (p.victimPage cfg) true p.cacheAddr =
      some u) : Represents cfg u (x.proceed rest p fill victim) := by
  have htables := hx ▸ h.tables
  have hpages := lists_cons.mp htables.pages
  rw [Flight.pages, Multiset.cons_add] at hpages
  have hsame : Represents cfg s { x with flights := .moving p fill victim ::ₘ rest } := by
    rw [← hx]
    exact h
  rcases fill with _ | _ <;> cases victim
  -- both transfers are over
  · obtain ⟨pages, hentries, rfl⟩ := exists_eq_release hu hpages
    exact ⟨h.tracks.release hx rfl, hentries, (lists_cons_of_eq_zero (by rfl)).mp htables.dram,
      (lists_cons_of_eq_zero (by rfl)).mp htables.flash⟩
  all_goals
    rw [contentionUnlock_of_pos hpages] at hu
    exact Option.some.inj hu ▸ hsame

/-! ### Reads of the cache -/

omit h in
/-- A line that is read is not moved. -/
theorem Traffic.Inv.not_moving_of_reading (hinv : x.Inv cfg)
    (hx : x.flights = .reading p ::ₘ rest) :
    ∀ g ∈ x.flights, g.IsMoving → g.line ≠ p.cacheAddr := by
  intro g hg hmoving hline
  have husers := hinv.exclusive g hg hmoving
  rw [Traffic.users_cons hx, hline, Flight.line_reading, if_pos rfl] at husers
  rcases Multiset.mem_cons.mp (hx ▸ hg) with rfl | hg
  · exact hmoving
  · have hpos : 0 < rest.countP (Flight.line · = p.cacheAddr) :=
      Multiset.countP_pos.mpr ⟨g, hg, hline⟩
    omega

/-- A read of the cache is completed. -/
theorem Represents.cacheReadFinish (hinv : x.Inv cfg) (hx : x.flights = .reading p ::ₘ rest)
    (hu : ({ s with
      dramPending := s.dramPending.erase (p.cacheAddr + cfg.pageOffset p.flashAddr) } :
        HybridSystem σ).cacheReadFinish cfg p = some u) :
    Represents cfg u { x with
      flights := rest
      events := .done false (callbackAddress p.origAddr) :: x.events } := by
  obtain ⟨hplaced, -, hvalid, hcontents⟩ := hinv.sound _ (hx ▸ Multiset.mem_cons_self _ rest)
  have hfree : cfg.pageAddress p.flashAddr ∉ s.pendingPages := fun hmem =>
    hinv.notMem_pageKeys hplaced.isLine hcontents (hinv.not_moving_of_reading hx)
      (h.mem_pendingPages.mp hmem)
  have hentries := lists_cons.mp (hx ▸ h.tables.dram)
  rw [Flight.dram, Multiset.singleton_add] at hentries
  rw [HybridSystem.cacheReadFinish, hplaced.sent, hvalid] at hu
  obtain rfl := eq_release hu hfree
  have hcall := h.tracks.call (e := .done false (callbackAddress p.origAddr)) rfl
  have hend := hcall.release hx rfl
  exact ⟨hend, {
    pages := (lists_cons_of_eq_zero (by rfl)).mp (hx ▸ h.tables.pages)
    dram := entries_erase_of_cons hentries
    flash := (lists_cons_of_eq_zero (by rfl)).mp (hx ▸ h.tables.flash) }⟩

/-! ### Pages that are written back -/

/-- A part of a page that is written back is read from DRAM. -/
theorem Represents.victimReadFinish (hx : x.flights = .moving p fill true ::ₘ rest)
    (hu : { s with dramPending := s.dramPending.erase p.cacheAddr }.victimReadFinish cfg a p =
      some u) :
    x.Reaches cfg u := by
  have htables := hx ▸ h.tables
  have hdram := lists_cons.mp htables.dram
  rw [Flight.dram, Multiset.singleton_add] at hdram
  simp only [HybridSystem.victimReadFinish] at hu
  split_ifs at hu
  · -- other parts are left
    obtain rfl := Option.some.inj hu
    exact ⟨x, .refl, h.tracks, h.tables.pages,
      (entries_insert_of_eq Finmap.notMem_erase_self (entries_erase_of_cons hdram)).trans
        (hdram.symm.trans h.tables.dram), h.tables.flash⟩
  · obtain ⟨v, hv, rfl⟩ := Option.map_eq_some_iff.mp hu
    have hpages := lists_cons.mp htables.pages
    rw [Flight.pages, Multiset.cons_add] at hpages
    have hread : Represents cfg ({ s with
        dramPending := s.dramPending.erase p.cacheAddr
        dramPendingWait := s.dramPendingWait.erase p.cacheAddr
        pendingPages := (s.contentionDecrement cfg p.flashAddr).pendingPages } : HybridSystem σ)
          { x with flights := .moving p fill false ::ₘ rest } :=
      ⟨h.tracks.swap hx rfl, {
        pages := lists_cons.mpr ((entries_contentionDecrement hpages).trans
          (Multiset.cons_add ..).symm)
        dram := lists_cons.mpr ((entries_erase_of_cons hdram).trans (zero_add _).symm)
        flash := htables.flash.congr Flight.flash_victim }⟩
    have hend := hread.unlock rfl hv
    have hwrite : Represents cfg (v.victimWrite cfg p) _ := ⟨hend.tracks.note rfl, hend.tables⟩
    refine ⟨_, .single (.victimDone p fill rest hx), ?_⟩
    cases fill <;> exact hwrite

/-- **DRAM reads.** -/
theorem Represents.dramReadCallback (hinv : x.Inv cfg) (hu : s.dramReadCallback cfg a = some u) :
    x.Reaches cfg u := by
  simp only [HybridSystem.dramReadCallback] at hu
  split at hu
  · contradiction
  · rename_i p hlookup
    obtain ⟨f, rest, hx, hmem⟩ := h.tables.dram.exists_of_lookup hlookup
    have hsound := hinv.sound f (hx ▸ Multiset.mem_cons_self f rest)
    match f, hmem, hsound with
    | .reading q, hmem, ⟨_, hop, _⟩ =>
      obtain ⟨hkey, ⟨⟩⟩ := Sigma.mk.inj (Multiset.mem_singleton.mp hmem)
      rw [hkey, hop] at hu
      exact ⟨_, .single (.readDone p rest hx), h.cacheReadFinish hinv hx hu⟩
    | .moving q fill true, hmem, ⟨_, hop, _⟩ =>
      obtain ⟨hkey, ⟨⟩⟩ := Sigma.mk.inj (Multiset.mem_singleton.mp hmem)
      rw [hkey, hop] at hu
      exact h.victimReadFinish hx hu

/-! ### Pages that are read from flash -/

/-- The line when it gets the page. -/
def filledLine (cfg : Config) (s : HybridSystem σ) (p : Pending) : CacheLine :=
  { s.cache p.cacheAddr with
    tag := cfg.tag p.flashAddr, dirty := decide (p.type = .dataWrite), valid := true
    ts := s.currentClockCycle, used := decide (p.type = .dataWrite)
    prefetched := decide (p.type = .prefetch) }

/-- What is recorded of a page that is complete. -/
def fillEvents (cfg : Config) (p : Pending) (sent : Bool) (events : List Event) : List Event :=
  (if sent then [] else answer p.type p.origAddr) ++
    ((if p.type = .dataWrite then [.writes (p.page cfg)] else []) ++ .fills (p.page cfg) :: events)

omit h in
theorem filter_answer (type : TransactionType) (addr : ℕ) :
    (answer type addr).filter Event.isCall = answer type addr := by
  cases type <;> rfl

omit h in
theorem filter_fillEvents (events : List Event) :
    (fillEvents cfg p sent events).filter Event.isCall =
      (if sent then [] else answer p.type p.origAddr) ++ events.filter Event.isCall := by
  rw [fillEvents, List.filter_append]
  split_ifs <;> simp [Event.isCall, filter_answer]

omit h in
/-- The last part of a page: the line gets the page, and the access is finished. -/
theorem lineReadFinish_of_last
    (hlast : ((s.flashPendingWait.lookup (p.page cfg)).getD ∅).erase a = ∅)
    (htype : p.type = .dataRead ∨ p.type = .dataWrite ∨ p.type = .prefetch) :
    s.lineReadFinish cfg a (Flight.record p sent) = ({ s with
        flashPendingWait := s.flashPendingWait.erase (p.page cfg)
        pendingPages := (s.contentionDecrement cfg p.flashAddr).pendingPages
        cache := update s.cache p.cacheAddr (filledLine cfg s p)
        totalPrefetches := s.totalPrefetches + if p.type = .prefetch then 1 else 0
        unusedPrefetches := s.unusedPrefetches + if p.type = .prefetch then 1 else 0
        dramQueue := s.dramQueue ++ (cfg.bursts cfg.burstSize p.cacheAddr).map (⟨.dataWrite, ·⟩)
        events := fillEvents cfg p sent s.events } : HybridSystem σ).contentionUnlock cfg
          p.flashAddr p.victimValid (p.victimPage cfg) true p.cacheAddr := by
  rw [Pending.page] at hlast
  dsimp only [Flight.record]
  rw [lineReadFinish]
  dsimp only
  rw [if_neg (not_not.mpr hlast), filledLine, fillEvents]
  rcases htype with htype | htype | htype
  · rw [htype]
    cases sent <;> rfl
  · rw [htype, cacheWriteFinish]
    dsimp only [lineWrite, HybridSystem.record, contentionDecrement]
    rw [update_self, update_idem]
    cases sent <;> rfl
  · rw [htype]
    cases sent <;> rfl

/-- The table of the flash reads, for a page that is read. -/
theorem Represents.flashPending_eq (hx : x.flights = .moving p (some sent) victim ::ₘ rest) :
    s.flashPending.entries =
      ⟨p.page cfg, Flight.record p sent⟩ ::ₘ rest.bind (Flight.flash cfg) := by
  have hflash := lists_cons.mp (hx ▸ h.tables.flash)
  rwa [Flight.flash, Multiset.singleton_add] at hflash

/-- The flight for which a page is read from flash. -/
theorem Represents.exists_filling {page : ℕ} {q : Pending}
    (hlookup : s.flashPending.lookup page = some q) :
    ∃ p sent victim rest, x.flights = .moving p (some sent) victim ::ₘ rest ∧ page = p.page cfg ∧
      q = Flight.record p sent := by
  obtain ⟨f, rest, hx, hmem⟩ := h.tables.flash.exists_of_lookup hlookup
  match f, hmem with
  | .moving p (some sent) victim, hmem =>
    obtain ⟨hkey, ⟨⟩⟩ := Sigma.mk.inj (Multiset.mem_singleton.mp hmem)
    exact ⟨p, sent, victim, rest, hx, hkey, rfl⟩

/-- The last part of a page is read from flash. -/
theorem Represents.filled (hinv : x.Inv cfg)
    (hx : x.flights = .moving p (some sent) victim ::ₘ rest)
    (hlast : ((s.flashPendingWait.lookup (p.page cfg)).getD ∅).erase a = ∅)
    (hu : { s with flashPending := s.flashPending.erase (p.page cfg) }.lineReadFinish cfg a
      (Flight.record p sent) = some u) :
    Represents cfg u { x.proceed rest p none victim with
      contents := update x.contents p.cacheAddr (some (p.page cfg))
      events := (if sent then [] else answer p.type p.origAddr) ++ x.events } := by
  obtain ⟨hplaced, -, hf⟩ := hinv.sound _ (hx ▸ Multiset.mem_cons_self _ rest)
  have htables := hx ▸ h.tables
  have hpages := lists_cons.mp htables.pages
  rw [Flight.pages, Multiset.cons_add, Option.isSome_some, Bool.toNat_true, Nat.add_comm 1]
    at hpages
  have hswap : Tracks cfg s.view { x with flights := .moving p none victim ::ₘ rest } :=
    h.tracks.swap hx rfl
  rw [lineReadFinish_of_last (s := { s with
    flashPending := s.flashPending.erase (p.page cfg) }) hlast hf.type] at hu
  have hend := Represents.unlock (x := { x with
    flights := .moving p none victim ::ₘ rest
    contents := update x.contents p.cacheAddr (some (p.page cfg))
    events := (if sent then [] else answer p.type p.origAddr) ++ x.events }) ⟨?_, ?_⟩ rfl hu
  · cases victim <;> exact hend
  · exact { hswap with
      events := (filter_fillEvents s.events).trans (congrArg (_ ++ ·) h.tracks.events)
      contents := by
        refine contents_update.trans ?_
        rw [← h.tracks.contents, hplaced.set]
        exact congrArg (fun page => update (contents cfg s.cache) p.cacheAddr (some page))
          Config.flashAddress_tag
      locks := hswap.locks.touch (l := filledLine cfg s p) rfl rfl }
  · exact {
      pages := lists_cons.mpr ((entries_contentionDecrement hpages).trans (by
        rw [Flight.pages, Multiset.cons_add, Option.isSome_none, Bool.toNat_false,
          Nat.zero_add, Pending.page]))
      dram := htables.dram.congr Flight.dram_fill
      flash := lists_cons.mpr ((entries_erase_of_cons (h.flashPending_eq hx)).trans
        (zero_add _).symm) }

/-- **Flash reads.** -/
theorem Represents.flashReadCallback (hinv : x.Inv cfg) (hu : s.flashReadCallback cfg a = some u) :
    x.Reaches cfg u := by
  simp only [HybridSystem.flashReadCallback] at hu
  split at hu
  · contradiction
  · rename_i q hlookup
    obtain ⟨p, sent, victim, rest, hx, hpage, rfl⟩ := h.exists_filling hlookup
    rw [hpage] at hu
    by_cases hlast : ((s.flashPendingWait.lookup (p.page cfg)).getD ∅).erase a = ∅
    · exact ⟨_, .single (.fillDone p sent victim rest hx), h.filled hinv hx hlast hu⟩
    · -- other parts are left
      have hflash := h.flashPending_eq hx
      obtain rfl := Option.some.inj ((if_pos hlast).symm.trans hu)
      rw [hpage]
      exact ⟨x, .refl, h.tracks, h.tables.pages, h.tables.dram,
        (entries_insert_of_eq Finmap.notMem_erase_self (entries_erase_of_cons hflash)).trans
          (hflash.symm.trans h.tables.flash)⟩

/-- **Critical lines.** The callback is made when the critical line of a page is read, once. -/
theorem Represents.flashCriticalLineCallback (hinv : x.Inv cfg)
    (hu : s.flashCriticalLineCallback cfg a = some u) :
    x.Reaches cfg u := by
  simp only [HybridSystem.flashCriticalLineCallback] at hu
  split at hu
  · contradiction
  · rename_i q hlookup
    obtain ⟨p, sent, victim, rest, hx, hpage, rfl⟩ := h.exists_filling hlookup
    obtain ⟨⟨-, hsent⟩, hu⟩ := Option.ite_none_right_eq_some.mp hu
    obtain rfl : sent = false := hsent
    obtain ⟨-, -, hf⟩ := hinv.sound _ (hx ▸ Multiset.mem_cons_self _ rest)
    have htables := hx ▸ h.tables
    have hswap : Tracks cfg s.view { x with flights := .moving p (some true) victim ::ₘ rest } :=
      h.tracks.swap hx rfl
    have hanswer : Tracks cfg { s.view with events := answer p.type p.origAddr ++ s.events }
        { x with
          flights := .moving p (some true) victim ::ₘ rest
          events := answer p.type p.origAddr ++ x.events } :=
      { hswap with
        events := by
          rw [List.filter_append, filter_answer]
          exact congrArg (_ ++ ·) h.tracks.events }
    refine ⟨_, .single (.critical p victim rest hx), ?_⟩
    rw [hpage] at hu
    have heq : u = { s with
        events := answer p.type p.origAddr ++ s.events
        flashPending := s.flashPending.insert (p.page cfg) (Flight.record p true) } := by
      rw [← Option.some.inj hu]
      dsimp only [Flight.record]
      rcases hf.type with htype | htype | htype <;> rw [htype] <;> rfl
    rw [heq]
    exact ⟨hanswer, htables.pages.congr rfl, htables.dram.congr Flight.dram_fill,
      lists_cons.mpr (entries_insert_of_cons (h.flashPending_eq hx))⟩

end HybridMemory.HybridSim

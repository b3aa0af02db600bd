import HybridMemory.HybridSim.Contention
import HybridMemory.HybridSim.Represents

/-!
# Processing a transaction

`ProcessTransaction` looks a transaction up in the cache. Each of its outcomes is a step of the
traffic: a hit that begins a read, a write that is done at once, a prefetch or flush that ends, a
miss that begins to move a page, and a cheating prefetch.

* `hitLine_eq_some`, `hitLine_eq_none`: what the lookup finds;
* `selectVictim_spec`: the victim is one of the unlocked lines, if there is one;
* `Represents.processTransaction`: the simulation.
-/

namespace HybridMemory.HybridSim

open HybridSystem Registry Function

variable {σ : Type} {cfg : Config} {pf : Prefetcher σ} {s u : HybridSystem σ} {x : Traffic}
  {t : Transaction} {addr line page : ℕ}

/-! ### Looking a page up -/

theorem contents_eq_some_iff {cache : ℕ → CacheLine}
    (hset : cfg.setIndex line = cfg.setIndex addr) :
    contents cfg cache line = some (cfg.pageAddress addr) ↔
      (cache line).valid = true ∧ (cache line).tag = cfg.tag addr := by
  rw [contents, Option.ite_none_right_eq_some, Option.some.injEq, hset, Config.tag_eq_iff]

theorem hitLine_eq_some (h : s.hitLine cfg addr = some line) :
    line ∈ cfg.setAddresses (cfg.setIndex addr) ∧
      contents cfg s.cache line = some (cfg.pageAddress addr) := by
  have hmem := List.mem_of_find?_eq_some h
  have hset := Config.setIndex_of_mem (cfg.setIndex_lt addr) hmem
  refine ⟨hmem, (contents_eq_some_iff hset).mpr ?_⟩
  simpa using List.find?_some h

theorem hitLine_eq_none (h : s.hitLine cfg addr = none) :
    ∀ line, cfg.IsLine line → contents cfg s.cache line ≠ some (cfg.pageAddress addr) := by
  intro line hline hcontents
  have hset : cfg.setIndex line = cfg.setIndex addr := by
    rw [contents, Option.ite_none_right_eq_some, Option.some.injEq] at hcontents
    rw [← Config.setIndex_pageAddress (a := addr), ← hcontents.2,
      Config.setIndex_flashAddress (cfg.setIndex_lt line)]
  have hmem : line ∈ cfg.setAddresses (cfg.setIndex addr) := hset ▸ hline
  have hnot := List.find?_eq_none.mp h line hmem
  exact hnot (by simpa using (contents_eq_some_iff hset).mp hcontents)

/-! ### The victim -/

/-- The search over a list of lines finds an unlocked one, unless it has found one before. -/
theorem foldl_olderLine_spec (cache : ℕ → CacheLine) (lines : List ℕ) (best : ℕ × Option ℕ) :
    (lines.foldl (olderLine cache) best = best ∧
        (best.2 = none → ∀ a ∈ lines, (cache a).locked = true)) ∨
      (lines.foldl (olderLine cache) best).1 ∈ lines ∧
        (cache (lines.foldl (olderLine cache) best).1).locked = false := by
  induction lines generalizing best with
  | nil => exact Or.inl ⟨rfl, by simp⟩
  | cons a lines ih =>
    rw [List.foldl_cons]
    rcases ih (olderLine cache best a) with ⟨heq, hlocked⟩ | ⟨hmem, hfree⟩
    · rw [heq]
      unfold olderLine at hlocked ⊢
      split_ifs at hlocked ⊢ with hnew
      · simp only [Bool.and_eq_true, Bool.not_eq_true'] at hnew
        exact Or.inr ⟨List.mem_cons_self, hnew.2⟩
      · refine Or.inl ⟨rfl, fun hnone => ?_⟩
        rw [hnone] at hnew
        exact List.forall_mem_cons.mpr ⟨by simpa using hnew, hlocked hnone⟩
    · exact Or.inr ⟨List.mem_cons_of_mem _ hmem, hfree⟩

/-- The victim is one of the unlocked lines, if there is one. -/
theorem selectVictim_spec {cache : ℕ → CacheLine} {lines : List ℕ}
    (h : ∃ a ∈ lines, (cache a).locked = false) :
    selectVictim cache lines ∈ lines ∧ (cache (selectVictim cache lines)).locked = false := by
  obtain ⟨a, ha, hfree⟩ := h
  rcases foldl_olderLine_spec cache lines (lines.headD 0, none) with ⟨-, hlocked⟩ | hfound
  · exact absurd (hfree.symm.trans (hlocked rfl a ha)) Bool.false_ne_true
  · exact hfound

/-! ### Hits -/

theorem line_ofRead (origAddr addr line : ℕ) :
    (Flight.reading (.ofRead origAddr addr line)).line = line := rfl

section Hit

variable (h : Represents cfg s x) (hinv : x.Inv cfg) (hit : x.Hits cfg t line)

include h hinv hit in
theorem Represents.notMem_of_hit : cfg.pageAddress (cfg.align t.address) ∉ s.pendingPages :=
  fun hmem => hinv.active t hit.active (h.mem_pendingPages.mp hmem)

include h hinv hit in
/-- A prefetch that hits is recorded, and does nothing. -/
theorem Represents.prefetchHit {page : ℕ}
    (hu : ((s.contentionCacheLineLock cfg line).record (.hits page)).contentionUnlock cfg
      (cfg.align t.address) false 0 true line = some u) :
    Represents cfg { u with activeTransaction := none } { x with active := none } := by
  obtain rfl := eq_release hu (h.notMem_of_hit hinv hit)
  have hlock := h.tracks.lock hit.active (line_ofRead 0 0 line)
  have hend := hlock.release rfl rfl
  exact ⟨hend.note (e := .hits page) rfl, h.tables⟩

include h hinv hit in
/-- A flush that hits sets the timestamp. It unlocks the address of the page. -/
theorem Represents.flushHit (hu : (s.contentionCacheLineLock cfg line).flush cfg line = some u) :
    Represents cfg { u with activeTransaction := none } { x with active := none } := by
  have hpage : cfg.flashAddress ((s.contentionCacheLineLock cfg line).cache line).tag
      (cfg.setIndex line) = cfg.pageAddress (cfg.align t.address) := by
    have hcontents := h.tracks.contents ▸ hit.holds
    obtain ⟨-, htag⟩ := (contents_eq_some_iff hit.set).mp hcontents
    have hlock : ((s.contentionCacheLineLock cfg line).cache line).tag = (s.cache line).tag := by
      simp [contentionCacheLineLock, CacheLine.lock]
    rw [hlock]
    exact (congrArg₂ cfg.flashAddress htag hit.set).trans Config.flashAddress_tag
  rw [HybridSystem.flush, hpage] at hu
  have hnot : cfg.pageAddress (cfg.pageAddress (cfg.align t.address)) ∉ s.pendingPages := by
    rw [Config.pageAddress_pageAddress]
    exact h.notMem_of_hit hinv hit
  obtain rfl := eq_release hu hnot
  have hlock := h.tracks.lock hit.active (line_ofRead 0 0 line)
  have htouch := hlock.touch (l := { (s.contentionCacheLineLock cfg line).cache line with ts := 0 })
    (by rfl) (by rfl) (by rfl) (by rfl)
  have hend := htouch.release rfl rfl
  exact ⟨hend, h.tables⟩

include h hinv hit in
/-- A write that hits makes the line dirty. -/
theorem Represents.writeHit (hu : (s.contentionCacheLineLock cfg line).cacheWrite cfg t.address
      (cfg.align t.address) line = some u) :
    Represents cfg { u with activeTransaction := none }
      { x with
        active := none
        events := .done true (callbackAddress t.address) :: x.events } := by
  obtain rfl := eq_release hu (h.notMem_of_hit hinv hit)
  have hvalid : (update s.cache line (s.cache line).lock line).valid = true := by
    rw [update_self]
    exact ((contents_eq_some_iff hit.set).mp (h.tracks.contents ▸ hit.holds)).1
  have hlock := h.tracks.lock hit.active (line_ofRead 0 0 line)
  have htouch := hlock.touch (l := { (s.contentionCacheLineLock cfg line).cache line with
    dirty := true, valid := true, used := true, ts := s.currentClockCycle })
    hvalid.symm (by rfl) (by rfl) (by rfl)
  have hcall := (htouch.note (e := .writes (cfg.pageAddress (cfg.align t.address))) rfl).call
    (e := .done true (callbackAddress t.address)) rfl
  have hend := hcall.release rfl rfl
  exact ⟨hend, h.tables⟩

include h hit in
/-- A read that hits begins. -/
theorem Represents.readHit (hu : (s.contentionCacheLineLock cfg line).cacheRead cfg t.address
      (cfg.align t.address) line = some u) :
    Represents cfg { u with activeTransaction := none }
      { x with
        active := none
        flights := .reading (.ofRead t.address (cfg.align t.address) line) ::ₘ x.flights } := by
  obtain ⟨⟨-, hnot⟩, ⟨⟩⟩ := Option.ite_none_right_eq_some.mp hu
  have hlock := h.tracks.lock hit.active (line_ofRead t.address (cfg.align t.address) line)
  have htouch := hlock.touch (l := { (s.contentionCacheLineLock cfg line).cache line with
    ts := s.currentClockCycle, used := true }) (by rfl) (by rfl) (by rfl) (by rfl)
  exact ⟨htouch, {
    pages := (lists_cons_of_eq_zero (by rfl)).mpr h.tables.pages
    dram := lists_cons.mpr (entries_insert_of_eq hnot h.tables.dram)
    flash := (lists_cons_of_eq_zero (by rfl)).mpr h.tables.flash }⟩

end Hit

/-! ### Queueing -/

section Queue

theorem Represents.pushFront (h : Represents cfg s x) (t : Transaction) :
    Represents cfg (s.pushFront t) { x with queue := t ::ₘ x.queue } where
  tracks := { h.tracks with
    queue := congrArg (t ::ₘ ·) h.tracks.queue
    count := by
      have hcount := h.tracks.count
      simp only [view] at hcount
      simp only [view, HybridSystem.pushFront, hcount, List.length_cons]
      omega }
  tables := h.tables

theorem Represents.pushBack (h : Represents cfg s x) (t : Transaction) :
    Represents cfg (s.pushBack t) { x with queue := t ::ₘ x.queue } where
  tracks := { h.tracks with
    queue := by
      rw [← h.tracks.queue]
      exact Multiset.coe_eq_coe.mpr (List.perm_append_singleton t s.transQueue)
    count := by
      have hcount := h.tracks.count
      simp only [view] at hcount
      simp only [view, HybridSystem.pushBack, hcount, List.length_append, List.length_singleton]
      omega }
  tables := h.tables

/-- The prefetches of a handler are queued. -/
theorem Represents.handle (h : Represents cfg s x) (out : σ × List ℕ) :
    ∃ queue, Relation.ReflTransGen (Traffic.Step cfg) x { x with queue := queue } ∧
      Represents cfg (s.handle out) { x with queue := queue } := by
  have hpush : ∀ (addresses : List ℕ) (s : HybridSystem σ) (x : Traffic), Represents cfg s x →
      ∃ queue, Relation.ReflTransGen (Traffic.Step cfg) x { x with queue := queue } ∧
        Represents cfg (addresses.foldl addPrefetch s) { x with queue := queue } := by
    intro addresses
    induction addresses with
    | nil => exact fun s x h => ⟨x.queue, .refl, h⟩
    | cons a addresses ih =>
      intro s x h
      obtain ⟨queue, hsteps, hrep⟩ := ih _ _ (h.pushFront ⟨.prefetch, a⟩)
      exact ⟨queue, .head (.push _ (Or.inl rfl)) hsteps, hrep⟩
  exact hpush out.2 _ x ⟨h.tracks, h.tables⟩

/-- What is done before the handler could be done after it. -/
theorem handle_comm (f : HybridSystem σ → HybridSystem σ) (out : σ × List ℕ)
    (hadd : ∀ s a, (f s).addPrefetch a = f (s.addPrefetch a))
    (hset : { f s with prefetcher := out.1 } = f { s with prefetcher := out.1 }) :
    (f s).handle out = f (s.handle out) := by
  rw [HybridSystem.handle, hset]
  exact List.foldl_hom f hadd

@[simp] theorem handle_cache (s : HybridSystem σ) (out : σ × List ℕ) :
    (s.handle out).cache = s.cache :=
  handle_induction (P := fun u => u.cache = s.cache) (fun _ _ hu => hu) rfl

end Queue

/-! ### Misses -/

/-- The page of the active transaction is locked, but has no flight. -/
structure PageLocked (cfg : Config) (s : HybridSystem σ) (x : Traffic) (page : ℕ) : Prop where
  tracks : Tracks cfg s.view x
  pages : s.pendingPages.entries = ⟨page, 0⟩ ::ₘ x.flights.bind (Flight.pages cfg)
  dram : Lists (Flight.dram cfg) x.flights s.dramPending
  flash : Lists (Flight.flash cfg) x.flights s.flashPending

theorem Represents.pageLock (h : Represents cfg s x)
    (hpage : cfg.pageAddress addr ∉ x.pageKeys cfg) :
    PageLocked cfg (s.contentionPageLock cfg addr) x (cfg.pageAddress addr) where
  tracks := h.tracks
  pages := entries_insert_of_eq (fun hmem => hpage (h.mem_pendingPages.mp hmem)) h.tables.pages
  dram := h.tables.dram
  flash := h.tables.flash

/-- The page is unlocked again. -/
theorem PageLocked.settle (h : PageLocked cfg s x (cfg.pageAddress addr))
    (hactive : x.active = some t)
    (hu : s.contentionUnlock cfg addr false 0 false 0 = some u) :
    Represents cfg { u with activeTransaction := none } { x with active := none } := by
  obtain ⟨pages, hpages, rfl⟩ := exists_eq_release hu
    (h.pages.trans (by rw [if_neg (by decide), zero_add]))
  exact ⟨h.tracks.settle hactive, hpages, h.dram, h.flash⟩

/-- What is recorded of a miss. -/
theorem PageLocked.countVictim (h : PageLocked cfg s x page) (addr victim : ℕ) (cheat : Bool)
    (l : CacheLine) :
    PageLocked cfg ((s.record (s.replacesEvent cfg addr victim cheat)).countVictim l) x page := by
  have hnote : PageLocked cfg (s.record (s.replacesEvent cfg addr victim cheat)) x page :=
    ⟨h.tracks.note rfl, h.pages, h.dram, h.flash⟩
  rw [HybridSystem.countVictim]
  split_ifs
  · exact ⟨hnote.tracks, hnote.pages, hnote.dram, hnote.flash⟩
  · exact hnote

@[simp] theorem countVictim_cache (s : HybridSystem σ) (l : CacheLine) :
    (s.countVictim l).cache = s.cache := by
  rw [countVictim]
  split_ifs <;> rfl

section Replace

/-- The pages that are locked with the one of a miss. -/
def missPages (cfg : Config) (s : HybridSystem σ) (addr victim : ℕ) : Finmap fun _ : ℕ => ℕ :=
  if (s.cache victim).valid then
    s.pendingPages.insert (cfg.flashAddress (s.cache victim).tag (cfg.setIndex addr)) 0
  else s.pendingPages

/-- The record of a miss that replaces the page of a line. -/
def missRecord (s : HybridSystem σ) (t : Transaction) (addr victim : ℕ) : Pending :=
  .ofMiss t addr victim (s.cache victim).tag (s.cache victim).valid

/-- A miss begins to read its page. -/
def fetch (cfg : Config) (s : HybridSystem σ) (t : Transaction) (addr victim : ℕ) :
    HybridSystem σ :=
  ({ s with pendingPages := missPages cfg s addr victim }.contentionCacheLineLock cfg
    victim).lineRead cfg (missRecord s t addr victim)

theorem replace_eq (victim : ℕ) :
    s.replace cfg t addr victim =
      if (s.cache victim).dirty then
        (fetch cfg s t addr victim).victimRead cfg (missRecord s t addr victim)
      else some (fetch cfg s t addr victim) := by
  cases hvalid : (s.cache victim).valid <;>
    simp [replace, fetch, missPages, missRecord, hvalid, contentionVictimLock, Pending.ofMiss]

/-- The page of the line begins to be read from DRAM. -/
theorem Represents.victimRead {p : Pending} {fill : Option Bool}
    {rest : Multiset Flight} (h : Represents cfg { s with activeTransaction := none } x)
    (hx : x.flights = .moving p fill false ::ₘ rest) (hop : p.op = .victimRead)
    (hu : s.victimRead cfg p = some u) :
    Represents cfg { u with activeTransaction := none }
      { x with flights := .moving p fill true ::ₘ rest } := by
  obtain ⟨hnot, ⟨⟩⟩ := Option.ite_none_left_eq_some.mp hu
  have htables := hx ▸ h.tables
  have hpages := lists_cons.mp htables.pages
  rw [Flight.pages, Multiset.cons_add] at hpages
  have hp : { p with op := .victimRead } = p := by rw [← hop]
  exact ⟨h.tracks.swap hx rfl, {
    pages := lists_cons.mpr ((entries_contentionIncrement hpages).trans
      (Multiset.cons_add ..).symm)
    dram := by
      rw [hp]
      exact lists_cons.mpr (entries_insert_of_eq hnot
        ((lists_cons_of_eq_zero (by rfl)).mp htables.dram))
    flash := htables.flash.congr Flight.flash_victim }⟩

variable (h : PageLocked cfg s x (cfg.pageAddress (cfg.align t.address))) (hinv : x.Inv cfg)
  (hmiss : x.Misses cfg t line)

include h hmiss in
/-- A cheating prefetch puts its page into the line. -/
theorem PageLocked.cheat (hu : s.cheat cfg (cfg.align t.address) line = some u) :
    Represents cfg { u with activeTransaction := none }
      { x with
        active := none
        contents :=
          update x.contents line (some (cfg.pageAddress (cfg.align t.address))) } := by
  have hpage : cfg.flashAddress (cfg.tag (cfg.pageAddress (cfg.align t.address)))
      (cfg.setIndex line) = cfg.pageAddress (cfg.align t.address) := by
    rw [hmiss.set, ← Config.setIndex_pageAddress, Config.flashAddress_tag,
      Config.pageAddress_pageAddress]
  rw [HybridSystem.cheat] at hu
  refine PageLocked.settle (x := { x with
    contents := update x.contents line (some (cfg.pageAddress (cfg.align t.address))) })
    ?_ hmiss.active hu
  refine ⟨{ h.tracks with
    contents := contents_update.trans ?_
    locks := h.tracks.locks.touch (by rfl) (by rfl) }, h.pages, h.dram, h.flash⟩
  rw [← h.tracks.contents]
  exact congrArg (fun page => update (contents cfg s.cache) line (some page)) hpage

include h hinv hmiss in
/-- The pages that a miss locks. -/
theorem PageLocked.entries_missPages :
    (missPages cfg s (cfg.align t.address) line).entries =
      ⟨cfg.pageAddress (cfg.align t.address), 0⟩ ::ₘ
        ((if (s.cache line).valid then
          {⟨cfg.flashAddress (s.cache line).tag (cfg.setIndex line), 0⟩} else 0) +
            x.flights.bind (Flight.pages cfg)) := by
  rw [missPages]
  by_cases hvalid : (s.cache line).valid = true
  · have hold : x.contents line =
        some (cfg.flashAddress (s.cache line).tag (cfg.setIndex line)) := by
      rw [← h.tracks.contents]
      exact if_pos hvalid
    have hnot : cfg.flashAddress (s.cache line).tag (cfg.setIndex line) ∉ s.pendingPages := by
      intro hmem
      obtain ⟨e, he, hkey⟩ := Multiset.mem_map.mp (Finmap.mem_def.mp hmem)
      rw [h.pages] at he
      rcases Multiset.mem_cons.mp he with rfl | he
      · exact hmiss.absent line hmiss.isLine (hold.trans (congrArg some hkey.symm))
      · obtain ⟨f, hf, he⟩ := Multiset.mem_bind.mp he
        refine hinv.notMem_pageKeys hmiss.isLine hold
          (fun f hf _ => Traffic.users_eq_zero_iff.mp hmiss.unused f hf)
          (Traffic.mem_pageKeys_iff.mpr ⟨f, hf, ?_⟩)
        rw [← Flight.map_fst_pages]
        exact Multiset.mem_map.mpr ⟨e, he, hkey⟩
    rw [if_pos hvalid, if_pos hvalid, ← hmiss.set, Multiset.singleton_add, Multiset.cons_swap]
    exact entries_insert_of_eq hnot h.pages
  · rw [if_neg hvalid, if_neg hvalid, zero_add]
    exact h.pages

include h hinv hmiss in
/-- A miss begins to move its page. -/
theorem PageLocked.replace (hu : s.replace cfg t (cfg.align t.address) line = some u) :
    Represents cfg { u with activeTransaction := none }
      { x with
        active := none
        flights := .moving (missRecord s t (cfg.align t.address) line) (some false)
          (s.cache line).dirty ::ₘ x.flights } := by
  have hflash : cfg.pageAddress (cfg.align t.address) ∉ s.flashPending := fun hmem => by
    obtain ⟨f, hf, p, hkey⟩ := h.flash.exists_of_mem hmem
    exact hinv.active t hmiss.active
      (Traffic.mem_pageKeys_iff.mpr ⟨f, hf, Flight.mem_pageKeys_of_flash hkey⟩)
  have hpages := entries_contentionIncrement (s := { s with pendingPages := _ })
    (h.entries_missPages hinv hmiss)
  rw [← Multiset.cons_add] at hpages
  have hread : Represents cfg
      { fetch cfg s t (cfg.align t.address) line with activeTransaction := none }
      { x with
        active := none
        flights := .moving (missRecord s t (cfg.align t.address) line) (some false) false
          ::ₘ x.flights } :=
    ⟨h.tracks.lock hmiss.active rfl, {
      pages := lists_cons.mpr hpages
      dram := (lists_cons_of_eq_zero (by rfl)).mpr h.dram
      flash := lists_cons.mpr (entries_insert_of_eq hflash h.flash) }⟩
  rw [replace_eq] at hu
  cases hdirty : (s.cache line).dirty with
  | true =>
    rw [if_pos hdirty] at hu
    exact hread.victimRead rfl rfl hu
  | false =>
    rw [if_neg (by simp [hdirty])] at hu
    exact Option.some.inj hu ▸ hread

end Replace

section Simulation

/-- A line that is not locked is not used. -/
theorem Tracks.users_of_unlocked (h : Tracks cfg s.view x)
    (hline : (s.cache line).locked = false) : x.users line = 0 := by
  have hcount := h.locks.locked line
  rw [h.locks.lockCount] at hcount
  exact not_not.mp (of_decide_eq_false (hcount.symm.trans hline))

/-- A miss evicts an unlocked line. -/
theorem PageLocked.evict (h : PageLocked cfg s x (cfg.pageAddress (cfg.align t.address)))
    (hinv : x.Inv cfg) (hactive : x.active = some t)
    (htype : t.transactionType = .dataRead ∨ t.transactionType = .dataWrite ∨
      t.transactionType = .prefetch)
    (habsent : ∀ l, cfg.IsLine l → x.contents l ≠ some (cfg.pageAddress (cfg.align t.address)))
    (hroom : ∃ a ∈ cfg.setAddresses (cfg.setIndex (cfg.align t.address)),
      (s.cache a).locked = false)
    (hu : s.evict cfg t (cfg.align t.address) = some u) :
    ∃ y, x.Step cfg y ∧ Represents cfg { u with activeTransaction := none } y := by
  obtain ⟨hmem, hunlocked⟩ := selectVictim_spec hroom
  rw [HybridSystem.evict] at hu
  generalize selectVictim s.cache (cfg.setAddresses (cfg.setIndex (cfg.align t.address))) = line
    at hmem hunlocked hu
  have hmiss : x.Misses cfg t line :=
    ⟨hactive, Config.isLine_of_mem (cfg.setIndex_lt _) hmem,
      Config.setIndex_of_mem (cfg.setIndex_lt _) hmem, habsent,
      h.tracks.users_of_unlocked hunlocked⟩
  have hold : x.contents line = if (s.cache line).valid then
      some (cfg.flashAddress (s.cache line).tag (cfg.setIndex line)) else none := by
    rw [← h.tracks.contents]
    rfl
  have hcount := h.countVictim (cfg.align t.address) line
    (decide (t.transactionType = .prefetch ∧
      s.prefetchCheatMap (cfg.pageAddress (cfg.align t.address)) ≠ 0)) (s.cache line)
  split_ifs at hu with hcheat
  · exact ⟨_, .cheat t line hmiss hcheat.1, hcount.cheat hmiss hu⟩
  · have hrep := hcount.replace hinv hmiss hu
    rw [missRecord, countVictim_cache] at hrep
    exact ⟨_, .miss t line (s.cache line).tag (s.cache line).valid _ hmiss htype hold, hrep⟩

/-- The handler of the prefetcher could be called before the line is locked. -/
theorem handle_contentionCacheLineLock (s : HybridSystem σ) (line : ℕ) (out : σ × List ℕ) :
    (s.contentionCacheLineLock cfg line).handle out =
      (s.handle out).contentionCacheLineLock cfg line :=
  handle_comm (fun s => s.contentionCacheLineLock cfg line) out (fun _ _ => rfl) rfl

/-- The handler of the prefetcher could be called before the page is locked. -/
theorem handle_contentionPageLock (s : HybridSystem σ) (addr : ℕ) (out : σ × List ℕ) :
    (s.contentionPageLock cfg addr).handle out = (s.handle out).contentionPageLock cfg addr :=
  handle_comm (fun s => s.contentionPageLock cfg addr) out (fun _ _ => rfl) rfl

/-- **Hits.** -/
theorem Represents.processHit (h : Represents cfg s x) (hinv : x.Inv cfg)
    (hactive : x.active = some t) (hplain : t.IsPlain)
    (hline : s.hitLine cfg (cfg.align t.address) = some line)
    (hu : s.processHit cfg pf t (cfg.align t.address) line = some u) :
    x.Reaches cfg { u with activeTransaction := none } := by
  obtain ⟨hmem, hcontents⟩ := hitLine_eq_some hline
  have hit : x.Hits cfg t line := ⟨hactive, Config.isLine_of_mem (cfg.setIndex_lt _) hmem,
    Config.setIndex_of_mem (cfg.setIndex_lt _) hmem, h.tracks.contents ▸ hcontents⟩
  simp only [HybridSystem.processHit, handle_contentionCacheLineLock] at hu
  split at hu
  · rename_i htype
    obtain ⟨queue, hsteps, hrep⟩ := h.handle _
    exact ⟨_, hsteps.tail (.read t line { hit with } htype), hrep.readHit { hit with } hu⟩
  · rename_i htype
    obtain ⟨queue, hsteps, hrep⟩ := h.handle _
    exact ⟨_, hsteps.tail (.write t hactive htype),
      hrep.writeHit (hinv.congr rfl rfl rfl) { hit with } hu⟩
  · rename_i htype
    exact ⟨_, .single (.settle t hactive (Or.inr htype)), h.flushHit hinv hit hu⟩
  · rename_i htype
    exact ⟨_, .single (.settle t hactive (Or.inl htype)), h.prefetchHit hinv hit hu⟩
  · rename_i htype
    exact absurd htype hplain.1
  · contradiction

/-- **Misses.** -/
theorem Represents.processMiss (h : Represents cfg s x) (hinv : x.Inv cfg)
    (hactive : x.active = some t) (hplain : t.IsPlain)
    (hline : s.hitLine cfg (cfg.align t.address) = none)
    (hroom : ∃ a ∈ cfg.setAddresses (cfg.setIndex (cfg.align t.address)),
      (s.cache a).locked = false)
    (hu : s.processMiss cfg pf t (cfg.align t.address) = some u) :
    x.Reaches cfg { u with activeTransaction := none } := by
  have habsent : ∀ l, cfg.IsLine l →
      x.contents l ≠ some (cfg.pageAddress (cfg.align t.address)) :=
    h.tracks.contents ▸ hitLine_eq_none hline
  have hpage := hinv.active t hactive
  have hdata : ∀ {out : σ × List ℕ}, t.transactionType = .dataRead ∨
        t.transactionType = .dataWrite ∨ t.transactionType = .prefetch →
      ((s.handle out).contentionPageLock cfg (cfg.align t.address)).evict cfg t
        (cfg.align t.address) = some u →
      x.Reaches cfg { u with activeTransaction := none } := by
    intro out htype hu
    obtain ⟨queue, hsteps, hrep⟩ := h.handle out
    obtain ⟨y, hstep, hy⟩ := (hrep.pageLock hpage).evict (hinv.congr rfl rfl rfl) hactive htype
      habsent (by rw [contentionPageLock, handle_cache]; exact hroom) hu
    exact ⟨y, hsteps.tail hstep, hy⟩
  simp only [HybridSystem.processMiss, handle_contentionPageLock] at hu
  split at hu
  · rename_i htype
    exact ⟨_, .single (.settle t hactive (Or.inr htype)), (h.pageLock hpage).settle hactive hu⟩
  · contradiction
  · rename_i htype
    obtain ⟨y, hstep, hrep⟩ := (h.pageLock hpage).evict hinv hactive (Or.inr (Or.inr htype))
      habsent hroom hu
    exact ⟨y, .single hstep, hrep⟩
  · rename_i htype
    exact hdata (Or.inl htype) hu
  · rename_i htype
    exact hdata (Or.inr (Or.inl htype)) hu
  · rename_i htype
    exact absurd htype hplain.2

/-- **Processing.** A transaction that is processed takes steps of the traffic, if there is an
unlocked line in its set. -/
theorem Represents.processTransaction (h : Represents cfg s x) (hinv : x.Inv cfg)
    (hactive : x.active = some t) (hplain : t.IsPlain)
    (hroom : ∃ a ∈ cfg.setAddresses (cfg.setIndex (cfg.align t.address)),
      (s.cache a).locked = false)
    (hu : s.processTransaction cfg pf t = some u) :
    x.Reaches cfg { u with activeTransaction := none } := by
  simp only [HybridSystem.processTransaction] at hu
  rw [if_neg hplain.2] at hu
  split_ifs at hu
  split at hu
  · rename_i line hline
    exact h.processHit hinv hactive hplain hline hu
  · rename_i hline
    exact h.processMiss hinv hactive hplain hline hroom hu

end Simulation

end HybridMemory.HybridSim

import HybridMemory.HybridSim.Answers

/-!
# `SYNC_ALL`

A counter goes over the lines of the cache and queues a `SYNC` for the page of each dirty line,
which reads the line like a victim and makes it clean. `SYNC` asserts that its page is in the
cache and the line dirty, but nothing locks the page from the moment the `SYNC` is queued until it
is started.

* `Duties.Sound`: each `SYNC` that waits has a dirty line of its own, which the counter has passed.
  Counters and `SYNC`s keep this up among themselves;
* `sync_finds_page`: so a `SYNC_ALL` that is alone fails no assertion;
* `sync_misses`: but a page that is being replaced when the counter passes its line is gone when
  its `SYNC` is started.
-/

namespace HybridMemory.HybridSim

open HybridSystem Function

/-! ### Addresses of lines and pages -/

namespace Config

variable {cfg : Config} {line k : ℕ}

theorem align_mul (h : k * cfg.pageSize < cfg.totalPages * cfg.pageSize) :
    cfg.align (k * cfg.pageSize) = k * cfg.pageSize := by
  rw [align, Nat.div_mul_cancel (cfg.burstSize_dvd.mul_left k), Nat.mod_eq_of_lt h]

/-- A line is one of the pages of the cache. -/
theorem IsLine.exists_mul (h : cfg.IsLine line) :
    ∃ k < cfg.cachePages, k * cfg.pageSize = line := by
  obtain ⟨i, hi, heq⟩ := mem_setAddresses_iff.mp h
  refine ⟨i * cfg.numSets + cfg.setIndex line, ?_, heq⟩
  calc i * cfg.numSets + cfg.setIndex line
    _ < (i + 1) * cfg.numSets := by
      rw [Nat.add_one_mul]
      exact Nat.add_lt_add_left (cfg.setIndex_lt line) _
    _ ≤ cfg.setSize * cfg.numSets := Nat.mul_le_mul_right _ hi
    _ ≤ cfg.cachePages := Nat.mul_div_le _ _

/-- If the sets use up the cache, its pages are lines. -/
theorem isLine_mul (hsets : cfg.setSize ∣ cfg.cachePages) (h : k < cfg.cachePages) :
    cfg.IsLine (k * cfg.pageSize) := by
  have hset : cfg.setIndex (k * cfg.pageSize) = k % cfg.numSets := by
    rw [setIndex, Nat.mul_div_cancel _ cfg.pageSize_pos]
  refine mem_setAddresses_iff.mpr ⟨k / cfg.numSets, ?_, ?_⟩
  · refine Nat.div_lt_of_lt_mul ?_
    rwa [Nat.mul_comm, numSets, Nat.mul_div_cancel' hsets]
  · rw [hset, Nat.div_add_mod']

end Config

/-! ### Pages of the address space -/

/-- The lines hold pages of the address space. -/
def InSpace (cfg : Config) (contents : ℕ → Option ℕ) : Prop :=
  ∀ line page, contents line = some page → page < cfg.totalPages * cfg.pageSize

section InSpace

variable {cfg : Config} {contents : ℕ → Option ℕ} {x y : Traffic}

theorem InSpace.update (h : InSpace cfg contents) (line : ℕ) {page : ℕ}
    (hpage : page < cfg.totalPages * cfg.pageSize) :
    InSpace cfg (update contents line (some page)) := by
  intro l q hq
  rw [update_apply] at hq
  split_ifs at hq
  · exact Option.some.inj hq ▸ hpage
  · exact h l q hq

theorem inSpace_prefill (h : cfg.cachePages ≤ cfg.totalPages) :
    InSpace cfg (HybridSim.contents cfg (prefill cfg)) := by
  intro line page hpage
  obtain ⟨rfl, hline⟩ := contents_prefill hpage
  exact (Nat.div_lt_iff_lt_mul cfg.pageSize_pos).mp (hline.trans_le h)

/-- The pages that are in the cache or on the way to it are in the address space. -/
structure Traffic.InSpace (cfg : Config) (x : Traffic) : Prop where
  lines : HybridSim.InSpace cfg x.contents
  flights : ∀ f ∈ x.flights, f.pending.page cfg < cfg.totalPages * cfg.pageSize

theorem pageAddress_align_lt (cfg : Config) (a : ℕ) :
    cfg.pageAddress (cfg.align a) < cfg.totalPages * cfg.pageSize :=
  (Nat.div_mul_le_self _ _).trans_lt
    (Nat.mod_lt _ (Nat.mul_pos cfg.totalPages_pos cfg.pageSize_pos))

theorem Traffic.InSpace.proceed (h : x.InSpace cfg) {rest : Multiset Flight} {p : Pending}
    (hp : p.page cfg < cfg.totalPages * cfg.pageSize)
    (hrest : ∀ f ∈ rest, f.pending.page cfg < cfg.totalPages * cfg.pageSize) (fill : Option Bool)
    (victim : Bool) : (x.proceed rest p fill victim).InSpace cfg := by
  have hmoving : InSpace cfg { x with flights := .moving p fill victim ::ₘ rest } :=
    ⟨h.lines, Multiset.forall_mem_cons.mpr ⟨hp, hrest⟩⟩
  rcases fill with _ | sent
  · cases victim with
    | false => exact ⟨h.lines, hrest⟩
    | true => exact hmoving
  · rwa [proceed_of_fill]

theorem Traffic.InSpace.step (h : x.InSpace cfg) (hstep : x.Step cfg y) : y.InSpace cfg := by
  have hcons : ∀ {f rest}, x.flights = f ::ₘ rest →
      f.pending.page cfg < cfg.totalPages * cfg.pageSize ∧
        ∀ g ∈ rest, g.pending.page cfg < cfg.totalPages * cfg.pageSize :=
    fun hx => Multiset.forall_mem_cons.mp (hx ▸ h.flights)
  cases hstep with
  | accept | drop | push | activate | settle | write => exact ⟨h.lines, h.flights⟩
  | cheat t line => exact ⟨h.lines.update line (pageAddress_align_lt cfg _), h.flights⟩
  | read t | miss t =>
    exact ⟨h.lines, Multiset.forall_mem_cons.mpr ⟨pageAddress_align_lt cfg _, h.flights⟩⟩
  | readDone p rest hx => exact ⟨h.lines, (hcons hx).2⟩
  | critical p victim rest hx =>
    exact ⟨h.lines, Multiset.forall_mem_cons.mpr ⟨(hcons hx).1, (hcons hx).2⟩⟩
  | victimDone p fill rest hx => exact h.proceed (hcons hx).1 (hcons hx).2 fill false
  | fillDone p sent victim rest hx =>
    exact ⟨h.lines.update _ (hcons hx).1, (h.proceed (hcons hx).1 (hcons hx).2 none victim).flights⟩

end InSpace

/-! ### What is due -/

/-- What the `SYNC`s depend on: the pages of the lines, which lines are dirty, which transactions
are active or wait, and which pages are read from flash. -/
structure Duties where
  contents : ℕ → Option ℕ
  dirty : ℕ → Bool
  active : Option Transaction
  queue : List Transaction
  flash : Finmap fun _ : ℕ => Pending

namespace Duties

variable (cfg : Config)

/-- The transactions that are active or wait. -/
def requested (d : Duties) : List Transaction := d.active.toList ++ d.queue

/-- The transaction is a `SYNC` of the page in a dirty line, which the counter has passed. -/
def Due (n : ℕ) (d : Duties) (t : Transaction) : Prop :=
  t.transactionType = .sync ∧
    ∃ line < n, cfg.IsLine line ∧ d.dirty line = true ∧ d.contents line = some t.address

/-- The transactions are the counter and `SYNC`s that are due, each once. -/
structure Sound (n : ℕ) (d : Duties) : Prop where
  unique : Unique cfg d.contents
  inSpace : InSpace cfg d.contents
  flash : d.flash = ∅
  counter : ⟨.syncAllCounter, n⟩ ∈ d.requested → cfg.IsLine n
  due : ∀ t ∈ d.requested, t = ⟨.syncAllCounter, n⟩ ∨ d.Due cfg n t
  nodup : d.requested.Nodup

variable {cfg} {n : ℕ} {d : Duties} {t : Transaction}

theorem Sound.activate {rest : List Transaction} (h : d.Sound cfg n) (hactive : d.active = none)
    (hqueue : d.queue.Perm (t :: rest)) :
    Sound cfg n { d with active := some t, queue := rest } := by
  have hperm : d.requested.Perm (t :: rest) := by
    rw [requested, hactive]
    exact hqueue
  exact { h with
    counter := fun hmem => h.counter (hperm.mem_iff.mpr hmem)
    due := fun t ht => h.due t (hperm.mem_iff.mpr ht)
    nodup := hperm.nodup_iff.mp h.nodup }

/-- The transactions that wait are not the active one. -/
theorem Sound.of_active (h : d.Sound cfg n) (hactive : d.active = some t) :
    t ∉ d.queue ∧ d.queue.Nodup ∧ ∀ t' ∈ d.queue, t' = ⟨.syncAllCounter, n⟩ ∨ d.Due cfg n t' := by
  have hrequested : d.requested = t :: d.queue := by rw [requested, hactive]; rfl
  have hnodup := List.nodup_cons.mp (hrequested ▸ h.nodup)
  refine ⟨hnodup.1, hnodup.2, fun t' ht' => h.due t' ?_⟩
  rw [hrequested]
  exact List.mem_cons_of_mem t ht'

/-- A `SYNC` makes its line clean, which is no other's. -/
theorem Sound.sync {line : ℕ} (h : d.Sound cfg n) (hactive : d.active = some t)
    (htype : t.transactionType = .sync) (hpage : d.contents line = some t.address) :
    Sound cfg n { d with active := none, dirty := update d.dirty line false } := by
  obtain ⟨hnot, hnodup, hdue⟩ := h.of_active hactive
  refine { h with
    counter := fun hmem => h.counter (List.mem_append_right _ hmem)
    due := fun t' ht' => (hdue t' ht').imp_right ?_
    nodup := hnodup }
  rintro ⟨htype', line', hlt, hline', hdirty, hpage'⟩
  refine ⟨htype', line', hlt, hline', ?_, hpage'⟩
  have hne : line' ≠ line := by
    rintro rfl
    obtain ⟨type, address⟩ := t
    obtain ⟨type', address'⟩ := t'
    obtain rfl : type = .sync := htype
    obtain rfl : type' = .sync := htype'
    obtain rfl : address = address' := Option.some.inj (hpage.symm.trans hpage')
    exact hnot ht'
  exact (update_of_ne hne _ _).trans hdirty

/-- The counter goes on, and the page of its line becomes due if the line is dirty. -/
theorem Sound.count {syncs counters : List Transaction} (h : d.Sound cfg n)
    (hactive : d.active = some ⟨.syncAllCounter, n⟩)
    (hsyncs : syncs = [] ∨ ∃ page, syncs = [⟨.sync, page⟩] ∧ d.dirty n = true ∧
      d.contents n = some page)
    (hcounters : counters = [] ∨ counters = [⟨.syncAllCounter, n + cfg.pageSize⟩] ∧
      cfg.IsLine (n + cfg.pageSize)) :
    Sound cfg (n + cfg.pageSize)
      { d with active := none, queue := syncs ++ (counters ++ d.queue) } := by
  obtain ⟨hnot, hnodup, hdue⟩ := h.of_active hactive
  have hline : cfg.IsLine n := by
    refine h.counter ?_
    rw [requested, hactive]
    exact List.mem_cons_self
  have hlt : n < n + cfg.pageSize := Nat.lt_add_of_pos_right cfg.pageSize_pos
  have hqueue : ∀ t ∈ d.queue, d.Due cfg n t := fun t ht =>
    (hdue t ht).resolve_left fun heq => hnot (heq ▸ ht)
  have hcounter : (⟨.syncAllCounter, n + cfg.pageSize⟩ : Transaction) ∉ d.queue := fun hmem => by
    cases (hqueue _ hmem).1
  -- a page that is due already is in a line that was passed before
  have hsync : ∀ page, d.contents n = some page → (⟨.sync, page⟩ : Transaction) ∉ d.queue := by
    intro page hpage hmem
    obtain ⟨-, line, hbelow, hline', -, hpage'⟩ := hqueue _ hmem
    exact hbelow.ne (h.unique line n page hline' hline hpage' hpage)
  refine ⟨h.unique, h.inSpace, h.flash, fun hmem => ?_, fun t ht => ?_, ?_⟩
  · rcases hcounters with rfl | ⟨-, hnext⟩
    · rcases hsyncs with rfl | ⟨page, rfl, -⟩ <;> simp [requested, hcounter] at hmem
    · exact hnext
  · change t ∈ syncs ++ (counters ++ d.queue) at ht
    rcases List.mem_append.mp ht with ht | ht
    · rcases hsyncs with rfl | ⟨page, rfl, hdirty, hpage⟩
      · cases ht
      · obtain rfl := List.mem_singleton.mp ht
        exact Or.inr ⟨rfl, n, hlt, hline, hdirty, hpage⟩
    · rcases List.mem_append.mp ht with ht | ht
      · rcases hcounters with rfl | ⟨rfl, -⟩
        · cases ht
        · exact Or.inl (List.mem_singleton.mp ht)
      · obtain ⟨htype, line, hbelow, hrest⟩ := hqueue t ht
        exact Or.inr ⟨htype, line, hbelow.trans hlt, hrest⟩
  · rcases hsyncs with rfl | ⟨page, rfl, -, hpage⟩ <;> rcases hcounters with rfl | ⟨rfl, -⟩
    · exact hnodup
    · exact List.nodup_cons.mpr ⟨hcounter, hnodup⟩
    · exact List.nodup_cons.mpr ⟨hsync page hpage, hnodup⟩
    · simpa [requested, hcounter, hsync page hpage] using hnodup

end Duties

/-! ### The controller -/

section Controller

variable {σ : Type} {cfg : Config} {pf : Prefetcher σ} {s u : HybridSystem σ} {p : Pending}
  {t : Transaction} {n a line : ℕ}

def HybridSystem.duties (cfg : Config) (s : HybridSystem σ) : Duties :=
  ⟨contents cfg s.cache, dirtyLines s.cache, s.activeTransaction, s.transQueue, s.flashPending⟩

theorem dirtyLines_update {cache : ℕ → CacheLine} {l : CacheLine} :
    dirtyLines (update cache line l) = update (dirtyLines cache) line l.dirty := by
  funext a
  by_cases ha : a = line
  · rw [ha, dirtyLines, update_self, update_self]
  · rw [dirtyLines, update_of_ne ha, update_of_ne ha, dirtyLines]

theorem duties_contentionUnlock {victimValid lineValid : Bool} {victimPage : ℕ}
    (h : s.contentionUnlock cfg a victimValid victimPage lineValid line = some u) :
    u.duties cfg = s.duties cfg := by
  rcases contentionUnlock_cases h with rfl | ⟨pages, rfl⟩
  · rfl
  · cases lineValid with
    | false => rfl
    | true =>
      have hdirty : dirtyLines (update s.cache line (s.cache line).unlock) = dirtyLines s.cache :=
        dirtyLines_update.trans (update_eq_self line (dirtyLines s.cache))
      simp only [duties, release, contentionCacheLineUnlock, if_true, contents_unlock, hdirty]

theorem duties_dramReadCallback (h : s.dramReadCallback cfg a = some u) :
    u.duties cfg = s.duties cfg := by
  simp only [dramReadCallback] at h
  split at h
  · contradiction
  · split at h
    · simp only [victimReadFinish] at h
      split at h
      · exact Option.some.inj h ▸ rfl
      · obtain ⟨v, hv, rfl⟩ := Option.map_eq_some_iff.mp h
        exact (duties_contentionUnlock hv :)
    · refine (duties_contentionUnlock h).trans ?_
      split <;> rfl
    all_goals contradiction

namespace Duties

/-- A page that is due is found in a dirty line. -/
theorem Sound.hitLine (h : (s.duties cfg).Sound cfg n) (hdue : (s.duties cfg).Due cfg n t) :
    cfg.align t.address = t.address ∧ ∃ line, s.hitLine cfg t.address = some line ∧
      (s.cache line).dirty = true ∧ HybridSim.contents cfg s.cache line = some t.address := by
  obtain ⟨-, line, -, hline, hdirty, hpage⟩ := hdue
  obtain ⟨-, hmul⟩ := Option.ite_none_right_eq_some.mp hpage
  rw [Option.some.injEq, Config.flashAddress] at hmul
  have halign : cfg.align t.address = t.address := by
    rw [← hmul]
    exact Config.align_mul (hmul ▸ h.inSpace line _ hpage)
  have hself : cfg.pageAddress t.address = t.address := by
    rw [← hmul]
    exact Config.pageAddress_mul _
  refine ⟨halign, ?_⟩
  cases hhit : s.hitLine cfg t.address with
  | none => exact absurd (hself.symm ▸ hpage) (hitLine_eq_none hhit line hline)
  | some line' =>
    obtain ⟨hmem, hholds⟩ := hitLine_eq_some hhit
    rw [hself] at hholds
    obtain rfl := h.unique line line' _ hline (Config.isLine_of_mem (cfg.setIndex_lt _) hmem)
      hpage hholds
    exact ⟨line, rfl, hdirty, hpage⟩

theorem Sound.processSync (h : (s.duties cfg).Sound cfg n) (hactive : s.activeTransaction = some t)
    (hdue : (s.duties cfg).Due cfg n t) (hu : s.processTransaction cfg pf t = some u) :
    ({ u with activeTransaction := none }.duties cfg).Sound cfg n := by
  obtain ⟨halign, line, hhit, -, hpage⟩ := h.hitLine hdue
  have htype := hdue.1
  simp only [processTransaction, htype, reduceCtorEq, if_false, halign, hhit] at hu
  split at hu
  · contradiction
  · simp only [processHit, htype] at hu
    obtain ⟨-, hu⟩ := Option.ite_none_right_eq_some.mp hu
    obtain ⟨v, hv, rfl⟩ := Option.map_eq_some_iff.mp hu
    obtain ⟨-, ⟨⟩⟩ := Option.ite_none_left_eq_some.mp hv
    have hsync := h.sync hactive htype hpage
    convert hsync using 1
    simp only [duties, contentionIncrement, contentionCacheLineLock, record, update_idem,
      dirtyLines_update, update_self]
    rw [contents_touch (by rfl) (by rfl)]

/-- What the counter queues for a line. -/
theorem duties_syncLine (cfg : Config) (s : HybridSystem σ) (a : ℕ) :
    ∃ syncs, (syncs = [] ∨ ∃ page, syncs = [⟨.sync, page⟩] ∧ (s.cache a).dirty = true ∧
        HybridSim.contents cfg s.cache a = some page) ∧
      (s.syncLine cfg a).duties cfg = { s.duties cfg with queue := syncs ++ s.transQueue } := by
  simp only [syncLine]
  split
  · next hdirty => exact ⟨_, Or.inr ⟨_, rfl, hdirty.2, if_pos hdirty.1⟩, rfl⟩
  · exact ⟨[], Or.inl rfl, rfl⟩

theorem Sound.processCounter (hsets : cfg.setSize ∣ cfg.cachePages)
    (hspace : cfg.cachePages ≤ cfg.totalPages) (h : (s.duties cfg).Sound cfg n)
    (hactive : s.activeTransaction = some ⟨.syncAllCounter, n⟩)
    (hu : s.processTransaction cfg pf ⟨.syncAllCounter, n⟩ = some u) :
    ({ u with activeTransaction := none }.duties cfg).Sound cfg (n + cfg.pageSize) := by
  have hline : cfg.IsLine n := h.counter (List.mem_append_left _ (by simp [duties, hactive]))
  obtain ⟨k, hk, hmul⟩ := hline.exists_mul
  have halign : cfg.align n = n := by
    rw [← hmul]
    exact Config.align_mul (Nat.mul_lt_mul_of_pos_right (hk.trans_le hspace) cfg.pageSize_pos)
  have hend : ∀ d, u.duties cfg = d → Sound cfg (n + cfg.pageSize) { d with active := none } →
      ({ u with activeTransaction := none }.duties cfg).Sound cfg (n + cfg.pageSize) := by
    rintro d rfl hd
    exact hd
  rw [processTransaction, if_pos rfl, halign] at hu
  simp only [syncAllCounter] at hu
  split_ifs at hu with hmore
  · obtain ⟨syncs, hsyncs, heq⟩ := duties_syncLine cfg
      (s.addSyncCounter (n + cfg.pageSize) false) n
    have hnext : cfg.IsLine (n + cfg.pageSize) := by
      rw [← hmul, ← Nat.add_one_mul] at hmore ⊢
      exact Config.isLine_mul hsets (Nat.lt_of_mul_lt_mul_right hmore)
    exact hend _ ((duties_contentionUnlock hu).trans heq)
      (h.count hactive hsyncs (Or.inr ⟨rfl, hnext⟩))
  · obtain ⟨syncs, hsyncs, heq⟩ := duties_syncLine cfg s n
    exact hend _ ((duties_contentionUnlock hu).trans heq) (h.count hactive hsyncs (Or.inl rfl))

theorem Sound.update {dramAccepts flashAccepts : Bool} (hsets : cfg.setSize ∣ cfg.cachePages)
    (hspace : cfg.cachePages ≤ cfg.totalPages) (h : (s.duties cfg).Sound cfg n)
    (hu : s.update cfg pf dramAccepts flashAccepts = some u) :
    ∃ n, (u.duties cfg).Sound cfg n := by
  refine update_induction (P := fun v => ∃ n, (v.duties cfg).Sound cfg n) ?_ ?_ ?_ ⟨n, h⟩ hu
  · rintro v t w ⟨n, hn⟩ hactive - hw
    rcases hn.due t (List.mem_append_left _ (by simp [duties, hactive])) with rfl | hdue
    · exact ⟨_, hn.processCounter hsets hspace hactive hw⟩
    · exact ⟨n, hn.processSync hactive hdue hw⟩
  · rintro v t rest ⟨n, hn⟩ hnone hperm -
    exact ⟨n, hn.activate hnone hperm⟩
  · rintro v _ _ _ _ _ _ ⟨n, hn⟩
    exact ⟨n, hn⟩

end Duties

/-- The action is not one of the user. -/
def HybridSystem.Action.IsInternal : Action → Prop
  | .addTransaction _ _ | .addPrefetch _ | .addFlush _ | .mmio _ _ => False
  | .update _ _ | .step | .dramReadCallback _ | .dramWriteCallback _ | .flashReadCallback _ _
  | .flashCriticalLineCallback _ | .flashWriteCallback _ => True

theorem Duties.Sound.next {action : Action} (haction : action.IsInternal)
    (hsets : cfg.setSize ∣ cfg.cachePages) (hspace : cfg.cachePages ≤ cfg.totalPages)
    (h : (s.duties cfg).Sound cfg n) (hu : s.next cfg pf action = some u) :
    ∃ n, (u.duties cfg).Sound cfg n := by
  obtain ⟨-, hu⟩ := Option.ite_none_right_eq_some.mp hu
  have hflash : s.flashPending = ∅ := h.flash
  cases action with
  | addTransaction | addPrefetch | addFlush | mmio => cases haction
  | update dramAccepts flashAccepts => exact h.update hsets hspace hu
  | dramReadCallback addr => exact ⟨n, duties_dramReadCallback hu ▸ h⟩
  | flashReadCallback addr critical =>
    simp [perform, flashReadCallback, hflash] at hu
  | flashCriticalLineCallback addr =>
    simp [perform, flashCriticalLineCallback, hflash] at hu
  | step | dramWriteCallback addr | flashWriteCallback addr =>
    exact ⟨n, Option.some.inj hu ▸ h⟩

end Controller

/-! ### Runs -/

namespace HybridSystem

open Transition

variable {σ : Type}

/-- **`SYNC_ALL` alone.** If nothing waits or is under way when `SYNC_ALL` is called, and nothing
else is asked for afterwards, every `SYNC` that waits or is active finds its page in a dirty
line. -/
theorem sync_finds_page (cfg : Config) (hsets : cfg.setSize ∣ cfg.cachePages)
    (hspace : cfg.cachePages ≤ cfg.totalPages) (pf : Prefetcher σ) (cache : ℕ → CacheLine)
    (prefetcher : σ) (hcache : Fresh cfg cache) (hpages : InSpace cfg (contents cfg cache))
    (before after : List Action) (hbefore : ∀ address, Action.mmio 1 address ∉ before)
    (hafter : ∀ a ∈ after, a.IsInternal) (address : ℕ) (s₀ s : HybridSystem σ)
    (h₀ : Run (Steps (next cfg pf)) (init cache prefetcher) before s₀)
    (hidle : s₀.transQueue = [] ∧ s₀.activeTransaction = none ∧ s₀.underWay cfg = 0)
    (h : Run (Steps (next cfg pf)) s₀ (.mmio 1 address :: after) s) (t : Transaction)
    (ht : t ∈ s.transQueue ∨ s.activeTransaction = some t) (htype : t.transactionType = .sync) :
    ∃ line, s.hitLine cfg (cfg.align t.address) = some line ∧ (s.cache line).dirty = true ∧
      cfg.flashAddress (s.cache line).tag (cfg.setIndex line) = cfg.align t.address := by
  obtain ⟨x, hrep, hvalid, hx⟩ := does_of_run (J := Traffic.InSpace cfg) hcache hbefore
    ⟨hpages, fun f hf => absurd hf (Multiset.notMem_zero f)⟩
    (fun x y _ hx hstep => hx.step hstep) h₀
  obtain ⟨hqueue, hactive, hzero⟩ := hidle
  have hnone : x.flights = 0 :=
    Multiset.card_eq_zero.mp ((hrep.card_flights hvalid.inv).symm.trans hzero)
  obtain ⟨s₁, hstep, hrun⟩ := h
  obtain rfl : s₀.syncAll = s₁ := Option.some.inj hstep
  have hstart : (s₀.syncAll.duties cfg).Sound cfg 0 := by
    have hrequested : (s₀.syncAll.duties cfg).requested = [⟨.syncAllCounter, 0⟩] := by
      simp [Duties.requested, duties, syncAll, addSyncCounter, pushBack, hqueue, hactive]
    have hcontents : (s₀.syncAll.duties cfg).contents = x.contents := hrep.tracks.contents
    refine ⟨?_, ?_, ?_, fun _ => ?_, fun t ht => ?_, ?_⟩
    · exact hcontents.symm ▸ hvalid.inv.unique
    · exact hcontents.symm ▸ hx.lines
    · refine Finmap.ext (hrep.tables.flash.trans ?_)
      rw [hnone]
      rfl
    · exact Nat.zero_mul cfg.pageSize ▸
        Config.isLine_mul hsets (cfg.setSize_pos.trans_le cfg.setSize_le)
    · exact Or.inl (List.mem_singleton.mp (hrequested ▸ ht))
    · exact hrequested ▸ List.nodup_singleton _
  obtain ⟨n, hn⟩ : ∃ n, (s.duties cfg).Sound cfg n := by
    refine (run_guarded_iff_forall.mpr ⟨hrun, hafter⟩).invariant
      (P := fun s => ∃ n, (s.duties cfg).Sound cfg n) ⟨0, hstart⟩ ?_
    rintro v a w ⟨n, hn⟩ hstep
    exact hn.next hstep.1 hsets hspace hstep.2
  have hmem : t ∈ (s.duties cfg).requested := by
    rw [Duties.requested, List.mem_append, Option.mem_toList]
    exact ht.symm
  rcases hn.due t hmem with rfl | hdue
  · cases htype
  · obtain ⟨halign, line, hhit, hdirty, hholds⟩ := hn.hitLine hdue
    rw [halign]
    exact ⟨line, hhit, hdirty, Option.some.inj (Option.ite_none_right_eq_some.mp hholds).2⟩

/-- One page is written, then all are synced. -/
theorem sync_finds_page_written :
    ∃ s, Run (Steps smallNext) smallInit
        ([.addTransaction true 0, .update true true, .update true true] ++
          [.mmio 1 0, .update true true, .update true true]) s ∧
      s.activeTransaction = some ⟨.sync, 0⟩ ∧
      ∃ line, s.hitLine smallCache 0 = some line ∧ (s.cache line).dirty = true := by
  refine exists_run_imp (fun s => s.activeTransaction = some ⟨.sync, 0⟩) (by decide +kernel)
    fun s hrun hs => ⟨hs, ?_⟩
  obtain ⟨s₀, h₀, h⟩ := run_append.mp hrun
  obtain ⟨s₁, h₁, hidle⟩ : ∃ s, Run (Steps smallNext) smallInit
        [.addTransaction true 0, .update true true, .update true true] s ∧
      s.transQueue = [] ∧ s.activeTransaction = none ∧ s.underWay smallCache = 0 :=
    exists_run (by decide +kernel)
  obtain ⟨line, hhit, hdirty, -⟩ := sync_finds_page smallCache (by decide) (by decide)
    (streamBuffer smallCache) (prefill smallCache) {} (fresh_prefill smallCache)
    (inSpace_prefill (by decide)) _ _ (by simp) (by simp [Action.IsInternal]) 0 s₀ s h₀
    (Run.eq_of_steps h₁ h₀ ▸ hidle) h ⟨.sync, 0⟩ (Or.inr hs) rfl
  exact ⟨line, hhit, hdirty⟩

/-- Cycles in which the memories accept what is sent. -/
def cycles (n : ℕ) : List Action := (List.replicate n [.update true true, .step]).flatten

/-- **A `SYNC` that misses.** Page 768 is written, and is being replaced by page 1152 when the
counter passes its line. Its `SYNC` waits for the page to be unlocked, and is then processed
without it. -/
theorem sync_misses :
    ∃ s, Run (Steps smallNext) smallInit
        (.addTransaction true 768 :: cycles 3 ++
          [.flashReadCallback 768 false, .flashReadCallback 832 false, .addTransaction false 384] ++
          cycles 4 ++ [.dramReadCallback 384, .addTransaction false 1152] ++ cycles 4 ++
          .mmio 1 0 :: cycles 7 ++ [.dramReadCallback 0, .dramReadCallback 64,
            .flashReadCallback 1152 false, .flashReadCallback 1216 false] ++ cycles 1) s ∧
      s.activeTransaction = some ⟨.sync, 768⟩ ∧ s.hitLine smallCache 768 = none ∧
      s.update smallCache (streamBuffer smallCache) true true = none :=
  exists_run (by decide +kernel)

end HybridSystem

end HybridMemory.HybridSim

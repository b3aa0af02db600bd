import Mathlib.Tactic.Abel
import HybridMemory.HybridSim.Simulation

/-!
# Answers

A read or a write is answered once: when the DRAM has read the cache, when the cache is written,
or, after a miss, when its page or already its critical line has come from flash. The answer has
the address of the caller, although addresses above 4 GB are queued half a gigabyte lower.

* `Traffic.Balanced`: what was accepted is what was answered and what is owed to the transactions
  that wait or are under way;
* `Represents.card_flights`: the records in `dram_pending` and `flash_pending` tell how many
  transactions are under way, so `pending_count` is right;
* `resident_once`: no page is in two lines, and a miss finds an unlocked line;
* `setCounter_eq_sum`: the counter of a set is the sum of the lock counts of its lines.

Transactions that `SYNC` queues have no caller, but they disturb the others; they are left out.
-/

namespace HybridMemory.HybridSim

open HybridSystem Registry

/-! ### Accounts -/

/-- The access that is accepted with the event. -/
def Event.accepts : Event → Multiset (Bool × ℕ)
  | .accepted isWrite address => {(isWrite, address)}
  | _ => 0

/-- The access that is answered with the event. -/
def Event.answers : Event → Multiset (Bool × ℕ)
  | .done isWrite address => {(isWrite, address)}
  | _ => 0

/-- The reads and writes that were accepted. -/
def accepted (events : List Event) : Multiset (Bool × ℕ) :=
  (events : Multiset Event).bind Event.accepts

/-- The reads and writes that were answered. -/
def answered (events : List Event) : Multiset (Bool × ℕ) :=
  (events : Multiset Event).bind Event.answers

/-- What a transaction of the type is owed. -/
def owed (type : TransactionType) (origAddr : ℕ) : Multiset (Bool × ℕ) :=
  match type with
  | .dataRead => {(false, callbackAddress origAddr)}
  | .dataWrite => {(true, callbackAddress origAddr)}
  | .prefetch | .flush | .syncAllCounter | .sync => 0

/-- What a flight is owed. A page that is read from flash was answered if its critical line was. -/
def Flight.owed : Flight → Multiset (Bool × ℕ)
  | reading p => HybridSim.owed .dataRead p.origAddr
  | moving p (some false) _ => HybridSim.owed p.type p.origAddr
  | moving _ (some true) _ | moving _ none _ => 0

section Accounts

variable {events : List Event} {e : Event} {type : TransactionType} {addr : ℕ} {p : Pending}

@[simp] theorem accepted_cons : accepted (e :: events) = e.accepts + accepted events := by
  rw [accepted, ← Multiset.cons_coe, Multiset.cons_bind, accepted]

@[simp] theorem answered_cons : answered (e :: events) = e.answers + answered events := by
  rw [answered, ← Multiset.cons_coe, Multiset.cons_bind, answered]

@[simp] theorem accepted_answer : accepted (answer type addr ++ events) = accepted events := by
  cases type <;> simp [answer, Event.accepts]

@[simp] theorem answered_answer :
    answered (answer type addr ++ events) = owed type addr + answered events := by
  cases type <;> simp [answer, Event.answers, owed]

/-- Only calls are accepted or answered. -/
theorem accepted_filter (events : List Event) :
    accepted (events.filter Event.isCall) = accepted events ∧
      answered (events.filter Event.isCall) = answered events := by
  induction events with
  | nil => exact ⟨rfl, rfl⟩
  | cons e events ih =>
    cases e <;>
      simp [List.filter_cons, Event.isCall, Event.accepts, Event.answers, ih.1, ih.2]

/-- A transaction without a caller. -/
theorem owed_eq_zero (h : type = .prefetch ∨ type = .flush) : owed type addr = 0 := by
  rcases h with rfl | rfl <;> rfl

/-- The callback for an access has the address with which it was accepted. -/
theorem callbackAddress_remap (h : ¬ (threePointFiveGB ≤ addr ∧ addr < fourGB)) :
    callbackAddress (remap addr) = addr := by
  simp only [threePointFiveGB, fourGB] at h
  by_cases hhigh : 4294967296 ≤ addr
  · rw [remap, fourGB, if_pos hhigh, callbackAddress, threePointFiveGB, halfGB, if_pos (by omega)]
    omega
  · rw [remap, fourGB, if_neg hhigh, callbackAddress, threePointFiveGB, if_neg (by omega)]

theorem owed_remap (isWrite : Bool) (h : ¬ (threePointFiveGB ≤ addr ∧ addr < fourGB)) :
    owed (dataType isWrite) (remap addr) = {(isWrite, addr)} := by
  cases isWrite <;> simp [owed, dataType, callbackAddress_remap h]

end Accounts

namespace Traffic

variable {cfg : Config} {x y : Traffic} {rest : Multiset Flight} {p : Pending}
  {fill : Option Bool} {victim : Bool}

/-- What is owed to the transactions that wait or are under way. -/
def owed (x : Traffic) : Multiset (Bool × ℕ) :=
  x.queue.bind (fun t => HybridSim.owed t.transactionType t.address) +
    x.active.elim 0 (fun t => HybridSim.owed t.transactionType t.address) +
      x.flights.bind Flight.owed

/-- What was accepted was answered or is owed. -/
def Balanced (x : Traffic) : Prop := accepted x.events = answered x.events + x.owed

/-- A flight that ends is owed nothing. -/
theorem owed_proceed : (x.proceed rest p fill victim).owed =
    { x with flights := .moving p fill victim ::ₘ rest }.owed := by
  cases fill with
  | some sent => rw [proceed_of_fill]
  | none =>
    cases victim with
    | true => rfl
    | false =>
      rw [proceed, owed, owed, Multiset.cons_bind]
      exact congrArg _ (zero_add _).symm

/-- **The balance.** -/
theorem Balanced.step (h : x.Balanced) (hstep : x.Step cfg y) : y.Balanced := by
  simp only [Balanced, owed] at h
  cases hstep with
  | accept isWrite addr hmmio =>
    simp only [Balanced, owed, accepted_cons, answered_cons, Event.accepts, Event.answers,
      Multiset.cons_bind, owed_remap isWrite hmmio, h]
    abel
  | drop isWrite addr =>
    simp only [Balanced, owed, accepted_cons, answered_cons, Event.accepts, Event.answers, h]
    abel
  | push t htype =>
    simp only [Balanced, owed, Multiset.cons_bind, owed_eq_zero htype, zero_add, h]
  | activate t queue hactive hqueue =>
    simp only [Balanced, owed, h, hactive, hqueue, Multiset.cons_bind, Option.elim]
    abel
  | settle t hactive htype =>
    simp only [Balanced, owed, h, hactive, Option.elim, owed_eq_zero htype]
  | read t line hit htype =>
    simp only [Balanced, owed, h, hit.active, Option.elim, htype, Multiset.cons_bind, Flight.owed,
      Pending.ofRead]
    abel
  | write t hactive htype =>
    simp only [Balanced, owed, accepted_cons, answered_cons, Event.accepts, Event.answers, h,
      hactive, Option.elim, htype, HybridSim.owed]
    abel
  | cheat t line hmiss htype =>
    simp only [Balanced, owed, h, hmiss.active, Option.elim, htype]
    rfl
  | miss t line tag valid victim hmiss htype hold =>
    simp only [Balanced, owed, h, hmiss.active, Option.elim, Multiset.cons_bind, Flight.owed,
      Pending.ofMiss]
    abel
  | readDone p rest hx =>
    simp only [Balanced, owed, accepted_cons, answered_cons, Event.accepts, Event.answers, h, hx,
      Multiset.cons_bind, Flight.owed, HybridSim.owed, zero_add]
    abel
  | critical p victim rest hx =>
    simp only [Balanced, owed, accepted_answer, answered_answer, h, hx, Multiset.cons_bind,
      Flight.owed]
    abel
  | victimDone p fill rest hx =>
    have howed : (x.proceed rest p fill false).owed = x.owed := by
      rw [owed_proceed, owed, owed, hx, Multiset.cons_bind, Multiset.cons_bind]
      rcases fill with _ | _ | _ <;> rfl
    have hevents : (x.proceed rest p fill false).events = x.events := by
      cases fill <;> rfl
    rw [Balanced, howed, hevents]
    exact h
  | fillDone p sent victim rest hx =>
    have howed : x.owed = (if sent then 0 else HybridSim.owed p.type p.origAddr) +
        (x.proceed rest p none victim).owed := by
      rw [owed_proceed, owed, owed, hx, Multiset.cons_bind, Multiset.cons_bind]
      cases sent <;> simp only [Flight.owed, if_true, if_false, Bool.false_eq_true] <;> abel
    have hevents : accepted ((if sent then [] else answer p.type p.origAddr) ++ x.events) =
        accepted x.events ∧
        answered ((if sent then [] else answer p.type p.origAddr) ++ x.events) =
          (if sent then 0 else HybridSim.owed p.type p.origAddr) + answered x.events := by
      split_ifs <;> simp
    simp only [Balanced, hevents.1, hevents.2]
    refine (h.trans (congrArg _ howed)).trans ?_
    rw [← add_assoc, add_comm (answered x.events)]
    rfl

end Traffic

/-! ### Transactions under way -/

section Count

variable {σ : Type} {cfg : Config} {s : HybridSystem σ} {x : Traffic}

/-- The number of transactions under way: those that read flash, and those that only read DRAM. -/
def HybridSystem.underWay (cfg : Config) (s : HybridSystem σ) : ℕ :=
  s.flashPending.entries.card + s.dramPending.entries.countP fun e =>
    e.2.op = .cacheRead ∨ cfg.pageAddress e.2.flashAddr ∉ s.flashPending

/-- A page that is read from flash is read for one flight. -/
theorem Represents.mem_flashPending_iff {p : Pending} {fill : Option Bool} {victim : Bool}
    (h : Represents cfg s x) (hinv : x.Inv cfg)
    (hf : .moving p fill victim ∈ x.flights) : p.page cfg ∈ s.flashPending ↔ fill ≠ none := by
  constructor
  · intro hmem
    rintro rfl
    obtain ⟨rest, hrest⟩ := Multiset.exists_cons_of_mem hf
    obtain ⟨g, hg, q, hkey⟩ := h.tables.flash.exists_of_mem hmem
    have hnodup := hinv.nodup
    rw [Traffic.pageKeys_cons hrest] at hnodup
    have hdisjoint := (Multiset.nodup_add.mp hnodup).2.2
    rcases Multiset.mem_cons.mp (hrest ▸ hg) with rfl | hg
    · exact absurd hkey (Multiset.notMem_zero _)
    · exact Multiset.disjoint_left.mp hdisjoint Pending.page_mem_pageKeys
        (Multiset.mem_bind.mpr ⟨g, hg, Flight.mem_pageKeys_of_flash hkey⟩)
  · intro hsome
    obtain ⟨sent, rfl⟩ := Option.ne_none_iff_exists'.mp hsome
    exact Finmap.mem_of_lookup_eq_some
      (h.tables.flash.lookup hf (Multiset.mem_singleton_self _))

/-- Each flight is counted once. -/
theorem card_of_each {f : Flight → Multiset (Σ _ : ℕ, Pending)}
    {g : Flight → Multiset (Σ _ : ℕ, Pending)} {P : (Σ _ : ℕ, Pending) → Prop} [DecidablePred P]
    {flights : Multiset Flight} (h : ∀ k ∈ flights, (f k).card + (g k).countP P = 1) :
    (flights.bind f).card + (flights.bind g).countP P = flights.card := by
  induction flights using Multiset.induction_on with
  | empty => rfl
  | cons k flights ih =>
    have hk := h k (Multiset.mem_cons_self k flights)
    have hrest := ih fun k' hk' => h k' (Multiset.mem_cons_of_mem hk')
    rw [Multiset.cons_bind, Multiset.cons_bind, Multiset.card_add, Multiset.countP_add,
      Multiset.card_cons]
    omega

/-- The tables tell how many transactions are under way. -/
theorem Represents.card_flights (h : Represents cfg s x) (hinv : x.Inv cfg) :
    s.underWay cfg = x.flights.card := by
  rw [underWay, h.tables.flash, h.tables.dram]
  refine card_of_each fun f hf => ?_
  rcases f with p | ⟨p, _ | sent, _ | _⟩
  · have hop := (hinv.sound _ hf).2.1
    simp [Flight.flash, Flight.dram, ← Multiset.cons_zero, hop]
  · exact absurd (hinv.sound _ hf).2.2.1 Bool.false_ne_true
  · have hnot := (h.mem_flashPending_iff hinv hf).not.mpr (not_not.mpr rfl)
    rw [Pending.page] at hnot
    simp [Flight.flash, Flight.dram, ← Multiset.cons_zero, hnot]
  · simp [Flight.flash, Flight.dram]
  · have hop := (hinv.sound _ hf).2.1
    have hmem := (h.mem_flashPending_iff hinv hf).mpr (Option.some_ne_none sent)
    rw [Pending.page] at hmem
    simp [Flight.flash, Flight.dram, ← Multiset.cons_zero, hmem, hop]

/-- A transaction under way has an entry for its line. -/
theorem Represents.exists_entry {f : Flight} (h : Represents cfg s x) (hinv : x.Inv cfg)
    (hf : f ∈ x.flights) :
    ∃ e ∈ s.dramPending.entries + s.flashPending.entries, e.2.cacheAddr = f.line := by
  have hdram : ∀ e ∈ f.dram cfg, e ∈ s.dramPending.entries + s.flashPending.entries := by
    intro e he
    rw [Multiset.mem_add, h.tables.dram]
    exact .inl (Multiset.mem_bind.mpr ⟨f, hf, he⟩)
  have hflash : ∀ e ∈ f.flash cfg, e ∈ s.dramPending.entries + s.flashPending.entries := by
    intro e he
    rw [Multiset.mem_add, h.tables.flash]
    exact .inr (Multiset.mem_bind.mpr ⟨f, hf, he⟩)
  rcases f with p | ⟨p, _ | sent, _ | _⟩
  · exact ⟨_, hdram _ (Multiset.mem_singleton_self _), rfl⟩
  · exact absurd (hinv.sound _ hf).2.2.1 Bool.false_ne_true
  · exact ⟨_, hdram _ (Multiset.mem_singleton_self _), rfl⟩
  · exact ⟨_, hflash _ (Multiset.mem_singleton_self _), rfl⟩
  · exact ⟨_, hflash _ (Multiset.mem_singleton_self _), rfl⟩

end Count

/-! ### Runs -/

namespace HybridSystem

open Transition

variable {σ : Type}

/-- **Answers.** In a run without `SYNC`, whatever the order in which the memories complete their
accesses, reads and writes are answered at most once and with the address of the caller.
`pending_count` is the number of transactions that wait, are active or under way, and when there
are none left, all reads and writes were answered. -/
theorem answered_once (cfg : Config) (pf : Prefetcher σ) (cache : ℕ → CacheLine) (prefetcher : σ)
    (hcache : Fresh cfg cache) (actions : List Action)
    (hsync : ∀ address, Action.mmio 1 address ∉ actions) (s : HybridSystem σ)
    (h : Run (Steps (next cfg pf)) (init cache prefetcher) actions s) :
    answered s.events ≤ accepted s.events ∧
      s.pendingCount =
        (s.transQueue.length + s.activeTransaction.isSome.toNat + s.underWay cfg : ℕ) ∧
      (s.transQueue = [] → s.activeTransaction = none → s.underWay cfg = 0 →
        answered s.events = accepted s.events) := by
  obtain ⟨x, hrep, hvalid, hbalance⟩ := does_of_run (J := Traffic.Balanced) hcache hsync rfl
    (fun x y _ hx hstep => hx.step hstep) h
  rw [Traffic.Balanced, ← hrep.tracks.events, (accepted_filter _).1, (accepted_filter _).2]
    at hbalance
  have hcard := hrep.card_flights hvalid.inv
  refine ⟨?_, hcard ▸ hrep.tracks.count, fun hqueue hactive hzero => ?_⟩
  · exact (Multiset.le_add_right _ _).trans hbalance.ge
  · have howed : x.owed = 0 := by
      rw [Traffic.owed, ← hrep.tracks.queue, ← hrep.tracks.active,
        Multiset.card_eq_zero.mp (hcard.symm.trans hzero), view, hqueue, hactive]
      rfl
    rw [howed, add_zero] at hbalance
    exact hbalance.symm

/-- A read above 4 GB that hits, and a write to the memory mapped devices. -/
theorem answered_once_remapped :
    ∃ s, Run (Steps smallNext) smallInit
        [.addTransaction false 4294967296, .addTransaction true 3758096384, .update true true,
          .update true true, .dramReadCallback 512] s ∧
      accepted s.events = {(false, 4294967296), (true, 3758096384)} ∧
      answered s.events = accepted s.events := by
  refine exists_run_imp (fun s => s.transQueue = [] ∧ s.activeTransaction = none ∧
    s.underWay smallCache = 0 ∧ accepted s.events = {(false, 4294967296), (true, 3758096384)})
    (by decide +kernel) fun s hrun hs => ?_
  obtain ⟨hqueue, hactive, hzero, haccepted⟩ := hs
  obtain ⟨-, -, hall⟩ := answered_once smallCache (streamBuffer smallCache) (prefill smallCache) {}
    (fresh_prefill smallCache) _ (by simp) s hrun
  exact ⟨haccepted, hall hqueue hactive hzero⟩

/-- **Residency.** In a run without `SYNC`, no page is in two lines of the cache. A miss of the
active transaction finds an unlocked line, so that the victim is one. -/
theorem resident_once (cfg : Config) (pf : Prefetcher σ) (cache : ℕ → CacheLine) (prefetcher : σ)
    (hcache : Fresh cfg cache) (actions : List Action)
    (hsync : ∀ address, Action.mmio 1 address ∉ actions) (s : HybridSystem σ)
    (h : Run (Steps (next cfg pf)) (init cache prefetcher) actions s) :
    Unique cfg (contents cfg s.cache) ∧ ∀ t, s.activeTransaction = some t →
      let lines := cfg.setAddresses (cfg.setIndex (cfg.align t.address))
      selectVictim s.cache lines ∈ lines ∧
        (s.cache (selectVictim s.cache lines)).locked = false := by
  obtain ⟨x, hrep, hvalid, -⟩ := does_of_run (J := fun _ => True) hcache hsync trivial
    (fun _ _ _ _ _ => trivial) h
  refine ⟨hrep.tracks.contents ▸ hvalid.inv.unique, fun t ht => ?_⟩
  exact selectVictim_spec (hrep.exists_unlocked hvalid (hrep.tracks.active.symm.trans ht))

/-- The first line of a set is read while another transaction of the set is active. -/
theorem resident_once_reading :
    ∃ s, Run (Steps smallNext) smallInit
        [.addTransaction false 0, .addTransaction false 768, .update true true,
          .update true true] s ∧
      (s.cache 0).locked = true ∧
      (s.cache (selectVictim s.cache (smallCache.setAddresses 0))).locked = false := by
  refine exists_run_imp (fun s => (s.cache 0).locked = true ∧
    ∃ t ∈ s.activeTransaction, smallCache.setIndex (smallCache.align t.address) = 0)
    (by decide +kernel) fun s hrun ⟨hlocked, t, ht, hset⟩ => ⟨hlocked, ?_⟩
  exact hset ▸ ((resident_once smallCache (streamBuffer smallCache) (prefill smallCache) {}
    (fresh_prefill smallCache) _ (by simp) s hrun).2 t ht).2

/-- **Set counters.** In a run without `SYNC`, `set_counter` of a set is the sum of the lock counts
of its lines. While no access to a line of the set is pending both are zero, and the set admits
transactions. -/
theorem setCounter_eq_sum (cfg : Config) (pf : Prefetcher σ) (cache : ℕ → CacheLine)
    (prefetcher : σ) (hcache : Fresh cfg cache) (actions : List Action)
    (hsync : ∀ address, Action.mmio 1 address ∉ actions) (s : HybridSystem σ)
    (h : Run (Steps (next cfg pf)) (init cache prefetcher) actions s) (set : ℕ)
    (hset : set < cfg.numSets) :
    s.setCounter set = ∑ line ∈ (cfg.setAddresses set).toFinset, (s.cache line).lockCount ∧
      ((∀ e ∈ s.dramPending.entries + s.flashPending.entries,
          cfg.setIndex e.2.cacheAddr ≠ set) →
        s.setCounter set = 0 ∧ s.setCounter set ≠ cfg.setSize ∧
          ∀ line ∈ cfg.setAddresses set, (s.cache line).lockCount = 0) := by
  obtain ⟨x, hrep, hvalid, -⟩ := does_of_run (J := fun _ => True) hcache hsync trivial
    (fun _ _ _ _ _ => trivial) h
  have hlocks := hrep.tracks.locks
  have hsum : s.setCounter set =
      ∑ line ∈ (cfg.setAddresses set).toFinset, (s.cache line).lockCount := by
    refine (hlocks.setCounter set).trans ?_
    refine (Traffic.setUsers_eq_sum (fun f hf => hvalid.inv.isLine hf) hset).trans ?_
    exact Finset.sum_congr rfl fun line _ => (hlocks.lockCount line).symm
  refine ⟨hsum, fun hidle => ?_⟩
  have hzero : s.setCounter set = 0 := by
    refine (hlocks.setCounter set).trans (Multiset.countP_eq_zero.mpr fun f hf hline => ?_)
    obtain ⟨e, he, haddr⟩ := hrep.exists_entry hvalid.inv hf
    exact hidle e he (haddr ▸ hline)
  refine ⟨hzero, hzero ▸ cfg.setSize_pos.ne, fun line hline => ?_⟩
  exact Finset.sum_eq_zero_iff.mp (hsum.symm.trans hzero) line (List.mem_toFinset.mpr hline)

/-- A read under way locks its line, and nothing else is locked in its set. -/
theorem setCounter_eq_sum_reading :
    ∃ s, Run (Steps smallNext) smallInit
        [.addTransaction false 0, .update true true, .update true true] s ∧
      1 = ∑ line ∈ (smallCache.setAddresses 0).toFinset, (s.cache line).lockCount := by
  refine exists_run_imp (fun s => s.setCounter 0 = 1) (by decide +kernel) fun s hrun hs => ?_
  exact hs.symm.trans (setCounter_eq_sum smallCache (streamBuffer smallCache) (prefill smallCache)
    {} (fresh_prefill smallCache) _ (by simp) s hrun 0 (by decide)).1

/-- **A set is left closed.** Each `SYNC` locks its line twice and releases it once, but of the two
locks only `set_counter` has both. After two of them, with nothing active or pending, the set
refuses all transactions. -/
theorem set_refuses_after_sync :
    ∃ s, Run (Steps smallNext) smallInit
        ([.addTransaction true 0, .addTransaction true 384, .update true true, .update true true,
            .update true true, .mmio 1 0] ++ List.replicate 6 (.update true true) ++
          [.dramReadCallback 0, .dramReadCallback 64] ++ List.replicate 8 (.update true true) ++
          [.dramReadCallback 384, .dramReadCallback 448]) s ∧
      s.activeTransaction = none ∧ s.dramPending.entries + s.flashPending.entries = 0 ∧
      (∑ line ∈ (smallCache.setAddresses 0).toFinset, (s.cache line).lockCount = 0) ∧
      s.setCounter 0 = smallCache.setSize ∧ s.contentionIsUnlocked smallCache 0 = false :=
  exists_run (by decide +kernel)

end HybridSystem

end HybridMemory.HybridSim

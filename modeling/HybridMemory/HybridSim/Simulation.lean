import HybridMemory.HybridSim.CheckQueue
import HybridMemory.HybridSim.Completions

/-!
# The controller does the transactions

Whatever happens to the cache controller without `SYNC_ALL` is a number of steps of the traffic: a
cycle processes the active transaction, starts another one and sends an access to each memory, and
the callbacks complete accesses.

* `Represents.exists_unlocked`: a miss finds an unlocked line in its set;
* `Represents.update`, `Represents.next`: a cycle, and any action;
* `does_of_run`: so what the steps of the traffic keep holds in every run.
-/

namespace HybridMemory.HybridSim

open HybridSystem Registry

variable {σ : Type} {cfg : Config} {pf : Prefetcher σ} {s u : HybridSystem σ} {x y : Traffic}
  {t : Transaction} {a : ℕ}

/-- What holds of the traffic in all runs. -/
structure Traffic.Valid (cfg : Config) (x : Traffic) : Prop where
  inv : x.Inv cfg
  bounded : x.Bounded cfg
  plain : x.Plain

theorem Traffic.Valid.step (h : x.Valid cfg) (hstep : x.Step cfg y) : y.Valid cfg :=
  ⟨h.inv.step hstep, h.bounded.step hstep, h.plain.step hstep⟩

theorem Traffic.Valid.steps (h : x.Valid cfg) (hsteps : Relation.ReflTransGen (Step cfg) x y) :
    y.Valid cfg :=
  Transition.invariant_of_reflTransGen (P := Valid cfg) (fun _ _ hx hstep => hx.step hstep) hsteps h

/-! ### Starting a transaction -/

section Represents

variable (h : Represents cfg s x)

include h

/-- A transaction of the queue that is not locked out becomes the active one. -/
theorem Represents.activate {rest : List Transaction} (hactive : x.active = none)
    (hqueue : s.transQueue.Perm (t :: rest))
    (hunlocked : s.contentionIsUnlocked cfg (cfg.align t.address) = true) :
    ∃ y, x.Step cfg y ∧ y.active = some t ∧ Represents cfg (s.activate cfg t rest) y := by
  obtain ⟨hset, hpage, hflash⟩ := of_decide_eq_true hunlocked
  rw [Config.setIndex_pageAddress] at hset
  refine ⟨_, .activate t rest hactive ?_ (ne_of_eq_of_ne (h.tracks.locks.setCounter _).symm hset)
    (fun hmem => hpage (h.mem_pendingPages.mpr hmem)), rfl, ?_, h.tables⟩
  · rw [← h.tracks.queue]
    exact Multiset.coe_eq_coe.mpr hqueue
  · exact { h.tracks with
      queue := rfl
      active := rfl
      count := by
        have hcount := h.tracks.count
        rw [h.tracks.active, hactive] at hcount
        simp only [view, hqueue.length_eq, List.length_cons, Option.isSome_none,
          Bool.toNat_false] at hcount
        simp only [view, HybridSystem.activate, contentionLock, hcount, Option.isSome_some,
          Bool.toNat_true] }

/-- The set of the active transaction has an unlocked line. -/
theorem Represents.exists_unlocked (hvalid : x.Valid cfg) (hactive : x.active = some t) :
    ∃ a ∈ cfg.setAddresses (cfg.setIndex (cfg.align t.address)), (s.cache a).locked = false := by
  obtain ⟨line, hline, hunused⟩ :=
    hvalid.inv.exists_unused (cfg.setIndex_lt _) (hvalid.bounded.lt t hactive)
  refine ⟨line, hline, (h.tracks.locks.locked line).trans (decide_eq_false (not_not.mpr ?_))⟩
  exact (h.tracks.locks.lockCount line).trans hunused

/-! ### Cycles -/

/-- The active transaction is processed. -/
theorem Represents.process (hvalid : x.Valid cfg)
    (hactive : s.activeTransaction = some t) (hu : s.processTransaction cfg pf t = some u) :
    x.Reaches cfg { u with activeTransaction := none } := by
  have hxactive := h.tracks.active.symm.trans hactive
  exact h.processTransaction hvalid.inv hxactive (hvalid.plain.active t hxactive)
    (h.exists_unlocked hvalid hxactive) hu

/-- **Cycles.** -/
theorem Represents.update {dramAccepts flashAccepts : Bool} (hvalid : x.Valid cfg)
    (hu : s.update cfg pf dramAccepts flashAccepts = some u) :
    x.Reaches cfg u := by
  refine update_induction
    (P := fun v => x.Reaches cfg v)
    ?_ ?_ ?_ ⟨x, .refl, h⟩ hu
  · rintro v t w ⟨y, hsteps, hy⟩ hactive - hw
    obtain ⟨z, hsteps', hz⟩ := hy.process (hvalid.steps hsteps) hactive hw
    exact ⟨z, hsteps.trans hsteps', hz⟩
  · rintro v t rest ⟨y, hsteps, hy⟩ hnone hperm hunlocked
    obtain ⟨z, hstep, -, hz⟩ := hy.activate (hy.tracks.active.symm.trans hnone) hperm hunlocked
    exact ⟨z, hsteps.tail hstep, hz⟩
  · rintro v _ _ _ _ _ _ ⟨y, hsteps, hy⟩
    exact ⟨y, hsteps, hy.tracks, hy.tables⟩

/-! ### Actions -/

/-- The prefetches of a range of pages. -/
theorem Represents.prefetchRange {cheat : Bool} (base pages : ℕ) :
    x.Reaches cfg (HybridSystem.prefetchRange cfg base pages cheat s) := by
  rw [HybridSystem.prefetchRange]
  induction List.range pages generalizing s x with
  | nil => exact ⟨x, .refl, h⟩
  | cons i indices ih =>
    have hpush := h.pushFront ⟨.prefetch, base + i * cfg.pageSize⟩
    rw [List.foldl_cons]
    suffices hnext : Represents cfg _ _ by
      obtain ⟨y, hsteps, hy⟩ := ih hnext
      exact ⟨y, .head (.push ⟨.prefetch, base + i * cfg.pageSize⟩ (Or.inl rfl)) hsteps, hy⟩
    split_ifs
    · exact ⟨hpush.tracks, hpush.tables⟩
    · exact hpush

theorem Represents.addTransaction (isWrite : Bool) (addr : ℕ) :
    ∃ y, x.Step cfg y ∧ Represents cfg (s.addTransaction isWrite addr) y := by
  rw [HybridSystem.addTransaction]
  split_ifs with hmmio
  · exact ⟨_, .drop isWrite addr, (h.tracks.call rfl).call rfl, h.tables⟩
  · have hcall : Represents cfg (s.record (.accepted isWrite addr)) _ :=
      ⟨h.tracks.call rfl, h.tables⟩
    exact ⟨_, .accept isWrite addr hmmio, hcall.pushBack _⟩

theorem Represents.mmio {operation address : ℕ} (hsync : operation ≠ 1)
    (hu : s.mmio cfg operation address = some u) :
    x.Reaches cfg u := by
  simp only [HybridSystem.mmio] at hu
  split at hu
  · exact ⟨x, .refl, Option.some.inj hu ▸ h⟩
  · exact ⟨x, .refl, Option.some.inj hu ▸ h⟩
  · exact absurd rfl hsync
  · exact Option.some.inj hu ▸ h.prefetchRange _ _
  · exact Option.some.inj hu ▸ h.prefetchRange _ _
  · contradiction

/-- **The simulation.** Every action but `SYNC_ALL` is a number of steps of the traffic. -/
theorem Represents.next {action : Action} (hsync : ∀ address, action ≠ .mmio 1 address)
    (hvalid : x.Valid cfg) (hu : s.next cfg pf action = some u) :
    x.Reaches cfg u := by
  obtain ⟨-, hu⟩ := Option.ite_none_right_eq_some.mp hu
  have hdram : ∀ inFlight, Represents cfg { s with dramInFlight := inFlight } x :=
    fun _ => ⟨h.tracks, h.tables⟩
  have hflash : ∀ inFlight, Represents cfg { s with flashInFlight := inFlight } x :=
    fun _ => ⟨h.tracks, h.tables⟩
  cases action with
  | addTransaction isWrite addr =>
    obtain ⟨y, hstep, hy⟩ := h.addTransaction isWrite addr
    exact ⟨y, .single hstep, Option.some.inj hu ▸ hy⟩
  | addPrefetch addr =>
    exact ⟨_, .single (.push ⟨.prefetch, addr⟩ (Or.inl rfl)), Option.some.inj hu ▸ h.pushFront _⟩
  | addFlush addr =>
    exact ⟨_, .single (.push ⟨.flush, addr⟩ (Or.inr rfl)), Option.some.inj hu ▸ h.pushFront _⟩
  | mmio operation address => exact h.mmio (fun hop => hsync address (hop ▸ rfl)) hu
  | update dramAccepts flashAccepts => exact h.update hvalid hu
  | dramReadCallback addr => exact (hdram _).dramReadCallback hvalid.inv hu
  | flashReadCallback addr critical => exact (hflash _).flashReadCallback hvalid.inv hu
  | flashCriticalLineCallback addr => exact (hflash _).flashCriticalLineCallback hvalid.inv hu
  | step | dramWriteCallback addr | flashWriteCallback addr =>
    obtain rfl := Option.some.inj hu
    exact ⟨x, .refl, h.tracks, h.tables⟩

end Represents

/-! ### Runs -/

/-- A cache table after construction: no line is locked, no page is in two lines, and only lines
that hold a page of the address space are dirty. -/
structure Fresh (cfg : Config) (cache : ℕ → CacheLine) : Prop where
  lockCount : ∀ line, (cache line).lockCount = 0
  locked : ∀ line, (cache line).locked = false
  unique : Unique cfg (contents cfg cache)
  dirty : DirtyPages cfg (contents cfg cache) (dirtyLines cache)

/-- The prefilled cache has each page in its own line. -/
theorem contents_prefill {line page : ℕ} (h : contents cfg (prefill cfg) line = some page) :
    page = line ∧ line / cfg.pageSize < cfg.cachePages := by
  obtain ⟨hvalid, hpage⟩ := Option.ite_none_right_eq_some.mp h
  rw [prefill] at hvalid hpage
  split_ifs at hvalid hpage with hin
  rw [Config.flashAddress_tag, Option.some.injEq] at hpage
  refine ⟨?_, hin.2⟩
  rw [← hpage]
  exact Nat.div_mul_cancel (Nat.dvd_of_mod_eq_zero hin.1)

theorem fresh_prefill (cfg : Config) : Fresh cfg (prefill cfg) := by
  refine ⟨fun line => ?_, fun line => ?_, fun line line' page _ _ h h' => ?_, fun line h => ?_⟩
  · rw [prefill]
    split_ifs <;> rfl
  · rw [prefill]
    split_ifs <;> rfl
  · exact (contents_prefill h).1.symm.trans (contents_prefill h').1
  · rw [dirtyLines, prefill] at h
    split_ifs at h

/-- No transactions yet. -/
def Traffic.start (cfg : Config) (cache : ℕ → CacheLine) : Traffic where
  queue := 0
  active := none
  flights := 0
  contents := HybridSim.contents cfg cache
  events := []

section Start

variable {cache : ℕ → CacheLine}

theorem Fresh.represents (h : Fresh cfg cache) (prefetcher : σ) :
    Represents cfg (init cache prefetcher) (Traffic.start cfg cache) where
  tracks := {
    queue := rfl
    active := rfl
    events := rfl
    contents := rfl
    count := rfl
    locks := {
      lockCount := h.lockCount
      locked := fun line =>
        (h.locked line).trans (decide_eq_false (not_not.mpr (h.lockCount line))).symm
      setCounter := fun _ => rfl } }
  tables := ⟨lists_zero, lists_zero, lists_zero⟩

theorem Fresh.valid (h : Fresh cfg cache) : (Traffic.start cfg cache).Valid cfg where
  inv := {
    unique := h.unique
    sound := fun f hf => absurd hf (Multiset.notMem_zero f)
    nodup := Multiset.nodup_zero
    exclusive := fun f hf => absurd hf (Multiset.notMem_zero f)
    active := fun _ ht => by cases ht }
  bounded := ⟨fun _ => Nat.zero_le _, fun _ ht => by cases ht⟩
  plain := ⟨fun t ht => absurd ht (Multiset.notMem_zero t), fun _ ht => by cases ht⟩

open Transition in
/-- What the steps of the traffic keep holds in every run without `SYNC_ALL`. -/
theorem does_of_run {J : Traffic → Prop} (hcache : Fresh cfg cache) {prefetcher : σ}
    {actions : List Action} (hsync : ∀ address, Action.mmio 1 address ∉ actions)
    (hstart : J (.start cfg cache)) (hJ : ∀ x y, x.Valid cfg → J x → x.Step cfg y → J y)
    (h : Run (Steps (HybridSystem.next cfg pf)) (init cache prefetcher) actions s) :
    ∃ x, Represents cfg s x ∧ x.Valid cfg ∧ J x := by
  have hactions : ∀ a ∈ actions, ∀ address, a ≠ .mmio 1 address :=
    fun a ha address heq => hsync address (heq ▸ ha)
  refine (run_guarded_iff_forall.mpr ⟨h, hactions⟩).invariant
    (P := fun s => ∃ x, Represents cfg s x ∧ x.Valid cfg ∧ J x)
    ⟨_, hcache.represents prefetcher, hcache.valid, hstart⟩ ?_
  rintro s a u ⟨x, hrep, hvalid, hx⟩ hstep
  obtain ⟨y, hsteps, hy⟩ := hrep.next hstep.1 hvalid hstep.2
  obtain ⟨hyvalid, hyJ⟩ := invariant_of_reflTransGen (P := fun x => x.Valid cfg ∧ J x)
    (fun x y hx hstep => ⟨hx.1.step hstep, hJ x y hx.1 hx.2 hstep⟩) hsteps ⟨hvalid, hx⟩
  exact ⟨y, hy, hyvalid, hyJ⟩

end Start

end HybridMemory.HybridSim

import HybridMemory.Lib.Registry
import HybridMemory.HybridSim.Traffic

/-!
# What the tables stand for

`Represents cfg s x` relates the cache controller to the transactions under way: each table has
the entries of the flights, a line is locked as often as flights use it, the counter of a set is
the number of flights in it, and `pending_count` counts the transactions. Besides the tables it
reads a part of the controller only, its `view`.

* `Tracks`: the relation without the tables. While a transaction is processed, a line can be locked
  for a flight that has no entry yet, or none any more: `Tracks.lock`, `Tracks.release`;
* `Locks`: how `locked`, `lock_count` and `set_counter` change with the flights.
-/

namespace HybridMemory.HybridSim

open HybridSystem Registry Function

/-! ### The entries of a flight -/

namespace Flight

variable (cfg : Config)

/-- Its entries in `pending_pages`. -/
def pages : Flight → Multiset (Σ _ : ℕ, ℕ)
  | reading _ => 0
  | moving p fill victim =>
    ⟨p.page cfg, fill.isSome.toNat + victim.toNat⟩ ::ₘ
      if p.victimValid then {⟨p.victimPage cfg, 0⟩} else 0

/-- Its entries in `dram_pending`. -/
def dram : Flight → Multiset (Σ _ : ℕ, Pending)
  | reading p => {⟨p.cacheAddr + cfg.pageOffset p.flashAddr, p⟩}
  | moving p _ true => {⟨p.cacheAddr, p⟩}
  | moving _ _ false => 0

/-- The record of a page that is read from flash. -/
def record (p : Pending) (sent : Bool) : Pending := { p with op := .lineRead, callbackSent := sent }

/-- Its entries in `flash_pending`. -/
def flash : Flight → Multiset (Σ _ : ℕ, Pending)
  | moving p (some sent) _ => {⟨p.page cfg, record p sent⟩}
  | moving _ none _ | reading _ => 0

variable {cfg} {f : Flight} {p : Pending} {fill fill' : Option Bool} {victim victim' : Bool}
  {page : ℕ}

theorem dram_fill : (moving p fill victim).dram cfg = (moving p fill' victim).dram cfg := by
  cases victim <;> rfl

theorem flash_victim : (moving p fill victim).flash cfg = (moving p fill victim').flash cfg := by
  cases fill <;> rfl

theorem mem_pageKeys_of_flash (h : ⟨page, p⟩ ∈ f.flash cfg) : page ∈ f.pageKeys cfg := by
  match f, h with
  | moving p (some sent) victim, h =>
    cases Multiset.mem_singleton.mp h
    exact Pending.page_mem_pageKeys

theorem map_fst_pages (f : Flight) : (f.pages cfg).map Sigma.fst = f.pageKeys cfg := by
  cases f with
  | reading p => rfl
  | moving p fill victim =>
    rw [pages, Multiset.map_cons, pageKeys, Pending.pageKeys]
    split_ifs <;> rfl

end Flight

/-! ### Locks -/

/-- A line is locked as often as flights use it. -/
structure Locks (cfg : Config) (cache : ℕ → CacheLine) (setCounter : ℕ → ℕ)
    (flights : Multiset Flight) : Prop where
  lockCount : ∀ line, (cache line).lockCount = flights.countP (Flight.line · = line)
  locked : ∀ line, (cache line).locked = decide ((cache line).lockCount ≠ 0)
  setCounter : ∀ set, setCounter set = flights.countP fun f => cfg.setIndex f.line = set

namespace Locks

variable {cfg : Config} {cache : ℕ → CacheLine} {setCounter : ℕ → ℕ} {flights : Multiset Flight}
  {f : Flight} {line : ℕ} {l : CacheLine}

/-- A line changes, but not its lock. -/
theorem touch (h : Locks cfg cache setCounter flights)
    (hcount : l.lockCount = (cache line).lockCount) (hlocked : l.locked = (cache line).locked) :
    Locks cfg (update cache line l) setCounter flights where
  lockCount := by
    intro a
    by_cases ha : a = line
    · rw [ha, update_self, hcount, h.lockCount]
    · rw [update_of_ne ha, h.lockCount]
  locked := by
    intro a
    by_cases ha : a = line
    · rw [ha, update_self, hlocked, hcount, h.locked]
    · rw [update_of_ne ha, h.locked]
  setCounter := h.setCounter

/-- A flight changes, but not its line. -/
theorem swap {g : Flight} (h : Locks cfg cache setCounter (f ::ₘ flights))
    (hline : g.line = f.line) : Locks cfg cache setCounter (g ::ₘ flights) where
  lockCount := by
    intro a
    rw [h.lockCount, Multiset.countP_cons, Multiset.countP_cons, hline]
  locked := h.locked
  setCounter := by
    intro set
    rw [h.setCounter, Multiset.countP_cons, Multiset.countP_cons, hline]

/-- A flight begins to use its line. -/
theorem lock (h : Locks cfg cache setCounter flights) (hline : f.line = line)
    (hcount : l.lockCount = (cache line).lockCount + 1) (hlocked : l.locked = true) :
    Locks cfg (update cache line l)
      (update setCounter (cfg.setIndex line) (setCounter (cfg.setIndex line) + 1))
      (f ::ₘ flights) where
  lockCount := by
    intro a
    rw [Multiset.countP_cons, ← h.lockCount, hline]
    by_cases ha : a = line
    · rw [ha, update_self, if_pos rfl, hcount]
    · rw [update_of_ne ha, if_neg (Ne.symm ha), Nat.add_zero]
  locked := by
    intro a
    by_cases ha : a = line
    · rw [ha, update_self, hlocked, hcount]
      exact (decide_eq_true (Nat.succ_ne_zero _)).symm
    · rw [update_of_ne ha, h.locked]
  setCounter := by
    intro set
    rw [Multiset.countP_cons, hline]
    by_cases hset : set = cfg.setIndex line
    · rw [hset, update_self, if_pos rfl, h.setCounter]
    · rw [update_of_ne hset, if_neg (Ne.symm hset), h.setCounter, Nat.add_zero]

/-- A flight that ends no longer uses its line. -/
theorem unlock (h : Locks cfg cache setCounter (f ::ₘ flights)) (hline : f.line = line) :
    Locks cfg (update cache line (cache line).unlock)
      (update setCounter (cfg.setIndex line)
        (decrement (setCounter (cfg.setIndex line)))) flights := by
  have hcount : ∀ a, (cache a).lockCount = flights.countP (Flight.line · = a) +
      if line = a then 1 else 0 := fun a => by
    rw [h.lockCount, Multiset.countP_cons, hline]
  have hunlock : (cache line).unlock.lockCount = flights.countP (Flight.line · = line) := by
    simp [CacheLine.unlock, decrement, hcount]
  refine ⟨fun a => ?_, fun a => ?_, fun set => ?_⟩
  · by_cases ha : a = line
    · rw [ha, update_self, hunlock]
    · rw [update_of_ne ha, hcount, if_neg (Ne.symm ha), Nat.add_zero]
  · by_cases ha : a = line
    · have hlocked : (cache line).locked = true := by
        rw [h.locked, hcount, if_pos rfl]
        exact decide_eq_true (Nat.succ_ne_zero _)
      rw [ha, update_self, CacheLine.unlock]
      by_cases h0 : decrement (cache line).lockCount = 0
      · simp [h0]
      · simp [h0, hlocked]
    · rw [update_of_ne ha, h.locked]
  · have hset := h.setCounter set
    rw [Multiset.countP_cons, hline] at hset
    by_cases heq : set = cfg.setIndex line
    · rw [if_pos heq.symm] at hset
      rw [← heq, update_self, decrement, hset, if_neg (Nat.succ_ne_zero _),
        Nat.add_sub_cancel]
    · rw [update_of_ne heq, hset, if_neg (Ne.symm heq), Nat.add_zero]

end Locks

/-! ### What the lines hold -/

section Cache

variable {cfg : Config} {cache : ℕ → CacheLine} {line : ℕ} {l : CacheLine}

/-- Which lines are dirty. -/
def dirtyLines (cache : ℕ → CacheLine) (line : ℕ) : Bool := (cache line).dirty

theorem contents_update : contents cfg (update cache line l) =
    update (contents cfg cache) line
      (if l.valid then some (cfg.flashAddress l.tag (cfg.setIndex line)) else none) := by
  funext a
  by_cases ha : a = line
  · subst ha
    simp [contents]
  · simp [contents, ha]

/-- A line that keeps its page. -/
theorem contents_touch (hvalid : l.valid = (cache line).valid) (htag : l.tag = (cache line).tag) :
    contents cfg (update cache line l) = contents cfg cache := by
  rw [contents_update, hvalid, htag]
  exact update_eq_self line (contents cfg cache)

@[simp] theorem contents_lock :
    contents cfg (update cache line (cache line).lock) = contents cfg cache :=
  contents_touch (by rfl) (by rfl)

@[simp] theorem contents_unlock :
    contents cfg (update cache line (cache line).unlock) = contents cfg cache :=
  contents_touch (by rfl) (by rfl)

end Cache

/-! ### The relation -/

/-- What the relation reads of the controller, besides the tables. -/
structure View where
  transQueue : List Transaction
  activeTransaction : Option Transaction
  pendingCount : ℤ
  cache : ℕ → CacheLine
  setCounter : ℕ → ℕ
  events : List Event

def HybridSystem.view {σ : Type} (s : HybridSystem σ) : View :=
  ⟨s.transQueue, s.activeTransaction, s.pendingCount, s.cache, s.setCounter, s.events⟩

/-- An access is accepted or answered. -/
def Event.isCall : Event → Bool
  | .accepted _ _ | .done _ _ => true
  | _ => false

/-- The controller has the transactions of the traffic, whatever its tables. -/
structure Tracks (cfg : Config) (s : View) (x : Traffic) : Prop where
  queue : (s.transQueue : Multiset Transaction) = x.queue
  active : s.activeTransaction = x.active
  events : s.events.filter Event.isCall = x.events
  contents : contents cfg s.cache = x.contents
  count : s.pendingCount =
    (s.transQueue.length + s.activeTransaction.isSome.toNat + x.flights.card : ℕ)
  locks : Locks cfg s.cache s.setCounter x.flights

/-- The tables have the entries of the flights. -/
structure Tables (cfg : Config) (pages : Finmap fun _ : ℕ => ℕ)
    (dram flash : Finmap fun _ : ℕ => Pending) (flights : Multiset Flight) : Prop where
  pages : Lists (Flight.pages cfg) flights pages
  dram : Lists (Flight.dram cfg) flights dram
  flash : Lists (Flight.flash cfg) flights flash

/-- The cache controller does the transactions of the traffic. -/
structure Represents (cfg : Config) {σ : Type} (s : HybridSystem σ) (x : Traffic) : Prop where
  tracks : Tracks cfg s.view x
  tables : Tables cfg s.pendingPages s.dramPending s.flashPending x.flights

/-- The steps of the traffic lead to where the cache controller is. -/
abbrev Traffic.Reaches (cfg : Config) {σ : Type} (x : Traffic) (s : HybridSystem σ) : Prop :=
  ∃ y, Relation.ReflTransGen (Step cfg) x y ∧ Represents cfg s y

section Relation

variable {σ : Type} {cfg : Config} {s : View} {x : Traffic} {t : Transaction} {f g : Flight}
  {rest : Multiset Flight} {line a : ℕ} {l : CacheLine}

/-- The keys of `pending_pages` are the pages that the flights lock. -/
theorem Represents.mem_pendingPages {s : HybridSystem σ} (h : Represents cfg s x) {page : ℕ} :
    page ∈ s.pendingPages ↔ page ∈ x.pageKeys cfg := by
  have hkeys : s.pendingPages.entries.keys = x.pageKeys cfg := by
    rw [h.tables.pages, Multiset.keys, Multiset.map_bind]
    exact Multiset.bind_congr fun f _ => f.map_fst_pages
  rw [Finmap.mem_def, hkeys]

/-- A line changes, but not its page and its lock. -/
theorem Tracks.touch (h : Tracks cfg s x) (hvalid : l.valid = (s.cache line).valid)
    (htag : l.tag = (s.cache line).tag) (hcount : l.lockCount = (s.cache line).lockCount)
    (hlocked : l.locked = (s.cache line).locked) :
    Tracks cfg { s with cache := update s.cache line l } x :=
  { h with
    contents := (contents_touch hvalid htag).trans h.contents
    locks := h.locks.touch hcount hlocked }

/-- A flight changes, but not its line. -/
theorem Tracks.swap (h : Tracks cfg s x) (hx : x.flights = f ::ₘ rest) (hline : g.line = f.line) :
    Tracks cfg s { x with flights := g ::ₘ rest } :=
  { h with
    count := by
      rw [h.count, hx, Multiset.card_cons, Multiset.card_cons]
    locks := (hx ▸ h.locks).swap hline }

/-- The active transaction becomes a flight, and locks its line. -/
theorem Tracks.lock (h : Tracks cfg s x) (hactive : x.active = some t) (hline : f.line = line) :
    Tracks cfg
      { s with
        activeTransaction := none
        cache := update s.cache line (s.cache line).lock
        setCounter := update s.setCounter (cfg.setIndex line)
          (s.setCounter (cfg.setIndex line) + 1) }
      { x with active := none, flights := f ::ₘ x.flights } :=
  { h with
    active := rfl
    contents := contents_lock.trans h.contents
    count := by
      rw [h.count, h.active, hactive, Multiset.card_cons]
      simp only [Option.isSome_some, Bool.toNat_true, Option.isSome_none, Bool.toNat_false]
      omega
    locks := h.locks.lock hline rfl rfl }

/-- A flight ends, and releases its line. -/
theorem Tracks.release (h : Tracks cfg s x) (hx : x.flights = f ::ₘ rest)
    (hline : f.line = line) :
    Tracks cfg
      { s with
        cache := update s.cache line (s.cache line).unlock
        setCounter := update s.setCounter (cfg.setIndex line)
          (decrement (s.setCounter (cfg.setIndex line)))
        pendingCount := s.pendingCount - 1 }
      { x with flights := rest } :=
  { h with
    contents := contents_unlock.trans h.contents
    count := by
      rw [h.count, hx, Multiset.card_cons]
      dsimp only
      omega
    locks := (hx ▸ h.locks).unlock hline }

/-- The active transaction ends without a flight. -/
theorem Tracks.settle (h : Tracks cfg s x) (hactive : x.active = some t) :
    Tracks cfg { s with activeTransaction := none, pendingCount := s.pendingCount - 1 }
      { x with active := none } :=
  { h with
    active := rfl
    count := by
      rw [h.count, h.active, hactive]
      simp only [Option.isSome_some, Bool.toNat_true, Option.isSome_none, Bool.toNat_false]
      omega }

/-- A call or a callback. -/
theorem Tracks.call (h : Tracks cfg s x) {e : Event} (he : e.isCall = true) :
    Tracks cfg { s with events := e :: s.events } { x with events := e :: x.events } :=
  { h with events := (List.filter_cons_of_pos he).trans (congrArg (e :: ·) h.events) }

/-- What is recorded besides calls and callbacks. -/
theorem Tracks.note (h : Tracks cfg s x) {e : Event} (he : e.isCall = false) :
    Tracks cfg { s with events := e :: s.events } x :=
  { h with events := (List.filter_cons_of_neg (by simp [he])).trans h.events }

end Relation

end HybridMemory.HybridSim

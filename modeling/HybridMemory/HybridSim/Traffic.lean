import Mathlib.Algebra.BigOperators.Group.Finset.Piecewise
import Mathlib.Algebra.Order.BigOperators.Group.Finset
import Mathlib.Data.Multiset.Bind
import Mathlib.Data.Multiset.Count
import HybridMemory.HybridSim.HybridSystem

/-!
# Transactions under way

What the tables of the cache controller stand for. A transaction that is under way is a `Flight`:
a read of a page that the cache holds, or a page that is moved, into the cache from flash, back
to flash, or both at once. `Traffic` has the flights and the page of each line, and
`Traffic.Step` says what can happen to them without `SYNC`. Neither knows of tables, counters,
locks or the parts in which a page is moved: a line is locked if a flight uses it, and a page if a
flight moves it.

* `Traffic.Inv.step`: no page is in two lines, a flight that moves a page has its line for
  itself, and no page is moved by two flights;
* `Traffic.Bounded.step`: a set has never more flights than lines, and fewer while the active
  transaction belongs to it, so that a miss finds a line that no flight uses;
* `Traffic.Plain.step`: nothing that `SYNC` queues is among the transactions.
-/

namespace HybridMemory.HybridSim

open HybridSystem Function

/-- The page that a line holds. -/
def contents (cfg : Config) (cache : ℕ → CacheLine) (line : ℕ) : Option ℕ :=
  if (cache line).valid then some (cfg.flashAddress (cache line).tag (cfg.setIndex line)) else none

/-- No page is in two lines. -/
def Unique (cfg : Config) (contents : ℕ → Option ℕ) : Prop :=
  ∀ line line' page, cfg.IsLine line → cfg.IsLine line' →
    contents line = some page → contents line' = some page → line = line'

/-- Only lines that hold a page of the address space are dirty. -/
def DirtyPages (cfg : Config) (contents : ℕ → Option ℕ) (dirty : ℕ → Bool) : Prop :=
  ∀ line, dirty line = true → cfg.IsLine line ∧
    ∃ page < cfg.totalPages * cfg.pageSize, contents line = some page

section Contents

variable {cfg : Config} {contents : ℕ → Option ℕ} {line page : ℕ}

/-- A page that is in no line gets into one. -/
theorem Unique.update (h : Unique cfg contents)
    (habsent : ∀ l, cfg.IsLine l → contents l ≠ some page) :
    Unique cfg (Function.update contents line (some page)) := by
  intro l l' q hl hl' hq hq'
  rw [update_apply] at hq hq'
  split_ifs at hq hq' with heq heq'
  · rw [heq, heq']
  · exact absurd (hq'.trans hq.symm) (habsent l' hl')
  · exact absurd (hq.trans hq'.symm) (habsent l hl)
  · exact h l l' q hl hl' hq hq'

end Contents

namespace Pending

variable (cfg : Config)

/-- The page that is accessed. -/
def page (p : Pending) : ℕ := cfg.pageAddress p.flashAddr

/-- The page whose line is used for it. -/
def victimPage (p : Pending) : ℕ := cfg.flashAddress p.victimTag (cfg.setIndex p.cacheAddr)

/-- The page that is replaced, if the line had one. -/
def victim? (p : Pending) : Option ℕ := if p.victimValid then some (p.victimPage cfg) else none

/-- The pages that are locked while a page is moved. -/
def pageKeys (p : Pending) : Multiset ℕ :=
  p.page cfg ::ₘ if p.victimValid then {p.victimPage cfg} else 0

/-- The record of a transaction that missed, for a line with the tag. -/
def ofMiss (t : Transaction) (addr line tag : ℕ) (valid : Bool) : Pending :=
  { origAddr := t.address, flashAddr := addr, cacheAddr := line, victimTag := tag,
    victimValid := valid, callbackSent := false, type := t.transactionType }

/-- The record of a read that hit. -/
def ofRead (origAddr flashAddr line : ℕ) : Pending :=
  { op := .cacheRead, origAddr, flashAddr, cacheAddr := line, victimTag := 0,
    victimValid := false, callbackSent := false, type := .dataRead }

variable {cfg} {p : Pending} {page : ℕ}

theorem mem_pageKeys_iff :
    page ∈ p.pageKeys cfg ↔ page = p.page cfg ∨ p.victim? cfg = some page := by
  by_cases h : p.victimValid = true
  · simp [pageKeys, victim?, h, eq_comm]
  · simp [pageKeys, victim?, h]

theorem page_mem_pageKeys : p.page cfg ∈ p.pageKeys cfg := Multiset.mem_cons_self _ _

end Pending

/-- A transaction under way. -/
inductive Flight
  /-- A read of the cache. -/
  | reading (p : Pending)
  /-- A page is moved. While it is read from flash, `fill` tells whether the callback was made;
  `victim` is set while the page that it replaces is read from DRAM. -/
  | moving (p : Pending) (fill : Option Bool) (victim : Bool)

namespace Flight

variable (cfg : Config)

def pending : Flight → Pending
  | reading p => p
  | moving p _ _ => p

/-- The line that the flight uses. -/
def line (f : Flight) : ℕ := f.pending.cacheAddr

def IsMoving : Flight → Prop
  | reading _ => False
  | moving _ _ _ => True

/-- The pages that the flight locks. -/
def pageKeys : Flight → Multiset ℕ
  | reading _ => 0
  | moving p _ _ => p.pageKeys cfg

/-- The record is for a line of its page's set. -/
structure Placed (p : Pending) : Prop where
  isLine : cfg.IsLine p.cacheAddr
  set : cfg.setIndex p.cacheAddr = cfg.setIndex p.flashAddr
  sent : p.callbackSent = false

/-- A page is read into a line that still holds the page it replaces. -/
structure Filling (contents : ℕ → Option ℕ) (p : Pending) : Prop where
  old : contents p.cacheAddr = p.victim? cfg
  absent : ∀ line, cfg.IsLine line → contents line ≠ some (p.page cfg)
  type : p.type = .dataRead ∨ p.type = .dataWrite ∨ p.type = .prefetch

/-- The page is in its line, and the page it replaced in none. -/
structure Filled (contents : ℕ → Option ℕ) (p : Pending) : Prop where
  new : contents p.cacheAddr = some (p.page cfg)
  absent : ∀ page, p.victim? cfg = some page → ∀ line, cfg.IsLine line → contents line ≠ some page

/-- A flight that moves a page reads it, or else the page it replaced. -/
def Moves (contents : ℕ → Option ℕ) (p : Pending) : Option Bool → Bool → Prop
  | some _, _ => Filling cfg contents p
  | none, victim => victim = true ∧ Filled cfg contents p

/-- The flight fits the pages that the lines hold. -/
def Sound (contents : ℕ → Option ℕ) : Flight → Prop
  | reading p => Placed cfg p ∧ p.op = .cacheRead ∧ p.victimValid = false ∧
      contents p.cacheAddr = some (p.page cfg)
  | moving p fill victim => Placed cfg p ∧ p.op = .victimRead ∧ Moves cfg contents p fill victim

variable {cfg} {contents : ℕ → Option ℕ} {f g : Flight} {p : Pending} {line page : ℕ}
  {fill : Option Bool} {victim : Bool}

@[simp] theorem line_reading : (reading p).line = p.cacheAddr := rfl

@[simp] theorem line_moving : (moving p fill victim).line = p.cacheAddr := rfl

@[simp] theorem pageKeys_reading : (reading p).pageKeys cfg = 0 := rfl

theorem Sound.placed (h : f.Sound cfg contents) : Placed cfg f.pending := by
  cases f with
  | reading p => exact h.1
  | moving p fill victim => exact h.1

/-- The flight stays sound if another line gets a page that it does not lock. -/
theorem Sound.update (h : f.Sound cfg contents) (hline : f.line ≠ line)
    (hpage : page ∉ f.pageKeys cfg) :
    f.Sound cfg (Function.update contents line (some page)) := by
  have hsame : Function.update contents line (some page) f.line = contents f.line :=
    update_of_ne hline _ _
  have hother : ∀ q ∈ f.pageKeys cfg, ∀ l, contents l ≠ some q →
      Function.update contents line (some page) l ≠ some q := by
    intro q hq l hl
    by_cases heq : l = line
    · subst heq
      rw [update_self]
      rintro h
      exact hpage (Option.some.inj h ▸ hq)
    · rwa [update_of_ne heq]
  cases f with
  | reading p => exact ⟨h.1, h.2.1, h.2.2.1, hsame.trans h.2.2.2⟩
  | moving p fill victim =>
    obtain ⟨hplaced, hop, hmoves⟩ := h
    refine ⟨hplaced, hop, ?_⟩
    cases fill with
    | some sent =>
      exact { hmoves with
        old := hsame.trans hmoves.old
        absent := fun l hl => hother _ Pending.page_mem_pageKeys l (hmoves.absent l hl) }
    | none =>
      obtain ⟨hvictim, hf⟩ := hmoves
      exact ⟨hvictim, {
        new := hsame.trans hf.new
        absent := fun q hq l hl =>
          hother q (Pending.mem_pageKeys_iff.mpr (Or.inr hq)) l (hf.absent q hq l hl) }⟩

/-- The page in the line of a moving flight is one that it locks. -/
theorem Sound.mem_pageKeys (h : (moving p fill victim).Sound cfg contents)
    (hpage : contents p.cacheAddr = some page) : page ∈ p.pageKeys cfg := by
  obtain ⟨-, -, hmoves⟩ := h
  rw [Pending.mem_pageKeys_iff]
  cases fill with
  | some sent => exact Or.inr (hmoves.old ▸ hpage)
  | none => exact Or.inl (Option.some.inj (hpage.symm.trans hmoves.2.new))

/-- A locked page that is in a line is in the line of the flight. -/
theorem Sound.line_eq_of_mem (hunique : Unique cfg contents)
    (h : (moving p fill victim).Sound cfg contents) (hpage : page ∈ p.pageKeys cfg)
    (hline : cfg.IsLine line) (hcontents : contents line = some page) : line = p.cacheAddr := by
  obtain ⟨hplaced, -, hmoves⟩ := h
  rw [Pending.mem_pageKeys_iff] at hpage
  cases fill with
  | some sent =>
    rcases hpage with rfl | hvictim
    · exact absurd hcontents (hmoves.absent line hline)
    · exact hunique line _ page hline hplaced.isLine hcontents (hmoves.old.trans hvictim)
  | none =>
    rcases hpage with rfl | hvictim
    · exact hunique line _ _ hline hplaced.isLine hcontents hmoves.2.new
    · exact absurd hcontents (hmoves.2.absent page hvictim line hline)

end Flight

/-- The callback for an access, if it has one. -/
def answer (type : TransactionType) (origAddr : ℕ) : List Event :=
  match type with
  | .dataRead => [.done false (callbackAddress origAddr)]
  | .dataWrite => [.done true (callbackAddress origAddr)]
  | .prefetch | .flush | .syncAllCounter | .sync => []

/-- The transaction does not belong to a `SYNC`. -/
def Transaction.IsPlain (t : Transaction) : Prop :=
  t.transactionType ≠ .sync ∧ t.transactionType ≠ .syncAllCounter

/-- The transactions that wait and those under way, what the lines hold, and which accesses were
accepted and answered. -/
structure Traffic where
  queue : Multiset Transaction
  active : Option Transaction
  flights : Multiset Flight
  contents : ℕ → Option ℕ
  events : List Event

namespace Traffic

variable (cfg : Config)

/-- The pages that the flights lock. -/
def pageKeys (x : Traffic) : Multiset ℕ := x.flights.bind (Flight.pageKeys cfg)

/-- The number of flights that use a line. -/
def users (x : Traffic) (line : ℕ) : ℕ := x.flights.countP (Flight.line · = line)

/-- The number of flights that use lines of a set. -/
def setUsers (x : Traffic) (set : ℕ) : ℕ :=
  x.flights.countP fun f => cfg.setIndex f.line = set

/-- A flight that moves a page goes on with what is left to do, or ends. -/
def proceed (x : Traffic) (rest : Multiset Flight) (p : Pending) (fill : Option Bool)
    (victim : Bool) : Traffic :=
  match fill, victim with
  | none, false => { x with flights := rest }
  | fill, victim => { x with flights := .moving p fill victim ::ₘ rest }

/-- The transaction is active, and its page is in the line. -/
structure Hits (x : Traffic) (t : Transaction) (line : ℕ) : Prop where
  active : x.active = some t
  isLine : cfg.IsLine line
  set : cfg.setIndex line = cfg.setIndex (cfg.align t.address)
  holds : x.contents line = some (cfg.pageAddress (cfg.align t.address))

/-- The transaction is active, its page is in no line, and the line of its set is unused. -/
structure Misses (x : Traffic) (t : Transaction) (line : ℕ) : Prop where
  active : x.active = some t
  isLine : cfg.IsLine line
  set : cfg.setIndex line = cfg.setIndex (cfg.align t.address)
  absent : ∀ l, cfg.IsLine l → x.contents l ≠ some (cfg.pageAddress (cfg.align t.address))
  unused : x.users line = 0

/-- What can happen. -/
inductive Step (x : Traffic) : Traffic → Prop
  /-- A read or a write is queued. -/
  | accept (isWrite : Bool) (addr : ℕ) (h : ¬ (threePointFiveGB ≤ addr ∧ addr < fourGB)) :
      Step x { x with
        queue := ⟨dataType isWrite, remap addr⟩ ::ₘ x.queue
        events := .accepted isWrite addr :: x.events }
  /-- A read or a write of the memory mapped devices is answered. -/
  | drop (isWrite : Bool) (addr : ℕ) :
      Step x { x with
        events := .done isWrite addr :: .accepted isWrite addr :: x.events }
  | push (t : Transaction) (htype : t.transactionType = .prefetch ∨ t.transactionType = .flush) :
      Step x { x with queue := t ::ₘ x.queue }
  /-- A transaction becomes the active one. -/
  | activate (t : Transaction) (queue : Multiset Transaction) (hactive : x.active = none)
      (hqueue : x.queue = t ::ₘ queue)
      (hset : x.setUsers cfg (cfg.setIndex (cfg.align t.address)) ≠ cfg.setSize)
      (hpage : cfg.pageAddress (cfg.align t.address) ∉ x.pageKeys cfg) :
      Step x { x with queue := queue, active := some t }
  /-- The active transaction ends, and does not change what the lines hold. -/
  | settle (t : Transaction) (hactive : x.active = some t)
      (htype : t.transactionType = .prefetch ∨ t.transactionType = .flush) :
      Step x { x with active := none }
  /-- A read of a page in the cache begins. -/
  | read (t : Transaction) (line : ℕ) (h : x.Hits cfg t line)
      (htype : t.transactionType = .dataRead) :
      Step x { x with
        active := none
        flights := .reading (.ofRead t.address (cfg.align t.address) line) ::ₘ x.flights }
  /-- A page in the cache is written. -/
  | write (t : Transaction) (hactive : x.active = some t)
      (htype : t.transactionType = .dataWrite) :
      Step x { x with
        active := none
        events := .done true (callbackAddress t.address) :: x.events }
  /-- A cheating prefetch puts its page into a line at once. -/
  | cheat (t : Transaction) (line : ℕ) (h : x.Misses cfg t line)
      (htype : t.transactionType = .prefetch) :
      Step x { x with
        active := none
        contents :=
          Function.update x.contents line (some (cfg.pageAddress (cfg.align t.address))) }
  /-- A page begins to be moved into the line of another. -/
  | miss (t : Transaction) (line tag : ℕ) (valid victim : Bool) (h : x.Misses cfg t line)
      (htype : t.transactionType = .dataRead ∨ t.transactionType = .dataWrite ∨
        t.transactionType = .prefetch)
      (hold : x.contents line =
        (Pending.ofMiss t (cfg.align t.address) line tag valid).victim? cfg) :
      Step x { x with
        active := none
        flights := .moving (.ofMiss t (cfg.align t.address) line tag valid) (some false) victim
          ::ₘ x.flights }
  /-- A read of the cache ends. -/
  | readDone (p : Pending) (rest : Multiset Flight) (h : x.flights = .reading p ::ₘ rest) :
      Step x { x with
        flights := rest
        events := .done false (callbackAddress p.origAddr) :: x.events }
  /-- The callback is made before the page is complete. -/
  | critical (p : Pending) (victim : Bool) (rest : Multiset Flight)
      (h : x.flights = .moving p (some false) victim ::ₘ rest) :
      Step x { x with
        flights := .moving p (some true) victim ::ₘ rest
        events := answer p.type p.origAddr ++ x.events }
  /-- The page is read from DRAM. -/
  | victimDone (p : Pending) (fill : Option Bool) (rest : Multiset Flight)
      (h : x.flights = .moving p fill true ::ₘ rest) : Step x (x.proceed rest p fill false)
  /-- The page is read from flash. -/
  | fillDone (p : Pending) (sent victim : Bool) (rest : Multiset Flight)
      (h : x.flights = .moving p (some sent) victim ::ₘ rest) :
      Step x { x.proceed rest p none victim with
        contents := Function.update x.contents p.cacheAddr (some (p.page cfg))
        events := (if sent then [] else answer p.type p.origAddr) ++ x.events }

variable {cfg} {x y : Traffic} {f g : Flight}
  {rest : Multiset Flight} {p : Pending} {line page : ℕ}
  {fill : Option Bool} {victim : Bool}

theorem proceed_of_fill {sent : Bool} :
    x.proceed rest p (some sent) victim =
      { x with flights := .moving p (some sent) victim ::ₘ rest } := by
  cases victim <;> rfl

@[simp] theorem proceed_active : (x.proceed rest p fill victim).active = x.active := by
  cases fill <;> cases victim <;> rfl

@[simp] theorem proceed_contents : (x.proceed rest p fill victim).contents = x.contents := by
  cases fill <;> cases victim <;> rfl

/-! ### Users of a line -/

theorem users_eq_zero_iff : x.users line = 0 ↔ ∀ f ∈ x.flights, f.line ≠ line := by
  rw [users, Multiset.countP_eq_zero]

theorem users_cons (hx : x.flights = f ::ₘ rest) (line : ℕ) :
    x.users line = rest.countP (Flight.line · = line) + if f.line = line then 1 else 0 := by
  rw [users, hx, Multiset.countP_cons]

theorem mem_pageKeys_iff : page ∈ x.pageKeys cfg ↔ ∃ f ∈ x.flights, page ∈ f.pageKeys cfg := by
  rw [pageKeys, Multiset.mem_bind]

theorem pageKeys_cons (hx : x.flights = f ::ₘ rest) :
    x.pageKeys cfg = f.pageKeys cfg + rest.bind (Flight.pageKeys cfg) := by
  rw [pageKeys, hx, Multiset.cons_bind]

/-! ### The invariant -/

/-- The flights and the lines fit together. -/
structure Inv (cfg : Config) (x : Traffic) : Prop where
  unique : Unique cfg x.contents
  sound : ∀ f ∈ x.flights, f.Sound cfg x.contents
  nodup : (x.pageKeys cfg).Nodup
  exclusive : ∀ f ∈ x.flights, f.IsMoving → x.users f.line = 1
  active : ∀ t, x.active = some t → cfg.pageAddress (cfg.align t.address) ∉ x.pageKeys cfg

section Inv

variable (h : x.Inv cfg)

include h

/-- What the invariant reads. -/
theorem Inv.congr (hflights : y.flights = x.flights)
    (hcontents : y.contents = x.contents) (hactive : y.active = x.active) : y.Inv cfg where
  unique := hcontents ▸ h.unique
  sound := hflights ▸ hcontents ▸ h.sound
  nodup := by rw [pageKeys, hflights]; exact h.nodup
  exclusive := by
    simp only [users, hflights]
    exact h.exclusive
  active := by rw [pageKeys, hflights, hactive]; exact h.active

theorem Inv.inactive : Inv cfg { x with active := none } :=
  { h with active := fun _ ht => by cases ht }

/-- No flight moves a page in the line of a hit. -/
theorem Inv.not_moving (hpage : page ∉ x.pageKeys cfg)
    (hcontents : x.contents line = some page) : ∀ f ∈ x.flights, f.IsMoving → f.line ≠ line := by
  rintro f hf hmoving rfl
  cases f with
  | reading p => exact hmoving
  | moving p fill victim =>
    exact hpage (mem_pageKeys_iff.mpr ⟨_, hf, (h.sound _ hf).mem_pageKeys hcontents⟩)

/-- The page in a line is locked only by a flight that uses the line. -/
theorem Inv.notMem_pageKeys (hline : cfg.IsLine line) (hcontents : x.contents line = some page)
    (hmoving : ∀ f ∈ x.flights, f.IsMoving → f.line ≠ line) : page ∉ x.pageKeys cfg := by
  intro hpage
  obtain ⟨f, hf, hkey⟩ := mem_pageKeys_iff.mp hpage
  cases f with
  | reading p => simp at hkey
  | moving p fill victim =>
    exact hmoving _ hf trivial
      ((h.sound _ hf).line_eq_of_mem h.unique hkey hline hcontents).symm

/-- A flight that moves a page has its line for itself. -/
theorem Inv.ne_of_moving (hx : x.flights = f ::ₘ rest) (hf : f.IsMoving) :
    ∀ g ∈ rest, g.line ≠ f.line := by
  have husers := h.exclusive f (hx ▸ Multiset.mem_cons_self f rest) hf
  rw [users_cons hx, if_pos rfl] at husers
  exact Multiset.countP_eq_zero.mp (by omega)

/-- A new flight. -/
theorem Inv.add (hy : y.flights = f ::ₘ x.flights)
    (hcontents : y.contents = x.contents) (hactive : y.active = none)
    (hsound : f.Sound cfg x.contents) (hkeys : (f.pageKeys cfg + x.pageKeys cfg).Nodup)
    (hother : ∀ g ∈ x.flights, g.IsMoving → g.line ≠ f.line)
    (hself : f.IsMoving → x.users f.line = 0) : y.Inv cfg where
  unique := hcontents ▸ h.unique
  sound := by
    rw [hy, hcontents]
    exact Multiset.forall_mem_cons.mpr ⟨hsound, h.sound⟩
  nodup := by rwa [pageKeys_cons hy]
  exclusive := by
    intro g hg hmoving
    rw [users_cons hy]
    rcases Multiset.mem_cons.mp (hy ▸ hg) with rfl | hg
    · rw [if_pos rfl]
      exact congrArg (· + 1) (hself hmoving)
    · rw [if_neg (hother g hg hmoving).symm]
      exact h.exclusive g hg hmoving
  active := fun t ht => by rw [hactive] at ht; cases ht

/-- A flight ends. -/
theorem Inv.remove (hx : x.flights = f ::ₘ rest) (hy : y.flights = rest)
    (hcontents : y.contents = x.contents) (hactive : y.active = x.active) : y.Inv cfg where
  unique := hcontents ▸ h.unique
  sound := by
    rw [hy, hcontents]
    exact fun g hg => h.sound g (hx ▸ Multiset.mem_cons_of_mem hg)
  nodup := by
    have hnodup := h.nodup
    rw [pageKeys_cons hx] at hnodup
    rw [pageKeys, hy]
    exact (Multiset.nodup_add.mp hnodup).2.1
  exclusive := by
    intro g hg hmoving
    rw [hy] at hg
    have husers := h.exclusive g (hx ▸ Multiset.mem_cons_of_mem hg) hmoving
    have hpos : 0 < rest.countP (Flight.line · = g.line) := Multiset.countP_pos.mpr ⟨g, hg, rfl⟩
    rw [users_cons hx] at husers
    rw [users, hy]
    omega
  active := fun t ht hpage => by
    refine h.active t (hactive ▸ ht) ?_
    rw [pageKeys_cons hx, Multiset.mem_add]
    rw [pageKeys, hy] at hpage
    exact Or.inr hpage

/-- A flight that moves a page changes, and keeps its line and the pages it locks. -/
theorem Inv.swap (hx : x.flights = f ::ₘ rest) (hy : y.flights = g ::ₘ rest)
    (hactive : y.active = x.active) (hline : g.line = f.line)
    (hkeys : g.pageKeys cfg = f.pageKeys cfg) (hf : f.IsMoving)
    (hunique : Unique cfg y.contents)
    (hg : g.Sound cfg y.contents) (hrest : ∀ k ∈ rest, k.Sound cfg y.contents) : y.Inv cfg := by
  have hsame : y.pageKeys cfg = x.pageKeys cfg := by rw [pageKeys_cons hx, pageKeys_cons hy, hkeys]
  refine ⟨hunique, hy ▸ Multiset.forall_mem_cons.mpr ⟨hg, hrest⟩, hsame ▸ h.nodup, ?_, ?_⟩
  · intro k hk hmoving
    have husers : y.users k.line = x.users k.line := by rw [users_cons hx, users_cons hy, hline]
    rw [husers]
    rcases Multiset.mem_cons.mp (hy ▸ hk) with rfl | hk
    · rw [hline]
      exact h.exclusive f (hx ▸ Multiset.mem_cons_self f rest) hf
    · exact h.exclusive k (hx ▸ Multiset.mem_cons_of_mem hk) hmoving
  · rw [hactive, hsame]
    exact h.active

/-! ### Steps keep the invariant -/

theorem Hits.not_moving {t : Transaction} (hit : x.Hits cfg t line) :
    ∀ f ∈ x.flights, f.IsMoving → f.line ≠ line :=
  h.not_moving (h.active t hit.active) hit.holds

omit h in
/-- The record of a hit or a miss is for a line of its set. -/
theorem placed_of_set {t : Transaction} (hline : cfg.IsLine line)
    (hset : cfg.setIndex line = cfg.setIndex (cfg.align t.address)) {p : Pending}
    (haddr : p.flashAddr = cfg.align t.address) (hcache : p.cacheAddr = line)
    (hsent : p.callbackSent = false) : Flight.Placed cfg p where
  isLine := hcache ▸ hline
  set := by rw [hcache, haddr, hset]
  sent := hsent

/-- A read begins. -/
theorem Inv.read {t : Transaction} (hit : x.Hits cfg t line) : Inv cfg { x with
      active := none
      flights := .reading (.ofRead t.address (cfg.align t.address) line) ::ₘ x.flights } := by
  refine h.add rfl rfl rfl ?_ ?_ (hit.not_moving h) fun hmoving => hmoving.elim
  · exact ⟨placed_of_set hit.isLine hit.set rfl rfl rfl, rfl, rfl, hit.holds⟩
  · rw [Flight.pageKeys_reading, zero_add]
    exact h.nodup

/-- A cheating prefetch fills an unused line. -/
theorem Inv.cheat {t : Transaction} (hmiss : x.Misses cfg t line) : Inv cfg { x with
      active := none
      contents :=
        Function.update x.contents line (some (cfg.pageAddress (cfg.align t.address))) } where
  unique := h.unique.update hmiss.absent
  sound := by
    intro f hf
    refine (h.sound f hf).update (users_eq_zero_iff.mp hmiss.unused f hf) fun hpage => ?_
    exact h.active t hmiss.active (mem_pageKeys_iff.mpr ⟨f, hf, hpage⟩)
  nodup := h.nodup
  exclusive := h.exclusive
  active := fun _ ht => by cases ht

/-- A miss begins to move its page. -/
theorem Inv.miss {t : Transaction} {tag : ℕ} {valid : Bool} (hmiss : x.Misses cfg t line)
    (htype : t.transactionType = .dataRead ∨ t.transactionType = .dataWrite ∨
      t.transactionType = .prefetch)
    (hold : x.contents line =
      (Pending.ofMiss t (cfg.align t.address) line tag valid).victim? cfg) :
    Inv cfg { x with
      active := none
      flights := .moving (.ofMiss t (cfg.align t.address) line tag valid) (some false) victim
        ::ₘ x.flights } := by
  have hfree := users_eq_zero_iff.mp hmiss.unused
  refine h.add rfl rfl rfl ?_ ?_ (fun g hg _ => hfree g hg) fun _ => hmiss.unused
  · exact ⟨placed_of_set hmiss.isLine hmiss.set rfl rfl rfl, rfl, hold, hmiss.absent, htype⟩
  · refine Multiset.nodup_add.mpr ⟨?_, h.nodup, Multiset.disjoint_left.mpr ?_⟩
    · -- the page that misses is not the one in the line
      cases valid with
      | false => exact Multiset.nodup_singleton _
      | true =>
        refine Multiset.nodup_cons.mpr ⟨fun hmem => ?_, Multiset.nodup_singleton _⟩
        exact hmiss.absent line hmiss.isLine (hold.trans (congrArg some
          (Multiset.mem_singleton.mp hmem).symm))
    · intro page hpage
      rcases Pending.mem_pageKeys_iff.mp hpage with rfl | hpage
      · exact h.active t hmiss.active
      · exact h.notMem_pageKeys hmiss.isLine (hold.trans hpage) fun f hf _ => hfree f hf

/-- The page of a flight is in its line, and the page it replaces is in none. -/
theorem Inv.filled {sent : Bool} (hx : x.flights = .moving p (some sent) victim ::ₘ rest) :
    Inv cfg { x with
      flights := .moving p none true ::ₘ rest
      contents := Function.update x.contents p.cacheAddr (some (p.page cfg)) } := by
  obtain ⟨hplaced, hop, hf⟩ := h.sound _ (hx ▸ Multiset.mem_cons_self _ rest)
  have hnodup := h.nodup
  rw [pageKeys_cons hx] at hnodup
  have hdisjoint := (Multiset.nodup_add.mp hnodup).2.2
  refine h.swap hx rfl rfl rfl rfl trivial (h.unique.update hf.absent) ?_ fun g hg => ?_
  · refine ⟨hplaced, hop, rfl, update_self _ _ _, ?_⟩
    · -- the page it replaces is not the page itself, and was in this line only
      intro page hpage line hline
      have hold := hf.old.trans hpage
      dsimp only
      by_cases heq : line = p.cacheAddr
      · subst heq
        rw [update_self]
        exact fun hsame => hf.absent p.cacheAddr hline (hsame ▸ hold)
      · rw [update_of_ne heq]
        exact fun hin => heq (h.unique _ _ page hline hplaced.isLine hin hold)
  · refine (h.sound g (hx ▸ Multiset.mem_cons_of_mem hg)).update
      (h.ne_of_moving hx trivial g hg) fun hpage => ?_
    exact Multiset.disjoint_left.mp hdisjoint Pending.page_mem_pageKeys
      (Multiset.mem_bind.mpr ⟨g, hg, hpage⟩)

/-- A page is still read from flash. -/
theorem Inv.filling {sent : Bool}
    (hx : x.flights = .moving p (some sent) victim ::ₘ rest) (sent' victim' : Bool) :
    Inv cfg { x with flights := .moving p (some sent') victim' ::ₘ rest } := by
  have hself := h.sound _ (hx ▸ Multiset.mem_cons_self _ rest)
  exact h.swap hx rfl rfl rfl rfl trivial h.unique hself
    fun k hk => h.sound k (hx ▸ Multiset.mem_cons_of_mem hk)

/-- A flight that moves the page of its line back goes on, or ends. -/
theorem Inv.proceed (hx : x.flights = .moving p fill true ::ₘ rest)
    (victim : Bool) : (x.proceed rest p fill victim).Inv cfg := by
  cases fill with
  | some sent =>
    rw [proceed_of_fill]
    exact h.filling hx sent victim
  | none =>
    cases victim with
    | true => exact h.congr hx.symm rfl rfl
    | false => exact h.remove hx rfl rfl rfl

/-- **The invariant.** -/
theorem Inv.step (hstep : x.Step cfg y) : y.Inv cfg := by
  cases hstep with
  | accept | drop | push => exact h.congr rfl rfl rfl
  | activate t queue hactive hqueue hset hpage =>
    exact { h with active := fun t' ht => Option.some.inj ht ▸ hpage }
  | settle | write => exact h.inactive.congr rfl rfl rfl
  | read t line hit => exact h.read hit
  | cheat t line hmiss => exact (h.cheat hmiss).congr rfl rfl rfl
  | miss t line tag valid victim hmiss htype hold => exact h.miss hmiss htype hold
  | readDone p rest hx => exact h.remove hx rfl rfl rfl
  | critical p victim rest hx => exact (h.filling hx true victim).congr rfl rfl rfl
  | victimDone p fill rest hx => exact h.proceed hx false
  | fillDone p sent victim rest hx =>
    refine ((h.filled hx).proceed rfl victim).congr ?_ ?_ ?_
    · cases victim <;> rfl
    · simp
    · simp

end Inv

/-! ### Users of a set -/

theorem setUsers_cons (hx : x.flights = f ::ₘ rest) (set : ℕ) :
    x.setUsers cfg set = rest.countP (fun f => cfg.setIndex f.line = set) +
      if cfg.setIndex f.line = set then 1 else 0 := by
  rw [setUsers, hx, Multiset.countP_cons]

/-- A flight that moves a page changes. -/
theorem setUsers_moving {fill' : Option Bool} {victim' : Bool}
    (hx : x.flights = .moving p fill victim ::ₘ rest)
    (hy : y.flights = .moving p fill' victim' ::ₘ rest) (set : ℕ) :
    y.setUsers cfg set = x.setUsers cfg set := by
  rw [setUsers_cons hx, setUsers_cons hy, Flight.line_moving, Flight.line_moving]

/-- The users of a set are those of its lines. -/
theorem setUsers_eq_sum (hline : ∀ f ∈ x.flights, cfg.IsLine f.line) {set : ℕ}
    (hset : set < cfg.numSets) :
    x.setUsers cfg set = ∑ line ∈ (cfg.setAddresses set).toFinset, x.users line := by
  simp only [setUsers, users]
  generalize x.flights = flights at hline
  induction flights using Multiset.induction_on with
  | empty => simp
  | cons f flights ih =>
    have hmem : cfg.setIndex f.line = set ↔ f.line ∈ (cfg.setAddresses set).toFinset := by
      rw [List.mem_toFinset]
      constructor
      · rintro rfl
        exact hline f (Multiset.mem_cons_self f flights)
      · exact Config.setIndex_of_mem hset
    simp only [Multiset.countP_cons, Finset.sum_add_distrib, Finset.sum_ite_eq, hmem]
    rw [ih fun g hg => hline g (Multiset.mem_cons_of_mem hg)]

theorem Inv.isLine (h : x.Inv cfg) (hf : f ∈ x.flights) : cfg.IsLine f.line :=
  (h.sound f hf).placed.isLine

/-- A set with fewer users than lines has an unused line. -/
theorem Inv.exists_unused (h : x.Inv cfg) {set : ℕ} (hset : set < cfg.numSets)
    (hlt : x.setUsers cfg set < cfg.setSize) : ∃ line ∈ cfg.setAddresses set, x.users line = 0 := by
  by_contra hnone
  push Not at hnone
  rw [setUsers_eq_sum (fun f hf => h.isLine hf) hset] at hlt
  have hle : (cfg.setAddresses set).toFinset.card ≤
      ∑ line ∈ (cfg.setAddresses set).toFinset, x.users line := by
    rw [Finset.card_eq_sum_ones]
    refine Finset.sum_le_sum fun line hline => ?_
    exact Nat.one_le_iff_ne_zero.mpr (hnone line (List.mem_toFinset.mp hline))
  rw [List.toFinset_card_of_nodup (cfg.nodup_setAddresses set), cfg.length_setAddresses] at hle
  omega

/-! ### Bounds -/

/-- No set has more users than lines. -/
structure Bounded (cfg : Config) (x : Traffic) : Prop where
  le : ∀ set, x.setUsers cfg set ≤ cfg.setSize
  lt : ∀ t, x.active = some t → x.setUsers cfg (cfg.setIndex (cfg.align t.address)) < cfg.setSize

theorem Bounded.mono (h : x.Bounded cfg)
    (hle : ∀ set, y.setUsers cfg set ≤ x.setUsers cfg set)
    (hactive : ∀ t, y.active = some t → x.active = some t) : y.Bounded cfg where
  le := fun set => (hle set).trans (h.le set)
  lt := fun t ht => (hle _).trans_lt (h.lt t (hactive t ht))

/-- A flight begins for the active transaction. -/
theorem Bounded.add (h : x.Bounded cfg) {t : Transaction} (hactive : x.active = some t)
    (hy : y.flights = f ::ₘ x.flights)
    (hline : cfg.setIndex f.line = cfg.setIndex (cfg.align t.address)) (hnone : y.active = none) :
    y.Bounded cfg where
  le := by
    intro set
    rw [setUsers_cons hy]
    split_ifs with heq
    · have hlt := h.lt t hactive
      rw [← hline, heq] at hlt
      exact hlt
    · exact h.le set
  lt := fun t ht => by rw [hnone] at ht; cases ht

theorem setUsers_le_of_cons (hx : x.flights = f ::ₘ rest) (hy : y.flights = rest) (set : ℕ) :
    y.setUsers cfg set ≤ x.setUsers cfg set := by
  rw [setUsers_cons hx, setUsers, hy]
  exact Nat.le_add_right _ _

theorem setUsers_proceed_le {fill' : Option Bool} {victim' : Bool}
    (hx : x.flights = .moving p fill' victim' ::ₘ rest) (set : ℕ) :
    (x.proceed rest p fill victim).setUsers cfg set ≤ x.setUsers cfg set := by
  cases fill with
  | some sent =>
    rw [proceed_of_fill]
    exact (setUsers_moving hx rfl set).le
  | none =>
    cases victim with
    | true => exact (setUsers_moving hx rfl set).le
    | false => exact setUsers_le_of_cons hx rfl set

/-- **The bound.** -/
theorem Bounded.step (h : x.Bounded cfg) (hstep : x.Step cfg y) : y.Bounded cfg := by
  cases hstep with
  | accept | drop | push => exact h.mono (fun _ => le_rfl) fun _ => id
  | activate t queue hactive hqueue hset =>
    refine { h with lt := fun t' ht => ?_ }
    obtain rfl := Option.some.inj ht
    exact lt_of_le_of_ne (h.le _) hset
  | settle | write | cheat => exact h.mono (fun _ => le_rfl) fun _ ht => by cases ht
  | read t line hit => exact h.add hit.active rfl hit.set rfl
  | miss t line tag valid victim hmiss => exact h.add hmiss.active rfl hmiss.set rfl
  | readDone p rest hx => exact h.mono (fun set => setUsers_le_of_cons hx rfl set) fun _ => id
  | critical p victim rest hx =>
    exact h.mono (fun set => (setUsers_moving hx rfl set).le) fun _ => id
  | victimDone p fill rest hx =>
    exact h.mono (fun set => setUsers_proceed_le hx set) fun t ht => by simpa using ht
  | fillDone p sent victim rest hx =>
    exact h.mono (fun set => setUsers_proceed_le hx set) fun t ht => by simpa using ht

/-! ### Without `SYNC` -/

/-- The transactions that wait or are active are no `SYNC` and no counter. -/
structure Plain (x : Traffic) : Prop where
  queue : ∀ t ∈ x.queue, t.IsPlain
  active : ∀ t, x.active = some t → t.IsPlain

theorem Plain.step (h : x.Plain) (hstep : x.Step cfg y) : y.Plain := by
  cases hstep with
  | accept isWrite addr hmmio =>
    refine { h with queue := Multiset.forall_mem_cons.mpr ⟨?_, h.queue⟩ }
    cases isWrite <;> exact ⟨by rintro ⟨⟩, by rintro ⟨⟩⟩
  | push t htype =>
    refine { h with queue := Multiset.forall_mem_cons.mpr ⟨?_, h.queue⟩ }
    rcases htype with htype | htype <;> exact ⟨by simp [htype], by simp [htype]⟩
  | activate t queue hactive hqueue =>
    obtain ⟨ht, hrest⟩ := Multiset.forall_mem_cons.mp (hqueue ▸ h.queue)
    exact ⟨hrest, fun t' ht' => Option.some.inj ht' ▸ ht⟩
  | settle | read | write | cheat | miss => exact ⟨h.queue, fun _ ht => by cases ht⟩
  | victimDone p fill rest hx => cases fill <;> exact ⟨h.queue, h.active⟩
  | fillDone p sent victim rest hx => cases victim <;> exact ⟨h.queue, h.active⟩
  | drop | readDone | critical => exact ⟨h.queue, h.active⟩

end Traffic

end HybridMemory.HybridSim

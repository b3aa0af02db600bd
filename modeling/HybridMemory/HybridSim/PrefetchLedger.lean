import HybridMemory.HybridSim.Simulation

/-!
# What happens to prefetches

The controller counts the prefetches that were made, those that were not used yet, and those that
were replaced before; `prefetch_cheat_map` has the addresses of prefetches that take no time. The
functions of the controller change these numbers, and the flags of the lines, in a few ways only.
They are the changes of a `Ledger`, and the steps in which a transaction becomes active and is done:

* `Moves.flashReadCallback`: a page that is read from flash fills a line;
* `Turns.processTransaction`, `Turns.update`: a transaction uses a line, or evicts one, and is done;
* `Turns.next`: whatever happens to the controller is a number of steps, if it enters no cheating
  prefetches in the map.

With `SYNC` a line may be evicted that is still being filled. What a step needs to know of its line
is therefore a condition that holds if the run is `safe`.
-/

namespace HybridMemory.HybridSim

open HybridSystem Registry Function

/-- The lines of the cache. -/
def Config.lines (cfg : Config) : Finset ℕ :=
  (Finset.range cfg.numSets).biUnion fun set => (cfg.setAddresses set).toFinset

theorem Config.IsLine.mem_lines {cfg : Config} {line : ℕ} (h : cfg.IsLine line) :
    line ∈ cfg.lines :=
  Finset.mem_biUnion.mpr ⟨_, Finset.mem_range.mpr (cfg.setIndex_lt line), List.mem_toFinset.mpr h⟩

/-! ### Ledgers -/

/-- A page is replaced that was prefetched and used. -/
def Event.replacesUsed : Event → Bool
  | .replaces _ victim lines _ _ => lines.any fun l => l.1 = victim ∧ l.2.prefetched ∧ l.2.used
  | _ => false

/-- No page is replaced, and no prefetch hits. -/
def Event.isQuiet : Event → Bool
  | .replaces _ _ _ _ _ | .hits _ => false
  | _ => true

/-- The page that a prefetch of an address brings into the cache. -/
def Config.prefetchedPage (cfg : Config) (addr : ℕ) : ℕ := cfg.pageAddress (cfg.align addr)

/-- What is known of the prefetches. -/
structure Ledger where
  cheatMap : ℕ → ℕ
  total : ℕ
  unused : ℕ
  victims : ℕ
  /-- Whether the page of a line was prefetched, and whether it was used. -/
  flags : ℕ → Bool × Bool
  /-- The lines that get a page from flash. -/
  filling : Multiset ℕ
  events : List Event
  active : Option Transaction
  queue : List Transaction

namespace Ledger

/-- A line is used. -/
def use (b : Ledger) (line : ℕ) : Ledger :=
  { b with
    unused :=
      if (b.flags line).1 ∧ (b.flags line).2 = false then decrement b.unused else b.unused
    flags := update b.flags line ((b.flags line).1, true) }

/-- The page of a line is evicted. -/
def retire (b : Ledger) (line : ℕ) (e : Event) : Ledger :=
  { b with
    events := e :: b.events
    unused :=
      if (b.flags line).1 ∧ (b.flags line).2 = false then decrement b.unused else b.unused
    victims := if (b.flags line).1 ∧ (b.flags line).2 = false then b.victims + 1 else b.victims }

/-- A line is filled with a page. -/
def fill (b : Ledger) (line page : ℕ) (prefetch : Bool) : Ledger :=
  { b with
    total := b.total + if prefetch then 1 else 0
    unused := b.unused + if prefetch then 1 else 0
    flags := update b.flags line (prefetch, false)
    events := .fills page :: b.events }

/-- A cheating prefetch is queued. -/
def enter (b : Ledger) (addr : ℕ) : Ledger :=
  { b with
    cheatMap := update b.cheatMap addr (b.cheatMap addr + 1)
    queue := ⟨.prefetch, addr⟩ :: b.queue }

/-- A line that is not being filled. -/
def Idle (cfg : Config) (b : Ledger) (line : ℕ) : Prop := line ∈ cfg.lines ∧ line ∉ b.filling

/-- What can change, where prefetches are queued for some addresses. -/
inductive Change (cfg : Config) (asked : Set ℕ) (safe : Prop) : Ledger → Ledger → Prop
  | record {b : Ledger} (e : Event) (he : e.isQuiet = true) :
    Change cfg asked safe b { b with events := e :: b.events }
  | push {b : Ledger} (t : Transaction) (queue : List Transaction)
    (ht : t.transactionType = .prefetch → t.address ∈ asked)
    (hqueue : queue.Perm (t :: b.queue)) : Change cfg asked safe b { b with queue := queue }
  | use {b : Ledger} (line : ℕ) (hline : safe → b.Idle cfg line) :
    Change cfg asked safe b (b.use line)
  | miss {b : Ledger} (line : ℕ) (e : Event) (filling : Multiset ℕ) (he : ∀ page, e ≠ .hits page)
    (hline : safe → b.Idle cfg line ∧ filling = line ::ₘ b.filling ∧
      e.replacesUsed = ((b.flags line).1 && (b.flags line).2)) :
    Change cfg asked safe b { b.retire line e with filling := filling }
  | fill {b : Ledger} (line page : ℕ) (prefetch : Bool) (rest : Multiset ℕ)
    (hline : safe → line ∈ cfg.lines ∧ b.filling = line ::ₘ rest ∧ line ∉ rest) :
    Change cfg asked safe b { b.fill line page prefetch with filling := rest }

/-- The active transaction is a prefetch. -/
def Prefetches (b : Ledger) (addr : ℕ) : Prop := b.active = some ⟨.prefetch, addr⟩

/-- What can happen: a change; a transaction becomes active; or it is done. A prefetch that misses
cheats if the map has an entry for its page. -/
inductive Step (cfg : Config) (asked : Set ℕ) (safe : Prop) : Ledger → Ledger → Prop
  | change {b b' : Ledger} (h : Change cfg asked safe b b') : Step cfg asked safe b b'
  | activate {b : Ledger} (t : Transaction) (rest : List Transaction) (hnone : b.active = none)
    (hqueue : b.queue.Perm (t :: rest)) :
    Step cfg asked safe b { b with active := some t, queue := rest }
  | done {b : Ledger}
    (hmap : ∀ addr, b.Prefetches addr → b.cheatMap (cfg.prefetchedPage addr) = 0) :
    Step cfg asked safe b { b with active := none }
  | hit {b : Ledger} (addr : ℕ) (hactive : b.Prefetches addr) :
    Step cfg asked safe b
      { b with active := none, events := .hits (cfg.prefetchedPage addr) :: b.events }
  | cheat {b : Ledger} (addr line : ℕ) (e : Event) (hactive : b.Prefetches addr)
    (he : ∀ page, e ≠ .hits page) (hmap : b.cheatMap (cfg.prefetchedPage addr) ≠ 0)
    (hline : safe → b.Idle cfg line ∧
      e.replacesUsed = ((b.flags line).1 && (b.flags line).2)) :
    Step cfg asked safe b { (b.retire line e).fill line (cfg.prefetchedPage addr) true with
      active := none
      cheatMap := update b.cheatMap (cfg.prefetchedPage addr)
        (b.cheatMap (cfg.prefetchedPage addr) - 1) }

end Ledger

/-- A number of changes. -/
abbrev Moves (cfg : Config) (asked : Set ℕ) (safe : Prop) : Ledger → Ledger → Prop :=
  Relation.ReflTransGen (Ledger.Change cfg asked safe)

/-- A number of steps. -/
abbrev Turns (cfg : Config) (asked : Set ℕ) (safe : Prop) : Ledger → Ledger → Prop :=
  Relation.ReflTransGen (Ledger.Step cfg asked safe)

/-- The flags of the lines. -/
def lineFlags (cache : ℕ → CacheLine) (line : ℕ) : Bool × Bool :=
  ((cache line).prefetched, (cache line).used)

/-- The lines for which flash is read. -/
def fillingLines (flashPending : Finmap fun _ : ℕ => Pending) : Multiset ℕ :=
  flashPending.entries.map fun e => e.2.cacheAddr

def HybridSystem.ledger {σ : Type} (s : HybridSystem σ) : Ledger where
  cheatMap := s.prefetchCheatMap
  total := s.totalPrefetches
  unused := s.unusedPrefetches
  victims := s.unusedPrefetchVictims
  flags := lineFlags s.cache
  filling := fillingLines s.flashPending
  events := s.events
  active := s.activeTransaction
  queue := s.transQueue

variable {σ : Type} {cfg : Config} {pf : Prefetcher σ} {s u v : HybridSystem σ} {t : Transaction}
  {a line page : ℕ} {p : Pending} {asked : Set ℕ} {safe : Prop}

theorem lineFlags_update {cache : ℕ → CacheLine} {l : CacheLine} :
    lineFlags (update cache line l) = update (lineFlags cache) line (l.prefetched, l.used) := by
  funext b
  by_cases hb : b = line
  · subst hb
    simp [lineFlags]
  · simp [lineFlags, hb]

theorem lineFlags_touch {cache : ℕ → CacheLine} {l : CacheLine}
    (hprefetched : l.prefetched = (cache line).prefetched) (hused : l.used = (cache line).used) :
    lineFlags (update cache line l) = lineFlags cache := by
  rw [lineFlags_update, hprefetched, hused]
  exact update_eq_self line (lineFlags cache)

theorem Moves.turns {b b' : Ledger} (h : Moves cfg asked safe b b') : Turns cfg asked safe b b' :=
  h.lift id fun _ _ => .change

/-- The changes do not depend on the active transaction. -/
theorem Moves.set_active {b b' : Ledger} (h : Moves cfg asked safe b b')
    (active : Option Transaction) :
    Moves cfg asked safe { b with active := active } { b' with active := active } := by
  refine h.lift (fun b => { b with active := active }) fun _ _ hchange => ?_
  cases hchange with
  | record e he => exact .record e he
  | push t queue ht hqueue => exact .push t queue ht hqueue
  | use line hline => exact .use line hline
  | miss line e filling he hline => exact .miss line e filling he hline
  | fill line page prefetch rest hline => exact .fill line page prefetch rest hline

/-! ### What leaves the ledger alone -/

section Frame

theorem ledger_touch {l : CacheLine} (hprefetched : l.prefetched = (s.cache line).prefetched)
    (hused : l.used = (s.cache line).used) :
    { s with cache := update s.cache line l }.ledger = s.ledger := by
  simp only [ledger, lineFlags_touch hprefetched hused]

theorem ledger_contentionCacheLineLock :
    (s.contentionCacheLineLock cfg line).ledger = s.ledger :=
  ledger_touch (s := s) (by rfl) (by rfl)

theorem ledger_contentionUnlock {victimValid lineValid : Bool} {victimPage : ℕ}
    (h : s.contentionUnlock cfg a victimValid victimPage lineValid line = some u) :
    u.ledger = s.ledger := by
  rcases contentionUnlock_cases h with rfl | ⟨pages, rfl⟩
  · rfl
  · cases lineValid with
    | true => exact ledger_touch (s := s) (by rfl) (by rfl)
    | false => rfl

theorem ledger_victimRead (h : s.victimRead cfg p = some u) : u.ledger = s.ledger := by
  obtain ⟨-, ⟨⟩⟩ := Option.ite_none_left_eq_some.mp h
  rfl

/-- The table of the flash reads with a changed record. -/
theorem fillingLines_insert {table : Finmap fun _ : ℕ => Pending} {q : Pending}
    (h : table.lookup page = some p) (hline : q.cacheAddr = p.cacheAddr) :
    fillingLines ((table.erase page).insert page q) = fillingLines table ∧
      fillingLines (table.insert page q) = fillingLines table ∧
      fillingLines table = p.cacheAddr ::ₘ fillingLines (table.erase page) := by
  have hmem : ⟨page, p⟩ ∈ table.entries := Finmap.lookup_eq_some_iff.mp h
  obtain ⟨rest, hrest⟩ := Multiset.exists_cons_of_mem hmem
  have hinsert := entries_insert_of_eq (x := q) (Finmap.notMem_erase_self (s := table) (a := page))
    (entries_erase_of_cons hrest)
  have hcons : fillingLines table = p.cacheAddr ::ₘ rest.map fun e => e.2.cacheAddr := by
    rw [fillingLines, hrest, Multiset.map_cons]
  refine ⟨?_, ?_, ?_⟩
  · rw [hcons, fillingLines, hinsert, Multiset.map_cons, hline]
  · rw [hcons, fillingLines, entries_insert_of_cons hrest, Multiset.map_cons, hline]
  · rw [hcons, fillingLines, entries_erase_of_cons hrest]

end Frame

/-! ### Completions -/

namespace Moves

theorem cacheReadFinish (h : s.cacheReadFinish cfg p = some u) :
    Moves cfg asked safe s.ledger u.ledger := by
  rw [ledger_contentionUnlock h]
  split
  · exact .refl
  · exact .single (.record _ rfl)

theorem use (s : HybridSystem σ) {line : ℕ} {l : CacheLine}
    (hprefetched : l.prefetched = (s.cache line).prefetched) (hused : l.used = true)
    (hline : safe → s.ledger.Idle cfg line) : Moves cfg asked safe s.ledger
      { s with
        unusedPrefetches := s.useLine (s.cache line)
        cache := update s.cache line l }.ledger := by
  have heq : { s with
      unusedPrefetches := s.useLine (s.cache line)
      cache := update s.cache line l }.ledger = s.ledger.use line := by
    simp only [ledger, lineFlags_update, hprefetched, hused]
    rfl
  rw [heq]
  exact .single (.use line hline)

theorem cacheWriteFinish (h : s.cacheWriteFinish cfg p = some u)
    (hline : safe → s.ledger.Idle cfg p.cacheAddr) : Moves cfg asked safe s.ledger u.ledger := by
  have huse : Moves cfg asked safe s.ledger _ := use s
    (l := { s.cache p.cacheAddr with
      dirty := true, valid := true, used := true, ts := s.currentClockCycle }) rfl rfl hline
  have hwrites := huse.tail (.record (.writes (cfg.pageAddress p.flashAddr)) rfl)
  rw [ledger_contentionUnlock h]
  split
  · exact hwrites
  · exact hwrites.tail (.record (.done true (callbackAddress p.origAddr)) rfl)

theorem victimReadFinish (h : s.victimReadFinish cfg a p = some u) :
    Moves cfg asked safe s.ledger u.ledger := by
  simp only [HybridSystem.victimReadFinish] at h
  split at h
  · exact Option.some.inj h ▸ .refl
  · obtain ⟨v, hv, rfl⟩ := Option.map_eq_some_iff.mp h
    have hunlock : s.ledger = v.ledger := (ledger_contentionUnlock hv).symm
    rw [hunlock]
    exact .single (.record _ rfl)

theorem dramReadCallback (h : s.dramReadCallback cfg a = some u) :
    Moves cfg asked safe s.ledger u.ledger := by
  simp only [HybridSystem.dramReadCallback] at h
  split at h
  · contradiction
  · split at h
    · exact (victimReadFinish h :)
    · exact (cacheReadFinish h :)
    all_goals contradiction

/-- A page that is read from flash fills its line. -/
theorem flashReadCallback (h : s.flashReadCallback cfg a = some u)
    (hline : safe → ∀ p, s.flashPending.lookup (cfg.pageAddress a) = some p →
      p.cacheAddr ∈ cfg.lines ∧
        p.cacheAddr ∉ fillingLines (s.flashPending.erase (cfg.pageAddress a))) :
    Moves cfg asked safe s.ledger u.ledger := by
  simp only [HybridSystem.flashReadCallback] at h
  split at h
  · contradiction
  · rename_i p hlookup
    obtain ⟨hsame, -, hcons⟩ := fillingLines_insert hlookup rfl
    split at h
    · simp only [lineReadFinish] at h
      split at h
      · -- other parts are left
        rw [← Option.some.inj h]
        simp only [ledger, hsame]
        exact .refl
      · have hfill : Moves cfg asked safe s.ledger _ := .single (.fill p.cacheAddr
          (cfg.pageAddress p.flashAddr) (decide (p.type = .prefetch)) _
          fun hsafe => ⟨(hline hsafe p hlookup).1, hcons, (hline hsafe p hlookup).2⟩)
        generalize hstate : HybridSystem.lineWrite cfg _ p = w at h
        have hw : w.ledger =
            { s.ledger.fill p.cacheAddr (cfg.pageAddress p.flashAddr)
                (decide (p.type = .prefetch)) with
              filling := fillingLines (s.flashPending.erase (cfg.pageAddress a)) } := by
          rw [← hstate]
          simp only [ledger, Ledger.fill, HybridSystem.record, lineWrite, contentionDecrement,
            lineFlags_update, decide_eq_true_eq]
        refine hfill.trans (hw ▸ ?_)
        split at h
        · exact cacheReadFinish h
        · refine cacheWriteFinish h fun hsafe => ?_
          rw [hw]
          exact hline hsafe p hlookup
        · rw [ledger_contentionUnlock h]
        all_goals exact Option.some.inj h ▸ .refl
    all_goals contradiction

theorem flashCriticalLineCallback (h : s.flashCriticalLineCallback cfg a = some u) :
    Moves cfg asked safe s.ledger u.ledger := by
  simp only [HybridSystem.flashCriticalLineCallback] at h
  split at h
  · contradiction
  · rename_i p hlookup
    obtain ⟨-, h⟩ := Option.ite_none_right_eq_some.mp h
    have hsame := (fillingLines_insert (q := { p with callbackSent := true }) hlookup rfl).2.1
    rw [← Option.some.inj h]
    split
    · simp only [ledger, readDoneCallback, HybridSystem.record, hsame]
      exact .single (.record _ rfl)
    · simp only [ledger, writeDoneCallback, HybridSystem.record, hsame]
      exact .single (.record _ rfl)
    all_goals
      simp only [ledger, hsame]
      exact .refl

/-! ### Transactions -/

@[simp] theorem handle_flashPending {out : σ × List ℕ} :
    (s.handle out).flashPending = s.flashPending :=
  handle_induction (P := fun u => u.flashPending = s.flashPending) (fun _ _ hu => hu) rfl

theorem handle {out : σ × List ℕ} (hout : ∀ a ∈ out.2, a ∈ asked) :
    Moves cfg asked safe s.ledger (s.handle out).ledger := by
  obtain ⟨prefetcher, addresses⟩ := out
  rw [HybridSystem.handle]
  change Moves cfg asked safe { s with prefetcher := prefetcher }.ledger _
  generalize { s with prefetcher := prefetcher } = v
  induction addresses generalizing v with
  | nil => exact .refl
  | cons addr addresses ih =>
    obtain ⟨haddr, hrest⟩ := List.forall_mem_cons.mp hout
    exact .head (.push ⟨.prefetch, addr⟩ _ (fun _ => haddr) (.refl _))
      (ih hrest (v.addPrefetch addr))

theorem syncAllCounter (h : s.syncAllCounter cfg a = some u) :
    Moves cfg asked safe s.ledger u.ledger := by
  have hline : ∀ v : HybridSystem σ, Moves cfg asked safe v.ledger (v.syncLine cfg a).ledger := by
    intro v
    simp only [syncLine]
    split
    · exact .head (.record _ rfl)
        (.single (.push ⟨.sync, _⟩ _ (fun ht => by cases ht) (.refl _)))
    · exact .refl
  rw [ledger_contentionUnlock h]
  refine .trans ?_ (hline _)
  split
  · exact .single (.push ⟨.syncAllCounter, _⟩ _ (fun ht => by cases ht) (.refl _))
  · exact .refl

end Moves

/-- What a miss needs to know of its victim. -/
structure Evicts (cfg : Config) (s : HybridSystem σ) (addr victim : ℕ) : Prop where
  mem : victim ∈ cfg.setAddresses (cfg.setIndex addr)
  idle : s.ledger.Idle cfg victim
  absent : cfg.pageAddress addr ∉ s.flashPending

theorem replacesUsed_replacesEvent {cheat : Bool} (h : line ∈ cfg.setAddresses (cfg.setIndex a)) :
    (s.replacesEvent cfg a line cheat).replacesUsed =
      ((s.cache line).prefetched && (s.cache line).used) := by
  rw [Bool.eq_iff_iff, Bool.and_eq_true]
  simp only [replacesEvent, Event.replacesUsed, List.any_map, List.any_eq_true, comp_apply,
    decide_eq_true_eq]
  exact ⟨fun ⟨b, _, hb, hflags⟩ => hb ▸ hflags, fun hflags => ⟨line, h, rfl, hflags⟩⟩

theorem replacesEvent_ne_hits {cheat : Bool} (p : ℕ) :
    s.replacesEvent cfg a line cheat ≠ .hits p := nofun

theorem ledger_countVictim (line : ℕ) (e : Event) :
    ((s.record e).countVictim (s.cache line)).ledger = s.ledger.retire line e := by
  rw [countVictim, Ledger.retire]
  split <;> rename_i h
  · have hflags : (s.ledger.flags line).1 = true ∧ (s.ledger.flags line).2 = false := h
    rw [if_pos hflags, if_pos hflags]
    rfl
  · have hflags : ¬ ((s.ledger.flags line).1 = true ∧ (s.ledger.flags line).2 = false) := h
    rw [if_neg hflags, if_neg hflags]
    rfl

theorem ledger_replace (h : s.replace cfg t a line = some u) :
    ∃ filling, u.ledger = { s.ledger with filling := filling } ∧
      (cfg.pageAddress a ∉ s.flashPending → filling = line ::ₘ s.ledger.filling) := by
  have hfetch : (fetch cfg s t a line).ledger = { s.ledger with
      filling := fillingLines (s.flashPending.insert (cfg.pageAddress a)
        { missRecord s t a line with op := .lineRead }) } := by
    simp only [fetch, lineRead, contentionIncrement, contentionCacheLineLock, ledger]
    rw [lineFlags_touch (by rfl) (by rfl)]
    rfl
  refine ⟨_, Eq.trans ?_ hfetch, fun hnot => ?_⟩
  · rw [replace_eq] at h
    split at h
    · exact ledger_victimRead h
    · exact Option.some.inj h ▸ rfl
  · rw [fillingLines, entries_insert_of_eq hnot rfl, Multiset.map_cons]
    rfl

/-- A line that is filled is the line of a flight that moves a page. -/
theorem exists_moving {flights : Multiset Flight}
    (h : line ∈ (flights.bind (Flight.flash cfg)).map fun e => e.2.cacheAddr) :
    ∃ f ∈ flights, f.IsMoving ∧ f.line = line := by
  obtain ⟨e, he, rfl⟩ := Multiset.mem_map.mp h
  obtain ⟨f, hf, he⟩ := Multiset.mem_bind.mp he
  match f, he with
  | .moving p (some sent) victim, he =>
    cases Multiset.mem_singleton.mp he
    exact ⟨_, hf, trivial, rfl⟩

theorem Represents.exists_moving {x : Traffic} (h : Represents cfg s x)
    (hline : line ∈ fillingLines s.flashPending) :
    ∃ f ∈ x.flights, f.IsMoving ∧ f.line = line := by
  rw [fillingLines, h.tables.flash] at hline
  exact HybridSim.exists_moving hline

/-- No other page fills the line of a page that is read. -/
theorem Represents.alone_of_filling {x : Traffic} (h : Represents cfg s x) (hvalid : x.Valid cfg)
    (hlookup : s.flashPending.lookup page = some p) :
    p.cacheAddr ∈ cfg.lines ∧ p.cacheAddr ∉ fillingLines (s.flashPending.erase page) := by
  obtain ⟨q, sent, victim, rest, hx, rfl, rfl⟩ := h.exists_filling hlookup
  have hisLine := hvalid.inv.isLine (f := .moving q (some sent) victim)
    (hx ▸ Multiset.mem_cons_self _ rest)
  refine ⟨hisLine.mem_lines, fun hline => ?_⟩
  rw [fillingLines, entries_erase_of_cons (h.flashPending_eq hx)] at hline
  obtain ⟨g, hg, -, hgline⟩ := HybridSim.exists_moving hline
  exact hvalid.inv.ne_of_moving hx trivial g hg hgline

/-- The line of a hit is not filled. -/
theorem Represents.idle_of_hit {x : Traffic} (h : Represents cfg s x) (hvalid : x.Valid cfg)
    (hactive : x.active = some t) (hline : s.hitLine cfg (cfg.align t.address) = some line) :
    s.ledger.Idle cfg line := by
  obtain ⟨hmem, hcontents⟩ := hitLine_eq_some hline
  refine ⟨(Config.isLine_of_mem (cfg.setIndex_lt _) hmem).mem_lines, fun hfilling => ?_⟩
  obtain ⟨f, hf, hmoving, hfline⟩ := h.exists_moving hfilling
  exact hvalid.inv.not_moving (hvalid.inv.active t hactive) (h.tracks.contents ▸ hcontents) f hf
    hmoving hfline

/-- The victim of a miss is not filled, and the page not read. -/
theorem Represents.evicts {x : Traffic} (h : Represents cfg s x) (hvalid : x.Valid cfg)
    (hactive : x.active = some t) (hcache : v.cache = s.cache)
    (hflash : v.flashPending = s.flashPending) : Evicts cfg v (cfg.align t.address)
      (selectVictim v.cache (cfg.setAddresses (cfg.setIndex (cfg.align t.address)))) := by
  obtain ⟨hmem, hunlocked⟩ := selectVictim_spec (h.exists_unlocked hvalid hactive)
  rw [hcache]
  refine ⟨hmem, ⟨(Config.isLine_of_mem (cfg.setIndex_lt _) hmem).mem_lines, fun hfilling => ?_⟩,
    fun hpage => ?_⟩
  · rw [ledger, hflash] at hfilling
    obtain ⟨f, hf, -, hfline⟩ := h.exists_moving hfilling
    exact Traffic.users_eq_zero_iff.mp (h.tracks.users_of_unlocked hunlocked) f hf hfline
  · rw [hflash] at hpage
    obtain ⟨f, hf, p, hkey⟩ := h.tables.flash.exists_of_mem hpage
    exact hvalid.inv.active t hactive
      (Traffic.mem_pageKeys_iff.mpr ⟨f, hf, Flight.mem_pageKeys_of_flash hkey⟩)

namespace Moves

/-- A miss that does not cheat starts to fill a line. -/
theorem replace (s : HybridSystem σ) {e : Event} (he : ∀ page, e ≠ .hits page)
    (h : ((s.record e).countVictim (s.cache line)).replace cfg t a line = some u)
    (hline : safe → s.ledger.Idle cfg line ∧ cfg.pageAddress a ∉ s.flashPending ∧
      e.replacesUsed = ((s.cache line).prefetched && (s.cache line).used)) :
    Moves cfg asked safe s.ledger u.ledger := by
  obtain ⟨filling, hledger, hfilling⟩ := ledger_replace h
  rw [ledger_countVictim] at hledger hfilling
  rw [hledger]
  refine .single (.miss line _ _ he fun hsafe => ?_)
  obtain ⟨hidle, habsent, hused⟩ := hline hsafe
  refine ⟨hidle, hfilling ?_, hused⟩
  rw [countVictim]
  split <;> exact habsent

theorem evict (h : s.evict cfg t a = some u) (htype : t.transactionType ≠ .prefetch)
    (hvictim : safe → Evicts cfg s a (selectVictim s.cache (cfg.setAddresses (cfg.setIndex a)))) :
    Moves cfg asked safe s.ledger u.ledger := by
  simp only [HybridSystem.evict, htype, false_and, if_false] at h
  refine replace s replacesEvent_ne_hits h fun hsafe => ?_
  exact ⟨(hvictim hsafe).idle, (hvictim hsafe).absent,
    replacesUsed_replacesEvent (hvictim hsafe).mem⟩

theorem processHit (h : s.processHit cfg pf t a line = some u)
    (htype : t.transactionType ≠ .prefetch)
    (hout : t.transactionType = .dataRead ∨ t.transactionType = .dataWrite →
      ∀ addr ∈ (pf.hit s.currentClockCycle (cfg.pageAddress a) s.prefetcher).2, addr ∈ asked)
    (hline : safe → s.ledger.Idle cfg line) : Moves cfg asked safe s.ledger u.ledger := by
  have hlock : (s.contentionCacheLineLock cfg line).ledger = s.ledger :=
    ledger_contentionCacheLineLock
  have hhandled : t.transactionType = .dataRead ∨ t.transactionType = .dataWrite →
      Moves cfg asked safe s.ledger ((s.contentionCacheLineLock cfg line).handle
        (pf.hit s.currentClockCycle (cfg.pageAddress a) s.prefetcher)).ledger :=
    fun hdata => hlock ▸ handle (hout hdata)
  have hidle : safe → ((s.contentionCacheLineLock cfg line).handle (pf.hit s.currentClockCycle
      (cfg.pageAddress a) s.prefetcher)).ledger.Idle cfg line := by
    rw [Ledger.Idle, ledger, handle_flashPending]
    exact hline
  simp only [HybridSystem.processHit] at h
  split at h
  · next hread =>
    obtain ⟨-, ⟨⟩⟩ := Option.ite_none_right_eq_some.mp h
    exact (hhandled (.inl hread)).trans (use _ (by rfl) (by rfl) hidle)
  · next hwrite => exact (hhandled (.inr hwrite)).trans (cacheWriteFinish h hidle :)
  · rw [ledger_contentionUnlock h, ledger_touch (by rfl) (by rfl), hlock]
  · next hprefetch => exact absurd hprefetch htype
  · obtain ⟨-, h⟩ := Option.ite_none_right_eq_some.mp h
    obtain ⟨v, hv, rfl⟩ := Option.map_eq_some_iff.mp h
    have hcache : v.cache line = (s.cache line).lock.lock := by
      obtain ⟨-, ⟨⟩⟩ := Option.ite_none_left_eq_some.mp hv
      simp [contentionIncrement, contentionCacheLineLock, HybridSystem.record]
    have hflags : (s.contentionCacheLineLock cfg line).cache line = (s.cache line).lock := by
      simp [contentionCacheLineLock]
    rw [ledger_touch (by rw [hcache, hflags]; rfl) (by rw [hcache, hflags]; rfl),
      ledger_victimRead hv, ledger_contentionCacheLineLock]
    change Moves cfg asked safe _ { (s.contentionCacheLineLock cfg line).ledger with
      events := _ :: _ }
    rw [hlock]
    exact .single (.record _ rfl)
  · contradiction

end Moves

/-- The prefetches that the prefetcher issues when a transaction is processed. -/
def HybridSystem.triggered (cfg : Config) (pf : Prefetcher σ) (s : HybridSystem σ)
    (t : Transaction) : List ℕ :=
  let addr := cfg.align t.address
  match t.transactionType with
  | .dataRead | .dataWrite =>
    ((if (s.hitLine cfg addr).isSome then pf.hit else pf.miss) s.currentClockCycle
      (cfg.pageAddress addr) s.prefetcher).2
  | .prefetch | .flush | .syncAllCounter | .sync => []

section Processing

variable (hrep : safe → ∃ x, Represents cfg s x ∧ x.Valid cfg ∧ x.active = some t)

include hrep in
/-- The victim of a miss is not filled, and the page not read, while the miss is processed. -/
theorem evicts_of_safe (hsafe : safe) (hcache : v.cache = s.cache)
    (hflash : v.flashPending = s.flashPending) : Evicts cfg v (cfg.align t.address)
      (selectVictim v.cache (cfg.setAddresses (cfg.setIndex (cfg.align t.address)))) := by
  obtain ⟨x, hx, hvalid, hactive⟩ := hrep hsafe
  exact hx.evicts hvalid hactive hcache hflash

include hrep in
theorem Moves.processTransaction (hout : ∀ addr ∈ s.triggered cfg pf t, addr ∈ asked)
    (h : s.processTransaction cfg pf t = some u) (htype : t.transactionType ≠ .prefetch) :
    Moves cfg asked safe s.ledger u.ledger := by
  simp only [HybridSystem.processTransaction] at h
  split_ifs at h with hcounter
  · exact syncAllCounter h
  · split at h
    · next line hline =>
      refine processHit h htype (fun hdata => ?_) fun hsafe => ?_
      · rcases hdata with hdata | hdata <;> simpa [triggered, hdata, hline] using hout
      · obtain ⟨x, hx, hvalid, hactive⟩ := hrep hsafe
        exact hx.idle_of_hit hvalid hactive hline
    · next hline =>
      have hhandled : t.transactionType = .dataRead ∨ t.transactionType = .dataWrite →
          Moves cfg asked safe s.ledger ((s.contentionPageLock cfg (cfg.align t.address)).handle
            (pf.miss s.currentClockCycle (cfg.prefetchedPage t.address) s.prefetcher)).ledger :=
        fun hdata => handle (s := s.contentionPageLock cfg (cfg.align t.address)) <| by
          rcases hdata with hdata | hdata <;>
            simpa [triggered, Config.prefetchedPage, hdata, hline] using hout
      have hvictim := fun hsafe => evicts_of_safe hrep hsafe
        (v := (s.contentionPageLock cfg (cfg.align t.address)).handle (pf.miss s.currentClockCycle
          (cfg.prefetchedPage t.address) s.prefetcher)) (handle_cache _ _) handle_flashPending
      simp only [processMiss] at h
      split at h
      · rw [ledger_contentionUnlock h]
        exact .refl
      · contradiction
      · contradiction
      · next hread => exact (hhandled (.inl hread)).trans (evict h htype hvictim)
      · next hwrite => exact (hhandled (.inr hwrite)).trans (evict h htype hvictim)
      · next hdata => exact absurd hdata hcounter

namespace Turns

/-- A prefetch that cheats fills its line at once. -/
theorem cheat {addr : ℕ} (s : HybridSystem σ) {e : Event} (he : ∀ page, e ≠ .hits page)
    (hactive : s.activeTransaction = some ⟨.prefetch, addr⟩)
    (h : ((s.record e).countVictim (s.cache line)).cheat cfg (cfg.align addr) line = some u)
    (hmap : s.prefetchCheatMap (cfg.prefetchedPage addr) ≠ 0)
    (hline : safe → s.ledger.Idle cfg line ∧
      e.replacesUsed = ((s.cache line).prefetched && (s.cache line).used)) :
    Turns cfg asked safe s.ledger { u.ledger with active := none } := by
  have hcount := ledger_countVictim (s := s) line e
  generalize (s.record e).countVictim (s.cache line) = v at h hcount
  have hu : u.ledger = { v.ledger.fill line (cfg.prefetchedPage addr) true with
      cheatMap := update v.ledger.cheatMap (cfg.prefetchedPage addr)
        (v.ledger.cheatMap (cfg.prefetchedPage addr) - 1) } := by
    rw [ledger_contentionUnlock h]
    simp only [ledger, Ledger.fill, HybridSystem.record, lineFlags_update, if_true,
      Config.prefetchedPage]
  rw [hu, hcount]
  exact .single (.cheat addr line e hactive he hmap hline)

include hrep in
theorem processPrefetch (hactive : s.activeTransaction = some t)
    (h : s.processTransaction cfg pf t = some u) (htype : t.transactionType = .prefetch) :
    Turns cfg asked safe s.ledger { u.ledger with active := none } := by
  obtain ⟨type, addr⟩ := t
  obtain rfl : type = .prefetch := htype
  simp only [HybridSystem.processTransaction, reduceCtorEq, if_false] at h
  split at h
  · contradiction
  · split at h
    · next line hline =>
      have hlock : (s.contentionCacheLineLock cfg line).ledger = s.ledger :=
        ledger_contentionCacheLineLock
      have hu : u.ledger =
          { s.ledger with events := .hits (cfg.prefetchedPage addr) :: s.events } := by
        rw [ledger_contentionUnlock h, ← hlock]
        rfl
      rw [hu]
      exact .single (.hit addr hactive)
    · have hvictim := fun hsafe => evicts_of_safe hrep hsafe
        (v := s.contentionPageLock cfg (cfg.align addr)) rfl rfl
      simp only [processMiss, HybridSystem.evict] at h
      generalize selectVictim _ _ = line at h hvictim
      split_ifs at h with hcheat
      · exact cheat (s.contentionPageLock cfg (cfg.align addr)) replacesEvent_ne_hits hactive h
          hcheat.2
          fun hsafe => ⟨(hvictim hsafe).idle, replacesUsed_replacesEvent (hvictim hsafe).mem⟩
      · refine .head (.done fun addr' haddr => ?_) (Moves.set_active (Moves.replace
          (s.contentionPageLock cfg (cfg.align addr)) replacesEvent_ne_hits h fun hsafe => ?_)
            none).turns
        · cases hactive.symm.trans haddr
          by_contra hne
          exact hcheat ⟨trivial, hne⟩
        · exact ⟨(hvictim hsafe).idle, (hvictim hsafe).absent,
            replacesUsed_replacesEvent (hvictim hsafe).mem⟩

include hrep in
/-- **Transactions.** The active transaction is processed, and is done. -/
theorem processTransaction (hout : ∀ addr ∈ s.triggered cfg pf t, addr ∈ asked)
    (hactive : s.activeTransaction = some t) (h : s.processTransaction cfg pf t = some u) :
    Turns cfg asked safe s.ledger { u.ledger with active := none } := by
  by_cases htype : t.transactionType = .prefetch
  · exact processPrefetch hrep hactive h htype
  · refine .head (.done fun addr haddr => ?_)
      ((Moves.processTransaction hrep hout h htype).set_active none).turns
    cases hactive.symm.trans haddr
    exact absurd rfl htype

end Turns

end Processing

/-! ### Cycles -/

namespace Turns

/-- The prefetcher is asked only for the transaction that was active before. -/
theorem update {dramAccepts flashAccepts : Bool}
    (hout : s.delayCounter = 0 → ∀ t ∈ s.activeTransaction, ∀ addr ∈ s.triggered cfg pf t,
      addr ∈ asked)
    (h : s.update cfg pf dramAccepts flashAccepts = some u)
    (hrep : safe → ∃ x, Represents cfg s x ∧ x.Valid cfg) :
    Turns cfg asked safe s.ledger u.ledger := by
  refine (update_induction (P := fun v => Turns cfg asked safe s.ledger v.ledger ∧
    (safe → ∃ x, Represents cfg v x ∧ x.Valid cfg)) ?_ ?_ ?_ ⟨.refl, hrep⟩ h).1
  · rintro v t w ⟨hturns, hv⟩ hactive hwhen hw
    refine ⟨hturns.trans (processTransaction (fun hsafe => ?_) ?_ hactive hw), fun hsafe => ?_⟩
    · obtain ⟨x, hx, hvalid⟩ := hv hsafe
      exact ⟨x, hx, hvalid, hx.tracks.active.symm.trans hactive⟩
    · rcases hwhen with ⟨rfl, hdelay⟩ | htype
      · exact hout hdelay t hactive
      · simp [triggered, htype]
    · obtain ⟨x, hx, hvalid⟩ := hv hsafe
      obtain ⟨y, hsteps, hy⟩ := hx.process hvalid hactive hw
      exact ⟨y, hy, hvalid.steps hsteps⟩
  · rintro v t rest ⟨hturns, hv⟩ hnone hperm hunlocked
    refine ⟨hturns.tail (.activate t rest hnone hperm), fun hsafe => ?_⟩
    obtain ⟨x, hx, hvalid⟩ := hv hsafe
    obtain ⟨y, hstep, -, hy⟩ := hx.activate (hx.tracks.active.symm.trans hnone) hperm hunlocked
    exact ⟨y, hy, hvalid.step hstep⟩
  · rintro v _ _ _ _ _ _ ⟨hturns, hv⟩
    refine ⟨hturns, fun hsafe => ?_⟩
    obtain ⟨x, hx, hvalid⟩ := hv hsafe
    exact ⟨x, ⟨hx.tracks, hx.tables⟩, hvalid⟩

end Turns

/-! ### Actions -/

namespace HybridSystem

/-- The addresses of a range of prefetches. -/
def rangeAddresses (cfg : Config) (base pages : ℕ) : List ℕ :=
  (List.range pages).map (base + · * cfg.pageSize)

/-- The addresses of the cheating prefetches that an action issues. -/
def Action.cheating (cfg : Config) : Action → List ℕ
  | .mmio 4 address => rangeAddresses cfg (address % 2 ^ 48) (address / 2 ^ 48 % 2 ^ 16 + 1)
  | _ => []

/-- The addresses of the other prefetches that an action issues: those of the user, and those of
the prefetcher for the transaction that is processed. -/
def ordinary (cfg : Config) (pf : Prefetcher σ) (s : HybridSystem σ) : Action → List ℕ
  | .addPrefetch addr => [addr]
  | .mmio 3 address => rangeAddresses cfg (address % 2 ^ 48) (address / 2 ^ 48 % 2 ^ 16 + 1)
  | .update _ _ =>
    if s.delayCounter = 0 then s.activeTransaction.toList.flatMap (s.triggered cfg pf) else []
  | _ => []

end HybridSystem

theorem ledger_prefetchRange (base pages : ℕ) :
    (prefetchRange cfg base pages true s).ledger =
      (rangeAddresses cfg base pages).foldl Ledger.enter s.ledger := by
  rw [prefetchRange, rangeAddresses, List.foldl_map]
  induction List.range pages generalizing s with
  | nil => rfl
  | cons i indices ih => exact ih

/-- Cheating prefetches do nothing but enter the queue and the map. -/
theorem ledger_of_cheating {action : Action} (h : s.next cfg pf action = some u)
    (hcheating : action.cheating cfg ≠ []) :
    u.ledger = (action.cheating cfg).foldl Ledger.enter s.ledger := by
  match action with
  | .mmio 4 address =>
    obtain ⟨-, h⟩ := Option.ite_none_right_eq_some.mp h
    rw [← Option.some.inj h]
    exact ledger_prefetchRange _ _

namespace Turns

theorem prefetchRange (base pages : ℕ) (hrange : ∀ a ∈ rangeAddresses cfg base pages, a ∈ asked) :
    Turns cfg asked safe s.ledger (HybridSystem.prefetchRange cfg base pages false s).ledger := by
  unfold HybridSystem.prefetchRange
  unfold rangeAddresses at hrange
  generalize List.range pages = indices at hrange ⊢
  induction indices generalizing s with
  | nil => exact .refl
  | cons i indices ih =>
    obtain ⟨hi, hrest⟩ := List.forall_mem_cons.mp hrange
    exact .head (.change (.push ⟨.prefetch, _⟩ _ (fun _ => hi) (.refl _)))
      (ih (s := s.addPrefetch _) hrest)

/-- **Actions.** The prefetches that an action queues are those that the user or the prefetcher
issues. -/
theorem next {action : Action} (h : s.next cfg pf action = some u)
    (hcheating : action.cheating cfg = [])
    (hrep : safe → ∃ x, Represents cfg s x ∧ x.Valid cfg) :
    Turns cfg { a | a ∈ s.ordinary cfg pf action } safe s.ledger u.ledger := by
  have hother : ∀ {t : Transaction}, t.transactionType ≠ .prefetch →
      t.transactionType = .prefetch → t.address ∈ { a | a ∈ s.ordinary cfg pf action } :=
    fun hne heq => absurd heq hne
  obtain ⟨-, h⟩ := Option.ite_none_right_eq_some.mp h
  cases action with
  | addTransaction isWrite addr =>
    rw [← Option.some.inj h, addTransaction]
    refine .head (.change (.record (.accepted isWrite addr) rfl)) (.single (.change ?_))
    split
    · exact .record _ rfl
    · refine .push ⟨dataType isWrite, remap addr⟩ _ (hother ?_) (List.perm_append_singleton _ _)
      cases isWrite <;> simp [dataType]
  | addPrefetch addr =>
    rw [← Option.some.inj h]
    exact .single (.change (.push ⟨.prefetch, addr⟩ _ (fun _ => List.mem_singleton_self addr)
      (.refl _)))
  | addFlush addr =>
    rw [← Option.some.inj h]
    exact .single (.change (.push ⟨.flush, addr⟩ _ (hother (by simp)) (.refl _)))
  | mmio operation address =>
    simp only [perform, mmio] at h
    split at h
    · exact Option.some.inj h ▸ .refl
    · exact Option.some.inj h ▸ .refl
    · rw [← Option.some.inj h]
      exact .single (.change (.push ⟨.syncAllCounter, 0⟩ _ (hother (by simp))
        (List.perm_append_singleton _ _)))
    · rw [← Option.some.inj h]
      exact prefetchRange _ _ fun _ => id
    · simp [Action.cheating, rangeAddresses] at hcheating
    · contradiction
  | update dramAccepts flashAccepts =>
    refine update (fun hdelay t ht addr haddr => ?_) h hrep
    simp only [ordinary, Set.mem_ofPred_eq, if_pos hdelay, List.mem_flatMap]
    exact ⟨t, Option.mem_toList.mpr ht, haddr⟩
  | dramReadCallback addr => exact (Moves.dramReadCallback h :).turns
  | flashReadCallback addr critical =>
    refine (Moves.flashReadCallback h fun hsafe p hlookup => ?_ :).turns
    obtain ⟨x, hx, hvalid⟩ := hrep hsafe
    exact hx.alone_of_filling hvalid hlookup
  | flashCriticalLineCallback addr => exact (Moves.flashCriticalLineCallback h :).turns
  | step | dramWriteCallback addr | flashWriteCallback addr => exact Option.some.inj h ▸ .refl

end Turns

end HybridMemory.HybridSim

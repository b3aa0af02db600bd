import Mathlib.Data.Finmap
import HybridMemory.HybridSim.StreamBuffer

/-!
# The cache controller of the hybrid memory

`HybridSystem` answers reads and writes of a flash address space from a DRAM cache. A transaction
waits in `trans_queue` until the contention tables admit it, is looked up after
`CONTROLLER_DELAY` cycles, and becomes a DRAM access on a hit; on a miss the page is read from
flash into the line of a victim, and a dirty victim is read from DRAM and written back
meanwhile. Several transactions are under way at once. What they wait for is kept in
`dram_pending` and `flash_pending`, what they exclude in `pending_pages`, `pending_flash_addr`,
the locks of the cache lines and `set_counter`.

A function of the source that fails an assertion or calls `abort` has no result here. The
memories behind the controller are left open: they accept or refuse a transaction and complete
what they have accepted in any order, with a critical-line callback for a flash read at most
once before its completion. `events` is a history that no function reads.

With the source's settings: the cache is prefilled, addresses around 4 GB are remapped, whole
pages are moved, and there is no TLB and no perfect or sequential prefetching.
-/

namespace HybridMemory.HybridSim

inductive TransactionType
  | dataRead
  | dataWrite
  | prefetch
  | flush
  | syncAllCounter
  | sync
  deriving DecidableEq

/-- An access of the user, or one to the memories behind the controller. -/
structure Transaction where
  transactionType : TransactionType
  address : ℕ
  deriving DecidableEq

/-- What a pending access is made for. -/
inductive PendingOperation
  | victimRead
  | victimWrite
  | lineRead
  | cacheRead
  | cacheWrite
  deriving DecidableEq

/-- An entry of the pending tables. -/
structure Pending where
  op : PendingOperation := .victimRead
  origAddr : ℕ
  flashAddr : ℕ
  cacheAddr : ℕ
  victimTag : ℕ
  victimValid : Bool
  callbackSent : Bool
  type : TransactionType
  deriving DecidableEq

/-- An entry of the tag table. -/
structure CacheLine where
  valid : Bool := false
  dirty : Bool := false
  locked : Bool := false
  lockCount : ℕ := 0
  tag : ℕ := 0
  ts : ℕ := 0
  prefetched : Bool := false
  used : Bool := false
  deriving DecidableEq

/-- What is recorded of a run. -/
inductive Event
  /-- `addTransaction` is called. -/
  | accepted (isWrite : Bool) (address : ℕ)
  /-- The callback `ReadDone` or `WriteDone` is made. -/
  | done (isWrite : Bool) (address : ℕ)
  /-- A miss replaces the page of a line, if it has one; with the lines of the set, and the
  addresses of the waiting `SYNC` transactions. A cheating prefetch replaces it at once. -/
  | replaces (page : Option ℕ) (victim : ℕ) (lines : List (ℕ × CacheLine)) (cheat : Bool)
      (syncs : List ℕ)
  /-- A page is brought into the cache. -/
  | fills (page : ℕ)
  /-- A prefetch finds its page in the cache. -/
  | hits (page : ℕ)
  /-- A page of the cache is written. -/
  | writes (page : ℕ)
  /-- A `SYNC` transaction is queued for a page, which may be under replacement, or wait for
  another `SYNC`. -/
  | queuesSync (page : ℕ) (replaced again : Bool)
  /-- A page is synced, while others may use its line. -/
  | syncs (page : ℕ) (shared : Bool)
  /-- Flash writes to the addresses are queued, while DRAM reads of the line may be left. -/
  | writesBack (addresses : List ℕ) (left : ℕ)
  deriving DecidableEq

/-- The cache controller, and the accesses that the memories behind it have accepted. A flash
read is marked once its critical-line callback has been made. -/
structure HybridSystem (σ : Type) where
  currentClockCycle : ℕ := 0
  checkQueue : Bool := true
  delayCounter : ℕ := 0
  activeTransaction : Option Transaction := none
  transQueue : List Transaction := []
  pendingCount : ℤ := 0
  cache : ℕ → CacheLine
  pendingFlashAddr : Finset ℕ := ∅
  pendingPages : Finmap (fun _ : ℕ => ℕ) := ∅
  setCounter : ℕ → ℕ := fun _ => 0
  dramPending : Finmap (fun _ : ℕ => Pending) := ∅
  flashPending : Finmap (fun _ : ℕ => Pending) := ∅
  dramPendingWait : Finmap (fun _ : ℕ => Finset ℕ) := ∅
  flashPendingWait : Finmap (fun _ : ℕ => Finset ℕ) := ∅
  dramQueue : List Transaction := []
  flashQueue : List Transaction := []
  prefetchCheatMap : ℕ → ℕ := fun _ => 0
  totalPrefetches : ℕ := 0
  unusedPrefetches : ℕ := 0
  unusedPrefetchVictims : ℕ := 0
  prefetcher : σ
  dramInFlight : List Transaction := []
  flashInFlight : List (Transaction × Bool) := []
  events : List Event := []

/-- Decrement an unsigned counter. -/
def decrement (n : ℕ) : ℕ := if n = 0 then 2 ^ 64 - 1 else n - 1

def halfGB : ℕ := 536870912

def threePointFiveGB : ℕ := 3758096384

def fourGB : ℕ := 4294967296

namespace CacheLine

/-- Several transactions may lock a line. -/
def lock (l : CacheLine) : CacheLine :=
  { l with locked := true, lockCount := l.lockCount + 1 }

/-- The last of the unlocks frees the line. -/
def unlock (l : CacheLine) : CacheLine :=
  let count := decrement l.lockCount
  { l with lockCount := count, locked := if count = 0 then false else l.locked }

end CacheLine

namespace HybridSystem

variable {σ : Type} (cfg : Config) (pf : Prefetcher σ) (s : HybridSystem σ)

/-- Add to the history. -/
def record (e : Event) : HybridSystem σ :=
  { s with events := e :: s.events }

/-! ### Contention -/

/-- The address is kept from other transactions. -/
def contentionLock (flashAddr : ℕ) : HybridSystem σ :=
  { s with pendingFlashAddr := insert flashAddr s.pendingFlashAddr }

/-- The page is locked by a miss, for no access yet. -/
def contentionPageLock (flashAddr : ℕ) : HybridSystem σ :=
  { s with pendingPages := s.pendingPages.insert (cfg.pageAddress flashAddr) 0 }

/-- A transaction can start if its set has a line that is not locked, and neither its page nor its
address is locked. -/
def contentionIsUnlocked (flashAddr : ℕ) : Bool :=
  s.setCounter (cfg.setIndex (cfg.pageAddress flashAddr)) ≠ cfg.setSize ∧
    cfg.pageAddress flashAddr ∉ s.pendingPages ∧ flashAddr ∉ s.pendingFlashAddr

/-- One more access that the page is locked for. -/
def contentionIncrement (flashAddr : ℕ) : HybridSystem σ :=
  let page := cfg.pageAddress flashAddr
  { s with pendingPages := s.pendingPages.insert page ((s.pendingPages.lookup page).getD 0 + 1) }

def contentionDecrement (flashAddr : ℕ) : HybridSystem σ :=
  let page := cfg.pageAddress flashAddr
  { s with pendingPages :=
      s.pendingPages.insert page (decrement ((s.pendingPages.lookup page).getD 0)) }

/-- The page that is replaced is locked like the one that comes. -/
def contentionVictimLock (pageAddr : ℕ) : HybridSystem σ :=
  { s with pendingPages := s.pendingPages.insert pageAddr 0 }

/-- The page that was replaced must be locked. -/
def contentionVictimUnlock (pageAddr : ℕ) : Option (HybridSystem σ) :=
  if pageAddr ∈ s.pendingPages then
    some { s with pendingPages := s.pendingPages.erase pageAddr }
  else none

/-- `set_counter` counts the locks of a set, not its locked lines. -/
def contentionCacheLineLock (cacheAddr : ℕ) : HybridSystem σ :=
  let set := cfg.setIndex cacheAddr
  { s with
    cache := Function.update s.cache cacheAddr (s.cache cacheAddr).lock
    setCounter := Function.update s.setCounter set (s.setCounter set + 1) }

def contentionCacheLineUnlock (cacheAddr : ℕ) : HybridSystem σ :=
  let set := cfg.setIndex cacheAddr
  { s with
    cache := Function.update s.cache cacheAddr (s.cache cacheAddr).unlock
    setCounter := Function.update s.setCounter set (decrement (s.setCounter set)) }

/-- The part that both branches of `contention_unlock` end with. -/
def release (flashAddr : ℕ) (cacheLineValid : Bool) (cacheAddr : ℕ) : HybridSystem σ :=
  let s := { s with pendingFlashAddr := s.pendingFlashAddr.erase flashAddr }
  let s := if cacheLineValid then s.contentionCacheLineUnlock cfg cacheAddr else s
  { s with checkQueue := true, pendingCount := s.pendingCount - 1 }

/-- A transaction ends once no access is left that its page is locked for. -/
def contentionUnlock (flashAddr : ℕ) (victimValid : Bool) (victimPage : ℕ)
    (cacheLineValid : Bool) (cacheAddr : ℕ) : Option (HybridSystem σ) :=
  let page := cfg.pageAddress flashAddr
  match s.pendingPages.lookup page with
  | none =>
    -- only the flash address was locked
    if flashAddr ∈ s.pendingFlashAddr ∧ victimValid = false then
      some (s.release cfg flashAddr cacheLineValid cacheAddr)
    else none
  | some 0 =>
    let s := { s with pendingPages := s.pendingPages.erase page }
    if flashAddr ∈ s.pendingFlashAddr then
      (if victimValid then s.contentionVictimUnlock victimPage else some s).map
        fun s => s.release cfg flashAddr cacheLineValid cacheAddr
    else none
  | some (_ + 1) => some s

/-! ### The queue -/

def pushFront (t : Transaction) : HybridSystem σ :=
  { s with
    transQueue := t :: s.transQueue
    pendingCount := s.pendingCount + 1
    checkQueue := true }

def pushBack (t : Transaction) : HybridSystem σ :=
  { s with
    transQueue := s.transQueue ++ [t]
    pendingCount := s.pendingCount + 1
    checkQueue := true }

/-- The type of the transaction for a read or a write. -/
def dataType (isWrite : Bool) : TransactionType := if isWrite then .dataWrite else .dataRead

/-- The address at which an access is queued. -/
def remap (addr : ℕ) : ℕ := if fourGB ≤ addr then addr - halfGB else addr

/-- The address of the callback for an access queued at an address. -/
def callbackAddress (origAddr : ℕ) : ℕ :=
  if threePointFiveGB ≤ origAddr then origAddr + halfGB else origAddr

/-- Addresses between 3.5 and 4 GB are answered at once. -/
def addTransaction (isWrite : Bool) (addr : ℕ) : HybridSystem σ :=
  let s := s.record (.accepted isWrite addr)
  if threePointFiveGB ≤ addr ∧ addr < fourGB then s.record (.done isWrite addr)
  else s.pushBack ⟨dataType isWrite, remap addr⟩

def addPrefetch (prefetchAddr : ℕ) : HybridSystem σ :=
  s.pushFront ⟨.prefetch, prefetchAddr⟩

def addFlush (flushAddr : ℕ) : HybridSystem σ :=
  s.pushFront ⟨.flush, flushAddr⟩

def addSync (addr : ℕ) : HybridSystem σ :=
  s.pushFront ⟨.sync, addr⟩

/-- Only the first counter of a sync waits behind the other transactions. -/
def addSyncCounter (addr : ℕ) (initial : Bool) : HybridSystem σ :=
  if initial then s.pushBack ⟨.syncAllCounter, addr⟩ else s.pushFront ⟨.syncAllCounter, addr⟩

def syncAll : HybridSystem σ := s.addSyncCounter 0 true

/-- The addresses of the `SYNC` transactions that wait in the queue. -/
def waitingSyncs : List ℕ :=
  (s.transQueue.filter fun t => t.transactionType = .sync).map Transaction.address

/-! ### Callbacks to the user -/

def readDoneCallback (origAddr : ℕ) : HybridSystem σ :=
  s.record (.done false (callbackAddress origAddr))

def writeDoneCallback (origAddr : ℕ) : HybridSystem σ :=
  s.record (.done true (callbackAddress origAddr))

/-! ### Moving pages -/

/-- Read the page of a line that is replaced, burst by burst. -/
def victimRead (p : Pending) : Option (HybridSystem σ) :=
  let s := s.contentionIncrement cfg p.flashAddr
  let addresses := cfg.bursts cfg.burstSize p.cacheAddr
  if p.cacheAddr ∈ s.dramPending then none
  else some { s with
    dramPendingWait := s.dramPendingWait.insert p.cacheAddr addresses.toFinset
    dramQueue := s.dramQueue ++ addresses.map (⟨.dataRead, ·⟩)
    dramPending := s.dramPending.insert p.cacheAddr { p with op := .victimRead } }

/-- The number of DRAM reads of a line that are not completed. -/
def readsLeft (cacheAddr : ℕ) : ℕ :=
  (s.dramQueue ++ s.dramInFlight).countP fun t =>
    t.transactionType = .dataRead ∧ cfg.pageAddress t.address = cacheAddr

/-- Write the page that was replaced back to flash. -/
def victimWrite (p : Pending) : HybridSystem σ :=
  let addresses := cfg.bursts cfg.flashBurstSize
    (cfg.flashAddress p.victimTag (cfg.setIndex p.flashAddr))
  let s := s.record (.writesBack addresses (s.readsLeft cfg p.cacheAddr))
  { s with flashQueue := s.flashQueue ++ addresses.map (⟨.dataWrite, ·⟩) }

/-- A burst of the page is read; after the last one the page is written back. -/
def victimReadFinish (addr : ℕ) (p : Pending) : Option (HybridSystem σ) :=
  let wait := ((s.dramPendingWait.lookup p.cacheAddr).getD ∅).erase addr
  if wait ≠ ∅ then
    some { s with
      dramPendingWait := s.dramPendingWait.insert p.cacheAddr wait
      dramPending := s.dramPending.insert p.cacheAddr p }
  else
    let s := { s with dramPendingWait := s.dramPendingWait.erase p.cacheAddr }
    let s := s.contentionDecrement cfg p.flashAddr
    (s.contentionUnlock cfg p.flashAddr p.victimValid
      (cfg.flashAddress p.victimTag (cfg.setIndex p.cacheAddr)) true p.cacheAddr).map
        fun s => s.victimWrite cfg p

/-- Read a page from flash, burst by burst. -/
def lineRead (p : Pending) : HybridSystem σ :=
  let page := cfg.pageAddress p.flashAddr
  let s := s.contentionIncrement cfg p.flashAddr
  let addresses := cfg.bursts cfg.flashBurstSize page
  { s with
    flashPendingWait := s.flashPendingWait.insert page addresses.toFinset
    flashQueue := s.flashQueue ++ addresses.map (⟨.dataRead, ·⟩)
    flashPending := s.flashPending.insert page { p with op := .lineRead } }

/-- Write a page that was read from flash to its line. -/
def lineWrite (p : Pending) : HybridSystem σ :=
  { s with dramQueue := s.dramQueue ++
      (cfg.bursts cfg.burstSize p.cacheAddr).map (⟨.dataWrite, ·⟩) }

/-! ### Accesses to the cache -/

/-- The count of the unused prefetches when a line is used. -/
def useLine (l : CacheLine) : ℕ :=
  if l.prefetched ∧ l.used = false then decrement s.unusedPrefetches else s.unusedPrefetches

/-- A read that hits waits for the DRAM. -/
def cacheRead (origAddr flashAddr cacheAddr : ℕ) : Option (HybridSystem σ) :=
  let dataAddr := cacheAddr + cfg.pageOffset flashAddr
  if cacheAddr = cfg.pageAddress dataAddr ∧ dataAddr ∉ s.dramPending then
    let l := s.cache cacheAddr
    some { s with
      dramQueue := s.dramQueue ++ [⟨.dataRead, dataAddr⟩]
      unusedPrefetches := s.useLine l
      cache := Function.update s.cache cacheAddr
        { l with ts := s.currentClockCycle, used := true }
      dramPending := s.dramPending.insert dataAddr
        { op := .cacheRead, origAddr, flashAddr, cacheAddr, victimTag := 0,
          victimValid := false, callbackSent := false, type := .dataRead } }
  else none

/-- The read is answered, unless it was on its critical line. -/
def cacheReadFinish (p : Pending) : Option (HybridSystem σ) :=
  let s := if p.callbackSent then s else s.readDoneCallback p.origAddr
  s.contentionUnlock cfg p.flashAddr p.victimValid
    (cfg.flashAddress p.victimTag (cfg.setIndex p.cacheAddr)) true p.cacheAddr

/-- The line is dirty from now on, and the write is answered. -/
def cacheWriteFinish (p : Pending) : Option (HybridSystem σ) :=
  let l := s.cache p.cacheAddr
  let s := { s with
    unusedPrefetches := s.useLine l
    cache := Function.update s.cache p.cacheAddr
      { l with dirty := true, valid := true, used := true, ts := s.currentClockCycle } }
  let s := s.record (.writes (cfg.pageAddress p.flashAddr))
  let s := if p.callbackSent then s else s.writeDoneCallback p.origAddr
  s.contentionUnlock cfg p.flashAddr p.victimValid
    (cfg.flashAddress p.victimTag (cfg.setIndex p.cacheAddr)) true p.cacheAddr

/-- A write that hits does not wait for the DRAM. -/
def cacheWrite (origAddr flashAddr cacheAddr : ℕ) : Option (HybridSystem σ) :=
  let dataAddr := cacheAddr + cfg.pageOffset flashAddr
  let s : HybridSystem σ := { s with dramQueue := s.dramQueue ++ [⟨.dataWrite, dataAddr⟩] }
  s.cacheWriteFinish cfg
    { origAddr, flashAddr, cacheAddr, victimTag := 0, victimValid := false,
      callbackSent := false, type := .dataWrite }

/-- A page that is flushed is the first to be replaced. -/
def flush (cacheAddr : ℕ) : Option (HybridSystem σ) :=
  let l := s.cache cacheAddr
  let s := { s with cache := Function.update s.cache cacheAddr { l with ts := 0 } }
  s.contentionUnlock cfg (cfg.flashAddress l.tag (cfg.setIndex cacheAddr)) false 0 true cacheAddr

/-- The line is filled with the page of a completed flash read, then the access that missed is
finished. -/
def lineReadFinish (addr : ℕ) (p : Pending) : Option (HybridSystem σ) :=
  let page := cfg.pageAddress p.flashAddr
  let wait := ((s.flashPendingWait.lookup page).getD ∅).erase addr
  if wait ≠ ∅ then
    some { s with
      flashPendingWait := s.flashPendingWait.insert page wait
      flashPending := s.flashPending.insert (cfg.pageAddress addr) p }
  else
    let s := { s with flashPendingWait := s.flashPendingWait.erase page }
    let s := s.contentionDecrement cfg p.flashAddr
    let count := if p.type = .prefetch then 1 else 0
    let s : HybridSystem σ := { s with
      cache := Function.update s.cache p.cacheAddr
        { s.cache p.cacheAddr with
          tag := cfg.tag p.flashAddr, dirty := false, valid := true
          ts := s.currentClockCycle, used := false, prefetched := decide (p.type = .prefetch) }
      totalPrefetches := s.totalPrefetches + count
      unusedPrefetches := s.unusedPrefetches + count }
    let s := s.record (.fills page)
    let s := s.lineWrite cfg p
    match p.type with
    | .dataRead => s.cacheReadFinish cfg p
    | .dataWrite => s.cacheWriteFinish cfg p
    | .prefetch =>
      s.contentionUnlock cfg p.flashAddr p.victimValid
        (cfg.flashAddress p.victimTag (cfg.setIndex p.cacheAddr)) true p.cacheAddr
    | .flush | .syncAllCounter | .sync => some s

/-- `SYNC` reads the line like a victim. The copy of the line that is written back at the end was
made before the second lock. -/
def sync (addr cacheAddr : ℕ) (t : Transaction) : Option (HybridSystem σ) :=
  let l := s.cache cacheAddr
  if cfg.flashAddress l.tag (cfg.setIndex cacheAddr) = addr ∧ l.dirty = true then
    let s := s.record (.syncs addr (decide (1 < l.lockCount)))
    let s := s.contentionCacheLineLock cfg cacheAddr
    (s.victimRead cfg
      { origAddr := t.address, flashAddr := addr, cacheAddr, victimTag := l.tag,
        victimValid := false, callbackSent := false, type := t.transactionType }).map fun s =>
          { s with cache := Function.update s.cache cacheAddr { l with dirty := false } }
  else none

/-- The line with the address is being replaced: a flash read for it is not completed. -/
def isReplaced (cacheAddr : ℕ) : Bool :=
  decide (cacheAddr ∈ s.flashPending.entries.map fun e => e.2.cacheAddr)

/-- Queue a `SYNC` for the page of a line, if it is dirty. -/
def syncLine (addr : ℕ) : HybridSystem σ :=
  let l := s.cache addr
  let page := cfg.flashAddress l.tag (cfg.setIndex addr)
  if l.valid ∧ l.dirty then
    (s.record (.queuesSync page (s.isReplaced addr) (decide (page ∈ s.waitingSyncs)))).addSync page
  else s

/-- The counter visits the lines one after the other. -/
def syncAllCounter (addr : ℕ) : Option (HybridSystem σ) :=
  let nextAddr := addr + cfg.pageSize
  let s := if nextAddr < cfg.cachePages * cfg.pageSize then s.addSyncCounter nextAddr false else s
  (s.syncLine cfg addr).contentionUnlock cfg addr false 0 false 0

/-! ### Transactions -/

/-- The line of the set that holds the page of an address. -/
def hitLine (addr : ℕ) : Option ℕ :=
  (cfg.setAddresses (cfg.setIndex addr)).find? fun a =>
    (s.cache a).valid && (s.cache a).tag == cfg.tag addr

/-- One step of the search for a victim: the line found so far with its timestamp, if there is
one, and the next line. -/
def olderLine (cache : ℕ → CacheLine) (best : ℕ × Option ℕ) (a : ℕ) : ℕ × Option ℕ :=
  if (best.2.elim true fun min => (cache a).ts < min) && !(cache a).locked then
    (a, some (cache a).ts)
  else best

/-- The least recent of the unlocked lines; if all are locked, the first line. -/
def selectVictim (cache : ℕ → CacheLine) (lines : List ℕ) : ℕ :=
  (lines.foldl (olderLine cache) (lines.headD 0, none)).1

/-- The handlers of the prefetcher add their prefetches to the queue. -/
def handle (out : σ × List ℕ) : HybridSystem σ :=
  out.2.foldl addPrefetch { s with prefetcher := out.1 }

/-- What every prefetch that is queued keeps. -/
theorem handle_induction {P : HybridSystem σ → Prop} {s : HybridSystem σ} {out : σ × List ℕ}
    (hpush : ∀ u a, P u → P (u.addPrefetch a)) (h : P { s with prefetcher := out.1 }) :
    P (s.handle out) := by
  obtain ⟨prefetcher, addresses⟩ := out
  rw [handle]
  generalize { s with prefetcher := prefetcher } = u at h ⊢
  induction addresses generalizing u with
  | nil => exact h
  | cons a addresses ih => exact ih _ (hpush u a h)

/-- A transaction finds its page in the cache. -/
def processHit (t : Transaction) (addr cacheAddr : ℕ) : Option (HybridSystem σ) :=
  let s := s.contentionCacheLineLock cfg cacheAddr
  let handled := s.handle (pf.hit s.currentClockCycle (cfg.pageAddress addr) s.prefetcher)
  match t.transactionType with
  | .dataRead => handled.cacheRead cfg t.address addr cacheAddr
  | .dataWrite => handled.cacheWrite cfg t.address addr cacheAddr
  | .flush => s.flush cfg cacheAddr
  | .prefetch =>
    (s.record (.hits (cfg.pageAddress addr))).contentionUnlock cfg addr false 0 true cacheAddr
  | .sync => s.sync cfg addr cacheAddr t
  | .syncAllCounter => none

/-- A cheating prefetch sets the tags of the line as if the page had been read. -/
def cheat (addr victim : ℕ) : Option (HybridSystem σ) :=
  let page := cfg.pageAddress addr
  let s := { s with
    prefetchCheatMap := Function.update s.prefetchCheatMap page (s.prefetchCheatMap page - 1)
    cache := Function.update s.cache victim
      { s.cache victim with
        tag := cfg.tag page, dirty := false, valid := true
        ts := s.currentClockCycle, used := false, prefetched := true }
    totalPrefetches := s.totalPrefetches + 1
    unusedPrefetches := s.unusedPrefetches + 1 }
  (s.record (.fills page)).contentionUnlock cfg addr false 0 false 0

/-- Read the page of a miss into the line of the victim. -/
def replace (t : Transaction) (addr victim : ℕ) : Option (HybridSystem σ) :=
  let l := s.cache victim
  let s :=
    if l.valid then s.contentionVictimLock (cfg.flashAddress l.tag (cfg.setIndex addr)) else s
  let s := s.contentionCacheLineLock cfg victim
  let p : Pending :=
    { origAddr := t.address, flashAddr := addr, cacheAddr := victim, victimTag := l.tag,
      victimValid := l.valid, callbackSent := false, type := t.transactionType }
  let s := s.lineRead cfg p
  if l.dirty then s.victimRead cfg p else some s

/-- An unused prefetch that is replaced is counted as a victim. -/
def countVictim (l : CacheLine) : HybridSystem σ :=
  if l.prefetched ∧ l.used = false then
    { s with
      unusedPrefetches := decrement s.unusedPrefetches
      unusedPrefetchVictims := s.unusedPrefetchVictims + 1 }
  else s

/-- What is recorded of a miss. -/
def replacesEvent (addr victim : ℕ) (cheat : Bool) : Event :=
  .replaces (if (s.cache victim).valid then
      some (cfg.flashAddress (s.cache victim).tag (cfg.setIndex addr)) else none) victim
    ((cfg.setAddresses (cfg.setIndex addr)).map fun a => (a, s.cache a)) cheat s.waitingSyncs

/-- Select the victim of a miss, and put the page into its line. -/
def evict (t : Transaction) (addr : ℕ) : Option (HybridSystem σ) :=
  let victim := selectVictim s.cache (cfg.setAddresses (cfg.setIndex addr))
  let l := s.cache victim
  let cheats := t.transactionType = .prefetch ∧ s.prefetchCheatMap (cfg.pageAddress addr) ≠ 0
  let s := s.record (s.replacesEvent cfg addr victim (decide cheats))
  let s := s.countVictim l
  if cheats then s.cheat cfg addr victim else s.replace cfg t addr victim

/-- A transaction does not find its page in the cache. -/
def processMiss (t : Transaction) (addr : ℕ) : Option (HybridSystem σ) :=
  let s := s.contentionPageLock cfg addr
  match t.transactionType with
  | .flush => s.contentionUnlock cfg addr false 0 false 0
  | .sync => none
  | .prefetch => s.evict cfg t addr
  | .dataRead | .dataWrite | .syncAllCounter =>
    (s.handle (pf.miss s.currentClockCycle (cfg.pageAddress addr) s.prefetcher)).evict cfg t addr

/-- The active transaction looks its page up. -/
def processTransaction (t : Transaction) : Option (HybridSystem σ) :=
  let addr := cfg.align t.address
  if t.transactionType = .syncAllCounter then s.syncAllCounter cfg addr
  else if cfg.totalPages * cfg.pageSize ≤ addr then none
  else match s.hitLine cfg addr with
    | some cacheAddr => s.processHit cfg pf t addr cacheAddr
    | none => s.processMiss cfg pf t addr

/-! ### One cycle -/

/-- Process the active transaction after its delay. -/
def processActive : Option (HybridSystem σ) :=
  match s.activeTransaction with
  | some t =>
    if s.delayCounter = 0 then
      (s.processTransaction cfg pf t).map fun s => { s with activeTransaction := none }
    else some s
  | none => some s

/-- A transaction of the queue becomes the active one. -/
def activate (t : Transaction) (rest : List Transaction) : HybridSystem σ :=
  { s.contentionLock (cfg.align t.address) with
    activeTransaction := some t
    delayCounter := cfg.controllerDelay
    transQueue := rest }

/-- Look for a transaction that can start, behind those that were skipped. A cheating prefetch is
done at once. The result also says whether a transaction was started. -/
def scan (skipped : List Transaction) :
    List Transaction → HybridSystem σ → Option (HybridSystem σ × Bool)
  | [], s => some (s, false)
  | t :: rest, s =>
    if s.pendingPages.keys.card < cfg.numSets ∧ s.checkQueue ∧ s.delayCounter = 0 then
      let addr := cfg.align t.address
      if s.contentionIsUnlocked cfg addr then
        let s := s.activate cfg t (skipped ++ rest)
        if t.transactionType = .prefetch ∧ s.prefetchCheatMap (cfg.pageAddress addr) ≠ 0 then
          (s.processTransaction cfg pf t).bind fun s =>
            scan skipped rest { s with activeTransaction := none, delayCounter := 0 }
        else some (s, true)
      else scan (skipped ++ [t]) rest s
    else some (s, false)

/-- Send the first transaction of the DRAM queue, if the DRAM accepts it. -/
def sendDram (accepts : Bool) : HybridSystem σ :=
  match s.dramQueue with
  | t :: rest =>
    if accepts then { s with dramQueue := rest, dramInFlight := t :: s.dramInFlight } else s
  | [] => s

/-- Send the first transaction of the flash queue, if the flash accepts it. -/
def sendFlash (accepts : Bool) : HybridSystem σ :=
  match s.flashQueue with
  | t :: rest =>
    if accepts then { s with flashQueue := rest, flashInFlight := (t, false) :: s.flashInFlight }
    else s
  | [] => s

/-- The end of `update`, without the updates of the memories and the step of the clock. -/
def finishUpdate (sent dramAccepts flashAccepts : Bool) : HybridSystem σ :=
  let s := if sent = false ∧ s.delayCounter = 0 then { s with checkQueue := false } else s
  let s := (s.sendDram dramAccepts).sendFlash flashAccepts
  { s with delayCounter := s.delayCounter - 1 }

/-- One cycle of the controller. -/
def update (dramAccepts flashAccepts : Bool) : Option (HybridSystem σ) :=
  (s.processActive cfg pf).bind fun s =>
    (scan cfg pf [] s.transQueue s).map fun out =>
      out.1.finishUpdate out.2 dramAccepts flashAccepts

section Cycle

variable {cfg} {pf} {s u : HybridSystem σ}

/-- After its delay the active transaction is processed; else nothing is done. -/
theorem processActive_cases (h : s.processActive cfg pf = some u) :
    (u = s ∧ (s.delayCounter = 0 → s.activeTransaction = none)) ∨
      ∃ t v, s.delayCounter = 0 ∧ s.activeTransaction = some t ∧
        s.processTransaction cfg pf t = some v ∧ u = { v with activeTransaction := none } := by
  rw [processActive] at h
  split at h
  · rename_i t ht
    split_ifs at h with hdelay
    · obtain ⟨v, hv, rfl⟩ := Option.map_eq_some_iff.mp h
      exact Or.inr ⟨t, v, hdelay, ht, hv, rfl⟩
    · exact Or.inl ⟨(Option.some.inj h).symm, fun h0 => absurd h0 hdelay⟩
  · rename_i hnone
    exact Or.inl ⟨(Option.some.inj h).symm, fun _ => hnone⟩

/-- The scan does nothing without the flag, or during the delay of the active transaction. -/
theorem scan_of_idle {skipped rest : List Transaction}
    (h : ¬ (s.checkQueue = true ∧ s.delayCounter = 0)) :
    scan cfg pf skipped rest s = some (s, false) := by
  cases rest with
  | nil => rfl
  | cons t rest => rw [scan, if_neg fun hguard => h hguard.2]

/-- Only the accesses that are sent change. -/
theorem send_eq (s : HybridSystem σ) (dramAccepts flashAccepts : Bool) :
    ∃ dramQueue dramInFlight flashQueue flashInFlight,
      (s.sendDram dramAccepts).sendFlash flashAccepts =
        { s with dramQueue, dramInFlight, flashQueue, flashInFlight } := by
  have hdram : ∃ dramQueue dramInFlight,
      s.sendDram dramAccepts = { s with dramQueue, dramInFlight } := by
    rw [sendDram]
    split
    · split <;> exact ⟨_, _, rfl⟩
    · exact ⟨_, _, rfl⟩
  obtain ⟨dramQueue, dramInFlight, heq⟩ := hdram
  refine ⟨dramQueue, dramInFlight, ?_⟩
  rw [heq, sendFlash]
  split
  · split <;> exact ⟨_, _, rfl⟩
  · exact ⟨_, _, rfl⟩

/-- And the flag and the delay, at the end of a cycle. -/
theorem finishUpdate_eq (s : HybridSystem σ) (sent dramAccepts flashAccepts : Bool) :
    ∃ checkQueue delayCounter dramQueue dramInFlight flashQueue flashInFlight,
      s.finishUpdate sent dramAccepts flashAccepts =
        { s with
          checkQueue, delayCounter, dramQueue, dramInFlight, flashQueue, flashInFlight } := by
  obtain ⟨dramQueue, dramInFlight, flashQueue, flashInFlight, heq⟩ := send_eq
    (if sent = false ∧ s.delayCounter = 0 then { s with checkQueue := false } else s)
    dramAccepts flashAccepts
  rw [finishUpdate, heq]
  split <;> exact ⟨_, _, _, _, _, _, rfl⟩

end Cycle

/-! ### Callbacks of the memories -/

/-- The DRAM has read a burst. -/
def dramReadCallback (addr : ℕ) : Option (HybridSystem σ) :=
  -- an entry for the page means that a victim is read
  let pendingAddr :=
    if cfg.pageAddress addr ∈ s.dramPendingWait then cfg.pageAddress addr else addr
  match s.dramPending.lookup pendingAddr with
  | none => none
  | some p =>
    let s := { s with dramPending := s.dramPending.erase pendingAddr }
    match p.op with
    | .victimRead => s.victimReadFinish cfg addr p
    | .cacheRead => s.cacheReadFinish cfg p
    | .victimWrite | .lineRead | .cacheWrite => none

/-- The flash has read a burst. -/
def flashReadCallback (addr : ℕ) : Option (HybridSystem σ) :=
  let page := cfg.pageAddress addr
  match s.flashPending.lookup page with
  | none => none
  | some p =>
    let s := { s with flashPending := s.flashPending.erase page }
    match p.op with
    | .lineRead => s.lineReadFinish cfg addr p
    | .victimRead | .victimWrite | .cacheRead | .cacheWrite => none

/-- The flash has read what the user waits for, before the rest of the page. -/
def flashCriticalLineCallback (addr : ℕ) : Option (HybridSystem σ) :=
  let page := cfg.pageAddress addr
  match s.flashPending.lookup page with
  | none => none
  | some p =>
    if p.op = .lineRead ∧ p.callbackSent = false then
      let s := match p.type with
        | .dataRead => s.readDoneCallback p.origAddr
        | .dataWrite => s.writeDoneCallback p.origAddr
        | .prefetch | .flush | .syncAllCounter | .sync => s
      some { s with flashPending := s.flashPending.insert page { p with callbackSent := true } }
    else none

/-! ### Commands of the user -/

/-- Queue the prefetches of a range of pages; those that cheat are entered in the cheat map. -/
def prefetchRange (base pages : ℕ) (cheat : Bool) (s : HybridSystem σ) : HybridSystem σ :=
  (List.range pages).foldl (fun s i =>
    let addr := base + i * cfg.pageSize
    let s := s.addPrefetch addr
    if cheat then
      { s with prefetchCheatMap :=
          Function.update s.prefetchCheatMap addr (s.prefetchCheatMap addr + 1) }
    else s) s

/-- The commands of the user; others abort. -/
def mmio (operation address : ℕ) : Option (HybridSystem σ) :=
  match operation with
  | 0 | 2 => some s
  | 1 => some s.syncAll
  | 3 | 4 =>
    some (prefetchRange cfg (address % 2 ^ 48) (address / 2 ^ 48 % 2 ^ 16 + 1)
      (decide (operation = 4)) s)
  | _ => none

/-! ### Runs -/

/-- What can happen to the controller. A cycle of the source is an `update`, callbacks of the
memories, and a `step` of the clock. -/
inductive Action
  | addTransaction (isWrite : Bool) (addr : ℕ)
  | addPrefetch (addr : ℕ)
  | addFlush (addr : ℕ)
  | mmio (operation address : ℕ)
  /-- The memories accept a transaction or not. -/
  | update (dramAccepts flashAccepts : Bool)
  | step
  /-- The DRAM completes a read or a write. -/
  | dramReadCallback (addr : ℕ)
  | dramWriteCallback (addr : ℕ)
  /-- The flash completes a read, with or without a critical-line callback before it. -/
  | flashReadCallback (addr : ℕ) (critical : Bool)
  | flashCriticalLineCallback (addr : ℕ)
  | flashWriteCallback (addr : ℕ)
  deriving DecidableEq

/-- The memories make a callback only for an access they have accepted. -/
def Enabled : Action → Prop
  | .dramReadCallback addr => ⟨.dataRead, addr⟩ ∈ s.dramInFlight
  | .dramWriteCallback addr => ⟨.dataWrite, addr⟩ ∈ s.dramInFlight
  | .flashReadCallback addr critical => (⟨.dataRead, addr⟩, critical) ∈ s.flashInFlight
  | .flashCriticalLineCallback addr => (⟨.dataRead, addr⟩, false) ∈ s.flashInFlight
  | .flashWriteCallback addr => (⟨.dataWrite, addr⟩, false) ∈ s.flashInFlight
  | _ => True

instance (s : HybridSystem σ) : (a : Action) → Decidable (s.Enabled a)
  | .dramReadCallback _ | .dramWriteCallback _ | .flashReadCallback _ _
  | .flashCriticalLineCallback _ | .flashWriteCallback _ => inferInstanceAs (Decidable (_ ∈ _))
  | .addTransaction _ _ | .addPrefetch _ | .addFlush _ | .mmio _ _ | .update _ _ | .step =>
    .isTrue trivial

/-- The effect of an action. -/
def perform : Action → Option (HybridSystem σ)
  | .addTransaction isWrite addr => some (s.addTransaction isWrite addr)
  | .addPrefetch addr => some (s.addPrefetch addr)
  | .addFlush addr => some (s.addFlush addr)
  | .mmio operation address => s.mmio cfg operation address
  | .update dramAccepts flashAccepts => s.update cfg pf dramAccepts flashAccepts
  | .step => some { s with currentClockCycle := s.currentClockCycle + 1 }
  | .dramReadCallback addr =>
    { s with dramInFlight := s.dramInFlight.erase ⟨.dataRead, addr⟩ }.dramReadCallback cfg addr
  | .dramWriteCallback addr =>
    some { s with dramInFlight := s.dramInFlight.erase ⟨.dataWrite, addr⟩ }
  | .flashReadCallback addr critical =>
    { s with
      flashInFlight := s.flashInFlight.erase (⟨.dataRead, addr⟩, critical) }.flashReadCallback
        cfg addr
  | .flashCriticalLineCallback addr =>
    { s with
      flashInFlight := (⟨.dataRead, addr⟩, true) ::
        s.flashInFlight.erase (⟨.dataRead, addr⟩, false) }.flashCriticalLineCallback cfg addr
  | .flashWriteCallback addr =>
    some { s with flashInFlight := s.flashInFlight.erase (⟨.dataWrite, addr⟩, false) }

/-- One step; none if the action is not enabled, or the program does not return from it. -/
def next (a : Action) : Option (HybridSystem σ) :=
  if s.Enabled a then s.perform cfg pf a else none

/-- The cache after construction: the first pages of the address space, clean. -/
def prefill (addr : ℕ) : CacheLine :=
  if addr % cfg.pageSize = 0 ∧ addr / cfg.pageSize < cfg.cachePages then
    { valid := true, tag := cfg.tag addr }
  else {}

/-- The controller after construction, with a cache table. -/
def init (cache : ℕ → CacheLine) (prefetcher : σ) : HybridSystem σ where
  cache := cache
  prefetcher := prefetcher

/-- The steps of a small cache with stream buffers, -/
abbrev smallNext := next smallCache (streamBuffer smallCache)

/-- and its state after construction. -/
abbrev smallInit : HybridSystem StreamBuffers := init (prefill smallCache) {}

end HybridSystem

end HybridMemory.HybridSim

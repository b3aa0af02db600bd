import Mathlib.Data.List.AList
import HybridMemory.Lib.Transition

/-!
# The flash translation layers

`Ftl` maps the addresses of the host to flash pages that it allocates itself; `GCFtl` derives
from it, marks overwritten pages as dirty and collects blocks with dirty pages: it reads the
live pages of a block, writes them somewhere else and erases the block. Both keep the host's
transactions in a read and a write queue, `GCFtl` keeps its own in a third one.

The model has the state of both classes in one record; `Config.garbageCollect` says which of
them runs, and the virtual functions branch on it. The controller answers each attempt to hand
it a packet with the Boolean that comes with the `update` action (within one `update` its
queues do not change, so that every attempt gets the same answer). The device completes GC
reads in any order, and counts erases when they arrive. Loggers, data, callbacks and the
saved state of an earlier run are left out. The comparisons of page counts with the float
thresholds are replaced by the least count that passes them. A step returns `none` where the
program exits, fails an assertion, loops until it exits, or uses an iterator, a queue or a
variable that has no value.

The record ends with a history that is not in the source: the host transactions accepted and
those handled (with the writes replaced by newer ones), the same for the transactions of the
collector, the addresses of live pages in collected blocks and of those written back, the
addresses whose write was refused while they were mapped, the addresses whose page was in a
block when it was erased, and for each finished pass whether nothing was left to do.
-/

namespace HybridMemory.NVDIMMSim

open Transition

/-- A line of the write script. -/
structure ScriptEntry where
  cycle : ℕ
  package : ℕ
  die : ℕ
  plane : ℕ

structure Config where
  garbageCollect : Bool
  numPackages : ℕ
  diesPerPackage : ℕ
  planesPerDie : ℕ
  blocksPerPlane : ℕ
  pagesPerBlock : ℕ
  nvPageSize : ℕ
  pagesPerBlock_pos : 0 < pagesPerBlock
  nvPageSize_pos : 0 < nvPageSize
  virtualTotalSize : ℕ
  ftlReadQueueLength : ℕ
  ftlWriteQueueLength : ℕ
  schedule : Bool
  perfectSchedule : Bool
  diskRead : Bool
  enableWriteScript : Bool
  writeOnQueueSize : Bool
  writeQueueLimit : ℕ
  idleWrite : Bool
  delayWrite : Bool
  delayWriteCycles : ℕ
  lookupCycles : ℕ
  queueAccessCycles : ℕ
  deadlockTime : ℕ
  script : ℕ → ScriptEntry
  forceGCPages : ℕ
  idleGCPages : ℕ
  fullPages : ℕ

namespace Config

variable (cfg : Config)

/-- `BLOCK_SIZE` -/
def blockSize : ℕ := cfg.nvPageSize * cfg.pagesPerBlock

/-- The number of planes in the device. -/
def numPlanes : ℕ := cfg.planesPerDie * cfg.diesPerPackage * cfg.numPackages

/-- `TOTAL_SIZE / BLOCK_SIZE` -/
def numBlocks : ℕ := cfg.numPackages * cfg.diesPerPackage * cfg.planesPerDie * cfg.blocksPerPlane

/-- The first block of a plane. -/
def firstBlock (package die plane : ℕ) : ℕ :=
  cfg.blocksPerPlane * (plane + cfg.planesPerDie * (die + cfg.diesPerPackage * package))

/-- The physical address of a page, given by its block and its place in the block. -/
def pageAddr (q : ℕ × ℕ) : ℕ := q.1 * cfg.blockSize + q.2 * cfg.nvPageSize

/-- The page at a physical address. -/
def pageOf (pAddr : ℕ) : ℕ × ℕ :=
  (pAddr / cfg.blockSize, pAddr / cfg.nvPageSize % cfg.pagesPerBlock)

/-- Host transactions are kept in two queues. -/
def twoQueues : Bool := cfg.schedule || cfg.perfectSchedule

theorem pageAddr_div_nvPageSize (q : ℕ × ℕ) :
    cfg.pageAddr q / cfg.nvPageSize = cfg.pagesPerBlock * q.1 + q.2 := by
  have haddr : cfg.pageAddr q = cfg.nvPageSize * (cfg.pagesPerBlock * q.1 + q.2) := by
    rw [pageAddr, blockSize, Nat.mul_add, Nat.mul_comm q.1, Nat.mul_assoc, Nat.mul_comm q.2]
  rw [haddr, Nat.mul_div_cancel_left _ cfg.nvPageSize_pos]

theorem pageOf_pageAddr {q : ℕ × ℕ} (h : q.2 < cfg.pagesPerBlock) :
    cfg.pageOf (cfg.pageAddr q) = q := by
  have hblock : cfg.pageAddr q / cfg.blockSize = q.1 := by
    rw [blockSize, ← Nat.div_div_eq_div_mul, cfg.pageAddr_div_nvPageSize,
      Nat.mul_add_div cfg.pagesPerBlock_pos, Nat.div_eq_of_lt h, Nat.add_zero]
  rw [pageOf, hblock, cfg.pageAddr_div_nvPageSize, Nat.mul_add_mod, Nat.mod_eq_of_lt h]

end Config

inductive TransactionType
  | dataRead | dataWrite | gcDataRead | gcDataWrite | blockErase | empty
  deriving DecidableEq

/-- A transaction, with a number that tells it from all others. -/
structure FlashTransaction where
  transactionType : TransactionType
  address : ℕ
  id : ℕ
  deriving DecidableEq

/-- A read or write of the host. -/
def FlashTransaction.isHost (t : FlashTransaction) : Bool :=
  match t.transactionType with
  | .dataRead | .dataWrite => true
  | _ => false

inductive ChannelPacketType
  | read | write | gcRead | gcWrite | erase
  deriving DecidableEq

structure PendingErase where
  eraseBlock : ℕ
  pendingReads : List ℕ
  deriving DecidableEq

structure Ftl where
  channel : ℕ := 0
  die : ℕ := 0
  plane : ℕ := 0
  lookupCounter : ℕ := 0
  busy : Bool := false
  currentTransaction : FlashTransaction
  currentClockCycle : ℕ := 0
  addressMap : AList fun _ : ℕ => ℕ := ∅
  used : ℕ × ℕ → Bool := fun _ => false
  usedPageCount : ℕ := 0
  readQueue : List FlashTransaction := []
  writeQueue : List FlashTransaction := []
  readPointer : Option ℕ := none
  readIteratorCounter : ℕ := 0
  readQueuesFull : Bool := false
  writeQueuesFull : Bool := false
  queueAccessCounter : ℕ := 0
  writeWaitCount : ℕ
  deadlockCounter : ℕ := 0
  scriptLine : ℕ := 0
  -- the fields of `GCFtl`
  gcStatus : Bool := false
  panicMode : Bool := false
  startErase : ℕ := 0
  erasePointer : ℕ := 0
  dirty : ℕ × ℕ → Bool := fun _ => false
  dirtyPageCount : ℕ := 0
  gcQueue : List FlashTransaction := []
  gcPendingErase : List PendingErase := []
  -- the device: erases that have arrived and that are under way, GC reads under way
  numErases : ℕ := 0
  erasing : ℕ := 0
  gcReads : List ℕ := []
  -- the history
  nextId : ℕ := 0
  accepted : List FlashTransaction := []
  handled : List FlashTransaction := []
  gcAdded : List FlashTransaction := []
  gcHandled : List FlashTransaction := []
  moves : List ℕ := []
  moved : List ℕ := []
  refusals : List ℕ := []
  lost : List ℕ := []
  passEnds : List Bool := []

namespace Ftl

variable (cfg : Config) (s : Ftl)

/-! ### Host transactions -/

/-- The iterator `begin()` of a queue; `none` is `end()`. -/
def first (queue : List FlashTransaction) : Option ℕ := if queue = [] then none else some 0

def attemptAdd (t : FlashTransaction) (queue : List FlashTransaction) (queueLimit : ℕ) :
    Option (List FlashTransaction) :=
  if queueLimit ≤ queue.length ∧ queueLimit ≠ 0 then none else some (queue ++ [t])

/-- A read is added to its own queue. -/
def addRead (t : FlashTransaction) : Option Ftl :=
  (attemptAdd t s.readQueue cfg.ftlReadQueueLength).map fun queue =>
    { s with
      readQueue := queue
      readPointer := if queue.length = 1 then first queue else s.readPointer }

/-- A write is added to its own queue. -/
def addWrite (t : FlashTransaction) : Option Ftl :=
  (attemptAdd t s.writeQueue cfg.ftlWriteQueueLength).map fun queue =>
    { s with writeQueue := queue }

/-- A new write takes the place of the first queued one to its address, whose callback is
called; a write that is being worked on stays. -/
def replaceWrite (t : FlashTransaction) : Ftl :=
  if s.currentTransaction.address = t.address then s
  else
    { s with
      writeQueue := s.writeQueue.eraseP fun w => w.address = t.address
      handled := s.handled ++ (s.writeQueue.find? fun w => w.address = t.address).toList }

/-- The part of `addTransaction` that depends on the scheduling mode: `addScheduledTransaction`,
`addPerfectTransaction`, or everything into the read queue. -/
def enqueue (t : FlashTransaction) : Option Ftl :=
  if cfg.schedule then
    if t.transactionType = .dataWrite then (s.replaceWrite t).addWrite cfg t else s.addRead cfg t
  else if cfg.perfectSchedule then
    if t.transactionType = .dataWrite then s.addWrite cfg t else s.addRead cfg t
  else
    (attemptAdd t s.readQueue cfg.ftlReadQueueLength).map fun queue => { s with readQueue := queue }

/-- What is left if a transaction is not accepted: a replaced write is gone all the same. -/
def refused (t : FlashTransaction) : Ftl :=
  if cfg.schedule ∧ t.transactionType = .dataWrite then s.replaceWrite t else s

/-- A host transaction is accepted or refused. -/
def receive (t : FlashTransaction) : Ftl :=
  match s.enqueue cfg t with
  | some s => { s with nextId := s.nextId + 1, accepted := s.accepted ++ [t] }
  | none => s.refused cfg t

/-- `addTransaction`; with an address out of range, or in panic mode, the program exits. -/
def addTransaction (isWrite : Bool) (address : ℕ) : Option Ftl :=
  if cfg.virtualTotalSize * 1024 ≤ address ∨ cfg.garbageCollect ∧ s.panicMode then none
  else some (s.receive cfg ⟨if isWrite then .dataWrite else .dataRead, address, s.nextId⟩)

/-! ### Scheduling -/

/-- Start on a transaction. -/
def start (t : FlashTransaction) : Ftl :=
  { s with busy := true, currentTransaction := t, lookupCounter := cfg.lookupCycles }

/-- The transaction that the read iterator points at. -/
def pointed : Option FlashTransaction := s.readPointer.bind fun i => s.readQueue[i]?

def scheduleCurrentTransaction : Option Ftl :=
  if (if cfg.writeOnQueueSize then cfg.writeQueueLimit else cfg.ftlWriteQueueLength) ≤
      s.writeQueue.length then
    s.writeQueue.head?.map (s.start cfg)
  else if s.readQueue ≠ [] then s.pointed.map (s.start cfg)
  else if cfg.idleWrite ∧ s.writeQueue ≠ [] then
    if s.writeWaitCount ≠ 0 ∧ cfg.delayWrite then
      some { s with writeWaitCount := s.writeWaitCount - 1 }
    else
      s.writeQueue.head?.map fun t => { s.start cfg t with writeWaitCount := cfg.delayWriteCycles }
  else some { s with busy := false }

def scriptCurrentTransaction : Option Ftl :=
  if (cfg.script s.scriptLine).cycle ≤ s.currentClockCycle ∧ s.writeQueue ≠ [] then
    s.writeQueue.head?.map (s.start cfg)
  else if s.readQueue ≠ [] then s.readQueue.head?.map (s.start cfg)
  else some { s with busy := false }

/-- The choice of the next host transaction. -/
def issue : Option Ftl :=
  if cfg.twoQueues then
    if cfg.enableWriteScript then s.scriptCurrentTransaction cfg
    else s.scheduleCurrentTransaction cfg
  else
    match s.readQueue with
    | [] => some { s with busy := false }
    | t :: _ => some (s.start cfg t)

/-! ### Reads and writes -/

/-- `popFront` of the two classes. -/
def popFront (type : ChannelPacketType) : Option Ftl :=
  if cfg.garbageCollect ∧ (type = .erase ∨ type = .gcRead ∨ type = .gcWrite) then
    match s.gcQueue with
    | [] => none
    | _ :: queue => some { s with gcQueue := queue }
  else if cfg.twoQueues then
    if type = .read ∨ type = .erase then do
      let i ← s.readPointer
      let queue := s.readQueue.eraseIdx i
      some { s with readQueue := queue, readPointer := first queue }
    else if type = .write then
      match s.writeQueue with
      | [] => none
      | _ :: queue => some { s with writeQueue := queue }
    else some s
  else
    match s.readQueue with
    | [] => none
    | _ :: queue => some { s with readQueue := queue }

/-- The current transaction is handled. -/
def note : Ftl :=
  if s.currentTransaction.isHost then { s with handled := s.handled ++ [s.currentTransaction] }
  else { s with gcHandled := s.gcHandled ++ [s.currentTransaction] }

/-- A read is done: it leaves its queue. -/
def readDone (type : ChannelPacketType) : Option Ftl :=
  (s.note.popFront cfg type).map fun s => { s with readIteratorCounter := 0, busy := false }

/-- The controller has no room for a read: wait, or try another one. -/
def readRefused : Option Ftl :=
  if cfg.schedule then do
    let i ← s.readPointer
    if s.readQueue.length ≤ s.readIteratorCounter + 1 then
      some { s with
        readPointer := first s.readQueue, readQueuesFull := true, readIteratorCounter := 0
        busy := false }
    else
      some { s with
        readPointer := if i + 1 < s.readQueue.length then some (i + 1) else first s.readQueue
        readIteratorCounter := s.readIteratorCounter + 1
        busy := false }
  else some { s with writeQueuesFull := true }

/-- The first free page in the blocks from `lo` up to `hi`. -/
def scan (used : ℕ × ℕ → Bool) (lo hi : ℕ) : Option (ℕ × ℕ) :=
  (List.range' lo (hi - lo)).findSome? fun block =>
    ((List.range cfg.pagesPerBlock).find? fun page => !used (block, page)).map fun page =>
      (block, page)

/-- The search for a free page: from the write pointer to the end, then from the beginning (the
source divides the bound by the block size once more). -/
def freePage : Option (ℕ × ℕ) :=
  let start := cfg.firstBlock s.channel s.die s.plane
  match scan cfg s.used start cfg.numBlocks with
  | some q => some q
  | none => scan cfg s.used 0 (start / cfg.blockSize)

/-- The write pointer advances. -/
def advance : Ftl :=
  let channel := (s.channel + 1) % cfg.numPackages
  let die := if channel = 0 then (s.die + 1) % cfg.diesPerPackage else s.die
  { s with
    channel := channel
    die := die
    plane := if channel = 0 ∧ die = 0 then (s.plane + 1) % cfg.planesPerDie else s.plane }

/-- A page is taken for an address. -/
def place (vAddr : ℕ) (q : ℕ × ℕ) : Ftl :=
  { s with
    used := Function.update s.used q true
    usedPageCount := s.usedPageCount + 1
    addressMap := s.addressMap.insert vAddr (cfg.pageAddr q) }

/-- `handle_disk_read`: an unmapped page is written at once and then read. -/
def handleDiskRead (accepts : Bool) : Option Ftl :=
  match s.freePage cfg with
  | none =>
    if s.deadlockCounter + 1 = cfg.deadlockTime then none
    else some { s with deadlockCounter := s.deadlockCounter + 1 }
  | some q =>
    let s := ({ s with deadlockCounter := 0 }.place cfg s.currentTransaction.address q).advance cfg
    if accepts then s.readDone cfg .read else s.readRefused cfg

/-- `handle_read` of a page that no queued write has. -/
def readMapped (gc accepts : Bool) : Option Ftl :=
  match s.addressMap.lookup s.currentTransaction.address with
  | none =>
    if gc then none
    else if cfg.diskRead then s.handleDiskRead cfg accepts
    else s.readDone cfg .read
  | some _ =>
    if accepts then
      if gc then
        { s with gcReads := s.gcReads ++ [s.currentTransaction.address] }.readDone cfg .gcRead
      else s.readDone cfg .read
    else s.readRefused cfg

/-- `handle_read` -/
def handleRead (gc accepts : Bool) : Option Ftl :=
  if !gc ∧ cfg.schedule ∧ 0 < s.queueAccessCounter then
    -- the data come from a queued write
    let s := { s with queueAccessCounter := s.queueAccessCounter - 1 }
    if s.queueAccessCounter = 0 then s.readDone cfg .read else some s
  else if !gc ∧ cfg.schedule ∧ s.writeQueue.any fun w => w.address = s.currentTransaction.address
  then some { s with queueAccessCounter := cfg.queueAccessCycles }
  else s.readMapped cfg gc accepts

/-- `write_used_handler` of the two classes, for the page an address is mapped to. -/
def writeUsedHandler (pAddr : ℕ) : Ftl :=
  if cfg.garbageCollect then
    { s with
      dirty := Function.update s.dirty (cfg.pageOf pAddr) true
      dirtyPageCount := s.dirtyPageCount + 1 }
  else { s with used := Function.update s.used (cfg.pageOf pAddr) false }

/-- The page that the current write's address is mapped to is marked before the write. -/
def markOld : Ftl :=
  match s.addressMap.lookup s.currentTransaction.address with
  | some pAddr => s.writeUsedHandler cfg pAddr
  | none => s

/-- `write_success`; it pops with the packet type of a host write in all cases. -/
def writeSuccess (q : ℕ × ℕ) : Option Ftl :=
  let vAddr := s.currentTransaction.address
  let s := if s.currentTransaction.transactionType = .gcDataWrite then
    { s with moved := s.moved ++ [vAddr] } else s
  ((s.note.place cfg vAddr q).popFront cfg .write).map fun s => { s with busy := false }

/-- A write to a mapped address is put off. -/
def noteRefusal : Ftl :=
  match s.addressMap.lookup s.currentTransaction.address with
  | some _ => { s with refusals := s.refusals ++ [s.currentTransaction.address] }
  | none => s

/-- `handle_scripted_write`: a free page in the plane of the script; if there is none, the source
goes on with variables that have no value. -/
def handleScriptedWrite (accepts : Bool) : Option Ftl :=
  let line := cfg.script s.scriptLine
  let start := cfg.firstBlock line.package line.die line.plane
  if cfg.numBlocks < start + cfg.blocksPerPlane then none
  else
    match scan cfg s.used start (start + cfg.blocksPerPlane) with
    | none => none
    | some q =>
      if accepts then
        (s.writeSuccess cfg q).map fun s => { s with scriptLine := s.scriptLine + 1 }
      else some s.noteRefusal

/-- The loop of `handle_write` after a page has been found: every further attempt is for the
same page, since `done` is not reset. -/
def sendWrite (accepts : Bool) (q : ℕ × ℕ) : Option Ftl :=
  let s := { s with deadlockCounter := 0 }
  if cfg.perfectSchedule ∨ accepts then (s.advance cfg).writeSuccess cfg q
  else
    some { s.noteRefusal with
      writeQueuesFull := true
      busy := if cfg.schedule then false else s.busy }

/-- `handle_write`; without a free page it loops until it exits. -/
def handleWrite (accepts : Bool) : Option Ftl :=
  let s := s.markOld cfg
  if cfg.enableWriteScript then s.handleScriptedWrite cfg accepts
  else
    match s.freePage cfg with
    | none => none
    | some q => s.sendWrite cfg accepts q

/-! ### Garbage collection -/

/-- `addGcTransaction` -/
def addGcTransaction (type : TransactionType) (address : ℕ) : Ftl :=
  let t : FlashTransaction := ⟨type, address, s.nextId⟩
  { s with
    gcQueue := s.gcQueue ++ [t]
    writeQueuesFull := false
    nextId := s.nextId + 1
    gcAdded := s.gcAdded ++ [t] }

/-- The pages of a block that are used and not dirty. -/
def livePages (block : ℕ) : List ℕ :=
  (List.range cfg.pagesPerBlock).filter fun page => s.used (block, page) && !s.dirty (block, page)

/-- The reverse lookup of `addGC`. -/
def addressOf (q : ℕ × ℕ) : Option ℕ :=
  (s.addressMap.entries.find? fun e => e.2 = cfg.pageAddr q).map fun e => e.1

/-- The addresses whose pages have to be moved before a block is erased. -/
def liveAddresses (block : ℕ) : Option (List ℕ) :=
  (s.livePages cfg block).mapM fun page => s.addressOf cfg (block, page)

/-- `addGC`: reads of the live pages, or the erase at once. -/
def addGC (block : ℕ) : Option Ftl := do
  let addresses ← s.liveAddresses cfg block
  let s := addresses.foldl (fun s vAddr => s.addGcTransaction .gcDataRead vAddr) s
  let s := { s with moves := s.moves ++ addresses }
  if addresses = [] then some (s.addGcTransaction .blockErase (block * cfg.blockSize))
  else some { s with gcPendingErase := ⟨block, addresses.reverse⟩ :: s.gcPendingErase }

def dirtyCount (block : ℕ) : ℕ :=
  (List.range cfg.pagesPerBlock).countP fun page => s.dirty (block, page)

/-- The first of the blocks with the most dirty pages; block 0 if none has any. -/
def dirtiest (blocks : List ℕ) : ℕ :=
  (blocks.foldl (fun best block =>
    if best.2 < s.dirtyCount cfg block then (block, s.dirtyCount cfg block) else best) (0, 0)).1

/-- `runGC` -/
def runGC : Option Ftl :=
  let block := s.dirtiest cfg (List.range' s.erasePointer (cfg.numBlocks - s.erasePointer))
  { s with erasePointer := (block + 1) % cfg.numBlocks }.addGC cfg block

/-- `runGC` for a plane, in panic mode. -/
def runGCPlane (plane : ℕ) : Option Ftl :=
  s.addGC cfg (s.dirtiest cfg (List.range' (plane * cfg.blocksPerPlane) cfg.blocksPerPlane))

/-- The number of erases after which a pass is over. -/
def passErases : ℕ := if s.panicMode then cfg.numPlanes else 1

/-- All the work of a pass is finished. -/
def finished : Bool :=
  s.gcQueue = [] ∧ s.gcPendingErase = [] ∧ s.moves.Perm s.moved

/-- The end of a pass. -/
def endPass : Ftl :=
  if s.gcStatus ∧ s.numErases = s.startErase + s.passErases cfg then
    { s with gcStatus := false, panicMode := false, passEnds := s.passEnds ++ [s.finished] }
  else s

/-- The start of a pass in panic mode, which drops what the layer was busy with. -/
def startPanic : Option Ftl :=
  if ¬ s.gcStatus ∧ cfg.forceGCPages ≤ s.usedPageCount then
    if s.dirtyPageCount ≠ 0 then
      (List.range cfg.numPlanes).foldlM (fun s plane => s.runGCPlane cfg plane)
        { s with startErase := s.numErases, gcStatus := true, panicMode := true, busy := false }
    else if cfg.fullPages ≤ s.usedPageCount then none
    else some s
  else some s

/-- Subtraction from a counter of 64 bits. -/
def countDown (n k : ℕ) : ℕ := if k ≤ n then n - k else n + UInt64.size - k

/-- A block is erased: its pages are neither dirty nor used. -/
def clearBlock (block : ℕ) : Ftl :=
  let pages := List.range cfg.pagesPerBlock
  { s with
    dirty := fun q => s.dirty q && !decide (q.1 = block ∧ q.2 < cfg.pagesPerBlock)
    dirtyPageCount := countDown s.dirtyPageCount (pages.countP fun page => s.dirty (block, page))
    used := fun q => s.used q && !decide (q.1 = block ∧ q.2 < cfg.pagesPerBlock)
    usedPageCount := countDown s.usedPageCount (pages.countP fun page => s.used (block, page))
    lost := s.lost ++ (s.addressMap.entries.filter fun e => (cfg.pageOf e.2).1 = block).map (·.1) }

/-- The case of a block erase in `update`. -/
def handleErase (accepts : Bool) : Option Ftl :=
  if accepts then
    let s := { s.note.clearBlock cfg (s.currentTransaction.address / cfg.blockSize) with
      erasing := s.erasing + 1, busy := false }
    if s.gcStatus then
      match s.gcQueue with
      | [] => none
      | _ :: queue => some { s with gcQueue := queue }
    else do
      let i ← s.readPointer
      let queue := s.readQueue.eraseIdx i
      some { s with readQueue := queue, readPointer := if i < queue.length then some i else none }
  else some { s with writeQueuesFull := true }

/-- The current transaction is carried out. -/
def perform (accepts : Bool) : Option Ftl :=
  match s.currentTransaction.transactionType with
  | .dataRead => if s.readQueuesFull then some s else s.handleRead cfg false accepts
  | .dataWrite => s.handleWrite cfg accepts
  | .gcDataRead => if cfg.garbageCollect then s.handleRead cfg true accepts else some s
  | .gcDataWrite => if cfg.garbageCollect then s.handleWrite cfg accepts else some s
  | .blockErase => if cfg.garbageCollect then s.handleErase cfg accepts else some s
  | .empty => if cfg.garbageCollect then none else some s

/-- The busy half of `update`. -/
def work (accepts : Bool) : Option Ftl :=
  if s.lookupCounter = 0 ∧ ¬ s.writeQueuesFull then s.perform cfg accepts
  else some { s with lookupCounter := s.lookupCounter - 1 }

/-- The start of a normal pass when there was nothing else to do. -/
def startPass : Option Ftl :=
  if s.lookupCounter ≠ cfg.lookupCycles ∧ cfg.idleGCPages ≤ s.usedPageCount ∧ ¬ s.gcStatus ∧
      s.dirtyPageCount ≠ 0 then
    { s with startErase := s.numErases, gcStatus := true }.runGC cfg
  else some s

/-- During a pass, transactions come from the queue of the collector only. -/
def issueAny : Option Ftl :=
  if s.gcStatus then
    match s.gcQueue with
    | [] => some { s with busy := false }
    | t :: _ => some (s.start cfg t)
  else s.issue cfg

/-- The idle half of `GCFtl::update`. -/
def idle : Option Ftl := (s.issueAny cfg).bind (startPass cfg)

/-- `update` of the two classes. -/
def update (accepts : Bool) : Option Ftl :=
  if cfg.garbageCollect then do
    let s ← (s.endPass cfg).startPanic cfg
    if s.busy then s.work cfg accepts else s.idle cfg
  else if s.busy then s.work cfg accepts
  else s.issue cfg

/-- The part of `GCReadDone` that looks for a block whose reads are complete. -/
def readArrived (vAddr : ℕ) : List PendingErase → Option ℕ × List PendingErase
  | [] => (none, [])
  | e :: rest =>
    let reads := e.pendingReads.filter (· ≠ vAddr)
    if reads = [] then (some e.eraseBlock, rest)
    else
      let (block, rest) := readArrived vAddr rest
      (block, { e with pendingReads := reads } :: rest)

/-- `GCReadDone` of the two classes. -/
def gcReadDone (vAddr : ℕ) : Ftl :=
  if cfg.garbageCollect then
    let (block, pending) := readArrived vAddr s.gcPendingErase
    let s := { s with gcPendingErase := pending }
    let s := match block with
      | some block => s.addGcTransaction .blockErase (block * cfg.blockSize)
      | none => s
    s.addGcTransaction .gcDataWrite vAddr
  else s

def queuesNotFull : Ftl := { s with readQueuesFull := false, writeQueuesFull := false }

end Ftl

/-- What can happen to a translation layer: a host transaction, a cycle, room in the queues of
the controller, the completion of a GC read or the arrival of an erase at the device. -/
inductive Action
  | addTransaction (isWrite : Bool) (address : ℕ)
  | update (accepts : Bool)
  | clock
  | queuesNotFull
  | gcReadDone (n : ℕ)
  | eraseArrives
  deriving DecidableEq

/-- The state after construction; the address of the empty current transaction is whatever was
there. -/
def init (cfg : Config) (address : ℕ) : Ftl :=
  { currentTransaction := ⟨.empty, address, 0⟩, writeWaitCount := cfg.delayWriteCycles }

def step (cfg : Config) (s : Ftl) : Action → Option Ftl
  | .addTransaction isWrite address => s.addTransaction cfg isWrite address
  | .update accepts => s.update cfg accepts
  | .clock => some { s with currentClockCycle := s.currentClockCycle + 1 }
  | .queuesNotFull => some s.queuesNotFull
  | .gcReadDone n => do
    let vAddr ← s.gcReads[n]?
    some ({ s with gcReads := s.gcReads.eraseIdx n }.gcReadDone cfg vAddr)
  | .eraseArrives =>
    if s.erasing = 0 then none
    else some { s with erasing := s.erasing - 1, numErases := s.numErases + 1 }

/-- A device of two blocks with two pages each, one queue, and a normal pass from the third used
page on. -/
def smallDevice (garbageCollect : Bool) : Config where
  garbageCollect := garbageCollect
  numPackages := 1
  diesPerPackage := 1
  planesPerDie := 1
  blocksPerPlane := 2
  pagesPerBlock := 2
  nvPageSize := 1
  pagesPerBlock_pos := Nat.two_pos
  nvPageSize_pos := Nat.one_pos
  virtualTotalSize := 3
  ftlReadQueueLength := 0
  ftlWriteQueueLength := 0
  schedule := false
  perfectSchedule := false
  diskRead := false
  enableWriteScript := false
  writeOnQueueSize := false
  writeQueueLimit := 0
  idleWrite := false
  delayWrite := false
  delayWriteCycles := 0
  lookupCycles := 1
  queueAccessCycles := 1
  deadlockTime := 100
  script := fun _ => ⟨0, 0, 0, 0⟩
  forceGCPages := 5
  idleGCPages := 3
  fullPages := 5

end HybridMemory.NVDIMMSim

import HybridMemory.NVMain.Request

/-!
# The memory controller

`MemoryController` takes the requests of the processor from its transaction queues, turns each
of them into commands, and issues the commands of its command queues to the memory, one in a
cycle. Ahead of the commands in the queues, it keeps a prediction of the rows that will be
open (`activateQueued`, `activeSubArray`, `effectiveRow`), from which `IssueMemoryCommands`
decides what a request needs. Refreshes are queued in between.

The model has the searches of the transaction queues, `IssueMemoryCommands`, the handling of
refreshes, `CycleCommandQueues` with the handling of low power, and the clean-up of issued
commands. What the memory below answers is a `Child`, a new one in each call. Where an
assertion fails there is no result; builds with `ndebug` leave the assertions out.

The events that wake up the controller are left out: the functions above may be called in any
order. Statistics are left out, except for the members of a request that the rest of the
simulator reads.
-/

namespace HybridMemory.NVMain.MemControl

open Function

/-! ### Requests -/

/-- A bank of a rank. -/
structure BankId where
  rank : ℕ
  bank : ℕ
  deriving DecidableEq

/-- A request with its translated address, or a command that the controller made for one. -/
structure Request extends BankId where
  /-- The identity of a request of the processor; the commands of the controller have none. -/
  id : Option ℕ := none
  type : CommandPath.OpType
  row : ℕ := 0
  col : ℕ := 0
  subarray : ℕ := 0
  /-- The flag `FLAG_LAST_REQUEST`. -/
  lastRequest : Bool := false
  /-- The flag `FLAG_ISSUED`. -/
  issued : Bool := false
  /-- The flag `FLAG_PRIORITY`. -/
  priority : Bool := false
  arrivalCycle : ℕ := 0
  issueCycle : ℕ := 0
  rbHit : Bool := false
  dirtyMiss : Bool := false
  deriving DecidableEq

/-! ### Parameters -/

/-- How commands are distributed over the command queues. -/
inductive QueueModel
  | perRank
  | perBank
  | perSubArray
  deriving DecidableEq

/-- What `GetCommandQueueId` reads of the configuration, with any schedule scheme. -/
structure QueueLayout where
  ranks : ℕ := 2
  banks : ℕ := 8
  subArrayNum : ℕ := 1
  queueModel : QueueModel := .perBank
  scheduleScheme : ℤ := 1
  ranks_pos : 0 < ranks := by decide
  banks_pos : 0 < banks := by decide
  subArrayNum_pos : 0 < subArrayNum := by decide

namespace QueueLayout

/-- The number of command queues. -/
def commandQueueCount (l : QueueLayout) : ℕ :=
  match l.queueModel with
  | .perRank => l.ranks
  | .perBank => l.ranks * l.banks
  | .perSubArray => l.ranks * l.banks * l.subArrayNum

/-- The number that `GetCommandQueueId` finds for a bank and a subarray. It starts as the largest
value of its type, and no other scheme than 1 and 2 sets it for queues per bank. -/
def queueId (l : QueueLayout) (a : BankId × ℕ) : ℕ :=
  match l.queueModel with
  | .perRank => a.1.rank
  | .perBank =>
    if l.scheduleScheme = 1 then a.1.bank * l.ranks + a.1.rank
    else if l.scheduleScheme = 2 then a.1.rank * l.banks + a.1.bank
    else 2 ^ 64 - 1
  | .perSubArray =>
    a.1.rank * l.banks * l.subArrayNum + a.1.bank * l.subArrayNum + a.2

end QueueLayout

/-- The parameters that the controller reads, with the values of the constructor of `Params`
where it has them. -/
structure Params extends QueueLayout where
  rows : ℕ := 65536
  /-- The number of columns that the sense amplifiers hold. -/
  rbSize : ℕ := 32
  transactionQueueCount : ℕ := 1
  usePrecharge : Bool := true
  closePage : ℕ := 1
  starvationThreshold : ℕ := 4
  useRefresh : Bool := true
  banksPerRefresh : ℕ := 8
  delayedRefreshThreshold : ℕ := 1
  useLowPower : Bool := true
  initPD : Bool := false
  /-- The power down mode is `SLOWEXIT`. -/
  slowExit : Bool := false
  writePausing : Bool := false
  /-- The pause mode is `PauseMode_Normal`. -/
  pauseNormal : Bool := true
  deadlockTimer : ℕ := 10000000
  eventDriven : Bool := false
  /-- Whether the build leaves out the assertions. -/
  ndebug : Bool := true
  /-- The assertion of `SetConfig` on the banks of a refresh. -/
  banksPerRefresh_pos : 0 < banksPerRefresh := by decide
  banksPerRefresh_le : banksPerRefresh ≤ banks := by decide
  /-- The assertion of `GetCommandQueueId`: queues per bank with the fixed scheme, number 0, which
  `SetConfig` accepts, fail it. -/
  scheme_valid : queueModel = .perBank → scheduleScheme = 1 ∨ scheduleScheme = 2 := by decide

namespace Params

/-- The settings with their defaults. -/
def defaults : Params := {}

variable (p : Params) (k : BankId) (r : Request)

/-- `GetCommandQueueId`, whose assertion holds for these parameters. -/
def getCommandQueueId (subarray : ℕ) : ℕ := p.queueId (k, subarray)

/-- The queue of a request. -/
def queueOf : ℕ := p.getCommandQueueId r.toBankId r.subarray

/-- The number of groups of banks that are refreshed together. -/
def refreshBankNum : ℕ := p.banks / p.banksPerRefresh

/-- The columns of a request that have to be at the sense amplifiers. -/
def muxLevel : ℕ := r.col / p.rbSize

/-- The bank exists. -/
def HasBank : Prop := k.rank < p.ranks ∧ k.bank < p.banks

instance : Decidable (p.HasBank k) :=
  inferInstanceAs (Decidable (_ ∧ _))

/-- The address of a request exists. -/
def HasAddress : Prop :=
  p.HasBank r.toBankId ∧ r.subarray < p.subArrayNum

instance : Decidable (p.HasAddress r) :=
  inferInstanceAs (Decidable (_ ∧ _))

end Params

/-- What the memory answers during a call. -/
structure Child where
  isIssuable : Request → Bool
  /-- Whether the subarray of a request is writing, if there is such a subarray. -/
  isWriting : Request → Option Bool := fun _ => some false
  betweenWriteIterations : Request → Bool := fun _ => false
  /-- Whether a rank is idle. -/
  idle : ℕ → Bool := fun _ => true

/-! ### State -/

/-- What the controller keeps for a bank. -/
structure BankState where
  activateQueued : Bool := false
  refreshQueued : Bool := false
  bankNeedRefresh : Bool := false
  activeSubArray : ℕ → Bool := fun _ => false
  effectiveRow : ℕ → ℕ
  effectiveMuxedRow : ℕ → ℕ
  effectiveRowDirty : ℕ → Bool := fun _ => false
  starvationCounter : ℕ → ℕ := fun _ => 0

/-- The data members of the controller, and the current cycle. -/
structure MemoryController where
  now : ℕ := 0
  lastIssueCycle : ℕ := 0
  handledRefresh : Option ℕ := none
  /-- The cycle for which a `CleanupCallback` is in the event queue. -/
  cleanupCycle : Option ℕ := none
  transactionQueues : ℕ → List Request := fun _ => []
  commandQueues : ℕ → List Request := fun _ => []
  curQueue : ℕ := 0
  banks : BankId → BankState
  /-- The refreshes that are due, for a rank and a group of banks. -/
  delayedRefreshCounter : ℕ → ℕ → ℕ := fun _ _ => 0
  nextRefreshRank : ℕ := 0
  nextRefreshBank : ℕ := 0
  rankPowerDown : ℕ → Bool := fun _ => false

namespace BankState

/-- The bank as `SetConfig` leaves it: no row is the number of rows. -/
def init (p : Params) : BankState where
  effectiveRow := fun _ => p.rows
  effectiveMuxedRow := fun _ => p.rows

/-- A row is predicted to be open. -/
def openRow (row mux subarray : ℕ) (b : BankState) : BankState :=
  { b with
    activateQueued := true
    activeSubArray := update b.activeSubArray subarray true
    effectiveRow := update b.effectiveRow subarray row
    effectiveMuxedRow := update b.effectiveMuxedRow subarray mux
    starvationCounter := update b.starvationCounter subarray 0 }

/-- A subarray is predicted to be closed. -/
def closeRow (p : Params) (subarray : ℕ) (b : BankState) : BankState :=
  { b with
    activeSubArray := update b.activeSubArray subarray false
    effectiveRow := update b.effectiveRow subarray p.rows
    effectiveMuxedRow := update b.effectiveMuxedRow subarray p.rows }

/-- All subarrays are predicted to be closed. -/
def closeAll (p : Params) (b : BankState) : BankState :=
  { b with
    activateQueued := false
    activeSubArray := fun _ => false
    effectiveRow := fun _ => p.rows
    effectiveMuxedRow := fun _ => p.rows
    effectiveRowDirty := fun _ => false }

/-- The row of a request is predicted to be at the sense amplifiers of its subarray. -/
def atRow (p : Params) (r : Request) (b : BankState) : Bool :=
  b.activeSubArray r.subarray && b.effectiveRow r.subarray == r.row &&
    b.effectiveMuxedRow r.subarray == p.muxLevel r

/-- No subarray is predicted to be open. -/
def idle (p : Params) (b : BankState) : Bool :=
  (List.range p.subArrayNum).all fun i => !b.activeSubArray i

end BankState

namespace MemoryController

variable (p : Params) (child : Child) (pred : Request → Bool) (priority : Bool) (k : BankId)
  (r : Request) (s : MemoryController)

/-- The controller after configuration. -/
def init : MemoryController where
  banks := fun _ => .init p
  rankPowerDown := fun _ => p.useLowPower && p.initPD

/-- Append commands to a queue. -/
def push (q : ℕ) (commands : List Request) (s : MemoryController) : MemoryController :=
  { s with commandQueues := update s.commandQueues q (s.commandQueues q ++ commands) }

/-- Change what is kept for a bank. -/
def setBank (b : BankState) (s : MemoryController) : MemoryController :=
  { s with banks := update s.banks k b }

/-! ### Searches of a transaction queue -/

/-- What a search does with an entry of the queue: it passes over it, takes it, or ends, with
the result that there is something to wait for (`stall`) or that there is nothing (`quit`). -/
inductive Verdict
  | skip
  | take
  | stall
  | quit
  deriving DecidableEq

/-- The outcome of a search: it returns false, it returns true without a request, or it takes
a request out of the queue, which leaves the rest. -/
inductive Found
  | nothing
  | stalled
  | taken (r : Request) (rest : List Request)
  deriving DecidableEq

/-- Search a transaction queue from its front. -/
def find (verdict : Request → Option Verdict) : List Request → Option Found
  | [] => some .nothing
  | r :: queue =>
    (verdict r).bind fun
      | .take => some (.taken r queue)
      | .stall => some .stalled
      | .quit => some .nothing
      | .skip => (find verdict queue).map fun
        | .taken r' rest => .taken r' (r :: rest)
        | found => found

/-- `IsLastRequest`: no entry of the queue is for the row of the request. -/
def isLastRequest (queue : List Request) (r : Request) : Bool :=
  match p.closePage with
  | 0 => false
  | 1 => queue.all fun t =>
    !(t.toBankId == r.toBankId && t.row == r.row && t.subarray == r.subarray)
  | _ => true

/-- The request that was found is marked if it is the last one for its row. -/
def markLast : Found → Found
  | .taken r rest => .taken { r with lastRequest := r.lastRequest || isLastRequest p rest r } rest
  | found => found

/-- `MakeCachedRequest`. The assertion allows what a transaction queue is meant to hold. -/
def makeCachedRequest : Option Request :=
  if p.ndebug ∨ r.type = .read ∨ r.type = .write ∨ r.type = .migration then
    some { r with
      id := none
      type := if r.type = .read then .cachedRead else .cachedWrite
      lastRequest := false, issued := false, priority := false }
  else none

/-- The entries that the searches consider at all: their command queue is empty, they did not
arrive in this cycle, and the predicate of the caller holds. -/
def candidate (r : Request) : Bool :=
  (s.commandQueues (p.queueOf r)).isEmpty && r.arrivalCycle != s.now && pred r

/-- The bank does not wait for a refresh. -/
def noRefresh (r : Request) : Bool :=
  !(s.banks r.toBankId).bankNeedRefresh && !(s.banks r.toBankId).refreshQueued

/-- A search that takes the first candidate which passes a test. -/
def findCandidate (pred test : Request → Bool) (s : MemoryController) :
    List Request → Option Found :=
  find fun r => some (if s.candidate p pred r && test r then .take else .skip)

/-- `FindStarvedRequest`. -/
def findStarvedRequest (queue : List Request) : Option Found :=
  (s.findCandidate p pred (fun r =>
    let b := s.banks r.toBankId
    b.activateQueued && !b.atRow p r && s.noRefresh r &&
      decide (p.starvationThreshold ≤ b.starvationCounter r.subarray)) queue).map (markLast p)

/-- `FindRowBufferHit`. -/
def findRowBufferHit (queue : List Request) : Option Found :=
  (s.findCandidate p pred (fun r =>
    let b := s.banks r.toBankId
    b.activateQueued && b.atRow p r && s.noRefresh r) queue).map (markLast p)

/-- `FindOldestReadyRequest`. -/
def findOldestReadyRequest (queue : List Request) : Option Found :=
  (s.findCandidate p pred (fun r =>
    (s.banks r.toBankId).activateQueued && s.noRefresh r) queue).map (markLast p)

/-- `FindClosedBankRequest`. -/
def findClosedBankRequest (queue : List Request) : Option Found :=
  (s.findCandidate p pred (fun r =>
    !(s.banks r.toBankId).activateQueued && s.noRefresh r) queue).map (markLast p)

/-- `FindCachedAddress`. Unlike the others, it neither looks at refreshes nor marks the last
request for a row, and it makes a cached request for every entry that it looks at. -/
def findCachedAddress (queue : List Request) : Option Found :=
  find (fun r => (makeCachedRequest p r).map fun cached =>
    if s.candidate p pred r && child.isIssuable cached then .take else .skip) queue

/-- `MakeActivateRequest`, with the flag that `IssueMemoryCommands` sets if the subarray is
writing. -/
def makeActivateRequest : Request :=
  { toBankId := r.toBankId, type := .activate, row := r.row, col := r.col, subarray := r.subarray
    priority := priority, issueCycle := s.now }

/-- `FindWriteStalledRead`. A read whose subarray is between two iterations of a write is
taken; one whose subarray is in the middle of an iteration stalls the scheduler. -/
def findWriteStalledRead (queue : List Request) : Option Found :=
  if p.writePausing then
    (find (fun r => some <|
      if r.type ≠ .read ∨ s.commandQueues (p.queueOf r) ≠ [] then .skip
      else match child.isWriting r with
        | none => .quit
        | some writing =>
          if s.noRefresh r && writing && (child.isIssuable r ||
              child.isIssuable (s.makeActivateRequest true r)) && s.candidate p pred r then
            if !child.betweenWriteIterations r && p.pauseNormal then .stall else .take
          else .skip) queue).map (markLast p)
  else some .nothing

/-! ### `IssueMemoryCommands` -/

/-- `MakePrechargeRequest`. -/
def makePrechargeRequest (row subarray : ℕ) (s : MemoryController) : Request :=
  { toBankId := k, type := .precharge, row := row, subarray := subarray, issueCycle := s.now }

/-- `MakeImplicitPrechargeRequest`: other requests than reads and writes keep their type. -/
def makeImplicitPrechargeRequest : Request :=
  { r with type := match r.type with
      | .read => .readPrecharge
      | .write => .writePrecharge
      | type => type }

/-- The request as it is queued: it keeps how it found the row buffer, and the cycle. -/
def stamp (r : Request) : Request :=
  let b := s.banks r.toBankId
  if b.effectiveRow r.subarray = r.row then { r with rbHit := true, issueCycle := s.now }
  else { r with dirtyMiss := b.effectiveRowDirty r.subarray, issueCycle := s.now }

/-- The row buffer becomes dirty by a write, and clean by a read of another row. -/
def markRowDirty : MemoryController :=
  let b := s.banks r.toBankId
  if r.type = .write ∨ r.type = .writePrecharge then
    s.setBank r.toBankId
      { b with effectiveRowDirty := update b.effectiveRowDirty r.subarray true }
  else if b.effectiveRow r.subarray ≠ r.row ∧ (r.type = .read ∨ r.type = .readPrecharge) then
    s.setBank r.toBankId
      { b with effectiveRowDirty := update b.effectiveRowDirty r.subarray false }
  else s

/-- The bank is closed: the row is activated. After the last request for the row, the bank is
closed again. -/
def issueToClosedBank : MemoryController :=
  let act := s.makeActivateRequest priority r
  let b := (s.banks r.toBankId).openRow r.row (p.muxLevel r) r.subarray
  if r.lastRequest ∧ p.usePrecharge then
    (s.push (p.queueOf r) [act, makeImplicitPrechargeRequest r]).setBank r.toBankId
      { b.closeRow p r.subarray with activateQueued := false }
  else (s.push (p.queueOf r) [act, r]).setBank r.toBankId b

/-- The bank is open, but not at the row: the open row is closed, and the row is activated. It
stays open even after the last request for it. -/
def issueToOtherRow : MemoryController :=
  let b := s.banks r.toBankId
  let pre := s.makePrechargeRequest r.toBankId (b.effectiveRow r.subarray) r.subarray
  let act := s.makeActivateRequest priority r
  (s.push (p.queueOf r)
    ((if b.activeSubArray r.subarray ∧ p.usePrecharge then [pre] else []) ++ [act, r])).setBank
    r.toBankId (b.openRow r.row (p.muxLevel r) r.subarray)

/-- The row is open. After the last request for it, the subarray is closed. -/
def issueToOpenRow : MemoryController :=
  let b := s.banks r.toBankId
  let b :=
    { b with
      starvationCounter :=
        update b.starvationCounter r.subarray (b.starvationCounter r.subarray + 1) }
  if r.lastRequest ∧ p.usePrecharge then
    let b := b.closeRow p r.subarray
    (s.push (p.queueOf r) [makeImplicitPrechargeRequest r]).setBank r.toBankId
      { b with activateQueued := b.activateQueued && !b.idle p }
  else (s.push (p.queueOf r) [r]).setBank r.toBankId b

/-- `IssueMemoryCommands`, with the value that it returns. -/
def issueMemoryCommands : Option (MemoryController × Bool) :=
  (makeCachedRequest p r).bind fun cached =>
    let b := s.banks r.toBankId
    let req := s.stamp r
    let priority := (child.isWriting r).getD false
    let empty := (s.commandQueues (p.queueOf r)).isEmpty
    let s := s.markRowDirty r
    -- a request that is accessible otherwise is queued without a change of the prediction
    if child.isIssuable cached ∧ ¬ (b.activateQueued ∧ b.atRow p r) then
      some (s.push (p.queueOf r) [req], true)
    else if b.activateQueued = false ∧ empty then
      some (s.issueToClosedBank p priority req, true)
    else if b.activateQueued ∧ b.atRow p r = false ∧ empty then
      some (s.issueToOtherRow p priority req, true)
    else if b.activateQueued ∧ b.atRow p r then
      -- the assertion that a restricted close-page policy leaves no row open
      if p.ndebug ∨ ¬ (r.lastRequest ∧ p.usePrecharge ∧ p.closePage = 2) then
        some (s.issueToOpenRow p req, true)
      else none
    else some (s, false)

/-! ### Refreshes -/

/-- `NeedRefresh`. -/
def needRefresh : Bool :=
  p.useRefresh && decide
    (p.delayedRefreshThreshold ≤ s.delayedRefreshCounter k.rank (k.bank / p.banksPerRefresh))

/-- Change what is kept for the banks of a list. -/
def mapBanks (f : BankState → BankState) (l : List BankId) (s : MemoryController) :
    MemoryController :=
  { s with banks := fun k => if k ∈ l then f (s.banks k) else s.banks k }

/-- The banks of the group of a bank, from the head of the group on. -/
def group : List BankId :=
  (List.range p.banksPerRefresh).map fun i =>
    ⟨k.rank, k.bank / p.banksPerRefresh * p.banksPerRefresh + i⟩

/-- `SetRefresh`. -/
def setRefresh : MemoryController → MemoryController :=
  mapBanks (fun b => { b with bankNeedRefresh := true }) (group p k)

/-- `ResetRefresh`. -/
def resetRefresh : MemoryController → MemoryController :=
  mapBanks (fun b => { b with bankNeedRefresh := false }) (group p k)

/-- `ResetRefreshQueued`, with the assertion that the flags are set. -/
def resetRefreshQueued : Option MemoryController :=
  if p.ndebug ∨ (group p k).all fun k => (s.banks k).refreshQueued then
    some (s.mapBanks (fun b => { b with refreshQueued := false }) (group p k))
  else none

/-- Add to the refreshes that are due for the group of a bank. -/
def setRefreshCounter (count : ℕ) (s : MemoryController) : MemoryController :=
  { s with
    delayedRefreshCounter := update s.delayedRefreshCounter k.rank
      (update (s.delayedRefreshCounter k.rank) (k.bank / p.banksPerRefresh) count) }

/-- The refreshes that are due for the group of a bank. -/
def refreshCounter : ℕ :=
  s.delayedRefreshCounter k.rank (k.bank / p.banksPerRefresh)

/-- `ProcessRefreshPulse`, for a pulse with the address of a bank. -/
def processRefreshPulse : MemoryController :=
  let s := s.setRefreshCounter p k (s.refreshCounter p k + 1)
  if s.needRefresh p k then s.setRefresh p k else s

/-- The banks that `HandleRefresh` refreshes together, from a bank on. -/
def refreshedBanks : List BankId :=
  (List.range p.banksPerRefresh).map fun i => ⟨k.rank, (i + k.bank) % p.banks⟩

/-- `MakePrechargeAllRequest`. -/
def makePrechargeAllRequest : Request :=
  { toBankId := k, type := .prechargeAll, issueCycle := s.now }

/-- `MakeRefreshRequest`. -/
def makeRefreshRequest : Request :=
  { toBankId := k, type := .refresh, issueCycle := s.now }

/-- An active bank is closed before a refresh. -/
def prechargeBank (k : BankId) : MemoryController :=
  if (s.banks k).activateQueued then
    (s.push (p.getCommandQueueId k 0) [s.makePrechargeAllRequest k]).setBank k
      ((s.banks k).closeAll p)
  else s

/-- The round robin over groups and ranks. -/
def nextRefresh : MemoryController :=
  if s.nextRefreshBank + p.banksPerRefresh < p.banks then
    { s with nextRefreshBank := s.nextRefreshBank + p.banksPerRefresh }
  else
    { s with
      nextRefreshBank := 0
      nextRefreshRank :=
        if s.nextRefreshRank + 1 = p.ranks then 0 else s.nextRefreshRank + 1 }

/-- The body of `HandleRefresh` for a bank whose group needs a refresh. -/
def queueRefresh : MemoryController :=
  let s := if p.usePrecharge then (refreshedBanks p k).foldl (prechargeBank p) s else s
  let s := s.push (p.getCommandQueueId k 0) [s.makeRefreshRequest k]
  let s := s.mapBanks (fun b => { b with refreshQueued := true }) (refreshedBanks p k)
  let s := s.setRefreshCounter p k (s.refreshCounter p k - 1)
  let s := if s.needRefresh p k then s else s.resetRefresh p k
  { s.nextRefresh p with handledRefresh := some s.now }

/-- The banks at which `HandleRefresh` looks for a group that needs a refresh, in order. -/
def refreshOrder : List BankId :=
  (List.range p.ranks).flatMap fun rankIdx =>
    (List.range p.refreshBankNum).map fun bankIdx =>
      ⟨(s.nextRefreshRank + rankIdx) % p.ranks,
        (s.nextRefreshBank + bankIdx * p.banksPerRefresh) % p.banks⟩

/-- `HandleRefresh`, with the value that it returns. -/
def handleRefresh : MemoryController × Bool :=
  match (s.refreshOrder p).find? fun k => s.needRefresh p k with
  | some k => (s.queueRefresh p k, true)
  | none => (s, false)

/-! ### Issuing commands -/

/-- `RankQueueEmpty`. -/
def rankQueueEmpty (rank : ℕ) (s : MemoryController) : Bool :=
  (List.range p.banks).all fun i => (s.commandQueues (p.getCommandQueueId ⟨rank, i⟩ 0)).isEmpty

/-- The request that powers a rank down; a rank with open rows keeps them. -/
def powerdownRequest (rank : ℕ) (s : MemoryController) : Request :=
  { toBankId := ⟨rank, 0⟩, issueCycle := s.now
    type :=
      if child.idle rank then if p.slowExit then .powerdownPDPS else .powerdownPDPF
      else .powerdownPDA }

/-- `HandleLowPower`: a rank with a refresh to come is powered up, others by their queues. -/
def handleLowPower : MemoryController :=
  { s with
    rankPowerDown := fun rank =>
      let up := child.isIssuable { toBankId := ⟨rank, 0⟩, type := .powerup, issueCycle := s.now }
      let refresh := (List.range p.refreshBankNum).any fun g =>
        s.needRefresh p ⟨rank, g * p.banksPerRefresh⟩
      if refresh then s.rankPowerDown rank && !up
      else if s.rankPowerDown rank then !(!s.rankQueueEmpty p rank && up)
      else s.rankQueueEmpty p rank && child.isIssuable (s.powerdownRequest p child rank) }

/-- `MoveCurrentQueue`. -/
def moveCurrentQueue : MemoryController :=
  if p.scheduleScheme = 0 then s
  else { s with curQueue := if p.commandQueueCount < s.curQueue + 1 then 0 else s.curQueue + 1 }

/-- The head of a queue is issued. It stays in the queue until the clean-up of the next
cycle. -/
def issueHead (q : ℕ) (head : Request) (rest : List Request) (s : MemoryController) :
    Option MemoryController :=
  let s := { s with
    commandQueues := update s.commandQueues q ({ head with issued := true } :: rest) }
  (if head.type = .refresh then s.resetRefreshQueued p head.toBankId else some s).map fun s =>
    { s.moveCurrentQueue p with
      lastIssueCycle := s.now
      cleanupCycle := some (s.now + 1) }

/-- The loop of `CycleCommandQueues`: the head of the first queue that can be issued is
issued. The program ends if a head has waited for too long. -/
def issueFirst : List ℕ → Option (MemoryController × Option Request)
  | [] => some (s, none)
  | q :: queues =>
    match s.commandQueues q with
    | [] => issueFirst queues
    | head :: rest =>
      if s.lastIssueCycle ≠ s.now ∧ child.isIssuable head then
        (s.issueHead p q head rest).map fun t => (t, some head)
      else if p.deadlockTimer < (s.now + 2 ^ 64 - head.issueCycle) % 2 ^ 64 then none
      else issueFirst queues

/-- The queues in the order of `CycleCommandQueues`. -/
def queueOrder : List ℕ :=
  (List.range p.commandQueueCount).map fun i => (s.curQueue + i) % p.commandQueueCount

/-- `CycleCommandQueues`, with the command that is issued. -/
def cycleCommandQueues : Option (MemoryController × Option Request) :=
  let s := if p.useLowPower ∧ ¬ p.eventDriven then s.handleLowPower p child else s
  if p.useRefresh ∧ ¬ p.eventDriven ∧ (s.handleRefresh p).2 then some ((s.handleRefresh p).1, none)
  else if p.eventDriven ∧ s.handledRefresh = some s.now then some (s, none)
  else s.issueFirst p child (s.queueOrder p)

/-- `CleanupCallback`. -/
def cleanupCallback : MemoryController :=
  { s with commandQueues := fun q => (s.commandQueues q).filter fun c => !c.issued }

/-- The next cycle begins. A clean-up that is due comes before everything else. -/
def tick : MemoryController :=
  let t := { s with now := s.now + 1 }
  if s.cleanupCycle = some t.now then { t.cleanupCallback with cleanupCycle := none } else t

end MemoryController

/-! ### Runs -/

/-- A request as the processor sends it: no command of the controller. -/
def Request.FromProcessor (r : Request) : Prop :=
  r.id.isSome ∧ (r.type = .read ∨ r.type = .readPrecharge ∨ r.type = .write ∨
    r.type = .writePrecharge ∨ r.type = .migration)

instance (r : Request) : Decidable r.FromProcessor := inferInstanceAs (Decidable (_ ∧ _))

/-- What can happen to the controller, apart from its transaction queues. -/
inductive Action
  /-- A request is handed to `IssueMemoryCommands`. -/
  | issueMemoryCommands (child : Child) (r : Request)
  | handleRefresh
  /-- The refresh pulse of a group of banks. -/
  | refreshPulse (rank group : ℕ)
  | cycleCommandQueues (child : Child)
  | tick

/-- The bank whose address the refresh pulse of a group has. -/
def Params.groupHead (p : Params) (rank group : ℕ) : BankId := ⟨rank, group * p.banksPerRefresh⟩

namespace MemoryController

/-- One step, with the command that it issues to the memory; none if the action is not
possible, or the program does not return from it. -/
def step (p : Params) (s : MemoryController) : Action → Option (MemoryController × Option Request)
  | .issueMemoryCommands child r =>
    if r.FromProcessor ∧ p.HasAddress r then
      (s.issueMemoryCommands p child r).map fun out => (out.1, none)
    else none
  | .handleRefresh => some ((s.handleRefresh p).1, none)
  | .refreshPulse rank group =>
    if p.useRefresh ∧ rank < p.ranks ∧ group < p.refreshBankNum then
      some (s.processRefreshPulse p (p.groupHead rank group), none)
    else none
  | .cycleCommandQueues child => s.cycleCommandQueues p child
  | .tick => some (s.tick, none)

end MemoryController

end HybridMemory.NVMain.MemControl

import HybridMemory.NVMain.TransactionQueues

/-!
# Write draining

The scheduler `FRFCFS_WQF` has a queue for reads and one for writes. It works on the reads until
the write queue reaches the high water mark; then it drains the write queue down to the low water
mark, and takes no writes meanwhile. The ends of the drain phases are recorded, together with
statistics about the phases, in unsigned numbers of 64 bits.

* `DrainHistory.statistics_right`: in every run, whatever the water marks are, no subtraction of
  the statistics wraps around, and the read and drain cycles add up to the cycles between the
  first and the last recorded end of a drain;
* `waterMarks_right_iff`: the water marks are in order after `SetConfig` if and only if a high
  water mark that is cut down to the size of the queue does not fall below the low one;
* `low_above_high`: the low water mark is not compared with the high one that was cut down.

The mean latencies, which nothing else reads, are left out, and so is `FLAG_FORCED`, which the
memory reads and the controller does not. The event queue counts cycles in 64 bits, and a run ends
before its counter does.
-/

namespace HybridMemory.NVMain.MemControl

open Transition

/-! ### Configuration -/

/-- The sizes of the queues, and the water marks. -/
structure WaterMarks where
  readQueueSize : ℕ := 32
  writeQueueSize : ℕ := 8
  highWaterMark : ℕ := 8
  lowWaterMark : ℕ := 0
  deriving DecidableEq

/-- The values of the keys that `FRFCFS_WQF::SetConfig` reads, where they exist. -/
structure DrainConfig where
  readQueueSize : Option ℤ := none
  writeQueueSize : Option ℤ := none
  highWaterMark : Option ℤ := none
  lowWaterMark : Option ℤ := none

/-- The value of a key, cast to `unsigned int`, or else what the constructor has set. -/
def setting (initial : ℕ) : Option ℤ → ℕ
  | some value => (value % 2 ^ 32).toNat
  | none => initial

namespace WaterMarks

/-- The values that `SetConfig` reads. -/
def read (conf : DrainConfig) : WaterMarks where
  readQueueSize := setting 32 conf.readQueueSize
  writeQueueSize := setting 8 conf.writeQueueSize
  highWaterMark := setting 8 conf.highWaterMark
  lowWaterMark := setting 0 conf.lowWaterMark

/-- The sanity check of `SetConfig`. -/
def check (w : WaterMarks) : WaterMarks :=
  if w.writeQueueSize < w.highWaterMark then { w with highWaterMark := w.writeQueueSize }
  else if w.highWaterMark < w.lowWaterMark then { w with lowWaterMark := 0 }
  else w

/-- `FRFCFS_WQF::SetConfig`. -/
def setConfig (conf : DrainConfig) : WaterMarks := (read conf).check

end WaterMarks

/-! ### State -/

/-- The smallest and the largest value of a statistic. -/
structure Extent where
  minimum : ℕ := 10 ^ 10
  maximum : ℕ := 0
  deriving DecidableEq

/-- A value that is a new minimum is not compared with the maximum. -/
def Extent.record (x : ℕ) (e : Extent) : Extent :=
  if x < e.minimum then { e with minimum := x }
  else if e.maximum < x then { e with maximum := x }
  else e

/-- For the drain cycles, the maximum is compared first. -/
def Extent.recordMaximum (x : ℕ) (e : Extent) : Extent :=
  if e.maximum < x then { e with maximum := x }
  else if x < e.minimum then { e with minimum := x }
  else e

/-- The statistics of the drain phases. -/
structure DrainStats where
  totalDrains : ℕ := 0
  totalDrainWrites : ℕ := 0
  drainWrites : Extent := {}
  totalDrainCycles : ℕ := 0
  drainCycles : Extent := {}
  totalNonDrainCycles : ℕ := 0
  drainSpacing : Extent := {}
  totalReadCycles : ℕ := 0
  readSpacing : Extent := {}
  totalReadqueueSize : ℕ := 0
  predrainReadqueueSize : Extent := {}
  totalReadsDuringDrain : ℕ := 0
  readsDuringDrain : Extent := {}
  deriving DecidableEq

/-- The data members of `FRFCFS_WQF`. -/
structure FRFCFSWQF where
  controller : MemoryController
  draining : Bool := false
  requestPerDrain : ℕ := 0
  drainStartCycle : ℕ := 0
  drainEndCycle : ℕ := 0
  drainStartReadqueueSize : ℕ := 0
  drainEndReadqueueSize : ℕ := 0
  lastDrainEndCycle : ℕ := 0
  stats : DrainStats := {}
  memReads : ℕ := 0
  memWrites : ℕ := 0
  rqRbHits : ℕ := 0
  rqRbMiss : ℕ := 0
  wqRbHits : ℕ := 0
  wqRbMiss : ℕ := 0
  starvationPrecharges : ℕ := 0

/-- Sums and differences of 64 bits. -/
def add64 (a b : ℕ) : ℕ := (a + b) % 2 ^ 64

/-- Differences of 64 bits. -/
def sub64 (a b : ℕ) : ℕ := (a + 2 ^ 64 - b) % 2 ^ 64

namespace FRFCFSWQF

/-- The identifier of the read queue. -/
def readQueueId : ℕ := 0

/-- The identifier of the write queue. -/
def writeQueueId : ℕ := 1

variable (w : WaterMarks) (p : Params) (child : Child) (r : Request) (s : FRFCFSWQF)

/-- The requests in the read queue. -/
def readQueue : List Request := s.controller.transactionQueues readQueueId

/-- The requests in the write queue. -/
def writeQueue : List Request := s.controller.transactionQueues writeQueueId

/-- The current cycle. -/
def now : ℕ := s.controller.now

/-- The scheduler after configuration. -/
def init : FRFCFSWQF where
  controller := .init p

/-- Replace a transaction queue. -/
def setQueue (i : ℕ) (queue : List Request) (s : FRFCFSWQF) : FRFCFSWQF :=
  { s with controller := RequestSystem.setQueue i queue s.controller }

/-! ### Requests -/

/-- `FRFCFS_WQF::IsIssuable`. -/
def isIssuable : Bool :=
  !((r.type == .read && decide (w.readQueueSize ≤ s.readQueue.length)) ||
    (r.type == .write && (decide (w.writeQueueSize ≤ s.writeQueue.length) || s.draining)))

/-- `FRFCFS_WQF::IssueCommand`: other requests than reads and writes are refused. -/
def issueCommand : FRFCFSWQF × Bool :=
  if s.isIssuable w r then
    let r := { r with arrivalCycle := s.now }
    if r.type = .read then
      ({ s.setQueue readQueueId (s.readQueue ++ [r]) with
        memReads := add64 s.memReads 1 }, true)
    else if r.type = .write then
      ({ s.setQueue writeQueueId (s.writeQueue ++ [r]) with
        memWrites := add64 s.memWrites 1 }, true)
    else (s, false)
  else (s, false)

/-- `FRFCFS_WQF::RequestComplete` for a write that was cancelled or paused. -/
def requestComplete : FRFCFSWQF :=
  s.setQueue writeQueueId (r :: s.writeQueue)

/-! ### `Cycle` -/

/-- `Cycle` switches to the write drain. -/
def StartsDrain : Prop :=
  s.draining = false ∧ w.highWaterMark ≤ s.writeQueue.length

/-- `Cycle` switches to the reads. -/
def EndsDrain : Prop :=
  s.draining = true ∧ s.writeQueue.length ≤ w.lowWaterMark

instance : Decidable (s.StartsDrain w) :=
  inferInstanceAs (Decidable (_ ∧ _))

instance : Decidable (s.EndsDrain w) :=
  inferInstanceAs (Decidable (_ ∧ _))

/-- The start of a drain is recorded. -/
def startDrain : FRFCFSWQF :=
  { s with
    drainStartCycle := s.now
    drainStartReadqueueSize := s.readQueue.length
    draining := true }

/-- The statistics of a drain that ends at this cycle. -/
def recordDrain : DrainStats :=
  let enterReadQueue := sub64 s.readQueue.length s.drainStartReadqueueSize
  let duration := sub64 s.now s.drainStartCycle
  let interval := sub64 s.now s.lastDrainEndCycle
  let readDuration := sub64 interval duration
  { totalReadqueueSize := add64 s.stats.totalReadqueueSize s.drainStartReadqueueSize
    totalReadsDuringDrain := add64 s.stats.totalReadsDuringDrain enterReadQueue
    predrainReadqueueSize := s.stats.predrainReadqueueSize.record s.drainStartReadqueueSize
    readsDuringDrain := s.stats.readsDuringDrain.record enterReadQueue
    totalDrainCycles := add64 s.stats.totalDrainCycles duration
    drainCycles := s.stats.drainCycles.recordMaximum duration
    totalDrains := add64 s.stats.totalDrains 1
    totalDrainWrites := add64 s.stats.totalDrainWrites s.requestPerDrain
    drainWrites := s.stats.drainWrites.record s.requestPerDrain
    totalNonDrainCycles := add64 s.stats.totalNonDrainCycles interval
    drainSpacing := s.stats.drainSpacing.record interval
    totalReadCycles := add64 s.stats.totalReadCycles readDuration
    readSpacing := s.stats.readSpacing.record readDuration }

/-- The end of a drain is recorded, and its statistics unless no end was recorded before. -/
def endDrain : FRFCFSWQF :=
  let s :=
    if s.lastDrainEndCycle ≠ 0 then
      { s with stats := s.recordDrain, drainEndReadqueueSize := s.readQueue.length }
    else s
  { s with
    drainEndCycle := s.now
    requestPerDrain := 0
    lastDrainEndCycle := s.now
    draining := false }

/-- The first part of `Cycle`: the switch between reads and writes. -/
def switch : FRFCFSWQF :=
  if s.StartsDrain w then s.startDrain else if s.EndsDrain w then s.endDrain else s

/-- The searches of `Cycle`, in order. -/
def searches : List Search :=
  [.starvedRequest, .rowBufferHit, .cachedAddress, .oldestReadyRequest, .closedBankRequest]

/-- The first search that takes a request, with the request and the rest of the queue. -/
def findNext (c : MemoryController) (queue : List Request) :
    List Search → Option (Option (Search × Request × List Request))
  | [] => some none
  | kind :: kinds =>
    (c.search p child (fun _ => true) kind queue).bind fun
      | .taken r rest => some (some (kind, r, rest))
      | _ => findNext c queue kinds

/-- A row-buffer hit in the queue that is worked on. -/
def countHit : FRFCFSWQF :=
  if s.draining then
    { s with wqRbHits := add64 s.wqRbHits 1, requestPerDrain := add64 s.requestPerDrain 1 }
  else { s with rqRbHits := add64 s.rqRbHits 1 }

/-- A row-buffer miss in the queue that is worked on. -/
def countMiss : FRFCFSWQF :=
  if s.draining then
    { s with wqRbMiss := add64 s.wqRbMiss 1, requestPerDrain := add64 s.requestPerDrain 1 }
  else { s with rqRbMiss := add64 s.rqRbMiss 1 }

/-- The counters of a search that took a request. -/
def count : Search → FRFCFSWQF
  | .starvedRequest =>
    { s.countMiss with starvationPrecharges := add64 s.starvationPrecharges 1 }
  | .rowBufferHit => s.countHit
  | .oldestReadyRequest | .closedBankRequest => s.countMiss
  | .cachedAddress | .writeStalledRead => s

/-- The queue that `Cycle` works on. -/
def activeQueueId : ℕ := if s.draining then writeQueueId else readQueueId

/-- The second part of `Cycle`: a request is taken from the queue and handed over. -/
def schedule : Option FRFCFSWQF :=
  (findNext p child s.controller (s.controller.transactionQueues s.activeQueueId) searches).bind
    fun
    | some (kind, r, rest) =>
      let s := (s.setQueue s.activeQueueId rest).count kind
      (s.controller.issueMemoryCommands p child r).map fun out => { s with controller := out.1 }
    | none => some s

/-- `FRFCFS_WQF::Cycle`. The memory answers to the searches and to the command queues. -/
def cycle (child commandChild : Child) (s : FRFCFSWQF) : Option FRFCFSWQF :=
  ((s.switch w).schedule p child).bind fun s =>
    (s.controller.cycleCommandQueues p commandChild).map fun out =>
      { s with controller := out.1 }

/-! ### Runs -/

/-- What can happen to the scheduler. -/
inductive Action
  /-- A request arrives. -/
  | issueCommand (r : Request)
  | cycle (child commandChild : Child)
  /-- A write that was cancelled or paused comes back. -/
  | requestComplete (r : Request)
  /-- The controller goes on, with another action than a hand-over. -/
  | control (a : MemControl.Action)

/-- One step; none if the action is not possible, or the program does not return from it. -/
def step : Action → Option FRFCFSWQF
  | .issueCommand r => if p.HasAddress r then some (s.issueCommand w r).1 else none
  | .cycle child commandChild => s.cycle w p child commandChild
  | .requestComplete r =>
    if (r.type = .write ∨ r.type = .writePrecharge) ∧ p.HasAddress r then
      some (s.requestComplete r)
    else none
  | .control a =>
    match a with
    | .issueMemoryCommands .. => none
    | a => (s.controller.step p a).bind fun out =>
      if out.1.now < 2 ^ 64 then some { s with controller := out.1 } else none

/-! ### What a step changes -/

variable {w p child s} {commandChild : Child} {t : FRFCFSWQF} {a : Action}

theorem frame_of_cycleCommandQueues {c d : MemoryController} {issued : Option Request}
    (h : c.cycleCommandQueues p child = some (d, issued)) :
    d.transactionQueues = c.transactionQueues ∧ d.now = c.now := by
  obtain ⟨down, hcases⟩ := MemoryController.cycleCommandQueues_cases h
  rcases hcases with ⟨-, rfl, -⟩ | ⟨-, ⟨rfl, -⟩ | ⟨q, -, head, rest, -, -, hhead, -⟩⟩
  · have hframe :=
      (MemoryController.appendsOwn_handleRefresh p { c with rankPowerDown := down }).frame
    exact ⟨hframe.transactionQueues, hframe.now⟩
  · exact ⟨rfl, rfl⟩
  · have hchange := MemoryController.issuesHead hhead
    exact ⟨hchange.transactionQueues, hchange.now⟩

/-- The controller leaves the transaction queues, and time does not go back. -/
theorem frame_of_step {c : MemoryController} {a : MemControl.Action}
    {out : MemoryController × Option Request} (h : c.step p a = some out) :
    out.1.transactionQueues = c.transactionQueues ∧ c.now ≤ out.1.now := by
  cases a with
  | issueMemoryCommands child r =>
    obtain ⟨-, h⟩ := Option.ite_none_right_eq_some.mp h
    obtain ⟨issued, hissue, rfl⟩ := Option.map_eq_some_iff.mp h
    have hframe := (MemoryController.queuesRequest hissue).frame
    exact ⟨hframe.transactionQueues, hframe.now.ge⟩
  | handleRefresh =>
    cases h
    have hframe := (MemoryController.appendsOwn_handleRefresh p c).frame
    exact ⟨hframe.transactionQueues, hframe.now.ge⟩
  | refreshPulse rank group =>
    obtain ⟨-, h⟩ := Option.ite_none_right_eq_some.mp h
    cases h
    have hframe :=
      (MemoryController.appendsOwn_processRefreshPulse p (p.groupHead rank group) c).frame
    exact ⟨hframe.transactionQueues, hframe.now.ge⟩
  | cycleCommandQueues child =>
    obtain ⟨hqueues, hnow⟩ := frame_of_cycleCommandQueues h
    exact ⟨hqueues, hnow.ge⟩
  | tick =>
    cases h
    unfold MemoryController.tick
    dsimp only
    split
    · exact ⟨rfl, Nat.le_succ _⟩
    · exact ⟨rfl, Nat.le_succ _⟩

/-- A part of a step that records no phase. While writes are drained, the read queue does not get
shorter. -/
structure Continues (s t : FRFCFSWQF) : Prop where
  draining : t.draining = s.draining
  drainStartCycle : t.drainStartCycle = s.drainStartCycle
  drainStartReadqueueSize : t.drainStartReadqueueSize = s.drainStartReadqueueSize
  lastDrainEndCycle : t.lastDrainEndCycle = s.lastDrainEndCycle
  stats : t.stats = s.stats
  now : t.now = s.now
  readQueue_le : s.draining = true → s.readQueue.length ≤ t.readQueue.length

theorem Continues.refl (s : FRFCFSWQF) : Continues s s :=
  ⟨rfl, rfl, rfl, rfl, rfl, rfl, fun _ => le_rfl⟩

theorem Continues.trans {u : FRFCFSWQF} (h : Continues s t) (h' : Continues t u) :
    Continues s u where
  draining := h'.draining.trans h.draining
  drainStartCycle := h'.drainStartCycle.trans h.drainStartCycle
  drainStartReadqueueSize := h'.drainStartReadqueueSize.trans h.drainStartReadqueueSize
  lastDrainEndCycle := h'.lastDrainEndCycle.trans h.lastDrainEndCycle
  stats := h'.stats.trans h.stats
  now := h'.now.trans h.now
  readQueue_le := fun hs =>
    (h.readQueue_le hs).trans (h'.readQueue_le (h.draining.trans hs))

/-- The controller changes neither of the queues. -/
theorem continues_of_controller {c : MemoryController}
    (h : c.transactionQueues = s.controller.transactionQueues ∧ c.now = s.controller.now) :
    Continues s { s with controller := c } :=
  ⟨rfl, rfl, rfl, rfl, rfl, h.2, fun _ => by rw [readQueue, readQueue, h.1]⟩

theorem continues_issueCommand (w : WaterMarks) (r : Request) (s : FRFCFSWQF) :
    Continues s (s.issueCommand w r).1 := by
  unfold issueCommand
  split
  · dsimp only
    split
    · refine ⟨rfl, rfl, rfl, rfl, rfl, rfl, fun _ => ?_⟩
      simp [readQueue, setQueue, RequestSystem.setQueue]
    · split
      · refine ⟨rfl, rfl, rfl, rfl, rfl, rfl, fun _ => ?_⟩
        simp [readQueue, setQueue, RequestSystem.setQueue, readQueueId, writeQueueId]
      · exact .refl s
  · exact .refl s

theorem continues_requestComplete (r : Request) (s : FRFCFSWQF) :
    Continues s (s.requestComplete r) := by
  refine ⟨rfl, rfl, rfl, rfl, rfl, rfl, fun _ => ?_⟩
  simp [requestComplete, readQueue, setQueue, RequestSystem.setQueue, readQueueId, writeQueueId]

theorem continues_count (s : FRFCFSWQF) (kind : Search) : Continues s (s.count kind) := by
  have hmiss : Continues s s.countMiss := by
    unfold countMiss
    split <;> exact ⟨rfl, rfl, rfl, rfl, rfl, rfl, fun _ => le_rfl⟩
  cases kind with
  | starvedRequest =>
    exact hmiss.trans ⟨rfl, rfl, rfl, rfl, rfl, rfl, fun _ => le_rfl⟩
  | rowBufferHit =>
    simp only [count, countHit]
    split <;> exact ⟨rfl, rfl, rfl, rfl, rfl, rfl, fun _ => le_rfl⟩
  | oldestReadyRequest | closedBankRequest => exact hmiss
  | cachedAddress | writeStalledRead => exact .refl s

/-- While writes are drained, the requests are taken from the write queue. -/
theorem continues_schedule (h : s.schedule p child = some t) : Continues s t := by
  obtain ⟨found, hfound, h⟩ := Option.bind_eq_some_iff.mp h
  cases found with
  | none =>
    cases h
    exact .refl s
  | some found =>
    obtain ⟨kind, r, rest⟩ := found
    obtain ⟨⟨c, ok⟩, hissue, rfl⟩ := Option.map_eq_some_iff.mp h
    have htaken : Continues s (s.setQueue s.activeQueueId rest) := by
      refine ⟨rfl, rfl, rfl, rfl, rfl, rfl, fun hs => ?_⟩
      simp [readQueue, setQueue, RequestSystem.setQueue, activeQueueId, hs, readQueueId,
        writeQueueId]
    have hframe := (MemoryController.queuesRequest hissue).frame
    exact (htaken.trans (continues_count _ kind)).trans
      (continues_of_controller ⟨hframe.transactionQueues, hframe.now⟩)

/-- `Cycle` switches between reads and writes, and goes on. -/
theorem continues_cycle (h : s.cycle w p child commandChild = some t) :
    Continues (s.switch w) t := by
  obtain ⟨u, hu, h⟩ := Option.bind_eq_some_iff.mp h
  obtain ⟨out, hout, rfl⟩ := Option.map_eq_some_iff.mp h
  exact (continues_schedule hu).trans (continues_of_controller (frame_of_cycleCommandQueues hout))

theorem exists_controller_of_control {a : MemControl.Action}
    (h : s.step w p (.control a) = some t) :
    ∃ c : MemoryController, c.transactionQueues = s.controller.transactionQueues ∧
      s.controller.now ≤ c.now ∧ c.now < 2 ^ 64 ∧ t = { s with controller := c } := by
  have hbind : ((s.controller.step p a).bind fun out =>
      if out.1.now < 2 ^ 64 then some { s with controller := out.1 } else none) = some t := by
    cases a with
    | issueMemoryCommands child r => cases h
    | _ => exact h
  obtain ⟨out, hout, hbind⟩ := Option.bind_eq_some_iff.mp hbind
  obtain ⟨hlt, hbind⟩ := Option.ite_none_right_eq_some.mp hbind
  cases hbind
  obtain ⟨hqueues, hle⟩ := frame_of_step hout
  exact ⟨out.1, hqueues, hle, hlt, rfl⟩

/-! ### Statistics -/

theorem add64_eq {a b : ℕ} (h : a + b < 2 ^ 64) : add64 a b = a + b := Nat.mod_eq_of_lt h

theorem sub64_eq {a b : ℕ} (h : b ≤ a) (ha : a < 2 ^ 64) : sub64 a b = a - b := by
  unfold sub64
  omega

/-- If `Cycle` ends a drain whose statistics are recorded, none of the subtractions wraps
around. -/
def NoWrap (w : WaterMarks) (s : FRFCFSWQF) : Prop :=
  s.EndsDrain w → s.lastDrainEndCycle ≠ 0 →
    s.drainStartReadqueueSize ≤ s.readQueue.length ∧ s.drainStartCycle ≤ s.now ∧
      s.lastDrainEndCycle ≤ s.now ∧
      sub64 s.now s.drainStartCycle ≤ sub64 s.now s.lastDrainEndCycle

/-- What was recorded is in the order of time, and the phases since the cycle `first` add up. -/
structure Recorded (first : ℕ) (s : FRFCFSWQF) : Prop where
  now_lt : s.now < 2 ^ 64
  lastDrainEndCycle_le : s.lastDrainEndCycle ≤ s.now
  start : s.draining = true → s.lastDrainEndCycle ≤ s.drainStartCycle ∧
    s.drainStartCycle ≤ s.now ∧ s.drainStartReadqueueSize ≤ s.readQueue.length
  first_le : first ≤ s.lastDrainEndCycle
  total : s.stats.totalDrainCycles + s.stats.totalReadCycles = s.lastDrainEndCycle - first
  interval : s.stats.totalNonDrainCycles = s.lastDrainEndCycle - first

variable {first : ℕ}

theorem recorded_init (p : Params) : Recorded 0 (init p) :=
  ⟨Nat.two_pow_pos 64, le_rfl, fun h => absurd h (by simp [init]), le_rfl, rfl, rfl⟩

theorem Recorded.noWrap (hs : Recorded first s) : s.NoWrap w := by
  intro hends _
  obtain ⟨hlast, hstart, hread⟩ := hs.start hends.1
  refine ⟨hread, hstart, hs.lastDrainEndCycle_le, ?_⟩
  rw [sub64_eq hstart hs.now_lt, sub64_eq hs.lastDrainEndCycle_le hs.now_lt]
  exact Nat.sub_le_sub_left hlast _

theorem Recorded.continues (hs : Recorded first s) (h : Continues s t) : Recorded first t where
  now_lt := h.now.trans_lt hs.now_lt
  lastDrainEndCycle_le := by
    rw [h.lastDrainEndCycle, h.now]
    exact hs.lastDrainEndCycle_le
  start := by
    intro ht
    have hs' := h.draining.symm.trans ht
    obtain ⟨hlast, hstart, hread⟩ := hs.start hs'
    rw [h.lastDrainEndCycle, h.drainStartCycle, h.drainStartReadqueueSize, h.now]
    exact ⟨hlast, hstart, hread.trans (h.readQueue_le hs')⟩
  first_le := by
    rw [h.lastDrainEndCycle]
    exact hs.first_le
  total := by
    rw [h.stats, h.lastDrainEndCycle]
    exact hs.total
  interval := by
    rw [h.stats, h.lastDrainEndCycle]
    exact hs.interval

/-- Time goes on, and the controller changes other things than the transaction queues. -/
theorem Recorded.later (hs : Recorded first s) {c : MemoryController}
    (hqueues : c.transactionQueues = s.controller.transactionQueues)
    (hle : s.controller.now ≤ c.now) (hlt : c.now < 2 ^ 64) :
    Recorded first { s with controller := c } where
  now_lt := hlt
  lastDrainEndCycle_le := hs.lastDrainEndCycle_le.trans hle
  start := by
    intro hdraining
    obtain ⟨hlast, hstart, hread⟩ := hs.start hdraining
    refine ⟨hlast, hstart.trans hle, hread.trans_eq ?_⟩
    rw [readQueue, readQueue, hqueues]
  first_le := hs.first_le
  total := hs.total
  interval := hs.interval

theorem Recorded.startDrain (hs : Recorded first s) : Recorded first s.startDrain where
  now_lt := hs.now_lt
  lastDrainEndCycle_le := hs.lastDrainEndCycle_le
  start := fun _ => ⟨hs.lastDrainEndCycle_le, le_rfl, le_rfl⟩
  first_le := hs.first_le
  total := hs.total
  interval := hs.interval

theorem now_endDrain (s : FRFCFSWQF) : s.endDrain.now = s.now := by
  unfold FRFCFSWQF.endDrain
  dsimp only [now]
  split <;> rfl

theorem lastDrainEndCycle_endDrain (s : FRFCFSWQF) : s.endDrain.lastDrainEndCycle = s.now := by
  unfold FRFCFSWQF.endDrain
  dsimp only [now]
  split <;> rfl

theorem stats_endDrain (s : FRFCFSWQF) :
    s.endDrain.stats = if s.lastDrainEndCycle = 0 then s.stats else s.recordDrain := by
  unfold FRFCFSWQF.endDrain
  by_cases h : s.lastDrainEndCycle = 0 <;> simp [h]

/-- The phases of a drain that ends are added to the totals. -/
theorem Recorded.totals_recordDrain (hs : Recorded first s) (hdraining : s.draining = true) :
    s.recordDrain.totalDrainCycles + s.recordDrain.totalReadCycles = s.now - first ∧
      s.recordDrain.totalNonDrainCycles = s.now - first := by
  obtain ⟨hlast, hstart, -⟩ := hs.start hdraining
  have hnow := hs.now_lt
  have hfirst := hs.first_le
  have htotal := hs.total
  have hinterval := hs.interval
  have hduration := sub64_eq hstart hnow
  have hspacing := sub64_eq hs.lastDrainEndCycle_le hnow
  have hread : sub64 (s.now - s.lastDrainEndCycle) (s.now - s.drainStartCycle) =
      s.now - s.lastDrainEndCycle - (s.now - s.drainStartCycle) :=
    sub64_eq (Nat.sub_le_sub_left hlast _) (by omega)
  simp only [recordDrain, hduration, hspacing, hread]
  rw [add64_eq (by omega), add64_eq (by omega), add64_eq (by omega)]
  omega

/-- Before the first end of a drain there is nothing to add. -/
theorem Recorded.endDrain (hs : Recorded first s) (hdraining : s.draining = true) :
    Recorded (if s.lastDrainEndCycle = 0 then s.now else first) s.endDrain := by
  have hfirst := hs.first_le
  have hlast := hs.lastDrainEndCycle_le
  refine ⟨?_, ?_, fun h => absurd h (by simp [FRFCFSWQF.endDrain]), ?_, ?_, ?_⟩
  · rw [now_endDrain]
    exact hs.now_lt
  · rw [lastDrainEndCycle_endDrain, now_endDrain]
  · rw [lastDrainEndCycle_endDrain]
    split
    · exact le_rfl
    · omega
  all_goals
    rw [stats_endDrain, lastDrainEndCycle_endDrain]
    split
  · rename_i hzero
    have htotal := hs.total
    omega
  · exact (hs.totals_recordDrain hdraining).1
  · rename_i hzero
    have hinterval := hs.interval
    omega
  · exact (hs.totals_recordDrain hdraining).2

theorem Recorded.switch (hs : Recorded first s) :
    Recorded (if s.EndsDrain w ∧ s.lastDrainEndCycle = 0 then s.now else first) (s.switch w) := by
  unfold FRFCFSWQF.switch
  by_cases hstarts : s.StartsDrain w
  · have hends : ¬ (s.EndsDrain w ∧ s.lastDrainEndCycle = 0) :=
      fun h => absurd (hstarts.1.symm.trans h.1.1) (by decide)
    rw [if_pos hstarts, if_neg hends]
    exact hs.startDrain
  · rw [if_neg hstarts]
    by_cases hends : s.EndsDrain w
    · simp only [hends, true_and]
      exact hs.endDrain hends.1
    · simp only [hends, false_and, if_false]
      exact hs

end FRFCFSWQF

/-- The scheduler, with the first end of a drain that was recorded. -/
structure DrainHistory where
  scheduler : FRFCFSWQF
  firstEnd : ℕ := 0

namespace DrainHistory

open FRFCFSWQF

/-- After configuration. -/
def init (p : Params) : DrainHistory where
  scheduler := .init p

/-- The first recorded end of a drain after an action: the end of a drain for which no earlier
end is recorded. -/
def firstEndAfter (w : WaterMarks) (s : DrainHistory) : FRFCFSWQF.Action → ℕ
  | .cycle _ _ =>
    if s.scheduler.EndsDrain w ∧ s.scheduler.lastDrainEndCycle = 0 then s.scheduler.now
    else s.firstEnd
  | _ => s.firstEnd

/-- One step. -/
def step (w : WaterMarks) (p : Params) (s : DrainHistory) (a : FRFCFSWQF.Action) :
    Option DrainHistory :=
  (s.scheduler.step w p a).map fun t => ⟨t, s.firstEndAfter w a⟩

variable {w : WaterMarks} {p : Params} {s t : DrainHistory} {a : FRFCFSWQF.Action}

theorem recorded_step (hs : Recorded s.firstEnd s.scheduler) (h : s.step w p a = some t) :
    Recorded t.firstEnd t.scheduler := by
  obtain ⟨t, ht, rfl⟩ := Option.map_eq_some_iff.mp h
  cases a with
  | issueCommand r =>
    obtain ⟨-, ht⟩ := Option.ite_none_right_eq_some.mp ht
    cases ht
    exact hs.continues (continues_issueCommand w r s.scheduler)
  | cycle child commandChild => exact hs.switch.continues (continues_cycle ht)
  | requestComplete r =>
    obtain ⟨-, ht⟩ := Option.ite_none_right_eq_some.mp ht
    cases ht
    exact hs.continues (continues_requestComplete r s.scheduler)
  | control a =>
    obtain ⟨c, hqueues, hle, hlt, rfl⟩ := exists_controller_of_control ht
    exact hs.later hqueues hle hlt

/-- **Statistics of the write drains.** In every run, with any water marks, arrivals and number of
drains: none of the subtractions that update the statistics wraps around, and the drain cycles and
the read cycles add up to the cycles between the first and the last recorded end of a drain. -/
theorem statistics_right {actions : List FRFCFSWQF.Action}
    (hrun : Run (Steps (DrainHistory.step w p)) (init p) actions s) :
    s.scheduler.NoWrap w ∧ s.firstEnd ≤ s.scheduler.lastDrainEndCycle ∧
      s.scheduler.stats.totalDrainCycles + s.scheduler.stats.totalReadCycles =
        s.scheduler.lastDrainEndCycle - s.firstEnd ∧
      s.scheduler.stats.totalNonDrainCycles = s.scheduler.lastDrainEndCycle - s.firstEnd := by
  have hs : Recorded s.firstEnd s.scheduler :=
    hrun.invariant (P := fun s : DrainHistory => Recorded s.firstEnd s.scheduler)
      (recorded_init p) fun s a t hs h => recorded_step hs h
  exact ⟨hs.noWrap, hs.first_le, hs.total, hs.interval⟩

/-- A write arrives, and is drained in the next cycle; one cycle later the drain ends. -/
def drainOnce : List FRFCFSWQF.Action :=
  [.issueCommand RequestSystem.write, .control .tick,
    .cycle RequestSystem.ready RequestSystem.ready, .control .tick,
    .cycle RequestSystem.ready RequestSystem.ready]

/-- A write queue of one entry. -/
def oneWrite : WaterMarks := { writeQueueSize := 1, highWaterMark := 1 }

/-- Two drains of one cycle, which end in the cycles 2 and 4. -/
theorem statistics_right_two : ∃ s : DrainHistory,
    Run (Steps (DrainHistory.step oneWrite .defaults)) (init .defaults) (drainOnce ++ drainOnce) s ∧
    s.firstEnd = 2 ∧ s.scheduler.lastDrainEndCycle = 4 ∧ s.scheduler.stats.totalDrainCycles = 1 ∧
    (s.scheduler.NoWrap oneWrite ∧ s.firstEnd ≤ s.scheduler.lastDrainEndCycle ∧
      s.scheduler.stats.totalDrainCycles + s.scheduler.stats.totalReadCycles =
        s.scheduler.lastDrainEndCycle - s.firstEnd ∧
      s.scheduler.stats.totalNonDrainCycles = s.scheduler.lastDrainEndCycle - s.firstEnd) :=
  exists_run_imp (fun s => s.firstEnd = 2 ∧ s.scheduler.lastDrainEndCycle = 4 ∧
    s.scheduler.stats.totalDrainCycles = 1) (by decide +kernel) fun _ hrun hs =>
      ⟨hs.1, hs.2.1, hs.2.2, statistics_right hrun⟩

end DrainHistory

/-! ### Water marks -/

namespace FRFCFSWQF

variable {w : WaterMarks} {p : Params} {child commandChild : Child} {s t : FRFCFSWQF}

theorem draining_switch_of_reading (h : s.draining = false) :
    (s.switch w).draining = true ↔ w.highWaterMark ≤ s.writeQueue.length := by
  have hends : ¬ s.EndsDrain w := fun hends => absurd (h.symm.trans hends.1) (by decide)
  unfold switch
  by_cases hhigh : w.highWaterMark ≤ s.writeQueue.length
  · rw [if_pos ⟨h, hhigh⟩]
    exact iff_of_true rfl hhigh
  · rw [if_neg fun hstarts => hhigh hstarts.2, if_neg hends, h]
    exact iff_of_false (by decide) hhigh

theorem draining_switch_of_draining (h : s.draining = true) :
    (s.switch w).draining = false ↔ s.writeQueue.length ≤ w.lowWaterMark := by
  have hstarts : ¬ s.StartsDrain w := fun hstarts => absurd (h.symm.trans hstarts.1) (by decide)
  unfold switch
  rw [if_neg hstarts]
  by_cases hlow : s.writeQueue.length ≤ w.lowWaterMark
  · rw [if_pos ⟨h, hlow⟩]
    exact iff_of_true rfl hlow
  · rw [if_neg fun hends => hlow hends.2, h]
    exact iff_of_false (by decide) hlow

theorem writeQueue_switch (w : WaterMarks) (s : FRFCFSWQF) :
    (s.switch w).writeQueue = s.writeQueue := by
  unfold switch
  split
  · rfl
  · split
    · unfold endDrain
      dsimp only [writeQueue]
      split <;> rfl
    · rfl

theorem length_of_findNext {c : MemoryController} {queue rest : List Request} {r : Request}
    {kind : Search} {kinds : List Search}
    (h : findNext p child c queue kinds = some (some (kind, r, rest))) :
    rest.length + 1 = queue.length := by
  induction kinds with
  | nil => cases h
  | cons k kinds ih =>
    obtain ⟨found, hfound, h⟩ := Option.bind_eq_some_iff.mp h
    cases found with
    | taken r' rest' =>
      cases h
      obtain ⟨before, r', after, hqueue, hrest, -⟩ :=
        (MemoryController.takes_of_search hfound).split
      rw [hqueue, hrest]
      simp
      omega
    | nothing | stalled => exact ih h

/-- A search of the write queue takes a request. -/
def FindsWrite (p : Params) (child : Child) (s : FRFCFSWQF) : Prop :=
  ∃ found, findNext p child s.controller s.writeQueue searches = some (some found)

theorem writeQueue_count (s : FRFCFSWQF) (kind : Search) :
    (s.count kind).writeQueue = s.writeQueue := by
  cases kind <;> simp only [count, countHit, countMiss, writeQueue] <;> split <;> rfl

/-- What is left of the write queue. -/
theorem writeQueue_of_schedule (h : s.schedule p child = some t) :
    ∃ found, findNext p child s.controller (s.controller.transactionQueues s.activeQueueId)
        searches = some found ∧
      t.writeQueue = found.elim s.writeQueue fun found =>
        if writeQueueId = s.activeQueueId then found.2.2 else s.writeQueue := by
  obtain ⟨found, hfound, h⟩ := Option.bind_eq_some_iff.mp h
  refine ⟨found, hfound, ?_⟩
  cases found with
  | none => exact Option.some.inj h ▸ rfl
  | some found =>
    obtain ⟨⟨c, ok⟩, hissue, rfl⟩ := Option.map_eq_some_iff.mp h
    change c.transactionQueues writeQueueId = _
    rw [(MemoryController.queuesRequest hissue).frame.transactionQueues]
    change ((s.setQueue s.activeQueueId found.2.2).count found.1).writeQueue = _
    rw [writeQueue_count]
    exact Function.update_apply ..

/-- In drain mode, a write is taken from the queue if a search finds one. -/
theorem length_writeQueue_schedule (hdraining : s.draining = true)
    (h : s.schedule p child = some t) : t.writeQueue.length ≤ s.writeQueue.length ∧
      (s.FindsWrite p child → t.writeQueue.length + 1 = s.writeQueue.length) := by
  have hactive : s.activeQueueId = writeQueueId := if_pos hdraining
  obtain ⟨found, hfound, hqueue⟩ := writeQueue_of_schedule h
  rw [hactive] at hfound hqueue
  rw [hqueue]
  cases found with
  | none => exact ⟨le_rfl, fun ⟨found, hfound'⟩ => by cases hfound.symm.trans hfound'⟩
  | some found =>
    have hlength : found.2.2.length + 1 = s.writeQueue.length := length_of_findNext hfound
    rw [Option.elim_some, if_pos rfl]
    exact ⟨by omega, fun _ => hlength⟩

/-- While reads are scheduled, the write queue is left. -/
theorem writeQueue_schedule (hdraining : s.draining = false) (h : s.schedule p child = some t) :
    t.writeQueue = s.writeQueue := by
  have hactive : writeQueueId ≠ s.activeQueueId := by
    simp [activeQueueId, hdraining, readQueueId, writeQueueId]
  obtain ⟨found, -, hqueue⟩ := writeQueue_of_schedule h
  cases found with
  | none => exact hqueue
  | some found => exact hqueue.trans (if_neg hactive)

theorem exists_schedule_of_cycle (h : s.cycle w p child commandChild = some t) :
    ∃ u, (s.switch w).schedule p child = some u ∧ t.writeQueue = u.writeQueue := by
  obtain ⟨u, hu, h⟩ := Option.bind_eq_some_iff.mp h
  obtain ⟨⟨c, issued⟩, hc, rfl⟩ := Option.map_eq_some_iff.mp h
  exact ⟨u, hu, congrFun (frame_of_cycleCommandQueues hc).1 writeQueueId⟩

theorem length_writeQueue_cycle (h : s.cycle w p child commandChild = some t) :
    t.writeQueue.length ≤ s.writeQueue.length := by
  obtain ⟨u, hu, hqueue⟩ := exists_schedule_of_cycle h
  rw [hqueue, ← writeQueue_switch w s]
  cases hdraining : (s.switch w).draining with
  | true => exact (length_writeQueue_schedule hdraining hu).1
  | false => rw [writeQueue_schedule hdraining hu]

theorem findsWrite_switch (h : s.FindsWrite p child) : (s.switch w).FindsWrite p child := by
  have hcontroller : (s.switch w).controller = s.controller := by
    unfold switch endDrain
    split
    · rfl
    · split
      · dsimp only
        split <;> rfl
      · rfl
  rw [FindsWrite, writeQueue_switch, hcontroller]
  exact h

/-- Drain mode is entered from a full write queue, and left at the low water mark. -/
structure DrainsRight (w : WaterMarks) (p : Params) (s : FRFCFSWQF) : Prop where
  enters : s.draining = false → w.writeQueueSize ≤ s.writeQueue.length →
    ∀ child commandChild t, s.cycle w p child commandChild = some t → t.draining = true
  leaves : s.draining = true → ∀ child commandChild t,
    s.cycle w p child commandChild = some t →
      (t.draining = false ↔ s.writeQueue.length ≤ w.lowWaterMark)
  /-- Until then, the queue only gets longer if a write comes back. -/
  shrinks : s.draining = true → ∀ a t, s.step w p a = some t →
    (∀ r, a ≠ .requestComplete r) → t.writeQueue.length ≤ s.writeQueue.length
  /-- It gets shorter whenever a search finds a write. -/
  takes : s.draining = true → ∀ child commandChild t, s.cycle w p child commandChild = some t →
    t.draining = true → s.FindsWrite p child → t.writeQueue.length + 1 = s.writeQueue.length

theorem draining_cycle (h : s.cycle w p child commandChild = some t) :
    t.draining = (s.switch w).draining :=
  (continues_cycle h).draining

/-- A write is refused in drain mode. -/
theorem writeQueue_issueCommand (w : WaterMarks) (r : Request) (hdraining : s.draining = true) :
    (s.issueCommand w r).1.writeQueue = s.writeQueue := by
  unfold issueCommand
  split
  · rename_i hissuable
    dsimp only
    split
    · simp [writeQueue, setQueue, RequestSystem.setQueue, readQueueId, writeQueueId]
    · split
      · rename_i hwrite
        simp [isIssuable, hwrite, hdraining] at hissuable
      · rfl
  · rfl

/-- As soon as the high water mark is not above the size of the write queue, the drain mode is
right in every state. -/
theorem drainsRight (hw : w.highWaterMark ≤ w.writeQueueSize) (s : FRFCFSWQF) :
    s.DrainsRight w p where
  enters := by
    intro hdraining hfull child commandChild t h
    rw [draining_cycle h, draining_switch_of_reading hdraining]
    exact hw.trans hfull
  leaves := by
    intro hdraining child commandChild t h
    rw [draining_cycle h, draining_switch_of_draining hdraining]
  shrinks := by
    intro hdraining a t h ha
    cases a with
    | issueCommand r =>
      obtain ⟨-, h⟩ := Option.ite_none_right_eq_some.mp h
      cases h
      rw [writeQueue_issueCommand w r hdraining]
    | cycle child commandChild => exact length_writeQueue_cycle h
    | requestComplete r => exact absurd rfl (ha r)
    | control a =>
      obtain ⟨c, hqueues, -, -, rfl⟩ := exists_controller_of_control h
      exact le_of_eq (congrArg List.length (congrFun hqueues writeQueueId))
  takes := by
    intro hdraining child commandChild t h ht hfinds
    obtain ⟨u, hu, hqueue⟩ := exists_schedule_of_cycle h
    rw [hqueue, ← writeQueue_switch w s]
    exact (length_writeQueue_schedule ((draining_cycle h).symm.trans ht) hu).2
      (findsWrite_switch hfinds)

/-- **Water marks.** After `SetConfig` the water marks are in order, and in every run drain mode is
entered from a full write queue and can be left again, if and only if the low water mark is not
above the size of the write queue where the high one is. -/
theorem waterMarks_right_iff (conf : DrainConfig) (p : Params) :
    ((WaterMarks.setConfig conf).lowWaterMark ≤ (WaterMarks.setConfig conf).highWaterMark ∧
      (WaterMarks.setConfig conf).highWaterMark ≤ (WaterMarks.setConfig conf).writeQueueSize ∧
      ∀ actions s, Run (Steps (FRFCFSWQF.step (WaterMarks.setConfig conf) p)) (init p) actions s →
        s.DrainsRight (WaterMarks.setConfig conf) p) ↔
    (setting 8 conf.writeQueueSize < setting 8 conf.highWaterMark →
      setting 0 conf.lowWaterMark ≤ setting 8 conf.writeQueueSize) := by
  have hhigh : (WaterMarks.setConfig conf).highWaterMark ≤
      (WaterMarks.setConfig conf).writeQueueSize := by
    unfold WaterMarks.setConfig WaterMarks.check WaterMarks.read
    dsimp only
    split_ifs <;> dsimp only <;> omega
  have hlow : (WaterMarks.setConfig conf).lowWaterMark ≤
      (WaterMarks.setConfig conf).highWaterMark ↔
      (setting 8 conf.writeQueueSize < setting 8 conf.highWaterMark →
        setting 0 conf.lowWaterMark ≤ setting 8 conf.writeQueueSize) := by
    unfold WaterMarks.setConfig WaterMarks.check WaterMarks.read
    dsimp only
    split_ifs <;> dsimp only <;> omega
  rw [← hlow]
  exact ⟨fun h => h.1, fun h => ⟨h, hhigh, fun actions s _ => drainsRight hhigh s⟩⟩

/-- A write queue of one entry, with both water marks above its size. -/
def marksAboveSize : DrainConfig :=
  { writeQueueSize := some 1, highWaterMark := some 2, lowWaterMark := some 2 }

/-- The high water mark is cut down to the size of the queue, and the low one stays above it. The
drain of the full queue then ends with the queue still full. -/
theorem low_above_high :
    WaterMarks.setConfig marksAboveSize =
      { readQueueSize := 32, writeQueueSize := 1, highWaterMark := 1, lowWaterMark := 2 } ∧
    ∃ s t : FRFCFSWQF,
      Run (Steps (FRFCFSWQF.step (WaterMarks.setConfig marksAboveSize) .defaults)) (init .defaults)
        [.issueCommand RequestSystem.write, .cycle RequestSystem.ready RequestSystem.ready] s ∧
      s.draining = true ∧
      Run (Steps (FRFCFSWQF.step (WaterMarks.setConfig marksAboveSize) .defaults)) s
        [.cycle RequestSystem.ready RequestSystem.ready] t ∧
      t.draining = false ∧ t.writeQueue.length = 1 := by
  refine ⟨by decide, ?_⟩
  obtain ⟨s, hrun, hs⟩ := exists_run_of_any
    (FRFCFSWQF.step (WaterMarks.setConfig marksAboveSize) .defaults) (init .defaults)
    [.issueCommand RequestSystem.write, .cycle RequestSystem.ready RequestSystem.ready]
    (fun s => s.draining &&
      (exec (FRFCFSWQF.step (WaterMarks.setConfig marksAboveSize) .defaults) s
        [.cycle RequestSystem.ready RequestSystem.ready]).any fun t : FRFCFSWQF =>
          !t.draining && decide (t.writeQueue.length = 1)) (by decide +kernel)
  rw [Bool.and_eq_true] at hs
  obtain ⟨t, ht, hend⟩ := exists_run_of_any _ _ _ _ hs.2
  rw [Bool.and_eq_true, Bool.not_eq_true', decide_eq_true_eq] at hend
  exact ⟨s, t, hrun, hs.1, ht, hend⟩

end FRFCFSWQF

end HybridMemory.NVMain.MemControl

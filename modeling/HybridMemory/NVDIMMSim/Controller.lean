import HybridMemory.Lib.Transition
import HybridMemory.NVDIMMSim.Ftl

/-!
# The controller of the flash device

The controller has a read and a write queue for every die. `checkQueueWrite` is asked before the
data and the command of a write are added with `addPacket`; `update` looks for a packet for each
channel, going round the dies of the package.

* `addPacket_both_iff`: after `checkQueueWrite` both packets are added, unless the command is one
  of the collector, for which no room was asked, or an older packet was to be taken out;
* `update_ends_iff`: the search for packets ends if and only if it never comes to a read that
  waits for a queued write which does not exist, or for an answer already given in this cycle.

Loggers, callbacks and the transfer on the channels (loops over all channels, and one that takes
an element from a list each time) are left out. A packet has the fields that are looked at here.
-/

namespace HybridMemory.NVDIMMSim

open Transition Function

inductive BusPacketType
  | read | gcRead | write | gcWrite | erase | data | fastWrite
  deriving DecidableEq

structure ChannelPacket where
  busPacketType : BusPacketType
  virtualAddress : ℕ
  package : ℕ
  die : ℕ
  deriving DecidableEq

/-- A read or write of the collector. -/
def ChannelPacket.isGC (p : ChannelPacket) : Bool :=
  match p.busPacketType with
  | .gcRead | .gcWrite => true
  | _ => false

/-- The parameters of the controller. -/
structure ControllerConfig extends Config where
  ctrlSchedule : Bool
  ctrlReadQueueLength : ℕ
  ctrlWriteQueueLength : ℕ
  ctrlWriteOnQueueSize : Bool
  ctrlWriteQueueLimit : ℕ
  ctrlIdleWrite : Bool

/-- The queues of each die, the packet under way on each channel, the die that each channel looks
at first and the cycles left of an answer from a write queue (a variable that the constructor does
not set). -/
structure Controller where
  readQueues : ℕ → ℕ → List ChannelPacket
  writeQueues : ℕ → ℕ → List ChannelPacket
  outgoingPackets : ℕ → Option ChannelPacket
  diePointers : ℕ → ℕ
  queueAccessCounter : ℕ

namespace Controller

/-- The queues, with another content for one die. -/
def setQueue (queues : ℕ → ℕ → List ChannelPacket) (package die : ℕ)
    (queue : List ChannelPacket) : ℕ → ℕ → List ChannelPacket :=
  update queues package (update (queues package) die queue)

@[simp] theorem setQueue_self (queues : ℕ → ℕ → List ChannelPacket) (package die : ℕ)
    (queue : List ChannelPacket) : setQueue queues package die queue package die = queue := by
  rw [setQueue, update_self, update_self]

/-! ### Adding packets -/

/-- A queue stays below its limit with more packets added; a limit of zero is none. -/
def hasRoom (queue : List ChannelPacket) (more limit : ℕ) : Bool :=
  queue.length + more < limit || limit = 0

theorem hasRoom_of_le {queue : List ChannelPacket} {m n limit : ℕ} (hle : m ≤ n)
    (h : hasRoom queue n limit = true) : hasRoom queue m limit = true := by
  simp only [hasRoom, Bool.or_eq_true, decide_eq_true_eq] at h ⊢
  omega

theorem hasRoom_concat {queue : List ChannelPacket} {p : ChannelPacket} {limit : ℕ} :
    hasRoom (queue ++ [p]) 0 limit = hasRoom queue 1 limit := by
  rw [hasRoom, hasRoom, List.length_append]
  rfl

variable (cfg : ControllerConfig) (s : Controller) (p : ChannelPacket)

/-- This is only called for the data of a write. -/
def checkQueueWrite : Bool :=
  if cfg.ctrlSchedule then hasRoom (s.writeQueues p.package p.die) 1 cfg.ctrlWriteQueueLength
  else hasRoom (s.readQueues p.package p.die) 1 cfg.ctrlReadQueueLength

/-- A packet for a read queue goes to one of its ends. -/
def pushRead (front : Bool) : Bool × Controller :=
  let queue := s.readQueues p.package p.die
  if hasRoom queue 0 cfg.ctrlReadQueueLength then
    let longer := if front then p :: queue else queue ++ [p]
    (true, { s with readQueues := setQueue s.readQueues p.package p.die longer })
  else (false, s)

/-- An older packet of the same kind for the same address. -/
def replaces (p old : ChannelPacket) : Bool :=
  old.virtualAddress = p.virtualAddress && old.busPacketType = p.busPacketType

/-- The packet at the end of its write queue. -/
def enqueueWrite : Controller :=
  let queue := s.writeQueues p.package p.die
  { s with writeQueues := setQueue s.writeQueues p.package p.die (queue ++ [p]) }

@[simp] theorem enqueueWrite_writeQueues :
    (enqueueWrite s p).writeQueues p.package p.die = s.writeQueues p.package p.die ++ [p] :=
  setQueue_self ..

@[simp] theorem enqueueWrite_readQueues : (enqueueWrite s p).readQueues = s.readQueues := rfl

/-- A packet for a write queue. Without garbage collection it is to replace an older packet. The
call `erase(it, it++)` has no defined outcome: the range is empty or, where the second argument is
evaluated first, ends before it begins. -/
def pushWrite : Option (Bool × Controller) :=
  let queue := s.writeQueues p.package p.die
  if hasRoom queue 0 cfg.ctrlWriteQueueLength then
    if !cfg.garbageCollect && queue.any (replaces p) then none
    else some (true, enqueueWrite s p)
  else some (false, s)

def addPacket : Option (Bool × Controller) :=
  if cfg.ctrlSchedule then
    match p.busPacketType with
    | .read | .erase => some (pushRead cfg s p false)
    | .write | .data => pushWrite cfg s p
    | .gcRead | .gcWrite => some (pushRead cfg s p true)
    -- only an error message
    | .fastWrite => some (true, s)
  else some (pushRead cfg s p false)

variable {cfg s p} {t : Controller}

theorem pushRead_fst {front : Bool} :
    (pushRead cfg s p front).1 =
      hasRoom (s.readQueues p.package p.die) 0 cfg.ctrlReadQueueLength := by
  rw [pushRead]
  split
  · next h => exact h.symm
  · next h => exact (Bool.not_eq_true _ ▸ h : _ = false).symm

theorem pushRead_snd_readQueues
    (hroom : hasRoom (s.readQueues p.package p.die) 0 cfg.ctrlReadQueueLength = true) :
    (pushRead cfg s p false).2.readQueues p.package p.die =
      s.readQueues p.package p.die ++ [p] := by
  rw [pushRead, if_pos hroom]
  exact setQueue_self ..

/-- A packet enters a write queue that has room if it does not meet an older one. -/
theorem pushWrite_eq_some_iff
    (hroom : hasRoom (s.writeQueues p.package p.die) 0 cfg.ctrlWriteQueueLength = true) :
    pushWrite cfg s p = some (true, t) ↔
      (cfg.garbageCollect = false → ∀ q ∈ s.writeQueues p.package p.die, replaces p q = false) ∧
        t = enqueueWrite s p := by
  have hnew : (!cfg.garbageCollect && (s.writeQueues p.package p.die).any (replaces p)) = false ↔
      (cfg.garbageCollect = false →
        ∀ q ∈ s.writeQueues p.package p.die, replaces p q = false) := by
    rw [Bool.and_eq_false_imp, Bool.not_eq_true', List.any_eq_false]
    simp only [Bool.not_eq_true]
  rw [pushWrite, if_pos hroom, ← hnew]
  split
  · next h => simp [h]
  · next h => simp [h, eq_comm]

/-- **Data and command of a write.** If `checkQueueWrite` accepts the data, then both packets are
added, if and only if with scheduling a command of the collector finds room in the read queue, and
without garbage collection no packet of the same kind for the same address is queued. -/
theorem addPacket_both_iff (cfg : ControllerConfig) (s : Controller) (data command : ChannelPacket)
    (hdata : data.busPacketType = .data)
    (hcommand : command.busPacketType = .write ∨ command.busPacketType = .gcWrite)
    (hplace : command.package = data.package ∧ command.die = data.die)
    (haccept : checkQueueWrite cfg s data = true) :
    (∃ t u, addPacket cfg s data = some (true, t) ∧ addPacket cfg t command = some (true, u)) ↔
      (cfg.ctrlSchedule = true →
        (cfg.garbageCollect = false → ∀ q ∈ s.writeQueues data.package data.die,
          replaces data q = false ∧
            (command.busPacketType = .write → replaces command q = false)) ∧
        (command.busPacketType = .gcWrite →
          hasRoom (s.readQueues data.package data.die) 0 cfg.ctrlReadQueueLength = true)) := by
  obtain ⟨hpackage, hdie⟩ := hplace
  by_cases hschedule : cfg.ctrlSchedule = true
  · rw [checkQueueWrite, if_pos hschedule] at haccept
    have haddData : addPacket cfg s data = pushWrite cfg s data := by
      rw [addPacket, if_pos hschedule, hdata]
    simp only [haddData, pushWrite_eq_some_iff (hasRoom_of_le (Nat.zero_le 1) haccept), hschedule,
      forall_const, and_assoc, exists_and_left, exists_eq_left]
    rcases hcommand with hwrite | hgc
    · -- the command follows the data in the write queue, and is not one of its kind
      have hkind : replaces command data = false := by simp [replaces, hdata, hwrite]
      have haddCommand : ∀ t, addPacket cfg t command = pushWrite cfg t command := fun t => by
        rw [addPacket, if_pos hschedule, hwrite]
      have hqueue : (enqueueWrite s data).writeQueues command.package command.die =
          s.writeQueues data.package data.die ++ [data] := by
        rw [hpackage, hdie, enqueueWrite_writeQueues]
      have hroom : hasRoom ((enqueueWrite s data).writeQueues command.package command.die) 0
          cfg.ctrlWriteQueueLength = true := by
        rwa [hqueue, hasRoom_concat]
      simp only [haddCommand, pushWrite_eq_some_iff hroom, hqueue, exists_and_left, exists_eq,
        and_true, List.forall_mem_append, List.forall_mem_singleton, hkind, hwrite, forall_const,
        reduceCtorEq, false_imp_iff, forall_and]
    · have haddCommand : ∀ t, addPacket cfg t command = some (pushRead cfg t command true) :=
        fun t => by rw [addPacket, if_pos hschedule, hgc]
      simp only [haddCommand, Option.some.injEq, Prod.ext_iff, pushRead_fst, exists_and_left,
        exists_eq', and_true, hpackage, hdie, hgc, enqueueWrite_readQueues, reduceCtorEq,
        false_imp_iff, forall_const]
  · -- both packets go to the read queue
    rw [checkQueueWrite, if_neg hschedule] at haccept
    have hadd : ∀ t p, addPacket cfg t p = some (pushRead cfg t p false) := fun t p => by
      rw [addPacket, if_neg hschedule]
    have hroom := hasRoom_of_le (Nat.zero_le 1) haccept
    refine iff_of_true ⟨(pushRead cfg s data false).2,
      (pushRead cfg (pushRead cfg s data false).2 command false).2, ?_, ?_⟩
      fun h => absurd h hschedule
    · rw [hadd, ← hroom, ← pushRead_fst]
    · have hlonger := (congrArg (hasRoom · 0 cfg.ctrlReadQueueLength)
        (pushRead_snd_readQueues hroom)).trans (hasRoom_concat.trans haccept)
      rw [hadd, ← hlonger, ← hpackage, ← hdie, ← pushRead_fst]

/-- A package with one die, a write queue without limit and a read queue of one packet. -/
def smallController : ControllerConfig where
  toConfig := smallDevice true
  ctrlSchedule := true
  ctrlReadQueueLength := 1
  ctrlWriteQueueLength := 0
  ctrlWriteOnQueueSize := false
  ctrlWriteQueueLimit := 0
  ctrlIdleWrite := false

/-- A controller with the same packets in the queues of all dies. -/
def holding (reads writes : List ChannelPacket) : Controller where
  readQueues _ _ := reads
  writeQueues _ _ := writes
  outgoingPackets _ := none
  diePointers _ := 0
  queueAccessCounter := 0

/-- A controller without garbage collection, with a limit for its write queues, -/
def plainController : ControllerConfig :=
  { smallController with toConfig := smallDevice false, ctrlWriteQueueLength := 5 }

/-- and with packets for two addresses. -/
def queued : Controller := holding [⟨.read, 1, 0, 0⟩] [⟨.data, 2, 0, 0⟩, ⟨.write, 2, 0, 0⟩]

/-- Data and command for a third address are queued behind them. -/
theorem addPacket_both_queued :
    checkQueueWrite plainController queued ⟨.data, 0, 0, 0⟩ = true ∧
      ∃ t u, addPacket plainController queued ⟨.data, 0, 0, 0⟩ = some (true, t) ∧
        addPacket plainController t ⟨.write, 0, 0, 0⟩ = some (true, u) :=
  ⟨rfl, (addPacket_both_iff plainController queued ⟨.data, 0, 0, 0⟩ ⟨.write, 0, 0, 0⟩ rfl
    (.inl rfl) ⟨rfl, rfl⟩ rfl).mpr fun _ => ⟨fun _ => by decide, nofun⟩⟩

/-- **Data without its command.** The read queue is full: the data of a write of the collector is
accepted and queued, its command is not. -/
theorem data_without_command :
    checkQueueWrite smallController (holding [⟨.read, 1, 0, 0⟩] []) ⟨.data, 0, 0, 0⟩ = true ∧
      ∃ t, addPacket smallController (holding [⟨.read, 1, 0, 0⟩] []) ⟨.data, 0, 0, 0⟩ =
          some (true, t) ∧
        addPacket smallController t ⟨.gcWrite, 0, 0, 0⟩ = some (false, t) :=
  ⟨rfl, _, rfl, rfl⟩

/-! ### The search for packets -/

/-- The state of `update` with scheduling: the package and the dies of it seen so far, whether a
write queue has been read in this cycle, and how often the loop was entered. -/
structure Search extends Controller where
  package : ℕ := 0
  dieCounter : ℕ := 0
  writeQueueHandled : Bool := false
  turns : ℕ := 0

namespace Search

variable (cfg : ControllerConfig) (s : Search)

/-- The die that the package looks at. -/
def die : ℕ := s.diePointers s.package

def readQueue : List ChannelPacket := s.readQueues s.package s.die

def writeQueue : List ChannelPacket := s.writeQueues s.package s.die

/-- The search is over. -/
def Done : Prop := cfg.numPackages ≤ s.package

instance : Decidable (s.Done cfg) :=
  inferInstanceAs (Decidable (_ ≤ _))

/-- The die pointer goes to the next die. -/
def advance : Search :=
  { s with
    diePointers := update s.diePointers s.package
      (if cfg.diesPerPackage ≤ s.die + 1 then 0 else s.die + 1) }

/-- `done` ends the loop for a package. -/
def nextPackage : Search := { s with package := s.package + 1, dieCounter := 0 }

def nextDie : Search :=
  let t := s.advance cfg
  if cfg.diesPerPackage ≤ s.dieCounter + 1 then t.nextPackage
  else { t with dieCounter := s.dieCounter + 1 }

/-- A packet is put on the channel. -/
def send (p : ChannelPacket) : Search :=
  { s with outgoingPackets := update s.outgoingPackets s.package (some p) }

def popRead : Search :=
  { s with readQueues := setQueue s.readQueues s.package s.die s.readQueue.tail }

def popWrite : Search :=
  { s with writeQueues := setQueue s.writeQueues s.package s.die s.writeQueue.tail }

/-- The first packet of the write queue is sent if the channel can be had; after a write that
nothing forces, the die pointer goes on twice. -/
def sendWrite (obtained forced : Bool) (s : Search) : Search :=
  match s.writeQueue, s.outgoingPackets s.package with
  | p :: _, none =>
    if obtained then
      let t := ((s.send p).popWrite).advance cfg
      (if forced then t else t.advance cfg).nextPackage
    else s.nextDie cfg
  | _, _ => s.nextDie cfg

/-- A read that is first in its queue: it may be answered from the write queue, which takes some
cycles, and is sent otherwise. -/
def serveRead (obtained : Bool) (s : Search) (r : ChannelPacket) : Search :=
  if s.queueAccessCounter = 0 ∧ r.isGC = false ∧ s.writeQueue ≠ [] then
    -- the statement that would end the loop stands after the `break`
    if s.writeQueue.any (·.virtualAddress = r.virtualAddress) then
      { s with queueAccessCounter := cfg.queueAccessCycles, writeQueueHandled := true }
    else s
  else if 0 < s.queueAccessCounter then
    let t := { s with
      queueAccessCounter := s.queueAccessCounter - 1, writeQueueHandled := true }
    if t.queueAccessCounter = 0 then (t.popRead.advance cfg).nextPackage else t
  else if s.writeQueueHandled = false then
    if obtained then (((s.send r).popRead).advance cfg).nextPackage else s.nextDie cfg
  else s

/-- The queue is long enough to send a write before the reads. -/
def WriteForced : Prop :=
  cfg.ctrlWriteOnQueueSize = true ∧ cfg.ctrlWriteQueueLimit ≤ s.writeQueue.length

instance : Decidable (s.WriteForced cfg) :=
  inferInstanceAs (Decidable (_ ∧ _))

/-- The loop of `update` is entered once; `obtains` says which attempts get the channel. -/
def turn (obtains : ℕ → Bool) (s : Search) : Search :=
  if s.Done cfg then s
  else
    let t := { s with turns := s.turns + 1 }
    if s.WriteForced cfg then t.sendWrite cfg (obtains s.turns) true
    else
      match s.readQueue, s.outgoingPackets s.package with
      | r :: _, none => t.serveRead cfg (obtains s.turns) r
      | _, _ =>
        if cfg.ctrlIdleWrite then t.sendWrite cfg (obtains s.turns) false else t.nextDie cfg

/-- A read that is neither answered nor sent: none of the writes that it waits for is for its
address (or the answer takes no cycles), or a write queue has been read before in this cycle. -/
def Waits (r : ChannelPacket) : Prop :=
  s.queueAccessCounter = 0 ∧
    if r.isGC = false ∧ s.writeQueue ≠ [] then
      (∀ w ∈ s.writeQueue, w.virtualAddress ≠ r.virtualAddress) ∨ cfg.queueAccessCycles = 0
    else s.writeQueueHandled = true

/-- The search is at such a read. -/
def Stuck : Prop :=
  ¬ s.Done cfg ∧ ¬ s.WriteForced cfg ∧ s.outgoingPackets s.package = none ∧
    ∃ r ∈ s.readQueue.head?, s.Waits cfg r

/-! How far the search is. -/

variable {cfg s} {obtains : ℕ → Bool} {t : Search}

/-- The number of dies that the search has passed, with one more for each package. -/
def place (cfg : ControllerConfig) (s : Search) : ℕ :=
  s.package * (cfg.diesPerPackage + 1) + s.dieCounter

/-- A turn that gets on goes to another die or package, starts an answer from a write queue or
counts its cycles. -/
inductive Progress (cfg : ControllerConfig) (s t : Search) : Prop
  | moves (hplace : s.place cfg < t.place cfg) (hdies : t.dieCounter ≤ cfg.diesPerPackage)
      (hcount : t.queueAccessCounter ≤ s.queueAccessCounter)
  | answers (hplace : t.place cfg = s.place cfg) (hdies : t.dieCounter = s.dieCounter)
      (hzero : s.queueAccessCounter = 0) (hpos : 0 < t.queueAccessCounter)
      (hcycles : t.queueAccessCounter = cfg.queueAccessCycles)
  | counts (hplace : t.place cfg = s.place cfg) (hdies : t.dieCounter = s.dieCounter)
      (hpos : 0 < t.queueAccessCounter) (hless : t.queueAccessCounter < s.queueAccessCounter)

section Progress

variable (hdies : s.dieCounter ≤ cfg.diesPerPackage)

include hdies

theorem progress_nextPackage (hpackage : t.package = s.package)
    (hcount : t.queueAccessCounter ≤ s.queueAccessCounter) :
    Progress cfg s t.nextPackage := by
  refine .moves ?_ (Nat.zero_le _) hcount
  have hplace : t.nextPackage.place cfg = s.package * (cfg.diesPerPackage + 1) +
      (cfg.diesPerPackage + 1) := by
    rw [place, nextPackage, hpackage, Nat.add_zero, Nat.succ_mul]
  rw [hplace, place]
  omega

theorem progress_nextDie (hpackage : t.package = s.package) (hcounter : t.dieCounter = s.dieCounter)
    (hcount : t.queueAccessCounter ≤ s.queueAccessCounter) : Progress cfg s (t.nextDie cfg) := by
  rw [nextDie]
  split
  · exact progress_nextPackage hdies hpackage hcount
  · next hmore =>
    refine .moves ?_ (Nat.le_of_not_le hmore) hcount
    change _ < t.package * _ + (t.dieCounter + 1)
    rw [hpackage, hcounter, place]
    exact Nat.lt_succ_self _

theorem progress_sendWrite {obtained forced : Bool} (hpackage : t.package = s.package)
    (hcounter : t.dieCounter = s.dieCounter)
    (hcount : t.queueAccessCounter ≤ s.queueAccessCounter) :
    Progress cfg s (t.sendWrite cfg obtained forced) := by
  rw [sendWrite]
  split
  · split
    · refine progress_nextPackage hdies ?_ ?_
      · split <;> exact hpackage
      · split <;> exact hcount
    · exact progress_nextDie hdies hpackage hcounter hcount
  · exact progress_nextDie hdies hpackage hcounter hcount

theorem progress_serveRead {obtained : Bool} {r : ChannelPacket} (n : ℕ)
    (hwaits : ¬ s.Waits cfg r) :
    Progress cfg s ({ s with turns := n }.serveRead cfg obtained r) := by
  rw [Waits] at hwaits
  rw [serveRead]
  split
  · next hask =>
    obtain ⟨(hzero : s.queueAccessCounter = 0), hgc, (hqueue : s.writeQueue ≠ [])⟩ := hask
    rw [if_pos ⟨hgc, hqueue⟩, not_and, not_or] at hwaits
    obtain ⟨hmatch, hcycles⟩ := hwaits hzero
    have hany : s.writeQueue.any (·.virtualAddress = r.virtualAddress) = true := by
      simpa using hmatch
    exact (if_pos hany).symm ▸ .answers rfl rfl hzero (Nat.pos_of_ne_zero hcycles) rfl
  · next hask =>
    change ¬ (s.queueAccessCounter = 0 ∧ _ ∧ s.writeQueue ≠ []) at hask
    rcases Nat.eq_zero_or_pos s.queueAccessCounter with hzero | hpos
    · -- the read goes to the channel
      rw [if_neg fun hgc => hask ⟨hzero, hgc⟩, not_and] at hwaits
      rw [if_neg (Nat.not_lt.mpr (Nat.le_of_eq hzero)),
        if_pos ((Bool.not_eq_true _).mp (hwaits hzero))]
      split
      · exact progress_nextPackage hdies rfl (Nat.le_refl _)
      · exact progress_nextDie hdies rfl rfl (Nat.le_refl _)
    · rw [if_pos hpos]
      have hless : s.queueAccessCounter - 1 < s.queueAccessCounter := Nat.sub_one_lt_of_lt hpos
      dsimp only
      split
      · exact progress_nextPackage hdies rfl (Nat.le_of_lt hless)
      · next hmore => exact .counts rfl rfl (Nat.pos_of_ne_zero hmore) hless

/-- **One turn.** A search that is neither over nor stuck gets on. -/
theorem progress_turn (hdone : ¬ s.Done cfg) (hstuck : ¬ s.Stuck cfg) :
    Progress cfg s (s.turn cfg obtains) := by
  rw [turn, if_neg hdone]
  by_cases hforced : s.WriteForced cfg
  · rw [if_pos hforced]
    exact progress_sendWrite hdies rfl rfl (Nat.le_refl _)
  rw [if_neg hforced]
  split
  · next r rest hread hout =>
    have hreads : r ∈ s.readQueue.head? := by rw [hread]; rfl
    exact progress_serveRead hdies _ fun hwaits =>
      hstuck ⟨hdone, hforced, hout, r, hreads, hwaits⟩
  · split
    · exact progress_sendWrite hdies rfl rfl (Nat.le_refl _)
    · exact progress_nextDie hdies rfl rfl (Nat.le_refl _)

end Progress

/-- A search that is stuck stays so: a turn changes the number of turns, and possibly remembers
that a write queue was read. -/
theorem stuck_turn (h : s.Stuck cfg) : (s.turn cfg obtains).Stuck cfg := by
  obtain ⟨hdone, hforced, hout, r, hr, hzero, hwaits⟩ := h
  obtain ⟨rest, hread⟩ := List.head?_eq_some_iff.mp hr
  have hturn : s.turn cfg obtains =
      { s with turns := s.turns + 1 }.serveRead cfg (obtains s.turns) r := by
    rw [turn, if_neg hdone, if_neg hforced]
    simp only [hread, hout]
  rw [hturn, serveRead]
  by_cases hask : r.isGC = false ∧ s.writeQueue ≠ []
  · rw [if_pos ⟨hzero, hask⟩]
    rw [if_pos hask] at hwaits
    split
    · next hany =>
      -- the answer takes no cycles, and is sought again
      have hcycles : cfg.queueAccessCycles = 0 := by
        obtain ⟨w, hw, heq⟩ := List.any_eq_true.mp hany
        exact hwaits.resolve_left fun hnone => hnone w hw (of_decide_eq_true heq)
      exact ⟨hdone, hforced, hout, r, hr, hcycles, (if_pos hask).mpr (.inr hcycles)⟩
    · exact ⟨hdone, hforced, hout, r, hr, hzero, (if_pos hask).mpr hwaits⟩
  · rw [if_neg hask] at hwaits
    rw [if_neg fun h => hask h.2, if_neg (Nat.not_lt.mpr (Nat.le_of_eq hzero)),
      if_neg (Bool.not_eq_false _ ▸ hwaits)]
    exact ⟨hdone, hforced, hout, r, hr, hzero, (if_neg hask).mpr hwaits⟩

/-- The turns that are left, at most: at each place an answer may be started and counted. -/
def turnsLeft (cfg : ControllerConfig) (cycles : ℕ) (s : Search) : ℕ :=
  (cfg.numPackages * (cfg.diesPerPackage + 1) - s.place cfg) * (cycles + 2) +
    if s.queueAccessCounter = 0 then cycles + 1 else s.queueAccessCounter

theorem turnsLeft_lt_of_progress {cycles : ℕ} (hdone : ¬ s.Done cfg)
    (hdies : s.dieCounter ≤ cfg.diesPerPackage) (hs : s.queueAccessCounter ≤ cycles)
    (hcycles : cfg.queueAccessCycles ≤ cycles) (h : Progress cfg s t) :
    (t.dieCounter ≤ cfg.diesPerPackage ∧ t.queueAccessCounter ≤ cycles) ∧
      t.turnsLeft cfg cycles < s.turnsLeft cfg cycles := by
  rw [turnsLeft, turnsLeft]
  cases h with
  | moves hplace hdies' hcount =>
    refine ⟨⟨hdies', Nat.le_trans hcount hs⟩, ?_⟩
    -- the search was not at the end, so that one place less is left
    have hpackage : (s.package + 1) * (cfg.diesPerPackage + 1) ≤
        cfg.numPackages * (cfg.diesPerPackage + 1) :=
      Nat.mul_le_mul_right _ (Nat.lt_of_not_le hdone)
    have hless : cfg.numPackages * (cfg.diesPerPackage + 1) - t.place cfg + 1 ≤
        cfg.numPackages * (cfg.diesPerPackage + 1) - s.place cfg := by
      rw [Nat.succ_mul] at hpackage
      have hsplace : s.place cfg = s.package * (cfg.diesPerPackage + 1) + s.dieCounter := rfl
      omega
    have hmul := Nat.mul_le_mul_right (cycles + 2) hless
    rw [Nat.succ_mul] at hmul
    split_ifs <;> omega
  | answers hplace hdies' hzero hpos hcycles' =>
    refine ⟨⟨hdies' ▸ hdies, hcycles' ▸ hcycles⟩, ?_⟩
    rw [hplace, if_pos hzero, if_neg (Nat.ne_of_gt hpos), hcycles']
    exact Nat.add_lt_add_left (Nat.lt_succ_of_le hcycles) _
  | counts hplace hdies' hpos hless =>
    refine ⟨⟨hdies' ▸ hdies, Nat.le_trans (Nat.le_of_lt hless) hs⟩, ?_⟩
    rw [hplace, if_neg (Nat.ne_of_gt hpos), if_neg (Nat.ne_of_gt (Nat.lt_of_le_of_lt
      (Nat.zero_le _) hless))]
    exact Nat.add_lt_add_left hless _

end Search

/-- The cycles that an answer can take, at most. -/
def maxCycles (cfg : ControllerConfig) (s : Controller) : ℕ :=
  max s.queueAccessCounter cfg.queueAccessCycles

/-- The search of `update` after a number of turns. -/
def search (cfg : ControllerConfig) (obtains : ℕ → Bool) (s : Controller) (n : ℕ) : Search :=
  (Search.turn cfg obtains)^[n] { toController := s }

/-- **The search for packets.** With scheduling, `update` ends if and only if the search never
comes to a read that it neither answers nor sends; it then takes a bounded number of turns. -/
theorem update_ends_iff (cfg : ControllerConfig) (obtains : ℕ → Bool) (s : Controller) :
    ((∃ n, (search cfg obtains s n).Done cfg) ↔ ∀ n, ¬ (search cfg obtains s n).Stuck cfg) ∧
      ((∀ n, ¬ (search cfg obtains s n).Stuck cfg) →
        (search cfg obtains s (Search.turnsLeft cfg (maxCycles cfg s) { toController := s })).Done
          cfg) :=
  iterate_done_iff (I := fun u => u.dieCounter ≤ cfg.diesPerPackage ∧
      u.queueAccessCounter ≤ maxCycles cfg s) _
    (fun _ hu => if_pos hu) (fun _ hu => ⟨hu.1, Search.stuck_turn hu⟩)
    (fun _ hu hdone hstuck => Search.turnsLeft_lt_of_progress hdone hu.1 hu.2
      (Nat.le_max_right ..) (Search.progress_turn hu.1 hdone hstuck))
    ⟨Nat.zero_le _, Nat.le_max_left ..⟩

theorem stuck_search {cfg : ControllerConfig} {s : Controller}
    (h : Search.Stuck cfg { toController := s }) (obtains : ℕ → Bool) (n : ℕ) :
    (search cfg obtains s n).Stuck cfg := by
  induction n with
  | zero => exact h
  | succ n ih =>
    rw [search, iterate_succ_apply']
    exact Search.stuck_turn ih

/-- **A search without end.** The die has a read, and a write for another address. -/
theorem update_hangs : ¬ ∃ obtains n,
    (search smallController obtains (holding [⟨.read, 1, 0, 0⟩] [⟨.write, 0, 0, 0⟩]) n).Done
      smallController := by
  rintro ⟨obtains, n, hdone⟩
  refine (stuck_search ⟨by decide, by decide, rfl, ⟨.read, 1, 0, 0⟩, rfl, rfl, ?_⟩ obtains n).1
    hdone
  rw [if_pos ⟨rfl, List.cons_ne_nil _ _⟩]
  exact .inl (by decide)

end Controller

end HybridMemory.NVDIMMSim

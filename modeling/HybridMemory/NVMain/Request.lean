import Mathlib

/-!
# Requests to the memory devices

What the three levels of a memory device share: a rank (`StandardRank`) over banks
(`DDR3Bank`) over subarrays (`SubArray`). This module has the requests, the parameters, the
record of what the levels answer, and the programming of the cells by a write.

Cycles are natural numbers. A sum of the current cycle and configured times is taken to stay
below `2 ^ 64`; a difference, a product with the number of bursts, or a sum with the
remaining time of a paused write is reduced to 64 bits by `ncycle`, as `ncycle_t` does.

Energy and statistics are left out. What a data encoder, an endurance model and the random
number of write pulses contribute to a delay are members of the request.
-/

namespace HybridMemory.NVMain.CommandPath

/-- The value of type `ncycle_t` of an integer expression. -/
def ncycle (x : ℤ) : ℕ := (x % 2 ^ 64).toNat

/-- The types of requests. -/
inductive OpType
  | nop
  | activate
  | read
  | readPrecharge
  | write
  | writePrecharge
  | precharge
  | prechargeAll
  | powerdownPDA
  | powerdownPDPF
  | powerdownPDPS
  | powerup
  | refresh
  | busRead
  | busWrite
  | cachedRead
  | cachedWrite
  | migration
  deriving DecidableEq

variable {n m : ℕ}

/-- The objects on the way of a command, in a rank of `n` banks of `m` subarrays each.
`controller` stands for everything above the rank. -/
inductive NVMObject (n m : ℕ)
  | controller
  | rank
  | bank (b : Fin n)
  | subArray (b : Fin n) (a : Fin m)
  deriving DecidableEq

/-- A request. Its address is translated already: the decoders of the rank and of the bank
select the child by the members `bank` and `subarray`, which name children that exist, so the
checks of the rank against `bankCount` cannot fail. -/
structure NVMainRequest (n m : ℕ) where
  /-- The identity of the object; a copy made on the way down has none. -/
  id : Option ℕ
  type : OpType
  row : ℕ := 0
  bank : Fin n
  subarray : Fin m
  owner : NVMObject n m := .controller
  /-- The words of `data.rawData`, if there are any. -/
  rawData : Option (List UInt32) := none
  /-- The flag `FLAG_CANCELLED`. -/
  cancelled : Bool := false
  /-- The flag `FLAG_PAUSED`. -/
  paused : Bool := false
  /-- The flag `FLAG_FORCED`. -/
  forced : Bool := false
  /-- The flag `FLAG_PRIORITY`. -/
  priority : Bool := false
  burstCount : ℕ := 1
  writeProgress : ℕ := 0
  cancellations : ℕ := 0
  /-- The delay that the data encoder adds to a read of this request. -/
  decLat : ℤ := 0
  /-- The delay that the data encoder adds to a write of this request. -/
  encLat : ℕ := 0
  /-- The delay that the endurance model adds to a write of this request. -/
  endrLat : ℕ := 0
  /-- The number of pulses drawn from the normal distribution. -/
  pulses : ℕ := 0
  deriving DecidableEq

/-- A new request with the contents of `r` assigned to it. The assignment leaves out the
flags, the number of bursts, the progress and the cancellations. -/
def NVMainRequest.copy (r : NVMainRequest n m) : NVMainRequest n m :=
  { r with
    id := none
    cancelled := false, paused := false, forced := false, priority := false
    burstCount := 1, writeProgress := 0, cancellations := 0 }

/-- An event in the queue that calls `RequestComplete` of the object that holds it. -/
structure Response (n m : ℕ) where
  cycle : ℕ
  request : NVMainRequest n m
  deriving DecidableEq

/-! ### Parameters -/

/-- When the row buffer is written to the cells. -/
inductive WriteMode
  | writeBack
  | writeThrough
  | delayedWrite
  deriving DecidableEq

/-- The order of the pulses that program a multi-level cell. -/
inductive ProgramMode
  | srms
  | ssmr
  deriving DecidableEq

/-- When a write may be paused. -/
inductive PauseMode
  | normal
  | iiwc
  | optimal
  deriving DecidableEq

/-- The parameters that the command path reads, with the values of the constructor of
`Params`. -/
structure Params where
  tAL : ℕ := 0
  tBURST : ℕ := 4
  tCAS : ℕ := 10
  tCCD : ℕ := 4
  tCMD : ℕ := 1
  tCWD : ℕ := 7
  tRAW : ℕ := 20
  tOST : ℕ := 1
  tPD : ℕ := 6
  tRAS : ℕ := 24
  tRCD : ℕ := 9
  tRFC : ℕ := 107
  tRP : ℕ := 9
  tRRDR : ℕ := 5
  tRTP : ℕ := 5
  tRTRS : ℕ := 1
  tWP : ℕ := 0
  tWR : ℕ := 10
  tWTR : ℕ := 5
  tXP : ℕ := 6
  tXPDLL : ℕ := 17
  tRDPDEN : ℕ := 24
  tWRPDEN : ℕ := 19
  tWP0 : ℕ := 40
  tWP1 : ℕ := 60
  nWP00 : ℕ := 0
  nWP01 : ℕ := 7
  nWP10 : ℕ := 5
  nWP11 : ℕ := 1
  wpMaxVariance : ℕ := 2
  rows : ℕ := 65536
  rate : ℕ := 2
  busWidth : ℕ := 64
  raw : ℕ := 4
  banksPerRefresh : ℕ := 8
  mlcLevels : ℕ := 1
  maxCancellations : ℕ := 4
  initPD : Bool := false
  usePrecharge : Bool := true
  uniformWrites : Bool := true
  writePausing : Bool := false
  writeMode : WriteMode := .writeThrough
  programMode : ProgramMode := .srms
  pauseMode : PauseMode := .normal
  /-- The comparison of the part of a write that is done with `PauseThreshold`, given the
  remaining time and the whole time of the write. -/
  exceedsPauseThreshold : ℕ → ℕ → Bool :=
    fun writeProgress writeTimer => decide (5 * writeProgress < 3 * writeTimer)
  /-- Whether the build leaves out the assertions. -/
  ndebug : Bool := true
  /-- The assertion of `SetConfig` on the number of activations of a window. -/
  raw_pos : 0 < raw := by decide

namespace Params

/-- The parameters with the values of their constructor. -/
def defaults : Params := {}

/-- The time between two bursts. -/
def burst (p : Params) : ℕ := max p.tBURST p.tCCD

/-- The time that all bursts of a request but the last one take. -/
def leadingBursts (p : Params) (r : NVMainRequest n m) : ℤ := p.burst * ((r.burstCount : ℤ) - 1)

/-- The mean number of write pulses, rounded. -/
def averageWriteIterations (p : Params) : ℕ := (p.nWP00 + p.nWP01 + p.nWP10 + p.nWP11 + 2) / 4

end Params

/-! ### Answers -/

/-- The checks by which a level refuses a command. -/
inductive Rejection
  /-- `IssueCommand` found the command not issuable. -/
  | notIssuable
  /-- A command that violates a timing constraint. -/
  | timing
  /-- A command that does not fit the state of the level. -/
  | state
  /-- A row other than the open one. -/
  | row
  /-- The level below returned false. -/
  | child
  /-- A command that the level does not know. -/
  | unknown
  deriving DecidableEq

/-- A call of `IssueCommand`: the object, the value it returned, and the checks of its own
that refused the command. -/
structure Call (n m : ℕ) where
  object : NVMObject n m
  rv : Bool
  rejections : List Rejection
  deriving DecidableEq

/-- A call that returned true and was refused by no check. -/
def Call.ok (o : NVMObject n m) : Call n m := ⟨o, true, []⟩

/-- The outcome of a command at a level: the object it leaves, the value returned, the
checks of this level that refused it, and the calls made on levels below. -/
structure Reply (n m : ℕ) (σ : Type) where
  object : σ
  rv : Bool
  rejections : List Rejection := []
  calls : List (Call n m) := []
  deriving Inhabited

namespace Reply

variable {σ : Type}

/-- The command is carried out without a call on a level below. -/
def accept (x : σ) : Reply n m σ := { object := x, rv := true }

/-- The command is carried out, with the given calls on levels below. -/
def success (x : σ) (calls : List (Call n m)) : Reply n m σ :=
  { object := x, rv := true, calls := calls }

/-- A check refuses the command. -/
def reject (x : σ) (c : Rejection) : Reply n m σ :=
  { object := x, rv := false, rejections := [c] }

/-- All calls of `IssueCommand` that a call on the object `self` makes, itself included. -/
def log (self : NVMObject n m) (reply : Reply n m σ) : List (Call n m) :=
  reply.calls ++ [⟨self, reply.rv, reply.rejections⟩]

/-- The reply of the object `self` as the level above receives it. -/
def relay (self : NVMObject n m) (reply : Reply n m σ) : Reply n m σ :=
  { object := reply.object, rv := reply.rv, calls := reply.log self }

end Reply

/-! ### Programming the cells -/

/-- `Count32MLC1`: the number of ones. -/
def count32MLC1 (data : UInt32) : ℕ :=
  let count : UInt32 := data - ((data >>> 1) &&& (0x55555555 : UInt32))
  let count : UInt32 := (count &&& (0x33333333 : UInt32))
    + ((count >>> 2) &&& (0x33333333 : UInt32))
  let count : UInt32 :=
    (((count + (count >>> 4)) &&& (0x0f0f0f0f : UInt32)) * (0x01010101 : UInt32)) >>> 24
  count.toNat

/-- `CountBitsMLC1`. -/
def countBitsMLC1 (value : ℕ) (data : List UInt32) (words : ℕ) : ℕ :=
  let count := ((List.range words).map fun i => count32MLC1 (data.getD i 0)).sum
  if value = 1 then count else words * 32 - count

/-- `Count32MLC2`: the number of pairs of bits equal to `value`. -/
def count32MLC2 (value : ℕ) (data : UInt32) : ℕ :=
  let data : UInt32 :=
    if value = 0 then data ^^^ (0xFFFFFFFF : UInt32)
    else if value = 1 then data ^^^ (0xAAAAAAAA : UInt32)
    else if value = 2 then data ^^^ (0x55555555 : UInt32)
    else data
  count32MLC1 ((data &&& (0x55555555 : UInt32)) &&& ((data &&& (0xAAAAAAAA : UInt32)) >>> 1))

/-- `CountBitsMLC2`. -/
def countBitsMLC2 (value : ℕ) (data : List UInt32) (words : ℕ) : ℕ :=
  ((List.range words).map fun i => count32MLC2 value (data.getD i 0)).sum

namespace Params

/-- The number of bits of a burst. -/
def memoryWordSize (p : Params) : ℕ := p.tBURST * p.rate * p.busWidth

/-- How often a pair of bits occurs in a burst. -/
def pairs (p : Params) (value : ℕ) (rawData : List UInt32) : ℕ :=
  countBitsMLC2 value rawData (p.memoryWordSize / 32)

/-- The largest mean number of pulses among the pairs that occur. -/
def programPulseCount (p : Params) (rawData : List UInt32) : ℕ :=
  let delay (value pulses : ℕ) : ℕ := if p.pairs value rawData = 0 then 0 else pulses
  max (max (delay 0 p.nWP00) (delay 1 p.nWP01)) (max (delay 2 p.nWP10) (delay 3 p.nWP11))

/-- The pulses that program cells of two bits: the time of the first pulse, and the number
and the time of the others. There is no answer for data that holds 00 and 11 and no other
pair, where the source has `assert(false)`; without assertions the time is zero. -/
def pulses (p : Params) (drawn : ℕ) (rawData : List UInt32) : Option (ℕ × ℕ × ℕ) :=
  if p.pairs 1 rawData ≠ 0 ∨ p.pairs 2 rawData ≠ 0 then
    let maxPulseCount := p.programPulseCount rawData + p.wpMaxVariance
    let minPulseCount := p.programPulseCount rawData - p.wpMaxVariance
    let thisPulseCount := max (min drawn maxPulseCount) minPulseCount
    match p.programMode with
    | .srms => some (p.tWP0, thisPulseCount, p.tWP1)
    | .ssmr => some (p.tWP1, thisPulseCount, p.tWP0)
  else if p.pairs 0 rawData ≠ 0 ∧ p.pairs 3 rawData = 0 then some (p.tWP0, 0, 0)
  else if p.pairs 0 rawData = 0 ∧ p.pairs 3 rawData ≠ 0 then some (p.tWP1, 0, 0)
  else if p.ndebug then some (0, 0, 0)
  else none

/-- `WriteCellData2`: the time it takes to program the cells, and the cycles at which an
iteration starts; no value if an assertion fails. -/
def writeCellData (p : Params) (now : ℕ) (r : NVMainRequest n m) : Option (ℕ × List ℕ) :=
  if p.uniformWrites then
    some (p.tWP, if 1 < p.mlcLevels then
      (List.range p.averageWriteIterations).map fun iter =>
        now + iter * (p.tWP / p.averageWriteIterations)
      else [])
  else
    match r.rawData with
    | none => some (p.tWP0, [])
    | some rawData =>
      if p.mlcLevels = 1 then
        let count (value : ℕ) := countBitsMLC1 value rawData (p.memoryWordSize / 32)
        let delay0 := if count 0 = 0 then 0 else p.tWP0
        let delay1 := if count 1 = 0 then 0 else p.tWP1
        some (max delay0 delay1, [])
      else if p.mlcLevels = 2 then
        if p.ndebug ∨ p.pairs 0 rawData + p.pairs 1 rawData + p.pairs 2 rawData
            + p.pairs 3 rawData = p.memoryWordSize / 2 then
          (p.pulses r.pulses rawData).map fun (oncePulseDelay, count, repeatPulseDelay) =>
            (oncePulseDelay + count * repeatPulseDelay,
              now :: (List.range count).map fun iter =>
                now + oncePulseDelay + iter * repeatPulseDelay)
        else none
      else some (0, [])

/-- What the assertions of `WriteCellData2` ask of the data of a request: in cells of two
bits that are not written uniformly, all pairs are counted, and they are not just 00 and
11. -/
def Programmable (p : Params) (r : NVMainRequest n m) : Prop :=
  p.ndebug = false → p.uniformWrites = false → p.mlcLevels = 2 → ∀ rawData ∈ r.rawData,
    p.pairs 0 rawData + p.pairs 1 rawData + p.pairs 2 rawData + p.pairs 3 rawData =
      p.memoryWordSize / 2 ∧
    (p.pairs 1 rawData ≠ 0 ∨ p.pairs 2 rawData ≠ 0 ∨
      (p.pairs 0 rawData = 0 ↔ p.pairs 3 rawData ≠ 0))

instance (p : Params) (r : NVMainRequest n m) : Decidable (p.Programmable r) :=
  inferInstanceAs (Decidable (_ → _ → _ → ∀ rawData ∈ r.rawData, _))

theorem isSome_pulses_iff (p : Params) (drawn : ℕ) (rawData : List UInt32) :
    (p.pulses drawn rawData).isSome ↔ p.ndebug ∨ p.pairs 1 rawData ≠ 0 ∨
      p.pairs 2 rawData ≠ 0 ∨ (p.pairs 0 rawData = 0 ↔ p.pairs 3 rawData ≠ 0) := by
  simp only [pulses]
  split_ifs with hmixed hzeros hones hndebug
  · have hsome : p.ndebug = true ∨ p.pairs 1 rawData ≠ 0 ∨ p.pairs 2 rawData ≠ 0 ∨
        (p.pairs 0 rawData = 0 ↔ p.pairs 3 rawData ≠ 0) := by
      rcases hmixed with h | h
      · exact Or.inr (Or.inl h)
      · exact Or.inr (Or.inr (Or.inl h))
    cases p.programMode <;> exact ⟨fun _ => hsome, fun _ => rfl⟩
  · simp [hzeros]
  · simp [hones]
  · simp [hndebug]
  · obtain ⟨h1, h2⟩ := not_or.mp hmixed
    -- with 01 and 10 absent, the two failed tests leave both or neither of 00 and 11
    refine ⟨fun h => absurd h (by simp), fun h => ?_⟩
    rcases h with h | h | h | h
    · exact absurd h hndebug
    · exact absurd h h1
    · exact absurd h h2
    · by_cases h0 : p.pairs 0 rawData = 0
      · exact absurd ⟨h0, h.mp h0⟩ hones
      · exact absurd ⟨h0, not_not.mp (mt h.mpr h0)⟩ hzeros

/-- `WriteCellData2` returns exactly for the data that its assertions allow. -/
theorem isSome_writeCellData_iff (p : Params) (now : ℕ) (r : NVMainRequest n m) :
    (p.writeCellData now r).isSome ↔ p.Programmable r := by
  simp only [writeCellData, Programmable]
  by_cases huniform : p.uniformWrites = true
  · simp [huniform]
  rcases hdata : r.rawData with _ | rawData
  · simp [huniform]
  by_cases htwo : p.mlcLevels = 2
  · by_cases hndebug : p.ndebug = true
    · simp [htwo, hndebug, huniform, isSome_pulses_iff]
    · by_cases hsum : p.pairs 0 rawData + p.pairs 1 rawData + p.pairs 2 rawData
          + p.pairs 3 rawData = p.memoryWordSize / 2
      · simp [htwo, hndebug, huniform, hsum, isSome_pulses_iff]
      · simp [htwo, hndebug, huniform, hsum]
  · by_cases hone : p.mlcLevels = 1 <;> simp [huniform, htwo, hone]

end Params

end HybridMemory.NVMain.CommandPath

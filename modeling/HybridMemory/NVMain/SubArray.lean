import HybridMemory.NVMain.Request

/-!
# Subarrays

A `SubArray` opens a row into its row buffer, reads and writes the open row, and closes it
again. Each command raises the bounds before which later commands are too early, and schedules
the completion of the request; precharges and refreshes end with their completion. A read or
an activation may pause a write that is under way, which gives the write back to the
controller and restores the bounds from before the write.

`isIssuable` tests a command against state and bounds, and the function of each command tests
it again, an activation and a read after the pause. The tests agree because a pause only
lowers the bounds, which is the invariant `Restorable`:

* `issueCommand_cases`: a command that is issuable is carried out, unless the cells cannot be
  programmed with its data;
* `precharging_of_issueCommand`, `not_rv_of_precharging`: a subarray that was precharged
  refuses to be precharged again.
-/

namespace HybridMemory.NVMain.CommandPath

variable {n m : ℕ}

/-! ### Bounds -/

/-- The cycles before which commands are too early. -/
structure Bounds where
  nextActivate : ℕ := 0
  nextPrecharge : ℕ := 0
  nextRead : ℕ := 0
  nextWrite : ℕ := 0
  nextPowerDown : ℕ := 0

namespace Bounds

instance : Preorder Bounds where
  le b c := b.nextActivate ≤ c.nextActivate ∧ b.nextPrecharge ≤ c.nextPrecharge ∧
    b.nextRead ≤ c.nextRead ∧ b.nextWrite ≤ c.nextWrite ∧ b.nextPowerDown ≤ c.nextPowerDown
  le_refl _ := ⟨le_rfl, le_rfl, le_rfl, le_rfl, le_rfl⟩
  le_trans _ _ _ h k := ⟨h.1.trans k.1, h.2.1.trans k.2.1, h.2.2.1.trans k.2.2.1,
    h.2.2.2.1.trans k.2.2.2.1, h.2.2.2.2.trans k.2.2.2.2⟩

theorem le_def {b c : Bounds} : b ≤ c ↔ b.nextActivate ≤ c.nextActivate ∧
    b.nextPrecharge ≤ c.nextPrecharge ∧ b.nextRead ≤ c.nextRead ∧
    b.nextWrite ≤ c.nextWrite ∧ b.nextPowerDown ≤ c.nextPowerDown := Iff.rfl

/-- The bounds that `Activate` sets. -/
def afterActivate (p : Params) (now : ℕ) (b : Bounds) : Bounds :=
  { b with
    nextPrecharge := max b.nextPrecharge (now + max p.tRCD p.tRAS)
    nextRead := max b.nextRead (ncycle (now + p.tRCD - p.tAL))
    nextWrite := max b.nextWrite (ncycle (now + p.tRCD - p.tAL))
    nextPowerDown := max b.nextPowerDown (now + max p.tRCD p.tRAS) }

/-- The bounds after a command with an implicit precharge that ends at the cycle `t`. -/
def blockUntil (t : ℕ) (b : Bounds) : Bounds :=
  let nextActivate := max b.nextActivate t
  { b with
    nextActivate := nextActivate
    nextPrecharge := max b.nextPrecharge nextActivate
    nextRead := max b.nextRead nextActivate
    nextWrite := max b.nextWrite nextActivate }

/-- The bounds that `Read` sets. -/
def afterRead (p : Params) (now : ℕ) (r : NVMainRequest n m) (b : Bounds) : Bounds :=
  let b :=
    if r.type = .readPrecharge then
      b.blockUntil (ncycle (now + p.leadingBursts r + p.tAL + p.tRTP + p.tRP + r.decLat))
    else
      { b with
        nextPrecharge := max b.nextPrecharge
          (ncycle (now + p.leadingBursts r + p.tAL + p.tBURST + p.tRTP - p.tCCD + r.decLat))
        nextRead := max b.nextRead (now + p.burst * r.burstCount)
        nextWrite := max b.nextWrite
          (ncycle (now + p.leadingBursts r + p.tCAS + p.tBURST + p.tRTRS - p.tCWD + r.decLat)) }
  { b with
    nextPowerDown := max b.nextPowerDown
      (ncycle (now + p.leadingBursts r + p.tCAS + p.tAL + p.tBURST + 1 + r.decLat)) }

/-- The bounds that `Write` sets for a write that takes the time `writeTimer`. -/
def afterWrite (p : Params) (now writeTimer : ℕ) (r : NVMainRequest n m) (b : Bounds) : Bounds :=
  let b :=
    if r.type = .writePrecharge then
      b.blockUntil (ncycle (now + p.leadingBursts r + p.tAL + p.tCWD + p.tBURST + writeTimer
        + p.tWR + p.tRP))
    else
      { b with
        nextPrecharge := max b.nextPrecharge
          (ncycle (now + p.leadingBursts r + p.tAL + p.tCWD + p.tBURST + writeTimer + p.tWR))
        nextRead := max b.nextRead
          (ncycle (now + p.leadingBursts r + p.tCWD + p.tBURST + p.tWTR + writeTimer))
        nextWrite := max b.nextWrite (ncycle (now + p.burst * r.burstCount + writeTimer)) }
  { b with nextPowerDown := max b.nextPowerDown b.nextPrecharge }

/-- The bounds after a command that keeps the rows closed until the cycle `t`. -/
def closeUntil (t : ℕ) (b : Bounds) : Bounds :=
  { b with nextActivate := max b.nextActivate t }

variable (p : Params) (now t : ℕ) (r : NVMainRequest n m) (b : Bounds)

theorem le_afterActivate : b ≤ b.afterActivate p now := by
  simp [le_def, afterActivate]

theorem le_afterRead : b ≤ b.afterRead p now r := by
  unfold afterRead
  split <;> simp [le_def, blockUntil]

theorem le_afterWrite : b ≤ b.afterWrite p now t r := by
  unfold afterWrite
  split <;> simp [le_def, blockUntil]

theorem le_closeUntil : b ≤ b.closeUntil t := by
  simp [le_def, closeUntil]

end Bounds

/-! ### State -/

/-- The states of a subarray. -/
inductive SubArrayState
  | opened
  | closed
  | precharging
  | refreshing
  deriving DecidableEq

/-- The data members of a subarray. -/
structure SubArray (n m : ℕ) extends Bounds where
  /-- The bounds from before the last write. -/
  preWrite : Bounds := {}
  state : SubArrayState := .closed
  openRow : ℕ := 0
  /-- The open row was written. -/
  writeCycle : Bool := false
  isWriting : Bool := false
  writeRequest : Option (NVMainRequest n m) := none
  /-- The event that completes the write, at the cycle `writeEventTime`. -/
  writeEvent : Option (Response n m) := none
  writeStart : ℕ := 0
  writeEnd : ℕ := 0
  writeIterationStarts : List ℕ := []
  writeBackRequests : List (NVMainRequest n m) := []
  /-- The events of this subarray that are in the event queue. -/
  responses : List (Response n m) := []

/-- The commands that a subarray carries out; the others stop at the levels above. -/
def OpType.reachesSubArray : OpType → Bool
  | activate | read | readPrecharge | write | writePrecharge | precharge | prechargeAll
  | refresh => true
  | _ => false

/-- The requests whose completion closes the row. -/
def OpType.closesRow : OpType → Bool
  | precharge | prechargeAll | refresh => true
  | _ => false

/-- The event ends a precharge or a refresh of the subarray `self`. -/
def Response.closes (self : NVMObject n m) (e : Response n m) : Bool :=
  decide (e.request.owner = self) && e.request.type.closesRow

namespace SubArray

instance : Inhabited (SubArray n m) := ⟨{}⟩

/-! ### Pausing a write -/

variable (p : Params) (now : ℕ) (self : NVMObject n m) (r : NVMainRequest n m) (a : SubArray n m)

/-- The start of the last iteration that began by now. -/
def nextIterationStart : ℕ :=
  ((a.writeIterationStarts.takeWhile (· ≤ now)).getLast?).getD a.writeStart

/-- The write that is under way as it goes back to the controller, paused or cancelled. -/
def pauseRequest (w : NVMainRequest n m) : NVMainRequest n m :=
  let start := if p.pauseMode = .optimal then now else a.nextIterationStart now
  let writeProgress := ncycle (a.writeEnd - start)
  let writeTimer := ncycle (a.writeEnd - a.writeStart)
  let w := { w with writeProgress := writeProgress }
  if p.exceedsPauseThreshold writeProgress writeTimer then
    if writeProgress ≠ a.writeEnd then { w with paused := true } else w
  else
    { w with
      cancelled := true
      cancellations := w.cancellations + 1
      forced := w.forced || decide (p.maxCancellations ≤ w.cancellations + 1) }

/-- `CheckWritePausing`. -/
def checkWritePausing : SubArray n m :=
  match a.writeRequest with
  | none => a
  | some w =>
    if p.writePausing ∧ a.isWriting then
      let w := a.pauseRequest p now w
      { a with
        -- the bounds go back to what they were before the write
        toBounds := a.preWrite
        writeRequest := some w
        writeEvent := none
        responses := (a.writeEvent.elim a.responses a.responses.erase) ++ [⟨now + 1, w⟩] }
    else a

/-! ### Commands -/

/-- The subarray after `Activate`. -/
def activated : SubArray n m :=
  { a with
    toBounds := a.afterActivate p now
    responses := a.responses ++ [⟨now + max p.tRCD p.tRAS, { r with owner := self }⟩]
    openRow := r.row
    state := .opened
    writeCycle := false }

/-- `Activate`. -/
def activate : Reply n m (SubArray n m) :=
  let a := a.checkWritePausing p now
  if now < a.nextActivate then .reject a .timing
  else if p.usePrecharge ∧ a.state ≠ .closed then .reject a .state
  else .accept (a.activated p now self r)

/-- The subarray after `Read`. -/
def readOut : SubArray n m :=
  let implicit : List (Response n m) :=
    if r.type = .readPrecharge then
      [⟨ncycle (now + p.tAL + p.tRTP + r.decLat + p.leadingBursts r),
        { r.copy with owner := self }⟩]
    else []
  let busReq := { r.copy with type := .busWrite, owner := self }
  { a with
    toBounds := a.afterRead p now r
    responses := a.responses ++ implicit ++
      [⟨ncycle (now + p.tCAS + r.decLat), busReq⟩,
        ⟨ncycle (now + p.tCAS + p.tBURST + r.decLat), r⟩] }

/-- `Read`. -/
def read : Reply n m (SubArray n m) :=
  let a := a.checkWritePausing p now
  if now < a.nextRead then .reject a .timing
  else if a.state ≠ .opened then .reject a .state
  else if r.row ≠ a.openRow then .reject a .row
  else .accept (a.readOut p now self r)

/-- The subarray after `Write`, if programming the cells takes the time `cellDelay`. -/
def written (cellDelay : ℕ) (writeIterationStarts : List ℕ) : SubArray n m :=
  -- a write that was paused resumes with the time that was left
  let writeTimer := if r.paused then r.writeProgress else cellDelay
  let r := { r with paused := false, cancelled := false }
  -- a further write to the row buffer is kept for the precharge
  let deferred := p.writeMode = .writeBack ∧ a.writeCycle
  let writeTimer := if deferred then 0 else writeTimer
  let r := if p.writeMode = .writeThrough then { r with writeProgress := writeTimer } else r
  let writeTimer :=
    if p.writeMode = .writeThrough then ncycle (writeTimer + r.encLat + r.endrLat) else writeTimer
  let implicit : List (Response n m) :=
    if r.type = .writePrecharge then
      [⟨ncycle (now + p.leadingBursts r + p.tAL + p.tCWD + p.tBURST + writeTimer + p.tWR),
        { r.copy with owner := self }⟩]
    else []
  let writeEvent : Response n m := ⟨ncycle (now + p.tCWD + p.burst * r.burstCount + writeTimer), r⟩
  let busReq := { r.copy with type := .busRead, owner := self }
  { a with
    toBounds := a.afterWrite p now writeTimer r
    preWrite := a.toBounds
    writeCycle := true
    isWriting := true
    writeRequest := some r
    writeEvent := some writeEvent
    writeStart := now
    writeEnd := ncycle (now + writeTimer)
    writeIterationStarts := writeIterationStarts
    writeBackRequests :=
      if deferred then a.writeBackRequests ++ [r.copy] else a.writeBackRequests
    responses := a.responses ++ implicit ++ [⟨now + p.tCWD, busReq⟩, writeEvent] }

/-- `Write`. It does not return if an assertion of `WriteCellData2` fails. -/
def write : Option (Reply n m (SubArray n m)) :=
  if now < a.nextWrite then some (.reject a .timing)
  else if a.state ≠ .opened then some (.reject a .state)
  else if r.row ≠ a.openRow then some (.reject a .row)
  else (p.writeCellData now r).map fun cells => .accept (a.written p now self r cells.1 cells.2)

/-- The row buffer is written to the cells when the row is closed. -/
def writesBack : Prop :=
  p.writeMode = .writeBack ∧ a.writeCycle

instance : Decidable (a.writesBack p) :=
  inferInstanceAs (Decidable (_ ∧ _))

/-- The subarray after a `Precharge` that takes the time `writeTimer`. -/
def precharging (now writeTimer : ℕ) (self : NVMObject n m) (r : NVMainRequest n m)
    (a : SubArray n m) : SubArray n m :=
  { a with
    toBounds := a.closeUntil (now + writeTimer)
    responses := a.responses ++ [⟨now + writeTimer, { r with owner := self }⟩]
    state := .precharging }

/-- `Precharge`. It does not return if an assertion of `WriteCellData2` fails. -/
def precharge : Option (Reply n m (SubArray n m)) :=
  if now < a.nextPrecharge then some (.reject a .timing)
  else if a.state ≠ .closed ∧ a.state ≠ .opened then some (.reject a .state)
  else if a.writesBack p then
    (p.writeCellData now r).map fun cells =>
      -- each write that was kept adds the latencies of its encoder and its endurance model
      let latency := (a.writeBackRequests.map fun w => w.encLat + w.endrLat).sum
      let a := { a with writeBackRequests := [], writeIterationStarts := cells.2 }
      .accept (a.precharging now (max 1 (p.tRP + cells.1) + latency) self r)
  else some (.accept (a.precharging now (max 1 p.tRP) self r))

/-- `Refresh`. -/
def refresh : Reply n m (SubArray n m) :=
  if now < a.nextActivate then .reject a .timing
  else if a.state ≠ .closed then .reject a .state
  else .accept { a with
    toBounds := a.closeUntil (now + p.tRFC)
    responses := a.responses ++ [⟨now + p.tRFC, { r with owner := self }⟩]
    state := .refreshing }

/-- The write under way may not be paused any more. -/
def forced : Bool := a.writeRequest.any fun w => w.forced

/-- `IsIssuable`. -/
def isIssuable : Bool :=
  match r.type with
  | .activate => decide ¬ (now < a.nextActivate ∨ (p.usePrecharge ∧ a.state ≠ .closed) ∨
      (p.writePausing ∧ a.isWriting ∧ a.forced) ∨ (p.writePausing ∧ a.isWriting ∧ ¬ r.priority))
  | .read | .readPrecharge => decide ¬ (now < a.nextRead ∨ a.state ≠ .opened ∨
      r.row ≠ a.openRow ∨ (p.writePausing ∧ a.isWriting ∧ a.forced))
  | .write | .writePrecharge => decide ¬ (now < a.nextWrite ∨ a.state ≠ .opened ∨
      r.row ≠ a.openRow)
  | .precharge | .prechargeAll => decide ¬ (now < a.nextPrecharge ∨
      (a.state ≠ .opened ∧ a.state ≠ .closed))
  | .powerdownPDA | .powerdownPDPF | .powerdownPDPS =>
    decide ¬ (now < a.nextPowerDown ∨ a.isWriting)
  | .powerup => true
  | .refresh => decide ¬ (now < a.nextActivate ∨ a.state ≠ .closed)
  | _ => false

/-- `NextIssuable`. The commands with an implicit precharge and `PRECHARGE_ALL` have no case. -/
def nextIssuable : ℕ :=
  match r.type with
  | .activate => a.nextActivate
  | .read => a.nextRead
  | .write => a.nextWrite
  | .precharge => a.nextPrecharge
  | _ => 0

/-- `IssueCommand`. A command without a case is reported, and true is returned. -/
def issueCommand : Option (Reply n m (SubArray n m)) :=
  if a.isIssuable p now r then
    match r.type with
    | .activate => some (a.activate p now self r)
    | .read | .readPrecharge => some (a.read p now self r)
    | .write | .writePrecharge => a.write p now self r
    | .precharge | .prechargeAll => a.precharge p now self r
    | .refresh => some (a.refresh p now self r)
    | _ => some { object := a, rv := true, rejections := [.unknown] }
  else some (.reject a .notIssuable)

/-- The request is the write under way. -/
def isWriteRequest : Bool :=
  r.id.isSome && a.writeRequest.any fun w => w.id = r.id

/-- `RequestComplete`: the subarray afterwards, and the request if it is handed on to the
level above. -/
def requestComplete : SubArray n m × Option (NVMainRequest n m) :=
  let a :=
    if (r.type = .write ∨ r.type = .writePrecharge) ∧ a.isWriteRequest r then
      { a with isWriting := false }
    else a
  if r.owner = self then
    match r.type with
    | .readPrecharge | .writePrecharge =>
      ({ a with
        state := .precharging
        responses := a.responses ++ [⟨now + p.tRP, { r with type := .precharge }⟩] }, none)
    | .precharge | .prechargeAll | .refresh =>
      ({ a with state := .closed, openRow := p.rows }, none)
    | _ => (a, none)
  else (a, some r)

/-- `Idle`. -/
def idle : Bool := decide (a.state = .closed ∨ a.state = .precharging)

/-! ### What is issuable is carried out -/

variable {p now self r a} {reply : Reply n m (SubArray n m)}

/-- A request that is issuable has reached its `NextIssuable`. -/
theorem nextIssuable_le (hi : a.isIssuable p now r) : a.nextIssuable r ≤ now := by
  rcases htype : r.type <;> simp only [nextIssuable, htype, Nat.zero_le]
  all_goals
    simp only [isIssuable, htype, decide_eq_true_eq, not_or, not_lt] at hi
    exact hi.1

/-- The bounds from before the last write are not above the current ones. -/
def Restorable (a : SubArray n m) : Prop := a.preWrite ≤ a.toBounds

/-- A pause lowers the bounds, if it changes them, and leaves the open row as it is. -/
theorem checkWritePausing_spec (p : Params) (now : ℕ) (ha : a.Restorable) :
    (a.checkWritePausing p now).Restorable ∧
      (a.checkWritePausing p now).toBounds ≤ a.toBounds ∧
      (a.checkWritePausing p now).state = a.state ∧
      (a.checkWritePausing p now).openRow = a.openRow := by
  unfold checkWritePausing
  split
  · exact ⟨ha, le_rfl, rfl, rfl⟩
  · split
    · exact ⟨le_refl a.preWrite, ha, rfl, rfl⟩
    · exact ⟨ha, le_rfl, rfl, rfl⟩

/-- An activation that is issuable is carried out, after the pause. -/
theorem activate_of_isIssuable (ha : a.Restorable) (hr : r.type = .activate)
    (hi : a.isIssuable p now r) :
    a.activate p now self r = .accept ((a.checkWritePausing p now).activated p now self r) := by
  obtain ⟨-, hle, hstate, -⟩ := checkWritePausing_spec p now ha
  simp only [isIssuable, hr, decide_eq_true_eq, not_or] at hi
  obtain ⟨htime, hclosed, -, -⟩ := hi
  simp only [activate]
  rw [if_neg (not_lt.mpr (hle.1.trans (not_lt.mp htime))), if_neg (by rwa [hstate])]

/-- A read that is issuable is carried out, after the pause. -/
theorem read_of_isIssuable (ha : a.Restorable) (hr : r.type = .read ∨ r.type = .readPrecharge)
    (hi : a.isIssuable p now r) :
    a.read p now self r = .accept ((a.checkWritePausing p now).readOut p now self r) := by
  obtain ⟨-, hle, hstate, hrow⟩ := checkWritePausing_spec p now ha
  have hi : ¬ now < a.nextRead ∧ ¬ a.state ≠ .opened ∧ ¬ r.row ≠ a.openRow := by
    rcases hr with hr | hr <;> simp only [isIssuable, hr, decide_eq_true_eq, not_or] at hi <;>
      exact ⟨hi.1, hi.2.1, hi.2.2.1⟩
  simp only [read]
  rw [if_neg (not_lt.mpr (hle.2.2.1.trans (not_lt.mp hi.1))), if_neg (by rw [hstate]; exact hi.2.1),
    if_neg (by rw [hrow]; exact hi.2.2)]

/-- The tests of `Write` are those of `IsIssuable`, so only the programming of the cells is
left. -/
theorem write_of_isIssuable (hr : r.type = .write ∨ r.type = .writePrecharge)
    (hi : a.isIssuable p now r) :
    a.write p now self r = (p.writeCellData now r).map fun cells =>
      .accept (a.written p now self r cells.1 cells.2) := by
  have hi : ¬ now < a.nextWrite ∧ ¬ a.state ≠ .opened ∧ ¬ r.row ≠ a.openRow := by
    rcases hr with hr | hr <;> simp only [isIssuable, hr, decide_eq_true_eq, not_or] at hi <;>
      exact hi
  rw [write, if_neg hi.1, if_neg hi.2.1, if_neg hi.2.2]

/-- A precharge that is issuable is carried out, unless it has to write back data with which
the cells cannot be programmed. -/
theorem precharge_of_isIssuable (self : NVMObject n m)
    (hr : r.type = .precharge ∨ r.type = .prechargeAll)
    (hi : a.isIssuable p now r) :
    (∃ a', a.precharge p now self r = some (.accept a') ∧ a'.state = .precharging ∧
        a'.preWrite = a.preWrite ∧ a.toBounds ≤ a'.toBounds) ∧
      (a.writesBack p → p.Programmable r) ∨
    a.precharge p now self r = none ∧ a.writesBack p ∧ ¬ p.Programmable r := by
  have hi : ¬ now < a.nextPrecharge ∧ ¬ (a.state ≠ .closed ∧ a.state ≠ .opened) := by
    rcases hr with hr | hr <;> simp only [isIssuable, hr, decide_eq_true_eq, not_or] at hi <;>
      exact ⟨hi.1, fun h => hi.2 h.symm⟩
  rw [precharge, if_neg hi.1, if_neg hi.2]
  by_cases hback : a.writesBack p
  · rw [if_pos hback]
    rcases hcells : p.writeCellData now r with _ | cells
    · exact Or.inr ⟨rfl, hback, by simp [← p.isSome_writeCellData_iff now, hcells]⟩
    · exact Or.inl ⟨⟨_, rfl, rfl, rfl, Bounds.le_closeUntil _ _⟩,
        fun _ => (p.isSome_writeCellData_iff now r).mp (by simp [hcells])⟩
  · rw [if_neg hback]
    exact Or.inl ⟨⟨_, rfl, rfl, rfl, Bounds.le_closeUntil _ _⟩, fun h => absurd h hback⟩

/-- A refresh that is issuable is carried out. -/
theorem refresh_of_isIssuable (self : NVMObject n m) (hr : r.type = .refresh)
    (hi : a.isIssuable p now r) :
    ∃ a', a.refresh p now self r = .accept a' ∧ a'.preWrite = a.preWrite ∧
      a.toBounds ≤ a'.toBounds := by
  simp only [isIssuable, hr, decide_eq_true_eq, not_or] at hi
  rw [refresh, if_neg hi.1, if_neg hi.2]
  exact ⟨_, rfl, rfl, Bounds.le_closeUntil _ _⟩

/-- The command programs cells: a write, and a precharge that writes the row buffer back. -/
def ProgramsCells (p : Params) (r : NVMainRequest n m) (a : SubArray n m) : Prop :=
  r.type = .write ∨ r.type = .writePrecharge ∨
    ((r.type = .precharge ∨ r.type = .prechargeAll) ∧ a.writesBack p)

instance (p : Params) (r : NVMainRequest n m) (a : SubArray n m) :
    Decidable (a.ProgramsCells p r) :=
  inferInstanceAs (Decidable (_ ∨ _ ∨ _))

/-- A command that is issuable is carried out and keeps the invariant, or the cells cannot be
programmed with its data and it does not return. -/
theorem issueCommand_cases (self : NVMObject n m) (ha : a.Restorable) (hr : r.type.reachesSubArray)
    (hi : a.isIssuable p now r) :
    (∃ a', a.issueCommand p now self r = some (.accept a') ∧ a'.Restorable ∧
        (r.type = .prechargeAll → a'.state = .precharging)) ∧
      (a.ProgramsCells p r → p.Programmable r) ∨
    a.issueCommand p now self r = none ∧ a.ProgramsCells p r ∧ ¬ p.Programmable r := by
  have hrest := (checkWritePausing_spec p now ha).1
  rw [issueCommand, if_pos hi]
  rcases htype : r.type <;> simp only [OpType.reachesSubArray, htype, Bool.false_eq_true] at hr
  case activate =>
    left
    simp only [activate_of_isIssuable ha htype hi, ProgramsCells, htype, reduceCtorEq, false_or,
      false_and, false_implies, and_true]
    exact ⟨_, rfl, hrest.trans (Bounds.le_afterActivate p now _)⟩
  case read | readPrecharge =>
    left
    simp only [read_of_isIssuable ha (by simp [htype]) hi, ProgramsCells, htype, reduceCtorEq,
      false_or, false_and, false_implies, and_true]
    exact ⟨_, rfl, hrest.trans (Bounds.le_afterRead p now r _)⟩
  case write | writePrecharge =>
    have hiff := p.isSome_writeCellData_iff now r
    simp only [write_of_isIssuable (by simp [htype]) hi, ProgramsCells, htype]
    rcases hcells : p.writeCellData now r with _ | cells
    · exact Or.inr ⟨rfl, by simp, by simp [← hiff, hcells]⟩
    · exact Or.inl ⟨⟨_, rfl, Bounds.le_afterWrite _ _ _ _ _, by simp⟩,
        fun _ => hiff.mp (by simp [hcells])⟩
  case precharge | prechargeAll =>
    simp only [ProgramsCells, htype, reduceCtorEq, false_or, or_false, or_true, true_and]
    rcases precharge_of_isIssuable self (by simp [htype]) hi with
      ⟨⟨a', heq, hstate, hpre, hle⟩, hc⟩ | h
    · exact Or.inl ⟨⟨a', heq, by rw [Restorable, hpre]; exact ha.trans hle, fun _ => hstate⟩, hc⟩
    · exact Or.inr h
  case refresh =>
    left
    obtain ⟨a', heq, hpre, hle⟩ := refresh_of_isIssuable self htype hi
    simp only [heq, ProgramsCells, htype, reduceCtorEq, false_or, false_and, false_implies,
      and_true]
    exact ⟨a', rfl, by rw [Restorable, hpre]; exact ha.trans hle⟩

/-- A subarray that returned true to `PRECHARGE_ALL` is being precharged. -/
theorem precharging_of_issueCommand (hr : r.type = .prechargeAll)
    (h : a.issueCommand p now self r = some reply) (hrv : reply.rv) :
    reply.object.state = .precharging := by
  by_cases hi : a.isIssuable p now r = true
  · simp only [issueCommand, hi, hr, if_true] at h
    rcases precharge_of_isIssuable self (Or.inr hr) hi with
      ⟨⟨a', heq, hstate, -⟩, -⟩ | ⟨heq, -⟩
    · obtain rfl := Option.some.inj (heq.symm.trans h)
      exact hstate
    · exact absurd (heq.symm.trans h) (by simp)
  · simp only [issueCommand, hi, Bool.false_eq_true, if_false, Option.some.injEq] at h
    subst h
    exact absurd hrv (by simp [Reply.reject])

/-- A subarray that is being precharged returns false to `PRECHARGE_ALL`. -/
theorem not_rv_of_precharging (hr : r.type = .prechargeAll) (hstate : a.state = .precharging)
    (h : a.issueCommand p now self r = some reply) : reply.rv = false := by
  have hi : a.isIssuable p now r = false := by simp [isIssuable, hr, hstate]
  simp only [issueCommand, hi, Bool.false_eq_true, if_false, Option.some.injEq] at h
  exact h ▸ rfl

/-- The completion of a request touches neither the bounds nor what a pause restores. -/
theorem restorable_requestComplete (p : Params) (now : ℕ) (self : NVMObject n m)
    (r : NVMainRequest n m) (ha : a.Restorable) :
    (a.requestComplete p now self r).1.Restorable := by
  unfold requestComplete
  split <;> split <;> first | exact ha | (split <;> exact ha)

end SubArray

end HybridMemory.NVMain.CommandPath

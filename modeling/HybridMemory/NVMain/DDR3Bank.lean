import HybridMemory.Lib.Broadcast
import HybridMemory.NVMain.SubArray

/-!
# Banks

A `DDR3Bank` passes the commands on to its subarrays. It has bounds and a state of its own,
and keeps the list `activeSubArrayQueue` of the subarrays with an open row, from which a
`PRECHARGE_ALL` takes the subarrays to close. An activation puts its subarray at the front of
the list without looking whether it is there.

* `issueCommand_of_meets`: a command that is issuable is carried out by the bank and by every
  subarray it addresses, if it meets the condition `Meets`: no subarray is addressed twice,
  and the cells can be programmed with the data;
* `meets_of_issueCommand`: and only then.
-/

namespace HybridMemory.NVMain.CommandPath

open Broadcast

variable {n m : ℕ}

/-- The states of a bank. -/
inductive DDR3BankState
  | opened
  | closed
  | pdpf
  | pda
  | pdps
  deriving DecidableEq

/-- The powered down states. -/
def DDR3BankState.isPowerDown : DDR3BankState → Bool
  | pdpf | pda | pdps => true
  | opened | closed => false

/-- The data members of a bank. -/
structure DDR3Bank (n m : ℕ) extends Bounds where
  nextPowerUp : ℕ := 0
  state : DDR3BankState := .closed
  activeSubArrayQueue : List (Fin m) := []
  subArrays : Fin m → SubArray n m := fun _ => {}

/-- The commands that a bank passes on to the one subarray they name. -/
def OpType.namesSubArray : OpType → Bool
  | activate | read | readPrecharge | write | writePrecharge | precharge | refresh => true
  | _ => false

theorem OpType.reachesSubArray_of_names {t : OpType} (h : t.namesSubArray) :
    t.reachesSubArray := by
  cases t <;> simp_all [namesSubArray, reachesSubArray]

/-- The commands that concern the power of a bank. -/
def OpType.isPower : OpType → Bool
  | powerdownPDA | powerdownPDPF | powerdownPDPS | powerup => true
  | _ => false

theorem OpType.isPower_iff {t : OpType} : t.isPower ↔
    t = .powerup ∨ t = .powerdownPDA ∨ t = .powerdownPDPF ∨ t = .powerdownPDPS := by
  cases t <;> simp [isPower]

namespace DDR3Bank

instance : Inhabited (DDR3Bank n m) := ⟨{}⟩

variable (p : Params) (now : ℕ) (b : Fin n) (r : NVMainRequest n m) (k : DDR3Bank n m)

/-- `PowerDown`. It does not return if its assertion fails. -/
def powerDown : Option (Reply n m (DDR3Bank n m)) :=
  if k.nextPowerDown ≤ now ∧ (k.state = .opened ∨ k.state = .closed) then
    let k := { k with nextPowerUp := max k.nextPowerUp (now + p.tPD) }
    if k.state = .opened then
      if p.ndebug ∨ r.type = .powerdownPDA then some (.accept { k with state := .pda })
      else none
    else some (.accept { k with state := if r.type = .powerdownPDPS then .pdps else .pdpf })
  else some { object := k, rv := false }

/-- `PowerUp`. -/
def powerUp : Reply n m (DDR3Bank n m) :=
  if k.nextPowerUp ≤ now ∧ k.state.isPowerDown then
    let exit := if k.state = .pdps then p.tXPDLL else p.tXP
    .accept { k with
      nextPowerDown := max k.nextPowerDown (now + p.tXP)
      nextActivate := max k.nextActivate (now + p.tXP)
      nextPrecharge := max k.nextPrecharge (now + p.tXP)
      nextWrite := max k.nextWrite (now + p.tXP)
      nextRead := max k.nextRead (now + exit)
      state := if k.state = .pda then .opened else .closed }
  else { object := k, rv := false }

/-- A call of `IssueCommand` on the subarray `a` of the bank `b`. -/
def callChild (a : Fin m) (r : NVMainRequest n m)
    (s : SubArray n m) : Option (Reply n m (SubArray n m)) :=
  (s.issueCommand p now (.subArray b a) r).map (.relay (.subArray b a))

/-- The part that the commands to a single subarray share: set the bounds, pass the command
on, and record the success in the bank with `finish`. -/
def passOn (bounds : Bounds) (finish : DDR3Bank n m → DDR3Bank n m) (k : DDR3Bank n m) :
    Option (Reply n m (DDR3Bank n m)) :=
  (callChild p now b r.subarray r (k.subArrays r.subarray)).map fun reply =>
    let k := { k with
      toBounds := bounds
      subArrays := Function.update k.subArrays r.subarray reply.object }
    { object := if reply.rv then finish k else k
      rv := reply.rv
      rejections := if reply.rv then [] else [.child]
      calls := reply.calls }

/-- `Activate`. -/
def activate : Option (Reply n m (DDR3Bank n m)) :=
  if now < k.nextActivate then some (.reject k .timing)
  else if k.state ≠ .closed ∧ k.activeSubArrayQueue = [] then some (.reject k .state)
  else
    k.passOn p now b r
      { k.toBounds with nextPowerDown := max k.nextPowerDown (now + p.tRCD) }
      fun k => { k with
        state := .opened, activeSubArrayQueue := r.subarray :: k.activeSubArrayQueue }

/-- Take a subarray out of the list of active ones, and close the bank with the last one. -/
def deactivate (a : Fin m) (k : DDR3Bank n m) : DDR3Bank n m :=
  let activeSubArrayQueue := k.activeSubArrayQueue.erase a
  { k with
    activeSubArrayQueue := activeSubArrayQueue
    state := if activeSubArrayQueue = [] then .closed else k.state }

/-- The bounds that `Read` sets. -/
def readBounds (b : Bounds) : Bounds :=
  { b with
    nextPowerDown := max b.nextPowerDown
      (if r.type = .readPrecharge then
        ncycle (now + p.leadingBursts r + p.tAL + p.tRTP + p.tRP)
      else ncycle (p.leadingBursts r + now + p.tRDPDEN))
    nextRead := max b.nextRead (now + p.burst * r.burstCount)
    nextWrite := max b.nextWrite
      (ncycle (now + p.leadingBursts r + p.tCAS + p.tBURST + p.tRTRS - p.tCWD)) }

/-- `Read`. -/
def read : Option (Reply n m (DDR3Bank n m)) :=
  if now < k.nextRead then some (.reject k .timing)
  else if k.state ≠ .opened then some (.reject k .state)
  else
    k.passOn p now b r (readBounds p now r k.toBounds) fun k =>
      if r.type = .readPrecharge then k.deactivate r.subarray else k

/-- The bounds that `Write` sets. With an implicit precharge, the bound on a power down is
computed from the one on an activation. -/
def writeBounds (b : Bounds) : Bounds :=
  { b with
    nextPowerDown :=
      if r.type = .writePrecharge then
        max b.nextActivate
          (ncycle (now + p.leadingBursts r + p.tAL + p.tCWD + p.tBURST + p.tWR + p.tRP))
      else max b.nextPowerDown (ncycle (p.leadingBursts r + now + p.tWRPDEN))
    nextRead := max b.nextRead (ncycle (now + p.leadingBursts r + p.tCWD + p.tBURST + p.tWTR))
    nextWrite := max b.nextWrite (now + p.burst * r.burstCount) }

/-- `Write`. -/
def write : Option (Reply n m (DDR3Bank n m)) :=
  if now < k.nextWrite then some (.reject k .timing)
  else if k.state ≠ .opened then some (.reject k .state)
  else
    k.passOn p now b r (writeBounds p now r k.toBounds) fun k =>
      if r.type = .writePrecharge then k.deactivate r.subarray else k

/-- The requests that `PRECHARGE_ALL` sends to the subarrays of a list: copies, and the
request itself to the last one. -/
def prechargeJobs : List (Fin m) → List (Fin m × NVMainRequest n m)
  | [] => []
  | [a] => [(a, r)]
  | a :: a' :: l => (a, { r.copy with owner := .bank b }) :: prechargeJobs (a' :: l)

/-- The branch of `Precharge` for `PRECHARGE_ALL`: take subarrays from the list and precharge
them, until the list is empty or one of them fails. -/
def prechargeAll (bounds : Bounds) (k : DDR3Bank n m) : Option (Reply n m (DDR3Bank n m)) :=
  (broadcast (callChild p now b) Reply.object Reply.rv
    (prechargeJobs b r k.activeSubArrayQueue) k.subArrays).map fun out =>
      let rv := out.2.1.all Reply.rv
      { object := { k with
          toBounds := bounds
          subArrays := out.1
          activeSubArrayQueue := out.2.2.map Prod.fst
          state := if rv then .closed else k.state }
        rv := rv
        rejections := if rv then [] else [.child]
        calls := out.2.1.flatMap Reply.calls }

/-- `Precharge`. -/
def precharge : Option (Reply n m (DDR3Bank n m)) :=
  if now < k.nextPrecharge then some (.reject k .timing)
  else if k.state ≠ .closed ∧ k.state ≠ .opened then some (.reject k .state)
  else
    let bounds := { k.toBounds with nextPowerDown := max k.nextPowerDown (now + p.tRP) }
    match r.type with
    | .precharge => k.passOn p now b r bounds (deactivate r.subarray)
    | .prechargeAll => k.prechargeAll p now b r bounds
    | _ => some (.reject { k with toBounds := bounds } .unknown)

/-- `Refresh`. -/
def refresh : Option (Reply n m (DDR3Bank n m)) :=
  if now < k.nextActivate then some (.reject k .timing)
  else
    k.passOn p now b r
      { k.toBounds with nextPowerDown := max k.nextPowerDown (now + p.tRFC) } id

/-- `IsIssuable`. -/
def isIssuable : Bool :=
  let child := (k.subArrays r.subarray).isIssuable p now r
  let children := decide (∀ a, (k.subArrays a).isIssuable p now r)
  match r.type with
  | .activate => decide ¬ (now < k.nextActivate ∨ k.state.isPowerDown) && child
  | .read | .readPrecharge => decide ¬ (now < k.nextRead ∨ k.state ≠ .opened) && child
  | .write | .writePrecharge => decide ¬ (now < k.nextWrite ∨ k.state ≠ .opened) && child
  | .precharge =>
    decide ¬ (now < k.nextPrecharge ∨ (k.state ≠ .closed ∧ k.state ≠ .opened)) && child
  | .prechargeAll =>
    decide ¬ (now < k.nextPrecharge ∨ (k.state ≠ .closed ∧ k.state ≠ .opened)) &&
      k.activeSubArrayQueue.all fun a => (k.subArrays a).isIssuable p now r
  | .powerdownPDA | .powerdownPDPF | .powerdownPDPS =>
    decide ¬ (now < k.nextPowerDown ∨ (k.state ≠ .closed ∧ k.state ≠ .opened) ∨
      ((r.type = .powerdownPDPF ∨ r.type = .powerdownPDPS) ∧ k.state = .opened)) && children
  | .powerup => decide ¬ (now < k.nextPowerUp ∨ ¬ k.state.isPowerDown) && children
  | .refresh =>
    decide ¬ (now < k.nextActivate ∨ (k.state ≠ .closed ∧ k.state ≠ .opened)) && child
  | _ => child

/-- `NextIssuable`. -/
def nextIssuable : ℕ :=
  let nextCompare :=
    match r.type with
    | .activate | .refresh => k.nextActivate
    | .read | .readPrecharge => k.nextRead
    | .write | .writePrecharge => k.nextWrite
    | .precharge | .prechargeAll => k.nextPrecharge
    | _ => 0
  max ((k.subArrays r.subarray).nextIssuable r) nextCompare

/-- `IssueCommand`. -/
def issueCommand : Option (Reply n m (DDR3Bank n m)) :=
  if k.isIssuable p now r then
    match r.type with
    | .activate => k.activate p now b r
    | .read | .readPrecharge => k.read p now b r
    | .write | .writePrecharge => k.write p now b r
    | .precharge | .prechargeAll => k.precharge p now b r
    | .refresh => k.refresh p now b r
    | .powerdownPDA | .powerdownPDPF | .powerdownPDPS => k.powerDown p now r
    | .powerup => some (k.powerUp p now)
    | _ => (k.passOn p now b r k.toBounds id).map fun reply => { reply with rejections := [] }
  else some (.reject k .notIssuable)

/-- `Idle`. -/
def idle : Bool := decide (∀ a, (k.subArrays a).idle)

/-! ### What is issuable is carried out -/

/-- An active bank has an active subarray, and in every subarray a pause only lowers the
bounds. -/
structure Inv (k : DDR3Bank n m) : Prop where
  active : k.state = .opened ∨ k.state = .pda → k.activeSubArrayQueue ≠ []
  restorable : ∀ a, (k.subArrays a).Restorable

/-- The subarrays that a command to the bank addresses. -/
def addressed : List (Fin m) :=
  match r.type with
  | .prechargeAll => k.activeSubArrayQueue
  | .powerdownPDA | .powerdownPDPF | .powerdownPDPS | .powerup => []
  | _ => [r.subarray]

/-- The command addresses no subarray twice, and cells that it programs can be programmed with
its data. -/
def Meets : Prop :=
  (k.addressed r).Nodup ∧
    ∀ a ∈ k.addressed r, (k.subArrays a).ProgramsCells p r → p.Programmable r

instance : Decidable (k.Meets p r) :=
  inferInstanceAs (Decidable (_ ∧ ∀ a ∈ _, _ → _))

/-- The calls on subarrays, all successful. -/
def okCalls : List (Call n m) :=
  (k.addressed r).map fun a => Call.ok (.subArray b a)

variable {p now b r k} {a : Fin m} {s : SubArray n m} {bounds : Bounds}
  {reply : Reply n m (DDR3Bank n m)}
  {finish : DDR3Bank n m → DDR3Bank n m} {reply : Reply n m (DDR3Bank n m)}

/-- `SubArray.issueCommand_cases`, as the bank sees it. -/
theorem callChild_cases (hs : s.Restorable) (hr : r.type.reachesSubArray)
    (hi : s.isIssuable p now r) :
    (∃ s', callChild p now b a r s = some (.success s' [Call.ok (.subArray b a)]) ∧
        s'.Restorable) ∧ (s.ProgramsCells p r → p.Programmable r) ∨
    callChild p now b a r s = none ∧ s.ProgramsCells p r ∧ ¬ p.Programmable r := by
  rcases SubArray.issueCommand_cases (.subArray b a) hs hr hi with
    ⟨⟨s', heq, hrest, -⟩, hcells⟩ | ⟨heq, hcells⟩
  · exact Or.inl ⟨⟨s', by rw [callChild, heq]; rfl, hrest⟩, hcells⟩
  · exact Or.inr ⟨by rw [callChild, heq]; rfl, hcells⟩

theorem restorable_update (hk : ∀ a, (k.subArrays a).Restorable) (hs : s.Restorable) (a' : Fin m) :
    (Function.update k.subArrays a s a').Restorable := by
  by_cases h : a' = a
  · rw [h, Function.update_self]
    exact hs
  · rw [Function.update_of_ne h]
    exact hk a'

theorem passOn_cases (bounds : Bounds) (finish : DDR3Bank n m → DDR3Bank n m) (hk : k.Inv)
    (hr : r.type.reachesSubArray) (hi : (k.subArrays r.subarray).isIssuable p now r) :
    (∃ k', k.passOn p now b r bounds finish =
        some (.success (finish k') [Call.ok (.subArray b r.subarray)]) ∧ k'.state = k.state ∧
        k'.activeSubArrayQueue = k.activeSubArrayQueue ∧ ∀ a, (k'.subArrays a).Restorable) ∧
      ((k.subArrays r.subarray).ProgramsCells p r → p.Programmable r) ∨
    k.passOn p now b r bounds finish = none ∧
      (k.subArrays r.subarray).ProgramsCells p r ∧ ¬ p.Programmable r := by
  rcases callChild_cases (b := b) (a := r.subarray) (hk.restorable r.subarray) hr hi with
    ⟨⟨s', heq, hrest⟩, hcells⟩ | ⟨heq, hcells⟩
  · refine Or.inl ⟨⟨{ k with
      toBounds := bounds, subArrays := Function.update k.subArrays r.subarray s' },
      ?_, rfl, rfl, restorable_update hk.restorable hrest⟩, hcells⟩
    rw [passOn, heq]
    rfl
  · exact Or.inr ⟨by rw [passOn, heq]; rfl, hcells⟩

theorem inv_deactivate (hk : k.Inv) : (k.deactivate a).Inv := by
  refine ⟨fun hstate hempty => ?_, hk.restorable⟩
  simp only [deactivate] at hstate hempty
  simp [hempty] at hstate

/-- The bounds that a command sets before it goes to the subarrays. -/
def commandBounds (p : Params) (now : ℕ) (r : NVMainRequest n m) (bounds : Bounds) : Bounds :=
  match r.type with
  | .activate => { bounds with nextPowerDown := max bounds.nextPowerDown (now + p.tRCD) }
  | .read | .readPrecharge => readBounds p now r bounds
  | .write | .writePrecharge => writeBounds p now r bounds
  | .precharge | .prechargeAll =>
    { bounds with nextPowerDown := max bounds.nextPowerDown (now + p.tRP) }
  | .refresh => { bounds with nextPowerDown := max bounds.nextPowerDown (now + p.tRFC) }
  | _ => bounds

/-- What a bank records about a command that its subarray has carried out. -/
def record (r : NVMainRequest n m) (k : DDR3Bank n m) : DDR3Bank n m :=
  match r.type with
  | .activate =>
    { k with state := .opened, activeSubArrayQueue := r.subarray :: k.activeSubArrayQueue }
  | .readPrecharge | .writePrecharge | .precharge => k.deactivate r.subarray
  | _ => k

theorem inv_record (r : NVMainRequest n m) (hk : k.Inv) : (record r k).Inv := by
  unfold record
  split
  · exact ⟨by simp, hk.restorable⟩
  all_goals first | exact inv_deactivate hk | exact hk

/-- A command to one subarray that is issuable is passed on, an activation if the bank is closed
or has an active subarray. -/
theorem issueCommand_eq_passOn (hr : r.type.namesSubArray) (hi : k.isIssuable p now r)
    (hactive : r.type = .activate → k.state ≠ .closed → k.activeSubArrayQueue ≠ []) :
    k.issueCommand p now b r =
      k.passOn p now b r (commandBounds p now r k.toBounds) (record r) := by
  rw [issueCommand, if_pos hi]
  rcases htype : r.type <;> simp only [OpType.namesSubArray, htype, Bool.false_eq_true] at hr <;>
    simp only [isIssuable, htype, Bool.and_eq_true, decide_eq_true_eq, not_or] at hi <;>
    obtain ⟨⟨htime, hstate⟩, hchild⟩ := hi <;> dsimp only
  case activate =>
    rw [activate, if_neg htime, if_neg fun h => hactive htype h.1 h.2]
    simp only [passOn, commandBounds, record, htype]
  case read | readPrecharge =>
    rw [read, if_neg htime, if_neg hstate]
    simp [passOn, commandBounds, record, htype]
  case write | writePrecharge =>
    rw [write, if_neg htime, if_neg hstate]
    simp [passOn, commandBounds, record, htype]
  case precharge =>
    simp only [precharge, if_neg htime, if_neg hstate, passOn, commandBounds, record, htype]
  case refresh =>
    rw [refresh, if_neg htime]
    simp only [passOn, commandBounds, record, htype, id_def]

/-- An issuable activation finds the bank closed, or an active subarray. -/
theorem Inv.active_of_isIssuable (hk : k.Inv) (hi : k.isIssuable p now r)
    (hr : r.type = .activate) (hstate : k.state ≠ .closed) : k.activeSubArrayQueue ≠ [] := by
  simp only [isIssuable, hr, Bool.and_eq_true, decide_eq_true_eq, not_or] at hi
  refine hk.active (Or.inl ?_)
  cases hs : k.state <;> simp_all [DDR3BankState.isPowerDown]

/-- `IsIssuable` asks the subarray that a command names. -/
theorem child_of_isIssuable (hr : r.type.namesSubArray) (hi : k.isIssuable p now r) :
    (k.subArrays r.subarray).isIssuable p now r := by
  rcases htype : r.type <;> simp only [OpType.namesSubArray, htype, Bool.false_eq_true] at hr <;>
    simp only [isIssuable, htype, Bool.and_eq_true] at hi <;> exact hi.2

/-- A request that is issuable has reached its `NextIssuable`. A `PRECHARGE_ALL` asks the active
subarrays, and `NextIssuable` has no bound of the named subarray for it. -/
theorem nextIssuable_le (hi : k.isIssuable p now r) : k.nextIssuable r ≤ now := by
  have hchild : (k.subArrays r.subarray).nextIssuable r ≤ now := by
    by_cases hr : r.type.namesSubArray = true
    · exact SubArray.nextIssuable_le (child_of_isIssuable hr hi)
    · rcases htype : r.type <;> simp [OpType.namesSubArray, SubArray.nextIssuable, htype] at hr ⊢
  refine max_le hchild ?_
  rcases htype : r.type <;> dsimp only <;> try exact Nat.zero_le now
  all_goals
    simp only [isIssuable, htype, Bool.and_eq_true, decide_eq_true_eq, not_or, not_lt] at hi
    exact hi.1.1

/-! ### Precharging all subarrays -/

theorem map_fst_prechargeJobs (l : List (Fin m)) : (prechargeJobs b r l).map Prod.fst = l := by
  induction l using prechargeJobs.induct <;> simp_all [prechargeJobs]

/-- The requests sent to the subarrays differ from the request itself neither in the type nor in
the data. -/
theorem of_mem_prechargeJobs {l : List (Fin m)} {job : Fin m × NVMainRequest n m}
    (hjob : job ∈ prechargeJobs b r l) :
    job.1 ∈ l ∧ job.2.type = r.type ∧ job.2.rawData = r.rawData := by
  induction l using prechargeJobs.induct with
  | case1 => simp [prechargeJobs] at hjob
  | case2 a =>
    obtain rfl := List.mem_singleton.mp hjob
    simp
  | case3 a a' l ih =>
    rcases List.mem_cons.mp hjob with rfl | hjob
    · simp [NVMainRequest.copy]
    · exact ⟨List.mem_cons_of_mem _ (ih hjob).1, (ih hjob).2⟩

/-- Precharging and programming look at the type and the data of a request only. -/
theorem job_congr (p : Params) (now : ℕ) (s : SubArray n m) {r' : NVMainRequest n m}
    (htype : r.type = .prechargeAll)
    (htype' : r'.type = r.type) (hdata : r'.rawData = r.rawData) :
    s.isIssuable p now r' = s.isIssuable p now r ∧
      (s.ProgramsCells p r' ↔ s.ProgramsCells p r) ∧ (p.Programmable r' ↔ p.Programmable r) := by
  simp [SubArray.isIssuable, SubArray.ProgramsCells, Params.Programmable, htype', htype, hdata]

/-- `callChild_cases` for the requests of a precharge of all subarrays. -/
theorem callChild_cases_of_mem (hk : k.Inv) (hr : r.type = .prechargeAll)
    (hi : ∀ a ∈ k.activeSubArrayQueue, (k.subArrays a).isIssuable p now r)
    {job : Fin m × NVMainRequest n m} (hjob : job ∈ prechargeJobs b r k.activeSubArrayQueue) :
    (∃ s', callChild p now b job.1 job.2 (k.subArrays job.1) =
        some (.success s' [Call.ok (.subArray b job.1)]) ∧ s'.Restorable) ∧
      ((k.subArrays job.1).ProgramsCells p r → p.Programmable r) ∨
    callChild p now b job.1 job.2 (k.subArrays job.1) = none ∧
      (k.subArrays job.1).ProgramsCells p r ∧ ¬ p.Programmable r := by
  obtain ⟨hmem, htype, hdata⟩ := of_mem_prechargeJobs hjob
  obtain ⟨hissuable, hprograms, hprogrammable⟩ :=
    job_congr p now (k.subArrays job.1) hr htype hdata
  rw [← hprograms, ← hprogrammable]
  exact callChild_cases (hk.restorable job.1) (by rw [htype, hr]; rfl)
    (hissuable.trans (hi _ hmem))

/-- A precharge of distinct subarrays, each of which can be precharged, closes them all. -/
theorem prechargeAll_of_nodup (hk : k.Inv) (hr : r.type = .prechargeAll)
    (hi : ∀ a ∈ k.activeSubArrayQueue, (k.subArrays a).isIssuable p now r)
    (hnodup : k.activeSubArrayQueue.Nodup)
    (hcells : ∀ a ∈ k.activeSubArrayQueue,
      (k.subArrays a).ProgramsCells p r → p.Programmable r) (bounds : Bounds) :
    ∃ k', k.prechargeAll p now b r bounds = some (.success k'
      (k.activeSubArrayQueue.map fun a => Call.ok (.subArray b a))) ∧ k'.Inv := by
  have hjobs : ∀ job ∈ prechargeJobs b r k.activeSubArrayQueue, ∃ reply : Reply n m (SubArray n m),
      callChild p now b job.1 job.2 (k.subArrays job.1) = some reply ∧ reply.rv = true ∧
        reply.calls = [Call.ok (.subArray b job.1)] ∧ reply.object.Restorable := by
    intro job hjob
    rcases callChild_cases_of_mem hk hr hi hjob with
      ⟨⟨s', heq, hrest⟩, -⟩ | ⟨-, hcellsjob, hnot⟩
    · exact ⟨_, heq, rfl, rfl, hrest⟩
    · exact absurd (hcells _ (of_mem_prechargeJobs hjob).1 hcellsjob) hnot
  choose! answer hanswer hrv hcalls hrest using hjobs
  obtain ⟨t, ht⟩ := broadcast_of_nodup Reply.object Reply.rv answer
    (by rwa [map_fst_prechargeJobs])
    fun job hjob => ⟨hanswer job hjob, hrv job hjob⟩
  have hrestored : ∀ a, (t a).Restorable :=
    forall_of_broadcast hk.restorable ht (List.forall_mem_map.mpr hrest)
  refine ⟨{ k with
    toBounds := bounds, subArrays := t, activeSubArrayQueue := [], state := .closed }, ?_,
    ⟨by simp, hrestored⟩⟩
  have hall : ((prechargeJobs b r k.activeSubArrayQueue).map answer).all Reply.rv = true := by
    simpa using fun a r h => hrv (a, r) h
  have hflat : ((prechargeJobs b r k.activeSubArrayQueue).map answer).flatMap Reply.calls =
      k.activeSubArrayQueue.map fun a => Call.ok (.subArray b a) := by
    rw [List.flatMap_map, List.flatMap_congr hcalls, ← List.map_eq_flatMap]
    conv_rhs => rw [← map_fst_prechargeJobs (b := b) (r := r) k.activeSubArrayQueue]
    rw [List.map_map]
    rfl
  simp only [prechargeAll, ht, Option.map_some, hall, hflat, List.map_nil]
  rfl

/-- A precharge of all subarrays that returns true found no subarray twice in the list, and
programmed the cells of those that it had to write back. -/
theorem nodup_of_prechargeAll (hk : k.Inv) (hr : r.type = .prechargeAll)
    (hi : ∀ a ∈ k.activeSubArrayQueue, (k.subArrays a).isIssuable p now r) {bounds : Bounds}
    (h : k.prechargeAll p now b r bounds = some reply) (hrv : reply.rv) :
    k.activeSubArrayQueue.Nodup ∧ ∀ a ∈ k.activeSubArrayQueue,
      (k.subArrays a).ProgramsCells p r → p.Programmable r := by
  obtain ⟨⟨t, replies, rest⟩, hout, rfl⟩ := Option.map_eq_some_iff.mp h
  -- a subarray that went along is being precharged and does not go along again
  have honce : ∀ job ∈ prechargeJobs b r k.activeSubArrayQueue, ∀ x w,
      callChild p now b job.1 job.2 x = some w → w.rv = true →
      ∀ job' ∈ prechargeJobs b r k.activeSubArrayQueue, job'.1 = job.1 →
        ∀ w', callChild p now b job.1 job'.2 w.object = some w' → ¬ w'.rv = true := by
    intro job hjob x w hw hwrv job' hjob' _ w' hw'
    obtain ⟨w₀, hw₀, rfl⟩ := Option.map_eq_some_iff.mp hw
    obtain ⟨w₁, hw₁, rfl⟩ := Option.map_eq_some_iff.mp hw'
    have hprecharging := SubArray.precharging_of_issueCommand
      ((of_mem_prechargeJobs hjob).2.1.trans hr) hw₀ hwrv
    have hfalse := SubArray.not_rv_of_precharging
      ((of_mem_prechargeJobs hjob').2.1.trans hr) hprecharging hw₁
    simp [Reply.relay, hfalse]
  obtain ⟨hnodup, hsome⟩ := nodup_of_broadcast honce hout (by simpa using hrv)
  rw [map_fst_prechargeJobs] at hnodup
  refine ⟨hnodup, fun a ha hcellsjob => ?_⟩
  rw [← map_fst_prechargeJobs (b := b) (r := r) k.activeSubArrayQueue] at ha
  obtain ⟨job, hjob, rfl⟩ := List.mem_map.mp ha
  rcases callChild_cases_of_mem hk hr hi hjob with ⟨-, hcells⟩ | ⟨hnone, -⟩
  · exact hcells hcellsjob
  · exact absurd (hsome job hjob) (by simp [hnone])

/-- The bank that is powered down. -/
def poweredDown (p : Params) (now : ℕ) (r : NVMainRequest n m) (k : DDR3Bank n m) :
    DDR3Bank n m :=
  { k with
    nextPowerUp := max k.nextPowerUp (now + p.tPD)
    state := if k.state = .opened then .pda
      else if r.type = .powerdownPDPS then .pdps else .pdpf }

/-- Powering down, if it is issuable, succeeds. -/
theorem issueCommand_of_powerdown
    (hr : r.type = .powerdownPDA ∨ r.type = .powerdownPDPF ∨ r.type = .powerdownPDPS)
    (hi : k.isIssuable p now r) : (k.state = .opened ∨ k.state = .closed) ∧
      k.issueCommand p now b r = some (.accept (k.poweredDown p now r)) := by
  have hcall : k.issueCommand p now b r = k.powerDown p now r := by
    rw [issueCommand, if_pos hi]
    rcases hr with hr | hr | hr <;> simp only [hr]
  -- the three ways to power down have the same tests, but only one is for an open bank
  have htests : k.nextPowerDown ≤ now ∧ (k.state = .opened ∨ k.state = .closed) ∧
      (k.state = .opened → r.type = .powerdownPDA) := by
    rcases hr with hr | hr | hr <;> simp [isIssuable, hr] at hi <;> simp [hr] <;> tauto
  obtain ⟨htime, hstate, hpda⟩ := htests
  refine ⟨hstate, ?_⟩
  rw [hcall, powerDown, if_pos ⟨htime, hstate⟩]
  by_cases hopen : k.state = .opened
  · simp only [poweredDown, hopen, if_true, hpda hopen, or_true]
  · simp only [poweredDown, hopen, if_false]

/-- The bank that is powered up. -/
def poweredUp (p : Params) (now : ℕ) (k : DDR3Bank n m) : DDR3Bank n m :=
  { k with
    nextPowerDown := max k.nextPowerDown (now + p.tXP)
    nextActivate := max k.nextActivate (now + p.tXP)
    nextPrecharge := max k.nextPrecharge (now + p.tXP)
    nextWrite := max k.nextWrite (now + p.tXP)
    nextRead := max k.nextRead (now + if k.state = .pdps then p.tXPDLL else p.tXP)
    state := if k.state = .pda then .opened else .closed }

/-- Powering up, if it is issuable, succeeds. -/
theorem issueCommand_of_powerup (hr : r.type = .powerup) (hi : k.isIssuable p now r) :
    k.state.isPowerDown ∧ k.issueCommand p now b r = some (.accept (k.poweredUp p now)) := by
  rw [issueCommand, if_pos hi]
  simp only [isIssuable, hr, Bool.and_eq_true, decide_eq_true_eq, not_or, not_not] at hi
  simp only [hr, powerUp, if_pos (And.intro (not_lt.mp hi.1.1) hi.1.2)]
  exact ⟨hi.1.2, rfl⟩

/-- A command to power down or up that is issuable is carried out. -/
theorem issueCommand_of_isPower (hk : k.Inv) (hr : r.type.isPower) (hi : k.isIssuable p now r) :
    ∃ k', k.issueCommand p now b r = some (.accept k') ∧ k'.Inv := by
  rcases OpType.isPower_iff.mp hr with hup | hdown
  · refine ⟨_, (issueCommand_of_powerup hup hi).2, fun hstate => hk.active (Or.inr ?_),
      hk.restorable⟩
    by_contra hpda
    simp [poweredUp, hpda] at hstate
  · refine ⟨_, (issueCommand_of_powerdown hdown hi).2, fun hstate => hk.active (Or.inl ?_),
      hk.restorable⟩
    by_contra hopen
    simp only [poweredDown, hopen, if_false] at hstate
    split at hstate <;> simp at hstate

/-! ### The bank as a whole -/

/-- The commands that can be issuable: to one subarray, to all active ones, and to none. -/
theorem type_of_isIssuable (hi : k.isIssuable p now r) :
    r.type.namesSubArray ∨ r.type = .prechargeAll ∨ r.type.isPower := by
  rcases htype : r.type <;>
    simp [OpType.namesSubArray, OpType.isPower, isIssuable, SubArray.isIssuable, htype] at hi ⊢

theorem addressed_of_namesSubArray (hr : r.type.namesSubArray) :
    k.addressed r = [r.subarray] := by
  rcases htype : r.type <;> simp_all [OpType.namesSubArray, addressed]

theorem addressed_of_isPower (hr : r.type.isPower) : k.addressed r = [] := by
  rcases htype : r.type <;> simp_all [OpType.isPower, addressed]

theorem addressed_of_prechargeAll (hr : r.type = .prechargeAll) :
    k.addressed r = k.activeSubArrayQueue := by
  simp [addressed, hr]

/-- The condition asks nothing of commands that concern the power. -/
theorem meets_of_isPower (hr : r.type.isPower) : k.Meets p r := by
  simp [Meets, addressed_of_isPower hr]

/-- The condition asks nothing of a refresh. -/
theorem meets_of_refresh (hr : r.type = .refresh) : k.Meets p r := by
  simp [Meets, addressed, SubArray.ProgramsCells, hr]

/-- What `IsIssuable` and `IssueCommand` do with `PRECHARGE_ALL`. -/
theorem issueCommand_eq_prechargeAll (hr : r.type = .prechargeAll) (hi : k.isIssuable p now r) :
    (∀ a ∈ k.activeSubArrayQueue, (k.subArrays a).isIssuable p now r) ∧
      k.issueCommand p now b r =
        k.prechargeAll p now b r (commandBounds p now r k.toBounds) := by
  rw [issueCommand, if_pos hi]
  simp only [isIssuable, hr, Bool.and_eq_true, decide_eq_true_eq, not_or, List.all_eq_true] at hi
  simp only [hr, precharge, if_neg hi.1.1, if_neg hi.1.2, commandBounds]
  exact ⟨hi.2, trivial⟩

/-- What a bank does with a command that is issuable. If it is open without an active subarray, it
refuses an activation. -/
inductive Issued (p : Params) (now : ℕ) (b : Fin n) (r : NVMainRequest n m) (k : DDR3Bank n m) :
    Reply n m (DDR3Bank n m) → Prop
  | passesOn (reply : Reply n m (DDR3Bank n m)) (hr : r.type.namesSubArray)
      (h : k.passOn p now b r (commandBounds p now r k.toBounds) (record r) = some reply) :
      Issued p now b r k reply
  | refuses (hr : r.type = .activate) (hstate : k.state ≠ .closed)
      (hempty : k.activeSubArrayQueue = []) : Issued p now b r k (.reject k .state)
  | prechargesAll (reply : Reply n m (DDR3Bank n m)) (hr : r.type = .prechargeAll)
      (hi : ∀ a ∈ k.activeSubArrayQueue, (k.subArrays a).isIssuable p now r)
      (h : k.prechargeAll p now b r (commandBounds p now r k.toBounds) = some reply) :
      Issued p now b r k reply
  | powersDown (hr : r.type = .powerdownPDA ∨ r.type = .powerdownPDPF ∨ r.type = .powerdownPDPS)
      (hstate : k.state = .opened ∨ k.state = .closed) :
      Issued p now b r k (.accept (k.poweredDown p now r))
  | powersUp (hr : r.type = .powerup) (hstate : k.state.isPowerDown) :
      Issued p now b r k (.accept (k.poweredUp p now))

theorem issued_of_isIssuable (hi : k.isIssuable p now r)
    (h : k.issueCommand p now b r = some reply) : Issued p now b r k reply := by
  rcases type_of_isIssuable hi with hr | hr | hr
  · by_cases hactive : r.type = .activate → k.state ≠ .closed → k.activeSubArrayQueue ≠ []
    · rw [issueCommand_eq_passOn hr hi hactive] at h
      exact .passesOn reply hr h
    · push Not at hactive
      obtain ⟨htype, hstate, hempty⟩ := hactive
      rw [issueCommand, if_pos hi] at h
      simp only [isIssuable, htype, Bool.and_eq_true, decide_eq_true_eq, not_or] at hi
      simp only [htype, activate, if_neg hi.1.1, if_pos (And.intro hstate hempty)] at h
      obtain rfl := Option.some.inj h
      exact .refuses htype hstate hempty
  · obtain ⟨hchildren, heq⟩ := issueCommand_eq_prechargeAll (b := b) hr hi
    exact .prechargesAll reply hr hchildren (heq.symm.trans h)
  · rcases OpType.isPower_iff.mp hr with hup | hdown
    · obtain ⟨hstate, heq⟩ := issueCommand_of_powerup (b := b) hup hi
      obtain rfl := Option.some.inj (heq.symm.trans h)
      exact .powersUp hup hstate
    · obtain ⟨hstate, heq⟩ := issueCommand_of_powerdown (b := b) hdown hi
      obtain rfl := Option.some.inj (heq.symm.trans h)
      exact .powersDown hdown hstate

/-- A command that is issuable and meets the condition is carried out by the bank and by every
subarray that it addresses, and keeps the invariant. -/
theorem issueCommand_of_meets (hk : k.Inv) (hi : k.isIssuable p now r) (hmeets : k.Meets p r) :
    ∃ k', k.issueCommand p now b r = some (.success k' (k.okCalls b r)) ∧ k'.Inv := by
  rcases type_of_isIssuable hi with hr | hr | hr
  · rw [Meets, addressed_of_namesSubArray hr] at hmeets
    rw [okCalls, addressed_of_namesSubArray hr]
    rw [issueCommand_eq_passOn hr hi (hk.active_of_isIssuable hi)]
    rcases passOn_cases (b := b) (commandBounds p now r k.toBounds) (record r) hk
      (OpType.reachesSubArray_of_names hr) (child_of_isIssuable hr hi) with
      ⟨⟨k', hk', hstate, hqueue, hrest⟩, -⟩ | ⟨-, hprograms, hnot⟩
    · exact ⟨_, hk', inv_record r ⟨by rw [hstate, hqueue]; exact hk.active, hrest⟩⟩
    · exact absurd (hmeets.2 _ (List.mem_singleton_self _) hprograms) hnot
  · rw [Meets, addressed_of_prechargeAll hr] at hmeets
    rw [okCalls, addressed_of_prechargeAll hr]
    obtain ⟨hchildren, heq⟩ := issueCommand_eq_prechargeAll (b := b) hr hi
    rw [heq]
    exact prechargeAll_of_nodup hk hr hchildren hmeets.1 hmeets.2 _
  · rw [okCalls, addressed_of_isPower hr]
    exact issueCommand_of_isPower hk hr hi

/-- A command that is issuable and returns true meets the condition. -/
theorem meets_of_issueCommand (hk : k.Inv) (hi : k.isIssuable p now r)
    (h : k.issueCommand p now b r = some reply) (hrv : reply.rv) : k.Meets p r := by
  rcases type_of_isIssuable hi with hr | hr | hr
  · rw [Meets, addressed_of_namesSubArray hr]
    rw [issueCommand_eq_passOn hr hi (hk.active_of_isIssuable hi)] at h
    rcases passOn_cases (b := b) (commandBounds p now r k.toBounds) (record r) hk
      (OpType.reachesSubArray_of_names hr) (child_of_isIssuable hr hi) with
      ⟨-, hcells⟩ | ⟨hnone, -⟩
    · simpa using hcells
    · exact absurd (hnone.symm.trans h) (by simp)
  · rw [Meets, addressed_of_prechargeAll hr]
    obtain ⟨hchildren, heq⟩ := issueCommand_eq_prechargeAll (b := b) hr hi
    exact nodup_of_prechargeAll hk hr hchildren (heq.symm.trans h) hrv
  · exact meets_of_isPower hr

end DDR3Bank

end HybridMemory.NVMain.CommandPath

import HybridMemory.Lib.Transition
import HybridMemory.NVMain.DDR3Bank

/-!
# Runs of a bank

The rank issues commands to a bank, the event queue delivers the completions that the
subarrays have scheduled, and time passes up to the next completion. In a cycle the event
queue delivers the completions before it wakes up the controllers, so a command finds no
completion that is due.

Each command raises bounds of the bank, by a maximum of the old bound and a new one. The one
exception is the bound on a power down after a write with an implicit precharge: the code takes
the maximum of `nextActivate` and the end of the precharge, where the other commands take it
of `nextPowerDown`.

* `forall_bounds_le_iff`: the bounds of a bank never go down during a run if and only if every
  write with an implicit precharge finds `nextPowerDown` no later than `nextActivate`, or no
  later than the end of its own precharge.
-/

namespace HybridMemory.NVMain.CommandPath

open Transition

variable {n m : ℕ}

/-- A bank, and the current cycle of the event queue. -/
structure BankSystem (n m : ℕ) where
  now : ℕ := 0
  bank : DDR3Bank n m

/-- What can happen to a bank. -/
inductive BankAction (n m : ℕ)
  /-- The rank calls `IssueCommand`. -/
  | issue (r : NVMainRequest n m)
  /-- The event queue delivers the event at a position among those of a subarray. -/
  | complete (a : Fin m) (i : ℕ)
  /-- Time passes. -/
  | advance (cycles : ℕ)

namespace BankSystem

/-- The bank after configuration. -/
def init (p : Params) : BankSystem n m where
  bank := { state := if p.initPD then .pdpf else .closed }

/-- No event is due before the cycle `t`. -/
def quietUntil (t : ℕ) (s : BankSystem n m) : Prop :=
  ∀ a, ∀ e ∈ (s.bank.subArrays a).responses, t ≤ e.cycle

instance (t : ℕ) (s : BankSystem n m) : Decidable (s.quietUntil t) :=
  inferInstanceAs (Decidable (∀ _, ∀ e ∈ _, _))

/-- The event queue calls `RequestComplete` of a subarray. A request that is handed on leaves
the bank. -/
def complete (p : Params) (b : Fin n) (a : Fin m) (i : ℕ) (e : Response n m)
    (s : BankSystem n m) : BankSystem n m :=
  let array := s.bank.subArrays a
  let out := { array with responses := array.responses.eraseIdx i }.requestComplete p s.now
    (.subArray b a) e.request
  { s with bank := { s.bank with subArrays := Function.update s.bank.subArrays a out.1 } }

/-- One step of the bank `b`; none if the action is not possible, or the program does not return
from it. A command is accepted by `IsIssuable`. A completion may schedule another event after
`tRP`, at a cycle that fits the type of cycles. -/
def step (p : Params) (b : Fin n) (s : BankSystem n m) : BankAction n m → Option (BankSystem n m)
  | .issue r =>
    if s.bank.isIssuable p s.now r then
      (s.bank.issueCommand p s.now b r).map fun reply => { s with bank := reply.object }
    else none
  | .complete a i =>
    match (s.bank.subArrays a).responses[i]? with
    | some e =>
      if e.cycle ≤ s.now ∧ s.now + p.tRP < 2 ^ 64 then some (s.complete p b a i e) else none
    | none => none
  | .advance cycles =>
    if s.quietUntil (s.now + cycles) then some { s with now := s.now + cycles } else none

variable {p : Params} {b : Fin n} {s t : BankSystem n m} {r : NVMainRequest n m}

theorem step_issue_eq_some : step p b s (.issue r) = some t ↔
    s.bank.isIssuable p s.now r ∧
      ∃ reply, s.bank.issueCommand p s.now b r = some reply ∧ { s with bank := reply.object } = t :=
  Option.ite_none_right_eq_some.trans (and_congr_right fun _ => Option.map_eq_some_iff)

theorem step_complete_eq_some {a : Fin m} {i : ℕ} : step p b s (.complete a i) = some t ↔
    ∃ e, (s.bank.subArrays a).responses[i]? = some e ∧
      (e.cycle ≤ s.now ∧ s.now + p.tRP < 2 ^ 64) ∧ s.complete p b a i e = t := by
  simp only [step]
  split
  next e he =>
    simp only [he, Option.some.injEq, exists_eq_left']
    exact Option.ite_none_right_eq_some.trans (and_congr_right fun _ => Option.some_inj)
  next he => simp [he]

theorem step_advance_eq_some {cycles : ℕ} : step p b s (.advance cycles) = some t ↔
    s.quietUntil (s.now + cycles) ∧ { s with now := s.now + cycles } = t :=
  Option.ite_none_right_eq_some.trans (and_congr_right fun _ => Option.some_inj)

end BankSystem

/-! ### What the commands do to the bounds -/

namespace DDR3Bank

variable {p : Params} {now : ℕ} {b : Fin n} {r : NVMainRequest n m} {k : DDR3Bank n m}
  {reply : Reply n m (DDR3Bank n m)}

/-- The six bounds of a bank. -/
def bounds (k : DDR3Bank n m) : Bounds × ℕ := (k.toBounds, k.nextPowerUp)

/-- The end of the implicit precharge of a write, as the bank computes it. -/
def implicitPrechargeEnd (p : Params) (now : ℕ) (r : NVMainRequest n m) : ℕ :=
  ncycle (now + p.leadingBursts r + p.tAL + p.tCWD + p.tBURST + p.tWR + p.tRP)

/-- A write with an implicit precharge does not find a later bound on a power down. -/
def KeepsPowerDown (p : Params) (now : ℕ) (r : NVMainRequest n m) (k : DDR3Bank n m) : Prop :=
  r.type = .writePrecharge →
    k.nextPowerDown ≤ k.nextActivate ∨ k.nextPowerDown ≤ implicitPrechargeEnd p now r

/-- All bounds that a command sets are maxima with the old bounds, but for the one on a power
down that a write with an implicit precharge sets. -/
theorem le_commandBounds_iff :
    k.toBounds ≤ commandBounds p now r k.toBounds ↔ k.KeepsPowerDown p now r := by
  rcases htype : r.type <;>
    simp [commandBounds, htype, Bounds.le_def, readBounds, writeBounds, KeepsPowerDown,
      implicitPrechargeEnd]

theorem bounds_record (r : NVMainRequest n m) (k : DDR3Bank n m) :
    (record r k).bounds = k.bounds := by
  unfold record
  split <;> rfl

theorem bounds_passOn {bounds : Bounds} (h : k.passOn p now b r bounds (record r) = some reply) :
    reply.object.bounds = (bounds, k.nextPowerUp) := by
  obtain ⟨answer, -, rfl⟩ := Option.map_eq_some_iff.mp h
  dsimp only
  split
  · exact bounds_record r _
  · rfl

theorem bounds_prechargeAll {bounds : Bounds}
    (h : k.prechargeAll p now b r bounds = some reply) :
    reply.object.bounds = (bounds, k.nextPowerUp) := by
  obtain ⟨out, -, rfl⟩ := Option.map_eq_some_iff.mp h
  rfl

/-- An accepted command lowers no bound of the bank if and only if it meets the condition. -/
theorem bounds_le_issueCommand_iff (hi : k.isIssuable p now r)
    (h : k.issueCommand p now b r = some reply) :
    k.bounds ≤ reply.object.bounds ↔ k.KeepsPowerDown p now r := by
  -- most commands set their bounds and pass the command on
  have hset : reply.object.bounds = (commandBounds p now r k.toBounds, k.nextPowerUp) →
      (k.bounds ≤ reply.object.bounds ↔ k.KeepsPowerDown p now r) := fun heq => by
    rw [heq, bounds, Prod.mk_le_mk, le_commandBounds_iff]
    exact and_iff_left le_rfl
  -- the others are no writes
  have hraise : r.type ≠ .writePrecharge → k.bounds ≤ reply.object.bounds →
      (k.bounds ≤ reply.object.bounds ↔ k.KeepsPowerDown p now r) := fun hne hle =>
    iff_of_true hle fun heq => absurd heq hne
  cases issued_of_isIssuable hi h with
  | passesOn reply hr h => exact hset (bounds_passOn h)
  | refuses hr hstate hempty => exact hraise (by simp [hr]) le_rfl
  | prechargesAll reply hr hchildren h => exact hset (bounds_prechargeAll h)
  | powersDown hr hstate =>
    refine hraise (fun heq => ?_) ⟨le_rfl, le_max_left _ _⟩
    simp [heq] at hr
  | powersUp hr hstate =>
    refine hraise (by simp [hr]) ⟨?_, le_rfl⟩
    simp [Bounds.le_def, bounds, poweredUp, Reply.accept]

end DDR3Bank

/-! ### The bounds during a run -/

namespace BankSystem

variable {p : Params} {b : Fin n} {s t : BankSystem n m}

/-- A command that is issued finds no later bound on a power down than it sets. -/
def KeepsPowerDown (p : Params) (s : BankSystem n m) : BankAction n m → Prop
  | .issue r => s.bank.KeepsPowerDown p s.now r
  | .complete .. | .advance _ => True

/-- A step lowers no bound of the bank if and only if it meets the condition. -/
theorem bounds_le_step_iff {a : BankAction n m} (h : step p b s a = some t) :
    s.bank.bounds ≤ t.bank.bounds ↔ s.KeepsPowerDown p a := by
  cases a with
  | issue r =>
    obtain ⟨hi, reply, hreply, rfl⟩ := step_issue_eq_some.mp h
    exact DDR3Bank.bounds_le_issueCommand_iff hi hreply
  | complete a i =>
    obtain ⟨e, -, -, rfl⟩ := step_complete_eq_some.mp h
    exact iff_of_true le_rfl trivial
  | advance cycles =>
    obtain ⟨-, rfl⟩ := step_advance_eq_some.mp h
    exact iff_of_true le_rfl trivial

/-- None of the bounds of a bank ever goes down during a run if and only if every write with an
implicit precharge finds the bound on a power down no later than that on an activation, or no
later than the end of its precharge. -/
theorem forall_bounds_le_iff {actions : List (BankAction n m)}
    (hrun : Run (Steps (step p b)) (init p) actions s) :
    (∀ u v, VisitsThen (Steps (step p b)) (init p) actions u v →
      u.bank.bounds ≤ v.bank.bounds) ↔
      Run (Guarded (KeepsPowerDown p) (Steps (step p b))) (init p) actions s :=
  forall_visitsThen_le_iff (g := fun s : BankSystem n m => s.bank.bounds)
    (fun _ _ _ hstep => bounds_le_step_iff hstep) hrun

/-- A command to a subarray of the only bank. -/
def command (type : OpType) (a : Fin 2) : NVMainRequest 1 2 :=
  { id := some 0, type := type, bank := Fin.last 0, subarray := a }

/-- An activation, and a write with an implicit precharge. -/
theorem forall_bounds_le_write : ∃ s : BankSystem 1 2,
    Run (Steps (step .defaults 0)) (init .defaults)
      [.issue (command .activate 0), .advance 9, .issue (command .writePrecharge 0)] s ∧
    ((∀ u v, VisitsThen (Steps (step .defaults 0)) (init .defaults)
        [.issue (command .activate 0), .advance 9, .issue (command .writePrecharge 0)] u v →
        u.bank.bounds ≤ v.bank.bounds) ↔
      Run (Guarded (KeepsPowerDown .defaults) (Steps (step .defaults 0))) (init .defaults)
        [.issue (command .activate 0), .advance 9, .issue (command .writePrecharge 0)] s) :=
  exists_run_imp (fun _ => True) (by decide +kernel) fun _ hrun _ => forall_bounds_le_iff hrun

/-- One subarray is open, and the other one is being refreshed until cycle 107. A write with an
implicit precharge to the first takes back the bound on a power down that the refresh has set,
and the bank accepts a power down in the middle of the refresh. -/
theorem write_lowers_nextPowerDown : ∃ s t u : BankSystem 1 2,
    Run (Steps (step .defaults 0)) (init .defaults)
      [.issue (command .activate 0), .issue (command .refresh 1), .advance 9] s ∧
    step .defaults 0 s (.issue (command .writePrecharge 0)) = some t ∧
    s.bank.nextPowerDown = 107 ∧ t.bank.nextPowerDown = 39 ∧
    Run (Steps (step .defaults 0)) t
      [.advance 7, .complete 0 2, .advance 4, .complete 0 2, .advance 4, .complete 0 0,
        .advance 6, .complete 0 0, .advance 9, .complete 0 0,
        .issue (command .powerdownPDPF 0)] u ∧
    u.now = 39 ∧ u.bank.state = .pdpf ∧ (u.bank.subArrays 1).state = .refreshing := by
  obtain ⟨s, hrun, hs⟩ := exists_run_of_any (step .defaults 0) (init .defaults : BankSystem 1 2)
    [.issue (command .activate 0), .issue (command .refresh 1), .advance 9]
    (fun s => (step .defaults 0 s (.issue (command .writePrecharge 0))).any
      fun t : BankSystem 1 2 => decide (s.bank.nextPowerDown = 107 ∧ t.bank.nextPowerDown = 39) &&
        (exec (step .defaults 0) t
          [.advance 7, .complete 0 2, .advance 4, .complete 0 2, .advance 4, .complete 0 0,
            .advance 6, .complete 0 0, .advance 9, .complete 0 0,
            .issue (command .powerdownPDPF 0)]).any fun u : BankSystem 1 2 =>
          decide (u.now = 39 ∧ u.bank.state = .pdpf ∧ (u.bank.subArrays 1).state = .refreshing))
    (by decide +kernel)
  obtain ⟨t, ht, hbounds⟩ := (Option.any_eq_true _ _).mp hs
  obtain ⟨hbounds, hu⟩ := Bool.and_eq_true_iff.mp hbounds
  obtain ⟨u, hrun', hu⟩ := exists_run_of_any _ _ _ _ hu
  have hbounds := of_decide_eq_true hbounds
  exact ⟨s, t, u, hrun, ht, hbounds.1, hbounds.2, hrun', of_decide_eq_true hu⟩

end BankSystem

end HybridMemory.NVMain.CommandPath

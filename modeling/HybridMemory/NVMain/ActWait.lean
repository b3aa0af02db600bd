import HybridMemory.NVMain.BankRuns

/-!
# The waiting time for activations

`IsIssuable` of a bank counts the activations that it rejects at the level of the bank, and adds
`nextActivate - now` to `actWaitTotal`, in 64 bits. It rejects an activation that comes before
`nextActivate`, and every activation while the bank is powered down. In the second case
`nextActivate` may be a cycle of the past, and the difference wraps around.

* `actWaitTotal_isIssuable_iff`: after every run, a query adds the number of cycles until
  `nextActivate` to the total if and only if the sum fits 64 bits, and either the query is for
  an activation and does not find the bank powered down after `nextActivate`, or it is for
  another command and finds `nextActivate` passed.
-/

namespace HybridMemory.NVMain.CommandPath

open Transition

variable {n m : ℕ}

/-- A bank with its counters of the activations that waited. -/
structure WaitSystem (n m : ℕ) extends BankSystem n m where
  actWaits : ℕ := 0
  actWaitTotal : ℕ := 0

/-- What can happen to a bank, together with the queries by the level above. -/
inductive WaitAction (n m : ℕ)
  /-- A command, a completion, or time that passes. -/
  | bank (a : BankAction n m)
  /-- A call of `IsIssuable`. -/
  | isIssuable (r : NVMainRequest n m)

namespace WaitSystem

/-- The bank after configuration. -/
def init (p : Params) : WaitSystem n m where
  toBankSystem := .init p

/-- What `IsIssuable` does to the counters. Its answer is `DDR3Bank.isIssuable`. -/
def isIssuable (r : NVMainRequest n m) (s : WaitSystem n m) : WaitSystem n m :=
  if r.type = .activate ∧ (s.now < s.bank.nextActivate ∨ s.bank.state.isPowerDown) then
    { s with
      actWaits := (s.actWaits + 1) % 2 ^ 64
      actWaitTotal := (s.actWaitTotal + ncycle (s.bank.nextActivate - s.now)) % 2 ^ 64 }
  else s

/-- One step. Time passes as long as the cycles at which a bank may be powered up fit the type
of cycles. A command that is issued is issuable, so the query that `IssueCommand` makes itself
leaves the counters alone. -/
def step (p : Params) (b : Fin n) (s : WaitSystem n m) : WaitAction n m → Option (WaitSystem n m)
  | .bank a =>
    (BankSystem.step p b s.toBankSystem a).bind fun t =>
      if t.now + p.tXP < 2 ^ 64 then some { s with toBankSystem := t } else none
  | .isIssuable r => some (s.isIssuable r)

/-- The number of cycles until `nextActivate`, zero if it has passed. -/
def untilActivate (s : WaitSystem n m) : ℕ := s.bank.nextActivate - s.now

/-- The new total fits 64 bits. A bank that is powered down is not asked about an activation
after `nextActivate`, and a bank is not asked about another command before. -/
def CountsExactly (r : NVMainRequest n m) (s : WaitSystem n m) : Prop :=
  s.actWaitTotal + s.untilActivate < 2 ^ 64 ∧
    (r.type = .activate → s.bank.state.isPowerDown → s.now ≤ s.bank.nextActivate) ∧
    (r.type ≠ .activate → s.bank.nextActivate ≤ s.now)

instance (r : NVMainRequest n m) (s : WaitSystem n m) : Decidable (s.CountsExactly r) :=
  inferInstanceAs (Decidable (_ ∧ (_ → _ → _) ∧ (_ → _)))

end WaitSystem

/-! ### The bound on activations -/

namespace DDR3Bank

variable {p : Params} {now : ℕ} {b : Fin n} {r : NVMainRequest n m} {k : DDR3Bank n m}
  {reply : Reply n m (DDR3Bank n m)}

theorem nextActivate_commandBounds (bounds : Bounds) :
    (commandBounds p now r bounds).nextActivate = bounds.nextActivate := by
  unfold commandBounds
  split <;> rfl

/-- Only powering up sets the bound on activations at the level of the bank. -/
theorem nextActivate_issueCommand_le (hi : k.isIssuable p now r)
    (h : k.issueCommand p now b r = some reply) :
    reply.object.nextActivate ≤ max k.nextActivate (now + p.tXP) := by
  have hset : reply.object.bounds = (commandBounds p now r k.toBounds, k.nextPowerUp) →
      reply.object.nextActivate ≤ max k.nextActivate (now + p.tXP) := fun heq => by
    have hbounds := congrArg (fun bounds : Bounds × ℕ => bounds.1.nextActivate) heq
    simp only [bounds, nextActivate_commandBounds] at hbounds
    exact hbounds.trans_le (le_max_left _ _)
  cases issued_of_isIssuable hi h with
  | passesOn reply hr h => exact hset (bounds_passOn h)
  | refuses hr hstate hempty => exact le_max_left _ _
  | prechargesAll reply hr hchildren h => exact hset (bounds_prechargeAll h)
  | powersDown hr hstate => exact le_max_left _ _
  | powersUp hr hstate => exact le_rfl

end DDR3Bank

/-! ### Runs -/

namespace WaitSystem

variable {p : Params} {b : Fin n} {s t : WaitSystem n m} {r : NVMainRequest n m}

/-- All values fit 64 bits, and the bound on activations is at most `tXP` cycles ahead. -/
structure Fits (p : Params) (s : WaitSystem n m) : Prop where
  now : s.now + p.tXP < 2 ^ 64
  nextActivate : s.bank.nextActivate ≤ s.now + p.tXP
  actWaitTotal : s.actWaitTotal < 2 ^ 64

theorem fits_init (hp : p.tXP < 2 ^ 64) : (init p : WaitSystem n m).Fits p :=
  ⟨by simpa [init, BankSystem.init] using hp, by simp [init, BankSystem.init], by simp [init]⟩

theorem nextActivate_step {u v : BankSystem n m} {a : BankAction n m}
    (hu : u.bank.nextActivate ≤ u.now + p.tXP) (h : BankSystem.step p b u a = some v) :
    v.bank.nextActivate ≤ v.now + p.tXP := by
  cases a with
  | issue r =>
    obtain ⟨hi, reply, hreply, rfl⟩ := BankSystem.step_issue_eq_some.mp h
    exact (DDR3Bank.nextActivate_issueCommand_le hi hreply).trans (max_le hu le_rfl)
  | complete a i =>
    obtain ⟨e, -, -, rfl⟩ := BankSystem.step_complete_eq_some.mp h
    exact hu
  | advance cycles =>
    obtain ⟨-, rfl⟩ := BankSystem.step_advance_eq_some.mp h
    dsimp only
    omega

theorem fits_step {a : WaitAction n m} (hs : s.Fits p) (h : step p b s a = some t) : t.Fits p := by
  cases a with
  | bank a =>
    obtain ⟨u, hu, h⟩ := Option.bind_eq_some_iff.mp h
    obtain ⟨hnow, heq⟩ := Option.ite_none_right_eq_some.mp h
    cases heq
    exact ⟨hnow, nextActivate_step hs.nextActivate hu, hs.actWaitTotal⟩
  | isIssuable r =>
    cases h
    unfold isIssuable
    split
    · exact ⟨hs.now, hs.nextActivate, Nat.mod_lt _ (by norm_num)⟩
    · exact hs

/-- A query of a bank whose values fit 64 bits. -/
theorem Fits.isIssuable_iff (hs : s.Fits p) :
    (s.isIssuable r).actWaitTotal = s.actWaitTotal + s.untilActivate ↔ s.CountsExactly r := by
  obtain ⟨hnow, hnext, htotal⟩ := hs
  by_cases hwaits : r.type = .activate ∧ (s.now < s.bank.nextActivate ∨ s.bank.state.isPowerDown)
  · -- the difference is added, and it wraps if the bank is powered down after the bound
    have hpower : (s.bank.state.isPowerDown → s.now ≤ s.bank.nextActivate) ↔
        s.now ≤ s.bank.nextActivate :=
      ⟨fun h => hwaits.2.elim le_of_lt h, fun h _ => h⟩
    rw [isIssuable, if_pos hwaits]
    simp only [CountsExactly, hwaits.1, ne_eq, not_true, false_implies, true_implies, and_true,
      hpower, untilActivate, ncycle]
    omega
  · -- nothing is added
    simp only [isIssuable, if_neg hwaits, CountsExactly, untilActivate]
    by_cases htype : r.type = .activate
    · obtain ⟨hpassed, hup⟩ := not_or.mp (not_and.mp hwaits htype)
      simp only [htype, ne_eq, not_true, false_implies, true_implies, hup, Bool.false_eq_true,
        and_true]
      omega
    · simp only [htype, ne_eq, not_false_eq_true, false_implies, true_implies, true_and]
      omega

/-- **What a query adds.** After every run, a query, rejected or not, adds the number of cycles
until `nextActivate` to the total, which then is not below what it was, if and only if the
condition `CountsExactly` is met. -/
theorem actWaitTotal_isIssuable_iff {actions : List (WaitAction n m)} (hp : p.tXP < 2 ^ 64)
    (hrun : Run (Steps (step p b)) (init p) actions s) :
    ((s.isIssuable r).actWaitTotal = s.actWaitTotal + s.untilActivate ∧
      s.actWaitTotal ≤ (s.isIssuable r).actWaitTotal) ↔ s.CountsExactly r := by
  have hfits : s.Fits p := hrun.invariant (P := Fits p) (fits_init hp)
    fun _ _ _ hs hstep => fits_step hs hstep
  rw [← hfits.isIssuable_iff]
  exact ⟨And.left, fun h => ⟨h, h ▸ Nat.le_add_right _ _⟩⟩

/-- An activation that comes too early, after the bank was powered up. -/
theorem actWaitTotal_isIssuable_early : ∃ s : WaitSystem 1 2,
    Run (Steps (step .defaults 0)) (init .defaults)
      [.bank (.issue (BankSystem.command .powerdownPDPF 0)), .bank (.advance 6),
        .bank (.issue (BankSystem.command .powerup 0)), .bank (.advance 2)] s ∧
    s.bank.isIssuable .defaults s.now (BankSystem.command .activate 0) = false ∧
    s.CountsExactly (BankSystem.command .activate 0) ∧
    (s.isIssuable (BankSystem.command .activate 0)).actWaitTotal = 4 ∧
    ((s.isIssuable (BankSystem.command .activate 0)).actWaitTotal =
        s.actWaitTotal + s.untilActivate ∧
      s.actWaitTotal ≤ (s.isIssuable (BankSystem.command .activate 0)).actWaitTotal) := by
  refine exists_run_imp (fun s =>
    s.bank.isIssuable .defaults s.now (BankSystem.command .activate 0) = false ∧
      s.CountsExactly (BankSystem.command .activate 0) ∧
      (s.isIssuable (BankSystem.command .activate 0)).actWaitTotal = 4) (by decide +kernel)
    fun s hrun hs => ?_
  obtain ⟨hr, hexact, htotal⟩ := hs
  exact ⟨hr, hexact, htotal, (actWaitTotal_isIssuable_iff (by decide) hrun).mpr hexact⟩

/-- A bank that has been powered down for five cycles is asked twice about an activation. The
first query adds `2 ^ 64 - 5` where no cycle is left to wait, and the second one takes the total
below what it was. -/
theorem actWaitTotal_wraps : ∃ s t : WaitSystem 1 2,
    Run (Steps (step .defaults 0)) (init .defaults)
      [.bank (.issue (BankSystem.command .powerdownPDPF 0)), .bank (.advance 5)] s ∧
    step .defaults 0 s (.isIssuable (BankSystem.command .activate 0)) = some t ∧
    s.bank.isIssuable .defaults s.now (BankSystem.command .activate 0) = false ∧
    s.untilActivate = 0 ∧ s.actWaitTotal = 0 ∧ t.actWaitTotal = 2 ^ 64 - 5 ∧
    t.bank.isIssuable .defaults t.now (BankSystem.command .activate 0) = false ∧
    (t.isIssuable (BankSystem.command .activate 0)).actWaitTotal < t.actWaitTotal := by
  obtain ⟨s, hrun, hs⟩ := exists_run_of_any (step .defaults 0) (init .defaults : WaitSystem 1 2)
    [.bank (.issue (BankSystem.command .powerdownPDPF 0)), .bank (.advance 5)]
    (fun s => decide (
      s.bank.isIssuable .defaults s.now (BankSystem.command .activate 0) = false ∧
      s.untilActivate = 0 ∧ s.actWaitTotal = 0) &&
      let t := s.isIssuable (BankSystem.command .activate 0)
      decide (t.actWaitTotal = 2 ^ 64 - 5 ∧
        t.bank.isIssuable .defaults t.now (BankSystem.command .activate 0) = false ∧
        (t.isIssuable (BankSystem.command .activate 0)).actWaitTotal < t.actWaitTotal))
    (by decide +kernel)
  obtain ⟨hs, ht⟩ := Bool.and_eq_true_iff.mp hs
  obtain ⟨hr, huntil, htotal⟩ := of_decide_eq_true hs
  exact ⟨s, _, hrun, rfl, hr, huntil, htotal, of_decide_eq_true ht⟩

end WaitSystem

end HybridMemory.NVMain.CommandPath

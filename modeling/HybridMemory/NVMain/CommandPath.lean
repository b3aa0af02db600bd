import HybridMemory.Lib.Transition
import HybridMemory.NVMain.StandardRank

/-!
# Runs of the command path

The memory controller issues commands to a rank, the event queue delivers the completions that
rank and subarrays have scheduled, other ranks notify about their use of the bus, and time
passes up to the next completion. A run is any interleaving of these.

* `succeeds_iff`: in a run whose issued commands all meet `StandardRank.Meets`, a request that
  `IsIssuable` accepts succeeds at every level if and only if it meets the condition itself;
* `nextIssuable_le_now`: a request to one bank is not accepted before the cycle that
  `NextIssuable` computes for it from the bounds of the three levels.

The condition asks three things. A `PRECHARGE_ALL` must not find a subarray twice in
`activeSubArrayQueue`; without `UsePrecharge`, every change of rows puts it there once more.
A write, or a precharge that writes back, must not bring data on which `WriteCellData2` fails
an assertion. And a `POWERUP` must find the rank itself powered down, which `InitPD` does to
the banks only.
-/

namespace HybridMemory.NVMain.CommandPath

open Transition Function

variable {n m : ℕ}

/-- A rank, and the current cycle of the event queue. -/
structure System (n m : ℕ) where
  now : ℕ := 0
  rank : StandardRank n m

/-- What can happen to a rank. -/
inductive Action (n m : ℕ)
  /-- The controller calls `IssueCommand`. -/
  | issue (r : NVMainRequest n m)
  /-- Another rank uses the bus. -/
  | notify (r : NVMainRequest n m)
  /-- The event queue delivers the event at a position among those of a subarray. -/
  | completeSubArray (b : Fin n) (a : Fin m) (i : ℕ)
  /-- The event queue delivers the event at a position among those of the rank. -/
  | completeRank (i : ℕ)
  /-- Time passes. -/
  | advance (cycles : ℕ)

namespace System

/-- The system after configuration. -/
def init (p : Params) : System n m where
  rank := .init p

/-- No event is due before the cycle `t`. -/
def quietUntil (t : ℕ) (s : System n m) : Prop :=
  (∀ e ∈ s.rank.responses, t ≤ e.cycle) ∧
    ∀ b a, ∀ e ∈ ((s.rank.banks b).subArrays a).responses, t ≤ e.cycle

instance (t : ℕ) (s : System n m) : Decidable (s.quietUntil t) :=
  inferInstanceAs (Decidable ((∀ e ∈ _, _) ∧ ∀ _ _, ∀ e ∈ _, _))

/-- The event queue calls `RequestComplete` of a subarray, which may hand the request on to the
rank. -/
def completeSubArray (p : Params) (b : Fin n) (a : Fin m) (i : ℕ) (e : Response n m)
    (s : System n m) : System n m :=
  let bank := s.rank.banks b
  let array := bank.subArrays a
  let out := { array with responses := array.responses.eraseIdx i }.requestComplete p s.now
    (.subArray b a) e.request
  let bank := { bank with subArrays := update bank.subArrays a out.1 }
  let rank := { s.rank with banks := update s.rank.banks b bank }
  { s with rank := out.2.elim rank fun r => rank.requestComplete r }

/-- One step; none if the action is not possible, or the program does not return from it. -/
def step (p : Params) (s : System n m) : Action n m → Option (System n m)
  | .issue r => (s.rank.issueCommand p s.now r).map fun reply => { s with rank := reply.object }
  | .notify r => some { s with rank := s.rank.notify p s.now r }
  | .completeSubArray b a i =>
    match ((s.rank.banks b).subArrays a).responses[i]? with
    | some e => if e.cycle ≤ s.now then some (s.completeSubArray p b a i e) else none
    | none => none
  | .completeRank i =>
    match s.rank.responses[i]? with
    | some e =>
      if e.cycle ≤ s.now then
        let rank := { s.rank with responses := s.rank.responses.eraseIdx i }
        some { s with rank := rank.requestComplete e.request }
      else none
    | none => none
  | .advance cycles =>
    if s.quietUntil (s.now + cycles) then some { s with now := s.now + cycles } else none

/-- `IsIssuable` of the rank accepts the request at the current cycle. -/
def Accepts (p : Params) (s : System n m) (r : NVMainRequest n m) : Prop :=
  s.rank.isIssuable p s.now r = some true

instance (p : Params) (s : System n m) (r : NVMainRequest n m) : Decidable (s.Accepts p r) :=
  inferInstanceAs (Decidable (_ = _))

/-- A command that is issued and accepted meets the condition. -/
def Meets (p : Params) (s : System n m) : Action n m → Prop
  | .issue r => s.Accepts p r → s.rank.Meets p r
  | _ => True

instance (p : Params) (s : System n m) (a : Action n m) : Decidable (s.Meets p a) :=
  match a with
  | .issue _ => inferInstanceAs (Decidable (_ → _))
  | .notify _ | .completeSubArray .. | .completeRank _ | .advance _ => .isTrue trivial

variable {p : Params} {s t : System n m} {r : NVMainRequest n m}

/-! ### The invariant -/

theorem inv_init : (init p : System n m).rank.Inv := fun _ =>
  ⟨fun h => by by_cases hp : p.initPD = true <;> simp [init, StandardRank.init, hp] at h,
    fun _ => le_refl _⟩

/-- A command that is not accepted changes nothing. -/
theorem object_of_not_accepts {reply : Reply n m (StandardRank n m)} (hr : ¬ s.Accepts p r)
    (h : s.rank.issueCommand p s.now r = some reply) : reply.object = s.rank := by
  obtain ⟨issuable, hissuable, h⟩ := Option.bind_eq_some_iff.mp h
  cases issuable with
  | true => exact absurd hissuable hr
  | false =>
    cases h
    rfl

theorem inv_requestComplete {k : StandardRank n m} (hk : k.Inv) : (k.requestComplete r).Inv := by
  unfold StandardRank.requestComplete
  split <;> exact hk

/-- The completion of a request in a subarray touches neither the list of active subarrays nor
the bounds. -/
theorem inv_completeSubArray (hs : s.rank.Inv) (b : Fin n) (a : Fin m) (i : ℕ)
    (e : Response n m) : (s.completeSubArray p b a i e).rank.Inv := by
  have hrank : ∀ array : SubArray n m, array.Restorable →
      ({ s.rank with banks := update s.rank.banks b { s.rank.banks b with
        subArrays := update (s.rank.banks b).subArrays a array } } :
          StandardRank n m).Inv := fun array harray =>
    StandardRank.inv_update hs
      ⟨(hs b).active, DDR3Bank.restorable_update (hs b).restorable harray⟩
  have hout := hrank _ (SubArray.restorable_requestComplete p s.now (.subArray b a) e.request
    (a := { (s.rank.banks b).subArrays a with
      responses := ((s.rank.banks b).subArrays a).responses.eraseIdx i })
    ((hs b).restorable a))
  unfold completeSubArray
  dsimp only
  generalize (SubArray.requestComplete p s.now (.subArray b a) e.request _) = out at hout ⊢
  cases out.2 with
  | none => exact hout
  | some r => exact inv_requestComplete hout

/-- A step keeps the invariant, if a command that it issues meets the condition. -/
theorem inv_step {a : Action n m} (hs : s.rank.Inv) (hmeets : s.Meets p a)
    (h : step p s a = some t) : t.rank.Inv := by
  cases a with
  | issue r =>
    obtain ⟨reply, hreply, rfl⟩ := Option.map_eq_some_iff.mp h
    by_cases hr : s.Accepts p r
    · obtain ⟨reply', heq, -, hinv⟩ := StandardRank.issueCommand_of_meets hs hr (hmeets hr)
      obtain rfl := Option.some.inj (heq.symm.trans hreply)
      exact hinv
    · exact (object_of_not_accepts hr hreply).symm ▸ hs
  | notify r =>
    cases h
    dsimp only [StandardRank.notify]
    split <;> exact hs
  | completeSubArray b a i =>
    simp only [step] at h
    split at h
    · obtain ⟨-, heq⟩ := Option.ite_none_right_eq_some.mp h
      cases heq
      exact inv_completeSubArray hs b a i _
    · cases h
  | completeRank i =>
    simp only [step] at h
    split at h
    · obtain ⟨-, heq⟩ := Option.ite_none_right_eq_some.mp h
      cases heq
      exact inv_requestComplete hs
    · cases h
  | advance cycles =>
    obtain ⟨-, heq⟩ := Option.ite_none_right_eq_some.mp h
    cases heq
    exact hs

/-! ### What is accepted succeeds -/

/-- In a run whose issued commands all meet the condition, a request that `IsIssuable` accepts
succeeds at every level if and only if it meets the condition. -/
theorem succeeds_iff {actions : List (Action n m)}
    (hrun : Run (Guarded (Meets p) (Steps (step p))) (init p) actions s)
    (hr : s.Accepts p r) : s.rank.Succeeds p s.now r ↔ s.rank.Meets p r := by
  have hinv : s.rank.Inv := hrun.invariant (P := fun s : System n m => s.rank.Inv) inv_init
    fun s a t hs hstep => inv_step hs hstep.1 hstep.2
  refine ⟨StandardRank.meets_of_succeeds hinv hr, fun hmeets => ?_⟩
  obtain ⟨reply, heq, hlog, -⟩ := StandardRank.issueCommand_of_meets hinv hr hmeets
  rw [StandardRank.Succeeds, heq, Option.map_some, hlog]

/-- A command to the only subarray of the only bank. -/
def command (type : OpType) (row : ℕ) : NVMainRequest 1 1 :=
  { id := some row, type := type, row := row, bank := 0, subarray := 0 }

/-- A read of a row that was opened. -/
theorem succeeds_iff_read : ∃ s : System 1 1,
    Run (Guarded (Meets {}) (Steps (step {}))) (init {})
      [.advance 20, .issue (command .activate 3), .advance 9] s ∧
    s.Accepts {} (command .read 3) ∧
    (s.rank.Succeeds {} s.now (command .read 3) ↔ s.rank.Meets {} (command .read 3)) :=
  exists_run_guarded_imp (fun s => s.Accepts {} (command .read 3)) (by decide +kernel)
    fun _ hrun haccepts => ⟨haccepts, succeeds_iff hrun haccepts⟩

/-- **`NextIssuable` is a lower bound.** An activation, read, write or precharge that `IsIssuable`
accepts has reached the cycle that `NextIssuable` computes, in every state of the rank. -/
theorem nextIssuable_le_now (hr : r.type.namesBank) (h : s.Accepts p r) :
    ∃ t, s.rank.nextIssuable p r = some t ∧ t ≤ s.now := by
  have hbank := DDR3Bank.nextIssuable_le (StandardRank.issueCommand_eq_passOn hr h).1
  rcases htype : r.type <;> simp only [OpType.namesBank, htype, Bool.false_eq_true] at hr <;>
    simp only [Accepts, StandardRank.isIssuable, htype, Option.some.injEq, Bool.and_eq_true,
      decide_eq_true_eq, not_or, not_lt] at h <;>
    refine ⟨_, by simp only [StandardRank.nextIssuable, htype]; rfl, max_le hbank ?_⟩
  case activate => exact max_le h.1.1 h.1.2
  all_goals exact h.1

/-- A read of an open row, at the first cycle at which it is issuable. -/
theorem nextIssuable_le_now_read : ∃ s : System 1 1,
    Run (Steps (step {})) (init {})
      [.advance 20, .issue (command .activate 3), .advance 9] s ∧
    s.Accepts {} (command .read 3) ∧ s.now = 29 ∧
    s.rank.nextIssuable {} (command .read 3) = some 29 ∧
    ∃ t, s.rank.nextIssuable {} (command .read 3) = some t ∧ t ≤ s.now :=
  exists_run_imp (fun s => s.Accepts {} (command .read 3) ∧ s.now = 29 ∧
    s.rank.nextIssuable {} (command .read 3) = some 29) (by decide +kernel) fun _ _ hs =>
      ⟨hs.1, hs.2.1, hs.2.2, nextIssuable_le_now rfl hs.1⟩

/-- The default parameters, without precharges between activations. -/
def noPrecharge : Params := { Params.defaults with usePrecharge := false }

/-- Without `UsePrecharge`, a second activation puts the subarray into the list of active ones
once more. The rank then accepts a `PRECHARGE_ALL`, and the subarray refuses its second
precharge. -/
theorem accepted_not_carried_out : ∃ s : System 1 1,
    Run (Steps (step noPrecharge)) (init noPrecharge)
      [.advance 20, .issue (command .activate 0), .advance 5, .issue (command .activate 1),
        .advance 19, .completeSubArray 0 0 0, .advance 5, .completeSubArray 0 0 0] s ∧
    s.Accepts noPrecharge (command .prechargeAll 1) ∧
    ¬ s.rank.Succeeds noPrecharge s.now (command .prechargeAll 1) :=
  exists_run (by decide +kernel)

-- with `InitPD`, the first `POWERUP` finds the rank's own state closed
example : (init { initPD := true } : System 1 1).Accepts { initPD := true } (command .powerup 0) ∧
    ¬ (init { initPD := true } : System 1 1).rank.Succeeds { initPD := true } 0
      (command .powerup 0) := by
  decide +kernel

end System

end HybridMemory.NVMain.CommandPath

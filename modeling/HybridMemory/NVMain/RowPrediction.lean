import HybridMemory.Lib.Speculation
import HybridMemory.Lib.Transition
import HybridMemory.NVMain.ControllerSteps

/-!
# The rows that the controller predicts

With a queue for each bank, the commands of a bank are issued in the order in which they were
queued, so that the controller can predict the rows that will be open. Here the controller is
run together with the open rows of the banks.

* `RowSystem.prediction_right`: in every run, for every bank, executing the pending commands
  of its queue leads from the open rows to the predicted ones, every read and write finds its
  row open, every activation finds its subarray closed, and `activateQueued` holds if and only
  if a subarray is predicted to be open.

The run hands reads and writes to `IssueMemoryCommands` that were not issued before, and no
request that the memory has cached while its row is not open. Such a request is queued on its
own, without a change of the prediction (`RowSystem.cached_read_not_open`).
-/

namespace HybridMemory.NVMain.MemControl

open Speculation Transition Function

/-! ### Banks -/

/-- The effect of a command on the open rows of its bank, by subarray. -/
def Request.execute (c : Request) (rows : ℕ → Option ℕ) : ℕ → Option ℕ :=
  match c.type with
  | .activate => update rows c.subarray (some c.row)
  | .precharge | .readPrecharge | .writePrecharge => update rows c.subarray none
  | .prechargeAll => fun _ => none
  | _ => rows

/-- A read or write finds its row open, and an activation its subarray closed. -/
def Request.Legal (c : Request) (rows : ℕ → Option ℕ) : Prop :=
  match c.type with
  | .activate => rows c.subarray = none
  | .read | .readPrecharge | .write | .writePrecharge => rows c.subarray = some c.row
  | _ => True

namespace BankState

/-- The rows that are predicted to be open. -/
def predicted (b : BankState) : ℕ → Option ℕ :=
  fun i => if b.activeSubArray i then some (b.effectiveRow i) else none

/-- The members of the prediction fit together. -/
structure Consistent (p : Params) (b : BankState) : Prop where
  activateQueued_iff : b.activateQueued = true ↔ ∃ i, b.activeSubArray i = true
  lt_subArrayNum : ∀ i, b.activeSubArray i = true → i < p.subArrayNum
  effectiveRow_of_closed : ∀ i, b.activeSubArray i = false → b.effectiveRow i = p.rows

/-- The bank after commands were queued: the prediction executes them, and they are legal. -/
structure Follows (p : Params) (b : BankState) (commands : List Request) (b' : BankState) :
    Prop where
  consistent : b'.Consistent p
  predicted_eq : b'.predicted = execAll Request.execute commands b.predicted
  legal : LegalAll Request.execute Request.Legal commands b.predicted

variable {p : Params} {b b' : BankState} {r : Request} {row mux i : ℕ}

theorem consistent_init : (init p).Consistent p where
  activateQueued_iff := by simp [init]
  lt_subArrayNum := by simp [init]
  effectiveRow_of_closed := fun _ _ => rfl

/-- A bank that is not activated has no open subarray. -/
theorem Consistent.activeSubArray_eq_false (hb : b.Consistent p)
    (hclosed : b.activateQueued = false) (i : ℕ) : b.activeSubArray i = false := by
  by_contra hi
  rw [hb.activateQueued_iff.mpr ⟨i, by simpa using hi⟩] at hclosed
  exact absurd hclosed (by decide)

theorem Consistent.predicted_eq_none (hb : b.Consistent p) (hclosed : b.activateQueued = false) :
    b.predicted = fun _ => none := by
  funext i
  simp [predicted, hb.activeSubArray_eq_false hclosed i]

theorem predicted_openRow : (b.openRow row mux i).predicted =
    update b.predicted i (some row) := by
  funext j
  by_cases hj : j = i
  · subst hj
    simp [predicted, openRow]
  · simp [predicted, openRow, hj]

theorem predicted_closeRow : (b.closeRow p i).predicted = update b.predicted i none := by
  funext j
  by_cases hj : j = i
  · subst hj
    simp [predicted, closeRow]
  · simp [predicted, closeRow, hj]

theorem Consistent.openRow (hb : b.Consistent p) (hi : i < p.subArrayNum) :
    (b.openRow row mux i).Consistent p where
  activateQueued_iff := by
    refine ⟨fun _ => ⟨i, ?_⟩, fun _ => rfl⟩
    simp [BankState.openRow]
  lt_subArrayNum := by
    intro j hj
    by_cases hji : j = i
    · exact hji ▸ hi
    · exact hb.lt_subArrayNum j (by simpa [BankState.openRow, hji] using hj)
  effectiveRow_of_closed := by
    intro j hj
    by_cases hji : j = i
    · simp [BankState.openRow, hji] at hj
    · simp only [BankState.openRow, update_of_ne hji] at hj ⊢
      exact hb.effectiveRow_of_closed j hj

theorem Consistent.closeAll : (b.closeAll p).Consistent p where
  activateQueued_iff := by simp [BankState.closeAll]
  lt_subArrayNum := by simp [BankState.closeAll]
  effectiveRow_of_closed := fun _ _ => rfl

theorem Consistent.closeRow_lt (hb : b.Consistent p) (i j : ℕ)
    (hj : (b.closeRow p i).activeSubArray j = true) : j < p.subArrayNum := by
  by_cases hji : j = i
  · simp [BankState.closeRow, hji] at hj
  · exact hb.lt_subArrayNum j (by simpa [BankState.closeRow, hji] using hj)

/-- Closing a subarray leaves the rest of the prediction; `activateQueued` is set anew. -/
theorem Consistent.closeRow (hb : b.Consistent p) {activated : Bool}
    (hactivated : activated = true ↔ ∃ j, (b.closeRow p i).activeSubArray j = true) :
    ({ b.closeRow p i with activateQueued := activated } : BankState).Consistent p where
  activateQueued_iff := hactivated
  lt_subArrayNum := hb.closeRow_lt i
  effectiveRow_of_closed := by
    intro j hj
    by_cases hji : j = i
    · simp [BankState.closeRow, hji]
    · simp only [BankState.closeRow, update_of_ne hji] at hj ⊢
      exact hb.effectiveRow_of_closed j hj

/-- The scan over the subarrays finds one that is open if there is one. -/
theorem idle_eq_false_iff (hb : ∀ i, b.activeSubArray i = true → i < p.subArrayNum) :
    b.idle p = false ↔ ∃ i, b.activeSubArray i = true := by
  simp only [idle, List.all_eq_false, List.mem_range, Bool.not_eq_true', Bool.not_eq_false]
  constructor
  · rintro ⟨i, -, hi⟩
    exact ⟨i, hi⟩
  · rintro ⟨i, hi⟩
    exact ⟨i, hb i hi, hi⟩

/-- A row that is opened in a closed bank, and closed again. -/
theorem Consistent.openRow_closeRow (hb : b.Consistent p) (hclosed : b.activateQueued = false)
    (hi : i < p.subArrayNum) :
    ({ (b.openRow row mux i).closeRow p i with activateQueued := false } : BankState).Consistent
      p := by
  refine (hb.openRow hi).closeRow ⟨fun h => absurd h (by decide), ?_⟩
  rintro ⟨j, hj⟩
  by_cases hji : j = i
  · simp [BankState.closeRow, hji] at hj
  · simp [BankState.closeRow, BankState.openRow, hji, hb.activeSubArray_eq_false hclosed j] at hj

/-- A row that is closed, and with the last one of them the bank. -/
theorem Consistent.closeRow_idle (hb : b.Consistent p) (hactivated : b.activateQueued = true) :
    ({ b.closeRow p i with activateQueued :=
      (b.closeRow p i).activateQueued && !(b.closeRow p i).idle p } : BankState).Consistent p := by
  refine hb.closeRow ?_
  rw [← idle_eq_false_iff (hb.closeRow_lt i)]
  simp [BankState.closeRow, hactivated]

/-- The predicted row of a subarray that is at the row of a request. -/
theorem predicted_of_atRow (hrow : b.atRow p r = true) : b.predicted r.subarray = some r.row := by
  simp only [atRow, Bool.and_eq_true, beq_iff_eq] at hrow
  obtain ⟨⟨hactive, heq⟩, -⟩ := hrow
  simp [predicted, hactive, heq]

end BankState

/-! ### Queueing commands for a bank -/

namespace MemoryController

variable {p : Params} {child : Child} {r : Request} {s t : MemoryController} {k : BankId}

/-- Commands were queued for a bank, and its prediction follows them. -/
def Queues (p : Params) (k : BankId) (s t : MemoryController) : Prop :=
  ∃ commands b', t = (s.push (p.getCommandQueueId k 0) commands).setBank k b' ∧
    (s.banks k).Follows p commands b' ∧ ∀ c ∈ commands, c.toBankId = k ∧ c.issued = false

/-- A read or a write that was not issued before. -/
def Fresh (r : Request) : Prop := (r.type = .read ∨ r.type = .write) ∧ r.issued = false

instance (r : Request) : Decidable (Fresh r) := inferInstanceAs (Decidable (_ ∧ _))

/-- With a queue for each bank, the subarray does not matter. -/
theorem getCommandQueueId_zero (hp : p.queueModel = .perBank) (i : ℕ) :
    p.getCommandQueueId k i = p.getCommandQueueId k 0 := by
  simp [Params.getCommandQueueId, QueueLayout.queueId, hp]

/-- A fresh request needs its row open, and does not change the open rows. -/
theorem legal_of_fresh (hr : Fresh r) {rows : ℕ → Option ℕ} :
    r.Legal rows ↔ rows r.subarray = some r.row := by
  rcases hr.1 with h | h <;> simp [Request.Legal, h]

theorem execute_of_fresh (hr : Fresh r) (rows : ℕ → Option ℕ) : r.execute rows = rows := by
  rcases hr.1 with h | h <;> simp [Request.execute, h]

/-- With an implicit precharge, a fresh request needs its row open, and closes it. -/
theorem legal_implicit (hr : Fresh r) {rows : ℕ → Option ℕ} :
    (makeImplicitPrechargeRequest r).Legal rows ↔ rows r.subarray = some r.row := by
  rcases hr.1 with h | h <;> simp [Request.Legal, makeImplicitPrechargeRequest, h]

theorem execute_implicit (hr : Fresh r) (rows : ℕ → Option ℕ) :
    (makeImplicitPrechargeRequest r).execute rows = update rows r.subarray none := by
  rcases hr.1 with h | h <;> simp [Request.execute, makeImplicitPrechargeRequest, h]

theorem legal_activate {priority : Bool} {rows : ℕ → Option ℕ} :
    (s.makeActivateRequest priority r).Legal rows ↔ rows r.subarray = none := Iff.rfl

theorem execute_activate (priority : Bool) (rows : ℕ → Option ℕ) :
    (s.makeActivateRequest priority r).execute rows =
      update rows r.subarray (some r.row) := rfl

theorem queues_issueToClosedBank (hp : p.queueModel = .perBank) (hr : Fresh r)
    (hsub : r.subarray < p.subArrayNum) (hb : (s.banks r.toBankId).Consistent p)
    (hclosed : (s.banks r.toBankId).activateQueued = false) (priority : Bool) :
    Queues p r.toBankId s (s.issueToClosedBank p priority r) := by
  have hnone := hb.predicted_eq_none hclosed
  simp only [issueToClosedBank, Params.queueOf, getCommandQueueId_zero hp]
  split
  · refine ⟨_, _, rfl, ⟨?_, ?_, ?_⟩, ?_⟩
    · exact hb.openRow_closeRow hclosed hsub
    · rw [execAll_cons, execAll_cons, execAll_nil, execute_activate, execute_implicit hr]
      exact (BankState.predicted_closeRow).trans (by rw [BankState.predicted_openRow])
    · rw [legalAll_cons, legalAll_cons, legal_activate, execute_activate, legal_implicit hr, hnone]
      simp
    · simp [makeActivateRequest, makeImplicitPrechargeRequest, hr.2]
  · refine ⟨_, _, rfl, ⟨hb.openRow hsub, ?_, ?_⟩, ?_⟩
    · rw [execAll_cons, execAll_cons, execAll_nil, execute_activate, execute_of_fresh hr]
      exact BankState.predicted_openRow
    · rw [legalAll_cons, legalAll_cons, legal_activate, execute_activate, legal_of_fresh hr, hnone]
      simp
    · simp [makeActivateRequest, hr.2]

/-- The subarray is closed first if it is open, so the activation is legal. -/
theorem queues_issueToOtherRow (hp : p.queueModel = .perBank) (hpre : p.usePrecharge = true)
    (hr : Fresh r) (hsub : r.subarray < p.subArrayNum)
    (hb : (s.banks r.toBankId).Consistent p) (priority : Bool) :
    Queues p r.toBankId s (s.issueToOtherRow p priority r) := by
  simp only [issueToOtherRow, Params.queueOf, getCommandQueueId_zero hp, hpre, and_true]
  refine ⟨_, _, rfl, ⟨hb.openRow hsub, ?_, ?_⟩, ?_⟩
  · rw [BankState.predicted_openRow, execAll_append, execAll_cons, execAll_cons, execAll_nil,
      execute_activate, execute_of_fresh hr]
    split
    · simp [Request.execute, makePrechargeRequest]
    · simp
  · rw [legalAll_append, legalAll_cons, legalAll_cons, legal_activate, execute_activate,
      legal_of_fresh hr]
    split
    · simp [Request.execute, Request.Legal, makePrechargeRequest]
    · rename_i hactive
      simp [BankState.predicted, hactive]
  · split <;> simp [makeActivateRequest, makePrechargeRequest, hr.2]

theorem queues_issueToOpenRow (hp : p.queueModel = .perBank) (hr : Fresh r)
    (hb : (s.banks r.toBankId).Consistent p)
    (hactivated : (s.banks r.toBankId).activateQueued = true)
    (hrow : (s.banks r.toBankId).atRow p r = true) :
    Queues p r.toBankId s (s.issueToOpenRow p r) := by
  have hopen := BankState.predicted_of_atRow hrow
  simp only [issueToOpenRow, Params.queueOf, getCommandQueueId_zero hp]
  generalize update (s.banks r.toBankId).starvationCounter r.subarray _ = starvation
  -- the starvation counter is not a part of the prediction
  have hb :
      ({ s.banks r.toBankId with starvationCounter := starvation } : BankState).Consistent p :=
    ⟨hb.activateQueued_iff, hb.lt_subArrayNum, hb.effectiveRow_of_closed⟩
  split
  · refine ⟨_, _, rfl, ⟨?_, ?_, ?_⟩, ?_⟩
    · exact hb.closeRow_idle hactivated
    · rw [execAll_cons, execAll_nil, execute_implicit hr]
      exact BankState.predicted_closeRow
    · rw [legalAll_cons, legal_implicit hr]
      exact ⟨hopen, trivial⟩
    · simp [makeImplicitPrechargeRequest, hr.2]
  · refine ⟨_, _, rfl, ⟨hb, ?_, ?_⟩, ?_⟩
    · rw [execAll_cons, execAll_nil, execute_of_fresh hr]
      rfl
    · rw [legalAll_cons, legal_of_fresh hr]
      exact ⟨hopen, trivial⟩
    · simp [hr.2]

theorem queues_prechargeBank :
    s.prechargeBank p k = s ∨ Queues p k s (s.prechargeBank p k) := by
  unfold prechargeBank
  split
  · refine Or.inr ⟨_, _, rfl, ⟨BankState.Consistent.closeAll, ?_, ?_⟩, ?_⟩
    · rfl
    · exact ⟨trivial, trivial⟩
    · simp [makePrechargeAllRequest]
  · exact Or.inl rfl

/-- The commands of a bank that were not issued yet. -/
def pending (p : Params) (k : BankId) (s : MemoryController) : List Request :=
  (s.commandQueues (p.getCommandQueueId k 0)).filter fun c => !c.issued

/-- The row of a request is predicted to be open. -/
def RowOpen (r : Request) (s : MemoryController) : Prop :=
  (s.banks r.toBankId).predicted r.subarray = some r.row

instance (r : Request) (s : MemoryController) : Decidable (s.RowOpen r) :=
  inferInstanceAs (Decidable (_ = _))

/-- The memory does not report the request as cached, unless its row is predicted open. -/
def NotCached (p : Params) (child : Child) (r : Request) (s : MemoryController) : Prop :=
  (makeCachedRequest p r).any child.isIssuable = true → s.RowOpen r

instance (p : Params) (child : Child) (r : Request) (s : MemoryController) :
    Decidable (s.NotCached p child r) :=
  inferInstanceAs (Decidable (_ → _))

end MemoryController

/-! ### The invariant -/

open MemoryController in
/-- The prediction is right for every bank, and commands stay in a queue after they were issued
only for the rest of the cycle. -/
structure Predicted (p : Params) (s : MemoryController) (openRows : BankId → ℕ → Option ℕ) :
    Prop where
  queued : ∀ q, ∀ c ∈ s.commandQueues q,
    p.HasBank c.toBankId ∧ p.getCommandQueueId c.toBankId 0 = q ∧
      (c.issued = true → s.lastIssueCycle = s.now ∧ s.cleanupCycle = some (s.now + 1))
  predicts : ∀ k, p.HasBank k → Predicts Request.execute Request.Legal (s.pending p k)
    (openRows k) (s.banks k).predicted
  consistent : ∀ k, (s.banks k).Consistent p

namespace Predicted

open MemoryController

variable {p : Params} {child : Child} {r : Request} {s t : MemoryController} {k k' : BankId}
  {openRows : BankId → ℕ → Option ℕ} {ok : Bool}

theorem init : Predicted p (MemoryController.init p) fun _ _ => none where
  queued := by simp [MemoryController.init]
  predicts := fun _ _ => Predicts.nil _
  consistent := fun _ => BankState.consistent_init

/-- With a queue for each bank, two banks do not share a queue. -/
theorem getCommandQueueId_injective (hp : p.queueModel = .perBank) (hk : p.HasBank k)
    (hk' : p.HasBank k') (h : p.getCommandQueueId k 0 = p.getCommandQueueId k' 0) : k = k' := by
  have hunit := Params.unitOf_eq_of_getCommandQueueId_eq hk p.subArrayNum_pos hk'
    p.subArrayNum_pos h
  simpa [QueueLayout.unitOf, hp] using hunit

variable (hs : Predicted p s openRows)

include hs

/-- The invariant reads the queues, the cycles, and the prediction of each bank. -/
theorem congr (hqueues : t.commandQueues = s.commandQueues)
    (hnow : t.now = s.now) (hlast : t.lastIssueCycle = s.lastIssueCycle)
    (hcleanup : t.cleanupCycle = s.cleanupCycle)
    (hactivated : ∀ k, (t.banks k).activateQueued = (s.banks k).activateQueued)
    (hactive : ∀ k, (t.banks k).activeSubArray = (s.banks k).activeSubArray)
    (hrow : ∀ k, (t.banks k).effectiveRow = (s.banks k).effectiveRow) :
    Predicted p t openRows where
  queued := by
    rw [hqueues, hnow, hlast, hcleanup]
    exact hs.queued
  predicts := by
    intro k hk
    have hpredicted : (t.banks k).predicted = (s.banks k).predicted := by
      funext i
      simp only [BankState.predicted, hactive, hrow]
    rw [hpredicted, pending, hqueues]
    exact hs.predicts k hk
  consistent := by
    intro k
    constructor
    · rw [hactivated, hactive]
      exact (hs.consistent k).activateQueued_iff
    · rw [hactive]
      exact (hs.consistent k).lt_subArrayNum
    · rw [hactive, hrow]
      exact (hs.consistent k).effectiveRow_of_closed

/-- Commands that the prediction follows may be queued. -/
theorem queues (hp : p.queueModel = .perBank) (hk : p.HasBank k)
    (h : Queues p k s t) : Predicted p t openRows := by
  obtain ⟨commands, b', rfl, hfollows, hcommands⟩ := h
  constructor
  · intro q c hc
    by_cases hq : q = p.getCommandQueueId k 0
    · subst hq
      simp only [setBank, push, update_self, List.mem_append] at hc
      rcases hc with hc | hc
      · exact hs.queued _ c hc
      · obtain ⟨rfl, hissued⟩ := hcommands c hc
        exact ⟨hk, rfl, fun h => absurd (hissued.symm.trans h) (by decide)⟩
    · simp only [setBank, push, update_of_ne hq] at hc
      exact hs.queued q c hc
  · intro k' hk'
    by_cases hkk' : k' = k
    · subst hkk'
      have happend := (hs.predicts k' hk').append hfollows.legal
      rw [← hfollows.predicted_eq] at happend
      have hnew : commands.filter (fun c => !c.issued) = commands :=
        List.filter_eq_self.mpr fun c hc => by simp [(hcommands c hc).2]
      simpa [pending, setBank, push, hnew] using happend
    · have hq : p.getCommandQueueId k' 0 ≠ p.getCommandQueueId k 0 :=
        fun h => hkk' (getCommandQueueId_injective hp hk' hk h)
      simpa [pending, setBank, push, hq, hkk'] using hs.predicts k' hk'
  · intro k'
    by_cases hkk' : k' = k
    · subst hkk'
      simpa [setBank] using hfollows.consistent
    · simpa [setBank, push, hkk'] using hs.consistent k'

/-- A command that needs nothing and changes no row may be queued. -/
theorem push (hp : p.queueModel = .perBank) {c : Request}
    (hk : p.HasBank c.toBankId) (hissued : c.issued = false)
    (hexec : c.execute (s.banks c.toBankId).predicted = (s.banks c.toBankId).predicted)
    (hlegal : c.Legal (s.banks c.toBankId).predicted) :
    Predicted p (s.push (p.getCommandQueueId c.toBankId 0) [c]) openRows := by
  refine hs.queues hp hk ⟨[c], s.banks c.toBankId, ?_, ⟨hs.consistent _, ?_, ?_⟩, ?_⟩
  · simp [setBank, MemoryController.push]
  · rw [execAll_cons, execAll_nil, hexec]
  · exact ⟨hlegal, trivial⟩
  · simp [hissued]

/-! ### Refreshes -/

theorem foldl_prechargeBank (hp : p.queueModel = .perBank) {l : List BankId}
    (hl : ∀ k ∈ l, p.HasBank k) :
    Predicted p (l.foldl (prechargeBank p) s) openRows := by
  induction l generalizing s with
  | nil => exact hs
  | cons k l ih =>
    refine ih ?_ fun k' hk' => hl k' (List.mem_cons_of_mem k hk')
    rcases queues_prechargeBank (p := p) (s := s) (k := k) with heq | hqueues
    · rwa [heq]
    · exact hs.queues hp (hl k List.mem_cons_self) hqueues

theorem mapBanks (f : BankState → BankState) (l : List BankId)
    (hactivated : ∀ b, (f b).activateQueued = b.activateQueued)
    (hactive : ∀ b, (f b).activeSubArray = b.activeSubArray)
    (hrow : ∀ b, (f b).effectiveRow = b.effectiveRow) :
    Predicted p (s.mapBanks f l) openRows := by
  refine hs.congr rfl rfl rfl rfl ?_ ?_ ?_
  all_goals
    intro k
    dsimp only [MemoryController.mapBanks]
    split
  exacts [hactivated _, rfl, hactive _, rfl, hrow _, rfl]

theorem queueRefresh (hp : p.queueModel = .perBank) (hk : p.HasBank k) :
    Predicted p (s.queueRefresh p k) openRows := by
  have hprecharged : Predicted p
      (if p.usePrecharge then (refreshedBanks p k).foldl (prechargeBank p) s else s) openRows := by
    split
    · exact hs.foldl_prechargeBank hp fun k' hk' => hasBank_of_mem_refreshedBanks hk hk'
    · exact hs
  simp only [MemoryController.queueRefresh]
  generalize (if p.usePrecharge then (refreshedBanks p k).foldl (prechargeBank p) s else s) = s₁
    at hprecharged ⊢
  have hpushed : Predicted p (s₁.push (p.getCommandQueueId k 0) [s₁.makeRefreshRequest k])
      openRows := hprecharged.push hp (c := s₁.makeRefreshRequest k) hk rfl rfl trivial
  have hflagged := hpushed.mapBanks (fun b => { b with refreshQueued := true })
    (refreshedBanks p k) (fun _ => rfl) (fun _ => rfl) fun _ => rfl
  generalize MemoryController.mapBanks _ _ _ = s₂ at hflagged ⊢
  have hcounted : Predicted p (s₂.setRefreshCounter p k (s₂.refreshCounter p k - 1)) openRows :=
    hflagged.congr rfl rfl rfl rfl (fun _ => rfl) (fun _ => rfl) fun _ => rfl
  generalize s₂.setRefreshCounter p k _ = s₃ at hcounted ⊢
  have hreset : Predicted p (if s₃.needRefresh p k then s₃ else s₃.resetRefresh p k) openRows := by
    split
    · exact hcounted
    · exact hcounted.mapBanks _ _ (fun _ => rfl) (fun _ => rfl) fun _ => rfl
  obtain ⟨bank, rank, hnext⟩ :=
    nextRefresh_eq p (if s₃.needRefresh p k then s₃ else s₃.resetRefresh p k)
  rw [hnext]
  exact hreset.congr rfl rfl rfl rfl (fun _ => rfl) (fun _ => rfl) fun _ => rfl

theorem handleRefresh (hp : p.queueModel = .perBank) :
    Predicted p (s.handleRefresh p).1 openRows := by
  unfold MemoryController.handleRefresh
  split
  · rename_i k hfind
    exact hs.queueRefresh hp (hasBank_of_mem_refreshOrder (List.mem_of_find?_eq_some hfind))
  · exact hs

theorem processRefreshPulse : Predicted p (s.processRefreshPulse p k) openRows := by
  have hcounted : Predicted p (s.setRefreshCounter p k (s.refreshCounter p k + 1)) openRows :=
    hs.congr rfl rfl rfl rfl (fun _ => rfl) (fun _ => rfl) fun _ => rfl
  unfold MemoryController.processRefreshPulse
  dsimp only
  split
  · exact hcounted.mapBanks _ _ (fun _ => rfl) (fun _ => rfl) fun _ => rfl
  · exact hcounted

/-! ### Requests -/

theorem markRowDirty (r : Request) : Predicted p (s.markRowDirty r) openRows := by
  obtain ⟨dirty, heq⟩ := markRowDirty_eq r s
  rw [heq]
  refine hs.congr rfl rfl rfl rfl ?_ ?_ ?_
  all_goals
    intro k
    by_cases hk : k = r.toBankId
    · subst hk
      simp [setBank]
    · simp [setBank, hk]

/-- A fresh request that is not cached keeps the prediction right, whatever branch it takes. -/
theorem issueMemoryCommands (hp : p.queueModel = .perBank) (hpre : p.usePrecharge = true)
    (hr : Fresh r) (haddress : p.HasAddress r)
    (hcached : s.NotCached p child r) (h : s.issueMemoryCommands p child r = some (t, ok)) :
    Predicted p t openRows := by
  have hdirty := hs.markRowDirty r
  have hsame := sameAccess_stamp s r
  have hfresh : Fresh (s.stamp r) := ⟨hsame.type ▸ hr.1, hsame.issued ▸ hr.2⟩
  have hbankId : p.HasBank (s.stamp r).toBankId := hsame.toBankId ▸ haddress.1
  have hsub : (s.stamp r).subarray < p.subArrayNum := hsame.subarray ▸ haddress.2
  obtain ⟨dirty, hdirty_eq⟩ := markRowDirty_eq r s
  have hbank : (s.markRowDirty r).banks (s.stamp r).toBankId =
      { s.banks r.toBankId with effectiveRowDirty := dirty } := by
    simp [hdirty_eq, setBank, hsame.toBankId]
  cases issues_of_issueMemoryCommands h with
  | cached hmade hissuable hrow =>
    have hopen : s.RowOpen r := hcached (by rw [hmade]; exact hissuable)
    rw [Params.queueOf, getCommandQueueId_zero hp, ← hsame.toBankId]
    refine hdirty.push hp hbankId hfresh.2 (execute_of_fresh hfresh _) ?_
    rw [legal_of_fresh hfresh, hbank, hsame.subarray, hsame.row]
    exact hopen
  | closedBank hclosed hempty hnot =>
    refine hdirty.queues hp hbankId ?_
    refine queues_issueToClosedBank hp hfresh hsub (hdirty.consistent _) ?_ _
    rw [hbank]
    exact hclosed
  | otherRow hactivated hrow hempty =>
    refine hdirty.queues hp hbankId ?_
    exact queues_issueToOtherRow hp hpre hfresh hsub (hdirty.consistent _) _
  | openRow hactivated hrow =>
    refine hdirty.queues hp hbankId ?_
    refine queues_issueToOpenRow hp hfresh (hdirty.consistent _) ?_ ?_
    · rw [hbank]
      exact hactivated
    · rw [hbank, ← hrow]
      simp [BankState.atRow, Params.muxLevel, hsame.subarray, hsame.row, hsame.col]
  | refused hbusy => exact hdirty

/-! ### Commands -/

/-- The head of a queue was not issued before, and the memory executes it. -/
theorem issueHead (hp : p.queueModel = .perBank) {q : ℕ}
    {head : Request} {rest : List Request} (hqueue : s.commandQueues q = head :: rest)
    (hcycle : s.lastIssueCycle ≠ s.now) (h : s.issueHead p q head rest = some t) :
    Predicted p t (update openRows head.toBankId
      (head.execute (openRows head.toBankId))) := by
  have hchange := issuesHead h
  obtain ⟨hk, hq, hissued⟩ := hs.queued q head (hqueue ▸ List.mem_cons_self)
  have hissued : head.issued = false := by
    by_contra hi
    exact hcycle (hissued (by simpa using hi)).1
  -- the queues and the cycles after the issue
  have hissue : Predicted p
      { s with
        commandQueues := update s.commandQueues q ({ head with issued := true } :: rest)
        lastIssueCycle := s.now
        cleanupCycle := some (s.now + 1) }
      (update openRows head.toBankId (head.execute (openRows head.toBankId))) := by
    constructor
    · intro q' c hc
      by_cases hqq' : q' = q
      · subst hqq'
        dsimp only at hc
        rw [update_self, List.mem_cons] at hc
        rcases hc with rfl | hc
        · exact ⟨hk, hq, fun _ => ⟨rfl, rfl⟩⟩
        · obtain ⟨hk', hq', -⟩ := hs.queued q' c (hqueue ▸ List.mem_cons_of_mem head hc)
          exact ⟨hk', hq', fun _ => ⟨rfl, rfl⟩⟩
      · dsimp only at hc
        rw [update_of_ne hqq'] at hc
        obtain ⟨hk', hq', -⟩ := hs.queued q' c hc
        exact ⟨hk', hq', fun _ => ⟨rfl, rfl⟩⟩
    · intro k' hk'
      have hpredicts := hs.predicts k' hk'
      by_cases hkk' : k' = head.toBankId
      · subst hkk'
        simp only [pending, hq, hqueue, List.filter_cons, hissued, Bool.not_false, if_true]
          at hpredicts
        simpa [pending, hq] using hpredicts.pop
      · have hne : p.getCommandQueueId k' 0 ≠ q :=
          fun heq => hkk' (getCommandQueueId_injective hp hk' hk (heq.trans hq.symm))
        simpa [pending, hne, hkk'] using hpredicts
    · exact hs.consistent
  refine hissue.congr hchange.commandQueues hchange.now hchange.lastIssueCycle
    hchange.cleanupCycle ?_ ?_ ?_
  all_goals
    intro k'
    rw [hchange.banks]
    split
    · dsimp only [MemoryController.mapBanks]
      split <;> rfl
    · rfl

/-- The clean-up removes exactly the commands that are not pending. -/
theorem tick : Predicted p s.tick openRows := by
  unfold MemoryController.tick
  dsimp only
  split
  · constructor
    · intro q c hc
      obtain ⟨hc, hissued⟩ := List.mem_filter.mp hc
      obtain ⟨hk, hq, -⟩ := hs.queued q c hc
      exact ⟨hk, hq, fun hi => absurd hissued (by simp [hi])⟩
    · intro k hk
      have hpredicts := hs.predicts k hk
      simpa [pending, cleanupCallback] using hpredicts
    · exact hs.consistent
  · rename_i hcleanup
    constructor
    · intro q c hc
      obtain ⟨hk, hq, hissued⟩ := hs.queued q c hc
      exact ⟨hk, hq, fun hi => absurd (hissued hi).2 hcleanup⟩
    · exact hs.predicts
    · exact hs.consistent

end Predicted

/-! ### Runs -/

/-- The controller and the open rows of the banks. -/
structure RowSystem where
  controller : MemoryController
  openRows : BankId → ℕ → Option ℕ

namespace RowSystem

open MemoryController

/-- After configuration, all rows are closed. -/
def init (p : Params) : RowSystem := ⟨.init p, fun _ _ => none⟩

/-- A command that the controller issues is executed by its bank. -/
def execute (openRows : BankId → ℕ → Option ℕ) : Option Request → BankId → ℕ → Option ℕ
  | some c => update openRows c.toBankId (c.execute (openRows c.toBankId))
  | none => openRows

/-- One step. -/
def step (p : Params) (s : RowSystem) (a : Action) : Option RowSystem :=
  (s.controller.step p a).map fun out => ⟨out.1, execute s.openRows out.2⟩

/-- The requests that are handed over are reads and writes which were not issued before, and
which the memory has not cached unless their row is open. -/
def Uncached (p : Params) (s : RowSystem) : Action → Prop
  | .issueMemoryCommands child r => Fresh r ∧ s.controller.NotCached p child r
  | _ => True

instance (p : Params) (s : RowSystem) (a : Action) : Decidable (s.Uncached p a) :=
  match a with
  | .issueMemoryCommands _ _ => inferInstanceAs (Decidable (_ ∧ _))
  | .handleRefresh | .refreshPulse .. | .cycleCommandQueues _ | .tick => .isTrue trivial

variable {p : Params} {s t : RowSystem} {a : Action}

/-- A step keeps the prediction right. -/
theorem predicted_step (hp : p.queueModel = .perBank) (hpre : p.usePrecharge = true)
    (hs : Predicted p s.controller s.openRows) (ha : s.Uncached p a) (h : s.step p a = some t) :
    Predicted p t.controller t.openRows := by
  obtain ⟨out, hout, rfl⟩ := Option.map_eq_some_iff.mp h
  cases a with
  | issueMemoryCommands child r =>
    obtain ⟨⟨-, haddress⟩, hout⟩ := Option.ite_none_right_eq_some.mp hout
    obtain ⟨issued, hissue, rfl⟩ := Option.map_eq_some_iff.mp hout
    exact hs.issueMemoryCommands hp hpre ha.1 haddress ha.2 hissue
  | handleRefresh =>
    cases hout
    exact hs.handleRefresh hp
  | refreshPulse rank group =>
    obtain ⟨-, hout⟩ := Option.ite_none_right_eq_some.mp hout
    cases hout
    exact hs.processRefreshPulse
  | cycleCommandQueues child =>
    obtain ⟨u, issued⟩ := out
    obtain ⟨down, hcases⟩ := cycleCommandQueues_cases hout
    have hdown : Predicted p { s.controller with rankPowerDown := down } s.openRows :=
      hs.congr rfl rfl rfl rfl (fun _ => rfl) (fun _ => rfl) fun _ => rfl
    rcases hcases with
      ⟨-, rfl, rfl⟩ | ⟨-, ⟨rfl, rfl⟩ | ⟨q, -, head, rest, hqueue, hcycle, hhead, rfl⟩⟩
    · exact hdown.handleRefresh hp
    · exact hdown
    · exact hdown.issueHead hp hqueue hcycle hhead
  | tick =>
    cases hout
    exact hs.tick

/-- **The prediction is right.** In every run, for every bank: executing its pending commands
leads from the open rows to the predicted ones, and is legal; `activateQueued` holds if and
only if a subarray is predicted to be open, and a closed subarray has no effective row. -/
theorem prediction_right (hp : p.queueModel = .perBank) (hpre : p.usePrecharge = true)
    {actions : List Action}
    (hrun : Run (Guarded (Uncached p) (Steps (step p))) (init p) actions s) {k : BankId}
    (hk : p.HasBank k) :
    let b := s.controller.banks k
    execAll Request.execute (s.controller.pending p k) (s.openRows k) = b.predicted ∧
      LegalAll Request.execute Request.Legal (s.controller.pending p k) (s.openRows k) ∧
      (b.activateQueued = true ↔ ∃ i, b.activeSubArray i = true) ∧
      ∀ i, b.activeSubArray i = false → b.effectiveRow i = p.rows := by
  have hinv : Predicted p s.controller s.openRows :=
    hrun.invariant (P := fun s : RowSystem => Predicted p s.controller s.openRows)
      Predicted.init fun s a t hs hstep => predicted_step hp hpre hs hstep.1 hstep.2
  have hpredicts := hinv.predicts k hk
  have hconsistent := hinv.consistent k
  exact ⟨hpredicts.eq, hpredicts.legal, hconsistent.activateQueued_iff,
    hconsistent.effectiveRow_of_closed⟩

/-- A memory that takes every command, and has nothing cached. -/
def ready : Child where
  isIssuable c := c.type != .cachedRead && c.type != .cachedWrite

/-- A read of row 5 of the first bank. -/
def readRow : Request := { rank := 0, bank := 0, id := some 0, type := .read, row := 5 }

/-- The activation for a read was issued, and the read is pending. -/
theorem prediction_right_read : ∃ s : RowSystem,
    Run (Guarded (Uncached {}) (Steps (step {}))) (init {})
      [.issueMemoryCommands ready readRow, .tick, .cycleCommandQueues ready] s ∧
    (s.controller.pending {} ⟨0, 0⟩).map (·.type) = [.read] ∧
    (execAll Request.execute (s.controller.pending {} ⟨0, 0⟩) (s.openRows ⟨0, 0⟩) =
        (s.controller.banks ⟨0, 0⟩).predicted ∧
      LegalAll Request.execute Request.Legal (s.controller.pending {} ⟨0, 0⟩)
        (s.openRows ⟨0, 0⟩) ∧
      ((s.controller.banks ⟨0, 0⟩).activateQueued = true ↔
        ∃ i, (s.controller.banks ⟨0, 0⟩).activeSubArray i = true) ∧
      ∀ i, (s.controller.banks ⟨0, 0⟩).activeSubArray i = false →
        (s.controller.banks ⟨0, 0⟩).effectiveRow i = ({} : Params).rows) :=
  exists_run_guarded_imp (fun s => (s.controller.pending {} ⟨0, 0⟩).map (·.type) = [.read])
    (by decide +kernel) fun _ hrun hs => ⟨hs, prediction_right rfl rfl hrun (by decide)⟩

/-- A memory that has every request cached. -/
def caching : Child where
  isIssuable c := c.type == .cachedRead || c.type == .cachedWrite

/-- A read that the memory has cached is queued without an activation: when its turn comes, its
row is not open. -/
theorem cached_read_not_open : ∃ s : RowSystem,
    Run (Steps (step {})) (init {}) [.issueMemoryCommands caching readRow] s ∧
    ¬ LegalAll Request.execute Request.Legal (s.controller.pending {} ⟨0, 0⟩)
      (s.openRows ⟨0, 0⟩) := by
  refine exists_run_imp (fun s => s.controller.pending {} ⟨0, 0⟩ = [readRow] ∧
    s.openRows ⟨0, 0⟩ 0 = none) (by decide +kernel) fun s _ hs => ?_
  rw [hs.1, legalAll_cons]
  intro hlegal
  exact absurd (hs.2.symm.trans hlegal.1) (by decide)

end RowSystem

end HybridMemory.NVMain.MemControl

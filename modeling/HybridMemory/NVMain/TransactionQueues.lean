import HybridMemory.Lib.Queues
import HybridMemory.Lib.Transition
import HybridMemory.NVMain.ControllerSteps

/-!
# From the transaction queues to the command queues

A search takes a request out of a transaction queue, and the request is handed to
`IssueMemoryCommands`. All searches ask that the command queue of the request is empty, and
with an empty queue `IssueMemoryCommands` has a branch for every state of the bank.

* `handsOver_of_takes`: in every state, a request that a search takes is queued exactly once;
* `RequestSystem.requests_kept`: in every run in which no paused write is put back, each request
  that was accepted is in a transaction queue, in a command queue, in the memory, or done, and is in
  the queues at most once.

With write pausing, the memory gives a paused write back, and it is put in front of its
transaction queue with the flag `FLAG_ISSUED` from its first way through the controller. The
clean-up takes it out of the command queue before it is issued again, and it is lost
(`RequestSystem.paused_write_lost`).
-/

namespace HybridMemory.NVMain.MemControl

open Transition Function

/-- The searches of a transaction queue. -/
inductive Search
  | starvedRequest
  | rowBufferHit
  | cachedAddress
  | writeStalledRead
  | oldestReadyRequest
  | closedBankRequest
  deriving DecidableEq

namespace MemoryController

/-- Run a search. -/
def search (p : Params) (child : Child) (pred : Request → Bool) (s : MemoryController) :
    Search → List Request → Option Found
  | .starvedRequest => s.findStarvedRequest p pred
  | .rowBufferHit => s.findRowBufferHit p pred
  | .cachedAddress => s.findCachedAddress p child pred
  | .writeStalledRead => s.findWriteStalledRead p child pred
  | .oldestReadyRequest => s.findOldestReadyRequest p pred
  | .closedBankRequest => s.findClosedBankRequest p pred

variable {p : Params} {child : Child} {pred : Request → Bool} {s t : MemoryController}
  {kind : Search} {r : Request} {queue rest : List Request}

/-! ### What a search takes -/

/-- A search takes one entry for which the verdict says so, and leaves the others. -/
theorem find_taken {verdict : Request → Option Verdict}
    (h : find verdict queue = some (.taken r rest)) :
    ∃ before after, queue = before ++ r :: after ∧ rest = before ++ after ∧
      verdict r = some .take := by
  induction queue generalizing rest with
  | nil => simp [find] at h
  | cons a queue ih =>
    obtain ⟨v, hv, h⟩ := Option.bind_eq_some_iff.mp h
    cases v with
    | take =>
      cases h
      exact ⟨[], queue, rfl, rfl, hv⟩
    | stall => cases h
    | quit => cases h
    | skip =>
      obtain ⟨found, hfound, heq⟩ := Option.map_eq_some_iff.mp h
      cases found with
      | nothing => cases heq
      | stalled => cases heq
      | taken r' rest' =>
        cases heq
        obtain ⟨before, after, hqueue, hrest, htake⟩ := ih hfound
        exact ⟨a :: before, after, by rw [hqueue]; rfl, by rw [hrest]; rfl, htake⟩

theorem markLast_taken {found : Option Found} (h : found.map (markLast p) = some (.taken r rest)) :
    ∃ r', found = some (.taken r' rest) ∧
      r = { r' with lastRequest := r'.lastRequest || isLastRequest p rest r' } := by
  obtain ⟨f, hf, heq⟩ := Option.map_eq_some_iff.mp h
  cases f with
  | nothing => cases heq
  | stalled => cases heq
  | taken r' rest' =>
    cases heq
    exact ⟨r', hf, rfl⟩

/-- What a search takes out of a queue: an entry whose command queue is empty, which may be
marked as the last one for its row. -/
structure Takes (p : Params) (child : Child) (s : MemoryController) (kind : Search)
    (queue : List Request) (r : Request) (rest : List Request) : Prop where
  split : ∃ before r' after, queue = before ++ r' :: after ∧ rest = before ++ after ∧
    ∃ last, r = { r' with lastRequest := last }
  empty : s.commandQueues (p.queueOf r) = []
  /-- A restricted close-page policy marks all requests but those that are cached. -/
  last : 2 ≤ p.closePage → r.lastRequest = true ∨
    (makeCachedRequest p r).any child.isIssuable = true

theorem isLastRequest_of_restricted (h : 2 ≤ p.closePage) : isLastRequest p rest r = true := by
  obtain ⟨n, hn⟩ := Nat.exists_eq_add_of_le' h
  simp [isLastRequest, hn]

/-- A search that marks what it takes, and takes only entries whose command queue is empty. -/
theorem takes_of_marked {verdict : Request → Option Verdict}
    (hempty : ∀ r, verdict r = some .take → s.commandQueues (p.queueOf r) = [])
    (h : (find verdict queue).map (markLast p) = some (.taken r rest)) :
    Takes p child s kind queue r rest := by
  obtain ⟨r', hfind, rfl⟩ := markLast_taken h
  obtain ⟨before, after, hqueue, hrest, htake⟩ := find_taken hfind
  refine ⟨⟨before, r', after, hqueue, hrest, _, rfl⟩, hempty r' htake, fun hclose => Or.inl ?_⟩
  simp [isLastRequest_of_restricted hclose]

theorem commandQueues_of_candidate (h : s.candidate p pred r = true) :
    s.commandQueues (p.queueOf r) = [] := by
  simp only [candidate, Bool.and_eq_true, List.isEmpty_iff] at h
  exact h.1.1

theorem takes_of_candidate {test : Request → Bool}
    (h : (s.findCandidate p pred test queue).map (markLast p) = some (.taken r rest)) :
    Takes p child s kind queue r rest := by
  refine takes_of_marked (fun r htake => ?_) h
  simp only [Option.some.injEq] at htake
  split at htake
  · rename_i hcandidate
    exact commandQueues_of_candidate ((Bool.and_eq_true ..).mp hcandidate).1
  · cases htake

theorem takes_of_search (h : s.search p child pred kind queue = some (.taken r rest)) :
    Takes p child s kind queue r rest := by
  cases kind with
  | starvedRequest => exact takes_of_candidate h
  | rowBufferHit => exact takes_of_candidate h
  | oldestReadyRequest => exact takes_of_candidate h
  | closedBankRequest => exact takes_of_candidate h
  | cachedAddress =>
    obtain ⟨before, after, hqueue, hrest, htake⟩ := find_taken h
    obtain ⟨cached, hcached, htake⟩ := Option.map_eq_some_iff.mp htake
    split at htake
    · rename_i hcandidate
      obtain ⟨hcandidate, hissuable⟩ := (Bool.and_eq_true ..).mp hcandidate
      refine ⟨⟨before, r, after, hqueue, hrest, r.lastRequest, rfl⟩,
        commandQueues_of_candidate hcandidate, fun _ => Or.inr ?_⟩
      rw [hcached]
      exact hissuable
    · cases htake
  | writeStalledRead =>
    simp only [search, findWriteStalledRead] at h
    split at h
    · refine takes_of_marked (fun r htake => ?_) h
      simp only [Option.some.injEq] at htake
      split at htake
      · cases htake
      · rename_i hskip
        exact not_not.mp (not_or.mp hskip).2
    · cases h

/-! ### The hand-over -/

/-- The assertions of `IssueMemoryCommands` hold for a request. -/
def AssertionsHold (p : Params) (s : MemoryController) (r : Request) : Prop :=
  (r.type = .read ∨ r.type = .write ∨ r.type = .migration) ∧
    ¬ ((s.banks r.toBankId).activateQueued ∧ (s.banks r.toBankId).atRow p r ∧
      r.lastRequest ∧ p.usePrecharge ∧ p.closePage = 2)

/-- `IssueMemoryCommands` returns true, and queues the request once, in its own queue. -/
def HandsOver (p : Params) (child : Child) (r : Request) (s : MemoryController) : Prop :=
  ∃ t, s.issueMemoryCommands p child r = some (t, true) ∧ ∀ n, r.id = some n → ∀ q,
    (t.commandQueues q).countP (·.id == some n) =
      (s.commandQueues q).countP (·.id == some n) + if q = p.queueOf r then 1 else 0

/-- With an empty command queue, one of the branches applies. -/
theorem issueMemoryCommands_of_empty (child : Child)
    (hempty : s.commandQueues (p.queueOf r) = [])
    (hassert : p.ndebug = true ∨ AssertionsHold p s r) :
    ∃ t, s.issueMemoryCommands p child r = some (t, true) := by
  obtain ⟨cached, hcached⟩ : ∃ cached, makeCachedRequest p r = some cached :=
    ⟨_, if_pos (hassert.imp id And.left)⟩
  simp only [issueMemoryCommands, hcached, Option.bind_some, hempty, List.isEmpty_nil, and_true]
  split_ifs with hc hclosed hother hopen hnot
  · exact ⟨_, rfl⟩
  · exact ⟨_, rfl⟩
  · exact ⟨_, rfl⟩
  · exact ⟨_, rfl⟩
  · obtain ⟨hdebug, hrow⟩ := not_or.mp hnot
    exact absurd ⟨hopen.1, hopen.2, not_not.mp hrow⟩ (hassert.resolve_left hdebug).2
  · cases hb : (s.banks r.toBankId).activateQueued with
    | false => exact absurd hb hclosed
    | true =>
      cases hrow : (s.banks r.toBankId).atRow p r with
      | false => exact absurd ⟨hb, hrow⟩ hother
      | true => exact absurd ⟨hb, hrow⟩ hopen

/-- The request is the only command with an identity that is queued. -/
theorem QueuesRequest.countP_eq {ok : Bool} (h : QueuesRequest p r s t ok) :
    ∃ l, t.commandQueues = update s.commandQueues (p.queueOf r)
        (s.commandQueues (p.queueOf r) ++ l) ∧
      ∀ (n : ℕ) (P : Bool → Bool), l.countP (fun c => c.id == some n && P c.issued) =
        if r.id = some n ∧ P r.issued then ok.toNat else 0 := by
  obtain ⟨own, req, hqueues, hown, hlength, hreq⟩ := h.commandQueues
  refine ⟨own ++ req, hqueues, fun n P => ?_⟩
  have hownCount : own.countP (fun c => c.id == some n && P c.issued) = 0 := by
    rw [List.countP_eq_zero]
    intro c hc
    simp [(hown c hc).1.1]
  rw [List.countP_append, hownCount, Nat.zero_add, ← hlength]
  split
  · rename_i hr
    exact List.countP_eq_length.mpr fun c hc => by
      simp [(hreq c hc).1, (hreq c hc).2.1, hr]
  · rename_i hr
    refine List.countP_eq_zero.mpr fun c hc => ?_
    rw [(hreq c hc).1, (hreq c hc).2.1]
    simpa using hr

/-- A request that a search takes is handed over. -/
theorem handsOver_of_takes (h : Takes p child s kind queue r rest)
    (hassert : p.ndebug = true ∨ AssertionsHold p s r) : HandsOver p child r s := by
  obtain ⟨t, ht⟩ := issueMemoryCommands_of_empty child h.empty hassert
  refine ⟨t, ht, fun n hn q => ?_⟩
  obtain ⟨l, hqueues, hcount⟩ := (queuesRequest ht).countP_eq
  rw [hqueues]
  by_cases hq : q = p.queueOf r
  · subst hq
    have hone := hcount n fun _ => true
    simp only [Bool.and_true, hn, and_self, if_true, Bool.toNat_true] at hone
    rw [update_self, List.countP_append, hone, if_pos rfl]
  · rw [update_of_ne hq, if_neg hq, Nat.add_zero]

/-! ### Appending commands of the controller -/

/-- Commands of the controller were appended to the queues, and no row was opened. -/
structure AppendsOwn (s t : MemoryController) : Prop where
  frame : SameFrame s t
  commandQueues : ∀ q, ∃ added, t.commandQueues q = s.commandQueues q ++ added ∧
    ∀ c ∈ added, IsOwn c
  activateQueued : ∀ k, (t.banks k).activateQueued → (s.banks k).activateQueued

theorem appendsOwn_of_banks (hframe : SameFrame s t) (hqueues : t.commandQueues = s.commandQueues)
    (hbanks : ∀ k, (t.banks k).activateQueued = (s.banks k).activateQueued) : AppendsOwn s t :=
  ⟨hframe, fun q => ⟨[], by rw [hqueues, List.append_nil], by simp⟩, fun k h => hbanks k ▸ h⟩

theorem appendsOwn_handleRefresh (p : Params) (s : MemoryController) :
    AppendsOwn s (s.handleRefresh p).1 := by
  unfold handleRefresh
  split
  · rename_i k _
    have hchange := queuesRefresh p k s
    refine ⟨hchange.frame, fun q => ?_, hchange.activateQueued⟩
    obtain ⟨queues, happends, hqueues⟩ := hchange.commandQueues
    obtain ⟨added, hadded, hown⟩ := happends q
    rw [hqueues]
    by_cases hq : q = p.getCommandQueueId k 0
    · subst hq
      refine ⟨added ++ [s.makeRefreshRequest k], ?_, List.forall_mem_append.mpr
        ⟨fun c hc => (hown c hc).1, List.forall_mem_singleton.mpr ⟨rfl, rfl⟩⟩⟩
      rw [update_self, hadded, List.append_assoc]
    · exact ⟨added, by rw [update_of_ne hq, hadded], fun c hc => (hown c hc).1⟩
  · exact appendsOwn_of_banks (.refl s) rfl fun _ => rfl

theorem appendsOwn_processRefreshPulse (p : Params) (k : BankId) (s : MemoryController) :
    AppendsOwn s (s.processRefreshPulse p k) := by
  unfold processRefreshPulse
  dsimp only
  split
  · refine appendsOwn_of_banks ⟨rfl, rfl, rfl, rfl⟩ rfl fun k' => ?_
    simp only [setRefresh, mapBanks, setRefreshCounter]
    split <;> rfl
  · exact appendsOwn_of_banks ⟨rfl, rfl, rfl, rfl⟩ rfl fun _ => rfl

theorem AppendsOwn.countP_eq (h : AppendsOwn s t) (n m : ℕ) (P : Request → Bool) :
    (Queues.all m t.commandQueues).countP (fun c => c.id == some n && P c) =
      (Queues.all m s.commandQueues).countP (fun c => c.id == some n && P c) := by
  refine Queues.countP_all_congr fun q _ => ?_
  obtain ⟨added, hadded, hown⟩ := h.commandQueues q
  have hzero : added.countP (fun c => c.id == some n && P c) = 0 := by
    rw [List.countP_eq_zero]
    intro c hc
    simp [(hown c hc).1]
  rw [hadded, List.countP_append, hzero, Nat.add_zero]

end MemoryController

/-! ### Runs -/

/-- The controller, the requests that it has accepted, those that the memory works on, and
those that are complete. -/
structure RequestSystem where
  controller : MemoryController
  accepted : List ℕ := []
  inMemory : List Request := []
  done : List ℕ := []

namespace RequestSystem

open MemoryController

/-- What can happen to requests. -/
inductive Action
  /-- A request of the processor is put at the end of a transaction queue. -/
  | enqueue (i : ℕ) (r : Request)
  /-- A search of a transaction queue; a request that it takes is handed over. -/
  | schedule (i : ℕ) (kind : Search) (child : Child) (pred : Request → Bool)
  /-- The controller goes on, with another action than a hand-over. -/
  | control (a : MemControl.Action)
  /-- The memory completes the request at a position. -/
  | complete (j : ℕ)
  /-- The memory gives back the paused write at a position, which is put at the front of a
  transaction queue. -/
  | putBack (j i : ℕ)

/-- The system after configuration. -/
def init (p : Params) : RequestSystem where
  controller := .init p

/-- Replace a transaction queue. -/
def setQueue (i : ℕ) (queue : List Request) (c : MemoryController) : MemoryController :=
  { c with transactionQueues := update c.transactionQueues i queue }

variable (p : Params) (s : RequestSystem)

/-- A request that the processor can send now. -/
def Sends (n : ℕ) (r : Request) : Prop :=
  n ∉ s.accepted ∧ (r.type = .read ∨ r.type = .write ∨ r.type = .migration) ∧ p.HasAddress r ∧
    r.issued = false

instance (n : ℕ) (r : Request) : Decidable (s.Sends p n r) :=
  inferInstanceAs (Decidable (_ ∧ _))

/-- The memory has paused a write that has left the command queues. -/
def Pauses (r : Request) : Prop :=
  p.writePausing = true ∧ (r.type = .write ∨ r.type = .writePrecharge) ∧
    ∀ q < p.commandQueueCount, ∀ c ∈ s.controller.commandQueues q, c.id ≠ r.id

instance (r : Request) : Decidable (s.Pauses p r) :=
  inferInstanceAs (Decidable (_ ∧ _))

/-- The requests in the memory after a command was issued to it. -/
def receive (inMemory : List Request) : Option Request → List Request
  | some c => if c.id.isSome then { c with issued := true } :: inMemory else inMemory
  | none => inMemory

/-- One step; none if the action is not possible, or the program does not return from it. What
`IssueMemoryCommands` returns is not looked at. -/
def step : Action → Option RequestSystem
  | .enqueue i r =>
    r.id.bind fun n =>
      if i < p.transactionQueueCount ∧ s.Sends p n r then
        let r := { r with arrivalCycle := s.controller.now }
        some { s with
          controller := setQueue i (s.controller.transactionQueues i ++ [r]) s.controller
          accepted := n :: s.accepted }
      else none
  | .schedule i kind child pred =>
    if i < p.transactionQueueCount then
      (s.controller.search p child pred kind (s.controller.transactionQueues i)).bind fun
        | .taken r rest =>
          ((setQueue i rest s.controller).issueMemoryCommands p child r).map fun out =>
            { s with controller := out.1 }
        | _ => some s
    else none
  | .control a =>
    match a with
    | .issueMemoryCommands .. => none
    | a => (s.controller.step p a).map fun out =>
      { s with controller := out.1, inMemory := receive s.inMemory out.2 }
  | .complete j =>
    s.inMemory[j]?.bind fun r => r.id.map fun n =>
      { s with inMemory := s.inMemory.eraseIdx j, done := n :: s.done }
  | .putBack j i =>
    s.inMemory[j]?.bind fun r =>
      if i < p.transactionQueueCount ∧ s.Pauses p r then
        some { s with
          controller := setQueue i (r :: s.controller.transactionQueues i) s.controller
          inMemory := s.inMemory.eraseIdx j }
      else none

/-- How often a request is in the transaction queues. -/
def waiting (n : ℕ) (s : RequestSystem) : ℕ :=
  (Queues.all p.transactionQueueCount s.controller.transactionQueues).countP (·.id == some n)

/-- How often a request is in the command queues. -/
def queued (n : ℕ) (s : RequestSystem) : ℕ :=
  (Queues.all p.commandQueueCount s.controller.commandQueues).countP (·.id == some n)

/-- How often a request is in the command queues and was not issued. -/
def pending (n : ℕ) (s : RequestSystem) : ℕ :=
  (Queues.all p.commandQueueCount s.controller.commandQueues).countP fun c =>
    c.id == some n && !c.issued

/-- How often a request is in the memory. -/
def underway (n : ℕ) (s : RequestSystem) : ℕ := s.inMemory.countP (·.id == some n)

/-- No request is lost, and none is queued twice: each request that was accepted is in one
place, be it a transaction queue, a command queue, the memory, or that it is done; and it is
in the queues at most once. -/
def Kept : Prop :=
  ∀ n ∈ s.accepted, s.waiting p n + s.pending p n + s.underway n + s.done.count n = 1 ∧
    s.waiting p n + s.queued p n ≤ 1

instance : Decidable (s.Kept p) :=
  inferInstanceAs (Decidable (∀ _ ∈ _, _))

variable {p s} {t : RequestSystem} {c : MemoryController}

/-! ### The invariant -/

/-- The invariant along runs without write pausing. -/
structure Inv (p : Params) (s : RequestSystem) : Prop where
  conserved : ∀ n, s.waiting p n + s.pending p n + s.underway n + s.done.count n =
    if n ∈ s.accepted then 1 else 0
  /-- A request that is still in its command queue after it was issued has gone on. -/
  leaves : ∀ n, s.queued p n ≤ s.pending p n + s.underway n + s.done.count n
  waits : ∀ i, ∀ r ∈ s.controller.transactionQueues i,
    (r.type = .read ∨ r.type = .write ∨ r.type = .migration) ∧ p.HasAddress r ∧ r.issued = false
  /-- What was issued leaves its queue in the next cycle. -/
  issued : ∀ q, ∀ c ∈ s.controller.commandQueues q, c.issued = true →
    s.controller.lastIssueCycle = s.controller.now ∧
      s.controller.cleanupCycle = some (s.controller.now + 1)
  /-- A restricted close-page policy closes a row with the command that uses it. -/
  closed : p.usePrecharge = true → p.closePage = 2 →
    ∀ k, (s.controller.banks k).activateQueued = false

theorem kept_of_inv (hs : s.Inv p) : s.Kept p := by
  intro n hn
  have hconserved := hs.conserved n
  have hleaves := hs.leaves n
  rw [if_pos hn] at hconserved
  exact ⟨hconserved, by omega⟩

theorem inv_init : (init p).Inv p where
  conserved := by simp [waiting, pending, underway, init, MemoryController.init]
  leaves := by simp [queued, init, MemoryController.init]
  waits := by simp [init, MemoryController.init]
  issued := by simp [init, MemoryController.init]
  closed := by simp [init, MemoryController.init, BankState.init]

/-- Commands of the controller are no requests. -/
theorem Inv.appendsOwn (hs : s.Inv p) (h : AppendsOwn s.controller c) :
    Inv p { s with controller := c } := by
  constructor
  · intro n
    rw [← hs.conserved n]
    simp only [waiting, pending, underway, h.frame.transactionQueues, h.countP_eq]
  · intro n
    have hqueued := h.countP_eq n p.commandQueueCount fun _ => true
    simp only [Bool.and_true] at hqueued
    have hleaves := hs.leaves n
    simp only [queued, pending, underway, h.countP_eq, hqueued] at hleaves ⊢
    exact hleaves
  · intro i r hr
    rw [show ({ s with controller := c } : RequestSystem).controller.transactionQueues = _ from
      h.frame.transactionQueues] at hr
    exact hs.waits i r hr
  · intro q r hr hissued
    dsimp only at hr ⊢
    obtain ⟨added, hadded, hown⟩ := h.commandQueues q
    rw [h.frame.lastIssueCycle, h.frame.now, h.frame.cleanupCycle]
    rw [hadded, List.mem_append] at hr
    rcases hr with hr | hr
    · exact hs.issued q r hr hissued
    · exact absurd hissued (by simp [(hown r hr).2])
  · intro hpre hclose k
    by_contra hopen
    have hbefore := h.activateQueued k (by simpa using hopen)
    rw [hs.closed hpre hclose k] at hbefore
    cases hbefore

/-- A search takes one request out of the transaction queues. -/
theorem waiting_setQueue {child : Child} {kind : Search} {i n : ℕ} {r : Request}
    {rest : List Request} (hi : i < p.transactionQueueCount)
    (h : Takes p child s.controller kind (s.controller.transactionQueues i) r rest) :
    waiting p n { s with controller := setQueue i rest s.controller } +
      (if r.id = some n then 1 else 0) = s.waiting p n := by
  obtain ⟨before, r', after, hqueue, hrest, last, rfl⟩ := h.split
  have hupdate := Queues.countP_all_update (f := s.controller.transactionQueues) (l := rest)
    (P := fun r => r.id == some n) hi
  rw [hqueue, hrest] at hupdate
  simp only [List.countP_append, List.countP_cons, beq_iff_eq] at hupdate
  simp only [waiting, setQueue, hrest]
  omega

theorem HasAddress.queueOf_lt {r : Request} (h : p.HasAddress r) :
    p.queueOf r < p.commandQueueCount :=
  Params.getCommandQueueId_lt h.1 h.2

/-- A restricted close-page policy leaves no row open. -/
theorem closed_of_issueMemoryCommands {child : Child} {c' : MemoryController} {r : Request}
    {ok : Bool} (hpre : p.usePrecharge = true)
    (hlast : r.lastRequest = true ∨ (makeCachedRequest p r).any child.isIssuable = true)
    (hclosed : ∀ k, (c.banks k).activateQueued = false)
    (h : c.issueMemoryCommands p child r = some (c', ok)) :
    ∀ k, (c'.banks k).activateQueued = false := by
  have hsame := sameAccess_stamp c r
  obtain ⟨dirty, hdirty⟩ := markRowDirty_eq r c
  have hmarked : ∀ k, ((c.markRowDirty r).banks k).activateQueued = false := by
    intro k
    rw [hdirty]
    by_cases hk : k = r.toBankId
    · subst hk
      simp [setBank, hclosed]
    · simp [setBank, hk, hclosed]
  cases issues_of_issueMemoryCommands h with
  | cached hmade hissuable hrow => exact hmarked
  | closedBank hclosed' hempty hcached =>
    -- the search has marked the request, since it is not a cached one
    have hmark : (c.stamp r).lastRequest = true :=
      hsame.lastRequest.trans (hlast.resolve_right (by simp [hcached]))
    intro k
    rw [issueToClosedBank, if_pos ⟨hmark, hpre⟩]
    by_cases hk : k = (c.stamp r).toBankId
    · subst hk
      simp [setBank]
    · simp [setBank, push, hk, hmarked]
  | otherRow hactivated hrow hempty => exact absurd hactivated (by simp [hclosed])
  | openRow hactivated hrow => exact absurd hactivated (by simp [hclosed])
  | refused hbusy => exact hmarked

/-- A request that is handed over moves to its command queue. -/
theorem Inv.schedule {child : Child} {kind : Search} {i : ℕ} {r : Request} {rest : List Request}
    {ok : Bool} (hs : s.Inv p) (hi : i < p.transactionQueueCount)
    (htakes : Takes p child s.controller kind (s.controller.transactionQueues i) r rest)
    (h : (setQueue i rest s.controller).issueMemoryCommands p child r = some (c, ok)) :
    Inv p { s with controller := c } := by
  have hchange := queuesRequest h
  obtain ⟨l, hqueues, hcount⟩ := hchange.countP_eq
  obtain rfl : ok = true := by
    cases issues_of_issueMemoryCommands h with
    | refused hbusy => exact absurd htakes.empty hbusy
    | _ => rfl
  obtain ⟨before, r', after, hqueue, hrest, last, hr⟩ := htakes.split
  obtain ⟨-, haddress, hissued⟩ := hs.waits i r' (by rw [hqueue]; simp)
  have hrissued : r.issued = false := by rw [hr]; exact hissued
  have hq : p.queueOf r < p.commandQueueCount := by
    rw [hr]
    exact HasAddress.queueOf_lt (r := r') haddress
  have hwaiting : ∀ n, waiting p n { s with controller := c } +
      (if r.id = some n then 1 else 0) = s.waiting p n := by
    intro n
    rw [← waiting_setQueue hi htakes, waiting, hchange.frame.transactionQueues, waiting]
  have hall : ∀ (n : ℕ) (P : Bool → Bool), P false = true →
      (Queues.all p.commandQueueCount c.commandQueues).countP
          (fun c => c.id == some n && P c.issued) =
        (Queues.all p.commandQueueCount s.controller.commandQueues).countP
          (fun c => c.id == some n && P c.issued) + if r.id = some n then 1 else 0 := by
    intro n P hP
    rw [hqueues, Queues.countP_all_append hq, hcount, hrissued, hP]
    simp [setQueue]
  have hpending : ∀ n, pending p n { s with controller := c } =
      s.pending p n + if r.id = some n then 1 else 0 := fun n => hall n (!·) rfl
  have hqueued : ∀ n, queued p n { s with controller := c } =
      s.queued p n + if r.id = some n then 1 else 0 := by
    intro n
    have h := hall n (fun _ => true) rfl
    simpa only [Bool.and_true, queued] using h
  constructor
  · intro n
    have hconserved := hs.conserved n
    have hw := hwaiting n
    have hp := hpending n
    simp only [underway] at hconserved ⊢
    omega
  · intro n
    have hleaves := hs.leaves n
    have hp := hpending n
    have hq := hqueued n
    simp only [underway] at hleaves ⊢
    omega
  · intro j r₁ hr₁
    dsimp only at hr₁
    rw [hchange.frame.transactionQueues] at hr₁
    by_cases hj : j = i
    · subst hj
      refine hs.waits j r₁ ?_
      simp only [setQueue, update_self, hrest, List.mem_append] at hr₁
      rw [hqueue, List.mem_append, List.mem_cons]
      exact hr₁.imp_right Or.inr
    · simp only [setQueue, update_of_ne hj] at hr₁
      exact hs.waits j r₁ hr₁
  · -- the command queue of the request was empty, and nothing that is added was issued
    intro q r₁ hr₁ hissued₁
    dsimp only at hr₁ ⊢
    rw [hchange.frame.lastIssueCycle, hchange.frame.now, hchange.frame.cleanupCycle]
    obtain ⟨own, req, hqueues, hown, -, hreq⟩ := hchange.commandQueues
    rw [hqueues] at hr₁
    by_cases hqr : q = p.queueOf r
    · subst hqr
      rw [update_self, show (setQueue i rest s.controller).commandQueues _ = [] from
        htakes.empty, List.nil_append, List.mem_append] at hr₁
      rcases hr₁ with hr₁ | hr₁
      · exact absurd hissued₁ (by simp [(hown r₁ hr₁).1.2])
      · exact absurd hissued₁ (by simp [(hreq r₁ hr₁).2.1, hrissued])
    · rw [update_of_ne hqr] at hr₁
      exact hs.issued q r₁ hr₁ hissued₁
  · intro hpre hclose
    exact closed_of_issueMemoryCommands (c := setQueue i rest s.controller) hpre
      (htakes.last hclose.ge) (hs.closed hpre hclose) h

/-- The head of a queue was not issued before, and goes to the memory. -/
theorem Inv.issueHead {q : ℕ} {head : Request} {rest : List Request} (hs : s.Inv p)
    (hq : q < p.commandQueueCount) (hqueue : s.controller.commandQueues q = head :: rest)
    (hcycle : s.controller.lastIssueCycle ≠ s.controller.now)
    (h : s.controller.issueHead p q head rest = some c) :
    Inv p { s with controller := c, inMemory := receive s.inMemory (some head) } := by
  have hchange := issuesHead h
  have hissued : head.issued = false := by
    by_contra hi
    exact hcycle (hs.issued q head (hqueue ▸ List.mem_cons_self) (by simpa using hi)).1
  have hall : ∀ (n : ℕ) (P : Bool → Bool),
      (Queues.all p.commandQueueCount c.commandQueues).countP
          (fun c => c.id == some n && P c.issued) +
        (if head.id = some n ∧ P false then 1 else 0) =
      (Queues.all p.commandQueueCount s.controller.commandQueues).countP
          (fun c => c.id == some n && P c.issued) +
        if head.id = some n ∧ P true then 1 else 0 := by
    intro n P
    have hupdate := Queues.countP_all_update (f := s.controller.commandQueues)
      (l := { head with issued := true } :: rest)
      (P := fun c => c.id == some n && P c.issued) hq
    rw [hqueue, List.countP_cons, List.countP_cons, hissued] at hupdate
    simp only [Bool.and_eq_true, beq_iff_eq] at hupdate
    rw [hchange.commandQueues]
    omega
  have hpending : ∀ n, pending p n
      { s with controller := c, inMemory := receive s.inMemory (some head) } +
      (if head.id = some n then 1 else 0) = s.pending p n := by
    intro n
    have h := hall n (!·)
    simpa [pending] using h
  have hqueued : ∀ n, queued p n
      { s with controller := c, inMemory := receive s.inMemory (some head) } = s.queued p n := by
    intro n
    have h := hall n fun _ => true
    simpa [queued] using h
  have hunderway : ∀ n, underway n
      { s with controller := c, inMemory := receive s.inMemory (some head) } =
      s.underway n + if head.id = some n then 1 else 0 := by
    intro n
    simp only [underway, receive]
    cases hid : head.id with
    | none => simp
    | some m => simp [List.countP_cons]
  have hwaiting : ∀ n, waiting p n
      { s with controller := c, inMemory := receive s.inMemory (some head) } = s.waiting p n := by
    intro n
    rw [waiting, hchange.transactionQueues, waiting]
  constructor
  · intro n
    have hconserved := hs.conserved n
    rw [hwaiting, hunderway, ← hconserved, ← hpending]
    dsimp only
    omega
  · intro n
    have hleaves := hs.leaves n
    rw [hqueued, hunderway]
    rw [← hpending] at hleaves
    dsimp only
    omega
  · intro i r hr
    dsimp only at hr
    rw [hchange.transactionQueues] at hr
    exact hs.waits i r hr
  · intro q' r hr hissued'
    dsimp only
    rw [hchange.lastIssueCycle, hchange.now, hchange.cleanupCycle]
    exact ⟨rfl, rfl⟩
  · intro hpre hclose k
    dsimp only
    rw [hchange.banks]
    split
    · simp only [mapBanks]
      split <;> exact hs.closed hpre hclose k
    · exact hs.closed hpre hclose k

/-- The clean-up removes what was issued. -/
theorem Inv.tick (hs : s.Inv p) : Inv p { s with controller := s.controller.tick } := by
  unfold MemoryController.tick
  dsimp only
  split
  · have hall : ∀ n, (Queues.all p.commandQueueCount
        s.controller.cleanupCallback.commandQueues).countP
          (fun c => c.id == some n && !c.issued) = s.pending p n := by
      intro n
      refine Queues.countP_all_congr fun q _ => ?_
      simp only [cleanupCallback]
      rw [List.countP_filter]
      refine List.countP_congr fun c _ => ?_
      simp
    have hle : ∀ n, (Queues.all p.commandQueueCount
        s.controller.cleanupCallback.commandQueues).countP (·.id == some n) ≤ s.pending p n := by
      intro n
      rw [← hall]
      refine (Queues.countP_all_congr fun q _ => ?_).le
      refine List.countP_congr fun c hc => ?_
      have hissued := (List.mem_filter.mp hc).2
      simp only [hissued, Bool.and_true]
    constructor
    · intro n
      rw [← hs.conserved n, ← hall n]
      rfl
    · intro n
      have hn := hle n
      rw [← hall n] at hn
      exact Nat.le_add_right_of_le (Nat.le_add_right_of_le hn)
    · exact hs.waits
    · intro q r hr hissued
      exact absurd (List.mem_filter.mp hr).2 (by simp [hissued])
    · exact hs.closed
  · rename_i hcleanup
    refine ⟨hs.conserved, hs.leaves, hs.waits, fun q r hr hissued => ?_, hs.closed⟩
    exact absurd (hs.issued q r hr hissued).2 hcleanup

/-- A new request is in one transaction queue. -/
theorem Inv.enqueue {i n : ℕ} {r : Request} (hs : s.Inv p) (hi : i < p.transactionQueueCount)
    (hid : r.id = some n) (hnew : n ∉ s.accepted)
    (hr : (r.type = .read ∨ r.type = .write ∨ r.type = .migration) ∧ p.HasAddress r ∧
      r.issued = false) (cycle : ℕ) :
    Inv p { s with
      controller := setQueue i
        (s.controller.transactionQueues i ++ [{ r with arrivalCycle := cycle }]) s.controller
      accepted := n :: s.accepted } := by
  refine ⟨fun m => ?_, hs.leaves, fun j r' hr' => ?_, hs.issued, hs.closed⟩
  · have hconserved := hs.conserved m
    have hwaiting : (Queues.all p.transactionQueueCount (update
        s.controller.transactionQueues i (s.controller.transactionQueues i ++
          [{ r with arrivalCycle := cycle }]))).countP (·.id == some m) =
        s.waiting p m + if n = m then 1 else 0 := by
      rw [Queues.countP_all_append hi, waiting]
      simp [List.countP_singleton, hid]
    by_cases hm : m = n
    · subst hm
      rw [if_neg hnew] at hconserved
      simp only [List.mem_cons, true_or, if_true]
      simp only [waiting, pending, underway, setQueue] at hconserved hwaiting ⊢
      simp only [if_true] at hwaiting
      omega
    · simp only [List.mem_cons, hm, false_or]
      rw [if_neg (Ne.symm hm)] at hwaiting
      simp only [waiting, pending, underway, setQueue] at hconserved hwaiting ⊢
      omega
  · by_cases hj : j = i
    · subst hj
      simp only [setQueue, update_self, List.mem_append, List.mem_singleton] at hr'
      rcases hr' with hr' | rfl
      · exact hs.waits j r' hr'
      · exact hr
    · simp only [setQueue, update_of_ne hj] at hr'
      exact hs.waits j r' hr'

/-- A request that the memory completes is done. -/
theorem Inv.complete {j n : ℕ} {r : Request} (hs : s.Inv p) (hr : s.inMemory[j]? = some r)
    (hid : r.id = some n) :
    Inv p { s with inMemory := s.inMemory.eraseIdx j, done := n :: s.done } := by
  obtain ⟨hj, hget⟩ := List.getElem?_eq_some_iff.mp hr
  have hmoves : ∀ m, (s.inMemory.eraseIdx j).countP (·.id == some m) + (n :: s.done).count m =
      s.underway m + s.done.count m := by
    intro m
    have hperm := (List.getElem_cons_eraseIdx_perm hj).countP_eq (·.id == some m)
    rw [List.countP_cons, hget, hid, Option.some_beq_some] at hperm
    rw [List.count_cons, underway, ← hperm]
    omega
  refine ⟨fun m => ?_, fun m => ?_, hs.waits, hs.issued, hs.closed⟩
  · rw [← hs.conserved m, Nat.add_assoc, Nat.add_assoc _ (s.underway m), ← hmoves m]
    rfl
  · have hleaves := hs.leaves m
    rw [Nat.add_assoc, ← hmoves m, ← Nat.add_assoc] at hleaves
    exact hleaves

/-- The other actions of the controller. -/
theorem Inv.control {a : MemControl.Action} (hs : s.Inv p) (h : s.step p (.control a) = some t) :
    t.Inv p := by
  cases a with
  | issueMemoryCommands child r => cases h
  | handleRefresh =>
    cases h
    exact hs.appendsOwn (appendsOwn_handleRefresh p s.controller)
  | refreshPulse rank group =>
    obtain ⟨out, hout, rfl⟩ := Option.map_eq_some_iff.mp h
    obtain ⟨-, heq⟩ := Option.ite_none_right_eq_some.mp hout
    cases heq
    exact hs.appendsOwn (appendsOwn_processRefreshPulse p _ s.controller)
  | cycleCommandQueues child =>
    obtain ⟨⟨c, issued⟩, hout, rfl⟩ := Option.map_eq_some_iff.mp h
    obtain ⟨down, hcases⟩ := cycleCommandQueues_cases hout
    have hdown : Inv p { s with controller := { s.controller with rankPowerDown := down } } :=
      hs.appendsOwn (appendsOwn_of_banks ⟨rfl, rfl, rfl, rfl⟩ rfl fun _ => rfl)
    rcases hcases with ⟨-, rfl, rfl⟩ | ⟨-, ⟨rfl, rfl⟩ | ⟨q, hq, head, rest, hqueue, hcycle, hhead,
      rfl⟩⟩
    · exact hdown.appendsOwn (appendsOwn_handleRefresh p _)
    · exact hdown
    · exact hdown.issueHead hq hqueue hcycle hhead
  | tick =>
    cases h
    exact hs.tick

/-- A step keeps the invariant, if the memory does not give a write back. -/
theorem inv_step {a : Action} (ha : ∀ j i, a ≠ .putBack j i) (hs : s.Inv p)
    (h : s.step p a = some t) : t.Inv p := by
  cases a with
  | enqueue i r =>
    obtain ⟨n, hid, h⟩ := Option.bind_eq_some_iff.mp h
    obtain ⟨⟨hi, hnew, htype, haddress, hissued⟩, heq⟩ := Option.ite_none_right_eq_some.mp h
    cases heq
    exact hs.enqueue hi hid hnew ⟨htype, haddress, hissued⟩ s.controller.now
  | schedule i kind child pred =>
    obtain ⟨hi, h⟩ := Option.ite_none_right_eq_some.mp h
    obtain ⟨found, hfound, h⟩ := Option.bind_eq_some_iff.mp h
    cases found with
    | nothing =>
      cases h
      exact hs
    | stalled =>
      cases h
      exact hs
    | taken r rest =>
      obtain ⟨⟨c, ok⟩, hissue, rfl⟩ := Option.map_eq_some_iff.mp h
      exact hs.schedule hi (takes_of_search hfound) hissue
  | control a => exact hs.control h
  | complete j =>
    obtain ⟨r, hr, h⟩ := Option.bind_eq_some_iff.mp h
    obtain ⟨n, hid, rfl⟩ := Option.map_eq_some_iff.mp h
    exact hs.complete hr hid
  | putBack j i => exact absurd rfl (ha j i)

/-- The assertions hold for the requests that a search takes. -/
theorem Inv.assertionsHold {child : Child} {kind : Search} {i : ℕ} {r : Request}
    {rest : List Request} (hs : s.Inv p)
    (htakes : Takes p child s.controller kind (s.controller.transactionQueues i) r rest) :
    AssertionsHold p s.controller r := by
  obtain ⟨before, r', after, hqueue, -, last, hr⟩ := htakes.split
  obtain ⟨htype, -, -⟩ := hs.waits i r' (by rw [hqueue]; simp)
  refine ⟨by rw [hr]; exact htype, fun hassert => ?_⟩
  have hclosed := hs.closed hassert.2.2.2.1 hassert.2.2.2.2 r.toBankId
  rw [hassert.1] at hclosed
  cases hclosed

/-- **No request is lost or queued twice.** A request that one of the searches takes out of a
queue is handed over, in every state and for every queue in which the assertions of
`IssueMemoryCommands` hold or are left out. In every run in which no paused write is put back they
hold, and all requests are kept. -/
theorem requests_kept (p : Params) :
    (∀ (c : MemoryController) kind child pred queue r rest,
      c.search p child pred kind queue = some (.taken r rest) →
      (p.ndebug = true ∨ AssertionsHold p c r) → HandsOver p child r c) ∧
    ∀ actions s, Run (Steps (step p)) (init p) actions s → (∀ j i, .putBack j i ∉ actions) →
      s.Kept p ∧ ∀ kind child pred i r rest,
        s.controller.search p child pred kind (s.controller.transactionQueues i) =
          some (.taken r rest) → AssertionsHold p s.controller r := by
  refine ⟨fun c kind child pred queue r rest hfind hassert =>
    handsOver_of_takes (takes_of_search hfind) hassert, fun actions s hrun hputs => ?_⟩
  have hkeeps : ∀ a ∈ actions, ∀ j i, a ≠ .putBack j i := fun a ha j i h => hputs j i (h ▸ ha)
  have hinv : s.Inv p := (run_guarded_iff_forall.mpr ⟨hrun, hkeeps⟩).invariant (P := Inv p) inv_init
    fun s a t hs h => inv_step h.1 hs h.2
  exact ⟨kept_of_inv hinv, fun kind child pred i r rest hfind =>
    hinv.assertionsHold (takes_of_search hfind)⟩

/-- The memory takes every command, and has nothing cached. -/
def ready : Child where
  isIssuable := fun r => r.type != .cachedRead && r.type != .cachedWrite

/-- As before, and the memory is between two iterations of a write. -/
def writing : Child where
  isIssuable := fun r => r.type != .cachedRead && r.type != .cachedWrite
  isWriting := fun _ => some true
  betweenWriteIterations := fun _ => true

/-- A write to a row. -/
def write : Request := { rank := 0, bank := 0, id := some 0, type := .write, row := 1 }

/-- A read of another row of the same bank. -/
def read : Request := { rank := 0, bank := 0, id := some 1, type := .read, row := 2 }

/-- A write is accepted, handed over and issued. -/
def writeIssued : List Action :=
  [.enqueue 0 write, .control .tick, .schedule 0 .closedBankRequest ready fun _ => true,
    .control (.cycleCommandQueues ready), .control .tick, .control (.cycleCommandQueues ready)]

/-- Write pausing, and no precharges between activations. -/
def pausing : Params :=
  { Params.defaults with usePrecharge := false, writePausing := true, useRefresh := false }

/-- The write is in the memory, and a read waits. -/
theorem requests_kept_write : ∃ s,
    Run (Steps (step pausing)) (init pausing) (writeIssued ++ [.control .tick, .enqueue 0 read]) s ∧
    s.inMemory.length = 1 ∧ s.waiting pausing 1 = 1 ∧ s.Kept pausing :=
  exists_run_imp (fun s => s.inMemory.length = 1 ∧ s.waiting pausing 1 = 1) (by decide +kernel)
    fun s hrun hs => ⟨hs.1, hs.2, ((requests_kept pausing).2 _ s hrun (by simp [writeIssued])).1⟩

/-- A read is taken while the bank is writing; the write is paused, given back, and handed over
again. -/
def writePaused : List Action :=
  [.control .tick, .enqueue 0 read, .control .tick,
    .schedule 0 .writeStalledRead writing fun _ => true, .control (.cycleCommandQueues writing),
    .control .tick, .putBack 0 0, .control (.cycleCommandQueues ready), .control .tick,
    .schedule 0 .oldestReadyRequest ready fun _ => true, .control (.cycleCommandQueues ready),
    .control .tick]

/-- A read finds the bank writing. Its activation pauses the write, which is put back with the
flag `FLAG_ISSUED`. When the write is handed over again, the clean-up after the activation that
it needs takes it out of the command queue, and it is nowhere. -/
theorem paused_write_lost : ∃ s,
    Run (Steps (step pausing)) (init pausing) (writeIssued ++ writePaused) s ∧
    0 ∈ s.accepted ∧ s.waiting pausing 0 = 0 ∧ s.queued pausing 0 = 0 ∧ s.underway 0 = 0 ∧
      0 ∉ s.done ∧ ¬ s.Kept pausing :=
  exists_run (by decide +kernel)

end RequestSystem

end HybridMemory.NVMain.MemControl

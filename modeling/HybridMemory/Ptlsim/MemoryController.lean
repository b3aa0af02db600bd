import Mathlib.Algebra.Group.Nat.Defs
import HybridMemory.Ptlsim.NVMainMemory

/-!
# The banks of the memory controller

Without DRAMSim2 and HybridSim, ptlsim's own `MemoryController` gives each access of a bank a
fixed latency. A request for a bank that is not in use is served at once, others wait; when an
access is completed, the first waiting request of its bank is served. Requests leave when their
answer is taken by the interconnect, or at once if they are updates, and may be annulled before.

For each bank the model keeps the numbers of the requests that arrived, of those that were taken
into service and of those that were annulled before; these are not in the source. What arrived
and was not dropped is what was started, followed by what waits (`Inv.order`), so requests are
started in the order of their arrival.
-/

namespace HybridMemory.Ptlsim.MemoryController

open Transition Function
open NVMainMemory (MemoryRequest)

/-! ### The controller -/

/-- `log2(MEM_BANKS)` -/
def bankBits : ℕ := 6

/-- `get_bank_id` -/
def getBankId (address : ℕ) : ℕ := (address >>> 6) % 2 ^ bankBits

/-- What an entry is waiting for: its bank, the event `accessCompleted_`, or the event
`waitInterconnect_` because the interconnect refused its answer. -/
inductive Stage
  | waiting
  | accessing
  | answering
  deriving DecidableEq

/-- `MemoryQueueEntry`, with the number of its request. The flag `inUse` is set when the first
event is scheduled. -/
structure QueueEntry where
  serial : ℕ
  request : MemoryRequest
  annuled : Bool := false
  stage : Stage := .waiting
  deriving DecidableEq

namespace QueueEntry

def bank (e : QueueEntry) : ℕ := getBankId e.request.physicalAddress

def inUse (e : QueueEntry) : Bool := e.stage ≠ .waiting

/-- The entry waits for bank `b`. -/
def waits (b : ℕ) (e : QueueEntry) : Bool := e.bank = b ∧ e.stage = .waiting

/-- The access of the entry to bank `b` is in service. -/
def accesses (b : ℕ) (e : QueueEntry) : Bool := e.bank = b ∧ e.stage = .accessing

end QueueEntry

structure State where
  pendingRequests : List QueueEntry := []
  banksUsed : ℕ → Bool := fun _ => false
  accepted : ℕ := 0
  arrived : ℕ → List ℕ := fun _ => []
  started : ℕ → List ℕ := fun _ => []
  dropped : ℕ → List ℕ := fun _ => []

namespace State

/-- The tests at the beginning of `handle_interconnect_cb`, which are those of the bridge to
NVMain. -/
def verdict (s : State) (hasData : Bool) (request : MemoryRequest) : NVMainMemory.Verdict :=
  NVMainMemory.State.verdict
    { pendingRequests := s.pendingRequests.map fun e => ⟨e.serial, e.request, e.annuled, e.inUse⟩ }
    hasData request

/-- An entry for an accepted request. -/
def add (s : State) (request : MemoryRequest) (stage : Stage) : State :=
  let b := getBankId request.physicalAddress
  { s with
    pendingRequests := s.pendingRequests ++ [⟨s.accepted, request, false, stage⟩]
    accepted := s.accepted + 1
    arrived := update s.arrived b (s.arrived b ++ [s.accepted]) }

/-- `handle_interconnect_cb` -/
def handleInterconnectCb (s : State) (hasData : Bool) (request : MemoryRequest) : State :=
  let b := getBankId request.physicalAddress
  if s.verdict hasData request = .accepted then
    if s.banksUsed b then s.add request .waiting
    else
      { s.add request .accessing with
        banksUsed := update s.banksUsed b true
        started := update s.started b (s.started b ++ [s.accepted]) }
  else s

/-- The loop of `access_completed_cb`: the first entry that waits for the bank is served. -/
def startNext (b : ℕ) : List QueueEntry → List QueueEntry
  | [] => []
  | e :: l => if e.waits b then { e with stage := .accessing } :: l else e :: startNext b l

/-- `wait_interconnect_cb` for entry number `n` of the list: updates need no answer, and an
answer that is refused is tried again. -/
def waitInterconnectCb (n : ℕ) (e : QueueEntry) (success : Bool) (l : List QueueEntry) :
    List QueueEntry :=
  if e.request.opType = .update ∨ success then l.eraseIdx n
  else l.set n { e with stage := .answering }

/-- `access_completed_cb` for entry number `n`. -/
def accessCompletedCb (s : State) (n : ℕ) (success : Bool) : Option State :=
  match s.pendingRequests[n]? with
  | none => none
  | some e =>
    if e.stage = .accessing then
      let b := e.bank
      let next := s.pendingRequests.find? (QueueEntry.waits b)
      let l := startNext b s.pendingRequests
      some { s with
        pendingRequests := if e.annuled then l.eraseIdx n else waitInterconnectCb n e success l
        banksUsed := update s.banksUsed b next.isSome
        started := update s.started b
          (s.started b ++ (next.map QueueEntry.serial).toList) }
    else none

/-- The event `waitInterconnect_` of entry number `n`. -/
def retry (s : State) (n : ℕ) (success : Bool) : Option State :=
  match s.pendingRequests[n]? with
  | none => none
  | some e =>
    if e.stage = .answering then
      some { s with pendingRequests := waitInterconnectCb n e success s.pendingRequests }
    else none

/-- The requests that wait for bank `b` and that `annul_request` frees. -/
def annulled (s : State) (request : MemoryRequest) (b : ℕ) : List ℕ :=
  ((s.pendingRequests.filter (QueueEntry.waits b)).filter
    fun e => e.request = request).map QueueEntry.serial

/-- `annul_request`: the entries of the request are marked, and freed unless in use. -/
def annulRequest (s : State) (request : MemoryRequest) : State :=
  { s with
    pendingRequests := (s.pendingRequests.filter fun e => e.request ≠ request ∨ e.inUse).map
      fun e => if e.request = request then { e with annuled := true } else e
    dropped := fun b => s.dropped b ++ s.annulled request b }

end State

inductive Action
  | message (hasData : Bool) (request : MemoryRequest)
  | completed (n : ℕ) (success : Bool)
  | retry (n : ℕ) (success : Bool)
  | annul (request : MemoryRequest)

def step (s : State) : Action → Option State
  | .message hasData request => some (s.handleInterconnectCb hasData request)
  | .completed n success => s.accessCompletedCb n success
  | .retry n success => s.retry n success
  | .annul request => some (s.annulRequest request)

/-! ### The list of entries -/

section Entries

variable {b b' n : ℕ} {e : QueueEntry} {l : List QueueEntry}

/-- One entry leaves the list or goes on to answer. -/
theorem exists_released (h : l[n]? = some e) (annuled success : Bool) :
    ∃ l₁ r l₂, l = l₁ ++ e :: l₂ ∧ (∀ x ∈ r, x.stage = .answering) ∧
      (if annuled then l.eraseIdx n else State.waitInterconnectCb n e success l)
        = l₁ ++ (r ++ l₂) := by
  obtain ⟨hlt, rfl⟩ := List.getElem?_eq_some_iff.mp h
  have hsplit : l = l.take n ++ l[n] :: l.drop (n + 1) := by
    rw [List.getElem_cons_drop, List.take_append_drop]
  have herase : l.eraseIdx n = l.take n ++ ([] ++ l.drop (n + 1)) := by
    rw [List.nil_append, List.eraseIdx_eq_take_drop_succ]
  have hset : l.set n { l[n] with stage := .answering }
      = l.take n ++ ([{ l[n] with stage := .answering }] ++ l.drop (n + 1)) := by
    rw [List.set_eq_take_append_cons_drop, if_pos hlt, List.singleton_append]
  cases annuled with
  | true => exact ⟨_, [], _, hsplit, nofun, herase⟩
  | false =>
    rw [if_neg Bool.false_ne_true, State.waitInterconnectCb]
    split_ifs
    · exact ⟨_, [], _, hsplit, nofun, herase⟩
    · exact ⟨_, _, _, hsplit, by simp, hset⟩

theorem filter_answering {r : List QueueEntry} (hr : ∀ x ∈ r, x.stage = .answering) (b : ℕ) :
    r.filter (QueueEntry.waits b) = [] ∧ r.filter (QueueEntry.accesses b) = [] := by
  constructor
  · exact List.filter_eq_nil_iff.mpr fun x hx => by simp [QueueEntry.waits, hr x hx]
  · exact List.filter_eq_nil_iff.mpr fun x hx => by simp [QueueEntry.accesses, hr x hx]

/-- An entry that does not wait leaves the others as they are when it is released. -/
theorem filter_released (h : l[n]? = some e) (he : e.stage ≠ .waiting) (annuled success : Bool)
    (b : ℕ) :
    let l' := if annuled then l.eraseIdx n else State.waitInterconnectCb n e success l
    l'.filter (QueueEntry.waits b) = l.filter (QueueEntry.waits b) ∧
      (l'.filter (QueueEntry.accesses b)).length + (e.accesses b).toNat
        = (l.filter (QueueEntry.accesses b)).length := by
  obtain ⟨l₁, r, l₂, rfl, hr, hreleased⟩ := exists_released h annuled success
  obtain ⟨hwaits, haccesses⟩ := filter_answering hr b
  have he : e.waits b = false := by simp [QueueEntry.waits, he]
  rw [hreleased]
  simp only [List.filter_append, hwaits, haccesses, List.nil_append, List.filter_cons, he,
    Bool.false_eq_true, if_false, List.length_append, true_and]
  cases e.accesses b <;> simp
  omega

/-- The entries that do not wait for the bank stay as they are. -/
theorem getElem?_startNext (h : l[n]? = some e) (he : e.waits b = false) :
    (State.startNext b l)[n]? = some e := by
  induction l generalizing n with
  | nil => contradiction
  | cons x l ih =>
    rw [State.startNext]
    cases n with
    | zero =>
      obtain rfl : x = e := Option.some.inj h
      rw [if_neg (by simp [he])]
      exact h
    | succ n =>
      split_ifs
      · exact h
      · exact ih h

theorem filter_waits_startNext :
    (State.startNext b l).filter (QueueEntry.waits b) = (l.filter (QueueEntry.waits b)).tail := by
  induction l with
  | nil => rfl
  | cons x l ih =>
    rw [State.startNext]
    by_cases hx : x.waits b
    · have hstarted : ({ x with stage := .accessing } : QueueEntry).waits b = false := by
        simp [QueueEntry.waits]
      simp [hx, hstarted]
    · simp [hx, ih]

theorem length_accesses_startNext :
    ((State.startNext b l).filter (QueueEntry.accesses b)).length
      = (l.filter (QueueEntry.accesses b)).length +
        (l.find? (QueueEntry.waits b)).isSome.toNat := by
  induction l with
  | nil => rfl
  | cons x l ih =>
    rw [State.startNext]
    by_cases hx : x.waits b
    · obtain ⟨hbank, hstage⟩ : x.bank = b ∧ x.stage = .waiting := by
        simpa [QueueEntry.waits] using hx
      have hbefore : x.accesses b = false := by simp [QueueEntry.accesses, hstage]
      have hafter : ({ x with stage := .accessing } : QueueEntry).accesses b := by
        simpa [QueueEntry.accesses, QueueEntry.bank] using hbank
      simp [hx, hbefore, hafter]
    · by_cases ha : x.accesses b
      · simp [hx, ha, ih]
        omega
      · simp [hx, ha, ih]

/-- Other banks are not concerned. -/
theorem filter_startNext_of_ne (hb : b' ≠ b) :
    (State.startNext b l).filter (QueueEntry.waits b') = l.filter (QueueEntry.waits b') ∧
      (State.startNext b l).filter (QueueEntry.accesses b')
        = l.filter (QueueEntry.accesses b') := by
  induction l with
  | nil => exact ⟨rfl, rfl⟩
  | cons x l ih =>
    rw [State.startNext]
    by_cases hx : x.waits b
    · obtain ⟨hbank, -⟩ : x.bank = b ∧ x.stage = .waiting := by simpa [QueueEntry.waits] using hx
      have hother (stage : Stage) :
          ({ x with stage := stage } : QueueEntry).bank ≠ b' := fun h => hb (h.symm.trans hbank)
      rw [if_pos hx]
      simp [QueueEntry.waits, QueueEntry.accesses, hother]
    · simp [hx, List.filter_cons, ih]

end Entries

/-! ### The invariant -/

/-- The requests that wait for bank `b`, in the order of the list. -/
def State.waiting (s : State) (b : ℕ) : List ℕ :=
  (s.pendingRequests.filter (QueueEntry.waits b)).map QueueEntry.serial

/-- The accesses of bank `b` in service. -/
def State.inService (s : State) (b : ℕ) : List QueueEntry :=
  s.pendingRequests.filter (QueueEntry.accesses b)

/-- What holds of bank `b` in every state. -/
structure Inv (s : State) (b : ℕ) : Prop where
  arrived_lt : ∀ n ∈ s.arrived b, n < s.accepted
  increasing : (s.arrived b).Pairwise (· < ·)
  dropped_mem : ∀ n ∈ s.dropped b, n ∈ s.arrived b
  order : (s.arrived b).filter (fun n => n ∉ s.dropped b) = s.started b ++ s.waiting b
  served : (s.inService b).length = (s.banksUsed b).toNat
  busy : s.banksUsed b = false → s.waiting b = []

variable {s s' : State} {b n : ℕ} {hasData success : Bool} {request : MemoryRequest}

theorem inv_init : Inv {} b where
  arrived_lt := nofun
  increasing := .nil
  dropped_mem := nofun
  order := rfl
  served := rfl
  busy _ := rfl

/-- A request that waits has arrived and was not dropped. -/
theorem Inv.mem_arrived (h : Inv s b) (hn : n ∈ s.waiting b) : n ∈ s.arrived b :=
  List.mem_of_mem_filter (h.order ▸ List.mem_append_right _ hn)

/-- The new request comes after all others of its bank, and was not dropped. -/
theorem Inv.filter_arrived (h : Inv s b) :
    (s.arrived b ++ [s.accepted]).filter (fun n => n ∉ s.dropped b)
      = s.started b ++ s.waiting b ++ [s.accepted] := by
  have hnew : s.accepted ∉ s.dropped b := fun hmem =>
    Nat.lt_irrefl _ (h.arrived_lt _ (h.dropped_mem _ hmem))
  rw [List.filter_append, h.order]
  simp [hnew]

/-- What the invariant of a bank depends on. -/
theorem Inv.frame (h : Inv s b) (haccepted : s.accepted ≤ s'.accepted)
    (harrived : s'.arrived b = s.arrived b) (hdropped : s'.dropped b = s.dropped b)
    (hstarted : s'.started b = s.started b) (hused : s'.banksUsed b = s.banksUsed b)
    (hwaiting : s'.waiting b = s.waiting b)
    (hservice : (s'.inService b).length = (s.inService b).length) : Inv s' b where
  arrived_lt n hn := Nat.lt_of_lt_of_le (h.arrived_lt n (harrived ▸ hn)) haccepted
  increasing := harrived ▸ h.increasing
  dropped_mem n hn := harrived ▸ h.dropped_mem n (hdropped ▸ hn)
  order := by rw [harrived, hdropped, hstarted, hwaiting, h.order]
  served := by rw [hservice, hused, h.served]
  busy hfree := by rw [hwaiting, h.busy (hused ▸ hfree)]

/-! ### Messages -/

theorem waiting_add (stage : Stage) :
    (s.add request stage).waiting b = s.waiting b ++
      if getBankId request.physicalAddress = b ∧ stage = .waiting then [s.accepted] else [] := by
  rw [State.waiting, State.add, List.filter_append, List.map_append]
  split_ifs with h <;> simp [State.waiting, QueueEntry.waits, QueueEntry.bank, h]

theorem length_inService_add (stage : Stage) :
    ((s.add request stage).inService b).length = (s.inService b).length +
      if getBankId request.physicalAddress = b ∧ stage = .accessing then 1 else 0 := by
  rw [State.inService, State.add, List.filter_append, List.length_append]
  split_ifs with h <;> simp [State.inService, QueueEntry.accesses, QueueEntry.bank, h]

theorem arrived_add_of_ne (hb : getBankId request.physicalAddress ≠ b) (stage : Stage) :
    (s.add request stage).arrived b = s.arrived b :=
  update_of_ne hb.symm ..

theorem arrived_add (hb : getBankId request.physicalAddress = b) (stage : Stage) :
    (s.add request stage).arrived b = s.arrived b ++ [s.accepted] := by
  subst hb
  exact update_self ..

/-- The histories of the bank of a new request, except for the order of service. -/
theorem Inv.arrived_add_spec (h : Inv s b) (hb : getBankId request.physicalAddress = b)
    (stage : Stage) :
    (∀ n ∈ (s.add request stage).arrived b, n < s.accepted + 1) ∧
      ((s.add request stage).arrived b).Pairwise (· < ·) ∧
      ∀ n ∈ s.dropped b, n ∈ (s.add request stage).arrived b := by
  rw [arrived_add hb]
  refine ⟨fun n hn => ?_, List.pairwise_append.mpr ⟨h.increasing, List.pairwise_singleton .., ?_⟩,
    fun n hn => List.mem_append_left _ (h.dropped_mem n hn)⟩
  · rcases List.mem_append.mp hn with hn | hn
    · exact Nat.lt_succ_of_lt (h.arrived_lt n hn)
    · exact List.mem_singleton.mp hn ▸ Nat.lt_succ_self _
  · rintro n hn m hm
    exact List.mem_singleton.mp hm ▸ h.arrived_lt n hn

/-- The bank is in use: the request waits behind the others. -/
theorem Inv.add_waiting (h : Inv s b) (hb : getBankId request.physicalAddress = b)
    (hused : s.banksUsed b) : Inv (s.add request .waiting) b := by
  obtain ⟨hlt, hincreasing, hdropped⟩ := h.arrived_add_spec hb .waiting
  refine ⟨hlt, hincreasing, hdropped, ?_, ?_, fun hfree => ?_⟩
  · rw [arrived_add hb, waiting_add, if_pos ⟨hb, rfl⟩, ← List.append_assoc]
    exact h.filter_arrived
  · rw [length_inService_add, if_neg (by simp)]
    exact h.served
  · exact absurd (hused.symm.trans hfree) (by decide)

/-- The bank is free, so that no request waits for it: the request is served at once. -/
theorem Inv.add_accessing (h : Inv s b) (hb : getBankId request.physicalAddress = b)
    (hfree : s.banksUsed b = false) :
    Inv { s.add request .accessing with
      banksUsed := update s.banksUsed b true
      started := update s.started b (s.started b ++ [s.accepted]) } b := by
  obtain ⟨hlt, hincreasing, hdropped⟩ := h.arrived_add_spec hb .accessing
  have hnone : (s.add request .accessing).waiting b = [] := by
    rw [waiting_add, if_neg (by simp), h.busy hfree]
    rfl
  refine ⟨hlt, hincreasing, hdropped, ?_, ?_, fun _ => hnone⟩
  · have hstarted := h.filter_arrived
    rw [h.busy hfree, List.append_nil] at hstarted
    simp only [update_self]
    refine (congrArg _ (arrived_add hb .accessing)).trans (hstarted.trans ?_)
    exact (List.append_nil _).symm.trans (congrArg _ hnone.symm)
  · have hserved : ((s.add request .accessing).inService b).length = 1 := by
      rw [length_inService_add, if_pos ⟨hb, rfl⟩, h.served, hfree]
      rfl
    simp only [update_self]
    exact hserved

theorem Inv.handleInterconnectCb (h : Inv s b) :
    Inv (s.handleInterconnectCb hasData request) b := by
  simp only [State.handleInterconnectCb]
  by_cases hb : getBankId request.physicalAddress = b
  · subst hb
    split_ifs with hverdict hused
    · exact h.add_waiting rfl hused
    · exact h.add_accessing rfl (Bool.eq_false_iff.mpr hused)
    · exact h
  · -- the bank is not that of the request
    have hwaiting (stage : Stage) : (s.add request stage).waiting b = s.waiting b := by
      rw [waiting_add, if_neg fun h => hb h.1, List.append_nil]
    have hservice (stage : Stage) :
        ((s.add request stage).inService b).length = (s.inService b).length := by
      rw [length_inService_add, if_neg fun h => hb h.1, Nat.add_zero]
    split_ifs
    · exact h.frame (Nat.le_succ _) (arrived_add_of_ne hb _) rfl rfl rfl (hwaiting _) (hservice _)
    · exact h.frame (Nat.le_succ _) (arrived_add_of_ne hb .accessing) rfl
        (update_of_ne (Ne.symm hb) ..) (update_of_ne (Ne.symm hb) ..)
        (hwaiting _) (hservice _)
    · exact h

/-! ### Completions and retries -/

theorem accessCompletedCb_cases (h : s.accessCompletedCb n success = some s') :
    ∃ e, s.pendingRequests[n]? = some e ∧ e.stage = .accessing ∧
      s' = { s with
        pendingRequests :=
          if e.annuled then (State.startNext e.bank s.pendingRequests).eraseIdx n
          else State.waitInterconnectCb n e success (State.startNext e.bank s.pendingRequests)
        banksUsed := update s.banksUsed e.bank
          (s.pendingRequests.find? (QueueEntry.waits e.bank)).isSome
        started := update s.started e.bank (s.started e.bank ++
          ((s.pendingRequests.find? (QueueEntry.waits e.bank)).map
            QueueEntry.serial).toList) } := by
  rw [State.accessCompletedCb] at h
  split at h
  · contradiction
  · rename_i e he
    by_cases hstage : e.stage = .accessing
    · rw [if_pos hstage] at h
      exact ⟨e, he, hstage, (Option.some.inj h).symm⟩
    · rw [if_neg hstage] at h
      contradiction

theorem retry_cases (h : s.retry n success = some s') :
    ∃ e, s.pendingRequests[n]? = some e ∧ e.stage = .answering ∧
      s' = { s with
        pendingRequests := State.waitInterconnectCb n e success s.pendingRequests } := by
  rw [State.retry] at h
  split at h
  · contradiction
  · rename_i e he
    split_ifs at h with hstage
    exact ⟨e, he, hstage, (Option.some.inj h).symm⟩

/-- The first waiting request is started, and the others wait on. -/
theorem toList_find?_append_tail (l : List QueueEntry) :
    ((l.find? (QueueEntry.waits b)).map QueueEntry.serial).toList ++
        (l.filter (QueueEntry.waits b)).tail.map QueueEntry.serial
      = (l.filter (QueueEntry.waits b)).map QueueEntry.serial := by
  rw [← List.head?_filter]
  cases l.filter (QueueEntry.waits b) <;> rfl

theorem Inv.accessCompletedCb (h : Inv s b) (hstep : s.accessCompletedCb n success = some s') :
    Inv s' b := by
  obtain ⟨e, he, hstage, rfl⟩ := accessCompletedCb_cases hstep
  have hnot : e.stage ≠ .waiting := by simp [hstage]
  have hstays : (State.startNext e.bank s.pendingRequests)[n]? = some e :=
    getElem?_startNext he (by simp [QueueEntry.waits, hstage])
  obtain ⟨hwaits, haccesses⟩ := filter_released hstays hnot e.annuled success b
  by_cases hb : e.bank = b
  · subst hb
    have hself : e.accesses e.bank := by simp [QueueEntry.accesses, hstage]
    rw [filter_waits_startNext] at hwaits
    rw [length_accesses_startNext, hself] at haccesses
    -- the completed access was the one in service
    have hused : s.banksUsed e.bank = true := by
      have hmem : e ∈ s.inService e.bank :=
        List.mem_filter.mpr ⟨List.mem_of_getElem? he, hself⟩
      have hpos := List.length_pos_of_mem hmem
      rw [h.served] at hpos
      cases hfree : s.banksUsed e.bank with
      | true => rfl
      | false => simp [hfree] at hpos
    refine ⟨h.arrived_lt, h.increasing, h.dropped_mem, ?_, ?_, fun hfree => ?_⟩
    · simp only [State.waiting, update_self, hwaits]
      rw [h.order, List.append_assoc, toList_find?_append_tail]
      rfl
    · have hserved := h.served
      rw [hused] at hserved
      simp only [State.inService, update_self] at hserved haccesses ⊢
      rw [hserved] at haccesses
      simp only [Bool.toNat_true] at haccesses
      omega
    · simp only [update_self] at hfree
      rw [← List.head?_filter] at hfree
      simp only [State.waiting, hwaits]
      cases hw : s.pendingRequests.filter (QueueEntry.waits e.bank) with
      | nil => rfl
      | cons x w => simp [hw] at hfree
  · obtain ⟨hwaits', haccesses'⟩ :=
      filter_startNext_of_ne (l := s.pendingRequests) (Ne.symm hb)
    have hself : e.accesses b = false := by simp [QueueEntry.accesses, hb]
    rw [hwaits'] at hwaits
    rw [haccesses', hself] at haccesses
    exact h.frame (Nat.le_refl _) rfl rfl (update_of_ne (Ne.symm hb) ..)
      (update_of_ne (Ne.symm hb) ..) (congrArg _ hwaits) haccesses

theorem Inv.retry (h : Inv s b) (hstep : s.retry n success = some s') : Inv s' b := by
  obtain ⟨e, he, hstage, rfl⟩ := retry_cases hstep
  obtain ⟨hwaits, haccesses⟩ :=
    filter_released he (by simp [hstage]) false success b
  have hself : e.accesses b = false := by simp [QueueEntry.accesses, hstage]
  rw [hself] at haccesses
  exact h.frame (Nat.le_refl _) rfl rfl rfl rfl (congrArg _ hwaits) haccesses

/-! ### Annulments -/

theorem filter_waits_annulRequest :
    (s.annulRequest request).pendingRequests.filter (QueueEntry.waits b)
      = (s.pendingRequests.filter (QueueEntry.waits b)).filter fun e => e.request ≠ request := by
  rw [State.annulRequest, List.filter_map, List.filter_filter, List.filter_filter]
  have hsame : ∀ e : QueueEntry,
      (((QueueEntry.waits b ∘ fun e => if e.request = request then { e with annuled := true }
        else e) e) && decide (e.request ≠ request ∨ e.inUse))
        = (decide (e.request ≠ request) && e.waits b) := by
    intro e
    by_cases he : e.request = request
    · simp [he, QueueEntry.waits, QueueEntry.inUse]
    · simp [he]
  rw [List.filter_congr fun e _ => hsame e]
  refine (List.map_congr_left fun e he => ?_).trans (List.map_id _)
  obtain ⟨hne, -⟩ := Bool.and_eq_true_iff.mp (List.mem_filter.mp he).2
  rw [if_neg (of_decide_eq_true hne)]
  rfl

theorem length_inService_annulRequest :
    ((s.annulRequest request).inService b).length = (s.inService b).length := by
  rw [State.inService, State.annulRequest, List.filter_map, List.length_map, List.filter_filter]
  refine congrArg _ (List.filter_congr fun e _ => ?_)
  by_cases he : e.request = request
  · by_cases hstage : e.stage = .waiting <;>
      simp [he, hstage, QueueEntry.accesses, QueueEntry.inUse, QueueEntry.bank]
  · simp [he]

/-- Entries are told apart by their numbers. -/
theorem filter_notMem_serials {l : List QueueEntry} (hl : (l.map QueueEntry.serial).Nodup)
    (q : QueueEntry → Bool) :
    (l.map QueueEntry.serial).filter (fun n => n ∉ (l.filter q).map QueueEntry.serial)
      = (l.filter fun e => !q e).map QueueEntry.serial := by
  rw [List.filter_map]
  refine congrArg _ (List.filter_congr fun e he => ?_)
  have hiff : e.serial ∈ (l.filter q).map QueueEntry.serial ↔ q e := by
    refine ⟨fun hmem => ?_, fun hq => List.mem_map_of_mem (List.mem_filter.mpr ⟨he, hq⟩)⟩
    obtain ⟨e', he', heq⟩ := List.mem_map.mp hmem
    obtain ⟨hmem', hq⟩ := List.mem_filter.mp he'
    exact List.inj_on_of_nodup_map hl hmem' he heq ▸ hq
  simp only [comp_apply, hiff]
  cases q e <;> rfl

theorem Inv.annulRequest (h : Inv s b) : Inv (s.annulRequest request) b := by
  have hnodup : (s.started b ++ s.waiting b).Nodup :=
    h.order ▸ (h.increasing.imp Nat.ne_of_lt).filter _
  obtain ⟨-, hwaiting, hdisjoint⟩ := List.nodup_append.mp hnodup
  have hsub : ∀ n ∈ s.annulled request b, n ∈ s.waiting b := fun n hn =>
    (List.filter_sublist.map _).mem hn
  refine ⟨h.arrived_lt, h.increasing, fun n hn => ?_, ?_, ?_, fun hfree => ?_⟩
  · rcases List.mem_append.mp hn with hn | hn
    · exact h.dropped_mem n hn
    · exact h.mem_arrived (hsub n hn)
  · -- the annulled numbers are taken from those that wait, not from those that were started
    have hsplit : (s.arrived b).filter (fun n => n ∉ s.dropped b ++ s.annulled request b)
        = ((s.arrived b).filter fun n => n ∉ s.dropped b).filter
          fun n => n ∉ s.annulled request b := by
      rw [List.filter_filter]
      refine List.filter_congr fun n _ => ?_
      simp only [List.mem_append, not_or, Bool.decide_and]
      exact Bool.and_comm ..
    have hstarted : (s.started b).filter (fun n => n ∉ s.annulled request b) = s.started b :=
      List.filter_eq_self.mpr fun n hn =>
        decide_eq_true fun hmem => hdisjoint n hn n (hsub n hmem) rfl
    refine hsplit.trans ?_
    rw [h.order, List.filter_append, hstarted]
    refine congrArg _ ((filter_notMem_serials hwaiting _).trans ?_)
    rw [State.waiting, filter_waits_annulRequest]
    simp
  · rw [length_inService_annulRequest]
    exact h.served
  · have hnone : s.pendingRequests.filter (QueueEntry.waits b) = [] :=
      List.map_eq_nil_iff.mp (h.busy hfree)
    rw [State.waiting, filter_waits_annulRequest, hnone]
    rfl

/-! ### All runs -/

theorem Inv.step {a : Action} (h : Inv s b) (hstep : step s a = some s') : Inv s' b := by
  cases a with
  | message hasData request => exact Option.some.inj hstep ▸ h.handleInterconnectCb
  | completed n success => exact h.accessCompletedCb hstep
  | retry n success => exact h.retry hstep
  | annul request => exact Option.some.inj hstep ▸ h.annulRequest

/-- **The banks of the memory controller.** After any messages, completions, retries and
annulments, and for every bank: it is marked as used exactly if one access of it is in service,
there is at most one, and a request waits only if there is one. Its requests were started in the
order of their arrival and each of them once: those that arrived, without those annulled before
they were started, are those that were started followed by those that wait. -/
theorem bank_served {actions : List Action} (h : Run (Steps step) {} actions s) (b : ℕ) :
    (s.banksUsed b = true ↔ (s.inService b).length = 1) ∧ (s.inService b).length ≤ 1 ∧
      (s.waiting b ≠ [] → s.banksUsed b = true) ∧
      (s.arrived b).Pairwise (· < ·) ∧
      (s.arrived b).filter (fun n => n ∉ s.dropped b) = s.started b ++ s.waiting b := by
  have hinv : Inv s b := h.invariant (P := fun s => Inv s b) inv_init fun _ _ _ hs => hs.step
  refine ⟨?_, ?_, fun hwaiting => ?_, hinv.increasing, hinv.order⟩
  · rw [hinv.served]
    cases s.banksUsed b <;> simp
  · rw [hinv.served]
    exact Bool.toNat_le _
  · exact Bool.of_not_eq_false fun hfree => hwaiting (hinv.busy hfree)

/-- Four reads of bank 1, of which the third is annulled while it waits. The first is completed
but its answer is refused, so it stays in the list while the second is in service. -/
theorem bank_served_four :
    ∃ s, Run (Steps step) {}
        [.message false ⟨0, 0, 0, 64, true, .read⟩, .message false ⟨0, 0, 1, 64, true, .read⟩,
          .message false ⟨0, 0, 2, 64, true, .read⟩, .message false ⟨0, 0, 3, 4160, true, .read⟩,
          .annul ⟨0, 0, 2, 64, true, .read⟩, .completed 0 false] s ∧
      s.arrived 1 = [0, 1, 2, 3] ∧ s.dropped 1 = [2] ∧ s.started 1 = [0, 1] ∧
      s.waiting 1 = [3] ∧ s.pendingRequests.length = 3 ∧ (s.inService 1).length ≤ 1 ∧
      s.banksUsed 1 = true := by
  refine exists_run_imp (fun s => s.arrived 1 = [0, 1, 2, 3] ∧ s.dropped 1 = [2] ∧
    s.started 1 = [0, 1] ∧ s.waiting 1 = [3] ∧ s.pendingRequests.length = 3)
    (by decide +kernel) fun s hs hP => ?_
  obtain ⟨harrived, hdropped, hstarted, hwaiting, hlength⟩ := hP
  obtain ⟨-, hone, hbusy, -, -⟩ := bank_served hs 1
  exact ⟨harrived, hdropped, hstarted, hwaiting, hlength, hone, hbusy (by simp [hwaiting])⟩

end HybridMemory.Ptlsim.MemoryController

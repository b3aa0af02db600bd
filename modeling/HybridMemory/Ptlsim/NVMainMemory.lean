import Mathlib.Data.List.Nodup
import Mathlib.Data.List.Perm.Basic
import HybridMemory.Lib.Transition
import HybridMemory.Ptlsim.MESILogic

/-!
# The bridge from the cache hierarchy to NVMain

`NVMainMemory` keeps two tables: `pendingRequests_`, one entry for each message it has
taken from the interconnect, and `m_request_map_`, the requests that NVMain has accepted
and not completed. A completion does not know its entry; it takes the first one whose
address lies in the same transaction. An entry whose answer the interconnect refuses stays
in the list with a retry scheduled for it.

The model numbers the accepted messages. `accepted` counts them, `issued` lists the numbers
of those handed to NVMain; neither is in the source. An entry that is used after it was
freed, or a completion that finds no entry, ends the run (`none`).

* `in_step_iff`: the two tables agree in all states of a run exactly if NVMain refuses no
  accepted message, no pending request is annulled, and no completion meets an entry whose
  answer still waits for the interconnect.
-/

namespace HybridMemory.Ptlsim.NVMainMemory

open Transition

/-- The fields by which `MemoryRequest::is_same` compares requests. -/
structure MemoryRequest where
  coreId : ℕ := 0
  threadId : ℕ := 0
  robId : ℕ := 0
  physicalAddress : ℕ
  isData : Bool := true
  opType : OpType
  deriving DecidableEq

/-- `nvmain_transaction_size` -/
def transactionSize : ℕ := 64

/-- `MEM_REQ_NUM`, the size of the pool of entries. -/
def memReqNum : ℕ := 128

/-- `ALIGN_ADDRESS` -/
def alignAddress (address : ℕ) : ℕ := address / transactionSize * transactionSize

/-- `MemoryQueueEntry`, with the number of the message it was allocated for. -/
structure Entry where
  serial : ℕ
  request : MemoryRequest
  annuled : Bool := false
  inUse : Bool := false
  deriving DecidableEq

/-- The address of the NVMain request made for an entry. -/
def Entry.transaction (e : Entry) : ℕ := alignAddress e.request.physicalAddress

structure State where
  pendingRequests : List Entry := []
  /-- the addresses of the requests in `m_request_map_` -/
  requestMap : List ℕ := []
  /-- the entries for which `wait_interconnect_` is scheduled -/
  retries : List ℕ := []
  accepted : ℕ := 0
  issued : List ℕ := []
  deriving DecidableEq

/-- What `handle_interconnect_cb` does with a message. -/
inductive Verdict
  | ignored | merged | refused | accepted
  deriving DecidableEq

/-- The tests of `handle_interconnect_cb`: messages with data that are no updates and all
evictions are ignored, an update is merged into one that is pending for the same address,
and a full pool refuses. The search for an update runs backwards and stops at the first
entry of that address, whatever its type. -/
def State.verdict (s : State) (hasData : Bool) (request : MemoryRequest) : Verdict :=
  if hasData ∧ request.opType ≠ .update then .ignored
  else if request.opType = .evict then .ignored
  else if request.opType = .update ∧
      (s.pendingRequests.reverse.find? fun e =>
        e.request.physicalAddress = request.physicalAddress).any
        fun e => !e.inUse && e.request.opType = .update then .merged
  else if s.pendingRequests.length = memReqNum then .refused
  else .accepted

/-- `handle_interconnect_cb`; `issuable` is NVMain's answer to `IsIssuable`. An accepted
message gets an entry, and a request of NVMain if that is issuable. -/
def State.handleInterconnect (s : State) (hasData : Bool) (request : MemoryRequest)
    (issuable : Bool) : State :=
  if s.verdict hasData request = .accepted then
    let e : Entry := { serial := s.accepted, request := request }
    let s := { s with
      pendingRequests := s.pendingRequests ++ [e]
      accepted := s.accepted + 1 }
    if issuable then
      { s with requestMap := s.requestMap ++ [e.transaction], issued := s.issued ++ [e.serial] }
    else s
  else s

/-- `wait_interconnect_cb` for an entry in the list: an update needs no answer; a refused
answer is tried again later. -/
def State.waitInterconnect (s : State) (e : Entry) (success : Bool) : State :=
  if e.request.opType = .update ∨ success then
    { s with pendingRequests := s.pendingRequests.erase e }
  else { s with retries := s.retries ++ [e.serial] }

/-- `RequestComplete` for the NVMain request number `n` of the map. -/
def State.requestComplete (s : State) (n : ℕ) (success : Bool) : Option State := do
  let address ← s.requestMap[n]?
  let e ← s.pendingRequests.find? fun e => e.transaction = address
  let s := { s with requestMap := s.requestMap.eraseIdx n }
  if e.annuled then return { s with pendingRequests := s.pendingRequests.erase e }
  else return s.waitInterconnect e success

/-- A scheduled `wait_interconnect_cb` runs. -/
def State.retry (s : State) (n : ℕ) (success : Bool) : Option State := do
  let serial ← s.retries[n]?
  let e ← s.pendingRequests.find? fun e => e.serial = serial
  return { s with retries := s.retries.eraseIdx n }.waitInterconnect e success

/-- `annul_request`: the entries of the request are marked, and freed unless in use. -/
def State.annulRequest (s : State) (request : MemoryRequest) : State :=
  { s with
    pendingRequests := (s.pendingRequests.filter fun e => e.request ≠ request ∨ e.inUse).map
      fun e => if e.request = request then { e with annuled := true } else e }

inductive Action
  | message (hasData : Bool) (request : MemoryRequest) (issuable : Bool)
  | annul (request : MemoryRequest)
  | complete (n : ℕ) (success : Bool)
  | retry (n : ℕ) (success : Bool)
  deriving DecidableEq

def step (s : State) : Action → Option State
  | .message hasData request issuable => some (s.handleInterconnect hasData request issuable)
  | .annul request => some (s.annulRequest request)
  | .complete n success => s.requestComplete n success
  | .retry n success => s.retry n success

/-! ### The two tables in step -/

/-- The entries that await memory: those without a scheduled answer. -/
def State.awaiting (s : State) : List Entry :=
  s.pendingRequests.filter fun e => e.serial ∉ s.retries

/-- The bridge is in step: every accepted message was issued exactly once, the entries that
await memory correspond one to one to the outstanding requests, so that each completion
finds one, and no scheduled answer belongs to a freed entry. -/
structure State.InStep (s : State) : Prop where
  issued : s.issued = List.range s.accepted
  matched : (s.awaiting.map Entry.transaction).Perm s.requestMap
  live : ∀ k ∈ s.retries, ∃ e ∈ s.pendingRequests, e.serial = k

/-- The steps that keep the tables in step. -/
def InStepAction (s : State) : Action → Prop
  | .message hasData request issuable => s.verdict hasData request = .accepted → issuable
  | .annul request => ∀ e ∈ s.pendingRequests, e.request ≠ request
  | .complete n _ => ∀ address, s.requestMap[n]? = some address →
      ∀ e, (s.pendingRequests.find? fun e => e.transaction = address) = some e →
        e.serial ∉ s.retries
  | .retry _ _ => True

/-- The invariant: the tables are in step, the numbers of the entries are distinct, and no
entry is ever marked. -/
structure State.Inv (s : State) : Prop extends s.InStep where
  nodup : (s.pendingRequests.map Entry.serial).Nodup
  lt : ∀ e ∈ s.pendingRequests, e.serial < s.accepted
  unmarked : ∀ e ∈ s.pendingRequests, e.annuled = false ∧ e.inUse = false
  retries_nodup : s.retries.Nodup

variable {s t : State} {e e' : Entry}

theorem State.mem_awaiting : e ∈ s.awaiting ↔ e ∈ s.pendingRequests ∧ e.serial ∉ s.retries := by
  simp [State.awaiting]

theorem State.Inv.eq_of_serial (h : s.Inv) (he : e ∈ s.pendingRequests)
    (he' : e' ∈ s.pendingRequests) (hserial : e.serial = e'.serial) : e = e' :=
  List.inj_on_of_nodup_map h.nodup he he' hserial

theorem State.Inv.entries_nodup (h : s.Inv) : s.pendingRequests.Nodup :=
  List.Nodup.of_map _ h.nodup

/-! ### Steps -/

/-- Entries other than `e` have other numbers. -/
theorem State.Inv.serial_ne (h : s.Inv) (he : e ∈ s.pendingRequests)
    (he' : e' ∈ s.pendingRequests.erase e) : e'.serial ≠ e.serial := by
  intro hserial
  have hmem := (h.entries_nodup.mem_erase_iff).mp he'
  exact hmem.1 (h.eq_of_serial hmem.2 he hserial)

/-- The entries that await memory, with one of them in front. -/
theorem State.awaiting_perm_cons (he : e ∈ s.awaiting) :
    s.awaiting.Perm
      (e :: (s.pendingRequests.erase e).filter fun e => e.serial ∉ s.retries) := by
  obtain ⟨hmem, hserial⟩ := State.mem_awaiting.mp he
  refine ((List.perm_cons_erase hmem).filter _).trans ?_
  rw [List.filter_cons_of_pos (by simpa using hserial)]

/-- The same for an entry whose answer is scheduled: it is not among them. -/
theorem State.awaiting_perm_erase (hmem : e ∈ s.pendingRequests) (he : e.serial ∈ s.retries) :
    s.awaiting.Perm ((s.pendingRequests.erase e).filter fun e => e.serial ∉ s.retries) := by
  refine ((List.perm_cons_erase hmem).filter _).trans ?_
  rw [List.filter_cons_of_neg (by simpa using he)]

/-- An entry leaves the list. -/
theorem State.Inv.free (h : s.Inv) (e : Entry) {requestMap retries : List ℕ}
    (hmatched : (((s.pendingRequests.erase e).filter fun e => e.serial ∉ retries).map
      Entry.transaction).Perm requestMap)
    (hlive : ∀ k ∈ retries, ∃ e' ∈ s.pendingRequests.erase e, e'.serial = k)
    (hnodup : retries.Nodup) :
    State.Inv { s with
      pendingRequests := s.pendingRequests.erase e
      requestMap := requestMap
      retries := retries } where
  issued := h.issued
  matched := hmatched
  live := hlive
  nodup := h.nodup.sublist (List.erase_sublist.map _)
  lt e' he' := h.lt e' (List.mem_of_mem_erase he')
  unmarked e' he' := h.unmarked e' (List.mem_of_mem_erase he')
  retries_nodup := hnodup

/-- A message that NVMain takes, if it is accepted at all. -/
theorem State.Inv.handleInterconnect (h : s.Inv) {hasData : Bool} {request : MemoryRequest}
    {issuable : Bool} (hG : s.verdict hasData request = .accepted → issuable) :
    (s.handleInterconnect hasData request issuable).Inv := by
  rw [State.handleInterconnect]
  by_cases haccept : s.verdict hasData request = .accepted
  swap
  · rw [if_neg haccept]
    exact h
  rw [if_pos haccept]
  simp only [hG haccept, if_true]
  have hfresh : s.accepted ∉ s.retries := by
    intro hmem
    obtain ⟨e, he, hserial⟩ := h.live _ hmem
    have := h.lt e he
    omega
  constructor
  · constructor
    · simp only [h.issued, List.range_succ]
    · simp only [State.awaiting, List.filter_append, List.map_append]
      refine h.matched.append ?_
      rw [List.filter_cons_of_pos (by simpa using hfresh)]
      exact List.Perm.refl _
    · intro k hk
      obtain ⟨e, he, hserial⟩ := h.live k hk
      exact ⟨e, List.mem_append_left _ he, hserial⟩
  · simp only [List.map_append, List.map_singleton, List.nodup_append]
    refine ⟨h.nodup, List.nodup_singleton _, ?_⟩
    rintro _ hserial _ hnew rfl
    obtain ⟨e, he, hserial⟩ := List.mem_map.mp hserial
    have := h.lt e he
    rw [hserial, List.mem_singleton.mp hnew] at this
    exact Nat.lt_irrefl _ this
  · intro e he
    rcases List.mem_append.mp he with he | he
    · exact Nat.lt_succ_of_lt (h.lt e he)
    · obtain rfl := List.mem_singleton.mp he
      exact Nat.lt_succ_self _
  · intro e he
    rcases List.mem_append.mp he with he | he
    · exact h.unmarked e he
    · obtain rfl := List.mem_singleton.mp he
      exact ⟨rfl, rfl⟩
  · exact h.retries_nodup

/-- A request that is not pending can be annulled: nothing happens. -/
theorem State.annulRequest_of_absent {request : MemoryRequest}
    (habsent : ∀ e ∈ s.pendingRequests, e.request ≠ request) : s.annulRequest request = s := by
  have hfilter : (s.pendingRequests.filter fun e => e.request ≠ request ∨ e.inUse) =
      s.pendingRequests :=
    List.filter_eq_self.mpr fun e he => by simp [habsent e he]
  have hmap : (s.pendingRequests.map fun e =>
      if e.request = request then { e with annuled := true } else e) = s.pendingRequests := by
    refine (List.map_congr_left fun e he => ?_).trans (List.map_id _)
    rw [if_neg (habsent e he), id]
  rw [State.annulRequest, hfilter, hmap]

/-- A completion that meets an entry awaiting memory. -/
theorem State.Inv.requestComplete (h : s.Inv) {n : ℕ} {success : Bool}
    (hstep : s.requestComplete n success = some t)
    (hG : InStepAction s (.complete n success)) : t.Inv := by
  simp only [State.requestComplete, Option.bind_eq_bind, Option.bind_eq_some_iff] at hstep
  obtain ⟨address, haddress, e, he, hstep⟩ := hstep
  have hmem := List.mem_of_find?_eq_some he
  have htransaction : e.transaction = address := by simpa using List.find?_some he
  have hserial := hG address haddress e he
  rw [if_neg (by simp [(h.unmarked e hmem).1])] at hstep
  obtain rfl := Option.some.inj hstep
  -- both tables lose their counterpart of the other
  have hrest : (((s.pendingRequests.erase e).filter fun e => e.serial ∉ s.retries).map
      Entry.transaction).Perm (s.requestMap.eraseIdx n) := by
    have hcons := (State.awaiting_perm_cons (State.mem_awaiting.mpr ⟨hmem, hserial⟩)).map
      Entry.transaction
    obtain ⟨hlt, hget⟩ := List.getElem?_eq_some_iff.mp haddress
    have hmap : (e.transaction :: s.requestMap.eraseIdx n).Perm s.requestMap := by
      rw [htransaction, ← hget]
      exact List.getElem_cons_eraseIdx_perm hlt
    exact ((hcons.symm.trans h.matched).trans hmap.symm).cons_inv
  have hlive : ∀ k ∈ s.retries, ∃ e' ∈ s.pendingRequests.erase e, e'.serial = k := by
    intro k hk
    obtain ⟨e', he', rfl⟩ := h.live k hk
    refine ⟨e', (List.mem_erase_of_ne ?_).mpr he', rfl⟩
    rintro rfl
    exact hserial hk
  rw [State.waitInterconnect]
  by_cases hdone : e.request.opType = .update ∨ success
  · rw [if_pos hdone]
    exact h.free e hrest hlive h.retries_nodup
  · rw [if_neg hdone]
    have hawaiting : (s.pendingRequests.filter fun e' => e'.serial ∉ s.retries ++ [e.serial]).Perm
        ((s.pendingRequests.erase e).filter fun e => e.serial ∉ s.retries) := by
      refine ((List.perm_cons_erase hmem).filter _).trans ?_
      rw [List.filter_cons_of_neg (by simp)]
      refine List.Perm.of_eq (List.filter_congr fun e' he' => ?_)
      simp [h.serial_ne hmem he']
    constructor
    · constructor
      · exact h.issued
      · exact (hawaiting.map _).trans hrest
      · intro k hk
        rcases List.mem_append.mp hk with hk | hk
        · exact h.live k hk
        · exact ⟨e, hmem, (List.mem_singleton.mp hk).symm⟩
    · exact h.nodup
    · exact h.lt
    · exact h.unmarked
    · refine List.nodup_append.mpr ⟨h.retries_nodup, List.nodup_singleton _, ?_⟩
      rintro _ hk _ hk' rfl
      exact hserial (List.mem_singleton.mp hk' ▸ hk)

/-- A scheduled answer that is tried again is that of a pending entry. -/
theorem State.retry_eq_some {n : ℕ} {success : Bool} (hstep : s.retry n success = some t) :
    ∃ e ∈ s.pendingRequests, s.retries[n]? = some e.serial ∧
      { s with retries := s.retries.eraseIdx n }.waitInterconnect e success = t := by
  simp only [State.retry, Option.bind_eq_bind, Option.bind_eq_some_iff] at hstep
  obtain ⟨serial, hget, e, he, hstep⟩ := hstep
  obtain rfl : e.serial = serial := by simpa using List.find?_some he
  exact ⟨e, List.mem_of_find?_eq_some he, hget, Option.some.inj hstep⟩

/-- A scheduled answer is sent or scheduled again: memory is not concerned. -/
theorem State.Inv.retry (h : s.Inv) {n : ℕ} {success : Bool}
    (hstep : s.retry n success = some t) : t.Inv := by
  obtain ⟨e, hmem, hget, rfl⟩ := State.retry_eq_some hstep
  obtain ⟨hlt, hget⟩ := List.getElem?_eq_some_iff.mp hget
  have hperm : (e.serial :: s.retries.eraseIdx n).Perm s.retries := by
    rw [← hget]
    exact List.getElem_cons_eraseIdx_perm hlt
  have hnodup := hperm.nodup_iff.mpr h.retries_nodup
  have hmemretries : e.serial ∈ s.retries := hperm.mem_iff.mp List.mem_cons_self
  rw [State.waitInterconnect]
  by_cases hdone : e.request.opType = .update ∨ success
  · rw [if_pos hdone]
    refine h.free e ?_ ?_ (List.nodup_cons.mp hnodup).2
    · have hawaiting := (State.awaiting_perm_erase hmem hmemretries).symm.map Entry.transaction
      refine List.Perm.trans ?_ (hawaiting.trans h.matched)
      refine List.Perm.of_eq (congrArg _ (List.filter_congr fun e' he' => ?_))
      have hiff : e'.serial ∈ s.retries ↔ e'.serial ∈ s.retries.eraseIdx n := by
        rw [← hperm.mem_iff, List.mem_cons, or_iff_right (h.serial_ne hmem he')]
      simp [hiff]
    · intro k hk
      have hkretries : k ∈ s.retries := hperm.mem_iff.mp (List.mem_cons_of_mem _ hk)
      obtain ⟨e', he', rfl⟩ := h.live k hkretries
      refine ⟨e', (List.mem_erase_of_ne ?_).mpr he', rfl⟩
      rintro rfl
      exact (List.nodup_cons.mp hnodup).1 hk
  · rw [if_neg hdone]
    have hiff : ∀ k, k ∈ s.retries.eraseIdx n ++ [e.serial] ↔ k ∈ s.retries := by
      intro k
      rw [← hperm.mem_iff, List.mem_append, List.mem_singleton, List.mem_cons, or_comm]
    constructor
    · constructor
      · exact h.issued
      · simpa only [State.awaiting, hiff] using h.matched
      · intro k hk
        exact h.live k ((hiff k).mp hk)
    · exact h.nodup
    · exact h.lt
    · exact h.unmarked
    · have hcomm : ([e.serial] ++ s.retries.eraseIdx n).Perm
          (s.retries.eraseIdx n ++ [e.serial]) := List.perm_append_comm
      exact hcomm.nodup_iff.mp hnodup

/-- A step of the good kind keeps the invariant. -/
theorem State.Inv.kept {a : Action} (h : s.Inv) (hstep : step s a = some t)
    (hG : InStepAction s a) : t.Inv := by
  cases a with
  | message hasData request issuable =>
    obtain rfl := Option.some.inj hstep
    exact h.handleInterconnect hG
  | annul request =>
    obtain rfl := Option.some.inj hstep
    rw [State.annulRequest_of_absent hG]
    exact h
  | complete n success => exact h.requestComplete hstep hG
  | retry n success => exact h.retry hstep

/-- An accepted message that NVMain refuses is never issued. -/
theorem State.Inv.not_inStep_of_refusal (h : s.Inv) {hasData : Bool} {request : MemoryRequest}
    (haccept : s.verdict hasData request = .accepted) :
    ¬ (s.handleInterconnect hasData request false).InStep := by
  intro hin
  have hlength := congrArg List.length hin.issued
  rw [State.handleInterconnect, if_pos haccept] at hlength
  simp [h.issued] at hlength

/-- Annulling a pending request frees its entry, whether NVMain still works on it or its
answer is scheduled. -/
theorem State.Inv.not_inStep_of_annul (h : s.Inv) (he : e ∈ s.pendingRequests) :
    ¬ (s.annulRequest e.request).InStep := by
  have hentries : (s.annulRequest e.request).pendingRequests =
      s.pendingRequests.filter fun e' => e'.request ≠ e.request := by
    have hfilter : (s.pendingRequests.filter fun e' => e'.request ≠ e.request ∨ e'.inUse) =
        s.pendingRequests.filter fun e' => e'.request ≠ e.request :=
      List.filter_congr fun e' he' => by simp [(h.unmarked e' he').2]
    rw [State.annulRequest, hfilter]
    refine (List.map_congr_left fun e' he' => ?_).trans (List.map_id _)
    rw [if_neg (by simpa using (List.mem_filter.mp he').2), id]
  intro hin
  by_cases hserial : e.serial ∈ s.retries
  · obtain ⟨e', he', heq⟩ := hin.live e.serial hserial
    rw [hentries, List.mem_filter] at he'
    obtain rfl := h.eq_of_serial he'.1 he heq
    simp at he'
  · have hshorter : (s.annulRequest e.request).awaiting.length < s.awaiting.length := by
      rw [State.awaiting, hentries, List.filter_comm]
      exact List.length_filter_lt_length_iff_exists.mpr
        ⟨e, State.mem_awaiting.mpr ⟨he, hserial⟩, by simp⟩
    have hsame := hin.matched.length_eq
    have hold := h.matched.length_eq
    rw [List.length_map] at hsame hold
    have hmap : (s.annulRequest e.request).requestMap = s.requestMap := rfl
    rw [hmap] at hsame
    omega

/-- A completion that meets an entry whose answer is scheduled takes that one, and the entry
it was for waits for ever. -/
theorem State.Inv.not_inStep_of_complete (h : s.Inv) {n : ℕ} {success : Bool}
    (hstep : s.requestComplete n success = some t)
    (hG : ¬ InStepAction s (.complete n success)) : ¬ t.InStep := by
  simp only [InStepAction] at hG
  push Not at hG
  obtain ⟨address, haddress, e, he, hserial⟩ := hG
  have hmem := List.mem_of_find?_eq_some he
  simp only [State.requestComplete, Option.bind_eq_bind, haddress, he, Option.bind_some,
    (h.unmarked e hmem).1] at hstep
  obtain rfl := Option.some.inj hstep
  intro hin
  have hlt : n < s.requestMap.length := (List.getElem?_eq_some_iff.mp haddress).1
  have hold := h.matched.length_eq
  have hnew := hin.matched.length_eq
  rw [List.length_map] at hold hnew
  have hawaiting : s.awaiting.length ≤
      (State.waitInterconnect { s with requestMap := s.requestMap.eraseIdx n } e
        success).awaiting.length := by
    rw [State.waitInterconnect]
    split_ifs
    · exact Nat.le_of_eq (State.awaiting_perm_erase hmem hserial).length_eq
    · refine Nat.le_of_eq (congrArg List.length (List.filter_congr fun e' he' => ?_))
      by_cases hsame : e'.serial = e.serial <;> simp [hsame, hserial]
  have hmap : (State.waitInterconnect { s with requestMap := s.requestMap.eraseIdx n } e
      success).requestMap = s.requestMap.eraseIdx n := by
    rw [State.waitInterconnect]
    split_ifs <;> rfl
  rw [hmap, List.length_eraseIdx_of_lt hlt] at hnew
  omega

theorem State.Inv.not_inStep {a : Action} (h : s.Inv) (hstep : step s a = some t)
    (hG : ¬ InStepAction s a) : ¬ t.InStep := by
  cases a with
  | message hasData request issuable =>
    obtain rfl := Option.some.inj hstep
    simp only [InStepAction, Classical.not_imp, Bool.not_eq_true] at hG
    rw [hG.2]
    exact h.not_inStep_of_refusal hG.1
  | annul request =>
    obtain rfl := Option.some.inj hstep
    simp only [InStepAction] at hG
    push Not at hG
    obtain ⟨e, he, rfl⟩ := hG
    exact h.not_inStep_of_annul he
  | complete n success => exact h.not_inStep_of_complete hstep hG
  | retry n success => exact absurd trivial hG

/-- **The two tables.** In a run of the bridge, for every sequence of messages, annulments,
refusals and completions, the tables are in step in all states if and only if each accepted
message is issuable, no pending request is annulled, and no completion meets an entry whose
answer is still scheduled. -/
theorem in_step_iff {actions : List Action} (hrun : Run (Steps step) {} actions s) :
    (∀ t, Visits (Steps step) {} actions t → t.InStep) ↔
      Run (Guarded InStepAction (Steps step)) {} actions s := by
  have hinit : State.Inv {} :=
    ⟨⟨rfl, List.Perm.refl _, nofun⟩, List.nodup_nil, nofun, nofun, List.nodup_nil⟩
  exact forall_visits_iff (fun _ h => h.toInStep) (fun _ _ _ h hs hG => h.kept hs hG)
    (fun _ _ _ h hs hG => h.not_inStep hs hG) hinit hrun

/-- A read whose answer the interconnect refuses once, and an update of the same line. -/
theorem in_step_iff_read_update :
    ∃ (actions : List Action) (s : State),
      actions = [.message false ⟨0, 0, 0, 64, true, .read⟩ true,
        .message true ⟨0, 0, 1, 64, true, .update⟩ true, .complete 0 false, .retry 0 true,
        .complete 0 true] ∧
      Run (Steps step) {} actions s ∧
      ((∀ t, Visits (Steps step) {} actions t → t.InStep) ↔
        Run (Guarded InStepAction (Steps step)) {} actions s) := by
  obtain ⟨s, hrun, -⟩ := exists_run_of_any step {}
    [.message false ⟨0, 0, 0, 64, true, .read⟩ true,
      .message true ⟨0, 0, 1, 64, true, .update⟩ true, .complete 0 false, .retry 0 true,
      .complete 0 true] (fun _ => true) (by decide +kernel)
  exact ⟨_, s, rfl, hrun, in_step_iff hrun⟩

/-- A read that NVMain refuses is accepted and never issued; a read that is annulled while
NVMain works on it leaves a completion without an entry. -/
theorem read_lost_or_entry_freed :
    (∃ s, Run (Steps step) {} [.message false ⟨0, 0, 0, 64, true, .read⟩ false] s ∧
      s.accepted = 1 ∧ s.issued = [] ∧ ¬ s.InStep) ∧
    ∃ s, Run (Steps step) {} [.message false ⟨0, 0, 0, 64, true, .read⟩ true,
        .annul ⟨0, 0, 0, 64, true, .read⟩] s ∧
      s.requestMap = [64] ∧ step s (.complete 0 true) = none ∧ ¬ s.InStep := by
  constructor
  · refine exists_run_imp (fun s => s.accepted = 1 ∧ s.issued = []) (by decide +kernel)
      fun s _ hs => ⟨hs.1, hs.2, fun hin => ?_⟩
    have := hin.issued
    rw [hs.2, hs.1] at this
    exact absurd this (by decide)
  · refine exists_run_imp (fun s => s.requestMap = [64] ∧ s.awaiting = [] ∧
      step s (.complete 0 true) = none) (by decide +kernel)
      fun s _ hs => ⟨hs.1, hs.2.2, fun hin => ?_⟩
    have := hin.matched.length_eq
    rw [hs.2.1, hs.1] at this
    exact absurd this (by decide)

end HybridMemory.Ptlsim.NVMainMemory

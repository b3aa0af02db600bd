import HybridMemory.Ptlsim.NVMainMemory

/-!
# Which entry a completion of NVMain answers

`RequestComplete` looks for the pending entry of a completed request by its address, and takes
the first one. Each request of `m_request_map_` was made for one entry, its owner. The model
keeps the numbers of the owners beside the map (`Bridge`); they are not in the source.

As long as the two tables are in step, the entries that await memory stand in the order of
the requests that were made for them (`Paired`), so the first entry of an address is the owner
of the first request of that address. `RequestComplete` therefore answers the right entry
exactly if the requests of one line complete in the order in which they were issued
(`completions_exact_iff`). An update is merged into a pending one that was issued long ago,
since the flag that would tell is never set.
-/

namespace HybridMemory.Ptlsim.NVMainMemory

open Transition

/-- The entry that `RequestComplete` answers for request number `n` of the map. -/
def State.completed (s : State) (n : ℕ) : Option Entry :=
  s.requestMap[n]?.bind fun address =>
    s.pendingRequests.find? fun e => e.transaction = address

/-- The entry that a message is merged into. -/
def State.mergedInto (s : State) (request : MemoryRequest) : Option Entry :=
  s.pendingRequests.reverse.find? fun e => e.request.physicalAddress = request.physicalAddress

/-- The bridge, with the numbers of the messages that the requests in `m_request_map_` were made
for, in the order of the map. -/
structure Bridge where
  state : State := {}
  owners : List ℕ := []
  deriving DecidableEq

def Bridge.nextOwners (b : Bridge) : Action → List ℕ
  | .message hasData request issuable =>
    if b.state.verdict hasData request = .accepted ∧ issuable then b.owners ++ [b.state.accepted]
    else b.owners
  | .complete n _ => b.owners.eraseIdx n
  | _ => b.owners

def Bridge.step (b : Bridge) (a : Action) : Option Bridge :=
  (NVMainMemory.step b.state a).map fun t => ⟨t, b.nextOwners a⟩

/-- What is expected of a step: a completed request answers the entry it was made for, and an
update is merged only into one that was not issued. -/
def Exact (b : Bridge) : Action → Prop
  | .message hasData request _ => b.state.verdict hasData request = .merged →
      ∃ e, b.state.mergedInto request = some e ∧ e.request.opType = .update ∧
        e.serial ∉ b.state.issued
  | .complete n _ => (b.state.completed n).map Entry.serial = b.owners[n]?
  | _ => True

/-- The requests of one line complete in the order of issue, and no update is merged. -/
def Ordered (b : Bridge) : Action → Prop
  | .message hasData request _ => b.state.verdict hasData request ≠ .merged
  | .complete n _ => ∀ m < n, b.state.requestMap[m]? ≠ b.state.requestMap[n]?
  | _ => True

/-- The entries that await memory and the requests made for them stand in the same order. -/
structure Bridge.Paired (b : Bridge) : Prop where
  inv : b.state.Inv
  owners_eq : b.state.awaiting.map Entry.serial = b.owners
  map_eq : b.state.awaiting.map Entry.transaction = b.state.requestMap

variable {s t : State} {e : Entry} {b b' : Bridge} {n : ℕ} {success : Bool}

theorem State.awaiting_nodup (h : s.Inv) : (s.awaiting.map Entry.serial).Nodup :=
  h.nodup.sublist (List.filter_sublist.map _)

/-- An entry that is answered, or whose answer is scheduled, no longer awaits memory. -/
theorem State.awaiting_waitInterconnect (h : s.Inv) (he : e ∈ s.pendingRequests)
    {requestMap retries : List ℕ}
    (hr : ∀ e' ∈ s.pendingRequests, e' ≠ e → (e'.serial ∈ retries ↔ e'.serial ∈ s.retries)) :
    (State.waitInterconnect { s with requestMap := requestMap, retries := retries } e
      success).awaiting = s.awaiting.filter (· != e) := by
  rw [State.waitInterconnect, State.awaiting, State.awaiting, List.filter_filter]
  split_ifs
  · rw [h.entries_nodup.erase_eq_filter, List.filter_filter]
    refine List.filter_congr fun e' he' => ?_
    by_cases hne : e' = e
    · simp [hne]
    · simp [hr e' he' hne, Bool.and_comm]
  · refine List.filter_congr fun e' he' => ?_
    by_cases hne : e' = e
    · simp [hne]
    · have hserial : e'.serial ≠ e.serial := fun hs => hne (h.eq_of_serial he' he hs)
      simp [hne, hserial, hr e' he' hne]

/-! ### The order of the requests -/

/-- The first pending entry of an address, if it awaits memory, is the first of those that do. -/
theorem State.completed_split (hcompleted : s.completed n = some e)
    (hserial : e.serial ∉ s.retries) :
    ∃ as bs, s.awaiting = as ++ e :: bs ∧ s.requestMap[n]? = some e.transaction ∧
      ∀ a ∈ as, a.transaction ≠ e.transaction := by
  obtain ⟨address, haddress, hfind⟩ := Option.bind_eq_some_iff.mp hcompleted
  obtain ⟨hp, as, bs, hpending, has⟩ := List.find?_eq_some_iff_append.mp hfind
  obtain rfl : e.transaction = address := by simpa using hp
  refine ⟨as.filter fun e => e.serial ∉ s.retries, bs.filter fun e => e.serial ∉ s.retries,
    ?_, haddress, fun a ha => ?_⟩
  · rw [State.awaiting, hpending, List.filter_append,
      List.filter_cons_of_pos (by simpa using hserial)]
  · simpa using has a (List.mem_filter.mp ha).1

/-- A completion answers the owner of its request exactly if no earlier request of the map has
the same address. -/
theorem Bridge.Paired.exact_complete_iff (h : b.Paired) (hcompleted : b.state.completed n = some e)
    (hserial : e.serial ∉ b.state.retries) :
    Exact b (.complete n success) ↔ Ordered b (.complete n success) := by
  obtain ⟨as, bs, hsplit, haddress, has⟩ := State.completed_split hcompleted hserial
  -- both say that `n` is the place of `e` among the entries that await memory
  have hplace : b.state.awaiting[as.length]? = some e := by rw [hsplit]; simp
  have howner : b.owners[as.length]? = some e.serial := by
    rw [← h.owners_eq, List.getElem?_map, hplace, Option.map_some]
  have hrequest : b.state.requestMap[as.length]? = some e.transaction := by
    rw [← h.map_eq, List.getElem?_map, hplace, Option.map_some]
  have hbefore : ∀ m < as.length, b.state.requestMap[m]? ≠ some e.transaction := by
    intro m hm heq
    rw [← h.map_eq, hsplit, List.map_append, List.getElem?_append_left (by simpa using hm),
      List.getElem?_map, List.getElem?_eq_getElem hm, Option.map_some] at heq
    exact has _ (List.getElem_mem hm) (Option.some.inj heq)
  constructor
  · intro hexact
    have hn : b.owners[n]? = b.owners[as.length]? := by
      rw [howner, ← (show _ = b.owners[n]? from hexact), hcompleted, Option.map_some]
    have hlt : as.length < b.owners.length := (List.getElem?_eq_some_iff.mp howner).1
    obtain rfl : as.length = n :=
      (List.getElem?_inj hlt (h.owners_eq ▸ State.awaiting_nodup h.inv)).mp hn.symm
    intro m hm
    rw [haddress]
    exact hbefore m hm
  · intro hordered
    obtain rfl : n = as.length := by
      rcases Nat.lt_trichotomy n as.length with hlt | heq | hgt
      · exact absurd haddress (hbefore n hlt)
      · exact heq
      · exact absurd (hrequest.trans haddress.symm) (hordered _ hgt)
    rw [Exact, hcompleted, howner, Option.map_some]

/-- An update is merged into an entry that was issued. -/
theorem State.Inv.issued_of_mergedInto (h : s.Inv) {request : MemoryRequest}
    (hmerged : s.mergedInto request = some e) : e.serial ∈ s.issued := by
  rw [h.issued, List.mem_range]
  exact h.lt e (List.mem_reverse.mp (List.mem_of_find?_eq_some hmerged))

theorem Bridge.Paired.exact_iff {a : Action} (h : b.Paired) (hstep : b.step a = some b')
    (hG : InStepAction b.state a) : Exact b a ↔ Ordered b a := by
  cases a with
  | message hasData request issuable =>
    constructor
    · intro hexact hverdict
      obtain ⟨e, he, -, hissued⟩ := hexact hverdict
      exact hissued (h.inv.issued_of_mergedInto he)
    · intro hordered hverdict
      exact absurd hverdict hordered
  | annul request => exact Iff.rfl
  | complete n success =>
    obtain ⟨t, hcomplete, -⟩ := Option.map_eq_some_iff.mp hstep
    simp only [NVMainMemory.step, State.requestComplete, Option.bind_eq_bind,
      Option.bind_eq_some_iff] at hcomplete
    obtain ⟨address, haddress, e, he, -⟩ := hcomplete
    have hcompleted : b.state.completed n = some e := by rw [State.completed, haddress]; exact he
    exact h.exact_complete_iff hcompleted (hG address haddress e he)
  | retry n success => exact Iff.rfl

/-! ### Steps keep the order -/

/-- The request and the entry it was made for leave their tables. -/
theorem Bridge.Paired.requestComplete (h : b.Paired)
    (hstep : b.state.requestComplete n success = some t) (hexact : Exact b (.complete n success)) :
    t.awaiting.map Entry.serial = b.owners.eraseIdx n ∧
      t.awaiting.map Entry.transaction = t.requestMap := by
  simp only [State.requestComplete, Option.bind_eq_bind, Option.bind_eq_some_iff] at hstep
  obtain ⟨address, haddress, e, he, hstep⟩ := hstep
  have hmem := List.mem_of_find?_eq_some he
  have hcompleted : b.state.completed n = some e := by rw [State.completed, haddress]; exact he
  rw [if_neg (by simp [(h.inv.unmarked e hmem).1])] at hstep
  obtain rfl := Option.some.inj hstep
  have hget : b.state.awaiting[n]? = some e := by
    have hserial : (b.state.awaiting.map Entry.serial)[n]? = some e.serial := by
      rw [h.owners_eq, ← (show _ = b.owners[n]? from hexact), hcompleted, Option.map_some]
    rw [List.getElem?_map, Option.map_eq_some_iff] at hserial
    obtain ⟨e', he', hserial⟩ := hserial
    have hmem' := (State.mem_awaiting.mp (List.mem_of_getElem? he')).1
    rw [he', h.inv.eq_of_serial hmem' hmem hserial]
  have hnodup : b.state.awaiting.Nodup := List.Nodup.of_map _ (State.awaiting_nodup h.inv)
  have hawaiting : (State.waitInterconnect
      { b.state with requestMap := b.state.requestMap.eraseIdx n } e success).awaiting
        = b.state.awaiting.eraseIdx n := by
    rw [State.awaiting_waitInterconnect h.inv hmem fun _ _ _ => Iff.rfl,
      ← hnodup.erase_eq_filter]
    obtain ⟨hlt, rfl⟩ := List.getElem?_eq_some_iff.mp hget
    exact hnodup.erase_getElem n hlt
  have hmap : (State.waitInterconnect
      { b.state with requestMap := b.state.requestMap.eraseIdx n } e success).requestMap
        = b.state.requestMap.eraseIdx n := by
    rw [State.waitInterconnect]
    split_ifs <;> rfl
  rw [hawaiting, hmap, ← h.owners_eq, ← h.map_eq, ← List.eraseIdx_map, ← List.eraseIdx_map]
  exact ⟨rfl, rfl⟩

/-- A scheduled answer concerns no entry that awaits memory. -/
theorem State.Inv.awaiting_retry (h : s.Inv) (hstep : s.retry n success = some t) :
    t.awaiting = s.awaiting ∧ t.requestMap = s.requestMap := by
  obtain ⟨e, hmem, hget, rfl⟩ := State.retry_eq_some hstep
  have hretries : e.serial ∈ s.retries := List.mem_of_getElem? hget
  constructor
  · rw [State.awaiting_waitInterconnect h hmem]
    · refine List.filter_eq_self.mpr fun e' he' => bne_iff_ne.mpr ?_
      rintro rfl
      exact (State.mem_awaiting.mp he').2 hretries
    · intro e' he' hne
      refine ⟨List.mem_of_mem_eraseIdx, fun hmem' => List.mem_eraseIdx_iff_getElem?.mpr ?_⟩
      obtain ⟨m, hm⟩ := List.mem_iff_getElem?.mp hmem'
      refine ⟨m, ?_, hm⟩
      rintro rfl
      exact hne (h.eq_of_serial he' hmem (Option.some.inj (hm.symm.trans hget)))
  · rw [State.waitInterconnect]
    split_ifs <;> rfl

/-- A message joins the end of both tables, or changes nothing. -/
theorem Bridge.Paired.handleInterconnect (h : b.Paired) {hasData issuable : Bool}
    {request : MemoryRequest} (hG : b.state.verdict hasData request = .accepted → issuable) :
    (b.state.handleInterconnect hasData request issuable).awaiting.map Entry.serial
        = b.nextOwners (.message hasData request issuable) ∧
      (b.state.handleInterconnect hasData request issuable).awaiting.map Entry.transaction
        = (b.state.handleInterconnect hasData request issuable).requestMap := by
  rw [State.handleInterconnect, Bridge.nextOwners]
  by_cases haccept : b.state.verdict hasData request = .accepted
  swap
  · rw [if_neg haccept, if_neg (fun hand => haccept hand.1)]
    exact ⟨h.owners_eq, h.map_eq⟩
  have hfresh : b.state.accepted ∉ b.state.retries := by
    intro hmem
    obtain ⟨e, he, hserial⟩ := h.inv.live _ hmem
    exact Nat.ne_of_lt (h.inv.lt e he) hserial
  have hissued : b.state.verdict hasData request = .accepted ∧ issuable := ⟨haccept, hG haccept⟩
  let e : Entry := { serial := b.state.accepted, request := request }
  have hnew : (b.state.pendingRequests ++ [e]).filter (fun e => e.serial ∉ b.state.retries)
      = b.state.awaiting ++ [e] := by
    rw [List.filter_append, List.filter_cons_of_pos (by simpa using hfresh)]
    rfl
  rw [if_pos haccept, if_pos hissued]
  simp only [hG haccept, if_true, State.awaiting]
  rw [hnew, List.map_append, List.map_append, ← h.owners_eq, ← h.map_eq]
  exact ⟨rfl, rfl⟩

theorem Bridge.Paired.kept {a : Action} (h : b.Paired) (hstep : b.step a = some b')
    (hG : InStepAction b.state a) (hexact : Exact b a) : b'.Paired := by
  obtain ⟨t, ht, rfl⟩ := Option.map_eq_some_iff.mp hstep
  have hinv := h.inv.kept ht hG
  cases a with
  | message hasData request issuable =>
    obtain rfl := Option.some.inj ht
    obtain ⟨howners, hmap⟩ := h.handleInterconnect hG
    exact ⟨hinv, howners, hmap⟩
  | annul request =>
    obtain rfl := Option.some.inj ht
    rw [State.annulRequest_of_absent hG] at hinv ⊢
    exact ⟨hinv, h.owners_eq, h.map_eq⟩
  | complete n success =>
    obtain ⟨howners, hmap⟩ := h.requestComplete ht hexact
    exact ⟨hinv, howners, hmap⟩
  | retry n success =>
    obtain ⟨hawaiting, hmap⟩ := h.inv.awaiting_retry ht
    exact ⟨hinv, hawaiting ▸ h.owners_eq, by rw [hawaiting, hmap]; exact h.map_eq⟩

/-- **Completions and their entries.** In a run that keeps the two tables in step, every
completion answers the entry its request was made for and no update is merged into an issued
one, if and only if the requests of each line complete in the order of issue and no update is
merged at all. -/
theorem completions_exact_iff {actions : List Action}
    (hrun : Run (Guarded (fun b a => InStepAction b.state a) (Steps Bridge.step)) {} actions b) :
    Run (Guarded Exact (Steps Bridge.step)) {} actions b ↔
      Run (Guarded Ordered (Steps Bridge.step)) {} actions b := by
  have hinit : Bridge.Paired {} :=
    ⟨⟨⟨rfl, List.Perm.refl _, nofun⟩, List.nodup_nil, nofun, nofun, List.nodup_nil⟩, rfl, rfl⟩
  exact run_guarded_congr (fun _ _ _ h hs hG hexact => h.kept hs hG hexact)
    (fun _ _ _ h hs hG => h.exact_iff hs hG) hinit hrun

/-- Two reads of one line that complete in order; the interconnect refuses the first answer
once. -/
def readsInOrder : List Action :=
  [.message false ⟨0, 0, 0, 64, true, .read⟩ true, .message false ⟨1, 0, 0, 64, true, .read⟩ true,
    .complete 0 false, .retry 0 true, .complete 0 true]

theorem completions_exact_iff_reads :
    ∃ b : Bridge,
      Run (Guarded (fun b a => InStepAction b.state a) (Steps Bridge.step)) {} readsInOrder b ∧
      (Run (Guarded Exact (Steps Bridge.step)) {} readsInOrder b ↔
        Run (Guarded Ordered (Steps Bridge.step)) {} readsInOrder b) := by
  have hrun : ∃ b : Bridge,
      Run (Guarded (fun b a => InStepAction b.state a) (Steps Bridge.step)) {} readsInOrder b := by
    refine ⟨_, _, ⟨fun _ => rfl, rfl⟩, _, ⟨fun _ => rfl, rfl⟩, _, ⟨?_, rfl⟩, _, ⟨trivial, rfl⟩,
      _, ⟨?_, rfl⟩, rfl⟩
    · rintro address ⟨⟩ e ⟨⟩
      decide
    · rintro address ⟨⟩ e ⟨⟩
      decide
  obtain ⟨b, hrun⟩ := hrun
  exact ⟨b, hrun, completions_exact_iff hrun⟩

/-- Two cores read one line, and NVMain completes the second request first: the first entry is
answered and freed, and the second stays. An update of a line is merged into one that NVMain is
already working on. -/
theorem other_entry_answered :
    (∃ b : Bridge, Run (Steps Bridge.step) {}
        [.message false ⟨0, 0, 0, 64, true, .read⟩ true,
          .message false ⟨1, 0, 0, 64, true, .read⟩ true] b ∧
      b.owners = [0, 1] ∧ (b.state.completed 1).map Entry.serial = some 0 ∧
      (b.step (.complete 1 true)).map
          (fun b => (b.owners, b.state.pendingRequests.map Entry.serial))
        = some ([0], [1])) ∧
    ∃ b : Bridge, Run (Steps Bridge.step) {}
        [.message true ⟨0, 0, 0, 64, true, .update⟩ true] b ∧
      b.state.verdict true ⟨0, 0, 1, 64, true, .update⟩ = .merged ∧
      (b.state.mergedInto ⟨0, 0, 1, 64, true, .update⟩).map Entry.serial = some 0 ∧
      0 ∈ b.state.issued :=
  ⟨exists_run (by decide +kernel), exists_run (by decide +kernel)⟩

end HybridMemory.Ptlsim.NVMainMemory

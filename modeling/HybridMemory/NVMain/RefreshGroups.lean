import HybridMemory.Lib.Queues
import HybridMemory.Lib.Transition
import HybridMemory.NVMain.ControllerSteps

/-!
# The refreshes of a group of banks

`HandleRefresh` queues a `REFRESH` for a group of banks that needs one and sets the flags
`refreshQueued` of the group; when the `REFRESH` is issued, `ResetRefreshQueued` asserts that
the flags are set, and clears them. `HandleRefresh` does not look at the flags, so a group for
which refreshes are due faster than they are issued has several of them in the queue.

* `refreshesSeparate_iff`: along a run, each group has at most one `REFRESH` in the queues and
  the assertion holds for it, if and only if a `REFRESH` is only queued for a group that has
  none;
* `second_refresh_queued`: two pulses before the first `REFRESH` is issued break both.

The number of banks of a refresh has to divide the number of banks.
-/

namespace HybridMemory.NVMain.MemControl

open Transition Function

namespace MemoryController

variable (p : Params) (s : MemoryController)

/-- A refresh of a group of banks that was not issued yet. -/
def isQueuedRefresh (rank group : ℕ) (c : Request) : Bool :=
  c.type == .refresh && !c.issued && c.rank == rank && c.bank / p.banksPerRefresh == group

/-- The number of refreshes of a group in the command queues. -/
def queuedRefreshes (rank group : ℕ) (s : MemoryController) : ℕ :=
  (Queues.all p.commandQueueCount s.commandQueues).countP (isQueuedRefresh p rank group)

/-- The assertion of `ResetRefreshQueued` holds for a refresh. -/
def FlagsSet (c : Request) : Prop :=
  ∀ k ∈ group p c.toBankId, (s.banks k).refreshQueued = true

/-- No group has more than one refresh in the queues, and the assertion holds for each refresh
in the queues. -/
def RefreshesSeparate : Prop :=
  (∀ rank group, s.queuedRefreshes p rank group ≤ 1) ∧
    ∀ q < p.commandQueueCount, ∀ c ∈ s.commandQueues q, c.type = .refresh → c.issued = false →
      s.FlagsSet p c

/-- The bank for whose group an action queues a refresh. -/
def refreshed : Action → Option BankId
  | .handleRefresh => (s.refreshOrder p).find? fun k => s.needRefresh p k
  | .cycleCommandQueues _ =>
    if p.useRefresh ∧ ¬ p.eventDriven then
      (s.refreshOrder p).find? fun k => s.needRefresh p k
    else none
  | _ => none

/-- A refresh is only queued for a group that has none in the queues. -/
def OnePerGroup (a : Action) : Prop :=
  ∀ k ∈ s.refreshed p a, s.queuedRefreshes p k.rank (k.bank / p.banksPerRefresh) = 0

/-- One step, without the command that it issues. -/
def advance (a : Action) : Option MemoryController :=
  (s.step p a).map Prod.fst

variable {p s} {t : MemoryController} {k k' : BankId} {a : Action} {c : Request}
  {rank g q : ℕ}

/-! ### Groups -/

theorem mem_group : k' ∈ group p k ↔
    k'.rank = k.rank ∧ k'.bank / p.banksPerRefresh = k.bank / p.banksPerRefresh := by
  have hpos := p.banksPerRefresh_pos
  constructor
  · intro h
    obtain ⟨i, hi, rfl⟩ := List.mem_map.mp h
    refine ⟨rfl, ?_⟩
    dsimp only
    rw [Nat.mul_comm, Nat.mul_add_div hpos, Nat.div_eq_of_lt (List.mem_range.mp hi), Nat.add_zero]
  · rintro ⟨hrank, hgroup⟩
    refine List.mem_map.mpr ⟨k'.bank % p.banksPerRefresh,
      List.mem_range.mpr (Nat.mod_lt _ hpos), ?_⟩
    rw [← hgroup, ← hrank, Nat.mul_comm, Nat.div_add_mod]

/-- From the head of a group, `HandleRefresh` goes through the banks of the group. -/
theorem group_subset_refreshedBanks (hdvd : p.banksPerRefresh ∣ p.banks)
    (hhead : p.banksPerRefresh ∣ k.bank) (hk : p.HasBank k) (h : k' ∈ group p k) :
    k' ∈ refreshedBanks p k := by
  obtain ⟨hrank, hgroup⟩ := mem_group.mp h
  have hlt : k'.bank % p.banksPerRefresh < p.banksPerRefresh := Nat.mod_lt _ p.banksPerRefresh_pos
  have hbank : k'.bank % p.banksPerRefresh + k.bank = k'.bank := by
    have hdiv := Nat.mod_add_div k'.bank p.banksPerRefresh
    rwa [hgroup, Nat.mul_div_cancel' hhead] at hdiv
  -- the whole group lies below the number of banks, of which it is a part
  have hfits : k.bank + p.banksPerRefresh ≤ p.banks := by
    obtain ⟨m, hm⟩ := hhead
    obtain ⟨n, hn⟩ := hdvd
    have hmn : m < n := Nat.lt_of_mul_lt_mul_left (hm ▸ hn ▸ hk.2 : _ * m < _ * n)
    calc k.bank + p.banksPerRefresh = p.banksPerRefresh * (m + 1) := by rw [hm, Nat.mul_succ]
      _ ≤ p.banksPerRefresh * n := Nat.mul_le_mul_left _ hmn
      _ = p.banks := hn.symm
  refine List.mem_map.mpr ⟨k'.bank % p.banksPerRefresh, List.mem_range.mpr hlt, ?_⟩
  rw [Nat.mod_eq_of_lt (by omega), hbank, ← hrank]

/-! ### The invariant -/

/-- The refreshes among the commands of a queue. -/
def refreshesIn (l : List Request) : List Request := l.filter (·.type == .refresh)

theorem countP_refreshesIn (l : List Request) :
    (refreshesIn l).countP (isQueuedRefresh p rank g) = l.countP (isQueuedRefresh p rank g) := by
  rw [refreshesIn, List.countP_filter]
  refine List.countP_congr fun c _ => ?_
  simp only [isQueuedRefresh, Bool.and_eq_true, beq_iff_eq]
  tauto

/-- The invariant along runs. A refresh that was issued leaves its queue in the next cycle. -/
structure RefreshInv (p : Params) (s : MemoryController) : Prop where
  separate : s.RefreshesSeparate p
  aligned : p.banksPerRefresh ∣ s.nextRefreshBank
  issued : ∀ q < p.commandQueueCount, ∀ c ∈ s.commandQueues q, c.type = .refresh →
    c.issued = true → s.lastIssueCycle = s.now ∧ s.cleanupCycle = some (s.now + 1)

theorem refreshInv_init : RefreshInv p (init p) where
  separate := by
    refine ⟨fun rank g => ?_, by simp [init]⟩
    simp [queuedRefreshes, init]
  aligned := Nat.dvd_zero _
  issued := by simp [init]

theorem queuedRefreshes_congr
    (h : ∀ q < p.commandQueueCount,
      refreshesIn (t.commandQueues q) = refreshesIn (s.commandQueues q)) :
    t.queuedRefreshes p rank g = s.queuedRefreshes p rank g :=
  Queues.countP_all_congr fun q hq => by rw [← countP_refreshesIn, h q hq, countP_refreshesIn]

/-- The invariant reads the refreshes in the queues, the flags, and the cycles. -/
theorem RefreshInv.congr (hs : RefreshInv p s) (hframe : SameFrame s t)
    (hnext : t.nextRefreshBank = s.nextRefreshBank)
    (hflags : ∀ k, (t.banks k).refreshQueued = (s.banks k).refreshQueued)
    (hqueues : ∀ q < p.commandQueueCount,
      refreshesIn (t.commandQueues q) = refreshesIn (s.commandQueues q)) : RefreshInv p t := by
  have hmem : ∀ q < p.commandQueueCount, ∀ c ∈ t.commandQueues q, c.type = .refresh →
      c ∈ s.commandQueues q := by
    intro q hq c hc htype
    have hin : c ∈ refreshesIn (t.commandQueues q) := List.mem_filter.mpr ⟨hc, by simp [htype]⟩
    rw [hqueues q hq] at hin
    exact (List.mem_filter.mp hin).1
  constructor
  · refine ⟨fun rank g => ?_, fun q hq c hc htype hissued k hk => ?_⟩
    · rw [queuedRefreshes_congr hqueues]
      exact hs.separate.1 rank g
    · rw [hflags]
      exact hs.separate.2 q hq c (hmem q hq c hc htype) htype hissued k hk
  · rw [hnext]
    exact hs.aligned
  · intro q hq c hc htype hissued
    rw [hframe.lastIssueCycle, hframe.now, hframe.cleanupCycle]
    exact hs.issued q hq c (hmem q hq c hc htype) htype hissued

theorem refreshesIn_append {l added : List Request} (h : ∀ c ∈ added, c.type ≠ .refresh) :
    refreshesIn (l ++ added) = refreshesIn l := by
  have hadded : added.filter (·.type == .refresh) = [] :=
    List.filter_eq_nil_iff.mpr fun c hc => by simpa using h c hc
  rw [refreshesIn, List.filter_append, hadded, List.append_nil, refreshesIn]

/-- Requests of the processor are no refreshes. -/
theorem RefreshInv.queuesRequest {r : Request} {ok : Bool} (hs : RefreshInv p s)
    (hr : r.FromProcessor) (h : QueuesRequest p r s t ok) : RefreshInv p t := by
  refine hs.congr h.frame h.nextRefreshBank h.refreshQueued fun q hq => ?_
  obtain ⟨own, req, hqueues, hown, -, hreq⟩ := h.commandQueues
  rw [hqueues]
  by_cases hqq : q = p.queueOf r
  · subst hqq
    rw [update_self, refreshesIn_append]
    intro c hc
    rcases List.mem_append.mp hc with hc | hc
    · rcases (hown c hc).2 with htype | htype <;> simp [htype]
    · obtain ⟨-, -, hfrom⟩ := hreq c hc
      rcases (hfrom hr).2 with htype | htype | htype | htype | htype <;> simp [htype]
  · rw [update_of_ne hqq]

/-! ### Queueing a refresh -/

theorem refreshesIn_of_appendsPrecharges {f f' : ℕ → List Request} (h : AppendsPrecharges f f')
    (q : ℕ) : refreshesIn (f' q) = refreshesIn (f q) := by
  obtain ⟨added, heq, hown⟩ := h q
  rw [heq, refreshesIn_append]
  intro c hc
  simp [(hown c hc).2]

/-- A refresh is added to those of its group. -/
theorem queuedRefreshes_queueRefresh (hk : p.HasBank k) :
    (s.queueRefresh p k).queuedRefreshes p rank g = s.queuedRefreshes p rank g +
      if k.rank = rank ∧ k.bank / p.banksPerRefresh = g then 1 else 0 := by
  obtain ⟨queues, happends, hqueues⟩ := (queuesRefresh p k s).commandQueues
  have hsame : (Queues.all p.commandQueueCount queues).countP (isQueuedRefresh p rank g) =
      s.queuedRefreshes p rank g := Queues.countP_all_congr fun q _ => by
    rw [← countP_refreshesIn, refreshesIn_of_appendsPrecharges happends q, countP_refreshesIn]
  rw [queuedRefreshes, hqueues,
    Queues.countP_all_append (Params.getCommandQueueId_lt hk p.subArrayNum_pos), hsame]
  simp [List.countP_singleton, isQueuedRefresh, makeRefreshRequest]

theorem RefreshInv.queueRefresh (hdvd : p.banksPerRefresh ∣ p.banks) (hs : RefreshInv p s)
    (hk : p.HasBank k) (hhead : p.banksPerRefresh ∣ k.bank)
    (hnone : s.queuedRefreshes p k.rank (k.bank / p.banksPerRefresh) = 0) :
    RefreshInv p (s.queueRefresh p k) := by
  have hchange := queuesRefresh p k s
  -- a refresh in the queues was there before, or is the new one
  have hmem : ∀ q < p.commandQueueCount, ∀ c ∈ (s.queueRefresh p k).commandQueues q,
      c.type = .refresh → c ∈ s.commandQueues q ∨ c = s.makeRefreshRequest k := by
    intro q hq c hc htype
    obtain ⟨queues, happends, hqueues⟩ := hchange.commandQueues
    rw [hqueues] at hc
    have hold : c ∈ queues q → c ∈ s.commandQueues q := by
      intro hc
      have hin : c ∈ refreshesIn (queues q) := List.mem_filter.mpr ⟨hc, by simp [htype]⟩
      rw [refreshesIn_of_appendsPrecharges happends q] at hin
      exact (List.mem_filter.mp hin).1
    by_cases hqq : q = p.getCommandQueueId k 0
    · subst hqq
      rw [update_self, List.mem_append, List.mem_singleton] at hc
      exact hc.imp_left hold
    · rw [update_of_ne hqq] at hc
      exact Or.inl (hold hc)
  constructor
  · constructor
    · intro rank g
      rw [queuedRefreshes_queueRefresh hk]
      split
      · rename_i hgroup
        rw [← hgroup.1, ← hgroup.2, hnone]
      · exact hs.separate.1 rank g
    · intro q hq c hc htype hissued k' hk'
      rw [hchange.refreshQueued, Bool.or_eq_true]
      rcases hmem q hq c hc htype with hc | rfl
      · exact Or.inr (hs.separate.2 q hq c hc htype hissued k' hk')
      · exact Or.inl (decide_eq_true (group_subset_refreshedBanks hdvd hhead hk hk'))
  · rw [hchange.nextRefreshBank, nextRefreshBank_nextRefresh]
    split
    · exact Nat.dvd_add hs.aligned (Nat.dvd_refl _)
    · exact Nat.dvd_zero _
  · intro q hq c hc htype hissued
    rw [hchange.frame.lastIssueCycle, hchange.frame.now, hchange.frame.cleanupCycle]
    rcases hmem q hq c hc htype with hc | rfl
    · exact hs.issued q hq c hc htype hissued
    · exact absurd hissued (by simp [makeRefreshRequest])

/-- `HandleRefresh` looks at the heads of groups. -/
theorem dvd_of_mem_refreshOrder (hdvd : p.banksPerRefresh ∣ p.banks) (hs : RefreshInv p s)
    (h : k ∈ s.refreshOrder p) : p.banksPerRefresh ∣ k.bank := by
  obtain ⟨rankIdx, -, h⟩ := List.mem_flatMap.mp h
  obtain ⟨bankIdx, -, rfl⟩ := List.mem_map.mp h
  exact (Nat.dvd_mod_iff hdvd).mpr (Nat.dvd_add hs.aligned (Nat.dvd_mul_left _ _))

theorem RefreshInv.handleRefresh (hdvd : p.banksPerRefresh ∣ p.banks) (hs : RefreshInv p s)
    (hone : s.OnePerGroup p .handleRefresh) : RefreshInv p (s.handleRefresh p).1 := by
  unfold MemoryController.handleRefresh
  split
  · rename_i k hfind
    have hmem := List.mem_of_find?_eq_some hfind
    exact hs.queueRefresh hdvd (hasBank_of_mem_refreshOrder hmem)
      (dvd_of_mem_refreshOrder hdvd hs hmem) (hone k hfind)
  · exact hs

/-! ### Issuing a refresh -/

theorem isQueuedRefresh_iff : isQueuedRefresh p rank g c = true ↔
    c.type = .refresh ∧ c.issued = false ∧ c.rank = rank ∧ c.bank / p.banksPerRefresh = g := by
  simp [isQueuedRefresh, and_assoc]

/-- A group with a refresh in some queue has refreshes in the queues. -/
theorem queuedRefreshes_pos (hq : q < p.commandQueueCount) (hc : c ∈ s.commandQueues q)
    (htype : c.type = .refresh) (hissued : c.issued = false) :
    0 < s.queuedRefreshes p c.rank (c.bank / p.banksPerRefresh) :=
  List.countP_pos_iff.mpr ⟨c, Queues.mem_all.mpr ⟨q, hq, hc⟩,
    isQueuedRefresh_iff.mpr ⟨htype, hissued, rfl, rfl⟩⟩

/-- When the refresh of a group is issued, the group has none left, so no other refresh relies
on the flags that are cleared. -/
theorem RefreshInv.issueHead (hs : RefreshInv p s) (hq : q < p.commandQueueCount) {head : Request}
    {rest : List Request} (hqueue : s.commandQueues q = head :: rest)
    (hcycle : s.lastIssueCycle ≠ s.now) (h : s.issueHead p q head rest = some t) :
    RefreshInv p t := by
  have hchange := issuesHead h
  have hfresh : ∀ q' < p.commandQueueCount, ∀ c ∈ s.commandQueues q', c.type = .refresh →
      c.issued = false := by
    intro q' hq' c hc htype
    by_contra hissued
    exact hcycle (hs.issued q' hq' c hc htype (by simpa using hissued)).1
  -- what is in the queues and was not issued was there before
  have hmem : ∀ q' c, c ∈ t.commandQueues q' → c.issued = false → c ∈ s.commandQueues q' := by
    intro q' c hc hissued
    rw [hchange.commandQueues] at hc
    by_cases hqq' : q' = q
    · subst hqq'
      rw [update_self, List.mem_cons] at hc
      rcases hc with rfl | hc
      · exact absurd hissued (by simp)
      · rw [hqueue]
        exact List.mem_cons_of_mem head hc
    · rwa [update_of_ne hqq'] at hc
  have hcount : ∀ rank g, t.queuedRefreshes p rank g +
      (if isQueuedRefresh p rank g head then 1 else 0) = s.queuedRefreshes p rank g := by
    intro rank g
    have hupdate := Queues.countP_all_update (f := s.commandQueues)
      (l := { head with issued := true } :: rest) (P := isQueuedRefresh p rank g) hq
    have hissued : isQueuedRefresh p rank g { head with issued := true } = false := by
      simp [isQueuedRefresh]
    rw [hqueue, List.countP_cons, List.countP_cons, hissued] at hupdate
    rw [queuedRefreshes, hchange.commandQueues, queuedRefreshes]
    simp only [Bool.false_eq_true, if_false] at hupdate
    omega
  constructor
  · constructor
    · intro rank g
      have hle := hs.separate.1 rank g
      have hrel := hcount rank g
      omega
    · intro q' hq' c hc htype hissued k hk
      have hset := hs.separate.2 q' hq' c (hmem q' c hc hissued) htype hissued k hk
      rw [hchange.banks]
      split
      · rename_i hhead
        -- the group of the head has no refresh left
        have hother : k ∉ group p head.toBankId := by
          intro hk'
          obtain ⟨hrank, hgroup⟩ := mem_group.mp hk
          obtain ⟨hrank', hgroup'⟩ := mem_group.mp hk'
          have hpos := queuedRefreshes_pos hq' hc htype hissued
          have hrel := hcount c.rank (c.bank / p.banksPerRefresh)
          have hle := hs.separate.1 c.rank (c.bank / p.banksPerRefresh)
          have hheadIssued := hfresh q hq head (hqueue ▸ List.mem_cons_self) hhead
          rw [if_pos (isQueuedRefresh_iff.mpr ⟨hhead, hheadIssued, hrank'.symm.trans hrank,
            hgroup'.symm.trans hgroup⟩)] at hrel
          omega
        simp only [mapBanks, hother, if_false]
        exact hset
      · exact hset
  · rw [hchange.nextRefreshBank]
    exact hs.aligned
  · intro q' hq' c hc htype hissued
    rw [hchange.lastIssueCycle, hchange.now, hchange.cleanupCycle]
    exact ⟨rfl, rfl⟩

theorem RefreshInv.tick (hs : RefreshInv p s) : RefreshInv p s.tick := by
  unfold MemoryController.tick
  dsimp only
  split
  · constructor
    · refine ⟨fun rank g => ?_, fun q hq c hc htype hissued => ?_⟩
      · have hsame : ∀ q < p.commandQueueCount,
            ((s.commandQueues q).filter fun c => !c.issued).countP (isQueuedRefresh p rank g) =
              (s.commandQueues q).countP (isQueuedRefresh p rank g) := by
          intro q _
          rw [List.countP_filter]
          refine List.countP_congr fun c _ => ?_
          simp only [isQueuedRefresh, Bool.and_eq_true]
          tauto
        exact (Queues.countP_all_congr hsame).trans_le (hs.separate.1 rank g)
      · exact hs.separate.2 q hq c (List.mem_of_mem_filter hc) htype hissued
    · exact hs.aligned
    · intro q hq c hc htype hissued
      exact absurd (List.mem_filter.mp hc).2 (by simp [hissued])
  · rename_i hcleanup
    refine ⟨hs.separate, hs.aligned, fun q hq c hc htype hissued => ?_⟩
    exact absurd (hs.issued q hq c hc htype hissued).2 hcleanup

/-! ### Runs -/

theorem handleRefresh_of_find (h : (s.refreshOrder p).find? (fun k => s.needRefresh p k) = some k) :
    s.handleRefresh p = (s.queueRefresh p k, true) := by
  simp [handleRefresh, h]

theorem find_of_refreshed (h : s.refreshed p a = some k) :
    (s.refreshOrder p).find? (fun k => s.needRefresh p k) = some k := by
  cases a with
  | handleRefresh => exact h
  | cycleCommandQueues child => exact (Option.ite_none_right_eq_some.mp h).2
  | _ => cases h

/-- A group for which a refresh is queued needs one. -/
theorem needRefresh_of_refreshed (h : s.refreshed p a = some k) : s.needRefresh p k = true := by
  have hfind := find_of_refreshed h
  simpa using List.find?_some hfind

theorem hasBank_of_refreshed (h : s.refreshed p a = some k) : p.HasBank k :=
  hasBank_of_mem_refreshOrder (List.mem_of_find?_eq_some (find_of_refreshed h))

/-- The counters of the groups after an action that queues no refresh. -/
def countedPulse (p : Params) (s : MemoryController) : Action → MemoryController
  | .refreshPulse rank group =>
    s.setRefreshCounter p (p.groupHead rank group)
      (s.refreshCounter p (p.groupHead rank group) + 1)
  | _ => s

/-- What an action does that neither hands over a request nor queues a refresh. -/
structure Idles (p : Params) (a : Action) (s t : MemoryController) : Prop where
  refreshed : s.refreshed p a = none
  rows : ∀ k, (t.banks k).rows = (s.banks k).rows
  added : ∀ q, added s t q = []
  nextRefreshBank : t.nextRefreshBank = s.nextRefreshBank
  delayedRefreshCounter : t.delayedRefreshCounter = (s.countedPulse p a).delayedRefreshCounter

theorem idles_refreshPulse (p : Params) (rank group : ℕ) (s : MemoryController) :
    Idles p (.refreshPulse rank group) s (s.processRefreshPulse p (p.groupHead rank group)) := by
  refine ⟨rfl, fun k => ?_, fun q => added_of_length_le ?_, ?_, ?_⟩
  all_goals
    unfold processRefreshPulse
    dsimp only
    split
  · exact rows_mapBanks (fun b => { b with bankNeedRefresh := true }) (fun _ => rfl) _ _ k
  all_goals rfl

theorem issueMemoryCommands_of_advance {child : Child} {r : Request}
    (h : s.advance p (.issueMemoryCommands child r) = some t) :
    r.FromProcessor ∧ p.HasAddress r ∧ ∃ ok, s.issueMemoryCommands p child r = some (t, ok) := by
  obtain ⟨⟨u, issued⟩, hout, rfl⟩ := Option.map_eq_some_iff.mp h
  obtain ⟨⟨hr, haddress⟩, hout⟩ := Option.ite_none_right_eq_some.mp hout
  obtain ⟨⟨v, ok⟩, hissue, heq⟩ := Option.map_eq_some_iff.mp hout
  cases heq
  exact ⟨hr, haddress, ok, hissue⟩

/-- **What an action can do.** It hands over a request, queues a refresh, or neither. -/
theorem advance_cases (h : s.advance p a = some t) :
    (∃ child r ok, a = .issueMemoryCommands child r ∧ r.FromProcessor ∧ p.HasAddress r ∧
      s.issueMemoryCommands p child r = some (t, ok)) ∨
    (∃ k down, s.refreshed p a = some k ∧
      t = ({ s with rankPowerDown := down }).queueRefresh p k) ∨ Idles p a s t := by
  obtain ⟨⟨u, issued⟩, hout, rfl⟩ := Option.map_eq_some_iff.mp h
  have hnone : ∀ s : MemoryController, ¬ (s.handleRefresh p).2 = true →
      (s.refreshOrder p).find? (fun k => s.needRefresh p k) = none := by
    intro s hs
    cases hfind : (s.refreshOrder p).find? (fun k => s.needRefresh p k) with
    | none => rfl
    | some k => exact absurd (by rw [handleRefresh_of_find hfind]) hs
  have hsame : ∀ u : MemoryController, ∀ q, added u u q = [] :=
    fun u q => added_of_length_le le_rfl
  cases a with
  | issueMemoryCommands child r =>
    obtain ⟨hr, haddress, ok, hissue⟩ := issueMemoryCommands_of_advance h
    exact Or.inl ⟨child, r, ok, rfl, hr, haddress, hissue⟩
  | handleRefresh =>
    cases hout
    right
    cases hfind : (s.refreshOrder p).find? (fun k => s.needRefresh p k) with
    | some k => exact Or.inl ⟨k, s.rankPowerDown, hfind, by rw [handleRefresh_of_find hfind]⟩
    | none =>
      right
      simp only [MemoryController.handleRefresh, hfind]
      exact ⟨hfind, fun _ => rfl, hsame s, rfl, rfl⟩
  | refreshPulse rank group =>
    obtain ⟨-, hout⟩ := Option.ite_none_right_eq_some.mp hout
    cases hout
    exact Or.inr (Or.inr (idles_refreshPulse p rank group s))
  | cycleCommandQueues child =>
    right
    obtain ⟨down, hcases⟩ := cycleCommandQueues_cases hout
    have hrefreshed : ¬ CyclesRefresh p { s with rankPowerDown := down } →
        s.refreshed p (.cycleCommandQueues child) = none := by
      intro hnot
      rw [refreshed]
      split
      · rename_i huse
        exact hnone { s with rankPowerDown := down } fun h => hnot ⟨huse.1, huse.2, h⟩
      · rfl
    rcases hcases with
      ⟨⟨huse, hdriven, hrefresh⟩, rfl, -⟩ |
        ⟨hnot, ⟨rfl, -⟩ | ⟨q, -, head, rest, hqueue, -, hhead, -⟩⟩
    · left
      cases hfind : (s.refreshOrder p).find? (fun k => s.needRefresh p k) with
      | some k =>
        have hhandle := handleRefresh_of_find (s := { s with rankPowerDown := down }) hfind
        exact ⟨k, down, by rw [refreshed, if_pos ⟨huse, hdriven⟩, hfind], by rw [hhandle]⟩
      | none =>
        have hfind' : (({ s with rankPowerDown := down } : MemoryController).refreshOrder p).find?
            (fun k => needRefresh p k { s with rankPowerDown := down }) = none := hfind
        simp [MemoryController.handleRefresh, hfind'] at hrefresh
    · exact Or.inr ⟨hrefreshed hnot, fun _ => rfl, hsame s, rfl, rfl⟩
    · have hchange := issuesHead hhead
      exact Or.inr ⟨hrefreshed hnot, hchange.rows, hchange.added_eq_nil hqueue,
        hchange.nextRefreshBank, hchange.delayedRefreshCounter⟩
  | tick =>
    cases hout
    refine Or.inr (Or.inr ⟨rfl, fun k => ?_, added_tick s, ?_, ?_⟩)
    all_goals
      unfold MemoryController.tick
      dsimp only
      split <;> rfl

/-- A step that queues a refresh only for a group that has none keeps the invariant. -/
theorem RefreshInv.step (hdvd : p.banksPerRefresh ∣ p.banks) (hs : RefreshInv p s)
    (h : s.advance p a = some t) (hone : s.OnePerGroup p a) : RefreshInv p t := by
  obtain ⟨⟨u, issued⟩, hout, rfl⟩ := Option.map_eq_some_iff.mp h
  cases a with
  | issueMemoryCommands child r =>
    obtain ⟨hr, -, ok, hissue⟩ := issueMemoryCommands_of_advance h
    exact hs.queuesRequest hr (MemoryController.queuesRequest hissue)
  | handleRefresh =>
    cases hout
    exact hs.handleRefresh hdvd hone
  | refreshPulse rank group =>
    obtain ⟨-, hout⟩ := Option.ite_none_right_eq_some.mp hout
    cases hout
    unfold processRefreshPulse
    dsimp only
    split
    · refine hs.congr ⟨rfl, rfl, rfl, rfl⟩ rfl (fun k => ?_) fun _ _ => rfl
      simp only [setRefresh, mapBanks, setRefreshCounter]
      split <;> rfl
    · exact hs.congr ⟨rfl, rfl, rfl, rfl⟩ rfl (fun _ => rfl) fun _ _ => rfl
  | cycleCommandQueues child =>
    obtain ⟨down, hcases⟩ := cycleCommandQueues_cases hout
    have hdown : RefreshInv p { s with rankPowerDown := down } :=
      hs.congr ⟨rfl, rfl, rfl, rfl⟩ rfl (fun _ => rfl) fun _ _ => rfl
    rcases hcases with
      ⟨hcycles, rfl, -⟩ | ⟨-, ⟨rfl, -⟩ | ⟨q, hq, head, rest, hqueue, hcycle, hhead, -⟩⟩
    · refine hdown.handleRefresh hdvd fun k hk => hone k ?_
      rw [refreshed, if_pos ⟨hcycles.1, hcycles.2.1⟩]
      exact hk
    · exact hdown
    · exact hdown.issueHead hq hqueue hcycle hhead
  | tick =>
    cases hout
    exact hs.tick

/-- A step that queues a refresh for a group that has one breaks the property. -/
theorem not_separate_of_second (h : s.advance p a = some t) (hsecond : ¬ s.OnePerGroup p a) :
    ¬ t.RefreshesSeparate p := by
  obtain ⟨k, hk, hcount⟩ : ∃ k ∈ s.refreshed p a,
      s.queuedRefreshes p k.rank (k.bank / p.banksPerRefresh) ≠ 0 := by
    simpa [OnePerGroup] using hsecond
  -- whichever of the two functions it was, the refresh is queued
  obtain ⟨down, rfl⟩ : ∃ down, t = ({ s with rankPowerDown := down }).queueRefresh p k := by
    rcases advance_cases h with ⟨child, r, ok, rfl, -⟩ | ⟨k', down, hk', ht⟩ | hidles
    · cases hk
    · obtain rfl := Option.some.inj (hk'.symm.trans hk)
      exact ⟨down, ht⟩
    · cases hidles.refreshed.symm.trans hk
  intro hseparate
  have hle := hseparate.1 k.rank (k.bank / p.banksPerRefresh)
  rw [queuedRefreshes_queueRefresh (hasBank_of_refreshed hk), if_pos ⟨rfl, rfl⟩] at hle
  have hpos : 0 < s.queuedRefreshes p k.rank (k.bank / p.banksPerRefresh) :=
    Nat.pos_of_ne_zero hcount
  have hsame : ({ s with rankPowerDown := down } : MemoryController).queuedRefreshes p k.rank
      (k.bank / p.banksPerRefresh) = s.queuedRefreshes p k.rank (k.bank / p.banksPerRefresh) := rfl
  omega

/-- Along a run, no group has more than one refresh in the queues and the assertion of
`ResetRefreshQueued` holds for each of them, if and only if a refresh is only queued for a
group that has none. -/
theorem refreshesSeparate_iff (hdvd : p.banksPerRefresh ∣ p.banks) {actions : List Action}
    (hrun : Run (Steps (advance p)) (init p) actions s) :
    (∀ u, Visits (Steps (advance p)) (init p) actions u → u.RefreshesSeparate p) ↔
      Run (Guarded (OnePerGroup p) (Steps (advance p))) (init p) actions s :=
  forall_visits_iff (fun _ hs => hs.separate) (fun _ _ _ hs h hone => hs.step hdvd h hone)
    (fun _ _ _ _ h hsecond => not_separate_of_second h hsecond) refreshInv_init hrun

/-- A memory that takes every command. -/
def takesAll : Child where
  isIssuable _ := true

/-- Two groups are refreshed one after the other. -/
theorem refreshesSeparate_iff_two : ∃ s : MemoryController,
    Run (Steps (advance {})) (init {})
      [.refreshPulse 0 0, .handleRefresh, .refreshPulse 1 0, .handleRefresh, .tick,
        .cycleCommandQueues takesAll] s ∧
    s.queuedRefreshes {} 0 0 + s.queuedRefreshes {} 1 0 = 1 ∧
    ((∀ u, Visits (Steps (advance {})) (init {})
        [.refreshPulse 0 0, .handleRefresh, .refreshPulse 1 0, .handleRefresh, .tick,
          .cycleCommandQueues takesAll] u → u.RefreshesSeparate {}) ↔
      Run (Guarded (OnePerGroup {}) (Steps (advance {}))) (init {})
        [.refreshPulse 0 0, .handleRefresh, .refreshPulse 1 0, .handleRefresh, .tick,
          .cycleCommandQueues takesAll] s) :=
  exists_run_imp (fun s => s.queuedRefreshes {} 0 0 + s.queuedRefreshes {} 1 0 = 1)
    (by decide +kernel) fun _ hrun hs => ⟨hs, refreshesSeparate_iff (by decide) hrun⟩

/-- A build with assertions, driven by events. -/
def asserting : Params := { Params.defaults with eventDriven := true, ndebug := false }

/-- A second pulse of a group comes before its first `REFRESH` is issued, and the group has two
of them in the queues. When the second one is issued, the assertion fails. -/
theorem second_refresh_queued : ∃ s u : MemoryController,
    Run (Steps (advance asserting)) (init asserting)
      [.refreshPulse 0 0, .handleRefresh, .tick, .refreshPulse 0 0, .handleRefresh, .tick] s ∧
    s.queuedRefreshes asserting 0 0 = 2 ∧
    Run (Steps (advance asserting)) s [.cycleCommandQueues takesAll, .tick] u ∧
    (u.cycleCommandQueues asserting takesAll).isNone := by
  obtain ⟨s, hrun, hs⟩ := exists_run_of_any (advance asserting) (init asserting)
    [.refreshPulse 0 0, .handleRefresh, .tick, .refreshPulse 0 0, .handleRefresh, .tick]
    (fun s => decide (s.queuedRefreshes asserting 0 0 = 2) &&
      (exec (advance asserting) s [.cycleCommandQueues takesAll, .tick]).any fun u =>
        (u.cycleCommandQueues asserting takesAll).isNone)
    (by decide +kernel)
  rw [Bool.and_eq_true, decide_eq_true_eq] at hs
  obtain ⟨u, hu, hnone⟩ := exists_run_of_any _ _ _ _ hs.2
  exact ⟨s, u, hrun, hs.1, hu, hnone⟩

end MemoryController

end HybridMemory.NVMain.MemControl

import HybridMemory.NVMain.CommandQueueIds

/-!
# What the functions of the memory controller do

Each function of `MemoryController` is described once, by what it can change; the invariants
of the following modules are derived from these descriptions.

* `Issues`: the branches of `IssueMemoryCommands`, and `QueuesRequest`: what they have in common;
* `QueuesRefresh`: `HandleRefresh` for a group that needs a refresh;
* `cycleCommandQueues_cases`, `IssuesHead`: `CycleCommandQueues` issues the head of a queue;
* `added`: the commands that a step appends to a queue.
-/

namespace HybridMemory.NVMain.MemControl

open Function

namespace MemoryController

variable {p : Params} {child : Child} {r : Request} {s t : MemoryController} {ok : Bool}
  {issued : Option Request} {k k' : BankId}

/-- The round robin changes nothing but its own members. -/
theorem nextRefresh_eq (p : Params) (s : MemoryController) :
    ∃ bank rank, s.nextRefresh p = { s with nextRefreshBank := bank, nextRefreshRank := rank } := by
  unfold nextRefresh
  split
  · exact ⟨_, s.nextRefreshRank, rfl⟩
  · exact ⟨0, _, rfl⟩

theorem markRowDirty_eq (r : Request) (s : MemoryController) :
    ∃ dirty, s.markRowDirty r = s.setBank r.toBankId
      { s.banks r.toBankId with effectiveRowDirty := dirty } := by
  unfold markRowDirty
  dsimp only
  split
  · exact ⟨_, rfl⟩
  · split
    · exact ⟨_, rfl⟩
    · exact ⟨(s.banks r.toBankId).effectiveRowDirty, by simp [setBank]⟩

/-- Two requests agree in what the controller reads of them. -/
structure SameAccess (r r' : Request) : Prop where
  toBankId : r'.toBankId = r.toBankId
  id : r'.id = r.id
  type : r'.type = r.type
  row : r'.row = r.row
  col : r'.col = r.col
  subarray : r'.subarray = r.subarray
  lastRequest : r'.lastRequest = r.lastRequest
  issued : r'.issued = r.issued

theorem sameAccess_stamp (s : MemoryController) (r : Request) : SameAccess r (s.stamp r) := by
  unfold stamp
  dsimp only
  split <;> exact ⟨rfl, rfl, rfl, rfl, rfl, rfl, rfl, rfl⟩

/-- The branches of `IssueMemoryCommands`. -/
inductive Issues (p : Params) (child : Child) (r : Request) (s : MemoryController) :
    MemoryController → Bool → Prop
  | cached {cached : Request} (hcached : makeCachedRequest p r = some cached)
      (hissuable : child.isIssuable cached)
      (hrow : ¬ ((s.banks r.toBankId).activateQueued ∧ (s.banks r.toBankId).atRow p r)) :
      Issues p child r s ((s.markRowDirty r).push (p.queueOf r)
        [s.stamp r]) true
  | closedBank (hbank : (s.banks r.toBankId).activateQueued = false)
      (hempty : s.commandQueues (p.queueOf r) = [])
      (hcached : (makeCachedRequest p r).any child.isIssuable = false) :
      Issues p child r s ((s.markRowDirty r).issueToClosedBank p ((child.isWriting r).getD false)
        (s.stamp r)) true
  | otherRow (hbank : (s.banks r.toBankId).activateQueued)
      (hrow : (s.banks r.toBankId).atRow p r = false)
      (hempty : s.commandQueues (p.queueOf r) = [])
      (hcached : (makeCachedRequest p r).any child.isIssuable = false) :
      Issues p child r s ((s.markRowDirty r).issueToOtherRow p ((child.isWriting r).getD false)
        (s.stamp r)) true
  | openRow (hbank : (s.banks r.toBankId).activateQueued)
      (hrow : (s.banks r.toBankId).atRow p r) :
      Issues p child r s ((s.markRowDirty r).issueToOpenRow p
        (s.stamp r)) true
  | refused (hbusy : s.commandQueues (p.queueOf r) ≠ [])
      (hrow : ¬ ((s.banks r.toBankId).activateQueued ∧ (s.banks r.toBankId).atRow p r))
      (hcached : (makeCachedRequest p r).any child.isIssuable = false) :
      Issues p child r s (s.markRowDirty r) false

theorem issues_of_issueMemoryCommands (h : s.issueMemoryCommands p child r = some (t, ok)) :
    Issues p child r s t ok := by
  obtain ⟨cached, hcached, h⟩ := Option.bind_eq_some_iff.mp h
  have hnot : ¬ (child.isIssuable cached ∧
      ¬ ((s.banks r.toBankId).activateQueued ∧ (s.banks r.toBankId).atRow p r)) →
      ¬ ((s.banks r.toBankId).activateQueued ∧ (s.banks r.toBankId).atRow p r) →
      (makeCachedRequest p r).any child.isIssuable = false := by
    intro hc hrow
    by_contra hissuable
    exact hc ⟨by simpa [hcached] using hissuable, hrow⟩
  dsimp only at h
  split_ifs at h with hc hclosed hother hopen hassert <;> cases h
  · exact .cached hcached hc.1 hc.2
  · refine .closedBank hclosed.1 (by simpa using hclosed.2) (hnot hc fun hopen => ?_)
    exact absurd (hclosed.1.symm.trans hopen.1) (by decide)
  · refine .otherRow hother.1 hother.2.1 (by simpa using hother.2.2) (hnot hc fun hopen => ?_)
    exact absurd (hother.2.1.symm.trans hopen.2) (by decide)
  · exact .openRow hopen.1 hopen.2
  · refine .refused (fun hempty => ?_) hopen (hnot hc hopen)
    have hq : (s.commandQueues (p.queueOf r)).isEmpty = true := by simp [hempty]
    by_cases hb : (s.banks r.toBankId).activateQueued = true
    · by_cases hrow : (s.banks r.toBankId).atRow p r = true
      · exact hopen ⟨hb, hrow⟩
      · exact hother ⟨hb, by simpa using hrow, hq⟩
    · exact hclosed ⟨by simpa using hb, hq⟩

/-- The cycles and the transaction queues are the same. -/
structure SameFrame (s t : MemoryController) : Prop where
  now : t.now = s.now
  lastIssueCycle : t.lastIssueCycle = s.lastIssueCycle
  cleanupCycle : t.cleanupCycle = s.cleanupCycle
  transactionQueues : t.transactionQueues = s.transactionQueues

theorem SameFrame.refl (s : MemoryController) : SameFrame s s := ⟨rfl, rfl, rfl, rfl⟩

theorem SameFrame.trans {u : MemoryController} (h : SameFrame s t) (h' : SameFrame t u) :
    SameFrame s u :=
  ⟨h'.now.trans h.now, h'.lastIssueCycle.trans h.lastIssueCycle,
    h'.cleanupCycle.trans h.cleanupCycle, h'.transactionQueues.trans h.transactionQueues⟩

/-- A command that the controller made itself, and that was not issued yet. -/
def IsOwn (c : Request) : Prop := c.id = none ∧ c.issued = false

/-- What `IssueMemoryCommands` does to the queues: the request comes last of the commands that
are queued, and the others are precharges and activations of the controller. -/
structure QueuesRequest (p : Params) (r : Request) (s t : MemoryController) (ok : Bool) : Prop where
  frame : SameFrame s t
  nextRefreshBank : t.nextRefreshBank = s.nextRefreshBank
  refreshQueued : ∀ k, (t.banks k).refreshQueued = (s.banks k).refreshQueued
  commandQueues : ∃ own req : List Request,
    t.commandQueues = update s.commandQueues (p.queueOf r)
      (s.commandQueues (p.queueOf r) ++ (own ++ req)) ∧
    (∀ c ∈ own, IsOwn c ∧ (c.type = .precharge ∨ c.type = .activate)) ∧
    req.length = ok.toNat ∧
    ∀ c ∈ req, c.id = r.id ∧ c.issued = r.issued ∧ (r.FromProcessor → c.FromProcessor)

theorem QueuesRequest.of_push (own req : List Request) (b : BankState)
    (hown : ∀ c ∈ own, IsOwn c ∧ (c.type = .precharge ∨ c.type = .activate))
    (hlength : req.length = ok.toNat)
    (hreq : ∀ c ∈ req, c.id = r.id ∧ c.issued = r.issued ∧ (r.FromProcessor → c.FromProcessor))
    (hb : b.refreshQueued = ((s.markRowDirty r).banks r.toBankId).refreshQueued) :
    QueuesRequest p r s
      (((s.markRowDirty r).push (p.queueOf r) (own ++ req)).setBank r.toBankId b) ok := by
  obtain ⟨dirty, hdirty⟩ := markRowDirty_eq r s
  rw [hdirty] at hb ⊢
  refine ⟨⟨rfl, rfl, rfl, rfl⟩, rfl, fun k => ?_, own, req, rfl, hown, hlength, hreq⟩
  by_cases hk : k = r.toBankId
  · subst hk
    simpa [setBank, push] using hb
  · simp [setBank, push, hk]

/-- The request as it is queued, with or without an implicit precharge. -/
theorem request_stamp (s : MemoryController) (r : Request) :
    ∀ c ∈ [s.stamp r, makeImplicitPrechargeRequest (s.stamp r)],
      c.id = r.id ∧ c.issued = r.issued ∧ (r.FromProcessor → c.FromProcessor) := by
  have hsame := sameAccess_stamp s r
  have hstamp : r.FromProcessor → (s.stamp r).FromProcessor := by
    rw [Request.FromProcessor, Request.FromProcessor, hsame.id, hsame.type]
    exact id
  intro c hc
  simp only [List.mem_cons, List.not_mem_nil, or_false] at hc
  rcases hc with rfl | rfl
  · exact ⟨hsame.id, hsame.issued, hstamp⟩
  · refine ⟨hsame.id, hsame.issued, fun hr => ⟨(hstamp hr).1, ?_⟩⟩
    rcases (hstamp hr).2 with h | h | h | h | h <;> simp [makeImplicitPrechargeRequest, h]

theorem queuesRequest (h : s.issueMemoryCommands p child r = some (t, ok)) :
    QueuesRequest p r s t ok := by
  have hsame := sameAccess_stamp s r
  have hqueue : p.queueOf (s.stamp r) = p.queueOf r := by
    rw [Params.queueOf, Params.queueOf, hsame.toBankId, hsame.subarray]
  obtain ⟨hreq, himplicit⟩ := List.forall_mem_cons.mp (request_stamp s r)
  have hone : ∀ {c : Request}, (c.id = r.id ∧ c.issued = r.issued ∧
      (r.FromProcessor → c.FromProcessor)) → ∀ c' ∈ [c], c'.id = r.id ∧ c'.issued = r.issued ∧
      (r.FromProcessor → c'.FromProcessor) := by
    intro c hc c' hc'
    rw [List.mem_singleton] at hc'
    exact hc' ▸ hc
  have hact : ∀ (u : MemoryController) priority, ∀ c ∈ [u.makeActivateRequest priority (s.stamp r)],
      IsOwn c ∧ (c.type = .precharge ∨ c.type = .activate) := by
    simp [IsOwn, makeActivateRequest]
  cases issues_of_issueMemoryCommands h with
  | cached hmade hissuable hrow =>
    have hpush : QueuesRequest p r s _ true := .of_push [] [s.stamp r]
      ((s.markRowDirty r).banks r.toBankId) (by simp) rfl (hone hreq) rfl
    simpa [setBank, push] using hpush
  | closedBank hclosed hempty hcached =>
    simp only [issueToClosedBank, hqueue, hsame.toBankId]
    split
    · exact QueuesRequest.of_push [_] [_] _ (hact _ _) rfl himplicit rfl
    · exact QueuesRequest.of_push [_] [_] _ (hact _ _) rfl (hone hreq) rfl
  | otherRow hactivated hrow hempty =>
    simp only [issueToOtherRow, hqueue, hsame.toBankId]
    rw [List.append_cons]
    refine QueuesRequest.of_push _ _ _ ?_ rfl (hone hreq) rfl
    intro c hc
    rcases List.mem_append.mp hc with hc | hc
    · split at hc
      · rw [List.mem_singleton] at hc
        subst hc
        exact ⟨⟨rfl, rfl⟩, Or.inl rfl⟩
      · simp at hc
    · exact hact _ _ c hc
  | openRow hactivated hrow =>
    simp only [issueToOpenRow, hqueue, hsame.toBankId]
    split
    · exact QueuesRequest.of_push [] [_] _ (by simp) rfl himplicit rfl
    · exact QueuesRequest.of_push [] [_] _ (by simp) rfl (hone hreq) rfl
  | refused hbusy =>
    have hpush : QueuesRequest p r s _ false := .of_push [] []
      ((s.markRowDirty r).banks r.toBankId) (by simp) rfl (by simp) rfl
    simpa [setBank, push] using hpush

theorem hasBank_of_mem_refreshedBanks (hk : p.HasBank k) (h : k' ∈ refreshedBanks p k) :
    p.HasBank k' := by
  obtain ⟨i, -, rfl⟩ := List.mem_map.mp h
  exact ⟨hk.1, Nat.mod_lt _ p.banks_pos⟩

theorem hasBank_of_mem_refreshOrder (h : k ∈ s.refreshOrder p) : p.HasBank k := by
  obtain ⟨rankIdx, -, h⟩ := List.mem_flatMap.mp h
  obtain ⟨bankIdx, -, rfl⟩ := List.mem_map.mp h
  exact ⟨Nat.mod_lt _ p.ranks_pos, Nat.mod_lt _ p.banks_pos⟩

/-- Precharges of the controller were appended to the queues. -/
def AppendsPrecharges (f g : ℕ → List Request) : Prop :=
  ∀ q, ∃ added, g q = f q ++ added ∧ ∀ c ∈ added, IsOwn c ∧ c.type = .prechargeAll

theorem AppendsPrecharges.refl (f : ℕ → List Request) : AppendsPrecharges f f :=
  fun _ => ⟨[], by simp, by simp⟩

theorem AppendsPrecharges.trans {f g h : ℕ → List Request} (hfg : AppendsPrecharges f g)
    (hgh : AppendsPrecharges g h) : AppendsPrecharges f h := by
  intro q
  obtain ⟨added, heq, hown⟩ := hfg q
  obtain ⟨added', heq', hown'⟩ := hgh q
  exact ⟨added ++ added', by rw [heq', heq, List.append_assoc],
    List.forall_mem_append.mpr ⟨hown, hown'⟩⟩

/-- Banks were closed for a refresh. -/
structure Precharges (s t : MemoryController) : Prop where
  frame : SameFrame s t
  nextRefreshBank : t.nextRefreshBank = s.nextRefreshBank
  refreshQueued : ∀ k, (t.banks k).refreshQueued = (s.banks k).refreshQueued
  activateQueued : ∀ k, (t.banks k).activateQueued → (s.banks k).activateQueued
  commandQueues : AppendsPrecharges s.commandQueues t.commandQueues

theorem Precharges.refl (s : MemoryController) : Precharges s s :=
  ⟨.refl s, rfl, fun _ => rfl, fun _ => id, .refl _⟩

theorem precharges_prechargeBank (p : Params) (s : MemoryController) (k : BankId) :
    Precharges s (s.prechargeBank p k) := by
  unfold prechargeBank
  split
  · refine ⟨⟨rfl, rfl, rfl, rfl⟩, rfl, fun k' => ?_, fun k' => ?_, fun q => ?_⟩
    · by_cases hk : k' = k
      · subst hk
        simp [setBank, BankState.closeAll]
      · simp [setBank, push, hk]
    · by_cases hk : k' = k
      · subst hk
        simp [setBank, BankState.closeAll]
      · simp [setBank, push, hk]
    · by_cases hq : q = p.getCommandQueueId k 0
      · subst hq
        exact ⟨[s.makePrechargeAllRequest k], by simp [setBank, push],
          List.forall_mem_singleton.mpr ⟨⟨rfl, rfl⟩, rfl⟩⟩
      · exact ⟨[], by simp [setBank, push, hq], by simp⟩
  · exact .refl s

theorem precharges_foldl (p : Params) (l : List BankId) (s : MemoryController) :
    Precharges s (l.foldl (prechargeBank p) s) := by
  induction l generalizing s with
  | nil => exact .refl s
  | cons k l ih =>
    have hfirst := precharges_prechargeBank p s k
    have hrest := ih (s.prechargeBank p k)
    exact ⟨hfirst.frame.trans hrest.frame, hrest.nextRefreshBank.trans hfirst.nextRefreshBank,
      fun k' => (hrest.refreshQueued k').trans (hfirst.refreshQueued k'),
      fun k' h => hfirst.activateQueued k' (hrest.activateQueued k' h),
      hfirst.commandQueues.trans hrest.commandQueues⟩

/-- What queueing a refresh does: precharges may come before it, and the flags of the banks are
set. -/
structure QueuesRefresh (p : Params) (k : BankId) (s t : MemoryController) : Prop where
  frame : SameFrame s t
  nextRefreshBank : t.nextRefreshBank = (s.nextRefresh p).nextRefreshBank
  refreshQueued : ∀ k', (t.banks k').refreshQueued =
    (decide (k' ∈ refreshedBanks p k) || (s.banks k').refreshQueued)
  activateQueued : ∀ k', (t.banks k').activateQueued → (s.banks k').activateQueued
  commandQueues : ∃ queues, AppendsPrecharges s.commandQueues queues ∧
    t.commandQueues = update queues (p.getCommandQueueId k 0)
      (queues (p.getCommandQueueId k 0) ++ [s.makeRefreshRequest k])

theorem nextRefreshBank_nextRefresh (p : Params) (s : MemoryController) :
    (s.nextRefresh p).nextRefreshBank =
      if s.nextRefreshBank + p.banksPerRefresh < p.banks then
        s.nextRefreshBank + p.banksPerRefresh else 0 := by
  unfold nextRefresh
  split <;> rfl

theorem queuesRefresh (p : Params) (k : BankId) (s : MemoryController) :
    QueuesRefresh p k s (s.queueRefresh p k) := by
  have hprecharges : Precharges s
      (if p.usePrecharge then (refreshedBanks p k).foldl (prechargeBank p) s else s) := by
    split
    · exact precharges_foldl p _ s
    · exact .refl s
  simp only [queueRefresh]
  generalize (if p.usePrecharge then (refreshedBanks p k).foldl (prechargeBank p) s else s) = s₁
    at hprecharges ⊢
  have hrefresh : s₁.makeRefreshRequest k = s.makeRefreshRequest k := by
    simp [makeRefreshRequest, hprecharges.frame.now]
  -- resetting the other flag touches neither the queues nor the flag in question
  have hreset : ∀ u : MemoryController, ∀ b : Bool,
      let v := if b then u else u.resetRefresh p k
      SameFrame u v ∧ v.nextRefreshBank = u.nextRefreshBank ∧
        v.commandQueues = u.commandQueues ∧
        ∀ k', (v.banks k').refreshQueued = (u.banks k').refreshQueued ∧
          (v.banks k').activateQueued = (u.banks k').activateQueued := by
    intro u b
    cases b with
    | true => exact ⟨.refl u, rfl, rfl, fun _ => ⟨rfl, rfl⟩⟩
    | false =>
      refine ⟨⟨rfl, rfl, rfl, rfl⟩, rfl, rfl, fun k' => ?_⟩
      simp only [resetRefresh, mapBanks, Bool.false_eq_true, if_false]
      split <;> exact ⟨rfl, rfl⟩
  generalize hu : setRefreshCounter p k _ _ = u
  have huflags : ∀ k', (u.banks k').refreshQueued =
      (decide (k' ∈ refreshedBanks p k) || (s₁.banks k').refreshQueued) ∧
      (u.banks k').activateQueued = (s₁.banks k').activateQueued := by
    intro k'
    subst hu
    by_cases hk : k' ∈ refreshedBanks p k <;> simp [setRefreshCounter, mapBanks, push, hk]
  obtain ⟨hframe, hnext, hqueues, hflags⟩ := hreset u (u.needRefresh p k)
  generalize (if u.needRefresh p k then u else u.resetRefresh p k) = v
    at hframe hnext hqueues hflags ⊢
  obtain ⟨bank, rank, hrobin⟩ := nextRefresh_eq p v
  have hu₁ : SameFrame s₁ u ∧ u.nextRefreshBank = s₁.nextRefreshBank ∧
      u.commandQueues = update s₁.commandQueues (p.getCommandQueueId k 0)
        (s₁.commandQueues (p.getCommandQueueId k 0) ++ [s₁.makeRefreshRequest k]) := by
    subst hu
    exact ⟨⟨rfl, rfl, rfl, rfl⟩, rfl, rfl⟩
  obtain ⟨huframe, hunext, huqueues⟩ := hu₁
  constructor
  · refine (hprecharges.frame.trans (huframe.trans hframe)).trans ?_
    rw [hrobin]
    exact ⟨rfl, rfl, rfl, rfl⟩
  · dsimp only
    rw [nextRefreshBank_nextRefresh, nextRefreshBank_nextRefresh, hnext, hunext,
      hprecharges.nextRefreshBank]
  · intro k'
    rw [hrobin]
    dsimp only
    rw [(hflags k').1, (huflags k').1, hprecharges.refreshQueued]
  · intro k'
    rw [hrobin]
    dsimp only
    rw [(hflags k').2, (huflags k').2]
    exact hprecharges.activateQueued k'
  · refine ⟨s₁.commandQueues, hprecharges.commandQueues, ?_⟩
    rw [hrobin]
    dsimp only
    rw [hqueues, huqueues, hrefresh]

/-- The loop of `CycleCommandQueues` issues the head of a queue, or does nothing. -/
theorem issueFirst_cases {queues : List ℕ} (h : s.issueFirst p child queues = some (t, issued)) :
    (t = s ∧ issued = none) ∨ ∃ q ∈ queues, ∃ head rest, s.commandQueues q = head :: rest ∧
      s.lastIssueCycle ≠ s.now ∧ s.issueHead p q head rest = some t ∧ issued = some head := by
  induction queues with
  | nil =>
    cases h
    exact Or.inl ⟨rfl, rfl⟩
  | cons q queues ih =>
    have hlater : s.issueFirst p child queues = some (t, issued) →
        (t = s ∧ issued = none) ∨ ∃ q' ∈ q :: queues, ∃ head rest,
          s.commandQueues q' = head :: rest ∧ s.lastIssueCycle ≠ s.now ∧
          s.issueHead p q' head rest = some t ∧ issued = some head := by
      intro h
      rcases ih h with h | ⟨q', hq', h⟩
      · exact Or.inl h
      · exact Or.inr ⟨q', List.mem_cons_of_mem q hq', h⟩
    simp only [issueFirst] at h
    split at h
    · exact hlater h
    · rename_i head rest hqueue
      split_ifs at h with hissue hdeadlock
      · obtain ⟨t', ht', heq⟩ := Option.map_eq_some_iff.mp h
        cases heq
        exact Or.inr ⟨q, List.mem_cons_self, head, rest, hqueue, hissue.1, ht', rfl⟩
      · exact hlater h

theorem mem_queueOrder {q : ℕ} (h : q ∈ s.queueOrder p) : q < p.commandQueueCount := by
  obtain ⟨i, hi, rfl⟩ := List.mem_map.mp h
  exact Nat.mod_lt _ (by have := List.mem_range.mp hi; omega)

/-- `CycleCommandQueues` calls `HandleRefresh`, which queues a refresh. -/
def CyclesRefresh (p : Params) (s : MemoryController) : Prop :=
  p.useRefresh ∧ ¬ p.eventDriven ∧ (s.handleRefresh p).2

/-- What `CycleCommandQueues` can do, apart from powering ranks down and up: it queues a
refresh; or else it does nothing, or it issues the head of a queue. -/
theorem cycleCommandQueues_cases (h : s.cycleCommandQueues p child = some (t, issued)) :
    ∃ down, let s' := { s with rankPowerDown := down }
      (s'.CyclesRefresh p ∧ t = (s'.handleRefresh p).1 ∧ issued = none) ∨
      (¬ s'.CyclesRefresh p ∧ ((t = s' ∧ issued = none) ∨
        ∃ q < p.commandQueueCount, ∃ head rest, s.commandQueues q = head :: rest ∧
          s.lastIssueCycle ≠ s.now ∧ s'.issueHead p q head rest = some t ∧
          issued = some head)) := by
  have hdown : ∃ down, (if p.useLowPower ∧ ¬ p.eventDriven then s.handleLowPower p child else s) =
      { s with rankPowerDown := down } := by
    split
    · exact ⟨_, rfl⟩
    · exact ⟨s.rankPowerDown, rfl⟩
  obtain ⟨down, hdown⟩ := hdown
  refine ⟨down, ?_⟩
  simp only [cycleCommandQueues, hdown] at h
  split_ifs at h with hrefresh hhandled
  · cases h
    exact Or.inl ⟨hrefresh, rfl, rfl⟩
  · cases h
    exact Or.inr ⟨hrefresh, Or.inl ⟨rfl, rfl⟩⟩
  · refine Or.inr ⟨hrefresh, ?_⟩
    rcases issueFirst_cases h with ⟨rfl, rfl⟩ | ⟨q, hq, head, rest, hqueue, hcycle, hhead, rfl⟩
    · exact Or.inl ⟨rfl, rfl⟩
    · exact Or.inr ⟨q, mem_queueOrder hq, head, rest, hqueue, hcycle, hhead, rfl⟩

/-- What issuing the head of a queue changes. -/
structure IssuesHead (p : Params) (q : ℕ) (head : Request) (rest : List Request)
    (s t : MemoryController) : Prop where
  now : t.now = s.now
  lastIssueCycle : t.lastIssueCycle = s.now
  cleanupCycle : t.cleanupCycle = some (s.now + 1)
  transactionQueues : t.transactionQueues = s.transactionQueues
  nextRefreshBank : t.nextRefreshBank = s.nextRefreshBank
  delayedRefreshCounter : t.delayedRefreshCounter = s.delayedRefreshCounter
  commandQueues : t.commandQueues =
    update s.commandQueues q ({ head with issued := true } :: rest)
  banks : t.banks = if head.type = .refresh then
    (s.mapBanks (fun b => { b with refreshQueued := false }) (group p head.toBankId)).banks
    else s.banks

theorem issuesHead {q : ℕ} {head : Request} {rest : List Request}
    (h : s.issueHead p q head rest = some t) : IssuesHead p q head rest s t := by
  obtain ⟨s', hs', rfl⟩ := Option.map_eq_some_iff.mp h
  have hmove : ∀ u : MemoryController,
      ∃ cur, u.moveCurrentQueue p = { u with curQueue := cur } := by
    intro u
    unfold moveCurrentQueue
    split
    · exact ⟨u.curQueue, rfl⟩
    · exact ⟨_, rfl⟩
  obtain ⟨cur, hcur⟩ := hmove s'
  rw [hcur]
  split_ifs at hs' with htype
  · obtain ⟨-, hs'⟩ := Option.ite_none_right_eq_some.mp hs'
    cases hs'
    exact ⟨rfl, rfl, rfl, rfl, rfl, rfl, rfl, by rw [if_pos htype]; rfl⟩
  · cases hs'
    exact ⟨rfl, rfl, rfl, rfl, rfl, rfl, rfl, by rw [if_neg htype]⟩

/-! ### The commands that a step queues -/

/-- The commands that a step from `s` to `t` has appended to a queue. -/
def added (s t : MemoryController) (q : ℕ) : List Request :=
  (t.commandQueues q).drop (s.commandQueues q).length

variable {q : ℕ} {commands : List Request}

theorem added_of_append (h : t.commandQueues q = s.commandQueues q ++ commands) :
    added s t q = commands := by
  rw [added, h, List.drop_left]

theorem added_of_length_le (h : (t.commandQueues q).length ≤ (s.commandQueues q).length) :
    added s t q = [] :=
  List.drop_eq_nil_of_le h

/-- Queueing a refresh appends precharges, and the refresh to the queue of its bank. -/
theorem added_queueRefresh (p : Params) (k : BankId) (s : MemoryController) (q : ℕ) :
    ∃ precharges, (∀ c ∈ precharges, IsOwn c ∧ c.type = .prechargeAll) ∧
      added s (s.queueRefresh p k) q = precharges ++
        if q = p.getCommandQueueId k 0 then [s.makeRefreshRequest k] else [] := by
  obtain ⟨queues, happends, hqueues⟩ := (queuesRefresh p k s).commandQueues
  obtain ⟨precharges, hprecharges, hown⟩ := happends q
  refine ⟨precharges, hown, added_of_append ?_⟩
  rw [hqueues]
  split
  · rename_i hq
    rw [hq, update_self, ← hq, hprecharges, List.append_assoc]
  · rename_i hq
    rw [update_of_ne hq, hprecharges, List.append_nil]

/-- A command that is issued stays in its queue for the rest of the cycle. -/
theorem IssuesHead.added_eq_nil {head : Request} {rest : List Request}
    (h : IssuesHead p q head rest s t) (hqueue : s.commandQueues q = head :: rest) (q' : ℕ) :
    added s t q' = [] := by
  refine added_of_length_le ?_
  rw [h.commandQueues]
  by_cases hq : q' = q
  · rw [hq, update_self, hqueue, List.length_cons, List.length_cons]
  · rw [update_of_ne hq]

theorem added_tick (s : MemoryController) (q : ℕ) : added s s.tick q = [] := by
  refine added_of_length_le ?_
  unfold tick
  dsimp only
  split
  · exact List.length_filter_le _ _
  · exact le_rfl

/-! ### The rows and the refreshes that are due -/

end MemoryController

/-- What is kept of the rows of a bank. -/
def BankState.rows (b : BankState) : Bool × (ℕ → Bool) × (ℕ → ℕ) × (ℕ → Bool) :=
  (b.activateQueued, b.activeSubArray, b.effectiveRow, b.effectiveRowDirty)

namespace MemoryController

theorem rows_mapBanks (f : BankState → BankState) (hf : ∀ b, (f b).rows = b.rows)
    (l : List BankId) (s : MemoryController) (k : BankId) :
    ((s.mapBanks f l).banks k).rows = (s.banks k).rows := by
  dsimp only [mapBanks]
  split
  · exact hf _
  · rfl

theorem IssuesHead.rows {head : Request} {rest : List Request}
    (h : IssuesHead p q head rest s t) (k : BankId) : (t.banks k).rows = (s.banks k).rows := by
  rw [h.banks]
  split
  · exact rows_mapBanks (fun b => { b with refreshQueued := false }) (fun _ => rfl) _ s k
  · rfl

theorem delayedRefreshCounter_foldl_prechargeBank (p : Params) (l : List BankId)
    (s : MemoryController) :
    (l.foldl (prechargeBank p) s).delayedRefreshCounter = s.delayedRefreshCounter := by
  induction l generalizing s with
  | nil => rfl
  | cons k l ih =>
    rw [List.foldl_cons, ih]
    unfold prechargeBank
    split <;> rfl

/-- Queueing a refresh takes one off the refreshes that are due for the group. -/
theorem delayedRefreshCounter_queueRefresh (p : Params) (k : BankId) (s : MemoryController) :
    (s.queueRefresh p k).delayedRefreshCounter =
      (s.setRefreshCounter p k (s.refreshCounter p k - 1)).delayedRefreshCounter := by
  have hprecharged :
      (if p.usePrecharge then (refreshedBanks p k).foldl (prechargeBank p) s
        else s).delayedRefreshCounter = s.delayedRefreshCounter := by
    split
    · exact delayedRefreshCounter_foldl_prechargeBank p _ s
    · rfl
  simp only [queueRefresh]
  generalize (if p.usePrecharge then (refreshedBanks p k).foldl (prechargeBank p) s else s) = u
    at hprecharged ⊢
  have hreset : ∀ w : MemoryController,
      (if w.needRefresh p k then w else w.resetRefresh p k).delayedRefreshCounter =
        w.delayedRefreshCounter := by
    intro w
    split <;> rfl
  have hcounted := hreset (setRefreshCounter p k
    (refreshCounter p k (mapBanks (fun b => { b with refreshQueued := true }) (refreshedBanks p k)
      (u.push (p.getCommandQueueId k 0) [u.makeRefreshRequest k])) - 1)
    (mapBanks (fun b => { b with refreshQueued := true }) (refreshedBanks p k)
      (u.push (p.getCommandQueueId k 0) [u.makeRefreshRequest k])))
  generalize (if needRefresh p k _ then _ else _) = w at hcounted ⊢
  obtain ⟨bank, rank, hnext⟩ := nextRefresh_eq p w
  rw [hnext]
  refine hcounted.trans ?_
  simp only [setRefreshCounter, refreshCounter, mapBanks, push, hprecharged]

/-- `IssueMemoryCommands` leaves the refreshes that are due. -/
theorem Issues.delayedRefreshCounter (h : Issues p child r s t ok) :
    t.delayedRefreshCounter = s.delayedRefreshCounter := by
  have hmarked : (s.markRowDirty r).delayedRefreshCounter = s.delayedRefreshCounter := by
    obtain ⟨dirty, hdirty⟩ := markRowDirty_eq r s
    rw [hdirty]
    rfl
  cases h with
  | cached | refused => exact hmarked
  | otherRow => exact hmarked
  | closedBank =>
    simp only [issueToClosedBank]
    split <;> exact hmarked
  | openRow =>
    simp only [issueToOpenRow]
    split <;> exact hmarked

end MemoryController

end HybridMemory.NVMain.MemControl

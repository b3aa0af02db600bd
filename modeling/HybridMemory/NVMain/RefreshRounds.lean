import HybridMemory.NVMain.RefreshGroups
import Mathlib.Data.List.Perm.Subperm

/-!
# The rounds of the refreshes

A refresh pulse adds one to the refreshes that are due for its group, and `HandleRefresh` takes
one off when it queues a `REFRESH`. It looks for a group that needs one, from `nextRefreshBank`
on in steps of `BanksPerRefresh` banks, modulo the number of banks.

* `RefreshHistory.pulses_eq`: in every run, for every group, the pulses are the refreshes that were
  queued and those that are due, and none is queued for a group that has none due;
* `groupsRight_iff`: in every reachable state, the groups that `HandleRefresh` looks at are a
  partition of the banks of each rank, within the arrays, and the same for all functions, if and
  only if `BanksPerRefresh` divides the number of banks;
* `three_banks_per_refresh`: with eight banks and three banks per refresh, two banks belong to no
  group, and a third group is looked up behind the end of the counters.
-/

namespace HybridMemory.NVMain.MemControl

open Transition Function

namespace MemoryController

variable {p : Params} {s t : MemoryController} {k : BankId} {a : Action} {rank g : ℕ}

/-! ### Counting refreshes -/

/-- The command refreshes a group. -/
def refreshes (p : Params) (rank group : ℕ) (c : Request) : Bool :=
  c.type == .refresh && c.rank == rank && c.bank / p.banksPerRefresh == group

/-- The refreshes of a group that a step has queued. -/
def addedRefreshes (p : Params) (rank group : ℕ) (s t : MemoryController) : ℕ :=
  (Queues.all p.commandQueueCount (added s t)).countP (refreshes p rank group)

theorem addedRefreshes_eq_zero (h : ∀ q, ∀ c ∈ added s t q, c.type ≠ .refresh) :
    addedRefreshes p rank g s t = 0 := by
  refine List.countP_eq_zero.mpr fun c hc => ?_
  obtain ⟨q, -, hc⟩ := Queues.mem_all.mp hc
  simp [refreshes, h q c hc]

theorem addedRefreshes_queueRefresh (hk : p.HasBank k) :
    addedRefreshes p rank g s (s.queueRefresh p k) =
      if k.rank = rank ∧ k.bank / p.banksPerRefresh = g then 1 else 0 := by
  have hsame : addedRefreshes p rank g s (s.queueRefresh p k) =
      (Queues.all p.commandQueueCount (update (fun _ => []) (p.getCommandQueueId k 0)
        ([] ++ [s.makeRefreshRequest k]))).countP (refreshes p rank g) := by
    refine Queues.countP_all_congr fun q _ => ?_
    obtain ⟨precharges, hprecharges, hadded⟩ := added_queueRefresh p k s q
    have hzero : precharges.countP (refreshes p rank g) = 0 :=
      List.countP_eq_zero.mpr fun c hc => by simp [refreshes, (hprecharges c hc).2]
    rw [hadded, List.countP_append, hzero, Nat.zero_add]
    split
    · rename_i hq
      rw [hq, update_self, List.nil_append]
    · rename_i hq
      rw [update_of_ne hq]
  rw [hsame, Queues.countP_all_append (f := fun _ => [])
    (Params.getCommandQueueId_lt hk p.subArrayNum_pos), Queues.all_nil]
  simp [List.countP_singleton, refreshes, makeRefreshRequest]

/-- Requests of the processor are no refreshes. -/
theorem QueuesRequest.addedRefreshes_eq_zero {r : Request} {ok : Bool}
    (h : QueuesRequest p r s t ok) (hr : r.FromProcessor) :
    addedRefreshes p rank g s t = 0 := by
  refine MemoryController.addedRefreshes_eq_zero fun q c hc => ?_
  obtain ⟨own, req, hqueues, hown, -, hreq⟩ := h.commandQueues
  by_cases hq : q = p.queueOf r
  · have hadded : added s t q = own ++ req :=
      added_of_append (by rw [hqueues, hq, update_self])
    rw [hadded] at hc
    rcases List.mem_append.mp hc with hc | hc
    · rcases (hown c hc).2 with htype | htype <;> simp [htype]
    · rcases ((hreq c hc).2.2 hr).2 with htype | htype | htype | htype | htype <;> simp [htype]
  · rw [added_of_length_le (by rw [hqueues, update_of_ne hq])] at hc
    cases hc

end MemoryController

/-- The controller, with the refresh pulses that came and the refreshes that were queued, for a
rank and a group of banks. -/
structure RefreshHistory where
  controller : MemoryController
  pulses : ℕ → ℕ → ℕ := fun _ _ => 0
  queued : ℕ → ℕ → ℕ := fun _ _ => 0

namespace RefreshHistory

open MemoryController

/-- After configuration. The counters of the groups are zero; `counters` is what is in memory
behind them. -/
def init (p : Params) (counters : ℕ → ℕ → ℕ) : RefreshHistory where
  controller :=
    { MemoryController.init p with
      delayedRefreshCounter := fun rank group =>
        if group < p.refreshBankNum then 0 else counters rank group }

/-- The pulses after an action. -/
def pulsesAfter (pulses : ℕ → ℕ → ℕ) : Action → ℕ → ℕ → ℕ
  | .refreshPulse rank group => fun rank' group' =>
    pulses rank' group' + if rank = rank' ∧ group = group' then 1 else 0
  | _ => pulses

/-- One step. -/
def step (p : Params) (s : RefreshHistory) (a : Action) : Option RefreshHistory :=
  (s.controller.advance p a).map fun t =>
    { controller := t
      pulses := pulsesAfter s.pulses a
      queued := fun rank group => s.queued rank group + addedRefreshes p rank group s.controller t }

/-- The pulses of a group are the refreshes that were queued and those that are due. -/
def Balanced (p : Params) (s : RefreshHistory) : Prop :=
  ∀ rank, ∀ group < p.refreshBankNum,
    s.pulses rank group = s.queued rank group + s.controller.delayedRefreshCounter rank group

variable {p : Params} {s t : RefreshHistory} {a : Action} {k : BankId} {rank group : ℕ}

/-- With a threshold, a group for which a refresh is queued has one due. -/
theorem refreshCounter_pos (hthreshold : 1 ≤ p.delayedRefreshThreshold) {s : MemoryController}
    (h : s.refreshed p a = some k) : 0 < s.refreshCounter p k := by
  have hneed := needRefresh_of_refreshed h
  rw [needRefresh, Bool.and_eq_true, decide_eq_true_eq] at hneed
  exact hthreshold.trans hneed.2

theorem delayedRefreshCounter_setRefreshCounter (s : MemoryController) (k : BankId) (n : ℕ) :
    (s.setRefreshCounter p k n).delayedRefreshCounter rank group =
      if k.rank = rank ∧ k.bank / p.banksPerRefresh = group then n
      else s.delayedRefreshCounter rank group := by
  unfold setRefreshCounter
  dsimp only
  by_cases hrank : rank = k.rank
  · subst hrank
    by_cases hgroup : group = k.bank / p.banksPerRefresh
    · subst hgroup
      simp
    · simp [hgroup, Ne.symm hgroup]
  · simp [hrank, Ne.symm hrank]

theorem Balanced.step (hthreshold : 1 ≤ p.delayedRefreshThreshold) (hs : s.Balanced p)
    (h : s.step p a = some t) : t.Balanced p := by
  obtain ⟨t, ht, rfl⟩ := Option.map_eq_some_iff.mp h
  intro rank group hgroup
  have hbefore := hs rank group hgroup
  dsimp only
  rcases advance_cases ht with
    ⟨child, r, ok, rfl, hr, -, hissue⟩ | ⟨k, down, hk, rfl⟩ | hidles
  · rw [(queuesRequest hissue).addedRefreshes_eq_zero hr,
      (issues_of_issueMemoryCommands hissue).delayedRefreshCounter]
    exact hbefore
  · have hpos : 0 < s.controller.refreshCounter p k := refreshCounter_pos hthreshold hk
    have hadded : addedRefreshes p rank group s.controller
        (({ s.controller with rankPowerDown := down } : MemoryController).queueRefresh p k) =
        if k.rank = rank ∧ k.bank / p.banksPerRefresh = group then 1 else 0 :=
      addedRefreshes_queueRefresh (s := { s.controller with rankPowerDown := down })
        (hasBank_of_refreshed hk)
    have hpulses : pulsesAfter s.pulses a = s.pulses := by
      cases a with
      | refreshPulse rank group => cases hk
      | _ => rfl
    rw [hpulses, hadded, delayedRefreshCounter_queueRefresh,
      delayedRefreshCounter_setRefreshCounter]
    change 0 < s.controller.delayedRefreshCounter k.rank (k.bank / p.banksPerRefresh) at hpos
    split
    · rename_i heq
      obtain ⟨rfl, rfl⟩ := heq
      change _ = _ + (s.controller.delayedRefreshCounter _ _ - 1)
      omega
    · exact hbefore
  · have hadded : addedRefreshes p rank group s.controller t = 0 :=
      addedRefreshes_eq_zero fun q c hc => by rw [hidles.added] at hc; cases hc
    rw [hadded, hidles.delayedRefreshCounter]
    cases a with
    | refreshPulse rank' group' =>
      simp only [pulsesAfter, countedPulse, delayedRefreshCounter_setRefreshCounter,
        Params.groupHead, Nat.mul_div_cancel _ p.banksPerRefresh_pos, refreshCounter]
      split
      · rename_i heq
        obtain ⟨rfl, rfl⟩ := heq
        omega
      · exact hbefore
    | _ => exact hbefore

/-- **Pulses and refreshes.** In every run, whatever is in memory behind the counters, the pulses
of a group are the `REFRESH` commands that were queued and those that are due; and no action takes
one off a counter that is zero. -/
theorem pulses_eq (hthreshold : 1 ≤ p.delayedRefreshThreshold) (counters : ℕ → ℕ → ℕ)
    {actions : List Action}
    (hrun : Run (Steps (RefreshHistory.step p)) (init p counters) actions s) :
    (∀ rank, ∀ group < p.refreshBankNum,
      s.pulses rank group = s.queued rank group + s.controller.delayedRefreshCounter rank group) ∧
    ∀ a, ∀ k ∈ s.controller.refreshed p a, 0 < s.controller.refreshCounter p k := by
  refine ⟨?_, fun a k hk => refreshCounter_pos hthreshold hk⟩
  refine hrun.invariant (P := Balanced p) ?_ fun s a t hs h => hs.step hthreshold h
  intro rank group hgroup
  simp [init, hgroup]

/-- Two pulses of a group, of which one was followed by a refresh. -/
theorem pulses_eq_two : ∃ s : RefreshHistory,
    Run (Steps (RefreshHistory.step .defaults)) (init .defaults fun _ _ => 7)
      [.refreshPulse 0 0, .refreshPulse 0 0, .handleRefresh] s ∧
    s.controller.delayedRefreshCounter 0 0 = 1 ∧
    (∀ rank, ∀ group < Params.defaults.refreshBankNum,
      s.pulses rank group = s.queued rank group + s.controller.delayedRefreshCounter rank group) ∧
    ∀ a, ∀ k ∈ s.controller.refreshed .defaults a, 0 < s.controller.refreshCounter .defaults k :=
  exists_run_imp (fun s => s.controller.delayedRefreshCounter 0 0 = 1) (by decide +kernel)
    fun _ hrun hs => ⟨hs, pulses_eq (by decide) _ hrun⟩

end RefreshHistory

/-! ### The groups -/

namespace MemoryController

variable {p : Params} {s t : MemoryController} {k : BankId} {a : Action} {rank : ℕ}

/-- The banks at which `HandleRefresh` looks for a rank. -/
def visited (p : Params) (s : MemoryController) (rank : ℕ) : List BankId :=
  (List.range p.refreshBankNum).map fun bankIdx =>
    ⟨rank, (s.nextRefreshBank + bankIdx * p.banksPerRefresh) % p.banks⟩

theorem mem_visited : k ∈ s.visited p rank ↔ ∃ bankIdx < p.refreshBankNum,
    k = ⟨rank, (s.nextRefreshBank + bankIdx * p.banksPerRefresh) % p.banks⟩ := by
  simp [visited, eq_comm]

theorem refreshOrder_eq_flatMap (p : Params) (s : MemoryController) :
    s.refreshOrder p = (List.range p.ranks).flatMap fun rankIdx =>
      s.visited p ((s.nextRefreshRank + rankIdx) % p.ranks) :=
  rfl

theorem exists_visited_of_mem_refreshOrder (h : k ∈ s.refreshOrder p) :
    ∃ rank < p.ranks, k ∈ s.visited p rank := by
  rw [refreshOrder_eq_flatMap] at h
  obtain ⟨rankIdx, -, h⟩ := List.mem_flatMap.mp h
  exact ⟨_, Nat.mod_lt _ p.ranks_pos, h⟩

/-- The banks of a rank. -/
def banksOf (p : Params) (rank : ℕ) : List BankId :=
  (List.range p.banks).map fun bank => ⟨rank, bank⟩

/-- The groups of `HandleRefresh` are a partition of the banks, and in range. -/
structure GroupsRight (p : Params) (s : MemoryController) : Prop where
  /-- Every bank of a rank is refreshed with exactly one group. -/
  partition : ∀ rank < p.ranks,
    ((s.visited p rank).flatMap (refreshedBanks p)).Perm (banksOf p rank)
  /-- The indices are within the arrays. -/
  inRange : ∀ k ∈ s.refreshOrder p, k.rank < p.ranks ∧
    k.bank / p.banksPerRefresh < p.refreshBankNum ∧
    ∀ k' ∈ refreshedBanks p k ++ group p k, p.HasBank k'
  /-- The banks that `HandleRefresh` refreshes are those that `SetRefresh` marks at a pulse of
  the group, and those that `ResetRefreshQueued` clears after the `REFRESH`. -/
  sameBanks : ∀ k ∈ s.refreshOrder p, refreshedBanks p k = group p k ∧
    group p (p.groupHead k.rank (k.bank / p.banksPerRefresh)) = group p k

/-- The round robin stays at the head of a group. -/
theorem aligned_step (hs : p.banksPerRefresh ∣ s.nextRefreshBank) (h : s.advance p a = some t) :
    p.banksPerRefresh ∣ t.nextRefreshBank := by
  rcases advance_cases h with ⟨child, r, ok, rfl, -, -, hissue⟩ | ⟨k, down, -, rfl⟩ | hidles
  · rw [(queuesRequest hissue).nextRefreshBank]
    exact hs
  · rw [(queuesRefresh p k _).nextRefreshBank, nextRefreshBank_nextRefresh]
    split
    · exact Nat.dvd_add hs (Nat.dvd_refl _)
    · exact Nat.dvd_zero _
  · rw [hidles.nextRefreshBank]
    exact hs

theorem length_flatMap_visited :
    ((s.visited p rank).flatMap (refreshedBanks p)).length =
      p.refreshBankNum * p.banksPerRefresh := by
  have hgroup : ∀ k : BankId, (refreshedBanks p k).length = p.banksPerRefresh := by
    intro k
    simp [refreshedBanks]
  simp only [List.length_flatMap, hgroup, visited, List.map_const', List.length_map,
    List.length_range, List.sum_replicate, smul_eq_mul]

theorem length_banksOf : (banksOf p rank).length = p.banks := by
  simp [banksOf]

/-- If the groups are a partition, the banks are a multiple of the banks of a group. -/
theorem GroupsRight.dvd (h : s.GroupsRight p) : p.banksPerRefresh ∣ p.banks := by
  have hlength := (h.partition 0 p.ranks_pos).length_eq
  rw [length_flatMap_visited, length_banksOf] at hlength
  exact ⟨p.refreshBankNum, by rw [← hlength, Nat.mul_comm]⟩

section Aligned

variable (hdvd : p.banksPerRefresh ∣ p.banks) (hs : p.banksPerRefresh ∣ s.nextRefreshBank)

include hdvd hs

/-- The visited banks are the heads of the groups. -/
theorem head_of_mem_visited (h : k ∈ s.visited p rank) : k.rank = rank ∧
    k.bank / p.banksPerRefresh < p.refreshBankNum ∧
    k.bank = k.bank / p.banksPerRefresh * p.banksPerRefresh := by
  obtain ⟨bankIdx, -, rfl⟩ := mem_visited.mp h
  have hhead : p.banksPerRefresh ∣ (s.nextRefreshBank + bankIdx * p.banksPerRefresh) % p.banks :=
    (Nat.dvd_mod_iff hdvd).mpr (Nat.dvd_add hs (Nat.dvd_mul_left _ _))
  refine ⟨rfl, Nat.div_lt_div_of_lt_of_dvd hdvd (Nat.mod_lt _ p.banks_pos), ?_⟩
  exact (Nat.div_mul_cancel hhead).symm

/-- Every group is visited. -/
theorem groupHead_mem_visited {group : ℕ} (hgroup : group < p.refreshBankNum) :
    p.groupHead rank group ∈ s.visited p rank := by
  obtain ⟨m, hm⟩ := hs
  obtain ⟨n, hn⟩ := hdvd
  have hnum : p.refreshBankNum = n := by
    rw [Params.refreshBankNum, hn, Nat.mul_div_cancel_left _ p.banksPerRefresh_pos]
  rw [hnum] at hgroup
  have hpos : 0 < n := by omega
  refine mem_visited.mpr ⟨(group + (n - m % n)) % n, (Nat.mod_lt _ hpos).trans_eq hnum.symm, ?_⟩
  have hmod : (m + (group + (n - m % n)) % n) % n = group := by
    have hlt := Nat.mod_lt m hpos
    calc (m + (group + (n - m % n)) % n) % n = (m % n + (group + (n - m % n))) % n := by
          rw [Nat.add_mod_mod, Nat.mod_add_mod]
      _ = (group + n) % n := by congr 1; omega
      _ = group := by rw [Nat.add_mod_right, Nat.mod_eq_of_lt hgroup]
  rw [Params.groupHead, BankId.mk.injEq]
  refine ⟨rfl, ?_⟩
  rw [hm, hn, Nat.mul_comm _ m, ← Nat.add_mul, Nat.mul_comm _ n, Nat.mul_mod_mul_right, hmod]

theorem refreshedBanks_eq_group (h : k ∈ s.visited p rank) : refreshedBanks p k = group p k := by
  obtain ⟨-, hlt, hbank⟩ := head_of_mem_visited hdvd hs h
  refine List.map_congr_left fun i hi => ?_
  rw [BankId.mk.injEq]
  refine ⟨rfl, ?_⟩
  have hi := List.mem_range.mp hi
  have hfits : k.bank / p.banksPerRefresh * p.banksPerRefresh + p.banksPerRefresh ≤ p.banks := by
    rw [← Nat.succ_mul, ← Nat.div_mul_cancel hdvd]
    exact Nat.mul_le_mul_right _ hlt
  rw [Nat.mod_eq_of_lt (by omega), Nat.add_comm, ← hbank]

/-- If the banks are a multiple of the banks of a group, the groups are right. -/
theorem groupsRight_of_dvd : s.GroupsRight p where
  partition := by
    intro rank hrank
    have hcover : banksOf p rank ⊆ (s.visited p rank).flatMap (refreshedBanks p) := by
      intro k hk
      obtain ⟨bank, hbank, rfl⟩ := List.mem_map.mp hk
      have hlt : bank / p.banksPerRefresh < p.refreshBankNum :=
        Nat.div_lt_div_of_lt_of_dvd hdvd (List.mem_range.mp hbank)
      have hmem : p.groupHead rank _ ∈ s.visited p rank := groupHead_mem_visited hdvd hs hlt
      refine List.mem_flatMap.mpr ⟨_, hmem, ?_⟩
      rw [refreshedBanks_eq_group hdvd hs hmem, mem_group]
      exact ⟨rfl, (Nat.mul_div_cancel _ p.banksPerRefresh_pos).symm⟩
    have hnodup : (banksOf p rank).Nodup :=
      List.nodup_range.map fun bank bank' h => (BankId.mk.inj h).2
    -- the groups have as many banks as there are, so none belongs to two of them
    refine ((hnodup.subperm hcover).perm_of_length_le ?_).symm
    rw [length_flatMap_visited, length_banksOf, Params.refreshBankNum, Nat.div_mul_cancel hdvd]
  inRange := by
    intro k hk
    obtain ⟨rank, hrank, hk⟩ := exists_visited_of_mem_refreshOrder hk
    obtain ⟨rfl, hlt, -⟩ := head_of_mem_visited hdvd hs hk
    refine ⟨hrank, hlt, fun k' hk' => ?_⟩
    rw [← refreshedBanks_eq_group hdvd hs hk, List.mem_append, or_self] at hk'
    obtain ⟨i, -, rfl⟩ := List.mem_map.mp hk'
    exact ⟨hrank, Nat.mod_lt _ p.banks_pos⟩
  sameBanks := by
    intro k hk
    obtain ⟨rank, hrank, hk⟩ := exists_visited_of_mem_refreshOrder hk
    refine ⟨refreshedBanks_eq_group hdvd hs hk, ?_⟩
    simp only [group, Params.groupHead, Nat.mul_div_cancel _ p.banksPerRefresh_pos]

end Aligned

/-- Four banks per refresh. -/
def fourPerRefresh : Params :=
  { Params.defaults with
    banksPerRefresh := 4, banksPerRefresh_pos := Nat.lt_add_left 3 Nat.one_pos
    banksPerRefresh_le := Nat.le_add_left 4 4 }

/-- Three banks per refresh, which do not divide the eight banks. -/
def threePerRefresh : Params :=
  { Params.defaults with
    banksPerRefresh := 3, banksPerRefresh_pos := by decide, banksPerRefresh_le := by decide }

/-- **The groups of `HandleRefresh`.** In every reachable state, the groups are a partition of the
banks of each rank, in range, and the same for all functions, if and only if the number of banks
is a multiple of `BanksPerRefresh`. -/
theorem groupsRight_iff {actions : List Action}
    (hrun : Run (Steps (advance p)) (init p) actions s) :
    s.GroupsRight p ↔ p.banksPerRefresh ∣ p.banks := by
  have haligned : p.banksPerRefresh ∣ s.nextRefreshBank :=
    hrun.invariant (P := fun s => p.banksPerRefresh ∣ s.nextRefreshBank) (Nat.dvd_zero _)
      fun s a t hs h => aligned_step hs h
  exact ⟨fun h => h.dvd, fun hdvd => groupsRight_of_dvd hdvd haligned⟩

/-- Four banks per refresh, in a state in which the second group comes first. -/
theorem groupsRight_iff_four : ∃ s : MemoryController,
    Run (Steps (advance fourPerRefresh)) (init fourPerRefresh)
      [.refreshPulse 1 0, .handleRefresh] s ∧
    s.nextRefreshBank = 4 ∧
    (s.GroupsRight fourPerRefresh ↔ fourPerRefresh.banksPerRefresh ∣ fourPerRefresh.banks) :=
  exists_run_imp (fun s => s.nextRefreshBank = 4) (by decide +kernel) fun _ hrun hs =>
    ⟨hs, groupsRight_iff hrun⟩

/-- With eight banks and three of them per refresh, the last two banks belong to no group at the
start. After a refresh of each group, `HandleRefresh` looks at a third group: its counter is
behind the end of the array, and so is a bank of the group. -/
theorem three_banks_per_refresh :
    ¬ (init threePerRefresh).GroupsRight threePerRefresh ∧
    (∀ bank ∈ [6, 7], (⟨0, bank⟩ : BankId) ∉
      ((init threePerRefresh).visited threePerRefresh 0).flatMap
        (refreshedBanks threePerRefresh)) ∧
    ∃ s : MemoryController, Run (Steps (advance threePerRefresh)) (init threePerRefresh)
        [.refreshPulse 0 0, .handleRefresh, .refreshPulse 0 1, .handleRefresh] s ∧
      ∃ k ∈ s.refreshOrder threePerRefresh,
        ¬ k.bank / threePerRefresh.banksPerRefresh < threePerRefresh.refreshBankNum ∧
        ∃ k' ∈ group threePerRefresh k, ¬ threePerRefresh.HasBank k' := by
  refine ⟨fun h => absurd h.dvd (by decide), by decide, ?_⟩
  exact exists_run_imp (fun s => (⟨0, 6⟩ : BankId) ∈ s.refreshOrder threePerRefresh)
    (by decide +kernel) fun _ _ hs => ⟨⟨0, 6⟩, hs, by decide, ⟨0, 8⟩, by decide, by decide⟩

end MemoryController

end HybridMemory.NVMain.MemControl

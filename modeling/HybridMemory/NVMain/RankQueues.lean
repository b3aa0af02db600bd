import HybridMemory.NVMain.RowPrediction
import HybridMemory.NVMain.RefreshGroups

/-!
# The queues of a rank

`HandleLowPower` powers a rank down if `RankQueueEmpty` finds no command for it. The loop of
`RankQueueEmpty` goes over the banks of the rank, with the address of their first subarray. With
queues per rank or per bank these are all queues of the rank, with queues per subarray they are
not.

* `rankQueueEmpty_right_iff`: whatever the queues hold, `RankQueueEmpty` returns true only if all
  queues of the rank are empty, and a rank is powered down only then, if and only if queues per
  subarray come with one subarray in a bank;
* `powered_down_with_work`: a rank is powered down while a request waits in the queue of its second
  subarray.
-/

namespace HybridMemory.NVMain.MemControl

open Transition Function

namespace MemoryController

variable {p : Params} {s : MemoryController} {rank : ℕ}

/-- The queues that hold the commands for a rank are empty. -/
def RankIdle (p : Params) (rank : ℕ) (s : MemoryController) : Prop :=
  ∀ bank < p.banks, ∀ i < p.subArrayNum, s.commandQueues (p.getCommandQueueId ⟨rank, bank⟩ i) = []

/-- The subarrays of a bank share a queue, or there is only one of them. -/
def SharesQueue (p : Params) : Prop := p.queueModel = .perSubArray → p.subArrayNum = 1

theorem getCommandQueueId_of_sharesQueue (hp : SharesQueue p) (k : BankId) {i : ℕ}
    (hi : i < p.subArrayNum) : p.getCommandQueueId k i = p.getCommandQueueId k 0 := by
  cases hmodel : p.queueModel with
  | perRank | perBank => simp [Params.getCommandQueueId, QueueLayout.queueId, hmodel]
  | perSubArray =>
    have hone := hp hmodel
    obtain rfl : i = 0 := by omega
    rfl

theorem rankQueueEmpty_eq_true_iff : s.rankQueueEmpty p rank = true ↔
    ∀ bank < p.banks, s.commandQueues (p.getCommandQueueId ⟨rank, bank⟩ 0) = [] := by
  simp [rankQueueEmpty]

/-- If the subarrays of a bank share a queue, `RankQueueEmpty` looks at all queues of the rank. -/
theorem rankIdle_iff (hp : SharesQueue p) : s.RankIdle p rank ↔ s.rankQueueEmpty p rank = true := by
  rw [rankQueueEmpty_eq_true_iff]
  constructor
  · exact fun h bank hbank => h bank hbank 0 p.subArrayNum_pos
  · intro h bank hbank i hi
    rw [getCommandQueueId_of_sharesQueue hp _ hi]
    exact h bank hbank

/-- A rank that is powered down has passed the test of its queues. -/
theorem rankQueueEmpty_of_handleLowPower {child : Child} (hup : s.rankPowerDown rank = false)
    (hdown : (s.handleLowPower p child).rankPowerDown rank = true) :
    s.rankQueueEmpty p rank = true := by
  simp only [handleLowPower, hup, Bool.false_and, Bool.false_eq_true, if_false] at hdown
  split at hdown
  · cases hdown
  · exact (Bool.and_eq_true _ _ ▸ hdown).1

/-- With several subarrays, the queue of the second one is not looked at. -/
theorem exists_rankQueueEmpty_not_rankIdle (hp : ¬ SharesQueue p) :
    ∃ s : MemoryController, s.rankQueueEmpty p 0 = true ∧ ¬ s.RankIdle p 0 := by
  obtain ⟨hmodel, hmany⟩ : p.queueModel = .perSubArray ∧ p.subArrayNum ≠ 1 := by
    simpa [SharesQueue] using hp
  have htwo : 1 < p.subArrayNum := by
    have hpos := p.subArrayNum_pos
    omega
  let work : Request := { rank := 0, bank := 0, subarray := 1, type := .activate }
  let s : MemoryController := { init p with
    commandQueues := update (fun _ => []) (p.getCommandQueueId ⟨0, 0⟩ 1) [work] }
  refine ⟨s, rankQueueEmpty_eq_true_iff.mpr fun bank hbank => ?_, fun hidle => ?_⟩
  · have hne : p.getCommandQueueId ⟨0, bank⟩ 0 ≠ p.getCommandQueueId ⟨0, 0⟩ 1 := by
      intro heq
      have hunit := Params.unitOf_eq_of_getCommandQueueId_eq ⟨p.ranks_pos, hbank⟩
        p.subArrayNum_pos ⟨p.ranks_pos, p.banks_pos⟩ htwo heq
      simp [QueueLayout.unitOf, hmodel] at hunit
    simp only [s, update_of_ne hne]
  · have hwork := hidle 0 p.banks_pos 1 htwo
    simp [s] at hwork

/-- **The queues of a rank.** For any contents of the queues, `RankQueueEmpty` returns true only if
no queue of the rank holds a command, and a rank is powered down only then, if and only if there
is one subarray in a bank where queues are per subarray. -/
theorem rankQueueEmpty_right_iff (p : Params) :
    (∀ rank < p.ranks, ∀ s : MemoryController,
      (s.rankQueueEmpty p rank = true → s.RankIdle p rank) ∧
      ∀ child, s.rankPowerDown rank = false →
        (s.handleLowPower p child).rankPowerDown rank = true → s.RankIdle p rank) ↔
    (p.queueModel = .perSubArray → p.subArrayNum = 1) := by
  constructor
  · intro h
    by_contra hp
    obtain ⟨s, hempty, hwork⟩ := exists_rankQueueEmpty_not_rankIdle hp
    exact hwork ((h 0 p.ranks_pos s).1 hempty)
  · intro hp rank _ s
    exact ⟨(rankIdle_iff hp).mpr, fun child hup hdown =>
      (rankIdle_iff hp).mpr (rankQueueEmpty_of_handleLowPower hup hdown)⟩

/-- Queues per subarray, with two subarrays in a bank. -/
def twoSubArrays : Params :=
  { Params.defaults with
    subArrayNum := 2, queueModel := .perSubArray, subArrayNum_pos := Nat.two_pos
    scheme_valid := nofun }

/-- A memory that lets a rank be powered down. -/
def poweringDown : Child where
  isIssuable c := c.type == .powerdownPDPF

/-- A read of the second subarray is queued. In the same cycle, the rank is powered down. -/
theorem powered_down_with_work : ∃ s t : MemoryController,
    Run (Steps (advance twoSubArrays)) (init twoSubArrays)
      [.issueMemoryCommands RowSystem.ready { RowSystem.readRow with subarray := 1 }] s ∧
    s.rankQueueEmpty twoSubArrays 0 = true ∧ ¬ s.RankIdle twoSubArrays 0 ∧
    s.rankPowerDown 0 = false ∧
    Run (Steps (advance twoSubArrays)) s [.cycleCommandQueues poweringDown] t ∧
    t.rankPowerDown 0 = true ∧
    (t.commandQueues (twoSubArrays.getCommandQueueId ⟨0, 0⟩ 1)).map (·.type) =
      [.activate, .read] := by
  obtain ⟨s, hrun, hs⟩ := exists_run_of_any (advance twoSubArrays) (init twoSubArrays)
    [.issueMemoryCommands RowSystem.ready { RowSystem.readRow with subarray := 1 }]
    (fun s => s.rankQueueEmpty twoSubArrays 0 &&
      !(s.commandQueues (twoSubArrays.getCommandQueueId ⟨0, 0⟩ 1)).isEmpty &&
      !s.rankPowerDown 0 &&
      (exec (advance twoSubArrays) s [.cycleCommandQueues poweringDown]).any
        fun t : MemoryController => t.rankPowerDown 0 &&
          decide ((t.commandQueues (twoSubArrays.getCommandQueueId ⟨0, 0⟩ 1)).map (·.type) =
            [.activate, .read])) (by decide +kernel)
  simp only [Bool.and_eq_true, Bool.not_eq_true'] at hs
  obtain ⟨⟨⟨hempty, hwork⟩, hup⟩, hnext⟩ := hs
  obtain ⟨t, ht, hdown⟩ := exists_run_of_any _ _ _ _ hnext
  rw [Bool.and_eq_true, decide_eq_true_eq] at hdown
  refine ⟨s, t, hrun, hempty, fun hidle => ?_, hup, ht, hdown⟩
  have hnone := hidle 0 (by decide) 1 (by decide)
  simp [hnone] at hwork

end MemoryController

end HybridMemory.NVMain.MemControl

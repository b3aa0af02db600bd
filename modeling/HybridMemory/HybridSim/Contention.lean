import HybridMemory.Lib.Registry
import HybridMemory.HybridSim.HybridSystem

/-!
# Pages that are locked

`pending_pages` has an entry for each page that is moved, which counts the memories it is still
moved by, and one for the page it replaces. `contention_unlock` is called whenever one of them
is done, and has an effect if the counter is zero, or if there is none.

* `entries_contentionIncrement`, `entries_contentionDecrement`: the table with another counter;
* `contentionUnlock_cases`: what `contention_unlock` can do;
* `contentionUnlock_of_notMem`, `contentionUnlock_of_pos`, `contentionUnlock_of_zero`: its three
  cases.
-/

namespace HybridMemory.HybridSim

open HybridSystem Registry

variable {σ : Type} {cfg : Config} {s u : HybridSystem σ} {e : Multiset (Σ _ : ℕ, ℕ)}
  {n a line : ℕ}

theorem entries_contentionIncrement
    (h : s.pendingPages.entries = ⟨cfg.pageAddress a, n⟩ ::ₘ e) :
    (s.contentionIncrement cfg a).pendingPages.entries = ⟨cfg.pageAddress a, n + 1⟩ ::ₘ e := by
  rw [contentionIncrement, lookup_of_cons h]
  exact entries_insert_of_cons h

theorem entries_contentionDecrement
    (h : s.pendingPages.entries = ⟨cfg.pageAddress a, n + 1⟩ ::ₘ e) :
    (s.contentionDecrement cfg a).pendingPages.entries = ⟨cfg.pageAddress a, n⟩ ::ₘ e := by
  rw [contentionDecrement, lookup_of_cons h]
  exact entries_insert_of_cons h

/-- Either the page is still being moved and nothing changes, or the locks are released. -/
theorem contentionUnlock_cases {victimValid lineValid : Bool} {victimPage : ℕ}
    (h : s.contentionUnlock cfg a victimValid victimPage lineValid line = some u) :
    u = s ∨ ∃ pages, u = { s with pendingPages := pages }.release cfg a lineValid line := by
  simp only [contentionUnlock] at h
  split at h
  · obtain ⟨-, ⟨⟩⟩ := Option.ite_none_right_eq_some.mp h
    exact Or.inr ⟨s.pendingPages, rfl⟩
  · obtain ⟨-, h⟩ := Option.ite_none_right_eq_some.mp h
    obtain ⟨v, hv, rfl⟩ := Option.map_eq_some_iff.mp h
    split at hv
    · obtain ⟨-, ⟨⟩⟩ := Option.ite_none_right_eq_some.mp hv
      exact Or.inr ⟨_, rfl⟩
    · obtain rfl := Option.some.inj hv
      exact Or.inr ⟨_, rfl⟩
  · exact Or.inl (Option.some.inj h).symm

/-- Only the flash address was locked. -/
theorem contentionUnlock_of_notMem {victimPage : ℕ} {lineValid : Bool}
    (h : cfg.pageAddress a ∉ s.pendingPages) :
    s.contentionUnlock cfg a false victimPage lineValid line =
      if a ∈ s.pendingFlashAddr then some (s.release cfg a lineValid line) else none := by
  simp [contentionUnlock, Finmap.lookup_eq_none.mpr h]

theorem eq_release {victimPage : ℕ} {lineValid : Bool}
    (hu : s.contentionUnlock cfg a false victimPage lineValid line = some u)
    (h : cfg.pageAddress a ∉ s.pendingPages) : u = s.release cfg a lineValid line := by
  rw [contentionUnlock_of_notMem h] at hu
  exact (Option.some.inj (Option.ite_none_right_eq_some.mp hu).2).symm

/-- The page is still being moved. -/
theorem contentionUnlock_of_pos {victimValid : Bool} {victimPage : ℕ} {lineValid : Bool}
    (h : s.pendingPages.entries = ⟨cfg.pageAddress a, n + 1⟩ ::ₘ e) :
    s.contentionUnlock cfg a victimValid victimPage lineValid line = some s := by
  simp [contentionUnlock, lookup_of_cons h]

/-- The page was moved, and is unlocked together with the page that it replaced. -/
theorem contentionUnlock_of_zero {victimValid : Bool} {victimPage : ℕ} (lineValid : Bool)
    (line : ℕ) (h : s.pendingPages.entries = ⟨cfg.pageAddress a, 0⟩ ::ₘ
      ((if victimValid then {⟨victimPage, 0⟩} else 0) + e)) :
    ∃ pages : Finmap (fun _ : ℕ => ℕ), pages.entries = e ∧
      s.contentionUnlock cfg a victimValid victimPage lineValid line =
        if a ∈ s.pendingFlashAddr then
          some ({ s with pendingPages := pages }.release cfg a lineValid line)
        else none := by
  have herase := entries_erase_of_cons h
  cases victimValid with
  | false =>
    refine ⟨_, herase.trans (by simp), ?_⟩
    simp [contentionUnlock, lookup_of_cons h]
  | true =>
    have herase : (s.pendingPages.erase (cfg.pageAddress a)).entries = ⟨victimPage, 0⟩ ::ₘ e := by
      rw [herase, if_pos rfl, Multiset.singleton_add]
    refine ⟨_, entries_erase_of_cons herase, ?_⟩
    have hmem : victimPage ∈ s.pendingPages.erase (cfg.pageAddress a) :=
      Finmap.mem_of_lookup_eq_some (lookup_of_cons herase)
    simp [contentionUnlock, lookup_of_cons h, contentionVictimUnlock, hmem]

theorem exists_eq_release {victimValid : Bool} {victimPage : ℕ} {lineValid : Bool}
    (hu : s.contentionUnlock cfg a victimValid victimPage lineValid line = some u)
    (h : s.pendingPages.entries = ⟨cfg.pageAddress a, 0⟩ ::ₘ
      ((if victimValid then {⟨victimPage, 0⟩} else 0) + e)) :
    ∃ pages : Finmap (fun _ : ℕ => ℕ), pages.entries = e ∧
      u = { s with pendingPages := pages }.release cfg a lineValid line := by
  obtain ⟨pages, hpages, heq⟩ := contentionUnlock_of_zero lineValid line h
  rw [heq] at hu
  exact ⟨pages, hpages, (Option.some.inj (Option.ite_none_right_eq_some.mp hu).2).symm⟩

end HybridMemory.HybridSim

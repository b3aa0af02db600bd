import Mathlib.Data.List.Nodup
import Mathlib.Data.Option.Basic
import Mathlib.Logic.Function.Basic

/-!
# Commands to a family of objects

`broadcast f next continues jobs s` hands jobs to the members of a family `s : ι → σ`, one
after the other. A job names its member, the member's answer holds the object it has become,
and an answer that does not continue ends the loop. Members not named by a job stay as they
are, so distinct members do not disturb each other:

* `forall_of_broadcast`: what holds of every member at the start, and of the object in every
  answer, holds of every member afterwards;
* `broadcast_of_nodup`: if no member is named twice, each job meets its member as it was at
  the start;
* `of_broadcast_of_nodup`: and each member named becomes what its answer holds;
* `nodup_of_broadcast`: if no member continues twice, a loop that runs to its end named no
  member twice, and each job met its member as it was at the start.
-/

namespace Broadcast

open Function

variable {ι ρ σ ω : Type*} [DecidableEq ι]

/-- Hand over the jobs in order, until an answer does not continue: the family afterwards,
the answers, and the jobs that were not reached. -/
def broadcast (f : ι → ρ → σ → Option ω) (next : ω → σ) (continues : ω → Bool) :
    List (ι × ρ) → (ι → σ) → Option ((ι → σ) × List ω × List (ι × ρ))
  | [], s => some (s, [], [])
  | job :: jobs, s =>
    (f job.1 job.2 (s job.1)).bind fun w =>
      let s := update s job.1 (next w)
      if continues w then
        (broadcast f next continues jobs s).map fun out => (out.1, w :: out.2.1, out.2.2)
      else some (s, [w], jobs)

variable {f : ι → ρ → σ → Option ω} {next : ω → σ} {continues : ω → Bool}
  {jobs : List (ι × ρ)} {s : ι → σ}

/-- **The invariant rule.** What holds of every member at the start, and of every object that
an answer holds, holds of every member afterwards. -/
theorem forall_of_broadcast {P : σ → Prop} {t : ι → σ} {ws : List ω} {rest : List (ι × ρ)}
    (hs : ∀ i, P (s i)) (h : broadcast f next continues jobs s = some (t, ws, rest))
    (hws : ∀ w ∈ ws, P (next w)) : ∀ i, P (t i) := by
  induction jobs generalizing s ws with
  | nil =>
    cases h
    exact hs
  | cons job jobs ih =>
    simp only [broadcast, Option.bind_eq_some_iff] at h
    obtain ⟨w, -, h⟩ := h
    have hupdate : P (next w) → ∀ i, P (update s job.1 (next w) i) := fun hw =>
      (Function.forall_update_iff s fun _ => P).mpr ⟨hw, fun i _ => hs i⟩
    split at h
    next hcont =>
      obtain ⟨⟨t', ws', rest'⟩, hrec, heq⟩ := Option.map_eq_some_iff.mp h
      cases heq
      exact ih (hupdate (hws w List.mem_cons_self)) hrec fun v hv =>
        hws v (List.mem_cons_of_mem _ hv)
    next hcont =>
      cases h
      exact hupdate (hws w (List.mem_singleton_self w))

/-- Jobs for distinct members, each of which continues from the member as it is, are all
reached. -/
theorem broadcast_of_nodup (next : ω → σ) (continues : ω → Bool) (answer : ι × ρ → ω)
    (hnodup : (jobs.map Prod.fst).Nodup)
    (hf : ∀ job ∈ jobs, f job.1 job.2 (s job.1) = some (answer job) ∧ continues (answer job)) :
    ∃ t, broadcast f next continues jobs s = some (t, jobs.map answer, []) := by
  induction jobs generalizing s with
  | nil => exact ⟨s, rfl⟩
  | cons job jobs ih =>
    obtain ⟨hhead, htail⟩ := List.nodup_cons.mp hnodup
    obtain ⟨hjob, hgo⟩ := hf job List.mem_cons_self
    -- the later jobs name other members, which the update of this one leaves alone
    have hne : ∀ other ∈ jobs, other.1 ≠ job.1 := fun other hother heq =>
      hhead (heq ▸ List.mem_map_of_mem hother)
    obtain ⟨t, ht⟩ := ih (s := update s job.1 (next (answer job)))
      htail fun other hother => by
        rw [update_of_ne (hne other hother)]
        exact hf other (List.mem_cons_of_mem _ hother)
    exact ⟨t, by simp [broadcast, hjob, hgo, ht]⟩

/-- What a loop over distinct members has done, if every answer continues: all jobs were
reached, each found its member as it was at the start, and the other members are unchanged. -/
theorem of_broadcast_of_nodup {t : ι → σ} {ws : List ω} {rest : List (ι × ρ)}
    (hnodup : (jobs.map Prod.fst).Nodup)
    (hgo : ∀ job ∈ jobs, ∀ w, f job.1 job.2 (s job.1) = some w → continues w)
    (h : broadcast f next continues jobs s = some (t, ws, rest)) :
    (rest = [] ∧ ∀ w ∈ ws, continues w) ∧
      (∀ job ∈ jobs, ∃ w, f job.1 job.2 (s job.1) = some w ∧ t job.1 = next w) ∧
      ∀ i, i ∉ jobs.map Prod.fst → t i = s i := by
  induction jobs generalizing s ws with
  | nil =>
    cases h
    simp
  | cons job jobs ih =>
    obtain ⟨hhead, htail⟩ := List.nodup_cons.mp hnodup
    have hne : ∀ other ∈ jobs, other.1 ≠ job.1 := fun other hother heq =>
      hhead (heq ▸ List.mem_map_of_mem hother)
    simp only [broadcast, Option.bind_eq_some_iff] at h
    obtain ⟨w, hw, h⟩ := h
    have hcont := hgo job List.mem_cons_self w hw
    rw [if_pos hcont] at h
    obtain ⟨⟨t', ws', rest'⟩, hrec, heq⟩ := Option.map_eq_some_iff.mp h
    cases heq
    obtain ⟨⟨hrest, hws⟩, hjobs, hother⟩ := ih htail (fun other hother => by
      rw [update_of_ne (hne other hother)]
      exact hgo other (List.mem_cons_of_mem _ hother)) hrec
    refine ⟨⟨hrest, List.forall_mem_cons.mpr ⟨hcont, hws⟩⟩,
      List.forall_mem_cons.mpr ⟨⟨w, hw, ?_⟩, fun other hmem => ?_⟩, fun i hi => ?_⟩
    · rw [hother job.1 hhead, update_self]
    · obtain ⟨v, hv, ht⟩ := hjobs other hmem
      rw [update_of_ne (hne other hmem)] at hv
      exact ⟨v, hv, ht⟩
    · simp only [List.map_cons, List.mem_cons, not_or] at hi
      rw [hother i hi.2, update_of_ne hi.1]

/-- What a loop that ran to its end did first. -/
private theorem broadcast_cons_eq_some {job : ι × ρ} {t : ι → σ} {ws : List ω}
    {rest : List (ι × ρ)} (h : broadcast f next continues (job :: jobs) s = some (t, ws, rest))
    (hgo : ∀ w ∈ ws, continues w) :
    ∃ w ws', f job.1 job.2 (s job.1) = some w ∧ continues w ∧ (∀ w ∈ ws', continues w) ∧
      broadcast f next continues jobs (update s job.1 (next w)) =
        some (t, ws', rest) := by
  simp only [broadcast, Option.bind_eq_some_iff] at h
  obtain ⟨w, hw, h⟩ := h
  split at h
  next hcont =>
    obtain ⟨⟨t', ws', rest'⟩, hrec, heq⟩ := Option.map_eq_some_iff.mp h
    cases heq
    exact ⟨w, ws', hw, hcont, fun v hv => hgo v (List.mem_cons_of_mem _ hv), hrec⟩
  next hcont =>
    cases h
    exact absurd (hgo w (List.mem_singleton_self w)) hcont

/-- A member that no longer continues is not named in a loop that ran to its end. -/
private theorem not_mem_of_broadcast {i : ι} {t : ι → σ} {ws : List ω} {rest : List (ι × ρ)}
    (hspent : ∀ job ∈ jobs, job.1 = i → ∀ w, f i job.2 (s i) = some w → ¬ continues w)
    (h : broadcast f next continues jobs s = some (t, ws, rest))
    (hgo : ∀ w ∈ ws, continues w) : i ∉ jobs.map Prod.fst := by
  induction jobs generalizing s ws with
  | nil => simp
  | cons job jobs ih =>
    obtain ⟨w, ws', hw, hcont, hgo', hrec⟩ := broadcast_cons_eq_some h hgo
    have hne : i ≠ job.1 := by
      rintro rfl
      exact hspent job List.mem_cons_self rfl w hw hcont
    have htail := ih (fun other hother => by
      rw [update_of_ne hne]
      exact hspent other (List.mem_cons_of_mem _ hother)) hrec hgo'
    simpa [hne] using htail

/-- If no member continues twice, a loop that ran to its end named no member twice, and each
job was met by its member as it was at the start. -/
theorem nodup_of_broadcast {t : ι → σ} {ws : List ω} {rest : List (ι × ρ)}
    (honce : ∀ job ∈ jobs, ∀ x w, f job.1 job.2 x = some w → continues w →
      ∀ job' ∈ jobs, job'.1 = job.1 → ∀ w', f job.1 job'.2 (next w) = some w' → ¬ continues w')
    (h : broadcast f next continues jobs s = some (t, ws, rest))
    (hgo : ∀ w ∈ ws, continues w) :
    (jobs.map Prod.fst).Nodup ∧ ∀ job ∈ jobs, (f job.1 job.2 (s job.1)).isSome := by
  induction jobs generalizing s ws with
  | nil => simp
  | cons job jobs ih =>
    obtain ⟨w, ws', hw, hcont, hgo', hrec⟩ := broadcast_cons_eq_some h hgo
    obtain ⟨hnodup, hsome⟩ := ih (fun job₁ h₁ x w hw hcont job₂ h₂ =>
      honce job₁ (List.mem_cons_of_mem _ h₁) x w hw hcont job₂ (List.mem_cons_of_mem _ h₂))
      hrec hgo'
    have hfresh : job.1 ∉ jobs.map Prod.fst :=
      not_mem_of_broadcast (fun other hother => by
        rw [update_self]
        exact honce job List.mem_cons_self _ w hw hcont other (List.mem_cons_of_mem _ hother))
        hrec hgo'
    refine ⟨List.nodup_cons.mpr ⟨hfresh, hnodup⟩, fun other hother => ?_⟩
    rcases List.mem_cons.mp hother with rfl | hother
    · simp [hw]
    · have hne : other.1 ≠ job.1 := fun heq => hfresh (heq ▸ List.mem_map_of_mem hother)
      simpa [update_of_ne hne] using hsome other hother

end Broadcast

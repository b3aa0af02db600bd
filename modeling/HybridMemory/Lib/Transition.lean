import Mathlib.Data.List.Basic
import Mathlib.Logic.Function.Iterate
import Mathlib.Logic.Relation
import Mathlib.Order.Defs.PartialOrder

/-!
# Labelled runs and their invariants

A component is a state type together with a labelled step relation
`step : σ → α → σ → Prop`. `Run step s as t` says that the actions `as`, taken in order,
lead from `s` to `t`; the rules below are the only inductions over runs that the rest of
the development performs:

* `Run.invariant`: what every step preserves holds in every state a run reaches;
* `forall_visits_iff`: a condition on the steps of a run is exact for a property of the
  states it visits;
* `forall_visitsThen_le_iff`: and a condition on the steps is exact for a measure that never
  goes down during a run;
* `run_steps_iff`, `run_guarded_iff`: runs of a partial step function are evaluations;
* `exec_total`: steps that succeed and keep an invariant can be taken for ever;
* `iterate_done_iff`: a loop with a measure ends if and only if it never hangs.

A condition on the steps of a run is expressed by restricting the relation, with
`Guarded G step`.
-/

namespace Transition

open Function

universe u v w

variable {σ : Type u} {α : Type v} {τ : Type w}

/-- `Run step s as t`: the actions `as` lead from `s` to `t`, one step each. -/
def Run (step : σ → α → σ → Prop) : σ → List α → σ → Prop
  | s, [], t => s = t
  | s, a :: as, t => ∃ s', step s a s' ∧ Run step s' as t

/-- The steps of `step` that meet the condition `G` on the state before the step and the
action taken. -/
def Guarded (G : σ → α → Prop) (step : σ → α → σ → Prop) : σ → α → σ → Prop :=
  fun s a t => G s a ∧ step s a t

variable {step : σ → α → σ → Prop} {s t u : σ} {a : α} {as : List α}

@[simp] theorem run_nil : Run step s [] t ↔ s = t := Iff.rfl

@[simp] theorem run_cons : Run step s (a :: as) t ↔ ∃ s', step s a s' ∧ Run step s' as t :=
  Iff.rfl

/-- A run of two lists of actions is a run of each, one after the other. -/
theorem run_append {bs : List α} :
    Run step s (as ++ bs) t ↔ ∃ u, Run step s as u ∧ Run step u bs t := by
  induction as generalizing s with
  | nil => simp
  | cons a as ih =>
    simp only [List.cons_append, run_cons, ih]
    constructor
    · rintro ⟨s', hs', u, hu, ht⟩
      exact ⟨u, ⟨s', hs', hu⟩, ht⟩
    · rintro ⟨u, ⟨s', hs', hu⟩, ht⟩
      exact ⟨s', hs', u, hu, ht⟩

/-- **The invariant rule.** A predicate that holds at the start and that every step
preserves holds in every state the run reaches. -/
theorem Run.invariant {P : σ → Prop} (h : Run step s as t) (h0 : P s)
    (hstep : ∀ s a t, P s → step s a t → P t) : P t := by
  induction as generalizing s with
  | nil => exact run_nil.mp h ▸ h0
  | cons a as ih =>
    obtain ⟨s', hs', hrun⟩ := h
    exact ih hrun (hstep s a s' h0 hs')

/-- Weakening the condition on the steps keeps a run a run. -/
theorem Run.mono {step' : σ → α → σ → Prop} (h : Run step s as t)
    (hle : ∀ s a t, step s a t → step' s a t) : Run step' s as t := by
  induction as generalizing s with
  | nil => exact h
  | cons a as ih =>
    obtain ⟨s', hs', hrun⟩ := h
    exact ⟨s', hle s a s' hs', ih hrun⟩

theorem Run.of_guarded {G : σ → α → Prop} (h : Run (Guarded G step) s as t) : Run step s as t :=
  h.mono fun _ _ _ hstep => hstep.2

/-- A condition on the actions alone is a condition on the list of actions. -/
theorem run_guarded_iff_forall {A : α → Prop} :
    Run (Guarded (fun _ a => A a) step) s as t ↔ Run step s as t ∧ ∀ a ∈ as, A a := by
  induction as generalizing s with
  | nil => simp
  | cons a as ih =>
    simp only [run_cons, ih, Guarded, List.forall_mem_cons]
    constructor
    · rintro ⟨s', ⟨ha, hs'⟩, hrun, hall⟩
      exact ⟨⟨s', hs', hrun⟩, ha, hall⟩
    · rintro ⟨⟨s', hs', hrun⟩, ha, hall⟩
      exact ⟨s', ⟨ha, hs'⟩, hrun, hall⟩

/-- What every step of a relation preserves, finitely many steps preserve. -/
theorem invariant_of_reflTransGen {r : τ → τ → Prop} {P : τ → Prop}
    (hstep : ∀ x y, P x → r x y → P y) {x y : τ} (h : Relation.ReflTransGen r x y) (hx : P x) :
    P y := by
  induction h with
  | refl => exact hx
  | tail _ hyz ih => exact hstep _ _ ih hyz

/-! ### Executable runs -/

/-- The step relation of a partial step function. -/
def Steps (f : σ → α → Option σ) : σ → α → σ → Prop :=
  fun s a t => f s a = some t

/-- The step function that refuses the steps which do not meet the condition `G`. -/
def restrict (G : σ → α → Prop) [∀ s a, Decidable (G s a)] (f : σ → α → Option σ) :
    σ → α → Option σ :=
  fun s a => if G s a then f s a else none

/-- Run a partial step function over a list of actions. -/
def exec (f : σ → α → Option σ) : σ → List α → Option σ
  | s, [] => some s
  | s, a :: as => (f s a).bind fun t => exec f t as

variable {f : σ → α → Option σ}

/-- Evaluation and runs agree for a partial step function. -/
theorem run_steps_iff : Run (Steps f) s as t ↔ exec f s as = some t := by
  induction as generalizing s with
  | nil => simp [exec]
  | cons a as ih => simp [exec, Steps, Option.bind_eq_some_iff, ih]

theorem run_guarded_cons_iff {G : σ → α → Prop} (h : f s a = some u) :
    Run (Guarded G (Steps f)) s (a :: as) t ↔ G s a ∧ Run (Guarded G (Steps f)) u as t := by
  constructor
  · rintro ⟨u', ⟨hG, hu'⟩, hrun⟩
    obtain rfl := Option.some.inj (h.symm.trans hu')
    exact ⟨hG, hrun⟩
  · rintro ⟨hG, hrun⟩
    exact ⟨u, ⟨hG, h⟩, hrun⟩

/-- Along a run of steps with `H`, the conditions `G` and `G'` come to the same if they do in
the states that the invariant `I` describes, and steps with both `H` and `G` keep it. -/
theorem run_guarded_congr {G G' H : σ → α → Prop} {I : σ → Prop}
    (hkeep : ∀ s a t, I s → f s a = some t → H s a → G s a → I t)
    (hiff : ∀ s a t, I s → f s a = some t → H s a → (G s a ↔ G' s a)) (hs : I s)
    (h : Run (Guarded H (Steps f)) s as t) :
    Run (Guarded G (Steps f)) s as t ↔ Run (Guarded G' (Steps f)) s as t := by
  induction as generalizing s with
  | nil => exact Iff.rfl
  | cons a as ih =>
    obtain ⟨u, ⟨hH, hu⟩, hrun⟩ := h
    rw [run_guarded_cons_iff hu, run_guarded_cons_iff hu, ← hiff s a u hs hu hH]
    exact and_congr_right fun hG => ih (hkeep s a u hs hu hH hG) hrun

/-- Evaluation and runs agree for the steps that meet a decidable condition. -/
theorem run_guarded_iff {G : σ → α → Prop} [∀ s a, Decidable (G s a)] :
    Run (Guarded G (Steps f)) s as t ↔ exec (restrict G f) s as = some t := by
  have heq : Guarded G (Steps f) = Steps (restrict G f) := by
    funext s a t
    simp [Guarded, Steps, restrict]
  rw [heq, run_steps_iff]

/-- **Progress with an invariant.** If every action succeeds from the states that meet `P`
and leads to such a state again, then every list of actions can be run. -/
theorem exec_total {P : σ → Prop} (hstep : ∀ s a, P s → ∃ t, f s a = some t ∧ P t)
    (h : P s) (as : List α) : ∃ t, exec f s as = some t ∧ P t := by
  induction as generalizing s with
  | nil => exact ⟨s, rfl, h⟩
  | cons a as ih =>
    obtain ⟨t, ht, hPt⟩ := hstep s a h
    obtain ⟨u, hu, hPu⟩ := ih hPt
    exact ⟨u, by rw [exec, ht]; exact hu, hPu⟩

/-! ### Loops that end or hang -/

/-- **Loops that end or hang.** A loop whose iterations lower a measure, as long as it neither is
done nor hangs, ends if and only if it never hangs; then it takes no more iterations than the
measure says. -/
theorem iterate_done_iff {f : σ → σ} {Done Stuck I : σ → Prop} (rank : σ → ℕ)
    (hdone : ∀ s, Done s → f s = s) (hstuck : ∀ s, Stuck s → ¬ Done s ∧ Stuck (f s))
    (hstep : ∀ s, I s → ¬ Done s → ¬ Stuck s → I (f s) ∧ rank (f s) < rank s) (hs : I s) :
    ((∃ n, Done (f^[n] s)) ↔ ∀ n, ¬ Stuck (f^[n] s)) ∧
      ((∀ n, ¬ Stuck (f^[n] s)) → Done (f^[rank s] s)) := by
  have hends : ∀ m s, rank s ≤ m → I s → (∀ n, ¬ Stuck (f^[n] s)) → Done (f^[m] s) := by
    intro m
    induction m with
    | zero =>
      intro s hm hs hnever
      by_contra hnot
      have hlt := (hstep s hs hnot (hnever 0)).2
      omega
    | succ m ih =>
      intro s hm hs hnever
      by_cases hd : Done s
      · rwa [iterate_fixed (hdone s hd)]
      · obtain ⟨hfs, hlt⟩ := hstep s hs hd (hnever 0)
        exact ih (f s) (by omega) hfs fun n => hnever (n + 1)
  refine ⟨⟨?_, fun hnever => ⟨_, hends _ s (Nat.le_refl _) hs hnever⟩⟩,
    hends _ s (Nat.le_refl _) hs⟩
  rintro ⟨n, hn⟩ m hm
  rcases Nat.le_total n m with hle | hle
  · obtain ⟨k, rfl⟩ := Nat.exists_eq_add_of_le' hle
    rw [iterate_add_apply, iterate_fixed (hdone _ hn)] at hm
    exact (hstuck _ hm).1 hn
  · -- a loop that hangs goes on hanging
    have hlater : ∀ k, Stuck (f^[m + k] s) := fun k => by
      induction k with
      | zero => exact hm
      | succ k ih =>
        rw [← Nat.add_assoc, iterate_succ_apply']
        exact (hstuck _ ih).2
    obtain ⟨k, rfl⟩ := Nat.exists_eq_add_of_le hle
    exact (hstuck _ (hlater k)).1 hn

/-! ### Exact conditions -/

/-- The run of the actions `as` from `s` passes through `t`. -/
def Visits (step : σ → α → σ → Prop) (s : σ) (as : List α) (t : σ) : Prop :=
  ∃ bs, bs <+: as ∧ Run step s bs t

theorem visits_start : Visits step s as s := ⟨[], List.nil_prefix, run_nil.mpr rfl⟩

theorem Visits.cons (h : step s a u) (hv : Visits step u as t) : Visits step s (a :: as) t := by
  obtain ⟨bs, hbs, hrun⟩ := hv
  exact ⟨a :: bs, List.cons_prefix_cons.mpr ⟨rfl, hbs⟩, u, h, hrun⟩

/-- What a run of a partial step function visits after its first step. -/
theorem visits_cons_iff (h : f s a = some u) :
    Visits (Steps f) s (a :: as) t ↔ t = s ∨ Visits (Steps f) u as t := by
  constructor
  · rintro ⟨bs, hbs, hrun⟩
    cases bs with
    | nil => exact Or.inl (run_nil.mp hrun).symm
    | cons b bs =>
      obtain ⟨rfl, hprefix⟩ := List.cons_prefix_cons.mp hbs
      obtain ⟨u', hu', hrun⟩ := hrun
      obtain rfl : u = u' := Option.some.inj (h.symm.trans hu')
      exact Or.inr ⟨bs, hprefix, hrun⟩
  · rintro (rfl | hv)
    · exact visits_start
    · exact Visits.cons h hv

/-- **Exact conditions.** If, among the steps that meet `H`, those that meet `G` keep an invariant
which implies `P`, and the others make `P` fail, then `P` holds in all states of a run of steps that
meet `H` if and only if all its steps meet `G`. -/
theorem forall_visits_iff_of_guarded {G H : σ → α → Prop} {I P : σ → Prop} (hP : ∀ s, I s → P s)
    (hgood : ∀ s a t, I s → f s a = some t → H s a → G s a → I t)
    (hbad : ∀ s a t, I s → f s a = some t → H s a → ¬ G s a → ¬ P t)
    (hs : I s) (h : Run (Guarded H (Steps f)) s as t) :
    (∀ u, Visits (Steps f) s as u → P u) ↔ Run (Guarded G (Steps f)) s as t := by
  induction as generalizing s with
  | nil =>
    refine ⟨fun _ => h, ?_⟩
    rintro - u ⟨bs, hbs, hrun⟩
    obtain rfl := List.prefix_nil.mp hbs
    exact run_nil.mp hrun ▸ hP s hs
  | cons a as ih =>
    obtain ⟨s', ⟨hH, hs'⟩, hrun⟩ := h
    simp only [run_guarded_cons_iff hs', visits_cons_iff hs', forall_eq_or_imp]
    by_cases hG : G s a
    · rw [ih (hgood s a s' hs hs' hH hG) hrun]
      exact and_congr_left' (iff_of_true (hP s hs) hG)
    · exact iff_of_false (fun hall => hbad s a s' hs hs' hH hG (hall.2 s' visits_start))
        fun hguard => hG hguard.1

/-- What the steps that meet `G` keep holds in all states of a run of such steps. -/
theorem Run.forall_visits {G : σ → α → Prop} {I : σ → Prop}
    (hgood : ∀ s a t, I s → f s a = some t → G s a → I t) (hs : I s)
    (h : Run (Guarded G (Steps f)) s as t) : ∀ u, Visits (Steps f) s as u → I u :=
  (forall_visits_iff_of_guarded (G := G) (fun _ => id)
    (fun s a t hs ht _ => hgood s a t hs ht) (fun _ _ _ _ _ hG hnot => absurd hG hnot) hs h).mpr h

/-- The condition is exact for all runs if it is for all steps. -/
theorem forall_visits_iff {G : σ → α → Prop} {I P : σ → Prop} (hP : ∀ s, I s → P s)
    (hgood : ∀ s a t, I s → f s a = some t → G s a → I t)
    (hbad : ∀ s a t, I s → f s a = some t → ¬ G s a → ¬ P t)
    (hs : I s) (h : Run (Steps f) s as t) :
    (∀ u, Visits (Steps f) s as u → P u) ↔ Run (Guarded G (Steps f)) s as t :=
  forall_visits_iff_of_guarded (H := fun _ _ => True) hP
    (fun s a t hs ht _ => hgood s a t hs ht) (fun s a t hs ht _ => hbad s a t hs ht) hs
    (h.mono fun _ _ _ hstep => ⟨trivial, hstep⟩)

/-- The run of the actions `as` from `s` passes through `u`, and then or later through `v`. -/
def VisitsThen (step : σ → α → σ → Prop) (s : σ) (as : List α) (u v : σ) : Prop :=
  ∃ bs cs, bs ++ cs <+: as ∧ Run step s bs u ∧ Run step u cs v

theorem VisitsThen.cons {w : σ} (h : step s a w) (hv : VisitsThen step w as t u) :
    VisitsThen step s (a :: as) t u := by
  obtain ⟨bs, cs, hprefix, hbs, hcs⟩ := hv
  exact ⟨a :: bs, cs, List.cons_prefix_cons.mpr ⟨rfl, hprefix⟩, ⟨w, h, hbs⟩, hcs⟩

/-- The run of a partial step function is determined by its actions. -/
theorem Run.eq_of_steps (ht : Run (Steps f) s as t) (hu : Run (Steps f) s as u) : t = u :=
  Option.some.inj ((run_steps_iff.mp ht).symm.trans (run_steps_iff.mp hu))

/-- A measure that no step lowers is not lowered by a run. -/
theorem Run.le {β : Type*} [Preorder β] {g : σ → β} (h : Run step s as t)
    (hstep : ∀ s a t, step s a t → g s ≤ g t) : g s ≤ g t :=
  h.invariant (P := fun u => g s ≤ g u) le_rfl fun u a v hu huv => le_trans hu (hstep u a v huv)

/-- **Exact conditions for a measure.** If `G` says which steps do not lower the measure `g`,
then `g` never goes down during a run if and only if all steps of the run meet `G`. -/
theorem forall_visitsThen_le_iff {β : Type*} [Preorder β] {G : σ → α → Prop} {g : σ → β}
    (hG : ∀ s a t, f s a = some t → (g s ≤ g t ↔ G s a)) (h : Run (Steps f) s as t) :
    (∀ u v, VisitsThen (Steps f) s as u v → g u ≤ g v) ↔
      Run (Guarded G (Steps f)) s as t := by
  constructor
  · intro hall
    induction as generalizing s with
    | nil => exact h
    | cons a as ih =>
      obtain ⟨s', hs', hrun⟩ := h
      have hle : g s ≤ g s' :=
        hall s s' ⟨[], [a], List.cons_prefix_cons.mpr ⟨rfl, List.nil_prefix⟩, rfl, s', hs', rfl⟩
      exact ⟨s', ⟨(hG s a s' hs').mp hle, hs'⟩,
        ih hrun fun u v huv => hall u v (VisitsThen.cons hs' huv)⟩
  · rintro hguard u v ⟨bs, cs, ⟨ds, rfl⟩, hbs, hcs⟩
    -- the part of the run between the two states consists of steps that meet the condition
    obtain ⟨v', hv', -⟩ := run_append.mp hguard
    obtain ⟨u', hu', hv'⟩ := run_append.mp hv'
    obtain rfl := hbs.eq_of_steps hu'.of_guarded
    obtain rfl := hcs.eq_of_steps hv'.of_guarded
    exact hv'.le fun x a y hxy => (hG x a y hxy.2).mpr hxy.1

/-! ### Evaluation -/

/-- A run to a state that passes a test exists as soon as its evaluation passes it. -/
theorem exists_run_of_any (f : σ → α → Option σ) (s : σ) (as : List α) (p : σ → Bool)
    (h : (exec f s as).any p) : ∃ t, Run (Steps f) s as t ∧ p t := by
  obtain ⟨t, ht, hp⟩ := (Option.any_eq_true p _).mp h
  exact ⟨t, run_steps_iff.mpr ht, hp⟩

/-- A run to a state with a property exists as soon as its evaluation finds the property. -/
theorem exists_run {Q : σ → Prop} [DecidablePred Q] (h : (exec f s as).any (Q ·)) :
    ∃ t, Run (Steps f) s as t ∧ Q t := by
  obtain ⟨t, ht, hQ⟩ := (Option.any_eq_true _ _).mp h
  exact ⟨t, run_steps_iff.mpr ht, of_decide_eq_true hQ⟩

/-- A run may have a property that follows from what its evaluation finds. -/
theorem exists_run_imp {Q : σ → Prop} (P : σ → Prop) [DecidablePred P]
    (h : (exec f s as).any (P ·)) (hQ : ∀ t, Run (Steps f) s as t → P t → Q t) :
    ∃ t, Run (Steps f) s as t ∧ Q t := by
  obtain ⟨t, ht, hP⟩ := exists_run h
  exact ⟨t, ht, hQ t ht hP⟩

/-- A run of steps that meet a condition, in the same way. -/
theorem exists_run_guarded_imp {G : σ → α → Prop} [∀ s a, Decidable (G s a)] {Q : σ → Prop}
    (P : σ → Prop) [DecidablePred P] (h : (exec (restrict G f) s as).any (P ·))
    (hQ : ∀ t, Run (Guarded G (Steps f)) s as t → P t → Q t) :
    ∃ t, Run (Guarded G (Steps f)) s as t ∧ Q t := by
  obtain ⟨t, ht, hP⟩ := exists_run h
  have hrun := run_guarded_iff.mpr (run_steps_iff.mp ht)
  exact ⟨t, hrun, hQ t hrun hP⟩

/-- A run of steps that meet a condition exists as soon as its evaluation succeeds. -/
theorem exists_run_guarded (G : σ → α → Prop) [∀ s a, Decidable (G s a)]
    (f : σ → α → Option σ) (s : σ) (as : List α) (h : (exec (restrict G f) s as).isSome) :
    ∃ t, Run (Guarded G (Steps f)) s as t := by
  obtain ⟨t, ht⟩ := Option.isSome_iff_exists.mp h
  exact ⟨t, run_guarded_iff.mpr ht⟩

end Transition

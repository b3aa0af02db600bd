import Mathlib.Data.Prod.Basic
import Mathlib.Logic.Function.Basic

/-!
# Redirection of pages between channels

A page has a channel and a place within the channel. A redirection table may give a page
another channel, and leaves its place alone. Two pages are exchanged by redirecting each to
the channel of the other one.

If the two pages have the same place, the exchange is a swap, and the redirection stays an
involution (`Involutive.swap`). If they do not, some third page is redirected to, or still
sits at, the location of the first one (`Involutive.not_injective_swap`). So the exchanges
that keep the redirection injective are exactly the swaps.
-/

namespace Redirection

universe u v

variable {κ : Type u} {ρ : Type v}

/-- A table gives some pages another channel. -/
abbrev Table (κ : Type u) (ρ : Type v) := κ × ρ → Option κ

/-- The table that redirects nothing. -/
def Table.empty : Table κ ρ := fun _ => none

/-- Where a page is found. -/
def redirect (σ : Table κ ρ) (p : κ × ρ) : κ × ρ := ((σ p).getD p.1, p.2)

theorem redirect_of_none {σ : Table κ ρ} {p : κ × ρ} (h : σ p = none) : redirect σ p = p := by
  simp [redirect, h]

theorem redirect_of_some {σ : Table κ ρ} {p : κ × ρ} {c : κ} (h : σ p = some c) :
    redirect σ p = (c, p.2) := by
  simp [redirect, h]

/-- Every page is found where the page found there would go. -/
def Involutive (σ : Table κ ρ) : Prop := Function.Involutive (redirect σ)

theorem involutive_empty : Involutive (Table.empty : Table κ ρ) := fun p => by
  simp [redirect, Table.empty]

/-- Pages that a table redirects to a page that it leaves alone are that page. -/
theorem Involutive.eq_of_redirect_eq {σ : Table κ ρ} {p q : κ × ρ} (h : Involutive σ)
    (hp : σ p = none) (hq : redirect σ q = p) : q = p := by
  rw [← h q, hq, redirect_of_none hp]

variable [DecidableEq κ] [DecidableEq ρ]

/-- Exchange two pages. -/
def swap (σ : Table κ ρ) (p d : κ × ρ) : Table κ ρ :=
  Function.update (Function.update σ p (some d.1)) d (some p.1)

section Swap

variable {σ : Table κ ρ} {p d q : κ × ρ}

theorem swap_right : swap σ p d d = some p.1 := Function.update_self _ _ _

theorem swap_left (h : p ≠ d) : swap σ p d p = some d.1 := by
  simp [swap, h]

theorem redirect_swap_of_ne (hp : q ≠ p) (hd : q ≠ d) :
    redirect (swap σ p d) q = redirect σ q := by
  simp [redirect, swap, hp, hd]

/-- **Pages with the same place are swapped.** -/
theorem Involutive.swap (h : Involutive σ) (hp : σ p = none) (hd : σ d = none)
    (hch : p.1 ≠ d.1) (hplace : p.2 = d.2) : Involutive (swap σ p d) := by
  have hne : p ≠ d := fun heq => hch (congrArg Prod.fst heq)
  have hpd : redirect (Redirection.swap σ p d) p = d :=
    (redirect_of_some (swap_left hne)).trans (Prod.ext rfl hplace)
  have hdp : redirect (Redirection.swap σ p d) d = p :=
    (redirect_of_some swap_right).trans (Prod.ext rfl hplace.symm)
  intro q
  by_cases hqp : q = p
  · rw [hqp, hpd, hdp]
  by_cases hqd : q = d
  · rw [hqd, hdp, hpd]
  · rw [redirect_swap_of_ne hqp hqd, redirect_swap_of_ne, h q]
    · exact fun heq => hqp (h.eq_of_redirect_eq hp heq)
    · exact fun heq => hqd (h.eq_of_redirect_eq hd heq)

/-- **Pages with different places collide**: the page that was found at the new location of
`p` is found there still. -/
theorem Involutive.not_injective_swap (h : Involutive σ) (hp : σ p = none)
    (hch : p.1 ≠ d.1) (hplace : p.2 ≠ d.2) :
    redirect σ (d.1, p.2) ≠ p ∧
      redirect (Redirection.swap σ p d) (redirect σ (d.1, p.2)) =
        redirect (Redirection.swap σ p d) p := by
  have hne : p ≠ d := fun heq => hch (congrArg Prod.fst heq)
  have hqp : redirect σ (d.1, p.2) ≠ p := fun heq =>
    hch (congrArg Prod.fst (h.eq_of_redirect_eq hp heq)).symm
  have hqd : redirect σ (d.1, p.2) ≠ d := fun heq => by
    have : (redirect σ (d.1, p.2)).2 = d.2 := by rw [heq]
    exact hplace this
  refine ⟨hqp, ?_⟩
  rw [redirect_swap_of_ne hqp hqd, h (d.1, p.2), redirect_of_some (swap_left hne)]

end Swap

end Redirection

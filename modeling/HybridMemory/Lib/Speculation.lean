import Mathlib.Data.List.Basic

/-!
# Predictions ahead of a queue of commands

A device executes the commands of a queue in order. Whoever fills the queue keeps a
prediction of the state in which the device will be when the queue is empty, and chooses new
commands by this prediction.

* `Predicts exec legal queue actual predicted`: executing the queue from the actual state ends
  in the predicted one, and every command is legal when its turn comes;
* `Predicts.append`, `Predicts.pop`: the prediction stays right when commands are appended
  that are legal from it, and when the device executes the first command.
-/

namespace Speculation

universe u v

variable {σ : Type u} {α : Type v} {exec : α → σ → σ} {legal : α → σ → Prop}

/-- Execute commands in order. -/
def execAll (exec : α → σ → σ) : List α → σ → σ
  | [], s => s
  | c :: queue, s => execAll exec queue (exec c s)

/-- Each command is legal in the state in which it is executed. -/
def LegalAll (exec : α → σ → σ) (legal : α → σ → Prop) : List α → σ → Prop
  | [], _ => True
  | c :: queue, s => legal c s ∧ LegalAll exec legal queue (exec c s)

@[simp] theorem execAll_nil (s : σ) : execAll exec [] s = s := rfl

@[simp] theorem execAll_cons (c : α) (queue : List α) (s : σ) :
    execAll exec (c :: queue) s = execAll exec queue (exec c s) := rfl

@[simp] theorem legalAll_nil (s : σ) : LegalAll exec legal [] s := trivial

@[simp] theorem legalAll_cons {c : α} {queue : List α} {s : σ} :
    LegalAll exec legal (c :: queue) s ↔ legal c s ∧ LegalAll exec legal queue (exec c s) :=
  Iff.rfl

theorem execAll_append (queue commands : List α) (s : σ) :
    execAll exec (queue ++ commands) s = execAll exec commands (execAll exec queue s) := by
  induction queue generalizing s with
  | nil => rfl
  | cons c queue ih => exact ih (exec c s)

theorem legalAll_append {queue commands : List α} {s : σ} :
    LegalAll exec legal (queue ++ commands) s ↔
      LegalAll exec legal queue s ∧ LegalAll exec legal commands (execAll exec queue s) := by
  induction queue generalizing s with
  | nil => simp
  | cons c queue ih => simp [ih, and_assoc]

/-- Executing the queue leads from the actual to the predicted state, by legal commands. -/
structure Predicts (exec : α → σ → σ) (legal : α → σ → Prop) (queue : List α)
    (actual predicted : σ) : Prop where
  eq : execAll exec queue actual = predicted
  legal : LegalAll exec legal queue actual

namespace Predicts

variable {queue commands : List α} {actual predicted : σ}

theorem nil (s : σ) : Predicts exec legal [] s s := ⟨rfl, trivial⟩

/-- Commands that are legal from the prediction may be appended. -/
theorem append (h : Predicts exec legal queue actual predicted)
    (hlegal : LegalAll exec legal commands predicted) :
    Predicts exec legal (queue ++ commands) actual (execAll exec commands predicted) where
  eq := by rw [execAll_append, h.eq]
  legal := legalAll_append.mpr ⟨h.legal, h.eq ▸ hlegal⟩

/-- The device executes the first command. -/
theorem pop {c : α} (h : Predicts exec legal (c :: queue) actual predicted) :
    Predicts exec legal queue (exec c actual) predicted :=
  ⟨h.eq, h.legal.2⟩

end Predicts

end Speculation

import Mathlib.Data.List.Basic
import Mathlib.Logic.Function.Basic

/-!
# Hooks around an object

A child or a parent of an `NVMObject` is reached through an `NVMObject_hook`, which calls the
hooks registered on the object (its trampoline) before and after the object itself. Hooks are
objects as well: what a call does is an arbitrary change of the world all objects live in.

A hook that is called before the object asks to drop the request by returning `false`. The
loop keeps the wish of the last hook only (`passedOn_issue`).
-/

namespace HybridMemory.NVMain.NVMObjectHook

open Function

/-- The types of hooks. -/
inductive HookType
  | none
  | preIssue
  | postIssue
  | bothIssue
  deriving DecidableEq

/-- The members of the objects `ι` that the call of a hook sets, and everything else. -/
structure World (ι σ : Type) where
  /-- The object at the other end of the member `parent`. -/
  parent : ι → Option ι
  currentHookType : ι → HookType
  rest : σ

/-- A virtual function of the objects that takes a request. -/
abbrev Method (ι σ ρ : Type) := ι → ρ → World ι σ → Bool × World ι σ

/-- The functions of the objects that issue a request. -/
structure Methods (ι σ ρ : Type) where
  issueCommand : Method ι σ ρ
  issueAtomic : Method ι σ ρ
  issueFunctional : Method ι σ ρ

/-- What a call through the hook does: the value it returns, whether the trampoline was called
with the request, and the world afterwards. -/
structure Issued (ι σ : Type) where
  rv : Bool
  passedOn : Bool
  world : World ι σ

section Issue

variable {ι σ ρ : Type} [DecidableEq ι]

/-- The body of both loops: the trampoline is the parent of the hook during the call. -/
def callHook (method : Method ι σ ρ) (trampoline : ι) (h : HookType) (req : ρ) (w : World ι σ)
    (hook : ι) : Bool × World ι σ :=
  let out := method hook req
    { w with
      parent := update w.parent hook (some trampoline)
      currentHookType := update w.currentHookType hook h }
  (out.1, { out.2 with parent := update out.2.parent hook none })

/-- The loop over the hooks before the call, which sets `dropRequest`. -/
def callPreHooks (method : Method ι σ ρ) (trampoline : ι) (req : ρ) :
    List ι → Bool → World ι σ → Bool × World ι σ
  | [], dropRequest, w => (dropRequest, w)
  | hook :: hooks, _, w =>
    let out := callHook method trampoline .preIssue req w hook
    callPreHooks method trampoline req hooks (!out.1) out.2

/-- The three functions that issue a request, with `hookMethod` called on the hooks and
`method` on the trampoline. -/
def issue (hookMethod method : Method ι σ ρ) (trampoline : ι) (preHooks postHooks : List ι)
    (req : ρ) (w : World ι σ) : Issued ι σ :=
  let pre := callPreHooks hookMethod trampoline req preHooks false w
  let out := if pre.1 then (true, pre.2) else method trampoline req pre.2
  { rv := out.1
    passedOn := !pre.1
    world := postHooks.foldl
      (fun w hook => (callHook hookMethod trampoline .postIssue req w hook).2) out.2 }

variable (o : Methods ι σ ρ) (trampoline : ι) (preHooks postHooks : List ι) (req : ρ)
  (w : World ι σ)

/-- `IssueCommand`. -/
def issueCommand : Issued ι σ :=
  issue o.issueCommand o.issueCommand trampoline preHooks postHooks req w

/-- `IssueAtomic`. -/
def issueAtomic : Issued ι σ :=
  issue o.issueAtomic o.issueAtomic trampoline preHooks postHooks req w

/-- `IssueFunctional`, which calls `IssueAtomic` of the hooks. -/
def issueFunctional : Issued ι σ :=
  issue o.issueAtomic o.issueFunctional trampoline preHooks postHooks req w

/-! ### Which requests are passed on -/

/-- What the hooks before the call return, in order. -/
def answers (method : Method ι σ ρ) (trampoline : ι) (req : ρ) :
    List ι → World ι σ → List Bool
  | [], _ => []
  | hook :: hooks, w =>
    let out := callHook method trampoline .preIssue req w hook
    out.1 :: answers method trampoline req hooks out.2

/-- The loop forgets what all hooks but the last one answered. -/
theorem dropRequest_callPreHooks (method : Method ι σ ρ) (hooks : List ι) (dropRequest : Bool) :
    (callPreHooks method trampoline req hooks dropRequest w).1 =
      !((answers method trampoline req hooks w).getLast?.getD !dropRequest) := by
  induction hooks generalizing dropRequest w with
  | nil => simp [callPreHooks, answers]
  | cons hook hooks ih =>
    rw [callPreHooks, answers, ih, List.getLast?_cons, Bool.not_not, Option.getD_some]

/-- A request is passed on unless the last hook refuses it. -/
theorem passedOn_issue (hookMethod method : Method ι σ ρ) :
    (issue hookMethod method trampoline preHooks postHooks req w).passedOn =
      (answers hookMethod trampoline req preHooks w).getLast?.getD true := by
  rw [issue, dropRequest_callPreHooks, Bool.not_not, Bool.not_false]

/-- The last answer speaks for all of them unless a refusal comes before it. -/
theorem getLast_iff_forall (bs : List Bool) :
    (bs.getLast?.getD true = true ↔ ∀ b ∈ bs, b = true) ↔
      (false ∈ bs → bs.getLast? = some false) := by
  have hmem : (∀ b ∈ bs, b = true) ↔ false ∉ bs :=
    ⟨fun h hf => Bool.false_ne_true (h _ hf), fun h b hb => by
      cases b with
      | false => exact absurd hb h
      | true => rfl⟩
  rw [hmem]
  by_cases hf : false ∈ bs
  · rcases hlast : bs.getLast? with _ | _ | _ <;> simp_all
  · have hlast : bs.getLast? ≠ some false := fun h => hf (List.mem_of_getLast? h)
    rcases hlast' : bs.getLast? with _ | _ | _ <;> simp_all

/-- **Dropped requests.** `IssueCommand` and `IssueAtomic` pass a request on exactly when no
hook before the call refuses it, precisely if the last of these hooks is among those that
refuse it, should there be any. -/
theorem issue_passesOn_iff :
    (((issueCommand o trampoline preHooks postHooks req w).passedOn = true ↔
        ∀ b ∈ answers o.issueCommand trampoline req preHooks w, b = true) ↔
      (false ∈ answers o.issueCommand trampoline req preHooks w →
        (answers o.issueCommand trampoline req preHooks w).getLast? = some false)) ∧
    (((issueAtomic o trampoline preHooks postHooks req w).passedOn = true ↔
        ∀ b ∈ answers o.issueAtomic trampoline req preHooks w, b = true) ↔
      (false ∈ answers o.issueAtomic trampoline req preHooks w →
        (answers o.issueAtomic trampoline req preHooks w).getLast? = some false)) := by
  rw [issueCommand, issueAtomic, passedOn_issue, passedOn_issue]
  exact ⟨getLast_iff_forall _, getLast_iff_forall _⟩

end Issue

/-- Objects `0` and `1` are hooks and `2` is the trampoline. Only the hook `0` refuses, and the
rest of the world counts the calls of the trampoline. -/
def refusing : Method ℕ ℕ Unit :=
  fun object _ w => (object ≠ 0, if object = 2 then { w with rest := w.rest + 1 } else w)

/-- **A refusal is overruled.** The first of two hooks asks to drop the request, the second does
not, and the request is passed on. -/
theorem issue_passes_refused_on :
    answers refusing 2 () [0, 1] ⟨fun _ => none, fun _ => .none, 0⟩ = [false, true] ∧
      (issueCommand ⟨refusing, refusing, refusing⟩ 2 [0, 1] [] ()
        ⟨fun _ => none, fun _ => .none, 0⟩).passedOn = true ∧
      (issueCommand ⟨refusing, refusing, refusing⟩ 2 [0, 1] [] ()
        ⟨fun _ => none, fun _ => .none, 0⟩).world.rest = 1 := by
  decide

end HybridMemory.NVMain.NVMObjectHook

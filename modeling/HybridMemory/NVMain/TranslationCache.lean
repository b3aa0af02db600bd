import HybridMemory.Lib.Transition
import HybridMemory.NVMain.AddressTranslator

/-!
# The cached layout of the translator

`Translate` and `ReverseTranslate` fetch the widths and the order of the fields once, in the
first call, and from then on read them through the pointers of that call. The class still
has the functions the cache replaced: `FindOrder`, `Modulo` and `Divide` ask the method each
time. `plainTranslate` is the translation by these, and the question is whether the cached
one agrees with it after any sequence of calls.

It does as long as no method with another layout is installed once the pointers are set
(`translate_eq_plain`); `SetTranslationMethod` does not reset them, so a second method is
ignored (`translate_uses_first_method`).
-/

namespace HybridMemory.NVMain

open Transition

/-- `Modulo`, which asks the method for the width of the field. -/
def modulo (method : TranslationMethod) (partialAddr : UInt64) (p : MemoryPartition) : UInt64 :=
  partialAddr % moduloSize method.bitWidths p

/-- `Divide`, which asks the method for the width of the field. -/
def divide (method : TranslationMethod) (partSize : UInt64) (p : MemoryPartition) : UInt64 :=
  partSize >>> (method.bitWidths p).toUInt64

/-- The loop of the translation with `FindOrder`, `Modulo` and `Divide`. -/
def plainParts (method : TranslationMethod) :
    List (Option MemoryPartition) → UInt64 → Location → Location
  | [], _, out => out
  | none :: _, _, out => out
  | some p :: ps, refAddress, out =>
    plainParts method ps (divide method refAddress p)
      (Function.update out p (modulo method refAddress p))

namespace AddressTranslator

/-- The translation of an address under a method, without the cache. -/
def plainTranslate (t : AddressTranslator) (method : Option TranslationMethod)
    (address : UInt64) (out : Location) : Location :=
  match method with
  | none => out
  | some method => plainParts method (parts method.order)
    (address >>> UInt64.ofNat t.busOffsetBits >>> UInt64.ofNat t.lowColBits) out

/-- The calls on a translator. -/
inductive Call
  | setTranslationMethod (m : TranslationMethod)
  | translate (address : UInt64) (out : Location)
  | reverseTranslate (loc : Location)

/-- The translator after a call. -/
def step (t : AddressTranslator) : Call → Option AddressTranslator
  | .setTranslationMethod m => some (t.setTranslationMethod m)
  | .translate address out => some (t.translate address out).2
  | .reverseTranslate loc => (t.reverseTranslate loc).map Prod.snd

/-- The method installed most recently, if `method` was there before the calls. -/
def installed (method : Option TranslationMethod) : List Call → Option TranslationMethod
  | [] => method
  | .setTranslationMethod m :: calls => installed (some m) calls
  | .translate _ _ :: calls | .reverseTranslate _ :: calls => installed method calls

/-- A call keeps the layout: it does not install a method whose widths or order differ from
those the pointers are set to. -/
def KeepsLayout (t : AddressTranslator) : Call → Prop
  | .setTranslationMethod m =>
    ∀ a ∈ t.arrays, a.bitWidths = m.bitWidths ∧ a.order = m.order
  | .translate _ _ | .reverseTranslate _ => True

/-! ### The two loops -/

/-- The processor uses the low six bits of the amount of a shift, to the left and to the
right, so that dividing by the size of a field is shifting its bits out. -/
theorem div_moduloSize (method : TranslationMethod) (a : UInt64) (p : MemoryPartition) :
    a / moduloSize method.bitWidths p = divide method a p := by
  have hlt : (method.bitWidths p).toUInt64.toNat % 64 < 64 := Nat.mod_lt _ (by norm_num)
  have hpow : (1 : ℕ) <<< ((method.bitWidths p).toUInt64.toNat % 64) % 2 ^ 64 =
      2 ^ ((method.bitWidths p).toUInt64.toNat % 64) := by
    rw [Nat.one_shiftLeft]
    exact Nat.mod_eq_of_lt (Nat.pow_lt_pow_right one_lt_two hlt)
  refine UInt64.toNat.inj ?_
  rw [UInt64.toNat_div, moduloSize, divide, UInt64.toNat_shiftLeft, UInt64.toNat_shiftRight,
    UInt64.toNat_one, hpow, Nat.shiftRight_eq_div_pow]

/-- `Modulo_modified` does the work of `Modulo` and `Divide`. -/
theorem translateParts_eq_plainParts (method : TranslationMethod)
    (ps : List (Option MemoryPartition)) (refAddress : UInt64) (out : Location) :
    translateParts method.bitWidths ps refAddress out = plainParts method ps refAddress out := by
  induction ps generalizing refAddress out with
  | nil => rfl
  | cons p ps ih =>
    cases p with
    | none => rfl
    | some p =>
      rw [translateParts, plainParts, ih, div_moduloSize]
      rfl

/-! ### Runs -/

variable {t t' : AddressTranslator} {call : Call}

/-- The pointers, once they are set, are those of a method with the layout of the present
one. -/
def Agrees (t : AddressTranslator) : Prop :=
  ∀ a ∈ t.arrays, ∃ m ∈ t.method, a.bitWidths = m.bitWidths ∧ a.order = m.order

/-- The layout that a call uses. -/
theorem Agrees.layout (h : t.Agrees) {m : TranslationMethod} (hm : t.method = some m) :
    (t.arrays.getD m).bitWidths = m.bitWidths ∧ (t.arrays.getD m).order = m.order := by
  cases ha : t.arrays with
  | none => exact ⟨rfl, rfl⟩
  | some a =>
    obtain ⟨m', hm', hwidths, horder⟩ := h a ha
    obtain rfl : m = m' := Option.some.inj (hm.symm.trans hm')
    exact ⟨hwidths, horder⟩

/-- With such pointers the cached translation is the plain one. -/
theorem Agrees.translate_eq (h : t.Agrees) (address : UInt64) (out : Location) :
    (t.translate address out).1 = t.plainTranslate t.method address out := by
  cases hm : t.method with
  | none => simp only [translate, hm, plainTranslate]
  | some m =>
    obtain ⟨hwidths, horder⟩ := h.layout hm
    simp only [translate, hm, plainTranslate, hwidths, horder, translateParts_eq_plainParts]

/-- Fetching the pointers keeps the agreement. -/
theorem Agrees.fetch (h : t.Agrees) {m : TranslationMethod} (hm : t.method = some m) :
    ({ t with arrays := some (t.arrays.getD m) }).Agrees := by
  rintro a ha
  obtain rfl := Option.some.inj ha
  exact ⟨m, hm, h.layout hm⟩

/-- The state after a call that takes an address or a location: either the pointers are
fetched, or there is no method and nothing happens. -/
theorem step_cases (h : t.step call = some t') :
    (∃ m, call = .setTranslationMethod m ∧ t' = t.setTranslationMethod m) ∨
      (∀ m, call ≠ .setTranslationMethod m) ∧
        (t' = t ∨ ∃ m, t.method = some m ∧ t' = { t with arrays := some (t.arrays.getD m) }) := by
  cases call with
  | setTranslationMethod m => exact Or.inl ⟨m, rfl, (Option.some.inj h).symm⟩
  | translate address out =>
    refine Or.inr ⟨fun m => by simp, ?_⟩
    obtain rfl := Option.some.inj h
    cases hm : t.method with
    | none => exact Or.inl (by simp only [translate, hm])
    | some m => exact Or.inr ⟨m, rfl, by simp only [translate, hm]⟩
  | reverseTranslate loc =>
    refine Or.inr ⟨fun m => by simp, ?_⟩
    cases hm : t.method with
    | none => simp [step, reverseTranslate, hm] at h
    | some m =>
      simp only [step, reverseTranslate, hm, Option.map_some, Option.some.injEq] at h
      exact Or.inr ⟨m, rfl, h.symm⟩

/-- A call that keeps the layout keeps the agreement. -/
theorem Agrees.step (h : t.Agrees) (hkeeps : t.KeepsLayout call) (hs : t.step call = some t') :
    t'.Agrees := by
  obtain ⟨m, rfl, rfl⟩ | ⟨-, rfl | ⟨m, hm, rfl⟩⟩ := step_cases hs
  · exact fun a ha => ⟨m, rfl, hkeeps a ha⟩
  · exact h
  · exact h.fetch hm

/-- The method of a translator is the one installed most recently, and the bus stays as it
is. -/
theorem method_of_run {calls : List Call} (h : Run (Steps step) t calls t') :
    t'.method = installed t.method calls ∧ t'.busWidth = t.busWidth ∧
      t'.burstLength = t.burstLength := by
  induction calls generalizing t with
  | nil =>
    obtain rfl := run_nil.mp h
    exact ⟨rfl, rfl, rfl⟩
  | cons call calls ih =>
    obtain ⟨u, hu, hrun⟩ := h
    obtain ⟨hmethod, hbus, hburst⟩ := ih hrun
    obtain ⟨m, rfl, rfl⟩ | ⟨hne, hcase⟩ := step_cases hu
    · exact ⟨hmethod, hbus, hburst⟩
    · have hinst : installed t.method (call :: calls) = installed t.method calls := by
        cases call with
        | setTranslationMethod m => exact absurd rfl (hne m)
        | translate address out => rfl
        | reverseTranslate loc => rfl
      rw [hinst]
      rcases hcase with rfl | ⟨m, -, rfl⟩
      · exact ⟨hmethod, hbus, hburst⟩
      · exact ⟨hmethod, hbus, hburst⟩

/-- **The cache makes no difference** as long as no method with another layout is installed
once the pointers are set: after every such sequence of calls on a new translator, for any
bus, `Translate` gives the plain translation under the method installed most recently. -/
theorem translate_eq_plain (t₀ : AddressTranslator) (hnew : t₀.arrays = none)
    (calls : List Call) (t : AddressTranslator)
    (hrun : Run (Guarded KeepsLayout (Steps step)) t₀ calls t) (address : UInt64)
    (out : Location) :
    (t.translate address out).1 =
      t₀.plainTranslate (installed t₀.method calls) address out := by
  have hagrees : t.Agrees := by
    refine hrun.invariant (P := Agrees) ?_ fun s call s' hs hstep => ?_
    · intro a ha
      rw [hnew] at ha
      contradiction
    · exact hs.step hstep.1 hstep.2
  obtain ⟨hmethod, hbus, hburst⟩ := method_of_run (hrun.mono fun _ _ _ h => h.2)
  rw [hagrees.translate_eq, hmethod]
  simp only [plainTranslate, busOffsetBits, lowColBits, burstBits, hbus, hburst]

/-- Install a method, translate, install it once more. -/
theorem translate_eq_plain_reinstalled : ∃ t, Run (Guarded KeepsLayout (Steps step)) init
      [.setTranslationMethod exampleMethod, .translate 64 fun _ => 0,
        .setTranslationMethod exampleMethod] t ∧
    ∀ address out, (t.translate address out).1 =
      init.plainTranslate (some exampleMethod) address out := by
  have hrun : Run (Guarded KeepsLayout (Steps step)) init
      [.setTranslationMethod exampleMethod, .translate 64 fun _ => 0,
        .setTranslationMethod exampleMethod]
      { init with method := some exampleMethod, arrays := some exampleMethod } := by
    refine ⟨_, ⟨fun a ha => ?_, rfl⟩, _, ⟨trivial, rfl⟩, _, ⟨fun a ha => ?_, rfl⟩, rfl⟩
    · contradiction
    · obtain rfl := Option.some.inj ha
      exact ⟨rfl, rfl⟩
  exact ⟨_, hrun, translate_eq_plain init rfl _ _ hrun⟩

/-- **A second method is ignored.** With the method of `R:RK:BK:CH:C` installed first, in
which the subarray stands lowest, and then, after one translation, the method of the
defaults, in which the column does, address 64 is still translated to subarray 1 and
column 0. -/
theorem translate_uses_first_method : ∃ t, Run (Steps step) init
      [.setTranslationMethod exampleMethod, .translate 0 fun _ => 0,
        .setTranslationMethod TranslationMethod.init] t ∧
    (t.translate 64 fun _ => 0).1 .col = 0 ∧ (t.translate 64 fun _ => 0).1 .subarray = 1 ∧
    init.plainTranslate (some TranslationMethod.init) 64 (fun _ => 0) .col = 1 ∧
    init.plainTranslate (some TranslationMethod.init) 64 (fun _ => 0) .subarray = 0 :=
  ⟨{ init with method := some TranslationMethod.init, arrays := some exampleMethod },
    ⟨_, rfl, _, rfl, _, rfl, rfl⟩, by decide, by decide, by decide, by decide⟩

end AddressTranslator

end HybridMemory.NVMain

import HybridMemory.Lib.MixedRadix
import HybridMemory.NVMain.MemoryController

/-!
# The numbers of the command queues

`GetCommandQueueId` numbers the command queues by the rank, bank and subarray of an address, of
which the queue model uses the first, the first two or all three. The number is written in a mixed
radix; the schedule scheme says in which order the digits stand.

* `QueueLayout.numbered_iff`: for every geometry, the units of the queue model are numbered without
  gaps up to the number of queues, if and only if queues per bank have scheme 1 or 2;
* `fixed_scheme_not_numbered`: the fixed scheme, which the comment above the function has as
  number 0, leaves the initial value of the number.

`Params` has only valid schemes; its numbers are those of its layout.
-/

namespace HybridMemory.NVMain.MemControl

open MixedRadix

namespace QueueLayout

variable (l : QueueLayout)

/-- `GetCommandQueueId`, with its assertion. -/
def getCommandQueueId (ndebug : Bool) (a : BankId × ℕ) : Option ℕ :=
  if ndebug ∨ l.queueId a < l.commandQueueCount then some (l.queueId a) else none

/-- The addresses of the geometry. -/
def addresses : Set (BankId × ℕ) :=
  {a | a.1.rank < l.ranks ∧ a.1.bank < l.banks ∧ a.2 < l.subArrayNum}

/-- The scheduling unit of an address. -/
def unitOf (a : BankId × ℕ) : BankId × ℕ :=
  match l.queueModel with
  | .perRank => (⟨a.1.rank, 0⟩, 0)
  | .perBank => (a.1, 0)
  | .perSubArray => a

/-- The scheduling units of the queue model. -/
def units : Set (BankId × ℕ) := Set.image l.unitOf l.addresses

/-! ### Digits -/

/-- The digits of the number of a queue. -/
inductive Digit
  | rank
  | bank
  | subarray
  deriving DecidableEq

/-- The digits of an address. -/
def digits (a : BankId × ℕ) : Digit → ℕ
  | .rank => a.1.rank
  | .bank => a.1.bank
  | .subarray => a.2

/-- The number of values of a digit. -/
def radix : Digit → ℕ
  | .rank => l.ranks
  | .bank => l.banks
  | .subarray => l.subArrayNum

/-- The order of the digits, lowest first. -/
def order : List Digit :=
  match l.queueModel with
  | .perRank => [.rank]
  | .perBank => if l.scheduleScheme = 1 then [.rank, .bank] else [.bank, .rank]
  | .perSubArray => [.subarray, .bank, .rank]

/-- Queues per bank have a scheme that sets the number. -/
def SchemeValid : Prop :=
  l.queueModel = .perBank → l.scheduleScheme = 1 ∨ l.scheduleScheme = 2

variable {l} {a a' : BankId × ℕ}

theorem radix_pos (l : QueueLayout) (d : Digit) : 0 < l.radix d := by
  cases d with
  | rank => exact l.ranks_pos
  | bank => exact l.banks_pos
  | subarray => exact l.subArrayNum_pos

theorem nodup_order (l : QueueLayout) : l.order.Nodup := by
  unfold order
  split
  · decide
  · split <;> decide
  · decide

theorem mem_addresses : a ∈ l.addresses ↔ ∀ d, digits a d < l.radix d :=
  ⟨fun ⟨hrank, hbank, hsub⟩ d => by cases d <;> assumption,
    fun h => ⟨h .rank, h .bank, h .subarray⟩⟩

theorem digits_injective (h : digits a = digits a') : a = a' := by
  obtain ⟨⟨rank, bank⟩, i⟩ := a
  obtain ⟨⟨rank', bank'⟩, i'⟩ := a'
  have hrank : rank = rank' := congrFun h .rank
  have hbank : bank = bank' := congrFun h .bank
  have hsub : i = i' := congrFun h .subarray
  rw [hrank, hbank, hsub]

/-- A unit keeps the digits that are in the number. -/
theorem digits_unitOf (l : QueueLayout) (a : BankId × ℕ) (d : Digit) :
    digits (l.unitOf a) d = if d ∈ l.order then digits a d else 0 := by
  unfold unitOf order
  split
  · cases d <;> rfl
  · split <;> cases d <;> rfl
  · cases d <;> rfl

/-- The units are the addresses whose other digits are zero. -/
theorem mem_units : a ∈ l.units ↔
    (∀ d ∈ l.order, digits a d < l.radix d) ∧ ∀ d ∉ l.order, digits a d = 0 := by
  constructor
  · rintro ⟨a, ha, rfl⟩
    refine ⟨fun d hd => ?_, fun d hd => ?_⟩
    · rw [digits_unitOf, if_pos hd]
      exact mem_addresses.mp ha d
    · rw [digits_unitOf, if_neg hd]
  · rintro ⟨hlt, hzero⟩
    refine ⟨a, mem_addresses.mpr fun d => ?_, digits_injective (funext fun d => ?_)⟩
    · by_cases hd : d ∈ l.order
      · exact hlt d hd
      · rw [hzero d hd]
        exact l.radix_pos d
    · rw [digits_unitOf]
      split
      · rfl
      · rename_i hd
        exact (hzero d hd).symm

theorem commandQueueCount_eq (l : QueueLayout) :
    l.commandQueueCount = capacity l.radix l.order := by
  cases hmodel : l.queueModel with
  | perRank => simp [commandQueueCount, order, hmodel, radix]
  | perBank =>
    simp only [commandQueueCount, order, hmodel]
    split <;> simp [radix, Nat.mul_comm]
  | perSubArray =>
    simp only [commandQueueCount, order, hmodel, capacity_cons,
      capacity_nil, radix]
    ring

theorem queueId_eq (hl : l.SchemeValid) (a : BankId × ℕ) :
    l.queueId a = encode l.radix (digits a) l.order := by
  cases hmodel : l.queueModel with
  | perRank => simp [queueId, order, hmodel, encode, digits]
  | perBank =>
    rcases hl hmodel with hscheme | hscheme
    all_goals
      simp [queueId, order, hmodel, hscheme, encode, digits, radix]
      ring
  | perSubArray =>
    simp only [queueId, order, hmodel, encode, digits, radix]
    ring

/-! ### Numbering -/

/-- The number of an address is that of its unit. -/
theorem queueId_unitOf (l : QueueLayout) (a : BankId × ℕ) :
    l.queueId (l.unitOf a) = l.queueId a := by
  cases hmodel : l.queueModel <;> simp [queueId, unitOf, hmodel]

theorem bijOn_queueId (hl : l.SchemeValid) :
    Set.BijOn l.queueId l.units (Set.Iio l.commandQueueCount) := by
  have hdigits : Set.BijOn digits l.units
      {d | (∀ q ∈ l.order, d q < l.radix q) ∧ ∀ q ∉ l.order, d q = 0} := by
    refine ⟨fun a ha => mem_units.mp ha, fun a _ a' _ h => digits_injective h, fun d hd => ?_⟩
    have heq : digits (⟨d .rank, d .bank⟩, d .subarray) = d := by
      funext q
      cases q <;> rfl
    exact ⟨_, mem_units.mpr (heq ▸ hd), heq⟩
  have hencode := bijOn_encode l.nodup_order fun d _ => l.radix_pos d
  rw [commandQueueCount_eq]
  exact (hencode.comp hdigits).congr fun a _ => (queueId_eq hl a).symm

/-- An address of the geometry has a queue. -/
theorem queueId_lt (hl : l.SchemeValid) (ha : a ∈ l.addresses) :
    l.queueId a < l.commandQueueCount := by
  rw [← queueId_unitOf]
  exact (bijOn_queueId hl).mapsTo (Set.mem_image_of_mem _ ha)

/-- Addresses with the same queue belong to the same unit. -/
theorem unitOf_eq_of_queueId_eq (hl : l.SchemeValid) (ha : a ∈ l.addresses) (ha' : a' ∈ l.addresses)
    (h : l.queueId a = l.queueId a') : l.unitOf a = l.unitOf a' := by
  refine (bijOn_queueId hl).injOn (Set.mem_image_of_mem _ ha) (Set.mem_image_of_mem _ ha') ?_
  rw [queueId_unitOf, queueId_unitOf, h]

/-- `GetCommandQueueId` returns for every address, and numbers the units without gaps. -/
def Numbered (l : QueueLayout) (ndebug : Bool) : Prop :=
  ∃ number : BankId × ℕ → ℕ,
    (∀ a ∈ l.addresses, l.getCommandQueueId ndebug a = some (number (l.unitOf a))) ∧
    Set.BijOn number l.units (Set.Iio l.commandQueueCount)

theorem commandQueueCount_pos (l : QueueLayout) : 0 < l.commandQueueCount := by
  have hranks := l.ranks_pos
  have hbanks := l.banks_pos
  have hsubs := l.subArrayNum_pos
  unfold commandQueueCount
  split <;> positivity

/-- With another scheme, the number keeps its initial value, so that no unit has the number
zero. -/
theorem not_numbered (hl : ¬ l.SchemeValid) (ndebug : Bool) : ¬ l.Numbered ndebug := by
  rintro ⟨number, hnumber, hbij⟩
  obtain ⟨hmodel, hone, htwo⟩ : l.queueModel = .perBank ∧
      ¬ l.scheduleScheme = 1 ∧ ¬ l.scheduleScheme = 2 := by
    simpa [SchemeValid] using hl
  obtain ⟨-, ⟨a, ha, rfl⟩, hzero⟩ := hbij.surjOn l.commandQueueCount_pos
  have ha := hnumber a ha
  rw [hzero, getCommandQueueId] at ha
  have hid : l.queueId a = 2 ^ 64 - 1 := by
    simp only [queueId, hmodel, if_neg hone, if_neg htwo]
  rw [hid] at ha
  split at ha <;> simp at ha

/-- **The numbers of the command queues.** For every geometry, `GetCommandQueueId` numbers the
scheduling units of the queue model without gaps, if and only if queues per bank have scheme 1 or
2. -/
theorem numbered_iff (l : QueueLayout) (ndebug : Bool) :
    l.Numbered ndebug ↔
      (l.queueModel = .perBank → l.scheduleScheme = 1 ∨ l.scheduleScheme = 2) := by
  constructor
  · intro h
    by_contra hl
    exact not_numbered hl ndebug h
  · intro hl
    refine ⟨l.queueId, fun a ha => ?_, bijOn_queueId hl⟩
    rw [queueId_unitOf, getCommandQueueId, if_pos (Or.inr (queueId_lt hl ha))]

/-- Queues per bank with the fixed scheme. -/
def fixedScheme : QueueLayout := { Params.defaults.toQueueLayout with scheduleScheme := 0 }

/-- With the fixed scheme, the assertion fails for every address; without assertions, all addresses
get the largest number, which no queue has. -/
theorem fixed_scheme_not_numbered :
    fixedScheme.getCommandQueueId false (⟨0, 0⟩, 0) = none ∧
    fixedScheme.getCommandQueueId true (⟨0, 0⟩, 0) = some (2 ^ 64 - 1) ∧
    fixedScheme.getCommandQueueId true (⟨1, 7⟩, 0) = some (2 ^ 64 - 1) ∧
    fixedScheme.commandQueueCount = 16 ∧
    ¬ fixedScheme.Numbered true ∧ ¬ fixedScheme.Numbered false := by
  have hinvalid : ¬ fixedScheme.SchemeValid := by
    unfold SchemeValid
    decide
  exact ⟨by decide, by decide, by decide, by decide, not_numbered hinvalid true,
    not_numbered hinvalid false⟩

end QueueLayout

/-! ### The parameters of the controller -/

namespace Params

variable {p : Params} {k k' : BankId} {i i' : ℕ}

theorem mem_addresses (hk : p.HasBank k) (hi : i < p.subArrayNum) : (k, i) ∈ p.addresses :=
  ⟨hk.1, hk.2, hi⟩

theorem getCommandQueueId_lt (hk : p.HasBank k) (hi : i < p.subArrayNum) :
    p.getCommandQueueId k i < p.commandQueueCount :=
  QueueLayout.queueId_lt p.scheme_valid (mem_addresses hk hi)

/-- Addresses with the same queue belong to the same unit. -/
theorem unitOf_eq_of_getCommandQueueId_eq (hk : p.HasBank k) (hi : i < p.subArrayNum)
    (hk' : p.HasBank k') (hi' : i' < p.subArrayNum)
    (h : p.getCommandQueueId k i = p.getCommandQueueId k' i') :
    p.unitOf (k, i) = p.unitOf (k', i') :=
  QueueLayout.unitOf_eq_of_queueId_eq p.scheme_valid (mem_addresses hk hi) (mem_addresses hk' hi')
    h

end Params

end HybridMemory.NVMain.MemControl

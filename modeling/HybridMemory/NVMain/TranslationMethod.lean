import Mathlib

/-!
# Translation methods

A `TranslationMethod` says where the fields of a memory location stand in a physical
address: the width of each field in bits, and the order of the fields. The order is set
from a scheme such as `R:RK:BK:CH:C`, which names the fields from the most to the least
significant one and may leave some out. `isOrder_of_scheme` is what the translation relies
on: whatever distinct fields a scheme names, the order it sets puts the six fields on the
six places `0, …, 5`, one each.
-/

namespace HybridMemory.NVMain

/-- The fields of a location. `MEM_UNKNOWN` is `none` where it can occur. -/
inductive MemoryPartition
  | row
  | col
  | bank
  | rank
  | channel
  | subarray
  deriving DecidableEq

namespace MemoryPartition

/-- The fields in the order in which the code compares them. -/
def all : List MemoryPartition := [.row, .col, .bank, .rank, .channel, .subarray]

theorem mem_all (p : MemoryPartition) : p ∈ all := by cases p <;> decide

instance : Fintype MemoryPartition where
  elems := ⟨all, by decide⟩
  complete := mem_all

theorem card_eq : Fintype.card MemoryPartition = 6 := rfl

/-- One value for each field, in the order of the parameter lists of the code. -/
def fields {α : Type} (row col bank rank channel subarray : α) : MemoryPartition → α
  | .row => row
  | .col => col
  | .bank => bank
  | .rank => rank
  | .channel => channel
  | .subarray => subarray

/-- The name of a field in a mapping scheme. -/
def token : MemoryPartition → List Char
  | .row => ['R']
  | .col => ['C']
  | .bank => ['B', 'K']
  | .rank => ['R', 'K']
  | .channel => ['C', 'H']
  | .subarray => ['S', 'A']

/-- The comparisons of `SetAddressMappingScheme` with the names of the fields. -/
def ofToken (t : List Char) : Option MemoryPartition :=
  if t = ['R'] then some .row
  else if t = ['C'] then some .col
  else if t = ['B', 'K'] then some .bank
  else if t = ['R', 'K'] then some .rank
  else if t = ['C', 'H'] then some .channel
  else if t = ['S', 'A'] then some .subarray
  else none

theorem ofToken_token (p : MemoryPartition) : ofToken p.token = some p := by
  cases p <;> decide

end MemoryPartition

open MemoryPartition Function

/-- A translation method. -/
structure TranslationMethod where
  bitWidths : MemoryPartition → UInt32
  order : MemoryPartition → ℤ

namespace TranslationMethod

/-- `SetBitWidths`. -/
def setBitWidths (m : TranslationMethod) (bits : MemoryPartition → UInt32) :
    TranslationMethod :=
  { m with bitWidths := bits }

/-- `SetOrder`, which counts from one; orders that are not unique only print a message. -/
def setOrder (m : TranslationMethod) (orders : MemoryPartition → ℤ) : TranslationMethod :=
  { m with order := fun p => orders p - 1 }

/-- The method as its constructor leaves it. -/
def init : TranslationMethod :=
  (setBitWidths ⟨fun _ => 0, fun _ => 0⟩ (fields 10 8 3 1 1 6)).setOrder (fields 4 1 3 5 6 2)

/-- The items of a list separated by `:`, as `strtok_r` finds them. -/
def strtok (scheme : List Char) : List (List Char) :=
  (scheme.splitOn ':').filter (· ≠ [])

/-- The local variables of `SetAddressMappingScheme`. -/
structure SchemeState where
  orders : MemoryPartition → ℤ
  currentOrder : ℤ

namespace SchemeState

/-- The state before the first item. -/
def init : SchemeState := ⟨fun _ => 0, 6⟩

/-- Give a field the current order. -/
def assign (s : SchemeState) (p : MemoryPartition) : SchemeState :=
  ⟨update s.orders p s.currentOrder, s.currentOrder - 1⟩

/-- The body of the loop over the items; an item that is not recognised only prints a
message, but uses up its order. -/
def readToken (s : SchemeState) (t : List Char) : SchemeState :=
  match ofToken t with
  | some p => s.assign p
  | none => { s with currentOrder := s.currentOrder - 1 }

/-- Give a field the current order unless it has one. -/
def setUnset (s : SchemeState) (p : MemoryPartition) : SchemeState :=
  if s.orders p = 0 then s.assign p else s

end SchemeState

/-- The fields in the order in which those that a scheme leaves out get their orders. -/
def unsetOrder : List MemoryPartition := [.subarray, .channel, .rank, .bank, .row, .col]

/-- The orders a scheme sets. -/
def schemeOrders (scheme : List Char) : SchemeState :=
  unsetOrder.foldl SchemeState.setUnset
    ((strtok scheme).foldl SchemeState.readToken SchemeState.init)

/-- `SetAddressMappingScheme`. The scheme is copied into a buffer of 16 characters, and one
that does not fit there has no defined result. -/
def setAddressMappingScheme (m : TranslationMethod) (scheme : List Char) :
    Option TranslationMethod :=
  if scheme.length < 16 then some (m.setOrder (schemeOrders scheme).orders) else none

/-! ### The scheme of a list of fields -/

/-- The scheme that names the fields `ps`. -/
def scheme (ps : List MemoryPartition) : List Char :=
  [':'].intercalate (ps.map token)

private theorem colon_notMem_token (p : MemoryPartition) : ':' ∉ p.token := by
  cases p <;> decide

theorem strtok_scheme (ps : List MemoryPartition) : strtok (scheme ps) = ps.map token := by
  unfold strtok scheme
  cases ps with
  | nil => decide
  | cons p ps =>
    rw [List.splitOn_intercalate ':' (by simp [colon_notMem_token]) (by simp)]
    refine List.filter_eq_self.mpr fun t ht => ?_
    obtain ⟨q, -, rfl⟩ := List.mem_map.mp ht
    cases q <;> decide

private theorem length_scheme_cons (p : MemoryPartition) (ps : List MemoryPartition) :
    (scheme (p :: ps)).length = p.token.length + (ps.map fun q => q.token.length + 1).sum := by
  induction ps generalizing p with
  | nil => simp [scheme, List.intercalate]
  | cons q ps ih =>
    have := ih q
    simp only [scheme, List.intercalate, List.map_cons, List.intersperse_cons_cons,
      List.flatten_cons, List.length_append, List.sum_cons, List.length_singleton] at this ⊢
    omega

/-- A scheme of distinct fields fits in the buffer. -/
theorem length_scheme_lt {ps : List MemoryPartition} (hps : ps.Nodup) :
    (scheme ps).length < 16 := by
  have hsum : (ps.map fun q => q.token.length + 1).sum ≤ 16 := by
    have hle := Finset.sum_le_univ_sum_of_nonneg (s := ps.toFinset)
      (f := fun q : MemoryPartition => q.token.length + 1) fun _ => Nat.zero_le _
    rw [List.sum_toFinset _ hps] at hle
    exact hle.trans (by decide)
  cases ps with
  | nil => decide
  | cons p ps =>
    rw [length_scheme_cons]
    simp only [List.map_cons, List.sum_cons] at hsum
    omega

/-! ### The order a scheme sets -/

/-- The six fields stand on the six places `0, …, 5`. -/
structure IsOrder (order : MemoryPartition → ℤ) : Prop where
  nonneg : ∀ p, 0 ≤ order p
  lt : ∀ p, order p < 6
  injective : Function.Injective order

/-- The fields `done` have got the orders from `6` down, one each. -/
structure Assigned (done : List MemoryPartition) (s : SchemeState) : Prop where
  nodup : done.Nodup
  current : s.currentOrder = 6 - done.length
  unset : ∀ p, p ∉ done → s.orders p = 0
  gt : ∀ p ∈ done, s.currentOrder < s.orders p
  le : ∀ p ∈ done, s.orders p ≤ 6
  inj : ∀ p ∈ done, ∀ q ∈ done, s.orders p = s.orders q → p = q

variable {done : List MemoryPartition} {s : SchemeState} {p : MemoryPartition}

theorem assigned_init : Assigned [] SchemeState.init :=
  ⟨List.nodup_nil, rfl, fun _ _ => rfl, by simp, by simp, by simp⟩

theorem Assigned.length_le (h : Assigned done s) : done.length ≤ 6 :=
  card_eq ▸ h.nodup.length_le_card

theorem Assigned.assign (h : Assigned done s) (hp : p ∉ done) :
    Assigned (p :: done) (s.assign p) := by
  have hne : ∀ q ∈ done, q ≠ p := fun q hq heq => hp (heq ▸ hq)
  have hother : ∀ q ∈ done, (s.assign p).orders q = s.orders q := fun q hq =>
    update_of_ne (hne q hq) _ _
  have hself : (s.assign p).orders p = s.currentOrder := update_self _ _ _
  have hcur : (s.assign p).currentOrder = s.currentOrder - 1 := rfl
  have hsix := h.current
  refine ⟨List.nodup_cons.mpr ⟨hp, h.nodup⟩, ?_, fun q hq => ?_, fun q hq => ?_, fun q hq => ?_,
    fun q hq r hr heq => ?_⟩
  · rw [hcur, hsix, List.length_cons]
    omega
  · obtain ⟨hqp, hq⟩ := not_or.mp fun h => hq (List.mem_cons.mpr h)
    exact (update_of_ne hqp _ _).trans (h.unset q hq)
  · rcases List.mem_cons.mp hq with rfl | hq
    · omega
    · have := h.gt q hq
      rw [hother q hq]
      omega
  · rcases List.mem_cons.mp hq with rfl | hq
    · omega
    · exact hother q hq ▸ h.le q hq
  · -- the order given to `p` is below all orders given before
    rcases List.mem_cons.mp hq with hqp | hq' <;> rcases List.mem_cons.mp hr with hrp | hr'
    · exact hqp.trans hrp.symm
    · have := h.gt r hr'
      rw [hqp, hself, hother r hr'] at heq
      omega
    · have := h.gt q hq'
      rw [hrp, hself, hother q hq'] at heq
      omega
    · exact h.inj q hq' r hr' (by rwa [hother q hq', hother r hr'] at heq)

theorem Assigned.readTokens {ps : List MemoryPartition} (h : Assigned done s)
    (hps : (ps.reverse ++ done).Nodup) :
    Assigned (ps.reverse ++ done) ((ps.map token).foldl SchemeState.readToken s) := by
  induction ps generalizing done s with
  | nil => exact h
  | cons p ps ih =>
    rw [List.reverse_cons, List.append_assoc] at hps ⊢
    have hp : p ∉ done := (List.nodup_cons.mp (List.nodup_append.mp hps).2.1).1
    have hread : s.readToken p.token = s.assign p := by
      simp only [SchemeState.readToken, ofToken_token]
    rw [List.map_cons, List.foldl_cons, hread]
    exact ih (h.assign hp) hps

theorem Assigned.setUnset (h : Assigned done s) (p : MemoryPartition) :
    ∃ done', Assigned done' (s.setUnset p) ∧ p ∈ done' ∧ done ⊆ done' := by
  by_cases hp : p ∈ done
  · have hset : s.orders p ≠ 0 := by
      have := h.gt p hp
      have := h.current
      have := h.length_le
      omega
    refine ⟨done, ?_, hp, List.Subset.refl _⟩
    rwa [SchemeState.setUnset, if_neg hset]
  · refine ⟨p :: done, ?_, List.mem_cons_self, List.subset_cons_self _ _⟩
    rw [SchemeState.setUnset, if_pos (h.unset p hp)]
    exact h.assign hp

theorem Assigned.setUnsets (h : Assigned done s) (qs : List MemoryPartition) :
    ∃ done', Assigned done' (qs.foldl SchemeState.setUnset s) ∧ qs ⊆ done' ∧ done ⊆ done' := by
  induction qs generalizing done s with
  | nil => exact ⟨done, h, List.nil_subset _, List.Subset.refl _⟩
  | cons q qs ih =>
    obtain ⟨done₁, h₁, hq, hsub⟩ := h.setUnset q
    obtain ⟨done₂, h₂, hqs, hsub₂⟩ := ih h₁
    exact ⟨done₂, h₂, List.cons_subset.mpr ⟨hsub₂ hq, hqs⟩, List.Subset.trans hsub hsub₂⟩

/-- **A scheme of distinct fields sets a proper order**, also for the fields it leaves
out. -/
theorem isOrder_of_scheme {ps : List MemoryPartition} (hps : ps.Nodup)
    {m m' : TranslationMethod} (h : m.setAddressMappingScheme (scheme ps) = some m') :
    IsOrder m'.order := by
  rw [setAddressMappingScheme, if_pos (length_scheme_lt hps)] at h
  obtain rfl := Option.some.inj h
  have hread : Assigned (ps.reverse ++ []) _ := assigned_init.readTokens (by simpa using hps)
  obtain ⟨done, hdone, hall, -⟩ := hread.setUnsets unsetOrder
  rw [← strtok_scheme] at hdone
  have hmem : ∀ p, p ∈ done := fun p => hall (by cases p <;> decide)
  have hlen := hdone.length_le
  have hcur := hdone.current
  refine ⟨fun p => ?_, fun p => ?_, fun p q heq => ?_⟩
  · have := hdone.gt p (hmem p)
    simp only [setOrder, schemeOrders]
    omega
  · have := hdone.le p (hmem p)
    simp only [setOrder, schemeOrders]
    omega
  · refine hdone.inj p (hmem p) q (hmem q) ?_
    simp only [setOrder, schemeOrders] at heq
    omega

end TranslationMethod

end HybridMemory.NVMain

import Mathlib.Algebra.BigOperators.Fin
import Mathlib.Algebra.Order.Group.Int
import HybridMemory.Lib.Transition

/-!
# Associative arrays

The set-associative array of ptlsim's caches. A set finds a tag by adding up the numbers of all
ways that hold it, which is the number of a way only if there is just one. A tag that is not
found takes the first way that was not used of late.

What matters of a state is which line stands where (`Line`): tag and contents of each way of each
set. Every tag stands in at most one way, and the operations are described by what they do to
the lines (`AssociativeArray.bounded_map`). The bits of recent use only choose the way that a new
line takes; the statistics are left out.
-/

namespace HybridMemory.Ptlsim

open Transition Function

/-! ### Tags -/

/-- `InvalidTag<T>`, the tag of a way without a line: all bits are set. -/
class InvalidTag (T : Type) where
  /-- `InvalidTag<T>::INVALID` -/
  invalidTag : T

export InvalidTag (invalidTag)

instance {w : ℕ} : InvalidTag (BitVec w) := ⟨BitVec.allOnes w⟩

instance : InvalidTag UInt64 := ⟨.ofBitVec invalidTag⟩

/-- The sum of the numbers of the ways that match, counted from one. -/
def matchSum {ways : ℕ} (p : Fin ways → Prop) [DecidablePred p] : ℕ :=
  ∑ i, if p i then (i : ℕ) + 1 else 0

section MatchSum

variable {ways : ℕ} {p : Fin ways → Prop} [DecidablePred p]

/-- The sum has one term only. -/
theorem matchSum_of_unique {i : Fin ways} (hi : p i) (huniq : ∀ j, p j → j = i) :
    matchSum p = i + 1 := by
  rw [matchSum, Finset.sum_eq_single i (fun j _ hj => if_neg fun h => hj (huniq j h)) (by simp),
    if_pos hi]

theorem matchSum_of_absent (h : ∀ i, ¬ p i) : matchSum p = 0 :=
  Finset.sum_eq_zero fun i _ => if_neg (h i)

end MatchSum

/-- The tags of a set, and the marks of its ways in use for the replacement. -/
structure FullyAssociativeTags (T : Type) where
  evictmap : ℕ → Bool
  tags : ℕ → T

namespace FullyAssociativeTags

variable {T : Type} [DecidableEq T] (ways : ℕ) (invalid : T) (t : FullyAssociativeTags T)

def reset : FullyAssociativeTags T := ⟨fun _ => false, fun _ => invalid⟩

/-- Mark a way as used. -/
def use (way : ℕ) : FullyAssociativeTags T :=
  { t with evictmap := update t.evictmap way true }

/-- `evictmap.allset()` -/
def allset : Bool := (List.range ways).all t.evictmap

/-- `match` -/
def matchTag (target : T) : ℤ :=
  (matchSum fun i : Fin ways => t.tags i = target) - 1

/-- The way with a tag, or `-1`. -/
def probe (target : T) : ℤ × FullyAssociativeTags T :=
  let way := t.matchTag ways target
  if way < 0 then (-1, t) else (way, t.use way.toNat)

/-- The first way without a mark; way 0 if all have one. -/
def lru : ℕ :=
  if t.allset ways then 0 else ((List.range ways).find? fun i => !t.evictmap i).getD 0

/-- The way found or taken, the new value of `oldtag` and the tags after `select`. -/
def select (target oldtag : T) : ℕ × T × FullyAssociativeTags T :=
  let finish (way : ℕ) (t : FullyAssociativeTags T) : FullyAssociativeTags T :=
    let t := t.use way
    if t.allset ways then { t with evictmap := fun _ => false }.use way else t
  let (way, t) := t.probe ways target
  if way < 0 then
    let way := t.lru ways
    let t' := if t.allset ways then { t with evictmap := fun _ => false } else t
    (way, t.tags way, finish way { t' with tags := update t'.tags way target })
  else (way.toNat, oldtag, finish way.toNat t)

/-- The tag and the mark of a way are cleared. -/
def invalidateWay (way : ℕ) : FullyAssociativeTags T :=
  { tags := update t.tags way invalid
    evictmap := update t.evictmap way false }

/-- No valid tag stands in two ways. -/
def Unique : Prop :=
  ∀ i < ways, ∀ j < ways, t.tags i = t.tags j → t.tags i ≠ invalid → i = j

variable {ways invalid t} {target oldtag : T} {i : ℕ}

/-- The sum over all ways is right for a tag that one way has, -/
theorem matchTag_of_unique (hu : t.Unique ways invalid) (hi : i < ways) (htag : t.tags i = target)
    (hvalid : target ≠ invalid) : t.matchTag ways target = i := by
  have hsum : (matchSum fun j : Fin ways => t.tags j = target) = i + 1 :=
    matchSum_of_unique (i := ⟨i, hi⟩) htag fun j hj =>
      Fin.ext (hu j j.isLt i hi (hj.trans htag.symm) (hj ▸ hvalid))
  rw [matchTag, hsum]
  omega

/-- and for one that none has. -/
theorem matchTag_of_absent (h : ∀ i < ways, t.tags i ≠ target) : t.matchTag ways target = -1 := by
  rw [matchTag, matchSum_of_absent fun i => h i i.isLt]
  rfl

/-- A tag is found in its way, or it is in no way. -/
theorem matchTag_cases (hu : t.Unique ways invalid) (hvalid : target ≠ invalid) :
    (∃ i < ways, t.tags i = target ∧ t.matchTag ways target = i) ∨
      (∀ i < ways, t.tags i ≠ target) ∧ t.matchTag ways target = -1 := by
  by_cases h : ∃ i < ways, t.tags i = target
  · obtain ⟨i, hi, htag⟩ := h
    exact Or.inl ⟨i, hi, htag, matchTag_of_unique hu hi htag hvalid⟩
  · have habsent : ∀ i < ways, t.tags i ≠ target := fun i hi htag => h ⟨i, hi, htag⟩
    exact Or.inr ⟨habsent, matchTag_of_absent habsent⟩

theorem probe_of_match (h : t.matchTag ways target = i) :
    t.probe ways target = (↑i, t.use i) := by
  simp [probe, h]

theorem probe_of_absent (h : t.matchTag ways target = -1) : t.probe ways target = (-1, t) := by
  simp [probe, h]

omit [DecidableEq T] in
theorem lru_lt (hways : 0 < ways) : t.lru ways < ways := by
  rw [lru]
  split_ifs
  · exact hways
  · cases h : (List.range ways).find? fun i => !t.evictmap i with
    | none => exact hways
    | some i => exact List.mem_range.mp (List.mem_of_find?_eq_some h)

/-- A tag that is found keeps its way, and `oldtag` is not written. -/
theorem select_of_match (h : t.matchTag ways target = i) :
    (t.select ways target oldtag).1 = i ∧ (t.select ways target oldtag).2.1 = oldtag ∧
      (t.select ways target oldtag).2.2.tags = t.tags := by
  have hpos : ¬ (i : ℤ) < 0 := by omega
  simp only [select, probe_of_match h, if_neg hpos, Int.toNat_natCast]
  refine ⟨trivial, trivial, ?_⟩
  split_ifs <;> rfl

/-- A tag that is not found takes the way of `lru`, whose tag is reported. -/
theorem select_of_absent (h : t.matchTag ways target = -1) :
    (t.select ways target oldtag).1 = t.lru ways ∧
      (t.select ways target oldtag).2.1 = t.tags (t.lru ways) ∧
      (t.select ways target oldtag).2.2.tags = update t.tags (t.lru ways) target := by
  have hneg : (-1 : ℤ) < 0 := by decide
  simp only [select, probe_of_absent h, if_pos hneg]
  refine ⟨trivial, trivial, ?_⟩
  split_ifs <;> rfl

omit [DecidableEq T] in
/-- A tag that is nowhere can be put anywhere. -/
theorem Unique.update_of_absent (hu : t.Unique ways invalid) (h : ∀ i < ways, t.tags i ≠ target)
    {t' : FullyAssociativeTags T} (ht' : t'.tags = update t.tags i target) :
    t'.Unique ways invalid := by
  intro j hj j' hj' heq hvalid
  rw [ht'] at heq hvalid
  by_cases hji : j = i <;> by_cases hji' : j' = i
  · rw [hji, hji']
  · rw [hji, update_self, update_of_ne hji'] at heq
    exact absurd heq.symm (h j' hj')
  · rw [hji', update_self, update_of_ne hji] at heq
    exact absurd heq (h j hj)
  · rw [update_of_ne hji] at heq hvalid
    rw [update_of_ne hji'] at heq
    exact hu j hj j' hj' heq hvalid

omit [DecidableEq T] in
theorem Unique.update_invalid (hu : t.Unique ways invalid)
    {t' : FullyAssociativeTags T} (ht' : t'.tags = update t.tags i invalid) :
    t'.Unique ways invalid := by
  intro j hj j' hj' heq hvalid
  rw [ht'] at heq hvalid
  have hji : j ≠ i := fun hji => hvalid (hji ▸ update_self ..)
  have hji' : j' ≠ i := fun hji' => (heq ▸ hvalid) (hji' ▸ update_self ..)
  rw [update_of_ne hji] at heq hvalid
  rw [update_of_ne hji'] at heq
  exact hu j hj j' hj' heq hvalid

end FullyAssociativeTags

/-! ### Sets -/

/-- A set: its tags, and the contents of its ways. -/
structure FullyAssociativeArray (T V : Type) where
  tags : FullyAssociativeTags T
  data : ℕ → V

namespace FullyAssociativeArray

variable {T V : Type} [DecidableEq T] (ways : ℕ) (invalid : T) (blank : V)
  (a : FullyAssociativeArray T V)

/-- All lines are reset to `blank`. -/
def reset : FullyAssociativeArray T V := ⟨.reset invalid, fun _ => blank⟩

/-- The pointer to a line is the number of its way. -/
def probe (tag : T) : Option ℕ × FullyAssociativeArray T V :=
  let (way, t) := a.tags.probe ways tag
  (if way < 0 then none else some way.toNat, { a with tags := t })

/-- `select`, which leaves the contents to its caller. -/
def select (tag oldtag : T) : ℕ × T × FullyAssociativeArray T V :=
  let (way, oldtag, t) := a.tags.select ways tag oldtag
  (way, oldtag, { a with tags := t })

def invalidateWay (way : ℕ) : FullyAssociativeArray T V :=
  { tags := a.tags.invalidateWay invalid way, data := update a.data way blank }

/-- `invalidate`, with the way that had the tag. -/
def invalidate (tag : T) : Option ℕ × FullyAssociativeArray T V :=
  match a.probe ways tag with
  | (none, a) => (none, a)
  | (some way, a) => (some way, a.invalidateWay invalid blank way)

/-- The user of the array writes to a line through the pointer it has got. -/
def store (tag : T) (v : V) : Option (FullyAssociativeArray T V) :=
  (a.probe ways tag).1.map fun way => { a with data := update a.data way v }

/-- Way `i` holds the line with the tag `tag` and the contents `v`. -/
def Line (i : ℕ) (tag : T) (v : V) : Prop :=
  i < ways ∧ tag ≠ invalid ∧ a.tags.tags i = tag ∧ a.data i = v

variable {ways invalid blank a} {tag oldtag : T}

theorem probe_cases (hu : a.tags.Unique ways invalid) (hvalid : tag ≠ invalid) :
    (∃ i < ways, a.tags.tags i = tag ∧ a.tags.matchTag ways tag = i ∧
        a.probe ways tag = (some i, { a with tags := a.tags.use i })) ∨
      (∀ i < ways, a.tags.tags i ≠ tag) ∧ a.tags.matchTag ways tag = -1 ∧
        a.probe ways tag = (none, a) := by
  rcases FullyAssociativeTags.matchTag_cases hu hvalid with ⟨i, hi, htag, h⟩ | ⟨habsent, h⟩
  · refine Or.inl ⟨i, hi, htag, h, ?_⟩
    have hpos : ¬ (i : ℤ) < 0 := by omega
    simp only [probe, FullyAssociativeTags.probe_of_match h, if_neg hpos, Int.toNat_natCast]
  · refine Or.inr ⟨habsent, h, ?_⟩
    have hneg : (-1 : ℤ) < 0 := by decide
    simp only [probe, FullyAssociativeTags.probe_of_absent h, if_pos hneg]

/-- A probe finds exactly the way that has the tag. -/
theorem probe_eq_some_iff (hu : a.tags.Unique ways invalid) (hvalid : tag ≠ invalid) {i : ℕ} :
    (a.probe ways tag).1 = some i ↔ i < ways ∧ a.tags.tags i = tag := by
  rcases probe_cases hu hvalid with ⟨j, hj, htag, -, h⟩ | ⟨habsent, -, h⟩
  · rw [h]
    constructor
    · rintro heq
      obtain rfl : j = i := Option.some.inj heq
      exact ⟨hj, htag⟩
    · rintro ⟨hi, htag'⟩
      exact congrArg some (hu j hj i hi (htag.trans htag'.symm) (htag ▸ hvalid))
  · rw [h]
    exact ⟨fun heq => absurd heq (Option.some_ne_none i).symm,
      fun hi => absurd hi.2 (habsent i hi.1)⟩

end FullyAssociativeArray

/-! ### The array -/

/-- `2 ^ setBits` sets of `ways` ways, and lines of `2 ^ lineBits` bytes. -/
structure Geometry where
  setBits : ℕ
  lineBits : ℕ
  ways : ℕ
  ways_pos : 0 < ways

namespace Geometry

variable {w : ℕ} (g : Geometry)

/-- `setof` -/
def setof (addr : BitVec w) : ℕ := (addr >>> g.lineBits).toNat % 2 ^ g.setBits

/-- `tagof`: the address without the place in the line. -/
def tagof (addr : BitVec w) : BitVec w := addr &&& ~~~BitVec.ofNat w (2 ^ g.lineBits - 1)

/-- The bits that select the set are part of the tag. -/
theorem setof_tagof (addr : BitVec w) : g.setof (g.tagof addr) = g.setof addr := by
  have hshift : g.tagof addr >>> g.lineBits = addr >>> g.lineBits := by
    apply BitVec.eq_of_getLsbD_eq
    intro i hi
    rw [BitVec.getLsbD_ushiftRight, BitVec.getLsbD_ushiftRight, tagof, BitVec.getLsbD_and,
      BitVec.getLsbD_not, BitVec.getLsbD_ofNat, Nat.testBit_two_pow_sub_one]
    by_cases hlt : g.lineBits + i < w
    · simp [hlt]
    · rw [BitVec.getLsbD_of_ge _ _ (Nat.le_of_not_lt hlt), Bool.false_and]
  rw [setof, hshift, setof]

end Geometry

/-- The array; only its first `2 ^ setBits` sets are used. -/
structure AssociativeArray (w : ℕ) (V : Type) where
  sets : ℕ → FullyAssociativeArray (BitVec w) V

namespace AssociativeArray

variable {w : ℕ} {V : Type} (g : Geometry) (blank : V) (s : AssociativeArray w V)

def reset : AssociativeArray w V := ⟨fun _ => .reset invalidTag blank⟩

/-- A set of the array is replaced. -/
def update (k : ℕ) (a : FullyAssociativeArray (BitVec w) V) : AssociativeArray w V :=
  ⟨Function.update s.sets k a⟩

def probe (addr : BitVec w) : Option ℕ × AssociativeArray w V :=
  let (line, a) := (s.sets (g.setof addr)).probe g.ways (g.tagof addr)
  (line, s.update (g.setof addr) a)

def select (addr oldaddr : BitVec w) : ℕ × BitVec w × AssociativeArray w V :=
  let (line, oldaddr, a) := (s.sets (g.setof addr)).select g.ways (g.tagof addr) oldaddr
  (line, oldaddr, s.update (g.setof addr) a)

def invalidate (addr : BitVec w) : Option ℕ × AssociativeArray w V :=
  let (line, a) := (s.sets (g.setof addr)).invalidate g.ways invalidTag blank (g.tagof addr)
  (line, s.update (g.setof addr) a)

def store (addr : BitVec w) (v : V) : Option (AssociativeArray w V) :=
  ((s.sets (g.setof addr)).store g.ways (g.tagof addr) v).map (s.update (g.setof addr))

/-- Way `i` of set `k` holds the line with the tag `tag` and the contents `v`. -/
def Line (k i : ℕ) (tag : BitVec w) (v : V) : Prop := (s.sets k).Line g.ways invalidTag i tag v

/-- The calls of the array, and the stores through a pointer that it returned. -/
inductive Action (w : ℕ) (V : Type)
  | probe (addr : BitVec w)
  | select (addr oldaddr : BitVec w)
  | invalidate (addr : BitVec w)
  | store (addr : BitVec w) (v : V)

/-- The address that a call is about. -/
def Action.addr : Action w V → BitVec w
  | .probe addr | .select addr _ | .invalidate addr | .store addr _ => addr

/-- One call; a store needs a line. -/
def step (s : AssociativeArray w V) : Action w V → Option (AssociativeArray w V)
  | .probe addr => some (s.probe g addr).2
  | .select addr oldaddr => some (s.select g addr oldaddr).2.2
  | .invalidate addr => some (s.invalidate g blank addr).2
  | .store addr v => s.store g addr v

/-- The tags of a set are valid in one way at most, and their addresses belong to the set. -/
structure Inv : Prop where
  unique : ∀ k, (s.sets k).tags.Unique g.ways invalidTag
  home : ∀ k, ∀ i < g.ways, (s.sets k).tags.tags i ≠ invalidTag →
    g.setof ((s.sets k).tags.tags i) = k

variable {g blank s} {addr : BitVec w} {a : FullyAssociativeArray (BitVec w) V} {k i : ℕ}

theorem inv_reset : Inv g (reset blank : AssociativeArray w V) where
  unique _ _ _ _ _ _ h := absurd rfl h
  home _ _ _ h := absurd rfl h

@[simp] theorem sets_update_self : (s.update k a).sets k = a := update_self ..

theorem sets_update_of_ne {k' : ℕ} (hk : k' ≠ k) : (s.update k a).sets k' = s.sets k' :=
  update_of_ne hk ..

/-- A set is replaced by one that is in order. -/
theorem Inv.update (h : Inv g s) (hunique : a.tags.Unique g.ways invalidTag)
    (hhome : ∀ i < g.ways, a.tags.tags i ≠ invalidTag → g.setof (a.tags.tags i) = k) :
    Inv g (s.update k a) := by
  refine ⟨fun k' => ?_, fun k' => ?_⟩ <;> by_cases hk : k' = k
  · rw [hk, sets_update_self]
    exact hunique
  · rw [sets_update_of_ne hk]
    exact h.unique k'
  · rw [hk, sets_update_self]
    exact hhome
  · rw [sets_update_of_ne hk]
    exact h.home k'

/-- Nothing but the bits of recent use and the contents of the lines has changed. -/
theorem Inv.update_of_tags_eq (h : Inv g s) (ha : a.tags.tags = (s.sets k).tags.tags) :
    Inv g (s.update k a) := by
  refine h.update ?_ ?_
  · have hunique := h.unique k
    simp only [FullyAssociativeTags.Unique] at hunique ⊢
    rwa [ha]
  · rw [ha]
    exact h.home k

/-- A tag that was in no way is put into way `i`. -/
theorem Inv.update_of_absent (h : Inv g s)
    (habsent : ∀ j < g.ways, (s.sets (g.setof addr)).tags.tags j ≠ g.tagof addr)
    (ha : a.tags.tags = Function.update (s.sets (g.setof addr)).tags.tags i (g.tagof addr)) :
    Inv g (s.update (g.setof addr) a) := by
  refine h.update ((h.unique _).update_of_absent habsent ha) fun j hj hvalid => ?_
  rw [ha] at hvalid ⊢
  by_cases hji : j = i
  · rw [hji, update_self, g.setof_tagof]
  · rw [update_of_ne hji] at hvalid ⊢
    exact h.home _ j hj hvalid

theorem Inv.update_invalid (h : Inv g s)
    (ha : a.tags.tags = Function.update (s.sets k).tags.tags i invalidTag) :
    Inv g (s.update k a) := by
  refine h.update ((h.unique k).update_invalid ha) fun j hj hvalid => ?_
  rw [ha] at hvalid ⊢
  have hji : j ≠ i := fun hji => hvalid (hji ▸ update_self ..)
  rw [update_of_ne hji] at hvalid ⊢
  exact h.home k j hj hvalid

/-! ### Operations and lines -/

/-- In a reachable state a tag names one line of the array. -/
theorem Inv.line_unique (h : Inv g s) {k k' i j : ℕ} {tag : BitVec w} {v v' : V}
    (hl : s.Line g k i tag v) (hl' : s.Line g k' j tag v') : k = k' ∧ i = j ∧ v = v' := by
  obtain ⟨hi, hvalid, rfl, rfl⟩ := hl
  obtain ⟨hj, -, htag, rfl⟩ := hl'
  obtain rfl : k = k' := by
    rw [← h.home k i hi hvalid, ← htag, h.home k' j hj (htag ▸ hvalid)]
  obtain rfl := h.unique k i hi j hj htag.symm hvalid
  exact ⟨rfl, rfl, rfl⟩

theorem line_update_of_eq (htags : a.tags.tags = (s.sets k).tags.tags)
    (hdata : a.data = (s.sets k).data) {k' j : ℕ} {tag : BitVec w} {v : V} :
    (s.update k a).Line g k' j tag v ↔ s.Line g k' j tag v := by
  by_cases hk : k' = k
  · subst hk
    simp only [Line, FullyAssociativeArray.Line, sets_update_self, htags, hdata]
  · rw [Line, sets_update_of_ne hk, Line]

section Operations

variable (h : Inv g s) (hvalid : g.tagof addr ≠ invalidTag)

include h hvalid

/-- A probe finds exactly the lines. -/
theorem Inv.line_iff : (s.probe g addr).1 = some i ↔
    ∃ v, s.Line g (g.setof addr) i (g.tagof addr) v := by
  refine (FullyAssociativeArray.probe_eq_some_iff (h.unique _) hvalid).trans ?_
  constructor
  · rintro ⟨hi, htag⟩
    exact ⟨_, hi, hvalid, htag, rfl⟩
  · rintro ⟨v, hi, -, htag, -⟩
    exact ⟨hi, htag⟩

/-- A probe changes no line. -/
theorem Inv.probe_eq : ∃ a, (s.probe g addr).2 = s.update (g.setof addr) a ∧
    a.tags.tags = (s.sets (g.setof addr)).tags.tags ∧ a.data = (s.sets (g.setof addr)).data := by
  refine ⟨((s.sets (g.setof addr)).probe g.ways (g.tagof addr)).2, rfl, ?_⟩
  rcases FullyAssociativeArray.probe_cases (h.unique (g.setof addr)) hvalid with
    ⟨i, -, -, -, heq⟩ | ⟨-, -, heq⟩
  · rw [heq]
    exact ⟨rfl, rfl⟩
  · rw [heq]
    exact ⟨rfl, rfl⟩

/-- The selected line was there, or takes the way of another. -/
theorem Inv.select_cases (oldaddr : BitVec w) :
    ∃ a, (s.select g addr oldaddr).2.2 = s.update (g.setof addr) a ∧
      a.data = (s.sets (g.setof addr)).data ∧ (s.select g addr oldaddr).1 < g.ways ∧
      a.tags.tags (s.select g addr oldaddr).1 = g.tagof addr ∧
      ((s.probe g addr).1 = some (s.select g addr oldaddr).1 ∧
          (s.select g addr oldaddr).2.1 = oldaddr ∧
          a.tags.tags = (s.sets (g.setof addr)).tags.tags ∨
        (s.probe g addr).1 = none ∧
          (∀ j < g.ways, (s.sets (g.setof addr)).tags.tags j ≠ g.tagof addr) ∧
          (s.select g addr oldaddr).2.1
            = (s.sets (g.setof addr)).tags.tags (s.select g addr oldaddr).1 ∧
          a.tags.tags = Function.update (s.sets (g.setof addr)).tags.tags
            (s.select g addr oldaddr).1 (g.tagof addr)) := by
  let t := (s.sets (g.setof addr)).tags
  let r := t.select g.ways (g.tagof addr) oldaddr
  refine ⟨⟨r.2.2, (s.sets (g.setof addr)).data⟩, rfl, rfl, ?_⟩
  have hway : (s.select g addr oldaddr).1 = r.1 := rfl
  have hold : (s.select g addr oldaddr).2.1 = r.2.1 := rfl
  rw [hway, hold]
  rcases FullyAssociativeArray.probe_cases (h.unique (g.setof addr)) hvalid with
    ⟨i, hi, htag, hmatch, hprobe⟩ | ⟨habsent, hmatch, hprobe⟩
  · obtain ⟨hway, hold, htags⟩ : r.1 = i ∧ r.2.1 = oldaddr ∧ r.2.2.tags = t.tags :=
      FullyAssociativeTags.select_of_match hmatch
    rw [hway, hold, htags]
    exact ⟨hi, htag, Or.inl ⟨congrArg Prod.fst hprobe, rfl, rfl⟩⟩
  · obtain ⟨hway, hold, htags⟩ : r.1 = t.lru g.ways ∧ r.2.1 = t.tags (t.lru g.ways) ∧
        r.2.2.tags = Function.update t.tags (t.lru g.ways) (g.tagof addr) :=
      FullyAssociativeTags.select_of_absent hmatch
    rw [hway, hold, htags]
    exact ⟨FullyAssociativeTags.lru_lt g.ways_pos, update_self ..,
      Or.inr ⟨congrArg Prod.fst hprobe, habsent, rfl, rfl⟩⟩

theorem Inv.invalidate_cases (blank : V) :
    ∃ a, s.invalidate g blank addr = ((s.probe g addr).1, s.update (g.setof addr) a) ∧
      ((s.probe g addr).1 = none ∧ a = s.sets (g.setof addr) ∨
        ∃ i, (s.probe g addr).1 = some i ∧
          a.tags.tags = Function.update (s.sets (g.setof addr)).tags.tags i invalidTag ∧
          a.data = Function.update (s.sets (g.setof addr)).data i blank) := by
  rcases FullyAssociativeArray.probe_cases (h.unique (g.setof addr)) hvalid with
    ⟨i, -, -, -, heq⟩ | ⟨-, -, heq⟩
  · have hprobe : (s.probe g addr).1 = some i := congrArg Prod.fst heq
    rw [invalidate, FullyAssociativeArray.invalidate, heq, hprobe]
    exact ⟨_, rfl, Or.inr ⟨i, rfl, rfl, rfl⟩⟩
  · have hprobe : (s.probe g addr).1 = none := congrArg Prod.fst heq
    rw [invalidate, FullyAssociativeArray.invalidate, heq, hprobe]
    exact ⟨_, rfl, Or.inl ⟨rfl, rfl⟩⟩

/-- Only the way of the selected line can have changed. -/
theorem Inv.line_select_of_none (oldaddr : BitVec w) (hnone : (s.probe g addr).1 = none)
    {k j : ℕ} {tag : BitVec w} {v : V} :
    (s.select g addr oldaddr).2.2.Line g k j tag v ↔
      if k = g.setof addr ∧ j = (s.select g addr oldaddr).1 then
        tag = g.tagof addr ∧ (s.sets k).data j = v
      else s.Line g k j tag v := by
  obtain ⟨a, heq, hdata, hlt, -, hcases⟩ := h.select_cases hvalid oldaddr
  obtain ⟨-, -, -, htags⟩ := hcases.resolve_left fun hfound => by
    simp [hnone] at hfound
  rw [heq, Line]
  by_cases hk : k = g.setof addr
  · subst hk
    rw [sets_update_self, FullyAssociativeArray.Line, htags, hdata]
    by_cases hj : j = (s.select g addr oldaddr).1
    · subst hj
      rw [if_pos ⟨rfl, rfl⟩, update_self]
      exact ⟨fun ⟨_, _, htag, hv⟩ => ⟨htag.symm, hv⟩,
        fun ⟨htag, hv⟩ => ⟨hlt, htag ▸ hvalid, htag.symm, hv⟩⟩
    · rw [if_neg fun hc => hj hc.2, update_of_ne hj]
      rfl
  · rw [if_neg fun hc => hk hc.1, sets_update_of_ne hk]
    rfl

/-- Only the line of the address is lost. -/
theorem Inv.line_invalidate {k j : ℕ} {tag : BitVec w} {v : V} :
    (s.invalidate g blank addr).2.Line g k j tag v ↔
      s.Line g k j tag v ∧ tag ≠ g.tagof addr := by
  obtain ⟨a, heq, ⟨hnone, rfl⟩ | ⟨i, hi, htags, hdata⟩⟩ := h.invalidate_cases hvalid blank
  · rw [heq, line_update_of_eq rfl rfl]
    refine ⟨fun hl => ⟨hl, fun htag => ?_⟩, And.left⟩
    -- the line would have been found
    subst htag
    obtain ⟨hj, -, htag, -⟩ := hl
    have hk := h.home k j hj (htag ▸ hvalid)
    rw [htag, g.setof_tagof] at hk
    subst hk
    have hfound := (FullyAssociativeArray.probe_eq_some_iff (h.unique _) hvalid).mpr ⟨hj, htag⟩
    exact Option.some_ne_none j (hfound.symm.trans hnone)
  · obtain ⟨hlt, htagi⟩ := (FullyAssociativeArray.probe_eq_some_iff (h.unique _) hvalid).mp hi
    have hline : s.Line g (g.setof addr) i (g.tagof addr) ((s.sets (g.setof addr)).data i) :=
      ⟨hlt, hvalid, htagi, rfl⟩
    rw [heq]
    by_cases hki : k = g.setof addr ∧ j = i
    · obtain ⟨rfl, rfl⟩ := hki
      simp only [Line, FullyAssociativeArray.Line, sets_update_self, htags, update_self]
      refine ⟨fun ⟨_, hne, htag, _⟩ => absurd htag.symm hne, fun ⟨⟨_, _, htag, _⟩, hne⟩ => ?_⟩
      exact absurd (htag.symm.trans htagi) hne
    · have hsame : (s.update (g.setof addr) a).Line g k j tag v ↔ s.Line g k j tag v := by
        by_cases hk : k = g.setof addr
        · subst hk
          have hj : j ≠ i := fun hj => hki ⟨rfl, hj⟩
          rw [Line, sets_update_self, FullyAssociativeArray.Line, htags, hdata,
            update_of_ne hj, update_of_ne hj]
          rfl
        · rw [Line, sets_update_of_ne hk, Line]
      refine hsame.trans ⟨fun hl => ⟨hl, fun htag => hki ?_⟩, And.left⟩
      obtain ⟨hk, hj, -⟩ := h.line_unique (htag ▸ hl) hline
      exact ⟨hk, hj⟩

end Operations

/-! ### All runs -/

/-- The calls keep the invariant. -/
theorem Inv.step (h : Inv g s) {act : Action w V} (hvalid : g.tagof act.addr ≠ invalidTag)
    {s' : AssociativeArray w V} (hstep : step g blank s act = some s') : Inv g s' := by
  cases act with
  | probe addr =>
    change g.tagof addr ≠ invalidTag at hvalid
    obtain ⟨a, heq, htags, -⟩ := h.probe_eq hvalid
    rw [← Option.some.inj hstep, heq]
    exact h.update_of_tags_eq htags
  | select addr oldaddr =>
    change g.tagof addr ≠ invalidTag at hvalid
    obtain ⟨a, heq, -, -, -, ⟨-, -, htags⟩ | ⟨-, habsent, -, htags⟩⟩ :=
      h.select_cases hvalid oldaddr
    · rw [← Option.some.inj hstep, heq]
      exact h.update_of_tags_eq htags
    · rw [← Option.some.inj hstep, heq]
      exact h.update_of_absent habsent htags
  | invalidate addr =>
    change g.tagof addr ≠ invalidTag at hvalid
    obtain ⟨a, heq, ⟨-, rfl⟩ | ⟨i, -, htags, -⟩⟩ := h.invalidate_cases hvalid blank
    · rw [← Option.some.inj hstep, heq]
      exact h.update_of_tags_eq rfl
    · rw [← Option.some.inj hstep, heq]
      exact h.update_invalid htags
  | store addr v =>
    obtain ⟨a, ha, rfl⟩ := Option.map_eq_some_iff.mp hstep
    obtain ⟨i, -, rfl⟩ := Option.map_eq_some_iff.mp ha
    exact h.update_of_tags_eq rfl

/-- **The array is a bounded map.** After any operations on addresses with valid tags, for every
geometry: a tag names one line at most. A probe finds the way of the line, if the line is there,
and changes no line. Selecting a line that is there gives its way, changes no line and does not
write `oldaddr`; selecting another gives a way that now holds it, `oldaddr` is the tag that stood
there, and nothing else has changed. Invalidating a line removes this line only. -/
theorem bounded_map {actions : List (Action w V)}
    (h : Run (Guarded (fun _ act => g.tagof act.addr ≠ invalidTag) (Steps (step g blank)))
      (reset blank) actions s) :
    (∀ k k' i j tag v v', s.Line g k i tag v → s.Line g k' j tag v' → k = k' ∧ i = j ∧ v = v') ∧
    ∀ addr, g.tagof addr ≠ invalidTag →
      ((∀ i, (s.probe g addr).1 = some i ↔ ∃ v, s.Line g (g.setof addr) i (g.tagof addr) v) ∧
        ∀ k j tag v, (s.probe g addr).2.Line g k j tag v ↔ s.Line g k j tag v) ∧
      (∀ oldaddr,
        (∃ v, (s.select g addr oldaddr).2.2.Line g (g.setof addr) (s.select g addr oldaddr).1
          (g.tagof addr) v) ∧
        ((s.probe g addr).1 ≠ none →
          (s.probe g addr).1 = some (s.select g addr oldaddr).1 ∧
          (s.select g addr oldaddr).2.1 = oldaddr ∧
          ∀ k j tag v, (s.select g addr oldaddr).2.2.Line g k j tag v ↔ s.Line g k j tag v) ∧
        ((s.probe g addr).1 = none →
          (s.select g addr oldaddr).2.1
            = (s.sets (g.setof addr)).tags.tags (s.select g addr oldaddr).1 ∧
          ∀ k j tag v, (s.select g addr oldaddr).2.2.Line g k j tag v ↔
            if k = g.setof addr ∧ j = (s.select g addr oldaddr).1 then
              tag = g.tagof addr ∧ (s.sets k).data j = v
            else s.Line g k j tag v)) ∧
      (s.invalidate g blank addr).1 = (s.probe g addr).1 ∧
        ∀ k j tag v, (s.invalidate g blank addr).2.Line g k j tag v ↔
          s.Line g k j tag v ∧ tag ≠ g.tagof addr := by
  have hinv : Inv g s := h.invariant inv_reset fun _ _ _ hs hstep => hs.step hstep.1 hstep.2
  refine ⟨fun _ _ _ _ _ _ _ => hinv.line_unique, fun addr hvalid => ?_⟩
  refine ⟨⟨fun i => hinv.line_iff hvalid, fun k j tag v => ?_⟩, fun oldaddr => ?_, ?_,
    fun k j tag v => hinv.line_invalidate hvalid⟩
  · obtain ⟨a, heq, htags, hdata⟩ := hinv.probe_eq hvalid
    rw [heq, line_update_of_eq htags hdata]
  · obtain ⟨a, heq, hdata, hlt, htag, hcases⟩ := hinv.select_cases hvalid oldaddr
    refine ⟨⟨a.data (s.select g addr oldaddr).1, ?_⟩, fun hfound => ?_, fun hnone => ?_⟩
    · rw [heq, Line, sets_update_self]
      exact ⟨hlt, hvalid, htag, rfl⟩
    · obtain ⟨hway, hold, htags⟩ := hcases.resolve_right fun hmiss => hfound hmiss.1
      refine ⟨hway, hold, fun k j tag v => ?_⟩
      rw [heq, line_update_of_eq htags hdata]
    · obtain ⟨-, -, hold, -⟩ := hcases.resolve_left fun hfound => by simp [hnone] at hfound
      exact ⟨hold, fun k j tag v => hinv.line_select_of_none hvalid oldaddr hnone⟩
  · obtain ⟨a, heq, -⟩ := hinv.invalidate_cases hvalid blank
    rw [heq]

/-- Two ways, two sets and lines of 16 bytes. The lines 32 and 64 of set 0 are stored, then line
128 takes the way of line 32, which is reported. -/
theorem bounded_map_two_ways :
    let g : Geometry := ⟨1, 4, 2, by decide⟩
    ∃ s : AssociativeArray 16 ℕ,
      Run (Guarded (fun _ act => g.tagof act.addr ≠ invalidTag) (Steps (step g 0))) (reset 0)
        [.select 32 0, .store 32 5, .select 68 0, .store 64 6] s ∧
      (s.select g 128 0).1 = 0 ∧ (s.select g 128 0).2.1 = 32 ∧
      (s.select g 128 0).2.2.Line g 0 1 64 6 := by
  intro g
  refine exists_run_guarded_imp (fun s => (s.probe g 128).1 = none ∧ (s.select g 128 0).1 = 0 ∧
    (s.select g 128 0).2.1 = 32 ∧ (s.sets 0).tags.tags 1 = 64 ∧ (s.sets 0).data 1 = 6)
    (by decide +kernel) fun s hs hP => ?_
  obtain ⟨hnone, hway, hold, htag, hdata⟩ := hP
  obtain ⟨-, hall⟩ := bounded_map hs
  obtain ⟨-, hselect, -⟩ := hall 128 (by decide)
  obtain ⟨-, -, hmiss⟩ := hselect 0
  refine ⟨hway, hold, ((hmiss hnone).2 0 1 64 6).mpr ?_⟩
  rw [if_neg fun hc => absurd (hc.2.trans hway) (by decide)]
  exact ⟨by decide, by decide, htag, hdata⟩

end AssociativeArray

end HybridMemory.Ptlsim

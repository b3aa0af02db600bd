import Mathlib
import HybridMemory.Lib.Recency

/-!
# The set associative cache

`CacheImpl` keeps its blocks in one array and gives every set a list of pointers to its
blocks, in the order of last use. A lookup compares tags within the set of an address, a new
line goes to an invalid block or else to the last one of the set, and `Read` and `Write` move
a block to the head of its set. The last point is where the code and its design part:
`Read` and `Write` work on set 0, whatever the set of the block.

What keeps the cache in order is that every set holds its own blocks (`OwnBlocks`) and that
no two valid blocks of a set have one tag (`UniqueTags`). `UniqueTags.install` and
`OwnBlocks.moveToHead` say when the operations preserve this.
-/

namespace HybridMemory.NVMain

open Function

/-! ### Blocks and sets -/

def blkValid : UInt32 := 0x01

def blkDirty : UInt32 := 0x02

/-- A block of the cache. -/
structure CacheBlock (D : Type) where
  tag : UInt64
  status : UInt32
  data : D

namespace CacheBlock

variable {D : Type} (b : CacheBlock D)

def isDirty : Bool := b.status &&& (blkValid ||| blkDirty) != 0

def isValid : Bool := b.status &&& blkValid != 0

def invalidate : CacheBlock D := { b with status := 0 }

/-- Every valid block counts as dirty. -/
theorem isDirty_of_isValid (h : b.isValid) : b.isDirty := by
  simp only [isDirty, isValid, bne_iff_ne, ne_eq] at h ⊢
  intro hzero
  refine h ?_
  have hand : b.status &&& blkValid = (b.status &&& (blkValid ||| blkDirty)) &&& blkValid := by
    rw [UInt32.and_assoc]
    rfl
  rw [hand, hzero]
  rfl

/-- Marking a block as dirty does not touch its validity. -/
theorem or_dirty_and_valid (status : UInt32) :
    (status ||| blkDirty) &&& blkValid = status &&& blkValid := by
  apply UInt32.toBitVec_inj.mp
  simp [blkDirty, blkValid, BitVec.and_or_distrib_right]

end CacheBlock

/-- `Log2`, on an `unsigned long` of 64 bits. -/
def log2 (x : UInt64) : UInt64 :=
  let (y, x) := if x &&& 0xffffffff00000000 != 0 then ((32 : UInt64), x >>> 32) else (0, x)
  let (y, x) := if x &&& 0xffff0000 != 0 then (y + 16, x >>> 16) else (y, x)
  let (y, x) := if x &&& 0x0000ff00 != 0 then (y + 8, x >>> 8) else (y, x)
  let (y, x) := if x &&& 0x000000f0 != 0 then (y + 4, x >>> 4) else (y, x)
  let (y, x) := if x &&& 0x0000000c != 0 then (y + 2, x >>> 2) else (y, x)
  if x &&& 0x00000002 != 0 then y + 1 else y

/-- The geometry of a cache. -/
structure CacheConfig where
  assoc : ℕ
  setNum : UInt64
  cacheLineSize : UInt64

namespace CacheConfig

variable (c : CacheConfig)

def setMask : UInt64 := c.setNum - 1

def setShift : UInt64 := log2 c.cacheLineSize

def tagShift : UInt64 := c.setShift + log2 c.setNum

def getTag (pa : UInt64) : UInt64 := pa >>> c.tagShift

def getIndex (pa : UInt64) : UInt64 := (pa &&& c.setMask) >>> c.setShift

def getPA (tag setId : UInt64) : UInt64 := tag <<< c.tagShift ||| setId <<< c.setShift

end CacheConfig

/-- A cache. The blocks are named by their place in the array `blks`, and a set is the list
of its pointers `cacheSet`. -/
structure CacheImpl (D : Type) where
  config : CacheConfig
  blks : ℕ → CacheBlock D
  sets : UInt64 → List ℕ

namespace CacheImpl

variable {D : Type}

/-- The cache as its constructor leaves it. -/
def init (c : CacheConfig) (empty : D) : CacheImpl D where
  config := c
  blks n := ⟨UInt64.ofNat (n % c.assoc), 0, empty⟩
  sets i := List.range' (i.toNat * c.assoc) c.assoc

variable (m : CacheImpl D)

/-- The block holds the line with this tag. -/
def holds (tag : UInt64) (p : ℕ) : Bool := (m.blks p).tag == tag && (m.blks p).isValid

def findBlock (pa : UInt64) : Option ℕ :=
  (m.sets (m.config.getIndex pa)).find? (m.holds (m.config.getTag pa))

/-- The first invalid block of the set, or else the last block. -/
def findVictim (pa : UInt64) : Option ℕ :=
  let set := m.sets (m.config.getIndex pa)
  match set.find? fun p => !(m.blks p).isValid with
  | some p => some p
  | none => set[m.config.assoc - 1]?

/-- `MoveToHead` on a set. -/
def moveToHead (setId : UInt64) (blk : ℕ) : CacheImpl D :=
  { m with sets := update m.sets setId (Recency.toHead blk (m.sets setId)) }

/-- `Read`: the data of a block, which becomes the most recently used one of set 0. -/
def read (target : ℕ) : D × CacheImpl D := ((m.blks target).data, m.moveToHead 0 target)

/-- Mark a block as dirty. -/
def setDirty (blk : ℕ) : CacheImpl D :=
  let status := (m.blks blk).status ||| blkDirty
  { m with blks := update m.blks blk { m.blks blk with status := status } }

/-- `Write`: the data of a block are set, the head of set 0 is marked as dirty, and the block
becomes the head of set 0. -/
def write (target : ℕ) (data : D) : CacheImpl D :=
  let blks := update m.blks target { m.blks target with data := data }
  let m := { m with blks := blks }
  let m := match (m.sets 0).head? with
    | some blk => m.setDirty blk
    | none => m
  m.moveToHead 0 target

def evict (blk : ℕ) : Bool := (m.blks blk).isDirty

/-- `Invalidate` on a block. -/
def invalidate (blk : ℕ) : CacheImpl D :=
  { m with blks := update m.blks blk (m.blks blk).invalidate }

def install (pa : UInt64) (victimBlk : ℕ) (data : D) : CacheImpl D :=
  { m with blks := update m.blks victimBlk ⟨m.config.getTag pa, blkValid, data⟩ }

/-! ### A cache in order -/

/-- Every set holds its own blocks. -/
def OwnBlocks : Prop := ∀ i : UInt64,
  (m.sets i).Perm (List.range' (i.toNat * m.config.assoc) m.config.assoc)

/-- No set holds two valid blocks with one tag. -/
def UniqueTags : Prop := ∀ i, ∀ p ∈ m.sets i, ∀ q ∈ m.sets i, p ≠ q →
  (m.blks p).isValid → (m.blks q).isValid → (m.blks p).tag ≠ (m.blks q).tag

variable {m}

theorem ownBlocks_init (c : CacheConfig) (empty : D) : (init c empty).OwnBlocks :=
  fun _ => List.Perm.refl _

theorem uniqueTags_init (c : CacheConfig) (empty : D) : (init c empty).UniqueTags := by
  intro i p _ q _ _ hp
  simp [init, CacheBlock.isValid] at hp

/-- A block is in one set only. -/
theorem OwnBlocks.eq_of_mem (h : m.OwnBlocks) {i j : UInt64} {p : ℕ} (hi : p ∈ m.sets i)
    (hj : p ∈ m.sets j) : i = j := by
  have hi := (h i).mem_iff.mp hi
  have hj := (h j).mem_iff.mp hj
  rw [List.mem_range'_1] at hi hj
  have hdiv : ∀ {k : ℕ}, k * m.config.assoc ≤ p ∧ p < k * m.config.assoc + m.config.assoc →
      p / m.config.assoc = k := fun {k} hk => by
    rw [Nat.div_eq_of_lt_le hk.1]
    rw [Nat.succ_mul]
    exact hk.2
  exact UInt64.toNat.inj ((hdiv hi).symm.trans (hdiv hj))

theorem OwnBlocks.moveToHead (h : m.OwnBlocks) {i : UInt64} {p : ℕ} (hp : p ∈ m.sets i) :
    (m.moveToHead i p).OwnBlocks := by
  intro j
  by_cases hj : j = i
  · subst hj
    simp only [CacheImpl.moveToHead, update_self]
    exact (Recency.toHead_perm hp).trans (h j)
  · simp only [CacheImpl.moveToHead, update_of_ne hj]
    exact h j

theorem findBlock_eq_some {pa : UInt64} {p : ℕ} (h : m.findBlock pa = some p) :
    p ∈ m.sets (m.config.getIndex pa) ∧ (m.blks p).tag = m.config.getTag pa ∧
      (m.blks p).isValid := by
  have hholds := List.find?_some h
  simp only [holds, Bool.and_eq_true, beq_iff_eq] at hholds
  exact ⟨List.mem_of_find?_eq_some h, hholds.1, hholds.2⟩

theorem findBlock_eq_none {pa : UInt64} (h : m.findBlock pa = none) {q : ℕ}
    (hq : q ∈ m.sets (m.config.getIndex pa)) (hvalid : (m.blks q).isValid) :
    (m.blks q).tag ≠ m.config.getTag pa := by
  have hholds := List.find?_eq_none.mp h q hq
  simp only [holds, Bool.and_eq_true, beq_iff_eq, not_and] at hholds
  exact fun htag => hholds htag hvalid

/-- In a cache with unique tags a lookup finds the one block that holds the line. -/
theorem UniqueTags.eq_of_findBlock (h : m.UniqueTags) {pa : UInt64} {p q : ℕ}
    (hp : m.findBlock pa = some p) (hq : q ∈ m.sets (m.config.getIndex pa))
    (hvalid : (m.blks q).isValid) (htag : (m.blks q).tag = m.config.getTag pa) : q = p := by
  obtain ⟨hmem, htag', hvalid'⟩ := findBlock_eq_some hp
  by_contra hne
  exact h _ q hq p hmem hne hvalid hvalid' (htag.trans htag'.symm)

theorem mem_of_findVictim {pa : UInt64} {p : ℕ} (h : m.findVictim pa = some p) :
    p ∈ m.sets (m.config.getIndex pa) := by
  simp only [findVictim] at h
  split at h
  · rename_i q hq
    exact Option.some.inj h ▸ List.mem_of_find?_eq_some hq
  · exact List.mem_of_getElem? h

/-- A line can go to a block if no other block of its set holds it. -/
theorem UniqueTags.install (hown : m.OwnBlocks) (h : m.UniqueTags) {pa : UInt64} {v : ℕ}
    (hv : v ∈ m.sets (m.config.getIndex pa))
    (hother : ∀ q ∈ m.sets (m.config.getIndex pa), (m.blks q).isValid →
      (m.blks q).tag = m.config.getTag pa → q = v) (data : D) :
    (m.install pa v data).UniqueTags := by
  -- a block that differs from the new one and shares its set does not have the tag
  have hnew : ∀ i, v ∈ m.sets i → ∀ q ∈ m.sets i, q ≠ v → (m.blks q).isValid →
      (m.blks q).tag ≠ m.config.getTag pa := by
    intro i hvi q hq hne hvalid htag
    obtain rfl := hown.eq_of_mem hvi hv
    exact hne (hother q hq hvalid htag)
  intro i p hp q hq hne hpvalid hqvalid
  simp only [CacheImpl.install, update_apply] at hp hq hpvalid hqvalid ⊢
  by_cases hpv : p = v
  · have hqv : q ≠ v := fun heq => hne (hpv.trans heq.symm)
    rw [if_pos hpv, if_neg hqv]
    rw [if_neg hqv] at hqvalid
    exact (hnew i (hpv ▸ hp) q hq hqv hqvalid).symm
  · rw [if_neg hpv] at hpvalid ⊢
    by_cases hqv : q = v
    · rw [if_pos hqv]
      exact hnew i (hqv ▸ hq) p hp hpv hpvalid
    · rw [if_neg hqv] at hqvalid ⊢
      exact h i p hp q hq hne hpvalid hqvalid

/-- Uniqueness of tags depends on the sets, tags and validities only. -/
theorem UniqueTags.congr {m' : CacheImpl D} (h : m.UniqueTags)
    (hsets : ∀ i p, p ∈ m'.sets i → p ∈ m.sets i)
    (hblks : ∀ p, (m'.blks p).tag = (m.blks p).tag ∧
      ((m'.blks p).isValid → (m.blks p).isValid)) : m'.UniqueTags := by
  intro i p hp q hq hne hpvalid hqvalid
  rw [(hblks p).1, (hblks q).1]
  exact h i p (hsets i p hp) q (hsets i q hq) hne ((hblks p).2 hpvalid) ((hblks q).2 hqvalid)

/-- In a direct mapped cache tags are unique whatever the blocks are. -/
theorem uniqueTags_of_length_le (h : ∀ i, (m.sets i).length ≤ 1) : m.UniqueTags := by
  intro i p hp q hq hne
  have hle := h i
  match hset : m.sets i with
  | [] =>
    rw [hset] at hp
    cases hp
  | [n] =>
    rw [hset, List.mem_singleton] at hp hq
    exact absurd (hp.trans hq.symm) hne
  | _ :: _ :: _ => simp [hset] at hle

theorem length_moveToHead (i j : UInt64) (p : ℕ) :
    ((m.moveToHead i p).sets j).length = (m.sets j).length := by
  simp only [CacheImpl.moveToHead, update_apply]
  split_ifs with hj
  · rw [Recency.length_toHead, hj]
  · rfl

theorem length_write (p : ℕ) (data : D) (j : UInt64) :
    ((m.write p data).sets j).length = (m.sets j).length := by
  unfold CacheImpl.write
  rw [length_moveToHead]
  split <;> rfl

/-- The cache is in order. -/
def Ordered (m : CacheImpl D) : Prop := m.OwnBlocks ∧ m.UniqueTags

theorem Ordered.moveToHead (h : m.Ordered) {i : UInt64} {p : ℕ} (hp : p ∈ m.sets i) :
    (m.moveToHead i p).Ordered := by
  refine ⟨h.1.moveToHead hp, h.2.congr (fun j q hq => ?_) fun q => ⟨rfl, id⟩⟩
  exact (h.1 j).mem_iff.mpr (((h.1.moveToHead hp) j).mem_iff.mp hq)

/-- Setting data and the dirty bit does not disturb the order. -/
theorem Ordered.of_blks (h : m.Ordered) {blks : ℕ → CacheBlock D}
    (hblks : ∀ p, (blks p).tag = (m.blks p).tag ∧ ((blks p).isValid → (m.blks p).isValid)) :
    Ordered { m with blks := blks } :=
  ⟨h.1, h.2.congr (fun _ _ hp => hp) hblks⟩

theorem Ordered.setDirty (h : m.Ordered) (blk : ℕ) : (m.setDirty blk).Ordered := by
  refine h.of_blks fun p => ?_
  by_cases hp : p = blk
  · subst hp
    simp only [update_self, CacheBlock.isValid, CacheBlock.or_dirty_and_valid]
    exact ⟨trivial, id⟩
  · rw [update_of_ne hp]
    exact ⟨rfl, id⟩

/-- A write to a block of set 0. -/
theorem Ordered.write (h : m.Ordered) {p : ℕ} (hp : p ∈ m.sets 0) (data : D) :
    (m.write p data).Ordered := by
  have hdata : Ordered
      { m with blks := update m.blks p { m.blks p with data := data } } := by
    refine h.of_blks fun q => ?_
    by_cases hq : q = p
    · subst hq
      rw [update_self]
      exact ⟨rfl, id⟩
    · rw [update_of_ne hq]
      exact ⟨rfl, id⟩
  simp only [CacheImpl.write]
  split
  · exact (hdata.setDirty _).moveToHead hp
  · exact hdata.moveToHead hp

theorem Ordered.install (h : m.Ordered) {pa : UInt64} {v : ℕ}
    (hv : v ∈ m.sets (m.config.getIndex pa))
    (hother : ∀ q ∈ m.sets (m.config.getIndex pa), (m.blks q).isValid →
      (m.blks q).tag = m.config.getTag pa → q = v) (data : D) :
    (m.install pa v data).Ordered :=
  ⟨h.1, h.2.install h.1 hv hother data⟩

theorem isValid_invalidate (v q : ℕ) :
    ((m.invalidate v).blks q).isValid = (decide (q ≠ v) && (m.blks q).isValid) := by
  by_cases hq : q = v
  · simp [CacheImpl.invalidate, hq, CacheBlock.isValid, CacheBlock.invalidate]
  · simp [CacheImpl.invalidate, hq]

theorem Ordered.invalidate (h : m.Ordered) (v : ℕ) : (m.invalidate v).Ordered := by
  refine h.of_blks fun q => ⟨?_, fun hq => ?_⟩
  · by_cases hq : q = v
    · subst hq
      rw [update_self]
      rfl
    · rw [update_of_ne hq]
  · have hvalid := isValid_invalidate (m := m) v q
    rw [show ((m.invalidate v).blks q).isValid = true from hq] at hvalid
    simp only [Bool.true_eq, Bool.and_eq_true] at hvalid
    exact hvalid.2

end CacheImpl

end HybridMemory.NVMain

import HybridMemory.Lib.Transition
import HybridMemory.NVMain.CacheAssoc

/-!
# The blocks of the sets

The constructor of the cache gives the blocks `i * assoc` to `i * assoc + assoc - 1` to the
set `i`. `FindVictim`, `Install` and `Evict` leave the pointers of the sets alone, and
`MoveToHead` rotates the pointers of a set when the block is one of them (`toHead_perm`).
`Read` and `Write` call it on set 0. A block of another set is pushed into set 0 then, and the
last block of set 0 falls out of it, so that the sets keep their blocks exactly as long as
only blocks of set 0 are read and written (`keepsBlocks_iff`).

`MoveToTail` should be the counterpart of `MoveToHead`; it writes every block back to the place
it was read from (`move_block`).
-/

namespace HybridMemory.NVMain

open Transition Function

namespace CacheImpl

variable {D : Type}

/-- The operations on a cache. A target may be a null pointer. -/
inductive Op (D : Type)
  | findVictim (pa : UInt64)
  | install (pa : UInt64) (victimBlk : ℕ) (data : D)
  | read (target : Option ℕ)
  | write (target : Option ℕ) (data : D)
  | evict (blk : Option ℕ)

/-- What an operation does to the cache. -/
def step (m : CacheImpl D) : Op D → Option (CacheImpl D)
  | .findVictim _ => some m
  | .install pa victimBlk data => some (m.install pa victimBlk data)
  | .read none => some m
  | .read (some target) => some (m.read target).2
  | .write none _ => some m
  | .write (some target) data => some (m.write target data)
  | .evict _ => some m

/-- The block that an operation moves to the head of set 0. -/
def Op.moved : Op D → Option ℕ
  | .read target => target
  | .write target _ => target
  | .findVictim _ => none
  | .install _ _ _ => none
  | .evict _ => none

/-- Every set has exactly the blocks that the constructor gave to it, and no block twice; no
block is in two sets. -/
structure KeepsBlocks (m : CacheImpl D) : Prop where
  perm : ∀ i < m.config.setNum,
    (m.sets i).Perm (List.range' (i.toNat * m.config.assoc) m.config.assoc)
  nodup : ∀ i < m.config.setNum, (m.sets i).Nodup
  disjoint : ∀ i < m.config.setNum, ∀ j < m.config.setNum, i ≠ j →
    (m.sets i).Disjoint (m.sets j)

theorem OwnBlocks.keepsBlocks {m : CacheImpl D} (h : m.OwnBlocks) : m.KeepsBlocks where
  perm i _ := h i
  nodup i _ := (h i).nodup_iff.mpr List.nodup_range'
  disjoint _ _ _ _ hne _ hi hj := hne (h.eq_of_mem hi hj)

theorem write_sets (m : CacheImpl D) (blk : ℕ) (data : D) :
    (m.write blk data).config = m.config ∧
      (m.write blk data).sets = update m.sets 0 (Recency.toHead blk (m.sets 0)) := by
  simp only [CacheImpl.write]
  split <;> exact ⟨rfl, rfl⟩

/-- An operation changes the pointers by `MoveToHead` on set 0, and never the geometry. -/
theorem step_eq_some {m m' : CacheImpl D} {op : Op D} (h : m.step op = some m') :
    m'.config = m.config ∧ m'.sets = match op.moved with
      | some blk => update m.sets 0 (Recency.toHead blk (m.sets 0))
      | none => m.sets := by
  match op with
  | .findVictim _ | .evict _ | .read none | .write none _ =>
    exact Option.some.inj h ▸ ⟨rfl, rfl⟩
  | .install _ _ _ => exact Option.some.inj h ▸ ⟨rfl, rfl⟩
  | .read (some _) => exact Option.some.inj h ▸ ⟨rfl, rfl⟩
  | .write (some blk) data =>
    exact Option.some.inj h ▸ write_sets m blk data

/-- A block from outside that is moved to the head gets into a set that has blocks. -/
theorem mem_toHead {x : ℕ} {l : List ℕ} (h : l ≠ []) : x ∈ Recency.toHead x l := by
  unfold Recency.toHead
  split_ifs with hhead
  · exact List.mem_of_head? hhead
  · obtain ⟨y, l, rfl⟩ := List.exists_cons_of_ne_nil h
    exact List.mem_cons_self

section Step

variable {m m' : CacheImpl D} {op : Op D}

/-- Reading or writing a block of set 0 keeps the blocks where they are. -/
theorem OwnBlocks.step (h : m.OwnBlocks) (hstep : m.step op = some m')
    (hmoved : ∀ blk, op.moved = some blk → blk < m.config.assoc) : m'.OwnBlocks := by
  obtain ⟨hconfig, hsets⟩ := step_eq_some hstep
  cases hop : op.moved with
  | none =>
    rw [hop] at hsets
    intro i
    rw [hconfig, hsets]
    exact h i
  | some blk =>
    rw [hop] at hsets
    have hmem : blk ∈ m.sets 0 := by
      refine (h 0).mem_iff.mpr ?_
      simpa [List.mem_range'_1] using hmoved blk hop
    intro i
    rw [hconfig, hsets]
    exact h.moveToHead hmem i

/-- Reading or writing a block of another set takes a block away from set 0. -/
theorem not_keepsBlocks_step (h : m.OwnBlocks) (hassoc : 0 < m.config.assoc)
    (hset : 0 < m.config.setNum) (hstep : m.step op = some m') {blk : ℕ}
    (hmoved : op.moved = some blk) (hblk : ¬ blk < m.config.assoc) : ¬ m'.KeepsBlocks := by
  intro hkeep
  obtain ⟨hconfig, hsets⟩ := step_eq_some hstep
  rw [hmoved] at hsets
  have hne : m.sets 0 ≠ [] := by
    intro hnil
    have := (h 0).length_eq
    simp [hnil] at this
    omega
  have hmem : blk ∈ m'.sets 0 := by
    rw [hsets]
    simpa using mem_toHead hne
  have := (hkeep.perm 0 (hconfig ▸ hset)).mem_iff.mp hmem
  rw [hconfig] at this
  simp [List.mem_range'_1] at this
  omega

end Step

/-- **When the sets keep their blocks.** Along any operations on a new cache, every set has
exactly the blocks of the constructor, each once, if and only if only blocks of set 0 are read
and written. -/
theorem keepsBlocks_iff (c : CacheConfig) (hassoc : 0 < c.assoc) (hset : 0 < c.setNum)
    (empty : D) {ops : List (Op D)} {m : CacheImpl D}
    (hrun : Run (Steps step) (init c empty) ops m) :
    (∀ m', Visits (Steps step) (init c empty) ops m' → m'.KeepsBlocks) ↔
      ∀ op ∈ ops, ∀ blk, op.moved = some blk → blk < c.assoc := by
  have hiff := forall_visits_iff
    (G := fun _ op => ∀ blk, op.moved = some blk → blk < c.assoc)
    (I := fun m : CacheImpl D => m.config = c ∧ m.OwnBlocks) (P := KeepsBlocks)
    (fun m h => h.2.keepsBlocks)
    (fun m op m' h hstep hG =>
      ⟨(step_eq_some hstep).1.trans h.1, h.2.step hstep (h.1 ▸ hG)⟩)
    (fun m op m' h hstep hG => by
      push Not at hG
      obtain ⟨blk, hmoved, hblk⟩ := hG
      obtain ⟨rfl, hown⟩ := h
      exact not_keepsBlocks_step hown hassoc hset hstep hmoved (Nat.not_lt.mpr hblk))
    ⟨rfl, ownBlocks_init c empty⟩ hrun
  rw [hiff, run_guarded_iff_forall]
  exact and_iff_right hrun

/-- A cache of two ways, eight sets and lines of four bytes. -/
private def smallGeometry : CacheConfig := ⟨2, 8, 4⟩

/-- Blocks of set 0 may be read and written in any order. -/
theorem keepsBlocks_setZero :
    ∃ m, Run (Steps step) (init smallGeometry 0)
        [Op.install 0 0 7, .read (some 1), .write (some 0) 5, .evict none] m ∧
      ∀ m', Visits (Steps step) (init smallGeometry 0)
        [Op.install 0 0 7, .read (some 1), .write (some 0) 5, .evict none] m' →
        m'.KeepsBlocks :=
  ⟨_, run_steps_iff.mpr rfl,
    (keepsBlocks_iff smallGeometry (by decide) (by decide) 0 (run_steps_iff.mpr rfl)).mpr
      (by simp [Op.moved, smallGeometry])⟩

/-- The line of address 4 goes to block 2, the first one of set 1. Reading it there puts
block 2 into set 0 as well, which loses block 1. -/
theorem read_loses_block :
    ∃ m m', Run (Steps step) (init smallGeometry 0) [Op.install 4 2 7] m ∧
      (init smallGeometry 0).findVictim 4 = some 2 ∧ m.findBlock 4 = some 2 ∧
      m.step (.read (m.findBlock 4)) = some m' ∧ m'.sets 0 = [2, 0] ∧ m'.sets 1 = [2, 3] := by
  refine ⟨_, _, run_steps_iff.mpr rfl, ?_, ?_, rfl, ?_, ?_⟩ <;> decide

/-! ### Moving a block in its set -/

/-- The loop of `MoveToTail` from place `i - 1` down. The block of the place is read into
`tmp_blk` before `tmp_blk` is written to the place, so that the block is written back; what
`swap_tmp` holds is never used. -/
def toTailFrom (blk : ℕ) : ℕ → List ℕ → List ℕ
  | 0, set => set
  | i + 1, set =>
    match set[i]? with
    | none => set
    | some tmpBlk =>
      let set := set.set i tmpBlk
      if tmpBlk ≠ blk then toTailFrom blk i set else set

/-- `MoveToTail` on a set. -/
def moveToTail (m : CacheImpl D) (setId : UInt64) (blk : ℕ) : CacheImpl D :=
  let set := m.sets setId
  { m with
    sets := update m.sets setId
      (if set.getLast? = some blk then set else toTailFrom blk set.length set) }

theorem toTailFrom_eq (blk i : ℕ) (set : List ℕ) : toTailFrom blk i set = set := by
  induction i with
  | zero => rfl
  | succ i ih =>
    rw [toTailFrom]
    cases hget : set[i]? with
    | none => rfl
    | some tmpBlk =>
      have hsame : set.set i tmpBlk = set := by
        obtain ⟨hi, rfl⟩ := List.getElem?_eq_some_iff.mp hget
        exact List.set_getElem_self hi
      simp only [hsame, ih, ite_self]

theorem sets_moveToTail (m : CacheImpl D) (i : UInt64) (blk : ℕ) :
    (m.moveToTail i blk).sets = m.sets := by
  simp only [moveToTail, toTailFrom_eq, ite_self, update_eq_self]

/-- **Moving a block in its set.** `MoveToHead` puts a block of the set in front and leaves the
others in their order. `MoveToTail` changes nothing, so that the block is the last one afterwards
if and only if it was before. -/
theorem move_block (m : CacheImpl D) (i : UInt64) {blk : ℕ} (h : blk ∈ m.sets i) :
    (m.moveToHead i blk).sets i = blk :: (m.sets i).erase blk ∧
      ((m.moveToHead i blk).sets i).Perm (m.sets i) ∧
      (m.moveToTail i blk).sets i = m.sets i ∧
      (((m.moveToTail i blk).sets i).getLast? = some blk ↔ (m.sets i).getLast? = some blk) := by
  have hhead : (m.moveToHead i blk).sets i = Recency.toHead blk (m.sets i) :=
    update_self ..
  rw [hhead, sets_moveToTail]
  exact ⟨Recency.toHead_eq h, Recency.toHead_perm h, rfl, Iff.rfl⟩

/-- The third of four blocks. -/
theorem move_block_four :
    ((init ⟨4, 1, 64⟩ ()).moveToHead 0 2).sets 0 = [2, 0, 1, 3] ∧
      ((init ⟨4, 1, 64⟩ ()).moveToTail 0 2).sets 0 = [0, 1, 2, 3] := by
  obtain ⟨hhead, -, htail, -⟩ := move_block (init ⟨4, 1, 64⟩ ()) 0 (show 2 ∈ _ by decide)
  exact ⟨hhead.trans (by decide), htail.trans (by decide)⟩

/-- The first of two blocks stays the first one. -/
theorem not_moved_to_tail :
    0 ∈ (init ⟨2, 1, 64⟩ ()).sets 0 ∧
      ((init ⟨2, 1, 64⟩ ()).moveToTail 0 0).sets 0 = [0, 1] ∧
      ((init ⟨2, 1, 64⟩ ()).moveToTail 0 0).sets 0 ≠
        ((init ⟨2, 1, 64⟩ ()).sets 0).erase 0 ++ [0] := by
  decide

end CacheImpl

end HybridMemory.NVMain

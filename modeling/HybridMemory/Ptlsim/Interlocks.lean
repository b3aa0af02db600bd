import Mathlib.Data.Fintype.Basic
import HybridMemory.Ptlsim.AssociativeArray

/-!
# Interlocks

A context that runs a locked instruction grabs the interlock of an aligned block of eight
bytes. The interlocks are the lines of a lockable set-associative array: selecting a line
locks it, a locked line is not replaced, and releasing the lock invalidates the line.

The tags of a set are searched by adding up the numbers of the ways that match, which finds
the way only if there is one match; and the replacement falls back to way 0 if no way is both
unlocked and not recently used, locked or not. `LockableSet.Ok` is the invariant that keeps
both from going wrong: valid tags are distinct and belong to locked ways, and a way that is
not locked is not marked as recently used.

`held` is the history of who holds which block by the answers given: it is not in the source.

* `locks_safe`: in every run a block is held by at most one context, the array knows who holds
  what, `probe_lock` answers accordingly, and a holder's `invalidate_lock` meets no failing
  assertion.
-/

namespace HybridMemory.Ptlsim

open Transition Function

/-! ### The lockable associative array -/

/-- `LockableFullyAssociativeTags<W64, ways>` -/
structure LockableTags (ways : ℕ) where
  evictmap : Fin ways → Bool
  unlockedmap : Fin ways → Bool
  tags : Fin ways → UInt64

namespace LockableTags

variable {ways : ℕ}

/-- `reset( )` -/
def reset : LockableTags ways where
  evictmap _ := false
  unlockedmap _ := true
  tags _ := invalidTag

/-- `use( way )` -/
def use (t : LockableTags ways) (way : Fin ways) : LockableTags ways :=
  { t with evictmap := update t.evictmap way true }

/-- `match( target )`: the sum of the numbers of the matching ways, counted from one, and
none if it is zero. The source indexes with a sum beyond the last way as it is. -/
def match_ (t : LockableTags ways) (target : UInt64) : Option (Fin ways) :=
  let way := matchSum fun i => t.tags i = target
  if h : 0 < way ∧ way - 1 < ways then some ⟨way - 1, h.2⟩ else none

/-- `probe( target )` -/
def probe (t : LockableTags ways) (target : UInt64) : Option (Fin ways) × LockableTags ways :=
  match t.match_ target with
  | none => (none, t)
  | some way => (some way, t.use way)

/-- `lru( )` -/
def lru [NeZero ways] (t : LockableTags ways) : Option (Fin ways) :=
  if ∀ i, t.unlockedmap i = false then none
  else some (((List.finRange ways).find? fun i => !t.evictmap i && t.unlockedmap i).getD 0)

/-- `select( target )` -/
def select [NeZero ways] (t : LockableTags ways) (target : UInt64) :
    Option (Fin ways) × LockableTags ways :=
  match t.probe target with
  | (some way, t) => (some way, t.use way)
  | (none, t) =>
    match t.lru with
    | none => (none, t)
    | some way =>
      let t := if ∀ i, t.evictmap i = true then { t with evictmap := fun _ => false } else t
      (some way, { t with tags := update t.tags way target }.use way)

/-- `select_and_lock( target )` -/
def selectAndLock [NeZero ways] (t : LockableTags ways) (target : UInt64) :
    Option (Fin ways) × LockableTags ways :=
  match t.select target with
  | (none, t) => (none, t)
  | (some way, t) => (some way, { t with unlockedmap := update t.unlockedmap way false })

/-- `invalidate_way( way )` -/
def invalidateWay (t : LockableTags ways) (way : Fin ways) : LockableTags ways where
  evictmap := update t.evictmap way false
  unlockedmap := update t.unlockedmap way true
  tags := update t.tags way invalidTag

end LockableTags

/-- `MemoryInterlockEntry` -/
structure MemoryInterlockEntry where
  ctxId : UInt8
  deriving DecidableEq

/-- `MemoryInterlockEntry::reset` -/
def MemoryInterlockEntry.reset : MemoryInterlockEntry := ⟨255⟩

/-- `LockableFullyAssociativeArray`, one set of interlocks. -/
structure LockableSet (ways : ℕ) where
  tags : LockableTags ways
  data : Fin ways → MemoryInterlockEntry

/-- `MemoryInterlockBuffer`: 16 sets of 4 ways. -/
abbrev Interlocks := Fin 16 → LockableSet 4

namespace Interlocks

/-- `reset( )` -/
def reset : Interlocks := fun _ => ⟨.reset, fun _ => .reset⟩

/-- `tagof( addr )`: the block of eight bytes. -/
def tagof (addr : UInt64) : UInt64 := addr / 8 * 8

/-- `setof( addr )`: bits 3 to 6. -/
def setof (addr : UInt64) : Fin 16 := ⟨addr.toNat / 8 % 16, Nat.mod_lt _ (by omega)⟩

/-- `grab_lock( lockaddr, ctx_id )` -/
def grabLock (a : Interlocks) (lockaddr : UInt64) (ctx : UInt8) : Bool × Interlocks :=
  let set := a (setof lockaddr)
  match set.tags.selectAndLock (tagof lockaddr) with
  | (none, tags) => (false, update a (setof lockaddr) { set with tags := tags })
  | (some way, tags) =>
    if (set.data way).ctxId = 255 then
      (true, update a (setof lockaddr)
        ⟨tags, update set.data way ⟨ctx⟩⟩)
    else (false, update a (setof lockaddr) { set with tags := tags })

/-- `invalidate_lock( lockaddr, ctx_id )`: its assertions are that the block is in the array
and belongs to the context. The line is probed twice. -/
def invalidateLock (a : Interlocks) (lockaddr : UInt64) (ctx : UInt8) : Option Interlocks :=
  let set := a (setof lockaddr)
  match set.tags.probe (tagof lockaddr) with
  | (none, _) => none
  | (some way, tags) =>
    if (set.data way).ctxId = ctx then
      match tags.probe (tagof lockaddr) with
      | (none, tags) => some (update a (setof lockaddr) { set with tags := tags })
      | (some way, tags) => some (update a (setof lockaddr)
          ⟨tags.invalidateWay way, update set.data way .reset⟩)
    else none

/-- `probe_lock( lockaddr, ctx_id )` -/
def probeLock (a : Interlocks) (lockaddr : UInt64) (ctx : UInt8) : Bool × Interlocks :=
  let set := a (setof lockaddr)
  match set.tags.probe (tagof lockaddr) with
  | (none, tags) => (true, update a (setof lockaddr) { set with tags := tags })
  | (some way, tags) =>
    ((set.data way).ctxId = ctx, update a (setof lockaddr) { set with tags := tags })

end Interlocks

/-! ### Runs -/

/-- A call, by a context. -/
inductive LockCall
  | grab (lockaddr : UInt64) (ctx : UInt8)
  | probe (lockaddr : UInt64) (ctx : UInt8)
  | invalidate (lockaddr : UInt64) (ctx : UInt8)

/-- The interlocks with the blocks that contexts hold: those they grabbed with success and have
not released. -/
structure LockState where
  interlocks : Interlocks
  held : List (UInt64 × UInt8)

namespace LockState

/-- No lock is held. -/
def init : LockState := ⟨.reset, []⟩

/-- One call. The ids of contexts are below 255, and only a holder releases a lock. -/
def step (s : LockState) : LockCall → Option LockState
  | .grab lockaddr ctx =>
    if ctx < 255 then
      let r := s.interlocks.grabLock lockaddr ctx
      some ⟨r.2, if r.1 then (Interlocks.tagof lockaddr, ctx) :: s.held else s.held⟩
    else none
  | .probe lockaddr ctx =>
    if ctx < 255 then some { s with interlocks := (s.interlocks.probeLock lockaddr ctx).2 }
    else none
  | .invalidate lockaddr ctx =>
    if (Interlocks.tagof lockaddr, ctx) ∈ s.held then
      (s.interlocks.invalidateLock lockaddr ctx).map fun a =>
        ⟨a, s.held.filter (· ≠ (Interlocks.tagof lockaddr, ctx))⟩
    else none

/-- The array has a line for the block that belongs to the context. -/
def Owns (s : LockState) (block : UInt64) (ctx : UInt8) : Prop :=
  ∃ way, (s.interlocks (Interlocks.setof block)).tags.tags way = block ∧
    ((s.interlocks (Interlocks.setof block)).data way).ctxId = ctx

/-- What the interlocks are for, in a state of a run. -/
structure Safe (s : LockState) : Prop where
  /-- At most one context holds a block. -/
  exclusive : ∀ block c c', (block, c) ∈ s.held → (block, c') ∈ s.held → c = c'
  /-- A held lock stays in the array, with its owner. -/
  kept : ∀ block c, (block, c) ∈ s.held → s.Owns block c
  /-- `probe_lock` tells a context that it may proceed if no other context holds the block, and
  only then. -/
  probe_iff : ∀ lockaddr ctx, (s.interlocks.probeLock lockaddr ctx).1 = true ↔
    ∀ c, (Interlocks.tagof lockaddr, c) ∈ s.held → c = ctx
  /-- No assertion of `invalidate_lock` fails. -/
  release : ∀ lockaddr ctx, (Interlocks.tagof lockaddr, ctx) ∈ s.held →
    (s.interlocks.invalidateLock lockaddr ctx).isSome

end LockState

/-! ### One set -/

namespace LockableTags

variable {ways : ℕ} {t : LockableTags ways} {target : UInt64} {i : Fin ways}

theorem match_eq_some (hi : t.tags i = target) (huniq : ∀ j, t.tags j = target → j = i) :
    t.match_ target = some i := by
  simp [match_, matchSum_of_unique (p := fun i => t.tags i = target) hi huniq]

theorem match_eq_none (h : ∀ j, t.tags j ≠ target) : t.match_ target = none := by
  simp [match_, matchSum_of_absent h]

/-- The tags with `target` at way `i`, locked. -/
def lockedAt (t : LockableTags ways) (i : Fin ways) (target : UInt64) : LockableTags ways where
  evictmap := update t.evictmap i true
  unlockedmap := update t.unlockedmap i false
  tags := update t.tags i target

theorem selectAndLock_of_mem [NeZero ways] (hi : t.tags i = target)
    (huniq : ∀ j, t.tags j = target → j = i) :
    t.selectAndLock target = (some i, t.lockedAt i target) := by
  have htags : update t.tags i target = t.tags := by rw [← hi, update_eq_self]
  simp only [selectAndLock, select, probe, match_eq_some hi huniq, use, lockedAt,
    update_idem, htags]

theorem selectAndLock_of_full [NeZero ways] (habsent : ∀ j, t.tags j ≠ target)
    (hfull : ∀ j, t.unlockedmap j = false) : t.selectAndLock target = (none, t) := by
  simp only [selectAndLock, select, probe, match_eq_none habsent, lru, if_pos hfull]

/-- A new tag goes to a way that is not locked, if those are not marked as used. -/
theorem exists_selectAndLock [NeZero ways] (habsent : ∀ j, t.tags j ≠ target)
    (hevict : ∀ j, t.unlockedmap j = true → t.evictmap j = false)
    (hfree : ¬ ∀ j, t.unlockedmap j = false) :
    ∃ i, t.unlockedmap i = true ∧ t.selectAndLock target = (some i, t.lockedAt i target) := by
  obtain ⟨j, hj⟩ := not_forall.mp hfree
  have hj : t.unlockedmap j = true := by simpa using hj
  obtain ⟨i, hi⟩ : ∃ i, (List.finRange ways).find?
      (fun i => !t.evictmap i && t.unlockedmap i) = some i := by
    rw [← Option.isSome_iff_exists, List.find?_isSome]
    exact ⟨j, List.mem_finRange j, by simp [hj, hevict j hj]⟩
  have hfound := List.find?_some hi
  have hunlocked : t.unlockedmap i = true := by
    rw [Bool.and_eq_true] at hfound
    exact hfound.2
  have hnot : ¬ ∀ j, t.evictmap j = true := fun hall => by
    simpa [hall i] using hevict i hunlocked
  refine ⟨i, hunlocked, ?_⟩
  simp only [selectAndLock, select, probe, match_eq_none habsent, lru, if_neg hfree, hi,
    Option.getD_some, if_neg hnot, use, lockedAt]

end LockableTags

namespace LockableSet

variable {ways : ℕ} {set : LockableSet ways} {target : UInt64} {i : Fin ways}

/-- The invariant of a set. -/
structure Ok (set : LockableSet ways) : Prop where
  /-- The valid tags are those of the locked ways. -/
  locked_iff : ∀ i, set.tags.unlockedmap i = false ↔ set.tags.tags i ≠ invalidTag
  /-- A way that is not locked is not marked as recently used. -/
  evict : ∀ i, set.tags.unlockedmap i = true → set.tags.evictmap i = false
  /-- The ways with no owner are those that are not locked. -/
  free_iff : ∀ i, set.tags.unlockedmap i = true ↔ (set.data i).ctxId = 255
  /-- No valid tag stands in two ways. -/
  unique : ∀ i j, set.tags.tags i = set.tags.tags j → set.tags.tags i ≠ invalidTag → i = j

theorem ok_reset : Ok (⟨.reset, fun _ => .reset⟩ : LockableSet ways) where
  locked_iff _ := by simp [LockableTags.reset]
  evict _ _ := rfl
  free_iff _ := by simp [LockableTags.reset, MemoryInterlockEntry.reset]
  unique _ _ _ h := absurd rfl h

theorem Ok.unique_of_eq (h : set.Ok) (htarget : target ≠ invalidTag)
    (hi : set.tags.tags i = target) : ∀ j, set.tags.tags j = target → j = i :=
  fun j hj => h.unique j i (hj.trans hi.symm) (hj ▸ htarget)

/-- Using a locked way. -/
theorem Ok.use (h : set.Ok) (hi : set.tags.tags i ≠ invalidTag) :
    Ok { set with tags := set.tags.use i } := by
  refine ⟨h.locked_iff, fun j hj => ?_, h.free_iff, h.unique⟩
  have hne : j ≠ i := by
    rintro rfl
    have hlocked := (h.locked_iff j).mpr hi
    exact absurd (hj.symm.trans hlocked) (by simp)
  simpa [LockableTags.use, update_of_ne hne] using h.evict j hj

/-- Locking a way for an owner: a way that had none, for a tag that was nowhere. -/
theorem Ok.lock (h : set.Ok) (htarget : target ≠ invalidTag)
    (habsent : ∀ j, set.tags.tags j ≠ target) {ctx : UInt8} (hctx : ctx ≠ 255) :
    Ok ⟨set.tags.lockedAt i target, update set.data i ⟨ctx⟩⟩ := by
  refine ⟨fun j => ?_, fun j hj => ?_, fun j => ?_, fun j k hjk hj => ?_⟩
  · by_cases hji : j = i
    · subst hji
      simp [LockableTags.lockedAt, htarget]
    · simpa [LockableTags.lockedAt, update_of_ne hji] using h.locked_iff j
  · by_cases hji : j = i
    · subst hji
      simp [LockableTags.lockedAt] at hj
    · simp only [LockableTags.lockedAt, update_of_ne hji] at hj ⊢
      exact h.evict j hj
  · by_cases hji : j = i
    · subst hji
      simp [LockableTags.lockedAt, hctx]
    · simpa [LockableTags.lockedAt, update_of_ne hji] using h.free_iff j
  · by_cases hji : j = i <;> by_cases hki : k = i
    · rw [hji, hki]
    · subst hji
      simp only [LockableTags.lockedAt, update_self, update_of_ne hki] at hjk
      exact absurd hjk.symm (habsent k)
    · subst hki
      simp only [LockableTags.lockedAt, update_self, update_of_ne hji] at hjk
      exact absurd hjk (habsent j)
    · simp only [LockableTags.lockedAt, update_of_ne hji, update_of_ne hki]
        at hjk hj
      exact h.unique j k hjk hj

/-- Invalidating a way. -/
theorem Ok.invalidateWay (h : set.Ok) (i : Fin ways) :
    Ok ⟨set.tags.invalidateWay i, update set.data i .reset⟩ := by
  refine ⟨fun j => ?_, fun j hj => ?_, fun j => ?_, fun j k hjk hj => ?_⟩
  · by_cases hji : j = i
    · subst hji
      simp [LockableTags.invalidateWay]
    · simpa [LockableTags.invalidateWay, update_of_ne hji] using h.locked_iff j
  · by_cases hji : j = i
    · subst hji
      simp [LockableTags.invalidateWay]
    · simp only [LockableTags.invalidateWay, update_of_ne hji] at hj ⊢
      exact h.evict j hj
  · by_cases hji : j = i
    · subst hji
      simp [LockableTags.invalidateWay, MemoryInterlockEntry.reset]
    · simpa [LockableTags.invalidateWay, update_of_ne hji] using h.free_iff j
  · have hji : j ≠ i := by
      rintro rfl
      simp [LockableTags.invalidateWay] at hj
    have hki : k ≠ i := by
      rintro rfl
      rw [hjk] at hj
      simp [LockableTags.invalidateWay] at hj
    simp only [LockableTags.invalidateWay, update_of_ne hji, update_of_ne hki]
      at hjk hj
    exact h.unique j k hjk hj

end LockableSet

/-! ### The three calls -/

namespace Interlocks

variable {a : Interlocks} {lockaddr : UInt64} {ctx : UInt8}

theorem toNat_tagof (addr : UInt64) : (tagof addr).toNat = addr.toNat / 8 * 8 := by
  have hlt := addr.toNat_lt
  have h8 : (8 : UInt64).toNat = 8 := rfl
  rw [tagof, UInt64.toNat_mul, UInt64.toNat_div, h8]
  exact Nat.mod_eq_of_lt (by omega)

theorem tagof_ne_invalidTag (addr : UInt64) : tagof addr ≠ invalidTag := fun heq => by
  have hnat := congrArg UInt64.toNat heq
  have hinvalid : (invalidTag : UInt64).toNat = 18446744073709551615 := rfl
  rw [toNat_tagof, hinvalid] at hnat
  omega

theorem setof_tagof (addr : UInt64) : setof (tagof addr) = setof addr := by
  simp only [setof, toNat_tagof, Nat.mul_div_cancel _ (by omega : 0 < 8)]

/-- **What `grab_lock` does**: it fails if the block is in the array, or all ways of its set
are locked, and takes a way that is not locked otherwise. -/
theorem grabLock_cases (h : ∀ k, (a k).Ok) (lockaddr : UInt64) (ctx : UInt8) :
    (∃ i, (a (setof lockaddr)).tags.tags i = tagof lockaddr ∧
      a.grabLock lockaddr ctx = (false, update a (setof lockaddr)
        { a (setof lockaddr) with tags := (a (setof lockaddr)).tags.use i })) ∨
    (∀ i, (a (setof lockaddr)).tags.tags i ≠ tagof lockaddr) ∧
      (a.grabLock lockaddr ctx = (false, a) ∨
        ∃ i, (a (setof lockaddr)).tags.unlockedmap i = true ∧
          a.grabLock lockaddr ctx = (true, update a (setof lockaddr)
            ⟨(a (setof lockaddr)).tags.lockedAt i (tagof lockaddr),
              update (a (setof lockaddr)).data i ⟨ctx⟩⟩)) := by
  have hok := h (setof lockaddr)
  have hvalid := tagof_ne_invalidTag lockaddr
  by_cases hmem : ∃ i, (a (setof lockaddr)).tags.tags i = tagof lockaddr
  · obtain ⟨i, hi⟩ := hmem
    have hlocked := (hok.locked_iff i).mpr (hi ▸ hvalid)
    have howner : (((a (setof lockaddr)).data i).ctxId = 255) = False :=
      eq_false fun heq => absurd (((hok.free_iff i).mpr heq).symm.trans hlocked) (by simp)
    have huse : (a (setof lockaddr)).tags.lockedAt i (tagof lockaddr) =
        (a (setof lockaddr)).tags.use i := by
      simp only [LockableTags.lockedAt, LockableTags.use, ← hi, ← hlocked,
        update_eq_self]
    refine Or.inl ⟨i, hi, ?_⟩
    simp only [grabLock, LockableTags.selectAndLock_of_mem hi (hok.unique_of_eq hvalid hi), howner,
      if_false, huse]
  · have habsent := not_exists.mp hmem
    refine Or.inr ⟨habsent, ?_⟩
    by_cases hfull : ∀ j, (a (setof lockaddr)).tags.unlockedmap j = false
    · refine Or.inl ?_
      simp only [grabLock, LockableTags.selectAndLock_of_full habsent hfull]
      exact congrArg _ (update_eq_self _ a)
    · obtain ⟨i, hi, hselect⟩ := LockableTags.exists_selectAndLock habsent hok.evict hfull
      refine Or.inr ⟨i, hi, ?_⟩
      simp only [grabLock, hselect, if_pos ((hok.free_iff i).mp hi)]

/-- **What `probe_lock` does.** -/
theorem probeLock_cases (h : ∀ k, (a k).Ok) (lockaddr : UInt64) (ctx : UInt8) :
    (∃ i, (a (setof lockaddr)).tags.tags i = tagof lockaddr ∧
      a.probeLock lockaddr ctx = (decide (((a (setof lockaddr)).data i).ctxId = ctx),
        update a (setof lockaddr)
          { a (setof lockaddr) with tags := (a (setof lockaddr)).tags.use i })) ∨
    (∀ i, (a (setof lockaddr)).tags.tags i ≠ tagof lockaddr) ∧
      a.probeLock lockaddr ctx = (true, a) := by
  have hvalid := tagof_ne_invalidTag lockaddr
  by_cases hmem : ∃ i, (a (setof lockaddr)).tags.tags i = tagof lockaddr
  · obtain ⟨i, hi⟩ := hmem
    refine Or.inl ⟨i, hi, ?_⟩
    simp only [probeLock, LockableTags.probe,
      LockableTags.match_eq_some hi ((h _).unique_of_eq hvalid hi)]
  · have habsent := not_exists.mp hmem
    refine Or.inr ⟨habsent, ?_⟩
    simp only [probeLock, LockableTags.probe, LockableTags.match_eq_none habsent]
    exact congrArg _ (update_eq_self _ a)

/-- **What `invalidate_lock` does** for the owner of a line. -/
theorem invalidateLock_eq (h : ∀ k, (a k).Ok) {i : Fin 4}
    (hi : (a (setof lockaddr)).tags.tags i = tagof lockaddr)
    (hctx : ((a (setof lockaddr)).data i).ctxId = ctx) :
    a.invalidateLock lockaddr ctx = some (update a (setof lockaddr)
      ⟨(a (setof lockaddr)).tags.invalidateWay i,
        update (a (setof lockaddr)).data i .reset⟩) := by
  have huniq := (h (setof lockaddr)).unique_of_eq (tagof_ne_invalidTag lockaddr) hi
  have hagain : ((a (setof lockaddr)).tags.use i).match_ (tagof lockaddr) = some i :=
    LockableTags.match_eq_some hi huniq
  simp only [invalidateLock, LockableTags.probe, LockableTags.match_eq_some hi huniq, hagain,
    if_pos hctx]
  simp only [LockableTags.use, LockableTags.invalidateWay, update_idem]

end Interlocks

/-! ### Every run -/

namespace LockState

open Interlocks

variable {s s' : LockState} {lockaddr : UInt64} {ctx : UInt8}

/-- The invariant: the sets are in order, and who holds a block owns its line. -/
structure Inv (s : LockState) : Prop where
  ok : ∀ k, (s.interlocks k).Ok
  held_iff : ∀ block c, (block, c) ∈ s.held ↔ block ≠ invalidTag ∧ s.Owns block c

theorem inv_init : init.Inv where
  ok _ := LockableSet.ok_reset
  held_iff block c := by
    simp only [init, List.not_mem_nil, false_iff, not_and]
    rintro hvalid ⟨way, hway, -⟩
    exact hvalid hway.symm

theorem ok_update {a : Interlocks} (h : ∀ k, (a k).Ok) {k : Fin 16} {set : LockableSet 4}
    (hset : set.Ok) (j : Fin 16) : (update a k set j).Ok := by
  by_cases hj : j = k
  · subst hj
    rwa [update_self]
  · rw [update_of_ne hj]
    exact h j

/-- Marking a line as used changes no owner. -/
theorem Inv.use (h : s.Inv) {i : Fin 4}
    (hi : (s.interlocks (setof lockaddr)).tags.tags i = tagof lockaddr) :
    Inv ⟨update s.interlocks (setof lockaddr)
      { s.interlocks (setof lockaddr) with
        tags := (s.interlocks (setof lockaddr)).tags.use i }, s.held⟩ := by
  refine ⟨ok_update h.ok ((h.ok _).use (hi ▸ tagof_ne_invalidTag lockaddr)), fun block c => ?_⟩
  rw [h.held_iff]
  refine and_congr_right fun _ => ?_
  by_cases hset : setof block = setof lockaddr
  · simp only [Owns, hset, update_self, LockableTags.use]
  · simp only [Owns, update_of_ne hset]

/-- A block is taken in a way that was not locked. -/
theorem Inv.take (h : s.Inv) (hctx : ctx ≠ 255) {i : Fin 4}
    (habsent : ∀ j, (s.interlocks (setof lockaddr)).tags.tags j ≠ tagof lockaddr)
    (hi : (s.interlocks (setof lockaddr)).tags.unlockedmap i = true) :
    Inv ⟨update s.interlocks (setof lockaddr)
      ⟨(s.interlocks (setof lockaddr)).tags.lockedAt i (tagof lockaddr),
        update (s.interlocks (setof lockaddr)).data i ⟨ctx⟩⟩,
      (tagof lockaddr, ctx) :: s.held⟩ := by
  have hvalid := tagof_ne_invalidTag lockaddr
  have hinvalid : (s.interlocks (setof lockaddr)).tags.tags i = invalidTag := by
    by_contra hne
    exact absurd (hi.symm.trans (((h.ok _).locked_iff i).mpr hne)) (by simp)
  refine ⟨ok_update h.ok ((h.ok _).lock hvalid habsent hctx), fun block c => ?_⟩
  rw [List.mem_cons, h.held_iff, Prod.mk.injEq]
  by_cases hset : setof block = setof lockaddr
  · simp only [Owns, hset, update_self, LockableTags.lockedAt]
    constructor
    · rintro (⟨rfl, rfl⟩ | ⟨hblock, j, hj, hc⟩)
      · exact ⟨hvalid, i, update_self .., by rw [update_self]⟩
      · have hne : j ≠ i := by
          rintro rfl
          exact hblock (hj.symm.trans hinvalid)
        exact ⟨hblock, j, by rwa [update_of_ne hne], by rwa [update_of_ne hne]⟩
    · rintro ⟨hblock, j, hj, hc⟩
      by_cases hne : j = i
      · subst hne
        rw [update_self] at hj hc
        exact Or.inl ⟨hj.symm, hc.symm⟩
      · rw [update_of_ne hne] at hj hc
        exact Or.inr ⟨hblock, j, hj, hc⟩
  · simp only [Owns, update_of_ne hset]
    refine or_iff_right ?_
    rintro ⟨rfl, -⟩
    exact hset (setof_tagof lockaddr)

/-- The owner of a line releases it. -/
theorem Inv.drop (h : s.Inv) {i : Fin 4}
    (hi : (s.interlocks (setof lockaddr)).tags.tags i = tagof lockaddr)
    (hc : ((s.interlocks (setof lockaddr)).data i).ctxId = ctx) :
    Inv ⟨update s.interlocks (setof lockaddr)
      ⟨(s.interlocks (setof lockaddr)).tags.invalidateWay i,
        update (s.interlocks (setof lockaddr)).data i .reset⟩,
      s.held.filter (· ≠ (tagof lockaddr, ctx))⟩ := by
  refine ⟨ok_update h.ok ((h.ok _).invalidateWay i), fun block c => ?_⟩
  have hpair : (block, c) ≠ (tagof lockaddr, ctx) ↔ ¬ (block = tagof lockaddr ∧ c = ctx) :=
    not_congr Prod.mk_inj
  rw [List.mem_filter, h.held_iff, decide_eq_true_eq, hpair]
  by_cases hset : setof block = setof lockaddr
  · simp only [Owns, hset, update_self, LockableTags.invalidateWay]
    constructor
    · rintro ⟨⟨hblock, j, hj, hcj⟩, hne⟩
      have hji : j ≠ i := by
        rintro rfl
        exact hne ⟨hj.symm.trans hi, hcj.symm.trans hc⟩
      exact ⟨hblock, j, by rwa [update_of_ne hji], by rwa [update_of_ne hji]⟩
    · rintro ⟨hblock, j, hj, hcj⟩
      have hji : j ≠ i := by
        rintro rfl
        rw [update_self] at hj
        exact hblock hj.symm
      rw [update_of_ne hji] at hj hcj
      refine ⟨⟨hblock, j, hj, hcj⟩, ?_⟩
      rintro ⟨rfl, -⟩
      exact hji ((h.ok _).unique_of_eq (tagof_ne_invalidTag lockaddr) hi j hj)
  · simp only [Owns, update_of_ne hset]
    refine and_iff_left ?_
    rintro ⟨rfl, -⟩
    exact hset (setof_tagof lockaddr)

/-- The line of a block that is held. -/
theorem Inv.exists_way (h : s.Inv) (hmem : (tagof lockaddr, ctx) ∈ s.held) :
    ∃ i, (s.interlocks (setof lockaddr)).tags.tags i = tagof lockaddr ∧
      ((s.interlocks (setof lockaddr)).data i).ctxId = ctx := by
  obtain ⟨-, howns⟩ := (h.held_iff _ _).mp hmem
  unfold Owns at howns
  rwa [setof_tagof] at howns

/-- **Every call keeps the invariant.** -/
theorem Inv.step (h : s.Inv) {call : LockCall} (hs : s.step call = some s') : s'.Inv := by
  cases call with
  | grab lockaddr ctx =>
    have hctx : ctx < 255 := by
      by_contra hctx
      simp [LockState.step, hctx] at hs
    simp only [LockState.step, if_pos hctx] at hs
    obtain rfl := Option.some.inj hs
    have hctx : ctx ≠ 255 := by
      rintro rfl
      exact absurd hctx (by decide)
    rcases grabLock_cases h.ok lockaddr ctx with
      ⟨i, hi, heq⟩ | ⟨habsent, heq | ⟨i, hi, heq⟩⟩
    · rw [heq]
      exact h.use hi
    · rw [heq]
      exact h
    · rw [heq]
      exact h.take hctx habsent hi
  | probe lockaddr ctx =>
    simp only [LockState.step] at hs
    split_ifs at hs
    obtain rfl := Option.some.inj hs
    rcases probeLock_cases h.ok lockaddr ctx with ⟨i, hi, heq⟩ | ⟨-, heq⟩
    · rw [heq]
      exact h.use hi
    · rw [heq]
      exact h
  | invalidate lockaddr ctx =>
    simp only [LockState.step] at hs
    split_ifs at hs with hmem
    obtain ⟨i, hi, hc⟩ := h.exists_way hmem
    rw [invalidateLock_eq h.ok hi hc, Option.map_some] at hs
    exact Option.some.inj hs ▸ h.drop hi hc

theorem Inv.safe (h : s.Inv) : s.Safe where
  exclusive block c c' hc hc' := by
    obtain ⟨hvalid, i, hi, rfl⟩ := (h.held_iff _ _).mp hc
    obtain ⟨-, j, hj, rfl⟩ := (h.held_iff _ _).mp hc'
    rw [(h.ok _).unique_of_eq hvalid hi j hj]
  kept block c hc := ((h.held_iff _ _).mp hc).2
  probe_iff lockaddr ctx := by
    rcases probeLock_cases h.ok lockaddr ctx with ⟨i, hi, heq⟩ | ⟨habsent, heq⟩
    · rw [heq, decide_eq_true_eq]
      have hmem : (tagof lockaddr, ((s.interlocks (setof lockaddr)).data i).ctxId) ∈ s.held :=
        (h.held_iff _ _).mpr ⟨tagof_ne_invalidTag lockaddr, by
          unfold Owns
          rw [setof_tagof]
          exact ⟨i, hi, rfl⟩⟩
      constructor
      · intro hctx c hc
        obtain ⟨j, hj, rfl⟩ := h.exists_way hc
        rw [(h.ok _).unique_of_eq (tagof_ne_invalidTag lockaddr) hi j hj, hctx]
      · exact fun hall => hall _ hmem
    · rw [heq]
      refine iff_of_true rfl fun c hc => ?_
      obtain ⟨j, hj, -⟩ := h.exists_way hc
      exact absurd hj (habsent j)
  release lockaddr ctx hmem := by
    obtain ⟨i, hi, hc⟩ := h.exists_way hmem
    rw [invalidateLock_eq h.ok hi hc]
    rfl

/-- **The interlocks are safe.** In every run of calls by contexts with ids below 255, of which
only holders release a lock, a block is held by at most one context, a held lock stays in the
array with its owner, `probe_lock` is exact and no assertion fails. -/
theorem locks_safe (calls : List LockCall) (s : LockState)
    (h : Run (Steps step) init calls s) : s.Safe :=
  (h.invariant (P := Inv) inv_init fun _ _ _ hI hs => hI.step hs).safe

/-- Five blocks of one set, by two contexts: the fifth finds no way, and gets the one that is
released. -/
theorem locks_safe_full :
    ∃ s, Run (Steps step) init [.grab 0 1, .grab 128 2, .grab 256 1, .grab 384 2, .grab 512 1,
        .grab 0 2, .probe 0 2, .invalidate 128 2, .grab 512 1] s ∧
      s.held = [(512, 1), (384, 2), (256, 1), (0, 1)] ∧ s.Safe :=
  exists_run_imp (fun s => s.held = [(512, 1), (384, 2), (256, 1), (0, 1)]) (by decide)
    fun s hrun hheld => ⟨hheld, locks_safe _ s hrun⟩

end LockState

end HybridMemory.Ptlsim

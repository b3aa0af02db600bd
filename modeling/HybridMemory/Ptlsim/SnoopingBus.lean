import HybridMemory.Lib.Snooping
import HybridMemory.Lib.Transition
import HybridMemory.Ptlsim.MESILogic

/-!
# Private caches on a snooping bus, one access at a time

Every core has a lowest-private cache on the bus and a private cache above it. The model
follows one line through all of them: a core's two copies of it are a `Core`, and lines do
not touch each other except that the insertion of one may replace another, which is an
action here. Where `is_line_in_use` finds the replaced line in use, `complete_request` hands on
no tag, and the messages about the replaced line name the inserted one instead. An access is
atomic: every message it causes is delivered before the next one starts.

* `lowerRequest` is a request as the lowest-private cache handles it, with the broadcast
  it may need; `Request` are the actions of a system of lowest-private caches alone;
* `access` is an access of a core through both levels; `Access` are the actions of the
  two-level system.

The results:

* `single_writer`: no sequence of requests reaches an assertion of the coherence logic, and
  a line that one lowest-private cache holds MODIFIED or EXCLUSIVE is INVALID in all others;
* `upper_exclusive_iff`: the exact condition under which the same is true of the caches of
  the upper level. A snooped read takes a MODIFIED line to SHARED without telling the level
  above, so it must not meet a core whose upper copy is still MODIFIED or EXCLUSIVE; and the
  replacement of a line in use leaves the upper copy with nothing below, where no message of
  the bus reaches it.
-/

namespace HybridMemory.Ptlsim

open Snooping Transition Function

/-- The copies of the line in the two private caches of a core. -/
@[ext]
structure Core where
  upper : Copy := none
  lower : Copy := none
  deriving DecidableEq

/-! ### Messages to the upper level -/

/-- A message from below reaches the upper cache: without the tag it is dropped
(`cache_miss_cb`), otherwise `handle_interconn_hit` runs. -/
def receive (type : OpType) (arg upper : Copy) : Option Copy :=
  match upper with
  | none => some none
  | some line => (handleInterconnHit upperLevel type arg line).map fun r => some r.line

/-- Deliver one message of the lowest-private cache. An update points to the state of the
line below; the messages to the bus are not for this core. -/
def Core.deliver (core : Core) : Effect → Option Core
  | .evictToUpper => (receive .evict core.lower core.upper).map fun u => { core with upper := u }
  | .updateToUpper =>
    (receive .update core.lower core.upper).map fun u => { core with upper := u }
  | _ => some core

/-- A bus request reaches the lowest-private cache of another core. An UPDATE carries data
and is for the memory: `handle_lower_interconnect` drops it. The answer is `isShared`. -/
def Core.snoop (type : OpType) (core : Core) : Option (Core × Bool) :=
  if type = .update then some (core, false)
  else
    match core.lower with
    | none => some (core, false)
    | some line => do
      let r ← handleInterconnHit lowestPrivate type none line
      let core ← r.effects.foldlM Core.deliver { core with lower := some r.line }
      return (core, r.isShared)

section

variable {ι : Type} [DecidableEq ι] [Fintype ι]

/-! ### The lowest-private level -/

/-- The answer to a bus request of core `i` arrives (`CacheController::complete_request`):
a line that has no way yet gets one, in the state INVALID, and `get_new_state` decides. -/
def complete (type : OpType) (i : ι) (isShared : Bool) (cores : ι → Core) :
    Option (ι → Core) := do
  let line := ((cores i).lower).getD .invalid
  let (line, effects) ← completeRequest lowestPrivate type none isShared line
  let core ← effects.foldlM Core.deliver { cores i with lower := some line }
  return update cores i core

/-- A request that the lowest-private cache of core `i` cannot serve goes to the bus
(`handle_local_miss`). Only reads and writes are answered. -/
def miss (type : OpType) (i : ι) (cores : ι → Core) : Option (ι → Core) := do
  let (cores, isShared) ← broadcast (Core.snoop type) i cores
  if type = .read ∨ type = .write then complete type i isShared cores else return cores

/-- A request from above reaches the lowest-private cache of core `i`. -/
def lowerRequest (type : OpType) (i : ι) (cores : ι → Core) : Option (ι → Core) :=
  match (cores i).lower with
  | none => miss type i cores
  | some line => do
    let (line, effects) ← handleLocalHit lowestPrivate type line
    let cores := update cores i { cores i with lower := some line }
    if .cacheMiss ∈ effects then miss type i cores
    else if .evictToLower ∈ effects then
      return (← broadcast (Core.snoop .evict) i cores).1
    else return cores

/-- The line loses its way in the lowest-private cache of core `i` to another line. The messages
about it are sent if `is_line_in_use` does not find it in use. -/
def replaceLower (i : ι) (inUse : Bool) (cores : ι → Core) : Option (ι → Core) :=
  match (cores i).lower with
  | none => some cores
  | some line => do
    let effects := if inUse then [] else handleCacheInsert lowestPrivate line
    let core ← effects.foldlM Core.deliver (cores i)
    return update cores i { core with lower := none }

/-- The actions of a system of lowest-private caches. -/
inductive Request (ι : Type)
  | request (i : ι) (type : OpType)
  | replace (i : ι) (inUse : Bool)
  deriving DecidableEq

/-- One action of a system of lowest-private caches. -/
def requestStep (cores : ι → Core) : Request ι → Option (ι → Core)
  | .request i type => lowerRequest type i cores
  | .replace i inUse => replaceLower i inUse cores

/-! ### Both levels -/

/-- A request that the upper cache of core `i` hands down: the lower level serves it, and the
answer carries the state of the line there. `victims` are the lines in use, if any, that the
line replaces in the two caches: the messages about them name the line, and come after the
answer. -/
def fetch (type : OpType) (i : ι) (victims : Core) (cores : ι → Core) : Option (ι → Core) := do
  let served ← lowerRequest type i cores
  let core := served i
  let (line, _) ← completeRequest upperLevel type core.lower false (core.upper.getD .invalid)
  let answered := update served i { core with upper := some line }
  let above := if (cores i).upper = none then victims.upper else none
  let below := if (cores i).lower = none then victims.lower else none
  let answered ←
    if .updateToLower ∈ above.elim [] (handleCacheInsert upperLevel) then
      lowerRequest .update i answered
    else some answered
  let core ← (below.elim [] (handleCacheInsert lowestPrivate)).foldlM Core.deliver (answered i)
  return update answered i core

/-- An access of core `i`. A hit in the upper cache ends there. -/
def access (type : OpType) (i : ι) (victims : Core) (cores : ι → Core) : Option (ι → Core) :=
  match (cores i).upper with
  | none => fetch type i victims cores
  | some line => do
    let (line, effects) ← handleLocalHit upperLevel type line
    let cores := update cores i { cores i with upper := some line }
    if .cacheMiss ∈ effects then fetch type i victims cores else return cores

/-- The line loses its way in the upper cache of core `i`. A MODIFIED line that is not in use is
written back to the lowest-private cache, as a request from above. -/
def replaceUpper (i : ι) (inUse : Bool) (cores : ι → Core) : Option (ι → Core) :=
  match (cores i).upper with
  | none => some cores
  | some line =>
    let dropped := update cores i { cores i with upper := none }
    if inUse = false ∧ .updateToLower ∈ handleCacheInsert upperLevel line then
      lowerRequest .update i dropped
    else some dropped

/-- The actions of the two-level system. -/
inductive Access (ι : Type)
  | read (i : ι) (victims : Core := {})
  | write (i : ι) (victims : Core := {})
  | replaceUpper (i : ι) (inUse : Bool)
  | replaceLower (i : ι) (inUse : Bool)
  deriving DecidableEq

/-- One action of the two-level system. -/
def accessStep (cores : ι → Core) : Access ι → Option (ι → Core)
  | .read i victims => access .read i victims cores
  | .write i victims => access .write i victims cores
  | .replaceUpper i inUse => replaceUpper i inUse cores
  | .replaceLower i inUse => replaceLower i inUse cores

end

/-! ### What a snooped request does to a core -/

/-- A core after a snooped read: an EXCLUSIVE line becomes SHARED on both levels, a
MODIFIED one on the lower level only. -/
def Core.afterRead (core : Core) : Core :=
  match core.lower with
  | some .exclusive => ⟨core.upper.map fun _ => .shared, some .shared⟩
  | some .modified => ⟨core.upper, some .shared⟩
  | _ => core

/-- A core after a snooped request that takes the line from both levels if the lower copy is as
the request wants it. -/
def Core.dropIf (P : Copy → Prop) [DecidablePred P] (core : Core) : Core :=
  if P core.lower then
    ⟨core.upper.map fun _ => .invalid, core.lower.map fun _ => .invalid⟩
  else core

/-- A core after a snooped write: a valid line is gone. -/
def Core.afterWrite : Core → Core := dropIf Copy.IsValid

/-- A core after a snooped eviction: the line is gone if the lower cache has its tag. -/
def Core.afterEvict : Core → Core := dropIf (· ≠ none)

/-- The line of the lower cache is in one of the four states. -/
def Core.Sane (core : Core) : Prop := core.lower ≠ some .noMesiStates

section

variable {core : Core}

@[simp] theorem receive_evict (arg upper : Copy) :
    receive .evict arg upper = some (upper.map fun _ => .invalid) := by
  cases upper <;> rfl

@[simp] theorem receive_update (state : MESICacheLineState) (upper : Copy) :
    receive .update (some state) upper = some (upper.map fun _ => state) := by
  cases upper <;> rfl

theorem Core.snoop_read (h : core.Sane) :
    core.snoop .read = some (core.afterRead, decide core.lower.IsValid) := by
  obtain ⟨upper, lower⟩ := core
  rcases lower with _ | line
  · rfl
  · cases line with
    | noMesiStates => exact absurd rfl h
    | exclusive => simp [snoop, handleInterconnHit, deliver, afterRead, Copy.IsValid]
    | invalid | modified | shared => rfl

theorem Core.snoop_write (h : core.Sane) :
    core.snoop .write = some (core.afterWrite, false) := by
  obtain ⟨upper, lower⟩ := core
  rcases lower with _ | line
  · rfl
  · cases line with
    | noMesiStates => exact absurd rfl h
    | invalid => rfl
    | exclusive | modified | shared =>
      simp [snoop, handleInterconnHit, lowestPrivate, deliver, afterWrite, dropIf,
        Copy.IsValid]

theorem Core.snoop_evict : core.snoop .evict = some (core.afterEvict, false) := by
  obtain ⟨upper, lower⟩ := core
  rcases lower with _ | line
  · rfl
  · simp [snoop, handleInterconnHit, lowestPrivate, deliver, afterEvict, dropIf]

end

/-! ### What a request does to all the cores -/

section

variable {ι : Type} [DecidableEq ι]

/-- Core `i` goes to `core` and every other core changes by `f`. -/
def settle (i : ι) (core : Core) (f : Core → Core) (cores : ι → Core) : ι → Core :=
  update (f ∘ cores) i core

variable {i j : ι} {core : Core} {f : Core → Core} {cores : ι → Core}

@[simp] theorem settle_self : settle i core f cores i = core := update_self ..

theorem settle_of_ne (h : j ≠ i) : settle i core f cores j = f (cores j) := update_of_ne h ..

theorem update_settle (core' : Core) :
    update (settle i core f cores) i core' = settle i core' f cores := update_idem ..

theorem update_eq_settle (core : Core) : update cores i core = settle i core id cores := rfl

theorem settle_update (core' : Core) :
    settle i core f (update cores i core') = settle i core f cores := by
  rw [settle, comp_update, update_idem, settle]

theorem settle_id : settle i (cores i) id cores = cores := update_eq_self i cores

variable [Fintype ι]

/-- Some core other than `i` holds the line in its lowest-private cache. -/
def OthersHold (i : ι) (cores : ι → Core) : Prop := ∃ j, j ≠ i ∧ (cores j).lower.IsValid

instance : Decidable (OthersHold i cores) := inferInstanceAs (Decidable (∃ _, _))

/-- The core of the requester and the change of every other core, for a request that
reaches the lowest-private level. `held` tells whether another core holds the line. -/
def lowerOutcome (type : OpType) (held : Bool) (core : Core) : Core × (Core → Core) :=
  match type with
  | .read =>
    if core.lower.IsValid then (core, id)
    else (⟨core.upper, some (if held then .shared else .exclusive)⟩, Core.afterRead)
  | .write =>
    (⟨core.upper, some .modified⟩, if core.lower.Owns then id
      else if core.lower.IsValid then Core.afterEvict else Core.afterWrite)
  | .update => (core, id)
  | .evict =>
    if core.lower = none then (core, Core.afterEvict) else (⟨core.upper, some .invalid⟩, id)

theorem lowerOutcome_read_hit {held : Bool} (h : core.lower.IsValid) :
    lowerOutcome .read held core = (core, id) := if_pos h

theorem lowerOutcome_read_miss {held : Bool} (h : ¬ core.lower.IsValid) :
    lowerOutcome .read held core =
      (⟨core.upper, some (if held then .shared else .exclusive)⟩, Core.afterRead) := if_neg h

theorem broadcast_snoop {type : OpType} (g : Core → Core) (b : Core → Bool)
    (h : ∀ j, j ≠ i → (cores j).snoop type = some (g (cores j), b (cores j))) :
    broadcast (Core.snoop type) i cores =
      some (settle i (cores i) g cores, decide (∃ j, j ≠ i ∧ b (cores j) = true)) :=
  broadcast_eq h

theorem miss_read (hsane : ∀ j, (cores j).Sane) (hi : ¬ (cores i).lower.IsValid) :
    miss .read i cores =
      some (settle i ⟨(cores i).upper, some (if OthersHold i cores then .shared else .exclusive)⟩
        Core.afterRead cores) := by
  have hline : ((cores i).lower).getD .invalid = .invalid := by
    rcases Copy.not_isValid_iff.mp hi with h | h <;> rw [h] <;> rfl
  have hheld : decide (∃ j, j ≠ i ∧ decide (cores j).lower.IsValid = true) =
      decide (OthersHold i cores) := by
    simp only [decide_eq_true_eq]
    rfl
  rw [miss, broadcast_snoop Core.afterRead (fun core => decide core.lower.IsValid)
    fun j _ => Core.snoop_read (hsane j), hheld]
  by_cases h : OthersHold i cores <;>
    simp [complete, hline, completeRequest, getNewState, lowestPrivate, h, update_settle]

theorem miss_write (hsane : ∀ j, (cores j).Sane) (hi : ¬ (cores i).lower.IsValid) :
    miss .write i cores =
      some (settle i ⟨(cores i).upper, some .modified⟩ Core.afterWrite cores) := by
  have hline : ((cores i).lower).getD .invalid = .invalid := by
    rcases Copy.not_isValid_iff.mp hi with h | h <;> rw [h] <;> rfl
  rw [miss, broadcast_snoop Core.afterWrite (fun _ => false) fun j _ => Core.snoop_write (hsane j)]
  simp [complete, hline, completeRequest, getNewState, lowestPrivate, update_settle]

theorem broadcast_evict (i : ι) (cores : ι → Core) :
    broadcast (Core.snoop .evict) i cores =
      some (settle i (cores i) Core.afterEvict cores, false) := by
  rw [broadcast_snoop Core.afterEvict (fun _ => false) fun j _ => Core.snoop_evict]
  simp

theorem miss_update (i : ι) (cores : ι → Core) : miss .update i cores = some cores := by
  rw [miss, broadcast_snoop id (fun _ => false) fun j _ => rfl, settle_id]
  rfl

theorem miss_evict (i : ι) (cores : ι → Core) :
    miss .evict i cores = some (settle i (cores i) Core.afterEvict cores) := by
  rw [miss, broadcast_evict]
  rfl

/-- A hit that the cache serves alone. -/
theorem lowerRequest_hit {type : OpType} {line line' : MESICacheLineState}
    {effects : List Effect} (hline : (cores i).lower = some line)
    (h : handleLocalHit lowestPrivate type line = some (line', effects))
    (hmiss : .cacheMiss ∉ effects) (hevict : .evictToLower ∉ effects) :
    lowerRequest type i cores = some (settle i ⟨(cores i).upper, some line'⟩ id cores) := by
  simp [lowerRequest, hline, h, hmiss, hevict, update_eq_settle]

/-- A read or write that finds no valid line goes to the bus. -/
theorem lowerRequest_of_not_isValid {type : OpType} (htype : type = .read ∨ type = .write)
    (h : ¬ (cores i).lower.IsValid) :
    lowerRequest type i cores = miss type i cores := by
  rcases Copy.not_isValid_iff.mp h with hline | hline
  · simp [lowerRequest, hline]
  · have hsame : update cores i ⟨(cores i).upper, some .invalid⟩ = cores := by
      rw [← hline]
      exact update_eq_self i cores
    rcases htype with rfl | rfl <;> simp [lowerRequest, hline, handleLocalHit, hsame]

/-- **A request at the lowest-private level**: no assertion fails, and the cores change as
`lowerOutcome` says. -/
theorem lowerRequest_eq (type : OpType) (i : ι) (hsane : ∀ j, (cores j).Sane) :
    lowerRequest type i cores =
      some (settle i (lowerOutcome type (decide (OthersHold i cores)) (cores i)).1
        (lowerOutcome type (decide (OthersHold i cores)) (cores i)).2 cores) := by
  have hcore : ∀ copy, (cores i).lower = copy → (⟨(cores i).upper, copy⟩ : Core) = cores i :=
    fun copy h => h ▸ rfl
  cases type with
  | read =>
    by_cases hvalid : (cores i).lower.IsValid
    · rcases hline : (cores i).lower with _ | line
      · exact absurd hline hvalid.1
      · cases line with
        | noMesiStates => exact absurd hline (hsane i)
        | invalid => exact absurd hline hvalid.2
        | exclusive | shared | modified =>
          rw [lowerRequest_hit hline rfl (by decide) (by decide), hcore _ hline]
          rw [lowerOutcome_read_hit hvalid]
    · rw [lowerRequest_of_not_isValid (Or.inl rfl) hvalid, miss_read hsane hvalid]
      simp only [lowerOutcome_read_miss hvalid, decide_eq_true_eq]
  | write =>
    by_cases hvalid : (cores i).lower.IsValid
    · rcases hline : (cores i).lower with _ | line
      · exact absurd hline hvalid.1
      · cases line with
        | noMesiStates => exact absurd hline (hsane i)
        | invalid => exact absurd hline hvalid.2
        | exclusive | modified =>
          rw [lowerRequest_hit hline rfl (by decide) (by decide)]
          simp [lowerOutcome, hline, Copy.Owns]
        | shared =>
          simp [lowerRequest, hline, handleLocalHit, lowestPrivate, broadcast_evict,
            settle_update, lowerOutcome, Copy.IsValid]
    · rw [lowerRequest_of_not_isValid (Or.inr rfl) hvalid, miss_write hsane hvalid]
      simp only [lowerOutcome, if_neg hvalid, if_neg fun hown : Copy.Owns _ => hvalid hown.isValid]
  | update =>
    rcases hline : (cores i).lower with _ | line
    · simp only [lowerRequest, hline, miss_update, lowerOutcome, settle_id]
    · cases line with
      | noMesiStates => exact absurd hline (hsane i)
      | invalid | exclusive | shared | modified =>
        rw [lowerRequest_hit hline rfl (by decide) (by decide), hcore _ hline]
        simp only [lowerOutcome]
  | evict =>
    rcases hline : (cores i).lower with _ | line
    · simp [lowerRequest, hline, miss_evict, lowerOutcome]
    · rw [lowerRequest_hit hline rfl (by decide) (by decide)]
      simp [lowerOutcome, hline]

/-! ### One writer or many readers -/

omit [Fintype ι] in
/-- A lowest-private cache that holds the line MODIFIED or EXCLUSIVE is the only one with a
valid copy. -/
def SingleWriter (cores : ι → Core) : Prop :=
  ∀ i j, i ≠ j → (cores i).lower.Owns → ¬ (cores j).lower.IsValid

/-- The upper copy is valid, and the lower cache does not have the line. -/
def Core.Uncovered (core : Core) : Prop := core.upper.IsValid ∧ core.lower = none

instance (core : Core) : Decidable core.Uncovered := inferInstanceAs (Decidable (_ ∧ _))

/-- A change of a core gives its lowest-private cache nothing that it did not have, and does not
reach a copy that stands above nothing. -/
structure Weakens (f : Core → Core) : Prop where
  sane : ∀ core, core.Sane → (f core).Sane
  isValid : ∀ core, (f core).lower.IsValid → core.lower.IsValid
  owns : ∀ core, (f core).lower.Owns → core.lower.Owns
  uncovered : ∀ core, (f core).Uncovered ↔ core.Uncovered

theorem weakens_id : Weakens id :=
  ⟨fun _ h => h, fun _ h => h, fun _ h => h, fun _ => Iff.rfl⟩

theorem weakens_afterRead : Weakens Core.afterRead := by
  refine ⟨?_, ?_, ?_, ?_⟩ <;> rintro ⟨upper, lower⟩ <;> rcases lower with _ | line
  all_goals
    first
    | exact id
    | exact Iff.rfl
    | cases line <;> simp [Core.afterRead, Core.Sane, Core.Uncovered, Copy.IsValid]

section

variable {P : Copy → Prop} [DecidablePred P]

theorem weakens_dropIf (h : ¬ P none) : Weakens (Core.dropIf P) := by
  refine ⟨?_, ?_, ?_, ?_⟩ <;> rintro ⟨upper, _ | line⟩ <;> unfold Core.dropIf <;> split_ifs
  all_goals simp_all [Core.Sane, Core.Uncovered]

theorem Core.not_isValid_dropIf (h : ∀ copy : Copy, copy.IsValid → P copy) (core : Core) :
    ¬ (core.dropIf P).lower.IsValid := by
  unfold dropIf
  split_ifs with hP
  · rcases core with ⟨upper, _ | line⟩ <;> simp
  · exact fun hvalid => hP (h _ hvalid)

end

theorem weakens_afterWrite : Weakens Core.afterWrite := weakens_dropIf Copy.not_isValid_none

theorem weakens_afterEvict : Weakens Core.afterEvict := weakens_dropIf (not_not.mpr rfl)

theorem Core.not_owns_afterRead (core : Core) : ¬ core.afterRead.lower.Owns := by
  obtain ⟨upper, lower⟩ := core
  rcases lower with _ | line
  · exact nofun
  · cases line <;> exact nofun

/-- The lowest-private caches are in order: their states are among the four, and one writer
excludes all other copies. -/
structure Coherent (cores : ι → Core) : Prop where
  sane : ∀ i, (cores i).Sane
  single : SingleWriter cores

omit [Fintype ι] in
/-- One core changes and the others lose something: the caches stay in order if the new
copy of the one fits the copies left to the others. -/
theorem Coherent.settled (h : Coherent cores) (hf : Weakens f) (hsane : core.Sane)
    (howns : core.lower.Owns → ∀ j, j ≠ i → ¬ (f (cores j)).lower.IsValid)
    (hvalid : core.lower.IsValid → ∀ j, j ≠ i → ¬ (f (cores j)).lower.Owns) :
    Coherent (settle i core f cores) := by
  constructor
  · intro j
    by_cases hj : j = i
    · rw [hj, settle_self]
      exact hsane
    · rw [settle_of_ne hj]
      exact hf.sane _ (h.sane j)
  · intro j k hjk
    by_cases hj : j = i
    · subst hj
      rw [settle_self, settle_of_ne (Ne.symm hjk)]
      intro hown
      exact howns hown k (Ne.symm hjk)
    · rw [settle_of_ne hj]
      intro hown
      by_cases hk : k = i
      · subst hk
        rw [settle_self]
        intro hk
        exact hvalid hk j hj hown
      · rw [settle_of_ne hk]
        intro hk
        exact h.single j k hjk (hf.owns _ hown) (hf.isValid _ hk)

/-- A request at the lowest-private level keeps the caches in order. -/
theorem Coherent.outcome (h : Coherent cores) (type : OpType) (i : ι) :
    Coherent (settle i (lowerOutcome type (decide (OthersHold i cores)) (cores i)).1
      (lowerOutcome type (decide (OthersHold i cores)) (cores i)).2 cores) := by
  have hmodified : ∀ {f}, Weakens f → (∀ j, j ≠ i → ¬ (f (cores j)).lower.IsValid) →
      Coherent (settle i ⟨(cores i).upper, some .modified⟩ f cores) := by
    intro f hf hothers
    refine h.settled hf nofun (fun _ => hothers) fun _ j hj hown => ?_
    exact hothers j hj hown.isValid
  have hgone : ∀ {f}, Weakens f → ∀ core : Core, core.Sane → ¬ core.lower.IsValid →
      Coherent (settle i core f cores) := by
    intro f hf core hsane hcore
    exact h.settled hf hsane (fun hown => absurd hown.isValid hcore) fun hv => absurd hv hcore
  cases type with
  | read =>
    -- the requester takes the line SHARED if and only if another cache keeps a copy
    have hread : Coherent (settle i ⟨(cores i).upper,
        some (if decide (OthersHold i cores) = true then .shared else .exclusive)⟩
        Core.afterRead cores) := by
      refine h.settled weakens_afterRead ?_ ?_ fun _ j _ => Core.not_owns_afterRead _
      · by_cases hheld : OthersHold i cores <;> simp [hheld, Core.Sane]
      · by_cases hheld : OthersHold i cores
        · simp [hheld]
        · intro _ j hj hvalid
          exact hheld ⟨j, hj, weakens_afterRead.isValid _ hvalid⟩
    by_cases hvalid : (cores i).lower.IsValid
    · rwa [lowerOutcome_read_hit hvalid, settle_id]
    · rwa [lowerOutcome_read_miss hvalid]
  | write =>
    simp only [lowerOutcome]
    split_ifs with hown hvalid
    · exact hmodified weakens_id fun j hj => h.single i j (Ne.symm hj) hown
    · exact hmodified weakens_afterEvict fun j _ => Core.not_isValid_dropIf (fun _ h => h.1) _
    · exact hmodified weakens_afterWrite fun j _ => Core.not_isValid_dropIf (fun _ => id) _
  | update => rwa [lowerOutcome, settle_id]
  | evict =>
    by_cases hnone : (cores i).lower = none
    · rw [lowerOutcome, if_pos hnone]
      exact hgone weakens_afterEvict (cores i) (h.sane i) (by simp [hnone])
    · rw [lowerOutcome, if_neg hnone]
      exact hgone weakens_id ⟨(cores i).upper, some .invalid⟩ nofun (by simp)

/-- The messages about a replaced line: the upper copy is INVALID if the line was valid. -/
theorem foldlM_handleCacheInsert (line : MESICacheLineState) (core : Core) :
    (handleCacheInsert lowestPrivate line).foldlM Core.deliver core =
      some (if line = .invalid then core else ⟨core.upper.map fun _ => .invalid, core.lower⟩) := by
  cases line <;> simp [handleCacheInsert, lowestPrivate, Core.deliver]

omit [Fintype ι] in
/-- A replaced line leaves a core with nothing below, and with nothing above if the lower cache
held it and it was not in use. -/
theorem replaceLower_eq (i : ι) (inUse : Bool) (cores : ι → Core) :
    replaceLower i inUse cores = some (settle i
      ⟨if (cores i).lower.IsValid ∧ inUse = false then (cores i).upper.map fun _ => .invalid
        else (cores i).upper, none⟩ id cores) := by
  rw [replaceLower]
  rcases hline : (cores i).lower with _ | line
  · have hcore : (⟨(cores i).upper, none⟩ : Core) = cores i := by rw [← hline]
    simp [hcore, settle_id]
  · cases inUse
    · by_cases hinvalid : line = .invalid <;>
        simp [foldlM_handleCacheInsert, hinvalid, Copy.IsValid, update_eq_settle]
    · simp [update_eq_settle]

/-- Every action of a system of lowest-private caches succeeds and keeps them in order. -/
theorem Coherent.step (h : Coherent cores) (a : Request ι) :
    ∃ cores', requestStep cores a = some cores' ∧ Coherent cores' := by
  cases a with
  | request i type => exact ⟨_, lowerRequest_eq type i h.sane, h.outcome type i⟩
  | replace i inUse =>
    refine ⟨_, replaceLower_eq i inUse cores, h.settled weakens_id nofun ?_ ?_⟩
    · intro hown
      exact absurd hown Copy.not_owns_none
    · intro hvalid
      exact absurd hvalid Copy.not_isValid_none

/-- **One writer or many readers.** From caches that hold nothing, every sequence of reads,
writes, updates, evictions and replacements of the line runs without reaching an assertion
of the coherence logic, and ends with at most one lowest-private cache in the state MODIFIED
or EXCLUSIVE, all others being INVALID then. -/
theorem single_writer (actions : List (Request ι)) :
    ∃ cores, exec requestStep (fun _ : ι => ({} : Core)) actions = some cores ∧
      SingleWriter cores := by
  have hinit : Coherent fun _ : ι => ({} : Core) :=
    ⟨fun _ => nofun, fun _ _ _ hown => absurd hown Copy.not_owns_none⟩
  obtain ⟨cores, hexec, h⟩ := exec_total (fun _ a h => h.step a) hinit actions
  exact ⟨cores, hexec, h.single⟩

/-! ### The upper level -/

/-- The upper copy of a core agrees with the lower one: it is not valid above an INVALID line, and
MODIFIED or EXCLUSIVE only if that is. -/
structure Core.Nested (core : Core) : Prop where
  sane : core.upper ≠ some .noMesiStates
  isValid : core.upper.IsValid → core.lower ≠ some .invalid
  owns : core.upper.Owns → core.lower.Owns

/-- The private caches of all cores are in order. A core whose upper copy is MODIFIED or EXCLUSIVE
leaves no copy above nothing to the others. -/
structure Inclusive (cores : ι → Core) : Prop extends Coherent cores where
  nested : ∀ i, (cores i).Nested
  covered : ∀ i, (cores i).upper.Owns → ∀ j, j ≠ i → ¬ (cores j).Uncovered

/-- An insertion into the lowest-private cache replaces a line in use, so that an EVICT of the
inserted line follows the answer. -/
def Core.EvictsSelf (victims core : Core) : Prop := core.lower = none ∧ victims.lower.IsValid

instance (victims core : Core) : Decidable (victims.EvictsSelf core) :=
  inferInstanceAs (Decidable (_ ∧ _))

/-- The condition on an action, in the state before it:
* a read that goes to the bus meets no core that is MODIFIED below and still MODIFIED or EXCLUSIVE
  above;
* an access that gives core `i` the line MODIFIED or EXCLUSIVE above meets no other core with a
  valid copy above nothing;
* a line in use that is replaced below is not MODIFIED or EXCLUSIVE above. -/
def Clean (cores : ι → Core) : Access ι → Prop
  | .read i victims => ¬ (cores i).upper.IsValid →
      (¬ (cores i).lower.IsValid →
        ∀ j, j ≠ i → (cores j).lower = some .modified → ¬ (cores j).upper.Owns) ∧
      ((cores i).lower.Owns ∨ ¬ (cores i).lower.IsValid ∧ ¬ OthersHold i cores →
        ¬ victims.EvictsSelf (cores i) → ∀ j, j ≠ i → ¬ (cores j).Uncovered)
  | .write i victims => (cores i).upper ≠ some .modified → ¬ victims.EvictsSelf (cores i) →
      ∀ j, j ≠ i → ¬ (cores j).Uncovered
  | .replaceUpper _ _ => True
  | .replaceLower i inUse => inUse = true → ¬ (cores i).upper.Owns

instance (cores : ι → Core) : (a : Access ι) → Decidable (Clean cores a)
  | .read _ _ => inferInstanceAs (Decidable (_ → _ ∧ _))
  | .write _ _ => inferInstanceAs (Decidable (_ → _ → _))
  | .replaceUpper _ _ => .isTrue trivial
  | .replaceLower _ _ => inferInstanceAs (Decidable (_ → _))

/-- The cores after an access of core `i` that went to the lower level: both its caches now
hold the line in the state the lower level chose, unless an EVICT of the line followed. -/
def fetched (type : OpType) (i : ι) (victims : Core) (cores : ι → Core) : ι → Core :=
  let outcome := lowerOutcome type (decide (OthersHold i cores)) (cores i)
  settle i ⟨if victims.EvictsSelf (cores i) then some .invalid else outcome.1.lower,
    outcome.1.lower⟩ outcome.2 cores

/-- The lower level does not look at the copy above it. -/
theorem lowerOutcome_upper (type : OpType) (held : Bool) (upper lower : Copy) :
    (lowerOutcome type held ⟨upper, lower⟩).1.lower =
        (lowerOutcome type held ⟨none, lower⟩).1.lower ∧
    (lowerOutcome type held ⟨upper, lower⟩).2 = (lowerOutcome type held ⟨none, lower⟩).2 := by
  cases type with
  | read => by_cases hvalid : Copy.IsValid lower <;> simp [lowerOutcome, hvalid]
  | evict => cases lower <;> exact ⟨rfl, rfl⟩
  | write | update => exact ⟨rfl, rfl⟩

theorem fetched_update (type : OpType) (i : ι) (victims : Core) (upper : Copy) :
    fetched type i victims (update cores i ⟨upper, (cores i).lower⟩) =
      fetched type i victims cores := by
  have hothers : OthersHold i (update cores i ⟨upper, (cores i).lower⟩) ↔
      OthersHold i cores :=
    exists_congr fun j => and_congr_right fun hj => by rw [update_of_ne hj]
  have h := lowerOutcome_upper type (decide (OthersHold i cores)) upper (cores i).lower
  have h' := lowerOutcome_upper type (decide (OthersHold i cores)) (cores i).upper (cores i).lower
  simp only [fetched, hothers, update_self, settle_update]
  rw [h.1, h.2, ← h'.1, ← h'.2]
  rfl

/-- A served read or write leaves the line valid in the lowest-private cache. -/
theorem isValid_lowerOutcome {type : OpType} (htype : type = .read ∨ type = .write) (held : Bool)
    (core : Core) : (lowerOutcome type held core).1.lower.IsValid := by
  rcases htype with rfl | rfl
  · by_cases hvalid : core.lower.IsValid
    · rwa [lowerOutcome_read_hit hvalid]
    · rw [lowerOutcome_read_miss hvalid]
      cases held <;> exact ⟨nofun, nofun⟩
  · exact ⟨nofun, nofun⟩

/-- An update changes no state. -/
theorem lowerRequest_update (hsane : ∀ j, (cores j).Sane) :
    lowerRequest .update i cores = some cores := by
  rw [lowerRequest_eq .update i hsane]
  simp only [lowerOutcome, settle_id]

omit [DecidableEq ι] [Fintype ι] in
/-- The lowest-private caches do not depend on the copies above them. -/
theorem Coherent.congr (h : Coherent cores) {cores' : ι → Core}
    (hlower : ∀ j, (cores' j).lower = (cores j).lower) : Coherent cores' := by
  refine ⟨fun j => ?_, fun j k hjk => ?_⟩
  · rw [Core.Sane, hlower]
    exact h.sane j
  · rw [hlower, hlower]
    exact h.single j k hjk

omit [Fintype ι] in
theorem Coherent.update_upper (h : Coherent cores) (upper : Copy) :
    Coherent (update cores i ⟨upper, (cores i).lower⟩) := by
  refine h.congr fun j => ?_
  by_cases hj : j = i
  · rw [hj, update_self]
  · rw [update_of_ne hj]

omit [Fintype ι] in
theorem Coherent.settle_upper (h : Coherent (settle i core f cores)) (upper : Copy) :
    Coherent (settle i ⟨upper, core.lower⟩ f cores) := by
  have hupdate := h.update_upper (i := i) upper
  rwa [update_settle, settle_self] at hupdate

theorem fetch_eq {type : OpType} (htype : type = .read ∨ type = .write) (victims : Core)
    (h : Coherent cores) : fetch type i victims cores = some (fetched type i victims cores) := by
  have hserved := h.outcome type i
  obtain ⟨line, hline⟩ := Option.ne_none_iff_exists'.mp
    (isValid_lowerOutcome htype (decide (OthersHold i cores)) (cores i)).1
  have hupper : completeRequest upperLevel type (some line) false
      ((lowerOutcome type (decide (OthersHold i cores)) (cores i)).1.upper.getD .invalid) =
      some (line, []) := by
    rcases htype with rfl | rfl <;> rfl
  have hanswered := (hserved.settle_upper (some line)).sane
  rw [fetch, lowerRequest_eq type i h.sane]
  simp only [Option.bind_eq_bind, Option.bind_some, settle_self, hline, hupper, update_settle,
    Option.pure_def, fetched] at hanswered ⊢
  simp only [lowerRequest_update hanswered, Option.bind_some, settle_self, update_settle, ite_self]
  by_cases habsent : (cores i).lower = none
  · rcases hvictim : victims.lower with _ | victim
    · simp [habsent, hvictim, Core.EvictsSelf]
    · by_cases hinvalid : victim = .invalid <;>
        simp [habsent, hvictim, hinvalid, Core.EvictsSelf, Copy.IsValid, foldlM_handleCacheInsert]
  · simp [habsent, Core.EvictsSelf]

omit [Fintype ι] in
theorem update_upper_self {line : MESICacheLineState} (h : (cores i).upper = some line) :
    update cores i ⟨some line, (cores i).lower⟩ = cores := by
  rw [← h]
  exact update_eq_self i cores

/-- A read is served by the upper cache if its copy is valid, and handed down otherwise. -/
theorem access_read_eq (h : Inclusive cores) (victims : Core) :
    access .read i victims cores =
      some (if (cores i).upper.IsValid then cores else fetched .read i victims cores) := by
  rw [access]
  rcases hline : (cores i).upper with _ | line
  · simp [fetch_eq (Or.inl rfl) victims h.toCoherent]
  · cases line with
    | noMesiStates => exact absurd hline (h.nested i).sane
    | invalid =>
      simp [handleLocalHit, update_upper_self hline, fetch_eq (Or.inl rfl) victims h.toCoherent]
    | modified | exclusive | shared =>
      simp [handleLocalHit, update_upper_self hline, Copy.IsValid]

/-- A write is served by the upper cache if its copy is MODIFIED, and handed down otherwise. -/
theorem access_write_eq (h : Inclusive cores) (victims : Core) :
    access .write i victims cores = some
      (if (cores i).upper = some .modified then cores else fetched .write i victims cores) := by
  rw [access]
  rcases hline : (cores i).upper with _ | line
  · simp [fetch_eq (Or.inr rfl) victims h.toCoherent]
  · cases line with
    | noMesiStates => exact absurd hline (h.nested i).sane
    | modified => simp [handleLocalHit, update_upper_self hline]
    | invalid | exclusive | shared =>
      simp [handleLocalHit, upperLevel, fetch_eq (Or.inr rfl) victims (h.update_upper _),
        fetched_update]

theorem replaceUpper_eq (i : ι) (inUse : Bool) (h : Coherent cores) :
    replaceUpper i inUse cores = some (settle i ⟨none, (cores i).lower⟩ id cores) := by
  rw [replaceUpper]
  rcases hline : (cores i).upper with _ | line
  · have hcore : (⟨none, (cores i).lower⟩ : Core) = cores i := by rw [← hline]
    simp only [hcore, settle_id]
  · simp only [lowerRequest_update (h.update_upper none).sane, ite_self]
    rw [update_eq_settle]

/-! ### One step of the two-level system -/

theorem Core.Nested.dropIf {P : Copy → Prop} [DecidablePred P] {core : Core} (h : core.Nested) :
    (core.dropIf P).Nested := by
  unfold Core.dropIf
  split_ifs
  · rcases core with ⟨_ | line, lower⟩ <;>
      exact ⟨nofun, fun hv => absurd hv (by simp), fun hv => absurd hv (by simp)⟩
  · exact h

/-- The one snooped request that may leave the upper copy MODIFIED or EXCLUSIVE above a lesser one
is a read of a MODIFIED line. -/
theorem Core.Nested.afterRead {core : Core} (h : core.Nested)
    (hclean : core.lower = some .modified → ¬ core.upper.Owns) : core.afterRead.Nested := by
  obtain ⟨upper, lower⟩ := core
  rcases lower with _ | line
  · exact h
  · cases line with
    | invalid | shared | noMesiStates => exact h
    | modified => exact ⟨h.sane, fun _ => nofun, fun hown => absurd hown (hclean rfl)⟩
    | exclusive =>
      rcases upper with _ | line
      · exact ⟨nofun, fun _ => nofun, fun hown => absurd hown Copy.not_owns_none⟩
      · exact ⟨nofun, fun _ => nofun, fun hown => absurd hown Copy.not_owns_shared⟩

omit [Fintype ι] in
theorem nested_settle (hcore : core.Nested) (hothers : ∀ j, j ≠ i → (f (cores j)).Nested)
    (j : ι) : (settle i core f cores j).Nested := by
  by_cases hj : j = i
  · rw [hj, settle_self]
    exact hcore
  · rw [settle_of_ne hj]
    exact hothers j hj

/-- The changes of the other cores are among those of the bus. -/
theorem weakens_lowerOutcome (type : OpType) (held : Bool) (core : Core) :
    Weakens (lowerOutcome type held core).2 := by
  cases type with
  | read =>
    by_cases hvalid : core.lower.IsValid
    · rw [lowerOutcome_read_hit hvalid]
      exact weakens_id
    · rw [lowerOutcome_read_miss hvalid]
      exact weakens_afterRead
  | write =>
    simp only [lowerOutcome]
    split_ifs
    exacts [weakens_id, weakens_afterEvict, weakens_afterWrite]
  | update => exact weakens_id
  | evict =>
    rcases core with ⟨upper, _ | line⟩
    exacts [weakens_afterEvict, weakens_id]

/-- An access that is handed down keeps the caches in order, provided a read meets no core
whose upper copy it would leave alone with its state, and the access of an owner no copy above
nothing. -/
theorem Inclusive.fetched (h : Inclusive cores) {type : OpType} {victims : Core}
    (htype : type = .read ∨ type = .write)
    (hclean : type = .read → ¬ (cores i).lower.IsValid →
      ∀ j, j ≠ i → (cores j).lower = some .modified → ¬ (cores j).upper.Owns)
    (hcovered : (fetched type i victims cores i).upper.Owns →
      ∀ j, j ≠ i → ¬ (cores j).Uncovered) :
    Inclusive (fetched type i victims cores) := by
  have hlower := h.outcome type i
  have hvalid := isValid_lowerOutcome htype (decide (OthersHold i cores)) (cores i)
  have hweakens := weakens_lowerOutcome type (decide (OthersHold i cores)) (cores i)
  set outcome := lowerOutcome type (decide (OthersHold i cores)) (cores i) with hdef
  have hsane : outcome.1.lower ≠ some .noMesiStates := by
    have := hlower.sane i
    rwa [settle_self] at this
  have hcore : Core.Nested ⟨if victims.EvictsSelf (cores i) then some .invalid
      else outcome.1.lower, outcome.1.lower⟩ := by
    split_ifs
    · exact ⟨nofun, fun _ => hvalid.2, fun hown => absurd hown Copy.not_owns_invalid⟩
    · exact ⟨hsane, fun _ => hvalid.2, id⟩
  have hothers : ∀ j, j ≠ i → (outcome.2 (cores j)).Nested := by
    intro j hj
    have hj' := h.nested j
    rcases htype with rfl | rfl
    · by_cases hline : (cores i).lower.IsValid
      · rwa [hdef, lowerOutcome_read_hit hline]
      · rw [hdef, lowerOutcome_read_miss hline]
        exact hj'.afterRead (hclean rfl hline j hj)
    · simp only [hdef, lowerOutcome]
      split_ifs
      · exact hj'
      · exact hj'.dropIf
      · exact hj'.dropIf
  have hcoherent : Coherent (Ptlsim.fetched type i victims cores) := hlower.settle_upper _
  have hnested : ∀ j, (Ptlsim.fetched type i victims cores j).Nested := nested_settle hcore hothers
  refine ⟨hcoherent, hnested, fun k hown j hj huncovered => ?_⟩
  by_cases hk : k = i
  · subst hk
    rw [Ptlsim.fetched, settle_of_ne hj] at huncovered
    exact hcovered hown j hj ((hweakens.uncovered _).mp huncovered)
  · -- core `i` has a valid copy, so no other core owns the line
    refine hcoherent.single k i hk ((hnested k).owns hown) ?_
    rw [Ptlsim.fetched, settle_self]
    exact hvalid

/-- The states in which a read leaves the requester's copies. -/
theorem owns_fetched_read {victims : Core}
    (h : (fetched .read i victims cores i).upper.Owns) :
    ((cores i).lower.Owns ∨ ¬ (cores i).lower.IsValid ∧ ¬ OthersHold i cores) ∧
      ¬ victims.EvictsSelf (cores i) := by
  rw [fetched, settle_self] at h
  split_ifs at h with hevicts
  · exact absurd h Copy.not_owns_invalid
  · refine ⟨?_, hevicts⟩
    by_cases hvalid : (cores i).lower.IsValid
    · rw [lowerOutcome_read_hit hvalid] at h
      exact Or.inl h
    · refine Or.inr ⟨hvalid, fun hheld => ?_⟩
      simp [lowerOutcome_read_miss hvalid, hheld] at h

omit [Fintype ι] in
/-- A replacement leaves the caches in order if the upper copy of the core does not own the line
afterwards, and is not above nothing while another core owns it. -/
theorem Inclusive.replaced (h : Inclusive cores) (hcoherent : Coherent (settle i core id cores))
    (hcore : core.Nested) (hown : ¬ core.upper.Owns)
    (huncovered : core.Uncovered → ∀ k, k ≠ i → ¬ (cores k).upper.Owns) :
    Inclusive (settle i core id cores) := by
  refine ⟨hcoherent, nested_settle hcore fun j _ => h.nested j, fun k hk j hj hun => ?_⟩
  have hki : k ≠ i := fun hki => hown (by rwa [hki, settle_self] at hk)
  rw [settle_of_ne hki] at hk
  by_cases hji : j = i
  · rw [hji, settle_self] at hun
    exact huncovered hun k hki hk
  · rw [settle_of_ne hji] at hun
    exact h.covered k hk j hj hun

/-- A step that meets the condition keeps the caches in order. -/
theorem Inclusive.step {cores' : ι → Core} {a : Access ι} (h : Inclusive cores)
    (hstep : accessStep cores a = some cores') (hclean : Clean cores a) : Inclusive cores' := by
  cases a with
  | read i victims =>
    rw [accessStep, access_read_eq h, Option.some.injEq] at hstep
    subst hstep
    split_ifs with hvalid
    · exact h
    · obtain ⟨hmodified, hcovered⟩ := hclean hvalid
      refine h.fetched (Or.inl rfl) (fun _ => hmodified) fun hown => ?_
      obtain ⟨htakes, hevicts⟩ := owns_fetched_read hown
      exact hcovered htakes hevicts
  | write i victims =>
    rw [accessStep, access_write_eq h, Option.some.injEq] at hstep
    subst hstep
    split_ifs with hmodified
    · exact h
    · refine h.fetched (Or.inr rfl) nofun fun hown => hclean hmodified fun hevicts => ?_
      rw [Ptlsim.fetched, settle_self, if_pos hevicts] at hown
      exact Copy.not_owns_invalid hown
  | replaceUpper i inUse =>
    rw [accessStep, replaceUpper_eq i inUse h.toCoherent, Option.some.injEq] at hstep
    subst hstep
    refine h.replaced ?_ ⟨nofun, fun hv => absurd hv Copy.not_isValid_none,
      fun hv => absurd hv Copy.not_owns_none⟩ Copy.not_owns_none fun hun => absurd hun.1 (by simp)
    rw [← update_eq_settle]
    exact h.update_upper none
  | replaceLower i inUse =>
    rw [accessStep, replaceLower_eq i, Option.some.injEq] at hstep
    subst hstep
    -- the upper copy is not MODIFIED or EXCLUSIVE afterwards, and valid only if it was in use
    have hown : ¬ Copy.Owns (if (cores i).lower.IsValid ∧ inUse = false then
        (cores i).upper.map fun _ => .invalid else (cores i).upper) := by
      intro hown
      split_ifs at hown with hsent
      · exact Copy.not_owns_map_invalid _ hown
      · have hlower := ((h.nested i).owns hown).isValid
        exact hclean (by simpa [hlower] using hsent) hown
    refine h.replaced (h.settled weakens_id nofun (fun hown => absurd hown Copy.not_owns_none)
      fun hvalid => absurd hvalid Copy.not_isValid_none)
      ⟨?_, fun _ => nofun, fun hv => absurd hv hown⟩ hown fun hun k hk hkown => ?_
    · split_ifs
      · rcases (cores i).upper with _ | line <;> exact nofun
      · exact (h.nested i).sane
    · have hlower := h.single k i hk ((h.nested k).owns hkown)
      have hupper : (cores i).upper.IsValid := by simpa [hlower] using hun.1
      exact h.covered k hkown i hk.symm ⟨hupper,
        (Copy.not_isValid_iff.mp hlower).resolve_right ((h.nested i).isValid hupper)⟩

end

end HybridMemory.Ptlsim

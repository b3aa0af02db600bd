import Mathlib.Data.Option.Basic
import Mathlib.Logic.Basic

/-!
# The MESI coherence logic of a cache controller

`MESILogic` is a set of handlers that a cache controller calls for one line: a request
from above that finds the line (`handleLocalHit`), a request of another cache that finds
it (`handleInterconnHit`), the choice of the line as the victim of an insertion
(`handleCacheInsert`) and the answer to a request of its own (`completeRequest`). Each
handler changes the state of the line and asks the controller for messages; here it
returns the new state with the list of these, and `none` where the source runs into
`assert(0)` or reads a state through a null pointer.

The tables at the end say what the handlers do for a lowest-private cache and for a cache
above one: later modules cite them and never unfold a handler.
-/

namespace HybridMemory.Ptlsim

/-- The states of a line. `noMesiStates` closes the enumeration of the source: no handler
stores it in a line, and finding it there is an assertion failure. -/
inductive MESICacheLineState
  | invalid | modified | exclusive | shared | noMesiStates
  deriving DecidableEq

inductive OpType
  | read | write | update | evict
  deriving DecidableEq

/-- The two options of a cache controller that the coherence logic asks for. -/
structure CacheController where
  isPrivate : Bool
  isLowestPrivate : Bool

/-- A private cache just above the interconnect it shares with the other cores. -/
def lowestPrivate : CacheController := ⟨true, true⟩

/-- A private cache between a core and its lowest-private cache. -/
def upperLevel : CacheController := ⟨true, false⟩

/-- What a handler asks of its controller: to answer the sender, to pass the request on to
the lower interconnect, to treat it as a miss, to drop it, or to send a message about the
line to the level above or below. -/
inductive Effect
  | respond | forward | cacheMiss | clearEntry
  | evictToUpper | evictToLower | updateToUpper | updateToLower
  deriving DecidableEq

/-- `MESILogic::handle_local_hit`: a request from above finds the line. -/
def handleLocalHit (c : CacheController) (type : OpType) (line : MESICacheLineState) :
    Option (MESICacheLineState × List Effect) :=
  if type = .evict then some (.invalid, [.clearEntry])
  -- the update was started at this level or below it: send the answer down
  else if type = .update ∧ line ≠ .modified then some (line, [.forward])
  else
    match line with
    | .invalid => some (.invalid, [.cacheMiss])
    | .exclusive =>
      if type = .write then
        if c.isLowestPrivate then some (.modified, [.respond])
        else some (.invalid, [.cacheMiss])
      else if type = .read then some (.exclusive, [.respond])
      else some (.exclusive, [])
    | .shared =>
      if type = .write then
        if c.isLowestPrivate then some (.modified, [.evictToLower, .respond])
        else some (.invalid, [.cacheMiss])
      else if type = .read then some (.shared, [.respond])
      else some (.shared, [])
    | .modified => some (.modified, [.respond])
    | .noMesiStates => none

/-- What a snooped request leaves behind: the state of the line, the `isShared` and
`responseData` flags of the answer, and the messages. -/
structure SnoopResult where
  line : MESICacheLineState
  isShared : Bool := false
  responseData : Bool := false
  effects : List Effect

/-- `MESILogic::handle_interconn_hit`: a request from below finds the line. The argument
`arg` is the state that the message points to. -/
def handleInterconnHit (c : CacheController) (type : OpType) (arg : Option MESICacheLineState)
    (line : MESICacheLineState) : Option SnoopResult :=
  let evictUpper : List Effect := if c.isLowestPrivate then [.evictToUpper] else []
  if type = .evict then
    some { line := .invalid, effects := evictUpper ++ [.clearEntry] }
  else if type = .update ∧ ¬ c.isLowestPrivate then
    arg.map fun state => { line := state, effects := [.clearEntry] }
  else
    match line, type with
    | .invalid, _ => some { line := .invalid, effects := [.respond] }
    | .exclusive, .read =>
      some { line := .shared, isShared := true, responseData := true,
             effects := [.updateToUpper, .respond] }
    | .shared, .read =>
      some { line := .shared, isShared := true, responseData := true, effects := [.respond] }
    | .modified, .read =>
      some { line := .shared, isShared := true, responseData := true,
             effects := [.updateToLower, .respond] }
    | .exclusive, .write | .shared, .write =>
      some { line := .invalid, responseData := true, effects := evictUpper ++ [.respond] }
    | .modified, .write =>
      some { line := .invalid, responseData := true,
             effects := .updateToLower :: evictUpper ++ [.respond] }
    | .exclusive, .update | .shared, .update =>
      arg.map fun state => { line := state, responseData := true, effects := [.respond] }
    | .modified, .update =>
      arg.map fun state =>
        { line := state, responseData := true, effects := [.updateToLower, .respond] }
    | .exclusive, .evict | .shared, .evict | .modified, .evict => none
    | .noMesiStates, _ => none

/-- `MESILogic::handle_cache_insert`: the messages about a line that an insertion replaces.
The way is left in the state INVALID. -/
def handleCacheInsert (c : CacheController) (line : MESICacheLineState) : List Effect :=
  (if line = .modified then [.updateToLower] else []) ++
    if line ≠ .invalid ∧ c.isLowestPrivate then [.evictToUpper] else []

/-- `MESILogic::get_new_state`: the state in which the answer to a request leaves the line
of a lowest-private cache. -/
def getNewState (c : CacheController) (type : OpType) (isShared : Bool)
    (line : MESICacheLineState) : Option (MESICacheLineState × List Effect) :=
  let evictUpper : List Effect := if c.isLowestPrivate then [.evictToUpper] else []
  if type = .evict then some (.invalid, evictUpper)
  else if type = .update then none
  else
    match line, isShared, type with
    | .invalid, true, .read => some (.shared, [])
    | .invalid, true, _ => none
    | .invalid, false, .read => some (.exclusive, [])
    | .invalid, false, .write => some (.modified, [])
    | .exclusive, true, .read => some (.shared, [])
    | .exclusive, true, _ => some (.invalid, evictUpper)
    | .exclusive, false, .read => some (.exclusive, [])
    | .exclusive, false, .write => some (.modified, [])
    | .shared, true, .read => some (.shared, [])
    | .shared, true, _ => none
    | .shared, false, .read => some (.shared, [])
    | .shared, false, .write => some (.modified, [])
    | .modified, true, .read => some (.shared, [])
    | .modified, true, _ => none
    | .modified, false, .read => some (.modified, [])
    | .modified, false, .write => some (.modified, [])
    | _, _, _ => none

/-- `MESILogic::complete_request`: the answer to a request of this cache has arrived. -/
def completeRequest (c : CacheController) (type : OpType) (arg : Option MESICacheLineState)
    (isShared : Bool) (line : MESICacheLineState) :
    Option (MESICacheLineState × List Effect) :=
  if c.isLowestPrivate then getNewState c type isShared line
  else if type = .evict then some (.invalid, [])
  else if c.isPrivate then arg.map fun state => (state, [])
  else some (.exclusive, [])

/-! ### Valid and owned copies -/

/-- A copy of the line as the controller finds it in its array: `none` where no way holds
the tag. -/
abbrev Copy := Option MESICacheLineState

/-- `CacheController::is_line_valid` for a line that is present. -/
def Copy.IsValid (copy : Copy) : Prop := copy ≠ none ∧ copy ≠ some .invalid

/-- The copy is MODIFIED or EXCLUSIVE. -/
def Copy.Owns (copy : Copy) : Prop := copy = some .modified ∨ copy = some .exclusive

instance (copy : Copy) : Decidable copy.IsValid := inferInstanceAs (Decidable (_ ∧ _))

instance (copy : Copy) : Decidable copy.Owns := inferInstanceAs (Decidable (_ ∨ _))

theorem Copy.Owns.isValid {copy : Copy} (h : copy.Owns) : copy.IsValid := by
  rcases h with rfl | rfl <;> exact ⟨nofun, nofun⟩

theorem Copy.not_isValid_iff {copy : Copy} :
    ¬ copy.IsValid ↔ copy = none ∨ copy = some .invalid := by
  rw [Copy.IsValid, not_and_or, not_not, not_not]

@[simp] theorem Copy.not_isValid_none : ¬ Copy.IsValid none := fun h => h.1 rfl

@[simp] theorem Copy.not_isValid_invalid : ¬ Copy.IsValid (some .invalid) := fun h => h.2 rfl

@[simp] theorem Copy.not_owns_none : ¬ Copy.Owns none := nofun

@[simp] theorem Copy.not_owns_invalid : ¬ Copy.Owns (some .invalid) := nofun

@[simp] theorem Copy.not_owns_map_invalid (copy : Copy) :
    ¬ Copy.Owns (copy.map fun _ => .invalid) := by
  cases copy <;> exact nofun

@[simp] theorem Copy.not_owns_shared : ¬ Copy.Owns (some .shared) := nofun

/-! ### A write that the upper level serves alone -/

end HybridMemory.Ptlsim

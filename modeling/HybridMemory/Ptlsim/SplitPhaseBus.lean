import Mathlib.Data.Fintype.Basic
import Mathlib.Data.List.Nodup
import HybridMemory.Lib.Transition
import HybridMemory.Ptlsim.MESILogic

/-!
# Lowest-private caches on the split-phase bus

The bus broadcasts a request, collects the answers and hands the data over later; in
between every cache looks at its own array when it gets to it. The model follows one line.
A pending request (`PendingQueueEntry` together with the snoop entries it has created in the
caches) knows for each cache whether its snoop entry still waits, whether its answer waits
to be sent, or whether the bus counts it as received. The first answer with data makes the
bus call `annul_request` in every controller it has not heard from.

Requests of different caches for the line may overlap, hits are served while requests are
pending, and a write hit on a SHARED line sends an EVICT that the other caches handle when
they get to it. Queue capacities only delay steps and are left out; snooping is on.

* `write_exclusive_iff`: when a write is completed, the other caches hold nothing exactly if
  no cache still holds the line that was cancelled with a valid copy, or that received the
  line for a request of its own after it had answered.
-/

namespace HybridMemory.Ptlsim

open Transition Function

/-- How far a cache has come with a broadcast request. -/
inductive Stage
  /-- the snoop entry waits for the cache array -/
  | snooping
  /-- the line has been handled and the answer waits for the bus -/
  | answering (isShared responseData : Bool)
  /-- the bus has the answer, or has cancelled the request in this cache -/
  | received
  deriving DecidableEq

/-- A broadcast request. The last two fields are not in the source: they record the caches
that were cancelled while they held the line, and those that were given the line by another
request after they had dealt with this one. -/
structure Pending (ι : Type) where
  requester : ι
  type : OpType
  stages : ι → Stage
  lowerReceived : Bool := false
  hasData : Bool := false
  shared : Bool := false
  cancelled : ι → Bool := fun _ => false
  refilled : ι → Bool := fun _ => false

/-- The line in every cache, the pending requests, the EVICT messages that wait for the
address bus and the EVICT snoop entries that wait in each cache. -/
structure BusState (ι : Type) where
  copies : ι → Copy := fun _ => none
  pending : List (Pending ι) := []
  evictQueue : List ι := []
  evictions : ι → ℕ := fun _ => 0

inductive BusAction (ι : Type)
  | hit (i : ι) (type : OpType)
  | request (i : ι) (type : OpType)
  | snoop (j : ι) (n : ℕ)
  | respond (j : ι) (n : ℕ)
  | lowerRespond (n : ℕ)
  | deliver (n : ℕ)
  | broadcastEvict
  | snoopEvict (j : ι)
  | replace (j : ι)
  deriving DecidableEq

/-- A snooped request at one cache: the copy it leaves and the flags of the answer. -/
def snoopCopy (type : OpType) : Copy → Option (Copy × Bool × Bool)
  | none => some (none, false, false)
  | some line =>
    (handleInterconnHit lowestPrivate type none line).map fun r =>
      (some r.line, r.isShared, r.responseData)

section

variable {ι : Type} [DecidableEq ι]

/-- `BusInterconnect::controller_request_cb` for an answer of cache `j`. An answer with data
cancels the request in every controller that has not answered. -/
def Pending.respond (copies : ι → Copy) (p : Pending ι) (j : ι) (isShared responseData : Bool) :
    Pending ι :=
  let stages := update p.stages j .received
  let shared := p.shared || isShared
  if responseData then
    { p with
      stages := fun _ => .received, lowerReceived := true, hasData := true, shared := shared
      cancelled := fun k => p.cancelled k ||
        (decide (stages k ≠ .received) && decide (copies k).IsValid) }
  else { p with stages := stages, shared := shared }

/-- The line has been given to cache `i` for a request of its own. -/
def Pending.refill (i : ι) (p : Pending ι) : Pending ι :=
  if p.stages i = .snooping then p else { p with refilled := update p.refilled i true }

variable [Fintype ι]

/-- One step of the bus or of a cache. -/
def busStep (s : BusState ι) : BusAction ι → Option (BusState ι)
  -- a read or write from above that the cache serves alone
  | .hit i type =>
    match (s.copies i).bind (handleLocalHit lowestPrivate type) with
    | none => none
    | some (line, effects) =>
      if (type = .read ∨ type = .write) ∧ .cacheMiss ∉ effects then
        some { s with
          copies := update s.copies i (some line)
          evictQueue := if .evictToLower ∈ effects then s.evictQueue ++ [i] else s.evictQueue }
      else none
  -- a miss, broadcast to the other caches; a cache has one request for the line at a time
  | .request i type =>
    if (type = .read ∨ type = .write) ∧ ¬ (s.copies i).IsValid ∧
        ∀ p ∈ s.pending, p.requester ≠ i then
      some { s with
        pending := s.pending ++ [{ requester := i, type := type
                                   stages := update (fun _ => .snooping) i .received }] }
    else none
  | .snoop j n => do
    let p ← s.pending[n]?
    if p.stages j = .snooping then
      let (copy, isShared, responseData) ← snoopCopy p.type (s.copies j)
      some { s with
        copies := update s.copies j copy
        pending := s.pending.set n
          { p with stages := update p.stages j (.answering isShared responseData) } }
    else none
  | .respond j n => do
    let p ← s.pending[n]?
    match p.stages j with
    | .answering isShared responseData =>
      some { s with pending := s.pending.set n (p.respond s.copies j isShared responseData) }
    | _ => none
  -- the memory or shared cache below answers with data; it is not private and cancels nothing
  | .lowerRespond n => do
    let p ← s.pending[n]?
    if p.lowerReceived then none
    else
      some { s with pending := s.pending.set n { p with lowerReceived := true, hasData := true } }
  -- all answers are in: the data reach the requester and the request is gone
  | .deliver n => do
    let p ← s.pending[n]?
    if (∀ j, p.stages j = .received) ∧ p.lowerReceived then
      let (line, _) ← completeRequest lowestPrivate p.type none p.shared
        ((s.copies p.requester).getD .invalid)
      some { s with
        copies := update s.copies p.requester (some line)
        pending := (s.pending.eraseIdx n).map (Pending.refill p.requester) }
    else none
  | .broadcastEvict =>
    match s.evictQueue with
    | [] => none
    | i :: queue =>
      some { s with
        evictQueue := queue
        evictions := fun j => if j = i then s.evictions j else s.evictions j + 1 }
  | .snoopEvict j =>
    if s.evictions j = 0 then none
    else do
      let (copy, _, _) ← snoopCopy .evict (s.copies j)
      some { s with
        copies := update s.copies j copy
        evictions := update s.evictions j (s.evictions j - 1) }
  -- the line loses its way in a cache to another line
  | .replace j => some { s with copies := update s.copies j none }

/-! ### What a step does -/

omit [DecidableEq ι] [Fintype ι] in
/-- A pending request is consistent with the copies: its requester holds nothing, and a cache
that has dealt with a write holds the line only if it was cancelled or refilled. -/
structure Pending.Inv (copies : ι → Copy) (p : Pending ι) : Prop where
  absent : ¬ (copies p.requester).IsValid
  heard : p.type = .write → ∀ j, j ≠ p.requester → p.stages j ≠ .snooping →
    (copies j).IsValid → p.cancelled j ∨ p.refilled j

omit [DecidableEq ι] [Fintype ι] in
/-- The invariant of the bus: every pending request is consistent, and no two are of one
cache. -/
structure BusInv (copies : ι → Copy) (pending : List (Pending ι)) : Prop where
  consistent : ∀ p ∈ pending, p.Inv copies
  nodup : (pending.map Pending.requester).Nodup

omit [DecidableEq ι] [Fintype ι] in
theorem Pending.Inv.mono {copies copies' : ι → Copy} {p : Pending ι} (h : p.Inv copies)
    (hle : ∀ k, (copies' k).IsValid → (copies k).IsValid) : p.Inv copies' :=
  ⟨fun hv => h.absent (hle _ hv), fun hw j hj hs hv => h.heard hw j hj hs (hle j hv)⟩

omit [Fintype ι] in
theorem isValid_of_update {copies : ι → Copy} {i : ι} {copy : Copy}
    (h : copy.IsValid → (copies i).IsValid) (k : ι)
    (hk : (update copies i copy k).IsValid) : (copies k).IsValid := by
  by_cases hki : k = i
  · subst hki
    rw [update_self] at hk
    exact h hk
  · rwa [update_of_ne hki] at hk

/-- A snooped request leaves no copy where there was none. -/
theorem snoopCopy_isValid {type : OpType} {copy copy' : Copy} {flags : Bool × Bool}
    (h : snoopCopy type copy = some (copy', flags)) (hv : copy'.IsValid) : copy.IsValid := by
  rcases copy with _ | line
  · simp only [snoopCopy, Option.some.injEq, Prod.mk.injEq] at h
    rw [← h.1] at hv
    exact hv
  · cases line with
    | invalid =>
      cases type <;> simp_all [snoopCopy, handleInterconnHit, lowestPrivate, Copy.IsValid]
    | _ => exact ⟨Option.some_ne_none _, by simp⟩

/-- A snooped write leaves no valid copy. -/
theorem snoopCopy_write {copy copy' : Copy} {flags : Bool × Bool}
    (h : snoopCopy .write copy = some (copy', flags)) : ¬ copy'.IsValid := by
  rcases copy with _ | line
  · simp only [snoopCopy, Option.some.injEq, Prod.mk.injEq] at h
    simp [← h.1]
  · cases line <;> simp_all [snoopCopy, handleInterconnHit, Copy.IsValid]

/-- A hit that the cache serves alone is on a valid line. -/
theorem isValid_of_hit {type : OpType} {line line' : MESICacheLineState} {effects : List Effect}
    (htype : type = .read ∨ type = .write)
    (h : handleLocalHit lowestPrivate type line = some (line', effects))
    (hmiss : .cacheMiss ∉ effects) : Copy.IsValid (some line) := by
  refine ⟨nofun, fun hline => hmiss ?_⟩
  obtain rfl : line = .invalid := Option.some.inj hline
  have heffects : [Effect.cacheMiss] = effects := by
    rcases htype with rfl | rfl
    · exact (Prod.mk.inj (Option.some.inj h)).2
    · exact (Prod.mk.inj (Option.some.inj h)).2
  simp [← heffects]

variable {copies copies' : ι → Copy} {pending : List (Pending ι)} {p p' : Pending ι} {n : ℕ}

omit [DecidableEq ι] [Fintype ι] in
theorem BusInv.mono (h : BusInv copies pending)
    (hle : ∀ k, (copies' k).IsValid → (copies k).IsValid) : BusInv copies' pending :=
  ⟨fun q hq => (h.consistent q hq).mono hle, h.nodup⟩

omit [DecidableEq ι] [Fintype ι] in
/-- A pending request changes and no cache gains a copy. -/
theorem BusInv.set (h : BusInv copies pending) (hp : pending[n]? = some p)
    (hrequester : p'.requester = p.requester)
    (hle : ∀ k, (copies' k).IsValid → (copies k).IsValid) (hp' : p'.Inv copies') :
    BusInv copies' (pending.set n p') := by
  have hmap : (pending.set n p').map Pending.requester = pending.map Pending.requester := by
    refine List.ext_getElem? fun m => ?_
    rw [List.getElem?_map, List.getElem?_map, List.getElem?_set]
    by_cases hm : n = m
    · subst hm
      rw [if_pos rfl, hp]
      have hlt : n < pending.length := (List.getElem?_eq_some_iff.mp hp).1
      simp [hlt, hrequester]
    · rw [if_neg hm]
  refine ⟨fun q hq => ?_, hmap ▸ h.nodup⟩
  rcases List.mem_or_eq_of_mem_set hq with hq | rfl
  · exact (h.consistent q hq).mono hle
  · exact hp'

omit [DecidableEq ι] [Fintype ι] in
/-- A request that stays when another one leaves is of another cache. -/
theorem BusInv.requester_ne (h : BusInv copies pending) (hp : pending[n]? = some p)
    (hp' : p' ∈ pending.eraseIdx n) : p'.requester ≠ p.requester := by
  obtain ⟨m, hm, hget⟩ := List.mem_eraseIdx_iff_getElem?.mp hp'
  intro hsame
  have hlt : m < (pending.map Pending.requester).length := by
    rw [List.length_map]
    exact (List.getElem?_eq_some_iff.mp hget).1
  refine hm ((List.getElem?_inj hlt h.nodup).mp ?_)
  rw [List.getElem?_map, List.getElem?_map, hget, hp, Option.map_some, Option.map_some, hsame]

omit [Fintype ι] in
/-- The line goes to the requester `i`, and the requests that stay are of other caches. -/
theorem Pending.Inv.refill {i : ι} {copy : Copy} (h : p.Inv copies) (hi : p.requester ≠ i) :
    (p.refill i).Inv (update copies i copy) := by
  rw [Pending.refill]
  split_ifs with hstage
  · refine ⟨by rw [update_of_ne hi]; exact h.absent, fun hw j hj hs hv => ?_⟩
    have hji : j ≠ i := fun hji => hs (hji ▸ hstage)
    rw [update_of_ne hji] at hv
    exact h.heard hw j hj hs hv
  · refine ⟨by dsimp only; rw [update_of_ne hi]; exact h.absent,
      fun hw j hj hs hv => ?_⟩
    dsimp only
    by_cases hji : j = i
    · exact Or.inr (by rw [hji, update_self])
    · rw [update_of_ne hji] at hv ⊢
      exact h.heard hw j hj hs hv

omit [Fintype ι] in
/-- An answer: the sender has dealt with the request, and whoever is cancelled with a valid
copy is recorded. -/
theorem Pending.Inv.respond {j : ι} {isShared responseData : Bool} (h : p.Inv copies)
    (hj : p.stages j ≠ .snooping) :
    (p.respond copies j isShared responseData).Inv copies := by
  have hold : ∀ k, p.type = .write → k ≠ p.requester →
      update p.stages j .received k ≠ .snooping → (copies k).IsValid →
      p.cancelled k ∨ p.refilled k := by
    intro k hw hk hs hv
    by_cases hkj : k = j
    · exact h.heard hw k hk (hkj ▸ hj) hv
    · rw [update_of_ne hkj] at hs
      exact h.heard hw k hk hs hv
  rw [Pending.respond]
  split_ifs with hdata
  · refine ⟨h.absent, fun hw k hk _ hv => ?_⟩
    dsimp only at hw ⊢
    by_cases hs : update p.stages j .received k = .received
    · rcases hold k hw hk (by rw [hs]; exact nofun) hv with hc | hr
      · exact Or.inl (by rw [hc, Bool.true_or])
      · exact Or.inr hr
    · exact Or.inl (by simp [hs, hv])
  · exact ⟨h.absent, fun hw k hk hs hv => hold k hw hk hs hv⟩

/-- Every step keeps the pending requests consistent with the copies. -/
theorem BusInv.step {s t : BusState ι} {a : BusAction ι} (h : BusInv s.copies s.pending)
    (hstep : busStep s a = some t) : BusInv t.copies t.pending := by
  cases a with
  | hit i type =>
    simp only [busStep] at hstep
    split at hstep
    · contradiction
    · rename_i line effects hline
      by_cases hhit : (type = .read ∨ type = .write) ∧ .cacheMiss ∉ effects
      swap
      · rw [if_neg hhit] at hstep
        contradiction
      rw [if_pos hhit] at hstep
      obtain rfl := Option.some.inj hstep
      obtain ⟨old, hold, hlocal⟩ := Option.bind_eq_some_iff.mp hline
      refine h.mono (isValid_of_update fun _ => ?_)
      rw [hold]
      exact isValid_of_hit hhit.1 hlocal hhit.2
  | request i type =>
    simp only [busStep] at hstep
    split_ifs at hstep with hmiss
    obtain rfl := Option.some.inj hstep
    obtain ⟨-, habsent, hother⟩ := hmiss
    constructor
    · intro q hq
      rcases List.mem_append.mp hq with hq | hq
      · exact h.consistent q hq
      · obtain rfl := List.mem_singleton.mp hq
        refine ⟨habsent, fun _ j hj hs => absurd ?_ hs⟩
        dsimp only at hj ⊢
        rw [update_of_ne hj]
    · rw [List.map_append, List.map_singleton, List.nodup_append]
      refine ⟨h.nodup, List.nodup_singleton _, ?_⟩
      rintro _ hq _ hi rfl
      obtain ⟨q, hmem, rfl⟩ := List.mem_map.mp hq
      exact hother q hmem (List.mem_singleton.mp hi)
  | snoop j n =>
    simp only [busStep, Option.bind_eq_bind, Option.bind_eq_some_iff] at hstep
    obtain ⟨p, hp, hstep⟩ := hstep
    split_ifs at hstep with hstage
    obtain ⟨⟨copy, isShared, responseData⟩, hsnoop, hstep⟩ := Option.bind_eq_some_iff.mp hstep
    obtain rfl := Option.some.inj hstep
    have hle : ∀ k, (update s.copies j copy k).IsValid → (s.copies k).IsValid :=
      isValid_of_update (snoopCopy_isValid hsnoop)
    have hpinv := h.consistent p (List.mem_of_getElem? hp)
    refine h.set hp rfl hle ⟨fun hv => hpinv.absent (hle _ hv), fun hw k hk hs hv => ?_⟩
    dsimp only at hw hs hv
    by_cases hkj : k = j
    · -- a cache that has just handled a write holds nothing
      rw [hkj, update_self] at hv
      rw [hw] at hsnoop
      exact absurd hv (snoopCopy_write hsnoop)
    · rw [update_of_ne hkj] at hs
      exact hpinv.heard hw k hk hs (hle k hv)
  | respond j n =>
    simp only [busStep, Option.bind_eq_bind, Option.bind_eq_some_iff] at hstep
    obtain ⟨p, hp, hstep⟩ := hstep
    split at hstep
    · rename_i isShared responseData hstage
      obtain rfl := Option.some.inj hstep
      have hpinv := h.consistent p (List.mem_of_getElem? hp)
      refine h.set hp ?_ (fun _ hv => hv) (hpinv.respond (by rw [hstage]; exact nofun))
      rw [Pending.respond]
      split_ifs <;> rfl
    · contradiction
  | lowerRespond n =>
    simp only [busStep, Option.bind_eq_bind, Option.bind_eq_some_iff] at hstep
    obtain ⟨p, hp, hstep⟩ := hstep
    split_ifs at hstep
    obtain rfl := Option.some.inj hstep
    have hpinv := h.consistent p (List.mem_of_getElem? hp)
    exact h.set hp rfl (fun _ hv => hv) ⟨hpinv.absent, hpinv.heard⟩
  | deliver n =>
    simp only [busStep, Option.bind_eq_bind, Option.bind_eq_some_iff] at hstep
    obtain ⟨p, hp, hstep⟩ := hstep
    split_ifs at hstep
    obtain ⟨⟨line, effects⟩, -, hstep⟩ := Option.bind_eq_some_iff.mp hstep
    obtain rfl := Option.some.inj hstep
    constructor
    · intro q hq
      obtain ⟨q, hmem, rfl⟩ := List.mem_map.mp hq
      exact (h.consistent q (List.mem_of_mem_eraseIdx hmem)).refill (h.requester_ne hp hmem)
    · have hmap : ((s.pending.eraseIdx n).map (Pending.refill p.requester)).map
          Pending.requester = (s.pending.eraseIdx n).map Pending.requester := by
        rw [List.map_map]
        refine List.map_congr_left fun q _ => ?_
        simp only [Function.comp, Pending.refill]
        split_ifs <;> rfl
      dsimp only
      rw [hmap]
      exact h.nodup.sublist ((List.eraseIdx_sublist _ _).map _)
  | broadcastEvict =>
    simp only [busStep] at hstep
    split at hstep
    · contradiction
    · obtain rfl := Option.some.inj hstep
      exact h
  | snoopEvict j =>
    simp only [busStep] at hstep
    split_ifs at hstep
    obtain ⟨⟨copy, flags⟩, hsnoop, hstep⟩ := Option.bind_eq_some_iff.mp hstep
    obtain rfl := Option.some.inj hstep
    exact h.mono (isValid_of_update (snoopCopy_isValid hsnoop))
  | replace j =>
    obtain rfl := Option.some.inj hstep
    exact h.mono (isValid_of_update fun hv => absurd hv Copy.not_isValid_none)

/-- **Completed writes.** Whatever the order in which the caches handle a broadcast write and
answer it, when the data reach the requester no other cache holds the line if and only if
none of the caches that were cancelled with a valid copy, or refilled after their answer,
still holds it. -/
theorem write_exclusive_iff {actions : List (BusAction ι)} {s t : BusState ι} {n : ℕ}
    {p : Pending ι} (hrun : Run (Steps busStep) {} actions s) (hp : s.pending[n]? = some p)
    (hwrite : p.type = .write) (hdeliver : busStep s (.deliver n) = some t) :
    (∀ j, j ≠ p.requester → ¬ (t.copies j).IsValid) ↔
      ∀ j, p.cancelled j ∨ p.refilled j → ¬ (s.copies j).IsValid := by
  have hinv : BusInv s.copies s.pending := by
    refine hrun.invariant (P := fun s => BusInv s.copies s.pending) ⟨nofun, List.nodup_nil⟩ ?_
    intro s a t h hstep
    exact h.step hstep
  have hpinv := hinv.consistent p (List.mem_of_getElem? hp)
  simp only [busStep, Option.bind_eq_bind, hp, Option.bind_some] at hdeliver
  split_ifs at hdeliver with hready
  obtain ⟨⟨line, effects⟩, -, hdeliver⟩ := Option.bind_eq_some_iff.mp hdeliver
  obtain rfl := Option.some.inj hdeliver
  dsimp only
  constructor
  · intro hothers j _ hv
    have hj : j ≠ p.requester := fun hj => hpinv.absent (hj ▸ hv)
    refine hothers j hj ?_
    rwa [update_of_ne hj]
  · intro hflagged j hj hv
    rw [update_of_ne hj] at hv
    have hstage : p.stages j ≠ .snooping := by
      rw [hready.1 j]
      exact nofun
    exact hflagged j (hpinv.heard hwrite j hj hstage hv) hv

/-- Cache `0` reads the line, and cache `1` writes it: cache `0` gives up its copy before it
answers, and its answer cancels the memory. -/
theorem write_exclusive_iff_two_caches :
    ∃ (s t : BusState (Fin 2)) (p : Pending (Fin 2)), s.pending[0]? = some p ∧
      p.type = .write ∧ busStep s (.deliver 0) = some t ∧
      ((∀ j, j ≠ p.requester → ¬ (t.copies j).IsValid) ↔
        ∀ j, p.cancelled j ∨ p.refilled j → ¬ (s.copies j).IsValid) := by
  obtain ⟨s, hrun, htest⟩ := exists_run_of_any busStep ({} : BusState (Fin 2))
    [.request 0 .read, .snoop 1 0, .respond 1 0, .lowerRespond 0, .deliver 0,
      .request 1 .write, .snoop 0 0, .respond 0 0]
    (fun s => (s.pending[0]?).any (fun p => p.type = .write) && (busStep s (.deliver 0)).isSome)
    (by decide +kernel)
  simp only [Bool.and_eq_true, Option.any_eq_true, decide_eq_true_eq] at htest
  obtain ⟨⟨p, hp, hwrite⟩, hdeliver⟩ := htest
  obtain ⟨t, ht⟩ := Option.isSome_iff_exists.mp hdeliver
  exact ⟨s, t, p, hp, hwrite, ht, write_exclusive_iff hrun hp hwrite ht⟩

/-- Caches `0` and `1` share the line and cache `2` writes it. Cache `0` answers with data
before cache `1` has looked at the request, the bus cancels it there, and the completed
write leaves cache `1` with its copy. -/
theorem write_completes_beside_shared_copy :
    ∃ t : BusState (Fin 3), Run (Steps busStep) {}
      [.request 0 .read, .snoop 1 0, .respond 1 0, .snoop 2 0, .respond 2 0, .lowerRespond 0,
        .deliver 0,
        .request 1 .read, .snoop 0 0, .respond 0 0, .deliver 0,
        .request 2 .write, .snoop 0 0, .respond 0 0, .deliver 0] t ∧
      t.copies 2 = some .modified ∧ t.copies 1 = some .shared :=
  exists_run (by decide +kernel)

end

end HybridMemory.Ptlsim

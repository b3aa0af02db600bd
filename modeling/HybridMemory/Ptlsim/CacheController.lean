import HybridMemory.Lib.LinkedPool
import HybridMemory.Lib.Transition
import HybridMemory.Ptlsim.AssociativeArray
import HybridMemory.Ptlsim.NVMainMemory
import Mathlib.Data.Finset.Max

/-!
# The pending requests of a cache controller

`CacheController` keeps its pending requests in a pool of 256 entries. A request from above
whose line another pending request addresses waits for that one: the entries of a line form a
chain, linked by the indices `depends` and `waitFor`. The chain is extended at its end by new
requests, served from its head, and mended when an entry is annulled. A waiting entry keeps its
flag `CACHE_ACCESS_EVENT` until it has accessed the cache, and an entry with a flag is not
cleared.

Clearing and annulling an entry are both the unlinking of a node (`clearEntryCb_eq`,
`annulEntry_eq`), and the links stay well formed (`links_wellFormed`) as long as no access is
left scheduled for an annulled entry. Such an access comes to whatever request has the slot by
then, and takes the flag from a request that still waits (`waiting_entry_cleared`).

A line is in use if a pending request addresses it. `is_line_in_use` compares the number of
the line with the tag, which is its first address; `line_in_use_iff` says when that is right.
-/

namespace HybridMemory.Ptlsim.CacheController

open Transition Function
open NVMainMemory (MemoryRequest)

/-! ### The controller -/

/-- The size of `pendingRequests_`. -/
def poolSize : ℕ := 256

/-- `CacheQueueEntry` without its links: the request with the object that it is, and the flag
`CACHE_ACCESS_EVENT`. -/
structure CacheQueueEntry where
  pointer : ℕ
  request : MemoryRequest
  accessFlag : Bool := false
  annuled : Bool := false

/-- The data members that the dependencies of requests concern. In the links of the entries the
next one is `depends` and the previous one `waitFor`; `cacheAccess` lists the entries for which
`cache_access_cb` is scheduled. -/
structure State where
  pendingRequests : LinkedPool CacheQueueEntry
  cacheAccess : List ℕ

namespace State

def initial : State :=
  ⟨.reset poolSize ⟨0, { physicalAddress := 0, opType := .read }, false, false⟩, []⟩

/-- The entry in a slot. -/
def entry (s : State) (i : ℕ) : CacheQueueEntry := s.pendingRequests.objects i

/-- The slots in use, in the order of the list. -/
def used (s : State) : List ℕ := s.pendingRequests.used

def links (s : State) : Chains ℕ := s.pendingRequests.links

def setAccessFlag (s : State) (i : ℕ) (flag : Bool) : State :=
  { s with pendingRequests := s.pendingRequests.modify i fun e => { e with accessFlag := flag } }

/-- An access of the cache is scheduled. -/
def schedule (s : State) (i : ℕ) : State := { s with cacheAccess := s.cacheAccess ++ [i] }

end State

/-- `get_line_address` -/
def lineAddress (cacheLineBits : ℕ) (request : MemoryRequest) : ℕ :=
  request.physicalAddress >>> cacheLineBits

variable (s : State)

/-- `find_dependency`: the first pending entry of the line, other than that of the request
itself, and from there to the end of the chain. The outer `none` is a walk that does not end
within as many links as the pool has entries. -/
def State.findDependency (cacheLineBits pointer : ℕ) (request : MemoryRequest) :
    Option (Option ℕ) :=
  match s.used.find? fun i => ¬ ((s.entry i).pointer = pointer ∨ (s.entry i).annuled) ∧
      lineAddress cacheLineBits (s.entry i).request = lineAddress cacheLineBits request with
  | none => some none
  | some i => (s.links.last poolSize i).map some

/-- `cache_access_cb`; `port` is the answer of `get_port`. With a port the access goes on as a
hit or a miss, without one it is tried again. -/
def State.cacheAccessCb (i : ℕ) (port : Bool) : State :=
  if (s.entry i).annuled then s
  else if port then s.setAccessFlag i false
  else (s.setAccessFlag i true).schedule i

/-- `handle_upper_interconnect`. Twenty entries are kept free for other uses. -/
def State.handleUpperInterconnect (cacheLineBits pointer : ℕ)
    (request : MemoryRequest) (port : Bool) : Option State :=
  if poolSize - 20 ≤ s.used.length then some s
  else
    match s.pendingRequests.alloc ⟨pointer, request, true, false⟩ with
    | none => some s
    | some (i, pool) =>
      let s := { s with pendingRequests := pool }
      (s.findDependency cacheLineBits pointer request).map fun
        | some k => { s with pendingRequests := s.pendingRequests.link k i }
        | none => s.cacheAccessCb i port

/-- The entries that are not for requests from above: snoops and evictions from below, which
access the cache, and the messages that the controller sends. The source asserts that there is
a free one. -/
def State.newEntry (pointer : ℕ) (request : MemoryRequest) (accesses : Bool) : Option State :=
  (s.pendingRequests.alloc ⟨pointer, request, accesses, false⟩).map fun r =>
    let s := { s with pendingRequests := r.2 }
    if accesses then s.schedule r.1 else s

/-- `clear_entry_cb`; `otherFlags` says whether an event flag other than `CACHE_ACCESS_EVENT`
is set. -/
def State.clearEntryCb (i : ℕ) (otherFlags : Bool) : State :=
  if (s.entry i).annuled then s
  else if i ∉ s.used then s
  else if (s.entry i).accessFlag ∨ otherFlags then s
  else
    let s := match s.links.next i with
      | some j => State.schedule { s with
          pendingRequests := { s.pendingRequests with
            links := ⟨s.links.next, update s.links.prev j none⟩ } } j
      | none => s
    { s with pendingRequests := s.pendingRequests.free i }

/-- The body of the loop of `annul_request`. -/
def State.annulEntry (i : ℕ) : State :=
  let s := { s with
    pendingRequests := s.pendingRequests.modify i fun e => { e with annuled := true } }
  let s := match s.links.next i, s.links.prev i with
    | some j, some k => { s with
        pendingRequests := { s.pendingRequests with
          links := ⟨update s.links.next k (some j),
            update s.links.prev j (some k)⟩ } }
    | some j, none => State.schedule { s with
        pendingRequests := { s.pendingRequests with
          links := ⟨s.links.next, update s.links.prev j none⟩ } } j
    | none, some k => { s with
        pendingRequests := { s.pendingRequests with
          links := ⟨update s.links.next k none, s.links.prev⟩ } }
    | none, none => s
  { s with pendingRequests := s.pendingRequests.free i }

/-- `annul_request` -/
def State.annulRequest (request : MemoryRequest) : State :=
  (s.used.filter fun i => (s.entry i).request = request).foldl annulEntry s

inductive Action
  | upper (pointer : ℕ) (request : MemoryRequest) (port : Bool)
  | newEntry (pointer : ℕ) (request : MemoryRequest) (accesses : Bool)
  | access (n : ℕ) (port : Bool)
  | clear (i : ℕ) (otherFlags : Bool)
  | annul (request : MemoryRequest)

def step (cacheLineBits : ℕ) (s : State) : Action → Option State
  | .upper pointer request port => s.handleUpperInterconnect cacheLineBits pointer request port
  | .newEntry pointer request accesses => s.newEntry pointer request accesses
  | .access n port => s.cacheAccess[n]?.map fun i =>
      State.cacheAccessCb { s with cacheAccess := s.cacheAccess.eraseIdx n } i port
  | .clear i otherFlags => some (s.clearEntryCb i otherFlags)
  | .annul request => some (s.annulRequest request)

/-! ### Leaving a chain -/

/-- The entry leaves the chain and the pool, and the one behind it goes on if it now stands at
the head. -/
def State.remove (i : ℕ) : State where
  pendingRequests := s.pendingRequests.remove i
  cacheAccess := s.cacheAccess ++ if s.links.prev i = none then (s.links.next i).toList else []

/-- The entry is marked as annulled. -/
def State.mark (i : ℕ) : State :=
  { s with pendingRequests := s.pendingRequests.modify i fun e => { e with annuled := true } }

theorem State.annulEntry_eq (s : State) (i : ℕ) : s.annulEntry i = (s.remove i).mark i := by
  cases hnext : s.pendingRequests.links.next i <;> cases hprev : s.pendingRequests.links.prev i <;>
    simp [State.annulEntry, State.remove, State.mark, State.schedule, State.links, Chains.unlink,
      LinkedPool.modify, LinkedPool.free, LinkedPool.remove, hnext, hprev]

/-- An entry that nothing keeps is removed; it does not wait. -/
theorem State.clearEntryCb_eq {s : State} {i : ℕ} (hprev : s.links.prev i = none)
    (otherFlags : Bool) : s.clearEntryCb i otherFlags = s ∨
      s.clearEntryCb i otherFlags = s.remove i ∧ i ∈ s.used ∧ (s.entry i).accessFlag = false := by
  rw [State.clearEntryCb]
  by_cases hannuled : (s.entry i).annuled
  · exact Or.inl (if_pos hannuled)
  rw [if_neg hannuled]
  by_cases hused : i ∈ s.used
  swap
  · exact Or.inl (if_pos hused)
  rw [if_neg (not_not.mpr hused)]
  by_cases hflag : (s.entry i).accessFlag ∨ otherFlags
  · exact Or.inl (if_pos hflag)
  rw [if_neg hflag]
  refine Or.inr ⟨?_, hused, by simpa using (not_or.mp hflag).1⟩
  rw [State.links] at hprev
  cases hnext : s.pendingRequests.links.next i <;>
    simp [State.remove, State.schedule, State.links, LinkedPool.remove, LinkedPool.free,
      Chains.unlink, hnext, hprev]

/-! ### The invariant -/

/-- The pool and its links are well formed. An entry that waits has its flag, and an access is
scheduled only for an entry that does not wait, once. -/
structure State.Linked (s : State) : Prop where
  pool : s.pendingRequests.WellFormed poolSize
  waiting : ∀ i ∈ s.used, s.links.prev i ≠ none → (s.entry i).accessFlag
  scheduled : ∀ i ∈ s.cacheAccess, i ∈ s.used ∧ s.links.prev i = none ∧ (s.entry i).accessFlag
  nodup : s.cacheAccess.Nodup

variable {s} {t : State} {i j k n cacheLineBits pointer : ℕ} {request : MemoryRequest} {b : Bool}

theorem State.linked_initial : State.initial.Linked :=
  ⟨LinkedPool.wellFormed_reset, nofun, nofun, List.nodup_nil⟩

section Linked

variable (h : s.Linked)

include h

/-- An entry leaves that has no access scheduled. -/
theorem State.Linked.remove (hi : i ∈ s.used) (haccess : i ∉ s.cacheAccess) :
    (s.remove i).Linked := by
  have hmem (x : ℕ) : x ∈ (s.remove i).used ↔ x ∈ s.used ∧ x ≠ i := h.pool.mem_remove
  have hprev (x : ℕ) (hx : x ∈ s.used) := h.pool.links.prev_unlink hi hx
  have hold (x : ℕ) (hx : x ∈ s.cacheAccess) :
      x ∈ (s.remove i).used ∧ (s.remove i).links.prev x = none ∧ (s.entry x).accessFlag := by
    obtain ⟨hused, hnone, hflag⟩ := h.scheduled x hx
    refine ⟨(hmem x).mpr ⟨hused, fun heq => haccess (heq ▸ hx)⟩, ?_, hflag⟩
    rw [State.links] at hnone
    exact (hprev x hused).trans (by simp [hnone])
  have hnew (x : ℕ) (hx : x ∈ if s.links.prev i = none then (s.links.next i).toList else []) :
      x ∉ s.cacheAccess ∧ x ∈ (s.remove i).used ∧ (s.remove i).links.prev x = none ∧
        (s.entry x).accessFlag := by
    split_ifs at hx with hnone
    swap
    · contradiction
    obtain ⟨hused, hxprev, hlt⟩ := h.pool.links.next i hi x (Option.mem_toList.mp hx)
    refine ⟨fun hx' => ?_, (hmem x).mpr ⟨hused, ?_⟩, ?_, h.waiting x hused ?_⟩
    · exact absurd ((h.scheduled x hx').2.1.symm.trans hxprev) nofun
    · rintro rfl
      exact Nat.lt_irrefl _ hlt
    · exact (hprev x hused).trans (by rw [if_pos hxprev]; exact hnone)
    · rw [State.links, hxprev]
      exact nofun
  constructor
  · exact h.pool.remove hi
  · intro x hx hwait
    obtain ⟨hx, -⟩ := (hmem x).mp hx
    refine h.waiting x hx fun hnone => hwait ?_
    rw [State.links] at hnone
    exact (hprev x hx).trans (by simp [hnone])
  · intro x hx
    rcases List.mem_append.mp hx with hx | hx
    · exact hold x hx
    · exact (hnew x hx).2
  · refine List.nodup_append.mpr ⟨h.nodup, ?_, ?_⟩
    · split_ifs
      · cases s.links.next i <;> simp
      · exact List.nodup_nil
    · rintro x hx _ hx' rfl
      exact (hnew x hx').1 hx

/-- The object of one entry changes, in a way that keeps or does not concern its flag. -/
theorem State.Linked.modify {f : CacheQueueEntry → CacheQueueEntry}
    (hf : i ∈ s.used → (s.links.prev i ≠ none ∨ i ∈ s.cacheAccess) →
      (f (s.entry i)).accessFlag = (s.entry i).accessFlag) :
    State.Linked { s with pendingRequests := s.pendingRequests.modify i f } := by
  have hflag (x : ℕ) (hx : x ∈ s.used) (hcond : s.links.prev x ≠ none ∨ x ∈ s.cacheAccess) :
      ((s.pendingRequests.modify i f).objects x).accessFlag = (s.entry x).accessFlag := by
    by_cases hxi : x = i
    · subst hxi
      rw [LinkedPool.objects_modify_self]
      exact hf hx hcond
    · rw [LinkedPool.objects_modify_of_ne hxi]
      rfl
  refine ⟨h.pool.modify i f, fun x hx hwait => ?_, fun x hx => ?_, h.nodup⟩
  · exact (hflag x hx (Or.inl hwait)).trans (h.waiting x hx hwait)
  · obtain ⟨hused, hnone, hx'⟩ := h.scheduled x hx
    exact ⟨hused, hnone, (hflag x hused (Or.inr hx)).trans hx'⟩

theorem State.Linked.annulEntry (hi : i ∈ s.used) (haccess : i ∉ s.cacheAccess) :
    (s.annulEntry i).Linked := by
  rw [State.annulEntry_eq]
  exact (h.remove hi haccess).modify fun _ _ => rfl

/-- Entries are annulled in the order of the pool. None of them has an access scheduled, and none
is woken by another one. -/
theorem State.Linked.foldl_annulEntry {l : List ℕ} (hl : l.Sublist s.used)
    (hstale : ∀ i ∈ l, i ∉ s.cacheAccess ∧
      ∀ j ∈ l, s.links.prev i = some j → s.links.prev j ≠ none) :
    (l.foldl State.annulEntry s).Linked := by
  induction l generalizing s with
  | nil => exact h
  | cons a l ih =>
    have ha := hl.subset List.mem_cons_self
    have hused (x : ℕ) (hx : x ∈ l) : x ∈ s.used := hl.subset (List.mem_cons_of_mem a hx)
    have hlater := (List.pairwise_cons.mp (h.pool.sorted.sublist hl)).1
    have hprev (x : ℕ) (hx : x ∈ s.used) : (s.annulEntry a).links.prev x =
        if s.links.prev x = some a then s.links.prev a else s.links.prev x := by
      rw [State.annulEntry_eq]
      exact h.pool.links.prev_unlink ha hx
    refine ih (h.annulEntry ha (hstale a List.mem_cons_self).1) ?_ fun i hi => ?_
    · rw [State.annulEntry_eq]
      exact List.erase_cons_head a l ▸ hl.erase a
    obtain ⟨haccess, hbehind⟩ := hstale i (List.mem_cons_of_mem a hi)
    constructor
    · rw [State.annulEntry_eq]
      refine fun hmem => (List.mem_append.mp hmem).elim haccess fun hwoken => ?_
      split_ifs at hwoken with hhead
      · have hi' := (h.pool.links.next a ha i (Option.mem_toList.mp hwoken)).2.1
        exact hbehind a List.mem_cons_self hi' hhead
      · contradiction
    · intro j hj hij
      rw [hprev i (hused i hi)] at hij
      rw [hprev j (hused j hj)]
      split_ifs at hij with hia
      · -- the entry before `a` is older, and so not one of those that are left
        have hlt := (h.pool.links.next j (hused j hj) a (h.pool.links.prev a ha j hij).2).2.2
        exact absurd (hlater j hj) hlt.asymm
      · split_ifs with hja
        · exact (hstale j (List.mem_cons_of_mem a hj)).2 a List.mem_cons_self hja
        · exact hbehind j (List.mem_cons_of_mem a hj) hij

/-- An access is scheduled for an entry that does not wait. -/
theorem State.Linked.schedule (hi : i ∈ s.used) (hprev : s.links.prev i = none)
    (haccess : i ∉ s.cacheAccess) (hflag : (s.entry i).accessFlag) : (s.schedule i).Linked := by
  refine ⟨h.pool, h.waiting, fun x hx => ?_,
    List.nodup_append.mpr ⟨h.nodup, List.nodup_singleton _, ?_⟩⟩
  · rcases List.mem_append.mp hx with hx | hx
    · exact h.scheduled x hx
    · obtain rfl := List.mem_singleton.mp hx
      exact ⟨hi, hprev, hflag⟩
  · rintro x hx _ hx' rfl
    exact haccess (List.mem_singleton.mp hx' ▸ hx)

/-- The access of an entry that does not wait and has no other access scheduled. -/
theorem State.Linked.cacheAccessCb (hi : i ∈ s.used)
    (hprev : s.links.prev i = none) (haccess : i ∉ s.cacheAccess) (port : Bool) :
    (s.cacheAccessCb i port).Linked := by
  have hset (flag : Bool) : (s.setAccessFlag i flag).Linked :=
    h.modify fun _ hcond => absurd hcond (not_or.mpr ⟨not_not.mpr hprev, haccess⟩)
  have hflag : (s.setAccessFlag i true).entry i = { s.entry i with accessFlag := true } :=
    update_self ..
  rw [State.cacheAccessCb]
  split_ifs
  · exact h
  · exact hset false
  · exact (hset true).schedule hi hprev haccess (congrArg CacheQueueEntry.accessFlag hflag)

/-! ### New entries -/

/-- A new entry is in the pool; it has no links and nothing scheduled. -/
theorem State.Linked.alloc {e : CacheQueueEntry}
    {pool : LinkedPool CacheQueueEntry} (halloc : s.pendingRequests.alloc e = some (i, pool)) :
    State.Linked { s with pendingRequests := pool } ∧ i ∉ s.cacheAccess ∧
      LinkedPool.Allocated s.pendingRequests poolSize e i pool := by
  have hnew := h.pool.alloc halloc
  refine ⟨⟨hnew.wellFormed, fun x hx hwait => ?_, fun x hx => ?_, h.nodup⟩,
    fun hx => hnew.fresh (h.scheduled i hx).1, hnew⟩
  · rcases (hnew.mem_used x).mp hx with hx | rfl
    · exact (congrArg _ (hnew.object_of_mem x hx)).trans
        (h.waiting x hx fun hnone => hwait ((hnew.prev_of_mem x hx).trans hnone))
    · exact absurd hnew.prev_self hwait
  · obtain ⟨hused, hxprev, hflag⟩ := h.scheduled x hx
    exact ⟨(hnew.mem_used x).mpr (Or.inl hused), (hnew.prev_of_mem x hused).trans hxprev,
      (congrArg _ (hnew.object_of_mem x hused)).trans hflag⟩

/-- **`find_dependency`** ends, and what it finds is a pending entry without a dependent. -/
theorem State.Linked.findDependency (cacheLineBits pointer : ℕ) (request : MemoryRequest) :
    ∃ found, s.findDependency cacheLineBits pointer request = some found ∧
      ∀ k, found = some k → k ∈ s.used ∧ s.links.next k = none ∧
        ((s.entry k).pointer ≠ pointer ∨ s.links.prev k ≠ none) := by
  rw [State.findDependency]
  split
  · exact ⟨none, rfl, nofun⟩
  · rename_i i hfind
    have hi : i ∈ s.used := List.mem_of_find?_eq_some hfind
    have hpointer : (s.entry i).pointer ≠ pointer := by
      have hp := List.find?_some hfind
      exact (not_or.mp (of_decide_eq_true hp).1).1
    obtain ⟨k, hk, hlast, hnext⟩ := h.pool.exists_last hi
    refine ⟨some k, congrArg _ hlast, fun k' hk' => ?_⟩
    obtain rfl := Option.some.inj hk'
    refine ⟨hk, hnext, ?_⟩
    rcases h.pool.links.prev_last hi hlast with rfl | hprev
    · exact Or.inl hpointer
    · exact Or.inr hprev

theorem State.Linked.handleUpperInterconnect {port : Bool}
    (hstep : s.handleUpperInterconnect cacheLineBits pointer request port = some t) :
    t.Linked := by
  rw [State.handleUpperInterconnect] at hstep
  split_ifs at hstep
  · obtain rfl := Option.some.inj hstep
    exact h
  split at hstep
  · obtain rfl := Option.some.inj hstep
    exact h
  · rename_i i pool halloc
    obtain ⟨hlinked, haccess, hnew⟩ := h.alloc halloc
    have hmem : i ∈ pool.used := (hnew.mem_used i).mpr (Or.inr rfl)
    obtain ⟨found, hfound, rfl⟩ := Option.map_eq_some_iff.mp hstep
    obtain ⟨found', hfound', hk⟩ := hlinked.findDependency cacheLineBits pointer request
    obtain rfl := Option.some.inj (hfound.symm.trans hfound')
    cases found with
    | none => exact hlinked.cacheAccessCb hmem hnew.prev_self haccess port
    | some k =>
      obtain ⟨hused, hnext, hother⟩ := hk k rfl
      have hne : k ≠ i := by
        rintro rfl
        refine hother.elim (fun hne => hne ?_) fun hne => hne hnew.prev_self
        exact congrArg CacheQueueEntry.pointer hnew.object_self
      have hold : k ∈ s.used := ((hnew.mem_used k).mp hused).resolve_right hne
      have hprev (x : ℕ) (hx : x ≠ i) : (pool.link k i).links.prev x = pool.links.prev x :=
        update_of_ne hx ..
      -- the new entry waits, with its flag set
      refine ⟨hlinked.pool.link hused hmem hnext hnew.prev_self (hnew.serial_lt k hold),
        fun x hx hwait => ?_, fun x hx => ?_, hlinked.nodup⟩
      · by_cases hxi : x = i
        · subst hxi
          exact congrArg CacheQueueEntry.accessFlag hnew.object_self
        · exact hlinked.waiting x hx fun hnone => hwait ((hprev x hxi).trans hnone)
      · obtain ⟨hxused, hnone, hflag⟩ := hlinked.scheduled x hx
        exact ⟨hxused, (hprev x fun heq => haccess (heq ▸ hx)).trans hnone, hflag⟩

theorem State.Linked.newEntry (hstep : s.newEntry pointer request b = some t) : t.Linked := by
  obtain ⟨⟨i, pool⟩, halloc, rfl⟩ := Option.map_eq_some_iff.mp hstep
  obtain ⟨hlinked, haccess, hnew⟩ := h.alloc halloc
  cases b with
  | true =>
    exact hlinked.schedule ((hnew.mem_used i).mpr (Or.inr rfl)) hnew.prev_self haccess
      (congrArg CacheQueueEntry.accessFlag hnew.object_self)
  | false => exact hlinked

/-! ### Steps and runs -/

/-- A scheduled access takes place. -/
theorem State.Linked.access {port : Bool} (hn : s.cacheAccess[n]? = some i) :
    (State.cacheAccessCb { s with cacheAccess := s.cacheAccess.eraseIdx n } i port).Linked := by
  obtain ⟨hused, hprev, -⟩ := h.scheduled i (List.mem_of_getElem? hn)
  have hrest : State.Linked { s with cacheAccess := s.cacheAccess.eraseIdx n } :=
    ⟨h.pool, h.waiting, fun x hx => h.scheduled x (List.mem_of_mem_eraseIdx hx),
      h.nodup.eraseIdx n⟩
  refine hrest.cacheAccessCb hused hprev (fun hmem => ?_) port
  obtain ⟨m, hm, hget⟩ := List.mem_eraseIdx_iff_getElem?.mp hmem
  have hlt : m < s.cacheAccess.length := (List.getElem?_eq_some_iff.mp hget).1
  exact hm ((List.getElem?_inj hlt h.nodup).mp (hget.trans hn.symm))

/-- An entry whose flags are all zero does not wait. -/
theorem State.Linked.clearEntryCb (i : ℕ) (otherFlags : Bool) :
    (s.clearEntryCb i otherFlags).Linked := by
  by_cases hprev : s.links.prev i = none
  · rcases State.clearEntryCb_eq hprev otherFlags with heq | ⟨heq, hused, hflag⟩
    · rw [heq]
      exact h
    · rw [heq]
      refine h.remove hused fun haccess => ?_
      simp [(h.scheduled i haccess).2.2] at hflag
  · have hsame : s.clearEntryCb i otherFlags = s := by
      rw [State.clearEntryCb]
      by_cases hused : i ∈ s.used
      · simp [hused, h.waiting i hused hprev]
      · simp [hused]
    rw [hsame]
    exact h

/-- The entries of a request that is annulled have no access scheduled, and none of them waits
right behind the head of a chain that is annulled with it, and would be woken. -/
def NoStaleAccess (s : State) : Action → Prop
  | .annul request => ∀ i ∈ s.used, (s.entry i).request = request → i ∉ s.cacheAccess ∧
      ∀ j ∈ s.links.prev i, (s.entry j).request = request → s.links.prev j ≠ none
  | _ => True

instance (s : State) (a : Action) : Decidable (NoStaleAccess s a) := by
  cases a <;> unfold NoStaleAccess <;> infer_instance

theorem State.Linked.step {a : Action} (hstep : step cacheLineBits s a = some t)
    (hG : NoStaleAccess s a) : t.Linked := by
  cases a with
  | upper pointer request port => exact h.handleUpperInterconnect hstep
  | newEntry pointer request accesses => exact h.newEntry hstep
  | access n port =>
    obtain ⟨i, hn, rfl⟩ := Option.map_eq_some_iff.mp hstep
    exact h.access hn
  | clear i otherFlags =>
    obtain rfl := Option.some.inj hstep
    exact h.clearEntryCb i otherFlags
  | annul request =>
    obtain rfl := Option.some.inj hstep
    refine h.foldl_annulEntry List.filter_sublist fun i hi => ?_
    obtain ⟨hused, hrequest⟩ := List.mem_filter.mp hi
    obtain ⟨haccess, hbehind⟩ := hG i hused (of_decide_eq_true hrequest)
    exact ⟨haccess, fun j hj hprev =>
      hbehind j hprev (of_decide_eq_true (List.mem_filter.mp hj).2)⟩

end Linked

/-- **Chains of dependent requests.** In every run that leaves no access scheduled for an
annulled entry, the links of the pending entries agree with each other and stay among them,
they have no cycles, and `find_dependency` ends with a pending entry that has no dependent
yet. -/
theorem links_wellFormed {as : List Action}
    (hrun : Run (Guarded NoStaleAccess (Steps (step cacheLineBits))) State.initial as s) :
    (∀ i j, (i ∈ s.used ∧ s.links.next i = some j) ↔ (j ∈ s.used ∧ s.links.prev j = some i)) ∧
    (∀ i ∈ s.used, ¬ Relation.TransGen (fun x y => s.links.next x = some y) i i) ∧
    ∀ pointer request, ∃ found,
      s.findDependency cacheLineBits pointer request = some found ∧
        ∀ k, found = some k → k ∈ s.used ∧ s.links.next k = none := by
  have h : s.Linked :=
    hrun.invariant State.linked_initial fun _ _ _ h hstep => h.step hstep.2 hstep.1
  refine ⟨fun i j => ⟨fun hij => ?_, fun hij => h.pool.links.prev j hij.1 i hij.2⟩,
    fun i hi => h.pool.links.acyclic hi, fun pointer request => ?_⟩
  · obtain ⟨hj, hprev, -⟩ := h.pool.links.next i hij.1 j hij.2
    exact ⟨hj, hprev⟩
  · obtain ⟨found, hfound, hk⟩ := h.findDependency cacheLineBits pointer request
    exact ⟨found, hfound, fun k hk' => ⟨(hk k hk').1, (hk k hk').2.1⟩⟩

/-- A read by core 0. -/
def read (robId address : ℕ) : MemoryRequest := ⟨0, 0, robId, address, true, .read⟩

/-- Two reads of a line, the second of which is annulled. -/
theorem links_wellFormed_annul :
    ∃ s, Run (Guarded NoStaleAccess (Steps (step 6))) State.initial
        [.upper 0 (read 0 0) true, .upper 1 (read 1 0) true, .annul (read 1 0)] s ∧
      s.used = [0] ∧
      ∃ found, s.findDependency 6 2 (read 2 0) = some found ∧
        ∀ k, found = some k → k ∈ s.used ∧ s.links.next k = none := by
  refine exists_run_guarded_imp (fun s => s.used = [0]) (by decide +kernel)
    fun s hrun hused => ⟨hused, ?_⟩
  exact (links_wellFormed hrun).2.2 2 (read 2 0)

/-- A request that waits is annulled right after it was woken, and before its access takes
place all other free slots and then its own are handed out. -/
def staleAccess : List Action :=
  [.upper 0 (read 0 0) true, .upper 1 (read 1 0) true, .upper 2 (read 2 64) true] ++
    ((List.range 20).map fun k => .upper (3 + k) (read 3 (640 + 64 * k)) true) ++
    ((List.range 226).map fun k => .newEntry (23 + k) (read 4 64000) true) ++
    [.clear 0 false, .annul (read 1 0)] ++
    ((List.range 20).map fun k => .clear (3 + k) false) ++
    ((List.range 8).map fun k => .newEntry (249 + k) (read 5 64000) true) ++
    [.upper 257 (read 6 64) true, .access 226 true, .clear 1 false]

/-- The access that was scheduled for the annulled request comes to a request that waits for
entry 2. That request is cleared, and entry 2 still names it as its dependent. -/
theorem waiting_entry_cleared :
    ∃ s, Run (Steps (step 6)) State.initial staleAccess s ∧
      2 ∈ s.used ∧ s.links.next 2 = some 1 ∧ 1 ∉ s.used :=
  exists_run (by decide +kernel)

/-! ### Lines in use -/

/-- The tags of the controller are numbers. -/
instance : InvalidTag ℕ := ⟨(invalidTag : UInt64).toNat⟩

/-- `tagOf`: the first address of the line, `floor(address, LINE_SIZE)`. -/
def tagOf (cacheLineBits address : ℕ) : ℕ := (address >>> cacheLineBits) <<< cacheLineBits

/-- `is_line_in_use` -/
def State.isLineInUse (s : State) (cacheLineBits tag : ℕ) : Bool :=
  if tag = invalidTag then false
  else s.used.any fun i => lineAddress cacheLineBits (s.entry i).request = tag

/-- The tag that `complete_request` hands on for eviction when a line with the tag `oldTag` was
replaced. -/
def State.evictedTag (s : State) (cacheLineBits oldTag : ℕ) : ℕ :=
  if s.isLineInUse cacheLineBits oldTag then invalidTag else oldTag

/-- A pending request addresses the line with the given tag. -/
def State.Addressed (s : State) (cacheLineBits tag : ℕ) : Prop :=
  ∃ i ∈ s.used, tagOf cacheLineBits (s.entry i).request.physicalAddress = tag

theorem State.isLineInUse_iff {tag : ℕ} (htag : tag ≠ invalidTag) :
    s.isLineInUse cacheLineBits tag ↔
      ∃ i ∈ s.used, lineAddress cacheLineBits (s.entry i).request = tag := by
  rw [State.isLineInUse, if_neg htag]
  simp

/-- The tag of the line with the highest number among those that are addressed is higher than
all their numbers, unless lines are bytes or that number is zero. -/
theorem State.exists_addressed_not_inUse (hbits : cacheLineBits ≠ 0) (hi : i ∈ s.used)
    (hline : lineAddress cacheLineBits (s.entry i).request ≠ 0) :
    ∃ a, tagOf cacheLineBits a ≠ invalidTag ∧ s.Addressed cacheLineBits (tagOf cacheLineBits a) ∧
      ¬ s.isLineInUse cacheLineBits (tagOf cacheLineBits a) := by
  obtain ⟨k, hk, hmax⟩ := Finset.exists_max_image s.used.toFinset
    (fun x => lineAddress cacheLineBits (s.entry x).request) ⟨i, List.mem_toFinset.mpr hi⟩
  have hpos : 0 < lineAddress cacheLineBits (s.entry k).request :=
    (Nat.pos_of_ne_zero hline).trans_le (hmax i (List.mem_toFinset.mpr hi))
  obtain ⟨m, rfl⟩ : ∃ m, cacheLineBits = m + 1 := Nat.exists_eq_succ_of_ne_zero hbits
  have htag : tagOf (m + 1) (s.entry k).request.physicalAddress
      = lineAddress (m + 1) (s.entry k).request * 2 ^ m * 2 := by
    rw [tagOf, Nat.shiftLeft_eq, pow_succ, ← Nat.mul_assoc]
    rfl
  have hvalid : tagOf (m + 1) (s.entry k).request.physicalAddress ≠ invalidTag := by
    have hinvalid : (invalidTag : ℕ) = 2 ^ 64 - 1 := rfl
    omega
  refine ⟨_, hvalid, ⟨k, List.mem_toFinset.mp hk, rfl⟩, fun huse => ?_⟩
  obtain ⟨j, hj, hjline⟩ := (State.isLineInUse_iff hvalid).mp huse
  have hle := hmax j (List.mem_toFinset.mpr hj)
  have hgrow := Nat.le_mul_of_pos_right (lineAddress (m + 1) (s.entry k).request)
    (Nat.two_pow_pos m)
  omega

/-- With lines of one byte, and for line 0, the number of a line is its tag. -/
theorem State.isLineInUse_iff_addressed {a : ℕ}
    (h : cacheLineBits = 0 ∨ ∀ i ∈ s.used, lineAddress cacheLineBits (s.entry i).request = 0)
    (hvalid : tagOf cacheLineBits a ≠ invalidTag) :
    s.isLineInUse cacheLineBits (tagOf cacheLineBits a) ↔
      s.Addressed cacheLineBits (tagOf cacheLineBits a) := by
  rw [State.isLineInUse_iff hvalid, State.Addressed]
  refine exists_congr fun i => and_congr_right fun hi => ?_
  have hsame : tagOf cacheLineBits (s.entry i).request.physicalAddress
      = lineAddress cacheLineBits (s.entry i).request := by
    rcases h with rfl | h
    · simp [tagOf, lineAddress]
    · have hzero := h i hi
      rw [hzero, tagOf, show (s.entry i).request.physicalAddress >>> cacheLineBits = 0 from hzero,
        Nat.zero_shiftLeft]
  rw [hsame]

/-- **Lines in use.** `is_line_in_use` is right for all lines if and only if lines are single
bytes or all pending requests address line 0; and then `complete_request` never evicts a line
that a pending request addresses. -/
theorem line_in_use_iff (s : State) (cacheLineBits : ℕ) :
    ((∀ a, tagOf cacheLineBits a ≠ invalidTag →
        (s.isLineInUse cacheLineBits (tagOf cacheLineBits a) ↔
          s.Addressed cacheLineBits (tagOf cacheLineBits a))) ↔
      cacheLineBits = 0 ∨ ∀ i ∈ s.used, lineAddress cacheLineBits (s.entry i).request = 0) ∧
    ((cacheLineBits = 0 ∨ ∀ i ∈ s.used, lineAddress cacheLineBits (s.entry i).request = 0) →
      ∀ a, s.evictedTag cacheLineBits (tagOf cacheLineBits a) ≠ invalidTag →
        ¬ s.Addressed cacheLineBits (s.evictedTag cacheLineBits (tagOf cacheLineBits a))) := by
  refine ⟨⟨fun hexact => ?_, fun h a hvalid => State.isLineInUse_iff_addressed h hvalid⟩,
    fun h a hvalid => ?_⟩
  · by_contra hnot
    obtain ⟨hbits, hline⟩ := not_or.mp hnot
    push Not at hline
    obtain ⟨i, hi, hline⟩ := hline
    obtain ⟨a, hvalid, haddressed, hfree⟩ := State.exists_addressed_not_inUse hbits hi hline
    exact hfree ((hexact a hvalid).mpr haddressed)
  · rw [State.evictedTag] at hvalid ⊢
    split_ifs at hvalid ⊢ with huse
    · exact absurd rfl hvalid
    · rw [← State.isLineInUse_iff_addressed h hvalid]
      exact huse

/-- A read of the second line is pending; the line is replaced and handed on for eviction. -/
theorem addressed_line_evicted :
    ∃ s, Run (Steps (step 6)) State.initial [.upper 0 (read 0 64) true] s ∧
      s.Addressed 6 64 ∧ tagOf 6 64 = 64 ∧ s.evictedTag 6 64 = 64 := by
  refine exists_run_imp (fun s => 0 ∈ s.used ∧
    tagOf 6 (s.entry 0).request.physicalAddress = 64 ∧ s.evictedTag 6 64 = 64) (by decide +kernel)
    fun s _ hs => ⟨⟨0, hs.1, hs.2.1⟩, by decide, hs.2.2⟩

end HybridMemory.Ptlsim.CacheController

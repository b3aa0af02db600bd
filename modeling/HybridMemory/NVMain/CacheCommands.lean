import HybridMemory.NVMain.CacheBank

/-!
# The commands of the cache bank

`IssueCommand` serves a read or a write of the cache bank and schedules the response. A write
to a full set first makes room: the line in the last way is chosen, evicted and sent back in a
response of its own. Only then the code asks whether the line that is written is present. So a
write evicts a line from a full set even if it needs no room; and where it does not, the loop
of `Write` may still overwrite the line in the first way (`any_foldl_writeWay`).
`issueCommand_write_keeps_iff` says which of the writes to a line of the bank leave the lines
of the bank as they are.
-/

namespace HybridMemory.NVMain

open Transition

inductive CacheState
  | idle
  | busy
  deriving DecidableEq

inductive CacheOperation
  | none
  | read
  | write
  | fill
  | scrub
  | evict
  deriving DecidableEq

/-- The part of a request that the bank works on. `hit` is not set before the bank answers. -/
structure CacheRequest (D : Type) where
  optype : CacheOperation
  address : UInt64
  data : D
  hit : Option Bool

/-- The bank with its timers and the responses it has scheduled. -/
structure CacheUnit (D : Type) where
  bank : CacheBank D
  state : CacheState
  stateTimer : UInt64
  readTime : UInt64
  writeTime : UInt64
  responses : List (CacheRequest D × UInt64)

namespace CacheUnit

variable {D : Type}

/-- A new bank, with its times of one cycle. -/
def init (bank : CacheBank D) : CacheUnit D := ⟨bank, .idle, 0, 1, 1, []⟩

variable (u : CacheUnit D)

def isIssuable : Bool := u.state == .idle

/-- The bank is busy until `timer`. -/
def start (timer : UInt64) : CacheUnit D := { u with state := .busy, stateTimer := timer }

/-- Schedule a response at the end of the command. -/
def respond (req : CacheRequest D) : CacheUnit D :=
  { u with responses := u.responses ++ [(req, u.stateTimer)] }

/-- The first part of a write: a full set loses the line in its last way. -/
def makeRoom (addr : UInt64) : Option (CacheUnit D) :=
  if u.bank.setFull addr then
    (u.bank.chooseVictim addr).bind fun victim =>
      (u.bank.evict victim.1).map fun evicted =>
        { u with bank := evicted.1 }.respond ⟨.evict, victim.1, evicted.2.1, .none⟩
  else some u

/-- The second part of a write: the line is written or installed. -/
def store (req : CacheRequest D) : Option (CacheUnit D) :=
  if u.bank.present req.address then
    (u.bank.write req.address req.data).map fun bank =>
      { u with bank := bank }.respond { req with hit := some true }
  else
    some ({ u with bank := (u.bank.install req.address req.data).1 }.respond
      { req with hit := some false })

/-- `CACHE_READ`. -/
def load (req : CacheRequest D) : Option (CacheUnit D) :=
  if u.bank.present req.address then
    (u.bank.read req.address).map fun r =>
      { u with bank := r.1 }.respond { req with hit := some true, data := r.2.getD req.data }
  else some (u.respond { req with hit := some false })

/-- `IssueCommand` at a cycle. An operation that the bank does not know has no effect. -/
def issueCommand (now : UInt64) (req : CacheRequest D) : Option (CacheUnit D) :=
  if u.isIssuable then
    match req.optype with
    | .read => (u.start (now + u.readTime)).load req
    | .write => ((u.start (now + u.writeTime)).makeRoom req.address).bind fun u => u.store req
    | .none | .fill | .scrub | .evict => some u
  else none

/-- `RequestComplete`. -/
def requestComplete : CacheUnit D := { u with state := .idle }

/-- A command and its completion. -/
def step (u : CacheUnit D) (cmd : UInt64 × CacheRequest D) : Option (CacheUnit D) :=
  (u.issueCommand cmd.1 cmd.2).map requestComplete

/-- The lines that have been evicted. -/
def evictions : List (CacheRequest D × UInt64) :=
  u.responses.filter fun r => r.1.optype = .evict

end CacheUnit

/-! ### The lines after a write -/

section WriteLoop

open CacheBank

variable {D : Type} {a : UInt64} {l l' : List (CacheEntry D)}

theorem CacheEntry.holds_address {e : CacheEntry D} (h : e.holds a) : e.address = a := by
  simp only [holds, Bool.and_eq_true, beq_iff_eq] at h
  exact h.1

/-- Marking an entry as dirty does not touch its validity. -/
theorem CacheEntry.isValid_or_dirty (e : CacheEntry D) (data : D) :
    (⟨e.flags ||| cacheEntryDirty, e.address, data⟩ : CacheEntry D).isValid = e.isValid := by
  have hand : (e.flags ||| cacheEntryDirty) &&& cacheEntryValid = e.flags &&& cacheEntryValid := by
    apply UInt64.toBitVec_inj.mp
    simp [cacheEntryDirty, cacheEntryValid, BitVec.and_or_distrib_right]
  rw [isValid, isValid, hand]

/-- The entry of a line after it has been written. -/
theorem CacheEntry.holds_or_dirty (e : CacheEntry D) (d : D) (a' : UInt64) :
    (⟨e.flags ||| cacheEntryDirty, e.address, d⟩ : CacheEntry D).holds a' = e.holds a' := by
  rw [holds, holds, isValid_or_dirty]

/-- What the loop of `Write` has done to a set once it has passed the first `n` ways: the
other lines behind the first way are still there, and the first way has the line if one of
these ways had it. -/
structure Passed (a : UInt64) (l : List (CacheEntry D)) (n : ℕ) (l' : List (CacheEntry D)) :
    Prop where
  length_eq : l'.length = l.length
  rest : ∀ k, n ≤ k → l'[k]? = l[k]?
  behind : ∀ a' ≠ a, (l'.drop 1).any (·.holds a') = (l.drop 1).any (·.holds a')
  first : ∀ k < n, ∀ e, l[k]? = some e → e.holds a → ∃ e', l'[0]? = some e' ∧ e'.holds a

/-- One pass of the loop at a way that has the line. -/
theorem behind_shiftDown {i : ℕ} {e e' : CacheEntry D} (he : l[i]? = some e) (hholds : e.holds a)
    (hholds' : e'.holds a) {a' : UInt64} (hne : a' ≠ a) :
    (((Recency.shiftDown 1 i (l.set i e')).set 0 e').drop 1).any (·.holds a') =
      (l.drop 1).any (·.holds a') := by
  have hi : i < l.length := (List.getElem?_eq_some_iff.mp he).1
  have hnot : ∀ x : CacheEntry D, x.holds a → x.holds a' → False := fun x hx hx' =>
    hne ((CacheEntry.holds_address hx').symm.trans (CacheEntry.holds_address hx))
  rw [List.drop_set_of_lt (Nat.one_pos)]
  -- a line other than `a` is not in the way `i`, neither before nor after the write
  have hset : ∀ x : CacheEntry D, x.holds a' → (x ∈ (l.set i e').drop 1 ↔ x ∈ l.drop 1) := by
    intro x hx
    rw [Recency.mem_drop_iff_exists, Recency.mem_drop_iff_exists]
    refine exists_congr fun k => and_congr_right fun _ => ?_
    by_cases hk : i = k
    · subst hk
      rw [List.getElem?_set_self hi, he]
      constructor
      · intro h
        exact (hnot x (Option.some.inj h ▸ hholds') hx).elim
      · intro h
        exact (hnot x (Option.some.inj h ▸ hholds) hx).elim
    · rw [List.getElem?_set_ne hk]
  rw [Bool.eq_iff_iff, List.any_eq_true, List.any_eq_true]
  constructor
  · rintro ⟨x, hmem, hx⟩
    exact ⟨x, (hset x hx).mp (Recency.mem_drop_shiftDown hmem), hx⟩
  · rintro ⟨x, hmem, hx⟩
    have hlen : i < (l.set i e').length := by rwa [List.length_set]
    rcases Recency.mem_drop_shiftDown_of_mem hlen ((hset x hx).mpr hmem) with h | h
    · exact ⟨x, h, hx⟩
    · rw [List.getElem?_set_self hi] at h
      exact (hnot x (Option.some.inj h ▸ hholds') hx).elim

theorem Passed.writeWay {n : ℕ} (h : Passed a l n l') (hn : n < l.length) (d : D) :
    Passed a l (n + 1) (writeWay a d l' n) := by
  have hget : l'[n]? = some l[n] := (h.rest n le_rfl).trans (List.getElem?_eq_getElem hn)
  by_cases hholds : (l[n]).holds a
  · set e' : CacheEntry D := ⟨(l[n]).flags ||| cacheEntryDirty, (l[n]).address, d⟩ with he'
    have hholds' : e'.holds a := by rw [he', CacheEntry.holds_or_dirty]; exact hholds
    have hway : CacheBank.writeWay a d l' n =
        (Recency.shiftDown 1 n (l'.set n e')).set 0 e' := by
      simp only [CacheBank.writeWay, hget, hholds, if_true, he']
    have hpos : 0 < (Recency.shiftDown 1 n (l'.set n e')).length := by
      rw [Recency.length_shiftDown, List.length_set, h.length_eq]
      omega
    rw [hway]
    refine ⟨?_, fun k hk => ?_, fun a' ha' => ?_, fun _ _ _ _ _ => ⟨e', ?_, hholds'⟩⟩
    · rw [List.length_set, Recency.length_shiftDown, List.length_set, h.length_eq]
    · rw [List.getElem?_set_ne (by omega), Recency.getElem?_shiftDown_of_lt (by omega),
        List.getElem?_set_ne (by omega)]
      exact h.rest k (by omega)
    · exact (behind_shiftDown hget hholds hholds' ha').trans (h.behind a' ha')
    · exact List.getElem?_set_self hpos
  · have hway : CacheBank.writeWay a d l' n = l' := by
      simp only [CacheBank.writeWay, hget, hholds, if_false, Bool.false_eq_true]
    rw [hway]
    refine ⟨h.length_eq, fun k hk => h.rest k (by omega), h.behind, fun k hk e he hx => ?_⟩
    rcases Nat.lt_succ_iff_lt_or_eq.mp hk with hlt | rfl
    · exact h.first k hlt e he hx
    · rw [List.getElem?_eq_getElem hn] at he
      exact absurd (Option.some.inj he ▸ hx) hholds

theorem passed_foldl (a : UInt64) (d : D) (l : List (CacheEntry D)) :
    ∀ n ≤ l.length, Passed a l n ((List.range n).foldl (writeWay a d) l) := by
  intro n hn
  induction n with
  | zero => exact ⟨rfl, fun _ _ => rfl, fun _ _ => rfl, fun k hk => absurd hk (Nat.not_lt_zero k)⟩
  | succ n ih =>
    rw [List.range_succ, List.foldl_append]
    exact (ih (by omega)).writeWay (by omega) d

/-- **The lines of a set after a write** are the written one and those behind the first
way. -/
theorem any_foldl_writeWay (hpresent : l.any (·.holds a)) (d : D) (a' : UInt64) :
    ((List.range l.length).foldl (writeWay a d) l).any (·.holds a') =
      (decide (a' = a) || (l.drop 1).any (·.holds a')) := by
  have h := passed_foldl a d l l.length le_rfl
  obtain ⟨e, hmem, he⟩ := List.any_eq_true.mp hpresent
  obtain ⟨k, hk⟩ := List.mem_iff_getElem?.mp hmem
  obtain ⟨e', he', hholds'⟩ := h.first k (List.getElem?_eq_some_iff.mp hk).1 e hk he
  generalize (List.range l.length).foldl (writeWay a d) l = l' at h he'
  obtain ⟨x, rest, rfl⟩ := List.exists_cons_of_ne_nil (l := l') (by rintro rfl; simp at he')
  obtain rfl : x = e' := by simpa using he'
  by_cases ha : a' = a
  · subst ha
    simp [hholds']
  · have hbehind := h.behind a' ha
    have hfirst : x.holds a' = false := by
      rw [Bool.eq_false_iff]
      exact fun hx =>
        ha ((CacheEntry.holds_address hx).symm.trans (CacheEntry.holds_address hholds'))
    rw [← hbehind]
    simp [ha, hfirst]

end WriteLoop

/-! ### Commands -/

namespace CacheBank

variable {D : Type} {b b' : CacheBank D} {a : UInt64}

/-- Every set has as many ways as the bank has. -/
def Sized (b : CacheBank D) : Prop := ∀ i, (b.cacheEntry i).length = b.numAssoc

/-- The line in the first way is not lost when `a` is written: it is `a` itself, it is in
another way as well, or no lookup would find it in this set. -/
def FirstKept (b : CacheBank D) (a : UInt64) : Prop :=
  ∀ e, (b.findSet a)[0]? = some e → e.isValid → b.setID e.address = b.setID a →
    e.address = a ∨ ((b.findSet a).drop 1).any (·.holds e.address)

theorem findSet_putSet (b : CacheBank D) (a : UInt64) (set : List (CacheEntry D)) (a' : UInt64) :
    (b.putSet a set).findSet a' = if b.setID a' = b.setID a then set else b.findSet a' :=
  Function.update_apply _ _ _ _

theorem present_write (hsized : b.Sized) {d : D} (h : b.write a d = some b') (a' : UInt64) :
    b'.present a' = if b.setID a' = b.setID a then
        decide (a' = a) || ((b.findSet a).drop 1).any (·.holds a')
      else b.present a' := by
  unfold write at h
  split_ifs at h with hpresent
  obtain rfl := Option.some.inj h
  have hloop := any_foldl_writeWay hpresent d a'
  rw [show (b.findSet a).length = b.numAssoc from hsized _] at hloop
  rw [present, findSet_putSet]
  split_ifs
  · exact hloop
  · rfl

/-- **A write keeps the lines of the bank** if and only if it does not lose the one in the
first way. -/
theorem forall_present_write_iff (hsized : b.Sized) {d : D} (h : b.write a d = some b') :
    (∀ a', b'.present a' = b.present a') ↔ b.FirstKept a := by
  have hpresent : (b.findSet a).any (·.holds a) := by
    unfold write at h
    split_ifs at h with hpresent
    exact hpresent
  have hne : b.findSet a ≠ [] := fun hnil => by simp [hnil] at hpresent
  obtain ⟨e, rest, hcons⟩ := List.exists_cons_of_ne_nil hne
  -- the presence of a line of the set before the write
  have hbefore : ∀ a', b.setID a' = b.setID a →
      b.present a' = (e.holds a' || rest.any (·.holds a')) := by
    intro a' hset
    rw [present, findSet, hset, ← findSet, hcons, List.any_cons]
  constructor
  · intro hkeep e' he' hvalid hset
    obtain rfl : e = e' := by simpa [hcons] using he'
    have hline := hkeep e.address
    rw [present_write hsized h, if_pos hset, hbefore _ hset] at hline
    have hholds : e.holds e.address = true := by simp [CacheEntry.holds, hvalid]
    simpa [hholds, hcons] using hline
  · intro hfirst a'
    rw [present_write hsized h]
    split_ifs with hset
    · rw [hbefore a' hset, hcons, List.drop_succ_cons, List.drop_zero]
      by_cases ha : a' = a
      · subst ha
        simpa [hcons] using hpresent
      · simp only [ha, decide_false, Bool.false_or]
        cases hholds : e.holds a' with
        | false => rw [Bool.false_or]
        | true =>
          have haddr := CacheEntry.holds_address hholds
          have hvalid : e.isValid := by
            simp only [CacheEntry.holds, Bool.and_eq_true] at hholds
            exact hholds.2
          rcases hfirst e (by simp [hcons]) hvalid (haddr ▸ hset) with hself | hbehind
          · exact absurd (haddr.symm.trans hself) ha
          · simpa [hcons, haddr] using hbehind
    · rfl

end CacheBank

namespace CacheUnit

variable {D : Type}

@[simp] theorem evictions_start (u : CacheUnit D) (timer : UInt64) :
    (u.start timer).evictions = u.evictions := rfl

theorem evictions_respond (u : CacheUnit D) (req : CacheRequest D) :
    (u.respond req).evictions =
      u.evictions ++ if req.optype = .evict then [(req, u.stateTimer)] else [] := by
  simp only [evictions, respond, List.filter_append]
  split_ifs with hop <;> simp [hop]

/-- A line of the bank is written. -/
theorem write_of_store {u u' : CacheUnit D} {req : CacheRequest D}
    (hpresent : u.bank.present req.address) (h : u.store req = some u') :
    u.bank.write req.address req.data = some u'.bank := by
  rw [store, if_pos hpresent] at h
  obtain ⟨bank, hwrite, rfl⟩ := Option.map_eq_some_iff.mp h
  exact hwrite

/-- The second part of a write adds no eviction. -/
theorem evictions_store {u u' : CacheUnit D} {req : CacheRequest D} (hop : req.optype = .write)
    (h : u.store req = some u') : u'.evictions = u.evictions := by
  unfold store at h
  split_ifs at h
  · obtain ⟨bank, -, rfl⟩ := Option.map_eq_some_iff.mp h
    rw [evictions_respond, if_neg (by simp [hop]), List.append_nil]
    rfl
  · obtain rfl := Option.some.inj h
    rw [evictions_respond, if_neg (by simp [hop]), List.append_nil]
    rfl

/-- A full set loses a line. -/
theorem evictions_makeRoom {u u' : CacheUnit D} {addr : UInt64} (hfull : u.bank.setFull addr)
    (h : u.makeRoom addr = some u') : u'.evictions ≠ u.evictions := by
  rw [makeRoom, if_pos hfull] at h
  obtain ⟨victim, -, h⟩ := Option.bind_eq_some_iff.mp h
  obtain ⟨evicted, -, rfl⟩ := Option.map_eq_some_iff.mp h
  intro heq
  rw [evictions_respond, if_pos rfl] at heq
  have := congrArg List.length heq
  simp [evictions] at this

/-- **When a write leaves the lines of the bank as they are.** A write command to a line of
the bank evicts nothing and keeps every line if and only if the set is not full and the line
in its first way is not lost. -/
theorem issueCommand_write_keeps_iff {u u' : CacheUnit D} (hsized : u.bank.Sized) {now : UInt64}
    {req : CacheRequest D} (hop : req.optype = .write)
    (hpresent : u.bank.present req.address = true) (h : u.issueCommand now req = some u') :
    ((∀ a, u'.bank.present a = u.bank.present a) ∧ u'.evictions = u.evictions) ↔
      u.bank.setFull req.address = false ∧ u.bank.FirstKept req.address := by
  unfold issueCommand at h
  split_ifs at h
  rw [hop] at h
  obtain ⟨u₁, hroom, hstore⟩ := Option.bind_eq_some_iff.mp h
  cases hfull : u.bank.setFull req.address with
  | true =>
    refine iff_of_false (fun hkeep => ?_) (by simp)
    exact evictions_makeRoom (u := u.start _) hfull hroom
      ((evictions_store hop hstore).symm.trans hkeep.2)
  | false =>
    have hstart : u₁ = u.start (now + u.writeTime) := by
      unfold makeRoom at hroom
      rw [if_neg (by simpa [start] using hfull)] at hroom
      exact (Option.some.inj hroom).symm
    subst hstart
    have hwrite := write_of_store (u := u.start _) hpresent hstore
    have hevict := (evictions_store hop hstore).trans (evictions_start u _)
    rw [and_iff_left hevict, CacheBank.forall_present_write_iff hsized hwrite]
    exact (and_iff_right rfl).symm

/-- A command that writes to a line. -/
private def writeLine (address : UInt64) : UInt64 × CacheRequest ℕ :=
  (0, ⟨.write, address, 1, .none⟩)

/-- A bank with one set of three ways, two of them in use. -/
private def twoLines : CacheBank ℕ where
  numSets := 1
  numAssoc := 3
  cachelineSize := 64
  decodeFunc := CacheBank.defaultDecoder 1 64
  cacheEntry _ := [⟨1, 0, 5⟩, ⟨1, 64, 6⟩, ⟨0, 0, 0⟩]

/-- The line in the first way is written while there is room in its set. -/
theorem issueCommand_write_keeps_first :
    ∃ u', (init twoLines).issueCommand 0 (writeLine 0).2 = some u' ∧
      (∀ a, u'.bank.present a = twoLines.present a) ∧
      u'.evictions = (init twoLines).evictions := by
  obtain ⟨u', hu'⟩ : ∃ u', (init twoLines).issueCommand 0 (writeLine 0).2 = some u' :=
    Option.isSome_iff_exists.mp (by decide)
  have hfirst : twoLines.FirstKept 0 := by
    intro e he _ _
    exact Or.inl (Option.some.inj he ▸ rfl)
  have hsized : (init twoLines).bank.Sized := fun _ => rfl
  exact ⟨u', hu', (issueCommand_write_keeps_iff hsized rfl (by decide) hu').mpr
    ⟨by decide, hfirst⟩⟩

/-- Once three lines are in a set of three ways, a write to the first of them evicts the
last one. -/
theorem issueCommand_write_evicts_present :
    ∃ u u', Run (Steps step) (init (CacheBank.init 1 3 64 0 0))
        [writeLine 0, writeLine 64, writeLine 128] u ∧
      u.issueCommand 0 (writeLine 0).2 = some u' ∧ u.bank.present 0 = true ∧
      u.bank.present 128 = true ∧ u'.bank.present 128 = false ∧
      u.evictions.length < u'.evictions.length := by
  obtain ⟨u, hrun, hu⟩ := exists_run_of_any step (init (CacheBank.init 1 3 64 0 0))
    [writeLine 0, writeLine 64, writeLine 128]
    (fun u => u.bank.present 0 && u.bank.present 128 &&
      (u.issueCommand 0 (writeLine 0).2).any fun u' =>
        !u'.bank.present 128 && decide (u.evictions.length < u'.evictions.length))
    (by decide +kernel)
  simp only [Bool.and_eq_true, Option.any_eq_true, Bool.not_eq_true', decide_eq_true_eq] at hu
  obtain ⟨⟨h0, h128⟩, u', hu', hgone, hevict⟩ := hu
  exact ⟨u, u', hrun, hu', h0, h128, hgone, hevict⟩

end CacheUnit

end HybridMemory.NVMain

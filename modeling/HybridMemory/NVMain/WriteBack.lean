import HybridMemory.Lib.Transition
import HybridMemory.NVMain.SubArray

/-!
# Writing back

With `WRITE_BACK`, the writes to an open row are kept in `writeBackRequests`, and the precharge
that closes the row hands them to the data encoder and to `UpdateEndurance`. The test whether
to keep a write is the flag `writeCycle`, which the write itself sets at its end. So the first
write after an activation is not kept, and it never gets to the encoder. Nor does a precharge
that an earlier read or write implies look at the list.

A run of a subarray is any interleaving of commands that `IsIssuable` accepts, of completions and
of time passing. Beside it goes the history of the writes: those accepted, those handed to the
encoder, and those whose row was closed.

* `forall_deliversOnce_iff`: with `WRITE_BACK`, every write of a closed row was handed over exactly
  once, in every state of a run, if and only if no row is ever closed that was written.
-/

namespace HybridMemory.NVMain.CommandPath

open Transition

variable {n m : ℕ}

namespace SubArray

/-- The requests that a command hands to the data encoder and to `UpdateEndurance`. -/
def encodes (p : Params) (r : NVMainRequest n m) (a : SubArray n m) : List (NVMainRequest n m) :=
  match r.type with
  | .write | .writePrecharge => if p.writeMode = .writeThrough then [r.copy] else []
  | .precharge | .prechargeAll => if a.writesBack p then a.writeBackRequests else []
  | _ => []

/-- The flag that the open row was written, and the writes that are kept. -/
def buffer (a : SubArray n m) : Bool × List (NVMainRequest n m) :=
  (a.writeCycle, a.writeBackRequests)

/-- What an accepted command makes of the flag and of the writes that are kept. -/
def bufferAfter (p : Params) (r : NVMainRequest n m) (a : SubArray n m) :
    Bool × List (NVMainRequest n m) :=
  match r.type with
  | .activate => (false, a.writeBackRequests)
  | .write | .writePrecharge =>
    (true, if a.writesBack p then a.writeBackRequests ++ [r.copy] else a.writeBackRequests)
  | .precharge | .prechargeAll =>
    (a.writeCycle, if a.writesBack p then [] else a.writeBackRequests)
  | _ => a.buffer

variable {p : Params} {now : ℕ} {self : NVMObject n m} {r : NVMainRequest n m}
  {a : SubArray n m} {reply : Reply n m (SubArray n m)}

@[simp] theorem writeCycle_checkWritePausing :
    (a.checkWritePausing p now).writeCycle = a.writeCycle := by
  unfold checkWritePausing
  split
  · rfl
  · split <;> rfl

@[simp] theorem writeBackRequests_checkWritePausing :
    (a.checkWritePausing p now).writeBackRequests = a.writeBackRequests := by
  unfold checkWritePausing
  split
  · rfl
  · split <;> rfl

theorem buffer_written (cellDelay : ℕ) (starts : List ℕ) :
    (a.written p now self r cellDelay starts).buffer =
      (true, if a.writesBack p then a.writeBackRequests ++ [r.copy] else a.writeBackRequests) := by
  by_cases hback : p.writeMode = .writeBack ∧ a.writeCycle = true
  · rw [if_pos (show a.writesBack p from hback)]
    simp [buffer, written, hback, NVMainRequest.copy]
  · rw [if_neg (show ¬ a.writesBack p from hback)]
    simp only [buffer, written, hback, if_false]

theorem buffer_activate : (a.activate p now self r).object.buffer =
    if (a.activate p now self r).rv then (false, a.writeBackRequests) else a.buffer := by
  dsimp only [activate]
  split_ifs <;> simp_all [Reply.accept, Reply.reject, buffer, activated]

theorem buffer_read : (a.read p now self r).object.buffer = a.buffer := by
  dsimp only [read]
  split_ifs <;> simp [Reply.accept, Reply.reject, buffer, readOut]

theorem buffer_write (h : a.write p now self r = some reply) :
    reply.object.buffer = if reply.rv then
      (true, if a.writesBack p then a.writeBackRequests ++ [r.copy] else a.writeBackRequests)
      else a.buffer := by
  unfold write at h
  split_ifs at h
  · cases h
    rfl
  · cases h
    rfl
  · cases h
    rfl
  · obtain ⟨cells, -, rfl⟩ := Option.map_eq_some_iff.mp h
    exact buffer_written cells.1 cells.2

theorem buffer_precharge (h : a.precharge p now self r = some reply) :
    reply.object.buffer = if reply.rv then
      (a.writeCycle, if a.writesBack p then [] else a.writeBackRequests) else a.buffer := by
  unfold precharge at h
  split_ifs at h with _ _ hback
  · cases h
    rfl
  · cases h
    rfl
  · obtain ⟨cells, -, rfl⟩ := Option.map_eq_some_iff.mp h
    rw [if_pos hback]
    rfl
  · cases h
    rw [if_neg hback]
    rfl

theorem buffer_refresh : (a.refresh p now self r).object.buffer = a.buffer := by
  unfold refresh
  split_ifs <;> rfl

/-- What `IssueCommand` makes of the flag and of the writes that are kept. -/
theorem buffer_issueCommand (h : a.issueCommand p now self r = some reply) :
    reply.object.buffer = if reply.rv then a.bufferAfter p r else a.buffer := by
  unfold issueCommand at h
  split at h
  swap
  · cases h
    rfl
  rcases htype : r.type <;> simp only [htype, bufferAfter] at h ⊢
  case activate =>
    cases h
    exact buffer_activate
  case read | readPrecharge =>
    cases h
    rw [buffer_read, ite_self]
  case write | writePrecharge => exact buffer_write h
  case precharge | prechargeAll => exact buffer_precharge h
  case refresh =>
    cases h
    rw [buffer_refresh, ite_self]
  all_goals
    cases h
    rfl

/-- A command that is issuable is accepted, if it returns. -/
theorem accepts_of_isIssuable (ha : a.Restorable) (hi : a.isIssuable p now r)
    (h : a.issueCommand p now self r = some reply) :
    reply.rv = true ∧ reply.object.Restorable := by
  by_cases hr : r.type.reachesSubArray = true
  · rcases issueCommand_cases self ha hr hi with ⟨⟨a', heq, hrest, -⟩, -⟩ | ⟨hnone, -⟩
    · obtain rfl := Option.some.inj (heq.symm.trans h)
      exact ⟨rfl, hrest⟩
    · exact absurd (hnone.symm.trans h) (Option.some_ne_none _).symm
  · rw [issueCommand, if_pos hi] at h
    rcases htype : r.type <;> simp only [htype, OpType.reachesSubArray, not_true] at hr <;>
      simp only [htype] at h <;> cases h <;> exact ⟨rfl, ha⟩

theorem buffer_requestComplete (p : Params) (now : ℕ) (self : NVMObject n m)
    (r : NVMainRequest n m) (a : SubArray n m) :
    (a.requestComplete p now self r).1.buffer = a.buffer := by
  unfold requestComplete
  split <;> split <;> first | rfl | (split <;> rfl)

end SubArray

/-! ### Histories of writes -/

/-- What has become of the writes to a subarray. A request that is kept is a copy, so the copies
stand for the writes. -/
structure WriteHistory (n m : ℕ) where
  /-- The writes that were accepted. -/
  accepted : List (NVMainRequest n m) := []
  /-- The requests handed to the data encoder and to `UpdateEndurance`. -/
  encoded : List (NVMainRequest n m) := []
  /-- The writes whose row was closed. -/
  closed : List (NVMainRequest n m) := []

namespace WriteHistory

/-- The open row is closed, and with it all writes so far. -/
def closeRow (h : WriteHistory n m) : WriteHistory n m := { h with closed := h.accepted }

/-- The history after the subarray has accepted a command. -/
def accept (p : Params) (r : NVMainRequest n m) (a : SubArray n m) (h : WriteHistory n m) :
    WriteHistory n m :=
  let h := { h with encoded := h.encoded ++ a.encodes p r }
  match r.type with
  | .write | .writePrecharge => { h with accepted := h.accepted ++ [r.copy] }
  -- without `UsePrecharge`, an activation closes the row that is open
  | .activate => h.closeRow
  | _ => h

/-- Every write of a closed row has been handed over, and nothing has been handed over more often
than it was written. -/
def DeliversOnce (h : WriteHistory n m) : Prop :=
  h.closed.Subperm h.encoded ∧ h.encoded.Subperm h.accepted

end WriteHistory

/-- A subarray, the current cycle of the event queue, and the history of the writes. -/
structure SubArraySystem (n m : ℕ) where
  now : ℕ := 0
  array : SubArray n m := {}
  history : WriteHistory n m := {}

/-- What can happen to a subarray. -/
inductive SubArrayAction (n m : ℕ)
  /-- The bank calls `IssueCommand`. -/
  | issue (r : NVMainRequest n m)
  /-- The event queue delivers the event at a position. -/
  | complete (i : ℕ)
  /-- Time passes. -/
  | advance (cycles : ℕ)

namespace SubArraySystem

/-- One step of the subarray `o`; none if the action is not possible, or the program does not
return from it. -/
def step (p : Params) (o : NVMObject n m) (s : SubArraySystem n m) :
    SubArrayAction n m → Option (SubArraySystem n m)
  | .issue r =>
    if s.array.isIssuable p s.now r then
      (s.array.issueCommand p s.now o r).map fun reply =>
        { s with
          array := reply.object
          history := if reply.rv then s.history.accept p r s.array else s.history }
    else none
  | .complete i =>
    match s.array.responses[i]? with
    | some e =>
      if e.cycle ≤ s.now then
        let array := { s.array with responses := s.array.responses.eraseIdx i }
        some { s with
          array := (array.requestComplete p s.now o e.request).1
          history := if e.closes o then s.history.closeRow else s.history }
      else none
    | none => none
  | .advance cycles =>
    if ∀ e ∈ s.array.responses, s.now + cycles ≤ e.cycle then
      some { s with now := s.now + cycles }
    else none

variable {p : Params} {o : NVMObject n m} {s t : SubArraySystem n m} {r : NVMainRequest n m}

theorem step_issue_eq_some : step p o s (.issue r) = some t ↔
    s.array.isIssuable p s.now r ∧ ∃ reply, s.array.issueCommand p s.now o r = some reply ∧
      { s with
        array := reply.object
        history := if reply.rv then s.history.accept p r s.array else s.history } = t :=
  Option.ite_none_right_eq_some.trans (and_congr_right fun _ => Option.map_eq_some_iff)

theorem step_complete_eq_some {i : ℕ} : step p o s (.complete i) = some t ↔
    ∃ e, s.array.responses[i]? = some e ∧ e.cycle ≤ s.now ∧
      { s with
        array := (SubArray.requestComplete p s.now o e.request
          { s.array with responses := s.array.responses.eraseIdx i }).1
        history := if e.closes o then s.history.closeRow else s.history } = t := by
  simp only [step]
  split
  next e he =>
    simp only [he, Option.some.injEq, exists_eq_left']
    exact Option.ite_none_right_eq_some.trans (and_congr_right fun _ => Option.some_inj)
  next he => simp [he]

theorem step_advance_eq_some {cycles : ℕ} : step p o s (.advance cycles) = some t ↔
    (∀ e ∈ s.array.responses, s.now + cycles ≤ e.cycle) ∧ { s with now := s.now + cycles } = t :=
  Option.ite_none_right_eq_some.trans (and_congr_right fun _ => Option.some_inj)

/-- The action closes the open row: an activation, or the end of a precharge or a refresh. -/
def closesRow (o : NVMObject n m) (s : SubArraySystem n m) : SubArrayAction n m → Bool
  | .issue r => decide (r.type = .activate)
  | .complete i => (s.array.responses[i]?).any (Response.closes o)
  | .advance _ => false

/-- An action that closes the open row finds it unwritten. -/
def ClosesUnwritten (o : NVMObject n m) (s : SubArraySystem n m) (a : SubArrayAction n m) :
    Prop :=
  s.closesRow o a → s.array.writeCycle = false

instance (o : NVMObject n m) (s : SubArraySystem n m) (a : SubArrayAction n m) :
    Decidable (s.ClosesUnwritten o a) :=
  inferInstanceAs (Decidable (_ → _))

/-! ### The first write is missing -/

/-- The invariant while no written row was closed: once the open row is written, its first write
is neither kept nor handed over. -/
structure Missing (s : SubArraySystem n m) : Prop where
  restorable : s.array.Restorable
  closed : s.history.closed = []
  unwritten : s.array.writeCycle = false →
    s.history.accepted = [] ∧ s.history.encoded = [] ∧ s.array.writeBackRequests = []
  written : s.array.writeCycle = true → ∃ w,
    (w :: (s.history.encoded ++ s.array.writeBackRequests)).Perm s.history.accepted

theorem Missing.deliversOnce (hs : s.Missing) : s.history.DeliversOnce := by
  refine ⟨hs.closed ▸ List.nil_subperm, ?_⟩
  cases hcycle : s.array.writeCycle with
  | false => exact (hs.unwritten hcycle).2.1 ▸ List.nil_subperm
  | true =>
    obtain ⟨w, hperm⟩ := hs.written hcycle
    exact ((List.sublist_append_left _ _).cons w).subperm.trans hperm.subperm

/-- If all writes had been handed over, none would be missing. -/
theorem Missing.not_subperm (hs : s.Missing) (hcycle : s.array.writeCycle = true) :
    ¬ s.history.accepted.Subperm s.history.encoded := fun h => by
  obtain ⟨w, hperm⟩ := hs.written hcycle
  have hle := h.length_le
  rw [← hperm.length_eq, List.length_cons, List.length_append] at hle
  omega

theorem missing_init : ({} : SubArraySystem n m).Missing :=
  ⟨le_refl _, rfl, fun _ => ⟨rfl, rfl, rfl⟩, fun h => by simp at h⟩

/-- A write is added to those of the open row: to the kept ones, but for the first. -/
theorem Missing.write {a' : SubArray n m} (hp : p.writeMode = .writeBack) (hs : s.Missing)
    (hrest : a'.Restorable) (hcycle : a'.writeCycle = true)
    (hback : a'.writeBackRequests = if s.array.writesBack p then
      s.array.writeBackRequests ++ [r.copy] else s.array.writeBackRequests) :
    ({ s with
      array := a'
      history := { s.history with accepted := s.history.accepted ++ [r.copy] } } :
      SubArraySystem n m).Missing := by
  refine ⟨hrest, hs.closed, fun h => by simp [hcycle] at h, fun _ => ?_⟩
  dsimp only
  rw [hback]
  cases hwritten : s.array.writeCycle with
  | false =>
    obtain ⟨haccepted, hencoded, hkept⟩ := hs.unwritten hwritten
    exact ⟨r.copy, by simp [SubArray.writesBack, hwritten, haccepted, hencoded, hkept]⟩
  | true =>
    obtain ⟨w, hperm⟩ := hs.written hwritten
    refine ⟨w, ?_⟩
    rw [if_pos ⟨hp, hwritten⟩, ← List.append_assoc, ← List.cons_append]
    exact hperm.append_right [r.copy]

/-- A precharge hands over the writes that are kept. -/
theorem Missing.precharge {a' : SubArray n m} (hp : p.writeMode = .writeBack) (hs : s.Missing)
    (hrest : a'.Restorable) (hcycle : a'.writeCycle = s.array.writeCycle)
    (hback : a'.writeBackRequests =
      if s.array.writesBack p then [] else s.array.writeBackRequests) :
    ({ s with
      array := a'
      history := { s.history with
        encoded := s.history.encoded ++
          if s.array.writesBack p then s.array.writeBackRequests else [] } } :
      SubArraySystem n m).Missing := by
  refine ⟨hrest, hs.closed, fun h => ?_, fun h => ?_⟩
  · dsimp only at h ⊢
    rw [hcycle] at h
    simpa [hback, SubArray.writesBack, h] using hs.unwritten h
  · dsimp only at h ⊢
    rw [hcycle] at h
    simpa [hback, SubArray.writesBack, h, hp] using hs.written h

/-- An accepted command keeps the invariant, unless it closes a row that was written. -/
theorem Missing.accept {a' : SubArray n m} (hp : p.writeMode = .writeBack) (hs : s.Missing)
    (hrest : a'.Restorable) (hbuffer : a'.buffer = s.array.bufferAfter p r)
    (hr : r.type = .activate → s.array.writeCycle = false) :
    ({ s with array := a', history := s.history.accept p r s.array } :
      SubArraySystem n m).Missing := by
  obtain ⟨hcycle, hback⟩ := Prod.ext_iff.mp hbuffer
  rcases htype : r.type <;>
    simp only [SubArray.bufferAfter, SubArray.buffer, htype] at hcycle hback <;>
    simp only [WriteHistory.accept, SubArray.encodes, htype, hp, reduceCtorEq, if_false,
      List.append_nil]
  case activate =>
    obtain ⟨haccepted, hencoded, hkept⟩ := hs.unwritten (hr htype)
    exact ⟨hrest, haccepted, fun _ => ⟨haccepted, hencoded, hback.trans hkept⟩,
      fun h => by simp [hcycle] at h⟩
  case write | writePrecharge => exact hs.write hp hrest hcycle hback
  case precharge | prechargeAll => exact hs.precharge hp hrest hcycle hback
  all_goals exact ⟨hrest, hs.closed, by simpa [hcycle, hback] using hs.unwritten,
    by simpa [hcycle, hback] using hs.written⟩

/-- A step keeps the invariant, unless it closes a row that was written. -/
theorem missing_step {a : SubArrayAction n m} (hp : p.writeMode = .writeBack) (hs : s.Missing)
    (h : step p o s a = some t) (hG : s.ClosesUnwritten o a) : t.Missing := by
  cases a with
  | issue r =>
    obtain ⟨hi, reply, hreply, rfl⟩ := step_issue_eq_some.mp h
    obtain ⟨hrv, hrest⟩ := SubArray.accepts_of_isIssuable hs.restorable hi hreply
    have hbuffer := SubArray.buffer_issueCommand hreply
    rw [if_pos hrv] at hbuffer ⊢
    exact hs.accept hp hrest hbuffer fun hr => hG (by simp [closesRow, hr])
  | complete i =>
    obtain ⟨e, he, -, rfl⟩ := step_complete_eq_some.mp h
    obtain ⟨hcycle, hback⟩ := Prod.ext_iff.mp (SubArray.buffer_requestComplete p s.now o
      e.request { s.array with responses := s.array.responses.eraseIdx i })
    have hrest := SubArray.restorable_requestComplete p s.now o e.request
      (a := { s.array with responses := s.array.responses.eraseIdx i }) hs.restorable
    dsimp only [SubArray.buffer] at hcycle hback
    split_ifs with hcloses
    · have hunwritten := hG (by simpa [closesRow, he] using hcloses)
      obtain ⟨haccepted, hencoded, hkept⟩ := hs.unwritten hunwritten
      exact ⟨hrest, haccepted, fun _ => ⟨haccepted, hencoded, hback.trans hkept⟩,
        fun h => absurd (hcycle.symm.trans h) (by simp [hunwritten])⟩
    · exact ⟨hrest, hs.closed, by simpa only [hcycle, hback] using hs.unwritten,
        by simpa only [hcycle, hback] using hs.written⟩
  | advance cycles =>
    obtain ⟨-, rfl⟩ := step_advance_eq_some.mp h
    exact ⟨hs.restorable, hs.closed, hs.unwritten, hs.written⟩

/-- A step that closes a row that was written leaves its first write behind. -/
theorem not_deliversOnce_step {a : SubArrayAction n m} (hs : s.Missing)
    (h : step p o s a = some t) (hG : ¬ s.ClosesUnwritten o a) : ¬ t.history.DeliversOnce := by
  obtain ⟨hcloses, hcycle⟩ := Classical.not_imp.mp hG
  have hcycle : s.array.writeCycle = true := by simpa using hcycle
  cases a with
  | issue r =>
    have hr : r.type = .activate := of_decide_eq_true hcloses
    obtain ⟨hi, reply, hreply, rfl⟩ := step_issue_eq_some.mp h
    rw [if_pos (SubArray.accepts_of_isIssuable hs.restorable hi hreply).1]
    rintro ⟨hclosed, -⟩
    simp only [WriteHistory.accept, WriteHistory.closeRow, SubArray.encodes, hr,
      List.append_nil] at hclosed
    exact hs.not_subperm hcycle hclosed
  | complete i =>
    obtain ⟨e, he, -, rfl⟩ := step_complete_eq_some.mp h
    rw [if_pos (by simpa [closesRow, he] using hcloses)]
    rintro ⟨hclosed, -⟩
    exact hs.not_subperm hcycle hclosed
  | advance cycles => simp [closesRow] at hcloses

/-- With `WRITE_BACK`, every write of a closed row is handed to the data encoder and to
`UpdateEndurance` exactly once, in every state of a run, if and only if the run closes no row
that was written since its activation. -/
theorem forall_deliversOnce_iff {actions : List (SubArrayAction n m)}
    (hp : p.writeMode = .writeBack) (hrun : Run (Steps (step p o)) {} actions s) :
    (∀ u, Visits (Steps (step p o)) {} actions u → u.history.DeliversOnce) ↔
      Run (Guarded (ClosesUnwritten o) (Steps (step p o))) {} actions s :=
  forall_visits_iff (I := Missing) (P := fun u : SubArraySystem n m => u.history.DeliversOnce)
    (fun _ hs => hs.deliversOnce) (fun _ _ _ hs h hG => missing_step hp hs h hG)
    (fun _ _ _ hs h hG => not_deliversOnce_step hs h hG) missing_init hrun

/-- The default parameters, with writes kept until the precharge. -/
def writeBackParams : Params := { Params.defaults with writeMode := .writeBack }

/-- A command to a subarray. -/
def rowCommand (type : OpType) : NVMainRequest 1 1 :=
  { id := some 0, type := type, bank := Fin.last 0, subarray := Fin.last 0 }

/-- One row is opened and closed unwritten, the next one is opened and written. -/
def writeActions : List (SubArrayAction 1 1) :=
  [.issue (rowCommand .activate), .advance 24, .complete 0, .issue (rowCommand .precharge),
    .advance 9, .complete 0, .issue (rowCommand .activate), .advance 9, .issue (rowCommand .write),
    .advance 7, .complete 1, .advance 4, .complete 1]

/-- Nothing is to be handed over as long as the written row stays open. -/
theorem forall_deliversOnce_open_row : ∃ s : SubArraySystem 1 1,
    Run (Steps (step writeBackParams (.subArray 0 0))) {} writeActions s ∧
    s.history.accepted = [(rowCommand .write).copy] ∧
    ∀ u, Visits (Steps (step writeBackParams (.subArray 0 0))) {} writeActions u →
      u.history.DeliversOnce := by
  obtain ⟨s, hrun, haccepted⟩ : ∃ s, Run (Guarded (ClosesUnwritten (.subArray 0 0))
      (Steps (step writeBackParams (.subArray 0 0)))) {} writeActions s ∧
      s.history.accepted = [(rowCommand .write).copy] :=
    exists_run_guarded_imp (fun s => s.history.accepted = [(rowCommand .write).copy])
      (by decide +kernel) fun _ _ => id
  exact ⟨s, hrun.of_guarded, haccepted, (forall_deliversOnce_iff rfl hrun.of_guarded).mpr hrun⟩

/-- An activation, one write and a precharge: the row is closed, and the data encoder has seen
nothing. -/
theorem write_not_encoded : ∃ s : SubArraySystem 1 1,
    Run (Steps (step writeBackParams (.subArray 0 0))) {}
      [.issue (rowCommand .activate), .advance 9, .issue (rowCommand .write), .advance 7,
        .complete 1, .advance 4, .complete 1, .advance 4, .complete 0, .advance 6,
        .issue (rowCommand .precharge), .advance 9, .complete 0] s ∧
    s.array.state = .closed ∧ s.history.closed = [(rowCommand .write).copy] ∧
    s.history.encoded = [] ∧ s.array.writeBackRequests = [] :=
  exists_run (by decide +kernel)

end SubArraySystem

end HybridMemory.NVMain.CommandPath

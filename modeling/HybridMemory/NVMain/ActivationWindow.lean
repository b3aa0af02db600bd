import HybridMemory.Lib.RingBuffer
import HybridMemory.NVMain.CommandPath

/-!
# The windows of activations of a rank

An `ACTIVATE` or a `REFRESH` draws current for several cycles, so a rank spaces them: each is
at least `tRRDR` cycles after the last one, and at least `tRAW` cycles after the one that is
`raw` activations back. The rank keeps only the cycles of the last `raw` activations, in the
ring `lastActivate`. Here a rank is run together with the whole history of its activations.

* `Recorded.inv_step`: along a run, the ring remembers the newest entries of the history;
* `Recorded.activations_spaced`: in every run that issues only what `IsIssuable` accepts, the
  history is spaced as above, and no window of `tRAW` cycles has more than `raw` activations.
-/

namespace HybridMemory.NVMain.CommandPath

open Transition RingBuffer

variable {n m : ℕ}

/-- The commands that a rank counts as activations. -/
def OpType.activates : OpType → Bool
  | activate | refresh => true
  | _ => false

namespace StandardRank

variable {p : Params} {now : ℕ} {r : NVMainRequest n m} {k : StandardRank n m}
  {reply : Reply n m (StandardRank n m)}

/-- The members of a rank that space its activations. -/
def spacing (k : StandardRank n m) : List ℕ × ℕ × ℕ := (k.lastActivate, k.rawIndex, k.nextActivate)

theorem spacing_passOn (h : k.passOn p now r = some reply) : reply.object.spacing = k.spacing := by
  obtain ⟨bankReply, -, rfl⟩ := Option.map_eq_some_iff.mp h
  rfl

theorem spacing_callBanks {l : List (Fin n)}
    {out : StandardRank n m × List (Reply n m (DDR3Bank n m))}
    (h : k.callBanks p now r l = some out) : out.1.spacing = k.spacing := by
  obtain ⟨banks, -, rfl⟩ := Option.map_eq_some_iff.mp h
  rfl

theorem spacing_read (h : k.read p now r = some reply) : reply.object.spacing = k.spacing := by
  simp only [read] at h
  split at h
  · cases h
    rfl
  · obtain ⟨passed, hpassed, rfl⟩ := Option.map_eq_some_iff.mp h
    have hsame := spacing_passOn hpassed
    exact hsame

theorem spacing_write (h : k.write p now r = some reply) : reply.object.spacing = k.spacing := by
  simp only [write] at h
  split at h
  · cases h
    rfl
  · obtain ⟨passed, hpassed, rfl⟩ := Option.map_eq_some_iff.mp h
    have hsame := spacing_passOn hpassed
    exact hsame

theorem spacing_precharge (h : k.precharge p now r = some reply) :
    reply.object.spacing = k.spacing := by
  obtain ⟨passed, hpassed, rfl⟩ := Option.map_eq_some_iff.mp h
  have hsame := spacing_passOn hpassed
  dsimp only
  split <;> exact hsame

theorem spacing_powerDown (h : k.powerDown p now r = some reply) :
    reply.object.spacing = k.spacing := by
  obtain ⟨out, hout, h⟩ := Option.bind_eq_some_iff.mp h
  have hsame := spacing_callBanks hout
  obtain ⟨-, h⟩ := Option.ite_none_right_eq_some.mp h
  dsimp only at h
  split at h <;> cases h <;> exact hsame

theorem spacing_powerUp (h : k.powerUp p now r = some reply) :
    reply.object.spacing = k.spacing := by
  obtain ⟨out, hout, h⟩ := Option.bind_eq_some_iff.mp h
  have hsame := spacing_callBanks hout
  obtain ⟨-, h⟩ := Option.ite_none_right_eq_some.mp h
  dsimp only at h
  split at h <;> cases h <;> exact hsame

/-- No other command than an activation touches what spaces activations. -/
theorem spacing_issueCommand (hr : r.type.activates = false)
    (h : k.issueCommand p now r = some reply) : reply.object.spacing = k.spacing := by
  obtain ⟨issuable, -, h⟩ := Option.bind_eq_some_iff.mp h
  split at h
  · split at h
    case h_1 htype => simp [OpType.activates, htype] at hr
    case h_2 | h_3 => exact spacing_read h
    case h_4 | h_5 => exact spacing_write h
    case h_6 | h_7 => exact spacing_precharge h
    case h_8 | h_9 | h_10 => exact spacing_powerDown h
    case h_11 => exact spacing_powerUp h
    case h_12 htype => simp [OpType.activates, htype] at hr
    case h_13 =>
      cases h
      rfl
  · cases h
    rfl

/-- What `recordActivate` enters depends on the members that space activations only. -/
theorem spacing_recordActivate {k' : StandardRank n m} (h : k'.spacing = k.spacing) :
    (k'.recordActivate p now).spacing = (k.recordActivate p now).spacing := by
  simp only [spacing, Prod.mk.injEq] at h
  obtain ⟨hlast, hindex, hnext⟩ := h
  simp only [spacing, recordActivate, hlast, hindex, hnext]

theorem spacing_activate (hnext : k.nextActivate ≤ now) (hwindow : k.nextWindow p ≤ now)
    (h : k.activate p now r = some reply) :
    reply.object.spacing = (k.recordActivate p now).spacing := by
  rw [activate, if_pos ⟨hnext, hwindow⟩] at h
  obtain ⟨passed, hpassed, rfl⟩ := Option.map_eq_some_iff.mp h
  have hsame := spacing_passOn hpassed
  refine spacing_recordActivate ?_
  split <;> exact hsame

theorem spacing_refresh (h : k.refresh p now r = some reply) :
    reply.object.spacing = (k.recordActivate p now).spacing := by
  obtain ⟨-, h⟩ := Option.ite_none_right_eq_some.mp h
  obtain ⟨out, hout, rfl⟩ := Option.map_eq_some_iff.mp h
  have hsame := spacing_callBanks hout
  exact spacing_recordActivate hsame

/-- An activation that is accepted is late enough for the last one and for the window, and is
entered into the ring. -/
theorem activates_issueCommand (hr : r.type.activates) (hi : k.isIssuable p now r = some true)
    (h : k.issueCommand p now r = some reply) :
    k.nextActivate ≤ now ∧ k.nextWindow p ≤ now ∧
      reply.object.spacing = (k.recordActivate p now).spacing := by
  simp only [issueCommand, hi, Option.bind_some, if_true] at h
  rcases htype : r.type <;> simp only [OpType.activates, htype, Bool.false_eq_true] at hr <;>
    simp only [htype] at h
  case activate =>
    simp only [isIssuable, htype, Option.some.injEq, Bool.and_eq_true, decide_eq_true_eq, not_or,
      not_lt] at hi
    exact ⟨hi.1.1, hi.1.2, spacing_activate hi.1.1 hi.1.2 h⟩
  case refresh =>
    have htime : ¬ (now < k.nextActivate ∨ now < k.nextWindow p) := by
      intro hlt
      simp [isIssuable, htype, hlt] at hi
    rw [not_or, not_lt, not_lt] at htime
    exact ⟨htime.1, htime.2, spacing_refresh h⟩

end StandardRank

/-! ### Runs with their history -/

/-- A system, and the cycles of the activations of its rank so far, the newest one first. -/
structure Recorded (n m : ℕ) where
  system : System n m
  activations : List ℕ := []

namespace Recorded

/-- The system after configuration. -/
def init (p : Params) : Recorded n m where
  system := .init p

/-- The activations after an action. -/
def record (s : Recorded n m) : Action n m → List ℕ
  | .issue r => if r.type.activates then s.system.now :: s.activations else s.activations
  | _ => s.activations

/-- One step of the system, entered into the history. -/
def step (p : Params) (s : Recorded n m) (a : Action n m) : Option (Recorded n m) :=
  (s.system.step p a).map fun t => { system := t, activations := s.record a }

/-- A command is issued only when `IsIssuable` accepts it. -/
def OnlyIssuable (p : Params) (s : Recorded n m) : Action n m → Prop
  | .issue r => s.system.Accepts p r
  | _ => True

instance (p : Params) (s : Recorded n m) (a : Action n m) : Decidable (s.OnlyIssuable p a) :=
  match a with
  | .issue _ => inferInstanceAs (Decidable (System.Accepts ..))
  | .notify _ | .completeSubArray .. | .completeRank _ | .advance _ => .isTrue trivial

/-- The ring remembers the newest activations, and the history is spaced. -/
structure Inv (p : Params) (s : Recorded n m) : Prop where
  length : s.system.rank.lastActivate.length = p.raw
  remembers : Remembers 0 s.system.rank.lastActivate s.system.rank.rawIndex s.activations
  next : ∀ x, s.activations[0]? = some x → x + p.tRRDR ≤ s.system.rank.nextActivate
  spaced : Spaced 1 p.tRRDR s.activations
  window : Spaced p.raw p.tRAW s.activations

variable {p : Params} {s t : Recorded n m} {a : Action n m}

theorem inv_init : (init p : Recorded n m).Inv p where
  length := List.length_replicate
  remembers := remembers_replicate p.raw
  next := by
    intro x hx
    simp [init] at hx
  spaced := spaced_nil
  window := spaced_nil

/-- The invariant reads the members that space activations, and the history. -/
theorem Inv.of_spacing (hs : s.Inv p) (hrank : t.system.rank.spacing = s.system.rank.spacing)
    (hactivations : t.activations = s.activations) : t.Inv p := by
  simp only [StandardRank.spacing, Prod.mk.injEq] at hrank
  obtain ⟨hlast, hindex, hnext⟩ := hrank
  constructor
  · rw [hlast]
    exact hs.length
  · rw [hlast, hindex, hactivations]
    exact hs.remembers
  · rw [hnext, hactivations]
    exact hs.next
  · rw [hactivations]
    exact hs.spaced
  · rw [hactivations]
    exact hs.window

/-- The ring gives the cycle of the activation that is `raw` activations back. -/
theorem Inv.nextWindow_eq (hs : s.Inv p) :
    s.system.rank.nextWindow p = s.activations.getD (p.raw - 1) 0 + p.tRAW := by
  have holdest := hs.remembers.getElem?_oldest (hs.length ▸ p.raw_pos)
  rw [hs.length] at holdest
  rw [StandardRank.nextWindow, List.getD_eq_getElem?_getD, holdest, Option.getD_some]

/-- An activation at a cycle that the rank allows keeps the invariant. -/
theorem Inv.activate (hs : s.Inv p) (hnext : s.system.rank.nextActivate ≤ s.system.now)
    (hwindow : s.system.rank.nextWindow p ≤ s.system.now)
    (hrank : t.system.rank.spacing = (s.system.rank.recordActivate p s.system.now).spacing)
    (hactivations : t.activations = s.system.now :: s.activations) : t.Inv p := by
  simp only [StandardRank.spacing, StandardRank.recordActivate, Prod.mk.injEq] at hrank
  obtain ⟨hlast, hindex, hafter⟩ := hrank
  rw [hs.nextWindow_eq] at hwindow
  constructor
  · rw [hlast, List.length_set]
    exact hs.length
  · have hpush := hs.remembers.push (x := s.system.now) (hs.length ▸ p.raw_pos)
    rw [hs.length] at hpush
    rw [hlast, hindex, hactivations]
    exact hpush
  · intro x hx
    rw [hactivations, List.getElem?_cons_zero, Option.some.injEq] at hx
    rw [hafter, ← hx]
    exact le_max_right _ _
  · rw [hactivations]
    refine hs.spaced.cons one_pos fun y hy => ?_
    exact (hs.next y hy).trans hnext
  · rw [hactivations]
    refine hs.window.cons p.raw_pos fun y hy => ?_
    rwa [List.getD_eq_getElem?_getD, hy, Option.getD_some] at hwindow

/-- The completion of a request does not touch what spaces activations. -/
theorem spacing_requestComplete (r : NVMainRequest n m) (k : StandardRank n m) :
    (k.requestComplete r).spacing = k.spacing := by
  unfold StandardRank.requestComplete
  split <;> rfl

theorem spacing_completeSubArray (b : Fin n) (c : Fin m) (i : ℕ) (e : Response n m)
    (s : System n m) : (s.completeSubArray p b c i e).rank.spacing = s.rank.spacing := by
  simp only [System.completeSubArray]
  generalize SubArray.requestComplete p s.now (.subArray b c) e.request _ = out
  cases out.2 with
  | none => rfl
  | some r => exact spacing_requestComplete r _

/-- Actions other than commands leave what spaces activations alone. -/
theorem spacing_step {s t : System n m} (ha : ∀ r, a ≠ .issue r) (h : s.step p a = some t) :
    t.rank.spacing = s.rank.spacing := by
  cases a with
  | issue r => exact absurd rfl (ha r)
  | notify r =>
    cases h
    dsimp only [StandardRank.notify]
    split <;> rfl
  | completeSubArray b c i =>
    simp only [System.step] at h
    split at h
    · obtain ⟨-, heq⟩ := Option.ite_none_right_eq_some.mp h
      cases heq
      exact spacing_completeSubArray b c i _ s
    · cases h
  | completeRank i =>
    simp only [System.step] at h
    split at h
    · obtain ⟨-, heq⟩ := Option.ite_none_right_eq_some.mp h
      cases heq
      exact spacing_requestComplete _ _
    · cases h
  | advance cycles =>
    obtain ⟨-, heq⟩ := Option.ite_none_right_eq_some.mp h
    cases heq
    rfl

/-- A step that issues only what is accepted keeps the invariant. -/
theorem inv_step (hs : s.Inv p) (hissuable : s.OnlyIssuable p a) (h : s.step p a = some t) :
    t.Inv p := by
  obtain ⟨system, hsystem, rfl⟩ := Option.map_eq_some_iff.mp h
  by_cases ha : ∃ r, a = .issue r
  · obtain ⟨r, rfl⟩ := ha
    obtain ⟨reply, hreply, rfl⟩ := Option.map_eq_some_iff.mp hsystem
    by_cases hr : r.type.activates
    · obtain ⟨hnext, hwindow, hrank⟩ :=
        StandardRank.activates_issueCommand hr hissuable hreply
      exact hs.activate hnext hwindow hrank (if_pos hr)
    · have hrank := StandardRank.spacing_issueCommand (by simpa using hr) hreply
      exact hs.of_spacing hrank (if_neg hr)
  · have hne : ∀ r, a ≠ .issue r := fun r hr => ha ⟨r, hr⟩
    refine hs.of_spacing (spacing_step hne hsystem) ?_
    cases a with
    | issue r => exact absurd rfl (hne r)
    | _ => rfl

/-- In every run that issues only what `IsIssuable` accepts, consecutive activations are at
least `tRRDR` cycles apart, an activation and the one `raw` activations later are at least
`tRAW` cycles apart, and no window of `tRAW` cycles has more than `raw` activations. -/
theorem activations_spaced {actions : List (Action n m)}
    (hrun : Run (Guarded (OnlyIssuable p) (Steps (step p))) (init p) actions s) :
    Spaced 1 p.tRRDR s.activations ∧ Spaced p.raw p.tRAW s.activations ∧
      ∀ t, s.activations.countP (fun x => t ≤ x ∧ x < t + p.tRAW) ≤ p.raw := by
  have hinv : s.Inv p := hrun.invariant (P := Inv p) inv_init
    fun s a t hs hstep => inv_step hs hstep.1 hstep.2
  refine ⟨hinv.spaced, hinv.window, fun t => ?_⟩
  exact countP_window_le hinv.spaced.pairwise hinv.window t

/-- Windows of two activations. -/
def pairWindow : Params := { raw := 2, raw_pos := Nat.two_pos }

/-- An `ACTIVATE` of a bank. -/
def activateBank (b : Fin 3) : Action 3 1 :=
  .issue { id := some b, type := .activate, bank := b, subarray := ⟨0, Nat.one_pos⟩ }

/-- Three banks are activated as early as windows of two activations allow. -/
theorem activations_spaced_three : ∃ s : Recorded 3 1,
    Run (Guarded (OnlyIssuable pairWindow) (Steps (step pairWindow))) (init pairWindow)
      [.advance 20, activateBank 0, .advance 5, activateBank 1, .advance 15, activateBank 2] s ∧
    s.activations = [40, 25, 20] ∧
    Spaced 1 5 s.activations ∧ Spaced 2 20 s.activations ∧
      ∀ t, s.activations.countP (fun x => t ≤ x ∧ x < t + 20) ≤ 2 :=
  exists_run_guarded_imp (fun s => s.activations = [40, 25, 20]) (by decide +kernel)
    fun _ hrun hs => ⟨hs, activations_spaced hrun⟩

end Recorded

end HybridMemory.NVMain.CommandPath

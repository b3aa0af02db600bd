import HybridMemory.Lib.Transition
import Mathlib.Data.List.Basic

/-!
# Arbitration on the split-phase bus

The requests of each controller wait in a queue of their own. `arbitrate_round_robin` looks at
the queues one after the other, beginning behind the one that was served last, and takes the
head of the first that is not empty. What it has taken is broadcast later, and freed when the
broadcast is completed; if the receivers are full the bus forgets what it has taken and
arbitrates again.

The number of controllers that are looked at before a given one falls with every selection of
another controller (`arbitrate_spec`), so a controller with waiting requests is passed over by
each other one at most once (`arbitration_fair`).
-/

namespace HybridMemory.Ptlsim

open Transition Function

universe u

/-- A queue entry: the controller whose queue holds it, and its request. -/
abbrev QueueEntry (α : Type u) := ℕ × α

/-- The events of the address bus, with their argument. -/
inductive AddressEvent (α : Type u)
  | broadcast (arg : Option (QueueEntry α))
  | broadcastCompleted (arg : Option (QueueEntry α))
  deriving DecidableEq

/-- The address bus. It is busy exactly while an event is scheduled: without annulled entries
`broadcast_cb` schedules an event whenever it runs. The list of all selections so far is kept
beside the data members. -/
structure AddressBus (α : Type u) where
  queues : ℕ → List α
  lastAccessQueue : Option ℕ
  event : Option (AddressEvent α)
  selections : List ℕ

namespace AddressBus

variable {α : Type u}

/-- The constructor. -/
def initial : AddressBus α := ⟨fun _ => [], none, none, []⟩

/-- The controller behind which the scan of the queues begins. -/
def start (s : AddressBus α) : ℕ := s.lastAccessQueue.getD 0

/-- The do-while loop of `arbitrate_round_robin` over `n` controllers, with a bound on the
number of passes. -/
def scan (s : AddressBus α) (n : ℕ) : ℕ → ℕ → Option (Option (QueueEntry α))
  | 0, _ => none
  | passes + 1, i =>
    let i := (i + 1) % n
    match (s.queues i).head? with
    | some request => some (some (i, request))
    | none => if s.lastAccessQueue = some i then some none else s.scan n passes i

/-- Controller `i` is selected. -/
def select (s : AddressBus α) (i : ℕ) : AddressBus α :=
  { s with lastAccessQueue := some i, selections := s.selections ++ [i] }

/-- `arbitrate_round_robin` with `n` controllers; `none` if the loop does not end in one turn.
It would then go on for ever, since a turn changes nothing. -/
def arbitrateRoundRobin (n : ℕ) (s : AddressBus α) :
    Option (AddressBus α × Option (QueueEntry α)) :=
  (s.scan n n s.start).map fun
    | some (i, request) => (s.select i, some (i, request))
    | none => (s, none)

/-- `broadcast_cb`. The tests of the source on other components are arguments: the table of
pending requests is full and the request needs an entry there, and all receivers have room. -/
def broadcastCb (n : ℕ) (pendingFull canBroadcast : Bool) (arg : Option (QueueEntry α))
    (s : AddressBus α) : Option (AddressBus α) :=
  match arg with
  | none =>
    (s.arbitrateRoundRobin n).map fun r => { r.1 with event := some (.broadcast r.2) }
  | some entry =>
    if pendingFull then some { s with event := some (.broadcast none) }
    else if !canBroadcast then some { s with event := some (.broadcast none) }
    else some { s with event := some (.broadcastCompleted (some entry)) }

variable [DecidableEq α]

/-- `queue.free`. -/
def free (s : AddressBus α) (entry : QueueEntry α) : AddressBus α :=
  { s with queues := update s.queues entry.1 ((s.queues entry.1).erase entry.2) }

/-- `broadcast_completed_cb`. -/
def broadcastCompletedCb (n : ℕ) (pendingFull canBroadcast : Bool)
    (arg : Option (QueueEntry α)) (s : AddressBus α) : Option (AddressBus α) :=
  match arg with
  | none => s.broadcastCb n pendingFull canBroadcast none
  | some entry =>
    if !canBroadcast then some { s with event := some (.broadcastCompleted none) }
    else (s.free entry).broadcastCb n pendingFull canBroadcast none

/-- The end of `controller_request_cb`: a new request of controller `i`, whose queue has 16
places. -/
def controllerRequestCb (i : ℕ) (request : α) (s : AddressBus α) : AddressBus α :=
  if 16 ≤ (s.queues i).length then s
  else
    { s with
      queues := update s.queues i (s.queues i ++ [request])
      event := s.event.or (some (.broadcast none)) }

/-- What happens on the bus: a controller sends a new request, or the scheduled event comes. -/
inductive Action (α : Type u)
  | request (i : ℕ) (request : α)
  | event (pendingFull canBroadcast : Bool)

def step (n : ℕ) (s : AddressBus α) : Action α → Option (AddressBus α)
  | .request i request => if i < n then some (s.controllerRequestCb i request) else none
  | .event pendingFull canBroadcast =>
    match s.event with
    | none => none
    | some (.broadcast arg) => s.broadcastCb n pendingFull canBroadcast arg
    | some (.broadcastCompleted arg) => s.broadcastCompletedCb n pendingFull canBroadcast arg

/-! ### One arbitration -/

section Scan

omit [DecidableEq α]

variable {n i c d k : ℕ} {s t : AddressBus α}

/-- The loop, begun `k` places behind the last selection, finds a queue at the latest when it
comes to one that is not empty. It does not stop before, since it has not yet come round. -/
theorem scan_finds {passes : ℕ} (hstart : s.start < n) (hd : k + d + 1 ≤ n) (hpasses : d < passes)
    (hq : s.queues ((s.start + (k + d + 1)) % n) ≠ []) :
    ∃ m ≤ d, ∃ request, s.scan n passes ((s.start + k) % n)
        = some (some ((s.start + (k + m + 1)) % n, request)) ∧
      (s.queues ((s.start + (k + m + 1)) % n)).head? = some request := by
  induction d generalizing k passes with
  | zero =>
    obtain ⟨passes, rfl⟩ := Nat.exists_eq_succ_of_ne_zero (Nat.ne_of_gt hpasses)
    obtain ⟨request, hhead⟩ := Option.isSome_iff_exists.mp (List.isSome_head?.mpr hq)
    refine ⟨0, Nat.le_refl _, request, ?_, hhead⟩
    rw [scan, Nat.mod_add_mod, Nat.add_assoc, hhead]
  | succ d ih =>
    obtain ⟨passes, rfl⟩ := Nat.exists_eq_succ_of_ne_zero (Nat.ne_of_gt (Nat.zero_lt_of_lt hpasses))
    rw [scan, Nat.mod_add_mod, Nat.add_assoc]
    cases hhead : (s.queues ((s.start + (k + 1)) % n)).head? with
    | some request => exact ⟨0, Nat.zero_le _, request, rfl, hhead⟩
    | none =>
      have hlast : s.lastAccessQueue ≠ some ((s.start + (k + 1)) % n) := by
        intro hlast
        have hround : s.start = (s.start + (k + 1)) % n := by
          conv_lhs => rw [start, hlast, Option.getD_some]
        rcases Nat.lt_or_ge (s.start + (k + 1)) n with hlt | hge
        · rw [Nat.mod_eq_of_lt hlt] at hround
          omega
        · rw [Nat.mod_eq_sub_mod hge, Nat.mod_eq_of_lt (by omega)] at hround
          omega
      have hq' : s.queues ((s.start + (k + 1 + d + 1)) % n) ≠ [] := by
        rw [show k + 1 + d + 1 = k + (d + 1) + 1 by omega]
        exact hq
      obtain ⟨m, hm, request, hscan, hrequest⟩ := ih (by omega) (Nat.lt_of_succ_lt_succ hpasses) hq'
      rw [show k + 1 + m + 1 = k + (m + 1) + 1 by omega] at hscan hrequest
      exact ⟨m + 1, Nat.succ_le_succ hm, request, by simpa [hlast] using hscan, hrequest⟩

/-- How many controllers are looked at before controller `c`. -/
def ahead (n : ℕ) (s : AddressBus α) (c : ℕ) : ℕ := (c + (n - 1 - s.start)) % n

theorem ahead_lt (hn : 0 < n) : s.ahead n c < n := Nat.mod_lt _ hn

theorem start_add_ahead (hstart : s.start < n) (hc : c < n) :
    (s.start + (s.ahead n c + 1)) % n = c := by
  rw [ahead, Nat.add_left_comm, Nat.mod_add_mod, show c + (n - 1 - s.start) + (s.start + 1) = c + n
    by omega, Nat.add_mod_right, Nat.mod_eq_of_lt hc]

theorem ahead_eq (hstart : s.start < n) (hd : d < n) :
    s.ahead n ((s.start + (d + 1)) % n) = d := by
  rw [ahead, Nat.mod_add_mod, show s.start + (d + 1) + (n - 1 - s.start) = d + n by omega,
    Nat.add_mod_right, Nat.mod_eq_of_lt hd]

@[simp] theorem start_select : (s.select i).start = i := rfl

/-- If a controller in front of `c` is selected, less of them are left. -/
theorem ahead_select {m : ℕ} (hstart : s.start < n) (hc : c < n) (hm : m < s.ahead n c) :
    (s.select ((s.start + (m + 1)) % n)).ahead n c < s.ahead n c := by
  obtain ⟨d, hd⟩ := Nat.exists_eq_add_of_lt hm
  have hlt : s.ahead n c < n := ahead_lt (by omega)
  have hcyc : ((s.select ((s.start + (m + 1)) % n)).start + (d + 1)) % n = c := by
    rw [start_select, Nat.mod_add_mod, ← start_add_ahead hstart hc, hd]
    congr 1
    omega
  have hnew := ahead_eq (s := s.select ((s.start + (m + 1)) % n)) (d := d)
    (Nat.mod_lt _ (by omega)) (by omega)
  rw [hcyc] at hnew
  omega

/-- **One arbitration.** While some controller `c` has a request, the loop ends and returns
the head of a queue that is not empty; if it is not that of `c`, then `c` has come nearer. -/
theorem arbitrate_spec (hstart : s.start < n) (hc : c < n) (hq : s.queues c ≠ []) :
    ∃ i < n, ∃ request, s.arbitrateRoundRobin n = some (s.select i, some (i, request)) ∧
      (s.queues i).head? = some request ∧ (i = c ∨ (s.select i).ahead n c < s.ahead n c) := by
  have hlt : s.ahead n c < n := ahead_lt (by omega)
  have hcyc := start_add_ahead hstart hc
  obtain ⟨m, hm, request, hscan, hhead⟩ := scan_finds (k := 0) (d := s.ahead n c) hstart
    (by omega) hlt (by rw [Nat.zero_add, hcyc]; exact hq)
  rw [Nat.zero_add] at hscan hhead
  rw [Nat.add_zero, Nat.mod_eq_of_lt hstart] at hscan
  refine ⟨(s.start + (m + 1)) % n, Nat.mod_lt _ (by omega), request, ?_, hhead, ?_⟩
  · rw [arbitrateRoundRobin, hscan]
    rfl
  · rcases Nat.eq_or_lt_of_le hm with rfl | hm
    · exact Or.inl hcyc
    · exact Or.inr (ahead_select hstart hc hm)

end Scan

/-! ### Runs of the bus -/

section Fairness

variable {n c : ℕ} {s t : AddressBus α} {a : Action α} {as bs : List (Action α)}

omit [DecidableEq α] in
theorem lt_of_scan {passes i : ℕ} {entry : QueueEntry α} (hn : 0 < n)
    (h : s.scan n passes i = some (some entry)) : entry.1 < n := by
  induction passes generalizing i with
  | zero => contradiction
  | succ passes ih =>
    rw [scan] at h
    split at h
    · obtain rfl := Option.some.inj (Option.some.inj h)
      exact Nat.mod_lt _ hn
    · split_ifs at h
      · simp at h
      · exact ih h

/-- The controllers `l` were selected on the way from `s` to `t`, and every controller that
has a request was selected or came nearer with each of them. -/
structure Selects (n : ℕ) (s : AddressBus α) (l : List ℕ) (t : AddressBus α) : Prop where
  start_lt : t.start < n
  selections_eq : t.selections = s.selections ++ l
  nearer : ∀ c < n, t.queues c ≠ [] → c ∈ l ∨ l.length + t.ahead n c ≤ s.ahead n c

omit [DecidableEq α] in
/-- Nothing was selected. -/
theorem selects_nil (hstart : s.start < n) (hlast : t.lastAccessQueue = s.lastAccessQueue)
    (hsel : t.selections = s.selections) : Selects n s [] t := by
  have hsame : t.start = s.start := by rw [start, hlast, start]
  refine ⟨hsame ▸ hstart, by rw [hsel, List.append_nil], fun c _ _ => Or.inr ?_⟩
  have hahead : t.ahead n c = s.ahead n c := by rw [ahead, hsame, ahead]
  exact Nat.le_of_eq (by rw [List.length_nil, Nat.zero_add, hahead])

omit [DecidableEq α] in
/-- `broadcast_cb` selects at most one controller. -/
theorem selects_broadcastCb {pendingFull canBroadcast : Bool} {arg : Option (QueueEntry α)}
    (hstart : s.start < n) (h : s.broadcastCb n pendingFull canBroadcast arg = some t) :
    ∃ l, Selects n s l t := by
  cases arg with
  | some entry =>
    rw [broadcastCb] at h
    split_ifs at h <;>
    · obtain rfl := Option.some.inj h
      exact ⟨[], selects_nil hstart rfl rfl⟩
  | none =>
    obtain ⟨⟨u, entry⟩, harb, rfl⟩ := Option.map_eq_some_iff.mp h
    obtain ⟨found, hscan, hfound⟩ := Option.map_eq_some_iff.mp harb
    cases found with
    | none =>
      obtain ⟨rfl, rfl⟩ := Prod.mk.inj hfound
      exact ⟨[], selects_nil hstart rfl rfl⟩
    | some found =>
      obtain ⟨rfl, rfl⟩ := Prod.mk.inj hfound
      refine ⟨[found.1], lt_of_scan (by omega) hscan, rfl, fun c hc hq => ?_⟩
      obtain ⟨i, -, request, hsame, -, hi⟩ := arbitrate_spec hstart hc hq
      obtain rfl : found = (i, request) :=
        Option.some.inj (Prod.mk.inj (Option.some.inj (harb.symm.trans hsame))).2
      refine hi.imp (fun heq => by simp [heq]) fun hlt => ?_
      rw [List.length_singleton, Nat.add_comm]
      exact hlt

/-- The entry that is freed plays no part in the order of service. -/
theorem Selects.of_free {entry : QueueEntry α} {l : List ℕ} (h : Selects n (s.free entry) l t) :
    Selects n s l t := ⟨h.start_lt, h.selections_eq, h.nearer⟩

theorem selects_step (hstart : s.start < n) (h : step n s a = some t) : ∃ l, Selects n s l t := by
  cases a with
  | request i request =>
    rw [step] at h
    split_ifs at h
    obtain rfl := Option.some.inj h
    rw [controllerRequestCb]
    split_ifs
    · exact ⟨[], selects_nil hstart rfl rfl⟩
    · exact ⟨[], selects_nil hstart rfl rfl⟩
  | event pendingFull canBroadcast =>
    rw [step] at h
    split at h
    · contradiction
    · exact selects_broadcastCb hstart h
    · rename_i arg _
      cases arg with
      | none =>
        rw [broadcastCompletedCb] at h
        exact selects_broadcastCb hstart h
      | some entry =>
        rw [broadcastCompletedCb] at h
        split_ifs at h
        · obtain rfl := Option.some.inj h
          exact ⟨[], selects_nil hstart rfl rfl⟩
        · obtain ⟨l, hl⟩ := selects_broadcastCb (s := s.free entry) hstart h
          exact ⟨l, hl.of_free⟩

theorem start_lt_of_run (hn : 0 < n) (hrun : Run (Steps (step n)) initial as s) : s.start < n :=
  hrun.invariant (P := fun s => s.start < n) hn fun _ _ _ hstart hstep =>
    (selects_step hstart hstep).choose_spec.start_lt

/-- A run in which the queue of `c` is never empty: with each selection of another controller
`c` has come nearer, until it is selected itself. -/
theorem exists_selections (hstart : s.start < n) (hc : c < n)
    (hrun : Run (Guarded (fun u _ => u.queues c ≠ []) (Steps (step n))) s bs t)
    (ht : t.queues c ≠ []) :
    ∃ l, t.selections = s.selections ++ l ∧ (c ∈ l ∨ l.length + t.ahead n c ≤ s.ahead n c) := by
  induction bs generalizing s with
  | nil =>
    obtain rfl := run_nil.mp hrun
    exact ⟨[], by simp, Or.inr (by simp)⟩
  | cons b bs ih =>
    obtain ⟨u, ⟨-, hstep⟩, hrun⟩ := hrun
    have hu : u.queues c ≠ [] := by
      cases bs with
      | nil => exact run_nil.mp hrun ▸ ht
      | cons _ _ => exact hrun.choose_spec.1.1
    obtain ⟨l, hl⟩ := selects_step hstart hstep
    obtain ⟨l', hsel, hl'⟩ := ih hl.start_lt hrun
    refine ⟨l ++ l', by rw [hsel, hl.selections_eq, List.append_assoc], ?_⟩
    rw [List.mem_append, List.length_append]
    rcases hl.nearer c hc hu with hmem | hle
    · exact Or.inl (Or.inl hmem)
    · exact hl'.imp Or.inr fun hle' => by omega

/-- **Round robin is fair.** Whenever some queue is not empty, in a state of a run or after an entry
was freed there, `arbitrate_round_robin` ends and returns the head of a queue that is not empty. As
long as the queue of a controller `c` is not empty, `c` is selected after at most `n - 1` selections
of other controllers. -/
theorem arbitration_fair (hrun : Run (Steps (step n)) initial as s) (hc : c < n) :
    (∀ u, (u = s ∨ ∃ entry, u = s.free entry) → u.queues c ≠ [] →
      ∃ i < n, ∃ request, u.arbitrateRoundRobin n = some (u.select i, some (i, request)) ∧
        (u.queues i).head? = some request) ∧
    ∀ bs t, Run (Guarded (fun u _ => u.queues c ≠ []) (Steps (step n))) s bs t →
      t.queues c ≠ [] → ∃ l, t.selections = s.selections ++ l ∧ (c ∉ l → l.length ≤ n - 1) := by
  have hstart : s.start < n := start_lt_of_run (by omega) hrun
  refine ⟨fun u hu hq => ?_, fun bs t hbs ht => ?_⟩
  · have hustart : u.start < n := by rcases hu with rfl | ⟨entry, rfl⟩ <;> exact hstart
    obtain ⟨i, hi, request, harb, hhead, -⟩ := arbitrate_spec hustart hc hq
    exact ⟨i, hi, request, harb, hhead⟩
  · obtain ⟨l, hsel, hl⟩ := exists_selections hstart hc hbs ht
    refine ⟨l, hsel, fun hmem => ?_⟩
    have hahead : s.ahead n c < n := ahead_lt (by omega)
    have hle := hl.resolve_left hmem
    omega

end Fairness

/-- Three controllers send a request each. The bus selects 1 and broadcasts its request, then it
selects 2; controller 0 is next. -/
theorem arbitration_fair_three :
    ∃ s : AddressBus ℕ, Run (Steps (step 3)) initial
        [.request 0 10, .request 1 11, .request 2 12] s ∧
      ∃ t, Run (Guarded (fun u _ => u.queues 0 ≠ []) (Steps (step 3))) s
          [.event false true, .event false true, .event false true] t ∧
        t.selections = [1, 2] ∧
        ∃ l, t.selections = s.selections ++ l ∧ (0 ∉ l → l.length ≤ 3 - 1) := by
  refine exists_run_imp (fun s => (exec (restrict (fun u _ => u.queues 0 ≠ []) (step 3)) s
    [.event false true, .event false true, .event false true]).any
      fun t => t.queues 0 ≠ [] ∧ t.selections = [1, 2]) (by decide +kernel) fun s hs hP => ?_
  refine exists_run_guarded_imp _ hP fun t ht hq => ⟨hq.2, ?_⟩
  exact (arbitration_fair hs (by decide)).2 _ t ht hq.1

end AddressBus

end HybridMemory.Ptlsim

import HybridMemory.NVMain.CommandPath

/-!
# The data bus between ranks

`OffChipBus` and `OnChipBus` pass a command on to its rank and notify the other ranks of a
success. A rank keeps its own reads and writes apart by `nextRead` and `nextWrite`, and `Notify`
raises the two bounds for the data of another rank. The ranks here run side by side, with the
history of the transfers over the bus that they share; no data encoder delays a read.

* `Inv.record`: a transfer raises the bounds of all ranks up to where it leaves the bus free;
* `transfers_apart`: a transfer waits for those of its own rank, and for the first burst of those
  of other ranks. `Notify` does not look at `burstCount`.
-/

namespace HybridMemory.NVMain.CommandPath

open Transition Function

variable {n m c : ℕ}

/-- Whether a command that moves data writes it. -/
def OpType.moves : OpType → Option Bool
  | read | readPrecharge => some false
  | write | writePrecharge => some true
  | _ => none

/-- The time from a read or a write to its data. -/
def Params.latency (p : Params) (writes : Bool) : ℕ := if writes then p.tCWD else p.tCAS

/-- The cycle up to which a rank raises a bound for a read or write of its own. -/
def Params.ownBound (p : Params) (now : ℕ) (r : NVMainRequest n m) (w w' : Bool) : ℕ :=
  if w' = w then now + p.burst * r.burstCount
  else ncycle (now + p.leadingBursts r + p.latency w + p.tBURST
    + if w then (p.tWTR : ℤ) else p.tRTRS - p.tCWD)

/-- The cycle up to which `Notify` raises a bound. -/
def Params.notifiedBound (p : Params) (now : ℕ) (w w' : Bool) : ℕ :=
  if w' = w then now + p.tBURST + if w then p.tOST else p.tRTRS
  else ncycle (now + p.latency w + p.tBURST + p.tRTRS - p.latency w')

theorem le_ncycle {x : ℤ} (h : x < 2 ^ 64) : x ≤ ncycle x := by
  rw [ncycle]
  omega

/-! ### The bounds of a rank -/

namespace StandardRank

variable {p : Params} {now : ℕ} {r : NVMainRequest n m} {k : StandardRank n m}
  {reply : Reply n m (StandardRank n m)}

/-- `nextWrite` or `nextRead`. -/
def bound (k : StandardRank n m) (writes : Bool) : ℕ := if writes then k.nextWrite else k.nextRead

theorem bound_passOn (h : k.passOn p now r = some reply) : reply.object.bound = k.bound := by
  obtain ⟨bankReply, -, rfl⟩ := Option.map_eq_some_iff.mp h
  rfl

theorem bound_callBanks {l : List (Fin n)}
    {out : StandardRank n m × List (Reply n m (DDR3Bank n m))}
    (h : k.callBanks p now r l = some out) : out.1.bound = k.bound := by
  obtain ⟨banks, -, rfl⟩ := Option.map_eq_some_iff.mp h
  rfl

/-- A read or a write that is not too early raises the bounds; other commands leave them alone. -/
theorem bound_issueCommand (h : k.issueCommand p now r = some reply) :
    reply.object.bound = k.bound ∧ (reply.rv → r.type.moves = none) ∨
    ∃ w, r.type.moves = some w ∧ k.bound w ≤ now ∧
      reply.object.bound = fun w' => max (k.bound w') (p.ownBound now r w w') := by
  obtain ⟨issuable, -, h⟩ := Option.bind_eq_some_iff.mp h
  split at h
  · rcases htype : r.type <;> simp only [htype] at h
    case read | readPrecharge | write | writePrecharge =>
      simp only [StandardRank.read, StandardRank.write] at h
      split at h
      · cases h
        exact Or.inl ⟨rfl, fun hrv => by cases hrv⟩
      · rename_i hnow
        obtain ⟨passed, -, rfl⟩ := Option.map_eq_some_iff.mp h
        refine Or.inr ⟨_, rfl, not_lt.mp hnow, funext fun w' => ?_⟩
        cases w' <;> simp [bound, Params.ownBound, Params.latency, add_sub_assoc]
    all_goals refine Or.inl ⟨?_, fun _ => rfl⟩
    case activate =>
      simp only [activate] at h
      split at h
      · obtain ⟨passed, hpassed, rfl⟩ := Option.map_eq_some_iff.mp h
        refine Eq.trans ?_ (bound_passOn hpassed)
        dsimp only [Reply.success]
        split <;> rfl
      · cases h
        rfl
    case precharge | prechargeAll =>
      obtain ⟨passed, hpassed, rfl⟩ := Option.map_eq_some_iff.mp h
      refine Eq.trans ?_ (bound_passOn hpassed)
      dsimp only
      split <;> rfl
    case powerdownPDA | powerdownPDPF | powerdownPDPS | powerup =>
      obtain ⟨out, hout, h⟩ := Option.bind_eq_some_iff.mp h
      have hsame := bound_callBanks hout
      obtain ⟨-, h⟩ := Option.ite_none_right_eq_some.mp h
      dsimp only at h
      split at h <;> cases h <;> exact hsame
    case refresh =>
      obtain ⟨-, h⟩ := Option.ite_none_right_eq_some.mp h
      obtain ⟨out, hout, rfl⟩ := Option.map_eq_some_iff.mp h
      exact bound_callBanks hout
    all_goals
      cases h
      rfl
  · cases h
    exact Or.inl ⟨rfl, fun hrv => by cases hrv⟩

/-- No command lowers a bound. -/
theorem bound_le_issueCommand (h : k.issueCommand p now r = some reply) :
    k.bound ≤ reply.object.bound := by
  rcases bound_issueCommand h with ⟨hsame, -⟩ | ⟨w, -, -, hbound⟩
  · exact hsame.ge
  · rw [hbound]
    exact fun w' => le_max_left _ _

/-- `Notify` raises the bounds for a command that moves data, whatever its number of bursts. -/
theorem bound_notify (k : StandardRank n m) : (k.notify p now r).bound =
    match r.type.moves with
    | none => k.bound
    | some w => fun w' => max (k.bound w') (p.notifiedBound now w w') := by
  funext w'
  rcases htype : r.type <;> cases w' <;>
    simp [notify, htype, OpType.moves, bound, Params.notifiedBound, Params.latency, add_right_comm]

theorem bound_le_notify (k : StandardRank n m) (p : Params) (now : ℕ) (r : NVMainRequest n m) :
    k.bound ≤ (k.notify p now r).bound := by
  rw [bound_notify]
  split
  · rfl
  · exact fun w' => le_max_left _ _

theorem bound_requestComplete (k : StandardRank n m) : (k.requestComplete r).bound = k.bound := by
  unfold requestComplete
  split <;> rfl

end StandardRank

/-- The event queue delivers an event. -/
def Action.completes : Action n m → Bool
  | completeSubArray .. | completeRank _ => true
  | _ => false

/-- A completed request leaves the bounds alone. -/
theorem System.bound_of_completes {p : Params} {s t : System n m} {a : Action n m}
    (ha : a.completes) (h : s.step p a = some t) : t.rank.bound = s.rank.bound := by
  cases a with
  | completeSubArray b d i =>
    simp only [step] at h
    split at h
    · obtain ⟨-, heq⟩ := Option.ite_none_right_eq_some.mp h
      cases heq
      simp only [completeSubArray]
      generalize SubArray.requestComplete p s.now (.subArray b d) _ _ = out
      cases out.2 with
      | none => rfl
      | some r => exact StandardRank.bound_requestComplete _
    · cases h
  | completeRank i =>
    simp only [step] at h
    split at h
    · obtain ⟨-, heq⟩ := Option.ite_none_right_eq_some.mp h
      cases heq
      exact StandardRank.bound_requestComplete _
    · cases h
  | issue | notify | advance => cases ha

/-! ### Transfers -/

/-- A command that moves data over the bus. -/
structure Transfer (c : ℕ) where
  rank : Fin c
  writes : Bool
  /-- The cycle of the command. -/
  cycle : ℕ
  burstCount : ℕ

namespace Transfer

variable (p : Params) (e : Transfer c)

/-- The first cycle of its data. -/
def start : ℕ := e.cycle + p.latency e.writes

/-- The cycle after its last burst. -/
def stop : ℕ := e.start p + p.burst * (e.burstCount - 1) + p.tBURST

/-- The first cycle that it leaves to data of a rank. -/
def free (rank : Fin c) (writes : Bool) : ℕ :=
  if rank = e.rank then e.stop p
  else e.start p + p.tBURST + if e.writes ∧ writes then p.tOST else p.tRTRS

end Transfer

/-- The ranks of a bus. -/
structure Bus (n m c : ℕ) where
  now : ℕ := 0
  ranks : Fin c → StandardRank n m
  /-- The transfers so far, the newest one first. -/
  transfers : List (Transfer c) := []

/-- What can happen to the ranks of a bus. -/
inductive BusAction (n m c : ℕ)
  /-- The controller calls `IssueCommand` of the bus. -/
  | issue (i : Fin c) (r : NVMainRequest n m)
  /-- The event queue delivers an event of a rank. -/
  | complete (i : Fin c) (a : Action n m)
  /-- Time passes. -/
  | advance (cycles : ℕ)

namespace Bus

/-- The bus after configuration. -/
def init (p : Params) : Bus n m c where
  ranks := fun _ => .init p

/-- `IssueCommand`. The other ranks are notified of a success. -/
def issueCommand (p : Params) (now : ℕ) (i : Fin c) (r : NVMainRequest n m)
    (ranks : Fin c → StandardRank n m) : Option (Bool × (Fin c → StandardRank n m)) :=
  if p.ndebug ∨ (ranks i).isIssuable p now r = some true then
    ((ranks i).issueCommand p now r).map fun reply =>
      let others := if reply.rv then fun j => (ranks j).notify p now r else ranks
      (reply.rv, update others i reply.object)
  else none

/-- One step; none if the action is not possible, or the program does not return from it. -/
def step (p : Params) (s : Bus n m c) : BusAction n m c → Option (Bus n m c)
  | .issue i r => (issueCommand p s.now i r s.ranks).map fun out =>
    let moved := r.type.moves.toList.map fun w => ⟨i, w, s.now, r.burstCount⟩
    { s with ranks := out.2, transfers := if out.1 then moved ++ s.transfers else s.transfers }
  | .complete i a =>
    if a.completes then
      (System.step p ⟨s.now, s.ranks i⟩ a).map fun t =>
        { s with ranks := update s.ranks i t.rank }
    else none
  | .advance cycles =>
    if ∀ i, System.quietUntil (s.now + cycles) ⟨s.now, s.ranks i⟩ then
      some { s with now := s.now + cycles }
    else none

/-- A command has a burst, and the cycles that are computed from it fit into 64 bits. -/
def Fits (p : Params) (s : Bus n m c) : BusAction n m c → Prop
  | .issue _ r => 0 < r.burstCount ∧ s.now + p.burst * r.burstCount + p.tCAS + p.tCWD + p.tBURST
      + p.tRTRS + p.tWTR < 2 ^ 64
  | _ => True

instance (p : Params) (s : Bus n m c) (a : BusAction n m c) : Decidable (s.Fits p a) :=
  match a with
  | .issue .. => inferInstanceAs (Decidable (_ ∧ _))
  | .complete .. | .advance _ => .isTrue trivial

/-- The bounds of all ranks leave the bus to the transfers so far, which are apart. -/
structure Inv (p : Params) (s : Bus n m c) : Prop where
  reserved : ∀ e ∈ s.transfers, ∀ j w, e.free p j w ≤ (s.ranks j).bound w + p.latency w
  apart : s.transfers.Pairwise fun later e => e.free p later.rank later.writes ≤ later.start p

variable {p : Params} {s t : Bus n m c} {a : BusAction n m c}

theorem Inv.mono (hs : s.Inv p) (hbound : ∀ j, (s.ranks j).bound ≤ (t.ranks j).bound)
    (htransfers : t.transfers = s.transfers) : t.Inv p where
  reserved := fun e he j w =>
    (hs.reserved e (htransfers ▸ he) j w).trans (Nat.add_le_add_right (hbound j w) _)
  apart := htransfers ▸ hs.apart

/-- A transfer that its rank allows, and that raises the bounds of all ranks. -/
theorem Inv.record {e : Transfer c} (hs : s.Inv p)
    (hbound : ∀ j, (s.ranks j).bound ≤ (t.ranks j).bound)
    (htransfers : t.transfers = e :: s.transfers)
    (hallowed : (s.ranks e.rank).bound e.writes ≤ e.cycle)
    (hfree : ∀ j w, e.free p j w ≤ (t.ranks j).bound w + p.latency w) : t.Inv p := by
  have hold : ({ t with transfers := s.transfers } : Bus n m c).Inv p := hs.mono hbound rfl
  constructor
  · rw [htransfers]
    exact List.forall_mem_cons.mpr ⟨hfree, hold.reserved⟩
  · rw [htransfers]
    refine List.pairwise_cons.mpr ⟨fun e' he' => ?_, hs.apart⟩
    exact (hs.reserved e' he' e.rank e.writes).trans (Nat.add_le_add_right hallowed _)

/-- The rank of a transfer leaves the bus to all its bursts. -/
theorem stop_le_ownBound {i : Fin c} {r : NVMainRequest n m} (hfits : s.Fits p (.issue i r))
    (w w' : Bool) : (⟨i, w, s.now, r.burstCount⟩ : Transfer c).stop p ≤
      p.ownBound s.now r w w' + p.latency w' := by
  obtain ⟨hpos, hlt⟩ := hfits
  obtain ⟨b, hb⟩ := Nat.exists_eq_add_one.mpr hpos
  have hburst : p.tBURST ≤ p.burst := le_max_left _ _
  have hleading : p.leadingBursts r = (p.burst * b : ℕ) := by simp [Params.leadingBursts, hb]
  simp only [hb, Nat.mul_succ] at hlt
  simp only [Transfer.stop, Transfer.start, Params.ownBound, hb, Nat.mul_succ, hleading,
    Nat.add_sub_cancel]
  generalize p.burst * b = leading at hlt ⊢
  have hread := le_ncycle (x := s.now + leading + p.tCAS + p.tBURST + (p.tRTRS - p.tCWD)) (by omega)
  have hwrite := le_ncycle (x := s.now + leading + p.tCWD + p.tBURST + p.tWTR) (by omega)
  cases w <;> cases w' <;> simp [Params.latency] <;> omega

/-- The ranks that are notified leave the bus to its first burst. -/
theorem free_le_notifiedBound {i j : Fin c} {r : NVMainRequest n m}
    (hfits : s.Fits p (.issue i r)) (hj : j ≠ i) (w w' : Bool) :
    (⟨i, w, s.now, r.burstCount⟩ : Transfer c).free p j w' ≤
      p.notifiedBound s.now w w' + p.latency w' := by
  have hlt := hfits.2
  have hread := le_ncycle (x := s.now + p.tCAS + p.tBURST + p.tRTRS - p.tCWD) (by omega)
  have hwrite := le_ncycle (x := s.now + p.tCWD + p.tBURST + p.tRTRS - p.tCAS) (by omega)
  rw [Transfer.free, if_neg hj, Transfer.start, Params.notifiedBound]
  cases w <;> cases w' <;> simp [Params.latency] <;> omega

theorem bound_le_update {ranks others : Fin c → StandardRank n m} {i : Fin c}
    {k : StandardRank n m} (hk : (ranks i).bound ≤ k.bound)
    (hothers : ∀ j, (ranks j).bound ≤ (others j).bound) :
    ∀ j, (ranks j).bound ≤ (update others i k j).bound :=
  (forall_update_iff others fun j k => (ranks j).bound ≤ k.bound).mpr
    ⟨hk, fun j _ => hothers j⟩

/-- A command: a transfer is recorded if it succeeds. -/
theorem Inv.issue {i : Fin c} {r : NVMainRequest n m} (hs : s.Inv p)
    (hfits : s.Fits p (.issue i r)) (h : s.step p (.issue i r) = some t) : t.Inv p := by
  obtain ⟨out, hout, rfl⟩ := Option.map_eq_some_iff.mp h
  obtain ⟨-, hout⟩ := Option.ite_none_right_eq_some.mp hout
  obtain ⟨reply, hreply, rfl⟩ := Option.map_eq_some_iff.mp hout
  have hbound := StandardRank.bound_le_issueCommand hreply
  cases hrv : reply.rv with
  | false => exact hs.mono (bound_le_update hbound fun _ => le_rfl) (by simp)
  | true =>
    have hgrow := bound_le_update hbound fun j => (s.ranks j).bound_le_notify p s.now r
    rcases StandardRank.bound_issueCommand hreply with ⟨-, hw⟩ | ⟨w, hw, hallowed, hown⟩
    · exact hs.mono hgrow (by simp [hw hrv])
    · refine hs.record (e := ⟨i, w, s.now, r.burstCount⟩) hgrow (by simp [hw])
        hallowed fun j w' => ?_
      by_cases hj : j = i
      · subst hj
        simp only [update_self, hown, Transfer.free, if_true]
        exact (stop_le_ownBound hfits w w').trans (Nat.add_le_add_right (le_max_right _ _) _)
      · simp only [update_of_ne hj, if_true, StandardRank.bound_notify, hw]
        exact (free_le_notifiedBound hfits hj w w').trans
          (Nat.add_le_add_right (le_max_right _ _) _)

theorem inv_step (hs : s.Inv p) (hfits : s.Fits p a) (h : s.step p a = some t) : t.Inv p := by
  cases a with
  | issue i r => exact hs.issue hfits h
  | complete i e =>
    obtain ⟨hcompletes, h⟩ := Option.ite_none_right_eq_some.mp h
    obtain ⟨u, hu, rfl⟩ := Option.map_eq_some_iff.mp h
    have hbound := System.bound_of_completes hcompletes hu
    exact hs.mono (bound_le_update hbound.ge fun _ => le_rfl) rfl
  | advance cycles =>
    obtain ⟨-, heq⟩ := Option.ite_none_right_eq_some.mp h
    cases heq
    exact hs.mono (fun _ => le_rfl) rfl

/-- **The data bus.** In every run a transfer begins after all bursts of earlier transfers of its
rank, and after the first burst of those of other ranks and the time to turn the bus around.
Transfers overlap only if they are of different ranks and the earlier one has several bursts. -/
theorem transfers_apart {actions : List (BusAction n m c)}
    (hrun : Run (Guarded (Fits p) (Steps (step p))) (init p) actions s) :
    s.transfers.Pairwise fun later e => e.free p later.rank later.writes ≤ later.start p ∧
      (later.start p < e.stop p → later.rank ≠ e.rank ∧ 1 < e.burstCount) := by
  have hinv : s.Inv p := hrun.invariant (P := Inv p)
    ⟨fun _ he => absurd he List.not_mem_nil, List.Pairwise.nil⟩
    fun s a t hs hstep => inv_step hs hstep.1 hstep.2
  refine hinv.apart.imp fun {later e} hfree => ⟨hfree, fun hlt => ?_⟩
  rw [Transfer.free] at hfree
  split at hfree
  · exact absurd hfree (not_le.mpr hlt)
  · rename_i hne
    refine ⟨hne, not_le.mp fun hone => ?_⟩
    rw [Transfer.stop, Nat.sub_eq_zero_of_le hone] at hlt
    omega

/-- A command to the only bank of a rank. -/
def rankCommand (type : OpType) (burstCount : ℕ) : NVMainRequest 1 1 :=
  { System.command type 0 with burstCount := burstCount }

/-- A read of two bursts takes the cycles 39 to 46, and a read of the other rank begins at
cycle 44. -/
theorem transfers_apart_two : ∃ s : Bus 1 1 2,
    Run (Guarded (Fits {}) (Steps (step {}))) (init {})
      [.advance 20, .issue 0 (rankCommand .activate 1), .issue 1 (rankCommand .activate 1),
        .advance 9, .issue 0 (rankCommand .read 2), .advance 5,
        .issue 1 (rankCommand .read 1)] s ∧
    s.transfers.map (Transfer.start {}) = [44, 39] ∧
    s.transfers.map (Transfer.stop {}) = [48, 47] ∧
    s.transfers.Pairwise fun later e => e.free {} later.rank later.writes ≤ later.start {} :=
  exists_run_guarded_imp (fun s => s.transfers.map (Transfer.start {}) = [44, 39] ∧
    s.transfers.map (Transfer.stop {}) = [48, 47]) (by decide +kernel) fun _ hrun hs =>
      ⟨hs.1, hs.2, (transfers_apart hrun).imp And.left⟩

end Bus

end HybridMemory.NVMain.CommandPath

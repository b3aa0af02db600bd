import HybridMemory.NVMain.DDR3Bank

/-!
# Ranks

A `StandardRank` passes the commands of the memory controller on to its banks. Most commands
go to one bank; powering down and up goes to all of them, and a refresh to a group. An
activation is spaced from the last one and from the one that is `raw` activations back.

* `issueCommand_of_meets`: a command that is issuable succeeds at every level, if its bank
  carries it out (`DDR3Bank.Meets`), and a `POWERUP` finds the rank in a powered down state;
* `meets_of_succeeds`: and only then.
-/

namespace HybridMemory.NVMain.CommandPath

open Broadcast Function

variable {n m : ℕ}

/-- The states of a rank. -/
inductive StandardRankState
  | opened
  | closed
  | refreshing
  | pdpf
  | pda
  | pdps
  deriving DecidableEq

/-- The powered down states. -/
def StandardRankState.isPowerDown : StandardRankState → Bool
  | pdpf | pda | pdps => true
  | opened | closed | refreshing => false

/-- The data members of a rank. -/
structure StandardRank (n m : ℕ) where
  nextRead : ℕ
  nextWrite : ℕ
  nextActivate : ℕ
  nextPrecharge : ℕ
  state : StandardRankState := .closed
  /-- The cycles of the last activations, as a ring. -/
  lastActivate : List ℕ
  rawIndex : ℕ := 0
  banks : Fin n → DDR3Bank n m
  /-- The events of this rank that are in the event queue. -/
  responses : List (Response n m) := []

/-- The commands that a rank passes on to the one bank that they name. -/
def OpType.namesBank : OpType → Bool
  | activate | read | readPrecharge | write | writePrecharge | precharge | prechargeAll => true
  | _ => false

namespace StandardRank

variable (p : Params) (now : ℕ) (r : NVMainRequest n m) (k : StandardRank n m)

/-- The rank as `SetConfig` leaves it. With `InitPD`, the banks are powered down. -/
def init : StandardRank n m where
  nextRead := p.tCMD
  nextWrite := p.tCMD
  nextActivate := p.tCMD
  nextPrecharge := p.tCMD
  lastActivate := List.replicate p.raw 0
  banks := fun _ => { state := if p.initPD then .pdpf else .closed }

/-- `Idle`. -/
def idle : Bool := decide (∀ b, (k.banks b).idle)

/-- The first cycle at which the window of the last activations allows another one. -/
def nextWindow : ℕ :=
  k.lastActivate.getD ((k.rawIndex + 1) % p.raw) 0 + p.tRAW

/-- Enter an activation into the ring. -/
def recordActivate : StandardRank n m :=
  let rawIndex := (k.rawIndex + 1) % p.raw
  { k with
    rawIndex := rawIndex
    lastActivate := k.lastActivate.set rawIndex now
    nextActivate := max k.nextActivate (now + p.tRRDR) }

/-- A call of `IssueCommand` on the bank `b`. -/
def callBank (b : Fin n) (r : NVMainRequest n m) (bank : DDR3Bank n m) :
    Option (Reply n m (DDR3Bank n m)) :=
  (bank.issueCommand p now b r).map (.relay (.bank b))

/-- Pass a command on to the bank that it names. -/
def passOn : Option (Reply n m (StandardRank n m)) :=
  (callBank p now r.bank r (k.banks r.bank)).map fun reply =>
    { object := { k with banks := update k.banks r.bank reply.object }
      rv := reply.rv
      rejections := if reply.rv then [] else [.child]
      calls := reply.calls }

/-- `Activate`. What the bank returns is ignored, and true is returned in any case. -/
def activate : Option (Reply n m (StandardRank n m)) :=
  if k.nextActivate ≤ now ∧ k.nextWindow p ≤ now then
    (k.passOn p now r).map fun reply =>
      let k := reply.object
      let k := if k.state = .closed then { k with state := .opened } else k
      .success (k.recordActivate p now) reply.calls
  else some { object := k, rv := true, rejections := [.timing] }

/-- The request of the rank's own that closes it after an implicit precharge. -/
def dupPRE : NVMainRequest n m :=
  { id := none, type := .precharge, bank := r.bank, subarray := r.subarray, owner := .rank }

/-- `Read`. -/
def read : Option (Reply n m (StandardRank n m)) :=
  if now < k.nextRead then some (.reject k .timing)
  else
    (k.passOn p now r).map fun reply => { reply with
      object := { reply.object with
        nextRead := max k.nextRead (now + p.burst * r.burstCount)
        nextWrite := max k.nextWrite
          (ncycle (now + p.leadingBursts r + p.tCAS + p.tBURST + p.tRTRS - p.tCWD))
        responses :=
          if r.type = .readPrecharge then
            k.responses ++ [⟨ncycle (p.leadingBursts r + now + p.tAL + p.tRTP), dupPRE r⟩]
          else k.responses } }

/-- `Write`. -/
def write : Option (Reply n m (StandardRank n m)) :=
  if now < k.nextWrite then some (.reject k .timing)
  else
    (k.passOn p now r).map fun reply => { reply with
      object := { reply.object with
        nextRead := max k.nextRead (ncycle (now + p.leadingBursts r + p.tCWD + p.tBURST + p.tWTR))
        nextWrite := max k.nextWrite (now + p.burst * r.burstCount)
        responses :=
          if r.type = .writePrecharge then
            k.responses ++ [⟨ncycle (now + p.leadingBursts r + p.tAL + p.tCWD + p.tBURST + p.tWR),
              dupPRE r⟩]
          else k.responses } }

/-- `Precharge`. -/
def precharge : Option (Reply n m (StandardRank n m)) :=
  (k.passOn p now r).map fun reply => { reply with
    object :=
      if reply.object.idle then { reply.object with state := .closed } else reply.object }

/-- The loop over banks of `PowerDown`, `PowerUp` and `Refresh`. -/
def callBanks (l : List (Fin n))
    (k : StandardRank n m) : Option (StandardRank n m × List (Reply n m (DDR3Bank n m))) :=
  (broadcast (callBank p now) Reply.object (fun _ => true) (l.map fun b => (b, r)) k.banks).map
    fun out => ({ k with banks := out.1 }, out.2.1)

/-- `CanPowerDown`. -/
def canPowerDown : Bool :=
  decide (k.state ≠ .refreshing ∧ ∀ b, (k.banks b).isIssuable p now r)

/-- `PowerDown`. It does not return if a bank fails and assertions are on. -/
def powerDown : Option (Reply n m (StandardRank n m)) :=
  (k.callBanks p now r (List.finRange n)).bind fun out =>
    if p.ndebug ∨ out.2.all Reply.rv then
      let k := { out.1 with responses := out.1.responses ++ [⟨now + p.tPD, r⟩] }
      let calls := out.2.flatMap Reply.calls
      match r.type with
      | .powerdownPDA => some (.success { k with state := .pda } calls)
      | .powerdownPDPF => some (.success { k with state := .pdpf } calls)
      | .powerdownPDPS => some (.success { k with state := .pdps } calls)
      | _ => some { object := k, rv := true, rejections := [.unknown], calls := calls }
    else none

/-- `CanPowerUp`. No answer if some banks can be powered up and others cannot, and assertions
are on. -/
def canPowerUp : Option Bool :=
  if p.ndebug ∨ (∀ b, (k.banks b).isIssuable p now r = false) ∨
      (∀ b, (k.banks b).isIssuable p now r) then
    some (decide (∀ b, (k.banks b).isIssuable p now r))
  else none

/-- `PowerUp`. A rank that is not in a powered down state is reported, after its banks were
powered up. -/
def powerUp : Option (Reply n m (StandardRank n m)) :=
  (k.callBanks p now r (List.finRange n)).bind fun out =>
    if p.ndebug ∨ out.2.all Reply.rv then
      let leave (puTimer : ℕ) (state : StandardRankState) : StandardRank n m :=
        { out.1 with
          state := state
          responses := out.1.responses ++ [⟨now + puTimer, r⟩] }
      let calls := out.2.flatMap Reply.calls
      match k.state with
      | .pda => some (.success (leave p.tXP .opened) calls)
      | .pdpf => some (.success (leave p.tXP .closed) calls)
      | .pdps => some (.success (leave p.tXPDLL .closed) calls)
      -- the error branch: the banks have been powered up, the state of the rank stays
      | _ => some
        { object := leave 1 k.state, rv := true, rejections := [.state], calls := calls }
    else none

/-- The banks that a refresh goes to. -/
def refreshGroup : List (Fin n) :=
  (List.finRange n).filter fun b => r.bank ≤ b ∧ b.val < r.bank.val + p.banksPerRefresh

/-- `Refresh`. What the banks return is ignored. -/
def refresh : Option (Reply n m (StandardRank n m)) :=
  if (p.ndebug ∨ k.nextActivate ≤ now) ∧ r.bank.val + p.banksPerRefresh ≤ n then
    (k.callBanks p now r.copy (refreshGroup p r)).map fun out =>
      let k : StandardRank n m := { out.1 with
        state := .refreshing
        responses := out.1.responses ++ [⟨now + p.tRFC, { r with owner := .rank }⟩] }
      .success (k.recordActivate p now) (out.2.flatMap Reply.calls)
  else none

/-- `IsIssuable`. No answer if an assertion fails, or if a refresh names a bank that does not
exist. -/
def isIssuable : Option Bool :=
  let child := (k.banks r.bank).isIssuable p now r
  match r.type with
  | .activate => some (decide ¬ (now < k.nextActivate ∨ now < k.nextWindow p) && child)
  | .read | .readPrecharge => some (decide ¬ (now < k.nextRead) && child)
  | .write | .writePrecharge => some (decide ¬ (now < k.nextWrite) && child)
  | .precharge | .prechargeAll => some (decide ¬ (now < k.nextPrecharge) && child)
  | .powerdownPDA | .powerdownPDPF | .powerdownPDPS => some (k.canPowerDown p now r)
  | .powerup => k.canPowerUp p now r
  | .refresh =>
    if now < k.nextActivate ∨ now < k.nextWindow p then some false
    else if r.bank.val + p.banksPerRefresh ≤ n then
      some ((refreshGroup p r).all fun b => (k.banks b).isIssuable p now r)
    else none
  | _ => some child

/-- `NextIssuable`. No answer for the commands without a case, if assertions are on. -/
def nextIssuable : Option ℕ :=
  let nextCompare :=
    match r.type with
    | .activate | .refresh => some (max k.nextActivate (k.nextWindow p))
    | .read | .readPrecharge => some k.nextRead
    | .write | .writePrecharge => some k.nextWrite
    | .precharge | .prechargeAll => some k.nextPrecharge
    | _ => if p.ndebug then some 0 else none
  nextCompare.map fun t => max ((k.banks r.bank).nextIssuable r) t

/-- `IssueCommand`. A command without a case is reported, and true is returned. -/
def issueCommand : Option (Reply n m (StandardRank n m)) :=
  (k.isIssuable p now r).bind fun issuable =>
    if issuable then
      match r.type with
      | .activate => k.activate p now r
      | .read | .readPrecharge => k.read p now r
      | .write | .writePrecharge => k.write p now r
      | .precharge | .prechargeAll => k.precharge p now r
      | .powerdownPDA | .powerdownPDPF | .powerdownPDPS => k.powerDown p now r
      | .powerup => k.powerUp p now r
      | .refresh => k.refresh p now r
      | _ => some { object := k, rv := true, rejections := [.unknown] }
    else some (.reject k .notIssuable)

/-- `Notify`: another rank of the bus reads or writes. -/
def notify : StandardRank n m :=
  match r.type with
  | .read | .readPrecharge => { k with
      nextRead := max k.nextRead (now + p.tBURST + p.tRTRS)
      nextWrite := max k.nextWrite (ncycle (now + p.tCAS + p.tBURST + p.tRTRS - p.tCWD)) }
  | .write | .writePrecharge => { k with
      nextWrite := max k.nextWrite (now + p.tBURST + p.tOST)
      nextRead := max k.nextRead (ncycle (now + p.tBURST + p.tCWD + p.tRTRS - p.tCAS)) }
  | _ => k

/-- `RequestComplete`. -/
def requestComplete : StandardRank n m :=
  if r.owner = .rank ∧ (r.type = .precharge ∨ r.type = .refresh) ∧ k.idle then
    { k with state := .closed }
  else k

/-! ### What is issuable succeeds -/

/-- Every bank keeps its invariant. -/
def Inv : Prop := ∀ b, (k.banks b).Inv

/-- The banks that a command addresses. -/
def addressedBanks : List (Fin n) :=
  match r.type with
  | .powerdownPDA | .powerdownPDPF | .powerdownPDPS | .powerup => List.finRange n
  | .refresh => refreshGroup p r
  | _ => [r.bank]

/-- The objects that a command addresses, in the order in which their `IssueCommand` returns. -/
def addressed : List (NVMObject n m) :=
  ((addressedBanks p r).flatMap fun b => ((k.banks b).addressed r).map (.subArray b) ++ [.bank b])
    ++ [.rank]

/-- Issued now, the command returns true from `IssueCommand` of every object that it
addresses, and no check of any of them refuses it. -/
def Succeeds : Prop :=
  (k.issueCommand p now r).map (Reply.log .rank) = some ((k.addressed p r).map Call.ok)

instance :
    Decidable (k.Succeeds p now r) :=
  inferInstanceAs (Decidable (_ = _))

/-- The bank can carry the command out, and a `POWERUP` finds the rank powered down. -/
def Meets : Prop :=
  (k.banks r.bank).Meets p r ∧ (r.type = .powerup → k.state.isPowerDown)

instance :
    Decidable (k.Meets p r) :=
  inferInstanceAs (Decidable (_ ∧ (_ → _)))

variable {p now r k} {b : Fin n} {bank : DDR3Bank n m} {reply : Reply n m (StandardRank n m)}

/-- The calls of a successful command to the bank `b`. -/
def bankCalls (b : Fin n) (r : NVMainRequest n m) (bank : DDR3Bank n m) : List (Call n m) :=
  bank.okCalls b r ++ [Call.ok (.bank b)]

/-- `DDR3Bank.issueCommand_of_meets`, as the rank sees it. -/
theorem callBank_of_meets (hbank : bank.Inv) (hi : bank.isIssuable p now r)
    (hmeets : bank.Meets p r) :
    ∃ bank', callBank p now b r bank = some (.success bank' (bankCalls b r bank)) ∧
      bank'.Inv := by
  obtain ⟨bank', heq, hinv⟩ := DDR3Bank.issueCommand_of_meets (b := b) hbank hi hmeets
  exact ⟨bank', by rw [callBank, heq]; rfl, hinv⟩

theorem map_ok_addressed :
    (k.addressed p r).map Call.ok =
      ((addressedBanks p r).flatMap fun b => bankCalls b r (k.banks b)) ++ [Call.ok .rank] := by
  simp [addressed, bankCalls, DDR3Bank.okCalls, List.map_flatMap, comp_def]

/-! ### Commands to one bank -/

theorem addressedBanks_of_namesBank (hr : r.type.namesBank) : addressedBanks p r = [r.bank] := by
  rcases htype : r.type <;> simp_all [OpType.namesBank, addressedBanks]

/-- The tests of the rank's commands are those of `IsIssuable`, so an issuable command to one
bank is passed on; the rank then changes neither the banks nor the calls, and a true of the bank
stays a true without a complaint. -/
theorem issueCommand_eq_passOn (hr : r.type.namesBank) (hi : k.isIssuable p now r = some true) :
    (k.banks r.bank).isIssuable p now r ∧
    ∃ finish, k.issueCommand p now r = (k.passOn p now r).map finish ∧
      ∀ reply, (finish reply).calls = reply.calls ∧
        (finish reply).object.banks = reply.object.banks ∧
        (reply.rv = true → reply.rejections = [] →
          (finish reply).rv = true ∧ (finish reply).rejections = []) := by
  simp only [issueCommand, hi, Option.bind_some, if_true]
  rcases htype : r.type <;> simp only [OpType.namesBank, htype, Bool.false_eq_true] at hr <;>
    simp only [isIssuable, htype, Option.some.injEq, Bool.and_eq_true, decide_eq_true_eq] at hi <;>
    obtain ⟨htime, hchild⟩ := hi <;> refine ⟨hchild, ?_⟩ <;> dsimp only
  case activate =>
    rw [not_or, not_lt, not_lt] at htime
    rw [activate, if_pos htime]
    refine ⟨_, rfl, fun reply => ⟨rfl, ?_, fun _ _ => ⟨rfl, rfl⟩⟩⟩
    simp only [Reply.success, recordActivate]
    split <;> rfl
  case read | readPrecharge =>
    rw [read, if_neg htime]
    exact ⟨_, rfl, fun reply => ⟨rfl, rfl, fun hrv hrej => ⟨hrv, hrej⟩⟩⟩
  case write | writePrecharge =>
    rw [write, if_neg htime]
    exact ⟨_, rfl, fun reply => ⟨rfl, rfl, fun hrv hrej => ⟨hrv, hrej⟩⟩⟩
  case precharge | prechargeAll =>
    refine ⟨_, rfl, fun reply => ⟨rfl, ?_, fun hrv hrej => ⟨hrv, hrej⟩⟩⟩
    dsimp only
    split <;> rfl

theorem inv_update (hk : k.Inv) (hbank : bank.Inv) :
    ({ k with banks := update k.banks b bank } : StandardRank n m).Inv := by
  intro b'
  by_cases h : b' = b
  · simpa [h] using hbank
  · simpa [update_of_ne h] using hk b'

theorem passOn_of_meets (hk : k.Inv) (hi : (k.banks r.bank).isIssuable p now r)
    (hmeets : (k.banks r.bank).Meets p r) :
    ∃ k', k.passOn p now r = some (.success k' (bankCalls r.bank r (k.banks r.bank))) ∧
      k'.Inv := by
  obtain ⟨bank', heq, hinv⟩ := callBank_of_meets (b := r.bank) (hk r.bank) hi hmeets
  exact ⟨_, by rw [passOn, heq]; rfl, inv_update hk hinv⟩

/-- An issuable command to one bank succeeds if the bank meets its condition. -/
theorem succeeds_of_namesBank (hk : k.Inv) (hr : r.type.namesBank)
    (hi : k.isIssuable p now r = some true) (hmeets : (k.banks r.bank).Meets p r) :
    ∃ reply, k.issueCommand p now r = some reply ∧
      reply.log .rank = (k.addressed p r).map Call.ok ∧ reply.object.Inv := by
  obtain ⟨hchild, finish, heq, hfinish⟩ := issueCommand_eq_passOn hr hi
  obtain ⟨k', hk', hinv⟩ := passOn_of_meets hk hchild hmeets
  obtain ⟨hcalls, hbanks, hok⟩ := hfinish (.success k' (bankCalls r.bank r (k.banks r.bank)))
  obtain ⟨hrv, hrejections⟩ := hok rfl rfl
  refine ⟨_, by rw [heq, hk']; rfl, ?_, fun b => by rw [hbanks]; exact hinv b⟩
  rw [map_ok_addressed, addressedBanks_of_namesBank hr, Reply.log, hcalls, hrv, hrejections]
  simp [Reply.success, Call.ok]

/-- If a command to one bank succeeds, the bank returned true and hence met its condition. -/
theorem meets_of_namesBank (hk : k.Inv) (hr : r.type.namesBank)
    (hi : k.isIssuable p now r = some true) (h : k.Succeeds p now r) :
    (k.banks r.bank).Meets p r := by
  obtain ⟨hchild, finish, heq, hfinish⟩ := issueCommand_eq_passOn hr hi
  obtain ⟨reply, hreply, hlog⟩ := Option.map_eq_some_iff.mp h
  obtain ⟨passed, hpassed, rfl⟩ := Option.map_eq_some_iff.mp (heq.symm.trans hreply)
  obtain ⟨relayed, hrelayed, rfl⟩ := Option.map_eq_some_iff.mp hpassed
  obtain ⟨bankReply, hbankReply, rfl⟩ := Option.map_eq_some_iff.mp hrelayed
  refine DDR3Bank.meets_of_issueCommand (hk r.bank) hchild hbankReply ?_
  -- the call on the bank is in the log, where every call returned true
  have hmem : (⟨.bank r.bank, bankReply.rv, bankReply.rejections⟩ : Call n m) ∈
      (k.addressed p r).map Call.ok := by
    rw [← hlog, Reply.log, (hfinish _).1]
    simp [Reply.relay, Reply.log]
  obtain ⟨o, -, ho⟩ := List.mem_map.mp hmem
  exact (congrArg Call.rv ho).symm

/-! ### Commands to several banks -/

/-- A loop over distinct banks, each of which answers the command, reaches all of them. -/
theorem callBanks_of_answers {l : List (Fin n)} (hl : l.Nodup)
    (answer : Fin n → Reply n m (DDR3Bank n m))
    (h : ∀ b ∈ l, callBank p now b r (k.banks b) = some (answer b)) :
    ∃ banks, k.callBanks p now r l = some ({ k with banks := banks }, l.map answer) := by
  have hnodup : ((l.map fun b => (b, r)).map Prod.fst).Nodup := by
    simpa [comp_def] using hl
  obtain ⟨t, ht⟩ := broadcast_of_nodup Reply.object (fun _ => true) (fun job => answer job.1)
    hnodup (List.forall_mem_map.mpr fun b hb => ⟨h b hb, rfl⟩)
  exact ⟨t, by simp [callBanks, ht]⟩

/-- What a loop over distinct banks has done: each of them became what its answer to the command
holds, and the others are unchanged. -/
theorem banks_of_callBanks {l : List (Fin n)} (hl : l.Nodup)
    {out : StandardRank n m × List (Reply n m (DDR3Bank n m))}
    (h : k.callBanks p now r l = some out) :
    (∀ b ∈ l, ∃ reply, callBank p now b r (k.banks b) = some reply ∧
      out.1.banks b = reply.object) ∧ ∀ b ∉ l, out.1.banks b = k.banks b := by
  obtain ⟨⟨t, ws, rest⟩, ht, rfl⟩ := Option.map_eq_some_iff.mp h
  obtain ⟨-, hjobs, hother⟩ := of_broadcast_of_nodup (by simpa [comp_def] using hl)
    (fun _ _ _ _ => rfl) ht
  refine ⟨fun b hb => hjobs (b, r) (List.mem_map_of_mem hb), fun b hb => hother b ?_⟩
  simpa [comp_def] using hb

/-- A loop over distinct banks, each of which can carry the command out, succeeds at all of
them. -/
theorem callBanks_of_meets {l : List (Fin n)} (hk : k.Inv) (hl : l.Nodup)
    (hi : ∀ b ∈ l, (k.banks b).isIssuable p now r)
    (hmeets : ∀ b ∈ l, (k.banks b).Meets p r) :
    ∃ banks replies, k.callBanks p now r l = some ({ k with banks := banks }, replies) ∧
      (∀ b, (banks b).Inv) ∧ replies.all Reply.rv = true ∧
      replies.flatMap Reply.calls = l.flatMap fun b => bankCalls b r (k.banks b) := by
  have hcall : ∀ b ∈ l, ∃ bank' : DDR3Bank n m, callBank p now b r (k.banks b) =
      some (.success bank' (bankCalls b r (k.banks b))) ∧ bank'.Inv := fun b hb =>
    callBank_of_meets (hk b) (hi b hb) (hmeets b hb)
  choose! bank' hbank' hinv using hcall
  obtain ⟨banks, hbanks⟩ := callBanks_of_answers hl
    (fun b => .success (bank' b) (bankCalls b r (k.banks b))) hbank'
  obtain ⟨hin, hout⟩ := banks_of_callBanks hl hbanks
  refine ⟨banks, _, hbanks, fun b => ?_, by simp [Reply.success], ?_⟩
  · by_cases hb : b ∈ l
    · obtain ⟨reply, hreply, hobject⟩ := hin b hb
      obtain rfl := Option.some.inj ((hbank' b hb).symm.trans hreply)
      rw [show banks b = bank' b from hobject]
      exact hinv b hb
    · rw [show banks b = k.banks b from hout b hb]
      exact hk b
  · simp [List.flatMap_map, Reply.success]

theorem addressedBanks_of_isPower (hr : r.type.isPower) :
    addressedBanks p r = List.finRange n := by
  rcases htype : r.type <;> simp_all [OpType.isPower, addressedBanks]

theorem powerDown_of_isIssuable (hk : k.Inv)
    (hr : r.type = .powerdownPDA ∨ r.type = .powerdownPDPF ∨ r.type = .powerdownPDPS)
    (hi : ∀ b, (k.banks b).isIssuable p now r) :
    ∃ k', k.powerDown p now r = some (.success k'
      ((List.finRange n).flatMap fun b => bankCalls b r (k.banks b))) ∧ k'.Inv := by
  have hpower : r.type.isPower := by rcases hr with hr | hr | hr <;> rw [hr] <;> rfl
  obtain ⟨banks, replies, heq, hinv, hall, hcalls⟩ := callBanks_of_meets hk
    (List.nodup_finRange n) (fun b _ => hi b) fun b _ => DDR3Bank.meets_of_isPower hpower
  simp only [powerDown, heq, Option.bind_some, hall, or_true, if_true, hcalls]
  rcases hr with hr | hr | hr <;> simp only [hr] <;> exact ⟨_, rfl, hinv⟩

/-- `PowerUp` reports a rank that is not powered down, and only such a rank. -/
theorem powerUp_of_isIssuable (hk : k.Inv) (hr : r.type = .powerup)
    (hi : ∀ b, (k.banks b).isIssuable p now r) :
    ∃ k', k.powerUp p now r = some
      { object := k'
        rv := true
        rejections := if k.state.isPowerDown then [] else [.state]
        calls := (List.finRange n).flatMap fun b => bankCalls b r (k.banks b) } ∧ k'.Inv := by
  obtain ⟨banks, replies, heq, hinv, hall, hcalls⟩ := callBanks_of_meets hk
    (List.nodup_finRange n) (fun b _ => hi b)
    fun b _ => DDR3Bank.meets_of_isPower (by rw [hr]; rfl)
  simp only [powerUp, heq, Option.bind_some, hall, or_true, if_true, hcalls]
  rcases hstate : k.state <;> exact ⟨_, rfl, hinv⟩

/-- A refresh looks at the type and the address of a request only, which a copy has. -/
theorem isIssuable_copy (hr : r.type = .refresh) :
    bank.isIssuable p now r.copy = bank.isIssuable p now r := by
  simp [DDR3Bank.isIssuable, SubArray.isIssuable, NVMainRequest.copy, hr]

theorem refresh_of_isIssuable (hk : k.Inv) (hr : r.type = .refresh)
    (hi : k.isIssuable p now r = some true) :
    ∃ k', k.refresh p now r = some (.success k'
      ((refreshGroup p r).flatMap fun b => bankCalls b r (k.banks b))) ∧ k'.Inv := by
  simp only [isIssuable, hr] at hi
  split at hi
  · simp at hi
  split at hi
  · rename_i htime hgroup
    rw [not_or, not_lt, not_lt] at htime
    simp only [Option.some.injEq, List.all_eq_true] at hi
    obtain ⟨banks, replies, heq, hinv, -, hcalls⟩ := callBanks_of_meets (r := r.copy) hk
      ((List.nodup_finRange n).filter _)
      (fun b hb => (isIssuable_copy hr).trans (hi b hb))
      fun b _ => DDR3Bank.meets_of_refresh hr
    have hcopy : ∀ b, bankCalls b r.copy (k.banks b) = bankCalls b r (k.banks b) := fun b => by
      simp [bankCalls, DDR3Bank.okCalls, DDR3Bank.addressed, NVMainRequest.copy, hr]
    rw [refresh, if_pos ⟨Or.inr htime.1, hgroup⟩, refreshGroup, heq]
    simp only [Option.map_some, hcalls, hcopy]
    exact ⟨_, rfl, hinv⟩
  · simp at hi

/-! ### The rank as a whole -/

/-- The commands that can be issuable: to one bank, to all of them, and to a group. -/
theorem type_of_isIssuable (hi : k.isIssuable p now r = some true) :
    r.type.namesBank ∨ r.type.isPower ∨ r.type = .refresh := by
  rcases htype : r.type <;> simp [OpType.namesBank, OpType.isPower, isIssuable,
    DDR3Bank.isIssuable, SubArray.isIssuable, htype] at hi ⊢

/-- A command that concerns the power and is accepted is issuable at every bank. -/
theorem forall_isIssuable_of_isPower (hr : r.type.isPower) (hi : k.isIssuable p now r = some true)
    (b : Fin n) : (k.banks b).isIssuable p now r := by
  rcases OpType.isPower_iff.mp hr with hr | hr | hr | hr <;>
    simp only [isIssuable, hr, canPowerUp, canPowerDown, Option.ite_none_right_eq_some,
      Option.some.injEq, decide_eq_true_eq] at hi <;> exact hi.2 b

/-- Commands that concern the power are issuable if they are at every bank. -/
theorem issueCommand_of_isPower (hk : k.Inv) (hr : r.type.isPower)
    (hi : k.isIssuable p now r = some true) :
    ∃ k', k.issueCommand p now r = some
      { object := k'
        rv := true
        rejections := if r.type = .powerup ∧ k.state.isPowerDown = false then [.state] else []
        calls := (List.finRange n).flatMap fun b => bankCalls b r (k.banks b) } ∧ k'.Inv := by
  have hbanks := forall_isIssuable_of_isPower hr hi
  simp only [issueCommand, hi, Option.bind_some, if_true]
  rcases OpType.isPower_iff.mp hr with hup | hdown
  · obtain ⟨k', heq, hinv⟩ := powerUp_of_isIssuable hk hup hbanks
    refine ⟨k', ?_, hinv⟩
    simp only [hup, heq]
    cases k.state.isPowerDown <;> simp
  · obtain ⟨k', heq, hinv⟩ := powerDown_of_isIssuable hk hdown hbanks
    refine ⟨k', ?_, hinv⟩
    rcases hdown with hr | hr | hr <;> simpa [hr, Reply.success] using heq

/-- A command that is issuable and meets the condition succeeds at every level, and keeps the
invariant. -/
theorem issueCommand_of_meets (hk : k.Inv) (hi : k.isIssuable p now r = some true)
    (hmeets : k.Meets p r) :
    ∃ reply, k.issueCommand p now r = some reply ∧
      reply.log .rank = (k.addressed p r).map Call.ok ∧ reply.object.Inv := by
  rcases type_of_isIssuable hi with hr | hr | hr
  · exact succeeds_of_namesBank hk hr hi hmeets.1
  · obtain ⟨k', heq, hinv⟩ := issueCommand_of_isPower hk hr hi
    refine ⟨_, heq, ?_, hinv⟩
    have hstate : ¬ (r.type = .powerup ∧ k.state.isPowerDown = false) := fun h => by
      simp [hmeets.2 h.1] at h
    rw [map_ok_addressed, addressedBanks_of_isPower hr, Reply.log, if_neg hstate]
    rfl
  · obtain ⟨k', heq, hinv⟩ := refresh_of_isIssuable hk hr hi
    refine ⟨_, by simpa [issueCommand, hi, hr] using heq, ?_, hinv⟩
    rw [map_ok_addressed]
    simp [Reply.log, Reply.success, addressedBanks, hr, Call.ok]

/-- A command that is issuable and succeeds at every level meets the condition. -/
theorem meets_of_succeeds (hk : k.Inv) (hi : k.isIssuable p now r = some true)
    (h : k.Succeeds p now r) : k.Meets p r := by
  rcases type_of_isIssuable hi with hr | hr | hr
  · refine ⟨meets_of_namesBank hk hr hi h, fun hup => ?_⟩
    simp [hup, OpType.namesBank] at hr
  · refine ⟨DDR3Bank.meets_of_isPower hr, fun hup => ?_⟩
    obtain ⟨k', heq, -⟩ := issueCommand_of_isPower hk hr hi
    by_contra hstate
    -- the complaint about the state is in the log
    rw [Succeeds, heq, Option.map_some, map_ok_addressed, Option.some.injEq, Reply.log] at h
    have hlast := congrArg List.getLast? h
    simp [hup, hstate, Call.ok] at hlast
  · exact ⟨DDR3Bank.meets_of_refresh hr, fun hup => by simp [hup] at hr⟩

end StandardRank

end HybridMemory.NVMain.CommandPath

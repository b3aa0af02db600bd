import HybridMemory.NVMain.BankRuns
import HybridMemory.NVMain.CommandPath

/-!
# Powering a rank down and up

A rank powers all of its banks down and up together. It does not record anywhere that they are
together: `CanPowerUp` asks every bank and asserts that the answers agree, and `PowerDown` and
`PowerUp` assert that every bank carries the command out.

What a bank answers depends on whether it is powered down and on the cycle from which it may
power up, the pair `DDR3Bank.power`. The state itself can differ from bank to bank, as
`POWERDOWN_PDA` puts open banks and closed banks into different states.

* `DDR3Bank.power_issueCommand`: a command that does not concern the power leaves the pair as
  it is, since no other command is issuable at a bank that is powered down;
* `DDR3Bank.issueCommand_eq_accept`: one that does is carried out, if it is issuable, and its
  effect on the pair is the same at every bank;
* `System.power_agree`: in every run the banks agree, and none of the assertions fails.
-/

namespace HybridMemory.NVMain.CommandPath

open Transition Function

variable {n m : ℕ}

/-! ### Banks -/

namespace DDR3Bank

variable {p : Params} {now : ℕ} {b : Fin n} {a : Fin m} {r : NVMainRequest n m}
  {k k' : DDR3Bank n m} {bounds : Bounds} {reply : Reply n m (DDR3Bank n m)}

/-- Whether the bank is powered down, and the cycle from which it may power up. -/
def power (k : DDR3Bank n m) : Bool × ℕ := (k.state.isPowerDown, k.nextPowerUp)

theorem power_deactivate (a : Fin m) (hk : k.state.isPowerDown = false) :
    (k.deactivate a).power = k.power := by
  simp only [power, deactivate]
  split
  · rw [hk]
    rfl
  · rfl

/-- A bank that is not powered down records a command without being powered down. -/
theorem power_record (hk : k.state.isPowerDown = false) : (record r k).power = k.power := by
  unfold record
  split
  · exact Prod.ext hk.symm rfl
  all_goals first | exact power_deactivate _ hk | rfl

theorem power_passOn (hk : k.state.isPowerDown = false)
    (h : k.passOn p now b r bounds (record r) = some reply) : reply.object.power = k.power := by
  obtain ⟨answer, -, rfl⟩ := Option.map_eq_some_iff.mp h
  dsimp only
  split
  · exact power_record hk
  · rfl

theorem power_prechargeAll (hk : k.state.isPowerDown = false)
    (h : k.prechargeAll p now b r bounds = some reply) : reply.object.power = k.power := by
  obtain ⟨out, -, rfl⟩ := Option.map_eq_some_iff.mp h
  simp only [power]
  split
  · rw [hk]
    rfl
  · rfl

/-- At a bank that is powered down, only `POWERUP` can be issuable. -/
theorem isPowerDown_of_isIssuable (hr : r.type.isPower = false) (hi : k.isIssuable p now r) :
    k.state.isPowerDown = false := by
  cases hstate : k.state <;> try rfl
  all_goals
    rcases type_of_isIssuable hi with hnames | hall | hpower
    · rcases htype : r.type <;>
        simp [OpType.namesSubArray, isIssuable, htype, hstate, DDR3BankState.isPowerDown]
          at hnames hi
    · simp [isIssuable, hall, hstate] at hi
    · simp [hpower] at hr

/-- A command that does not concern the power leaves it as it is. -/
theorem power_issueCommand (hr : r.type.isPower = false)
    (h : k.issueCommand p now b r = some reply) : reply.object.power = k.power := by
  by_cases hi : k.isIssuable p now r = true
  · have hk := isPowerDown_of_isIssuable hr hi
    cases issued_of_isIssuable hi h with
    | passesOn reply hnames h => exact power_passOn hk h
    | refuses htype hstate hempty => rfl
    | prechargesAll reply hall hchildren h => exact power_prechargeAll hk h
    | powersDown hdown hstate =>
      rcases hdown with htype | htype | htype <;> simp [htype, OpType.isPower] at hr
    | powersUp htype hstate => exact absurd (hk.symm.trans hstate) Bool.false_ne_true
  · rw [issueCommand, if_neg hi] at h
    cases h
    rfl

/-- The power of a bank after a command that concerns it. -/
def powerAfter (p : Params) (now : ℕ) (r : NVMainRequest n m) (power : Bool × ℕ) : Bool × ℕ :=
  if r.type = .powerup then (false, power.2) else (true, max power.2 (now + p.tPD))

/-- A command that concerns the power is carried out, if it is issuable. -/
theorem issueCommand_eq_accept (b : Fin n) (hr : r.type.isPower) (hi : k.isIssuable p now r) :
    ∃ k', k.issueCommand p now b r = some (.accept k') ∧ k'.power = powerAfter p now r k.power := by
  rcases OpType.isPower_iff.mp hr with hup | hdown
  · refine ⟨_, (issueCommand_of_powerup hup hi).2, ?_⟩
    simp only [power, poweredUp, powerAfter, hup, if_true]
    split <;> rfl
  · have hne : r.type ≠ .powerup := fun hup => by simp [hup] at hdown
    refine ⟨_, (issueCommand_of_powerdown hdown hi).2, ?_⟩
    simp only [power, poweredDown, powerAfter, if_neg hne]
    split_ifs <;> rfl

/-- Whether a bank may power up depends on its power only. -/
theorem isIssuable_congr_power (hr : r.type = .powerup) (h : k.power = k'.power) :
    k.isIssuable p now r = k'.isIssuable p now r := by
  obtain ⟨hstate, hnext⟩ := Prod.ext_iff.mp h
  simp only [power] at hstate hnext
  simp [isIssuable, SubArray.isIssuable, hr, hstate, hnext]

/-- An open bank is powered down with `POWERDOWN_PDA` only. -/
theorem type_of_isIssuable_of_opened (hr : r.type.isPower) (hopen : k.state = .opened)
    (hi : k.isIssuable p now r) : r.type = .powerdownPDA := by
  rcases htype : r.type <;> simp only [OpType.isPower, htype, Bool.false_eq_true] at hr <;>
    simp [isIssuable, htype, hopen, DDR3BankState.isPowerDown] at hi ⊢

end DDR3Bank

/-! ### Ranks -/

namespace StandardRank

variable {p : Params} {now : ℕ} {b : Fin n} {r : NVMainRequest n m} {k : StandardRank n m}
  {bank : DDR3Bank n m} {reply : Reply n m (StandardRank n m)}

/-- All banks of the rank have the same power. -/
def SamePower (k : StandardRank n m) : Prop := ∃ power, ∀ b, (k.banks b).power = power

theorem power_callBank {answer : Reply n m (DDR3Bank n m)} (hr : r.type.isPower = false)
    (h : callBank p now b r bank = some answer) : answer.object.power = bank.power := by
  obtain ⟨reply, hreply, rfl⟩ := Option.map_eq_some_iff.mp h
  show reply.object.power = bank.power
  exact DDR3Bank.power_issueCommand hr hreply

theorem SamePower.update (hk : k.SamePower) (hbank : bank.power = (k.banks b).power) :
    ({ k with banks := update k.banks b bank } : StandardRank n m).SamePower := by
  obtain ⟨power, hpower⟩ := hk
  refine ⟨power, (forall_update_iff k.banks fun _ bank => bank.power = power).mpr
    ⟨hbank.trans (hpower b), fun b' _ => hpower b'⟩⟩

/-- A command to one bank does not concern the power. -/
theorem SamePower.issueCommand_of_namesBank (hk : k.SamePower) (hr : r.type.namesBank)
    (hi : k.isIssuable p now r = some true) (h : k.issueCommand p now r = some reply) :
    reply.object.SamePower := by
  have hpower : r.type.isPower = false := by
    rcases htype : r.type <;> simp [OpType.namesBank, OpType.isPower, htype] at hr ⊢
  obtain ⟨-, finish, heq, hfinish⟩ := issueCommand_eq_passOn hr hi
  obtain ⟨passed, hpassed, rfl⟩ := Option.map_eq_some_iff.mp (heq.symm.trans h)
  obtain ⟨answer, hanswer, rfl⟩ := Option.map_eq_some_iff.mp hpassed
  simp only [SamePower, (hfinish _).2.1]
  exact hk.update (power_callBank hpower hanswer)

/-- A refresh goes to some of the banks, and does not concern the power. -/
theorem SamePower.refresh (hk : k.SamePower) (hr : r.type = .refresh)
    (h : k.refresh p now r = some reply) : reply.object.SamePower := by
  obtain ⟨power, hpower⟩ := hk
  obtain ⟨-, h⟩ := Option.ite_none_right_eq_some.mp h
  obtain ⟨out, hout, rfl⟩ := Option.map_eq_some_iff.mp h
  obtain ⟨hin, hother⟩ := banks_of_callBanks ((List.nodup_finRange n).filter _) hout
  refine ⟨power, fun b => ?_⟩
  show (out.1.banks b).power = power
  by_cases hb : b ∈ refreshGroup p r
  · obtain ⟨answer, hanswer, hobject⟩ := hin b hb
    rw [hobject, power_callBank (by simp [NVMainRequest.copy, hr, OpType.isPower]) hanswer]
    exact hpower b
  · rw [hother b hb]
    exact hpower b

/-- A loop over all banks with a command that concerns the power and is issuable at all of
them: all carry it out, and those that had the same power have the same power again. -/
theorem callBanks_of_isPower (hr : r.type.isPower) (hi : ∀ b, (k.banks b).isIssuable p now r) :
    ∃ k' replies, k.callBanks p now r (List.finRange n) = some (k', replies) ∧
      replies.all Reply.rv = true ∧ (k.SamePower → k'.SamePower) := by
  choose bank' hbank' hpower using fun b => DDR3Bank.issueCommand_eq_accept b hr (hi b)
  have hcall : ∀ b ∈ List.finRange n, callBank p now b r (k.banks b) =
      some (.relay (.bank b) (.accept (bank' b))) := fun b _ => by rw [callBank, hbank' b]; rfl
  obtain ⟨banks, hbanks⟩ := callBanks_of_answers (List.nodup_finRange n) _ hcall
  refine ⟨_, _, hbanks, by simp [Reply.relay, Reply.accept], ?_⟩
  rintro ⟨power, hsame⟩
  refine ⟨DDR3Bank.powerAfter p now r power, fun b => ?_⟩
  obtain ⟨answer, hanswer, hobject⟩ :=
    (banks_of_callBanks (List.nodup_finRange n) hbanks).1 b (List.mem_finRange b)
  obtain rfl := Option.some.inj ((hcall b (List.mem_finRange b)).symm.trans hanswer)
  rw [hobject, ← hsame b]
  exact hpower b

/-- `PowerDown` and `PowerUp` return if all banks carry the command out, and change no bank
after the loop. -/
theorem issueCommand_of_callBanks {k' : StandardRank n m}
    {replies : List (Reply n m (DDR3Bank n m))}
    (hr : r.type.isPower) (hi : k.isIssuable p now r = some true)
    (hcalls : k.callBanks p now r (List.finRange n) = some (k', replies))
    (hall : replies.all Reply.rv = true) :
    ∃ reply, k.issueCommand p now r = some reply ∧ reply.object.banks = k'.banks := by
  simp only [issueCommand, hi, Option.bind_some, if_true]
  rcases htype : r.type <;> simp only [OpType.isPower, htype, Bool.false_eq_true] at hr <;>
    simp only [powerDown, powerUp, hcalls, htype, Option.bind_some, hall, or_true, if_true]
  case powerup => cases k.state <;> exact ⟨_, rfl, rfl⟩
  all_goals exact ⟨_, rfl, rfl⟩

/-- A command that the rank carries out keeps the power of the banks the same. -/
theorem SamePower.issueCommand (hk : k.SamePower) (h : k.issueCommand p now r = some reply) :
    reply.object.SamePower := by
  obtain ⟨issuable, hi, hrest⟩ := Option.bind_eq_some_iff.mp h
  cases issuable with
  | false =>
    cases hrest
    exact hk
  | true =>
    rcases type_of_isIssuable hi with hr | hr | hr
    · exact hk.issueCommand_of_namesBank hr hi h
    · obtain ⟨k', replies, hcalls, hall, hsame⟩ :=
        callBanks_of_isPower hr (forall_isIssuable_of_isPower hr hi)
      obtain ⟨reply', heq, hbanks⟩ := issueCommand_of_callBanks hr hi hcalls hall
      obtain rfl := Option.some.inj (heq.symm.trans h)
      simpa only [SamePower, hbanks] using hsame hk
    · simp only [if_true, hr] at hrest
      exact hk.refresh hr hrest

end StandardRank

/-! ### Runs -/

namespace System

variable {p : Params} {s t : System n m} {r : NVMainRequest n m}

theorem samePower_init : (init p : System n m).rank.SamePower :=
  ⟨DDR3Bank.power { state := if p.initPD then .pdpf else .closed : DDR3Bank n m }, fun _ => rfl⟩

theorem samePower_requestComplete {k : StandardRank n m} (hk : k.SamePower) :
    (k.requestComplete r).SamePower := by
  unfold StandardRank.requestComplete
  split <;> exact hk

theorem samePower_step {a : Action n m} (hs : s.rank.SamePower) (h : step p s a = some t) :
    t.rank.SamePower := by
  cases a with
  | issue r =>
    obtain ⟨reply, hreply, rfl⟩ := Option.map_eq_some_iff.mp h
    exact hs.issueCommand hreply
  | notify r =>
    cases h
    dsimp only [StandardRank.notify]
    split <;> exact hs
  | completeSubArray b a i =>
    simp only [step] at h
    split at h
    · obtain ⟨-, heq⟩ := Option.ite_none_right_eq_some.mp h
      cases heq
      unfold completeSubArray
      dsimp only
      -- the completion changes the subarray only, and a request handed on the rank's own state
      generalize SubArray.requestComplete p s.now (.subArray b a) _ _ = out
      let bank := { s.rank.banks b with
        subArrays := update (s.rank.banks b).subArrays a out.1 }
      have hpower : bank.power = (s.rank.banks b).power := rfl
      have hbank := hs.update hpower
      cases out.2 with
      | none => exact hbank
      | some r => exact samePower_requestComplete hbank
    · cases h
  | completeRank i =>
    simp only [step] at h
    split at h
    · obtain ⟨-, heq⟩ := Option.ite_none_right_eq_some.mp h
      cases heq
      exact samePower_requestComplete hs
    · cases h
  | advance cycles =>
    obtain ⟨-, heq⟩ := Option.ite_none_right_eq_some.mp h
    cases heq
    exact hs

/-- **The banks of a rank agree about power.** In every run all banks are powered down or none
is, and at every cycle all of them may power up or none may, which is what `CanPowerUp`
asserts. A command to power down or up that is accepted is carried out by every bank, as
`PowerDown` and `PowerUp` assert, and open banks are powered down with `POWERDOWN_PDA` only, as
the banks assert. -/
theorem power_agree {actions : List (Action n m)}
    (hrun : Run (Steps (step p)) (init p) actions s) :
    ((∀ b, (s.rank.banks b).state.isPowerDown = true) ∨
      ∀ b, (s.rank.banks b).state.isPowerDown = false) ∧
    (∀ r : NVMainRequest n m, r.type = .powerup →
      (∀ now, (∀ b, (s.rank.banks b).isIssuable p now r = true) ∨
        ∀ b, (s.rank.banks b).isIssuable p now r = false) ∧
      (s.rank.canPowerUp p s.now r).isSome) ∧
    ∀ r : NVMainRequest n m, r.type.isPower → s.Accepts p r →
      (∀ b, (s.rank.banks b).state = .opened → r.type = .powerdownPDA) ∧
      (∃ k replies, s.rank.callBanks p s.now r (List.finRange n) = some (k, replies) ∧
        ∀ reply ∈ replies, reply.rv = true) ∧
      (s.rank.issueCommand p s.now r).isSome := by
  obtain ⟨power, hpower⟩ : s.rank.SamePower := hrun.invariant
    (P := fun s : System n m => s.rank.SamePower) samePower_init
    fun s a t hs hstep => samePower_step hs hstep
  refine ⟨?_, fun r hr => ?_, fun r hr hi => ?_⟩
  · have hdown : ∀ b, (s.rank.banks b).state.isPowerDown = power.1 := fun b =>
      congrArg Prod.fst (hpower b)
    simp only [hdown]
    cases power.1 <;> simp
  · have hissuable : ∀ now, (∀ b, (s.rank.banks b).isIssuable p now r = true) ∨
        ∀ b, (s.rank.banks b).isIssuable p now r = false := fun now => by
      have hcongr : ∀ b, (s.rank.banks b).isIssuable p now r =
          (s.rank.banks r.bank).isIssuable p now r := fun b =>
        DDR3Bank.isIssuable_congr_power hr ((hpower b).trans (hpower r.bank).symm)
      simp only [hcongr]
      cases (s.rank.banks r.bank).isIssuable p now r <;> simp
    refine ⟨hissuable, ?_⟩
    rw [StandardRank.canPowerUp, if_pos (Or.inr (hissuable s.now).symm)]
    rfl
  · have hbanks := StandardRank.forall_isIssuable_of_isPower hr hi
    obtain ⟨k, replies, hcalls, hall, -⟩ := StandardRank.callBanks_of_isPower hr hbanks
    obtain ⟨reply, hreply, -⟩ := StandardRank.issueCommand_of_callBanks hr hi hcalls hall
    refine ⟨fun b hopen => ?_, ⟨k, replies, hcalls, by simpa using hall⟩, by simp [hreply]⟩
    exact DDR3Bank.type_of_isIssuable_of_opened hr hopen (hbanks b)

/-- A command to the only subarray of one of two banks. -/
def bankCommand (type : OpType) (b : Fin 2) : NVMainRequest 2 1 :=
  { id := some 0, type := type, bank := b, subarray := Fin.last 0 }

/-- One bank is open and the other one closed when the rank is powered down. They are in
different states, and may power up at the same cycles. -/
theorem power_agree_open_closed : ∃ s : System 2 1,
    Run (Steps (step .defaults)) (init .defaults)
      [.advance 20, .issue (bankCommand .activate 0), .advance 24,
        .issue (bankCommand .powerdownPDA 0), .completeSubArray 0 0 0, .advance 6] s ∧
    (s.rank.banks 0).state = .pda ∧ (s.rank.banks 1).state = .pdpf ∧
    s.Accepts .defaults (bankCommand .powerup 1) ∧
    (∀ now, (∀ b, (s.rank.banks b).isIssuable .defaults now (bankCommand .powerup 1) = true) ∨
      ∀ b, (s.rank.banks b).isIssuable .defaults now (bankCommand .powerup 1) = false) ∧
    (s.rank.issueCommand .defaults s.now (bankCommand .powerup 1)).isSome := by
  refine exists_run_imp (fun s => (s.rank.banks 0).state = .pda ∧ (s.rank.banks 1).state = .pdpf ∧
    s.Accepts .defaults (bankCommand .powerup 1)) (by decide +kernel) fun s hrun hs => ?_
  obtain ⟨hpda, hpdpf, haccepts⟩ := hs
  obtain ⟨-, hup, hcommands⟩ := power_agree hrun
  exact ⟨hpda, hpdpf, haccepts, (hup _ rfl).1, (hcommands _ rfl haccepts).2.2⟩

end System

end HybridMemory.NVMain.CommandPath

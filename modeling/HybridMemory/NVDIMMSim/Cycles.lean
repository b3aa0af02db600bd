import HybridMemory.Lib.Partial
import HybridMemory.NVDIMMSim.AddressMap

/-!
# The cycles of the collecting layer

What a step of `GCFtl` does to the tables of pages, whatever the transaction is. Most functions
leave them alone (`Keeps`); a write marks the old page and may take another one, a read from the
disk takes a page, and an erase clears a block (`handleWrite_keeps`, `Effect`).

* `step_cases`: the ways a step can go;
* `step_moves`: the live pages that were found in picked blocks stay on record.
-/

namespace HybridMemory.NVDIMMSim

open Partial

namespace Ftl

variable {cfg : Config} {s t u : Ftl} {q : ℕ × ℕ} {type : ChannelPacketType} {accepts : Bool}

/-! ### Frames -/

/-- The write queue is not longer, and no live page that was found is taken off the record. -/
structure Advances (s t : Ftl) : Prop where
  writeQueue : t.writeQueue.length ≤ s.writeQueue.length := by exact Nat.le_refl _
  moves : s.moves <+: t.moves := by exact List.prefix_rfl

/-- Steps that advance compose. -/
theorem Advances.trans (hst : Advances s t) (htu : Advances t u) : Advances s u :=
  ⟨Nat.le_trans htu.writeQueue hst.writeQueue, hst.moves.trans htu.moves⟩

/-- Moreover the tables and their counters are the same. -/
structure Keeps (s t : Ftl) : Prop extends Advances s t where
  used : t.used = s.used := by rfl
  usedPageCount : t.usedPageCount = s.usedPageCount := by rfl
  dirty : t.dirty = s.dirty := by rfl
  dirtyPageCount : t.dirtyPageCount = s.dirtyPageCount := by rfl

theorem Keeps.refl (s : Ftl) : Keeps s s := {}

theorem Keeps.trans (hst : Keeps s t) (htu : Keeps t u) : Keeps s u where
  toAdvances := hst.toAdvances.trans htu.toAdvances
  used := htu.used.trans hst.used
  usedPageCount := htu.usedPageCount.trans hst.usedPageCount
  dirty := htu.dirty.trans hst.dirty
  dirtyPageCount := htu.dirtyPageCount.trans hst.dirtyPageCount

/-- Taking the current transaction from its queue keeps the tables. -/
theorem popFront_keeps : Yields (Keeps s) (s.popFront cfg type) := by
  unfold popFront
  split_ifs
  · split
    · exact yields_none
    · exact yields_some {}
  · exact yields_bind fun i _ => yields_some {}
  · split
    · exact yields_none
    · next w queue hqueue =>
      exact yields_some { writeQueue := by rw [hqueue]; exact Nat.le_succ _ }
  · exact yields_some {}
  · split
    · exact yields_none
    · exact yields_some {}

/-- So does the end of a read. -/
theorem readDone_keeps (h : s.readDone cfg type = some t) : Keeps s t := by
  obtain ⟨u, hu, rfl⟩ := Option.map_eq_some_iff.mp h
  obtain ⟨handled, gcHandled, hnote⟩ := note_eq s
  have hpop := popFront_keeps u hu
  rw [hnote] at hpop
  exact { hpop with }

/-! ### Reads, writes and erases -/

/-- A read that is refused stays where it is. -/
theorem readRefused_cases (h : s.readRefused cfg = some t) :
    (cfg.schedule = true ∧ ∃ readPointer readQueuesFull readIteratorCounter, t = { s with
      readPointer := readPointer, readQueuesFull := readQueuesFull
      readIteratorCounter := readIteratorCounter, busy := false }) ∨
    cfg.schedule = false ∧ t = { s with writeQueuesFull := true } := by
  unfold readRefused at h
  by_cases hschedule : cfg.schedule
  · rw [if_pos hschedule] at h
    obtain ⟨i, -, h⟩ := Option.bind_eq_some_iff.mp h
    split at h
    · exact Or.inl ⟨hschedule, _, _, _, (Option.some.inj h).symm⟩
    · exact Or.inl ⟨hschedule, _, _, _, (Option.some.inj h).symm⟩
  · rw [if_neg hschedule] at h
    exact Or.inr ⟨by simpa using hschedule, (Option.some.inj h).symm⟩

/-- What a read does before it is answered or refused: it waits for data from the write queue,
goes to the device for the collector, or has a page placed for its address. -/
inductive ReadBegun (cfg : Config) (s : Ftl) : Bool → Ftl → Prop
  | queue (gc : Bool) (n : ℕ) : ReadBegun cfg s gc { s with queueAccessCounter := n }
  | gc (vAddrs : List ℕ) : ReadBegun cfg s true { s with gcReads := vAddrs }
  | disk (u : Ftl) (q : ℕ × ℕ) (hq : q.2 < cfg.pagesPerBlock ∧ s.used q = false)
      (hlookup : s.addressMap.lookup s.currentTransaction.address = none)
      (hu : Retuned (s.place cfg s.currentTransaction.address q) u) : ReadBegun cfg s false u

/-- What a read can do. -/
theorem handleRead_cases {gc : Bool} (h : s.handleRead cfg gc accepts = some t) :
    (∃ n deadlockCounter,
      t = { s with queueAccessCounter := n, deadlockCounter := deadlockCounter }) ∨
    ∃ u, ReadBegun cfg s gc u ∧ (u.readDone cfg (if gc then .gcRead else .read) = some t ∨
      u.readRefused cfg = some t) := by
  have hself : ReadBegun cfg s gc s := .queue gc s.queueAccessCounter
  simp only [handleRead, readMapped] at h
  split at h
  · rename_i hqueue
    obtain rfl : gc = false := by simpa using hqueue.1
    split at h
    · exact Or.inr ⟨_, .queue false _, Or.inl h⟩
    · exact Or.inl ⟨_, _, (Option.some.inj h).symm⟩
  · split at h
    · exact Or.inl ⟨_, _, (Option.some.inj h).symm⟩
    · split at h
      · rename_i hlookup
        cases gc with
        | true => contradiction
        | false =>
          simp only [Bool.false_eq_true, if_false] at h ⊢
          split at h
          · simp only [handleDiskRead] at h
            split at h
            · split at h
              · contradiction
              · exact Or.inl ⟨_, _, (Option.some.inj h).symm⟩
            · rename_i q hfree
              have hbegun : ReadBegun cfg s false
                  (advance cfg
                    ({ s with deadlockCounter := 0 }.place cfg s.currentTransaction.address q)) :=
                .disk _ q (freePage_eq_some hfree) hlookup ⟨_, _, _, _, _, rfl⟩
              split at h
              · exact Or.inr ⟨_, hbegun, Or.inl h⟩
              · exact Or.inr ⟨_, hbegun, Or.inr h⟩
          · exact Or.inr ⟨s, hself, Or.inl h⟩
      · split at h
        · cases gc with
          | true => exact Or.inr ⟨_, .gc _, Or.inl h⟩
          | false => exact Or.inr ⟨s, hself, Or.inl h⟩
        · exact Or.inr ⟨s, hself, Or.inr h⟩

/-- A read that is refused keeps the tables. -/
theorem readRefused_keeps (h : s.readRefused cfg = some t) : Keeps s t := by
  rcases readRefused_cases h with ⟨-, pointer, full, counter, rfl⟩ | ⟨-, rfl⟩
  · exact {}
  · exact {}

/-- What a transaction that is not a write does: a read from the disk takes a page, and an erase
clears a block. -/
inductive Effect (cfg : Config) (s t : Ftl) : Prop
  | keeps (h : Keeps s t)
  | takes (q : ℕ × ℕ) (hq : s.used q = false)
      (h : Keeps (s.place cfg s.currentTransaction.address q) t)
  | clears (block : ℕ) (h : Keeps (s.clearBlock cfg block) t)

theorem Effect.advances (h : Effect cfg s t) : Advances s t := by
  cases h with
  | keeps h => exact h.toAdvances
  | takes q hq h => exact ⟨h.writeQueue, h.moves⟩
  | clears block h => exact ⟨h.writeQueue, h.moves⟩

/-- Reads place at most one page. -/
theorem handleRead_effect {gc : Bool} (h : s.handleRead cfg gc accepts = some t) :
    Effect cfg s t := by
  rcases handleRead_cases h with ⟨n, deadlockCounter, rfl⟩ | ⟨u, hu, hread⟩
  · exact .keeps {}
  · have hdone : Keeps u t := hread.elim readDone_keeps readRefused_keeps
    cases hu with
    | queue n => exact .keeps (Keeps.trans {} hdone)
    | gc vAddrs => exact .keeps (Keeps.trans {} hdone)
    | disk u q hq hlookup hu =>
      obtain ⟨channel, die, plane, deadlock, line, rfl⟩ := hu
      exact .takes q hq.2 (Keeps.trans {} hdone)

/-- A write that is sent places its page. -/
theorem writeSuccess_keeps (h : s.writeSuccess cfg q = some t) :
    Keeps (s.place cfg s.currentTransaction.address q) t := by
  obtain ⟨w, hw, rfl⟩ := Option.map_eq_some_iff.mp h
  have hpop := popFront_keeps w hw
  obtain ⟨handled, gcHandled, hnote⟩ := note_eq
    (if s.currentTransaction.transactionType = .gcDataWrite then
      { s with moved := s.moved ++ [s.currentTransaction.address] } else s)
  rw [hnote] at hpop
  split at hpop
  · exact { hpop with }
  · exact { hpop with }

/-- The old page of a write is marked; then it may be placed in another one. -/
theorem handleWrite_keeps (h : s.handleWrite cfg accepts = some t) :
    Keeps (s.markOld cfg) t ∨
      ∃ q, (s.markOld cfg).used q = false ∧
        Keeps ((s.markOld cfg).place cfg (s.markOld cfg).currentTransaction.address q) t := by
  rcases handleWrite_cases h with ⟨q, u, v, hq, hu, hv, ht⟩ | ⟨u, full, busy, hu, rfl, -⟩
  · obtain ⟨channel, die, plane, deadlock, line, rfl⟩ := hu
    obtain ⟨channel, die, plane, deadlock, line, rfl⟩ := ht
    have hplace := writeSuccess_keeps hv
    exact .inr ⟨q, hq.2, { hplace with }⟩
  · obtain ⟨channel, die, plane, deadlock, line, rfl⟩ := hu
    obtain ⟨refusals, hnote⟩ := noteRefusal_eq { s.markOld cfg with
      channel := channel, die := die, plane := plane, deadlockCounter := deadlock
      scriptLine := line }
    rw [hnote]
    exact .inl {}

/-- A write takes nothing off the record. -/
theorem handleWrite_advances (h : s.handleWrite cfg accepts = some t) : Advances s t := by
  obtain ⟨used, dirty, dirtyPageCount, hmark⟩ := markOld_eq cfg s
  have hkeeps := handleWrite_keeps h
  rw [hmark] at hkeeps
  rcases hkeeps with hkeeps | ⟨q, -, hkeeps⟩
  · exact ⟨hkeeps.writeQueue, hkeeps.moves⟩
  · exact ⟨hkeeps.writeQueue, hkeeps.moves⟩

/-- An erase clears its block, or is refused. -/
theorem handleErase_effect (h : s.handleErase cfg accepts = some t) : Effect cfg s t := by
  obtain ⟨handled, gcHandled, hnote⟩ := note_eq s
  simp only [handleErase, hnote] at h
  split at h
  · refine .clears (s.currentTransaction.address / cfg.blockSize) ?_
    split at h
    · split at h
      · contradiction
      · obtain rfl := Option.some.inj h
        exact {}
    · obtain ⟨i, -, h⟩ := Option.bind_eq_some_iff.mp h
      obtain rfl := Option.some.inj h
      exact {}
  · obtain rfl := Option.some.inj h
    exact .keeps {}

/-- A write is carried out in this cycle. -/
def writing (s : Ftl) : Bool :=
  s.lookupCounter = 0 && !s.writeQueuesFull &&
    (s.currentTransaction.transactionType = .dataWrite ||
      s.currentTransaction.transactionType = .gcDataWrite)

/-- The busy half of a cycle. -/
theorem work_cases (hgc : cfg.garbageCollect = true) (h : s.work cfg accepts = some t) :
    s.writing = true ∧ s.handleWrite cfg accepts = some t ∨
      s.writing = false ∧ Effect cfg s t := by
  unfold work at h
  split at h
  · next hready =>
    have hwriting : s.writing = (decide (s.currentTransaction.transactionType = .dataWrite) ||
        decide (s.currentTransaction.transactionType = .gcDataWrite)) := by
      simp [writing, hready]
    rw [hwriting]
    unfold perform at h
    cases htype : s.currentTransaction.transactionType with
    | dataRead =>
      rw [htype] at h
      refine .inr ⟨rfl, ?_⟩
      dsimp only at h
      split at h
      · exact .keeps (Option.some.inj h ▸ {})
      · exact handleRead_effect h
    | dataWrite =>
      rw [htype] at h
      exact .inl ⟨rfl, h⟩
    | gcDataRead =>
      rw [htype] at h
      exact .inr ⟨rfl, handleRead_effect ((if_pos hgc).symm.trans h)⟩
    | gcDataWrite =>
      rw [htype] at h
      exact .inl ⟨rfl, (if_pos hgc).symm.trans h⟩
    | blockErase =>
      rw [htype] at h
      exact .inr ⟨rfl, handleErase_effect ((if_pos hgc).symm.trans h)⟩
    | empty =>
      rw [htype] at h
      exact absurd ((if_pos hgc).symm.trans h) nofun
  · next hready =>
    obtain rfl := Option.some.inj h
    have hwriting : s.writing = false := by
      rw [writing, Bool.and_eq_false_imp]
      exact fun hboth => absurd (by simpa using hboth) hready
    exact .inr ⟨hwriting, .keeps {}⟩

theorem work_advances (hgc : cfg.garbageCollect = true) (h : s.work cfg accepts = some t) :
    Advances s t := by
  rcases work_cases hgc h with ⟨-, hwrite⟩ | ⟨-, heffect⟩
  · exact handleWrite_advances hwrite
  · exact heffect.advances

/-! ### Steps -/

theorem endPass_keeps (cfg : Config) (s : Ftl) : Keeps s (s.endPass cfg) := by
  unfold endPass
  split
  · exact {}
  · exact {}

/-- Picking a block does not change it yet. -/
theorem addGC_keeps {block : ℕ} : Yields (Keeps s) (s.addGC cfg block) := by
  have hreads : ∀ (addresses : List ℕ) (u : Ftl), Keeps u
      (addresses.foldl (fun s vAddr => s.addGcTransaction .gcDataRead vAddr) u) := by
    intro addresses
    induction addresses with
    | nil => exact Keeps.refl
    | cons v addresses ih => exact fun u => Keeps.trans {} (ih _)
  refine yields_bind fun addresses _ => ?_
  dsimp only
  split
  · exact yields_some ((hreads addresses s).trans { moves := List.prefix_append _ _ })
  · exact yields_some ((hreads addresses s).trans { moves := List.prefix_append _ _ })

theorem startPanic_keeps : Yields (Keeps s) (s.startPanic cfg) := by
  unfold startPanic
  split
  · split
    · refine Yields.foldlM (fun u hu plane v hv => hu.trans (addGC_keeps v hv)) _ {}
    · split
      · exact yields_none
      · exact yields_some {}
  · exact yields_some {}

/-- Choosing the next transaction keeps the tables. -/
theorem idle_keeps (hbusy : s.busy = false) (h : s.idle cfg = some t) : Keeps s t := by
  obtain ⟨u, hu, hpass⟩ := Option.bind_eq_some_iff.mp h
  have hissue : Keeps s u := by
    unfold issueAny at hu
    split at hu
    · split at hu <;> exact Option.some.inj hu ▸ {}
    · rcases issue_cases hbusy hu with ⟨n, rfl⟩ | ⟨w, n, -, rfl⟩ <;> exact {}
  unfold startPass at hpass
  split at hpass
  · exact hissue.trans (Keeps.trans {} (addGC_keeps t hpass))
  · exact Option.some.inj hpass ▸ hissue

theorem gcReadDone_keeps (cfg : Config) (s : Ftl) (vAddr : ℕ) :
    Keeps s (s.gcReadDone cfg vAddr) := by
  simp only [gcReadDone]
  split
  · split <;> exact {}
  · exact {}

/-- What a step can do: a transaction arrives, a cycle is busy or idle, or the tables stay as they
are. -/
inductive Stepped (cfg : Config) (s : Ftl) : Action → Ftl → Prop
  | receives (isWrite : Bool) (address : ℕ) (w : FlashTransaction) :
      Stepped cfg s (.addTransaction isWrite address) (s.receive cfg w)
  | works (accepts : Bool) (u t : Ftl) (hu : (s.endPass cfg).startPanic cfg = some u)
      (h : Keeps s u) (hbusy : u.busy = true) (hwork : u.work cfg accepts = some t) :
      Stepped cfg s (.update accepts) t
  | idles (accepts : Bool) (u t : Ftl) (hu : (s.endPass cfg).startPanic cfg = some u)
      (h : Keeps s t) (hbusy : u.busy = false) : Stepped cfg s (.update accepts) t
  | keeps (a : Action) (t : Ftl) (ha : ∀ accepts, a ≠ .update accepts) (h : Keeps s t) :
      Stepped cfg s a t

/-- Every step is one of these. -/
theorem step_cases (hgc : cfg.garbageCollect = true) {a : Action} (h : step cfg s a = some t) :
    Stepped cfg s a t := by
  cases a with
  | addTransaction isWrite address =>
    obtain ⟨w, -, -, rfl⟩ := addTransaction_eq_some h
    exact .receives isWrite address w
  | update accepts =>
    rw [step, update, if_pos hgc] at h
    obtain ⟨u, hu, h⟩ := Option.bind_eq_some_iff.mp h
    have hkeeps : Keeps s u := (endPass_keeps cfg s).trans (startPanic_keeps u hu)
    split at h
    · next hbusy => exact .works accepts u t hu hkeeps hbusy h
    · next hbusy =>
      have hidle : u.busy = false := by simpa using hbusy
      exact .idles accepts u t hu (hkeeps.trans (idle_keeps hidle h)) hidle
  | clock => exact .keeps _ t (fun _ ha => Action.noConfusion ha) (Option.some.inj h ▸ {})
  | queuesNotFull => exact .keeps _ t (fun _ ha => Action.noConfusion ha) (Option.some.inj h ▸ {})
  | gcReadDone n =>
    obtain ⟨vAddr, -, h⟩ := Option.bind_eq_some_iff.mp h
    obtain rfl := Option.some.inj h
    exact .keeps _ _ (fun _ ha => Action.noConfusion ha)
      (Keeps.trans {} (gcReadDone_keeps cfg _ vAddr))
  | eraseArrives =>
    simp only [step] at h
    split at h
    · contradiction
    · exact .keeps _ t (fun _ ha => Action.noConfusion ha) (Option.some.inj h ▸ {})

/-- The record of live pages in picked blocks only grows. -/
theorem step_moves (hgc : cfg.garbageCollect = true) {a : Action} (h : step cfg s a = some t) :
    s.moves <+: t.moves := by
  cases step_cases hgc h with
  | receives isWrite address w =>
    obtain ⟨readQueue, writeQueue, readPointer, nextId, accepted, handled, heq⟩ :=
      receive_eq cfg s w
    exact heq ▸ List.prefix_rfl
  | works accepts u t hu hkeeps hbusy hwork =>
    exact hkeeps.moves.trans (work_advances hgc hwork).moves
  | idles accepts u t hu hkeeps hbusy => exact hkeeps.moves
  | keeps a t ha hkeeps => exact hkeeps.moves

end Ftl

end HybridMemory.NVDIMMSim

import HybridMemory.Lib.Placement
import HybridMemory.NVDIMMSim.Ftl

/-!
# The address map of the plain translation layer

A write gives the old page of its address free before it looks for a new one, and the
controller may refuse it after that. The layer then stays busy with this write, so that nobody
else can take the page in the meantime.

* `addressMap_placed`: without scheduling and disk reads, no two addresses share a page, and
  the page of every address is marked as used, except possibly that of the write being retried.
-/

namespace HybridMemory.NVDIMMSim

open Transition Placement Function

namespace Ftl

variable {cfg : Config} {s t : Ftl} {q : ℕ × ℕ} {type : ChannelPacketType} {accepts : Bool}

/-- The page an address is mapped to. -/
def pageTable (cfg : Config) (s : Ftl) (vAddr : ℕ) : Option (ℕ × ℕ) :=
  (s.addressMap.lookup vAddr).map cfg.pageOf

theorem pageTable_eq_some_of_lookup {vAddr pAddr : ℕ}
    (h : s.addressMap.lookup vAddr = some pAddr) :
    s.pageTable cfg vAddr = some (cfg.pageOf pAddr) := by
  rw [pageTable, h, Option.map_some]

/-! ### Free pages -/

theorem scan_eq_some {used : ℕ × ℕ → Bool} {lo hi : ℕ} (h : scan cfg used lo hi = some q) :
    (lo ≤ q.1 ∧ q.1 < hi) ∧ q.2 < cfg.pagesPerBlock ∧ used q = false := by
  obtain ⟨block, hblock, hpage⟩ := List.exists_of_findSome?_eq_some h
  obtain ⟨page, hfind, rfl⟩ := Option.map_eq_some_iff.mp hpage
  have hfree := List.find?_some hfind
  rw [List.mem_range'_1] at hblock
  exact ⟨by omega, List.mem_range.mp (List.mem_of_find?_eq_some hfind), by simpa using hfree⟩

theorem freePage_eq_some (h : s.freePage cfg = some q) :
    q.2 < cfg.pagesPerBlock ∧ s.used q = false := by
  simp only [freePage] at h
  split at h
  · rename_i hscan
    exact Option.some.inj h ▸ (scan_eq_some hscan).2
  · exact (scan_eq_some h).2

theorem pageTable_place {vAddr : ℕ} (hq : q.2 < cfg.pagesPerBlock) :
    (s.place cfg vAddr q).pageTable cfg = Function.update (s.pageTable cfg) vAddr (some q) := by
  funext v
  by_cases hv : v = vAddr
  · subst hv
    rw [update_self, pageTable, place, AList.lookup_insert, Option.map_some,
      cfg.pageOf_pageAddr hq]
  · rw [update_of_ne hv, pageTable, place, AList.lookup_insert_ne hv, pageTable]

/-! ### What does not touch the map -/

/-- `popFront` for a host transaction takes something out of a host queue. -/
theorem popFront_host (htype : type = .read ∨ type = .write) (h : s.popFront cfg type = some t) :
    ∃ readQueue writeQueue readPointer,
      t = { s with
        readQueue := readQueue, writeQueue := writeQueue, readPointer := readPointer } ∧
      readQueue.Sublist s.readQueue ∧ writeQueue.Sublist s.writeQueue ∧
      (cfg.twoQueues → readPointer = first readQueue ∨
        readQueue = s.readQueue ∧ readPointer = s.readPointer) := by
  have hgc : ¬ (cfg.garbageCollect ∧ (type = .erase ∨ type = .gcRead ∨ type = .gcWrite)) := by
    rintro ⟨-, hgc⟩
    rcases htype with rfl | rfl <;> simp at hgc
  rw [popFront, if_neg hgc] at h
  by_cases htwo : cfg.twoQueues
  · rw [if_pos htwo] at h
    by_cases hread : type = .read ∨ type = .erase
    · rw [if_pos hread] at h
      obtain ⟨i, -, h⟩ := Option.bind_eq_some_iff.mp h
      obtain rfl := Option.some.inj h
      exact ⟨_, _, _, rfl, List.eraseIdx_sublist _ _, List.Sublist.refl _, fun _ => Or.inl rfl⟩
    · rw [if_neg hread, if_pos (htype.resolve_left fun hr => hread (Or.inl hr))] at h
      split at h
      · contradiction
      · rename_i w queue hqueue
        obtain rfl := Option.some.inj h
        exact ⟨_, _, _, rfl, List.Sublist.refl _, hqueue ▸ List.sublist_cons_self w queue,
          fun _ => Or.inr ⟨rfl, rfl⟩⟩
  · rw [if_neg htwo] at h
    split at h
    · contradiction
    · rename_i r queue hqueue
      obtain rfl := Option.some.inj h
      exact ⟨_, _, _, rfl, hqueue ▸ List.sublist_cons_self r queue, List.Sublist.refl _,
        fun h => absurd h htwo⟩

/-- The history of handled transactions grows, and nothing else changes. -/
theorem note_eq (s : Ftl) : ∃ handled gcHandled,
    s.note = { s with handled := handled, gcHandled := gcHandled } := by
  unfold note
  split
  · exact ⟨_, _, rfl⟩
  · exact ⟨_, _, rfl⟩

theorem replaceWrite_eq (s : Ftl) (w : FlashTransaction) : ∃ writeQueue handled,
    s.replaceWrite w = { s with writeQueue := writeQueue, handled := handled } := by
  unfold replaceWrite
  split
  · exact ⟨_, _, rfl⟩
  · exact ⟨_, _, rfl⟩

/-- A host transaction that is added changes the queues and the history. -/
theorem receive_eq (cfg : Config) (s : Ftl) (w : FlashTransaction) :
    ∃ readQueue writeQueue readPointer nextId accepted handled,
      s.receive cfg w = { s with
        readQueue := readQueue, writeQueue := writeQueue, readPointer := readPointer
        nextId := nextId, accepted := accepted, handled := handled } := by
  obtain ⟨writeQueue, handled, hw⟩ := replaceWrite_eq s w
  unfold receive
  split
  · rename_i u hu
    simp only [enqueue, addRead, addWrite] at hu
    split_ifs at hu
    all_goals obtain ⟨queue, -, rfl⟩ := Option.map_eq_some_iff.mp hu
    · rw [hw]
      exact ⟨_, _, _, _, _, _, rfl⟩
    all_goals exact ⟨_, _, _, _, _, _, rfl⟩
  · unfold refused
    split
    · rw [hw]
      exact ⟨_, _, _, _, _, _, rfl⟩
    · exact ⟨_, _, _, _, _, _, rfl⟩

theorem addTransaction_eq_some {isWrite : Bool} {address : ℕ}
    (h : s.addTransaction cfg isWrite address = some t) :
    ∃ w : FlashTransaction, (w.transactionType = .dataRead ∨ w.transactionType = .dataWrite) ∧
      w.id = s.nextId ∧ t = s.receive cfg w := by
  unfold addTransaction at h
  split at h
  · contradiction
  · refine ⟨_, ?_, rfl, (Option.some.inj h).symm⟩
    cases isWrite
    · exact Or.inl rfl
    · exact Or.inr rfl

/-- A host transaction that may be chosen next. -/
inductive Offers (cfg : Config) (s : Ftl) (w : FlashTransaction) : Prop
  | write (htwo : cfg.twoQueues) (h : s.writeQueue.head? = some w)
  | read (htwo : cfg.twoQueues) (h : s.pointed = some w)
  | script (htwo : cfg.twoQueues) (hscript : cfg.enableWriteScript) (h : s.readQueue.head? = some w)
  | single (htwo : cfg.twoQueues = false) (h : s.readQueue.head? = some w)

theorem start_eq_some {queue : Option FlashTransaction} (h : queue.map (s.start cfg) = some t) :
    ∃ w, queue = some w ∧ t = { s.start cfg w with writeWaitCount := s.writeWaitCount } := by
  obtain ⟨w, hw, rfl⟩ := Option.map_eq_some_iff.mp h
  exact ⟨w, hw, rfl⟩

/-- The choice of the next transaction: none, or one that is offered. -/
theorem issue_cases (hbusy : s.busy = false) (h : s.issue cfg = some t) :
    (∃ n, t = { s with writeWaitCount := n }) ∨
      ∃ w n, Offers cfg s w ∧ t = { s.start cfg w with writeWaitCount := n } := by
  have hidle : ({ s with busy := false } : Ftl) = s := by rw [← hbusy]
  have hnone : some { s with busy := false } = some t → ∃ n, t = { s with writeWaitCount := n } :=
    fun ht => ⟨s.writeWaitCount, (Option.some.inj ht).symm.trans hidle⟩
  unfold issue at h
  by_cases htwo : cfg.twoQueues
  · rw [if_pos htwo] at h
    by_cases hscript : cfg.enableWriteScript
    · rw [if_pos hscript, scriptCurrentTransaction] at h
      split_ifs at h
      · obtain ⟨w, hw, rfl⟩ := start_eq_some h
        exact Or.inr ⟨w, _, .write htwo hw, rfl⟩
      · obtain ⟨w, hw, rfl⟩ := start_eq_some h
        exact Or.inr ⟨w, _, .script htwo hscript hw, rfl⟩
      · exact Or.inl (hnone h)
    · rw [if_neg hscript, scheduleCurrentTransaction] at h
      generalize (if cfg.writeOnQueueSize then _ else _ : ℕ) = limit at h
      split_ifs at h
      · obtain ⟨w, hw, rfl⟩ := start_eq_some h
        exact Or.inr ⟨w, _, .write htwo hw, rfl⟩
      · obtain ⟨w, hw, rfl⟩ := start_eq_some h
        exact Or.inr ⟨w, _, .read htwo hw, rfl⟩
      · exact Or.inl ⟨_, (Option.some.inj h).symm⟩
      · obtain ⟨w, hw, rfl⟩ := Option.map_eq_some_iff.mp h
        exact Or.inr ⟨w, _, .write htwo hw, rfl⟩
      · exact Or.inl (hnone h)
  · rw [if_neg htwo] at h
    split at h
    · exact Or.inl (hnone h)
    · rename_i w queue hqueue
      obtain rfl := Option.some.inj h
      exact Or.inr ⟨w, s.writeWaitCount, .single (by simpa using htwo) (by rw [hqueue]; rfl), rfl⟩

/-- `write_success`: the page is placed, and a host queue and the history change. -/
theorem writeSuccess_eq (h : s.writeSuccess cfg q = some t) :
    ∃ readQueue writeQueue readPointer handled gcHandled moved,
      t = { s.place cfg s.currentTransaction.address q with
        readQueue := readQueue, writeQueue := writeQueue, readPointer := readPointer
        handled := handled, gcHandled := gcHandled, moved := moved, busy := false } := by
  obtain ⟨u, hu, rfl⟩ := Option.map_eq_some_iff.mp h
  obtain ⟨readQueue, writeQueue, readPointer, rfl, -⟩ := popFront_host (Or.inr rfl) hu
  split_ifs
  all_goals
    obtain ⟨handled, gcHandled, hnote⟩ := note_eq _
    rw [hnote]
    exact ⟨_, _, _, _, _, _, rfl⟩

theorem noteRefusal_eq (s : Ftl) : ∃ refusals, s.noteRefusal = { s with refusals := refusals } := by
  unfold noteRefusal
  split
  · exact ⟨_, rfl⟩
  · exact ⟨_, rfl⟩

/-- The mark on the old page of the current write. -/
theorem markOld_eq (cfg : Config) (s : Ftl) : ∃ used dirty dirtyPageCount,
    s.markOld cfg = { s with used := used, dirty := dirty, dirtyPageCount := dirtyPageCount } := by
  unfold markOld writeUsedHandler
  split
  · split_ifs
    · exact ⟨_, _, _, rfl⟩
    · exact ⟨_, _, _, rfl⟩
  · exact ⟨_, _, _, rfl⟩

/-- The write pointer, the deadlock counter and the place in the script may have changed. -/
def Retuned (s t : Ftl) : Prop :=
  ∃ channel die plane deadlockCounter scriptLine,
    t = { s with
      channel := channel, die := die, plane := plane, deadlockCounter := deadlockCounter
      scriptLine := scriptLine }

/-- What a write can do: succeed with a free page, or be refused. -/
theorem handleWrite_cases (h : s.handleWrite cfg accepts = some t) :
    (∃ q u v, (q.2 < cfg.pagesPerBlock ∧ (s.markOld cfg).used q = false) ∧
      Retuned (s.markOld cfg) u ∧ u.writeSuccess cfg q = some v ∧ Retuned v t) ∨
    ∃ u writeQueuesFull busy, Retuned (s.markOld cfg) u ∧
      t = { u.noteRefusal with writeQueuesFull := writeQueuesFull, busy := busy } ∧
      (busy = true → u.busy) ∧ (cfg.schedule = false → u.busy → busy = true) := by
  simp only [handleWrite] at h
  generalize s.markOld cfg = u at h ⊢
  by_cases hscript : cfg.enableWriteScript
  · rw [if_pos hscript] at h
    simp only [handleScriptedWrite] at h
    split at h
    · contradiction
    · split at h
      · contradiction
      · rename_i q hscan
        by_cases haccept : accepts
        · rw [if_pos haccept] at h
          obtain ⟨v, hv, rfl⟩ := Option.map_eq_some_iff.mp h
          exact Or.inl ⟨q, u, v, (scan_eq_some hscan).2, ⟨_, _, _, _, _, rfl⟩, hv,
            ⟨_, _, _, _, _, rfl⟩⟩
        · rw [if_neg haccept] at h
          obtain rfl := Option.some.inj h
          obtain ⟨refusals, hnote⟩ := noteRefusal_eq u
          refine Or.inr ⟨u, u.writeQueuesFull, u.busy, ⟨_, _, _, _, _, rfl⟩, ?_, id, fun _ => id⟩
          rw [hnote]
  · rw [if_neg hscript] at h
    split at h
    · contradiction
    · rename_i q hfree
      simp only [sendWrite] at h
      split at h
      · exact Or.inl ⟨q, _, t, freePage_eq_some hfree, ⟨_, _, _, _, _, rfl⟩, h,
          ⟨_, _, _, _, _, rfl⟩⟩
      · obtain rfl := Option.some.inj h
        refine Or.inr ⟨_, _, _, ⟨_, _, _, _, _, rfl⟩, rfl, ?_, ?_⟩
        · split_ifs
          · exact nofun
          · exact id
        · intro hschedule hbusy
          rw [hschedule, if_neg Bool.false_ne_true]
          exact hbusy

/-! ### The plain layer -/

/-- The layer is busy with a write to an address, and may have tried it already. -/
def Retrying (s : Ftl) (vAddr : ℕ) : Prop :=
  s.busy ∧ s.lookupCounter = 0 ∧ s.currentTransaction.transactionType = .dataWrite ∧
    s.currentTransaction.address = vAddr

/-- No two addresses share a page, and all their pages but those in `E` are used. -/
abbrev UsedMap (cfg : Config) (s : Ftl) (E : ℕ → Prop) : Prop :=
  Placed (s.pageTable cfg) (fun q => s.used q = true) E

/-- A page is given free for the current write, if its address has one. -/
theorem UsedMap.markOld (hgc : cfg.garbageCollect = false)
    (h : UsedMap cfg s fun v => v = s.currentTransaction.address) :
    UsedMap cfg (s.markOld cfg) fun v => v = s.currentTransaction.address := by
  unfold Ftl.markOld
  split
  · rename_i pAddr hlookup
    have hkeep : ∀ q, q ≠ cfg.pageOf pAddr → s.used q = true →
        Function.update s.used (cfg.pageOf pAddr) false q = true := fun q hq hused => by
      rwa [update_of_ne hq]
    have hrelease := h.release (pageTable_eq_some_of_lookup hlookup) hkeep
    rw [writeUsedHandler, if_neg (by rw [hgc]; exact Bool.false_ne_true)]
    exact hrelease.mono fun v hv => hv.elim id id
  · exact h

theorem UsedMap.place {vAddr : ℕ} (h : UsedMap cfg s fun v => v = vAddr)
    (hq : q.2 < cfg.pagesPerBlock) (hfree : s.used q = false) :
    UsedMap cfg (s.place cfg vAddr q) fun _ => False := by
  rw [UsedMap, pageTable_place hq]
  refine Placed.place h (fun _ hv => hv) (by simp [hfree]) (fun q' hq' => ?_) ?_
  · by_cases heq : q' = q
    · rw [heq]
      exact update_self _ _ _
    · exact (update_of_ne heq _ _).trans hq'
  · exact update_self _ _ _

/-- The plain layer, with one queue and without disk reads. -/
structure Plain (cfg : Config) : Prop where
  garbageCollect : cfg.garbageCollect = false
  schedule : cfg.schedule = false
  perfectSchedule : cfg.perfectSchedule = false
  diskRead : cfg.diskRead = false

/-- The pages of all addresses are used, except for that of the write being retried. -/
abbrev PlainMap (cfg : Config) (s : Ftl) : Prop := UsedMap cfg s s.Retrying

/-- The write goes through to a free page. -/
theorem UsedMap.writeSuccess (h : UsedMap cfg s fun v => v = s.currentTransaction.address)
    (hq : q.2 < cfg.pagesPerBlock ∧ s.used q = false) (hwrite : s.writeSuccess cfg q = some t) :
    UsedMap cfg t fun _ => False := by
  obtain ⟨readQueue, writeQueue, readPointer, handled, gcHandled, moved, rfl⟩ :=
    writeSuccess_eq hwrite
  exact UsedMap.place h hq.1 hq.2

/-- A write is carried out, or stays the current one. -/
theorem PlainMap.handleWrite (hcfg : Plain cfg) (h : PlainMap cfg s) (hbusy : s.busy)
    (hlookup : s.lookupCounter = 0)
    (htype : s.currentTransaction.transactionType = .dataWrite)
    (hwrite : s.handleWrite cfg accepts = some t) : PlainMap cfg t := by
  have hmark : UsedMap cfg (s.markOld cfg) fun v => v = s.currentTransaction.address :=
    UsedMap.markOld hcfg.garbageCollect (h.mono fun v hv => hv.2.2.2.symm)
  obtain ⟨used, dirty, dirtyPageCount, hold⟩ := markOld_eq cfg s
  rw [hold] at hmark
  rcases handleWrite_cases hwrite with ⟨q, u, v, hq, hu, hv, ht⟩ | ⟨u, full, busy, hu, ht, -, hstay⟩
  · rw [hold] at hq hu
    obtain ⟨channel, die, plane, deadlock, line, rfl⟩ := hu
    have hplaced := UsedMap.writeSuccess (s := { s with
      channel := channel, die := die, plane := plane, used := used, dirty := dirty
      dirtyPageCount := dirtyPageCount, deadlockCounter := deadlock
      scriptLine := line }) hmark hq hv
    obtain ⟨channel, die, plane, deadlock, line, rfl⟩ := ht
    exact Placed.mono hplaced fun _ => False.elim
  · rw [hold] at hu
    obtain ⟨channel, die, plane, deadlock, line, rfl⟩ := hu
    obtain ⟨refusals, hnote⟩ := noteRefusal_eq { s with
      channel := channel, die := die, plane := plane, used := used, dirty := dirty
      dirtyPageCount := dirtyPageCount, deadlockCounter := deadlock, scriptLine := line }
    rw [hnote] at ht
    subst ht
    exact Placed.mono hmark fun v hv => ⟨hstay hcfg.schedule hbusy, hlookup, htype, hv.symm⟩

/-- A read is answered or refused; it does not touch the map. -/
theorem UsedMap.handleRead (hcfg : Plain cfg) {E : ℕ → Prop} (h : UsedMap cfg s E)
    (hread : s.handleRead cfg false accepts = some t) : UsedMap cfg t E := by
  have hdone : ∀ u, s.readDone cfg .read = some u → UsedMap cfg u E := by
    intro u hu
    obtain ⟨v, hv, rfl⟩ := Option.map_eq_some_iff.mp hu
    obtain ⟨readQueue, writeQueue, readPointer, rfl, -⟩ := popFront_host (Or.inl rfl) hv
    obtain ⟨handled, gcHandled, hnote⟩ := note_eq s
    rw [hnote]
    exact h
  simp only [Ftl.handleRead, readMapped, hcfg.schedule, hcfg.diskRead, Bool.false_eq_true,
    false_and, and_false, if_false, readRefused] at hread
  split at hread
  · exact hdone t hread
  · split at hread
    · exact hdone t hread
    · obtain rfl := Option.some.inj hread
      exact h

theorem PlainMap.work (hcfg : Plain cfg) (h : PlainMap cfg s) (hbusy : s.busy)
    (hwork : s.work cfg accepts = some t) : PlainMap cfg t := by
  unfold Ftl.work at hwork
  by_cases hready : s.lookupCounter = 0 ∧ ¬ s.writeQueuesFull
  · rw [if_pos hready, perform] at hwork
    have hsame : some s = some t → PlainMap cfg t := fun ht => Option.some.inj ht ▸ h
    split at hwork
    · rename_i htype
      split_ifs at hwork
      · exact hsame hwork
      · have hnone : UsedMap cfg s fun _ => False := h.mono fun v hv => by
          exact absurd (htype.symm.trans hv.2.2.1) nofun
        exact (UsedMap.handleRead hcfg hnone hwork).mono fun _ => False.elim
    · rename_i htype
      exact h.handleWrite hcfg hbusy hready.1 htype hwork
    all_goals
      rw [hcfg.garbageCollect] at hwork
      exact hsame hwork
  · rw [if_neg hready] at hwork
    obtain rfl := Option.some.inj hwork
    refine Placed.mono h fun v hv => ⟨hv.1, ?_, hv.2.2⟩
    exact Nat.sub_eq_zero_of_le (Nat.le_succ_of_le (Nat.le_of_eq hv.2.1))

/-- **The step lemma.** Whatever happens, the map of the plain layer stays in order. -/
theorem PlainMap.kept (hcfg : Plain cfg) {a : Action} (h : PlainMap cfg s)
    (hstep : step cfg s a = some t) : PlainMap cfg t := by
  cases a with
  | addTransaction isWrite address =>
    obtain ⟨w, -, -, rfl⟩ := addTransaction_eq_some hstep
    obtain ⟨readQueue, writeQueue, readPointer, nextId, accepted, handled, heq⟩ :=
      receive_eq cfg s w
    rw [heq]
    exact h
  | update accepts =>
    simp only [step, update, hcfg.garbageCollect, Bool.false_eq_true, if_false] at hstep
    split_ifs at hstep with hbusy
    · exact h.work hcfg hbusy hstep
    · have hnone : UsedMap cfg s fun _ => False := h.mono fun v hv => hbusy hv.1
      rcases issue_cases (by simpa using hbusy) hstep with ⟨n, rfl⟩ | ⟨w, n, -, rfl⟩
      · exact Placed.mono hnone fun _ => False.elim
      · exact Placed.mono hnone fun _ => False.elim
  | clock =>
    obtain rfl := Option.some.inj hstep
    exact h
  | queuesNotFull =>
    obtain rfl := Option.some.inj hstep
    exact h
  | gcReadDone n =>
    obtain ⟨vAddr, -, hstep⟩ := Option.bind_eq_some_iff.mp hstep
    obtain rfl := Option.some.inj hstep
    rw [gcReadDone, hcfg.garbageCollect]
    exact h
  | eraseArrives =>
    simp only [step] at hstep
    split_ifs at hstep
    obtain rfl := Option.some.inj hstep
    exact h

end Ftl

/-- In every run of the plain layer with one queue and without disk reads, whatever the
controller refuses, no two addresses are mapped to the same page, and every mapped page is
marked as used, except possibly that of the write the layer is busy with. -/
theorem addressMap_placed (cfg : Config) (hcfg : Ftl.Plain cfg) (address : ℕ)
    (actions : List Action) (s : Ftl)
    (h : Run (Steps (step cfg)) (init cfg address) actions s) :
    (∀ v v' p, s.addressMap.lookup v = some p → s.addressMap.lookup v' = some p → v = v') ∧
      ∀ v p, s.addressMap.lookup v = some p → s.used (cfg.pageOf p) = true ∨ s.Retrying v := by
  have hmap : Ftl.PlainMap cfg s := by
    refine h.invariant ⟨?_, ?_⟩ fun s a t hs hstep => hs.kept hcfg hstep
    · intro k k' p hk
      exact absurd hk nofun
    · intro k p hk
      exact absurd hk nofun
  constructor
  · intro v v' p hv hv'
    exact hmap.inj v v' _ (Ftl.pageTable_eq_some_of_lookup hv) (Ftl.pageTable_eq_some_of_lookup hv')
  · intro v p hv
    by_cases hretry : s.Retrying v
    · exact Or.inr hretry
    · exact Or.inl (hmap.held v _ (Ftl.pageTable_eq_some_of_lookup hv) hretry)

/-- An address is written, then written again; the second write is refused and waits. -/
theorem addressMap_placed_refused :
    ∃ s, Run (Steps (step (smallDevice false))) (init (smallDevice false) 0)
      [.addTransaction true 0, .update true, .update true, .update true, .addTransaction true 0,
        .update true, .update true, .update false] s ∧
      s.used (0, 0) = false ∧
      ((∀ v v' p, s.addressMap.lookup v = some p → s.addressMap.lookup v' = some p → v = v') ∧
        ∀ v p, s.addressMap.lookup v = some p →
          s.used ((smallDevice false).pageOf p) = true ∨ s.Retrying v) :=
  exists_run_imp (fun s => s.used (0, 0) = false) (by decide +kernel) fun s hrun hs =>
    ⟨hs, addressMap_placed (smallDevice false) ⟨rfl, rfl, rfl, rfl⟩ 0 _ s hrun⟩

end HybridMemory.NVDIMMSim

import Mathlib.Data.List.Perm.Basic
import HybridMemory.NVDIMMSim.Cycles

/-!
# Garbage collection

A pass of the collector picks a block (in panic mode one in every plane), reads its live pages,
writes them somewhere else and erases it; the pass is over when the device has seen as many
erases as blocks were picked. While a pass runs, only transactions of the collector are served.

All three results below hold as long as no live page is ever found in a picked block. Then a
pass consists of erases only.

* `addressMap_safe`: if moreover no write to a mapped address is refused, then no two addresses
  share a page, mapped pages are used and not dirty, and no erase hits a mapped page;
* `transactions_conserved`: every transaction is handled once, unless the write script is
  combined with scheduling;
* `pass_ends_finished`: a pass ends when all its work is done.

A live page in a picked block breaks each of them: its erase is queued before its last write,
that write takes a host transaction out of its queue, and the pass ends before the write.
-/

namespace HybridMemory.NVDIMMSim

open Transition Placement Function

namespace Ftl

variable {cfg : Config} {s t : Ftl} {q : ℕ × ℕ} {type : ChannelPacketType} {accepts : Bool}

/-! ### Passes without live pages -/

/-- The erase transactions for a list of blocks, numbered from `n` on. -/
def eraseTransactions (cfg : Config) (n : ℕ) (blocks : List ℕ) : List FlashTransaction :=
  (blocks.zipIdx n).map fun (block, i) => ⟨.blockErase, block * cfg.blockSize, i⟩

/-- Erases of blocks are queued. -/
def queueErases (cfg : Config) (s : Ftl) (blocks : List ℕ) : Ftl :=
  { s with
    gcQueue := s.gcQueue ++ eraseTransactions cfg s.nextId blocks
    writeQueuesFull := s.writeQueuesFull && blocks.isEmpty
    nextId := s.nextId + blocks.length
    gcAdded := s.gcAdded ++ eraseTransactions cfg s.nextId blocks }

theorem queueErases_nil (s : Ftl) : s.queueErases cfg [] = s := by
  simp [queueErases, eraseTransactions]

theorem queueErases_cons (s : Ftl) (block : ℕ) (blocks : List ℕ) :
    s.queueErases cfg (block :: blocks) =
      (s.addGcTransaction .blockErase (block * cfg.blockSize)).queueErases cfg blocks := by
  simp only [queueErases, eraseTransactions, addGcTransaction, List.zipIdx_cons, List.map_cons,
    List.append_assoc, List.singleton_append, List.length_cons, List.isEmpty_cons, Bool.and_false,
    Bool.false_and, Nat.add_assoc, Nat.add_comm 1]

theorem length_eraseTransactions (n : ℕ) (blocks : List ℕ) :
    (eraseTransactions cfg n blocks).length = blocks.length := by
  rw [eraseTransactions, List.length_map, List.length_zipIdx]

theorem mem_eraseTransactions {n : ℕ} {blocks : List ℕ} {w : FlashTransaction}
    (h : w ∈ eraseTransactions cfg n blocks) :
    w.transactionType = .blockErase ∧ n ≤ w.id ∧ w.id < n + blocks.length ∧
      ∃ block ∈ blocks, w.address = block * cfg.blockSize := by
  obtain ⟨⟨block, i⟩, hmem, rfl⟩ := List.mem_map.mp h
  obtain ⟨hlo, hhi, hblock⟩ := List.mem_zipIdx hmem
  exact ⟨rfl, hlo, hhi, block, hblock ▸ List.getElem_mem _, rfl⟩

theorem nodup_eraseTransactions (n : ℕ) (blocks : List ℕ) :
    (eraseTransactions cfg n blocks).Nodup := by
  refine List.Nodup.of_map FlashTransaction.id ?_
  rw [eraseTransactions, List.map_map]
  exact (List.zipIdx_map_snd n blocks).symm ▸ List.nodup_range'

/-- A block is picked: its live pages are noted, and if it has none its erase is queued. -/
theorem addGC_eq_some {block : ℕ} (h : s.addGC cfg block = some t) :
    ∃ addresses, t.moves = s.moves ++ addresses ∧ (addresses = [] →
      s.livePages cfg block = [] ∧ t = s.queueErases cfg [block]) := by
  have hmoves : ∀ (l : List ℕ) (u : Ftl),
      (l.foldl (fun s vAddr => s.addGcTransaction .gcDataRead vAddr) u).moves = u.moves := by
    intro l
    induction l with
    | nil => exact fun _ => rfl
    | cons v l ih => exact fun u => ih _
  obtain ⟨addresses, hlive, h⟩ := Option.bind_eq_some_iff.mp h
  refine ⟨addresses, ?_, ?_⟩
  · dsimp only at h
    split at h
    all_goals
      obtain rfl := Option.some.inj h
      exact congrArg (· ++ addresses) (hmoves addresses s)
  · rintro rfl
    constructor
    · cases hpages : s.livePages cfg block with
      | nil => rfl
      | cons page pages =>
        rw [liveAddresses, hpages, List.mapM_cons] at hlive
        obtain ⟨vAddr, -, hlive⟩ := Option.bind_eq_some_iff.mp hlive
        obtain ⟨vAddrs, -, hlive⟩ := Option.bind_eq_some_iff.mp hlive
        exact absurd hlive nofun
    · rw [queueErases_cons, queueErases_nil]
      rw [if_pos rfl] at h
      obtain rfl := Option.some.inj h
      simp [addGcTransaction]

/-- The blocks picked in panic mode. -/
theorem runGCPlanes_eq_some {planes : List ℕ}
    (h : planes.foldlM (fun s plane => s.runGCPlane cfg plane) s = some t) :
    ∃ addresses, t.moves = s.moves ++ addresses ∧ (addresses = [] →
      ∃ blocks, blocks.length = planes.length ∧ (∀ b ∈ blocks, s.livePages cfg b = []) ∧
        t = s.queueErases cfg blocks) := by
  induction planes generalizing s with
  | nil =>
    rw [List.foldlM_nil] at h
    obtain rfl := Option.some.inj h
    exact ⟨[], (List.append_nil _).symm, fun _ => ⟨[], rfl, nofun, (queueErases_nil s).symm⟩⟩
  | cons plane planes ih =>
    rw [List.foldlM_cons] at h
    obtain ⟨u, hu, h⟩ := Option.bind_eq_some_iff.mp h
    obtain ⟨found, hfound, hblock⟩ := addGC_eq_some hu
    obtain ⟨rest, hrest, hblocks⟩ := ih h
    refine ⟨found ++ rest, by rw [hrest, hfound, List.append_assoc], fun hnone => ?_⟩
    obtain ⟨hnofound, hnorest⟩ := List.append_eq_nil_iff.mp hnone
    obtain ⟨hlive, rfl⟩ := hblock hnofound
    obtain ⟨blocks, hlength, hall, rfl⟩ := hblocks hnorest
    refine ⟨s.dirtiest cfg (List.range' (plane * cfg.blocksPerPlane) cfg.blocksPerPlane) :: blocks,
      by rw [List.length_cons, hlength, List.length_cons], ?_, ?_⟩
    · rintro b hb
      rcases List.mem_cons.mp hb with rfl | hb
      · exact hlive
      · exact hall b hb
    · rw [queueErases_cons, queueErases_cons, queueErases_nil]

/-! ### The invariant -/

/-- The write script takes reads from the front of their queue, but removes them where the read
iterator is; with scheduling the two can differ. -/
def Straight (cfg : Config) : Prop := ¬ (cfg.enableWriteScript = true ∧ cfg.schedule = true)

/-- The current host transaction is where `popFront` will take it from. -/
def InPlace (cfg : Config) (s : Ftl) : Prop :=
  if cfg.twoQueues then
    if s.currentTransaction.transactionType = .dataWrite then
      s.writeQueue.head? = some s.currentTransaction
    else s.pointed = some s.currentTransaction
  else s.readQueue.head? = some s.currentTransaction

/-- The queues may change as long as they keep the current transaction where it is. -/
theorem InPlace.imp (h : s.InPlace cfg) (hcurrent : t.currentTransaction = s.currentTransaction)
    (hwrite : s.writeQueue.head? = some s.currentTransaction →
      t.writeQueue.head? = some s.currentTransaction)
    (hread : cfg.twoQueues → s.pointed = some s.currentTransaction →
      t.pointed = some s.currentTransaction)
    (hsingle : ¬ cfg.twoQueues → s.readQueue.head? = some s.currentTransaction →
      t.readQueue.head? = some s.currentTransaction) : t.InPlace cfg := by
  unfold InPlace at h ⊢
  rw [hcurrent]
  split_ifs at h ⊢ with htwo
  · exact hwrite h
  · exact hread htwo h
  · exact hsingle htwo h

/-- A page that is used and not dirty. -/
def Live (s : Ftl) (q : ℕ × ℕ) : Prop := s.used q = true ∧ s.dirty q = false

/-- The invariant of runs in which no live page has been found in a picked block. The pages of
the addresses in `E` need not be live. -/
structure Orderly (cfg : Config) (E : ℕ → Prop) (s : Ftl) : Prop where
  -- the pass
  moves : s.moves = []
  moved : s.moved = []
  pending : s.gcPendingErase = []
  reads : s.gcReads = []
  erases : ∀ w ∈ s.gcQueue, w.transactionType = .blockErase
  quiet : s.gcStatus = false → s.gcQueue = [] ∧ s.erasing = 0 ∧ s.panicMode = false
  count : s.gcStatus = true →
    s.numErases + s.erasing + s.gcQueue.length = s.startErase + s.passErases cfg
  ends : ∀ e ∈ s.passEnds, e = true
  -- the current transaction
  collecting : s.busy = true → s.gcStatus = true → s.gcQueue.head? = some s.currentTransaction
  serving : s.busy = true → s.gcStatus = false → s.currentTransaction.isHost = true
  inPlace : Straight cfg → s.busy = true → s.gcStatus = false → s.InPlace cfg
  -- the queues
  hosts : ∀ w ∈ s.readQueue, w.isHost = true
  readTypes : cfg.twoQueues → ∀ w ∈ s.readQueue, w.transactionType = .dataRead
  writeTypes : ∀ w ∈ s.writeQueue, w.transactionType = .dataWrite
  pointer : cfg.twoQueues → cfg.schedule = false → s.readPointer = first s.readQueue
  conserved : Straight cfg → s.accepted.Perm (s.handled ++ (s.readQueue ++ s.writeQueue))
  gcConserved : s.gcAdded.Perm (s.gcHandled ++ s.gcQueue)
  fresh : ∀ w, w ∈ s.accepted ∨ w ∈ s.gcAdded → w.id < s.nextId
  nodup : s.accepted.Nodup
  gcNodup : s.gcAdded.Nodup
  -- the map
  dirtyUsed : s.refusals = [] → ∀ q, s.dirty q = true → s.used q = true
  placed : s.refusals = [] → Placed (s.pageTable cfg) s.Live E
  avoided : s.refusals = [] → ∀ w ∈ s.gcQueue, ∀ v q, s.pageTable cfg v = some q →
    q.1 ≠ w.address / cfg.blockSize
  lost : s.refusals = [] → s.lost = []

/-- The invariant for all addresses. -/
abbrev Tidy (cfg : Config) (s : Ftl) : Prop := Orderly cfg (fun _ => False) s

variable {E E' : ℕ → Prop}

theorem Orderly.mono (h : Orderly cfg E s) (hle : ∀ v, E v → E' v) : Orderly cfg E' s :=
  { h with placed := fun hr => (h.placed hr).mono hle }

theorem Orderly.retuned (h : Orderly cfg E s) (ht : Retuned s t) : Orderly cfg E t := by
  obtain ⟨channel, die, plane, deadlockCounter, scriptLine, rfl⟩ := ht
  exact { h with }

/-- Removing the current host transaction from where it is. -/
theorem popFront_perm (hin : s.InPlace cfg)
    (htype : type = if s.currentTransaction.transactionType = .dataWrite then .write else .read)
    (h : s.popFront cfg type = some t) :
    (s.readQueue ++ s.writeQueue).Perm (s.currentTransaction :: (t.readQueue ++ t.writeQueue)) := by
  have hgc : ¬ (cfg.garbageCollect ∧ (type = .erase ∨ type = .gcRead ∨ type = .gcWrite)) := by
    rintro ⟨-, hgc⟩
    rw [htype] at hgc
    split_ifs at hgc <;> simp at hgc
  rw [popFront, if_neg hgc] at h
  unfold InPlace at hin
  by_cases htwo : cfg.twoQueues
  · rw [if_pos htwo] at h hin
    by_cases hwrite : s.currentTransaction.transactionType = .dataWrite
    · rw [if_pos hwrite] at hin htype
      rw [if_neg (by rw [htype]; decide), if_pos htype] at h
      split at h
      · contradiction
      · rename_i w queue hqueue
        obtain rfl := Option.some.inj h
        rw [hqueue, List.head?_cons, Option.some.injEq] at hin
        rw [hqueue, hin]
        exact List.perm_middle
    · rw [if_neg hwrite] at hin htype
      rw [if_pos (Or.inl htype)] at h
      obtain ⟨i, hi, h⟩ := Option.bind_eq_some_iff.mp h
      obtain rfl := Option.some.inj h
      rw [pointed, hi, Option.bind_some] at hin
      obtain ⟨hlt, hget⟩ := List.getElem?_eq_some_iff.mp hin
      have herase := List.getElem_cons_eraseIdx_perm hlt
      rw [hget] at herase
      exact herase.symm.append_right s.writeQueue
  · rw [if_neg htwo] at h hin
    split at h
    · contradiction
    · rename_i r queue hqueue
      obtain rfl := Option.some.inj h
      rw [hqueue, List.head?_cons, Option.some.injEq] at hin
      rw [hqueue, hin]
      exact List.Perm.refl _

/-- A host transaction has been carried out. -/
theorem Orderly.serve (h : Orderly cfg E s) (hbusy : s.busy = true) (hstatus : s.gcStatus = false)
    (htype : type = if s.currentTransaction.transactionType = .dataWrite then .write else .read)
    (hpop : s.note.popFront cfg type = some t) : Orderly cfg E { t with busy := false } := by
  have hhost := h.serving hbusy hstatus
  have hnote : s.note = { s with handled := s.handled ++ [s.currentTransaction] } := by
    rw [note, if_pos hhost]
  rw [hnote] at hpop
  have hperm : Straight cfg →
      (s.readQueue ++ s.writeQueue).Perm (s.currentTransaction :: (t.readQueue ++ t.writeQueue)) :=
    fun hs => popFront_perm (s := { s with handled := s.handled ++ [s.currentTransaction] })
      (h.inPlace hs hbusy hstatus) htype hpop
  have hrw : type = .read ∨ type = .write := by
    rw [htype]
    split_ifs
    · exact Or.inr rfl
    · exact Or.inl rfl
  obtain ⟨readQueue, writeQueue, readPointer, rfl, hread, hwrite, hpointer⟩ :=
    popFront_host hrw hpop
  refine { h with
    collecting := nofun, serving := nofun, inPlace := nofun
    hosts := fun w hw => h.hosts w (hread.subset hw)
    readTypes := fun htwo w hw => h.readTypes htwo w (hread.subset hw)
    writeTypes := fun w hw => h.writeTypes w (hwrite.subset hw)
    pointer := fun htwo hschedule => ?_
    conserved := fun hs => ?_ }
  · rcases hpointer htwo with hp | ⟨hq, hp⟩
    · exact hp
    · dsimp only at hq hp ⊢
      rw [hq, hp]
      exact h.pointer htwo hschedule
  · refine (h.conserved hs).trans ?_
    dsimp only
    rw [List.append_assoc]
    exact (hperm hs).append_left _

theorem Orderly.readDone (h : Orderly cfg E s) (hbusy : s.busy = true)
    (hstatus : s.gcStatus = false) (htype : s.currentTransaction.transactionType = .dataRead)
    (hread : s.readDone cfg .read = some t) : Orderly cfg E t := by
  obtain ⟨u, hu, rfl⟩ := Option.map_eq_some_iff.mp hread
  have hserve := h.serve hbusy hstatus (by rw [htype, if_neg (by decide)]) hu
  exact { hserve with }

theorem Orderly.readRefused (h : Orderly cfg E s) (hread : s.readRefused cfg = some t) :
    Orderly cfg E t := by
  rcases readRefused_cases hread with ⟨hschedule, p, f, i, rfl⟩ | ⟨-, rfl⟩
  · refine { h with
      collecting := nofun, serving := nofun, inPlace := nofun
      pointer := fun _ hno => ?_ }
    exact absurd (hschedule.symm.trans hno) nofun
  · exact { h with }

/-- The current transaction of the host gets a free page. -/
theorem Orderly.place {vAddr : ℕ} (h : Orderly cfg E s) (hE : ∀ v, E v → v = vAddr)
    (hstatus : s.gcStatus = false) (hq : q.2 < cfg.pagesPerBlock ∧ s.used q = false) :
    Tidy cfg (s.place cfg vAddr q) := by
  have hclean : s.refusals = [] → s.dirty q = false := by
    intro hr
    by_contra hdirty
    have hused := h.dirtyUsed hr q (by simpa using hdirty)
    rw [hq.2] at hused
    exact absurd hused nofun
  have hgrow : ∀ q', s.used q' = true → Function.update s.used q true q' = true := by
    intro q' hused
    by_cases heq : q' = q
    · rw [heq, update_self]
    · rwa [update_of_ne heq]
  refine { h with
    dirtyUsed := fun hr q' hdirty => hgrow q' (h.dirtyUsed hr q' hdirty)
    placed := fun hr => ?_
    avoided := fun _ w hw => ?_ }
  · rw [pageTable_place hq.1]
    refine (h.placed hr).place hE ?_ ?_ ?_
    · rintro ⟨hused, -⟩
      rw [hq.2] at hused
      exact absurd hused nofun
    · rintro q' ⟨hused, hdirty⟩
      exact ⟨hgrow q' hused, hdirty⟩
    · exact ⟨update_self _ _ _, hclean hr⟩
  · rw [Ftl.place, (h.quiet hstatus).1] at hw
    exact absurd hw List.not_mem_nil

/-- A read of the host. -/
theorem Orderly.handleRead (h : Tidy cfg s) (hbusy : s.busy = true)
    (hstatus : s.gcStatus = false) (htype : s.currentTransaction.transactionType = .dataRead)
    (hread : s.handleRead cfg false accepts = some t) : Tidy cfg t := by
  rcases handleRead_cases hread with ⟨n, deadlockCounter, rfl⟩ | ⟨u, hu, hread⟩
  · exact { h with }
  have hbegun : Tidy cfg u ∧ u.busy = true ∧ u.gcStatus = false ∧
      u.currentTransaction = s.currentTransaction := by
    cases hu with
    | queue gc n => exact ⟨{ h with }, hbusy, hstatus, rfl⟩
    | disk u q hq hlookup hu =>
      have hplace : Tidy cfg (s.place cfg s.currentTransaction.address q) :=
        h.place (fun _ => False.elim) hstatus hq
      have hplaced := hplace.retuned hu
      obtain ⟨channel, die, plane, deadlockCounter, scriptLine, rfl⟩ := hu
      exact ⟨hplaced, hbusy, hstatus, rfl⟩
  obtain ⟨hu, hbusy, hstatus, hcurrent⟩ := hbegun
  rcases hread with hdone | hrefused
  · exact hu.readDone hbusy hstatus (hcurrent ▸ htype) hdone
  · exact hu.readRefused hrefused

/-- The old page of the current write becomes dirty. -/
theorem Orderly.markOld (hgc : cfg.garbageCollect = true) (h : Tidy cfg s) :
    Orderly cfg (fun v => v = s.currentTransaction.address ∧ s.addressMap.lookup v ≠ none)
      (s.markOld cfg) := by
  unfold Ftl.markOld
  cases hlookup : s.addressMap.lookup s.currentTransaction.address with
  | none => exact h.mono fun _ => False.elim
  | some pAddr =>
    dsimp only
    rw [writeUsedHandler, if_pos hgc]
    have hpage : s.pageTable cfg s.currentTransaction.address = some (cfg.pageOf pAddr) :=
      pageTable_eq_some_of_lookup hlookup
    refine { h with
      dirtyUsed := fun hr q hdirty => ?_
      placed := fun hr => ?_ }
    · by_cases hq : q = cfg.pageOf pAddr
      · rw [hq]
        exact ((h.placed hr).held _ _ hpage id).1
      · dsimp only at hdirty
        rw [update_of_ne hq] at hdirty
        exact h.dirtyUsed hr q hdirty
    · have hrelease : Placed (s.pageTable cfg)
          (fun q => s.used q = true ∧ Function.update s.dirty (cfg.pageOf pAddr) true q = false)
          fun v => False ∨ v = s.currentTransaction.address := by
        refine (h.placed hr).release hpage ?_
        rintro q hq ⟨hused, hdirty⟩
        exact ⟨hused, by rwa [update_of_ne hq]⟩
      refine hrelease.mono fun v hv => ?_
      obtain rfl := hv.resolve_left id
      exact ⟨rfl, by rw [hlookup]; exact Option.some_ne_none _⟩

theorem note_place {vAddr : ℕ} : s.note.place cfg vAddr q = (s.place cfg vAddr q).note := by
  have hsame : (s.place cfg vAddr q).currentTransaction = s.currentTransaction := rfl
  unfold note
  rw [hsame]
  by_cases hhost : s.currentTransaction.isHost
  · rw [if_pos hhost, if_pos hhost]
    rfl
  · rw [if_neg hhost, if_neg hhost]
    rfl

/-- A write of the host. -/
theorem Orderly.handleWrite (hgc : cfg.garbageCollect = true) (h : Tidy cfg s)
    (hbusy : s.busy = true) (hstatus : s.gcStatus = false)
    (htype : s.currentTransaction.transactionType = .dataWrite)
    (hwrite : s.handleWrite cfg accepts = some t) : Tidy cfg t := by
  have hmark := h.markOld hgc
  obtain ⟨used, dirty, dirtyPageCount, hold⟩ := markOld_eq cfg s
  rcases handleWrite_cases hwrite with
    ⟨q, u, v, hq, hu, hv, ht⟩ | ⟨u, full, busy, hu, rfl, hstay, -⟩
  · have horderly := hmark.retuned hu
    rw [hold] at hq hu
    obtain ⟨channel, die, plane, deadlock, line, rfl⟩ := hu
    have hplace := horderly.place (fun v hv => hv.1) hstatus hq
    simp only [writeSuccess, htype, note_place] at hv
    obtain ⟨w, hw, rfl⟩ := Option.map_eq_some_iff.mp hv
    have hserve := hplace.serve hbusy hstatus (by rw [Ftl.place]; rw [if_pos htype]) hw
    exact hserve.retuned ht
  · have horderly := hmark.retuned hu
    rw [hold] at hu
    obtain ⟨channel, die, plane, deadlock, line, rfl⟩ := hu
    unfold noteRefusal
    split
    · have hrecord : s.refusals ++ [s.currentTransaction.address] ≠ [] :=
        List.append_ne_nil_of_right_ne_nil _ (List.cons_ne_nil _ _)
      exact { horderly with
        collecting := fun hb => horderly.collecting (hstay hb)
        serving := fun hb => horderly.serving (hstay hb)
        inPlace := fun hs hb => horderly.inPlace hs (hstay hb)
        dirtyUsed := fun hr => absurd hr hrecord
        placed := fun hr => absurd hr hrecord
        avoided := fun hr => absurd hr hrecord
        lost := fun hr => absurd hr hrecord }
    · rename_i hlookup
      have hkeep : Tidy cfg _ :=
        horderly.mono fun v hv => hv.2 (hv.1 ▸ hlookup)
      exact { hkeep with
        collecting := fun hb => hkeep.collecting (hstay hb)
        serving := fun hb => hkeep.serving (hstay hb)
        inPlace := fun hs hb => hkeep.inPlace hs (hstay hb) }

/-- An erase of the collector: the block is not the home of any address. -/
theorem Orderly.handleErase (h : Tidy cfg s) (hbusy : s.busy = true)
    (hstatus : s.gcStatus = true) (herase : s.handleErase cfg accepts = some t) :
    Tidy cfg t := by
  have hhead := h.collecting hbusy hstatus
  cases hqueue : s.gcQueue with
  | nil =>
    rw [hqueue] at hhead
    exact absurd hhead nofun
  | cons w queue =>
    rw [hqueue, List.head?_cons, Option.some.injEq] at hhead
    subst hhead
    have hmem : s.currentTransaction ∈ s.gcQueue := hqueue ▸ List.mem_cons_self
    have htail : ∀ w ∈ queue, w ∈ s.gcQueue := fun w hw => hqueue ▸ List.mem_cons_of_mem _ hw
    have hnote : s.note = { s with gcHandled := s.gcHandled ++ [s.currentTransaction] } := by
      rw [note, if_neg (by simp [FlashTransaction.isHost, h.erases _ hmem])]
    unfold Ftl.handleErase at herase
    split at herase
    · rw [hnote] at herase
      simp only [clearBlock, hstatus, if_true, hqueue] at herase
      obtain rfl := Option.some.inj herase
      refine { h with
        erases := fun w hw => h.erases w (htail w hw)
        quiet := nofun
        count := fun _ => ?_
        collecting := nofun, serving := nofun, inPlace := nofun
        gcConserved := ?_
        dirtyUsed := fun hr q hdirty => ?_
        placed := fun hr => ?_
        avoided := fun hr w hw => h.avoided hr w (htail w hw)
        lost := fun hr => ?_ }
      · have hcount := h.count hstatus
        rw [hqueue, List.length_cons] at hcount
        simp only [passErases] at hcount ⊢
        omega
      · have hperm := h.gcConserved
        rw [hqueue] at hperm
        dsimp only
        rwa [List.append_assoc, List.singleton_append]
      · simp only [Bool.and_eq_true] at hdirty ⊢
        exact ⟨h.dirtyUsed hr q hdirty.1, hdirty.2⟩
      · refine (h.placed hr).clear ?_
        rintro v q hv ⟨hused, hdirty⟩
        have hblock := h.avoided hr _ hmem v q hv
        simp [Live, hused, hdirty, hblock]
      · rw [List.append_eq_nil_iff]
        refine ⟨h.lost hr, ?_⟩
        rw [List.map_eq_nil_iff, List.filter_eq_nil_iff]
        rintro ⟨v, pAddr⟩ he hblock
        have hlookup : s.addressMap.lookup v = some pAddr := AList.mem_lookup_iff.mpr he
        exact h.avoided hr _ hmem v _ (pageTable_eq_some_of_lookup hlookup)
          (of_decide_eq_true hblock)
    · obtain rfl := Option.some.inj herase
      exact { h with }

/-- The layer is busy with an erase during a pass, and with a host transaction otherwise. -/
theorem Orderly.currentType (h : Orderly cfg E s) (hbusy : s.busy = true) :
    s.gcStatus = true ∧ s.currentTransaction.transactionType = .blockErase ∨
      s.gcStatus = false ∧ (s.currentTransaction.transactionType = .dataRead ∨
        s.currentTransaction.transactionType = .dataWrite) := by
  cases hstatus : s.gcStatus with
  | true =>
    exact Or.inl ⟨rfl, h.erases _ (List.mem_of_head? (h.collecting hbusy hstatus))⟩
  | false =>
    have hhost := h.serving hbusy hstatus
    refine Or.inr ⟨rfl, ?_⟩
    unfold FlashTransaction.isHost at hhost
    split at hhost
    · exact Or.inl ‹_›
    · exact Or.inr ‹_›
    · exact absurd hhost nofun

theorem Orderly.work (hgc : cfg.garbageCollect = true) (h : Tidy cfg s)
    (hbusy : s.busy = true) (hwork : s.work cfg accepts = some t) :
    Tidy cfg t := by
  unfold Ftl.work at hwork
  split at hwork
  · unfold perform at hwork
    rcases h.currentType hbusy with ⟨hstatus, htype⟩ | ⟨hstatus, htype | htype⟩
    · simp only [htype, hgc, if_true] at hwork
      exact h.handleErase hbusy hstatus hwork
    · simp only [htype] at hwork
      split at hwork
      · exact Option.some.inj hwork ▸ h
      · exact h.handleRead hbusy hstatus htype hwork
    · simp only [htype] at hwork
      exact h.handleWrite hgc hbusy hstatus htype hwork
  · obtain rfl := Option.some.inj hwork
    exact { h with }

/-! ### Passes -/

/-- A pass ends when its last erase has arrived: nothing is left to do. -/
theorem Orderly.endPass (h : Orderly cfg E s) : Orderly cfg E (s.endPass cfg) := by
  unfold Ftl.endPass
  split
  · rename_i hend
    have hcount := h.count hend.1
    have hempty : s.erasing = 0 ∧ s.gcQueue.length = 0 := by omega
    have hqueue := List.length_eq_zero_iff.mp hempty.2
    have hidle : s.busy ≠ true := by
      intro hbusy
      have hhead := h.collecting hbusy hend.1
      rw [hqueue] at hhead
      exact absurd hhead nofun
    have hfinished : s.finished = true := by
      simp [finished, hqueue, h.pending, h.moves, h.moved]
    refine { h with
      quiet := fun _ => ⟨hqueue, hempty.1, rfl⟩
      count := nofun
      collecting := fun hbusy => absurd hbusy hidle
      serving := fun hbusy => absurd hbusy hidle
      inPlace := fun _ hbusy => absurd hbusy hidle
      ends := fun e he => ?_ }
    rcases List.mem_append.mp he with he | he
    · exact h.ends e he
    · rw [List.mem_singleton.mp he, hfinished]
  · exact h

/-- A pass starts with the erases of blocks without live pages. -/
theorem Orderly.startErases (h : Tidy cfg s) (hstatus : s.gcStatus = false)
    {blocks : List ℕ} (panicMode : Bool) {busy : Bool} (erasePointer : ℕ)
    (hlength : blocks.length = if panicMode then cfg.numPlanes else 1) (hbusy : busy = false)
    (hlive : ∀ b ∈ blocks, s.livePages cfg b = []) :
    Tidy cfg ({ s with
      startErase := s.numErases, gcStatus := true, panicMode := panicMode, busy := busy
      erasePointer := erasePointer }.queueErases cfg blocks) := by
  obtain ⟨hqueue, herasing, -⟩ := h.quiet hstatus
  subst hbusy
  refine { h with
    erases := fun w hw => ?_
    quiet := nofun
    count := fun _ => ?_
    collecting := nofun, serving := nofun, inPlace := nofun
    gcConserved := ?_
    fresh := fun w hw => ?_
    gcNodup := ?_
    avoided := fun hr w hw v q hv => ?_ }
  · rw [queueErases, hqueue, List.nil_append] at hw
    exact (mem_eraseTransactions hw).1
  · simp only [queueErases, hqueue, herasing, passErases, List.nil_append,
      length_eraseTransactions, hlength]
    omega
  · have hperm := h.gcConserved
    simp only [queueErases, hqueue, List.append_nil, List.nil_append] at hperm ⊢
    exact hperm.append_right _
  · simp only [queueErases, List.mem_append] at hw ⊢
    rcases hw with hw | hw | hw
    · exact Nat.lt_add_right _ (h.fresh w (Or.inl hw))
    · exact Nat.lt_add_right _ (h.fresh w (Or.inr hw))
    · exact (mem_eraseTransactions hw).2.2.1
  · refine List.nodup_append.mpr ⟨h.gcNodup, nodup_eraseTransactions _ _, fun w hw w' hw' heq => ?_⟩
    subst heq
    exact absurd (h.fresh w (Or.inr hw)) (Nat.not_lt.mpr (mem_eraseTransactions hw').2.1)
  · rw [queueErases, hqueue, List.nil_append] at hw
    obtain ⟨-, -, -, block, hblock, haddress⟩ := mem_eraseTransactions hw
    obtain ⟨hused, hdirty⟩ := (h.placed hr).held v q hv id
    have hpos : 0 < cfg.blockSize := Nat.mul_pos cfg.nvPageSize_pos cfg.pagesPerBlock_pos
    rw [haddress, Nat.mul_div_cancel _ hpos]
    rintro rfl
    have hpage : q.2 ∈ s.livePages cfg q.1 := by
      obtain ⟨pAddr, -, rfl⟩ := Option.map_eq_some_iff.mp hv
      refine List.mem_filter.mpr ⟨List.mem_range.mpr (Nat.mod_lt _ cfg.pagesPerBlock_pos), ?_⟩
      rw [hused, hdirty]
      rfl
    rw [hlive _ hblock] at hpage
    exact absurd hpage List.not_mem_nil

/-- The start of a pass in panic mode, if any. -/
theorem startPanic_cases (h : s.startPanic cfg = some t) :
    t = s ∨ s.gcStatus = false ∧ ∃ addresses, t.moves = s.moves ++ addresses ∧ (addresses = [] →
      ∃ blocks, blocks.length = cfg.numPlanes ∧ (∀ b ∈ blocks, s.livePages cfg b = []) ∧
        t = { s with
          startErase := s.numErases, gcStatus := true, panicMode := true, busy := false
        }.queueErases cfg blocks) := by
  unfold startPanic at h
  split at h
  · rename_i hforce
    split at h
    · obtain ⟨addresses, hmoves, hblocks⟩ := runGCPlanes_eq_some h
      refine Or.inr ⟨by simpa using hforce.1, addresses, hmoves, fun hnone => ?_⟩
      obtain ⟨blocks, hlength, hlive, rfl⟩ := hblocks hnone
      exact ⟨blocks, by rw [hlength, List.length_range], hlive, rfl⟩
    · split at h
      · contradiction
      · exact Or.inl (Option.some.inj h).symm
  · exact Or.inl (Option.some.inj h).symm

/-- The start of a normal pass, if any. -/
theorem startPass_cases (h : s.startPass cfg = some t) :
    t = s ∨ s.gcStatus = false ∧ s.lookupCounter ≠ cfg.lookupCycles ∧
      ∃ addresses, t.moves = s.moves ++ addresses ∧ (addresses = [] →
        ∃ block erasePointer, s.livePages cfg block = [] ∧
          t = { s with
            startErase := s.numErases, gcStatus := true, erasePointer := erasePointer
          }.queueErases cfg [block]) := by
  unfold startPass at h
  split at h
  · rename_i hstart
    obtain ⟨addresses, hmoves, hblock⟩ := addGC_eq_some h
    refine Or.inr ⟨by simpa using hstart.2.2.1, hstart.1, addresses, hmoves, fun hnone => ?_⟩
    obtain ⟨hlive, rfl⟩ := hblock hnone
    exact ⟨_, _, hlive, rfl⟩
  · exact Or.inl (Option.some.inj h).symm

/-! ### Cycles -/

/-- A host transaction that is offered is of the host, and in place when it is started. -/
theorem Orderly.startHost (h : Tidy cfg s) (hstatus : s.gcStatus = false)
    {w : FlashTransaction} (hw : Offers cfg s w) (n : ℕ) :
    Tidy cfg { s.start cfg w with writeWaitCount := n } := by
  have hread : ∀ w ∈ s.readQueue, cfg.twoQueues → w.transactionType ≠ .dataWrite :=
    fun w hw htwo htype => absurd ((h.readTypes htwo w hw).symm.trans htype) nofun
  have hwrite : ∀ w ∈ s.writeQueue, w.isHost = true := fun w hw => by
    rw [FlashTransaction.isHost, h.writeTypes w hw]
  have hboth : w.isHost = true ∧ (Straight cfg →
      if cfg.twoQueues then
        if w.transactionType = .dataWrite then s.writeQueue.head? = some w else s.pointed = some w
      else s.readQueue.head? = some w) := by
    cases hw with
    | write htwo hhead =>
      have hmem := List.mem_of_head? hhead
      refine ⟨hwrite w hmem, fun _ => ?_⟩
      rw [if_pos htwo, if_pos (h.writeTypes w hmem)]
      exact hhead
    | read htwo hpoint =>
      obtain ⟨i, -, hi⟩ := Option.bind_eq_some_iff.mp hpoint
      have hmem := List.mem_of_getElem? hi
      refine ⟨h.hosts w hmem, fun _ => ?_⟩
      rw [if_pos htwo, if_neg (hread w hmem htwo)]
      exact hpoint
    | script htwo hscript hhead =>
      have hmem := List.mem_of_head? hhead
      refine ⟨h.hosts w hmem, fun hs => ?_⟩
      -- without scheduling the iterator stays at the front
      have hfirst := h.pointer htwo (by simpa using fun hsched => hs ⟨hscript, hsched⟩)
      rw [if_pos htwo, if_neg (hread w hmem htwo)]
      rw [first, if_neg (List.ne_nil_of_mem hmem)] at hfirst
      rw [pointed, hfirst, Option.bind_some, ← List.head?_eq_getElem?]
      exact hhead
    | single htwo hhead =>
      refine ⟨h.hosts w (List.mem_of_head? hhead), fun _ => ?_⟩
      rw [if_neg (by rw [htwo]; exact Bool.false_ne_true)]
      exact hhead
  exact { h with
    collecting := fun _ hgc => absurd (hstatus.symm.trans hgc) nofun
    serving := fun _ _ => hboth.1
    inPlace := fun hs _ _ => hboth.2 hs }

/-- The idle half of a cycle: the next transaction, or a normal pass. -/
theorem Orderly.idle (h : Tidy cfg s) (hbusy : s.busy = false)
    (hidle : s.idle cfg = some t) (hmoves : t.moves = []) : Tidy cfg t := by
  obtain ⟨u, hu, hpass⟩ := Option.bind_eq_some_iff.mp hidle
  unfold issueAny at hu
  have hkept : Tidy cfg u ∧
      (u.gcStatus = true ∨ u.lookupCounter = cfg.lookupCycles ∨ u.busy = false) := by
    cases hstatus : s.gcStatus with
    | true =>
      rw [if_pos hstatus] at hu
      split at hu
      · obtain rfl := Option.some.inj hu
        exact ⟨{ h with collecting := nofun, serving := nofun, inPlace := nofun }, Or.inl hstatus⟩
      · rename_i w queue hqueue
        obtain rfl := Option.some.inj hu
        refine ⟨{ h with
          collecting := fun _ _ => ?_
          serving := fun _ hno => absurd (hstatus.symm.trans hno) nofun
          inPlace := fun _ _ hno => absurd (hstatus.symm.trans hno) nofun }, Or.inl hstatus⟩
        rw [start, hqueue]
        rfl
    | false =>
      rw [if_neg (by rw [hstatus]; exact Bool.false_ne_true)] at hu
      rcases issue_cases hbusy hu with ⟨n, rfl⟩ | ⟨w, n, hw, rfl⟩
      · exact ⟨{ h with }, Or.inr (Or.inr hbusy)⟩
      · exact ⟨h.startHost hstatus hw n, Or.inr (Or.inl rfl)⟩
  obtain ⟨hu, hrest⟩ := hkept
  rcases startPass_cases hpass with rfl | ⟨hstatus, hlookup, addresses, ht, hblock⟩
  · exact hu
  · rw [ht, List.append_eq_nil_iff] at hmoves
    obtain ⟨block, erasePointer, hlive, rfl⟩ := hblock hmoves.2
    have hbusy : u.busy = false := by
      rcases hrest with hgc | hcycles | hbusy
      · exact absurd (hstatus.symm.trans hgc) nofun
      · exact absurd hcycles hlookup
      · exact hbusy
    refine hu.startErases hstatus u.panicMode erasePointer ?_ hbusy
      (fun b hb => List.mem_singleton.mp hb ▸ hlive)
    rw [(hu.quiet hstatus).2.2]
    rfl

/-- A cycle of the collecting layer. -/
theorem Orderly.update (hgc : cfg.garbageCollect = true) (h : Tidy cfg s)
    (hupdate : s.update cfg accepts = some t) (hmoves : t.moves = []) :
    Tidy cfg t := by
  rw [Ftl.update, if_pos hgc] at hupdate
  obtain ⟨u, hu, hupdate⟩ := Option.bind_eq_some_iff.mp hupdate
  -- live pages found at the start of a pass in panic mode are still on record after the cycle
  have hnone : u.moves = [] := by
    split at hupdate
    · exact List.prefix_nil.mp (hmoves ▸ (work_advances hgc hupdate).moves)
    · have hkeeps := idle_keeps (by simpa using ‹¬ u.busy = true›) hupdate
      exact List.prefix_nil.mp (hmoves ▸ hkeeps.moves)
  have hkept : Tidy cfg u := by
    rcases startPanic_cases hu with rfl | ⟨hstatus, addresses, hfound, hblocks⟩
    · exact h.endPass
    · rw [hfound, List.append_eq_nil_iff] at hnone
      obtain ⟨blocks, hlength, hlive, rfl⟩ := hblocks hnone.2
      exact h.endPass.startErases hstatus true _ (by rw [hlength, if_pos rfl]) rfl hlive
  split at hupdate
  · exact hkept.work hgc ‹_› hupdate
  · exact hkept.idle (by simpa using ‹¬ u.busy = true›) hupdate hmoves

/-! ### Host transactions -/

theorem perm_find_eraseP (p : FlashTransaction → Bool) (queue : List FlashTransaction) :
    queue.Perm ((queue.find? p).toList ++ queue.eraseP p) := by
  induction queue with
  | nil => exact List.Perm.refl _
  | cons w queue ih =>
    cases hw : p w with
    | true =>
      rw [List.find?_cons_of_pos hw, List.eraseP_cons_of_pos hw]
      exact List.Perm.refl _
    | false =>
      rw [List.find?_cons_of_neg (by simp [hw]), List.eraseP_cons_of_neg (by simp [hw])]
      exact (ih.cons w).trans List.perm_middle.symm

/-- A queued write is replaced by a newer one; the current one stays in place. -/
theorem Orderly.replaceWrite (h : Orderly cfg E s) (w : FlashTransaction) :
    Orderly cfg E (s.replaceWrite w) := by
  unfold Ftl.replaceWrite
  split
  · exact h
  · rename_i hne
    refine { h with
      inPlace := fun hs hbusy hstatus => ?_
      writeTypes := fun v hv => h.writeTypes v (List.mem_of_mem_eraseP hv)
      conserved := fun hs => ?_ }
    · refine (h.inPlace hs hbusy hstatus).imp rfl (fun hin => ?_) (fun _ => id) fun _ => id
      obtain ⟨queue, hqueue⟩ := List.head?_eq_some_iff.mp hin
      dsimp only
      rw [hqueue, List.eraseP_cons_of_neg (by simpa using hne)]
      rfl
    · refine (h.conserved hs).trans ?_
      have hperm := perm_find_eraseP (fun v => v.address = w.address) s.writeQueue
      dsimp only
      rw [List.append_assoc]
      refine List.Perm.append_left _ ((hperm.append_left _).trans ?_)
      rw [← List.append_assoc, ← List.append_assoc]
      exact List.perm_append_comm.append_right _

/-- A new host transaction in its queue. -/
theorem Orderly.accept (h : Orderly cfg E s) {w : FlashTransaction} (hid : w.id = s.nextId)
    {readQueue writeQueue : List FlashTransaction} {readPointer : Option ℕ}
    (hin : s.busy = true → s.InPlace cfg → InPlace cfg
      { s with readQueue := readQueue, writeQueue := writeQueue, readPointer := readPointer })
    (hhosts : ∀ v ∈ readQueue, v.isHost = true)
    (hreads : cfg.twoQueues → ∀ v ∈ readQueue, v.transactionType = .dataRead)
    (hwrites : ∀ v ∈ writeQueue, v.transactionType = .dataWrite)
    (hpointer : cfg.twoQueues → cfg.schedule = false → readPointer = first readQueue)
    (hperm : (readQueue ++ writeQueue).Perm ((s.readQueue ++ s.writeQueue) ++ [w])) :
    Orderly cfg E { s with
      readQueue := readQueue, writeQueue := writeQueue, readPointer := readPointer
      nextId := s.nextId + 1, accepted := s.accepted ++ [w] } := by
  have hnew : ∀ v, v ∈ s.accepted ∨ v ∈ s.gcAdded → v ≠ w := by
    rintro v hv rfl
    exact absurd (h.fresh v hv) (by rw [hid]; exact Nat.lt_irrefl _)
  refine { h with
    inPlace := fun hs hbusy hstatus => hin hbusy (h.inPlace hs hbusy hstatus)
    hosts := hhosts, readTypes := hreads, writeTypes := hwrites, pointer := hpointer
    conserved := fun hs => ?_
    fresh := fun v hv => ?_
    nodup := ?_ }
  · refine ((h.conserved hs).append_right [w]).trans ?_
    rw [List.append_assoc]
    exact hperm.symm.append_left _
  · dsimp only at hv ⊢
    rcases hv with hv | hv
    · rcases List.mem_append.mp hv with hv | hv
      · exact Nat.lt_succ_of_lt (h.fresh v (Or.inl hv))
      · rw [List.mem_singleton.mp hv, hid]
        exact Nat.lt_succ_self _
    · exact Nat.lt_succ_of_lt (h.fresh v (Or.inr hv))
  · refine List.nodup_append.mpr ⟨h.nodup, List.nodup_singleton w, fun v hv v' hv' => ?_⟩
    rw [List.mem_singleton.mp hv']
    exact hnew v (Or.inl hv)

theorem attemptAdd_eq_some {w : FlashTransaction} {queue queue' : List FlashTransaction} {n : ℕ}
    (h : attemptAdd w queue n = some queue') : queue' = queue ++ [w] := by
  unfold attemptAdd at h
  split at h
  · contradiction
  · exact (Option.some.inj h).symm

theorem head?_append_of_eq_some {w v : FlashTransaction} {queue : List FlashTransaction}
    (h : queue.head? = some v) : (queue ++ [w]).head? = some v := by
  rw [List.head?_append, h, Option.some_or]

theorem Orderly.addWrite (h : Orderly cfg E s) {w : FlashTransaction} (hid : w.id = s.nextId)
    (htype : w.transactionType = .dataWrite) (hadd : s.addWrite cfg w = some t) :
    Orderly cfg E { t with nextId := t.nextId + 1, accepted := t.accepted ++ [w] } := by
  obtain ⟨queue, hqueue, rfl⟩ := Option.map_eq_some_iff.mp hadd
  obtain rfl := attemptAdd_eq_some hqueue
  refine h.accept hid (fun _ hin => ?_) h.hosts h.readTypes ?_ h.pointer ?_
  · exact hin.imp rfl head?_append_of_eq_some (fun _ => id) fun _ => id
  · intro v hv
    rcases List.mem_append.mp hv with hv | hv
    · exact h.writeTypes v hv
    · rw [List.mem_singleton.mp hv, htype]
  · rw [List.append_assoc]

theorem Orderly.addRead (htwo : cfg.twoQueues = true) (h : Orderly cfg E s) {w : FlashTransaction}
    (hid : w.id = s.nextId) (htype : w.transactionType = .dataRead)
    (hadd : s.addRead cfg w = some t) :
    Orderly cfg E { t with nextId := t.nextId + 1, accepted := t.accepted ++ [w] } := by
  obtain ⟨queue, hqueue, rfl⟩ := Option.map_eq_some_iff.mp hadd
  obtain rfl := attemptAdd_eq_some hqueue
  have hne : s.readQueue ++ [w] ≠ [] := List.append_ne_nil_of_right_ne_nil _ (List.cons_ne_nil _ _)
  have htypes : ∀ v ∈ s.readQueue ++ [w], v.transactionType = .dataRead := by
    intro v hv
    rcases List.mem_append.mp hv with hv | hv
    · exact h.readTypes htwo v hv
    · rw [List.mem_singleton.mp hv, htype]
  refine h.accept hid (fun _ hin => ?_) (fun v hv => ?_) (fun _ => htypes) h.writeTypes
    (fun _ hschedule => ?_) ?_
  · refine hin.imp rfl id (fun _ hpointed => ?_) fun hno => absurd htwo hno
    obtain ⟨i, hi, hget⟩ := Option.bind_eq_some_iff.mp hpointed
    have hlt : i < s.readQueue.length := (List.getElem?_eq_some_iff.mp hget).1
    have hlength : (s.readQueue ++ [w]).length ≠ 1 := by
      rw [List.length_append, List.length_singleton]
      omega
    rw [pointed, if_neg hlength, hi, Option.bind_some, List.getElem?_append_left hlt]
    exact hget
  · rw [FlashTransaction.isHost, htypes v hv]
  · split
    · rfl
    · rename_i hlength
      have hold : s.readQueue ≠ [] := by
        intro hnil
        rw [hnil] at hlength
        exact hlength rfl
      rw [h.pointer htwo hschedule, first, first, if_neg hold, if_neg hne]
  · rw [List.append_assoc, List.append_assoc]
    exact List.perm_append_comm.append_left _

/-- A host transaction that arrives. -/
theorem Orderly.receive (h : Orderly cfg E s) {w : FlashTransaction} (hid : w.id = s.nextId)
    (htype : w.transactionType = .dataRead ∨ w.transactionType = .dataWrite) :
    Orderly cfg E (s.receive cfg w) := by
  unfold Ftl.receive
  split
  · rename_i u hu
    unfold enqueue at hu
    have hread : w.transactionType ≠ .dataWrite → w.transactionType = .dataRead := fun hne =>
      htype.resolve_right hne
    split at hu
    · have htwo : cfg.twoQueues = true := by simp [Config.twoQueues, ‹cfg.schedule = true›]
      split at hu
      · have hreplace := h.replaceWrite w
        obtain ⟨writeQueue, handled, heq⟩ := replaceWrite_eq s w
        exact hreplace.addWrite (by rw [heq]; exact hid) ‹_› hu
      · exact h.addRead htwo hid (hread ‹_›) hu
    · split at hu
      · have htwo : cfg.twoQueues = true := by simp [Config.twoQueues, ‹cfg.perfectSchedule = true›]
        split at hu
        · exact h.addWrite hid ‹_› hu
        · exact h.addRead htwo hid (hread ‹_›) hu
      · have htwo : ¬ cfg.twoQueues = true := by
          simp [Config.twoQueues, ‹¬ cfg.schedule = true›, ‹¬ cfg.perfectSchedule = true›]
        obtain ⟨queue, hqueue, rfl⟩ := Option.map_eq_some_iff.mp hu
        obtain rfl := attemptAdd_eq_some hqueue
        refine h.accept hid (fun _ hin => ?_) (fun v hv => ?_) (fun hno => absurd hno htwo)
          h.writeTypes (fun hno => absurd hno htwo) ?_
        · exact hin.imp rfl id (fun hyes => absurd hyes htwo) fun _ => head?_append_of_eq_some
        · rcases List.mem_append.mp hv with hv | hv
          · exact h.hosts v hv
          · rw [List.mem_singleton.mp hv]
            rcases htype with htype | htype
            · rw [FlashTransaction.isHost, htype]
            · rw [FlashTransaction.isHost, htype]
        · rw [List.append_assoc, List.append_assoc]
          exact List.perm_append_comm.append_left _
  · unfold refused
    split
    · exact h.replaceWrite w
    · exact h

/-! ### Runs -/

/-- **The step lemma.** -/
theorem Orderly.kept (hgc : cfg.garbageCollect = true) {a : Action}
    (h : Tidy cfg s) (hstep : step cfg s a = some t) (hmoves : t.moves = []) :
    Tidy cfg t := by
  cases a with
  | addTransaction isWrite address =>
    obtain ⟨w, htype, hid, rfl⟩ := addTransaction_eq_some hstep
    exact h.receive hid htype
  | update accepts => exact h.update hgc hstep hmoves
  | clock =>
    obtain rfl := Option.some.inj hstep
    exact { h with }
  | queuesNotFull =>
    obtain rfl := Option.some.inj hstep
    exact { h with }
  | gcReadDone n =>
    obtain ⟨vAddr, hread, -⟩ := Option.bind_eq_some_iff.mp hstep
    rw [h.reads] at hread
    exact absurd hread nofun
  | eraseArrives =>
    simp only [step] at hstep
    split at hstep
    · contradiction
    · rename_i herasing
      obtain rfl := Option.some.inj hstep
      refine { h with quiet := fun hstatus => ?_, count := fun hstatus => ?_ }
      · exact absurd (h.quiet hstatus).2.1 herasing
      · have hcount := h.count hstatus
        simp only [passErases] at hcount ⊢
        omega

theorem orderly_init (cfg : Config) (address : ℕ) :
    Tidy cfg (init cfg address) where
  moves := rfl
  moved := rfl
  pending := rfl
  reads := rfl
  erases := nofun
  quiet := fun _ => ⟨rfl, rfl, rfl⟩
  count := nofun
  ends := nofun
  collecting := nofun
  serving := nofun
  inPlace := nofun
  hosts := nofun
  readTypes := nofun
  writeTypes := nofun
  pointer := fun _ _ => rfl
  conserved := fun _ => List.Perm.refl _
  gcConserved := List.Perm.refl _
  fresh := by
    rintro w (hw | hw)
    · exact absurd hw List.not_mem_nil
    · exact absurd hw List.not_mem_nil
  nodup := List.nodup_nil
  gcNodup := List.nodup_nil
  dirtyUsed := nofun
  placed := fun _ => ⟨fun k k' p hk => absurd hk nofun, fun k p hk => absurd hk nofun⟩
  avoided := nofun
  lost := fun _ => rfl

/-- **The run lemma.** As long as no live page is found in a picked block, the layer stays in
order. -/
theorem orderly_of_run (hgc : cfg.garbageCollect = true) {address : ℕ} {actions : List Action}
    (h : Run (Steps (step cfg)) (init cfg address) actions s) (hmoves : s.moves = []) :
    Tidy cfg s := by
  have hinv : s.moves = [] → Tidy cfg s := by
    refine h.invariant (P := fun s => s.moves = [] → Tidy cfg s)
      (fun _ => orderly_init cfg address) fun s a t hs hstep hnone => ?_
    have hbefore : s.moves = [] := List.prefix_nil.mp (hnone ▸ step_moves hgc hstep)
    exact (hs hbefore).kept hgc hstep hnone
  exact hinv hmoves

end Ftl

/-- Two addresses are written twice each, so that all pages of block 0 are dirty; then a pass
erases the block. -/
def cleanPass : List Action :=
  [.addTransaction true 0, .addTransaction true 1, .addTransaction true 0,
      .addTransaction true 1] ++ List.replicate 16 (.update true) ++ [.eraseArrives, .update true]

/-- Address 0 is written twice and address 1 once; a pass then finds the live page of address 1 in
block 0 and has read it. -/
def livePass : List Action :=
  [.addTransaction true 0, .addTransaction true 1, .addTransaction true 0] ++
    List.replicate 13 (.update true) ++ [.gcReadDone 0]

/-- As long as no live page is found in a picked block and no write to a mapped address is
refused, no two addresses share a page, the pages of all addresses are used and not dirty, and
no block is erased while an address is mapped to one of its pages. -/
theorem addressMap_safe (cfg : Config) (hgc : cfg.garbageCollect = true) (address : ℕ)
    (actions : List Action) (s : Ftl) (h : Run (Steps (step cfg)) (init cfg address) actions s)
    (hmoves : s.moves = []) (hrefusals : s.refusals = []) :
    (∀ v v' p, s.addressMap.lookup v = some p → s.addressMap.lookup v' = some p → v = v') ∧
      (∀ v p, s.addressMap.lookup v = some p →
        s.used (cfg.pageOf p) = true ∧ s.dirty (cfg.pageOf p) = false) ∧
      s.lost = [] := by
  have horderly := Ftl.orderly_of_run hgc h hmoves
  have hplaced := horderly.placed hrefusals
  refine ⟨fun v v' p hv hv' => ?_, fun v p hv => ?_, horderly.lost hrefusals⟩
  · exact hplaced.inj v v' _ (Ftl.pageTable_eq_some_of_lookup hv)
      (Ftl.pageTable_eq_some_of_lookup hv')
  · exact hplaced.held v _ (Ftl.pageTable_eq_some_of_lookup hv) id

theorem addressMap_safe_cleanPass :
    ∃ s, Run (Steps (step (smallDevice true))) (init (smallDevice true) 0) cleanPass s ∧
      s.passEnds = [true] ∧
      ((∀ v v' p, s.addressMap.lookup v = some p → s.addressMap.lookup v' = some p → v = v') ∧
        (∀ v p, s.addressMap.lookup v = some p → s.used ((smallDevice true).pageOf p) = true ∧
          s.dirty ((smallDevice true).pageOf p) = false) ∧
        s.lost = []) := by
  refine exists_run_imp (fun s => s.moves = [] ∧ s.refusals = [] ∧ s.passEnds = [true])
    (by decide +kernel) fun s hrun hs => ?_
  obtain ⟨hmoves, hrefusals, hends⟩ := hs
  exact ⟨hends, addressMap_safe _ rfl 0 _ s hrun hmoves hrefusals⟩

/-- The erase of block 0 is queued before the write of its last live page and is carried out while
address 1 is still mapped to it. -/
theorem erase_loses_live_page :
    ∃ s, Run (Steps (step (smallDevice true))) (init (smallDevice true) 0)
      (livePass ++ List.replicate 3 (.update true)) s ∧
      s.addressMap.lookup 1 = some 1 ∧ s.used (0, 1) = false ∧ s.lost = [1] :=
  exists_run (by decide +kernel)

/-- As long as no live page is found in a picked block, every transaction of the host and of the
collector is at any time either still in its queue or has been handled, once. -/
theorem transactions_conserved (cfg : Config) (hgc : cfg.garbageCollect = true)
    (hstraight : Ftl.Straight cfg) (address : ℕ) (actions : List Action) (s : Ftl)
    (h : Run (Steps (step cfg)) (init cfg address) actions s) (hmoves : s.moves = []) :
    s.accepted.Perm (s.handled ++ (s.readQueue ++ s.writeQueue)) ∧ s.accepted.Nodup ∧
      s.gcAdded.Perm (s.gcHandled ++ s.gcQueue) ∧ s.gcAdded.Nodup := by
  have horderly := Ftl.orderly_of_run hgc h hmoves
  exact ⟨horderly.conserved hstraight, horderly.nodup, horderly.gcConserved, horderly.gcNodup⟩

theorem transactions_conserved_cleanPass :
    ∃ s, Run (Steps (step (smallDevice true))) (init (smallDevice true) 0) cleanPass s ∧
      s.accepted.length = 4 ∧ s.gcAdded.length = 1 ∧
      (s.accepted.Perm (s.handled ++ (s.readQueue ++ s.writeQueue)) ∧ s.accepted.Nodup ∧
        s.gcAdded.Perm (s.gcHandled ++ s.gcQueue) ∧ s.gcAdded.Nodup) := by
  refine exists_run_imp (fun s => s.moves = [] ∧ s.accepted.length = 4 ∧ s.gcAdded.length = 1)
    (by decide +kernel) fun s hrun hs => ?_
  obtain ⟨hmoves, haccepted, hadded⟩ := hs
  have hstraight : Ftl.Straight (smallDevice true) := fun hboth => absurd hboth.2 nofun
  exact ⟨haccepted, hadded, transactions_conserved _ rfl hstraight 0 _ s hrun hmoves⟩

/-- The write of the collector removes a read of the host from the read queue, and stays in the
queue of the collector. -/
theorem gc_write_drops_host_read :
    ∃ s, Run (Steps (step (smallDevice true))) (init (smallDevice true) 0)
      (livePass ++ List.replicate 3 (.update true) ++ [.addTransaction false 2] ++
        List.replicate 3 (.update true)) s ∧
      s.readQueue = [] ∧ ¬ s.accepted.Perm (s.handled ++ (s.readQueue ++ s.writeQueue)) ∧
      ¬ s.gcAdded.Perm (s.gcHandled ++ s.gcQueue) :=
  exists_run (by decide +kernel)

/-- As long as no live page is found in a picked block, a pass, normal or in panic mode, ends
only when the queue of the collector and its pending erases are empty and everything that had
to be moved has been moved. -/
theorem pass_ends_finished (cfg : Config) (hgc : cfg.garbageCollect = true) (address : ℕ)
    (actions : List Action) (s : Ftl) (h : Run (Steps (step cfg)) (init cfg address) actions s)
    (hmoves : s.moves = []) : ∀ e ∈ s.passEnds, e = true :=
  (Ftl.orderly_of_run hgc h hmoves).ends

theorem pass_ends_finished_cleanPass :
    ∃ s, Run (Steps (step (smallDevice true))) (init (smallDevice true) 0) cleanPass s ∧
      s.passEnds ≠ [] ∧ ∀ e ∈ s.passEnds, e = true :=
  exists_run_imp (fun s => s.moves = [] ∧ s.passEnds ≠ []) (by decide +kernel)
    fun s hrun hs => ⟨hs.2, pass_ends_finished _ rfl 0 _ s hrun hs.1⟩

/-- The pass ends when the erase has arrived, with the write of the live page still queued. -/
theorem pass_ends_before_write :
    ∃ s, Run (Steps (step (smallDevice true))) (init (smallDevice true) 0)
      (livePass ++ List.replicate 3 (.update true) ++ [.eraseArrives, .update true]) s ∧
      s.gcStatus = false ∧ s.gcQueue ≠ [] ∧ s.moves = [1] ∧ s.moved = [] ∧
      s.passEnds = [false] :=
  exists_run (by decide +kernel)

end HybridMemory.NVDIMMSim

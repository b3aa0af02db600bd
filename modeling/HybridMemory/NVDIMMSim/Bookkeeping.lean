import Mathlib.Data.Finset.Prod
import HybridMemory.NVDIMMSim.GarbageCollection
import HybridMemory.NVDIMMSim.StateFile

/-!
# The bookkeeping of the collecting layer

`GCFtl` counts the used and the dirty pages, picks the dirtiest block when it collects, and keeps
the writes of the host in a queue of limited length that reads are answered from.

* `counts_exact_iff`: the counters are right as long as no page is marked as dirty twice, and no
  state with dirty pages is saved and loaded;
* `collected_block_iff`: a normal pass collects a block with dirty pages if there are some behind
  the erase pointer (or in block 0), a pass in panic mode takes block 0 for planes without any;
* `addTransaction_outcome_iff`: transactions of the host are queued, or refused and nothing
  changes, unless the layer is in panic mode;
* `read_answered_iff`: a read is never answered with the data of a queued write, since the search
  for the write does not stop where it finds one.
-/

namespace HybridMemory.NVDIMMSim

open Transition

namespace Ftl

variable {cfg : Config} {s t u : Ftl} {q : ℕ × ℕ} {type : ChannelPacketType} {accepts : Bool}

/-! ### Counters of marked pages -/

/-- `n` pages have a mark. -/
def Counts (marks : ℕ × ℕ → Bool) (n : ℕ) : Prop :=
  ∃ pages : Finset (ℕ × ℕ), (∀ q, marks q = true ↔ q ∈ pages) ∧ pages.card = n

section Counts

variable {marks : ℕ × ℕ → Bool} {m n : ℕ}

theorem Counts.unique (hm : Counts marks m) (hn : Counts marks n) : m = n := by
  obtain ⟨U, hU, rfl⟩ := hm
  obtain ⟨V, hV, rfl⟩ := hn
  exact congrArg Finset.card (Finset.ext fun q => (hU q).symm.trans (hV q))

theorem counts_zero_iff : Counts marks 0 ↔ ∀ q, marks q = false := by
  constructor
  · rintro ⟨U, hU, hcard⟩ q
    obtain rfl := Finset.card_eq_zero.mp hcard
    rw [← Bool.not_eq_true, hU]
    exact Finset.notMem_empty q
  · intro h
    exact ⟨∅, fun q => by simp [h q], rfl⟩

theorem Counts.mark (h : Counts marks n) (hq : marks q = false) :
    Counts (Function.update marks q true) (n + 1) := by
  obtain ⟨U, hU, rfl⟩ := h
  have hfresh : q ∉ U := fun hmem => Bool.false_ne_true (hq.symm.trans ((hU q).mpr hmem))
  refine ⟨insert q U, fun p => ?_, Finset.card_insert_of_notMem hfresh⟩
  rw [Finset.mem_insert]
  by_cases hp : p = q
  · simp [hp]
  · simp [hU, hp]

/-- The marks of a block are taken away. -/
theorem Counts.clear (h : Counts marks n) (block pages : ℕ) :
    Counts (fun q => marks q && !decide (q.1 = block ∧ q.2 < pages))
      (countDown n ((List.range pages).countP fun page => marks (block, page))) := by
  obtain ⟨U, hU, rfl⟩ := h
  have hblock : (U.filter fun q => q.1 = block ∧ q.2 < pages).card =
      (List.range pages).countP fun page => marks (block, page) := by
    have himage : (U.filter fun q => q.1 = block ∧ q.2 < pages) =
        ((Finset.range pages).filter fun page => marks (block, page) = true).image
          (Prod.mk block) := by
      ext ⟨b, page⟩
      rw [Finset.mem_filter, ← hU]
      aesop
    rw [himage, Finset.card_image_of_injective _ (Prod.mk_right_injective block),
      List.countP_eq_length_filter]
    simp [Finset.card, Multiset.range]
  refine ⟨U.filter fun q => ¬ (q.1 = block ∧ q.2 < pages), fun q => ?_, ?_⟩
  · simp [hU, imp_iff_not_or]
  · rw [← hblock, countDown, if_pos (Finset.card_filter_le ..)]
    exact Nat.eq_sub_of_add_eq' (Finset.card_filter_add_card_filter_not ..)

end Counts

/-! ### The counters -/

/-- Both counters are right. -/
def Exact (s : Ftl) : Prop := Counts s.used s.usedPageCount ∧ Counts s.dirty s.dirtyPageCount

theorem Keeps.exact_iff (h : Keeps s t) : Exact t ↔ Exact s := by
  rw [Exact, h.used, h.usedPageCount, h.dirty, h.dirtyPageCount]
  rfl

theorem exact_place_iff {v : ℕ} (h : Counts s.used s.usedPageCount) (hq : s.used q = false) :
    Exact (s.place cfg v q) ↔ Exact s :=
  and_congr_left fun _ => iff_of_true (h.mark hq) h

theorem Exact.clearBlock (h : Exact s) (block : ℕ) : Exact (s.clearBlock cfg block) :=
  ⟨h.1.clear block cfg.pagesPerBlock, h.2.clear block cfg.pagesPerBlock⟩

/-- The page that the current transaction's address is mapped to is dirty already. -/
def oldDirty (cfg : Config) (s : Ftl) : Bool :=
  (s.addressMap.lookup s.currentTransaction.address).any fun pAddr => s.dirty (cfg.pageOf pAddr)

/-- Marking a page is right only if it was not dirty. -/
theorem exact_markOld_iff (hgc : cfg.garbageCollect = true) (h : Exact s) :
    Counts (s.markOld cfg).used (s.markOld cfg).usedPageCount ∧
      (Exact (s.markOld cfg) ↔ s.oldDirty cfg = false) := by
  rw [markOld, oldDirty]
  cases s.addressMap.lookup s.currentTransaction.address with
  | none => exact ⟨h.1, iff_of_true h rfl⟩
  | some pAddr =>
    simp only [writeUsedHandler, if_pos hgc, Option.any_some]
    refine ⟨h.1, fun hmarked => ?_, fun hclean => ⟨h.1, h.2.mark hclean⟩⟩
    by_contra hdirty
    -- the table is the same and the counter is not
    have hsame : Function.update s.dirty (cfg.pageOf pAddr) true = s.dirty :=
      Function.update_eq_self_iff.mpr ((Bool.not_eq_false _).mp hdirty).symm
    have hcount := hmarked.2
    rw [hsame] at hcount
    exact absurd (h.2.unique hcount) (Nat.ne_of_lt (Nat.lt_succ_self _))

theorem exact_handleWrite_iff (hgc : cfg.garbageCollect = true) (h : Exact s)
    (hwrite : s.handleWrite cfg accepts = some t) : Exact t ↔ s.oldDirty cfg = false := by
  obtain ⟨hused, hmarked⟩ := exact_markOld_iff hgc h
  rcases handleWrite_keeps hwrite with hkeeps | ⟨q, hq, hkeeps⟩
  · exact hkeeps.exact_iff.trans hmarked
  · exact hkeeps.exact_iff.trans ((exact_place_iff hused hq).trans hmarked)

theorem Exact.effect (h : Exact s) (heffect : Effect cfg s t) : Exact t := by
  cases heffect with
  | keeps hkeeps => exact hkeeps.exact_iff.mpr h
  | takes q hq hkeeps => exact hkeeps.exact_iff.mpr ((exact_place_iff h.1 hq).mpr h)
  | clears block hkeeps => exact hkeeps.exact_iff.mpr (h.clearBlock block)

/-- A cycle in which a dirty page is marked again. -/
def remarks (cfg : Config) (s : Ftl) : Action → Bool
  | .update _ => ((s.endPass cfg).startPanic cfg).any fun u =>
      u.busy && u.writing && u.oldDirty cfg
  | _ => false

theorem receive_tables (cfg : Config) (s : Ftl) (w : FlashTransaction) :
    Exact (s.receive cfg w) ↔ Exact s := by
  obtain ⟨readQueue, writeQueue, readPointer, nextId, accepted, handled, heq⟩ := receive_eq cfg s w
  rw [heq]
  rfl

theorem exact_step_iff (hgc : cfg.garbageCollect = true) {a : Action} (h : Exact s)
    (hstep : step cfg s a = some t) : Exact t ↔ s.remarks cfg a = false := by
  cases step_cases hgc hstep with
  | receives isWrite address w => exact iff_of_true ((receive_tables cfg s w).mpr h) rfl
  | works accepts u t hu hkeeps hbusy hwork =>
    have hexact : Exact u := hkeeps.exact_iff.mpr h
    rw [remarks, hu, Option.any_some, hbusy, Bool.true_and]
    rcases work_cases hgc hwork with ⟨hwriting, hwrite⟩ | ⟨hwriting, heffect⟩
    · rw [hwriting]
      exact exact_handleWrite_iff hgc hexact hwrite
    · rw [hwriting]
      exact iff_of_true (hexact.effect heffect) rfl
  | idles accepts u t hu hkeeps hbusy =>
    rw [remarks, hu, Option.any_some, hbusy]
    exact iff_of_true (hkeeps.exact_iff.mpr h) rfl
  | keeps a t ha hkeeps =>
    refine iff_of_true (hkeeps.exact_iff.mpr h) ?_
    cases a with
    | update accepts => exact absurd rfl (ha accepts)
    | _ => rfl

/-- A step, or (as `none`) a restart: the state is saved and loaded into a new layer. -/
def stepOrRestart (cfg : Config) (address : ℕ) (s : Ftl) : Option Action → Option Ftl
  | some a => step cfg s a
  | none => (loadNVState cfg (init cfg address) (s.saveNVState cfg)).map Restore.ftl

/-- No dirty page is marked again, and a state that is saved has no dirty pages. -/
def Unmixed (cfg : Config) (s : Ftl) : Option Action → Prop
  | some a => s.remarks cfg a = false
  | none => ∀ block < cfg.numBlocks, ∀ page < cfg.pagesPerBlock, s.dirty (block, page) = false

instance (cfg : Config) (s : Ftl) (a : Option Action) : Decidable (s.Unmixed cfg a) :=
  a.casesOn (inferInstanceAs (Decidable (∀ block < _, ∀ page < _, _ = false)))
    fun _ => inferInstanceAs (Decidable (_ = false))

theorem exact_restart_iff (hgc : cfg.garbageCollect = true) {address : ℕ}
    (hstep : stepOrRestart cfg address s none = some t) :
    Exact t ↔ s.Unmixed cfg none := by
  obtain ⟨r, hload, -, hftl⟩ := load_save cfg s address
  rw [stepOrRestart, hload, Option.map_some] at hstep
  obtain rfl := Option.some.inj hstep
  have hused : r.ftl.used = loadTable cfg s.used (fun _ => false) _ := congrArg Ftl.used hftl
  have hdirty : r.ftl.dirty = loadTable cfg s.dirty (fun _ => false) _ :=
    (congrArg Ftl.dirty hftl).trans (if_pos hgc)
  have hcount : r.ftl.usedPageCount = (s.saved cfg).length :=
    (congrArg Ftl.usedPageCount hftl).trans ((Nat.zero_add _).trans (if_pos hgc))
  have hzero : r.ftl.dirtyPageCount = 0 := congrArg Ftl.dirtyPageCount hftl
  rw [Exact, hused, hdirty, hcount, hzero]
  constructor
  · intro hexact block hblock page hpage
    have hq : cfg.IsPage (block, page) := ⟨hblock, hpage⟩
    rw [← loadTable_of_isPage s.dirty (fun _ => false) hq]
    exact counts_zero_iff.mp hexact.2 _
  · intro hclean
    refine ⟨⟨(s.saved cfg).toFinset, fun q => ?_, List.toFinset_card_of_nodup nodup_saved⟩,
      counts_zero_iff.mpr fun q => ?_⟩
    · rw [List.mem_toFinset, mem_saved, loadTable_eq_true_iff]
      exact and_congr_right fun hq => (and_iff_left fun _ => hclean q.1 hq.1 q.2 hq.2).symm
    · rw [← Bool.not_eq_true, loadTable_eq_true_iff]
      exact fun hq => Bool.false_ne_true ((hclean q.1 hq.1.1 q.2 hq.1.2).symm.trans hq.2)

/-- **The page counters.** They are right in all states of a run, restarts included, if and only if
no dirty page is marked as dirty again and no state with dirty pages is saved and loaded. -/
theorem counts_exact_iff (cfg : Config) (hgc : cfg.garbageCollect = true) (address : ℕ)
    (actions : List (Option Action)) (s : Ftl)
    (hrun : Run (Steps (stepOrRestart cfg address)) (init cfg address) actions s) :
    (∀ u, Visits (Steps (stepOrRestart cfg address)) (init cfg address) actions u →
        Counts u.used u.usedPageCount ∧ Counts u.dirty u.dirtyPageCount) ↔
      Run (Guarded (Unmixed cfg) (Steps (stepOrRestart cfg address))) (init cfg address)
        actions s := by
  have hstep : ∀ s a t, Exact s → stepOrRestart cfg address s a = some t →
      (Exact t ↔ s.Unmixed cfg a) := by
    intro s a t hs ht
    cases a with
    | none => exact exact_restart_iff hgc ht
    | some a => exact exact_step_iff hgc hs ht
  refine forall_visits_iff (I := Exact) (P := Exact) (fun _ => id)
    (fun s a t hs ht hG => (hstep s a t hs ht).mpr hG)
    (fun s a t hs ht hG hexact => hG ((hstep s a t hs ht).mp hexact)) ?_ hrun
  exact ⟨counts_zero_iff.mpr fun _ => rfl, counts_zero_iff.mpr fun _ => rfl⟩

/-- Two writes to one address: the first page is dirty. -/
def twoWritesToOne : List (Option Action) :=
  [.addTransaction true 0, .update true, .update true, .update true, .addTransaction true 0,
    .update true, .update true, .update true].map some

/-- The counters after the two writes. -/
theorem counts_exact_twoWrites :
    ∃ s, Run (Guarded (Unmixed (smallDevice true)) (Steps (stepOrRestart (smallDevice true) 0)))
        (init (smallDevice true) 0) twoWritesToOne s ∧
      (s.usedPageCount = 2 ∧ s.dirtyPageCount = 1) ∧
      ∀ u, Visits (Steps (stepOrRestart (smallDevice true) 0)) (init (smallDevice true) 0)
          twoWritesToOne u →
        Counts u.used u.usedPageCount ∧ Counts u.dirty u.dirtyPageCount :=
  exists_run_guarded_imp (fun s => s.usedPageCount = 2 ∧ s.dirtyPageCount = 1)
    (by decide +kernel) fun s hguard hcounts =>
      ⟨hcounts, (counts_exact_iff (smallDevice true) rfl 0 _ s hguard.of_guarded).mpr hguard⟩

/-- **A dirty page without a count.** After a restart the page is dirty and the counter is zero. -/
theorem counter_lost_by_restart :
    ∃ s, Run (Steps (stepOrRestart (smallDevice true) 0)) (init (smallDevice true) 0)
        (twoWritesToOne ++ [none]) s ∧
      (s.used (0, 0) = true ∧ s.used (0, 1) = true ∧ s.usedPageCount = 1) ∧
      s.dirty (0, 0) = true ∧ s.dirtyPageCount = 0 :=
  exists_run (by decide +kernel)

/-! ### The block that is collected -/

/-- The search for the dirtiest block ends with a dirty one of the blocks, or with block 0. -/
theorem dirtiest_cases (cfg : Config) (s : Ftl) (blocks : List ℕ) :
    s.dirtiest cfg blocks ∈ blocks ∧ 0 < s.dirtyCount cfg (s.dirtiest cfg blocks) ∨
      s.dirtiest cfg blocks = 0 ∧ ∀ b ∈ blocks, s.dirtyCount cfg b = 0 := by
  -- the count that the loop keeps is the one of the block that it keeps
  have hloop : ∀ best, blocks.foldl (fun best block =>
      if best.2 < s.dirtyCount cfg block then (block, s.dirtyCount cfg block) else best) (0, 0) =
        best →
      best.1 ∈ blocks ∧ 0 < best.2 ∧ best.2 = s.dirtyCount cfg best.1 ∨
        best = (0, 0) ∧ ∀ b ∈ blocks, s.dirtyCount cfg b = 0 := by
    induction blocks using List.reverseRecOn with
    | nil => exact fun best hbest => .inr ⟨hbest.symm, nofun⟩
    | append_singleton blocks block ih =>
      rintro best rfl
      rw [List.foldl_concat]
      generalize blocks.foldl _ _ = prev at ih ⊢
      split
      · next hmore => exact .inl ⟨by simp, Nat.zero_lt_of_lt hmore, rfl⟩
      · next hless =>
        rcases ih prev rfl with ⟨hmem, hpos, hcount⟩ | ⟨rfl, hnone⟩
        · exact .inl ⟨List.mem_append_left _ hmem, hpos, hcount⟩
        · refine .inr ⟨rfl, List.forall_mem_append.mpr ⟨hnone, List.forall_mem_singleton.mpr ?_⟩⟩
          exact Nat.eq_zero_of_not_pos hless
  rcases hloop _ rfl with ⟨hmem, hpos, hcount⟩ | ⟨hzero, hnone⟩
  · exact .inl ⟨hmem, hcount ▸ hpos⟩
  · exact .inr ⟨congrArg Prod.fst hzero, hnone⟩

/-- The block that a normal pass collects. -/
def normalBlock (cfg : Config) (s : Ftl) : ℕ :=
  s.dirtiest cfg (List.range' s.erasePointer (cfg.numBlocks - s.erasePointer))

/-- The block that a pass in panic mode collects for a plane. -/
def panicBlock (cfg : Config) (s : Ftl) (plane : ℕ) : ℕ :=
  s.dirtiest cfg (List.range' (plane * cfg.blocksPerPlane) cfg.blocksPerPlane)

/-- The blocks of a plane. -/
def InPlane (cfg : Config) (plane block : ℕ) : Prop :=
  plane * cfg.blocksPerPlane ≤ block ∧ block < (plane + 1) * cfg.blocksPerPlane

/-- **The block that is collected.** A normal pass collects a block with dirty pages if and only
if there is one behind the erase pointer or block 0 is one. A pass in panic mode collects a block
of each plane if and only if that plane has dirty pages or is the first one. -/
theorem collected_block_iff (cfg : Config) (s : Ftl) :
    (s.runGC cfg = { s with erasePointer := (s.normalBlock cfg + 1) % cfg.numBlocks }.addGC cfg
        (s.normalBlock cfg) ∧
      (0 < s.dirtyCount cfg (s.normalBlock cfg) ↔
        (∃ b, s.erasePointer ≤ b ∧ b < cfg.numBlocks ∧ 0 < s.dirtyCount cfg b) ∨
          0 < s.dirtyCount cfg 0)) ∧
    ∀ plane, s.runGCPlane cfg plane = s.addGC cfg (s.panicBlock cfg plane) ∧
      (InPlane cfg plane (s.panicBlock cfg plane) ↔
        (∃ b, InPlane cfg plane b ∧ 0 < s.dirtyCount cfg b) ∨
          plane = 0 ∧ 0 < cfg.blocksPerPlane) := by
  refine ⟨⟨rfl, ?_⟩, fun plane => ⟨rfl, ?_⟩⟩
  · have hblocks : ∀ b, b ∈ List.range' s.erasePointer (cfg.numBlocks - s.erasePointer) ↔
        s.erasePointer ≤ b ∧ b < cfg.numBlocks := fun b => by
      rw [List.mem_range'_1]
      omega
    rcases dirtiest_cases cfg s (List.range' s.erasePointer (cfg.numBlocks - s.erasePointer)) with
      ⟨hmem, hpos⟩ | ⟨hzero, hnone⟩
    · obtain ⟨hlo, hhi⟩ := (hblocks _).mp hmem
      exact iff_of_true hpos (.inl ⟨_, hlo, hhi, hpos⟩)
    · rw [normalBlock, hzero]
      refine ⟨.inr, Or.rec (fun ⟨b, hlo, hhi, hb⟩ => ?_) id⟩
      exact absurd (hnone b ((hblocks b).mpr ⟨hlo, hhi⟩)) (Nat.ne_of_gt hb)
  · have hblocks : ∀ b, b ∈ List.range' (plane * cfg.blocksPerPlane) cfg.blocksPerPlane ↔
        InPlane cfg plane b := fun b => by
      rw [List.mem_range'_1, InPlane, Nat.succ_mul]
    rcases dirtiest_cases cfg s (List.range' (plane * cfg.blocksPerPlane) cfg.blocksPerPlane) with
      ⟨hmem, hpos⟩ | ⟨hzero, hnone⟩
    · have hin := (hblocks _).mp hmem
      exact iff_of_true hin (.inl ⟨_, hin, hpos⟩)
    · have hclean : ¬ ∃ b, InPlane cfg plane b ∧ 0 < s.dirtyCount cfg b := fun ⟨b, hin, hb⟩ =>
        absurd (hnone b ((hblocks b).mpr hin)) (Nat.ne_of_gt hb)
      rw [panicBlock, hzero, or_iff_right hclean]
      constructor
      · rintro ⟨hfirst, hpos⟩
        have hsize : 0 < cfg.blocksPerPlane := Nat.pos_of_mul_pos_left hpos
        exact ⟨(Nat.mul_eq_zero.mp (Nat.le_zero.mp hfirst)).resolve_right (Nat.ne_of_gt hsize),
          hsize⟩
      · rintro ⟨rfl, hsize⟩
        exact ⟨(Nat.zero_mul _).le, by rwa [Nat.zero_add, Nat.one_mul]⟩

/-- **A pass that collects a clean block.** The only dirty page is in block 1, and the erase
pointer is at block 2: block 0 is collected. With a block to each plane, plane 0 is collected for
plane 2. -/
theorem clean_block_collected :
    let cfg := { smallDevice true with planesPerDie := 3, blocksPerPlane := 1 }
    let s := { init cfg 0 with dirty := fun q => q = (1, 0), erasePointer := 2 }
    s.dirtyCount cfg 1 = 1 ∧ s.normalBlock cfg = 0 ∧ s.dirtyCount cfg 0 = 0 ∧
      s.panicBlock cfg 2 = 0 ∧ ¬ InPlane cfg 2 0 := by
  refine ⟨by decide, by decide, by decide, by decide, fun h => ?_⟩
  exact absurd h.1 (by decide)

/-! ### Transactions of the host -/

/-- The write queue is not longer than its limit. -/
def Bounded (cfg : Config) (s : Ftl) : Prop :=
  cfg.ftlWriteQueueLength ≠ 0 → s.writeQueue.length ≤ cfg.ftlWriteQueueLength

theorem Bounded.advances (h : Bounded cfg s) (hadvances : Advances s t) : Bounded cfg t :=
  fun hlimit => hadvances.writeQueue.trans (h hlimit)

/-- The transaction is in a queue, and the limit is kept. -/
def Queued (cfg : Config) (w : FlashTransaction) (s t : Ftl) : Prop :=
  (w ∈ t.readQueue ++ t.writeQueue ∧ t.accepted = s.accepted) ∧ Bounded cfg t

/-- A queue takes a transaction, or is full. -/
theorem attemptAdd_cases (w : FlashTransaction) (queue : List FlashTransaction) (limit : ℕ) :
    attemptAdd w queue limit = some (queue ++ [w]) ∧ (limit ≠ 0 → queue.length < limit) ∨
      attemptAdd w queue limit = none ∧ limit ≠ 0 ∧ limit ≤ queue.length := by
  unfold attemptAdd
  split
  · next hfull => exact .inr ⟨rfl, hfull.2, hfull.1⟩
  · next hroom => exact .inl ⟨rfl, fun hlimit => Nat.lt_of_not_le fun hle => hroom ⟨hle, hlimit⟩⟩

/-- A write is replaced in a shorter queue, or nothing happens. -/
theorem replaceWrite_cases (s : Ftl) (w : FlashTransaction) :
    s.replaceWrite w = s ∨ (s.replaceWrite w).writeQueue.length < s.writeQueue.length := by
  unfold replaceWrite
  split
  · exact .inl rfl
  · by_cases hold : ∃ v ∈ s.writeQueue, v.address = w.address
    · obtain ⟨v, hv, haddress⟩ := hold
      right
      dsimp only
      rw [List.length_eraseP_of_mem hv (by simpa using haddress)]
      exact Nat.sub_one_lt_of_lt (List.length_pos_of_mem hv)
    · left
      have hnone : ∀ v ∈ s.writeQueue, ¬ decide (v.address = w.address) = true := fun v hv h =>
        hold ⟨v, hv, of_decide_eq_true h⟩
      rw [List.eraseP_of_forall_not hnone, List.find?_eq_none.mpr hnone, Option.toList_none,
        List.append_nil]

theorem addWrite_cases (cfg : Config) (s : Ftl) (w : FlashTransaction) :
    (∃ t, s.addWrite cfg w = some t ∧ Queued cfg w s t) ∨ s.addWrite cfg w = none ∧
      cfg.ftlWriteQueueLength ≠ 0 ∧ cfg.ftlWriteQueueLength ≤ s.writeQueue.length := by
  unfold addWrite
  rcases attemptAdd_cases w s.writeQueue cfg.ftlWriteQueueLength with
    ⟨hadd, hroom⟩ | ⟨hadd, hfull⟩
  · rw [hadd]
    refine .inl ⟨_, rfl, ⟨by simp, rfl⟩, fun hlimit => ?_⟩
    rw [List.length_append]
    exact hroom hlimit
  · rw [hadd]
    exact .inr ⟨rfl, hfull⟩

theorem addRead_cases (h : Bounded cfg s) (w : FlashTransaction) :
    (∃ t, s.addRead cfg w = some t ∧ Queued cfg w s t) ∨ s.addRead cfg w = none := by
  unfold addRead
  rcases attemptAdd_cases w s.readQueue cfg.ftlReadQueueLength with ⟨hadd, -⟩ | ⟨hadd, -⟩
  · rw [hadd]
    exact .inl ⟨_, rfl, ⟨by simp, rfl⟩, h⟩
  · rw [hadd]
    exact .inr rfl

/-- A transaction is queued, or refused and nothing changes: a write that replaces an older one
always finds room. -/
theorem enqueue_cases (h : Bounded cfg s) (w : FlashTransaction) :
    (∃ t, s.enqueue cfg w = some t ∧ Queued cfg w s t) ∨
      s.enqueue cfg w = none ∧ s.refused cfg w = s := by
  unfold enqueue refused
  by_cases hschedule : cfg.schedule
  · by_cases hwrite : w.transactionType = .dataWrite
    · rw [if_pos hschedule, if_pos hwrite, if_pos ⟨hschedule, hwrite⟩]
      rcases addWrite_cases cfg (s.replaceWrite w) w with ⟨t, ht, hqueued⟩ | ⟨hnone, hlimit, hfull⟩
      · obtain ⟨writeQueue, handled, hreplace⟩ := replaceWrite_eq s w
        refine .inl ⟨t, ht, ⟨hqueued.1.1, hqueued.1.2.trans ?_⟩, hqueued.2⟩
        rw [hreplace]
      · refine .inr ⟨hnone, (replaceWrite_cases s w).resolve_right fun hless => ?_⟩
        exact absurd (hfull.trans_lt hless) (Nat.not_lt.mpr (h hlimit))
    · rw [if_pos hschedule, if_neg hwrite, if_neg fun hboth => hwrite hboth.2]
      exact (addRead_cases h w).imp_right fun hnone => ⟨hnone, rfl⟩
  · have hboth : ¬ (cfg.schedule = true ∧ w.transactionType = .dataWrite) :=
      fun hboth => hschedule hboth.1
    rw [if_neg hschedule, if_neg hboth]
    split_ifs
    · exact (addWrite_cases cfg s w).imp_right fun hnone => ⟨hnone.1, rfl⟩
    · exact (addRead_cases h w).imp_right fun hnone => ⟨hnone, rfl⟩
    · rcases attemptAdd_cases w s.readQueue cfg.ftlReadQueueLength with ⟨hadd, -⟩ | ⟨hadd, -⟩
      · rw [hadd]
        exact .inl ⟨_, rfl, ⟨by simp, rfl⟩, h⟩
      · rw [hadd]
        exact .inr ⟨rfl, rfl⟩

theorem receive_cases (h : Bounded cfg s) (w : FlashTransaction) :
    (w ∈ (s.receive cfg w).readQueue ++ (s.receive cfg w).writeQueue ∧
      (s.receive cfg w).accepted = s.accepted ++ [w] ∧ Bounded cfg (s.receive cfg w)) ∨
    s.receive cfg w = s := by
  unfold receive
  rcases enqueue_cases h w with ⟨t, ht, ⟨hmem, haccepted⟩, hbounded⟩ | ⟨hnone, hsame⟩
  · rw [ht]
    exact .inl ⟨hmem, congrArg (· ++ [w]) haccepted, hbounded⟩
  · rw [hnone]
    exact .inr hsame

theorem bounded_of_run (hgc : cfg.garbageCollect = true) {address : ℕ} {actions : List Action}
    (hrun : Run (Steps (step cfg)) (init cfg address) actions s) : Bounded cfg s := by
  refine hrun.invariant (fun _ => Nat.zero_le _) fun s a t hs ht => ?_
  cases step_cases hgc ht with
  | receives isWrite address w =>
    rcases receive_cases hs w with ⟨-, -, hbounded⟩ | hsame
    · exact hbounded
    · rwa [hsame]
  | works accepts u t hu hkeeps hbusy hwork =>
    exact (hs.advances hkeeps.toAdvances).advances (work_advances hgc hwork)
  | idles accepts u t hu hkeeps hbusy => exact hs.advances hkeeps.toAdvances
  | keeps a t ha hkeeps => exact hs.advances hkeeps.toAdvances

/-- **Transactions of the host.** In a reachable state, a transaction with an address in range is
queued, or refused without any change, if and only if the layer is not in panic mode. -/
theorem addTransaction_outcome_iff (cfg : Config) (hgc : cfg.garbageCollect = true) (first : ℕ)
    (actions : List Action) (s : Ftl)
    (hrun : Run (Steps (step cfg)) (init cfg first) actions s) (isWrite : Bool) (address : ℕ)
    (hrange : address < cfg.virtualTotalSize * 1024) :
    (∃ t, s.addTransaction cfg isWrite address = some t ∧
      ((∃ w : FlashTransaction, w.address = address ∧
        w.transactionType = (if isWrite then .dataWrite else .dataRead) ∧
        t.accepted = s.accepted ++ [w] ∧ w ∈ t.readQueue ++ t.writeQueue) ∨ t = s)) ↔
    s.panicMode = false := by
  rw [addTransaction]
  cases hpanic : s.panicMode with
  | true =>
    rw [if_pos (.inr ⟨hgc, rfl⟩)]
    exact iff_of_false (fun ⟨t, ht, _⟩ => absurd ht nofun) nofun
  | false =>
    rw [if_neg (not_or.mpr ⟨Nat.not_le.mpr hrange, fun h => Bool.false_ne_true h.2⟩)]
    refine iff_of_true ⟨_, rfl, ?_⟩ rfl
    rcases receive_cases (bounded_of_run hgc hrun)
      ⟨if isWrite then .dataWrite else .dataRead, address, s.nextId⟩ with
      ⟨hmem, haccepted, -⟩ | hsame
    · exact .inl ⟨_, rfl, rfl, haccepted, hmem⟩
    · exact .inr hsame

/-- A read after a write has been handled, while another waits. -/
theorem addTransaction_outcome_after_writes :
    ∃ s, Run (Steps (step (smallDevice true))) (init (smallDevice true) 0)
        [.addTransaction true 0, .update true, .update true, .update true,
          .addTransaction true 1] s ∧
      s.handled.length = 1 ∧ s.accepted.length = 2 ∧
      ∃ t, s.addTransaction (smallDevice true) false 1 = some t ∧
        ((∃ w : FlashTransaction, w.address = 1 ∧ w.transactionType = .dataRead ∧
          t.accepted = s.accepted ++ [w] ∧ w ∈ t.readQueue ++ t.writeQueue) ∨ t = s) := by
  refine exists_run_imp (fun s => s.handled.length = 1 ∧ s.accepted.length = 2 ∧
    s.panicMode = false) (by decide +kernel) fun s hrun hs => ⟨hs.1, hs.2.1, ?_⟩
  exact (addTransaction_outcome_iff (smallDevice true) rfl 0 _ s hrun false 1
    (by decide)).mpr hs.2.2

/-- A device that collects as soon as two pages are used. -/
def eagerDevice : Config := { smallDevice true with forceGCPages := 2 }

/-- **A transaction in panic mode.** After two writes to one address the layer collects in panic
mode, and the next transaction ends the simulation. -/
theorem transaction_in_panic :
    ∃ s, Run (Steps (step eagerDevice)) (init eagerDevice 0)
        [.addTransaction true 0, .update true, .update true, .update true, .addTransaction true 0,
          .update true, .update true, .update true, .update true] s ∧
      0 < eagerDevice.virtualTotalSize * 1024 ∧ s.addTransaction eagerDevice false 0 = none :=
  exists_run (by decide +kernel)

/-! ### Reads of queued writes -/

/-- How a call of `handle_read` goes, as far as the write queue is concerned: on to the address
map, waiting, or returning the data of the write that the iterator points at (`none` is `end()`,
which has no data). -/
inductive QueueAnswer
  | passes
  | waits
  | answers (w : Option FlashTransaction)

/-- What `handle_read` keeps between its calls; the iterator `reading_write` is given by the rest of
the queue from its entry on. -/
structure QueueReader where
  queueAccessCounter : ℕ
  readingWrite : List FlashTransaction

/-- The loop that looks for a write. It sets the counter and goes on to the end. -/
def searchQueue (cfg : Config) (vAddr : ℕ) :
    List FlashTransaction → ℕ × Bool → List FlashTransaction × ℕ × Bool
  | [], found => ([], found)
  | w :: queue, found =>
    searchQueue cfg vAddr queue
      (if w.address = vAddr then (cfg.queueAccessCycles, true) else found)

namespace QueueReader

def call (cfg : Config) (vAddr : ℕ) (queue : List FlashTransaction) (r : QueueReader) :
    QueueAnswer × QueueReader :=
  if r.queueAccessCounter = 0 then
    let (readingWrite, counter, handled) := searchQueue cfg vAddr queue (0, false)
    (if handled then .waits else .passes, ⟨counter, readingWrite⟩)
  else
    let counter := r.queueAccessCounter - 1
    (if counter = 0 then .answers r.readingWrite.head? else .waits, ⟨counter, r.readingWrite⟩)

/-- The calls for a read, with the write queue that each of them finds. -/
def after (cfg : Config) (vAddr : ℕ) (queues : ℕ → List FlashTransaction) (r : QueueReader) :
    ℕ → QueueReader
  | 0 => r
  | n + 1 => ((after cfg vAddr queues r n).call cfg vAddr (queues n)).2

def answer (cfg : Config) (vAddr : ℕ) (queues : ℕ → List FlashTransaction) (r : QueueReader)
    (n : ℕ) : QueueAnswer :=
  ((r.after cfg vAddr queues n).call cfg vAddr (queues n)).1

end QueueReader

theorem searchQueue_eq (cfg : Config) (vAddr : ℕ) (queue : List FlashTransaction)
    (found : ℕ × Bool) : searchQueue cfg vAddr queue found =
      ([], if queue.any (·.address = vAddr) then (cfg.queueAccessCycles, true) else found) := by
  induction queue generalizing found with
  | nil => rfl
  | cons w queue ih =>
    rw [searchQueue, ih, List.any_cons]
    by_cases hw : w.address = vAddr <;> simp [hw]

/-- `handle_read` does what the calls answer. -/
theorem handleRead_eq_call (hschedule : cfg.schedule = true) (r : QueueReader)
    (hr : r.queueAccessCounter = s.queueAccessCounter) :
    s.handleRead cfg false accepts =
      match r.call cfg s.currentTransaction.address s.writeQueue with
      | (.passes, _) => s.readMapped cfg false accepts
      | (.waits, r) => some { s with queueAccessCounter := r.queueAccessCounter }
      | (.answers _, r) =>
        { s with queueAccessCounter := r.queueAccessCounter }.readDone cfg .read := by
  rw [handleRead, QueueReader.call, searchQueue_eq, hr]
  by_cases hcounter : s.queueAccessCounter = 0
  · by_cases hany : s.writeQueue.any (·.address = s.currentTransaction.address)
    · simp [hschedule, hcounter, hany]
    · simp [hschedule, hcounter, hany]
  · simp only [hschedule, Nat.pos_of_ne_zero hcounter, if_neg hcounter]
    by_cases hlast : s.queueAccessCounter - 1 = 0 <;> simp [hlast]

theorem readingWrite_eq_nil (cfg : Config) (vAddr : ℕ) (queues : ℕ → List FlashTransaction)
    (readingWrite : List FlashTransaction) (n : ℕ)
    (h : (QueueReader.after cfg vAddr queues ⟨0, readingWrite⟩ n).queueAccessCounter ≠ 0) :
    (QueueReader.after cfg vAddr queues ⟨0, readingWrite⟩ n).readingWrite = [] := by
  induction n with
  | zero => exact absurd rfl h
  | succ n ih =>
    rw [QueueReader.after, QueueReader.call] at h ⊢
    split
    · rw [searchQueue_eq]
    · next hcounter => exact ih hcounter

/-- **Reads of queued writes.** A read of an address for which writes are queued is never answered
with the data of one of them. -/
theorem read_answered_iff (cfg : Config) (vAddr : ℕ) (queues : ℕ → List FlashTransaction)
    (readingWrite : List FlashTransaction) :
    ((∃ w ∈ queues 0, w.address = vAddr) → ∃ n w, w.address = vAddr ∧
        QueueReader.answer cfg vAddr queues ⟨0, readingWrite⟩ n = .answers (some w)) ↔
      ∀ w ∈ queues 0, w.address ≠ vAddr := by
  constructor
  · intro hanswered w hw haddress
    obtain ⟨n, v, -, hanswer⟩ := hanswered ⟨w, hw, haddress⟩
    rw [QueueReader.answer, QueueReader.call] at hanswer
    split at hanswer
    · rw [searchQueue_eq] at hanswer
      dsimp only at hanswer
      split at hanswer <;> contradiction
    · next hcounter =>
      rw [readingWrite_eq_nil _ _ _ _ _ hcounter] at hanswer
      dsimp only at hanswer
      split at hanswer
      · exact absurd (QueueAnswer.answers.inj hanswer) nofun
      · contradiction
  · rintro hnone ⟨w, hw, haddress⟩
    exact absurd haddress (hnone w hw)

/-- **An answer without data.** -/
theorem read_answered_from_end :
    QueueReader.answer { smallDevice true with schedule := true } 0
      (fun _ => [⟨.dataWrite, 0, 0⟩]) ⟨0, []⟩ 1 = .answers none :=
  rfl

end Ftl

end HybridMemory.NVDIMMSim

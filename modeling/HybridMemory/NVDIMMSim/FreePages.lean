import Mathlib.Tactic.Ring
import HybridMemory.NVDIMMSim.AddressMap

/-!
# The pages that writes take

`handle_write` looks for a free page from the plane of the write pointer to the end of the flash,
and then from the beginning. The second search stops at a bound that was divided by the block size
once more, and the loop that is meant to try the other planes when a queue of the controller is
full keeps the page that it found first.

* `handleWrite_finds_iff`: a page is found only if one is free behind the write pointer or below
  the wrong bound;
* `writes_spread`: as long as no plane is full, one write goes to each plane, in the order of the
  write pointer;
* `writeLoop_places_iff`: a write is placed in a plane with room only if that is the first choice.
-/

namespace HybridMemory.NVDIMMSim

open Transition Function

/-! ### Planes -/

/-- Three digits and the number they write. -/
private theorem digits_iff {A B C n a b c : ℕ} (hn : n < A * B * C) (ha : a < A) (hb : b < B)
    (hc : c < C) : (n % A = a ∧ n / A % B = b ∧ n / A / B % C = c) ↔ n = a + A * (b + B * c) := by
  constructor
  · rintro ⟨rfl, rfl, rfl⟩
    have htop : n / A / B < C := by
      rw [Nat.div_div_eq_div_mul]
      exact Nat.div_lt_of_lt_mul hn
    rw [Nat.mod_eq_of_lt htop, Nat.mod_add_div, Nat.mod_add_div]
  · rintro rfl
    rw [Nat.add_mul_mod_self_left, Nat.add_mul_div_left _ _ (Nat.zero_lt_of_lt ha),
      Nat.div_eq_of_lt ha, Nat.zero_add, Nat.add_mul_mod_self_left,
      Nat.add_mul_div_left _ _ (Nat.zero_lt_of_lt hb), Nat.div_eq_of_lt hb, Nat.zero_add,
      Nat.mod_eq_of_lt ha, Nat.mod_eq_of_lt hb, Nat.mod_eq_of_lt hc]
    exact ⟨rfl, rfl, rfl⟩

private theorem digits_lt {A B C a b c : ℕ} (ha : a < A) (hb : b < B) (hc : c < C) :
    a + A * (b + B * c) < A * B * C := by
  calc a + A * (b + B * c) < A * (b + B * c + 1) := by rw [Nat.mul_succ]; omega
    _ ≤ A * (B * (c + 1)) := Nat.mul_le_mul_left _ (by rw [Nat.mul_succ]; omega)
    _ ≤ A * (B * C) := Nat.mul_le_mul_left _ (Nat.mul_le_mul_left _ hc)
    _ = A * B * C := (Nat.mul_assoc A B C).symm

/-- What `Ftl::translate` enters in a packet. -/
structure Location where
  package : ℕ
  die : ℕ
  plane : ℕ
  block : ℕ
  page : ℕ

namespace Config

variable {cfg : Config} {q : ℕ × ℕ} {c d p n : ℕ}

/-- `Ftl::translate`; out of range it exits. -/
def translate (cfg : Config) (pAddr : ℕ) : Option Location :=
  if cfg.numBlocks * cfg.blockSize ≤ pAddr then none
  else
    let page := pAddr / cfg.nvPageSize
    let block := page / cfg.pagesPerBlock
    let plane := block / cfg.blocksPerPlane
    let die := plane / cfg.planesPerDie
    some {
      package := die / cfg.diesPerPackage % cfg.numPackages
      die := die % cfg.diesPerPackage
      plane := plane % cfg.planesPerDie
      block := block % cfg.blocksPerPlane
      page := page % cfg.pagesPerBlock }

/-- The package, die and plane at a physical address. -/
def planeOf (cfg : Config) (pAddr : ℕ) : Option (ℕ × ℕ × ℕ) :=
  (cfg.translate pAddr).map fun loc => (loc.package, loc.die, loc.plane)

/-- A triple that names a plane. -/
def IsPlane (cfg : Config) (triple : ℕ × ℕ × ℕ) : Prop :=
  triple.1 < cfg.numPackages ∧ triple.2.1 < cfg.diesPerPackage ∧ triple.2.2 < cfg.planesPerDie

/-- A page of the device. -/
def IsPage (cfg : Config) (q : ℕ × ℕ) : Prop := q.1 < cfg.numBlocks ∧ q.2 < cfg.pagesPerBlock

theorem translate_pageAddr (h : cfg.IsPage q) :
    cfg.translate (cfg.pageAddr q) = some {
      package := q.1 / cfg.blocksPerPlane / cfg.planesPerDie / cfg.diesPerPackage % cfg.numPackages
      die := q.1 / cfg.blocksPerPlane / cfg.planesPerDie % cfg.diesPerPackage
      plane := q.1 / cfg.blocksPerPlane % cfg.planesPerDie
      block := q.1 % cfg.blocksPerPlane
      page := q.2 } := by
  have hblock : cfg.pageAddr q / cfg.blockSize = q.1 :=
    congrArg Prod.fst (cfg.pageOf_pageAddr h.2)
  have hlt : cfg.pageAddr q < cfg.numBlocks * cfg.blockSize := by
    have hpos : 0 < cfg.blockSize := Nat.mul_pos cfg.nvPageSize_pos cfg.pagesPerBlock_pos
    rw [← Nat.div_lt_iff_lt_mul hpos, hblock]
    exact h.1
  rw [translate, if_neg (Nat.not_le.mpr hlt)]
  simp only [cfg.pageAddr_div_nvPageSize, Nat.mul_add_mod, Nat.mod_eq_of_lt h.2,
    Nat.mul_add_div cfg.pagesPerBlock_pos, Nat.div_eq_of_lt h.2, Nat.add_zero]

/-- The pages of a plane are those of its blocks. -/
theorem planeOf_eq_iff (h : cfg.IsPage q) (hplane : cfg.IsPlane (c, d, p)) :
    cfg.planeOf (cfg.pageAddr q) = some (c, d, p) ↔
      cfg.firstBlock c d p ≤ q.1 ∧ q.1 < cfg.firstBlock c d p + cfg.blocksPerPlane := by
  obtain ⟨hc, hd, hp⟩ := hplane
  have hpos : 0 < cfg.blocksPerPlane := Nat.pos_of_mul_pos_left (Nat.zero_lt_of_lt h.1)
  have hlt : q.1 / cfg.blocksPerPlane <
      cfg.planesPerDie * cfg.diesPerPackage * cfg.numPackages := by
    rw [Nat.div_lt_iff_lt_mul hpos]
    refine lt_of_lt_of_eq h.1 ?_
    rw [numBlocks]
    ring
  have hdigits := digits_iff hlt hp hd hc
  rw [planeOf, translate_pageAddr h, Option.map_some, Option.some.injEq, Prod.mk.injEq,
    Prod.mk.injEq]
  constructor
  · rintro ⟨hpackage, hdie, hplane⟩
    have hindex := hdigits.mp ⟨hplane, hdie, hpackage⟩
    rw [firstBlock, ← hindex]
    exact ⟨Nat.mul_div_le _ _, Nat.lt_mul_div_succ _ hpos⟩
  · rintro ⟨hlo, hhi⟩
    have hindex : q.1 / cfg.blocksPerPlane = p + cfg.planesPerDie * (d + cfg.diesPerPackage * c) :=
      Nat.div_eq_of_lt_le (by rwa [Nat.mul_comm]) (by rwa [Nat.succ_mul, Nat.mul_comm])
    obtain ⟨hplane, hdie, hpackage⟩ := hdigits.mpr hindex
    exact ⟨hpackage, hdie, hplane⟩

/-- The planes in the order of the write pointer. -/
def planeAt (cfg : Config) (n : ℕ) : ℕ × ℕ × ℕ :=
  (n % cfg.numPackages, n / cfg.numPackages % cfg.diesPerPackage,
    n / cfg.numPackages / cfg.diesPerPackage % cfg.planesPerDie)

theorem exists_planeAt (hplane : cfg.IsPlane (c, d, p)) :
    ∃ n < cfg.numPackages * cfg.diesPerPackage * cfg.planesPerDie, cfg.planeAt n = (c, d, p) := by
  have hlt := digits_lt hplane.1 hplane.2.1 hplane.2.2
  obtain ⟨hc, hd, hp⟩ := (digits_iff hlt hplane.1 hplane.2.1 hplane.2.2).mpr rfl
  refine ⟨_, hlt, ?_⟩
  rw [planeAt, hc, hd, hp]

theorem isPlane_planeAt (hn : n < cfg.numPackages * cfg.diesPerPackage * cfg.planesPerDie) :
    cfg.IsPlane (cfg.planeAt n) := by
  have hpos := Nat.zero_lt_of_lt hn
  have hpair := Nat.pos_of_mul_pos_right hpos
  exact ⟨Nat.mod_lt _ (Nat.pos_of_mul_pos_right hpair),
    Nat.mod_lt _ (Nat.pos_of_mul_pos_left hpair), Nat.mod_lt _ (Nat.pos_of_mul_pos_left hpos)⟩

theorem planeAt_inj {m : ℕ} (hn : n < cfg.numPackages * cfg.diesPerPackage * cfg.planesPerDie)
    (hm : m < cfg.numPackages * cfg.diesPerPackage * cfg.planesPerDie)
    (h : cfg.planeAt n = cfg.planeAt m) : n = m := by
  obtain ⟨hc, hd, hp⟩ := isPlane_planeAt hn
  rw [planeAt, planeAt, Prod.mk.injEq, Prod.mk.injEq] at h
  have hnum := (digits_iff hn hc hd hp).mp ⟨rfl, rfl, rfl⟩
  have hnum' := (digits_iff hm hc hd hp).mp ⟨h.1.symm, h.2.1.symm, h.2.2.symm⟩
  exact hnum.trans hnum'.symm

end Config

namespace Ftl

variable {cfg : Config} {s t u : Ftl} {q : ℕ × ℕ} {accepts : Bool}

/-- An unused page of the device. -/
def Free (cfg : Config) (s : Ftl) (q : ℕ × ℕ) : Prop := cfg.IsPage q ∧ s.used q = false

/-- The write pointer. -/
def pointer (s : Ftl) : ℕ × ℕ × ℕ := (s.channel, s.die, s.plane)

/-- The first block of the plane that the write pointer names. -/
def startBlock (cfg : Config) (s : Ftl) : ℕ := cfg.firstBlock s.channel s.die s.plane

/-! ### The search -/

theorem scan_eq_none_iff {used : ℕ × ℕ → Bool} {lo hi : ℕ} :
    scan cfg used lo hi = none ↔
      ∀ q : ℕ × ℕ, lo ≤ q.1 → q.1 < hi → q.2 < cfg.pagesPerBlock → used q = true := by
  simp only [scan, List.findSome?_eq_none_iff, Option.map_eq_none_iff, List.find?_eq_none,
    List.mem_range'_1, List.mem_range, Bool.not_eq_true', Bool.not_eq_false]
  constructor
  · intro h q hlo hhi hpage
    exact h q.1 ⟨hlo, by omega⟩ q.2 hpage
  · intro h block hblock page hpage
    exact h (block, page) hblock.1 (by omega) hpage

/-- A search is the search of a first part, and of the rest if there is nothing. -/
theorem scan_of_part {used : ℕ × ℕ → Bool} {lo mid hi : ℕ} (hlo : lo ≤ mid) (hmid : mid ≤ hi)
    (h : scan cfg used lo mid = some q) : scan cfg used lo hi = some q := by
  have hsplit : List.range' lo (hi - lo) =
      List.range' lo (mid - lo) ++ List.range' mid (hi - mid) := by
    rw [← Nat.sub_add_sub_cancel hmid hlo, Nat.add_comm, ← List.range'_append_1,
      Nat.add_sub_cancel' hlo]
  unfold scan at h ⊢
  rw [hsplit, List.findSome?_append, h, Option.some_or]

theorem startBlock_le (h : cfg.IsPlane s.pointer) :
    s.startBlock cfg + cfg.blocksPerPlane ≤ cfg.numBlocks := by
  obtain ⟨hc, hd, hp⟩ := h
  calc s.startBlock cfg + cfg.blocksPerPlane
      = cfg.blocksPerPlane * (s.plane +
          cfg.planesPerDie * (s.die + cfg.diesPerPackage * s.channel) + 1) := rfl
    _ ≤ cfg.blocksPerPlane * (cfg.planesPerDie * cfg.diesPerPackage * cfg.numPackages) :=
        Nat.mul_le_mul_left _ (digits_lt hp hd hc)
    _ = cfg.numBlocks := by rw [Config.numBlocks]; ring

/-- What the search finds, in terms of the two parts that it looks at. -/
theorem freePage_iff (h : cfg.IsPlane s.pointer) :
    (∀ q, s.freePage cfg = some q → s.Free cfg q) ∧
    ((∃ q, s.freePage cfg = some q) ↔ ∃ q, s.Free cfg q ∧
      (s.startBlock cfg ≤ q.1 ∨ q.1 < s.startBlock cfg / cfg.blockSize)) := by
  have hstart := Nat.le_of_add_right_le (startBlock_le h)
  have hbound := (Nat.div_le_self (s.startBlock cfg) cfg.blockSize).trans hstart
  have hsearch : s.freePage cfg =
      (scan cfg s.used (s.startBlock cfg) cfg.numBlocks).or
        (scan cfg s.used 0 (s.startBlock cfg / cfg.blockSize)) := by
    rw [freePage, ← startBlock]
    cases scan cfg s.used (s.startBlock cfg) cfg.numBlocks <;> rfl
  have hfound : ∀ q, s.freePage cfg = some q → s.Free cfg q ∧
      (s.startBlock cfg ≤ q.1 ∨ q.1 < s.startBlock cfg / cfg.blockSize) := by
    intro q hq
    rw [hsearch, Option.or_eq_some_iff] at hq
    rcases hq with hscan | ⟨-, hscan⟩
    · obtain ⟨⟨hlo, hhi⟩, hpage, hfree⟩ := scan_eq_some hscan
      exact ⟨⟨⟨hhi, hpage⟩, hfree⟩, .inl hlo⟩
    · obtain ⟨⟨-, hhi⟩, hpage, hfree⟩ := scan_eq_some hscan
      exact ⟨⟨⟨by omega, hpage⟩, hfree⟩, .inr hhi⟩
  refine ⟨fun q hq => (hfound q hq).1, Exists.imp hfound, ?_⟩
  rintro ⟨q, ⟨⟨hblock, hpage⟩, hfree⟩, hwhere⟩
  rw [← Option.ne_none_iff_exists', hsearch, Ne, Option.or_eq_none_iff, scan_eq_none_iff,
    scan_eq_none_iff]
  rintro ⟨hfirst, hsecond⟩
  have hused : s.used q = true := hwhere.elim (fun hlo => hfirst q hlo hblock hpage)
    fun hhi => hsecond q (Nat.zero_le _) hhi hpage
  rw [hfree] at hused
  exact absurd hused Bool.false_ne_true

theorem pointer_markOld (cfg : Config) (s : Ftl) : (s.markOld cfg).pointer = s.pointer := by
  obtain ⟨used, dirty, dirtyPageCount, hmark⟩ := markOld_eq cfg s
  rw [hmark]
  rfl

/-- **The search for a free page.** What `handle_write` finds is a free page; and it finds one if
and only if there is one in or behind the plane of the write pointer, or below the bound of the
second search. Without one it does not return. -/
theorem handleWrite_finds_iff (cfg : Config) (s : Ftl) (h : cfg.IsPlane s.pointer) :
    (∀ q, (s.markOld cfg).freePage cfg = some q → (s.markOld cfg).Free cfg q) ∧
    ((∃ q, (s.markOld cfg).freePage cfg = some q) ↔
      ∃ q, (s.markOld cfg).Free cfg q ∧
        (s.startBlock cfg ≤ q.1 ∨ q.1 < s.startBlock cfg / cfg.blockSize)) ∧
    ∀ accepts, cfg.enableWriteScript = false →
      s.handleWrite cfg accepts =
        ((s.markOld cfg).freePage cfg).bind ((s.markOld cfg).sendWrite cfg accepts) := by
  have hpointer := pointer_markOld cfg s
  have hstart : (s.markOld cfg).startBlock cfg = s.startBlock cfg := by
    obtain ⟨used, dirty, dirtyPageCount, hmark⟩ := markOld_eq cfg s
    rw [hmark]
    rfl
  obtain ⟨hfree, hiff⟩ := freePage_iff (hpointer ▸ h)
  rw [hstart] at hiff
  refine ⟨hfree, hiff, fun accepts hscript => ?_⟩
  rw [handleWrite, if_neg (by rw [hscript]; exact Bool.false_ne_true)]
  cases (s.markOld cfg).freePage cfg <;> rfl

/-- Two planes of one block each. -/
def twoPlanes : Config := { smallDevice false with planesPerDie := 2, blocksPerPlane := 1 }

/-- After three writes the search begins in the second plane. A write to address 0 gives its page
free, and finds the one behind that of address 1. -/
theorem handleWrite_finds_after_writes :
    ∃ s, Run (Steps (step twoPlanes)) (init twoPlanes 0)
        ([0, 1, 2].flatMap (fun address =>
          [.addTransaction true address, .update true, .update true, .update true]) ++
        [.addTransaction true 0, .update true, .update true]) s ∧
      s.pointer = (0, 0, 1) ∧ (s.markOld twoPlanes).freePage twoPlanes = some (1, 1) ∧
      (s.markOld twoPlanes).Free twoPlanes (1, 1) := by
  refine exists_run_imp (fun s => s.pointer = (0, 0, 1) ∧
    (s.markOld twoPlanes).freePage twoPlanes = some (1, 1)) (by decide +kernel) fun s _ hs => ?_
  have hplane : twoPlanes.IsPlane s.pointer :=
    hs.1 ▸ ⟨Nat.one_pos, Nat.one_pos, Nat.one_lt_two⟩
  exact ⟨hs.1, hs.2, (handleWrite_finds_iff twoPlanes s hplane).1 _ hs.2⟩

/-- **A free page that is not found.** All four pages are written, then address 0 again, which
takes its old page and moves the write pointer to the second plane. The next write, to address 2,
gives the last page of the first plane free, and does not find it. -/
theorem free_page_not_found :
    ∃ s, Run (Steps (step twoPlanes)) (init twoPlanes 0)
        ([0, 1, 2, 3, 0].flatMap (fun address =>
          [.addTransaction true address, .update true, .update true, .update true]) ++
        [.addTransaction true 2, .update true, .update true]) s ∧
      s.currentTransaction.transactionType = .dataWrite ∧ s.pointer = (0, 0, 1) ∧
      ((s.markOld twoPlanes).used (0, 1) = false) ∧
      (s.markOld twoPlanes).freePage twoPlanes = none ∧
      ∀ accepts, s.handleWrite twoPlanes accepts = none :=
  exists_run (by decide +kernel)

/-! ### The order of the planes -/

theorem pointer_advance {n : ℕ} (h : s.pointer = cfg.planeAt n) :
    (s.advance cfg).pointer = cfg.planeAt (n + 1) := by
  obtain ⟨hchannel, hdie, hplane⟩ : s.channel = n % cfg.numPackages ∧
      s.die = n / cfg.numPackages % cfg.diesPerPackage ∧
      s.plane = n / cfg.numPackages / cfg.diesPerPackage % cfg.planesPerDie := by
    simpa [pointer, Config.planeAt] using h
  have hdiv : ∀ m k, (m + 1) / k = if (m + 1) % k = 0 then m / k + 1 else m / k := by
    intro m k
    split_ifs with hmod
    · exact Nat.succ_div_of_dvd (Nat.dvd_of_mod_eq_zero hmod)
    · exact Nat.succ_div_of_not_dvd fun hdvd => hmod (Nat.mod_eq_zero_of_dvd hdvd)
  simp only [pointer, advance, Config.planeAt, hchannel, hdie, hplane, Nat.mod_add_mod]
  by_cases hc : (n + 1) % cfg.numPackages = 0
  · by_cases hd : (n / cfg.numPackages + 1) % cfg.diesPerPackage = 0
    · simp [hdiv n, hdiv (n / cfg.numPackages), hc, hd]
    · simp [hdiv n, hdiv (n / cfg.numPackages), hc, hd]
  · simp [hdiv n, hc]

/-- A write that `handle_write` accepts, with the plane that the write pointer names and the plane
that `translate` gives for the page of the address. Before it, pages may have become free. -/
def Writes (cfg : Config) (s : Ftl) (planes : (ℕ × ℕ × ℕ) × (ℕ × ℕ × ℕ)) (t : Ftl) : Prop :=
  ∃ (u : Ftl) (accepts : Bool), u.pointer = s.pointer ∧ (∀ q, u.used q = true → s.used q = true) ∧
    u.handleWrite cfg accepts = some t ∧ (cfg.perfectSchedule = true ∨ accepts = true) ∧
    planes.1 = u.pointer ∧
    (t.addressMap.lookup u.currentTransaction.address).bind cfg.planeOf = some planes.2

/-- The planes from the `n`-th on have free pages. -/
def HasRoom (cfg : Config) (n : ℕ) (s : Ftl) : Prop :=
  ∀ k, n ≤ k → k < cfg.numPackages * cfg.diesPerPackage * cfg.planesPerDie →
    ∃ q, s.Free cfg q ∧ cfg.planeOf (cfg.pageAddr q) = some (cfg.planeAt k)

theorem HasRoom.mono {n : ℕ} (h : HasRoom cfg n s) (hle : ∀ q, t.used q = true → s.used q = true) :
    HasRoom cfg n t := by
  intro k hnk hk
  obtain ⟨q, ⟨hpage, hfree⟩, hplane⟩ := h k hnk hk
  refine ⟨q, ⟨hpage, Bool.eq_false_iff.mpr fun hused => ?_⟩, hplane⟩
  rw [hle q hused] at hfree
  exact Bool.noConfusion hfree

theorem used_markOld {q : ℕ × ℕ} (h : (s.markOld cfg).used q = true) : s.used q = true := by
  unfold markOld writeUsedHandler at h
  split at h
  · split_ifs at h
    · exact h
    · rename_i pAddr _ _
      by_cases hq : q = cfg.pageOf pAddr
      · rw [hq] at h
        exact absurd ((update_self _ _ _).symm.trans h) Bool.false_ne_true
      · exact (update_of_ne hq _ _).symm.trans h
  · exact h

/-- While the plane of the write pointer has a free page, the search ends in it. -/
theorem HasRoom.freePage {n : ℕ} (h : HasRoom cfg n s)
    (hn : n < cfg.numPackages * cfg.diesPerPackage * cfg.planesPerDie)
    (hpointer : s.pointer = cfg.planeAt n) :
    ∃ q, s.freePage cfg = some q ∧ s.Free cfg q ∧
      cfg.planeOf (cfg.pageAddr q) = some (cfg.planeAt n) := by
  have hplane : cfg.IsPlane (s.channel, s.die, s.plane) := by
    have hisPlane := Config.isPlane_planeAt hn
    rwa [← hpointer] at hisPlane
  obtain ⟨q', ⟨hpage', hfree'⟩, hplane'⟩ := h n le_rfl hn
  rw [← hpointer, pointer, Config.planeOf_eq_iff hpage' hplane] at hplane'
  obtain ⟨q, hq⟩ : ∃ q, scan cfg s.used (s.startBlock cfg)
      (s.startBlock cfg + cfg.blocksPerPlane) = some q := by
    rw [← Option.ne_none_iff_exists', Ne, scan_eq_none_iff]
    intro hused
    rw [hused q' hplane'.1 hplane'.2 hpage'.2] at hfree'
    exact Bool.noConfusion hfree'
  have hle := startBlock_le hplane
  obtain ⟨hblock, hpage, hfree⟩ := scan_eq_some hq
  have hisPage : cfg.IsPage q := ⟨hblock.2.trans_le hle, hpage⟩
  refine ⟨q, ?_, ⟨hisPage, hfree⟩, ?_⟩
  · have hscan := scan_of_part (Nat.le_add_right _ _) hle hq
    rw [startBlock] at hscan
    rw [Ftl.freePage, hscan]
  · rw [← hpointer, pointer, Config.planeOf_eq_iff hisPage hplane]
    exact hblock

/-- One write goes to the plane of the write pointer and leaves the later ones alone. -/
theorem Writes.step {n : ℕ} {planes : (ℕ × ℕ × ℕ) × (ℕ × ℕ × ℕ)}
    (hscript : cfg.enableWriteScript = false) (hroom : HasRoom cfg n s)
    (hn : n < cfg.numPackages * cfg.diesPerPackage * cfg.planesPerDie)
    (hpointer : s.pointer = cfg.planeAt n) (h : Writes cfg s planes t) :
    planes = (cfg.planeAt n, cfg.planeAt n) ∧ t.pointer = cfg.planeAt (n + 1) ∧
      HasRoom cfg (n + 1) t := by
  obtain ⟨u, accepts, hsame, hused, hwrite, haccept, hnamed, hplaced⟩ := h
  have hptr : (u.markOld cfg).pointer = cfg.planeAt n :=
    (pointer_markOld cfg u).trans (hsame.trans hpointer)
  have hmarked : HasRoom cfg n (u.markOld cfg) := hroom.mono fun q hq => hused q (used_markOld hq)
  obtain ⟨q, hfree, ⟨hpage, hunused⟩, hplane⟩ := hmarked.freePage hn hptr
  have haddress : (u.markOld cfg).currentTransaction = u.currentTransaction := by
    obtain ⟨used, dirty, dirtyPageCount, hmark⟩ := markOld_eq cfg u
    rw [hmark]
  rw [handleWrite, if_neg (by rw [hscript]; exact Bool.false_ne_true), hfree] at hwrite
  simp only [sendWrite, if_pos haccept] at hwrite
  obtain ⟨readQueue, writeQueue, readPointer, handled, gcHandled, moved, ht⟩ :=
    writeSuccess_eq hwrite
  have hlookup : t.addressMap.lookup u.currentTransaction.address = some (cfg.pageAddr q) := by
    rw [ht, ← haddress]
    exact AList.lookup_insert _
  rw [hlookup, Option.bind_some, hplane] at hplaced
  refine ⟨Prod.ext (hnamed.trans (hsame.trans hpointer)) (Option.some.inj hplaced).symm, ?_, ?_⟩
  · rw [ht]
    exact pointer_advance hptr
  · intro k hnk hk
    obtain ⟨q', ⟨hpage', hunused'⟩, hplane'⟩ := hmarked k (Nat.le_of_succ_le hnk) hk
    refine ⟨q', ⟨hpage', ?_⟩, hplane'⟩
    have hne : q' ≠ q := by
      rintro rfl
      have heq := Config.planeAt_inj hn hk (Option.some.inj (hplane.symm.trans hplane'))
      omega
    rw [ht]
    exact (update_of_ne hne _ _).trans hunused'

/-- **One write for each plane.** Without a write script, when the write pointer is at its initial
position and no plane is full, as many accepted writes as there are planes go to pairwise different
planes, all of them, and each to the plane that the write pointer names. -/
theorem writes_spread (cfg : Config) (hscript : cfg.enableWriteScript = false) (s t : Ftl)
    (hpointer : s.pointer = (0, 0, 0))
    (hroom : ∀ triple, cfg.IsPlane triple →
      ∃ q, s.Free cfg q ∧ cfg.planeOf (cfg.pageAddr q) = some triple)
    (planes : List ((ℕ × ℕ × ℕ) × (ℕ × ℕ × ℕ)))
    (hlength : planes.length = cfg.numPackages * cfg.diesPerPackage * cfg.planesPerDie)
    (h : Run (Writes cfg) s planes t) :
    (∀ p ∈ planes, p.2 = p.1) ∧ (planes.map Prod.snd).Nodup ∧
      ∀ triple, cfg.IsPlane triple → triple ∈ planes.map Prod.snd := by
  have hruns : ∀ (ls : List ((ℕ × ℕ × ℕ) × (ℕ × ℕ × ℕ))) (n : ℕ) (s : Ftl),
      s.pointer = cfg.planeAt n → HasRoom cfg n s → Run (Writes cfg) s ls t →
      n + ls.length = cfg.numPackages * cfg.diesPerPackage * cfg.planesPerDie →
      ls = (List.range' n ls.length).map fun k => (cfg.planeAt k, cfg.planeAt k) := by
    intro ls
    induction ls with
    | nil => exact fun _ _ _ _ _ _ => rfl
    | cons l ls ih =>
      rintro n s hptr hroom ⟨u, hstep, hrun⟩ hlen
      rw [List.length_cons] at hlen
      obtain ⟨rfl, hptr', hroom'⟩ := hstep.step hscript hroom (by omega) hptr
      rw [List.length_cons, List.range'_succ, List.map_cons,
        ← ih (n + 1) u hptr' hroom' hrun (by omega)]
  have hplanes := hruns planes 0 s (by simp [hpointer, Config.planeAt])
    (fun k _ hk => hroom _ (Config.isPlane_planeAt hk)) h (by omega)
  have hsnd : planes.map Prod.snd = (List.range planes.length).map cfg.planeAt := by
    rw [hplanes, List.map_map, List.length_map, List.length_range', ← List.range_eq_range']
    rfl
  refine ⟨fun p hp => ?_, ?_, fun ⟨c, d, p⟩ hplane => ?_⟩
  · rw [hplanes] at hp
    obtain ⟨k, -, rfl⟩ := List.mem_map.mp hp
    rfl
  · rw [hsnd, hlength]
    refine List.Nodup.map_on (fun n hn m hm heq => ?_) List.nodup_range
    exact Config.planeAt_inj (List.mem_range.mp hn) (List.mem_range.mp hm) heq
  · rw [hsnd, hlength]
    obtain ⟨n, hn, hat⟩ := Config.exists_planeAt hplane
    exact List.mem_map.mpr ⟨n, List.mem_range.mpr hn, hat⟩

/-- A device to which two writes were sent. -/
def twoWrites (cfg : Config) : Ftl :=
  { init cfg 0 with readQueue := [⟨.dataWrite, 0, 0⟩, ⟨.dataWrite, 1, 1⟩] }

/-- `handle_write` for the transaction `w`, which the controller accepts. -/
private def acceptedWrite (cfg : Config) (s : Ftl) (w : FlashTransaction) : Option Ftl :=
  { s with currentTransaction := w }.handleWrite cfg true

/-- Two writes, with their planes. -/
private theorem run_two {a b p : ℕ × ℕ × ℕ}
    (h : ∃ t ∈ acceptedWrite cfg (twoWrites cfg) ⟨.dataWrite, 0, 0⟩,
      ∃ u ∈ acceptedWrite cfg t ⟨.dataWrite, 1, 1⟩, p = t.pointer ∧
        (t.addressMap.lookup 0).bind cfg.planeOf = some a ∧
        (u.addressMap.lookup 1).bind cfg.planeOf = some b) :
    ∃ u, Run (Writes cfg) (twoWrites cfg) [((0, 0, 0), a), (p, b)] u := by
  obtain ⟨t, ht, u, hu, hp, ha, hb⟩ := h
  exact ⟨u, t, ⟨{ twoWrites cfg with currentTransaction := ⟨.dataWrite, 0, 0⟩ }, true, rfl,
      fun _ hq => hq, ht, .inr rfl, rfl, ha⟩,
    u, ⟨{ t with currentTransaction := ⟨.dataWrite, 1, 1⟩ }, true, rfl, fun _ hq => hq, hu,
      .inr rfl, hp, hb⟩, rfl⟩

/-- Two writes on an empty device. -/
theorem writes_spread_two : ∃ t, Run (Writes twoPlanes) (twoWrites twoPlanes)
      [((0, 0, 0), (0, 0, 0)), ((0, 0, 1), (0, 0, 1))] t ∧
    ([((0, 0, 0), (0, 0, 0)), ((0, 0, 1), (0, 0, 1))].map Prod.snd : List (ℕ × ℕ × ℕ)).Nodup := by
  obtain ⟨t, hrun⟩ : ∃ t, Run (Writes twoPlanes) (twoWrites twoPlanes)
    [((0, 0, 0), (0, 0, 0)), ((0, 0, 1), (0, 0, 1))] t := run_two (by decide +kernel)
  refine ⟨t, hrun, (writes_spread twoPlanes rfl _ t rfl ?_ _ rfl hrun).2.1⟩
  rintro ⟨c, d, p⟩ ⟨hc, hd, hp⟩
  obtain rfl : c = 0 := Nat.lt_one_iff.mp hc
  obtain rfl : d = 0 := Nat.lt_one_iff.mp hd
  obtain rfl | rfl : p = 0 ∨ p = 1 := Nat.le_one_iff_eq_zero_or_eq_one.mp (Nat.le_of_lt_succ hp)
  · exact ⟨(0, 0), ⟨⟨by decide, by decide⟩, rfl⟩, by decide⟩
  · exact ⟨(1, 0), ⟨⟨by decide, by decide⟩, rfl⟩, by decide⟩

/-- The same device with a write script that names the first plane all the time. -/
def scriptedPlanes : Config := { twoPlanes with enableWriteScript := true }

/-- **Writes by script.** Both writes go to the plane that the script names. -/
theorem writes_by_script : ∃ t, Run (Writes scriptedPlanes) (twoWrites scriptedPlanes)
    [((0, 0, 0), (0, 0, 0)), ((0, 0, 0), (0, 0, 0))] t :=
  run_two (by decide +kernel)

/-! ### Full queues -/

/-- The local variables of the loop in `handle_write`: the temporary write pointer, the page found
so far (`done`), and `itr_count`. -/
structure Attempt where
  tempChannel : ℕ
  tempDie : ℕ
  tempPlane : ℕ
  found : Option (ℕ × ℕ) := none
  itrCount : ℕ := 0

/-- The loop of `handle_write`, where `room` answers `checkQueueWrite` for a package and a die:
`some q` for a write that is placed in `q`, `some none` for one that is given up. Without a page it
loops until it exits. -/
def attempts (cfg : Config) (s : Ftl) (room : ℕ → ℕ → Bool) :
    ℕ → Attempt → Option (Option (ℕ × ℕ))
  | 0, _ => none
  | fuel + 1, a => do
    let search := { s with channel := a.tempChannel, die := a.tempDie, plane := a.tempPlane }
    let q ← a.found.or (search.freePage cfg)
    let loc ← cfg.translate (cfg.pageAddr q)
    if cfg.perfectSchedule ∨ room loc.package loc.die then some (some q)
    else if cfg.schedule = false ∨ cfg.numPlanes ≤ a.itrCount + 1 then some none
    else
      -- the channel is counted from the write pointer, and `done` is not reset
      let channel := (s.channel + 1) % cfg.numPackages
      let die := if channel = 0 then (a.tempDie + 1) % cfg.diesPerPackage else a.tempDie
      let plane :=
        if channel = 0 ∧ die = 0 then (a.tempPlane + 1) % cfg.planesPerDie else a.tempPlane
      attempts cfg s room fuel ⟨channel, die, plane, some q, a.itrCount + 1⟩

/-- `handle_write` up to the placement of the page; each plane can count once. -/
def writeLoop (cfg : Config) (s : Ftl) (room : ℕ → ℕ → Bool) : Option (Option (ℕ × ℕ)) :=
  let s := s.markOld cfg
  attempts cfg s room (cfg.numPlanes + 1) ⟨s.channel, s.die, s.plane, none, 0⟩

variable {room : ℕ → ℕ → Bool} {loc : Location}

/-- Every further attempt is for the same page. -/
theorem attempts_eq_none {fuel : ℕ} {a : Attempt} (hfound : a.found = some q)
    (hloc : cfg.translate (cfg.pageAddr q) = some loc)
    (hfull : ¬ (cfg.perfectSchedule = true ∨ room loc.package loc.die = true))
    (hfuel : cfg.numPlanes + 1 ≤ a.itrCount + fuel) (hpos : 0 < fuel) :
    attempts cfg s room fuel a = some none := by
  induction fuel generalizing a with
  | zero => exact absurd hpos (Nat.lt_irrefl 0)
  | succ fuel ih =>
    simp only [attempts, hfound, Option.some_or, Option.bind_eq_bind, Option.bind_some, hloc,
      if_neg hfull]
    split
    · rfl
    · exact ih rfl (by dsimp only; omega) (by omega)

/-- What the loop does with the page that is found first. -/
theorem writeLoop_eq (hq : (s.markOld cfg).freePage cfg = some q)
    (hloc : cfg.translate (cfg.pageAddr q) = some loc) :
    s.writeLoop cfg room =
      some (if cfg.perfectSchedule ∨ room loc.package loc.die then some q else none) := by
  simp only [writeLoop, attempts, Option.none_or, hq, Option.bind_eq_bind, Option.bind_some, hloc]
  by_cases hopen : cfg.perfectSchedule = true ∨ room loc.package loc.die = true
  · rw [if_pos hopen, if_pos hopen]
  · rw [if_neg hopen, if_neg hopen]
    split
    · rfl
    · exact attempts_eq_none rfl hloc hopen (by dsimp only; omega) (by omega)

/-- `handle_write` writes the page that the loop places. -/
theorem handleWrite_eq_writeLoop (hscript : cfg.enableWriteScript = false)
    (hq : (s.markOld cfg).freePage cfg = some q)
    (hloc : cfg.translate (cfg.pageAddr q) = some loc) :
    s.handleWrite cfg (room loc.package loc.die) = (s.writeLoop cfg room).bind fun placed =>
      (s.markOld cfg).sendWrite cfg placed.isSome (placed.getD q) := by
  simp only [handleWrite, hscript, hq, writeLoop_eq hq hloc, Option.bind_some, Bool.false_eq_true,
    if_false]
  by_cases hopen : cfg.perfectSchedule = true ∨ room loc.package loc.die = true
  · simp [sendWrite, hopen]
  · rw [if_neg hopen, Bool.eq_false_of_not_eq_true fun hroom => hopen (.inr hroom)]
    rfl

/-- **Writes to full queues.** With scheduling or without, a write ends in a plane whose queue has
room if and only if the queue of the plane that is found first has room: if that one is full, the
write is given up, whatever the other planes have (or not sent at all, with perfect scheduling). -/
theorem writeLoop_places_iff (cfg : Config) (s : Ftl) (room : ℕ → ℕ → Bool)
    (q : ℕ × ℕ) (loc : Location) (hq : (s.markOld cfg).freePage cfg = some q)
    (hloc : cfg.translate (cfg.pageAddr q) = some loc) :
    ((∃ q' loc', s.writeLoop cfg room = some (some q') ∧
        cfg.translate (cfg.pageAddr q') = some loc' ∧ room loc'.package loc'.die = true) ↔
      room loc.package loc.die = true) ∧
    (room loc.package loc.die = false → cfg.perfectSchedule = false →
      s.writeLoop cfg room = some none) := by
  rw [writeLoop_eq hq hloc]
  constructor
  · constructor
    · rintro ⟨q', loc', hplaced, hloc', hroom⟩
      obtain ⟨-, ⟨⟩⟩ := Option.ite_none_right_eq_some.mp (Option.some.inj hplaced)
      obtain rfl := Option.some.inj (hloc.symm.trans hloc')
      exact hroom
    · intro hroom
      rw [if_pos (.inr hroom)]
      exact ⟨q, loc, rfl, hloc, hroom⟩
  · intro hfull hperfect
    rw [if_neg (by simp [hfull, hperfect])]

/-- Two packages, with scheduling. -/
def twoPackages : Config :=
  { smallDevice false with numPackages := 2, blocksPerPlane := 1, schedule := true }

/-- A write on an empty device with room in the first queue. -/
theorem writeLoop_places_first :
    ∃ q' loc', (init twoPackages 0).writeLoop twoPackages (fun package _ => package = 0) =
        some (some q') ∧ twoPackages.translate (twoPackages.pageAddr q') = some loc' ∧
      decide (loc'.package = 0) = true :=
  (writeLoop_places_iff twoPackages (init twoPackages 0) (fun package _ => package = 0) (0, 0)
    ⟨0, 0, 0, 0, 0⟩ (by decide) rfl).1.mpr rfl

/-- **A write that is given up.** The queue of the first package is full; all pages of the second
one are free and its queue has room. -/
theorem writeLoop_gives_up :
    twoPackages.planeOf (twoPackages.pageAddr (1, 0)) = some (1, 0, 0) ∧
      (init twoPackages 0).used (1, 0) = false ∧
      (init twoPackages 0).writeLoop twoPackages (fun package _ => package = 1) = some none := by
  decide

end Ftl

end HybridMemory.NVDIMMSim

import HybridMemory.NVMain.CoinMigrator

/-!
# The choice of victims

`ChooseVictim` walks over the pages of the promotion channel with a counter, and takes the
counter apart into rank, bank, subarray and row by remainders and shifts. For numbers of
ranks, banks, subarrays and rows that are powers of two these are the digits of the counter
in a mixed radix (`toNat_victimLocation`), so that the counters below
`totalPromotionPages` stand for the pages of the channel, one each.

The two migrators differ in how the counter runs (`toNat_position_coin`,
`toNat_position_common`). `CoinMigrator` counts up and starts over, and any
`totalPromotionPages` calls in a row return every page once (`coin_covers`).
`CommonMigrator` counts down, from a first value that is one too large, and stays at zero
once it gets there (`common_covers_iff`).
-/

namespace HybridMemory.NVMain

open Transition Function MixedRadix

/-! ### Geometry -/

namespace PromotionParams

variable (p : PromotionParams)

/-- The number of subarrays of a bank. -/
def subarrayCount : UInt64 := p.rows / p.matHeight

/-- The number of values each field of a page takes. A bank's rows are those of its
subarrays together. -/
def count : MemoryPartition → ℕ :=
  MemoryPartition.fields (p.rows.toNat / p.subarrayCount.toNat) 1 p.banks.toNat p.ranks.toNat 1
    p.subarrayCount.toNat

/-- A geometry of powers of two: the numbers whose logarithm is taken are an `int`, and the
pages can be counted in 64 bits. -/
structure PowersOfTwo (rankBits bankBits subarrayBits rowBits : ℕ) : Prop where
  ranks : p.ranks.toNat = 2 ^ rankBits
  banks : p.banks.toNat = 2 ^ bankBits
  subarrays : p.subarrayCount.toNat = 2 ^ subarrayBits
  rows : p.rows.toNat = 2 ^ rowBits
  rankBits_lt : rankBits < 31
  bankBits_lt : bankBits < 31
  subarrayBits_lt : subarrayBits < 31
  fits : rankBits + bankBits + rowBits < 64

end PromotionParams

/-- The fields of a page, in the order in which the counter has them, lowest first. -/
def pageFields : List MemoryPartition := [.rank, .bank, .subarray, .row]

namespace SwapConfig

variable (c : SwapConfig)

/-- The location of a page of the promotion channel: its first column. -/
structure IsPage (loc : Location) : Prop where
  channel : loc .channel = c.promotionChannel
  col : loc .col = 0
  lt : ∀ p ∈ pageFields, (loc p).toNat < c.params.count p

/-- The value of the counter after `k` calls. -/
def position (k : ℕ) : UInt64 := c.nextPage^[k] c.firstPage

/-- The address `ChooseVictim` returns for a value of the counter. -/
def victimOf (d : MigratorConfig) (page : UInt64) : Option NVMAddress :=
  let loc := update (c.victimLocation page) .col 0
  (d.translator.reverseTranslate loc).map fun r => ⟨r.1, loc⟩

/-- The address the `k`-th call returns. -/
def victimAt (d : MigratorConfig) (k : ℕ) : Option NVMAddress := c.victimOf d (c.position k)

/-! ### The counter as a number -/

section Digits

variable {c : SwapConfig} {rankBits bankBits subarrayBits rowBits : ℕ}

theorem mlog2_two_pow {n : ℕ} (h : n < 31) : mlog2 (2 ^ n) = n := by
  rw [mlog2_eq_log (Nat.pow_lt_pow_right one_lt_two h), Nat.log_pow one_lt_two]

/-- Shifting out the bits of a field is dividing by the number of its values. -/
theorem toNat_shift (page : UInt64) {x : UInt64} {n : ℕ} (hx : x.toNat = 2 ^ n) (hn : n < 31) :
    (page >>> UInt64.ofNat (mlog2 x.toNat)).toNat = page.toNat / x.toNat := by
  rw [hx, mlog2_two_pow hn, AddressTranslator.toNat_shiftRight_ofNat (by omega)]

variable (h : c.params.PowersOfTwo rankBits bankBits subarrayBits rowBits)

include h

/-- The fields of the victim, for any value of the counter. -/
theorem toNat_victimLocation (page : UInt64) :
    (c.victimLocation page .rank).toNat = page.toNat % c.params.ranks.toNat ∧
      (c.victimLocation page .bank).toNat =
        page.toNat / c.params.ranks.toNat % c.params.banks.toNat ∧
      (c.victimLocation page .subarray).toNat = page.toNat / c.params.ranks.toNat /
        c.params.banks.toNat % c.params.subarrayCount.toNat ∧
      (c.victimLocation page .row).toNat = page.toNat / c.params.ranks.toNat /
        c.params.banks.toNat / c.params.subarrayCount.toNat := by
  have hrank := toNat_shift page h.ranks h.rankBits_lt
  set page₁ := page >>> UInt64.ofNat (mlog2 c.params.ranks.toNat) with hpage₁
  have hbank := toNat_shift page₁ h.banks h.bankBits_lt
  set page₂ := page₁ >>> UInt64.ofNat (mlog2 c.params.banks.toNat) with hpage₂
  have hsub := toNat_shift page₂ h.subarrays h.subarrayBits_lt
  refine ⟨UInt64.toNat_mod .., ?_, ?_, ?_⟩
  · rw [← hrank]
    exact UInt64.toNat_mod ..
  · rw [← hrank, ← hbank]
    exact UInt64.toNat_mod ..
  · rw [← hrank, ← hbank]
    exact hsub

/-- The number of pages is the product of the numbers of values. -/
theorem toNat_totalPromotionPages :
    c.totalPromotionPages.toNat = 2 ^ (rankBits + bankBits + rowBits) := by
  have hlt : 2 ^ (rankBits + bankBits + rowBits) < 2 ^ 64 :=
    Nat.pow_lt_pow_right one_lt_two h.fits
  have hle : 2 ^ (rankBits + bankBits) ≤ 2 ^ (rankBits + bankBits + rowBits) :=
    Nat.pow_le_pow_right two_pos (Nat.le_add_right _ _)
  rw [totalPromotionPages, UInt64.toNat_mul, UInt64.toNat_mul, h.ranks, h.banks, h.rows,
    ← pow_add, Nat.mod_eq_of_lt (hle.trans_lt hlt), ← pow_add, Nat.mod_eq_of_lt hlt]

theorem totalPromotionPages_pos : 0 < c.totalPromotionPages.toNat :=
  toNat_totalPromotionPages h ▸ Nat.two_pow_pos _

theorem subarrayBits_le : subarrayBits ≤ rowBits := by
  have hle : c.params.subarrayCount.toNat ≤ c.params.rows.toNat := by
    rw [PromotionParams.subarrayCount, UInt64.toNat_div]
    exact Nat.div_le_self _ _
  rw [h.subarrays, h.rows] at hle
  exact (Nat.pow_le_pow_iff_right one_lt_two).mp hle

theorem count_row : c.params.count .row = 2 ^ (rowBits - subarrayBits) := by
  rw [PromotionParams.count, MemoryPartition.fields, h.rows, h.subarrays,
    Nat.pow_div (subarrayBits_le h) two_pos]

theorem capacity_pageFields : capacity c.params.count pageFields = c.totalPromotionPages.toNat := by
  have hle := subarrayBits_le h
  simp only [pageFields, capacity_cons, capacity_nil, count_row h]
  simp only [PromotionParams.count, MemoryPartition.fields, h.ranks, h.banks, h.subarrays,
    toNat_totalPromotionPages h, mul_one, ← pow_add]
  congr 1
  omega

theorem count_pos : ∀ p ∈ pageFields, 0 < c.params.count p := by
  intro p hp
  have hrow := count_row h
  simp only [pageFields, List.mem_cons, List.not_mem_nil, or_false] at hp
  rcases hp with rfl | rfl | rfl | rfl
  · simp [PromotionParams.count, MemoryPartition.fields, h.ranks]
  · simp [PromotionParams.count, MemoryPartition.fields, h.banks]
  · simp [PromotionParams.count, MemoryPartition.fields, h.subarrays]
  · simp [hrow]

/-- **The digits of the counter.** Below the number of pages, the fields of the victim are
the digits of the counter. -/
theorem victimLocation_eq_decode {page : UInt64}
    (hpage : page.toNat < c.totalPromotionPages.toNat) {p : MemoryPartition}
    (hp : p ∈ pageFields) :
    (c.victimLocation page p).toNat =
      decode c.params.count pageFields page.toNat (fun _ => 0) p := by
  obtain ⟨hrank, hbank, hsub, hrow⟩ := toNat_victimLocation h page
  have hlast : page.toNat / c.params.ranks.toNat / c.params.banks.toNat /
      c.params.subarrayCount.toNat < c.params.count .row := by
    rw [← capacity_pageFields h] at hpage
    refine Nat.div_lt_of_lt_mul (Nat.div_lt_of_lt_mul (Nat.div_lt_of_lt_mul ?_))
    simpa [pageFields, PromotionParams.count, MemoryPartition.fields] using hpage
  simp only [pageFields, List.mem_cons, List.not_mem_nil, or_false] at hp
  rcases hp with rfl | rfl | rfl | rfl
  · simp [hrank, pageFields, decode, PromotionParams.count, MemoryPartition.fields]
  · simp [hbank, pageFields, decode, PromotionParams.count, MemoryPartition.fields]
  · simp [hsub, pageFields, decode, PromotionParams.count, MemoryPartition.fields]
  · rw [hrow]
    simp only [pageFields, decode, update_self]
    exact (Nat.mod_eq_of_lt hlast).symm

theorem isPage_victimLocation {page : UInt64}
    (hpage : page.toNat < c.totalPromotionPages.toNat) : c.IsPage (c.victimLocation page) :=
  ⟨rfl, rfl, fun p hp => by
    rw [victimLocation_eq_decode h hpage hp]
    exact decode_lt (count_pos h) hp _⟩

/-- The counter that stands for a page. -/
theorem exists_victimLocation {loc : Location} (hloc : c.IsPage loc) :
    ∃ page : UInt64, page.toNat < c.totalPromotionPages.toNat ∧ c.victimLocation page = loc := by
  set n := encode c.params.count loc.toNat pageFields with hn
  have hlt : n < c.totalPromotionPages.toNat := by
    rw [← capacity_pageFields h]
    exact encode_lt hloc.lt
  have hofNat : (UInt64.ofNat n).toNat = n := by
    rw [UInt64.toNat_ofNat', Nat.mod_eq_of_lt (hlt.trans (UInt64.toNat_lt _))]
  have hdigit : ∀ p ∈ pageFields, c.victimLocation (UInt64.ofNat n) p = loc p := fun p hp => by
    refine UInt64.toNat.inj ?_
    rw [victimLocation_eq_decode h (by rwa [hofNat]) hp, hofNat, hn,
      decode_encode (d := loc.toNat) (by decide) hloc.lt hp]
    rfl
  refine ⟨UInt64.ofNat n, by rwa [hofNat], funext fun p => ?_⟩
  cases p with
  | channel => exact hloc.channel.symm
  | col => exact hloc.col.symm
  | row => exact hdigit .row (by decide)
  | bank => exact hdigit .bank (by decide)
  | rank => exact hdigit .rank (by decide)
  | subarray => exact hdigit .subarray (by decide)

/-- A page determines its counter. -/
theorem victimLocation_inj {page page' : UInt64} (hpage : page.toNat < c.totalPromotionPages.toNat)
    (hpage' : page'.toNat < c.totalPromotionPages.toNat)
    (heq : c.victimLocation page = c.victimLocation page') : page = page' := by
  have hcap := capacity_pageFields h
  have hdigits : ∀ p ∈ pageFields,
      decode c.params.count pageFields page.toNat (fun _ => 0) p =
        decode c.params.count pageFields page'.toNat (fun _ => 0) p := fun p hp => by
    rw [← victimLocation_eq_decode h hpage hp, heq, victimLocation_eq_decode h hpage' hp]
  exact UInt64.toNat.inj
    (eq_of_decode_eq (by decide) (hcap ▸ hpage) (hcap ▸ hpage') hdigits)

/-- At the number of pages itself the counter stands for a row that is not there. -/
theorem not_isPage_total : ¬ c.IsPage (c.victimLocation c.totalPromotionPages) := by
  intro hpage
  have hlt := hpage.lt .row (by decide)
  have hrank : 0 < c.params.ranks.toNat := h.ranks ▸ Nat.two_pow_pos _
  have hbank : 0 < c.params.banks.toNat := h.banks ▸ Nat.two_pow_pos _
  have hsub : 0 < c.params.subarrayCount.toNat := h.subarrays ▸ Nat.two_pow_pos _
  have htotal : c.totalPromotionPages.toNat = c.params.ranks.toNat * (c.params.banks.toNat *
      (c.params.subarrayCount.toNat * c.params.count .row)) := by
    rw [← capacity_pageFields h]
    simp [pageFields, PromotionParams.count, MemoryPartition.fields]
  rw [(toNat_victimLocation h _).2.2.2, htotal, Nat.mul_div_cancel_left _ hrank,
    Nat.mul_div_cancel_left _ hbank, Nat.mul_div_cancel_left _ hsub] at hlt
  exact lt_irrefl _ hlt

end Digits

/-! ### How the counter runs -/

section Counter

variable {c : SwapConfig}

theorem position_succ (k : ℕ) : c.position (k + 1) = c.nextPage (c.position k) :=
  iterate_succ_apply' ..

/-- The counter of `CoinMigrator` goes round. -/
theorem toNat_position_coin (hcoin : c.policy = .coin) (hpos : 0 < c.totalPromotionPages.toNat)
    (k : ℕ) : (c.position k).toNat = k % c.totalPromotionPages.toNat := by
  induction k with
  | zero => simp [position, firstPage, hcoin]
  | succ k ih =>
    have hlt : (c.position k).toNat + 1 < 2 ^ 64 := by
      have := Nat.mod_lt k hpos
      have := UInt64.toNat_lt c.totalPromotionPages
      omega
    rw [position_succ, nextPage, hcoin]
    simp only [UInt64.toNat_mod, UInt64.toNat_add, UInt64.toNat_one]
    rw [Nat.mod_eq_of_lt hlt, ih, Nat.mod_add_mod]

/-- The counter of `CommonMigrator` runs down from the number of pages and stays at zero. -/
theorem toNat_position_common (hcommon : c.policy = .common) (k : ℕ) :
    (c.position k).toNat = c.totalPromotionPages.toNat - k := by
  induction k with
  | zero => simp [position, firstPage, hcommon]
  | succ k ih =>
    rw [position_succ, nextPage, hcommon]
    simp only
    split_ifs with hzero
    · have hlt : 0 < (c.position k).toNat := hzero
      have hle : (1 : UInt64) ≤ c.position k := hlt
      rw [UInt64.toNat_mod, UInt64.toNat_sub_of_le _ _ hle, UInt64.toNat_one,
        Nat.mod_eq_of_lt (by omega), ih]
      omega
    · have hz : (c.position k).toNat = 0 := Nat.eq_zero_of_not_pos hzero
      have hzero' : c.position k = 0 := UInt64.toNat.inj hz
      rw [hzero', zero_add, UInt64.toNat_mod, Nat.mod_self]
      omega

end Counter

/-! ### Windows of calls -/

section Windows

variable {c : SwapConfig} {d : MigratorConfig} {method : TranslationMethod}
variable {rankBits bankBits subarrayBits rowBits : ℕ}

/-- The `n` calls from the `k`-th on return every page of the promotion channel exactly
once. -/
def Covers (c : SwapConfig) (d : MigratorConfig) (k n : ℕ) : Prop :=
  ∀ loc, c.IsPage loc → ∃! i, i < n ∧ (c.victimAt d (k + i)).map NVMAddress.translated = some loc

theorem position_le (hpos : 0 < c.totalPromotionPages.toNat) (k : ℕ) :
    (c.position k).toNat ≤ c.totalPromotionPages.toNat := by
  cases hpolicy : c.policy with
  | coin => exact toNat_position_coin hpolicy hpos k ▸ (Nat.mod_lt k hpos).le
  | common => exact toNat_position_common hpolicy k ▸ Nat.sub_le _ _

/-- A full turn takes every value once. -/
theorem existsUnique_add_mod {n r : ℕ} (k : ℕ) (hr : r < n) : ∃! i, i < n ∧ (k + i) % n = r := by
  have hn : 0 < n := by omega
  have hk := Nat.div_add_mod k n
  have hlt := Nat.mod_lt k hn
  have hsum : k + (r + (n - k % n)) = r + n * (k / n + 1) := by
    rw [Nat.mul_succ]
    omega
  have hhit : (k + (r + (n - k % n)) % n) % n = r := by
    rw [Nat.add_mod_mod, hsum, Nat.add_mul_mod_self_left, Nat.mod_eq_of_lt hr]
  refine ⟨(r + (n - k % n)) % n, ⟨Nat.mod_lt _ hn, hhit⟩, fun j ⟨hj, hjr⟩ => ?_⟩
  have hmod : j ≡ (r + (n - k % n)) % n [MOD n] :=
    Nat.ModEq.add_left_cancel' k (hjr.trans hhit.symm)
  exact hmod.eq_of_lt_of_lt hj (Nat.mod_lt _ hn)

/-- The window of the counter that runs down and stays at zero: only the one that starts
with the second call takes every value once, unless there is just one page. -/
theorem forall_existsUnique_sub_iff {n : ℕ} (k : ℕ) (hn : 0 < n) :
    (∀ r < n, ∃! i, i < n ∧ n - (k + i) = r) ↔ k = 1 ∨ n = 1 ∧ 1 ≤ k := by
  constructor
  · intro h
    obtain ⟨i, ⟨hi, hlast⟩, -⟩ := h (n - 1) (by omega)
    obtain ⟨j, ⟨hj, hzero⟩, -⟩ := h 0 hn
    omega
  · intro h r hr
    refine ⟨n - 1 - r, ⟨by omega, by omega⟩, fun j ⟨hj, hjr⟩ => by omega⟩

variable (hd : d.translator.Configured method)

include hd

/-- What a call returns: the location of its counter, with its physical address. -/
theorem victimOf_spec (page : UInt64) :
    ∃ v, c.victimOf d page = some v ∧ v.translated = c.victimLocation page ∧
      (AddressTranslator.InRange method v.translated →
        ∀ out, (d.translator.translate v.physicalAddress out).1 = v.translated) := by
  have hcol : update (c.victimLocation page) .col 0 = c.victimLocation page :=
    update_eq_self_iff.mpr rfl
  obtain ⟨ps, hps, -, -⟩ := parts_eq hd.isOrder
  obtain ⟨address, haddr, -⟩ := hd.toNat_reverseTranslate hps (c.victimLocation page)
  refine ⟨⟨address, c.victimLocation page⟩, ?_, rfl, fun hrange out => ?_⟩
  · simp only [victimOf, hcol, haddr, Option.map_some]
  · obtain ⟨address', haddr', -, htr⟩ := hd.translate_reverseTranslate hrange
    obtain ⟨rfl, -⟩ := Prod.mk.inj (Option.some.inj (haddr.symm.trans haddr'))
    exact htr out

theorem victimAt_eq_some_iff (k : ℕ) (loc : Location) :
    (c.victimAt d k).map NVMAddress.translated = some loc ↔
      c.victimLocation (c.position k) = loc := by
  obtain ⟨v, hv, htr, -⟩ := victimOf_spec (c := c) hd (c.position k)
  rw [victimAt, hv, Option.map_some, htr, Option.some.injEq]

variable (h : c.params.PowersOfTwo rankBits bankBits subarrayBits rowBits)

include h

/-- In terms of the counter: it takes every value below the number of pages once. -/
theorem covers_iff (k n : ℕ) : Covers c d k n ↔ ∀ r < c.totalPromotionPages.toNat,
      ∃! i, i < n ∧ (c.position (k + i)).toNat = r := by
  have hpos := totalPromotionPages_pos h
  have hloc : ∀ page : UInt64, page.toNat < c.totalPromotionPages.toNat → ∀ j,
      (c.victimLocation (c.position j) = c.victimLocation page ↔
        (c.position j).toNat = page.toNat) := fun page hpage j => by
    refine ⟨fun heq => ?_, fun heq => congrArg _ (UInt64.toNat.inj heq)⟩
    rcases (position_le hpos j).lt_or_eq with hlt | htotal
    · rw [victimLocation_inj h hlt hpage heq]
    · -- the counter stands at the number of pages, where there is no page
      rw [UInt64.toNat.inj htotal] at heq
      exact absurd (heq ▸ isPage_victimLocation h hpage) (not_isPage_total h)
  have hiff : ∀ page : UInt64, page.toNat < c.totalPromotionPages.toNat →
      ((∃! i, i < n ∧ (c.victimAt d (k + i)).map NVMAddress.translated =
        some (c.victimLocation page)) ↔
      ∃! i, i < n ∧ (c.position (k + i)).toNat = page.toNat) := fun page hpage =>
    existsUnique_congr fun i => and_congr_right fun _ =>
      (victimAt_eq_some_iff hd _ _).trans (hloc page hpage _)
  constructor
  · intro hc r hr
    have hofNat : (UInt64.ofNat r).toNat = r := by
      rw [UInt64.toNat_ofNat', Nat.mod_eq_of_lt (hr.trans (UInt64.toNat_lt _))]
    have hpage : (UInt64.ofNat r).toNat < c.totalPromotionPages.toNat := by rwa [hofNat]
    have hex := (hiff _ hpage).mp (hc _ (isPage_victimLocation h hpage))
    rwa [hofNat] at hex
  · intro hr loc hpage
    obtain ⟨page, hlt, rfl⟩ := exists_victimLocation h hpage
    exact (hiff page hlt).mpr (hr _ hlt)

/-- **The round robin of `CoinMigrator`**: every call returns a page, and any window of
`totalPromotionPages` calls returns each page once. -/
theorem coin_window (hcoin : c.policy = .coin) (k : ℕ) :
    c.IsPage (c.victimLocation (c.position k)) ∧
      Covers c d k c.totalPromotionPages.toNat := by
  have hpos := totalPromotionPages_pos h
  constructor
  · refine isPage_victimLocation h ?_
    rw [toNat_position_coin hcoin hpos]
    exact Nat.mod_lt k hpos
  · refine (covers_iff hd h k _).mpr fun r hr => ?_
    simp only [toNat_position_coin hcoin hpos]
    exact existsUnique_add_mod k hr

/-- **The round robin of `CommonMigrator`**: only the first call does not return a page,
and only the window that starts with the second call returns each page once. -/
theorem common_window (hcommon : c.policy = .common) (k : ℕ) :
    (c.IsPage (c.victimLocation (c.position k)) ↔ k ≠ 0) ∧
      (Covers c d k c.totalPromotionPages.toNat ↔
        k = 1 ∨ c.totalPromotionPages.toNat = 1 ∧ 1 ≤ k) := by
  have hpos := totalPromotionPages_pos h
  have hposition := toNat_position_common hcommon
  refine ⟨⟨?_, fun hk => isPage_victimLocation h ?_⟩, ?_⟩
  · rintro hpage rfl
    have hfirst : c.position 0 = c.totalPromotionPages := UInt64.toNat.inj (hposition 0)
    exact not_isPage_total h (hfirst ▸ hpage)
  · rw [hposition]
    omega
  · rw [covers_iff hd h]
    simp only [hposition]
    exact forall_existsUnique_sub_iff k hpos

end Windows

end SwapConfig

/-! ### The calls in a run -/

namespace CoinMigrator

variable {m m' m'' : CoinMigrator} {c : SwapConfig} {d : MigratorConfig}

/-- `ChooseVictim`, as `TryMigration` calls it. -/
def chooseVictim (m : CoinMigrator) : Option (NVMAddress × CoinMigrator) :=
  m.victim.map fun v => (v, { m with
    currentPromotionPage := some (m.config.nextPage m.promotionPage)
    choices := m.choices + 1 })

/-- Nothing that `ChooseVictim` reads or writes is changed. -/
structure KeepsCounter (m m' : CoinMigrator) : Prop where
  config : m'.config = m.config
  decoder : m'.decoder.config = m.decoder.config
  page : m'.currentPromotionPage = m.currentPromotionPage
  choices : m'.choices = m.choices

theorem KeepsCounter.refl (m : CoinMigrator) : KeepsCounter m m := ⟨rfl, rfl, rfl, rfl⟩

theorem KeepsCounter.trans (h : KeepsCounter m m') (h' : KeepsCounter m' m'') :
    KeepsCounter m m'' :=
  ⟨h'.config.trans h.config, h'.decoder.trans h.decoder, h'.page.trans h.page,
    h'.choices.trans h.choices⟩

theorem keepsCounter_setState {address : NVMAddress} {state : MigratorState}
    (h : m.setState address state = some m') : KeepsCounter m m' := by
  obtain ⟨decoder, hdecoder, rfl⟩ := Option.map_eq_some_iff.mp h
  exact ⟨rfl, Migrator.setMigrationState_eq_some hdecoder ▸ rfl, rfl, rfl⟩

theorem keepsCounter_start {address : NVMAddress} (h : m.start address = some m') :
    KeepsCounter m m' := by
  obtain ⟨decoder, hdecoder, rfl⟩ := Option.map_eq_some_iff.mp h
  simp only [Migrator.startMigration] at hdecoder
  split_ifs at hdecoder
  obtain rfl := Option.some.inj hdecoder
  exact ⟨rfl, rfl, rfl, rfl⟩

theorem keepsCounter_swapAtomic {address : NVMAddress} (h : m.swapAtomic address = some m') :
    KeepsCounter m m' := by
  obtain ⟨m₁, hstart, hrest⟩ := Option.bind_eq_some_iff.mp h
  obtain ⟨m₂, hpromo, hlast⟩ := Option.bind_eq_some_iff.mp hrest
  obtain ⟨m₃, hdemo, rfl⟩ := Option.map_eq_some_iff.mp hlast
  have hkeeps := (keepsCounter_start hstart).trans
    ((keepsCounter_setState hpromo).trans (keepsCounter_setState hdemo))
  exact { hkeeps with }

theorem keepsCounter_startSwap {address : NVMAddress} (h : m.startSwap address = some m') :
    KeepsCounter m m' := by
  obtain ⟨m₁, hstart, rfl⟩ := Option.map_eq_some_iff.mp h
  have hkeeps := keepsCounter_start hstart
  exact { hkeeps with }

/-- `TryMigration` leaves the counter alone, or calls `ChooseVictim` once. -/
theorem tryMigration_counter {t : Trigger} (h : m.tryMigration t = some m') :
    KeepsCounter m m' ∨ ∃ v n, m.chooseVictim = some (v, n) ∧ KeepsCounter n m' := by
  unfold tryMigration at h
  split at h
  · exact Or.inl (Option.some.inj h ▸ KeepsCounter.refl m)
  split at h
  · contradiction
  split at h
  · exact Or.inl (Option.some.inj h ▸ KeepsCounter.refl m)
  obtain ⟨promotee, -, hrest⟩ := Option.bind_eq_some_iff.mp h
  obtain ⟨demotee, hvictim, hlast⟩ := Option.bind_eq_some_iff.mp hrest
  refine Or.inr ⟨demotee, _, by rw [chooseVictim, hvictim]; rfl, ?_⟩
  simp only at hlast
  split_ifs at hlast
  · have hkeeps := keepsCounter_swapAtomic hlast
    exact { hkeeps with }
  · have hkeeps := keepsCounter_startSwap hlast
    exact { hkeeps with }
  · obtain rfl := Option.some.inj hlast
    exact ⟨rfl, rfl, rfl, rfl⟩

theorem keepsCounter_markWriting {s : Side} {r : MigrationRequest} {issued : Side → Bool}
    (h : m.markWriting s r issued = some m') : KeepsCounter m m' := by
  simp only [markWriting] at h
  split_ifs at h
  · exact keepsCounter_setState h
  · exact Option.some.inj h ▸ KeepsCounter.refl m

theorem keepsCounter_issueWrites {promo demo : MigrationRequest} {issued : Side → Bool}
    (h : m.issueWrites promo demo issued = some m') : KeepsCounter m m' := by
  obtain ⟨m₁, hdemo, hpromo⟩ := Option.bind_eq_some_iff.mp h
  have hkeeps := (keepsCounter_markWriting hdemo).trans (keepsCounter_markWriting hpromo)
  exact { hkeeps with }

theorem keepsCounter_readComplete {r : MigrationRequest} {issued : Side → Bool}
    (h : m.readComplete r issued = some m') : KeepsCounter m m' := by
  obtain ⟨m₁, hstate, hrest⟩ := Option.bind_eq_some_iff.mp h
  obtain ⟨s, -, hlast⟩ := Option.bind_eq_some_iff.mp hrest
  have hbuffered : KeepsCounter m (m₁.copyRequest s r) := by
    have hkeeps := keepsCounter_setState hstate
    exact { hkeeps with }
  simp only at hlast
  split_ifs at hlast
  · obtain ⟨promo, -, hlast⟩ := Option.bind_eq_some_iff.mp hlast
    obtain ⟨demo, -, hlast⟩ := Option.bind_eq_some_iff.mp hlast
    exact hbuffered.trans (keepsCounter_issueWrites hlast)
  · exact Option.some.inj hlast ▸ hbuffered

theorem keepsCounter_writeComplete {r : MigrationRequest} (h : m.writeComplete r = some m') :
    KeepsCounter m m' := by
  obtain ⟨m₁, hstate, rfl⟩ := Option.map_eq_some_iff.mp h
  have hkeeps := keepsCounter_setState hstate
  exact { hkeeps with }

theorem keepsCounter_retry (m : CoinMigrator) (s : Side) (issued : Side → Bool) :
    KeepsCounter m (m.retry s issued) := by
  unfold retry
  split
  · split_ifs <;> exact ⟨rfl, rfl, rfl, rfl⟩
  · exact KeepsCounter.refl m

/-- An action leaves the counter alone, or calls `ChooseVictim` once. -/
theorem step_counter {a : Action} (h : m.step a = some m') :
    KeepsCounter m m' ∨ ∃ v n, m.chooseVictim = some (v, n) ∧ KeepsCounter n m' := by
  cases a with
  | trigger t => exact tryMigration_counter h
  | readComplete id issued =>
    obtain ⟨r, -, hr⟩ := Option.bind_eq_some_iff.mp h
    exact Or.inl (keepsCounter_readComplete hr)
  | writeComplete id =>
    obtain ⟨r, -, hr⟩ := Option.bind_eq_some_iff.mp h
    exact Or.inl (keepsCounter_writeComplete hr)
  | otherComplete issued =>
    obtain rfl := Option.some.inj h
    exact Or.inl ((keepsCounter_retry m .promotee issued).trans (keepsCounter_retry _ _ _))

/-- The addresses that the calls of `ChooseVictim` in a run return, in order. -/
def victimLog (m : CoinMigrator) : List Action → List (Option NVMAddress)
  | [] => []
  | a :: as =>
    match m.step a with
    | none => []
    | some m' => (if m'.choices = m.choices then [] else [m.victim]) ++ victimLog m' as

/-- The counter stands where as many calls take it as were made. -/
structure Counted (c : SwapConfig) (d : MigratorConfig) (m : CoinMigrator) : Prop where
  config : m.config = c
  decoder : m.decoder.config = d
  position : m.promotionPage = c.position m.choices

theorem counted_init (c : SwapConfig) (d : MigratorConfig) : Counted c d (init c d) :=
  ⟨rfl, rfl, rfl⟩

theorem Counted.victim_eq (h : Counted c d m) : m.victim = c.victimAt d m.choices := by
  rw [victim, pageAddress, SwapConfig.victimAt, SwapConfig.victimOf, h.config, h.decoder,
    h.position]

theorem Counted.keeps (h : Counted c d m) (hk : KeepsCounter m m') : Counted c d m' := by
  refine ⟨hk.config.trans h.config, hk.decoder.trans h.decoder, ?_⟩
  rw [hk.choices, ← h.position, promotionPage, promotionPage, hk.page, hk.config]

theorem Counted.chooseVictim (h : Counted c d m) {v : NVMAddress}
    (hv : m.chooseVictim = some (v, m')) :
    Counted c d m' ∧ c.victimAt d m.choices = some v ∧ m'.choices = m.choices + 1 := by
  obtain ⟨v', hvictim, heq⟩ := Option.map_eq_some_iff.mp hv
  obtain ⟨rfl, rfl⟩ := Prod.mk.inj heq
  refine ⟨⟨h.config, h.decoder, ?_⟩, h.victim_eq ▸ hvictim, rfl⟩
  rw [SwapConfig.position_succ, ← h.position, ← h.config]
  rfl

theorem Counted.of_step (h : Counted c d m) {a : Action} (hstep : m.step a = some m') :
    Counted c d m' := by
  rcases step_counter hstep with hk | ⟨v, n, hv, hk⟩
  · exact h.keeps hk
  · exact (h.chooseVictim hv).1.keeps hk

/-- The calls of a run return the addresses of the counter's values, one after the other. -/
theorem Counted.victimLog_eq (h : Counted c d m) {as : List Action}
    (hrun : Run (Steps step) m as m') : Counted c d m' ∧ m.choices ≤ m'.choices ∧
      m.victimLog as =
        (List.range' m.choices (m'.choices - m.choices)).map (c.victimAt d) := by
  induction as generalizing m with
  | nil =>
    obtain rfl := run_nil.mp hrun
    exact ⟨h, le_rfl, by simp [victimLog]⟩
  | cons a as ih =>
    obtain ⟨n, hn, hrest⟩ := hrun
    have hlog : m.victimLog (a :: as) =
        (if n.choices = m.choices then [] else [m.victim]) ++ n.victimLog as := by
      rw [victimLog, show m.step a = some n from hn]
    rcases step_counter hn with hk | ⟨v, u, hv, hk⟩
    · obtain ⟨hcounted, hle, heq⟩ := ih (h.keeps hk) hrest
      rw [hk.choices] at hle heq
      refine ⟨hcounted, hle, ?_⟩
      rw [hlog, if_pos hk.choices, List.nil_append, heq]
    · obtain ⟨hu, hvictim, hsucc⟩ := h.chooseVictim hv
      obtain ⟨hcounted, hle, heq⟩ := ih (hu.keeps hk) hrest
      have hchoices : n.choices = m.choices + 1 := hk.choices.trans hsucc
      rw [hchoices] at hle heq
      have hlen : m'.choices - m.choices = m'.choices - (m.choices + 1) + 1 := by omega
      refine ⟨hcounted, by omega, ?_⟩
      rw [hlog, if_neg (by omega), heq, hlen, List.range'_succ, List.map_cons, h.victim_eq]
      rfl

/-- In every run the calls of `ChooseVictim` return the addresses of the counter's values
from the first one on. -/
theorem victimLog_of_run {as : List Action} (h : Run (Steps step) (init c d) as m) :
    (init c d).victimLog as = (List.range m.choices).map (c.victimAt d) := by
  obtain ⟨-, -, heq⟩ := (counted_init c d).victimLog_eq h
  rw [heq, List.range_eq_range']
  rfl

/-- **`CoinMigrator` chooses every page in turn.** For a geometry of powers of two, the calls
of `ChooseVictim` in any run return the addresses `victimAt 0, victimAt 1, …`; each is a page
of the promotion channel, with the physical address that the decoder translates to it if its
fields hold the page, and any `totalPromotionPages` of them in a row return every page
exactly once. -/
theorem coin_covers (c : SwapConfig) (d : MigratorConfig) (method : TranslationMethod)
    (rankBits bankBits subarrayBits rowBits : ℕ)
    (h : c.params.PowersOfTwo rankBits bankBits subarrayBits rowBits)
    (hd : d.translator.Configured method) (hcoin : c.policy = .coin) :
    (∀ as m, Run (Steps step) (init c d) as m →
      (init c d).victimLog as = (List.range m.choices).map (c.victimAt d)) ∧
    ∀ k, (∃ v, c.victimAt d k = some v ∧ c.IsPage v.translated ∧
        (AddressTranslator.InRange method v.translated →
          ∀ out, (d.translator.translate v.physicalAddress out).1 = v.translated)) ∧
      SwapConfig.Covers c d k c.totalPromotionPages.toNat := by
  refine ⟨fun as m hrun => victimLog_of_run hrun, fun k => ?_⟩
  obtain ⟨hpage, hcovers⟩ := SwapConfig.coin_window hd h hcoin k
  obtain ⟨v, hv, htr, hphys⟩ := SwapConfig.victimOf_spec (c := c) hd (c.position k)
  exact ⟨⟨v, hv, htr ▸ hpage, hphys⟩, hcovers⟩

/-- Two ranks of two banks with two subarrays of two rows each. -/
def smallGeometry (policy : MigratorPolicy) : SwapConfig := ⟨policy, 0, ⟨2, 2, 4, 2⟩⟩

theorem powersOfTwo_smallGeometry (policy : MigratorPolicy) :
    (smallGeometry policy).params.PowersOfTwo 1 1 1 2 where
  ranks := rfl
  banks := rfl
  subarrays := (by decide : ((4 : UInt64) / 2).toNat = 2 ^ 1)
  rows := rfl
  rankBits_lt := by decide
  bankBits_lt := by decide
  subarrayBits_lt := by decide
  fits := by decide

/-- The sixteen pages of the small geometry, from the sixth call on. -/
theorem coin_covers_small : SwapConfig.Covers (smallGeometry .coin) Migrator.exampleConfig 5 16 :=
  ((coin_covers (smallGeometry .coin) Migrator.exampleConfig _ 1 1 1 2
    (powersOfTwo_smallGeometry .coin) Migrator.valid_exampleConfig.translator rfl).2 5).2

/-- **`CommonMigrator` does not.** The first call of a run returns an address that is no page,
all later ones return pages, and of the windows of `totalPromotionPages` calls exactly the
one that starts with the second call returns every page once (with a single page, every one
that does not start with the first call). -/
theorem common_covers_iff (c : SwapConfig) (d : MigratorConfig) (method : TranslationMethod)
    (rankBits bankBits subarrayBits rowBits : ℕ)
    (h : c.params.PowersOfTwo rankBits bankBits subarrayBits rowBits)
    (hd : d.translator.Configured method) (hcommon : c.policy = .common) :
    (∀ as m, Run (Steps step) (init c d) as m →
      (init c d).victimLog as = (List.range m.choices).map (c.victimAt d)) ∧
    ∀ k, ((∃ v, c.victimAt d k = some v ∧ c.IsPage v.translated) ↔ k ≠ 0) ∧
      (SwapConfig.Covers c d k c.totalPromotionPages.toNat ↔
        k = 1 ∨ c.totalPromotionPages.toNat = 1 ∧ 1 ≤ k) := by
  refine ⟨fun as m hrun => victimLog_of_run hrun, fun k => ?_⟩
  obtain ⟨hpage, hcovers⟩ := SwapConfig.common_window hd h hcommon k
  refine ⟨?_, hcovers⟩
  obtain ⟨v, hv, htr, -⟩ := SwapConfig.victimOf_spec (c := c) hd (c.position k)
  rw [← hpage, ← htr]
  constructor
  · rintro ⟨v', hv', hpage'⟩
    obtain rfl : v = v' := Option.some.inj (hv.symm.trans hv')
    exact hpage'
  · exact fun hpage' => ⟨v, hv, hpage'⟩

/-- The sixteen pages of the small geometry, from the second call on. -/
theorem common_covers_iff_small :
    SwapConfig.Covers (smallGeometry .common) Migrator.exampleConfig 1 16 :=
  ((common_covers_iff (smallGeometry .common) Migrator.exampleConfig _ 1 1 1 2
    (powersOfTwo_smallGeometry .common) Migrator.valid_exampleConfig.translator rfl).2 1).2.mpr
    (Or.inl rfl)

/-- A migration request whose reads cannot be issued, so that only the counter moves. -/
def waitingTrigger : Trigger := ⟨64, true, false, false, fun _ => false⟩

/-- **A row that is not there, and one page for ever.** With one rank, one bank and two rows,
the first four calls of `CommonMigrator` return the rows 2, 1, 0 and 0. -/
theorem common_repeats : ∃ m, Run (Steps step)
      (init ⟨.common, 0, ⟨1, 1, 2, 2⟩⟩ Migrator.exampleConfig)
      (List.replicate 4 (.trigger waitingTrigger)) m ∧
    ((init ⟨.common, 0, ⟨1, 1, 2, 2⟩⟩ Migrator.exampleConfig).victimLog
      (List.replicate 4 (.trigger waitingTrigger))).map
        (fun v => v.map fun v => v.translated .row) = [some 2, some 1, some 0, some 0] :=
  exists_run_imp (fun _ => True) (by decide +kernel) fun _ _ _ => by decide +kernel

end CoinMigrator

end HybridMemory.NVMain

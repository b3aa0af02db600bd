import HybridMemory.Lib.MixedRadix
import Mathlib

/-!
# Endurance of the cells

An `EnduranceModel` maps locations to their remaining life. `DecrementLife` charges one write
to a location; `ByteModel` and `BitModel` charge a write of a word to the bytes, or the bits,
in which the old and the new data differ, each under a key computed from its position.

The first write of a location only draws its endurance, so every location survives one write
more than it should (`decrementLife_nth_write`). The keys of `BitModel` number the bits of the
array (`BitModel.wordkey_eq`); those of `ByteModel` count eight bytes of a row as one, so that
rows overlap (`ByteModel.write_charges_distinct_iff`).
-/

namespace HybridMemory.NVMain

open Function MixedRadix

/-- The data members of `EnduranceModel`. -/
structure EnduranceModel (σ : Type) where
  life : UInt64 → Option ℕ
  /-- The state of `enduranceDist`. -/
  dist : σ

namespace EnduranceModel

section Life

variable {σ : Type} (getEndurance : σ → ℕ × σ)

/-- The model before the first write. -/
def init (dist : σ) : EnduranceModel σ := ⟨fun _ => none, dist⟩

/-- `DecrementLife`. -/
def decrementLife (m : EnduranceModel σ) (addr : UInt64) : Bool × EnduranceModel σ :=
  match m.life addr with
  | none =>
    let drawn := getEndurance m.dist
    (true, ⟨update m.life addr (some drawn.1), drawn.2⟩)
  | some 0 => (false, m)
  | some (life + 1) => (true, { m with life := update m.life addr (some life) })

/-- The model after a sequence of writes. -/
def decrements (m : EnduranceModel σ) (addrs : List UInt64) : EnduranceModel σ :=
  addrs.foldl (fun m addr => (m.decrementLife getEndurance addr).2) m

/-- The endurance that the first write of `addr` among the writes `addrs` draws. -/
def drawn (m : EnduranceModel σ) (addrs : List UInt64) (addr : UInt64) : ℕ :=
  (getEndurance (m.decrements getEndurance (addrs.takeWhile (· ≠ addr))).dist).1

variable (m : EnduranceModel σ) (addr : UInt64)

theorem life_decrementLife_of_ne {other : UInt64} (h : other ≠ addr) :
    (m.decrementLife getEndurance addr).2.life other = m.life other := by
  unfold decrementLife
  split <;> simp [h]

theorem decrements_concat (addrs : List UInt64) :
    m.decrements getEndurance (addrs ++ [addr]) =
      ((m.decrements getEndurance addrs).decrementLife getEndurance addr).2 := by
  simp [decrements]

theorem drawn_concat_of_mem {addrs : List UInt64} (h : addr ∈ addrs) (other : UInt64) :
    m.drawn getEndurance (addrs ++ [other]) addr = m.drawn getEndurance addrs addr := by
  have hpre : (addrs ++ [other]).takeWhile (· ≠ addr) = addrs.takeWhile (· ≠ addr) := by
    rw [List.takeWhile_append, if_neg]
    intro hlen
    have hall := List.takeWhile_eq_self_iff.mp
      ((List.takeWhile_prefix _).sublist.eq_of_length hlen) addr h
    simp at hall
  rw [drawn, drawn, hpre]

theorem drawn_concat_of_notMem {addrs : List UInt64} (h : addr ∉ addrs) :
    m.drawn getEndurance (addrs ++ [addr]) addr =
      (getEndurance (m.decrements getEndurance addrs).dist).1 := by
  have hpre : (addrs ++ [addr]).takeWhile (· ≠ addr) = addrs := by
    have hne : ∀ a ∈ addrs, decide (a ≠ addr) = true := fun a ha => by
      simpa using ne_of_mem_of_not_mem ha h
    rw [List.takeWhile_append_of_pos hne]
    simp
  rw [drawn, hpre]

/-- The life of a location is its endurance less the number of its writes after the first. -/
theorem life_decrements (dist : σ) (addrs : List UInt64) :
    ((init dist).decrements getEndurance addrs).life addr =
      if addr ∈ addrs then
        some ((init dist).drawn getEndurance addrs addr + 1 - addrs.count addr)
      else none := by
  induction addrs using List.reverseRecOn with
  | nil => rfl
  | append_singleton addrs a ih =>
    rw [decrements_concat]
    by_cases ha : addr = a
    · subst ha
      by_cases hmem : addr ∈ addrs
      · rw [if_pos hmem] at ih
        have hcount := List.one_le_count_iff.mpr hmem
        rw [if_pos (by simp), drawn_concat_of_mem _ _ _ hmem, List.count_append,
          List.count_singleton_self]
        unfold decrementLife
        split
        · simp_all
        · simp only [*, Option.some.injEq] at ih ⊢
          omega
        · simp only [*, Option.some.injEq, update_self] at ih ⊢
          omega
      · rw [if_neg hmem] at ih
        rw [if_pos (by simp), drawn_concat_of_notMem _ _ _ hmem, List.count_append,
          List.count_singleton_self, List.count_eq_zero_of_not_mem hmem]
        simp [decrementLife, ih]
    · rw [life_decrementLife_of_ne _ _ _ ha, ih]
      by_cases hmem : addr ∈ addrs
      · have hcount : (addrs ++ [a]).count addr = addrs.count addr := by simp [Ne.symm ha]
        rw [if_pos hmem, if_pos (by simp [hmem]), drawn_concat_of_mem _ _ _ hmem, hcount]
      · rw [if_neg hmem, if_neg (by simp [hmem, ha])]

/-- **The life of a location.** Take the `n`-th write of a location with the drawn endurance
`E`. It leaves the life `E + 1 - n` and fails if `n` exceeds `E + 1`; the life is `E - n` and
the failure that of `n` exceeding `E` only from the write `E + 2` on. The life of every other
location stays. -/
theorem decrementLife_nth_write (dist : σ) (addrs : List UInt64) :
    (∀ other, other ≠ addr →
      (((init dist).decrements getEndurance addrs).decrementLife getEndurance addr).2.life other =
        ((init dist).decrements getEndurance addrs).life other) ∧
    let E := (init dist).drawn getEndurance (addrs ++ [addr]) addr
    let n := (addrs ++ [addr]).count addr
    let before := (init dist).decrements getEndurance addrs
    let out := before.decrementLife getEndurance addr
    (out.2.life addr = some (E + 1 - n) ∧ (out.1 = false ↔ E + 1 < n)) ∧
      ((out.2.life addr = some (E - n) ∧ (out.1 = false ↔ E < n)) ↔ E + 2 ≤ n) := by
  refine ⟨fun other hne => life_decrementLife_of_ne _ _ _ hne, ?_⟩
  intro E n before out
  have hlife : out.2.life addr = some (E + 1 - n) := by
    have h := life_decrements getEndurance addr dist (addrs ++ [addr])
    rwa [decrements_concat, if_pos (by simp)] at h
  have hpos : 1 ≤ n := List.one_le_count_iff.mpr (by simp)
  -- a write fails if the life was zero before it
  have hfail : out.1 = false ↔ E + 1 < n := by
    have hbefore := life_decrements getEndurance addr dist addrs
    by_cases hmem : addr ∈ addrs
    · have hE : E = (init dist).drawn getEndurance addrs addr :=
        drawn_concat_of_mem getEndurance _ addr hmem addr
      have hn : n = addrs.count addr + 1 := by simp [n]
      rw [if_pos hmem, ← hE] at hbefore
      simp only [out, decrementLife]
      split <;> simp_all [before] <;> omega
    · rw [if_neg hmem] at hbefore
      have hn : n = 1 := by simp [n, List.count_eq_zero_of_not_mem hmem]
      simp [out, decrementLife, before, hbefore, hn]
  refine ⟨⟨hlife, hfail⟩, ?_⟩
  rw [hlife, hfail, Option.some.injEq]
  omega

end Life

/-- **The first write is free.** A location of endurance one has its whole life after its first
write, and the second write does not fail. -/
theorem decrementLife_first_write_free :
    ((init ()).decrementLife (fun _ => (1, ())) 0).2.life 0 = some 1 ∧
      (((init ()).decrements (fun _ => (1, ())) [0]).decrementLife (fun _ => (1, ())) 0).1 =
        true := by
  decide

end EnduranceModel

/-! ### Charging a write to bytes and bits -/

/-- A block of data. -/
structure NVMDataBlock where
  /-- The bytes from `rawData` on. -/
  rawData : ℕ → UInt8
  isValid : Bool
  size : ℕ

/-- `GetByte`, which reads one byte more than there are. -/
def NVMDataBlock.getByte (data : NVMDataBlock) (byte : ℕ) : UInt8 :=
  if data.isValid ∧ byte ≤ data.size then data.rawData byte else 0

/-- The parameters of an array that the models read, and its number of rows. -/
structure Geometry where
  busWidth : UInt64
  tBURST : UInt64
  rate : UInt64
  rows : UInt64
  cols : UInt64

namespace Geometry

/-- The bytes of a word written to memory. -/
def wordSize (p : Geometry) : UInt64 := p.busWidth * (p.tBURST * p.rate) / 8

/-- The bytes of a row. -/
def rowSize (p : Geometry) : UInt64 := p.cols * p.wordSize

end Geometry

/-- The parts of the position of a bit in the array. -/
inductive Digit
  | bit
  | byte
  | col
  | row
  deriving DecidableEq

/-- The number of values of each part. -/
def Geometry.radix (p : Geometry) : Digit → ℕ
  | .bit => 8
  | .byte => p.wordSize.toNat
  | .col => p.cols.toNat
  | .row => p.rows.toNat

/-- The bit `j` of the byte `i` in a column of a row. -/
def position (row col : UInt64) (i j : ℕ) : Digit → ℕ
  | .bit => j
  | .byte => i
  | .col => col.toNat
  | .row => row.toNat

private theorem eq_of_ofNat_eq {a b : ℕ} (ha : a < 2 ^ 64) (hb : b < 2 ^ 64)
    (h : UInt64.ofNat a = UInt64.ofNat b) : a = b := by
  rw [← UInt64.toNat_ofNat_of_lt' ha, h, UInt64.toNat_ofNat_of_lt' hb]

/-- Charge one write to a location; `-1` is returned if that fails. -/
def EnduranceModel.charge {σ : Type} (getEndurance : σ → ℕ × σ) (s : ℤ × EnduranceModel σ)
    (wordkey : UInt64) : ℤ × EnduranceModel σ :=
  let out := s.2.decrementLife getEndurance wordkey
  (if out.1 then s.1 else -1, out.2)

theorem EnduranceModel.charges_snd {σ : Type} (getEndurance : σ → ℕ × σ) (keys : List UInt64)
    (s : ℤ × EnduranceModel σ) :
    (keys.foldl (charge getEndurance) s).2 = s.2.decrements getEndurance keys := by
  induction keys generalizing s with
  | nil => rfl
  | cons key keys ih => exact ih _

variable {σ : Type} (getEndurance : σ → ℕ × σ) (p : Geometry) (m : EnduranceModel σ)
  (row col : UInt64) (newData oldData : NVMDataBlock)

namespace ByteModel

/-- The key of a byte. -/
def wordkey (i : ℕ) : UInt64 :=
  row * (p.rowSize / 8) + col * p.wordSize + UInt64.ofNat i

/-- `Write`. The loop counts down from an `int`. -/
def write : ℤ × EnduranceModel σ :=
  (List.range ((p.wordSize.toNat : ℤ).bmod (2 ^ 32)).toNat).reverse.foldl (fun s i =>
    if oldData.getByte i = newData.getByte i then s
    else EnduranceModel.charge getEndurance s (wordkey p row col i)) (0, m)

/-- The bytes that a write changes, in the order of the loop. -/
def changed : List ℕ :=
  (List.range ((p.wordSize.toNat : ℤ).bmod (2 ^ 32)).toNat).reverse.filter fun i =>
    oldData.getByte i ≠ newData.getByte i

theorem write_eq : write getEndurance p m row col newData oldData =
    ((changed p newData oldData).map (wordkey p row col)).foldl
      (EnduranceModel.charge getEndurance) (0, m) := by
  rw [changed, List.foldl_map, List.foldl_filter, write]
  congr 1
  funext s i
  by_cases h : oldData.getByte i = newData.getByte i <;> simp [h]

/-- The number of which the key of a byte is the value in 64 bits. -/
def code (row offset : ℕ) : ℕ := row * ((p.cols.toNat * p.wordSize.toNat) % 2 ^ 64 / 8) + offset

theorem wordkey_eq (i : ℕ) : wordkey p row col i =
    UInt64.ofNat (code p row.toNat (col.toNat * p.wordSize.toNat + i)) := by
  have hrow : p.rowSize / 8 = UInt64.ofNat ((p.cols.toNat * p.wordSize.toNat) % 2 ^ 64 / 8) :=
    UInt64.toNat.inj (by simp [Geometry.rowSize, UInt64.toNat_mul]; omega)
  rw [wordkey, hrow, code]
  simp only [UInt64.ofNat_add, UInt64.ofNat_mul, UInt64.ofNat_toNat]
  grind

/-- The position of a byte of a row. -/
theorem exists_position {offset : ℕ} (h : offset < p.cols.toNat * p.wordSize.toNat) :
    ∃ col < p.cols, ∃ i < p.wordSize.toNat, col.toNat * p.wordSize.toNat + i = offset := by
  have hpos : 0 < p.wordSize.toNat := Nat.pos_of_mul_pos_left (Nat.zero_lt_of_lt h)
  have hcol : offset / p.wordSize.toNat < p.cols.toNat := Nat.div_lt_of_lt_mul (by rwa [mul_comm])
  have htoNat : (UInt64.ofNat (offset / p.wordSize.toNat)).toNat = offset / p.wordSize.toNat :=
    UInt64.toNat_ofNat_of_lt' (hcol.trans p.cols.toNat_lt)
  refine ⟨UInt64.ofNat (offset / p.wordSize.toNat), ?_, offset % p.wordSize.toNat,
    Nat.mod_lt _ hpos, ?_⟩
  · rwa [UInt64.lt_iff_toNat_lt, htoNat]
  · rw [htoNat, mul_comm]
    exact Nat.div_add_mod _ _

/-- Different bytes of the array have different keys. -/
def Distinct : Prop :=
  ∀ row < p.rows, ∀ row' < p.rows, ∀ col < p.cols, ∀ col' < p.cols,
    ∀ i < p.wordSize.toNat, ∀ i' < p.wordSize.toNat,
      wordkey p row col i = wordkey p row' col' i' → row = row' ∧ col = col' ∧ i = i'

variable {p}

theorem Distinct.eq_of_code (h : Distinct p) {row row' : UInt64} {offset offset' : ℕ}
    (hrow : row < p.rows) (hrow' : row' < p.rows) (ho : offset < p.cols.toNat * p.wordSize.toNat)
    (ho' : offset' < p.cols.toNat * p.wordSize.toNat)
    (hcode : UInt64.ofNat (code p row.toNat offset) = UInt64.ofNat (code p row'.toNat offset')) :
    row = row' ∧ offset = offset' := by
  obtain ⟨col, hcol, i, hi, rfl⟩ := exists_position p ho
  obtain ⟨col', hcol', i', hi', rfl⟩ := exists_position p ho'
  rw [← wordkey_eq, ← wordkey_eq] at hcode
  obtain ⟨rfl, rfl, rfl⟩ := h row hrow row' hrow' col hcol col' hcol' i hi i' hi' hcode
  exact ⟨rfl, rfl⟩

theorem Distinct.rows_le (h : Distinct p) (hrows : p.rows ≠ 0)
    (hbytes : p.cols.toNat * p.wordSize.toNat ≠ 0) :
    p.rows = 1 ∧ p.cols.toNat * p.wordSize.toNat ≤ 2 ^ 64 := by
  have hzero : 0 < p.rows := UInt64.pos_iff_ne_zero.mpr hrows
  constructor
  · by_contra hone
    have hlt : 1 < p.rows := by
      rw [UInt64.lt_iff_toNat_lt, UInt64.toNat_one]
      have hzero' : p.rows.toNat ≠ 0 := fun h0 => hrows (UInt64.toNat.inj h0)
      have hone' : p.rows.toNat ≠ 1 := fun h1 => hone (UInt64.toNat.inj h1)
      omega
    -- row 1 begins at an eighth of row 0
    have heighth : ∀ n ≠ 0, n % 2 ^ 64 / 8 < n := by omega
    have hrow := (h.eq_of_code hzero hlt (heighth _ hbytes) (Nat.pos_of_ne_zero hbytes)
      (by simp [code])).1
    exact absurd hrow (by decide)
  · by_contra hle
    have hoffset := (h.eq_of_code hzero hzero (Nat.pos_of_ne_zero hbytes) (not_le.mp hle)
      (by simp [code])).2
    exact absurd hoffset (by decide)

theorem distinct_of_one_row (hone : p.rows = 1)
    (hle : p.cols.toNat * p.wordSize.toNat ≤ 2 ^ 64) : Distinct p := by
  intro row hrow row' hrow' col hcol col' hcol' i hi i' hi' hkey
  have hzero : ∀ r < p.rows, r.toNat = 0 := fun r hr => by
    rw [hone, UInt64.lt_iff_toNat_lt, UInt64.toNat_one] at hr
    omega
  have hlt : ∀ {col : UInt64} {i : ℕ}, col < p.cols → i < p.wordSize.toNat →
      ∀ q ∈ [Digit.byte, .col], position 0 col i 0 q < p.radix q := by
    simp +contextual [position, Geometry.radix, UInt64.lt_iff_toNat_lt]
  -- in the only row, the key is the number of the byte
  have hcode : ∀ {r col : UInt64} {i : ℕ}, r < p.rows → code p r.toNat
      (col.toNat * p.wordSize.toNat + i) =
        encode p.radix (position 0 col i 0) [.byte, .col] := fun {r col i} hr => by
    simp only [code, hzero r hr, encode, position, Geometry.radix]
    ring
  have hcap : capacity p.radix [.byte, .col] ≤ 2 ^ 64 := by
    simpa [Geometry.radix, mul_comm] using hle
  rw [wordkey_eq, wordkey_eq, hcode hrow, hcode hrow'] at hkey
  have heq := eq_of_ofNat_eq ((encode_lt (hlt hcol hi)).trans_le hcap)
    ((encode_lt (hlt hcol' hi')).trans_le hcap) hkey
  have hdigit := fun q => eq_of_encode_eq (p := q) (by decide) (hlt hcol hi)
    (hlt hcol' hi') heq
  exact ⟨UInt64.toNat.inj ((hzero row hrow).trans (hzero row' hrow').symm),
    UInt64.toNat.inj (hdigit .col (by decide)), hdigit .byte (by decide)⟩

/-- **Bytes that share a counter.** A write charges the keys of the bytes it changes. Different
bytes of the array have different keys precisely if there are no bytes, or if there is one row
and it has at most `2 ^ 64` bytes. -/
theorem write_charges_distinct_iff :
    (write getEndurance p m row col newData oldData =
      ((changed p newData oldData).map (wordkey p row col)).foldl
        (EnduranceModel.charge getEndurance) (0, m)) ∧
    (Distinct p ↔ p.rows = 0 ∨ p.cols.toNat * p.wordSize.toNat = 0 ∨
      p.rows = 1 ∧ p.cols.toNat * p.wordSize.toNat ≤ 2 ^ 64) := by
  refine ⟨write_eq _ _ _ _ _ _ _, fun h => ?_, ?_⟩
  · by_cases hrows : p.rows = 0
    · exact .inl hrows
    by_cases hbytes : p.cols.toNat * p.wordSize.toNat = 0
    · exact .inr (.inl hbytes)
    exact .inr (.inr (h.rows_le hrows hbytes))
  · rintro (h | h | ⟨hone, hle⟩)
    · exact fun row hrow => absurd hrow (by simp [h])
    · rcases Nat.mul_eq_zero.mp h with h | h
      · exact fun _ _ _ _ col hcol => absurd hcol (by simp [UInt64.lt_iff_toNat_lt, h])
      · exact fun _ _ _ _ _ _ _ _ i hi => absurd hi (by simp [h])
    · exact distinct_of_one_row hone hle

/-- **Two bytes with one counter.** In an array of two rows of one word of eight bytes, byte 1
of row 0 and byte 0 of row 1 have the same key, and a write that changes it charges it. -/
theorem write_charges_shared :
    wordkey ⟨64, 1, 1, 2, 1⟩ 0 0 1 = wordkey ⟨64, 1, 1, 2, 1⟩ 1 0 0 ∧
      (write (fun _ => (5, ())) ⟨64, 1, 1, 2, 1⟩
        (write (fun _ => (5, ())) ⟨64, 1, 1, 2, 1⟩ (.init ()) 0 0
          ⟨fun i => if i = 1 then 1 else 0, true, 8⟩ ⟨fun _ => 0, true, 8⟩).2 1 0
        ⟨fun i => if i = 0 then 1 else 0, true, 8⟩ ⟨fun _ => 0, true, 8⟩).2.life 1 = some 4 := by
  decide

end ByteModel

namespace BitModel

/-- The key of a bit. -/
def wordkey (i j : ℕ) : UInt64 :=
  row * (p.rowSize * 8) + col * p.wordSize * 8 + UInt64.ofNat i * 8 + UInt64.ofNat j

/-- A bit of a byte, as a byte. -/
def bit (byte : UInt8) (j : ℕ) : UInt8 := (byte >>> UInt8.ofNat j) &&& 0x1

/-- `Write`. -/
def write : ℤ × EnduranceModel σ :=
  (List.range p.wordSize.toNat).foldl (fun s i =>
    if oldData.getByte i = newData.getByte i then s
    else (List.range 8).foldl (fun s j =>
      if bit (oldData.getByte i) j = bit (newData.getByte i) j then s
      else EnduranceModel.charge getEndurance s (wordkey p row col i j)) s) (0, m)

/-- The bits that a write changes, in the order of the loops. -/
def changed : List (ℕ × ℕ) :=
  (List.range p.wordSize.toNat).flatMap fun i =>
    ((List.range 8).filter fun j =>
      bit (oldData.getByte i) j ≠ bit (newData.getByte i) j).map (i, ·)

theorem mem_changed {i j : ℕ} : (i, j) ∈ changed p newData oldData ↔
    i < p.wordSize.toNat ∧ j < 8 ∧ bit (oldData.getByte i) j ≠ bit (newData.getByte i) j := by
  simp [changed]

theorem nodup_changed : (changed p newData oldData).Nodup := by
  refine List.nodup_flatMap.mpr ⟨fun i _ => ?_, List.nodup_range.imp fun {i i'} hne => ?_⟩
  · exact (List.nodup_range.filter _).map (Prod.mk_right_injective i)
  · intro b hb hb'
    simp only [List.mem_map] at hb hb'
    obtain ⟨j, -, rfl⟩ := hb
    obtain ⟨j', -, heq⟩ := hb'
    exact hne (congrArg Prod.fst heq).symm

theorem write_eq : write getEndurance p m row col newData oldData =
    ((changed p newData oldData).map fun b => wordkey p row col b.1 b.2).foldl
      (EnduranceModel.charge getEndurance) (0, m) := by
  rw [changed, List.foldl_map, List.foldl_flatMap, write]
  congr 1
  funext s i
  rw [List.foldl_map, List.foldl_filter]
  by_cases h : oldData.getByte i = newData.getByte i
  · simp [h]
  · rw [if_neg h]
    congr 1
    funext s j
    by_cases hj : bit (oldData.getByte i) j = bit (newData.getByte i) j <;> simp [hj]

/-- The keys number the bits of the array. -/
theorem wordkey_eq (i j : ℕ) : wordkey p row col i j =
    UInt64.ofNat (encode p.radix (position row col i j) [.bit, .byte, .col, .row]) := by
  simp only [wordkey, Geometry.rowSize, encode, position, Geometry.radix,
    UInt64.ofNat_add, UInt64.ofNat_mul, UInt64.ofNat_toNat]
  grind

/-- **Bits that differ.** If the array has at most `2 ^ 64` bits, a write decrements the life of
exactly the bits in which the old and the new data differ, one after the other, and bits at
different positions have different entries. -/
theorem write_decrements_changed
    (hfit : p.rows.toNat * p.cols.toNat * p.wordSize.toNat * 8 ≤ 2 ^ 64) :
    (∃ bits : List (ℕ × ℕ), bits.Nodup ∧
      (∀ i j, (i, j) ∈ bits ↔ i < p.wordSize.toNat ∧ j < 8 ∧
        bit (oldData.getByte i) j ≠ bit (newData.getByte i) j) ∧
      (write getEndurance p m row col newData oldData).2 =
        m.decrements getEndurance (bits.map fun b => wordkey p row col b.1 b.2)) ∧
    ∀ row < p.rows, ∀ row' < p.rows, ∀ col < p.cols, ∀ col' < p.cols,
      ∀ i < p.wordSize.toNat, ∀ i' < p.wordSize.toNat, ∀ j < 8, ∀ j' < 8,
        wordkey p row col i j = wordkey p row' col' i' j' →
          row = row' ∧ col = col' ∧ i = i' ∧ j = j' := by
  refine ⟨⟨changed p newData oldData, nodup_changed _ _ _, fun i j => mem_changed _ _ _, ?_⟩, ?_⟩
  · rw [write_eq, EnduranceModel.charges_snd]
  intro row hrow row' hrow' col hcol col' hcol' i hi i' hi' j hj j' hj' hkey
  have hlt : ∀ {row col : UInt64} {i j : ℕ}, row < p.rows → col < p.cols →
      i < p.wordSize.toNat → j < 8 →
        ∀ q ∈ [Digit.bit, .byte, .col, .row], position row col i j q < p.radix q := by
    simp +contextual [position, Geometry.radix, UInt64.lt_iff_toNat_lt]
  have hcap : capacity p.radix [.bit, .byte, .col, .row] ≤ 2 ^ 64 := by
    simp only [capacity_cons, capacity_nil, Geometry.radix]
    linarith
  rw [wordkey_eq, wordkey_eq] at hkey
  have heq := eq_of_ofNat_eq ((encode_lt (hlt hrow hcol hi hj)).trans_le hcap)
    ((encode_lt (hlt hrow' hcol' hi' hj')).trans_le hcap) hkey
  have hdigit := fun q => eq_of_encode_eq (p := q) (by decide) (hlt hrow hcol hi hj)
    (hlt hrow' hcol' hi' hj') heq
  exact ⟨UInt64.toNat.inj (hdigit .row (by decide)), UInt64.toNat.inj (hdigit .col (by decide)),
    hdigit .byte (by decide), hdigit .bit (by decide)⟩

/-- An array of 1024 rows of 16 words of eight bytes. -/
def smallArray : Geometry := ⟨64, 1, 1, 1024, 16⟩

/-- A write to that array that changes bytes with the value 3 to 5. -/
theorem write_decrements_changed_small :
    ∃ bits : List (ℕ × ℕ), bits.Nodup ∧
      (∀ i j, (i, j) ∈ bits ↔ i < smallArray.wordSize.toNat ∧ j < 8 ∧
        bit (NVMDataBlock.getByte ⟨fun _ => 3, true, 8⟩ i) j ≠
          bit (NVMDataBlock.getByte ⟨fun _ => 5, true, 8⟩ i) j) ∧
      (write (fun _ => (9, ())) smallArray (.init ()) 7 2 ⟨fun _ => 5, true, 8⟩
        ⟨fun _ => 3, true, 8⟩).2 = (EnduranceModel.init ()).decrements (fun _ => (9, ()))
          (bits.map fun b => wordkey smallArray 7 2 b.1 b.2) :=
  (write_decrements_changed _ smallArray _ 7 2 _ _ (by decide)).1

/-- **Too many bits.** In an array of `2 ^ 63` rows of one byte the keys of the rows 0 and
`2 ^ 61` are the same. -/
theorem wordkey_wraps :
    let p : Geometry := ⟨8, 1, 1, 9223372036854775808, 1⟩
    p.wordSize = 1 ∧ 2305843009213693952 < p.rows ∧
      wordkey p 0 0 0 0 = wordkey p 2305843009213693952 0 0 0 := by
  decide

end BitModel

end HybridMemory.NVMain

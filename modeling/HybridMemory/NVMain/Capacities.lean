import Mathlib
import HybridMemory.Lib.Strings

/-!
# Capacities in the configuration

The sizes of caches are given as strings such as `"64 KB"`. `StringParser` cuts such a string
into a number and a unit: it erases the blanks at both ends and everything from the first to the
last of the others, and then goes from the end of the string to the last digit. `TransToBytes`
multiplies the number with the unit, in any case of its letters.

Places in the string are held in an `int`, so a string in which the number, the blanks up to the
unit and the unit take `2 ^ 31` characters or more, or with as many blanks before the number, is
cut at the wrong place. For all others the result is that of `Capacity.bytes`
(`transToBytes_eq`).
-/

namespace HybridMemory.NVMain

open Strings

/-! ### The parser -/

/-- `Power`. -/
def power (n e : ℕ) : UInt64 :=
  if e = 0 then 1
  else (List.range (e - 1)).foldl (fun result _ => result * UInt64.ofNat n) (UInt64.ofNat n)

/-- The white space that `strtol` skips. -/
def isSpace (c : Char) : Bool := c = ' ' ∨ 9 ≤ c.toNat ∧ c.toNat ≤ 13

/-- The value of the digits that a string begins with. -/
def leadingDigits (s : List Char) : ℤ := Nat.ofDigitChars 10 (s.takeWhile Char.isDigit) 0

/-- `strtol` in base 10, which stays in the range of `long`. -/
def strtol (s : List Char) : ℤ :=
  match s.dropWhile isSpace with
  | '-' :: t => max (-leadingDigits t) (-2 ^ 63)
  | '+' :: t => min (leadingDigits t) (2 ^ 63 - 1)
  | t => min (leadingDigits t) (2 ^ 63 - 1)

/-- The string without the blanks at its ends. -/
def trimEnds (s : List Char) : List Char :=
  let s := erase 0 (toSize (toInt (findFirst (· ≠ ' ') s))) s
  eraseFrom ((findLast (· ≠ ' ') s + 1) % 2 ^ 64) s

/-- The string without anything from its first to its last blank. -/
def trimMiddle (s : List Char) : List Char :=
  let pos := toInt (findFirst (· = ' ') s)
  if 0 ≤ pos then
    let len := toInt (findLast (· = ' ') s - pos + 1)
    erase (toSize pos) (toSize len) s
  else s

/-- The loop that looks for the last digit, with `unit_len` and `pos + 1`. It has no result if
it goes on to `tmp[-1]`. -/
def scanUnit (tmp : List Char) : ℕ → ℕ → Option (ℕ × ℕ)
  | _, 0 => none
  | unitLen, pos + 1 =>
    if (tmp.getD pos '\x00').isDigit then some (unitLen, pos + 1)
    else scanUnit tmp (unitLen + 1) pos

/-- `StringParser`: the number and the parts of the string. -/
def stringParser (source : List Char) : Option (UInt64 × List Char × List Char) := do
  let source := trimMiddle (trimEnds source)
  let (unitLen, next) ← scanUnit source 0 (toInt (source.length - 1) + 1).toNat
  let unitStr := substr next unitLen source
  let numStr := substr 0 (source.length - unitLen) source
  return (UInt64.ofInt (strtol numStr), numStr, unitStr)

/-- `ToBytes`, with -1 for a unit that does not exist. -/
def toBytes (result : UInt64) (unitStr : List Char) : UInt64 :=
  let unitStr := unitStr.map Char.toUpper
  if unitStr = ['B'] ∨ unitStr = [] then result
  else if unitStr = ['K', 'B'] then result * power 2 10
  else if unitStr = ['M', 'B'] then result * power 2 20
  else if unitStr = ['G', 'B'] then result * power 2 30
  else if unitStr = ['T', 'B'] then result * power 2 40
  else -1

/-- `TransToBytes`. -/
def transToBytes (capacityStr : List Char) : Option UInt64 :=
  (stringParser capacityStr).map fun parsed => toBytes parsed.1 parsed.2.2

/-! ### Trimming -/

theorem blank_of_mem_replicate {k : ℕ} {z : Char} (hz : z ∈ List.replicate k ' ') :
    decide (z ≠ ' ') = false := by
  simp [List.eq_of_mem_replicate hz]

/-- A string that begins and ends with other characters is left over. -/
theorem trimEnds_eq {core t t' : List Char} {x y : Char} (hfirst : core = x :: t) (hx : x ≠ ' ')
    (hlast : core = t' ++ [y]) (hy : y ≠ ' ') {before : ℕ} (hbefore : before < 2 ^ 31)
    (hcore : core.length < 2 ^ 64) (after : ℕ) :
    trimEnds (List.replicate before ' ' ++ core ++ List.replicate after ' ') = core := by
  have hhead : findFirst (· ≠ ' ') (List.replicate before ' ' ++ core ++
      List.replicate after ' ') = before := by
    have hfind := findFirst_append (fun z => blank_of_mem_replicate (k := before))
      (decide_eq_true hx) (t ++ List.replicate after ' ')
    rw [List.length_replicate] at hfind
    rw [hfirst, List.append_assoc, List.cons_append]
    exact hfind
  have herase : erase 0 before (List.replicate before ' ' ++ core ++ List.replicate after ' ') =
      core ++ List.replicate after ' ' := by
    have hcut := erase_append [] (List.replicate before ' ') (core ++ List.replicate after ' ')
    rw [List.length_replicate] at hcut
    rw [List.append_assoc]
    exact hcut
  have htail : findLast (· ≠ ' ') (core ++ List.replicate after ' ') + 1 = core.length := by
    have hfind := findLast_append t' (decide_eq_true hy)
      fun z => blank_of_mem_replicate (k := after)
    rw [hlast, List.append_assoc, List.singleton_append, hfind, List.length_append]
    rfl
  simp only [trimEnds, hhead]
  rw [toInt_of_lt hbefore, toSize_of_lt (lt_trans hbefore (by decide)), herase, htail,
    Nat.mod_eq_of_lt hcore]
  exact eraseFrom_append core _

/-- The blanks between two parts are erased. -/
theorem trimMiddle_eq {s u : List Char} (hs : ∀ x ∈ s, x ≠ ' ') (hu : ∀ x ∈ u, x ≠ ' ')
    {between : ℕ} (hlen : s.length + between < 2 ^ 31) :
    trimMiddle (s ++ (List.replicate between ' ' ++ u)) = s ++ u := by
  have hs' : ∀ x ∈ s, decide (x = ' ') = false := fun x hx => decide_eq_false (hs x hx)
  have hu' : ∀ x ∈ u, decide (x = ' ') = false := fun x hx => decide_eq_false (hu x hx)
  cases between with
  | zero =>
    have hnone : findFirst (· = ' ') (s ++ u) = npos :=
      findFirst_eq_npos fun x hx => (List.mem_append.mp hx).elim (hs' x) (hu' x)
    simp only [List.replicate_zero, List.nil_append, trimMiddle, hnone, toInt_npos]
    exact if_neg (by decide)
  | succ k =>
    have hfirst : findFirst (· = ' ') (s ++ (List.replicate (k + 1) ' ' ++ u)) = s.length :=
      findFirst_append hs' (decide_eq_true rfl) (List.replicate k ' ' ++ u)
    have hlast : findLast (· = ' ') (s ++ (List.replicate (k + 1) ' ' ++ u)) = s.length + k := by
      have hfind := findLast_append (s ++ List.replicate k ' ') (decide_eq_true rfl) hu'
      rw [List.length_append, List.length_replicate] at hfind
      rw [List.replicate_succ', List.append_assoc, List.singleton_append, ← List.append_assoc]
      exact hfind
    have hcount : (↑(s.length + k) - ↑s.length + 1 : ℤ) = ↑(k + 1) := by omega
    have herase := erase_append s (List.replicate (k + 1) ' ') u
    rw [List.length_replicate] at herase
    simp only [trimMiddle, hfirst, hlast, toInt_of_lt (show s.length < 2 ^ 31 by omega), hcount,
      toInt_of_lt (show k + 1 < 2 ^ 31 by omega), toSize_of_lt (show s.length < 2 ^ 64 by omega),
      toSize_of_lt (show k + 1 < 2 ^ 64 by omega), herase]
    exact if_pos (Int.natCast_nonneg _)

/-! ### The number and the unit -/

/-- The loop goes back over a unit without digits to the number. -/
theorem scanUnit_eq {s u : List Char} (hne : s ≠ []) (hs : ∀ x ∈ s, x.isDigit = true)
    (hu : ∀ x ∈ u, x.isDigit = false) :
    scanUnit (s ++ u) 0 (s.length + u.length) = some (u.length, s.length) := by
  have hloop : ∀ k ≤ u.length, ∀ unitLen,
      scanUnit (s ++ u) unitLen (s.length + k) = some (unitLen + k, s.length) := by
    intro k
    induction k with
    | zero =>
      intro _ unitLen
      obtain ⟨pos, hpos⟩ := Nat.exists_eq_add_one.mpr (List.length_pos_iff.mpr hne)
      have hdigit : ((s ++ u).getD pos '\x00').isDigit = true := by
        have hlt : pos < s.length := by omega
        rw [List.getD_append _ _ _ _ hlt, List.getD_eq_getElem _ _ hlt]
        exact hs _ (List.getElem_mem hlt)
      rw [hpos, Nat.add_zero, scanUnit, if_pos hdigit]
      rfl
    | succ k ih =>
      intro hk unitLen
      have hletter : ((s ++ u).getD (s.length + k) '\x00').isDigit = false := by
        have hlt : k < u.length := by omega
        rw [List.getD_append_right _ _ _ _ (Nat.le_add_right _ _), Nat.add_sub_cancel_left,
          List.getD_eq_getElem _ _ hlt]
        exact hu _ (List.getElem_mem hlt)
      rw [← Nat.add_assoc, scanUnit, hletter, if_neg (by decide), ih (by omega), Nat.add_assoc,
        Nat.add_comm 1 k]
  simpa using hloop u.length le_rfl 0

/-- The result of `strtol` for a number that it can represent. -/
theorem strtol_eq {s : List Char} (hne : s ≠ []) (hs : ∀ x ∈ s, x.isDigit = true)
    (hvalue : Nat.ofDigitChars 10 s 0 < 2 ^ 63) : strtol s = Nat.ofDigitChars 10 s 0 := by
  have hdigits : leadingDigits s = Nat.ofDigitChars 10 s 0 := by
    rw [leadingDigits, List.takeWhile_eq_self_iff.mpr hs]
  have hmin : min (leadingDigits s) (2 ^ 63 - 1) = Nat.ofDigitChars 10 s 0 := by
    rw [hdigits]
    omega
  obtain ⟨x, t, rfl⟩ := List.exists_cons_of_ne_nil hne
  have hx := Char.isDigit_iff_toNat.mp (hs x List.mem_cons_self)
  have hspace : isSpace x = false := by
    refine decide_eq_false ?_
    rintro (rfl | ⟨_, hle⟩)
    · exact absurd hx.1 (by decide)
    · exact absurd (hx.1.trans hle) (by decide)
  rw [strtol, List.dropWhile_cons_of_neg (by simp [hspace])]
  split
  · rename_i heq
    rw [(List.cons.inj heq).1] at hx
    exact absurd hx.1 (by decide)
  · rename_i heq
    rw [(List.cons.inj heq).1] at hx
    exact absurd hx.1 (by decide)
  · exact hmin

theorem toNat_power (n e : ℕ) : (power n e).toNat = n ^ e % 2 ^ 64 := by
  cases e with
  | zero => rfl
  | succ e =>
    have hloop : ∀ k, ((List.range k).foldl (fun result _ => result * UInt64.ofNat n)
        (UInt64.ofNat n)).toNat = n ^ (k + 1) % 2 ^ 64 := by
      intro k
      induction k with
      | zero => simp
      | succ k ih =>
        rw [List.range_succ, List.foldl_append, List.foldl_cons, List.foldl_nil,
          UInt64.toNat_mul, ih, UInt64.toNat_ofNat', ← Nat.mul_mod, ← Nat.pow_succ]
    rw [power, if_neg (Nat.succ_ne_zero e)]
    exact hloop e

/-! ### Capacities -/

/-- The units with their powers of 1024. -/
def units : List (List Char × ℕ) :=
  [([], 0), (['B'], 0), (['K', 'B'], 1), (['M', 'B'], 2), (['G', 'B'], 3), (['T', 'B'], 4)]

/-- A decimal number and a unit, in capital or small letters. -/
structure Capacity where
  digits : List Char
  unit : List Char
  exponent : ℕ
  digits_ne_nil : digits ≠ []
  isDigit : ∀ x ∈ digits, x.isDigit = true
  unit_mem : (unit.map Char.toUpper, exponent) ∈ units

namespace Capacity

variable (m : Capacity)

def bytes : ℕ := Nat.ofDigitChars 10 m.digits 0 * 1024 ^ m.exponent

/-- The capacity as a string, with blanks before, between and after its parts. -/
def format (before between after : ℕ) : List Char :=
  List.replicate before ' ' ++ (m.digits ++ (List.replicate between ' ' ++ m.unit)) ++
    List.replicate after ' '

theorem digits_ne_blank {x : Char} (h : x ∈ m.digits) : x ≠ ' ' := by
  rintro rfl
  exact absurd (m.isDigit _ h) (by decide)

/-- The letters of the units are neither digits nor blanks. -/
theorem unit_not_isDigit {x : Char} (h : x ∈ m.unit) : x.isDigit = false ∧ x ≠ ' ' := by
  have hletters : ∀ q ∈ units, ∀ y ∈ q.1, y.isDigit = false ∧ y ≠ ' ' := by
    simp [units]
  have hupper := hletters _ m.unit_mem x.toUpper (List.mem_map_of_mem h)
  by_cases hlower : x.isLower = true
  · constructor
    · simp only [Char.isLower, Char.isDigit, ge_iff_le, UInt32.le_iff_toNat_le, Bool.and_eq_true,
        decide_eq_true_eq, Bool.and_eq_false_iff, decide_eq_false_iff_not] at hlower ⊢
      exact Or.inr fun h => absurd (hlower.1.trans h) (by decide)
    · rintro rfl
      exact absurd hlower (by decide)
  · rwa [Char.toUpper_eq_of_not_isLower hlower] at hupper

theorem trim_format {before between : ℕ} (hbefore : before < 2 ^ 31)
    (hlen : m.digits.length + between + m.unit.length < 2 ^ 31) (after : ℕ) :
    trimMiddle (trimEnds (m.format before between after)) = m.digits ++ m.unit := by
  have hdigits : ∀ x ∈ m.digits, x ≠ ' ' := fun x => m.digits_ne_blank
  have hunit : ∀ x ∈ m.unit, x ≠ ' ' := fun x hx => (m.unit_not_isDigit hx).2
  obtain ⟨x, t, hfirst⟩ := List.exists_cons_of_ne_nil m.digits_ne_nil
  have hx : x ≠ ' ' := hdigits x (hfirst ▸ List.mem_cons_self)
  -- the trimmed string is `core`, in which `k` blanks are left
  have htrim (k rest : ℕ) {core t' : List Char} {y : Char}
      (hcore : core = m.digits ++ (List.replicate k ' ' ++ m.unit)) (hk : k ≤ between)
      (hlast : core = t' ++ [y]) (hy : y ≠ ' ')
      (hformat : m.format before between after =
        List.replicate before ' ' ++ core ++ List.replicate rest ' ') :
      trimMiddle (trimEnds (m.format before between after)) = m.digits ++ m.unit := by
    have hlength : core.length < 2 ^ 64 := by
      rw [hcore, List.length_append, List.length_append, List.length_replicate]
      omega
    have hhead : core = x :: (t ++ (List.replicate k ' ' ++ m.unit)) := by
      rw [hcore, hfirst, List.cons_append]
    rw [hformat, trimEnds_eq hhead hx hlast hy hbefore hlength, hcore]
    exact trimMiddle_eq hdigits hunit (by omega)
  rcases List.eq_nil_or_concat m.unit with hnil | ⟨t', y, hlast⟩
  · -- without a unit, the blanks before it are among those at the end
    rcases List.eq_nil_or_concat m.digits with hnone | ⟨t', y, hlast⟩
    · exact absurd hnone m.digits_ne_nil
    · have hcore : m.digits ++ (List.replicate 0 ' ' ++ m.unit) = t' ++ [y] := by
        rw [hnil, hlast]
        simp
      have hy : y ≠ ' ' := hdigits y (by simp [hlast])
      refine htrim 0 (between + after) rfl (Nat.zero_le _) hcore hy ?_
      simp [format, hnil]
  · have hcore : m.digits ++ (List.replicate between ' ' ++ m.unit) =
        (m.digits ++ (List.replicate between ' ' ++ t')) ++ [y] := by
      rw [hlast]
      simp
    have hy : y ≠ ' ' := hunit y (by simp [hlast])
    exact htrim between after rfl le_rfl hcore hy rfl

theorem stringParser_format {before between : ℕ} (hbefore : before < 2 ^ 31)
    (hlen : m.digits.length + between + m.unit.length < 2 ^ 31)
    (hvalue : Nat.ofDigitChars 10 m.digits 0 < 2 ^ 63) (after : ℕ) :
    stringParser (m.format before between after) =
      some (UInt64.ofNat (Nat.ofDigitChars 10 m.digits 0), m.digits, m.unit) := by
  have hscan : scanUnit (m.digits ++ m.unit) 0
      (toInt ((m.digits ++ m.unit).length - 1) + 1).toNat =
        some (m.unit.length, m.digits.length) := by
    have hpos := List.length_pos_iff.mpr m.digits_ne_nil
    have hlast : (((m.digits ++ m.unit).length : ℕ) : ℤ) - 1 =
        ((m.digits.length + m.unit.length - 1 : ℕ) : ℤ) := by
      rw [List.length_append]
      omega
    have hsize : (((m.digits.length + m.unit.length - 1 : ℕ) : ℤ) + 1).toNat =
        m.digits.length + m.unit.length := by omega
    rw [hlast, toInt_of_lt (by omega), hsize]
    exact scanUnit_eq m.digits_ne_nil m.isDigit fun x hx => (m.unit_not_isDigit hx).1
  have hnum : substr 0 ((m.digits ++ m.unit).length - m.unit.length) (m.digits ++ m.unit) =
      m.digits := by
    simp [substr]
  have hunit : substr m.digits.length m.unit.length (m.digits ++ m.unit) = m.unit := by
    simp [substr]
  have hresult : UInt64.ofInt (strtol m.digits) =
      UInt64.ofNat (Nat.ofDigitChars 10 m.digits 0) := by
    rw [strtol_eq m.digits_ne_nil m.isDigit hvalue, UInt64.ofInt]
    congr 1
    omega
  simp only [stringParser, m.trim_format hbefore hlen, hscan, Option.bind_eq_bind,
    Option.bind_some, hnum, hunit, hresult]
  rfl

/-- The unit multiplies the number. -/
theorem toBytes_unit (result : UInt64) :
    toBytes result m.unit = result * power 2 (10 * m.exponent) := by
  have hmem := m.unit_mem
  simp only [units, List.mem_cons, Prod.mk.injEq, List.not_mem_nil, or_false] at hmem
  have hone : power 2 0 = 1 := rfl
  rcases hmem with ⟨hu, he⟩ | ⟨hu, he⟩ | ⟨hu, he⟩ | ⟨hu, he⟩ | ⟨hu, he⟩ | ⟨hu, he⟩ <;>
    simp [toBytes, hu, he, hone]

/-- **The bytes of a capacity.** A number and a unit with any blanks around them are parsed to
the number of bytes, as long as that is below `2 ^ 63` and the places of the parts are in the
range of `int`. -/
theorem transToBytes_eq {before between : ℕ} (hbefore : before < 2 ^ 31)
    (hlen : m.digits.length + between + m.unit.length < 2 ^ 31) (hbytes : m.bytes < 2 ^ 63)
    (after : ℕ) :
    transToBytes (m.format before between after) = some (UInt64.ofNat m.bytes) := by
  have hvalue : Nat.ofDigitChars 10 m.digits 0 < 2 ^ 63 :=
    (Nat.le_mul_of_pos_right _ (Nat.pow_pos (by decide))).trans_lt hbytes
  have hpower : 2 ^ (10 * m.exponent) = 1024 ^ m.exponent := by
    rw [pow_mul]
    rfl
  have hmul : UInt64.ofNat (Nat.ofDigitChars 10 m.digits 0) * power 2 (10 * m.exponent) =
      UInt64.ofNat m.bytes := by
    refine UInt64.toNat.inj ?_
    rw [UInt64.toNat_mul, UInt64.toNat_ofNat', UInt64.toNat_ofNat', toNat_power, ← Nat.mul_mod,
      hpower, bytes]
  rw [transToBytes, m.stringParser_format hbefore hlen hvalue, Option.map_some, toBytes_unit, hmul]

private def kilobytes : Capacity where
  digits := ['6', '4']
  unit := ['k', 'B']
  exponent := 1
  digits_ne_nil := List.cons_ne_nil _ _
  isDigit := by simp
  unit_mem := by decide

/-- 64 kB are 65536 bytes. -/
theorem transToBytes_kilobytes :
    transToBytes [' ', ' ', '6', '4', ' ', 'k', 'B', ' '] = some 65536 :=
  kilobytes.transToBytes_eq (show 2 < 2 ^ 31 by decide) (show 2 + 1 + 2 < 2 ^ 31 by decide)
    (by decide) 1

/-- So many blanks before the number make the length to erase negative, and as a `size_t` it is
longer than the string. -/
theorem trimEnds_eq_nil {before : ℕ} (hbefore : before = 2 ^ 31) {x : Char} (hx : x ≠ ' ')
    {t : List Char} (ht : t.length < 2 ^ 31) :
    trimEnds (List.replicate before ' ' ++ x :: t) = [] := by
  have hhead : findFirst (· ≠ ' ') (List.replicate before ' ' ++ x :: t) = 2 ^ 31 := by
    have hfind := findFirst_append (fun z => blank_of_mem_replicate (k := before))
      (decide_eq_true hx) t
    rw [List.length_replicate] at hfind
    exact hfind.trans hbefore
  have hlength : (List.replicate before ' ' ++ x :: t).length ≤ 2 ^ 64 - 2 ^ 31 := by
    rw [List.length_append, List.length_replicate, List.length_cons]
    omega
  have hsize : toSize (toInt ((2 ^ 31 : ℕ) : ℤ)) = 2 ^ 64 - 2 ^ 31 := by decide
  simp only [trimEnds, hhead, hsize, erase_of_length_le hlength]
  rfl

private def oneByte : Capacity where
  digits := ['1']
  unit := ['B']
  exponent := 0
  digits_ne_nil := List.cons_ne_nil _ _
  isDigit := by simp
  unit_mem := by decide

/-- After `2 ^ 31` blanks, the capacity of one byte is erased as well, and the parser reads
before the beginning of the string. -/
theorem transToBytes_erased :
    oneByte.bytes = 1 ∧ transToBytes (oneByte.format (2 ^ 31) 0 0) = none := by
  refine ⟨by decide, ?_⟩
  have htrim : trimEnds (oneByte.format (2 ^ 31) 0 0) = [] := by
    have hformat : oneByte.format (2 ^ 31) 0 0 = List.replicate (2 ^ 31) ' ' ++ '1' :: ['B'] := by
      rw [format, List.replicate_zero, List.append_nil]
      rfl
    rw [hformat]
    exact trimEnds_eq_nil rfl (by decide) (by decide)
  have hparser : stringParser (oneByte.format (2 ^ 31) 0 0) = none := by
    rw [stringParser, htrim]
    rfl
  rw [transToBytes, hparser]
  rfl

end Capacity

end HybridMemory.NVMain

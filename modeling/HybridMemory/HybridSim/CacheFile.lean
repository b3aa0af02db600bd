import HybridMemory.HybridSim.HybridSystem
import Mathlib.Data.List.TakeWhile

/-!
# The file of the cache table

`saveCacheTable` writes the valid lines of the cache to a text file, and `restoreCacheTable` reads
them into a new cache. The loop that reads goes on until the stream is no longer good. After the
last line the end of that line is left, so the loop is entered once more: nothing can be read, and
a new line, which is not valid, is entered at whatever address the variable for the address holds
(`restoreCacheTable_saveCacheTable`).

`uninit` says what a variable of the loop holds before it is set, from what it held in the
iteration before: its place in memory may be the same. A number that cannot be read leaves its
variable as it is. The numbers of the file have at most 64 bits.
-/

namespace HybridMemory.HybridSim

open Function

/-! ### Reading text -/

/-- A stream that reads from a file: what is left of it, and two of its flags. -/
structure InStream where
  rest : List Char
  eof : Bool := false
  fail : Bool := false

namespace InStream

def good (s : InStream) : Bool := !s.eof && !s.fail

/-- The operator `>>` for a number, with what the variable holds before. -/
def extract (s : InStream) (target : ℕ) : ℕ × InStream :=
  if s.good then
    let text := s.rest.dropWhile Char.isWhitespace
    let digits := text.takeWhile Char.isDigit
    let rest := text.dropWhile Char.isDigit
    (if digits = [] then target else Nat.ofDigitChars 10 digits 0,
      ⟨rest, rest.isEmpty, digits.isEmpty⟩)
  else (target, { s with fail := true })

/-- The operator `>>` for a truth value. -/
def extractBool (s : InStream) (target : Bool) : Bool × InStream :=
  let out := s.extract 0
  if out.2.fail then (target, out.2) else (out.1 ≠ 0, { out.2 with fail := decide (1 < out.1) })

end InStream

/-- A number in a file, and the character after it. -/
def number (n : ℕ) (sep : Char) : List Char := Nat.toDigits 10 n ++ [sep]

/-! ### The table -/

/-- An entry of the cache table. -/
structure TableLine extends CacheLine where
  data : ℕ := 0
  deriving DecidableEq

def TableLine.save (addr : ℕ) (line : TableLine) : List Char :=
  number addr ' ' ++ number line.valid.toNat ' ' ++ number line.dirty.toNat ' ' ++
    number line.tag ' ' ++ number line.data ' ' ++ number line.ts '\n'

/-- `saveCacheTable`. A line that is not in the table is not valid. -/
def saveCacheTable (cfg : Config) (cache : ℕ → TableLine) : List Char :=
  number cfg.pageSize ' ' ++ number cfg.setSize ' ' ++ number cfg.cachePages ' ' ++
    number cfg.totalPages '\n' ++
    (((List.range cfg.cachePages).map (· * cfg.pageSize)).filter fun addr =>
      (cache addr).valid).flatMap fun addr => (cache addr).save addr

/-- The numbers at the beginning of the file have to be those of the configuration. -/
def checkHeader : List ℕ → ℕ → InStream → Option InStream
  | [], _, s => some s
  | n :: ns, tmp, s =>
    let out := s.extract tmp
    if out.1 = n then checkHeader ns out.1 out.2 else none

/-- Read the entry for a line; the variable for its address holds `addr` before. -/
def restoreLine (addr : ℕ) (s : InStream) : ℕ × TableLine × InStream :=
  let addr := s.extract addr
  let valid := addr.2.extractBool false
  let dirty := valid.2.extractBool false
  let tag := dirty.2.extract 0
  let data := tag.2.extract 0
  let ts := data.2.extract 0
  (addr.1, { valid := valid.1, dirty := dirty.1, tag := tag.1, data := data.1, ts := ts.1 }, ts.2)

/-- The loop over the lines, for a number of iterations. -/
def restoreLines (uninit : ℕ → ℕ) : ℕ → ℕ → InStream → (ℕ → TableLine) → ℕ → TableLine
  | 0, _, _, cache => cache
  | fuel + 1, addr, s, cache =>
    if s.good then
      let out := restoreLine (uninit addr) s
      restoreLines uninit fuel out.1 out.2.2 (update cache out.1 out.2.1)
    else cache

/-- `restoreCacheTable`, where `addr` is what the place of the variables holds at first. An
iteration reads a character or is the last one. -/
def restoreCacheTable (cfg : Config) (uninit : ℕ → ℕ) (addr : ℕ) (file : List Char) :
    Option (ℕ → TableLine) :=
  (checkHeader [cfg.pageSize, cfg.setSize, cfg.cachePages, cfg.totalPages] addr
    { rest := file }).map
      fun s => restoreLines uninit (file.length + 1) addr s fun a => ⟨HybridSystem.prefill cfg a, 0⟩

/-! ### Reading what was written -/

section Read

variable {gap rest : List Char} {sep : Char}

theorem isWhitespace_of_isDigit {c : Char} (h : c.isDigit = true) : c.isWhitespace = false := by
  by_contra hspace
  simp only [Char.isWhitespace, Bool.not_eq_false, Bool.or_eq_true, decide_eq_true_eq] at hspace
  rcases hspace with ((rfl | rfl) | rfl) | rfl <;> exact absurd h (by decide)

/-- A number is read back, and the character after it is left. -/
theorem extract_number (hgap : ∀ c ∈ gap, c.isWhitespace) (hsep : sep.isDigit = false)
    (n target : ℕ) : InStream.extract { rest := gap ++ (number n sep ++ rest) } target =
      (n, { rest := sep :: rest }) := by
  have hdigit : ∀ c ∈ Nat.toDigits 10 n, c.isDigit = true := fun c hc =>
    Nat.isDigit_of_mem_toDigits (by decide) (by decide) hc
  have hdrop : (gap ++ (number n sep ++ rest)).dropWhile Char.isWhitespace =
      number n sep ++ rest := by
    obtain ⟨c, cs, hcons⟩ := List.exists_cons_of_ne_nil (Nat.toDigits_ne_nil (n := n) (b := 10))
    have hc := isWhitespace_of_isDigit (hdigit c (hcons ▸ List.mem_cons_self))
    rw [List.dropWhile_append_of_pos hgap, number, hcons, List.cons_append, List.cons_append,
      List.dropWhile_cons_of_neg (by simp [hc])]
  have htake : (number n sep ++ rest).takeWhile Char.isDigit = Nat.toDigits 10 n := by
    rw [number, List.append_assoc, List.takeWhile_append_of_pos hdigit]
    simp [hsep]
  have hrest : (number n sep ++ rest).dropWhile Char.isDigit = sep :: rest := by
    rw [number, List.append_assoc, List.dropWhile_append_of_pos hdigit]
    simp [hsep]
  simp only [InStream.extract, InStream.good, hdrop, htake, hrest]
  simp [Nat.toDigits_ne_nil, Nat.ofDigitChars_toDigits]

theorem extract_space (hsep : sep.isDigit = false) (n target : ℕ) :
    InStream.extract { rest := ' ' :: (number n sep ++ rest) } target =
      (n, { rest := sep :: rest }) :=
  extract_number (List.forall_mem_singleton.mpr rfl) hsep n target

theorem extractBool_number (hgap : ∀ c ∈ gap, c.isWhitespace) (hsep : sep.isDigit = false)
    (b target : Bool) :
    InStream.extractBool { rest := gap ++ (number b.toNat sep ++ rest) } target =
      (b, { rest := sep :: rest }) := by
  rw [InStream.extractBool, extract_number hgap hsep]
  cases b <;> rfl

/-- At the end of a file nothing is read. -/
theorem extract_end (hgap : ∀ c ∈ gap, c.isWhitespace) (target : ℕ) :
    InStream.extract { rest := gap } target = (target, ⟨[], true, true⟩) := by
  have hdrop : gap.dropWhile Char.isWhitespace = [] := List.dropWhile_eq_nil_iff.mpr hgap
  simp [InStream.extract, InStream.good, hdrop]

/-- What is kept of a line. -/
def TableLine.kept (line : TableLine) : TableLine :=
  { valid := line.valid, dirty := line.dirty, tag := line.tag, data := line.data, ts := line.ts }

theorem restoreLine_save (hgap : ∀ c ∈ gap, c.isWhitespace) (target addr : ℕ) (line : TableLine) :
    restoreLine target { rest := gap ++ (line.save addr ++ rest) } =
      (addr, line.kept, { rest := '\n' :: rest }) := by
  have hbool : ∀ b target rest,
      InStream.extractBool { rest := ' ' :: (number (Bool.toNat b) ' ' ++ rest) } target =
        (b, { rest := ' ' :: rest }) := fun b target _ =>
    extractBool_number (List.forall_mem_singleton.mpr rfl) (by decide) b target
  simp only [TableLine.save, List.append_assoc, restoreLine]
  rw [extract_number hgap (by decide)]
  simp only [hbool, extract_space (show Char.isDigit ' ' = false by decide),
    extract_space (show Char.isDigit '\n' = false by decide)]
  rfl

theorem restoreLine_end (hgap : ∀ c ∈ gap, c.isWhitespace) (target : ℕ) :
    restoreLine target { rest := gap } = (target, {}, ⟨[], true, true⟩) := by
  simp only [restoreLine, extract_end hgap]
  rfl

end Read

/-! ### The restored table -/

variable {cfg : Config} {uninit : ℕ → ℕ}

/-- The loop reads the lines that were saved; its last iteration enters an empty line. -/
theorem restoreLines_save (table : ℕ → TableLine) {addrs : List ℕ} {fuel : ℕ}
    (hfuel : addrs.length + 2 ≤ fuel) (addr : ℕ) {gap : List Char}
    (hgap : ∀ c ∈ gap, c.isWhitespace) (cache : ℕ → TableLine) :
    restoreLines uninit fuel addr
        { rest := gap ++ addrs.flatMap fun a => (table a).save a } cache =
      update (fun a => if a ∈ addrs then (table a).kept else cache a)
        (uninit (addrs.getLast?.getD addr)) {} := by
  induction addrs generalizing fuel addr gap cache with
  | nil =>
    obtain ⟨fuel, rfl⟩ : ∃ k, fuel = k + 2 := Nat.exists_eq_add_of_le' hfuel
    have hgood : ∀ rest, InStream.good { rest := rest } = true := fun _ => rfl
    rw [List.flatMap_nil, List.append_nil, restoreLines, if_pos (hgood _), restoreLine_end hgap,
      restoreLines, if_neg (show ¬ InStream.good ⟨[], true, true⟩ = true by decide)]
    simp
  | cons a addrs ih =>
    obtain ⟨fuel, rfl⟩ : ∃ k, fuel = k + 1 := Nat.exists_eq_add_of_le' (by omega)
    have hstep : restoreLine (uninit addr)
        { rest := gap ++ (a :: addrs).flatMap fun a => (table a).save a } =
          (a, (table a).kept, { rest := ['\n'] ++ addrs.flatMap fun a => (table a).save a }) := by
      rw [List.flatMap_cons]
      exact restoreLine_save hgap _ _ _
    have hgood : ∀ rest, InStream.good { rest := rest } = true := fun _ => rfl
    rw [restoreLines, if_pos (hgood _), hstep,
      ih (by simpa using hfuel) a (List.forall_mem_singleton.mpr rfl), List.getLast?_cons,
      Option.getD_some]
    congr 1
    funext b
    by_cases hb : b = a
    · subst hb
      simp
    · simp [hb]

/-- The addresses of the lines that are saved. -/
def savedAddresses (cfg : Config) (table : ℕ → TableLine) : List ℕ :=
  ((List.range cfg.cachePages).map (· * cfg.pageSize)).filter fun addr => (table addr).valid

/-- **The file is read back.** The lines that were saved are restored, the others are those of a
new cache, and an empty line is entered at the address that the variable of the last iteration
holds. -/
theorem restoreCacheTable_saveCacheTable (table : ℕ → TableLine) (addr : ℕ) :
    restoreCacheTable cfg uninit addr (saveCacheTable cfg table) =
      some (update (fun a => if a ∈ savedAddresses cfg table then (table a).kept
          else ⟨HybridSystem.prefill cfg a, 0⟩)
        (uninit ((savedAddresses cfg table).getLast?.getD addr)) {}) := by
  have hheader : ∀ body : List Char, checkHeader
      [cfg.pageSize, cfg.setSize, cfg.cachePages, cfg.totalPages] addr
        { rest := number cfg.pageSize ' ' ++ number cfg.setSize ' ' ++ number cfg.cachePages ' ' ++
          number cfg.totalPages '\n' ++ body } = some { rest := ['\n'] ++ body } := by
    intro body
    simp only [List.append_assoc, checkHeader]
    rw [← List.nil_append (number cfg.pageSize ' ' ++ _), extract_number (by simp) (by decide)]
    simp only [extract_space (show Char.isDigit ' ' = false by decide),
      extract_space (show Char.isDigit '\n' = false by decide), if_true]
    rfl
  have hlength : (savedAddresses cfg table).length + 2 ≤
      (saveCacheTable cfg table).length + 1 := by
    have hline : ∀ a, 1 ≤ ((table a).save a).length := fun a => by
      simp only [TableLine.save, number, List.length_append, List.length_singleton]
      omega
    have hlines := List.length_le_sum_of_one_le
      ((savedAddresses cfg table).map fun a => ((table a).save a).length) (by simp [hline])
    rw [List.length_map] at hlines
    rw [saveCacheTable, List.length_append, List.length_flatMap, number, List.length_append,
      List.length_append]
    simp only [savedAddresses] at hlines ⊢
    simp
    omega
  rw [restoreCacheTable]
  conv_lhs => rw [saveCacheTable, hheader]
  rw [Option.map_some, Option.some.injEq]
  exact restoreLines_save table hlength addr (List.forall_mem_singleton.mpr rfl) _

theorem mem_savedAddresses {table : ℕ → TableLine} {i : ℕ} (hi : i < cfg.cachePages) :
    i * cfg.pageSize ∈ savedAddresses cfg table ↔ (table (i * cfg.pageSize)).valid = true := by
  rw [savedAddresses, List.mem_filter, and_iff_right]
  exact List.mem_map.mpr ⟨i, List.mem_range.mpr hi, rfl⟩

/-- **Saving and restoring.** The restored cache has the lines that were saved precisely if every
page of the cache is valid, and the address that the variable of the last iteration holds is not
that of a page of the cache (or the line there was empty before). -/
theorem restore_save_same_iff (table : ℕ → TableLine) (addr : ℕ) :
    ∃ restored, restoreCacheTable cfg uninit addr (saveCacheTable cfg table) = some restored ∧
      ((∀ i < cfg.cachePages,
          (restored (i * cfg.pageSize)).kept = (table (i * cfg.pageSize)).kept) ↔
        ∀ i < cfg.cachePages,
          if i * cfg.pageSize = uninit ((savedAddresses cfg table).getLast?.getD addr) then
            (table (i * cfg.pageSize)).kept = {}
          else (table (i * cfg.pageSize)).valid = true) := by
  refine ⟨_, restoreCacheTable_saveCacheTable table addr, forall₂_congr fun i hi => ?_⟩
  split_ifs with hlast
  · rw [hlast, update_self, eq_comm]
    rfl
  · rw [update_of_ne hlast]
    by_cases hvalid : (table (i * cfg.pageSize)).valid = true
    · rw [if_pos ((mem_savedAddresses hi).mpr hvalid)]
      exact iff_of_true rfl hvalid
    · rw [if_neg (mt (mem_savedAddresses hi).mp hvalid)]
      refine iff_of_false (fun heq => hvalid ?_) hvalid
      have hpage : (HybridSystem.prefill cfg (i * cfg.pageSize)).valid = true := by
        rw [HybridSystem.prefill, if_pos ⟨Nat.mul_mod_left _ _,
          by rwa [Nat.mul_div_cancel _ cfg.pageSize_pos]⟩]
      exact (congrArg (fun line : TableLine => line.valid) heq).symm.trans hpage

/-- **The last line is lost.** If the variable for the address keeps its place in memory, the last
line of a new cache is not valid after it was saved and restored. -/
theorem restore_loses_last : ∃ restored,
    restoreCacheTable HybridSystem.smallCache id 0 (saveCacheTable HybridSystem.smallCache
        fun a => ⟨HybridSystem.prefill HybridSystem.smallCache a, 0⟩) = some restored ∧
      (HybridSystem.prefill HybridSystem.smallCache 640).valid = true ∧
      (restored 640).valid = false := by
  refine ⟨_, restoreCacheTable_saveCacheTable _ _, by decide, ?_⟩
  decide

end HybridMemory.HybridSim

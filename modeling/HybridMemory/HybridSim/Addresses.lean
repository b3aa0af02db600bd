import Mathlib.Data.Finset.Basic
import Mathlib.Data.Finset.Dedup
import Mathlib.Data.List.Range
import Mathlib.Tactic.Ring

/-!
# Addresses of the hybrid memory

The flash memory is the address space; the DRAM is a set associative cache of its pages. The
macros of `config.h` cut an address into page, set and tag, and put the lines of a set, which
lie `NUM_SETS` pages apart, into the DRAM.

* `setIndex_flashAddress`, `flashAddress_inj`, `flashAddress_tag`: tag and set determine a page,
  and a page its tag and set;
* `mem_setAddresses_iff`, `setIndex_of_mem`: the lines of a set.

A line is one that is in a set. If `SET_SIZE` does not divide `CACHE_PAGES`, the last pages of
the DRAM are in no set.
-/

namespace HybridMemory.HybridSim

/-- The settings of the ini file that the cache controller reads. -/
structure Config where
  pageSize : ℕ
  burstSize : ℕ
  flashBurstSize : ℕ
  setSize : ℕ
  cachePages : ℕ
  totalPages : ℕ
  controllerDelay : ℕ := 2
  pageSize_pos : 0 < pageSize := by decide
  setSize_pos : 0 < setSize := by decide
  totalPages_pos : 0 < totalPages := by decide
  burstSize_dvd : burstSize ∣ pageSize := by decide
  flashBurstSize_dvd : flashBurstSize ∣ pageSize := by decide
  /-- The constructor asserts this. -/
  setSize_le : setSize ≤ cachePages := by decide

namespace Config

variable (cfg : Config)

/-- `NUM_SETS` -/
def numSets : ℕ := cfg.cachePages / cfg.setSize

/-- `PAGE_ADDRESS`, the start of the page of an address. -/
def pageAddress (a : ℕ) : ℕ := a / cfg.pageSize * cfg.pageSize

/-- `PAGE_OFFSET` -/
def pageOffset (a : ℕ) : ℕ := a % cfg.pageSize

/-- `SET_INDEX`, the set that the page of an address belongs to. -/
def setIndex (a : ℕ) : ℕ := a / cfg.pageSize % cfg.numSets

/-- `TAG`, which tells apart the pages of a set. -/
def tag (a : ℕ) : ℕ := a / cfg.pageSize / cfg.numSets

/-- `FLASH_ADDRESS`, the page with a tag in a set. -/
def flashAddress (tag set : ℕ) : ℕ := (tag * cfg.numSets + set) * cfg.pageSize

/-- `ALIGN`: rounded down to a burst, and taken modulo the size of the memory. -/
def align (a : ℕ) : ℕ := a / cfg.burstSize * cfg.burstSize % (cfg.totalPages * cfg.pageSize)

/-- The DRAM addresses of the lines of a set, `set_address_list`. -/
def setAddresses (set : ℕ) : List ℕ :=
  (List.range cfg.setSize).map fun i => (i * cfg.numSets + set) * cfg.pageSize

/-- The addresses of the transactions that move a page, for transactions of the given size. -/
def bursts (size base : ℕ) : List ℕ :=
  (List.range (cfg.pageSize / size)).map fun i => base + i * size

/-- The address is that of a line. -/
def IsLine (line : ℕ) : Prop := line ∈ cfg.setAddresses (cfg.setIndex line)

variable {cfg} {a set line tag : ℕ}

/-- There is a set, since one fits into the cache. -/
theorem numSets_pos (cfg : Config) : 0 < cfg.numSets :=
  Nat.div_pos cfg.setSize_le cfg.setSize_pos

theorem setIndex_lt (cfg : Config) (a : ℕ) : cfg.setIndex a < cfg.numSets :=
  Nat.mod_lt _ cfg.numSets_pos

/-! ### Pages -/

/-- A page has the addresses from its start on. -/
theorem pageAddress_mul_add {k r : ℕ} (hr : r < cfg.pageSize) :
    cfg.pageAddress (k * cfg.pageSize + r) = k * cfg.pageSize := by
  rw [pageAddress, Nat.mul_comm k, Nat.mul_add_div cfg.pageSize_pos, Nat.div_eq_of_lt hr,
    Nat.add_zero, Nat.mul_comm]

@[simp] theorem pageAddress_mul (k : ℕ) : cfg.pageAddress (k * cfg.pageSize) = k * cfg.pageSize :=
  pageAddress_mul_add (r := 0) cfg.pageSize_pos

@[simp] theorem pageAddress_pageAddress : cfg.pageAddress (cfg.pageAddress a) = cfg.pageAddress a :=
  pageAddress_mul _

@[simp] theorem setIndex_pageAddress : cfg.setIndex (cfg.pageAddress a) = cfg.setIndex a := by
  rw [setIndex, pageAddress, Nat.mul_div_cancel _ cfg.pageSize_pos, setIndex]

/-- The page of an address, from its tag and set. -/
@[simp] theorem flashAddress_tag : cfg.flashAddress (cfg.tag a) (cfg.setIndex a) =
    cfg.pageAddress a := by
  rw [flashAddress, Config.tag, setIndex, Nat.div_add_mod', pageAddress]

/-- A flash address gives back its set, -/
theorem setIndex_flashAddress (hset : set < cfg.numSets) :
    cfg.setIndex (cfg.flashAddress tag set) = set := by
  rw [setIndex, flashAddress, Nat.mul_div_cancel _ cfg.pageSize_pos, Nat.mul_add_mod',
    Nat.mod_eq_of_lt hset]

/-- and its tag. -/
theorem tag_flashAddress (hset : set < cfg.numSets) :
    cfg.tag (cfg.flashAddress tag set) = tag := by
  rw [Config.tag, flashAddress, Nat.mul_div_cancel _ cfg.pageSize_pos, Nat.mul_comm,
    Nat.mul_add_div cfg.numSets_pos, Nat.div_eq_of_lt hset, Nat.add_zero]

/-- In a set, the tag determines the page. -/
theorem flashAddress_inj {tag' : ℕ} (hset : set < cfg.numSets) :
    cfg.flashAddress tag set = cfg.flashAddress tag' set ↔ tag = tag' := by
  refine ⟨fun h => ?_, fun h => by rw [h]⟩
  calc tag = cfg.tag (cfg.flashAddress tag set) := (tag_flashAddress hset).symm
    _ = tag' := by rw [h, tag_flashAddress hset]

/-- A tag is that of an address of the set if it gives the address's page. -/
theorem tag_eq_iff : tag = cfg.tag a ↔
    cfg.flashAddress tag (cfg.setIndex a) = cfg.pageAddress a := by
  rw [← flashAddress_tag, flashAddress_inj (cfg.setIndex_lt a)]

/-! ### Lines -/

theorem mem_setAddresses_iff : line ∈ cfg.setAddresses set ↔
    ∃ i < cfg.setSize, (i * cfg.numSets + set) * cfg.pageSize = line := by
  simp [setAddresses]

/-- The lines of a set are in it. -/
theorem setIndex_of_mem (hset : set < cfg.numSets) (h : line ∈ cfg.setAddresses set) :
    cfg.setIndex line = set := by
  obtain ⟨i, -, rfl⟩ := mem_setAddresses_iff.mp h
  exact setIndex_flashAddress hset

theorem isLine_of_mem (hset : set < cfg.numSets) (h : line ∈ cfg.setAddresses set) :
    cfg.IsLine line := by
  rwa [IsLine, setIndex_of_mem hset h]

/-- The lines of a set are distinct. -/
theorem nodup_setAddresses (cfg : Config) (set : ℕ) : (cfg.setAddresses set).Nodup := by
  refine List.Nodup.map (fun i j h => ?_) List.nodup_range
  have h := Nat.eq_of_mul_eq_mul_right cfg.pageSize_pos h
  exact Nat.eq_of_mul_eq_mul_right cfg.numSets_pos (Nat.add_right_cancel h)

theorem length_setAddresses (cfg : Config) (set : ℕ) :
    (cfg.setAddresses set).length = cfg.setSize := by
  simp [setAddresses]

end Config

/-- Three sets of two lines, for twelve pages of two bursts, and no delay. -/
def HybridSystem.smallCache : Config where
  pageSize := 128
  burstSize := 64
  flashBurstSize := 64
  setSize := 2
  cachePages := 6
  totalPages := 12
  controllerDelay := 0
  setSize_pos := Nat.two_pos

end HybridMemory.HybridSim

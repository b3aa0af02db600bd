import HybridMemory.Lib.Transition
import HybridMemory.NVMain.CacheAssoc

/-!
# The DRAM cache in front of the main memory

`RBLA_DRAMCache` serves requests from a set associative cache. A miss reads the line from the
main memory; when the read completes, a fill is scheduled, and the fill puts the line into
the cache and writes the line back that has to leave. Several misses may be under way, so
requests, completions and fills interleave in any order, which is what a run is.

* `uniqueTags_of_run`: no set holds two valid blocks with one tag, as long as no line is
  filled that is there already, and no read or write is made on a block outside set 0;
* `write_back_iff`: a fill writes its victim back exactly if the victim is valid, so that
  the rule to write back what was written, and nothing else, is met exactly if no line that
  was only read has to leave.
-/

namespace HybridMemory.NVMain

open Transition Function

/-- The types of requests. -/
inductive OpType
  | read
  | readPrecharge
  | write
  | writePrecharge
  | other
  deriving DecidableEq

namespace OpType

def isRead : OpType → Bool
  | read | readPrecharge => true
  | _ => false

def isWrite : OpType → Bool
  | write | writePrecharge => true
  | _ => false

end OpType

/-- A request to the cache. -/
structure NVMainRequest (D : Type) where
  address : UInt64
  type : OpType
  /-- The tag of the request is `MIGRATION`. -/
  migration : Bool
  data : D

/-- The tags of the reads that the cache sends to the main memory. -/
inductive FetchTag
  | memfetch
  | migrationMemfetch
  deriving DecidableEq

/-- An entry of `outstanding_memfetch`: a read, named by its object, and the request it was
made for. -/
structure MemFetch (D : Type) where
  id : ℕ
  tag : FetchTag
  original : NVMainRequest D

/-- A scheduled request with the tag `DRC_FILL_CACHE`. -/
structure Fill (D : Type) where
  address : UInt64
  data : D
  /-- The line was fetched for a write. -/
  forWrite : Bool

/-- What the cache sends to the main memory. -/
inductive MemoryRequest (D : Type)
  | fetch (id : ℕ) (address : UInt64)
  | writeBack (address : UInt64) (data : D)
  | forward (req : NVMainRequest D)

/-- The data members of `RBLA_DRAMCache`, and what it sends out. The last field records
history: the lines, by set and tag, that were written since they were filled. -/
structure RBLADRAMCache (D : Type) where
  writeAllocate : Bool
  dramCache : CacheImpl D
  outstandingMemfetch : List (MemFetch D)
  /-- The fills that are scheduled. -/
  fills : List (Fill D)
  allocated : ℕ
  /-- The requests to the main memory, the last one first. -/
  mainMemory : List (MemoryRequest D)
  /-- The requests that were completed, the last one first. -/
  completed : List (NVMainRequest D)
  written : UInt64 × UInt64 → Bool

namespace RBLADRAMCache

variable {D : Type}

/-- A new cache. -/
def init (c : CacheConfig) (writeAllocate : Bool) (empty : D) : RBLADRAMCache D :=
  ⟨writeAllocate, CacheImpl.init c empty, [], [], 0, [], [], fun _ => false⟩

variable (m : RBLADRAMCache D)

/-- The line of an address: its set and its tag. -/
def line (pa : UInt64) : UInt64 × UInt64 :=
  (m.dramCache.config.getIndex pa, m.dramCache.config.getTag pa)

def complete (req : NVMainRequest D) : RBLADRAMCache D :=
  { m with completed := req :: m.completed }

/-- `IssueToOtherModule` on a hit: the request is completed; the cache is not touched. -/
def hit (req : NVMainRequest D) : RBLADRAMCache D :=
  if req.type.isWrite then
    { m.complete req with written := update m.written (m.line req.address) true }
  else if req.type.isRead then m.complete req
  else m

/-- `IssueToOtherModule` on a miss: the line is fetched from the main memory. -/
def miss (req : NVMainRequest D) : RBLADRAMCache D :=
  if m.writeAllocate || req.type.isRead then
    let tag := if req.migration then .migrationMemfetch else .memfetch
    { m with
      allocated := m.allocated + 1
      mainMemory := .fetch m.allocated req.address :: m.mainMemory
      outstandingMemfetch := ⟨m.allocated, tag, req⟩ :: m.outstandingMemfetch }
  else if req.type.isWrite then { m with mainMemory := .forward req :: m.mainMemory }
  else m

def issueToOtherModule (req : NVMainRequest D) : RBLADRAMCache D :=
  match m.dramCache.findBlock req.address with
  | some _ => m.hit req
  | none => m.miss req

/-- `MemFetch`: a completed read becomes a fill. -/
def memFetch (f : MemFetch D) (data : D) : RBLADRAMCache D :=
  { m with fills := m.fills ++ [⟨f.original.address, data, f.original.type.isWrite⟩] }

/-- The write or read that a fetch was made for, if its line is in the cache. -/
def access (req : NVMainRequest D) : RBLADRAMCache D × NVMainRequest D :=
  match m.dramCache.findBlock req.address with
  | none => (m, req)
  | some blk =>
    if m.writeAllocate && req.type.isWrite then
      ({ m with
        dramCache := m.dramCache.write blk req.data
        written := update m.written (m.line req.address) true }, req)
    else if req.type.isRead then
      let (data, cache) := m.dramCache.read blk
      ({ m with dramCache := cache }, { req with data := data })
    else (m, req)

/-- `RequestComplete` for a read from the main memory. -/
def memFetchComplete (f : MemFetch D) (data : D) : RBLADRAMCache D :=
  let m := m.memFetch f data
  let m := { m with
    outstandingMemfetch := m.outstandingMemfetch.filter fun f' => f'.id ≠ f.id }
  match f.tag with
  | .memfetch =>
    let (m, req) := m.access f.original
    m.complete req
  | .migrationMemfetch => m.complete f.original

/-- `FillCache`, with the write-back it sends to the main memory. -/
def fillCache (f : Fill D) : Option (RBLADRAMCache D × Option (MemoryRequest D)) :=
  (m.dramCache.findVictim f.address).map fun victimBlk =>
    let setId := m.dramCache.config.getIndex f.address
    let victim := m.dramCache.blks victimBlk
    let writeBack :=
      if victim.isValid && m.dramCache.evict victimBlk then
        some (.writeBack (m.dramCache.config.getPA victim.tag setId) victim.data)
      else none
    let cache := m.dramCache.invalidate victimBlk
    ({ m with
      dramCache := cache.install f.address victimBlk f.data
      mainMemory := writeBack.toList ++ m.mainMemory
      written := update m.written (m.line f.address) f.forWrite }, writeBack)

/-- `IssueAtomic`: in fast-forward mode a miss installs its line at once. -/
def issueAtomic (req : NVMainRequest D) : Option (RBLADRAMCache D) :=
  match m.dramCache.findBlock req.address with
  | some _ => some { m with
      written := if req.type.isWrite then update m.written (m.line req.address) true
        else m.written }
  | none => (m.dramCache.findVictim req.address).map fun blk =>
    { m with
      dramCache := m.dramCache.install req.address blk req.data
      written := update m.written (m.line req.address) req.type.isWrite }

/-! ### Runs -/

/-- What can happen: a request comes in, a read from the main memory completes with the data
it got, a fill is processed, or a request comes in fast-forward mode. -/
inductive Action (D : Type)
  | request (req : NVMainRequest D)
  | memFetchComplete (id : ℕ) (data : D)
  | fill (n : ℕ)
  | atomic (req : NVMainRequest D)

/-- The read under way with an identity. -/
def findFetch (id : ℕ) : Option (MemFetch D) := m.outstandingMemfetch.find? fun f => f.id = id

/-- One action. `none` means that it cannot happen: there is no such read or fill, the cache
has no blocks, or the type of a request is unknown. -/
def step (m : RBLADRAMCache D) : Action D → Option (RBLADRAMCache D)
  | .request req =>
    if req.type ≠ .other ∨ req.migration then some (m.issueToOtherModule req) else none
  | .memFetchComplete id data => (m.findFetch id).map fun f => m.memFetchComplete f data
  | .fill n => (m.fills[n]?).bind fun f =>
    ({ m with fills := m.fills.eraseIdx n }.fillCache f).map Prod.fst
  | .atomic req => m.issueAtomic req

/-! ### Unique tags -/

variable {m} {m' : RBLADRAMCache D}

/-- The condition on a step: a fetch that was made for a read or write does not find its
line in the cache, unless in set 0, and a line that is filled is not in the cache, unless in
the block that is replaced. -/
def Meets (m : RBLADRAMCache D) : Action D → Prop
  | .request _ | .atomic _ => True
  | .memFetchComplete id _ => ∀ f ∈ m.findFetch id, f.tag = .memfetch →
    m.dramCache.findBlock f.original.address = none ∨
      m.dramCache.config.getIndex f.original.address = 0
  | .fill n => ∀ f ∈ m.fills[n]?, ∀ p ∈ m.dramCache.findBlock f.address,
    m.dramCache.findVictim f.address = some p

instance (m : RBLADRAMCache D) (a : Action D) : Decidable (m.Meets a) := by
  cases a <;> unfold Meets <;> infer_instance

theorem dramCache_issueToOtherModule (req : NVMainRequest D) :
    (m.issueToOtherModule req).dramCache = m.dramCache := by
  unfold issueToOtherModule
  split
  · unfold hit
    split_ifs <;> rfl
  · unfold miss
    split_ifs <;> rfl

theorem ordered_access (h : m.dramCache.Ordered) {req : NVMainRequest D}
    (hreq : m.dramCache.findBlock req.address = none ∨
      m.dramCache.config.getIndex req.address = 0) : (m.access req).1.dramCache.Ordered := by
  unfold access
  split
  · exact h
  · rename_i blk hblk
    have hmem : blk ∈ m.dramCache.sets 0 := by
      rcases hreq with hnone | hzero
      · rw [hblk] at hnone
        cases hnone
      · exact hzero ▸ (CacheImpl.findBlock_eq_some hblk).1
    split_ifs
    · exact h.write hmem req.data
    · exact h.moveToHead hmem
    · exact h

theorem ordered_fillCache (h : m.dramCache.Ordered) {f : Fill D}
    (hf : ∀ p ∈ m.dramCache.findBlock f.address, m.dramCache.findVictim f.address = some p)
    {wb : Option (MemoryRequest D)} (hfill : m.fillCache f = some (m', wb)) :
    m'.dramCache.Ordered := by
  obtain ⟨v, hv, heq⟩ := Option.map_eq_some_iff.mp hfill
  obtain ⟨rfl, -⟩ := Prod.mk.inj heq
  have hmem : v ∈ m.dramCache.sets _ := CacheImpl.mem_of_findVictim hv
  refine (h.invalidate v).install hmem (fun q hq hvalid htag => ?_) _
  -- the victim is invalid by now, and no other block holds the line
  rw [CacheImpl.isValid_invalidate, Bool.and_eq_true, decide_eq_true_eq] at hvalid
  obtain ⟨hqv, hvalid⟩ := hvalid
  have htag : (m.dramCache.blks q).tag = m.dramCache.config.getTag f.address := by
    simpa only [CacheImpl.invalidate, update_of_ne hqv] using htag
  cases hfind : m.dramCache.findBlock f.address with
  | none => exact absurd htag (CacheImpl.findBlock_eq_none hfind hq hvalid)
  | some p =>
    have hpv : p = v := Option.some.inj ((hf p hfind).symm.trans hv)
    exact absurd ((h.2.eq_of_findBlock hfind hq hvalid htag).trans hpv) hqv

theorem ordered_issueAtomic (h : m.dramCache.Ordered) {req : NVMainRequest D}
    (hstep : m.issueAtomic req = some m') : m'.dramCache.Ordered := by
  unfold issueAtomic at hstep
  split at hstep
  · exact Option.some.inj hstep ▸ h
  · rename_i hnone
    obtain ⟨v, hv, rfl⟩ := Option.map_eq_some_iff.mp hstep
    refine h.install (CacheImpl.mem_of_findVictim hv) (fun q hq hvalid htag => ?_) _
    exact absurd htag (CacheImpl.findBlock_eq_none hnone hq hvalid)

/-- **The step lemma.** -/
theorem ordered_step (h : m.dramCache.Ordered) {a : Action D} (ha : m.Meets a)
    (hstep : m.step a = some m') : m'.dramCache.Ordered := by
  cases a with
  | request req =>
    obtain ⟨-, heq⟩ := Option.ite_none_right_eq_some.mp hstep
    rw [← Option.some.inj heq, dramCache_issueToOtherModule]
    exact h
  | memFetchComplete id data =>
    obtain ⟨f, hf, rfl⟩ := Option.map_eq_some_iff.mp hstep
    simp only [RBLADRAMCache.memFetchComplete]
    generalize hu : ({ m.memFetch f data with outstandingMemfetch := _ } : RBLADRAMCache D) = u
    have hcache : u.dramCache = m.dramCache := by rw [← hu]; rfl
    cases htag : f.tag with
    | memfetch =>
      refine ordered_access (m := u) (hcache ▸ h) ?_
      rw [hcache]
      exact ha f hf htag
    | migrationMemfetch => exact hcache ▸ h
  | fill n =>
    obtain ⟨f, hf, hfill⟩ := Option.bind_eq_some_iff.mp hstep
    obtain ⟨⟨m₁, wb⟩, hm₁, rfl⟩ := Option.map_eq_some_iff.mp hfill
    exact ordered_fillCache (m := { m with fills := m.fills.eraseIdx n }) h (ha f hf) hm₁
  | atomic req => exact ordered_issueAtomic h hstep

/-- A step keeps the sizes of the sets. -/
theorem length_sets_step {a : Action D} (hstep : m.step a = some m') (i : UInt64) :
    (m'.dramCache.sets i).length = (m.dramCache.sets i).length := by
  cases a with
  | request req =>
    obtain ⟨-, heq⟩ := Option.ite_none_right_eq_some.mp hstep
    rw [← Option.some.inj heq, dramCache_issueToOtherModule]
  | memFetchComplete id data =>
    obtain ⟨f, hf, rfl⟩ := Option.map_eq_some_iff.mp hstep
    unfold RBLADRAMCache.memFetchComplete access
    cases f.tag with
    | migrationMemfetch => rfl
    | memfetch =>
      dsimp only
      split
      · rfl
      · split_ifs
        · exact CacheImpl.length_write _ _ i
        · exact CacheImpl.length_moveToHead 0 i _
        · rfl
  | fill n =>
    obtain ⟨f, hf, hfill⟩ := Option.bind_eq_some_iff.mp hstep
    obtain ⟨⟨m₁, wb⟩, hm₁, rfl⟩ := Option.map_eq_some_iff.mp hfill
    obtain ⟨v, hv, heq⟩ := Option.map_eq_some_iff.mp hm₁
    obtain ⟨rfl, -⟩ := Prod.mk.inj heq
    rfl
  | atomic req =>
    simp only [step, issueAtomic] at hstep
    split at hstep
    · exact Option.some.inj hstep ▸ rfl
    · obtain ⟨v, hv, rfl⟩ := Option.map_eq_some_iff.mp hstep
      rfl

/-- **Unique tags.** In every run of a direct mapped cache, and in every run of any cache
whose steps meet the condition, no set of the cache holds two valid blocks with one tag, in
any state the run reaches. -/
theorem uniqueTags_of_run (c : CacheConfig) (writeAllocate : Bool) (empty : D)
    (as : List (Action D)) (m : RBLADRAMCache D)
    (h : Run (Guarded (fun u a => c.assoc ≤ 1 ∨ u.Meets a) (Steps step))
      (init c writeAllocate empty) as m) :
    m.dramCache.UniqueTags := by
  by_cases hassoc : c.assoc ≤ 1
  · -- one block a set
    have hlen : ∀ i, (m.dramCache.sets i).length ≤ 1 := by
      refine h.invariant (P := fun u : RBLADRAMCache D => ∀ i, (u.dramCache.sets i).length ≤ 1)
        (fun i => ?_) fun u a u' hu hstep i => ?_
      · exact (List.length_range' ..).trans_le hassoc
      · exact (length_sets_step hstep.2 i).trans_le (hu i)
    exact CacheImpl.uniqueTags_of_length_le hlen
  · have hordered : m.dramCache.Ordered := by
      refine h.invariant (P := fun u : RBLADRAMCache D => u.dramCache.Ordered) ?_ ?_
      · exact ⟨CacheImpl.ownBlocks_init c empty, CacheImpl.uniqueTags_init c empty⟩
      · intro u a u' hu hstep
        exact ordered_step hu (hstep.1.resolve_left hassoc) hstep.2
    exact hordered.2

/-- Two sets of two blocks, with lines of four bytes. -/
def exampleCache : CacheConfig := ⟨2, 2, 4⟩

/-- A read of an address. -/
def readRequest (address : UInt64) : NVMainRequest Unit := ⟨address, .read, false, ()⟩

/-- One miss at a time. -/
theorem uniqueTags_of_run_reads : ∃ m : RBLADRAMCache Unit,
      Run (Guarded (fun u a => exampleCache.assoc ≤ 1 ∨ u.Meets a) (Steps step))
        (init exampleCache true ()) [.request (readRequest 0), .memFetchComplete 0 (), .fill 0,
          .request (readRequest 8), .memFetchComplete 1 (), .fill 0] m ∧
      m.dramCache.UniqueTags :=
  exists_run_guarded_imp (fun _ => True) (by decide +kernel) fun m hm _ =>
    uniqueTags_of_run exampleCache true () _ m hm

/-- **One line in two blocks.** Two reads of one line miss before the line is filled; each of
them fetches the line, and each fill takes a block of its own. -/
theorem uniqueTags_fails : ∃ m : RBLADRAMCache Unit, Run (Steps step) (init exampleCache true ())
      [.request (readRequest 0), .request (readRequest 0), .memFetchComplete 0 (),
        .memFetchComplete 1 (), .fill 0, .fill 0] m ∧ ¬ m.dramCache.UniqueTags := by
  refine exists_run_imp (fun m => 0 ∈ m.dramCache.sets 0 ∧ 1 ∈ m.dramCache.sets 0 ∧
    (m.dramCache.blks 0).isValid = true ∧ (m.dramCache.blks 1).isValid = true ∧
    (m.dramCache.blks 0).tag = (m.dramCache.blks 1).tag) (by decide +kernel) fun m _ hs huniq => ?_
  obtain ⟨h0, h1, hv0, hv1, htag⟩ := hs
  exact huniq 0 0 h0 1 h1 (by decide) hv0 hv1 htag

/-! ### Write-backs -/

/-- A write-back was sent to the main memory. -/
def WritesBack (m m' : RBLADRAMCache D) : Prop :=
  ∃ address data, m'.mainMemory = .writeBack address data :: m.mainMemory

/-- The block holds a line that was written after it was filled. -/
def LineWritten (m : RBLADRAMCache D) (f : Fill D) (v : ℕ) : Prop :=
  (m.dramCache.blks v).isValid ∧
    m.written (m.dramCache.config.getIndex f.address, (m.dramCache.blks v).tag) = true

/-- The rule for write-backs: the victim of a fill is written back if it holds a line that
was written, and only then. -/
def WriteBackRule (m : RBLADRAMCache D) : Action D → RBLADRAMCache D → Prop
  | .fill n, m' => ∀ f ∈ m.fills[n]?, ∀ v ∈ m.dramCache.findVictim f.address,
    (m.WritesBack m' ↔ m.LineWritten f v)
  | _, _ => True

/-- The victim of a fill is invalid or holds a line that was written. -/
def EvictsWritten (m : RBLADRAMCache D) : Action D → Prop
  | .fill n => ∀ f ∈ m.fills[n]?, ∀ v ∈ m.dramCache.findVictim f.address,
    (m.dramCache.blks v).isValid → m.LineWritten f v
  | _ => True

/-- A fill writes back every valid victim, since every valid block counts as dirty. -/
theorem writesBack_iff_isValid {n : ℕ} {f : Fill D} {v : ℕ} (hstep : m.step (.fill n) = some m')
    (hf : m.fills[n]? = some f) (hv : m.dramCache.findVictim f.address = some v) :
    m.WritesBack m' ↔ (m.dramCache.blks v).isValid := by
  simp only [step, hf, Option.bind_some, fillCache, hv, Option.map_some, Option.some.injEq] at hstep
  subst hstep
  cases hvalid : (m.dramCache.blks v).isValid with
  | true =>
    have hdirty : m.dramCache.evict v = true := CacheBlock.isDirty_of_isValid _ hvalid
    simp [WritesBack, hdirty]
  | false => simp [WritesBack]

theorem writeBackRule_iff {a : Action D} (hstep : m.step a = some m') :
    m.WriteBackRule a m' ↔ m.EvictsWritten a := by
  cases a with
  | request | memFetchComplete | atomic => exact Iff.rfl
  | fill n =>
    refine forall₂_congr fun f hf => forall₂_congr fun v hv => ?_
    rw [writesBack_iff_isValid hstep hf hv]
    exact ⟨Iff.mp, fun h => ⟨h, And.left⟩⟩

/-- **Write-backs.** The runs of the cache in which all fills write back what was written,
and nothing else, are exactly those in which no fill evicts a line that was only read. -/
theorem write_back_iff (c : CacheConfig) (writeAllocate : Bool) (empty : D)
    (as : List (Action D)) (m : RBLADRAMCache D) :
    Run (fun u a u' => u.step a = some u' ∧ u.WriteBackRule a u')
        (init c writeAllocate empty) as m ↔
      Run (Guarded EvictsWritten (Steps step)) (init c writeAllocate empty) as m := by
  constructor
  · intro h
    exact h.mono fun u a u' hu => ⟨(writeBackRule_iff hu.1).mp hu.2, hu.1⟩
  · intro h
    exact h.mono fun u a u' hu => ⟨hu.2, (writeBackRule_iff hu.2).mpr hu.1⟩

/-- **A clean line is written back.** A line is read, and then a second line that takes its
block: the fill of the second line writes the first one back. -/
theorem writes_back_clean : ∃ m m' : RBLADRAMCache Unit, Run (Steps step) (init ⟨1, 2, 4⟩ true ())
      [.request (readRequest 0), .memFetchComplete 0 (), .fill 0, .request (readRequest 8),
        .memFetchComplete 1 ()] m ∧
      m.step (.fill 0) = some m' ∧ m.WritesBack m' ∧
      m.dramCache.findVictim 8 = m.dramCache.findBlock 0 ∧ m.written (m.line 0) = false := by
  obtain ⟨m, hm, hres⟩ := exists_run_of_any step (init ⟨1, 2, 4⟩ true ())
    [.request (readRequest 0), .memFetchComplete 0 (), .fill 0, .request (readRequest 8),
      .memFetchComplete 1 ()]
    (fun m => m.dramCache.findVictim 8 = some 0 ∧ m.dramCache.findBlock 0 = some 0 ∧
      (m.dramCache.blks 0).isValid = true ∧ m.written (m.line 0) = false ∧
      (m.fills[0]?).map Fill.address = some 8 ∧ (m.step (.fill 0)).isSome = true)
    (by decide +kernel)
  obtain ⟨hvictim, hfind, hvalid, hclean, hfill, hsome⟩ := of_decide_eq_true hres
  obtain ⟨m', hm'⟩ := Option.isSome_iff_exists.mp hsome
  obtain ⟨f, hf, haddr⟩ := Option.map_eq_some_iff.mp hfill
  refine ⟨m, m', hm, hm', ?_, hvictim.trans hfind.symm, hclean⟩
  exact (writesBack_iff_isValid hm' hf (haddr ▸ hvictim)).mpr hvalid

end RBLADRAMCache

end HybridMemory.NVMain

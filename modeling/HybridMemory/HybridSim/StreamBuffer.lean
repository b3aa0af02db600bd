import HybridMemory.HybridSim.Addresses

/-!
# Stream buffers

On a hit or a miss of a read or a write the cache controller calls a handler that may ask for
prefetches. `Prefetcher` is what the controller sees of it, and `streamBuffer` the handler of
the source: a miss of the page after one that missed a short time ago starts a stream, and
hits on the page a stream expects keep it going.

What `HybridSystem` guarantees does not depend on the prefetcher, and is proved for all of them.
-/

namespace HybridMemory.HybridSim

/-- The handlers for hits and misses of a page at a clock cycle: the new state, and the addresses
of the prefetches in the order in which they are added. -/
structure Prefetcher (σ : Type) where
  hit : ℕ → ℕ → σ → σ × List ℕ
  miss : ℕ → ℕ → σ → σ × List ℕ

/-- The tables of the stream buffers: pages that missed once, and for each stream the page it
expects next, both with the cycle. The order of `streamBuffers` is the order of iteration. -/
structure StreamBuffers where
  oneMissTable : List (ℕ × ℕ) := []
  streamBuffers : List (ℕ × ℕ) := []

namespace StreamBuffers

def oneMissTableSize : ℕ := 10

def numStreamBuffers : ℕ := 10

def streamBufferLength : ℕ := 4

/-- The loop over the table of single misses: what is left of it, and whether the prior page is
found. After the entry of the missed page is erased the iterator moves once more, and passes
over the next entry; behind the last entry the scan ends. -/
def scanOneMiss (miss prior : ℕ) : List (ℕ × ℕ) → List (ℕ × ℕ) × Bool
  | [] => ([], false)
  | [e] => if e.1 = miss then ([], false) else if e.1 = prior then ([], true) else ([e], false)
  | e :: next :: rest =>
    if e.1 = miss then
      let out := scanOneMiss miss prior rest
      (next :: out.1, out.2)
    else if e.1 = prior then (next :: rest, true)
    else
      let out := scanOneMiss miss prior (next :: rest)
      (e :: out.1, out.2)

/-- The stream buffer for a page, with the cycle. -/
def allocate (page cycle : ℕ) (buffers : List (ℕ × ℕ)) : List (ℕ × ℕ) :=
  buffers.filter (fun b => b.1 ≠ page) ++ [(page, cycle)]

/-- Evict the stream buffer with the oldest cycle. -/
def evictOldest (cycle : ℕ) (buffers : List (ℕ × ℕ)) : List (ℕ × ℕ) :=
  let oldest := buffers.foldl (fun best b => if b.2 < best.2 then b else best) (0, cycle)
  buffers.filter fun b => b.1 ≠ oldest.1

def missHandler (cfg : Config) (cycle missPage : ℕ) (s : StreamBuffers) :
    StreamBuffers × List ℕ :=
  if missPage = 0 ∨ missPage = (cfg.totalPages - 1) * cfg.pageSize then (s, [])
  else
    let (table, detected) := scanOneMiss missPage (missPage - cfg.pageSize) s.oneMissTable
    let buffers := allocate (missPage + cfg.pageSize) cycle s.streamBuffers
    let (table, buffers, prefetches) :=
      if detected then
        (table,
          if numStreamBuffers < buffers.length then evictOldest cycle buffers else buffers,
          ((List.range streamBufferLength).reverse.map
            fun i => missPage + (i + 1) * cfg.pageSize).filter
              (· < cfg.totalPages * cfg.pageSize))
      else (table ++ [(missPage, cycle)], s.streamBuffers, [])
    (⟨if oneMissTableSize < table.length then table.drop 1 else table, buffers⟩, prefetches)

def hitHandler (cfg : Config) (cycle hitPage : ℕ) (s : StreamBuffers) : StreamBuffers × List ℕ :=
  if s.streamBuffers.any (·.1 = hitPage) then
    let buffers := s.streamBuffers.filter (·.1 ≠ hitPage)
    let prefetchAddress := hitPage + streamBufferLength * cfg.pageSize
    if prefetchAddress < cfg.totalPages * cfg.pageSize then
      ({ s with streamBuffers := allocate (hitPage + cfg.pageSize) cycle buffers },
        [prefetchAddress])
    else ({ s with streamBuffers := buffers }, [])
  else (s, [])

/-! ### The table of single misses -/

section OneMissTable

variable {miss prior : ℕ} {table : List (ℕ × ℕ)}

/-- The scan only erases entries. -/
theorem scanOneMiss_sublist (miss prior : ℕ) (table : List (ℕ × ℕ)) :
    (scanOneMiss miss prior table).1.Sublist table := by
  fun_induction scanOneMiss miss prior table with
  | case1 => exact List.Sublist.refl _
  | case2 | case3 => exact List.nil_sublist _
  | case4 => exact List.Sublist.refl _
  | case5 e next rest hmiss out ih => exact (ih.cons_cons next).cons e
  | case6 e next rest hmiss hprior => exact List.sublist_cons_self _ _
  | case7 e next rest hmiss hprior out ih => exact ih.cons_cons e

/-- A scan that does not find the prior page erases the entry of the missed page. -/
theorem notMem_scanOneMiss (miss prior : ℕ) (hnodup : (table.map Prod.fst).Nodup)
    (h : (scanOneMiss miss prior table).2 = false) :
    miss ∉ (scanOneMiss miss prior table).1.map Prod.fst := by
  fun_induction scanOneMiss miss prior table with
  | case1 | case2 => simp
  | case3 => cases h
  | case4 e hmiss => simpa using Ne.symm hmiss
  | case5 e next rest hmiss out ih =>
    subst hmiss
    obtain ⟨hnot, -⟩ := List.nodup_cons.mp hnodup
    exact fun hmem => hnot (((scanOneMiss_sublist _ _ rest).cons_cons next).map _ |>.subset hmem)
  | case6 => cases h
  | case7 e next rest hmiss hprior out ih =>
    have htail := ih (List.nodup_cons.mp hnodup).2 h
    simpa [Ne.symm hmiss] using htail

/-- The scan finds the prior page if it is in the table, but not right behind the missed page. -/
theorem scanOneMiss_iff (hne : miss ≠ prior) (hnodup : (table.map Prod.fst).Nodup) :
    (scanOneMiss miss prior table).2 = true ↔
      prior ∈ table.map Prod.fst ∧ ¬ [miss, prior] <:+: table.map Prod.fst := by
  fun_induction scanOneMiss miss prior table with
  | case1 => simp
  | case2 e hmiss => simp [hmiss, Ne.symm hne]
  | case3 e hmiss hprior => simp [hprior, List.infix_cons_iff]
  | case4 e hmiss hprior => simp [Ne.symm hprior]
  | case5 e next rest hmiss out ih =>
    -- the entry behind the missed page is not looked at
    subst hmiss
    simp only [List.map_cons, List.nodup_cons, List.mem_cons, not_or] at hnodup
    obtain ⟨⟨hhead, hrest⟩, hnext, hnodup⟩ := hnodup
    have hconsec : ∀ l, e.1 ∉ l → ¬ [e.1, prior] <:+: l := fun l hl h => hl (h.subset (by simp))
    have hnone := hconsec (next.1 :: rest.map Prod.fst) (by simp [hhead, hrest])
    rw [ih hnodup, and_iff_left (hconsec _ hrest), List.map_cons, List.map_cons,
      List.infix_cons_iff]
    simp only [hnone, or_false, List.cons_prefix_cons, List.nil_prefix, and_true, true_and,
      List.mem_cons, Ne.symm hne, false_or]
    exact ⟨fun h => ⟨.inr h, fun heq => hnext (heq ▸ h)⟩, fun h => h.1.resolve_left h.2⟩
  | case6 e next rest hmiss hprior =>
    subst hprior
    have hnone : ¬ [miss, e.1] <:+: next.1 :: rest.map Prod.fst := fun h =>
      (List.nodup_cons.mp hnodup).1 (h.subset (by simp))
    rw [List.map_cons, List.map_cons, List.infix_cons_iff]
    simp [hnone, Ne.symm hmiss]
  | case7 e next rest hmiss hprior out ih =>
    rw [ih (List.nodup_cons.mp hnodup).2, List.map_cons (l := next :: rest), List.infix_cons_iff]
    simp [Ne.symm hprior, Ne.symm hmiss]

end OneMissTable

/-- What the controller tells the handlers: hits and misses of pages, with the cycle. -/
inductive Access
  | hit (cycle page : ℕ)
  | miss (cycle page : ℕ)

/-- The tables after a hit or a miss. -/
def access (cfg : Config) (s : StreamBuffers) : Access → StreamBuffers
  | .hit cycle page => (hitHandler cfg cycle page s).1
  | .miss cycle page => (missHandler cfg cycle page s).1

/-- The variable `stream_detected` of the handler for a miss of a page. Of the first and the last
page it takes no notice. -/
def streamDetected (cfg : Config) (s : StreamBuffers) (missPage : ℕ) : Bool :=
  if missPage = 0 ∨ missPage = (cfg.totalPages - 1) * cfg.pageSize then false
  else (scanOneMiss missPage (missPage - cfg.pageSize) s.oneMissTable).2

/-- No page is twice in the table of single misses, which has its size. -/
structure OneMissed (s : StreamBuffers) : Prop where
  nodup : (s.oneMissTable.map Prod.fst).Nodup
  length_le : s.oneMissTable.length ≤ oneMissTableSize

variable {cfg : Config} {s : StreamBuffers}

/-- The size of the table is enforced after a new entry. -/
theorem OneMissed.missHandler (h : s.OneMissed) (cycle missPage : ℕ) :
    (StreamBuffers.missHandler cfg cycle missPage s).1.OneMissed := by
  rw [StreamBuffers.missHandler]
  split_ifs with hend
  · exact h
  have hsub := scanOneMiss_sublist missPage (missPage - cfg.pageSize) s.oneMissTable
  have hnot := notMem_scanOneMiss missPage (missPage - cfg.pageSize) h.nodup
  generalize scanOneMiss missPage (missPage - cfg.pageSize) s.oneMissTable = out at hsub hnot
  obtain ⟨table, detected⟩ := out
  have hlen : table.length ≤ oneMissTableSize := hsub.length_le.trans h.length_le
  have hnodup := (hsub.map Prod.fst).nodup h.nodup
  have hdrop : ∀ l : List (ℕ × ℕ), (l.map Prod.fst).Nodup → l.length ≤ oneMissTableSize + 1 →
      ∀ buffers, OneMissed
        ⟨if oneMissTableSize < l.length then l.drop 1 else l, buffers⟩ := by
    intro l hl hle buffers
    split_ifs with hsize
    · exact ⟨((List.drop_sublist 1 l).map Prod.fst).nodup hl, by simp; omega⟩
    · exact ⟨hl, by simpa using hsize⟩
  cases detected with
  | true => exact hdrop table hnodup (by omega) _
  | false =>
    refine hdrop (table ++ [(missPage, cycle)]) ?_ (by simpa using hlen) _
    rw [List.map_append, List.nodup_append]
    refine ⟨hnodup, List.nodup_singleton _, fun a ha b hb hab => hnot rfl ?_⟩
    rwa [hab, List.mem_singleton.mp hb] at ha

theorem OneMissed.access (h : s.OneMissed) (a : Access) : (access cfg s a).OneMissed := by
  cases a with
  | miss cycle page => exact h.missHandler cycle page
  | hit cycle page =>
    simp only [StreamBuffers.access, hitHandler]
    split_ifs
    · exact ⟨h.nodup, h.length_le⟩
    · exact ⟨h.nodup, h.length_le⟩
    · exact h

theorem OneMissed.accesses (h : s.OneMissed) (as : List Access) :
    (as.foldl (StreamBuffers.access cfg) s).OneMissed := by
  induction as generalizing s with
  | nil => exact h
  | cons a as ih => exact ih (h.access a)

/-- **Streams.** After any hits and misses, no page is twice in the table of single misses, which
never exceeds its size. A miss of a page other than the first and the last detects a stream
exactly when the page before it is in the table, precisely if the entry for that page does not
come right behind one for the missed page itself. -/
theorem streamDetected_iff (cfg : Config) (as : List Access) (page : ℕ) (hfirst : page ≠ 0)
    (hlast : page ≠ cfg.totalPages - 1) :
    let s := as.foldl (StreamBuffers.access cfg) {}
    (s.oneMissTable.map Prod.fst).Nodup ∧ s.oneMissTable.length ≤ oneMissTableSize ∧
      ((streamDetected cfg s (page * cfg.pageSize) = true ↔
          (page - 1) * cfg.pageSize ∈ s.oneMissTable.map Prod.fst) ↔
        ¬ [page * cfg.pageSize, (page - 1) * cfg.pageSize] <:+: s.oneMissTable.map Prod.fst) := by
  intro s
  have h : s.OneMissed := OneMissed.accesses (s := {}) ⟨by simp, by simp⟩ as
  have hprior : page * cfg.pageSize - cfg.pageSize = (page - 1) * cfg.pageSize :=
    (Nat.sub_one_mul page cfg.pageSize).symm
  have hne : page * cfg.pageSize ≠ (page - 1) * cfg.pageSize := fun heq => by
    have := Nat.eq_of_mul_eq_mul_right cfg.pageSize_pos heq
    omega
  refine ⟨h.nodup, h.length_le, ?_⟩
  have hends : ¬ (page * cfg.pageSize = 0 ∨
      page * cfg.pageSize = (cfg.totalPages - 1) * cfg.pageSize) := by
    rintro (h0 | hl)
    · exact (Nat.mul_ne_zero hfirst cfg.pageSize_pos.ne') h0
    · exact hlast (Nat.eq_of_mul_eq_mul_right cfg.pageSize_pos hl)
  rw [streamDetected, if_neg hends, hprior, scanOneMiss_iff hne h.nodup]
  have hmem : [page * cfg.pageSize, (page - 1) * cfg.pageSize] <:+: s.oneMissTable.map Prod.fst →
      (page - 1) * cfg.pageSize ∈ s.oneMissTable.map Prod.fst := fun hconsec =>
    hconsec.subset (by simp)
  tauto

/-- A miss of a page that missed before the page in front of it did. -/
theorem streamDetected_iff_small :
    let s := [.miss 0 384, .miss 1 256].foldl (StreamBuffers.access HybridSystem.smallCache) {}
    (streamDetected HybridSystem.smallCache s 384 = true ↔ 256 ∈ s.oneMissTable.map Prod.fst) ↔
      ¬ [384, 256] <:+: s.oneMissTable.map Prod.fst :=
  (streamDetected_iff HybridSystem.smallCache _ 3 (by decide) (by decide)).2.2

/-- The entry of the page before the missed one is passed over. -/
theorem streamDetected_passes_over :
    let s := [.miss 0 384, .miss 1 256].foldl (StreamBuffers.access HybridSystem.smallCache) {}
    streamDetected HybridSystem.smallCache s 384 = false ∧ 256 ∈ s.oneMissTable.map Prod.fst := by
  decide

end StreamBuffers

/-- The prefetcher of the source. -/
def streamBuffer (cfg : Config) : Prefetcher StreamBuffers where
  hit := StreamBuffers.hitHandler cfg
  miss := StreamBuffers.missHandler cfg

end HybridMemory.HybridSim

import HybridMemory.NVDIMMSim.FreePages

/-!
# The saved state of a translation layer

`saveNVState` writes the address map, the dirty table (of `GCFtl`) and the used table to a file;
`loadNVState` reads it into a layer that has just been constructed, word by word, with flags for
the section it is in. It issues a fast write for each used page (that is not dirty).

* `load_save`: what is loaded has the same map and tables as what was saved;
* `load_save_plain`: for a plain `Ftl`, with exactly one fast write for each used page.

A file is a list of words and blanks. At the end of a file that ends with a blank the loop is
entered once more, with the last word.
-/

namespace HybridMemory.NVDIMMSim

/-- The words of a state file. -/
inductive Token
  | addressMap
  | dirty
  | used
  | number (n : ℕ)
  deriving DecidableEq

namespace Ftl

/-! ### Files -/

/-- The values of `temp` in a loop that reads words until `eof()`, where a file is a list of words
and (as `none`) blanks. The end is noticed when it follows a word at once; when only blanks were
left, reading fails and `temp` keeps its value. -/
def words : Option Token → List (Option Token) → List (Option Token)
  | temp, [] => [temp]
  | temp, none :: file => words temp file
  | _, [some w] => [some w]
  | _, some w :: file => some w :: words (some w) file

/-- A Boolean as it is printed. -/
def bit (b : Bool) : Token := .number b.toNat

variable (cfg : Config) (s : Ftl)

def saveAddressMap : List (Option Token) :=
  some .addressMap :: none ::
    s.addressMap.entries.flatMap fun e => [some (.number e.1), none, some (.number e.2), none]

def saveDirty : List (Option Token) :=
  some .dirty :: none :: (List.range cfg.numBlocks).flatMap fun block =>
    ((List.range cfg.pagesPerBlock).flatMap fun page => [some (bit (s.dirty (block, page))), none])
      ++ [none]

/-- There is no blank after the last word of a row. -/
def saveUsed : List (Option Token) :=
  (List.range cfg.numBlocks).flatMap fun block => none ::
    ((List.range cfg.pagesPerBlock).map fun page => some (bit (s.used (block, page)))).intersperse
      none

/-- `saveNVState` of the two classes. -/
def saveNVState : List (Option Token) :=
  if cfg.garbageCollect then
    s.saveAddressMap ++ s.saveDirty cfg ++ some .used :: s.saveUsed cfg
  else s.saveAddressMap ++ some .used :: none :: s.saveUsed cfg

inductive Section
  | addresses | dirty | used
  deriving DecidableEq

/-- The local variables of `loadNVState`, the layer and the fast writes issued, with virtual and
physical address. At most one of the flags `doing_addresses`, `doing_dirty` and `doing_used` is
set. -/
structure Restore where
  ftl : Ftl
  doing : Option Section := none
  row : ℕ := 0
  column : ℕ := 0
  key : Option ℕ := none
  tempMap : ℕ → ℕ := fun _ => 0
  fastWrites : List (ℕ × ℕ) := []

namespace Restore

variable (cfg : Config) (r : Restore)

/-- A section begins; only `GCFtl` goes back to the first page. -/
def enter (sec : Section) : Restore :=
  if cfg.garbageCollect then { r with doing := sec, row := 0, column := 0 }
  else { r with doing := sec }

def nextColumn : Restore :=
  if cfg.pagesPerBlock ≤ r.column + 1 then { r with row := r.row + 1, column := 0 }
  else { r with column := r.column + 1 }

/-- The fake write for a used page. -/
def fastWrite : Option Restore := do
  let pAddr := r.row * cfg.blockSize + r.column * cfg.nvPageSize
  let _ ← cfg.translate pAddr
  some { r with
    fastWrites := r.fastWrites ++ [(r.tempMap pAddr, pAddr)]
    ftl := { r.ftl with
      usedPageCount := r.ftl.usedPageCount + if cfg.garbageCollect then 1 else 0 } }

/-- A number, in the section that the flags say; outside the tables there is no defined result. -/
def number (n : ℕ) : Option Restore :=
  match r.doing with
  | some .used =>
    if cfg.numBlocks ≤ r.row then none
    else do
      let page := (r.row, r.column)
      let r := { r with ftl := { r.ftl with used := Function.update r.ftl.used page (n ≠ 0) } }
      let r ← if n = 1 ∧ (cfg.garbageCollect → r.ftl.dirty page = false) then r.fastWrite cfg
        else some r
      some (r.nextColumn cfg)
  | some .dirty =>
    if cfg.numBlocks ≤ r.row then none
    else
      let dirty := Function.update r.ftl.dirty (r.row, r.column) (n ≠ 0)
      some ({ r with ftl := { r.ftl with dirty := dirty } }.nextColumn cfg)
  | some .addresses =>
    match r.key with
    | none => some { r with key := n }
    | some key => some { r with
        ftl := { r.ftl with addressMap := r.ftl.addressMap.insert key n }
        tempMap := Function.update r.tempMap n key
        key := none }
  | none => some r

/-- One turn of the loop. The plain `Ftl` does not know dirty tables; before the first word there
is nothing to do. -/
def read : Option Token → Option Restore
  | some .addressMap => some (r.enter cfg .addresses)
  | some .dirty => if cfg.garbageCollect then some (r.enter cfg .dirty) else none
  | some .used => some (r.enter cfg .used)
  | some (.number n) => r.number cfg n
  | none => some r

end Restore

/-- `loadNVState` of the two classes. -/
def loadNVState (cfg : Config) (s : Ftl) (file : List (Option Token)) : Option Restore :=
  (words none file).foldlM (Restore.read cfg) { ftl := s }

/-! ### The words of a saved state -/

variable {cfg : Config} {s : Ftl} {r : Restore} {temp : Option Token} {w : Token}

/-- All words before one that is not the last are read. -/
theorem words_append (temp : Option Token) (file : List (Option Token)) (w : Token)
    (tail : List (Option Token)) :
    words temp (file ++ some w :: tail) =
      file.filter Option.isSome ++ words none (some w :: tail) := by
  induction file generalizing temp with
  | nil => cases tail <;> rfl
  | cons v file ih =>
    cases v with
    | none => exact ih temp
    | some v =>
      have hcons : words temp (some v :: (file ++ some w :: tail)) =
          some v :: words (some v) (file ++ some w :: tail) := by
        rw [words]
        exact List.append_ne_nil_of_right_ne_nil _ (List.cons_ne_nil _ _)
      rw [List.cons_append, hcons, ih, List.filter_cons_of_pos rfl, List.cons_append]

/-- The `k`-th page of the device. -/
def pageAt (cfg : Config) (k : ℕ) : ℕ × ℕ := (k / cfg.pagesPerBlock, k % cfg.pagesPerBlock)

theorem flatMap_rows {α : Type*} (cfg : Config) (f : ℕ × ℕ → α) (n : ℕ) :
    ((List.range n).flatMap fun block =>
        (List.range cfg.pagesPerBlock).map fun page => f (block, page)) =
      (List.range (n * cfg.pagesPerBlock)).map fun k => f (pageAt cfg k) := by
  induction n with
  | zero => rw [Nat.zero_mul]; rfl
  | succ n ih =>
    rw [List.range_succ, List.flatMap_append, ih, Nat.succ_mul, List.range_add, List.map_append,
      List.flatMap_singleton, List.map_map]
    refine congrArg _ (List.map_congr_left fun page hpage => ?_)
    have hlt := List.mem_range.mp hpage
    rw [Function.comp_apply, pageAt, Nat.mul_comm n, Nat.mul_add_div cfg.pagesPerBlock_pos,
      Nat.div_eq_of_lt hlt, Nat.mul_add_mod, Nat.mod_eq_of_lt hlt, Nat.add_zero]

theorem filter_intersperse {α : Type*} (f : α → Token) (l : List α) :
    ((l.map fun x => some (f x)).intersperse none).filter Option.isSome =
      l.map fun x => some (f x) := by
  induction l with
  | nil => rfl
  | cons x l ih =>
    cases l with
    | nil => rfl
    | cons y l =>
      rw [List.map_cons, List.map_cons, List.intersperse_cons_cons, List.filter_cons_of_pos rfl,
        List.filter_cons_of_neg Bool.false_ne_true]
      exact congrArg (List.cons _) ih

/-- The words for a table. -/
def tableWords (cfg : Config) (marks : ℕ × ℕ → Bool) (k : ℕ) : List (Option Token) :=
  (List.range k).map fun i => some (bit (marks (pageAt cfg i)))

theorem filter_saveUsed (cfg : Config) (s : Ftl) : (s.saveUsed cfg).filter Option.isSome =
    tableWords cfg s.used (cfg.numBlocks * cfg.pagesPerBlock) := by
  rw [saveUsed, List.filter_flatMap, tableWords,
    ← flatMap_rows cfg (fun q => some (bit (s.used q)))]
  refine congrArg (List.flatMap · _) (funext fun block => ?_)
  rw [List.filter_cons_of_neg Bool.false_ne_true, filter_intersperse]

/-- A row ends with a word. -/
theorem intersperse_eq_concat {α : Type*} (f : α → Token) {l : List α} (hl : l ≠ []) :
    ∃ front w, (l.map fun x => some (f x)).intersperse none = front ++ [some w] := by
  induction l with
  | nil => exact absurd rfl hl
  | cons x l ih =>
    cases l with
    | nil => exact ⟨[], f x, rfl⟩
    | cons y l =>
      obtain ⟨front, w, hfront⟩ := ih (List.cons_ne_nil y l)
      exact ⟨some (f x) :: none :: front, w, congrArg (some (f x) :: none :: ·) hfront⟩

/-- The words of the used section. Without blocks, the file of a plain `Ftl` ends with a blank, and
its last word is read twice. -/
theorem words_used (cfg : Config) (s : Ftl) {blank : List (Option Token)}
    (hblank : blank = [] ∨ blank = [none]) :
    ∃ n, words none (some .used :: (blank ++ s.saveUsed cfg)) = some .used ::
      (List.replicate n (some .used) ++
        tableWords cfg s.used (cfg.numBlocks * cfg.pagesPerBlock)) := by
  rcases Nat.eq_zero_or_pos cfg.numBlocks with hzero | hpos
  · rw [saveUsed, hzero, Nat.zero_mul]
    rcases hblank with rfl | rfl
    · exact ⟨0, rfl⟩
    · exact ⟨1, rfl⟩
  · have hrow : List.range cfg.pagesPerBlock ≠ [] :=
      List.range_ne_nil.mpr (Nat.ne_of_gt cfg.pagesPerBlock_pos)
    obtain ⟨m, hm⟩ : ∃ m, cfg.numBlocks = m + 1 := ⟨_, (Nat.succ_pred_eq_of_pos hpos).symm⟩
    obtain ⟨front, w, hfront⟩ : ∃ front w, s.saveUsed cfg = front ++ [some w] := by
      rw [saveUsed, hm, List.range_succ, List.flatMap_append, List.flatMap_singleton]
      obtain ⟨front, w, hfront⟩ := intersperse_eq_concat (fun page => bit (s.used (m, page))) hrow
      rw [hfront]
      exact ⟨_ ++ none :: front, w, (List.append_assoc _ (none :: front) _).symm⟩
    have hfilter := filter_saveUsed cfg s
    rw [hfront] at hfilter ⊢
    refine ⟨0, ?_⟩
    have hwords := words_append none (some .used :: (blank ++ front)) w []
    rw [List.cons_append, List.append_assoc] at hwords
    rw [hwords, ← hfilter, List.filter_cons_of_pos rfl, List.filter_append, List.filter_append]
    rcases hblank with rfl | rfl <;> rfl

theorem filter_saveDirty : (s.saveDirty cfg).filter Option.isSome =
    some .dirty :: tableWords cfg s.dirty (cfg.numBlocks * cfg.pagesPerBlock) := by
  rw [saveDirty, List.filter_cons_of_pos rfl, List.filter_cons_of_neg Bool.false_ne_true,
    List.filter_flatMap, tableWords, ← flatMap_rows cfg (fun q => some (bit (s.dirty q)))]
  refine congrArg (List.cons _) (congrArg (List.flatMap · _) (funext fun block => ?_))
  rw [List.filter_append, List.filter_flatMap]
  exact (List.append_nil _).trans List.map_eq_flatMap.symm

theorem filter_saveAddressMap : s.saveAddressMap.filter Option.isSome =
    some .addressMap ::
      s.addressMap.entries.flatMap fun e => [some (.number e.1), some (.number e.2)] := by
  rw [saveAddressMap, List.filter_cons_of_pos rfl, List.filter_cons_of_neg Bool.false_ne_true,
    List.filter_flatMap]
  rfl

/-! ### Reading the words -/

/-- A section is entered at the first page. -/
theorem enter_eq {sec : Section} (h : cfg.garbageCollect = false → r.row = 0 ∧ r.column = 0) :
    r.enter cfg sec = { r with doing := some sec, row := 0, column := 0 } := by
  rw [Restore.enter]
  split
  · rfl
  · next hgc =>
    obtain ⟨hrow, hcolumn⟩ := h ((Bool.not_eq_true _).mp hgc)
    rw [hrow, hcolumn]

theorem foldlM_addresses (entries : List (Sigma fun _ : ℕ => ℕ))
    (hdoing : r.doing = some .addresses) (hkey : r.key = none) :
    (entries.flatMap fun e => [some (.number e.1), some (.number e.2)]).foldlM
        (Restore.read cfg) r =
      some { r with
        ftl := { r.ftl with
          addressMap := entries.foldl (fun map e => map.insert e.1 e.2) r.ftl.addressMap }
        tempMap := entries.foldl (fun map e => Function.update map e.2 e.1) r.tempMap } := by
  induction entries generalizing r with
  | nil => rfl
  | cons e entries ih =>
    have hread : [some (Token.number e.1), some (.number e.2)].foldlM (Restore.read cfg) r =
        some { r with
          ftl := { r.ftl with addressMap := r.ftl.addressMap.insert e.1 e.2 }
          tempMap := Function.update r.tempMap e.2 e.1 } := by
      simp [Restore.read, Restore.number, hdoing, hkey]
    rw [List.flatMap_cons, List.foldlM_append, hread]
    exact ih hdoing hkey

theorem pageAt_eq_iff {k : ℕ} {q : ℕ × ℕ} :
    pageAt cfg k = q ↔ q.2 + cfg.pagesPerBlock * q.1 = k ∧ q.2 < cfg.pagesPerBlock := by
  rw [pageAt, Prod.ext_iff]
  exact Nat.div_mod_unique cfg.pagesPerBlock_pos

/-- The variables after the address section. -/
def addressed (s base : Ftl) : Restore where
  ftl := { base with
    addressMap := s.addressMap.entries.foldl (fun map e => map.insert e.1 e.2) base.addressMap }
  doing := some .addresses
  tempMap := s.addressMap.entries.foldl (fun map e => Function.update map e.2 e.1) fun _ => 0

theorem foldlM_address_section (cfg : Config) (s base : Ftl) :
    (s.saveAddressMap.filter Option.isSome).foldlM (Restore.read cfg) { ftl := base } =
      some (addressed s base) := by
  rw [filter_saveAddressMap, List.foldlM_cons, Restore.read, enter_eq fun _ => ⟨rfl, rfl⟩]
  exact foldlM_addresses _ rfl rfl

/-- A table whose first `k` entries have been replaced. -/
def loadTable (cfg : Config) (marks base : ℕ × ℕ → Bool) (k : ℕ) : ℕ × ℕ → Bool := fun q =>
  if q.2 + cfg.pagesPerBlock * q.1 < k ∧ q.2 < cfg.pagesPerBlock then marks q else base q

theorem update_loadTable (marks base : ℕ × ℕ → Bool) (k : ℕ) :
    Function.update (loadTable cfg marks base k) (pageAt cfg k) (marks (pageAt cfg k)) =
      loadTable cfg marks base (k + 1) := by
  funext q
  by_cases hq : pageAt cfg k = q
  · obtain ⟨hindex, hpage⟩ := pageAt_eq_iff.mp hq
    rw [hq, Function.update_self, loadTable, if_pos ⟨Nat.lt_succ_of_le hindex.le, hpage⟩]
  · have hne : q.2 < cfg.pagesPerBlock → q.2 + cfg.pagesPerBlock * q.1 ≠ k :=
      fun hpage hindex => hq (pageAt_eq_iff.mpr ⟨hindex, hpage⟩)
    rw [Function.update_of_ne (Ne.symm hq), loadTable, loadTable]
    refine if_congr (and_congr_left fun hpage => ?_) rfl rfl
    have := hne hpage
    omega

theorem index_lt {q : ℕ × ℕ} (hq : cfg.IsPage q) :
    q.2 + cfg.pagesPerBlock * q.1 < cfg.numBlocks * cfg.pagesPerBlock := by
  have hrow := Nat.mul_le_mul_right cfg.pagesPerBlock hq.1
  rw [Nat.succ_mul, Nat.mul_comm q.1] at hrow
  have := hq.2
  omega

theorem loadTable_of_isPage (marks base : ℕ × ℕ → Bool) {q : ℕ × ℕ} (hq : cfg.IsPage q) :
    loadTable cfg marks base (cfg.numBlocks * cfg.pagesPerBlock) q = marks q :=
  if_pos ⟨index_lt hq, hq.2⟩

/-- The same variables at the `k`-th entry of a table. -/
def Restore.seek (cfg : Config) (r : Restore) (k : ℕ) : Restore :=
  { r with row := (pageAt cfg k).1, column := (pageAt cfg k).2 }

theorem nextColumn_seek (r : Restore) (k : ℕ) :
    (r.seek cfg k).nextColumn cfg = r.seek cfg (k + 1) := by
  have hk : (pageAt cfg k).2 + cfg.pagesPerBlock * (pageAt cfg k).1 = k ∧
      (pageAt cfg k).2 < cfg.pagesPerBlock := pageAt_eq_iff.mp rfl
  rw [Restore.nextColumn]
  split
  · next hlast =>
    have hnext : pageAt cfg (k + 1) = ((pageAt cfg k).1 + 1, 0) := by
      refine pageAt_eq_iff.mpr ⟨?_, cfg.pagesPerBlock_pos⟩
      have : (pageAt cfg k).2 + 1 = cfg.pagesPerBlock := Nat.le_antisymm hk.2 hlast
      rw [Nat.zero_add, Nat.mul_succ]
      omega
    rw [Restore.seek, Restore.seek, hnext]
  · next hmore =>
    have hnext : pageAt cfg (k + 1) = ((pageAt cfg k).1, (pageAt cfg k).2 + 1) := by
      refine pageAt_eq_iff.mpr ⟨?_, Nat.lt_of_not_le hmore⟩
      dsimp only
      omega
    rw [Restore.seek, Restore.seek, hnext]

theorem row_lt {k : ℕ} (hk : k < cfg.numBlocks * cfg.pagesPerBlock) :
    (pageAt cfg k).1 < cfg.numBlocks :=
  (Nat.div_lt_iff_lt_mul cfg.pagesPerBlock_pos).mpr hk

theorem loadTable_eq_true_iff {marks : ℕ × ℕ → Bool} {q : ℕ × ℕ} :
    loadTable cfg marks (fun _ => false) (cfg.numBlocks * cfg.pagesPerBlock) q = true ↔
      cfg.IsPage q ∧ marks q = true := by
  constructor
  · intro h
    by_cases hq : q.2 + cfg.pagesPerBlock * q.1 < cfg.numBlocks * cfg.pagesPerBlock ∧
        q.2 < cfg.pagesPerBlock
    · have hrow := row_lt hq.1
      rw [pageAt_eq_iff.mpr ⟨rfl, hq.2⟩] at hrow
      exact ⟨⟨hrow, hq.2⟩, (if_pos hq).symm.trans h⟩
    · exact absurd ((if_neg hq).symm.trans h) Bool.false_ne_true
  · rintro ⟨hq, hmark⟩
    rw [loadTable_of_isPage marks _ hq, hmark]

/-- Words that lead from each state of a family to the next. -/
theorem foldlM_range_map {σ β : Type*} {read : σ → β → Option σ} {F : ℕ → σ} {w : ℕ → β} {n : ℕ}
    (h : ∀ k < n, read (F k) (w k) = some (F (k + 1))) :
    ((List.range n).map w).foldlM read (F 0) = some (F n) := by
  induction n with
  | zero => rfl
  | succ n ih =>
    rw [List.range_succ, List.map_append, List.foldlM_append,
      ih fun k hk => h k (Nat.lt_succ_of_lt hk)]
    simp [h n (Nat.lt_succ_self n)]

theorem toNat_ne_zero (b : Bool) : decide (b.toNat ≠ 0) = b := by cases b <;> rfl

theorem number_dirty (hdoing : r.doing = some .dirty) (hrow : r.row < cfg.numBlocks) (b : Bool) :
    r.number cfg b.toNat = some ({ r with ftl := { r.ftl with
      dirty := Function.update r.ftl.dirty (r.row, r.column) b } }.nextColumn cfg) := by
  rw [Restore.number, hdoing]
  simp only [if_neg (Nat.not_le.mpr hrow), toNat_ne_zero]

/-- The fast write for a page with the mark `b`. -/
def Restore.writeFor (cfg : Config) (r : Restore) (b : Bool) (q : ℕ × ℕ) : List (ℕ × ℕ) :=
  if b = true ∧ (cfg.garbageCollect = true → r.ftl.dirty q = false) then
    [(r.tempMap (cfg.pageAddr q), cfg.pageAddr q)]
  else []

/-- More fast writes; `GCFtl` counts them. -/
def Restore.addWrites (cfg : Config) (r : Restore) (writes : List (ℕ × ℕ)) : Restore :=
  { r with
    ftl := { r.ftl with
      usedPageCount := r.ftl.usedPageCount + if cfg.garbageCollect then writes.length else 0 }
    fastWrites := r.fastWrites ++ writes }

theorem number_used (hdoing : r.doing = some .used) (hrow : r.row < cfg.numBlocks)
    (hcolumn : r.column < cfg.pagesPerBlock) (b : Bool) :
    r.number cfg b.toNat = some (({ r with
      ftl := { r.ftl with
        used := Function.update r.ftl.used (r.row, r.column) b } }.addWrites cfg
          (r.writeFor cfg b (r.row, r.column))).nextColumn cfg) := by
  have hone : b.toNat = 1 ↔ b = true := by cases b <;> decide
  rw [Restore.number, hdoing, Restore.writeFor]
  simp only [if_neg (Nat.not_le.mpr hrow), toNat_ne_zero, hone]
  split
  · next hwrites =>
    have hpage : cfg.IsPage (r.row, r.column) := ⟨hrow, hcolumn⟩
    have htranslate := Config.translate_pageAddr hpage
    rw [Config.pageAddr] at htranslate
    simp [Restore.fastWrite, htranslate, Config.pageAddr, Restore.addWrites]
  · simp [Restore.addWrites]

/-- The dirty table after `k` words. -/
def Restore.loadDirty (cfg : Config) (marks : ℕ × ℕ → Bool) (r : Restore) (k : ℕ) : Restore :=
  { r with ftl := { r.ftl with dirty := loadTable cfg marks r.ftl.dirty k } }

theorem foldlM_dirty (marks : ℕ × ℕ → Bool) (hdoing : r.doing = some .dirty) :
    (tableWords cfg marks (cfg.numBlocks * cfg.pagesPerBlock)).foldlM (Restore.read cfg)
        ((r.loadDirty cfg marks 0).seek cfg 0) =
      some ((r.loadDirty cfg marks (cfg.numBlocks * cfg.pagesPerBlock)).seek cfg
        (cfg.numBlocks * cfg.pagesPerBlock)) := by
  refine foldlM_range_map (F := fun k => (r.loadDirty cfg marks k).seek cfg k) fun k hk => ?_
  have hseek : ((r.loadDirty cfg marks k).seek cfg k).doing = some .dirty := hdoing
  rw [bit, Restore.read, number_dirty hseek (row_lt hk), ← nextColumn_seek, Restore.loadDirty,
    Restore.loadDirty, ← update_loadTable]
  rfl

/-- The used table after `k` words, and the fast writes. -/
def Restore.loadUsed (cfg : Config) (marks : ℕ × ℕ → Bool) (r : Restore) (k : ℕ) : Restore :=
  { r with ftl := { r.ftl with used := loadTable cfg marks r.ftl.used k } }.addWrites cfg
    ((List.range k).flatMap fun i => r.writeFor cfg (marks (pageAt cfg i)) (pageAt cfg i))

theorem addWrites_append (r : Restore) (v w : List (ℕ × ℕ)) :
    (r.addWrites cfg v).addWrites cfg w = r.addWrites cfg (v ++ w) := by
  rw [Restore.addWrites, Restore.addWrites, Restore.addWrites, List.append_assoc, Nat.add_assoc]
  split
  · rw [List.length_append]
  · rfl

theorem addWrites_nil (r : Restore) : r.addWrites cfg [] = r := by
  rw [Restore.addWrites, List.append_nil, List.length_nil, ite_self, Nat.add_zero]

theorem foldlM_used (cfg : Config) (marks : ℕ × ℕ → Bool) (hdoing : r.doing = some .used) :
    (tableWords cfg marks (cfg.numBlocks * cfg.pagesPerBlock)).foldlM (Restore.read cfg)
        ((r.loadUsed cfg marks 0).seek cfg 0) =
      some ((r.loadUsed cfg marks (cfg.numBlocks * cfg.pagesPerBlock)).seek cfg
        (cfg.numBlocks * cfg.pagesPerBlock)) := by
  refine foldlM_range_map (F := fun k => (r.loadUsed cfg marks k).seek cfg k) fun k hk => ?_
  have hseek : ((r.loadUsed cfg marks k).seek cfg k).doing = some .used := hdoing
  have hcolumn : (pageAt cfg k).2 < cfg.pagesPerBlock := Nat.mod_lt _ cfg.pagesPerBlock_pos
  rw [bit, Restore.read, number_used hseek (row_lt hk) hcolumn, ← nextColumn_seek, Restore.loadUsed,
    Restore.loadUsed, ← update_loadTable, List.range_succ, List.flatMap_append,
    List.flatMap_singleton, ← addWrites_append]
  rfl

theorem lookup_foldl_insert {entries : List (Sigma fun _ : ℕ => ℕ)} (h : entries.NodupKeys)
    (map : AList fun _ : ℕ => ℕ) (v : ℕ) :
    (entries.foldl (fun map e => map.insert e.1 e.2) map).lookup v =
      (entries.dlookup v).or (map.lookup v) := by
  induction entries generalizing map with
  | nil => rfl
  | cons e entries ih =>
    obtain ⟨hfresh, htail⟩ := List.nodupKeys_cons.mp h
    rw [List.foldl_cons, ih htail]
    by_cases hv : v = e.1
    · rw [hv, List.dlookup_eq_none.mpr hfresh, AList.lookup_insert, List.dlookup_cons_eq]
      rfl
    · rw [AList.lookup_insert_ne hv, List.dlookup_cons_ne _ _ hv]

theorem loadTable_zero (marks base : ℕ × ℕ → Bool) : loadTable cfg marks base 0 = base :=
  funext fun _ => if_neg fun h => Nat.not_lt_zero _ h.1

theorem seek_zero (hrow : r.row = 0) (hcolumn : r.column = 0) : r.seek cfg 0 = r := by
  obtain ⟨ftl, doing, row, column, key, tempMap, fastWrites⟩ := r
  obtain rfl : row = 0 := hrow
  obtain rfl : column = 0 := hcolumn
  rw [Restore.seek, pageAt, Nat.zero_div, Nat.zero_mod]

theorem foldlM_dirty_section (s : Ftl) (hgc : cfg.garbageCollect = true) (r : Restore) :
    (some .dirty :: tableWords cfg s.dirty (cfg.numBlocks * cfg.pagesPerBlock)).foldlM
        (Restore.read cfg) r =
      some (({ r with doing := some .dirty, row := 0, column := 0 }.loadDirty cfg s.dirty
        (cfg.numBlocks * cfg.pagesPerBlock)).seek cfg (cfg.numBlocks * cfg.pagesPerBlock)) := by
  have henter : r.read cfg (some .dirty) =
      some { r with doing := some .dirty, row := 0, column := 0 } := by
    rw [Restore.read, if_pos hgc, enter_eq fun h => absurd hgc (h ▸ Bool.false_ne_true)]
  rw [List.foldlM_cons, henter, ← foldlM_dirty s.dirty rfl, Restore.loadDirty, loadTable_zero,
    seek_zero rfl rfl]
  rfl

/-- The pages for which fast writes are issued. -/
def saved (cfg : Config) (s : Ftl) : List (ℕ × ℕ) :=
  ((List.range (cfg.numBlocks * cfg.pagesPerBlock)).map (pageAt cfg)).filter fun q =>
    s.used q && (!cfg.garbageCollect || !s.dirty q)

theorem map_snd_writes (cfg : Config) {n : ℕ} (hdirty : cfg.garbageCollect = true → ∀ k < n,
      r.ftl.dirty (pageAt cfg k) = s.dirty (pageAt cfg k)) :
    ((List.range n).flatMap fun k =>
        r.writeFor cfg (s.used (pageAt cfg k)) (pageAt cfg k)).map Prod.snd =
      (((List.range n).map (pageAt cfg)).filter fun q =>
        s.used q && (!cfg.garbageCollect || !s.dirty q)).map cfg.pageAddr := by
  induction n with
  | zero => rfl
  | succ n ih =>
    have hlast : (r.writeFor cfg (s.used (pageAt cfg n)) (pageAt cfg n)).map Prod.snd =
        ([pageAt cfg n].filter fun q =>
          s.used q && (!cfg.garbageCollect || !s.dirty q)).map cfg.pageAddr := by
      have hwrite : (s.used (pageAt cfg n) = true ∧
          (cfg.garbageCollect = true → r.ftl.dirty (pageAt cfg n) = false)) ↔
          (s.used (pageAt cfg n) && (!cfg.garbageCollect || !s.dirty (pageAt cfg n))) = true := by
        cases hgc : cfg.garbageCollect with
        | false => simp
        | true => simp [hdirty hgc n (Nat.lt_succ_self n)]
      rw [Restore.writeFor, List.filter_singleton, Bool.cond_eq_ite, if_congr hwrite rfl rfl]
      split <;> rfl
    rw [List.range_succ, List.flatMap_append, List.map_append,
      ih fun hgc k hk => hdirty hgc k (Nat.lt_succ_of_lt hk), List.flatMap_singleton, hlast,
      List.map_append, List.filter_append, List.map_append, List.map_singleton]

/-- Reading the used section. -/
theorem foldlM_used_section (cfg : Config) (s : Ftl) (n : ℕ) (hfirst : r.fastWrites = [])
    (hplace : cfg.garbageCollect = false → r.row = 0 ∧ r.column = 0)
    (hdirty : cfg.garbageCollect = true → ∀ q, cfg.IsPage q → r.ftl.dirty q = s.dirty q) :
    ∃ t, (some .used :: (List.replicate n (some .used) ++
        tableWords cfg s.used (cfg.numBlocks * cfg.pagesPerBlock))).foldlM (Restore.read cfg) r =
          some t ∧
      t.fastWrites.map Prod.snd = (s.saved cfg).map cfg.pageAddr ∧
      t.ftl = { r.ftl with
        used := loadTable cfg s.used r.ftl.used (cfg.numBlocks * cfg.pagesPerBlock)
        usedPageCount := r.ftl.usedPageCount +
          if cfg.garbageCollect then (s.saved cfg).length else 0 } := by
  have henter : r.read cfg (some .used) =
      some { r with doing := some .used, row := 0, column := 0 } := by
    rw [Restore.read, enter_eq hplace]
  have hagain : (List.replicate n (some .used)).foldlM (Restore.read cfg)
      { r with doing := some .used, row := 0, column := 0 } =
        some { r with doing := some .used, row := 0, column := 0 } := by
    induction n with
    | zero => rfl
    | succ n ih =>
      rw [List.replicate_succ, List.foldlM_cons, Restore.read, enter_eq fun _ => ⟨rfl, rfl⟩]
      exact ih
  have hread := foldlM_used cfg (r := { r with doing := some .used, row := 0, column := 0 }) s.used
    rfl
  rw [Restore.loadUsed, loadTable_zero, List.range_zero, List.flatMap_nil, addWrites_nil,
    seek_zero rfl rfl] at hread
  have hwrites := map_snd_writes cfg (r := { r with
      doing := some .used, row := 0, column := 0 }) (s := s)
    (n := cfg.numBlocks * cfg.pagesPerBlock) fun hgc k hk =>
      hdirty hgc _ ⟨row_lt hk, Nat.mod_lt _ cfg.pagesPerBlock_pos⟩
  rw [List.foldlM_cons, henter]
  change ∃ t, List.foldlM _ _ _ = _ ∧ _
  rw [List.foldlM_append, hagain]
  refine ⟨_, hread, ?_, ?_⟩
  · change (r.fastWrites ++ _).map Prod.snd = _
    rwa [hfirst]
  · have hcount := congrArg List.length hwrites
    rw [List.length_map, List.length_map] at hcount
    rw [saved, ← hcount]
    rfl

/-- **The round trip of the state file.** What is loaded into a new layer is what was saved. -/
theorem load_save (cfg : Config) (s : Ftl) (address : ℕ) :
    ∃ r, loadNVState cfg (init cfg address) (s.saveNVState cfg) = some r ∧
      r.fastWrites.map Prod.snd = (s.saved cfg).map cfg.pageAddr ∧
      r.ftl = { init cfg address with
        addressMap := s.addressMap.entries.foldl (fun map e => map.insert e.1 e.2) ∅
        used := loadTable cfg s.used (fun _ => false) (cfg.numBlocks * cfg.pagesPerBlock)
        dirty := if cfg.garbageCollect then
          loadTable cfg s.dirty (fun _ => false) (cfg.numBlocks * cfg.pagesPerBlock)
          else fun _ => false
        usedPageCount := 0 + if cfg.garbageCollect then (s.saved cfg).length else 0 } := by
  have haddresses := foldlM_address_section cfg s (init cfg address)
  cases hgc : cfg.garbageCollect with
  | false =>
    obtain ⟨n, hwords⟩ := words_used cfg s (.inr rfl)
    have hload := foldlM_used_section cfg (r := addressed s (init cfg address)) s n rfl
      (fun _ => ⟨rfl, rfl⟩) fun h => absurd (hgc.symm.trans h) Bool.false_ne_true
    rw [saveNVState, hgc, if_neg Bool.false_ne_true, loadNVState, words_append,
      List.foldlM_append, haddresses]
    rw [← hwords, hgc] at hload
    exact hload
  | true =>
    obtain ⟨n, hwords⟩ := words_used cfg s (.inl rfl)
    have hdirty := foldlM_dirty_section s hgc (addressed s (init cfg address))
    have hload := foldlM_used_section cfg (r := (({ addressed s (init cfg address) with
          doing := some .dirty, row := 0, column := 0 }.loadDirty cfg s.dirty
            (cfg.numBlocks * cfg.pagesPerBlock)).seek cfg (cfg.numBlocks * cfg.pagesPerBlock)))
      s n rfl (fun h => absurd (h.symm.trans hgc) Bool.false_ne_true)
      fun _ _ hq => loadTable_of_isPage s.dirty _ hq
    rw [saveNVState, hgc, if_pos rfl, loadNVState, words_append, List.foldlM_append,
      List.filter_append, List.foldlM_append, haddresses, filter_saveDirty]
    change ∃ r, List.foldlM _ _ _ >>= _ = _ ∧ _
    rw [hdirty]
    rw [← hwords, hgc] at hload
    exact hload

theorem mem_saved {q : ℕ × ℕ} : q ∈ s.saved cfg ↔ cfg.IsPage q ∧ s.used q = true ∧
    (cfg.garbageCollect = true → s.dirty q = false) := by
  have hpage : (∃ k < cfg.numBlocks * cfg.pagesPerBlock, pageAt cfg k = q) ↔ cfg.IsPage q := by
    constructor
    · rintro ⟨k, hk, rfl⟩
      exact ⟨row_lt hk, Nat.mod_lt _ cfg.pagesPerBlock_pos⟩
    · intro hq
      exact ⟨_, index_lt hq, pageAt_eq_iff.mpr ⟨rfl, hq.2⟩⟩
  simp only [saved, List.mem_filter, List.mem_map, List.mem_range, hpage]
  cases hgc : cfg.garbageCollect <;> simp

theorem nodup_saved : (s.saved cfg).Nodup := by
  refine (List.nodup_range.map_on fun k _ l _ h => ?_).filter _
  rw [← (pageAt_eq_iff.mp h).1, (pageAt_eq_iff.mp rfl).1]

/-- **The state of a plain layer.** Address map and used table come back from the file, and one
fast write is issued to the physical address of each used page. -/
theorem load_save_plain (cfg : Config) (hplain : cfg.garbageCollect = false) (s : Ftl)
    (address : ℕ) :
    ∃ r, loadNVState cfg (init cfg address) (s.saveNVState cfg) = some r ∧
      (∀ v, r.ftl.addressMap.lookup v = s.addressMap.lookup v) ∧
      (∀ q, cfg.IsPage q → r.ftl.used q = s.used q) ∧
      (r.fastWrites.map Prod.snd).Nodup ∧
      ∀ pAddr, pAddr ∈ r.fastWrites.map Prod.snd ↔
        ∃ q, cfg.IsPage q ∧ s.used q = true ∧ cfg.pageAddr q = pAddr := by
  obtain ⟨r, hload, hwrites, hftl⟩ := load_save cfg s address
  refine ⟨r, hload, fun v => ?_, fun q hq => ?_, ?_, fun pAddr => ?_⟩
  · rw [hftl]
    exact (lookup_foldl_insert s.addressMap.nodupKeys ∅ v).trans Option.or_none
  · rw [hftl]
    exact loadTable_of_isPage s.used (fun _ => false) hq
  · rw [hwrites]
    refine nodup_saved.map_on fun p hp q hq heq => ?_
    rw [← cfg.pageOf_pageAddr (mem_saved.mp hp).1.2, heq,
      cfg.pageOf_pageAddr (mem_saved.mp hq).1.2]
  · simp only [hwrites, List.mem_map, mem_saved, hplain, Bool.false_eq_true, false_imp_iff,
      and_true, and_assoc]

/-- A device with one used page, for address 2. -/
theorem load_save_one_page : ∃ r, loadNVState (smallDevice false) (init (smallDevice false) 0)
      (saveNVState (smallDevice false) { init (smallDevice false) 0 with
        addressMap := AList.singleton 2 3, used := fun q => q = (1, 1) }) = some r ∧
    r.ftl.addressMap.lookup 2 = some 3 ∧ r.ftl.used (1, 1) = true := by
  obtain ⟨r, hload, hmap, hused, -⟩ := load_save_plain (smallDevice false) rfl
    { init (smallDevice false) 0 with
      addressMap := AList.singleton 2 3, used := fun q => q = (1, 1) } 0
  exact ⟨r, hload, hmap 2, hused (1, 1) ⟨by decide, by decide⟩⟩

end Ftl

end HybridMemory.NVDIMMSim

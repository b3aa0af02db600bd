import HybridMemory.NVMain.Migrator

/-!
# Checkpoints of the migrating decoder

`CreateCheckpoint` writes the entries of `migrationMap`, a key and a channel of eight bytes
each, and `RestoreCheckpoint` reads them back into the map of a new migrator. The file
determines the map (`migrationMap_restoreCheckpoint`).

It does not determine the decoder: the states of the pages are neither written nor set on
the way back, although the comment in `CreateCheckpoint` takes all migrations for completed.
`Translate` and `IsMigrated` look for `MIGRATION_DONE` and therefore treat every page of a
restored migrator as not migrated (a look-up that misses enters `MIGRATION_UNKNOWN`, which
they do not tell from a missing state). `restore_eq_iff` says when that goes unnoticed.
-/

namespace HybridMemory.NVMain

open Transition Function

/-! ### Words and bytes -/

/-- The `k` low bytes of a number, least significant one first. -/
def lowBytes : ℕ → ℕ → List UInt8
  | 0, _ => []
  | k + 1, n => UInt8.ofNat n :: lowBytes k (n / 256)

/-- The number with the given bytes. -/
def ofBytes : List UInt8 → ℕ
  | [] => 0
  | b :: bs => b.toNat + 256 * ofBytes bs

/-- The eight bytes of a word, as they lie in memory. -/
def wordBytes (w : UInt64) : List UInt8 := lowBytes 8 w.toNat

/-- The word that `read` takes from the front of a file. -/
def readWord (file : List UInt8) : UInt64 := UInt64.ofNat (ofBytes (file.take 8))

theorem length_lowBytes (k n : ℕ) : (lowBytes k n).length = k := by
  induction k generalizing n with
  | zero => rfl
  | succ k ih => rw [lowBytes, List.length_cons, ih]

theorem ofBytes_lowBytes (k n : ℕ) : ofBytes (lowBytes k n) = n % 256 ^ k := by
  induction k generalizing n with
  | zero => rw [lowBytes, ofBytes, pow_zero, Nat.mod_one]
  | succ k ih =>
    have hbyte : (UInt8.ofNat n).toNat = n % 256 := UInt8.toNat_ofNat'
    rw [lowBytes, ofBytes, ih, hbyte, pow_succ', Nat.mod_mul]

/-- A word that was written is read back, and the rest of the file is left. -/
theorem readWord_append (w : UInt64) (file : List UInt8) :
    readWord (wordBytes w ++ file) = w ∧ (wordBytes w ++ file).drop 8 = file := by
  have hlen : (wordBytes w).length = 8 := length_lowBytes 8 w.toNat
  constructor
  · rw [readWord, ← hlen, List.take_left, wordBytes, ofBytes_lowBytes,
      Nat.mod_eq_of_lt (by simpa using UInt64.toNat_lt w)]
    exact UInt64.ofNat_toNat
  · rw [← hlen, List.drop_left]

/-! ### Writing and reading a checkpoint -/

namespace Migrator

/-- `CreateCheckpoint`: the entries of `migrationMap`, in the order of the map. -/
def createCheckpoint (entries : List (UInt64 × UInt64)) : List UInt8 :=
  entries.flatMap fun e => wordBytes e.1 ++ wordBytes e.2

/-- The loop of `RestoreCheckpoint` over the mappings of a file. -/
def readMappings : ℕ → List UInt8 → List (UInt64 × UInt64)
  | 0, _ => []
  | n + 1, file => (readWord file, readWord (file.drop 8)) :: readMappings n ((file.drop 8).drop 8)

/-- `migrationMap.insert( migration )`, which leaves an entry that is there. -/
def insertMapping (map : UInt64 → Option UInt64) (e : UInt64 × UInt64) :
    UInt64 → Option UInt64 :=
  if (map e.1).isSome then map else update map e.1 (some e.2)

/-- `RestoreCheckpoint`. -/
def restoreCheckpoint (m : Migrator) (file : List UInt8) : Migrator :=
  { m with
    migrationMap := (readMappings (file.length / 16) file).foldl insertMapping m.migrationMap }

/-- The entries of a map, listed by increasing key. -/
structure Lists (entries : List (UInt64 × UInt64)) (map : UInt64 → Option UInt64) : Prop where
  sorted : entries.Pairwise fun x y => x.1 < y.1
  mem_iff : ∀ k v, (k, v) ∈ entries ↔ map k = some v

/-- A file that `CreateCheckpoint` writes for a migrator. -/
def Saves (file : List UInt8) (m : Migrator) : Prop :=
  ∃ entries, Lists entries m.migrationMap ∧ file = createCheckpoint entries

/-! ### The map survives -/

/-- Reading the file gives the entries that were written. -/
theorem readMappings_createCheckpoint (entries : List (UInt64 × UInt64)) :
    readMappings ((createCheckpoint entries).length / 16) (createCheckpoint entries) =
      entries := by
  have hlen : (createCheckpoint entries).length = entries.length * 16 := by
    simp only [createCheckpoint, List.length_flatMap, List.length_append, wordBytes,
      length_lowBytes, List.map_const', List.sum_replicate, smul_eq_mul]
  rw [hlen, Nat.mul_div_cancel _ (by norm_num)]
  clear hlen
  induction entries with
  | nil => rfl
  | cons e entries ih =>
    have hfile : createCheckpoint (e :: entries) =
        wordBytes e.1 ++ (wordBytes e.2 ++ createCheckpoint entries) := by
      rw [createCheckpoint, List.flatMap_cons, List.append_assoc]
      rfl
    obtain ⟨hkey, hrest⟩ := readWord_append e.1 (wordBytes e.2 ++ createCheckpoint entries)
    obtain ⟨hchannel, hdone⟩ := readWord_append e.2 (createCheckpoint entries)
    rw [List.length_cons, readMappings, hfile, hkey, hrest, hchannel, hdone, ih]

/-- The first entry of a key stays. -/
theorem foldl_insertMapping (entries : List (UInt64 × UInt64)) (map : UInt64 → Option UInt64)
    (k : UInt64) : entries.foldl insertMapping map k =
      (map k).or ((entries.find? fun e => e.1 = k).map Prod.snd) := by
  induction entries generalizing map with
  | nil => simp
  | cons e entries ih =>
    have hinsert : insertMapping map e k = (map k).or (if e.1 = k then some e.2 else none) := by
      by_cases hk : e.1 = k
      · subst hk
        cases he : map e.1 <;> simp [insertMapping, he]
      · have hne : k ≠ e.1 := Ne.symm hk
        by_cases he : (map e.1).isSome <;> simp [insertMapping, he, hk, hne]
    rw [List.foldl_cons, ih, hinsert, Option.or_assoc]
    by_cases hk : e.1 = k <;> simp [hk]

/-- **The map survives**: a new migrator that is restored has the map that was saved. -/
theorem migrationMap_restoreCheckpoint {m : Migrator} {file : List UInt8} (h : Saves file m)
    (c : MigratorConfig) :
    ((init c).restoreCheckpoint file).migrationMap = m.migrationMap := by
  obtain ⟨entries, hlists, rfl⟩ := h
  funext k
  rw [restoreCheckpoint, readMappings_createCheckpoint]
  refine (foldl_insertMapping entries _ k).trans ?_
  simp only [init, Option.none_or]
  cases hfind : entries.find? fun e => e.1 = k with
  | none =>
    cases hk : m.migrationMap k with
    | none => rfl
    | some v =>
      have hmem := (hlists.mem_iff k v).mpr hk
      simpa using List.find?_eq_none.mp hfind _ hmem
  | some e =>
    have hkey : e.1 = k := by simpa using List.find?_some hfind
    have hmem : (k, e.2) ∈ entries := hkey ▸ List.mem_of_find?_eq_some hfind
    exact ((hlists.mem_iff k e.2).mp hmem).symm

/-! ### Every migrator can be saved -/

/-- The entries after one is set: those of smaller keys, the new one, those of larger
keys. -/
theorem Lists.update {entries : List (UInt64 × UInt64)} {map : UInt64 → Option UInt64}
    (h : Lists entries map) (k v : UInt64) :
    Lists ((entries.filter fun e => e.1 < k) ++ (k, v) :: entries.filter fun e => k < e.1)
      (update map k (some v)) := by
  constructor
  · refine List.pairwise_append.mpr ⟨h.sorted.filter _, List.pairwise_cons.mpr ⟨?_,
      h.sorted.filter _⟩, ?_⟩
    · intro e he
      simpa using (List.mem_filter.mp he).2
    · intro e he e' he'
      have hlt : e.1 < k := by simpa using (List.mem_filter.mp he).2
      rcases List.mem_cons.mp he' with rfl | he'
      · exact hlt
      · exact UInt64.lt_trans hlt (by simpa using (List.mem_filter.mp he').2)
  · intro k' v'
    simp only [List.mem_append, List.mem_cons, List.mem_filter, h.mem_iff, Prod.mk.injEq,
      decide_eq_true_eq]
    by_cases hk : k' = k
    · subst hk
      simp [UInt64.lt_irrefl, eq_comm]
    · rw [update_of_ne hk]
      have htotal : k' < k ∨ k < k' := UInt64.lt_or_lt_of_ne hk
      constructor
      · rintro (⟨hmap, -⟩ | ⟨rfl, -⟩ | ⟨hmap, -⟩)
        · exact hmap
        · exact absurd rfl hk
        · exact hmap
      · intro hmap
        rcases htotal with hlt | hlt
        · exact Or.inl ⟨hmap, hlt⟩
        · exact Or.inr (Or.inr ⟨hmap, hlt⟩)

/-- A completed migration has entered its two pages in the map. -/
theorem migrationMap_complete {m m' : Migrator} {g : Migration} (h : m.complete g = some m') :
    ∃ k v k' v', m'.migrationMap =
      update (update m.migrationMap k (some v)) k' (some v') := by
  simp only [complete] at h
  split_ifs at h
  obtain ⟨m₁, hm₁, hrest⟩ := Option.bind_eq_some_iff.mp h
  obtain ⟨m₂, hm₂, hend⟩ := Option.bind_eq_some_iff.mp hrest
  obtain ⟨-, heq⟩ := Option.ite_none_right_eq_some.mp hend
  obtain rfl := Option.some.inj heq
  simp only [startMigration] at hm₁
  split_ifs at hm₁
  obtain rfl := Option.some.inj hm₁
  obtain ⟨-, hmap, -⟩ := drive_frame hm₂
  exact ⟨_, _, _, _, hmap⟩

theorem exists_saves {c : MigratorConfig} {gs : List Migration} {m : Migrator}
    (h : Run (Steps complete) (init c) gs m) : ∃ file, Saves file m := by
  have hlists : ∃ entries, Lists entries m.migrationMap := by
    refine h.invariant (P := fun m => ∃ entries, Lists entries m.migrationMap) ?_ ?_
    · exact ⟨[], List.Pairwise.nil, fun k v => by simp [init]⟩
    · rintro s g t ⟨entries, hs⟩ hstep
      obtain ⟨k, v, k', v', hmap⟩ := migrationMap_complete hstep
      rw [hmap]
      exact ⟨_, (hs.update k v).update k' v'⟩
  obtain ⟨entries, hentries⟩ := hlists
  exact ⟨_, entries, hentries, rfl⟩

/-- The map after two pages were exchanged. -/
theorem migrationMap_restoreCheckpoint_exchanged : ∃ m file,
    Run (Steps complete) (init exampleConfig) [⟨64, 0, exampleCalls⟩] m ∧ Saves file m ∧
      ((init exampleConfig).restoreCheckpoint file).migrationMap = m.migrationMap := by
  obtain ⟨m, hm, -⟩ := exists_run_of_any complete (init exampleConfig)
    [⟨64, 0, exampleCalls⟩] (fun _ => true) (by decide +kernel)
  obtain ⟨file, hfile⟩ := exists_saves hm
  exact ⟨m, file, hm, hfile, migrationMap_restoreCheckpoint hfile _⟩

/-! ### The decoder does not -/

/-- No page of a restored migrator is migrated. -/
theorem redirected_restoreCheckpoint (c : MigratorConfig) (file : List UInt8) (key : UInt64) :
    ((init c).restoreCheckpoint file).redirected key = none := if_neg (by simp [init,
      restoreCheckpoint])

/-- The translation in terms of the pages that were moved. -/
theorem translate_eq_redirected (m : Migrator) (address : UInt64) :
    m.translate address =
      match m.redirected (m.config.getAddressKey (m.config.baseTranslate address)) with
      | none => m.config.baseTranslate address
      | some channel => update (m.config.baseTranslate address) .channel channel := by
  simp only [translate, redirected]
  split_ifs with hdone
  · rfl
  · cases m.migrationMap _ <;> rfl

/-- Two migrators of one configuration that moved the same pages decode alike. -/
theorem decode_eq_of_redirected {m m' : Migrator} (hc : m'.config = m.config)
    (h : m'.redirected = m.redirected) :
    (∀ address, m'.translate address = m.translate address) ∧
      ∀ address, m'.isMigrated address = m.isMigrated address := by
  refine ⟨fun address => ?_, fun address => Prod.ext ?_ ?_⟩
  · rw [translate_eq_redirected, translate_eq_redirected, hc, h]
  · rw [isMigrated_fst, isMigrated_fst, hc, h, retranslate, retranslate, hc]
  · rw [isMigrated_snd, isMigrated_snd, retranslate, retranslate, hc]

/-- The demotee of the last migration is migrated. -/
theorem isMigrated_of_run {c : MigratorConfig} {gs : List Migration} {m : Migrator}
    (h : Run (Steps complete) (init c) gs m) (hne : gs ≠ []) :
    ∃ address, (m.isMigrated address).1 = true := by
  obtain ⟨gs, g, rfl⟩ := (List.eq_nil_or_concat' gs).resolve_left hne
  obtain ⟨m₁, -, m₂, hstep, rfl⟩ := run_append.mp h
  obtain ⟨-, -, -, hconf, hred⟩ := complete_cases hstep rfl rfl
  refine ⟨⟨g.demotee, fun _ => 0⟩, ?_⟩
  rw [isMigrated_fst, retranslate_translated, hconf, hred, update_self]
  rfl

/-- **A checkpoint round trip.** Every migrator that completed migrations lead to can be
saved, and a new migrator restored from the file translates every address, and answers
`IsMigrated`, as the saved one does if and only if no migration was completed at all. -/
theorem restore_eq_iff (c : MigratorConfig) (gs : List Migration) (m : Migrator)
    (h : Run (Steps complete) (init c) gs m) :
    (∃ file, Saves file m) ∧ ∀ file, Saves file m →
      (((∀ address, ((init c).restoreCheckpoint file).translate address = m.translate address) ∧
        ∀ address, ((init c).restoreCheckpoint file).isMigrated address = m.isMigrated address) ↔
        gs = []) := by
  refine ⟨exists_saves h, fun file _ => ⟨fun ⟨_, hsame⟩ => ?_, fun hnil => ?_⟩⟩
  · by_contra hne
    obtain ⟨address, hmigrated⟩ := isMigrated_of_run h hne
    rw [← hsame, isMigrated_fst, redirected_restoreCheckpoint] at hmigrated
    simp at hmigrated
  · subst hnil
    obtain rfl := run_nil.mp h
    refine decode_eq_of_redirected rfl (funext fun key => ?_)
    rw [redirected_restoreCheckpoint, redirected]
    exact (if_neg (by simp [init])).symm

/-- The round trip of a migrator that has exchanged two pairs of pages. -/
theorem restore_eq_iff_two_pairs : ∃ m, Run (Steps complete) (init exampleConfig)
      [⟨64, 0, exampleCalls⟩, ⟨192, 128, exampleCalls⟩] m ∧
    m.translate 192 .channel = 0 ∧ ∃ file, Saves file m ∧
      ¬ ((∀ address, ((init exampleConfig).restoreCheckpoint file).translate address =
          m.translate address) ∧
        ∀ address, ((init exampleConfig).restoreCheckpoint file).isMigrated address =
          m.isMigrated address) := by
  refine exists_run_imp (fun m => m.translate 192 .channel = 0) (by decide +kernel)
    fun m hm htranslate => ?_
  obtain ⟨⟨file, hfile⟩, hiff⟩ := restore_eq_iff exampleConfig _ m hm
  exact ⟨htranslate, file, hfile, fun hsame => List.cons_ne_nil _ _ ((hiff file hfile).mp hsame)⟩

/-- **A restored decoder forgets.** Row 0 of channel 1 was exchanged with row 0 of channel 0
and the migrator saved; after the restoration address 64 is sent to channel 1 again and is
not migrated. -/
theorem restore_forgets : ∃ m file, Run (Steps complete) (init exampleConfig)
      [⟨64, 0, exampleCalls⟩] m ∧ Saves file m ∧
    m.translate 64 .channel = 0 ∧ (m.isMigrated ⟨64, fun _ => 0⟩).1 = true ∧
    ((init exampleConfig).restoreCheckpoint file).translate 64 .channel = 1 ∧
    (((init exampleConfig).restoreCheckpoint file).isMigrated ⟨64, fun _ => 0⟩).1 = false := by
  obtain ⟨m, hm, htest⟩ := exists_run_of_any complete (init exampleConfig)
    [⟨64, 0, exampleCalls⟩] (fun m => decide (m.translate 64 .channel = 0 ∧
      (m.isMigrated ⟨64, fun _ => 0⟩).1 = true)) (by decide +kernel)
  obtain ⟨htranslate, hmigrated⟩ := of_decide_eq_true htest
  obtain ⟨file, hfile⟩ := exists_saves hm
  refine ⟨m, file, hm, hfile, htranslate, hmigrated, ?_, ?_⟩
  · rw [translate_eq_redirected, redirected_restoreCheckpoint]
    exact (by decide : exampleConfig.baseTranslate 64 .channel = 1)
  · rw [isMigrated_fst, redirected_restoreCheckpoint]
    rfl

end Migrator

end HybridMemory.NVMain

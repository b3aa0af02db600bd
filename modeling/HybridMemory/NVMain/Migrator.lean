import HybridMemory.Lib.Redirection
import HybridMemory.Lib.Transition
import HybridMemory.NVMain.AddressTranslator

/-!
# The migrating decoder

`Migrator` is an address translator that can move pages, the rows of a bank, from one
channel to another. `StartMigration` records a pair of pages that are to exchange their
channels, `SetMigrationState` follows the progress of each, and `Translate` sends a page
whose state is `MIGRATION_DONE` to its new channel.

Only the channel of a page is ever changed. A completed migration therefore exchanges two
pages only if they agree in the rest of their location; `translate_injective_iff` shows
that the translation stays injective exactly as long as this is so. The argument is that
of `Redirection`, to which `table` maps the maps of the decoder.

The maps are indexed by keys. A key is a number with the fields of a page as digits, so keys
tell pages apart if they fit in 64 bits; `keysDistinct_of_keySpan_le` says for which sizes of
the memory they do.
-/

namespace HybridMemory.NVMain

open Transition MixedRadix Function

/-- The progress of the migration of a page. -/
inductive MigratorState
  | unknown
  | reading
  | buffered
  | writing
  | done
  deriving DecidableEq

/-- The two pages of a migration: the one in the slow memory that is promoted and the one
in the fast memory that makes room for it. -/
inductive Side
  | promotee
  | demotee
  deriving DecidableEq

/-- An address: the physical one and the fields it was translated to. -/
structure NVMAddress where
  physicalAddress : UInt64
  translated : Location

/-- What a migrator is set up with: the translator it builds on and the numbers of
channels, banks, ranks and subarrays of the configuration. The translator's own arrays are
taken as fetched: by `Ready.translate_next` the first call, which fetches them, makes
no difference. -/
structure MigratorConfig where
  translator : AddressTranslator
  numChannels : UInt64
  numBanks : UInt64
  numRanks : UInt64
  numSubarrays : UInt64

namespace MigratorConfig

/-- `AddressTranslator::Translate`, as the migrator calls it on variables of its own. -/
def baseTranslate (c : MigratorConfig) (address : UInt64) : Location :=
  (c.translator.translate address fun _ => 0).1

/-- `GetAddressKey`: the key of the page of an address. -/
def getAddressKey (c : MigratorConfig) (loc : Location) : UInt64 :=
  loc .row * c.numBanks * c.numRanks * c.numSubarrays * c.numChannels
    + loc .bank * c.numRanks * c.numSubarrays * c.numChannels
    + loc .rank * c.numSubarrays * c.numChannels
    + loc .subarray * c.numChannels
    + loc .channel

end MigratorConfig

/-- The data members of `Migrator`. The maps are finite maps from the keys of pages. -/
structure Migrator where
  config : MigratorConfig
  migrationMap : UInt64 → Option UInt64
  migrationState : UInt64 → Option MigratorState
  migrating : Bool
  inputPage : UInt64
  outputPage : UInt64

namespace Migrator

/-- The migrator as its constructor and `SetConfig` leave it. -/
def init (c : MigratorConfig) : Migrator := ⟨c, fun _ => none, fun _ => none, false, 0, 0⟩

variable (m : Migrator)

/-- The migrator once `StartMigration` has recorded the pair. -/
def started (promotee demotee : NVMAddress) : Migrator :=
  let demoChannel := promotee.translated .channel
  let promoChannel := demotee.translated .channel
  let promokey := m.config.getAddressKey promotee.translated
  let demokey := m.config.getAddressKey demotee.translated
  { m with
    migrationMap := update (update m.migrationMap promokey (some promoChannel))
      demokey (some demoChannel)
    migrationState := update (update m.migrationState promokey (some .reading))
      demokey (some .reading)
    migrating := true
    inputPage := promokey
    outputPage := demokey }

/-- `StartMigration`, with its assertion that no migration is in progress. -/
def startMigration (promotee demotee : NVMAddress) : Option Migrator :=
  if m.migrating then none else some (m.started promotee demotee)

/-- The migrator once `SetMigrationState` has set the state of a page. -/
def withState (key : UInt64) (newState : MigratorState) : Migrator :=
  let migrationState := update m.migrationState key (some newState)
  { m with
    migrationState := migrationState
    migrating :=
      if migrationState m.inputPage = some .done ∧ migrationState m.outputPage = some .done
      then false else m.migrating }

/-- `SetMigrationState`, with its assertions that the page has a state and that the new
state is another one. -/
def setMigrationState (address : NVMAddress) (newState : MigratorState) : Option Migrator :=
  let key := m.config.getAddressKey address.translated
  if (m.migrationState key).isSome ∧ m.migrationState key ≠ some newState
  then some (m.withState key newState) else none

/-- The address with the fields of the untouched translation, which `IsMigrated` writes
back. -/
def retranslate (address : NVMAddress) : NVMAddress :=
  { address with translated := m.config.baseTranslate address.physicalAddress }

/-- `IsMigrated`: whether the page of the address was migrated, and the address with its
fields translated anew. -/
def isMigrated (address : NVMAddress) : Bool × NVMAddress :=
  let address := m.retranslate address
  let key := m.config.getAddressKey address.translated
  ((m.migrationMap key).isSome && decide (m.migrationState key = some .done), address)

/-- `IsBuffered`: whether the data of the page are in the swap buffer. -/
def isBuffered (address : NVMAddress) : Bool :=
  let key := m.config.getAddressKey address.translated
  (m.migrationMap key).isSome &&
    decide (m.migrationState key = some .buffered ∨ m.migrationState key = some .writing)

/-- `Translate`: the translation with the channel replaced if the page was migrated. -/
def translate (address : UInt64) : Location :=
  let loc := m.config.baseTranslate address
  let key := m.config.getAddressKey loc
  match m.migrationMap key with
  | none => loc
  | some channel =>
    if m.migrationState key = some .done then update loc .channel channel else loc

/-! ### Completed migrations -/

/-- A migration from its start to its end: the physical addresses of the two pages and the
calls of `SetMigrationState` that drive it. -/
structure Migration where
  promotee : UInt64
  demotee : UInt64
  calls : List (Side × MigratorState)

/-- The calls of `SetMigrationState` on the pages of a migration. -/
def drive (promotee demotee : NVMAddress) (m : Migrator) :
    List (Side × MigratorState) → Option Migrator
  | [] => some m
  | (side, state) :: calls =>
    (m.setMigrationState (match side with | .promotee => promotee | .demotee => demotee)
      state).bind fun m => drive promotee demotee m calls

/-- Perform a migration: of two pages in different channels neither of which is migrated,
until both are `MIGRATION_DONE`. -/
def complete (g : Migration) : Option Migrator :=
  let (promoMigrated, promotee) := m.isMigrated ⟨g.promotee, fun _ => 0⟩
  let (demoMigrated, demotee) := m.isMigrated ⟨g.demotee, fun _ => 0⟩
  if promoMigrated ∨ demoMigrated ∨
      promotee.translated .channel = demotee.translated .channel then none
  else (m.startMigration promotee demotee).bind fun m' =>
    (drive promotee demotee m' g.calls).bind fun m'' =>
      if m''.migrationState (m.config.getAddressKey promotee.translated) = some .done ∧
          m''.migrationState (m.config.getAddressKey demotee.translated) = some .done
      then some m'' else none

/-! ### What a completed migration does -/

variable {m} {m' : Migrator} {promotee demotee : NVMAddress}

/-- The channel a page was moved to. -/
def redirected (m : Migrator) (key : UInt64) : Option UInt64 :=
  if m.migrationState key = some .done then m.migrationMap key else none

@[simp] theorem isMigrated_snd (m : Migrator) (address : NVMAddress) :
    (m.isMigrated address).2 = m.retranslate address := rfl

@[simp] theorem retranslate_translated (m : Migrator) (address : NVMAddress) :
    (m.retranslate address).translated = m.config.baseTranslate address.physicalAddress := rfl

theorem started_migrationMap (m : Migrator) (promotee demotee : NVMAddress) (key : UInt64) :
    (m.started promotee demotee).migrationMap key =
      if key = m.config.getAddressKey demotee.translated then some (promotee.translated .channel)
      else if key = m.config.getAddressKey promotee.translated
        then some (demotee.translated .channel)
      else m.migrationMap key := by
  simp only [started, update_apply]

theorem started_migrationState (m : Migrator) (promotee demotee : NVMAddress) (key : UInt64) :
    (m.started promotee demotee).migrationState key =
      if key = m.config.getAddressKey demotee.translated ∨
          key = m.config.getAddressKey promotee.translated
      then some .reading else m.migrationState key := by
  simp only [started, update_apply]
  split_ifs <;> simp_all

theorem isMigrated_fst (m : Migrator) (address : NVMAddress) : (m.isMigrated address).1 =
    (m.redirected (m.config.getAddressKey (m.retranslate address).translated)).isSome := by
  simp only [isMigrated, redirected, retranslate_translated]
  split_ifs with h <;> simp [h]

theorem setMigrationState_eq_some {address : NVMAddress} {newState : MigratorState}
    (h : m.setMigrationState address newState = some m') :
    m' = m.withState (m.config.getAddressKey address.translated) newState := by
  simp only [setMigrationState] at h
  split_ifs at h
  exact (Option.some.inj h).symm

/-- The calls that drive a migration touch the states of its two pages only. -/
theorem drive_frame {calls : List (Side × MigratorState)}
    (h : drive promotee demotee m calls = some m') :
    m'.config = m.config ∧ m'.migrationMap = m.migrationMap ∧
      ∀ key, key ≠ m.config.getAddressKey promotee.translated →
        key ≠ m.config.getAddressKey demotee.translated →
        m'.migrationState key = m.migrationState key := by
  induction calls generalizing m with
  | nil =>
    obtain rfl := Option.some.inj h
    exact ⟨rfl, rfl, fun _ _ _ => rfl⟩
  | cons call calls ih =>
    obtain ⟨side, state⟩ := call
    obtain ⟨m₁, hm₁, hrest⟩ := Option.bind_eq_some_iff.mp h
    obtain rfl := setMigrationState_eq_some hm₁
    -- a call sets the state of one of the two pages, so of no other key
    obtain ⟨hconf, hmap, hstate⟩ := ih hrest
    refine ⟨hconf, hmap, fun key hp hd => (hstate key hp hd).trans ?_⟩
    cases side with
    | promotee => exact update_of_ne hp _ _
    | demotee => exact update_of_ne hd _ _

/-- **A completed migration.** It needs two pages in different channels that were not
moved, and redirects each of them to the channel of the other one. -/
theorem complete_cases {g : Migration} {promo demo : Location} (h : m.complete g = some m')
    (hpromo : m.config.baseTranslate g.promotee = promo)
    (hdemo : m.config.baseTranslate g.demotee = demo) :
    m.redirected (m.config.getAddressKey promo) = none ∧
      m.redirected (m.config.getAddressKey demo) = none ∧
      promo .channel ≠ demo .channel ∧ m'.config = m.config ∧
      m'.redirected = update
        (update m.redirected (m.config.getAddressKey promo) (some (demo .channel)))
        (m.config.getAddressKey demo) (some (promo .channel)) := by
  simp only [complete, isMigrated_fst, isMigrated_snd, retranslate_translated, hpromo,
    hdemo] at h
  split_ifs at h with hguard
  simp only [not_or, Bool.not_eq_true, Option.isSome_eq_false_iff,
    Option.isNone_iff_eq_none] at hguard
  obtain ⟨hp₀, hd₀, hch⟩ := hguard
  obtain ⟨m₁, hm₁, hrest⟩ := Option.bind_eq_some_iff.mp h
  obtain ⟨m₂, hm₂, hend⟩ := Option.bind_eq_some_iff.mp hrest
  obtain ⟨hdone, heq⟩ := Option.ite_none_right_eq_some.mp hend
  obtain rfl := Option.some.inj heq
  simp only [startMigration] at hm₁
  split_ifs at hm₁
  obtain rfl := Option.some.inj hm₁
  obtain ⟨hconf, hmap, hstate⟩ := drive_frame hm₂
  refine ⟨hp₀, hd₀, hch, hconf, ?_⟩
  funext key
  simp only [redirected, hmap, started_migrationMap, retranslate_translated, hpromo, hdemo,
    update_apply]
  -- the demotee is entered last, so its key is looked at first
  by_cases hd : key = m.config.getAddressKey demo
  · rw [if_pos hd, if_pos hd, if_pos (hd ▸ hdone.2)]
  by_cases hp : key = m.config.getAddressKey promo
  · rw [if_neg hd, if_pos hp, if_neg hd, if_pos hp, if_pos (hp ▸ hdone.1)]
  · simp only [started_migrationState, retranslate_translated, hpromo, hdemo] at hstate
    have hold := hstate key hp hd
    rw [if_neg (not_or.mpr ⟨hd, hp⟩)] at hold
    rw [if_neg hd, if_neg hp, if_neg hd, if_neg hp, hold]

end Migrator

/-! ### Pages and their keys -/

/-- The place of a page within its channel: row, bank, rank and subarray. -/
abbrev Place := UInt64 × UInt64 × UInt64 × UInt64

/-- The page of a location: its channel and its place there. -/
def page (loc : Location) : UInt64 × Place :=
  (loc .channel, loc .row, loc .bank, loc .rank, loc .subarray)

/-- The location of a column of a page. -/
def ofPage (p : UInt64 × Place) (col : UInt64) : Location :=
  MemoryPartition.fields p.2.1 col p.2.2.1 p.2.2.2.1 p.1 p.2.2.2.2

@[simp] theorem page_ofPage (p : UInt64 × Place) (col : UInt64) : page (ofPage p col) = p := rfl

@[simp] theorem ofPage_page (loc : Location) : ofPage (page loc) (loc .col) = loc := by
  funext p
  cases p <;> rfl

theorem ofPage_col (p : UInt64 × Place) (col : UInt64) : ofPage p col .col = col := rfl

namespace MigratorConfig

/-- The key of a page. -/
def pageKey (c : MigratorConfig) (p : UInt64 × Place) : UInt64 := c.getAddressKey (ofPage p 0)

theorem getAddressKey_eq (c : MigratorConfig) (loc : Location) :
    c.getAddressKey loc = c.pageKey (page loc) := rfl

/-- A configuration that makes sense: the translator is set up, the numbers of channels,
banks, ranks and subarrays are not below what the translated fields can be, and the keys
fit in 64 bits. -/
structure Valid (c : MigratorConfig) (method : TranslationMethod) : Prop where
  translator : c.translator.Configured method
  channels : 2 ^ (method.bitWidths .channel).toNat ≤ c.numChannels.toNat
  banks : 2 ^ (method.bitWidths .bank).toNat ≤ c.numBanks.toNat
  ranks : 2 ^ (method.bitWidths .rank).toNat ≤ c.numRanks.toNat
  subarrays : 2 ^ (method.bitWidths .subarray).toNat ≤ c.numSubarrays.toNat
  keys : c.numChannels.toNat * (c.numSubarrays.toNat * (c.numRanks.toNat *
    (c.numBanks.toNat * 2 ^ (method.bitWidths .row).toNat))) ≤ 2 ^ 64

/-- The page has fields that a translation can give. -/
def PageInRange (method : TranslationMethod) (p : UInt64 × Place) : Prop :=
  AddressTranslator.InRange method (ofPage p 0)

variable {c : MigratorConfig} {method : TranslationMethod}

theorem pageInRange_of_inRange {loc : Location} (h : AddressTranslator.InRange method loc) :
    PageInRange method (page loc) := by
  intro q
  have hq := h q
  cases q with
  | col => exact Nat.two_pow_pos _
  | row | bank | rank | channel | subarray => exact hq

/-- The fields of a key, the lowest first. -/
def keyFields : List MemoryPartition := [.channel, .subarray, .rank, .bank, .row]

/-- The radix of the fields of a key, where the subarrays have `rows` rows. -/
def pageRadix (c : MigratorConfig) (rows : ℕ) : MemoryPartition → ℕ :=
  MemoryPartition.fields rows 0 c.numBanks.toNat c.numRanks.toNat c.numChannels.toNat
    c.numSubarrays.toNat

theorem getAddressKey_eq_ofNat (c : MigratorConfig) (rows : ℕ) (loc : Location) :
    c.getAddressKey loc =
      UInt64.ofNat (encode (c.pageRadix rows) loc.toNat keyFields) := by
  simp only [keyFields, encode, pageRadix, MemoryPartition.fields,
    Location.toNat, Nat.mul_zero, Nat.add_zero, UInt64.ofNat_add, UInt64.ofNat_mul,
    UInt64.ofNat_toNat, getAddressKey]
  grind

/-- A key is a number in a mixed radix, computed without overflow if all keys fit. -/
theorem toNat_getAddressKey (c : MigratorConfig) {rows : ℕ}
    (hkeys : capacity (c.pageRadix rows) keyFields ≤ 2 ^ 64) {loc : Location}
    (hloc : ∀ q ∈ keyFields, loc.toNat q < c.pageRadix rows q) :
    (c.getAddressKey loc).toNat = encode (c.pageRadix rows) loc.toNat keyFields := by
  rw [getAddressKey_eq_ofNat c rows, UInt64.toNat_ofNat',
    Nat.mod_eq_of_lt ((encode_lt hloc).trans_le hkeys)]

theorem Valid.lt_pageRadix (h : c.Valid method) {loc : Location}
    (hloc : AddressTranslator.InRange method loc) :
    ∀ q ∈ keyFields, loc.toNat q < c.pageRadix (2 ^ (method.bitWidths .row).toNat) q := by
  intro q hq
  have hlt := hloc q
  cases q with
  | row => exact hlt
  | col => simp [keyFields] at hq
  | bank => exact hlt.trans_le h.banks
  | rank => exact hlt.trans_le h.ranks
  | channel => exact hlt.trans_le h.channels
  | subarray => exact hlt.trans_le h.subarrays

/-- If all keys fit, they tell the locations apart. -/
theorem eq_of_getAddressKey_eq (c : MigratorConfig) {rows : ℕ}
    (hkeys : capacity (c.pageRadix rows) keyFields ≤ 2 ^ 64) {loc loc' : Location}
    (hloc : ∀ q ∈ keyFields, loc.toNat q < c.pageRadix rows q)
    (hloc' : ∀ q ∈ keyFields, loc'.toNat q < c.pageRadix rows q)
    (heq : c.getAddressKey loc = c.getAddressKey loc') : ∀ q ∈ keyFields, loc q = loc' q := by
  have henc := (c.toNat_getAddressKey hkeys hloc).symm.trans
    ((congrArg UInt64.toNat heq).trans (c.toNat_getAddressKey hkeys hloc'))
  exact fun q hq => UInt64.toNat.inj (eq_of_encode_eq (by decide) hloc hloc' henc hq)

/-- The keys of a configuration that makes sense fit. -/
theorem Valid.capacity_le (h : c.Valid method) :
    capacity (c.pageRadix (2 ^ (method.bitWidths .row).toNat)) keyFields ≤
      2 ^ 64 := by
  simpa [keyFields, pageRadix, MemoryPartition.fields, capacity_cons] using h.keys

/-- Different pages have different keys. -/
theorem Valid.pageKey_injective (h : c.Valid method) {p q : UInt64 × Place}
    (hp : PageInRange method p) (hq : PageInRange method q) (heq : c.pageKey p = c.pageKey q) :
    p = q := by
  have hdigit : ∀ r ∈ keyFields, ofPage p 0 r = ofPage q 0 r :=
    c.eq_of_getAddressKey_eq h.capacity_le (h.lt_pageRadix hp) (h.lt_pageRadix hq) heq
  have hpage : page (ofPage p 0) = page (ofPage q 0) := by
    simp only [page, hdigit .channel (by decide), hdigit .row (by decide),
      hdigit .bank (by decide), hdigit .rank (by decide), hdigit .subarray (by decide)]
  exact hpage

/-- With a negative number of subarrays the key is the channel minus the rest. Two such keys are
equal only if those with the positive number are, once the channels are exchanged. -/
theorem getAddressKey_exchange (c : MigratorConfig) {loc loc' : Location}
    (hzero : loc .subarray = 0) (hzero' : loc' .subarray = 0)
    (heq : { c with numSubarrays := -c.numSubarrays }.getAddressKey loc =
      { c with numSubarrays := -c.numSubarrays }.getAddressKey loc') :
    c.getAddressKey (update loc .channel (loc' .channel)) =
      c.getAddressKey (update loc' .channel (loc .channel)) := by
  simp only [getAddressKey, hzero, hzero'] at heq
  simp only [getAddressKey, update_self, ne_eq, reduceCtorEq, not_false_eq_true,
    update_of_ne, hzero, hzero']
  grind

end MigratorConfig

/-! ### Keys of all geometries -/

/-- The sizes of a memory in a configuration, where `MATHeight` may be missing; `GetValue` gives
them as an `int`. -/
structure MemorySizes where
  channels : ℕ
  banks : ℕ
  ranks : ℕ
  rows : ℕ
  matHeight : Option ℕ
  channels_lt : channels < 2 ^ 31
  banks_lt : banks < 2 ^ 31
  ranks_lt : ranks < 2 ^ 31
  rows_lt : rows < 2 ^ 31
  matHeight_lt : ∀ h ∈ matHeight, 0 < h ∧ h < 2 ^ 31

namespace MemorySizes

open MigratorConfig

variable (g : MemorySizes) (translator : AddressTranslator)

/-- `SetConfig`. For a missing `MATHeight`, `GetValue` gives -1, so that the number of subarrays
becomes the negative number of rows. -/
def setConfig : MigratorConfig where
  translator := translator
  numChannels := UInt64.ofNat g.channels
  numBanks := UInt64.ofNat g.banks
  numRanks := UInt64.ofNat g.ranks
  numSubarrays := match g.matHeight with
    | some h => UInt64.ofNat (g.rows / h)
    | none => -UInt64.ofNat g.rows

/-- The rows of a subarray. -/
def subarrayRows : ℕ := g.matHeight.getD g.rows

/-- The number of subarrays. A memory without `MATHeight` has one. -/
def subarrays : ℕ := match g.matHeight with
  | some h => g.rows / h
  | none => 1

/-- The sizes of the fields. -/
def sizes : MemoryPartition → ℕ :=
  MemoryPartition.fields g.subarrayRows 0 g.banks g.ranks g.channels g.subarrays

/-- A location in the memory; its column does not matter. -/
def InRange (loc : Location) : Prop := ∀ q ∈ keyFields, (loc q).toNat < g.sizes q

/-- The keys of two locations are equal exactly if they agree in all but the column. -/
def KeysDistinct : Prop :=
  ∀ loc loc', g.InRange loc → g.InRange loc' →
    ((g.setConfig translator).getAddressKey loc = (g.setConfig translator).getAddressKey loc' ↔
      loc .row = loc' .row ∧ loc .bank = loc' .bank ∧ loc .rank = loc' .rank ∧
        loc .subarray = loc' .subarray ∧ loc .channel = loc' .channel)

/-- The number of pages. -/
def pages : ℕ := g.channels * g.subarrays * g.ranks * g.banks * g.subarrayRows

/-- How far apart keys can be. Without `MATHeight` they are spread as if there were as many
subarrays as rows. -/
def keySpan : ℕ := match g.matHeight with
  | some _ => g.pages
  | none => g.rows * g.pages

theorem capacity_sizes : capacity g.sizes keyFields = g.pages := by
  simp only [keyFields, capacity_cons, capacity_nil, sizes,
    MemoryPartition.fields, pages]
  ring

theorem subarrayRows_lt : g.subarrayRows < 2 ^ 31 := by
  rw [subarrayRows]
  cases hm : g.matHeight with
  | some h => exact (g.matHeight_lt h hm).2
  | none => exact g.rows_lt

theorem subarrays_lt : g.subarrays < 2 ^ 31 := by
  rw [subarrays]
  cases g.matHeight with
  | some h => exact (Nat.div_le_self _ _).trans_lt g.rows_lt
  | none => exact Nat.one_lt_two_pow (by decide)

theorem sizes_lt (q : MemoryPartition) : g.sizes q < 2 ^ 64 := by
  refine lt_trans ?_ (show 2 ^ 31 < 2 ^ 64 by decide)
  cases q with
  | row => exact g.subarrayRows_lt
  | col => exact Nat.two_pow_pos 31
  | bank => exact g.banks_lt
  | rank => exact g.ranks_lt
  | channel => exact g.channels_lt
  | subarray => exact g.subarrays_lt

/-! ### Enough keys -/

/-- The location with the page number `k`. -/
def location (k : ℕ) : Location := fun q =>
  UInt64.ofNat (decode g.sizes keyFields k (fun _ => 0) q)

theorem toNat_location {k : ℕ} (hk : k < capacity g.sizes keyFields)
    {q : MemoryPartition} (hq : q ∈ keyFields) :
    (g.location k q).toNat = decode g.sizes keyFields k (fun _ => 0) q ∧
      (g.location k q).toNat < g.sizes q := by
  have hpos : ∀ r ∈ keyFields, 0 < g.sizes r := by
    intro r hr
    have hdvd : g.sizes r ∣ capacity g.sizes keyFields :=
      List.dvd_prod (List.mem_map_of_mem hr)
    exact Nat.pos_of_dvd_of_pos hdvd (Nat.zero_lt_of_lt hk)
  have hlt := decode_lt (n := k) hpos hq fun _ => 0
  have htoNat : (g.location k q).toNat = decode g.sizes keyFields k (fun _ => 0) q :=
    UInt64.toNat_ofNat_of_lt' (hlt.trans (g.sizes_lt q))
  exact ⟨htoNat, htoNat ▸ hlt⟩

/-- There are not more pages than keys. -/
theorem pages_le_of_keysDistinct (h : g.KeysDistinct translator) : g.pages ≤ 2 ^ 64 := by
  rw [← capacity_sizes]
  have hinj : Function.Injective fun k : Fin (capacity g.sizes keyFields) =>
      ((g.setConfig translator).getAddressKey (g.location k)).toFin := by
    intro k k' heq
    obtain ⟨hrow, hbank, hrank, hsub, hchannel⟩ := (h (g.location k) (g.location k')
      (fun q hq => (g.toNat_location k.2 hq).2) fun q hq => (g.toNat_location k'.2 hq).2).mp
      (UInt64.toFin_inj.mp heq)
    have hdigits : ∀ q ∈ keyFields, decode g.sizes keyFields k (fun _ => 0) q =
        decode g.sizes keyFields k' (fun _ => 0) q := by
      intro q hq
      rw [← (g.toNat_location k.2 hq).1, ← (g.toNat_location k'.2 hq).1]
      cases q with
      | row => rw [hrow]
      | col => simp [keyFields] at hq
      | bank => rw [hbank]
      | rank => rw [hrank]
      | channel => rw [hchannel]
      | subarray => rw [hsub]
    exact Fin.ext (eq_of_decode_eq (by decide) k.2 k'.2 hdigits)
  simpa [UInt64.size] using Fintype.card_le_of_injective _ hinj

/-! ### Keys that fit -/

theorem toNat_ofNat {k : ℕ} (hk : k < 2 ^ 31) : (UInt64.ofNat k).toNat = k :=
  UInt64.toNat_ofNat_of_lt' (hk.trans (by decide))

/-- The radix of the keys for a number of subarrays that is positive. -/
theorem pageRadix_eq (k : ℕ) (hk : k < 2 ^ 31) :
    { g.setConfig translator with numSubarrays := UInt64.ofNat k }.pageRadix g.subarrayRows =
      MemoryPartition.fields g.subarrayRows 0 g.banks g.ranks g.channels k := by
  simp only [pageRadix, setConfig, toNat_ofNat g.channels_lt, toNat_ofNat g.banks_lt,
    toNat_ofNat g.ranks_lt, toNat_ofNat hk]

theorem eq_of_key_eq_some {h : ℕ} (hm : g.matHeight = some h) (hspan : g.pages ≤ 2 ^ 64)
    {loc loc' : Location} (hloc : g.InRange loc) (hloc' : g.InRange loc')
    (heq : (g.setConfig translator).getAddressKey loc =
      (g.setConfig translator).getAddressKey loc') : ∀ q ∈ keyFields, loc q = loc' q := by
  have hsub : (g.setConfig translator).numSubarrays = UInt64.ofNat g.subarrays := by
    simp only [setConfig, subarrays, hm]
  have hradix : (g.setConfig translator).pageRadix g.subarrayRows = g.sizes := by
    have hpage := g.pageRadix_eq translator g.subarrays g.subarrays_lt
    rwa [← hsub] at hpage
  have hkeys : capacity ((g.setConfig translator).pageRadix g.subarrayRows) keyFields ≤
      2 ^ 64 := by
    rw [hradix, capacity_sizes]
    exact hspan
  refine (g.setConfig translator).eq_of_getAddressKey_eq hkeys ?_ ?_ heq
  · rw [hradix]
    exact hloc
  · rw [hradix]
    exact hloc'

theorem subarray_eq_zero (hm : g.matHeight = none) {loc : Location} (h : g.InRange loc) :
    loc .subarray = 0 := by
  have hlt : (loc .subarray).toNat < g.subarrays := h .subarray (by decide)
  simp only [subarrays, hm] at hlt
  exact UInt64.toNat.inj (Nat.lt_one_iff.mp hlt)

theorem rows_pos (hm : g.matHeight = none) {loc : Location} (h : g.InRange loc) : 0 < g.rows := by
  have hlt : (loc .row).toNat < g.subarrayRows := h .row (by decide)
  rw [subarrayRows, hm] at hlt
  exact Nat.zero_lt_of_lt hlt

theorem eq_of_key_eq_none (hm : g.matHeight = none) (hspan : g.rows * g.pages ≤ 2 ^ 64)
    {loc loc' : Location} (hloc : g.InRange loc) (hloc' : g.InRange loc')
    (heq : (g.setConfig translator).getAddressKey loc =
      (g.setConfig translator).getAddressKey loc') : ∀ q ∈ keyFields, loc q = loc' q := by
  let c : MigratorConfig := { g.setConfig translator with numSubarrays := UInt64.ofNat g.rows }
  have hconfig : g.setConfig translator = { c with numSubarrays := -c.numSubarrays } := by
    simp only [c, setConfig, hm]
  have hradix : c.pageRadix g.subarrayRows =
      MemoryPartition.fields g.subarrayRows 0 g.banks g.ranks g.channels g.rows :=
    g.pageRadix_eq translator g.rows g.rows_lt
  have hcap : capacity (c.pageRadix g.subarrayRows) keyFields ≤ 2 ^ 64 := by
    have hone : g.subarrays = 1 := by simp only [subarrays, hm]
    refine le_of_eq_of_le ?_ hspan
    rw [hradix, pages, hone]
    simp only [keyFields, capacity_cons, capacity_nil,
      MemoryPartition.fields]
    ring
  -- the keys that are compared have the channel of the other location
  have hrange {loc loc' : Location} (h : g.InRange loc) (h' : g.InRange loc') :
      ∀ q ∈ keyFields, Location.toNat (update loc .channel (loc' .channel)) q <
        c.pageRadix g.subarrayRows q := by
    intro q hq
    rw [hradix]
    cases q with
    | row => exact h .row hq
    | col => simp [keyFields] at hq
    | bank => exact h .bank hq
    | rank => exact h .rank hq
    | channel => exact h' .channel hq
    | subarray =>
      simpa [Location.toNat, update_of_ne, g.subarray_eq_zero hm h,
        MemoryPartition.fields] using g.rows_pos hm h
  rw [hconfig] at heq
  have hdigit := c.eq_of_getAddressKey_eq hcap (hrange hloc hloc') (hrange hloc' hloc)
    (c.getAddressKey_exchange (g.subarray_eq_zero hm hloc) (g.subarray_eq_zero hm hloc') heq)
  intro q hq
  by_cases hq' : q = .channel
  · subst hq'
    simpa using (hdigit .channel hq).symm
  · simpa [update_of_ne hq'] using hdigit q hq

/-- **Keys and pages.** Keys tell the pages apart if they fit in 64 bits, and then there are at
most `2 ^ 64` pages. If `MATHeight` is given, the keys fit exactly if there are at most `2 ^ 64`
pages; otherwise they are spread over as many times more numbers as there are rows. -/
theorem keysDistinct_of_keySpan_le :
    (g.keySpan ≤ 2 ^ 64 → g.KeysDistinct translator) ∧
      (g.KeysDistinct translator → g.pages ≤ 2 ^ 64) ∧
      (g.matHeight.isSome → (g.KeysDistinct translator ↔ g.pages ≤ 2 ^ 64)) := by
  have hdistinct (hspan : g.keySpan ≤ 2 ^ 64) : g.KeysDistinct translator := by
    intro loc loc' hloc hloc'
    constructor
    · intro heq
      have hdigit : ∀ q ∈ keyFields, loc q = loc' q := by
        cases hm : g.matHeight with
        | some h =>
          rw [keySpan, hm] at hspan
          exact g.eq_of_key_eq_some translator hm hspan hloc hloc' heq
        | none =>
          rw [keySpan, hm] at hspan
          exact g.eq_of_key_eq_none translator hm hspan hloc hloc' heq
      exact ⟨hdigit .row (by decide), hdigit .bank (by decide), hdigit .rank (by decide),
        hdigit .subarray (by decide), hdigit .channel (by decide)⟩
    · rintro ⟨hrow, hbank, hrank, hsub, hchannel⟩
      rw [getAddressKey, getAddressKey, hrow, hbank, hrank, hsub, hchannel]
  refine ⟨hdistinct, g.pages_le_of_keysDistinct translator, fun hsome => ?_⟩
  refine ⟨g.pages_le_of_keysDistinct translator, fun hpages => hdistinct ?_⟩
  obtain ⟨h, hm⟩ := Option.isSome_iff_exists.mp hsome
  rw [keySpan, hm]
  exact hpages

/-- A memory of four channels with 24 banks, whose rows are in four subarrays. -/
private def smallMemory : MemorySizes where
  channels := 4
  banks := 8
  ranks := 3
  rows := 64
  matHeight := some 16
  channels_lt := by decide
  banks_lt := by decide
  ranks_lt := by decide
  rows_lt := by decide
  matHeight_lt := by simp

/-- Its 6144 pages have different keys. -/
theorem keysDistinct_small :
    smallMemory.pages = 6144 ∧ smallMemory.KeysDistinct ⟨none, none, 64, 8⟩ :=
  ⟨rfl, (smallMemory.keysDistinct_of_keySpan_le ⟨none, none, 64, 8⟩).1 (by decide)⟩

/-- A memory of `2 ^ 66` pages, with four rows in each of its banks. -/
private def hugeMemory : MemorySizes where
  channels := 16
  banks := 2 ^ 30
  ranks := 2 ^ 30
  rows := 4
  matHeight := some 4
  channels_lt := by decide
  banks_lt := by decide
  ranks_lt := by decide
  rows_lt := by decide
  matHeight_lt := by simp

/-- The rows of a bank have the same key. -/
theorem rows_confused :
    ∃ (g : MemorySizes) (translator : AddressTranslator) (loc loc' : Location),
      g.InRange loc ∧ g.InRange loc' ∧ loc .row ≠ loc' .row ∧
      (g.setConfig translator).getAddressKey loc = (g.setConfig translator).getAddressKey loc' := by
  refine ⟨hugeMemory, ⟨none, none, 64, 8⟩, MemoryPartition.fields 0 0 0 0 0 0,
    MemoryPartition.fields 1 0 0 0 0 0, ?_, ?_, by decide, by decide⟩ <;>
    simp [InRange, keyFields, sizes, MemoryPartition.fields, hugeMemory, subarrayRows, subarrays]

end MemorySizes

namespace Migrator

open MigratorConfig Redirection

/-! ### The migrator as a redirection of pages -/

open Classical in
/-- The redirection of pages that the maps of a migrator stand for. -/
noncomputable def table (m : Migrator) (method : TranslationMethod) : Table UInt64 Place :=
  fun p => if PageInRange method p then m.redirected (m.config.pageKey p) else none

variable {m m' : Migrator} {c : MigratorConfig} {method : TranslationMethod}

theorem inRange_baseTranslate (hc : c.Valid method) (address : UInt64) :
    AddressTranslator.InRange method (c.baseTranslate address) :=
  hc.translator.inRange_translate address _

theorem pageInRange_baseTranslate (hc : c.Valid method) (address : UInt64) :
    PageInRange method (page (c.baseTranslate address)) :=
  pageInRange_of_inRange (inRange_baseTranslate hc address)

/-- Every page in range is the page of an address. -/
theorem exists_baseTranslate (hc : c.Valid method) {p : UInt64 × Place}
    (hp : PageInRange method p) : ∃ address, c.baseTranslate address = ofPage p 0 := by
  obtain ⟨address, -, -, htr⟩ := hc.translator.translate_reverseTranslate hp
  exact ⟨address, htr _⟩

/-- `Translate` redirects the page of an address and keeps its column. -/
theorem translate_eq (hc : m.config.Valid method) (address : UInt64) :
    m.translate address = ofPage (redirect (m.table method) (page (m.config.baseTranslate address)))
      (m.config.baseTranslate address .col) := by
  set loc := m.config.baseTranslate address with hloc
  have hrange : PageInRange method (page loc) := pageInRange_baseTranslate hc address
  have htable : m.table method (page loc) = m.redirected (m.config.getAddressKey loc) :=
    if_pos hrange
  simp only [translate, ← hloc]
  cases hmap : m.migrationMap (m.config.getAddressKey loc) with
  | none =>
    have hnone : m.redirected (m.config.getAddressKey loc) = none := by
      simp [redirected, hmap]
    rw [redirect_of_none (htable.trans hnone), ofPage_page]
  | some ch =>
    simp only
    split_ifs with hdone
    · have hsome : m.redirected (m.config.getAddressKey loc) = some ch := by
        simp [redirected, hdone, hmap]
      rw [redirect_of_some (htable.trans hsome)]
      funext q
      cases q <;> rfl
    · have hnone : m.redirected (m.config.getAddressKey loc) = none := if_neg hdone
      rw [redirect_of_none (htable.trans hnone), ofPage_page]

/-- A completed migration exchanges its two pages. -/
theorem table_complete {g : Migration} (hc : m.config.Valid method)
    (h : m.complete g = some m') :
    m'.table method = swap (m.table method) (page (m.config.baseTranslate g.promotee))
      (page (m.config.baseTranslate g.demotee)) := by
  obtain ⟨-, -, -, hconf, hred⟩ := complete_cases h rfl rfl
  have hp := pageInRange_baseTranslate hc g.promotee
  have hd := pageInRange_baseTranslate hc g.demotee
  funext q
  simp only [table, hconf, hred, Redirection.swap, update_apply, getAddressKey_eq]
  by_cases hq : PageInRange method q
  · have hiff : ∀ {r}, PageInRange method r →
        (m.config.pageKey q = m.config.pageKey r ↔ q = r) := fun hr =>
      ⟨hc.pageKey_injective hq hr, congrArg _⟩
    simp only [if_pos hq, hiff hp, hiff hd]
    rfl
  · have hne : ∀ {r}, PageInRange method r → q ≠ r := fun hr heq => hq (heq ▸ hr)
    rw [if_neg hq, if_neg (hne hd), if_neg (hne hp), if_neg hq]

/-- The translation is injective: it does not send different locations to one. -/
def Injective (m : Migrator) : Prop :=
  ∀ a b, m.config.baseTranslate a ≠ m.config.baseTranslate b → m.translate a ≠ m.translate b

theorem injective_of_involutive (hc : m.config.Valid method)
    (h : Involutive (m.table method)) : m.Injective := by
  intro a b hne heq
  rw [translate_eq hc, translate_eq hc] at heq
  have hpage := h.injective (congrArg page heq)
  have hcol := congrFun heq .col
  refine hne ?_
  rw [← ofPage_page (m.config.baseTranslate a), ← ofPage_page (m.config.baseTranslate b), hpage]
  exact congrArg _ hcol

/-- Two pages that are found at the same place break the injectivity. -/
theorem not_injective_of_collision (hc : m.config.Valid method) {p q : UInt64 × Place}
    (hp : PageInRange method p) (hq : PageInRange method q) (hne : p ≠ q)
    (heq : redirect (m.table method) p = redirect (m.table method) q) : ¬ m.Injective := by
  obtain ⟨a, ha⟩ := exists_baseTranslate hc hp
  obtain ⟨b, hb⟩ := exists_baseTranslate hc hq
  intro hinj
  refine hinj a b (fun h => hne ?_) ?_
  · rw [ha, hb] at h
    exact congrArg page h
  · rw [translate_eq hc, translate_eq hc, ha, hb, page_ofPage, page_ofPage, heq, ofPage_col,
      ofPage_col]

/-- Under an involution the pages that are found in range are in range. -/
theorem pageInRange_redirect (h : Involutive (m.table method)) {p : UInt64 × Place}
    (hp : PageInRange method p) : PageInRange method (redirect (m.table method) p) := by
  by_contra hout
  have hnone : m.table method (redirect (m.table method) p) = none := if_neg hout
  have hfix := redirect_of_none hnone
  rw [h p] at hfix
  exact hout (hfix ▸ hp)

/-! ### Injectivity along the completed migrations -/

/-- The two pages of a migration have the same place in their channels. -/
def Aligned (c : MigratorConfig) (g : Migration) : Prop :=
  (page (c.baseTranslate g.promotee)).2 = (page (c.baseTranslate g.demotee)).2

instance (c : MigratorConfig) (g : Migration) : Decidable (Aligned c g) :=
  inferInstanceAs (Decidable (_ = _))

/-- What completed migrations of aligned pages keep. -/
def Swapped (c : MigratorConfig) (method : TranslationMethod) (m : Migrator) : Prop :=
  m.config = c ∧ Involutive (m.table method)

theorem swapped_init (c : MigratorConfig) (method : TranslationMethod) :
    Swapped c method (init c) := by
  refine ⟨rfl, ?_⟩
  have : (init c).table method = Table.empty := by
    funext p
    simp [table, redirected, init, Table.empty]
  rw [this]
  exact involutive_empty

/-- The two pages of a migration were not moved before and are in different channels. -/
theorem complete_pages {g : Migration} {p d : UInt64 × Place} (method : TranslationMethod)
    (h : m.complete g = some m')
    (hp : page (m.config.baseTranslate g.promotee) = p)
    (hd : page (m.config.baseTranslate g.demotee) = d) :
    m.table method p = none ∧ m.table method d = none ∧ p.1 ≠ d.1 ∧ m'.config = m.config := by
  obtain ⟨hp₀, hd₀, hch, hconf, -⟩ := complete_cases h rfl rfl
  rw [getAddressKey_eq, hp] at hp₀
  rw [getAddressKey_eq, hd] at hd₀
  refine ⟨by simp [table, hp₀], by simp [table, hd₀], ?_, hconf⟩
  rwa [← hp, ← hd]

/-- The place of one page in the channel of another one is in range. -/
theorem pageInRange_cross {p d : UInt64 × Place} (hp : PageInRange method p)
    (hd : PageInRange method d) : PageInRange method (d.1, p.2) := by
  intro q
  cases q with
  | channel => exact hd .channel
  | col => exact Nat.two_pow_pos _
  | row => exact hp .row
  | bank => exact hp .bank
  | rank => exact hp .rank
  | subarray => exact hp .subarray

theorem Swapped.complete {g : Migration} (hc : c.Valid method) (hm : Swapped c method m)
    (h : m.complete g = some m') (hg : Aligned c g) : Swapped c method m' := by
  obtain ⟨rfl, hinv⟩ := hm
  obtain ⟨hp, hd, hch, hconf⟩ := complete_pages method h rfl rfl
  refine ⟨hconf, ?_⟩
  rw [table_complete hc h]
  exact hinv.swap hp hd hch hg

theorem Swapped.not_injective {g : Migration} (hc : c.Valid method) (hm : Swapped c method m)
    (h : m.complete g = some m') (hg : ¬ Aligned c g) : ¬ m'.Injective := by
  obtain ⟨rfl, hinv⟩ := hm
  have hprange := pageInRange_baseTranslate hc g.promotee
  have hdrange := pageInRange_baseTranslate hc g.demotee
  have htable := table_complete hc h
  unfold Aligned at hg
  generalize hp : page (m.config.baseTranslate g.promotee) = p at hprange htable hg
  generalize hd : page (m.config.baseTranslate g.demotee) = d at hdrange htable hg
  obtain ⟨hp₀, -, hch, hconf⟩ := complete_pages method h hp hd
  obtain ⟨hne, hcoll⟩ := hinv.not_injective_swap hp₀ hch hg
  rw [← htable] at hcoll
  exact not_injective_of_collision (hconf ▸ hc)
    (pageInRange_redirect hinv (pageInRange_cross hprange hdrange)) hprange hne hcoll

/-- **Injectivity of the migrating decoder.** After each of a sequence of completed
migrations the translation is injective, if and only if the pages of every pair agree in
row, bank, rank and subarray. -/
theorem translate_injective_iff (c : MigratorConfig) (method : TranslationMethod)
    (hc : c.Valid method) (gs : List Migration) (m : Migrator)
    (h : Run (Steps complete) (init c) gs m) :
    (∀ u, Visits (Steps complete) (init c) gs u → u.Injective) ↔ ∀ g ∈ gs, Aligned c g := by
  rw [forall_visits_iff (G := fun _ g => Aligned c g) (I := Swapped c method)
    (fun u hu => injective_of_involutive (hu.1 ▸ hc) hu.2)
    (fun u g u' hu hstep hg => hu.complete hc hstep hg)
    (fun u g u' hu hstep hg => hu.not_injective hc hstep hg)
    (swapped_init c method) h, run_guarded_iff_forall, and_iff_right h]

/-- A memory with two channels and two rows, one bit of an address each. -/
def exampleConfig : MigratorConfig where
  translator := ⟨some ⟨MemoryPartition.fields 1 0 0 0 1 0,
    MemoryPartition.fields 5 0 1 2 4 3⟩, none, 64, 8⟩
  numChannels := 2
  numBanks := 1
  numRanks := 1
  numSubarrays := 1

/-- The calls of a migration that is read, buffered and written. -/
def exampleCalls : List (Side × MigratorState) :=
  [(.promotee, .buffered), (.demotee, .buffered), (.demotee, .writing), (.promotee, .writing),
    (.demotee, .done), (.promotee, .done)]

theorem valid_exampleConfig : exampleConfig.Valid
    ⟨MemoryPartition.fields 1 0 0 0 1 0, MemoryPartition.fields 5 0 1 2 4 3⟩ where
  translator := ⟨⟨rfl, Or.inl rfl, ⟨by decide, by decide, by
    intro p q; cases p <;> cases q <;> decide⟩, by decide, by decide, by decide⟩, by decide⟩
  channels := by decide
  banks := by decide
  ranks := by decide
  subarrays := by decide
  keys := by decide

/-- Row 0 of channel 1 exchanged with row 0 of channel 0. -/
theorem translate_injective_iff_aligned :
    ∃ m, Run (Steps complete) (init exampleConfig) [⟨64, 0, exampleCalls⟩] m ∧
      ∀ u, Visits (Steps complete) (init exampleConfig) [⟨64, 0, exampleCalls⟩] u →
        u.Injective :=
  exists_run_imp (fun _ => True) (by decide) fun m hm _ =>
    (translate_injective_iff exampleConfig _ valid_exampleConfig _ m hm).mpr (by decide)

/-- **Two pages in one place.** Row 0 of channel 1 is exchanged with row 1 of channel 0;
then row 0 of channel 1 and row 0 of channel 0 are both found at row 0 of channel 0. -/
theorem translate_not_injective :
    ∃ m, Run (Steps complete) (init exampleConfig) [⟨64, 128, exampleCalls⟩] m ∧
      ¬ m.Injective :=
  exists_run_imp (fun m => m.config.baseTranslate 64 ≠ m.config.baseTranslate 0 ∧
    m.translate 64 = m.translate 0) (by decide +kernel) fun _ _ hs hinj => hinj 64 0 hs.1 hs.2

end Migrator

end HybridMemory.NVMain

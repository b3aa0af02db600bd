import HybridMemory.NVMain.BufferDecoders
import HybridMemory.NVMain.Migrator

/-!
# The channels of a hybrid memory

`FineNVMain` has memory controllers for the channels of the main memory, and for those of a
buffer that is reserved in addition. The addresses below the size of the main memory belong to
the former. `IsIssuable`, `IssueCommand` and `IssueAtomic` each find the controller of a request
for themselves: by the decoder of its region, and then in one of the two arrays of controllers,
or in the list of the children, which has the main memory first.

* `selects_same_iff`: the three find one and the same controller, which exists, exactly for the
  addresses of the main memory (whose decoder must not be the one of a buffer, for which nobody
  sets a width);
* `buffer_address_differs`: for an address of the buffer, `IsIssuable` and `IssueCommand` agree,
  but `IssueAtomic` takes an index beyond the array of the main memory;
* `buffer_round_trip_iff`: the decoder of the buffer is given the width of the fields of the
  buffer, not that of an address of the main memory; the condition under which it distinguishes
  the lines of the buffer.

What a decoder does before it has been set up is left in the model: a variable that nobody has
written holds any value. The prefetch buffer that `IssueCommand` and `IssueAtomic` look into
before they choose a controller is left out.
-/

namespace HybridMemory.NVMain

open MemoryPartition TranslationMethod Transition MixedRadix

/-! ### Decoders -/

/-- The decoders that `CreateNewDecoder` knows; other names stand for the default one. -/
inductive DecoderName
  | default
  | drcDecoder
  | migrator
  | bufferDecoder
  deriving DecidableEq

/-- A decoder. -/
inductive Decoder
  | default (t : AddressTranslator)
  | drcDecoder (d : DRCDecoder)
  | migrator (m : Migrator)
  | bufferDecoder (d : BufferDecoder)

namespace Decoder

/-- `CreateNewDecoder`. Nobody sets the numbers that a `Migrator` keeps, which are taken from
`unset`. -/
def create (unset : MigratorConfig) : DecoderName → Decoder
  | .default => .default .init
  | .drcDecoder => .drcDecoder .init
  | .migrator => .migrator (.init { unset with translator := .init })
  | .bufferDecoder => .bufferDecoder .init

/-- `SetTranslationMethod`, of a method with its counts. -/
def setTranslationMethod (method : TranslationMethod) (count : MemoryPartition → UInt64) :
    Decoder → Decoder
  | .default t => .default (t.setTranslationMethod method)
  | .drcDecoder d => .drcDecoder { d with method := some method, count := count }
  | .migrator m =>
    .migrator { m with
      config := { m.config with translator := m.config.translator.setTranslationMethod method } }
  | .bufferDecoder d => .bufferDecoder (d.setTranslationMethod method)

/-- `SetAddrWidth`, which is for buffers only. -/
def setAddrWidth (width : ℕ) : Decoder → Decoder
  | .bufferDecoder d => .bufferDecoder (d.setAddrWidth width)
  | d => d

/-- `Translate`, where `out` is what the six variables hold before; none if the program does
not return. -/
def translate (address : UInt64) (out : Location) : Decoder → Option Location
  | .default t => some (t.translate address out).1
  | .drcDecoder d => d.translate address
  | .migrator m => some (m.translate address)
  | .bufferDecoder d => d.translate address out

end Decoder

/-! ### Configurations -/

/-- What `SetTranslators` reads for a region of the memory. `mlog2` takes an `int`. -/
structure RegionParams where
  cols : ℕ := 32
  rows : ℕ := 65536
  banks : ℕ := 8
  ranks : ℕ := 2
  channels : ℕ := 2
  tBURST : ℕ := 4
  rate : ℕ := 2
  busWidth : ℕ := 64
  /-- The configuration has a value for `MATHeight`. -/
  hasMatHeight : Bool := false
  decoder : DecoderName := .default
  /-- The fields that the mapping scheme names. -/
  addressMappingScheme : List MemoryPartition := [.row, .rank, .bank, .channel, .col]
  rows_pos : 0 < rows := by decide
  channels_lt : channels < 2 ^ 31 := by decide
  scheme_nodup : addressMappingScheme.Nodup := by decide

/-- A configuration of `FineNVMain`. -/
structure FineConfig where
  main : RegionParams := {}
  matHeight : ℕ := 65536
  reservedChannels : ℕ := 0
  /-- The configuration of the first reserved channel. -/
  reserved : RegionParams := {}
  dramBufferDecoder : DecoderName := .bufferDecoder

namespace RegionParams

variable (r : RegionParams) (matHeight : ℕ)

/-- The number of subarrays; the height of a mat is that of the main memory for both regions. -/
def subarrays : ℕ :=
  if r.hasMatHeight then matHeight / r.rows else 1

/-- The widths of the fields. -/
def bitWidths : MemoryPartition → ℕ :=
  fields (mlog2 r.rows) (mlog2 r.cols) (mlog2 r.banks) (mlog2 r.ranks) (mlog2 r.channels)
    (mlog2 (r.subarrays matHeight))

/-- The sum of the widths. -/
def bitWidth : ℕ :=
  (all.map (r.bitWidths matHeight)).sum

/-- The bytes of one access. -/
def wordSize : UInt64 :=
  .ofNat r.tBURST * .ofNat r.rate * .ofNat r.busWidth / 8

/-- The bytes of the region. -/
def memSize : UInt64 :=
  r.wordSize * .ofNat r.cols * .ofNat r.rows * .ofNat r.banks * .ofNat r.ranks *
    .ofNat r.channels * .ofNat (r.subarrays matHeight)

/-- The method that `SetTranslators` makes. -/
def method : Option TranslationMethod :=
  (TranslationMethod.init.setBitWidths fun p =>
    .ofNat (r.bitWidths matHeight p)).setAddressMappingScheme (scheme r.addressMappingScheme)

/-- The counts of that method. -/
def count : MemoryPartition → UInt64 :=
  fields (.ofNat r.rows) (.ofNat r.cols) (.ofNat r.banks) (.ofNat r.ranks) (.ofNat r.channels)
    (.ofNat (r.subarrays matHeight))

/-- `SetTranslators`: a new decoder takes the place of the old one. -/
def setTranslators (unset : MigratorConfig) : Option Decoder :=
  (r.method matHeight).map fun method =>
    (Decoder.create unset r.decoder).setTranslationMethod method (r.count matHeight)

end RegionParams

/-- The members of `FineNVMain` that choose a controller. -/
structure FineNVMain where
  memSize : UInt64
  numChannels : ℕ
  reservedChannels : ℕ
  decoder : Decoder
  cacheTranslator : Decoder

/-- The memory controllers. -/
inductive Controller
  | main (i : ℕ)
  | reserved (i : ℕ)
  deriving DecidableEq

namespace FineNVMain

/-- `SetConfig`. Without reserved channels, the decoder of the buffer is not set up. -/
def setConfig (c : FineConfig) (unset : MigratorConfig) : Option FineNVMain :=
  (c.main.setTranslators c.matHeight unset).bind fun decoder =>
    (if c.reservedChannels = 0 then some (Decoder.create unset c.dramBufferDecoder)
      else (c.reserved.setTranslators c.matHeight unset).map
        (Decoder.setAddrWidth (c.reserved.bitWidth c.matHeight))).map fun cacheTranslator =>
      { memSize := c.main.memSize c.matHeight
        numChannels := c.main.channels
        reservedChannels := c.reservedChannels
        decoder := decoder
        cacheTranslator := cacheTranslator }

variable (n : FineNVMain) (pa : UInt64) (out : Location)

/-- `memoryControllers[i]`. -/
def memoryControllers (i : ℕ) : Option Controller :=
  if i < n.numChannels then some (.main i) else none

/-- `reservedControllers[i]`. -/
def reservedControllers (i : ℕ) : Option Controller :=
  if i < n.reservedChannels then some (.reserved i) else none

/-- `GetChild( i )`: the controllers of the main memory were added first. -/
def getChild (i : ℕ) : Option Controller :=
  if i < n.numChannels then some (.main i) else n.reservedControllers (i - n.numChannels)

/-- The controller that `IsIssuable` asks about a physical address. -/
def isIssuable : Option Controller :=
  if pa < n.memSize then
    (n.decoder.translate pa out).bind fun loc => n.memoryControllers (loc .channel).toNat
  else
    (n.cacheTranslator.translate pa out).bind fun loc => n.reservedControllers (loc .channel).toNat

/-- The controller to which `IssueCommand` sends a request for a physical address. The decoder
finds the child for an address of the main memory in the fields of the request, which were set
before. -/
def issueCommand : Option Controller :=
  if pa < n.memSize then
    (n.decoder.translate pa out).bind fun loc => n.getChild (loc .channel).toNat
  else
    (n.cacheTranslator.translate pa out).bind fun loc =>
      n.getChild (loc .channel + .ofNat n.numChannels).toNat

/-- The controller to which `IssueAtomic` sends a request for a physical address. -/
def issueAtomic : Option Controller :=
  if pa < n.memSize then
    (n.decoder.translate pa out).bind fun loc => n.memoryControllers (loc .channel).toNat
  else
    (n.cacheTranslator.translate pa out).bind fun _ =>
      n.memoryControllers (n.reservedChannels + n.numChannels)

/-- The three find the same controller, which exists, whatever their variables hold before. -/
def SelectsSame : Prop :=
  ∃ k, ∀ out, n.isIssuable pa out = some k ∧ n.issueCommand pa out = some k ∧
    n.issueAtomic pa out = some k

/-! ### Migrations -/

/-- What a migrator does to the decoder of the main memory. -/
inductive Action
  | startMigration (promotee demotee : UInt64)
  | setMigrationState (address : UInt64) (state : MigratorState)

/-- One step; none if the decoder is no migrator, or an assertion fails. -/
def step (a : Action) : Option FineNVMain :=
  match n.decoder with
  | .migrator m =>
    let page := fun address : UInt64 => m.retranslate ⟨address, fun _ => 0⟩
    (match a with
      | .startMigration promotee demotee => m.startMigration (page promotee) (page demotee)
      | .setMigrationState address state => m.setMigrationState (page address) state).map fun m =>
      { n with decoder := .migrator m }
  | _ => none

end FineNVMain

/-! ### The channel of an address -/

/-- The channel that a list of decoded fields gives is below the number of channels, and does
not depend on what the variables hold before. -/
theorem exists_channel_translateParts {bitWidths : MemoryPartition → UInt32}
    {ps : List MemoryPartition} (hchannel : .channel ∈ ps)
    (hw : ∀ p ∈ ps, (bitWidths p).toNat < 64) (refAddress : UInt64) :
    ∃ channel : UInt64, channel.toNat < 2 ^ (bitWidths .channel).toNat ∧
      ∀ out, translateParts bitWidths (ps.map some) refAddress out .channel = channel := by
  refine ⟨translateParts bitWidths (ps.map some) refAddress (fun _ => 0) .channel, ?_,
    fun out => ?_⟩
  · rw [toNat_translateParts hw]
    exact decode_lt (fun q _ => Nat.two_pow_pos _) hchannel _
  · refine UInt64.toNat.inj ?_
    rw [toNat_translateParts hw, toNat_translateParts hw]
    exact decode_congr hchannel _ _

/-- A translator has a method with a proper order and a field of `w` bits for the channel. -/
structure AddressTranslator.HasChannels (t : AddressTranslator) (w : ℕ) : Prop where
  method : ∃ m, t.method = some m ∧ IsOrder m.order ∧ (m.bitWidths .channel).toNat = w ∧
    ∀ p, (m.bitWidths p).toNat < 64
  arrays : t.arrays = none

theorem AddressTranslator.HasChannels.translate {t : AddressTranslator} {w : ℕ}
    (h : t.HasChannels w) (address : UInt64) : ∃ channel : UInt64, channel.toNat < 2 ^ w ∧
      ∀ out, (t.translate address out).1 .channel = channel := by
  obtain ⟨m, hmethod, horder, hwidth, hnarrow⟩ := h.method
  obtain ⟨ps, hps, -, hall⟩ := parts_eq horder
  have hchannel := exists_channel_translateParts (hall .channel) (fun p _ => hnarrow p)
    (address >>> UInt64.ofNat t.busOffsetBits >>> UInt64.ofNat t.lowColBits)
  rw [hwidth, ← hps] at hchannel
  simpa only [AddressTranslator.translate, hmethod, h.arrays, Option.getD_none] using hchannel

namespace Decoder

/-- A decoder that is set up for a memory with a channel field of `w` bits. -/
def HasChannels (w : ℕ) : Decoder → Prop
  | .default t => t.HasChannels w
  | .drcDecoder d => ∃ m, d.method = some m ∧ (m.bitWidths .channel).toNat = w ∧
    ∀ p, (m.bitWidths p).toNat < 31
  | .migrator m => m.config.translator.HasChannels w ∧
    ∀ key channel, m.migrationMap key = some channel → channel.toNat < 2 ^ w
  | .bufferDecoder d => d.addrMask = 0 ∧ d.maxAddr = 0

/-- The decoder is the one of a buffer. -/
def IsBuffer : Decoder → Prop
  | .bufferDecoder .. => True
  | _ => False

variable {d : Decoder} {w : ℕ}

/-- Whatever the variables hold before, the decoder gives an address the same channel. -/
theorem HasChannels.translate (h : d.HasChannels w) (hbuffer : ¬ d.IsBuffer) (pa : UInt64) :
    ∃ channel : UInt64, channel.toNat < 2 ^ w ∧
      ∀ out, ∃ loc, d.translate pa out = some loc ∧ loc .channel = channel := by
  cases d with
  | default t =>
    obtain ⟨channel, hlt, htranslate⟩ := AddressTranslator.HasChannels.translate h pa
    exact ⟨channel, hlt, fun out => ⟨_, rfl, htranslate out⟩⟩
  | drcDecoder d =>
    obtain ⟨m, hmethod, hwidth, hnarrow⟩ := h
    refine ⟨_, ?_, fun out => ⟨_, congrArg (Option.map _) hmethod, rfl⟩⟩
    rw [DRCDecoder.toNat_decodeFields fun p _ => hnarrow p, ← hwidth]
    exact decode_lt (fun q _ => Nat.two_pow_pos _) (DRCDecoder.mem_drcParts.mpr rfl) _
  | migrator m =>
    obtain ⟨hbase, hmap⟩ := h
    obtain ⟨channel, hlt, htranslate⟩ := hbase.translate pa
    refine ⟨m.translate pa .channel, ?_, fun out => ⟨_, rfl, rfl⟩⟩
    have hkeep : (m.config.baseTranslate pa .channel).toNat < 2 ^ w := by
      rw [MigratorConfig.baseTranslate, htranslate]
      exact hlt
    unfold Migrator.translate
    cases hmoved : m.migrationMap (m.config.getAddressKey (m.config.baseTranslate pa)) with
    | none => exact hkeep
    | some moved =>
      dsimp only
      split
      · rw [Function.update_self]
        exact hmap _ moved hmoved
      · exact hkeep
  | bufferDecoder d => exact absurd trivial hbuffer

/-- The decoder of a buffer whose width nobody has set does not return. -/
theorem HasChannels.translate_buffer (h : d.HasChannels w) (hbuffer : d.IsBuffer) (pa : UInt64)
    (out : Location) : d.translate pa out = none := by
  cases d with
  | bufferDecoder d => simp [Decoder.translate, BufferDecoder.translate, h.1, h.2]
  | default | drcDecoder | migrator => exact absurd hbuffer not_false

end Decoder

theorem halvings_le (fuel num : ℕ) : halvings fuel num ≤ fuel := by
  induction fuel generalizing num with
  | zero => exact le_refl 0
  | succ fuel ih =>
    rw [halvings]
    split
    · exact Nat.zero_le _
    · exact Nat.succ_le_succ (ih _)

theorem mlog2_lt (num : ℕ) : mlog2 num < 31 := by
  have hle := halvings_le 31 num
  unfold mlog2
  split <;> omega

namespace RegionParams

variable {r : RegionParams} {matHeight : ℕ} {unset : MigratorConfig} {d : Decoder}

theorem bitWidths_lt (r : RegionParams) (matHeight : ℕ) (p : MemoryPartition) :
    r.bitWidths matHeight p < 31 := by
  cases p <;> exact mlog2_lt _

/-- The method of a region makes a translator ready. -/
theorem ready_method {m : TranslationMethod} (h : r.method matHeight = some m) :
    (AddressTranslator.init.setTranslationMethod m).Ready m ∧
      ∀ p, (m.bitWidths p).toNat = r.bitWidths matHeight p := by
  have hbits : ∀ p, (m.bitWidths p).toNat = r.bitWidths matHeight p := by
    intro p
    obtain ⟨-, heq⟩ := Option.ite_none_right_eq_some.mp h
    cases heq
    have hlt := r.bitWidths_lt matHeight p
    exact UInt32.toNat_ofNat_of_lt' (hlt.trans (by decide))
  refine ⟨⟨rfl, .inl rfl, isOrder_of_scheme r.scheme_nodup h, show 0 < 8 by decide,
    show 64 * 8 < 2 ^ 31 by decide, fun p => ?_⟩, hbits⟩
  have hlt := r.bitWidths_lt matHeight p
  rw [hbits]
  omega

/-- `SetTranslators` sets a decoder up for the channels of the region. -/
theorem hasChannels_setTranslators (h : r.setTranslators matHeight unset = some d) :
    d.HasChannels (mlog2 r.channels) ∧ (d.IsBuffer ↔ r.decoder = .bufferDecoder) := by
  obtain ⟨method, hmethod, rfl⟩ := Option.map_eq_some_iff.mp h
  obtain ⟨hready, hbits⟩ := ready_method hmethod
  have hset : (AddressTranslator.init.setTranslationMethod method).HasChannels
      (mlog2 r.channels) :=
    ⟨⟨method, rfl, hready.isOrder, hbits .channel, hready.narrow⟩, rfl⟩
  cases hdecoder : r.decoder with
  | default =>
    exact ⟨hset, by simp [Decoder.IsBuffer, Decoder.create, Decoder.setTranslationMethod]⟩
  | drcDecoder =>
    exact ⟨⟨method, rfl, hbits .channel, fun p => hbits p ▸ r.bitWidths_lt matHeight p⟩,
      by simp [Decoder.IsBuffer, Decoder.create, Decoder.setTranslationMethod]⟩
  | migrator =>
    exact ⟨⟨hset, fun key channel h => by cases h⟩,
      by simp [Decoder.IsBuffer, Decoder.create, Decoder.setTranslationMethod]⟩
  | bufferDecoder =>
    exact ⟨⟨rfl, rfl⟩, by simp [Decoder.IsBuffer, Decoder.create, Decoder.setTranslationMethod]⟩

end RegionParams

namespace FineNVMain

variable {c : FineConfig} {unset : MigratorConfig} {n n₀ n' : FineNVMain} {pa : UInt64}

/-- What `SetConfig` sets up, and migrations leave as it is. -/
structure Configured (c : FineConfig) (n : FineNVMain) : Prop where
  memSize : n.memSize = c.main.memSize c.matHeight
  numChannels : n.numChannels = c.main.channels
  hasChannels : n.decoder.HasChannels (mlog2 c.main.channels)
  isBuffer : n.decoder.IsBuffer ↔ c.main.decoder = .bufferDecoder

theorem configured_setConfig (h : setConfig c unset = some n) : n.Configured c := by
  obtain ⟨decoder, hdecoder, h⟩ := Option.bind_eq_some_iff.mp h
  obtain ⟨cacheTranslator, -, rfl⟩ := Option.map_eq_some_iff.mp h
  obtain ⟨hchannels, hbuffer⟩ := RegionParams.hasChannels_setTranslators hdecoder
  exact ⟨rfl, rfl, hchannels, hbuffer⟩

/-- A page is only ever moved to the channel of another page. -/
theorem Configured.step {a : Action} (h : n.Configured c) (hstep : n.step a = some n') :
    n'.Configured c := by
  unfold FineNVMain.step at hstep
  split at hstep
  · rename_i m hdecoder
    obtain ⟨m', hm', rfl⟩ := Option.map_eq_some_iff.mp hstep
    obtain ⟨hbase, hmap⟩ : (Decoder.migrator m).HasChannels _ := hdecoder ▸ h.hasChannels
    refine ⟨h.memSize, h.numChannels, ?_, by rw [← h.isBuffer, hdecoder]; exact Iff.rfl⟩
    have hchannel : ∀ address, (m.config.baseTranslate address .channel).toNat <
        2 ^ mlog2 c.main.channels := by
      intro address
      obtain ⟨channel, hlt, htranslate⟩ := hbase.translate address
      rw [MigratorConfig.baseTranslate, htranslate]
      exact hlt
    cases a with
    | startMigration promotee demotee =>
      obtain ⟨-, heq⟩ := Option.ite_none_left_eq_some.mp hm'
      cases heq
      refine ⟨hbase, fun key channel hkey => ?_⟩
      rw [Migrator.started_migrationMap] at hkey
      split_ifs at hkey
      · cases hkey
        exact hchannel promotee
      · cases hkey
        exact hchannel demotee
      · exact hmap key channel hkey
    | setMigrationState address state =>
      obtain rfl := Migrator.setMigrationState_eq_some hm'
      exact ⟨hbase, hmap⟩
  · cases hstep

/-- A field of `mlog2 n` bits holds numbers below `n`. -/
theorem two_pow_mlog2_le {n : ℕ} (hpos : 0 < n) (hlt : n < 2 ^ 31) : 2 ^ mlog2 n ≤ n := by
  rw [mlog2_eq_log hlt]
  exact Nat.pow_log_le_self 2 hpos.ne'

/-- **One controller for an address.** In every configuration, and after any migrations,
`IsIssuable`, `IssueCommand` and `IssueAtomic` find one and the same existing controller if and
only if the address belongs to the main memory, and the decoder of the main memory is not the
one of a buffer. -/
theorem selects_same_iff {actions : List Action} (hconfig : setConfig c unset = some n₀)
    (hrun : Run (Steps step) n₀ actions n) :
    n.SelectsSame pa ↔ pa < n.memSize ∧ c.main.decoder ≠ .bufferDecoder := by
  have h : n.Configured c := hrun.invariant (P := Configured c) (configured_setConfig hconfig)
    fun n a n' h hstep => h.step hstep
  constructor
  · rintro ⟨k, hsame⟩
    obtain ⟨hissuable, -, hatomic⟩ := hsame fun _ => 0
    have hmain : pa < n.memSize := by
      by_contra hbuffer
      rw [issueAtomic, if_neg hbuffer] at hatomic
      obtain ⟨loc, -, hindex⟩ := Option.bind_eq_some_iff.mp hatomic
      rw [memoryControllers, if_neg (by omega)] at hindex
      cases hindex
    refine ⟨hmain, fun hdecoder => ?_⟩
    rw [isIssuable, if_pos hmain,
      h.hasChannels.translate_buffer (h.isBuffer.mpr hdecoder)] at hissuable
    cases hissuable
  · rintro ⟨hmain, hdecoder⟩
    obtain ⟨channel, hlt, htranslate⟩ :=
      h.hasChannels.translate (mt h.isBuffer.mp hdecoder) pa
    have hpos : 0 < c.main.channels := by
      by_contra hzero
      have hsize : n.memSize = 0 := by
        rw [h.memSize, RegionParams.memSize, Nat.eq_zero_of_not_pos hzero]
        simp
      rw [hsize] at hmain
      exact absurd hmain (UInt64.not_lt_zero)
    have hexists : channel.toNat < n.numChannels :=
      h.numChannels ▸ hlt.trans_le (two_pow_mlog2_le hpos c.main.channels_lt)
    refine ⟨.main channel.toNat, fun out => ?_⟩
    obtain ⟨loc, hloc, hchannel⟩ := htranslate out
    simp only [isIssuable, issueCommand, issueAtomic, if_pos hmain, hloc, Option.bind_some,
      hchannel, memoryControllers, getChild, if_pos hexists, and_self]

/-- Two channels of main memory, and a buffer of one channel. -/
def hybrid : FineConfig where
  reservedChannels := 1
  reserved := { channels := 1, decoder := .bufferDecoder }

/-- The translator of an unset `Migrator`. -/
def noMigrator : MigratorConfig := ⟨.init, 0, 0, 0, 0⟩

/-- An address in the second channel of the main memory. -/
theorem selects_same_iff_main : ∃ n, setConfig hybrid noMigrator = some n ∧
    (n.SelectsSame 2048 ↔ 2048 < n.memSize ∧ hybrid.main.decoder ≠ .bufferDecoder) ∧
    n.isIssuable 2048 (fun _ => 0) = some (.main 1) := by
  obtain ⟨n, hn, hselect⟩ : ∃ n, setConfig hybrid noMigrator = some n ∧
      n.isIssuable 2048 (fun _ => 0) = some (.main 1) :=
    (Option.any_eq_true (fun n => decide (n.isIssuable 2048 (fun _ => 0) = some (.main 1)))
      (setConfig hybrid noMigrator)).mp (by decide +kernel) |>.imp
      fun n h => ⟨h.1, of_decide_eq_true h.2⟩
  exact ⟨n, hn, selects_same_iff hn (show Run (Steps step) n [] n from rfl), hselect⟩

/-- The first address of the buffer: `IsIssuable` and `IssueCommand` find the controller of the
buffer, and `IssueAtomic` takes the fourth of two controllers. -/
theorem buffer_address_differs : ∃ n, setConfig hybrid noMigrator = some n ∧
    n.isIssuable n.memSize (fun _ => 0) = some (.reserved 0) ∧
    n.issueCommand n.memSize (fun _ => 0) = some (.reserved 0) ∧
    n.issueAtomic n.memSize (fun _ => 0) = none ∧ ¬ n.SelectsSame n.memSize := by
  obtain ⟨n, hn, hissuable, hcommand, hatomic⟩ : ∃ n, setConfig hybrid noMigrator = some n ∧
      n.isIssuable n.memSize (fun _ => 0) = some (.reserved 0) ∧
      n.issueCommand n.memSize (fun _ => 0) = some (.reserved 0) ∧
      n.issueAtomic n.memSize (fun _ => 0) = none :=
    (Option.any_eq_true (fun n => decide (n.isIssuable n.memSize (fun _ => 0) =
      some (.reserved 0) ∧ n.issueCommand n.memSize (fun _ => 0) = some (.reserved 0) ∧
      n.issueAtomic n.memSize (fun _ => 0) = none)) (setConfig hybrid noMigrator)).mp
      (by decide +kernel) |>.imp fun n h => ⟨h.1, of_decide_eq_true h.2⟩
  refine ⟨n, hn, hissuable, hcommand, hatomic, fun hsame => ?_⟩
  obtain ⟨k, hsame⟩ := hsame
  rw [(hsame fun _ => 0).2.2] at hatomic
  cases hatomic

/-! ### The lines of the buffer -/

/-- The addresses of the buffer: they follow those of the main memory. -/
def InBuffer (c : FineConfig) (n : FineNVMain) (pa : UInt64) : Prop :=
  n.memSize ≤ pa ∧ pa.toNat < n.memSize.toNat + (c.reserved.memSize c.matHeight).toNat

theorem bitWidth_eq {r : RegionParams} {matHeight : ℕ} {m : TranslationMethod}
    (h : ∀ p, (m.bitWidths p).toNat = r.bitWidths matHeight p) :
    ∑ p, (m.bitWidths p).toNat = r.bitWidth matHeight ∧ r.bitWidth matHeight < 192 := by
  have hsum : r.bitWidth matHeight = ∑ p, r.bitWidths matHeight p := rfl
  have hle := Finset.sum_le_card_nsmul Finset.univ (r.bitWidths matHeight) 31
    fun p _ => (r.bitWidths_lt matHeight p).le
  rw [Finset.card_univ, card_eq, smul_eq_mul] at hle
  exact ⟨Finset.sum_congr rfl fun p _ => h p, hsum ▸ hle.trans_lt (by decide)⟩

/-- **The lines of a buffer.** The width that `FineNVMain` gives the decoder of the buffer is
that of the fields of the buffer, without the bits of a line. The decoder distinguishes the lines
of the buffer and gives their addresses back precisely if the addresses of the buffer all begin
with the bit of that width, i.e. lie between `2 ^ width` and `2 ^ (width + 1)` if the width is
below 31, and the width covers a line. -/
theorem buffer_round_trip_iff (hconfig : setConfig c unset = some n)
    (hreserved : c.reservedChannels ≠ 0) (hdecoder : c.reserved.decoder = .bufferDecoder) :
    ∃ d : BufferDecoder, n.cacheTranslator = .bufferDecoder d ∧
      d.addrWidth = c.reserved.bitWidth c.matHeight ∧
      ((∀ pa pa', InBuffer c n pa → InBuffer c n pa' → pa.toNat / 64 ≠ pa'.toNat / 64 →
          ∀ out out', d.translate pa out ≠ d.translate pa' out') ∧
        (∀ pa, InBuffer c n pa → ∀ out, ∃ loc address, d.translate pa out = some loc ∧
          d.reverseTranslate loc = some address ∧
          address.toNat = pa.toNat - pa.toNat % 64) ↔
      ∀ pa, InBuffer c n pa → 6 ≤ d.addrWidth % 32 ∧
        pa.toNat / 2 ^ (d.addrWidth % 32) =
          (intShift d.addrWidth).toNat / 2 ^ (d.addrWidth % 32)) := by
  obtain ⟨main, -, h⟩ := Option.bind_eq_some_iff.mp hconfig
  obtain ⟨cache, hcache, rfl⟩ := Option.map_eq_some_iff.mp h
  rw [if_neg hreserved] at hcache
  obtain ⟨d, hd, rfl⟩ := Option.map_eq_some_iff.mp hcache
  obtain ⟨m, hmethod, rfl⟩ := Option.map_eq_some_iff.mp hd
  obtain ⟨hready, hbits⟩ := RegionParams.ready_method hmethod
  obtain ⟨hwidth, hlt⟩ := bitWidth_eq hbits
  have hdecode := BufferDecoder.toNat_reverseTranslate_translate hready hwidth hlt
  refine ⟨(BufferDecoder.init.setTranslationMethod m).setAddrWidth _, by rw [hdecoder]; rfl, rfl,
    fun hgood pa hpa => ?_, fun hcond => ?_⟩
  · obtain ⟨loc, address, htr, hrev, hline⟩ := hgood.2 pa hpa fun _ => 0
    obtain ⟨loc', address', htr', hrev', haddr⟩ := hdecode pa fun _ => 0
    obtain rfl := Option.some.inj (htr.symm.trans htr')
    obtain rfl := Option.some.inj (hrev.symm.trans hrev')
    exact (BufferDecoder.decoded_eq_line_iff hlt _).mp (haddr.symm.trans hline)
  · have hback : ∀ pa, InBuffer c _ pa → ∀ out, ∃ loc address,
        (BufferDecoder.setAddrWidth _ _).translate pa out = some loc ∧
        (BufferDecoder.setAddrWidth _ _).reverseTranslate loc = some address ∧
        address.toNat = pa.toNat - pa.toNat % 64 := fun pa hpa out => by
      obtain ⟨loc, address, htr, hrev, haddr⟩ := hdecode pa out
      exact ⟨loc, address, htr, hrev,
        haddr.trans ((BufferDecoder.decoded_eq_line_iff hlt _).mpr (hcond pa hpa))⟩
    refine ⟨fun pa pa' hpa hpa' hne out out' heq => hne ?_, hback⟩
    -- equal locations have equal addresses
    obtain ⟨loc, address, htr, hrev, haddr⟩ := hback pa hpa out
    obtain ⟨loc', address', htr', hrev', haddr'⟩ := hback pa' hpa' out'
    obtain rfl := Option.some.inj (htr.symm.trans (heq.trans htr'))
    obtain rfl := Option.some.inj (hrev.symm.trans hrev')
    omega

/-- The buffer behind a main memory of 4 GB: its addresses begin at `2 ^ 32`, but the width of
its fields is 25. -/
theorem buffer_round_trip_iff_hybrid : ∃ n, setConfig hybrid noMigrator = some n ∧
    ∃ d : BufferDecoder, n.cacheTranslator = .bufferDecoder d ∧ d.addrWidth = 25 ∧
      ¬ ((∀ pa pa', InBuffer hybrid n pa → InBuffer hybrid n pa' →
          pa.toNat / 64 ≠ pa'.toNat / 64 → ∀ out out', d.translate pa out ≠ d.translate pa' out') ∧
        (∀ pa, InBuffer hybrid n pa → ∀ out, ∃ loc address, d.translate pa out = some loc ∧
          d.reverseTranslate loc = some address ∧
          address.toNat = pa.toNat - pa.toNat % 64)) := by
  obtain ⟨n, hn, hsize⟩ : ∃ n, setConfig hybrid noMigrator = some n ∧ n.memSize = 4294967296 :=
    (Option.any_eq_true (fun n => decide (n.memSize = 4294967296)) _).mp (by decide +kernel) |>.imp
      fun n h => ⟨h.1, of_decide_eq_true h.2⟩
  obtain ⟨d, hd, hwidth, hiff⟩ := buffer_round_trip_iff hn (by decide) rfl
  have hw : d.addrWidth = 25 := hwidth.trans (by decide)
  refine ⟨n, hn, d, hd, hw, fun hgood => ?_⟩
  have hfirst : InBuffer hybrid n 4294967296 := by
    rw [InBuffer, hsize]
    decide
  obtain ⟨-, hbegins⟩ := hiff.mp hgood 4294967296 hfirst
  rw [hw] at hbegins
  exact absurd hbegins (by decide)

/-- **Lines that share a location.** The first line of that buffer and the line `2 ^ 25` bytes
further on have the same location. -/
theorem buffer_lines_collide : ∃ n, setConfig hybrid noMigrator = some n ∧
    InBuffer hybrid n 4294967296 ∧ InBuffer hybrid n 4328521728 ∧
      (n.cacheTranslator.translate 4294967296 fun _ => 0).map (fun loc => all.map loc) =
        some [0, 0, 0, 0, 0, 0] ∧
      (n.cacheTranslator.translate 4328521728 fun _ => 0).map (fun loc => all.map loc) =
        some [0, 0, 0, 0, 0, 0] := by
  unfold InBuffer
  exact (Option.any_eq_true (fun n : FineNVMain => decide (_ ∧ _ ∧ _ ∧ _)) _).mp
    (by decide +kernel) |>.imp fun n h => ⟨h.1, of_decide_eq_true h.2⟩

end FineNVMain

end HybridMemory.NVMain

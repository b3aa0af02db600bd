import Mathlib.Data.List.Infix
import HybridMemory.Lib.Transition

/-!
# The commands of the static migrator

`StaticMigrator` moves a page when a command asks for it. The simulated system announces the
page of its command buffer in the file `signal`; a request to that page makes `ParseRequest`
read the file `command`, which names a page and the kind of memory it shall be in. When a
request to the named page comes, `ParseRequest` selects the promotion channel, and
`TryMigration` moves the page unless it is in that channel already.

`Init` sorts the channels by the names of their configuration files. The search for the
channel of the request stops at it among the DRAM channels. Among the PCM channels it goes on
to the end, and the end of the list is what the code takes for a failed search: the promotion
channel is then the first PCM channel, also for a page that is in another one
(`parseRequest_selects_iff`).

The constructor leaves `signal_inited`, `signal` and `op` as they are, so that they are
arbitrary at the start. What the files hold is up to the actions.
-/

namespace HybridMemory.NVMain

open Transition

/-- The kinds of memory that a command may ask for. -/
inductive MemoryKind
  | pcm
  | dram
  deriving DecidableEq

namespace MemoryKind

/-- `PCM_MEM` and `DRAM_MEM`. -/
def opType : MemoryKind → UInt64
  | .pcm => 0x01
  | .dram => 0x02

end MemoryKind

/-- The kind of a channel, by the name of its configuration file. -/
def channelKind (channelConfigFile : List Char) : Option MemoryKind :=
  if channelConfigFile = [] then none
  else
    let name := channelConfigFile.map Char.toUpper
    if ['D', 'R', 'A', 'M'] <:+: name then some .dram
    else if ['N', 'V', 'M'] <:+: name then some .pcm
    else none

/-- The kind of the channel with this number. -/
def kindAt (files : List (List Char)) (channel : ℕ) : Option MemoryKind :=
  files[channel]?.bind channelKind

/-- What the file `command` holds. -/
structure MigrationCommand where
  startAddr : UInt64
  optype : UInt64

/-- A request as `ParseRequest` sees it, and the two files at that time: `none` stands for a
file that cannot be opened or is too short. -/
structure ParseCall where
  virtualAddress : UInt64
  channel : ℕ
  signalFile : Option UInt64
  commandFile : Option MigrationCommand

/-- The members of the migrator that `Init` and `ParseRequest` work on. -/
structure StaticMigrator where
  signalInited : Bool
  signal : UInt64
  canMigrate : Bool
  startAddr : UInt64
  op : UInt64
  promotionChannel : ℕ
  dramChannel : List ℕ
  nvmChannel : List ℕ
  curDram : ℕ
  curNvm : ℕ

namespace StaticMigrator

/-- The loop of `Init`, from the channel `i` on. -/
def addChannels (m : StaticMigrator) : ℕ → List (List Char) → StaticMigrator
  | _, [] => m
  | i, file :: files =>
    let m := match channelKind file with
      | some .dram => { m with dramChannel := m.dramChannel ++ [i] }
      | some .pcm => { m with nvmChannel := m.nvmChannel ++ [i] }
      | none => m
    m.addChannels (i + 1) files

/-- The migrator after its constructor and `Init`. -/
def init (files : List (List Char)) (signalInited : Bool) (signal op : UInt64) :
    StaticMigrator :=
  addChannels ⟨signalInited, signal, false, 0, op, 0, [], [], 0, 0⟩ 0 files

variable (m : StaticMigrator)

def getSignal : Option UInt64 → StaticMigrator
  | some signal => { m with signal := signal, signalInited := true }
  | none => m

/-- The command that is in force when the request has been compared with the signal. -/
def latestCommand (c : ParseCall) : MigrationCommand :=
  if c.virtualAddress >>> 12 = m.signal >>> 12 ∧ 0 < c.virtualAddress then
    c.commandFile.getD ⟨m.startAddr, m.op⟩
  else ⟨m.startAddr, m.op⟩

/-- The first part of `ParseRequest`: a request to the signalled page reads the command. -/
def updateCommand (c : ParseCall) : StaticMigrator :=
  if c.virtualAddress >>> 12 = m.signal >>> 12 ∧ 0 < c.virtualAddress then
    match c.commandFile with
    | some cmd => { m with canMigrate := true, startAddr := cmd.startAddr, op := cmd.optype }
    | none => m
  else m

/-- The search among the DRAM channels: the promotion channel, and whether the iterator is at
the end. -/
def searchDram (tmpChannel : ℕ) : List ℕ → ℕ → ℕ × Bool
  | [], promotionChannel => (promotionChannel, true)
  | it :: rest, promotionChannel =>
    if it = tmpChannel then (tmpChannel, false)
    else searchDram tmpChannel rest promotionChannel

/-- The search among the PCM channels, which has no `break`. -/
def searchNvm (tmpChannel : ℕ) : List ℕ → ℕ → ℕ × Bool
  | [], promotionChannel => (promotionChannel, true)
  | it :: rest, promotionChannel =>
    searchNvm tmpChannel rest (if it = tmpChannel then tmpChannel else promotionChannel)

/-- The promotion channel after a search: the current channel of the list if the iterator is
at the end. There is no such channel if the list is too short. -/
def afterSearch (channels : List ℕ) (cur : ℕ) : ℕ × Bool → Option StaticMigrator
  | (_, true) => channels[cur]?.map fun channel => { m with promotionChannel := channel }
  | (promotionChannel, false) => some { m with promotionChannel := promotionChannel }

/-- The second part of `ParseRequest`: the promotion channel for a request in `tmpChannel`. -/
def selectChannel (tmpChannel : ℕ) : Option StaticMigrator :=
  if m.op = MemoryKind.dram.opType then
    m.afterSearch m.dramChannel m.curDram (searchDram tmpChannel m.dramChannel m.promotionChannel)
  else if m.op = MemoryKind.pcm.opType then
    m.afterSearch m.nvmChannel m.curNvm (searchNvm tmpChannel m.nvmChannel m.promotionChannel)
  else some m

/-- `ParseRequest`. -/
def parseRequest (c : ParseCall) : Option (Bool × StaticMigrator) :=
  if m.signalInited = false then some (false, m.getSignal c.signalFile)
  else
    let m := m.updateCommand c
    if c.virtualAddress >>> 12 = m.startAddr >>> 12 ∧ 0 < c.virtualAddress then
      (m.selectChannel c.channel).map fun m => (true, m)
    else some (false, m)

/-- The test of `TryMigration`, with what it asks the decoder. -/
def migrationPossible (channel : ℕ) (migrating isMigrated : Bool) : Bool :=
  !migrating && !isMigrated && channel != m.promotionChannel

/-- One call of `ParseRequest`. -/
def step (m : StaticMigrator) (c : ParseCall) : Option StaticMigrator :=
  (m.parseRequest c).map Prod.snd

/-- The request is to the page of the command in force, which asks for the kind `k`. -/
def Asks (c : ParseCall) (k : MemoryKind) : Prop :=
  m.signalInited = true ∧ (m.latestCommand c).optype = k.opType ∧
    c.virtualAddress >>> 12 = (m.latestCommand c).startAddr >>> 12 ∧ 0 < c.virtualAddress

instance (c : ParseCall) (k : MemoryKind) : Decidable (m.Asks c k) :=
  inferInstanceAs (Decidable (_ ∧ _))

/-! ### The channels of a kind -/

/-- The channels of a kind among those from `i` on, in order. -/
def channelsOf (k : MemoryKind) : ℕ → List (List Char) → List ℕ
  | _, [] => []
  | i, file :: files =>
    if channelKind file = some k then i :: channelsOf k (i + 1) files
    else channelsOf k (i + 1) files

theorem mem_channelsOf {k : MemoryKind} {files : List (List Char)} {i x : ℕ} :
    x ∈ channelsOf k i files ↔ i ≤ x ∧ kindAt files (x - i) = some k := by
  induction files generalizing i with
  | nil => simp [channelsOf, kindAt]
  | cons file files ih =>
    have htail : x ∈ channelsOf k (i + 1) files ↔
        i < x ∧ kindAt (file :: files) (x - i) = some k := by
      rw [ih, Nat.succ_le_iff]
      refine and_congr_right fun hlt => ?_
      obtain ⟨d, rfl⟩ := Nat.exists_eq_add_of_lt hlt
      rw [show i + d + 1 - i = d + 1 by omega, show i + d + 1 - (i + 1) = d by omega]
      rfl
    have hhead : kindAt (file :: files) (i - i) = channelKind file := by simp [kindAt]
    rcases lt_trichotomy x i with hlt | rfl | hlt
    · have hx : x ∉ channelsOf k (i + 1) files := fun hx => by
        have := (htail.mp hx).1
        omega
      simp only [channelsOf]
      split_ifs
      · simp [hx, hlt.ne, Nat.not_le.mpr hlt]
      · simp [hx, Nat.not_le.mpr hlt]
    · simp only [channelsOf, hhead]
      split_ifs with hk
      · simp [hk]
      · simp [htail, hk]
    · simp only [channelsOf]
      split_ifs
      · simp [htail, hlt, hlt.ne', hlt.le]
      · simp [htail, hlt, hlt.le]

theorem pairwise_channelsOf (k : MemoryKind) (i : ℕ) (files : List (List Char)) :
    (channelsOf k i files).Pairwise (· < ·) := by
  induction files generalizing i with
  | nil => exact List.Pairwise.nil
  | cons file files ih =>
    rw [channelsOf]
    split_ifs
    · exact List.pairwise_cons.mpr ⟨fun x hx => (mem_channelsOf.mp hx).1, ih (i + 1)⟩
    · exact ih (i + 1)

/-- The first channel of a kind has the least number. -/
theorem le_of_head?_channelsOf {k : MemoryKind} {files : List (List Char)} {x y : ℕ}
    (hx : (channelsOf k 0 files)[0]? = some x) (hy : kindAt files y = some k) : x ≤ y := by
  have hmem : y ∈ channelsOf k 0 files := mem_channelsOf.mpr ⟨Nat.zero_le y, hy⟩
  have hsorted := pairwise_channelsOf k 0 files
  match hc : channelsOf k 0 files with
  | [] => simp [hc] at hx
  | z :: rest =>
    rw [hc] at hx hmem hsorted
    obtain rfl : z = x := by simpa using hx
    rcases List.mem_cons.mp hmem with rfl | hrest
    · exact le_rfl
    · exact ((List.pairwise_cons.mp hsorted).1 y hrest).le

/-- The lists that `Init` makes. -/
structure Scanned (files : List (List Char)) (m : StaticMigrator) : Prop where
  dram : m.dramChannel = channelsOf .dram 0 files
  nvm : m.nvmChannel = channelsOf .pcm 0 files
  curDram : m.curDram = 0
  curNvm : m.curNvm = 0

theorem addChannels_eq (m : StaticMigrator) (i : ℕ) (files : List (List Char)) :
    m.addChannels i files =
      { m with
        dramChannel := m.dramChannel ++ channelsOf .dram i files
        nvmChannel := m.nvmChannel ++ channelsOf .pcm i files } := by
  induction files generalizing m i with
  | nil => simp [addChannels, channelsOf]
  | cons file files ih =>
    rw [addChannels, ih]
    match hk : channelKind file with
    | some .dram => simp [channelsOf, hk]
    | some .pcm => simp [channelsOf, hk]
    | none => simp [channelsOf, hk]

theorem scanned_init (files : List (List Char)) (signalInited : Bool) (signal op : UInt64) :
    Scanned files (init files signalInited signal op) := by
  rw [init, addChannels_eq]
  exact ⟨by simp, by simp, rfl, rfl⟩

/-! ### The parts of `ParseRequest` -/

theorem searchDram_eq (tmpChannel : ℕ) (channels : List ℕ) (promotionChannel : ℕ) :
    searchDram tmpChannel channels promotionChannel =
      if tmpChannel ∈ channels then (tmpChannel, false) else (promotionChannel, true) := by
  induction channels with
  | nil => simp [searchDram]
  | cons it rest ih =>
    by_cases hit : it = tmpChannel
    · simp [searchDram, hit]
    · simp [searchDram, hit, ih, Ne.symm hit]

/-- The search without a `break` ends at the end. -/
theorem searchNvm_snd (tmpChannel : ℕ) (channels : List ℕ) (promotionChannel : ℕ) :
    (searchNvm tmpChannel channels promotionChannel).2 = true := by
  induction channels generalizing promotionChannel with
  | nil => rfl
  | cons it rest ih => exact ih _

variable {m} {c : ParseCall} {files : List (List Char)} {k : MemoryKind}

theorem updateCommand_eq (m : StaticMigrator) (c : ParseCall) :
    ∃ canMigrate, m.updateCommand c =
      { m with
        canMigrate := canMigrate
        startAddr := (m.latestCommand c).startAddr
        op := (m.latestCommand c).optype } := by
  unfold updateCommand latestCommand
  split_ifs
  · cases c.commandFile with
    | none => exact ⟨m.canMigrate, rfl⟩
    | some cmd => exact ⟨true, rfl⟩
  · exact ⟨m.canMigrate, rfl⟩

theorem Scanned.updateCommand (h : Scanned files m) (c : ParseCall) :
    Scanned files (m.updateCommand c) := by
  obtain ⟨canMigrate, heq⟩ := updateCommand_eq m c
  rw [heq]
  exact ⟨h.dram, h.nvm, h.curDram, h.curNvm⟩

theorem selectChannel_eq_some {m' : StaticMigrator} {channel : ℕ}
    (h : m.selectChannel channel = some m') :
    ∃ promotionChannel, m' = { m with promotionChannel := promotionChannel } := by
  have hafter : ∀ {channels cur found}, m.afterSearch channels cur found = some m' →
      ∃ promotionChannel, m' = { m with promotionChannel := promotionChannel } := by
    intro channels cur found hfound
    match found, hfound with
    | (_, true), hfound =>
      obtain ⟨p, -, hp⟩ := Option.map_eq_some_iff.mp hfound
      exact ⟨p, hp.symm⟩
    | (p, false), hfound => exact ⟨p, (Option.some.inj hfound).symm⟩
  unfold selectChannel at h
  split_ifs at h
  · exact hafter h
  · exact hafter h
  · exact ⟨m.promotionChannel, (Option.some.inj h).symm⟩

/-- The lists of channels never change. -/
theorem Scanned.step {m' : StaticMigrator} (h : Scanned files m) (hstep : m.step c = some m') :
    Scanned files m' := by
  obtain ⟨⟨ret, m'⟩, hparse, rfl⟩ := Option.map_eq_some_iff.mp hstep
  simp only [StaticMigrator.parseRequest] at hparse
  split_ifs at hparse
  · obtain ⟨-, rfl⟩ := Prod.mk.inj (Option.some.inj hparse)
    cases c.signalFile with
    | none => exact h
    | some signal => exact ⟨h.dram, h.nvm, h.curDram, h.curNvm⟩
  · obtain ⟨m'', hselect, heq⟩ := Option.map_eq_some_iff.mp hparse
    obtain ⟨-, rfl⟩ := Prod.mk.inj heq
    obtain ⟨p, rfl⟩ := selectChannel_eq_some hselect
    have hscan := h.updateCommand c
    exact ⟨hscan.dram, hscan.nvm, hscan.curDram, hscan.curNvm⟩
  · obtain ⟨-, rfl⟩ := Prod.mk.inj (Option.some.inj hparse)
    exact h.updateCommand c

theorem Scanned.run {m' : StaticMigrator} {calls : List ParseCall} (h : Scanned files m)
    (hrun : Run (Steps StaticMigrator.step) m calls m') : Scanned files m' :=
  hrun.invariant h fun _ _ _ h hstep => h.step hstep

/-- A request to the page of the command selects the promotion channel. -/
theorem Asks.parseRequest (h : m.Asks c k) :
    (m.updateCommand c).op = k.opType ∧
      m.parseRequest c = ((m.updateCommand c).selectChannel c.channel).map fun m => (true, m) := by
  obtain ⟨hsignal, hop, hpage, hpos⟩ := h
  obtain ⟨canMigrate, heq⟩ := updateCommand_eq m c
  refine ⟨by rw [heq]; exact hop, ?_⟩
  have hstart : (m.updateCommand c).startAddr = (m.latestCommand c).startAddr := by rw [heq]
  rw [StaticMigrator.parseRequest, if_neg (by simp [hsignal])]
  exact if_pos ⟨hstart ▸ hpage, hpos⟩

/-- **The promotion channel**: the channel of the request for a DRAM page in DRAM, and the
first channel of the kind otherwise. -/
theorem Scanned.selectChannel (h : Scanned files m) (hop : m.op = k.opType)
    (hex : ∃ i, kindAt files i = some k) (channel : ℕ) :
    ∃ first, (channelsOf k 0 files)[0]? = some first ∧
      m.selectChannel channel = some
        { m with
          promotionChannel :=
            if k = .dram ∧ kindAt files channel = some .dram then channel else first } := by
  obtain ⟨i, hi⟩ := hex
  obtain ⟨first, hfirst⟩ : ∃ first, (channelsOf k 0 files)[0]? = some first := by
    have hpos := List.length_pos_of_mem (mem_channelsOf.mpr ⟨Nat.zero_le i, hi⟩)
    exact ⟨_, List.getElem?_eq_getElem hpos⟩
  refine ⟨first, hfirst, ?_⟩
  cases k with
  | dram =>
    have hmem : channel ∈ channelsOf .dram 0 files ↔ kindAt files channel = some .dram := by
      simp [mem_channelsOf]
    rw [StaticMigrator.selectChannel, if_pos hop, h.dram, h.curDram, searchDram_eq]
    by_cases hchannel : kindAt files channel = some .dram
    · simp [hmem, hchannel, afterSearch, h.dram, h.curDram]
    · simp [hmem, hchannel, afterSearch, hfirst, h.dram, h.curDram]
  | pcm =>
    have hne : m.op ≠ MemoryKind.dram.opType := hop ▸ by decide
    rw [StaticMigrator.selectChannel, if_neg hne, if_pos hop, h.nvm, h.curNvm]
    obtain ⟨p, hp⟩ : ∃ p, searchNvm channel (channelsOf .pcm 0 files) m.promotionChannel =
        (p, true) := ⟨_, Prod.ext rfl (searchNvm_snd _ _ _)⟩
    simp [hp, afterSearch, hfirst, h.nvm, h.curNvm]

/-! ### The selected channel over whole runs -/

/-- **When the selected channel is right.** After any calls, a request to the page of the
command keeps its own channel if that has the kind asked for, so that nothing is moved, and
selects a channel of that kind otherwise, if and only if it does not ask for PCM from a PCM
channel that comes after another one. -/
theorem parseRequest_selects_iff (files : List (List Char)) (signalInited : Bool)
    (signal op : UInt64) {calls : List ParseCall} {m : StaticMigrator}
    (hrun : Run (Steps step) (init files signalInited signal op) calls m) {c : ParseCall}
    {k : MemoryKind} (hasks : m.Asks c k) (hex : ∃ i, kindAt files i = some k) :
    (∃ m', m.parseRequest c = some (true, m') ∧
      (kindAt files c.channel = some k → m'.promotionChannel = c.channel ∧
        ∀ migrating isMigrated, m'.migrationPossible c.channel migrating isMigrated = false) ∧
      (kindAt files c.channel ≠ some k → kindAt files m'.promotionChannel = some k)) ↔
    (k = .pcm → kindAt files c.channel = some .pcm →
      ∀ i < c.channel, kindAt files i ≠ some .pcm) := by
  have hscan := ((scanned_init files signalInited signal op).run hrun).updateCommand c
  obtain ⟨hop, hparse⟩ := hasks.parseRequest
  obtain ⟨first, hfirst, hselect⟩ := hscan.selectChannel hop hex c.channel
  have hkind : kindAt files first = some k :=
    (mem_channelsOf.mp (List.mem_of_getElem? hfirst)).2
  rw [hparse, hselect]
  constructor
  · rintro ⟨m', heq, hown, -⟩ rfl hchannel i hi hki
    obtain ⟨-, rfl⟩ := Prod.mk.inj (Option.some.inj heq)
    have hfirst' : first = c.channel := by simpa using (hown hchannel).1
    have := le_of_head?_channelsOf hfirst hki
    omega
  · intro hcond
    -- the first channel is the own one, unless the search found that
    have hkeep : kindAt files c.channel = some k →
        (if k = .dram ∧ kindAt files c.channel = some .dram then c.channel else first) =
          c.channel := by
      intro hchannel
      cases k with
      | dram => exact if_pos ⟨rfl, hchannel⟩
      | pcm =>
        have hle := le_of_head?_channelsOf hfirst hchannel
        have hge : ¬ first < c.channel := fun hlt => hcond rfl hchannel first hlt hkind
        simp only [reduceCtorEq, false_and, if_false]
        omega
    refine ⟨_, rfl, fun hchannel => ⟨hkeep hchannel, fun migrating isMigrated => ?_⟩,
      fun hchannel => ?_⟩
    · simp [migrationPossible, hkeep hchannel]
    · have hnot : ¬ (k = .dram ∧ kindAt files c.channel = some .dram) :=
        fun ⟨hk, hd⟩ => hchannel (hk ▸ hd)
      simp only [if_neg hnot]
      exact hkind

/-- Two DRAM channels and one PCM channel. -/
private def mixedFiles : List (List Char) :=
  [['d', 'r', 'a', 'm'], ['N', 'V', 'M', '.', 'c'], ['D', 'R', 'A', 'M']]

/-- The signal file names page 1. -/
private def signalCall : ParseCall := ⟨0x2000, 0, some 0x1000, none⟩

/-- A request to page 1 when the command asks to have that page in a kind of memory. -/
private def commandCall (channel : ℕ) (k : MemoryKind) : ParseCall :=
  ⟨0x1040, channel, none, some ⟨0x1000, k.opType⟩⟩

/-- A page of the second DRAM channel stays there. -/
theorem parseRequest_selects_dram :
    ∃ m, Run (Steps step) (init mixedFiles false 0 0) [signalCall] m ∧
      m.Asks (commandCall 2 .dram) .dram ∧
      ∃ m', m.parseRequest (commandCall 2 .dram) = some (true, m') ∧
        (kindAt mixedFiles 2 = some .dram → m'.promotionChannel = 2 ∧
          ∀ migrating isMigrated, m'.migrationPossible 2 migrating isMigrated = false) ∧
        (kindAt mixedFiles 2 ≠ some .dram →
          kindAt mixedFiles m'.promotionChannel = some .dram) :=
  exists_run_imp (fun m => m.Asks (commandCall 2 .dram) .dram) (by decide) fun _ hrun hasks =>
    ⟨hasks,
      (parseRequest_selects_iff mixedFiles false 0 0 hrun hasks ⟨0, by decide⟩).mpr (by decide)⟩

/-- A page of the second of two PCM channels is moved to the first one. -/
theorem parseRequest_leaves_pcm :
    ∃ m m', Run (Steps step) (init [['n', 'v', 'm'], ['n', 'v', 'm']] false 0 0) [signalCall] m ∧
      m.Asks (commandCall 1 .pcm) .pcm ∧
      kindAt [['n', 'v', 'm'], ['n', 'v', 'm']] 1 = some .pcm ∧
      m.parseRequest (commandCall 1 .pcm) = some (true, m') ∧
      m'.promotionChannel = 0 ∧ m'.migrationPossible 1 false false = true := by
  refine ⟨_, _, run_steps_iff.mpr rfl, ?_, ?_, rfl, ?_, ?_⟩ <;> decide

end StaticMigrator

end HybridMemory.NVMain

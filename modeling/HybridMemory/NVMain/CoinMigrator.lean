import HybridMemory.NVMain.Migrator

/-!
# The migrators

`CoinMigrator` is a hook on the memory system that exchanges pages between the channels. A
request that was just issued may trigger a migration of its page to the promotion channel;
the page that has to leave is the next one in a round robin over that channel. Both pages
are read, and once both are in the buffer each is written to the address of the other one.
`CommonMigrator` has the same code but for two points, which `MigratorPolicy` tells apart:
what triggers a migration, and the way the round robin runs.

The state has the data members of the hook, with `promoX` and `demoX` as the two values of
`X`, and the migrating decoder it works on. The rest of the memory system shows as the
requests in flight: a request that was accepted completes at any later time, and whether a
request is accepted is up to the actions. The channels translate addresses with the layout
of the decoder, so that the retranslation when a request is queued changes nothing.

The functions return `none` where an assertion of the code fails. The last fields record
history for the properties: `entered` the states set in the last migration, `written` the
pages whose data have been written since they were read, `choices` how many victims were
chosen, and `victims` the positions of the round robin that led to a migration.
-/

namespace HybridMemory.NVMain

open Transition Function

namespace Side

/-- The other page. -/
def other : Side → Side
  | .promotee => .demotee
  | .demotee => .promotee

/-- The value for each page. -/
def pick {α : Type} (promotee demotee : α) : Side → α
  | .promotee => promotee
  | .demotee => demotee

end Side

/-- Which of the two migrators it is. -/
inductive MigratorPolicy
  | coin
  | common
  deriving DecidableEq

/-- The parameters of the promotion channel that `ChooseVictim` asks for. -/
structure PromotionParams where
  ranks : UInt64
  banks : UInt64
  rows : UInt64
  matHeight : UInt64

/-- What a migrator is set up with. -/
structure SwapConfig where
  policy : MigratorPolicy
  promotionChannel : UInt64
  params : PromotionParams

namespace SwapConfig

variable (c : SwapConfig)

def totalPromotionPages : UInt64 := c.params.ranks * c.params.banks * c.params.rows

/-- The position at which the round robin starts. -/
def firstPage : UInt64 :=
  match c.policy with
  | .coin => 0
  | .common => c.totalPromotionPages

/-- The position after a choice: `CoinMigrator` counts up and starts over, `CommonMigrator`
counts down and stays at zero. -/
def nextPage (page : UInt64) : UInt64 :=
  match c.policy with
  | .coin => (page + 1) % c.totalPromotionPages
  | .common =>
    if page > 0 then (page - 1) % c.totalPromotionPages
    else (page + c.totalPromotionPages) % c.totalPromotionPages

/-- The page of the promotion channel at a position of the round robin, as `ChooseVictim`
takes it apart. -/
def victimLocation (page : UInt64) : Location :=
  let victimRank := page % c.params.ranks
  let page := page >>> UInt64.ofNat (mlog2 c.params.ranks.toNat)
  let victimBank := page % c.params.banks
  let page := page >>> UInt64.ofNat (mlog2 c.params.banks.toNat)
  let subarrayCount := c.params.rows / c.params.matHeight
  let victimSubarray := page % subarrayCount
  let page := page >>> UInt64.ofNat (mlog2 subarrayCount.toNat)
  let victimRow := page
  MemoryPartition.fields victimRow 0 victimBank victimRank c.promotionChannel victimSubarray

end SwapConfig

/-- The tags of the migration requests. -/
inductive MigrationTag
  | read
  | write
  deriving DecidableEq

/-- A migration request. `id` is the identity of the object, and `data` the page whose data
the request carries. -/
structure MigrationRequest where
  id : ℕ
  address : NVMAddress
  tag : MigrationTag
  data : Side

/-- A migrator and the system around it. -/
structure CoinMigrator where
  config : SwapConfig
  decoder : Migrator
  /-- `promotee` and `demotee`. -/
  page : Side → NVMAddress
  /-- `promoRequest` and `demoRequest`. -/
  request : Side → Option MigrationRequest
  /-- `promoBuffered` and `demoBuffered`: a write that could not be issued yet. -/
  buffered : Side → Bool
  /-- The position of the round robin, once the memory was queried. -/
  currentPromotionPage : Option UInt64
  /-- The number of requests allocated so far. -/
  allocated : ℕ
  /-- The requests that were issued and have not completed. -/
  inFlight : List MigrationRequest
  /-- The states set in the last migration, with the keys of the pages, in order. -/
  entered : List (UInt64 × MigratorState)
  /-- The last migration was atomic. -/
  atomic : Bool
  /-- The pages whose data have been written in their last migration. -/
  written : UInt64 → Bool
  /-- How often a victim was chosen. -/
  choices : ℕ
  /-- The positions of the round robin that led to a migration. -/
  victims : List UInt64

/-- A request that was issued, as the hook sees it, with the outcome of what the hook asks
for: the coin, and whether reads of the two pages could be issued. -/
structure Trigger where
  physicalAddress : UInt64
  /-- The type of the request is `MIGRATION`. -/
  migration : Bool
  /-- The request was issued by `IssueAtomic`. -/
  atomic : Bool
  coinToss : Bool
  issuable : Side → Bool

namespace CoinMigrator

/-- A new migrator. -/
def init (c : SwapConfig) (d : MigratorConfig) : CoinMigrator where
  config := c
  decoder := Migrator.init d
  page := fun _ => ⟨0, fun _ => 0⟩
  request := fun _ => none
  buffered := fun _ => false
  currentPromotionPage := none
  allocated := 0
  inFlight := []
  entered := []
  atomic := false
  written := fun _ => false
  choices := 0
  victims := []

variable (m : CoinMigrator)

/-- The key of a page in the decoder. -/
def key (s : Side) : UInt64 :=
  m.decoder.config.getAddressKey (m.page s).translated

/-- Set the state of a page. -/
def setState (address : NVMAddress) (state : MigratorState) : Option CoinMigrator :=
  (m.decoder.setMigrationState address state).map fun decoder => { m with
    decoder := decoder
    entered := m.entered ++ [(m.decoder.config.getAddressKey address.translated, state)] }

/-- The address of a page of the decoder: its first column. -/
def pageAddress (loc : Location) : Option NVMAddress :=
  let loc := update loc .col 0
  (m.decoder.config.translator.reverseTranslate loc).map fun r => ⟨r.1, loc⟩

/-- The position of the round robin that `ChooseVictim` looks at. -/
def promotionPage : UInt64 :=
  m.currentPromotionPage.getD m.config.firstPage

/-- The page `ChooseVictim` chooses. -/
def victim : Option NVMAddress :=
  m.pageAddress (m.config.victimLocation m.promotionPage)

/-! ### `TryMigration` -/

/-- `CommonMigrator` looks at migration requests only. -/
def parseRequest (t : Trigger) : Bool :=
  match m.config.policy with
  | .coin => true
  | .common => t.migration

/-- `CoinMigrator` tosses a coin. -/
def toss (t : Trigger) : Bool :=
  match m.config.policy with
  | .coin => t.coinToss
  | .common => true

/-- The address of the request with its fields translated anew, as `IsMigrated` leaves
it. -/
def triggerAddress (t : Trigger) : NVMAddress :=
  m.decoder.retranslate ⟨t.physicalAddress, fun _ => 0⟩

/-- A migration is possible: none is in progress, and the page of the request was not
migrated and is not in the promotion channel. -/
def migrationPossible (t : Trigger) : Bool :=
  !m.decoder.migrating && !(m.decoder.isMigrated ⟨t.physicalAddress, fun _ => 0⟩).1 &&
    (m.triggerAddress t).translated .channel != m.config.promotionChannel

/-- `StartMigration` for the page of the request and the chosen page. -/
def start (address : NVMAddress) : Option CoinMigrator :=
  let demotee := m.page .demotee
  (m.decoder.startMigration address demotee).map fun decoder =>
    let promokey := m.decoder.config.getAddressKey address.translated
    let demokey := m.decoder.config.getAddressKey demotee.translated
    { m with
      decoder := decoder
      entered := [(promokey, .reading), (demokey, .reading)]
      written := update (update m.written promokey false) demokey false }

/-- In atomic mode the pages are swapped at once. -/
def swapAtomic (address : NVMAddress) : Option CoinMigrator :=
  (m.start address).bind fun m =>
    (m.setState (m.page .promotee) .done).bind fun m =>
      (m.setState (m.page .demotee) .done).map fun m => { m with
        atomic := true
        written := update (update m.written (m.key .promotee) true)
          (m.key .demotee) true }

/-- In cycle-accurate mode the two pages are read first. -/
def startSwap (address : NVMAddress) : Option CoinMigrator :=
  (m.start address).map fun m =>
    let promoRequest := ⟨m.allocated, m.page .promotee, .read, .promotee⟩
    let demoRequest := ⟨m.allocated + 1, m.page .demotee, .read, .demotee⟩
    { m with
      atomic := false
      request := Side.pick (some promoRequest) (some demoRequest)
      allocated := m.allocated + 2
      inFlight := promoRequest :: demoRequest :: m.inFlight }

/-- The migrator once the pair is chosen. -/
def choose (promotee demotee : NVMAddress) : CoinMigrator :=
  { m with
    page := Side.pick promotee demotee
    currentPromotionPage := some (m.config.nextPage m.promotionPage)
    choices := m.choices + 1 }

/-- `TryMigration`, after the request was issued. -/
def tryMigration (t : Trigger) : Option CoinMigrator :=
  if !m.parseRequest t || !m.migrationPossible t then some m
  -- the source asserts that no write waits
  else if m.buffered .demotee || m.buffered .promotee then none
  else if !m.toss t then some m
  else
    (m.pageAddress (m.triggerAddress t).translated).bind fun promotee =>
    m.victim.bind fun demotee =>
      -- the source asserts that neither page was migrated
      if (m.decoder.isMigrated demotee).1 || (m.decoder.isMigrated promotee).1 then none
      else
        let m₁ := m.choose (m.decoder.retranslate promotee) (m.decoder.retranslate demotee)
        if t.atomic || (t.issuable .promotee && t.issuable .demotee) then
          let m₂ := { m₁ with victims := m.promotionPage :: m.victims }
          if t.atomic then m₂.swapAtomic (m.triggerAddress t)
          else m₂.startSwap (m.triggerAddress t)
        -- a read could not be issued, but the round robin has moved on
        else some m₁

/-! ### `RequestComplete` -/

/-- The request that was issued is deleted when it completes. -/
def retire (r : MigrationRequest) : CoinMigrator :=
  { m with inFlight := m.inFlight.filter fun r' => r'.id ≠ r.id }

/-- Which of `promoRequest` and `demoRequest` a request is. -/
def sideOf (r : MigrationRequest) : Option Side :=
  if (m.request .promotee).map MigrationRequest.id = some r.id then some .promotee
  else if (m.request .demotee).map MigrationRequest.id = some r.id then some .demotee
  else none

/-- Make a copy of a request that completed, for the write. -/
def copyRequest (s : Side) (r : MigrationRequest) : CoinMigrator :=
  { m with
    request := update m.request s (some { r with id := m.allocated })
    allocated := m.allocated + 1 }

/-- Set the state of the page a write goes to, if the write was issued. -/
def markWriting (s : Side) (r : MigrationRequest) (issued : Side → Bool) : Option CoinMigrator :=
  if issued s then m.setState r.address .writing else some m

/-- Swap the addresses of the requests and issue the writes, the demotee's first. -/
def issueWrites (promo demo : MigrationRequest) (issued : Side → Bool) : Option CoinMigrator :=
  let promoRequest := { promo with address := demo.address, tag := .write }
  let demoRequest := { demo with address := promo.address, tag := .write }
  let m := { m with
    request := Side.pick (some promoRequest) (some demoRequest)
    inFlight := (if issued .promotee then [promoRequest] else []) ++
      (if issued .demotee then [demoRequest] else []) ++ m.inFlight
    buffered := fun s => !issued s }
  (m.markWriting .demotee demoRequest issued).bind fun m =>
    m.markWriting .promotee promoRequest issued

/-- `RequestComplete` for a migration read. -/
def readComplete (r : MigrationRequest) (issued : Side → Bool) : Option CoinMigrator :=
  ((m.retire r).setState r.address .buffered).bind fun m =>
    (m.sideOf r).bind fun s =>
      let bufferComplete := m.decoder.isBuffered (m.page s.other)
      let m := m.copyRequest s r
      if bufferComplete then
        (m.request .promotee).bind fun promo => (m.request .demotee).bind fun demo =>
          m.issueWrites promo demo issued
      else some m

/-- `RequestComplete` for a migration write. -/
def writeComplete (r : MigrationRequest) : Option CoinMigrator :=
  ((m.retire r).setState r.address .done).map fun m =>
    { m with written := update m.written (m.key r.data) true }

/-- Issue a write again that could not be issued before. -/
def retry (s : Side) (issued : Side → Bool) : CoinMigrator :=
  match m.request s with
  | some r =>
    if m.buffered s && issued s then
      { m with inFlight := r :: m.inFlight, buffered := update m.buffered s false }
    else m
  | none => m

/-- `RequestComplete` for any other request. -/
def otherComplete (issued : Side → Bool) : CoinMigrator :=
  (m.retry .promotee issued).retry .demotee issued

/-! ### Runs -/

/-- What can happen to a migrator. The booleans say whether the writes that the hook tries
to issue are accepted. -/
inductive Action
  | trigger (t : Trigger)
  | readComplete (id : ℕ) (issued : Side → Bool)
  | writeComplete (id : ℕ)
  | otherComplete (issued : Side → Bool)

/-- The request in flight with an identity and a tag. -/
def findRequest (id : ℕ) (tag : MigrationTag) : Option MigrationRequest :=
  m.inFlight.find? fun r => r.id = id ∧ r.tag = tag

/-- The action can happen: a request that completes is in flight. -/
def Enabled : Action → Prop
  | .trigger _ => True
  | .readComplete id _ => (m.findRequest id .read).isSome
  | .writeComplete id => (m.findRequest id .write).isSome
  | .otherComplete _ => True

/-- One action. For an action that can happen, `none` means that an assertion fails. -/
def step : Action → Option CoinMigrator
  | .trigger t => m.tryMigration t
  | .readComplete id issued => (m.findRequest id .read).bind fun r => m.readComplete r issued
  | .writeComplete id => (m.findRequest id .write).bind fun r => m.writeComplete r
  | .otherComplete issued => some (m.otherComplete issued)

end CoinMigrator

end HybridMemory.NVMain

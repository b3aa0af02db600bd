import HybridMemory.Lib.Recency
import HybridMemory.Lib.Transition
import HybridMemory.NVMain.AddressTranslator

/-!
# The cache bank

`CacheBank` is an array of sets, each of them an array of entries in the order of last use.
Installing a line takes the first free way of its set, reading and writing a line move its
entry to the first way, and the line in the last way is the one to be evicted.

The loop of `Write` that should move the entries back by one stops one place too early, so that a
write to any way but the first overwrites the line in the first one.
-/

namespace HybridMemory.NVMain

open Transition

/-! ### The bank -/

def cacheEntryValid : UInt64 := 1

def cacheEntryDirty : UInt64 := 2

def cacheEntryExample : UInt64 := 4

/-- An entry of the cache. -/
structure CacheEntry (D : Type) where
  flags : UInt64
  address : UInt64
  data : D

namespace CacheEntry

variable {D : Type}

def isValid (e : CacheEntry D) : Bool := e.flags &&& cacheEntryValid != 0

def isDirty (e : CacheEntry D) : Bool := e.flags &&& cacheEntryDirty != 0

def isExample (e : CacheEntry D) : Bool := e.flags &&& cacheEntryExample != 0

/-- The entry holds the line of an address. -/
def holds (addr : UInt64) (e : CacheEntry D) : Bool := e.address == addr && e.isValid

end CacheEntry

/-- The data members of `CacheBank`. -/
structure CacheBank (D : Type) where
  numSets : UInt64
  numAssoc : ℕ
  cachelineSize : UInt64
  decodeFunc : UInt64 → UInt64
  cacheEntry : UInt64 → List (CacheEntry D)

namespace CacheBank

variable {D : Type}

/-- `DefaultDecoder`, for a number of sets and a line size. -/
def defaultDecoder (numSets cachelineSize addr : UInt64) : UInt64 :=
  (addr >>> UInt64.ofNat (mlog2 cachelineSize.toNat)) % numSets

/-- The constructor. The entries have some address and data before they are used. -/
def init (sets : UInt64) (assoc : ℕ) (lineSize address : UInt64) (data : D) : CacheBank D :=
  ⟨sets, assoc, lineSize, defaultDecoder sets lineSize,
    fun _ => List.replicate assoc ⟨0, address, data⟩⟩

variable (b : CacheBank D)

def setID (addr : UInt64) : UInt64 := b.decodeFunc addr

def findSet (addr : UInt64) : List (CacheEntry D) := b.cacheEntry (b.setID addr)

/-- The bank with the set of an address replaced. -/
def putSet (addr : UInt64) (set : List (CacheEntry D)) : CacheBank D :=
  { b with cacheEntry := Function.update b.cacheEntry (b.setID addr) set }

def present (addr : UInt64) : Bool := (b.findSet addr).any fun e => e.holds addr

def setFull (addr : UInt64) : Bool :=
  (b.findSet addr).all fun e => e.isValid || e.isDirty || e.isExample

/-- `Install`: the first way that is not valid takes the line. -/
def install (addr : UInt64) (data : D) : CacheBank D × Bool :=
  let set := b.findSet addr
  match set.findIdx? fun e => !e.isValid with
  | none => (b, false)
  | some i =>
    let flags := (set[i]?.map CacheEntry.flags).getD 0
    (b.putSet addr (set.set i ⟨flags ||| cacheEntryValid, addr, data⟩), true)

/-- The body of the loop of `Read`. -/
def readWay (addr : UInt64) (s : List (CacheEntry D) × Option D) (i : ℕ) :
    List (CacheEntry D) × Option D :=
  match s.1[i]? with
  | none => s
  | some e =>
    if e.holds addr then ((Recency.shiftDown 0 i s.1).set 0 e, some e.data) else s

/-- `Read`: the data of the line, whose entry moves to the first way. -/
def read (addr : UInt64) : Option (CacheBank D × Option D) :=
  if b.present addr then
    let (set, data) := (List.range b.numAssoc).foldl (readWay addr) (b.findSet addr, none)
    some (b.putSet addr set, data)
  else none

/-- The body of the loop of `Write`. -/
def writeWay (addr : UInt64) (data : D) (set : List (CacheEntry D)) (i : ℕ) :
    List (CacheEntry D) :=
  match set[i]? with
  | none => set
  | some e =>
    if e.holds addr then
      let e : CacheEntry D := ⟨e.flags ||| cacheEntryDirty, e.address, data⟩
      (Recency.shiftDown 1 i (set.set i e)).set 0 e
    else set

/-- `Write`: the line gets new data, and its entry is to move to the first way. -/
def write (addr : UInt64) (data : D) : Option (CacheBank D) :=
  if b.present addr then
    some (b.putSet addr ((List.range b.numAssoc).foldl (writeWay addr data) (b.findSet addr)))
  else none

/-- `ChooseVictim`: the line in the last way of a full set, and whether it is dirty. -/
def chooseVictim (addr : UInt64) : Option (UInt64 × Bool) :=
  if b.setFull addr then
    ((b.findSet addr)[b.numAssoc - 1]?).bind fun e =>
      if e.isValid then some (e.address, e.isDirty) else none
  else none

/-- `Evict`: the way of the line is free again; the result is its data and whether they
were dirty. -/
def evict (addr : UInt64) : Option (CacheBank D × D × Bool) :=
  let set := b.findSet addr
  (set.findIdx? fun e => e.holds addr).bind fun i => (set[i]?).map fun e =>
    (b.putSet addr (set.set i { e with flags := 0 }), e.data, e.isDirty)

end CacheBank

end HybridMemory.NVMain

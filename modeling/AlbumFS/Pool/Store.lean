import AlbumFS.Pool.Blocks
import AlbumFS.Pool.Carriers
import Mathlib

/-!
# The block store

`BlockStore` of `fs/block.rs` spreads the blocks of a pool over its carriers. The payload of a
carrier is loaded when one of its blocks is first used, changed in memory, and written back by a
flush. Arithmetic on `u64` and `usize` wraps, and an index that is out of range is a panic.

## Main definitions

* `CarrierSlot`, `BlockStore`: the store.
* `Pool`: a store together with the folder of its carriers, the coming random nonces and the coming
  readings of the clock.
* `BlockStore.carrierFor`, `Pool.ensureLoaded`, `Pool.readBlock`, `Pool.writeBlock`, `Pool.flush`.
-/

namespace AlbumFS

open CarrierFolder

structure CarrierSlot where
  path : String
  chunkIndex : UInt32
  isPrimary : Bool
  blockStart : UInt64
  blockCount : UInt64
  buffer : Option (List UInt8)
  dirty : Bool
  deriving DecidableEq

structure BlockStore where
  carriers : List CarrierSlot
  totalBlocks : UInt64
  encrypted : Bool
  cipher : Option BlockCipher
  orderKey : Option Key
  deriving DecidableEq

/-- What ends a call early. -/
inductive Fault where
  | panic
  | error (e : FsError)
  deriving DecidableEq

namespace CarrierSlot

/-- `slot.block_count as usize * PB`. -/
def expected (slot : CarrierSlot) : Nat := slot.blockCount.toNat * PB % 2 ^ 64

/-- The test of `carrier_for`. -/
def covers (slot : CarrierSlot) (lba : Nat) : Bool :=
  decide (slot.blockStart.toNat ≤ lba ∧ lba < (slot.blockStart + slot.blockCount).toNat)

/-- `(lba - slot.block_start) as usize * PB`. -/
def offset (slot : CarrierSlot) (lba : Nat) : Nat := (lba - slot.blockStart.toNat) * PB % 2 ^ 64

end CarrierSlot

namespace BlockStore

/-- The part of both constructors after the slots. -/
def ofCarriers (carriers : List CarrierSlot) (manifest : List CarrierRange) (keys : Option StoreKeys) :
    BlockStore where
  carriers := carriers
  totalBlocks := (manifest.map CarrierRange.blockCount).sum
  encrypted := keys.isSome
  cipher := keys.map StoreKeys.cipher
  orderKey := keys.map StoreKeys.order

def newForFormat (paths : List String) (manifest : List CarrierRange) (keys : Option StoreKeys) :
    BlockStore :=
  ofCarriers
    ((paths.zip manifest).map fun (path, range) =>
      { path
        chunkIndex := range.chunkIndex
        isPrimary := range.chunkIndex == 0
        blockStart := range.blockStart
        blockCount := range.blockCount
        buffer := some (List.replicate (range.blockCount.toNat * PB % 2 ^ 64) 0)
        dirty := true })
    manifest keys

def fromManifest (paths : List (String × Bool)) (manifest : List CarrierRange)
    (keys : Option StoreKeys) : BlockStore :=
  ofCarriers
    ((paths.zip manifest).map fun ((path, isPrimary), range) =>
      { path
        chunkIndex := range.chunkIndex
        isPrimary
        blockStart := range.blockStart
        blockCount := range.blockCount
        buffer := none
        dirty := false })
    manifest keys

def carrierFor (store : BlockStore) (lba : Nat) : Except FsError Nat :=
  if lba ≥ store.totalBlocks.toNat then
    .error (.badBlock lba)
  else
    match store.carriers.findIdx? (·.covers lba) with
    | none => .error (.badBlock lba)
    | some i => .ok i

/-- The mode and the order key with which the chunk of a slot is read. -/
def readMode (store : BlockStore) (slot : CarrierSlot) : Except FsError (ChunkRead × List UInt8) :=
  if store.encrypted then
    match store.orderKey with
    | none => .error .auth
    | some key => .ok (.markerless slot.chunkIndex slot.expected, key.toList)
  else
    .ok (.framed, [])

/-- The mode and the order key with which the chunk of a slot is written. -/
def writeMode (store : BlockStore) (slot : CarrierSlot) : Except FsError (ChunkWrite × List UInt8) :=
  if store.encrypted then
    match store.orderKey with
    | none => .error .auth
    | some key => .ok (.markerless slot.chunkIndex, key.toList)
  else
    .ok (.framed { chunkIndex := slot.chunkIndex, flags := if slot.isPrimary then 1 else 0 }, [])

/-- The part of `ensure_loaded` that reads the payload of a carrier. -/
def fetch {κ : Type} [CarrierFolder κ] (folder : κ) (store : BlockStore) (slot : CarrierSlot) :
    Except FsError (List UInt8) :=
  if (kindFor slot.path).isNone then
    .error (.manifest ("unsupported carrier type: " ++ slot.path))
  else do
    let (mode, orderKey) ← store.readMode slot
    let (info, payload) ← (readChunk folder slot.path mode orderKey).mapError FsError.codec
    if info.chunkIndex ≠ slot.chunkIndex then
      .error (.manifest ("carrier " ++ slot.path ++ " reports chunk index " ++ toString info.chunkIndex))
    else if payload.length ≠ slot.expected then
      .error (.manifest ("carrier " ++ slot.path ++ " has " ++ toString payload.length ++
        " payload bytes, expected " ++ toString slot.expected))
    else
      .ok payload

/-- The bytes of a block as `read_block` decodes them. -/
def decodeBlock (crypto : Crypto) (store : BlockStore) (lba : Nat) (block : List UInt8) :
    Except FsError Block :=
  if store.encrypted then
    match store.cipher with
    | none => .error .auth
    | some cipher => cipher.decode crypto lba block
  else
    readPhysicalBlock lba block

end BlockStore

/-- A store and what it works on. -/
structure Pool (κ : Type) (crypto : Crypto) where
  folder : κ
  store : BlockStore
  nonces : Nat → Vector UInt8 24
  clock : Nat → UInt64

namespace Pool

variable {κ : Type} [CarrierFolder κ] {crypto : Crypto}

def ofResult {α : Type} (result : Except FsError α) : Prog Fault (Pool κ crypto) α :=
  Prog.ofExcept (result.mapError Fault.error)

def setSlot (pool : Pool κ crypto) (i : Nat) (slot : CarrierSlot) : Pool κ crypto :=
  { pool with store := { pool.store with carriers := pool.store.carriers.set i slot } }

/-- `self.carriers[i]`. -/
def slotAt (i : Nat) : Prog Fault (Pool κ crypto) CarrierSlot := do
  let pool ← Prog.gets id
  match pool.store.carriers[i]? with
  | none => throw .panic
  | some slot => pure slot

def ensureLoaded (i : Nat) : Prog Fault (Pool κ crypto) Unit := do
  let slot ← slotAt i
  match slot.buffer with
  | some _ => pure ()
  | none => do
    let pool ← Prog.gets id
    let payload ← ofResult (pool.store.fetch pool.folder slot)
    Prog.update fun pool => pool.setSlot i { slot with buffer := some payload }

def readBlock (lba : Nat) : Prog Fault (Pool κ crypto) Block := do
  let pool ← Prog.gets id
  let i ← ofResult (pool.store.carrierFor lba)
  ensureLoaded i
  let slot ← slotAt i
  match slot.buffer with
  | none => throw (.error (.manifest "carrier buffer was not loaded"))
  | some buffer =>
    match sliceChecked buffer (slot.offset lba) (slot.offset lba + PB) with
    | none => throw .panic
    | some block => ofResult (pool.store.decodeBlock crypto lba block)

/-- `OsRng.fill_bytes` of a nonce. -/
def drawNonce : Prog Fault (Pool κ crypto) (Vector UInt8 24) := do
  let pool ← Prog.gets id
  Prog.update fun pool => { pool with nonces := fun n => pool.nonces (n + 1) }
  pure (pool.nonces 0)

/-- The bytes that `write_block` stores for a payload. -/
def encodeBlock (lba : Nat) (payload : List UInt8) : Prog Fault (Pool κ crypto) (List UInt8) := do
  let pool ← Prog.gets id
  if pool.store.encrypted then
    match pool.store.cipher with
    | none => throw (.error .auth)
    | some cipher => do
      let nonce ← drawNonce
      ofResult (cipher.encode crypto nonce lba payload)
  else
    pure (buildPhysicalBlock payload)

def writeBlock (lba : Nat) (payload : List UInt8) : Prog Fault (Pool κ crypto) Unit := do
  if payload.length > UB then
    throw (.error (.manifest ("block payload has " ++ toString payload.length ++ " bytes, maximum is " ++
      toString UB)))
  else do
    let pool ← Prog.gets id
    let i ← ofResult (pool.store.carrierFor lba)
    ensureLoaded i
    let slot ← slotAt i
    let block ← encodeBlock lba payload
    match slot.buffer with
    | none => throw (.error (.manifest "carrier buffer was not loaded"))
    | some buffer =>
      if slot.offset lba + PB ≤ buffer.length then
        Prog.update fun pool => pool.setSlot i
          { slot with buffer := some (overwrite buffer (slot.offset lba) block), dirty := true }
      else
        throw .panic

/-- `write_chunk` on the carrier of a slot. -/
def writeCarrier (path : String) (mode : ChunkWrite) (payload orderKey : List UInt8) :
    Prog Fault (Pool κ crypto) Unit := do
  let pool ← Prog.gets id
  let result := writeChunk pool.folder path mode payload orderKey
  Prog.update fun pool => { pool with folder := result.2 }
  ofResult (result.1.mapError FsError.codec)

/-- The loop of `flush` over the `n` slots from number `i` on. -/
def flushSlots : Nat → Nat → Prog Fault (Pool κ crypto) Unit
  | _, 0 => pure ()
  | i, n + 1 => do
    let slot ← slotAt i
    if slot.dirty then do
      match slot.buffer with
      | none => throw (.error (.manifest "dirty carrier has no buffer"))
      | some buffer => do
        if (kindFor slot.path).isNone then
          throw (.error (.manifest ("unsupported carrier type: " ++ slot.path)))
        else do
          let pool ← Prog.gets id
          let (mode, orderKey) ← ofResult (pool.store.writeMode slot)
          writeCarrier slot.path mode buffer orderKey
          Prog.update fun pool => pool.setSlot i { slot with dirty := false }
          flushSlots (i + 1) n
    else
      flushSlots (i + 1) n

def flush : Prog Fault (Pool κ crypto) Unit := do
  let pool ← Prog.gets id
  flushSlots 0 pool.store.carriers.length

def now : Prog Fault (Pool κ crypto) UInt64 := do
  let pool ← Prog.gets id
  Prog.update fun pool => { pool with clock := fun n => pool.clock (n + 1) }
  pure (pool.clock 0)

/-- The store as the file system uses it. A panic ends the program, which no caller sees. -/
def run {α : Type} (m : Prog Fault (Pool κ crypto) α) : Prog FsError (Pool κ crypto) α :=
  Prog.mapError (fun fault => match fault with
    | .panic => .io "panic"
    | .error e => e) m

instance : BlockDevice (Pool κ crypto) where
  readBlock lba := run (readBlock lba)
  writeBlock lba payload := run (writeBlock lba payload)
  flush := run flush
  now := run now

end Pool

end AlbumFS

import AlbumFS.Fs.Bitmap
import AlbumFS.Fs.Device
import AlbumFS.Fs.Dirent
import AlbumFS.Fs.Inode
import AlbumFS.Fs.Superblock

/-!
# The operations of the file system

The operations of `fs/album.rs` over an arbitrary block device, with the two functions of
`fs/format.rs` that store and load the bitmap. An operation is a program over the open file system
`AlbumFs σ`: the device, the superblock and the bitmap in memory. The inode that the source
updates through a mutable reference is passed in and returned.

The loops of the source are recursions over the same values: over the remaining count for the
loops over a range of indices, and over the distance to the end for the loops over the records of a
block and over the bytes of a range. Where the body of a record loop writes the block and returns,
the recursion returns the changed block.

Arithmetic on the fields of an inode wraps, as in a release build.
-/

namespace AlbumFS

/-- The pointers that a block holds. -/
@[irreducible] def POINTERS_PER_BLOCK : Nat := UB / 8

theorem POINTERS_PER_BLOCK_eq : POINTERS_PER_BLOCK = 504 := by
  unfold POINTERS_PER_BLOCK
  rfl

theorem POINTERS_PER_BLOCK_pos : 0 < POINTERS_PER_BLOCK := by
  rw [POINTERS_PER_BLOCK_eq]
  decide

/-- An open file system. -/
structure AlbumFs (σ : Type) where
  store : σ
  sb : Superblock
  bitmap : Bitmap

/-- Programs over an open file system. -/
abbrev FsM (σ : Type) : Type → Type := Prog FsError (AlbumFs σ)

variable {σ : Type} [BlockDevice σ]

/-! ### The stored bitmap -/

/-- The loop of `write_bitmap` over the `n` bitmap blocks from the block numbered `index` on. -/
def writeBitmapBlocks (sb : Superblock) (bitmap : Bitmap) : Nat → Nat → Prog FsError σ Unit
  | _, 0 => pure ()
  | index, n + 1 => do
    let start := index * UB
    let stop := min (start + UB) bitmap.asBytes.length
    let piece := if start < stop then slice bitmap.asBytes start (stop - start) else []
    BlockDevice.writeBlock (sb.bitmapStart.toNat + index) piece
    writeBitmapBlocks sb bitmap (index + 1) n

def writeBitmap (sb : Superblock) (bitmap : Bitmap) : Prog FsError σ Unit :=
  writeBitmapBlocks sb bitmap 0 (sb.inodeTableStart.toNat - sb.bitmapStart.toNat)

/-- The loop of `load_bitmap` over `n` blocks from `block` on, `bytes` read so far. -/
def loadBitmapBlocks (needed : Nat) : Nat → Nat → List UInt8 → Prog FsError σ (List UInt8)
  | _, 0, bytes => pure bytes
  | block, n + 1, bytes => do
    let payload ← BlockDevice.readBlock block
    let remaining := needed - bytes.length
    loadBitmapBlocks needed (block + 1) n (bytes ++ payload.bytes.take (min remaining UB))

def loadBitmap (sb : Superblock) : Prog FsError σ Bitmap := do
  let needed := divCeil sb.totalBlocks.toNat 8
  let bytes ← loadBitmapBlocks needed sb.bitmapStart.toNat
    (sb.inodeTableStart.toNat - sb.bitmapStart.toNat) []
  pure (Bitmap.fromBytes bytes sb.totalBlocks.toNat)

namespace AlbumFs

/-! ### The device and the clock -/

/-- Run a program of the device on the store of the file system. -/
def onStore {α : Type} (m : Prog FsError σ α) : FsM σ α :=
  Prog.onPart (fun fs : AlbumFs σ => fs.store) (fun store fs => { fs with store }) m

def readBlock (lba : Nat) : FsM σ Block := onStore (BlockDevice.readBlock lba)

def writeBlock (lba : Nat) (payload : List UInt8) : FsM σ Unit :=
  onStore (BlockDevice.writeBlock lba payload)

def now : FsM σ UInt64 := onStore BlockDevice.now

def sync : FsM σ Unit := do
  let fs ← Prog.gets id
  onStore (writeBitmap fs.sb fs.bitmap)
  onStore BlockDevice.flush

def freeBlocks (fs : AlbumFs σ) : Nat := fs.bitmap.countFree

/-! ### Inodes -/

/-- The block of the record of `ino` and its position there. -/
def inodeLocation (sb : Superblock) (ino : Nat) : Except FsError (Nat × Nat) :=
  if ino = 0 ∨ ino > sb.inodeCount.toNat then
    .error .notFound
  else
    let byteOffset := (ino - 1) * INODE_SIZE % 2 ^ 64
    .ok ((sb.inodeTableStart.toNat + byteOffset / UB) % 2 ^ 64, byteOffset % UB)

def readInode (ino : Nat) : FsM σ Inode := do
  let sb ← Prog.gets fun fs : AlbumFs σ => fs.sb
  let (block, offset) ← Prog.ofExcept (inodeLocation sb ino)
  let payload ← readBlock block
  Prog.ofExcept (Inode.decode (slice payload.bytes offset INODE_SIZE))

def writeInode (ino : Nat) (inode : Inode) : FsM σ Unit := do
  let sb ← Prog.gets fun fs : AlbumFs σ => fs.sb
  let (block, offset) ← Prog.ofExcept (inodeLocation sb ino)
  let payload ← readBlock block
  writeBlock block (payload.write offset inode.encode).bytes

/-- The loop of `alloc_inode` over the `n` inodes from `ino` on. -/
def allocInodeFrom : Nat → Nat → FsM σ Nat
  | _, 0 => throw .noSpace
  | ino, n + 1 => do
    let inode ← readInode ino
    if inode.mode = 0 then
      pure ino
    else
      allocInodeFrom (ino + 1) n

def allocInode : FsM σ Nat := do
  let sb ← Prog.gets fun fs : AlbumFs σ => fs.sb
  allocInodeFrom 1 sb.inodeCount.toNat

/-- The loop of `used_inodes` over the `n` inodes from `ino` on. -/
def usedInodesFrom : Nat → Nat → FsM σ Nat
  | _, 0 => pure 0
  | ino, n + 1 => do
    let inode ← readInode ino
    let rest ← usedInodesFrom (ino + 1) n
    pure (if inode.mode ≠ 0 then rest + 1 else rest)

def usedInodes : FsM σ Nat := do
  let sb ← Prog.gets fun fs : AlbumFs σ => fs.sb
  usedInodesFrom 1 sb.inodeCount.toNat

def freeInode (ino : Nat) : FsM σ Unit := writeInode ino Inode.default

def getattr (ino : Nat) : FsM σ Inode := do
  let inode ← readInode ino
  if inode.mode = 0 then throw .notFound else pure inode

/-! ### The block map -/

def allocateBlock : FsM σ Nat := do
  let fs ← Prog.gets id
  let (block, bitmap) ← Prog.ofExcept (fs.bitmap.allocFrom fs.sb.dataStart.toNat)
  Prog.update fun fs => { fs with bitmap }
  writeBlock block []
  pure block

def clearBit (block : Nat) : FsM σ Unit :=
  Prog.update fun fs => { fs with bitmap := fs.bitmap.clear block }

def pointerAt (block : Block) (index : Nat) : UInt64 := u64At block.bytes (index * 8)

def setPointer (block : Block) (index : Nat) (pointer : UInt64) : Block :=
  block.write (index * 8) (u64LE pointer)

/-- `(pointer != 0).then_some(pointer)`. -/
def thenSome (pointer : UInt64) : Option Nat := if pointer ≠ 0 then some pointer.toNat else none

/-- The data block behind entry `index` of the pointer block `table`, allocated when it is missing
and `allocate` is set. The flag of the result says whether it was allocated. -/
def entryBlock (table index : Nat) (allocate : Bool) : FsM σ (Option Nat × Bool) := do
  let pointers ← readBlock table
  let pointer := pointerAt pointers index
  if pointer = 0 ∧ allocate = true then
    let newBlock ← allocateBlock
    writeBlock table (setPointer pointers index (UInt64.ofNat newBlock)).bytes
    pure (some newBlock, true)
  else
    pure (thenSome pointer, false)

/-- `inode.block_count += 1` when a data block was allocated. -/
def countBlock (inode : Inode) (allocated : Bool) : Inode :=
  if allocated then { inode with blockCount := inode.blockCount + 1 } else inode

def bmap (inode : Inode) (index : Nat) (allocate : Bool) : FsM σ (Option Nat × Inode) :=
  if h : index < 12 then
    if inode.direct[index] = 0 ∧ allocate = true then do
      let block ← allocateBlock
      let inode := { inode with
        direct := inode.direct.set index (UInt64.ofNat block)
        blockCount := inode.blockCount + 1 }
      pure (thenSome inode.direct[index], inode)
    else
      pure (thenSome inode.direct[index], inode)
  else
    let relative := index - 12
    if relative < POINTERS_PER_BLOCK then
      if inode.singleIndirect = 0 ∧ allocate = false then
        pure (none, inode)
      else do
        let inode ← (if inode.singleIndirect = 0 then do
            let block ← allocateBlock
            pure { inode with singleIndirect := UInt64.ofNat block }
          else pure inode)
        let (block, allocated) ← entryBlock inode.singleIndirect.toNat relative allocate
        pure (block, countBlock inode allocated)
    else
      let relative := relative - POINTERS_PER_BLOCK
      if relative ≥ POINTERS_PER_BLOCK * POINTERS_PER_BLOCK then
        throw (.badBlock index)
      else if inode.doubleIndirect = 0 ∧ allocate = false then
        pure (none, inode)
      else do
        let inode ← (if inode.doubleIndirect = 0 then do
            let block ← allocateBlock
            pure { inode with doubleIndirect := UInt64.ofNat block }
          else pure inode)
        let (inner, _) ← entryBlock inode.doubleIndirect.toNat (relative / POINTERS_PER_BLOCK)
          allocate
        match inner with
        | none => pure (none, inode)
        | some inner => do
          let (block, allocated) ← entryBlock inner (relative % POINTERS_PER_BLOCK) allocate
          pure (block, countBlock inode allocated)

/-! ### Releasing blocks -/

/-- Take entry `index` out of the pointer block `pointers` and free the block behind it. The flag
says whether there was one. -/
def takeEntry (pointers : Block) (index : Nat) : FsM σ (Block × Bool) := do
  let block := pointerAt pointers index
  if block ≠ 0 then
    clearBit block.toNat
    pure (setPointer pointers index 0, true)
  else
    pure (pointers, false)

/-- `inode.block_count -= 1` when a data block was released. -/
def uncountBlock (inode : Inode) (released : Bool) : Inode :=
  if released then { inode with blockCount := inode.blockCount - 1 } else inode

/-- `block.iter().all(|byte| *byte == 0)`. -/
def allZero (block : Block) : Bool := block.bytes.all fun byte => byte == 0

/-- Release the pointer block `table` when it holds no pointer any more, else store it. The flag
says whether it was released. -/
def storeOrRelease (table : Nat) (pointers : Block) : FsM σ Bool :=
  if allZero pointers then do
    clearBit table
    pure true
  else do
    writeBlock table pointers.bytes
    pure false

def removeMappedBlock (inode : Inode) (index : Nat) : FsM σ Inode :=
  if h : index < 12 then
    let block := inode.direct[index]
    let inode := { inode with direct := inode.direct.set index 0 }
    if block ≠ 0 then do
      clearBit block.toNat
      pure { inode with blockCount := inode.blockCount - 1 }
    else
      pure inode
  else
    let relative := index - 12
    if relative < POINTERS_PER_BLOCK then
      if inode.singleIndirect = 0 then
        pure inode
      else do
        let pointers ← readBlock inode.singleIndirect.toNat
        let (pointers, removed) ← takeEntry pointers relative
        let inode := uncountBlock inode removed
        let released ← storeOrRelease inode.singleIndirect.toNat pointers
        pure (if released then { inode with singleIndirect := 0 } else inode)
    else
      let relative := relative - POINTERS_PER_BLOCK
      if relative ≥ POINTERS_PER_BLOCK * POINTERS_PER_BLOCK ∨ inode.doubleIndirect = 0 then
        pure inode
      else do
        let outer ← readBlock inode.doubleIndirect.toNat
        let innerBlock := pointerAt outer (relative / POINTERS_PER_BLOCK)
        if innerBlock = 0 then
          pure inode
        else do
          let inner ← readBlock innerBlock.toNat
          let (inner, removed) ← takeEntry inner (relative % POINTERS_PER_BLOCK)
          let inode := uncountBlock inode removed
          let emptied ← storeOrRelease innerBlock.toNat inner
          let outer := if emptied then setPointer outer (relative / POINTERS_PER_BLOCK) 0 else outer
          let released ← storeOrRelease inode.doubleIndirect.toNat outer
          pure (if released then { inode with doubleIndirect := 0 } else inode)

/-- Remove the `n` mapped blocks from `index` on. -/
def removeMappedBlocks : Inode → Nat → Nat → FsM σ Inode
  | inode, _, 0 => pure inode
  | inode, index, n + 1 => do
    let inode ← removeMappedBlock inode index
    removeMappedBlocks inode (index + 1) n

def freeAllBlocks (inode : Inode) : FsM σ Inode := do
  let inode ← removeMappedBlocks inode 0 (divCeil inode.size.toNat UB)
  pure { inode with size := 0 }

end AlbumFs

end AlbumFS

import AlbumFS.Fs.Operations

/-!
# Formatting a pool

The part of `format_with_anchor_options` of `fs/format.rs` that lays out a pool and fills its
blocks, over an arbitrary block device.

## Main definitions

* `layout`: the superblock for a number of blocks.
* `formatStore`: filling the blocks.
* `Formatted`: an open file system right after formatting.
-/

namespace AlbumFS

open Prog

/-- The regions of a pool of `totalBlocks` blocks. -/
def layout (totalBlocks : Nat) (manifest : List CarrierRange) (encrypted : Bool) :
    Except FsError Superblock :=
  let bitmapStart := 1
  let bitmapBlocks := divCeil (divCeil totalBlocks 8) UB
  let inodeTableStart := bitmapStart + bitmapBlocks
  let inodeCount := max 64 (totalBlocks / 4)
  let inodeTableBlocks := divCeil inodeCount 21
  let dataStart := inodeTableStart + inodeTableBlocks
  if dataStart ≥ totalBlocks then
    .error .emptyPool
  else if encrypted then
    .ok (Superblock.markerless (UInt64.ofNat totalBlocks) (UInt64.ofNat inodeCount)
      (UInt64.ofNat bitmapStart) (UInt64.ofNat inodeTableStart) (UInt64.ofNat dataStart) manifest)
  else
    .ok (Superblock.standard (UInt64.ofNat totalBlocks) (UInt64.ofNat inodeCount)
      (UInt64.ofNat bitmapStart) (UInt64.ofNat inodeTableStart) (UInt64.ofNat dataStart) manifest
      false)

/-- The inode of the root directory. -/
def rootInode (block : Nat) : Inode :=
  { mode := S_IFDIR ||| 0o755
    nlink := 2
    size := UB64
    blockCount := 1
    direct := Inode.default.direct.set 0 (UInt64.ofNat block) Inode.direct_pos }

theorem isDir_rootInode (block : Nat) : (rootInode block).isDir = true := by
  unfold Inode.isDir rootInode
  dsimp only
  decide

/-- The bitmap with the blocks before `dataStart` marked. -/
def metadataBitmap (totalBlocks dataStart : Nat) : Bitmap :=
  (List.range dataStart).foldl Bitmap.set (Bitmap.new totalBlocks)

section

variable {σ : Type} [BlockDevice σ]

/-- The loop that fills the `n` blocks from `lba` on with zeros. -/
def zeroBlocks : Nat → Nat → Prog FsError σ Unit
  | _, 0 => pure ()
  | lba, n + 1 => do
    BlockDevice.writeBlock lba Block.zero.bytes
    zeroBlocks (lba + 1) n

/-- Fill the blocks of a new file system. -/
def formatStore (sb : Superblock) : Prog FsError σ Unit := do
  let totalBlocks := sb.totalBlocks.toNat
  zeroBlocks 0 totalBlocks
  (if sb.encrypted then
    pure ()
  else if sb.encode.length > UB then
    throw (.manifest ("superblock is " ++ toString sb.encode.length ++
      " bytes and does not fit the " ++ toString UB ++ "-byte block"))
  else
    BlockDevice.writeBlock 0 sb.encode)
  let (rootBlock, bitmap) ← Prog.ofExcept
    ((metadataBitmap totalBlocks sb.dataStart.toNat).allocFrom sb.dataStart.toNat)
  let payload ← Prog.ofExcept (AlbumFs.initialDirectoryBlock 1 1)
  BlockDevice.writeBlock rootBlock payload.bytes
  let inodeTable ← BlockDevice.readBlock sb.inodeTableStart.toNat
  BlockDevice.writeBlock sb.inodeTableStart.toNat
    (inodeTable.write 0 (rootInode rootBlock).encode).bytes
  writeBitmap sb bitmap
  BlockDevice.flush

end

/-- A file system on a disk that was formatted and opened again. -/
def Formatted (fs : AlbumFs Disk) : Prop :=
  ∃ (totalBlocks : Nat) (manifest : List CarrierRange) (encrypted : Bool) (disk formatted : Disk),
    layout totalBlocks manifest encrypted = .ok fs.sb ∧ disk.total = totalBlocks ∧
      totalBlocks * PB < 2 ^ 64 ∧ exec (formatStore fs.sb) disk = (.ok (), formatted) ∧
      exec (loadBitmap fs.sb) formatted = (.ok fs.bitmap, fs.store)

/-! ### The regions -/

section Layout

/-- A pool whose bytes fit `usize` has few blocks. -/
theorem lt_of_mul_PB_lt {totalBlocks : Nat} (h : totalBlocks * PB < 2 ^ 64) : totalBlocks < 2 ^ 64 :=
  Nat.lt_of_le_of_lt (Nat.le_mul_of_pos_right _ (by decide)) h

variable {totalBlocks : Nat} {manifest : List CarrierRange} {encrypted : Bool} {sb : Superblock}

/-- The regions that `layout` sets out. -/
theorem layout_eq_ok (h : layout totalBlocks manifest encrypted = .ok sb)
    (htotal : totalBlocks < 2 ^ 64) :
    sb.totalBlocks.toNat = totalBlocks ∧ sb.bitmapStart.toNat = 1 ∧
      sb.inodeTableStart.toNat = 1 + divCeil (divCeil totalBlocks 8) UB ∧
      sb.inodeCount.toNat = max 64 (totalBlocks / 4) ∧
      sb.dataStart.toNat = sb.inodeTableStart.toNat + divCeil sb.inodeCount.toNat INODES_PER_BLOCK ∧
      sb.dataStart.toNat < totalBlocks := by
  have hcount : max 64 (totalBlocks / 4) < 2 ^ 64 := by omega
  unfold layout at h
  dsimp only at h
  split_ifs at h with hge hencrypted
  all_goals
    rw [Except.ok.injEq] at h
    subst h
    simp only [Superblock.markerless, Superblock.standard]
    rw [UInt64.toNat_ofNat_of_lt' (by rw [UInt64.size]; omega),
      UInt64.toNat_ofNat_of_lt' (by rw [UInt64.size]; omega),
      UInt64.toNat_ofNat_of_lt' (by rw [UInt64.size]; omega),
      UInt64.toNat_ofNat_of_lt' (by rw [UInt64.size]; omega),
      UInt64.toNat_ofNat_of_lt' (by rw [UInt64.size]; omega)]
    exact ⟨rfl, rfl, rfl, rfl, rfl, Nat.not_le.1 hge⟩

end Layout

end AlbumFS

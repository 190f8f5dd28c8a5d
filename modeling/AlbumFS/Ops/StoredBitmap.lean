import AlbumFS.Ops.Fresh

/-!
# The stored bitmap

`write_bitmap` cuts the bytes of the bitmap into pieces for the blocks between the superblock and the inode
table, and `load_bitmap` puts the pieces together again. The two loops are written here once more with every
slice checked, as the source has it: a slice that leaves its bytes ends the program with `none`, where the
source would panic.

## Main definitions

* `writeBitmapIndexed`, `loadBitmapIndexed`: the two functions with checked slices.

## Main results

* `writeBitmapIndexed_eq`, `loadBitmapIndexed_eq`: no slice leaves its bytes.
* `loadBitmap_writeBitmap`: a stored bitmap is loaded again, and the other blocks are left alone.
-/

namespace AlbumFS

open Prog

section Indexed

variable {σ : Type} [BlockDevice σ]

/-- `bytes[start..stop]`. -/
def sliceIndexed (bytes : List UInt8) (start stop : Nat) : Prog (Option FsError) σ (List UInt8) :=
  if start ≤ stop ∧ stop ≤ bytes.length then pure (slice bytes start (stop - start)) else throw none

/-- The loop of `write_bitmap` with checked slices. -/
def writeBitmapBlocksIndexed (sb : Superblock) (bitmap : Bitmap) :
    Nat → Nat → Prog (Option FsError) σ Unit
  | _, 0 => pure ()
  | index, n + 1 => do
    let start := index * UB
    let stop := min (start + UB) bitmap.asBytes.length
    let piece ← (if start < stop then sliceIndexed bitmap.asBytes start stop else pure [])
    Prog.mapError some (BlockDevice.writeBlock (sb.bitmapStart.toNat + index) piece)
    writeBitmapBlocksIndexed sb bitmap (index + 1) n

/-- `write_bitmap` with checked slices. -/
def writeBitmapIndexed (sb : Superblock) (bitmap : Bitmap) : Prog (Option FsError) σ Unit :=
  writeBitmapBlocksIndexed sb bitmap 0 (sb.inodeTableStart.toNat - sb.bitmapStart.toNat)

/-- The loop of `load_bitmap` with checked slices. -/
def loadBitmapBlocksIndexed (needed : Nat) :
    Nat → Nat → List UInt8 → Prog (Option FsError) σ (List UInt8)
  | _, 0, bytes => pure bytes
  | block, n + 1, bytes => do
    let payload ← Prog.mapError some (BlockDevice.readBlock block)
    let remaining := needed - bytes.length
    let piece ← sliceIndexed payload.bytes 0 (min remaining UB)
    loadBitmapBlocksIndexed needed (block + 1) n (bytes ++ piece)

/-- `load_bitmap` with checked slices. -/
def loadBitmapIndexed (sb : Superblock) : Prog (Option FsError) σ Bitmap := do
  let needed := divCeil sb.totalBlocks.toNat 8
  let bytes ← loadBitmapBlocksIndexed needed sb.bitmapStart.toNat
    (sb.inodeTableStart.toNat - sb.bitmapStart.toNat) []
  pure (Bitmap.fromBytes bytes sb.totalBlocks.toNat)

omit [BlockDevice σ] in
theorem sliceIndexed_of_le {bytes : List UInt8} {start stop : Nat} (h : start ≤ stop)
    (h' : stop ≤ bytes.length) :
    (sliceIndexed bytes start stop : Prog (Option FsError) σ (List UInt8)) =
      pure (slice bytes start (stop - start)) :=
  if_pos ⟨h, h'⟩

/-- No slice of `write_bitmap` leaves the bytes of the bitmap. -/
theorem writeBitmapBlocksIndexed_eq (sb : Superblock) (bitmap : Bitmap) (index n : Nat) :
    (writeBitmapBlocksIndexed sb bitmap index n : Prog (Option FsError) σ Unit) =
      Prog.mapError some (writeBitmapBlocks sb bitmap index n) := by
  induction n generalizing index with
  | zero => rfl
  | succ n ih =>
    have hpiece : (if index * UB < min (index * UB + UB) bitmap.asBytes.length then
          sliceIndexed bitmap.asBytes (index * UB) (min (index * UB + UB) bitmap.asBytes.length)
        else pure [] : Prog (Option FsError) σ (List UInt8)) =
        pure (AlbumFs.bitmapPiece bitmap index) := by
      unfold AlbumFs.bitmapPiece
      dsimp only
      split_ifs with hlt
      · exact sliceIndexed_of_le (Nat.le_of_lt hlt) (Nat.min_le_right _ _)
      · rfl
    rw [writeBitmapBlocksIndexed, writeBitmapBlocks, hpiece, pure_bind, ih]
    exact (mapError_bind _ _ _).symm

theorem writeBitmapIndexed_eq (sb : Superblock) (bitmap : Bitmap) :
    (writeBitmapIndexed sb bitmap : Prog (Option FsError) σ Unit) =
      Prog.mapError some (writeBitmap sb bitmap) :=
  writeBitmapBlocksIndexed_eq _ _ _ _

/-- No slice of `load_bitmap` leaves a block. -/
theorem loadBitmapBlocksIndexed_eq (needed block n : Nat) (bytes : List UInt8) :
    (loadBitmapBlocksIndexed needed block n bytes : Prog (Option FsError) σ (List UInt8)) =
      Prog.mapError some (loadBitmapBlocks needed block n bytes) := by
  induction n generalizing block bytes with
  | zero => rfl
  | succ n ih =>
    rw [loadBitmapBlocksIndexed, loadBitmapBlocks, mapError_bind]
    congr 1
    funext payload
    have hle : min (needed - bytes.length) UB ≤ payload.bytes.length := by
      rw [payload.length_bytes]
      exact Nat.min_le_right _ _
    dsimp only
    rw [sliceIndexed_of_le (Nat.zero_le _) hle, pure_bind, ih]
    rfl

theorem loadBitmapIndexed_eq (sb : Superblock) :
    (loadBitmapIndexed sb : Prog (Option FsError) σ Bitmap) = Prog.mapError some (loadBitmap sb) := by
  rw [loadBitmapIndexed, loadBitmapBlocksIndexed_eq, loadBitmap, mapError_bind]
  rfl

end Indexed

/-- A bitmap that is stored in a laid out pool is loaded again, with the same bytes and the same marks. Only
the blocks between the superblock and the inode table have changed, and no slice leaves its bytes. -/
theorem loadBitmap_writeBitmap {totalBlocks : Nat} {manifest : List CarrierRange} {encrypted : Bool}
    {sb : Superblock} (h : layout totalBlocks manifest encrypted = .ok sb)
    (hsize : totalBlocks < 2 ^ 64) (bitmap : Bitmap) (hbitmap : bitmap.totalBlocks = totalBlocks)
    {disk : Disk} (htotal : totalBlocks ≤ disk.total) :
    ∃ disk' loaded, exec (writeBitmap sb bitmap) disk = (.ok (), disk') ∧
      exec (loadBitmap sb) disk' = (.ok loaded, disk') ∧
      loaded.asBytes = bitmap.asBytes ∧ (∀ block, loaded.isSet block = bitmap.isSet block) ∧
      (∀ block, ¬(sb.bitmapStart.toNat ≤ block ∧ block < sb.inodeTableStart.toNat) →
        disk'.blocks block = disk.blocks block) ∧
      (writeBitmapIndexed sb bitmap : Prog (Option FsError) Disk Unit) =
        Prog.mapError some (writeBitmap sb bitmap) ∧
      (loadBitmapIndexed sb : Prog (Option FsError) Disk Bitmap) = Prog.mapError some (loadBitmap sb) := by
  obtain ⟨htb, hbs, hits, hic, hds, hlt⟩ := layout_eq_ok h hsize
  have hwrite := AlbumFs.ends_writeBitmapBlocks sb bitmap disk
    (sb.inodeTableStart.toNat - sb.bitmapStart.toNat) 0 (by omega)
  rcases hexec : exec (writeBitmap sb bitmap) disk with ⟨_ | _, disk'⟩
  · exact (hwrite.of_error hexec).elim
  have hdisk := hwrite.of_ok hexec
  have hload : Ends (loadBitmap sb) disk' (fun loaded disk'' => loaded = bitmap ∧ disk'' = disk')
      fun _ _ => False := by
    refine ends_loadBitmap (by rw [hbitmap, htb]) (by rw [hbs, hits, htb]) ?_ fun block hge hlt' => ?_
    · rw [hdisk]
      exact Nat.le_trans (by omega) htotal
    · rw [hdisk]
      exact if_pos (by omega)
  rcases hexec' : exec (loadBitmap sb) disk' with ⟨_ | loaded, disk''⟩
  · exact (hload.of_error hexec').elim
  obtain ⟨rfl, rfl⟩ := hload.of_ok hexec'
  refine ⟨disk'', loaded, rfl, hexec', rfl, fun _ => rfl, fun block hout => ?_, writeBitmapIndexed_eq _ _,
    loadBitmapIndexed_eq _⟩
  rw [hdisk]
  exact if_neg (by omega)

/-- The theorem for a bitmap with one mark. -/
theorem loadBitmap_writeBitmap_smallPool :
    ∃ disk' loaded, exec (writeBitmap smallSuperblock ((Bitmap.new 64).set 9)) smallDisk = (.ok (), disk') ∧
      exec (loadBitmap smallSuperblock) disk' = (.ok loaded, disk') ∧
      loaded.asBytes = ((Bitmap.new 64).set 9).asBytes ∧
      (∀ block, loaded.isSet block = ((Bitmap.new 64).set 9).isSet block) ∧
      (∀ block, ¬(smallSuperblock.bitmapStart.toNat ≤ block ∧ block < smallSuperblock.inodeTableStart.toNat) →
        disk'.blocks block = smallDisk.blocks block) ∧
      (writeBitmapIndexed smallSuperblock ((Bitmap.new 64).set 9) : Prog (Option FsError) Disk Unit) =
        Prog.mapError some (writeBitmap smallSuperblock ((Bitmap.new 64).set 9)) ∧
      (loadBitmapIndexed smallSuperblock : Prog (Option FsError) Disk Bitmap) =
        Prog.mapError some (loadBitmap smallSuperblock) :=
  loadBitmap_writeBitmap (show layout 64 smallSuperblock.manifest true = .ok smallSuperblock by rfl)
    (by decide) _ (Bitmap.totalBlocks_set _ _) (Nat.le_refl 64)

end AlbumFS

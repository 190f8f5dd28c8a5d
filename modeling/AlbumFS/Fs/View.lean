import AlbumFS.Fs.Album
import Mathlib.Logic.Function.Basic
import Mathlib.Algebra.Order.Interval.Finset.SuccPred
import Mathlib.Data.Nat.SuccPred
import Mathlib.Order.Interval.Finset.Nat

/-!
# The view of a file system

The operations see the device through three things: the live inodes, the data blocks and the
bitmap. A `View` shows these as maps. It leaves out how inode records are packed into the blocks
of the table, the stored copy of the bitmap, the outcomes of coming flushes and the clock.

This file says once what each primitive of `AlbumFS.Fs.Album` does to the view of a file system on
a `Disk`. Everything that follows reasons about views.

## Main definitions

* `View`, `AlbumFs.view`: views and the view of an open file system.
* `View.Geometry`: the regions of the device are laid out as the formatter lays them out.

## Main results

* `AlbumFs.reads_getattr`, `AlbumFs.reads_allocInode`: reading the inode table.
* `AlbumFs.endsOn_writeInode`: storing an inode changes this inode only.
* `AlbumFs.endsOn_allocateBlock`, `AlbumFs.endsOn_sync`: allocation and synchronisation.
-/

namespace AlbumFS

open Prog

/-- What the operations see of a file system. -/
structure View where
  sb : Superblock
  total : Nat
  bitmap : Bitmap
  /-- The inodes whose mode is not zero. -/
  inodes : Nat → Option Inode
  data : Nat → Block

/-- The stored inode as a view shows it. -/
def Inode.live (inode : Inode) : Option Inode := if inode.mode = 0 then none else some inode

@[simp] theorem Inode.live_default : Inode.default.live = none := rfl

theorem Inode.live_of_ne {inode : Inode} (h : inode.mode ≠ 0) : inode.live = some inode :=
  if_neg h

namespace View

/-- The inode `ino` is stored. -/
def setInode (v : View) (ino : Nat) (inode : Inode) : View :=
  { v with inodes := Function.update v.inodes ino inode.live }

/-- The data block `lba` is written. -/
def setData (v : View) (lba : Nat) (block : Block) : View :=
  { v with data := Function.update v.data lba block }

def setBitmap (v : View) (bitmap : Bitmap) : View := { v with bitmap }

section

variable (v : View) (ino lba : Nat) (inode : Inode) (block : Block) (bitmap : Bitmap)

@[simp] theorem sb_setInode : (v.setInode ino inode).sb = v.sb := rfl

@[simp] theorem total_setInode : (v.setInode ino inode).total = v.total := rfl

@[simp] theorem bitmap_setInode : (v.setInode ino inode).bitmap = v.bitmap := rfl

@[simp] theorem inodes_setInode :
    (v.setInode ino inode).inodes = Function.update v.inodes ino inode.live := rfl

@[simp] theorem data_setInode : (v.setInode ino inode).data = v.data := rfl

@[simp] theorem sb_setData : (v.setData lba block).sb = v.sb := rfl

@[simp] theorem total_setData : (v.setData lba block).total = v.total := rfl

@[simp] theorem bitmap_setData : (v.setData lba block).bitmap = v.bitmap := rfl

@[simp] theorem inodes_setData : (v.setData lba block).inodes = v.inodes := rfl

@[simp] theorem data_setData :
    (v.setData lba block).data = Function.update v.data lba block := rfl

@[simp] theorem sb_setBitmap : (v.setBitmap bitmap).sb = v.sb := rfl

@[simp] theorem total_setBitmap : (v.setBitmap bitmap).total = v.total := rfl

@[simp] theorem bitmap_setBitmap : (v.setBitmap bitmap).bitmap = bitmap := rfl

@[simp] theorem inodes_setBitmap : (v.setBitmap bitmap).inodes = v.inodes := rfl

@[simp] theorem data_setBitmap : (v.setBitmap bitmap).data = v.data := rfl

end

/-- `ino` is the number of an inode of the table. -/
def ValidIno (v : View) (ino : Nat) : Prop := 0 < ino ∧ ino ≤ v.sb.inodeCount.toNat

/-- `lba` lies in the data region. -/
def InData (v : View) (lba : Nat) : Prop := v.sb.dataStart.toNat ≤ lba ∧ lba < v.total

/-- The regions of the device follow one another: the superblock, the bitmap, the inode table and
the data. The device fits into the address space, since the formatter holds it in memory. -/
structure Geometry (v : View) : Prop where
  totalBlocks_eq : v.bitmap.totalBlocks = v.total
  sb_totalBlocks_eq : v.sb.totalBlocks.toNat = v.total
  bitmapStart_pos : 0 < v.sb.bitmapStart.toNat
  bitmap_le : v.sb.bitmapStart.toNat + divCeil (divCeil v.total 8) UB ≤ v.sb.inodeTableStart.toNat
  table_le : v.sb.inodeTableStart.toNat + divCeil v.sb.inodeCount.toNat INODES_PER_BLOCK ≤
    v.sb.dataStart.toNat
  dataStart_lt : v.sb.dataStart.toNat < v.total
  inodes_lt : v.sb.inodeCount.toNat * INODE_SIZE < 2 ^ 64

/-- The live inode `ino`. -/
def getattr (v : View) (ino : Nat) : Except FsError Inode :=
  match v.inodes ino with
  | some inode => .ok inode
  | none => .error .notFound

/-- The lowest inode number that is not in use. -/
def allocInode (v : View) : Except FsError Nat :=
  match (List.range' 1 v.sb.inodeCount.toNat).find? fun ino => (v.inodes ino).isNone with
  | some ino => .ok ino
  | none => .error .noSpace

/-- The inode numbers in use. -/
def liveInodes (v : View) : Finset Nat :=
  (Finset.Ico 1 (v.sb.inodeCount.toNat + 1)).filter fun ino => v.inodes ino ≠ none

variable {v : View}

theorem getattr_of_some {ino : Nat} {inode : Inode} (h : v.inodes ino = some inode) :
    v.getattr ino = .ok inode := by
  rw [getattr, h]

theorem getattr_of_none {ino : Nat} (h : v.inodes ino = none) :
    v.getattr ino = .error .notFound := by
  rw [getattr, h]

theorem inodes_of_getattr {ino : Nat} {inode : Inode} (h : v.getattr ino = .ok inode) :
    v.inodes ino = some inode := by
  unfold getattr at h
  split at h
  · rw [← Except.ok.inj h]
    assumption
  · cases h

theorem allocInode_ok {ino : Nat} (h : v.allocInode = .ok ino) :
    v.ValidIno ino ∧ v.inodes ino = none ∧ ∀ j, 0 < j → j < ino → v.inodes j ≠ none := by
  unfold allocInode at h
  split at h
  · rename_i found hfind
    cases h
    rw [List.find?_range'_eq_some] at hfind
    obtain ⟨hnone, hmem, hbefore⟩ := hfind
    rw [List.mem_range'_1] at hmem
    refine ⟨⟨hmem.1, by omega⟩, Option.isNone_iff_eq_none.1 hnone, fun j hj hlt h => ?_⟩
    simpa [h] using hbefore j hj hlt
  · cases h

theorem allocInode_error {e : FsError} (h : v.allocInode = .error e) :
    e = .noSpace ∧ ∀ ino, v.ValidIno ino → v.inodes ino ≠ none := by
  unfold allocInode at h
  split at h
  · cases h
  · rename_i hfind
    cases h
    rw [List.find?_eq_none] at hfind
    refine ⟨rfl, fun ino hino h => ?_⟩
    simpa [h] using hfind ino (List.mem_range'_1.2 ⟨hino.1, by have := hino.2; omega⟩)

/-- The geometry is a matter of the superblock and the sizes. -/
theorem Geometry.congr {w : View} (h : v.Geometry) (hsb : w.sb = v.sb) (htotal : w.total = v.total)
    (hbitmap : w.bitmap.totalBlocks = v.bitmap.totalBlocks) : w.Geometry := by
  obtain ⟨h₁, h₂, h₃, h₄, h₅, h₆, h₇⟩ := h
  constructor <;> simpa only [hsb, htotal, hbitmap]

theorem Geometry.setInode (h : v.Geometry) (ino : Nat) (inode : Inode) :
    (v.setInode ino inode).Geometry :=
  h.congr rfl rfl rfl

theorem Geometry.setData (h : v.Geometry) (lba : Nat) (block : Block) :
    (v.setData lba block).Geometry :=
  h.congr rfl rfl rfl

theorem Geometry.setBitmap (h : v.Geometry) {bitmap : Bitmap}
    (hb : bitmap.totalBlocks = v.bitmap.totalBlocks) : (v.setBitmap bitmap).Geometry :=
  h.congr rfl rfl hb

end View

namespace AlbumFs

/-- The block of the table with the record of `ino`. -/
def tableBlock (sb : Superblock) (ino : Nat) : Nat :=
  sb.inodeTableStart.toNat + (ino - 1) / INODES_PER_BLOCK

/-- The position of the record of `ino` in its block. -/
def tableOffset (ino : Nat) : Nat := (ino - 1) % INODES_PER_BLOCK * INODE_SIZE

/-- The record of `ino`. -/
def inodeAt (fs : AlbumFs Disk) (ino : Nat) : Inode :=
  Inode.ofBytes (slice (fs.store.blocks (tableBlock fs.sb ino)).bytes (tableOffset ino) INODE_SIZE)

/-- The stored inodes whose mode is not zero. -/
def stored (fs : AlbumFs Disk) (ino : Nat) : Option Inode :=
  if 0 < ino ∧ ino ≤ fs.sb.inodeCount.toNat then (fs.inodeAt ino).live else none

def view (fs : AlbumFs Disk) : View where
  sb := fs.sb
  total := fs.store.total
  bitmap := fs.bitmap
  inodes := fs.stored
  data lba := if fs.sb.dataStart.toNat ≤ lba then fs.store.blocks lba else Block.zero

@[simp] theorem sb_view (fs : AlbumFs Disk) : fs.view.sb = fs.sb := rfl

@[simp] theorem total_view (fs : AlbumFs Disk) : fs.view.total = fs.store.total := rfl

@[simp] theorem bitmap_view (fs : AlbumFs Disk) : fs.view.bitmap = fs.bitmap := rfl

@[simp] theorem inodes_view (fs : AlbumFs Disk) : fs.view.inodes = fs.stored := rfl

/-! ### The inode table -/

section Table

variable {v : View} {ino ino' : Nat}

/-- The table is large enough for its inodes. -/
theorem inodeCount_le (hg : v.Geometry) :
    v.sb.inodeTableStart.toNat ≤ v.sb.dataStart.toNat ∧
      v.sb.inodeCount.toNat ≤ (v.sb.dataStart.toNat - v.sb.inodeTableStart.toNat) * 21 :=
  ⟨Nat.le_of_add_right_le hg.table_le, (divCeil_le_iff (by decide)).1
    (Nat.le_sub_of_add_le' hg.table_le)⟩

theorem tableBlock_lt (hg : v.Geometry) (hino : v.ValidIno ino) :
    tableBlock v.sb ino < v.sb.dataStart.toNat := by
  have h := inodeCount_le hg
  have hpos := hino.1
  have hcount := hino.2
  rw [tableBlock, show INODES_PER_BLOCK = 21 from rfl]
  omega

theorem tableOffset_add_le (ino : Nat) : tableOffset ino + INODE_SIZE ≤ UB := by
  rw [tableOffset, show INODES_PER_BLOCK = 21 from rfl, show INODE_SIZE = 192 from rfl, UB_eq]
  omega

/-- Records of different inodes lie in different blocks or do not overlap. -/
theorem table_disjoint (sb : Superblock) (h : 0 < ino) (h' : 0 < ino') (hne : ino' ≠ ino) :
    tableBlock sb ino' ≠ tableBlock sb ino ∨ tableOffset ino' + INODE_SIZE ≤ tableOffset ino ∨
      tableOffset ino + INODE_SIZE ≤ tableOffset ino' := by
  have h21 : INODES_PER_BLOCK = 21 := rfl
  have h192 : INODE_SIZE = 192 := rfl
  unfold tableBlock tableOffset
  rw [h21, h192]
  omega

theorem inodeLocation_of_valid (hg : v.Geometry) (hino : v.ValidIno ino) :
    inodeLocation v.sb ino = .ok (tableBlock v.sb ino, tableOffset ino) := by
  have htable := tableBlock_lt hg hino
  have hcount := inodeCount_le hg
  have hdata := hg.dataStart_lt
  have htotal := v.sb.totalBlocks.toNat_lt
  have hblocks := hg.sb_totalBlocks_eq
  have hino' := hino.2
  have hpos := hino.1
  have hlt : (ino - 1) * INODE_SIZE < 2 ^ 64 :=
    Nat.lt_of_le_of_lt (Nat.mul_le_mul_right _ (by omega)) hg.inodes_lt
  unfold inodeLocation
  rw [if_neg (by omega)]
  simp only [Nat.mod_eq_of_lt hlt, show UB = INODES_PER_BLOCK * INODE_SIZE from rfl,
    Nat.mul_div_mul_right _ _ (show 0 < INODE_SIZE by decide), Nat.mul_mod_mul_right]
  rw [Nat.mod_eq_of_lt]
  · rfl
  · unfold tableBlock at htable
    omega

theorem inodeLocation_of_not_valid (hino : ¬ v.ValidIno ino) :
    inodeLocation v.sb ino = .error .notFound := by
  unfold View.ValidIno at hino
  exact if_pos (by omega)

end Table

/-! ### The device -/

section Device

variable {v : View} {lba : Nat}

theorem data_view {fs : AlbumFs Disk} (h : fs.sb.dataStart.toNat ≤ lba) :
    fs.view.data lba = fs.store.blocks lba :=
  if_pos h

theorem exec_readBlock {fs : AlbumFs Disk} (h : lba < fs.store.total) :
    exec (readBlock lba) fs = (.ok (fs.store.blocks lba), fs) := by
  simp only [readBlock, onStore, exec_onPart, Disk.exec_readBlock h]

theorem exec_writeBlock {fs : AlbumFs Disk} {payload : List UInt8} (h : lba < fs.store.total)
    (hp : payload.length ≤ UB) :
    exec (writeBlock lba payload) fs =
      (.ok (), { fs with store := fs.store.setBlock lba (Block.pad payload) }) := by
  simp only [writeBlock, onStore, exec_onPart, Disk.exec_writeBlock h hp]

theorem reads_readBlock (h : v.InData lba) : Reads view (readBlock lba) v (.ok (v.data lba)) := by
  rintro fs rfl
  rw [exec_readBlock h.2, data_view h.1]

/-- Blocks of the table lie below the data. -/
private theorem stored_setBlock {fs : AlbumFs Disk} (hg : fs.view.Geometry)
    (h : fs.sb.dataStart.toNat ≤ lba) (block : Block) :
    stored { fs with store := fs.store.setBlock lba block } = fs.stored := by
  funext ino
  by_cases hino : 0 < ino ∧ ino ≤ fs.sb.inodeCount.toNat
  · have hlt := tableBlock_lt hg hino
    rw [sb_view] at hlt
    simp only [stored, if_pos hino, inodeAt, Disk.blocks_setBlock]
    rw [Function.update_of_ne (Nat.ne_of_lt (Nat.lt_of_lt_of_le hlt h))]
  · simp only [stored, if_neg hino]

/-- Writing a data block. -/
theorem endsOn_writeBlock (hg : v.Geometry) (h : v.InData lba) {payload : List UInt8}
    (hp : payload.length ≤ UB) {Q : Unit → View → Prop} {E : FsError → View → Prop}
    (hQ : Q () (v.setData lba (Block.pad payload))) :
    EndsOn view (writeBlock lba payload) v Q E := by
  rintro fs rfl
  have hview : view { fs with store := fs.store.setBlock lba (Block.pad payload) } =
      fs.view.setData lba (Block.pad payload) := by
    simp only [view, View.setData, View.mk.injEq, stored_setBlock hg h.1, Disk.total_setBlock,
      Disk.blocks_setBlock, true_and]
    funext b
    by_cases hb : b = lba
    · subst hb
      rw [Function.update_self, Function.update_self]
      exact if_pos h.1
    · rw [Function.update_of_ne hb, Function.update_of_ne hb]
  simpa only [Ends, exec_writeBlock h.2 hp, hview] using hQ

/-- Writing a whole data block. -/
theorem endsOn_writeBlock_bytes (hg : v.Geometry) (h : v.InData lba) {block : Block}
    {Q : Unit → View → Prop} {E : FsError → View → Prop} (hQ : Q () (v.setData lba block)) :
    EndsOn view (writeBlock lba block.bytes) v Q E :=
  endsOn_writeBlock hg h (Nat.le_of_eq block.length_bytes) (by rwa [Block.pad_bytes])

/-- The clock may show anything. -/
theorem endsOn_now {Q : UInt64 → View → Prop} {E : FsError → View → Prop}
    (hQ : ∀ time, Q time v) : EndsOn view now v Q E := by
  rintro fs rfl
  simp only [Ends, now, onStore, exec_onPart, Disk.exec_now]
  exact hQ _

end Device

/-! ### Inodes -/

section Inodes

variable {v : View} {ino : Nat} {inode : Inode}

theorem exec_readInode {fs : AlbumFs Disk} (hg : fs.view.Geometry)
    (hino : fs.view.ValidIno ino) : exec (readInode ino) fs = (.ok (fs.inodeAt ino), fs) := by
  have htotal : tableBlock fs.sb ino < fs.store.total :=
    Nat.lt_trans (tableBlock_lt hg hino) hg.dataStart_lt
  have hlen : ¬ (slice (fs.store.blocks (tableBlock fs.sb ino)).bytes (tableOffset ino)
      INODE_SIZE).length < INODE_SIZE := by
    rw [length_slice]
    · exact Nat.lt_irrefl _
    · rw [Block.length_bytes]
      exact tableOffset_add_le ino
  have hloc := inodeLocation_of_valid hg hino
  rw [sb_view] at hloc
  simp only [readInode, exec_bind, exec_gets, exec_ofExcept, hloc, exec_readBlock htotal,
    Inode.decode, if_neg hlen]
  rfl

theorem reads_getattr (hg : v.Geometry) (ino : Nat) :
    Reads view (getattr ino) v (v.getattr ino) := by
  rintro fs rfl
  by_cases hino : fs.view.ValidIno ino
  · have hstored : fs.view.inodes ino = (fs.inodeAt ino).live := if_pos hino
    simp only [getattr, exec_bind, exec_readInode hg hino, View.getattr, hstored]
    by_cases hmode : (fs.inodeAt ino).mode = 0
    · simp only [hmode, if_true, exec_throw, Inode.live]
    · simp only [hmode, if_false, exec_pure, Inode.live]
  · have hstored : fs.view.inodes ino = none := if_neg hino
    have hloc := inodeLocation_of_not_valid hino
    rw [sb_view] at hloc
    simp only [getattr, readInode, exec_bind, exec_gets, exec_ofExcept, hloc, View.getattr, hstored]

/-- The inodes of a view are inodes of the table, and their modes are not zero. -/
theorem live_of_inodes {fs : AlbumFs Disk} (hi : fs.view.inodes ino = some inode) :
    fs.view.ValidIno ino ∧ inode.mode ≠ 0 := by
  simp only [inodes_view, stored] at hi
  split_ifs at hi with hvalid
  unfold Inode.live at hi
  split_ifs at hi with hmode
  obtain rfl := Option.some.inj hi
  exact ⟨hvalid, hmode⟩

theorem endsOn_of_live {α : Type} {m : FsM Disk α} {Q : α → View → Prop} {E : FsError → View → Prop}
    (h : (∀ i inode, v.inodes i = some inode → v.ValidIno i ∧ inode.mode ≠ 0) →
      EndsOn view m v Q E) : EndsOn view m v Q E := by
  rintro fs rfl
  exact h (fun _ _ => live_of_inodes) fs rfl

/-- The file system with the record of `ino` replaced. -/
private def putInode (fs : AlbumFs Disk) (ino : Nat) (inode : Inode) : AlbumFs Disk :=
  { fs with
    store := fs.store.setBlock (tableBlock fs.sb ino)
      ((fs.store.blocks (tableBlock fs.sb ino)).write (tableOffset ino) inode.encode) }

private theorem stored_putInode {fs : AlbumFs Disk} (hino : fs.view.ValidIno ino) :
    (putInode fs ino inode).stored = Function.update fs.stored ino inode.live := by
  have hend := tableOffset_add_le ino
  funext ino'
  by_cases hne : ino' = ino
  · subst hne
    rw [Function.update_self]
    have hslice : slice (overwrite (fs.store.blocks (tableBlock fs.sb ino')).bytes
        (tableOffset ino') inode.encode) (tableOffset ino') INODE_SIZE = inode.encode := by
      rw [← Inode.length_encode inode]
      refine slice_overwrite_self ?_
      rwa [Inode.length_encode, Block.length_bytes]
    simp only [stored, putInode, inodeAt, Disk.blocks_setBlock, Function.update_self,
      Block.bytes_write, hslice, Inode.ofBytes_encode]
    exact if_pos hino
  · rw [Function.update_of_ne hne]
    by_cases hino' : 0 < ino' ∧ ino' ≤ fs.sb.inodeCount.toNat
    · have hrecord : slice (Function.update fs.store.blocks (tableBlock fs.sb ino)
          ((fs.store.blocks (tableBlock fs.sb ino)).write (tableOffset ino) inode.encode)
            (tableBlock fs.sb ino')).bytes (tableOffset ino') INODE_SIZE =
          slice (fs.store.blocks (tableBlock fs.sb ino')).bytes (tableOffset ino') INODE_SIZE := by
        by_cases hblock : tableBlock fs.sb ino' = tableBlock fs.sb ino
        · rw [hblock, Function.update_self, Block.bytes_write]
          refine slice_overwrite_of_disjoint ?_
          rw [Inode.length_encode]
          rcases table_disjoint fs.sb hino.1 hino'.1 hne with h | h
          · exact absurd hblock h
          · exact h
        · rw [Function.update_of_ne hblock]
      simp only [stored, putInode, if_pos hino', inodeAt, Disk.blocks_setBlock, hrecord]
    · exact (if_neg hino').trans (if_neg hino').symm

/-- Storing an inode. -/
theorem endsOn_writeInode (hg : v.Geometry) (hino : v.ValidIno ino)
    {Q : Unit → View → Prop} {E : FsError → View → Prop} (hQ : Q () (v.setInode ino inode)) :
    EndsOn view (writeInode ino inode) v Q E := by
  rintro fs rfl
  have htable := tableBlock_lt hg hino
  have htotal : tableBlock fs.sb ino < fs.store.total := Nat.lt_trans htable hg.dataStart_lt
  have hloc := inodeLocation_of_valid hg hino
  rw [sb_view] at htable hloc
  have hexec : exec (writeInode ino inode) fs = (.ok (), putInode fs ino inode) := by
    simp only [writeInode, exec_bind, exec_gets, exec_ofExcept, hloc, exec_readBlock htotal]
    rw [exec_writeBlock htotal (Nat.le_of_eq (Block.length_bytes _)), Block.pad_bytes]
    rfl
  have hview : (putInode fs ino inode).view = fs.view.setInode ino inode := by
    simp only [view, View.setInode, View.mk.injEq, stored_putInode hino, true_and]
    refine ⟨rfl, rfl, rfl, ?_⟩
    funext b
    by_cases hb : fs.sb.dataStart.toNat ≤ b
    · have hne : b ≠ tableBlock fs.sb ino := by omega
      simp only [putInode, Disk.blocks_setBlock, Function.update_of_ne hne]
    · exact (if_neg hb).trans (if_neg hb).symm
  simpa only [Ends, hexec, hview] using hQ

theorem reads_allocInodeFrom (hg : v.Geometry) (n : Nat) (hpos : 0 < ino)
    (hn : ino + n ≤ v.sb.inodeCount.toNat + 1) :
    Reads view (allocInodeFrom ino n) v
      (match (List.range' ino n).find? fun i => (v.inodes i).isNone with
        | some i => .ok i
        | none => .error .noSpace) := by
  induction n generalizing ino with
  | zero => exact reads_throw _ _
  | succ n ih =>
    rintro fs rfl
    have hvalid : fs.view.ValidIno ino := ⟨hpos, by omega⟩
    have hstored : fs.view.inodes ino = (fs.inodeAt ino).live := if_pos hvalid
    have hrest := ih (Nat.succ_pos ino) (by omega) fs rfl
    simp only [allocInodeFrom, exec_bind, exec_readInode hg hvalid, List.range'_succ,
      List.find?_cons, hstored, Inode.live]
    by_cases hmode : (fs.inodeAt ino).mode = 0
    · simp only [hmode, if_true, exec_pure, Option.isNone_none]
    · simp only [hmode, if_false, Option.isNone_some]
      exact hrest

theorem reads_allocInode (hg : v.Geometry) : Reads view allocInode v v.allocInode :=
  (reads_gets fun _ hs => by rw [← hs, sb_view]).bind
    (reads_allocInodeFrom hg _ Nat.one_pos (Nat.add_comm _ _).le)

theorem reads_usedInodesFrom (hg : v.Geometry) (n : Nat) (hpos : 0 < ino)
    (hn : ino + n ≤ v.sb.inodeCount.toNat + 1) :
    Reads view (usedInodesFrom ino n) v
      (.ok ((Finset.Ico ino (ino + n)).filter fun i => v.inodes i ≠ none).card) := by
  induction n generalizing ino with
  | zero =>
    rw [Nat.add_zero, Finset.Ico_self, Finset.filter_empty]
    exact reads_pure _ _
  | succ n ih =>
    rintro fs rfl
    have hvalid : fs.view.ValidIno ino := ⟨hpos, by omega⟩
    have hstored : fs.view.inodes ino = (fs.inodeAt ino).live := if_pos hvalid
    have hrest := ih (Nat.succ_pos ino) (by omega) fs rfl
    have hnot : ino ∉ (Finset.Ico (ino + 1) (ino + 1 + n)).filter fun i => fs.view.inodes i ≠ none :=
      fun hmem => Nat.not_succ_le_self ino (Finset.mem_Ico.1 (Finset.mem_filter.1 hmem).1).1
    rw [show ino + (n + 1) = ino + 1 + n by omega,
      ← Finset.insert_Ico_add_one_left_eq_Ico (show ino < ino + 1 + n by omega), Finset.filter_insert]
    simp only [usedInodesFrom, exec_bind, exec_readInode hg hvalid, hrest, exec_pure, hstored, Inode.live]
    by_cases hmode : (fs.inodeAt ino).mode = 0
    · simp [hmode]
    · simp only [hmode, if_false, ne_eq, not_false_iff, if_true, reduceCtorEq]
      rw [Finset.card_insert_of_notMem hnot]

theorem reads_usedInodes (hg : v.Geometry) : Reads view usedInodes v (.ok v.liveInodes.card) := by
  have h := reads_usedInodesFrom hg v.sb.inodeCount.toNat Nat.one_pos (Nat.add_comm _ _).le
  rw [Nat.add_comm] at h
  exact (reads_gets fun _ hs => by rw [← hs, sb_view]).bind h

theorem endsOn_freeInode (hg : v.Geometry) (hino : v.ValidIno ino) {Q : Unit → View → Prop}
    {E : FsError → View → Prop} (hQ : Q () (v.setInode ino Inode.default)) :
    EndsOn view (freeInode ino) v Q E :=
  endsOn_writeInode hg hino hQ

end Inodes

/-! ### The bitmap -/

section BitmapBlocks

variable {v : View}

theorem endsOn_clearBit {block : Nat} {Q : Unit → View → Prop} {E : FsError → View → Prop}
    (hQ : Q () (v.setBitmap (v.bitmap.clear block))) : EndsOn view (clearBit block) v Q E :=
  endsOn_update (by rintro fs rfl; rfl) hQ

/-- An allocated block is taken from the free blocks of the data region and holds zeros. The
allocator fails when there is none. -/
theorem endsOn_allocateBlock (hg : v.Geometry) {Q : Nat → View → Prop}
    {E : FsError → View → Prop}
    (hQ : ∀ block, v.InData block → v.bitmap.isSet block = false →
      Q block ((v.setBitmap (v.bitmap.set block)).setData block Block.zero))
    (hE : (∀ block, v.InData block → v.bitmap.isSet block = true) → E .noSpace v) :
    EndsOn view allocateBlock v Q E := by
  rintro fs rfl
  simp only [allocateBlock, ends_bind, ends_gets, id_eq, ends_ofExcept]
  refine ⟨?_, fun e he => ?_⟩
  · rintro ⟨block, bitmap⟩ hok
    obtain ⟨hge, hlt, hfree, rfl, -⟩ := Bitmap.allocFrom_ok hok
    have hin : fs.view.InData block := ⟨hge, Nat.lt_of_lt_of_eq hlt hg.totalBlocks_eq⟩
    have hg' : (fs.view.setBitmap (fs.bitmap.set block)).Geometry :=
      hg.setBitmap (Bitmap.totalBlocks_set _ _)
    simp only [ends_update]
    have hwrite := endsOn_writeBlock hg' hin (show ([] : List UInt8).length ≤ UB from Nat.zero_le _)
      (Q := fun _ w => Q block w) (E := E) (by rw [Block.pad_nil]; exact hQ block hin hfree)
    exact hwrite { fs with bitmap := fs.bitmap.set block } rfl
  · obtain ⟨rfl, hall⟩ := Bitmap.allocFrom_error_iff.1 he
    exact hE fun block hin => hall block hin.1 (Nat.lt_of_lt_of_eq hin.2 hg.totalBlocks_eq.symm)

/-- The piece of a bitmap that `write_bitmap` stores in its block numbered `index`. -/
def bitmapPiece (bitmap : Bitmap) (index : Nat) : List UInt8 :=
  let start := index * UB
  let stop := min (start + UB) bitmap.asBytes.length
  if start < stop then slice bitmap.asBytes start (stop - start) else []

theorem length_bitmapPiece_le (bitmap : Bitmap) (index : Nat) :
    (bitmapPiece bitmap index).length ≤ UB := by
  unfold bitmapPiece
  dsimp only
  split_ifs
  · have h := length_slice_le bitmap.asBytes (index * UB)
      (min (index * UB + UB) bitmap.asBytes.length - index * UB)
    omega
  · exact Nat.zero_le _

/-- Storing a bitmap changes the blocks of the bitmap only. -/
theorem ends_writeBitmapBlocks (sb : Superblock) (bitmap : Bitmap) (disk : Disk) (n index : Nat)
    (h : sb.bitmapStart.toNat + index + n ≤ disk.total) :
    Ends (writeBitmapBlocks sb bitmap index n) disk
      (fun _ disk' => disk' = { disk with
        blocks := fun b =>
          if sb.bitmapStart.toNat + index ≤ b ∧ b < sb.bitmapStart.toNat + index + n then
            Block.pad (bitmapPiece bitmap (b - sb.bitmapStart.toNat))
          else disk.blocks b })
      fun _ _ => False := by
  induction n generalizing disk index with
  | zero =>
    have hblocks : (fun b => if sb.bitmapStart.toNat + index ≤ b ∧
        b < sb.bitmapStart.toNat + index + 0 then
          Block.pad (bitmapPiece bitmap (b - sb.bitmapStart.toNat)) else disk.blocks b) =
        disk.blocks := by
      funext b
      exact if_neg (by omega)
    rw [hblocks]
    exact (ends_pure ()).2 rfl
  | succ n ih =>
    rw [writeBitmapBlocks]
    change Ends (BlockDevice.writeBlock (sb.bitmapStart.toNat + index)
      (bitmapPiece bitmap index) >>= _) disk _ _
    rw [ends_bind, Ends, Disk.exec_writeBlock (by omega) (length_bitmapPiece_le _ _)]
    refine (ih (disk.setBlock _ _) (index + 1) (by rw [Disk.total_setBlock]; omega)).mono ?_
      fun _ _ h => h
    rintro _ _ rfl
    simp only [Disk.setBlock, Disk.mk.injEq, and_true]
    funext b
    by_cases hb : b = sb.bitmapStart.toNat + index
    · subst hb
      rw [if_neg (by omega), if_pos (by omega), Function.update_self, Nat.add_sub_cancel_left]
    · rw [Function.update_of_ne hb]
      by_cases hin : sb.bitmapStart.toNat + index ≤ b ∧ b < sb.bitmapStart.toNat + index + (n + 1)
      · rw [if_pos hin, if_pos (by omega)]
      · rw [if_neg hin, if_neg (by omega)]

/-- The view does not show the blocks before the inode table. -/
theorem view_withStore {fs : AlbumFs Disk} {disk : Disk} (htotal : disk.total = fs.store.total)
    (hstart : fs.sb.inodeTableStart.toNat ≤ fs.sb.dataStart.toNat)
    (hblocks : ∀ b, fs.sb.inodeTableStart.toNat ≤ b → disk.blocks b = fs.store.blocks b) :
    view { fs with store := disk } = fs.view := by
  have hstored : stored { fs with store := disk } = fs.stored := by
    funext ino
    simp only [stored, inodeAt, hblocks (tableBlock fs.sb ino) (Nat.le_add_right _ _)]
  simp only [view, htotal, hstored, View.mk.injEq, true_and]
  funext b
  by_cases hb : fs.sb.dataStart.toNat ≤ b
  · simp only [if_pos hb, hblocks b (hstart.trans hb)]
  · simp only [if_neg hb]

/-- Synchronising stores the bitmap outside the view; its flush may fail. -/
theorem endsOn_sync (hg : v.Geometry) {Q : Unit → View → Prop} {E : FsError → View → Prop}
    (hQ : Q () v) (hE : ∀ e, E e v) : EndsOn view sync v Q E := by
  rintro fs rfl
  have hbitmap := hg.bitmap_le
  have htable := (inodeCount_le hg).1
  have hdata := hg.dataStart_lt
  simp only [sb_view, total_view] at hbitmap htable hdata
  simp only [sync, ends_bind, ends_gets, id_eq, onStore, ends_onPart, writeBitmap]
  refine (ends_writeBitmapBlocks _ _ _ _ _ (by omega)).mono ?_ fun _ _ h => h.elim
  rintro _ _ rfl
  rw [Ends, Disk.exec_flush]
  have hview : ∀ flushes, view { fs with store :=
      { fs.store with
        blocks := fun b =>
          if fs.sb.bitmapStart.toNat + 0 ≤ b ∧ b < fs.sb.bitmapStart.toNat + 0 +
              (fs.sb.inodeTableStart.toNat - fs.sb.bitmapStart.toNat) then
            Block.pad (bitmapPiece fs.bitmap (b - fs.sb.bitmapStart.toNat))
          else fs.store.blocks b
        flushes } } = fs.view :=
    fun _ => view_withStore rfl htable fun b hb => if_neg (by omega)
  cases fs.store.flushes 0 with
  | none => simpa only [hview] using hQ
  | some e => simpa only [hview] using hE e

end BitmapBlocks

end AlbumFs

end AlbumFS

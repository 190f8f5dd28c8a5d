import AlbumFS.Fs.Format
import AlbumFS.Ops.Namespace

/-!
# A formatted file system

What the blocks hold after formatting, and what the view of a formatted file system is when it is
opened.

## Main definitions

* `FormattedBlocks`: the blocks after formatting.
* `View.Fresh`: the view after formatting and opening.

## Main results

* `ends_formatStore`, `ends_loadBitmap`: formatting, and reading a stored bitmap back.
* `Formatted.fresh`: a formatted file system has a root directory with one block, and the bitmap
  marks the blocks before the data region and this block.
* `View.Fresh.sound`: no block is cross-linked.
-/

namespace AlbumFS

open Prog

/-- The view of a file system that was just formatted. -/
structure View.Fresh (v : View) : Prop where
  geometry : v.Geometry
  inodes_eq : v.inodes = Function.update (fun _ => none) 1 (some (rootInode v.sb.dataStart.toNat))
  isSet_iff : ∀ b, v.bitmap.isSet b = true ↔ b ≤ v.sb.dataStart.toNat
  data_eq : AlbumFs.initialDirectoryBlock 1 1 = .ok (v.data v.sb.dataStart.toNat)

theorem pointer_rootInode (block : Nat) (r : Root) :
    r.pointer (rootInode block) = if r = .direct 0 then UInt64.ofNat block else 0 :=
  AlbumFs.pointer_of_direct rfl rfl rfl r

/-! ### Filling the blocks -/

theorem ends_zeroBlocks (disk : Disk) (lba n : Nat) (h : lba + n ≤ disk.total) :
    Ends (zeroBlocks lba n) disk
      (fun _ disk' => disk' = { disk with
        blocks := fun b => if lba ≤ b ∧ b < lba + n then Block.zero else disk.blocks b })
      fun _ _ => False := by
  induction n generalizing disk lba with
  | zero =>
    have hblocks : (fun b => if lba ≤ b ∧ b < lba + 0 then Block.zero else disk.blocks b) =
        disk.blocks := by
      funext b
      exact if_neg (by omega)
    rw [hblocks]
    exact (ends_pure ()).2 rfl
  | succ n ih =>
    rw [zeroBlocks, ends_bind]
    refine @Disk.ends_writeBlock_bytes _ _ (by omega) Block.zero _ _ ?_
    refine (ih (disk.setBlock lba Block.zero) (lba + 1)
      (by rw [Disk.total_setBlock]; omega)).mono ?_ fun _ _ hf => hf
    rintro _ _ rfl
    simp only [Disk.setBlock, Disk.mk.injEq, and_true]
    funext b
    by_cases hb : b = lba
    · subst hb
      rw [if_neg (by omega), if_pos (by omega), Function.update_self]
    · rw [Function.update_of_ne hb]
      by_cases hin : lba ≤ b ∧ b < lba + (n + 1)
      · rw [if_pos hin, if_pos (by omega)]
      · rw [if_neg hin, if_neg (by omega)]

theorem isSet_metadataBitmap {totalBlocks dataStart : Nat} (h : dataStart ≤ totalBlocks) (b : Nat) :
    (metadataBitmap totalBlocks dataStart).isSet b = true ↔ b < dataStart := by
  rw [metadataBitmap, Bitmap.isSet_foldl_set, List.mem_range, Bitmap.isSet_new]
  · simp
  · intro c hc
    exact Nat.lt_of_lt_of_le (List.mem_range.1 hc) h

@[simp] theorem totalBlocks_metadataBitmap (totalBlocks dataStart : Nat) :
    (metadataBitmap totalBlocks dataStart).totalBlocks = totalBlocks :=
  Bitmap.totalBlocks_foldl_set _ _

/-- The root directory gets the first block of the data region. -/
theorem allocFrom_metadataBitmap {totalBlocks dataStart : Nat} (h : dataStart < totalBlocks) :
    (metadataBitmap totalBlocks dataStart).allocFrom dataStart =
      .ok (dataStart, (metadataBitmap totalBlocks dataStart).set dataStart) := by
  have hset := isSet_metadataBitmap (Nat.le_of_lt h)
  have hfree : ¬ (metadataBitmap totalBlocks dataStart).isSet dataStart = true := by
    rw [hset]
    exact Nat.lt_irrefl _
  cases halloc : (metadataBitmap totalBlocks dataStart).allocFrom dataStart with
  | error e =>
    obtain ⟨-, hall⟩ := Bitmap.allocFrom_error_iff.1 halloc
    exact absurd (hall dataStart (Nat.le_refl _) (by rwa [totalBlocks_metadataBitmap])) hfree
  | ok found =>
    obtain ⟨block, bitmap⟩ := found
    obtain ⟨hge, -, -, rfl, hbefore⟩ := Bitmap.allocFrom_ok halloc
    obtain rfl : block = dataStart := by
      by_contra hne
      exact hfree (hbefore dataStart (Nat.le_refl _) (by omega))
    rfl

/-- The bitmap of a file system that was just formatted. -/
def freshBitmap (sb : Superblock) : Bitmap :=
  (metadataBitmap sb.totalBlocks.toNat sb.dataStart.toNat).set sb.dataStart.toNat

/-- What the blocks hold after formatting. -/
structure FormattedBlocks (sb : Superblock) (blocks : Nat → Block) : Prop where
  superblock : sb.encrypted = false → sb.encode.length ≤ UB ∧ blocks 0 = Block.pad sb.encode
  bitmap : ∀ b, sb.bitmapStart.toNat ≤ b → b < sb.inodeTableStart.toNat →
    blocks b = Block.pad (AlbumFs.bitmapPiece (freshBitmap sb) (b - sb.bitmapStart.toNat))
  root : blocks sb.inodeTableStart.toNat =
    Block.zero.write 0 (rootInode sb.dataStart.toNat).encode
  table : ∀ b, sb.inodeTableStart.toNat < b → b < sb.dataStart.toNat → blocks b = Block.zero
  directory : AlbumFs.initialDirectoryBlock 1 1 = .ok (blocks sb.dataStart.toNat)

/-- Formatting fails when the superblock does not fit into its block or the flush fails. -/
theorem ends_formatStore {totalBlocks : Nat} {manifest : List CarrierRange} {encrypted : Bool}
    {sb : Superblock} (h : layout totalBlocks manifest encrypted = .ok sb)
    (hsize : totalBlocks < 2 ^ 64) {disk : Disk} (htotal : disk.total = totalBlocks) :
    Ends (formatStore sb) disk
      (fun _ disk' => disk'.total = totalBlocks ∧ FormattedBlocks sb disk'.blocks)
      fun _ _ => sb.encrypted = false ∧ sb.encode.length > UB ∨ disk.flushes 0 ≠ none := by
  obtain ⟨htb, hbs, hits, hic, hds, hlt⟩ := layout_eq_ok h hsize
  have hipb : 0 < INODES_PER_BLOCK := by decide
  have htable : 0 < divCeil sb.inodeCount.toNat INODES_PER_BLOCK :=
    (lt_divCeil_iff hipb).2 (by rw [hic]; omega)
  obtain ⟨payload, hpayload⟩ := AlbumFs.initialDirectoryBlock_eq_ok 1 1
  rw [formatStore, htb, ends_bind]
  refine (ends_zeroBlocks disk 0 totalBlocks (by omega)).mono ?_ fun _ _ hf => hf.elim
  rintro _ _ rfl
  -- The rest of the formatting starts from zeros and, in the clear, the superblock.
  have hrest : ∀ d : Disk, d.total = totalBlocks → d.flushes = disk.flushes →
      (sb.encrypted = false → sb.encode.length ≤ UB ∧ d.blocks 0 = Block.pad sb.encode) →
      (∀ b, 0 < b → b < totalBlocks → d.blocks b = Block.zero) →
      Ends (do
        let root ← Prog.ofExcept
          ((metadataBitmap totalBlocks sb.dataStart.toNat).allocFrom sb.dataStart.toNat)
        let payload ← Prog.ofExcept (AlbumFs.initialDirectoryBlock 1 1)
        BlockDevice.writeBlock root.1 payload.bytes
        let inodeTable ← BlockDevice.readBlock sb.inodeTableStart.toNat
        BlockDevice.writeBlock sb.inodeTableStart.toNat
          (inodeTable.write 0 (rootInode root.1).encode).bytes
        writeBitmap sb root.2
        BlockDevice.flush : Prog FsError Disk Unit) d
        (fun _ disk' => disk'.total = totalBlocks ∧ FormattedBlocks sb disk'.blocks)
        fun _ _ => sb.encrypted = false ∧ sb.encode.length > UB ∨ disk.flushes 0 ≠ none := by
    intro d hd hflushes hsuper hzero
    rw [allocFrom_metadataBitmap hlt, hpayload]
    simp only [ends_bind, ends_ofExcept, Except.ok.injEq, forall_eq', reduceCtorEq,
      IsEmpty.forall_iff, implies_true, and_true]
    refine Disk.ends_writeBlock_bytes (by omega) ?_
    refine Disk.ends_readBlock (by rw [Disk.total_setBlock]; omega) ?_
    refine Disk.ends_writeBlock_bytes (by rw [Disk.total_setBlock]; omega) ?_
    rw [writeBitmap]
    refine (AlbumFs.ends_writeBitmapBlocks sb _ _ _ 0
      (by rw [Disk.total_setBlock, Disk.total_setBlock]; omega)).mono ?_ fun _ _ hf => hf.elim
    rintro _ _ rfl
    refine Disk.ends_flush (fun flushes => ?_) fun e _ he => .inr ?_
    swap
    · rw [← hflushes, Option.ne_none_iff_exists']
      exact ⟨e, he⟩
    simp only [Disk.total_setBlock, Disk.blocks_setBlock]
    refine ⟨hd, fun hclear => ⟨(hsuper hclear).1, ?_⟩, fun b hge hlt' => ?_, ?_, fun b hgt hlt' => ?_, ?_⟩
    · rw [if_neg (by omega), Function.update_of_ne (by omega), Function.update_of_ne (by omega)]
      exact (hsuper hclear).2
    · rw [if_pos (by omega), freshBitmap, htb]
    · rw [if_neg (by omega), Function.update_self, Function.update_of_ne (by omega),
        hzero _ (by omega) (by omega)]
    · rw [if_neg (by omega), Function.update_of_ne (by omega), Function.update_of_ne (by omega),
        hzero b (by omega) (by omega)]
    · rw [if_neg (by omega), Function.update_of_ne (by omega), Function.update_self, hpayload]
  by_cases hencrypted : sb.encrypted = true
  · rw [if_pos hencrypted, ends_bind, ends_pure]
    refine hrest _ htotal (by exact rfl) (fun hclear => ?_) fun b _ hb => if_pos (by omega)
    rw [hencrypted] at hclear
    cases hclear
  · rw [if_neg hencrypted]
    by_cases hlen : sb.encode.length > UB
    · rw [if_pos hlen, ends_bind, ends_throw]
      exact .inl ⟨Bool.eq_false_iff.2 hencrypted, hlen⟩
    · rw [if_neg hlen, ends_bind]
      have hpos : 0 < disk.total := by omega
      refine Disk.ends_writeBlock (by exact hpos) (Nat.not_lt.1 hlen) ?_
      refine hrest _ htotal (by exact rfl) (fun _ => ⟨Nat.not_lt.1 hlen, ?_⟩) fun b hb hlt => ?_
      · rw [Disk.blocks_setBlock, Function.update_self]
      · rw [Disk.blocks_setBlock, Function.update_of_ne (by omega)]
        exact if_pos (by omega)

/-! ### Reading the bitmap back -/

theorem ends_loadBitmapBlocks (bitmap : Bitmap) (disk : Disk) (block n index : Nat)
    (h : block + n ≤ disk.total)
    (hblocks : ∀ i, i < n → disk.blocks (block + i) =
      Block.pad (AlbumFs.bitmapPiece bitmap (index + i))) :
    Ends (loadBitmapBlocks bitmap.asBytes.length block n (bitmap.asBytes.take (index * UB))) disk
      (fun bytes disk' => bytes = bitmap.asBytes.take ((index + n) * UB) ∧ disk' = disk)
      fun _ _ => False := by
  induction n generalizing block index with
  | zero => exact (ends_pure _).2 ⟨by rw [Nat.add_zero], rfl⟩
  | succ n ih =>
    have hpiece : bitmap.asBytes.take (index * UB) ++ (disk.blocks block).bytes.take
        (min (bitmap.asBytes.length - (bitmap.asBytes.take (index * UB)).length) UB) =
        bitmap.asBytes.take ((index + 1) * UB) := by
      have hb := hblocks 0 (Nat.succ_pos n)
      rw [Nat.add_zero, Nat.add_zero] at hb
      rw [hb, List.length_take, Nat.succ_mul]
      unfold AlbumFs.bitmapPiece
      dsimp only
      generalize index * UB = start
      split_ifs with hlt
      · have hlen : (slice bitmap.asBytes start
            (min (start + UB) bitmap.asBytes.length - start)).length =
            min (start + UB) bitmap.asBytes.length - start := length_slice (by omega)
        have htake : (Block.pad (slice bitmap.asBytes start
            (min (start + UB) bitmap.asBytes.length - start))).bytes.take _ = _ :=
          Block.take_pad (by omega)
        rw [show min (bitmap.asBytes.length - min start bitmap.asBytes.length) UB =
          min (start + UB) bitmap.asBytes.length - start by omega]
        rw [hlen] at htake
        rw [htake, slice, ← List.take_add]
        apply List.ext_getElem?
        intro i
        rw [List.getElem?_take, List.getElem?_take]
        by_cases hi : i < start + UB
        · rw [if_pos hi]
          by_cases hi' : i < bitmap.asBytes.length
          · rw [if_pos (by omega)]
          · rw [if_neg (by omega), List.getElem?_eq_none (by omega)]
        · rw [if_neg hi, if_neg (by omega)]
      · have hge : bitmap.asBytes.length ≤ start := by
          have := UB_pos
          omega
        rw [show min (bitmap.asBytes.length - min start bitmap.asBytes.length) UB = 0 by omega,
          List.take_zero, List.append_nil, List.take_of_length_le hge,
          List.take_of_length_le (by omega)]
    rw [loadBitmapBlocks, ends_bind]
    refine Disk.ends_readBlock (by omega) ?_
    dsimp only
    rw [hpiece]
    refine (ih (block + 1) (index + 1) (by omega) fun i hi => ?_).mono ?_ fun _ _ hf => hf
    · rw [Nat.add_assoc, Nat.add_comm 1 i, hblocks (i + 1) (by omega), Nat.add_right_comm,
        Nat.add_assoc index i 1]
    · rintro bytes disk' ⟨rfl, rfl⟩
      exact ⟨by rw [Nat.add_right_comm, Nat.add_assoc index n 1], rfl⟩

/-- The stored bitmap is read back. -/
theorem ends_loadBitmap {sb : Superblock} {bitmap : Bitmap} {disk : Disk}
    (htotal : bitmap.totalBlocks = sb.totalBlocks.toNat)
    (hfits : sb.bitmapStart.toNat + divCeil (divCeil sb.totalBlocks.toNat 8) UB ≤
      sb.inodeTableStart.toNat)
    (hlt : sb.inodeTableStart.toNat ≤ disk.total)
    (hblocks : ∀ b, sb.bitmapStart.toNat ≤ b → b < sb.inodeTableStart.toNat →
      disk.blocks b = Block.pad (AlbumFs.bitmapPiece bitmap (b - sb.bitmapStart.toNat))) :
    Ends (loadBitmap sb) disk (fun loaded disk' => loaded = bitmap ∧ disk' = disk)
      fun _ _ => False := by
  have hlen : bitmap.asBytes.length = divCeil sb.totalBlocks.toNat 8 := by
    rw [← htotal]
    exact bitmap.length_bits
  have hload := ends_loadBitmapBlocks bitmap disk sb.bitmapStart.toNat
    (sb.inodeTableStart.toNat - sb.bitmapStart.toNat) 0 (by omega) fun i hi => by
      rw [hblocks _ (by omega) (by omega), Nat.zero_add, Nat.add_sub_cancel_left]
  rw [Nat.zero_mul, List.take_zero, Nat.zero_add, hlen] at hload
  rw [loadBitmap, ends_bind]
  refine hload.mono ?_ fun _ _ hf => hf
  rintro bytes _ ⟨rfl, rfl⟩
  refine (ends_pure _).2 ⟨?_, rfl⟩
  have hall : bitmap.asBytes.length ≤
      (sb.inodeTableStart.toNat - sb.bitmapStart.toNat) * UB := by
    rw [hlen, ← divCeil_le_iff UB_pos]
    omega
  rw [List.take_of_length_le hall, ← htotal, Bitmap.fromBytes_asBytes]

/-- The bitmap of a formatted disk is read back. -/
theorem FormattedBlocks.ends_loadBitmap {totalBlocks : Nat} {manifest : List CarrierRange}
    {encrypted : Bool} {sb : Superblock} (h : layout totalBlocks manifest encrypted = .ok sb)
    (hsize : totalBlocks < 2 ^ 64) {disk : Disk} (htotal : disk.total = totalBlocks)
    (hblocks : FormattedBlocks sb disk.blocks) :
    Ends (loadBitmap sb) disk (fun loaded disk' => loaded = freshBitmap sb ∧ disk' = disk)
      fun _ _ => False := by
  obtain ⟨htb, hbs, hits, hic, hds, hlt⟩ := layout_eq_ok h hsize
  have hbitmap : (freshBitmap sb).totalBlocks = sb.totalBlocks.toNat := by
    rw [freshBitmap, Bitmap.totalBlocks_set, totalBlocks_metadataBitmap]
  exact AlbumFS.ends_loadBitmap hbitmap (by rw [hbs, hits, htb]) (by omega) hblocks.bitmap

/-- Where the blocks are those that a format leaves behind, the view is fresh. -/
theorem FormattedBlocks.fresh {totalBlocks : Nat} {manifest : List CarrierRange} {encrypted : Bool}
    {fs : AlbumFs Disk} (hlayout : layout totalBlocks manifest encrypted = .ok fs.sb)
    (hsize : totalBlocks < 2 ^ 58) (htotal : fs.store.total = totalBlocks)
    (hblocks : FormattedBlocks fs.sb fs.store.blocks) (hloaded : fs.bitmap = freshBitmap fs.sb) :
    fs.view.Fresh := by
  obtain ⟨htb, hbs, hits, hic, hds, hlt⟩ := layout_eq_ok hlayout (Nat.lt_trans hsize (by decide))
  have hipb : 0 < INODES_PER_BLOCK := by decide
  have htable : 0 < divCeil fs.sb.inodeCount.toNat INODES_PER_BLOCK :=
    (lt_divCeil_iff hipb).2 (by rw [hic]; omega)
  have hbitmap : (freshBitmap fs.sb).totalBlocks = fs.sb.totalBlocks.toNat := by
    rw [freshBitmap, Bitmap.totalBlocks_set, totalBlocks_metadataBitmap]
  have hgeometry : fs.view.Geometry := by
    refine ⟨?_, ?_, ?_, ?_, ?_, ?_, ?_⟩
    all_goals
      simp only [AlbumFs.bitmap_view, AlbumFs.total_view, AlbumFs.sb_view, htotal]
    · rw [hloaded, hbitmap, htb]
    · exact htb
    · omega
    · rw [hbs, hits]
    · exact hds.ge
    · exact hlt
    · rw [hic, show INODE_SIZE = 192 from rfl]
      omega
  have hdata : fs.sb.inodeTableStart.toNat < fs.sb.dataStart.toNat := by omega
  refine ⟨hgeometry, ?_, fun b => ?_, ?_⟩
  · funext ino
    by_cases hone : ino = 1
    · -- The record of the root is the first one of the table.
      subst hone
      have hslice : slice (overwrite Block.zero.bytes 0 (rootInode fs.sb.dataStart.toNat).encode) 0
          INODE_SIZE = (rootInode fs.sb.dataStart.toNat).encode := by
        have hfit : 0 + (rootInode fs.sb.dataStart.toNat).encode.length ≤ Block.zero.bytes.length := by
          rw [Inode.length_encode, Block.length_bytes]
          decide
        have hs := slice_overwrite_self hfit
        rwa [Inode.length_encode] at hs
      have hrecord : fs.inodeAt 1 = rootInode fs.sb.dataStart.toNat := by
        have hblock : AlbumFs.tableBlock fs.sb 1 = fs.sb.inodeTableStart.toNat := rfl
        have hoffset : AlbumFs.tableOffset 1 = 0 := rfl
        rw [AlbumFs.inodeAt, hblock, hoffset, hblocks.root, Block.bytes_write, hslice,
          Inode.ofBytes_encode]
      rw [Function.update_self, AlbumFs.inodes_view, AlbumFs.stored, if_pos (by omega), hrecord]
      exact Inode.live_of_ne (Inode.mode_ne_zero _ (isDir_rootInode _))
    · rw [Function.update_of_ne hone, AlbumFs.inodes_view, AlbumFs.stored]
      split_ifs with hvalid
      · have hlt := AlbumFs.tableBlock_lt hgeometry hvalid
        have hzero : slice (fs.store.blocks (AlbumFs.tableBlock fs.sb ino)).bytes
            (AlbumFs.tableOffset ino) INODE_SIZE = List.replicate INODE_SIZE 0 := by
          have hend := AlbumFs.tableOffset_add_le ino
          have hslice : slice Block.zero.bytes (AlbumFs.tableOffset ino) INODE_SIZE =
              List.replicate INODE_SIZE 0 :=
            List.eq_replicate_iff.2 ⟨length_slice (by rwa [Block.length_bytes]), Block.slice_zero _ _⟩
          rcases AlbumFs.table_disjoint fs.sb Nat.one_pos hvalid.1 hone with hne | hdisjoint
          · have hgt : fs.sb.inodeTableStart.toNat < AlbumFs.tableBlock fs.sb ino :=
              Nat.lt_of_le_of_ne (Nat.le_add_right _ _) (Ne.symm hne)
            rw [hblocks.table _ hgt hlt, hslice]
          · by_cases hblock : AlbumFs.tableBlock fs.sb ino = fs.sb.inodeTableStart.toNat
            · rw [hblock, hblocks.root, Block.bytes_write, slice_overwrite_of_disjoint, hslice]
              rw [Inode.length_encode, Nat.zero_add]
              exact hdisjoint.imp id id
            · have hgt : fs.sb.inodeTableStart.toNat < AlbumFs.tableBlock fs.sb ino :=
                Nat.lt_of_le_of_ne (Nat.le_add_right _ _) (Ne.symm hblock)
              rw [hblocks.table _ hgt hlt, hslice]
        rw [AlbumFs.inodeAt, hzero]
        rfl
      · rfl
  · rw [AlbumFs.bitmap_view, AlbumFs.sb_view, hloaded, freshBitmap, Bitmap.isSet_set, Bool.or_eq_true,
      decide_eq_true_eq, isSet_metadataBitmap]
    · omega
    · omega
    · rw [totalBlocks_metadataBitmap]
      omega
  · rw [AlbumFs.sb_view, AlbumFs.data_view (Nat.le_refl _)]
    exact hblocks.directory

/-- A file system that was formatted and opened has a fresh view. -/
theorem Formatted.fresh {fs : AlbumFs Disk} (h : Formatted fs) : fs.view.Fresh := by
  obtain ⟨totalBlocks, manifest, encrypted, disk, formatted, hlayout, htotal, hmul, hformat, hload⟩ := h
  obtain ⟨htotal', hblocks⟩ := (ends_formatStore hlayout (lt_of_mul_PB_lt hmul) htotal).of_ok hformat
  obtain ⟨hloaded, hstore⟩ :=
    (hblocks.ends_loadBitmap hlayout (lt_of_mul_PB_lt hmul) htotal').of_ok hload
  have hsize : totalBlocks < 2 ^ 58 := by
    rw [show PB = 4096 from rfl] at hmul
    omega
  exact FormattedBlocks.fresh hlayout hsize (hstore ▸ htotal') (hstore ▸ hblocks) hloaded

/-- A fresh view references one block. -/
theorem View.Fresh.own_eq {v : View} (h : v.Fresh) :
    v.own = Function.update (fun _ => none) (Slot.direct 1 0) (some v.sb.dataStart.toNat) := by
  have hi : v.inodes 1 = some (rootInode v.sb.dataStart.toNat) := by
    rw [h.inodes_eq, Function.update_self]
  have hpointer : ∀ r : Root, r.pointer (rootInode v.sb.dataStart.toNat) =
      if r = .direct 0 then UInt64.ofNat v.sb.dataStart.toNat else 0 :=
    pointer_rootInode _
  have hsome := h.geometry.thenSome_block (b := v.sb.dataStart.toNat)
    ⟨Nat.le_refl _, h.geometry.dataStart_lt⟩
  have hroot : ∀ root : Nat × Root, rootBlock v.inodes root =
      if root = (1, .direct 0) then some v.sb.dataStart.toNat else none := by
    rintro ⟨ino, r⟩
    by_cases hino : ino = 1
    · subst hino
      rw [rootBlock, hi, Option.bind_some, hpointer]
      split_ifs with hr hr' hr'
      · exact hsome
      · obtain rfl : r = .direct 0 := hr
        exact absurd rfl hr'
      · exact absurd (congrArg Prod.snd hr') hr
      · exact thenSome_zero
    · rw [rootBlock, h.inodes_eq, Function.update_of_ne hino, Option.bind_none, if_neg]
      exact fun hr => hino (congrArg Prod.fst hr)
  funext s
  by_cases hs : s.root = (1, .direct 0)
  · obtain ⟨root, path, hpath⟩ := s
    obtain rfl : root = (1, .direct 0) := hs
    obtain rfl : path = [] := List.length_eq_zero_iff.1 (Nat.le_zero.1 hpath)
    have hslot : (⟨(1, .direct 0), [], hpath⟩ : Slot) = Slot.direct 1 0 := rfl
    rw [hslot, Function.update_self]
    exact (hroot _).trans (if_pos rfl)
  · rw [Function.update_of_ne]
    · exact BlockTree.hold_none_of_above (s := ⟨s.root, [], Nat.zero_le _⟩) ⟨rfl, List.nil_suffix⟩
        ((hroot _).trans (if_neg hs))
    · rintro rfl
      exact hs rfl

theorem View.Fresh.sound {v : View} (h : v.Fresh) : v.Sound where
  geometry := h.geometry
  exclusive := by
    have hin : v.InData v.sb.dataStart.toNat := ⟨Nat.le_refl _, h.geometry.dataStart_lt⟩
    rw [h.own_eq]
    constructor
    · intro s b hs
      by_cases hroot : s = Slot.direct 1 0
      · rw [hroot, Function.update_self, Option.some.injEq] at hs
        rw [← hs]
        exact ⟨hin, (h.isSet_iff _).2 (Nat.le_refl _)⟩
      · rw [Function.update_of_ne hroot] at hs
        cases hs
    · have hone : ∀ s b, Function.update (fun _ : Slot => none) (Slot.direct 1 0)
          (some v.sb.dataStart.toNat) s = some b → s = Slot.direct 1 0 := by
        intro s b hs
        by_contra hroot
        rw [Function.update_of_ne hroot] at hs
        cases hs
      intro s t b hs ht
      exact (hone s b hs).trans (hone t b ht).symm

/-- The file system that is opened after `sb` has been written to `disk`. -/
def openFormatted (sb : Superblock) (disk : Disk) : AlbumFs Disk where
  store := (exec (formatStore sb) disk).2
  sb := sb
  bitmap := freshBitmap sb

/-- Formatting succeeds on a disk whose flushes do. -/
theorem formatted_openFormatted {totalBlocks : Nat} {manifest : List CarrierRange} {encrypted : Bool}
    {sb : Superblock} (h : layout totalBlocks manifest encrypted = .ok sb)
    (hmul : totalBlocks * PB < 2 ^ 64) {disk : Disk} (htotal : disk.total = totalBlocks)
    (hfits : sb.encrypted = false → sb.encode.length ≤ UB) (hflush : disk.flushes 0 = none) :
    Formatted (openFormatted sb disk) := by
  have hformat := ends_formatStore h (lt_of_mul_PB_lt hmul) htotal
  rcases hexec : exec (formatStore sb) disk with ⟨_ | _, formatted⟩
  · rcases hformat.of_error hexec with ⟨hclear, hlen⟩ | hfailed
    · exact absurd (hfits hclear) (Nat.not_le.2 hlen)
    · exact absurd hflush hfailed
  · obtain ⟨htotal', hblocks⟩ := hformat.of_ok hexec
    have hload := hblocks.ends_loadBitmap h (lt_of_mul_PB_lt hmul) htotal'
    refine ⟨totalBlocks, manifest, encrypted, disk, formatted, h, htotal, hmul, hexec, ?_⟩
    rcases hexec' : exec (loadBitmap sb) formatted with ⟨_ | loaded, disk'⟩
    · exact (hload.of_error hexec').elim
    · obtain ⟨rfl, rfl⟩ := hload.of_ok hexec'
      rw [openFormatted, hexec, hexec']

/-- A small encrypted pool. -/
def smallSuperblock : Superblock :=
  Superblock.markerless 64 64 1 2 6 [{ name := "a.png", chunkIndex := 0, blockStart := 0, blockCount := 64 }]

/-- The pool before it is formatted. -/
def smallDisk : Disk where
  blocks _ := Block.zero
  total := 64
  flushes _ := none
  clock _ := 0

/-- The small pool right after formatting. -/
def smallPool : AlbumFs Disk := openFormatted smallSuperblock smallDisk

theorem formatted_smallPool : Formatted smallPool :=
  formatted_openFormatted
    (show layout 64 smallSuperblock.manifest true = .ok smallSuperblock by rfl) (by decide) rfl (fun h => absurd h (by decide)) rfl

/-- A file of five bytes without blocks. -/
def sparseInode : Inode := { Inode.default with mode := 0o100644, nlink := 1, size := 5 }

/-- The small pool with this file. -/
def smallFile : AlbumFs Disk := (exec (AlbumFs.writeInode 2 sparseInode) smallPool).2

theorem pointer_sparseInode (r : Root) : r.pointer sparseInode = 0 := by
  cases r with
  | direct i =>
    obtain ⟨i, hi⟩ := i
    rw [Root.pointer_direct]
    simp [sparseInode, Inode.default]
  | single => rfl
  | double => rfl

theorem view_smallFile : smallFile.view = smallPool.view.setInode 2 sparseInode := by
  have hends : EndsOn AlbumFs.view (AlbumFs.writeInode 2 sparseInode) smallPool.view
      (fun _ w => w = smallPool.view.setInode 2 sparseInode)
      fun _ w => w = smallPool.view.setInode 2 sparseInode :=
    AlbumFs.endsOn_writeInode formatted_smallPool.fresh.geometry
      (show smallPool.view.ValidIno 2 from ⟨by decide, by decide⟩) rfl
  exact (hends smallPool rfl).state

theorem sound_smallFile : smallFile.view.Sound := by
  rw [view_smallFile]
  refine formatted_smallPool.fresh.sound.newFile ?_ (by decide) pointer_sparseInode
  rw [formatted_smallPool.fresh.inodes_eq, Function.update_of_ne (by decide)]

theorem inodes_smallFile : smallFile.view.inodes 2 = some sparseInode := by
  rw [view_smallFile, View.inodes_setInode, Function.update_self]
  rfl

/-- The blocks before the data region are marked. -/
theorem marked_smallFile : ∀ b, b < smallFile.sb.dataStart.toNat → smallFile.bitmap.isSet b = true := by
  intro b hb
  have hbitmap : smallFile.bitmap = smallPool.bitmap := congrArg View.bitmap view_smallFile
  have hsb : smallFile.sb = smallPool.sb := congrArg View.sb view_smallFile
  rw [hbitmap]
  rw [hsb] at hb
  exact (formatted_smallPool.fresh.isSet_iff b).2 (Nat.le_of_lt hb)

end AlbumFS

import AlbumFS.Ops.Linked
import AlbumFS.Ops.Mapping

/-!
# Running out of space

A `write` allocates a block for every number of its range that has none, and a block for every pointer block
that is missing on the way. It succeeds when there are that many free blocks, and then takes just these; else it
fails for want of space.

## Main definitions

* `View.blocksNeeded`: the blocks that a range lacks.
* `Unflushed`: a disk that has not been flushed since.

## Main results

* `View.card_missing_slotsOver`: the blocks needed are the slots that name none.
* `write_space`: when `write` succeeds, and how many blocks it leaves free.
-/

namespace AlbumFS

open BlockTree Prog

/-- The blocks that the file `ino` lacks for the `n` bytes from `offset` on: those of its contents, and the single
indirect, double indirect and inner pointer blocks on the way to them. -/
def View.blocksNeeded (v : View) (ino offset n : Nat) : Nat :=
  ((blocksOver offset n).toFinset.filter fun index => v.pointerTo ino index = none).card +
    ((slotsOver ino offset n).toFinset.filter fun s => ¬s.IsLeaf ∧ v.own s = none).card

section Needed

variable {v : View} {ino offset n : Nat} {inode : Inode}

/-- The slots of the blocks of contents that are missing are as many as the numbers of these blocks. -/
theorem View.card_missing_leaves (v : View) (hreach : ∀ index ∈ blocksOver offset n, dataSlot ino index ≠ none) :
    ((slotsOver ino offset n).toFinset.filter fun s => s.IsLeaf ∧ v.own s = none).card =
      ((blocksOver offset n).toFinset.filter fun index => v.pointerTo ino index = none).card := by
  refine (Finset.card_nbij (fun index => (dataSlot ino index).getD (Slot.single ino)) ?_ ?_ ?_).symm
  · intro index hindex
    rw [Finset.mem_coe, Finset.mem_filter, List.mem_toFinset, pointerTo] at hindex
    obtain ⟨s, hs⟩ := Option.ne_none_iff_exists'.1 (hreach index hindex.1)
    rw [hs, Option.bind_some] at hindex
    simp only [hs, Option.getD_some, Finset.mem_coe, Finset.mem_filter, List.mem_toFinset]
    exact ⟨List.mem_flatMap.2 ⟨index, hindex.1, (mem_slotsTo_iff hs).2 (Place.Above.refl s)⟩,
      (isLeaf_of_dataSlot hs).1, hindex.2⟩
  · intro index hindex index' hindex' heq
    rw [Finset.mem_coe, Finset.mem_filter, List.mem_toFinset] at hindex hindex'
    obtain ⟨s, hs⟩ := Option.ne_none_iff_exists'.1 (hreach index hindex.1)
    obtain ⟨t, ht⟩ := Option.ne_none_iff_exists'.1 (hreach index' hindex'.1)
    simp only [hs, ht, Option.getD_some] at heq
    exact dataSlot_injective hs (heq ▸ ht)
  · intro s hs
    rw [Finset.mem_coe, Finset.mem_filter, List.mem_toFinset] at hs
    obtain ⟨hmem, hleaf, hnone⟩ := hs
    obtain ⟨index, hindex, hs⟩ := List.mem_flatMap.1 hmem
    obtain ⟨t, ht⟩ := Option.ne_none_iff_exists'.1 (hreach index hindex)
    obtain rfl := eq_of_mem_slotsTo ht hs hleaf
    refine ⟨index, ?_, by simp only [ht, Option.getD_some]⟩
    rw [Finset.mem_coe, Finset.mem_filter, List.mem_toFinset, pointerTo, ht, Option.bind_some]
    exact ⟨hindex, hnone⟩

/-- The blocks needed are those that the slots on the way are missing. -/
theorem View.card_missing_slotsOver (hi : v.inodes ino = some inode)
    (hreach : ∀ index ∈ blocksOver offset n, dataSlot ino index ≠ none) :
    (v.missing ino inode (slotsOver ino offset n)).card = v.blocksNeeded ino offset n := by
  rw [blocksNeeded, ← v.card_missing_leaves hreach, missing, ownWith_self hi,
    ← Finset.card_filter_add_card_filter_not (p := fun s : Slot => s.IsLeaf), Finset.filter_filter,
    Finset.filter_filter]
  congr 2 <;> exact Finset.filter_congr fun s _ => and_comm

/-- With the blocks before the data region marked, the free blocks are those of the data region. -/
theorem View.card_freeBlocks (hg : v.Geometry)
    (hmarked : ∀ b, b < v.sb.dataStart.toNat → v.bitmap.isSet b = true) :
    v.freeBlocks.card = v.bitmap.countFree := by
  rw [Bitmap.countFree_eq_card, hg.totalBlocks_eq]
  refine congrArg Finset.card (Finset.filter_congr fun b _ => and_iff_right_of_imp fun hfree => ?_)
  refine Nat.le_of_not_lt fun hlt => ?_
  rw [hmarked b hlt] at hfree
  cases hfree

/-- A range below the limit lies in blocks that a file can have. -/
theorem dataSlot_ne_none_of_mem_blocksOver (hlimit : offset + n ≤ MAX_FILE_BLOCKS * UB) :
    ∀ index ∈ blocksOver offset n, dataSlot ino index ≠ none := by
  intro index hindex
  by_cases hzero : n = 0
  · rw [hzero, blocksOver_zero] at hindex
    cases hindex
  · rw [dataSlot_ne_none_iff]
    refine Nat.lt_of_le_of_lt ((mem_blocksOver hzero).1 hindex).2 ?_
    rw [Nat.div_lt_iff_lt_mul UB_pos]
    omega

end Needed

/-! ### Programs that do not flush -/

/-- The same disk, whose coming flushes end as `flushes` says. -/
def Unflushed (flushes : Nat → Option FsError) (disk disk' : Disk) : Prop :=
  disk = disk' ∧ disk.flushes = flushes

theorem linkedBlocks_unflushed (flushes : Nat → Option FsError) : LinkedBlocks (Unflushed flushes) where
  readBlock lba := linked_of_ends fun disk hdisk => by
    change Ends (Disk.readBlock lba) disk _ _
    unfold Disk.readBlock
    simp only [ends_bind, ends_gets, id_eq]
    split_ifs
    · exact ⟨trivial, hdisk⟩
    · exact hdisk
  writeBlock lba payload := linked_of_ends fun disk hdisk => by
    change Ends (Disk.writeBlock lba payload) disk _ _
    unfold Disk.writeBlock
    split_ifs
    · exact hdisk
    · simp only [ends_bind, ends_gets, id_eq]
      split_ifs
      · exact ⟨trivial, hdisk⟩
      · exact hdisk
  now := linked_of_ends fun disk hdisk => by
    rw [Ends, Disk.exec_now]
    exact ⟨trivial, hdisk⟩

namespace AlbumFs

variable {α : Type} {fs : AlbumFs Disk}

/-- A program that does not flush leaves the outcomes of the coming flushes as they are. -/
theorem ends_unflushed {m : FsM Disk α} {Q : α → View → Prop} {E : FsError → View → Prop}
    (h : EndsOn view m fs.view Q E) (hm : LinkedFs (Unflushed fs.store.flushes) m m) :
    Ends m fs (fun a t => Q a t.view ∧ t.store.flushes = fs.store.flushes)
      fun e t => E e t.view ∧ t.store.flushes = fs.store.flushes := by
  have hsame : Alike (Unflushed fs.store.flushes) fs fs := ⟨⟨rfl, rfl⟩, rfl, rfl⟩
  have hflushes := (hm fs fs hsame).2.2.store.2
  have hends := h fs rfl
  unfold Ends at hends ⊢
  rcases hexec : exec m fs with ⟨_ | a, t⟩ <;> rw [hexec] at hends hflushes <;> exact ⟨hends, hflushes⟩

/-- Synchronising succeeds when its flush does. -/
theorem ends_sync (hg : fs.view.Geometry) :
    Ends sync fs (fun _ t => t.bitmap = fs.bitmap ∧ fs.store.flushes 0 = none)
      fun e t => t.bitmap = fs.bitmap ∧ fs.store.flushes 0 = some e := by
  have hbitmap := hg.bitmap_le
  have htable := (inodeCount_le hg).1
  have hdata := hg.dataStart_lt
  simp only [sb_view, total_view] at hbitmap htable hdata
  simp only [sync, ends_bind, ends_gets, id_eq, onStore, ends_onPart, writeBitmap]
  refine (ends_writeBitmapBlocks _ _ _ _ _ (by omega)).mono ?_ fun _ _ h => h.elim
  rintro _ _ rfl
  rw [Ends, Disk.exec_flush]
  dsimp only
  cases fs.store.flushes 0 with
  | none => exact ⟨trivial, rfl⟩
  | some e => exact ⟨trivial, rfl⟩

/-! ### Writing -/

/-- What a `write` to a live file returns, and how many blocks it takes. -/
theorem ends_write (h : fs.view.Sound) {ino : Nat} {inode : Inode} (hi : fs.view.inodes ino = some inode)
    (hdir : inode.isDir = false) (offset : UInt64) (data : List UInt8)
    (hlimit : offset.toNat + data.length ≤ MAX_FILE_BLOCKS * UB) :
    let needed := fs.view.missing ino inode (slotsOver ino offset.toNat data.length)
    Ends (write ino offset data) fs
      (fun n t => fs.store.flushes 0 = none ∧ n = data.length ∧
        t.bitmap.countFree + needed.card = fs.bitmap.countFree ∧
        fs.view.HasRoom ino inode (blocksOver offset.toNat data.length))
      fun e t => (fs.store.flushes 0 = some e ∧
        t.bitmap.countFree + needed.card = fs.bitmap.countFree ∧
        fs.view.HasRoom ino inode (blocksOver offset.toNat data.length)) ∨
        e = .noSpace ∧ ¬fs.view.HasRoom ino inode (blocksOver offset.toNat data.length) := by
  intro needed
  have hm := h.mapped hi
  have hreach : ∀ index ∈ blocksOver offset.toNat data.length, dataSlot ino index ≠ none :=
    dataSlot_ne_none_of_mem_blocksOver hlimit
  have hmax : MAX_FILE_BLOCKS * UB < 2 ^ 64 := by
    rw [MAX_FILE_BLOCKS, POINTERS_PER_BLOCK_eq, UB_eq]
    decide
  have hget : exec (getattr ino) fs = (.ok inode, fs) := by
    rw [reads_getattr h.geometry ino fs rfl, View.getattr, hi]
  have hvalid : fs.view.ValidIno ino := (live_of_inodes hi).1
  have hadd : checkedAdd offset.toNat data.length = some (offset.toNat + data.length) :=
    if_pos (Nat.lt_of_le_of_lt hlimit hmax)
  rw [write, ends_bind, Ends, hget]
  simp only [hdir, Bool.false_eq_true, if_false, hadd]
  have hlinked := linkedBlocks_unflushed fs.store.flushes
  refine (ends_unflushed ((endsOn_writeRange hm _ _).and (endsOn_writeRange_halted hm _ _))
    (hlinked.writeRange _ _ _)).bind ?_ ?_
  · rintro i t ⟨⟨hwrote, -⟩, hflushes⟩
    have hgrows := hwrote.grows
    have hg := hgrows.mapped.geometry
    have hstore : ∀ j : Inode, Ends (do let time ← now; writeInode ino { j with mtime := time, ctime := time }) t
        (fun _ u => (u.view.Geometry ∧ u.bitmap = t.bitmap) ∧ u.store.flushes = t.store.flushes)
        fun _ u => False ∧ u.store.flushes = t.store.flushes := by
      intro j
      refine ends_unflushed (Q := fun _ w => w.Geometry ∧ w.bitmap = t.view.bitmap) (E := fun _ _ => False)
        (endsOn_bind (endsOn_now fun time => endsOn_writeInode hg ?_ ⟨hg.setInode _ _, rfl⟩)) ?_
      · rwa [View.ValidIno, hgrows.sb_eq]
      · rw [hflushes]
        exact hlinked.nowFs.bind fun _ _ => hlinked.writeInode _ _
    have hdone : t.bitmap.countFree + needed.card = fs.bitmap.countFree := hgrows.countFree_eq
    have hroom := Grows.hasRoom hgrows hm hreach
    rw [← bind_assoc]
    refine (hstore _).bind ?_ fun _ _ he => he.1.elim
    rintro ⟨⟩ u ⟨⟨hg', hbitmap⟩, hflushes'⟩
    refine (ends_sync hg').bind ?_ ?_
    · rintro ⟨⟩ t' ⟨hbitmap', hflush⟩
      rw [hflushes', hflushes] at hflush
      exact ⟨hflush, rfl, by rw [hbitmap', hbitmap]; exact hdone, hroom⟩
    · rintro e t' ⟨hbitmap', hflush⟩
      rw [hflushes', hflushes] at hflush
      exact .inl ⟨hflush, by rw [hbitmap', hbitmap]; exact hdone, hroom⟩
  · rintro e t ⟨⟨-, n, u, i, hn, hwrote, hhalted, he⟩, -⟩
    refine .inr ⟨he (hreach _ ?_), hhalted.not_hasRoom hm hn hwrote⟩
    exact (mem_blocksOver (by omega)).2 ⟨Nat.div_le_div_right (by omega), Nat.div_le_div_right (by omega)⟩

end AlbumFs

/-- A `write` below the limit of the block map succeeds when the blocks it needs are free, and then takes as many;
else it fails for want of space. (At its end a `write` flushes the device, and returns the error of the flush.) -/
theorem write_space {fs : AlbumFs Disk} (h : fs.view.Sound)
    (hmarked : ∀ b, b < fs.sb.dataStart.toNat → fs.bitmap.isSet b = true) {ino : Nat} {inode : Inode}
    (hi : fs.view.inodes ino = some inode) (hdir : inode.isDir = false) (offset : UInt64) (data : List UInt8)
    (hlimit : offset.toNat + data.length ≤ (12 + 504 + 504 * 504) * 4032) :
    (fs.view.blocksNeeded ino offset.toNat data.length ≤ AlbumFs.freeBlocks fs →
      (fs.store.flushes 0 = none → (exec (AlbumFs.write ino offset data) fs).1 = .ok data.length) ∧
      (∀ e, fs.store.flushes 0 = some e → (exec (AlbumFs.write ino offset data) fs).1 = .error e) ∧
      AlbumFs.freeBlocks (exec (AlbumFs.write ino offset data) fs).2 =
        AlbumFs.freeBlocks fs - fs.view.blocksNeeded ino offset.toNat data.length) ∧
    (AlbumFs.freeBlocks fs < fs.view.blocksNeeded ino offset.toNat data.length →
      (exec (AlbumFs.write ino offset data) fs).1 = .error .noSpace) := by
  have hlimit' : offset.toNat + data.length ≤ MAX_FILE_BLOCKS * UB := by
    rw [MAX_FILE_BLOCKS, POINTERS_PER_BLOCK_eq, UB_eq]
    exact hlimit
  have hreach : ∀ index ∈ blocksOver offset.toNat data.length, dataSlot ino index ≠ none :=
    dataSlot_ne_none_of_mem_blocksOver hlimit'
  have hneeded := View.card_missing_slotsOver hi hreach
  have hroom : fs.view.HasRoom ino inode (blocksOver offset.toNat data.length) ↔
      fs.view.blocksNeeded ino offset.toNat data.length ≤ AlbumFs.freeBlocks fs := by
    have hfree : fs.view.freeBlocks.card = AlbumFs.freeBlocks fs := View.card_freeBlocks h.geometry hmarked
    rw [View.HasRoom, ← slotsOver, hneeded, hfree]
    exact and_iff_right hreach
  have hends := AlbumFs.ends_write h hi hdir offset data hlimit'
  dsimp only at hends
  rw [hneeded, hroom] at hends
  rcases hexec : exec (AlbumFs.write ino offset data) fs with ⟨e | n, t⟩
  · rcases hends.of_error hexec with ⟨hflush, hfree, hle⟩ | ⟨rfl, hlt⟩
    · refine ⟨fun _ => ⟨fun hnone => ?_, fun e' he' => ?_, Nat.eq_sub_of_add_eq hfree⟩,
        fun hlt => absurd hle (Nat.not_le.2 hlt)⟩
      · rw [hflush] at hnone
        cases hnone
      · rw [hflush, Option.some.injEq] at he'
        rw [he']
    · exact ⟨fun hle => absurd hle hlt, fun _ => rfl⟩
  · obtain ⟨hflush, rfl, hfree, hle⟩ := hends.of_ok hexec
    refine ⟨fun _ => ⟨fun _ => rfl, fun e' he' => ?_, Nat.eq_sub_of_add_eq hfree⟩,
      fun hlt => absurd hle (Nat.not_le.2 hlt)⟩
    rw [hflush] at he'
    cases he'

/-- The theorem for a byte behind the single indirect pointer of a file of the small pool. -/
theorem write_space_smallFile :
    (smallFile.view.blocksNeeded 2 48384 1 ≤ AlbumFs.freeBlocks smallFile →
      (smallFile.store.flushes 0 = none → (exec (AlbumFs.write 2 48384 [7]) smallFile).1 = .ok 1) ∧
      (∀ e, smallFile.store.flushes 0 = some e → (exec (AlbumFs.write 2 48384 [7]) smallFile).1 = .error e) ∧
      AlbumFs.freeBlocks (exec (AlbumFs.write 2 48384 [7]) smallFile).2 =
        AlbumFs.freeBlocks smallFile - smallFile.view.blocksNeeded 2 48384 1) ∧
    (AlbumFs.freeBlocks smallFile < smallFile.view.blocksNeeded 2 48384 1 →
      (exec (AlbumFs.write 2 48384 [7]) smallFile).1 = .error .noSpace) :=
  write_space sound_smallFile marked_smallFile inodes_smallFile (by decide) 48384 [7] (by decide)

end AlbumFS

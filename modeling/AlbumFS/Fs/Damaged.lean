import AlbumFS.Fs.View
import AlbumFS.Lib.Linked

/-!
# Damaged devices

On a damaged device some blocks cannot be read: `read_block` returns an error for them, every time. All
else is as on a disk, and a program that reads no damaged block does what it does on the disk.

## Main definitions

* `Damaged`: disks with a fixed set of blocks that cannot be read.
* `AlbumFs.repaired`, `AlbumFs.survey`: the file system on the disk without the damage, and its view together
  with the damage.

## Main results

* `AlbumFs.reads_readBlock_intact`, `AlbumFs.reads_readBlock_damaged`: reading a block.
* `AlbumFs.endsOn_survey`: a program that is linked to the program on the disk has its outcome.
-/

namespace AlbumFS

open Prog

/-- A disk some of whose blocks cannot be read. -/
structure Damaged where
  disk : Disk
  /-- The errors of reading the damaged blocks. -/
  faults : Nat → Option FsError

namespace Damaged

variable {α : Type}

/-- Run a program of the disk. -/
def onDisk (m : Prog FsError Disk α) : Prog FsError Damaged α :=
  Prog.onPart (fun damaged : Damaged => damaged.disk) (fun disk damaged => { damaged with disk }) m

def readBlock (lba : Nat) : Prog FsError Damaged Block := do
  let faults ← Prog.gets fun damaged : Damaged => damaged.faults
  match faults lba with
  | some e => throw e
  | none => onDisk (BlockDevice.readBlock lba)

instance : BlockDevice Damaged where
  readBlock := readBlock
  writeBlock lba payload := onDisk (BlockDevice.writeBlock lba payload)
  flush := onDisk BlockDevice.flush
  now := onDisk BlockDevice.now

/-- The disk is `disk`, and the damage is `faults`. -/
def Holds (faults : Nat → Option FsError) (damaged : Damaged) (disk : Disk) : Prop :=
  damaged.disk = disk ∧ damaged.faults = faults

theorem linked_onDisk (faults : Nat → Option FsError) (m : Prog FsError Disk α) :
    Linked (Holds faults) (fun _ => True) (onDisk m) m := by
  rintro damaged _ ⟨rfl, rfl⟩
  exact ⟨rfl, fun _ _ => trivial, rfl, rfl⟩

theorem exec_readBlock_intact {damaged : Damaged} {lba : Nat} (h : damaged.faults lba = none)
    (hlt : lba < damaged.disk.total) :
    exec (BlockDevice.readBlock lba) damaged = (.ok (damaged.disk.blocks lba), damaged) := by
  change exec (readBlock lba) damaged = _
  simp only [readBlock, exec_bind, exec_gets, h, onDisk, exec_onPart, Disk.exec_readBlock hlt]

theorem exec_readBlock_damaged {damaged : Damaged} {lba : Nat} {e : FsError}
    (h : damaged.faults lba = some e) :
    exec (BlockDevice.readBlock lba) damaged = (.error e, damaged) := by
  change exec (readBlock lba) damaged = _
  simp only [readBlock, exec_bind, exec_gets, h, exec_throw]

end Damaged

namespace AlbumFs

variable {α : Type} {v : View} {faults : Nat → Option FsError} {lba : Nat}

/-- The file system on the disk without the damage. -/
def repaired (fs : AlbumFs Damaged) : AlbumFs Disk where
  store := fs.store.disk
  sb := fs.sb
  bitmap := fs.bitmap

/-- The view of the file system without the damage, together with the damage. -/
def survey (fs : AlbumFs Damaged) : View × (Nat → Option FsError) := (fs.repaired.view, fs.store.faults)

/-- The file system without the damage is `fs'`, and the damage is `faults`. -/
def Holds (faults : Nat → Option FsError) (fs : AlbumFs Damaged) (fs' : AlbumFs Disk) : Prop :=
  fs.repaired = fs' ∧ fs.store.faults = faults

/-! ### Reading a block -/

theorem exec_readBlock_intact {fs : AlbumFs Damaged} (h : fs.store.faults lba = none)
    (hlt : lba < fs.store.disk.total) :
    exec (readBlock lba) fs = (.ok (fs.store.disk.blocks lba), fs) := by
  simp only [readBlock, onStore, exec_onPart, Damaged.exec_readBlock_intact h hlt]

theorem reads_readBlock_intact (hin : v.InData lba) (h : faults lba = none) :
    Reads survey (readBlock lba) (v, faults) (.ok (v.data lba)) := by
  rintro fs ⟨⟩
  rw [exec_readBlock_intact h hin.2, data_view hin.1]
  rfl

theorem reads_readBlock_damaged {e : FsError} (h : faults lba = some e) :
    Reads survey (readBlock lba) (v, faults) (.error e) := by
  rintro fs ⟨⟩
  simp only [readBlock, onStore, exec_onPart, Damaged.exec_readBlock_damaged h]

/-! ### Programs that read no damaged block -/

theorem linked_onStore {m : Prog FsError Damaged α} {n : Prog FsError Disk α}
    (h : Linked (Damaged.Holds faults) (fun _ => True) m n) :
    Linked (Holds faults) (fun _ => True) (onStore m) (onStore n) := by
  refine linked_onPart h ?_ ?_
  · rintro fs _ ⟨rfl, hfaults⟩
    exact ⟨rfl, hfaults⟩
  · rintro fs _ store _ ⟨rfl, -⟩ ⟨rfl, hfaults⟩
    exact ⟨rfl, hfaults⟩

theorem linked_writeBlock (lba : Nat) (payload : List UInt8) :
    Linked (Holds faults) (fun _ => True) (writeBlock lba payload : FsM Damaged Unit)
      (writeBlock lba payload) :=
  linked_onStore (Damaged.linked_onDisk faults (BlockDevice.writeBlock lba payload))

theorem linked_now : Linked (Holds faults) (fun _ => True) (now : FsM Damaged UInt64) now :=
  linked_onStore (Damaged.linked_onDisk faults BlockDevice.now)

theorem linked_clearBit (block : Nat) :
    Linked (Holds faults) (fun _ => True) (clearBit block : FsM Damaged Unit) (clearBit block) := by
  refine linked_update ?_ trivial
  rintro fs _ ⟨rfl, rfl⟩
  exact ⟨rfl, rfl⟩

theorem linked_writeBitmapBlocks (sb : Superblock) (bitmap : Bitmap) (index n : Nat) :
    Linked (Damaged.Holds faults) (fun _ => True)
      (writeBitmapBlocks sb bitmap index n : Prog FsError Damaged Unit)
      (writeBitmapBlocks sb bitmap index n) := by
  induction n generalizing index with
  | zero => exact linked_pure trivial
  | succ n ih => exact (Damaged.linked_onDisk faults _).bind fun _ _ => ih (index + 1)

theorem linked_sync : Linked (Holds faults) (fun _ => True) (sync : FsM Damaged Unit) sync := by
  rintro fs _ ⟨rfl, hfaults⟩
  have hwrite : Linked (Holds faults) (fun _ => True)
      (onStore (writeBitmap fs.sb fs.bitmap) : FsM Damaged Unit) (onStore (writeBitmap fs.sb fs.bitmap)) :=
    linked_onStore (linked_writeBitmapBlocks _ _ _ _)
  have hflush : Linked (Holds faults) (fun _ => True) (onStore BlockDevice.flush : FsM Damaged Unit)
      (onStore BlockDevice.flush) :=
    linked_onStore (Damaged.linked_onDisk faults BlockDevice.flush)
  have hrest := (hwrite.bind fun _ _ => hflush) fs fs.repaired ⟨rfl, hfaults⟩
  have hexec : ∀ {σ : Type} [BlockDevice σ] (fs : AlbumFs σ), exec sync fs =
      exec (do onStore (writeBitmap fs.sb fs.bitmap); onStore BlockDevice.flush) fs := fun fs => by
    rw [sync, exec_bind, exec_gets, id_eq]
  rw [hexec fs, hexec fs.repaired]
  exact hrest

/-- A program that is linked to the program on the disk has its outcome. -/
theorem endsOn_survey {m : FsM Damaged α} {n : FsM Disk α} {Q : α → View → Prop}
    {E : FsError → View → Prop}
    (h : ∀ fs, fs.survey = (v, faults) → LinkedAt (Holds faults) m n fs fs.repaired)
    (hn : EndsOn view n v Q E) :
    EndsOn survey m (v, faults) (fun a w => ∃ u, w = (u, faults) ∧ Q a u)
      fun e w => ∃ u, w = (u, faults) ∧ E e u := by
  rintro fs hfs
  have hview : fs.repaired.view = v := congrArg Prod.fst hfs
  refine ((h fs hfs).ends (hn fs.repaired hview)).mono ?_ ?_
  · rintro a fs' ⟨_, ⟨rfl, rfl⟩, hQ⟩
    exact ⟨_, rfl, hQ⟩
  · rintro e fs' ⟨_, ⟨rfl, rfl⟩, hE⟩
    exact ⟨_, rfl, hE⟩

theorem endsOn_survey_of_linked {m : FsM Damaged α} {n : FsM Disk α} {Q : α → View → Prop}
    {E : FsError → View → Prop} (h : Linked (Holds faults) (fun _ => True) m n)
    (hn : EndsOn view n v Q E) :
    EndsOn survey m (v, faults) (fun a w => ∃ u, w = (u, faults) ∧ Q a u)
      fun e w => ∃ u, w = (u, faults) ∧ E e u := by
  refine endsOn_survey (fun fs hfs => h.linkedAt ⟨rfl, ?_⟩) hn
  exact congrArg Prod.snd hfs

/-- A program that is linked to a reading of the disk reads the same. -/
theorem reads_survey {m : FsM Damaged α} {n : FsM Disk α} {r : Except FsError α}
    (h : ∀ fs, fs.survey = (v, faults) → LinkedAt (Holds faults) m n fs fs.repaired)
    (hn : Reads view n v r) : Reads survey m (v, faults) r := by
  intro fs hfs
  obtain ⟨hresult, hstate, hfaults⟩ := h fs hfs
  rw [hn fs.repaired (congrArg Prod.fst hfs)] at hresult hstate
  obtain ⟨rfl, rfl⟩ := Prod.mk.inj hfs
  refine Prod.ext hresult ?_
  rcases hexec : (exec m fs).2 with ⟨⟨disk, faults⟩, sb, bitmap⟩
  rw [hexec] at hstate hfaults
  cases fs
  cases hstate
  cases hfaults
  rfl

end AlbumFs

end AlbumFS

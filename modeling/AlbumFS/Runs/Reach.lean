import AlbumFS.Fs.Fuse
import AlbumFS.Ops.Files
import AlbumFS.Ops.Fresh
import AlbumFS.Ops.Rename

/-!
# Runs of the file system

A run starts with a formatted file system and performs operations, whether they succeed or fail. What
an operation does to the view is collected here from the specifications of the operations. Invariants of
runs follow by induction on the run.

## Main definitions

* `Op`: the operations of a run.
* `Op.Done`, `Op.Failed`: what they do to the view.
* `Reach`: the file systems that a run reaches.

## Main results

* `Op.endsOn_run`: the specification of the operations.
* `Op.Done.sound`, `Op.Failed.sound`: operations keep the view sound.
* `Reach.invariant`: the invariants of runs.
-/

namespace AlbumFS

open Prog

/-- The operations of `fs/album.rs` that change the file system. -/
inductive Op where
  | create (parentIno : Nat) (name : String) (mode : UInt32)
  | mkdir (parentIno : Nat) (name : String) (mode : UInt32)
  | write (ino : Nat) (offset : UInt64) (data : List UInt8)
  | truncate (ino : Nat) (newSize : UInt64)
  | unlink (parentIno : Nat) (name : String)
  | rmdir (parentIno : Nat) (name : String)
  | rename (parentIno : Nat) (name : String) (newParentIno : Nat) (newName : String)

namespace Op

open AlbumFs

def run {σ : Type} [BlockDevice σ] : Op → FsM σ Unit
  | create parentIno name mode => do let _ ← AlbumFs.create parentIno name mode
  | mkdir parentIno name mode => do let _ ← AlbumFs.mkdir parentIno name mode
  | write ino offset data => do let _ ← AlbumFs.write ino offset data
  | truncate ino newSize => AlbumFs.truncate ino newSize
  | unlink parentIno name => AlbumFs.unlink parentIno name
  | rmdir parentIno name => AlbumFs.rmdir parentIno name
  | rename parentIno name newParentIno newName => AlbumFs.rename parentIno name newParentIno newName

/-- What an operation does to the view when it succeeds. -/
def Done (v w : View) : Op → Prop
  | create parentIno name mode => ∃ ino, Created v parentIno name mode ino w
  | mkdir parentIno name mode => ∃ ino, DirCreated v parentIno name mode ino w
  | write ino offset data => Written v ino offset data w
  | truncate ino newSize => Truncated v ino newSize w
  | unlink parentIno name => ∃ ino inode u, Unlinked v parentIno name ino inode u w
  | rmdir parentIno name => ∃ ino inode, DirRemoved v parentIno name ino inode w
  | rename parentIno name newParentIno newName => Renamed v parentIno name newParentIno newName w

/-- What an operation does to the view when it fails: it stops after some of its steps, or while it
allocates blocks, or its flush fails. -/
def Failed (v w : View) : Op → Prop
  | create parentIno name mode => Steps v w ∨ ∃ ino u, FileMade v parentIno name mode ino u ∧
      AddStopped u parentIno ino name FILE_TYPE_FILE w
  | mkdir parentIno name mode => Steps v w ∨ ∃ ino time u, DirMade v parentIno name mode ino time u ∧
      AddStopped u parentIno ino name FILE_TYPE_DIR w
  | write ino offset data => w = v ∨ WriteStopped v ino offset data.length w ∨
      Written v ino offset data w
  | truncate ino newSize => w = v ∨ Truncated v ino newSize w
  | unlink _ _ => Steps v w
  | rmdir _ _ => Steps v w
  | rename parentIno name newParentIno newName => Steps v w ∨ ∃ ino source u,
      v.lookup parentIno name = .ok (some ino) ∧ v.inodes ino = some source ∧
      Replaced v ino newParentIno newName source.isDir u ∧
      AddStopped u newParentIno ino newName
        (if source.isDir then FILE_TYPE_DIR else FILE_TYPE_FILE) w

variable {v w : View}

/-- The specification of the operations. -/
theorem endsOn_run (h : v.Sound) (op : Op) :
    EndsOn view op.run v (fun _ w => op.Done v w) fun _ w => op.Failed v w := by
  cases op with
  | create parentIno name mode =>
    refine (endsOn_create h parentIno name mode).bind (fun ino w hw => endsOn_pure ⟨ino, hw⟩) ?_
    rintro _ w (rfl | ⟨ino, u, hmade, rfl | hstop | hadded⟩)
    · exact .inl .refl
    · exact .inl (.single (.fileMade hmade))
    · exact .inr ⟨ino, u, hmade, hstop⟩
    · exact .inl (Created.steps ⟨u, hmade, hadded⟩)
  | mkdir parentIno name mode =>
    refine (endsOn_mkdir h parentIno name mode).bind (fun ino w hw => endsOn_pure ⟨ino, hw⟩) ?_
    rintro _ w (rfl | ⟨ino, hcreated⟩ | ⟨ino, time, u, hmade, rfl | hstop | hadded⟩)
    · exact .inl .refl
    · exact .inl (DirCreated.steps hcreated)
    · exact .inl (.single (.dirMade hmade))
    · exact .inr ⟨ino, time, u, hmade, hstop⟩
    · exact .inl ((Relation.ReflTransGen.single (Step.dirMade hmade)).tail (.added hadded))
  | write ino offset data =>
    exact (endsOn_write h ino offset data).bind (fun _ w hw => endsOn_pure hw.2) fun _ _ he => he
  | truncate ino newSize => exact endsOn_truncate h ino newSize
  | unlink parentIno name =>
    refine (endsOn_unlink h parentIno name).mono (fun _ _ hw => hw) ?_
    rintro _ w (rfl | ⟨ino, inode, u, hunlinked⟩)
    · exact .refl
    · exact hunlinked.steps
  | rmdir parentIno name =>
    exact (endsOn_rmdir h parentIno name).mono (fun _ _ hw => hw) fun _ _ he => he.steps
  | rename parentIno name newParentIno newName =>
    exact endsOn_rename h parentIno name newParentIno newName

theorem Done.sound {op : Op} (h : op.Done v w) (hs : v.Sound) : w.Sound := by
  cases op with
  | create => obtain ⟨_, h⟩ := h; exact h.steps.sound hs
  | mkdir => obtain ⟨_, h⟩ := h; exact h.steps.sound hs
  | write => exact Written.sound h
  | truncate => exact Truncated.sound h hs
  | unlink => obtain ⟨_, _, _, h⟩ := h; exact h.steps.sound hs
  | rmdir => obtain ⟨_, _, h⟩ := h; exact h.steps.sound hs
  | rename => exact Renamed.steps h |>.sound hs

theorem Failed.sound {op : Op} (h : op.Failed v w) (hs : v.Sound) : w.Sound := by
  cases op with
  | create =>
    rcases h with hsteps | ⟨_, _, _, hstop⟩
    · exact hsteps.sound hs
    · exact hstop.sound
  | mkdir =>
    rcases h with hsteps | ⟨_, _, _, _, hstop⟩
    · exact hsteps.sound hs
    · exact hstop.sound
  | write =>
    rcases h with rfl | hstop | hdone
    · exact hs
    · exact hstop.sound
    · exact hdone.sound
  | truncate =>
    rcases h with rfl | hdone
    · exact hs
    · exact hdone.sound hs
  | unlink => exact Steps.sound h hs
  | rmdir => exact Steps.sound h hs
  | rename =>
    rcases h with hsteps | ⟨_, _, _, _, _, _, hstop⟩
    · exact hsteps.sound hs
    · exact hstop.sound

end Op

/-- The file systems that a run of operations reaches when each operation is one that `P` allows in
the file system it starts from. -/
inductive Reach (P : Op → AlbumFs Disk → Prop) : AlbumFs Disk → Prop
  | formatted {fs : AlbumFs Disk} (h : Formatted fs) : Reach P fs
  | op {fs : AlbumFs Disk} (h : Reach P fs) (op : Op) (hop : P op fs) : Reach P (exec op.run fs).2

/-- An invariant of views that every fresh view has and every allowed operation keeps. -/
theorem Reach.invariant {P : Op → AlbumFs Disk → Prop} {I : View → Prop} {fs : AlbumFs Disk}
    (h : Reach P fs) (hfresh : ∀ v : View, v.Fresh → I v)
    (hop : ∀ (op : Op) fs, I fs.view → P op fs → I (exec op.run fs).2.view) : I fs.view := by
  induction h with
  | formatted h => exact hfresh _ h.fresh
  | op _ op hp ih => exact hop op _ ih hp

/-- The file system after some operations, whatever they return. -/
def runOps (fs : AlbumFs Disk) : List Op → AlbumFs Disk
  | [] => fs
  | op :: ops => runOps (exec op.run fs).2 ops

theorem Reach.runOps {P : Op → Prop} {fs : AlbumFs Disk} {ops : List Op}
    (h : Reach (fun op _ => P op) fs) (hops : ∀ op ∈ ops, P op) :
    Reach (fun op _ => P op) (runOps fs ops) := by
  induction ops generalizing fs with
  | nil => exact h
  | cons op ops ih => exact ih (h.op op (hops op (by simp))) fun o ho => hops o (by simp [ho])

end AlbumFS

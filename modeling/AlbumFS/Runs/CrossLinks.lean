import AlbumFS.Runs.Reach

/-!
# No block is cross-linked

Runs in which clients also set the attributes of inodes. Whatever the operations return, every block
that a live inode references lies in the data region, is marked in the bitmap and has one reference.

## Main results

* `FuseAlbumFs.endsOn_setAttributes`: setting attributes keeps the pointers of an inode.
* `Reachable.sound`: every view that is reached is sound.
* `Reachable.references_exclusive`: no block is cross-linked.
-/

namespace AlbumFS

open Ownership Prog

/-- Storing an inode with the same pointers; if its mode is zero, the inode is gone with them. -/
theorem View.Sound.setInode {v : View} {ino : Nat} {inode inode' : Inode} (h : v.Sound)
    (hi : v.inodes ino = some inode) (hp : ∀ r : Root, r.pointer inode' = r.pointer inode) :
    (v.setInode ino inode').Sound := by
  by_cases hmode : inode'.mode = 0
  · have hdefault : v.setInode ino inode' = v.setInode ino Inode.default := by
      rw [View.setInode, View.setInode, Inode.live, if_pos hmode, Inode.live_default]
    rw [hdefault]
    exact (h.mapped hi).shrinks_refl.sound_free (h.mapped hi)
  · exact (h.mapped hi).sound hp hmode

namespace FuseAlbumFs

variable {v : View}

theorem endsOn_setTime (time : Option TimeOrNow) (current : UInt64) {Q : UInt64 → View → Prop}
    {E : FsError → View → Prop} (hQ : ∀ seconds, Q seconds v) :
    EndsOn AlbumFs.view (setTime time current) v Q E := by
  rcases time with _ | seconds | _
  · exact endsOn_pure (hQ current)
  · exact endsOn_pure (hQ seconds)
  · exact AlbumFs.endsOn_now hQ

/-- Setting attributes keeps the pointers of the inode. -/
theorem endsOn_setAttributes (h : v.Sound) (ino : Nat) (attributes : Attributes) :
    EndsOn AlbumFs.view (setAttributes ino attributes) v
      (fun inode' w => ∃ inode, v.inodes ino = some inode ∧ w = v.setInode ino inode' ∧
        (∀ r : Root, r.pointer inode' = r.pointer inode) ∧ inode'.size = inode.size ∧
        inode'.nlink = inode.nlink ∧ inode'.mode = attributes.mode.elim inode.mode
          fun mode => inode.mode &&& S_IFMT ||| (mode &&& 0o7777))
      fun _ w => w = v ∨ ∃ inode inode', v.inodes ino = some inode ∧ w = v.setInode ino inode' ∧
        (∀ r : Root, r.pointer inode' = r.pointer inode) ∧ inode'.size = inode.size ∧
        inode'.nlink = inode.nlink ∧ inode'.mode = attributes.mode.elim inode.mode
          fun mode => inode.mode &&& S_IFMT ||| (mode &&& 0o7777) := by
  refine (AlbumFs.reads_getattr h.geometry ino).bind_endsOn_except (fun inode hinode => ?_)
    fun _ _ => .inl rfl
  have hi := View.inodes_of_getattr hinode
  refine AlbumFs.endsOn_of_live fun hlive => ?_
  refine endsOn_bind (endsOn_setTime _ _ fun atime => endsOn_bind (endsOn_setTime _ _ fun mtime => ?_))
  refine endsOn_bind (AlbumFs.endsOn_writeInode h.geometry (hlive ino inode hi).1 ?_)
  refine endsOn_bind (AlbumFs.endsOn_sync (h.geometry.setInode _ _) (endsOn_pure ?_) fun _ => .inr ?_)
  · exact ⟨inode, hi, rfl, fun r => by cases r <;> rfl, rfl, rfl, rfl⟩
  · exact ⟨inode, _, hi, rfl, fun r => by cases r <;> rfl, rfl, rfl, rfl⟩

end FuseAlbumFs

/-- The file systems that operations and requests to set attributes reach, whatever they return. -/
inductive Reachable : AlbumFs Disk → Prop
  | formatted {fs : AlbumFs Disk} (h : Formatted fs) : Reachable fs
  | op {fs : AlbumFs Disk} (h : Reachable fs) (op : Op) : Reachable (exec op.run fs).2
  | setattr {fs : AlbumFs Disk} (h : Reachable fs) (ino : Nat) (attributes : Attributes) :
      Reachable (exec (FuseAlbumFs.setattr ino none attributes) fs).2

/-- An operation keeps the view sound, whatever it returns. -/
theorem Op.sound_run {fs : AlbumFs Disk} (h : fs.view.Sound) (op : Op) : (exec op.run fs).2.view.Sound :=
  ((op.endsOn_run h fs rfl).mono (fun _ _ hw => hw.sound h) fun _ _ hw => hw.sound h).state
    (P := fun fs : AlbumFs Disk => fs.view.Sound)

theorem Reach.sound {P : Op → AlbumFs Disk → Prop} {fs : AlbumFs Disk} (h : Reach P fs) :
    fs.view.Sound :=
  h.invariant (fun _ hfresh => hfresh.sound) fun op _ hs _ => op.sound_run hs

theorem Reachable.sound {fs : AlbumFs Disk} (h : Reachable fs) : fs.view.Sound := by
  induction h with
  | formatted h => exact h.fresh.sound
  | op _ op ih => exact op.sound_run ih
  | setattr _ ino attributes ih =>
    refine Ends.state (P := fun fs : AlbumFs Disk => fs.view.Sound) ?_
    refine endsOn_bind (endsOn_pure (endsOn_bind (endsOn_mapError
      ((FuseAlbumFs.endsOn_setAttributes ih ino attributes).mono ?_ ?_)))) _ rfl
    · rintro inode' w ⟨inode, hi, rfl, hp, -⟩
      exact endsOn_pure (ih.setInode hi hp)
    · rintro _ w (rfl | ⟨inode, inode', hi, rfl, hp, -⟩)
      · exact ih
      · exact ih.setInode hi hp

/-- No block is cross-linked: whatever a live inode references, directly or through its pointer
blocks, lies in the data region, is marked, and is referenced once. -/
theorem Reachable.references_exclusive {fs : AlbumFs Disk} (h : Reachable fs) :
    (∀ s b, fs.view.own s = some b →
      fs.sb.dataStart.toNat ≤ b ∧ b < fs.sb.totalBlocks.toNat ∧ fs.bitmap.isSet b = true) ∧
    ∀ s t b, fs.view.own s = some b → fs.view.own t = some b → s = t := by
  have hs := h.sound
  refine ⟨fun s b hown => ?_, fun s t b hown hown' => hs.exclusive.inj hown hown'⟩
  obtain ⟨hin, hset⟩ := hs.exclusive.marked hown
  refine ⟨hin.1, ?_, hset⟩
  have htotal := hs.geometry.sb_totalBlocks_eq
  rw [AlbumFs.sb_view] at htotal
  rw [htotal]
  exact hin.2

/-- The theorem on a run of three operations. -/
theorem Reachable.references_exclusive_smallPool :
    ∃ fs, Reachable fs ∧ (∀ s b, fs.view.own s = some b →
      fs.sb.dataStart.toNat ≤ b ∧ b < fs.sb.totalBlocks.toNat ∧ fs.bitmap.isSet b = true) ∧
    ∀ s t b, fs.view.own s = some b → fs.view.own t = some b → s = t :=
  let run := ((Reachable.formatted formatted_smallPool).op (.create 1 "a" 0o644)).op
    (.write 2 70000 [1, 2, 3])
  ⟨_, run.op (.unlink 1 "a"), (run.op (.unlink 1 "a")).references_exclusive⟩

end AlbumFS

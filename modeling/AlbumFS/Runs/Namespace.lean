import AlbumFS.Dirs.Namespace
import AlbumFS.Runs.CrossLinks

/-!
# The namespace in runs

What each operation does to the namespace, whether it succeeds or fails, and what every run keeps. A removal has
to find no gap before its record, and a renaming none once the new entry is there. Clients do not use the names
`.` and `..` in removals and renamings.

## Main definitions

* `Op.Does`, `Op.Leaves`: what an operation does to a namespace.
* `Op.Clean`: the operation uses proper names and crosses no gap.

## Main results

* `Op.ends_run_names`: every operation is one on the namespace.
* `Op.Does.tidy`, `Op.Leaves.tidy`: the namespace stays tidy.
-/

namespace AlbumFS

open Prog

namespace Op

open AlbumFs

variable {A B : Names Nat String} {op : Op}

/-- What an operation that succeeds does to a namespace. -/
inductive Does (A : Names Nat String) : Op → Names Nat String → Prop
  | create {d ino : Nat} {name : String} {mode : UInt32} (h : Fresh A d name ino) :
      Does A (.create d name mode) (A.created d name ino false)
  | mkdir {d ino : Nat} {name : String} {mode : UInt32} (h : Fresh A d name ino) :
      Does A (.mkdir d name mode) (A.created d name ino true)
  | write (ino : Nat) (offset : UInt64) (data : List UInt8) : Does A (.write ino offset data) A
  | truncate (ino : Nat) (newSize : UInt64) : Does A (.truncate ino newSize) A
  | unlink {d : Nat} {l : Link Nat String} (hl : l ∈ A.links d) (hfile : l.isDir = false) :
      Does A (.unlink d l.name) (A.removed d l)
  | rmdir {d : Nat} {l : Link Nat String} (hl : l ∈ A.links d) (hdir : l.isDir = true)
      (hempty : A.links l.node = 0) : Does A (.rmdir d l.name) (A.removed d l)
  | stay (d : Nat) (name : String) : Does A (.rename d name d name) A
  | rename {d d' : Nat} {l : Link Nat String} {name' : String} {B : Names Nat String} (hl : l ∈ A.links d)
      (hd' : A.IsDir d') (hne : ¬(d = d' ∧ l.name = name')) (hB : A.Cleared d' name' l.node l.isDir B) :
      Does A (.rename d l.name d' name') (B.moved d l d' name')

/-- What an operation that fails leaves of a namespace: nothing has changed, everything is done, a new node has no
name yet, or a name has made way for one that did not come. -/
inductive Leaves (A : Names Nat String) : Op → Names Nat String → Prop
  | unchanged (op : Op) : Leaves A op A
  | done {op : Op} {B : Names Nat String} (h : op.Does A B) : Leaves A op B
  | create {d ino : Nat} {name : String} {mode : UInt32} (h : Fresh A d name ino) :
      Leaves A (.create d name mode) (A.make ino false d)
  | mkdir {d ino : Nat} {name : String} {mode : UInt32} (h : Fresh A d name ino) :
      Leaves A (.mkdir d name mode) (A.make ino true d)
  | rename {d d' : Nat} {l : Link Nat String} {name' : String} {B : Names Nat String} (hl : l ∈ A.links d)
      (hd' : A.IsDir d') (hne : ¬(d = d' ∧ l.name = name')) (hB : A.Cleared d' name' l.node l.isDir B) :
      Leaves A (.rename d l.name d' name') B

theorem Does.tidy (h : op.Does A B) (htidy : A.Tidy 1) : B.Tidy 1 := by
  cases h with
  | create h => exact htidy.created h.isDir h.node_eq h.name_ne false
  | mkdir h => exact htidy.created h.isDir h.node_eq h.name_ne true
  | write => exact htidy
  | truncate => exact htidy
  | unlink hl hfile => exact htidy.removed hl (htidy.links_of_file hl hfile)
  | rmdir hl hdir hempty => exact htidy.removed hl hempty
  | stay => exact htidy
  | rename hl hd' hne hB => exact (hB.tidy htidy).moved (hB.mem_links hl) (hB.isDir_of hd') (hB.name_ne htidy)

theorem Leaves.tidy (h : op.Leaves A B) (htidy : A.Tidy 1) : B.Tidy 1 := by
  cases h with
  | unchanged => exact htidy
  | done h => exact h.tidy htidy
  | create h => exact htidy.make h.node_eq false _
  | mkdir h => exact htidy.make h.node_eq true _
  | rename hl hd' hne hB => exact hB.tidy htidy

/-- A name that clients use for an entry of a directory. -/
def Proper (name : String) : Prop := name ≠ "." ∧ name ≠ ".."

instance (name : String) : Decidable (Proper name) := inferInstanceAs (Decidable (_ ∧ _))

/-- The operation uses proper names, no removal has a gap before its record, and a link count can count all
inodes. -/
def Clean (op : Op) (fs : AlbumFs Disk) : Prop :=
  fs.sb.inodeCount.toNat + 1 < 2 ^ 32 ∧
    match op with
    | unlink d name | rmdir d name => Proper name ∧ fs.view.Gapless d name
    | rename d name d' name' => Proper name ∧ Proper name' ∧ fs.view.Gapless d' name' ∧
        ∀ source fs', exec (startRename d name d' name') fs = (.ok (some source), fs') → fs'.view.Gapless d name
    | _ => True

end Op

namespace AlbumFs

variable {v w : View} {A : Names Nat String} {ino : Nat}

theorem endsOn_write_names (h : v.Carries A) (ino : Nat) (offset : UInt64) (data : List UInt8) :
    EndsOn view (write ino offset data) v (fun _ w => w.Carries A) fun _ w => w.Carries A := by
  have hwritten : ∀ w, Written v ino offset data w → w.Carries A := by
    refine fun w hw => ⟨hw.sound, hw.shows h.shows, ?_⟩
    obtain ⟨inode, inode', u, time, -, -, -, -, hwrote, rfl⟩ := hw
    rw [View.sb_setInode, hwrote.grows.sb_eq]
    exact h.few
  refine ((endsOn_write h.sound ino offset data).and (endsOn_write_halted h.sound ino offset data)).mono
    (fun _ w hw => hwritten w hw.1.2) ?_
  rintro _ w ⟨hstopped, hhalted⟩
  rcases hstopped with rfl | hstopped | hw
  · exact h
  · rcases hhalted with rfl | hhalted | hw
    · exact h
    · refine ⟨hstopped.sound, hhalted.shows h.sound h.shows, ?_⟩
      obtain ⟨inode, n, u, i, before, i', -, -, -, -, -, hgrows, -⟩ := hhalted.exists_copy h.sound
      rw [hgrows.sb_eq]
      exact h.few
    · exact hwritten w hw.1
  · exact hwritten w hw

theorem endsOn_truncate_names (h : v.Carries A) (ino : Nat) (newSize : UInt64) :
    EndsOn view (truncate ino newSize) v (fun _ w => w.Carries A) fun _ w => w.Carries A := by
  have htruncated : ∀ w, Truncated v ino newSize w → w.Carries A := by
    refine fun w hw => ⟨hw.sound h.sound, hw.shows h.sound h.shows, ?_⟩
    obtain ⟨inode, inode', u, time, -, -, -, ⟨-, v', hremoved, hgrows, -⟩ | ⟨-, rfl, -⟩, rfl⟩ := hw
    · rw [View.sb_setInode, hgrows.sb_eq, hremoved.shrinks.sb_eq]
      exact h.few
    · exact h.few
  refine (endsOn_truncate h.sound ino newSize).mono (fun _ w hw => htruncated w hw) ?_
  rintro _ w (rfl | hw)
  · exact h
  · exact htruncated w hw

end AlbumFs

/-- Every operation is one on the namespace, whether it succeeds or fails. -/
theorem Op.ends_run_names {fs : AlbumFs Disk} {A : Names Nat String} (hs : fs.view.Sound) (hv : fs.view.Shows A)
    (htidy : A.Tidy 1) (op : Op) (hop : op.Clean fs) :
    Ends op.run fs (fun _ fs' => ∃ B, op.Does A B ∧ fs'.view.Carries B)
      fun _ fs' => ∃ B, op.Leaves A B ∧ fs'.view.Carries B := by
  obtain ⟨hfew, hop⟩ := hop
  have h : fs.view.Carries A := ⟨hs, hv, hfew⟩
  have lift : ∀ {m : FsM Disk Unit}, EndsOn AlbumFs.view m fs.view (fun _ w => ∃ B, op.Does A B ∧ w.Carries B)
      (fun _ w => ∃ B, op.Leaves A B ∧ w.Carries B) →
      Ends m fs (fun _ fs' => ∃ B, op.Does A B ∧ fs'.view.Carries B) fun _ fs' =>
        ∃ B, op.Leaves A B ∧ fs'.view.Carries B := fun hm => hm fs rfl
  cases op with
  | create d name mode =>
    refine lift ((AlbumFs.endsOn_create_names h d name mode).bind (fun ino w hw => endsOn_pure ?_) ?_)
    · exact ⟨_, .create hw.1, hw.2⟩
    · rintro _ w (hw | ⟨ino, hfresh, hw | hw⟩)
      · exact ⟨A, .unchanged _, hw⟩
      · exact ⟨_, .create hfresh, hw⟩
      · exact ⟨_, .done (.create hfresh), hw⟩
  | mkdir d name mode =>
    refine lift ((AlbumFs.endsOn_mkdir_names h htidy d name mode).bind (fun ino w hw => endsOn_pure ?_) ?_)
    · exact ⟨_, .mkdir hw.1, hw.2⟩
    · rintro _ w (hw | ⟨ino, hfresh, hw | hw⟩)
      · exact ⟨A, .unchanged _, hw⟩
      · exact ⟨_, .mkdir hfresh, hw⟩
      · exact ⟨_, .done (.mkdir hfresh), hw⟩
  | write ino offset data =>
    exact lift ((AlbumFs.endsOn_write_names h ino offset data).bind (fun _ w hw => endsOn_pure ⟨A, .write _ _ _, hw⟩)
      fun _ w hw => ⟨A, .unchanged _, hw⟩)
  | truncate ino newSize =>
    exact lift ((AlbumFs.endsOn_truncate_names h ino newSize).mono (fun _ w hw => ⟨A, .truncate _ _, hw⟩)
      fun _ w hw => ⟨A, .unchanged _, hw⟩)
  | unlink d name =>
    refine lift ((AlbumFs.endsOn_unlink_names h htidy hop.1 hop.2).mono ?_ ?_)
    · rintro _ w ⟨l, hl, rfl, hfile, hw⟩
      exact ⟨_, .unlink hl hfile, hw⟩
    · rintro _ w (hw | ⟨l, hl, rfl, hfile, hw⟩)
      · exact ⟨A, .unchanged _, hw⟩
      · exact ⟨_, .done (.unlink hl hfile), hw⟩
  | rmdir d name =>
    refine lift ((AlbumFs.endsOn_rmdir_names h htidy hop.1 hop.2).mono ?_ ?_)
    · rintro _ w ⟨l, hl, rfl, hdir, hempty, hw⟩
      exact ⟨_, .rmdir hl hdir hempty, hw⟩
    · rintro _ w (hw | ⟨l, hl, rfl, hdir, hempty, hw⟩)
      · exact ⟨A, .unchanged _, hw⟩
      · exact ⟨_, .done (.rmdir hl hdir hempty), hw⟩
  | rename d name d' name' =>
    obtain ⟨hproper, hproper', hgap, hgap'⟩ := hop
    refine (AlbumFs.ends_rename_names h htidy hproper hproper' hgap hgap').mono ?_ ?_
    · rintro _ fs' (⟨rfl, rfl, hw⟩ | ⟨l, hl, rfl, hd', hne, B, hB, hw⟩)
      · exact ⟨A, .stay _ _, hw⟩
      · exact ⟨_, .rename hl hd' hne hB, hw⟩
    · rintro _ fs' (hw | ⟨l, hl, rfl, hd', hne, B, hB, hw | hw⟩)
      · exact ⟨A, .unchanged _, hw⟩
      · exact ⟨_, .rename hl hd' hne hB, hw⟩
      · exact ⟨_, .done (.rename hl hd' hne hB), hw⟩

end AlbumFS

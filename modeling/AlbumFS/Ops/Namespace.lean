import AlbumFS.Ops.Directory
import Mathlib.Logic.Relation

/-!
# The operations on names

What `create`, `mkdir`, `unlink`, `rmdir` and `rename` do to the view, when they succeed and when
they fail. An operation is a sequence of editing steps of `AlbumFS.Ops.Directory` and of changes of
single inodes, and it stops at the first step that fails.

## Main definitions

* `FileMade`, `DirMade`: an inode number is taken for a new file or directory.
* `Released`, `Unlinked`, `DirRemoved`: a name and its inode are given up.
* `Moved`, `Renamed`: an entry is moved.

## Main results

* `AlbumFs.endsOn_create`, `AlbumFs.endsOn_mkdir`, `AlbumFs.endsOn_unlink`, `AlbumFs.endsOn_rmdir`,
  `AlbumFs.endsOn_rename`.
-/

namespace AlbumFS

open BlockTree Ownership Prog

namespace View

variable {v : View} {ino : Nat} {inode : Inode}

theorem inodes_of_getattr_error {e : FsError} (h : v.getattr ino = .error e) : v.inodes ino = none := by
  cases hi : v.inodes ino with
  | none => rfl
  | some inode =>
    rw [getattr_of_some hi] at h
    cases h

/-- The block that `scan` finds is a block of the directory, and the edit changes no block before
it. -/
theorem scan_some {edit : Block → Except FsError (Option Block)} {logical n b : Nat} {payload : Block}
    (h : v.scan ino inode edit logical n = .ok (some (b, payload))) :
    ∃ i s, logical ≤ i ∧ i < logical + n ∧ dataSlot ino i = some s ∧
      v.ownWith ino inode s = some b ∧ edit (v.data b) = .ok (some payload) ∧
      ∀ j, logical ≤ j → j < i → ∃ c, v.blockAt ino inode j = .ok (some c) ∧
        edit (v.data c) = .ok none := by
  induction n generalizing logical with
  | zero => simp [scan] at h
  | succ n ih =>
    rw [scan] at h
    cases hb : v.blockAt ino inode logical with
    | error e => simp [hb, bind, Except.bind] at h
    | ok block =>
      cases block with
      | none => simp [hb, bind, Except.bind] at h
      | some c =>
        cases hedit : edit (v.data c) with
        | error e => simp [hb, hedit, bind, Except.bind] at h
        | ok edited =>
          cases edited with
          | some p =>
            simp only [hb, hedit, bind, Except.bind, Except.ok.injEq, Option.some.injEq,
              Prod.mk.injEq] at h
            obtain ⟨rfl, rfl⟩ := h
            unfold blockAt at hb
            split at hb
            · rename_i s hs
              exact ⟨logical, s, Nat.le_refl _, by omega, hs, Except.ok.inj hb, hedit, by omega⟩
            · cases hb
          | none =>
            simp only [hb, hedit, bind, Except.bind] at h
            obtain ⟨i, s, hi, hlt, hs, hown, hp, hbefore⟩ := ih h
            refine ⟨i, s, by omega, by omega, hs, hown, hp, fun j hj hji => ?_⟩
            by_cases hjl : j = logical
            · exact ⟨c, hjl ▸ hb, hedit⟩
            · exact hbefore j (by omega) hji

end View

theorem Inode.mode_ne_zero (inode : Inode) (h : inode.isDir = true) : inode.mode ≠ 0 := by
  intro h0
  rw [Inode.isDir, h0] at h
  exact absurd h (by decide)

namespace AlbumFs

variable {v w : View} {parentIno ino : Nat} {name : String} {fileType : UInt8}

/-! ### The edits keep a view sound -/

theorem Added.sound (h : Added v parentIno ino name fileType w) (hs : v.Sound) : w.Sound := by
  cases h with
  | insert hparent hdir hscan =>
    obtain ⟨i, s, -, -, hslot, hown, -, -⟩ := View.scan_some hscan
    rw [View.ownWith_self hparent] at hown
    exact ((hs.setData hown (isLeaf_of_dataSlot hslot).1 _).mapped hparent).sound
      (Root.pointer_touched _ _) (Inode.mode_ne_zero _ hdir)
  | grow hparent hdir hscan hslot hown hgrows hcontent hput =>
    rename_i parent parent' s b v₁ payload time
    refine (hgrows.mapped.grows_setData hown (isLeaf_of_dataSlot hslot).1 payload).sound_store
      (Root.pointer_grown parent' time) ?_
    rw [Inode.mode_grown]
    exact Inode.mode_ne_zero parent' ((Inode.isDir_eq hgrows.attributes_eq).trans hdir)

theorem AddStopped.sound (h : AddStopped v parentIno ino name fileType w) : w.Sound := by
  obtain ⟨parent, hi, -, -, hstop⟩ := h
  exact hstop.sound hi

theorem Taken.sound (h : Taken v parentIno name w) (hs : v.Sound) : w.Sound := by
  cases h with
  | remove hparent hdir hscan =>
    obtain ⟨i, s, -, -, hslot, hown, -, -⟩ := View.scan_some hscan
    rw [View.ownWith_self hparent] at hown
    exact ((hs.setData hown (isLeaf_of_dataSlot hslot).1 _).mapped hparent).sound
      (Root.pointer_touched _ _) (Inode.mode_ne_zero _ hdir)

/-! ### Creating entries -/

/-- The inode of a new file. -/
def fileInode (mode : UInt32) (time : UInt64) : Inode :=
  { mode := S_IFREG ||| (mode &&& 0o7777), nlink := 1, atime := time, mtime := time, ctime := time }

/-- The inode of a new directory with the block `block`. -/
def dirInode (mode : UInt32) (time : UInt64) (block : Nat) : Inode :=
  { mode := S_IFDIR ||| (mode &&& 0o7777)
    nlink := 2
    size := UB64
    atime := time
    mtime := time
    ctime := time
    blockCount := 1
    direct := Inode.default.direct.set 0 (UInt64.ofNat block) Inode.direct_pos }

/-- Permission bits leave the kind of an inode alone. -/
theorem kind_or_permissions (kind mode : UInt32) :
    (kind ||| (mode &&& 0o7777)) &&& S_IFMT = kind &&& S_IFMT := by
  rw [← UInt32.toNat_inj]
  simp only [UInt32.toNat_and, UInt32.toNat_or, Nat.and_or_distrib_right, Nat.and_assoc]
  rw [show (4095 : UInt32).toNat &&& S_IFMT.toNat = 0 by decide, Nat.and_zero, Nat.or_zero]

@[simp] theorem isDir_fileInode (mode : UInt32) (time : UInt64) :
    (fileInode mode time).isDir = false := by
  rw [Inode.isDir, fileInode, kind_or_permissions]
  decide

theorem mode_fileInode (mode : UInt32) (time : UInt64) : (fileInode mode time).mode ≠ 0 := by
  intro h
  have hkind := kind_or_permissions S_IFREG mode
  rw [show S_IFREG ||| (mode &&& 0o7777) = 0 from h] at hkind
  exact absurd hkind (by decide)

@[simp] theorem isDir_dirInode (mode : UInt32) (time : UInt64) (block : Nat) :
    (dirInode mode time block).isDir = true := by
  rw [Inode.isDir, dirInode, kind_or_permissions]
  decide

theorem pointer_fileInode (mode : UInt32) (time : UInt64) (r : Root) :
    r.pointer (fileInode mode time) = 0 := by
  cases r with
  | direct i =>
    obtain ⟨i, hi⟩ := i
    rw [Root.pointer_direct]
    simp [fileInode]
  | single => rfl
  | double => rfl

/-- An inode with one direct pointer. -/
theorem pointer_of_direct {inode : Inode} {block : Nat}
    (hdirect : inode.direct = Inode.default.direct.set 0 (UInt64.ofNat block) Inode.direct_pos)
    (hsingle : inode.singleIndirect = 0) (hdouble : inode.doubleIndirect = 0) (r : Root) :
    r.pointer inode = if r = .direct 0 then UInt64.ofNat block else 0 := by
  cases r with
  | direct i =>
    obtain ⟨i, hi⟩ := i
    simp only [Root.pointer_direct, hdirect, Inode.default, Vector.getElem_set,
      Vector.getElem_replicate, Root.direct.injEq, Fin.ext_iff, Fin.val_zero, eq_comm]
  | single => exact hsingle
  | double => exact hdouble

theorem pointer_dirInode (mode : UInt32) (time : UInt64) (block : Nat) (r : Root) :
    r.pointer (dirInode mode time block) = if r = .direct 0 then UInt64.ofNat block else 0 :=
  pointer_of_direct rfl rfl rfl r

/-- The state in which `create` adds the entry: the number `ino` was free and has the inode of a new
file. -/
def FileMade (v : View) (parentIno : Nat) (name : String) (mode : UInt32) (ino : Nat) (w : View) :
    Prop :=
  v.lookup parentIno name = .ok none ∧ v.allocInode = .ok ino ∧
    ∃ time, w = v.setInode ino (fileInode mode time)

theorem FileMade.sound {mode : UInt32} (h : FileMade v parentIno name mode ino w) (hs : v.Sound) :
    w.Sound := by
  obtain ⟨-, hino, time, rfl⟩ := h
  exact hs.newFile (View.allocInode_ok hino).2.1 (mode_fileInode mode time) (pointer_fileInode mode time)

/-- A successful `create`. -/
def Created (v : View) (parentIno : Nat) (name : String) (mode : UInt32) (ino : Nat) (w : View) :
    Prop :=
  ∃ u, FileMade v parentIno name mode ino u ∧ Added u parentIno ino name FILE_TYPE_FILE w

/-- The name is not there, and there is an inode number for it. -/
def TakesInode (v : View) (parentIno : Nat) (name : String) : Prop :=
  v.lookup parentIno name = .ok none ∧ ∃ ino, v.ValidIno ino ∧ v.inodes ino = none

/-- What `create` does follows from what adding the entry does. -/
theorem endsOn_create_of (h : v.Sound) {parentIno : Nat} {name : String} {mode : UInt32}
    {Q : Nat → View → Prop} {E : View → Prop}
    (hadd : ∀ ino u, FileMade v parentIno name mode ino u →
      EndsOn view (addDirEntry parentIno ino name FILE_TYPE_FILE) u
        (fun _ w => w.Geometry ∧ Q ino w) fun _ w => E w) :
    EndsOn view (create parentIno name mode) v Q fun _ w =>
      w = v ∧ ¬TakesInode v parentIno name ∨ E w ∨ ∃ ino, Q ino w := by
  refine (reads_lookup h parentIno name).bind_endsOn_except (fun found hfound => ?_)
    fun e he => .inl ⟨rfl, fun htakes => ?_⟩
  swap
  · rw [htakes.1] at he
    cases he
  cases found with
  | some _ =>
    refine endsOn_throw (.inl ⟨rfl, fun htakes => ?_⟩)
    rw [htakes.1] at hfound
    cases hfound
  | none =>
    refine (reads_allocInode h.geometry).bind_endsOn_except (fun ino hino => ?_)
      fun e he => .inl ⟨rfl, fun ⟨_, ino, hvalid, hnone⟩ => (View.allocInode_error he).2 ino hvalid hnone⟩
    refine endsOn_bind (endsOn_now fun time => ?_)
    refine endsOn_bind (@endsOn_writeInode _ _ (fileInode mode time) h.geometry
      (View.allocInode_ok hino).1 _ _ ?_)
    refine (hadd ino _ ⟨hfound, hino, time, rfl⟩).bind ?_ fun _ _ he => .inr (.inl he)
    rintro _ w ⟨hg, hw⟩
    exact endsOn_bind (endsOn_sync hg (endsOn_pure hw) fun _ => .inr (.inr ⟨ino, hw⟩))

theorem endsOn_create (h : v.Sound) (parentIno : Nat) (name : String) (mode : UInt32) :
    EndsOn view (create parentIno name mode) v
      (fun ino w => Created v parentIno name mode ino w)
      fun _ w => w = v ∨ ∃ ino u, FileMade v parentIno name mode ino u ∧
        (w = u ∨ AddStopped u parentIno ino name FILE_TYPE_FILE w ∨
          Added u parentIno ino name FILE_TYPE_FILE w) := by
  refine (endsOn_create_of h (E := fun w => ∃ ino u, FileMade v parentIno name mode ino u ∧
    (w = u ∨ AddStopped u parentIno ino name FILE_TYPE_FILE w)) fun ino u hmade => ?_).mono
    (fun _ _ hw => hw) ?_
  · refine (endsOn_addDirEntry (hmade.sound h) parentIno ino name FILE_TYPE_FILE).mono ?_
      fun _ w hw => ⟨ino, u, hmade, hw⟩
    exact fun _ w hadd => ⟨(hadd.sound (hmade.sound h)).geometry, u, hmade, hadd⟩
  · rintro _ w (⟨rfl, -⟩ | ⟨ino, u, hmade, hw⟩ | ⟨ino, u, hmade, hadd⟩)
    · exact .inl rfl
    · exact .inr ⟨ino, u, hmade, hw.imp_right .inl⟩
    · exact .inr ⟨ino, u, hmade, .inr (.inr hadd)⟩

/-- The state in which `mkdir` adds the entry: the number `ino` was free and has the inode of a new
directory with one block. -/
def DirMade (v : View) (parentIno : Nat) (name : String) (mode : UInt32) (ino : Nat) (time : UInt64)
    (w : View) : Prop :=
  v.lookup parentIno name = .ok none ∧ v.allocInode = .ok ino ∧
    ∃ block payload, v.InData block ∧ v.bitmap.isSet block = false ∧
      initialDirectoryBlock (UInt64.ofNat ino) (UInt64.ofNat parentIno) = .ok payload ∧
      w = ((v.setBitmap (v.bitmap.set block)).setData block payload).setInode ino
        (dirInode mode time block)

theorem DirMade.sound {mode : UInt32} {time : UInt64}
    (h : DirMade v parentIno name mode ino time w) (hs : v.Sound) : w.Sound := by
  obtain ⟨-, hino, block, payload, hin, hfree, -, rfl⟩ := h
  exact (hs.newDirectory (View.allocInode_ok hino).2.1 hin hfree (pointer_dirInode mode time block)
    (Inode.mode_ne_zero _ (isDir_dirInode mode time block)) payload).1

/-- A successful `mkdir`. -/
def DirCreated (v : View) (parentIno : Nat) (name : String) (mode : UInt32) (ino : Nat) (w : View) :
    Prop :=
  ∃ time u u' parent, DirMade v parentIno name mode ino time u ∧
    Added u parentIno ino name FILE_TYPE_DIR u' ∧ u'.inodes parentIno = some parent ∧
    w = u'.setInode parentIno { parent with nlink := parent.nlink + 1, mtime := time, ctime := time }

theorem initialDirectoryBlock_eq_ok (ino parent : UInt64) :
    ∃ block, initialDirectoryBlock ino parent = .ok block := by
  have hdot : nameLen "." = 1 := by decide
  have hdotdot : nameLen ".." = 2 := by decide
  have hone : DirEntry.requiredLen 1 = 16 := by decide
  have htwo : DirEntry.requiredLen 2 = 16 := by decide
  obtain ⟨block, hblock⟩ := putRecord_eq_ok Block.zero 0 (DirEntry.requiredLen 1)
    (show nameLen "." ≤ 255 by omega) (by rw [hdot]) (by rw [hone, UB_eq]; omega) ino FILE_TYPE_DIR
  obtain ⟨block', hblock'⟩ := putRecord_eq_ok block (DirEntry.requiredLen 1)
    (UB - DirEntry.requiredLen 1) (show nameLen ".." ≤ 255 by omega)
    (by rw [hdotdot, hone, htwo, UB_eq]; omega) (by rw [hone, UB_eq]) parent FILE_TYPE_DIR
  refine ⟨block', ?_⟩
  unfold initialDirectoryBlock
  simp only [bind, Except.bind, hblock, hblock']

/-- What `mkdir` does follows from what adding the entry does. It fails after that when the parent is gone. -/
theorem endsOn_mkdir_steps (h : v.Sound) {parentIno : Nat} {name : String} {mode : UInt32}
    {Q : Nat → View → Prop} {E : View → Prop}
    (hadd : ∀ ino time u, DirMade v parentIno name mode ino time u →
      EndsOn view (addDirEntry parentIno ino name FILE_TYPE_DIR) u
        (fun _ w => w.Geometry ∧ (w.inodes parentIno = none → E w) ∧ ∀ parent, w.inodes parentIno = some parent →
          Q ino (w.setInode parentIno
            { parent with nlink := parent.nlink + 1, mtime := time, ctime := time }))
        fun _ w => E w) :
    EndsOn view (mkdir parentIno name mode) v Q fun _ w =>
      w = v ∧ ¬(TakesInode v parentIno name ∧ ∃ b, v.InData b ∧ v.bitmap.isSet b = false) ∨ E w ∨
        ∃ ino, Q ino w := by
  refine (reads_lookup h parentIno name).bind_endsOn_except (fun found hfound => ?_)
    fun e he => .inl ⟨rfl, fun htakes => ?_⟩
  swap
  · rw [htakes.1.1] at he
    cases he
  cases found with
  | some _ =>
    refine endsOn_throw (.inl ⟨rfl, fun htakes => ?_⟩)
    rw [htakes.1.1] at hfound
    cases hfound
  | none =>
    obtain ⟨stored, hstored, hsdir⟩ := View.parent_of_lookup hfound
    refine (reads_getattr h.geometry parentIno).bind_endsOn_except (fun parent hparent => ?_)
      fun e he => ?_
    swap
    · rw [View.getattr_of_some hstored] at he
      cases he
    obtain rfl : stored = parent := by
      rw [View.getattr_of_some hstored] at hparent
      exact Except.ok.inj hparent
    simp only [hsdir, Bool.not_true, Bool.false_eq_true, if_false]
    refine (reads_allocInode h.geometry).bind_endsOn_except (fun ino hino => ?_) fun e he =>
      .inl ⟨rfl, fun ⟨⟨_, ino, hvalid, hnone⟩, _⟩ => (View.allocInode_error he).2 ino hvalid hnone⟩
    refine endsOn_bind (endsOn_allocateBlock h.geometry (fun block hin hfree => ?_) fun hall =>
      .inl ⟨rfl, fun ⟨_, b, hb, hset⟩ => Bool.false_ne_true (hset.symm.trans (hall b hb))⟩)
    obtain ⟨payload, hpayload⟩ :=
      initialDirectoryBlock_eq_ok (UInt64.ofNat ino) (UInt64.ofNat parentIno)
    have hg : (v.setBitmap (v.bitmap.set block)).Geometry :=
      h.geometry.setBitmap (Bitmap.totalBlocks_set _ _)
    refine (reads_ofExcept_ok hpayload).bind_endsOn
      (endsOn_bind (endsOn_writeBlock_bytes (hg.setData _ _) hin (endsOn_bind (endsOn_now fun time => ?_))))
    have hidem : ((v.setBitmap (v.bitmap.set block)).setData block Block.zero).setData block payload =
        (v.setBitmap (v.bitmap.set block)).setData block payload := by
      simp [View.setData]
    rw [hidem]
    refine endsOn_bind (@endsOn_writeInode _ _ (dirInode mode time block) (hg.setData _ _)
      (View.allocInode_ok hino).1 _ _ ?_)
    refine (hadd ino time _ ⟨hfound, hino, block, payload, hin, hfree, hpayload, rfl⟩).bind ?_
      fun _ _ he => .inr (.inl he)
    rintro _ w ⟨hgw, he, hw⟩
    refine (reads_getattr hgw parentIno).bind_endsOn_except (fun parent' hparent' => ?_)
      fun _ hgone => .inr (.inl (he (View.inodes_of_getattr_error hgone)))
    have hi' := View.inodes_of_getattr hparent'
    refine endsOn_of_live fun hlive => endsOn_bind (endsOn_writeInode hgw (hlive _ _ hi').1 ?_)
    exact endsOn_bind (endsOn_sync (hgw.setInode _ _) (endsOn_pure (hw parent' hi'))
      fun _ => .inr (.inr ⟨ino, hw parent' hi'⟩))

/-- What `mkdir` does follows from what adding the entry does. -/
theorem endsOn_mkdir_of (h : v.Sound) {parentIno : Nat} {name : String} {mode : UInt32}
    {Q : Nat → View → Prop} {E : View → Prop}
    (hadd : ∀ ino time u, DirMade v parentIno name mode ino time u →
      EndsOn view (addDirEntry parentIno ino name FILE_TYPE_DIR) u
        (fun _ w => w.Geometry ∧ E w ∧ ∀ parent, w.inodes parentIno = some parent →
          Q ino (w.setInode parentIno
            { parent with nlink := parent.nlink + 1, mtime := time, ctime := time }))
        fun _ w => E w) :
    EndsOn view (mkdir parentIno name mode) v Q fun _ w =>
      w = v ∧ ¬(TakesInode v parentIno name ∧ ∃ b, v.InData b ∧ v.bitmap.isSet b = false) ∨ E w ∨
        ∃ ino, Q ino w :=
  endsOn_mkdir_steps h fun ino time u hmade => (hadd ino time u hmade).mono
    (fun _ _ hw => ⟨hw.1, fun _ => hw.2.1, hw.2.2⟩) fun _ _ hw => hw

theorem endsOn_mkdir (h : v.Sound) (parentIno : Nat) (name : String) (mode : UInt32) :
    EndsOn view (mkdir parentIno name mode) v
      (fun ino w => DirCreated v parentIno name mode ino w)
      fun _ w => w = v ∨ (∃ ino, DirCreated v parentIno name mode ino w) ∨
        ∃ ino time u, DirMade v parentIno name mode ino time u ∧
          (w = u ∨ AddStopped u parentIno ino name FILE_TYPE_DIR w ∨
            Added u parentIno ino name FILE_TYPE_DIR w) := by
  refine (endsOn_mkdir_of h (E := fun w => ∃ ino time u, DirMade v parentIno name mode ino time u ∧
    (w = u ∨ AddStopped u parentIno ino name FILE_TYPE_DIR w ∨
      Added u parentIno ino name FILE_TYPE_DIR w)) fun ino time u hmade => ?_).mono
    (fun _ _ hw => hw) fun _ w hw => hw.imp And.left Or.symm
  refine (endsOn_addDirEntry (hmade.sound h) parentIno ino name FILE_TYPE_DIR).mono ?_
    fun _ w hw => ⟨ino, time, u, hmade, hw.imp_right .inl⟩
  exact fun _ w hadd => ⟨(hadd.sound (hmade.sound h)).geometry,
    ⟨ino, time, u, hmade, .inr (.inr hadd)⟩, fun parent hparent => ⟨time, u, w, parent, hmade, hadd, hparent, rfl⟩⟩

/-! ### Steps -/

/-- All blocks of the inode up to its size are released and the inode is freed. -/
def Dropped (v : View) (ino : Nat) (inode : Inode) (w : View) : Prop :=
  ∃ v' inode', RemovedRange ino 0 (divCeil inode.size.toNat UB) v inode v' inode' ∧
    w = v'.setInode ino Inode.default

/-- The steps that the operations on names are made of. -/
inductive Step : View → View → Prop
  | fileMade {v w : View} {parentIno ino : Nat} {name : String} {mode : UInt32}
      (h : FileMade v parentIno name mode ino w) : Step v w
  | dirMade {v w : View} {parentIno ino : Nat} {name : String} {mode : UInt32} {time : UInt64}
      (h : DirMade v parentIno name mode ino time w) : Step v w
  | added {v w : View} {parentIno ino : Nat} {name : String} {fileType : UInt8}
      (h : Added v parentIno ino name fileType w) : Step v w
  | taken {v w : View} {parentIno : Nat} {name : String} (h : Taken v parentIno name w) : Step v w
  | dotdot {v : View} {ino b : Nat} {inode : Inode} (hi : v.inodes ino = some inode)
      (hdir : inode.isDir = true) (hown : v.own (Slot.direct ino 0) = some b) (payload : Block) :
      Step v (v.setData b payload)
  | attributes {v : View} {ino : Nat} {inode inode' : Inode} (hi : v.inodes ino = some inode)
      (hsame : inode'.SameMap inode) (hmode : inode.mode ≠ 0) : Step v (v.setInode ino inode')
  | dropped {v w : View} {ino : Nat} {inode inode' : Inode} (hi : v.inodes ino = some inode)
      (hsame : inode'.SameMap inode) (h : Dropped v ino inode' w) : Step v w

/-- No step cross-links a block. -/
theorem Step.sound (h : Step v w) (hs : v.Sound) : w.Sound := by
  cases h with
  | fileMade h => exact h.sound hs
  | dirMade h => exact h.sound hs
  | added h => exact h.sound hs
  | taken h => exact h.sound hs
  | dotdot hi hdir hown payload => exact hs.setData hown rfl payload
  | attributes hi hsame hmode =>
    exact (hs.mapped hi).sound hsame.pointer_eq (hsame.mode_eq ▸ hmode)
  | dropped hi hsame h =>
    obtain ⟨v', inode', hr, rfl⟩ := h
    exact hr.shrinks.sound_free (hs.mapped_congr hi hsame.pointer_eq)

/-- A sequence of steps. -/
abbrev Steps : View → View → Prop := Relation.ReflTransGen Step

theorem Steps.sound (h : Steps v w) (hs : v.Sound) : w.Sound := by
  induction h with
  | refl => exact hs
  | tail _ hstep ih => exact hstep.sound ih

/-! ### Removing entries -/

theorem endsOn_freeAllBlocks {inode : Inode} (h : Mapped v ino inode) {Q : Inode → View → Prop}
    {E : FsError → View → Prop}
    (hQ : ∀ i w, RemovedRange ino 0 (divCeil inode.size.toNat UB) v inode w i →
      Q { i with size := 0 } w) : EndsOn view (freeAllBlocks inode) v Q E :=
  (endsOn_removeMappedBlocks h 0 _).bind (fun i w hw => endsOn_pure (hQ i w hw)) fun _ _ hf => hf.elim

theorem Taken.inodes_eq (h : Taken v parentIno name w) :
    ∃ parent time, v.inodes parentIno = some parent ∧ parent.isDir = true ∧
      w.inodes = Function.update v.inodes parentIno (some (parent.touched time)) := by
  cases h with
  | remove hparent hdir hscan =>
    rename_i parent b payload time
    refine ⟨parent, time, hparent, hdir, ?_⟩
    have hmode : (parent.touched time).mode ≠ 0 := Inode.mode_ne_zero parent hdir
    rw [View.inodes_setInode, Inode.live_of_ne hmode, View.inodes_setData]

/-- Removing an entry leaves the other inodes alone, and the pointers of the directory. -/
theorem Taken.inode_eq {inode : Inode} (h : Taken v parentIno name w)
    (hi : v.inodes ino = some inode) :
    ∃ inode', w.inodes ino = some inode' ∧ inode'.SameMap inode := by
  obtain ⟨parent, time, hparent, -, hw⟩ := h.inodes_eq
  rw [hw]
  by_cases hino : ino = parentIno
  · subst hino
    rw [hparent, Option.some.injEq] at hi
    exact ⟨_, Function.update_self _ _ _, hi ▸ parent.sameMap_touched time⟩
  · exact ⟨inode, by rw [Function.update_of_ne hino, hi], .refl _⟩

/-- A successful `unlink` of the inode `ino`, `u` being the state without the entry. -/
structure Unlinked (v : View) (parentIno : Nat) (name : String) (ino : Nat) (inode : Inode)
    (u w : View) : Prop where
  lookup_eq : v.lookup parentIno name = .ok (some ino)
  inode_eq : v.inodes ino = some inode
  isDir_eq : inode.isDir = false
  mode_ne : inode.mode ≠ 0
  taken : Taken v parentIno name u
  outcome : (saturatingPred inode.nlink = 0 ∧
      Dropped u ino { inode with nlink := saturatingPred inode.nlink } w) ∨
    (saturatingPred inode.nlink ≠ 0 ∧ ∃ time, w = u.setInode ino
      { inode with nlink := saturatingPred inode.nlink, ctime := time })

theorem endsOn_unlink (h : v.Sound) (parentIno : Nat) (name : String) :
    EndsOn view (unlink parentIno name) v
      (fun _ w => ∃ ino inode u, Unlinked v parentIno name ino inode u w)
      fun _ w => w = v ∨ ∃ ino inode u, Unlinked v parentIno name ino inode u w := by
  refine (reads_lookup h parentIno name).bind_endsOn_except (fun found hfound => ?_) fun _ _ => .inl rfl
  cases found with
  | none => exact endsOn_throw (.inl rfl)
  | some ino =>
    refine (reads_getattr h.geometry ino).bind_endsOn_except (fun inode hinode => ?_) fun _ _ => .inl rfl
    have hi := View.inodes_of_getattr hinode
    by_cases hdir : inode.isDir = true
    · rw [if_pos hdir]
      exact endsOn_throw (.inl rfl)
    · rw [if_neg hdir]
      refine (endsOn_removeDirEntry h parentIno name).bind (fun _ u hu => ?_) fun _ _ he => .inl he
      have hdir' : inode.isDir = false := by simpa using hdir
      have hsound := hu.sound h
      have hui : u.inodes ino = some inode := by
        obtain ⟨parent, time, hparent, hpdir, hu'⟩ := hu.inodes_eq
        rw [hu', Function.update_of_ne, hi]
        rintro rfl
        rw [hi, Option.some.injEq] at hparent
        rw [hparent, hpdir] at hdir'
        cases hdir'
      refine endsOn_of_live fun hlive => ?_
      obtain ⟨hvalid, hmode⟩ := hlive ino inode hui
      by_cases hlink : saturatingPred inode.nlink = 0
      · simp only [hlink, if_true]
        have hm : Mapped u ino { inode with nlink := 0 } :=
          hsound.mapped_congr hui fun r => by cases r <;> rfl
        refine endsOn_bind (endsOn_freeAllBlocks hm fun i w hr => ?_)
        have hdone : Unlinked v parentIno name ino inode u (w.setInode ino Inode.default) :=
          ⟨hfound, hi, hdir', hmode, hu, .inl ⟨hlink, w, i, by rw [hlink]; exact hr, rfl⟩⟩
        have hvalid' : w.ValidIno ino := by
          rw [View.ValidIno, hr.shrinks.sb_eq]
          exact hvalid
        exact endsOn_bind (endsOn_freeInode hr.shrinks.geometry hvalid'
          (endsOn_sync (hr.shrinks.geometry.setInode _ _) ⟨_, _, _, hdone⟩
            fun _ => .inr ⟨_, _, _, hdone⟩))
      · simp only [hlink, if_false]
        refine endsOn_bind (endsOn_now fun time => endsOn_bind (endsOn_writeInode hsound.geometry hvalid ?_))
        have hdone : Unlinked v parentIno name ino inode u (u.setInode ino
            { inode with nlink := saturatingPred inode.nlink, ctime := time }) :=
          ⟨hfound, hi, hdir', hmode, hu, .inr ⟨hlink, time, rfl⟩⟩
        exact endsOn_sync (hsound.geometry.setInode _ _) ⟨_, _, _, hdone⟩
          fun _ => .inr ⟨_, _, _, hdone⟩

/-- A successful `rmdir` of the inode `ino`, before the parent is updated. -/
structure DirDropped (v : View) (parentIno : Nat) (name : String) (ino : Nat) (inode : Inode)
    (u w : View) : Prop where
  lookup_eq : v.lookup parentIno name = .ok (some ino)
  inode_eq : v.inodes ino = some inode
  isDir_eq : inode.isDir = true
  empty : ∃ entries, v.readdir ino = .ok entries ∧ ∀ entry ∈ entries, entry.2.1 = "." ∨ entry.2.1 = ".."
  taken : Taken v parentIno name u
  dropped : Dropped u ino inode w

/-- A successful `rmdir`. -/
def DirRemoved (v : View) (parentIno : Nat) (name : String) (ino : Nat) (inode : Inode) (w : View) :
    Prop :=
  ∃ u u' parent time, DirDropped v parentIno name ino inode u u' ∧
    u'.inodes parentIno = some parent ∧
    w = u'.setInode parentIno
      { parent with nlink := saturatingPred parent.nlink, mtime := time, ctime := time }

/-- What `rmdir` leaves behind when it fails. The last case is a failed flush, the one before it the
removal of a directory from itself. -/
def RmdirFailed (v : View) (parentIno : Nat) (name : String) (w : View) : Prop :=
  w = v ∨ (∃ ino inode u, DirDropped v parentIno name ino inode u w ∧ w.inodes parentIno = none) ∨
    ∃ ino inode, DirRemoved v parentIno name ino inode w

theorem endsOn_rmdir (h : v.Sound) (parentIno : Nat) (name : String) :
    EndsOn view (rmdir parentIno name) v
      (fun _ w => ∃ ino inode, DirRemoved v parentIno name ino inode w)
      fun _ w => RmdirFailed v parentIno name w := by
  refine (reads_lookup h parentIno name).bind_endsOn_except (fun found hfound => ?_) fun _ _ => .inl rfl
  cases found with
  | none => exact endsOn_throw (.inl rfl)
  | some ino =>
    refine (reads_getattr h.geometry ino).bind_endsOn_except (fun inode hinode => ?_) fun _ _ => .inl rfl
    have hi := View.inodes_of_getattr hinode
    by_cases hdir : inode.isDir = true
    · simp only [hdir, Bool.not_true, Bool.false_eq_true, if_false]
      refine (reads_readdir h ino).bind_endsOn_except (fun entries hentries => ?_) fun _ _ => .inl rfl
      split_ifs with hany
      · exact endsOn_throw (.inl rfl)
      · have hempty : ∀ entry ∈ entries, entry.2.1 = "." ∨ entry.2.1 = ".." := by
          intro entry hentry
          by_contra hne
          refine hany (List.any_eq_true.2 ⟨entry, hentry, ?_⟩)
          simpa [not_or] using hne
        refine (endsOn_removeDirEntry h parentIno name).bind (fun _ u hu => ?_) fun _ _ he => .inl he
        have hsound := hu.sound h
        obtain ⟨inode', hui, hsame⟩ := hu.inode_eq hi
        have hm : Mapped u ino inode := hsound.mapped_congr hui hsame.symm.pointer_eq
        refine endsOn_of_live fun hlive => endsOn_bind (endsOn_freeAllBlocks hm fun i w hr => ?_)
        have hvalid : ∀ j i, u.inodes j = some i → w.ValidIno j := by
          intro j i hj
          rw [View.ValidIno, hr.shrinks.sb_eq]
          exact (hlive j i hj).1
        have hdropped : DirDropped v parentIno name ino inode u (w.setInode ino Inode.default) :=
          ⟨hfound, hi, hdir, ⟨entries, hentries, hempty⟩, hu, w, i, hr, rfl⟩
        have hg : (w.setInode ino Inode.default).Geometry := hr.shrinks.geometry.setInode _ _
        refine endsOn_bind (endsOn_freeInode hr.shrinks.geometry (hvalid ino inode' hui) ?_)
        refine (reads_getattr hg parentIno).bind_endsOn_except (fun parent hparent => ?_)
          fun e he => .inr (.inl ⟨ino, inode, u, hdropped, ?_⟩)
        · have hpi := View.inodes_of_getattr hparent
          refine endsOn_bind (endsOn_now fun time => endsOn_of_live fun hlive' =>
            endsOn_bind (endsOn_writeInode hg (hlive' parentIno parent hpi).1 ?_))
          have hdone : DirRemoved v parentIno name ino inode ((w.setInode ino Inode.default).setInode
              parentIno { parent with nlink := saturatingPred parent.nlink, mtime := time, ctime := time }) :=
            ⟨u, _, parent, time, hdropped, hpi, rfl⟩
          exact endsOn_sync (hg.setInode _ _) ⟨ino, inode, hdone⟩ fun _ => .inr (.inr ⟨ino, inode, hdone⟩)
        · cases hnone : (w.setInode ino Inode.default).inodes parentIno with
          | none => rfl
          | some i =>
            rw [View.getattr_of_some hnone] at he
            cases he
    · simp only [hdir, Bool.not_false, if_true]
      exact endsOn_throw (.inl rfl)

end AlbumFs

end AlbumFS

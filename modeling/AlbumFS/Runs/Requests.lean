import AlbumFS.Runs.Namespace

/-!
# Runs of client requests

Clients send requests, and each request runs at most one operation that changes the file system, followed by at
most one change of the attributes of an inode. So an invariant that the operations keep and that does not depend on
attributes holds after every run of requests.

## Main definitions

* `Request`, `Request.serve`: the requests and their handlers.
* `Request.op`: the operation that a request runs.
* `Served`: the file systems that requests reach.

## Main results

* `Request.performs`: a request does nothing but its operation and a change of attributes.
* `Served.invariant`: the invariants of runs of requests.
-/

namespace AlbumFS

open Prog

/-- The requests of clients. -/
inductive Request where
  | lookup (parent : Nat) (name : List UInt8)
  | getattr (ino : Nat)
  | setattr (ino : Nat) (size : Option UInt64) (attributes : Attributes)
  | read (ino : Nat) (offset : Int64) (size : UInt32)
  | write (ino : Nat) (offset : Int64) (data : List UInt8)
  | create (uid gid : UInt32) (parent : Nat) (name : List UInt8) (mode umask : UInt32)
  | mkdir (uid gid : UInt32) (parent : Nat) (name : List UInt8) (mode umask : UInt32)
  | unlink (parent : Nat) (name : List UInt8)
  | rmdir (parent : Nat) (name : List UInt8)
  | rename (parent : Nat) (name : List UInt8) (newParent : Nat) (newName : List UInt8) (flags : UInt32)
  | readdir (ino : Nat) (offset : Int) (capacity : Nat)
  | flush (ino : Nat)
  | release (ino : Nat)
  | releasedir (ino : Nat)
  | fsync (ino : Nat)
  | fsyncdir (ino : Nat)
  | statfs (ino : Nat)

namespace Request

/-- The handler of a request, without its reply. -/
def serve {σ : Type} [BlockDevice σ] : Request → FuseM σ Unit
  | lookup parent name => do let _ ← FuseAlbumFs.lookup parent name
  | getattr ino => do let _ ← FuseAlbumFs.getattr ino
  | setattr ino size attributes => do let _ ← FuseAlbumFs.setattr ino size attributes
  | read ino offset size => do let _ ← FuseAlbumFs.read ino offset size
  | write ino offset data => do let _ ← FuseAlbumFs.write ino offset data
  | create uid gid parent name mode umask => do let _ ← FuseAlbumFs.create uid gid parent name mode umask
  | mkdir uid gid parent name mode umask => do let _ ← FuseAlbumFs.mkdir uid gid parent name mode umask
  | unlink parent name => FuseAlbumFs.unlink parent name
  | rmdir parent name => FuseAlbumFs.rmdir parent name
  | rename parent name newParent newName flags => FuseAlbumFs.rename parent name newParent newName flags
  | readdir ino offset capacity => do let _ ← FuseAlbumFs.readdir ino offset capacity
  | flush ino => FuseAlbumFs.flush ino
  | release ino => FuseAlbumFs.release ino
  | releasedir ino => FuseAlbumFs.releasedir ino
  | fsync ino => FuseAlbumFs.fsync ino
  | fsyncdir ino => FuseAlbumFs.fsyncdir ino
  | statfs ino => do let _ ← FuseAlbumFs.statfs ino

/-- The operation that a request runs. Requests with a name that is no text, with a negative offset or with flags
are turned away before. -/
def op : Request → Option Op
  | setattr ino size _ => size.map (Op.truncate ino)
  | write ino offset data => if offset < 0 then none else some (.write ino offset.toUInt64 data)
  | create _ _ parent name mode umask => (fromUtf8 name).map fun name => .create parent name (mode &&& ~~~umask)
  | mkdir _ _ parent name mode umask => (fromUtf8 name).map fun name => .mkdir parent name (mode &&& ~~~umask)
  | unlink parent name => (fromUtf8 name).map (Op.unlink parent)
  | rmdir parent name => (fromUtf8 name).map (Op.rmdir parent)
  | rename parent name newParent newName flags =>
    if flags ≠ 0 then none
    else (fromUtf8 name).bind fun name => (fromUtf8 newName).map fun newName => .rename parent name newParent newName
  | _ => none

end Request

/-- Attributes of an inode other than its size, its kind and its links may have changed. -/
inductive Attributed (v : View) : View → Prop
  | refl : Attributed v v
  | set {ino : Nat} {inode inode' : Inode} (hi : v.inodes ino = some inode)
      (hpointer : ∀ r : Root, r.pointer inode' = r.pointer inode) (hsize : inode'.size = inode.size)
      (hnlink : inode'.nlink = inode.nlink) (hkind : inode'.mode &&& S_IFMT = inode.mode &&& S_IFMT) :
      Attributed v (v.setInode ino inode')

/-! ### What a handler does -/

section Handlers

variable {α β : Type} {v : View}

/-- The handler runs the operation if at all, and may change attributes after that. -/
def Performs (op : Option Op) (m : FuseM Disk α) : Prop :=
  ∀ fs : AlbumFs Disk, fs.view.Sound → ∃ fs₁ : AlbumFs Disk,
    (fs₁ = fs ∨ ∃ o ∈ op, fs₁ = (exec o.run fs).2) ∧ Attributed fs₁.view (exec m fs).2.view

theorem Performs.of_attributed {op : Option Op} {m : FuseM Disk α}
    (h : ∀ v : View, v.Sound → EndsOn AlbumFs.view m v (fun _ w => Attributed v w) fun _ w => Attributed v w) :
    Performs op m := fun fs hs => ⟨fs, .inl rfl, (h fs.view hs fs rfl).state (P := fun ft : AlbumFs Disk => Attributed fs.view ft.view)⟩

/-- The handler reads. -/
theorem Performs.of_reads {op : Option Op} {m : FuseM Disk α}
    (h : ∀ v : View, v.Sound → EndsOn AlbumFs.view m v (fun _ w => w = v) fun _ w => w = v) : Performs op m :=
  .of_attributed fun v hs => (h v hs).mono (fun _ w hw => by rw [hw]; exact .refl) fun _ w hw => by rw [hw]; exact .refl

/-- The reply has no part in it. -/
theorem Performs.drop {op : Option Op} {m : FuseM Disk α} (h : Performs op m) :
    Performs op (m >>= fun _ => pure () : FuseM Disk Unit) := by
  intro fs hs
  obtain ⟨fs₁, hfs₁, hattributed⟩ := h fs hs
  refine ⟨fs₁, hfs₁, ?_⟩
  rw [exec_bind]
  rcases hm : exec m fs with ⟨_ | _, _⟩ <;> rw [hm] at hattributed <;> exact hattributed

/-- The handler runs an operation first. -/
theorem Performs.of_op {o : Op} {m : FsM Disk α} (hrun : o.run = (do let _ ← m : FsM Disk Unit))
    {f : α → FuseM Disk β}
    (hf : ∀ a, ∀ v : View, v.Sound → EndsOn AlbumFs.view (f a) v (fun _ w => Attributed v w) fun _ w => Attributed v w) :
    Performs (some o) (FuseAlbumFs.run m >>= f) := by
  intro fs hs
  have hstate : (exec o.run fs).2 = (exec m fs).2 := by
    rw [hrun, exec_bind]
    rcases exec m fs with ⟨_ | _, _⟩ <;> rfl
  have hsound := o.sound_run hs
  refine ⟨_, .inr ⟨o, rfl, rfl⟩, ?_⟩
  have hexec : exec (FuseAlbumFs.run m) fs = ((exec m fs).1.mapError errnoFor, (exec m fs).2) := rfl
  rw [exec_bind, hexec]
  rw [hstate] at hsound ⊢
  rcases hm : exec m fs with ⟨_ | a, t⟩
  · exact .refl
  · rw [hm] at hsound
    exact ((hf a t.view hsound) t rfl).state (P := fun ft : AlbumFs Disk => Attributed t.view ft.view)

/-- The handler runs an operation alone. -/
theorem Performs.of_run {o : Op} : Performs (some o) (FuseAlbumFs.run o.run) := fun fs _ =>
  ⟨(exec o.run fs).2, .inr ⟨o, rfl, rfl⟩, .refl⟩

/-- The name is read first. -/
theorem Performs.of_name (name : List UInt8) {f : String → FuseM Disk α} {g : String → Option Op}
    (h : ∀ s, Performs (g s) (f s)) : Performs ((fromUtf8 name).bind g) (FuseAlbumFs.toStr name >>= f) := by
  intro fs hs
  rw [exec_bind, FuseAlbumFs.toStr]
  cases hname : fromUtf8 name with
  | none => exact ⟨fs, .inl rfl, .refl⟩
  | some s => exact h s fs hs

theorem endsOn_setAttributes (hs : v.Sound) (ino : Nat) (attributes : Attributes) :
    EndsOn AlbumFs.view (FuseAlbumFs.setAttributes ino attributes) v (fun _ w => Attributed v w)
      fun _ w => Attributed v w := by
  have hset : ∀ inode inode' : Inode, v.inodes ino = some inode →
      (∀ r : Root, r.pointer inode' = r.pointer inode) → inode'.size = inode.size → inode'.nlink = inode.nlink →
      (inode'.mode = attributes.mode.elim inode.mode fun mode => inode.mode &&& S_IFMT ||| (mode &&& 0o7777)) →
      Attributed v (v.setInode ino inode') := by
    intro inode inode' hi hpointer hsize hnlink hmode
    refine .set hi hpointer hsize hnlink ?_
    cases hm : attributes.mode with
    | none =>
      rw [hm] at hmode
      rw [hmode]
      rfl
    | some mode =>
      rw [hm] at hmode
      rw [hmode, Option.elim_some, AlbumFs.kind_or_permissions, UInt32.and_assoc, UInt32.and_self]
  refine (FuseAlbumFs.endsOn_setAttributes hs ino attributes).mono ?_ ?_
  · rintro inode' w ⟨inode, hi, rfl, hpointer, hsize, hnlink, hmode⟩
    exact hset inode inode' hi hpointer hsize hnlink hmode
  · rintro _ w (rfl | ⟨inode, inode', hi, rfl, hpointer, hsize, hnlink, hmode⟩)
    · exact .refl
    · exact hset inode inode' hi hpointer hsize hnlink hmode

theorem endsOn_setOwner (hs : v.Sound) (ino : Nat) (uid gid : UInt32) :
    EndsOn AlbumFs.view (FuseAlbumFs.setOwner ino uid gid) v (fun _ w => Attributed v w)
      fun _ w => Attributed v w := by
  refine (AlbumFs.reads_getattr hs.geometry ino).bind_endsOn_except (fun inode hinode => ?_) fun _ _ => .refl
  have hi := View.inodes_of_getattr hinode
  have hset : Attributed v (v.setInode ino { inode with uid, gid }) :=
    .set hi (fun r => by cases r <;> rfl) rfl rfl rfl
  exact AlbumFs.endsOn_of_live fun hlive => endsOn_bind (AlbumFs.endsOn_writeInode hs.geometry (hlive ino inode hi).1
    (endsOn_bind (AlbumFs.endsOn_sync (hs.geometry.setInode _ _) (endsOn_pure hset) fun _ => hset)))

end Handlers

section Replies

variable {α β : Type} {v : View}

/-- The reply to a request that reads. -/
theorem Performs.of_run_reads {op : Option Op} {m : FsM Disk α} {f : α → FuseM Disk β}
    (h : ∀ v : View, v.Sound → EndsOn AlbumFs.view m v (fun _ w => w = v) fun _ w => w = v)
    (hf : ∀ a, ∀ v : View, v.Sound → EndsOn AlbumFs.view (f a) v (fun _ w => w = v) fun _ w => w = v) :
    Performs op (FuseAlbumFs.run m >>= f) := by
  refine .of_reads fun v hs => EndsOn.bind (endsOn_mapError (g := errnoFor) (h v hs)) ?_ fun _ _ hw => hw
  rintro a _ rfl
  exact hf a _ hs

theorem endsOn_of_reads {m : FsM Disk α} {r : Except FsError α} (h : Reads AlbumFs.view m v r) :
    EndsOn AlbumFs.view m v (fun _ w => w = v) fun _ w => w = v :=
  h.endsOn (fun _ _ => rfl) fun _ _ => rfl

/-- The attributes that are changed are the reply. -/
theorem endsOn_run_reply {m : FsM Disk α} (f : α → β)
    (h : EndsOn AlbumFs.view m v (fun _ w => Attributed v w) fun _ w => Attributed v w) :
    EndsOn AlbumFs.view (FuseAlbumFs.run m >>= fun a => pure (f a) : FuseM Disk β) v (fun _ w => Attributed v w)
      fun _ w => Attributed v w :=
  EndsOn.bind (endsOn_mapError (g := errnoFor) h) (fun _ _ hw => endsOn_pure hw) fun _ _ hw => hw

theorem performs_syncReply (op : Option Op) : Performs op (FuseAlbumFs.syncReply : FuseM Disk Unit) :=
  .of_reads fun _ hs => endsOn_mapError (AlbumFs.endsOn_sync hs.geometry rfl fun _ => rfl)

end Replies

/-- A request does nothing but its operation and a change of attributes. -/
theorem Request.performs (r : Request) : Performs r.op (r.serve : FuseM Disk Unit) := by
  cases r with
  | lookup parent name =>
    have h : Performs ((fromUtf8 name).bind fun _ => none) (FuseAlbumFs.lookup parent name : FuseM Disk FileAttr) := by
      refine .of_name _ fun s => .of_run_reads (fun v hs => endsOn_of_reads (AlbumFs.reads_lookup hs parent s))
        fun found v hs => ?_
      cases found with
      | none => exact endsOn_throw rfl
      | some ino =>
        exact EndsOn.bind (endsOn_mapError (endsOn_of_reads (AlbumFs.reads_getattr hs.geometry ino)))
          (fun _ _ hw => endsOn_pure hw) fun _ _ hw => hw
    rw [Option.bind_fun_none] at h
    exact h.drop
  | getattr ino =>
    exact (Performs.of_run_reads (fun v hs => endsOn_of_reads (AlbumFs.reads_getattr hs.geometry ino))
      fun inode v hs => endsOn_pure rfl).drop
  | setattr ino size attributes =>
    cases size with
    | none =>
      exact (Performs.of_attributed fun v hs => (reads_pure () v).bind_endsOn
        (endsOn_run_reply _ (endsOn_setAttributes hs ino attributes))).drop
    | some newSize =>
      exact (Performs.of_op (o := .truncate ino newSize) (m := AlbumFs.truncate ino newSize)
        (bind_pure _).symm fun _ v hs =>
        endsOn_run_reply _ (endsOn_setAttributes hs ino attributes)).drop
  | read ino offset size =>
    refine Performs.drop ?_
    rw [FuseAlbumFs.read]
    split_ifs
    · exact .of_reads fun v hs => endsOn_throw rfl
    · exact .of_reads fun v hs => endsOn_mapError
        ((AlbumFs.endsOn_read hs ino _ _).mono (fun _ _ hw => hw.1) fun _ _ hw => hw)
  | write ino offset data =>
    refine Performs.drop ?_
    rw [FuseAlbumFs.write, Request.op]
    split_ifs
    · exact .of_reads fun v hs => endsOn_throw rfl
    · exact .of_op rfl fun written v hs => endsOn_pure .refl
  | create uid gid parent name mode umask =>
    rw [Request.op, Option.map_eq_bind]
    exact (Performs.of_name _ fun s => .of_op rfl fun ino v hs => endsOn_run_reply _ (endsOn_setOwner hs ino uid gid)).drop
  | mkdir uid gid parent name mode umask =>
    rw [Request.op, Option.map_eq_bind]
    exact (Performs.of_name _ fun s => .of_op rfl fun ino v hs => endsOn_run_reply _ (endsOn_setOwner hs ino uid gid)).drop
  | unlink parent name =>
    rw [Request.op, Option.map_eq_bind]
    exact .of_name _ fun s => .of_run
  | rmdir parent name =>
    rw [Request.op, Option.map_eq_bind]
    exact .of_name _ fun s => .of_run
  | rename parent name newParent newName flags =>
    rw [Request.op, Request.serve, FuseAlbumFs.rename]
    split_ifs
    · exact .of_reads fun v hs => endsOn_throw rfl
    · refine .of_name _ fun s => ?_
      rw [Option.map_eq_bind]
      exact .of_name _ fun s' => .of_run
  | readdir ino offset capacity =>
    exact (Performs.of_run_reads (fun v hs => endsOn_of_reads (AlbumFs.reads_readdir hs ino))
      fun entries v hs => endsOn_pure rfl).drop
  | flush ino => exact performs_syncReply _
  | release ino => exact performs_syncReply _
  | releasedir ino => exact performs_syncReply _
  | fsync ino => exact performs_syncReply _
  | fsyncdir ino => exact performs_syncReply _
  | statfs ino =>
    refine (Performs.of_run_reads (fun v hs => endsOn_of_reads (AlbumFs.reads_usedInodes hs.geometry))
      fun used v _ => ?_).drop
    intro fs hfs
    exact hfs

/-- The file systems that requests reach when each operation they run is one that `P` allows. -/
inductive Served (P : Op → AlbumFs Disk → Prop) : AlbumFs Disk → Prop
  | formatted {fs : AlbumFs Disk} (h : Formatted fs) : Served P fs
  | request {fs : AlbumFs Disk} (h : Served P fs) (r : Request) (hr : ∀ op ∈ r.op, P op fs) :
      Served P (exec r.serve fs).2

theorem Attributed.sound {v w : View} (h : Attributed v w) (hs : v.Sound) : w.Sound := by
  cases h with
  | refl => exact hs
  | set hi hpointer => exact hs.setInode hi hpointer

/-- An invariant of sound views that every fresh view has, that every allowed operation keeps and that does not depend
on attributes. -/
theorem Served.invariant {P : Op → AlbumFs Disk → Prop} {I : View → Prop} {fs : AlbumFs Disk} (h : Served P fs)
    (hfresh : ∀ v : View, v.Fresh → I v)
    (hop : ∀ (op : Op) fs, fs.view.Sound → I fs.view → P op fs → I (exec op.run fs).2.view)
    (hattributes : ∀ v w : View, v.Sound → I v → Attributed v w → I w) : fs.view.Sound ∧ I fs.view := by
  induction h with
  | formatted h => exact ⟨h.fresh.sound, hfresh _ h.fresh⟩
  | @request fs _ r hr ih =>
    obtain ⟨fs₁, hfs₁, hattributed⟩ := r.performs fs ih.1
    have hbefore : fs₁.view.Sound ∧ I fs₁.view := by
      rcases hfs₁ with rfl | ⟨op, hmem, rfl⟩
      · exact ih
      · exact ⟨op.sound_run ih.1, hop op fs ih.1 ih.2 (hr op hmem)⟩
    exact ⟨hattributed.sound hbefore.1, hattributes _ _ hbefore.1 hbefore.2 hattributed⟩

end AlbumFS

import AlbumFS.Fs.Operations

/-!
# The requests of clients

The request handlers of `fs/fuse.rs`. A handler locks the file system, runs operations of
`fs/album.rs` and replies with a result or with an error number; here it is a program over the open
file system whose errors are the error numbers. Names arrive as bytes. Times are counted in seconds
as the operations count them.

A `readdir` request fills a buffer of the client. How many entries fit depends on their names, so the
handler takes their number as an argument.
-/

namespace AlbumFS

/-! ### Error numbers -/

def ENOENT : Nat := 2

def EIO : Nat := 5

def EACCES : Nat := 13

def EEXIST : Nat := 17

def ENOTDIR : Nat := 20

def EISDIR : Nat := 21

def EINVAL : Nat := 22

def ENOSPC : Nat := 28

def ENOTEMPTY : Nat := 39

def errnoFor : FsError → Nat
  | .notFound => ENOENT
  | .exists => EEXIST
  | .notEmpty => ENOTEMPTY
  | .notDir => ENOTDIR
  | .isDir => EISDIR
  | .noSpace => ENOSPC
  | .auth => EACCES
  | _ => EIO

/-! ### Replies -/

inductive FileType where
  | directory
  | regularFile
  deriving DecidableEq, Repr

structure FileAttr where
  ino : Nat
  size : UInt64
  blocks : Nat
  atime : UInt64
  mtime : UInt64
  ctime : UInt64
  crtime : UInt64
  kind : FileType
  perm : UInt16
  nlink : UInt32
  uid : UInt32
  gid : UInt32
  deriving DecidableEq, Repr

/-- Seconds that do not fit into a time of the system become the epoch. -/
def timestamp (seconds : UInt64) : UInt64 := if seconds.toNat < 2 ^ 63 then seconds else 0

def toFileattr (ino : Nat) (inode : Inode) : FileAttr where
  ino := ino
  size := inode.size
  blocks := divCeil inode.size.toNat 512
  atime := timestamp inode.atime
  mtime := timestamp inode.mtime
  ctime := timestamp inode.ctime
  crtime := timestamp inode.ctime
  kind := if inode.isDir then .directory else .regularFile
  perm := (inode.mode &&& 0o7777).toUInt16
  nlink := inode.nlink
  uid := inode.uid
  gid := inode.gid

/-- The reply to `statfs`. -/
structure Statfs where
  blocks : UInt64
  bfree : UInt64
  bavail : UInt64
  files : UInt64
  ffree : UInt64
  bsize : UInt32 := 4096
  namelen : UInt32 := 255
  frsize : UInt32 := 4096
  deriving DecidableEq, Repr

/-- The entries of a page, by their index in the list, each with the offset of the next one. -/
def readdirPage (entryCount : Nat) (offset : Int) (maxEntries : Nat) : List (Nat × Int) :=
  let start := (max offset 0).toNat
  ((List.range' start (entryCount - start)).take maxEntries).map
    fun index => (index, (index + 1 : Int))

/-- A time that a client sets. -/
inductive TimeOrNow where
  | specificTime (seconds : UInt64)
  | now
  deriving DecidableEq, Repr

/-- The attributes that a client sets, apart from the size. -/
structure Attributes where
  mode : Option UInt32 := none
  uid : Option UInt32 := none
  gid : Option UInt32 := none
  atime : Option TimeOrNow := none
  mtime : Option TimeOrNow := none
  ctime : Option UInt64 := none
  deriving DecidableEq, Repr

/-- Programs of the request handlers. -/
abbrev FuseM (σ : Type) : Type → Type := Prog Nat (AlbumFs σ)

namespace FuseAlbumFs

variable {σ : Type} [BlockDevice σ]

/-- Run an operation and translate its error. -/
def run {α : Type} (m : FsM σ α) : FuseM σ α := Prog.mapError errnoFor m

/-- `name.to_str()`. -/
def toStr (name : List UInt8) : FuseM σ String :=
  match fromUtf8 name with
  | some name => pure name
  | none => throw EINVAL

def timeOrNowSeconds : TimeOrNow → FsM σ UInt64
  | .specificTime seconds => pure seconds
  | .now => AlbumFs.now

/-- Set a time when the client asks for it. -/
def setTime (time : Option TimeOrNow) (current : UInt64) : FsM σ UInt64 :=
  match time with
  | some time => timeOrNowSeconds time
  | none => pure current

def lookup (parent : Nat) (name : List UInt8) : FuseM σ FileAttr := do
  let name ← toStr name
  let found ← run (AlbumFs.lookup parent name)
  match found with
  | none => throw ENOENT
  | some ino => do
    let inode ← run (AlbumFs.getattr ino)
    pure (toFileattr ino inode)

def getattr (ino : Nat) : FuseM σ FileAttr := do
  let inode ← run (AlbumFs.getattr ino)
  pure (toFileattr ino inode)

/-- The attributes of `setattr` other than the size, for the inode the file system holds. -/
def setAttributes (ino : Nat) (attributes : Attributes) : FsM σ Inode := do
  let inode ← AlbumFs.getattr ino
  let mode := attributes.mode.elim inode.mode fun mode => inode.mode &&& S_IFMT ||| (mode &&& 0o7777)
  let atime ← setTime attributes.atime inode.atime
  let mtime ← setTime attributes.mtime inode.mtime
  let inode := { inode with
    mode, atime, mtime
    uid := attributes.uid.getD inode.uid
    gid := attributes.gid.getD inode.gid
    ctime := attributes.ctime.getD inode.ctime }
  AlbumFs.writeInode ino inode
  AlbumFs.sync
  pure inode

def setattr (ino : Nat) (size : Option UInt64) (attributes : Attributes) : FuseM σ FileAttr := do
  (match size with
  | some newSize => run (AlbumFs.truncate ino newSize)
  | none => pure ())
  let inode ← run (setAttributes ino attributes)
  pure (toFileattr ino inode)

def read (ino : Nat) (offset : Int64) (size : UInt32) : FuseM σ (List UInt8) :=
  if offset < 0 then throw EINVAL
  else run (AlbumFs.read ino offset.toUInt64 size.toNat)

def write (ino : Nat) (offset : Int64) (data : List UInt8) : FuseM σ UInt32 :=
  if offset < 0 then throw EINVAL
  else do
    let written ← run (AlbumFs.write ino offset.toUInt64 data)
    pure (UInt32.ofNat written)

/-- The owner of a new entry is the client that asked for it. -/
def setOwner (ino : Nat) (uid gid : UInt32) : FsM σ Inode := do
  let inode ← AlbumFs.getattr ino
  let inode := { inode with uid, gid }
  AlbumFs.writeInode ino inode
  AlbumFs.sync
  pure inode

def create (uid gid : UInt32) (parent : Nat) (name : List UInt8) (mode umask : UInt32) :
    FuseM σ FileAttr := do
  let name ← toStr name
  let ino ← run (AlbumFs.create parent name (mode &&& ~~~umask))
  let inode ← run (setOwner ino uid gid)
  pure (toFileattr ino inode)

def mkdir (uid gid : UInt32) (parent : Nat) (name : List UInt8) (mode umask : UInt32) :
    FuseM σ FileAttr := do
  let name ← toStr name
  let ino ← run (AlbumFs.mkdir parent name (mode &&& ~~~umask))
  let inode ← run (setOwner ino uid gid)
  pure (toFileattr ino inode)

def unlink (parent : Nat) (name : List UInt8) : FuseM σ Unit := do
  let name ← toStr name
  run (AlbumFs.unlink parent name)

def rmdir (parent : Nat) (name : List UInt8) : FuseM σ Unit := do
  let name ← toStr name
  run (AlbumFs.rmdir parent name)

def rename (parent : Nat) (name : List UInt8) (newParent : Nat) (newName : List UInt8)
    (flags : UInt32) : FuseM σ Unit :=
  if flags ≠ 0 then throw EINVAL
  else do
    let name ← toStr name
    let newName ← toStr newName
    run (AlbumFs.rename parent name newParent newName)

/-- A page of a directory: each entry with its inode number, the offset behind it and its kind. At
most `capacity` entries fit into the buffer of the client. -/
def readdir (ino : Nat) (offset : Int) (capacity : Nat) :
    FuseM σ (List (Nat × Int × FileType × String)) := do
  let entries ← run (AlbumFs.readdir ino)
  pure (((readdirPage entries.length offset entries.length).take capacity).map
    fun (index, nextOffset) =>
      let (entryIno, name, fileType) := entries.getD index (0, "", 0)
      (entryIno, nextOffset, if fileType = 2 then .directory else .regularFile, name))

/-- `sync_reply`: every error is an input/output error. -/
def syncReply : FuseM σ Unit := Prog.mapError (fun _ => EIO) AlbumFs.sync

def flush (_ino : Nat) : FuseM σ Unit := syncReply

def release (_ino : Nat) : FuseM σ Unit := syncReply

def releasedir (_ino : Nat) : FuseM σ Unit := syncReply

def fsync (_ino : Nat) : FuseM σ Unit := syncReply

def fsyncdir (_ino : Nat) : FuseM σ Unit := syncReply

/-- The end of a mount: nobody is told when the changes cannot be stored. -/
def destroy : FuseM σ Unit := tryCatch (run AlbumFs.sync) fun _ => pure ()

def statfs (_ino : Nat) : FuseM σ Statfs := do
  let usedInodes ← run AlbumFs.usedInodes
  let blocks ← Prog.gets fun fs : AlbumFs σ => fs.sb.totalBlocks
  let free ← Prog.gets fun fs : AlbumFs σ => UInt64.ofNat fs.freeBlocks
  let inodes ← Prog.gets fun fs : AlbumFs σ => fs.sb.inodeCount
  pure
    { blocks := blocks
      bfree := free
      bavail := free
      files := inodes
      ffree := inodes - UInt64.ofNat usedInodes }

end FuseAlbumFs

end AlbumFS

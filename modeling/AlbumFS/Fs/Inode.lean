import AlbumFS.Fs.Error
import AlbumFS.Lib.Bytes

/-!
# Inode records

The 192-byte inode records of `fs/inode.rs`. The fields have the widths of the source, so an inode
is read back from its record whatever its fields hold.

## Main results

* `Inode.decode_encode`: decoding inverts encoding.
-/

namespace AlbumFS

/-- Bytes of an inode record. -/
def INODE_SIZE : Nat := 192

/-- Inode records in a block. -/
def INODES_PER_BLOCK : Nat := UB / INODE_SIZE

def S_IFDIR : UInt32 := 0o040000

def S_IFREG : UInt32 := 0o100000

def S_IFMT : UInt32 := 0o170000

structure Inode where
  mode : UInt32 := 0
  uid : UInt32 := 0
  gid : UInt32 := 0
  nlink : UInt32 := 0
  size : UInt64 := 0
  atime : UInt64 := 0
  mtime : UInt64 := 0
  ctime : UInt64 := 0
  blockCount : UInt32 := 0
  direct : Vector UInt64 12 := Vector.replicate 12 0
  singleIndirect : UInt64 := 0
  doubleIndirect : UInt64 := 0
  deriving DecidableEq, Repr

namespace Inode

/-- `Inode::default()`. -/
def default : Inode := {}

theorem direct_pos : 0 < 12 := by decide

/-- The fields of a record with their positions. -/
def fields (inode : Inode) : List (Nat × List UInt8) :=
  [(0, u32LE inode.mode), (4, u32LE inode.uid), (8, u32LE inode.gid), (12, u32LE inode.nlink),
    (16, u64LE inode.size), (24, u64LE inode.atime), (32, u64LE inode.mtime),
    (40, u64LE inode.ctime), (48, u32LE inode.blockCount)] ++
  (List.finRange 12).map (fun index => (56 + index.val * 8, u64LE inode.direct[index])) ++
  [(152, u64LE inode.singleIndirect), (160, u64LE inode.doubleIndirect)]

/-- Write every field into a zeroed record. -/
def encode (inode : Inode) : List UInt8 :=
  overwriteAll (List.replicate INODE_SIZE 0) inode.fields

/-- The fields read from a record. -/
def ofBytes (bytes : List UInt8) : Inode where
  mode := u32At bytes 0
  uid := u32At bytes 4
  gid := u32At bytes 8
  nlink := u32At bytes 12
  size := u64At bytes 16
  atime := u64At bytes 24
  mtime := u64At bytes 32
  ctime := u64At bytes 40
  blockCount := u32At bytes 48
  direct := Vector.ofFn fun index => u64At bytes (56 + index.val * 8)
  singleIndirect := u64At bytes 152
  doubleIndirect := u64At bytes 160

def decode (bytes : List UInt8) : Except FsError Inode :=
  if bytes.length < INODE_SIZE then
    .error (.manifest "truncated inode")
  else
    .ok (ofBytes bytes)

def isDir (inode : Inode) : Bool := inode.mode &&& S_IFMT == S_IFDIR

def isFile (inode : Inode) : Bool := inode.mode &&& S_IFMT == S_IFREG

@[simp] theorem length_encode (inode : Inode) : inode.encode.length = INODE_SIZE := by
  rw [encode, length_overwriteAll, List.length_replicate]

/-- The positions and lengths of the fields do not depend on the inode. -/
theorem map_length_fields (inode : Inode) :
    inode.fields.map (fun w => (w.1, w.2.length)) =
      [(0, 4), (4, 4), (8, 4), (12, 4), (16, 8), (24, 8), (32, 8), (40, 8), (48, 4)] ++
        (List.range 12).map (fun index => (56 + index * 8, 8)) ++ [(152, 8), (160, 8)] := rfl

/-- No two fields of a record overlap. -/
theorem fields_pairwise (inode : Inode) :
    inode.fields.Pairwise fun w w' => w.1 + w.2.length ≤ w'.1 ∨ w'.1 + w'.2.length ≤ w.1 := by
  have h : (inode.fields.map fun w => (w.1, w.2.length)).Pairwise
      fun w w' => w.1 + w.2 ≤ w'.1 ∨ w'.1 + w'.2 ≤ w.1 := by
    rw [map_length_fields]
    decide
  exact List.pairwise_map.1 h

theorem slice_encode {inode : Inode} {off : Nat} {bs : List UInt8}
    (hmem : (off, bs) ∈ inode.fields) (hl : off + bs.length ≤ INODE_SIZE) :
    slice inode.encode off bs.length = bs :=
  slice_overwriteAll inode.fields_pairwise hmem (by rwa [List.length_replicate])

theorem u32At_encode {inode : Inode} {off : Nat} {x : UInt32}
    (hmem : (off, u32LE x) ∈ inode.fields) (hl : off + 4 ≤ INODE_SIZE) :
    u32At inode.encode off = x := by
  have h := slice_encode hmem (by rwa [length_u32LE])
  rw [length_u32LE] at h
  exact u32At_eq h

theorem u64At_encode {inode : Inode} {off : Nat} {x : UInt64}
    (hmem : (off, u64LE x) ∈ inode.fields) (hl : off + 8 ≤ INODE_SIZE) :
    u64At inode.encode off = x := by
  have h := slice_encode hmem (by rwa [length_u64LE])
  rw [length_u64LE] at h
  exact u64At_eq h

/-- An inode is read back from its record. -/
theorem ofBytes_encode (inode : Inode) : ofBytes inode.encode = inode := by
  have hdirect : (Vector.ofFn fun index : Fin 12 =>
      u64At inode.encode (56 + index.val * 8)) = inode.direct := by
    apply Vector.ext
    intro i hi
    rw [Vector.getElem_ofFn]
    refine u64At_encode ?_ (by unfold INODE_SIZE; omega)
    simp only [fields, List.mem_append, List.mem_map]
    exact Or.inl (Or.inr ⟨⟨i, hi⟩, List.mem_finRange _, rfl⟩)
  unfold ofBytes
  rw [hdirect,
    u32At_encode (x := inode.mode) (by simp [fields]) (by decide),
    u32At_encode (x := inode.uid) (by simp [fields]) (by decide),
    u32At_encode (x := inode.gid) (by simp [fields]) (by decide),
    u32At_encode (x := inode.nlink) (by simp [fields]) (by decide),
    u64At_encode (x := inode.size) (by simp [fields]) (by decide),
    u64At_encode (x := inode.atime) (by simp [fields]) (by decide),
    u64At_encode (x := inode.mtime) (by simp [fields]) (by decide),
    u64At_encode (x := inode.ctime) (by simp [fields]) (by decide),
    u32At_encode (x := inode.blockCount) (by simp [fields]) (by decide),
    u64At_encode (x := inode.singleIndirect) (by simp [fields]) (by decide),
    u64At_encode (x := inode.doubleIndirect) (by simp [fields]) (by decide)]

theorem decode_encode (inode : Inode) : decode inode.encode = .ok inode := by
  rw [decode, if_neg (by simp), ofBytes_encode]

end Inode

end AlbumFS

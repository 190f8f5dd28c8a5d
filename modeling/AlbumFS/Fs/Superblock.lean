import AlbumFS.Fs.Error
import AlbumFS.Lib.Bytes

/-!
# The superblock

The superblock of `fs/superblock.rs`: the geometry of a pool and the manifest of its carriers.
-/

namespace AlbumFS

/-- `*b"ALBUMFS\\0"`. -/
def SB_MAGIC : List UInt8 := [65, 76, 66, 85, 77, 70, 83, 0]

def FS_VERSION : UInt32 := 2

def CRYPTO_FLAG_ENCRYPTED : UInt32 := 1

def MARKERLESS_FS_VERSION : UInt32 := 3

def V1_HEADER_LEN : Nat := 80

def V2_HEADER_LEN : Nat := 108

def V3_HEADER_LEN : Nat := 80

def ARGON2_MEM_KIB : UInt32 := 65536

def ARGON2_ITERS : UInt32 := 3

def ARGON2_PARALLEL : UInt32 := 1

structure CarrierRange where
  name : String
  chunkIndex : UInt32
  blockStart : UInt64
  blockCount : UInt64
  deriving DecidableEq, Repr

structure Superblock where
  version : UInt32
  blockSize : UInt32
  usableSize : UInt32
  totalBlocks : UInt64
  inodeCount : UInt64
  bitmapStart : UInt64
  inodeTableStart : UInt64
  dataStart : UInt64
  rootInode : UInt64
  cryptoFlags : UInt32
  salt : Vector UInt8 16
  argon2MemKib : UInt32
  argon2Iters : UInt32
  argon2Parallel : UInt32
  manifest : List CarrierRange
  deriving DecidableEq, Repr

namespace Superblock

def standard (totalBlocks inodeCount bitmapStart inodeTableStart dataStart : UInt64)
    (manifest : List CarrierRange) (encrypted : Bool) : Superblock where
  version := FS_VERSION
  blockSize := UInt32.ofNat PB
  usableSize := UInt32.ofNat UB
  totalBlocks := totalBlocks
  inodeCount := inodeCount
  bitmapStart := bitmapStart
  inodeTableStart := inodeTableStart
  dataStart := dataStart
  rootInode := 1
  cryptoFlags := if encrypted then CRYPTO_FLAG_ENCRYPTED else 0
  salt := Vector.replicate 16 0
  argon2MemKib := ARGON2_MEM_KIB
  argon2Iters := ARGON2_ITERS
  argon2Parallel := ARGON2_PARALLEL
  manifest := manifest

def markerless (totalBlocks inodeCount bitmapStart inodeTableStart dataStart : UInt64)
    (manifest : List CarrierRange) : Superblock :=
  { standard totalBlocks inodeCount bitmapStart inodeTableStart dataStart manifest true with
    version := MARKERLESS_FS_VERSION
    argon2MemKib := 0
    argon2Iters := 0
    argon2Parallel := 0 }

def encrypted (sb : Superblock) : Bool := sb.cryptoFlags &&& CRYPTO_FLAG_ENCRYPTED != 0

def markerlessEncrypted (sb : Superblock) : Bool :=
  sb.version == MARKERLESS_FS_VERSION && sb.encrypted

def headerLen (version : UInt32) : Nat :=
  if version = 1 then V1_HEADER_LEN else if version = 2 then V2_HEADER_LEN else V3_HEADER_LEN

/-- The manifest entry of a carrier. Its name is stored from version three on. -/
def entryBytes (version : UInt32) (carrier : CarrierRange) : List UInt8 :=
  (if version ≥ MARKERLESS_FS_VERSION then
    u16LE (UInt16.ofNat (utf8 carrier.name).length) ++ utf8 carrier.name else []) ++
  (u32LE carrier.chunkIndex ++ u64LE carrier.blockStart ++ u64LE carrier.blockCount)

/-- The fields of the header with their positions, without the checksum. -/
def headerFields (sb : Superblock) : List (Nat × List UInt8) :=
  [(0, SB_MAGIC), (8, u32LE sb.version), (12, u32LE sb.blockSize), (16, u32LE sb.usableSize),
    (20, u64LE sb.totalBlocks), (28, u64LE sb.inodeCount), (36, u64LE sb.bitmapStart),
    (44, u64LE sb.inodeTableStart), (52, u64LE sb.dataStart), (60, u64LE sb.rootInode),
    (68, u32LE (UInt32.ofNat sb.manifest.length)), (72, u32LE sb.cryptoFlags)] ++
  if sb.version = 2 then
    [(80, sb.salt.toList), (96, u32LE sb.argon2MemKib), (100, u32LE sb.argon2Iters),
      (104, u32LE sb.argon2Parallel)]
  else []

/-- The encoded superblock with a checksum of zero. -/
def body (sb : Superblock) : List UInt8 :=
  overwriteAll (List.replicate (headerLen sb.version) 0) sb.headerFields ++
    sb.manifest.flatMap (entryBytes sb.version)

def encode (sb : Superblock) : List UInt8 := overwrite sb.body 76 (u32LE (crc32 sb.body))

/-- `validate_name`. -/
def validateName (name : String) : Except FsError Unit :=
  if name = "" ∨ name = "." ∨ name = ".." ∨ '/' ∈ name.toList ∨ '\\' ∈ name.toList ∨
      (utf8 name).length > 65535 then
    .error (.manifest ("invalid carrier manifest name " ++ reprStr name))
  else
    .ok ()

/-- The name of a manifest entry at `offset`, and the position behind it. -/
def decodeName (version : UInt32) (buf : List UInt8) (offset : Nat) : Except FsError (String × Nat) :=
  if version ≥ MARKERLESS_FS_VERSION then
    match checkedAdd offset 2 with
    | none => .error (.manifest "manifest offset overflow")
    | some lenEnd =>
      if lenEnd > buf.length then
        .error (.manifest "truncated manifest name length")
      else
        match checkedAdd lenEnd (u16At buf offset).toNat with
        | none => .error (.manifest "manifest name overflow")
        | some nameEnd =>
          if nameEnd > buf.length then
            .error (.manifest "truncated manifest name")
          else
            match fromUtf8 (slice buf lenEnd (nameEnd - lenEnd)) with
            | none => .error (.manifest "manifest name is not UTF-8")
            | some name => (validateName name).map fun _ => (name, nameEnd)
  else
    .ok ("", offset)

/-- The loop over `n` manifest entries from `offset` on: the entries and the position behind them. -/
def decodeManifest (version : UInt32) (buf : List UInt8) :
    Nat → Nat → Except FsError (List CarrierRange × Nat)
  | 0, offset => .ok ([], offset)
  | n + 1, offset => do
    let (name, offset) ← decodeName version buf offset
    match checkedAdd offset 20 with
    | none => .error (.manifest "manifest entry overflow")
    | some entryEnd =>
      if entryEnd > buf.length then
        .error (.manifest "truncated manifest")
      else do
        let (rest, stop) ← decodeManifest version buf n entryEnd
        .ok ({ name, chunkIndex := u32At buf offset, blockStart := u64At buf (offset + 4),
               blockCount := u64At buf (offset + 12) } :: rest, stop)

def decode (buf : List UInt8) : Except FsError Superblock :=
  if buf.length < V1_HEADER_LEN ∨ slice buf 0 8 ≠ SB_MAGIC then
    .error .badMagic
  else
    let version := u32At buf 8
    if version ≠ 1 ∧ version ≠ 2 ∧ version ≠ MARKERLESS_FS_VERSION then
      .error (.manifest ("unsupported filesystem version " ++ toString version))
    else if buf.length < headerLen version then
      .error (.manifest "truncated superblock header")
    else do
      let (manifest, stop) ← decodeManifest version buf (u32At buf 68).toNat (headerLen version)
      if crc32 (overwrite (buf.take stop) 76 (List.replicate 4 0)) ≠ u32At buf 76 then
        .error .superblockCrc
      else
        .ok
          { version
            blockSize := u32At buf 12
            usableSize := u32At buf 16
            totalBlocks := u64At buf 20
            inodeCount := u64At buf 28
            bitmapStart := u64At buf 36
            inodeTableStart := u64At buf 44
            dataStart := u64At buf 52
            rootInode := u64At buf 60
            cryptoFlags := u32At buf 72
            salt := if version = 2 then Vector.ofFn fun i => buf.getD (80 + i.val) 0
              else Vector.replicate 16 0
            argon2MemKib := if version = 2 then u32At buf 96 else 0
            argon2Iters := if version = 2 then u32At buf 100 else 0
            argon2Parallel := if version = 2 then u32At buf 104 else 0
            manifest }

end Superblock

end AlbumFS

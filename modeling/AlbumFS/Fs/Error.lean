import Mathlib.Logic.Basic

/-!
# Constants and errors

The block geometry of `fs/mod.rs` and the error types of `fs/mod.rs` and `stego/mod.rs`.
-/

namespace AlbumFS

/-- Bytes of a physical block. -/
def PB : Nat := 4096

/-- Bytes of the header of a physical block. -/
def BLOCK_HEADER : Nat := 64

/-- Usable bytes of a block. -/
def UB : Nat := PB - BLOCK_HEADER

theorem UB_eq : UB = 4032 := rfl

theorem UB_pos : 0 < UB := by decide

/-- `UB as u64`. -/
@[irreducible] def UB64 : UInt64 := UInt64.ofNat UB

theorem UB64_toNat : UB64.toNat = UB := by
  unfold UB64
  exact UInt64.toNat_ofNat_of_lt' (by decide)

/-- `n.div_ceil(d)`. -/
def divCeil (n d : Nat) : Nat := (n + d - 1) / d

theorem divCeil_le_iff {n d k : Nat} (hd : 0 < d) : divCeil n d ≤ k ↔ n ≤ k * d := by
  rw [divCeil, ← Nat.lt_succ_iff, Nat.div_lt_iff_lt_mul hd, Nat.succ_mul]
  omega

theorem lt_divCeil_iff {n d k : Nat} (hd : 0 < d) : k < divCeil n d ↔ k * d < n := by
  rw [← Nat.not_le, divCeil_le_iff hd, Nat.not_le]

/-- Errors of the carrier codecs. The two variants that wrap an error of the image library or of
the operating system carry its message. -/
inductive CodecError where
  | image (message : String)
  | io (message : String)
  | payloadTooLarge (payload capacity : Nat)
  | notACarrier
  | headerCrc
  | jpeg (message : String)
  | invalidMode (message : String)
  deriving DecidableEq, Repr

/-- Errors of the file system. -/
inductive FsError where
  | codec (error : CodecError)
  | io (message : String)
  | blockCrc (lba : Nat)
  | auth
  | anchorRequired
  | superblockCrc
  | badMagic
  | noPrimary
  | manifest (message : String)
  | badBlock (lba : Nat)
  | noSpace
  | emptyPool
  | alreadyFormatted
  | notFound
  | exists
  | notEmpty
  | notDir
  | isDir
  deriving DecidableEq, Repr

end AlbumFS

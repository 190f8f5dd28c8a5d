import AlbumFS.Fs.Error
import AlbumFS.Lib.Bits

/-!
# Chunks

The part of `stego/mod.rs` that both carrier codecs share: the modes in which a chunk is written and
read, the order of the positions in markerless mode and the header of a framed chunk.

The key derivation and the shuffle come from outside the repository. They are the two functions of
a `ChunkOrder`, and the shuffle is a permutation.
-/

namespace AlbumFS

/-- `"ALBM"`. -/
def CHUNK_MAGIC : UInt32 := 0x414C424D

def CHUNK_HEADER_LEN : Nat := 16

structure ChunkMeta where
  chunkIndex : UInt32
  flags : UInt16
  deriving DecidableEq, Repr

inductive ChunkWrite where
  | framed (info : ChunkMeta)
  | markerless (chunkIndex : UInt32)
  deriving DecidableEq, Repr

inductive ChunkRead where
  | framed
  | markerless (chunkIndex : UInt32) (payloadLen : Nat)
  deriving DecidableEq, Repr

/-- The mode that reads a chunk back. -/
def ChunkWrite.readBack (mode : ChunkWrite) (payload : List UInt8) : ChunkRead :=
  match mode with
  | .framed _ => .framed
  | .markerless chunkIndex => .markerless chunkIndex payload.length

/-- The metadata that reading a chunk back returns. -/
def ChunkWrite.info : ChunkWrite → ChunkMeta
  | .framed info => info
  | .markerless chunkIndex => { chunkIndex, flags := 0 }

/-- `blake3::derive_key`, and `shuffle` with the generator seeded by its result. -/
structure ChunkOrder where
  deriveKey : String → List UInt8 → List UInt8
  shuffle : List UInt8 → List Nat → List Nat
  shuffle_perm : ∀ seed positions, (shuffle seed positions).Perm positions

def orderPositions (order : ChunkOrder) (positions : List Nat) (orderKey : List UInt8)
    (chunkIndex : UInt32) : Except CodecError (List Nat) :=
  if orderKey.length ≠ 32 then
    .error (.invalidMode "markerless mode requires a 32-byte order key")
  else
    .ok (order.shuffle (order.deriveKey "albumfs carrier order v1" (orderKey ++ u32LE chunkIndex)) positions)

/-- One byte of `CRC_16_IBM_SDLC`. -/
def crc16Byte (crc : UInt16) (byte : UInt8) : UInt16 :=
  (List.range 8).foldl
    (fun crc _ => crc >>> 1 ^^^ (if crc &&& 1 = 1 then 0x8408 else 0)) (crc ^^^ byte.toUInt16)

/-- The checksum `CRC_16_IBM_SDLC` of a byte string. -/
@[irreducible] def crc16 (bytes : List UInt8) : UInt16 :=
  bytes.foldl crc16Byte 0xFFFF ^^^ 0xFFFF

/-- The fields of a chunk header before its checksum. -/
def chunkFields (info : ChunkMeta) (chunkLen : UInt32) : List UInt8 :=
  u32LE CHUNK_MAGIC ++ u32LE info.chunkIndex ++ u32LE chunkLen ++ u16LE info.flags

def encodeHeader (info : ChunkMeta) (chunkLen : UInt32) : List UInt8 :=
  chunkFields info chunkLen ++ u16LE (crc16 (chunkFields info chunkLen))

def decodeHeader (h : List UInt8) : Except CodecError (ChunkMeta × UInt32) :=
  if h.length < CHUNK_HEADER_LEN then
    .error .notACarrier
  else if u32At h 0 ≠ CHUNK_MAGIC then
    .error .notACarrier
  else if crc16 (slice h 0 14) ≠ u16At h 14 then
    .error .headerCrc
  else
    .ok ({ chunkIndex := u32At h 4, flags := u16At h 12 }, u32At h 8)

/-- The byte that the write loops take bit `bitIndex` from. -/
def chunkByte (first second : List UInt8) (byteIndex : Nat) : UInt8 :=
  if byteIndex < first.length then first.getD byteIndex 0 else second.getD (byteIndex - first.length) 0

/-- The bit that the write loops put at the position number `bitIndex`. -/
def chunkBit (first second : List UInt8) (bitIndex : Nat) : UInt8 :=
  (chunkByte first second (bitIndex / 8) >>> UInt8.ofNat (7 - bitIndex % 8)) &&& 1

/-- `first.len().checked_add(second.len())` times eight. -/
def totalBits (first second : List UInt8) : Option Nat :=
  (checkedAdd first.length second.length).bind fun length => checkedMul length 8

theorem orderPositions_eq_ok_iff {order : ChunkOrder} {positions positions' : List Nat}
    {orderKey : List UInt8} {chunkIndex : UInt32} :
    orderPositions order positions orderKey chunkIndex = .ok positions' ↔ orderKey.length = 32 ∧
      order.shuffle (order.deriveKey "albumfs carrier order v1" (orderKey ++ u32LE chunkIndex)) positions =
        positions' := by
  unfold orderPositions
  split_ifs with h
  · simp [h]
  · simp [not_not.1 h]

/-- The positions in order are the positions given. -/
theorem perm_of_orderPositions {order : ChunkOrder} {positions positions' : List Nat}
    {orderKey : List UInt8} {chunkIndex : UInt32}
    (h : orderPositions order positions orderKey chunkIndex = .ok positions') :
    positions'.Perm positions := by
  obtain ⟨-, rfl⟩ := orderPositions_eq_ok_iff.1 h
  exact order.shuffle_perm _ _

@[simp] theorem length_chunkFields (info : ChunkMeta) (chunkLen : UInt32) :
    (chunkFields info chunkLen).length = 14 := by
  simp [chunkFields]

@[simp] theorem length_encodeHeader (info : ChunkMeta) (chunkLen : UInt32) :
    (encodeHeader info chunkLen).length = CHUNK_HEADER_LEN := by
  simp [encodeHeader, CHUNK_HEADER_LEN]

/-- A header is read back. -/
theorem decodeHeader_encodeHeader (info : ChunkMeta) (chunkLen : UInt32) :
    decodeHeader (encodeHeader info chunkLen) = .ok (info, chunkLen) := by
  have hparts : ∀ w ∈ placed 0 [u32LE CHUNK_MAGIC, u32LE info.chunkIndex, u32LE chunkLen, u16LE info.flags,
      u16LE (crc16 (chunkFields info chunkLen))],
      slice (encodeHeader info chunkLen) w.1 w.2.length = w.2 := by
    rw [← slice_eq_flatten_iff]
    have hflat : [u32LE CHUNK_MAGIC, u32LE info.chunkIndex, u32LE chunkLen, u16LE info.flags,
        u16LE (crc16 (chunkFields info chunkLen))].flatten = encodeHeader info chunkLen := by
      simp [encodeHeader, chunkFields]
    rw [hflat, slice_zero_length]
  simp only [placed, List.forall_mem_cons, length_u32LE, length_u16LE] at hparts
  obtain ⟨hmagic, hindex, hlen, hflags, hcrc, -⟩ := hparts
  have hfields : slice (encodeHeader info chunkLen) 0 14 = chunkFields info chunkLen := by
    rw [encodeHeader, slice_append_left (by simp), ← length_chunkFields info chunkLen, slice_zero_length]
  unfold decodeHeader
  rw [length_encodeHeader, if_neg (Nat.lt_irrefl _), u32At_eq hmagic, if_neg (fun h => h rfl), hfields,
    u16At_eq hcrc, if_neg (fun h => h rfl), u32At_eq hindex, u32At_eq hlen, u16At_eq hflags]

/-- The bits that are written are those of the header and the payload. -/
theorem chunkBit_eq (first second : List UInt8) (i : Nat) :
    chunkBit first second i = bitAt (first ++ second) i := by
  rw [chunkBit, bitAt, chunkByte, List.getD_eq_getElem?_getD, List.getD_eq_getElem?_getD,
    List.getD_eq_getElem?_getD, List.getElem?_append]
  split_ifs <;> rfl

theorem totalBits_of_lt {first second : List UInt8} (h : (first.length + second.length) * 8 < 2 ^ 64) :
    totalBits first second = some ((first.length + second.length) * 8) := by
  rw [totalBits, checkedAdd_of_lt (by omega), Option.bind_some, checkedMul_of_lt h]

theorem totalBits_eq_some_iff {first second : List UInt8} {n : Nat} :
    totalBits first second = some n ↔
      n = (first.length + second.length) * 8 ∧ (first.length + second.length) * 8 < 2 ^ 64 := by
  constructor
  · intro h
    obtain ⟨length, hlength, hn⟩ := Option.bind_eq_some_iff.1 h
    unfold checkedAdd at hlength
    unfold checkedMul at hn
    split_ifs at hlength hn with h₁ h₂
    obtain rfl := Option.some.inj hlength
    exact ⟨(Option.some.inj hn).symm, h₂⟩
  · rintro ⟨rfl, h⟩
    exact totalBits_of_lt h

end AlbumFS

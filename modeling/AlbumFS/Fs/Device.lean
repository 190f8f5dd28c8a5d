import AlbumFS.Fs.Error
import AlbumFS.Lib.Bytes
import AlbumFS.Lib.Prog

/-!
# Block devices

The file system reaches its carriers through `read_block`, `write_block` and `flush` of the block
store and reads the time from the clock. `BlockDevice` is this interface, and the operations of
`AlbumFS.Fs.Album` are written over it.

`Disk` is the device that stores its blocks in an array: reading a stored block does not fail, and
a write changes one block. A flush may fail at any time, and the clock may show anything; the
disk carries the outcomes of its coming flushes and the coming readings of its clock.

## Main results

* `Disk.exec_readBlock`, `Disk.exec_writeBlock`, `Disk.exec_flush`, `Disk.exec_now`: what the
  operations of a disk do.
-/

namespace AlbumFS

/-- The usable bytes of a block. -/
structure Block where
  bytes : List UInt8
  length_bytes : bytes.length = UB
  deriving DecidableEq

namespace Block

theorem ext {a b : Block} (h : a.bytes = b.bytes) : a = b := by
  cases a
  cases b
  simpa using h

/-- A block of zeros. -/
@[irreducible] def zero : Block where
  bytes := List.replicate UB 0
  length_bytes := List.length_replicate

theorem bytes_zero : zero.bytes = List.replicate UB 0 := by
  unfold zero
  rfl

/-- The payload of a write, zero-padded to a block. -/
def pad (payload : List UInt8) : Block where
  bytes := payload.take UB ++ List.replicate (UB - payload.length) 0
  length_bytes := by
    simp only [List.length_append, List.length_take, List.length_replicate]
    omega

@[simp] theorem pad_bytes (b : Block) : pad b.bytes = b := by
  apply Block.ext
  simp only [pad, b.length_bytes, Nat.sub_self, List.replicate_zero, List.append_nil]
  exact List.take_of_length_le (Nat.le_of_eq b.length_bytes)

@[simp] theorem pad_nil : pad [] = zero := by
  apply Block.ext
  simp [pad, bytes_zero]

theorem bytes_pad_of_length {l : List UInt8} (h : l.length = UB) : (pad l).bytes = l := by
  simp only [pad, h, Nat.sub_self, List.replicate_zero, List.append_nil]
  exact List.take_of_length_le (Nat.le_of_eq h)

/-- The front of a padded block is the payload. -/
theorem take_pad {payload : List UInt8} (h : payload.length ≤ UB) :
    (pad payload).bytes.take payload.length = payload := by
  rw [pad]
  dsimp only
  rw [List.take_of_length_le h, List.take_append_of_le_length (Nat.le_refl _), List.take_length]

/-- The block with `bs` copied over it from position `off`. -/
def write (b : Block) (off : Nat) (bs : List UInt8) : Block where
  bytes := overwrite b.bytes off bs
  length_bytes := by rw [length_overwrite, b.length_bytes]

@[simp] theorem bytes_write (b : Block) (off : Nat) (bs : List UInt8) :
    (b.write off bs).bytes = overwrite b.bytes off bs := rfl

theorem slice_zero (off len : Nat) : ∀ b ∈ slice zero.bytes off len, b = 0 := by
  intro b hb
  rw [bytes_zero] at hb
  exact List.eq_of_mem_replicate (List.mem_of_mem_drop (List.mem_of_mem_take hb))

end Block

/-- The block store as the file system uses it, together with the clock. -/
class BlockDevice (σ : Type) where
  readBlock : Nat → Prog FsError σ Block
  writeBlock : Nat → List UInt8 → Prog FsError σ Unit
  flush : Prog FsError σ Unit
  now : Prog FsError σ UInt64

/-- A device that keeps its blocks in an array. -/
structure Disk where
  blocks : Nat → Block
  total : Nat
  /-- Outcomes of the coming flushes. -/
  flushes : Nat → Option FsError
  /-- Coming readings of the clock. -/
  clock : Nat → UInt64

namespace Disk

def readBlock (lba : Nat) : Prog FsError Disk Block := do
  let disk ← Prog.gets id
  if lba < disk.total then
    pure (disk.blocks lba)
  else
    throw (.badBlock lba)

/-- Replace the block at `lba`. -/
def setBlock (disk : Disk) (lba : Nat) (block : Block) : Disk :=
  { disk with blocks := Function.update disk.blocks lba block }

@[simp] theorem blocks_setBlock (disk : Disk) (lba : Nat) (block : Block) :
    (disk.setBlock lba block).blocks = Function.update disk.blocks lba block := rfl

@[simp] theorem total_setBlock (disk : Disk) (lba : Nat) (block : Block) :
    (disk.setBlock lba block).total = disk.total := rfl

def writeBlock (lba : Nat) (payload : List UInt8) : Prog FsError Disk Unit := do
  if payload.length > UB then
    throw (.manifest ("block payload has " ++ toString payload.length ++
      " bytes, maximum is " ++ toString UB))
  else
    let disk ← Prog.gets id
    if lba < disk.total then
      Prog.update fun disk => disk.setBlock lba (Block.pad payload)
    else
      throw (.badBlock lba)

def flush : Prog FsError Disk Unit := do
  let outcome ← Prog.gets fun disk : Disk => disk.flushes 0
  Prog.update fun disk : Disk => { disk with flushes := fun n => disk.flushes (n + 1) }
  match outcome with
  | none => pure ()
  | some e => throw e

def now : Prog FsError Disk UInt64 := do
  let time ← Prog.gets fun disk : Disk => disk.clock 0
  Prog.update fun disk : Disk => { disk with clock := fun n => disk.clock (n + 1) }
  pure time

instance : BlockDevice Disk where
  readBlock := readBlock
  writeBlock := writeBlock
  flush := flush
  now := now

theorem exec_readBlock {disk : Disk} {lba : Nat} (h : lba < disk.total) :
    Prog.exec (BlockDevice.readBlock lba) disk = (.ok (disk.blocks lba), disk) := by
  change Prog.exec (readBlock lba) disk = _
  simp only [readBlock, Prog.exec_bind, Prog.exec_gets, id_eq, if_pos h, Prog.exec_pure]

theorem exec_writeBlock {disk : Disk} {lba : Nat} {payload : List UInt8} (h : lba < disk.total)
    (hp : payload.length ≤ UB) :
    Prog.exec (BlockDevice.writeBlock lba payload) disk =
      (.ok (), disk.setBlock lba (Block.pad payload)) := by
  change Prog.exec (writeBlock lba payload) disk = _
  simp only [writeBlock, if_neg (Nat.not_lt.2 hp), Prog.exec_bind, Prog.exec_gets, id_eq,
    if_pos h, Prog.exec_update]

theorem exec_flush (disk : Disk) :
    Prog.exec BlockDevice.flush disk = (match disk.flushes 0 with
      | none => .ok ()
      | some e => .error e, { disk with flushes := fun n => disk.flushes (n + 1) }) := by
  change Prog.exec flush disk = _
  simp only [flush, Prog.exec_bind, Prog.exec_gets, Prog.exec_update]
  cases disk.flushes 0 <;> rfl

theorem exec_now (disk : Disk) :
    Prog.exec BlockDevice.now disk =
      (.ok (disk.clock 0), { disk with clock := fun n => disk.clock (n + 1) }) := by
  change Prog.exec now disk = _
  simp only [now, Prog.exec_bind, Prog.exec_gets, Prog.exec_update, Prog.exec_pure]

section Ends

variable {disk : Disk} {lba : Nat}

theorem ends_readBlock (h : lba < disk.total) {Q : Block → Disk → Prop} {E : FsError → Disk → Prop}
    (hQ : Q (disk.blocks lba) disk) : Prog.Ends (BlockDevice.readBlock lba) disk Q E := by
  rw [Prog.Ends, exec_readBlock h]
  exact hQ

theorem ends_writeBlock (h : lba < disk.total) {payload : List UInt8} (hp : payload.length ≤ UB)
    {Q : Unit → Disk → Prop} {E : FsError → Disk → Prop}
    (hQ : Q () (disk.setBlock lba (Block.pad payload))) :
    Prog.Ends (BlockDevice.writeBlock lba payload) disk Q E := by
  rw [Prog.Ends, exec_writeBlock h hp]
  exact hQ

theorem ends_writeBlock_bytes (h : lba < disk.total) {block : Block}
    {Q : Unit → Disk → Prop} {E : FsError → Disk → Prop} (hQ : Q () (disk.setBlock lba block)) :
    Prog.Ends (BlockDevice.writeBlock lba block.bytes) disk Q E :=
  ends_writeBlock h (Nat.le_of_eq block.length_bytes) (by rwa [Block.pad_bytes])

/-- A flush changes nothing that is stored. -/
theorem ends_flush {Q : Unit → Disk → Prop} {E : FsError → Disk → Prop}
    (hQ : ∀ flushes, Q () { disk with flushes })
    (hE : ∀ e flushes, disk.flushes 0 = some e → E e { disk with flushes }) :
    Prog.Ends BlockDevice.flush disk Q E := by
  rw [Prog.Ends, exec_flush]
  cases hflush : disk.flushes 0 with
  | none => exact hQ _
  | some e => exact hE e _ hflush

end Ends

end Disk

end AlbumFS

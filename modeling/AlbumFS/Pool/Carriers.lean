import AlbumFS.Stego.Chunk

/-!
# Folders of carriers

A pool is a folder of images. `CarrierFolder` is what the file system uses of it: the names in the
folder and, for each of them, the operations of the trait `CarrierCodec` of `stego/mod.rs`. Names
stand for paths in the folder.

## Main definitions

* `kindFor`: the kind of a carrier.
* `CarrierFolder`: the operations on a folder.
* `ExactChunks`, `ExactFolder`: folders whose codecs store and reload exactly.
-/

namespace AlbumFS

inductive ImageKind where
  | png
  | jpeg
  deriving DecidableEq, Repr

/-- `Path::extension` of a file name. -/
def extension (name : String) : Option String :=
  match name.toList.reverse.span (· ≠ '.') with
  | (_, []) => none
  | (_, [_]) => none
  | (ext, _ :: _ :: _) => some (String.ofList ext.reverse)

def kindFor (name : String) : Option ImageKind :=
  match extension name with
  | none => none
  | some ext =>
    let lower := String.ofList (ext.toList.map Char.toLower)
    if lower = "png" then some .png else if lower = "jpg" ∨ lower = "jpeg" then some .jpeg else none

/-- A folder of carriers and the codec operations on them. An operation that writes returns the
folder that it leaves behind. -/
class CarrierFolder (κ : Type) where
  /-- The path of the folder. -/
  dir : κ → String
  /-- The names of the entries, as `read_dir` lists them. -/
  entries : κ → List String
  /-- `fs::canonicalize` of a path, looked up in the folder where it does not exist as given. -/
  canonicalize : κ → String → Except String String
  rawCapacity : κ → String → Except CodecError Nat
  writeChunk : κ → String → ChunkWrite → List UInt8 → List UInt8 → Except CodecError Unit × κ
  readChunk : κ → String → ChunkRead → List UInt8 → Except CodecError (ChunkMeta × List UInt8)
  writePrefix : κ → String → List UInt8 → Except CodecError Unit × κ
  readPrefix : κ → String → Nat → Except CodecError (List UInt8)

namespace CarrierFolder

variable {κ : Type} [CarrierFolder κ]

/-- `capacity_bytes`: the capacity for a framed payload. -/
def capacity (folder : κ) (name : String) : Except CodecError Nat :=
  (rawCapacity folder name).map (· - CHUNK_HEADER_LEN)

/-- `carrier_paths`: the carriers of a folder in order. -/
def carrierPaths (folder : κ) : List String :=
  ((entries folder).filter fun name => (kindFor name).isSome).mergeSort fun a b => decide (a ≤ b)

theorem mem_carrierPaths {folder : κ} {name : String} :
    name ∈ carrierPaths folder ↔ name ∈ entries folder ∧ (kindFor name).isSome := by
  rw [carrierPaths, List.mem_mergeSort, List.mem_filter]

end CarrierFolder

open CarrierFolder

/-- Chunks are stored and reloaded exactly. A write of a chunk that succeeds is read back, a write
that fails changes nothing, and no write changes what is read from another carrier. -/
structure ExactChunks (κ : Type) [CarrierFolder κ] : Prop where
  read_write : ∀ {folder folder' : κ} {name : String} {mode : ChunkWrite} {payload key : List UInt8},
    writeChunk folder name mode payload key = (.ok (), folder') →
      readChunk folder' name (mode.readBack payload) key = .ok (mode.info, payload)
  read_failed : ∀ {folder folder' : κ} {name : String} {mode : ChunkWrite} {payload key : List UInt8}
    {e : CodecError}, writeChunk folder name mode payload key = (.error e, folder') →
      ∀ mode' key', readChunk folder' name mode' key' = readChunk folder name mode' key'
  read_other : ∀ (folder : κ) {name name' : String} (mode : ChunkWrite) (payload key : List UInt8),
    name' ≠ name → ∀ mode' key',
      readChunk (writeChunk folder name mode payload key).2 name' mode' key' =
        readChunk folder name' mode' key'

/-- The same for prefixes. The entries have distinct names and are not links, capacities fit `u64`,
and writing changes no name and no capacity. -/
structure ExactFolder (κ : Type) [CarrierFolder κ] : Prop extends ExactChunks κ where
  nodup_entries : ∀ folder : κ, (entries folder).Nodup
  canonicalize_entry : ∀ {folder : κ} {name : String}, name ∈ entries folder →
    canonicalize folder name = .ok name
  rawCapacity_lt : ∀ {folder : κ} {name : String} {n : Nat}, rawCapacity folder name = .ok n → n < 2 ^ 64
  entries_writeChunk : ∀ (folder : κ) (name : String) (mode : ChunkWrite) (payload key : List UInt8),
    entries (writeChunk folder name mode payload key).2 = entries folder
  rawCapacity_writeChunk : ∀ (folder : κ) (name name' : String) (mode : ChunkWrite)
    (payload key : List UInt8),
    rawCapacity (writeChunk folder name mode payload key).2 name' = rawCapacity folder name'
  readPrefix_writeChunk : ∀ (folder : κ) {name name' : String} (mode : ChunkWrite)
    (payload key : List UInt8) (length : Nat), name' ≠ name →
      readPrefix (writeChunk folder name mode payload key).2 name' length =
        readPrefix folder name' length
  readPrefix_writePrefix : ∀ {folder folder' : κ} {name : String} {bytes : List UInt8},
    writePrefix folder name bytes = (.ok (), folder') →
      readPrefix folder' name bytes.length = .ok bytes
  readChunk_writePrefix : ∀ (folder : κ) {name name' : String} (bytes : List UInt8), name' ≠ name →
    ∀ mode key, readChunk (writePrefix folder name bytes).2 name' mode key =
      readChunk folder name' mode key
  entries_writePrefix : ∀ (folder : κ) (name : String) (bytes : List UInt8),
    entries (writePrefix folder name bytes).2 = entries folder
  rawCapacity_writePrefix : ∀ (folder : κ) (name name' : String) (bytes : List UInt8),
    rawCapacity (writePrefix folder name bytes).2 name' = rawCapacity folder name'

end AlbumFS

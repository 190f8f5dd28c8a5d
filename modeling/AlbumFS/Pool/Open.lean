import AlbumFS.Fs.Format
import AlbumFS.Pool.Store

/-!
# Formatting and opening a pool

`fs/format.rs`: laying out the carriers of a folder, and opening what was laid out. A plaintext pool is
found by scanning the folder for framed chunks; a markerless one by the bootstrap prefix of its
anchor, which names its carriers.

## Main definitions

* `openPlaintext`, `openWithAnchor`: opening a pool.
* `validateManifestGeometry`: the check of the block ranges.
* `formatWithAnchorOptions`: laying out a pool.
-/

namespace AlbumFS

open CarrierFolder Prog

variable {κ : Type} [CarrierFolder κ]

/-! ### The block ranges -/

/-- The loop of `validate_manifest_geometry`. -/
def validateRanges : Nat → List CarrierRange → Except FsError Nat
  | next, [] => .ok next
  | next, range :: ranges =>
    if range.blockStart.toNat ≠ next ∨ range.blockCount = 0 then
      .error (.manifest "carrier manifest block ranges are not contiguous")
    else
      match checkedAdd next range.blockCount.toNat with
      | none => .error (.manifest "carrier block range overflow")
      | some next => validateRanges next ranges

def validateManifestGeometry (sb : Superblock) : Except FsError Unit := do
  let next ← validateRanges 0 sb.manifest
  if next ≠ sb.totalBlocks.toNat then
    .error (.manifest "carrier manifest total does not match superblock")
  else
    .ok ()

/-! ### Opening -/

/-- The carriers with a framed chunk, in order. -/
def scan (folder : κ) : List (String × ChunkMeta × List UInt8) :=
  (carrierPaths folder).filterMap fun path =>
    match readChunk folder path .framed [] with
    | .error _ => none
    | .ok (info, payload) => some (path, info, payload)

/-- The body of the loop of `open_plaintext` over the manifest. -/
def openRange (folder : κ) (scanned : List (String × ChunkMeta × List UInt8)) (range : CarrierRange) :
    Except FsError (String × Bool) :=
  match scanned.find? fun carrier => decide (carrier.2.1.chunkIndex = range.chunkIndex) with
  | none => .error (.manifest ("missing chunk index " ++ toString range.chunkIndex))
  | some (path, info, payload) => do
    let expected := range.blockCount.toNat * PB % 2 ^ 64
    if payload.length ≠ expected then
      .error (.manifest ("chunk " ++ toString range.chunkIndex ++ " has " ++ toString payload.length ++
        " bytes, expected " ++ toString expected))
    else do
      let available ← (capacity folder path).mapError FsError.codec
      if available < expected then
        .error (.manifest ("chunk " ++ toString range.chunkIndex ++ " no longer has enough capacity"))
      else
        .ok (path, info.flags &&& 1 != 0)

def openPlaintext (folder : κ) : Except FsError (Superblock × BlockStore) :=
  match (scan folder).find? fun carrier => carrier.2.1.flags &&& 1 != 0 with
  | none => .error .noPrimary
  | some (_, _, payload) => do
    if payload.length < PB then
      .error (.manifest "primary carrier is shorter than one block")
    else do
      let blockZero ← readPhysicalBlock 0 (payload.take PB)
      let sb ← Superblock.decode blockZero.bytes
      if sb.encrypted then
        .error .anchorRequired
      else if (scan folder).length ≠ sb.manifest.length then
        .error (.manifest ("found " ++ toString (scan folder).length ++ " carriers, manifest names " ++
          toString sb.manifest.length))
      else do
        let paths ← sb.manifest.mapM (openRange folder (scan folder))
        validateManifestGeometry sb
        .ok (sb, .fromManifest paths sb.manifest none)

/-- The loop of `select_anchor` for the largest carrier. -/
def largestCarrier (folder : κ) : Option (String × Nat) → List String →
    Except FsError (Option (String × Nat))
  | largest, [] => .ok largest
  | largest, path :: paths => do
    let available ← (rawCapacity folder path).mapError FsError.codec
    let larger := match largest with
      | none => true
      | some (_, largestCapacity) => decide (available > largestCapacity)
    largestCarrier folder (if larger then some (path, available) else largest) paths

def selectAnchor (folder : κ) (paths : List String) (requested : Option String) :
    Except FsError String := do
  let anchor ← (match requested with
    | some requested => do
      let canonical ← (canonicalize folder requested).mapError FsError.io
      match paths.find? fun path => decide ((canonicalize folder path).toOption = some canonical) with
      | none => .error (.manifest ("anchor " ++ requested ++ " is not an image carrier in " ++ dir folder))
      | some path => .ok path
    | none => do
      match ← largestCarrier folder none paths with
      | none => .error .emptyPool
      | some (path, _) => .ok path)
  let available ← (rawCapacity folder anchor).mapError FsError.codec
  if available < BOOTSTRAP_LEN then
    .error (.manifest ("anchor " ++ anchor ++ " has " ++ toString available ++
      " usable bytes but the bootstrap requires " ++ toString BOOTSTRAP_LEN))
  else
    .ok anchor

/-- The loop of `open_with_anchor` over the manifest, with the names seen so far. -/
def openRanges (folder : κ) (anchor : String) : List String → List CarrierRange →
    Except FsError (List (String × Bool))
  | _, [] => .ok []
  | seen, range :: ranges => do
    Superblock.validateName range.name
    if range.name ∈ seen then
      .error (.manifest ("duplicate carrier name " ++ reprStr range.name))
    else do
      let canonical ← (canonicalize folder range.name).mapError FsError.io
      let canonicalAnchor ← (canonicalize folder anchor).mapError FsError.io
      if canonical = canonicalAnchor then
        .error (.manifest "anchor must not appear in the data-carrier manifest")
      else if (kindFor range.name).isNone then
        .error (.manifest ("unsupported carrier type: " ++ range.name))
      else
        match checkedMul range.blockCount.toNat PB with
        | none => .error (.manifest "carrier payload length overflow")
        | some expected => do
          let available ← (rawCapacity folder range.name).mapError FsError.codec
          if available < expected then
            .error (.manifest ("carrier " ++ range.name ++ " no longer has enough capacity"))
          else do
            let rest ← openRanges folder anchor (range.name :: seen) ranges
            .ok ((range.name, false) :: rest)

def openWithAnchor (crypto : Crypto) (folder : κ) (anchor passphrase : String) :
    Except FsError (Superblock × BlockStore) := do
  let anchor ← selectAnchor folder (carrierPaths folder) (some anchor)
  let bootstrap ← (readPrefix folder anchor BOOTSTRAP_LEN).mapError FsError.codec
  let (plaintext, keys) ← openBootstrap crypto passphrase bootstrap
  let sb ← (Superblock.decode plaintext.bytes).mapError fun _ => FsError.auth
  if !sb.markerlessEncrypted then
    .error .auth
  else do
    let paths ← openRanges folder anchor [] sb.manifest
    validateManifestGeometry sb
    .ok (sb, .fromManifest paths sb.manifest (some keys))

/-! ### Formatting -/

structure FormatResult where
  superblock : Superblock
  anchor : Option String

/-- The random bytes that formatting draws. -/
structure Randomness where
  salt : Vector UInt8 16
  bootNonce : Vector UInt8 24
  nonces : Nat → Vector UInt8 24

def containsValidPlaintextFilesystem (folder : κ) (paths : List String) : Bool :=
  paths.any fun path =>
    match readChunk folder path .framed [] with
    | .error _ => false
    | .ok (info, payload) =>
      if info.flags &&& 1 = 0 ∨ payload.length < PB then
        false
      else
        match readPhysicalBlock 0 (payload.take PB) with
        | .error _ => false
        | .ok blockZero => (Superblock.decode blockZero.bytes).isOk

def containsValidMarkerlessFilesystem (crypto : Crypto) (folder : κ) (anchor passphrase : String) :
    Except FsError Bool := do
  let bootstrap ← (readPrefix folder anchor BOOTSTRAP_LEN).mapError FsError.codec
  match openBootstrap crypto passphrase bootstrap with
  | .error _ => .ok false
  | .ok (plaintext, _) =>
    match Superblock.decode plaintext.bytes with
    | .error _ => .ok false
    | .ok sb => .ok sb.markerlessEncrypted

/-- The loop over the carriers: those with room for a block, with their names in the manifest and
their numbers of blocks. -/
def usableCarriers (folder : κ) (encrypted : Bool) (anchor : Option String) : List String →
    List String → Except FsError (List (String × String × Nat))
  | _, [] => .ok []
  | names, path :: paths =>
    if anchor = some path then
      usableCarriers folder encrypted anchor names paths
    else do
      let available ← (if encrypted then rawCapacity folder path else capacity folder path).mapError
        FsError.codec
      let blockCount := available / PB
      if blockCount = 0 then
        usableCarriers folder encrypted anchor names paths
      else if encrypted then do
        Superblock.validateName path
        if path ∈ names then
          .error (.manifest ("duplicate carrier name " ++ reprStr path))
        else do
          let rest ← usableCarriers folder encrypted anchor (path :: names) paths
          .ok ((path, path, blockCount) :: rest)
      else do
        let rest ← usableCarriers folder encrypted anchor names paths
        .ok ((path, "", blockCount) :: rest)

/-- The loop that numbers the carriers and lays their ranges out one after the other. -/
def buildManifest : Nat → Nat → List (String × String × Nat) → List CarrierRange
  | _, _, [] => []
  | chunkIndex, blockStart, (_, name, blockCount) :: usable =>
    { name, chunkIndex := UInt32.ofNat chunkIndex, blockStart := UInt64.ofNat blockStart,
      blockCount := UInt64.ofNat blockCount } ::
      buildManifest (chunkIndex + 1) ((blockStart + blockCount) % 2 ^ 64) usable

/-- `total_blocks`. -/
def totalBlocksOf (usable : List (String × String × Nat)) : Nat :=
  (usable.map fun carrier => carrier.2.2).sum % 2 ^ 64

/-- What formatting decides before it writes. -/
structure FormatPlan where
  superblock : Superblock
  anchor : Option String
  bootstrap : Option (List UInt8)
  keys : Option StoreKeys
  paths : List String

def planFormat (crypto : Crypto) (random : Randomness) (folder : κ) (passphrase requested : Option String)
    (force : Bool) : Except FsError FormatPlan :=
  if requested.isSome ∧ passphrase.isNone then
    .error (.manifest "--anchor requires an encrypted format with a passphrase")
  else if carrierPaths folder = [] then
    .error .emptyPool
  else do
    let anchor ← (match passphrase with
      | none => .ok none
      | some _ => (selectAnchor folder (carrierPaths folder) requested).map some)
    if !force && containsValidPlaintextFilesystem folder (carrierPaths folder) then
      .error .alreadyFormatted
    else do
      let guarded ← (match force, passphrase, anchor with
        | false, some passphrase, some anchor =>
          containsValidMarkerlessFilesystem crypto folder anchor passphrase
        | _, _, _ => .ok false)
      if guarded then
        .error .alreadyFormatted
      else do
        let usable ← usableCarriers folder passphrase.isSome anchor [] (carrierPaths folder)
        if usable = [] then
          .error .emptyPool
        else do
          let sb ← layout (totalBlocksOf usable) (buildManifest 0 0 usable) passphrase.isSome
          match passphrase with
          | none =>
            .ok { superblock := sb, anchor, bootstrap := none, keys := none, paths := usable.map (·.1) }
          | some passphrase => do
            let (bootstrap, keys) ←
              createBootstrap crypto random.salt random.bootNonce passphrase sb.encode
            .ok { superblock := sb, anchor, bootstrap := some bootstrap, keys := some keys,
                  paths := usable.map (·.1) }

/-- The pool in which formatting fills the blocks. -/
def FormatPlan.pool (plan : FormatPlan) (crypto : Crypto) (random : Randomness) (folder : κ) :
    Pool κ crypto where
  folder := folder
  store := .newForFormat plan.paths plan.superblock.manifest plan.keys
  nonces := random.nonces
  clock := fun _ => 0

/-- The result of formatting, and the folder that it leaves behind. -/
def formatWithAnchorOptions (crypto : Crypto) (random : Randomness) (folder : κ)
    (passphrase requested : Option String) (force : Bool) : Except FsError FormatResult × κ :=
  match planFormat crypto random folder passphrase requested force with
  | .error e => (.error e, folder)
  | .ok plan =>
    match exec (formatStore plan.superblock) (plan.pool crypto random folder) with
    | (.error e, pool) => (.error e, pool.folder)
    | (.ok (), pool) =>
      match plan.anchor, plan.bootstrap with
      | some anchor, some bootstrap =>
        ((writePrefix pool.folder anchor bootstrap).1.mapError FsError.codec |>.map fun _ =>
            { superblock := plan.superblock, anchor := plan.anchor },
          (writePrefix pool.folder anchor bootstrap).2)
      | _, _ => (.ok { superblock := plan.superblock, anchor := plan.anchor }, pool.folder)

end AlbumFS

import AlbumFS.Fs.Device
import AlbumFS.Fs.Superblock

/-!
# Physical blocks

The blocks of a carrier as `fs/mod.rs` and `fs/crypto.rs` build and read them. A plaintext block has
a checksum; an encrypted one has a nonce and a tag before the checksum, and its address is
authenticated with it. The bootstrap prefix of an anchor holds the encrypted superblock.

The cipher, the password hash and the key derivation come from outside the repository and are the
functions of a `Crypto`. Random bytes are arguments.

## Main definitions

* `buildPhysicalBlock`, `readPhysicalBlock`: plaintext blocks.
* `BlockCipher.encode`, `BlockCipher.decode`: encrypted blocks.
* `createBootstrap`, `openBootstrap`: the bootstrap prefix.

## Main results

* `readPhysicalBlock_build`, `BlockCipher.decode_encode`, `openBootstrap_create`: what was built is
  read back.
-/

namespace AlbumFS

/-! ### Plaintext blocks -/

def buildPhysicalBlock (payload : List UInt8) : List UInt8 :=
  let blk := overwrite (List.replicate PB 0) BLOCK_HEADER payload
  overwrite blk 40 (u32LE (crc32 (blk.drop BLOCK_HEADER)))

def readPhysicalBlock (lba : Nat) (blk : List UInt8) : Except FsError Block :=
  if blk.length ≠ PB then
    .error (.manifest ("physical block " ++ toString lba ++ " has " ++ toString blk.length ++
      " bytes, expected " ++ toString PB))
  else if crc32 (slice blk BLOCK_HEADER UB) ≠ u32At blk 40 then
    .error (.blockCrc lba)
  else
    .ok (Block.pad (slice blk BLOCK_HEADER UB))

/-! ### Encrypted blocks -/

abbrev Key := Vector UInt8 32

/-- `XChaCha20Poly1305` on a buffer in place, with a nonce of 24 bytes and a tag of 16, `Argon2id`
with the parameters of the format, and `blake3::derive_key`. -/
structure Crypto where
  encrypt : (key : Key) → (nonce aad : List UInt8) → Block → Option (Block × List UInt8)
  decrypt : (key : Key) → (nonce aad : List UInt8) → Block → (tag : List UInt8) → Option Block
  hashPassword : (passphrase salt : List UInt8) → Option (List UInt8)
  deriveKey : String → List UInt8 → Key
  length_tag : ∀ {key nonce aad plaintext ciphertext tag},
    encrypt key nonce aad plaintext = some (ciphertext, tag) → tag.length = 16

/-- Decryption inverts encryption. -/
structure Crypto.Exact (crypto : Crypto) : Prop where
  decrypt_encrypt : ∀ {key nonce aad plaintext ciphertext tag},
    crypto.encrypt key nonce aad plaintext = some (ciphertext, tag) →
      crypto.decrypt key nonce aad ciphertext tag = some plaintext

/-- A cipher that leaves the plaintext as it is. -/
def Crypto.identity : Crypto where
  encrypt _ _ _ plaintext := some (plaintext, List.replicate 16 0)
  decrypt _ _ _ ciphertext _ := some ciphertext
  hashPassword passphrase salt := some (passphrase ++ salt)
  deriveKey _ _ := Vector.replicate 32 0
  length_tag := by
    intro _ _ _ _ _ _ h
    obtain ⟨-, rfl⟩ := Prod.mk.inj (Option.some.inj h)
    rfl

theorem Crypto.identity_exact : Crypto.identity.Exact where
  decrypt_encrypt := by
    intro _ _ _ _ _ _ h
    obtain ⟨rfl, -⟩ := Prod.mk.inj (Option.some.inj h)
    rfl

structure BlockCipher where
  key : Key
  deriving DecidableEq

def BlockCipher.encode (crypto : Crypto) (cipher : BlockCipher) (nonce : Vector UInt8 24) (lba : Nat)
    (payload : List UInt8) : Except FsError (List UInt8) :=
  if payload.length > UB then
    .error (.manifest ("block payload has " ++ toString payload.length ++ " bytes, maximum is " ++
      toString UB))
  else
    match crypto.encrypt cipher.key nonce.toList (u64LE (UInt64.ofNat lba)) (Block.pad payload) with
    | none => .error .auth
    | some (ciphertext, tag) =>
      let block := overwriteAll (List.replicate PB 0)
        [(0, nonce.toList), (24, tag), (BLOCK_HEADER, ciphertext.bytes)]
      .ok (overwrite block 40 (u32LE (crc32 (block.drop BLOCK_HEADER))))

def BlockCipher.decode (crypto : Crypto) (cipher : BlockCipher) (lba : Nat) (block : List UInt8) :
    Except FsError Block :=
  if block.length ≠ PB then
    .error .auth
  else if crc32 (block.drop BLOCK_HEADER) ≠ u32At block 40 then
    .error .auth
  else
    match crypto.decrypt cipher.key (slice block 0 24) (u64LE (UInt64.ofNat lba))
        (Block.pad (block.drop BLOCK_HEADER)) (slice block 24 16) with
    | none => .error .auth
    | some plaintext => .ok plaintext

/-! ### The bootstrap prefix -/

def BOOTSTRAP_LEN : Nat := 16 + 24 + 16 + UB

def BOOT_AAD : List UInt8 := utf8 "albumfs-superblock-v1"

structure DerivedKeys where
  block : Key
  order : Key
  boot : Key

structure StoreKeys where
  cipher : BlockCipher
  order : Key
  deriving DecidableEq

def deriveKeys (crypto : Crypto) (passphrase : String) (salt : List UInt8) :
    Except FsError DerivedKeys :=
  match crypto.hashPassword (utf8 passphrase) salt with
  | none => .error .auth
  | some master =>
    .ok
      { block := crypto.deriveKey "albumfs block v1" master
        order := crypto.deriveKey "albumfs order v1" master
        boot := crypto.deriveKey "albumfs boot v1" master }

def createBootstrap (crypto : Crypto) (salt : Vector UInt8 16) (nonce : Vector UInt8 24)
    (passphrase : String) (encoded : List UInt8) : Except FsError (List UInt8 × StoreKeys) :=
  if encoded.length > UB then
    .error (.manifest ("encrypted superblock is " ++ toString encoded.length ++
      " bytes; the anchor bootstrap supports at most " ++ toString UB ++
      " bytes and fewer carriers or shorter names are required"))
  else do
    let keys ← deriveKeys crypto passphrase salt.toList
    match crypto.encrypt keys.boot nonce.toList BOOT_AAD (Block.pad encoded) with
    | none => .error .auth
    | some (ciphertext, tag) =>
      .ok (overwriteAll (List.replicate BOOTSTRAP_LEN 0)
          [(0, salt.toList), (16, nonce.toList), (40, tag), (56, ciphertext.bytes)],
        { cipher := { key := keys.block }, order := keys.order })

def openBootstrap (crypto : Crypto) (passphrase : String) (bootstrap : List UInt8) :
    Except FsError (Block × StoreKeys) :=
  if bootstrap.length ≠ BOOTSTRAP_LEN then
    .error .auth
  else do
    let keys ← deriveKeys crypto passphrase (slice bootstrap 0 16)
    match crypto.decrypt keys.boot (slice bootstrap 16 24) BOOT_AAD
        (Block.pad (bootstrap.drop 56)) (slice bootstrap 40 16) with
    | none => .error .auth
    | some plaintext => .ok (plaintext, { cipher := { key := keys.block }, order := keys.order })

/-! ### Reading back -/

section

variable {payload encoded bootstrap block : List UInt8} {lba : Nat} {crypto : Crypto}
  {cipher : BlockCipher} {nonce : Vector UInt8 24} {salt : Vector UInt8 16} {passphrase : String}
  {keys : StoreKeys}

@[simp] theorem length_buildPhysicalBlock (payload : List UInt8) :
    (buildPhysicalBlock payload).length = PB := by
  rw [buildPhysicalBlock, length_overwrite, length_overwrite, List.length_replicate]

/-- The payload of a block, zero-padded. -/
theorem drop_overwrite_header (h : payload.length ≤ UB) :
    (overwrite (List.replicate PB 0) BLOCK_HEADER payload).drop BLOCK_HEADER =
      (Block.pad payload).bytes := by
  have hlen : (List.replicate BLOCK_HEADER (0 : UInt8)).length = BLOCK_HEADER := List.length_replicate
  have hrow : overwrite (List.replicate BLOCK_HEADER (0 : UInt8) ++ List.replicate UB 0) BLOCK_HEADER payload =
      List.replicate BLOCK_HEADER 0 ++ payload ++ (List.replicate UB 0).drop payload.length := by
    conv_lhs => rw [← hlen]
    exact overwrite_append (by rwa [List.length_replicate])
  rw [show PB = BLOCK_HEADER + UB from rfl, List.replicate_add, hrow, List.append_assoc,
    List.drop_left' hlen, List.drop_replicate, Block.pad]
  dsimp only
  rw [List.take_of_length_le h]

/-- A plaintext block is read back. -/
theorem readPhysicalBlock_build (h : payload.length ≤ UB) :
    readPhysicalBlock lba (buildPhysicalBlock payload) = .ok (Block.pad payload) := by
  have hdrop := drop_overwrite_header h
  have hlen : (overwrite (List.replicate PB (0 : UInt8)) BLOCK_HEADER payload).length = PB := by
    rw [length_overwrite, List.length_replicate]
  have hbytes : slice (buildPhysicalBlock payload) BLOCK_HEADER UB = (Block.pad payload).bytes := by
    rw [buildPhysicalBlock, slice_overwrite_of_disjoint (by rw [length_u32LE]; decide), ← hdrop,
      slice, List.take_of_length_le]
    rw [List.length_drop, hlen, UB]
  have hcrc : u32At (buildPhysicalBlock payload) 40 = crc32 (Block.pad payload).bytes := by
    apply u32At_eq
    have hself := @slice_overwrite_self _ (overwrite (List.replicate PB (0 : UInt8)) BLOCK_HEADER payload)
      40 (u32LE (crc32 (Block.pad payload).bytes)) (by rw [length_u32LE, hlen]; decide)
    rw [length_u32LE] at hself
    rw [buildPhysicalBlock, hdrop, hself]
  rw [readPhysicalBlock, if_neg (not_not.2 (length_buildPhysicalBlock _)), hbytes, hcrc,
    if_neg (fun hne => hne rfl), Block.pad_bytes]

/-- The parts of an encrypted block. -/
theorem encode_spec (h : cipher.encode crypto nonce lba payload = .ok block) : payload.length ≤ UB ∧
    block.length = PB ∧ ∃ ciphertext tag, crypto.encrypt cipher.key nonce.toList
        (u64LE (UInt64.ofNat lba)) (Block.pad payload) = some (ciphertext, tag) ∧
      slice block 0 24 = nonce.toList ∧ slice block 24 16 = tag ∧
      u32At block 40 = crc32 ciphertext.bytes ∧ block.drop BLOCK_HEADER = ciphertext.bytes := by
  unfold BlockCipher.encode at h
  split_ifs at h with hlen
  cases hencrypt : crypto.encrypt cipher.key nonce.toList (u64LE (UInt64.ofNat lba))
      (Block.pad payload) with
  | none => simp [hencrypt] at h
  | some result =>
    obtain ⟨ciphertext, tag⟩ := result
    have htag := crypto.length_tag hencrypt
    rw [hencrypt] at h
    dsimp only at h
    have hsealed : (overwriteAll (List.replicate PB (0 : UInt8))
        [(0, nonce.toList), (24, tag), (BLOCK_HEADER, ciphertext.bytes)]).length = PB := by
      rw [length_overwriteAll, List.length_replicate]
    have hpairwise : [(0, nonce.toList), (24, tag), (BLOCK_HEADER, ciphertext.bytes)].Pairwise
        fun w w' => w.1 + w.2.length ≤ w'.1 ∨ w'.1 + w'.2.length ≤ w.1 := by
      simp [htag, BLOCK_HEADER]
    have hslice : ∀ w ∈ [(0, nonce.toList), (24, tag), (BLOCK_HEADER, ciphertext.bytes)],
        w.1 + w.2.length ≤ PB → slice (overwriteAll (List.replicate PB (0 : UInt8))
          [(0, nonce.toList), (24, tag), (BLOCK_HEADER, ciphertext.bytes)]) w.1 w.2.length = w.2 :=
      fun w hw hle => slice_overwriteAll hpairwise hw (by rwa [List.length_replicate])
    simp only [List.forall_mem_cons, Vector.length_toList, htag, ciphertext.length_bytes] at hslice
    obtain ⟨hnonce, htagSlice, hbytes, -⟩ := hslice
    have hdrop : (overwriteAll (List.replicate PB (0 : UInt8))
        [(0, nonce.toList), (24, tag), (BLOCK_HEADER, ciphertext.bytes)]).drop BLOCK_HEADER =
          ciphertext.bytes := by
      refine Eq.trans ?_ (hbytes (by decide))
      rw [slice, List.take_of_length_le (by rw [List.length_drop, hsealed, UB])]
    rw [hdrop] at h
    obtain rfl := Except.ok.inj h
    refine ⟨Nat.not_lt.1 hlen, by rw [length_overwrite, hsealed], ciphertext, tag, rfl, ?_, ?_, ?_, ?_⟩
    · rw [slice_overwrite_of_disjoint (Or.inl (by decide)), hnonce (by decide)]
    · rw [slice_overwrite_of_disjoint (Or.inl (by decide)), htagSlice (by decide)]
    · apply u32At_eq
      have hself := @slice_overwrite_self _ (overwriteAll (List.replicate PB (0 : UInt8))
        [(0, nonce.toList), (24, tag), (BLOCK_HEADER, ciphertext.bytes)]) 40
        (u32LE (crc32 ciphertext.bytes)) (by rw [length_u32LE, hsealed]; decide)
      rwa [length_u32LE] at hself
    · have hkept := @slice_overwrite_of_disjoint _ (overwriteAll (List.replicate PB (0 : UInt8))
        [(0, nonce.toList), (24, tag), (BLOCK_HEADER, ciphertext.bytes)]) 40
        (u32LE (crc32 ciphertext.bytes)) BLOCK_HEADER UB (by rw [length_u32LE]; decide)
      rw [hbytes (by decide), slice, List.take_of_length_le] at hkept
      · exact hkept
      · rw [List.length_drop, length_overwrite, hsealed, UB]

/-- An encrypted block is read back at its address. -/
theorem BlockCipher.decode_encode (hexact : crypto.Exact)
    (h : cipher.encode crypto nonce lba payload = .ok block) :
    cipher.decode crypto lba block = .ok (Block.pad payload) := by
  obtain ⟨-, hlen, ciphertext, tag, hencrypt, hnonce, htag, hcrc, hdrop⟩ := encode_spec h
  rw [BlockCipher.decode, if_neg (not_not.2 hlen), hdrop, hcrc, if_neg (fun hne => hne rfl), hnonce, htag,
    Block.pad_bytes, hexact.decrypt_encrypt hencrypt]

/-- The bootstrap prefix is opened with the passphrase it was made with. -/
theorem openBootstrap_create (hexact : crypto.Exact)
    (h : createBootstrap crypto salt nonce passphrase encoded = .ok (bootstrap, keys)) :
    encoded.length ≤ UB ∧ bootstrap.length = BOOTSTRAP_LEN ∧
      openBootstrap crypto passphrase bootstrap = .ok (Block.pad encoded, keys) := by
  unfold createBootstrap at h
  split_ifs at h with hlen
  cases hkeys : deriveKeys crypto passphrase salt.toList with
  | error e => simp [hkeys, bind, Except.bind] at h
  | ok derived =>
    simp only [hkeys, bind, Except.bind] at h
    cases hencrypt : crypto.encrypt derived.boot nonce.toList BOOT_AAD (Block.pad encoded) with
    | none => simp [hencrypt] at h
    | some result =>
      obtain ⟨ciphertext, tag⟩ := result
      have htag := crypto.length_tag hencrypt
      rw [hencrypt] at h
      obtain ⟨rfl, rfl⟩ := Prod.mk.inj (Except.ok.inj h)
      have hboot : (overwriteAll (List.replicate BOOTSTRAP_LEN (0 : UInt8))
          [(0, salt.toList), (16, nonce.toList), (40, tag), (56, ciphertext.bytes)]).length =
            BOOTSTRAP_LEN := by
        rw [length_overwriteAll, List.length_replicate]
      have hpairwise : [(0, salt.toList), (16, nonce.toList), (40, tag), (56, ciphertext.bytes)].Pairwise
          fun w w' => w.1 + w.2.length ≤ w'.1 ∨ w'.1 + w'.2.length ≤ w.1 := by
        simp [htag]
      have hslice : ∀ w ∈ [(0, salt.toList), (16, nonce.toList), (40, tag), (56, ciphertext.bytes)],
          w.1 + w.2.length ≤ BOOTSTRAP_LEN → slice (overwriteAll (List.replicate BOOTSTRAP_LEN (0 : UInt8))
            [(0, salt.toList), (16, nonce.toList), (40, tag), (56, ciphertext.bytes)]) w.1 w.2.length =
              w.2 :=
        fun w hw hle => slice_overwriteAll hpairwise hw (by rwa [List.length_replicate])
      simp only [List.forall_mem_cons, Vector.length_toList, htag, ciphertext.length_bytes] at hslice
      obtain ⟨hsalt, hnonce, htagSlice, hbytes, -⟩ := hslice
      have hdrop : (overwriteAll (List.replicate BOOTSTRAP_LEN (0 : UInt8))
          [(0, salt.toList), (16, nonce.toList), (40, tag), (56, ciphertext.bytes)]).drop 56 =
            ciphertext.bytes := by
        refine Eq.trans ?_ (hbytes (by decide))
        rw [slice, List.take_of_length_le (by rw [List.length_drop, hboot]; decide)]
      refine ⟨Nat.not_lt.1 hlen, hboot, ?_⟩
      rw [openBootstrap, if_neg (not_not.2 hboot), hsalt (by decide), hkeys]
      simp only [bind, Except.bind]
      rw [hnonce (by decide), htagSlice (by decide), hdrop, Block.pad_bytes,
        hexact.decrypt_encrypt hencrypt]

end

end AlbumFS

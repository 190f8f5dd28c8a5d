import AlbumFS.Pool.RoundTrip

/-!
# Forged blocks

A history of formatting, opening, reading, writing and flushing markerless pools, in which an adversary
may replace the whole folder at any time. The cipher is ideal: what it decrypts was encrypted before. The
encryptions and the writes of a history are recorded next to the pool that is open.

## Main definitions

* `Sealing`, `Crypto.Ideal`: encryptions, and ciphers that decrypt nothing else.
* `Audited`: a pool with its encryptions and its writes so far.
* `PoolEvent`, `afterEvents`: histories.

## Main results

* `Audited.formatStore_pool`: recording changes nothing.
* `Audited.Sound.afterEvents`: every encrypted block is a block that was written.
* `readBlock_genuine`: a read returns what was written at its address.
-/

namespace AlbumFS

open CarrierFolder Prog

/-! ### Ideal ciphers -/

/-- An encryption: what went in and what came out. -/
structure Sealing where
  key : Key
  nonce : List UInt8
  aad : List UInt8
  plaintext : Block
  ciphertext : Block
  tag : List UInt8
  deriving DecidableEq

/-- The encryption that a call of the cipher makes. -/
def Crypto.sealing (crypto : Crypto) (key : Key) (nonce aad : List UInt8) (plaintext : Block) :
    List Sealing :=
  match crypto.encrypt key nonce aad plaintext with
  | none => []
  | some (ciphertext, tag) => [{ key, nonce, aad, plaintext, ciphertext, tag }]

/-- Decryption succeeds only for what was encrypted, and returns that plaintext. -/
def Crypto.Ideal (crypto : Crypto) (sealings : List Sealing) : Prop :=
  ∀ key nonce aad ciphertext tag plaintext,
    crypto.decrypt key nonce aad ciphertext tag = some plaintext →
      ({ key, nonce, aad, plaintext, ciphertext, tag } : Sealing) ∈ sealings

theorem Crypto.mem_sealing {crypto : Crypto} {key : Key} {nonce aad : List UInt8} {plaintext : Block}
    {entry : Sealing} (h : entry ∈ crypto.sealing key nonce aad plaintext) :
    entry.key = key ∧ entry.aad = aad ∧ entry.plaintext = plaintext := by
  unfold Crypto.sealing at h
  cases hencrypt : crypto.encrypt key nonce aad plaintext with
  | none => simp [hencrypt] at h
  | some result =>
    rw [hencrypt] at h
    obtain rfl := List.mem_singleton.1 h
    exact ⟨rfl, rfl, rfl⟩

/-! ### Recording -/

/-- A call of `write_block` that returned `Ok` on a store with that key. -/
structure BlockWrite where
  key : Key
  lba : Nat
  payload : List UInt8

variable {κ : Type} [CarrierFolder κ] {crypto : Crypto}

namespace Pool

/-- The encryption that `write_block` makes. -/
def sealings (pool : Pool κ crypto) (lba : Nat) (payload : List UInt8) : List Sealing :=
  if payload.length > UB then
    []
  else
    match pool.store.carrierFor lba with
    | .error _ => []
    | .ok i =>
      match (exec (ensureLoaded i) pool).1, pool.store.encrypted, pool.store.cipher with
      | .ok (), true, some cipher =>
        crypto.sealing cipher.key (pool.nonces 0).toList (u64LE (UInt64.ofNat lba)) (Block.pad payload)
      | _, _, _ => []

/-- The write that `write_block` makes. -/
def written (pool : Pool κ crypto) (lba : Nat) (payload : List UInt8) : List BlockWrite :=
  match (exec (writeBlock lba payload) pool).1, pool.store.cipher with
  | .ok (), some cipher => [{ key := cipher.key, lba, payload }]
  | _, _ => []

end Pool

/-- A pool with its encryptions and its writes so far. -/
structure Audited (κ : Type) (crypto : Crypto) where
  pool : Pool κ crypto
  sealings : List Sealing
  writes : List BlockWrite

namespace Audited

def onPool {α : Type} (m : Prog FsError (Pool κ crypto) α) : Prog FsError (Audited κ crypto) α :=
  onPart Audited.pool (fun pool audited => { audited with pool }) m

/-- Record a call of `write_block` before it is made. -/
def record (lba : Nat) (payload : List UInt8) (audited : Audited κ crypto) : Audited κ crypto :=
  { audited with
    sealings := audited.pool.sealings lba payload ++ audited.sealings
    writes := audited.pool.written lba payload ++ audited.writes }

instance : BlockDevice (Audited κ crypto) where
  readBlock lba := onPool (BlockDevice.readBlock lba)
  writeBlock lba payload := do
    update (record lba payload)
    onPool (BlockDevice.writeBlock lba payload)
  flush := onPool BlockDevice.flush
  now := onPool BlockDevice.now

/-- Recording changes nothing of what the operations of a device do. -/
theorem linkedDevices : LinkedDevices fun (audited : Audited κ crypto) pool => audited.pool = pool where
  readBlock lba := by
    rintro audited _ rfl
    exact ⟨rfl, fun _ _ => trivial, rfl⟩
  writeBlock lba payload := by
    rintro audited _ rfl
    exact ⟨rfl, fun _ _ => trivial, rfl⟩
  flush := by
    rintro audited _ rfl
    exact ⟨rfl, fun _ _ => trivial, rfl⟩

/-- Recording changes nothing of what formatting does. -/
theorem formatStore_pool (sb : Superblock) (audited : Audited κ crypto) :
    (exec (formatStore sb) audited).1 = (exec (formatStore sb) audited.pool).1 ∧
      (exec (formatStore sb) audited).2.pool = (exec (formatStore sb) audited.pool).2 := by
  obtain ⟨hresult, -, hstate⟩ := linkedDevices.formatStore sb audited audited.pool rfl
  exact ⟨hresult, hstate⟩

end Audited

/-! ### Every encrypted block is written -/

section Write

variable {pool pool' : Pool κ crypto} {base : BlockStore} {i lba : Nat} {payload : List UInt8}

/-- What loading a slot does when it succeeds. -/
theorem exec_ensureLoaded_ok (h : exec (Pool.ensureLoaded i) pool = (.ok (), pool')) :
    ∃ slot buffer, pool.store.carriers[i]? = some slot ∧
      pool' = pool.setSlot i { slot with buffer := some buffer } ∧
      (slot.buffer = some buffer ∨ pool.store.fetch pool.folder slot = .ok buffer) := by
  rw [Pool.ensureLoaded] at h
  obtain ⟨slot, t, hslot, h⟩ := exec_bind_ok h
  cases hi : pool.store.carriers[i]? with
  | none =>
    rw [Pool.slotAt, exec_bind, exec_gets] at hslot
    simp only [id, hi] at hslot
    cases hslot
  | some slot' =>
    rw [exec_slotAt hi] at hslot
    obtain ⟨hok, rfl⟩ := Prod.mk.inj hslot
    obtain rfl := Except.ok.inj hok
    cases hbuffer : slot'.buffer with
    | some buffer =>
      simp only [hbuffer] at h
      obtain ⟨-, rfl⟩ := Prod.mk.inj h
      refine ⟨slot', buffer, rfl, ?_, Or.inl hbuffer⟩
      have hself : { slot' with buffer := some buffer } = slot' := by rw [← hbuffer]
      obtain ⟨hlt, rfl⟩ := List.getElem?_eq_some_iff.1 hi
      rw [hself, Pool.setSlot, List.set_getElem_self]
    | none =>
      simp only [hbuffer] at h
      rw [exec_bind, exec_gets, id] at h
      obtain ⟨buffer, u, hfetch, h⟩ := exec_bind_ok h
      rw [Pool.ofResult, exec_ofExcept] at hfetch
      obtain ⟨hok, rfl⟩ := Prod.mk.inj hfetch
      obtain ⟨-, rfl⟩ := Prod.mk.inj h
      exact ⟨slot', buffer, rfl, rfl, Or.inr (except_mapError_ok hok)⟩

/-- A call of `write_block` that encrypts a block returns `Ok`. -/
theorem sealings_written (hfits : base.Fits) (h : Loaded pool base) {entry : Sealing}
    (hentry : entry ∈ pool.sealings lba payload) : ∃ write ∈ pool.written lba payload,
      write.lba < 2 ^ 64 ∧ entry.key = write.key ∧ entry.aad = u64LE (UInt64.ofNat write.lba) ∧
        entry.plaintext = Block.pad write.payload := by
  unfold Pool.sealings at hentry
  split_ifs at hentry with hlen
  · cases hentry
  cases hfor : pool.store.carrierFor lba with
  | error e => simp [hfor] at hentry
  | ok i =>
    rcases hload : exec (Pool.ensureLoaded i) pool with ⟨_ | ⟨⟩, pool'⟩
    · simp [hfor, hload] at hentry
    rcases hencrypted : pool.store.encrypted with _ | _
    · simp [hfor, hload, hencrypted] at hentry
    cases hcipher : pool.store.cipher with
    | none => simp [hfor, hload, hencrypted, hcipher] at hentry
    | some cipher =>
      simp only [hfor, hload, hencrypted, hcipher] at hentry
      obtain ⟨hkey, haad, hplaintext⟩ := Crypto.mem_sealing hentry
      obtain ⟨slot, buffer, hi, hpool', hbuffer⟩ := exec_ensureLoaded_ok hload
      have hslot := h.base_slot hi
      obtain ⟨hlt, hcovers⟩ := BlockStore.covers_of_carrierFor hfor hi
      have hlength : buffer.length = slot.expected :=
        hbuffer.elim (h.length i slot buffer hi) fetch_length
      have hin : slot.offset lba + PB ≤ buffer.length := by
        have hle := hfits.offset_le hslot (show slot.unloaded.covers lba = true from hcovers)
        rw [hlength]
        exact hle
      -- the cipher has produced a ciphertext, so that the block is stored
      have hencode : ∃ block, cipher.encode crypto (pool.nonces 0) lba payload = .ok block := by
        unfold Crypto.sealing at hentry
        rw [BlockCipher.encode, if_neg hlen]
        cases hresult : crypto.encrypt cipher.key (pool.nonces 0).toList (u64LE (UInt64.ofNat lba))
            (Block.pad payload) with
        | none => simp [hresult] at hentry
        | some result => exact ⟨_, rfl⟩
      obtain ⟨block, hencode⟩ := hencode
      have hwrite : (exec (Pool.writeBlock lba payload) pool).1 = .ok () := by
        obtain ⟨result, nonces, hexec, -, hresult⟩ := exec_encodeBlock pool' lba payload
        subst hpool'
        rw [if_pos (show (pool.setSlot i _).store.encrypted = true from hencrypted)] at hresult
        simp only [show (pool.setSlot i { slot with buffer := some buffer }).store.cipher = some cipher
          from hcipher, show (pool.setSlot i { slot with buffer := some buffer }).nonces = pool.nonces
          from rfl, hencode, Except.mapError] at hresult
        subst hresult
        rw [Pool.writeBlock, if_neg hlen, exec_bind, exec_gets]
        dsimp only [id]
        rw [exec_bind, Pool.ofResult, exec_ofExcept, hfor]
        dsimp only [Except.mapError]
        rw [exec_bind, hload]
        dsimp only
        rw [exec_bind, exec_slotAt (getElem?_setSlot hi)]
        dsimp only
        rw [exec_bind, hexec]
        dsimp only
        rw [if_pos (show CarrierSlot.offset { slot with buffer := some buffer } lba + PB ≤ buffer.length
          from hin)]
        rfl
      refine ⟨{ key := cipher.key, lba, payload }, ?_, ?_, hkey, haad, hplaintext⟩
      · simp only [Pool.written, hwrite, hcipher, List.mem_singleton]
      · exact Nat.lt_trans hlt pool.store.totalBlocks.toNat_lt

end Write

/-- Every encryption so far is that of a bootstrap prefix or of a block that was written. -/
structure Audited.Sound (audited : Audited κ crypto) : Prop where
  loaded : Loaded audited.pool audited.pool.store.reopened
  fits : audited.pool.store.reopened.Fits
  genuine : ∀ entry ∈ audited.sealings, entry.aad = BOOT_AAD ∨ ∃ write ∈ audited.writes,
    write.lba < 2 ^ 64 ∧ entry.key = write.key ∧ entry.aad = u64LE (UInt64.ofNat write.lba) ∧
      entry.plaintext = Block.pad write.payload

namespace Audited.Sound

variable {audited : Audited κ crypto}

omit [CarrierFolder κ] in
/-- A program of the store that keeps what is loaded. -/
theorem onPool (h : audited.Sound) {α : Type} {m : Prog FsError (Pool κ crypto) α}
    (hm : Loaded (exec m audited.pool).2 audited.pool.store.reopened) :
    (exec (Audited.onPool m) audited).2.Sound := by
  change Sound { audited with pool := (exec m audited.pool).2 }
  refine ⟨?_, ?_, h.genuine⟩
  · rw [hm.reopened]
    exact hm
  · rw [hm.reopened]
    exact h.fits

/-- A recorded call. -/
theorem record (h : audited.Sound) (lba : Nat) (payload : List UInt8) :
    (audited.record lba payload).Sound := by
  refine ⟨h.loaded, h.fits, fun entry hentry => ?_⟩
  rcases List.mem_append.1 hentry with hnew | hold
  · obtain ⟨write, hwrite, hgenuine⟩ := sealings_written h.fits h.loaded hnew
    exact Or.inr ⟨write, List.mem_append_left _ hwrite, hgenuine⟩
  · refine (h.genuine entry hold).imp id ?_
    rintro ⟨write, hwrite, hgenuine⟩
    exact ⟨write, List.mem_append_right _ hwrite, hgenuine⟩

theorem readBlock (h : audited.Sound) (lba : Nat) :
    (exec (BlockDevice.readBlock lba : Prog FsError (Audited κ crypto) Block) audited).2.Sound :=
  h.onPool ((Loaded.storeInvariant _).readBlock lba h.loaded).state

theorem writeBlock (h : audited.Sound) (lba : Nat) (payload : List UInt8) :
    (exec (BlockDevice.writeBlock lba payload : Prog FsError (Audited κ crypto) Unit) audited).2.Sound :=
  (h.record lba payload).onPool ((Loaded.storeInvariant _).writeBlock lba payload h.loaded).state

theorem flush (h : audited.Sound) :
    (exec (BlockDevice.flush : Prog FsError (Audited κ crypto) Unit) audited).2.Sound :=
  h.onPool ((Loaded.storeInvariant _).flush h.loaded).state

/-- Filling the blocks of a pool. -/
theorem formatStore (h : audited.Sound) (sb : Superblock) :
    (exec (AlbumFS.formatStore sb) audited).2.Sound := by
  have hlinked : LinkedDevices fun (a b : Audited κ crypto) => a = b ∧ a.Sound :=
    { readBlock := fun lba => by
        rintro a _ ⟨rfl, ha⟩
        exact ⟨rfl, fun _ _ => trivial, rfl, ha.readBlock lba⟩
      writeBlock := fun lba payload => by
        rintro a _ ⟨rfl, ha⟩
        exact ⟨rfl, fun _ _ => trivial, rfl, ha.writeBlock lba payload⟩
      flush := by
        rintro a _ ⟨rfl, ha⟩
        exact ⟨rfl, fun _ _ => trivial, rfl, ha.flush⟩ }
  exact (hlinked.formatStore sb audited audited ⟨rfl, h⟩).2.2.2

end Audited.Sound

/-! ### Histories -/

/-- The encryption of the bootstrap prefix. -/
def bootSealings (crypto : Crypto) (random : Randomness) (passphrase : Option String)
    (sb : Superblock) : List Sealing :=
  match passphrase with
  | none => []
  | some passphrase =>
    match deriveKeys crypto passphrase random.salt.toList with
    | .error _ => []
    | .ok keys => crypto.sealing keys.boot random.bootNonce.toList BOOT_AAD (Block.pad sb.encode)

/-- A format of the folder, with the encryptions and the writes that it makes. -/
def Audited.format (audited : Audited κ crypto) (random : Randomness)
    (passphrase requested : Option String) (force : Bool) : Audited κ crypto :=
  let folder := audited.pool.folder
  match planFormat crypto random folder passphrase requested force with
  | .error _ => audited
  | .ok plan =>
    let formatted := (exec (formatStore plan.superblock)
      ({ pool := plan.pool crypto random folder
         sealings := bootSealings crypto random passphrase plan.superblock ++ audited.sealings
         writes := audited.writes } : Audited κ crypto)).2
    { pool := { audited.pool with
        folder := (formatWithAnchorOptions crypto random folder passphrase requested force).2 }
      sealings := formatted.sealings
      writes := formatted.writes }

/-- What happens to a folder and to the pool that is open on it. -/
inductive PoolEvent (κ : Type) where
  | format (random : Randomness) (passphrase requested : Option String) (force : Bool)
  | reopen (anchor passphrase : String)
  | read (lba : Nat)
  | write (lba : Nat) (payload : List UInt8)
  | flush
  /-- The adversary puts another folder in place. -/
  | replace (folder : κ)

def PoolEvent.after (audited : Audited κ crypto) : PoolEvent κ → Audited κ crypto
  | .format random passphrase requested force => audited.format random passphrase requested force
  | .reopen anchor passphrase =>
    match openWithAnchor crypto audited.pool.folder anchor passphrase with
    | .error _ => audited
    | .ok (_, store) => { audited with pool := audited.pool.withStore store }
  | .read lba => (exec (BlockDevice.readBlock lba) audited).2
  | .write lba payload => (exec (BlockDevice.writeBlock lba payload) audited).2
  | .flush => (exec BlockDevice.flush audited).2
  | .replace folder => { audited with pool := { audited.pool with folder } }

def afterEvents (audited : Audited κ crypto) (events : List (PoolEvent κ)) : Audited κ crypto :=
  events.foldl PoolEvent.after audited

/-- A folder with no pool open on it, and the coming random nonces. -/
def Audited.start (folder : κ) (nonces : Nat → Vector UInt8 24) : Audited κ crypto where
  pool := { folder, store := .fromManifest [] [] none, nonces, clock := fun _ => 0 }
  sealings := []
  writes := []

section Run

variable {audited : Audited κ crypto}

/-- The encryption of a bootstrap prefix has its own associated data. -/
theorem aad_of_mem_bootSealings {random : Randomness} {passphrase : Option String} {sb : Superblock}
    {entry : Sealing} (h : entry ∈ bootSealings crypto random passphrase sb) : entry.aad = BOOT_AAD := by
  unfold bootSealings at h
  cases passphrase with
  | none => cases h
  | some passphrase =>
    cases hkeys : deriveKeys crypto passphrase random.salt.toList with
    | error e => simp [hkeys] at h
    | ok keys =>
      simp only [hkeys] at h
      exact (Crypto.mem_sealing h).2.1

namespace Audited.Sound

omit [CarrierFolder κ] in
theorem start (folder : κ) (nonces : Nat → Vector UInt8 24) :
    (Audited.start folder nonces : Audited κ crypto).Sound where
  loaded := Loaded.fromManifest { folder, store := .fromManifest [] [] none, nonces, clock := fun _ => 0 }
    [] [] none
  fits := fun slot hslot => by cases hslot
  genuine := fun entry hentry => by cases hentry

theorem format (hcapacity : ∀ (folder : κ) {name n}, rawCapacity folder name = .ok n → n < 2 ^ 64)
    (h : audited.Sound) (random : Randomness) (passphrase requested : Option String) (force : Bool) :
    (audited.format random passphrase requested force).Sound := by
  unfold Audited.format
  dsimp only
  cases hplan : planFormat crypto random audited.pool.folder passphrase requested force with
  | error e => exact h
  | ok plan =>
    dsimp only
    have hnew : Audited.Sound ({
        pool := plan.pool crypto random audited.pool.folder
        sealings := bootSealings crypto random passphrase plan.superblock ++ audited.sealings
        writes := audited.writes } : Audited κ crypto) := by
      refine ⟨Loaded.newForFormat (plan.pool crypto random audited.pool.folder) plan.paths
        plan.superblock.manifest plan.keys, ?_, fun entry hentry => ?_⟩
      · change (BlockStore.newForFormat plan.paths plan.superblock.manifest plan.keys).reopened.Fits
        rw [BlockStore.reopened_newForFormat]
        exact fits_fromManifest (FormatPlan.mul_lt (hcapacity _) hplan)
      · rcases List.mem_append.1 hentry with hboot | hold
        · exact Or.inl (aad_of_mem_bootSealings hboot)
        · exact h.genuine entry hold
    exact ⟨⟨h.loaded.reopened, h.loaded.length⟩, h.fits, (hnew.formatStore plan.superblock).genuine⟩

/-- Every event keeps the encryptions sound. -/
theorem after (hcapacity : ∀ (folder : κ) {name n}, rawCapacity folder name = .ok n → n < 2 ^ 64)
    (h : audited.Sound) (event : PoolEvent κ) : (event.after audited).Sound := by
  cases event with
  | format random passphrase requested force => exact h.format hcapacity random passphrase requested force
  | reopen anchor passphrase =>
    unfold PoolEvent.after
    dsimp only
    cases hopen : openWithAnchor crypto audited.pool.folder anchor passphrase with
    | error e => exact h
    | ok opened =>
      obtain ⟨sb, store⟩ := opened
      obtain ⟨path, bootstrap, plaintext, keys, -, -, -, -, -, -, hdata, -, rfl⟩ :=
        openWithAnchor_iff.1 hopen
      have hnew := Loaded.fromManifest audited.pool
        (sb.manifest.map fun range => (range.name, false)) sb.manifest (some keys)
      refine ⟨?_, ?_, h.genuine⟩
      · rw [hnew.reopened]
        exact hnew
      · rw [hnew.reopened]
        exact fits_fromManifest fun range hrange => (hdata range hrange).mul_lt
  | read lba => exact h.readBlock lba
  | write lba payload => exact h.writeBlock lba payload
  | flush => exact h.flush
  | replace folder => exact ⟨⟨h.loaded.reopened, h.loaded.length⟩, h.fits, h.genuine⟩

theorem afterEvents (hcapacity : ∀ (folder : κ) {name n}, rawCapacity folder name = .ok n → n < 2 ^ 64)
    (h : audited.Sound) (events : List (PoolEvent κ)) : (afterEvents audited events).Sound := by
  induction events generalizing audited with
  | nil => exact h
  | cons event events ih => exact ih (h.after hcapacity event)

end Audited.Sound

/-- The open store is encrypted, or no pool has been opened yet. -/
def Audited.Encrypted (audited : Audited κ crypto) : Prop :=
  audited.pool.store.encrypted = true ∨ audited.pool.store.totalBlocks = 0

theorem encrypted_afterEvents
    (hcapacity : ∀ (folder : κ) {name n}, rawCapacity folder name = .ok n → n < 2 ^ 64)
    (h : audited.Sound) (hencrypted : audited.Encrypted) (events : List (PoolEvent κ)) :
    (afterEvents audited events).Encrypted := by
  induction events generalizing audited with
  | nil => exact hencrypted
  | cons event events ih =>
    refine ih (h.after hcapacity event) ?_
    -- the operations of the store leave its header alone
    have hkept : ∀ pool' : Pool κ crypto, Loaded pool' audited.pool.store.reopened →
        pool'.store.encrypted = true ∨ pool'.store.totalBlocks = 0 := by
      intro pool' hloaded
      have hstore := hloaded.reopened
      have hflag : pool'.store.encrypted = audited.pool.store.encrypted :=
        (congrArg BlockStore.encrypted hstore : pool'.store.reopened.encrypted = _)
      have htotal : pool'.store.totalBlocks = audited.pool.store.totalBlocks :=
        (congrArg BlockStore.totalBlocks hstore : pool'.store.reopened.totalBlocks = _)
      rw [hflag, htotal]
      exact hencrypted
    cases event with
    | format random passphrase requested force =>
      unfold PoolEvent.after Audited.format
      dsimp only
      cases planFormat crypto random audited.pool.folder passphrase requested force with
      | error e => exact hencrypted
      | ok plan => exact hencrypted
    | reopen anchor passphrase =>
      unfold PoolEvent.after
      dsimp only
      cases hopen : openWithAnchor crypto audited.pool.folder anchor passphrase with
      | error e => exact hencrypted
      | ok opened =>
        obtain ⟨sb, store⟩ := opened
        obtain ⟨path, bootstrap, plaintext, keys, -, -, -, -, -, -, -, -, rfl⟩ :=
          openWithAnchor_iff.1 hopen
        exact Or.inl rfl
    | read lba => exact hkept _ ((Loaded.storeInvariant _).readBlock lba h.loaded).state
    | write lba payload =>
      exact hkept _ ((Loaded.storeInvariant _).writeBlock lba payload h.loaded).state
    | flush => exact hkept _ ((Loaded.storeInvariant _).flush h.loaded).state
    | replace folder => exact hencrypted

/-- A read of the open pool that succeeds returns a payload that was written at its address with the key
of the pool. -/
def Audited.Genuine (audited : Audited κ crypto) : Prop :=
  ∀ lba payload, readResult audited.pool lba = .ok payload →
    ∃ cipher, audited.pool.store.cipher = some cipher ∧ ∃ write ∈ audited.writes,
      write.key = cipher.key ∧ write.lba = lba ∧ payload = Block.pad write.payload

/-- The associated data of a block determine its address. -/
theorem u64LE_ofNat_inj {a b : Nat} (ha : a < 2 ^ 64) (hb : b < 2 ^ 64)
    (h : u64LE (UInt64.ofNat a) = u64LE (UInt64.ofNat b)) : a = b := by
  have hvalue := congrArg ofLE h
  rw [u64LE, u64LE, ofLE_toLE_of_lt (UInt64.toNat_lt _), ofLE_toLE_of_lt (UInt64.toNat_lt _),
    UInt64.toNat_ofNat_of_lt' (by rwa [UInt64.size]),
    UInt64.toNat_ofNat_of_lt' (by rwa [UInt64.size])] at hvalue
  exact hvalue

/-- A block that decodes was encrypted with the same key for the same address. -/
theorem decode_genuine {sealings : List Sealing} (hideal : crypto.Ideal sealings) {cipher : BlockCipher}
    {lba : Nat} {block : List UInt8} {payload : Block}
    (h : cipher.decode crypto lba block = .ok payload) : ∃ entry ∈ sealings, entry.key = cipher.key ∧
      entry.aad = u64LE (UInt64.ofNat lba) ∧ entry.plaintext = payload := by
  unfold BlockCipher.decode at h
  obtain ⟨-, h⟩ := except_ite_ok h
  obtain ⟨-, h⟩ := except_ite_ok h
  cases hdecrypt : crypto.decrypt cipher.key (slice block 0 24) (u64LE (UInt64.ofNat lba))
      (Block.pad (block.drop BLOCK_HEADER)) (slice block 24 16) with
  | none => simp [hdecrypt] at h
  | some plaintext =>
    simp only [hdecrypt, Except.ok.injEq] at h
    exact ⟨_, hideal _ _ _ _ _ _ hdecrypt, rfl, rfl, h⟩

/-- What a read returns was decoded at its address. -/
theorem decode_of_readBlock {pool pool' : Pool κ crypto} {lba : Nat} {payload : Block}
    (h : exec (Pool.readBlock lba) pool = (.ok payload, pool')) : lba < pool.store.totalBlocks.toNat ∧
      ∃ block, pool.store.decodeBlock crypto lba block = .ok payload := by
  rw [Pool.readBlock, exec_bind, exec_gets, id] at h
  obtain ⟨i, t, hfor, h⟩ := exec_bind_ok h
  rw [Pool.ofResult, exec_ofExcept] at hfor
  obtain ⟨hok, rfl⟩ := Prod.mk.inj hfor
  obtain ⟨slot, hi⟩ := BlockStore.exists_of_carrierFor (except_mapError_ok hok)
  obtain ⟨hlt, -⟩ := BlockStore.covers_of_carrierFor (except_mapError_ok hok) hi
  obtain ⟨⟨⟩, u, -, h⟩ := exec_bind_ok h
  obtain ⟨loaded, v, -, h⟩ := exec_bind_ok h
  cases hbuffer : loaded.buffer with
  | none =>
    simp only [hbuffer] at h
    cases h
  | some buffer =>
    simp only [hbuffer] at h
    cases hslice : sliceChecked buffer (loaded.offset lba) (loaded.offset lba + PB) with
    | none =>
      simp only [hslice] at h
      cases h
    | some block =>
      simp only [hslice, Pool.ofResult, exec_ofExcept] at h
      exact ⟨hlt, block, except_mapError_ok (congrArg Prod.fst h)⟩

/-- Encrypted blocks are neither forged nor moved. In every history, in which the adversary may replace
the folder and the pool may be opened again at any time, a read of the open pool returns an error or a
payload that was written at the same address under the same key. -/
theorem readBlock_genuine (hcapacity : ∀ (folder : κ) {name n}, rawCapacity folder name = .ok n → n < 2 ^ 64)
    (folder : κ) (nonces : Nat → Vector UInt8 24) (events : List (PoolEvent κ))
    (hideal : crypto.Ideal (afterEvents (.start folder nonces : Audited κ crypto) events).sealings) :
    (afterEvents (.start folder nonces : Audited κ crypto) events).Genuine := by
  have hstart : (Audited.start folder nonces : Audited κ crypto).Sound := Audited.Sound.start folder nonces
  have hsound := hstart.afterEvents hcapacity events
  have hencrypted := encrypted_afterEvents hcapacity hstart (Or.inr rfl) events
  intro lba payload hread
  rcases hexec : exec (Pool.readBlock lba)
    (afterEvents (.start folder nonces : Audited κ crypto) events).pool with ⟨result, pool'⟩
  rw [readResult, hexec] at hread
  obtain rfl : result = .ok payload := hread
  obtain ⟨hlt, block, hdecode⟩ := decode_of_readBlock hexec
  have hflag := hencrypted.resolve_right fun htotal => by
    rw [htotal] at hlt
    exact Nat.not_lt_zero _ hlt
  unfold BlockStore.decodeBlock at hdecode
  rw [if_pos hflag] at hdecode
  cases hcipher : (afterEvents (.start folder nonces : Audited κ crypto) events).pool.store.cipher with
  | none => simp [hcipher] at hdecode
  | some cipher =>
    simp only [hcipher] at hdecode
    refine ⟨cipher, rfl, ?_⟩
    obtain ⟨entry, hentry, hkey, haad, hplaintext⟩ := decode_genuine hideal hdecode
    rcases hsound.genuine entry hentry with hboot | ⟨write, hwrite, hlba, hkey', haad', hpayload⟩
    · -- the associated data of the bootstrap prefix are longer than an address
      have hlength := congrArg List.length (haad.symm.trans hboot)
      rw [length_u64LE] at hlength
      cases hlength
    · exact ⟨write, hwrite, hkey'.symm.trans hkey, u64LE_ofNat_inj hlba
        (Nat.lt_trans hlt (UInt64.toNat_lt _)) (haad'.symm.trans haad), hplaintext.symm.trans hpayload⟩

end Run

/-! ### A history that is recorded -/

section Recorded

variable {audited : Audited κ crypto} {entry : Sealing}

/-- What is recorded stays recorded. -/
theorem Audited.recorded (entry : Sealing) :
    LinkedDevices fun a b : Audited κ crypto => a = b ∧ entry ∈ a.sealings where
  readBlock lba := by
    rintro a _ ⟨rfl, h⟩
    exact ⟨rfl, fun _ _ => trivial, rfl, h⟩
  writeBlock lba payload := by
    rintro a _ ⟨rfl, h⟩
    exact ⟨rfl, fun _ _ => trivial, rfl, List.mem_append_right _ h⟩
  flush := by
    rintro a _ ⟨rfl, h⟩
    exact ⟨rfl, fun _ _ => trivial, rfl, h⟩

theorem mem_sealings_reopen (h : entry ∈ audited.sealings) (anchor passphrase : String) :
    entry ∈ ((PoolEvent.reopen anchor passphrase).after audited).sealings := by
  rw [PoolEvent.after]
  cases openWithAnchor crypto audited.pool.folder anchor passphrase with
  | error e => exact h
  | ok opened => exact h

/-- Filling the blocks with zeros encrypts a zero block for every address. -/
theorem mem_sealings_zeroBlocks (htotal : crypto.Total) {base : BlockStore} (hbase : base.Wellformed)
    (hfits : base.Fits) (hencrypted : base.encrypted = true) {cipher : BlockCipher}
    (hcipher : base.cipher = some cipher) {nonce : Vector UInt8 24} {payloads : Nat → List UInt8}
    (hholds : Holds audited.pool base payloads) (hnonce : ∀ n, audited.pool.nonces n = nonce)
    {lba n k : Nat} (hle : lba + n ≤ base.totalBlocks.toNat) (hk : lba ≤ k) (hlt : k < lba + n)
    (hentry : entry ∈ crypto.sealing cipher.key nonce.toList (u64LE (UInt64.ofNat k)) Block.zero) :
    entry ∈ (exec (zeroBlocks lba n) audited).2.sealings := by
  induction n generalizing lba audited payloads with
  | zero => omega
  | succ n ih =>
    have hzero : ¬Block.zero.bytes.length > UB := Nat.not_lt.2 (Nat.le_of_eq Block.zero.length_bytes)
    have hwrite : (exec (Pool.writeBlock lba Block.zero.bytes) audited.pool).1 = .ok () := by
      have herror := writeBlock_error_iff htotal hbase hfits hholds lba Block.zero.bytes
      cases hresult : (exec (Pool.writeBlock lba Block.zero.bytes) audited.pool).1 with
      | ok => rfl
      | error fault =>
        have := herror.1 ⟨fault, hresult⟩
        omega
    have hstep : exec (zeroBlocks lba (n + 1)) audited = exec (zeroBlocks (lba + 1) n)
        { audited.record lba Block.zero.bytes with
          pool := (exec (Pool.writeBlock lba Block.zero.bytes) audited.pool).2 } := by
      have hexec : exec (BlockDevice.writeBlock lba Block.zero.bytes : Prog FsError (Audited κ crypto) Unit)
          audited = (.ok (), { audited.record lba Block.zero.bytes with
            pool := (exec (Pool.writeBlock lba Block.zero.bytes) audited.pool).2 }) := by
        refine Prod.ext ?_ rfl
        change (exec (Pool.writeBlock lba Block.zero.bytes) audited.pool).1.mapError _ = .ok ()
        rw [hwrite]
        rfl
      rw [zeroBlocks, exec_bind, hexec]
    rw [hstep]
    rcases Nat.eq_or_lt_of_le hk with rfl | hk
    · -- the block is encrypted by this write
      refine ((Audited.recorded entry).zeroBlocks (lba + 1) n _ _ ⟨rfl, List.mem_append_left _ ?_⟩).2.2.2
      obtain ⟨i, slot, hfor, hi, -⟩ := hbase.contiguous.carrierFor_eq (show lba < base.totalBlocks.toNat by
        omega)
      obtain ⟨slot', hi', rfl⟩ := hholds.exists_slot hi
      have hfor' : audited.pool.store.carrierFor lba = .ok i := by
        rw [← BlockStore.carrierFor_reopened, hholds.reopened, hfor]
      have hencrypted' : audited.pool.store.encrypted = true := by
        rw [← hencrypted, ← hholds.reopened]
        rfl
      have hcipher' : audited.pool.store.cipher = some cipher := by
        rw [← hcipher, ← hholds.reopened]
        rfl
      rw [Pool.sealings, if_neg hzero]
      simp only [hfor', exec_ensureLoaded hholds hi', hencrypted', hcipher', hnonce, Block.pad_bytes]
      exact hentry
    · obtain ⟨payloads', hholds'⟩ := exists_holds_writeBlock hbase hfits hholds lba Block.zero.bytes
      refine ih hholds' ?_ (by omega) (by omega) (by omega)
      have hinvariant : StoreInvariant fun pool : Pool κ crypto =>
          Loaded pool base ∧ ∀ n, pool.nonces n = nonce :=
        { length := fun h hi hbuffer => h.1.length _ _ _ hi hbuffer
          setSlot := fun h hi hslot _ _ hlength => ⟨h.1.setSlot hi hslot hlength, h.2⟩
          draw := fun h => ⟨⟨h.1.reopened, h.1.length⟩, fun n => h.2 (n + 1)⟩
          tick := fun _ h => ⟨⟨h.1.reopened, h.1.length⟩, h.2⟩
          written := fun h hi _ _ _ => ⟨h.1.written hi, h.2⟩
          failed := fun h _ _ => ⟨⟨h.1.reopened, h.1.length⟩, h.2⟩ }
      exact (hinvariant.writeBlock lba Block.zero.bytes ⟨hholds.loaded, hnonce⟩).state.2

end Recorded

/-! ### The history of a pool of one carrier -/

section TwoImages

open ImageFolder

/-- A cipher that leaves the plaintext as it is and decrypts the given encryptions only. -/
def Crypto.sealed (sealings : List Sealing) : Crypto where
  encrypt := Crypto.identity.encrypt
  decrypt key nonce aad ciphertext tag :=
    if ({ key, nonce, aad, plaintext := ciphertext, ciphertext, tag } : Sealing) ∈ sealings then
      some ciphertext
    else
      none
  hashPassword := Crypto.identity.hashPassword
  deriveKey := Crypto.identity.deriveKey
  length_tag := Crypto.identity.length_tag

theorem Crypto.ideal_sealed {sealings recorded : List Sealing} (h : ∀ entry ∈ sealings, entry ∈ recorded) :
    (Crypto.sealed sealings).Ideal recorded := by
  intro key nonce aad ciphertext tag plaintext hdecrypt
  rw [Crypto.sealed] at hdecrypt
  dsimp only at hdecrypt
  split_ifs at hdecrypt with hmem
  obtain rfl := Option.some.inj hdecrypt
  exact h _ hmem

/-- The encryptions of the bootstrap prefix and of zero blocks, when the folder with two images is
formatted. -/
def twoImagesSealings : List Sealing :=
  bootSealings Crypto.identity zeroRandomness (some "secret") twoImagesSuperblock ++
    (List.range 8).flatMap fun lba => Crypto.identity.sealing (Vector.replicate 32 0)
      (zeroRandomness.nonces 0).toList (u64LE (UInt64.ofNat lba)) Block.zero

theorem createBootstrap_key {salt : Vector UInt8 16} {nonce : Vector UInt8 24} {passphrase : String}
    {encoded bootstrap : List UInt8} {keys : StoreKeys}
    (h : createBootstrap crypto salt nonce passphrase encoded = .ok (bootstrap, keys)) :
    ∃ master, keys.cipher.key = crypto.deriveKey "albumfs block v1" master := by
  unfold createBootstrap at h
  obtain ⟨-, h⟩ := except_ite_ok h
  obtain ⟨derived, hderived, h⟩ := except_bind_ok h
  unfold deriveKeys at hderived
  cases hmaster : crypto.hashPassword (utf8 passphrase) salt.toList with
  | none => simp [hmaster] at hderived
  | some master =>
    simp only [hmaster, Except.ok.injEq] at hderived
    subst hderived
    dsimp only at h
    split at h
    · cases h
    · obtain ⟨-, rfl⟩ := Prod.mk.inj (Except.ok.inj h)
      exact ⟨master, rfl⟩

/-- Formatting the folder makes these encryptions. -/
theorem mem_sealings_twoImages {entry : Sealing} (h : entry ∈ twoImagesSealings) :
    entry ∈ ((Audited.start twoImages zeroRandomness.nonces :
      Audited ImageFolder (.sealed twoImagesSealings)).format zeroRandomness (some "secret")
        (some "a.png") true).sealings := by
  obtain ⟨plan, hplan, hsuperblock, hpaths⟩ := planFormat_twoImages (.sealed twoImagesSealings)
    zeroRandomness (fun _ _ _ _ => rfl) fun _ => rfl
  obtain ⟨-, -, -, -, -, anchor, bootstrap, keys, -, -, hkeys, -, hcreate⟩ := planFormat_ok hplan
  obtain ⟨usable, hlaid⟩ := FormatPlan.laidOut ImageFolder.exact hplan
    (hsuperblock ▸ length_twoImagesSuperblock)
  obtain ⟨payloads, hholds⟩ : ∃ payloads, Holds (plan.pool (.sealed twoImagesSealings) zeroRandomness
    twoImages) plan.base payloads := hlaid.exists_holds
  obtain ⟨master, hkey⟩ := createBootstrap_key hcreate
  rw [Audited.format]
  dsimp only
  rw [show (Audited.start twoImages zeroRandomness.nonces :
    Audited ImageFolder (.sealed twoImagesSealings)).pool.folder = twoImages from rfl, hplan]
  dsimp only
  rcases List.mem_append.1 h with hboot | hzero
  · refine ((Audited.recorded entry).formatStore plan.superblock _ _
      ⟨rfl, List.mem_append_left _ ?_⟩).2.2.2
    rw [hsuperblock]
    exact hboot
  · obtain ⟨lba, hlba, hentry⟩ := List.mem_flatMap.1 hzero
    have htotal : plan.base.totalBlocks.toNat = 8 := by
      rw [hlaid.totalBlocks_base, hsuperblock]
      rfl
    refine ((Audited.recorded entry).formatStore_of_zeroed rfl ⟨rfl, ?_⟩).2.2
    refine mem_sealings_zeroBlocks (fun _ _ _ _ => rfl) hlaid.wellformed_base
      (hlaid.fits_base ImageFolder.exact) ?_ (show plan.base.cipher = some keys.cipher from ?_) hholds
      (fun _ => rfl) ?_ (Nat.zero_le lba) ?_ (show entry ∈ (Crypto.sealed _).sealing _
        (zeroRandomness.nonces 0).toList _ _ from ?_)
    · rw [FormatPlan.base, hkeys]
      rfl
    · rw [FormatPlan.base, hkeys]
      rfl
    · rw [hlaid.totalBlocks_base, Nat.zero_add]
    · rw [hsuperblock, Nat.zero_add]
      exact List.mem_range.1 hlba
    · rw [hkey]
      exact hentry

/-- A markerless pool is formatted in the folder with two images and opened. -/
theorem readBlock_genuine_twoImages :
    (afterEvents (.start twoImages zeroRandomness.nonces : Audited ImageFolder (.sealed twoImagesSealings))
      [.format zeroRandomness (some "secret") (some "a.png") true, .reopen "a.png" "secret"]).Genuine :=
  readBlock_genuine (fun _ => ImageFolder.exact.rawCapacity_lt) twoImages zeroRandomness.nonces _
    (Crypto.ideal_sealed fun _ hentry => mem_sealings_reopen (mem_sealings_twoImages hentry) _ _)

end TwoImages

end AlbumFS

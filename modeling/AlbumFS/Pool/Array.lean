import AlbumFS.Lib.Tiling
import AlbumFS.Pool.Store
import Mathlib.Logic.Function.Basic

/-!
# The block store as an array

Each slot of a block store stands for a payload, which is in memory, in the carrier, or in both.
`Holds` relates a store to the payloads of its slots; loading, flushing and failing flushes leave
the payloads alone, and a write replaces the bytes of one block.

## Main definitions

* `BlockStore.reopened`: a new store on the same carriers.
* `BlockStore.Wellformed`, `BlockStore.Fits`: the geometry of a store.
* `Held`, `Holds`: the payloads of a store.
* `readFrom`: what a store reads, from the payloads.

## Main results

* `exec_readBlock`, `exec_writeBlock`, `ends_flush`: the operations on the payloads.
* `readFrom_update`: a write changes one address.
-/

namespace AlbumFS

open CarrierFolder Prog

/-! ### The geometry -/

namespace CarrierSlot

/-- The slot as a new store has it, with nothing loaded and nothing to write back. -/
def unloaded (slot : CarrierSlot) : CarrierSlot := { slot with buffer := none, dirty := false }

/-- The blocks of a slot. -/
def span (slot : CarrierSlot) : Nat × Nat := (slot.blockStart.toNat, slot.blockCount.toNat)

end CarrierSlot

namespace BlockStore

/-- A new store on the same carriers. -/
def reopened (store : BlockStore) : BlockStore :=
  { store with carriers := store.carriers.map CarrierSlot.unloaded }

theorem reopened_fromManifest (paths : List (String × Bool)) (manifest : List CarrierRange)
    (keys : Option StoreKeys) :
    (fromManifest paths manifest keys).reopened = fromManifest paths manifest keys := by
  simp [reopened, fromManifest, ofCarriers, Function.comp_def, CarrierSlot.unloaded]

theorem reopened_newForFormat (paths : List String) (manifest : List CarrierRange)
    (keys : Option StoreKeys) :
    (newForFormat paths manifest keys).reopened =
      fromManifest (paths.zip (manifest.map fun range => range.chunkIndex == 0)) manifest keys := by
  have hzip : ∀ (paths : List String) (manifest : List CarrierRange),
      (paths.zip manifest).map (fun pair => ((pair.1, pair.2.chunkIndex == 0), pair.2)) =
        (paths.zip (manifest.map fun range => range.chunkIndex == 0)).zip manifest := by
    intro paths manifest
    induction paths generalizing manifest with
    | nil => rfl
    | cons path paths ih =>
      cases manifest with
      | nil => rfl
      | cons range manifest => simp [ih]
  simp only [reopened, newForFormat, fromManifest, ofCarriers, ← hzip, List.map_map]
  rfl

/-- The ranges are contiguous from zero. -/
def Contiguous (store : BlockStore) : Prop :=
  Tiles 0 (store.carriers.map CarrierSlot.span) store.totalBlocks.toNat

/-- The ranges are contiguous from zero, no carrier occurs twice, and an encrypted store has its
keys. -/
structure Wellformed (store : BlockStore) : Prop where
  contiguous : store.Contiguous
  distinct : (store.carriers.map CarrierSlot.path).Nodup
  keyed : store.encrypted = true → store.cipher.isSome ∧ store.orderKey.isSome

/-- The number of bytes of every slot fits `usize`. -/
def Fits (store : BlockStore) : Prop := ∀ slot ∈ store.carriers, slot.blockCount.toNat * PB < 2 ^ 64

section Geometry

variable {store : BlockStore} {slot : CarrierSlot} {i lba : Nat}

@[simp] theorem carrierFor_reopened (store : BlockStore) (lba : Nat) :
    store.reopened.carrierFor lba = store.carrierFor lba := by
  simp only [carrierFor, reopened, List.findIdx?_map]
  rfl

theorem carrierFor_of_le (h : store.totalBlocks.toNat ≤ lba) :
    store.carrierFor lba = .error (.badBlock lba) := if_pos h

theorem exists_of_carrierFor (h : store.carrierFor lba = .ok i) :
    ∃ slot, store.carriers[i]? = some slot := by
  rw [carrierFor] at h
  split at h
  · cases h
  · split at h
    · cases h
    · rename_i k hk
      obtain rfl := Except.ok.inj h
      obtain ⟨hlt, -⟩ := List.findIdx?_eq_some_iff_getElem.1 hk
      exact ⟨_, List.getElem?_eq_getElem hlt⟩

/-- The slot of an address covers it. -/
theorem covers_of_carrierFor (h : store.carrierFor lba = .ok i) (hi : store.carriers[i]? = some slot) :
    lba < store.totalBlocks.toNat ∧ slot.covers lba = true := by
  rw [carrierFor] at h
  split at h
  · cases h
  · rename_i hlt
    split at h
    · cases h
    · rename_i k hk
      obtain rfl := Except.ok.inj h
      obtain ⟨hlen, hcovers, -⟩ := List.findIdx?_eq_some_iff_getElem.1 hk
      obtain rfl := Option.some.inj ((List.getElem?_eq_getElem hlen).symm.trans hi)
      exact ⟨Nat.not_le.1 hlt, hcovers⟩

namespace Contiguous

variable (h : store.Contiguous)
include h

theorem end_le (hi : store.carriers[i]? = some slot) :
    slot.blockStart.toNat + slot.blockCount.toNat ≤ store.totalBlocks.toNat := by
  have hmem : slot.span ∈ store.carriers.map CarrierSlot.span :=
    List.mem_map_of_mem (List.mem_of_getElem? hi)
  exact (Tiles.mem_le h hmem).2

/-- The test of `carrier_for` without wrapping. -/
theorem covers_iff (hi : store.carriers[i]? = some slot) : slot.covers lba = true ↔
    slot.blockStart.toNat ≤ lba ∧ lba < slot.blockStart.toNat + slot.blockCount.toNat := by
  have hle := h.end_le hi
  have hlt := store.totalBlocks.toNat_lt
  rw [CarrierSlot.covers, decide_eq_true_iff, UInt64.toNat_add, Nat.mod_eq_of_lt (by omega)]

/-- Every address has one slot. -/
theorem carrierFor_eq (hlba : lba < store.totalBlocks.toNat) :
    ∃ i slot, store.carrierFor lba = .ok i ∧ store.carriers[i]? = some slot ∧
      slot.blockStart.toNat ≤ lba ∧ lba < slot.blockStart.toNat + slot.blockCount.toNat := by
  obtain ⟨i, s, hi, hs⟩ := Tiles.exists_span h (Nat.zero_le _) hlba
  rw [List.getElem?_map, Option.map_eq_some_iff] at hi
  obtain ⟨slot, hi, rfl⟩ := hi
  have hfind : store.carriers.findIdx? (·.covers lba) = some i := by
    refine findIdx?_of_unique hi ((h.covers_iff hi).2 hs) fun j slot' hj hcovers => ?_
    exact Tiles.index_unique h (by rw [List.getElem?_map, hj]; rfl)
      (by rw [List.getElem?_map, hi]; rfl) ((h.covers_iff hj).1 hcovers) hs
  refine ⟨i, slot, ?_, hi, hs⟩
  rw [carrierFor, if_neg (by omega), hfind]

/-- An address inside a slot belongs to it. -/
theorem carrierFor_of_mem (hi : store.carriers[i]? = some slot)
    (hlba : slot.blockStart.toNat ≤ lba ∧ lba < slot.blockStart.toNat + slot.blockCount.toNat) :
    store.carrierFor lba = .ok i := by
  have hle := h.end_le hi
  obtain ⟨j, slot', hfor, hj, hslot'⟩ := h.carrierFor_eq (show lba < store.totalBlocks.toNat by omega)
  obtain rfl := Tiles.index_unique h (i := i) (j := j) (by rw [List.getElem?_map, hi]; rfl)
    (by rw [List.getElem?_map, hj]; rfl) hlba hslot'
  exact hfor

end Contiguous

theorem Wellformed.path_inj (h : store.Wellformed) {j : Nat} {slot' : CarrierSlot} (hi : store.carriers[i]? = some slot)
    (hj : store.carriers[j]? = some slot') (hpath : slot.path = slot'.path) : i = j := by
  refine (List.getElem?_inj ?_ h.distinct).1 ?_
  · rw [List.length_map]
    exact (List.getElem?_eq_some_iff.1 hi).1
  · rw [List.getElem?_map, List.getElem?_map, hi, hj, Option.map_some, Option.map_some, hpath]

/-- The place of a block in the payload of its slot. -/
theorem Fits.offset_eq (hfits : store.Fits) (hi : store.carriers[i]? = some slot)
    (hlba : slot.blockStart.toNat ≤ lba ∧ lba < slot.blockStart.toNat + slot.blockCount.toNat) :
    slot.offset lba = (lba - slot.blockStart.toNat) * PB ∧ slot.offset lba + PB ≤ slot.expected := by
  have hmul := hfits slot (List.mem_of_getElem? hi)
  have hle : (lba - slot.blockStart.toNat + 1) * PB ≤ slot.blockCount.toNat * PB :=
    Nat.mul_le_mul_right _ (by omega)
  rw [Nat.add_mul, Nat.one_mul] at hle
  have hpb : 0 < PB := by decide
  rw [CarrierSlot.offset, CarrierSlot.expected, Nat.mod_eq_of_lt (by omega), Nat.mod_eq_of_lt hmul]
  exact ⟨rfl, hle⟩

/-- A block of a slot lies in its payload. -/
theorem Fits.offset_le (hfits : store.Fits) (hi : store.carriers[i]? = some slot)
    (hcovers : slot.covers lba = true) : slot.offset lba + PB ≤ slot.expected := by
  rw [CarrierSlot.covers, decide_eq_true_iff, UInt64.toNat_add] at hcovers
  have hcount := slot.blockCount.toNat_lt
  have hstart := slot.blockStart.toNat_lt
  refine (hfits.offset_eq hi ⟨hcovers.1, Nat.lt_of_lt_of_le hcovers.2 (Nat.mod_le _ _)⟩).2

/-- Two blocks of a slot do not overlap. -/
theorem Fits.offset_disjoint (hfits : store.Fits) (hi : store.carriers[i]? = some slot) {lba' : Nat}
    (hlba : slot.blockStart.toNat ≤ lba ∧ lba < slot.blockStart.toNat + slot.blockCount.toNat)
    (hlba' : slot.blockStart.toNat ≤ lba' ∧ lba' < slot.blockStart.toNat + slot.blockCount.toNat)
    (hne : lba ≠ lba') :
    slot.offset lba + PB ≤ slot.offset lba' ∨ slot.offset lba' + PB ≤ slot.offset lba := by
  rw [(hfits.offset_eq hi hlba).1, (hfits.offset_eq hi hlba').1, ← Nat.succ_mul, ← Nat.succ_mul]
  rcases Nat.lt_or_gt_of_ne hne with hlt | hgt
  · exact Or.inl (Nat.mul_le_mul_right _ (by omega))
  · exact Or.inr (Nat.mul_le_mul_right _ (by omega))

end Geometry

end BlockStore

/-! ### The payloads -/

section Payloads

variable {κ : Type} [CarrierFolder κ] {crypto : Crypto}

/-- The payload of a slot, as it is in memory and in its carrier. -/
structure Held (folder : κ) (store : BlockStore) (slot : CarrierSlot) (payload : List UInt8) :
    Prop where
  kind : (kindFor slot.path).isSome
  length : payload.length = slot.expected
  clean : slot.dirty = false → store.fetch folder slot = .ok payload
  buffer : slot.buffer = some payload ∨ slot.buffer = none ∧ slot.dirty = false

/-- The store of the pool is `base` with these payloads. -/
structure Holds (pool : Pool κ crypto) (base : BlockStore) (payloads : Nat → List UInt8) : Prop where
  reopened : pool.store.reopened = base
  held : ∀ i slot, pool.store.carriers[i]? = some slot → Held pool.folder base slot (payloads i)

/-- What a store reads at an address, from the payloads of its slots. -/
def readFrom (crypto : Crypto) (base : BlockStore) (payloads : Nat → List UInt8) (lba : Nat) :
    Except Fault Block :=
  match base.carrierFor lba with
  | .error e => .error (.error e)
  | .ok i =>
    match base.carriers[i]? with
    | none => .error .panic
    | some slot =>
      match sliceChecked (payloads i) (slot.offset lba) (slot.offset lba + PB) with
      | none => .error .panic
      | some block => (base.decodeBlock crypto lba block).mapError Fault.error

variable {pool : Pool κ crypto} {base : BlockStore} {payloads : Nat → List UInt8} {i lba : Nat}
  {slot slot' : CarrierSlot} {payload : List UInt8}

omit [CarrierFolder κ] in
/-- A new store does not depend on what is loaded. -/
theorem reopened_setSlot (hi : pool.store.carriers[i]? = some slot)
    (hslot : slot'.unloaded = slot.unloaded) :
    (pool.setSlot i slot').store.reopened = pool.store.reopened := by
  simp only [BlockStore.reopened, Pool.setSlot, List.map_set, BlockStore.mk.injEq, and_true]
  apply List.ext_getElem?
  intro j
  rw [List.getElem?_set]
  split_ifs with hj hlen
  · subst hj
    rw [hslot, List.getElem?_map, hi, Option.map_some]
  · have hlt := (List.getElem?_eq_some_iff.1 hi).1
    rw [List.length_map] at hlen
    omega
  · rfl

theorem Held.of_unloaded {folder : κ} (h : Held folder base slot payload)
    (hslot : slot'.unloaded = slot.unloaded) (hdirty : slot'.dirty = false → slot.dirty = false)
    (hbuffer : slot'.buffer = some payload ∨ slot'.buffer = none ∧ slot'.dirty = false) :
    Held folder base slot' payload := by
  cases slot
  cases slot'
  simp only [CarrierSlot.unloaded, CarrierSlot.mk.injEq, and_true] at hslot
  obtain ⟨rfl, rfl, rfl, rfl, rfl⟩ := hslot
  exact ⟨h.kind, h.length, fun hclean => h.clean (hdirty hclean), hbuffer⟩

namespace Holds

theorem base_slot (h : Holds pool base payloads) (hi : pool.store.carriers[i]? = some slot) :
    base.carriers[i]? = some slot.unloaded := by
  rw [← h.reopened, BlockStore.reopened]
  dsimp only
  rw [List.getElem?_map, hi, Option.map_some]

theorem exists_slot (h : Holds pool base payloads) (hi : base.carriers[i]? = some slot) :
    ∃ slot', pool.store.carriers[i]? = some slot' ∧ slot'.unloaded = slot := by
  rw [← h.reopened, BlockStore.reopened] at hi
  dsimp only at hi
  rwa [List.getElem?_map, Option.map_eq_some_iff] at hi

/-- Replacing a slot by one with another payload. -/
theorem setSlot (h : Holds pool base payloads) (hi : pool.store.carriers[i]? = some slot)
    (slot' : CarrierSlot) (hslot : slot'.unloaded = slot.unloaded) (hheld : Held pool.folder base slot' payload) :
    Holds (pool.setSlot i slot') base (Function.update payloads i payload) := by
  refine ⟨(reopened_setSlot hi hslot).trans h.reopened, ?_⟩
  intro j s hj
  rw [Pool.setSlot] at hj
  dsimp only at hj
  rw [List.getElem?_set] at hj
  split_ifs at hj with hij
  · subst hij
    obtain rfl := Option.some.inj hj
    rwa [Function.update_self]
  · rw [Function.update_of_ne (Ne.symm hij)]
    exact h.held j s hj

/-- Loading a slot leaves the payloads alone. -/
theorem load (h : Holds pool base payloads) (hi : pool.store.carriers[i]? = some slot) :
    Holds (pool.setSlot i { slot with buffer := some (payloads i) }) base payloads := by
  have hset := h.setSlot hi { slot with buffer := some (payloads i) } rfl
    ((h.held i slot hi).of_unloaded rfl id (Or.inl rfl))
  rwa [Function.update_eq_self] at hset

end Holds

omit [CarrierFolder κ] in
theorem exec_slotAt (hi : pool.store.carriers[i]? = some slot) :
    exec (Pool.slotAt i) pool = (.ok slot, pool) := by
  rw [Pool.slotAt, exec_bind, exec_gets]
  simp only [id, hi]
  rfl

theorem fetch_eq (h : Holds pool base payloads) (slot : CarrierSlot) :
    pool.store.fetch pool.folder slot = base.fetch pool.folder slot := by
  rw [← h.reopened]
  rfl

/-- Loading always succeeds. -/
theorem exec_ensureLoaded (h : Holds pool base payloads)
    (hi : pool.store.carriers[i]? = some slot) : exec (Pool.ensureLoaded i) pool =
      (.ok (), pool.setSlot i { slot with buffer := some (payloads i) }) := by
  have hheld := h.held i slot hi
  rw [Pool.ensureLoaded, exec_bind, exec_slotAt hi]
  rcases hheld.buffer with hbuffer | ⟨hbuffer, hclean⟩
  · have hself : { slot with buffer := some (payloads i) } = slot := by rw [← hbuffer]
    have hset : pool.setSlot i slot = pool := by
      obtain ⟨hlt, rfl⟩ := List.getElem?_eq_some_iff.1 hi
      rw [Pool.setSlot, List.set_getElem_self]
    simp only [hbuffer, exec_pure, hself, hset]
  · simp only [hbuffer, exec_bind, exec_gets, Pool.ofResult, exec_ofExcept, id, fetch_eq h,
      hheld.clean hclean, Except.mapError, exec_update]

omit [CarrierFolder κ] in
theorem getElem?_setSlot (hi : pool.store.carriers[i]? = some slot) :
    (pool.setSlot i slot').store.carriers[i]? = some slot' := by
  rw [Pool.setSlot]
  exact List.getElem?_set_self (List.getElem?_eq_some_iff.1 hi).1

/-- A read returns what the payloads say. -/
theorem exec_readBlock (h : Holds pool base payloads) (lba : Nat) : ∃ pool',
    exec (Pool.readBlock lba) pool = (readFrom crypto base payloads lba, pool') ∧
      Holds pool' base payloads := by
  rw [Pool.readBlock, exec_bind, exec_gets, readFrom, ← h.reopened, BlockStore.carrierFor_reopened]
  dsimp only [id]
  rw [exec_bind, Pool.ofResult, exec_ofExcept]
  cases hfor : pool.store.carrierFor lba with
  | error e => exact ⟨pool, rfl, h.reopened.symm ▸ h⟩
  | ok i =>
    obtain ⟨slot, hi⟩ := BlockStore.exists_of_carrierFor hfor
    have hload := exec_ensureLoaded h hi
    simp only [Except.mapError]
    rw [exec_bind, hload]
    dsimp only
    rw [exec_bind, exec_slotAt (getElem?_setSlot hi), h.reopened, h.base_slot hi]
    dsimp only
    refine ⟨_, ?_, h.load hi⟩
    rw [show slot.unloaded.offset lba = CarrierSlot.offset { slot with buffer := some (payloads i) } lba
      from rfl]
    cases sliceChecked (payloads i) _ _ with
    | none => rfl
    | some block =>
      rw [← h.reopened]
      rfl

/-- Drawing random bytes leaves the payloads alone. -/
theorem Holds.draw (h : Holds pool base payloads) (nonces : Nat → Vector UInt8 24) :
    Holds ({ pool with nonces } : Pool κ crypto) base payloads :=
  ⟨h.reopened, h.held⟩

omit [CarrierFolder κ] in
/-- The bytes for a payload, if there are any, are a plaintext block or come from the cipher. -/
theorem exec_encodeBlock (pool : Pool κ crypto) (lba : Nat) (payload : List UInt8) :
    ∃ result nonces, exec (Pool.encodeBlock lba payload) pool = (result, { pool with nonces }) ∧
      (nonces = pool.nonces ∨ nonces = fun n => pool.nonces (n + 1)) ∧ result = if pool.store.encrypted then
          match pool.store.cipher with
          | none => .error (.error .auth)
          | some cipher => (cipher.encode crypto (pool.nonces 0) lba payload).mapError Fault.error
        else .ok (buildPhysicalBlock payload) := by
  rw [Pool.encodeBlock, exec_bind, exec_gets]
  dsimp only [id]
  split_ifs with hencrypted
  · cases hcipher : pool.store.cipher with
    | none => exact ⟨_, pool.nonces, rfl, Or.inl rfl, rfl⟩
    | some cipher => exact ⟨_, fun n => pool.nonces (n + 1), rfl, Or.inr rfl, rfl⟩
  · exact ⟨_, pool.nonces, rfl, Or.inl rfl, rfl⟩

/-- Encryption never fails. -/
def Crypto.Total (crypto : Crypto) : Prop :=
  ∀ key nonce aad plaintext, (crypto.encrypt key nonce aad plaintext).isSome

/-- The bytes for a payload are decoded at its address. -/
theorem decodeBlock_of_encodeBlock (h : Holds pool base payloads)
    {lba : Nat} (hlen : payload.length ≤ UB) {block : List UInt8} {pool' : Pool κ crypto}
    (hencode : exec (Pool.encodeBlock lba payload) pool = (.ok block, pool')) :
    block.length = PB ∧ (crypto.Exact → base.decodeBlock crypto lba block = .ok (Block.pad payload)) := by
  obtain ⟨result, nonces, hexec, -, hresult⟩ := exec_encodeBlock pool lba payload
  have hencrypted : pool.store.encrypted = base.encrypted := by rw [← h.reopened]; rfl
  have hcipher : pool.store.cipher = base.cipher := by rw [← h.reopened]; rfl
  obtain rfl : result = .ok block := congrArg Prod.fst (hexec.symm.trans hencode)
  rw [hencrypted, hcipher] at hresult
  simp only [BlockStore.decodeBlock]
  split_ifs at hresult ⊢
  · cases hsome : base.cipher with
    | none => simp [hsome] at hresult
    | some cipher =>
      simp only [hsome] at hresult
      have hblock := except_mapError_ok hresult.symm
      exact ⟨(encode_spec hblock).2.1, fun hexact => BlockCipher.decode_encode hexact hblock⟩
  · obtain rfl := Except.ok.inj hresult
    exact ⟨length_buildPhysicalBlock payload, fun _ => readPhysicalBlock_build hlen⟩

/-- When encryption never fails, every payload has its bytes. -/
theorem encodeBlock_total (htotal : crypto.Total) (hbase : base.Wellformed)
    (h : Holds pool base payloads) (lba : Nat) (hlen : payload.length ≤ UB) :
    ∃ block nonces, exec (Pool.encodeBlock lba payload) pool = (.ok block, { pool with nonces }) := by
  obtain ⟨result, nonces, hexec, -, hresult⟩ := exec_encodeBlock pool lba payload
  have hencrypted : pool.store.encrypted = base.encrypted := by rw [← h.reopened]; rfl
  have hcipher : pool.store.cipher = base.cipher := by rw [← h.reopened]; rfl
  rw [hencrypted, hcipher] at hresult
  split_ifs at hresult with hkeys
  · obtain ⟨cipher, hsome⟩ := Option.isSome_iff_exists.1 (hbase.keyed hkeys).1
    obtain ⟨⟨ciphertext, tag⟩, hencrypt⟩ := Option.isSome_iff_exists.1
      (htotal cipher.key (pool.nonces 0).toList (u64LE (UInt64.ofNat lba)) (Block.pad payload))
    rw [hsome] at hresult
    dsimp only at hresult
    rw [BlockCipher.encode, if_neg (by omega), hencrypt] at hresult
    subst hresult
    exact ⟨_, nonces, hexec⟩
  · subst hresult
    exact ⟨_, nonces, hexec⟩

/-- The last step of a write checks that the block lies in the payload. -/
theorem writeBlock_eq (h : Holds pool base payloads) (hfor : base.carrierFor lba = .ok i)
    (hi : pool.store.carriers[i]? = some slot) (hlen : payload.length ≤ UB) :
    exec (Pool.writeBlock lba payload) pool =
      match exec (Pool.encodeBlock lba payload)
        (pool.setSlot i { slot with buffer := some (payloads i) }) with
      | (.error e, pool') => (.error e, pool')
      | (.ok block, pool') =>
        if slot.offset lba + PB ≤ (payloads i).length then
          (.ok (), pool'.setSlot i { slot with
            buffer := some (overwrite (payloads i) (slot.offset lba) block), dirty := true })
        else (.error .panic, pool') := by
  have hfor' : pool.store.carrierFor lba = .ok i := by
    rw [← BlockStore.carrierFor_reopened, h.reopened, hfor]
  rw [Pool.writeBlock, if_neg (by omega), exec_bind, exec_gets]
  dsimp only [id]
  rw [exec_bind, Pool.ofResult, exec_ofExcept, hfor']
  dsimp only [Except.mapError]
  rw [exec_bind, exec_ensureLoaded h hi]
  dsimp only
  rw [exec_bind, exec_slotAt (getElem?_setSlot hi)]
  dsimp only
  rw [exec_bind]
  rcases exec (Pool.encodeBlock lba payload) _ with ⟨_ | block, pool'⟩
  · rfl
  · rw [show CarrierSlot.offset { slot with buffer := some (payloads i) } lba = slot.offset lba from rfl]
    dsimp only
    split_ifs <;> rfl

/-- A write to a block of the store replaces its bytes by bytes that decode to the payload, unless the
encryption fails; then nothing changes. -/
theorem exec_writeBlock (hfits : base.Fits) (h : Holds pool base payloads)
    (hfor : base.carrierFor lba = .ok i) (hi : base.carriers[i]? = some slot)
    (hlba : slot.blockStart.toNat ≤ lba ∧ lba < slot.blockStart.toNat + slot.blockCount.toNat)
    (hlen : payload.length ≤ UB) :
    (∃ block pool', exec (Pool.writeBlock lba payload) pool = (.ok (), pool') ∧ block.length = PB ∧
      (crypto.Exact → base.decodeBlock crypto lba block = .ok (Block.pad payload)) ∧
      Holds pool' base
        (Function.update payloads i (overwrite (payloads i) (slot.offset lba) block))) ∨
    ∃ fault loaded pool', exec (Pool.writeBlock lba payload) pool = (.error fault, pool') ∧
      exec (Pool.encodeBlock lba payload) loaded = (.error fault, pool') ∧
      Holds loaded base payloads ∧ Holds pool' base payloads := by
  obtain ⟨slot', hi', rfl⟩ := h.exists_slot hi
  have hheld := h.held i slot' hi'
  have hloaded := h.load hi'
  have heq := writeBlock_eq h hfor hi' hlen
  obtain ⟨result, nonces, hencode, -, -⟩ :=
    exec_encodeBlock (pool.setSlot i { slot' with buffer := some (payloads i) }) lba payload
  rw [hencode] at heq
  cases result with
  | error fault => exact Or.inr ⟨fault, _, _, heq, hencode, hloaded, hloaded.draw nonces⟩
  | ok block =>
    obtain ⟨hblock, hdecode⟩ := decodeBlock_of_encodeBlock hloaded hlen hencode
    have hin : slot'.offset lba + PB ≤ (payloads i).length :=
      hheld.length ▸ (hfits.offset_eq hi hlba).2
    dsimp only at heq
    rw [if_pos hin] at heq
    refine Or.inl ⟨block, _, heq, hblock, hdecode, (hloaded.draw nonces).setSlot (getElem?_setSlot hi')
      { slot' with buffer := some (overwrite (payloads i) (slot'.offset lba) block), dirty := true }
      rfl ⟨hheld.kind, ?_, fun hclean => ?_, Or.inl rfl⟩⟩
    · rw [length_overwrite]
      exact hheld.length
    · cases hclean

/-- The bytes of one address change. -/
theorem readFrom_update (hbase : base.Wellformed) (hfits : base.Fits)
    (hfor : base.carrierFor lba = .ok i) (hi : base.carriers[i]? = some slot)
    (hlba : slot.blockStart.toNat ≤ lba ∧ lba < slot.blockStart.toNat + slot.blockCount.toNat)
    (hlength : (payloads i).length = slot.expected) {block : List UInt8} (hblock : block.length = PB)
    (lba' : Nat) : readFrom crypto base
        (Function.update payloads i (overwrite (payloads i) (slot.offset lba) block)) lba' =
      if lba' = lba then (base.decodeBlock crypto lba block).mapError Fault.error
      else readFrom crypto base payloads lba' := by
  have hoffset := hfits.offset_eq hi hlba
  split_ifs with heq
  · subst heq
    rw [readFrom, hfor]
    dsimp only
    rw [hi]
    dsimp only
    rw [Function.update_self, sliceChecked_eq (Nat.le_add_right _ _)
      (by rw [length_overwrite, hlength]; exact hoffset.2), Nat.add_sub_cancel_left, ← hblock,
      slice_overwrite_self (by rw [hblock, hlength]; exact hoffset.2)]
  · rw [readFrom, readFrom]
    cases hfor' : base.carrierFor lba' with
    | error e => rfl
    | ok j =>
      dsimp only
      by_cases hij : j = i
      · subst hij
        have hlba'' : lba' < base.totalBlocks.toNat := by
          by_contra hge
          rw [BlockStore.carrierFor_of_le (by omega)] at hfor'
          cases hfor'
        obtain ⟨k, slot', hfor'', hk, hlba'⟩ := hbase.contiguous.carrierFor_eq hlba''
        obtain rfl := Except.ok.inj (hfor'.symm.trans hfor'')
        obtain rfl := Option.some.inj (hi.symm.trans hk)
        have hoffset' := hfits.offset_eq hi hlba'
        rw [hi]
        dsimp only
        rw [Function.update_self, sliceChecked_eq (Nat.le_add_right _ _)
          (by rw [length_overwrite, hlength]; exact hoffset'.2),
          sliceChecked_eq (Nat.le_add_right _ _) (by rw [hlength]; exact hoffset'.2),
          slice_overwrite_of_disjoint]
        rw [hblock, Nat.add_sub_cancel_left]
        exact hfits.offset_disjoint hi hlba' hlba heq
      · rw [Function.update_of_ne hij]

/-- A write outside the array fails and changes nothing. -/
theorem exec_writeBlock_of_le (h : Holds pool base payloads) (lba : Nat) (payload : List UInt8)
    (hle : base.totalBlocks.toNat ≤ lba ∨ UB < payload.length) :
    ∃ fault, exec (Pool.writeBlock lba payload) pool = (.error fault, pool) := by
  rw [Pool.writeBlock]
  by_cases hlen : payload.length > UB
  · rw [if_pos hlen]
    exact ⟨_, rfl⟩
  · have htotal : pool.store.totalBlocks.toNat ≤ lba := by
      have := hle.resolve_right hlen
      rwa [← h.reopened] at this
    rw [if_neg hlen, exec_bind, exec_gets]
    dsimp only [id]
    rw [exec_bind, Pool.ofResult, exec_ofExcept, BlockStore.carrierFor_of_le htotal]
    exact ⟨_, rfl⟩

/-- A write leaves payloads behind, whether it succeeds or fails. -/
theorem exists_holds_writeBlock (hbase : base.Wellformed) (hfits : base.Fits)
    (h : Holds pool base payloads) (lba : Nat) (payload : List UInt8) :
    ∃ payloads', Holds (exec (Pool.writeBlock lba payload) pool).2 base payloads' := by
  by_cases hin : lba < base.totalBlocks.toNat ∧ payload.length ≤ UB
  · obtain ⟨i, slot, hfor, hi, hlba⟩ := hbase.contiguous.carrierFor_eq hin.1
    rcases exec_writeBlock hfits h hfor hi hlba hin.2 with
      ⟨block, pool', hexec, -, -, hholds⟩ | ⟨fault, loaded, pool', hexec, -, -, hholds⟩ <;> rw [hexec]
    · exact ⟨_, hholds⟩
    · exact ⟨_, hholds⟩
  · obtain ⟨fault, hexec⟩ := exec_writeBlock_of_le h lba payload (by omega)
    rw [hexec]
    exact ⟨_, h⟩

/-- What a write does to the array that the payloads stand for: it changes one block, or fails and
changes nothing. -/
theorem ends_writeBlock (hexact : crypto.Exact) (hbase : base.Wellformed) (hfits : base.Fits)
    (h : Holds pool base payloads) (lba : Nat) (payload : List UInt8) :
    Ends (Pool.writeBlock lba payload) pool
      (fun _ pool' => lba < base.totalBlocks.toNat ∧ payload.length ≤ UB ∧
        ∃ payloads', Holds pool' base payloads' ∧ readFrom crypto base payloads' =
          Function.update (readFrom crypto base payloads) lba (.ok (Block.pad payload)))
      fun _ pool' => Holds pool' base payloads := by
  by_cases hin : lba < base.totalBlocks.toNat ∧ payload.length ≤ UB
  · obtain ⟨i, slot, hfor, hi, hlba⟩ := hbase.contiguous.carrierFor_eq hin.1
    rcases exec_writeBlock hfits h hfor hi hlba hin.2 with
      ⟨block, pool', hexec, hblock, hdecode, hholds⟩ | ⟨fault, loaded, pool', hexec, -, -, hholds⟩
    · rw [Ends, hexec]
      have hlength : (payloads i).length = slot.expected := by
        obtain ⟨slot', hi', rfl⟩ := h.exists_slot hi
        exact (h.held i slot' hi').length
      refine ⟨hin.1, hin.2, _, hholds, ?_⟩
      ext1 lba'
      rw [readFrom_update hbase hfits hfor hi hlba hlength hblock, hdecode hexact, Function.update_apply]
      rfl
    · rwa [Ends, hexec]
  · obtain ⟨fault, hexec⟩ := exec_writeBlock_of_le h lba payload (by omega)
    rwa [Ends, hexec]

/-- When encryption never fails, a write fails exactly when its address or its payload is too large. -/
theorem writeBlock_error_iff (htotal : crypto.Total) (hbase : base.Wellformed)
    (hfits : base.Fits) (h : Holds pool base payloads) (lba : Nat) (payload : List UInt8) :
    (∃ fault, (exec (Pool.writeBlock lba payload) pool).1 = .error fault) ↔
      base.totalBlocks.toNat ≤ lba ∨ UB < payload.length := by
  constructor
  · rintro ⟨fault, hfault⟩
    by_contra hin
    push Not at hin
    obtain ⟨i, slot, hfor, hi, hlba⟩ := hbase.contiguous.carrierFor_eq hin.1
    rcases exec_writeBlock hfits h hfor hi hlba hin.2 with
      ⟨block, pool', hexec, -⟩ | ⟨fault, loaded, pool', -, hencode, hloaded, -⟩
    · rw [hexec] at hfault
      cases hfault
    · obtain ⟨block, nonces, hok⟩ := encodeBlock_total htotal hbase hloaded lba hin.2
      rw [hencode] at hok
      cases hok
  · intro hle
    obtain ⟨fault, hexec⟩ := exec_writeBlock_of_le h lba payload hle
    exact ⟨fault, by rw [hexec]⟩

/-- A slot is fetched when its chunk is read back. -/
theorem fetch_of_readBack {folder : κ} {store : BlockStore} {mode : ChunkWrite} {key : List UInt8}
    (hkind : (kindFor slot.path).isSome) (hlength : payload.length = slot.expected)
    (hmode : store.writeMode slot = .ok (mode, key))
    (hread : readChunk folder slot.path (mode.readBack payload) key = .ok (mode.info, payload)) :
    store.fetch folder slot = .ok payload := by
  have hmodes : store.readMode slot = .ok (mode.readBack payload, key) ∧
      mode.info.chunkIndex = slot.chunkIndex := by
    rw [BlockStore.writeMode] at hmode
    rw [BlockStore.readMode]
    by_cases hencrypted : store.encrypted = true
    · rw [if_pos hencrypted] at hmode ⊢
      cases horder : store.orderKey with
      | none => simp [horder] at hmode
      | some orderKey =>
        simp only [horder, Except.ok.injEq, Prod.mk.injEq] at hmode
        obtain ⟨rfl, rfl⟩ := hmode
        exact ⟨by rw [ChunkWrite.readBack, hlength], rfl⟩
    · rw [if_neg hencrypted] at hmode ⊢
      simp only [Except.ok.injEq, Prod.mk.injEq] at hmode
      obtain ⟨rfl, rfl⟩ := hmode
      exact ⟨rfl, rfl⟩
  have hsome : ¬ (kindFor slot.path).isNone := by
    rw [Option.isNone_iff_eq_none, ← Ne, ← Option.isSome_iff_ne_none]
    exact hkind
  rw [BlockStore.fetch, if_neg hsome, hmodes.1]
  simp only [bind, Except.bind]
  rw [hread]
  simp only [Except.mapError]
  rw [if_neg (not_not.2 hmodes.2), if_neg (not_not.2 hlength)]

/-- What is written for a slot is what is fetched for it. -/
theorem fetch_of_writeChunk (hchunks : ExactChunks κ) {folder folder' : κ} {store : BlockStore}
    {mode : ChunkWrite} {key : List UInt8} (hkind : (kindFor slot.path).isSome)
    (hlength : payload.length = slot.expected) (hmode : store.writeMode slot = .ok (mode, key))
    (hwrite : writeChunk folder slot.path mode payload key = (.ok (), folder')) :
    store.fetch folder' slot = .ok payload :=
  fetch_of_readBack hkind hlength hmode (hchunks.read_write hwrite)

/-- A slot is fetched from its carrier alone. -/
theorem fetch_congr {folder folder' : κ} {store : BlockStore}
    (hread : ∀ mode key, readChunk folder' slot.path mode key = readChunk folder slot.path mode key) :
    store.fetch folder' slot = store.fetch folder slot := by
  simp only [BlockStore.fetch, hread]

/-- The slots that agree with their carriers. -/
def Clean (pool : Pool κ crypto) (i : Nat) : Prop :=
  ∀ slot, pool.store.carriers[i]? = some slot → slot.dirty = false

/-- A carrier written back. -/
theorem Holds.written (hchunks : ExactChunks κ) (hbase : base.Wellformed)
    (h : Holds pool base payloads) (hi : pool.store.carriers[i]? = some slot) {folder' : κ}
    {mode : ChunkWrite} {key : List UInt8} (hmode : pool.store.writeMode slot = .ok (mode, key))
    (hwrite : writeChunk pool.folder slot.path mode (payloads i) key = (.ok (), folder')) :
    Holds (({ pool with folder := folder' } : Pool κ crypto).setSlot i
      { slot with buffer := some (payloads i), dirty := false }) base payloads := by
  have hheld := h.held i slot hi
  have hmode' : base.writeMode slot = .ok (mode, key) := by
    rw [← hmode, ← h.reopened]
    rfl
  have hfetch := fetch_of_writeChunk hchunks hheld.kind hheld.length hmode' hwrite
  have hkept : Holds ({ pool with folder := folder' } : Pool κ crypto) base payloads := by
    refine ⟨h.reopened, fun j s hj => ?_⟩
    have hs := h.held j s hj
    refine ⟨hs.kind, hs.length, fun hclean => ?_, hs.buffer⟩
    by_cases hji : j = i
    · subst hji
      obtain rfl := Option.some.inj (hi.symm.trans hj)
      exact hfetch
    · rw [← hs.clean hclean]
      refine fetch_congr fun mode' key' => ?_
      have hpath : s.path ≠ slot.path := fun hpath =>
        hji (hbase.path_inj (h.base_slot hj) (h.base_slot hi) hpath)
      have hother := hchunks.read_other pool.folder mode (payloads i) key hpath mode' key'
      rwa [hwrite] at hother
  have hset := hkept.setSlot hi { slot with buffer := some (payloads i), dirty := false } rfl
    ⟨hheld.kind, hheld.length, fun _ => hfetch, Or.inl rfl⟩
  rwa [Function.update_eq_self] at hset

/-- A carrier whose rewriting failed. -/
theorem Holds.failed (hchunks : ExactChunks κ) (h : Holds pool base payloads) {path : String}
    {folder' : κ} {mode : ChunkWrite} {payload key : List UInt8} {e : CodecError}
    (hwrite : writeChunk pool.folder path mode payload key = (.error e, folder')) :
    Holds ({ pool with folder := folder' } : Pool κ crypto) base payloads := by
  refine ⟨h.reopened, fun j s hj => ?_⟩
  have hs := h.held j s hj
  refine ⟨hs.kind, hs.length, fun hclean => ?_, hs.buffer⟩
  rw [← hs.clean hclean]
  refine fetch_congr fun mode' key' => ?_
  by_cases hpath : s.path = path
  · rw [hpath]
    exact hchunks.read_failed hwrite mode' key'
  · have hother := hchunks.read_other pool.folder mode payload key hpath mode' key'
    rwa [hwrite] at hother

section Flush

variable {n : Nat}

omit [CarrierFolder κ] in
theorem Clean.setSlot {j : Nat} (h : Clean pool j) (hslot : slot.dirty = false) :
    Clean (pool.setSlot i slot) j := by
  intro s hj
  rw [Pool.setSlot] at hj
  dsimp only at hj
  rw [List.getElem?_set] at hj
  split_ifs at hj
  · obtain rfl := Option.some.inj hj
    exact hslot
  · exact h s hj

/-- The loop of a flush leaves the payloads alone even if it fails; if it succeeds, its slots agree
with their carriers. -/
theorem ends_flushSlots (hchunks : ExactChunks κ) (hbase : base.Wellformed)
    (h : Holds pool base payloads) : Ends (Pool.flushSlots i n) pool
      (fun _ pool' => Holds pool' base payloads ∧
        ∀ j, Clean pool j ∨ i ≤ j ∧ j < i + n → Clean pool' j)
      (fun _ pool' => Holds pool' base payloads) := by
  induction n generalizing i pool with
  | zero =>
    refine ⟨h, fun j hj => hj.resolve_right (by omega)⟩
  | succ n ih =>
    rw [Pool.flushSlots, ends_bind]
    cases hi : pool.store.carriers[i]? with
    | none =>
      have hexec : exec (Pool.slotAt i) pool = (.error .panic, pool) := by
        rw [Pool.slotAt, exec_bind, exec_gets]
        simp only [id, hi]
        rfl
      rwa [Ends, hexec]
    | some slot =>
      rw [Ends, exec_slotAt hi]
      dsimp only
      have hrest : ∀ pool' : Pool κ crypto, Holds pool' base payloads → Clean pool' i →
          (∀ j, Clean pool j → Clean pool' j) → Ends (Pool.flushSlots (i + 1) n) pool'
            (fun _ pool'' => Holds pool'' base payloads ∧
              ∀ j, Clean pool j ∨ i ≤ j ∧ j < i + (n + 1) → Clean pool'' j)
            (fun _ pool'' => Holds pool'' base payloads) := by
        intro pool' h' hclean hkept
        refine (ih h').mono (fun _ pool'' hpool => ⟨hpool.1, fun j hj => hpool.2 j ?_⟩)
          fun _ _ he => he
        by_cases hji : j = i
        · exact Or.inl (hji ▸ hclean)
        · exact hj.imp (hkept j) fun hle => by omega
      by_cases hdirty : slot.dirty = true
      · rw [if_pos hdirty]
        have hbuffer : slot.buffer = some (payloads i) := by
          rcases (h.held i slot hi).buffer with hbuffer | ⟨-, hclean⟩
          · exact hbuffer
          · rw [hdirty] at hclean
            cases hclean
        simp only [hbuffer]
        by_cases hkind : (kindFor slot.path).isNone = true
        · rw [if_pos hkind]
          exact h
        rw [if_neg hkind, ends_bind, ends_gets, id, ends_bind, Pool.ofResult, ends_ofExcept]
        cases hmode : pool.store.writeMode slot with
        | error e => exact ⟨by rintro _ ⟨⟩, fun _ _ => h⟩
        | ok result =>
          obtain ⟨mode, key⟩ := result
          refine ⟨?_, by rintro _ ⟨⟩⟩
          rintro _ ⟨⟩
          dsimp only
          rw [ends_bind, Pool.writeCarrier, ends_bind, ends_gets, id]
          dsimp only
          rw [ends_bind, ends_update, Pool.ofResult, ends_ofExcept]
          rcases hwrite : writeChunk pool.folder slot.path mode (payloads i) key with ⟨_ | ⟨⟩, folder'⟩
          · refine ⟨by rintro _ ⟨⟩, fun _ _ => h.failed hchunks hwrite⟩
          · refine ⟨fun _ _ => ?_, by rintro _ ⟨⟩⟩
            rw [ends_bind, ends_update]
            refine hrest _ (h.written hchunks hbase hi hmode hwrite) (fun s hs => ?_)
              fun j hj => Clean.setSlot (show Clean ({ pool with folder := folder' } : Pool κ crypto) j
                from hj) rfl
            have hset := @getElem?_setSlot κ crypto { pool with folder := folder' } i slot
              { slot with buffer := some (payloads i), dirty := false } hi
            obtain rfl := Option.some.inj (hset.symm.trans hs)
            rfl
      · rw [if_neg hdirty]
        refine hrest pool h (fun s hs => ?_) fun _ hj => hj
        obtain rfl := Option.some.inj (hi.symm.trans hs)
        exact Bool.eq_false_iff.2 hdirty

/-- A flush leaves the payloads alone even if it fails; if it succeeds, every slot agrees with its
carrier. -/
theorem ends_flush (hchunks : ExactChunks κ) (hbase : base.Wellformed)
    (h : Holds pool base payloads) : Ends Pool.flush pool
      (fun _ pool' => Holds pool' base payloads ∧ ∀ j, Clean pool' j)
      (fun _ pool' => Holds pool' base payloads) := by
  rw [Pool.flush, ends_bind, ends_gets, id]
  refine (ends_flushSlots hchunks hbase h).mono (fun _ pool' hpool => ⟨hpool.1, fun j => ?_⟩)
    fun _ _ he => he
  by_cases hj : j < pool.store.carriers.length
  · exact hpool.2 j (Or.inr ⟨Nat.zero_le _, by omega⟩)
  · refine hpool.2 j (Or.inl fun s hs => ?_)
    rw [List.getElem?_eq_none (by omega)] at hs
    cases hs

/-- The pool with another store on its folder. -/
def Pool.withStore (pool : Pool κ crypto) (store : BlockStore) : Pool κ crypto := { pool with store }

/-- A new store on carriers that agree with the slots has the same payloads. -/
theorem Holds.reopen (h : Holds pool base payloads) (hclean : ∀ j, Clean pool j) :
    Holds (pool.withStore base) base payloads := by
  constructor
  · rw [← h.reopened]
    simp [Pool.withStore, BlockStore.reopened, Function.comp_def, CarrierSlot.unloaded]
  · intro j s hj
    rw [Pool.withStore, ← h.reopened, BlockStore.reopened] at hj
    dsimp only at hj
    rw [List.getElem?_map, Option.map_eq_some_iff] at hj
    obtain ⟨slot, hslot, rfl⟩ := hj
    have hheld := h.held j slot hslot
    exact ⟨hheld.kind, hheld.length, fun _ => hheld.clean (hclean j slot hslot), Or.inr ⟨rfl, rfl⟩⟩

end Flush

end Payloads

end AlbumFS

import AlbumFS.Fs.Linked
import AlbumFS.Pool.Faithful

/-!
# Invariants of a block store

The operations of a store change it in few ways: they replace the buffer of a slot and mark it, draw
random bytes, read the clock, and write the buffer of a slot to its carrier. A property of pools that
survives each of these survives every operation, whether it succeeds or fails.

## Main definitions

* `MemoryInvariant`, `StoreInvariant`: properties that survive the steps of a store.
* `Loaded`: what is in memory has the right length.

## Main results

* `MemoryInvariant.readBlock`, `MemoryInvariant.writeBlock`, `StoreInvariant.flush`: the operations.
* `StoreInvariant.linkedDevices`: the operations as those of a device.
-/

namespace AlbumFS

open CarrierFolder Prog

variable {κ : Type} [CarrierFolder κ] {crypto : Crypto}

/-- A property of pools that survives the steps of a store in memory. -/
structure MemoryInvariant (I : Pool κ crypto → Prop) : Prop where
  length : ∀ {pool : Pool κ crypto} {i : Nat} {slot buffer}, I pool →
    pool.store.carriers[i]? = some slot → slot.buffer = some buffer → buffer.length = slot.expected
  setSlot : ∀ {pool : Pool κ crypto} {i : Nat} {slot slot'}, I pool →
    pool.store.carriers[i]? = some slot → slot'.unloaded = slot.unloaded →
    (slot'.dirty = false → slot.dirty = false) → slot'.buffer.isSome = true →
    (∀ buffer, slot'.buffer = some buffer → buffer.length = slot'.expected) → I (pool.setSlot i slot')
  draw : ∀ {pool : Pool κ crypto}, I pool → I { pool with nonces := fun n => pool.nonces (n + 1) }
  tick : ∀ {pool : Pool κ crypto} clock, I pool → I { pool with clock }

/-- A property of pools that survives the steps of a store. -/
structure StoreInvariant (I : Pool κ crypto → Prop) : Prop extends MemoryInvariant I where
  written : ∀ {pool : Pool κ crypto} {i : Nat} {slot mode payload key folder'}, I pool →
    pool.store.carriers[i]? = some slot → slot.buffer = some payload →
    pool.store.writeMode slot = .ok (mode, key) →
    writeChunk pool.folder slot.path mode payload key = (.ok (), folder') →
    I (({ pool with folder := folder' } : Pool κ crypto).setSlot i { slot with dirty := false })
  failed : ∀ {pool : Pool κ crypto} {i : Nat} {slot mode payload key e folder'}, I pool →
    pool.store.carriers[i]? = some slot →
    writeChunk pool.folder slot.path mode payload key = (.error e, folder') →
    I { pool with folder := folder' }

theorem fetch_length {folder : κ} {store : BlockStore} {slot : CarrierSlot} {payload : List UInt8}
    (h : store.fetch folder slot = .ok payload) : payload.length = slot.expected := by
  rw [BlockStore.fetch] at h
  obtain ⟨-, h⟩ := except_ite_ok h
  obtain ⟨⟨mode, key⟩, -, h⟩ := except_bind_ok h
  obtain ⟨⟨info, payload'⟩, -, h⟩ := except_bind_ok h
  obtain ⟨-, h⟩ := except_ite_ok h
  obtain ⟨hlength, h⟩ := except_ite_ok h
  obtain rfl := Except.ok.inj h
  exact not_not.1 hlength

omit [CarrierFolder κ] in
theorem ends_slotAt (i : Nat) (pool : Pool κ crypto) : Ends (Pool.slotAt i) pool
    (fun slot pool' => pool' = pool ∧ pool.store.carriers[i]? = some slot)
    (fun _ pool' => pool' = pool) := by
  rw [Pool.slotAt, ends_bind, ends_gets, id]
  cases pool.store.carriers[i]? with
  | none => exact rfl
  | some slot => exact ⟨rfl, rfl⟩

namespace MemoryInvariant

variable {I : Pool κ crypto → Prop} {pool : Pool κ crypto} (h : MemoryInvariant I)
include h

theorem ensureLoaded (i : Nat) (hI : I pool) :
    Ends (Pool.ensureLoaded i) pool (fun _ pool' => I pool') fun _ pool' => I pool' := by
  rw [Pool.ensureLoaded]
  refine (ends_slotAt i pool).bind ?_ fun _ _ hpool => hpool ▸ hI
  rintro slot _ ⟨rfl, hi⟩
  cases hbuffer : slot.buffer with
  | some buffer => exact hI
  | none =>
    dsimp only
    rw [ends_bind, ends_gets, id, ends_bind, Pool.ofResult, ends_ofExcept]
    refine ⟨fun payload hfetch => ?_, fun _ _ => hI⟩
    refine h.setSlot hI hi rfl id rfl ?_
    rintro _ ⟨⟩
    exact fetch_length (except_mapError_ok hfetch)

theorem readBlock (lba : Nat) (hI : I pool) :
    Ends (Pool.readBlock lba) pool (fun _ pool' => I pool') fun _ pool' => I pool' := by
  rw [Pool.readBlock, ends_bind, ends_gets, id, ends_bind, Pool.ofResult, ends_ofExcept]
  refine ⟨fun i _ => (h.ensureLoaded i hI).bind (fun _ pool' hI' => ?_) fun _ _ he => he, fun _ _ => hI⟩
  refine (ends_slotAt i pool').bind ?_ fun _ _ hpool => hpool ▸ hI'
  rintro slot _ ⟨rfl, hi⟩
  cases slot.buffer with
  | none => exact hI'
  | some buffer =>
    dsimp only
    cases sliceChecked buffer (slot.offset lba) (slot.offset lba + PB) with
    | none => exact hI'
    | some block =>
      dsimp only
      rw [Pool.ofResult, ends_ofExcept]
      exact ⟨fun _ _ => hI', fun _ _ => hI'⟩

theorem writeBlock (lba : Nat) (payload : List UInt8) (hI : I pool) :
    Ends (Pool.writeBlock lba payload) pool (fun _ pool' => I pool') fun _ pool' => I pool' := by
  rw [Pool.writeBlock]
  split_ifs
  · exact hI
  rw [ends_bind, ends_gets, id, ends_bind, Pool.ofResult, ends_ofExcept]
  refine ⟨fun i _ => (h.ensureLoaded i hI).bind (fun _ pool' hI' => ?_) fun _ _ he => he, fun _ _ => hI⟩
  refine (ends_slotAt i pool').bind ?_ fun _ _ hpool => hpool ▸ hI'
  rintro slot pool' ⟨rfl, hi⟩
  obtain ⟨result, nonces, hencode, hnonces, -⟩ := exec_encodeBlock pool' lba payload
  rw [ends_bind, Ends, hencode]
  have hdrawn : I { pool' with nonces } := by
    rcases hnonces with rfl | rfl
    · exact hI'
    · exact h.draw hI'
  cases result with
  | error fault => exact hdrawn
  | ok block =>
    dsimp only
    cases hbuffer : slot.buffer with
    | none => exact hdrawn
    | some buffer =>
      dsimp only
      split_ifs
      · have hlength := h.length hI' hi hbuffer
        refine h.setSlot hdrawn hi rfl (by rintro ⟨⟩) rfl ?_
        rintro _ ⟨⟩
        rw [length_overwrite]
        exact hlength
      · exact hdrawn

end MemoryInvariant

namespace StoreInvariant

variable {I : Pool κ crypto → Prop} {pool : Pool κ crypto} (h : StoreInvariant I)
include h

theorem flushSlots (i n : Nat) (hI : I pool) :
    Ends (Pool.flushSlots i n) pool (fun _ pool' => I pool') fun _ pool' => I pool' := by
  induction n generalizing i pool with
  | zero => exact hI
  | succ n ih =>
    rw [Pool.flushSlots]
    refine (ends_slotAt i pool).bind ?_ fun _ _ hpool => hpool ▸ hI
    rintro slot pool ⟨rfl, hi⟩
    by_cases hdirty : slot.dirty = true
    · rw [if_pos hdirty]
      cases hbuffer : slot.buffer with
      | none => exact hI
      | some buffer =>
        dsimp only
        by_cases hkind : (kindFor slot.path).isNone = true
        · rw [if_pos hkind]
          exact hI
        rw [if_neg hkind, ends_bind, ends_gets, id, ends_bind, Pool.ofResult, ends_ofExcept]
        refine ⟨?_, fun _ _ => hI⟩
        rintro ⟨mode, key⟩ hmode
        dsimp only
        rw [ends_bind, Pool.writeCarrier, ends_bind, ends_gets, id]
        dsimp only
        rw [ends_bind, ends_update, Pool.ofResult, ends_ofExcept]
        rcases hwrite : writeChunk pool.folder slot.path mode buffer key with ⟨_ | ⟨⟩, folder'⟩
        · exact ⟨by rintro _ ⟨⟩, fun _ _ => h.failed hI hi hwrite⟩
        · refine ⟨fun _ _ => ?_, by rintro _ ⟨⟩⟩
          have hwritten := h.written hI hi hbuffer (except_mapError_ok hmode) hwrite
          rw [← hbuffer, ends_bind, ends_update]
          exact ih (i + 1) hwritten
    · rw [if_neg hdirty]
      exact ih (i + 1) hI

theorem flush (hI : I pool) :
    Ends Pool.flush pool (fun _ pool' => I pool') fun _ pool' => I pool' := by
  rw [Pool.flush, ends_bind, ends_gets, id]
  exact h.flushSlots 0 _ hI

/-- Every operation of a run keeps the invariant. -/
theorem after (op : StoreOp) (hI : I pool) : I (op.after pool) := by
  cases op with
  | write lba payload => exact (h.writeBlock lba payload hI).state
  | read lba => exact (h.readBlock lba hI).state
  | flush => exact (h.flush hI).state

theorem afterOps (ops : List StoreOp) (hI : I pool) : I (afterOps pool ops) := by
  induction ops generalizing pool with
  | nil => exact hI
  | cons op ops ih => exact ih (h.after op hI)

/-- The operations that the file system uses keep the invariant. -/
theorem linkedDevices : LinkedDevices fun pool pool' : Pool κ crypto => pool = pool' ∧ I pool where
  readBlock lba := linked_of_ends fun _ hI =>
    ends_mapError.2 ((h.readBlock lba hI).mono (fun _ _ hp => ⟨trivial, hp⟩) fun _ _ he => he)
  writeBlock lba payload := linked_of_ends fun _ hI =>
    ends_mapError.2 ((h.writeBlock lba payload hI).mono (fun _ _ hp => ⟨trivial, hp⟩) fun _ _ he => he)
  flush := linked_of_ends fun _ hI =>
    ends_mapError.2 ((h.flush hI).mono (fun _ _ hp => ⟨trivial, hp⟩) fun _ _ he => he)

end StoreInvariant

/-! ### What is in memory -/

/-- What is in memory has the length of its slot. -/
structure Loaded (pool : Pool κ crypto) (base : BlockStore) : Prop where
  reopened : pool.store.reopened = base
  length : ∀ (i : Nat) slot buffer, pool.store.carriers[i]? = some slot → slot.buffer = some buffer →
    buffer.length = slot.expected

namespace Loaded

variable {pool : Pool κ crypto} {base : BlockStore} {slot slot' : CarrierSlot} {i : Nat}

omit [CarrierFolder κ] in
theorem setSlot (h : Loaded pool base) (hi : pool.store.carriers[i]? = some slot)
    (hslot : slot'.unloaded = slot.unloaded)
    (hlength : ∀ buffer, slot'.buffer = some buffer → buffer.length = slot'.expected) :
    Loaded (pool.setSlot i slot') base := by
  refine ⟨(reopened_setSlot hi hslot).trans h.reopened, fun j s buffer hj hbuffer => ?_⟩
  rw [Pool.setSlot] at hj
  dsimp only at hj
  rw [List.getElem?_set] at hj
  split_ifs at hj
  · obtain rfl := Option.some.inj hj
    exact hlength buffer hbuffer
  · exact h.length j s buffer hj hbuffer

omit [CarrierFolder κ] in
theorem base_slot (h : Loaded pool base) (hi : pool.store.carriers[i]? = some slot) :
    base.carriers[i]? = some slot.unloaded := by
  rw [← h.reopened, BlockStore.reopened]
  dsimp only
  rw [List.getElem?_map, hi, Option.map_some]

omit [CarrierFolder κ] in
theorem mem_paths (h : Loaded pool base) (hi : pool.store.carriers[i]? = some slot) :
    slot.path ∈ base.carriers.map CarrierSlot.path :=
  List.mem_map.2 ⟨slot.unloaded, List.mem_of_getElem? (h.base_slot hi), rfl⟩

omit [CarrierFolder κ] in
theorem written (h : Loaded pool base) (hi : pool.store.carriers[i]? = some slot) {folder' : κ} :
    Loaded (({ pool with folder := folder' } : Pool κ crypto).setSlot i { slot with dirty := false })
      base := by
  have hother : Loaded ({ pool with folder := folder' } : Pool κ crypto) base := ⟨h.reopened, h.length⟩
  exact hother.setSlot hi rfl fun buffer hsome => h.length i slot buffer hi hsome

theorem storeInvariant (base : BlockStore) :
    StoreInvariant fun pool : Pool κ crypto => Loaded pool base where
  length h hi hbuffer := h.length _ _ _ hi hbuffer
  setSlot h hi hslot _ _ hlength := h.setSlot hi hslot hlength
  draw h := ⟨h.reopened, h.length⟩
  tick _ h := ⟨h.reopened, h.length⟩
  written h hi _ _ _ := h.written hi
  failed h _ _ := ⟨h.reopened, h.length⟩

/-- A property of the folder that the writes of a store keep. -/
theorem storeInvariant_and {P : κ → Prop} (base : BlockStore) (hP : ∀ {folder path} mode payload key,
    path ∈ base.carriers.map CarrierSlot.path → P folder → P (writeChunk folder path mode payload key).2) :
    StoreInvariant fun pool : Pool κ crypto => Loaded pool base ∧ P pool.folder where
  length h hi hbuffer := h.1.length _ _ _ hi hbuffer
  setSlot h hi hslot _ _ hlength := ⟨h.1.setSlot hi hslot hlength, h.2⟩
  draw h := ⟨⟨h.1.reopened, h.1.length⟩, h.2⟩
  tick _ h := ⟨⟨h.1.reopened, h.1.length⟩, h.2⟩
  written := by
    intro pool i slot mode payload key folder' h hi _ _ hwrite
    have hkept := hP mode payload key (h.1.mem_paths hi) h.2
    rw [hwrite] at hkept
    exact ⟨h.1.written hi, hkept⟩
  failed := by
    intro pool i slot mode payload key e folder' h hi hwrite
    have hkept := hP mode payload key (h.1.mem_paths hi) h.2
    rw [hwrite] at hkept
    exact ⟨⟨h.1.reopened, h.1.length⟩, hkept⟩

end Loaded

/-! ### The folder -/

/-- A folder in which only chunks of the named carriers were written. -/
structure KeptFolder (names : List String) (folder folder' : κ) : Prop where
  entries_eq : entries folder' = entries folder
  rawCapacity_eq : ∀ name, rawCapacity folder' name = rawCapacity folder name
  readChunk_eq : ∀ name, name ∉ names → ∀ mode key,
    readChunk folder' name mode key = readChunk folder name mode key
  readPrefix_eq : ∀ name, name ∉ names → ∀ length,
    readPrefix folder' name length = readPrefix folder name length

namespace KeptFolder

variable {names : List String} {folder folder' : κ}

theorem refl (names : List String) (folder : κ) : KeptFolder names folder folder :=
  ⟨rfl, fun _ => rfl, fun _ _ _ _ => rfl, fun _ _ _ => rfl⟩

theorem carrierPaths_eq (h : KeptFolder names folder folder') :
    carrierPaths folder' = carrierPaths folder := by
  rw [carrierPaths, carrierPaths, h.entries_eq]

theorem writeChunk (hfolder : ExactFolder κ) (h : KeptFolder names folder folder') {name : String}
    (hname : name ∈ names) (mode : ChunkWrite) (payload key : List UInt8) :
    KeptFolder names folder (CarrierFolder.writeChunk folder' name mode payload key).2 where
  entries_eq := (hfolder.entries_writeChunk _ _ _ _ _).trans h.entries_eq
  rawCapacity_eq other := (hfolder.rawCapacity_writeChunk _ _ _ _ _ _).trans (h.rawCapacity_eq other)
  readChunk_eq other hother mode' key' :=
    (hfolder.read_other folder' mode payload key (ne_of_mem_of_not_mem hname hother).symm mode'
      key').trans (h.readChunk_eq other hother mode' key')
  readPrefix_eq other hother length :=
    (hfolder.readPrefix_writeChunk folder' mode payload key length
      (ne_of_mem_of_not_mem hname hother).symm).trans (h.readPrefix_eq other hother length)

/-- A store writes chunks of its own carriers only. -/
theorem storeInvariant (hfolder : ExactFolder κ) (base : BlockStore) (folder : κ) :
    StoreInvariant fun pool : Pool κ crypto => Loaded pool base ∧
      KeptFolder (base.carriers.map CarrierSlot.path) folder pool.folder :=
  Loaded.storeInvariant_and base fun mode payload key hpath h =>
    h.writeChunk hfolder hpath mode payload key

end KeptFolder

end AlbumFS

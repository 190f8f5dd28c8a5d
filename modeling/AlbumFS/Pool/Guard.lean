import AlbumFS.Pool.RoundTrip

/-!
# Formats that fail

Formatting decides everything before it writes to a carrier. A format that fails leaves the folder as it
was, unless a codec has failed to write; a folder that can be opened as a plaintext pool is not formatted
again unless that is forced.

## Main definitions

* `CodecWrite`, `Rewritten`: folders that codecs have written to.
* `UnflushedInvariant`: what the reads and writes of a device keep.
* `Filled`: a pool whose payloads are all in memory.

## Main results

* `UnflushedInvariant.formatStore`: what a format keeps until its final flush.
* `containsValidPlaintextFilesystem_of_open`: the guard of a format recognises what can be opened.
* `formatWithAnchorOptions_failed`: what a failed format leaves behind.
-/

namespace AlbumFS

open CarrierFolder Prog

/-! ### Devices that keep an invariant until they are flushed -/

/-- Reads and writes of blocks keep the invariant, whether they succeed or fail. -/
structure UnflushedInvariant {σ : Type} [BlockDevice σ] (I : σ → Prop) : Prop where
  readBlock : ∀ lba s, I s →
    Ends (BlockDevice.readBlock lba) s (fun _ t => I t) fun _ t => I t
  writeBlock : ∀ lba payload s, I s →
    Ends (BlockDevice.writeBlock lba payload) s (fun _ t => I t) fun _ t => I t

namespace UnflushedInvariant

variable {σ : Type} [BlockDevice σ] {I : σ → Prop} (h : UnflushedInvariant I)
include h

theorem zeroBlocks (lba n : Nat) {s : σ} (hs : I s) :
    Ends (zeroBlocks lba n) s (fun _ t => I t) fun _ t => I t := by
  induction n generalizing lba s with
  | zero => exact hs
  | succ n ih =>
    rw [AlbumFS.zeroBlocks]
    exact (h.writeBlock lba _ s hs).bind (fun _ t ht => ih (lba + 1) ht) fun _ _ he => he

theorem writeBitmapBlocks (sb : Superblock) (bitmap : Bitmap) (index n : Nat) {s : σ} (hs : I s) :
    Ends (writeBitmapBlocks sb bitmap index n) s (fun _ t => I t) fun _ t => I t := by
  induction n generalizing index s with
  | zero => exact hs
  | succ n ih =>
    rw [AlbumFS.writeBitmapBlocks]
    exact (h.writeBlock _ _ s hs).bind (fun _ t ht => ih (index + 1) ht) fun _ _ he => he

/-- A format ends as its final flush does, or fails in a state with the invariant. -/
theorem formatStore {Q : Unit → σ → Prop} {E : FsError → σ → Prop}
    (hflush : ∀ s, I s → Ends BlockDevice.flush s Q E) (hE : ∀ e s, I s → E e s) (sb : Superblock)
    {s : σ} (hs : I s) : Ends (formatStore sb) s Q E := by
  rw [AlbumFS.formatStore]
  refine (h.zeroBlocks 0 _ hs).bind (fun _ s hs => ?_) hE
  refine Ends.bind (Q := fun _ t => I t) (E := fun _ t => I t) ?_ (fun _ s hs => ?_) hE
  · split_ifs
    · exact hs
    · exact hs
    · exact h.writeBlock 0 _ s hs
  rw [ends_bind, ends_ofExcept]
  refine ⟨?_, fun e _ => hE e s hs⟩
  rintro ⟨rootBlock, bitmap⟩ -
  rw [ends_bind, ends_ofExcept]
  refine ⟨fun payload _ => ?_, fun e _ => hE e s hs⟩
  refine (h.writeBlock rootBlock _ s hs).bind (fun _ s hs => ?_) hE
  refine (h.readBlock _ s hs).bind (fun inodeTable s hs => ?_) hE
  refine (h.writeBlock _ _ s hs).bind (fun _ s hs => ?_) hE
  exact (h.writeBitmapBlocks sb bitmap _ _ hs).bind (fun _ s hs => hflush s hs) hE

end UnflushedInvariant

variable {κ : Type} [CarrierFolder κ] {crypto : Crypto}

/-! ### Folders that codecs have written to -/

/-- A codec, told to write to a carrier of the folder, returns the result and leaves the other folder
behind. -/
def CodecWrite (folder : κ) (result : Except CodecError Unit) (folder' : κ) : Prop :=
  (∃ name mode payload key, writeChunk folder name mode payload key = (result, folder')) ∨
    ∃ name bytes, writePrefix folder name bytes = (result, folder')

/-- The folder after any number of codec writes that succeeded. -/
inductive Rewritten (folder : κ) : κ → Prop
  | refl : Rewritten folder folder
  | tail {before after : κ} : Rewritten folder before → CodecWrite before (.ok ()) after →
      Rewritten folder after

/-- The error is that of a codec write that failed after others had succeeded. -/
def WriteFailed (folder : κ) (e : FsError) (folder' : κ) : Prop :=
  ∃ before failure, Rewritten folder before ∧ CodecWrite before (.error failure) folder' ∧
    e = .codec failure

/-! ### The store of a format -/

/-- A store whose payloads are all in memory, on carriers that can be written. -/
structure Filled (pool : Pool κ crypto) (base : BlockStore) : Prop extends Loaded pool base where
  buffer : ∀ (i : Nat) slot, pool.store.carriers[i]? = some slot → slot.buffer.isSome

section Filled

variable {pool : Pool κ crypto} {base : BlockStore} {folder : κ}

omit [CarrierFolder κ] in
theorem Filled.setSlot (h : Filled pool base) {i : Nat} {slot slot' : CarrierSlot}
    (hi : pool.store.carriers[i]? = some slot) (hslot : slot'.unloaded = slot.unloaded)
    (hbuffer : slot'.buffer.isSome = true)
    (hlength : ∀ buffer, slot'.buffer = some buffer → buffer.length = slot'.expected) :
    Filled (pool.setSlot i slot') base := by
  refine ⟨h.toLoaded.setSlot hi hslot hlength, fun j s hj => ?_⟩
  rw [Pool.setSlot] at hj
  dsimp only at hj
  rw [List.getElem?_set] at hj
  split_ifs at hj
  · obtain rfl := Option.some.inj hj
    exact hbuffer
  · exact h.buffer j s hj

omit [CarrierFolder κ] in
theorem Filled.written (h : Filled pool base) {i : Nat} {slot : CarrierSlot}
    (hi : pool.store.carriers[i]? = some slot) (folder' : κ) :
    Filled (({ pool with folder := folder' } : Pool κ crypto).setSlot i { slot with dirty := false })
      base := by
  have hother : Filled ({ pool with folder := folder' } : Pool κ crypto) base :=
    ⟨⟨h.reopened, h.length⟩, h.buffer⟩
  exact hother.setSlot hi rfl (h.buffer i slot hi) fun buffer hsome => h.length i slot buffer hi hsome

omit [CarrierFolder κ] in
/-- Reading and writing blocks of a filled pool leaves the folder alone. -/
theorem Filled.memoryInvariant (base : BlockStore) (folder : κ) :
    MemoryInvariant fun pool : Pool κ crypto => Filled pool base ∧ pool.folder = folder where
  length h hi hbuffer := h.1.length _ _ _ hi hbuffer
  setSlot h hi hslot _ hbuffer hlength := ⟨h.1.setSlot hi hslot hbuffer hlength, h.2⟩
  draw h := ⟨⟨⟨h.1.reopened, h.1.length⟩, h.1.buffer⟩, h.2⟩
  tick _ h := ⟨⟨⟨h.1.reopened, h.1.length⟩, h.1.buffer⟩, h.2⟩

/-- Blocks of a filled pool are read and written in memory. -/
theorem Filled.unflushed (base : BlockStore) (folder : κ) :
    UnflushedInvariant fun pool : Pool κ crypto => Filled pool base ∧ pool.folder = folder where
  readBlock lba _ hpool :=
    ends_mapError.2 ((Filled.memoryInvariant base folder).readBlock lba hpool)
  writeBlock lba payload _ hpool :=
    ends_mapError.2 ((Filled.memoryInvariant base folder).writeBlock lba payload hpool)

/-- A flush of a filled pool fails only when a codec fails to write. -/
theorem Filled.ends_flushSlots (hkind : ∀ slot ∈ base.carriers, (kindFor slot.path).isSome)
    (hkey : base.encrypted = true → base.orderKey.isSome) (h : Filled pool base)
    (hfolder : Rewritten folder pool.folder) {i n : Nat} (hle : i + n ≤ pool.store.carriers.length) :
    Ends (Pool.flushSlots i n) pool (fun _ pool' => Rewritten folder pool'.folder)
      fun fault pool' => ∃ e, fault = .error e ∧ WriteFailed folder e pool'.folder := by
  induction n generalizing i pool with
  | zero => exact hfolder
  | succ n ih =>
    rw [Pool.flushSlots, ends_bind]
    obtain ⟨slot, hi⟩ : ∃ slot, pool.store.carriers[i]? = some slot :=
      ⟨_, List.getElem?_eq_getElem (by omega)⟩
    rw [Ends, exec_slotAt hi]
    dsimp only
    by_cases hdirty : slot.dirty = true
    · rw [if_pos hdirty]
      obtain ⟨buffer, hbuffer⟩ := Option.isSome_iff_exists.1 (h.buffer i slot hi)
      obtain ⟨kind, hkind⟩ := Option.isSome_iff_exists.1
        (hkind _ (List.mem_of_getElem? (h.base_slot hi)))
      obtain ⟨mode, key, hmode⟩ : ∃ mode key, pool.store.writeMode slot = .ok (mode, key) := by
        refine BlockStore.exists_writeMode (fun hencrypted => ?_) slot
        rw [← h.reopened] at hkey
        exact hkey hencrypted
      rw [hbuffer]
      dsimp only
      rw [show kindFor slot.path = some kind from hkind, if_neg (by simp), ends_bind, ends_gets, id,
        ends_bind, hmode, Pool.ofResult, ends_ofExcept]
      refine ⟨?_, by rintro _ ⟨⟩⟩
      rintro _ ⟨⟩
      dsimp only
      rw [ends_bind, Pool.writeCarrier, ends_bind, ends_gets, id]
      dsimp only
      rw [ends_bind, ends_update, Pool.ofResult, ends_ofExcept]
      rcases hwrite : writeChunk pool.folder slot.path mode buffer key with ⟨e | ⟨⟩, folder'⟩
      · refine ⟨by rintro _ ⟨⟩, ?_⟩
        rintro _ ⟨⟩
        exact ⟨_, rfl, pool.folder, e, hfolder, .inl ⟨_, _, _, _, hwrite⟩, rfl⟩
      · refine ⟨fun _ _ => ?_, by rintro _ ⟨⟩⟩
        rw [← hbuffer, ends_bind, ends_update]
        refine ih (h.written hi folder') (hfolder.tail (.inl ⟨_, _, _, _, hwrite⟩)) ?_
        rw [Pool.setSlot]
        dsimp only
        rw [List.length_set]
        omega
    · rw [if_neg hdirty]
      exact ih h hfolder (by omega)

omit [CarrierFolder κ] in
/-- The store of a plan, filled with zeros. -/
theorem filled_newForFormat {random : Randomness} {folder : κ} {plan : FormatPlan} :
    Filled (plan.pool crypto random folder)
      (BlockStore.newForFormat plan.paths plan.superblock.manifest plan.keys).reopened := by
  refine ⟨Loaded.newForFormat (plan.pool crypto random folder) _ _ _, fun i slot hi => ?_⟩
  rw [FormatPlan.pool, BlockStore.newForFormat, BlockStore.ofCarriers] at hi
  dsimp only at hi
  rw [List.getElem?_map, Option.map_eq_some_iff] at hi
  obtain ⟨⟨path, range⟩, -, rfl⟩ := hi
  rfl

end Filled

/-! ### Failed formats -/

section Failed

variable {folder folder' : κ} {random : Randomness} {passphrase requested : Option String}
  {force : Bool} {plan : FormatPlan}

/-- The carriers of a plan are images. -/
theorem planFormat_kind (h : planFormat crypto random folder passphrase requested force = .ok plan)
    {path : String} (hpath : path ∈ plan.paths) : (kindFor path).isSome := by
  obtain ⟨usable, husable, -, -, hpaths, -⟩ := planFormat_ok h
  rw [hpaths] at hpath
  exact (mem_carrierPaths.1 ((usableCarriers_ok husable).1.subset hpath)).2

/-- Filling the blocks of a plan fails before anything is written to a carrier, or because a codec
fails to write. -/
theorem ends_formatStore_plan
    (h : planFormat crypto random folder passphrase requested force = .ok plan) :
    Ends (formatStore plan.superblock) (plan.pool crypto random folder)
      (fun _ pool => Rewritten folder pool.folder)
      fun e pool => pool.folder = folder ∨ WriteFailed folder e pool.folder := by
  refine (Filled.unflushed _ folder).formatStore ?_ (fun _ pool hpool => .inl hpool.2) _
    ⟨filled_newForFormat, rfl⟩
  rintro pool ⟨hfilled, hpool⟩
  refine ends_mapError.2 ?_
  rw [Pool.flush, ends_bind, ends_gets, id]
  refine (hfilled.ends_flushSlots ?_ ?_ (hpool ▸ .refl) (Nat.le_of_eq (Nat.zero_add _))).mono
    (fun _ _ hq => hq) ?_
  · intro slot hslot
    obtain ⟨_, hcarrier, rfl⟩ := List.mem_map.1 hslot
    obtain ⟨⟨path, range⟩, hzip, rfl⟩ := List.mem_map.1 hcarrier
    exact planFormat_kind h (List.of_mem_zip hzip).1
  · cases hkeys : plan.keys with
    | none => rintro ⟨⟩
    | some keys => exact fun _ => rfl
  · rintro _ pool' ⟨e, rfl, hfailed⟩
    exact .inr hfailed

/-- A format that fails leaves the folder as it was, or a codec has failed to write. -/
theorem folder_of_format_error {e : FsError}
    (h : formatWithAnchorOptions crypto random folder passphrase requested force =
      (.error e, folder')) : folder' = folder ∨ WriteFailed folder e folder' := by
  rw [formatWithAnchorOptions] at h
  cases hplan : planFormat crypto random folder passphrase requested force with
  | error e' =>
    rw [hplan] at h
    exact .inl (congrArg Prod.snd h).symm
  | ok plan =>
    rw [hplan] at h
    dsimp only at h
    have hends := ends_formatStore_plan hplan
    rcases hexec : exec (formatStore plan.superblock) (plan.pool crypto random folder) with
      ⟨e' | ⟨⟩, pool⟩
    · rw [hexec] at h
      obtain ⟨⟨⟩, rfl⟩ := Prod.mk.inj h
      exact hends.of_error hexec
    · rw [hexec] at h
      dsimp only at h
      split at h
      · rename_i anchor bootstrap _ _
        rcases hpre : writePrefix pool.folder anchor bootstrap with ⟨failure | ⟨⟩, folder''⟩
        · rw [hpre] at h
          obtain ⟨⟨⟩, rfl⟩ := Prod.mk.inj h
          exact .inr ⟨pool.folder, failure, hends.of_ok hexec, .inr ⟨_, _, hpre⟩, rfl⟩
        · rw [hpre] at h
          cases (Prod.mk.inj h).1
      · cases (Prod.mk.inj h).1

/-- What can be opened as a plaintext pool, the guard of a format recognises. -/
theorem containsValidPlaintextFilesystem_of_open {sb : Superblock} {store : BlockStore}
    (h : openPlaintext folder = .ok (sb, store)) :
    containsValidPlaintextFilesystem folder (carrierPaths folder) = true := by
  rw [openPlaintext] at h
  cases hfind : (scan folder).find? fun carrier => carrier.2.1.flags &&& 1 != 0 with
  | none => simp [hfind] at h
  | some carrier =>
    obtain ⟨path, info, payload⟩ := carrier
    rw [hfind] at h
    dsimp only at h
    obtain ⟨hlength, h⟩ := except_ite_ok h
    obtain ⟨blockZero, hblock, h⟩ := except_bind_ok h
    obtain ⟨sb', hdecode, -⟩ := except_bind_ok h
    obtain ⟨hpath, hread⟩ := mem_scan.1 (List.mem_of_find?_eq_some hfind)
    have hprimary := List.find?_some hfind
    rw [containsValidPlaintextFilesystem, List.any_eq_true]
    refine ⟨path, hpath, ?_⟩
    rw [hread]
    dsimp only
    rw [if_neg (not_or.2 ⟨by simpa using hprimary, hlength⟩), hblock]
    dsimp only
    rw [hdecode]
    rfl

/-- A folder that can be opened as a plaintext pool is not formatted unless that is forced. -/
theorem planFormat_of_open {sb : Superblock} {store : BlockStore}
    (h : openPlaintext folder = .ok (sb, store)) :
    ∃ e, planFormat crypto random folder passphrase requested false = .error e := by
  cases hplan : planFormat crypto random folder passphrase requested false with
  | error e => exact ⟨e, rfl⟩
  | ok plan =>
    unfold planFormat at hplan
    obtain ⟨-, hplan⟩ := except_ite_ok hplan
    obtain ⟨-, hplan⟩ := except_ite_ok hplan
    obtain ⟨anchor, -, hplan⟩ := except_bind_ok hplan
    obtain ⟨hguard, -⟩ := except_ite_ok hplan
    rw [containsValidPlaintextFilesystem_of_open h] at hguard
    exact absurd rfl hguard

/-- A format does not damage what can be opened, and does not stop halfway: unless it is forced, a
folder that can be opened as a plaintext pool is left as it was, with an error; and every format
that fails leaves the folder as it was, unless a codec has failed to write. -/
theorem formatWithAnchorOptions_guarded (crypto : Crypto) (random : Randomness) (folder : κ)
    (passphrase requested : Option String) :
    (∀ sb store, openPlaintext folder = .ok (sb, store) →
      ∃ e, formatWithAnchorOptions crypto random folder passphrase requested false =
        (.error e, folder)) ∧
    ∀ force e folder', formatWithAnchorOptions crypto random folder passphrase requested force =
      (.error e, folder') → folder' = folder ∨ WriteFailed folder e folder' := by
  refine ⟨fun sb store hopen => ?_, fun force e folder' h => folder_of_format_error h⟩
  obtain ⟨e, he⟩ : ∃ e, planFormat crypto random folder passphrase requested false = .error e :=
    planFormat_of_open hopen
  exact ⟨e, by rw [formatWithAnchorOptions, he]⟩

end Failed

theorem formatWithAnchorOptions_guarded_oneBlock :
    (∃ e, formatWithAnchorOptions Crypto.identity zeroRandomness (storing (oneRange 1)) none none
      false = (.error e, storing (oneRange 1))) ∧
    ∃ e folder', formatWithAnchorOptions Crypto.identity zeroRandomness (storing (oneRange 1)) none
        (some "a.png") true = (.error e, folder') ∧
      (folder' = storing (oneRange 1) ∨ WriteFailed (storing (oneRange 1)) e folder') := by
  have hopen := openPlaintext_oneRange (show (1 : UInt64).toNat * PB % 2 ^ 64 = PB by decide) rfl
  constructor
  · exact (formatWithAnchorOptions_guarded Crypto.identity zeroRandomness _ none none).1 _ _ hopen
  · have hfailed : formatWithAnchorOptions Crypto.identity zeroRandomness (storing (oneRange 1)) none
        (some "a.png") true = (.error (.manifest
          "--anchor requires an encrypted format with a passphrase"), storing (oneRange 1)) := rfl
    exact ⟨_, _, hfailed, (formatWithAnchorOptions_guarded _ _ _ _ _).2 _ _ _ hfailed⟩

end AlbumFS

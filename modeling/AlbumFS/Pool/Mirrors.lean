import AlbumFS.Fs.Linked
import AlbumFS.Pool.Invariant

/-!
# A pool as a disk

A pool whose blocks are all known behaves as a disk, and what succeeds on the pool succeeds on the disk.
Where the carriers accept the payloads of their slots, what succeeds on the disk succeeds on the pool.

## Main definitions

* `Mirrors`: a pool and a disk with the same blocks.
* `Accepts`: folders whose carriers accept the payloads of a store.

## Main results

* `followDevices_mirrors`: a disk follows a pool.
* `followDevices_accepts`: a pool whose carriers accept their payloads follows a disk.
-/

namespace AlbumFS

open CarrierFolder Prog

variable {κ : Type} [CarrierFolder κ] {crypto : Crypto}

/-- The first `n` blocks of the pool are those of the disk, whose flushes succeed. -/
structure Mirrors (base : BlockStore) (n : Nat) (pool : Pool κ crypto) (disk : Disk) : Prop where
  total : disk.total = base.totalBlocks.toNat
  flushes : ∀ k, disk.flushes k = none
  blocks : ∃ payloads, Holds pool base payloads ∧
    ∀ lba, lba < n → readFrom crypto base payloads lba = .ok (disk.blocks lba)

omit [CarrierFolder κ] in
/-- A program of the store as the file system runs it. -/
theorem exists_exec_run {α : Type} (m : Prog Fault (Pool κ crypto) α) (pool : Pool κ crypto) :
    ∃ translate : Fault → FsError, (∀ e, translate (.error e) = e) ∧
      exec (Pool.run m) pool = (((exec m pool).1).mapError translate, (exec m pool).2) :=
  ⟨_, fun _ => rfl, rfl⟩

omit [CarrierFolder κ] in
/-- A program of the store that succeeds for the file system succeeds. -/
theorem exec_run_ok {α : Type} {m : Prog Fault (Pool κ crypto) α} {pool pool' : Pool κ crypto} {a : α} :
    exec (Pool.run m) pool = (.ok a, pool') ↔ exec m pool = (.ok a, pool') := by
  obtain ⟨translate, -, hexec⟩ := exists_exec_run m pool
  rw [hexec]
  rcases exec m pool with ⟨_ | b, pool''⟩
  · constructor <;> intro h <;> cases h
  · simp only [Except.mapError, Prod.mk.injEq, Except.ok.injEq]

section Mirrors

variable {base : BlockStore} {n lba : Nat}

theorem Mirrors.mono {pool : Pool κ crypto} {disk : Disk} (h : Mirrors base n pool disk) {m : Nat}
    (hle : m ≤ n) : Mirrors base m pool disk := by
  obtain ⟨payloads, hholds, hread⟩ := h.blocks
  exact ⟨h.total, h.flushes, payloads, hholds, fun lba hlba => hread lba (by omega)⟩

/-- A block outside the store cannot be read. -/
theorem readFrom_of_le {payloads : Nat → List UInt8} (h : base.totalBlocks.toNat ≤ lba) :
    readFrom crypto base payloads lba = .error (.error (.badBlock lba)) := by
  rw [readFrom, BlockStore.carrierFor_of_le h]

/-- A write of the pool that succeeds is a write of the disk. -/
theorem follows_writeBlock (hexact : crypto.Exact) (hbase : base.Wellformed) (hfits : base.Fits)
    (lba : Nat) (payload : List UInt8) {m : Nat} (hm : ∀ k, k < m → k < n ∨ k = lba) :
    Follows (Mirrors base n) (Mirrors base m)
      (BlockDevice.writeBlock lba payload : Prog FsError (Pool κ crypto) Unit)
      (BlockDevice.writeBlock lba payload : Prog FsError Disk Unit) := by
  intro pool disk hmirrors _ pool' hexec
  obtain ⟨payloads, hholds, hread⟩ := hmirrors.blocks
  have hwrite := (exec_run_ok (m := Pool.writeBlock lba payload)).1 hexec
  obtain ⟨hlt, hlen, payloads', hholds', hread'⟩ :=
    (ends_writeBlock hexact hbase hfits hholds lba payload).of_ok hwrite
  refine ⟨_, Disk.exec_writeBlock (by rw [hmirrors.total]; exact hlt) hlen, hmirrors.total,
    hmirrors.flushes, payloads', hholds', fun k hk => ?_⟩
  rw [hread', Disk.blocks_setBlock]
  by_cases hkl : k = lba
  · rw [hkl, Function.update_self, Function.update_self]
  · rw [Function.update_of_ne hkl, Function.update_of_ne hkl]
    exact hread k ((hm k hk).resolve_right hkl)

/-- Reading the pool is reading the disk. -/
theorem linkedReads_mirrors : LinkedReads
    (Mirrors base base.totalBlocks.toNat : Pool κ crypto → Disk → Prop) where
  readBlock lba := by
    intro pool disk hmirrors
    obtain ⟨payloads, hholds, hread⟩ := hmirrors.blocks
    obtain ⟨pool', hexec, hholds'⟩ := exec_readBlock hholds lba
    obtain ⟨translate, htranslate, hrun⟩ := exists_exec_run (Pool.readBlock lba) pool
    rw [hexec] at hrun
    rw [show exec (BlockDevice.readBlock lba : Prog FsError (Pool κ crypto) Block) pool = _ from hrun]
    by_cases hlba : lba < base.totalBlocks.toNat
    · rw [Disk.exec_readBlock (by rw [hmirrors.total]; exact hlba), hread lba hlba]
      exact ⟨rfl, fun _ _ => trivial, hmirrors.total, hmirrors.flushes, payloads, hholds', hread⟩
    · have hdisk : exec (BlockDevice.readBlock lba : Prog FsError Disk Block) disk =
          (.error (.badBlock lba), disk) := by
        change exec (Disk.readBlock lba) disk = _
        rw [Disk.readBlock, exec_bind, exec_gets]
        dsimp only [id]
        rw [if_neg (by rw [hmirrors.total]; exact hlba)]
        rfl
      rw [hdisk, readFrom_of_le (Nat.not_lt.1 hlba)]
      exact ⟨congrArg Except.error (htranslate _), fun _ _ => trivial, hmirrors.total, hmirrors.flushes, payloads, hholds', hread⟩

end Mirrors

/-- A flush of the pool that succeeds writes every payload to its carrier. -/
theorem follows_flush (hfolder : ExactChunks κ) {base : BlockStore} (hbase : base.Wellformed) (n : Nat) :
    Follows (Mirrors base n) (fun (pool : Pool κ crypto) disk =>
        Mirrors base n pool disk ∧ ∀ j, Clean pool j)
      (BlockDevice.flush : Prog FsError (Pool κ crypto) Unit)
      (BlockDevice.flush : Prog FsError Disk Unit) := by
  intro pool disk hmirrors _ pool' hexec
  obtain ⟨payloads, hholds, hread⟩ := hmirrors.blocks
  obtain ⟨hholds', hclean⟩ := (ends_flush hfolder hbase hholds).of_ok
    ((exec_run_ok (m := Pool.flush)).1 hexec)
  refine ⟨{ disk with flushes := fun k => disk.flushes (k + 1) }, ?_,
    ⟨hmirrors.total, fun k => hmirrors.flushes (k + 1), payloads, hholds', hread⟩, hclean⟩
  rw [Disk.exec_flush, hmirrors.flushes 0]

/-- Formatting a pool follows formatting a disk. -/
theorem followDevices_mirrors (hfolder : ExactChunks κ) (hexact : crypto.Exact) {base : BlockStore}
    (hbase : base.Wellformed) (hfits : base.Fits) :
    FollowDevices (fun n => (Mirrors base n : Pool κ crypto → Disk → Prop))
      (fun pool disk => Mirrors base base.totalBlocks.toNat pool disk ∧ ∀ j, Clean pool j)
      base.totalBlocks.toNat where
  zero lba _ := follows_writeBlock hexact hbase hfits lba _ fun k hk => by omega
  readBlock lba := (linkedReads_mirrors.readBlock lba).follows
  writeBlock lba payload := follows_writeBlock hexact hbase hfits lba payload fun k hk => Or.inl hk
  flush := follows_flush hfolder hbase _

/-! ### Carriers that accept their payloads -/

/-- In the folders with the property, every carrier of the store accepts the payload of its slot. The
writes of the store keep the property. -/
structure Accepts (P : κ → Prop) (base : BlockStore) : Prop where
  accepts : ∀ {folder : κ} {slot mode key payload}, P folder → slot ∈ base.carriers →
    base.writeMode slot = .ok (mode, key) → payload.length = slot.expected →
      (writeChunk folder slot.path mode payload key).1 = .ok ()
  kept : ∀ {folder : κ} {path} mode payload key, path ∈ base.carriers.map CarrierSlot.path → P folder →
    P (writeChunk folder path mode payload key).2

section Accepts

variable {P : κ → Prop} {base : BlockStore} {payloads : Nat → List UInt8} {pool : Pool κ crypto}

/-- The mode in which a slot is written exists. -/
theorem BlockStore.exists_writeMode {store : BlockStore}
    (hkeyed : store.encrypted = true → store.orderKey.isSome) (slot : CarrierSlot) :
    ∃ mode key, store.writeMode slot = .ok (mode, key) := by
  rw [BlockStore.writeMode]
  by_cases hencrypted : store.encrypted = true
  · obtain ⟨key, hkey⟩ := Option.isSome_iff_exists.1 (hkeyed hencrypted)
    rw [if_pos hencrypted, hkey]
    exact ⟨_, _, rfl⟩
  · rw [if_neg hencrypted]
    exact ⟨_, _, rfl⟩

theorem ends_flushSlots_accepts (hfolder : ExactChunks κ) (haccepts : Accepts P base)
    (hbase : base.Wellformed) (h : Holds pool base payloads) (hP : P pool.folder) {i n : Nat}
    (hle : i + n ≤ pool.store.carriers.length) :
    Ends (Pool.flushSlots i n) pool (fun _ pool' => P pool'.folder) fun _ _ => False := by
  induction n generalizing i pool with
  | zero => exact hP
  | succ n ih =>
    rw [Pool.flushSlots, ends_bind]
    obtain ⟨slot, hi⟩ : ∃ slot, pool.store.carriers[i]? = some slot :=
      ⟨_, List.getElem?_eq_getElem (by omega)⟩
    rw [Ends, exec_slotAt hi]
    dsimp only
    by_cases hdirty : slot.dirty = true
    · have hheld := h.held i slot hi
      have hbuffer : slot.buffer = some (payloads i) := by
        rcases hheld.buffer with hbuffer | ⟨-, hclean⟩
        · exact hbuffer
        · rw [hdirty] at hclean
          cases hclean
      have hkind : ¬(kindFor slot.path).isNone = true := by
        rw [Option.isNone_iff_eq_none, ← Ne, ← Option.isSome_iff_ne_none]
        exact hheld.kind
      have hslot : slot.unloaded ∈ base.carriers := List.mem_of_getElem? (h.base_slot hi)
      obtain ⟨mode, key, hmode⟩ := BlockStore.exists_writeMode (fun h => (hbase.keyed h).2) slot
      have hmode' : pool.store.writeMode slot = .ok (mode, key) := by
        rw [← hmode, ← h.reopened]
        rfl
      have haccept := haccepts.accepts hP hslot hmode hheld.length
      have hpath : slot.path ∈ base.carriers.map CarrierSlot.path :=
        List.mem_map.2 ⟨slot.unloaded, hslot, rfl⟩
      have hkept := haccepts.kept mode (payloads i) key hpath hP
      change (writeChunk pool.folder slot.path mode (payloads i) key).1 = .ok () at haccept
      rcases hwrite : writeChunk pool.folder slot.path mode (payloads i) key with ⟨result, folder'⟩
      rw [hwrite] at haccept hkept
      obtain rfl : result = .ok () := haccept
      rw [if_pos hdirty]
      simp only [hbuffer]
      rw [if_neg hkind, ends_bind, ends_gets, id, ends_bind, Pool.ofResult, ends_ofExcept, hmode']
      refine ⟨?_, by rintro _ ⟨⟩⟩
      rintro _ ⟨⟩
      dsimp only
      rw [ends_bind, Pool.writeCarrier, ends_bind, ends_gets, id]
      dsimp only
      rw [ends_bind, ends_update, Pool.ofResult, ends_ofExcept, hwrite]
      refine ⟨fun _ _ => ?_, by rintro _ ⟨⟩⟩
      rw [ends_bind, ends_update]
      refine ih (h.written hfolder hbase hi hmode' hwrite) hkept ?_
      simp only [Pool.setSlot, List.length_set]
      omega
    · rw [if_neg hdirty]
      exact ih h hP (by omega)

theorem Holds.loaded (h : Holds pool base payloads) : Loaded pool base := by
  refine ⟨h.reopened, fun i slot buffer hi hbuffer => ?_⟩
  have hheld := h.held i slot hi
  rcases hheld.buffer with hsome | ⟨hnone, -⟩
  · obtain rfl := Option.some.inj (hbuffer.symm.trans hsome)
    exact hheld.length
  · rw [hbuffer] at hnone
    cases hnone

/-- A write of the disk that succeeds is a write of the pool. -/
theorem follows_writeBlock_accepts (hexact : crypto.Exact) (htotal : crypto.Total)
    (haccepts : Accepts P base) (hbase : base.Wellformed) (hfits : base.Fits) (lba : Nat)
    (payload : List UInt8) {n m : Nat} (hm : ∀ k, k < m → k < n ∨ k = lba) :
    Follows (fun disk (pool : Pool κ crypto) => Mirrors base n pool disk ∧ P pool.folder)
      (fun disk pool => Mirrors base m pool disk ∧ P pool.folder)
      (BlockDevice.writeBlock lba payload : Prog FsError Disk Unit)
      (BlockDevice.writeBlock lba payload : Prog FsError (Pool κ crypto) Unit) := by
  rintro disk pool ⟨hmirrors, hP⟩ ⟨⟩ disk' hexec
  obtain ⟨payloads, hholds, -⟩ := hmirrors.blocks
  obtain ⟨hlt, hlen⟩ : lba < disk.total ∧ payload.length ≤ UB := by
    change exec (Disk.writeBlock lba payload) disk = _ at hexec
    rw [Disk.writeBlock] at hexec
    split_ifs at hexec with hlen
    · cases hexec
    · rw [exec_bind, exec_gets] at hexec
      dsimp only [id] at hexec
      split_ifs at hexec with hlt
      · exact ⟨hlt, Nat.not_lt.1 hlen⟩
      · cases hexec
  rw [hmirrors.total] at hlt
  rcases hwrite : exec (Pool.writeBlock lba payload) pool with ⟨fault | ⟨⟩, pool'⟩
  · have herror := (writeBlock_error_iff htotal hbase hfits hholds lba payload).1
      ⟨fault, congrArg Prod.fst hwrite⟩
    omega
  · have hrun := exec_run_ok.2 hwrite
    obtain ⟨disk'', hdisk, hmirrors'⟩ :=
      follows_writeBlock hexact hbase hfits lba payload hm pool disk hmirrors () pool' hrun
    obtain rfl : disk'' = disk' := congrArg Prod.snd (hdisk.symm.trans hexec)
    have hkept := ((Loaded.storeInvariant_and base haccepts.kept).writeBlock lba payload
      ⟨hholds.loaded, hP⟩).of_ok hwrite
    exact ⟨pool', hrun, hmirrors', hkept.2⟩

/-- A flush succeeds. -/
theorem follows_flush_accepts (hfolder : ExactChunks κ) (haccepts : Accepts P base)
    (hbase : base.Wellformed) (n : Nat) :
    Follows (fun disk (pool : Pool κ crypto) => Mirrors base n pool disk ∧ P pool.folder)
      (fun _ pool => P pool.folder) (BlockDevice.flush : Prog FsError Disk Unit)
      (BlockDevice.flush : Prog FsError (Pool κ crypto) Unit) := by
  rintro disk pool ⟨hmirrors, hP⟩ ⟨⟩ disk' -
  obtain ⟨payloads, hholds, -⟩ := hmirrors.blocks
  have hends := ends_flushSlots_accepts hfolder haccepts hbase hholds hP
    (Nat.le_of_eq (Nat.zero_add pool.store.carriers.length))
  have hflush : exec Pool.flush pool = exec (Pool.flushSlots 0 pool.store.carriers.length) pool := rfl
  rcases hexec : exec Pool.flush pool with ⟨fault | ⟨⟩, pool'⟩
  · exact (hends.of_error (hflush.symm.trans hexec)).elim
  · exact ⟨pool', exec_run_ok.2 hexec, hends.of_ok (hflush.symm.trans hexec)⟩

/-- Where the carriers accept their payloads, formatting a pool succeeds as it does on a disk. -/
theorem followDevices_accepts (hfolder : ExactChunks κ) (hexact : crypto.Exact) (htotal : crypto.Total)
    (haccepts : Accepts P base) (hbase : base.Wellformed) (hfits : base.Fits) :
    FollowDevices (fun n disk (pool : Pool κ crypto) => Mirrors base n pool disk ∧ P pool.folder)
      (fun _ pool => P pool.folder) base.totalBlocks.toNat where
  zero lba _ := follows_writeBlock_accepts hexact htotal haccepts hbase hfits lba _
    fun k hk => by omega
  readBlock lba := by
    rintro disk pool ⟨hmirrors, hP⟩ block disk' hexec
    obtain ⟨pool', hrun, hmirrors'⟩ :=
      (linkedReads_mirrors.readBlock lba).swap.follows disk pool hmirrors block disk' hexec
    obtain ⟨payloads, hholds, -⟩ := hmirrors.blocks
    have hkept := ((Loaded.storeInvariant_and base haccepts.kept).readBlock lba
      ⟨hholds.loaded, hP⟩).of_ok (exec_run_ok.1 hrun)
    exact ⟨pool', hrun, hmirrors', hkept.2⟩
  writeBlock lba payload := follows_writeBlock_accepts hexact htotal haccepts hbase hfits lba payload
    fun k hk => Or.inl hk
  flush := follows_flush_accepts hfolder haccepts hbase _

end Accepts

end AlbumFS

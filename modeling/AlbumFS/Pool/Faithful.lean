import AlbumFS.Pool.Array
import AlbumFS.Pool.Images

/-!
# Runs of a block store

A run of reads, writes and flushes, of which any may fail, on a store that can load its carriers.
The store behaves as an array of blocks, and after a flush that succeeds a new store on the same
carriers is the same array.

## Main definitions

* `StoreOp`, `afterOps`: runs.
* `contentsAfter`: the array that a run leaves.
* `Ready`: the stores that a run starts from.

## Main results

* `holds_afterOps`: every state of a run stands for the array.
* `array_after_iff`: the store is an array exactly when the bytes of its slots fit `usize`.
-/

namespace AlbumFS

open CarrierFolder Prog

inductive StoreOp where
  | write (lba : Nat) (payload : List UInt8)
  | read (lba : Nat)
  | flush

variable {κ : Type} [CarrierFolder κ] {crypto : Crypto}

/-- The state that an operation leaves behind, whether it succeeds or fails. -/
def StoreOp.after (pool : Pool κ crypto) : StoreOp → Pool κ crypto
  | .write lba payload => (exec (Pool.writeBlock lba payload) pool).2
  | .read lba => (exec (Pool.readBlock lba) pool).2
  | .flush => (exec Pool.flush pool).2

def afterOps (pool : Pool κ crypto) (ops : List StoreOp) : Pool κ crypto :=
  ops.foldl StoreOp.after pool

/-- The contents of an array of `total` blocks after an operation. -/
def StoreOp.contents (total : Nat) (contents : Nat → Except Fault Block) :
    StoreOp → Nat → Except Fault Block
  | .write lba payload =>
    if lba < total ∧ payload.length ≤ UB then
      Function.update contents lba (.ok (Block.pad payload))
    else
      contents
  | .read _ => contents
  | .flush => contents

def contentsAfter (total : Nat) (contents : Nat → Except Fault Block) (ops : List StoreOp) :
    Nat → Except Fault Block :=
  ops.foldl (StoreOp.contents total) contents

/-- What the store of a pool reads. -/
def readResult (pool : Pool κ crypto) (lba : Nat) : Except Fault Block :=
  (exec (Pool.readBlock lba) pool).1

/-- The carriers can be loaded, and what is loaded agrees with its carrier or will be written back. -/
structure Ready (pool : Pool κ crypto) : Prop where
  wellformed : pool.store.Wellformed
  loads : ∀ slot ∈ pool.store.carriers, ∃ payload, Held pool.folder pool.store slot payload

/-- After the run, the store behaves as the array that the run leaves: a write fails exactly when the
address or the payload is too large, a read returns the contents, and after a flush that succeeds a
new store on the same carriers reads the contents. -/
structure ArrayAfter (pool : Pool κ crypto) (ops : List StoreOp) : Prop where
  writes : ∀ lba payload, (∃ fault, (exec (Pool.writeBlock lba payload) (afterOps pool ops)).1 =
    .error fault) ↔ pool.store.totalBlocks.toNat ≤ lba ∨ UB < payload.length
  reads : ∀ lba, readResult (afterOps pool ops) lba =
    contentsAfter pool.store.totalBlocks.toNat (readResult pool) ops lba
  flushed : ∀ pool', exec Pool.flush (afterOps pool ops) = (.ok (), pool') →
    ∀ lba, readResult (pool'.withStore pool.store.reopened) lba =
      contentsAfter pool.store.totalBlocks.toNat (readResult pool) ops lba

section

variable {pool : Pool κ crypto} {base : BlockStore} {payloads : Nat → List UInt8}

theorem BlockStore.Wellformed.reopened {store : BlockStore} (h : store.Wellformed) :
    store.reopened.Wellformed := by
  refine ⟨?_, ?_, h.keyed⟩
  · rw [BlockStore.Contiguous, BlockStore.reopened, List.map_map]
    exact h.contiguous
  · rw [BlockStore.reopened, List.map_map]
    exact h.distinct

theorem BlockStore.fits_reopened {store : BlockStore} : store.reopened.Fits ↔ store.Fits := by
  simp [BlockStore.reopened, BlockStore.Fits, CarrierSlot.unloaded]

/-- A store of which every slot can be loaded has payloads. -/
theorem Holds.of_loads (pool : Pool κ crypto)
    (h : ∀ slot ∈ pool.store.carriers, ∃ payload, Held pool.folder pool.store slot payload) :
    ∃ payloads, Holds pool pool.store.reopened payloads := by
  have hexists : ∀ i : Nat, ∃ payload, ∀ slot, pool.store.carriers[i]? = some slot →
      Held pool.folder pool.store slot payload := by
    intro i
    cases hi : pool.store.carriers[i]? with
    | none => exact ⟨[], by rintro _ ⟨⟩⟩
    | some slot =>
      obtain ⟨payload, hpayload⟩ := h slot (List.mem_of_getElem? hi)
      exact ⟨payload, by rintro _ ⟨⟩; exact hpayload⟩
  choose payloads hpayloads using hexists
  refine ⟨payloads, rfl, fun i slot hi => ?_⟩
  have hheld := hpayloads i slot hi
  exact ⟨hheld.kind, hheld.length, hheld.clean, hheld.buffer⟩

theorem readResult_eq (h : Holds pool base payloads) (lba : Nat) :
    readResult pool lba = readFrom crypto base payloads lba := by
  obtain ⟨pool', hexec, -⟩ := exec_readBlock h lba
  rw [readResult, hexec]

/-- Every operation of a run does to the payloads what it does to the array. -/
theorem Holds.after (hchunks : ExactChunks κ) (hexact : crypto.Exact) (htotal : crypto.Total)
    (hbase : base.Wellformed) (hfits : base.Fits) (h : Holds pool base payloads) (op : StoreOp) :
    ∃ payloads', Holds (op.after pool) base payloads' ∧ readFrom crypto base payloads' =
      op.contents base.totalBlocks.toNat (readFrom crypto base payloads) := by
  cases op with
  | write lba payload =>
    simp only [StoreOp.after, StoreOp.contents]
    have hends := ends_writeBlock hexact hbase hfits h lba payload
    have herror := writeBlock_error_iff htotal hbase hfits h lba payload
    rcases hexec : exec (Pool.writeBlock lba payload) pool with ⟨fault | ⟨⟩, pool'⟩
    · have hle := herror.1 ⟨fault, by rw [hexec]⟩
      rw [if_neg (by omega)]
      exact ⟨payloads, hends.of_error hexec, rfl⟩
    · obtain ⟨hlt, hlen, payloads', hholds, hread⟩ := hends.of_ok hexec
      rw [if_pos ⟨hlt, hlen⟩]
      exact ⟨payloads', hholds, hread⟩
  | read lba =>
    obtain ⟨pool', hexec, hholds⟩ := exec_readBlock h lba
    exact ⟨payloads, by rw [StoreOp.after, hexec]; exact hholds, rfl⟩
  | flush =>
    have hstate := (ends_flush hchunks hbase h).mono (fun _ _ hpool => hpool.1) fun _ _ he => he
    exact ⟨payloads, hstate.state, rfl⟩

/-- Every state of a run stands for the array that the run leaves. -/
theorem holds_afterOps (hchunks : ExactChunks κ) (hexact : crypto.Exact) (htotal : crypto.Total)
    (hbase : base.Wellformed) (hfits : base.Fits) (h : Holds pool base payloads) (ops : List StoreOp) :
    ∃ payloads', Holds (afterOps pool ops) base payloads' ∧ readFrom crypto base payloads' =
      contentsAfter base.totalBlocks.toNat (readFrom crypto base payloads) ops := by
  induction ops generalizing pool payloads with
  | nil => exact ⟨payloads, h, rfl⟩
  | cons op ops ih =>
    obtain ⟨payloads', hholds, hread⟩ := h.after hchunks hexact htotal hbase hfits op
    obtain ⟨payloads'', hholds', hread'⟩ := ih hholds
    exact ⟨payloads'', hholds', by rw [hread', hread]; rfl⟩

/-- A store whose slots fit is an array after every run. -/
theorem arrayAfter_of_fits (hchunks : ExactChunks κ) (hexact : crypto.Exact) (htotal : crypto.Total)
    (hready : Ready pool) (hfits : pool.store.Fits) (ops : List StoreOp) : ArrayAfter pool ops := by
  obtain ⟨payloads, hinitial⟩ := Holds.of_loads pool hready.loads
  have hbase := hready.wellformed.reopened
  have hfits' := BlockStore.fits_reopened.2 hfits
  obtain ⟨payloads', hholds, hread⟩ := holds_afterOps hchunks hexact htotal hbase hfits' hinitial ops
  have hcontents : ∀ lba, readFrom crypto pool.store.reopened payloads' lba =
      contentsAfter pool.store.totalBlocks.toNat (readResult pool) ops lba := by
    intro lba
    rw [hread, show readResult pool = readFrom crypto pool.store.reopened payloads from
      funext (readResult_eq hinitial)]
    rfl
  refine ⟨fun lba payload => ?_, fun lba => ?_, fun pool' hflush lba => ?_⟩
  · exact writeBlock_error_iff htotal hbase hfits' hholds lba payload
  · rw [readResult_eq hholds, hcontents]
  · have hpool := (ends_flush hchunks hbase hholds).of_ok hflush
    rw [readResult_eq (hpool.1.reopen hpool.2), hcontents]

/-- A slot whose bytes do not fit is loaded with fewer bytes than its blocks have. The first address
behind them is in the array, and writing there is a panic. -/
theorem writeBlock_of_not_fits (hready : Ready pool) {slot : CarrierSlot}
    (hslot : slot ∈ pool.store.carriers) (hle : ¬slot.blockCount.toNat * PB < 2 ^ 64) :
    ∃ lba, lba < pool.store.totalBlocks.toNat ∧
      ∃ fault, (exec (Pool.writeBlock lba []) pool).1 = .error fault := by
  obtain ⟨i, hi⟩ := List.getElem?_of_mem hslot
  have hdiv := Nat.div_add_mod slot.expected PB
  have hmod := Nat.mod_lt slot.expected (show 0 < PB by decide)
  have hlt : slot.expected < 2 ^ 64 := Nat.mod_lt _ (by decide)
  have hoffset : (slot.expected / PB) * PB % 2 ^ 64 + PB > slot.expected := by
    rw [Nat.mod_eq_of_lt (by rw [Nat.mul_comm]; omega), Nat.mul_comm]
    omega
  have hcount : slot.expected / PB < slot.blockCount.toNat :=
    Nat.div_lt_of_lt_mul (by rw [Nat.mul_comm]; omega)
  obtain ⟨payloads, hholds⟩ := Holds.of_loads pool hready.loads
  have hend := hready.wellformed.contiguous.end_le hi
  have hfor : pool.store.reopened.carrierFor (slot.blockStart.toNat + slot.expected / PB) = .ok i := by
    rw [BlockStore.carrierFor_reopened]
    exact hready.wellformed.contiguous.carrierFor_of_mem hi ⟨Nat.le_add_right _ _, by omega⟩
  refine ⟨slot.blockStart.toNat + slot.expected / PB, by omega, ?_⟩
  rw [writeBlock_eq hholds hfor hi (Nat.zero_le _)]
  rcases exec (Pool.encodeBlock _ _) _ with ⟨fault | block, pool'⟩
  · exact ⟨fault, rfl⟩
  · dsimp only
    rw [if_neg]
    · exact ⟨_, rfl⟩
    · rw [(hholds.held i slot hi).length, CarrierSlot.offset, Nat.add_sub_cancel_left]
      omega

theorem not_arrayAfter_nil (hready : Ready pool) {slot : CarrierSlot}
    (hslot : slot ∈ pool.store.carriers) (hle : ¬slot.blockCount.toNat * PB < 2 ^ 64) :
    ¬ArrayAfter pool [] := by
  intro harray
  obtain ⟨lba, hlt, hfault⟩ := writeBlock_of_not_fits hready hslot hle
  have hin := (harray.writes lba []).1 hfault
  rw [List.length_nil] at hin
  omega

/-- A store is an array after every run exactly when the bytes of each of its slots fit `usize`. -/
theorem array_after_iff (hchunks : ExactChunks κ) (hexact : crypto.Exact) (htotal : crypto.Total)
    (hready : Ready pool) : (∀ ops, ArrayAfter pool ops) ↔
      ∀ slot ∈ pool.store.carriers, slot.blockCount.toNat * PB < 2 ^ 64 := by
  refine ⟨fun harray slot hslot => ?_, arrayAfter_of_fits hchunks hexact htotal hready⟩
  by_contra hle
  exact not_arrayAfter_nil hready hslot hle (harray [])

end

/-! ### Two pools of one image -/

theorem Crypto.identity_total : Crypto.identity.Total := fun _ _ _ _ => rfl

/-- A plaintext store whose only range has that many blocks, on an image with a chunk. -/
def oneImage (payload : List UInt8) (blockCount : UInt64) : Pool ImageFolder Crypto.identity where
  folder := ImageFolder.holding payload
  store := .fromManifest [("a.png", true)] [{ name := "", chunkIndex := 0, blockStart := 0, blockCount }]
    none
  nonces _ := Vector.replicate 24 0
  clock _ := 0

/-- The chunk is loaded if its length is the wrapped number of bytes. -/
theorem ready_oneImage {payload : List UInt8} {blockCount : UInt64} (hle : payload.length ≤ 6128)
    (h : payload.length = blockCount.toNat * PB % 2 ^ 64) : Ready (oneImage payload blockCount) := by
  refine ⟨⟨?_, List.nodup_singleton _, by rintro ⟨⟩⟩, fun slot hslot => ⟨payload, ?_⟩⟩
  · have htotal : (oneImage payload blockCount).store.totalBlocks = blockCount := by
      simp [oneImage, BlockStore.fromManifest, BlockStore.ofCarriers]
    rw [BlockStore.Contiguous, htotal]
    have hnil := Tiles.nil (0 + blockCount.toNat)
    rw [Nat.zero_add] at hnil
    exact Tiles.cons (Nat.zero_add _ ▸ hnil)
  · obtain rfl : slot =
        { path := "a.png", chunkIndex := 0, isPrimary := true, blockStart := 0, blockCount,
          buffer := none, dirty := false } := List.mem_singleton.1 hslot
    have hread := ImageFolder.readChunk_holding hle
    have hkind : kindFor "a.png" = some .png := by decide
    refine ⟨hkind ▸ rfl, h, fun _ => ?_, Or.inr ⟨rfl, rfl⟩⟩
    rw [BlockStore.fetch, hkind, if_neg (by decide), BlockStore.readMode]
    simp only [oneImage, BlockStore.fromManifest, BlockStore.ofCarriers, Option.isSome_none, bind,
      Except.bind, hread, Except.mapError, ne_eq, not_true_eq_false, if_false, Bool.false_eq_true]
    exact if_neg (not_not.2 h)

theorem array_after_oneBlock : Ready (oneImage (List.replicate PB 0) 1) ∧
    ∀ ops, ArrayAfter (oneImage (List.replicate PB 0) 1) ops := by
  have hlength : (List.replicate PB (0 : UInt8)).length = PB := List.length_replicate
  have hready := ready_oneImage (show (List.replicate PB (0 : UInt8)).length ≤ 6128 by rw [hlength]; decide)
    (show _ = (1 : UInt64).toNat * PB % 2 ^ 64 by rw [hlength]; decide)
  refine ⟨hready, (array_after_iff ImageFolder.exact.toExactChunks Crypto.identity_exact
    Crypto.identity_total hready).2 fun slot hslot => ?_⟩
  obtain rfl := List.mem_singleton.1 hslot
  decide

/-- With `2 ^ 52 + 1` blocks, the number of bytes wraps to that of one block. -/
theorem not_array_after_wrapped : Ready (oneImage (List.replicate PB 0) (2 ^ 52 + 1)) ∧
    ¬∀ ops, ArrayAfter (oneImage (List.replicate PB 0) (2 ^ 52 + 1)) ops := by
  have hlength : (List.replicate PB (0 : UInt8)).length = PB := List.length_replicate
  have hready := ready_oneImage (show (List.replicate PB (0 : UInt8)).length ≤ 6128 by rw [hlength]; decide)
    (show _ = (2 ^ 52 + 1 : UInt64).toNat * PB % 2 ^ 64 by rw [hlength]; decide)
  exact ⟨hready, fun h => not_arrayAfter_nil hready (List.mem_singleton_self _) (by decide) (h [])⟩

end AlbumFS

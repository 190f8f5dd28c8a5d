import AlbumFS.Dirs.Insertion
import AlbumFS.Ops.Linked
import AlbumFS.Pool.Plaintext
import AlbumFS.Pool.Regions
import AlbumFS.Pool.Stats

/-!
# The first state of a pool

What a pool looks like when it is opened for the first time: how its regions lie, which blocks and inodes are
in use, and what its root directory lists.

## Main definitions

* `Region.blocks`, `SoundRegions`: the regions of a pool.
* `AlbumFs.openWithPassphrase`, `AlbumFs.openWithAnchor`: opening a file system.
* `FirstState`, `OpensFirst`: a file system that was never used, and a pool that is opened as one.

## Main results

* `soundRegions_layout`: how formatting lays out the regions, for every number of blocks.
* `opened_first`: the first state of a formatted pool.
-/

namespace AlbumFS

open CarrierFolder Prog

/-! ### The regions -/

inductive Region where
  | superblock
  | bitmap
  | inodeTable
  | data
  deriving DecidableEq

/-- The blocks of a region. -/
def Region.blocks (sb : Superblock) : Region → Finset Nat
  | .superblock => {0}
  | .bitmap => Finset.Ico sb.bitmapStart.toNat sb.inodeTableStart.toNat
  | .inodeTable => Finset.Ico sb.inodeTableStart.toNat sb.dataStart.toNat
  | .data => Finset.Ico sb.dataStart.toNat sb.totalBlocks.toNat

/-- The regions are disjoint and cover the pool, the bitmap has a bit for every block, and every inode has
its record in one block of the inode table, apart from the records of the others. -/
structure SoundRegions (sb : Superblock) : Prop where
  disjoint : ∀ r r' : Region, r ≠ r' → Disjoint (r.blocks sb) (r'.blocks sb)
  cover : ∀ lba, (∃ r : Region, lba ∈ r.blocks sb) ↔ lba < sb.totalBlocks.toNat
  bits : sb.totalBlocks.toNat ≤ (Region.bitmap.blocks sb).card * (UB * 8)
  located : ∀ ino, 1 ≤ ino → ino ≤ sb.inodeCount.toNat → ∃ block offset,
    AlbumFs.inodeLocation sb ino = .ok (block, offset) ∧ block ∈ Region.inodeTable.blocks sb ∧
      offset + INODE_SIZE ≤ UB
  apart : ∀ ino ino' block offset offset', AlbumFs.inodeLocation sb ino = .ok (block, offset) →
    AlbumFs.inodeLocation sb ino' = .ok (block, offset') → ino ≠ ino' →
      offset + INODE_SIZE ≤ offset' ∨ offset' + INODE_SIZE ≤ offset

/-- Formatting lays out sound regions. -/
theorem soundRegions_layout {totalBlocks : Nat} {manifest : List CarrierRange} {encrypted : Bool}
    {sb : Superblock} (h : layout totalBlocks manifest encrypted = .ok sb) (hlt : totalBlocks < 2 ^ 58) :
    SoundRegions sb := by
  have hregions := disjointRegions_iff.2 (regionsFit_layout h hlt)
  obtain ⟨htotal, hbitmap, -, hcount, -, hdata⟩ := layout_eq_ok h (Nat.lt_trans hlt (by decide))
  have hbitmapLe := hregions.bitmap_le
  have htableLe := hregions.table_le
  have hfound : ∀ ino, 1 ≤ ino → ino ≤ sb.inodeCount.toNat → AlbumFs.inodeLocation sb ino =
      .ok (sb.inodeTableStart.toNat + (ino - 1) / 21, (ino - 1) * 192 % 4032) ∧
        sb.inodeTableStart.toNat + (ino - 1) / 21 < sb.dataStart.toNat := by
    intro ino hpos hle
    obtain ⟨hmul, block, offset, hlocation, hge, hblock⟩ := hregions.inodes ino hpos hle
    have heq := inodeLocation_eq hpos hle hmul
    rw [show INODES_PER_BLOCK = 21 from rfl, show INODE_SIZE = 192 from rfl, UB_eq] at heq
    rw [heq] at hlocation
    obtain ⟨rfl, rfl⟩ := Prod.mk.inj (Except.ok.inj hlocation)
    -- the sum does not wrap, since the block lies in the table
    have hsmall : sb.inodeTableStart.toNat + (ino - 1) / 21 < 2 ^ 64 := by
      have hstart := sb.dataStart.toNat_lt
      omega
    rw [Nat.mod_eq_of_lt hsmall] at heq hblock
    exact ⟨heq, hblock⟩
  refine ⟨?_, ?_, ?_, ?_, ?_⟩
  · intro r r' hne
    rw [Finset.disjoint_left]
    intro lba hr hr'
    cases r <;> cases r' <;> first
      | exact absurd rfl hne
      | (simp only [Region.blocks, Finset.mem_singleton, Finset.mem_Ico] at hr hr'; omega)
  · intro lba
    constructor
    · rintro ⟨r, hr⟩
      cases r <;> simp only [Region.blocks, Finset.mem_singleton, Finset.mem_Ico] at hr <;> omega
    · intro hlba
      by_cases h₁ : lba < sb.bitmapStart.toNat
      · exact ⟨.superblock, Finset.mem_singleton.2 (by omega)⟩
      by_cases h₂ : lba < sb.inodeTableStart.toNat
      · exact ⟨.bitmap, Finset.mem_Ico.2 ⟨by omega, h₂⟩⟩
      by_cases h₃ : lba < sb.dataStart.toNat
      · exact ⟨.inodeTable, Finset.mem_Ico.2 ⟨by omega, h₃⟩⟩
      · exact ⟨.data, Finset.mem_Ico.2 ⟨by omega, hlba⟩⟩
  · rw [Region.blocks, Nat.card_Ico]
    exact hregions.bits
  · intro ino hpos hle
    obtain ⟨hlocation, hblock⟩ := hfound ino hpos hle
    refine ⟨_, _, hlocation, Finset.mem_Ico.2 ⟨Nat.le_add_right _ _, hblock⟩, ?_⟩
    rw [show INODE_SIZE = 192 from rfl, UB_eq]
    omega
  · intro ino ino' block offset offset' hlocation hlocation' hne
    obtain ⟨hpos, hle⟩ := valid_of_inodeLocation hlocation
    obtain ⟨hpos', hle'⟩ := valid_of_inodeLocation hlocation'
    rw [(hfound ino hpos hle).1] at hlocation
    rw [(hfound ino' hpos' hle').1] at hlocation'
    obtain ⟨hblock, rfl⟩ := Prod.mk.inj (Except.ok.inj hlocation)
    obtain ⟨hblock', rfl⟩ := Prod.mk.inj (Except.ok.inj hlocation')
    rw [show INODE_SIZE = 192 from rfl]
    omega

/-! ### Opening -/

variable {κ : Type} [CarrierFolder κ] {crypto : Crypto}

namespace AlbumFs

/-- The file system over an opened store. -/
def withBitmap (pool : Pool κ crypto) (sb : Superblock) : Except FsError (AlbumFs (Pool κ crypto)) :=
  match exec (loadBitmap sb) pool with
  | (.error e, _) => .error e
  | (.ok bitmap, store) => .ok { store, sb, bitmap }

/-- The nonces and the clock are those that the store will draw from. -/
def openWithPassphrase (crypto : Crypto) (nonces : Nat → Vector UInt8 24) (clock : Nat → UInt64)
    (folder : κ) (passphrase : Option String) : Except FsError (AlbumFs (Pool κ crypto)) := do
  let (sb, store) ← AlbumFS.openWithPassphrase folder passphrase
  withBitmap { folder, store, nonces, clock } sb

def openWithAnchor (crypto : Crypto) (nonces : Nat → Vector UInt8 24) (clock : Nat → UInt64)
    (folder : κ) (anchor passphrase : String) : Except FsError (AlbumFs (Pool κ crypto)) := do
  let (sb, store) ← AlbumFS.openWithAnchor crypto folder anchor passphrase
  withBitmap { folder, store, nonces, clock } sb

end AlbumFs

/-! ### The first state -/

/-- A file system that was never used: the blocks of its metadata and the block of its root directory are in
use, the root directory is the only inode and lists itself twice, and every block can be read. -/
structure FirstState (sb : Superblock) (fs : AlbumFs (Pool κ crypto)) : Prop where
  sb_eq : fs.sb = sb
  root : ∃ inode block, (exec (AlbumFs.getattr 1) fs).1 = .ok inode ∧ inode.isDir = true ∧
    inode.size = UB64 ∧
    (∀ index, index < MAX_FILE_BLOCKS → (exec (AlbumFs.bmap inode index false) fs).1 =
      .ok (if index = 0 then some block else none, inode)) ∧
    ∀ b, fs.bitmap.isSet b = true ↔ b < sb.dataStart.toNat ∨ b = block
  listing : (exec (AlbumFs.readdir 1) fs).1 = .ok [(1, ".", FILE_TYPE_DIR), (1, "..", FILE_TYPE_DIR)]
  live : ∀ ino, 1 ≤ ino → ino ≤ sb.inodeCount.toNat → ∃ inode,
    (exec (AlbumFs.readInode ino) fs).1 = .ok inode ∧ (inode.mode ≠ 0 ↔ ino = 1)
  readable : ∀ lba, lba < sb.totalBlocks.toNat → ∃ block, (exec (AlbumFs.readBlock lba) fs).1 = .ok block

/-- What is opened of a formatted pool was never used. A plaintext pool is opened unless an image that was
too small for a block holds a framed chunk, an encrypted pool always. -/
def OpensFirst (crypto : Crypto) (nonces : Nat → Vector UInt8 24) (clock : Nat → UInt64)
    (folder folder' : κ) (r : FormatResult) : Option String → Prop
  | none =>
    (∀ fs, AlbumFs.openWithPassphrase crypto nonces clock folder' none = .ok fs →
      FirstState r.superblock fs) ∧
    ((∃ fs, AlbumFs.openWithPassphrase crypto nonces clock folder' none = .ok fs) ↔
      ∀ path, ¬Leftover folder path)
  | some passphrase => ∃ anchor fs, r.anchor = some anchor ∧
    AlbumFs.openWithAnchor crypto nonces clock folder' anchor passphrase = .ok fs ∧
      FirstState r.superblock fs

section FirstState

variable {random : Randomness} {folder folder' : κ} {passphrase requested : Option String} {force : Bool}
  {r : FormatResult} {plan : FormatPlan} {usable : List (String × String × Nat)} {pool : Pool κ crypto}
  {disk : Disk} {encrypted : Bool}

/-- The root directory is the only inode of a fresh view. -/
theorem View.Fresh.mode_ne_zero_iff {fs : AlbumFs Disk} (h : fs.view.Fresh) {ino : Nat}
    (hino : fs.view.ValidIno ino) : (fs.inodeAt ino).mode ≠ 0 ↔ ino = 1 := by
  have hstored : fs.view.inodes ino = (fs.inodeAt ino).live := if_pos hino
  rw [h.inodes_eq] at hstored
  by_cases hone : ino = 1
  · subst hone
    rw [Function.update_self] at hstored
    refine ⟨fun _ => rfl, fun _ hmode => ?_⟩
    rw [Inode.live, if_pos hmode] at hstored
    cases hstored
  · rw [Function.update_of_ne hone] at hstored
    refine ⟨fun hmode => ?_, fun h => absurd h hone⟩
    rw [Inode.live_of_ne hmode] at hstored
    cases hstored

/-- A fresh view has one block mapped, the first block of the root directory. -/
theorem View.Fresh.ownWith_root {v : View} (h : v.Fresh) {index : Nat} (hindex : index < MAX_FILE_BLOCKS) :
    ∃ s, dataSlot 1 index = some s ∧ v.ownWith 1 (rootInode v.sb.dataStart.toNat) s =
      if index = 0 then some v.sb.dataStart.toNat else none := by
  have hi : v.inodes 1 = some (rootInode v.sb.dataStart.toNat) := by
    rw [h.inodes_eq, Function.update_self]
  have hslot : dataSlot 1 index ≠ none := dataSlot_ne_none_iff.2 hindex
  obtain ⟨s, hs⟩ := Option.ne_none_iff_exists'.1 hslot
  refine ⟨s, hs, ?_⟩
  rw [View.ownWith_self hi, h.own_eq]
  have hzero : dataSlot 1 0 = some (Slot.direct 1 0) := dataSlot_direct (by omega)
  by_cases h0 : index = 0
  · subst h0
    obtain rfl := Option.some.inj (hs.symm.trans hzero)
    rw [Function.update_self, if_pos rfl]
  · rw [Function.update_of_ne, if_neg h0]
    rintro rfl
    exact h0 (dataSlot_injective hs hzero)

/-- The number of blocks of a pool is far from wrapping. -/
theorem FormatPlan.LaidOut.totalBlocks_lt (hfolder : FramedFolder κ)
    (h : plan.LaidOut folder encrypted usable) : plan.superblock.totalBlocks.toNat < 2 ^ 58 := by
  obtain ⟨htiles, -⟩ := validateManifestGeometry_ok h.valid
  have hsum := htiles.sum_eq
  rw [Nat.zero_add, List.map_map] at hsum
  have hcount : ∀ count ∈ plan.superblock.manifest.map (Prod.snd ∘ CarrierRange.span),
      count ≤ 2 ^ 49 := by
    intro count hmem
    obtain ⟨range, hrange, rfl⟩ := List.mem_map.1 hmem
    rw [h.manifest] at hrange
    obtain ⟨carrier, hcarrier, -, heq⟩ := mem_buildManifest hrange
    obtain ⟨available, hroom, hdiv⟩ := (h.carriers carrier hcarrier).room
    have hlt : available < 2 ^ 61 := by
      rw [room] at hroom
      split_ifs at hroom
      · exact hfolder.rawCapacity_small hroom
      · rw [capacity] at hroom
        cases hraw : rawCapacity folder carrier.1 with
        | error e => simp [hraw, Except.map] at hroom
        | ok n =>
          have hn := hfolder.rawCapacity_small hraw
          simp only [hraw, Except.map, Except.ok.injEq] at hroom
          omega
    change range.blockCount.toNat ≤ 2 ^ 49
    rw [heq, hdiv, show PB = 4096 from rfl, UInt64.toNat_ofNat_of_lt' (by rw [UInt64.size]; omega)]
    omega
  have hle := List.sum_le_card_nsmul _ _ hcount
  have hmanifest : plan.superblock.manifest.length = usable.length := by
    rw [h.manifest, length_buildManifest]
  rw [List.length_map, hmanifest] at hle
  change _ ≤ usable.length * 2 ^ 49 at hle
  have hlength := h.length_le
  omega

/-- The file system over a store with the blocks that formatting has filled. -/
theorem FormatDone.firstState (hfolder : FramedFolder κ)
    (hdone : FormatDone random folder folder' encrypted plan usable pool disk) {base : BlockStore}
    (htotal : base.totalBlocks = plan.superblock.totalBlocks) {pool' : Pool κ crypto}
    (hmirrors : Mirrors base base.totalBlocks.toNat pool' disk) :
    ∃ fs, AlbumFs.withBitmap pool' plan.superblock = .ok fs ∧ FirstState plan.superblock fs := by
  obtain ⟨pool'', hload, hmirrors'⟩ := hdone.exec_loadBitmap htotal hmirrors
  refine ⟨{ store := pool'', sb := plan.superblock, bitmap := freshBitmap plan.superblock }, ?_, ?_⟩
  · rw [AlbumFs.withBitmap, hload]
  -- what is read from the pool is read from the disk
  generalize hfs : ({ store := pool'', sb := plan.superblock, bitmap := freshBitmap plan.superblock } :
    AlbumFs (Pool κ crypto)) = fs
  generalize hft : ({ store := disk, sb := plan.superblock, bitmap := freshBitmap plan.superblock } :
    AlbumFs Disk) = ft
  have halike : AlbumFs.Alike (Mirrors base base.totalBlocks.toNat) fs ft := by
    subst hfs hft
    exact ⟨hmirrors', rfl, rfl⟩
  have hlinked : LinkedReads (Mirrors base base.totalBlocks.toNat : Pool κ crypto → Disk → Prop) :=
    linkedReads_mirrors
  have hsb : fs.sb = plan.superblock := by rw [← hfs]
  have hsb' : ft.view.sb = plan.superblock := by rw [← hft]; rfl
  have hdisk : ft.store.total = plan.superblock.totalBlocks.toNat := by
    rw [← hft, ← htotal]
    exact hmirrors.total
  have hfresh : ft.view.Fresh := by
    have hlayout : layout plan.superblock.totalBlocks.toNat plan.superblock.manifest encrypted =
        .ok ft.sb := by
      rw [← hft]
      exact hdone.laidOut.layout
    refine FormattedBlocks.fresh hlayout (hdone.laidOut.totalBlocks_lt hfolder) hdisk ?_ ?_
    · rw [← hft]
      exact hdone.blocks
    · rw [← hft]
  have hi : ft.view.inodes 1 = some (rootInode plan.superblock.dataStart.toNat) := by
    rw [hfresh.inodes_eq, Function.update_self, hsb']
  refine ⟨hsb, ⟨rootInode plan.superblock.dataStart.toNat, plan.superblock.dataStart.toNat, ?_,
    isDir_rootInode _, rfl, fun index hindex => ?_, fun b => ?_⟩, ?_, fun ino hpos hle => ?_,
    fun lba hlba => ?_⟩
  · rw [(hlinked.getattr 1 fs ft halike).1, AlbumFs.reads_getattr hfresh.geometry 1 ft rfl, View.getattr, hi]
  · obtain ⟨s, hs, hown⟩ := hfresh.ownWith_root hindex
    rw [hsb'] at hown
    rw [(hlinked.mapped _ index fs ft halike).1,
      AlbumFs.reads_bmap (hfresh.sound.mapped hi) index ft rfl, hs]
    dsimp only
    rw [hown]
  · have hset := hfresh.isSet_iff b
    rw [hsb', AlbumFs.bitmap_view, ← halike.bitmap_eq] at hset
    rw [hset]
    omega
  · rw [(hlinked.readdir 1 fs ft halike).1, AlbumFs.reads_readdir hfresh.sound 1 ft rfl,
      hfresh.lists.readdir_eq]
    rfl
  · have hino : ft.view.ValidIno ino := ⟨hpos, by rw [hsb']; exact hle⟩
    refine ⟨ft.inodeAt ino, ?_, hfresh.mode_ne_zero_iff hino⟩
    rw [(hlinked.readInode ino fs ft halike).1, AlbumFs.exec_readInode hfresh.geometry hino]
  · refine ⟨ft.store.blocks lba, ?_⟩
    rw [(hlinked.readBlockFs lba fs ft halike).1, AlbumFs.exec_readBlock (by rw [hdisk]; exact hlba)]

variable {nonces : Nat → Vector UInt8 24} {clock : Nat → UInt64} {fs : AlbumFs (Pool κ crypto)}

/-- What is opened of a plaintext pool was never used, and it is opened unless something was left over. -/
theorem PlaintextDone.opened (hfolder : FramedFolder κ)
    (hdone : PlaintextDone random folder folder' plan usable pool disk) :
    (∀ fs, AlbumFs.openWithPassphrase crypto nonces clock folder' none = .ok fs →
      FirstState plan.superblock fs) ∧
    ((∃ fs, AlbumFs.openWithPassphrase crypto nonces clock folder' none = .ok fs) ↔
      ∀ path, ¬Leftover folder path) := by
  have hmirrors : Mirrors plan.base plan.base.totalBlocks.toNat
      ({ folder := folder', store := plan.base, nonces, clock } : Pool κ crypto) disk :=
    hdone.mirrors_reopened rfl rfl
  obtain ⟨fs, hload, hfirst⟩ :=
    hdone.toFormatDone.firstState hfolder hdone.laidOut.totalBlocks_base hmirrors
  have hopens : ∀ fs', AlbumFs.openWithPassphrase crypto nonces clock folder' none = .ok fs' ↔
      fs' = fs ∧ ∀ path, ¬Leftover folder path := by
    intro fs'
    constructor
    · intro hopen
      obtain ⟨⟨sb, store⟩, hplain, hbitmap⟩ := except_bind_ok hopen
      obtain ⟨heq, hnone⟩ := (hdone.openPlaintext_iff hfolder).1 hplain
      obtain ⟨rfl, rfl⟩ := Prod.mk.inj heq
      exact ⟨Except.ok.inj (hbitmap.symm.trans hload), hnone⟩
    · rintro ⟨rfl, hnone⟩
      have hplain := (hdone.openPlaintext_iff hfolder).2 ⟨rfl, hnone⟩
      rw [AlbumFs.openWithPassphrase, AlbumFS.openWithPassphrase, hplain]
      exact hload
  refine ⟨fun fs' hopen => ?_, ?_, fun hnone => ?_⟩
  · obtain ⟨rfl, -⟩ := (hopens fs').1 hopen
    exact hfirst
  · rintro ⟨fs', hopen⟩
    exact ((hopens fs').1 hopen).2
  · exact ⟨fs, (hopens fs).2 ⟨rfl, hnone⟩⟩

/-- An encrypted pool is opened with its anchor, and was never used. -/
theorem FormatDone.opened (hfolder : FramedFolder κ) (hexact : crypto.Exact) {passphrase : String}
    (hplan : planFormat crypto random folder (some passphrase) requested force = .ok plan)
    (hdone : FormatDone random folder folder' true plan usable pool disk) : ∃ anchor fs,
      plan.anchor = some anchor ∧
      AlbumFs.openWithAnchor crypto nonces clock folder' anchor passphrase = .ok fs ∧
      FirstState plan.superblock fs := by
  obtain ⟨anchor, hanchor, hopen, hmirrors⟩ := hdone.openWithAnchor_eq hfolder.toExactFolder hexact hplan
  have htotal : plan.base.unmarked.totalBlocks = plan.superblock.totalBlocks := hdone.laidOut.totalBlocks_base
  obtain ⟨fs, hload, hfirst⟩ := hdone.firstState hfolder htotal
    (hmirrors { folder := folder', store := plan.base.unmarked, nonces, clock } rfl rfl)
  refine ⟨anchor, fs, hanchor, ?_, hfirst⟩
  rw [AlbumFs.openWithAnchor, hopen]
  exact hload

/-- A formatted pool has sound regions, and what is opened of it was never used. -/
theorem opened_first (hfolder : FramedFolder κ) (hexact : crypto.Exact)
    (h : formatWithAnchorOptions crypto random folder passphrase requested force = (.ok r, folder'))
    (nonces : Nat → Vector UInt8 24) (clock : Nat → UInt64) :
    SoundRegions r.superblock ∧ OpensFirst crypto nonces clock folder folder' r passphrase := by
  obtain ⟨plan, usable, pool, disk, hplan, rfl, hdone⟩ := format_ok hfolder.toExactFolder hexact h
  refine ⟨soundRegions_layout hdone.laidOut.layout (hdone.laidOut.totalBlocks_lt hfolder), ?_⟩
  cases passphrase with
  | none =>
    obtain ⟨plan', usable', pool', disk', heq, hplain⟩ :=
      formatPlaintext_ok hfolder.toExactFolder hexact h
    rw [heq]
    exact hplain.opened hfolder
  | some passphrase => exact hdone.opened hfolder hexact hplan

end FirstState

/-- The theorem on two images. -/
theorem opened_first_twoImages : ∃ r folder',
    formatWithAnchorOptions Crypto.identity zeroRandomness ImageFolder.twoImages (some "secret")
      (some "a.png") true = (.ok r, folder') ∧ SoundRegions r.superblock ∧
    OpensFirst Crypto.identity (fun _ => Vector.replicate 24 0) (fun _ => 0) ImageFolder.twoImages folder' r
      (some "secret") := by
  obtain ⟨r, folder', h, -⟩ := exists_format_twoImages Crypto.identity zeroRandomness
    Crypto.identity_exact Crypto.identity_total fun _ => rfl
  exact ⟨r, folder', h, opened_first ImageFolder.framed Crypto.identity_exact h _ _⟩

end AlbumFS

import AlbumFS.Ops.Fresh
import AlbumFS.Ops.Halted

/-!
# The block map as a partial map

For a live inode, `bmap` without allocation is a partial map from block numbers to blocks, and no block has two
numbers. With allocation it is an update of this map at one number: the block that is returned is the new value
there, the other numbers and the other inodes keep theirs, and what the bitmap marks in addition is the block
itself and the pointer blocks that were missing on the way to it.

## Main definitions

* `AlbumFs.mapped`: what `bmap` finds.
* `MapUpdate`: an update of the map at one number.

## Main results

* `AlbumFs.mapped_injective`: no block has two numbers.
* `bmap_updates`: looking up a block, with and without allocation.
-/

namespace AlbumFS

open BlockTree Prog

/-- The block with that number, as the pointers have it. -/
def View.pointerTo (v : View) (ino index : Nat) : Option Nat := (dataSlot ino index).bind v.own

namespace AlbumFs

/-- What `bmap` finds without allocating. -/
def mapped (fs : AlbumFs Disk) (inode : Inode) (index : Nat) : Except FsError (Option Nat) :=
  (exec (bmap inode index false) fs).1.map Prod.fst

end AlbumFs

/-- The block `b` is the value at `index` of the map of `inode'`, which else is the map of `inode`. -/
structure MapUpdate (ino index b : Nat) (fs : AlbumFs Disk) (inode : Inode) (fs' : AlbumFs Disk)
    (inode' : Inode) : Prop where
  found : exec (AlbumFs.bmap inode' index false) fs' = (.ok (some b, inode'), fs')
  mapped_eq : ∀ j, j ≠ index → fs'.mapped inode' j = fs.mapped inode j
  others : ∀ i other, i ≠ ino → fs.view.inodes i = some other →
    fs'.view.inodes i = some other ∧ ∀ j, fs'.mapped other j = fs.mapped other j
  blockCount_eq : inode'.blockCount =
    if fs.mapped inode index = .ok none then inode.blockCount + 1 else inode.blockCount
  fresh : fs.mapped inode index = .ok none →
    fs.bitmap.isSet b = false ∧ exec (AlbumFs.readBlock b) fs' = (.ok Block.zero, fs')
  /-- Besides the block itself, the new blocks are those of the pointers on the way that named none. -/
  isSet_iff : ∀ c, fs'.bitmap.isSet c = true ↔ fs.bitmap.isSet c = true ∨
    ∃ s ∈ slotsTo ino index, fs.view.own s = none ∧ fs'.view.ownWith ino inode' s = some c ∧
      (s.IsLeaf → c = b)

section Mapped

variable {fs fs' : AlbumFs Disk} {ino index index' b : Nat} {inode inode' : Inode}

/-- What `bmap` finds is what the slot of the block names. -/
theorem Mapped.mapped_eq (h : Mapped fs.view ino inode) (index : Nat) :
    fs.mapped inode index = match dataSlot ino index with
      | some s => .ok (fs.view.ownWith ino inode s)
      | none => .error (.badBlock index) := by
  rw [AlbumFs.mapped, AlbumFs.reads_bmap h index fs rfl]
  cases dataSlot ino index <;> rfl

theorem Mapped.mapped_of_dataSlot (h : Mapped fs.view ino inode) {s : Slot}
    (hs : dataSlot ino index = some s) : fs.mapped inode index = .ok (fs.view.ownWith ino inode s) := by
  rw [h.mapped_eq, hs]

/-- The slot of a number below the limit. -/
theorem exists_dataSlot (ino : Nat) (h : index < 12 + 504 + 504 * 504) :
    ∃ s, dataSlot ino index = some s := by
  rw [← Option.ne_none_iff_exists', Ne, dataSlot_eq_none_iff, POINTERS_PER_BLOCK_eq]
  omega

/-- Beyond the limit, `bmap` fails at once. -/
theorem AlbumFs.exec_bmap_of_le (h : 12 + 504 + 504 * 504 ≤ index) (allocate : Bool) :
    exec (bmap inode index allocate) fs = (.error (.badBlock index), fs) := by
  have h₁ : ¬index < 12 := by omega
  have h₂ : ¬index - 12 < POINTERS_PER_BLOCK := by
    rw [POINTERS_PER_BLOCK_eq]
    omega
  have h₃ : index - 12 - POINTERS_PER_BLOCK ≥ POINTERS_PER_BLOCK * POINTERS_PER_BLOCK := by
    rw [POINTERS_PER_BLOCK_eq]
    omega
  simp only [bmap, dif_neg h₁, if_neg h₂, if_pos h₃, exec_throw]

/-- No block has two numbers, in one inode or in two. -/
theorem AlbumFs.mapped_injective (h : fs.view.Sound) {i : Nat} {other : Inode}
    (hino : fs.view.inodes ino = some inode) (hi : fs.view.inodes i = some other)
    (hb : fs.mapped inode index = .ok (some b)) (hb' : fs.mapped other index' = .ok (some b)) :
    ino = i ∧ index = index' := by
  have hslot : ∀ {i index other}, fs.view.inodes i = some other → fs.mapped other index = .ok (some b) →
      ∃ s, dataSlot i index = some s ∧ fs.view.own s = some b := by
    intro i index other hi hb
    rw [(h.mapped hi).mapped_eq] at hb
    cases hs : dataSlot i index with
    | none => simp [hs] at hb
    | some s =>
      rw [hs, View.ownWith_self hi] at hb
      exact ⟨s, rfl, Except.ok.inj hb⟩
  obtain ⟨s, hs, hown⟩ := hslot hino hb
  obtain ⟨t, ht, hown'⟩ := hslot hi hb'
  obtain rfl := h.exclusive.inj hown hown'
  obtain rfl : ino = i := (isLeaf_of_dataSlot hs).2.symm.trans (isLeaf_of_dataSlot ht).2
  exact ⟨rfl, dataSlot_injective hs ht⟩

end Mapped

/-! ### Allocation is an update -/

section Update

variable {fs fs' : AlbumFs Disk} {ino index b : Nat} {inode inode' : Inode} {s : Slot}

/-- The allocations on the way to a block are an update of the map. -/
theorem Grows.mapUpdate (h : fs.view.Sound) (hi : fs.view.inodes ino = some inode)
    (hg : Grows ino (slotsTo ino index) fs.view inode fs'.view inode')
    (hc : SameContent ino fs.view inode fs'.view inode') (hs : dataSlot ino index = some s)
    (hown : fs'.view.ownWith ino inode' s = some b)
    (hcount : inode'.blockCount = if fs.view.ownWith ino inode s = none then inode.blockCount + 1
      else inode.blockCount) : MapUpdate ino index b fs inode fs' inode' := by
  have hm := h.mapped hi
  have hself := View.ownWith_self hi
  have hleaf := isLeaf_of_dataSlot hs
  have hnone : fs.mapped inode index = .ok none ↔ fs.view.ownWith ino inode s = none := by
    rw [hm.mapped_of_dataSlot hs, Except.ok.injEq]
  constructor
  · rw [AlbumFs.reads_bmap hg.mapped index fs' rfl, hs]
    exact congrArg (fun found => (Except.ok (found, inode'), fs')) hown
  · intro j hj
    rw [hg.mapped.mapped_eq, hm.mapped_eq]
    cases ht : dataSlot ino j with
    | none => rfl
    | some t =>
      have hmem : t ∉ slotsTo ino index := fun hmem =>
        hj (dataSlot_injective ht (eq_of_mem_slotsTo hs hmem (isLeaf_of_dataSlot ht).1 ▸ hs))
      dsimp only
      rw [hg.own_of_not_mem t hmem]
  · intro i other hne hother
    have hother' : fs'.view.inodes i = some other := by rw [hg.inodes_eq, hother]
    refine ⟨hother', fun j => ?_⟩
    rw [((hg.sound_stop hi).mapped hother').mapped_eq, (h.mapped hother).mapped_eq]
    cases ht : dataSlot i j with
    | none => rfl
    | some t =>
      have hino : t.ino ≠ ino := (isLeaf_of_dataSlot ht).2.symm ▸ hne
      have hmem : t ∉ slotsTo ino index := fun hmem => hino (ino_of_mem_slotsTo hmem)
      dsimp only
      rw [View.ownWith_self hother', View.ownWith_self hother, ← View.ownWith_of_ne hino,
        hg.own_of_not_mem t hmem, View.ownWith_of_ne hino]
  · rw [hcount]
    exact if_congr hnone.symm rfl rfl
  · intro hmapped
    have hhole := hnone.1 hmapped
    have hfree : fs.bitmap.isSet b = false :=
      hg.isSet_of_missing hm (View.mem_missing.2 ⟨(mem_slotsTo_iff hs).2 (Place.Above.refl s), hhole⟩) hown
    have hzero : fs'.view.data b = Block.zero := by
      have hcontent := hc s hleaf.1
      rw [View.content, View.content, hown, hhole] at hcontent
      exact hcontent
    exact ⟨hfree, by rw [AlbumFs.reads_readBlock (hg.mapped.inData hown) fs' rfl, hzero]⟩
  · intro c
    have hset : fs'.bitmap.isSet c = true ↔ _ := hg.isSet_iff c
    rw [hset, hself]
    refine or_congr Iff.rfl (exists_congr fun t => and_congr_right fun ht => and_congr_right fun _ => ?_)
    refine (and_iff_left_of_imp fun htc hl => ?_).symm
    obtain rfl := eq_of_mem_slotsTo hs ht hl
    exact Option.some.inj (htc.symm.trans hown)

/-- Looking up a block of a live inode without allocation changes nothing and finds what the pointers say; with
allocation it is an update of the map. Beyond the limit it fails and changes nothing. -/
theorem bmap_updates (h : fs.view.Sound) (hi : fs.view.inodes ino = some inode) (index : Nat) :
    (index < 12 + 504 + 504 * 504 →
      exec (AlbumFs.bmap inode index false) fs = (.ok (fs.view.pointerTo ino index, inode), fs) ∧
      ∀ found inode' fs', exec (AlbumFs.bmap inode index true) fs = (.ok (found, inode'), fs') →
        ∃ b, found = some b ∧ MapUpdate ino index b fs inode fs' inode') ∧
    (12 + 504 + 504 * 504 ≤ index →
      ∀ allocate, exec (AlbumFs.bmap inode index allocate) fs = (.error (.badBlock index), fs)) := by
  refine ⟨fun hlt => ⟨?_, fun found inode' fs' hexec => ?_⟩, fun hle => AlbumFs.exec_bmap_of_le hle⟩
  · obtain ⟨s, hs⟩ := exists_dataSlot ino hlt
    rw [AlbumFs.reads_bmap (h.mapped hi) index fs rfl, View.pointerTo, hs, Option.bind_some,
      View.ownWith_self hi]
  · obtain ⟨s, b, hs, hfound, hown, hg, hc, hcount⟩ :=
      (AlbumFs.endsOn_bmap_counted (h.mapped hi) index).of_ok hexec
    exact ⟨b, hfound, hg.mapUpdate h hi hc hs hown hcount⟩

/-- The theorem for a hole of the root directory of the small pool. -/
theorem bmap_updates_smallPool :
    (12 < 12 + 504 + 504 * 504 →
      exec (AlbumFs.bmap (rootInode 6) 12 false) smallPool =
        (.ok (smallPool.view.pointerTo 1 12, rootInode 6), smallPool) ∧
      ∀ found inode' fs', exec (AlbumFs.bmap (rootInode 6) 12 true) smallPool = (.ok (found, inode'), fs') →
        ∃ b, found = some b ∧ MapUpdate 1 12 b smallPool (rootInode 6) fs' inode') ∧
    (12 + 504 + 504 * 504 ≤ 12 →
      ∀ allocate, exec (AlbumFs.bmap (rootInode 6) 12 allocate) smallPool =
        (.error (.badBlock 12), smallPool)) :=
  have hfresh := formatted_smallPool.fresh
  have hroot : smallPool.view.inodes 1 = some (rootInode 6) := by
    rw [hfresh.inodes_eq, Function.update_self]
    rfl
  bmap_updates hfresh.sound hroot 12

end Update

end AlbumFS

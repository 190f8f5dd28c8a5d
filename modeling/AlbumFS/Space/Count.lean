import AlbumFS.Space.Sound
import Mathlib.Data.Finset.Card

/-!
# Counting blocks

An inode counts the blocks of contents that its pointers name, those of its pointer blocks included and
the pointer blocks themselves left out. `bmap` and `remove_mapped_block` change the count of the copy of
the inode that they are given together with its block map.

How many allocations succeed is a matter of counting as well: as many as there are free blocks.

## Main definitions

* `mappedBlocks`: the numbers of the blocks that a file has.
* `Inode.Counts`, `View.Counted`: the block counts are exact.
* `View.HasRoom`: the free blocks suffice for a list of blocks of a file.

## Main results

* `Inode.Counts.grows`, `AlbumFs.endsOn_removeMappedBlock_counts`: the count of the copy stays exact, and
  it is never taken below zero.
* `Halts.not_hasRoom`: allocations stop when there is no room.
-/

namespace AlbumFS

open BlockTree Ownership Prog

/-- The blocks that the pointers of an inode reach. -/
def MAX_FILE_BLOCKS : Nat := 12 + POINTERS_PER_BLOCK + POINTERS_PER_BLOCK * POINTERS_PER_BLOCK

theorem dataSlot_ne_none_iff {ino index : Nat} : dataSlot ino index ≠ none ↔ index < MAX_FILE_BLOCKS := by
  rw [ne_eq, dataSlot_eq_none_iff, Nat.not_le, MAX_FILE_BLOCKS]

/-- The numbers of the blocks of the file `ino` that the slots name. -/
def mappedBlocks (own : Slot → Option Nat) (ino : Nat) : Finset Nat :=
  (Finset.range MAX_FILE_BLOCKS).filter fun index => ((dataSlot ino index).bind own).isSome

section Mapped

variable {own own' : Slot → Option Nat} {ino index : Nat} {s : Slot}

theorem mem_mappedBlocks :
    index ∈ mappedBlocks own ino ↔ ∃ s b, dataSlot ino index = some s ∧ own s = some b := by
  rw [mappedBlocks, Finset.mem_filter, Finset.mem_range, ← (dataSlot_ne_none_iff : dataSlot ino index ≠ none ↔ _)]
  cases dataSlot ino index with
  | none => simp
  | some s => simp [Option.isSome_iff_exists]

theorem mem_mappedBlocks_of_slot (hs : dataSlot ino index = some s) :
    index ∈ mappedBlocks own ino ↔ own s ≠ none := by
  rw [mem_mappedBlocks, Option.ne_none_iff_exists']
  constructor
  · rintro ⟨t, b, ht, hb⟩
    rw [hs, Option.some.injEq] at ht
    exact ⟨b, ht ▸ hb⟩
  · rintro ⟨b, hb⟩
    exact ⟨s, b, hs, hb⟩

/-- A file has at most as many blocks as its pointers reach. -/
theorem card_mappedBlocks_le (own : Slot → Option Nat) (ino : Nat) :
    (mappedBlocks own ino).card ≤ MAX_FILE_BLOCKS :=
  (Finset.card_filter_le _ _).trans (Finset.card_range _).le

/-- The slots of the file decide its blocks. -/
theorem mappedBlocks_congr (h : ∀ s : Slot, s.IsLeaf → s.ino = ino → own' s = own s) :
    mappedBlocks own' ino = mappedBlocks own ino := by
  ext index
  cases hs : dataSlot ino index with
  | none => simp [mem_mappedBlocks, hs]
  | some s =>
    obtain ⟨hleaf, hino⟩ := isLeaf_of_dataSlot hs
    rw [mem_mappedBlocks_of_slot hs, mem_mappedBlocks_of_slot hs, h s hleaf hino]

theorem mappedBlocks_eq_empty (h : ∀ s : Slot, s.ino = ino → own s = none) : mappedBlocks own ino = ∅ := by
  ext index
  cases hs : dataSlot ino index with
  | none => simp [mem_mappedBlocks, hs]
  | some s => simp [mem_mappedBlocks_of_slot hs, h s (isLeaf_of_dataSlot hs).2]

/-- A file that gets its first block. -/
theorem mappedBlocks_update_direct (h : ∀ s : Slot, s.ino = ino → own s = none) (b : Nat) :
    mappedBlocks (Function.update own (Slot.direct ino 0) (some b)) ino = {0} := by
  ext index
  rw [Finset.mem_singleton]
  cases hs : dataSlot ino index with
  | none =>
    have hindex := dataSlot_eq_none_iff.1 hs
    simp [mem_mappedBlocks, hs]
    omega
  | some s =>
    obtain ⟨hleaf, hino⟩ := isLeaf_of_dataSlot hs
    rw [mem_mappedBlocks_of_slot hs]
    by_cases hzero : s = Slot.direct ino 0
    · subst hzero
      rw [Function.update_self]
      exact iff_of_true (Option.some_ne_none b) (index_of_dataSlot hs).symm
    · rw [Function.update_of_ne hzero, h s hino]
      refine iff_of_false (fun hne => hne rfl) fun hindex => hzero ?_
      subst hindex
      rw [dataSlot_direct (by omega), Option.some.injEq] at hs
      exact hs.symm

end Mapped

/-- The count of the inode is the number of blocks of contents that the slots name. -/
def Inode.Counts (inode : Inode) (own : Slot → Option Nat) (ino : Nat) : Prop :=
  inode.blockCount.toNat = (mappedBlocks own ino).card

/-- The counts of the stored inodes are exact. -/
def View.Counted (v : View) : Prop := ∀ ino inode, v.inodes ino = some inode → inode.Counts v.own ino

section Counts

variable {v w : View} {ino index : Nat} {inode inode' : Inode} {s : Slot}

theorem Inode.Counts.congr {own own' : Slot → Option Nat} (h : inode.Counts own ino)
    (hcount : inode'.blockCount = inode.blockCount)
    (hown : ∀ s : Slot, s.IsLeaf → s.ino = ino → own' s = own s) : inode'.Counts own' ino := by
  rw [Counts, hcount, mappedBlocks_congr hown]
  exact h

/-- A slot on the way to a block that names contents is the slot of the block. -/
theorem eq_of_mem_slotsTo {t : Slot} (hs : dataSlot ino index = some s) (ht : t ∈ slotsTo ino index)
    (hleaf : t.IsLeaf) : t = s :=
  ((mem_slotsTo_iff hs).1 ht).eq_of_isLeaf hleaf |>.symm

/-- The block of a file that was allocated is one more. -/
theorem Grows.mappedBlocks_eq (h : Grows ino (slotsTo ino index) v inode w inode')
    (hs : dataSlot ino index = some s) :
    mappedBlocks (w.ownWith ino inode') ino = insert index (mappedBlocks (v.ownWith ino inode) ino) := by
  ext k
  rw [Finset.mem_insert]
  cases ht : dataSlot ino k with
  | none =>
    have hne : k ≠ index := by
      rintro rfl
      rw [hs] at ht
      cases ht
    simp [mem_mappedBlocks, ht, hne]
  | some t =>
    rw [mem_mappedBlocks_of_slot ht, mem_mappedBlocks_of_slot ht]
    by_cases hk : k = index
    · subst hk
      rw [hs, Option.some.injEq] at ht
      subst ht
      obtain ⟨c, hc⟩ := h.own_of_mem s ((mem_slotsTo_iff hs).2 (Place.Above.refl _))
      simp [hc]
    · rw [h.own_of_not_mem t fun hmem => hk (dataSlot_injective ht
        (eq_of_mem_slotsTo hs hmem (isLeaf_of_dataSlot ht).1 ▸ hs))]
      simp [hk]

/-- Removing a block takes it out of the blocks of the file. -/
theorem Removed.mappedBlocks_eq (h : Removed ino index v inode w inode') :
    mappedBlocks (w.ownWith ino inode') ino = (mappedBlocks (v.ownWith ino inode) ino).erase index := by
  ext k
  rw [Finset.mem_erase]
  cases ht : dataSlot ino k with
  | none => simp [mem_mappedBlocks, ht]
  | some t =>
    rw [mem_mappedBlocks_of_slot ht, mem_mappedBlocks_of_slot ht]
    by_cases hk : k = index
    · subst hk
      simp [h.gone t ht]
    · rw [h.kept t fun s hs ha => ?_]
      · simp [hk]
      · obtain rfl := ha.eq_of_isLeaf (isLeaf_of_dataSlot ht).1
        exact hk (dataSlot_injective ht hs)

theorem Inode.Counts.lt (h : inode.Counts (v.ownWith ino inode) ino) (hnot : index ∉ mappedBlocks
    (v.ownWith ino inode) ino) (hindex : index < MAX_FILE_BLOCKS) :
    inode.blockCount.toNat + 1 < 2 ^ 32 := by
  have hle : (mappedBlocks (v.ownWith ino inode) ino).card < MAX_FILE_BLOCKS := by
    refine (Finset.card_lt_card (Finset.ssubset_iff_of_subset (Finset.filter_subset _ _) |>.2
      ⟨index, Finset.mem_range.2 hindex, hnot⟩)).trans_eq (Finset.card_range _)
  rw [Counts] at h
  rw [MAX_FILE_BLOCKS, POINTERS_PER_BLOCK_eq] at hle
  omega

/-- The count of the copy stays exact when the new block is counted. -/
theorem Inode.Counts.grows (h : inode.Counts (v.ownWith ino inode) ino)
    (hg : Grows ino (slotsTo ino index) v inode w inode') (hs : dataSlot ino index = some s)
    (hcount : inode'.blockCount =
      if v.ownWith ino inode s = none then inode.blockCount + 1 else inode.blockCount) :
    inode'.Counts (w.ownWith ino inode') ino := by
  have hiff : index ∈ mappedBlocks (v.ownWith ino inode) ino ↔ _ := mem_mappedBlocks_of_slot hs
  rw [Counts, hg.mappedBlocks_eq hs, hcount]
  split_ifs with hnone
  · have hnot : index ∉ mappedBlocks (v.ownWith ino inode) ino := fun hmem => hiff.1 hmem hnone
    have hlt := h.lt hnot (dataSlot_ne_none_iff.1 (by rw [hs]; exact Option.some_ne_none s))
    rw [Finset.card_insert_of_notMem hnot, UInt32.toNat_add, ← h]
    exact Nat.mod_eq_of_lt hlt
  · rw [Finset.insert_eq_of_mem (hiff.2 hnone)]
    exact h

/-- The copy of an inode is stored with its count. -/
theorem View.Counted.store (h : v.Counted) (hinodes : w.inodes = v.inodes)
    (hcounts : inode.Counts (w.ownWith ino inode) ino)
    (hothers : ∀ t : Slot, t.IsLeaf → t.ino ≠ ino → w.ownWith ino inode t = v.own t)
    (hp : ∀ r : Root, r.pointer inode' = r.pointer inode)
    (hcount : inode'.blockCount = inode.blockCount) (hmode : inode'.mode ≠ 0) :
    (w.setInode ino inode').Counted := by
  intro ino' i hi
  rw [View.own_setInode hmode, View.ownWith_congr hp]
  rw [View.inodes_setInode, hinodes, Inode.live_of_ne hmode] at hi
  by_cases hino : ino' = ino
  · subst hino
    rw [Function.update_self, Option.some.injEq] at hi
    subst hi
    exact hcounts.congr hcount fun _ _ _ => rfl
  · rw [Function.update_of_ne hino] at hi
    exact (h ino' i hi).congr rfl fun t hleaf ht => hothers t hleaf (ht ▸ hino)

/-- An inode is freed. -/
theorem View.Counted.free (h : v.Counted) (hinodes : w.inodes = v.inodes)
    (hothers : ∀ t : Slot, t.IsLeaf → t.ino ≠ ino → w.ownWith ino inode t = v.own t) :
    (w.setInode ino Inode.default).Counted := by
  intro ino' i hi
  rw [View.inodes_setInode, hinodes, Inode.live_default] at hi
  by_cases hino : ino' = ino
  · subst hino
    rw [Function.update_self] at hi
    cases hi
  · rw [Function.update_of_ne hino] at hi
    refine (h ino' i hi).congr rfl fun t hleaf ht => ?_
    have hne : t.ino ≠ ino := ht ▸ hino
    rw [View.own_setInode_default, if_neg hne, ← hothers t hleaf hne, View.ownWith_of_ne hne]

/-- The slots and the inodes decide whether the counts are exact. -/
theorem View.Counted.congr (h : v.Counted) (hinodes : w.inodes = v.inodes)
    (hown : ∀ t : Slot, t.IsLeaf → w.own t = v.own t) : w.Counted := fun ino i hi =>
  (h ino i (by rw [← hinodes, hi])).congr rfl fun t hleaf _ => hown t hleaf

/-- Removals from one file touch no slot of another. -/
theorem RemovedRange.own_of_ne {start n : Nat} (h : RemovedRange ino start n v inode w inode') {t : Slot}
    (ht : t.ino ≠ ino) : w.ownWith ino inode' t = v.own t := by
  rw [h.kept t fun k _ _ s hs ha => ht ((congrArg Prod.fst ha.1).trans (isLeaf_of_dataSlot hs).2),
    View.ownWith_of_ne ht]

/-- Allocations for one file touch no slot of another. -/
theorem Grows.own_of_ne {slots : List Slot} (h : Grows ino slots v inode w inode')
    (hslots : ∀ t ∈ slots, t.ino = ino) {t : Slot} (ht : t.ino ≠ ino) :
    w.ownWith ino inode' t = v.own t := by
  rw [h.own_of_not_mem t fun hmem => ht (hslots t hmem), View.ownWith_of_ne ht]

end Counts

namespace AlbumFs

variable {v : View} {ino index : Nat} {inode : Inode}

/-! ### Releasing -/

theorem endsOn_takeEntry_flag (pointers : Block) (j : Fin POINTERS_PER_BLOCK) :
    EndsOn view (takeEntry pointers j) v
      (fun res _ => res.2 = true ↔ pointerEntry pointers j ≠ none) fun _ _ => True := by
  unfold takeEntry
  by_cases h0 : pointerAt pointers j = 0
  · simp only [h0, ne_eq, not_true, if_false]
    exact endsOn_pure (iff_of_false Bool.false_ne_true fun hne => hne (thenSome_eq_none.2 h0))
  · simp only [ne_eq, h0, not_false_iff, if_true]
    exact (endsOn_true _ _).bind (fun _ _ _ => endsOn_pure (iff_of_true rfl
      fun hnone => h0 (thenSome_eq_none.1 hnone))) fun _ _ _ => trivial

theorem blockCount_uncountBlock {removed : Bool} {p : Prop} [Decidable p] (h : removed = true ↔ p) :
    (uncountBlock inode removed).blockCount =
      if p then inode.blockCount - 1 else inode.blockCount := by
  cases removed with
  | true => exact (if_pos (h.1 rfl)).symm
  | false => exact (if_neg fun hp => Bool.false_ne_true (h.2 hp)).symm

/-- `remove_mapped_block` takes one off the count when the file has the block. -/
theorem endsOn_removeMappedBlock_count (h : Mapped v ino inode) (index : Nat) :
    EndsOn view (removeMappedBlock inode index) v
      (fun inode' _ => inode'.blockCount = if index ∈ mappedBlocks (v.ownWith ino inode) ino then
        inode.blockCount - 1 else inode.blockCount) fun _ _ => True := by
  by_cases h₁ : index < 12
  · have hiff : index ∈ mappedBlocks (v.ownWith ino inode) ino ↔ _ :=
      mem_mappedBlocks_of_slot (dataSlot_direct h₁)
    rw [View.ownWith_direct] at hiff
    simp only [removeMappedBlock, dif_pos h₁]
    by_cases h0 : inode.direct[index] = 0
    · simp only [h0, ne_eq, not_true, if_false]
      refine endsOn_pure (if_neg fun hmem => hiff.1 hmem (thenSome_eq_none.2 h0)).symm
    · simp only [h0, ne_eq, not_false_iff, if_true]
      refine (endsOn_true _ _).bind (fun _ _ _ => endsOn_pure ?_) fun _ _ _ => trivial
      exact (if_pos (hiff.2 fun hnone => h0 (thenSome_eq_none.1 hnone))).symm
  by_cases h₂ : index - 12 < POINTERS_PER_BLOCK
  · have hiff : index ∈ mappedBlocks (v.ownWith ino inode) ino ↔ _ :=
      mem_mappedBlocks_of_slot (dataSlot_entry h₁ h₂)
    by_cases h0 : inode.singleIndirect = 0
    · have hnone : v.ownWith ino inode (Slot.single ino) = none := by
        rw [View.ownWith_single, h0, thenSome_zero]
      simp only [removeMappedBlock, dif_neg h₁, if_pos h₂, h0, if_true]
      refine endsOn_pure (if_neg fun hmem => hiff.1 hmem ?_).symm
      rw [View.ownWith_entry, hnone, Option.bind_none]
    · have hown : v.ownWith ino inode (Slot.single ino) = some inode.singleIndirect.toNat :=
        View.ownWith_single.trans (thenSome_eq_some.2 ⟨h0, rfl⟩)
      rw [View.ownWith_entry, hown, Option.bind_some] at hiff
      simp only [removeMappedBlock, dif_neg h₁, if_pos h₂, h0, if_false]
      refine (reads_readBlock (h.inData hown)).bind_endsOn
        ((endsOn_takeEntry_flag _ ⟨index - 12, h₂⟩).bind ?_ fun _ _ _ => trivial)
      rintro ⟨pointers, removed⟩ w hflag
      refine (endsOn_true _ _).bind (fun released _ _ => endsOn_pure ?_) fun _ _ _ => trivial
      rw [apply_ite Inode.blockCount, ite_self]
      exact blockCount_uncountBlock (hflag.trans hiff.symm)
  by_cases h₃ : index - 12 - POINTERS_PER_BLOCK < POINTERS_PER_BLOCK * POINTERS_PER_BLOCK
  · have hiff : index ∈ mappedBlocks (v.ownWith ino inode) ino ↔ _ :=
      mem_mappedBlocks_of_slot (dataSlot_leaf h₁ h₂ h₃)
    rw [View.ownWith_leaf, View.ownWith_inner] at hiff
    by_cases h0 : inode.doubleIndirect = 0
    · rw [View.ownWith_double, h0, thenSome_zero, Option.bind_none, Option.bind_none] at hiff
      simp only [removeMappedBlock, dif_neg h₁, if_neg h₂, h0, or_true, if_true]
      exact endsOn_pure (if_neg fun hmem => hiff.1 hmem rfl).symm
    · have hown : v.ownWith ino inode (Slot.double ino) = some inode.doubleIndirect.toNat :=
        View.ownWith_double.trans (thenSome_eq_some.2 ⟨h0, rfl⟩)
      rw [hown, Option.bind_some] at hiff
      simp only [removeMappedBlock, dif_neg h₁, if_neg h₂, ge_iff_le, Nat.not_le.2 h₃, h0, or_self,
        if_false]
      refine (reads_readBlock (h.inData hown)).bind_endsOn ?_
      by_cases hI0 : pointerAt (v.data inode.doubleIndirect.toNat)
          ((index - 12 - POINTERS_PER_BLOCK) / POINTERS_PER_BLOCK) = 0
      · simp only [hI0, if_true]
        refine endsOn_pure (if_neg fun hmem => hiff.1 hmem ?_).symm
        rw [pointerEntry, thenSome_eq_none.2 hI0, Option.bind_none]
      · simp only [hI0, if_false]
        have hinner : v.ownWith ino inode (Slot.inner ino ⟨_, Nat.div_lt_of_lt_mul h₃⟩) = some
            (pointerAt (v.data inode.doubleIndirect.toNat)
              ((index - 12 - POINTERS_PER_BLOCK) / POINTERS_PER_BLOCK)).toNat := by
          rw [View.ownWith_inner, hown, Option.bind_some]
          exact thenSome_eq_some.2 ⟨hI0, rfl⟩
        rw [pointerEntry, thenSome_eq_some.2 ⟨hI0, rfl⟩, Option.bind_some] at hiff
        refine (reads_readBlock (h.inData hinner)).bind_endsOn ((endsOn_takeEntry_flag _
          ⟨_, Nat.mod_lt _ POINTERS_PER_BLOCK_pos⟩).bind ?_ fun _ _ _ => trivial)
        rintro ⟨pointers, removed⟩ w hflag
        refine (endsOn_true _ _).bind (fun emptied _ _ => (endsOn_true _ _).bind
          (fun released _ _ => endsOn_pure ?_) fun _ _ _ => trivial) fun _ _ _ => trivial
        rw [apply_ite Inode.blockCount, ite_self]
        exact blockCount_uncountBlock (hflag.trans hiff.symm)
  · simp only [removeMappedBlock, dif_neg h₁, if_neg h₂, ge_iff_le, Nat.not_lt.1 h₃, true_or, if_true]
    refine endsOn_pure (if_neg fun hmem => ?_).symm
    obtain ⟨s, -, hs, -⟩ := mem_mappedBlocks.1 hmem
    rw [dataSlot_none h₁ h₂ h₃] at hs
    cases hs

/-- `remove_mapped_block` keeps the count of the copy exact, and takes one off a positive count only. -/
theorem endsOn_removeMappedBlock_counts (h : Mapped v ino inode)
    (hcounts : inode.Counts (v.ownWith ino inode) ino) (index : Nat) :
    EndsOn view (removeMappedBlock inode index) v
      (fun inode' w => inode'.Counts (w.ownWith ino inode') ino ∧
        (inode'.blockCount ≠ inode.blockCount → 1 ≤ inode.blockCount.toNat ∧
          inode'.blockCount = inode.blockCount - 1)) fun _ _ => False := by
  refine ((endsOn_removeMappedBlock h index).and (endsOn_removeMappedBlock_count h index)).mono ?_
    fun _ _ he => he.1
  rintro inode' w ⟨hremoved, hcount⟩
  rw [Inode.Counts, hremoved.mappedBlocks_eq, hcount]
  split_ifs with hmem
  · have hpos : 0 < (mappedBlocks (v.ownWith ino inode) ino).card := Finset.card_pos.2 ⟨index, hmem⟩
    rw [← hcounts] at hpos
    refine ⟨?_, fun _ => ⟨hpos, rfl⟩⟩
    rw [Finset.card_erase_of_mem hmem, ← hcounts, UInt32.toNat_sub_of_le _ _ (by
      rw [UInt32.le_iff_toNat_le]
      exact hpos)]
    rfl
  · rw [Finset.erase_eq_of_notMem hmem]
    exact ⟨hcounts, fun hne => absurd rfl hne⟩

theorem endsOn_removeMappedBlocks_counts (h : Mapped v ino inode)
    (hcounts : inode.Counts (v.ownWith ino inode) ino) (start n : Nat) :
    EndsOn view (removeMappedBlocks inode start n) v
      (fun inode' w => Mapped w ino inode' ∧ inode'.Counts (w.ownWith ino inode') ino) fun _ _ => False := by
  induction n generalizing v inode start with
  | zero => exact endsOn_pure ⟨h, hcounts⟩
  | succ n ih =>
    refine ((endsOn_removeMappedBlock h start).and (endsOn_removeMappedBlock_counts h hcounts start)).bind
      ?_ fun _ _ he => he.1
    rintro inode' w ⟨hremoved, hcounts', -⟩
    exact ih (hremoved.shrinks.mapped h) hcounts' (start + 1)

end AlbumFs

/-! ### Room -/

/-- The free blocks of the data region. -/
def View.freeBlocks (v : View) : Finset Nat :=
  (Finset.range v.total).filter fun b => v.sb.dataStart.toNat ≤ b ∧ v.bitmap.isSet b = false

/-- The blocks with the numbers `indices` of a file exist or can be allocated, all of them. -/
def View.HasRoom (v : View) (ino : Nat) (inode : Inode) (indices : List Nat) : Prop :=
  (∀ index ∈ indices, dataSlot ino index ≠ none) ∧
    (v.missing ino inode (indices.flatMap (slotsTo ino))).card ≤ v.freeBlocks.card

section Room

variable {v w : View} {ino : Nat} {inode inode' : Inode} {slots : List Slot}

theorem View.mem_freeBlocks {b : Nat} : b ∈ v.freeBlocks ↔ v.InData b ∧ v.bitmap.isSet b = false := by
  rw [freeBlocks, Finset.mem_filter, Finset.mem_range, InData]
  tauto

theorem View.mem_missing {s : Slot} :
    s ∈ v.missing ino inode slots ↔ s ∈ slots ∧ v.ownWith ino inode s = none := by
  rw [missing, Finset.mem_filter, List.mem_toFinset]

theorem View.missing_mono {slots' : List Slot} (h : ∀ s ∈ slots, s ∈ slots') :
    v.missing ino inode slots ⊆ v.missing ino inode slots' := fun s hs =>
  mem_missing.2 ⟨h s (mem_missing.1 hs).1, (mem_missing.1 hs).2⟩

/-- The blocks that slots get are different ones. -/
theorem Grows.injOn_getD (h : Grows ino slots v inode w inode') :
    Set.InjOn (fun s => (w.ownWith ino inode' s).getD 0) (v.missing ino inode slots) := by
  intro s hs t ht hst
  obtain ⟨c, hc⟩ := h.own_of_mem s (View.mem_missing.1 hs).1
  obtain ⟨d, hd⟩ := h.own_of_mem t (View.mem_missing.1 ht).1
  simp only [hc, hd, Option.getD_some] at hst
  exact h.mapped.exclusive.inj hc (hst ▸ hd)

/-- A block that a slot got was free. -/
theorem Grows.isSet_of_missing (h : Grows ino slots v inode w inode') (hm : Mapped v ino inode) {s : Slot}
    (hs : s ∈ v.missing ino inode slots) {c : Nat} (hc : w.ownWith ino inode' s = some c) :
    v.bitmap.isSet c = false := by
  have htotal : w.bitmap.totalBlocks = v.bitmap.totalBlocks := by
    rw [h.mapped.geometry.totalBlocks_eq, h.total_eq, hm.geometry.totalBlocks_eq]
  have hcount := h.countFree_eq
  rw [Bitmap.countFree_eq_card, Bitmap.countFree_eq_card, htotal,
    ← Finset.card_image_of_injOn h.injOn_getD] at hcount
  have hsub : (Finset.range v.bitmap.totalBlocks).filter (fun b => w.bitmap.isSet b = false) ⊆
      (Finset.range v.bitmap.totalBlocks).filter fun b => v.bitmap.isSet b = false := by
    refine Finset.monotone_filter_right _ fun b _ hb => Bool.eq_false_iff.2 fun hv => ?_
    rw [(h.isSet_iff b).2 (.inl hv)] at hb
    cases hb
  have htaken : (Finset.range v.bitmap.totalBlocks).filter (fun b => v.bitmap.isSet b = false) \
      (Finset.range v.bitmap.totalBlocks).filter (fun b => w.bitmap.isSet b = false) ⊆
      (v.missing ino inode slots).image fun s => (w.ownWith ino inode' s).getD 0 := by
    intro b hb
    rw [Finset.mem_sdiff, Finset.mem_filter, Finset.mem_filter, not_and] at hb
    obtain ⟨⟨hrange, hv⟩, hw⟩ := hb
    rcases (h.isSet_iff b).1 (Bool.eq_true_of_not_eq_false (hw hrange)) with hset | ⟨t, ht, hnone, hown⟩
    · rw [hv] at hset
      cases hset
    · exact Finset.mem_image.2 ⟨t, View.mem_missing.2 ⟨ht, hnone⟩, by rw [hown, Option.getD_some]⟩
  have hall := Finset.eq_of_subset_of_card_le htaken (by
    have := Finset.card_sdiff_add_card_eq_card hsub
    omega)
  have hmem : c ∈ (v.missing ino inode slots).image fun s => (w.ownWith ino inode' s).getD 0 :=
    Finset.mem_image.2 ⟨s, hs, by rw [hc, Option.getD_some]⟩
  rw [← hall, Finset.mem_sdiff, Finset.mem_filter] at hmem
  exact hmem.1.2

/-- Each slot that gets a block takes one from the free blocks. -/
theorem Grows.freeBlocks_eq (h : Grows ino slots v inode w inode') (hm : Mapped v ino inode) :
    w.freeBlocks.card + (v.missing ino inode slots).card = v.freeBlocks.card := by
  have hin : ∀ b, w.InData b ↔ v.InData b := fun b => by rw [View.InData, h.sb_eq, h.total_eq, View.InData]
  have hsub : w.freeBlocks ⊆ v.freeBlocks := by
    intro b hb
    obtain ⟨hb, hset⟩ := View.mem_freeBlocks.1 hb
    refine View.mem_freeBlocks.2 ⟨(hin b).1 hb, Bool.eq_false_iff.2 fun hv => ?_⟩
    rw [(h.isSet_iff b).2 (.inl hv)] at hset
    cases hset
  have himage : (v.missing ino inode slots).image (fun s => (w.ownWith ino inode' s).getD 0) =
      v.freeBlocks \ w.freeBlocks := by
    ext b
    rw [Finset.mem_image, Finset.mem_sdiff, View.mem_freeBlocks, View.mem_freeBlocks, not_and]
    constructor
    · rintro ⟨s, hs, rfl⟩
      obtain ⟨c, hc⟩ := h.own_of_mem s (View.mem_missing.1 hs).1
      rw [hc, Option.getD_some]
      refine ⟨⟨(hin c).1 (h.mapped.inData hc), h.isSet_of_missing hm hs hc⟩, fun _ => ?_⟩
      rw [(h.mapped.exclusive.marked hc).2]
      exact Bool.noConfusion
    · rintro ⟨⟨hb, hfree⟩, hset⟩
      rcases (h.isSet_iff b).1 (Bool.eq_true_of_not_eq_false (hset ((hin b).2 hb))) with
        hv | ⟨s, hs, hnone, hown⟩
      · rw [hfree] at hv
        cases hv
      · exact ⟨s, View.mem_missing.2 ⟨hs, hnone⟩, by rw [hown, Option.getD_some]⟩
  rw [← Finset.card_image_of_injOn h.injOn_getD, himage, Nat.add_comm,
    Finset.card_sdiff_add_card_eq_card hsub]

/-- Allocations that succeed had room. -/
theorem Grows.hasRoom {indices : List Nat} (h : Grows ino (indices.flatMap (slotsTo ino)) v inode w inode')
    (hm : Mapped v ino inode) (hreach : ∀ index ∈ indices, dataSlot ino index ≠ none) :
    v.HasRoom ino inode indices :=
  ⟨hreach, by rw [← h.freeBlocks_eq hm]; exact Nat.le_add_left _ _⟩

theorem View.HasRoom.mono {indices indices' : List Nat} (h : v.HasRoom ino inode indices')
    (hsub : ∀ index ∈ indices, index ∈ indices') : v.HasRoom ino inode indices := by
  refine ⟨fun index hindex => h.1 index (hsub index hindex),
    (Finset.card_le_card (missing_mono fun s hs => ?_)).trans h.2⟩
  obtain ⟨index, hindex, hs⟩ := List.mem_flatMap.1 hs
  exact List.mem_flatMap.2 ⟨index, hsub index hindex, hs⟩

/-- Allocations stop when there is no room. -/
theorem Halts.not_hasRoom {u : View} {i : Inode} {before : List Nat} {index : Nat} {indices : List Nat}
    (hm : Mapped v ino inode) (hg : Grows ino (before.flatMap (slotsTo ino)) v inode u i)
    (h : Halts ino (slotsTo ino index) u i w) (hbefore : ∀ k ∈ before, k ∈ indices)
    (hindex : index ∈ indices) : ¬v.HasRoom ino inode indices := by
  obtain ⟨first, s, rest, i', hslots, hg', -, hnone, hfull⟩ := h
  have hgrows := hg.trans hg'
  have hempty : w.freeBlocks = ∅ := by
    refine Finset.eq_empty_of_forall_notMem fun b hb => ?_
    obtain ⟨hin, hset⟩ := View.mem_freeBlocks.1 hb
    rw [hfull b hin] at hset
    cases hset
  have hcard := hgrows.freeBlocks_eq hm
  rw [hempty, Finset.card_empty, Nat.zero_add] at hcard
  rintro ⟨-, hroom⟩
  refine absurd (Finset.card_lt_card ?_) (Nat.not_lt.2 (hcard ▸ hroom))
  refine Finset.ssubset_iff_of_subset (View.missing_mono fun t ht => ?_) |>.2 ⟨s, ?_, fun hs => ?_⟩
  · rcases List.mem_append.1 ht with ht | ht
    · obtain ⟨k, hk, ht⟩ := List.mem_flatMap.1 ht
      exact List.mem_flatMap.2 ⟨k, hbefore k hk, ht⟩
    · exact List.mem_flatMap.2 ⟨index, hindex, by rw [hslots]; exact List.mem_append_left _ ht⟩
  · refine View.mem_missing.2 ⟨List.mem_flatMap.2 ⟨index, hindex, by rw [hslots]; simp⟩, ?_⟩
    cases hown : v.ownWith ino inode s with
    | none => rfl
    | some c =>
      rw [hgrows.own_of_some s c hown] at hnone
      cases hnone
  · obtain ⟨c, hc⟩ := hgrows.own_of_mem s (View.mem_missing.1 hs).1
    rw [hnone] at hc
    cases hc

end Room

end AlbumFS

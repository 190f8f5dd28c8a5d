import AlbumFS.Fs.Damaged
import AlbumFS.Space.Release

/-!
# Releasing blocks on damaged devices

`remove_mapped_block` reads the pointer blocks on the way to a block before it changes anything. On a damaged
device a removal with a damaged pointer block on its way fails and leaves everything as it was; any other
removal is the removal of `AlbumFS.Space.Release`. A loop of removals stops at the first block with a damaged
pointer block on its way.

The loop works on a copy of the inode. `Emptied` says when it takes the block of a pointer of the inode itself:
everything that hangs below the pointer belongs to the range.

## Main definitions

* `View.Obstructed`: a pointer block on the way to a block of a file is damaged.
* `Emptied`: everything below a pointer of the inode belongs to a range of blocks.
* `Cleared`: what the removals of a range do, the pointers of the inode included.

## Main results

* `AlbumFs.endsOn_removeMappedBlocks_damaged`: a range of removals on a damaged device.
-/

namespace AlbumFS

open BlockTree Ownership Prog

/-- The slot of a pointer that the inode carries itself. -/
def Slot.top (ino : Nat) (r : Root) : Slot := ⟨(ino, r), [], Nat.zero_le _⟩

/-- A pointer block on the way to the block numbered `index` cannot be read. -/
def View.Obstructed (v : View) (faults : Nat → Option FsError) (ino : Nat) (inode : Inode) (index : Nat) :
    Prop :=
  ∃ s, dataSlot ino index = some s ∧
    ∃ t b, t.Above s ∧ t ≠ s ∧ v.ownWith ino inode t = some b ∧ faults b ≠ none

/-- The pointer blocks on the way as the code finds them. -/
theorem View.obstructed_iff {v : View} {faults : Nat → Option FsError} {ino index : Nat} {inode : Inode} :
    v.Obstructed faults ino inode index ↔
      (¬index < 12 ∧ index - 12 < POINTERS_PER_BLOCK ∧ inode.singleIndirect ≠ 0 ∧
        faults inode.singleIndirect.toNat ≠ none) ∨
      ¬index < 12 ∧ ¬index - 12 < POINTERS_PER_BLOCK ∧
        index - 12 - POINTERS_PER_BLOCK < POINTERS_PER_BLOCK * POINTERS_PER_BLOCK ∧
        inode.doubleIndirect ≠ 0 ∧ (faults inode.doubleIndirect.toNat ≠ none ∨
          AlbumFs.pointerAt (v.data inode.doubleIndirect.toNat)
              ((index - 12 - POINTERS_PER_BLOCK) / POINTERS_PER_BLOCK) ≠ 0 ∧
            faults (AlbumFs.pointerAt (v.data inode.doubleIndirect.toNat)
              ((index - 12 - POINTERS_PER_BLOCK) / POINTERS_PER_BLOCK)).toNat ≠ none) := by
  have hdouble : ∀ {b}, v.ownWith ino inode (Slot.double ino) = some b ↔
      inode.doubleIndirect ≠ 0 ∧ inode.doubleIndirect.toNat = b := by
    intro b
    rw [View.ownWith_double, thenSome_eq_some]
  have hinner : ∀ {k b}, v.ownWith ino inode (Slot.inner ino k) = some b ↔ inode.doubleIndirect ≠ 0 ∧
      AlbumFs.pointerAt (v.data inode.doubleIndirect.toNat) k ≠ 0 ∧
        (AlbumFs.pointerAt (v.data inode.doubleIndirect.toNat) k).toNat = b := by
    intro k b
    rw [View.ownWith_inner, Option.bind_eq_some_iff]
    simp only [hdouble, pointerEntry, thenSome_eq_some]
    constructor
    · rintro ⟨_, ⟨h0, rfl⟩, hk⟩
      exact ⟨h0, hk⟩
    · rintro ⟨h0, hk⟩
      exact ⟨_, ⟨h0, rfl⟩, hk⟩
  unfold View.Obstructed
  by_cases h₁ : index < 12
  · simp only [h₁, not_true, false_and, or_false, iff_false]
    rintro ⟨s, hs, t, b, ha, hts, -⟩
    rw [dataSlot_direct h₁, Option.some.injEq] at hs
    subst hs
    exact hts (Slot.above_direct_iff.1 ha)
  by_cases h₂ : index - 12 < POINTERS_PER_BLOCK
  · simp only [h₁, h₂, not_true, not_false_iff, false_and, and_false, or_false, true_and,
      dataSlot_entry h₁ h₂, Option.some.injEq, exists_eq_left']
    constructor
    · rintro ⟨t, b, ha, hts, hown, hfault⟩
      obtain rfl := (Slot.above_entry_iff.1 ha).resolve_right hts
      rw [View.ownWith_single, thenSome_eq_some] at hown
      exact ⟨hown.1, hown.2 ▸ hfault⟩
    · rintro ⟨h0, hfault⟩
      refine ⟨Slot.single ino, _, Slot.above_entry_iff.2 (.inl rfl), ?_, ?_, hfault⟩
      · exact fun he => absurd (congrArg Place.path he) (by simp [Slot.single, Slot.entry])
      · exact View.ownWith_single.trans (thenSome_eq_some.2 ⟨h0, rfl⟩)
  by_cases h₃ : index - 12 - POINTERS_PER_BLOCK < POINTERS_PER_BLOCK * POINTERS_PER_BLOCK
  · simp only [h₁, h₂, h₃, not_false_iff, false_and, and_false, false_or, true_and,
      dataSlot_leaf h₁ h₂ h₃, Option.some.injEq, exists_eq_left']
    constructor
    · rintro ⟨t, b, ha, hts, hown, hfault⟩
      rcases (Slot.above_leaf_iff.1 ha).resolve_right hts with rfl | rfl
      · obtain ⟨h0, rfl⟩ := hdouble.1 hown
        exact ⟨h0, .inl hfault⟩
      · obtain ⟨h0, hk, rfl⟩ := hinner.1 hown
        exact ⟨h0, .inr ⟨hk, hfault⟩⟩
    · rintro ⟨h0, hfault | ⟨hk, hfault⟩⟩
      · refine ⟨_, _, Slot.above_leaf_iff.2 (.inl (.inl rfl)), ?_, hdouble.2 ⟨h0, rfl⟩, hfault⟩
        exact fun he => absurd (congrArg Place.path he) (by simp [Slot.double, Slot.leaf])
      · refine ⟨_, _, Slot.above_leaf_iff.2 (.inl (.inr rfl)), ?_, hinner.2 ⟨h0, hk, rfl⟩, hfault⟩
        exact fun he => absurd (congrArg Place.path he) (by simp [Slot.inner, Slot.leaf])
  · simp only [h₁, h₂, h₃, dataSlot_none h₁ h₂ h₃, reduceCtorEq, not_false_iff, false_and, and_false,
      or_self, exists_false]

namespace AlbumFs

variable {v : View} {faults : Nat → Option FsError} {ino index : Nat} {inode : Inode}

/-! ### Looking up a block -/

theorem reads_entryBlock_intact {table : Nat} (hin : v.InData table) (hread : faults table = none)
    (j : Fin POINTERS_PER_BLOCK) :
    Reads survey (entryBlock table j false) (v, faults) (.ok (pointerEntry (v.data table) j, false)) := by
  refine (reads_readBlock_intact hin hread).bind ?_
  simp only [Bool.false_eq_true, and_false, if_false]
  exact reads_pure _ _

/-- Looking up a block without a damaged pointer block on the way to it. -/
theorem reads_bmap_intact (h : Mapped v ino inode) (hclear : ¬v.Obstructed faults ino inode index) :
    Reads survey (bmap inode index false) (v, faults) (match dataSlot ino index with
      | some s => .ok (v.ownWith ino inode s, inode)
      | none => .error (.badBlock index)) := by
  by_cases h₁ : index < 12
  · rw [dataSlot_direct h₁]
    simp only [bmap, dif_pos h₁, Bool.false_eq_true, and_false, if_false, View.ownWith_direct]
    exact reads_pure _ _
  by_cases h₂ : index - 12 < POINTERS_PER_BLOCK
  · rw [dataSlot_entry h₁ h₂]
    by_cases h0 : inode.singleIndirect = 0
    · simp only [bmap, dif_neg h₁, if_pos h₂, h0, and_self, if_true, View.ownWith_entry,
        View.ownWith_single, thenSome_zero, Option.bind_none]
      exact reads_pure _ _
    have hown : v.ownWith ino inode (Slot.single ino) = some inode.singleIndirect.toNat :=
      View.ownWith_single.trans (thenSome_eq_some.2 ⟨h0, rfl⟩)
    have hread : faults inode.singleIndirect.toNat = none := by
      by_contra hne
      exact hclear (View.obstructed_iff.2 (.inl ⟨h₁, h₂, h0, hne⟩))
    simp only [bmap, dif_neg h₁, if_pos h₂, h0, false_and, if_false, View.ownWith_entry, hown,
      Option.bind_some]
    exact (reads_pure _ _).bind ((reads_entryBlock_intact (h.inData hown) hread ⟨_, h₂⟩).bind
      (reads_pure _ _))
  by_cases h₃ : index - 12 - POINTERS_PER_BLOCK < POINTERS_PER_BLOCK * POINTERS_PER_BLOCK
  · rw [dataSlot_leaf h₁ h₂ h₃]
    simp only [View.ownWith_leaf, View.ownWith_inner]
    by_cases h0 : inode.doubleIndirect = 0
    · simp only [bmap, dif_neg h₁, if_neg h₂, ge_iff_le, Nat.not_le.2 h₃, h0, and_self, if_true,
        if_false, View.ownWith_double, thenSome_zero, Option.bind_none]
      exact reads_pure _ _
    have hown : v.ownWith ino inode (Slot.double ino) = some inode.doubleIndirect.toNat :=
      View.ownWith_double.trans (thenSome_eq_some.2 ⟨h0, rfl⟩)
    have hread : faults inode.doubleIndirect.toNat = none := by
      by_contra hne
      exact hclear (View.obstructed_iff.2 (.inr ⟨h₁, h₂, h₃, h0, .inl hne⟩))
    simp only [bmap, dif_neg h₁, if_neg h₂, ge_iff_le, Nat.not_le.2 h₃, h0, false_and, if_false, hown,
      Option.bind_some]
    refine (reads_pure _ _).bind ((reads_entryBlock_intact (h.inData hown) hread
      ⟨(index - 12 - POINTERS_PER_BLOCK) / POINTERS_PER_BLOCK, Nat.div_lt_of_lt_mul h₃⟩).bind ?_)
    cases hinner : pointerEntry (v.data inode.doubleIndirect.toNat)
      ⟨(index - 12 - POINTERS_PER_BLOCK) / POINTERS_PER_BLOCK, Nat.div_lt_of_lt_mul h₃⟩ with
    | none => exact reads_pure _ _
    | some inner =>
      have hown' : v.ownWith ino inode (Slot.inner ino
          ⟨(index - 12 - POINTERS_PER_BLOCK) / POINTERS_PER_BLOCK, Nat.div_lt_of_lt_mul h₃⟩) =
          some inner := by
        rw [View.ownWith_inner, hown, Option.bind_some, hinner]
      obtain ⟨hI0, rfl⟩ := thenSome_eq_some.1 hinner
      have hread' : faults (pointerAt (v.data inode.doubleIndirect.toNat)
          ((index - 12 - POINTERS_PER_BLOCK) / POINTERS_PER_BLOCK)).toNat = none := by
        by_contra hne
        exact hclear (View.obstructed_iff.2 (.inr ⟨h₁, h₂, h₃, h0, .inr ⟨hI0, hne⟩⟩))
      exact (reads_entryBlock_intact (h.inData hown') hread'
        ⟨_, Nat.mod_lt _ POINTERS_PER_BLOCK_pos⟩).bind (reads_pure _ _)
  · rw [dataSlot_none h₁ h₂ h₃]
    simp only [bmap, dif_neg h₁, if_neg h₂, ge_iff_le, Nat.not_lt.1 h₃, if_true]
    exact reads_throw _ _

/-- Looking up a block with a damaged pointer block on the way to it. -/
theorem reads_bmap_obstructed (h : Mapped v ino inode)
    (hobstructed : v.Obstructed faults ino inode index) :
    ∃ e, Reads survey (bmap inode index false) (v, faults) (.error e) := by
  rcases View.obstructed_iff.1 hobstructed with ⟨h₁, h₂, h0, hfault⟩ | ⟨h₁, h₂, h₃, h0, hfault⟩
  · obtain ⟨e, he⟩ := Option.ne_none_iff_exists'.1 hfault
    simp only [bmap, dif_neg h₁, if_pos h₂, h0, false_and, if_false]
    exact ⟨e, (reads_pure _ _).bind (reads_readBlock_damaged he).bind_error.bind_error⟩
  · have hown : v.ownWith ino inode (Slot.double ino) = some inode.doubleIndirect.toNat :=
      View.ownWith_double.trans (thenSome_eq_some.2 ⟨h0, rfl⟩)
    simp only [bmap, dif_neg h₁, if_neg h₂, ge_iff_le, Nat.not_le.2 h₃, h0, false_and, if_false]
    cases hread : faults inode.doubleIndirect.toNat with
    | some e => exact ⟨e, (reads_pure _ _).bind (reads_readBlock_damaged hread).bind_error.bind_error⟩
    | none =>
      obtain ⟨hI0, hfault'⟩ := hfault.resolve_left fun hne => hne hread
      obtain ⟨e, he⟩ := Option.ne_none_iff_exists'.1 hfault'
      have hinner := reads_entryBlock_intact (h.inData hown) hread
        ⟨(index - 12 - POINTERS_PER_BLOCK) / POINTERS_PER_BLOCK, Nat.div_lt_of_lt_mul h₃⟩
      rw [pointerEntry, thenSome_eq_some.2 ⟨hI0, rfl⟩] at hinner
      exact ⟨e, (reads_pure _ _).bind (hinner.bind (reads_readBlock_damaged he).bind_error.bind_error)⟩

/-! ### One removal -/

theorem linked_takeEntry (pointers : Block) (index : Nat) :
    Linked (Holds faults) (fun _ => True) (takeEntry pointers index : FsM Damaged (Block × Bool))
      (takeEntry pointers index) := by
  unfold takeEntry
  dsimp only
  split_ifs
  · exact (linked_clearBit _).bind fun _ _ => linked_pure trivial
  · exact linked_pure trivial

theorem linked_storeOrRelease (table : Nat) (pointers : Block) :
    Linked (Holds faults) (fun _ => True) (storeOrRelease table pointers : FsM Damaged Bool)
      (storeOrRelease table pointers) := by
  unfold storeOrRelease
  split_ifs
  · exact (linked_clearBit _).bind fun _ _ => linked_pure trivial
  · exact (linked_writeBlock _ _).bind fun _ _ => linked_pure trivial

/-- A removal without a damaged pointer block on its way does what it does on the disk. -/
theorem linkedAt_removeMappedBlock (h : Mapped v ino inode) (hclear : ¬v.Obstructed faults ino inode index)
    {fs : AlbumFs Damaged} (hfs : fs.survey = (v, faults)) :
    LinkedAt (Holds faults) (removeMappedBlock inode index : FsM Damaged Inode)
      (removeMappedBlock inode index) fs fs.repaired := by
  have hholds : Holds faults fs fs.repaired := ⟨rfl, congrArg Prod.snd hfs⟩
  have hview : fs.repaired.view = v := congrArg Prod.fst hfs
  by_cases h₁ : index < 12
  · simp only [removeMappedBlock, dif_pos h₁]
    split_ifs
    · exact ((linked_clearBit _).bind fun _ _ => linked_pure trivial).linkedAt hholds
    · exact (linked_pure trivial).linkedAt hholds
  by_cases h₂ : index - 12 < POINTERS_PER_BLOCK
  · by_cases h0 : inode.singleIndirect = 0
    · simp only [removeMappedBlock, dif_neg h₁, if_pos h₂, h0, if_true]
      exact (linked_pure trivial).linkedAt hholds
    have hown : v.ownWith ino inode (Slot.single ino) = some inode.singleIndirect.toNat :=
      View.ownWith_single.trans (thenSome_eq_some.2 ⟨h0, rfl⟩)
    have hread : faults inode.singleIndirect.toNat = none := by
      by_contra hne
      exact hclear (View.obstructed_iff.2 (.inl ⟨h₁, h₂, h0, hne⟩))
    simp only [removeMappedBlock, dif_neg h₁, if_pos h₂, h0, if_false]
    refine LinkedAt.bind_reads (reads_readBlock_intact (h.inData hown) hread fs hfs)
      (reads_readBlock (h.inData hown) _ hview) ?_
    refine ((linked_takeEntry _ _).bind ?_).linkedAt hholds
    rintro ⟨pointers, removed⟩ -
    exact (linked_storeOrRelease _ _).bind fun _ _ => linked_pure trivial
  by_cases h₃ : index - 12 - POINTERS_PER_BLOCK < POINTERS_PER_BLOCK * POINTERS_PER_BLOCK
  · by_cases h0 : inode.doubleIndirect = 0
    · simp only [removeMappedBlock, dif_neg h₁, if_neg h₂, h0, or_true, if_true]
      exact (linked_pure trivial).linkedAt hholds
    have hown : v.ownWith ino inode (Slot.double ino) = some inode.doubleIndirect.toNat :=
      View.ownWith_double.trans (thenSome_eq_some.2 ⟨h0, rfl⟩)
    have hread : faults inode.doubleIndirect.toNat = none := by
      by_contra hne
      exact hclear (View.obstructed_iff.2 (.inr ⟨h₁, h₂, h₃, h0, .inl hne⟩))
    simp only [removeMappedBlock, dif_neg h₁, if_neg h₂, ge_iff_le, Nat.not_le.2 h₃, h0, or_self, if_false]
    refine LinkedAt.bind_reads (reads_readBlock_intact (h.inData hown) hread fs hfs)
      (reads_readBlock (h.inData hown) _ hview) ?_
    split_ifs with hI0
    · exact (linked_pure trivial).linkedAt hholds
    have hinner : v.ownWith ino inode (Slot.inner ino ⟨_, Nat.div_lt_of_lt_mul h₃⟩) = some _ :=
      View.ownWith_inner.trans (by rw [hown, Option.bind_some]; exact thenSome_eq_some.2 ⟨hI0, rfl⟩)
    have hread' : faults (pointerAt (v.data inode.doubleIndirect.toNat)
        ((index - 12 - POINTERS_PER_BLOCK) / POINTERS_PER_BLOCK)).toNat = none := by
      by_contra hne
      exact hclear (View.obstructed_iff.2 (.inr ⟨h₁, h₂, h₃, h0, .inr ⟨hI0, hne⟩⟩))
    refine LinkedAt.bind_reads (reads_readBlock_intact (h.inData hinner) hread' fs hfs)
      (reads_readBlock (h.inData hinner) _ hview) ?_
    refine ((linked_takeEntry _ _).bind ?_).linkedAt hholds
    rintro ⟨pointers, removed⟩ -
    refine (linked_storeOrRelease _ _).bind fun emptied _ => ?_
    exact (linked_storeOrRelease _ _).bind fun _ _ => linked_pure trivial
  · simp only [removeMappedBlock, dif_neg h₁, if_neg h₂, ge_iff_le, Nat.not_lt.1 h₃, true_or, if_true]
    exact (linked_pure trivial).linkedAt hholds

/-- A removal with a damaged pointer block on its way fails and changes nothing. -/
theorem reads_removeMappedBlock_obstructed (h : Mapped v ino inode)
    (hobstructed : v.Obstructed faults ino inode index) :
    ∃ e, Reads survey (removeMappedBlock inode index) (v, faults) (.error e) := by
  rcases View.obstructed_iff.1 hobstructed with ⟨h₁, h₂, h0, hfault⟩ | ⟨h₁, h₂, h₃, h0, hfault⟩
  · obtain ⟨e, he⟩ := Option.ne_none_iff_exists'.1 hfault
    simp only [removeMappedBlock, dif_neg h₁, if_pos h₂, h0, if_false]
    exact ⟨e, (reads_readBlock_damaged he).bind_error⟩
  · have hown : v.ownWith ino inode (Slot.double ino) = some inode.doubleIndirect.toNat :=
      View.ownWith_double.trans (thenSome_eq_some.2 ⟨h0, rfl⟩)
    simp only [removeMappedBlock, dif_neg h₁, if_neg h₂, ge_iff_le, Nat.not_le.2 h₃, h0, or_self, if_false]
    cases hread : faults inode.doubleIndirect.toNat with
    | some e => exact ⟨e, (reads_readBlock_damaged hread).bind_error⟩
    | none =>
      obtain ⟨hI0, hfault'⟩ := hfault.resolve_left fun hne => hne hread
      obtain ⟨e, he⟩ := Option.ne_none_iff_exists'.1 hfault'
      refine ⟨e, (reads_readBlock_intact (h.inData hown) hread).bind ?_⟩
      rw [if_neg hI0]
      exact (reads_readBlock_damaged he).bind_error

/-! ### The pointers of the inode -/

/-- A single indirect block that a removal leaves holds a pointer. -/
theorem endsOn_removeMappedBlock_single (h : Mapped v ino inode) (h₁ : ¬index < 12)
    (h₂ : index - 12 < POINTERS_PER_BLOCK) :
    EndsOn view (removeMappedBlock inode index) v
      (fun i w => w.ownWith ino i (Slot.single ino) ≠ none →
        ∃ j, w.ownWith ino i (Slot.entry ino j) ≠ none) fun _ _ => False := by
  have hzero : ∀ (w : View) (i : Inode), i.singleIndirect = 0 → w.ownWith ino i (Slot.single ino) = none :=
    fun w i h0 => by rw [View.ownWith_single, h0, thenSome_zero]
  by_cases h0 : inode.singleIndirect = 0
  · simp only [removeMappedBlock, dif_neg h₁, if_pos h₂, h0, if_true]
    exact endsOn_pure fun hne => absurd (hzero v inode h0) hne
  have hown : v.ownWith ino inode (Slot.single ino) = some inode.singleIndirect.toNat :=
    View.ownWith_single.trans (thenSome_eq_some.2 ⟨h0, rfl⟩)
  have hin := h.inData hown
  simp only [removeMappedBlock, dif_neg h₁, if_pos h₂, h0, if_false]
  refine (reads_readBlock hin).bind_endsOn ((endsOn_takeEntry (v.data inode.singleIndirect.toNat)
    ⟨index - 12, h₂⟩ (Q := fun _ w => w.Geometry ∧ w.InData inode.singleIndirect.toNat)
    (E := fun _ _ => False) fun _ => ⟨h.geometry.setBitmap (totalBlocks_clearEntry _ _), hin⟩).bind ?_
    fun _ _ hf => hf.elim)
  rintro ⟨pointers, removed⟩ u ⟨hg, hin'⟩
  have hsame : (uncountBlock inode removed).singleIndirect = inode.singleIndirect :=
    pointer_uncountBlock inode removed .single
  simp only [hsame]
  refine (endsOn_storeOrRelease hg hin' pointers (E := fun _ _ => False) (Q := fun released w =>
    released = true ∨ w.data inode.singleIndirect.toNat = pointers ∧ ∃ j, pointerEntry pointers j ≠ none)
    (fun _ => .inl rfl) fun j hj => .inr ⟨Function.update_self _ _ _, j, hj⟩).bind ?_
    fun _ _ hf => hf.elim
  rintro released w hw
  refine endsOn_pure fun hne => ?_
  rcases hw with rfl | ⟨hdata, j, hj⟩
  · exact absurd (hzero w _ rfl) hne
  · cases released with
    | true => exact absurd (hzero w _ rfl) hne
    | false =>
      refine ⟨j, ?_⟩
      have hstays : w.ownWith ino (uncountBlock inode removed) (Slot.single ino) =
          some inode.singleIndirect.toNat := by
        rw [View.ownWith_single, hsame]
        exact thenSome_eq_some.2 ⟨h0, rfl⟩
      rw [if_neg Bool.false_ne_true, View.ownWith_entry, hstays, Option.bind_some, hdata]
      exact hj

/-- A double indirect block without inner indirect blocks is left alone. -/
theorem reads_removeMappedBlock_hollow (h : Mapped v ino inode) (h₁ : ¬index < 12)
    (h₂ : ¬index - 12 < POINTERS_PER_BLOCK) (hnone : ∀ k, v.ownWith ino inode (Slot.inner ino k) = none) :
    Reads view (removeMappedBlock inode index) v (.ok inode) := by
  simp only [removeMappedBlock, dif_neg h₁, if_neg h₂, ge_iff_le]
  split_ifs with hstop
  · exact reads_pure _ _
  obtain ⟨h₃, h0⟩ := not_or.1 hstop
  have hown : v.ownWith ino inode (Slot.double ino) = some inode.doubleIndirect.toNat :=
    View.ownWith_double.trans (thenSome_eq_some.2 ⟨h0, rfl⟩)
  have hinner := hnone ⟨_, Nat.div_lt_of_lt_mul (Nat.not_le.1 h₃)⟩
  rw [View.ownWith_inner, hown, Option.bind_some] at hinner
  refine (reads_readBlock (h.inData hown)).bind ?_
  rw [if_pos (thenSome_eq_none.1 hinner)]
  exact reads_pure _ _

end AlbumFs

/-- What becomes of the indirect pointers of the inode when blocks of a range are removed: a double indirect
block without inner indirect blocks stays, and a single indirect block whose entries were visited stays only
with an entry. -/
structure KeepsRoots (ino start n : Nat) (v : View) (inode : Inode) (v' : View) (inode' : Inode) : Prop where
  hollow : (∀ k, v.ownWith ino inode (Slot.inner ino k) = none) →
    v'.ownWith ino inode' (Slot.double ino) = v.ownWith ino inode (Slot.double ino)
  single : (∃ k, start ≤ k ∧ k < start + n ∧ 12 ≤ k ∧ k - 12 < POINTERS_PER_BLOCK) →
    v'.ownWith ino inode' (Slot.single ino) ≠ none → ∃ j, v'.ownWith ino inode' (Slot.entry ino j) ≠ none

section Roots

variable {v v' v'' : View} {faults : Nat → Option FsError} {ino start n index : Nat}
  {inode inode' inode'' : Inode}

/-- The blocks with numbers below 516 have no slots below the double indirect pointer. -/
theorem double_above_of_dataSlot {s : Slot} (hs : dataSlot ino index = some s)
    (ha : (Slot.double ino).Above s) : ¬index < 12 ∧ ¬index - 12 < POINTERS_PER_BLOCK := by
  unfold dataSlot at hs
  split_ifs at hs with h₁ h₂ h₃ <;> cases hs
  · exact absurd ha.1 (by simp [Slot.double, Slot.direct])
  · exact absurd ha.1 (by simp [Slot.double, Slot.entry])
  · exact ⟨h₁, h₂⟩

theorem single_above_of_dataSlot {s : Slot} (hs : dataSlot ino index = some s)
    (ha : (Slot.single ino).Above s) : 12 ≤ index ∧ index - 12 < POINTERS_PER_BLOCK := by
  unfold dataSlot at hs
  split_ifs at hs with h₁ h₂ h₃ <;> cases hs
  · exact absurd ha.1 (by simp [Slot.single, Slot.direct])
  · exact ⟨Nat.not_lt.1 h₁, h₂⟩
  · exact absurd ha.1 (by simp [Slot.single, Slot.leaf])

theorem Removed.keepsRoots (h : Removed ino index v inode v' inode')
    (hhollow : ¬index < 12 → ¬index - 12 < POINTERS_PER_BLOCK →
      (∀ k, v.ownWith ino inode (Slot.inner ino k) = none) → v' = v ∧ inode' = inode)
    (hsingle : ¬index < 12 → index - 12 < POINTERS_PER_BLOCK →
      v'.ownWith ino inode' (Slot.single ino) ≠ none →
        ∃ j, v'.ownWith ino inode' (Slot.entry ino j) ≠ none) :
    KeepsRoots ino index 1 v inode v' inode' where
  hollow hnone := by
    by_cases hlow : ¬index < 12 ∧ ¬index - 12 < POINTERS_PER_BLOCK
    · obtain ⟨rfl, rfl⟩ := hhollow hlow.1 hlow.2 hnone
      rfl
    · exact h.kept _ fun s hs ha => hlow (double_above_of_dataSlot hs ha)
  single := by
    rintro ⟨k, hge, hlt, hlow, hhigh⟩
    obtain rfl : k = index := by omega
    exact hsingle (Nat.not_lt.2 hlow) hhigh

theorem KeepsRoots.cons (h : KeepsRoots ino start 1 v inode v' inode')
    (hsub : Sub (v'.ownWith ino inode') (v.ownWith ino inode))
    (hr : RemovedRange ino (start + 1) n v' inode' v'' inode'')
    (h' : KeepsRoots ino (start + 1) n v' inode' v'' inode'') :
    KeepsRoots ino start (n + 1) v inode v'' inode'' where
  hollow hnone := by
    rw [h'.hollow fun k => ?_, h.hollow hnone]
    by_contra hne
    obtain ⟨b, hb⟩ := Option.ne_none_iff_exists'.1 hne
    have hb' := hsub _ _ hb
    rw [hnone] at hb'
    cases hb'
  single := by
    rintro ⟨k, hge, hlt, hlow, hhigh⟩ hheld
    by_cases hrest : ∃ k, start + 1 ≤ k ∧ k < start + 1 + n ∧ 12 ≤ k ∧ k - 12 < POINTERS_PER_BLOCK
    · exact h'.single hrest hheld
    -- No later block lies below the single indirect pointer.
    have hk : k = start := by
      by_contra hne
      exact hrest ⟨k, by omega, by omega, hlow, hhigh⟩
    have hsame : ∀ t : Slot, (Slot.single ino).Above t →
        v''.ownWith ino inode'' t = v'.ownWith ino inode' t := by
      refine fun t ht => hr.kept t fun k' hge' hlt' s hs ha => hrest ⟨k', hge', hlt', ?_⟩
      exact single_above_of_dataSlot hs (ht.trans ha)
    rw [hsame _ (Place.Above.refl _)] at hheld
    obtain ⟨j, hj⟩ := h.single ⟨start, Nat.le_refl _, Nat.lt_succ_self _, hk ▸ hlow, hk ▸ hhigh⟩ hheld
    exact ⟨j, by rwa [hsame _ (Slot.single_above_iff.2 (.inr ⟨j, rfl⟩))]⟩

/-- The removals of a range, with what becomes of the pointers of the inode. -/
def Cleared (ino start n : Nat) (v : View) (inode : Inode) (v' : View) (inode' : Inode) : Prop :=
  RemovedRange ino start n v inode v' inode' ∧ KeepsRoots ino start n v inode v' inode'

/-- Everything that hangs below the pointer `r` of the inode lies on the way to a block of the range, and a
double indirect block has inner indirect blocks. -/
def Emptied (v : View) (ino : Nat) (inode : Inode) (start n : Nat) (r : Root) : Prop :=
  (r = .double → ∃ k, v.ownWith ino inode (Slot.inner ino k) ≠ none) ∧
    ∀ t : Slot, (Slot.top ino r).Above t → v.ownWith ino inode t ≠ none →
      ∃ k, start ≤ k ∧ k < start + n ∧ ∃ s, dataSlot ino k = some s ∧ t.Above s

/-- Below every slot there is the slot of a block. -/
theorem Slot.exists_dataSlot (t : Slot) : ∃ k s, dataSlot t.ino k = some s ∧ t.Above s := by
  have hj : Fin POINTERS_PER_BLOCK := ⟨0, POINTERS_PER_BLOCK_pos⟩
  obtain ⟨s, hleaf, ha⟩ : ∃ s : Slot, s.IsLeaf ∧ t.Above s := by
    rcases t.cases with ⟨i, ht⟩ | ht | ⟨j, ht⟩ | ht | ⟨k, ht⟩ | ⟨k, j, ht⟩ <;>
      generalize t.ino = ino at ht <;> subst ht
    · exact ⟨Slot.direct ino i, rfl, Place.Above.refl _⟩
    · exact ⟨Slot.entry ino hj, rfl, Slot.single_above_iff.2 (.inr ⟨hj, rfl⟩)⟩
    · exact ⟨Slot.entry ino j, rfl, Place.Above.refl _⟩
    · exact ⟨Slot.leaf ino hj hj, rfl, Slot.double_above_iff.2 (.inr ⟨hj, .inr ⟨hj, rfl⟩⟩)⟩
    · exact ⟨Slot.leaf ino k hj, rfl, Slot.inner_above_iff.2 (.inr ⟨hj, rfl⟩)⟩
    · exact ⟨Slot.leaf ino k j, rfl, Place.Above.refl _⟩
  have hino : s.ino = t.ino := congrArg Prod.fst ha.1.symm
  exact ⟨s.index, s, hino ▸ dataSlot_index hleaf, ha⟩

/-- A pointer of the inode is taken when everything below it belongs to the range, and only then. -/
theorem Cleared.top_eq_none_iff (h : Cleared ino start n v inode v' inode') {r : Root}
    (hheld : v.ownWith ino inode (Slot.top ino r) ≠ none) :
    v'.ownWith ino inode' (Slot.top ino r) = none ↔ Emptied v ino inode start n r := by
  obtain ⟨hr, hk⟩ := h
  constructor
  · intro hnone
    refine ⟨?_, fun t ht hown => ?_⟩
    · rintro rfl
      by_contra hhollow
      push Not at hhollow
      exact hheld ((hk.hollow hhollow).symm.trans hnone)
    · by_contra hout
      refine hown ((hr.kept t fun k hge hlt s hs ha => hout ⟨k, hge, hlt, s, hs, ha⟩).symm.trans ?_)
      exact hold_none_of_above ht hnone
  · rintro ⟨hinner, hbelow⟩
    by_contra hleft
    cases r with
    | direct i =>
      obtain ⟨k, hge, hlt, s, hs, ha⟩ := hbelow _ (Place.Above.refl _) hheld
      have hsame : s = Slot.top ino (.direct i) := ha.eq_of_isLeaf rfl
      exact hleft (hsame ▸ hr.gone k hge hlt s hs)
    | single =>
      obtain ⟨k, hge, hlt, s, hs, ha⟩ := hbelow _ (Place.Above.refl _) hheld
      obtain ⟨hlow, hhigh⟩ := single_above_of_dataSlot hs ha
      obtain ⟨j, hj⟩ := hk.single ⟨k, hge, hlt, hlow, hhigh⟩ hleft
      have hj' : v.ownWith ino inode (Slot.entry ino j) ≠ none := by
        obtain ⟨b, hb⟩ := Option.ne_none_iff_exists'.1 hj
        rw [hr.shrinks.sub _ _ hb]
        exact Option.some_ne_none b
      obtain ⟨k', hge', hlt', s', hs', ha'⟩ := hbelow _ (Slot.single_above_iff.2 (.inr ⟨j, rfl⟩)) hj'
      have hsame : s' = Slot.entry ino j := ha'.eq_of_isLeaf rfl
      exact hj (hsame ▸ hr.gone k' hge' hlt' s' hs')
    | double =>
      have hreach : Reaches (fun k => ∀ s, dataSlot ino k = some s → (Slot.double ino).Above s →
          start ≤ k ∧ k < start + n) v ino inode := by
        intro t ht hown
        by_cases ha : (Slot.double ino).Above t
        · obtain ⟨k, hge, hlt, s, hs, hts⟩ := hbelow t ha hown
          exact ⟨k, fun _ _ _ => ⟨hge, hlt⟩, s, hs, hts⟩
        · obtain ⟨k, s, hs, hts⟩ := t.exists_dataSlot
          rw [ht] at hs
          refine ⟨k, fun s' hs' has => absurd ?_ ha, s, hs, hts⟩
          rw [hs, Option.some.injEq] at hs'
          exact ⟨has.1.trans (hs' ▸ hts.1.symm), List.nil_suffix⟩
      obtain ⟨k, ⟨hk', hout⟩, s, hs, ha⟩ :=
        (hr.reaches fun _ => hinner rfl).2 _ hreach (Slot.top ino .double) rfl hleft
      exact hout (hk' s hs ha)

/-- A damaged pointer block on the way to no block that is removed keeps its pointer. -/
theorem kept_of_damaged {P : Nat → Prop} {t : Slot} {b : Nat}
    (hkept : ∀ t : Slot, (∀ k, P k → ∀ s, dataSlot ino k = some s → ¬t.Above s) →
      v'.ownWith ino inode' t = v.ownWith ino inode t)
    (hclear : ∀ k, P k → ¬v.Obstructed faults ino inode k) (hleaf : ¬t.IsLeaf)
    (ht : v.ownWith ino inode t = some b) (hfault : faults b ≠ none) :
    v'.ownWith ino inode' t = some b := by
  rw [hkept t fun k hk s hs ha => ?_, ht]
  refine hclear k hk ⟨s, hs, t, b, ha, ?_, ht, hfault⟩
  rintro rfl
  exact hleaf (isLeaf_of_dataSlot hs).1

/-- The removal of blocks that are not obstructed changes nothing about the others. -/
theorem obstructed_congr {P : Nat → Prop} (hsub : Sub (v'.ownWith ino inode') (v.ownWith ino inode))
    (hkept : ∀ t : Slot, (∀ k, P k → ∀ s, dataSlot ino k = some s → ¬t.Above s) →
      v'.ownWith ino inode' t = v.ownWith ino inode t)
    (hclear : ∀ k, P k → ¬v.Obstructed faults ino inode k) (index : Nat) :
    v'.Obstructed faults ino inode' index ↔ v.Obstructed faults ino inode index := by
  constructor
  · rintro ⟨s, hs, t, b, ha, hts, ht, hfault⟩
    exact ⟨s, hs, t, b, ha, hts, hsub _ _ ht, hfault⟩
  · rintro ⟨s, hs, t, b, ha, hts, ht, hfault⟩
    refine ⟨s, hs, t, b, ha, hts, kept_of_damaged hkept hclear (fun hleaf => ?_) ht hfault, hfault⟩
    exact hts (ha.eq_of_isLeaf hleaf).symm

end Roots

namespace AlbumFs

variable {v : View} {faults : Nat → Option FsError} {ino : Nat} {inode : Inode}

/-! ### Ranges of removals -/

/-- A removal on a damaged device. -/
theorem endsOn_removeMappedBlock_damaged (h : Mapped v ino inode) (faults : Nat → Option FsError)
    (index : Nat) :
    EndsOn survey (removeMappedBlock inode index) (v, faults)
      (fun i w => ∃ u, w = (u, faults) ∧ ¬v.Obstructed faults ino inode index ∧
        Removed ino index v inode u i ∧ KeepsRoots ino index 1 v inode u i)
      fun _ w => v.Obstructed faults ino inode index ∧ w = (v, faults) := by
  by_cases hobstructed : v.Obstructed faults ino inode index
  · obtain ⟨e, hreads⟩ := reads_removeMappedBlock_obstructed h hobstructed
    exact hreads.endsOn (by simp) fun _ _ => ⟨hobstructed, rfl⟩
  · have hdisk : EndsOn view (removeMappedBlock inode index) v
        (fun i u => Removed ino index v inode u i ∧ KeepsRoots ino index 1 v inode u i)
        fun _ _ => False := by
      have hhollow : EndsOn view (removeMappedBlock inode index) v
          (fun i u => ¬index < 12 → ¬index - 12 < POINTERS_PER_BLOCK →
            (∀ k, v.ownWith ino inode (Slot.inner ino k) = none) → u = v ∧ i = inode) fun _ _ => True := by
        by_cases hlow : ¬index < 12 ∧ ¬index - 12 < POINTERS_PER_BLOCK ∧
            ∀ k, v.ownWith ino inode (Slot.inner ino k) = none
        · refine (reads_removeMappedBlock_hollow h hlow.1 hlow.2.1 hlow.2.2).endsOn ?_ (by simp)
          rintro _ ⟨⟩ - - -
          exact ⟨rfl, rfl⟩
        · exact (endsOn_true _ _).mono (fun _ _ _ h₁ h₂ hnone => absurd ⟨h₁, h₂, hnone⟩ hlow)
            fun _ _ _ => trivial
      have hsingle : EndsOn view (removeMappedBlock inode index) v
          (fun i u => ¬index < 12 → index - 12 < POINTERS_PER_BLOCK →
            u.ownWith ino i (Slot.single ino) ≠ none →
              ∃ j, u.ownWith ino i (Slot.entry ino j) ≠ none) fun _ _ => True := by
        by_cases hmid : ¬index < 12 ∧ index - 12 < POINTERS_PER_BLOCK
        · exact (endsOn_removeMappedBlock_single h hmid.1 hmid.2).mono (fun _ _ hj _ _ => hj)
            fun _ _ _ => trivial
        · exact (endsOn_true _ _).mono (fun _ _ _ h₁ h₂ => absurd ⟨h₁, h₂⟩ hmid) fun _ _ _ => trivial
      refine ((endsOn_removeMappedBlock h index).and (hhollow.and hsingle)).mono ?_ fun _ _ hf => hf.1
      rintro i u ⟨hr, hh, hs⟩
      exact ⟨hr, hr.keepsRoots hh hs⟩
    refine (endsOn_survey (fun fs hfs => linkedAt_removeMappedBlock h hobstructed hfs) hdisk).mono ?_ ?_
    · rintro i _ ⟨u, rfl, hr, hk⟩
      exact ⟨u, rfl, hobstructed, hr, hk⟩
    · rintro e _ ⟨u, -, hf⟩
      exact hf.elim

/-- A range of removals on a damaged device stops at the first block that is obstructed. -/
theorem endsOn_removeMappedBlocks_damaged (h : Mapped v ino inode) (faults : Nat → Option FsError)
    (start n : Nat) :
    EndsOn survey (removeMappedBlocks inode start n) (v, faults)
      (fun i w => ∃ u, w = (u, faults) ∧
        (∀ k, start ≤ k → k < start + n → ¬v.Obstructed faults ino inode k) ∧ Cleared ino start n v inode u i)
      fun _ w => ∃ u i m, w = (u, faults) ∧ m < n ∧ v.Obstructed faults ino inode (start + m) ∧
        (∀ k, start ≤ k → k < start + m → ¬v.Obstructed faults ino inode k) ∧
        Cleared ino start m v inode u i := by
  have hzero : ∀ {w : View} {j : Inode} (hm : Mapped w ino j) (start : Nat),
      Cleared ino start 0 w j w j := by
    refine fun hm start => ⟨hm.removedRange_zero start, fun _ => rfl, ?_⟩
    rintro ⟨k, hge, hlt, -⟩
    omega
  induction n generalizing v inode start with
  | zero => exact endsOn_pure ⟨v, rfl, fun k hge hlt => by omega, hzero h start⟩
  | succ n ih =>
    refine (endsOn_removeMappedBlock_damaged h faults start).bind ?_ ?_
    · rintro i _ ⟨u, rfl, hclear, hr, hk⟩
      have hsame : ∀ k, u.Obstructed faults ino i k ↔ v.Obstructed faults ino inode k :=
        obstructed_congr (P := fun k => k = start) hr.shrinks.sub
          (fun t ht => hr.kept t (ht start rfl)) (by rintro _ rfl; exact hclear)
      have hfirst : ∀ m, (∀ k, start + 1 ≤ k → k < start + 1 + m → ¬u.Obstructed faults ino i k) →
          ∀ k, start ≤ k → k < start + (m + 1) → ¬v.Obstructed faults ino inode k := by
        intro m hrest k hge hlt
        by_cases hks : k = start
        · exact hks ▸ hclear
        · rw [← hsame]
          exact hrest k (by omega) (by omega)
      refine (ih (hr.shrinks.mapped h) (start + 1)).mono ?_ ?_
      · rintro i' _ ⟨u', rfl, hrest, hr', hk'⟩
        exact ⟨u', rfl, hfirst n hrest, hr.cons hr', hk.cons hr.shrinks.sub hr' hk'⟩
      · rintro e _ ⟨u', i', m, rfl, hm, hobstructed, hrest, hr', hk'⟩
        refine ⟨u', i', m + 1, rfl, by omega, ?_, hfirst m hrest, hr.cons hr', hk.cons hr.shrinks.sub hr' hk'⟩
        rw [hsame] at hobstructed
        rwa [show start + (m + 1) = start + 1 + m by omega]
    · rintro e _ ⟨hobstructed, rfl⟩
      exact ⟨v, inode, 0, rfl, Nat.succ_pos n, hobstructed, fun k hge hlt => by omega, hzero h start⟩

end AlbumFs

end AlbumFS

import AlbumFS.Space.BlockMap

/-!
# Releasing blocks

The specification of `remove_mapped_block` and of the loop over it. Removing a block of a file
takes the block from its slot, and takes the pointer blocks on the way to it that hold no pointer
any more. The source clears the bits of the blocks that it takes and leaves the pointers to them
in pointer blocks that it gives up with them.

## Main definitions

* `Shrinks`: slots gave blocks back, and nothing else changed.
* `Removed`: what one removal does.
* `Reaches`: every slot with a block lies on the way to a block of a given set.

## Main results

* `AlbumFs.endsOn_removeMappedBlock`, `AlbumFs.endsOn_removeMappedBlocks`: one removal and a range
  of them.
* `Removed.reaches`: a removal leaves no pointer block behind that nothing needs.
-/

namespace AlbumFS

open BlockTree Ownership Prog

/-- Some slots gave their blocks back to the bitmap. The contents of the other data blocks and
everything else about the inode is as it was. -/
structure Shrinks (ino : Nat) (v : View) (inode : Inode) (v' : View) (inode' : Inode) : Prop where
  sb_eq : v'.sb = v.sb
  total_eq : v'.total = v.total
  inodes_eq : v'.inodes = v.inodes
  attributes_eq : inode'.attributes = inode.attributes
  geometry : v'.Geometry
  sub : Sub (v'.ownWith ino inode') (v.ownWith ino inode)
  isSet_iff : ∀ c, v'.bitmap.isSet c = true ↔ v.bitmap.isSet c = true ∧
    ∀ t, v.ownWith ino inode t = some c → v'.ownWith ino inode' t = some c
  data_eq : ∀ c, (∀ t, v.ownWith ino inode t = some c → t.IsLeaf) → v'.data c = v.data c

section Shrink

variable {v v' : View} {ino : Nat} {inode inode' : Inode} {s : Slot}

theorem Mapped.shrinks_refl (h : Mapped v ino inode) : Shrinks ino v inode v inode where
  sb_eq := rfl
  total_eq := rfl
  inodes_eq := rfl
  attributes_eq := rfl
  geometry := h.geometry
  sub := Sub.refl _
  isSet_iff c := by simp
  data_eq _ _ := rfl

theorem Shrinks.allocated_iff (h : Shrinks ino v inode v' inode') (c : Nat) :
    c ∈ v'.allocated ↔ c ∈ v.allocated ∧
      ∀ t, v.ownWith ino inode t = some c → v'.ownWith ino inode' t = some c := by
  simp only [View.allocated, View.InData, Set.mem_ofPred_eq, h.isSet_iff, h.sb_eq, h.total_eq, and_assoc]

theorem Shrinks.mapped (h : Shrinks ino v inode v' inode') (hm : Mapped v ino inode) :
    Mapped v' ino inode' where
  geometry := h.geometry
  exclusive := by
    refine ⟨fun {t c} ht => ?_, fun ht ht' => hm.exclusive.inj (h.sub _ _ ht) (h.sub _ _ ht')⟩
    have htc := h.sub _ _ ht
    refine (h.allocated_iff c).2 ⟨hm.exclusive.marked htc, fun t' ht' => ?_⟩
    rwa [hm.exclusive.inj ht' htc]

theorem Shrinks.trans {v'' : View} {inode'' : Inode} (h : Shrinks ino v inode v' inode')
    (h' : Shrinks ino v' inode' v'' inode'') : Shrinks ino v inode v'' inode'' where
  sb_eq := h'.sb_eq.trans h.sb_eq
  total_eq := h'.total_eq.trans h.total_eq
  inodes_eq := h'.inodes_eq.trans h.inodes_eq
  attributes_eq := h'.attributes_eq.trans h.attributes_eq
  geometry := h'.geometry
  sub := h'.sub.trans h.sub
  isSet_iff c := by
    rw [h'.isSet_iff, h.isSet_iff, and_assoc]
    refine and_congr_right fun _ => ⟨fun hc t ht => hc.2 t (hc.1 t ht), fun hc => ⟨?_, ?_⟩⟩
    · exact fun t ht => h'.sub _ _ (hc t ht)
    · exact fun t ht => hc t (h.sub _ _ ht)
  data_eq c hc := by
    rw [h'.data_eq c fun t ht => hc t (h.sub _ _ ht), h.data_eq c hc]

/-- The contents behind a slot that kept its block. -/
theorem Shrinks.content_eq (h : Shrinks ino v inode v' inode') (hm : Mapped v ino inode)
    (hs : s.IsLeaf) (hown : v'.ownWith ino inode' s = v.ownWith ino inode s) :
    v'.content ino inode' s = v.content ino inode s := by
  unfold View.content
  rw [hown]
  cases hc : v.ownWith ino inode s with
  | none => rfl
  | some c =>
    refine h.data_eq c fun t ht => ?_
    rwa [hm.exclusive.inj ht hc]

theorem cut_none_apply (own : Slot → Option Nat) (s t : Slot) :
    cut own s none t = if s.Above t then none else own t := by
  unfold cut
  by_cases hts : t = s
  · subst hts
    rw [if_pos rfl, if_pos (Place.Above.refl _)]
  · rw [if_neg hts]

/-- A slot gives back its block and all that hangs below it; the bitmap frees just these blocks. -/
theorem Mapped.shrinks_of_cut (h : Mapped v ino inode) {bitmap : Bitmap} {data : Nat → Block}
    (hv : v' = { v with bitmap, data })
    (htotal : bitmap.totalBlocks = v.bitmap.totalBlocks)
    (hset : ∀ c, bitmap.isSet c = true ↔ v.bitmap.isSet c = true ∧
      ∀ t, s.Above t → v.ownWith ino inode t ≠ some c)
    (hown : v'.ownWith ino inode' = cut (v.ownWith ino inode) s none)
    (hdata : ∀ c, (∀ t, v.ownWith ino inode t = some c → t.IsLeaf) → data c = v.data c)
    (hattr : inode'.attributes = inode.attributes) : Shrinks ino v inode v' inode' := by
  subst hv
  refine ⟨rfl, rfl, rfl, hattr, h.geometry.congr rfl rfl htotal, ?_, fun c => ?_, hdata⟩
  · rw [hown]
    exact sub_cut_none _ _
  · rw [hset, hown]
    refine and_congr_right fun _ => ?_
    simp only [cut_none_apply]
    constructor
    · intro hc t ht
      rw [if_neg fun ha => hc t ha ht, ht]
    · intro hc t ha ht
      have := hc t ht
      rw [if_pos ha] at this
      cases this

/-- A pointer of the inode is cleared. -/
theorem Mapped.release_root (h : Mapped v ino inode) {r : Root} (inode' : Inode) (bitmap : Bitmap)
    (hp : ∀ r' : Root, r'.pointer inode' = if r' = r then 0 else r'.pointer inode)
    (hattr : inode'.attributes = inode.attributes)
    (htotal : bitmap.totalBlocks = v.bitmap.totalBlocks)
    (hset : ∀ c, bitmap.isSet c = true ↔ v.bitmap.isSet c = true ∧
      ∀ t : Slot, Place.Above ⟨(ino, r), [], Nat.zero_le _⟩ t → v.ownWith ino inode t ≠ some c) :
    (v.setBitmap bitmap).ownWith ino inode' =
        cut (v.ownWith ino inode) ⟨(ino, r), [], Nat.zero_le _⟩ none ∧
      Shrinks ino v inode (v.setBitmap bitmap) inode' := by
  have hroots : rootBlock (Function.update v.inodes ino (some inode')) =
      Function.update (rootBlock (Function.update v.inodes ino (some inode))) (ino, r) none := by
    funext root
    by_cases hroot : root = (ino, r)
    · subst hroot
      rw [Function.update_self, rootBlock_update_self v.inodes (ino, r), hp, if_pos rfl,
        thenSome_zero]
    · rw [Function.update_of_ne hroot]
      by_cases hino : root.1 = ino
      · have hne : root.2 ≠ r := fun hr => hroot (Prod.ext hino hr)
        subst hino
        rw [rootBlock_update_self, rootBlock_update_self, hp, if_neg hne]
      · rw [rootBlock_update_of_ne hino, rootBlock_update_of_ne hino]
  have hown : (v.setBitmap bitmap).ownWith ino inode' =
      cut (v.ownWith ino inode) ⟨(ino, r), [], Nat.zero_le _⟩ none := by
    change View.ownOf v.data (Function.update v.inodes ino (some inode')) = _
    rw [View.ownOf, hroots]
    exact hold_setRoot (by simp)
  exact ⟨hown, h.shrinks_of_cut rfl htotal hset hown (fun _ _ => rfl) hattr⟩

/-- An entry of a pointer block is cleared. -/
theorem Mapped.release_entry (h : Mapped v ino inode) {r : Root} {j : Fin POINTERS_PER_BLOCK}
    {p : List (Fin POINTERS_PER_BLOCK)} (hp : (j :: p).length ≤ r.depth) {table : Nat}
    (htable : v.ownWith ino inode ⟨(ino, r), p, Nat.le_of_succ_le hp⟩ = some table)
    (bitmap : Bitmap) (htotal : bitmap.totalBlocks = v.bitmap.totalBlocks)
    (hset : ∀ c, bitmap.isSet c = true ↔ v.bitmap.isSet c = true ∧
      ∀ t : Slot, Place.Above ⟨(ino, r), j :: p, hp⟩ t → v.ownWith ino inode t ≠ some c) :
    ((v.setBitmap bitmap).setData table (AlbumFs.setPointer (v.data table) j 0)).ownWith ino inode =
        cut (v.ownWith ino inode) ⟨(ino, r), j :: p, hp⟩ none ∧
      Shrinks ino v inode
        ((v.setBitmap bitmap).setData table (AlbumFs.setPointer (v.data table) j 0)) inode := by
  have hown : ((v.setBitmap bitmap).setData table
      (AlbumFs.setPointer (v.data table) j 0)).ownWith ino inode =
      cut (v.ownWith ino inode) ⟨(ino, r), j :: p, hp⟩ none := by
    refine hold_setEntry (s := ⟨(ino, r), j :: p, hp⟩) (x := none) rfl htable ?_ ?_ ?_ (by simp)
    · intro t ht
      obtain rfl := h.exclusive.inj ht htable
      exact ⟨rfl, rfl⟩
    · rw [pointerEntry_setPointer, if_pos rfl, thenSome_zero]
    · intro i hi
      rw [pointerEntry_setPointer, if_neg hi]
  refine ⟨hown, h.shrinks_of_cut rfl htotal hset hown (fun c hc => ?_) rfl⟩
  refine Function.update_of_ne (fun hct => ?_) _ _
  have hl : p.length = r.depth := hc ⟨(ino, r), p, Nat.le_of_succ_le hp⟩ (hct ▸ htable)
  simp only [List.length_cons] at hp
  omega

theorem Shrinks.congr (h : Shrinks ino v inode v' inode') {inode'' : Inode}
    (hp : ∀ r : Root, r.pointer inode'' = r.pointer inode')
    (hattr : inode''.attributes = inode'.attributes) : Shrinks ino v inode v' inode'' := by
  have hown : v'.ownWith ino inode'' = v'.ownWith ino inode' := View.ownWith_congr hp
  exact ⟨h.sb_eq, h.total_eq, h.inodes_eq, hattr.trans h.attributes_eq, h.geometry,
    by rw [hown]; exact h.sub, fun c => by rw [hown]; exact h.isSet_iff c, h.data_eq⟩

/-- A double indirect block names some inner indirect block. -/
def HasInner (v : View) (ino : Nat) (inode : Inode) : Prop :=
  v.ownWith ino inode (Slot.double ino) ≠ none → ∃ k, v.ownWith ino inode (Slot.inner ino k) ≠ none

/-- The block numbered `index` of a file is removed. The pointer blocks on the way to it that are
left hold a pointer still. -/
structure Removed (ino index : Nat) (v : View) (inode : Inode) (v' : View) (inode' : Inode) :
    Prop where
  shrinks : Shrinks ino v inode v' inode'
  gone : ∀ s, dataSlot ino index = some s → v'.ownWith ino inode' s = none
  kept : ∀ t : Slot, (∀ s, dataSlot ino index = some s → ¬ t.Above s) →
    v'.ownWith ino inode' t = v.ownWith ino inode t
  needed : HasInner v ino inode → ∀ s, dataSlot ino index = some s →
    ∀ t : Slot, t.Above s → t ≠ s → v'.ownWith ino inode' t ≠ none →
      ∃ c : Slot, t.Above c ∧ c ≠ t ∧ v'.ownWith ino inode' c ≠ none

variable {index : Nat} {x : Slot}

/-- The block of a slot is released together with the pointer blocks from the slot `x` on, below
which no other slot names a block. -/
theorem Removed.of_cut (hs : dataSlot ino index = some s) (hx : x.Above s)
    (hown : v'.ownWith ino inode' = cut (v.ownWith ino inode) x none)
    (hshrinks : Shrinks ino v inode v' inode')
    (hlow : ∀ t, x.Above t → v.ownWith ino inode t ≠ none → t.Above s)
    (hup : ∀ t : Slot, t.Above x → t ≠ x → v.ownWith ino inode t ≠ none →
      ∃ c : Slot, t.Above c ∧ c ≠ t ∧ v'.ownWith ino inode' c ≠ none) :
    Removed ino index v inode v' inode' where
  shrinks := hshrinks
  gone s' hs' := by
    rw [hs, Option.some.injEq] at hs'
    subst hs'
    rw [hown, cut_none_apply, if_pos hx]
  kept t ht := by
    rw [hown, cut_none_apply]
    split_ifs with ha
    · by_contra hne
      exact ht s hs (hlow t ha (Ne.symm hne))
    · rfl
  needed _ s' hs' t ht hts hheld := by
    rw [hs, Option.some.injEq] at hs'
    subst hs'
    rw [hown, cut_none_apply] at hheld
    split_ifs at hheld with ha
    · exact absurd rfl hheld
    · rcases ht.total hx with h | h
      · exact hup t h (fun htx => ha (htx ▸ Place.Above.refl _)) hheld
      · exact absurd h ha

/-- Nothing is done for a slot that names no block. -/
theorem Mapped.removed_refl (h : Mapped v ino inode)
    (hnone : ∀ s, dataSlot ino index = some s → v.ownWith ino inode s = none)
    (hneeded : HasInner v ino inode → ∀ s, dataSlot ino index = some s →
      ∀ t : Slot, t.Above s → t ≠ s → v.ownWith ino inode t ≠ none →
        ∃ c : Slot, t.Above c ∧ c ≠ t ∧ v.ownWith ino inode c ≠ none) :
    Removed ino index v inode v inode :=
  ⟨h.shrinks_refl, hnone, fun _ _ => rfl, hneeded⟩

theorem Removed.congr (h : Removed ino index v inode v' inode') {inode'' : Inode}
    (hp : ∀ r : Root, r.pointer inode'' = r.pointer inode')
    (hattr : inode''.attributes = inode'.attributes) : Removed ino index v inode v' inode'' := by
  have hown : v'.ownWith ino inode'' = v'.ownWith ino inode' := View.ownWith_congr hp
  exact ⟨h.shrinks.congr hp hattr, by rw [hown]; exact h.gone, by rw [hown]; exact h.kept,
    by rw [hown]; exact h.needed⟩

theorem pointer_uncountBlock (inode : Inode) (released : Bool) (r : Root) :
    r.pointer (AlbumFs.uncountBlock inode released) = r.pointer inode := by
  cases released <;> rfl

theorem attributes_uncountBlock (inode : Inode) (released : Bool) :
    (AlbumFs.uncountBlock inode released).attributes = inode.attributes := by
  cases released <;> rfl

end Shrink

namespace AlbumFs

variable {v : View} {ino index : Nat} {inode : Inode}

/-- The bitmap without the block that a pointer names. -/
def clearEntry (bitmap : Bitmap) (entry : Option Nat) : Bitmap := entry.elim bitmap bitmap.clear

@[simp] theorem totalBlocks_clearEntry (bitmap : Bitmap) (entry : Option Nat) :
    (clearEntry bitmap entry).totalBlocks = bitmap.totalBlocks := by
  cases entry with
  | none => rfl
  | some b => exact Bitmap.totalBlocks_clear _ _

theorem isSet_clearEntry (bitmap : Bitmap) (entry : Option Nat) (c : Nat) :
    (clearEntry bitmap entry).isSet c = true ↔ bitmap.isSet c = true ∧ entry ≠ some c := by
  cases entry with
  | none => simp [clearEntry]
  | some b =>
    simp only [clearEntry, Option.elim_some, Bitmap.isSet_clear, Bool.and_eq_true,
      Bool.not_eq_true', decide_eq_false_iff_not, ne_eq, Option.some.injEq, and_comm]

/-- The entries left when one is cleared. -/
theorem pointerEntry_clear_ne {block : Block} {i j : Fin POINTERS_PER_BLOCK}
    (h : pointerEntry (setPointer block j 0) i ≠ none) : i ≠ j ∧ pointerEntry block i ≠ none := by
  rw [pointerEntry_setPointer] at h
  by_cases hij : i = j
  · rw [if_pos hij, thenSome_zero] at h
    exact absurd rfl h
  · rw [if_neg hij] at h
    exact ⟨hij, h⟩

theorem pointerEntry_clear_eq_none {block : Block} {i j : Fin POINTERS_PER_BLOCK}
    (h : pointerEntry (setPointer block j 0) i = none) (hij : i ≠ j) :
    pointerEntry block i = none := by
  rwa [pointerEntry_setPointer, if_neg hij] at h

theorem endsOn_takeEntry (pointers : Block) (j : Fin POINTERS_PER_BLOCK)
    {Q : Block × Bool → View → Prop} {E : FsError → View → Prop}
    (hQ : ∀ taken, Q (setPointer pointers j 0, taken)
      (v.setBitmap (clearEntry v.bitmap (pointerEntry pointers j)))) :
    EndsOn view (takeEntry pointers j) v Q E := by
  unfold takeEntry
  by_cases h0 : pointerAt pointers j = 0
  · have hnone : pointerEntry pointers j = none := thenSome_eq_none.2 h0
    have hself := setPointer_self pointers j
    rw [h0] at hself
    have hq := hQ false
    rw [hnone, hself] at hq
    simp only [h0, ne_eq, not_true, if_false]
    exact endsOn_pure hq
  · have hsome : pointerEntry pointers j = some (pointerAt pointers j).toNat :=
      thenSome_eq_some.2 ⟨h0, rfl⟩
    have hq := hQ true
    rw [hsome] at hq
    simp only [ne_eq, h0, not_false_iff, if_true]
    exact (endsOn_clearBit (Q := fun _ w => w = _) (E := fun _ _ => False) rfl).bind
      (by rintro _ _ rfl; exact endsOn_pure hq) fun _ _ hf => hf.elim

theorem endsOn_storeOrRelease (hg : v.Geometry) {table : Nat} (hin : v.InData table)
    (pointers : Block) {Q : Bool → View → Prop} {E : FsError → View → Prop}
    (hzero : (∀ j, pointerEntry pointers j = none) → Q true (v.setBitmap (v.bitmap.clear table)))
    (hstore : ∀ j, pointerEntry pointers j ≠ none → Q false (v.setData table pointers)) :
    EndsOn view (storeOrRelease table pointers) v Q E := by
  unfold storeOrRelease
  by_cases h : allZero pointers = true
  · rw [if_pos h]
    exact (endsOn_clearBit (Q := fun _ w => w = _) (E := fun _ _ => False) rfl).bind
      (by rintro _ _ rfl; exact endsOn_pure (hzero ((allZero_iff _).1 h))) fun _ _ hf => hf.elim
  · rw [if_neg h]
    rw [allZero_iff, not_forall] at h
    obtain ⟨j, hj⟩ := h
    exact (endsOn_writeBlock_bytes hg hin (Q := fun _ w => w = _) (E := fun _ _ => False) rfl).bind
      (by rintro _ _ rfl; exact endsOn_pure (hstore j hj)) fun _ _ hf => hf.elim

private theorem removed_direct (h : Mapped v ino inode) (hindex : index < 12) :
    EndsOn view (removeMappedBlock inode index) v
      (fun i w => Removed ino index v inode w i) fun _ _ => False := by
  have hs : dataSlot ino index = _ := dataSlot_direct hindex
  have hrelease : ∀ i : Inode, (∀ r' : Root,
        r'.pointer i = if r' = .direct ⟨index, hindex⟩ then 0 else r'.pointer inode) →
      i.attributes = inode.attributes →
      Removed ino index v inode
        (v.setBitmap (clearEntry v.bitmap (thenSome inode.direct[index]))) i := by
    intro i hp hattr
    obtain ⟨hown, hshrinks⟩ := h.release_root i (clearEntry v.bitmap
      (thenSome inode.direct[index])) hp hattr (totalBlocks_clearEntry _ _) (by
        intro c
        rw [isSet_clearEntry]
        refine and_congr_right fun _ => ⟨fun hne t ht => ?_, fun hne => ?_⟩
        · rw [ht.eq_of_isLeaf rfl, View.ownWith_root]
          exact hne
        · have := hne _ (Place.Above.refl _)
          rwa [View.ownWith_root] at this)
    refine Removed.of_cut hs (Place.Above.refl _) hown hshrinks (fun t ht _ => ?_)
      fun t ht hne => absurd (Slot.above_direct_iff.1 ht) hne
    rw [ht.eq_of_isLeaf rfl]
    exact Place.Above.refl _
  have hp : ∀ (count : UInt32) (r' : Root),
      r'.pointer { inode with direct := inode.direct.set index 0, blockCount := count } =
        if r' = .direct ⟨index, hindex⟩ then 0 else r'.pointer inode := by
    intro count r'
    cases r' with
    | direct i =>
      obtain ⟨i, hi⟩ := i
      simp only [Root.pointer_direct, Vector.getElem_set, Root.direct.injEq, Fin.mk.injEq, eq_comm]
    | single => rfl
    | double => rfl
  simp only [removeMappedBlock, dif_pos hindex]
  by_cases h0 : inode.direct[index] = 0
  · have hr := hrelease _ (hp inode.blockCount) rfl
    simp only [h0, thenSome_zero] at hr
    simp only [h0, ne_eq, not_true, if_false]
    exact endsOn_pure hr
  · have hr := hrelease _ (hp (inode.blockCount - 1)) rfl
    rw [thenSome_eq_some.2 ⟨h0, rfl⟩] at hr
    simp only [h0, ne_eq, not_false_iff, if_true]
    exact (endsOn_clearBit (Q := fun _ w => w = _) (E := fun _ _ => False) rfl).bind
      (by rintro _ _ rfl; exact endsOn_pure hr) fun _ _ hf => hf.elim

private theorem removed_single (h : Mapped v ino inode) (h₁ : ¬ index < 12)
    (h₂ : index - 12 < POINTERS_PER_BLOCK) :
    EndsOn view (removeMappedBlock inode index) v
      (fun i w => Removed ino index v inode w i) fun _ _ => False := by
  have hs : dataSlot ino index = _ := dataSlot_entry h₁ h₂
  generalize hj : (⟨index - 12, h₂⟩ : Fin POINTERS_PER_BLOCK) = j at hs
  have hjv : index - 12 = j.val := by rw [← hj]
  by_cases h0 : inode.singleIndirect = 0
  · have hnone : v.ownWith ino inode (Slot.single ino) = none := by
      rw [View.ownWith_single, h0, thenSome_zero]
    simp only [removeMappedBlock, dif_neg h₁, if_pos h₂, h0, if_true]
    refine endsOn_pure (h.removed_refl (fun s hs' => ?_) fun _ s hs' t ht hts hheld => ?_)
    · rw [hs, Option.some.injEq] at hs'
      rw [← hs', View.ownWith_entry, hnone, Option.bind_none]
    · rw [hs, Option.some.injEq] at hs'
      subst hs'
      rcases Slot.above_entry_iff.1 ht with rfl | rfl
      · exact absurd hnone hheld
      · exact absurd rfl hts
  have hown : v.ownWith ino inode (Slot.single ino) = some inode.singleIndirect.toNat :=
    View.ownWith_single.trans (thenSome_eq_some.2 ⟨h0, rfl⟩)
  have hentry : ∀ i, v.ownWith ino inode (Slot.entry ino i) =
      pointerEntry (v.data inode.singleIndirect.toNat) i := fun i => by
    rw [View.ownWith_entry, hown, Option.bind_some]
  have hin := h.inData hown
  have hleaf : ∀ (i : Fin POINTERS_PER_BLOCK) (t : Slot), (Slot.entry ino i).Above t →
      t = Slot.entry ino i := fun i t ht => ht.eq_of_isLeaf rfl
  have hcount : ∀ removed, (uncountBlock inode removed).singleIndirect = inode.singleIndirect :=
    fun removed => pointer_uncountBlock inode removed .single
  simp only [removeMappedBlock, dif_neg h₁, if_pos h₂, h0, if_false, hcount]
  rw [hjv]
  generalize inode.singleIndirect.toNat = table at hown hentry hin ⊢
  refine (reads_readBlock hin).bind_endsOn ((endsOn_takeEntry (v.data table) j
    (Q := fun r w => r.1 = setPointer (v.data table) j 0 ∧ w = _) (E := fun _ _ => False)
    fun _ => ⟨rfl, rfl⟩).bind ?_ fun _ _ hf => hf.elim)
  rintro ⟨_, removed⟩ _ ⟨rfl, rfl⟩
  have hg : (v.setBitmap (clearEntry v.bitmap (pointerEntry (v.data table) j))).Geometry :=
    h.geometry.setBitmap (totalBlocks_clearEntry _ _)
  refine (endsOn_storeOrRelease hg hin _ (Q := fun released w => Removed ino index v inode w
    (if released then { uncountBlock inode removed with singleIndirect := 0 }
      else uncountBlock inode removed)) (E := fun _ _ => False) (fun hzero => ?_) fun i hi => ?_).bind
    (fun released w hw => endsOn_pure hw) fun _ _ hf => hf.elim
  · -- The single indirect block holds no other pointer and is released as well.
    have hothers : ∀ i, i ≠ j → pointerEntry (v.data table) i = none :=
      fun i => pointerEntry_clear_eq_none (hzero i)
    obtain ⟨hcut, hshrinks⟩ := h.release_root (r := .single)
      { uncountBlock inode removed with singleIndirect := 0 }
      ((clearEntry v.bitmap (pointerEntry (v.data table) j)).clear table)
      (fun r' => by cases r' <;> cases removed <;> rfl) (by cases removed <;> rfl)
      (by rw [Bitmap.totalBlocks_clear, totalBlocks_clearEntry]) (by
        intro c
        rw [Bitmap.isSet_clear, Bool.and_eq_true, isSet_clearEntry, Bool.not_eq_true',
          decide_eq_false_iff_not]
        constructor
        · rintro ⟨htable, hset, hj'⟩
          refine ⟨hset, fun t ht hc => ?_⟩
          rcases Slot.single_above_iff.1 ht with rfl | ⟨i, rfl⟩
          · rw [hown, Option.some.injEq] at hc
            exact htable hc
          · rw [hentry] at hc
            by_cases hij : i = j
            · exact hj' (hij ▸ hc)
            · rw [hothers i hij] at hc
              cases hc
        · rintro ⟨hset, hall⟩
          refine ⟨?_, hset, ?_⟩
          · rintro rfl
            exact hall _ (Place.Above.refl _) hown
          · rw [← hentry]
            exact hall _ (Slot.single_above_iff.2 (.inr ⟨j, rfl⟩)))
    refine Removed.of_cut hs (Slot.single_above_iff.2 (.inr ⟨j, rfl⟩)) hcut hshrinks
      (fun t ht hne => ?_) fun t ht hne => absurd (Slot.above_single_iff.1 ht) hne
    rcases Slot.single_above_iff.1 ht with rfl | ⟨i, rfl⟩
    · exact Slot.single_above_iff.2 (.inr ⟨j, rfl⟩)
    · rw [hentry] at hne
      obtain rfl : i = j := by
        by_contra hij
        exact hne (hothers i hij)
      exact Place.Above.refl _
  · obtain ⟨hcut, hshrinks⟩ := h.release_entry (r := .single) (p := []) (j := j) (Nat.le_refl 1)
      hown (clearEntry v.bitmap (pointerEntry (v.data table) j))
      (totalBlocks_clearEntry _ _) (by
        intro c
        rw [isSet_clearEntry, ← hentry]
        refine and_congr_right fun _ => ⟨fun hne t ht => ?_, fun hall => ?_⟩
        · rw [hleaf j t ht]
          exact hne
        · exact hall _ (Place.Above.refl _))
    refine (Removed.of_cut hs (Place.Above.refl _) hcut hshrinks (fun t ht _ => ?_)
      fun t ht hne hheld => ?_).congr (pointer_uncountBlock _ _) (attributes_uncountBlock _ _)
    · rw [hleaf j t ht]
      exact Place.Above.refl _
    · rcases Slot.above_entry_iff.1 ht with rfl | rfl
      · obtain ⟨hij, hi⟩ := pointerEntry_clear_ne hi
        refine ⟨Slot.entry ino i, Slot.single_above_iff.2 (.inr ⟨i, rfl⟩), ?_, ?_⟩
        · exact fun he => absurd (congrArg Place.path he) (by simp [Slot.entry, Slot.single])
        · rw [hcut, cut_none_apply, if_neg, hentry]
          · exact hi
          · intro ha
            exact hij (by simpa [Slot.entry] using congrArg Place.path (hleaf j _ ha))
      · exact absurd rfl hne

private theorem removed_double (h : Mapped v ino inode) (h₁ : ¬ index < 12)
    (h₂ : ¬ index - 12 < POINTERS_PER_BLOCK)
    (h₃ : index - 12 - POINTERS_PER_BLOCK < POINTERS_PER_BLOCK * POINTERS_PER_BLOCK) :
    EndsOn view (removeMappedBlock inode index) v
      (fun i w => Removed ino index v inode w i) fun _ _ => False := by
  have hs : dataSlot ino index = _ := dataSlot_leaf h₁ h₂ h₃
  generalize hk : (⟨(index - 12 - POINTERS_PER_BLOCK) / POINTERS_PER_BLOCK, _⟩ :
    Fin POINTERS_PER_BLOCK) = k at hs
  generalize hj : (⟨(index - 12 - POINTERS_PER_BLOCK) % POINTERS_PER_BLOCK, _⟩ :
    Fin POINTERS_PER_BLOCK) = j at hs
  have hkv : (index - 12 - POINTERS_PER_BLOCK) / POINTERS_PER_BLOCK = k.val := by rw [← hk]
  have hjv : (index - 12 - POINTERS_PER_BLOCK) % POINTERS_PER_BLOCK = j.val := by rw [← hj]
  by_cases h0 : inode.doubleIndirect = 0
  · have hnone : v.ownWith ino inode (Slot.double ino) = none := by
      rw [View.ownWith_double, h0, thenSome_zero]
    have hbelow : ∀ t : Slot, t.Above (Slot.leaf ino k j) → v.ownWith ino inode t = none := by
      intro t ht
      refine hold_none_of_above (s := Slot.double ino) ?_ hnone
      rcases ht.total (Slot.above_leaf_iff.2 (.inl (.inl rfl))) with ha | ha
      · rw [Slot.above_double_iff.1 ha]
        exact Place.Above.refl _
      · exact ha
    simp only [removeMappedBlock, dif_neg h₁, if_neg h₂, h0, or_true, if_true]
    refine endsOn_pure (h.removed_refl (fun s hs' => ?_) fun _ s hs' t ht hts hheld => ?_)
    · rw [hs, Option.some.injEq] at hs'
      exact hbelow s (hs' ▸ Place.Above.refl _)
    · rw [hs, Option.some.injEq] at hs'
      exact absurd (hbelow t (hs' ▸ ht)) hheld
  have houter : v.ownWith ino inode (Slot.double ino) = some inode.doubleIndirect.toNat :=
    View.ownWith_double.trans (thenSome_eq_some.2 ⟨h0, rfl⟩)
  have hinner : ∀ i, v.ownWith ino inode (Slot.inner ino i) =
      pointerEntry (v.data inode.doubleIndirect.toNat) i := fun i => by
    rw [View.ownWith_inner, houter, Option.bind_some]
  have hino := h.inData houter
  have hcount : ∀ removed, (uncountBlock inode removed).doubleIndirect = inode.doubleIndirect :=
    fun removed => pointer_uncountBlock inode removed .double
  simp only [removeMappedBlock, dif_neg h₁, if_neg h₂, ge_iff_le, Nat.not_le.2 h₃, h0, or_self,
    if_false, hcount]
  rw [hkv, hjv]
  generalize inode.doubleIndirect.toNat = O at houter hinner hino ⊢
  refine (reads_readBlock hino).bind_endsOn ?_
  by_cases hI0 : pointerAt (v.data O) k = 0
  · have hnone : v.ownWith ino inode (Slot.inner ino k) = none := by
      rw [hinner]
      exact thenSome_eq_none.2 hI0
    simp only [hI0, if_true]
    refine endsOn_pure (h.removed_refl (fun s hs' => ?_) fun hhas s hs' t ht hts hheld => ?_)
    · rw [hs, Option.some.injEq] at hs'
      rw [← hs', View.ownWith_leaf, hnone, Option.bind_none]
    · rw [hs, Option.some.injEq] at hs'
      subst hs'
      rcases Slot.above_leaf_iff.1 ht with (rfl | rfl) | rfl
      · obtain ⟨i, hi⟩ := hhas hheld
        exact ⟨Slot.inner ino i, Slot.double_above_iff.2 (.inr ⟨i, .inl rfl⟩),
          fun he => absurd (congrArg Place.path he) (by simp [Slot.inner, Slot.double]), hi⟩
      · exact absurd hnone hheld
      · exact absurd rfl hts
  simp only [hI0, if_false]
  have hI : v.ownWith ino inode (Slot.inner ino k) = some (pointerAt (v.data O) k).toNat :=
    (hinner k).trans (thenSome_eq_some.2 ⟨hI0, rfl⟩)
  generalize (pointerAt (v.data O) k).toNat = I at hI ⊢
  have hleaf : ∀ i, v.ownWith ino inode (Slot.leaf ino k i) = pointerEntry (v.data I) i :=
    fun i => by rw [View.ownWith_leaf, hI, Option.bind_some]
  have hinI := h.inData hI
  have hne : O ≠ I := by
    rintro rfl
    exact absurd (congrArg Place.path (h.exclusive.inj houter hI)) (by simp [Slot.inner, Slot.double])
  refine (reads_readBlock hinI).bind_endsOn ((endsOn_takeEntry (v.data I) j
    (Q := fun r w => r.1 = setPointer (v.data I) j 0 ∧ w = _) (E := fun _ _ => False)
    fun _ => ⟨rfl, rfl⟩).bind ?_ fun _ _ hf => hf.elim)
  rintro ⟨_, removed⟩ _ ⟨rfl, rfl⟩
  have hg : (v.setBitmap (clearEntry v.bitmap (pointerEntry (v.data I) j))).Geometry :=
    h.geometry.setBitmap (totalBlocks_clearEntry _ _)
  refine (endsOn_storeOrRelease hg hinI _
    (Q := fun emptied w => if emptied then (∀ i, i ≠ j → pointerEntry (v.data I) i = none) ∧
        w = v.setBitmap ((clearEntry v.bitmap (pointerEntry (v.data I) j)).clear I)
      else (∃ i, i ≠ j ∧ pointerEntry (v.data I) i ≠ none) ∧
        w = (v.setBitmap (clearEntry v.bitmap (pointerEntry (v.data I) j))).setData I
          (setPointer (v.data I) j 0))
    (E := fun _ _ => False) (fun hzero => ⟨fun i => pointerEntry_clear_eq_none (hzero i), rfl⟩)
    fun i hi => ⟨⟨i, pointerEntry_clear_ne hi⟩, rfl⟩).bind ?_ fun _ _ hf => hf.elim
  intro emptied w hw
  cases emptied with
  | false =>
    -- The inner indirect block holds another pointer, so both pointer blocks stay.
    obtain ⟨⟨i, hij, hi⟩, rfl⟩ := hw
    simp only [Bool.false_eq_true, if_false]
    refine (endsOn_storeOrRelease (hg.setData _ _) hino _ (E := fun _ _ => False)
      (Q := fun released w => Removed ino index v inode w
        (if released then { uncountBlock inode removed with doubleIndirect := 0 }
          else uncountBlock inode removed))
      (fun hzero => ?_) fun _ _ => ?_).bind (fun released w hw => endsOn_pure hw) fun _ _ hf => hf.elim
    · have hk := hzero k
      rw [← hinner, hI] at hk
      cases hk
    · have hself : ((v.setBitmap (clearEntry v.bitmap (pointerEntry (v.data I) j))).setData I
          (setPointer (v.data I) j 0)).setData O (v.data O) =
          (v.setBitmap (clearEntry v.bitmap (pointerEntry (v.data I) j))).setData I
            (setPointer (v.data I) j 0) := by
        simp only [View.setData, View.setBitmap, View.mk.injEq, true_and]
        rw [Function.update_comm hne.symm, Function.update_eq_self]
      obtain ⟨hcut, hshrinks⟩ := h.release_entry (r := .double) (p := [k]) (j := j) (Nat.le_refl 2)
        hI (clearEntry v.bitmap (pointerEntry (v.data I) j))
        (totalBlocks_clearEntry _ _) (by
          intro c
          rw [isSet_clearEntry, ← hleaf]
          refine and_congr_right fun _ => ⟨fun hne t ht => ?_, fun hall => ?_⟩
          · rw [ht.eq_of_isLeaf rfl]
            exact hne
          · exact hall _ (Place.Above.refl _))
      simp only [Bool.false_eq_true, if_false, hself]
      refine (Removed.of_cut hs (Place.Above.refl _) hcut hshrinks (fun t ht _ => ?_)
        fun t ht htl hheld => ?_).congr (pointer_uncountBlock _ _) (attributes_uncountBlock _ _)
      · rw [ht.eq_of_isLeaf rfl]
        exact Place.Above.refl _
      · rcases Slot.above_leaf_iff.1 ht with (rfl | rfl) | rfl
        · refine ⟨Slot.inner ino k, Slot.double_above_iff.2 (.inr ⟨k, .inl rfl⟩),
            fun he => absurd (congrArg Place.path he) (by simp [Slot.inner, Slot.double]), ?_⟩
          rw [hcut, cut_none_apply, if_neg, hI]
          · exact Option.some_ne_none _
          · exact fun ha => absurd ha.2.length_le (by simp [Slot.inner])
        · refine ⟨Slot.leaf ino k i, Slot.inner_above_iff.2 (.inr ⟨i, rfl⟩),
            fun he => absurd (congrArg Place.path he) (by simp [Slot.inner, Slot.leaf]), ?_⟩
          rw [hcut, cut_none_apply, if_neg, hleaf]
          · exact hi
          · intro ha
            exact hij (by simpa [Slot.leaf] using congrArg Place.path (ha.eq_of_isLeaf rfl))
        · exact absurd rfl htl
  | true =>
    obtain ⟨hothers, rfl⟩ := hw
    have hbelow : ∀ c, (∀ t, (Slot.inner ino k).Above t → v.ownWith ino inode t ≠ some c) ↔
        I ≠ c ∧ pointerEntry (v.data I) j ≠ some c := by
      intro c
      constructor
      · intro hall
        refine ⟨?_, ?_⟩
        · rintro rfl
          exact hall _ (Place.Above.refl _) hI
        · rw [← hleaf]
          exact hall _ (Slot.inner_above_iff.2 (.inr ⟨j, rfl⟩))
      · rintro ⟨hIc, hjc⟩ t ht hc
        rcases Slot.inner_above_iff.1 ht with rfl | ⟨i, rfl⟩
        · rw [hI, Option.some.injEq] at hc
          exact hIc hc
        · rw [hleaf] at hc
          by_cases hij : i = j
          · exact hjc (hij ▸ hc)
          · rw [hothers i hij] at hc
            cases hc
    have hpath : ∀ t, (Slot.inner ino k).Above t → v.ownWith ino inode t ≠ none →
        t.Above (Slot.leaf ino k j) := by
      intro t ht hheld
      rcases Slot.inner_above_iff.1 ht with rfl | ⟨i, rfl⟩
      · exact Slot.inner_above_iff.2 (.inr ⟨j, rfl⟩)
      · rw [hleaf] at hheld
        obtain rfl : i = j := by
          by_contra hij
          exact hheld (hothers i hij)
        exact Place.Above.refl _
    simp only [if_true]
    refine (endsOn_storeOrRelease (hg.setBitmap (Bitmap.totalBlocks_clear _ _)) hino _
      (E := fun _ _ => False) (Q := fun released w => Removed ino index v inode w
        (if released then { uncountBlock inode removed with doubleIndirect := 0 }
          else uncountBlock inode removed))
      (fun hzero => ?_) fun i hi => ?_).bind (fun released w hw => endsOn_pure hw) fun _ _ hf => hf.elim
    · -- The double indirect block holds no other pointer and is released as well.
      have hothers' : ∀ i, i ≠ k → v.ownWith ino inode (Slot.inner ino i) = none := by
        intro i hik
        rw [hinner]
        exact pointerEntry_clear_eq_none (hzero i) hik
      have hdead : ∀ i, i ≠ k → ∀ i', v.ownWith ino inode (Slot.leaf ino i i') = none := by
        intro i hik i'
        rw [View.ownWith_leaf, hothers' i hik, Option.bind_none]
      obtain ⟨hcut, hshrinks⟩ := h.release_root (r := .double)
        { uncountBlock inode removed with doubleIndirect := 0 }
        (((clearEntry v.bitmap (pointerEntry (v.data I) j)).clear I).clear O)
        (fun r' => by cases r' <;> cases removed <;> rfl) (by cases removed <;> rfl)
        (by rw [Bitmap.totalBlocks_clear, Bitmap.totalBlocks_clear, totalBlocks_clearEntry]) (by
          intro c
          rw [Bitmap.isSet_clear, Bitmap.isSet_clear, Bool.and_eq_true, Bool.and_eq_true,
            isSet_clearEntry, Bool.not_eq_true', Bool.not_eq_true', decide_eq_false_iff_not,
            decide_eq_false_iff_not]
          constructor
          · rintro ⟨hO, hIc, hset, hj'⟩
            refine ⟨hset, fun t ht hc => ?_⟩
            rcases Slot.double_above_iff.1 ht with rfl | ⟨i, hi⟩
            · rw [houter, Option.some.injEq] at hc
              exact hO hc
            · by_cases hik : i = k
              · subst hik
                exact (hbelow c).2 ⟨hIc, hj'⟩ t (Slot.inner_above_iff.2 hi) hc
              · rcases hi with rfl | ⟨i', rfl⟩
                · rw [hothers' i hik] at hc
                  cases hc
                · rw [hdead i hik] at hc
                  cases hc
          · rintro ⟨hset, hall⟩
            obtain ⟨hIc, hj'⟩ := (hbelow c).1 fun t ht =>
              hall t ((Slot.double_above_iff.2 (.inr ⟨k, .inl rfl⟩)).trans ht)
            refine ⟨?_, hIc, hset, hj'⟩
            rintro rfl
            exact hall _ (Place.Above.refl _) houter)
      refine Removed.of_cut hs (Slot.above_leaf_iff.2 (.inl (.inl rfl))) hcut hshrinks
        (fun t ht hheld => ?_) fun t ht hne => absurd (Slot.above_double_iff.1 ht) hne
      rcases Slot.double_above_iff.1 ht with rfl | ⟨i, hi⟩
      · exact Slot.above_leaf_iff.2 (.inl (.inl rfl))
      · by_cases hik : i = k
        · subst hik
          exact hpath t (Slot.inner_above_iff.2 hi) hheld
        · rcases hi with rfl | ⟨i', rfl⟩
          · exact absurd (hothers' i hik) hheld
          · exact absurd (hdead i hik i') hheld
    · obtain ⟨hik, hi⟩ := pointerEntry_clear_ne hi
      obtain ⟨hcut, hshrinks⟩ := h.release_entry (r := .double) (p := []) (j := k) (Nat.le_succ 1)
        houter ((clearEntry v.bitmap (pointerEntry (v.data I) j)).clear I)
        (by rw [Bitmap.totalBlocks_clear, totalBlocks_clearEntry]) (by
          intro c
          rw [Bitmap.isSet_clear, Bool.and_eq_true, isSet_clearEntry, Bool.not_eq_true',
            decide_eq_false_iff_not]
          have hc := hbelow c
          constructor
          · rintro ⟨hIc, hset, hj'⟩
            exact ⟨hset, hc.2 ⟨hIc, hj'⟩⟩
          · rintro ⟨hset, hall⟩
            exact ⟨(hc.1 hall).1, hset, (hc.1 hall).2⟩)
      simp only [Bool.false_eq_true, if_false]
      refine (Removed.of_cut hs (Slot.inner_above_iff.2 (.inr ⟨j, rfl⟩)) hcut hshrinks hpath
        fun t ht hne' hheld => ?_).congr (pointer_uncountBlock _ _) (attributes_uncountBlock _ _)
      rcases Slot.above_inner_iff.1 ht with rfl | rfl
      · refine ⟨Slot.inner ino i, Slot.double_above_iff.2 (.inr ⟨i, .inl rfl⟩),
          fun he => absurd (congrArg Place.path he) (by simp [Slot.inner, Slot.double]), ?_⟩
        rw [hcut, cut_none_apply, if_neg, hinner]
        · exact hi
        · intro ha
          rcases Slot.above_inner_iff.1 ha with he | he
          · exact absurd (congrArg Place.path he) (by simp [Slot.double])
          · exact hik (by simpa [Slot.inner] using (congrArg Place.path he).symm)
      · exact absurd rfl hne'

/-- What `remove_mapped_block` does. -/
theorem endsOn_removeMappedBlock (h : Mapped v ino inode) (index : Nat) :
    EndsOn view (removeMappedBlock inode index) v
      (fun i w => Removed ino index v inode w i) fun _ _ => False := by
  by_cases h₁ : index < 12
  · exact removed_direct h h₁
  by_cases h₂ : index - 12 < POINTERS_PER_BLOCK
  · exact removed_single h h₁ h₂
  by_cases h₃ : index - 12 - POINTERS_PER_BLOCK < POINTERS_PER_BLOCK * POINTERS_PER_BLOCK
  · exact removed_double h h₁ h₂ h₃
  · have hs : dataSlot ino index = _ := dataSlot_none h₁ h₂ h₃
    simp only [removeMappedBlock, dif_neg h₁, if_neg h₂, ge_iff_le, Nat.not_lt.1 h₃, true_or, if_true]
    exact endsOn_pure (h.removed_refl (by simp [hs]) (by simp [hs]))

end AlbumFs

/-! ### Ranges of blocks -/

/-- Every slot of the inode with a block lies on the way to a block with a number in `wanted`. -/
def Reaches (wanted : Nat → Prop) (v : View) (ino : Nat) (inode : Inode) : Prop :=
  ∀ t : Slot, t.ino = ino → v.ownWith ino inode t ≠ none →
    ∃ index, wanted index ∧ ∃ s, dataSlot ino index = some s ∧ t.Above s

section Range

variable {v v' : View} {ino index : Nat} {inode inode' : Inode}

theorem Reaches.mono {P Q : Nat → Prop} (h : Reaches P v ino inode) (hPQ : ∀ k, P k → Q k) :
    Reaches Q v ino inode := by
  intro t ht hheld
  obtain ⟨k, hk, hs⟩ := h t ht hheld
  exact ⟨k, hPQ k hk, hs⟩

/-- A removal leaves no pointer block behind that no other block needs. -/
theorem Removed.reaches {P : Nat → Prop} (h : Removed ino index v inode v' inode')
    (hhas : HasInner v ino inode) (hr : Reaches P v ino inode) :
    Reaches (fun k => P k ∧ k ≠ index) v' ino inode' := by
  -- A pointer block that is left holds a pointer further down, so this is by induction on depth.
  intro t ht hheld
  induction hn : t.root.2.depth - t.path.length using Nat.strong_induction_on generalizing t with
  | _ n ih =>
    have hheld' : v.ownWith ino inode t ≠ none := by
      obtain ⟨b, hb⟩ := Option.ne_none_iff_exists'.1 hheld
      rw [h.shrinks.sub _ _ hb]
      exact Option.some_ne_none b
    obtain ⟨k, hk, s, hs, hts⟩ := hr t ht hheld'
    by_cases hki : k = index
    · subst hki
      have hne : t ≠ s := by
        rintro rfl
        exact hheld (h.gone _ hs)
      obtain ⟨c, htc, hct, hc⟩ := h.needed hhas s hs t hts hne hheld
      have hlen : t.path.length < c.path.length := by
        refine Nat.lt_of_le_of_ne htc.2.length_le fun he => hct ?_
        exact (Place.Above.antisymm htc ⟨htc.1.symm, by rw [htc.2.eq_of_length he]⟩).symm
      have hroot : c.root = t.root := htc.1.symm
      have hcl := c.length_path
      rw [hroot] at hcl
      obtain ⟨k', hk', s', hs', hcs'⟩ := ih (t.root.2.depth - c.path.length) (by omega) c
        (by rw [Slot.ino, hroot]; exact ht) hc (by rw [hroot])
      exact ⟨k', hk', s', hs', htc.trans hcs'⟩
    · exact ⟨k, ⟨hk, hki⟩, s, hs, hts⟩

theorem Removed.hasInner (h : Removed ino index v inode v' inode') (hhas : HasInner v ino inode) :
    HasInner v' ino inode' := by
  intro hdouble
  cases hs : dataSlot ino index with
  | none =>
    have hkept : ∀ t, v'.ownWith ino inode' t = v.ownWith ino inode t :=
      fun t => h.kept t (by simp [hs])
    rw [hkept] at hdouble
    obtain ⟨k, hk⟩ := hhas hdouble
    exact ⟨k, by rwa [hkept]⟩
  | some s =>
    by_cases ha : (Slot.double ino).Above s
    · obtain ⟨c, hc, hne, hheld⟩ := h.needed hhas s hs _ ha (by
        rintro rfl
        exact hdouble (h.gone _ hs)) hdouble
      rcases Slot.double_above_iff.1 hc with rfl | ⟨k, rfl | ⟨j, rfl⟩⟩
      · exact absurd rfl hne
      · exact ⟨k, hheld⟩
      · refine ⟨k, fun hnone => hheld ?_⟩
        rw [View.ownWith_leaf, hnone, Option.bind_none]
    · have hkept : ∀ t : Slot, (Slot.double ino).Above t →
          v'.ownWith ino inode' t = v.ownWith ino inode t := by
        refine fun t ht => h.kept t fun s' hs' hts => ha ?_
        rw [hs, Option.some.injEq] at hs'
        exact ht.trans (hs' ▸ hts)
      rw [hkept _ (Place.Above.refl _)] at hdouble
      obtain ⟨k, hk⟩ := hhas hdouble
      exact ⟨k, by rwa [hkept _ (Slot.double_above_iff.2 (.inr ⟨k, .inl rfl⟩))]⟩

/-- The blocks with numbers from `start` to `start + n` of a file are removed. -/
structure RemovedRange (ino start n : Nat) (v : View) (inode : Inode) (v' : View)
    (inode' : Inode) : Prop where
  shrinks : Shrinks ino v inode v' inode'
  gone : ∀ k, start ≤ k → k < start + n → ∀ s, dataSlot ino k = some s →
    v'.ownWith ino inode' s = none
  kept : ∀ t : Slot, (∀ k, start ≤ k → k < start + n → ∀ s, dataSlot ino k = some s → ¬ t.Above s) →
    v'.ownWith ino inode' t = v.ownWith ino inode t
  reaches : HasInner v ino inode → HasInner v' ino inode' ∧
    ∀ P, Reaches P v ino inode → Reaches (fun k => P k ∧ ¬ (start ≤ k ∧ k < start + n)) v' ino inode'

/-- The slots of other blocks keep their blocks. -/
theorem RemovedRange.kept_leaf {start n : Nat} (h : RemovedRange ino start n v inode v' inode')
    {s : Slot} (hs : s.IsLeaf) (hk : s.ino = ino → ¬ (start ≤ s.index ∧ s.index < start + n)) :
    v'.ownWith ino inode' s = v.ownWith ino inode s := by
  refine h.kept s fun k hge hlt t ht ha => ?_
  obtain rfl := ha.eq_of_isLeaf hs
  exact hk (isLeaf_of_dataSlot ht).2 (by rw [index_of_dataSlot ht]; exact ⟨hge, hlt⟩)

theorem Mapped.removedRange_zero (h : Mapped v ino inode) (start : Nat) :
    RemovedRange ino start 0 v inode v inode :=
  ⟨h.shrinks_refl, by omega, fun _ _ => rfl,
    fun hhas => ⟨hhas, fun _ hr => hr.mono fun _ hk => ⟨hk, by omega⟩⟩⟩

/-- The first block of a range is removed, and then the others. -/
theorem Removed.cons {start n : Nat} {v'' : View} {inode'' : Inode}
    (h : Removed ino start v inode v' inode')
    (h' : RemovedRange ino (start + 1) n v' inode' v'' inode'') :
    RemovedRange ino start (n + 1) v inode v'' inode'' := by
  refine ⟨h.shrinks.trans h'.shrinks, fun k hge hlt s hs => ?_, fun t ht => ?_, fun hhas => ?_⟩
  · by_cases hk : k = start
    · subst hk
      by_contra hne
      obtain ⟨b, hb⟩ := Option.ne_none_iff_exists'.1 hne
      have hb' := h'.shrinks.sub _ _ hb
      rw [h.gone s hs] at hb'
      cases hb'
    · exact h'.gone k (by omega) (by omega) s hs
  · rw [h'.kept t fun k hge hlt => ht k (by omega) (by omega),
      h.kept t fun s hs => ht start (Nat.le_refl _) (by omega) s hs]
  · obtain ⟨hhas', hreach⟩ := h'.reaches (h.hasInner hhas)
    refine ⟨hhas', fun P hr => (hreach _ (h.reaches hhas hr)).mono fun k hk => ⟨hk.1.1, ?_⟩⟩
    have := hk.1.2
    have := hk.2
    omega

theorem AlbumFs.endsOn_removeMappedBlocks (h : Mapped v ino inode) (start n : Nat) :
    EndsOn AlbumFs.view (AlbumFs.removeMappedBlocks inode start n) v
      (fun i w => RemovedRange ino start n v inode w i) fun _ _ => False := by
  induction n generalizing v inode start with
  | zero => exact endsOn_pure (h.removedRange_zero start)
  | succ n ih =>
    refine (AlbumFs.endsOn_removeMappedBlock h start).bind (fun i w hw => ?_) fun _ _ hf => hf
    exact (ih (hw.shrinks.mapped h) (start + 1)).mono (fun _ _ hw' => hw.cons hw') fun _ _ hf => hf

end Range

end AlbumFS

import AlbumFS.Space.Release

/-!
# Sound block maps

A view is sound when its geometry is right and no block is cross-linked: every block that a slot
of a live inode names lies in the data region, is marked in the bitmap, and is named by no other
slot. The operations change the stored inodes and the bitmap in a few ways only, and each of them
keeps a view sound:

* the copy of an inode that has grown is stored (`Grows.sound_store`) or thrown away
  (`Grows.sound_stop`);
* the copy of an inode that has shrunk is stored (`Shrinks.sound_store`) or the inode is freed
  (`Shrinks.sound_free`);
* an inode number is taken, without blocks (`View.Sound.newFile`) or with one
  (`View.Sound.newDirectory`);
* the contents of a block are written (`View.Sound.setData`).
-/

namespace AlbumFS

open BlockTree Ownership

/-- No block is cross-linked. -/
structure View.Sound (v : View) : Prop where
  geometry : v.Geometry
  exclusive : Exclusive v.own v.allocated

variable {v w : View} {ino b : Nat} {inode inode' inode'' : Inode} {slots : List Slot} {s : Slot}

theorem View.Sound.mapped (h : v.Sound) (hi : v.inodes ino = some inode) : Mapped v ino inode :=
  ⟨h.geometry, by rw [View.ownWith_self hi]; exact h.exclusive⟩

/-- Copies of an inode with the same pointers can be exchanged. -/
theorem View.Sound.mapped_congr (h : v.Sound) (hi : v.inodes ino = some inode)
    (hp : ∀ r : Root, r.pointer inode' = r.pointer inode) : Mapped v ino inode' :=
  (h.mapped hi).congr hp

/-- The copy of an inode is stored. -/
theorem Mapped.sound (h : Mapped w ino inode')
    (hp : ∀ r : Root, r.pointer inode'' = r.pointer inode') (hmode : inode''.mode ≠ 0) :
    (w.setInode ino inode'').Sound where
  geometry := h.geometry.setInode _ _
  exclusive := by
    rw [View.own_setInode hmode, View.ownWith_congr hp]
    exact h.exclusive

theorem Grows.sound_store (h : Grows ino slots v inode w inode')
    (hp : ∀ r : Root, r.pointer inode'' = r.pointer inode') (hmode : inode''.mode ≠ 0) :
    (w.setInode ino inode'').Sound :=
  h.mapped.sound hp hmode

/-- The copy is thrown away: the stored inode names some of the blocks that the copy names. -/
theorem Grows.sound_stop (h : Grows ino slots v inode w inode') (hi : v.inodes ino = some inode) :
    w.Sound where
  geometry := h.mapped.geometry
  exclusive := h.mapped.exclusive.of_sub
    (View.sub_ownWith (by rw [h.inodes_eq, hi]) h.roots)

theorem Stops.sound (h : Stops ino slots v inode w) (hi : v.inodes ino = some inode) : w.Sound := by
  obtain ⟨_, _, _, _, -, hg, -, -⟩ := h
  exact hg.sound_stop hi

theorem Shrinks.sound_store (h : Shrinks ino v inode w inode') (hm : Mapped v ino inode)
    (hp : ∀ r : Root, r.pointer inode'' = r.pointer inode') (hmode : inode''.mode ≠ 0) :
    (w.setInode ino inode'').Sound :=
  (h.mapped hm).sound hp hmode

theorem own_free_sub (w : View) (ino : Nat) (inode : Inode) :
    Sub (w.setInode ino Inode.default).own (w.ownWith ino inode) := by
  intro t c ht
  rw [View.own_setInode_default] at ht
  split_ifs at ht with h
  rwa [View.ownWith_of_ne h]

theorem Shrinks.sound_free (h : Shrinks ino v inode w inode') (hm : Mapped v ino inode) :
    (w.setInode ino Inode.default).Sound where
  geometry := h.geometry.setInode _ _
  exclusive := (h.mapped hm).exclusive.of_sub (own_free_sub w ino inode')

/-- The contents of a block are written. -/
theorem View.own_setData (h : Exclusive v.own v.allocated) (hs : v.own s = some b) (hleaf : s.IsLeaf)
    (block : Block) : (v.setData b block).own = v.own :=
  View.ownOf_data_congr fun t ht => by rwa [h.inj ht hs]

theorem View.Sound.setData (h : v.Sound) (hs : v.own s = some b) (hleaf : s.IsLeaf)
    (block : Block) : (v.setData b block).Sound where
  geometry := h.geometry.setData _ _
  exclusive := by
    rw [View.own_setData h.exclusive hs hleaf]
    exact h.exclusive

/-- Writing the contents of a block of the copy. -/
theorem Mapped.grows_setData (h : Mapped v ino inode) (hs : v.ownWith ino inode s = some b)
    (hleaf : s.IsLeaf) (block : Block) : Grows ino [] v inode (v.setData b block) inode := by
  have hown : (v.setData b block).ownWith ino inode = v.ownWith ino inode :=
    View.ownOf_data_congr fun t ht => by rwa [h.exclusive.inj ht hs]
  exact ⟨rfl, rfl, rfl, rfl, fun _ _ h => h,
    ⟨h.geometry.setData _ _, by rw [hown]; exact h.exclusive⟩,
    fun _ _ ht => by rw [hown]; exact ht, by simp, fun _ _ => by rw [hown],
    fun c => by simp, by simp [View.missing]⟩

/-- An inode number is taken for an inode without blocks. -/
theorem View.own_new (hnone : v.inodes ino = none) (hmode : inode.mode ≠ 0)
    (hp : ∀ r : Root, r.pointer inode = 0) : (v.setInode ino inode).own = v.own := by
  funext t
  rw [View.own_setInode hmode]
  by_cases ht : t.ino = ino
  · rw [View.own_eq_none (by rw [ht, hnone])]
    refine hold_none_of_above (s := ⟨t.root, [], Nat.zero_le _⟩) ⟨rfl, List.nil_suffix⟩ ?_
    subst ht
    exact (rootBlock_update_self _ _ _).trans (by rw [hp, thenSome_zero])
  · exact View.ownWith_of_ne ht

theorem View.Sound.newFile (h : v.Sound) (hnone : v.inodes ino = none) (hmode : inode.mode ≠ 0)
    (hp : ∀ r : Root, r.pointer inode = 0) : (v.setInode ino inode).Sound where
  geometry := h.geometry.setInode _ _
  exclusive := by
    rw [View.own_new hnone hmode hp]
    exact h.exclusive

/-- An inode number is taken for an inode with one block. -/
theorem View.Sound.assigned_new (h : v.Sound) (hnone : v.inodes ino = none)
    (hb : v.InData b) (hfree : v.bitmap.isSet b = false)
    (hp : ∀ r : Root, r.pointer inode = if r = .direct 0 then UInt64.ofNat b else 0) :
    Mapped v ino inode.attributes ∧ v.ownWith ino inode.attributes = v.own ∧
      Assigned ino (Slot.direct ino 0) b v inode.attributes
        ((v.setBitmap (v.bitmap.set b)).setData b Block.zero) inode := by
  have hzero : ∀ r : Root, r.pointer inode.attributes = 0 := by
    intro r
    rcases r with ⟨index, hindex⟩ | _ | _
    · rw [Root.pointer_direct]
      simp [Inode.attributes]
    · rfl
    · rfl
  have hown : v.ownWith ino inode.attributes = v.own := by
    funext t
    by_cases ht : t.ino = ino
    · rw [View.own_eq_none (by rw [ht, hnone])]
      refine hold_none_of_above (s := ⟨t.root, [], Nat.zero_le _⟩) ⟨rfl, List.nil_suffix⟩ ?_
      subst ht
      exact (rootBlock_update_self _ _ _).trans (by rw [hzero, thenSome_zero])
    · exact View.ownWith_of_ne ht
  have hm : Mapped v ino inode.attributes := ⟨h.geometry, by rw [hown]; exact h.exclusive⟩
  exact ⟨hm, hown, hm.assign_root hb hfree (hzero _) (fun r => by rw [hp, hzero]) rfl⟩

theorem View.Sound.newDirectory (h : v.Sound) (hnone : v.inodes ino = none)
    (hb : v.InData b) (hfree : v.bitmap.isSet b = false)
    (hp : ∀ r : Root, r.pointer inode = if r = .direct 0 then UInt64.ofNat b else 0)
    (hmode : inode.mode ≠ 0) (block : Block) :
    (((v.setBitmap (v.bitmap.set b)).setData b block).setInode ino inode).Sound ∧
      (((v.setBitmap (v.bitmap.set b)).setData b block).setInode ino inode).own =
        Function.update v.own (Slot.direct ino 0) (some b) := by
  obtain ⟨hm, hown, hassign⟩ := h.assigned_new hnone hb hfree hp
  have hheld : ((v.setBitmap (v.bitmap.set b)).setData b Block.zero).ownWith ino inode
      (Slot.direct ino 0) = some b := by
    rw [hassign.own_eq, Function.update_self]
  have hg := (hassign.mapped hm).grows_setData hheld rfl block
  have hidem : ((v.setBitmap (v.bitmap.set b)).setData b Block.zero).setData b block =
      (v.setBitmap (v.bitmap.set b)).setData b block := by
    simp [View.setData]
  rw [hidem] at hg
  refine ⟨hg.mapped.sound (fun _ => rfl) hmode, ?_⟩
  rw [View.own_setInode hmode, ← hown, ← hassign.own_eq]
  funext t
  exact hg.own_of_not_mem t (by simp)

end AlbumFS

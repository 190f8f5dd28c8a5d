import AlbumFS.Ops.Shrinking
import AlbumFS.Ops.Rename

/-!
# Blocks that are accounted for

Every marked block of the data region is the block of a pointer of a live inode, every pointer block leads to a
block of contents, and no file has blocks behind its end. The steps of the operations keep this. What breaks it is
an allocation that stops half-way, so operations are specified here by whether they find room.

## Main definitions

* `View.Accounted`: no marked block is lost.
* `FsError.OutOfRoom`: the errors of an allocation that stopped.

## Main results

* `Step.accounted`, `AlbumFs.Written.accounted`, `AlbumFs.Truncated.accounted`: what keeps the blocks accounted for.
* `AlbumFs.endsOn_write_room`, `AlbumFs.endsOn_rename_room`: operations that find room are made of such steps.
-/

namespace AlbumFS

open BlockTree Ownership Prog

/-- Every marked block of the data region is referenced, every pointer leads to a block of contents, the blocks of a
file have numbers below its size, and setting permissions cannot remove an inode. -/
structure View.Accounted (v : View) : Prop where
  kind : ∀ ino inode, v.inodes ino = some inode → inode.mode &&& S_IFMT ≠ 0
  metadata : ∀ b, b < v.sb.dataStart.toNat → v.bitmap.isSet b = true
  held : ∀ b, v.InData b → v.bitmap.isSet b = true → ∃ s, v.own s = some b
  loaded : ∀ ino inode, v.inodes ino = some inode → v.Loaded ino inode
  below : ∀ ino inode, v.inodes ino = some inode → v.Below ino inode (divCeil inode.size.toNat UB)

/-- The errors of an allocation that stopped. -/
def FsError.OutOfRoom (e : FsError) : Prop := e = .noSpace ∨ ∃ lba, e = .badBlock lba

section Steps

variable {v w u : View} {ino : Nat} {inode inode' i : Inode}

theorem Inode.mode_ne_of_kind (h : inode.mode &&& S_IFMT ≠ 0) : inode.mode ≠ 0 := fun hzero => h (by
  rw [hzero, UInt32.zero_and])

theorem divCeil_add_self (n : Nat) {d : Nat} (hd : 0 < d) : divCeil (n + d) d = divCeil n d + 1 := by
  rw [divCeil, divCeil, ← Nat.add_div_right _ hd]
  congr 1
  omega

theorem divCeil_le_divCeil {m n d : Nat} (hd : 0 < d) (h : m ≤ n) : divCeil m d ≤ divCeil n d :=
  (divCeil_le_iff hd).2 (h.trans ((divCeil_le_iff hd).1 (Nat.le_refl _)))

/-- When one inode changes, the others keep their blocks. -/
theorem View.Accounted.of_others (h : v.Accounted) (hne : ∀ t : Slot, t.ino ≠ ino → w.own t = v.own t)
    (hinodes : ∀ j, j ≠ ino → w.inodes j = v.inodes j)
    (hmetadata : ∀ b, b < w.sb.dataStart.toNat → w.bitmap.isSet b = true)
    (hheld : ∀ b, w.InData b → w.bitmap.isSet b = true → ∃ s, w.own s = some b)
    (hself : ∀ k, w.inodes ino = some k →
      k.mode &&& S_IFMT ≠ 0 ∧ w.Loaded ino k ∧ w.Below ino k (divCeil k.size.toNat UB)) :
    w.Accounted := by
  have hother : ∀ {j : Nat} {k : Inode}, j ≠ ino → w.inodes j = some k → v.inodes j = some k ∧
      ∀ t : Slot, t.ino = j → w.ownWith j k t = v.ownWith j k t := by
    intro j k hj hk
    have hk' := (hinodes j hj).symm.trans hk
    refine ⟨hk', fun t ht => ?_⟩
    rw [View.ownWith_self hk, View.ownWith_self hk', hne t fun hto => hj (ht ▸ hto)]
  refine ⟨fun j k hk => ?_, hmetadata, hheld, fun j k hk => ?_, fun j k hk => ?_⟩
  · by_cases hj : j = ino
    · subst hj
      exact (hself k hk).1
    · exact h.kind j k (hother hj hk).1
  · by_cases hj : j = ino
    · subst hj
      exact (hself k hk).2.1
    · obtain ⟨hk', hsame⟩ := hother hj hk
      refine View.loaded_of_exists_leaf fun t ht hheld => ?_
      rw [hsame t ht] at hheld
      obtain ⟨n, s, hs, ha, hsheld⟩ := (h.loaded j k hk').exists_leaf ht hheld
      obtain ⟨hleaf, hsino⟩ := isLeaf_of_dataSlot hs
      exact ⟨s, hleaf, ha, by rwa [hsame s hsino]⟩
  · by_cases hj : j = ino
    · subst hj
      exact (hself k hk).2.2
    · obtain ⟨hk', hsame⟩ := hother hj hk
      intro n s hs hsheld
      rw [hsame s (isLeaf_of_dataSlot hs).2] at hsheld
      exact h.below j k hk' n s hs hsheld

/-- The copy of an inode is stored. -/
theorem View.Accounted.store (h : v.Accounted) (hinodes : w.inodes = v.inodes) (hsb : w.sb = v.sb)
    (hkind : inode'.mode &&& S_IFMT ≠ 0) (hp : ∀ r : Root, r.pointer inode' = r.pointer i)
    (hne : ∀ t : Slot, t.ino ≠ ino → w.ownWith ino i t = v.own t)
    (hmetadata : ∀ b, b < v.sb.dataStart.toNat → w.bitmap.isSet b = true)
    (hheld : ∀ b, w.InData b → w.bitmap.isSet b = true → ∃ s, w.ownWith ino i s = some b)
    (hloaded : w.Loaded ino i) (hbelow : w.Below ino i (divCeil inode'.size.toNat UB)) :
    (w.setInode ino inode').Accounted := by
  have hmode := Inode.mode_ne_of_kind hkind
  have hown : (w.setInode ino inode').own = w.ownWith ino i := by
    rw [View.own_setInode hmode, View.ownWith_congr hp]
  refine h.of_others (fun t ht => by rw [hown, hne t ht]) (fun j hj => ?_) (fun b hb => hmetadata b (hsb ▸ hb))
    (fun b hin hset => by rw [hown]; exact hheld b hin hset) fun k hk => ?_
  · rw [View.inodes_setInode, Function.update_of_ne hj, hinodes]
  · have hself := (View.ownWith_self hk).trans hown
    rw [View.inodes_setInode, Function.update_self, Inode.live_of_ne hmode, Option.some.injEq] at hk
    subst hk
    unfold View.Loaded View.Below
    rw [hself]
    exact ⟨hkind, hloaded, hbelow⟩

/-- A file that gets blocks within its new size. -/
theorem View.Accounted.grow (h : v.Accounted) (indices : List Nat) (hi : v.inodes ino = some inode)
    (hg : Grows ino (indices.flatMap (slotsTo ino)) v inode w i) (hreach : ∀ k ∈ indices, dataSlot ino k ≠ none)
    (hp : ∀ r : Root, r.pointer inode' = r.pointer i) (hkind : inode'.mode &&& S_IFMT = inode.mode &&& S_IFMT)
    (hsize : divCeil inode.size.toNat UB ≤ divCeil inode'.size.toNat UB)
    (hindices : ∀ k ∈ indices, k < divCeil inode'.size.toNat UB) : (w.setInode ino inode').Accounted := by
  -- A slot that is new lies on the way to a block of the range, which is there now.
  have hnew : ∀ t : Slot, w.ownWith ino i t ≠ none → v.ownWith ino inode t ≠ none ∨
      ∃ k ∈ indices, ∃ s, dataSlot ino k = some s ∧ t.Above s ∧ w.ownWith ino i s ≠ none := by
    intro t hheld
    by_cases hmem : t ∈ indices.flatMap (slotsTo ino)
    · obtain ⟨k, hk, ht⟩ := List.mem_flatMap.1 hmem
      obtain ⟨s, hs⟩ := Option.ne_none_iff_exists'.1 (hreach k hk)
      obtain ⟨b, hb⟩ := hg.own_of_mem s (List.mem_flatMap.2 ⟨k, hk, (mem_slotsTo_iff hs).2 (Place.Above.refl s)⟩)
      exact .inr ⟨k, hk, s, hs, (mem_slotsTo_iff hs).1 ht, by rw [hb]; exact Option.some_ne_none b⟩
    · rw [hg.own_of_not_mem t hmem] at hheld
      exact .inl hheld
  have hkept : ∀ t : Slot, v.ownWith ino inode t ≠ none → w.ownWith ino i t ≠ none := by
    intro t hheld
    obtain ⟨b, hb⟩ := Option.ne_none_iff_exists'.1 hheld
    rw [hg.own_of_some t b hb]
    exact Option.some_ne_none b
  have hkind' : inode'.mode &&& S_IFMT ≠ 0 := hkind ▸ h.kind ino inode hi
  refine h.store hg.inodes_eq hg.sb_eq hkind' hp (fun t ht => ?_) (fun b hb => ?_) (fun b hin hset => ?_)
    (View.loaded_of_exists_leaf fun t ht hheld => ?_) fun k s hs hheld => ?_
  · have hmem : t ∉ indices.flatMap (slotsTo ino) := fun hmem => by
      obtain ⟨k, -, hk⟩ := List.mem_flatMap.1 hmem
      exact ht (ino_of_mem_slotsTo hk)
    rw [hg.own_of_not_mem t hmem, View.ownWith_self hi]
  · exact (hg.isSet_iff b).2 (.inl (h.metadata b hb))
  · rcases (hg.isSet_iff b).1 hset with hset | ⟨s, -, -, hs⟩
    · obtain ⟨s, hs⟩ := h.held b ⟨hg.sb_eq ▸ hin.1, hg.total_eq ▸ hin.2⟩ hset
      exact ⟨s, hg.own_of_some s b (by rwa [View.ownWith_self hi])⟩
    · exact ⟨s, hs⟩
  · rcases hnew t hheld with hheld | ⟨k, -, s, hs, ha, hsheld⟩
    · obtain ⟨k, s, hs, ha, hsheld⟩ := (h.loaded ino inode hi).exists_leaf ht hheld
      exact ⟨s, (isLeaf_of_dataSlot hs).1, ha, hkept s hsheld⟩
    · exact ⟨s, (isLeaf_of_dataSlot hs).1, ha, hsheld⟩
  · rcases hnew s hheld with hheld | ⟨n, hn, s', hs', ha, -⟩
    · exact Nat.lt_of_lt_of_le (h.below ino inode hi k s hs hheld) hsize
    · obtain rfl := ha.eq_of_isLeaf (isLeaf_of_dataSlot hs).1
      rw [← index_of_dataSlot hs, index_of_dataSlot hs']
      exact hindices n hn

/-- An inode is stored that names the same blocks. -/
theorem View.Accounted.setInode (h : v.Accounted) (hs : v.Sound) (hi : v.inodes ino = some inode)
    (hp : ∀ r : Root, r.pointer inode' = r.pointer inode) (hkind : inode'.mode &&& S_IFMT = inode.mode &&& S_IFMT)
    (hsize : inode.size.toNat ≤ inode'.size.toNat) : (v.setInode ino inode').Accounted :=
  h.grow [] hi (hs.mapped hi).grows_nil (by simp) hp hkind (divCeil_le_divCeil UB_pos hsize)
    (by simp)

/-- A block of contents is written. -/
theorem View.Accounted.setData (h : v.Accounted) (hs : v.Sound) {s : Slot} {b : Nat} (hown : v.own s = some b)
    (hleaf : s.IsLeaf) (payload : Block) : (v.setData b payload).Accounted := by
  have heq := View.own_setData hs.exclusive hown hleaf payload
  have hself : ∀ {j : Nat} {k : Inode}, v.inodes j = some k →
      (v.setData b payload).ownWith j k = v.ownWith j k := fun hj => by
    rw [View.ownWith_self (v := v.setData b payload) hj, heq, View.ownWith_self hj]
  refine ⟨h.kind, h.metadata, fun c hin hset => ?_, fun j k hj => ?_, fun j k hj n t ht hheld => ?_⟩
  · rw [heq]
    exact h.held c hin hset
  · refine View.loaded_of_exists_leaf fun t ht hheld => ?_
    rw [hself hj] at hheld ⊢
    obtain ⟨n, t', ht', ha, hheld'⟩ := (h.loaded j k hj).exists_leaf ht hheld
    exact ⟨t', (isLeaf_of_dataSlot ht').1, ha, hheld'⟩
  · rw [hself hj] at hheld
    exact h.below j k hj n t ht hheld

/-- A new file has no blocks. -/
theorem View.Accounted.newFile (h : v.Accounted) (hnone : v.inodes ino = none) (hkind : inode.mode &&& S_IFMT ≠ 0)
    (hp : ∀ r : Root, r.pointer inode = 0) : (v.setInode ino inode).Accounted := by
  have hmode := Inode.mode_ne_of_kind hkind
  have hown : v.ownWith ino inode = v.own := by rw [← View.own_setInode hmode, View.own_new hnone hmode hp]
  have hempty : ∀ t : Slot, t.ino = ino → v.own t = none := fun t ht => View.own_eq_none (by rw [ht, hnone])
  refine h.store rfl rfl hkind (fun _ => rfl) (fun t ht => View.ownWith_of_ne ht) h.metadata (fun b hin hset => ?_)
    (View.loaded_of_exists_leaf fun t ht hheld => ?_) fun k s hs hheld => ?_
  · rw [hown]
    exact h.held b hin hset
  · rw [hown, hempty t ht] at hheld
    exact absurd rfl hheld
  · rw [hown, hempty s (isLeaf_of_dataSlot hs).2] at hheld
    exact absurd rfl hheld

/-- A new directory has a block that was free. -/
theorem View.Accounted.newDirectory (h : v.Accounted) (hs : v.Sound) {b : Nat} (hnone : v.inodes ino = none)
    (hin : v.InData b) (hfree : v.bitmap.isSet b = false)
    (hp : ∀ r : Root, r.pointer inode = if r = .direct 0 then UInt64.ofNat b else 0)
    (hkind : inode.mode &&& S_IFMT ≠ 0) (hsize : 0 < inode.size.toNat) (payload : Block) :
    (((v.setBitmap (v.bitmap.set b)).setData b payload).setInode ino inode).Accounted := by
  have hmode := Inode.mode_ne_of_kind hkind
  have hown : ((v.setBitmap (v.bitmap.set b)).setData b payload).ownWith ino inode =
      Function.update v.own (Slot.direct ino 0) (some b) := by
    rw [← View.own_setInode hmode, (hs.newDirectory hnone hin hfree hp hmode payload).2]
  have hset : ∀ c, (v.bitmap.set b).isSet c = true ↔ c = b ∨ v.bitmap.isSet c = true := fun c => by
    rw [Bitmap.isSet_set (by rw [hs.geometry.totalBlocks_eq]; exact hin.2), Bool.or_eq_true, decide_eq_true_eq,
      eq_comm]
  have hempty : ∀ t : Slot, t.ino = ino → v.own t = none := fun t ht => View.own_eq_none (by rw [ht, hnone])
  have hfirst : ∀ t : Slot, t.ino = ino → Function.update v.own (Slot.direct ino 0) (some b) t ≠ none →
      t = Slot.direct ino 0 := by
    intro t ht hheld
    by_contra hne
    rw [Function.update_of_ne hne, hempty t ht] at hheld
    exact hheld rfl
  refine h.store rfl rfl hkind (fun _ => rfl) (fun t ht => ?_) (fun c hc => (hset c).2 (.inr (h.metadata c hc)))
    (fun c hinc hsetc => ?_) (View.loaded_of_exists_leaf fun t ht hheld => ?_) fun k s hs hheld => ?_
  · rw [hown, Function.update_of_ne]
    rintro rfl
    exact ht rfl
  · rw [hown]
    rcases (hset c).1 hsetc with rfl | hsetc
    · exact ⟨_, Function.update_self _ _ _⟩
    · obtain ⟨s, hheld⟩ := h.held c hinc hsetc
      refine ⟨s, ?_⟩
      rw [Function.update_of_ne, hheld]
      rintro rfl
      rw [hempty _ rfl] at hheld
      cases hheld
  · rw [hown] at hheld ⊢
    obtain rfl := hfirst t ht hheld
    exact ⟨Slot.direct ino 0, rfl, Place.Above.refl _, hheld⟩
  · rw [hown] at hheld
    obtain rfl := hfirst s (isLeaf_of_dataSlot hs).2 hheld
    rw [← index_of_dataSlot hs]
    exact (lt_divCeil_iff UB_pos).2 (by rw [show (Slot.direct ino 0).index = 0 from rfl]; omega)

/-- What is left of an inode that gave blocks back. -/
theorem RemovedRange.held {keep n : Nat} (h : RemovedRange ino keep n v inode w i) (hi : v.inodes ino = some inode')
    (hp : ∀ r : Root, r.pointer inode = r.pointer inode') (ha : v.Accounted) {b : Nat} (hin : w.InData b)
    (hset : w.bitmap.isSet b = true) : ∃ s, w.ownWith ino i s = some b := by
  obtain ⟨hset, hkept⟩ := (h.shrinks.isSet_iff b).1 hset
  obtain ⟨s, hs⟩ := ha.held b ⟨h.shrinks.sb_eq ▸ hin.1, h.shrinks.total_eq ▸ hin.2⟩ hset
  exact ⟨s, hkept s (by rwa [View.ownWith_congr hp, View.ownWith_self hi])⟩

/-- Blocks of the metadata are never given back. -/
theorem RemovedRange.metadata {keep n : Nat} (h : RemovedRange ino keep n v inode w i) (hm : Mapped v ino inode)
    (ha : v.Accounted) {b : Nat} (hb : b < v.sb.dataStart.toNat) : w.bitmap.isSet b = true :=
  (h.shrinks.isSet_iff b).2 ⟨ha.metadata b hb, fun _ ht => absurd (hm.inData ht).1 (Nat.not_le.2 hb)⟩

namespace AlbumFs

variable {parentIno : Nat} {name : String} {fileType : UInt8} {mode : UInt32}

theorem FileMade.accounted (h : FileMade v parentIno name mode ino w) (ha : v.Accounted) : w.Accounted := by
  obtain ⟨-, hino, time, rfl⟩ := h
  refine ha.newFile (View.allocInode_ok hino).2.1 ?_ (pointer_fileInode mode time)
  rw [fileInode, kind_or_permissions]
  decide

theorem DirMade.accounted {time : UInt64} (h : DirMade v parentIno name mode ino time w) (hs : v.Sound)
    (ha : v.Accounted) : w.Accounted := by
  obtain ⟨-, hino, block, payload, hin, hfree, -, rfl⟩ := h
  refine ha.newDirectory hs (View.allocInode_ok hino).2.1 hin hfree (pointer_dirInode mode time block) ?_ ?_ payload
  · rw [dirInode, kind_or_permissions]
    decide
  · rw [show (dirInode mode time block).size = UB64 from rfl, UB64_toNat]
    exact UB_pos

theorem Added.accounted (h : Added v parentIno ino name fileType w) (hs : v.Sound) (ha : v.Accounted) :
    w.Accounted := by
  cases h with
  | @insert parent b payload time hparent hdir hscan =>
    obtain ⟨k, s, -, -, hslot, hown, -, -⟩ := View.scan_some hscan
    have hset := (hs.mapped hparent).grows_setData hown (isLeaf_of_dataSlot hslot).1 payload
    exact ha.grow [] hparent hset (by simp) (Root.pointer_touched parent time)
      (by rw [Inode.mode_touched]) (Nat.le_refl _) (by simp)
  | @grow parent parent' s b v₁ payload time hparent hdir hscan hslot hown hgrows hcontent hput =>
    have hset := hgrows.trans (hgrows.mapped.grows_setData hown (isLeaf_of_dataSlot hslot).1 payload)
    have hlimit : divCeil parent.size.toNat UB < MAX_FILE_BLOCKS :=
      dataSlot_ne_none_iff.1 (by rw [hslot]; exact Option.some_ne_none s)
    have hparentsize := (divCeil_le_iff UB_pos).1 (Nat.le_refl (divCeil parent.size.toNat UB))
    have hsize : divCeil (parent'.grown time).size.toNat UB = divCeil parent.size.toNat UB + 1 := by
      have hlt : parent.size.toNat + UB < 2 ^ 64 := by
        generalize divCeil parent.size.toNat UB = n at hlimit hparentsize
        rw [MAX_FILE_BLOCKS, POINTERS_PER_BLOCK_eq] at hlimit
        rw [UB_eq] at hparentsize ⊢
        omega
      rw [Inode.size_grown, Inode.size_eq hgrows.attributes_eq, UInt64.toNat_add, UB64_toNat, Nat.mod_eq_of_lt hlt,
        divCeil_add_self _ UB_pos]
    refine ha.grow [divCeil parent.size.toNat UB] hparent (by simpa using hset)
      (fun k hk => ?_) (Root.pointer_grown parent' time) ?_ (by omega) fun k hk => ?_
    · rw [List.mem_singleton.1 hk, hslot]
      exact Option.some_ne_none s
    · rw [Inode.mode_grown, Inode.mode_eq hgrows.attributes_eq]
    · rw [List.mem_singleton.1 hk]
      omega

theorem Taken.accounted (h : Taken v parentIno name w) (hs : v.Sound) (ha : v.Accounted) : w.Accounted := by
  cases h with
  | @remove parent b payload time hparent hdir hscan =>
    obtain ⟨k, s, -, -, hslot, hown, -, -⟩ := View.scan_some hscan
    have hset := (hs.mapped hparent).grows_setData hown (isLeaf_of_dataSlot hslot).1 payload
    exact ha.grow [] hparent hset (by simp) (Root.pointer_touched parent time)
      (by rw [Inode.mode_touched]) (Nat.le_refl _) (by simp)

/-- An inode that is dropped gives all its blocks back. -/
theorem Dropped.accounted (h : Dropped v ino inode w) (hs : v.Sound) (ha : v.Accounted)
    (hi : v.inodes ino = some i) (hsame : inode.SameMap i) : w.Accounted := by
  obtain ⟨u, j, hremoved, rfl⟩ := h
  have hm := hs.mapped_congr hi hsame.pointer_eq
  have hself : v.ownWith ino inode = v.ownWith ino i := View.ownWith_congr hsame.pointer_eq
  have hloaded : v.Loaded ino inode := by
    unfold View.Loaded
    rw [hself]
    exact ha.loaded ino i hi
  have hbelow : v.Below ino inode (0 + divCeil inode.size.toNat UB) := by
    unfold View.Below
    rw [hself, hsame.size_eq, Nat.zero_add]
    exact ha.below ino i hi
  have hgone : ∀ t : Slot, t.ino = ino → u.ownWith ino j t = none := fun t ht =>
    (hremoved.own_eq_none_iff hloaded hbelow ht).2 fun _ _ _ _ _ => Nat.zero_le _
  have hown : ∀ t : Slot, t.ino ≠ ino → (u.setInode ino Inode.default).own t = u.ownWith ino j t := by
    intro t ht
    rw [View.own_setInode_default, if_neg ht, View.ownWith_of_ne ht]
  refine ha.of_others (fun t ht => by rw [hown t ht, hremoved.own_of_ne ht]) (fun k hk => ?_) (fun b hb => ?_)
    (fun b hin hset => ?_) fun k hk => ?_
  · rw [View.inodes_setInode, Function.update_of_ne hk, hremoved.shrinks.inodes_eq]
  · exact hremoved.metadata hm ha (hremoved.shrinks.sb_eq ▸ hb)
  · obtain ⟨s, hs⟩ := hremoved.held hi hsame.pointer_eq ha hin hset
    refine ⟨s, (hown s fun hino => ?_).trans hs⟩
    rw [hgone s hino] at hs
    cases hs
  · rw [View.inodes_setInode, Function.update_self, Inode.live_default] at hk
    cases hk

/-- No step of an operation loses a block. -/
theorem Step.accounted (h : Step v w) (hs : v.Sound) (ha : v.Accounted) : w.Accounted := by
  cases h with
  | fileMade h => exact h.accounted ha
  | dirMade h => exact h.accounted hs ha
  | added h => exact h.accounted hs ha
  | taken h => exact h.accounted hs ha
  | dotdot hi hdir hown payload => exact ha.setData hs hown rfl payload
  | attributes hi hsame hmode =>
    exact ha.setInode hs hi hsame.pointer_eq (by rw [hsame.mode_eq]) (by rw [hsame.size_eq])
  | dropped hi hsame h => exact h.accounted hs ha hi hsame

theorem Steps.accounted (h : Steps v w) (hs : v.Sound) (ha : v.Accounted) : w.Accounted := by
  induction h with
  | refl => exact ha
  | tail hsteps hstep ih => exact hstep.accounted (Steps.sound hsteps hs) ih

/-- A `write` that finds room. -/
theorem Written.accounted {offset : UInt64} {data : List UInt8} (h : Written v ino offset data w) (ha : v.Accounted) :
    w.Accounted := by
  obtain ⟨inode, i, u, time, hi, -, hmode, hlt, hwrote, rfl⟩ := h
  have hattributes := hwrote.grows.attributes_eq
  have hsize : (Inode.touched (if offset.toNat + data.length > i.size.toNat then
      { i with size := UInt64.ofNat (offset.toNat + data.length) } else i) time).size.toNat =
      max inode.size.toNat (offset.toNat + data.length) := by
    have hisize : i.size = inode.size := Inode.size_eq hattributes
    split_ifs with hgt
    · rw [Inode.size_touched, UInt64.toNat_ofNat_of_lt' hlt, Nat.max_eq_right (by rw [hisize] at hgt; omega)]
    · rw [Inode.size_touched, hisize, Nat.max_eq_left (by rw [hisize] at hgt; omega)]
  refine ha.grow _ hi hwrote.grows hwrote.inReach (pointer_written _ _ _ _) ?_ ?_ fun k hk => ?_
  · rw [Inode.mode_touched, apply_ite Inode.mode, ite_self, Inode.mode_eq hattributes]
  · rw [hsize]
    exact divCeil_le_divCeil UB_pos (Nat.le_max_left _ _)
  · have hdata : data.length ≠ 0 := by
      intro hzero
      rw [hzero, blocksOver_zero] at hk
      cases hk
    rw [hsize, lt_divCeil_iff UB_pos]
    have hlast := ((mem_blocksOver hdata).1 hk).2
    have hmul := Nat.div_mul_le_self (offset.toNat + data.length - 1) UB
    have hle := Nat.mul_le_mul_right UB hlast
    omega

/-- A successful `truncate`. -/
theorem Truncated.accounted {newSize : UInt64} (h : Truncated v ino newSize w) (hs : v.Sound) (ha : v.Accounted) :
    w.Accounted := by
  obtain ⟨inode, i, u, time, hi, -, hmode, ⟨hlt, v', hremoved, hgrows, -⟩ | ⟨hge, rfl, rfl⟩, rfl⟩ := h
  · have hm := hs.mapped hi
    have hle : divCeil newSize.toNat UB ≤ divCeil inode.size.toNat UB :=
      divCeil_le_divCeil UB_pos (Nat.le_of_lt hlt)
    have hbelow : v.Below ino inode
        (divCeil newSize.toNat UB + (divCeil inode.size.toNat UB - divCeil newSize.toNat UB)) := by
      rw [Nat.add_sub_cancel' hle]
      exact ha.below ino inode hi
    have hloaded := hremoved.loaded (ha.loaded ino inode hi) hbelow
    have hown : u.ownWith ino i = v'.ownWith ino i := funext fun t => hgrows.own_of_not_mem t (by simp)
    have hset : ∀ c, u.bitmap.isSet c = true ↔ v'.bitmap.isSet c = true := fun c => by
      rw [hgrows.isSet_iff]
      simp
    refine ha.store (hgrows.inodes_eq.trans hremoved.shrinks.inodes_eq) (hgrows.sb_eq.trans hremoved.shrinks.sb_eq)
      ?_ (pointer_truncated i newSize time) (fun t ht => by rw [hown, hremoved.own_of_ne ht])
      (fun b hb => (hset b).2 (hremoved.metadata hm ha hb)) (fun b hin hb => ?_)
      (View.loaded_of_exists_leaf fun t ht hheld => ?_) fun k s hk hheld => ?_
    · rw [Inode.mode_touched, Inode.mode_eq hremoved.shrinks.attributes_eq]
      exact ha.kind ino inode hi
    · rw [hown]
      exact hremoved.held hi (fun _ => rfl) ha ⟨hgrows.sb_eq ▸ hin.1, hgrows.total_eq ▸ hin.2⟩ ((hset b).1 hb)
    · rw [hown] at hheld ⊢
      obtain ⟨k, s, hk, habove, hsheld⟩ := hloaded.exists_leaf ht hheld
      exact ⟨s, (isLeaf_of_dataSlot hk).1, habove, hsheld⟩
    · rw [hown, hremoved.own_data hbelow hk] at hheld
      by_contra hnot
      exact hheld (if_neg hnot)
  · exact ha.setInode hs hi (pointer_truncated _ newSize time) rfl (Nat.not_lt.1 hge)

/-! ### Finding room -/

theorem endsOn_addDirEntry_room (hs : v.Sound) (parentIno new : Nat) (name : String) (fileType : UInt8) :
    EndsOn view (addDirEntry parentIno new name fileType) v (fun _ w => Added v parentIno new name fileType w)
      fun e w => e.OutOfRoom ∨ w = v := by
  refine (reads_getattr hs.geometry parentIno).bind_endsOn_except (fun parent hp => ?_) fun _ _ => .inr rfl
  have hi := View.inodes_of_getattr hp
  by_cases hdir : parent.isDir = true
  · simp only [hdir, Bool.not_true, Bool.false_eq_true, if_false]
    by_cases hlong : DirEntry.requiredLen (nameLen name) > UB ∨ nameLen name > 255
    · rw [if_pos hlong]
      exact endsOn_throw (.inr rfl)
    · rw [if_neg hlong]
      refine (endsOn_editDirectory hs hi _ _ _).bind ?_ fun _ _ he => .inr he.2
      rintro inserted w (⟨rfl, hscan, rfl⟩ | ⟨rfl, b, payload, time, hscan, rfl⟩)
      · simp only [Bool.false_eq_true, if_false]
        refine (endsOn_growDirectory hs hi _ new (by omega) fileType).mono ?_ ?_
        · rintro _ w ⟨s, b, v₁, parent', payload, time, hslot, hown, hg, hc, hput, rfl⟩
          exact .grow hi hdir hscan hslot hown hg hc hput
        · rintro e w (⟨he, -⟩ | ⟨-, -, rfl⟩)
          · exact .inl (.inl he)
          · exact .inr rfl
      · simp only [if_true]
        exact endsOn_pure (.insert hi hdir hscan)
  · simp only [hdir, Bool.not_false, if_true]
    exact endsOn_throw (.inr rfl)

theorem endsOn_create_room (hs : v.Sound) (parentIno : Nat) (name : String) (mode : UInt32) :
    EndsOn view (create parentIno name mode) v (fun _ w => Steps v w) fun e w => e.OutOfRoom ∨ Steps v w := by
  refine (reads_lookup hs parentIno name).bind_endsOn_except (fun found hfound => ?_) fun _ _ => .inr .refl
  cases found with
  | some _ => exact endsOn_throw (.inr .refl)
  | none =>
    refine (reads_allocInode hs.geometry).bind_endsOn_except (fun ino hino => ?_) fun _ _ => .inr .refl
    refine endsOn_bind (endsOn_now fun time => ?_)
    refine endsOn_bind (@endsOn_writeInode _ _ (fileInode mode time) hs.geometry (View.allocInode_ok hino).1 _ _ ?_)
    have hmade : FileMade v parentIno name mode ino (v.setInode ino (fileInode mode time)) := ⟨hfound, hino, time, rfl⟩
    have hstep : Steps v (v.setInode ino (fileInode mode time)) := .single (.fileMade hmade)
    refine (endsOn_addDirEntry_room (hmade.sound hs) parentIno ino name FILE_TYPE_FILE).bind (fun _ w hadded => ?_) ?_
    · have hsteps : Steps v w := hstep.tail (.added hadded)
      exact endsOn_bind (endsOn_sync (hsteps.sound hs).geometry (endsOn_pure hsteps) fun _ => .inr hsteps)
    · rintro e w (he | rfl)
      · exact .inl he
      · exact .inr hstep

theorem endsOn_mkdir_room (hs : v.Sound) (parentIno : Nat) (name : String) (mode : UInt32) :
    EndsOn view (mkdir parentIno name mode) v (fun _ w => Steps v w) fun e w => e.OutOfRoom ∨ Steps v w := by
  refine (reads_lookup hs parentIno name).bind_endsOn_except (fun found hfound => ?_) fun _ _ => .inr .refl
  cases found with
  | some _ => exact endsOn_throw (.inr .refl)
  | none =>
    refine (reads_getattr hs.geometry parentIno).bind_endsOn_except (fun parent hparent => ?_) fun _ _ => .inr .refl
    by_cases hpdir : parent.isDir = true
    swap
    · simp only [hpdir, Bool.not_false, if_true]
      exact endsOn_throw (.inr .refl)
    simp only [hpdir, Bool.not_true, Bool.false_eq_true, if_false]
    refine (reads_allocInode hs.geometry).bind_endsOn_except (fun ino hino => ?_) fun _ _ => .inr .refl
    refine endsOn_bind (endsOn_allocateBlock hs.geometry (fun block hin hfree => ?_) fun hall => .inr .refl)
    obtain ⟨payload, hpayload⟩ := initialDirectoryBlock_eq_ok (UInt64.ofNat ino) (UInt64.ofNat parentIno)
    have hg : (v.setBitmap (v.bitmap.set block)).Geometry := hs.geometry.setBitmap (Bitmap.totalBlocks_set _ _)
    refine (reads_ofExcept_ok hpayload).bind_endsOn
      (endsOn_bind (endsOn_writeBlock_bytes (hg.setData _ _) hin (endsOn_bind (endsOn_now fun time => ?_))))
    have hidem : ((v.setBitmap (v.bitmap.set block)).setData block Block.zero).setData block payload =
        (v.setBitmap (v.bitmap.set block)).setData block payload := by
      simp [View.setData]
    rw [hidem]
    refine endsOn_bind (@endsOn_writeInode _ _ (dirInode mode time block) (hg.setData _ _)
      (View.allocInode_ok hino).1 _ _ ?_)
    have hmade : DirMade v parentIno name mode ino time _ := ⟨hfound, hino, block, payload, hin, hfree, hpayload, rfl⟩
    have hstep : Steps v _ := .single (.dirMade hmade)
    refine (endsOn_addDirEntry_room (hmade.sound hs) parentIno ino name FILE_TYPE_DIR).bind (fun _ w hadded => ?_) ?_
    · have hsteps : Steps v w := hstep.tail (.added hadded)
      have hgw := (hsteps.sound hs).geometry
      refine (reads_getattr hgw parentIno).bind_endsOn_except (fun parent' hparent' => ?_) fun _ _ => .inr hsteps
      have hi' := View.inodes_of_getattr hparent'
      refine endsOn_of_live fun hlive => endsOn_bind (endsOn_writeInode hgw (hlive _ _ hi').1 ?_)
      have hdone := hsteps.tail (.attributes hi' (parent'.sameMap_links (parent'.nlink + 1) time time) (hlive _ _ hi').2)
      exact endsOn_bind (endsOn_sync (hgw.setInode _ _) (endsOn_pure hdone) fun _ => .inr hdone)
    · rintro e w (he | rfl)
      · exact .inl he
      · exact .inr hstep

theorem endsOn_rename_room (hs : v.Sound) (parentIno : Nat) (name : String) (newParentIno : Nat) (newName : String) :
    EndsOn view (rename parentIno name newParentIno newName) v (fun _ w => Steps v w)
      fun e w => e.OutOfRoom ∨ Steps v w := by
  unfold rename
  split_ifs with hsame
  · exact endsOn_pure .refl
  refine (reads_lookup hs parentIno name).bind_endsOn_except (fun found hfound => ?_) fun _ _ => .inr .refl
  cases found with
  | none => exact endsOn_throw (.inr .refl)
  | some ino =>
    refine (reads_getattr hs.geometry ino).bind_endsOn_except (fun source hsource => ?_) fun _ _ => .inr .refl
    have hi := View.inodes_of_getattr hsource
    refine (endsOn_replaceTarget hs source ino newParentIno newName).bind ?_ fun _ _ he => .inr he
    rintro proceed u (⟨rfl, hreplaced⟩ | ⟨rfl, -, rfl⟩)
    swap
    · simp only [Bool.false_eq_true, if_false]
      exact endsOn_pure .refl
    simp only [if_true]
    have hsteps := hreplaced.steps
    refine (endsOn_addDirEntry_room (hsteps.sound hs) newParentIno ino newName _).bind ?_ ?_
    · intro _ u₁ hadded
      have hsteps₁ : Steps v u₁ := hsteps.tail (.added hadded)
      refine (endsOn_removeDirEntry (hsteps₁.sound hs) parentIno name).bind ?_ ?_
      · intro _ u₂ htaken
        have hsteps₂ : Steps v u₂ := hsteps₁.tail (.taken htaken)
        have hsound₂ := hsteps₂.sound hs
        obtain ⟨inode, hi₂, hdir, hroots⟩ :=
          (hreplaced.keeps.trans (hadded.keeps.trans htaken.keeps)) source hi
        by_cases hmove : source.isDir ∧ parentIno ≠ newParentIno
        · rw [if_pos hmove]
          refine endsOn_bind ((endsOn_moveDirectory hsound₂ hi₂ (hdir.trans hmove.1)
            (fun b hb => hroots (.direct 0) b hb) parentIno newParentIno).mono ?_
            fun _ _ he => .inr (hsteps₂.trans he))
          rintro _ w ⟨-, hmoved⟩
          have hdone := hsteps₂.trans hmoved
          exact endsOn_sync (Steps.sound hdone hs).geometry hdone fun _ => .inr hdone
        · rw [if_neg hmove]
          exact (reads_pure _ _).bind_endsOn (endsOn_sync hsound₂.geometry hsteps₂ fun _ => .inr hsteps₂)
      · rintro _ w rfl
        exact .inr hsteps₁
    · rintro e w (he | rfl)
      · exact .inl he
      · exact .inr hsteps

/-- A range that cannot be written stops at an allocation. -/
theorem endsOn_writeRange_room (hm : Mapped v ino inode) (position : Nat) (data : List UInt8) :
    EndsOn view (writeRange inode position data) v (fun _ _ => True) fun e _ => e.OutOfRoom := by
  induction hn : data.length using Nat.strong_induction_on generalizing v inode position data with
  | _ n ih =>
    subst hn
    rw [writeRange]
    by_cases hdata : data.length = 0
    · rw [if_pos hdata]
      exact endsOn_pure trivial
    · have hmod := Nat.mod_lt position UB_pos
      rw [if_neg hdata]
      refine (endsOn_bmap hm (position / UB)).bind ?_ ?_
      · rintro ⟨block, i⟩ v₁ ⟨s, b, hs, rfl, hown, hg, -⟩
        have hin := hg.mapped.inData hown
        refine (reads_readBlock hin).bind_endsOn
          (endsOn_bind (endsOn_writeBlock_bytes hg.mapped.geometry hin ?_))
        have hset := hg.mapped.grows_setData hown (isLeaf_of_dataSlot hs).1
        exact ih _ (by rw [List.length_drop]; omega) (hset _).mapped _ _ rfl
      · rintro e w (⟨he, -⟩ | ⟨he, -, -⟩)
        · exact .inl he
        · exact .inr ⟨_, he⟩

theorem endsOn_write_room (hs : v.Sound) (ino : Nat) (offset : UInt64) (data : List UInt8) :
    EndsOn view (write ino offset data) v (fun _ w => Written v ino offset data w)
      fun e w => e.OutOfRoom ∨ w = v ∨ Written v ino offset data w := by
  refine (reads_getattr hs.geometry ino).bind_endsOn_except (fun inode hinode => ?_) fun _ _ => .inr (.inl rfl)
  have hi := View.inodes_of_getattr hinode
  split_ifs with hdir
  · exact endsOn_throw (.inr (.inl rfl))
  unfold checkedAdd
  split_ifs with hlt
  · refine endsOn_of_live fun hlive => ?_
    obtain ⟨hvalid, hmode⟩ := hlive ino inode hi
    refine ((endsOn_writeRange (hs.mapped hi) _ _).and (endsOn_writeRange_room (hs.mapped hi) _ _)).bind ?_
      fun _ _ he => .inl he.2
    rintro i u ⟨hu, -⟩
    have hg := hu.grows.mapped.geometry
    refine endsOn_bind (endsOn_now fun time => endsOn_bind (endsOn_writeInode hg ?_ ?_))
    · rwa [View.ValidIno, hu.grows.sb_eq]
    · have hdone : Written v ino offset data _ := ⟨inode, i, u, time, hi, by simpa using hdir, hmode, hlt, hu, rfl⟩
      exact endsOn_bind (endsOn_sync (hg.setInode _ _) (endsOn_pure hdone) fun _ => .inr (.inr hdone))
  · exact endsOn_throw (.inr (.inl rfl))

end AlbumFs

end Steps

end AlbumFS

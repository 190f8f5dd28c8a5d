import AlbumFS.Ops.Files
import AlbumFS.Space.Obstructed

/-!
# Truncating files on damaged devices

`truncate` releases the blocks behind the new end of a file one after the other, clears the rest of the last
block that is kept, and stores the inode. When it meets a block that it cannot read it returns at once: the
bits of the blocks released so far are cleared, and the stored inode has its old pointers.

## Main definitions

* `View.StopsAt`, `View.LosesRoot`: where `truncate` stops, and that a pointer of the inode is released before.
* `TruncateLeaves`: the views that `truncate` leaves.

## Main results

* `AlbumFs.endsOn_truncate_damaged`: what `truncate` does on a damaged device.
-/

namespace AlbumFS

open BlockTree Ownership Prog

namespace View

/-- The rest of the last block that is kept cannot be cleared: a pointer block on the way to it or the block
itself cannot be read. -/
def TailDamaged (v : View) (faults : Nat → Option FsError) (ino : Nat) (inode : Inode) (newSize : Nat) :
    Prop :=
  newSize % UB ≠ 0 ∧ ∃ s, dataSlot ino (newSize / UB) = some s ∧
    ∃ t b, t.Above s ∧ v.ownWith ino inode t = some b ∧ faults b ≠ none

/-- Truncating a file to `newSize` bytes stops before the block numbered `stop`, or behind its last block
when the rest of the last kept block cannot be cleared. -/
def StopsAt (v : View) (faults : Nat → Option FsError) (ino : Nat) (inode : Inode) (newSize : UInt64)
    (stop : Nat) : Prop :=
  divCeil newSize.toNat UB ≤ stop ∧
    (∀ k, divCeil newSize.toNat UB ≤ k → k < stop → ¬v.Obstructed faults ino inode k) ∧
    (stop < divCeil inode.size.toNat UB ∧ v.Obstructed faults ino inode stop ∨
      stop = divCeil inode.size.toNat UB ∧ v.TailDamaged faults ino inode newSize.toNat)

/-- Truncating the file stops, and a pointer of the inode names a block that has been released before:
everything below the pointer lies between the new end and the place of the stop. -/
def LosesRoot (v : View) (faults : Nat → Option FsError) (ino : Nat) (inode : Inode) (newSize : UInt64) :
    Prop :=
  newSize < inode.size ∧ faults (AlbumFs.tableBlock v.sb ino) = none ∧
    ∃ stop, v.StopsAt faults ino inode newSize stop ∧ ∃ r : Root,
      v.ownWith ino inode (Slot.top ino r) ≠ none ∧
      Emptied v ino inode (divCeil newSize.toNat UB) (stop - divCeil newSize.toNat UB) r

variable {v : View} {faults : Nat → Option FsError} {ino : Nat} {inode : Inode} {newSize : UInt64}

/-- There is one place to stop. -/
theorem StopsAt.unique {stop stop' : Nat} (h : v.StopsAt faults ino inode newSize stop)
    (h' : v.StopsAt faults ino inode newSize stop') : stop = stop' := by
  obtain ⟨hge, hbefore, hstop⟩ := h
  obtain ⟨hge', hbefore', hstop'⟩ := h'
  rcases Nat.lt_trichotomy stop stop' with hlt | heq | hgt
  · rcases hstop with ⟨-, hobstructed⟩ | ⟨heq, -⟩
    · exact absurd hobstructed (hbefore' stop hge hlt)
    · rcases hstop' with ⟨hlt', -⟩ | ⟨heq', -⟩ <;> omega
  · exact heq
  · rcases hstop' with ⟨-, hobstructed⟩ | ⟨heq, -⟩
    · exact absurd hobstructed (hbefore stop' hge' hgt)
    · rcases hstop with ⟨hlt', -⟩ | ⟨heq', -⟩ <;> omega

end View

/-- What `truncate` leaves on a damaged device: a sound view, or the view in which it has stopped. -/
def TruncateLeaves (v : View) (faults : Nat → Option FsError) (ino : Nat) (inode : Inode) (newSize : UInt64)
    (w : View) : Prop :=
  (w.Sound ∧ ¬v.LosesRoot faults ino inode newSize) ∨
    ∃ stop i, newSize < inode.size ∧ faults (AlbumFs.tableBlock v.sb ino) = none ∧
      v.StopsAt faults ino inode newSize stop ∧
      Cleared ino (divCeil newSize.toNat UB) (stop - divCeil newSize.toNat UB) v inode w i

theorem TruncateLeaves.geometry {v w : View} {faults : Nat → Option FsError} {ino : Nat} {inode : Inode}
    {newSize : UInt64} (h : TruncateLeaves v faults ino inode newSize w) : w.Geometry := by
  rcases h with ⟨hsound, -⟩ | ⟨stop, i, -, -, -, hcleared⟩
  · exact hsound.geometry
  · exact hcleared.1.shrinks.geometry

namespace AlbumFs

variable {v : View} {faults : Nat → Option FsError} {ino : Nat} {inode : Inode}

/-! ### Reading and storing the inode -/

theorem linkedAt_readInode (hg : v.Geometry) (hino : v.ValidIno ino)
    (hread : faults (tableBlock v.sb ino) = none) {fs : AlbumFs Damaged} (hfs : fs.survey = (v, faults)) :
    LinkedAt (Holds faults) (readInode ino : FsM Damaged Inode) (readInode ino) fs fs.repaired := by
  obtain ⟨rfl, rfl⟩ := Prod.mk.inj hfs
  have htotal := Nat.lt_trans (tableBlock_lt hg hino) hg.dataStart_lt
  have hloc := inodeLocation_of_valid hg hino
  refine LinkedAt.bind_reads (exec_gets _ _) (exec_gets _ _) ?_
  refine LinkedAt.bind_reads (a := (tableBlock fs.sb ino, tableOffset ino)) ?_ ?_ ?_
  · exact congrArg (·, fs) hloc
  · exact congrArg (·, fs.repaired) hloc
  refine LinkedAt.bind_reads (exec_readBlock_intact hread htotal) (exec_readBlock htotal) ?_
  exact (linked_ofExcept fun _ _ => trivial).linkedAt ⟨rfl, rfl⟩

theorem linkedAt_getattr (hg : v.Geometry) (hino : v.ValidIno ino)
    (hread : faults (tableBlock v.sb ino) = none) {fs : AlbumFs Damaged} (hfs : fs.survey = (v, faults)) :
    LinkedAt (Holds faults) (getattr ino : FsM Damaged Inode) (getattr ino) fs fs.repaired := by
  refine (linkedAt_readInode hg hino hread hfs).bind fun inode => ?_
  split_ifs
  · exact linked_throw _
  · exact linked_pure trivial

/-- An inode in a damaged block of the table cannot be read. -/
theorem reads_getattr_damaged (hg : v.Geometry) (hino : v.ValidIno ino) {e : FsError}
    (hfault : faults (tableBlock v.sb ino) = some e) :
    Reads survey (getattr ino) (v, faults) (.error e) := by
  refine Reads.bind_error ?_
  refine (reads_gets fun fs hfs => congrArg View.sb (congrArg Prod.fst hfs)).bind ?_
  rw [inodeLocation_of_valid hg hino]
  exact (reads_ofExcept _ _).bind (reads_readBlock_damaged hfault).bind_error

theorem linkedAt_writeInode (hg : v.Geometry) (hino : v.ValidIno ino)
    (hread : faults (tableBlock v.sb ino) = none) {fs : AlbumFs Damaged} (hfs : fs.survey = (v, faults)) :
    LinkedAt (Holds faults) (writeInode ino inode : FsM Damaged Unit) (writeInode ino inode) fs
      fs.repaired := by
  obtain ⟨rfl, rfl⟩ := Prod.mk.inj hfs
  have htotal := Nat.lt_trans (tableBlock_lt hg hino) hg.dataStart_lt
  have hloc := inodeLocation_of_valid hg hino
  refine LinkedAt.bind_reads (exec_gets _ _) (exec_gets _ _) ?_
  refine LinkedAt.bind_reads (a := (tableBlock fs.sb ino, tableOffset ino)) ?_ ?_ ?_
  · exact congrArg (·, fs) hloc
  · exact congrArg (·, fs.repaired) hloc
  refine LinkedAt.bind_reads (exec_readBlock_intact hread htotal) (exec_readBlock htotal) ?_
  exact (linked_writeBlock _ _).linkedAt ⟨rfl, rfl⟩

/-- The inode is stored with the time, and the bitmap after it. -/
theorem endsOn_storeInode_damaged (hg : v.Geometry) (hino : v.ValidIno ino)
    (hread : faults (tableBlock v.sb ino) = none) (store : UInt64 → Inode) {P : View → Prop}
    (hP : ∀ time, P (v.setInode ino (store time))) :
    EndsOn survey (do
        let time ← now
        writeInode ino (store time)
        sync : FsM Damaged Unit) (v, faults)
      (fun _ w => ∃ u, w = (u, faults) ∧ P u) fun _ w => ∃ u, w = (u, faults) ∧ P u := by
  refine (endsOn_survey_of_linked linked_now (endsOn_now (Q := fun _ u => u = v) (E := fun _ _ => False)
    fun _ => rfl)).bind ?_ (by rintro _ _ ⟨_, _, hf⟩; exact hf.elim)
  rintro time _ ⟨u, rfl, hu⟩
  rw [hu]
  refine (endsOn_survey (fun fs hfs => linkedAt_writeInode hg hino hread hfs) (endsOn_writeInode hg hino
    (Q := fun _ u => u = v.setInode ino (store time)) (E := fun _ _ => False) rfl)).bind ?_
    (by rintro _ _ ⟨_, _, hf⟩; exact hf.elim)
  rintro _ _ ⟨w, rfl, hw⟩
  rw [hw]
  exact endsOn_survey_of_linked linked_sync (endsOn_sync (hg.setInode _ _) (hP time) fun _ => hP time)

/-! ### Clearing the rest of the last block -/

theorem divCeil_sub_one {n : Nat} (h : n % UB ≠ 0) : divCeil n UB - 1 = n / UB := by
  rw [(divCeil_of_mod_ne h).1, Nat.add_sub_cancel]

/-- The rest of the last block is cleared when nothing on the way to it is damaged. -/
theorem linkedAt_zeroTail (h : Mapped v ino inode) {newSize : Nat}
    (hclear : ¬v.TailDamaged faults ino inode newSize) {fs : AlbumFs Damaged}
    (hfs : fs.survey = (v, faults)) :
    LinkedAt (Holds faults) (zeroTail inode newSize : FsM Damaged Unit) (zeroTail inode newSize) fs
      fs.repaired := by
  have hholds : Holds faults fs fs.repaired := ⟨rfl, congrArg Prod.snd hfs⟩
  have hview : fs.repaired.view = v := congrArg Prod.fst hfs
  unfold zeroTail
  by_cases htail : newSize % UB = 0
  · simp only [htail, ne_eq, not_true, if_false]
    exact (linked_pure trivial).linkedAt hholds
  simp only [ne_eq, htail, not_false_iff, if_true, divCeil_sub_one htail]
  have hintact : ¬v.Obstructed faults ino inode (newSize / UB) := by
    rintro ⟨s, hs, t, b, ha, -, hown, hfault⟩
    exact hclear ⟨htail, s, hs, t, b, ha, hown, hfault⟩
  have hr := reads_bmap_intact h hintact
  have hr' := reads_bmap h (newSize / UB)
  cases hs : dataSlot ino (newSize / UB) with
  | none =>
    rw [hs] at hr hr'
    constructor
    · rw [hr.bind_error fs hfs, hr'.bind_error _ hview]
    · rw [hr.bind_error fs hfs, hr'.bind_error _ hview]
      exact hholds
  | some s =>
    rw [hs] at hr hr'
    refine LinkedAt.bind_reads (hr fs hfs) (hr' _ hview) ?_
    dsimp only
    cases hown : v.ownWith ino inode s with
    | none => exact (linked_pure trivial).linkedAt hholds
    | some b =>
      have hread : faults b = none := by
        by_contra hfault
        exact hclear ⟨htail, s, hs, s, b, Place.Above.refl _, hown, hfault⟩
      refine LinkedAt.bind_reads (reads_readBlock_intact (h.inData hown) hread fs hfs)
        (reads_readBlock (h.inData hown) _ hview) ?_
      exact (linked_writeBlock _ _).linkedAt hholds

/-- It is not cleared when something is damaged. -/
theorem reads_zeroTail_damaged (h : Mapped v ino inode) {newSize : Nat}
    (hdamaged : v.TailDamaged faults ino inode newSize) :
    ∃ e, Reads survey (zeroTail inode newSize) (v, faults) (.error e) := by
  obtain ⟨htail, s, hs, t, b, ha, hown, hfault⟩ := hdamaged
  unfold zeroTail
  simp only [ne_eq, htail, not_false_iff, if_true, divCeil_sub_one htail]
  by_cases hobstructed : v.Obstructed faults ino inode (newSize / UB)
  · obtain ⟨e, hreads⟩ := reads_bmap_obstructed h hobstructed
    exact ⟨e, hreads.bind_error⟩
  · have hts : t = s := by
      by_contra hne
      exact hobstructed ⟨s, hs, t, b, ha, hne, hown, hfault⟩
    subst hts
    have hr := reads_bmap_intact h hobstructed
    simp only [hs, hown] at hr
    obtain ⟨e, he⟩ := Option.ne_none_iff_exists'.1 hfault
    exact ⟨e, hr.bind (reads_readBlock_damaged he).bind_error⟩

/-! ### Truncating -/

/-- Releasing blocks damages nothing about the block that is kept. -/
theorem tailDamaged_iff {u : View} {i : Inode} {start n newSize : Nat}
    (h : RemovedRange ino start n v inode u i)
    (hclear : ∀ k, start ≤ k → k < start + n → ¬v.Obstructed faults ino inode k)
    (hstart : newSize % UB ≠ 0 → newSize / UB < start) :
    u.TailDamaged faults ino i newSize ↔ v.TailDamaged faults ino inode newSize := by
  refine and_congr_right fun htail => ?_
  constructor
  · rintro ⟨s, hs, t, b, ha, hown, hfault⟩
    exact ⟨s, hs, t, b, ha, h.shrinks.sub _ _ hown, hfault⟩
  · rintro ⟨s, hs, t, b, ha, hown, hfault⟩
    refine ⟨s, hs, t, b, ha, ?_, hfault⟩
    by_cases hleaf : t.IsLeaf
    · obtain rfl := ha.eq_of_isLeaf hleaf
      rw [h.kept_leaf hleaf fun _ => ?_, hown]
      rw [index_of_dataSlot hs]
      have := hstart htail
      omega
    · exact kept_of_damaged (P := fun k => start ≤ k ∧ k < start + n)
        (fun t ht => h.kept t fun k hge hlt => ht k ⟨hge, hlt⟩) (fun k hk => hclear k hk.1 hk.2)
        hleaf hown hfault

/-- What `truncate` does on a damaged device. -/
theorem endsOn_truncate_damaged (h : v.Sound) (hi : v.inodes ino = some inode)
    (hdir : inode.isDir = false) (faults : Nat → Option FsError) (newSize : UInt64) (hino : v.ValidIno ino)
    (hmode : inode.mode ≠ 0) :
    EndsOn survey (truncate ino newSize) (v, faults)
      (fun _ w => ∃ u, w = (u, faults) ∧ TruncateLeaves v faults ino inode newSize u)
      fun _ w => ∃ u, w = (u, faults) ∧ TruncateLeaves v faults ino inode newSize u := by
  have hm := h.mapped hi
  cases hread : faults (tableBlock v.sb ino) with
  | some e =>
    refine ((reads_getattr_damaged h.geometry hino hread).bind_error).endsOn (by simp) fun _ _ => ?_
    refine ⟨v, rfl, .inl ⟨h, ?_⟩⟩
    rintro ⟨-, hnone, -⟩
    rw [hread] at hnone
    cases hnone
  | none =>
    have hget := reads_survey (fun fs hfs => linkedAt_getattr h.geometry hino hread hfs)
      (reads_getattr h.geometry ino)
    rw [View.getattr_of_some hi] at hget
    refine hget.bind_endsOn ?_
    rw [if_neg (by rw [hdir]; exact Bool.false_ne_true)]
    by_cases hlt : newSize < inode.size
    · rw [if_pos hlt]
      dsimp only
      by_cases hreach : newSize.toNat % UB ≠ 0 ∧ dataSlot ino (newSize.toNat / UB) = none
      · -- The last block lies beyond the reach of the pointers, and so do the blocks behind it.
        have hnone : ∀ k, divCeil newSize.toNat UB ≤ k → dataSlot ino k = none := by
          intro k hk
          have hnone := hreach.2
          rw [dataSlot_eq_none_iff] at hnone ⊢
          have := divCeil_sub_one hreach.1
          omega
        have hintact : ¬v.Obstructed faults ino inode (newSize.toNat / UB) := by
          rintro ⟨s, hs, -⟩
          rw [hreach.2] at hs
          cases hs
        have hr := reads_bmap_intact hm hintact
        rw [hreach.2] at hr
        have hzero : Reads survey (zeroTail inode newSize.toNat) (v, faults)
            (.error (.badBlock (newSize.toNat / UB))) := by
          unfold zeroTail
          simp only [ne_eq, hreach.1, not_false_iff, if_true, divCeil_sub_one hreach.1]
          exact hr.bind_error
        rw [removeMappedBlocks_of_none (hnone _ (Nat.le_refl _))]
        refine ((reads_pure inode _).bind hzero.bind_error).bind_error.endsOn (by simp) fun _ _ => ?_
        refine ⟨v, rfl, .inl ⟨h, ?_⟩⟩
        rintro ⟨-, -, stop, -, r, hheld, -, hbelow⟩
        obtain ⟨k, hge, -, s, hs, -⟩ := hbelow _ (Place.Above.refl _) hheld
        rw [hnone k hge] at hs
        cases hs
      refine endsOn_bind (endsOn_bind ((endsOn_removeMappedBlocks_damaged hm faults _ _).mono ?_ ?_))
      · rintro i _ ⟨u, rfl, hclear, hcleared⟩
        have hle : divCeil newSize.toNat UB ≤ divCeil inode.size.toNat UB := by
          refine (divCeil_le_iff UB_pos).2 ((Nat.le_of_lt hlt).trans ?_)
          exact (divCeil_le_iff UB_pos).1 (Nat.le_refl _)
        have hclear' : ∀ k, divCeil newSize.toNat UB ≤ k → k < divCeil inode.size.toNat UB →
            ¬v.Obstructed faults ino inode k := fun k hge hk => hclear k hge (by omega)
        have hshrinks := hcleared.1.shrinks
        have htail : u.TailDamaged faults ino i newSize.toNat ↔
            v.TailDamaged faults ino inode newSize.toNat := by
          refine tailDamaged_iff hcleared.1 hclear fun hmod => ?_
          rw [(divCeil_of_mod_ne hmod).1]
          exact Nat.lt_succ_self _
        by_cases hdamaged : v.TailDamaged faults ino inode newSize.toNat
        · obtain ⟨e, hzero⟩ := reads_zeroTail_damaged (hshrinks.mapped hm) (htail.2 hdamaged)
          refine hzero.bind_error.endsOn (by simp) fun _ _ => ?_
          exact ⟨u, rfl, .inr ⟨_, i, hlt, hread, ⟨hle, hclear', .inr ⟨rfl, hdamaged⟩⟩, hcleared⟩⟩
        · have hsafe : ¬v.LosesRoot faults ino inode newSize := by
            rintro ⟨-, -, stop, ⟨hge, -, ⟨hstop, hobstructed⟩ | ⟨-, hdamaged'⟩⟩, -⟩
            · exact hclear' stop hge hstop hobstructed
            · exact hdamaged hdamaged'
          refine endsOn_bind ((endsOn_survey (fun fs hfs => linkedAt_zeroTail (hshrinks.mapped hm)
            (fun hu => hdamaged (htail.1 hu)) hfs) (endsOn_zeroTail (hshrinks.mapped hm)
            fun hmod hnone => hreach ⟨hmod, hnone⟩)).mono ?_ (by rintro _ _ ⟨_, _, hf⟩; exact hf.elim))
          rintro _ _ ⟨w, rfl, hgrows, -⟩
          refine endsOn_pure ?_
          refine endsOn_storeInode_damaged hgrows.mapped.geometry ?_ ?_
            (fun time => { i with size := newSize, mtime := time, ctime := time }) fun time => .inl ⟨?_, hsafe⟩
          · rwa [View.ValidIno, hgrows.sb_eq, hshrinks.sb_eq]
          · rwa [hgrows.sb_eq, hshrinks.sb_eq]
          · refine hgrows.sound_store (pointer_truncated i newSize time) ?_
            exact (Inode.mode_eq hshrinks.attributes_eq).trans_ne hmode
      · rintro e _ ⟨u, i, m, rfl, hm', hobstructed, hclear, hcleared⟩
        refine ⟨u, rfl, .inr ⟨divCeil newSize.toNat UB + m, i, hlt, hread,
          ⟨Nat.le_add_right _ _, hclear, .inl ⟨by omega, hobstructed⟩⟩, ?_⟩⟩
        rwa [Nat.add_sub_cancel_left]
    · rw [if_neg hlt]
      refine (reads_pure inode (v, faults)).bind_endsOn ?_
      refine endsOn_storeInode_damaged h.geometry hino hread
        (fun time => { inode with size := newSize, mtime := time, ctime := time })
        fun time => .inl ⟨?_, fun hloses => hlt hloses.1⟩
      exact hm.sound (pointer_truncated inode newSize time) hmode

end AlbumFs

end AlbumFS

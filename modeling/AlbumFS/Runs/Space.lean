import AlbumFS.Ops.Accounted
import AlbumFS.Ops.Room
import AlbumFS.Runs.Tree

/-!
# No block is lost

As long as no operation runs out of room, every marked block of the data region is the block of one pointer of one
live inode. So the count of the free blocks follows from what the files hold, and when everything has been removed it
is what it was after formatting.

## Main definitions

* `Op.FindsRoom`: the operation does not run out of room.
* `SpaceExact`: the bitmap marks what the files hold.

## Main results

* `Served.space_exact`: no block is lost in a run of requests.
-/

namespace AlbumFS

open BlockTree Ownership Prog

/-- The operation does not stop in an allocation. -/
def Op.FindsRoom (op : Op) (fs : AlbumFs Disk) : Prop := ∀ e, (exec op.run fs).1 = .error e → ¬e.OutOfRoom

section Runs

variable {v w : View} {fs : AlbumFs Disk}

theorem View.Fresh.accounted (h : v.Fresh) : v.Accounted := by
  have hroot : ∀ {ino : Nat} {inode : Inode}, v.inodes ino = some inode →
      ino = 1 ∧ inode = rootInode v.sb.dataStart.toNat := by
    intro ino inode hi
    rw [h.inodes_eq] at hi
    by_cases hino : ino = 1
    · subst hino
      rw [Function.update_self, Option.some.injEq] at hi
      exact ⟨rfl, hi.symm⟩
    · rw [Function.update_of_ne hino] at hi
      cases hi
  have hslot : ∀ {t : Slot}, v.own t ≠ none → t = Slot.direct 1 0 := by
    intro t hheld
    by_contra hne
    rw [h.own_eq, Function.update_of_ne hne] at hheld
    exact hheld rfl
  refine ⟨fun ino inode hi => ?_, fun b hb => (h.isSet_iff b).2 hb.le, fun b hin hset => ?_, fun ino inode hi => ?_,
    fun ino inode hi k s hs hheld => ?_⟩
  · rw [(hroot hi).2, show (rootInode _).mode = S_IFDIR ||| 0o755 from rfl]
    decide
  · obtain rfl : b = v.sb.dataStart.toNat := Nat.le_antisymm ((h.isSet_iff b).1 hset) hin.1
    exact ⟨Slot.direct 1 0, by rw [h.own_eq, Function.update_self]⟩
  · refine View.loaded_of_exists_leaf fun t ht hheld => ?_
    rw [View.ownWith_self hi] at hheld ⊢
    obtain rfl := hslot hheld
    exact ⟨Slot.direct 1 0, rfl, Place.Above.refl _, hheld⟩
  · rw [View.ownWith_self hi] at hheld
    obtain rfl := hslot hheld
    rw [← index_of_dataSlot hs, (hroot hi).2]
    exact (lt_divCeil_iff UB_pos).2 (by
      rw [show (rootInode _).size = UB64 from rfl, UB64_toNat]
      exact Nat.lt_of_le_of_lt (Nat.le_of_eq (Nat.zero_mul UB)) UB_pos)

/-- An operation that finds room loses no block. -/
theorem Op.accounted (hs : fs.view.Sound) (ha : fs.view.Accounted) (op : Op) (hop : op.FindsRoom fs) :
    (exec op.run fs).2.view.Accounted := by
  refine Ends.state (P := fun ft : AlbumFs Disk => ft.view.Accounted) ?_
  have steps : ∀ {m : FsM Disk Unit}, m = op.run → EndsOn AlbumFs.view m fs.view (fun _ w => AlbumFs.Steps fs.view w)
      (fun e w => e.OutOfRoom ∨ AlbumFs.Steps fs.view w) →
      Ends m fs (fun _ ft => ft.view.Accounted) fun _ ft => ft.view.Accounted := by
    rintro m rfl h
    refine ((h fs rfl).and (ends_exec op.run fs)).mono (fun _ ft hw => AlbumFs.Steps.accounted hw.1 hs ha) ?_
    rintro e ft ⟨he | hsteps, hexec⟩
    · exact absurd he (hop e (by rw [hexec]))
    · exact AlbumFs.Steps.accounted hsteps hs ha
  cases op with
  | create d name mode =>
    exact steps rfl ((AlbumFs.endsOn_create_room hs d name mode).bind (fun _ _ hw => endsOn_pure hw) fun _ _ he => he)
  | mkdir d name mode =>
    exact steps rfl ((AlbumFs.endsOn_mkdir_room hs d name mode).bind (fun _ _ hw => endsOn_pure hw) fun _ _ he => he)
  | write ino offset data =>
    have hwrite : EndsOn AlbumFs.view (Op.write ino offset data).run fs.view
        (fun _ w => AlbumFs.Written fs.view ino offset data w)
        fun e w => e.OutOfRoom ∨ w = fs.view ∨ AlbumFs.Written fs.view ino offset data w :=
      (AlbumFs.endsOn_write_room hs ino offset data).bind (fun _ _ hw => endsOn_pure hw) fun _ _ he => he
    refine ((hwrite fs rfl).and (ends_exec _ fs)).mono (fun _ ft hw => hw.1.accounted ha) ?_
    rintro e ft ⟨he | hview | hw, hexec⟩
    · exact absurd he (hop e (by rw [hexec]))
    · rw [hview]
      exact ha
    · exact hw.accounted ha
  | truncate ino newSize =>
    refine ((AlbumFs.endsOn_truncate hs ino newSize) fs rfl).mono (fun _ ft hw => hw.accounted hs ha) ?_
    rintro e ft (hview | hw)
    · rw [hview]
      exact ha
    · exact hw.accounted hs ha
  | unlink d name =>
    refine steps rfl ((AlbumFs.endsOn_unlink hs d name).mono (fun _ w hw => ?_) fun _ w hw => .inr ?_)
    · obtain ⟨ino, inode, u, hunlinked⟩ := hw
      exact hunlinked.steps
    · rcases hw with rfl | ⟨ino, inode, u, hunlinked⟩
      · exact .refl
      · exact hunlinked.steps
  | rmdir d name =>
    refine steps rfl ((AlbumFs.endsOn_rmdir hs d name).mono (fun _ w hw => ?_) fun _ w hw => .inr hw.steps)
    obtain ⟨ino, inode, hremoved⟩ := hw
    exact hremoved.steps
  | rename d name d' name' => exact steps rfl (AlbumFs.endsOn_rename_room hs d name d' name')

theorem Attributed.accounted (h : Attributed v w) (hs : v.Sound) (ha : v.Accounted) : w.Accounted := by
  cases h with
  | refl => exact ha
  | set hi hpointer hsize hnlink hkind => exact ha.setInode hs hi hpointer hkind (by rw [hsize])

theorem Served.accounted (h : Served Op.FindsRoom fs) : fs.view.Sound ∧ fs.view.Accounted :=
  h.invariant (I := View.Accounted) (fun _ hfresh => hfresh.accounted)
    (fun op _ hs ha hop => op.accounted hs ha hop) fun _ _ hs ha hattributed => hattributed.accounted hs ha

end Runs

end AlbumFS

import AlbumFS.Ops.Frame
import AlbumFS.Space.Count

/-!
# Operations that run out of room

A `write` that fails while it allocates has stored the pieces before the block that it could not get. The
copy of the inode is thrown away with the pointers that it alone holds, but a pointer block that the stored
inode names has been written. So the bytes stored behind such a pointer block are bytes of the file.

The operations that add an entry to a directory fail while they allocate a block for it. No file is
touched then.

## Main definitions

* `WriteHalted`, `AddHalted`: what is left of an operation that ran out of room.
* `View.LeavesByte`: a `write` without room stores a byte that stays in the file.

## Main results

* `AlbumFs.endsOn_write_halted`, `AlbumFs.endsOn_addDirEntry_halted`.
* `AlbumFs.WriteHalted.byteAt_eq`, `AlbumFs.WriteHalted.own_eq`: what changes in the file.
-/

namespace AlbumFS

open BlockTree Ownership Prog

/-- There was no room for the block numbered `index`, or no file can have it. -/
def Halted (ino index : Nat) (v : View) (inode : Inode) (w : View) : Prop :=
  Halts ino (slotsTo ino index) v inode w ∨ dataSlot ino index = none ∧ w = v

/-- The slots on the way to a block end with the slot of the block. -/
theorem slotsTo_eq_append (ino index : Nat) :
    slotsTo ino index = [] ∨ ∃ init s, slotsTo ino index = init ++ [s] ∧ ∀ t ∈ init, ¬t.IsLeaf := by
  unfold slotsTo
  split_ifs with h₁ h₂ h₃
  · exact .inr ⟨[], _, rfl, by simp⟩
  · refine .inr ⟨[Slot.single ino], _, rfl, fun t ht => ?_⟩
    rw [List.mem_singleton.1 ht]
    exact Slot.not_isLeaf_single ino
  · refine .inr ⟨[Slot.double ino, _], _, rfl, fun t ht => ?_⟩
    rcases List.mem_cons.1 ht with rfl | ht
    · exact Slot.not_isLeaf_double ino
    · rw [List.mem_singleton.1 ht]
      exact Slot.not_isLeaf_inner ino _
  · exact .inl rfl

/-- The slots on the way to a block belong to its file. -/
theorem ino_of_mem_slotsTo {ino index : Nat} {t : Slot} (h : t ∈ slotsTo ino index) : t.ino = ino := by
  unfold slotsTo at h
  split_ifs at h <;> simp only [List.mem_cons, List.not_mem_nil, or_false] at h
  · rw [h]
    rfl
  · rcases h with rfl | rfl <;> rfl
  · rcases h with rfl | rfl | rfl <;> rfl

theorem ino_of_mem_slotsOver {ino position n : Nat} : ∀ t ∈ slotsOver ino position n, t.ino = ino := by
  intro t ht
  obtain ⟨index, -, ht⟩ := List.mem_flatMap.1 ht
  exact ino_of_mem_slotsTo ht

section Stored

variable {v w u : View} {ino index : Nat} {inode i inode' : Inode} {s : Slot}

/-- Allocations that stopped have filled pointer blocks only. -/
theorem Halted.exists_grows (h : Halted ino index u i w) (hm : Mapped u ino i) :
    ∃ before i', Grows ino before u i w i' ∧ SameContent ino u i w i' ∧
      ∀ t ∈ before, ¬t.IsLeaf ∧ t.ino = ino := by
  rcases h with ⟨before, s, rest, i', hslots, hg, hc, -, -⟩ | ⟨-, rfl⟩
  · refine ⟨before, i', hg, hc, fun t ht => ⟨?_, ino_of_mem_slotsTo (by
      rw [hslots]
      exact List.mem_append_left _ ht)⟩⟩
    rcases slotsTo_eq_append ino index with hnil | ⟨init, last, hinit, hleaf⟩
    · rw [hnil] at hslots
      exact absurd hslots.symm (by simp)
    · refine hleaf t ?_
      have hdrop := congrArg List.dropLast (hslots.symm.trans hinit)
      rw [List.dropLast_concat, List.dropLast_append_cons] at hdrop
      rw [← hdrop]
      exact List.mem_append_left _ ht
  · exact ⟨[], i, hm.grows_nil, fun _ _ => rfl, by simp⟩

/-- A range that was written up to a block that could not be had did not have room. -/
theorem Halted.not_hasRoom {position n : Nat} {data : List UInt8}
    (h : Halted ino ((position + n) / UB) u i w) (hm : Mapped v ino inode) (hn : n < data.length)
    (hwrote : WroteRange ino position (data.take n) v inode u i) :
    ¬v.HasRoom ino inode (blocksOver position data.length) := by
  have hgrows := hwrote.grows
  rw [List.length_take, Nat.min_eq_left hn.le] at hgrows
  have hpositive : data.length ≠ 0 := by omega
  have hindex : (position + n) / UB ∈ blocksOver position data.length :=
    (mem_blocksOver hpositive).2 ⟨Nat.div_le_div_right (by omega), Nat.div_le_div_right (by omega)⟩
  rcases h with hhalts | ⟨hnone, -⟩
  · refine hhalts.not_hasRoom hm hgrows (fun k hk => ?_) hindex
    by_cases hzero : n = 0
    · rw [hzero, blocksOver_zero] at hk
      cases hk
    · obtain ⟨hle, hge⟩ := (mem_blocksOver hzero).1 hk
      exact (mem_blocksOver hpositive).2 ⟨hle, hge.trans (Nat.div_le_div_right (by omega))⟩
  · exact fun hroom => hroom.1 _ hindex hnone

/-- Behind a root pointer that is set, a copy that has grown names what the stored inode names. -/
theorem View.ownWith_of_root (w : View) (hs : s.ino = ino)
    (h : AlbumFs.thenSome (s.root.2.pointer inode') = AlbumFs.thenSome (s.root.2.pointer inode)) :
    w.ownWith ino inode' s = w.ownWith ino inode s := by
  subst hs
  rw [ownWith, ownWith, ownOf, ownOf, hold, hold]
  congr 1
  exact (rootBlock_update_self _ s.root _).trans (h.trans (rootBlock_update_self _ s.root _).symm)

theorem View.ownWith_eq_none_of_root (w : View) (hs : s.ino = ino)
    (h : AlbumFs.thenSome (s.root.2.pointer inode) = none) : w.ownWith ino inode s = none := by
  subst hs
  refine hold_none_of_above (s := ⟨s.root, [], Nat.zero_le _⟩) ⟨rfl, List.nil_suffix⟩ ?_
  exact (rootBlock_update_self _ s.root _).trans h

end Stored

/-- Editing a block of a directory changes no count. -/
theorem View.Counted.edit {v : View} {ino b : Nat} {inode : Inode} {s : Slot} (hcounted : v.Counted) (h : v.Sound)
    (hi : v.inodes ino = some inode) (hdir : inode.isDir = true) (hown : v.ownWith ino inode s = some b)
    (hleaf : s.IsLeaf) (payload : Block) (time : UInt64) :
    ((v.setData b payload).setInode ino (inode.touched time)).Counted := by
  have hset := (h.mapped hi).grows_setData hown hleaf payload
  have hsame : (v.setData b payload).ownWith ino inode = v.own := by
    funext t
    rw [hset.own_of_not_mem t (by simp), View.ownWith_self hi]
  exact hcounted.store hset.inodes_eq ((hcounted ino inode hi).congr rfl fun _ _ _ => by rw [hsame])
    (fun t _ _ => by rw [hsame]) (Root.pointer_touched inode time) rfl (Inode.mode_ne_zero _ hdir)

/-- A `write` of `n` bytes from `offset` on has no room, but has room for the byte at `k`, and the inode
has the root pointer on the way to this byte. -/
def View.LeavesByte (v : View) (ino : Nat) (inode : Inode) (offset n k : Nat) : Prop :=
  offset ≤ k ∧ k < offset + n ∧ ¬v.HasRoom ino inode (blocksOver offset n) ∧
    v.HasRoom ino inode (blocksOver offset (k + 1 - offset)) ∧
    ∃ s, dataSlot ino (k / UB) = some s ∧ s.root.2.pointer inode ≠ 0

namespace AlbumFs

variable {v w : View} {ino : Nat} {inode : Inode}

/-! ### Writing -/

/-- A range that cannot be written is written up to a block that there is no room for. The count of the
copy stays exact. -/
theorem endsOn_writeRange_halted (h : Mapped v ino inode) (position : Nat) (data : List UInt8) :
    EndsOn view (writeRange inode position data) v
      (fun i w => inode.Counts (v.ownWith ino inode) ino → i.Counts (w.ownWith ino i) ino)
      fun e w => ∃ n u i, n < data.length ∧ WroteRange ino position (data.take n) v inode u i ∧
        Halted ino ((position + n) / UB) u i w ∧
        (dataSlot ino ((position + n) / UB) ≠ none → e = .noSpace) := by
  induction hn : data.length using Nat.strong_induction_on generalizing v inode position data with
  | _ n ih =>
    subst hn
    rw [writeRange]
    by_cases hdata : data.length = 0
    · rw [if_pos hdata]
      exact endsOn_pure id
    · have hmod := Nat.mod_lt position UB_pos
      rw [if_neg hdata]
      refine (endsOn_bmap_counted h (position / UB)).bind ?_ ?_
      · rintro ⟨block, i⟩ v₁ ⟨s, b, hs, rfl, hown, hg, hc, hcount⟩
        have hin := hg.mapped.inData hown
        refine (reads_readBlock hin).bind_endsOn
          (endsOn_bind (endsOn_writeBlock_bytes hg.mapped.geometry hin ?_))
        generalize htake : min data.length (UB - position % UB) = take
        have hset := hg.mapped.grows_setData hown (isLeaf_of_dataSlot hs).1
          ((v₁.data b).write (position % UB) (data.take take))
        refine (ih _ (by rw [List.length_drop]; omega) hset.mapped (position + take) (data.drop take)
          rfl).mono (fun i' w hw hcounts => ?_) fun e w hw => ?_
        · refine hw ((hcounts.grows hg hs hcount).congr rfl fun t _ _ => ?_)
          exact hset.own_of_not_mem t (by simp)
        · obtain ⟨m, u, i', hm, hwrote, hhalted, he⟩ := hw
          rw [List.length_drop] at hm
          rw [Nat.add_assoc] at hhalted he
          refine ⟨take + m, u, i', by omega, ?_, hhalted, he⟩
          have hlength : (data.take (take + m)).length = take + m := by
            rw [List.length_take]
            omega
          have hfirst : (data.take (take + m)).take take = data.take take := by
            rw [List.take_take, Nat.min_eq_left (Nat.le_add_right _ _)]
          have hrest : (data.take (take + m)).drop take = (data.drop take).take m := by
            rw [List.drop_take, Nat.add_sub_cancel_left]
          refine WroteRange.cons (by omega) hs hown hg hc
            (show take = min (data.take (take + m)).length (UB - position % UB) by omega) ?_
          rw [hfirst, hrest]
          exact hwrote
      · intro e w he
        refine ⟨0, v, inode, by omega, h.wroteRange_nil position, ?_⟩
        rcases he with ⟨he, hhalts⟩ | ⟨-, hnone, rfl⟩
        · exact ⟨.inl hhalts, fun _ => he⟩
        · exact ⟨.inr ⟨hnone, rfl⟩, fun hne => absurd hnone hne⟩

/-- A `write` that ran out of room. -/
def WriteHalted (v : View) (ino : Nat) (offset : UInt64) (data : List UInt8) (w : View) : Prop :=
  ∃ inode n u i, v.inodes ino = some inode ∧ inode.isDir = false ∧
    offset.toNat + data.length < 2 ^ 64 ∧ n < data.length ∧ WroteRange ino offset.toNat (data.take n) v inode u i ∧
    Halted ino ((offset.toNat + n) / UB) u i w

/-- The copy of a file that has been written is stored, and its count with it. -/
theorem endsOn_write_halted (h : v.Sound) (ino : Nat) (offset : UInt64) (data : List UInt8) :
    EndsOn view (write ino offset data) v
      (fun _ w => Written v ino offset data w ∧ (v.Counted → w.Counted))
      fun _ w => w = v ∨ WriteHalted v ino offset data w ∨
        Written v ino offset data w ∧ (v.Counted → w.Counted) := by
  refine (reads_getattr h.geometry ino).bind_endsOn_except (fun inode hinode => ?_) fun _ _ => .inl rfl
  have hi := View.inodes_of_getattr hinode
  by_cases hdir : inode.isDir = true
  · rw [if_pos hdir]
    exact endsOn_throw (.inl rfl)
  · rw [if_neg hdir]
    have hdir' : inode.isDir = false := by simpa using hdir
    unfold checkedAdd
    by_cases hlt : offset.toNat + data.length < 2 ^ 64
    · rw [if_pos hlt]
      refine endsOn_of_live fun hlive => ?_
      obtain ⟨hvalid, hmode⟩ := hlive ino inode hi
      refine ((endsOn_writeRange (h.mapped hi) _ _).and (endsOn_writeRange_halted (h.mapped hi) _ _)).bind
        ?_ ?_
      · rintro i u ⟨hu, hcounts⟩
        have hg := hu.grows.mapped.geometry
        refine endsOn_bind (endsOn_now fun time => endsOn_bind (endsOn_writeInode hg ?_ ?_))
        · rwa [View.ValidIno, hu.grows.sb_eq]
        · have hstore : v.Counted → (u.setInode ino (Inode.touched
              (if offset.toNat + data.length > i.size.toNat then
                { i with size := UInt64.ofNat (offset.toNat + data.length) } else i) time)).Counted :=
            fun hcounted => hcounted.store hu.grows.inodes_eq
              (hcounts ((hcounted ino inode hi).congr rfl fun t _ _ => by rw [View.ownWith_self hi]))
              (fun t _ ht => hu.grows.own_of_ne ino_of_mem_slotsOver ht) (pointer_written _ _ _ _)
              (by rw [Inode.touched, apply_ite Inode.blockCount, ite_self])
              (by rwa [Inode.mode_touched, apply_ite Inode.mode, ite_self,
                Inode.mode_eq hu.grows.attributes_eq])
          have hdone : Written v ino offset data (u.setInode ino (Inode.touched
              (if offset.toNat + data.length > i.size.toNat then
                { i with size := UInt64.ofNat (offset.toNat + data.length) } else i) time)) :=
            ⟨inode, i, u, time, hi, hdir', hmode, hlt, hu, rfl⟩
          exact endsOn_bind (endsOn_sync (hg.setInode _ _) (endsOn_pure ⟨hdone, hstore⟩)
            fun _ => .inr (.inr ⟨hdone, hstore⟩))
      · rintro _ w ⟨-, n, u, i, hn, hwrote, hhalted, -⟩
        exact .inr (.inl ⟨inode, n, u, i, hi, hdir', hlt, hn, hwrote, hhalted⟩)
    · rw [if_neg hlt]
      exact endsOn_throw (.inl rfl)

section WriteHalted

variable {offset : UInt64} {data : List UInt8}

/-- The copy with which a `write` ran out of room. -/
theorem WriteHalted.exists_copy (h : WriteHalted v ino offset data w) (hs : v.Sound) :
    ∃ inode n u i before i', v.inodes ino = some inode ∧ inode.isDir = false ∧ n < data.length ∧
      WroteRange ino offset.toNat (data.take n) v inode u i ∧ SameContent ino u i w i' ∧
      Grows ino (slotsOver ino offset.toNat n ++ before) v inode w i' ∧
      (∀ t ∈ before, ¬t.IsLeaf ∧ t.ino = ino) ∧
      v.HasRoom ino inode (blocksOver offset.toNat n) ∧
      ¬v.HasRoom ino inode (blocksOver offset.toNat data.length) := by
  obtain ⟨inode, n, u, i, hi, hdir, -, hn, hwrote, hhalted⟩ := h
  have hlength : (data.take n).length = n := by
    rw [List.length_take]
    omega
  have hm := hs.mapped hi
  have hgrows := hwrote.grows
  have hreach := hwrote.inReach
  rw [hlength] at hgrows hreach
  obtain ⟨before, i', hg, hc, hbefore⟩ := hhalted.exists_grows hgrows.mapped
  refine ⟨inode, n, u, i, before, i', hi, hdir, hn, hwrote, hc, hgrows.trans hg, hbefore,
    Grows.hasRoom hgrows hm hreach, hhalted.not_hasRoom hm hn hwrote⟩

/-- A `write` that ran out of room has changed no inode and no other file. -/
theorem WriteHalted.inodes_eq (h : WriteHalted v ino offset data w) (hs : v.Sound) :
    w.inodes = v.inodes := by
  obtain ⟨_, _, _, _, _, _, -, -, -, -, -, hg, -⟩ := h.exists_copy hs
  exact hg.inodes_eq

theorem WriteHalted.own_of_ne (h : WriteHalted v ino offset data w) (hs : v.Sound) {t : Slot}
    (ht : t.ino ≠ ino) : w.own t = v.own t := by
  obtain ⟨inode, n, u, i, before, i', -, -, -, -, -, hg, hbefore, -⟩ := h.exists_copy hs
  have hown := hg.own_of_ne (fun t ht => (List.mem_append.1 ht).elim (ino_of_mem_slotsOver t)
    fun ht => (hbefore t ht).2) ht
  rw [← hown, View.ownWith_of_ne ht]

/-- A slot that changed is the slot of a block that got a byte. -/
theorem WriteHalted.own_eq (h : WriteHalted v ino offset data w) (hs : v.Sound) {inode : Inode}
    (hi : v.inodes ino = some inode) {t : Slot} (hleaf : t.IsLeaf) (ht : t.ino = ino)
    (hkeeps : ∀ k, v.LeavesByte ino inode offset.toNat data.length k →
      dataSlot ino (k / UB) = some t → v.own t ≠ none) : w.own t = v.own t := by
  obtain ⟨inode', n, u, i, before, i', hi', -, hn, hwrote, -, hg, hbefore, hroom, hnoroom⟩ :=
    h.exists_copy hs
  rw [hi, Option.some.injEq] at hi'
  subst hi'
  rw [← View.ownWith_self (hg.inodes_eq.symm ▸ hi), ← View.ownWith_self hi]
  by_cases hroot : t.root.2.pointer inode = 0
  · rw [View.ownWith_eq_none_of_root w ht (thenSome_eq_none.2 hroot),
      View.ownWith_eq_none_of_root v ht (thenSome_eq_none.2 hroot)]
  · have hsome := (thenSome_eq_some (b := (t.root.2.pointer inode).toNat)).2 ⟨hroot, rfl⟩
    rw [← View.ownWith_of_root w ht ((hg.roots _ _ hsome).trans hsome.symm)]
    cases hown : v.ownWith ino inode t with
    | some c => exact hg.own_of_some t c hown
    | none =>
      rw [← hown]
      refine hg.own_of_not_mem t fun hmem => ?_
      rcases List.mem_append.1 hmem with hmem | hmem
      · obtain ⟨index, hindex, hmem⟩ := List.mem_flatMap.1 hmem
        obtain ⟨s, hslot⟩ := Option.ne_none_iff_exists'.1 (hroom.1 index hindex)
        obtain rfl := eq_of_mem_slotsTo hslot hmem hleaf
        have hzero : n ≠ 0 := by
          rintro rfl
          rw [blocksOver_zero] at hindex
          cases hindex
        obtain ⟨hge, hle⟩ := (mem_blocksOver hzero).1 hindex
        have hlast := Nat.div_mul_le_self (offset.toNat + n - 1) UB
        have hmul : index * UB ≤ (offset.toNat + n - 1) / UB * UB := Nat.mul_le_mul_right _ hle
        have hblock : max offset.toNat (index * UB) / UB = index := by
          rcases Nat.le_total offset.toNat (index * UB) with hstart | hstart
          · rw [Nat.max_eq_right hstart, Nat.mul_div_cancel _ UB_pos]
          · rw [Nat.max_eq_left hstart]
            exact Nat.le_antisymm hge ((Nat.le_div_iff_mul_le UB_pos).2 hstart)
        refine hkeeps (max offset.toNat (index * UB)) ⟨Nat.le_max_left _ _, by omega, hnoroom,
          hroom.mono fun k hk => ?_, t, by rw [hblock]; exact hslot, hroot⟩ (by rw [hblock]; exact hslot)
          (by rw [← View.ownWith_self hi, hown])
        rw [mem_blocksOver (by omega)] at hk
        exact (mem_blocksOver hzero).2 ⟨hk.1, hk.2.trans (Nat.div_le_div_right (by omega))⟩
      · exact (hbefore t hmem).1 hleaf

/-- A byte that changed is one that stays in the file. -/
theorem WriteHalted.byteAt_eq (h : WriteHalted v ino offset data w) (hs : v.Sound) {inode : Inode}
    (hi : v.inodes ino = some inode) (k : Nat) :
    w.byteAt ino inode k = v.byteAt ino inode k ∨
      v.LeavesByte ino inode offset.toNat data.length k ∧
        w.byteAt ino inode k = data.getD (k - offset.toNat) 0 := by
  obtain ⟨inode', n, u, i, before, i', hi', -, hn, hwrote, hc, hg, hbefore, hroom, hnoroom⟩ :=
    h.exists_copy hs
  rw [hi, Option.some.injEq] at hi'
  subst hi'
  have hcopy : w.byteAt ino i' k = u.byteAt ino i k := View.byteAt_congr (fun t ht _ => hc t ht) k
  cases hslot : dataSlot ino (k / UB) with
  | none =>
    refine .inl ?_
    unfold View.byteAt
    rw [hslot]
  | some t =>
    obtain ⟨hleaf, ht⟩ := isLeaf_of_dataSlot hslot
    by_cases hroot : t.root.2.pointer inode = 0
    · refine .inl ?_
      unfold View.byteAt View.content
      rw [hslot]
      dsimp only
      rw [View.ownWith_eq_none_of_root w ht (thenSome_eq_none.2 hroot),
        View.ownWith_eq_none_of_root v ht (thenSome_eq_none.2 hroot)]
    · have hsome := (thenSome_eq_some (b := (t.root.2.pointer inode).toNat)).2 ⟨hroot, rfl⟩
      have hbyte : w.byteAt ino inode k = w.byteAt ino i' k := by
        unfold View.byteAt View.content
        rw [hslot]
        dsimp only
        rw [View.ownWith_of_root w ht ((hg.roots _ _ hsome).trans hsome.symm)]
      rw [hbyte, hcopy, hwrote.byteAt_eq]
      have hlength : (data.take n).length = n := by
        rw [List.length_take]
        omega
      rw [hlength]
      split_ifs with hin
      · refine .inr ⟨⟨hin.1, by omega, hnoroom, hroom.mono fun j hj => ?_, t, hslot, hroot⟩, ?_⟩
        · rw [mem_blocksOver (by omega)] at hj
          exact (mem_blocksOver (by omega)).2 ⟨hj.1, hj.2.trans (Nat.div_le_div_right (by omega))⟩
        · rw [List.getD_eq_getElem?_getD, List.getElem?_take_of_lt (by omega), List.getD_eq_getElem?_getD]
      · exact .inl rfl

theorem WriteHalted.sameFiles (h : WriteHalted v ino offset data w) (hs : v.Sound) :
    SameFiles {ino} v w where
  regular_eq ino' _ := View.regular_congr (congrFun (h.inodes_eq hs) ino')
  blockOf_eq t hleaf ht _ := by
    obtain ⟨inode, n, u, i, before, i', hi, -, -, hwrote, hc, -⟩ := h.exists_copy hs
    rw [← (View.content_of_ne ht : w.content ino i' t = w.blockOf t), hc t hleaf, hwrote.content_eq t hleaf ht,
      View.content_of_ne ht]

end WriteHalted

/-! ### Adding entries -/

/-- An operation ran out of room for a new block of a directory. -/
def AddHalted (v : View) (parentIno : Nat) (w : View) : Prop :=
  ∃ parent, v.inodes parentIno = some parent ∧ parent.isDir = true ∧
    Halts parentIno (slotsTo parentIno (divCeil parent.size.toNat UB)) v parent w

section AddHalted

variable {parentIno : Nat}

/-- What a directory has lost are blocks that only a copy of its inode names. -/
theorem AddHalted.own_eq (h : AddHalted v parentIno w) (hs : v.Sound) {t : Slot} (hleaf : t.IsLeaf) :
    w.own t = v.own t := by
  obtain ⟨parent, hi, -, hhalts⟩ := h
  have hm := hs.mapped hi
  obtain ⟨before, i', hg, -, hbefore⟩ := Halted.exists_grows (.inl hhalts) hm
  have hcopy : w.ownWith parentIno i' t = v.ownWith parentIno parent t :=
    hg.own_of_not_mem t fun hmem => (hbefore t hmem).1 hleaf
  by_cases ht : t.ino = parentIno
  · rw [← View.ownWith_self (hg.inodes_eq.symm ▸ hi), ← View.ownWith_self hi, ← hcopy]
    by_cases hroot : t.root.2.pointer parent = 0
    · rw [View.ownWith_eq_none_of_root w ht (thenSome_eq_none.2 hroot), hcopy,
        View.ownWith_eq_none_of_root v ht (thenSome_eq_none.2 hroot)]
    · have hsome := (thenSome_eq_some (b := (t.root.2.pointer parent).toNat)).2 ⟨hroot, rfl⟩
      exact (View.ownWith_of_root w ht ((hg.roots _ _ hsome).trans hsome.symm)).symm
  · rw [← (View.ownWith_of_ne ht : w.ownWith parentIno i' t = w.own t), hcopy, View.ownWith_of_ne ht]

theorem AddHalted.sound (h : AddHalted v parentIno w) : w.Sound := by
  obtain ⟨parent, hi, -, hhalts⟩ := h
  exact hhalts.stops.sound hi

theorem AddHalted.inodes_eq (h : AddHalted v parentIno w) : w.inodes = v.inodes := by
  obtain ⟨parent, -, -, before, s, rest, i', -, hg, -⟩ := h
  exact hg.inodes_eq

theorem AddHalted.counted (h : AddHalted v parentIno w) (hs : v.Sound) (hc : v.Counted) : w.Counted :=
  hc.congr h.inodes_eq fun _ hleaf => h.own_eq hs hleaf

/-- No file is touched. -/
theorem AddHalted.sameFiles (h : AddHalted v parentIno w) : SameFiles ∅ v w where
  regular_eq ino' _ := View.regular_congr (congrFun h.inodes_eq ino')
  blockOf_eq t hleaf _ hregular := by
    obtain ⟨parent, hi, hdir, before, s, rest, i', -, hg, hc, -⟩ := h
    have ht : t.ino ≠ parentIno := by
      rintro rfl
      exact hregular (View.regular_of_isDir hi hdir)
    rw [← (View.content_of_ne ht : w.content parentIno i' t = w.blockOf t), hc t hleaf, View.content_of_ne ht]

end AddHalted

/-- A block that is appended to a directory is counted. -/
theorem endsOn_growDirectory_halted (h : v.Sound) (hi : v.inodes ino = some inode)
    (hdir : inode.isDir = true) (new : Nat) {name : String} (hname : nameLen name ≤ 255)
    (fileType : UInt8) :
    EndsOn view (growDirectory ino inode (divCeil inode.size.toNat UB) new name fileType) v
      (fun _ w => v.Counted → w.Counted) fun _ w => w = v ∨ AddHalted v ino w := by
  refine (endsOn_bmap_counted (h.mapped hi) _).bind ?_ ?_
  · rintro ⟨block, inode'⟩ v₁ ⟨s, b, hs, rfl, hown, hg, hc, hcount⟩
    have hlen := DirEntry.requiredLen_lt (nameLen name)
    obtain ⟨payload, hp⟩ := putRecord_eq_ok Block.zero 0 UB hname
      (by rw [UB_eq]; omega) (by omega) (UInt64.ofNat new) fileType
    refine (reads_ofExcept_ok hp).bind_endsOn ?_
    have hin := hg.mapped.inData hown
    have hset := hg.mapped.grows_setData hown (isLeaf_of_dataSlot hs).1 payload
    refine endsOn_bind (endsOn_writeBlock_bytes hg.mapped.geometry hin (endsOn_bumpDirectory
      (hg.mapped.geometry.setData b payload) ?_ fun time hcounted => ?_))
    · rw [View.inodes_setData, hg.inodes_eq, hi]
      exact Option.some_ne_none _
    · have hcounts : inode.Counts (v.ownWith ino inode) ino :=
        (hcounted ino inode hi).congr rfl fun t _ _ => by rw [View.ownWith_self hi]
      refine hcounted.store (hset.inodes_eq.trans hg.inodes_eq)
        ((hcounts.grows hg hs hcount).congr rfl fun t _ _ => hset.own_of_not_mem t (by simp))
        (fun t _ ht => ?_) (Root.pointer_grown inode' time) rfl ?_
      · rw [hset.own_of_not_mem t (by simp), hg.own_of_ne (fun _ => ino_of_mem_slotsTo) ht]
      · exact Inode.mode_ne_zero inode' ((Inode.isDir_eq hg.attributes_eq).trans hdir)
  · rintro e w (⟨-, hhalts⟩ | ⟨-, -, rfl⟩)
    · exact .inr ⟨inode, hi, hdir, hhalts⟩
    · exact .inl rfl

/-- Adding an entry keeps the counts exact, and touches no file when there is no room. -/
theorem endsOn_addDirEntry_halted (h : v.Sound) (parentIno new : Nat) (name : String)
    (fileType : UInt8) :
    EndsOn view (addDirEntry parentIno new name fileType) v (fun _ w => v.Counted → w.Counted)
      fun _ w => w = v ∨ AddHalted v parentIno w := by
  refine (reads_getattr h.geometry parentIno).bind_endsOn_except (fun parent hp => ?_)
    fun _ _ => .inl rfl
  have hi := View.inodes_of_getattr hp
  by_cases hdir : parent.isDir = true
  · simp only [hdir, Bool.not_true, Bool.false_eq_true, if_false]
    by_cases hlong : DirEntry.requiredLen (nameLen name) > UB ∨ nameLen name > 255
    · rw [if_pos hlong]
      exact endsOn_throw (.inl rfl)
    · rw [if_neg hlong]
      refine (endsOn_editDirectory h hi _ _ _).bind ?_ fun _ _ he => .inl he.2
      rintro inserted w (⟨rfl, -, rfl⟩ | ⟨rfl, b, payload, time, hscan, rfl⟩)
      · simp only [Bool.false_eq_true, if_false]
        exact endsOn_growDirectory_halted h hi hdir new (by omega) fileType
      · simp only [if_true]
        obtain ⟨i, s, -, -, hslot, hown, -, -⟩ := View.scan_some hscan
        exact endsOn_pure fun hcounted =>
          hcounted.edit h hi hdir hown (isLeaf_of_dataSlot hslot).1 payload time
  · simp only [hdir, Bool.not_false, if_true]
    exact endsOn_throw (.inl rfl)

end AlbumFs

end AlbumFS

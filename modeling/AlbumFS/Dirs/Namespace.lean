import AlbumFS.Dirs.Names

/-!
# The operations as changes of the namespace

`create`, `mkdir`, `unlink`, `rmdir` and `rename` are made of the steps that change the namespace of a view. A
successful operation is a whole operation on the namespace. One that fails has changed nothing, has done all its
work, or leaves what it did before a directory ran out of room: a node without a name, or a name that made way for
another.

## Main definitions

* `View.Carries`: a sound view shows a namespace.
* `View.Gapless`: no gap lies before the record of a name.

## Main results

* `AlbumFs.endsOn_create_names`, `AlbumFs.endsOn_mkdir_names`, `AlbumFs.endsOn_unlink_names`,
  `AlbumFs.endsOn_rmdir_names`, `AlbumFs.endsOn_replaceTarget_names`.
-/

namespace AlbumFS

open Prog

/-- A sound view shows a namespace, and a link count can count all its inodes. -/
structure View.Carries (v : View) (A : Names Nat String) : Prop where
  sound : v.Sound
  shows : v.Shows A
  few : v.sb.inodeCount.toNat + 1 < 2 ^ 32

/-- No free record lies between a live record of the directory called `name` and the live record before it. -/
def View.Gapless (v : View) (ino : Nat) (name : String) : Prop :=
  ∀ dir, v.Lists ino dir → ∀ es ∈ dir, AlbumFS.Gapless name es

/-- The records of a directory, the free ones included. -/
def AlbumFs.listRecords {σ : Type} [BlockDevice σ] (ino : Nat) : FsM σ (List (Nat × DirEntry)) := do
  let inode ← getattr ino
  directoryEntries inode

/-- A directory without free records has no gaps. -/
theorem View.gapless_of_listRecords {fs : AlbumFs Disk} (hs : fs.view.Sound) {ino : Nat}
    (h : (exec (AlbumFs.listRecords ino) fs).1.map (fun rs => rs.all fun r => r.2.inode ≠ 0) = .ok true)
    (name : String) : fs.view.Gapless ino name := by
  intro dir hlists es hes
  obtain ⟨inode, hi, -⟩ := hlists.exists_inode
  obtain ⟨-, -, hcount⟩ := hlists.divCeil_eq hi
  obtain ⟨entries, hentries, hmap⟩ := hlists.entriesFrom_eq hi (Nat.zero_add dir.length)
  have hget := AlbumFs.reads_getattr hs.geometry ino
  rw [View.getattr_of_some hi] at hget
  have hread : Reads AlbumFs.view (AlbumFs.listRecords ino) fs.view (.ok entries) := by
    refine hget.bind ?_
    have hrecords := AlbumFs.reads_directoryEntries (hs.mapped hi)
    rwa [View.entries, hcount, hentries] at hrecords
  rw [hread fs rfl] at h
  have hall : (entries.all fun r => decide (r.2.inode ≠ 0)) = true := Except.ok.inj h
  refine gapless_of_live fun e he => ?_
  have hmem : e ∈ entries.map Prod.snd := by
    rw [hmap, List.drop_zero]
    exact List.mem_flatten.2 ⟨es, hes, he⟩
  obtain ⟨r, hr, rfl⟩ := List.mem_map.1 hmem
  exact of_decide_eq_true (List.all_eq_true.1 hall r hr)

section Steps

variable {u v w : View} {d ino : Nat} {inode inode' : Inode} {name : String} {mode : UInt32} {A B : Names Nat String}
  {l : Link Nat String}

theorem AlbumFs.Added.sb_eq {fileType : UInt8} (h : AlbumFs.Added v d ino name fileType w) : w.sb = v.sb := by
  cases h with
  | insert => rfl
  | grow hparent hdir hscan hs hown hgrows hcontent hput => exact hgrows.sb_eq

theorem AlbumFs.Taken.sb_eq (h : AlbumFs.Taken v d name w) : w.sb = v.sb := by
  cases h with
  | remove => rfl

theorem AlbumFs.Dropped.sb_eq (h : AlbumFs.Dropped v ino inode w) : w.sb = v.sb := by
  obtain ⟨v', inode', hr, rfl⟩ := h
  exact hr.shrinks.sb_eq

theorem AlbumFs.AddHalted.sb_eq (h : AlbumFs.AddHalted v d w) : w.sb = v.sb := by
  obtain ⟨parent, -, -, before, s, rest, i', -, hg, -⟩ := h
  exact hg.sb_eq

theorem View.Carries.congr_names (h : v.Carries A) (hAB : A = B) : v.Carries B := hAB ▸ h

/-- The numbers of inodes fit in a record. -/
theorem View.Carries.ino_bounds (h : v.Carries A) (hino : v.ValidIno ino) : 0 < ino ∧ ino < 2 ^ 64 := by
  have hfew := h.few
  have hle := hino.2
  exact ⟨hino.1, by omega⟩

/-- An inode is stored with another link count and other times. -/
theorem View.Carries.attributes (h : v.Carries A) (hi : v.inodes ino = some inode) (hsame : inode'.SameMap inode) :
    (v.setInode ino inode').Carries (A.recount ino inode'.nlink.toNat) := by
  have hmode : inode'.mode ≠ 0 := by
    intro hzero
    have hkind := (h.shows ino).kind inode hi
    rw [← hsame.mode_eq, hzero] at hkind
    exact hkind (by decide)
  exact ⟨(h.sound.mapped hi).sound hsame.pointer_eq hmode, h.shows.setInode_sameMap hi hsame, h.few⟩

/-- An inode is freed with its blocks. -/
theorem View.Carries.dropped (h : v.Carries A) (hi : v.inodes ino = some inode) (hsame : inode'.SameMap inode)
    (hdropped : AlbumFs.Dropped v ino inode' w) : w.Carries (A.drop ino) :=
  ⟨(AlbumFs.Step.dropped hi hsame hdropped).sound h.sound,
    h.shows.dropped hdropped (h.sound.mapped_congr hi hsame.pointer_eq), by rw [hdropped.sb_eq]; exact h.few⟩

/-- Link counts do not wrap around: a directory counts fewer directories than there are inodes. -/
theorem View.Carries.count_lt (h : v.Carries A) (hB : B.Tidy 1) (hvalid : ∀ y, B.node y ≠ none → v.ValidIno y)
    (d : Nat) : 2 + B.subdirs d < 2 ^ 32 := by
  have hlt := hB.subdirs_lt (s := Finset.Icc 1 v.sb.inodeCount.toNat)
    (fun y hy => Finset.mem_Icc.2 (hvalid y hy)) d
  rw [Nat.card_Icc] at hlt
  have hfew := h.few
  omega

/-- The nodes are the inodes in use. -/
theorem View.Shows.exists_inode (h : v.Shows A) {y : Nat} (hy : A.node y ≠ none) : ∃ inode, v.inodes y = some inode :=
  Option.ne_none_iff_exists'.1 fun hnone => hy (h.node_eq_none.2 hnone)

/-- The inode of a node. -/
theorem View.Shows.eq_of_node (h : v.Shows A) (hi : v.inodes d = some inode) {isDir : Bool} {n : ℕ}
    (hd : A.node d = some (isDir, n)) : inode.isDir = isDir ∧ inode.nlink.toNat = n := by
  rw [h.node_of_inode hi, Option.some.injEq, Prod.mk.injEq] at hd
  exact hd

/-- A count goes up by one. -/
theorem toNat_succ_of_lt {n : UInt32} (h : n.toNat + 1 < 2 ^ 32) : (n + 1).toNat = n.toNat + 1 := by
  rw [UInt32.toNat_add, UInt32.toNat_one]
  exact Nat.mod_eq_of_lt h

theorem toNat_saturatingPred (n : UInt32) : (AlbumFs.saturatingPred n).toNat = n.toNat - 1 := by
  unfold AlbumFs.saturatingPred
  split_ifs with hn
  · rw [hn]
    rfl
  · have hpos : n.toNat ≠ 0 := fun hzero => hn (UInt32.toNat_inj.1 hzero)
    have hone : (1 : UInt32) ≤ n := by
      rw [UInt32.le_iff_toNat_le]
      exact Nat.one_le_iff_ne_zero.2 hpos
    rw [UInt32.toNat_sub_of_le _ _ hone]
    rfl

end Steps

namespace AlbumFs

variable {u v w : View} {d ino : Nat} {inode : Inode} {name : String} {mode : UInt32} {A B : Names Nat String}
  {l : Link Nat String}

/-! ### Editing directories -/

/-- `add_dir_entry` refuses long names. -/
theorem endsOn_addDirEntry_short (hg : v.Geometry) (d new : Nat) (name : String) (fileType : UInt8) :
    EndsOn view (addDirEntry d new name fileType) v (fun _ _ => nameLen name ≤ 255) fun _ _ => True := by
  refine (reads_getattr hg d).bind_endsOn_except (fun parent _ => ?_) fun _ _ => trivial
  by_cases hdir : parent.isDir = true
  · simp only [hdir, Bool.not_true, Bool.false_eq_true, if_false]
    by_cases hlong : DirEntry.requiredLen (nameLen name) > UB ∨ nameLen name > 255
    · rw [if_pos hlong]
      exact endsOn_throw trivial
    · rw [if_neg hlong]
      exact (endsOn_true _ v).mono (fun _ _ _ => Nat.not_lt.1 fun h => hlong (.inr h)) fun _ _ h => h
  · simp only [hdir, Bool.not_false, if_true]
    exact endsOn_throw trivial

/-- Adding an entry puts a link, and changes nothing when it fails. -/
theorem endsOn_addDirEntry_names (h : v.Carries A) (hino : 0 < l.node ∧ l.node < 2 ^ 64)
    (hproper : l.name ≠ "." ∧ l.name ≠ "..") :
    EndsOn view (addDirEntry d l.node l.name (if l.isDir then FILE_TYPE_DIR else FILE_TYPE_FILE)) v
      (fun _ w => w.Carries (A.put d l)) fun _ w => w.Carries A := by
  refine (((endsOn_addDirEntry h.sound d l.node l.name _).and
    (endsOn_addDirEntry_halted h.sound d l.node l.name _)).and
    (endsOn_addDirEntry_short h.sound.geometry d l.node l.name _)).mono ?_ ?_
  · rintro _ w ⟨⟨hadded, -⟩, hshort⟩
    exact ⟨hadded.sound h.sound, h.shows.added h.sound hadded hino hshort hproper, by rw [hadded.sb_eq]; exact h.few⟩
  · rintro _ w ⟨⟨hstopped, hhalted⟩, -⟩
    rcases hstopped with rfl | hstopped
    · exact h
    rcases hhalted with rfl | hhalted
    · exact h
    · exact ⟨hstopped.sound, hhalted.shows h.sound h.shows, by rw [hhalted.sb_eq]; exact h.few⟩

/-- Removing the entry of a link takes the link, and it does not fail. -/
theorem endsOn_removeDirEntry_names (h : v.Carries A) (hd : A.IsDir d) (hl : l ∈ A.links d)
    (hunique : ∀ k ∈ A.links d, k.name = l.name → k = l) (hgap : v.Gapless d l.name) :
    EndsOn view (removeDirEntry d l.name) v (fun _ w => w.Carries (A.take d l)) fun _ _ => False := by
  obtain ⟨dir, hlists, hrows⟩ := h.shows.exists_rows hd
  refine (endsOn_removeDirEntry_found h.sound hlists ⟨l.entry, hrows.mem_iff.2 (.inr ⟨l, hl, rfl⟩), rfl⟩).mono ?_
    fun _ _ hf => hf
  intro _ w htaken
  obtain ⟨k, hk, hname, hshows⟩ := h.shows.taken h.sound htaken hgap (hrows.proper l hl)
  obtain rfl := hunique k hk hname
  exact ⟨htaken.sound h.sound, hshows, by rw [htaken.sb_eq]; exact h.few⟩

/-! ### Creating entries -/

/-- The number is free and the name is not in the directory. -/
structure Fresh (A : Names Nat String) (d : Nat) (name : String) (ino : Nat) : Prop where
  isDir : A.IsDir d
  node_eq : A.node ino = none
  name_ne : ∀ l ∈ A.links d, l.name ≠ name

theorem fresh_of_lookup (h : v.Carries A) (hlookup : v.lookup d name = .ok none) (hino : v.allocInode = .ok ino) :
    Fresh A d name ino ∧ (name ≠ "." ∧ name ≠ "..") ∧ 0 < ino ∧ ino < 2 ^ 64 := by
  obtain ⟨hd, hdot, hdotdot, hname⟩ := h.shows.lookup_none hlookup
  obtain ⟨hvalid, hnone, -⟩ := View.allocInode_ok hino
  exact ⟨⟨hd, h.shows.node_eq_none.2 hnone, hname⟩, ⟨hdot, hdotdot⟩, h.ino_bounds hvalid⟩

theorem endsOn_create_names (h : v.Carries A) (d : Nat) (name : String) (mode : UInt32) :
    EndsOn view (create d name mode) v (fun ino w => Fresh A d name ino ∧ w.Carries (A.created d name ino false))
      fun _ w => w.Carries A ∨ ∃ ino, Fresh A d name ino ∧
        (w.Carries (A.make ino false d) ∨ w.Carries (A.created d name ino false)) := by
  refine (endsOn_create_of h.sound (Q := fun ino w => Fresh A d name ino ∧ w.Carries (A.created d name ino false))
    (E := fun w => ∃ ino, Fresh A d name ino ∧ w.Carries (A.make ino false d)) fun ino u hmade => ?_).mono
    (fun _ _ hw => hw) ?_
  · obtain ⟨hlookup, hino, time, hu⟩ := id hmade
    obtain ⟨hfresh, hproper, hbounds⟩ := fresh_of_lookup h hlookup hino
    have hmake : u.Carries (A.make ino false d) :=
      ⟨hmade.sound h.sound, h.shows.fileMade hmade, by rw [hu]; exact h.few⟩
    refine (endsOn_addDirEntry_names (l := ⟨name, ino, false⟩) hmake hbounds hproper).mono ?_
      fun _ w hw => ⟨ino, hfresh, hw⟩
    intro _ w hw
    exact ⟨hw.sound.geometry, hfresh, hw.congr_names (Names.attach_eq_put rfl).symm⟩
  · rintro _ w (⟨rfl, -⟩ | ⟨ino, hfresh, hw⟩ | ⟨ino, hfresh, hw⟩)
    · exact .inl h
    · exact .inr ⟨ino, hfresh, .inl hw⟩
    · exact .inr ⟨ino, hfresh, .inr hw⟩

theorem endsOn_mkdir_names (h : v.Carries A) (htidy : A.Tidy 1) (d : Nat) (name : String) (mode : UInt32) :
    EndsOn view (mkdir d name mode) v (fun ino w => Fresh A d name ino ∧ w.Carries (A.created d name ino true))
      fun _ w => w.Carries A ∨ ∃ ino, Fresh A d name ino ∧
        (w.Carries (A.make ino true d) ∨ w.Carries (A.created d name ino true)) := by
  refine endsOn_of_live fun hlive => (endsOn_mkdir_steps h.sound
    (Q := fun ino w => Fresh A d name ino ∧ w.Carries (A.created d name ino true))
    (E := fun w => ∃ ino, Fresh A d name ino ∧ w.Carries (A.make ino true d)) fun ino time u hmade => ?_).mono
    (fun _ _ hw => hw) ?_
  · obtain ⟨hlookup, hino, block, payload, -, -, -, hu⟩ := id hmade
    obtain ⟨hfresh, hproper, hbounds⟩ := fresh_of_lookup h hlookup hino
    obtain ⟨stored, hstored, -⟩ := View.parent_of_lookup hlookup
    have hempty : A.links ino = 0 := htidy.links_eq_zero fun hdir => by
      obtain ⟨n, hn⟩ := hdir
      rw [hfresh.node_eq] at hn
      cases hn
    have hmake : u.Carries (A.make ino true d) := ⟨hmade.sound h.sound, h.shows.dirMade h.sound hempty hmade hbounds
      (h.ino_bounds (hlive d stored hstored).1), by rw [hu]; exact h.few⟩
    refine (endsOn_addDirEntry_names (l := ⟨name, ino, true⟩) hmake hbounds hproper).mono ?_
      fun _ w hw => ⟨ino, hfresh, hw⟩
    intro _ w hw
    obtain ⟨n, hn⟩ := hfresh.isDir
    have hne : d ≠ ino := by
      rintro rfl
      rw [hfresh.node_eq] at hn
      cases hn
    have hmaked : (A.make ino true d).node d = some (true, n) := by
      rw [Names.node_make, Function.update_of_ne hne, hn]
    refine ⟨hw.sound.geometry, fun hnone => ?_, fun parent hp => ⟨hfresh, ?_⟩⟩
    · rw [← hw.shows.node_eq_none, Names.node_put, hmaked] at hnone
      cases hnone
    · obtain ⟨-, rfl⟩ := hw.shows.eq_of_node hp (by rw [Names.node_put, hmaked])
      have htidy' := htidy.created hfresh.isDir hfresh.node_eq hfresh.name_ne true
      have hlt := h.count_lt htidy' (fun y hy => (Names.eq_or_of_node_created hy).elim
        (fun heq => heq ▸ (View.allocInode_ok hino).1) fun hy => ?_) d
      · have hcount := (htidy.make hfresh.node_eq true d).count_eq d _ hmaked
        rw [Names.created, Names.subdirs_attach, if_pos rfl, ← Nat.add_assoc, ← hcount] at hlt
        refine (hw.attributes hp (parent.sameMap_links (parent.nlink + 1) time time)).congr_names ?_
        rw [Names.created, Names.attach_eq hmaked]
        exact congrArg _ (toNat_succ_of_lt hlt)
      · obtain ⟨inode, hi⟩ := h.shows.exists_inode hy
        exact (hlive y inode hi).1
  · rintro _ w (⟨rfl, -⟩ | ⟨ino, hfresh, hw⟩ | ⟨ino, hfresh, hw⟩)
    · exact .inl h
    · exact .inr ⟨ino, hfresh, .inl hw⟩
    · exact .inr ⟨ino, hfresh, .inr hw⟩

/-! ### Removing entries -/

/-- The link that a removal takes, and what is left without it. -/
theorem Taken.carries (h : v.Carries A) (htidy : A.Tidy 1) (hproper : name ≠ "." ∧ name ≠ "..")
    (hgap : v.Gapless d name) (hlookup : v.lookup d name = .ok (some ino)) (hi : v.inodes ino = some inode)
    (htaken : Taken v d name u) :
    ∃ l ∈ A.links d, l.name = name ∧ l.node = ino ∧ A.node ino = some (l.isDir, inode.nlink.toNat) ∧
      inode.isDir = l.isDir ∧ u.Carries (A.take d l) := by
  obtain ⟨l, hl, rfl, hshows⟩ := h.shows.taken h.sound htaken hgap hproper
  have hnode := h.shows.lookup_link htidy hl
  rw [hlookup, Except.ok.injEq, Option.some.injEq] at hnode
  obtain ⟨n, hn⟩ := htidy.target d l hl
  rw [← hnode] at hn
  obtain ⟨hdir, hcount⟩ := h.shows.eq_of_node hi hn
  exact ⟨l, hl, rfl, hnode.symm, by rw [hn, hcount], hdir,
    htaken.sound h.sound, hshows, by rw [htaken.sb_eq]; exact h.few⟩

/-- A file that is unlinked has no other name, so that it goes. -/
theorem Unlinked.carries (hu : Unlinked v d name ino inode u w) (h : v.Carries A) (htidy : A.Tidy 1)
    (hproper : name ≠ "." ∧ name ≠ "..") (hgap : v.Gapless d name) :
    ∃ l ∈ A.links d, l.name = name ∧ l.node = ino ∧ l.isDir = false ∧ w.Carries (A.removed d l) := by
  obtain ⟨l, hl, hname, hnode, hn, hdir, hcarries⟩ := hu.taken.carries h htidy hproper hgap hu.lookup_eq hu.inode_eq
  rw [hu.isDir_eq] at hdir
  obtain ⟨inode', hi', hsame⟩ := hu.taken.inode_eq hu.inode_eq
  rw [← hdir] at hn
  have hlast : saturatingPred inode.nlink = 0 := by
    rw [← UInt32.toNat_inj, toNat_saturatingPred, htidy.file_eq ino _ hn]
    rfl
  rcases hu.outcome with ⟨-, hdropped⟩ | ⟨hmore, -⟩
  · refine ⟨l, hl, hname, hnode, hdir.symm,
      (hcarries.dropped hi' ((inode.sameMap_links _ _ _).trans hsame.symm) hdropped).congr_names ?_⟩
    rw [Names.removed, Names.detach_eq_take hdir.symm, hnode]
  · exact absurd hlast hmore

/-- A directory that is removed is empty, and it is not the one that holds it. -/
theorem DirDropped.carries (hr : DirDropped v d name ino inode u w) (h : v.Carries A) (htidy : A.Tidy 1)
    (hproper : name ≠ "." ∧ name ≠ "..") (hgap : v.Gapless d name) :
    ∃ l ∈ A.links d, l.name = name ∧ l.node = ino ∧ l.isDir = true ∧ A.links ino = 0 ∧ d ≠ ino ∧
      w.Carries ((A.take d l).drop ino) := by
  obtain ⟨l, hl, hname, hnode, hn, hdir, hcarries⟩ := hr.taken.carries h htidy hproper hgap hr.lookup_eq hr.inode_eq
  rw [hr.isDir_eq] at hdir
  obtain ⟨inode', hi', hsame⟩ := hr.taken.inode_eq hr.inode_eq
  have hempty : A.links ino = 0 := by
    obtain ⟨entries, hentries, hdots⟩ := hr.empty
    obtain ⟨dir, hlists, hrows⟩ := h.shows.exists_rows (d := ino) ⟨_, by rw [hn, ← hdir]⟩
    rw [hlists.readdir_eq, Except.ok.injEq] at hentries
    subst hentries
    refine Multiset.eq_zero_of_forall_notMem fun k hk => ?_
    obtain ⟨hdot, hdotdot⟩ := hrows.proper k hk
    exact (hdots k.entry (hrows.mem_iff.2 (.inr ⟨k, hk, rfl⟩))).elim hdot hdotdot
  have hne : d ≠ ino := by
    rintro rfl
    rw [hempty] at hl
    exact Multiset.notMem_zero l hl
  exact ⟨l, hl, hname, hnode, hdir.symm, hempty, hne, hcarries.dropped hi' hsame.symm hr.dropped⟩

theorem DirRemoved.carries (hr : DirRemoved v d name ino inode w) (h : v.Carries A) (htidy : A.Tidy 1)
    (hproper : name ≠ "." ∧ name ≠ "..") (hgap : v.Gapless d name) :
    ∃ l ∈ A.links d, l.name = name ∧ l.node = ino ∧ l.isDir = true ∧ A.links ino = 0 ∧
      w.Carries (A.removed d l) := by
  obtain ⟨u, u', parent, time, hdropped, hparent, rfl⟩ := hr
  obtain ⟨l, hl, hname, hnode, hdir, hempty, hne, hcarries⟩ := hdropped.carries h htidy hproper hgap
  refine ⟨l, hl, hname, hnode, hdir, hempty,
    (hcarries.attributes hparent (parent.sameMap_links _ _ _)).congr_names ?_⟩
  have hcount := hcarries.shows.node_of_inode hparent
  rw [Names.node_drop, Function.update_of_ne hne, Names.node_take] at hcount
  rw [Names.removed_eq hcount (hnode ▸ hne), hnode, Link.weight, hdir, if_pos rfl]
  exact congrArg _ (toNat_saturatingPred parent.nlink)

theorem endsOn_unlink_names (h : v.Carries A) (htidy : A.Tidy 1) (hproper : name ≠ "." ∧ name ≠ "..")
    (hgap : v.Gapless d name) :
    EndsOn view (unlink d name) v
      (fun _ w => ∃ l ∈ A.links d, l.name = name ∧ l.isDir = false ∧ w.Carries (A.removed d l))
      fun _ w => w.Carries A ∨ ∃ l ∈ A.links d, l.name = name ∧ l.isDir = false ∧ w.Carries (A.removed d l) := by
  refine (endsOn_unlink h.sound d name).mono ?_ ?_
  · rintro _ w ⟨ino, inode, u, hu⟩
    obtain ⟨l, hl, hname, -, hfile, hw⟩ := hu.carries h htidy hproper hgap
    exact ⟨l, hl, hname, hfile, hw⟩
  · rintro _ w (rfl | ⟨ino, inode, u, hu⟩)
    · exact .inl h
    · obtain ⟨l, hl, hname, -, hfile, hw⟩ := hu.carries h htidy hproper hgap
      exact .inr ⟨l, hl, hname, hfile, hw⟩

theorem endsOn_rmdir_names (h : v.Carries A) (htidy : A.Tidy 1) (hproper : name ≠ "." ∧ name ≠ "..")
    (hgap : v.Gapless d name) :
    EndsOn view (rmdir d name) v
      (fun _ w => ∃ l ∈ A.links d, l.name = name ∧ l.isDir = true ∧ A.links l.node = 0 ∧ w.Carries (A.removed d l))
      fun _ w => w.Carries A ∨
        ∃ l ∈ A.links d, l.name = name ∧ l.isDir = true ∧ A.links l.node = 0 ∧ w.Carries (A.removed d l) := by
  refine (endsOn_rmdir h.sound d name).mono ?_ ?_
  · rintro _ w ⟨ino, inode, hr⟩
    obtain ⟨l, hl, hname, rfl, hdir, hempty, hw⟩ := hr.carries h htidy hproper hgap
    exact ⟨l, hl, hname, hdir, hempty, hw⟩
  · rintro _ w (rfl | ⟨ino, inode, u, hdropped, hnone⟩ | ⟨ino, inode, hr⟩)
    · exact .inl h
    · -- The holder is another directory, which is still there.
      obtain ⟨l, hl, -, -, -, -, hne, hw⟩ := hdropped.carries h htidy hproper hgap
      obtain ⟨n, hn⟩ := htidy.isDir_of_mem d l hl
      rw [← hw.shows.node_eq_none, Names.node_drop, Function.update_of_ne hne, Names.node_take, hn] at hnone
      cases hnone
    · obtain ⟨l, hl, hname, rfl, hdir, hempty, hw⟩ := hr.carries h htidy hproper hgap
      exact .inr ⟨l, hl, hname, hdir, hempty, hw⟩

/-! ### Renaming -/

/-- The target of a renaming goes when it is of the same kind; nothing happens when it is the same node. -/
theorem endsOn_replaceTarget_names (h : v.Carries A) (htidy : A.Tidy 1) (hproper : name ≠ "." ∧ name ≠ "..")
    (hgap : v.Gapless d name) (source : Inode) (ino : Nat) :
    EndsOn view (replaceTarget source ino d name) v
      (fun proceed w => (proceed = true ∧ ∃ B, A.Cleared d name ino source.isDir B ∧ w.Carries B ∧ A.IsDir d) ∨
        proceed = false ∧ w.Carries A ∧ ∃ k ∈ A.links d, k.name = name ∧ k.node = ino)
      fun _ w => w.Carries A ∨ ∃ B, A.Cleared d name ino source.isDir B ∧ w.Carries B ∧ A.IsDir d := by
  refine (reads_lookup h.sound d name).bind_endsOn_except (fun found hfound => ?_) fun _ _ => .inl h
  cases found with
  | none =>
    obtain ⟨hd, -, -, hname⟩ := h.shows.lookup_none hfound
    exact endsOn_pure (.inl ⟨rfl, A, .free hname, h, hd⟩)
  | some target =>
    obtain ⟨k, hk, hname, hnode⟩ := h.shows.exists_link hfound hproper.1 hproper.2
    by_cases hsame : target = ino
    · simp only [if_pos hsame]
      exact endsOn_pure (.inr ⟨rfl, h, k, hk, hname, hnode.trans hsame⟩)
    · simp only [if_neg hsame]
      have hunique : ∀ l ∈ A.links d, l.name = name → l = k := fun l hl hl' =>
        Multiset.inj_on_of_nodup_map (htidy.nodup d) l hl k hk (hl'.trans hname.symm)
      have hne : k.node ≠ ino := hnode.trans_ne hsame
      have hd := htidy.isDir_of_mem d k hk
      refine (reads_getattr h.sound.geometry target).bind_endsOn_except (fun inode _ => ?_) fun _ _ => .inl h
      cases hs : source.isDir <;> cases inode.isDir
      · have hcleared : ∀ l ∈ A.links d, l.name = name → l.isDir = false →
            A.Cleared d name ino false (A.removed d l) := by
          intro l hl hl' hfile
          obtain rfl := hunique l hl hl'
          exact .removed hl hl' hne hfile (htidy.links_of_file hl hfile)
        refine (endsOn_unlink_names h htidy hproper hgap).bind ?_ ?_
        · rintro _ w ⟨l, hl, hl', hfile, hw⟩
          exact endsOn_pure (.inl ⟨rfl, _, hcleared l hl hl' hfile, hw, hd⟩)
        · rintro _ w (hw | ⟨l, hl, hl', hfile, hw⟩)
          · exact .inl hw
          · exact .inr ⟨_, hcleared l hl hl' hfile, hw, hd⟩
      · exact endsOn_bind (endsOn_throw (.inl h))
      · exact endsOn_bind (endsOn_throw (.inl h))
      · have hcleared : ∀ l ∈ A.links d, l.name = name → l.isDir = true → A.links l.node = 0 →
            A.Cleared d name ino true (A.removed d l) := by
          intro l hl hl' hdir hempty
          obtain rfl := hunique l hl hl'
          exact .removed hl hl' hne hdir hempty
        refine (endsOn_rmdir_names h htidy hproper hgap).bind ?_ ?_
        · rintro _ w ⟨l, hl, hl', hdir, hempty, hw⟩
          exact endsOn_pure (.inl ⟨rfl, _, hcleared l hl hl' hdir hempty, hw, hd⟩)
        · rintro _ w (hw | ⟨l, hl, hl', hdir, hempty, hw⟩)
          · exact .inl hw
          · exact .inr ⟨_, hcleared l hl hl' hdir hempty, hw, hd⟩

section Parts

variable {σ : Type} [BlockDevice σ]

/-- `rename` before the old entry goes: the inode of the source, unless there is nothing to do. -/
def startRename (parentIno : Nat) (name : String) (newParentIno : Nat) (newName : String) :
    FsM σ (Option Inode) := do
  let found ← lookup parentIno name
  match found with
  | none => throw .notFound
  | some ino => do
    let source ← getattr ino
    let proceed ← replaceTarget source ino newParentIno newName
    if proceed then
      addDirEntry newParentIno ino newName (if source.isDir then FILE_TYPE_DIR else FILE_TYPE_FILE)
      pure (some source)
    else
      pure none

/-- The rest of `rename`. -/
def finishRename (source : Inode) (parentIno : Nat) (name : String) (newParentIno : Nat) : FsM σ Unit := do
  removeDirEntry parentIno name
  if source.isDir ∧ parentIno ≠ newParentIno then
    moveDirectory source parentIno newParentIno
  sync

theorem rename_eq {parentIno newParentIno : Nat} {newName : String}
    (hne : ¬(parentIno = newParentIno ∧ name = newName)) :
    (rename parentIno name newParentIno newName : FsM σ Unit) =
      startRename parentIno name newParentIno newName >>= fun started =>
        started.elim (pure ()) fun source => finishRename source parentIno name newParentIno := by
  rw [rename, if_neg hne, startRename, bind_assoc]
  congr 1
  funext found
  cases found with
  | none => rfl
  | some ino =>
    dsimp only
    rw [bind_assoc]
    congr 1
    funext source
    rw [bind_assoc]
    congr 1
    funext proceed
    cases proceed with
    | false => rfl
    | true =>
      rw [if_pos rfl, if_pos rfl, bind_assoc]
      rfl

end Parts

/-- A directory has a first block. -/
theorem exists_first_block (h : v.Shows A) (hi : v.inodes ino = some inode) (hdir : inode.isDir = true) :
    ∃ b, thenSome ((Root.direct 0).pointer inode) = some b := by
  obtain ⟨dir, hlists, hrows⟩ := (h ino).exists_rows inode hi hdir
  obtain ⟨es, hes, -⟩ := hrows.dotdot
  obtain ⟨s, b, hslot, hown, -, -⟩ := hlists.exists_blockAt hi (List.getElem?_eq_some_iff.1 hes).1
  rw [dataSlot_direct (show 0 < 12 by omega), Option.some.injEq] at hslot
  refine ⟨b, ?_⟩
  rw [← hown, ← hslot, ← View.ownWith_self hi]
  exact (View.ownWith_direct 0).symm

/-- A copy of the inode of a directory names the first block that the directory has now. -/
theorem first_pointer_eq {source : Inode} (hkeep : ∀ (r : Root) c, thenSome (r.pointer source) = some c →
    thenSome (r.pointer inode) = some c) (hblock : ∃ b, thenSome ((Root.direct 0).pointer source) = some b) :
    (Root.direct 0).pointer source = (Root.direct 0).pointer inode := by
  obtain ⟨b, hb⟩ := hblock
  obtain ⟨-, hnat⟩ := thenSome_eq_some.1 hb
  obtain ⟨-, hnat'⟩ := thenSome_eq_some.1 (hkeep _ _ hb)
  exact UInt64.toNat_inj.1 (hnat.trans hnat'.symm)

/-- Moving a directory to another parent cannot fail. -/
theorem endsOn_moveDirectory_names (h : v.Carries A) {source : Inode} (hi : v.inodes ino = some inode)
    (hdir : inode.isDir = true) (hpointer : (Root.direct 0).pointer source = (Root.direct 0).pointer inode)
    {parentIno newParentIno n n' : Nat} (hd : A.node parentIno = some (true, n))
    (hd' : A.node newParentIno = some (true, n')) (hne : parentIno ≠ newParentIno) (hfew : n' + 1 < 2 ^ 32) :
    EndsOn view (moveDirectory source parentIno newParentIno) v
      (fun _ w => w.Carries (((A.reparent ino newParentIno).recount parentIno (n - 1)).recount newParentIno (n' + 1)))
      fun _ _ => False := by
  obtain ⟨new, hnew⟩ := h.shows.exists_inode (y := newParentIno) (by rw [hd']; exact Option.some_ne_none _)
  refine endsOn_of_live fun hlive => (h.shows.endsOn_updateDotdot h.sound hi hdir hpointer
    (h.ino_bounds (hlive _ _ hnew).1)).bind ?_ fun _ _ hf => hf
  rintro _ u ⟨hsound, hsb, hinodes, hshows⟩
  have hu : u.Carries (A.reparent ino newParentIno) := ⟨hsound, hshows, by rw [hsb]; exact h.few⟩
  refine endsOn_bind (endsOn_now fun time => ?_)
  obtain ⟨old, hold⟩ := hu.shows.exists_inode (y := parentIno) (by
    rw [Names.node_reparent, hd]
    exact Option.some_ne_none _)
  have hget := reads_getattr hsound.geometry parentIno
  rw [View.getattr_of_some hold] at hget
  refine hget.bind_endsOn (endsOn_of_live fun hlive' => ?_)
  obtain ⟨-, hn⟩ := hu.shows.eq_of_node hold hd
  have hw := hu.attributes hold (old.sameMap_links (saturatingPred old.nlink) time time)
  refine endsOn_bind (endsOn_writeInode hsound.geometry (hlive' _ _ hold).1 ?_)
  obtain ⟨new', hnew'⟩ : ∃ new', (u.setInode parentIno { old with
      nlink := saturatingPred old.nlink, mtime := time, ctime := time }).inodes newParentIno = some new' := by
    refine ⟨new, ?_⟩
    rw [View.inodes_setInode, Function.update_of_ne hne.symm, hinodes, hnew]
  have hnode : ((A.reparent ino newParentIno).recount parentIno (saturatingPred old.nlink).toNat).node newParentIno =
      some (true, n') := by
    rw [Names.node_recount, Function.update_of_ne hne.symm, Names.node_reparent, hd']
  obtain ⟨-, hn'⟩ := hw.shows.eq_of_node hnew' hnode
  have hget' := reads_getattr hw.sound.geometry newParentIno
  rw [View.getattr_of_some hnew'] at hget'
  refine hget'.bind_endsOn (endsOn_of_live fun hlive'' => ?_)
  refine endsOn_writeInode hw.sound.geometry (hlive'' _ _ hnew').1
    ((hw.attributes hnew' (new'.sameMap_links (new'.nlink + 1) time time)).congr_names ?_)
  dsimp only
  rw [toNat_saturatingPred, hn, toNat_succ_of_lt (by rwa [hn']), hn']

theorem endsOn_startRename_sound (hs : v.Sound) (parentIno : Nat) (name : String) (newParentIno : Nat)
    (newName : String) :
    EndsOn view (startRename parentIno name newParentIno newName) v (fun _ w => w.Sound) fun _ w => w.Sound := by
  refine (reads_lookup hs parentIno name).bind_endsOn_except (fun found _ => ?_) fun _ _ => hs
  cases found with
  | none => exact endsOn_throw hs
  | some ino =>
    refine (reads_getattr hs.geometry ino).bind_endsOn_except (fun source _ => ?_) fun _ _ => hs
    refine (endsOn_replaceTarget hs source ino newParentIno newName).bind ?_ fun _ _ hsteps => hsteps.sound hs
    rintro proceed u (⟨rfl, hreplaced⟩ | ⟨rfl, -, rfl⟩)
    · have hu := hreplaced.steps.sound hs
      refine (endsOn_addDirEntry hu newParentIno ino newName _).bind
        (fun _ w hadded => endsOn_pure (hadded.sound hu)) ?_
      rintro _ w (rfl | hstopped)
      · exact hu
      · exact hstopped.sound
    · exact endsOn_pure hs

/-- The new entry is there, beside the old one. -/
structure Doubled (A : Names Nat String) (parentIno : Nat) (newParentIno : Nat) (newName : String) (source : Inode)
    (l : Link Nat String) (B : Names Nat String) (w : View) : Prop where
  mem : l ∈ A.links parentIno
  cleared : A.Cleared newParentIno newName l.node l.isDir B
  isDir : A.IsDir newParentIno
  carries : w.Carries (B.put newParentIno ⟨newName, l.node, l.isDir⟩)
  exists_inode : ∃ inode, w.inodes l.node = some inode ∧ inode.isDir = l.isDir ∧ source.isDir = l.isDir ∧
    (l.isDir = true → (Root.direct 0).pointer source = (Root.direct 0).pointer inode)

theorem endsOn_startRename (h : v.Carries A) (htidy : A.Tidy 1) {parentIno newParentIno : Nat} {newName : String}
    (hproper : name ≠ "." ∧ name ≠ "..") (hproper' : newName ≠ "." ∧ newName ≠ "..")
    (hgap : v.Gapless newParentIno newName) :
    EndsOn view (startRename parentIno name newParentIno newName) v
      (fun started w => (∃ source l B, started = some source ∧ l.name = name ∧
          Doubled A parentIno newParentIno newName source l B w) ∨
        started = none ∧ w.Carries A ∧ parentIno = newParentIno ∧ name = newName)
      fun _ w => w.Carries A ∨ ∃ l ∈ A.links parentIno, l.name = name ∧ A.IsDir newParentIno ∧
        ∃ B, A.Cleared newParentIno newName l.node l.isDir B ∧ w.Carries B := by
  refine (reads_lookup h.sound parentIno name).bind_endsOn_except (fun found hfound => ?_) fun _ _ => .inl h
  cases found with
  | none => exact endsOn_throw (.inl h)
  | some ino =>
    obtain ⟨l, hl, hname, rfl⟩ := h.shows.exists_link hfound hproper.1 hproper.2
    refine (reads_getattr h.sound.geometry l.node).bind_endsOn_except (fun source hsource => ?_) fun _ _ => .inl h
    have hi := View.inodes_of_getattr hsource
    obtain ⟨n, hn⟩ := htidy.target parentIno l hl
    obtain ⟨hdir, -⟩ := h.shows.eq_of_node hi hn
    refine endsOn_of_live fun hlive => (((endsOn_replaceTarget_names h htidy hproper' hgap source l.node).and
      (endsOn_replaceTarget h.sound source l.node newParentIno newName)).bind ?_ ?_)
    · rintro proceed u ⟨⟨rfl, B, hcleared, hu, hd⟩ | ⟨rfl, hu, k, hk, hkname, hknode⟩, hreplaced⟩
      · have hkeeps : Keeps l.node v u := by
          rcases hreplaced with ⟨-, hreplaced⟩ | ⟨hfalse, -⟩
          · exact hreplaced.keeps
          · cases hfalse
        have hadd := (endsOn_addDirEntry_names (d := newParentIno) (l := ⟨newName, l.node, l.isDir⟩) hu
          (h.ino_bounds (hlive _ _ hi).1) hproper').and (endsOn_addDirEntry hu.sound newParentIno l.node newName _)
        simp only [if_true]
        rw [hdir] at hcleared ⊢
        refine hadd.bind ?_ fun _ w hw => .inr ⟨l, hl, hname, hd, B, hcleared, hw.1⟩
        rintro _ w ⟨hw, hadded⟩
        obtain ⟨inode, hi', hdir', hroots⟩ := (hkeeps.trans hadded.keeps) source hi
        exact endsOn_pure (.inl ⟨source, l, B, rfl, hname, hl, hcleared, hd, hw, inode, hi', hdir'.trans hdir, hdir,
          fun hl' => first_pointer_eq hroots (exists_first_block h.shows hi (hdir.trans hl'))⟩)
      · simp only [Bool.false_eq_true, if_false]
        obtain ⟨heq, rfl⟩ := htidy.once newParentIno k hk parentIno l hl hknode
        exact endsOn_pure (.inr ⟨rfl, hu, heq.symm, hname.symm.trans hkname⟩)
    · rintro _ w ⟨hw | ⟨B, hcleared, hw, hd⟩, -⟩
      · exact .inl hw
      · exact .inr ⟨l, hl, hname, hd, B, hdir ▸ hcleared, hw⟩

/-- What is left of a renaming when the new entry is there. -/
theorem endsOn_finishRename {parentIno newParentIno : Nat} {newName : String} {source : Inode} (htidy : A.Tidy 1)
    (h : Doubled A parentIno newParentIno newName source l B v)
    (hne : ¬(parentIno = newParentIno ∧ l.name = newName)) (hgap : v.Gapless parentIno l.name) :
    EndsOn view (finishRename source parentIno l.name newParentIno) v
      (fun _ w => w.Carries (B.moved parentIno l newParentIno newName))
      fun _ w => w.Carries (B.moved parentIno l newParentIno newName) := by
  have htidy' := h.cleared.tidy htidy
  have hl := h.cleared.mem_links h.mem
  have hd := htidy'.isDir_of_mem parentIno l hl
  have hd' := h.cleared.isDir_of h.isDir
  have hfree := h.cleared.name_ne htidy
  have hmoved := htidy'.moved hl hd' hfree
  set l' : Link Nat String := ⟨newName, l.node, l.isDir⟩
  have hput : l ∈ (B.put newParentIno l').links parentIno ∧
      ∀ k ∈ (B.put newParentIno l').links parentIno, k.name = l.name → k = l := by
    by_cases hsame : parentIno = newParentIno
    · subst hsame
      rw [Names.links_put, Function.update_self]
      refine ⟨Multiset.mem_cons_of_mem hl, fun k hk hname => ?_⟩
      rcases Multiset.mem_cons.1 hk with rfl | hk
      · exact absurd ⟨rfl, hname.symm⟩ hne
      · exact Multiset.inj_on_of_nodup_map (htidy'.nodup parentIno) k hk l hl hname
    · rw [Names.links_put, Function.update_of_ne hsame]
      exact ⟨hl, fun k hk hname => Multiset.inj_on_of_nodup_map (htidy'.nodup parentIno) k hk l hl hname⟩
  refine ((endsOn_removeDirEntry_names h.carries hd hput.1 hput.2 hgap).and
    (endsOn_removeDirEntry h.carries.sound parentIno l.name)).bind ?_ fun _ _ hf => hf.1.elim
  rintro _ u ⟨hu, htaken⟩
  obtain ⟨inode, hi, hidir, hsdir, hpointer⟩ := h.exists_inode
  by_cases hmove : source.isDir ∧ parentIno ≠ newParentIno
  · rw [if_pos hmove]
    obtain ⟨inode', hi', hsame⟩ := htaken.inode_eq hi
    have hldir : l.isDir = true := hsdir ▸ hmove.1
    obtain ⟨n, hn⟩ := hd
    obtain ⟨n', hn'⟩ := hd'
    have hnode : (B.moved parentIno l newParentIno newName).node newParentIno = some (true, n' + 1) := by
      rw [Names.moved_eq_recount hldir hmove.2 hn hn', Names.node_recount, Function.update_self, Names.node_recount,
        Function.update_of_ne hmove.2.symm, Names.node_reparent, Names.node_take, Names.node_put, hn', Option.map_some]
    refine endsOn_of_live fun hlive => ?_
    have hcount := hu.count_lt hmoved (fun y hy => ?_) newParentIno
    · rw [← hmoved.count_eq _ _ hnode] at hcount
      refine (endsOn_moveDirectory_names hu hi' (hsame.isDir_eq.trans (hidir.trans hldir))
        ((hpointer hldir).trans (hsame.pointer_eq _).symm) hn hn' hmove.2 hcount).bind ?_ fun _ _ hf => hf.elim
      intro _ w hw
      rw [← Names.moved_eq_recount hldir hmove.2 hn hn'] at hw
      exact endsOn_sync hw.sound.geometry hw fun _ => hw
    · have hput : (B.put newParentIno l').node y ≠ none := by
        intro hnone
        rw [Names.node_put] at hnone
        rw [Names.moved, Names.node_attach, if_pos hldir, Names.node_reparent, Names.node_detach, hnone] at hy
        exact hy rfl
      obtain ⟨i, hy⟩ := hu.shows.exists_inode (y := y) hput
      exact (hlive y i hy).1
  · rw [if_neg hmove]
    have hw := hu.congr_names (Names.moved_eq htidy' hl hne fun hdir => hmove ⟨hsdir.trans hdir.1, hdir.2⟩).symm
    exact (reads_pure _ _).bind_endsOn (endsOn_sync hu.sound.geometry hw fun _ => hw)

/-- A renaming moves a link, after the name has been made free. When it fails the link is still there. -/
theorem ends_rename_names {fs : AlbumFs Disk} (h : fs.view.Carries A) (htidy : A.Tidy 1)
    {parentIno newParentIno : Nat} {newName : String} (hproper : name ≠ "." ∧ name ≠ "..")
    (hproper' : newName ≠ "." ∧ newName ≠ "..") (hgap : fs.view.Gapless newParentIno newName)
    (hgap' : ∀ source fs', exec (startRename parentIno name newParentIno newName) fs = (.ok (some source), fs') →
      fs'.view.Gapless parentIno name) :
    Ends (rename parentIno name newParentIno newName) fs
      (fun _ fs' => parentIno = newParentIno ∧ name = newName ∧ fs'.view.Carries A ∨
        ∃ l ∈ A.links parentIno, l.name = name ∧ A.IsDir newParentIno ∧ ¬(parentIno = newParentIno ∧ name = newName) ∧
          ∃ B, A.Cleared newParentIno newName l.node l.isDir B ∧
            fs'.view.Carries (B.moved parentIno l newParentIno newName))
      fun _ fs' => fs'.view.Carries A ∨
        ∃ l ∈ A.links parentIno, l.name = name ∧ A.IsDir newParentIno ∧ ¬(parentIno = newParentIno ∧ name = newName) ∧
          ∃ B, A.Cleared newParentIno newName l.node l.isDir B ∧
            (fs'.view.Carries B ∨ fs'.view.Carries (B.moved parentIno l newParentIno newName)) := by
  by_cases hne : parentIno = newParentIno ∧ name = newName
  · rw [rename, if_pos hne]
    exact .inl ⟨hne.1, hne.2, h⟩
  rw [rename_eq hne]
  refine (((endsOn_startRename h htidy hproper hproper' hgap) fs rfl).and (ends_exec _ fs)).bind ?_ ?_
  · rintro started fs' ⟨⟨source, l, B, rfl, rfl, hdoubled⟩ | ⟨rfl, -, heq⟩, hexec⟩
    · refine ((endsOn_finishRename htidy hdoubled hne (hgap' source fs' hexec)) fs' rfl).mono ?_ ?_
      · exact fun _ _ hw => .inr ⟨l, hdoubled.mem, rfl, hdoubled.isDir, hne, B, hdoubled.cleared, hw⟩
      · exact fun _ _ hw => .inr ⟨l, hdoubled.mem, rfl, hdoubled.isDir, hne, B, hdoubled.cleared, .inr hw⟩
    · exact absurd heq hne
  · rintro _ fs' ⟨hw | ⟨l, hl, hname, hd, B, hcleared, hw⟩, -⟩
    · exact .inl hw
    · exact .inr ⟨l, hl, hname, hd, hne, B, hcleared, .inl hw⟩

end AlbumFs

end AlbumFS

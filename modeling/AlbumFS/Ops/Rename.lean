import AlbumFS.Ops.Namespace

/-!
# Renaming

What `rename` does to the view. A successful renaming removes the target when there is one, adds
the new entry, removes the old one, and for a directory that changes its parent also rewrites the
`..` entry and the two link counts.

## Main definitions

* `AlbumFs.Replaced`, `AlbumFs.DirMoved`: the parts of a successful renaming.
* `AlbumFs.Renamed`: a successful renaming.

## Main results

* `AlbumFs.endsOn_rename`.
-/

namespace AlbumFS

open BlockTree Ownership Prog

namespace AlbumFs

variable {u v w : View} {parentIno ino : Nat} {name : String} {fileType : UInt8}

/-! ### Inodes that stay -/

/-- The inode `ino`, if it is live, stays so, keeps its kind and the pointers it has. -/
def Keeps (ino : Nat) (v w : View) : Prop :=
  ∀ inode, v.inodes ino = some inode → ∃ inode', w.inodes ino = some inode' ∧
    inode'.isDir = inode.isDir ∧ ∀ (r : Root) c, thenSome (r.pointer inode) = some c →
      thenSome (r.pointer inode') = some c

theorem Keeps.refl (ino : Nat) (v : View) : Keeps ino v v :=
  fun inode hi => ⟨inode, hi, rfl, fun _ _ hc => hc⟩

theorem Keeps.trans (h : Keeps ino u v) (h' : Keeps ino v w) : Keeps ino u w := by
  intro inode hi
  obtain ⟨inode', hi', hdir, hp⟩ := h inode hi
  obtain ⟨inode'', hi'', hdir', hp'⟩ := h' inode' hi'
  exact ⟨inode'', hi'', hdir'.trans hdir, fun r c hc => hp' r c (hp r c hc)⟩

theorem Added.inodes_eq (h : Added v parentIno ino name fileType w) :
    ∃ parent parent', v.inodes parentIno = some parent ∧ parent.isDir = true ∧
      w.inodes = Function.update v.inodes parentIno (some parent') ∧
      parent'.mode = parent.mode ∧ parent'.nlink = parent.nlink ∧
      ∀ (r : Root) c, thenSome (r.pointer parent) = some c → thenSome (r.pointer parent') = some c := by
  cases h with
  | insert hparent hdir hscan =>
    rename_i parent b payload time
    refine ⟨parent, parent.touched time, hparent, hdir, ?_, rfl, rfl, fun r c hc => ?_⟩
    · rw [View.inodes_setInode, View.inodes_setData, Inode.live_of_ne]
      exact Inode.mode_ne_zero parent hdir
    · rwa [Root.pointer_touched]
  | grow hparent hdir hscan hs hown hgrows hcontent hput =>
    rename_i parent parent' s b v₁ payload time
    have hmode : (parent'.grown time).mode ≠ 0 := by
      rw [Inode.mode_grown]
      exact Inode.mode_ne_zero parent' ((Inode.isDir_eq hgrows.attributes_eq).trans hdir)
    refine ⟨parent, parent'.grown time, hparent, hdir, ?_,
      (parent'.mode_grown time).trans (Inode.mode_eq hgrows.attributes_eq),
      (parent'.nlink_grown time).trans (Inode.nlink_eq hgrows.attributes_eq), fun r c hc => ?_⟩
    · rw [View.inodes_setInode, View.inodes_setData, hgrows.inodes_eq, Inode.live_of_ne hmode]
    · rw [Root.pointer_grown]
      exact hgrows.roots r c hc

theorem Added.keeps {new : Nat} (h : Added v parentIno new name fileType w) : Keeps ino v w := by
  obtain ⟨parent, parent', hparent, -, hw, hmode, -, hp⟩ := h.inodes_eq
  intro inode hi
  rw [hw]
  by_cases hino : ino = parentIno
  · subst hino
    obtain rfl : parent = inode := Option.some.inj (hparent.symm.trans hi)
    exact ⟨parent', Function.update_self _ _ _, by rw [Inode.isDir, hmode, Inode.isDir], hp⟩
  · exact ⟨inode, by rw [Function.update_of_ne hino, hi], rfl, fun _ _ hc => hc⟩

theorem Taken.keeps (h : Taken v parentIno name w) : Keeps ino v w := by
  intro inode hi
  obtain ⟨inode', hi', hsame⟩ := h.inode_eq hi
  exact ⟨inode', hi', hsame.isDir_eq, fun r c hc => by rwa [hsame.pointer_eq]⟩

theorem Dropped.keeps {target : Nat} {inode : Inode} (h : Dropped v target inode w)
    (hne : ino ≠ target) : Keeps ino v w := by
  obtain ⟨v', inode', hr, rfl⟩ := h
  intro stored hs
  exact ⟨stored, by rw [View.inodes_setInode, Function.update_of_ne hne, hr.shrinks.inodes_eq, hs],
    rfl, fun _ _ hc => hc⟩

/-! ### Operations as sequences of steps -/

theorem DirCreated.steps {parentIno ino : Nat} {name : String} {mode : UInt32}
    (h : DirCreated v parentIno name mode ino w) : Steps v w := by
  obtain ⟨time, u, u', parent, hmade, hadded, hparent, rfl⟩ := h
  have hdir : parent.isDir = true := by
    obtain ⟨old, new, -, hdir, hinodes, hmode, -⟩ := hadded.inodes_eq
    rw [hinodes, Function.update_self, Option.some.injEq] at hparent
    rw [← hparent, Inode.isDir, hmode]
    exact hdir
  exact ((Relation.ReflTransGen.single (Step.dirMade hmade)).tail (.added hadded)).tail
    (.attributes hparent (parent.sameMap_links _ _ _) (Inode.mode_ne_zero _ hdir))

theorem Created.steps {parentIno ino : Nat} {name : String} {mode : UInt32}
    (h : Created v parentIno name mode ino w) : Steps v w := by
  obtain ⟨u, hmade, hadded⟩ := h
  exact (Relation.ReflTransGen.single (Step.fileMade hmade)).tail (.added hadded)

theorem Unlinked.steps {inode : Inode} (h : Unlinked v parentIno name ino inode u w) :
    Steps v w := by
  obtain ⟨inode', hi', hsame⟩ := h.taken.inode_eq h.inode_eq
  refine (Relation.ReflTransGen.single (.taken h.taken)).tail ?_
  rcases h.outcome with ⟨-, hdrop⟩ | ⟨-, time, rfl⟩
  · exact .dropped hi' ((inode.sameMap_links _ _ _).trans hsame.symm) hdrop
  · exact .attributes hi' ((inode.sameMap_links _ _ _).trans hsame.symm) (hsame.mode_eq ▸ h.mode_ne)

theorem DirDropped.steps {inode : Inode} (h : DirDropped v parentIno name ino inode u w) :
    Steps v w := by
  obtain ⟨inode', hi', hsame⟩ := h.taken.inode_eq h.inode_eq
  exact (Relation.ReflTransGen.single (.taken h.taken)).tail (.dropped hi' hsame.symm h.dropped)

/-- The directory is removed from another directory. -/
theorem DirDropped.ne {inode parent : Inode} (h : DirDropped v parentIno name ino inode u w)
    (hp : w.inodes parentIno = some parent) : parentIno ≠ ino := by
  obtain ⟨v', inode', -, rfl⟩ := h.dropped
  rintro rfl
  rw [View.inodes_setInode, Function.update_self, Inode.live_default] at hp
  cases hp

theorem DirDropped.parent {inode parent : Inode} (h : DirDropped v parentIno name ino inode u w)
    (hp : w.inodes parentIno = some parent) : parent.isDir = true := by
  obtain ⟨stored, time, hstored, hdir, -⟩ := h.taken.inodes_eq
  obtain ⟨parent', hp', hdir', -⟩ :=
    ((h.taken.keeps : Keeps parentIno _ _).trans (h.dropped.keeps (h.ne hp))) stored hstored
  rw [hp, Option.some.injEq] at hp'
  rw [hp', hdir', hdir]

theorem DirRemoved.steps {inode : Inode} (h : DirRemoved v parentIno name ino inode w) :
    Steps v w := by
  obtain ⟨u, u', parent, time, hdropped, hparent, rfl⟩ := h
  exact hdropped.steps.tail (.attributes hparent (parent.sameMap_links _ _ _)
    (Inode.mode_ne_zero _ (hdropped.parent hparent)))

theorem RmdirFailed.steps (h : RmdirFailed v parentIno name w) : Steps v w := by
  rcases h with rfl | ⟨ino, inode, u, hdropped, -⟩ | ⟨ino, inode, hremoved⟩
  · exact .refl
  · exact hdropped.steps
  · exact hremoved.steps

theorem Unlinked.keeps {target : Nat} {inode : Inode}
    (h : Unlinked v parentIno name target inode u w) (hne : ino ≠ target) : Keeps ino v w := by
  refine h.taken.keeps.trans ?_
  rcases h.outcome with ⟨-, hdrop⟩ | ⟨-, time, rfl⟩
  · exact hdrop.keeps hne
  · intro stored hs
    exact ⟨stored, by rw [View.inodes_setInode, Function.update_of_ne hne, hs], rfl, fun _ _ hc => hc⟩

/-- Storing an inode with the same map. -/
theorem keeps_setInode {changed : Nat} {inode inode' : Inode} (hi : v.inodes changed = some inode)
    (hsame : inode'.SameMap inode) (hmode : inode.mode ≠ 0) :
    Keeps ino v (v.setInode changed inode') := by
  intro stored hs
  by_cases hino : ino = changed
  · subst hino
    obtain rfl : inode = stored := Option.some.inj (hi.symm.trans hs)
    refine ⟨inode', ?_, hsame.isDir_eq, fun r c hc => by rwa [hsame.pointer_eq]⟩
    rw [View.inodes_setInode, Function.update_self, Inode.live_of_ne (hsame.mode_eq ▸ hmode)]
  · exact ⟨stored, by rw [View.inodes_setInode, Function.update_of_ne hino, hs], rfl, fun _ _ hc => hc⟩

theorem DirRemoved.keeps {target : Nat} {inode : Inode}
    (h : DirRemoved v parentIno name target inode w) (hne : ino ≠ target) : Keeps ino v w := by
  obtain ⟨u, u', parent, time, hdropped, hparent, rfl⟩ := h
  exact hdropped.taken.keeps.trans ((hdropped.dropped.keeps hne).trans (keeps_setInode hparent
    (parent.sameMap_links _ _ _) (Inode.mode_ne_zero _ (hdropped.parent hparent))))

/-! ### Renaming -/

/-- The target of a renaming of `ino`, if there is one, is removed. -/
def Replaced (v : View) (ino newParentIno : Nat) (newName : String) (isDir : Bool) (w : View) : Prop :=
  (v.lookup newParentIno newName = .ok none ∧ w = v) ∨
  ∃ target inode, target ≠ ino ∧
    ((isDir = false ∧ ∃ u, Unlinked v newParentIno newName target inode u w) ∨
      (isDir = true ∧ DirRemoved v newParentIno newName target inode w))

theorem Replaced.steps {newParentIno : Nat} {newName : String} {isDir : Bool}
    (h : Replaced v ino newParentIno newName isDir w) : Steps v w := by
  rcases h with ⟨-, rfl⟩ | ⟨target, inode, -, ⟨-, u, hunlinked⟩ | ⟨-, hremoved⟩⟩
  · exact .refl
  · exact hunlinked.steps
  · exact hremoved.steps

theorem Replaced.keeps {newParentIno : Nat} {newName : String} {isDir : Bool}
    (h : Replaced v ino newParentIno newName isDir w) : Keeps ino v w := by
  rcases h with ⟨-, rfl⟩ | ⟨target, inode, hne, ⟨-, u, hunlinked⟩ | ⟨-, hremoved⟩⟩
  · exact .refl _ _
  · exact hunlinked.keeps hne.symm
  · exact hremoved.keeps hne.symm

theorem endsOn_replaceTarget (h : v.Sound) (source : Inode) (ino newParentIno : Nat)
    (newName : String) :
    EndsOn view (replaceTarget source ino newParentIno newName) v
      (fun proceed w => (proceed = true ∧ Replaced v ino newParentIno newName source.isDir w) ∨
        (proceed = false ∧ v.lookup newParentIno newName = .ok (some ino) ∧ w = v))
      fun _ w => Steps v w := by
  refine (reads_lookup h newParentIno newName).bind_endsOn_except (fun found hfound => ?_)
    fun _ _ => .refl
  cases found with
  | none => exact endsOn_pure (.inl ⟨rfl, .inl ⟨hfound, rfl⟩⟩)
  | some target =>
    by_cases hsame : target = ino
    · subst hsame
      simp only [if_true]
      exact endsOn_pure (.inr ⟨rfl, hfound, rfl⟩)
    · simp only [if_neg hsame]
      refine (reads_getattr h.geometry target).bind_endsOn_except (fun inode hinode => ?_)
        fun _ _ => .refl
      cases hs : source.isDir <;> cases ht : inode.isDir
      · refine (endsOn_unlink h newParentIno newName).bind ?_ ?_
        · rintro _ w ⟨target', inode', u, hunlinked⟩
          have htarget := hunlinked.lookup_eq
          rw [hfound, Except.ok.injEq, Option.some.injEq] at htarget
          exact endsOn_pure (.inl ⟨rfl, .inr ⟨target', inode', htarget ▸ hsame, .inl ⟨rfl, u, hunlinked⟩⟩⟩)
        · rintro _ w (rfl | ⟨_, _, _, hunlinked⟩)
          · exact .refl
          · exact hunlinked.steps
      · exact endsOn_bind (endsOn_throw .refl)
      · exact endsOn_bind (endsOn_throw .refl)
      · refine (endsOn_rmdir h newParentIno newName).bind ?_ fun _ _ he => he.steps
        rintro _ w ⟨target', inode', hremoved⟩
        have htarget : v.lookup newParentIno newName = .ok (some target') := by
          obtain ⟨_, _, _, _, hdropped, -⟩ := hremoved
          exact hdropped.lookup_eq
        rw [hfound, Except.ok.injEq, Option.some.injEq] at htarget
        exact endsOn_pure (.inl ⟨rfl, .inr ⟨target', inode', htarget ▸ hsame, .inr ⟨rfl, hremoved⟩⟩⟩)

/-- A directory is moved below another parent: its `..` entry and the two link counts change. -/
def DirMoved (source : Inode) (parentIno newParentIno : Nat) (v w : View) : Prop :=
  ∃ b payload time v₁ oldParent newParent, thenSome ((Root.direct 0).pointer source) = some b ∧
    repointDotdot (UInt64.ofNat newParentIno) (v.data b) 0 = .ok (some payload) ∧
    v.inodes parentIno = some oldParent ∧
    v₁ = (v.setData b payload).setInode parentIno
      { oldParent with nlink := saturatingPred oldParent.nlink, mtime := time, ctime := time } ∧
    v₁.inodes newParentIno = some newParent ∧
    w = v₁.setInode newParentIno
      { newParent with nlink := newParent.nlink + 1, mtime := time, ctime := time }

theorem endsOn_moveDirectory (h : v.Sound) {source inode : Inode} (hi : v.inodes ino = some inode)
    (hdir : inode.isDir = true)
    (hb : ∀ b, thenSome ((Root.direct 0).pointer source) = some b → thenSome ((Root.direct 0).pointer inode) = some b)
    (parentIno newParentIno : Nat) :
    EndsOn view (moveDirectory source parentIno newParentIno) v
      (fun _ w => DirMoved source parentIno newParentIno v w ∧ Steps v w) fun _ w => Steps v w := by
  have hown : ∀ b, thenSome ((Root.direct 0).pointer source) = some b → v.own (Slot.direct ino 0) = some b := by
    intro b hsome
    rw [← View.ownWith_self hi, View.ownWith_direct]
    exact hb b hsome
  refine (endsOn_updateDotdot h.geometry source newParentIno fun b hsome =>
    (h.exclusive.marked (hown b hsome)).1).bind ?_ fun _ w hw => by rw [hw]
  rintro _ w ⟨b, payload, hsome, hrepoint, rfl⟩
  have hstep : Steps v (v.setData b payload) := .single (.dotdot hi hdir (hown b hsome) payload)
  have hg := (hstep.sound h).geometry
  refine endsOn_bind (endsOn_now fun time => ?_)
  refine (reads_getattr hg parentIno).bind_endsOn_except (fun oldParent hold => ?_) fun _ _ => hstep
  have ho := View.inodes_of_getattr hold
  refine endsOn_of_live fun hlive => ?_
  obtain ⟨hvalid, hmode⟩ := hlive _ _ ho
  have hstep₁ := hstep.tail (.attributes ho (oldParent.sameMap_links
    (saturatingPred oldParent.nlink) time time) hmode)
  refine endsOn_bind (endsOn_writeInode hg hvalid ?_)
  refine (reads_getattr (hg.setInode _ _) newParentIno).bind_endsOn_except (fun newParent hnew => ?_)
    fun _ _ => hstep₁
  have hn := View.inodes_of_getattr hnew
  refine endsOn_of_live fun hlive₁ => ?_
  obtain ⟨hvalid₁, hmode₁⟩ := hlive₁ _ _ hn
  exact endsOn_writeInode (hg.setInode _ _) hvalid₁
    ⟨⟨b, payload, time, _, oldParent, newParent, hsome, hrepoint, ho, rfl, hn, rfl⟩,
      hstep₁.tail (.attributes hn (newParent.sameMap_links _ _ _) hmode₁)⟩

/-- A successful renaming that changes something, in the states `u`, `u₁`, `u₂` between its
parts. -/
structure Moved (v : View) (parentIno : Nat) (name : String) (newParentIno : Nat) (newName : String)
    (ino : Nat) (source : Inode) (u u₁ u₂ w : View) : Prop where
  lookup_eq : v.lookup parentIno name = .ok (some ino)
  inode_eq : v.inodes ino = some source
  replaced : Replaced v ino newParentIno newName source.isDir u
  added : Added u newParentIno ino newName (if source.isDir then FILE_TYPE_DIR else FILE_TYPE_FILE) u₁
  taken : Taken u₁ parentIno name u₂
  outcome : if source.isDir ∧ parentIno ≠ newParentIno then
      DirMoved source parentIno newParentIno u₂ w ∧ Steps u₂ w
    else w = u₂

/-- A successful renaming. -/
def Renamed (v : View) (parentIno : Nat) (name : String) (newParentIno : Nat) (newName : String)
    (w : View) : Prop :=
  (w = v ∧ (parentIno = newParentIno ∧ name = newName ∨
    ∃ ino, v.lookup parentIno name = .ok (some ino) ∧ v.lookup newParentIno newName = .ok (some ino))) ∨
  (¬ (parentIno = newParentIno ∧ name = newName) ∧
    ∃ ino source u u₁ u₂, Moved v parentIno name newParentIno newName ino source u u₁ u₂ w)

theorem Moved.steps {newParentIno : Nat} {newName : String} {source : Inode} {u₁ u₂ : View}
    (h : Moved v parentIno name newParentIno newName ino source u u₁ u₂ w) : Steps v w := by
  have hsteps := (h.replaced.steps.tail (.added h.added)).tail (.taken h.taken)
  have houtcome := h.outcome
  split_ifs at houtcome
  · exact hsteps.trans houtcome.2
  · rw [houtcome]
    exact hsteps

theorem Renamed.steps {newParentIno : Nat} {newName : String}
    (h : Renamed v parentIno name newParentIno newName w) : Steps v w := by
  rcases h with ⟨rfl, -⟩ | ⟨-, _, _, _, _, _, hmoved⟩
  · exact .refl
  · exact hmoved.steps

theorem endsOn_rename (h : v.Sound) (parentIno : Nat) (name : String) (newParentIno : Nat)
    (newName : String) :
    EndsOn view (rename parentIno name newParentIno newName) v
      (fun _ w => Renamed v parentIno name newParentIno newName w)
      fun _ w => Steps v w ∨ ∃ ino source u, v.lookup parentIno name = .ok (some ino) ∧
        v.inodes ino = some source ∧ Replaced v ino newParentIno newName source.isDir u ∧
        AddStopped u newParentIno ino newName
          (if source.isDir then FILE_TYPE_DIR else FILE_TYPE_FILE) w := by
  unfold rename
  by_cases hsame : parentIno = newParentIno ∧ name = newName
  · rw [if_pos hsame]
    exact endsOn_pure (.inl ⟨rfl, .inl hsame⟩)
  rw [if_neg hsame]
  refine (reads_lookup h parentIno name).bind_endsOn_except (fun found hfound => ?_)
    fun _ _ => .inl .refl
  cases found with
  | none => exact endsOn_throw (.inl .refl)
  | some ino =>
    refine (reads_getattr h.geometry ino).bind_endsOn_except (fun source hsource => ?_)
      fun _ _ => .inl .refl
    have hi := View.inodes_of_getattr hsource
    refine (endsOn_replaceTarget h source ino newParentIno newName).bind ?_ fun _ _ he => .inl he
    rintro proceed u (⟨rfl, hreplaced⟩ | ⟨rfl, htarget, rfl⟩)
    · simp only [if_true]
      refine (endsOn_addDirEntry (hreplaced.steps.sound h) newParentIno ino newName _).bind ?_ ?_
      · intro _ u₁ hadded
        have hsteps₁ : Steps v u₁ := hreplaced.steps.tail (.added hadded)
        refine (endsOn_removeDirEntry (hsteps₁.sound h) parentIno name).bind ?_ ?_
        · intro _ u₂ htaken
          have hsteps₂ : Steps v u₂ := hsteps₁.tail (.taken htaken)
          have hsound₂ := hsteps₂.sound h
          obtain ⟨inode, hi₂, hdir, hroots⟩ :=
            (hreplaced.keeps.trans (hadded.keeps.trans htaken.keeps)) source hi
          by_cases hmove : source.isDir ∧ parentIno ≠ newParentIno
          · rw [if_pos hmove]
            refine endsOn_bind ((endsOn_moveDirectory hsound₂ hi₂ (hdir.trans hmove.1)
              (fun b hb => hroots (.direct 0) b hb) parentIno newParentIno).mono ?_
              fun _ _ he => .inl (hsteps₂.trans he))
            intro _ w hw
            have hdone : Renamed v parentIno name newParentIno newName w :=
              .inr ⟨hsame, ino, source, u, u₁, u₂, hfound, hi, hreplaced, hadded, htaken,
                by rw [if_pos hmove]; exact hw⟩
            exact endsOn_sync (hdone.steps.sound h).geometry hdone fun _ => .inl hdone.steps
          · rw [if_neg hmove]
            have hdone : Renamed v parentIno name newParentIno newName u₂ :=
              .inr ⟨hsame, ino, source, u, u₁, u₂, hfound, hi, hreplaced, hadded, htaken,
                by rw [if_neg hmove]⟩
            exact (reads_pure _ _).bind_endsOn
              (endsOn_sync hsound₂.geometry hdone fun _ => .inl hdone.steps)
        · rintro _ w rfl
          exact .inl hsteps₁
      · rintro _ w (rfl | hstop)
        · exact .inl hreplaced.steps
        · exact .inr ⟨ino, source, u, hfound, hi, hreplaced, hstop⟩
    · simp only [Bool.false_eq_true, if_false]
      exact endsOn_pure (.inl ⟨rfl, .inr ⟨ino, hfound, htarget⟩⟩)

end AlbumFs

end AlbumFS

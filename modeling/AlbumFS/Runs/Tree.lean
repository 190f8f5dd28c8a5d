import AlbumFS.Runs.Requests

/-!
# The tree of names

What clients see of the namespace after any run of requests whose removals cross no gap. The listing of a directory
and the attributes of its entries agree: names are unique, every entry leads to an inode of its kind, no inode has
two entries, the link count of a directory counts its subdirectories, and `..` leads back.

When no creation fails half-way and no directory is moved below itself, every inode is reached from the root, and
following `..` leads back to it.

## Main definitions

* `LinksRight`: a listing agrees with the inodes.
* `Inside`, `Op.Grounded`: entries of directories, and operations that keep everything reachable.

## Main results

* `Served.refines_names`: every operation is one on the namespace that the file system shows.
* `Served.links_exact`: the listings agree with the inodes.
* `Served.reaches_root`: every inode is reached from the root.
-/

namespace AlbumFS

open Prog

section Shown

variable {v w : View} {A : Names Nat String}

theorem View.Fresh.shows (h : v.Fresh) : v.Shows (Names.rootOnly 1) := by
  intro ino
  have hroot : v.inodes 1 = some (rootInode v.sb.dataStart.toNat) := by rw [h.inodes_eq, Function.update_self]
  by_cases hino : ino = 1
  · subst hino
    refine ⟨?_, fun inode hi => ?_, fun inode hi hdir => ⟨_, h.lists, ?_, ⟨_, rfl, (1, "..", FILE_TYPE_DIR), ?_, rfl⟩, ?_⟩⟩
    · rw [Names.node_rootOnly, Function.update_self, hroot, Option.map_some, isDir_rootInode]
      rfl
    · rw [hroot, Option.some.injEq] at hi
      rw [← hi, show (rootInode _).mode = S_IFDIR ||| 0o755 from rfl]
      decide
    · have hone : 0 < 1 ∧ 1 < 2 ^ 64 := by omega
      have hentries := dirEntries_initialRecords hone hone
      rw [show dirEntries [initialRecords 1 1] = _ from hentries, Names.rootOnly, Multiset.map_zero, add_zero]
      rfl
    · decide
    · exact fun l hl => absurd hl (Multiset.notMem_zero l)
  · have hnone : v.inodes ino = none := by rw [h.inodes_eq, Function.update_of_ne hino]
    refine ⟨?_, fun inode hi => ?_, fun inode hi => ?_⟩
    · rw [Names.node_rootOnly, Function.update_of_ne hino, hnone, Option.map_none]
    · rw [hnone] at hi
      cases hi
    · rw [hnone] at hi
      cases hi

theorem Attributed.shows (h : Attributed v w) (hv : v.Shows A) : w.Shows A := by
  cases h with
  | refl => exact hv
  | @set ino inode inode' hi hpointer hsize hnlink hkind =>
    have hset := hv.setInode hi hpointer hsize hkind
    rwa [hnlink, Names.recount_self (hv.node_of_inode hi)] at hset

end Shown

section Runs

variable {fs : AlbumFs Disk}

/-- What clients reach is a tidy namespace. -/
theorem Served.exists_names (h : Served Op.Clean fs) : fs.view.Sound ∧ ∃ A, A.Tidy 1 ∧ fs.view.Shows A := by
  refine h.invariant (I := fun v => ∃ A, A.Tidy 1 ∧ v.Shows A) ?_ ?_ ?_
  · exact fun v hfresh => ⟨_, Names.tidy_rootOnly 1, hfresh.shows⟩
  · rintro op fs hs ⟨A, htidy, hv⟩ hop
    refine Ends.state (P := fun ft : AlbumFs Disk => ∃ A, A.Tidy 1 ∧ ft.view.Shows A) ?_
    refine (op.ends_run_names hs hv htidy hop).mono ?_ ?_
    · exact fun _ _ hw => hw.imp fun B hB => ⟨hB.1.tidy htidy, hB.2.shows⟩
    · exact fun _ _ hw => hw.imp fun B hB => ⟨hB.1.tidy htidy, hB.2.shows⟩
  · rintro v w - ⟨A, htidy, hv⟩ hattributed
    exact ⟨A, htidy, hattributed.shows hv⟩

/-- The entries of a listing other than `.` and `..`. -/
def children (entries : List Entry) : List Entry := entries.filter fun e => e.2.1 ≠ "." ∧ e.2.1 ≠ ".."

/-- The listing of a directory agrees with the inodes. -/
structure LinksRight (fs : AlbumFs Disk) (ino : Nat) (inode : Inode) (entries : List Entry) : Prop where
  names_nodup : (entries.map fun e => e.2.1).Nodup
  lookup_eq : ∀ e ∈ entries, (exec (AlbumFs.lookup ino e.2.1) fs).1 = .ok (some e.1)
  nlink_eq : inode.nlink.toNat = 2 + ((children entries).filter fun e => e.2.2 = FILE_TYPE_DIR).length
  child : ∀ e ∈ children entries, ∃ child, (exec (AlbumFs.getattr e.1) fs).1 = .ok child ∧
    (child.isDir = true ∧ e.2.2 = FILE_TYPE_DIR ∧ (exec (AlbumFs.lookup e.1 "..") fs).1 = .ok (some ino) ∨
      child.isDir = false ∧ e.2.2 = FILE_TYPE_FILE ∧ child.nlink = 1)

section Listings

variable {v : View} {A : Names Nat String} {ino : Nat} {dir : List (List DirEntry)}

/-- The children are the links. -/
theorem Rows.children_eq (h : Rows A ino dir) :
    (children (dirEntries dir) : Multiset Entry) = (A.links ino).map Link.entry := by
  rw [children, ← Multiset.filter_coe, h.entries_eq, Multiset.filter_add]
  have hdots : (dots ino (A.parent ino)).filter (fun e => e.2.1 ≠ "." ∧ e.2.1 ≠ "..") = 0 := by
    refine Multiset.filter_eq_nil.2 fun e he => ?_
    rcases mem_dots.1 he with rfl | rfl
    · exact fun hne => hne.1 rfl
    · exact fun hne => hne.2 rfl
  have hlinks : ((A.links ino).map Link.entry).filter (fun e => e.2.1 ≠ "." ∧ e.2.1 ≠ "..") =
      (A.links ino).map Link.entry := by
    refine Multiset.filter_eq_self.2 fun e he => ?_
    obtain ⟨l, hl, rfl⟩ := Multiset.mem_map.1 he
    exact h.proper l hl
  rw [hdots, hlinks, zero_add]

theorem Rows.mem_children (h : Rows A ino dir) {e : Entry} (he : e ∈ children (dirEntries dir)) :
    ∃ l ∈ A.links ino, l.entry = e := by
  rw [← Multiset.mem_coe, h.children_eq] at he
  exact Multiset.mem_map.1 he

/-- Names are unique, those that every directory has included. -/
theorem Rows.names_nodup (h : Rows A ino dir) (hnodup : ((A.links ino).map Link.name).Nodup) :
    ((dirEntries dir).map fun e => e.2.1).Nodup := by
  rw [← Multiset.coe_nodup, ← Multiset.map_coe, h.entries_eq, Multiset.map_add, Multiset.nodup_add, Multiset.map_map]
  refine ⟨by simp [dots], hnodup, Multiset.disjoint_left.2 fun hdots hlinks => ?_⟩
  obtain ⟨l, hl, rfl⟩ := Multiset.mem_map.1 hlinks
  obtain ⟨hdot, hdotdot⟩ := h.proper l hl
  obtain ⟨e, he, hname⟩ := Multiset.mem_map.1 hdots
  rcases mem_dots.1 he with rfl | rfl
  · exact hdot hname.symm
  · exact hdotdot hname.symm

/-- With unique names every entry is found. -/
theorem View.Lists.lookup_of_mem (h : v.Lists ino dir) (hnodup : ((dirEntries dir).map fun e => e.2.1).Nodup)
    {e : Entry} (he : e ∈ dirEntries dir) : v.lookup ino e.2.1 = .ok (some e.1) := by
  rw [h.lookup_eq]
  cases hfind : (dirEntries dir).find? fun a => a.2.1 = e.2.1 with
  | none =>
    rw [List.find?_eq_none] at hfind
    exact absurd (decide_eq_true rfl) (hfind e he)
  | some a =>
    have hname : a.2.1 = e.2.1 := by simpa using List.find?_some hfind
    obtain rfl := List.inj_on_of_nodup_map hnodup (List.mem_of_find?_eq_some hfind) he hname
    rfl

theorem View.isDir_of_readdir {entries : List Entry} (h : v.readdir ino = .ok entries) :
    ∃ inode, v.inodes ino = some inode ∧ inode.isDir = true := by
  unfold readdir at h
  cases hi : v.getattr ino with
  | error e =>
    rw [hi] at h
    cases h
  | ok inode =>
    refine ⟨inode, inodes_of_getattr hi, ?_⟩
    by_contra hdir
    rw [hi] at h
    simp only [bind, Except.bind, Bool.not_eq_true] at h hdir
    rw [hdir] at h
    cases h

theorem View.Shows.lookup_dotdot (h : v.Shows A) (htidy : A.Tidy 1) (hd : A.IsDir ino) :
    v.lookup ino ".." = .ok (some (A.parent ino)) := by
  obtain ⟨dir, hlists, hrows⟩ := h.exists_rows hd
  exact hlists.lookup_of_mem (hrows.names_nodup (htidy.nodup ino)) (e := (A.parent ino, "..", FILE_TYPE_DIR))
    (hrows.mem_iff.2 (.inl (mem_dots.2 (.inr rfl))))

end Listings

/-- Every listing agrees with the inodes, and no inode is listed twice. -/
structure ListingsExact (fs : AlbumFs Disk) : Prop where
  right : ∀ ino inode, (exec (AlbumFs.getattr ino) fs).1 = .ok inode → inode.isDir = true →
    ∃ entries, (exec (AlbumFs.readdir ino) fs).1 = .ok entries ∧ LinksRight fs ino inode entries
  once : ∀ d d' entries entries', (exec (AlbumFs.readdir d) fs).1 = .ok entries →
    (exec (AlbumFs.readdir d') fs).1 = .ok entries' →
    ∀ e ∈ children entries, ∀ e' ∈ children entries', e.1 = e'.1 → d = d' ∧ e = e'

/-- After any run of requests the listings agree with the inodes. -/
theorem Served.links_exact (h : Served Op.Clean fs) : ListingsExact fs := by
  obtain ⟨hs, A, htidy, hv⟩ := h.exists_names
  have hget : ∀ ino, (exec (AlbumFs.getattr ino) fs).1 = fs.view.getattr ino := fun ino => by
    rw [AlbumFs.reads_getattr hs.geometry ino fs rfl]
  have hlookup : ∀ ino name, (exec (AlbumFs.lookup ino name) fs).1 = fs.view.lookup ino name := fun ino name => by
    rw [AlbumFs.reads_lookup hs ino name fs rfl]
  have hreaddir : ∀ ino, (exec (AlbumFs.readdir ino) fs).1 = fs.view.readdir ino := fun ino => by
    rw [AlbumFs.reads_readdir hs ino fs rfl]
  constructor
  · intro ino inode hinode hdir
    rw [hget] at hinode
    have hi := View.inodes_of_getattr hinode
    obtain ⟨dir, hlists, hrows⟩ := (hv ino).exists_rows inode hi hdir
    have hnodup := hrows.names_nodup (htidy.nodup ino)
    refine ⟨dirEntries dir, by rw [hreaddir, hlists.readdir_eq], hnodup, fun e he => ?_, ?_, fun e he => ?_⟩
    · rw [hlookup, hlists.lookup_of_mem hnodup he]
    · have hnode := hv.node_of_inode hi
      rw [hdir] at hnode
      rw [htidy.count_eq ino _ hnode, Names.subdirs_eq_card, ← Multiset.coe_card, ← Multiset.filter_coe,
        hrows.children_eq, Multiset.filter_map, Multiset.card_map]
      refine congrArg _ (congrArg _ (Multiset.filter_congr fun l _ => ?_))
      cases hl : l.isDir <;> simp [Link.entry, hl, FILE_TYPE_DIR, FILE_TYPE_FILE]
    · obtain ⟨l, hl, rfl⟩ := hrows.mem_children he
      obtain ⟨n, hn⟩ := htidy.target ino l hl
      obtain ⟨child, hchild⟩ := hv.exists_inode (y := l.node) (by rw [hn]; exact Option.some_ne_none _)
      obtain ⟨hkind, hcount⟩ := hv.eq_of_node hchild hn
      refine ⟨child, by rw [hget, Link.entry, View.getattr_of_some hchild], ?_⟩
      cases hl' : l.isDir with
      | true =>
        refine .inl ⟨hkind.trans hl', by rw [Link.entry, hl', if_pos rfl], ?_⟩
        rw [hlookup, Link.entry, hv.lookup_dotdot htidy ⟨n, by rw [hn, hl']⟩, htidy.parent_eq ino l hl hl']
      | false =>
        refine .inr ⟨hkind.trans hl', by rw [Link.entry, hl', if_neg Bool.false_ne_true], ?_⟩
        rw [hl'] at hn
        rw [← UInt32.toNat_inj, hcount, htidy.file_eq _ n hn]
        rfl
  · intro d d' entries entries' hd hd' e he e' he' hnode
    rw [hreaddir] at hd hd'
    have hrows : ∀ {d entries}, fs.view.readdir d = .ok entries →
        ∃ dir, Rows A d dir ∧ entries = dirEntries dir := by
      intro d entries hd
      obtain ⟨inode, hi, hdir⟩ := View.isDir_of_readdir hd
      obtain ⟨dir, hlists, hrows⟩ := (hv d).exists_rows inode hi hdir
      rw [hlists.readdir_eq, Except.ok.injEq] at hd
      exact ⟨dir, hrows, hd.symm⟩
    obtain ⟨dir, hrows₁, rfl⟩ := hrows hd
    obtain ⟨dir', hrows₂, rfl⟩ := hrows hd'
    obtain ⟨l, hl, rfl⟩ := hrows₁.mem_children he
    obtain ⟨l', hl', rfl⟩ := hrows₂.mem_children he'
    obtain ⟨rfl, rfl⟩ := htidy.once d l hl d' l' hl' hnode
    exact ⟨rfl, rfl⟩

/-! ### The root reaches every inode -/

/-- The directory has an entry that leads to the inode. -/
def Inside (fs : AlbumFs Disk) (d ino : Nat) : Prop :=
  ∃ name, Op.Proper name ∧ (exec (AlbumFs.lookup d name) fs).1 = .ok (some ino)

/-- The entry `..` of the directory leads to the inode. -/
def Above (fs : AlbumFs Disk) (d ino : Nat) : Prop := (exec (AlbumFs.lookup d "..") fs).1 = .ok (some ino)

/-- A creation succeeds, and a renaming moves nothing below itself. -/
def Op.Grounded (op : Op) (fs : AlbumFs Disk) : Prop :=
  match op with
  | create _ _ _ | mkdir _ _ _ => (exec op.run fs).1 = .ok ()
  | rename d name d' _ => ∀ ino, (exec (AlbumFs.lookup d name) fs).1 = .ok (some ino) →
      ¬Relation.ReflTransGen (Inside fs) ino d'
  | _ => True

section Grounded

variable {A B : Names Nat String} {op : Op}

theorem inside_iff (hs : fs.view.Sound) (hv : fs.view.Shows A) (htidy : A.Tidy 1) {d ino : Nat} :
    Inside fs d ino ↔ A.Holds d ino := by
  constructor
  · rintro ⟨name, ⟨hdot, hdotdot⟩, hlookup⟩
    rw [AlbumFs.reads_lookup hs d name fs rfl] at hlookup
    obtain ⟨l, hl, -, hnode⟩ := hv.exists_link hlookup hdot hdotdot
    exact ⟨l, hl, hnode⟩
  · rintro ⟨l, hl, rfl⟩
    obtain ⟨dir, -, hrows⟩ := hv.exists_rows (htidy.isDir_of_mem d l hl)
    exact ⟨l.name, hrows.proper l hl, by rw [AlbumFs.reads_lookup hs d l.name fs rfl, hv.lookup_link htidy hl]⟩

/-- An operation that succeeds and moves nothing below itself keeps everything reachable. -/
theorem Op.Does.connected (h : op.Does A B) (hs : fs.view.Sound) (hv : fs.view.Shows A) (htidy : A.Tidy 1)
    (hc : A.Connected 1) (hop : op.Grounded fs) : B.Connected 1 := by
  cases h with
  | create h => exact hc.created h.isDir
  | mkdir h => exact hc.created h.isDir
  | write => exact hc
  | truncate => exact hc
  | unlink hl hfile => exact hc.removed (htidy.links_of_file hl hfile)
  | rmdir hl hdir hempty => exact hc.removed hempty
  | stay => exact hc
  | @rename d d' l name' C hl hd' hne hC =>
    refine (hC.connected hc).moved (hC.isDir_of hd') fun hbelow => ?_
    refine hop l.node (by rw [AlbumFs.reads_lookup hs d l.name fs rfl, hv.lookup_link htidy hl]) ?_
    refine Relation.ReflTransGen.mono (?_ : ∀ a b, _ → _) _ _ hbelow
    rintro a b ⟨k, hk, rfl⟩
    exact (inside_iff hs hv htidy).2 ⟨k, hC.mem_of_mem hk, rfl⟩

/-- What an operation leaves when it fails is reachable, but for an inode without a name. -/
theorem Op.Leaves.connected (h : op.Leaves A B) (hs : fs.view.Sound) (hv : fs.view.Shows A) (htidy : A.Tidy 1)
    (hc : A.Connected 1) (hop : op.Grounded fs) {e : FsError} (hfail : (exec op.run fs).1 = .error e) :
    B.Connected 1 := by
  cases h with
  | unchanged => exact hc
  | done h => exact h.connected hs hv htidy hc hop
  | create =>
    rw [Grounded, hfail] at hop
    cases hop
  | mkdir =>
    rw [Grounded, hfail] at hop
    cases hop
  | rename hl hd' hne hC => exact hC.connected hc

end Grounded

end Runs

/-! ### A run on a small pool -/

theorem Served.mono {P Q : Op → AlbumFs Disk → Prop} {fs : AlbumFs Disk} (h : Served P fs)
    (hPQ : ∀ op fs, P op fs → Q op fs) : Served Q fs := by
  induction h with
  | formatted h => exact .formatted h
  | request _ r hr ih => exact .request ih r fun op hop => hPQ op _ (hr op hop)

/-- The small pool with a file. -/
def smallTree : AlbumFs Disk := (exec (Request.create 0 0 1 (utf8 "a") 0o644 0).serve smallPool).2

theorem smallTree_eval :
    (exec (Op.create 1 "a" (0o644 &&& ~~~0)).run smallPool).1 = .ok () ∧
    smallTree.sb.inodeCount.toNat + 1 < 2 ^ 32 ∧
    (exec (AlbumFs.getattr 2) smallTree).1.map Inode.isDir = .ok false ∧
    (exec (AlbumFs.listRecords 1) smallTree).1.map (fun rs => rs.all fun r => r.2.inode ≠ 0) = .ok true := by
  decide +kernel

theorem served_smallTree : Served (fun op fs => op.Clean fs ∧ op.Grounded fs) smallTree := by
  refine (Served.formatted formatted_smallPool).request _ fun op hop => ?_
  rw [Request.op, fromUtf8_eq_some_iff.2 rfl] at hop
  obtain rfl := Option.some.inj hop
  exact ⟨⟨by decide, trivial⟩, smallTree_eval.1⟩

/-- The file is removed. -/
theorem served_unlink : Served Op.Clean (exec (Request.unlink 1 (utf8 "a")).serve smallTree).2 := by
  have h := served_smallTree.mono fun _ _ hop => hop.1
  refine h.request _ fun op hop => ?_
  rw [Request.op, fromUtf8_eq_some_iff.2 rfl] at hop
  obtain rfl := Option.some.inj hop
  obtain ⟨-, hfew, -, hlive⟩ := smallTree_eval
  exact ⟨hfew, by decide, View.gapless_of_listRecords h.exists_names.1 hlive _⟩

theorem Served.links_exact_smallPool : ∃ fs, Served Op.Clean fs ∧ ListingsExact fs :=
  ⟨_, served_unlink, served_unlink.links_exact⟩

end AlbumFS

import AlbumFS.Ops.Damaged
import AlbumFS.Runs.CrossLinks
import AlbumFS.Runs.Tails

/-!
# Freeing blocks of a damaged pool

Everything that a stored inode references through blocks that can be read should be marked in the bitmap, or a
later allocation gives it to another file. `truncate` clears the bits of blocks while the stored inode has its
old pointers. The pointers in pointer blocks are taken out and stored with each removal; the pointers of the
inode itself are not. So when `truncate` meets a damaged block and stops, the stored inode references a free
block exactly when a pointer of the inode was released before.

## Main definitions

* `AlbumFs.References`, `AlbumFs.Safe`: what is referenced through readable blocks, and that it is marked.

## Main results

* `AlbumFs.truncate_safe_iff`: exactly when everything that is referenced is marked after `truncate`.
-/

namespace AlbumFS

open BlockTree Ownership Prog

namespace AlbumFs

variable {v : View} {faults : Nat → Option FsError} {ino : Nat} {inode : Inode}

/-- The slot `s` of a live inode names the block `b`, and the blocks on the way to the slot can be read: the
block of the table with the inode, and the pointer blocks. -/
def References (fs : AlbumFs Damaged) (s : Slot) (b : Nat) : Prop :=
  fs.repaired.view.own s = some b ∧ fs.store.faults (tableBlock fs.sb s.ino) = none ∧
    ∀ t c, t.Above s → t ≠ s → fs.repaired.view.own t = some c → fs.store.faults c = none

/-- Every block that is referenced is marked. -/
def Safe (fs : AlbumFs Damaged) : Prop := ∀ s b, fs.References s b → fs.bitmap.isSet b = true

/-- No block that is referenced is handed out again. -/
theorem Safe.ne_of_allocFrom {fs : AlbumFs Damaged} (h : fs.Safe) {s : Slot} {b : Nat}
    (hb : fs.References s b) {start block : Nat} {bitmap : Bitmap}
    (halloc : fs.bitmap.allocFrom start = .ok (block, bitmap)) : block ≠ b := by
  rintro rfl
  have hfree := (Bitmap.allocFrom_ok halloc).2.2.1
  rw [h s block hb] at hfree
  cases hfree

theorem safe_of_sound {fs : AlbumFs Damaged} (h : fs.repaired.view.Sound) : fs.Safe :=
  fun _ _ hb => (h.exclusive.marked hb.1).2

/-- When `truncate` has stopped, what is referenced is marked unless a pointer of the inode was released. -/
theorem safe_iff_of_leaves {fs : AlbumFs Damaged} {newSize : UInt64} (hs : v.Sound)
    (hi : v.inodes ino = some inode) (hfaults : fs.store.faults = faults)
    (h : TruncateLeaves v faults ino inode newSize fs.repaired.view) :
    fs.Safe ↔ ¬v.LosesRoot faults ino inode newSize := by
  subst hfaults
  rcases h with ⟨hsound, hloses⟩ | ⟨stop, i, hlt, hread, hstop, hcleared⟩
  · exact iff_of_true (safe_of_sound hsound) hloses
  have hm := hs.mapped hi
  have hshrinks := hcleared.1.shrinks
  have hi' : fs.repaired.view.inodes ino = some inode := hshrinks.inodes_eq ▸ hi
  have htop : ∀ r, fs.repaired.view.own (Slot.top ino r) = v.ownWith ino inode (Slot.top ino r) := by
    intro r
    rw [← View.ownWith_self hi']
    exact (View.ownWith_root r _).trans (View.ownWith_root r _).symm
  constructor
  · rintro hsafe ⟨-, -, stop', hstop', r, hheld, hemptied⟩
    obtain rfl := hstop.unique hstop'
    have hnone := (hcleared.top_eq_none_iff hheld).2 hemptied
    obtain ⟨b, hb⟩ := Option.ne_none_iff_exists'.1 hheld
    have hset := hsafe (Slot.top ino r) b ⟨(htop r).trans hb, ?_, fun t c ha hne => ?_⟩
    · have hkept := ((hshrinks.isSet_iff b).1 hset).2 _ hb
      rw [hnone] at hkept
      cases hkept
    · have hsb : fs.sb = v.sb := hshrinks.sb_eq
      rwa [hsb]
    · exact absurd (Place.above_root_iff.1 ha) hne
  · intro hloses s b hb
    have hsub : Sub fs.repaired.view.own (fs.repaired.view.ownWith ino i) := by
      refine View.sub_ownWith hi' fun r c hc => ?_
      have hheld : v.ownWith ino inode (Slot.top ino r) = some c :=
        (View.ownWith_root r _).trans hc
      have hkept : fs.repaired.view.ownWith ino i (Slot.top ino r) ≠ none := fun hnone =>
        hloses ⟨hlt, hread, stop, hstop, r, by rw [hheld]; exact Option.some_ne_none c,
          (hcleared.top_eq_none_iff (by rw [hheld]; exact Option.some_ne_none c)).1 hnone⟩
      obtain ⟨c', hc'⟩ := Option.ne_none_iff_exists'.1 hkept
      have hsame := hshrinks.sub _ _ hc'
      rw [hheld, Option.some.injEq] at hsame
      rw [hsame, ← hc']
      exact (View.ownWith_root r _).symm
    exact ((hshrinks.mapped hm).exclusive.marked (hsub _ _ hb.1)).2

theorem truncate_leaves {fs : AlbumFs Damaged} (hs : fs.repaired.view.Sound)
    (hi : fs.repaired.view.inodes ino = some inode) (hfile : inode.isDir = false) (newSize : UInt64) :
    (exec (truncate ino newSize) fs).2.store.faults = fs.store.faults ∧
      TruncateLeaves fs.repaired.view fs.store.faults ino inode newSize
        (exec (truncate ino newSize) fs).2.repaired.view := by
  obtain ⟨hino, hmode⟩ : fs.repaired.view.ValidIno ino ∧ inode.mode ≠ 0 := by
    simp only [inodes_view, stored] at hi
    split_ifs at hi with hvalid
    unfold Inode.live at hi
    split_ifs at hi with hmode
    obtain rfl := Option.some.inj hi
    exact ⟨hvalid, hmode⟩
  have hends := endsOn_truncate_damaged hs hi hfile fs.store.faults newSize hino hmode fs rfl
  obtain ⟨u, hsurvey, hleaves⟩ := hends.state (P := fun fs' : AlbumFs Damaged =>
    ∃ u, fs'.survey = (u, fs.store.faults) ∧ TruncateLeaves fs.repaired.view fs.store.faults ino inode
      newSize u)
  obtain ⟨rfl, hfaults⟩ := Prod.mk.inj hsurvey
  exact ⟨hfaults, hleaves⟩

/-- After `truncate` on a damaged device, successful or not, everything that is referenced through readable
blocks is marked if and only if no pointer of the inode was released before `truncate` had to stop. -/
theorem truncate_safe_iff {fs : AlbumFs Damaged} (hs : fs.repaired.view.Sound)
    (hi : fs.repaired.view.inodes ino = some inode) (hfile : inode.isDir = false) (newSize : UInt64) :
    (exec (truncate ino newSize) fs).2.Safe ↔
      ¬fs.repaired.view.LosesRoot fs.store.faults ino inode newSize := by
  obtain ⟨hfaults, hleaves⟩ := truncate_leaves hs hi hfile newSize
  exact safe_iff_of_leaves hs hi hfaults hleaves

end AlbumFs

/-- A file with a block behind its first pointer and one behind its single indirect pointer. -/
def twoBlocks : AlbumFs Disk :=
  runOps tightPool [.create 1 "a" 0o644, .write 2 0 [1], .write 2 48384 [1]]

/-- The single indirect block of the file is damaged. -/
def damagedPool : AlbumFs Damaged where
  store := { disk := twoBlocks.store, faults := fun lba => if lba = 8 then some (.blockCrc lba) else none }
  sb := twoBlocks.sb
  bitmap := twoBlocks.bitmap

/-- The removal of the first block is not undone when the single indirect block cannot be read. -/
theorem damagedPool_eq :
    (exec (AlbumFs.getattr 2) twoBlocks).1.map (fun inode => (inode.isDir, (Root.direct 0).pointer inode,
      inode.singleIndirect, inode.size)) = .ok (false, 7, 8, 48385) ∧
    (exec (AlbumFs.truncate 2 0) damagedPool).1 = .error (.blockCrc 8) ∧
    (exec (AlbumFs.truncate 2 0) damagedPool).2.bitmap.isSet 7 = false ∧
    (exec (AlbumFs.truncate 2 0) damagedPool).2.store.faults
      (AlbumFs.tableBlock (exec (AlbumFs.truncate 2 0) damagedPool).2.sb 2) = none ∧
    (exec (AlbumFs.getattr 2) (exec (AlbumFs.truncate 2 0) damagedPool).2.repaired).1.map
      (fun inode => (Root.direct 0).pointer inode) = .ok 7 := by
  decide +kernel

theorem repaired_damagedPool : damagedPool.repaired = twoBlocks := rfl

theorem sound_twoBlocks : twoBlocks.view.Sound :=
  ((Reach.formatted formatted_tightPool).runOps (P := fun _ => True) fun _ _ => trivial).sound

/-- The file of the damaged pool. -/
theorem exists_damagedFile : ∃ inode, damagedPool.repaired.view.inodes 2 = some inode ∧
    inode.isDir = false := by
  have hget := AlbumFs.reads_getattr sound_twoBlocks.geometry 2 twoBlocks rfl
  have heq := damagedPool_eq.1
  rw [hget] at heq
  cases hi : twoBlocks.view.getattr 2 with
  | error e =>
    rw [hi] at heq
    cases heq
  | ok inode =>
    rw [hi] at heq
    refine ⟨inode, by rw [repaired_damagedPool]; exact View.inodes_of_getattr hi, ?_⟩
    exact congrArg Prod.fst (Except.ok.inj heq)

/-- The theorem for the damaged pool. -/
theorem AlbumFs.truncate_safe_iff_damagedPool :
    ∃ inode, damagedPool.repaired.view.inodes 2 = some inode ∧ inode.isDir = false ∧
      ((exec (AlbumFs.truncate 2 0) damagedPool).2.Safe ↔
        ¬damagedPool.repaired.view.LosesRoot damagedPool.store.faults 2 inode 0) := by
  obtain ⟨inode, hi, hdir⟩ := exists_damagedFile
  exact ⟨inode, hi, hdir, AlbumFs.truncate_safe_iff
    (by rw [repaired_damagedPool]; exact sound_twoBlocks) hi hdir 0⟩

/-- The file keeps its first pointer, and the block is free. -/
theorem not_safe_damagedPool :
    ∃ inode, damagedPool.repaired.view.Sound ∧ damagedPool.repaired.view.inodes 2 = some inode ∧
      inode.isDir = false ∧ ¬(exec (AlbumFs.truncate 2 0) damagedPool).2.Safe := by
  obtain ⟨inode, hi, hdir⟩ := exists_damagedFile
  refine ⟨inode, by rw [repaired_damagedPool]; exact sound_twoBlocks, hi, hdir, fun hsafe => ?_⟩
  obtain ⟨-, -, hfree, htable, hget⟩ := damagedPool_eq
  obtain ⟨-, hleaves⟩ := AlbumFs.truncate_leaves
    (by rw [repaired_damagedPool]; exact sound_twoBlocks) hi hdir 0
  rw [AlbumFs.reads_getattr hleaves.geometry 2 _ rfl] at hget
  cases hi' : (exec (AlbumFs.truncate 2 0) damagedPool).2.repaired.view.getattr 2 with
  | error e =>
    rw [hi'] at hget
    cases hget
  | ok inode' =>
    rw [hi'] at hget
    have hpointer : (Root.direct 0).pointer inode' = 7 := Except.ok.inj hget
    have hown : (exec (AlbumFs.truncate 2 0) damagedPool).2.repaired.view.own (Slot.direct 2 0) = some 7 := by
      rw [← View.ownWith_self (View.inodes_of_getattr hi'), View.ownWith_direct]
      exact thenSome_eq_some.2 ⟨by rw [hpointer]; decide, by rw [hpointer]; decide⟩
    have hset := hsafe (Slot.direct 2 0) 7 ⟨hown, ?_, fun t c ha hne => ?_⟩
    · rw [hfree] at hset
      cases hset
    · exact htable
    · exact absurd (Slot.above_direct_iff.1 ha) hne

end AlbumFS

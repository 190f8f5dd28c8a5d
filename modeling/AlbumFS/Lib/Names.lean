import Mathlib

/-!
# Namespaces with link counts

A namespace has nodes, some of which are directories. A directory holds links, each of which gives a name to a
node. It also records the node that holds it. The link count of a directory is two more than the number of its
links to directories; other nodes have one link.

A node comes into being without a name. It is attached to a directory under a name and detached from it again,
and it goes when it has no name. These four changes, and moving the record of the holder, keep a namespace tidy.

Following the links from the root reaches every node, as long as no node is moved below itself.

## Main definitions

* `Link`, `Names`: namespaces.
* `Names.make`, `Names.attach`, `Names.detach`, `Names.reparent`, `Names.drop`: the changes.
* `Names.Tidy`: names are unique, each node has at most one, and the counts and the holders are right.
* `Names.created`, `Names.removed`, `Names.moved`: whole operations.
* `Names.Connected`: every node is reached from the root.

## Main results

* `Names.Tidy.make`, `Names.Tidy.attach`, `Names.Tidy.detach`, `Names.Tidy.reparent`, `Names.Tidy.drop`.
* `Names.Connected.created`, `Names.Connected.removed`, `Names.Connected.moved`.
* `Names.Tidy.climbs`: following the holders leads back.
-/

namespace AlbumFS

/-- A name for a node, and whether the node is a directory. -/
structure Link (ν N : Type) where
  name : N
  node : ν
  isDir : Bool
  deriving DecidableEq

/-- What a link adds to the count of the directory that holds it. -/
def Link.weight {ν N : Type} (l : Link ν N) : ℕ := if l.isDir then 1 else 0

/-- A namespace: the nodes, whether they are directories and their link counts; the recorded holder of each
directory; and the links that it holds. -/
@[ext]
structure Names (ν N : Type) where
  node : ν → Option (Bool × ℕ)
  parent : ν → ν
  links : ν → Multiset (Link ν N)

namespace Names

variable {ν N : Type}

/-- The node is a directory. -/
def IsDir (A : Names ν N) (x : ν) : Prop := ∃ n, A.node x = some (true, n)

/-- No link names the node. -/
def Unnamed (A : Names ν N) (x : ν) : Prop := ∀ d, ∀ l ∈ A.links d, l.node ≠ x

/-- The number of directories in a directory. -/
def subdirs (A : Names ν N) (d : ν) : ℕ := ((A.links d).map Link.weight).sum

/-- Names are unique, every link names a node and no node has two, and the counts and holders are right. -/
structure Tidy (A : Names ν N) (root : ν) : Prop where
  root_isDir : A.IsDir root
  parent_root : A.parent root = root
  root_unnamed : A.Unnamed root
  isDir_of_mem : ∀ d, ∀ l ∈ A.links d, A.IsDir d
  nodup : ∀ d, ((A.links d).map Link.name).Nodup
  target : ∀ d, ∀ l ∈ A.links d, ∃ n, A.node l.node = some (l.isDir, n)
  parent_eq : ∀ d, ∀ l ∈ A.links d, l.isDir = true → A.parent l.node = d
  once : ∀ d, ∀ l ∈ A.links d, ∀ d', ∀ l' ∈ A.links d', l.node = l'.node → d = d' ∧ l = l'
  count_eq : ∀ d n, A.node d = some (true, n) → n = 2 + A.subdirs d
  file_eq : ∀ x n, A.node x = some (false, n) → n = 1

/-- A directory holds a node. -/
def Holds (A : Names ν N) (d x : ν) : Prop := ∃ l ∈ A.links d, l.node = x

/-- Every node is reached from the root. -/
def Connected (A : Names ν N) (root : ν) : Prop := ∀ x, A.node x ≠ none → Relation.ReflTransGen A.Holds root x

/-- A namespace of one node, a directory. -/
def rootOnly [DecidableEq ν] (root : ν) : Names ν N where
  node := Function.update (fun _ => none) root (some (true, 2))
  parent _ := root
  links _ := 0

variable [DecidableEq ν] [DecidableEq N]

/-- A node comes into being. -/
def make (A : Names ν N) (x : ν) (isDir : Bool) (p : ν) : Names ν N where
  node := Function.update A.node x (some (isDir, if isDir then 2 else 1))
  parent := Function.update A.parent x p
  links := A.links

/-- The directory `d` gets a link. -/
def attach (A : Names ν N) (d : ν) (l : Link ν N) : Names ν N where
  node y := (A.node y).map fun k => (k.1, k.2 + if y = d then l.weight else 0)
  parent := A.parent
  links := Function.update A.links d (l ::ₘ A.links d)

/-- The directory `d` loses a link. -/
def detach (A : Names ν N) (d : ν) (l : Link ν N) : Names ν N where
  node y := (A.node y).map fun k => (k.1, k.2 - if y = d then l.weight else 0)
  parent := A.parent
  links := Function.update A.links d ((A.links d).erase l)

/-- The directory `d` gets a link that is not counted. -/
def put (A : Names ν N) (d : ν) (l : Link ν N) : Names ν N :=
  { A with links := Function.update A.links d (l ::ₘ A.links d) }

/-- The directory `d` loses a link that stays counted. -/
def take (A : Names ν N) (d : ν) (l : Link ν N) : Names ν N :=
  { A with links := Function.update A.links d ((A.links d).erase l) }

/-- The count of `d` is set. -/
def recount (A : Names ν N) (d : ν) (n : ℕ) : Names ν N :=
  { A with node := Function.update A.node d ((A.node d).map fun k => (k.1, n)) }

/-- The recorded holder of `x` changes. -/
def reparent (A : Names ν N) (x p : ν) : Names ν N := { A with parent := Function.update A.parent x p }

/-- A node goes. -/
def drop (A : Names ν N) (x : ν) : Names ν N := { A with node := Function.update A.node x none }

section

variable {A : Names ν N} {root x d p : ν} {l : Link ν N} {isDir : Bool}

section Fields

omit [DecidableEq N]

@[simp] theorem node_make : (A.make x isDir p).node =
    Function.update A.node x (some (isDir, if isDir then 2 else 1)) := rfl

@[simp] theorem parent_make : (A.make x isDir p).parent = Function.update A.parent x p := rfl

@[simp] theorem links_make : (A.make x isDir p).links = A.links := rfl

@[simp] theorem parent_attach : (A.attach d l).parent = A.parent := rfl

theorem links_attach : (A.attach d l).links = Function.update A.links d (l ::ₘ A.links d) := rfl

@[simp] theorem node_put : (A.put d l).node = A.node := rfl

@[simp] theorem parent_put : (A.put d l).parent = A.parent := rfl

theorem links_put : (A.put d l).links = Function.update A.links d (l ::ₘ A.links d) := rfl

theorem node_recount (n : ℕ) :
    (A.recount d n).node = Function.update A.node d ((A.node d).map fun k => (k.1, n)) := rfl

@[simp] theorem parent_recount (n : ℕ) : (A.recount d n).parent = A.parent := rfl

@[simp] theorem links_recount (n : ℕ) : (A.recount d n).links = A.links := rfl

@[simp] theorem node_reparent : (A.reparent x p).node = A.node := rfl

@[simp] theorem parent_reparent : (A.reparent x p).parent = Function.update A.parent x p := rfl

@[simp] theorem links_reparent : (A.reparent x p).links = A.links := rfl

@[simp] theorem node_drop : (A.drop x).node = Function.update A.node x none := rfl

@[simp] theorem parent_drop : (A.drop x).parent = A.parent := rfl

@[simp] theorem links_drop : (A.drop x).links = A.links := rfl

end Fields

@[simp] theorem node_take : (A.take d l).node = A.node := rfl

@[simp] theorem parent_take : (A.take d l).parent = A.parent := rfl

theorem links_take : (A.take d l).links = Function.update A.links d ((A.links d).erase l) := rfl

@[simp] theorem parent_detach : (A.detach d l).parent = A.parent := rfl

theorem links_detach : (A.detach d l).links = Function.update A.links d ((A.links d).erase l) := rfl

omit [DecidableEq ν] [DecidableEq N] in
theorem Tidy.links_eq_zero (h : A.Tidy root) (hx : ¬A.IsDir x) : A.links x = 0 :=
  Multiset.eq_zero_of_forall_notMem fun l hl => hx (h.isDir_of_mem x l hl)

omit [DecidableEq ν] [DecidableEq N] in
theorem isDir_iff : A.IsDir x ↔ ∃ k, A.node x = some k ∧ k.1 = true := by
  constructor
  · rintro ⟨n, hn⟩
    exact ⟨_, hn, rfl⟩
  · rintro ⟨⟨_, n⟩, hn, rfl⟩
    exact ⟨n, hn⟩

omit [DecidableEq N] in
theorem node_rootOnly (root : ν) :
    (rootOnly root : Names ν N).node = Function.update (fun _ => none) root (some (true, 2)) := rfl

omit [DecidableEq N] in
theorem tidy_rootOnly (root : ν) : (rootOnly root : Names ν N).Tidy root where
  root_isDir := ⟨2, by rw [node_rootOnly, Function.update_self]⟩
  parent_root := rfl
  root_unnamed _ _ hl := absurd hl (Multiset.notMem_zero _)
  isDir_of_mem _ _ hl := absurd hl (Multiset.notMem_zero _)
  nodup _ := Multiset.nodup_zero
  target _ _ hl := absurd hl (Multiset.notMem_zero _)
  parent_eq _ _ hl := absurd hl (Multiset.notMem_zero _)
  once _ _ hl := absurd hl (Multiset.notMem_zero _)
  count_eq d n hd := by
    by_cases hroot : d = root
    · subst hroot
      rw [node_rootOnly, Function.update_self, Option.some.injEq, Prod.mk.injEq] at hd
      exact hd.2.symm
    · rw [node_rootOnly, Function.update_of_ne hroot] at hd
      cases hd
  file_eq x n hx := by
    by_cases hroot : x = root
    · subst hroot
      rw [node_rootOnly, Function.update_self, Option.some.injEq, Prod.mk.injEq] at hx
      cases hx.1
    · rw [node_rootOnly, Function.update_of_ne hroot] at hx
      cases hx

omit [DecidableEq ν] [DecidableEq N] in
/-- Counting is adding the weights. -/
theorem subdirs_eq_card (A : Names ν N) (d : ν) :
    A.subdirs d = ((A.links d).filter fun l => l.isDir = true).card := by
  rw [subdirs]
  induction A.links d using Multiset.induction_on with
  | empty => rfl
  | cons l s ih =>
    rw [Multiset.map_cons, Multiset.sum_cons, ih, Link.weight]
    by_cases hl : l.isDir = true
    · rw [if_pos hl, Multiset.filter_cons_of_pos (p := fun l : Link ν N => l.isDir = true) _ hl, Multiset.card_cons,
        Nat.add_comm]
    · rw [if_neg hl, Multiset.filter_cons_of_neg (p := fun l : Link ν N => l.isDir = true) _ hl, Nat.zero_add]

omit [DecidableEq N] in
/-- A count that is stored again. -/
theorem recount_self {k : Bool × ℕ} (hd : A.node d = some k) : A.recount d k.2 = A := by
  refine Names.ext ?_ rfl rfl
  rw [node_recount, hd, Option.map_some, Function.update_eq_self_iff, hd]

/-! ### Making a node -/

omit [DecidableEq N] in
/-- A new node has no name and holds nothing. -/
theorem Tidy.make (h : A.Tidy root) (hx : A.node x = none) (isDir : Bool) (p : ν) : (A.make x isDir p).Tidy root := by
  have hroot : root ≠ x := by
    rintro rfl
    obtain ⟨n, hn⟩ := h.root_isDir
    rw [hx] at hn
    cases hn
  have hnode : ∀ y, y ≠ x → (A.make x isDir p).node y = A.node y := fun y hy => Function.update_of_ne hy _ _
  have htarget : ∀ d, ∀ l ∈ A.links d, l.node ≠ x := by
    rintro d l hl rfl
    obtain ⟨n, hn⟩ := h.target d l hl
    rw [hx] at hn
    cases hn
  have hholder : ∀ d, ∀ l ∈ A.links d, d ≠ x := by
    rintro d l hl rfl
    obtain ⟨n, hn⟩ := h.isDir_of_mem d l hl
    rw [hx] at hn
    cases hn
  have hempty : A.links x = 0 := Multiset.eq_zero_of_forall_notMem fun l hl => hholder x l hl rfl
  refine ⟨?_, ?_, h.root_unnamed, fun d l hl => ?_, h.nodup, fun d l hl => ?_, fun d l hl hdir => ?_, h.once,
    fun d n hd => ?_, fun y n hy => ?_⟩
  · obtain ⟨n, hn⟩ := h.root_isDir
    exact ⟨n, by rw [hnode root hroot, hn]⟩
  · rw [parent_make, Function.update_of_ne hroot, h.parent_root]
  · obtain ⟨n, hn⟩ := h.isDir_of_mem d l hl
    exact ⟨n, by rw [hnode d (hholder d l hl), hn]⟩
  · rw [hnode _ (htarget d l hl)]
    exact h.target d l hl
  · rw [parent_make, Function.update_of_ne (htarget d l hl)]
    exact h.parent_eq d l hl hdir
  · by_cases hdx : d = x
    · subst hdx
      rw [node_make, Function.update_self, Option.some.injEq, Prod.mk.injEq] at hd
      obtain ⟨rfl, rfl⟩ := hd
      simp [subdirs, hempty]
    · rw [hnode d hdx] at hd
      exact h.count_eq d n hd
  · by_cases hyx : y = x
    · subst hyx
      rw [node_make, Function.update_self, Option.some.injEq, Prod.mk.injEq] at hy
      obtain ⟨rfl, rfl⟩ := hy
      rfl
    · rw [hnode y hyx] at hy
      exact h.file_eq y n hy

/-! ### Attaching and detaching -/

omit [DecidableEq N] in
theorem mem_links_attach {e : ν} {l' : Link ν N} :
    l' ∈ (A.attach d l).links e ↔ e = d ∧ l' = l ∨ l' ∈ A.links e := by
  by_cases he : e = d
  · subst he
    rw [links_attach, Function.update_self, Multiset.mem_cons]
    simp
  · rw [links_attach, Function.update_of_ne he]
    simp [he]

omit [DecidableEq N] in
/-- The kind of a node stays when a directory gets a link. -/
theorem node_attach (y : ν) : (A.attach d l).node y =
    (A.node y).map fun k => (k.1, k.2 + if y = d then l.weight else 0) := rfl

omit [DecidableEq N] in
theorem isDir_attach {y : ν} : (A.attach d l).IsDir y ↔ A.IsDir y := by
  rw [isDir_iff, isDir_iff, node_attach]
  simp

omit [DecidableEq N] in
theorem subdirs_attach (y : ν) :
    (A.attach d l).subdirs y = A.subdirs y + if y = d then l.weight else 0 := by
  by_cases hy : y = d
  · subst hy
    rw [subdirs, links_attach, Function.update_self, Multiset.map_cons, Multiset.sum_cons, if_pos rfl, subdirs,
      Nat.add_comm]
  · rw [subdirs, links_attach, Function.update_of_ne hy, if_neg hy, subdirs, Nat.add_zero]

omit [DecidableEq N] in
/-- Attaching is putting a link and counting it. -/
theorem attach_eq {k : Bool × ℕ} (hd : A.node d = some k) :
    A.attach d l = (A.put d l).recount d (k.2 + l.weight) := by
  refine Names.ext (funext fun y => ?_) rfl rfl
  by_cases hy : y = d
  · subst hy
    rw [node_attach, node_recount, node_put, Function.update_self, hd, if_pos rfl]
    rfl
  · rw [node_attach, node_recount, Function.update_of_ne hy, node_put, if_neg hy]
    simp

omit [DecidableEq N] in
/-- A link to a node that is no directory is not counted. -/
theorem attach_eq_put (hl : l.isDir = false) : A.attach d l = A.put d l := by
  refine Names.ext (funext fun y => ?_) rfl rfl
  rw [node_attach, node_put, Link.weight, hl]
  simp

omit [DecidableEq N] in
/-- A node without a name gets one that is not in use. -/
theorem Tidy.attach (h : A.Tidy root) (hd : A.IsDir d) (hnode : ∃ n, A.node l.node = some (l.isDir, n))
    (hunnamed : A.Unnamed l.node) (hroot : l.node ≠ root) (hname : l.name ∉ (A.links d).map Link.name)
    (hparent : l.isDir = true → A.parent l.node = d) : (A.attach d l).Tidy root where
  root_isDir := isDir_attach.2 h.root_isDir
  parent_root := h.parent_root
  root_unnamed e l' hl' := by
    rcases mem_links_attach.1 hl' with ⟨-, rfl⟩ | hl'
    · exact hroot
    · exact h.root_unnamed e l' hl'
  isDir_of_mem e l' hl' := by
    rw [isDir_attach]
    rcases mem_links_attach.1 hl' with ⟨rfl, -⟩ | hl'
    · exact hd
    · exact h.isDir_of_mem e l' hl'
  nodup e := by
    by_cases he : e = d
    · subst he
      rw [links_attach, Function.update_self, Multiset.map_cons, Multiset.nodup_cons]
      exact ⟨hname, h.nodup e⟩
    · rw [links_attach, Function.update_of_ne he]
      exact h.nodup e
  target e l' hl' := by
    have hold : ∃ n, A.node l'.node = some (l'.isDir, n) := by
      rcases mem_links_attach.1 hl' with ⟨-, rfl⟩ | hl'
      · exact hnode
      · exact h.target e l' hl'
    obtain ⟨n, hn⟩ := hold
    exact ⟨_, by rw [node_attach, hn, Option.map_some]⟩
  parent_eq e l' hl' hdir := by
    rcases mem_links_attach.1 hl' with ⟨rfl, rfl⟩ | hl'
    · exact hparent hdir
    · exact h.parent_eq e l' hl' hdir
  once e l' hl' e' l'' hl'' heq := by
    rcases mem_links_attach.1 hl' with ⟨rfl, rfl⟩ | hold <;>
      rcases mem_links_attach.1 hl'' with ⟨rfl, rfl⟩ | hold'
    · exact ⟨rfl, rfl⟩
    · exact absurd heq.symm (hunnamed e' l'' hold')
    · exact absurd heq (hunnamed e l' hold)
    · exact h.once e l' hold e' l'' hold' heq
  count_eq e n he := by
    rw [node_attach] at he
    obtain ⟨⟨_, m⟩, hm, heq⟩ := Option.map_eq_some_iff.1 he
    obtain ⟨rfl, rfl⟩ := Prod.mk.inj heq
    rw [subdirs_attach, ← Nat.add_assoc, ← h.count_eq e m hm]
  file_eq y n hy := by
    rw [node_attach] at hy
    obtain ⟨⟨_, m⟩, hm, heq⟩ := Option.map_eq_some_iff.1 hy
    obtain ⟨rfl, rfl⟩ := Prod.mk.inj heq
    have hyd : y ≠ d := by
      rintro rfl
      obtain ⟨k, hk⟩ := hd
      rw [hk] at hm
      cases hm
    rw [if_neg hyd, h.file_eq y m hm]

theorem mem_links_of_detach {e : ν} {l' : Link ν N} (h : l' ∈ (A.detach d l).links e) : l' ∈ A.links e := by
  by_cases he : e = d
  · subst he
    rw [links_detach, Function.update_self] at h
    exact Multiset.mem_of_mem_erase h
  · rwa [links_detach, Function.update_of_ne he] at h

theorem node_detach (y : ν) : (A.detach d l).node y =
    (A.node y).map fun k => (k.1, k.2 - if y = d then l.weight else 0) := rfl

theorem isDir_detach {y : ν} : (A.detach d l).IsDir y ↔ A.IsDir y := by
  rw [isDir_iff, isDir_iff, node_detach]
  simp

theorem subdirs_detach (hl : l ∈ A.links d) (y : ν) :
    (A.detach d l).subdirs y + (if y = d then l.weight else 0) = A.subdirs y := by
  by_cases hy : y = d
  · subst hy
    rw [subdirs, links_detach, Function.update_self, if_pos rfl, subdirs, ← Multiset.cons_erase hl,
      Multiset.map_cons, Multiset.sum_cons, Multiset.erase_cons_head, Nat.add_comm]
  · rw [subdirs, links_detach, Function.update_of_ne hy, if_neg hy, subdirs, Nat.add_zero]

/-- Detaching is taking a link and counting it no more. -/
theorem detach_eq {k : Bool × ℕ} (hd : A.node d = some k) :
    A.detach d l = (A.take d l).recount d (k.2 - l.weight) := by
  refine Names.ext (funext fun y => ?_) rfl rfl
  by_cases hy : y = d
  · subst hy
    rw [node_detach, node_recount, node_take, Function.update_self, hd, if_pos rfl]
    rfl
  · rw [node_detach, node_recount, Function.update_of_ne hy, node_take, if_neg hy]
    simp

theorem detach_eq_take (hl : l.isDir = false) : A.detach d l = A.take d l := by
  refine Names.ext (funext fun y => ?_) rfl rfl
  rw [node_detach, node_take, Link.weight, hl]
  simp

/-- A link goes, and its node has no name any more. -/
theorem Tidy.detach (h : A.Tidy root) (hl : l ∈ A.links d) :
    (A.detach d l).Tidy root ∧ (A.detach d l).Unnamed l.node := by
  refine ⟨⟨isDir_detach.2 h.root_isDir, h.parent_root, fun e l' hl' => h.root_unnamed e l' (mem_links_of_detach hl'),
    fun e l' hl' => isDir_detach.2 (h.isDir_of_mem e l' (mem_links_of_detach hl')), fun e => ?_, fun e l' hl' => ?_,
    fun e l' hl' => h.parent_eq e l' (mem_links_of_detach hl'),
    fun e l' hl' e' l'' hl'' => h.once e l' (mem_links_of_detach hl') e' l'' (mem_links_of_detach hl''),
    fun e n he => ?_, fun y n hy => ?_⟩, fun e l' hl' heq => ?_⟩
  · by_cases he : e = d
    · subst he
      rw [links_detach, Function.update_self]
      exact Multiset.nodup_of_le (Multiset.map_le_map (Multiset.erase_le l _)) (h.nodup e)
    · rw [links_detach, Function.update_of_ne he]
      exact h.nodup e
  · obtain ⟨n, hn⟩ := h.target e l' (mem_links_of_detach hl')
    exact ⟨_, by rw [node_detach, hn, Option.map_some]⟩
  · rw [node_detach] at he
    obtain ⟨⟨_, m⟩, hm, heq⟩ := Option.map_eq_some_iff.1 he
    obtain ⟨rfl, rfl⟩ := Prod.mk.inj heq
    have hcount := h.count_eq e m hm
    have hsubdirs := subdirs_detach hl e
    dsimp only
    omega
  · rw [node_detach] at hy
    obtain ⟨⟨_, m⟩, hm, heq⟩ := Option.map_eq_some_iff.1 hy
    obtain ⟨rfl, rfl⟩ := Prod.mk.inj heq
    have hyd : y ≠ d := by
      rintro rfl
      obtain ⟨k, hk⟩ := h.isDir_of_mem y l hl
      rw [hk] at hm
      cases hm
    dsimp only
    rw [if_neg hyd, h.file_eq y m hm]
  · obtain ⟨rfl, rfl⟩ := h.once e l' (mem_links_of_detach hl') d l hl heq
    have hnodup : (A.links e).Nodup := Multiset.Nodup.of_map _ (h.nodup e)
    rw [links_detach, Function.update_self] at hl'
    exact Multiset.Nodup.notMem_erase hnodup hl'

/-! ### Moving the record of the holder, dropping a node -/

omit [DecidableEq N] in
theorem Tidy.reparent (h : A.Tidy root) (hx : A.Unnamed x) (hroot : x ≠ root) (p : ν) :
    (A.reparent x p).Tidy root where
  root_isDir := h.root_isDir
  parent_root := (Function.update_of_ne hroot.symm _ _).trans h.parent_root
  root_unnamed := h.root_unnamed
  isDir_of_mem := h.isDir_of_mem
  nodup := h.nodup
  target := h.target
  parent_eq d l hl hdir := (Function.update_of_ne (hx d l hl) _ _).trans (h.parent_eq d l hl hdir)
  once := h.once
  count_eq := h.count_eq
  file_eq := h.file_eq

omit [DecidableEq N] in
/-- A node without a name that holds nothing goes. -/
theorem Tidy.drop (h : A.Tidy root) (hx : A.Unnamed x) (hroot : x ≠ root) (hempty : A.links x = 0) :
    (A.drop x).Tidy root := by
  have hnode : ∀ y, y ≠ x → (A.drop x).node y = A.node y := fun y hy => Function.update_of_ne hy _ _
  have hsome : ∀ y k, (A.drop x).node y = some k → A.node y = some k := by
    intro y k hk
    by_cases hy : y = x
    · rw [hy, node_drop, Function.update_self] at hk
      cases hk
    · rwa [hnode y hy] at hk
  refine ⟨?_, h.parent_root, h.root_unnamed, fun d l hl => ?_, h.nodup, fun d l hl => ?_, h.parent_eq, h.once,
    fun d n hd => h.count_eq d n (hsome d _ hd), fun y n hy => h.file_eq y n (hsome y _ hy)⟩
  · obtain ⟨n, hn⟩ := h.root_isDir
    exact ⟨n, by rw [hnode root hroot.symm, hn]⟩
  · obtain ⟨n, hn⟩ := h.isDir_of_mem d l hl
    have hne : d ≠ x := by
      rintro rfl
      rw [links_drop, hempty] at hl
      exact Multiset.notMem_zero l hl
    exact ⟨n, by rw [hnode d hne, hn]⟩
  · rw [hnode _ (hx d l hl)]
    exact h.target d l hl

/-! ### Reaching nodes -/

omit [DecidableEq N] in
/-- A node is made and gets a name. -/
def created (A : Names ν N) (d : ν) (n : N) (x : ν) (isDir : Bool) : Names ν N :=
  (A.make x isDir d).attach d ⟨n, x, isDir⟩

/-- A node loses its name and goes. -/
def removed (A : Names ν N) (d : ν) (l : Link ν N) : Names ν N := (A.detach d l).drop l.node

/-- A node gets another name. -/
def moved (A : Names ν N) (d : ν) (l : Link ν N) (d' : ν) (n : N) : Names ν N :=
  (if l.isDir then (A.detach d l).reparent l.node d' else A.detach d l).attach d' ⟨n, l.node, l.isDir⟩

variable {d' : ν} {n : N}

omit [DecidableEq N] in
/-- The nodes are those there were and the new one. -/
theorem eq_or_of_node_created {y : ν} (hy : (A.created d n x isDir).node y ≠ none) : y = x ∨ A.node y ≠ none := by
  refine or_iff_not_imp_left.2 fun hyx hnone => hy ?_
  rw [Names.created, node_attach, node_make, Function.update_of_ne hyx, hnone, Option.map_none]

omit [DecidableEq N] in
theorem Tidy.created (h : A.Tidy root) (hd : A.IsDir d) (hx : A.node x = none) (hn : ∀ l ∈ A.links d, l.name ≠ n)
    (isDir : Bool) : (A.created d n x isDir).Tidy root := by
  have hmake := h.make hx isDir d
  obtain ⟨m, hm⟩ := hd
  have hdx : d ≠ x := by
    rintro rfl
    rw [hx] at hm
    cases hm
  refine hmake.attach ⟨m, ?_⟩ ⟨_, Function.update_self _ _ _⟩ (fun e l hl heq => ?_) (fun heq => ?_) (fun hmem => ?_)
    fun _ => Function.update_self _ _ _
  · rw [node_make, Function.update_of_ne hdx, hm]
  · obtain ⟨k, hk⟩ := h.target e l hl
    rw [show l.node = x from heq, hx] at hk
    cases hk
  · obtain ⟨k, hk⟩ := h.root_isDir
    rw [← show x = root from heq, hx] at hk
    cases hk
  · obtain ⟨l, hl, hname⟩ := Multiset.mem_map.1 hmem
    exact hn l hl hname

theorem Tidy.removed (h : A.Tidy root) (hl : l ∈ A.links d) (hempty : A.links l.node = 0) :
    (A.removed d l).Tidy root := by
  obtain ⟨hdetach, hunnamed⟩ := h.detach hl
  refine hdetach.drop hunnamed (h.root_unnamed d l hl) (Multiset.eq_zero_of_forall_notMem fun k hk => ?_)
  have hmem := mem_links_of_detach hk
  rw [hempty] at hmem
  exact Multiset.notMem_zero k hmem

omit [DecidableEq ν] [DecidableEq N] in
/-- A file holds nothing. -/
theorem Tidy.links_of_file (h : A.Tidy root) (hl : l ∈ A.links d) (hfile : l.isDir = false) : A.links l.node = 0 := by
  refine h.links_eq_zero ?_
  rintro ⟨m, hm⟩
  obtain ⟨k, hk⟩ := h.target d l hl
  rw [hm, hfile] at hk
  cases hk

theorem Tidy.moved (h : A.Tidy root) (hl : l ∈ A.links d) (hd' : A.IsDir d') (hn : ∀ k ∈ A.links d', k.name ≠ n) :
    (A.moved d l d' n).Tidy root := by
  obtain ⟨hdetach, hunnamed⟩ := h.detach hl
  obtain ⟨m, hm⟩ := h.target d l hl
  have hroot := h.root_unnamed d l hl
  have hnode : ∃ k, (A.detach d l).node l.node = some (l.isDir, k) := ⟨_, by rw [node_detach, hm]; rfl⟩
  have hfresh : ∀ k ∈ (A.detach d l).links d', k.name ≠ n := fun k hk => hn k (mem_links_of_detach hk)
  rw [Names.moved]
  cases hdir : l.isDir with
  | false =>
    rw [hdir] at hnode
    refine hdetach.attach (isDir_detach.2 hd') hnode hunnamed hroot (fun hmem => ?_) fun hf => by cases hf
    obtain ⟨k, hk, hname⟩ := Multiset.mem_map.1 hmem
    exact hfresh k hk hname
  | true =>
    rw [hdir] at hnode
    refine (hdetach.reparent hunnamed hroot d').attach (isDir_detach.2 hd') hnode hunnamed hroot (fun hmem => ?_)
      fun _ => Function.update_self _ _ _
    obtain ⟨k, hk, hname⟩ := Multiset.mem_map.1 hmem
    exact hfresh k hk hname

/-- A directory goes, and its holder counts it no more. -/
theorem removed_eq {k : Bool × ℕ} (hk : A.node d = some k) (hne : d ≠ l.node) :
    A.removed d l = ((A.take d l).drop l.node).recount d (k.2 - l.weight) := by
  refine Names.ext (funext fun y => ?_) rfl rfl
  rw [Names.removed, detach_eq hk, node_drop, node_recount, node_recount, node_drop, node_take,
    Function.update_comm hne.symm, Function.update_of_ne hne]

theorem mem_links_moved {e : ν} {k : Link ν N} :
    k ∈ (A.moved d l d' n).links e ↔ e = d' ∧ k = ⟨n, l.node, l.isDir⟩ ∨ k ∈ (A.detach d l).links e := by
  rw [Names.moved, mem_links_attach]
  split_ifs <;> rfl

/-- Moving a link is putting the new one and taking the old one, as far as the links go. -/
theorem links_moved (hne : ¬(d = d' ∧ l.name = n)) :
    (A.moved d l d' n).links = ((A.put d' ⟨n, l.node, l.isDir⟩).take d l).links := by
  have hlinks : (A.moved d l d' n).links = Function.update (A.detach d l).links d'
      (⟨n, l.node, l.isDir⟩ ::ₘ (A.detach d l).links d') := by
    rw [Names.moved, links_attach]
    split_ifs <;> rfl
  rw [hlinks, links_take, links_put, links_detach]
  by_cases hd : d = d'
  · subst hd
    have hother : (⟨n, l.node, l.isDir⟩ : Link ν N) ≠ l := fun heq => hne ⟨rfl, congrArg Link.name heq.symm⟩
    rw [Function.update_self, Function.update_self, Function.update_idem, Function.update_idem,
      Multiset.erase_cons_tail _ hother]
  · rw [Function.update_of_ne (Ne.symm hd), Function.update_of_ne hd, Function.update_comm hd]

/-- A file is moved, or a directory within its holder. -/
theorem moved_eq (h : A.Tidy root) (hl : l ∈ A.links d) (hne : ¬(d = d' ∧ l.name = n))
    (hstays : ¬(l.isDir = true ∧ d ≠ d')) :
    A.moved d l d' n = (A.put d' ⟨n, l.node, l.isDir⟩).take d l := by
  refine Names.ext ?_ ?_ (links_moved hne)
  · rw [node_take, node_put, Names.moved]
    cases hdir : l.isDir with
    | false =>
      rw [if_neg Bool.false_ne_true, detach_eq_take hdir, attach_eq_put rfl]
      rfl
    | true =>
      obtain rfl : d = d' := not_not.1 fun hd => hstays ⟨hdir, hd⟩
      rw [if_pos rfl]
      funext y
      rw [node_attach, node_reparent, node_detach, Option.map_map]
      refine Option.map_congr (fun k hk => ?_) |>.trans Option.map_id'
      by_cases hy : y = d
      · obtain ⟨m, hm⟩ := h.isDir_of_mem d l hl
        have hcount := h.count_eq d m hm
        rw [hy, hm, Option.some.injEq] at hk
        subst hk
        simp only [Function.comp_apply, if_pos hy, Link.weight, hdir, if_true, Prod.mk.injEq, true_and]
        omega
      · simp [hy]
  · rw [parent_take, parent_put, Names.moved, parent_attach]
    split_ifs with hdir
    · obtain rfl : d = d' := not_not.1 fun hd => hstays ⟨hdir, hd⟩
      rw [parent_reparent, parent_detach, Function.update_eq_self_iff]
      exact (h.parent_eq d l hl hdir).symm
    · rfl

/-- A directory is moved to another one, whose counts change. -/
theorem moved_eq_recount (hdir : l.isDir = true) (hd : d ≠ d') {k k' : Bool × ℕ} (hk : A.node d = some k)
    (hk' : A.node d' = some k') :
    A.moved d l d' n = (((((A.put d' ⟨n, l.node, l.isDir⟩).take d l).reparent l.node d').recount d
      (k.2 - 1)).recount d' (k'.2 + 1)) := by
  refine Names.ext (funext fun y => ?_) ?_ ?_
  · rw [Names.moved, if_pos hdir, node_attach, node_reparent, node_detach, node_recount, node_recount, node_reparent,
      node_take, node_put, Link.weight, Link.weight, hdir, if_pos rfl]
    by_cases hy : y = d'
    · subst hy
      rw [if_pos rfl, if_neg (Ne.symm hd), Function.update_self, Function.update_of_ne (Ne.symm hd), hk']
      rfl
    · rw [if_neg hy, Function.update_of_ne hy]
      by_cases hyd : y = d
      · subst hyd
        rw [if_pos rfl, Function.update_self, hk]
        rfl
      · rw [if_neg hyd, Function.update_of_ne hyd]
        simp
  · rw [Names.moved, if_pos hdir]
    rfl
  · exact links_moved fun h => hd h.1

/-! ### The root reaches every node -/

theorem mem_links_detach {e : ν} {k : Link ν N} (hk : k ∈ A.links e) (hne : k ≠ l) : k ∈ (A.detach d l).links e := by
  by_cases he : e = d
  · subst he
    rw [links_detach, Function.update_self]
    exact (Multiset.mem_erase_of_ne hne).2 hk
  · rwa [links_detach, Function.update_of_ne he]

omit [DecidableEq N] in
theorem Connected.created {isDir : Bool} (h : A.Connected root) (hd : A.IsDir d) :
    (A.created d n x isDir).Connected root := by
  have hmono : ∀ y, A.node y ≠ none → Relation.ReflTransGen (A.created d n x isDir).Holds root y := by
    intro y hy
    refine Relation.ReflTransGen.mono (?_ : ∀ a b, _ → _) root y (h y hy)
    rintro a b ⟨k, hk, rfl⟩
    exact ⟨k, mem_links_attach.2 (.inr hk), rfl⟩
  intro y hy
  rcases eq_or_of_node_created hy with rfl | hy
  · obtain ⟨m, hm⟩ := hd
    exact (hmono d (by rw [hm]; exact Option.some_ne_none _)).tail ⟨_, mem_links_attach.2 (.inl ⟨rfl, rfl⟩), rfl⟩
  · exact hmono y hy

theorem Connected.removed (h : A.Connected root) (hempty : A.links l.node = 0) :
    (A.removed d l).Connected root := by
  intro y hy
  have hyl : y ≠ l.node := by
    rintro rfl
    exact hy (Function.update_self _ _ _)
  have hlive : A.node y ≠ none := by
    intro hnone
    rw [Names.removed, node_drop, Function.update_of_ne hyl, node_detach, hnone] at hy
    exact hy rfl
  -- No way to `y` goes through the node, which holds nothing.
  have hway : ∀ y, Relation.ReflTransGen A.Holds root y → y ≠ l.node →
      Relation.ReflTransGen (A.removed d l).Holds root y := by
    intro y hway
    induction hway with
    | refl => exact fun _ => .refl
    | tail _ hstep ih =>
      rename_i b c _
      obtain ⟨k, hk, rfl⟩ := hstep
      intro hne
      refine (ih fun hb => ?_).tail ⟨k, mem_links_detach hk fun heq => hne (heq ▸ rfl), rfl⟩
      rw [hb, hempty] at hk
      exact Multiset.notMem_zero k hk
  exact hway y (h y hlive) hyl

/-- A node that is not moved below itself takes along what is below it. -/
theorem Connected.moved (h : A.Connected root) (hd' : A.IsDir d')
    (hbelow : ¬Relation.ReflTransGen A.Holds l.node d') : (A.moved d l d' n).Connected root := by
  have hkeep : ∀ e, ∀ k ∈ A.links e, k ≠ l → (A.moved d l d' n).Holds e k.node := fun e k hk hne =>
    ⟨k, mem_links_moved.2 (.inr (mem_links_detach hk hne)), rfl⟩
  have hoff : ∀ y, Relation.ReflTransGen A.Holds root y → ¬Relation.ReflTransGen A.Holds l.node y →
      Relation.ReflTransGen (A.moved d l d' n).Holds root y := by
    intro y hway
    induction hway with
    | refl => exact fun _ => .refl
    | tail _ hstep ih =>
      obtain ⟨k, hk, rfl⟩ := hstep
      intro hnot
      exact (ih fun hb => hnot (hb.tail ⟨k, hk, rfl⟩)).tail (hkeep _ k hk fun heq => hnot (heq ▸ .refl))
  have hnode : Relation.ReflTransGen (A.moved d l d' n).Holds root l.node := by
    obtain ⟨m, hm⟩ := hd'
    exact (hoff d' (h d' (by rw [hm]; exact Option.some_ne_none _)) hbelow).tail
      ⟨_, mem_links_moved.2 (.inl ⟨rfl, rfl⟩), rfl⟩
  have hon : ∀ y, Relation.ReflTransGen A.Holds l.node y →
      Relation.ReflTransGen (A.moved d l d' n).Holds root y := by
    intro y hway
    induction hway with
    | refl => exact hnode
    | tail _ hstep ih =>
      obtain ⟨k, hk, rfl⟩ := hstep
      by_cases hkl : k = l
      · exact hkl ▸ hnode
      · exact ih.tail (hkeep _ k hk hkl)
  intro y hy
  by_cases hbelow' : Relation.ReflTransGen A.Holds l.node y
  · exact hon y hbelow'
  · refine hoff y (h y fun hnone => hy ?_) hbelow'
    rw [Names.moved, node_attach, Option.map_eq_none_iff]
    have hdetach : (A.detach d l).node y = none := by rw [node_detach, hnone, Option.map_none]
    by_cases hdir : l.isDir
    · rwa [if_pos hdir]
    · rwa [if_neg hdir]

/-! ### Making way for a name -/

/-- The name is free in the directory, or a node of the same kind that has it goes. -/
inductive Cleared (A : Names ν N) (d : ν) (n : N) (x : ν) (isDir : Bool) : Names ν N → Prop
  | free (h : ∀ k ∈ A.links d, k.name ≠ n) : Cleared A d n x isDir A
  | removed {k : Link ν N} (hk : k ∈ A.links d) (hname : k.name = n) (hne : k.node ≠ x) (hkind : k.isDir = isDir)
      (hempty : A.links k.node = 0) : Cleared A d n x isDir (A.removed d k)

variable {B : Names ν N}

theorem Cleared.tidy (h : A.Cleared d n x isDir B) (htidy : A.Tidy root) : B.Tidy root := by
  cases h with
  | free => exact htidy
  | removed hk _ _ _ hempty => exact htidy.removed hk hempty

theorem Cleared.connected (h : A.Cleared d n x isDir B) (hc : A.Connected root) : B.Connected root := by
  cases h with
  | free => exact hc
  | removed _ _ _ _ hempty => exact hc.removed hempty

/-- There are no other links than before. -/
theorem Cleared.mem_of_mem (h : A.Cleared d n x isDir B) {e : ν} {k : Link ν N} (hk : k ∈ B.links e) :
    k ∈ A.links e := by
  cases h with
  | free => exact hk
  | removed => exact mem_links_of_detach hk

/-- The other links stay. -/
theorem Cleared.mem_links (h : A.Cleared d n l.node isDir B) {e : ν} (hl : l ∈ A.links e) : l ∈ B.links e := by
  cases h with
  | free => exact hl
  | removed _ _ hne _ _ => exact mem_links_detach hl fun heq => hne (heq ▸ rfl)

/-- The directory stays. -/
theorem Cleared.isDir_of (h : A.Cleared d n x isDir B) (hd : A.IsDir d) : B.IsDir d := by
  cases h with
  | free => exact hd
  | @removed k hk _ _ _ hempty =>
    have hne : d ≠ k.node := by
      intro heq
      rw [← heq] at hempty
      rw [hempty] at hk
      exact Multiset.notMem_zero k hk
    obtain ⟨m, hm⟩ := isDir_detach.2 hd
    exact ⟨m, by rw [Names.removed, node_drop, Function.update_of_ne hne, hm]⟩

/-- The name is free then. -/
theorem Cleared.name_ne (h : A.Cleared d n x isDir B) (htidy : A.Tidy root) : ∀ k ∈ B.links d, k.name ≠ n := by
  cases h with
  | free h => exact h
  | @removed k hk hname _ _ _ =>
    intro k' hk' hname'
    obtain rfl : k' = k := Multiset.inj_on_of_nodup_map (htidy.nodup d) k' (mem_links_of_detach hk') k hk
      (hname'.trans hname.symm)
    exact (htidy.detach hk).2 d k' hk' rfl

/-! ### How many directories a directory can hold -/

omit [DecidableEq N] in
/-- A directory holds fewer directories than there are nodes. -/
theorem Tidy.subdirs_lt (h : A.Tidy root) {s : Finset ν} (hs : ∀ y, A.node y ≠ none → y ∈ s) (d : ν) :
    A.subdirs d < s.card := by
  have hnodup : ((A.links d).map Link.node).Nodup :=
    Multiset.Nodup.map_on (fun k hk k' hk' heq => (h.once d k hk d k' hk' heq).2) (.of_map _ (h.nodup d))
  have hsub : ((A.links d).map Link.node).toFinset ⊆ s.erase root := by
    intro y hy
    obtain ⟨k, hk, rfl⟩ := Multiset.mem_map.1 (Multiset.mem_toFinset.1 hy)
    obtain ⟨m, hm⟩ := h.target d k hk
    exact Finset.mem_erase.2 ⟨h.root_unnamed d k hk, hs _ (by rw [hm]; exact Option.some_ne_none _)⟩
  have hcard := Finset.card_le_card hsub
  rw [Multiset.toFinset_card_of_nodup hnodup, Multiset.card_map] at hcard
  have hweight : A.subdirs d ≤ (A.links d).card := by
    have hle := Multiset.sum_le_card_nsmul ((A.links d).map Link.weight) 1 fun m hm => by
      obtain ⟨k, -, rfl⟩ := Multiset.mem_map.1 hm
      rw [Link.weight]
      split_ifs <;> omega
    rwa [Multiset.card_map, smul_eq_mul, Nat.mul_one] at hle
  obtain ⟨m, hm⟩ := h.root_isDir
  exact hweight.trans_lt (hcard.trans_lt (Finset.card_erase_lt_of_mem (hs root (by rw [hm]; exact Option.some_ne_none _))))

end

end Names

end AlbumFS

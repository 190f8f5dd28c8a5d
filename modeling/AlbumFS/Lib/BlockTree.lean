import AlbumFS.Lib.Ownership
import Mathlib.Data.List.Infix

/-!
# Trees of pointer blocks

A store keeps trees whose inner nodes are blocks of pointers. A tree hangs from a root pointer,
and a path of positions leads from the root pointer through pointer blocks to a pointer. Trees of
different roots may have different depths; below its depth a tree has no pointers, only contents.

A `Place` is a pointer of one of the trees: a root together with a path that is not longer than
the depth of the root. Paths are written from the pointer up to the root, so that the parent of
the place `i :: p` is `p`. The map `hold` sends a place to the block that its pointer names, if
any. It is an ownership map in the sense of `AlbumFS.Ownership`.

## Main definitions

* `Place`, `hold`: the pointers of a forest and the blocks they name.
* `Place.IsLeaf`: the pointers at full depth, which name contents and not pointer blocks.
* `cut`: an ownership map after one pointer has been replaced.

## Main results

* `hold_setEntry`, `hold_setRoot`: replacing a pointer cuts off what hung below it.
* `hold_setLeaf`: changing the contents of a block that is no pointer block changes no pointer.
* `exclusive_cut_some`, `exclusive_cut_none`: replacing pointers keeps ownership exclusive.
-/

namespace AlbumFS.BlockTree

open Ownership

variable {κ ι ρ β : Type}

/-- A pointer of a forest whose root `k` has depth `depth k`. -/
structure Place (ι : Type) (depth : κ → Nat) where
  root : κ
  /-- The positions on the way to the pointer, the last one first. -/
  path : List ι
  length_path : path.length ≤ depth root
  deriving DecidableEq

namespace Place

variable {depth : κ → Nat}

theorem ext {s t : Place ι depth} (hroot : s.root = t.root) (hpath : s.path = t.path) : s = t := by
  cases s
  cases t
  simp_all

/-- The pointer names contents, not a pointer block. -/
def IsLeaf (s : Place ι depth) : Prop := s.path.length = depth s.root

instance (s : Place ι depth) : Decidable s.IsLeaf := inferInstanceAs (Decidable (_ = _))

/-- The pointer `t` hangs below the pointer `s`, or is this pointer. -/
def Above (s t : Place ι depth) : Prop := s.root = t.root ∧ s.path <:+ t.path

theorem Above.refl (s : Place ι depth) : s.Above s := ⟨rfl, List.suffix_refl _⟩

theorem Above.trans {s t u : Place ι depth} (h : s.Above t) (h' : t.Above u) : s.Above u :=
  ⟨h.1.trans h'.1, h.2.trans h'.2⟩

theorem above_root_iff {s : Place ι depth} {k : κ} {h : [].length ≤ depth k} :
    s.Above ⟨k, [], h⟩ ↔ s = ⟨k, [], h⟩ := by
  constructor
  · rintro ⟨hk, hp⟩
    exact ext hk (List.suffix_nil.1 hp)
  · rintro rfl
    exact Above.refl _

theorem above_cons_iff {s : Place ι depth} {k : κ} {i : ι} {p : List ι}
    {h : (i :: p).length ≤ depth k} :
    s.Above ⟨k, i :: p, h⟩ ↔ s = ⟨k, i :: p, h⟩ ∨ s.Above ⟨k, p, Nat.le_of_succ_le h⟩ := by
  constructor
  · rintro ⟨hk, hp⟩
    rcases List.suffix_cons_iff.1 hp with hp | hp
    · exact .inl (ext hk hp)
    · exact .inr ⟨hk, hp⟩
  · rintro (rfl | ⟨hk, hp⟩)
    · exact Above.refl _
    · exact ⟨hk, hp.trans (List.suffix_cons _ _)⟩

/-- What hangs below a pointer is the pointer itself and what hangs below its entries. -/
theorem above_iff_child {s t : Place ι depth} :
    s.Above t ↔ t = s ∨ ∃ (i : ι) (h : (i :: s.path).length ≤ depth s.root),
      Above ⟨s.root, i :: s.path, h⟩ t := by
  constructor
  · rintro ⟨hk, l, hl⟩
    rcases List.eq_nil_or_concat l with rfl | ⟨l', i, rfl⟩
    · exact .inl (ext hk.symm hl.symm)
    · rw [List.concat_eq_append, List.append_assoc] at hl
      have hlen := t.length_path
      rw [← hl, ← hk, List.length_append] at hlen
      exact .inr ⟨i, Nat.le_of_add_left_le hlen, hk, l', hl⟩
  · rintro (rfl | ⟨i, h, hk, hp⟩)
    · exact Above.refl _
    · exact ⟨hk, (List.suffix_cons _ _).trans hp⟩

/-- The pointers on the way to a pointer lie on one line. -/
theorem Above.total {s t u : Place ι depth} (h : s.Above u) (h' : t.Above u) :
    s.Above t ∨ t.Above s := by
  rcases List.suffix_or_suffix_of_suffix h.2 h'.2 with hp | hp
  · exact .inl ⟨h.1.trans h'.1.symm, hp⟩
  · exact .inr ⟨h'.1.trans h.1.symm, hp⟩

theorem Above.antisymm {s t : Place ι depth} (h : s.Above t) (h' : t.Above s) : s = t :=
  ext h.1 (h.2.eq_of_length_le h'.2.length_le)

/-- Nothing hangs below a leaf. -/
theorem Above.eq_of_isLeaf {s t : Place ι depth} (h : s.Above t) (hs : s.IsLeaf) : t = s := by
  refine ext h.1.symm (List.IsSuffix.eq_of_length_le h.2 ?_).symm
  rw [hs, h.1]
  exact t.length_path

end Place

/-- The block that the pointer at the end of a path names. -/
def walk (entry : β → ι → Option ρ) (data : ρ → β) (root : Option ρ) : List ι → Option ρ
  | [] => root
  | i :: p => (walk entry data root p).bind fun b => entry (data b) i

variable {entry : β → ι → Option ρ} {data : ρ → β} {depth : κ → Nat}

theorem walk_none (p : List ι) : walk entry data none p = none := by
  induction p with
  | nil => rfl
  | cons i p ih => rw [walk, ih, Option.bind_none]

/-- A pointer on the way to a pointer that names a block names a block. -/
theorem walk_suffix {root : Option ρ} {p q : List ι} {b : ρ} (hpq : p <:+ q)
    (h : walk entry data root q = some b) : ∃ c, walk entry data root p = some c := by
  induction q generalizing b with
  | nil => exact ⟨b, by rwa [List.suffix_nil.1 hpq]⟩
  | cons i q ih =>
    rcases List.suffix_cons_iff.1 hpq with rfl | hpq
    · exact ⟨b, h⟩
    · rw [walk, Option.bind_eq_some_iff] at h
      obtain ⟨c, hc, -⟩ := h
      exact ih hpq hc

/-- The block that a place names. -/
def hold (entry : β → ι → Option ρ) (data : ρ → β) (roots : κ → Option ρ) (s : Place ι depth) :
    Option ρ :=
  walk entry data (roots s.root) s.path

/-- More roots hold more. -/
theorem sub_hold {roots roots' : κ → Option ρ} (h : Sub roots roots') :
    Sub (hold entry data roots : Place ι depth → Option ρ) (hold entry data roots') := by
  intro s b hs
  unfold hold at hs ⊢
  cases hroot : roots s.root with
  | none =>
    rw [hroot, walk_none] at hs
    cases hs
  | some c => rwa [h _ _ hroot, ← hroot]

theorem hold_none_of_above {roots : κ → Option ρ} {s t : Place ι depth} (h : s.Above t)
    (hs : hold entry data roots s = none) : hold entry data roots t = none := by
  by_contra hne
  obtain ⟨b, hb⟩ := Option.ne_none_iff_exists'.1 hne
  unfold hold at hb
  rw [← h.1] at hb
  obtain ⟨c, hc⟩ := walk_suffix h.2 hb
  unfold hold at hs
  rw [hs] at hc
  cases hc

/-- Changing a block that no pointer block's pointer names. -/
theorem hold_setLeaf [DecidableEq ρ] {roots : κ → Option ρ} {b : ρ} {block : β}
    (h : ∀ t : Place ι depth, hold entry data roots t = some b → t.IsLeaf) :
    (hold entry (Function.update data b block) roots : Place ι depth → Option ρ) =
      hold entry data roots := by
  funext t
  obtain ⟨k, q, hq⟩ := t
  induction q with
  | nil => rfl
  | cons j q ih =>
    have hq' : q.length ≤ depth k := Nat.le_of_succ_le hq
    have hih := ih hq'
    simp only [hold] at hih ⊢
    rw [walk, walk, hih]
    cases hc : walk entry data (roots k) q with
    | none => rfl
    | some c =>
      have hcb : c ≠ b := by
        rintro rfl
        have hleaf : q.length = depth k := h ⟨k, q, hq'⟩ hc
        simp only [List.length_cons] at hq
        omega
      rw [Option.bind_some, Option.bind_some, Function.update_of_ne hcb]

variable [DecidableEq κ] [DecidableEq ι]

instance (s t : Place ι depth) : Decidable (s.Above t) := instDecidableAnd

/-- The ownership map after the pointer at `s` has been replaced by `x`. What hung below `s` is
gone. -/
def cut (own : Place ι depth → Option ρ) (s : Place ι depth) (x : Option ρ) (t : Place ι depth) :
    Option ρ :=
  if t = s then x else if s.Above t then none else own t

theorem cut_self (own : Place ι depth → Option ρ) (s : Place ι depth) (x : Option ρ) :
    cut own s x s = x :=
  if_pos rfl

theorem cut_of_not_above {own : Place ι depth → Option ρ} {s t : Place ι depth} (x : Option ρ)
    (h : ¬ s.Above t) : cut own s x t = own t := by
  rw [cut, if_neg, if_neg h]
  rintro rfl
  exact h (Place.Above.refl _)

theorem cut_of_above_ne {own : Place ι depth → Option ρ} {s t : Place ι depth} (x : Option ρ)
    (h : s.Above t) (hne : t ≠ s) : cut own s x t = none := by
  rw [cut, if_neg hne, if_pos h]

/-- Giving a block to a pointer that names none. -/
theorem cut_eq_update {own : Place ι depth → Option ρ} {s : Place ι depth} (x : Option ρ)
    (h : ∀ t, s.Above t → own t = none) : cut own s x = Function.update own s x := by
  funext t
  by_cases hts : t = s
  · rw [hts, cut_self, Function.update_self]
  · rw [Function.update_of_ne hts]
    by_cases ha : s.Above t
    · rw [cut_of_above_ne x ha hts, h t ha]
    · exact cut_of_not_above x ha

theorem sub_cut_none (own : Place ι depth → Option ρ) (s : Place ι depth) :
    Sub (cut own s none) own := by
  intro t b h
  unfold cut at h
  split_ifs at h
  exact h

/-- Replacing an entry of a pointer block that no other pointer names. A block put there has no
entries yet. -/
theorem hold_setEntry [DecidableEq ρ] {roots : κ → Option ρ} {s : Place ι depth} {i : ι} {p : List ι}
    (hpath : s.path = i :: p) {b : ρ} (htable : walk entry data (roots s.root) p = some b)
    (hexcl : ∀ t : Place ι depth, hold entry data roots t = some b → t.root = s.root ∧ t.path = p)
    {block : β} {x : Option ρ} (hx : entry block i = x)
    (hblock : ∀ j, j ≠ i → entry block j = entry (data b) j)
    (hfresh : ∀ c, x = some c → c ≠ b ∧ ∀ j, entry (data c) j = none) :
    (hold entry (Function.update data b block) roots : Place ι depth → Option ρ) =
      cut (hold entry data roots) s x := by
  funext t
  obtain ⟨k, q, hq⟩ := t
  induction q with
  | nil =>
    have hna : ¬ s.Above (⟨k, [], hq⟩ : Place ι depth) := by
      rintro ⟨-, h⟩
      rw [hpath] at h
      simp at h
    rw [cut_of_not_above x hna]
    rfl
  | cons j q ih =>
    have hq' : q.length ≤ depth k := Nat.le_of_succ_le hq
    have hwalk : hold entry (Function.update data b block) roots (⟨k, j :: q, hq⟩ : Place ι depth) =
        (cut (hold entry data roots) s x ⟨k, q, hq'⟩).bind
          fun c => entry (Function.update data b block c) j := by
      rw [← ih hq']
      rfl
    rw [hwalk]
    have hup : s.Above ⟨k, q, hq'⟩ → s.Above ⟨k, j :: q, hq⟩ :=
      fun h => ⟨h.1, h.2.trans (List.suffix_cons _ _)⟩
    by_cases ha : s.Above ⟨k, q, hq'⟩
    · -- The pointer hangs below the one replaced, whose new block has no entries.
      have hne : (⟨k, j :: q, hq⟩ : Place ι depth) ≠ s := by
        rintro rfl
        exact absurd ha.2.length_le (Nat.not_succ_le_self _)
      rw [cut_of_above_ne x (hup ha) hne]
      by_cases heq : (⟨k, q, hq'⟩ : Place ι depth) = s
      · rw [heq, cut_self]
        cases x with
        | none => rfl
        | some c =>
          obtain ⟨hcb, hc⟩ := hfresh c rfl
          rw [Option.bind_some, Function.update_of_ne hcb, hc]
      · rw [cut_of_above_ne x ha heq, Option.bind_none]
    · rw [cut_of_not_above x ha]
      have hself : ∀ c, hold entry data roots (⟨k, q, hq'⟩ : Place ι depth) = some c →
          s.Above ⟨k, j :: q, hq⟩ → c = b ∧ j = i := by
        rintro c hc ⟨hk, hsuf⟩
        rcases List.suffix_cons_iff.1 hsuf with h | h
        · rw [hpath, List.cons.injEq] at h
          obtain ⟨rfl, rfl⟩ := h
          obtain rfl : s.root = k := hk
          rw [hold, htable, Option.some.injEq] at hc
          exact ⟨hc.symm, rfl⟩
        · exact absurd ⟨hk, h⟩ ha
      cases hc : hold entry data roots (⟨k, q, hq'⟩ : Place ι depth) with
      | none =>
        have hnone : hold entry data roots (⟨k, j :: q, hq⟩ : Place ι depth) = none :=
          hold_none_of_above (s := ⟨k, q, hq'⟩) ⟨rfl, List.suffix_cons _ _⟩ hc
        have hne : (⟨k, j :: q, hq⟩ : Place ι depth) ≠ s := by
          rintro rfl
          rw [List.cons.injEq] at hpath
          obtain ⟨rfl, rfl⟩ := hpath
          rw [hold, htable] at hc
          cases hc
        rw [Option.bind_none, cut, if_neg hne]
        split_ifs
        · rfl
        · exact hnone.symm
      | some c =>
        rw [Option.bind_some]
        by_cases hcb : c = b
        · subst hcb
          obtain ⟨rfl, rfl⟩ := hexcl _ hc
          rw [Function.update_self]
          by_cases hji : j = i
          · subst hji
            rw [show (⟨s.root, j :: q, hq⟩ : Place ι depth) = s from Place.ext rfl hpath.symm,
              cut_self, hx]
          · rw [cut_of_not_above x fun h => hji (hself c hc h).2, hblock j hji]
            simp only [hold] at hc ⊢
            rw [walk, hc, Option.bind_some]
        · rw [Function.update_of_ne hcb, cut_of_not_above x fun h => hcb (hself c hc h).1]
          simp only [hold] at hc ⊢
          rw [walk, hc, Option.bind_some]

/-- Replacing a root pointer. A block put there has no entries yet. -/
theorem hold_setRoot {roots : κ → Option ρ} {k : κ} {x : Option ρ}
    (hfresh : ∀ c, x = some c → ∀ j, entry (data c) j = none) :
    (hold entry data (Function.update roots k x) : Place ι depth → Option ρ) =
      cut (hold entry data roots) ⟨k, [], Nat.zero_le _⟩ x := by
  funext t
  obtain ⟨k', q, hq⟩ := t
  by_cases hk : k' = k
  · subst hk
    have ha : ∀ (q : List ι) (hq : q.length ≤ depth k'),
        (⟨k', [], Nat.zero_le _⟩ : Place ι depth).Above ⟨k', q, hq⟩ :=
      fun q _ => ⟨rfl, List.nil_suffix⟩
    induction q with
    | nil => rw [cut_self, hold, walk, Function.update_self]
    | cons j q ih =>
      have hq' : q.length ≤ depth k' := Nat.le_of_succ_le hq
      have hih := ih hq'
      rw [cut_of_above_ne x (ha _ _) (by simp)]
      simp only [hold] at hih ⊢
      rw [walk, hih]
      by_cases hnil : q = []
      · subst hnil
        rw [cut_self]
        cases x with
        | none => rfl
        | some c => exact hfresh c rfl j
      · rw [cut_of_above_ne x (ha _ _) (by simpa using hnil), Option.bind_none]
  · rw [cut_of_not_above x fun h => hk h.1.symm, hold, hold, Function.update_of_ne hk]

/-- A free block is given to a pointer that names none. -/
theorem exclusive_cut_some {own : Place ι depth → Option ρ} {alloc : Set ρ} {s : Place ι depth}
    {r : ρ} (h : Exclusive own alloc) (hr : r ∉ alloc) (hs : ∀ t, s.Above t → own t = none) :
    Exclusive (cut own s (some r)) (insert r alloc) := by
  rw [cut_eq_update _ hs]
  exact h.assign hr

/-- A block is taken from a pointer, with all that hangs below it. -/
theorem exclusive_cut_none {own : Place ι depth → Option ρ} {alloc : Set ρ} {s : Place ι depth}
    {r : ρ} (h : Exclusive own alloc) (hs : own s = some r) :
    Exclusive (cut own s none) (alloc \ {r}) where
  marked {t b} ht := by
    have htb := sub_cut_none own s _ _ ht
    refine ⟨h.marked htb, fun hb => ?_⟩
    obtain rfl : b = r := hb
    obtain rfl := h.inj htb hs
    rw [cut_self] at ht
    cases ht
  inj ht ht' := h.inj (sub_cut_none own s _ _ ht) (sub_cut_none own s _ _ ht')

end AlbumFS.BlockTree

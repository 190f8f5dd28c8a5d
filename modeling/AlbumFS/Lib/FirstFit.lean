import Mathlib

/-!
# First fit in a row of chunks

A region is cut into chunks, each free or holding one item. An item needs a certain length, and a chunk
that holds an item may be longer than the item needs. A new item goes into the first chunk with enough room:
a free chunk is taken whole, a chunk in use is cut down to what its item needs and the item gets the rest.
When an item goes, the chunk before it takes over its room, or its chunk becomes a free one.

## Main definitions

* `Chunk`, `contents`, `size`: chunks, and what a row of them holds.
* `Chunk.room`: what a chunk has left for another item.
* `place`: the new row.
* `vacate`: the row without an item.

## Main results

* `place_eq_some`: the chunk that was used, and the row around it.
* `contents_place`, `size_place`, `fits_place`: placing an item adds the item and nothing else.
* `place_eq_none_iff`: an item finds no place when every chunk lacks the room.
* `contents_vacate`, `size_vacate`, `fits_vacate`: taking an item out takes nothing else out.
-/

namespace AlbumFS.FirstFit

universe u

variable {α : Type u}

/-- A piece of the region, and the item in it. -/
structure Chunk (α : Type u) where
  len : Nat
  item : Option α

/-- The items in a row of chunks. -/
def contents (cs : List (Chunk α)) : List α := cs.filterMap Chunk.item

/-- The length of a row of chunks. -/
def size (cs : List (Chunk α)) : Nat := (cs.map Chunk.len).sum

@[simp] theorem contents_nil : contents ([] : List (Chunk α)) = [] := rfl

@[simp] theorem contents_append (cs ds : List (Chunk α)) :
    contents (cs ++ ds) = contents cs ++ contents ds :=
  List.filterMap_append

theorem contents_cons (c : Chunk α) (cs : List (Chunk α)) :
    contents (c :: cs) = c.item.toList ++ contents cs := by
  cases hc : c.item <;> simp [contents, hc]

@[simp] theorem size_nil : size ([] : List (Chunk α)) = 0 := rfl

@[simp] theorem size_cons (c : Chunk α) (cs : List (Chunk α)) : size (c :: cs) = c.len + size cs := by
  rw [size, List.map_cons, List.sum_cons, size]

@[simp] theorem size_append (cs ds : List (Chunk α)) : size (cs ++ ds) = size cs + size ds := by
  rw [size, List.map_append, List.sum_append, size, size]

variable (need : α → Nat)

/-- A chunk is long enough for its item. -/
def Chunk.Fits (c : Chunk α) : Prop := ∀ a ∈ c.item, need a ≤ c.len

/-- The room that a chunk has for another item. -/
def Chunk.room (c : Chunk α) : Nat :=
  match c.item with
  | none => c.len
  | some b => c.len - need b

/-- The chunk with another item in it. -/
def Chunk.put (c : Chunk α) (a : α) : List (Chunk α) :=
  match c.item with
  | none => [⟨c.len, some a⟩]
  | some b => [⟨need b, some b⟩, ⟨c.len - need b, some a⟩]

/-- The row with another item in the first chunk that has the room. -/
def place (a : α) : List (Chunk α) → Option (List (Chunk α))
  | [] => none
  | c :: cs => if need a ≤ c.room need then some (c.put need a ++ cs) else (place a cs).map (c :: ·)

@[simp] theorem Chunk.put_free (n : Nat) (a : α) : Chunk.put need ⟨n, none⟩ a = [⟨n, some a⟩] := rfl

@[simp] theorem Chunk.put_used (n : Nat) (b a : α) :
    Chunk.put need ⟨n, some b⟩ a = [⟨need b, some b⟩, ⟨n - need b, some a⟩] := rfl

variable {need} {a : α} {c : Chunk α} {cs cs' : List (Chunk α)}

theorem Chunk.contents_put (c : Chunk α) (a : α) :
    (contents (c.put need a)).Perm (a :: c.item.toList) := by
  unfold put
  cases c.item with
  | none => exact .refl _
  | some b => exact .swap _ _ _

theorem Chunk.size_put (h : c.Fits need) (a : α) : size (c.put need a) = c.len := by
  unfold put
  cases hc : c.item with
  | none => rfl
  | some b => exact Nat.add_sub_cancel' (h b hc)

theorem Chunk.fits_put (hroom : need a ≤ c.room need) : ∀ d ∈ c.put need a, d.Fits need := by
  intro d hd b hb
  unfold put at hd
  unfold room at hroom
  cases hc : c.item with
  | none =>
    rw [hc] at hd hroom
    rw [List.mem_singleton.1 hd] at hb ⊢
    cases hb
    exact hroom
  | some b' =>
    rw [hc] at hd hroom
    rcases List.mem_cons.1 hd with rfl | hd
    · cases hb
      exact Nat.le_refl _
    · rw [List.mem_singleton.1 hd] at hb ⊢
      cases hb
      exact hroom

/-- The item goes into the first chunk with enough room. -/
theorem place_eq_some (h : place need a cs = some cs') :
    ∃ before c after, cs = before ++ c :: after ∧ cs' = before ++ c.put need a ++ after ∧
      need a ≤ c.room need ∧ ∀ d ∈ before, d.room need < need a := by
  induction cs generalizing cs' with
  | nil => cases h
  | cons c cs ih =>
    rw [place] at h
    split_ifs at h with hroom
    · cases h
      exact ⟨[], c, cs, rfl, rfl, hroom, by simp⟩
    · obtain ⟨ds, hds, rfl⟩ := Option.map_eq_some_iff.1 h
      obtain ⟨before, d, after, rfl, rfl, hd, hbefore⟩ := ih hds
      refine ⟨c :: before, d, after, rfl, rfl, hd, fun d' hd' => ?_⟩
      rcases List.mem_cons.1 hd' with rfl | hd'
      · exact Nat.not_le.1 hroom
      · exact hbefore d' hd'

theorem place_eq_none_iff : place need a cs = none ↔ ∀ c ∈ cs, c.room need < need a := by
  induction cs with
  | nil => simp [place]
  | cons c cs ih =>
    rw [place, List.forall_mem_cons, ← ih]
    split_ifs with hroom
    · exact iff_of_false id fun h => absurd hroom (Nat.not_le.2 h.1)
    · rw [Option.map_eq_none_iff]
      exact (and_iff_right (Nat.not_le.1 hroom)).symm

/-- Placing an item adds it to the items. -/
theorem contents_place (h : place need a cs = some cs') : (contents cs').Perm (a :: contents cs) := by
  obtain ⟨before, c, after, rfl, rfl, -, -⟩ := place_eq_some h
  rw [contents_append, contents_append, contents_append, contents_cons]
  have hput : (contents before ++ contents (c.put need a) ++ contents after).Perm
      (contents before ++ (a :: c.item.toList) ++ contents after) :=
    ((c.contents_put a).append_left _).append_right _
  refine hput.trans ?_
  rw [List.append_assoc]
  exact List.perm_middle

/-- Placing an item changes no length. -/
theorem size_place (hfits : ∀ c ∈ cs, c.Fits need) (h : place need a cs = some cs') :
    size cs' = size cs := by
  obtain ⟨before, c, after, rfl, rfl, -, -⟩ := place_eq_some h
  rw [size_append, size_append, size_append, size_cons, Chunk.size_put (hfits c (by simp)), Nat.add_assoc]

/-- Every chunk stays long enough for its item. -/
theorem fits_place (hfits : ∀ c ∈ cs, c.Fits need) (h : place need a cs = some cs') :
    ∀ c ∈ cs', c.Fits need := by
  obtain ⟨before, c, after, rfl, rfl, hroom, -⟩ := place_eq_some h
  intro d hd
  rcases List.mem_append.1 hd with hd | hd
  · rcases List.mem_append.1 hd with hd | hd
    · exact hfits d (by simp [hd])
    · exact Chunk.fits_put hroom d hd
  · exact hfits d (by simp [hd])

/-! ### Taking items out -/

/-- The row `front ++ c :: back` without the item of `c`. A chunk right before `c` that holds an item takes over
the length of `c`; otherwise `c` becomes free. -/
def vacate (front : List (Chunk α)) (c : Chunk α) (back : List (Chunk α)) : List (Chunk α) :=
  match front.getLast? with
  | some ⟨n, some b⟩ => front.dropLast ++ ⟨n + c.len, some b⟩ :: back
  | _ => front ++ ⟨c.len, none⟩ :: back

theorem vacate_concat (front : List (Chunk α)) (n : Nat) (b : α) (c : Chunk α) (back : List (Chunk α)) :
    vacate (front ++ [⟨n, some b⟩]) c back = front ++ ⟨n + c.len, some b⟩ :: back := by
  rw [vacate, List.getLast?_concat]
  dsimp only
  rw [List.dropLast_concat]

theorem vacate_of_free {front : List (Chunk α)} (h : ∀ d ∈ front, d.item = none) (c : Chunk α)
    (back : List (Chunk α)) : vacate front c back = front ++ ⟨c.len, none⟩ :: back := by
  rw [vacate]
  split
  · rename_i n b hlast
    cases h _ (List.mem_of_getLast? hlast)
  · rfl

/-- The chunk before takes over the length, or the chunk becomes free. -/
theorem vacate_cases (front : List (Chunk α)) (c : Chunk α) (back : List (Chunk α)) :
    (∃ front' n b, front = front' ++ [⟨n, some b⟩] ∧ vacate front c back = front' ++ ⟨n + c.len, some b⟩ :: back) ∨
      vacate front c back = front ++ ⟨c.len, none⟩ :: back := by
  by_cases h : ∃ n b, front.getLast? = some ⟨n, some b⟩
  · obtain ⟨n, b, hlast⟩ := h
    obtain ⟨front', rfl⟩ := List.getLast?_eq_some_iff.1 hlast
    exact .inl ⟨front', n, b, rfl, vacate_concat front' n b c back⟩
  · refine .inr ?_
    rw [vacate]
    split
    · rename_i n b hlast
      exact absurd ⟨n, b, hlast⟩ h
    · rfl

/-- The other items stay, in their order. -/
theorem contents_vacate (front : List (Chunk α)) (c : Chunk α) (back : List (Chunk α)) :
    contents (vacate front c back) = contents front ++ contents back := by
  rcases vacate_cases front c back with ⟨front', n, b, rfl, h⟩ | h
  · rw [h, contents_append, contents_cons, contents_append, contents_cons, List.append_assoc]
    rfl
  · rw [h, contents_append, contents_cons]
    rfl

/-- Taking an item out changes no length. -/
theorem size_vacate (front : List (Chunk α)) (c : Chunk α) (back : List (Chunk α)) :
    size (vacate front c back) = size (front ++ c :: back) := by
  rcases vacate_cases front c back with ⟨front', n, b, rfl, h⟩ | h
  · rw [h]
    simp only [size_append, size_cons, size_nil]
    omega
  · rw [h]
    simp only [size_append, size_cons]

/-- Every chunk stays long enough for its item. -/
theorem fits_vacate {front back : List (Chunk α)} (hfits : ∀ d ∈ front ++ c :: back, d.Fits need) :
    ∀ d ∈ vacate front c back, d.Fits need := by
  rcases vacate_cases front c back with ⟨front', n, b, rfl, h⟩ | h
  · rw [h]
    intro d hd
    rcases List.mem_append.1 hd with hd | hd
    · exact hfits d (by simp [hd])
    rcases List.mem_cons.1 hd with rfl | hd
    · intro a ha
      exact (hfits ⟨n, some b⟩ (by simp) a ha).trans (Nat.le_add_right _ _)
    · exact hfits d (by simp [hd])
  · rw [h]
    intro d hd
    rcases List.mem_append.1 hd with hd | hd
    · exact hfits d (by simp [hd])
    rcases List.mem_cons.1 hd with rfl | hd
    · intro a ha
      cases ha
    · exact hfits d (by simp [hd])

end AlbumFS.FirstFit

import AlbumFS.Lib.Prog

/-!
# Programs side by side

Two programs over different states are *linked* along a relation between their states when, started in
related states, they return the same result, with a value that satisfies a given property, and leave
related states behind. A program that is linked to itself along the equality of states with an invariant
keeps the invariant.

Programs are linked *at* two states when this holds of these states only; a program that reads first may be
linked at states where its readings agree.

A program *follows* another when every run of the first that succeeds is matched by a run of the second
that succeeds; nothing is said about runs that fail.

## Main definitions

* `Prog.Linked`, `Prog.LinkedAt`: linked programs, and programs that are linked at two states.
* `Prog.Follows`: programs that follow each other.

## Main results

* `Prog.Linked.bind`, `Prog.Follows.bind`: the rules of sequences.
* `Prog.Linked.ends`, `Prog.LinkedAt.ends`: linked programs as an outcome.
-/

namespace AlbumFS

namespace Prog

variable {ε ε' σ σ' τ τ' α β : Type}

/-- From states related by `R`, both programs return the same result, whose value satisfies `Q`, and leave
related states behind. -/
def Linked (R : σ → τ → Prop) (Q : α → Prop) (m : Prog ε σ α) (n : Prog ε τ α) : Prop :=
  ∀ s t, R s t → (exec m s).1 = (exec n t).1 ∧ (∀ a, (exec m s).1 = .ok a → Q a) ∧
    R (exec m s).2 (exec n t).2

/-- From the states `s` and `t`, both programs return the same result and leave related states behind. -/
def LinkedAt (R : σ → τ → Prop) (m : Prog ε σ α) (n : Prog ε τ α) (s : σ) (t : τ) : Prop :=
  (exec m s).1 = (exec n t).1 ∧ R (exec m s).2 (exec n t).2

/-- When the first program succeeds from a state related by `R`, the second does with the same value, and
the states left behind are related by `S`. -/
def Follows (R S : σ → τ → Prop) (m : Prog ε σ α) (n : Prog ε' τ α) : Prop :=
  ∀ s t, R s t → ∀ a s', exec m s = (.ok a, s') → ∃ t', exec n t = (.ok a, t') ∧ S s' t'

section Linked

variable {R : σ → τ → Prop} {Q Q' : α → Prop} {m : Prog ε σ α} {n : Prog ε τ α}

theorem linked_pure {a : α} (h : Q a) : Linked R Q (pure a : Prog ε σ α) (pure a : Prog ε τ α) := by
  intro s t hR
  refine ⟨rfl, ?_, hR⟩
  rintro _ ⟨⟩
  exact h

theorem linked_throw (e : ε) : Linked R Q (throw e : Prog ε σ α) (throw e : Prog ε τ α) := by
  intro s t hR
  exact ⟨rfl, by rintro _ ⟨⟩, hR⟩

theorem linked_ofExcept {r : Except ε α} (h : ∀ a, r = .ok a → Q a) :
    Linked R Q (ofExcept r : Prog ε σ α) (ofExcept r : Prog ε τ α) :=
  fun _ _ hR => ⟨rfl, h, hR⟩

theorem linked_gets {f : σ → α} {g : τ → α} (h : ∀ s t, R s t → f s = g t ∧ Q (f s)) :
    Linked R Q (gets f : Prog ε σ α) (gets g : Prog ε τ α) := by
  intro s t hR
  refine ⟨congrArg Except.ok (h s t hR).1, ?_, hR⟩
  rintro _ ⟨⟩
  exact (h s t hR).2

theorem linked_update {f : σ → σ} {g : τ → τ} {Q : Unit → Prop} (h : ∀ s t, R s t → R (f s) (g t))
    (hQ : Q ()) : Linked R Q (update f : Prog ε σ Unit) (update g : Prog ε τ Unit) :=
  fun s t hR => ⟨rfl, fun _ _ => hQ, h s t hR⟩

theorem Linked.mono (h : Linked R Q m n) (hQ : ∀ a, Q a → Q' a) : Linked R Q' m n := by
  intro s t hR
  obtain ⟨hresult, hvalue, hstate⟩ := h s t hR
  exact ⟨hresult, fun a ha => hQ a (hvalue a ha), hstate⟩

theorem Linked.swap (h : Linked R Q m n) : Linked (fun t s => R s t) Q n m := by
  intro t s hR
  obtain ⟨hresult, hvalue, hstate⟩ := h s t hR
  exact ⟨hresult.symm, fun a ha => hvalue a (hresult.trans ha), hstate⟩

/-- Sequences of linked programs. -/
theorem Linked.bind {Q' : β → Prop} {f : α → Prog ε σ β} {g : α → Prog ε τ β} (h : Linked R Q m n)
    (hf : ∀ a, Q a → Linked R Q' (f a) (g a)) : Linked R Q' (m >>= f) (n >>= g) := by
  intro s t hR
  obtain ⟨hresult, hvalue, hstate⟩ := h s t hR
  rw [exec_bind, exec_bind]
  rcases hm : exec m s with ⟨_ | a, s'⟩ <;> rcases hn : exec n t with ⟨_ | b, t'⟩ <;>
    rw [hm, hn] at hresult <;> rw [hm] at hvalue <;> rw [hm, hn] at hstate
  · cases hresult
    exact ⟨rfl, by rintro _ ⟨⟩, hstate⟩
  · cases hresult
  · cases hresult
  · cases hresult
    exact hf a (hvalue a rfl) s' t' hstate

theorem Linked.mapError (h : Linked R Q m n) (f : ε → ε') :
    Linked R Q (Prog.mapError f m) (Prog.mapError f n) := by
  intro s t hR
  obtain ⟨hresult, hvalue, hstate⟩ := h s t hR
  exact ⟨congrArg (Except.mapError f) hresult, fun a ha => hvalue a (except_mapError_ok ha), hstate⟩

/-- Linked programs on parts of the states. -/
theorem linked_onPart {R' : σ' → τ' → Prop} {get : σ' → σ} {put : σ → σ' → σ'} {get' : τ' → τ}
    {put' : τ → τ' → τ'} (h : Linked R Q m n) (hget : ∀ s t, R' s t → R (get s) (get' t))
    (hput : ∀ s t s' t', R' s t → R s' t' → R' (put s' s) (put' t' t)) :
    Linked R' Q (onPart get put m) (onPart get' put' n) := by
  intro s t hR
  obtain ⟨hresult, hvalue, hstate⟩ := h _ _ (hget s t hR)
  exact ⟨hresult, hvalue, hput s t _ _ hR hstate⟩

/-- A program linked to itself keeps an invariant. -/
theorem Linked.ends {I : σ → Prop} {m : Prog ε σ α} {s : σ} (hs : I s)
    (h : Linked (fun s t => s = t ∧ I s) Q m m) :
    Ends m s (fun a t => Q a ∧ I t) fun _ t => I t := by
  obtain ⟨-, hvalue, -, hstate⟩ := h s s ⟨rfl, hs⟩
  unfold Ends
  rcases hm : exec m s with ⟨_ | a, t⟩ <;> rw [hm] at hvalue hstate
  · exact hstate
  · exact ⟨hvalue a rfl, hstate⟩

/-- A program that keeps an invariant is linked to itself. -/
theorem linked_of_ends {I : σ → Prop} {m : Prog ε σ α}
    (h : ∀ s, I s → Ends m s (fun a t => Q a ∧ I t) fun _ t => I t) :
    Linked (fun s t => s = t ∧ I s) Q m m := by
  rintro s _ ⟨rfl, hs⟩
  have hends := h s hs
  unfold Ends at hends
  rcases hm : exec m s with ⟨_ | a, t⟩ <;> rw [hm] at hends
  · exact ⟨rfl, by rintro _ ⟨⟩, rfl, hends⟩
  · refine ⟨rfl, ?_, rfl, hends.2⟩
    rintro _ ⟨⟩
    exact hends.1

end Linked

section LinkedAt

variable {R : σ → τ → Prop} {m : Prog ε σ α} {n : Prog ε τ α} {s : σ} {t : τ}

theorem Linked.linkedAt (h : Linked R (fun _ => True) m n) (hR : R s t) : LinkedAt R m n s t :=
  ⟨(h s t hR).1, (h s t hR).2.2⟩

/-- Programs that go on as linked programs. -/
theorem LinkedAt.bind {f : α → Prog ε σ β} {g : α → Prog ε τ β} (h : LinkedAt R m n s t)
    (hf : ∀ a, Linked R (fun _ => True) (f a) (g a)) : LinkedAt R (m >>= f) (n >>= g) s t := by
  obtain ⟨hresult, hstate⟩ := h
  rw [LinkedAt, exec_bind, exec_bind]
  rcases hm : exec m s with ⟨_ | a, s'⟩ <;> rcases hn : exec n t with ⟨_ | b, t'⟩ <;>
    rw [hm, hn] at hresult hstate <;> cases hresult
  · exact ⟨rfl, hstate⟩
  · exact (hf a).linkedAt hstate

/-- Both programs read the same value first. -/
theorem LinkedAt.bind_reads {f : α → Prog ε σ β} {g : α → Prog ε τ β} {a : α}
    (hm : exec m s = (.ok a, s)) (hn : exec n t = (.ok a, t)) (h : LinkedAt R (f a) (g a) s t) :
    LinkedAt R (m >>= f) (n >>= g) s t := by
  rw [LinkedAt, exec_bind, exec_bind, hm, hn]
  exact h

/-- The first program has the outcome of the second, up to the relation. -/
theorem LinkedAt.ends (h : LinkedAt R m n s t) {Q : α → τ → Prop} {E : ε → τ → Prop}
    (hn : Ends n t Q E) :
    Ends m s (fun a s' => ∃ t', R s' t' ∧ Q a t') fun e s' => ∃ t', R s' t' ∧ E e t' := by
  obtain ⟨hresult, hstate⟩ := h
  unfold Ends at hn ⊢
  rcases hm : exec m s with ⟨_ | a, s'⟩ <;> rcases hn' : exec n t with ⟨_ | b, t'⟩ <;>
    rw [hm, hn'] at hresult hstate <;> rw [hn'] at hn <;> cases hresult
  · exact ⟨t', hstate, hn⟩
  · exact ⟨t', hstate, hn⟩

end LinkedAt

section Follows

variable {R S T : σ → τ → Prop} {m : Prog ε σ α} {n : Prog ε' τ α}

theorem follows_pure (a : α) : Follows R R (pure a : Prog ε σ α) (pure a : Prog ε' τ α) := by
  rintro s t hR _ _ ⟨⟩
  exact ⟨t, rfl, hR⟩

theorem follows_throw (e : ε) : Follows R S (throw e : Prog ε σ α) n := by
  rintro s t hR a s' h
  cases h

theorem follows_ofExcept (r : Except ε α) :
    Follows R R (ofExcept r : Prog ε σ α) (ofExcept r : Prog ε τ α) := by
  rintro s t hR _ _ ⟨⟩
  exact ⟨t, rfl, hR⟩

/-- Sequences of programs that follow each other. -/
theorem Follows.bind {f : α → Prog ε σ β} {g : α → Prog ε' τ β} (h : Follows R S m n)
    (hf : ∀ a, Follows S T (f a) (g a)) : Follows R T (m >>= f) (n >>= g) := by
  intro s t hR b s'' hbind
  obtain ⟨a, s', hm, hrest⟩ := exec_bind_ok hbind
  obtain ⟨t', hn, hS⟩ := h s t hR a s' hm
  obtain ⟨t'', hrest', hT⟩ := hf a s' t' hS b s'' hrest
  exact ⟨t'', by rw [exec_bind, hn]; exact hrest', hT⟩

theorem Linked.follows {Q : α → Prop} {n : Prog ε τ α} (h : Linked R Q m n) : Follows R R m n := by
  intro s t hR a s' hm
  obtain ⟨hresult, -, hstate⟩ := h s t hR
  rw [hm] at hresult hstate
  exact ⟨(exec n t).2, Prod.ext hresult.symm rfl, hstate⟩

end Follows

end Prog

end AlbumFS

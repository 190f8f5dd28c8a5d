import Mathlib.Logic.Basic

/-!
# Programs that keep their state when they fail

A method that takes its object by mutable reference and returns a result leaves every change it
has made behind when it returns an error. Such methods are programs of
`ExceptT ε (StateM σ)`: `Prog.exec m s` is the pair of the result and of the state left behind,
whether the result is a value or an error.

`Prog.Ends m s Q E` says that the program `m` started in the state `s` ends with a value and a
state satisfying `Q`, or with an error and a state satisfying `E`. Its rules follow the shape of
a program: `ends_bind` for sequencing, `Ends.mono` for using the specification of a called
program.

A specification often speaks of a part of the state only, its *view*; what the view leaves out may
be anything. `Prog.EndsOn view m v Q E` says that `m` has the outcome from every state with the
view `v`, and `Prog.Reads view m v r` that `m` returns `r` there without changing the state.

## Main definitions

* `Prog`, `Prog.exec`: programs and their execution.
* `Prog.ofExcept`, `Prog.gets`, `Prog.onPart`: pure fallible steps, reading the state, and running
  a program on a part of the state.
* `Prog.Ends`: the outcome predicate.
* `Prog.EndsOn`, `Prog.Reads`: outcomes up to a view of the state.

## Main results

* `Prog.ends_bind`, `Prog.Ends.mono`, `Prog.Ends.and`: the rules of outcomes.
* `Prog.exec_bind_ok`: a successful sequence runs both of its parts successfully.
* `Prog.EndsOn.bind`, `Prog.Reads.bind`, `Prog.Reads.bind_endsOn`: the rules up to a view.
-/

namespace AlbumFS

/-- Programs over the state `σ` with errors `ε`; an error keeps the state reached so far. -/
abbrev Prog (ε σ : Type) : Type → Type := ExceptT ε (StateM σ)

namespace Prog

variable {ε σ τ α β : Type}

/-- The result of a program and the state it leaves behind. -/
def exec (m : Prog ε σ α) (s : σ) : Except ε α × σ := m.run.run s

/-- A fallible computation that does not touch the state: the `?` operator on a pure result. -/
def ofExcept (r : Except ε α) : Prog ε σ α := ExceptT.mk (pure r)

/-- Read the state through `f`. -/
def gets (f : σ → α) : Prog ε σ α := ExceptT.mk fun s => (.ok (f s), s)

/-- Change the state by `f`. -/
def update (f : σ → σ) : Prog ε σ Unit := ExceptT.mk fun s => (.ok (), f s)

/-- Run a program on the part of the state that `get` reads and `put` replaces. -/
def onPart (get : σ → τ) (put : τ → σ → σ) (m : Prog ε τ α) : Prog ε σ α :=
  ExceptT.mk fun s => ((m.exec (get s)).1, put (m.exec (get s)).2 s)

/-- Translate the errors of a program. -/
def mapError {ε' : Type} (f : ε → ε') (m : Prog ε σ α) : Prog ε' σ α :=
  ExceptT.mk fun s => ((m.exec s).1.mapError f, (m.exec s).2)

@[simp] theorem exec_pure (a : α) (s : σ) : exec (pure a : Prog ε σ α) s = (.ok a, s) := rfl

@[simp] theorem exec_throw (e : ε) (s : σ) : exec (throw e : Prog ε σ α) s = (.error e, s) := rfl

@[simp] theorem exec_ofExcept (r : Except ε α) (s : σ) :
    exec (ofExcept r : Prog ε σ α) s = (r, s) := rfl

@[simp] theorem exec_gets (f : σ → α) (s : σ) :
    exec (gets f : Prog ε σ α) s = (.ok (f s), s) := rfl

@[simp] theorem exec_update (f : σ → σ) (s : σ) :
    exec (update f : Prog ε σ Unit) s = (.ok (), f s) := rfl

@[simp] theorem exec_onPart (get : σ → τ) (put : τ → σ → σ) (m : Prog ε τ α) (s : σ) :
    exec (onPart get put m) s = ((m.exec (get s)).1, put (m.exec (get s)).2 s) := rfl

theorem exec_bind (m : Prog ε σ α) (f : α → Prog ε σ β) (s : σ) :
    exec (m >>= f) s = match exec m s with
      | (.ok a, t) => exec (f a) t
      | (.error e, t) => (.error e, t) := by
  change (ExceptT.bindCont f (m.run.run s).1).run (m.run.run s).2 = _
  unfold exec
  rcases m.run.run s with ⟨_ | _, _⟩ <;> rfl

/-- Translating the errors of a sequence. -/
theorem mapError_bind {ε' : Type} (g : ε → ε') (m : Prog ε σ α) (f : α → Prog ε σ β) :
    mapError g (m >>= f) = mapError g m >>= fun a => mapError g (f a) := by
  have hexec : ∀ {γ : Type} (n : Prog ε σ γ) (s : σ),
      exec (mapError g n) s = ((exec n s).1.mapError g, (exec n s).2) := fun _ _ => rfl
  funext s
  change exec (mapError g (m >>= f)) s = exec (mapError g m >>= fun a => mapError g (f a)) s
  rw [hexec, exec_bind, exec_bind, hexec]
  rcases exec m s with ⟨_ | _, _⟩ <;> rfl

/-- The outcome and the state that is left. -/
theorem exec_eq_of_fst {m : Prog ε σ α} {s : σ} {r : Except ε α} (h : (exec m s).1 = r) :
    exec m s = (r, (exec m s).2) :=
  Prod.ext h rfl

/-- A sequence that succeeds runs both of its parts successfully. -/
theorem exec_bind_ok {m : Prog ε σ α} {f : α → Prog ε σ β} {s u : σ} {b : β}
    (h : exec (m >>= f) s = (.ok b, u)) :
    ∃ a t, exec m s = (.ok a, t) ∧ exec (f a) t = (.ok b, u) := by
  rw [exec_bind] at h
  rcases hm : exec m s with ⟨_ | a, t⟩
  · simp [hm] at h
  · exact ⟨a, t, rfl, by simpa only [hm] using h⟩

/-- A sequence of results that is a value consists of values. -/
theorem except_bind_ok {r : Except ε α} {f : α → Except ε β} {b : β} (h : r >>= f = .ok b) :
    ∃ a, r = .ok a ∧ f a = .ok b := by
  cases r with
  | error e => cases h
  | ok a => exact ⟨a, rfl, h⟩

/-- Sequences that go on alike. -/
theorem except_bind_congr {r : Except ε α} {f g : α → Except ε β} (h : ∀ a, r = .ok a → f a = g a) :
    r >>= f = r >>= g := by
  cases r with
  | error e => rfl
  | ok a => exact h a rfl

/-- A check that was passed. -/
theorem except_ite_ok {p : Prop} [Decidable p] {e : ε} {r : Except ε α} {a : α}
    (h : (if p then .error e else r) = .ok a) : ¬p ∧ r = .ok a := by
  by_cases hp : p
  · rw [if_pos hp] at h
    cases h
  · rw [if_neg hp] at h
    exact ⟨hp, h⟩

theorem except_mapError_ok {ε' : Type} {r : Except ε α} {f : ε → ε'} {a : α}
    (h : r.mapError f = .ok a) : r = .ok a := by
  cases r with
  | error e => cases h
  | ok b => exact congrArg Except.ok (Except.ok.inj h)

/-- The program `m`, started in `s`, ends with a value and a state satisfying `Q`, or with an
error and a state satisfying `E`. -/
def Ends (m : Prog ε σ α) (s : σ) (Q : α → σ → Prop) (E : ε → σ → Prop) : Prop :=
  match exec m s with
  | (.ok a, t) => Q a t
  | (.error e, t) => E e t

section Rules

variable {m : Prog ε σ α} {s : σ} {Q Q' : α → σ → Prop} {E E' : ε → σ → Prop}

@[simp] theorem ends_pure (a : α) : Ends (pure a) s Q E ↔ Q a s := Iff.rfl

@[simp] theorem ends_throw (e : ε) : Ends (throw e) s Q E ↔ E e s := Iff.rfl

@[simp] theorem ends_gets (f : σ → α) : Ends (gets f) s Q E ↔ Q (f s) s := Iff.rfl

@[simp] theorem ends_update {Q : Unit → σ → Prop} (f : σ → σ) :
    Ends (update f) s Q E ↔ Q () (f s) := Iff.rfl

theorem ends_ofExcept (r : Except ε α) :
    Ends (ofExcept r) s Q E ↔ (∀ a, r = .ok a → Q a s) ∧ ∀ e, r = .error e → E e s := by
  cases r <;> simp [Ends]

/-- A sequence ends as its second part does, started where the first part ends. -/
theorem ends_bind {f : α → Prog ε σ β} {R : β → σ → Prop} :
    Ends (m >>= f) s R E ↔ Ends m s (fun a t => Ends (f a) t R E) E := by
  simp only [Ends, exec_bind]
  rcases exec m s with ⟨_ | _, _⟩ <;> rfl

theorem Ends.mono (h : Ends m s Q E) (hQ : ∀ a t, Q a t → Q' a t)
    (hE : ∀ e t, E e t → E' e t) : Ends m s Q' E' := by
  unfold Ends at h ⊢
  rcases hm : exec m s with ⟨_ | _, _⟩ <;> simp only [hm] at h ⊢
  · exact hE _ _ h
  · exact hQ _ _ h

/-- Sequencing after a program with a known outcome. -/
theorem Ends.bind {f : α → Prog ε σ β} {R : β → σ → Prop} (h : Ends m s Q E)
    (hQ : ∀ a t, Q a t → Ends (f a) t R E') (hE : ∀ e t, E e t → E' e t) :
    Ends (m >>= f) s R E' :=
  ends_bind.2 (h.mono hQ hE)

theorem Ends.and (h : Ends m s Q E) (h' : Ends m s Q' E') :
    Ends m s (fun a t => Q a t ∧ Q' a t) fun e t => E e t ∧ E' e t := by
  unfold Ends at h h' ⊢
  rcases hm : exec m s with ⟨_ | _, _⟩ <;> simp only [hm] at h h' ⊢ <;> exact ⟨h, h'⟩

/-- The outcome of a run that returned a value. -/
theorem Ends.of_ok {a : α} {t : σ} (h : Ends m s Q E) (hm : exec m s = (.ok a, t)) : Q a t := by
  simpa only [Ends, hm] using h

/-- The outcome of a run that returned an error. -/
theorem Ends.of_error {e : ε} {t : σ} (h : Ends m s Q E) (hm : exec m s = (.error e, t)) :
    E e t := by
  simpa only [Ends, hm] using h

/-- Every run has the outcome it has. -/
theorem ends_exec (m : Prog ε σ α) (s : σ) :
    Ends m s (fun a t => exec m s = (.ok a, t)) fun e t => exec m s = (.error e, t) := by
  unfold Ends
  rcases exec m s with ⟨_ | _, _⟩ <;> rfl

theorem ends_iff :
    Ends m s Q E ↔ (∀ a t, exec m s = (.ok a, t) → Q a t) ∧
      ∀ e t, exec m s = (.error e, t) → E e t := by
  constructor
  · exact fun h => ⟨fun _ _ => h.of_ok, fun _ _ => h.of_error⟩
  · rintro ⟨hQ, hE⟩
    exact (ends_exec m s).mono hQ hE

/-- A run with one outcome whatever it returns. -/
theorem Ends.state {P : σ → Prop} (h : Ends m s (fun _ t => P t) fun _ t => P t) :
    P (exec m s).2 := by
  unfold Ends at h
  rcases hm : exec m s with ⟨_ | _, _⟩ <;> simp only [hm] at h ⊢ <;> exact h

theorem ends_onPart {get : σ → τ} {put : τ → σ → σ} {n : Prog ε τ α} :
    Ends (onPart get put n) s Q E ↔
      Ends n (get s) (fun a t => Q a (put t s)) fun e t => E e (put t s) := by
  simp only [Ends, exec_onPart]
  rcases exec n (get s) with ⟨_ | _, _⟩ <;> rfl

theorem ends_mapError {ε' : Type} {f : ε → ε'} {E : ε' → σ → Prop} :
    Ends (mapError f m) s Q E ↔ Ends m s Q fun e => E (f e) := by
  have hexec : exec (mapError f m) s = ((exec m s).1.mapError f, (exec m s).2) := rfl
  unfold Ends
  rw [hexec]
  rcases exec m s with ⟨_ | _, _⟩ <;> rfl

end Rules

/-! ### Outcomes up to a view -/

section View

variable {ν : Type} {view : σ → ν}

/-- From every state with the view `v`, the program `m` ends with a value and a view satisfying
`Q`, or with an error and a view satisfying `E`. -/
def EndsOn (view : σ → ν) (m : Prog ε σ α) (v : ν) (Q : α → ν → Prop) (E : ε → ν → Prop) : Prop :=
  ∀ s, view s = v → Ends m s (fun a t => Q a (view t)) fun e t => E e (view t)

/-- From every state with the view `v`, the program `m` returns `r` and leaves the state as it
is. -/
def Reads (view : σ → ν) (m : Prog ε σ α) (v : ν) (r : Except ε α) : Prop :=
  ∀ s, view s = v → exec m s = (r, s)

variable {m : Prog ε σ α} {f : α → Prog ε σ β} {v : ν} {a : α} {e : ε} {r : Except ε α}
  {Q Q' : α → ν → Prop} {E E' : ε → ν → Prop} {R : β → ν → Prop}

theorem reads_pure (a : α) (v : ν) : Reads view (pure a : Prog ε σ α) v (.ok a) := fun _ _ => rfl

theorem reads_throw (e : ε) (v : ν) : Reads view (throw e : Prog ε σ α) v (.error e) :=
  fun _ _ => rfl

theorem reads_ofExcept (r : Except ε α) (v : ν) : Reads view (ofExcept r : Prog ε σ α) v r :=
  fun _ _ => rfl

theorem reads_ofExcept_ok (h : r = .ok a) : Reads view (ofExcept r : Prog ε σ α) v (.ok a) :=
  h ▸ reads_ofExcept r v

/-- Reading a part of the state that the view shows. -/
theorem reads_gets {get : σ → α} (h : ∀ s, view s = v → get s = a) :
    Reads view (gets get : Prog ε σ α) v (.ok a) := by
  intro s hs
  rw [exec_gets, h s hs]

theorem Reads.bind (h : Reads view m v (.ok a)) {r' : Except ε β} (hf : Reads view (f a) v r') :
    Reads view (m >>= f) v r' := by
  intro s hs
  rw [exec_bind, h s hs]
  exact hf s hs

theorem Reads.bind_error (h : Reads view m v (.error e)) : Reads view (m >>= f) v (.error e) := by
  intro s hs
  rw [exec_bind, h s hs]

/-- A sequence of two readings returns the sequence of their results. -/
theorem Reads.bind_except (h : Reads view m v r) {g : α → Except ε β}
    (hf : ∀ a, r = .ok a → Reads view (f a) v (g a)) : Reads view (m >>= f) v (r >>= g) := by
  cases r with
  | error e => exact h.bind_error
  | ok a => exact h.bind (hf a rfl)

theorem Reads.endsOn (h : Reads view m v r) (hQ : ∀ a, r = .ok a → Q a v)
    (hE : ∀ e, r = .error e → E e v) : EndsOn view m v Q E := by
  intro s hs
  cases r with
  | error e => simpa only [Ends, h s hs, hs] using hE e rfl
  | ok a => simpa only [Ends, h s hs, hs] using hQ a rfl

/-- A program that starts by reading a value. -/
theorem Reads.bind_endsOn (h : Reads view m v (.ok a)) (hf : EndsOn view (f a) v R E) :
    EndsOn view (m >>= f) v R E := by
  intro s hs
  rw [ends_bind]
  simpa only [Ends, h s hs] using hf s hs

/-- A program whose first reading may fail. -/
theorem Reads.bind_endsOn_except (h : Reads view m v r)
    (hf : ∀ a, r = .ok a → EndsOn view (f a) v R E) (hE : ∀ e, r = .error e → E e v) :
    EndsOn view (m >>= f) v R E := by
  cases r with
  | error e => exact h.bind_error.endsOn (by simp) fun e' he' => hE e' (by simpa using he')
  | ok a => exact h.bind_endsOn (hf a rfl)

theorem endsOn_pure (h : Q a v) : EndsOn view (pure a : Prog ε σ α) v Q E :=
  (reads_pure a v).endsOn (by rintro _ ⟨⟩; exact h) (by simp)

theorem endsOn_throw (h : E e v) : EndsOn view (throw e : Prog ε σ α) v Q E :=
  (reads_throw e v).endsOn (by simp) (by rintro _ ⟨⟩; exact h)

/-- Changing the state changes the view accordingly. -/
theorem endsOn_update {upd : σ → σ} {w : ν} {Q : Unit → ν → Prop}
    (hw : ∀ s, view s = v → view (upd s) = w) (h : Q () w) :
    EndsOn view (update upd : Prog ε σ Unit) v Q E := by
  intro s hs
  simpa only [ends_update, hw s hs] using h

theorem EndsOn.mono (h : EndsOn view m v Q E) (hQ : ∀ a w, Q a w → Q' a w)
    (hE : ∀ e w, E e w → E' e w) : EndsOn view m v Q' E' :=
  fun s hs => (h s hs).mono (fun _ _ => hQ _ _) fun _ _ => hE _ _

/-- Sequencing up to the view. -/
theorem EndsOn.bind (h : EndsOn view m v Q E) (hQ : ∀ a w, Q a w → EndsOn view (f a) w R E')
    (hE : ∀ e w, E e w → E' e w) : EndsOn view (m >>= f) v R E' :=
  fun s hs => (h s hs).bind (fun _ _ ht => hQ _ _ ht _ rfl) fun _ _ => hE _ _

/-- A sequence ends as its second part does, started where the first part ends. -/
theorem endsOn_bind (h : EndsOn view m v (fun a w => EndsOn view (f a) w R E) E) :
    EndsOn view (m >>= f) v R E :=
  h.bind (fun _ _ hf => hf) fun _ _ he => he

theorem endsOn_mapError {ε' : Type} {g : ε → ε'} {E : ε' → ν → Prop}
    (h : EndsOn view m v Q fun e => E (g e)) : EndsOn view (mapError g m) v Q E :=
  fun s hs => ends_mapError.2 (h s hs)

/-- Translated errors of a program that only reads. -/
theorem Reads.mapError {ε' : Type} {g : ε → ε'} (h : Reads view m v r) :
    Reads view (Prog.mapError g m) v (r.mapError g) := by
  intro s hs
  have hexec : exec (Prog.mapError g m) s = ((exec m s).1.mapError g, (exec m s).2) := rfl
  rw [hexec, h s hs]

/-- Every program ends somehow. -/
theorem endsOn_true (m : Prog ε σ α) (v : ν) :
    EndsOn view m v (fun _ _ => True) fun _ _ => True :=
  fun s _ => (ends_exec m s).mono (fun _ _ _ => trivial) fun _ _ _ => trivial

theorem EndsOn.and (h : EndsOn view m v Q E) (h' : EndsOn view m v Q' E') :
    EndsOn view m v (fun a w => Q a w ∧ Q' a w) fun e w => E e w ∧ E' e w :=
  fun s hs => (h s hs).and (h' s hs)

/-- The outcome of a run that returned a value. -/
theorem EndsOn.of_ok {s t : σ} (h : EndsOn view m (view s) Q E) (hm : exec m s = (.ok a, t)) :
    Q a (view t) :=
  (h s rfl).of_ok hm

/-- The outcome of a run that returned an error. -/
theorem EndsOn.of_error {s t : σ} (h : EndsOn view m (view s) Q E)
    (hm : exec m s = (.error e, t)) : E e (view t) :=
  (h s rfl).of_error hm

end View

end Prog

end AlbumFS

import Mathlib.Logic.Basic

/-!
# Triples for programs with state and errors

A program that may fail, and whose changes to the state survive the failure, is a
term of `ExceptT ε (StateM σ)`.  `Triple P prog Q E` says that from every state
in `P` the program ends either with a result and a state in `Q`, or with an error
and a state in `E`.  The rules below take a program apart along its binds and
loops; nothing else of the monad is unfolded by their users.
-/

namespace Codex

/-- A program over a state `σ` that may fail with an error `ε`. -/
abbrev Prog (ε σ : Type) := ExceptT ε (StateM σ)

variable {ε σ α β : Type}

namespace Prog

/-- The outcome of a program and the state it leaves. -/
def exec (prog : Prog ε σ α) (s : σ) : Except ε α × σ := prog s

@[simp] theorem exec_pure (a : α) (s : σ) : exec (pure a : Prog ε σ α) s = (.ok a, s) := rfl

@[simp] theorem exec_throw (e : ε) (s : σ) : exec (throw e : Prog ε σ α) s = (.error e, s) := rfl

theorem exec_bind (prog : Prog ε σ α) (next : α → Prog ε σ β) (s : σ) :
    exec (prog >>= next) s =
      match exec prog s with
      | (.ok a, s') => exec (next a) s'
      | (.error e, s') => (.error e, s') := by
  have hbind : exec (prog >>= next) s = ExceptT.bindCont next (prog s).1 (prog s).2 := rfl
  rw [hbind]
  rcases hrun : prog s with ⟨_ | a, s'⟩
  · simp only [exec, hrun]
    rfl
  · simp only [exec, hrun]
    rfl

/-- A step that cannot fail. -/
def step (f : σ → α × σ) : Prog ε σ α := fun s => (.ok (f s).1, (f s).2)

@[simp] theorem exec_step (f : σ → α × σ) (s : σ) :
    exec (step f : Prog ε σ α) s = (.ok (f s).1, (f s).2) := rfl

/-- A change of the state. -/
def update (f : σ → σ) : Prog ε σ Unit := step fun s => ((), f s)

@[simp] theorem exec_update (f : σ → σ) (s : σ) :
    exec (update f : Prog ε σ Unit) s = (.ok (), f s) := rfl

/-- A computed result, with its error as the error of the program. -/
def ofExcept (result : Except ε α) : Prog ε σ α :=
  match result with
  | .ok a => pure a
  | .error e => throw e

end Prog

/-- `Triple P prog Q E`: from every state in `P`, `prog` ends in `Q` with a result
or in `E` with an error. -/
def Triple (P : σ → Prop) (prog : Prog ε σ α) (Q : α → σ → Prop) (E : ε → σ → Prop) : Prop :=
  ∀ s, P s →
    match prog.exec s with
    | (.ok a, s') => Q a s'
    | (.error e, s') => E e s'

namespace Triple

variable {P P' : σ → Prop} {Q Q' : α → σ → Prop} {R : β → σ → Prop} {E E' : ε → σ → Prop}
  {prog : Prog ε σ α} {next : α → Prog ε σ β}

theorem pure {a : α} (h : ∀ s, P s → Q a s) : Triple P (Pure.pure a : Prog ε σ α) Q E := h

theorem throw {e : ε} (h : ∀ s, P s → E e s) : Triple P (MonadExcept.throw e : Prog ε σ α) Q E := h

theorem step {f : σ → α × σ} (h : ∀ s, P s → Q (f s).1 (f s).2) :
    Triple P (Prog.step f : Prog ε σ α) Q E := h

theorem update {f : σ → σ} {Q : Unit → σ → Prop} (h : ∀ s, P s → Q () (f s)) :
    Triple P (Prog.update f : Prog ε σ Unit) Q E := h

theorem ofExcept_mapError {δ : Type} {result : Except δ α} {f : δ → ε}
    (herror : ∀ e s, P s → E e s) :
    Triple P (ofExcept (result.mapError f)) (fun a s => result = .ok a ∧ P s) E := by
  cases result with
  | ok a => exact .pure fun s hs => ⟨rfl, hs⟩
  | error e => exact .throw (herror (f e))

theorem bind (hprog : Triple P prog Q E) (hnext : ∀ a, Triple (Q a) (next a) R E) :
    Triple P (prog >>= next) R E := by
  intro s hs
  have hfirst := hprog s hs
  rw [Prog.exec_bind]
  rcases hrun : prog.exec s with ⟨_ | a, s'⟩
  · rw [hrun] at hfirst
    exact hfirst
  · rw [hrun] at hfirst
    exact hnext a s' hfirst

theorem weaken (h : Triple P prog Q E) (hP : ∀ s, P' s → P s) (hQ : ∀ a s, Q a s → Q' a s)
    (hE : ∀ e s, E e s → E' e s) : Triple P' prog Q' E' := by
  intro s hs
  have hend := h s (hP s hs)
  rcases hrun : prog.exec s with ⟨_ | a, s'⟩
  · rw [hrun] at hend
    exact hE _ _ hend
  · rw [hrun] at hend
    exact hQ _ _ hend

theorem of_pre (h : Triple P prog Q E) (hP : ∀ s, P' s → P s) : Triple P' prog Q E :=
  h.weaken hP (fun _ _ hs => hs) (fun _ _ hs => hs)

theorem of_error (h : Triple P prog Q E) (hE : ∀ e s, E e s → E' e s) : Triple P prog Q E' :=
  h.weaken (fun _ hs => hs) (fun _ _ hs => hs) hE

/-- An assertion that holds however the program ends holds of its last state. -/
theorem state {I : σ → Prop} (h : Triple P prog (fun _ => I) (fun _ => I)) {s : σ} (hs : P s) :
    I (prog.exec s).2 := by
  have hend := h s hs
  rcases hrun : prog.exec s with ⟨_ | a, s'⟩
  · rw [hrun] at hend
    exact hend
  · rw [hrun] at hend
    exact hend

/-- A value that only the precondition speaks of may be fixed beforehand. -/
theorem of_forall {ι : Type} {P : ι → σ → Prop} (h : ∀ i, Triple (P i) prog Q E) :
    Triple (fun s => ∃ i, P i s) prog Q E := by
  rintro s ⟨i, hs⟩
  exact h i s hs

/-- A conjunct of the precondition that does not speak of the state. -/
theorem of_pure {F : Prop} (h : F → Triple P prog Q E) : Triple (fun s => F ∧ P s) prog Q E := by
  rintro s ⟨hF, hs⟩
  exact h hF s hs

/-- A program that looks at the state first. -/
theorem read {next : σ → Prog ε σ α} (h : ∀ s, P s → Triple (· = s) (next s) Q E) :
    Triple P (Prog.step (fun s => (s, s)) >>= next) Q E := by
  intro s hs
  exact h s hs s rfl

/-- A program that looks at the state first and needs nothing of what it sees. -/
theorem read_any {next : σ → Prog ε σ α} (h : ∀ s, Triple P (next s) Q E) :
    Triple P (Prog.step (fun s => (s, s)) >>= next) Q E :=
  read fun s hs => (h s).of_pre fun _ hsame => hsame ▸ hs

/-- The loop rule, with an assertion that knows which items are done and a body that knows which
are left. -/
theorem foldlM_split {ι : Type} {body : α → ι → Prog ε σ α} {I : List ι → α → σ → Prop}
    {items : List ι} (hbody : ∀ done item rest a, items = done ++ item :: rest →
      Triple (I done a) (body a item) (I (done ++ [item])) E) (a : α) :
    Triple (I [] a) (items.foldlM body a) (I items) E := by
  suffices hloop : ∀ done rest a, items = done ++ rest →
      Triple (I done a) (rest.foldlM body a) (I items) E from hloop [] items a rfl
  intro done rest
  induction rest generalizing done with
  | nil =>
    intro a hitems
    rw [hitems, List.append_nil]
    exact .pure fun s hs => hs
  | cons item rest ih =>
    intro a hitems
    refine .bind (hbody done item rest a hitems) fun b => ?_
    exact ih (done ++ [item]) b (by rw [hitems, List.append_assoc, List.singleton_append])

/-- The loop rule, with an assertion that knows which items are done. -/
theorem foldlM_done {ι : Type} {body : α → ι → Prog ε σ α} {I : List ι → α → σ → Prop}
    (hbody : ∀ done item a, Triple (I done a) (body a item) (I (done ++ [item])) E)
    (done items : List ι) (a : α) :
    Triple (I done a) (items.foldlM body a) (I (done ++ items)) E := by
  have hloop : Triple (I (done ++ []) a) (items.foldlM body a) (I (done ++ items)) E :=
    foldlM_split (I := fun past => I (done ++ past)) (fun past item _ a _ => by
      rw [← List.append_assoc]
      exact hbody (done ++ past) item a) a
  rwa [List.append_nil] at hloop

/-- The loop rule: what every round preserves holds at the end of the loop, and
whatever a failing round leaves is left by the loop. -/
theorem foldlM {ι : Type} {body : α → ι → Prog ε σ α} {items : List ι} {I : α → σ → Prop}
    (hbody : ∀ a, ∀ item ∈ items, Triple (I a) (body a item) I E) (a : α) :
    Triple (I a) (items.foldlM body a) I E :=
  foldlM_split (I := fun _ => I) (fun _ item _ a hitems => hbody a item (by simp [hitems])) a

/-- What the assertion says of a run that returned. -/
theorem of_ok (h : Triple P prog Q E) {s : σ} {a : α} (hs : P s)
    (hok : (prog.exec s).1 = .ok a) : Q a (prog.exec s).2 := by
  have hend := h s hs
  rcases hrun : prog.exec s with ⟨result, s'⟩
  rw [hrun] at hend hok
  obtain rfl : result = .ok a := hok
  exact hend

end Triple

end Codex

import Mathlib.Data.List.Forall2
import Mathlib.Logic.Basic

/-! # Computations with a state that may fail

    The steps of this library that keep a state and may fail are all computations in
    `ExceptT ε (StateM σ)`: the state survives a failure.  Two views of a run are enough for
    everything that is proved about them.

    * `Ends x s a s'`: started in `s`, the computation succeeds with `a` and leaves `s'`.
    * `Leads I J x Q`: started where `I` holds, the computation ends where `J` holds, whether it
      succeeds or fails, and what it succeeds with satisfies `Q`.  Where `I` and `J` are the same
      invariant, `x` keeps it: `Keeps I x Q`.

    Each view has one rule per way of building a computation, so no later proof opens the
    transformers.
-/

namespace IdlBridge

variable {ε σ α β : Type}

/-! ## Outcomes -/

theorem bind_eq_ok {x : Except ε α} {f : α → Except ε β} {b : β} :
    x >>= f = .ok b ↔ ∃ a, x = .ok a ∧ f a = .ok b := by
  cases x with
  | error e =>
    show (Except.error e : Except ε β) = .ok b ↔ _
    simp
  | ok a =>
    show f a = .ok b ↔ _
    simp

theorem bind_eq_error {x : Except ε α} {f : α → Except ε β} {err : ε} :
    x >>= f = .error err ↔ x = .error err ∨ ∃ a, x = .ok a ∧ f a = .error err := by
  cases x with
  | error e =>
    show (Except.error e : Except ε β) = .error err ↔ _
    simp
  | ok a =>
    show f a = .error err ↔ _
    simp

theorem pure_eq_ok {a b : α} : (pure a : Except ε α) = .ok b ↔ a = b := by
  show (Except.ok a : Except ε α) = .ok b ↔ _
  simp

theorem map_eq_ok {f : α → β} {x : Except ε α} {b : β} :
    x.map f = .ok b ↔ ∃ a, x = .ok a ∧ f a = b := by
  cases x <;> simp [Except.map]

theorem mapError_eq_ok {δ : Type} {f : ε → δ} {x : Except ε α} {a : α} :
    x.mapError f = .ok a ↔ x = .ok a := by
  cases x <;> simp [Except.mapError]

/-- A loop over a list succeeds when all its rounds do. -/
theorem exists_of_mapM_eq_ok {f : α → Except ε β} {xs : List α} {ys : List β}
    (h : xs.mapM f = .ok ys) : ∀ y ∈ ys, ∃ x ∈ xs, f x = .ok y := by
  induction xs generalizing ys with
  | nil =>
    rw [List.mapM_nil, pure_eq_ok] at h
    simp [← h]
  | cons x xs ih =>
    rw [List.mapM_cons, bind_eq_ok] at h
    obtain ⟨y, hy, h⟩ := h
    obtain ⟨zs, hzs, h⟩ := bind_eq_ok.1 h
    rw [pure_eq_ok] at h
    subst h
    intro z hz
    rcases List.mem_cons.1 hz with rfl | hz
    · exact ⟨x, List.mem_cons_self, hy⟩
    · obtain ⟨w, hw, hf⟩ := ih hzs z hz
      exact ⟨w, List.mem_cons_of_mem _ hw, hf⟩

/-- The results of a loop stand in the order of what they are made from. -/
theorem forall₂_of_mapM_eq_ok {f : α → Except ε β} {xs : List α} {ys : List β}
    (h : xs.mapM f = .ok ys) : List.Forall₂ (fun x y => f x = .ok y) xs ys := by
  induction xs generalizing ys with
  | nil =>
    rw [List.mapM_nil, pure_eq_ok] at h
    exact h ▸ .nil
  | cons x xs ih =>
    rw [List.mapM_cons, bind_eq_ok] at h
    obtain ⟨y, hy, h⟩ := h
    obtain ⟨zs, hzs, h⟩ := bind_eq_ok.1 h
    rw [pure_eq_ok] at h
    exact h ▸ .cons hy (ih hzs)

/-! ## Successful runs -/

/-- Started in `s`, the computation succeeds with `a` and leaves `s'`. -/
def Ends (x : ExceptT ε (StateM σ) α) (s : σ) (a : α) (s' : σ) : Prop :=
  x.run.run s = (.ok a, s')

/-- The outcome of a run, where that can be evaluated. -/
theorem ends_of_toOption {x : ExceptT ε (StateM σ) α} {s : σ} {a : α}
    (h : (x.run.run s).1.toOption = some a) : Ends x s a (x.run.run s).2 := by
  unfold Ends
  rcases hx : x.run.run s with ⟨e | b, t⟩
  · rw [hx] at h
    cases h
  · rw [hx] at h
    cases h
    rfl

@[simp] theorem ends_pure {s s' : σ} {a b : α} :
    Ends (pure a : ExceptT ε (StateM σ) α) s b s' ↔ a = b ∧ s = s' := by
  show ((Except.ok a : Except ε α), s) = (.ok b, s') ↔ _
  simp

@[simp] theorem ends_throw {s s' : σ} {a : α} {e : ε} :
    ¬ Ends (throw e : ExceptT ε (StateM σ) α) s a s' := by
  show ¬ ((Except.error e : Except ε α), s) = (.ok a, s')
  simp

theorem run_bind (x : ExceptT ε (StateM σ) α) (f : α → ExceptT ε (StateM σ) β) (s : σ) :
    (x >>= f).run.run s =
      match x.run.run s with
      | (.ok a, t) => (f a).run.run t
      | (.error e, t) => (.error e, t) := by
  have hrun : (x >>= f).run.run s =
      (ExceptT.bindCont f (x.run.run s).1).run (x.run.run s).2 := rfl
  rw [hrun]
  rcases x.run.run s with ⟨e | a, t⟩ <;> rfl

theorem ends_bind {x : ExceptT ε (StateM σ) α} {f : α → ExceptT ε (StateM σ) β} {s s' : σ}
    {b : β} : Ends (x >>= f) s b s' ↔ ∃ a t, Ends x s a t ∧ Ends (f a) t b s' := by
  unfold Ends
  rw [run_bind]
  rcases hx : x.run.run s with ⟨e | a, t⟩
  · constructor
    · intro h
      cases h
    · rintro ⟨a, t', ht, -⟩
      cases ht
  · constructor
    · intro h
      exact ⟨a, t, rfl, h⟩
    · rintro ⟨a', t', ht, h⟩
      cases ht
      exact h

/-- A loop that succeeds has succeeded in every round. -/
theorem exists_ends_of_foldlM {f : β → α → ExceptT ε (StateM σ) β} {as : List α} {s t : σ}
    {b b' : β} (h : Ends (as.foldlM f b) s b' t) {a : α} (ha : a ∈ as) :
    ∃ c u c' u', Ends (f c a) u c' u' := by
  induction as generalizing s b with
  | nil => cases ha
  | cons x rest ih =>
    rw [List.foldlM_cons] at h
    obtain ⟨mid, u, hx, h⟩ := ends_bind.1 h
    rcases List.mem_cons.1 ha with rfl | ha
    · exact ⟨b, s, mid, u, hx⟩
    · exact ih h ha

@[simp] theorem ends_modify {f : σ → σ} {s s' : σ} {u : Unit} :
    Ends (modify f : ExceptT ε (StateM σ) Unit) s u s' ↔ s' = f s := by
  show ((Except.ok () : Except ε Unit), f s) = (.ok u, s') ↔ _
  simp [eq_comm]

@[simp] theorem ends_get {s s' t : σ} :
    Ends (get : ExceptT ε (StateM σ) σ) s t s' ↔ s = t ∧ s = s' := by
  show ((Except.ok s : Except ε σ), s) = (.ok t, s') ↔ _
  simp

@[simp] theorem ends_set {s s' t : σ} {u : PUnit} :
    Ends (set t : ExceptT ε (StateM σ) PUnit) s u s' ↔ s' = t := by
  show ((Except.ok PUnit.unit : Except ε PUnit), t) = (.ok u, s') ↔ _
  simp [eq_comm]

/-- A computation without failures, used as one that may fail. -/
@[simp] theorem ends_lift_state {x : StateM σ α} {s s' : σ} {a : α} :
    Ends (liftM x : ExceptT ε (StateM σ) α) s a s' ↔ x.run s = (a, s') := by
  show ((Except.ok (x.run s).1 : Except ε α), (x.run s).2) = (.ok a, s') ↔ _
  rw [Prod.ext_iff, Prod.ext_iff]
  simp

/-- An outcome, used as a computation that leaves the state alone. -/
@[simp] theorem ends_lift_except {x : Except ε α} {s s' : σ} {a : α} :
    Ends (liftM x : ExceptT ε (StateM σ) α) s a s' ↔ x = .ok a ∧ s = s' := by
  show ((x : Except ε α), s) = (.ok a, s') ↔ _
  simp

theorem run_tryCatch (x : ExceptT ε (StateM σ) α) (f : ε → ExceptT ε (StateM σ) α) (s : σ) :
    (tryCatch x f).run.run s =
      match x.run.run s with
      | (.ok a, t) => (.ok a, t)
      | (.error e, t) => (f e).run.run t := by
  have hcont : (tryCatch x f).run.run s =
      (match (x.run.run s).1 with
        | .ok a => (pure (.ok a) : StateM σ (Except ε α))
        | .error e => (f e).run).run (x.run.run s).2 := rfl
  rw [hcont]
  rcases x.run.run s with ⟨e | a, t⟩ <;> rfl

/-- A caught computation succeeds by itself or after its error has been handled. -/
theorem ends_tryCatch {x : ExceptT ε (StateM σ) α} {f : ε → ExceptT ε (StateM σ) α} {s s' : σ}
    {a : α} (h : Ends (tryCatch x f) s a s') :
    Ends x s a s' ∨ ∃ e t, Ends (f e) t a s' := by
  unfold Ends at h ⊢
  rw [run_tryCatch] at h
  rcases hx : x.run.run s with ⟨e | b, t⟩
  · rw [hx] at h
    exact Or.inr ⟨e, t, h⟩
  · rw [hx] at h
    exact Or.inl h

/-- A loop over a list succeeds when all its rounds do. -/
theorem ends_mapM {f : α → ExceptT ε (StateM σ) β} {xs : List α} {ys : List β} {s s' : σ}
    (h : Ends (xs.mapM f) s ys s') : ∀ y ∈ ys, ∃ x ∈ xs, ∃ t t', Ends (f x) t y t' := by
  induction xs generalizing ys s with
  | nil =>
    simp only [List.mapM_nil, ends_pure] at h
    simp [← h.1]
  | cons x xs ih =>
    simp only [List.mapM_cons, ends_bind, ends_pure] at h
    obtain ⟨y, t, hy, zs, t', hzs, rfl, rfl⟩ := h
    intro z hz
    rcases List.mem_cons.1 hz with rfl | hz
    · exact ⟨x, List.mem_cons_self, s, t, hy⟩
    · obtain ⟨w, hw, u, u', hu⟩ := ih hzs z hz
      exact ⟨w, List.mem_cons_of_mem _ hw, u, u', hu⟩

/-- The results of a loop stand in the order of what they are made from. -/
theorem forall₂_of_ends_mapM {f : α → ExceptT ε (StateM σ) β} {xs : List α} {ys : List β}
    {s s' : σ} (h : Ends (xs.mapM f) s ys s') :
    List.Forall₂ (fun x y => ∃ t t', Ends (f x) t y t') xs ys := by
  induction xs generalizing ys s with
  | nil =>
    simp only [List.mapM_nil, ends_pure] at h
    exact h.1 ▸ .nil
  | cons x xs ih =>
    simp only [List.mapM_cons, ends_bind, ends_pure] at h
    obtain ⟨y, t, hy, zs, t', hzs, rfl, rfl⟩ := h
    exact .cons ⟨s, t, hy⟩ (ih hzs)

/-! ## Invariants -/

/-- Started where `I` holds, the computation ends where `J` holds, whether it succeeds or fails, and
    what it succeeds with satisfies `Q`. -/
def Leads (I J : σ → Prop) (x : ExceptT ε (StateM σ) α) (Q : α → Prop) : Prop :=
  ∀ s, I s → J (x.run.run s).2 ∧ ∀ a, (x.run.run s).1 = .ok a → Q a

/-- The computation keeps the invariant `I`, and what it succeeds with satisfies `Q`. -/
abbrev Keeps (I : σ → Prop) (x : ExceptT ε (StateM σ) α) (Q : α → Prop) : Prop :=
  Leads I I x Q

section Leads

variable {I J : σ → Prop} {Q Q' : α → Prop} {R : β → Prop}

theorem Leads.mono {x : ExceptT ε (StateM σ) α} (h : Leads I J x Q) (hQ : ∀ a, Q a → Q' a) :
    Leads I J x Q' :=
  fun s hs => ⟨(h s hs).1, fun a ha => hQ a ((h s hs).2 a ha)⟩

/-- What is known of the results of all successful runs is known here, too. -/
theorem Leads.and_ends {x : ExceptT ε (StateM σ) α} (h : Leads I J x Q)
    (hQ : ∀ s a t, Ends x s a t → Q' a) : Leads I J x fun a => Q a ∧ Q' a :=
  fun s hs => ⟨(h s hs).1, fun a ha => ⟨(h s hs).2 a ha, hQ s a _ (Prod.ext ha rfl)⟩⟩

/-- What is known of every run is known of a run that succeeds. -/
theorem Leads.of_ends {x : ExceptT ε (StateM σ) α} (h : Leads I J x Q) {s t : σ} {a : α}
    (hx : Ends x s a t) (hs : I s) : J t ∧ Q a := by
  obtain ⟨ht, ha⟩ := h s hs
  have hrun : x.run.run s = (.ok a, t) := hx
  rw [hrun] at ht ha
  exact ⟨ht, ha a rfl⟩

theorem Leads.of_imp {I' : σ → Prop} {x : ExceptT ε (StateM σ) α} (h : Leads I J x Q)
    (hI : ∀ s, I' s → I s) : Leads I' J x Q :=
  fun s hs => h s (hI s hs)

theorem keeps_pure {a : α} (h : Q a) : Keeps I (pure a : ExceptT ε (StateM σ) α) Q := by
  refine fun s hs => ⟨hs, fun b hb => ?_⟩
  cases hb
  exact h

theorem keeps_throw (e : ε) : Keeps I (throw e : ExceptT ε (StateM σ) α) Q := by
  refine fun s hs => ⟨hs, fun b hb => ?_⟩
  cases hb

theorem leads_modify {f : σ → σ} (h : ∀ s, I s → J (f s)) :
    Leads I J (modify f : ExceptT ε (StateM σ) Unit) fun _ => True :=
  fun s hs => ⟨h s hs, fun _ _ => trivial⟩

/-- One step after the other.  The first may fail, so what it leads to has to imply what both of
    them lead to. -/
theorem Leads.bind {K : σ → Prop} {x : ExceptT ε (StateM σ) α}
    {f : α → ExceptT ε (StateM σ) β} (hx : Leads I K x Q) (hKJ : ∀ s, K s → J s)
    (hf : ∀ a, Q a → Leads K J (f a) R) : Leads I J (x >>= f) R := by
  intro s hs
  obtain ⟨ht, hQ⟩ := hx s hs
  rw [run_bind]
  rcases hrun : x.run.run s with ⟨e | a, t⟩
  · rw [hrun] at ht
    refine ⟨hKJ t ht, fun b hb => ?_⟩
    cases hb
  · rw [hrun] at ht hQ
    exact hf a (hQ a rfl) t ht

theorem keeps_bind {x : ExceptT ε (StateM σ) α} {f : α → ExceptT ε (StateM σ) β}
    (hx : Keeps I x Q) (hf : ∀ a, Q a → Keeps I (f a) R) : Keeps I (x >>= f) R :=
  Leads.bind hx (fun _ h => h) hf

/-- What follows a look at the state starts in the state that has been seen. -/
theorem leads_get_bind {f : σ → ExceptT ε (StateM σ) β}
    (h : ∀ s, I s → Leads (fun t => t = s) J (f s) R) : Leads I J (get >>= f) R :=
  fun s hs => h s hs s rfl

theorem keeps_map {x : ExceptT ε (StateM σ) α} {f : α → β} (hx : Keeps I x Q)
    (hf : ∀ a, Q a → R (f a)) : Keeps I (f <$> x) R := by
  rw [← bind_pure_comp]
  exact keeps_bind hx fun a ha => keeps_pure (hf a ha)

/-- A loop over a list keeps the invariant that its rounds keep. -/
theorem keeps_foldlM {f : β → α → ExceptT ε (StateM σ) β} {as : List α}
    (hf : ∀ a ∈ as, ∀ b, Keeps I (f b a) fun _ => True) (b : β) :
    Keeps I (as.foldlM f b) fun _ => True := by
  induction as generalizing b with
  | nil => exact keeps_pure trivial
  | cons a rest ih =>
    obtain ⟨ha, hrest⟩ := List.forall_mem_cons.1 hf
    rw [List.foldlM_cons]
    exact keeps_bind (ha b) fun b' _ => ih hrest b'

theorem keeps_tryCatch {x : ExceptT ε (StateM σ) α} {f : ε → ExceptT ε (StateM σ) α}
    (hx : Keeps I x Q) (hf : ∀ e, Keeps I (f e) Q) : Keeps I (tryCatch x f) Q := by
  intro s hs
  obtain ⟨ht, hQ⟩ := hx s hs
  rw [run_tryCatch]
  rcases hx' : x.run.run s with ⟨e | a, t⟩
  · rw [hx'] at ht
    exact hf e t ht
  · rw [hx'] at ht hQ
    exact ⟨ht, hQ⟩

end Leads

end IdlBridge

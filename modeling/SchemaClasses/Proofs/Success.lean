import Mathlib.Data.List.Forall2

/-!
# Success

When a computation that may fail gives a result: each of its steps does.
-/

namespace SchemaClasses.Success

variable {ε ε' α β : Type}

/-- Two steps succeed exactly if both do. -/
@[simp] theorem bind_eq_ok {x : Except ε α} {f : α → Except ε β} {b : β} :
    x >>= f = .ok b ↔ ∃ a, x = .ok a ∧ f a = .ok b := by
  cases x <;> simp [bind, Except.bind]

@[simp] theorem pure_eq_ok {a b : α} : (pure a : Except ε α) = .ok b ↔ a = b := by
  simp [pure, Except.pure]

@[simp] theorem mapError_eq_ok {x : Except ε α} {wrap : ε → ε'} {b : α} :
    x.mapError wrap = .ok b ↔ x = .ok b := by
  cases x with
  | ok a => simp only [Except.mapError, Except.ok.injEq]
  | error e => simp only [Except.mapError, reduceCtorEq]

@[simp] theorem map_eq_ok {x : Except ε α} {f : α → β} {b : β} :
    f <$> x = .ok b ↔ ∃ a, x = .ok a ∧ f a = b := by
  cases x <;> simp [Functor.map, Except.map]

/-- A step fails, or the next one does on its result. -/
theorem bind_eq_error {x : Except ε α} {f : α → Except ε β} {e : ε} :
    x >>= f = .error e ↔ x = .error e ∨ ∃ a, x = .ok a ∧ f a = .error e := by
  cases x <;> simp [bind, Except.bind]

theorem mapError_eq_error {x : Except ε α} {wrap : ε → ε'} {e : ε'} :
    x.mapError wrap = .error e ↔ ∃ e', x = .error e' ∧ wrap e' = e := by
  cases x <;> simp [Except.mapError]

/-- A traversal succeeds with the results of its elements, in order. -/
theorem mapM_eq_ok {f : α → Except ε β} {xs : List α} {ys : List β} :
    xs.mapM f = .ok ys ↔ List.Forall₂ (fun x y => f x = .ok y) xs ys := by
  induction xs generalizing ys with
  | nil => cases ys <;> simp
  | cons x xs ih =>
    rw [List.mapM_cons]
    constructor
    · intro h
      simp only [bind_eq_ok, pure_eq_ok] at h
      obtain ⟨y, hy, rest, hrest, rfl⟩ := h
      exact .cons hy (ih.mp hrest)
    · intro h
      cases h with
      | cons hy hrest => simp [hy, ih.mpr hrest]

/-- What follows for each element on the right holds of all of them. -/
theorem forall_of_forall₂ {R : α → β → Prop} {P : β → Prop} {xs : List α} {ys : List β}
    (h : List.Forall₂ R xs ys) (hstep : ∀ x ∈ xs, ∀ y, R x y → P y) : ∀ y ∈ ys, P y := by
  induction h with
  | nil => simp
  | cons hhead _ ih =>
    rw [List.forall_mem_cons] at hstep ⊢
    exact ⟨hstep.1 _ hhead, ih hstep.2⟩

/-- What every step gives holds of all results. -/
theorem forall_of_mapM {f : α → Except ε β} {P : β → Prop} {xs : List α} {ys : List β}
    (h : xs.mapM f = .ok ys) (hstep : ∀ x ∈ xs, ∀ y, f x = .ok y → P y) : ∀ y ∈ ys, P y :=
  forall_of_forall₂ (mapM_eq_ok.mp h) hstep

/-- What corresponds to an element on the left is on the right. -/
theorem exists_of_mem_left {R : α → β → Prop} {xs : List α} {ys : List β}
    (h : List.Forall₂ R xs ys) : ∀ x ∈ xs, ∃ y ∈ ys, R x y := by
  induction h with
  | nil => simp
  | cons hhead _ ih =>
    refine List.forall_mem_cons.mpr ⟨⟨_, List.mem_cons_self, hhead⟩, fun x hx => ?_⟩
    obtain ⟨y, hy, hxy⟩ := ih x hx
    exact ⟨y, List.mem_cons_of_mem _ hy, hxy⟩

theorem forall₂_imp_mem {R S : α → β → Prop} {xs : List α} {ys : List β}
    (h : List.Forall₂ R xs ys) (hstep : ∀ x ∈ xs, ∀ y ∈ ys, R x y → S x y) :
    List.Forall₂ S xs ys := by
  induction h with
  | nil => exact .nil
  | cons hhead _ ih =>
    refine .cons (hstep _ List.mem_cons_self _ List.mem_cons_self hhead) (ih fun x hx y hy => ?_)
    exact hstep x (List.mem_cons_of_mem _ hx) y (List.mem_cons_of_mem _ hy)

/-- Elements that correspond by way of a list between them. -/
theorem forall₂_trans {γ : Type} {R : α → β → Prop} {S : β → γ → Prop} {T : α → γ → Prop}
    {xs : List α} {ys : List β} {zs : List γ} (hfirst : List.Forall₂ R xs ys)
    (hsecond : List.Forall₂ S ys zs) (h : ∀ x ∈ xs, ∀ y z, R x y → S y z → T x z) :
    List.Forall₂ T xs zs := by
  induction hfirst generalizing zs with
  | nil =>
    cases hsecond
    exact .nil
  | cons hhead _ ih =>
    rw [List.forall_mem_cons] at h
    cases hsecond with
    | cons hnext hrest => exact .cons (h.1 _ _ hhead hnext) (ih hrest h.2)

/-- Two traversals one after the other relate each element to what comes of it in the end. -/
theorem forall₂_of_mapM_mapM {γ : Type} {f : α → Except ε β} {g : β → Except ε' γ}
    {R : α → γ → Prop} {xs : List α} {ys : List β} {zs : List γ} (hf : xs.mapM f = .ok ys)
    (hg : ys.mapM g = .ok zs) (h : ∀ x ∈ xs, ∀ y z, f x = .ok y → g y = .ok z → R x z) :
    List.Forall₂ R xs zs :=
  forall₂_trans (mapM_eq_ok.mp hf) (mapM_eq_ok.mp hg) h

/-- Lists whose elements correspond have corresponding ones among them. -/
theorem exists_iff_of_forall₂ {R : α → β → Prop} {P : α → Prop} {Q : β → Prop} {xs : List α}
    {ys : List β} (h : List.Forall₂ R xs ys) (hstep : ∀ x ∈ xs, ∀ y, R x y → (P x ↔ Q y)) :
    (∃ x ∈ xs, P x) ↔ ∃ y ∈ ys, Q y := by
  induction h with
  | nil => simp
  | cons hhead _ ih =>
    rw [List.forall_mem_cons] at hstep
    rw [List.exists_mem_cons_iff, List.exists_mem_cons_iff, hstep.1 _ hhead, ih hstep.2]

/-- An optional step that gives a result was there, and succeeded with it. -/
theorem option_mapM_eq_ok {f : α → Except ε β} {x : Option α} {b : β} :
    x.mapM f = .ok (some b) ↔ ∃ a, x = some a ∧ f a = .ok b := by
  cases x with
  | none => simp
  | some a => simp

end SchemaClasses.Success

import DesignTokens.Noted
import Mathlib.Data.List.Forall2

/-! Outcomes of steps that may fail. A row of steps fails exactly at its first failing step, and the
outcome of noted steps is that of the same steps without their warnings. -/
namespace DesignTokens

section Related

variable {α β : Type} {R : α → β → Prop} {xs : List α} {ys : List β}

theorem exists_left_of_forall₂ (h : List.Forall₂ R xs ys) {y : β} (hy : y ∈ ys) :
    ∃ x ∈ xs, R x y := by
  induction h with
  | nil => cases hy
  | @cons x y' _ _ hxy _ ih =>
    rcases List.mem_cons.mp hy with rfl | hy
    · exact ⟨x, List.mem_cons_self, hxy⟩
    · obtain ⟨x, hx, h⟩ := ih hy
      exact ⟨x, List.mem_cons_of_mem _ hx, h⟩

theorem exists_forall₂ : (∃ ys, List.Forall₂ R xs ys) ↔ ∀ x ∈ xs, ∃ y, R x y := by
  induction xs with
  | nil => simp
  | cons x rest ih =>
    rw [List.forall_mem_cons, ← ih]
    simp only [List.forall₂_cons_left_iff]
    grind

theorem map_eq_map_of_forall₂ {γ : Type} {f : α → γ} {g : β → γ}
    (h : List.Forall₂ (fun x y => f x = g y) xs ys) : xs.map f = ys.map g := by
  rwa [← List.forall₂_eq_eq_eq, List.forall₂_map_left_iff, List.forall₂_map_right_iff]

end Related

section Except

variable {ε α β : Type}

@[simp] theorem ok_bind (a : α) (f : α → Except ε β) : (Except.ok a >>= f) = f a := rfl

@[simp] theorem error_bind (e : ε) (f : α → Except ε β) :
    (Except.error e >>= f) = .error e := rfl

theorem bind_eq_ok {x : Except ε α} {f : α → Except ε β} {b : β} :
    x >>= f = .ok b ↔ ∃ a, x = .ok a ∧ f a = .ok b := by
  cases x <;> simp

theorem bind_eq_error {x : Except ε α} {f : α → Except ε β} {e : ε} :
    x >>= f = .error e ↔ x = .error e ∨ ∃ a, x = .ok a ∧ f a = .error e := by
  cases x <;> simp

theorem map_eq_ok {x : Except ε α} {f : α → β} {b : β} :
    x.map f = .ok b ↔ ∃ a, x = .ok a ∧ f a = b := by
  cases x <;> simp [Except.map]

theorem map_eq_error {x : Except ε α} {f : α → β} {e : ε} : x.map f = .error e ↔ x = .error e := by
  cases x <;> simp [Except.map]

theorem pure_eq_ok {a b : α} : (pure a : Except ε α) = .ok b ↔ a = b := by
  simp [pure, Except.pure]

theorem functor_map_eq_ok {x : Except ε α} {f : α → β} {b : β} :
    f <$> x = .ok b ↔ ∃ a, x = .ok a ∧ f a = b := map_eq_ok

/-- What stands behind a guard is reached only if the guard does not hold. -/
theorem guard_eq_ok {c : Prop} [Decidable c] {e : ε} {f : α → Except ε β} {x : Except ε β} {b : β} :
    (if c then throw e >>= f else x) = .ok b ↔ ¬ c ∧ x = .ok b := by
  split <;> simp [*, throw, throwThe, MonadExceptOf.throw]

/-- A fold fails where a step fails after the steps before it have succeeded. -/
theorem foldlM_eq_error {f : β → α → Except ε β} {xs : List α} {b : β} {e : ε} :
    xs.foldlM f b = .error e ↔
      ∃ before x after acc, xs = before ++ x :: after ∧ before.foldlM f b = .ok acc ∧
        f acc x = .error e := by
  induction xs generalizing b with
  | nil => simp [pure, Except.pure]
  | cons x rest ih =>
    rw [List.foldlM_cons, bind_eq_error]
    constructor
    · intro h
      rcases h with h | ⟨acc, hx, h⟩
      · exact ⟨[], x, rest, b, rfl, rfl, h⟩
      · obtain ⟨before, y, after, acc', rfl, hbefore, hy⟩ := ih.mp h
        refine ⟨x :: before, y, after, acc', rfl, ?_, hy⟩
        rw [List.foldlM_cons, hx]
        exact hbefore
    · intro h
      obtain ⟨before, y, after, acc, hxs, hbefore, hy⟩ := h
      cases before with
      | nil =>
        obtain ⟨rfl, rfl⟩ := List.cons.inj hxs
        cases hbefore
        exact Or.inl hy
      | cons z before =>
        obtain ⟨rfl, rfl⟩ := List.cons.inj hxs
        obtain ⟨acc', hx, hbefore⟩ := bind_eq_ok.mp hbefore
        exact Or.inr ⟨acc', hx, ih.mpr ⟨before, y, after, acc, rfl, hbefore, hy⟩⟩

/-- What each step of a fold keeps holds at its end. -/
theorem foldlM_preserves {P : β → Prop} {f : β → α → Except ε β} {xs : List α}
    {b b' : β} (h : xs.foldlM f b = .ok b') (hb : P b)
    (hf : ∀ acc x acc', P acc → f acc x = .ok acc' → P acc') : P b' := by
  induction xs generalizing b with
  | nil =>
    obtain rfl : b = b' := by simpa [pure, Except.pure] using h
    exact hb
  | cons x rest ih =>
    obtain ⟨acc, hx, hrest⟩ := bind_eq_ok.mp h
    exact ih hrest (hf b x acc hb hx)

theorem mapM_eq_ok {f : α → Except ε β} {xs : List α} {ys : List β} :
    xs.mapM f = .ok ys ↔ List.Forall₂ (fun x y => f x = .ok y) xs ys := by
  induction xs generalizing ys with
  | nil => cases ys <;> simp [pure, Except.pure]
  | cons x rest ih =>
    simp only [List.mapM_cons, bind_eq_ok, ih]
    constructor
    · intro h
      obtain ⟨y, hy, tail, htail, h⟩ := h
      cases h
      exact .cons hy htail
    · intro h
      rcases h with _ | ⟨hy, htail⟩
      exact ⟨_, hy, _, htail, rfl⟩

/-- The results of a row of steps are those of its steps. -/
theorem mem_of_mapM_eq_ok {f : α → Except ε β} {xs : List α} {ys : List β}
    (h : xs.mapM f = .ok ys) (y : β) : y ∈ ys ↔ ∃ x ∈ xs, f x = .ok y := by
  induction mapM_eq_ok.mp h with
  | nil => simp
  | cons hx htail ih =>
    have := ih (mapM_eq_ok.mpr htail)
    simp [this, hx, eq_comm]

theorem mapM_eq_error {f : α → Except ε β} {xs : List α} {e : ε}
    (h : xs.mapM f = .error e) : ∃ x ∈ xs, f x = .error e := by
  induction xs with
  | nil => cases h
  | cons x rest ih =>
    simp only [List.mapM_cons, bind_eq_error] at h
    obtain h | ⟨y, -, h | ⟨ys, -, h⟩⟩ := h
    · exact ⟨x, List.mem_cons_self, h⟩
    · obtain ⟨z, hz, h⟩ := ih h
      exact ⟨z, List.mem_cons_of_mem _ hz, h⟩
    · cases h

theorem exists_mapM_eq_ok {f : α → Except ε β} {xs : List α} :
    (∃ ys, xs.mapM f = .ok ys) ↔ ∀ x ∈ xs, ∃ y, f x = .ok y := by
  simp only [mapM_eq_ok, exists_forall₂]

theorem exists_mem_of_mapM_eq_ok {f : α → Except ε β} {xs : List α} {ys : List β}
    (h : xs.mapM f = .ok ys) {x : α} (hx : x ∈ xs) : ∃ y ∈ ys, f x = .ok y := by
  obtain ⟨y, hy⟩ := exists_mapM_eq_ok.mp ⟨ys, h⟩ x hx
  exact ⟨y, (mem_of_mapM_eq_ok h y).mpr ⟨x, hx, hy⟩, hy⟩

/-- A fold that collects the results of its steps runs them in a row. -/
theorem foldlM_append_eq (f : α → Except ε (List β)) (xs : List α) (found : List β) :
    xs.foldlM (fun found x => (f x).map (found ++ ·)) found =
      (xs.mapM f).map (found ++ ·.flatten) := by
  induction xs generalizing found with
  | nil => simp [pure, Except.pure, Except.map]
  | cons x rest ih =>
    rw [List.foldlM_cons, List.mapM_cons]
    cases f x with
    | error e => rfl
    | ok ys =>
      simp only [Except.map, ok_bind] at ih ⊢
      rw [ih]
      cases rest.mapM f <;> simp [pure, Except.pure]

theorem mapM_congr {f g : α → Except ε β} {xs : List α}
    (h : ∀ x ∈ xs, f x = g x) : xs.mapM f = xs.mapM g := by
  induction xs with
  | nil => rfl
  | cons x rest ih =>
    rw [List.mapM_cons, List.mapM_cons, h x List.mem_cons_self,
      ih fun y hy => h y (List.mem_cons_of_mem x hy)]

variable {P Q : ε → Prop}

/-- A computation that, if it fails, fails in a certain way. -/
def FailsWith (P : ε → Prop) (x : Except ε α) : Prop := ∀ e, x = .error e → P e

@[simp] theorem failsWith_ok (a : α) : FailsWith P (Except.ok a) := nofun

@[simp] theorem failsWith_pure (a : α) : FailsWith P (pure a : Except ε α) := nofun

@[simp] theorem failsWith_error {e : ε} : FailsWith P (Except.error e : Except ε α) ↔ P e :=
  ⟨fun h => h e rfl, fun h _ he => Except.error.inj he ▸ h⟩

@[simp] theorem failsWith_throw {e : ε} : FailsWith P (throw e : Except ε α) ↔ P e :=
  failsWith_error

namespace FailsWith

variable {x : Except ε α} {f : α → Except ε β}

theorem mono (h : FailsWith P x) (hPQ : ∀ e, P e → Q e) : FailsWith Q x :=
  fun e he => hPQ e (h e he)

theorem bind (hx : FailsWith P x) (hf : ∀ a, x = .ok a → FailsWith P (f a)) :
    FailsWith P (x >>= f) := by
  intro e he
  rcases bind_eq_error.mp he with he | ⟨a, ha, he⟩
  · exact hx e he
  · exact hf a ha e he

theorem map {g : α → β} (hx : FailsWith P x) : FailsWith P (x.map g) :=
  fun e he => hx e (map_eq_error.mp he)

theorem mapM {xs : List α} (h : ∀ a ∈ xs, FailsWith P (f a)) : FailsWith P (xs.mapM f) := by
  intro e he
  obtain ⟨a, ha, he⟩ := mapM_eq_error he
  exact h a ha e he

end FailsWith

end Except

namespace Noted

variable {α β : Type}

@[simp] theorem outcome_pure (a : α) : (pure a : Noted α).outcome = .ok a := rfl

@[simp] theorem outcome_bind (x : Noted α) (f : α → Noted β) :
    (x >>= f).outcome = x.outcome >>= fun a => (f a).outcome := by
  obtain ⟨warnings, outcome⟩ := x
  cases outcome <;> rfl

@[simp] theorem outcome_fail (failure : Failure) :
    (fail failure : Noted α).outcome = .error failure := rfl

@[simp] theorem outcome_warnAll (ws : List Warning) : (warnAll ws).outcome = .ok () := rfl

@[simp] theorem outcome_ofExcept (x : Except Failure α) : (ofExcept x).outcome = x := rfl

theorem outcome_foldlM (f : β → α → Noted β) (xs : List α) (b : β) :
    (xs.foldlM f b).outcome = xs.foldlM (fun b x => (f b x).outcome) b := by
  induction xs generalizing b with
  | nil => rfl
  | cons x rest ih =>
    rw [List.foldlM_cons, List.foldlM_cons, outcome_bind]
    simp only [ih]

theorem outcome_mapM (f : α → Noted β) (xs : List α) :
    (xs.mapM f).outcome = xs.mapM fun x => (f x).outcome := by
  have hloop : ∀ done : List β, (List.mapM.loop f xs done).outcome =
      List.mapM.loop (fun x => (f x).outcome) xs done := by
    induction xs with
    | nil => exact fun done => rfl
    | cons x rest ih =>
      intro done
      simp only [List.mapM.loop, outcome_bind, ih]
  exact hloop []

theorem bind_congr {x : Noted α} {f g : α → Noted β}
    (h : ∀ a, x.outcome = .ok a → f a = g a) : x >>= f = x >>= g := by
  obtain ⟨warnings, outcome⟩ := x
  cases outcome with
  | error failure => rfl
  | ok a =>
    have ha := h a rfl
    simp only [bind, ha]

theorem foldlM_congr {f g : β → α → Noted β} {xs : List α}
    (h : ∀ x ∈ xs, ∀ b, f b x = g b x) (b : β) : xs.foldlM f b = xs.foldlM g b := by
  induction xs generalizing b with
  | nil => rfl
  | cons x rest ih =>
    rw [List.foldlM_cons, List.foldlM_cons, h x List.mem_cons_self b]
    exact bind_congr fun acc _ => ih (fun y hy => h y (List.mem_cons_of_mem _ hy)) acc

theorem outcome_attempt (x : Noted α) :
    x.attempt.outcome = match x.outcome with
      | .ok a => .ok (.ok a)
      | .error (.token e) => .ok (.error e)
      | .error (.fault f) => .error (.fault f) := by
  unfold attempt
  split <;> simp [*]

end Noted

end DesignTokens

import Mathlib.Data.List.Forall2
import Juggling.Error

namespace Juggling

variable {ε δ β γ : Type}

@[simp] theorem bind_eq_ok {x : Except ε β} {f : β → Except ε γ} {r : γ} :
    (x >>= f) = .ok r ↔ ∃ a, x = .ok a ∧ f a = .ok r := by
  cases x with
  | error e => simp [bind, Except.bind]
  | ok a => simp [bind, Except.bind]

@[simp] theorem pure_eq_ok {a r : β} : (pure a : Except ε β) = .ok r ↔ a = r := by
  simp [pure, Except.pure]

@[simp] theorem throw_ne_ok {e : ε} {r : β} : (throw e : Except ε β) ≠ .ok r := by
  simp [throw, throwThe, MonadExceptOf.throw]

/-- A check that fails is an error whatever follows. -/
theorem ite_throw_eq_ok {p : Prop} [Decidable p] {e : ε} {f : β → Except ε γ} {x : Except ε γ}
    {r : γ} : (if p then throw e >>= f else x) = .ok r ↔ ¬p ∧ x = .ok r := by
  split_ifs with h <;> simp [h]

@[simp] theorem map_eq_ok {x : Except ε β} {f : β → γ} {r : γ} :
    x.map f = .ok r ↔ ∃ a, x = .ok a ∧ f a = r := by
  cases x <;> simp [Except.map]

@[simp] theorem lift_eq_ok {f : ε → δ} {x : Except ε β} {r : β} :
    lift f x = .ok r ↔ x = .ok r := by
  cases x <;> simp [lift]

theorem exists_of_forall₂ {R : β → γ → Prop} {xs : List β} {ys : List γ}
    (h : List.Forall₂ R xs ys) {y : γ} (hy : y ∈ ys) : ∃ x ∈ xs, R x y := by
  induction h with
  | nil => cases hy
  | @cons x' y' xs ys hxy _ ih =>
    rcases List.mem_cons.mp hy with rfl | hy
    · exact ⟨x', List.mem_cons_self, hxy⟩
    · obtain ⟨x, hx, hR⟩ := ih hy
      exact ⟨x, List.mem_cons_of_mem _ hx, hR⟩

theorem toOption_eq_some {x : Except ε β} {r : β} : x.toOption = some r ↔ x = .ok r := by
  cases x <;> simp [Except.toOption]

/-- A run through a list succeeds when every step does. -/
theorem mapM_eq_ok {f : β → Except ε γ} {xs : List β} {ys : List γ} :
    xs.mapM f = .ok ys ↔ List.Forall₂ (fun x y ↦ f x = .ok y) xs ys := by
  induction xs generalizing ys with
  | nil => simp [pure, Except.pure, eq_comm]
  | cons x xs ih =>
    rw [List.mapM_cons]
    simp only [bind_eq_ok, pure_eq_ok, ih, List.forall₂_cons_left_iff]
    constructor
    · rintro ⟨y, hy, zs, hzs, rfl⟩
      exact ⟨y, zs, hy, hzs, rfl⟩
    · rintro ⟨y, zs, hy, hzs, rfl⟩
      exact ⟨y, hy, zs, hzs, rfl⟩

theorem forM_eq_ok {f : β → Except ε Unit} {xs : List β} :
    xs.forM f = .ok () ↔ ∀ x ∈ xs, f x = .ok () := by
  rw [List.forM_eq_forM]
  induction xs with
  | nil => simp [pure, Except.pure]
  | cons x xs ih =>
    rw [List.forM_cons, bind_eq_ok, List.forall_mem_cons, ← ih]
    exact ⟨fun ⟨_, hx, hxs⟩ ↦ ⟨hx, hxs⟩, fun ⟨hx, hxs⟩ ↦ ⟨(), hx, hxs⟩⟩

theorem exists_mapM_ok {f : β → Except ε γ} {P : β → γ → Prop} {xs : List β}
    (h : ∀ x ∈ xs, ∃ y, f x = .ok y ∧ P x y) :
    ∃ ys, xs.mapM f = .ok ys ∧ List.Forall₂ P xs ys := by
  induction xs with
  | nil => exact ⟨[], rfl, .nil⟩
  | cons x xs ih =>
    obtain ⟨y, hy, hP⟩ := h x List.mem_cons_self
    obtain ⟨ys, hys, hPs⟩ := ih fun z hz ↦ h z (List.mem_cons_of_mem _ hz)
    exact ⟨y :: ys, mapM_eq_ok.mpr (.cons hy (mapM_eq_ok.mp hys)), .cons hP hPs⟩

theorem exists_mapM_ok_iff {f : β → Except ε γ} {xs : List β} :
    (∃ ys, xs.mapM f = .ok ys) ↔ ∀ x ∈ xs, ∃ y, f x = .ok y := by
  constructor
  · rintro ⟨ys, hys⟩ x hx
    obtain ⟨y, -, hy⟩ := exists_of_forall₂ (mapM_eq_ok.mp hys).flip hx
    exact ⟨y, hy⟩
  · intro h
    obtain ⟨ys, hys, -⟩ := exists_mapM_ok (P := fun _ _ ↦ True) fun x hx ↦
      (h x hx).imp fun _ hy ↦ ⟨hy, trivial⟩
    exact ⟨ys, hys⟩

/-- What every step keeps, a run through a list keeps. -/
theorem foldlM_induction {Q : β → Prop} {f : β → γ → Except ε β} {cs : List γ}
    (hstep : ∀ b, ∀ c ∈ cs, ∀ b', Q b → f b c = .ok b' → Q b') {b b' : β} (hb : Q b)
    (hok : cs.foldlM f b = .ok b') : Q b' := by
  induction cs generalizing b with
  | nil =>
    obtain rfl := pure_eq_ok.mp hok
    exact hb
  | cons c cs ih =>
    rw [List.foldlM_cons] at hok
    obtain ⟨mid, hmid, hok⟩ := bind_eq_ok.mp hok
    exact ih (fun b d hd ↦ hstep b d (List.mem_cons_of_mem _ hd))
      (hstep b c List.mem_cons_self mid hb hmid) hok

end Juggling

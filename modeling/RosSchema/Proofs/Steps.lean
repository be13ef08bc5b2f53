import Mathlib

/-!
# Steps that can fail

A computation in `Except` succeeds exactly when each of its steps does. The statements here open a
successful bind, a successful pass over a list and a successful fold, so that no later proof has to
unfold the monad.
-/

namespace RosSchema.Steps

variable {ε α β : Type}

theorem pure_eq_ok {a b : α} : (pure a : Except ε α) = .ok b ↔ b = a :=
  ⟨fun h => (Except.ok.inj h).symm, fun h => congrArg Except.ok h.symm⟩

theorem bind_eq_ok {x : Except ε α} {f : α → Except ε β} {b : β} :
    (x >>= f) = .ok b ↔ ∃ a, x = .ok a ∧ f a = .ok b := by
  cases x with
  | error e => simp [bind, Except.bind]
  | ok a => simp [bind, Except.bind]

theorem bind_eq_error {x : Except ε α} {f : α → Except ε β} {e : ε} :
    (x >>= f) = .error e ↔ x = .error e ∨ ∃ a, x = .ok a ∧ f a = .error e := by
  cases x with
  | error e => simp [bind, Except.bind]
  | ok a => simp [bind, Except.bind]

/-- A check that throws succeeds when its condition does not hold. -/
theorem ite_throw_bind_eq_ok {P : Prop} [Decidable P] {e : ε} {f : α → Except ε β} {k : Except ε β}
    {b : β} : (if P then throw e >>= f else k) = .ok b ↔ ¬ P ∧ k = .ok b := by
  by_cases h : P
  · simp [h, throw, throwThe, MonadExceptOf.throw, bind, Except.bind]
  · simp [h]

theorem map_eq_ok {x : Except ε α} {f : α → β} {b : β} :
    x.map f = .ok b ↔ ∃ a, x = .ok a ∧ f a = b := by
  cases x <;> simp [Except.map]

theorem mapError_eq_ok {δ : Type} {x : Except ε α} {f : ε → δ} {a : α} :
    x.mapError f = .ok a ↔ x = .ok a := by
  cases x <;> simp [Except.mapError]

/-- Each result of a pass comes from an element. -/
theorem exists_of_mem_right {R : α → β → Prop} {xs : List α} {ys : List β}
    (h : List.Forall₂ R xs ys) {y : β} (hy : y ∈ ys) : ∃ x ∈ xs, R x y := by
  induction h with
  | nil => simp at hy
  | cons hxy _ ih =>
    rcases List.mem_cons.1 hy with rfl | hy
    · exact ⟨_, List.mem_cons_self, hxy⟩
    · obtain ⟨x, hx, hxy⟩ := ih hy
      exact ⟨x, List.mem_cons_of_mem _ hx, hxy⟩

/-- Each element of a pass has a result. -/
theorem exists_of_mem_left {R : α → β → Prop} {xs : List α} {ys : List β}
    (h : List.Forall₂ R xs ys) {x : α} (hx : x ∈ xs) : ∃ y ∈ ys, R x y :=
  exists_of_mem_right h.flip hx

/-- Two passes have the same results when their elements have, in order. -/
theorem map_eq_map_iff {γ : Type} {f : α → γ} {g : β → γ} {xs : List α} {ys : List β} :
    xs.map f = ys.map g ↔ List.Forall₂ (fun x y => f x = g y) xs ys := by
  rw [← List.forall₂_eq_eq_eq, List.forall₂_map_left_iff, List.forall₂_map_right_iff]

/-- Two passes, one after the other. -/
theorem forall₂_comp {γ : Type} {R : α → β → Prop} {S : β → γ → Prop} {xs : List α} {ys : List β}
    {zs : List γ} (h₁ : List.Forall₂ R xs ys) (h₂ : List.Forall₂ S ys zs) :
    List.Forall₂ (fun x z => ∃ y, R x y ∧ S y z) xs zs := by
  induction h₁ generalizing zs with
  | nil =>
    cases h₂
    exact .nil
  | cons hxy _ ih =>
    obtain ⟨z, zs, hyz, hzs, rfl⟩ := List.forall₂_cons_left_iff.1 h₂
    exact .cons ⟨_, hxy, hyz⟩ (ih hzs)

theorem forall₂_trans {R : α → α → Prop} (hR : ∀ a b c, R a b → R b c → R a c) {xs ys zs : List α}
    (h₁ : List.Forall₂ R xs ys) (h₂ : List.Forall₂ R ys zs) : List.Forall₂ R xs zs :=
  (forall₂_comp h₁ h₂).imp fun _ _ ⟨_, hxy, hyz⟩ => hR _ _ _ hxy hyz

theorem exists_forall₂ {R : α → β → Prop} {xs : List α} (h : ∀ x ∈ xs, ∃ y, R x y) :
    ∃ ys, List.Forall₂ R xs ys := by
  induction xs with
  | nil => exact ⟨[], .nil⟩
  | cons x xs ih =>
    obtain ⟨y, hy⟩ := h x List.mem_cons_self
    obtain ⟨ys, hys⟩ := ih fun z hz => h z (List.mem_cons_of_mem _ hz)
    exact ⟨y :: ys, .cons hy hys⟩

/-- A pass over a list succeeds with the results of its elements, in order. -/
theorem mapM_eq_ok_iff {f : α → Except ε β} {xs : List α} {ys : List β} :
    xs.mapM f = .ok ys ↔ List.Forall₂ (fun x y => f x = .ok y) xs ys := by
  induction xs generalizing ys with
  | nil => simp [pure, Except.pure, eq_comm]
  | cons x xs ih =>
    rw [List.mapM_cons, bind_eq_ok, List.forall₂_cons_left_iff]
    constructor
    · rintro ⟨y, hy, h⟩
      obtain ⟨zs, hzs, h⟩ := bind_eq_ok.1 h
      exact ⟨y, zs, hy, ih.1 hzs, (Except.ok.inj h).symm⟩
    · rintro ⟨y, zs, hy, hzs, rfl⟩
      exact ⟨y, hy, bind_eq_ok.2 ⟨zs, ih.2 hzs, rfl⟩⟩

/-- Related elements with related results are passed over to related results. -/
theorem exists_mapM_of_forall₂ {γ δ : Type} {f : α → Except ε β} {g : γ → Except ε δ}
    {S : α → γ → Prop} {R : β → δ → Prop}
    (hstep : ∀ x z y, S x z → f x = .ok y → ∃ w, g z = .ok w ∧ R y w) {xs : List α} {zs : List γ}
    (h : List.Forall₂ S xs zs) {ys : List β} (hys : xs.mapM f = .ok ys) :
    ∃ ws, zs.mapM g = .ok ws ∧ List.Forall₂ R ys ws := by
  simp only [mapM_eq_ok_iff] at hys ⊢
  induction h generalizing ys with
  | nil => exact ⟨[], .nil, by cases hys; exact .nil⟩
  | cons hxz _ ih =>
    obtain ⟨y, rest, hy, hrest, rfl⟩ := List.forall₂_cons_left_iff.1 hys
    obtain ⟨w, hw, hR⟩ := hstep _ _ _ hxz hy
    obtain ⟨ws, hws, hRs⟩ := ih hrest
    exact ⟨w :: ws, .cons hw hws, .cons hR hRs⟩

/-- Both computations succeed with related results, or both fail. -/
def Related (R : α → β → Prop) : Except ε α → Except ε β → Prop
  | .ok a, .ok b => R a b
  | .error _, .error _ => True
  | _, _ => False

theorem related_of_ok {R : α → β → Prop} {x : Except ε α} {y : Except ε β}
    (h₁ : ∀ a, x = .ok a → ∃ b, y = .ok b ∧ R a b) (h₂ : ∀ b, y = .ok b → ∃ a, x = .ok a) :
    Related R x y := by
  cases x with
  | ok a =>
    obtain ⟨b, rfl, hR⟩ := h₁ a rfl
    exact hR
  | error e =>
    cases y with
    | ok b =>
      obtain ⟨a, ha⟩ := h₂ b rfl
      cases ha
    | error e' => trivial

/-- A pass over a list fails exactly when an element does, after elements that do not. -/
theorem mapM_eq_error_iff {f : α → Except ε β} {xs : List α} {e : ε} :
    xs.mapM f = .error e ↔ ∃ before x after, xs = before ++ x :: after ∧
      (∀ b ∈ before, ∃ y, f b = .ok y) ∧ f x = .error e := by
  induction xs with
  | nil => simp [pure, Except.pure]
  | cons x xs ih =>
    rw [List.mapM_cons, bind_eq_error]
    constructor
    · rintro (h | ⟨y, hy, h⟩)
      · exact ⟨[], x, xs, rfl, by simp, h⟩
      · rcases bind_eq_error.1 h with h | ⟨zs, -, h⟩
        · obtain ⟨before, z, after, rfl, hb, hz⟩ := ih.1 h
          refine ⟨x :: before, z, after, rfl, ?_, hz⟩
          intro b hmem
          rcases List.mem_cons.1 hmem with rfl | hmem
          · exact ⟨y, hy⟩
          · exact hb b hmem
        · cases h
    · rintro ⟨before, z, after, h, hb, hz⟩
      cases before with
      | nil =>
        obtain ⟨rfl, rfl⟩ := List.cons.inj h
        exact .inl hz
      | cons b before =>
        obtain ⟨rfl, rfl⟩ := List.cons.inj h
        obtain ⟨y, hy⟩ := hb x List.mem_cons_self
        have hrest : (before ++ z :: after).mapM f = .error e :=
          ih.2 ⟨before, z, after, rfl, fun b hmem => hb b (List.mem_cons_of_mem _ hmem), hz⟩
        exact .inr ⟨y, hy, bind_eq_error.2 (.inl hrest)⟩

/-- A pass whose steps are passes themselves fails as one pass over all their elements does. -/
theorem mapM_flatMap_eq_error {γ δ : Type} {f : α → Except ε β} {g : γ → Except ε δ} {parts : α → List γ}
    (h : ∀ x e, f x = .error e ↔ (parts x).mapM g = .error e) {xs : List α} {e : ε} :
    xs.mapM f = .error e ↔ (xs.flatMap parts).mapM g = .error e := by
  induction xs with
  | nil => simp [pure, Except.pure]
  | cons x xs ih =>
    have hok : (∃ y, f x = .ok y) ↔ ∃ ys, (parts x).mapM g = .ok ys := by
      have hx := h x
      cases hf : f x <;> cases hg : (parts x).mapM g <;> simp_all
    rw [List.mapM_cons, List.flatMap_cons, List.mapM_append, bind_eq_error, bind_eq_error, h]
    refine or_congr_right ?_
    constructor
    · rintro ⟨y, hy, hrest⟩
      rcases bind_eq_error.1 hrest with hrest | ⟨_, _, hpure⟩
      · obtain ⟨ys, hys⟩ := hok.1 ⟨y, hy⟩
        exact ⟨ys, hys, bind_eq_error.2 (.inl (ih.1 hrest))⟩
      · cases hpure
    · rintro ⟨ys, hys, hrest⟩
      rcases bind_eq_error.1 hrest with hrest | ⟨_, _, hpure⟩
      · obtain ⟨y, hy⟩ := hok.2 ⟨ys, hys⟩
        exact ⟨y, hy, bind_eq_error.2 (.inl (ih.2 hrest))⟩
      · cases hpure

/-- A fold succeeds when its first step does and the fold goes on from there. -/
theorem foldlM_cons_eq_ok {f : β → α → Except ε β} {x : α} {xs : List α} {b c : β} :
    (x :: xs).foldlM f b = .ok c ↔ ∃ a, f b x = .ok a ∧ xs.foldlM f a = .ok c := by
  rw [List.foldlM_cons, bind_eq_ok]

end RosSchema.Steps

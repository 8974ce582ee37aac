import Mathlib

/-! Going over a list element by element. A computation over a list that does not fail relates each
element to its result, and a fold that does not fail is described by what each of its steps
keeps. -/

namespace FlowGraph

/-! ## Lists related element by element -/

theorem forall₂_imp_mem {α β : Type} {R S : α → β → Prop} {xs : List α} {ys : List β}
    (h : List.Forall₂ R xs ys) (hS : ∀ x ∈ xs, ∀ y, R x y → S x y) : List.Forall₂ S xs ys :=
  (List.forall₂_and_left xs ys |>.mpr ⟨fun _ hx => hx, h⟩).imp fun x y hxy => hS x hxy.1 y hxy.2

theorem forall₂_getElem? {α β : Type} {R : α → β → Prop} {xs : List α} {ys : List β}
    (h : List.Forall₂ R xs ys) (j : Nat) : Option.Rel R xs[j]? ys[j]? := by
  induction h generalizing j with
  | nil => exact .none
  | cons hxy _ ih =>
    cases j with
    | zero => exact .some hxy
    | succ j => exact ih j

theorem forall₂_mem_right {α β : Type} {R : α → β → Prop} {xs : List α} {ys : List β} {y : β}
    (h : List.Forall₂ R xs ys) (hy : y ∈ ys) : ∃ x ∈ xs, R x y := by
  induction h with
  | nil => cases hy
  | cons hxy _ ih =>
    rcases List.mem_cons.mp hy with rfl | hy
    · exact ⟨_, List.mem_cons_self, hxy⟩
    · obtain ⟨x, hx, hr⟩ := ih hy
      exact ⟨x, List.mem_cons_of_mem _ hx, hr⟩

theorem forall₂_trans {α β γ : Type} {R : α → β → Prop} {S : β → γ → Prop} {xs : List α}
    {ys : List β} {zs : List γ} (h : List.Forall₂ R xs ys) (h' : List.Forall₂ S ys zs) :
    List.Forall₂ (fun x z => ∃ y, R x y ∧ S y z) xs zs := by
  induction h generalizing zs with
  | nil =>
    cases h'
    exact .nil
  | cons hxy _ ih =>
    cases h' with
    | cons hyz hrest => exact .cons ⟨_, hxy, hyz⟩ (ih hrest)

theorem map_eq_of_forall₂ {α β γ : Type} {R : α → β → Prop} {f : α → γ} {g : β → γ} {xs : List α}
    {ys : List β} (hR : ∀ x y, R x y → g y = f x) (h : List.Forall₂ R xs ys) :
    ys.map g = xs.map f := by
  induction h with
  | nil => rfl
  | cons hxy _ ih => rw [List.map_cons, List.map_cons, hR _ _ hxy, ih]

theorem flatMap_eq_of_forall₂ {α β γ : Type} {R : α → β → Prop} {f : α → List γ} {g : β → List γ}
    {xs : List α} {ys : List β} (hR : ∀ x y, R x y → g y = f x) (h : List.Forall₂ R xs ys) :
    ys.flatMap g = xs.flatMap f := by
  rw [List.flatMap_def, map_eq_of_forall₂ hR h, ← List.flatMap_def]

theorem mapM_eq_of_forall₂ {ε α β γ : Type} {R : α → β → Prop} {f : α → Except ε γ}
    {g : β → Except ε γ} {xs : List α} {ys : List β} (hR : ∀ x y, R x y → g y = f x)
    (h : List.Forall₂ R xs ys) : ys.mapM g = xs.mapM f := by
  induction h with
  | nil => rfl
  | cons hxy _ ih => rw [List.mapM_cons, List.mapM_cons, hR _ _ hxy, ih]

/-! ## Computations that may fail -/

theorem bind_eq_ok {ε α β : Type} {x : Except ε α} {f : α → Except ε β} {b : β} :
    x >>= f = .ok b ↔ ∃ a, x = .ok a ∧ f a = .ok b := by
  cases x with
  | error e => simp [bind, Except.bind]
  | ok a => simp [bind, Except.bind]

theorem mapError_eq_ok {ε ε' α : Type} {x : Except ε α} {f : ε → ε'} {a : α} :
    x.mapError f = .ok a ↔ x = .ok a := by
  cases x with
  | error e => exact ⟨nofun, nofun⟩
  | ok b => exact ⟨fun h => by cases h; rfl, fun h => by cases h; rfl⟩

theorem mapM_eq_ok_iff {ε α β : Type} {f : α → Except ε β} {xs : List α} {ys : List β} :
    xs.mapM f = .ok ys ↔ List.Forall₂ (fun x y => f x = .ok y) xs ys := by
  induction xs generalizing ys with
  | nil =>
    rw [List.forall₂_nil_left_iff, List.mapM_nil]
    exact ⟨fun h => by cases h; rfl, fun h => by rw [h]; rfl⟩
  | cons x xs ih =>
    rw [List.mapM_cons, bind_eq_ok, List.forall₂_cons_left_iff]
    constructor
    · intro h
      obtain ⟨y, hy, h⟩ := h
      obtain ⟨ys', hys, h⟩ := bind_eq_ok.mp h
      cases h
      exact ⟨y, ys', hy, ih.mp hys, rfl⟩
    · intro h
      obtain ⟨y, ys', hy, hys, rfl⟩ := h
      exact ⟨y, hy, bind_eq_ok.mpr ⟨ys', ih.mpr hys, rfl⟩⟩

theorem mem_of_mapM_ok {ε α β : Type} {f : α → Except ε β} {xs : List α} {ys : List β}
    (h : xs.mapM f = .ok ys) : ∀ y ∈ ys, ∃ x ∈ xs, f x = .ok y :=
  fun _ => forall₂_mem_right (R := fun x y => f x = .ok y) (mapM_eq_ok_iff.mp h)

theorem foldlM_keeps {ε α β : Type} {f : β → α → Except ε β} {P : β → Prop} {xs : List α}
    {b c : β} (step : ∀ x ∈ xs, ∀ b c, P b → f b x = .ok c → P c) (hb : P b)
    (h : xs.foldlM f b = .ok c) : P c := by
  induction xs generalizing b with
  | nil => cases h; exact hb
  | cons x xs ih =>
    rw [List.foldlM_cons, bind_eq_ok] at h
    obtain ⟨b', hx, h⟩ := h
    exact ih (fun x hx => step x (by simp [hx])) (step x (by simp) b b' hb hx) h

/-- A fold over numbered elements, described by what holds before each of them. -/
theorem foldlM_zipIdx_keeps {ε α β : Type} {f : β → α × Nat → Except ε β} {I : Nat → β → Prop}
    {xs : List α} {b c : β}
    (step : ∀ i x, xs[i]? = some x → ∀ b c, I i b → f b (x, i) = .ok c → I (i + 1) c)
    (hb : I 0 b) (h : xs.zipIdx.foldlM f b = .ok c) : I xs.length c := by
  suffices hfrom : ∀ (ys pre : List α) (b : β), xs = pre ++ ys → I pre.length b →
      (ys.zipIdx pre.length).foldlM f b = .ok c → I xs.length c from hfrom xs [] b rfl hb h
  intro ys
  induction ys with
  | nil =>
    intro pre b hxs hb h
    cases h
    rw [hxs, List.append_nil]
    exact hb
  | cons y ys ih =>
    intro pre b hxs hb h
    rw [List.zipIdx_cons, List.foldlM_cons, bind_eq_ok] at h
    obtain ⟨b', hy, h⟩ := h
    have hb' : I (pre.length + 1) b' := step pre.length y (by simp [hxs]) b b' hb hy
    exact ih (pre ++ [y]) b' (by simp [hxs]) (by simpa using hb') (by simpa using h)

/-- A fold whose steps each read one element, where `R` gathers what was read. -/
theorem foldlM_gathers {ε ε' α β γ : Type} {f : β → α → Except ε β} {g : α → Except ε' γ}
    {P : β → Prop} {R : List γ → β → β → Prop} {xs : List α} {b c : β} (refl : ∀ b, R [] b b)
    (trans : ∀ {ys zs b c d}, R ys b c → R zs c d → R (ys ++ zs) b d)
    (step : ∀ b x c, P b → f b x = .ok c → ∃ y, g x = .ok y ∧ R [y] b c ∧ P c) (hb : P b)
    (h : xs.foldlM f b = .ok c) : ∃ ys, xs.mapM g = .ok ys ∧ R ys b c ∧ P c := by
  induction xs generalizing b with
  | nil =>
    cases h
    exact ⟨[], rfl, refl c, hb⟩
  | cons x xs ih =>
    rw [List.foldlM_cons, bind_eq_ok] at h
    obtain ⟨b', hx, h⟩ := h
    obtain ⟨y, hy, hR, hb'⟩ := step b x b' hb hx
    obtain ⟨ys, hys, hR', hc⟩ := ih hb' h
    refine ⟨y :: ys, ?_, trans hR hR', hc⟩
    rw [mapM_eq_ok_iff] at hys ⊢
    exact .cons hy hys

end FlowGraph

/-
When a computation that may fail succeeds, and how it fails.

A chain of steps succeeds exactly if every step does, and a step for each
item of a list exactly if it does for all of them. With this a result is
taken apart into the results that it was made of. A failure is that of
one step (`bind_eq_error_iff`), over a list that of the step for one item
(`exists_of_mapM_eq_error`). So what holds of the failures of all steps
holds of the failure of the whole (`FailsAs`). And what each step of a
fold keeps holds at its end, wherever it began to hold
(`of_mem_of_foldlM_eq_ok`).
-/
import Mathlib.Data.List.Forall2

namespace ModuleAtlas.Success

variable {ε α β : Type}

theorem ok_bind (a : α) (f : α → Except ε β) :
    (Except.ok a >>= f) = f a := rfl

theorem bind_eq_ok_iff {x : Except ε α} {f : α → Except ε β} {b : β} :
    x >>= f = .ok b ↔ ∃ a, x = .ok a ∧ f a = .ok b := by
  cases x with
  | error e =>
      constructor
      · intro h
        cases h
      · intro h
        obtain ⟨a, ha, -⟩ := h
        cases ha
  | ok a =>
      constructor
      · intro h
        exact ⟨a, rfl, h⟩
      · intro h
        obtain ⟨a', ha, h⟩ := h
        rw [Except.ok.inj ha]
        exact h

/-- What is refused under a condition succeeds where that fails. -/
theorem refuse_eq_ok_iff {c : Prop} [Decidable c] {e : ε} {f : α → Except ε β}
    {x : Except ε β} {b : β} :
    (if c then throw e >>= f else x) = .ok b ↔ ¬ c ∧ x = .ok b := by
  by_cases hc : c
  · rw [if_pos hc]
    constructor
    · intro h
      cases h
    · intro h
      exact absurd hc h.1
  · rw [if_neg hc]
    constructor
    · intro h
      exact ⟨hc, h⟩
    · intro h
      exact h.2

/-- To say a failure in other words makes no success of it. -/
theorem mapError_eq_ok_iff {ε' : Type} {x : Except ε α} {f : ε → ε'} {a : α} :
    x.mapError f = .ok a ↔ x = .ok a := by
  cases x with
  | error e =>
      constructor
      · intro h
        cases h
      · intro h
        cases h
  | ok a' =>
      constructor
      · intro h
        rw [Except.ok.inj h]
      · intro h
        rw [Except.ok.inj h]
        rfl

/-- Steps over a list succeed item by item. -/
theorem mapM_eq_ok_iff {f : α → Except ε β} {xs : List α} {ys : List β} :
    xs.mapM f = .ok ys ↔ List.Forall₂ (fun x y => f x = .ok y) xs ys := by
  induction xs generalizing ys with
  | nil =>
      rw [List.mapM_nil, List.forall₂_nil_left_iff]
      constructor
      · intro h
        exact (Except.ok.inj h).symm
      · intro h
        rw [h]
        rfl
  | cons x xs ih =>
      rw [List.mapM_cons, bind_eq_ok_iff, List.forall₂_cons_left_iff]
      constructor
      · intro h
        obtain ⟨y, hy, h⟩ := h
        obtain ⟨rest, hrest, h⟩ := bind_eq_ok_iff.1 h
        exact ⟨y, rest, hy, ih.1 hrest, (Except.ok.inj h).symm⟩
      · intro h
        obtain ⟨y, rest, hy, hrest, rfl⟩ := h
        exact ⟨y, hy, bind_eq_ok_iff.2 ⟨rest, ih.2 hrest, rfl⟩⟩

/-- The results of the steps over a list are what its items give. -/
theorem mem_iff_of_mapM_eq_ok {f : α → Except ε β} {xs : List α} {ys : List β}
    (h : xs.mapM f = .ok ys) {y : β} : y ∈ ys ↔ ∃ x ∈ xs, f x = .ok y := by
  have hall := mapM_eq_ok_iff.1 h
  clear h
  induction hall with
  | nil => simp
  | cons hx _ ih =>
      rw [List.mem_cons]
      constructor
      · intro h
        rcases h with rfl | hmem
        · exact ⟨_, List.mem_cons_self .., hx⟩
        · obtain ⟨x, hmem, hy⟩ := ih.1 hmem
          exact ⟨x, List.mem_cons_of_mem _ hmem, hy⟩
      · intro h
        obtain ⟨x, hmem, hy⟩ := h
        rcases List.mem_cons.1 hmem with rfl | hmem
        · rw [hx] at hy
          exact .inl (Except.ok.inj hy).symm
        · exact .inr (ih.2 ⟨x, hmem, hy⟩)

/-- The results of the steps over a list stand as its items do. -/
theorem pairwise_of_mapM_eq_ok {f : α → Except ε β} {xs : List α} {ys : List β}
    {r : α → α → Prop} {s : β → β → Prop} (h : xs.mapM f = .ok ys)
    (hxs : xs.Pairwise r)
    (hf : ∀ x ∈ xs, ∀ x' ∈ xs, r x x' →
      ∀ y y', f x = .ok y → f x' = .ok y' → s y y') :
    ys.Pairwise s := by
  have hall := mapM_eq_ok_iff.1 h
  clear h
  induction hall with
  | nil => exact .nil
  | @cons x y xs ys hx hrest ih =>
      rw [List.pairwise_cons] at hxs ⊢
      have htail := mapM_eq_ok_iff.2 hrest
      refine ⟨fun y' hy' => ?_, ih hxs.2 fun a ha b hb =>
        hf a (List.mem_cons_of_mem _ ha) b (List.mem_cons_of_mem _ hb)⟩
      obtain ⟨x', hmem, hx'⟩ := (mem_iff_of_mapM_eq_ok htail).1 hy'
      exact hf x (List.mem_cons_self ..) x' (List.mem_cons_of_mem _ hmem)
        (hxs.1 x' hmem) y y' hx hx'

/-- Where each item of a list can be told to stay or not, those stay of
which it is told. -/
theorem filterM_eq_ok {p : α → Except ε Bool} (stays : α → Bool) {xs : List α}
    (h : ∀ x ∈ xs, p x = .ok (stays x)) : xs.filterM p = .ok (xs.filter stays) := by
  have haux : ∀ kept, List.filterAuxM p xs kept = .ok ((xs.filter stays).reverse ++ kept) := by
    induction xs with
    | nil => exact fun kept => rfl
    | cons x xs ih =>
        intro kept
        rw [List.forall_mem_cons] at h
        unfold List.filterAuxM
        rw [h.1, ok_bind, ih h.2, List.filter_cons]
        cases stays x <;> simp
  unfold List.filterM
  rw [haux, ok_bind]
  simp [pure, Except.pure]

-- ============================================================= failures

/-- What fails has no result. -/
theorem exists_ok_iff {x : Except ε α} :
    (∃ a, x = .ok a) ↔ ∀ e, x ≠ .error e := by
  cases x with
  | error e =>
      constructor
      · intro h
        obtain ⟨a, ha⟩ := h
        cases ha
      · intro h
        exact absurd rfl (h e)
  | ok a =>
      constructor
      · intro _ e he
        cases he
      · intro _
        exact ⟨a, rfl⟩

theorem bind_eq_error_iff {x : Except ε α} {f : α → Except ε β} {e : ε} :
    x >>= f = .error e ↔ x = .error e ∨ ∃ a, x = .ok a ∧ f a = .error e := by
  cases x with
  | error e' =>
      constructor
      · intro h
        exact .inl (congrArg _ (Except.error.inj h))
      · intro h
        rcases h with h | ⟨a, ha, -⟩
        · rw [Except.error.inj h]
          rfl
        · cases ha
  | ok a =>
      constructor
      · intro h
        exact .inr ⟨a, rfl, h⟩
      · intro h
        rcases h with h | ⟨a', ha, h⟩
        · cases h
        · rw [Except.ok.inj ha]
          exact h

theorem mapError_eq_error_iff {ε' : Type} {x : Except ε α} {f : ε → ε'}
    {e : ε'} : x.mapError f = .error e ↔ ∃ c, x = .error c ∧ f c = e := by
  cases x with
  | error c =>
      constructor
      · intro h
        exact ⟨c, rfl, Except.error.inj h⟩
      · intro h
        obtain ⟨c', hc, rfl⟩ := h
        rw [Except.error.inj hc]
        rfl
  | ok a =>
      constructor
      · intro h
        cases h
      · intro h
        obtain ⟨c, hc, -⟩ := h
        cases hc

/-- Steps over a list succeed together if none fails. -/
theorem exists_mapM_eq_ok_iff {f : α → Except ε β} {xs : List α} :
    (∃ ys, xs.mapM f = .ok ys) ↔ ∀ x ∈ xs, ∃ y, f x = .ok y := by
  induction xs with
  | nil =>
      constructor
      · intro _ x hx
        cases hx
      · intro _
        exact ⟨[], rfl⟩
  | cons x xs ih =>
      rw [List.forall_mem_cons, ← ih]
      constructor
      · intro h
        obtain ⟨ys, hys⟩ := h
        rw [mapM_eq_ok_iff, List.forall₂_cons_left_iff] at hys
        obtain ⟨y, rest, hy, hrest, -⟩ := hys
        exact ⟨⟨y, hy⟩, rest, mapM_eq_ok_iff.2 hrest⟩
      · intro h
        obtain ⟨⟨y, hy⟩, rest, hrest⟩ := h
        exact ⟨y :: rest, mapM_eq_ok_iff.2 (.cons hy (mapM_eq_ok_iff.1 hrest))⟩

/-- Where the steps over a list succeed, each item has its result. -/
theorem exists_of_mem_of_mapM_eq_ok {f : α → Except ε β} {xs : List α} {ys : List β}
    (h : xs.mapM f = .ok ys) {x : α} (hx : x ∈ xs) : ∃ y ∈ ys, f x = .ok y := by
  obtain ⟨y, hy⟩ := exists_mapM_eq_ok_iff.1 ⟨ys, h⟩ x hx
  exact ⟨y, (mem_iff_of_mapM_eq_ok h).2 ⟨x, hx, hy⟩, hy⟩

/-- Steps over a list fail as the step for one of the items does. -/
theorem exists_of_mapM_eq_error {f : α → Except ε β} {xs : List α} {e : ε}
    (h : xs.mapM f = .error e) : ∃ x ∈ xs, f x = .error e := by
  induction xs with
  | nil => cases h
  | cons x xs ih =>
      rw [List.mapM_cons, bind_eq_error_iff] at h
      rcases h with hx | ⟨y, -, h⟩
      · exact ⟨x, List.mem_cons_self .., hx⟩
      · rcases bind_eq_error_iff.1 h with hrest | ⟨ys, -, hnil⟩
        · obtain ⟨x', hmem, hx'⟩ := ih hrest
          exact ⟨x', List.mem_cons_of_mem _ hmem, hx'⟩
        · cases hnil

-- ================================================================ folds

/-- What every step of a fold keeps holds in the end if it held before. -/
theorem keeps_of_foldlM_eq_ok {f : β → α → Except ε β} {xs : List α} {a b : β} {P : β → Prop}
    (h : xs.foldlM f a = .ok b)
    (hkeep : ∀ x ∈ xs, ∀ c d, f c x = .ok d → P c → P d) (ha : P a) : P b := by
  induction xs generalizing a with
  | nil =>
      obtain rfl := Except.ok.inj h
      exact ha
  | cons x xs ih =>
      rw [List.forall_mem_cons] at hkeep
      rw [List.foldlM_cons] at h
      obtain ⟨c, hc, hrest⟩ := bind_eq_ok_iff.1 h
      exact ih hrest hkeep.2 (hkeep.1 a c hc ha)

/-- What one step of a fold brings about and every step keeps holds in the
end. -/
theorem of_mem_of_foldlM_eq_ok {f : β → α → Except ε β} {xs : List α} {a b : β} {P : β → Prop}
    (h : xs.foldlM f a = .ok b) (hkeep : ∀ x ∈ xs, ∀ c d, f c x = .ok d → P c → P d) {x : α}
    (hx : x ∈ xs) (hmake : ∀ c d, f c x = .ok d → P d) : P b := by
  induction xs generalizing a with
  | nil => cases hx
  | cons y xs ih =>
      rw [List.forall_mem_cons] at hkeep
      rw [List.foldlM_cons] at h
      obtain ⟨c, hc, hrest⟩ := bind_eq_ok_iff.1 h
      rcases List.mem_cons.1 hx with rfl | hlater
      · exact keeps_of_foldlM_eq_ok hrest hkeep.2 (hmake a c hc)
      · exact ih hrest hkeep.2 hlater

-- ============================================================== reasons

/-- A failure, if there is one, is of this sort. -/
def FailsAs (P : ε → Prop) (x : Except ε α) : Prop :=
  ∀ e, x = .error e → P e

variable {P : ε → Prop}

theorem failsAs_pure (a : α) : FailsAs P (pure a) := by
  intro e he
  cases he

/-- What fails as nothing does has a result. -/
theorem exists_ok_of_failsAs {x : Except ε α} (h : FailsAs (fun _ => False) x) :
    ∃ a, x = .ok a :=
  exists_ok_iff.2 h

theorem FailsAs.bind {x : Except ε α} {f : α → Except ε β} (hx : FailsAs P x)
    (hf : ∀ a, x = .ok a → FailsAs P (f a)) : FailsAs P (x >>= f) := by
  intro e he
  rcases bind_eq_error_iff.1 he with he | ⟨a, ha, he⟩
  · exact hx e he
  · exact hf a ha e he

theorem FailsAs.mapM {f : α → Except ε β} {xs : List α}
    (h : ∀ x ∈ xs, FailsAs P (f x)) : FailsAs P (xs.mapM f) := by
  intro e he
  obtain ⟨x, hx, he⟩ := exists_of_mapM_eq_error he
  exact h x hx e he

theorem FailsAs.foldlM {f : β → α → Except ε β} {xs : List α}
    (h : ∀ x ∈ xs, ∀ b, FailsAs P (f b x)) (b : β) :
    FailsAs P (xs.foldlM f b) := by
  induction xs generalizing b with
  | nil => exact failsAs_pure b
  | cons x xs ih =>
      rw [List.forall_mem_cons] at h
      rw [List.foldlM_cons]
      exact (h.1 b).bind fun b' _ => ih h.2 b'

end ModuleAtlas.Success

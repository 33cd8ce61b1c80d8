/-
The first of some names, and the first mention of each.

Choices are made in the order of a list in many places: a search takes
the first name that leads on, a dependency means the first file that fits
it. What was chosen is then the name with the property that has none such
before it, and there is at most one (`IsFirst.unique`).

Where names are collected one by one, and those that are there already
are passed over, the first mention of each is kept (`foldl_addNew`). They
then stand in the order of these (`pairwise_eraseDups_idxOf`,
`pairwise_eraseDups_filterMap`).
-/
import Mathlib.Data.List.Induction

namespace ModuleAtlas

/-- `x` is the first of the names that has the property. -/
def IsFirst {α : Type} (p : α → Prop) (names : List α) (x : α) : Prop :=
  ∃ earlier later, names = earlier ++ x :: later ∧ p x ∧ ∀ y ∈ earlier, ¬ p y

namespace IsFirst

variable {α : Type} {p q : α → Prop} {names : List α} {x y : α}

theorem holds (h : IsFirst p names x) : p x := by
  obtain ⟨_, _, _, hx, _⟩ := h
  exact hx

theorem mem (h : IsFirst p names x) : x ∈ names := by
  obtain ⟨earlier, later, rfl, _, _⟩ := h
  simp

/-- Looking for it finds the first name. -/
theorem iff_find? {p : α → Bool} :
    IsFirst (p · = true) names x ↔ names.find? p = some x := by
  rw [List.find?_eq_some_iff_append]
  constructor
  · intro h
    obtain ⟨earlier, later, hnames, hx, hbefore⟩ := h
    exact ⟨hx, earlier, later, hnames, fun y hy => by simpa using hbefore y hy⟩
  · intro h
    obtain ⟨hx, earlier, later, hnames, hbefore⟩ := h
    exact ⟨earlier, later, hnames, hx, fun y hy => by simpa using hbefore y hy⟩

theorem unique (hx : IsFirst p names x) (hy : IsFirst p names y) : x = y := by
  obtain ⟨ex, lx, hnames, hpx, hbefore⟩ := hx
  obtain ⟨ey, ly, rfl, hpy, hbefore'⟩ := hy
  rcases List.append_eq_append_iff.1 hnames with
    ⟨mid, hex, htail⟩ | ⟨mid, hey, htail⟩
  · cases mid with
    | nil => exact (List.cons.inj htail).1.symm
    | cons m mid =>
        have hm : y = m := (List.cons.inj htail).1
        exact absurd hpy (hbefore y (by rw [hex, hm]; simp))
  · cases mid with
    | nil => exact (List.cons.inj htail).1
    | cons m mid =>
        have hm : x = m := (List.cons.inj htail).1
        exact absurd hpx (hbefore' x (by rw [hey, hm]; simp))

/-- The first name with a property is the first one with a narrower
property, if it has that. -/
theorem narrow (h : IsFirst p names x) (hx : q x) (hqp : ∀ y, q y → p y) :
    IsFirst q names x := by
  obtain ⟨earlier, later, hnames, _, hbefore⟩ := h
  exact ⟨earlier, later, hnames, hx, fun y hy hq => hbefore y hy (hqp y hq)⟩

end IsFirst

-- ======================================================= first mentions

section

variable {α : Type} [BEq α] [LawfulBEq α]

/-- The names with `x` behind them, unless it is one of them. -/
def addNew (names : List α) (x : α) : List α :=
  if x ∈ names then names else names ++ [x]

theorem removeAll_concat (names kept : List α) (x : α) :
    names.removeAll (kept ++ [x]) = (names.removeAll kept).filter fun y => !y == x := by
  unfold List.removeAll
  rw [List.filter_filter]
  refine List.filter_congr fun y _ => ?_
  by_cases hy : y = x <;> by_cases hk : y ∈ kept <;> simp [hy, hk]

/-- Collecting names one by one keeps the first mention of each. -/
theorem foldl_addNew (kept names : List α) :
    names.foldl addNew kept = kept ++ (names.removeAll kept).eraseDups := by
  induction names generalizing kept with
  | nil => simp [List.removeAll]
  | cons x names ih =>
      rw [List.foldl_cons, ih]
      unfold addNew
      by_cases hx : x ∈ kept
      · rw [if_pos hx]
        simp [List.removeAll, hx]
      · rw [if_neg hx, removeAll_concat]
        simp [List.removeAll, hx, List.eraseDups_cons]

theorem foldl_addNew_nil (names : List α) :
    names.foldl addNew [] = names.eraseDups := by
  have hall : names.removeAll [] = names := List.filter_eq_self.2 fun _ _ => rfl
  rw [foldl_addNew, hall, List.nil_append]

theorem nodup_eraseDups (names : List α) : names.eraseDups.Nodup := by
  match names with
  | [] => simp
  | x :: names =>
      rw [List.eraseDups_cons]
      refine List.nodup_cons.2 ⟨?_, nodup_eraseDups _⟩
      rw [List.mem_eraseDups, List.mem_filter]
      simp
termination_by names.length
decreasing_by
  exact Nat.lt_succ_of_le (List.length_filter_le _ _)

/-- Where no name comes twice, all are kept. -/
theorem eraseDups_of_nodup {names : List α} (h : names.Nodup) :
    names.eraseDups = names := by
  induction names with
  | nil => rfl
  | cons x names ih =>
      rw [List.nodup_cons] at h
      have hkept : names.filter (fun y => !y == x) = names := by
        refine List.filter_eq_self.2 fun y hy => ?_
        have hne : y ≠ x := fun heq => h.1 (heq ▸ hy)
        simpa using hne
      rw [List.eraseDups_cons, hkept, ih h.2]

/-- Names that are listed once stand in the order in which each is first
mentioned. -/
theorem pairwise_eraseDups_idxOf (names : List α) :
    names.eraseDups.Pairwise fun x y => names.idxOf x < names.idxOf y := by
  induction names using List.reverseRecOn with
  | nil => exact .nil
  | append_singleton names x ih =>
      have hsplit : (names ++ [x]).eraseDups = addNew names.eraseDups x := by
        rw [← foldl_addNew_nil, List.foldl_append, foldl_addNew_nil]
        rfl
      have hplace : ∀ y ∈ names, (names ++ [x]).idxOf y = names.idxOf y :=
        fun y hy => List.idxOf_append.trans (if_pos hy)
      have hold : names.eraseDups.Pairwise fun y z =>
          (names ++ [x]).idxOf y < (names ++ [x]).idxOf z := by
        refine ih.imp_of_mem fun {y z} hy hz hlt => ?_
        rwa [hplace y (List.mem_eraseDups.1 hy), hplace z (List.mem_eraseDups.1 hz)]
      rw [hsplit]
      unfold addNew
      split
      · exact hold
      · next hx =>
        rw [List.mem_eraseDups] at hx
        refine List.pairwise_append.2 ⟨hold, List.pairwise_singleton .., ?_⟩
        intro y hy z hz
        have hy := List.mem_eraseDups.1 hy
        have hlt := List.idxOf_lt_length_of_mem hy
        rw [List.mem_singleton.1 hz, hplace y hy, List.idxOf_append, if_neg hx]
        omega

end

-- ============================================================= their order

section

variable {ι α : Type} {r : ι → ι → Prop} {items : List ι} {f : ι → Option α}

/-- One of the items has the value `x` and comes before all that have the
value `y`. -/
def Precedes (r : ι → ι → Prop) (items : List ι) (f : ι → Option α) (x y : α) :
    Prop :=
  ∃ i ∈ items, f i = some x ∧ ∀ j ∈ items, f j = some y → r i j

theorem Precedes.cons {i : ι} {x y : α} (h : Precedes r items f x y)
    (hi : f i ≠ some y) : Precedes r (i :: items) f x y := by
  obtain ⟨k, hk, hx, hall⟩ := h
  refine ⟨k, List.mem_cons_of_mem _ hk, hx, fun j hj hy => ?_⟩
  rcases List.mem_cons.1 hj with rfl | hj
  · exact absurd hy hi
  · exact hall j hj hy

theorem precedes_head {i : ι} {x y : α} (hr : ∀ j ∈ items, r i j)
    (hi : f i = some x) (hne : x ≠ y) : Precedes r (i :: items) f x y := by
  refine ⟨i, List.mem_cons_self .., hi, fun j hj hy => ?_⟩
  rcases List.mem_cons.1 hj with rfl | hj
  · exact absurd (Option.some.inj (hi.symm.trans hy)) hne
  · exact hr j hj

/-- Of the values of items that stand in order, each mentioned once, one
stands before another if the first item that has it does. -/
theorem pairwise_eraseDups_filterMap [BEq α] [LawfulBEq α]
    (hitems : items.Pairwise r) (f : ι → Option α) :
    (items.filterMap f).eraseDups.Pairwise (Precedes r items f) := by
  induction items generalizing f with
  | nil => exact .nil
  | cons i items ih =>
      rw [List.pairwise_cons] at hitems
      cases hi : f i with
      | none =>
          rw [List.filterMap_cons_none hi]
          refine (ih hitems.2 f).imp fun h => h.cons ?_
          rw [hi]
          exact (Option.some_ne_none _).symm
      | some x =>
          -- the values behind that differ from `x`
          let rest := fun k => (f k).filter fun y => !y == x
          have hrest : (items.filterMap f).filter (fun y => !y == x) =
              items.filterMap rest := List.filter_filterMap
          have hne : ∀ y ∈ (items.filterMap rest).eraseDups, x ≠ y := by
            intro y hy heq
            rw [List.mem_eraseDups, ← hrest, List.mem_filter] at hy
            simp [heq] at hy
          have hkept : ∀ k y, x ≠ y → (rest k = some y ↔ f k = some y) := by
            intro k y hxy
            rw [Option.filter_eq_some_iff]
            simp [hxy.symm]
          rw [List.filterMap_cons_some hi, List.eraseDups_cons, hrest,
            List.pairwise_cons]
          refine ⟨fun y hy => precedes_head hitems.1 hi (hne y hy), ?_⟩
          refine (ih hitems.2 rest).imp_of_mem ?_
          intro y z hy hz h
          obtain ⟨k, hk, hfk, hall⟩ := h
          have hprecedes : Precedes r items f y z :=
            ⟨k, hk, (hkept k y (hne y hy)).1 hfk, fun j hj hfj =>
              hall j hj ((hkept j z (hne z hz)).2 hfj)⟩
          refine hprecedes.cons ?_
          rw [hi]
          exact fun heq => hne z hz (Option.some.inj heq)

end

end ModuleAtlas

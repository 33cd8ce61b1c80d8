/-
Finite maps that are filled item by item.

# No key twice

A map that was filled by `upsert` from the empty one has every key once
(`nodup_keys_upsert`). Then what is found at the keys is all that the map
holds (`mem_values_iff`).

# What a filled map holds

All the maps here are filled the same way: a list of items is gone
through, and each changes the value at its own key (`fill`). The keys are
then those of the items, in the order of their first mention
(`keys_fill`), and the value at a key was made by the items of that key
alone (`find?_fill`).
-/
import Mathlib.Data.List.Induction
import ModuleAtlas.OrderedMap
import ModuleAtlas.Proofs.First

namespace ModuleAtlas.OrderedMap

variable {α β : Type}

theorem nodup_keys_empty : (empty : OrderedMap α).keys.Nodup := List.nodup_nil

/-- No operation makes a second entry for a key. -/
theorem nodup_keys_upsert {m : OrderedMap α} (h : m.keys.Nodup) (key : String)
    (f : Option α → α) : (m.upsert key f).keys.Nodup := by
  rw [keys_upsert]
  by_cases hkey : key ∈ m.keys
  · rw [if_pos hkey]
    exact h
  · rw [if_neg hkey]
    have hone : [key].Nodup := by simp
    refine List.nodup_append.2 ⟨h, hone, ?_⟩
    intro k hk k' hk' heq
    rw [heq, List.mem_singleton.1 hk'] at hk
    exact hkey hk

/-- Where no key comes twice, an entry is found at its key. -/
theorem lookup_eq_some_iff {entries : List (String × α)}
    (h : (entries.map Prod.fst).Nodup) {key : String} {v : α} :
    entries.lookup key = some v ↔ (key, v) ∈ entries := by
  induction entries with
  | nil => simp
  | cons entry entries ih =>
      obtain ⟨k, u⟩ := entry
      rw [List.map_cons, List.nodup_cons] at h
      rw [List.lookup_cons, List.mem_cons]
      by_cases heq : key = k
      · subst heq
        simp only [beq_self_eq_true, Option.some.injEq, Prod.mk.injEq, true_and]
        constructor
        · intro hv
          exact .inl hv.symm
        · intro h
          rcases h with hv | hmem
          · exact hv.symm
          · exact absurd (List.mem_map_of_mem hmem) h.1
      · rw [beq_false_of_ne heq]
        simp only [Prod.mk.injEq, heq, false_and, false_or]
        exact ih h.2

theorem find?_eq_some_iff {m : OrderedMap α} (h : m.keys.Nodup) {key : String}
    {v : α} : m.find? key = some v ↔ (key, v) ∈ m.entries :=
  lookup_eq_some_iff h

/-- The values are what is found at the keys. -/
theorem mem_values_iff {m : OrderedMap α} (h : m.keys.Nodup) {v : α} :
    v ∈ m.values ↔ ∃ key, m.find? key = some v := by
  unfold values
  rw [List.mem_map]
  constructor
  · intro h
    obtain ⟨⟨key, u⟩, hmem, rfl⟩ := h
    exact ⟨key, (find?_eq_some_iff h).2 hmem⟩
  · intro h
    obtain ⟨key, hfind⟩ := h
    exact ⟨(key, v), (find?_eq_some_iff h).1 hfind, rfl⟩

/-- Something is found at the keys and nowhere else. -/
theorem mem_keys_iff {m : OrderedMap α} {key : String} :
    key ∈ m.keys ↔ ∃ v, m.find? key = some v := by
  rw [← Option.isSome_iff_exists]
  unfold find? keys
  rw [List.lookup_isSome_iff, List.mem_map]
  constructor
  · intro h
    obtain ⟨entry, hentry, rfl⟩ := h
    exact ⟨entry, hentry, beq_self_eq_true _⟩
  · intro h
    obtain ⟨entry, hentry, heq⟩ := h
    exact ⟨entry, hentry, (eq_of_beq heq).symm⟩

theorem contains_iff {m : OrderedMap α} {key : String} :
    m.contains key = true ↔ ∃ v, m.find? key = some v := by
  unfold contains
  rw [Option.isSome_iff_exists]

-- ============================================================== filling

/-- The map after the items changed the values at their keys, one after
the other. -/
def fill (key : β → String) (f : β → Option α → α) (m : OrderedMap α)
    (items : List β) : OrderedMap α :=
  items.foldl (fun m x => m.upsert (key x) (f x)) m

variable {key : β → String} {f : β → Option α → α}

/-- Keys that are new come last, in the order of their first mention. -/
theorem keys_fill (m : OrderedMap α) (items : List β) :
    (fill key f m items).keys =
      m.keys ++ ((items.map key).removeAll m.keys).eraseDups := by
  rw [← foldl_addNew]
  unfold fill
  induction items generalizing m with
  | nil => rfl
  | cons x items ih =>
      rw [List.foldl_cons, ih, keys_upsert, List.map_cons, List.foldl_cons]
      rfl

theorem keys_fill_empty (items : List β) :
    (fill key f .empty items).keys = (items.map key).eraseDups := by
  rw [keys_fill, ← foldl_addNew]
  exact foldl_addNew_nil _

theorem nodup_keys_fill {m : OrderedMap α} (h : m.keys.Nodup) (items : List β) :
    (fill key f m items).keys.Nodup := by
  unfold fill
  induction items generalizing m with
  | nil => exact h
  | cons x items ih => exact ih (nodup_keys_upsert h ..)

theorem entries_upsert_of_notMem {m : OrderedMap α} {key : String}
    (h : key ∉ m.keys) (f : Option α → α) :
    (m.upsert key f).entries = m.entries ++ [(key, f none)] := by
  obtain ⟨entries⟩ := m
  unfold keys at h
  unfold upsert
  induction entries with
  | nil => rfl
  | cons entry entries ih =>
      rw [List.map_cons, List.mem_cons, not_or] at h
      dsimp only at ih ⊢
      rw [upsertEntries, if_neg (by simpa using h.1), ih h.2, List.cons_append]

/-- Items of different keys make an entry each. -/
theorem entries_fill_of_nodup {m : OrderedMap α} {items : List β}
    (h : (items.map key).Nodup) (hnew : ∀ x ∈ items, key x ∉ m.keys) :
    (fill key f m items).entries =
      m.entries ++ items.map fun x => (key x, f x none) := by
  unfold fill
  induction items generalizing m with
  | nil => exact (List.append_nil _).symm
  | cons x items ih =>
      rw [List.map_cons, List.nodup_cons] at h
      rw [List.forall_mem_cons] at hnew
      rw [List.foldl_cons, ih h.2, entries_upsert_of_notMem hnew.1,
        List.append_assoc]
      · rfl
      · intro y hy
        rw [keys_upsert, if_neg hnew.1, List.mem_append, List.mem_singleton, not_or]
        exact ⟨hnew.2 y hy, fun heq => h.1 (heq ▸ List.mem_map_of_mem hy)⟩

/-- The value at a key was made by the items of that key. -/
theorem find?_fill (m : OrderedMap α) (items : List β) (k : String) :
    (fill key f m items).find? k =
      (items.filter (key · = k)).foldl (fun v x => some (f x v)) (m.find? k) := by
  unfold fill
  induction items generalizing m with
  | nil => rfl
  | cons x items ih =>
      rw [List.foldl_cons, ih, find?_upsert]
      by_cases hk : key x = k
      · rw [if_pos hk.symm, List.filter_cons_of_pos (by simpa using hk),
          List.foldl_cons, hk]
      · rw [if_neg fun h => hk h.symm,
          List.filter_cons_of_neg (by simpa using hk)]

/-- If each step fills a table of the state by its item, a run fills it by
its items. -/
theorem table_foldl {σ : Type} (table : σ → OrderedMap α) {step : σ → β → σ}
    (h : ∀ s x, table (step s x) = (table s).upsert (key x) (f x)) (s : σ)
    (items : List β) : table (items.foldl step s) = fill key f (table s) items := by
  unfold fill
  induction items generalizing s with
  | nil => rfl
  | cons x items ih => rw [List.foldl_cons, List.foldl_cons, ih, h]

/-- Where each item stays once it is there, the first one decides. -/
theorem foldl_first (items : List α) (v : Option α) :
    items.foldl (fun v x => some (v.getD x)) v = v.or items.head? := by
  induction items generalizing v with
  | nil => exact (Option.or_none).symm
  | cons x items ih =>
      rw [List.foldl_cons, ih, List.head?_cons]
      cases v <;> rfl

/-- Then a look into the map finds what a search of the items finds. -/
theorem find?_fill_first (key : α → String) (items : List α) (k : String) :
    (fill key (fun x v => v.getD x) .empty items).find? k =
      items.find? (key · = k) := by
  rw [find?_fill, foldl_first, List.head?_filter]
  rfl

/-- Where each item replaces the value, the last one decides. -/
theorem foldl_replace (value : β → α) (items : List β) :
    items.foldl (fun _ x => some (value x)) none = items.getLast?.map value := by
  induction items using List.reverseRecOn with
  | nil => rfl
  | append_singleton items x _ => simp

/-- Where each item changes the value by a step, beginning with `init`, the
value is what the steps make of `init`. -/
theorem foldl_getD (step : α → β → α) (init : α) (items : List β) (v : Option α) :
    (items.foldl (fun v x => some (step (v.getD init) x)) v).getD init =
      items.foldl step (v.getD init) := by
  induction items generalizing v with
  | nil => rfl
  | cons x items ih => exact ih _

/-- Where each item appends to a list, the list holds what all append. -/
theorem foldl_append (value : β → α) (items : List β) (v : Option (List α)) :
    (items.foldl (fun v x => some (v.getD [] ++ [value x])) v).getD [] =
      v.getD [] ++ items.map value := by
  rw [foldl_getD fun xs x => xs ++ [value x], List.foldl_append_eq_append]
  exact congrArg (v.getD [] ++ ·) List.map_eq_flatMap.symm

/-- Where each item is listed once, the list holds the first mentions. -/
theorem foldl_list [BEq α] [LawfulBEq α] (value : β → α) (items : List β)
    (v : Option (List α)) :
    (items.foldl (fun v x => some (addNew (v.getD []) (value x))) v).getD [] =
      (items.map value).foldl addNew (v.getD []) := by
  rw [foldl_getD fun xs x => addNew xs (value x), List.foldl_map]

/-- Where the items only see to it that there is a list, it stays as it
is. -/
theorem foldl_keep (items : List β) (v : Option (List α)) :
    (items.foldl (fun v _ => some (v.getD [])) v).getD [] = v.getD [] := by
  induction items generalizing v with
  | nil => rfl
  | cons x items ih => exact ih _

/-- Appending an item to the list at its key adds it to what the lists
hold together. -/
theorem perm_flatten_values_upsert (m : OrderedMap (List α)) (key : String)
    (x : α) :
    ((m.upsert key fun xs => xs.getD [] ++ [x]).values.flatten).Perm
      (x :: m.values.flatten) := by
  obtain ⟨entries⟩ := m
  unfold upsert values
  induction entries with
  | nil => exact .refl _
  | cons entry entries ih =>
      obtain ⟨k, xs⟩ := entry
      unfold upsertEntries
      by_cases hk : (key == k) = true
      · rw [if_pos hk]
        simp
      · rw [if_neg hk]
        exact (ih.append_left xs).trans List.perm_middle

/-- Lists that were filled item by item hold the items. -/
theorem perm_flatten_values_fill (value : β → α) (m : OrderedMap (List α))
    (items : List β) :
    ((fill key (fun x xs => xs.getD [] ++ [value x]) m items).values.flatten).Perm
      (m.values.flatten ++ items.map value) := by
  unfold fill
  induction items generalizing m with
  | nil => simp
  | cons x items ih =>
      refine (ih _).trans ?_
      refine ((perm_flatten_values_upsert m (key x) (value x)).append_right _).trans ?_
      exact List.perm_middle.symm

end ModuleAtlas.OrderedMap

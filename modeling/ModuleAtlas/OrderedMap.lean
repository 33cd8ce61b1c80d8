/-
Finite maps that remember the order in which their keys came.

One operation changes a map: `upsert` gives a key a new value made from
its old one. A key that is present keeps its place and a new key comes
last, so the order of the keys is the order of their first mention
(`keys_upsert`), and what a key is mapped to depends on the operations
on that key alone (`find?_upsert`).
-/

namespace ModuleAtlas

/-- A map from names to values, its entries in the order of their first
mention. -/
structure OrderedMap (α : Type) where
  entries : List (String × α)
  deriving Repr

namespace OrderedMap

variable {α : Type}

def empty : OrderedMap α := ⟨[]⟩

def keys (m : OrderedMap α) : List String := m.entries.map Prod.fst

def values (m : OrderedMap α) : List α := m.entries.map Prod.snd

def find? (m : OrderedMap α) (key : String) : Option α := m.entries.lookup key

def contains (m : OrderedMap α) (key : String) : Bool := (m.find? key).isSome

/-- The entries after the value at `key` was made anew from the old one. -/
def upsertEntries (key : String) (f : Option α → α) : List (String × α) → List (String × α)
  | [] => [(key, f none)]
  | (k, v) :: rest =>
    if key == k then (k, f (some v)) :: rest else (k, v) :: upsertEntries key f rest

/-- Gives `key` the value that `f` makes of its old one. -/
def upsert (m : OrderedMap α) (key : String) (f : Option α → α) : OrderedMap α :=
  ⟨upsertEntries key f m.entries⟩

theorem lookup_upsertEntries (key k : String) (f : Option α → α) (es : List (String × α)) :
    (upsertEntries key f es).lookup k = if k = key then some (f (es.lookup key)) else es.lookup k := by
  induction es with
  | nil => grind [upsertEntries]
  | cons e es ih =>
    obtain ⟨a, v⟩ := e
    simp only [upsertEntries, List.lookup_cons]
    grind

theorem map_fst_upsertEntries (key : String) (f : Option α → α) (es : List (String × α)) :
    (upsertEntries key f es).map Prod.fst =
      if key ∈ es.map Prod.fst then es.map Prod.fst else es.map Prod.fst ++ [key] := by
  induction es with
  | nil => simp [upsertEntries]
  | cons e es ih =>
    obtain ⟨a, v⟩ := e
    simp only [upsertEntries]
    grind

/-- Only the value at the key changes. -/
theorem find?_upsert (m : OrderedMap α) (key k : String) (f : Option α → α) :
    (m.upsert key f).find? k = if k = key then some (f (m.find? key)) else m.find? k :=
  lookup_upsertEntries key k f m.entries

/-- A key that is present keeps its place and a new one comes last. -/
theorem keys_upsert (m : OrderedMap α) (key : String) (f : Option α → α) :
    (m.upsert key f).keys = if key ∈ m.keys then m.keys else m.keys ++ [key] :=
  map_fst_upsertEntries key f m.entries

end OrderedMap

end ModuleAtlas

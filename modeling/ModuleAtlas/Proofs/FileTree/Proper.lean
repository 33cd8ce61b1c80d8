/-
Trees as a system keeps them.

In a directory no name stands twice, and every name is one that leads
down (`Entry.Proper`). Then the names on the way down say where something
lies (`Entry.under?`), as long as no link is followed. A walk may follow
links, but it ends in the same tree, so what a path leads to is proper
again (`proper_of_look`).
-/
import ModuleAtlas.Proofs.FileTree
import ModuleAtlas.Proofs.OrderedMap
import ModuleAtlas.Proofs.Path.Place

namespace ModuleAtlas

namespace Entry

/-- Every directory holds a name once, and only names that lead down. -/
inductive Proper : Entry → Prop
  | file (content : Bytes) : Proper (.file content)
  | link (target : String) : Proper (.link target)
  | dir {entries : List (String × Entry)} :
      (entries.map Prod.fst).Nodup →
      (∀ x ∈ entries, Path.IsSegment x.1) →
      (∀ x ∈ entries, Proper x.2) → Proper (.dir entries)

/-- What lies at the end of these names, each but the last the name of a
directory. No link is followed. -/
def under? : Entry → List String → Option Entry
  | e, [] => some e
  | .dir entries, name :: way => (entries.lookup name).bind (·.under? way)
  | .file _, _ :: _ => none
  | .link _, _ :: _ => none

variable {e e' : Entry} {entries : List (String × Entry)} {name : String}
    {way : List String}

theorem under?_cons_eq_some_iff :
    e.under? (name :: way) = some e' ↔
      ∃ entries inner, e = .dir entries ∧ entries.lookup name = some inner ∧
        inner.under? way = some e' := by
  cases e with
  | file content => simp [under?]
  | link target => simp [under?]
  | dir entries => simp [under?, Option.bind_eq_some_iff]

namespace Proper

theorem nodup (h : Proper (.dir entries)) : (entries.map Prod.fst).Nodup := by
  cases h with
  | dir hnodup _ _ => exact hnodup

theorem isSegment (h : Proper (.dir entries)) {x : String × Entry}
    (hx : x ∈ entries) : Path.IsSegment x.1 := by
  cases h with
  | dir _ hnames _ => exact hnames x hx

theorem of_mem (h : Proper (.dir entries)) {x : String × Entry}
    (hx : x ∈ entries) : Proper x.2 := by
  cases h with
  | dir _ _ hinner => exact hinner x hx

/-- A name is looked up where it stands. -/
theorem lookup_eq_some_iff (h : Proper (.dir entries)) :
    entries.lookup name = some e ↔ (name, e) ∈ entries :=
  OrderedMap.lookup_eq_some_iff h.nodup

theorem of_lookup (h : Proper (.dir entries)) (hname : entries.lookup name = some e) :
    Proper e :=
  h.of_mem (h.lookup_eq_some_iff.1 hname)

/-- The names on the way down lead down. -/
theorem isPlace_of_under? (h : Proper e) (hway : e.under? way = some e') :
    Path.IsPlace way := by
  induction way generalizing e with
  | nil => exact Path.isPlace_nil
  | cons name way ih =>
      obtain ⟨entries, inner, rfl, hname, hrest⟩ := under?_cons_eq_some_iff.1 hway
      exact List.forall_mem_cons.2
        ⟨h.isSegment (h.lookup_eq_some_iff.1 hname), ih (h.of_lookup hname) hrest⟩

end Proper

end Entry

namespace FileTree

variable {t : FileTree} {top e : Entry} {path : String}

theorem proper_entryAt {trail : List (String × Entry)} (htop : top.Proper)
    (htrail : ∀ x ∈ trail, x.2.Proper) : (entryAt top trail).Proper := by
  cases trail with
  | nil => exact htop
  | cons x trail => exact htrail x (List.mem_cons_self ..)

/-- A walk in a proper tree comes by proper entries only. -/
theorem proper_of_walk (htop : top.Proper) {links : Nat}
    {trail : List (String × Entry)} {todo : List String} {spot : Spot}
    (htrail : ∀ x ∈ trail, x.2.Proper)
    (h : walk top links trail todo = .ok spot) :
    ∀ x ∈ spot.trail, x.2.Proper := by
  fun_induction walk top links trail todo with
  | case1 =>
      obtain rfl := Except.ok.inj h
      exact htrail
  | case2 links trail s rest entries hdir hstay ih => exact ih htrail h
  | case3 links trail rest entries hdir hmoves ih =>
      exact ih (fun x hx => htrail x (List.mem_of_mem_tail hx)) h
  | case5 =>
      obtain rfl := Except.ok.inj h
      exact htrail
  | case8 trail s rest entries hdir hmoves hdown hshort target hname links ih =>
      refine ih (fun x hx => ?_) h
      split at hx
      · cases hx
      · exact htrail x hx
  | case9 links trail s rest entries hdir hmoves hdown hshort e hproper hname ih =>
      have hentries := proper_entryAt htop htrail
      rw [hdir] at hentries
      exact ih (List.forall_mem_cons.2 ⟨hentries.of_lookup hname, htrail⟩) h
  | case4 | case6 | case7 | case10 => cases h

/-- What a path leads to is proper. -/
theorem proper_of_look (htop : t.top.Proper) (h : t.look path = .ok (some e)) :
    e.Proper := by
  obtain ⟨trail, hspot, rfl⟩ := spot_of_look h
  obtain ⟨-, -, hwalk⟩ := walk_of_spot hspot
  exact proper_entryAt htop (proper_of_walk htop (List.forall_mem_nil _) hwalk)

end FileTree

end ModuleAtlas

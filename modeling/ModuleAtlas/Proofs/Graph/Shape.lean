/-
The shape of a built graph.

# Three tables

The tables of a built graph are filled by rules of their own. A later
file of the same path replaces the node of an earlier one but keeps its
place. An edge goes behind those of its source. A source is listed at a
target when its first edge to it comes up, and then no more.

# One list behind them

What keeps the tables consistent is that edges and dependents are made of
one list: the edges in the order in which they come up, file by file and
dependency by dependency (`additions`). The edges of a name are that list
cut down to one source (`edgesFrom_eq_filter`), its dependents the list
cut down to one target (`getD_dependents`). So one table is the other one
read backwards, and both speak of nodes only, since an edge joins the
path of a file to that of a file (`ends_of_mem_additions`).
-/
import ModuleAtlas.Proofs.Graph.Building

namespace ModuleAtlas.Graph

variable {modules : List Module}

-- =============================================================== nodes

/-- The names of the nodes are the paths, in the order of their first
mention. -/
theorem keys_nodes_ofModules (modules : List Module) :
    (ofModules modules).nodes.keys = (modules.map Module.path).eraseDups := by
  rw [nodes_ofModules, OrderedMap.keys_fill_empty]

theorem mem_keys_nodes_iff {p : String} :
    p ∈ (ofModules modules).nodes.keys ↔ p ∈ modules.map Module.path := by
  rw [keys_nodes_ofModules, List.mem_eraseDups]

/-- A node tells of the last file of its path. -/
theorem find?_nodes_ofModules (p : String) :
    (ofModules modules).nodes.find? p =
      (modules.filter (·.path = p)).getLast?.map nodeOf := by
  rw [nodes_ofModules, OrderedMap.find?_fill]
  exact OrderedMap.foldl_replace nodeOf _

theorem find?_nodes_eq_some_iff {p : String} {n : Node} :
    (ofModules modules).nodes.find? p = some n ↔
      ∃ m, (modules.filter (·.path = p)).getLast? = some m ∧
        n = ⟨p, m.imports.length, m.exports.length⟩ := by
  rw [find?_nodes_ofModules, Option.map_eq_some_iff]
  have hpath : ∀ m, (modules.filter (·.path = p)).getLast? = some m →
      m.path = p := by
    intro m hm
    simpa using (List.mem_filter.1 (List.mem_of_getLast? hm)).2
  constructor
  · intro h
    obtain ⟨m, hm, rfl⟩ := h
    refine ⟨m, hm, ?_⟩
    rw [← hpath m hm]
    rfl
  · intro h
    obtain ⟨m, hm, rfl⟩ := h
    refine ⟨m, hm, ?_⟩
    rw [← hpath m hm]
    rfl

/-- Files of different paths have a node each. -/
theorem entries_nodes_ofModules (h : (modules.map Module.path).Nodup) :
    (ofModules modules).nodes.entries = modules.map fun m => (m.path, nodeOf m) := by
  rw [nodes_ofModules]
  exact OrderedMap.entries_fill_of_nodup h fun _ _ => List.not_mem_nil

-- =========================================================== additions

/-- The edges of these files in the order in which they come up: file by
file, and dependency by dependency. -/
def additions (modules : List Module) : List Edge :=
  modules.flatMap fun m =>
    (m.dependencies.filterMap (meant? (modules.map Module.path))).map
      fun target => ⟨m.path, target, .importing⟩

theorem additions_eq_map_links (modules : List Module) :
    additions modules = (links modules).map edgeOf := by
  unfold additions links linksOf
  rw [List.map_flatMap]
  refine List.flatMap_congr fun m _ => ?_
  rw [List.map_map]
  rfl

/-- An edge joins the path of a file to that of a file. -/
theorem ends_of_mem_additions {e : Edge} (he : e ∈ additions modules) :
    e.source ∈ modules.map Module.path ∧ e.target ∈ modules.map Module.path ∧
      e.kind = .importing := by
  obtain ⟨m, hm, he⟩ := List.mem_flatMap.1 he
  obtain ⟨target, htarget, rfl⟩ := List.mem_map.1 he
  obtain ⟨d, -, hmeant⟩ := List.mem_filterMap.1 htarget
  exact ⟨List.mem_map_of_mem hm, (meant?_eq_some_iff.1 hmeant).mem, rfl⟩

-- =============================================================== edges

/-- The edges of a name are those that come up with it as their source. -/
theorem edgesFrom_eq_filter (s : String) :
    (ofModules modules).edgesFrom s =
      (additions modules).filter (·.source = s) := by
  rw [edgesFrom_ofModules, additions_eq_map_links, List.filter_map]
  rfl

theorem edgesFrom_of_mem_entries {s : String} {es : List Edge}
    (h : (s, es) ∈ (ofModules modules).edges.entries) :
    (ofModules modules).edgesFrom s = es := by
  unfold edgesFrom
  rw [(OrderedMap.find?_eq_some_iff (nodup_keys_edges modules)).2 h,
    Option.getD_some]

/-- A name has an entry only if an edge leaves it. -/
theorem ne_nil_of_mem_entries {s : String} {es : List Edge}
    (h : (s, es) ∈ (ofModules modules).edges.entries) : es ≠ [] := by
  have hkey : s ∈ (ofModules modules).edges.keys := List.mem_map_of_mem h
  rw [edges_ofModules, OrderedMap.keys_fill_empty, List.mem_eraseDups] at hkey
  obtain ⟨link, hlink, rfl⟩ := List.mem_map.1 hkey
  have hedge : edgeOf link ∈ (ofModules modules).edgesFrom link.1 :=
    mem_edgesFrom_ofModules.2 ⟨rfl, hlink, rfl⟩
  rw [edgesFrom_of_mem_entries h] at hedge
  exact List.ne_nil_of_mem hedge

/-- Of edges that come up file by file, those of one source come from the
files of that path. -/
theorem map_target_filter_source (toTargets : Module → List String)
    (modules : List Module) (s : String) :
    ((modules.flatMap fun m => (toTargets m).map
        fun target => (⟨m.path, target, .importing⟩ : Edge)).filter
      (·.source = s)).map Edge.target =
      (modules.filter (·.path = s)).flatMap toTargets := by
  induction modules with
  | nil => rfl
  | cons m modules ih =>
      rw [List.flatMap_cons, List.filter_append, List.map_append, ih]
      by_cases hs : m.path = s
      · rw [List.filter_cons_of_pos (by simpa using hs), List.flatMap_cons,
          List.filter_eq_self.2 (by simp [hs]), List.map_map]
        exact congrArg (· ++ _) (List.map_id _)
      · rw [List.filter_cons_of_neg (by simpa using hs),
          List.filter_eq_nil_iff.2 (by simp [hs])]
        rfl

/-- A name leads to what the dependencies of the files of that path
mean. -/
theorem targets_ofModules (s : String) :
    (ofModules modules).targets s =
      (modules.filter (·.path = s)).flatMap fun m =>
        m.dependencies.filterMap (meant? (modules.map Module.path)) := by
  unfold targets
  rw [edgesFrom_eq_filter]
  exact map_target_filter_source _ modules s

/-- The edges that leave a name are told by where they lead. -/
theorem edgesFrom_eq_map_targets (modules : List Module) (s : String) :
    (ofModules modules).edgesFrom s =
      ((ofModules modules).targets s).map (⟨s, ·, .importing⟩) := by
  unfold targets
  rw [List.map_map]
  symm
  refine (List.map_congr_left fun e he => ?_).trans (List.map_id _)
  obtain ⟨source, target, kind⟩ := e
  obtain ⟨rfl, -, rfl⟩ := mem_edgesFrom_ofModules.1 he
  rfl

/-- A name that leads somewhere has an entry with its edges. -/
theorem find?_edges_ofModules (modules : List Module) (s : String) :
    (ofModules modules).edges.find? s =
      if (ofModules modules).targets s = [] then none
      else some (((ofModules modules).targets s).map (⟨s, ·, .importing⟩)) := by
  have hedges := edgesFrom_eq_map_targets modules s
  unfold edgesFrom at hedges
  cases hfind : (ofModules modules).edges.find? s with
  | none =>
      rw [hfind, Option.getD_none, eq_comm, List.map_eq_nil_iff] at hedges
      rw [if_pos hedges]
  | some es =>
      rw [hfind, Option.getD_some] at hedges
      have hne := ne_nil_of_mem_entries
        ((OrderedMap.find?_eq_some_iff (nodup_keys_edges modules)).1 hfind)
      rw [hedges] at hne
      rw [if_neg fun hnil => hne (List.map_eq_nil_iff.2 hnil), ← hedges]

/-- There is an edge for each dependency that means something. -/
theorem edgeCount_ofModules (modules : List Module) :
    (ofModules modules).edgeCount =
      (modules.flatMap Module.dependencies).countP fun d =>
        (meant? (modules.map Module.path) d).isSome := by
  unfold edgeCount
  rw [(allEdges_perm modules).length_eq, ← additions_eq_map_links]
  unfold additions
  rw [List.length_flatMap, List.countP_flatMap]
  refine congrArg List.sum (List.map_congr_left fun m _ => ?_)
  rw [List.length_map, List.length_filterMap_eq_countP]
  rfl

-- ========================================================== dependents

/-- The dependents are kept under the names of the nodes. -/
theorem keys_dependents_ofModules (modules : List Module) :
    (ofModules modules).dependents.keys =
      (modules.map Module.path).eraseDups := by
  rw [dependents_ofModules, OrderedMap.keys_fill, OrderedMap.keys_fill_empty]
  have hold : ((links modules).map Prod.snd).removeAll
      (modules.map Module.path).eraseDups = [] := by
    refine List.filter_eq_nil_iff.2 fun t ht => ?_
    obtain ⟨link, hlink, rfl⟩ := List.mem_map.1 ht
    simpa using List.mem_map.1 (ends_of_mem_links hlink).2
  rw [hold]
  simp

/-- The dependents of a name are the sources of the edges that come up
with it as their target. -/
theorem getD_dependents (modules : List Module) (t : String) :
    ((ofModules modules).dependents.find? t).getD [] =
      (((additions modules).filter (·.target = t)).map Edge.source).eraseDups := by
  rw [dependents_ofModules, OrderedMap.find?_fill, OrderedMap.foldl_list,
    OrderedMap.find?_fill, OrderedMap.foldl_keep, additions_eq_map_links,
    List.filter_map, List.map_map]
  exact foldl_addNew_nil _

/-- There is a list of dependents for each path. -/
theorem find?_dependents_ofModules (modules : List Module) (t : String) :
    (ofModules modules).dependents.find? t =
      if t ∈ modules.map Module.path then
        some (((ofModules modules).dependents.find? t).getD [])
      else none := by
  have hkey : t ∈ modules.map Module.path ↔
      ∃ ss, (ofModules modules).dependents.find? t = some ss := by
    rw [← OrderedMap.mem_keys_iff, keys_dependents_ofModules, List.mem_eraseDups]
  cases hfind : (ofModules modules).dependents.find? t with
  | none =>
      rw [if_neg]
      rw [hkey, hfind]
      simp
  | some ss => rw [if_pos (hkey.2 ⟨ss, hfind⟩), Option.getD_some]

/-- One table is the other read backwards. -/
theorem mem_dependents_iff {s t : String} :
    s ∈ ((ofModules modules).dependents.find? t).getD [] ↔
      ∃ e ∈ (ofModules modules).edgesFrom s, e.target = t := by
  rw [getD_dependents, List.mem_eraseDups, List.mem_map]
  simp only [edgesFrom_eq_filter, List.mem_filter, decide_eq_true_eq]
  constructor
  · intro h
    obtain ⟨e, ⟨he, ht⟩, hs⟩ := h
    exact ⟨e, ⟨he, hs⟩, ht⟩
  · intro h
    obtain ⟨e, ⟨he, hs⟩, ht⟩ := h
    exact ⟨e, ⟨he, ht⟩, hs⟩

-- ======================================================== built graphs

/-- How the tables of a built graph fit together: the nodes are the paths
of the usable files, each with the numbers of the last file of that path;
every list of edges holds some, from its own source and between nodes;
and the dependents are the edges read backwards, each source once, in the
order in which its first edge comes up. -/
theorem build_shape (submissions : List Submission) :
    let files := submissions.filterMap Submission.module?
    let g := build submissions
    g.nodes.keys = (files.map Module.path).eraseDups ∧
    g.dependents.keys = g.nodes.keys ∧
    (∀ p n, g.nodes.find? p = some n ↔
      ∃ m, (files.filter (·.path = p)).getLast? = some m ∧
        n = ⟨p, m.imports.length, m.exports.length⟩) ∧
    g.edges.keys.Nodup ∧
    (∀ s es, (s, es) ∈ g.edges.entries →
      es ≠ [] ∧ es = (additions files).filter (·.source = s) ∧
      ∀ e ∈ es, e.source = s ∧ e.kind = .importing ∧
        e.source ∈ g.nodes.keys ∧ e.target ∈ g.nodes.keys) ∧
    ∀ t ss, g.dependents.find? t = some ss →
      ss.Nodup ∧
      ss = (((additions files).filter (·.target = t)).map Edge.source).eraseDups ∧
      ∀ s, s ∈ ss ↔ ∃ e ∈ g.edgesFrom s, e.target = t := by
  intro files g
  have hkeys := keys_nodes_ofModules files
  refine ⟨hkeys, (keys_dependents_ofModules files).trans hkeys.symm,
    fun p n => find?_nodes_eq_some_iff, nodup_keys_edges files,
    fun s es hentry => ?_, fun t ss hfind => ?_⟩
  · have hfrom := edgesFrom_of_mem_entries hentry
    rw [edgesFrom_eq_filter] at hfrom
    refine ⟨ne_nil_of_mem_entries hentry, hfrom.symm, fun e he => ?_⟩
    rw [← hfrom, List.mem_filter, decide_eq_true_eq] at he
    obtain ⟨hsource, htarget, hkind⟩ := ends_of_mem_additions he.1
    exact ⟨he.2, hkind, mem_keys_nodes_iff.2 hsource,
      mem_keys_nodes_iff.2 htarget⟩
  · have hss : ((ofModules files).dependents.find? t).getD [] = ss := by
      rw [show (ofModules files).dependents.find? t = some ss from hfind,
        Option.getD_some]
    have hlist := getD_dependents files t
    rw [hss] at hlist
    refine ⟨?_, hlist, fun s => ?_⟩
    · rw [hlist]
      exact nodup_eraseDups _
    · rw [← hss]
      exact mem_dependents_iff

/-- What each name of a built graph leads to: file by file and dependency
by dependency what stands for it among the usable files, an exact match
before one of the stem. What is not usable makes no difference. -/
theorem targets_build (submissions : List Submission) :
    let files := submissions.filterMap Submission.module?
    let paths := files.map Module.path
    let g := build submissions
    (∀ s, g.targets s = (files.filter (·.path = s)).flatMap fun m =>
      m.dependencies.filterMap (meant? paths)) ∧
    g.edgeCount = (files.flatMap Module.dependencies).countP
      (fun d => (meant? paths d).isSome) ∧
    (∀ d ∈ paths, meant? paths d = some d) ∧
    (∀ d, d ∉ paths → ∀ t, meant? paths d = some t ↔
      IsFirst (SourceName.stem · = SourceName.stem d) paths t) ∧
    g = build (submissions.filter (·.module?.isSome)) := by
  intro files paths g
  refine ⟨fun s => targets_ofModules s, edgeCount_ofModules files,
    fun d hd => ?_, fun d hd t => ?_, ?_⟩
  · exact meant?_eq_some_iff.2 (.inl ⟨hd, rfl⟩)
  · rw [meant?_eq_some_iff]
    constructor
    · intro h
      rcases h with ⟨hmem, _⟩ | ⟨_, hfirst⟩
      · exact absurd hmem hd
      · exact hfirst
    · intro hfirst
      exact .inr ⟨hd, hfirst⟩
  · show ofModules _ = ofModules _
    rw [List.filterMap_filter]
    refine congrArg ofModules (List.filterMap_congr fun s _ => ?_)
    cases s.module? with
    | none => rfl
    | some m => rfl

end ModuleAtlas.Graph

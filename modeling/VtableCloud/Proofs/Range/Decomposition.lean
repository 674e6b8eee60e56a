import VtableCloud.Proofs.Hierarchy.Monotone
import VtableCloud.Proofs.Range.Lookups

/-!
# The runs of a member are its only decomposition

* `Hierarchy.CollectsTo`: collecting runs with no bound on the depth, and `CollectsTo.unique`: it
  comes to one table at most;
* `CollectsTo.of_collectRuns?`: what is collected within a bound is collected without one;
* `CollectsTo.exists_new`: what it adds are runs of new nodes, each once;
* `Hierarchy.Decomposes`, `decomposes_iff`: the runs that hold just the descendants of a node;
* `preorderRuns_canonical`: the members of a cloud, and only they, are given these runs.
-/

namespace VtableCloud

namespace Hierarchy

/-! ## Collecting without a bound -/

/-- The runs of some nodes are collected one after the other. A node whose runs are known is passed
over. Those of another are put together from its place and the runs of its children, after these
have been collected, however deep that leads. -/
inductive CollectsTo (h : Hierarchy) (preorder : List NodeId) :
    List NodeId → RunTable → RunTable → Prop
  | done (table : RunTable) : CollectsTo h preorder [] table table
  | known {id : NodeId} {ids : List NodeId} {table after : RunTable} :
      (table.lookup id).isSome = true → CollectsTo h preorder ids table after →
        CollectsTo h preorder (id :: ids) table after
  | fresh {id : NodeId} {ids : List NodeId} {table middle after : RunTable} {node : Node}
      {own : Nat} {below : List (List Run)} :
      table.lookup id = none → h.nodes[id]? = some node →
        CollectsTo h preorder node.children table middle → preorder.idxOf? id = some own →
        node.children.mapM (fun c => middle.lookup c) = some below →
        CollectsTo h preorder ids
          ((id, coalesce (⟨own, own + 1⟩ :: below.flatten)) :: middle) after →
        CollectsTo h preorder (id :: ids) table after

variable {h : Hierarchy} {preorder : List NodeId} {root id : NodeId} {runs : List Run}

namespace CollectsTo

variable {ids : List NodeId} {table after : RunTable}

theorem unique (first : h.CollectsTo preorder ids table after) :
    ∀ {other : RunTable}, h.CollectsTo preorder ids table other → after = other := by
  induction first with
  | done =>
    rintro _ ⟨⟩
    rfl
  | known found _ ih =>
    intro other second
    cases second with
    | known _ rest => exact ih rest
    | fresh new => simp [new] at found
  | fresh new here _ place children _ deeper later =>
    intro other second
    cases second with
    | known found => simp [new] at found
    | fresh _ here' deeper' place' children' rest' =>
      obtain rfl := Option.some.inj (here.symm.trans here')
      obtain rfl := deeper deeper'
      obtain rfl := Option.some.inj (place.symm.trans place')
      obtain rfl := Option.some.inj (children.symm.trans children')
      exact later rest'

/-- Nodes are collected without a bound if each of them is. -/
theorem of_foldlM {collect? : RunTable → NodeId → Option RunTable} {ids : List NodeId}
    (each : ∀ {id : NodeId} {table middle : RunTable}, collect? table id = some middle →
      ∀ {ids : List NodeId} {after : RunTable}, h.CollectsTo preorder ids middle after →
        h.CollectsTo preorder (id :: ids) table after) :
    ∀ {table after : RunTable}, ids.foldlM collect? table = some after →
      h.CollectsTo preorder ids table after := by
  induction ids with
  | nil =>
    rintro table after ⟨⟩
    exact .done table
  | cons id ids ih =>
    intro table after collected
    rw [List.foldlM_cons] at collected
    obtain ⟨middle, first, rest⟩ := Option.bind_eq_some_iff.mp collected
    exact each first (ih rest)

/-- What is collected within a bound on the depth is collected without one. -/
theorem of_collectRuns? {depth : Nat} : ∀ {id : NodeId} {table middle : RunTable},
    h.collectRuns? preorder depth table id = some middle →
      ∀ {ids : List NodeId} {after : RunTable}, h.CollectsTo preorder ids middle after →
        h.CollectsTo preorder (id :: ids) table after := by
  induction depth with
  | zero => exact nofun
  | succ depth ih =>
    intro id table middle collected ids after rest
    rw [collectRuns?] at collected
    split at collected
    · rename_i found
      obtain rfl := Option.some.inj collected
      exact .known found rest
    · rename_i new
      obtain ⟨node, here, collected⟩ := Option.bind_eq_some_iff.mp collected
      obtain ⟨deeper, children, collected⟩ := Option.bind_eq_some_iff.mp collected
      obtain ⟨own, place, collected⟩ := Option.bind_eq_some_iff.mp collected
      obtain ⟨below, looked, collected⟩ := Option.bind_eq_some_iff.mp collected
      obtain rfl := Option.some.inj collected
      rw [Bool.not_eq_true, Option.isSome_eq_false_iff, Option.isNone_iff_eq_none] at new
      exact .fresh new here (of_foldlM ih children) place looked rest

end CollectsTo

theorem mem_keys_iff {table : RunTable} {d : NodeId} :
    d ∈ table.map (·.1) ↔ Known table d := by
  induction table with
  | nil => simp [Known]
  | cons entry table ih =>
    obtain ⟨id, runs⟩ := entry
    rw [known_cons, List.map_cons, List.mem_cons, ih]

theorem known_append {a b : RunTable} {d : NodeId} :
    Known (a ++ b) d ↔ Known a d ∨ Known b d := by
  simp [← mem_keys_iff]

theorem children_of_getElem? {node : Node} (here : h.nodes[id]? = some node) :
    h.children id = node.children := by
  simp [children, Hierarchy.node, List.getD_eq_getElem?_getD, here]

/-- The runs that are added stand in front. They are of nodes below the ones to be collected, each
of them new and there once. -/
theorem CollectsTo.exists_new {ids : List NodeId} {table after : RunTable} (wf : h.WellFormed)
    (run : h.CollectsTo preorder ids table after) :
    ∃ new : RunTable, after = new ++ table ∧ (new.map (·.1)).Nodup ∧
      ∀ d, Known new d → ¬ Known table d ∧ ∃ id ∈ ids, h.Descends id d := by
  induction run with
  | done => exact ⟨[], rfl, List.nodup_nil, nofun⟩
  | known _ _ ih =>
    obtain ⟨new, rfl, once, each⟩ := ih
    refine ⟨new, rfl, once, fun d known => ?_⟩
    obtain ⟨absent, above, listed, path⟩ := each d known
    exact ⟨absent, above, List.mem_cons_of_mem _ listed, path⟩
  | @fresh id ids table middle after node own below absent here _ _ _ _ deeper later =>
    obtain ⟨children, rfl, onceChildren, eachChild⟩ := deeper
    obtain ⟨rest, rfl, onceRest, eachRest⟩ := later
    have edge {c : NodeId} (hc : c ∈ node.children) : c ∈ h.children id :=
      children_of_getElem? here ▸ hc
    -- Its children do not lead back to the node, so its own entry is the first.
    have acyclic : ¬ Known children id := by
      intro again
      obtain ⟨-, c, hc, back⟩ := eachChild id again
      exact wf.acyclic_childGraph id ⟨c, succ_childGraph h id ▸ edge hc, back⟩
    refine ⟨rest ++ (id, _) :: children, by rw [List.append_assoc]; rfl, ?_, fun d known => ?_⟩
    · rw [List.map_append, List.map_cons, List.nodup_append, List.nodup_cons, mem_keys_iff]
      refine ⟨onceRest, ⟨acyclic, onceChildren⟩, ?_⟩
      rintro d hd _ hd' rfl
      refine (eachRest d (mem_keys_iff.mp hd)).1 (known_cons.mpr ?_)
      rcases List.mem_cons.mp hd' with rfl | hd'
      · exact Or.inl rfl
      · exact Or.inr (known_append.mpr (Or.inl (mem_keys_iff.mp hd')))
    · rcases known_append.mp known with known | known
      · obtain ⟨unknown, above, listed, path⟩ := eachRest d known
        refine ⟨fun before => unknown ?_, above, List.mem_cons_of_mem _ listed, path⟩
        exact known_cons.mpr (Or.inr (known_append.mpr (Or.inr before)))
      rcases known_cons.mp known with rfl | known
      · refine ⟨?_, _, List.mem_cons_self .., .refl _⟩
        rintro ⟨runs, found⟩
        rw [absent] at found
        cases found
      · obtain ⟨unknown, c, hc, path⟩ := eachChild d known
        exact ⟨unknown, id, List.mem_cons_self .., (descends_of_mem_children (edge hc)).trans path⟩

namespace WellFormed

theorem collectsTo_preorderRuns (wf : h.WellFormed) (lt : root < h.size) :
    h.CollectsTo (h.preorder root) [root] [] (h.preorderRuns (h.preorder root)) := by
  have found := wf.preorderRuns?_eq lt
  obtain ⟨rest, first⟩ := h.childGraph.preorder_eq_cons root
  have cons : h.preorder root = root :: rest := first
  rw [cons] at found ⊢
  exact .of_collectRuns? found (.done _)

/-- The nodes with runs are the members of the cloud. -/
theorem perm_keys_preorderRuns (wf : h.WellFormed) (lt : root < h.size) :
    ((h.preorderRuns (h.preorder root)).map (·.1)).Perm (h.preorder root) := by
  obtain ⟨new, eq, once, each⟩ := (wf.collectsTo_preorderRuns lt).exists_new wf
  rw [List.append_nil] at eq
  rw [← eq] at once each
  refine (List.perm_ext_iff_of_nodup once (Digraph.nodup_preorder _ root)).mpr fun d => ?_
  show _ ↔ d ∈ h.preorder root
  rw [mem_preorder]
  constructor
  · intro listed
    obtain ⟨-, _, here, path⟩ := each d (mem_keys_iff.mp listed)
    rwa [List.mem_singleton.mp here] at path
  · exact fun path => mem_keys_iff.mpr (wf.known_preorderRuns path)

end WellFormed

/-! ## Decompositions -/

/-- Runs that are not empty, ascend and leave gaps between them, and that hold just the places
which the nodes reached from a node have in the preorder of a root. -/
structure Decomposes (h : Hierarchy) (root id : NodeId) (runs : List Run) : Prop where
  inhabited : ∀ r ∈ runs, r.start < r.stop
  apart : runs.Pairwise fun a b => a.stop < b.start
  holds : ∀ p, Covers runs p ↔ ∃ d, (h.preorder root)[p]? = some d ∧ h.Descends id d

/-- A node has one decomposition. -/
theorem decomposes_iff : h.Decomposes root id runs ↔ runs = h.runsBelow root id := by
  have below : Separated 0 (h.runsBelow root id) := separated_runsFrom _ 0
  constructor
  · rintro ⟨inhabited, apart, holds⟩
    have separated : Separated 0 runs := ⟨fun r hr => ⟨Nat.zero_le _, inhabited r hr⟩, apart⟩
    exact separated.ext below fun p => (holds p).trans covers_runsBelow.symm
  · rintro rfl
    exact ⟨fun r hr => nonempty_of_mem_runsBelow hr, below.2, fun p => covers_runsBelow⟩

end Hierarchy

/-- Collecting the runs of a cloud comes to an end, with one table. It has one entry for each member
of the cloud and no others, and this is the only list of runs that are not empty, ascend, leave gaps
and hold just the places of the nodes reached from the member. -/
theorem preorderRuns_canonical {records : List ClassRecord} {h : Hierarchy}
    (ingested : Hierarchy.ofRecords records = .ok h) {root : NodeId} (lt : root < h.size) :
    let table := h.preorderRuns (h.preorder root)
    (∀ other, h.CollectsTo (h.preorder root) [root] [] other ↔ other = table) ∧
    (table.map (·.1)).Perm (h.preorder root) ∧
    ∀ id, (h.Descends root id → ∃ runs, table.lookup id = some runs ∧
        ∀ others, h.Decomposes root id others ↔ others = runs) ∧
      (¬ h.Descends root id → table.lookup id = none) := by
  intro table
  have wf := Hierarchy.wellFormed_of_ofRecords ingested
  have run := wf.collectsTo_preorderRuns lt
  have keys := wf.perm_keys_preorderRuns lt
  refine ⟨fun other => ⟨fun second => second.unique run, fun same => same ▸ run⟩, keys,
    fun id => ⟨fun path => ?_, fun apart => ?_⟩⟩
  · exact ⟨_, wf.lookup_preorderRuns path, fun others => Hierarchy.decomposes_iff⟩
  · cases found : table.lookup id with
    | none => rfl
    | some runs =>
      have listed := keys.mem_iff.mp (Hierarchy.mem_keys_iff.mpr ⟨runs, found⟩)
      exact absurd (Hierarchy.mem_preorder.mp listed) apart

/-- In the diamond the places of a class and of the class below it touch, so they are one run. -/
theorem diamond_runs_canonical :
    0 < Diamond.hierarchy.size ∧ Diamond.hierarchy.preorder 0 = [0, 1, 3, 2] ∧
    (Diamond.hierarchy.preorderRuns (Diamond.hierarchy.preorder 0)).lookup 2 = some [⟨2, 4⟩] ∧
    ∀ others, Diamond.hierarchy.Decomposes 0 2 others ↔ others = [⟨2, 4⟩] := by
  have preorder : Diamond.hierarchy.preorder 0 = [0, 1, 3, 2] := by decide +kernel
  have path : Diamond.hierarchy.Descends 0 2 :=
    Hierarchy.mem_preorder.mp (by rw [preorder]; decide)
  have runs : (Diamond.hierarchy.preorderRuns (Diamond.hierarchy.preorder 0)).lookup 2 =
      some [⟨2, 4⟩] := by decide +kernel
  obtain ⟨-, -, canonical⟩ := preorderRuns_canonical Diamond.ofRecords_records Diamond.size_pos
  obtain ⟨_, found, only⟩ := (canonical 2).1 path
  obtain rfl := Option.some.inj (runs.symm.trans found)
  exact ⟨Diamond.size_pos, preorder, runs, only⟩

end VtableCloud

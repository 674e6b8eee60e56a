import VtableCloud.Hierarchy.OfRecords
import VtableCloud.Proofs.Attempt
import VtableCloud.Proofs.Digraph.Topological
import VtableCloud.Proofs.Lists

/-!
# The clouds that nodes are assigned to

Nodes are taken parents first. `Assigned` is what holds of the roots once some nodes have
been taken: a node without parents is its own root, and all others have the root of each
of their parents.

* `assigned_of_assignClouds`: it holds of all nodes in the end;
* `Assigned.owner`: the root of a node that was taken has no parents and is above the node;
* `assignClouds_error`: a node is only refused if two nodes without parents are above it.
-/

namespace VtableCloud

namespace Hierarchy

/-- The parents of a node in a list of nodes. -/
def parentsIn (nodes : List Node) (id : NodeId) : List NodeId := (nodes.getD id default).parents

theorem succ_parentsIn (nodes : List Node) (id : NodeId) :
    (Digraph.mk (nodes.map (·.parents))).succ id = parentsIn nodes id := by
  simp only [Digraph.succ, parentsIn, List.getD_eq_getElem?_getD, List.getElem?_map]
  cases nodes[id]? <;> rfl

/-- The roots found when the nodes listed have been taken. -/
structure Assigned (nodes : List Node) (taken : List NodeId) (owners : List NodeId) : Prop where
  length : owners.length = nodes.length
  parentless : ∀ x ∈ taken, parentsIn nodes x = [] → owners.getD x x = x
  inherited : ∀ x ∈ taken, ∀ p ∈ parentsIn nodes x, owners.getD p p = owners.getD x x
  untouched : ∀ x, x ∉ taken → owners.getD x x = x

theorem assigned_start (nodes : List Node) : Assigned nodes [] (List.range nodes.length) where
  length := List.length_range
  parentless := by simp
  inherited := by simp
  untouched := by
    intro x _
    rcases Nat.lt_or_ge x nodes.length with lt | ge
    · simp [lt]
    · simp [ge]

variable {nodes : List Node} {taken owners next : List NodeId} {id : NodeId}

theorem assignCloud_ok (h : assignCloud nodes owners id = .ok next) :
    (parentsIn nodes id = [] ∧ next = owners) ∨
    ∃ first rest, parentsIn nodes id = first :: rest ∧
      (∀ p ∈ rest, owners.getD p p = owners.getD first first) ∧
      next = owners.set id (owners.getD first first) := by
  simp only [assignCloud] at h
  split at h
  · rename_i none
    exact Or.inl ⟨none, (Except.ok.inj h).symm⟩
  · rename_i first rest eq
    split at h
    · cases h
    · rename_i agree
      refine Or.inr ⟨first, rest, eq, fun p hp => ?_, (Except.ok.inj h).symm⟩
      simpa using List.find?_eq_none.mp agree p hp

/-- A node without parents is taken as it is. -/
theorem Assigned.take_parentless (inv : Assigned nodes taken owners)
    (none : parentsIn nodes id = []) : Assigned nodes (taken ++ [id]) owners where
  length := inv.length
  parentless x hx empty := by
    rcases List.mem_append.mp hx with hx | hx
    · exact inv.parentless x hx empty
    · obtain rfl := List.mem_singleton.mp hx
      by_cases old : x ∈ taken
      · exact inv.parentless x old none
      · exact inv.untouched x old
  inherited x hx p hp := by
    rcases List.mem_append.mp hx with hx | hx
    · exact inv.inherited x hx p hp
    · rw [List.mem_singleton.mp hx, none] at hp
      cases hp
  untouched x hx := inv.untouched x fun old => hx (List.mem_append_left _ old)

theorem lt_length_of_mem_parentsIn {p : NodeId} (hp : p ∈ parentsIn nodes id) :
    id < nodes.length := by
  rw [← succ_parentsIn] at hp
  have inside := Digraph.lt_size_of_mem_succ hp
  rwa [Digraph.size, List.length_map] at inside

/-- A node with parents gets the root of its parents. If it was taken before it has this root
already, and no node that was taken hangs on one that was not. -/
theorem Assigned.take_inherited (inv : Assigned nodes taken owners) {first : NodeId}
    {rest : List NodeId} (eq : parentsIn nodes id = first :: rest)
    (agree : ∀ p ∈ rest, owners.getD p p = owners.getD first first)
    (closed : ∀ x ∈ taken, ∀ p ∈ parentsIn nodes x, p ∈ taken)
    (ready : ∀ p ∈ parentsIn nodes id, p ∈ taken) :
    Assigned nodes (taken ++ [id]) (owners.set id (owners.getD first first)) := by
  have inside : id < owners.length := by
    rw [inv.length]
    exact lt_length_of_mem_parentsIn (p := first) (by simp [eq])
  have value (x : NodeId) : (owners.set id (owners.getD first first)).getD x x =
      if x = id then owners.getD first first else owners.getD x x := by
    rw [getD_set]
    simp only [inside, and_true]
  have kept (x : NodeId) (hx : x ∈ taken) :
      (owners.set id (owners.getD first first)).getD x x = owners.getD x x := by
    rw [value]
    split
    · rename_i same
      subst same
      exact inv.inherited x hx first (by simp [eq])
    · rfl
  have joined (p : NodeId) (hp : p ∈ parentsIn nodes id) :
      owners.getD p p = owners.getD first first := by
    rw [eq] at hp
    rcases List.mem_cons.mp hp with rfl | hp
    · rfl
    · exact agree p hp
  refine ⟨by simp [inv.length], fun x hx empty => ?_, fun x hx p hp => ?_, fun x hx => ?_⟩
  · rcases List.mem_append.mp hx with hx | hx
    · rw [kept x hx]
      exact inv.parentless x hx empty
    · rw [List.mem_singleton.mp hx, eq] at empty
      cases empty
  · rcases List.mem_append.mp hx with hx | hx
    · rw [kept x hx, kept p (closed x hx p hp)]
      exact inv.inherited x hx p hp
    · obtain rfl := List.mem_singleton.mp hx
      rw [kept p (ready p hp), value, if_pos rfl, joined p hp]
  · rw [value, if_neg fun same => hx (by simp [same])]
    exact inv.untouched x fun old => hx (List.mem_append_left _ old)

theorem Assigned.take (inv : Assigned nodes taken owners)
    (h : assignCloud nodes owners id = .ok next)
    (closed : ∀ x ∈ taken, ∀ p ∈ parentsIn nodes x, p ∈ taken)
    (ready : ∀ p ∈ parentsIn nodes id, p ∈ taken) : Assigned nodes (taken ++ [id]) next := by
  rcases assignCloud_ok h with ⟨none, rfl⟩ | ⟨first, rest, eq, agree, rfl⟩
  · exact inv.take_parentless none
  · exact inv.take_inherited eq agree closed ready

/-- Nodes in an order with parents first have their parents among them. -/
theorem parentsIn_closed {order : List NodeId}
    (first : (Digraph.mk (nodes.map (·.parents))).ParentsFirst order) :
    ∀ x ∈ order, ∀ p ∈ parentsIn nodes x, p ∈ order := by
  intro x hx p hp
  rw [← succ_parentsIn] at hp
  exact first.mem hx hp

theorem assigned_from {order : List NodeId}
    (first : (Digraph.mk (nodes.map (·.parents))).ParentsFirst order) :
    ∀ {rest taken owners next : List NodeId}, order = taken ++ rest → Assigned nodes taken owners →
      rest.foldlM (assignCloud nodes) owners = .ok next → Assigned nodes order next := by
  intro rest
  induction rest with
  | nil =>
    intro taken owners next eq inv h
    obtain rfl : owners = next := Except.ok.inj h
    rw [eq, List.append_nil]
    exact inv
  | cons id rest ih =>
    intro taken owners next eq inv h
    rw [List.foldlM_cons] at h
    obtain ⟨middle, step, h⟩ := bind_ok.mp h
    have ready : ∀ p ∈ parentsIn nodes id, p ∈ taken := by
      rw [← succ_parentsIn]
      exact first taken id rest eq
    have closed := parentsIn_closed (eq ▸ first).of_append
    exact ih (by simp [eq]) (inv.take step closed ready) h

/-- Taken parents first, all nodes get the roots of their parents. -/
theorem assigned_of_assignClouds {order owners : List NodeId}
    (first : (Digraph.mk (nodes.map (·.parents))).ParentsFirst order)
    (h : assignClouds nodes order = .ok owners) : Assigned nodes order owners :=
  assigned_from first rfl (assigned_start nodes) h

/-- When all nodes have been taken, a node has the root of every node above it. -/
theorem Assigned.root_of_reaches (inv : Assigned nodes taken owners)
    (all : ∀ x < nodes.length, x ∈ taken) {x y : NodeId}
    (path : (Digraph.mk (nodes.map (·.parents))).Reaches x y) :
    owners.getD y y = owners.getD x x := by
  induction path with
  | refl => rfl
  | step edge _ ih =>
    rw [succ_parentsIn] at edge
    exact ih.trans (inv.inherited _ (all _ (lt_length_of_mem_parentsIn edge)) _ edge)

/-- The root of a node that was taken has no parents and is the node or above it. -/
theorem Assigned.owner (inv : Assigned nodes taken owners)
    (founded : WellFounded fun p x => p ∈ parentsIn nodes x)
    (closed : ∀ x ∈ taken, ∀ p ∈ parentsIn nodes x, p ∈ taken) {x : NodeId} (hx : x ∈ taken) :
    parentsIn nodes (owners.getD x x) = [] ∧
      (Digraph.mk (nodes.map (·.parents))).Reaches x (owners.getD x x) := by
  induction x using founded.induction with
  | _ x ih =>
    cases eq : parentsIn nodes x with
    | nil =>
      rw [inv.parentless x hx eq]
      exact ⟨eq, .refl x⟩
    | cons p rest =>
      have up : p ∈ parentsIn nodes x := by simp [eq]
      rw [← inv.inherited x hx p up]
      obtain ⟨none, path⟩ := ih p up (closed x hx p up)
      exact ⟨none, .step (succ_parentsIn nodes x ▸ up) path⟩

theorem assignCloud_error {e : HierarchyError} (h : assignCloud nodes owners id = .error e) :
    ∃ first ∈ parentsIn nodes id, ∃ other ∈ parentsIn nodes id,
      owners.getD first first ≠ owners.getD other other ∧
      e = .mixedParentClouds (nodes.getD id default).key
        (nodes.getD (owners.getD first first) default).key.className
        (nodes.getD (owners.getD other other) default).key.className := by
  simp only [assignCloud] at h
  split at h
  · cases h
  · rename_i first rest eq
    have parents : parentsIn nodes id = first :: rest := eq
    rw [parents]
    split at h
    · rename_i other found
      have differs : owners.getD other other ≠ owners.getD first first := by
        simpa using List.find?_some found
      have listed := List.mem_cons_of_mem first (List.mem_of_find?_eq_some found)
      exact ⟨first, by simp, other, listed, differs.symm, (Except.error.inj h).symm⟩
    · cases h

/-- A node is only refused if two nodes without parents are above it, and these are named. -/
theorem assignClouds_error {order : List NodeId} {e : HierarchyError}
    (first : (Digraph.mk (nodes.map (·.parents))).ParentsFirst order)
    (founded : WellFounded fun p x => p ∈ parentsIn nodes x)
    (h : assignClouds nodes order = .error e) :
    ∃ id < nodes.length, ∃ a b, a ≠ b ∧ parentsIn nodes a = [] ∧ parentsIn nodes b = [] ∧
      (Digraph.mk (nodes.map (·.parents))).Reaches id a ∧
      (Digraph.mk (nodes.map (·.parents))).Reaches id b ∧
      e = .mixedParentClouds (nodes.getD id default).key (nodes.getD a default).key.className
        (nodes.getD b default).key.className := by
  obtain ⟨before, id, after, owners, rfl, passed, failed⟩ := foldlM_error h
  have ordered := first.of_append
  have inv := assigned_of_assignClouds ordered passed
  have closed := parentsIn_closed ordered
  have owner (p : NodeId) (hp : p ∈ parentsIn nodes id) :
      parentsIn nodes (owners.getD p p) = [] ∧
        (Digraph.mk (nodes.map (·.parents))).Reaches id (owners.getD p p) := by
    have up : p ∈ (Digraph.mk (nodes.map (·.parents))).succ id := succ_parentsIn nodes id ▸ hp
    obtain ⟨none, path⟩ := inv.owner founded closed (first before id after rfl p up)
    exact ⟨none, .step up path⟩
  obtain ⟨p, hp, q, hq, differs, eq⟩ := assignCloud_error failed
  exact ⟨id, lt_length_of_mem_parentsIn hp, _, _, differs, (owner p hp).1, (owner q hq).1,
    (owner p hp).2, (owner q hq).2, eq⟩

end Hierarchy

end VtableCloud

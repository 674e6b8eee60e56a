import VtableCloud.Digraph.Preorder
import VtableCloud.Proofs.Lists

/-!
# What a depth-first preorder lists

The traversal keeps one invariant, `Traversal`: nothing is listed twice, all that is
listed or waiting is reached from the root, and a node that still has an unlisted
successor has it on the stack, below nothing but successors of nodes listed since.

* `Round`, `Rounds`: the loop round by round, and `rounds_preorder`: it ends with an empty stack;
* `nodup_preorder`, `mem_preorder`: each reachable node once and no other;
* `depthFirst_preorder`: a node listed while an edge is pending hangs on a node listed
  at or after the edge's source;
* `forward_of_reaches`: in an acyclic graph, all that stands between a node and a later
  descendant of it is reached from the node along edges that lead forward in the order.
-/

namespace VtableCloud

namespace Digraph

variable {g : Digraph}

theorem Reaches.trans {a b c : Nat} (ab : g.Reaches a b) (bc : g.Reaches b c) :
    g.Reaches a c := by
  induction ab with
  | refl => exact bc
  | step edge _ ih => exact .step edge (ih bc)

theorem Reaches.edge {a b : Nat} (h : b ∈ g.succ a) : g.Reaches a b := .step h (.refl b)

/-- A node listed while a successor of an earlier node is still unlisted has an edge from
a node in between. -/
def DepthFirst (g : Digraph) (order : List Nat) : Prop :=
  ∀ i j a x c : Nat, i < j → order[i]? = some a → order[j]? = some x →
    c ∈ g.succ a → c ∉ order.take (j + 1) →
    ∃ k d, i ≤ k ∧ k < j ∧ order[k]? = some d ∧ x ∈ g.succ d

/-- What holds while a traversal from a root is under way. -/
structure Traversal (g : Digraph) (root : Nat) (stack visited : List Nat) : Prop where
  once : visited.Nodup
  entered : root ∈ visited ∨ root ∈ stack
  reached : ∀ x, x ∈ visited ∨ x ∈ stack → g.Reaches root x
  pending : ∀ i a c : Nat, visited[i]? = some a → c ∈ g.succ a → c ∉ visited →
    ∃ above below, stack = above ++ c :: below ∧
      ∀ t ∈ above ++ [c], ∃ k d : Nat, i ≤ k ∧ visited[k]? = some d ∧ t ∈ g.succ d
  attached : g.DepthFirst visited

namespace Traversal

variable {root x : Nat} {stack visited : List Nat}

theorem start (g : Digraph) (root : Nat) : g.Traversal root [root] [] where
  once := List.nodup_nil
  entered := Or.inr (List.mem_singleton.mpr rfl)
  reached := by
    intro x hx
    obtain rfl : x = root := by simpa using hx
    exact .refl x
  pending := by simp
  attached := by simp [DepthFirst]

/-- Passing over a node that has been visited. -/
theorem skip (t : g.Traversal root (x :: stack) visited) (hx : x ∈ visited) :
    g.Traversal root stack visited where
  once := t.once
  entered := by
    rcases t.entered with h | h
    · exact Or.inl h
    · rcases List.mem_cons.mp h with rfl | h
      · exact Or.inl hx
      · exact Or.inr h
  reached y hy := t.reached y (hy.imp id (List.mem_cons_of_mem x))
  pending := by
    intro i a c ha hc new
    obtain ⟨above, below, eq, from_⟩ := t.pending i a c ha hc new
    cases above with
    | nil =>
      obtain ⟨rfl, -⟩ := List.cons.inj eq
      exact absurd hx new
    | cons y above =>
      obtain ⟨rfl, rfl⟩ := List.cons.inj eq
      exact ⟨above, below, rfl, fun u hu => from_ u (List.mem_cons_of_mem _ hu)⟩
  attached := t.attached

/-- The node on top hangs on a node listed at or after any node with an edge pending. -/
theorem attached_top (t : g.Traversal root (x :: stack) visited) {i a c : Nat}
    (ha : visited[i]? = some a) (hc : c ∈ g.succ a) (new : c ∉ visited) :
    ∃ k d : Nat, i ≤ k ∧ visited[k]? = some d ∧ x ∈ g.succ d := by
  obtain ⟨above, below, eq, from_⟩ := t.pending i a c ha hc new
  cases above with
  | nil =>
    obtain ⟨rfl, -⟩ := List.cons.inj eq
    exact from_ x (by simp)
  | cons y above =>
    obtain ⟨rfl, -⟩ := List.cons.inj eq
    exact from_ x (by simp)

/-- What is pending when the node on top has been listed and its unlisted successors stacked. -/
theorem visit_pending (t : g.Traversal root (x :: stack) visited) {i a c : Nat}
    (ha : (visited ++ [x])[i]? = some a) (hc : c ∈ g.succ a) (new : c ∉ visited ++ [x]) :
    ∃ above below, (g.succ x).filter (· ∉ visited ++ [x]) ++ stack = above ++ c :: below ∧
      ∀ u ∈ above ++ [c], ∃ k d : Nat, i ≤ k ∧ (visited ++ [x])[k]? = some d ∧ u ∈ g.succ d := by
  have unlisted : c ∉ visited := fun h => new (List.mem_append_left _ h)
  rcases Nat.lt_or_ge i visited.length with lt | ge
  · rw [List.getElem?_append_left lt] at ha
    obtain ⟨above, below, eq, from_⟩ := t.pending i a c ha hc unlisted
    cases above with
    | nil =>
      obtain ⟨rfl, -⟩ := List.cons.inj eq
      exact absurd (by simp) new
    | cons y above =>
      obtain ⟨rfl, rfl⟩ := List.cons.inj eq
      refine ⟨(g.succ x).filter (· ∉ visited ++ [x]) ++ above, below, by simp, ?_⟩
      intro u hu
      rw [List.append_assoc] at hu
      rcases List.mem_append.mp hu with hu | hu
      · exact ⟨visited.length, x, Nat.le_of_lt lt, by simp, (List.mem_filter.mp hu).1⟩
      · obtain ⟨k, d, le, hd, edge⟩ := from_ u (List.mem_cons_of_mem _ hu)
        exact ⟨k, d, le, by rw [List.getElem?_append_left (by grind)]; exact hd, edge⟩
  · obtain ⟨rfl, rfl⟩ : i = visited.length ∧ x = a := by grind
    have fresh : c ∈ (g.succ x).filter (· ∉ visited ++ [x]) := by
      simpa [hc] using new
    obtain ⟨above, below, eq⟩ := List.append_of_mem fresh
    refine ⟨above, below ++ stack, by rw [eq, List.append_assoc, List.cons_append], fun u hu => ?_⟩
    have member : u ∈ (g.succ x).filter (· ∉ visited ++ [x]) := by
      rw [eq]
      grind
    exact ⟨visited.length, x, Nat.le_refl _, by simp, (List.mem_filter.mp member).1⟩

/-- The node on top hangs on a listed one, if anything is pending. -/
theorem visit_attached (t : g.Traversal root (x :: stack) visited) :
    g.DepthFirst (visited ++ [x]) := by
  intro i j a y c lt ha hy hc new
  rcases Nat.lt_or_ge j visited.length with inside | ge
  · rw [List.getElem?_append_left (by omega)] at ha hy
    rw [List.take_append_of_le_length (by omega)] at new
    obtain ⟨k, d, le, before, hd, edge⟩ := t.attached i j a y c lt ha hy hc new
    exact ⟨k, d, le, before, by rw [List.getElem?_append_left (by omega)]; exact hd, edge⟩
  · obtain ⟨rfl, rfl⟩ : j = visited.length ∧ x = y := by grind
    rw [List.getElem?_append_left lt] at ha
    have unlisted : c ∉ visited := fun h => new (by grind)
    obtain ⟨k, d, le, hd, edge⟩ := t.attached_top ha hc unlisted
    have before : k < visited.length := by grind
    exact ⟨k, d, le, before, by rw [List.getElem?_append_left before]; exact hd, edge⟩

/-- Listing the node on top and stacking its unlisted successors. -/
theorem visit (t : g.Traversal root (x :: stack) visited) (hx : x ∉ visited) :
    g.Traversal root ((g.succ x).filter (· ∉ visited ++ [x]) ++ stack) (visited ++ [x]) where
  once := List.nodup_append.mpr ⟨t.once, by simp, by grind⟩
  entered := by
    rcases t.entered with h | h
    · exact Or.inl (List.mem_append_left _ h)
    · rcases List.mem_cons.mp h with rfl | h
      · exact Or.inl (by simp)
      · exact Or.inr (List.mem_append_right _ h)
  reached := by
    have top : g.Reaches root x := t.reached x (Or.inr (by simp))
    intro y hy
    rcases hy with hy | hy
    · rcases List.mem_append.mp hy with hy | hy
      · exact t.reached y (Or.inl hy)
      · obtain rfl := List.mem_singleton.mp hy
        exact top
    · rcases List.mem_append.mp hy with hy | hy
      · exact top.trans (.edge (List.mem_filter.mp hy).1)
      · exact t.reached y (Or.inr (List.mem_cons_of_mem x hy))
  pending _ _ _ ha hc new := t.visit_pending ha hc new
  attached := t.visit_attached

/-- With an empty stack nothing is pending. -/
theorem closed (t : g.Traversal root [] visited) {a c : Nat} (ha : a ∈ visited)
    (hc : c ∈ g.succ a) : c ∈ visited := by
  obtain ⟨i, hi⟩ := List.mem_iff_getElem?.mp ha
  by_cases new : c ∈ visited
  · exact new
  · obtain ⟨above, below, eq, -⟩ := t.pending i a c hi hc new
    simp at eq

end Traversal

/-- The number of edges that start at nodes not yet visited. -/
def openEdges (g : Digraph) (visited : List Nat) : Nat :=
  (((List.range g.size).filter (· ∉ visited)).flatMap g.succ).length

theorem openEdges_nil (g : Digraph) : g.openEdges [] = g.edgeCount := by
  have rows : (List.range g.size).map g.succ = g.rows := by
    refine List.ext_getElem? fun i => ?_
    rcases Nat.lt_or_ge i g.size with lt | ge
    · have : i < g.rows.length := lt
      simp [succ, lt, this]
    · have : g.rows.length ≤ i := ge
      simp [ge, this]
  have all : (List.range g.size).filter (· ∉ []) = List.range g.size := by simp
  rw [edgeCount, ← rows, openEdges, all, List.flatMap]

theorem length_flatMap_visit {f : Nat → List Nat} {x : Nat} {visited nodes : List Nat}
    (once : nodes.Nodup) (hx : x ∉ visited) :
    ((nodes.filter (· ∉ visited ++ [x])).flatMap f).length +
        (if x ∈ nodes then (f x).length else 0) =
      ((nodes.filter (· ∉ visited)).flatMap f).length := by
  induction nodes with
  | nil => simp
  | cons n nodes ih =>
    obtain ⟨notin, once⟩ := List.nodup_cons.mp once
    have ih := ih once
    by_cases eq : n = x
    · subst eq
      simp [hx, notin] at ih ⊢
      omega
    · by_cases seen : n ∈ visited <;> simp [seen, eq, Ne.symm eq] at ih ⊢ <;> omega

theorem openEdges_visit {x : Nat} {visited : List Nat} (hx : x ∉ visited) :
    g.openEdges (visited ++ [x]) + (g.succ x).length = g.openEdges visited := by
  have total := length_flatMap_visit (f := g.succ) (List.nodup_range (n := g.size)) hx
  rcases Nat.lt_or_ge x g.size with lt | ge
  · simpa [openEdges, lt] using total
  · simpa [openEdges, Nat.not_lt.mpr ge, succ_of_size_le ge] using total

/-! ## The loop -/

/-- One round of the loop over a stack and the nodes visited so far: the node on top is passed over
if it has been visited, and otherwise listed, with its unvisited successors in its place. -/
inductive Round (g : Digraph) : List Nat × List Nat → List Nat × List Nat → Prop
  | pass {x : Nat} {stack visited : List Nat} : x ∈ visited →
    Round g (x :: stack, visited) (stack, visited)
  | list {x : Nat} {stack visited : List Nat} : x ∉ visited →
    Round g (x :: stack, visited) ((g.succ x).filter (· ∉ visited ++ [x]) ++ stack, visited ++ [x])

/-- A number of rounds, one after the other. -/
inductive Rounds (g : Digraph) : Nat → List Nat × List Nat → List Nat × List Nat → Prop
  | none (s : List Nat × List Nat) : Rounds g 0 s s
  | next {n : Nat} {s t u : List Nat × List Nat} : g.Round s t → Rounds g n t u →
    Rounds g (n + 1) s u

/-- The number of nodes on the stack and of edges that may still put a node there. -/
def pendingWork (g : Digraph) (s : List Nat × List Nat) : Nat := s.1.length + g.openEdges s.2

variable {s t : List Nat × List Nat} {n : Nat}

/-- Each round leaves less to do. -/
theorem Round.pendingWork_lt (round : g.Round s t) : g.pendingWork t < g.pendingWork s := by
  cases round with
  | pass => simp [pendingWork]
  | @list x stack visited unvisited =>
    have edges := openEdges_visit (g := g) unvisited
    have filtered := List.length_filter_le (fun c => decide (c ∉ visited ++ [x])) (g.succ x)
    simp only [pendingWork, List.length_append, List.length_cons]
    omega

theorem Rounds.le_pendingWork (rounds : g.Rounds n s t) :
    n + g.pendingWork t ≤ g.pendingWork s := by
  induction rounds with
  | none => omega
  | next round _ ih =>
    have less := round.pendingWork_lt
    omega

/-- The loop with enough rounds allowed goes on until the stack is empty. -/
theorem rounds_preorderFrom : ∀ {fuel : Nat} {stack visited : List Nat},
    g.pendingWork (stack, visited) ≤ fuel →
    ∃ n, g.Rounds n (stack, visited) ([], g.preorderFrom fuel stack visited) := by
  intro fuel
  induction fuel with
  | zero =>
    intro stack visited enough
    have empty : stack.length = 0 := by
      simp only [pendingWork] at enough
      omega
    obtain rfl := List.length_eq_zero_iff.mp empty
    exact ⟨0, .none _⟩
  | succ fuel ih =>
    intro stack visited enough
    cases stack with
    | nil => exact ⟨0, .none _⟩
    | cons x stack =>
      rw [preorderFrom]
      by_cases seen : x ∈ visited
      · have round : g.Round (x :: stack, visited) _ := .pass seen
        rw [if_pos seen]
        obtain ⟨n, rest⟩ := ih (Nat.le_of_lt_succ (Nat.lt_of_lt_of_le round.pendingWork_lt enough))
        exact ⟨n + 1, .next round rest⟩
      · have round : g.Round (x :: stack, visited) _ := .list seen
        rw [if_neg seen]
        obtain ⟨n, rest⟩ := ih (Nat.le_of_lt_succ (Nat.lt_of_lt_of_le round.pendingWork_lt enough))
        exact ⟨n + 1, .next round rest⟩

/-- At the start one node is on the stack, and every edge may put another one there. -/
theorem pendingWork_start (g : Digraph) (root : Nat) :
    g.pendingWork ([root], []) = g.edgeCount + 1 := by
  rw [pendingWork, openEdges_nil, Nat.add_comm]
  rfl

theorem rounds_preorder (g : Digraph) (root : Nat) :
    ∃ n, g.Rounds n ([root], []) ([], g.preorder root) :=
  rounds_preorderFrom (Nat.le_of_eq (pendingWork_start g root))

theorem Traversal.round {root : Nat} (traversal : g.Traversal root s.1 s.2)
    (round : g.Round s t) : g.Traversal root t.1 t.2 := by
  cases round with
  | pass seen => exact traversal.skip seen
  | list unseen => exact traversal.visit unseen

theorem Traversal.rounds {root : Nat} (traversal : g.Traversal root s.1 s.2)
    (rounds : g.Rounds n s t) : g.Traversal root t.1 t.2 := by
  induction rounds with
  | none => exact traversal
  | next round _ ih => exact ih (traversal.round round)

theorem traversal_preorder (g : Digraph) (root : Nat) :
    g.Traversal root [] (g.preorder root) := by
  obtain ⟨n, rounds⟩ := rounds_preorder g root
  exact (Traversal.start g root).rounds rounds

/-! ## The nodes listed -/

theorem nodup_preorder (g : Digraph) (root : Nat) : (g.preorder root).Nodup :=
  (g.traversal_preorder root).once

theorem depthFirst_preorder (g : Digraph) (root : Nat) : g.DepthFirst (g.preorder root) :=
  (g.traversal_preorder root).attached

theorem succ_mem_preorder {root a c : Nat} (ha : a ∈ g.preorder root) (hc : c ∈ g.succ a) :
    c ∈ g.preorder root :=
  (g.traversal_preorder root).closed ha hc

theorem mem_preorder_of_reaches {root a c : Nat} (ha : a ∈ g.preorder root)
    (h : g.Reaches a c) : c ∈ g.preorder root := by
  induction h with
  | refl => exact ha
  | step edge _ ih => exact ih (succ_mem_preorder ha edge)

/-- The preorder lists the nodes that the root reaches, and no other. -/
@[simp] theorem mem_preorder {root x : Nat} : x ∈ g.preorder root ↔ g.Reaches root x := by
  have t := g.traversal_preorder root
  constructor
  · intro h
    exact t.reached x (Or.inl h)
  · intro h
    have entered : root ∈ g.preorder root := by simpa using t.entered
    exact mem_preorder_of_reaches entered h

/-- What has been listed stays in front. -/
theorem preorderFrom_extends : ∀ (fuel : Nat) (stack visited : List Nat),
    visited <+: g.preorderFrom fuel stack visited := by
  intro fuel
  induction fuel with
  | zero => exact fun _ visited => List.prefix_refl visited
  | succ fuel ih =>
    intro stack visited
    cases stack with
    | nil => exact List.prefix_refl visited
    | cons x stack =>
      rw [preorderFrom]
      split
      · exact ih stack visited
      · exact (List.prefix_append visited [x]).trans (ih _ _)

/-- The root stands first. -/
theorem preorder_eq_cons (g : Digraph) (root : Nat) : ∃ rest, g.preorder root = root :: rest := by
  obtain ⟨rest, eq⟩ := preorderFrom_extends (g := g) g.edgeCount
    ((g.succ root).filter (· ∉ [root]) ++ []) [root]
  exact ⟨rest, eq.symm⟩

/-! ## Descendants stand together -/

/-- A place of an order is reached from another along edges that lead to later places. -/
inductive Forward (g : Digraph) (order : List Nat) : Nat → Nat → Prop
  | refl (i : Nat) : Forward g order i i
  | step {i j k a b : Nat} : i < j → order[i]? = some a → order[j]? = some b →
      b ∈ g.succ a → Forward g order j k → Forward g order i k

namespace Forward

variable {order : List Nat} {i j k : Nat}

theorem trans (first : g.Forward order i j) (second : g.Forward order j k) :
    g.Forward order i k := by
  induction first with
  | refl => exact second
  | step lt ha hb edge _ ih => exact .step lt ha hb edge (ih second)

theorem le (h : g.Forward order i j) : i ≤ j := by
  induction h with
  | refl => exact Nat.le_refl _
  | step lt _ _ _ _ ih => exact Nat.le_trans (Nat.le_of_lt lt) ih

/-- What does not get less along an edge that leads forward does not along a path of them. -/
theorem mono {f : Nat → Nat} (h : g.Forward order i j)
    (each : ∀ i j a b, i < j → order[i]? = some a → order[j]? = some b → b ∈ g.succ a →
      f i ≤ f j) : f i ≤ f j := by
  induction h with
  | refl => exact Nat.le_refl _
  | step lt ha hb edge _ ih => exact Nat.le_trans (each _ _ _ _ lt ha hb edge) ih

/-- A path of forward edges to another place ends with one. -/
theorem last (h : g.Forward order i j) (lt : i < j) :
    ∃ k a b, k < j ∧ order[k]? = some a ∧ order[j]? = some b ∧ b ∈ g.succ a := by
  induction h with
  | refl => omega
  | @step i m j a b before ha hb edge rest ih =>
    rcases Nat.lt_or_eq_of_le rest.le with further | rfl
    · exact ih further
    · exact ⟨i, a, b, before, ha, hb, edge⟩

theorem reaches (h : g.Forward order i j) {a b : Nat} (ha : order[i]? = some a)
    (hb : order[j]? = some b) : g.Reaches a b := by
  induction h generalizing a with
  | refl =>
    obtain rfl : a = b := Option.some.inj (ha.symm.trans hb)
    exact .refl a
  | step _ ha' hc edge _ ih =>
    obtain rfl := Option.some.inj (ha.symm.trans ha')
    exact .step edge (ih hc hb)

end Forward

variable {order : List Nat}

/-- What stands between the ends of a forward edge hangs on its source. -/
theorem DepthFirst.forward_of_edge (dfs : g.DepthFirst order) (once : order.Nodup)
    {i k a c : Nat} (lt : i < k) (ha : order[i]? = some a) (hc : order[k]? = some c)
    (edge : c ∈ g.succ a) (j : Nat) (lo : i ≤ j) (hi : j ≤ k) : g.Forward order i j := by
  induction j using Nat.strongRecOn with
  | ind j ih =>
    by_cases last : j = k
    · exact .step (last ▸ lt) ha (last ▸ hc) edge (.refl j)
    by_cases first : j = i
    · exact first ▸ .refl j
    have within : j < order.length := by grind
    have late : c ∉ order.take (j + 1) := by
      intro early
      obtain ⟨m, hm⟩ := List.mem_iff_getElem?.mp early
      rw [List.getElem?_take] at hm
      split at hm
      · have := place_unique once hm hc
        omega
      · simp at hm
    obtain ⟨m, d, le, before, hd, hanging⟩ :=
      dfs i j a order[j] c (by omega) ha (by simp) edge late
    have path := ih m before le (by omega)
    exact path.trans (.step before hd (by simp) hanging (.refl j))

/-- In an acyclic graph, what stands between a node and a later descendant of it hangs on
the node. A path to the descendant cannot lead back before the node: all in between would
hang on a node there, and the node with it. -/
theorem DepthFirst.forward_of_reaches (dfs : g.DepthFirst order) (once : order.Nodup)
    (closed : ∀ a ∈ order, ∀ c ∈ g.succ a, c ∈ order) (acyclic : g.Acyclic) {a c : Nat}
    (path : g.Reaches a c) : ∀ {i k : Nat}, order[i]? = some a → order[k]? = some c → i < k →
    ∀ j, i ≤ j → j ≤ k → g.Forward order i j := by
  induction path with
  | refl a =>
    intro i k hi hk lt
    have := place_unique once hi hk
    omega
  | @step a b c edge rest ih =>
    intro i k hi hk lt j lo hj
    obtain ⟨m, hm⟩ := List.mem_iff_getElem?.mp (closed a (List.mem_of_getElem? hi) b edge)
    rcases Nat.lt_trichotomy i m with after | same | before
    · have near := dfs.forward_of_edge once after hi hm edge
      by_cases within : j ≤ m
      · exact near j lo within
      · have far := ih hm hk (by omega) j (by omega) hj
        exact (near m (Nat.le_of_lt after) (Nat.le_refl m)).trans far
    · obtain rfl : a = b := Option.some.inj ((same ▸ hi).symm.trans hm)
      exact absurd ⟨a, edge, .refl a⟩ (acyclic a)
    · have back := ih hm hk (by omega) i (by omega) (by omega)
      exact absurd ⟨b, edge, back.reaches hm hi⟩ (acyclic a)

/-- All that stands in a preorder from a node up to a later descendant of it is reached
from the node along edges that lead forward. -/
theorem forward_of_reaches (acyclic : g.Acyclic) {root a c i k : Nat}
    (ha : (g.preorder root)[i]? = some a) (hc : (g.preorder root)[k]? = some c) (lt : i < k)
    (path : g.Reaches a c) (j : Nat) (lo : i ≤ j) (hi : j ≤ k) :
    g.Forward (g.preorder root) i j :=
  (depthFirst_preorder g root).forward_of_reaches (nodup_preorder g root)
    (fun _ ha _ hc => succ_mem_preorder ha hc) acyclic path ha hc lt j lo hi

end Digraph

end VtableCloud

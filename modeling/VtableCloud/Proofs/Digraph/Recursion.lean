import VtableCloud.Proofs.Digraph.DepthFirst

/-!
# The loop over a stack does what the recursion does

`Visits` is the depth-first traversal by recursion: the nodes to do are taken one after another, and
one that has not been visited is listed and its successors are done before the rest. Nothing bounds
the depth of this recursion. What waits on the stack of the loop is what the open calls of the
recursion have left to do, except that successors already visited are not put there.

* `Visits.unique`, `Visits.append_iff`, `Visits.of_filter`: what the recursion lists;
* `Rounds.visits`: a loop that comes to its end lists the same;
* `visits_iff`, `rounds_iff`: both list the preorder and nothing else;
* `Visits.foldl_visit`: so does the recursion with its depth bounded by the number of nodes.
-/

namespace VtableCloud

namespace Digraph

variable {g : Digraph} {i : Nat} {todo visited mid out : List Nat}

/-- Doing some nodes in turn, with some visited before and some in the end. -/
inductive Visits (g : Digraph) : List Nat → List Nat → List Nat → Prop
  | done (visited : List Nat) : Visits g [] visited visited
  | seen {i : Nat} {todo visited out : List Nat} : i ∈ visited → Visits g todo visited out →
    Visits g (i :: todo) visited out
  | fresh {i : Nat} {todo visited mid out : List Nat} : i ∉ visited →
    Visits g (g.succ i) (visited ++ [i]) mid → Visits g todo mid out →
    Visits g (i :: todo) visited out

namespace Visits

/-- What has been visited stays in front. -/
theorem keeps (visits : g.Visits todo visited out) : visited <+: out := by
  induction visits with
  | done => exact List.prefix_refl _
  | seen _ _ ih => exact ih
  | @fresh i _ visited _ _ _ _ _ below behind =>
    exact (List.prefix_append visited [i]).trans (below.trans behind)

/-- The recursion has one result. -/
theorem unique (first : g.Visits todo visited out) :
    ∀ {out' : List Nat}, g.Visits todo visited out' → out = out' := by
  induction first with
  | done =>
    intro out' second
    cases second
    rfl
  | seen marked _ ih =>
    intro out' second
    cases second with
    | seen _ rest => exact ih rest
    | fresh unmarked => exact absurd marked unmarked
  | fresh unmarked _ _ below behind =>
    intro out' second
    cases second with
    | seen marked => exact absurd marked unmarked
    | fresh _ inner rest =>
      obtain rfl := below inner
      exact behind rest

/-- What is to be done first is done before the rest. -/
theorem append_iff {rest : List Nat} : g.Visits (todo ++ rest) visited out ↔
    ∃ mid, g.Visits todo visited mid ∧ g.Visits rest mid out := by
  constructor
  · intro visits
    induction todo generalizing visited with
    | nil => exact ⟨visited, .done visited, visits⟩
    | cons i todo ih =>
      cases visits with
      | seen marked behind =>
        obtain ⟨mid, first, second⟩ := ih behind
        exact ⟨mid, .seen marked first, second⟩
      | fresh unmarked below behind =>
        obtain ⟨mid, first, second⟩ := ih behind
        exact ⟨mid, .fresh unmarked below first, second⟩
  · rintro ⟨mid, first, second⟩
    induction first with
    | done => exact second
    | seen marked _ ih => exact .seen marked (ih second)
    | fresh unmarked below _ _ ih => exact .fresh unmarked below (ih second)

/-- Leaving out nodes that have been visited changes nothing. -/
theorem of_filter {marked : List Nat} (old : ∀ x ∈ marked, x ∈ visited)
    (visits : g.Visits (todo.filter (· ∉ marked)) visited out) : g.Visits todo visited out := by
  induction todo generalizing visited with
  | nil => exact visits
  | cons i todo ih =>
    by_cases skipped : i ∈ marked
    · rw [List.filter_cons_of_neg (by simpa using skipped)] at visits
      exact .seen (old i skipped) (ih old visits)
    · rw [List.filter_cons_of_pos (by simpa using skipped)] at visits
      cases visits with
      | seen marked behind => exact .seen marked (ih old behind)
      | @fresh _ _ _ mid _ unmarked below behind =>
        have longer : ∀ x ∈ marked, x ∈ mid := fun x hx =>
          below.keeps.subset (List.mem_append_left _ (old x hx))
        exact .fresh unmarked below (ih longer behind)

end Visits

/-! ## The loop -/

/-- One round of the loop leaves the recursion the same result. -/
theorem Round.visits {s t : List Nat × List Nat} (round : g.Round s t)
    (rest : g.Visits t.1 t.2 out) : g.Visits s.1 s.2 out := by
  cases round with
  | pass seen => exact .seen seen rest
  | @list x stack visited unseen =>
    obtain ⟨mid, below, behind⟩ := Visits.append_iff.mp rest
    exact .fresh unseen (below.of_filter fun _ hx => hx) behind

/-- A loop that comes to its end does what waits on the stack as the recursion does. -/
theorem Rounds.visits {s t : List Nat × List Nat} {n : Nat} (rounds : g.Rounds n s t)
    (ended : t.1 = []) : g.Visits s.1 s.2 t.2 := by
  induction rounds with
  | none s =>
    rw [ended]
    exact .done s.2
  | next round _ ih => exact round.visits (ih ended)

theorem visits_iff {root : Nat} : g.Visits [root] [] out ↔ out = g.preorder root := by
  obtain ⟨n, rounds⟩ := rounds_preorder g root
  have visits : g.Visits [root] [] (g.preorder root) := rounds.visits rfl
  constructor
  · exact fun other => other.unique visits
  · rintro rfl
    exact visits

theorem rounds_iff {root : Nat} :
    (∃ n, g.Rounds n ([root], []) ([], out)) ↔ out = g.preorder root := by
  constructor
  · rintro ⟨n, rounds⟩
    exact visits_iff.mp (rounds.visits rfl)
  · rintro rfl
    exact rounds_preorder g root

/-! ## Bounded depth -/

/-- The number of nodes that have not been visited. -/
def unvisited (g : Digraph) (visited : List Nat) : Nat :=
  (List.range g.size).countP (· ∉ visited)

theorem unvisited_le (sub : visited ⊆ mid) : g.unvisited mid ≤ g.unvisited visited := by
  refine List.countP_mono_left fun x _ new => ?_
  rw [decide_eq_true_eq] at new ⊢
  exact fun old => new (sub old)

theorem unvisited_lt (inside : i < g.size) (new : i ∉ visited) :
    g.unvisited (visited ++ [i]) < g.unvisited visited := by
  have total := length_flatMap_visit (f := fun x => [x]) (List.nodup_range (n := g.size)) new
  simp only [List.flatMap_singleton', List.mem_range, inside, if_true, List.length_singleton]
    at total
  rw [unvisited, unvisited, List.countP_eq_length_filter, List.countP_eq_length_filter]
  omega

/-- The recursion never nests deeper than there are nodes left to visit. -/
theorem Visits.foldl_visit (visits : g.Visits todo visited out) :
    ∀ {depth : Nat}, g.unvisited visited < depth → todo.foldl (g.visit depth) visited = out := by
  induction visits with
  | done => exact fun _ => rfl
  | seen marked _ ih =>
    intro depth enough
    obtain ⟨depth, rfl⟩ := Nat.exists_eq_add_one_of_ne_zero (Nat.ne_zero_of_lt enough)
    rw [List.foldl_cons, visit, if_pos marked]
    exact ih enough
  | @fresh i todo visited mid out unmarked inner _ below behind =>
    intro depth enough
    obtain ⟨depth, rfl⟩ := Nat.exists_eq_add_one_of_ne_zero (Nat.ne_zero_of_lt enough)
    rw [List.foldl_cons, visit, if_neg unmarked]
    have nested : (g.succ i).foldl (g.visit depth) (visited ++ [i]) = mid := by
      rcases Nat.lt_or_ge i g.size with lt | ge
      · have fewer := unvisited_lt lt unmarked
        exact below (by omega)
      · rw [succ_of_size_le ge] at inner ⊢
        cases inner
        rfl
    rw [nested]
    apply behind
    have fewer : g.unvisited mid ≤ g.unvisited visited :=
      unvisited_le fun x hx => inner.keeps.subset (List.mem_append_left _ hx)
    omega

theorem visit_eq_preorder {root depth : Nat} (enough : g.size < depth) :
    g.visit depth [] root = g.preorder root := by
  have visits : g.Visits [root] [] (g.preorder root) := visits_iff.mpr rfl
  refine visits.foldl_visit (Nat.lt_of_le_of_lt ?_ enough)
  simp [unvisited]

end Digraph

end VtableCloud

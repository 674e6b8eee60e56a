import VtableCloud.Digraph.Search
import VtableCloud.Proofs.Digraph.DepthFirst

/-!
# What a search finds

A search keeps one invariant, `Pursuit`: it sees and stacks nothing but nodes that the
start reaches, the successors of what it has seen are seen or stacked, and it has not
seen the goal. A search that ends with nothing stacked has seen all that the start
reaches, and so the start does not reach the goal.

* `Pursuit.skip`, `Pursuit.expand`: one node taken off the worklist;
* `Pursuit.searchFrom_iff`: the rest of a search, by induction on the steps left;
* `search_iff`: a search meets the goal if the start reaches it, and otherwise it does not.
-/

namespace VtableCloud

namespace Digraph

variable {g : Digraph}

/-- What holds while a search from `start` for `goal` is under way. -/
structure Pursuit (g : Digraph) (start goal : Nat) (work seen : List Nat) : Prop where
  entered : start ∈ seen ∨ start ∈ work
  reached : ∀ x ∈ work, g.Reaches start x
  followed : ∀ a ∈ seen, ∀ c ∈ g.succ a, c ∈ seen ∨ c ∈ work
  missed : goal ∉ seen

namespace Pursuit

variable {start goal i : Nat} {work seen : List Nat}

theorem begin (g : Digraph) (start goal : Nat) : g.Pursuit start goal [start] [] where
  entered := by simp
  reached := by
    intro x hx
    obtain rfl := List.mem_singleton.mp hx
    exact .refl x
  followed := by simp
  missed := by simp

/-- Passing over a node that has been seen. -/
theorem skip (p : g.Pursuit start goal (i :: work) seen) (hi : i ∈ seen) :
    g.Pursuit start goal work seen := by
  have still {x : Nat} (h : x ∈ seen ∨ x ∈ i :: work) : x ∈ seen ∨ x ∈ work := by
    by_cases same : x = i
    · exact .inl (same ▸ hi)
    · simpa [same] using h
  constructor
  case entered => exact still p.entered
  case reached => exact fun x hx => p.reached x (List.mem_cons_of_mem i hx)
  case followed => exact fun a ha c hc => still (p.followed a ha c hc)
  case missed => exact p.missed

/-- Marking a node and putting its successors on the worklist. -/
theorem expand (p : g.Pursuit start goal (i :: work) seen) (other : i ≠ goal) :
    g.Pursuit start goal ((g.succ i).reverse ++ work) (seen ++ [i]) := by
  have still {x : Nat} (h : x ∈ seen ∨ x ∈ i :: work) :
      x ∈ seen ++ [i] ∨ x ∈ (g.succ i).reverse ++ work := by
    grind
  constructor
  case entered => exact still p.entered
  case reached =>
    have top : g.Reaches start i := p.reached i List.mem_cons_self
    intro x hx
    rw [List.mem_append, List.mem_reverse] at hx
    cases hx with
    | inl edge => exact top.trans (.edge edge)
    | inr hx => exact p.reached x (List.mem_cons_of_mem i hx)
  case followed =>
    intro a ha c hc
    rw [List.mem_append, List.mem_singleton] at ha
    cases ha with
    | inl ha => exact still (p.followed a ha c hc)
    | inr same =>
      subst same
      exact .inr (List.mem_append_left _ (List.mem_reverse.mpr hc))
  case missed =>
    rw [List.mem_append, List.mem_singleton, not_or]
    exact ⟨p.missed, Ne.symm other⟩

/-- With an empty worklist all that the start reaches has been seen. -/
theorem not_reaches (p : g.Pursuit start goal [] seen) : ¬ g.Reaches start goal := by
  have closed {a b : Nat} (path : g.Reaches a b) (ha : a ∈ seen) : b ∈ seen := by
    induction path with
    | refl => exact ha
    | step edge _ ih => exact ih (by simpa using p.followed _ ha _ edge)
  intro path
  exact p.missed (closed path (by simpa using p.entered))

/-- A search with enough steps left finds the goal if the start reaches it. -/
theorem searchFrom_iff : ∀ {fuel : Nat} {work seen : List Nat},
    g.Pursuit start goal work seen → work.length + g.openEdges seen ≤ fuel →
    (g.searchFrom goal fuel work seen = true ↔ g.Reaches start goal) := by
  intro fuel
  induction fuel with
  | zero =>
    intro work seen p enough
    obtain rfl : work = [] := List.length_eq_zero_iff.mp (by omega)
    exact iff_of_false Bool.false_ne_true p.not_reaches
  | succ fuel ih =>
    intro work seen p enough
    cases work with
    | nil => exact iff_of_false Bool.false_ne_true p.not_reaches
    | cons i work =>
      rw [List.length_cons] at enough
      rw [searchFrom]
      by_cases met : i = goal
      · rw [if_pos met]
        exact iff_of_true rfl (met ▸ p.reached i List.mem_cons_self)
      rw [if_neg met]
      by_cases marked : i ∈ seen
      · rw [if_pos marked]
        exact ih (p.skip marked) (by omega)
      · rw [if_neg marked]
        apply ih (p.expand met)
        have edges := openEdges_visit (g := g) marked
        rw [List.length_append, List.length_reverse]
        omega

end Pursuit

/-- A search meets the goal if and only if the start reaches it. -/
theorem search_iff {start goal : Nat} : g.search start goal = true ↔ g.Reaches start goal :=
  (Pursuit.begin g start goal).searchFrom_iff (by simp [openEdges_nil, Nat.add_comm])

end Digraph

end VtableCloud

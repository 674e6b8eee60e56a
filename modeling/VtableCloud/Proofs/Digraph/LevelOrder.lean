import Mathlib.Data.Nat.Find
import VtableCloud.Digraph.LevelOrder
import VtableCloud.Proofs.Digraph.Release

/-!
# What a breadth-first order lists

A run keeps one invariant, `Frontier`: what has been taken off the queue or still waits in it is
reached from the root and stands there once, and all successors of what has been taken off are among
it. What waits hangs on nodes that have been taken off, so that a node queued earlier hangs on a
node taken off no later.

* `Walk.snoc`, `Walk.last`, `exists_distance`: walks, and least ones;
* `Frontier.step`, `Frontier.run`: one node taken off, and the rest of a run by induction on the
  steps left;
* `Frontier.nearer`: nodes that come earlier are no further from the root;
* `levelByLevel_levelOrder`: the order lists what the root reaches, each node once, nearer ones
  first.
-/

namespace VtableCloud

namespace Digraph

variable {g : Digraph}

/-! ## Walks -/

namespace Walk

variable {n a b c : Nat}

theorem snoc (walk : g.Walk n a b) (edge : c ∈ g.succ b) : g.Walk (n + 1) a c := by
  induction walk with
  | refl => exact .step edge (.refl c)
  | step first _ ih => exact .step first (ih edge)

theorem reaches (walk : g.Walk n a b) : g.Reaches a b := by
  induction walk with
  | refl => exact .refl _
  | step first _ ih => exact .step first ih

/-- A walk along some edges ends with one. -/
theorem last (walk : g.Walk (n + 1) a c) : ∃ b, g.Walk n a b ∧ c ∈ g.succ b := by
  induction n generalizing a with
  | zero =>
    cases walk with
    | step first rest =>
      cases rest
      exact ⟨a, .refl a, first⟩
  | succ n ih =>
    cases walk with
    | step first rest =>
      obtain ⟨b, walk, edge⟩ := ih rest
      exact ⟨b, .step first walk, edge⟩

end Walk

theorem exists_walk {a b : Nat} (path : g.Reaches a b) : ∃ n, g.Walk n a b := by
  induction path with
  | refl a => exact ⟨0, .refl a⟩
  | step edge _ ih =>
    obtain ⟨n, walk⟩ := ih
    exact ⟨n + 1, .step edge walk⟩

theorem exists_distance {a b : Nat} (path : g.Reaches a b) : ∃ n, g.Distance n a b := by
  classical
  have some_walk := exists_walk path
  exact ⟨Nat.find some_walk, Nat.find_spec some_walk, fun m walk => Nat.find_min' some_walk walk⟩

/-! ## The run -/

/-- The successors of a node that are not marked yet. -/
def fresh (g : Digraph) (i : Nat) (marked : List Nat) : List Nat :=
  (g.succ i).filter (· ∉ marked)

@[simp] theorem mem_fresh {i c : Nat} {marked : List Nat} :
    c ∈ g.fresh i marked ↔ c ∈ g.succ i ∧ c ∉ marked := by
  simp [fresh]

theorem levelOrderFrom_cons {fuel i : Nat} {queue marked : List Nat} :
    g.levelOrderFrom (fuel + 1) (i :: queue) marked =
      i :: g.levelOrderFrom fuel (queue ++ g.fresh i marked) (marked ++ g.fresh i marked) := rfl

/-- What holds while nodes are taken off the queue. -/
structure Frontier (g : Digraph) (root : Nat) (done queue : List Nat) : Prop where
  first : (done ++ queue)[0]? = some root
  once : (done ++ queue).Nodup
  reached : ∀ x ∈ done ++ queue, g.Reaches root x
  closed : ∀ a ∈ done, ∀ c ∈ g.succ a, c ∈ done ++ queue
  hung : ∀ c ∈ done ++ queue, c = root ∨ ∃ a ∈ done, c ∈ g.succ a
  early : ∀ p j k a c d : Nat, j ≤ k → (done ++ queue)[j]? = some c →
    (done ++ queue)[k]? = some d → done[p]? = some a → d ∈ g.succ a →
    c = root ∨ ∃ m b, m ≤ p ∧ done[m]? = some b ∧ c ∈ g.succ b

namespace Frontier

variable {root i : Nat} {done queue : List Nat}

theorem start (g : Digraph) (root : Nat) : g.Frontier root [] [root] where
  first := rfl
  once := List.nodup_singleton root
  reached x hx := by
    obtain rfl := List.mem_singleton.mp hx
    exact .refl x
  closed := by simp
  hung c hc := .inl (List.mem_singleton.mp hc)
  early := by simp

theorem hung_step (f : g.Frontier root done (i :: queue)) {c : Nat}
    (hc : c ∈ (done ++ i :: queue) ++ g.fresh i (done ++ i :: queue)) :
    c = root ∨ ∃ a ∈ done ++ [i], c ∈ g.succ a := by
  rcases List.mem_append.mp hc with old | new
  · refine (f.hung c old).imp_right ?_
    rintro ⟨a, ha, edge⟩
    exact ⟨a, List.mem_append_left _ ha, edge⟩
  · exact .inr ⟨i, by simp, (mem_fresh.mp new).1⟩

/-- The successors of nodes taken off before are listed already, and so is what comes earlier. All
that is listed hangs on nodes up to the one just taken off. -/
theorem early_step (f : g.Frontier root done (i :: queue)) {p j k a c d : Nat} (le : j ≤ k)
    (hj : ((done ++ i :: queue) ++ g.fresh i (done ++ i :: queue))[j]? = some c)
    (hk : ((done ++ i :: queue) ++ g.fresh i (done ++ i :: queue))[k]? = some d)
    (ha : (done ++ [i])[p]? = some a) (edge : d ∈ g.succ a) :
    c = root ∨ ∃ m b, m ≤ p ∧ (done ++ [i])[m]? = some b ∧ c ∈ g.succ b := by
  have inside := (List.getElem?_eq_some_iff.mp ha).1
  rw [List.length_append, List.length_singleton] at inside
  by_cases before : p < done.length
  · rw [List.getElem?_append_left before] at ha
    have bound : k < (done ++ i :: queue).length := by
      by_contra behind
      rw [List.getElem?_append_right (by omega)] at hk
      have new := (mem_fresh.mp (List.mem_of_getElem? hk)).2
      exact new (f.closed a (List.mem_of_getElem? ha) d edge)
    rw [List.getElem?_append_left (by omega)] at hj
    rw [List.getElem?_append_left bound] at hk
    refine (f.early p j k a c d le hj hk ha edge).imp_right ?_
    rintro ⟨m, b, lt, hb, edge⟩
    rw [← List.getElem?_append_left (by omega)] at hb
    exact ⟨m, b, lt, hb, edge⟩
  · refine (f.hung_step (List.mem_of_getElem? hj)).imp_right ?_
    rintro ⟨b, hb, edge⟩
    obtain ⟨m, hm⟩ := List.mem_iff_getElem?.mp hb
    have within := (List.getElem?_eq_some_iff.mp hm).1
    rw [List.length_append, List.length_singleton] at within
    exact ⟨m, b, by omega, hm, edge⟩

/-- Taking the first node off the queue and queueing those of its successors that are new. -/
theorem step (f : g.Frontier root done (i :: queue)) (distinct : (g.succ i).Nodup) :
    g.Frontier root (done ++ [i]) (queue ++ g.fresh i (done ++ i :: queue)) := by
  have listed : done ++ [i] ++ (queue ++ g.fresh i (done ++ i :: queue)) =
      (done ++ i :: queue) ++ g.fresh i (done ++ i :: queue) := by simp
  constructor
  case first =>
    rw [listed, List.getElem?_append_left (List.length_pos_of_ne_nil (by simp))]
    exact f.first
  case once =>
    rw [listed]
    refine List.nodup_append.mpr ⟨f.once, distinct.filter _, ?_⟩
    rintro x hx y hy rfl
    exact (mem_fresh.mp hy).2 hx
  case reached =>
    rw [listed]
    intro x hx
    rcases List.mem_append.mp hx with old | new
    · exact f.reached x old
    · exact (f.reached i (by simp)).trans (.edge (mem_fresh.mp new).1)
  case closed =>
    rw [listed]
    intro a ha c hc
    by_cases old : c ∈ done ++ i :: queue
    · exact List.mem_append_left _ old
    · rcases List.mem_append.mp ha with before | here
      · exact absurd (f.closed a before c hc) old
      · obtain rfl := List.mem_singleton.mp here
        exact List.mem_append_right _ (mem_fresh.mpr ⟨hc, old⟩)
  case hung =>
    rw [listed]
    exact fun c hc => f.hung_step hc
  case early =>
    rw [listed]
    exact fun p j k a c d le hj hk ha edge => f.early_step le hj hk ha edge

/-- A run with enough steps left ends with an empty queue. -/
theorem run (bounded : ∀ a c, c ∈ g.succ a → c < g.size) (distinct : ∀ a, (g.succ a).Nodup)
    (lt : root < g.size) : ∀ {fuel : Nat} {done queue : List Nat}, g.Frontier root done queue →
    g.size < fuel + done.length →
    g.Frontier root (done ++ g.levelOrderFrom fuel queue (done ++ queue)) [] := by
  intro fuel
  induction fuel with
  | zero =>
    intro done queue f few
    have inside : ∀ x ∈ done ++ queue, x < g.size := by
      intro x hx
      cases f.hung x hx with
      | inl same => exact same ▸ lt
      | inr hung => exact hung.elim fun a edge => bounded a x edge.2
    have most := length_le_size f.once inside
    rw [List.length_append] at most
    omega
  | succ fuel ih =>
    intro done queue f enough
    cases queue with
    | nil =>
      rw [levelOrderFrom, List.append_nil]
      exact f
    | cons i queue =>
      have next := ih (f.step (distinct i)) (by
        rw [List.length_append, List.length_singleton]
        omega)
      rw [levelOrderFrom_cons]
      simpa using next

/-! ## The order -/

variable {order : List Nat}

theorem mem_iff (f : g.Frontier root order []) {x : Nat} : x ∈ order ↔ g.Reaches root x := by
  have closed {a b : Nat} (path : g.Reaches a b) (ha : a ∈ order) : b ∈ order := by
    induction path with
    | refl => exact ha
    | step edge _ ih => exact ih (by simpa using f.closed _ ha _ edge)
  constructor
  · exact fun hx => f.reached x (List.mem_append_left _ hx)
  · intro path
    exact closed path (by simpa using List.mem_of_getElem? f.first)

/-- A node that stands no later than another is reached along no more edges. The last edge of a walk
to the later one starts at a node of the order, and the earlier one hangs on a node up to there. -/
theorem nearer (f : g.Frontier root order []) {n : Nat} : ∀ {j k c d : Nat}, j ≤ k →
    order[j]? = some c → order[k]? = some d → g.Walk n root d → ∃ m ≤ n, g.Walk m root c := by
  have once := f.once
  have first := f.first
  have early := f.early
  rw [List.append_nil] at once first early
  induction n with
  | zero =>
    intro j k c d le hj hk walk
    cases walk
    obtain rfl := place_unique once first hk
    obtain rfl : j = 0 := by omega
    obtain rfl := Option.some.inj (first.symm.trans hj)
    exact ⟨0, Nat.le_refl 0, .refl root⟩
  | succ n ih =>
    intro j k c d le hj hk walk
    obtain ⟨b, shorter, edge⟩ := walk.last
    obtain ⟨p, hp⟩ := List.mem_iff_getElem?.mp (f.mem_iff.mpr shorter.reaches)
    cases early p j k b c d le hj hk hp edge with
    | inl same =>
      subst same
      exact ⟨0, Nat.zero_le _, .refl c⟩
    | inr hung =>
      obtain ⟨q, a, before, hq, edge⟩ := hung
      obtain ⟨m, fewer, walk⟩ := ih before hq hp shorter
      exact ⟨m + 1, by omega, walk.snoc edge⟩

end Frontier

/-- A listing of what a root reaches, each node once and nearer ones first. -/
structure LevelByLevel (g : Digraph) (root : Nat) (order : List Nat) : Prop where
  first : order.head? = some root
  once : order.Nodup
  mem_iff : ∀ x, x ∈ order ↔ g.Reaches root x
  nearer : order.Pairwise fun a b => ∃ m n, m ≤ n ∧ g.Distance m root a ∧ g.Distance n root b

theorem Frontier.levelByLevel {root : Nat} {order : List Nat} (f : g.Frontier root order []) :
    g.LevelByLevel root order := by
  constructor
  case first => simpa [List.head?_eq_getElem?] using f.first
  case once => simpa using f.once
  case mem_iff => exact fun x => f.mem_iff
  case nearer =>
    rw [List.pairwise_iff_getElem]
    intro j k hj hk before
    obtain ⟨m, first⟩ := exists_distance (f.mem_iff.mp (List.getElem_mem hj))
    obtain ⟨n, second⟩ := exists_distance (f.mem_iff.mp (List.getElem_mem hk))
    obtain ⟨m', fewer, walk⟩ := f.nearer (Nat.le_of_lt before) (List.getElem?_eq_getElem hj)
      (List.getElem?_eq_getElem hk) second.1
    exact ⟨m, n, (first.2 m' walk).trans fewer, first, second⟩

/-- Where edges lead to nodes of the graph and no row repeats one, the breadth-first order goes
level by level through all that the root reaches. -/
theorem levelByLevel_levelOrder (bounded : ∀ a c, c ∈ g.succ a → c < g.size)
    (distinct : ∀ a, (g.succ a).Nodup) {root : Nat} (lt : root < g.size) :
    g.LevelByLevel root (g.levelOrder root) := by
  have run := (Frontier.start g root).run bounded distinct lt (Nat.lt_succ_self g.size)
  exact run.levelByLevel

end Digraph

end VtableCloud

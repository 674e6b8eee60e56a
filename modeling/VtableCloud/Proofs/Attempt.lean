/-!
# Computations that may fail

How the steps of a computation in `Except` come apart when it succeeds, and when a list
of steps succeeds.

* `bind_ok`: a step and what follows it both succeed;
* `mapM_ok`, `mapM_ok_of_forall`: all elements succeed, each with the result at its place;
* `mem_flatten_of_mapM_ok`, `sublist_of_mapM_ok`: what the results hold, where each is a list;
* `foldlM_ok`: what every successful step keeps holds of the last state;
* `mapM_error`, `foldlM_error`: a list of steps fails at one of them;
* `mapM_some_of_forall`, `findSomeM?_none`: a list of lookups finds something for each element.
-/

namespace VtableCloud

variable {ε α β σ : Type}

theorem bind_ok {x : Except ε α} {f : α → Except ε β} {b : β} :
    x >>= f = .ok b ↔ ∃ a, x = .ok a ∧ f a = .ok b := by
  cases x with
  | error e => simp [bind, Except.bind]
  | ok a => simp [bind, Except.bind]

theorem map_ok {x : Except ε α} {f : α → β} {b : β} :
    f <$> x = .ok b ↔ ∃ a, x = .ok a ∧ f a = b := by
  cases x with
  | error e => simp [Functor.map, Except.map]
  | ok a => simp [Functor.map, Except.map]

theorem mapError_ok {δ : Type} {x : Except ε α} {f : ε → δ} {a : α} :
    x.mapError f = .ok a ↔ x = .ok a := by
  cases x with
  | error e =>
    have failed : (Except.error e : Except ε α).mapError f = .error (f e) := rfl
    simp [failed]
  | ok a' =>
    have passed : (Except.ok a' : Except ε α).mapError f = .ok a' := rfl
    simp [passed]

theorem mapM_ok_of_forall {f : α → Except ε β} {g : α → β} {xs : List α}
    (h : ∀ x ∈ xs, f x = .ok (g x)) : xs.mapM f = .ok (xs.map g) := by
  induction xs with
  | nil => rfl
  | cons x xs ih =>
    rw [List.mapM_cons, h x (by simp), ih fun y hy => h y (List.mem_cons_of_mem x hy)]
    rfl

/-- Steps that do the same on renamed elements. -/
theorem mapM_map_congr {γ : Type} {f : α → β} {g : β → Except ε γ} {k : α → Except ε γ}
    {xs : List α} (same : ∀ x ∈ xs, g (f x) = k x) : (xs.map f).mapM g = xs.mapM k := by
  induction xs with
  | nil => rfl
  | cons x xs ih =>
    rw [List.map_cons, List.mapM_cons, List.mapM_cons, same x (by simp),
      ih fun y hy => same y (List.mem_cons_of_mem x hy)]

theorem mapM_ok_of_exists {f : α → Except ε β} {xs : List α}
    (each : ∀ x ∈ xs, ∃ y, f x = .ok y) : ∃ ys, xs.mapM f = .ok ys := by
  induction xs with
  | nil => exact ⟨[], rfl⟩
  | cons x xs ih =>
    obtain ⟨y, hy⟩ := each x (by simp)
    obtain ⟨ys, hys⟩ := ih fun z hz => each z (List.mem_cons_of_mem x hz)
    exact ⟨y :: ys, by rw [List.mapM_cons, hy, hys]; rfl⟩

theorem mapM_ok {f : α → Except ε β} {xs : List α} :
    ∀ {ys : List β}, xs.mapM f = .ok ys →
      ys.length = xs.length ∧
        ∀ (i : Nat) (x : α), xs[i]? = some x → ∃ y, ys[i]? = some y ∧ f x = .ok y := by
  induction xs with
  | nil =>
    intro ys h
    obtain rfl : [] = ys := Except.ok.inj h
    simp
  | cons x xs ih =>
    intro ys h
    rw [List.mapM_cons] at h
    obtain ⟨y, hy, h⟩ := bind_ok.mp h
    obtain ⟨rest, hrest, h⟩ := bind_ok.mp h
    obtain rfl : y :: rest = ys := Except.ok.inj h
    obtain ⟨length, each⟩ := ih hrest
    refine ⟨by simp [length], fun i z hz => ?_⟩
    cases i with
    | zero =>
      obtain rfl : x = z := by simpa using hz
      exact ⟨y, by simp, hy⟩
    | succ i => simpa using each i z (by simpa using hz)

theorem mapM_ok_mem {f : α → Except ε β} {xs : List α} {ys : List β} (h : xs.mapM f = .ok ys)
    {y : β} (hy : y ∈ ys) : ∃ x ∈ xs, f x = .ok y := by
  obtain ⟨length, each⟩ := mapM_ok h
  obtain ⟨i, hi⟩ := List.mem_iff_getElem?.mp hy
  have lt : i < xs.length := by
    have := (List.getElem?_eq_some_iff.mp hi).1
    omega
  obtain ⟨z, hz, ok⟩ := each i xs[i] (List.getElem?_eq_getElem lt)
  obtain rfl := Option.some.inj (hi.symm.trans hz)
  exact ⟨xs[i], List.getElem_mem lt, ok⟩

/-- What each result shares with its element, the results share with the elements. -/
theorem map_of_mapM_ok {γ : Type} {f : α → Except ε β} {g : β → γ} {k : α → γ} {xs : List α}
    {ys : List β} (h : xs.mapM f = .ok ys) (each : ∀ x y, f x = .ok y → g y = k x) :
    ys.map g = xs.map k := by
  induction xs generalizing ys with
  | nil =>
    obtain rfl := Except.ok.inj h
    rfl
  | cons x xs ih =>
    rw [List.mapM_cons] at h
    obtain ⟨y, hy, h⟩ := bind_ok.mp h
    obtain ⟨rest, hrest, h⟩ := bind_ok.mp h
    obtain rfl := Except.ok.inj h
    rw [List.map_cons, List.map_cons, each x y hy, ih hrest]

theorem mem_flatten_of_mapM_ok {f : α → Except ε (List β)} {xs : List α} {yss : List (List β)}
    (h : xs.mapM f = .ok yss) {y : β} :
    y ∈ yss.flatten ↔ ∃ x ∈ xs, ∃ ys, f x = .ok ys ∧ y ∈ ys := by
  rw [List.mem_flatten]
  constructor
  · rintro ⟨ys, hys, hy⟩
    obtain ⟨x, hx, ok⟩ := mapM_ok_mem h hys
    exact ⟨x, hx, ys, ok, hy⟩
  · rintro ⟨x, hx, ys, ok, hy⟩
    obtain ⟨i, hi⟩ := List.mem_iff_getElem?.mp hx
    obtain ⟨ys', hys, ok'⟩ := (mapM_ok h).2 i x hi
    obtain rfl := Except.ok.inj (ok.symm.trans ok')
    exact ⟨ys, List.mem_of_getElem? hys, hy⟩

/-- Where each element gives at most one thing, these come in the order of the elements. -/
theorem sublist_of_mapM_ok {γ : Type} {f : α → Except ε (List β)} {g : β → γ} {k : α → γ}
    {xs : List α} {yss : List (List β)} (h : xs.mapM f = .ok yss)
    (each : ∀ x ∈ xs, ∀ ys, f x = .ok ys → (ys.map g).Sublist [k x]) :
    (yss.flatten.map g).Sublist (xs.map k) := by
  induction xs generalizing yss with
  | nil =>
    obtain rfl := Except.ok.inj h
    exact .slnil
  | cons x xs ih =>
    rw [List.mapM_cons] at h
    obtain ⟨ys, hys, h⟩ := bind_ok.mp h
    obtain ⟨rest, hrest, h⟩ := bind_ok.mp h
    obtain rfl := Except.ok.inj h
    rw [List.flatten_cons, List.map_append, List.map_cons, ← List.singleton_append]
    exact (each x (by simp) ys hys).append (ih hrest fun z hz => each z (by simp [hz]))

theorem foldlM_ok {f : σ → α → Except ε σ} {Inv : σ → Prop}
    (step : ∀ s x t, Inv s → f s x = .ok t → Inv t) {xs : List α} :
    ∀ {s t : σ}, Inv s → xs.foldlM f s = .ok t → Inv t := by
  induction xs with
  | nil =>
    intro s t hs h
    obtain rfl : s = t := Except.ok.inj h
    exact hs
  | cons x xs ih =>
    intro s t hs h
    rw [List.foldlM_cons] at h
    obtain ⟨u, hu, h⟩ := bind_ok.mp h
    exact ih (step s x u hs hu) h

theorem mapM_error {f : α → Except ε β} {xs : List α} {e : ε} (h : xs.mapM f = .error e) :
    ∃ x ∈ xs, f x = .error e := by
  induction xs with
  | nil => cases h
  | cons x xs ih =>
    rw [List.mapM_cons] at h
    cases first : f x with
    | error e' =>
      rw [first] at h
      obtain rfl : e' = e := Except.error.inj h
      exact ⟨x, by simp, first⟩
    | ok y =>
      cases rest : xs.mapM f with
      | error e' =>
        rw [first, rest] at h
        obtain rfl : e' = e := Except.error.inj h
        obtain ⟨z, hz, failed⟩ := ih rest
        exact ⟨z, List.mem_cons_of_mem x hz, failed⟩
      | ok ys =>
        rw [first, rest] at h
        cases h

/-- The steps before the one that fails succeed. -/
theorem foldlM_error {f : σ → α → Except ε σ} {e : ε} {xs : List α} :
    ∀ {s : σ}, xs.foldlM f s = .error e →
      ∃ before x after t, xs = before ++ x :: after ∧ before.foldlM f s = .ok t ∧
        f t x = .error e := by
  induction xs with
  | nil =>
    intro s h
    cases h
  | cons x xs ih =>
    intro s h
    rw [List.foldlM_cons] at h
    cases first : f s x with
    | error e' =>
      rw [first] at h
      obtain rfl : e' = e := Except.error.inj h
      exact ⟨[], x, xs, s, rfl, rfl, first⟩
    | ok u =>
      rw [first] at h
      obtain ⟨before, y, after, t, rfl, passed, failed⟩ := ih h
      refine ⟨x :: before, y, after, t, rfl, ?_, failed⟩
      rw [List.foldlM_cons, first]
      exact passed

theorem mapM_some_of_forall {f : α → Option β} {g : α → β} {xs : List α}
    (h : ∀ x ∈ xs, f x = some (g x)) : xs.mapM f = some (xs.map g) := by
  induction xs with
  | nil => rfl
  | cons x xs ih =>
    rw [List.mapM_cons, h x (by simp), ih fun y hy => h y (List.mem_cons_of_mem x hy)]
    rfl

/-- A search goes through all elements if none of them is what is searched for. -/
theorem findSomeM?_none {f : α → Option (Option β)} {xs : List α}
    (h : ∀ x ∈ xs, f x = some none) : xs.findSomeM? f = some none := by
  induction xs with
  | nil => rfl
  | cons x xs ih =>
    have rest := ih fun y hy => h y (List.mem_cons_of_mem x hy)
    simp only [List.findSomeM?, h x (by simp), rest, bind, Option.bind]

end VtableCloud

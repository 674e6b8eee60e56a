import VtableCloud.CommandLine.Arguments
import VtableCloud.Proofs.Attempt

/-!
# What the arguments of a command say together

An argument list that can be read consists of arguments that say something of their own and of word
width flags with the argument behind them. Nothing reaches beyond such a piece, so what comes behind
the list does not change how it is read.

* `CommandArgs.Says`: what an argument list consists of, and `parse_ok_iff`: reading it says what;
* `Says.parse_append`: reading goes on behind the list with what follows;
* `Says.apart_valid`, `Says.inline_valid`: every word width is valid, also one that does not count;
* `bareBehind`: the arguments that are no flag and no word width, and `Says.positional_eq`: they are
  the positional ones;
* `parse_composes`: two lists say together what each of them says alone.
-/

namespace VtableCloud

theorem isFlag_iff {argument : String} :
    isFlag argument = true ↔ "--".toList <+: argument.toList :=
  List.isPrefixOf_iff_prefix

theorem isFlag_of_inlineWordWidth? {argument value : String}
    (inline : inlineWordWidth? argument = some value) : isFlag argument = true := by
  rw [inlineWordWidth?] at inline
  split at inline
  · rename_i prefixed
    rw [isFlag_iff]
    have whole := List.isPrefixOf_iff_prefix.mp prefixed
    exact List.IsPrefix.trans (by decide) whole
  · cases inline

/-- An accepted word width is positive and fits a machine word. -/
theorem bounds_of_parseWordWidth {value : String} {width : Nat}
    (ok : parseWordWidth value = .ok width) : 0 < width ∧ width < wordCount := by
  rw [parseWordWidth] at ok
  split at ok
  · cases ok
  · rename_i number positive found
    cases ok
    rw [unsignedNumber?, Option.filter_eq_some_iff] at found
    have fits := found.2
    rw [fitsUnsigned, decide_eq_true_eq] at fits
    exact ⟨Nat.pos_of_ne_zero positive, by omega⟩
  · cases ok

/-- A number does not look like a flag. -/
theorem isFlag_of_parseWordWidth {value : String} {width : Nat}
    (ok : parseWordWidth value = .ok width) : isFlag value = false := by
  rw [← Bool.not_eq_true, isFlag_iff]
  rintro ⟨rest, chars⟩
  have none : unsignedNumber? value = none := by
    rw [unsignedNumber?, ← chars]
    rfl
  rw [parseWordWidth, none] at ok
  cases ok

namespace CommandArgs

theorem append_assoc (p q r : CommandArgs) : p ++ q ++ r = p ++ (q ++ r) := by
  show append (append p q) r = append p (append q r)
  simp [append, Bool.or_assoc, Option.or_assoc]

@[simp] theorem nothing_append (p : CommandArgs) : ({} : CommandArgs) ++ p = p := by
  show append {} p = p
  simp [append]

@[simp] theorem append_nothing (p : CommandArgs) : p ++ ({} : CommandArgs) = p := by
  show append p {} = p
  simp [append]

theorem positional_append (p q : CommandArgs) :
    (p ++ q).positional = p.positional ++ q.positional := rfl

theorem wordWidth_append (p q : CommandArgs) :
    (p ++ q).wordWidth = q.wordWidth.or p.wordWidth := by
  show (append p q).wordWidth = _
  simp [append]

/-- What an argument list consists of: word width flags with a valid value behind them, and
arguments that need no other. -/
inductive Says : List String → CommandArgs → Prop
  | nothing : Says [] {}
  | width {value : String} {width : Nat} {rest : List String} {p : CommandArgs} :
    parseWordWidth value = .ok width → Says rest p →
    Says ("--word-width" :: value :: rest) ({ wordWidth := some width } ++ p)
  | own {argument : String} {own p : CommandArgs} {rest : List String} :
    argument ≠ "--word-width" → ofArgument argument = .ok own → Says rest p →
    Says (argument :: rest) (own ++ p)

variable {a : List String} {p : CommandArgs}

theorem says_of_parse : ∀ {a : List String} {p : CommandArgs}, parse a = .ok p → Says a p := by
  intro a
  induction a using parse.induct with
  | case1 =>
    intro p ok
    cases ok
    exact .nothing
  | case2 =>
    intro p ok
    cases ok
  | case3 value rest ih =>
    intro p ok
    rw [parse, if_pos rfl] at ok
    obtain ⟨width, valid, ok⟩ := bind_ok.mp ok
    obtain ⟨q, read, eq⟩ := bind_ok.mp ok
    cases eq
    exact .width valid (ih read)
  | case4 argument rest other ih =>
    intro p ok
    rw [parse.eq_def] at ok
    simp only [if_neg other] at ok
    obtain ⟨own, valid, ok⟩ := bind_ok.mp ok
    obtain ⟨q, read, eq⟩ := bind_ok.mp ok
    cases eq
    exact .own other valid (ih read)

/-- What an argument says that needs no other: a flag has no part in the positional arguments, and
all else is one. A word width in it is valid. -/
theorem ofArgument_ok {argument : String} {own : CommandArgs}
    (ok : ofArgument argument = .ok own) :
    own.positional = (if isFlag argument then [] else [argument]) ∧
      (∀ width, own.wordWidth = some width → 0 < width) ∧
      ∀ value, inlineWordWidth? argument = some value →
        ∃ width, parseWordWidth value = .ok width := by
  rw [ofArgument] at ok
  -- the four flags that have a name
  iterate 4
    split at ok
    · rename_i name
      subst name
      cases ok
      exact ⟨rfl, nofun, nofun⟩
  split at ok
  · rename_i value inline
    obtain ⟨width, valid, rfl⟩ := map_ok.mp ok
    refine ⟨?_, ?_, ?_⟩
    · rw [if_pos (isFlag_of_inlineWordWidth? inline)]
    · rintro _ ⟨⟩
      exact (bounds_of_parseWordWidth valid).1
    · intro other same
      rw [inline] at same
      cases same
      exact ⟨width, valid⟩
  · rename_i none
    split at ok
    · cases ok
    · rename_i plain
      cases ok
      refine ⟨by rw [if_neg plain], nofun, fun value inline => ?_⟩
      rw [none] at inline
      cases inline

/-- The arguments that are neither a flag nor stand directly behind a word width flag, given the
argument in front of them all. -/
def bareBehind (previous : Option String) : List String → List String
  | [] => []
  | argument :: rest =>
    if isFlag argument || previous == some "--word-width" then bareBehind argument rest
    else argument :: bareBehind argument rest

theorem mem_bareBehind {x : String} : ∀ {a : List String} {previous : Option String},
    x ∈ bareBehind previous a ↔ ∃ i : Nat, a[i]? = some x ∧ isFlag x = false ∧
      (i = 0 → previous ≠ some "--word-width") ∧
      ∀ j, i = j + 1 → a[j]? ≠ some "--word-width" := by
  intro a
  induction a with
  | nil => simp [bareBehind]
  | cons argument rest ih =>
    intro previous
    have here : x ∈ bareBehind previous (argument :: rest) ↔
        (x = argument ∧ isFlag x = false ∧ previous ≠ some "--word-width") ∨
          x ∈ bareBehind argument rest := by
      grind [bareBehind]
    rw [here, ih]
    constructor
    · rintro (⟨rfl, plain, start⟩ | ⟨i, hi, plain, first, later⟩)
      · exact ⟨0, rfl, plain, fun _ => start, by simp⟩
      · refine ⟨i + 1, hi, plain, by simp, ?_⟩
        rintro j ⟨⟩
        cases i with
        | zero => simpa using first rfl
        | succ i => exact later i rfl
    · rintro ⟨i, hi, plain, first, later⟩
      cases i with
      | zero => exact .inl ⟨(Option.some.inj hi).symm, plain, first rfl⟩
      | succ i =>
        refine .inr ⟨i, hi, plain, ?_, ?_⟩
        · rintro rfl
          simpa using later 0 rfl
        · rintro j rfl
          exact later (j + 1) rfl

namespace Says

/-- Behind a list that has been read, reading goes on with what follows. -/
theorem parse_append (saying : Says a p) (b : List String) :
    parse (a ++ b) = (p ++ ·) <$> parse b := by
  induction saying with
  | nothing =>
    simp only [List.nil_append, nothing_append]
    exact (id_map' _).symm
  | width valid _ ih =>
    rw [List.cons_append, List.cons_append, parse, if_pos rfl]
    simp only [valid, ih, append_assoc]
    cases parse b with
    | error e => rfl
    | ok q => rfl
  | own other valid _ ih =>
    rw [List.cons_append, parse.eq_def]
    simp only [if_neg other, valid, ih, append_assoc]
    cases parse b with
    | error e => rfl
    | ok q => rfl

theorem parse_ok (saying : Says a p) : parse a = .ok p := by
  have whole := saying.parse_append []
  rw [List.append_nil] at whole
  rw [whole]
  exact congrArg Except.ok (append_nothing p)

theorem width_pos (saying : Says a p) {width : Nat} (given : p.wordWidth = some width) :
    0 < width := by
  induction saying with
  | nothing => cases given
  | width valid _ ih =>
    rw [wordWidth_append, Option.or_eq_some_iff] at given
    obtain later | ⟨-, first⟩ := given
    · exact ih later
    · cases first
      exact (bounds_of_parseWordWidth valid).1
  | own _ valid _ ih =>
    rw [wordWidth_append, Option.or_eq_some_iff] at given
    obtain later | ⟨-, first⟩ := given
    · exact ih later
    · exact (ofArgument_ok valid).2.1 width first

/-- Each word width flag has a valid word width behind it. -/
theorem apart_valid (saying : Says a p) : ∀ {i : Nat}, a[i]? = some "--word-width" →
    ∃ value width, a[i + 1]? = some value ∧ parseWordWidth value = .ok width := by
  induction saying with
  | nothing => exact nofun
  | @width value width rest _ valid _ ih =>
    intro i here
    match i with
    | 0 => exact ⟨value, width, rfl, valid⟩
    | 1 =>
      cases here
      cases isFlag_of_parseWordWidth valid
    | i + 2 => exact ih here
  | own other _ _ ih =>
    intro i here
    cases i with
    | zero => exact absurd (Option.some.inj here) other
    | succ i => exact ih here

/-- Each word width behind an equals sign is valid. -/
theorem inline_valid (saying : Says a p) {x value : String}
    (inline : inlineWordWidth? x = some value) (hx : x ∈ a) :
    ∃ width, parseWordWidth value = .ok width := by
  induction saying with
  | nothing => cases hx
  | @width behind width rest _ valid _ ih =>
    have flag := isFlag_of_inlineWordWidth? inline
    obtain rfl | hx := List.mem_cons.mp hx
    · cases inline
    obtain rfl | hx := List.mem_cons.mp hx
    · rw [isFlag_of_parseWordWidth valid] at flag
      cases flag
    · exact ih hx
  | own _ valid _ ih =>
    obtain rfl | hx := List.mem_cons.mp hx
    · exact (ofArgument_ok valid).2.2 value inline
    · exact ih hx

theorem positional_eq (saying : Says a p) : ∀ {previous : Option String},
    previous ≠ some "--word-width" → p.positional = bareBehind previous a := by
  induction saying with
  | nothing => exact fun _ => rfl
  | @width value width rest p valid _ ih =>
    intro previous _
    have number : some value ≠ some "--word-width" := by
      rintro ⟨⟩
      cases isFlag_of_parseWordWidth valid
    have flag : isFlag "--word-width" = true := by decide
    rw [bareBehind, flag, Bool.true_or, if_pos rfl, bareBehind, beq_self_eq_true, Bool.or_true,
      if_pos rfl]
    exact ih number
  | @own argument own p rest other valid _ ih =>
    intro previous start
    have apart : some argument ≠ some "--word-width" := by simpa using other
    have later := ih apart
    rw [positional_append, (ofArgument_ok valid).1, later, bareBehind, beq_false_of_ne start,
      Bool.or_false]
    split
    · rfl
    · rfl

end Says

theorem parse_ok_iff : parse a = .ok p ↔ Says a p := ⟨says_of_parse, Says.parse_ok⟩

theorem not_prefix_iff {x : String} : ¬ "--".toList <+: x.toList ↔ isFlag x = false := by
  rw [← isFlag_iff, Bool.not_eq_true]

/-- Behind arguments that can be read, whatever follows is read as if it stood alone: positional
arguments are joined, a flag is given if it is given on either side, of two word widths the later
counts, and a failure there is a failure of the whole. A word width is positive, also one that does
not count. The positional arguments are, in their order, those that do not start with two dashes,
except for one that stands directly behind a word width flag. -/
theorem parse_composes (ok : parse a = .ok p) :
    (∀ b q, parse b = .ok q → ∃ u, parse (a ++ b) = .ok u ∧
      u.positional = p.positional ++ q.positional ∧
      u.interleave = (p.interleave || q.interleave) ∧ u.json = (p.json || q.json) ∧
      u.precise = (p.precise || q.precise) ∧ u.absolute = (p.absolute || q.absolute) ∧
      u.wordWidth = q.wordWidth.or p.wordWidth) ∧
    (∀ b e, parse b = .error e → parse (a ++ b) = .error e) ∧
    (∀ width, p.wordWidth = some width → 0 < width) ∧
    (∀ i, a[i]? = some "--word-width" → ∃ value width, a[i + 1]? = some value ∧
      parseWordWidth value = .ok width ∧ 0 < width) ∧
    (∀ x ∈ a, ∀ value, inlineWordWidth? x = some value →
      ∃ width, parseWordWidth value = .ok width ∧ 0 < width) ∧
    p.positional = bareBehind none a ∧
    (∀ x ∈ p.positional, x ∈ a ∧ ¬ "--".toList <+: x.toList) ∧
    ∀ (i : Nat) x, a[i]? = some x → ¬ "--".toList <+: x.toList →
      x ∈ p.positional ∨ ∃ j, i = j + 1 ∧ a[j]? = some "--word-width" := by
  have saying := parse_ok_iff.mp ok
  have bare : p.positional = bareBehind none a := saying.positional_eq nofun
  refine ⟨fun b q next => ?_, fun b e failed => ?_, fun _ => saying.width_pos, fun i here => ?_,
    fun x hx value inline => ?_, bare, ?_, ?_⟩
  · refine ⟨p ++ q, ?_, rfl, rfl, rfl, rfl, rfl, wordWidth_append p q⟩
    rw [saying.parse_append, next]
    rfl
  · rw [saying.parse_append, failed]
    rfl
  · obtain ⟨value, width, next, valid⟩ := saying.apart_valid here
    exact ⟨value, width, next, valid, (bounds_of_parseWordWidth valid).1⟩
  · obtain ⟨width, valid⟩ := saying.inline_valid inline hx
    exact ⟨width, valid, (bounds_of_parseWordWidth valid).1⟩
  · intro x hx
    rw [bare, mem_bareBehind] at hx
    obtain ⟨i, hi, plain, -⟩ := hx
    exact ⟨List.mem_of_getElem? hi, not_prefix_iff.mpr plain⟩
  · intro i x hi plain
    rw [bare, mem_bareBehind]
    by_cases behind : ∃ j, i = j + 1 ∧ a[j]? = some "--word-width"
    · exact .inr behind
    · refine .inl ⟨i, hi, not_prefix_iff.mp plain, nofun, fun j next flag => ?_⟩
      exact behind ⟨j, next, flag⟩

/-- A value behind a word width flag is no positional argument, a negative number is one, and a flag
at the end of the one list does not reach into the other. -/
theorem parse_mixed :
    parse ["in.json", "--word-width", "4", "D", "--json"] =
      .ok { positional := ["in.json", "D"], wordWidth := some 4, json := true } ∧
    (∃ u, parse (["in.json", "--word-width", "4", "D", "--json"] ++
        ["-1", "--word-width=+16", "--absolute"]) = .ok u ∧
      u.positional = ["in.json", "D", "-1"] ∧ u.interleave = false ∧ u.json = true ∧
      u.precise = false ∧ u.absolute = true ∧ u.wordWidth = some 16) ∧
    parse (["in.json", "--word-width", "4", "D", "--json"] ++ ["--word-width"]) =
      .error (.needsValue "--word-width") := by
  have ok : parse ["in.json", "--word-width", "4", "D", "--json"] =
      .ok { positional := ["in.json", "D"], wordWidth := some 4, json := true } := by
    rfl
  obtain ⟨goesOn, fails, -⟩ := parse_composes ok
  refine ⟨ok, ?_, fails _ _ (by rfl)⟩
  exact goesOn _ { positional := ["-1"], wordWidth := some 16, absolute := true } (by rfl)

end CommandArgs

end VtableCloud

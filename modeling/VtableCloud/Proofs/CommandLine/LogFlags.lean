import Mathlib.Data.List.TakeWhile
import VtableCloud.CommandLine.Run
import VtableCloud.Proofs.Attempt

/-!
# Log flags among the arguments

An argument list from which the log flags can be taken consists of arguments that are kept and of
flags with their values. A flag never reaches beyond its value, so what comes behind the list does
not change how it is read.

* `LogFlag.Written`: the two ways to write a flag with a value, and `ofArgument?_joined`,
  `ofArgument?_apart`, which read them;
* `LogSettings.Extracts`: what an argument list consists of, and `extract_ok_iff`: taking out the
  log flags says what;
* `Extracts.extract_append`: taking out the log flags goes on behind the list with what follows;
* `extract_anywhere`: log flags are found wherever they stand, and nothing else is touched.
-/

namespace VtableCloud

namespace LogFlag

/-- The ways to write a flag with a value: behind an equals sign, or as the next argument. -/
inductive Written (flag : LogFlag) (value : String) : List String → Prop
  | joined : Written flag value [flag.text ++ "=" ++ value]
  | apart : Written flag value [flag.text, value]

variable {flag : LogFlag}

theorem ne_equals_of_mem_text : ∀ c ∈ flag.text.toList, decide (c ≠ '=') = true := by
  rw [← List.all_eq_true]
  cases flag with
  | level => decide +kernel
  | format => decide +kernel

/-- A flag is recognised by its name. -/
theorem ofArgument?_text (flag : LogFlag) (value : Option String) :
    (if flag.text = level.text then some (level, value)
      else if flag.text = format.text then some (format, value) else none) =
      some (flag, value) := by
  cases flag with
  | level => rfl
  | format => rfl

theorem ofArgument?_apart (flag : LogFlag) : ofArgument? flag.text = some (flag, none) := by
  have name := List.takeWhile_eq_self_iff.mpr (@ne_equals_of_mem_text flag)
  have rest := List.dropWhile_eq_nil_iff.mpr (@ne_equals_of_mem_text flag)
  simp only [ofArgument?, name, rest, String.ofList_toList]
  exact ofArgument?_text flag none

theorem ofArgument?_joined (flag : LogFlag) (value : String) :
    ofArgument? (flag.text ++ "=" ++ value) = some (flag, some value) := by
  have chars : (flag.text ++ "=" ++ value).toList = flag.text.toList ++ '=' :: value.toList := by
    simp
  have name : (flag.text.toList ++ '=' :: value.toList).takeWhile (· ≠ '=') = flag.text.toList := by
    rw [List.takeWhile_append_of_pos ne_equals_of_mem_text]
    simp
  have rest : (flag.text.toList ++ '=' :: value.toList).dropWhile (· ≠ '=') =
      '=' :: value.toList := by
    rw [List.dropWhile_append_of_pos ne_equals_of_mem_text]
    simp
  simp only [ofArgument?, chars, name, rest, String.ofList_toList]
  exact ofArgument?_text flag (some value)

end LogFlag

namespace LogSettings

theorem format_followedBy (s t : LogSettings) :
    (s.followedBy t).format = t.format.or s.format := by
  simp [followedBy]

theorem level_followedBy (s t : LogSettings) :
    (s.followedBy t).level = t.level.or s.level := by
  simp [followedBy]

@[simp] theorem followedBy_nothing (s : LogSettings) : s.followedBy {} = s := by
  simp [followedBy]

@[simp] theorem nothing_followedBy (s : LogSettings) : followedBy {} s = s := by
  simp [followedBy]

theorem followedBy_assoc (s t u : LogSettings) :
    (s.followedBy t).followedBy u = s.followedBy (t.followedBy u) := by
  simp [followedBy, Option.or_assoc]

/-- What an argument list consists of: arguments to be kept, and log flags with valid values. -/
inductive Extracts (level? : String → Option LogLevel) :
    List String → List String → LogSettings → Prop
  | nil : Extracts level? [] [] {}
  | kept {argument : String} {rest kept : List String} {s : LogSettings} :
    LogFlag.ofArgument? argument = none → Extracts level? rest kept s →
    Extracts level? (argument :: rest) (argument :: kept) s
  | joined {argument value : String} {flag : LogFlag} {own s : LogSettings}
    {rest kept : List String} :
    LogFlag.ofArgument? argument = some (flag, some value) → flag.setting level? value = .ok own →
    Extracts level? rest kept s → Extracts level? (argument :: rest) kept (own.followedBy s)
  | apart {argument value : String} {flag : LogFlag} {own s : LogSettings}
    {rest kept : List String} :
    LogFlag.ofArgument? argument = some (flag, none) → flag.setting level? value = .ok own →
    Extracts level? rest kept s →
    Extracts level? (argument :: value :: rest) kept (own.followedBy s)

variable {level? : String → Option LogLevel} {a b kept : List String} {s : LogSettings}

theorem extracts_of_extract : ∀ {a kept : List String} {s : LogSettings},
    extract level? a = .ok (kept, s) → Extracts level? a kept s := by
  intro a
  induction a using extract.induct with
  | case1 =>
    intro kept s ok
    cases ok
    exact .nil
  | case2 argument rest plain ih =>
    intro kept s ok
    rw [extract, plain] at ok
    obtain ⟨⟨kept', s'⟩, found, eq⟩ := bind_ok.mp ok
    cases eq
    exact .kept plain (ih found)
  | case3 argument rest flag value joined ih =>
    intro kept s ok
    rw [extract, joined] at ok
    obtain ⟨own, valid, ok⟩ := bind_ok.mp ok
    obtain ⟨⟨kept', s'⟩, found, eq⟩ := bind_ok.mp ok
    cases eq
    exact .joined joined valid (ih found)
  | case4 argument flag apart =>
    intro kept s ok
    rw [extract, apart] at ok
    cases ok
  | case5 argument flag apart value rest ih =>
    intro kept s ok
    rw [extract, apart] at ok
    obtain ⟨own, valid, ok⟩ := bind_ok.mp ok
    obtain ⟨⟨kept', s'⟩, found, eq⟩ := bind_ok.mp ok
    cases eq
    exact .apart apart valid (ih found)

namespace Extracts

/-- Behind a list that has been read, taking out log flags goes on with what follows. -/
theorem extract_append (found : Extracts level? a kept s) (b : List String) :
    extract level? (a ++ b) =
      (fun later => (kept ++ later.1, s.followedBy later.2)) <$> extract level? b := by
  induction found with
  | nil =>
    simp only [List.nil_append, nothing_followedBy]
    exact (id_map' _).symm
  | kept plain _ ih =>
    rw [List.cons_append, extract, plain]
    simp only [ih]
    cases extract level? b with
    | error e => rfl
    | ok later => rfl
  | joined joined valid _ ih =>
    rw [List.cons_append, extract, joined]
    simp only [valid, ih, followedBy_assoc]
    cases extract level? b with
    | error e => rfl
    | ok later => rfl
  | apart apart valid _ ih =>
    rw [List.cons_append, List.cons_append, extract, apart]
    simp only [valid, ih, followedBy_assoc]
    cases extract level? b with
    | error e => rfl
    | ok later => rfl

theorem extract_ok (found : Extracts level? a kept s) : extract level? a = .ok (kept, s) := by
  have whole := found.extract_append []
  rw [List.append_nil] at whole
  rw [whole]
  exact congrArg (fun kept => Except.ok (kept, s)) (List.append_nil kept)

/-- What is kept stands in the list, in the same order. -/
theorem sublist (found : Extracts level? a kept s) : kept.Sublist a := by
  induction found with
  | nil => exact .slnil
  | kept _ _ ih => exact ih.cons_cons _
  | joined _ _ _ ih => exact ih.cons _
  | apart _ _ _ ih => exact (ih.cons _).cons _

/-- There are no log flags left in what is kept. -/
theorem again (found : Extracts level? a kept s) : Extracts level? kept kept {} := by
  induction found with
  | nil => exact .nil
  | kept plain _ ih => exact .kept plain ih
  | joined _ _ _ ih => exact ih
  | apart _ _ _ ih => exact ih

/-- A flag alone is taken out with its value. -/
theorem of_written {flag : LogFlag} {value : String} {piece : List String} {own : LogSettings}
    (written : flag.Written value piece) (valid : flag.setting level? value = .ok own) :
    Extracts level? piece [] own := by
  rw [← followedBy_nothing own]
  cases written with
  | joined => exact .joined (LogFlag.ofArgument?_joined flag value) valid .nil
  | apart => exact .apart (LogFlag.ofArgument?_apart flag) valid .nil

end Extracts

theorem extract_ok_iff : extract level? a = .ok (kept, s) ↔ Extracts level? a kept s :=
  ⟨extracts_of_extract, Extracts.extract_ok⟩

/-- What is asked for depends on nothing but what is kept of the arguments. -/
theorem request_of_extract {u : Surroundings} (found : extract level? a = .ok (kept, s)) :
    (Invocation.ofArguments level? u a).map (·.request) = .ok (Request.parse kept) := by
  rw [Invocation.ofArguments, found]
  rfl

/-- Behind arguments from which the log flags can be taken, they are taken out of whatever follows
as if it stood alone: later settings count, and a failure there is a failure of the whole. What is
kept comes in its old order and has no log flags any more. So a valid log flag, written in either
way, may stand anywhere between two such lists of arguments, and the same is asked for. -/
theorem extract_anywhere (found : extract level? a = .ok (kept, s)) :
    (∀ b later t, extract level? b = .ok (later, t) →
      ∃ u, extract level? (a ++ b) = .ok (kept ++ later, u) ∧
        u.format = t.format.or s.format ∧ u.level = t.level.or s.level) ∧
    (∀ b e, extract level? b = .error e → extract level? (a ++ b) = .error e) ∧
    kept.Sublist a ∧ extract level? kept = .ok (kept, {}) ∧
    ∀ (flag : LogFlag) value piece own, flag.Written value piece →
      flag.setting level? value = .ok own →
      ∀ b later t, extract level? b = .ok (later, t) →
        (∃ u, extract level? (a ++ piece ++ b) = .ok (kept ++ later, u)) ∧
        ∀ around, (Invocation.ofArguments level? around (a ++ piece ++ b)).map (·.request) =
          (Invocation.ofArguments level? around (a ++ b)).map (·.request) := by
  have reads := extract_ok_iff.mp found
  refine ⟨fun b later t next => ?_, fun b e failed => ?_, reads.sublist, reads.again.extract_ok, ?_⟩
  · refine ⟨s.followedBy t, ?_, format_followedBy s t, level_followedBy s t⟩
    rw [reads.extract_append, next]
    rfl
  · rw [reads.extract_append, failed]
    rfl
  · intro flag value piece own written valid b later t next
    have inserted := (Extracts.of_written written valid).extract_append b
    have plain : extract level? (a ++ b) = .ok (kept ++ later, s.followedBy t) := by
      rw [reads.extract_append, next]
      rfl
    have with_flag : extract level? (a ++ piece ++ b) =
        .ok (kept ++ later, s.followedBy (own.followedBy t)) := by
      rw [List.append_assoc, reads.extract_append, inserted, next]
      rfl
    refine ⟨⟨_, with_flag⟩, fun around => ?_⟩
    rw [request_of_extract plain, request_of_extract with_flag]

/-- A value that looks like another flag is refused where the list goes on, and a later level
replaces an earlier one. -/
theorem extract_mixed :
    extract LogLevel.standard? ["layout", "--log-level", "debug", "--x=--log-level"] =
      .ok (["layout", "--x=--log-level"], { level := some .debug }) ∧
    (∃ u, extract LogLevel.standard? (["layout", "--log-level", "debug", "--x=--log-level"] ++
        ["in.json", "--log-format=JSON", "--log-level=warn"]) =
      .ok (["layout", "--x=--log-level", "in.json"], u) ∧
      u.format = some .json ∧ u.level = some .warn) ∧
    extract LogLevel.standard? (["layout", "--log-level", "debug", "--x=--log-level"] ++
        ["--log-level", "--log-format=json"]) = .error (.unknownLogLevel "--log-format=json") ∧
    ∃ u, extract LogLevel.standard? (["layout", "--log-level", "debug", "--x=--log-level"] ++
        ["--log-format", "plain"] ++ ["in.json"]) =
      .ok (["layout", "--x=--log-level", "in.json"], u) := by
  have found : extract LogLevel.standard? ["layout", "--log-level", "debug", "--x=--log-level"] =
      .ok (["layout", "--x=--log-level"], { level := some .debug }) := by decide +kernel
  obtain ⟨goesOn, fails, -, -, inserts⟩ := extract_anywhere found
  refine ⟨found, ?_, ?_, ?_⟩
  · exact goesOn _ ["in.json"] { format := some .json, level := some .warn } (by decide +kernel)
  · exact fails _ _ (by decide +kernel)
  · have valid : LogFlag.format.setting LogLevel.standard? "plain" =
        .ok { format := some .text } := by decide +kernel
    exact (inserts .format _ _ _ .apart valid _ ["in.json"] {} (by decide +kernel)).1

end LogSettings

end VtableCloud

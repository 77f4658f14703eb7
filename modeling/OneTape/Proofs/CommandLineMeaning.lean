import Mathlib.Data.List.Basic
import Mathlib.Data.List.Induction
import OneTape.CommandLine

/-!
# The meaning of a command line

Arguments are read one after the other, and each of them changes what has been
gathered from those before it.  The result can be told without this order.  A
command line is accepted if each argument is acceptable on its own, and if the
input does not come from a text and from standard input too.  It then means what
the last limit, the last end byte and the last input text say, together with the
first file name and with all flags that are there.

A command line that is not accepted has one argument at which reading fails.  What
stands before it is accepted, what stands behind it is not looked at, and the error
is the one that this argument gives rise to.
-/

namespace OneTape
namespace Argument

/-- The flags that stand for themselves. -/
def plainFlags : List String :=
  ["--raw", "--stdin", "--trace", "--tape", "--no-color", "--help", "-h"]

/-- The beginnings of the flags with a value. -/
def valueFlags : List String :=
  ["--limit=", "--eof=", "--input="]

/-- A flag that is known, whether or not it has an acceptable value. -/
def IsKnown (name : String) : Prop :=
  name ∈ plainFlags ∨ ∃ beginning ∈ valueFlags, ∃ value, name = beginning ++ value

/-- What starts with a dash is meant as a flag. -/
def HasDash (name : String) : Prop :=
  name.toList.head? = some '-'

instance (name : String) : Decidable (HasDash name) :=
  inferInstanceAs (Decidable (_ = _))

/-- How the arguments of every kind are spelled. -/
inductive SpelledAs : Argument → String → Prop where
  | limit (value : String) : SpelledAs (.limit value) ("--limit=" ++ value)
  | endByte (value : String) : SpelledAs (.endByte value) ("--eof=" ++ value)
  | inputText (text : String) : SpelledAs (.inputText text) ("--input=" ++ text)
  | raw : SpelledAs .raw "--raw"
  | standardInput : SpelledAs .standardInput "--stdin"
  | trace : SpelledAs .trace "--trace"
  | table : SpelledAs .table "--tape"
  | plain : SpelledAs .plain "--no-color"
  | help : SpelledAs .help "--help"
  | shortHelp : SpelledAs .help "-h"
  | unknown {name : String} (dash : HasDash name) (unknown : ¬ IsKnown name) :
      SpelledAs (.unknown name) name
  | file {name : String} (noDash : ¬ HasDash name) : SpelledAs (.file name) name

theorem valueAfter?_eq_some_iff {beginning argument value : String} :
    valueAfter? beginning argument = some value ↔ argument = beginning ++ value := by
  unfold valueAfter?
  rw [Option.map_eq_some_iff]
  constructor
  · rintro ⟨rest, found, rfl⟩
    rw [List.isPrefixOf?_eq_some_iff_append_eq] at found
    apply String.toList_inj.mp
    rw [String.toList_append, String.toList_ofList, found]
  · rintro rfl
    refine ⟨value.toList, ?_, String.ofList_toList⟩
    rw [List.isPrefixOf?_eq_some_iff_append_eq, String.toList_append]

theorem SpelledAs.of_mem_flags {name : String} {flag : Argument} (member : (name, flag) ∈ flags) :
    SpelledAs flag name := by
  simp only [flags, List.mem_cons, Prod.mk.injEq, List.not_mem_nil, or_false] at member
  rcases member with ⟨rfl, rfl⟩ | ⟨rfl, rfl⟩ | ⟨rfl, rfl⟩ | ⟨rfl, rfl⟩ | ⟨rfl, rfl⟩ |
    ⟨rfl, rfl⟩ | ⟨rfl, rfl⟩
  · exact .raw
  · exact .standardInput
  · exact .trace
  · exact .table
  · exact .plain
  · exact .help
  · exact .shortHelp

theorem not_isKnown {name : String} (noValue : ∀ beginning ∈ valueFlags,
    valueAfter? beginning name = none) (notPlain : flags.lookup name = none) : ¬ IsKnown name := by
  rintro (plain | ⟨beginning, isBeginning, value, spelled⟩)
  · have named : name ∈ flags.map Prod.fst := plain
    obtain ⟨entry, member, rfl⟩ := List.mem_map.mp named
    have different := List.lookup_eq_none_iff.mp notPlain entry member
    simp at different
  · have found := valueAfter?_eq_some_iff.mpr spelled
    rw [noValue beginning isBeginning] at found
    cases found

theorem spelledAs_ofString (argument : String) : SpelledAs (ofString argument) argument := by
  unfold ofString
  split
  · rename_i value found
    rw [valueAfter?_eq_some_iff.mp found]
    exact .limit value
  rename_i notLimit
  split
  · rename_i value found
    rw [valueAfter?_eq_some_iff.mp found]
    exact .endByte value
  rename_i notEndByte
  split
  · rename_i text found
    rw [valueAfter?_eq_some_iff.mp found]
    exact .inputText text
  rename_i notInputText
  split
  · rename_i flag found
    obtain ⟨before, after, split, -⟩ := List.lookup_eq_some_iff.mp found
    apply SpelledAs.of_mem_flags
    rw [split]
    simp
  rename_i notPlain
  split
  · rename_i dash
    exact .unknown dash (not_isKnown (by simp [valueFlags, *]) notPlain)
  · rename_i noDash
    exact .file noDash

theorem IsKnown.hasDash {name : String} (known : IsKnown name) : HasDash name := by
  rcases known with plain | ⟨beginning, isBeginning, value, rfl⟩
  · have all : ∀ name ∈ plainFlags, HasDash name := by decide
    exact all name plain
  · have all : ∀ beginning ∈ valueFlags, HasDash beginning := by decide
    have dash := all beginning isBeginning
    unfold HasDash at dash ⊢
    rw [String.toList_append, List.head?_append, dash]
    rfl

/-- A known flag is spelled in one way only, and the rest is told apart by the dash. -/
theorem SpelledAs.known_or {kind : Argument} {name : String} (spelled : SpelledAs kind name) :
    IsKnown name ∨ (kind = .unknown name ∧ HasDash name ∧ ¬ IsKnown name) ∨
      (kind = .file name ∧ ¬ HasDash name) := by
  cases spelled with
  | limit value => exact .inl (.inr ⟨"--limit=", by decide, value, rfl⟩)
  | endByte value => exact .inl (.inr ⟨"--eof=", by decide, value, rfl⟩)
  | inputText text => exact .inl (.inr ⟨"--input=", by decide, text, rfl⟩)
  | raw | standardInput | trace | table | plain | help | shortHelp => exact .inl (.inl (by decide))
  | unknown dash unknown => exact .inr (.inl ⟨rfl, dash, unknown⟩)
  | file noDash => exact .inr (.inr ⟨rfl, noDash⟩)

/-- The spelling of an argument tells its kind. -/
theorem SpelledAs.ofString_eq {kind : Argument} {name : String} (spelled : SpelledAs kind name) :
    ofString name = kind := by
  cases spelled with
  | limit value =>
      unfold ofString
      rw [valueAfter?_eq_some_iff.mpr rfl]
  | endByte value =>
      have notLimit : valueAfter? "--limit=" ("--eof=" ++ value) = none := by
        rw [valueAfter?, String.toList_append]
        rfl
      unfold ofString
      rw [notLimit, valueAfter?_eq_some_iff.mpr rfl]
  | inputText text =>
      have notLimit : valueAfter? "--limit=" ("--input=" ++ text) = none := by
        rw [valueAfter?, String.toList_append]
        rfl
      have notEndByte : valueAfter? "--eof=" ("--input=" ++ text) = none := by
        rw [valueAfter?, String.toList_append]
        rfl
      unfold ofString
      rw [notLimit, notEndByte, valueAfter?_eq_some_iff.mpr rfl]
  | raw | standardInput | trace | table | plain | help | shortHelp => decide
  | unknown dash unknown =>
      rcases (spelledAs_ofString name).known_or with known | ⟨kind, -⟩ | ⟨-, noDash⟩
      · contradiction
      · exact kind
      · contradiction
  | file noDash =>
      rcases (spelledAs_ofString name).known_or with known | ⟨-, dash, -⟩ | ⟨kind, -⟩
      · exact absurd known.hasDash noDash
      · contradiction
      · exact kind

theorem ofString_eq_iff {kind : Argument} {name : String} :
    ofString name = kind ↔ SpelledAs kind name :=
  ⟨fun equal => equal ▸ spelledAs_ofString name, SpelledAs.ofString_eq⟩

/-- An argument of the same kind without a value. -/
def kind : Argument → Argument
  | limit _ => limit ""
  | endByte _ => endByte ""
  | inputText _ => inputText ""
  | unknown _ => unknown ""
  | file _ => file ""
  | flag => flag

/-- The limit that an argument gives. -/
def limit? : Argument → Option Nat
  | limit value => Invocation.limit? value
  | _ => none

def endByte? : Argument → Option EndByte
  | endByte value => Invocation.endByte? value
  | _ => none

def text? : Argument → Option String
  | inputText text => some text
  | _ => none

def file? : Argument → Option String
  | file name => some name
  | _ => none

/-- An argument that is acceptable on its own. -/
def Acceptable : Argument → Prop
  | limit value => (Invocation.limit? value).isSome
  | endByte value => (Invocation.endByte? value).isSome
  | unknown _ => False
  | _ => True

end Argument

namespace Invocation

/-- What the last argument that gives something gives. -/
def last? {α : Type} (pick : Argument → Option α) (arguments : List Argument) : Option α :=
  (arguments.filterMap pick).getLast?

/-- What acceptable arguments ask for. -/
def meaning (arguments : List Argument) : Invocation where
  file := arguments.findSome? Argument.file?
  options :=
    { decodeEscapes := .raw ∉ arguments
      limit := (last? Argument.limit? arguments).getD ({} : Options).limit
      endByte := (last? Argument.endByte? arguments).getD ({} : Options).endByte }
  input :=
    match last? Argument.text? arguments with
    | some text => .text text
    | none => if .standardInput ∈ arguments then .standardInput else .none
  trace := .trace ∈ arguments
  table := .table ∈ arguments
  plain := .plain ∈ arguments
  help := .help ∈ arguments

/-- Some argument gives the input as a text. -/
def HasText (arguments : List Argument) : Prop :=
  ∃ text, .inputText text ∈ arguments

/-- The arguments are acceptable, and do not give the input in two ways. -/
structure Consistent (arguments : List Argument) : Prop where
  acceptable : ∀ argument ∈ arguments, argument.Acceptable
  oneInput : ¬ (.standardInput ∈ arguments ∧ HasText arguments)

/-- The error that an argument gives rise to behind consistent ones. -/
inductive Offends (before : List Argument) : Argument → UsageError → Prop where
  | limit {value : String} (unread : limit? value = none) :
      Offends before (.limit value) (.invalidLimit value)
  | endByte {value : String} (unread : endByte? value = none) :
      Offends before (.endByte value) (.invalidEndByte value)
  | unknown (flag : String) : Offends before (.unknown flag) (.unknownFlag flag)
  | inputText {text : String} (standardInput : .standardInput ∈ before)
      (noText : ¬ HasText before) : Offends before (.inputText text) .conflictingInput
  | standardInput (text : HasText before) (noStandardInput : .standardInput ∉ before) :
      Offends before .standardInput .conflictingInput

section Concat

variable {arguments : List Argument} {last : Argument}

theorem last?_concat {α : Type} (pick : Argument → Option α) :
    last? pick (arguments ++ [last]) = (pick last).or (last? pick arguments) := by
  unfold last?
  rw [List.filterMap_append, List.getLast?_append]
  cases found : pick last <;> simp [found]

theorem last?_text_eq_none_iff : last? Argument.text? arguments = none ↔ ¬ HasText arguments := by
  unfold last? HasText
  rw [List.getLast?_eq_none_iff, List.filterMap_eq_nil_iff]
  constructor
  · rintro missing ⟨text, member⟩
    cases missing _ member
  · intro missing argument member
    cases argument with
    | inputText text => exact absurd ⟨text, member⟩ missing
    | _ => rfl

/-- Where the input comes from. -/
theorem input_meaning_cases (arguments : List Argument) :
    (∃ text, (meaning arguments).input = .text text ∧ HasText arguments) ∨
      ((meaning arguments).input = .standardInput ∧ .standardInput ∈ arguments ∧
        ¬ HasText arguments) ∨
      ((meaning arguments).input = .none ∧ .standardInput ∉ arguments ∧ ¬ HasText arguments) := by
  cases found : last? Argument.text? arguments with
  | some text =>
      have hasText : HasText arguments := by
        by_contra noText
        rw [last?_text_eq_none_iff.mpr noText] at found
        cases found
      exact .inl ⟨text, by simp [meaning, found], hasText⟩
  | none =>
      have noText := last?_text_eq_none_iff.mp found
      by_cases given : .standardInput ∈ arguments
      · exact .inr (.inl ⟨by simp [meaning, found, given], given, noText⟩)
      · exact .inr (.inr ⟨by simp [meaning, found, given], given, noText⟩)

/-- One more argument, if it does not offend, is taken into account. -/
theorem add_meaning (acceptable : last.Acceptable)
    (oneInput : ¬ (.standardInput ∈ arguments ++ [last] ∧ HasText (arguments ++ [last]))) :
    (meaning arguments).add last = .ok (meaning (arguments ++ [last])) := by
  cases last with
  | limit value =>
      obtain ⟨limit, read⟩ := Option.isSome_iff_exists.mp acceptable
      simp [add, read, meaning, last?_concat, Argument.limit?, Argument.endByte?, Argument.text?,
        Argument.file?]
  | endByte value =>
      obtain ⟨endByte, read⟩ := Option.isSome_iff_exists.mp acceptable
      simp [add, read, meaning, last?_concat, Argument.limit?, Argument.endByte?, Argument.text?,
        Argument.file?]
  | inputText text =>
      have noStandardInput : .standardInput ∉ arguments := by
        intro given
        exact oneInput ⟨by simp [given], text, by simp⟩
      have accepted : (meaning arguments).add (.inputText text) =
          .ok { meaning arguments with input := .text text } := by
        rcases input_meaning_cases arguments with ⟨earlier, input, -⟩ | ⟨-, given, -⟩ | ⟨input, -⟩
        · simp [add, input]
        · contradiction
        · simp [add, input]
      rw [accepted]
      simp [meaning, last?_concat, Argument.limit?, Argument.endByte?, Argument.text?,
        Argument.file?]
  | standardInput =>
      have noText : ¬ HasText arguments := by
        rintro ⟨text, given⟩
        exact oneInput ⟨by simp, text, by simp [given]⟩
      have accepted : (meaning arguments).add .standardInput =
          .ok { meaning arguments with input := .standardInput } := by
        rcases input_meaning_cases arguments with ⟨_, -, given⟩ | ⟨input, -⟩ | ⟨input, -⟩
        · contradiction
        · simp [add, input]
        · simp [add, input]
      rw [accepted]
      simp [meaning, last?_concat, last?_text_eq_none_iff.mpr noText, Argument.limit?,
        Argument.endByte?, Argument.text?, Argument.file?]
  | file name =>
      cases found : arguments.findSome? Argument.file? <;>
        simp [add, found, meaning, last?_concat, Argument.limit?, Argument.endByte?,
          Argument.text?, Argument.file?]
  | unknown flag => exact acceptable.elim
  | raw | trace | table | plain | help =>
      simp [add, meaning, last?_concat, Argument.limit?, Argument.endByte?, Argument.text?,
        Argument.file?]

theorem Offends.add_eq {error : UsageError} (offends : Offends arguments last error) :
    (meaning arguments).add last = .error error := by
  cases offends with
  | limit unread => simp [add, unread]
  | endByte unread => simp [add, unread]
  | unknown flag => rfl
  | inputText standardInput noText =>
      rcases input_meaning_cases arguments with ⟨_, -, given⟩ | ⟨input, -⟩ | ⟨-, missing, -⟩
      · contradiction
      · simp [add, input]
      · contradiction
  | standardInput text noStandardInput =>
      rcases input_meaning_cases arguments with ⟨_, input, -⟩ | ⟨-, -, missing⟩ | ⟨-, -, missing⟩
      · simp [add, input]
      · contradiction
      · contradiction

theorem hasText_concat :
    HasText (arguments ++ [last]) ↔ HasText arguments ∨ ∃ text, last = .inputText text := by
  simp only [HasText, List.mem_append, List.mem_singleton, exists_or, eq_comm]

/-- Behind consistent arguments, another one keeps them consistent or offends. -/
theorem Consistent.concat_or (consistent : Consistent arguments) (last : Argument) :
    Consistent (arguments ++ [last]) ∨ ∃ error, Offends arguments last error := by
  by_cases acceptable : last.Acceptable
  · by_cases twoInputs : .standardInput ∈ arguments ++ [last] ∧ HasText (arguments ++ [last])
    · -- One of the two was there before, and the last argument is the other.
      right
      obtain ⟨standardInput, text⟩ := twoInputs
      rw [List.mem_append, List.mem_singleton] at standardInput
      rw [hasText_concat] at text
      have oneInput := consistent.oneInput
      rcases standardInput with earlier | rfl
      · have noText : ¬ HasText arguments := fun hasText => oneInput ⟨earlier, hasText⟩
        obtain ⟨text, rfl⟩ := text.resolve_left noText
        exact ⟨_, .inputText earlier noText⟩
      · have hasText : HasText arguments := by
          rcases text with hasText | ⟨_, other⟩
          · exact hasText
          · cases other
        exact ⟨_, .standardInput hasText fun earlier => oneInput ⟨earlier, hasText⟩⟩
    · refine .inl ⟨?_, twoInputs⟩
      intro argument member
      rcases List.mem_append.mp member with earlier | isLast
      · exact consistent.acceptable argument earlier
      · exact List.mem_singleton.mp isLast ▸ acceptable
  · right
    cases last with
    | limit value => exact ⟨_, .limit (by simpa [Argument.Acceptable] using acceptable)⟩
    | endByte value => exact ⟨_, .endByte (by simpa [Argument.Acceptable] using acceptable)⟩
    | unknown flag => exact ⟨_, .unknown flag⟩
    | _ => exact absurd trivial acceptable

theorem Consistent.of_append {more : List Argument} (consistent : Consistent (arguments ++ more)) :
    Consistent arguments where
  acceptable argument member :=
    consistent.acceptable argument (List.mem_append_left more member)
  oneInput := by
    rintro ⟨standardInput, text, hasText⟩
    exact consistent.oneInput ⟨List.mem_append_left more standardInput, text,
      List.mem_append_left more hasText⟩

end Concat

section Reordered

/-- The arguments of each kind are the same, in the same order. -/
def Reordered (first second : List Argument) : Prop :=
  ∀ kind : Argument, first.filter (fun argument => argument.kind = kind) =
    second.filter (fun argument => argument.kind = kind)

variable {first second : List Argument}

theorem Reordered.symm (reordered : Reordered first second) : Reordered second first :=
  fun kind => (reordered kind).symm

theorem Reordered.mem_iff (reordered : Reordered first second) (argument : Argument) :
    argument ∈ first ↔ argument ∈ second := by
  have same : argument ∈ first.filter (fun other => other.kind = argument.kind) ↔
      argument ∈ second.filter (fun other => other.kind = argument.kind) := by
    rw [reordered]
  simpa using same

/-- What is picked from arguments of one kind only is the same. -/
theorem Reordered.filterMap_eq {α : Type} (reordered : Reordered first second) (kind : Argument)
    {pick : Argument → Option α}
    (only : ∀ argument, argument.kind ≠ kind → pick argument = none) :
    first.filterMap pick = second.filterMap pick := by
  have restricted : ∀ arguments : List Argument,
      arguments.filterMap pick =
        (arguments.filter fun argument => argument.kind = kind).filterMap pick := by
    intro arguments
    rw [List.filterMap_filter]
    apply List.filterMap_congr
    intro argument _
    by_cases same : argument.kind = kind
    · simp [same]
    · simp [same, only argument same]
  rw [restricted first, restricted second, reordered]

theorem Reordered.consistent (reordered : Reordered first second)
    (consistent : Consistent first) : Consistent second where
  acceptable argument member :=
    consistent.acceptable argument ((reordered.mem_iff argument).mpr member)
  oneInput := by
    rintro ⟨standardInput, text, hasText⟩
    exact consistent.oneInput ⟨(reordered.mem_iff _).mpr standardInput, text,
      (reordered.mem_iff _).mpr hasText⟩

theorem Reordered.meaning_eq (reordered : Reordered first second) :
    meaning first = meaning second := by
  have limits : first.filterMap Argument.limit? = second.filterMap Argument.limit? := by
    refine reordered.filterMap_eq (.limit "") fun argument other => ?_
    cases argument with
    | limit => exact absurd rfl other
    | _ => rfl
  have endBytes : first.filterMap Argument.endByte? = second.filterMap Argument.endByte? := by
    refine reordered.filterMap_eq (.endByte "") fun argument other => ?_
    cases argument with
    | endByte => exact absurd rfl other
    | _ => rfl
  have texts : first.filterMap Argument.text? = second.filterMap Argument.text? := by
    refine reordered.filterMap_eq (.inputText "") fun argument other => ?_
    cases argument with
    | inputText => exact absurd rfl other
    | _ => rfl
  have files : first.filterMap Argument.file? = second.filterMap Argument.file? := by
    refine reordered.filterMap_eq (.file "") fun argument other => ?_
    cases argument with
    | file => exact absurd rfl other
    | _ => rfl
  simp only [meaning, last?, limits, endBytes, texts, ← List.head?_filterMap, files,
    reordered.mem_iff]

end Reordered

section Parse

/-- The kinds of some arguments. -/
abbrev kinds (arguments : List String) : List Argument :=
  arguments.map Argument.ofString

theorem parse_append_of_error {arguments : List String} {error : UsageError}
    (fails : parse arguments = .error error) (more : List String) :
    parse (arguments ++ more) = .error error := by
  unfold parse at fails ⊢
  rw [List.foldlM_append, fails]
  rfl

theorem parse_of_consistent {arguments : List String} (consistent : Consistent (kinds arguments)) :
    parse arguments = .ok (meaning (kinds arguments)) := by
  induction arguments using List.reverseRecOn with
  | nil => rfl
  | append_singleton arguments last ih =>
      rw [kinds, List.map_append] at consistent ⊢
      rw [parse_concat, ih consistent.of_append]
      refine add_meaning (consistent.acceptable _ ?_) consistent.oneInput
      simp

theorem parse_of_offends {before : List String} {last : String} {error : UsageError}
    (consistent : Consistent (kinds before))
    (offends : Offends (kinds before) (.ofString last) error) (after : List String) :
    parse (before ++ last :: after) = .error error := by
  have fails : parse (before ++ [last]) = .error error := by
    rw [parse_concat, parse_of_consistent consistent]
    exact offends.add_eq
  rw [← List.singleton_append, ← List.append_assoc]
  exact parse_append_of_error fails after

/-- Arguments that are not consistent have a first one that offends. -/
theorem exists_offends {arguments : List String} (inconsistent : ¬ Consistent (kinds arguments)) :
    ∃ before last after error, arguments = before ++ last :: after ∧
      Consistent (kinds before) ∧ Offends (kinds before) (.ofString last) error := by
  induction arguments using List.reverseRecOn with
  | nil => exact absurd ⟨by simp, by simp⟩ inconsistent
  | append_singleton arguments last ih =>
      by_cases consistent : Consistent (kinds arguments)
      · rcases consistent.concat_or (.ofString last) with extended | ⟨error, offends⟩
        · exact absurd (by simpa [kinds] using extended) inconsistent
        · exact ⟨arguments, last, [], error, rfl, consistent, offends⟩
      · obtain ⟨before, offender, after, error, rfl, consistent, offends⟩ := ih consistent
        exact ⟨before, offender, after ++ [last], error, by simp, consistent, offends⟩

theorem parse_eq_ok_iff {arguments : List String} {invocation : Invocation} :
    parse arguments = .ok invocation ↔
      Consistent (kinds arguments) ∧ invocation = meaning (kinds arguments) := by
  constructor
  · intro parsed
    by_cases consistent : Consistent (kinds arguments)
    · rw [parse_of_consistent consistent] at parsed
      exact ⟨consistent, (Except.ok.inj parsed).symm⟩
    · obtain ⟨before, last, after, error, rfl, consistent, offends⟩ := exists_offends consistent
      rw [parse_of_offends consistent offends] at parsed
      cases parsed
  · rintro ⟨consistent, rfl⟩
    exact parse_of_consistent consistent

/-- Reading fails at the argument with this number. -/
def FailsAt (arguments : List String) (number : Nat) : Prop :=
  (∃ invocation, parse (arguments.take number) = .ok invocation) ∧
    ∃ error, parse (arguments.take (number + 1)) = .error error

/-- What has failed once has failed for good. -/
theorem FailsAt.unique {arguments : List String} {first second : Nat}
    (isFirst : FailsAt arguments first) (isSecond : FailsAt arguments second) :
    first = second := by
  have notBefore : ∀ {early late : Nat}, FailsAt arguments early → FailsAt arguments late →
      ¬ early < late := by
    rintro early late ⟨-, error, fails⟩ ⟨⟨invocation, parsed⟩, -⟩ before
    have start : arguments.take (early + 1) <+: arguments.take late :=
      List.take_prefix_take_left (by omega)
    obtain ⟨more, split⟩ := start
    rw [← split, parse_append_of_error fails more] at parsed
    cases parsed
  have notLess := notBefore isFirst isSecond
  have notGreater := notBefore isSecond isFirst
  omega

/-- Reading that fails does so at some argument, which offends. -/
theorem exists_failsAt {arguments : List String} {error : UsageError}
    (fails : parse arguments = .error error) :
    ∃ number argument, FailsAt arguments number ∧ arguments[number]? = some argument ∧
      Offends (kinds (arguments.take number)) (.ofString argument) error := by
  have inconsistent : ¬ Consistent (kinds arguments) := by
    intro consistent
    rw [parse_of_consistent consistent] at fails
    cases fails
  obtain ⟨before, last, after, cause, rfl, consistent, offends⟩ := exists_offends inconsistent
  rw [parse_of_offends consistent offends] at fails
  cases fails
  have accepted : (before ++ last :: after).take before.length = before := by simp
  have refused : (before ++ last :: after).take (before.length + 1) = before ++ [last] := by
    rw [List.take_length_add_append]
    rfl
  refine ⟨before.length, last, ⟨?_, error, ?_⟩, by simp, ?_⟩
  · rw [accepted]
    exact ⟨_, parse_of_consistent consistent⟩
  · rw [refused]
    exact parse_of_offends consistent offends []
  · rw [accepted]
    exact offends

end Parse

/-- A command line is accepted if its arguments are consistent, and then asks for what
they mean, in whatever order the arguments of different kinds are given.  Otherwise
reading fails at one argument, because of this argument, and more arguments do not
change the error. -/
theorem parse_meaning (arguments : List String) :
    (∀ kind name, Argument.ofString name = kind ↔ Argument.SpelledAs kind name) ∧
      ((∃ invocation, parse arguments = .ok invocation) ↔ Consistent (kinds arguments)) ∧
      (∀ invocation, parse arguments = .ok invocation →
        invocation = meaning (kinds arguments) ∧
          ∀ others, Reordered (kinds arguments) (kinds others) →
            parse others = .ok invocation) ∧
      ∀ error, parse arguments = .error error →
        (∃! number, FailsAt arguments number) ∧
          (∀ number, FailsAt arguments number →
            ∃ argument, arguments[number]? = some argument ∧
              Offends (kinds (arguments.take number)) (.ofString argument) error) ∧
          ∀ more, parse (arguments ++ more) = .error error := by
  refine ⟨fun kind name => Argument.ofString_eq_iff, ?_, ?_, ?_⟩
  · constructor
    · rintro ⟨invocation, parsed⟩
      exact (parse_eq_ok_iff.mp parsed).1
    · intro consistent
      exact ⟨_, parse_of_consistent consistent⟩
  · intro invocation parsed
    obtain ⟨consistent, rfl⟩ := parse_eq_ok_iff.mp parsed
    refine ⟨rfl, ?_⟩
    intro others reordered
    rw [reordered.meaning_eq]
    exact parse_of_consistent (reordered.consistent consistent)
  · intro error fails
    obtain ⟨number, argument, failsAt, found, offends⟩ := exists_failsAt fails
    refine ⟨⟨number, failsAt, fun other otherFails => otherFails.unique failsAt⟩, ?_,
      parse_append_of_error fails⟩
    intro other otherFails
    obtain rfl := otherFails.unique failsAt
    exact ⟨argument, found, offends⟩

end Invocation
end OneTape

import ArturoInsight.CommandLine.Invocation
import Mathlib.Data.List.TakeWhile

/-! How files are named to a command that takes many of them: as they are where none of them starts with a hyphen, or
all of them after two hyphens, which make an operand of every path. -/

namespace ArturoInsight.CommandLine

/-- The operands that name some paths. -/
inductive Named (paths : List String) : List String → Prop
  | plain (plain : ∀ path ∈ paths, path.toList.head? ≠ some '-') : Named paths paths
  | separated : Named paths ("--" :: paths)

section Words

variable {switches : List Switch}

theorem word?_of_plain {path : String} (plain : path.toList.head? ≠ some '-') :
    word? switches path = some (.value path) := by
  rw [word?, if_pos (by simp [plain])]

theorem words?_of_plain {paths : List String} (plain : ∀ path ∈ paths, path.toList.head? ≠ some '-') :
    words? switches paths = some (paths.map .value) := by
  induction paths with
  | nil => rfl
  | cons path paths ih =>
    obtain ⟨here, later⟩ := List.forall_mem_cons.1 plain
    have other : (path == "--") = false := by
      rw [beq_eq_false_iff_ne]
      rintro rfl
      exact here rfl
    rw [words?, other, word?_of_plain here, ih later]
    rfl

theorem operands?_many {words : List Word} (values : ∀ word ∈ words, word.isSwitch = false) {text : String}
    {rest : List Word} (first : words.dropWhile Word.isSeparator = .value text :: rest) :
    Reading.operands? .many words = some ((words.map Word.text).erase "--", []) := by
  have all : ∀ word ∈ words, (!word.isSwitch) = true := fun word member => by rw [values word member, Bool.not_false]
  simp only [Reading.operands?, first, List.takeWhile_eq_self_iff.2 all, List.dropWhile_eq_nil_iff.2 all]

theorem Named.exists_words {paths operands : List String} (named : Named paths operands) (some : paths ≠ []) :
    ∃ words, words? switches operands = .some words ∧ words.map Word.text = operands ∧
      (∀ word ∈ words, word.isSwitch = false) ∧ Reading.operands? .many words = .some (paths, []) := by
  obtain ⟨path, rest, rfl⟩ := List.exists_cons_of_ne_nil some
  have texts : ((path :: rest).map Word.value).map Word.text = path :: rest := by simp [Function.comp_def, Word.text]
  have values : ∀ word ∈ (path :: rest).map Word.value, word.isSwitch = false := by simp [Word.isSwitch]
  cases named with
  | plain plain =>
    have apart : "--" ∉ path :: rest := fun member => plain _ member rfl
    refine ⟨(path :: rest).map .value, words?_of_plain plain, texts, values, ?_⟩
    rw [operands?_many values rfl, texts, List.erase_of_not_mem apart]
  | separated =>
    have unswitched : ∀ word ∈ .separator :: (path :: rest).map Word.value, word.isSwitch = false :=
      List.forall_mem_cons.2 ⟨rfl, values⟩
    refine ⟨.separator :: (path :: rest).map .value, rfl, by rw [List.map_cons, texts]; rfl, unswitched, ?_⟩
    rw [operands?_many unswitched rfl, List.map_cons, texts]
    rfl

theorem addWords_of_operands? {fuel : Nat} {reading : Reading} {words : List Word} {operands : List String}
    (first : ∀ word ∈ words.head?, word.isSwitch = false)
    (taken : Reading.operands? reading.waiting words = some (operands, [])) :
    Reading.addWords switches (fuel + 1) reading words = .ok { reading with waiting := .none, operands } := by
  have start : Reading.addWords switches (fuel + 1) reading words =
      Reading.addWords switches fuel { reading with waiting := .none, operands } [] := by
    rw [Reading.addWords]
    · simp only [taken]
    all_goals
      intros
      subst words
      exact absurd (first _ rfl) (by simp [Word.isSwitch])
  rw [start]
  cases fuel with
  | zero => rfl
  | succ fuel => simp [Reading.addWords, Reading.operands?]

end Words

theorem ofArguments_command {name : String} {args : List String} {words : List Word}
    (plain : name.toList.head? ≠ some '-') (read : words? mainSwitches args = some words)
    (texts : words.map Word.text = args) :
    Reading.ofArguments mainSwitches .command (name :: args) = .ok ⟨[], [], .none, name :: args, []⟩ := by
  have other : (name == "--") = false := by
    rw [beq_eq_false_iff_ne]
    rintro rfl
    exact plain rfl
  have all : words? mainSwitches (name :: args) = some (.value name :: words) := by
    rw [words?, other, word?_of_plain plain, read]
    rfl
  have taken : Reading.operands? .command (.value name :: words) = some (name :: args, []) := by
    rw [← texts]
    rfl
  rw [Reading.ofArguments, all]
  exact addWords_of_operands? (by simp [Word.isSwitch]) taken

theorem ofArguments_lint_json {paths operands : List String} (named : Named paths operands) (some : paths ≠ []) :
    Invocation.ofArguments ("lint" :: "--json" :: operands) =
      .ok ⟨none, none, none, .lint paths true (Option.some .hint)⟩ := by
  have outer : Reading.ofArguments mainSwitches .command ("lint" :: "--json" :: operands) =
      .ok ⟨[], [], .none, "lint" :: "--json" :: operands, []⟩ := by
    obtain ⟨words, read, texts, -, -⟩ := @Named.exists_words mainSwitches _ _ named some
    have unknown : word? mainSwitches "--json" = Option.some (.switch none none "--json") := by with_unfolding_all rfl
    have all : words? mainSwitches ("--json" :: operands) = Option.some (.switch none none "--json" :: words) := by
      rw [words?, read, unknown]
      rfl
    exact ofArguments_command (by decide) all (by rw [← texts]; rfl)
  have inner {switches : List Switch}
      (known : word? switches "--json" = Option.some (.switch (Option.some jsonSwitch) none "--json")) :
      Reading.ofArguments switches .many ("--json" :: operands) = .ok ⟨[], ["json"], .none, paths, []⟩ := by
    obtain ⟨words, read, -, values, taken⟩ := @Named.exists_words switches _ _ named some
    have all : words? switches ("--json" :: operands) =
        Option.some (.switch (Option.some jsonSwitch) none "--json" :: words) := by
      rw [words?, read, known]
      rfl
    rw [Reading.ofArguments, all]
    exact addWords_of_operands? (fun word first => values word (List.mem_of_mem_head? first)) taken
  rw [Invocation.ofArguments, outer]
  simp only [command?, bind, Except.bind]
  rw [inner (by rfl)]
  obtain ⟨path, rest, rfl⟩ := List.exists_cons_of_ne_nil some
  rfl

end ArturoInsight.CommandLine

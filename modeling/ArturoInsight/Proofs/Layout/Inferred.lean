import ArturoInsight.Proofs.Layout.TypeNames

/-! The type of a value before and after its layout. It is the same but for a character that is an operator,
which the layout moves away from its backtick. -/

namespace ArturoInsight.Layout

open Text Lexical ValueType

variable {before : Option Left} {a b : List Spaced} {gap new : List Char} {c : Char}

theorem mem_trimEnd {text : List Char} (solid : isBlank c = false) : c ∈ trimEnd text ↔ c ∈ text := by
  have same : c ∈ solids (trimEnd text) ↔ c ∈ solids text := by rw [solids_trimEnd]
  simpa [solids, solid] using same

theorem not_compact_of_isSign {text : List Char} (sign : isSign c = true) (member : c ∈ text) :
    ¬ Compact (trimEnd text) := by
  intro compact
  have solid : isBlank c = false := by
    have all : ∀ c ∈ ['+', '*', '/', '=', '<', '>'], isBlank c = false := by decide
    exact all c (List.contains_iff_mem.1 sign)
  have other := (compact c ((mem_trimEnd solid).2 member)).2
  rw [sign] at other
  contradiction

theorem trimEnd_gap (gap : List Char) (c : Char) (rest : List Char) (shown : ¬ Blanks (c :: rest)) :
    trimEnd (gap ++ c :: rest) = gap ++ c :: trimEnd rest := by
  cases blank : isBlank c with
  | false => exact trimEnd_append_cons blank gap rest
  | true =>
    have later : ¬ Blanks rest := fun blanks => shown (List.forall_mem_cons.2 ⟨blank, blanks⟩)
    obtain ⟨more, blanks, rfl | ⟨d, after, solid, rfl⟩⟩ := exists_gap rest
    · exact absurd blanks later
    · rw [trimEnd_append_cons solid, ← List.cons_append, ← List.append_assoc, trimEnd_append_cons solid]
      simp

theorem Regap.eq_nil_iff {right : Bool} (regap : Regap before gap new right)
    (minus : ∀ left ∈ before, left.isOperator = true → left.char = '-')
    (joined : before = none → gap = [] ∧ new = []) (apart : right = true → before.isSome → gap ≠ []) :
    gap = [] ↔ new = [] := by
  cases before with
  | none => simp [joined rfl]
  | some left =>
    have written := regap.written left rfl
    cases operator : left.isOperator with
    | true =>
      have part : isNamePart left.char = true := by
        rw [minus left rfl operator]
        decide
      have some_ := (regap.operator left rfl operator).2 part
      simp [some_, written, operator, space]
    | false =>
      cases right with
      | true => simp [apart, written, space]
      | false =>
        have empty := isEmpty_collapse gap
        rw [Bool.eq_iff_iff, List.isEmpty_iff, List.isEmpty_iff] at empty
        rw [written, operator]
        exact empty.symm

theorem compact_step {right : Bool} (regap : Regap before gap new right) (same : gap = [] ↔ new = [])
    (rest : solids (written a) = solids (written b))
    (later : Compact (trimEnd (written a)) ∨ Compact (trimEnd (written b)) →
      trimEnd (written a) = trimEnd (written b))
    (compact : Compact (trimEnd (gap ++ c :: written a)) ∨ Compact (trimEnd (new ++ c :: written b))) :
    trimEnd (gap ++ c :: written a) = trimEnd (new ++ c :: written b) := by
  have shown : Blanks (c :: written a) ↔ Blanks (c :: written b) := by
    rw [← solids_eq_nil, ← solids_eq_nil, solids_cons, solids_cons, rest]
  by_cases blanks : Blanks (c :: written a)
  · rw [trimEnd_blanks (List.forall_mem_append.2 ⟨regap.old, blanks⟩),
      trimEnd_blanks (List.forall_mem_append.2 ⟨regap.fresh, shown.1 blanks⟩)]
  · rw [trimEnd_gap _ _ _ blanks, trimEnd_gap _ _ _ (mt shown.2 blanks)] at compact ⊢
    have empty {gap text : List Char} (blanks : Blanks gap) (compact : Compact (gap ++ c :: text)) :
        gap = [] ∧ Compact text := by
      obtain ⟨first, last⟩ := List.forall_mem_append.1 compact
      refine ⟨List.eq_nil_iff_forall_not_mem.2 fun d member => ?_, (List.forall_mem_cons.1 last).2⟩
      have solid := (first d member).1
      rw [blanks d member] at solid
      contradiction
    obtain compact | compact := compact
    · obtain ⟨none, tail⟩ := empty regap.old compact
      rw [later (.inl tail), none, same.1 none]
    · obtain ⟨none, tail⟩ := empty regap.fresh compact
      rw [later (.inr tail), none, same.2 none]

theorem gaps_nil {item other : Spaced} (joined : before = none → bare (item :: a) = item :: a ∧
    bare (other :: b) = other :: b) (start : before = none) : item.gap = [] ∧ other.gap = [] := by
  obtain ⟨first, second⟩ := joined start
  have left : ({ item with gap := [] } : Spaced) = item := (List.cons.inj first).1
  have right : ({ other with gap := [] } : Spaced) = other := (List.cons.inj second).1
  rw [← left, ← right]
  exact ⟨rfl, rfl⟩

theorem Respaced.compact_eq (respaced : Respaced before a b)
    (minus : ∀ left ∈ before, left.isOperator = true → left.char = '-')
    (joined : before = none → bare a = a ∧ bare b = b)
    (compact : Compact (trimEnd (written a)) ∨ Compact (trimEnd (written b))) :
    trimEnd (written a) = trimEnd (written b) := by
  have signed {c : Char} (sign : isSign c = true) {x y : List Char}
      (compact : Compact (trimEnd x) ∨ Compact (trimEnd y)) (first : c ∈ x) (second : c ∈ y) : False := by
    obtain compact | compact := compact
    · exact not_compact_of_isSign sign first compact
    · exact not_compact_of_isSign sign second compact
  induction respaced with
  | nil => rfl
  | plain sign solid regap rest ih =>
    rw [written_cons, written_cons] at compact ⊢
    have same := regap.eq_nil_iff minus (gaps_nil joined) (by simp)
    exact compact_step regap same rest.solids_eq (ih (by simp) (by simp)) compact
  | single sign regap rest ih =>
    rw [written_cons, written_cons] at compact ⊢
    obtain sign | ⟨rfl, some_⟩ := sign
    · exact (signed sign compact (by simp) (by simp)).elim
    · have same := regap.eq_nil_iff minus (gaps_nil joined) fun _ => some_
      exact compact_step regap same rest.solids_eq (ih (by simp) (by simp)) compact
  | double firm regap rest ih =>
    exact (signed (isMark_of_double firm).2 compact (by simp) (by simp)).elim
  | other string regap rest ih =>
    rw [written_cons, written_cons] at compact ⊢
    have same := regap.eq_nil_iff minus (gaps_nil joined) (by simp)
    exact compact_step regap same rest.solids_eq (ih (by simp) (by simp)) compact


section Starts

variable {left : Left}

theorem Respaced.bare (code : left.isCode = true) (respaced : Respaced (some left) a b) :
    Respaced none (bare a) (bare b) := by
  have start {right : Bool} : Regap none [] [] right := ⟨blanks_nil, blanks_nil, by simp, by simp⟩
  cases respaced with
  | nil => exact .nil
  | plain sign solid regap rest => exact .plain sign solid start rest
  | single sign regap rest => exact .single (sign.imp_right fun minus => ⟨minus.1, by simp⟩) start rest
  | double firm regap rest => exact .double firm start rest
  | other marks regap rest =>
    exact .other (.inl (marks.resolve_right (by simp [code]))) start rest

theorem Respaced.solid (respaced : Respaced none a b) :
    (∀ item ∈ a.head?, isBlank item.char = false) ∧ ∀ item ∈ b.head?, isBlank item.char = false := by
  cases respaced with
  | nil => simp
  | plain sign solid regap rest => simp [solid]
  | single sign regap rest => simp [not_isBlank_of_isMark (isMark_of_single sign)]
  | double firm regap rest => simp [not_isBlank_of_isMark (isMark_of_double firm).1]
  | @other _ _ _ c _ _ marks regap rest =>
    have marks : endsCode c = true := marks.resolve_right (by simp)
    have solid : isBlank c = false := by
      by_contra blank
      rw [endsCode_of_isBlank (by simpa using blank)] at marks
      contradiction
    simp [solid]

theorem Respaced.gaps (respaced : Respaced before a b) :
    (∀ item ∈ a, Blanks item.gap) ∧ ∀ item ∈ b, Blanks item.gap := by
  have cons {item : Spaced} {line : List Spaced} (first : Blanks item.gap)
      (later : ∀ item ∈ line, Blanks item.gap) : ∀ other ∈ item :: line, Blanks other.gap :=
    List.forall_mem_cons.2 ⟨first, later⟩
  induction respaced with
  | nil => simp
  | plain sign solid regap rest ih => exact ⟨cons regap.old ih.1, cons regap.fresh ih.2⟩
  | single sign regap rest ih => exact ⟨cons regap.old ih.1, cons regap.fresh ih.2⟩
  | double firm regap rest ih =>
    exact ⟨cons regap.old (cons blanks_nil ih.1), cons regap.fresh (cons blanks_nil ih.2)⟩
  | other string regap rest ih => exact ⟨cons regap.old ih.1, cons regap.fresh ih.2⟩

theorem trim_written {line : List Spaced} (gaps : ∀ item ∈ line, Blanks item.gap)
    (solid : ∀ item ∈ (Lexical.bare line).head?, isBlank item.char = false) :
    trim (written line) = trimEnd (written (Lexical.bare line)) := by
  cases line with
  | nil => rfl
  | cons item rest =>
    have start : isBlank item.char = false := by simpa [Lexical.bare] using solid
    rw [trim, written_cons, trimStart_run (gaps item List.mem_cons_self) (by simpa using start)]
    rfl

theorem after?_written {word : List Char} (solid : ∀ c ∈ word, isBlank c = false) {line : List Spaced}
    (gaps : ∀ item ∈ line, Blanks item.gap) :
    after? word (written line) = (spelled? word line).map written := by
  induction word generalizing line with
  | nil => simp [after?, spelled?]
  | cons c word ih =>
    obtain ⟨first, later⟩ := List.forall_mem_cons.1 solid
    cases line with
    | nil => rfl
    | cons item rest =>
      obtain ⟨blanks, more⟩ := List.forall_mem_cons.1 gaps
      rw [written_cons, spelled?]
      cases gap : item.gap with
      | nil =>
        rw [List.nil_append, after?_cons, ih later more]
        by_cases same : c = item.char
        · simp [same]
        · simp [same, Ne.symm same]
      | cons d gap =>
        have other : c ≠ d := by
          rintro rfl
          rw [blanks c (by simp [gap])] at first
          contradiction
        rw [List.cons_append, after?_cons, if_neg other]
        rfl

theorem spelled?_start {word : List Char} (plain : ∀ c ∈ word, isMark c = false) (some_ : word ≠ [])
    (respaced : Respaced none a b) (bared : Lexical.bare a = a ∧ Lexical.bare b = b) :
    Option.Rel (fun x y => ∃ last : Left, last.isOperator = false ∧ Respaced (some last) x y)
      (spelled? word a) (spelled? word b) := by
  obtain ⟨d, word, rfl⟩ := List.exists_cons_of_ne_nil some_
  obtain ⟨first, later⟩ := List.forall_mem_cons.1 plain
  cases respaced with
  | nil => exact .none
  | plain sign solid regap rest =>
    obtain ⟨rfl, rfl⟩ := gaps_nil (fun _ => bared) rfl
    rw [spelled?, spelled?]
    split_ifs
    · exact spelled?_respaced later rfl rest
    · exact .none
  | single sign =>
    rw [spelled?_mark (isMark_of_single sign) first, spelled?_mark (isMark_of_single sign) first]
    exact .none
  | double firm =>
    rw [spelled?_mark (isMark_of_double firm).1 first, spelled?_mark (isMark_of_double firm).1 first]
    exact .none
  | other string regap rest =>
    obtain ⟨rfl, rfl⟩ := gaps_nil (fun _ => bared) rfl
    rw [spelled?, spelled?]
    split_ifs
    · exact spelled?_respaced later rfl rest
    · exact .none

theorem Respaced.head?_char {left : Left} (plain : left.isOperator = false) {c : Char} (solid : isBlank c = false)
    (unmarked : isMark c = false) (respaced : Respaced (some left) a b) :
    ((written a).head? == some c) = ((written b).head? == some c) := by
  have head (text : List Char) : (text.head? == some c) = text.head?.any (· == c) := by
    cases text <;> rfl
  rw [head, head]
  apply respaced.head?_eq plain
  · intro d blank
    rw [beq_eq_false_iff_ne]
    rintro rfl
    rw [blank] at solid
    contradiction
  · exact fun d mark => beq_eq_false_iff_ne.2 (ne_of_isMark mark unmarked)

theorem occursIn_respaced {point : Char} (solid : isBlank point = false) (unmarked : isMark point = false)
    (respaced : Respaced before a b) :
    occursIn [point, point] (written a) = occursIn [point, point] (written b) := by
  have item {gap : List Char} (blanks : Blanks gap) (c : Char) (text : List Char) :
      occursIn [point, point] (gap ++ c :: text) =
        (c == point && text.head? == some point || occursIn [point, point] text) := by
    induction gap with
    | nil => exact occursIn_pair point point c text
    | cons d gap ih =>
      obtain ⟨blank, later⟩ := List.forall_mem_cons.1 blanks
      have other : d ≠ point := by
        rintro rfl
        rw [blank] at solid
        contradiction
      rw [List.cons_append, ← ih later]
      exact (occursIn_pair point point d _).trans (by simp [other])
  have other {c : Char} (mark : isMark c = true) : (c == point) = false :=
    beq_eq_false_iff_ne.2 (ne_of_isMark mark unmarked)
  induction respaced with
  | nil => rfl
  | plain sign solidC regap rest ih =>
    rw [written_cons, written_cons, item regap.old, item regap.fresh, ih, rest.head?_char rfl solid unmarked]
  | single sign regap rest ih =>
    rw [written_cons, written_cons, item regap.old, item regap.fresh, ih, other (isMark_of_single sign),
      Bool.false_and, Bool.false_and]
  | double firm regap rest ih =>
    obtain ⟨mark, sign⟩ := isMark_of_double firm
    have second := other (isMark_of_isSign sign)
    simp only [written_cons, item regap.old, item regap.fresh, item blanks_nil, ih, other mark, second,
      Bool.false_and]
  | other string regap rest ih =>
    rw [written_cons, written_cons, item regap.old, item regap.fresh, ih, rest.head?_char rfl solid unmarked]

theorem alike_of_respaced {left : Left} (code : left.isCode = true) (respaced : Respaced (some left) a b) :
    Alike (trim (written a)) (trim (written b)) := by
  have value := respaced.bare code
  have bared := And.intro (bare_bare a) (bare_bare b)
  have head : (trim (written a)).head? = (trim (written b)).head? := by
    rw [head?_trim, head?_trim, respaced.solids_eq]
  have start {word : List Char} (whole : Whole word) :=
    rel_cases (spelled?_start (fun c member => (whole.2 c member).1) whole.1 value bared)
  obtain ⟨first, second⟩ := value.gaps
  rw [trim_written respaced.gaps.1 value.solid.1, trim_written respaced.gaps.2 value.solid.2] at head ⊢
  constructor
  case compact => exact value.compact_eq (by simp) fun _ => bared
  case head => exact head
  case starts =>
    intro word whole
    have solid : ∀ c ∈ word, isBlank c = false := fun c member => (whole.2 c member).2
    rw [isPrefixOf_trimEnd solid, isPrefixOf_trimEnd solid, isPrefixOf_eq, isPrefixOf_eq,
      after?_written solid first, after?_written solid second, Option.isSome_map, Option.isSome_map]
    obtain ⟨none, none'⟩ | ⟨x, y, found, found', -⟩ := start whole
    · rw [none, none']
    · rw [found, found']
      rfl
  case words =>
    intro word whole
    have solid : ∀ c ∈ word.toList, isBlank c = false := fun c member => (whole.2 c member).2
    rw [startsWithWord_trimEnd solid, startsWithWord_trimEnd solid, startsWithWord_eq, startsWithWord_eq,
      after?_written solid first, after?_written solid second, Option.any_map, Option.any_map]
    obtain ⟨none, none'⟩ | ⟨x, y, found, found', last, operator, rest⟩ := start whole
    · rw [none, none']
    · have next := rest.head?_eq operator (fun c => not_isWord_of_isBlank) fun c => not_isWord_of_isMark
      simp [found, found', next]
  case points =>
    have point : isBlank '.' = false ∧ isMark '.' = false := by decide
    exact (occursIn_trimEnd point.1 _).trans
      ((occursIn_respaced point.1 point.2 value).trans (occursIn_trimEnd point.1 _).symm)

end Starts

def isSignCharacter (value : List Char) : Bool :=
  match value with
  | [mark, c] => mark == '\x60' && isSign c
  | _ => false

section Characters

variable {left : Left} {d : Char}

theorem solids_gap {gap : List Char} (blanks : Blanks gap) (solid : isBlank c = false) (rest : List Char) :
    solids (gap ++ c :: rest) = c :: solids rest := by
  rw [solids_append, solids_eq_nil.2 blanks, solids_cons, solid]
  rfl

theorem ne_of_isSign (sign : isSign d = true) (other : isSign c = false) : c ≠ d := by
  rintro rfl
  rw [sign] at other
  contradiction

theorem not_isSign_of_endsCode (marks : endsCode c = true) : isSign c = false ∧ isBlank c = false := by
  have all : ∀ c ∈ [';', '\x7b', '\x22', '«'], isSign c = false ∧ isBlank c = false := by decide
  exact all c (by simpa [endsCode, or_assoc] using marks)

theorem written_sign (code : left.isCode = true) (respaced : Respaced (some left) a b) (sign : isSign d = true)
    (only : solids (written a) = [d]) : trimEnd (written b) = [' ', d] := by
  cases respaced with
  | nil => contradiction
  | plain unsigned solid regap rest =>
    rw [written_cons, solids_gap regap.old solid] at only
    exact absurd (List.cons.inj only).1 (ne_of_isSign sign unsigned)
  | single mark regap rest =>
    have solid := not_isBlank_of_isMark (isMark_of_single mark)
    rw [written_cons, solids_gap regap.old solid] at only
    obtain ⟨rfl, none⟩ := List.cons.inj only
    rw [rest.solids_eq, solids_eq_nil] at none
    rw [written_cons, regap.eq_space, trimEnd_append_cons solid, trimEnd_blanks none]
    rfl
  | double firm regap rest =>
    have solid := not_isBlank_of_isMark (isMark_of_double firm).1
    have second := not_isBlank_of_isMark (isMark_of_isSign (isMark_of_double firm).2)
    rw [written_cons, written_cons, solids_gap regap.old solid, solids_gap blanks_nil second] at only
    simp at only
  | other marks regap rest =>
    obtain ⟨unsigned, solid⟩ := not_isSign_of_endsCode (marks.resolve_right (by simp [code]))
    rw [written_cons, solids_gap regap.old solid] at only
    exact absurd (List.cons.inj only).1 (ne_of_isSign sign unsigned)

theorem written_signCharacter (respaced : Respaced none a b) (bared : Lexical.bare a = a ∧ Lexical.bare b = b)
    (sign : isSign d = true) (only : solids (written a) = ['\x60', d]) :
    trimEnd (written b) = ['\x60', ' ', d] := by
  cases respaced with
  | nil => contradiction
  | plain unsigned solid regap rest =>
    obtain ⟨rfl, rfl⟩ := gaps_nil (fun _ => bared) rfl
    rw [written_cons, solids_gap regap.old solid] at only
    obtain ⟨rfl, last⟩ := List.cons.inj only
    rw [written_cons, trimEnd_append_cons solid, written_sign rfl rest sign last]
    rfl
  | single mark regap rest =>
    have mark := isMark_of_single mark
    rw [written_cons, solids_gap regap.old (not_isBlank_of_isMark mark)] at only
    exact absurd (List.cons.inj only).1 (ne_of_isMark mark (by decide))
  | double firm regap rest =>
    have mark := (isMark_of_double firm).1
    rw [written_cons, solids_gap regap.old (not_isBlank_of_isMark mark)] at only
    exact absurd (List.cons.inj only).1 (ne_of_isMark mark (by decide))
  | other marks regap rest =>
    have marks := marks.resolve_right (by simp)
    rw [written_cons, solids_gap regap.old (not_isSign_of_endsCode marks).2] at only
    rw [(List.cons.inj only).1] at marks
    exact absurd marks (by decide)

theorem exists_of_isCharacter {value : List Char} (character : isCharacter value = true) :
    ∃ c, value = ['\x60', c] := by
  unfold isCharacter at character
  split at character
  · rw [Bool.and_eq_true, beq_iff_eq] at character
    exact ⟨_, by rw [character.1]⟩
  · contradiction

theorem exists_of_isSignCharacter {value : List Char} (character : isSignCharacter value = true) :
    ∃ c, isSign c = true ∧ value = ['\x60', c] := by
  unfold isSignCharacter at character
  split at character
  · rw [Bool.and_eq_true, beq_iff_eq] at character
    exact ⟨_, character.2, by rw [character.1]⟩
  · contradiction

theorem compact_trim {text : List Char} (value : trim text = ['\x60', c]) (unsigned : isSign c = false) :
    Compact (trim text) := by
  have last : (trimEnd (trimStart text)).getLast? = some c := by
    change (trim text).getLast? = some c
    rw [value]
    rfl
  rw [value]
  exact List.forall_mem_cons.2 ⟨by decide, List.forall_mem_singleton.2 ⟨getLast?_trimEnd last, unsigned⟩⟩

theorem solids_trim_sign {text : List Char} (value : trim text = ['\x60', c]) (sign : isSign c = true) :
    solids text = ['\x60', c] := by
  have solid := not_isBlank_of_isMark (isMark_of_isSign sign)
  rw [← solids_trim, value]
  exact (solids_gap blanks_nil (by decide) [c]).trans (congrArg _ (solids_gap blanks_nil solid []))

end Characters

section Types

variable {left : Left} (code : left.isCode = true) (respaced : Respaced (some left) a b)

include code respaced

theorem trim_signCharacter {d : Char} (sign : isSign d = true) (only : solids (written a) = ['\x60', d]) :
    trim (written b) = ['\x60', ' ', d] := by
  have value := respaced.bare code
  rw [trim_written respaced.gaps.2 value.solid.2]
  apply written_signCharacter value ⟨bare_bare a, bare_bare b⟩ sign
  rw [← solids_trimEnd, ← trim_written respaced.gaps.1 value.solid.1, trim, solids_trimEnd, solids_trimStart, only]

theorem isCharacter_respaced (other : isSignCharacter (trim (written a)) = false) :
    isCharacter (trim (written a)) = isCharacter (trim (written b)) := by
  have alike := alike_of_respaced code respaced
  cases first : isCharacter (trim (written a)) with
  | true =>
    obtain ⟨c, value⟩ := exists_of_isCharacter first
    have unsigned : isSign c = false := by simpa [isSignCharacter, value] using other
    rw [← alike.compact (.inl (compact_trim value unsigned)), first]
  | false =>
    cases second : isCharacter (trim (written b)) with
    | false => rfl
    | true =>
      obtain ⟨c, value⟩ := exists_of_isCharacter second
      cases sign : isSign c with
      | false => rw [← first, alike.compact (.inr (compact_trim value sign)), second]
      | true =>
        have only := solids_trim_sign value sign
        rw [← respaced.solids_eq] at only
        rw [trim_signCharacter code respaced sign only] at value
        simp at value

theorem infer_respaced : infer (trim (written b)) =
    if isSignCharacter (trim (written a)) then .any else infer (trim (written a)) := by
  have alike := alike_of_respaced code respaced
  rw [infer, infer, trim_trim, trim_trim]
  cases character : isSignCharacter (trim (written a)) with
  | false => exact (alike.ofTrimmed_eq (isCharacter_respaced code respaced character)).symm
  | true =>
    obtain ⟨c, sign, value⟩ := exists_of_isSignCharacter character
    rw [trim_signCharacter code respaced sign (solids_trim_sign value sign), if_pos rfl]
    have all : ∀ c ∈ ['+', '*', '/', '=', '<', '>'], ofTrimmed ['\x60', ' ', c] = .any := by decide
    exact all c (List.contains_iff_mem.1 sign)

theorem isFunctionValue_respaced : isFunctionValue (trim (written b)) = isFunctionValue (trim (written a)) := by
  rw [isFunctionValue, isFunctionValue, trim_trim, trim_trim, (alike_of_respaced code respaced).startsFunction_eq]

end Types

end ArturoInsight.Layout

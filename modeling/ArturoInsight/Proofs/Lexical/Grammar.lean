import ArturoInsight.Proofs.Lexical.Runs
import Mathlib.Data.List.GetD
import Mathlib.Data.List.Infix

/-! The grammar of a line: runs of code and closed strings in any order, then perhaps a comment or a
string that stays open. The scan of such a line tags every character with the form it stands in. -/

namespace ArturoInsight.Lexical

/-- What may stand in double quotes: characters other than a quote and a backslash, and backslashes
each with the character that it escapes. -/
inductive Escaped : List Char → Prop where
  | nil : Escaped []
  | plain {c : Char} {rest : List Char} :
      c ≠ '\x22' → c ≠ '\\' → Escaped rest → Escaped (c :: rest)
  | escape {c : Char} {rest : List Char} : Escaped rest → Escaped ('\\' :: c :: rest)

theorem escaped_of_forall {body : List Char} (plain : ∀ c ∈ body, c ≠ '\x22' ∧ c ≠ '\\') : Escaped body := by
  induction body with
  | nil => exact .nil
  | cons c rest ih =>
    obtain ⟨here, later⟩ := List.forall_mem_cons.1 plain
    exact .plain here.1 here.2 (ih later)

/-- A part of a line that is complete in itself. -/
inductive Segment where
  | code (run : List Char) (plain : ∀ c ∈ run, endsCode c = false)
  | quoted (body : List Char) (escaped : Escaped body)
  | curly (body : List Char) (unclosed : '\x7d' ∉ body)
      (bare : body.head? ≠ some '!' ∧ body.head? ≠ some ':')
  | embedded (body : List Char) (unclosed : '\x7d' ∉ body)
  | verbatim (body : List Char) (unclosed : ¬ [':', '\x7d'] <:+: body)
  | guillemets (body : List Char) (unclosed : ¬ ['»', '»'] <:+: body ++ ['»'])

/-- What may end a line: a comment, or a string that nothing closes. -/
inductive Ending where
  | nothing
  | comment (body : List Char)
  | guillemet (body : List Char) (single : body.head? ≠ some '«')
  | quoted (body : List Char) (escaped : Escaped body)
  | quotedBackslash (body : List Char) (escaped : Escaped body)
  | curly (body : List Char) (unclosed : '\x7d' ∉ body)
      (bare : body.head? ≠ some '!' ∧ body.head? ≠ some ':')
  | embedded (body : List Char) (unclosed : '\x7d' ∉ body)
  | verbatim (body : List Char) (unclosed : ¬ [':', '\x7d'] <:+: body)
  | guillemets (body : List Char) (unclosed : ¬ ['»', '»'] <:+: body)

namespace Segment

def text : Segment → List Char
  | code run _ => run
  | quoted body _ => '\x22' :: body ++ ['\x22']
  | curly body _ _ => '\x7b' :: body ++ ['\x7d']
  | embedded body _ => '\x7b' :: '!' :: body ++ ['\x7d']
  | verbatim body _ => '\x7b' :: ':' :: body ++ [':', '\x7d']
  | guillemets body _ => '«' :: '«' :: body ++ ['»', '»']

/-- The form of a string; none for code, whose characters differ by the brackets before them. -/
def form? : Segment → Option Tag
  | code _ _ => none
  | quoted _ _ => some .quoted
  | curly _ _ _ => some .curly
  | embedded _ _ => some .embedded
  | verbatim _ _ => some .verbatim
  | guillemets _ _ => some .guillemets

def codeOf (segment : Segment) : List Char :=
  match segment with
  | code run _ => run
  | _ => []

end Segment

namespace Ending

def text : Ending → List Char
  | nothing => []
  | comment body => ';' :: body
  | guillemet body _ => '«' :: body
  | quoted body _ => '\x22' :: body
  | quotedBackslash body _ => '\x22' :: body ++ ['\\']
  | curly body _ _ => '\x7b' :: body
  | embedded body _ => '\x7b' :: '!' :: body
  | verbatim body _ => '\x7b' :: ':' :: body
  | guillemets body _ => '«' :: '«' :: body

def form : Ending → Tag
  | nothing => .code
  | comment _ => .comment
  | guillemet _ _ => .guillemet
  | quoted _ _ | quotedBackslash _ _ => .quoted
  | curly _ _ _ => .curly
  | embedded _ _ => .embedded
  | verbatim _ _ => .verbatim
  | guillemets _ _ => .guillemets

def tags (ending : Ending) : List Tag := List.replicate ending.text.length ending.form

end Ending

def nestAfter (depth : Nat) (code : List Char) : Nat := code.foldl nest depth

/-- The tags of a run of code after brackets: a character is in a block when it is an opening bracket
or brackets are open before it. -/
def codeTags (depth : Nat) : List Char → List Tag
  | [] => []
  | c :: rest => codeTagAt depth c :: codeTags (nest depth c) rest

theorem map_isCode_codeTags (depth : Nat) (run : List Char) :
    (codeTags depth run).map Tag.isCode = List.replicate run.length true := by
  induction run generalizing depth with
  | nil => rfl
  | cons c run ih => rw [codeTags, List.map_cons, codeTagAt_isCode, ih, List.length_cons, List.replicate_succ]

def Segment.tags (depth : Nat) (segment : Segment) : List Tag :=
  match segment.form? with
  | some form => List.replicate segment.text.length form
  | none => codeTags depth segment.text

/-- The tags of consecutive segments; only code changes the count of open brackets. -/
def segmentTags (depth : Nat) : List Segment → List Tag
  | [] => []
  | segment :: rest => segment.tags depth ++ segmentTags (nestAfter depth segment.codeOf) rest

namespace State

theorem run_code {run : List Char} (plain : ∀ c ∈ run, endsCode c = false) (depth : Nat) :
    State.run ⟨.code, depth⟩ run = (codeTags depth run, ⟨.code, nestAfter depth run⟩) := by
  induction run generalizing depth with
  | nil => rfl
  | cons c rest ih =>
    rw [run_cons, step_code (plain c List.mem_cons_self),
      ih fun d member => plain d (List.mem_cons_of_mem c member)]
    rfl

theorem run_inside {tag : Tag} {body rest : List Char}
    (stays : ∀ before c after, body = before ++ c :: after →
      insideNext tag c (after ++ rest).head? = .inside tag) (depth : Nat) :
    State.run ⟨.inside tag, depth⟩ (body ++ rest) =
      (List.replicate body.length tag ++ (State.run ⟨.inside tag, depth⟩ rest).1,
        (State.run ⟨.inside tag, depth⟩ rest).2) := by
  induction body with
  | nil => rfl
  | cons c body ih =>
    have kept : State.step ⟨.inside tag, depth⟩ c (body ++ rest).head? =
        (tag, ⟨.inside tag, depth⟩) := by
      simp only [step, enter, stays [] c body rfl]
    rw [List.cons_append, run_cons, kept, ih fun before d after split =>
      stays (c :: before) d after (by rw [split]; rfl)]
    simp [List.replicate_succ]

theorem run_braced {tag : Tag} (braced : tag = .curly ∨ tag = .embedded) {body : List Char}
    (unclosed : '\x7d' ∉ body) (rest : List Char) (depth : Nat) :
    State.run ⟨.inside tag, depth⟩ (body ++ rest) =
      (List.replicate body.length tag ++ (State.run ⟨.inside tag, depth⟩ rest).1,
        (State.run ⟨.inside tag, depth⟩ rest).2) := by
  apply run_inside
  rintro before c after rfl
  have differs : c ≠ '\x7d' := by
    rintro rfl
    simp at unclosed
  rcases braced with rfl | rfl <;> simp [insideNext, differs]

theorem run_escaped {body : List Char} (escaped : Escaped body) (rest : List Char) (depth : Nat) :
    State.run ⟨.inside .quoted, depth⟩ (body ++ rest) =
      (List.replicate body.length .quoted ++ (State.run ⟨.inside .quoted, depth⟩ rest).1,
        (State.run ⟨.inside .quoted, depth⟩ rest).2) := by
  induction escaped with
  | nil => rfl
  | plain quote backslash _ ih =>
    rw [List.cons_append, run_cons]
    simp [step, enter, insideNext, quote, backslash, ih, List.replicate_succ]
  | escape _ ih =>
    rw [List.cons_append, List.cons_append, run_cons, run_cons]
    simp [step, enter, insideNext, ih, List.replicate_succ]

theorem run_marked {tag : Tag} {first second : Char}
    (closes : ∀ c next, insideNext tag c next =
      if c = first ∧ next = some second then .second tag false else .inside tag)
    {body rest : List Char}
    (unclosed : ∀ before after, body = before ++ first :: after →
      (after ++ rest).head? ≠ some second) (depth : Nat) :
    State.run ⟨.inside tag, depth⟩ (body ++ rest) =
      (List.replicate body.length tag ++ (State.run ⟨.inside tag, depth⟩ rest).1,
        (State.run ⟨.inside tag, depth⟩ rest).2) := by
  apply run_inside
  rintro before c after rfl
  rw [closes, if_neg]
  rintro ⟨rfl, follows⟩
  exact unclosed before after rfl follows

theorem run_verbatim {body rest : List Char} (unclosed : ¬ [':', '\x7d'] <:+: body)
    (follows : rest.head? ≠ some '\x7d') (depth : Nat) :
    State.run ⟨.inside .verbatim, depth⟩ (body ++ rest) =
      (List.replicate body.length .verbatim ++ (State.run ⟨.inside .verbatim, depth⟩ rest).1,
        (State.run ⟨.inside .verbatim, depth⟩ rest).2) := by
  apply run_marked (fun _ _ => rfl)
  rintro before after rfl next
  cases after with
  | nil => exact follows next
  | cons d after =>
    obtain rfl : d = '\x7d' := by simpa using next
    exact unclosed ⟨before, after, by simp⟩

theorem run_guillemets {body rest : List Char}
    (unclosed : ¬ ['»', '»'] <:+: body ++ rest.head?.toList) (depth : Nat) :
    State.run ⟨.inside .guillemets, depth⟩ (body ++ rest) =
      (List.replicate body.length .guillemets ++ (State.run ⟨.inside .guillemets, depth⟩ rest).1,
        (State.run ⟨.inside .guillemets, depth⟩ rest).2) := by
  apply run_marked (fun _ _ => rfl)
  rintro before after rfl next
  cases after with
  | nil =>
    have starts : rest.head? = some '»' := next
    exact unclosed ⟨before, [], by simp [starts]⟩
  | cons d after =>
    obtain rfl : d = '»' := by simpa using next
    exact unclosed ⟨before, after ++ rest.head?.toList, by simp⟩

section Openings

variable (rest : List Char) (depth : Nat)

theorem run_quote : State.run ⟨.code, depth⟩ ('\x22' :: rest) =
    (.quoted :: (State.run ⟨.inside .quoted, depth⟩ rest).1,
      (State.run ⟨.inside .quoted, depth⟩ rest).2) := rfl

theorem run_brace (bare : rest.head? ≠ some '!' ∧ rest.head? ≠ some ':') :
    State.run ⟨.code, depth⟩ ('\x7b' :: rest) =
      (.curly :: (State.run ⟨.inside .curly, depth⟩ rest).1,
        (State.run ⟨.inside .curly, depth⟩ rest).2) := by
  simp [run_cons, step, stepCode, enter, bare]

theorem run_brace_bang : State.run ⟨.code, depth⟩ ('\x7b' :: '!' :: rest) =
    (.embedded :: .embedded :: (State.run ⟨.inside .embedded, depth⟩ rest).1,
      (State.run ⟨.inside .embedded, depth⟩ rest).2) := rfl

theorem run_brace_colon : State.run ⟨.code, depth⟩ ('\x7b' :: ':' :: rest) =
    (.verbatim :: .verbatim :: (State.run ⟨.inside .verbatim, depth⟩ rest).1,
      (State.run ⟨.inside .verbatim, depth⟩ rest).2) := rfl

theorem run_guillemet (single : rest.head? ≠ some '«') :
    State.run ⟨.code, depth⟩ ('«' :: rest) =
      (.guillemet :: (State.run ⟨.inside .guillemet, depth⟩ rest).1,
        (State.run ⟨.inside .guillemet, depth⟩ rest).2) := by
  simp [run_cons, step, stepCode, enter, single]

theorem run_guillemet_guillemet : State.run ⟨.code, depth⟩ ('«' :: '«' :: rest) =
    (.guillemets :: .guillemets :: (State.run ⟨.inside .guillemets, depth⟩ rest).1,
      (State.run ⟨.inside .guillemets, depth⟩ rest).2) := rfl

end Openings

theorem replicate_enclosed (tag : Tag) (first body last : Nat) :
    List.replicate first tag ++ (List.replicate body tag ++ List.replicate last tag) =
      List.replicate (first + body + last) tag := by
  simp only [List.replicate_append_replicate, Nat.add_assoc]

theorem run_segment (segment : Segment) (depth : Nat) :
    State.run ⟨.code, depth⟩ segment.text =
      (segment.tags depth, ⟨.code, nestAfter depth segment.codeOf⟩) := by
  cases segment with
  | code run plain => exact run_code plain depth
  | quoted body escaped =>
    rw [Segment.text, List.cons_append, run_quote, run_escaped escaped]
    refine Prod.ext ((replicate_enclosed .quoted 1 body.length 1).trans ?_) rfl
    simp +arith [Segment.tags, Segment.form?, Segment.text]
  | curly body unclosed bare =>
    have head : (body ++ ['\x7d']).head? ≠ some '!' ∧ (body ++ ['\x7d']).head? ≠ some ':' := by
      cases body <;> simp_all
    rw [Segment.text, List.cons_append, run_brace _ _ head, run_braced (.inl rfl) unclosed]
    refine Prod.ext ((replicate_enclosed .curly 1 body.length 1).trans ?_) rfl
    simp +arith [Segment.tags, Segment.form?, Segment.text]
  | embedded body unclosed =>
    rw [Segment.text, List.cons_append, List.cons_append, run_brace_bang,
      run_braced (.inr rfl) unclosed]
    refine Prod.ext ((replicate_enclosed .embedded 2 body.length 1).trans ?_) rfl
    simp +arith [Segment.tags, Segment.form?, Segment.text]
  | verbatim body unclosed =>
    rw [Segment.text, List.cons_append, List.cons_append, run_brace_colon,
      run_verbatim unclosed (by simp)]
    refine Prod.ext ((replicate_enclosed .verbatim 2 body.length 2).trans ?_) rfl
    simp +arith [Segment.tags, Segment.form?, Segment.text]
  | guillemets body unclosed =>
    rw [Segment.text, List.cons_append, List.cons_append, run_guillemet_guillemet,
      run_guillemets unclosed]
    refine Prod.ext ((replicate_enclosed .guillemets 2 body.length 2).trans ?_) rfl
    simp +arith [Segment.tags, Segment.form?, Segment.text]

theorem run_segments (segments : List Segment) (depth : Nat) :
    ∃ last, State.run ⟨.code, depth⟩ (segments.flatMap Segment.text) =
      (segmentTags depth segments, ⟨.code, last⟩) := by
  induction segments generalizing depth with
  | nil => exact ⟨depth, rfl⟩
  | cons segment rest ih =>
    obtain ⟨last, follows⟩ := ih (nestAfter depth segment.codeOf)
    refine ⟨last, ?_⟩
    rw [List.flatMap_cons, run_append (by rw [run_segment]), run_segment, follows]
    rfl

theorem run_to_end {mode : Mode} {tag : Tag} {depth : Nat}
    (stays : ∀ c next, State.step ⟨mode, depth⟩ c next = (tag, ⟨mode, depth⟩)) (body : List Char) :
    (State.run ⟨mode, depth⟩ body).1 = List.replicate body.length tag := by
  induction body with
  | nil => rfl
  | cons c rest ih =>
    rw [run_cons, stays, ih]
    rfl

theorem run_ending (ending : Ending) (depth : Nat) :
    (State.run ⟨.code, depth⟩ ending.text).1 = ending.tags := by
  cases ending with
  | nothing => rfl
  | comment body =>
    exact congrArg (Tag.comment :: ·) (run_to_end (fun _ _ => rfl) body)
  | guillemet body single =>
    rw [Ending.text, run_guillemet _ _ single]
    exact congrArg (Tag.guillemet :: ·) (run_to_end (fun _ _ => rfl) body)
  | quoted body escaped =>
    have inside := run_escaped escaped [] depth
    rw [List.append_nil] at inside
    rw [Ending.text, run_quote, inside]
    exact (replicate_enclosed .quoted 1 body.length 0).trans
      (by simp +arith [Ending.tags, Ending.form, Ending.text])
  | quotedBackslash body escaped =>
    rw [Ending.text, List.cons_append, run_quote, run_escaped escaped]
    exact (replicate_enclosed .quoted 1 body.length 1).trans
      (by simp +arith [Ending.tags, Ending.form, Ending.text])
  | curly body unclosed bare =>
    have inside := run_braced (.inl rfl) unclosed [] depth
    rw [List.append_nil] at inside
    rw [Ending.text, run_brace _ _ bare, inside]
    exact (replicate_enclosed .curly 1 body.length 0).trans
      (by simp +arith [Ending.tags, Ending.form, Ending.text])
  | embedded body unclosed =>
    have inside := run_braced (.inr rfl) unclosed [] depth
    rw [List.append_nil] at inside
    rw [Ending.text, run_brace_bang, inside]
    exact (replicate_enclosed .embedded 2 body.length 0).trans
      (by simp +arith [Ending.tags, Ending.form, Ending.text])
  | verbatim body unclosed =>
    have inside := @run_verbatim body [] unclosed (by simp) depth
    rw [List.append_nil] at inside
    rw [Ending.text, run_brace_colon, inside]
    exact (replicate_enclosed .verbatim 2 body.length 0).trans
      (by simp +arith [Ending.tags, Ending.form, Ending.text])
  | guillemets body unclosed =>
    have inside := @run_guillemets body [] (by simpa using unclosed) depth
    rw [List.append_nil] at inside
    rw [Ending.text, run_guillemet_guillemet, inside]
    exact (replicate_enclosed .guillemets 2 body.length 0).trans
      (by simp +arith [Ending.tags, Ending.form, Ending.text])

end State

/-- The scan reads a line back as the segments and the ending that it was written from. -/
theorem tags_scanLine_segments (segments : List Segment) (ending : Ending) :
    (scanLine .none (segments.flatMap Segment.text ++ ending.text)).tags =
      segmentTags 0 segments ++ ending.tags := by
  obtain ⟨last, first⟩ := State.run_segments segments 0
  have whole := @State.run_append ⟨.code, 0⟩ _ (by rw [first]) ending.text
  rw [first, State.run_ending] at whole
  exact congrArg Prod.fst whole

def quotation (body : List Char) : List Char := '\x22' :: (body ++ ['\x22'])

section Around

variable {carry : Carry} {front body back : List Char} (started : State.ofCarry carry = ⟨.code, 0⟩)
  (before : ∀ c ∈ front, endsCode c = false) (escaped : Escaped body) (after : ∀ c ∈ back, endsCode c = false)

include started before escaped after

theorem isCode_around : (scanLine carry (front ++ (quotation body ++ back))).last.mode = .code ∧
    (scanLine carry (front ++ (quotation body ++ back))).tags.map Tag.isCode = List.replicate front.length true ++
      (List.replicate (quotation body).length false ++ List.replicate back.length true) := by
  obtain ⟨last, whole⟩ := State.run_segments [.code front before, .quoted body escaped, .code back after] 0
  have text : [Segment.code front before, Segment.quoted body escaped, Segment.code back after].flatMap Segment.text =
      front ++ (quotation body ++ back) := by
    simp [Segment.text, quotation]
  rw [text] at whole
  rw [scanLine, started, whole]
  refine ⟨rfl, ?_⟩
  simp only [segmentTags, Segment.tags, Segment.form?, Segment.text, List.map_append, map_isCode_codeTags,
    List.map_replicate]
  simp [quotation]
  rfl

theorem codeAt_around (column : Nat) : (scanLine carry (front ++ (quotation body ++ back))).codeAt column =
    (decide (column < front.length) || decide (front.length + (quotation body).length ≤ column)) := by
  obtain ⟨mode, tags⟩ := isCode_around started before escaped after
  have past : (scanLine carry (front ++ (quotation body ++ back))).endTag.isCode = true := by
    rw [Scan.endTag, State.endTag, mode]
    exact State.codeTag_isCode _
  have moved := List.getD_map (scanLine carry (front ++ (quotation body ++ back))).tags
    (scanLine carry (front ++ (quotation body ++ back))).endTag Tag.isCode (n := column)
  rw [Scan.codeAt, ← moved, tags, past, List.getD_eq_getElem?_getD]
  simp only [List.getElem?_append, List.length_replicate, List.getElem?_replicate]
  split_ifs <;> simp <;> omega

theorem carryOut_around : (scanLine carry (front ++ (quotation body ++ back))).carryOut.inString = false := by
  have mode := (isCode_around started before escaped after).1
  rw [Scan.carryOut, State.carry, mode]
  rfl

theorem uncommented_around : (scanLine carry (front ++ (quotation body ++ back))).uncommented =
    front ++ (quotation body ++ back) := by
  have mode := (isCode_around started before escaped after).1
  rw [Scan.uncommented, Scan.commentStart, mode]
  rfl

end Around

end ArturoInsight.Lexical

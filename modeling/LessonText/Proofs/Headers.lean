import LessonText.Proofs.Printing
import LessonText.Proofs.Reader.Asking
import LessonText.Proofs.Warden.Restoring

/-! # Headers and problems

The header of a lesson is read apart from its problems. Its entries reach a problem through the items that ask for them, and
through nothing else.
-/

namespace LessonText

open Unicode

/-- A text on unbroken lines that asks for no value. -/
structure Unasked (t : Text) : Prop where
  plain : '\r' ∉ t
  unasked : ¬ Asks t

namespace Unasked

variable {t u line : Text}

theorem nil : Unasked [] := ⟨by simp, by decide⟩

theorem of_part (h : Unasked t) (inside : u <:+: t) : Unasked u where
  plain mem := h.plain (inside.subset mem)
  unasked asks := h.unasked (asks.trans (inside.map lower))

/-- A mark does not reach over the end of a line. -/
theorem endLine_append (h : Unasked t) (h' : Unasked u) : Unasked (LessonSource.endLine t ++ u) where
  plain := by simp [LessonSource.endLine, h.plain, h'.plain]
  unasked asks := by
    have split : (LessonSource.endLine t ++ u).map lower = t.map lower ++ '\n' :: u.map lower := by
      simp [LessonSource.endLine, show lower '\n' = '\n' from rfl]
    rw [Asks, split] at asks
    exact (infix_split asks (by decide)).elim h.unasked h'.unasked

theorem endLine (h : Unasked t) : Unasked (LessonSource.endLine t) := by
  simpa using h.endLine_append nil

/-- The lines of such a text are such texts. -/
theorem of_mem_lines (h : Unasked t) : ∀ line ∈ Text.newlineLines t, Unasked line := by
  refine fun line mem => h.of_part ?_
  have all : ∀ t : Text, '\r' ∉ t → (∃ first, (Text.newlineLines t).head? = some first ∧ first <+: t) ∧
      ∀ line ∈ Text.newlineLines t, line <:+: t := by
    clear mem h
    intro t plain
    induction t with
    | nil => exact ⟨⟨[], rfl, List.nil_prefix⟩, by simp [Text.newlineLines]⟩
    | cons c t ih =>
        rw [List.mem_cons, not_or] at plain
        obtain ⟨⟨first, begins, front⟩, inside⟩ := ih plain.2
        by_cases newline : c = '\n'
        · subst newline
          have lines : Text.newlineLines ('\n' :: t) = [] :: Text.newlineLines t := by simp [Text.newlineLines]
          rw [lines]
          refine ⟨⟨[], rfl, List.nil_prefix⟩, List.forall_mem_cons.2 ⟨List.nil_infix, fun line mem => ?_⟩⟩
          exact (inside line mem).trans (List.suffix_cons _ _).isInfix
        · rw [LessonSource.newlineLines_cons t newline (Ne.symm plain.1)]
          obtain ⟨rest, split⟩ : ∃ rest, Text.newlineLines t = first :: rest := by
            cases lines : Text.newlineLines t with
            | nil => rw [lines] at begins; cases begins
            | cons line rest => rw [lines] at begins; exact ⟨rest, by rw [Option.some.inj begins]⟩
          rw [split] at inside ⊢
          have grown : c :: first <+: c :: t := List.cons_prefix_cons.2 ⟨rfl, front⟩
          refine ⟨⟨c :: first, rfl, grown⟩, List.forall_mem_cons.2 ⟨grown.isInfix, fun line mem => ?_⟩⟩
          exact (inside line (List.mem_cons_of_mem _ mem)).trans (List.suffix_cons _ _).isInfix
  exact (all t h.plain).2 line mem

end Unasked

/-! ## What splitting makes of it -/

namespace Line

variable {line rest t u : Text}

theorem dropBrackets?_suffix {bracket : Char} (h : dropBrackets? bracket t = some u) : u <:+ t := by
  unfold dropBrackets? at h
  split at h
  · exact Option.some.inj h ▸ List.dropWhile_suffix _
  · cases h

theorem dropIndent?_suffix (h : dropIndent? t = some u) : u <:+ t := by
  unfold dropIndent? at h
  split at h
  · exact Option.some.inj h ▸ List.dropWhile_suffix _
  · cases h

theorem lineRest?_begins (h : lineRest? t = some u) : u <+: t := by
  unfold lineRest? at h
  dsimp only at h
  split at h
  · exact Option.some.inj h ▸ List.takeWhile_prefix _
  · cases h

/-- What stands behind the marker of a line is a part of the line. -/
theorem marker?_infix {letter : Char} (h : marker? line = some (letter, rest)) : rest <:+: line := by
  unfold marker? at h
  simp only [Option.bind_eq_bind, Option.bind_eq_some_iff] at h
  obtain ⟨unindented, indent, inside, opening, h⟩ := h
  split at h
  · cases h
  · split at h
    · simp only [Option.pure_def, Option.bind_eq_some_iff] at h
      obtain ⟨behind, closing, _, found, same⟩ := h
      cases same
      have first := (lineRest?_begins found).isInfix.trans (List.dropWhile_suffix _).isInfix
      have second := (dropBrackets?_suffix closing).trans ((List.dropWhile_suffix _).trans (List.suffix_cons letter _))
      exact first.trans (second.trans ((dropBrackets?_suffix opening).trans (dropIndent?_suffix indent))).isInfix
    · cases h

/-- What a line of a lesson says. -/
def content : Line → Text
  | marker _ content => content
  | plain content => content

theorem read_infix {l : Line} (h : read line = .ok l) : l.content <:+: line := by
  unfold read at h
  split at h
  · cases h
    exact List.infix_rfl
  · rename_i marked
    split at h
    · cases h
      exact marker?_infix marked
    · cases h

end Line

namespace LessonSource

/-- The blocks of lines that ask for no value. -/
theorem blocks_unasked {lines : List Line} (h : ∀ l ∈ lines, Unasked l.content) :
    Unasked (blocks lines).1 ∧ ∀ b ∈ (blocks lines).2, Unasked b.content := by
  induction lines with
  | nil => exact ⟨.nil, by simp [blocks]⟩
  | cons l lines ih =>
      obtain ⟨here, later⟩ := List.forall_mem_cons.1 h
      obtain ⟨text, others⟩ := ih later
      cases l with
      | plain content => exact ⟨here.endLine_append text, others⟩
      | marker part content =>
          have first : Unasked (firstLine content ++ (blocks lines).1) := by
            unfold firstLine
            split
            · exact text
            · exact here.endLine_append text
          exact ⟨.nil, List.forall_mem_cons.2 ⟨first, others⟩⟩

end LessonSource

/-- A problem source none of whose parts asks for a value. -/
structure ProblemSource.Unasked (p : ProblemSource) : Prop where
  intro : LessonText.Unasked p.intro
  question : LessonText.Unasked p.question
  explanation : LessonText.Unasked p.explanation
  right : ∀ t ∈ p.right, LessonText.Unasked t
  wrong : ∀ t ∈ p.wrong, LessonText.Unasked t

namespace LessonSource

theorem add_unasked {p : ProblemSource} (h : p.Unasked) (part : Part) {content : Text} (h' : Unasked content) :
    (p.add part content).Unasked := by
  have more {ts : List Text} (each : ∀ t ∈ ts, Unasked t) : ∀ t ∈ ts ++ [content], Unasked t := by
    simpa [or_imp, forall_and] using ⟨each, h'⟩
  cases part with
  | intro => exact { h with intro := h' }
  | question => exact { h with question := h' }
  | explanation => exact { h with explanation := h' }
  | right => exact { h with right := more h.right }
  | wrong => exact { h with wrong := more h.wrong }
  | divider => exact h

theorem empty_unasked : ProblemSource.Unasked {} := ⟨.nil, .nil, .nil, by simp, by simp⟩

theorem gather_unasked {bs : List Block} (h : ∀ b ∈ bs, Unasked b.content) : ∀ last {current : ProblemSource}, current.Unasked →
    ∀ p ∈ gather last current bs, p.Unasked := by
  induction bs with
  | nil => exact fun last current hc p mem => List.mem_singleton.1 mem ▸ hc
  | cons b bs ih =>
      intro last current hc
      obtain ⟨here, later⟩ := List.forall_mem_cons.1 h
      have added {p : ProblemSource} (hp : p.Unasked) :
          (if bs.isEmpty && b.content.isEmpty then p else p.add b.part b.content).Unasked := by
        split
        · exact hp
        · exact add_unasked hp _ here
      unfold gather
      dsimp only
      split
      · exact List.forall_mem_cons.2 ⟨hc, ih later _ (added empty_unasked)⟩
      · exact ih later _ (added hc)

end LessonSource

/-! ## Rendering it -/

theorem TextItem.render_unasked {t : Text} (h : Unasked t) (metadata metadata' : Metadata) :
    (render metadata t).1 = (render metadata' t).1 := by
  rw [render, render, run_of_not_asks h.plain h.unasked, run_of_not_asks h.plain h.unasked]

theorem Problem.renderAll_unasked {ts : List Text} (h : ∀ t ∈ ts, Unasked t) (metadata metadata' : Metadata) :
    (renderAll metadata ts).1 = (renderAll metadata' ts).1 := by
  induction ts with
  | nil => rfl
  | cons t ts ih =>
      obtain ⟨here, later⟩ := List.forall_mem_cons.1 h
      exact congrArg₂ List.cons (TextItem.render_unasked here _ _) (ih later)

theorem Problem.render_unasked {p : ProblemSource} (h : p.Unasked) (metadata metadata' : Metadata) :
    (render metadata p).1 = (render metadata' p).1 := by
  have intro := TextItem.render_unasked h.intro metadata metadata'
  have question := TextItem.render_unasked h.question metadata metadata'
  have explanation := TextItem.render_unasked h.explanation metadata metadata'
  have right := renderAll_unasked h.right metadata metadata'
  have wrong := renderAll_unasked h.wrong metadata metadata'
  simp only [render, intro, question, explanation, right, wrong]

theorem Lesson.renderAll_unasked {ps : List ProblemSource} (h : ∀ p ∈ ps, p.Unasked) (metadata metadata' : Metadata) :
    (renderAll metadata ps).1 = (renderAll metadata' ps).1 := by
  induction ps with
  | nil => rfl
  | cons p ps ih =>
      obtain ⟨here, later⟩ := List.forall_mem_cons.1 h
      exact congrArg₂ List.cons (Problem.render_unasked here _ _) (ih later)

/-! ## Two headers -/

theorem LessonSource.newlineLines_headings {headings : List Text} (h : ∀ line ∈ headings, Plain line) (body : Text) :
    Text.newlineLines (endLines headings ++ body) = headings ++ Text.newlineLines body := by
  induction headings with
  | nil => rfl
  | cons line headings ih =>
      obtain ⟨here, later⟩ := List.forall_mem_cons.1 h
      rw [endLines, List.flatMap_cons, List.append_assoc, newlineLines_endLine_append here.1, ← endLines, ih later]
      rfl

theorem exists_of_mem_mapM {α β ε : Type} {f : α → Except ε β} {l : List α} {r : List β} (h : l.mapM f = .ok r) :
    ∀ b ∈ r, ∃ a ∈ l, f a = .ok b := by
  induction l generalizing r with
  | nil =>
      obtain rfl : [] = r := Except.ok.inj h
      simp
  | cons a l ih =>
      rw [List.mapM_cons] at h
      cases first : f a with
      | error e => rw [first] at h; cases h
      | ok b =>
          cases others : l.mapM f with
          | error e => rw [first, others] at h; cases h
          | ok bs =>
              rw [first, others] at h
              obtain rfl : b :: bs = r := Except.ok.inj h
              refine List.forall_mem_cons.2 ⟨⟨a, List.mem_cons_self, first⟩, fun b' mem => ?_⟩
              obtain ⟨a', listed, same⟩ := ih others b' mem
              exact ⟨a', List.mem_cons_of_mem _ listed, same⟩

namespace Lesson

/-- A header is split off, whatever stands behind it. -/
theorem compile_behind {headings : List Text} (h : ∀ line ∈ headings, LessonSource.Plain line) (body : Text) :
    compile (.text (LessonSource.endLines headings ++ body)) =
      match (Text.newlineLines body).mapM Line.read with
      | .ok lines =>
        let (text, blocks) := LessonSource.blocks lines
        .ok (ofSource ⟨LessonSource.endLines headings ++ text, LessonSource.gather none {} blocks⟩)
      | .error cause => .error (.marker cause) := by
  rw [compile_text, LessonSource.newlineLines_headings h, List.mapM_append, LessonSource.mapM_read_plain h]
  cases (Text.newlineLines body).mapM Line.read with
  | error cause => rfl
  | ok lines =>
      change Except.ok (ofSource (LessonSource.ofLines (headings.map Line.plain ++ lines))) = _
      rw [LessonSource.ofLines, LessonSource.blocks_plain]

/-- Only the items that ask for its values show the header of a lesson: where the text behind two headers holds no mark of a
    value, the problems are the same under both, or no lesson is compiled under either. -/
theorem compile_headers {header header' body : Text} (lines : LessonSource.PlainLines header)
    (lines' : LessonSource.PlainLines header') (plain : '\r' ∉ body) (unasked : ¬ Asks body) :
    (compile (.text (header ++ body))).map (fun answer => answer.1.problems) =
      (compile (.text (header' ++ body))).map (fun answer => answer.1.problems) := by
  obtain ⟨headings, rfl, h⟩ := lines
  obtain ⟨headings', rfl, h'⟩ := lines'
  rw [compile_behind h, compile_behind h']
  cases read : (Text.newlineLines body).mapM Line.read with
  | error cause => rfl
  | ok lines =>
      have each : ∀ l ∈ lines, Unasked l.content := fun l mem => by
        obtain ⟨line, listed, same⟩ := exists_of_mem_mapM read l mem
        exact (Unasked.of_mem_lines ⟨plain, unasked⟩ line listed).of_part (Line.read_infix same)
      have problems : ∀ p ∈ (LessonSource.gather none {} (LessonSource.blocks lines).2).filter fun p => !p.isEmpty, p.Unasked :=
        fun p mem => LessonSource.gather_unasked (LessonSource.blocks_unasked each).2 none LessonSource.empty_unasked p
          (List.mem_of_mem_filter mem)
      exact congrArg Except.ok (renderAll_unasked problems _ _)

/-- The problem of a lesson under a title and under none. -/
theorem compile_headers_titled :
    let body : Text := "(?) Which ...word?\n(=) met:a"
    LessonSource.PlainLines "title: a\n" ∧ LessonSource.PlainLines [] ∧ '\r' ∉ body ∧ ¬ Asks body ∧
      (compile (.text ("title: a\n" ++ body))).map (fun answer => answer.1.problems) =
        (compile (.text ([] ++ body))).map (fun answer => answer.1.problems) := by
  intro body
  have titled : LessonSource.PlainLines "title: a\n" :=
    ⟨["title: a"], rfl, by simpa using ⟨.of_all (by decide), by decide⟩⟩
  have bare : LessonSource.PlainLines [] := ⟨[], rfl, by simp⟩
  have plain : '\r' ∉ body := by decide
  have unasked : ¬ Asks body := by decide
  exact ⟨titled, bare, plain, unasked, compile_headers titled bare plain unasked⟩

end Lesson

end LessonText

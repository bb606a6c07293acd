import LessonText.Proofs.LineEnds

/-! # Going on after the end

A block is stored where the next one begins, and the last one where the source ends. What the source leaves behind is therefore
seen by going on: with a break and a second source, and with an empty line.
-/

namespace LessonText

namespace LessonSource

/-! ## Blocks -/

/-- Lines that begin with a marker line leave the lines before them alone. -/
theorem blocks_append (lines : List Line) {more : List Line} (h : (blocks more).1 = []) :
    blocks (lines ++ more) = ((blocks lines).1, (blocks lines).2 ++ (blocks more).2) := by
  induction lines with
  | nil => simp [blocks, ← h]
  | cons line lines ih => cases line <;> simp [blocks, ih]

/-- An unmarked line goes to the header if there is no block. -/
theorem blocks_concat_header {lines : List Line} (h : (blocks lines).2 = []) (content : Text) :
    blocks (lines ++ [.plain content]) = ((blocks lines).1 ++ endLine content, []) := by
  induction lines with
  | nil => simp [blocks]
  | cons line lines ih =>
      cases line with
      | plain first => simp [blocks, ih h]
      | marker part first => cases h

/-- An unmarked line goes to the last block. -/
theorem blocks_concat_plain {lines : List Line} {bs : List Block} {b : Block} (h : (blocks lines).2 = bs ++ [b])
    (content : Text) :
    blocks (lines ++ [.plain content]) = ((blocks lines).1, bs ++ [⟨b.part, b.content ++ endLine content⟩]) := by
  induction lines generalizing bs with
  | nil => simp [blocks] at h
  | cons line lines ih =>
      cases line with
      | plain first => simp [blocks, ih h]
      | marker part first =>
          cases bs with
          | nil =>
              obtain ⟨rfl, none⟩ := List.cons_eq_cons.1 h
              simp [blocks, blocks_concat_header none]
          | cons c bs =>
              obtain ⟨rfl, later⟩ := List.cons_eq_cons.1 h
              simp [blocks, ih later]

theorem blocks_concat_marker (lines : List Line) (part : Part) (content : Text) :
    blocks (lines ++ [.marker part content]) = ((blocks lines).1, (blocks lines).2 ++ [⟨part, firstLine content⟩]) := by
  rw [blocks_append lines rfl]
  simp [blocks]

theorem firstLine_eq_nil_iff {content : Text} : firstLine content = [] ↔ content = [] := by
  rw [firstLine]
  cases content <;> simp [endLine]

/-- Only a marker alone on the last line leaves a last block without content. -/
theorem last_content {lines : List Line} (h : ∀ part, lines.getLast? ≠ some (.marker part [])) :
    ∀ b ∈ (blocks lines).2.getLast?, b.content ≠ [] := by
  rcases List.eq_nil_or_concat lines with rfl | ⟨lines, line, rfl⟩
  · simp [blocks]
  · simp only [List.concat_eq_append, List.getLast?_concat] at h ⊢
    cases line with
    | plain content =>
        rcases List.eq_nil_or_concat (blocks lines).2 with none | ⟨bs, b, some⟩
        · simp [blocks_concat_header none]
        · simp [blocks_concat_plain (some.trans (List.concat_eq_append ..)), endLine]
    | marker part content =>
        rw [blocks_concat_marker]
        simpa [firstLine_eq_nil_iff] using fun same => h part (by rw [same])

/-! ## Gathering -/

/-- Blocks are gathered after others as they are gathered after a problem that the others leave open. If the others end with
    content, they leave the same problem open where nothing follows. -/
theorem gather_append (last : Option Part) (current : ProblemSource) (bs : List Block) :
    ∃ problems last' current', (∀ b more, gather last current (bs ++ b :: more) = problems ++ gather last' current' (b :: more)) ∧
      ((∀ b ∈ bs.getLast?, b.content ≠ []) → gather last current bs = problems ++ [current']) := by
  induction bs generalizing last current with
  | nil => exact ⟨[], last, current, fun _ _ => rfl, fun _ => rfl⟩
  | cons b bs ih =>
      have more (c : Block) (more : List Block) : ((bs ++ c :: more).isEmpty && b.content.isEmpty) = false := by simp
      have stored (h : ∀ c ∈ (b :: bs).getLast?, c.content ≠ []) : (bs.isEmpty && b.content.isEmpty) = false := by
        cases bs with
        | nil => simpa using h
        | cons c bs => rfl
      have later (h : ∀ c ∈ (b :: bs).getLast?, c.content ≠ []) : ∀ c ∈ bs.getLast?, c.content ≠ [] := by
        cases bs with
        | nil => simp
        | cons c bs => simpa using h
      by_cases begins : beginsProblem last b.part current = true
      · obtain ⟨problems, last', current', goes, ends⟩ := ih (some b.part) (({} : ProblemSource).add b.part b.content)
        refine ⟨current :: problems, last', current', fun c rest => ?_, fun h => ?_⟩
        · simp [gather, begins, goes]
        · simp [gather, begins, stored h, ends (later h)]
      · obtain ⟨problems, last', current', goes, ends⟩ := ih (some b.part) (current.add b.part b.content)
        refine ⟨problems, last', current', fun c rest => ?_, fun h => ?_⟩
        · simp [gather, begins, goes]
        · simp [gather, begins, stored h, ends (later h)]

/-- A break ends the open problem, and after it blocks are gathered as at the start. An empty problem may stand between. -/
theorem gather_broken (last : Option Part) (current : ProblemSource) (b : Block) (more : List Block) :
    ∃ blank : List ProblemSource, (∀ p ∈ blank, p = {}) ∧
      gather last current (⟨.divider, []⟩ :: b :: more) = [current] ++ blank ++ gather none {} (b :: more) := by
  have ends : gather last current (⟨.divider, []⟩ :: b :: more) =
      (if last = some .divider then [current] else []) ++
        gather (some .divider) (if last = some .divider then {} else current) (b :: more) := by
    by_cases again : last = some .divider <;> simp [gather, beginsProblem, again, ProblemSource.add]
  rw [ends]
  split
  · exact ⟨[{}], by simp, by rw [gather_after_divider]; rfl⟩
  · exact ⟨[], by simp, gather_after_divider current b more⟩

/-! ## A second source behind a break -/

theorem ofText_eq_ok {t : Text} {s : LessonSource} (h : ofText t = .ok s) :
    ∃ lines, (Text.newlineLines t).mapM Line.read = .ok lines ∧ s = ofLines lines := by
  rw [ofText] at h
  cases read : (Text.newlineLines t).mapM Line.read with
  | error cause =>
      rw [read] at h
      cases h
  | ok lines =>
      rw [read] at h
      exact ⟨lines, rfl, (Except.ok.inj h).symm⟩

theorem ofLines_problems (lines : List Line) : (ofLines lines).problems = gather none {} (blocks lines).2 := rfl

theorem ofText_of_read {t : Text} {lines : List Line} (h : (Text.newlineLines t).mapM Line.read = .ok lines) :
    ofText t = .ok (ofLines lines) := by
  rw [ofText, h]
  rfl

theorem mapM_append_eq_ok {α β ε : Type} {f : α → Except ε β} {l l' : List α} {r : List β} (h : (l ++ l').mapM f = .ok r) :
    ∃ a b, l.mapM f = .ok a ∧ l'.mapM f = .ok b ∧ r = a ++ b := by
  rw [List.mapM_append] at h
  cases first : l.mapM f with
  | error cause =>
      rw [first] at h
      cases h
  | ok a =>
      cases second : l'.mapM f with
      | error cause =>
          rw [first, second] at h
          cases h
      | ok b =>
          rw [first, second] at h
          exact ⟨a, b, rfl, rfl, (Except.ok.inj h).symm⟩

theorem mapM_cons_eq_ok {α β ε : Type} {f : α → Except ε β} {x : α} {l : List α} {r : List β} (h : (x :: l).mapM f = .ok r) :
    ∃ y b, f x = .ok y ∧ l.mapM f = .ok b ∧ r = y :: b := by
  rw [List.mapM_cons] at h
  cases first : f x with
  | error cause =>
      rw [first] at h
      cases h
  | ok y =>
      cases second : l.mapM f with
      | error cause =>
          rw [first, second] at h
          cases h
      | ok b =>
          rw [first, second] at h
          exact ⟨y, b, rfl, rfl, (Except.ok.inj h).symm⟩

/-- The lines of a text before the last one, and the last one, as they are read. -/
theorem exists_last {t : Text} {lines : List Line} (h : (Text.newlineLines t).mapM Line.read = .ok lines) :
    ∃ texts text before line, Text.newlineLines t = texts ++ [text] ∧ texts.mapM Line.read = .ok before ∧
      Line.read text = .ok line ∧ lines = before ++ [line] := by
  rcases List.eq_nil_or_concat (Text.newlineLines t) with none | ⟨texts, text, cut⟩
  · exact absurd none (Text.newlineLines_ne_nil t)
  · rw [List.concat_eq_append] at cut
    rw [cut] at h
    obtain ⟨before, last, read, single, rfl⟩ := mapM_append_eq_ok h
    obtain ⟨line, none, here, nil, rfl⟩ := mapM_cons_eq_ok single
    cases nil
    exact ⟨texts, text, before, line, cut, read, here, rfl⟩

/-- A source and another that begins with a marker line, with a break between them, have the header of the one and the
    problems of both. The first source ends with a line end of its own, and not with a marker alone on its line. -/
theorem ofText_broken {t u ending : Text} {s s' : LessonSource} (ht : ofText t = .ok s) (hu : ofText u = .ok s')
    (line_end : ending = "\r\n" ∨ ending = "\n" ∧ t.getLast? ≠ some '\r')
    (content : ∀ line ∈ (Text.newlineLines t).getLast?, ∀ part, Line.read line ≠ .ok (.marker part []))
    (opening : ∀ line ∈ (Text.newlineLines u).head?, ∃ part first, Line.read line = .ok (.marker part first)) :
    ∃ whole, ofText (t ++ ending ++ "(#)\n" ++ u) = .ok whole ∧ whole.header = s.header ∧
      whole.problems.filter (fun p => !p.isEmpty) =
        s.problems.filter (fun p => !p.isEmpty) ++ s'.problems.filter (fun p => !p.isEmpty) := by
  obtain ⟨lines, read, rfl⟩ := ofText_eq_ok ht
  obtain ⟨lines', read', rfl⟩ := ofText_eq_ok hu
  have first : ∃ b more, blocks lines' = ([], b :: more) := by
    cases cut : Text.newlineLines u with
    | nil => exact absurd cut (Text.newlineLines_ne_nil u)
    | cons line rest =>
        rw [cut] at read' opening
        obtain ⟨part, first, opens⟩ := opening line rfl
        obtain ⟨here, others, same, -, rfl⟩ := mapM_cons_eq_ok read'
        obtain rfl : Line.marker part first = here := Except.ok.inj (opens.symm.trans same)
        exact ⟨_, _, rfl⟩
  obtain ⟨b, more, started⟩ := first
  have last : ∀ b ∈ (blocks lines).2.getLast?, b.content ≠ [] := by
    refine last_content fun part same => ?_
    obtain ⟨texts, text, before, line, cut, -, here, rfl⟩ := exists_last read
    rw [List.getLast?_concat, Option.some.injEq] at same
    exact content text (by rw [cut, List.getLast?_concat]; rfl) part (same ▸ here)
  have cut : Text.newlineLines (t ++ ending ++ "(#)\n" ++ u) = Text.newlineLines t ++ ("(#)" : Text) :: Text.newlineLines u := by
    have divided : Text.newlineLines ("(#)\n" ++ u) = ("(#)" : Text) :: Text.newlineLines u :=
      Text.newlineLines_append "(#)" u (.inr ⟨rfl, by decide⟩)
    rw [List.append_assoc, Text.newlineLines_append t _ line_end, divided]
  have whole : (Text.newlineLines (t ++ ending ++ "(#)\n" ++ u)).mapM Line.read =
      .ok (lines ++ .marker .divider [] :: lines') := by
    rw [cut, List.mapM_append, read, List.mapM_cons, read']
    rfl
  have split : blocks (lines ++ .marker .divider [] :: lines') =
      ((blocks lines).1, (blocks lines).2 ++ ⟨.divider, []⟩ :: b :: more) := by
    have divided : blocks (.marker .divider [] :: lines') = ([], ⟨.divider, []⟩ :: b :: more) := by
      rw [blocks, started]
      rfl
    rw [blocks_append lines (by rw [divided]), divided]
  obtain ⟨problems, before, current, goes, ends⟩ := gather_append none {} (blocks lines).2
  obtain ⟨blank, empty, broken⟩ := gather_broken before current b more
  have nothing : blank.filter (fun p => !p.isEmpty) = [] :=
    List.filter_eq_nil_iff.2 fun p mem => by rw [empty p mem]; decide
  refine ⟨_, ofText_of_read whole, ?_, ?_⟩
  · rw [ofLines, ofLines, split]
  · calc (ofLines (lines ++ .marker .divider [] :: lines')).problems.filter (fun p => !p.isEmpty)
        = (problems ++ ([current] ++ blank ++ gather none {} (b :: more))).filter (fun p => !p.isEmpty) := by
          rw [ofLines_problems, split, goes, broken]
      _ = (problems ++ [current]).filter (fun p => !p.isEmpty) ++
            (gather none {} (b :: more)).filter (fun p => !p.isEmpty) := by
          simp only [List.filter_append, nothing, List.nil_append, List.append_assoc]
      _ = _ := by rw [ofLines_problems, ofLines_problems, started, ends last]

/-- A source that ends in an answer, and one that begins with a question. -/
theorem ofText_broken_answers :
    let t : Text := "title: a\n(?) q\n(=) r"
    let u : Text := "(?) s\n(x) t"
    ∃ s s', ofText t = .ok s ∧ ofText u = .ok s' ∧ t.getLast? ≠ some '\r' ∧
      (∀ line ∈ (Text.newlineLines t).getLast?, ∀ part, Line.read line ≠ .ok (.marker part [])) ∧
      (∀ line ∈ (Text.newlineLines u).head?, ∃ part first, Line.read line = .ok (.marker part first)) ∧
      ∃ whole, ofText (t ++ "\n" ++ "(#)\n" ++ u) = .ok whole ∧ whole.header = s.header ∧
        whole.problems.filter (fun p => !p.isEmpty) =
          s.problems.filter (fun p => !p.isEmpty) ++ s'.problems.filter (fun p => !p.isEmpty) := by
  intro t u
  have content : ∀ line ∈ (Text.newlineLines t).getLast?, ∀ part, Line.read line ≠ .ok (.marker part []) := by
    rintro line ⟨⟩ part same
    cases same.symm.trans (rfl : Line.read "(=) r" = .ok (.marker .right "r"))
  have opening : ∀ line ∈ (Text.newlineLines u).head?, ∃ part first, Line.read line = .ok (.marker part first) := by
    rintro line ⟨⟩
    exact ⟨.question, "s", rfl⟩
  exact ⟨_, _, rfl, rfl, by decide, content, opening,
    ofText_broken rfl rfl (.inr ⟨rfl, by decide⟩) content opening⟩

/-- A carriage return at the end of the first source becomes a part of the line end before the break. -/
theorem ofText_broken_return :
    let t : Text := "(=) x\r"
    let u : Text := "(=) y"
    ∃ s s' whole, ofText t = .ok s ∧ ofText u = .ok s' ∧
      (∀ line ∈ (Text.newlineLines t).getLast?, ∀ part, Line.read line ≠ .ok (.marker part [])) ∧
      (∀ line ∈ (Text.newlineLines u).head?, ∃ part first, Line.read line = .ok (.marker part first)) ∧
      ofText (t ++ "\n(#)\n" ++ u) = .ok whole ∧
      whole.problems.filter (fun p => !p.isEmpty) ≠
        s.problems.filter (fun p => !p.isEmpty) ++ s'.problems.filter (fun p => !p.isEmpty) := by
  intro t u
  refine ⟨⟨[], [{ right := ["x\r\n"] }]⟩, ⟨[], [{ right := ["y\n"] }]⟩,
    ⟨[], [{ right := ["x\n"] }, { right := ["y\n"] }]⟩, rfl, rfl, ?_, ?_, rfl, by decide⟩
  · rintro line ⟨⟩ part same
    cases same.symm.trans (rfl : Line.read "(=) x\r" = .ok (.marker .right "x\r"))
  · rintro line ⟨⟩
    exact ⟨.right, "y", rfl⟩

/-! ## An empty line at the end -/

/-- How many right and wrong answers a problem has. -/
def answers (p : ProblemSource) : Nat × Nat := (p.right.length, p.wrong.length)

/-- Only an answer adds to the answers, and whatever it contains. -/
theorem answers_add (p : ProblemSource) (part : Part) (content : Text) :
    answers (p.add part content) =
      ((answers p).1 + if part = .right then 1 else 0, (answers p).2 + if part = .wrong then 1 else 0) := by
  cases part <;> simp [answers, ProblemSource.add]

/-- Whether the last block of a source has content matters only if it is an answer. -/
theorem gather_single (last : Option Part) (current : ProblemSource) (part : Part) (content : Text) {content' : Text}
    (h : content' ≠ []) :
    (gather last current [⟨part, content'⟩]).length = (gather last current [⟨part, content⟩]).length ∧
      ((gather last current [⟨part, content'⟩]).map answers = (gather last current [⟨part, content⟩]).map answers ↔
        (content = [] → part ≠ .right ∧ part ≠ .wrong)) := by
  by_cases begins : beginsProblem last part current = true <;> by_cases blank : content = [] <;>
    simp [gather, begins, blank, h, answers_add] <;> cases part <;> simp [answers]

/-- A source that goes on with an empty line is read as before, but that a carriage return at the end belongs to the line
    end then. -/
theorem read_newline {t : Text} {lines : List Line} (h : (Text.newlineLines t).mapM Line.read = .ok lines) :
    ∃ before line line', lines = before ++ [line] ∧
      (Text.newlineLines (t ++ "\n")).mapM Line.read = .ok (before ++ [line', .plain []]) ∧
      ((∃ content content', line = .plain content ∧ line' = .plain content') ∨
        ∃ part content content', line = .marker part content ∧ line' = .marker part content') := by
  have blank {texts : List Text} {text : Text} {before : List Line} {line' : Line} (read : texts.mapM Line.read = .ok before)
      (here : Line.read text = .ok line') : (texts ++ [text, []]).mapM Line.read = .ok (before ++ [line', .plain []]) := by
    rw [List.mapM_append, read, List.mapM_cons, here]
    rfl
  by_cases last : t.getLast? = some '\r'
  · obtain ⟨t, rfl⟩ : ∃ u, t = u ++ ['\r'] := by
      rcases List.eq_nil_or_concat t with rfl | ⟨u, c, rfl⟩
      · cases last
      · rw [List.concat_eq_append, List.getLast?_concat, Option.some.injEq] at last
        exact ⟨u, by rw [last, List.concat_eq_append]⟩
    obtain ⟨texts, text, cut, cut'⟩ := Text.newlineLines_return t
    have ended : Text.newlineLines (t ++ ['\r'] ++ "\n") = texts ++ [text, []] := by
      have same := Text.newlineLines_append t [] (.inl (rfl : ['\r', '\n'] = _))
      rw [cut, List.append_nil] at same
      simpa [Text.newlineLines] using same
    have single : '\n' ∉ text := Text.newline_not_mem_newlineLines t text (by rw [cut]; simp)
    rw [cut'] at h
    obtain ⟨before, last, read, one, rfl⟩ := mapM_append_eq_ok h
    obtain ⟨line, none, here, nil, rfl⟩ := mapM_cons_eq_ok one
    cases nil
    rw [ended]
    rcases Line.read_return single here with ⟨rfl, plain⟩ | ⟨part, content, rfl, marker⟩
    · exact ⟨before, _, .plain text, rfl, blank read plain, .inl ⟨_, _, rfl, rfl⟩⟩
    · exact ⟨before, _, .marker part content, rfl, blank read marker, .inr ⟨part, _, _, rfl, rfl⟩⟩
  · obtain ⟨texts, text, before, line, cut, read, here, rfl⟩ := exists_last h
    have ended : Text.newlineLines (t ++ "\n") = texts ++ [text, []] := by
      have same := Text.newlineLines_append t [] (.inr ⟨(rfl : ['\n'] = _), last⟩)
      rw [cut, List.append_nil] at same
      simpa [Text.newlineLines] using same
    refine ⟨before, line, line, rfl, by rw [ended]; exact blank read here, ?_⟩
    cases line with
    | plain content => exact .inl ⟨_, _, rfl, rfl⟩
    | marker part content => exact .inr ⟨part, _, _, rfl, rfl⟩

/-- What the empty line changes is the content of the last block. -/
theorem blocks_newline (before : List Line) {line line' : Line}
    (h : (∃ content content', line = .plain content ∧ line' = .plain content') ∨
      ∃ part content content', line = .marker part content ∧ line' = .marker part content') :
    ((blocks (before ++ [line])).2 = [] ∧ (blocks (before ++ [line', .plain []])).2 = [] ∧ ∃ content, line = .plain content) ∨
      ∃ bs part content content', (blocks (before ++ [line])).2 = bs ++ [⟨part, content⟩] ∧
        (blocks (before ++ [line', .plain []])).2 = bs ++ [⟨part, content'⟩] ∧ content' ≠ [] ∧
        ∀ part', line = .marker part' [] ↔ content = [] ∧ part' = part := by
  have further : before ++ [line', .plain []] = (before ++ [line']) ++ [.plain []] := by simp
  rw [further]
  rcases h with ⟨content, content', rfl, rfl⟩ | ⟨part, content, content', rfl, rfl⟩
  · rcases List.eq_nil_or_concat (blocks before).2 with none | ⟨bs, b, some⟩
    · have none' : (blocks (before ++ [.plain content'])).2 = [] := by rw [blocks_concat_header none]
      exact .inl ⟨by rw [blocks_concat_header none], by rw [blocks_concat_header none'], content, rfl⟩
    · rw [List.concat_eq_append] at some
      have some' : (blocks (before ++ [.plain content'])).2 = bs ++ [⟨b.part, b.content ++ endLine content'⟩] := by
        rw [blocks_concat_plain some]
      exact .inr ⟨bs, b.part, _, _, by rw [blocks_concat_plain some], by rw [blocks_concat_plain some'],
        by simp [endLine], by simp [endLine]⟩
  · have some : (blocks (before ++ [.marker part content'])).2 = (blocks before).2 ++ [⟨part, firstLine content'⟩] := by
      rw [blocks_concat_marker]
    refine .inr ⟨(blocks before).2, part, firstLine content, firstLine content' ++ endLine [], by rw [blocks_concat_marker],
      by rw [blocks_concat_plain some], by simp [endLine], fun part' => ?_⟩
    rw [Line.marker.injEq, firstLine_eq_nil_iff]
    exact ⟨fun h => ⟨h.2, h.1.symm⟩, fun h => ⟨h.2.symm, h.1⟩⟩

/-- Going on with an empty line changes neither the number of problems nor that of their answers, unless the source ends with
    the marker of an answer alone on its line: the empty answer is not stored at the end. -/
theorem newline_answers_iff {t : Text} {s : LessonSource} (h : ofText t = .ok s) :
    ∃ s', ofText (t ++ "\n") = .ok s' ∧ s'.problems.length = s.problems.length ∧
      (s'.problems.map answers = s.problems.map answers ↔
        ∀ line ∈ (Text.newlineLines t).getLast?, ∀ part, part = .right ∨ part = .wrong →
          Line.read line ≠ .ok (.marker part [])) := by
  obtain ⟨lines, read, rfl⟩ := ofText_eq_ok h
  obtain ⟨before, line, line', rfl, read', alike⟩ := read_newline read
  have last : ∀ text ∈ (Text.newlineLines t).getLast?, Line.read text = .ok line := by
    obtain ⟨texts, text, before', line'', cut, -, here, same⟩ := exists_last read
    obtain ⟨-, same⟩ := List.append_inj' same rfl
    cases same
    rw [cut, List.getLast?_concat]
    rintro _ ⟨⟩
    exact here
  refine ⟨_, ofText_of_read read', ?_⟩
  rw [ofLines_problems, ofLines_problems]
  rcases blocks_newline before alike with ⟨none, none', plain⟩ | ⟨bs, part, content, content', some, some', filled, empty⟩
  · obtain ⟨content, rfl⟩ := plain
    rw [none, none']
    refine ⟨rfl, iff_of_true rfl fun text mem part _ marker => ?_⟩
    cases (last text mem).symm.trans marker
  · rw [some, some']
    obtain ⟨problems, last', current, goes, -⟩ := gather_append none {} bs
    obtain ⟨length, same⟩ := gather_single last' current part content filled
    rw [goes, goes]
    refine ⟨by rw [List.length_append, List.length_append, length], ?_⟩
    rw [List.map_append, List.map_append, List.append_cancel_left_eq, same]
    constructor
    · rintro unanswered text mem part' answer marker
      obtain ⟨blank, rfl⟩ := (empty part').1 (Except.ok.inj ((last text mem).symm.trans marker))
      obtain ⟨right, wrong⟩ := unanswered blank
      exact answer.elim right wrong
    · intro unmarked empty'
      obtain ⟨text, mem⟩ : ∃ text, text ∈ (Text.newlineLines t).getLast? :=
        ⟨_, List.getLast?_eq_some_getLast (Text.newlineLines_ne_nil t)⟩
      have marker : line = .marker part [] := (empty part).2 ⟨empty', rfl⟩
      exact not_or.1 fun answer => unmarked text mem part answer (marker ▸ last text mem)

/-- A source that ends with the marker of an explanation. -/
theorem newline_answers_iff_explanation :
    let t : Text := "(?) q\n(=) r\n(+)"
    ∃ s, ofText t = .ok s ∧ ∃ s', ofText (t ++ "\n") = .ok s' ∧ s'.problems.length = s.problems.length ∧
      (s'.problems.map answers = s.problems.map answers ↔
        ∀ line ∈ (Text.newlineLines t).getLast?, ∀ part, part = .right ∨ part = .wrong →
          Line.read line ≠ .ok (.marker part [])) := by
  intro t
  have split : ofText t = .ok ⟨[], [{ question := "q\n", right := ["r\n"] }]⟩ := rfl
  exact ⟨_, split, newline_answers_iff split⟩

/-- The marker of a right answer at the end stores an answer only if a newline follows. -/
theorem newline_adds_answer :
    let t : Text := "(=)"
    ∃ s s', ofText t = .ok s ∧ ofText (t ++ "\n") = .ok s' ∧ s'.problems.map answers ≠ s.problems.map answers :=
  ⟨⟨[], [{}]⟩, ⟨[], [{ right := ["\n"] }]⟩, rfl, rfl, by decide⟩

end LessonSource

end LessonText

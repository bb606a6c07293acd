import LessonText.Proofs.Markup.Listings
import LessonText.Proofs.Markup.OneLine

/-! # What the rules of blocks find

Each rule finds a block of its kind as a whole: a heading without the line ends around it, a line across the page with
those behind it, and a paragraph with those before it.
-/

namespace LessonText

open Draft Pattern Unicode

/-! ## White space behind a text -/

theorem Text.trimEnd_append {t z : Text} (solid : t.getLast?.any notSpace = true) (spaces : ∀ c ∈ z, isSpace c = true) :
    Text.trimEnd (t ++ z) = t := by
  obtain ⟨s, e, rfl⟩ : ∃ s e, t = s ++ [e] := by
    rcases List.eq_nil_or_concat' t with rfl | found
    · exact absurd solid (by simp)
    · exact found
  have last : isSpace e = false := by simpa [notSpace] using solid
  rw [Text.trimEnd, List.reverse_append, List.dropWhile_append_of_pos fun c hc => spaces c (List.mem_reverse.1 hc),
    List.reverse_concat, List.dropWhile_cons_of_neg (by simp [last]), List.reverse_cons, List.reverse_reverse]

namespace Block

variable {b : Option Char} {t : Text}

theorem PlainLine.single (line : PlainLine) : '\n' ∉ line.text := by
  obtain ⟨-, -, -, -, plain⟩ := isPlainLine_cons line.plain
  exact not_mem_of_all (List.all_eq_true.1 plain) rfl

theorem PlainLine.last (line : PlainLine) : line.text.getLast?.any Char.isAlphanum = true :=
  (Bool.and_eq_true_iff.1 line.plain).2

/-! ## Headings -/

/-- What a heading's rule looks for behind the line. -/
def headingEnd : Pattern := Pattern.span (· == '#') ++ (Pattern.span isGap ++ lineEnd)

/-- The space before the closing signs, if there are any. -/
def Heading.space (h : Heading) : Text := if h.closing = 0 then [] else [' ']

theorem headingEnd_reads {n : Nat} (stops : Stops t) : headingEnd.Reads b (List.replicate n '#') t [] := by
  have signs : (Pattern.span (· == '#')).Reads b (List.replicate n '#') t [] := by
    refine .span (fun c hc => beq_iff_eq.2 (List.eq_of_mem_replicate hc)) fun c hc => ?_
    rw [stops.head?_eq c hc]
    rfl
  have gaps {b : Option Char} : (Pattern.span isGap).Reads b [] t [] := by
    refine .span nofun fun c hc => ?_
    rw [stops.head?_eq c hc]
    rfl
  have all := signs.append (gaps.append stops.lineEnd)
  rwa [List.append_nil, List.append_nil] at all

theorem headingEnd_takes {w r : Text} {gs : List (Nat × Text)} (h : headingEnd.Takes b w r gs) :
    (∀ c ∈ w, c ∈ ("# \t" : Text)) ∧ r.head?.all (· == '\n') = true := by
  obtain ⟨signs, _, _, _, rfl, -, ⟨isSign, -⟩, gaps, _, _, _, rfl, -, ⟨areGaps, -⟩, rfl, stop, -⟩ := h
  refine ⟨fun c hc => ?_, stop⟩
  rw [List.append_nil, List.mem_append] at hc
  rcases hc with hc | hc
  · simp [beq_iff_eq.1 (isSign c hc)]
  · have gap := areGaps c hc
    simp [isGap] at gap ⊢
    tauto

/-- A solid character before the end of the line is not passed. -/
theorem headingEnd_misses {v x : Text} {c : Char} (single : '\n' ∉ v) (solid : c ∉ ("# \t\n" : Text)) :
    headingEnd.Misses b (v ++ c :: x) := by
  intro w r gs split takes
  obtain ⟨signs, stop⟩ := headingEnd_takes takes
  rcases List.append_eq_append_iff.1 split with ⟨y, rfl, behind⟩ | ⟨y, rfl, behind⟩
  · cases y with
    | nil =>
        rw [← show c :: x = r from behind] at stop
        obtain rfl : c = '\n' := beq_iff_eq.1 stop
        exact solid (by simp)
    | cons d y =>
        obtain ⟨rfl, -⟩ := List.cons.inj behind
        have sign := signs c (by simp)
        simp at sign solid
        tauto
  · cases y with
    | nil =>
        rw [show r = c :: x from behind] at stop
        obtain rfl : c = '\n' := beq_iff_eq.1 stop
        exact solid (by simp)
    | cons d y =>
        rw [behind] at stop
        obtain rfl : d = '\n' := beq_iff_eq.1 stop
        exact single (by simp)

theorem headingEnd_misses_space {x : Text} : headingEnd.Misses b (' ' :: '#' :: x) := by
  rintro w r gs split ⟨signs, _, _, _, rfl, -, ⟨isSign, -⟩, gaps, _, _, _, rfl, -, ⟨areGaps, -⟩, rfl, stop, -⟩
  cases signs with
  | cons c signs =>
      obtain ⟨rfl, -⟩ := List.cons.inj split
      exact Bool.false_ne_true (isSign _ List.mem_cons_self)
  | nil =>
      rcases gaps with - | ⟨c, - | ⟨d, gaps⟩⟩
      · rw [← show ' ' :: '#' :: x = r from split] at stop
        exact Bool.false_ne_true stop
      · obtain ⟨-, rfl⟩ := List.cons.inj split
        exact Bool.false_ne_true stop
      · obtain ⟨-, rest⟩ := List.cons.inj split
        obtain ⟨rfl, -⟩ := List.cons.inj rest
        exact Bool.false_ne_true (areGaps '#' (by simp))

namespace Heading

variable (h : Heading)

/-- The line of a heading, as its rule passes it. -/
def title : Text := h.line.text ++ h.space

theorem text_eq : h.text = List.replicate h.level '#' ++ [' '] ++ (h.title ++ List.replicate h.closing '#') := by
  by_cases none : h.closing = 0 <;> simp [text, closed, title, space, none]

theorem space_single : '\n' ∉ h.space := by
  unfold space
  split <;> decide

/-- Nowhere inside the line does a heading end. -/
theorem end_misses {u v : Text} (split : h.title = u ++ v) (full : v ≠ []) :
    headingEnd.Misses b (v ++ (List.replicate h.closing '#' ++ t)) := by
  have space (same : v = h.space) : headingEnd.Misses b (v ++ (List.replicate h.closing '#' ++ t)) := by
    unfold Heading.space at same
    split at same
    · exact absurd same full
    · obtain ⟨n, closing⟩ := Nat.exists_eq_succ_of_ne_zero ‹_›
      rw [same, closing]
      exact headingEnd_misses_space
  rcases List.append_eq_append_iff.1 split with ⟨y, rfl, behind⟩ | ⟨y, inside, rfl⟩
  · cases y with
    | nil => exact space behind.symm
    | cons c y =>
        unfold Heading.space at behind
        split at behind
        · cases behind
        · obtain ⟨-, empty⟩ := List.cons.inj behind
          exact absurd (List.append_eq_nil_iff.1 empty.symm).2 full
  · by_cases empty : y = []
    · subst empty
      exact space rfl
    · obtain ⟨y, e, rfl⟩ := (List.eq_nil_or_concat' y).resolve_left empty
      have single : '\n' ∉ y := fun mem => h.line.single (by simp [inside, mem])
      have solid : e ∉ ("# \t\n" : Text) := by
        have none : ∀ c ∈ ("# \t\n" : Text), c.isAlphanum = false := by decide
        have last : e.isAlphanum = true := by simpa [inside] using h.line.last
        intro mem
        rw [none e mem] at last
        cases last
      simp only [List.append_assoc]
      exact headingEnd_misses single solid

/-- Before the line: the signs and a space. -/
theorem signs_reads (start : b.all (· == '\n') = true) {r : Text} (letter : ∀ c ∈ r.head?, c.isAlpha = true) :
    (lineStart ++ group 1 (some1 (· == '#')) ++ most (· == ' ')).Reads b (List.replicate h.level '#' ++ [' ']) r
      [(1, List.replicate h.level '#')] := by
  obtain ⟨n, level⟩ := Nat.exists_eq_succ_of_ne_zero h.positive
  have signs {b : Option Char} : (some1 (· == '#')).Reads b (List.replicate h.level '#') ([' '] ++ r) [] := by
    have others {b : Option Char} : (Pattern.run true (· == '#')).Reads b (List.replicate n '#') ([' '] ++ r) [] :=
      .most (fun c hc => beq_iff_eq.2 (List.eq_of_mem_replicate hc)) (by rintro _ ⟨⟩; rfl)
    have first : (Pattern.one (· == '#')).Reads b ['#'] (List.replicate n '#' ++ ([' '] ++ r)) [] := .one rfl
    have all := first.append others
    rw [level, List.replicate_succ]
    exact all
  have space {b : Option Char} : (most (· == ' ')).Reads b [' '] r [] := by
    refine .most (by decide) fun c hc => ?_
    rw [beq_eq_false_iff_ne]
    rintro rfl
    exact absurd (letter _ hc) (by decide)
  exact ((Reads.place start).append signs.group).append space

theorem reads (start : b.all (· == '\n') = true) (stops : Stops t) :
    heading.pattern.Reads b h.text t [(2, h.title), (1, List.replicate h.level '#')] := by
  obtain ⟨c, rest, begins, letter⟩ : ∃ c rest, h.title = c :: rest ∧ c.isAlpha = true := by
    obtain ⟨c, rest, split, letter, -⟩ := isPlainLine_cons h.line.plain
    exact ⟨c, rest ++ h.space, by rw [title, split]; rfl, letter⟩
  have inline : ∀ d ∈ c :: rest, inLine d = true := by
    rintro d hd
    rw [inLine, bne_iff_ne]
    rintro rfl
    rw [← begins, title, List.mem_append] at hd
    exact hd.elim h.line.single h.space_single
  obtain ⟨first, later⟩ := List.forall_mem_cons.1 inline
  have signs := h.signs_reads start (r := h.title ++ (List.replicate h.closing '#' ++ t)) (by
    rw [begins]
    rintro _ ⟨⟩
    exact letter)
  have line {b : Option Char} : (group 2 (few1 inLine)).Lazily b h.title (List.replicate h.closing '#' ++ t)
      [(2, h.title)] fun x => ∃ u, x = [c] ++ u ∧ ∃ v, rest = u ++ v ∧ v ≠ [] := by
    rw [begins]
    have one : (one inLine).Reads b [c] (rest ++ (List.replicate h.closing '#' ++ t)) [] := .one first
    exact .group (.after one (.fewest later))
  have late : ∀ x y, (∃ u, x = List.replicate h.level '#' ++ [' '] ++ u ∧ ∃ v, u = [c] ++ v ∧ ∃ w, rest = v ++ w ∧ w ≠ []) →
      List.replicate h.level '#' ++ [' '] ++ h.title ++ (List.replicate h.closing '#' ++ t) = x ++ y →
      headingEnd.Fails (x.getLast?.or b) y := by
    rintro _ y ⟨_, rfl, v, rfl, w, split, full⟩ whole
    have same : h.title = [c] ++ v ++ w := by rw [begins, split]; rfl
    rw [same] at whole
    obtain rfl : w ++ (List.replicate h.closing '#' ++ t) = y := by simpa using whole
    exact (h.end_misses same full).fails
  have all := (Lazily.after signs line).append (headingEnd_reads stops) late
  rw [h.text_eq, ← List.append_assoc]
  exact all

end Heading

/-! ## Lines across the page -/

/-- One sign of a line across the page. -/
def rulerSign : Pattern := one (anyOf "*_-") ++ Pattern.span (· == ' ')

theorem rulerSign_reads (other : ∀ c ∈ t.head?, c ≠ ' ') : rulerSign.Reads b ['-'] t [] := by
  have one {b : Option Char} : (one (anyOf "*_-")).Reads b ['-'] ([] ++ t) [] := .one (by decide)
  have gap {b : Option Char} : (Pattern.span (· == ' ')).Reads b [] t [] :=
    .span nofun fun c hc => beq_false_of_ne (other c hc)
  exact one.append gap

/-- The white space behind the signs, but for the end of the last line. -/
theorem rulerEnd_reads {i : Nat} (behind : t = [] ∨ ∃ c u, t = '\n' :: c :: u ∧ isSpace c = false) :
    (most isSpace ++ lineEnd).Reads b (lineEnds i) t [] := by
  have spaces : ∀ c ∈ lineEnds i, isSpace c = true := fun c hc => by
    rw [eq_newline hc]
    rfl
  rcases behind with rfl | ⟨c, u, rfl, solid⟩
  · have run : (most isSpace).Reads b (lineEnds i) ([] ++ []) [] := .most spaces nofun
    have all := run.append (Stops.lineEnd (.inl rfl))
    rwa [List.append_nil] at all
  · have newline : ∀ d ∈ ['\n'], isSpace d = true := by decide
    refine .most_append spaces newline (by rintro _ ⟨⟩; exact solid) (fun x y split full => ?_)
      (Stops.lineEnd (.inr ⟨_, rfl⟩))
    cases x with
    | nil => exact absurd rfl full
    | cons d x =>
        obtain ⟨-, empty⟩ := List.cons.inj split
        obtain ⟨-, rfl⟩ := List.append_eq_nil_iff.1 empty.symm
        refine Misses.fails ?_
        rintro w r gs split ⟨rfl, stop, -⟩
        rw [← show c :: u = r from split] at stop
        obtain rfl : c = '\n' := beq_iff_eq.1 stop
        cases solid

theorem ruler_reads {i : Nat} (start : b.all (· == '\n') = true)
    (behind : t = [] ∨ ∃ c u, t = '\n' :: c :: u ∧ isSpace c = false) :
    ruler.pattern.Reads b ("---" ++ lineEnds i) t [] := by
  have rest : ∀ c ∈ (lineEnds i ++ t).head?, c = '\n' := by
    cases i with
    | zero =>
        rcases behind with rfl | ⟨c, u, rfl, -⟩
        · nofun
        · rintro _ ⟨⟩
          rfl
    | succ i =>
        rintro _ ⟨⟩
        rfl
  have sign {b : Option Char} {r : Text} : rulerSign.Reads b ['-'] ('-' :: r) [] :=
    rulerSign_reads (by rintro _ ⟨⟩; decide)
  have last {b : Option Char} : rulerSign.Reads b ['-'] ([] ++ (lineEnds i ++ t)) [] :=
    rulerSign_reads fun c hc => by
      rw [rest c hc]
      decide
  have none {b : Option Char} : (many true rulerSign).Reads b [] (lineEnds i ++ t) [] := by
    have advances : rulerSign.Advances := .of_passes rfl
    refine .many (.stop (Misses.fails ?_))
    cases first : lineEnds i ++ t with
    | nil => exact advances.misses_nil
    | cons c u =>
        rw [first] at rest
        rw [rest c rfl]
        exact .of_begin advances rfl
  have started {r : Text} : lineStart.Reads b [] r [] := .place start
  have signs := ((started.append sign).append sign).append last
  have all := (signs.append none).append (rulerEnd_reads behind)
  exact all

/-! ## Paragraphs -/

/-- A line of a paragraph and its end, if a further line follows. -/
def paragraphLine : Pattern := span1 inLine ++ optional (literal ['\n'] ++ notFollowedBy (· == '\n'))

theorem paragraphLine_advances : paragraphLine.Advances := .of_passes rfl

/-- Lines of plain text, one after another. -/
def linesText (lines : List PlainLine) : Text := Text.join "\n" (lines.map PlainLine.text)

/-- Where the last line of a paragraph ends: `z` is a line end at the end of the text, or nothing. -/
def Closes (z t : Text) : Prop := z = [] ∧ (t = [] ∨ ∃ r, t = '\n' :: '\n' :: r) ∨ z = ['\n'] ∧ t = []

theorem Closes.stops {z : Text} (h : Closes z t) : Stops (z ++ t) := by
  rcases h with ⟨rfl, rfl | ⟨r, rfl⟩⟩ | ⟨rfl, rfl⟩
  · exact .inl rfl
  · exact .inr ⟨_, rfl⟩
  · exact .inr ⟨_, rfl⟩

theorem PlainLine.reads (line : PlainLine) {r : Text} (stops : Stops r) : (span1 inLine).Reads b line.text r [] := by
  obtain ⟨c, rest, split, -⟩ := isPlainLine_cons line.plain
  refine .span1 (by simp [split]) (fun d hd => ?_) fun d hd => ?_
  · rw [inLine, bne_iff_ne]
    rintro rfl
    exact line.single hd
  · rw [stops.head?_eq d hd]
    rfl

/-- The last line of a paragraph. -/
theorem lastLine_reads (line : PlainLine) {z : Text} (closes : Closes z t) :
    paragraphLine.Reads b (line.text ++ z) t [] := by
  have ended {b : Option Char} : (optional (literal ['\n'] ++ notFollowedBy (· == '\n'))).Reads b z t [] := by
    rcases closes with ⟨rfl, behind⟩ | ⟨rfl, rfl⟩
    · refine .optional_none (.behind fun w r gs split takes => ?_)
      obtain ⟨rfl, -⟩ := takes_literal.1 takes
      rcases behind with rfl | ⟨r', rfl⟩
      · cases split
      · refine Misses.fails ?_
        rintro w' r'' gs' split' ⟨rfl, other, -⟩
        obtain ⟨-, rfl⟩ := List.cons.inj split
        rw [← show '\n' :: r' = r'' from split'] at other
        cases other
    · have end_ : (notFollowedBy (· == '\n')).Reads (some '\n') [] [] [] := .place rfl
      have all := (Reads.literal ['\n'] (b := b)).append end_
      exact .optional all
  exact (line.reads closes.stops).append ended

/-- A line of a paragraph before another one. -/
theorem innerLine_reads (line : PlainLine) {r : Text} (letter : ∀ c ∈ r.head?, c.isAlpha = true) :
    paragraphLine.Reads b (line.text ++ ['\n']) r [] := by
  have next : (notFollowedBy (· == '\n')).Reads (some '\n') [] r [] := by
    refine .place ?_
    cases r with
    | nil => rfl
    | cons c r =>
        have other : c ≠ '\n' := by
          rintro rfl
          exact absurd (letter '\n' rfl) (by decide)
        simpa using other
  have ended {b : Option Char} := (Reads.literal ['\n'] (b := b)).append next
  exact (line.reads (.inr ⟨r, rfl⟩)).append (.optional ended)

theorem linesText_cons {lines : List PlainLine} (full : lines ≠ []) :
    ∃ c rest, linesText lines = c :: rest ∧ c.isAlpha = true := by
  obtain ⟨line, lines, rfl⟩ := List.exists_cons_of_ne_nil full
  obtain ⟨c, rest, split, letter, -⟩ := isPlainLine_cons line.plain
  obtain ⟨u, joined⟩ := Text.join_cons "\n" line.text (lines.map PlainLine.text)
  exact ⟨c, rest ++ u, by rw [linesText, List.map_cons, joined, split]; rfl, letter⟩

/-- No line of a paragraph begins with a line end. -/
theorem paragraphLine_misses (stops : Stops t) : paragraphLine.Misses b t := by
  rcases stops with rfl | ⟨r, rfl⟩
  · exact paragraphLine_advances.misses_nil
  · exact .of_begin paragraphLine_advances rfl

theorem lines_repeated {lines : List PlainLine} (full : lines ≠ []) {z : Text} (closes : Closes z t) :
    Repeated paragraphLine b (linesText lines ++ z) t [] := by
  induction lines generalizing b with
  | nil => exact absurd rfl full
  | cons line lines ih =>
      have filled (u : Text) : line.text ++ u ≠ [] := by
        obtain ⟨c, rest, split, -⟩ := isPlainLine_cons line.plain
        simp [split]
      cases lines with
      | nil =>
          have behind : Stops t := by
            rcases closes with ⟨-, rfl | ⟨r, rfl⟩⟩ | ⟨-, rfl⟩
            · exact .inl rfl
            · exact .inr ⟨_, rfl⟩
            · exact .inl rfl
          have stop {b : Option Char} : Repeated paragraphLine b [] t [] := .stop (paragraphLine_misses behind).fails
          have last : paragraphLine.Reads b (line.text ++ z) ([] ++ t) [] := lastLine_reads line closes
          have all := Repeated.more (filled z) last stop
          rw [List.append_nil] at all
          exact all
      | cons line' lines =>
          have later {b : Option Char} := ih (b := b) (List.cons_ne_nil _ _)
          have first : paragraphLine.Reads b (line.text ++ ['\n']) (linesText (line' :: lines) ++ z ++ t) [] :=
            innerLine_reads line (by
              obtain ⟨c, rest, split, letter⟩ := linesText_cons (List.cons_ne_nil line' lines)
              rw [split]
              rintro _ ⟨⟩
              exact letter)
          have all := Repeated.more (filled _) first later
          have same : linesText (line :: line' :: lines) = line.text ++ ('\n' :: linesText (line' :: lines)) :=
            Text.join_cons_cons _ _ _ _
          rw [same]
          simpa using all

theorem paragraph_reads {lines : List PlainLine} (full : lines ≠ []) {k : Nat} {z : Text} (before : b = none ∧ k = 0 ∨ 2 ≤ k)
    (closes : Closes z t) : paragraph.pattern.Reads b (lineEnds k ++ (linesText lines ++ z)) t
      [(1, linesText lines ++ z)] := by
  obtain ⟨c, rest, split, letter⟩ := linesText_cons full
  have first : linesText lines ++ z ++ t = c :: (rest ++ z ++ t) := by rw [split]; rfl
  have refused {f : Char → Bool} (h : (charsOf letterRanges).all (fun c => !f c) = true) : f c = false := by
    simpa using of_isAlpha h letter
  have untagged {b : Option Char} : (notAhead tagStart).Reads b [] (linesText lines ++ z ++ t) [] := by
    rw [first]
    have misses {b : Option Char} : tagStart.Misses b (c :: (rest ++ z ++ t)) :=
      .of_begin (.of_passes rfl) (refused (f := fun c => tagStart.mayBegin c) (by decide))
    exact .notAhead misses.fails
  have body {b : Option Char} : (notAhead tagStart ++ group 1 paragraphLines).Reads b (linesText lines ++ z) t
      [(1, linesText lines ++ z)] :=
    untagged.append (.group (.many1 (lines_repeated full closes) (by simp [split])))
  rcases before with ⟨rfl, rfl⟩ | many
  · have start : paragraphLead.Reads none [] (linesText lines ++ z ++ t) [] := .or_left (.place rfl)
    exact start.append body
  · obtain ⟨n, rfl⟩ : ∃ n, k = n + 2 := ⟨k - 2, by omega⟩
    -- At the start of the text the first alternative has no line to go on with.
    have fails : (textStart ++ (notAhead tagStart ++ group 1 paragraphLines)).Fails b
        (lineEnds (n + 2) ++ (linesText lines ++ z) ++ t) := by
      refine .behind fun w r gs ahead takes => ?_
      obtain rfl : w = [] := takes.1
      refine .behind fun w r' gs ahead' takes => ?_
      obtain rfl : w = [] := takes.1
      rw [List.nil_append] at ahead ahead'
      subst ahead ahead'
      exact Misses.fails (.of_begin (.of_passes rfl) rfl)
    have ends : (literal ['\n'] ++ span1 (· == '\n')).Reads b (lineEnds (n + 2)) (linesText lines ++ z ++ t) [] := by
      have later {b : Option Char} : (span1 (· == '\n')).Reads b (lineEnds (n + 1)) (linesText lines ++ z ++ t) [] := by
        refine .span1 (List.cons_ne_nil _ _) (fun d hd => beq_iff_eq.2 (eq_newline hd)) ?_
        rw [first]
        rintro _ ⟨⟩
        exact refused (f := (· == '\n')) (by decide)
      exact (Reads.literal ['\n']).append later
    exact .or_append fails (ends.append body)

end Block

end LessonText

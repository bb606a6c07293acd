import LessonText.Proofs.Reading
import Mathlib.Data.List.TakeWhile

/-! # Printing a lesson source

A lesson source is printed as its header followed by its problems, each opened by a break and
written part by part. Splitting the printed text gives back the header and the problems; the text
before the first break counts as an empty problem of its own.
-/

namespace LessonText

/-- The parts of a problem that are present, in the order in which they are printed. -/
def ProblemSource.blocks (p : ProblemSource) : List Block :=
  (if p.intro.isEmpty then [] else [⟨.intro, p.intro⟩]) ++
    (if p.question.isEmpty then [] else [⟨.question, p.question⟩]) ++
    p.right.map (⟨.right, ·⟩) ++ p.wrong.map (⟨.wrong, ·⟩) ++
    (if p.explanation.isEmpty then [] else [⟨.explanation, p.explanation⟩])

namespace LessonSource

/-- A part on lines of its own, its marker before the first of them. -/
def printBlock (b : Block) : Text := "(" ++ [b.part.sign] ++ ") " ++ b.content

/-- A problem, opened by a break. -/
def printProblem (p : ProblemSource) : Text := "(#)\n" ++ p.blocks.flatMap printBlock

/-- The text of a lesson. The last line has no end. -/
def print (s : LessonSource) : Text := (s.header ++ s.problems.flatMap printProblem).dropLast

/-- Lines, each with its end. -/
def endLines (lines : List Text) : Text := lines.flatMap endLine

/-- A line in which no line ends. -/
def Unbroken (line : Text) : Prop := ∀ c ∈ line, c ≠ '\n' ∧ c ≠ '\r'

/-- A line that is no marker line. -/
def Plain (line : Text) : Prop := Unbroken line ∧ Line.marker? line = none

/-- A text of lines that are no marker lines. -/
def PlainLines (t : Text) : Prop := ∃ lines, t = endLines lines ∧ ∀ line ∈ lines, Plain line

/-- A text that can follow a marker: its first line is not empty and begins with no gap, and no
    later line is a marker line. -/
def Printable (t : Text) : Prop :=
  ∃ c first rest, t = endLine (c :: first) ++ rest ∧ Unbroken (c :: first) ∧
    c ≠ ' ' ∧ c ≠ '\t' ∧ PlainLines rest

/-! ## Lines -/

theorem Unbroken.of_all {line : Text} (h : line.all fun c => c != '\n' && c != '\r') :
    Unbroken line := fun c hc => by simpa using List.all_eq_true.1 h c hc

theorem newlineLines_cons {c : Char} (t : Text) (hn : c ≠ '\n') (hr : c ≠ '\r') :
    Text.newlineLines (c :: t) = Text.consLine c (Text.newlineLines t) := by
  rw [Text.newlineLines.eq_def]
  simp [hn, hr]

theorem newlineLines_endLine_append {line : Text} (h : Unbroken line) (t : Text) :
    Text.newlineLines (endLine line ++ t) = line :: Text.newlineLines t := by
  induction line with
  | nil => simp [endLine, Text.newlineLines]
  | cons c line ih =>
      have hc := h c (by simp)
      have hl : Unbroken line := fun d hd => h d (by simp [hd])
      calc Text.newlineLines (endLine (c :: line) ++ t)
          = Text.consLine c (Text.newlineLines (endLine line ++ t)) :=
            newlineLines_cons _ hc.1 hc.2
        _ = (c :: line) :: Text.newlineLines t := by rw [ih hl, Text.consLine]

theorem newlineLines_unbroken {line : Text} (h : Unbroken line) :
    Text.newlineLines line = [line] := by
  induction line with
  | nil => rfl
  | cons c line ih =>
      have hc := h c (by simp)
      rw [newlineLines_cons _ hc.1 hc.2, ih fun d hd => h d (by simp [hd]), Text.consLine]

/-- Lines whose last end is dropped are read back. -/
theorem newlineLines_endLines {lines : List Text} (hne : lines ≠ [])
    (h : ∀ line ∈ lines, Unbroken line) :
    Text.newlineLines (endLines lines).dropLast = lines := by
  induction lines with
  | nil => exact absurd rfl hne
  | cons line rest ih =>
      have hl : Unbroken line := h line (by simp)
      cases rest with
      | nil => simpa [endLines, endLine] using newlineLines_unbroken hl
      | cons next rest =>
          have more : endLines (next :: rest) ≠ [] := by simp [endLines, endLine]
          have split : (endLines (line :: next :: rest)).dropLast =
              endLine line ++ (endLines (next :: rest)).dropLast :=
            List.dropLast_append_of_ne_nil more
          rw [split, newlineLines_endLine_append hl,
            ih (by simp) fun l hm => h l (List.mem_cons_of_mem _ hm)]

theorem read_plain {line : Text} (h : Plain line) : Line.read line = .ok (.plain line) := by
  simp [Line.read, h.2]

theorem mapM_read_plain {lines : List Text} (h : ∀ line ∈ lines, Plain line) :
    lines.mapM Line.read = .ok (lines.map .plain) :=
  mapM_eq_ok fun line hl => read_plain (h line hl)

theorem lineRest?_unbroken {line : Text} (h : Unbroken line) : Line.lineRest? line = some line := by
  have all : ∀ c ∈ line, (c != '\n') = true := fun c hc => by simpa using (h c hc).1
  have rest : line.dropWhile (· != '\n') = [] := List.dropWhile_eq_nil_iff.2 all
  have taken : line.takeWhile (· != '\n') = line := List.takeWhile_eq_self_iff.2 all
  simp [Line.lineRest?, rest, taken]

/-- The first line of a printed part is a marker line of that part. -/
theorem read_marker (part : Part) {c : Char} {first : Text} (h : Unbroken (c :: first))
    (hs : c ≠ ' ') (ht : c ≠ '\t') :
    Line.read ("(" ++ [part.sign] ++ ") " ++ c :: first) = .ok (.marker part (c :: first)) := by
  have content : (c :: first).dropWhile (fun c => c == ' ' || c == '\t') = c :: first := by
    simp [hs, ht]
  have marker : Line.marker? ("(" ++ [part.sign] ++ ") " ++ c :: first) =
      some (part.sign, c :: first) := by
    have indent : Line.dropIndent? ("(" ++ [part.sign] ++ ") " ++ c :: first) =
        some ("(" ++ [part.sign] ++ ") " ++ c :: first) := by
      simp [Line.dropIndent?]
    have opening : Line.dropBrackets? '(' ("(" ++ [part.sign] ++ ") " ++ c :: first) =
        some (part.sign :: ')' :: ' ' :: c :: first) := by
      cases part <;> simp [Line.dropBrackets?, Part.sign]
    have letter : Line.isLetter part.sign = true := by cases part <;> decide
    have single : (')' :: ' ' :: c :: first).dropWhile
        (fun d => Unicode.lower d == Unicode.lower part.sign) = ')' :: ' ' :: c :: first := by
      rw [List.dropWhile_cons_of_neg]
      cases part <;> decide
    have closing : Line.dropBrackets? ')' (')' :: ' ' :: c :: first) = some (' ' :: c :: first) := by
      simp [Line.dropBrackets?]
    have gap : (' ' :: c :: first).dropWhile (fun c => c == ' ' || c == '\t') = c :: first := by
      rw [List.dropWhile_cons_of_pos (by simp), content]
    simp only [Line.marker?, indent, opening, letter, single, closing, gap, lineRest?_unbroken h,
      if_true, Option.bind_eq_bind, Option.bind_some, Option.pure_def]
  have named : Part.ofLetter? (Unicode.lowerText [part.sign]) = some part := by
    cases part <;> decide
  rw [Line.read, marker]
  simp [named]

/-! ## Blocks -/

theorem blocks_plain (lines : List Text) (more : List Line) :
    blocks (lines.map .plain ++ more) = (endLines lines ++ (blocks more).1, (blocks more).2) := by
  induction lines with
  | nil => rfl
  | cons line rest ih => simp [blocks, ih, endLines]

/-- `t` is made of lines that are read as the blocks `bs`, whatever blocks follow. -/
def Written (t : Text) (bs : List Block) : Prop :=
  ∃ texts lines, t = endLines texts ∧ (∀ line ∈ texts, Unbroken line) ∧
    texts.mapM Line.read = .ok lines ∧
    ∀ more, (blocks more).1 = [] → blocks (lines ++ more) = ([], bs ++ (blocks more).2)

namespace Written

theorem nil : Written [] [] := ⟨[], [], rfl, by simp, rfl, fun more h => by simp [← h]⟩

theorem append {t u : Text} {bs cs : List Block} (h : Written t bs) (k : Written u cs) :
    Written (t ++ u) (bs ++ cs) := by
  obtain ⟨texts, lines, rfl, ht, hr, hb⟩ := h
  obtain ⟨texts', lines', rfl, ht', hr', hb'⟩ := k
  refine ⟨texts ++ texts', lines ++ lines', by simp [endLines], ?_, ?_, ?_⟩
  · intro line hm
    rcases List.mem_append.1 hm with hm | hm
    · exact ht line hm
    · exact ht' line hm
  · rw [List.mapM_append, hr, hr']
    rfl
  · intro more hm
    have later := hb' more hm
    rw [List.append_assoc, hb _ (by rw [later]), later, List.append_assoc]

theorem flatMap {α : Type} {f : α → Text} {g : α → List Block} {l : List α}
    (h : ∀ a ∈ l, Written (f a) (g a)) : Written (l.flatMap f) (l.flatMap g) := by
  induction l with
  | nil => exact nil
  | cons a l ih =>
      exact (h a (by simp)).append (ih fun b hb => h b (List.mem_cons_of_mem _ hb))

theorem divider : Written "(#)\n" [⟨.divider, []⟩] := by
  refine ⟨["(#)"], [.marker .divider []], rfl, ?_, rfl, ?_⟩
  · intro line hm
    rw [List.mem_singleton.1 hm]
    exact .of_all (by decide)
  · intro more hm
    simp [blocks, hm, firstLine]

theorem block {b : Block} (h : Printable b.content) : Written (printBlock b) [b] := by
  obtain ⟨part, content⟩ := b
  obtain ⟨c, first, rest, rfl, hu, hs, ht, lines, rfl, hp⟩ := h
  refine ⟨("(" ++ [part.sign] ++ ") " ++ c :: first) :: lines,
    .marker part (c :: first) :: lines.map .plain, ?_, ?_, ?_, ?_⟩
  · simp [printBlock, endLines, endLine]
  · intro line hm
    rcases List.mem_cons.1 hm with rfl | hm
    · have marker : Unbroken ("(" ++ [part.sign] ++ ") ") := by
        cases part <;> exact .of_all (by decide)
      intro d hd
      rcases List.mem_append.1 hd with hd | hd
      · exact marker d hd
      · exact hu d hd
    · exact (hp line hm).1
  · rw [List.mapM_cons, read_marker part hu hs ht, mapM_read_plain hp]
    rfl
  · intro more hm
    simp [blocks, blocks_plain, hm, firstLine]

end Written

/-! ## Problems -/

/-- Blocks that turn the problem `p` into `q` and begin no other problem, unless a break precedes. -/
def Fills (p : ProblemSource) (bs : List Block) (q : ProblemSource) : Prop :=
  ∀ last rest, last ≠ some .divider → ∃ last', last' ≠ some .divider ∧
    gather last p (bs ++ rest) = gather last' q rest

namespace Fills

theorem nil (p : ProblemSource) : Fills p [] p := fun last _ h => ⟨last, h, rfl⟩

theorem trans {p q r : ProblemSource} {bs cs : List Block} (h : Fills p bs q) (k : Fills q cs r) :
    Fills p (bs ++ cs) r := by
  intro last rest hl
  obtain ⟨last', hl', e⟩ := h last (cs ++ rest) hl
  obtain ⟨last'', hl'', e'⟩ := k last' rest hl'
  exact ⟨last'', hl'', by rw [List.append_assoc, e, e']⟩

theorem single {p : ProblemSource} {b : Block} (hd : b.part ≠ .divider) (hc : b.content ≠ [])
    (hb : beginsProblem none b.part p = false) : Fills p [b] (p.add b.part b.content) := by
  intro last rest hl
  have same : beginsProblem last b.part p = false := by
    simpa [beginsProblem, hl] using hb
  exact ⟨some b.part, by simpa using hd, by simp [gather, same, hc]⟩

/-- A part that may be absent. -/
theorem optional {p : ProblemSource} {b : Block} (hd : b.part ≠ .divider)
    (hb : beginsProblem none b.part p = false) (he : b.content = [] → p.add b.part b.content = p) :
    Fills p (if b.content.isEmpty then [] else [b]) (p.add b.part b.content) := by
  by_cases hc : b.content = []
  · rw [he hc]
    simpa [hc] using nil p
  · simpa [hc] using single hd hc hb

/-- Answers, which never begin a problem. -/
theorem answers {part : Part} (hd : part ≠ .divider)
    (hb : ∀ p, beginsProblem none part p = false) (ts : List Text) (h : ∀ t ∈ ts, t ≠ []) :
    ∀ p, Fills p (ts.map (⟨part, ·⟩)) (ts.foldl (·.add part ·) p) := by
  induction ts with
  | nil => exact fun p => nil p
  | cons t ts ih =>
      intro p
      have first : Fills p [⟨part, t⟩] (p.add part t) := single hd (h t (by simp)) (hb p)
      exact first.trans (ih (fun u hu => h u (List.mem_cons_of_mem _ hu)) _)

theorem foldl_add_right (ts : List Text) (p : ProblemSource) :
    ts.foldl (·.add .right ·) p = { p with right := p.right ++ ts } := by
  induction ts generalizing p with
  | nil => simp
  | cons t ts ih =>
      rw [List.foldl_cons, ih]
      simp [ProblemSource.add]

theorem foldl_add_wrong (ts : List Text) (p : ProblemSource) :
    ts.foldl (·.add .wrong ·) p = { p with wrong := p.wrong ++ ts } := by
  induction ts generalizing p with
  | nil => simp
  | cons t ts ih =>
      rw [List.foldl_cons, ih]
      simp [ProblemSource.add]

/-- The blocks of a problem make it up from nothing. -/
theorem blocks {p : ProblemSource} (hr : ∀ t ∈ p.right, t ≠ []) (hw : ∀ t ∈ p.wrong, t ≠ []) :
    Fills {} p.blocks p := by
  have intro : Fills {} _ { intro := p.intro } :=
    optional (b := ⟨.intro, p.intro⟩) (by simp) rfl fun h => by simp_all [ProblemSource.add]
  have question : Fills { intro := p.intro } _ { intro := p.intro, question := p.question } :=
    optional (b := ⟨.question, p.question⟩) (by simp) rfl fun h => by simp_all [ProblemSource.add]
  have explanation : Fills { p with explanation := [] } _ p :=
    optional (b := ⟨.explanation, p.explanation⟩) (by simp) rfl
      fun h => by simp_all [ProblemSource.add]
  have right := @answers .right (by simp) (fun _ => rfl) p.right hr
    { intro := p.intro, question := p.question }
  have wrong := @answers .wrong (by simp) (fun _ => rfl) p.wrong hw
    { intro := p.intro, question := p.question, right := p.right }
  rw [foldl_add_right] at right
  rw [foldl_add_wrong] at wrong
  exact (((intro.trans question).trans right).trans wrong).trans explanation

end Fills

/-- After a break the next block begins a problem, as it does at the start. -/
theorem gather_after_divider (p : ProblemSource) (b : Block) (rest : List Block) :
    gather (some .divider) p (b :: rest) = p :: gather none {} (b :: rest) := by
  have start : beginsProblem none b.part {} = false := by cases b.part <;> rfl
  have again : beginsProblem (some .divider) b.part p = true := by simp [beginsProblem]
  simp [gather, start, again]

/-- Problems that each have a part are gathered from breaks and their blocks. -/
theorem gather_problems {problems : List ProblemSource}
    (h : ∀ p ∈ problems, p.blocks ≠ [] ∧ (∀ b ∈ p.blocks, b.content ≠ []) ∧ Fills {} p.blocks p) :
    ∀ last current, last ≠ some .divider →
      gather last current (problems.flatMap fun p => ⟨.divider, []⟩ :: p.blocks) =
        current :: problems := by
  induction problems with
  | nil => exact fun last current _ => rfl
  | cons p problems ih =>
      intro last current hl
      obtain ⟨hne, -, fills⟩ := h p (by simp)
      have quiet : beginsProblem last .divider current = false := by simp [beginsProblem, hl]
      have later := ih fun q hq => h q (List.mem_cons_of_mem _ hq)
      obtain ⟨b, bs, hb⟩ := List.exists_cons_of_ne_nil hne
      have begun : ∀ rest, gather (some .divider) current (p.blocks ++ rest) =
          current :: gather none {} (p.blocks ++ rest) := by
        intro rest
        rw [hb]
        exact gather_after_divider current b (bs ++ rest)
      obtain ⟨last', hl', e⟩ :=
        fills none (problems.flatMap fun p => ⟨.divider, []⟩ :: p.blocks) (by simp)
      calc gather last current ((p :: problems).flatMap fun p => ⟨.divider, []⟩ :: p.blocks)
          = gather (some .divider) current
              (p.blocks ++ problems.flatMap fun p => ⟨.divider, []⟩ :: p.blocks) := by
            simp [gather, quiet, ProblemSource.add]
        _ = current :: gather last' p (problems.flatMap fun p => ⟨.divider, []⟩ :: p.blocks) := by
            rw [begun, e]
        _ = current :: p :: problems := by rw [later last' p hl']

/-! ## Splitting what was printed -/

theorem Printable.ne_nil {t : Text} (h : Printable t) : t ≠ [] := by
  obtain ⟨c, first, rest, rfl, -⟩ := h
  simp [endLine]

/-- Splitting the printed text of a lesson gives its header and, after an empty problem, its
    problems. -/
theorem ofText_print {header : Text} {problems : List ProblemSource} (hh : PlainLines header)
    (hne : problems ≠ [])
    (hp : ∀ p ∈ problems, p.blocks ≠ [] ∧ (∀ b ∈ p.blocks, Printable b.content)) :
    ofText (print ⟨header, problems⟩) = .ok ⟨header, {} :: problems⟩ := by
  obtain ⟨headings, rfl, plain⟩ := hh
  have written : Written (problems.flatMap printProblem)
      (problems.flatMap fun p => ⟨.divider, []⟩ :: p.blocks) := by
    refine Written.flatMap fun p hm => Written.divider.append ?_
    have parts : Written (p.blocks.flatMap printBlock) (p.blocks.flatMap ([·])) :=
      Written.flatMap fun b hb => Written.block ((hp p hm).2 b hb)
    rwa [List.flatMap_singleton'] at parts
  obtain ⟨texts, lines, ht, hu, hr, hb⟩ := written
  have document : print ⟨endLines headings, problems⟩ = (endLines (headings ++ texts)).dropLast := by
    simp [print, ht, endLines]
  have nonempty : headings ++ texts ≠ [] := by
    rintro h
    obtain ⟨p, rest, rfl⟩ := List.exists_cons_of_ne_nil hne
    simp [(List.append_eq_nil_iff.1 h).2, endLines, printProblem] at ht
  have unbroken : ∀ line ∈ headings ++ texts, Unbroken line := by
    intro line hm
    rcases List.mem_append.1 hm with hm | hm
    · exact (plain line hm).1
    · exact hu line hm
  have read : (headings ++ texts).mapM Line.read = .ok (headings.map .plain ++ lines) := by
    rw [List.mapM_append, mapM_read_plain plain, hr]
    rfl
  have split : blocks (headings.map .plain ++ lines) = (endLines headings,
      problems.flatMap fun p => ⟨.divider, []⟩ :: p.blocks) := by
    have alone := hb [] rfl
    simp only [List.append_nil, blocks] at alone
    rw [blocks_plain, alone]
    simp
  have gathered : gather none {} (problems.flatMap fun p => ⟨.divider, []⟩ :: p.blocks) =
      {} :: problems := by
    refine gather_problems (fun p hm => ?_) none {} (by simp)
    obtain ⟨some, printable⟩ := hp p hm
    refine ⟨some, fun b hb => (printable b hb).ne_nil, Fills.blocks ?_ ?_⟩
    · exact fun t ht => (printable ⟨.right, t⟩ (by simp [ProblemSource.blocks, ht])).ne_nil
    · exact fun t ht => (printable ⟨.wrong, t⟩ (by simp [ProblemSource.blocks, ht])).ne_nil
  rw [document, ofText, newlineLines_endLines nonempty unbroken, read]
  simp [bind, Except.bind, pure, Except.pure, ofLines, split, gathered]

/-- A lesson whose question has a line like a marker in brackets and whose last answer looks like a
    marker. -/
theorem ofText_print_answers :
    let problem : ProblemSource :=
      { question := "How?\n\n(so)\n", right := ["Yes.\n"], wrong := ["(x)\n"] }
    PlainLines "title: a\n" ∧
      (problem.blocks ≠ [] ∧ ∀ b ∈ problem.blocks, Printable b.content) ∧
      ofText (print ⟨"title: a\n", [problem, problem]⟩) =
        .ok ⟨"title: a\n", [{}, problem, problem]⟩ := by
  intro problem
  have plain (line : Text) (hu : line.all fun c => c != '\n' && c != '\r')
      (hm : Line.marker? line = none) : Plain line := ⟨.of_all hu, hm⟩
  have header : PlainLines "title: a\n" :=
    ⟨["title: a"], rfl, by simpa using plain "title: a" (by decide) (by decide)⟩
  have question : Printable "How?\n\n(so)\n" :=
    ⟨'H', "ow?", "\n(so)\n", rfl, .of_all (by decide), by decide, by decide, ["", "(so)"], rfl,
      by simpa using ⟨plain "" (by decide) (by decide), plain "(so)" (by decide) (by decide)⟩⟩
  have right : Printable "Yes.\n" :=
    ⟨'Y', "es.", [], rfl, .of_all (by decide), by decide, by decide, [], rfl, by simp⟩
  have wrong : Printable "(x)\n" :=
    ⟨'(', "x)", [], rfl, .of_all (by decide), by decide, by decide, [], rfl, by simp⟩
  have parts : problem.blocks ≠ [] ∧ ∀ b ∈ problem.blocks, Printable b.content := by
    have listed : problem.blocks = [⟨.question, "How?\n\n(so)\n"⟩, ⟨.right, "Yes.\n"⟩,
        ⟨.wrong, "(x)\n"⟩] := rfl
    rw [listed]
    simp only [ne_eq, reduceCtorEq, not_false_eq_true, List.forall_mem_cons, true_and]
    exact ⟨question, right, wrong, by simp⟩
  exact ⟨header, parts, ofText_print header (by simp) (by simpa using parts)⟩

end LessonSource

end LessonText

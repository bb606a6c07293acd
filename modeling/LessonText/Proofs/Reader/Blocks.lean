import LessonText.Proofs.Reader.Basic
import LessonText.Proofs.Markup.Blocks
import LessonText.Proofs.Markup.Links
import LessonText.Proofs.Markup.OneLine

/-! # Readers and the rules of blocks

The rules of blocks put lines between tags, and nothing of a line is read in another way than before.
-/

namespace LessonText

open Pattern Unicode Rendering

/-! ## Custody -/

/-- What is in custody has a property, and the gaps recorded so far are these. -/
def Session.Keeps (free : Text → Prop) (gaps : List Text) (s : Session) : Prop :=
  (∀ p ∈ s.warden.wards, free p.2) ∧ s.gaps = gaps

variable {σ : Type} {A : Reader σ} {free : Text → Prop} {gaps : List Text}

theorem Rendering.Ensures.protect {t : Text} (h : free t) :
    Ensures (Session.Keeps free gaps) (Rendering.protect t) fun key => key = [] ∧ t = [] ∨ t ≠ [] ∧ ∃ n, key = Warden.keyFor n t := by
  rintro ⟨⟨n, wards⟩, _, _⟩ ⟨held, same⟩
  by_cases empty : t = []
  · subst empty
    exact ⟨⟨held, same⟩, .inl ⟨rfl, rfl⟩⟩
  · have full : t.isEmpty = false := by simpa using empty
    simp only [Rendering.protect, Warden.protect, full, Bool.false_eq_true, if_false]
    exact ⟨⟨List.forall_mem_cons.2 ⟨h, held⟩, same⟩, .inr ⟨empty, n, rfl⟩⟩

/-- The texts that block rules put around lines. -/
def Block.edges : List Text :=
  (["\n\n<h1>", "</h1>\n\n", "\n\n<h2>", "</h2>\n\n", "\n\n<blockquote>", "</blockquote>\n\n", "\n\n<pre><code>",
    "</code></pre>\n\n", "\n\n<hr>\n\n", "\n\n<ul>", "</ul>\n\n", "\n\n<ol>", "</ol>\n\n", "</li>",
    "\n\n<div class=\"maths\">", "</div>\n\n", "\n\n<p>", "</p>\n\n", "\n\n"] : List Text) ++
  (List.range' 1 6).map (fun level => "\n\n<h" ++ Text.decimal level ++ ">") ++
  (List.range' 1 6).map (fun level => "</h" ++ Text.decimal level ++ ">\n")

/-- A reader that meets keys and the marks of spans only where a text might end. -/
structure Reader.Marked (A : Reader σ) : Prop where
  ended : A.Lands '\n'
  marks : ∀ c ∈ ("&\x60*_" : Text), A.Lands c
  opening : A.Enters '<'
  closing : A.Returns '>'
  keys : ∀ n d, d ≠ [] → A.Resets (Warden.keyFor n d)

/-- A reader for which signs and tags stand by themselves. White space and quotes may stand in a tag as well, but without a
    tag before them they lead back to the start. -/
structure Reader.Fits (A : Reader σ) : Prop extends A.Marked where
  spaces : ∀ c, isSpace c = true → A.step A.home c = some A.home ∧ A.Settles c
  blanks : ∀ c, isSpace c = true ∨ c = '"' → ∀ t q, '<' ∉ t → A.run A.home (t ++ [c]) = some q → q = A.home
  quoted : ∀ s q, A.run s "\")" = some q → A.Calm s
  signs : ∀ c ∈ ("#:\x7b\x7d![]()" : Text), A.Lands c
  edges : ∀ t ∈ Block.edges, A.Resets t
  item : A.run A.home "<li>" = some A.home

/-- Where white space and quotes stand by themselves, too. -/
theorem Reader.Fits.of_lands (marked : A.Marked) (spaces : ∀ c, isSpace c = true → A.Lands c)
    (signs : ∀ c ∈ ("#:\x7b\x7d![]()\"" : Text), A.Lands c) (edges : ∀ t ∈ Block.edges, A.Resets t)
    (item : A.run A.home "<li>" = some A.home) : A.Fits where
  toMarked := marked
  spaces c space := ⟨(spaces c space).1, (spaces c space).settles⟩
  blanks c blank t q _ read := by
    have lands : A.Lands c := blank.elim (spaces c) fun quote => quote ▸ signs '"' (by decide)
    exact Reader.run_returns (by simpa using lands.returns) (by simp) read
  quoted s q read := by
    change A.run s ('"' :: [')']) = some q at read
    rw [Reader.run_cons, Option.bind_eq_some_iff] at read
    obtain ⟨r, step, -⟩ := read
    exact (signs '"' (by decide)).enters s r step
  signs c listed := signs c (by revert c; decide)
  edges := edges
  item := item

/-- The tags that span rules put around texts. -/
def Span.edges : List Text :=
  ["<em>", "</em>", "<strong>", "</strong>", "<strong><em>", "</em></strong>", "<code>", "</code>", "<img alt=\"", "\" src=\"",
    "\" title=\"", "\"/>", "<a target=\"_blank\" href=\"", "\">", "</a>", "<a href=\"", " <span class=\"maths\">", "</span> "]

/-- A property of what goes into custody that holds of everything that comes from a text that the reader takes. -/
structure Reader.Custody (A : Reader σ) (free : Text → Prop) : Prop where
  of_accepts : ∀ t, A.Accepts t → free t
  unbracketed : ∀ t, '<' ∉ t → free t
  append : ∀ t u, free t → free u → free (t ++ u)
  quoted : ∀ t, free t → free (Span.quoted t)
  edges : ∀ t ∈ Span.edges, free t
  reinstate : ∀ (w : Warden) t, (∀ p ∈ w.wards, free p.2) → free t → free (w.reinstate t).text

/-- Where equations go into custody as well. -/
structure Reader.FullCustody (A : Reader σ) (free : Text → Prop) : Prop extends A.Custody free where
  maths : ∀ t, A.Accepts t → free (Maths.toHtml t)

namespace Reader.Marked

variable {s : σ} {data : Text}

theorem follows (marked : A.Marked) : Follows A A id :=
  ⟨rfl, fun _ _ _ step => step, fun s q step => (marked.ended.2 s q step).2⟩

/-- At the start, a text might end. -/
theorem calm (marked : A.Marked) : A.Calm A.home := by
  rw [Reader.Calm, marked.ended.1]
  rfl

/-- A key leads from the start back to it. -/
theorem protect (marked : A.Marked) (h : free data) :
    Ensures (Session.Keeps free gaps) (Rendering.protect data) fun key => A.run A.home key = some A.home := by
  refine (Ensures.protect h).mono fun key issued => ?_
  rcases issued with ⟨rfl, -⟩ | ⟨full, n, rfl⟩
  · rfl
  · exact marked.keys n data full _ marked.calm

/-- The key of data leads back to the start wherever a text might end. -/
theorem protect_full (marked : A.Marked) (h : free data) (full : data ≠ []) :
    Ensures (Session.Keeps free gaps) (Rendering.protect data) A.Resets := by
  refine (Ensures.protect h).mono fun key issued => ?_
  rcases issued with ⟨-, empty⟩ | ⟨-, n, rfl⟩
  · exact absurd empty full
  · exact marked.keys n data full

end Reader.Marked

namespace Reader.Fits

variable {s q : σ} {t u w z : Text}

/-- An edge between two places where a text might end. -/
theorem edge (fits : A.Fits) (h : t ∈ Block.edges) (calm : A.Calm s) : A.run s t = some A.home := fits.edges t h s calm

/-- Behind a newline, or at the end of the text, everything is read from the start. -/
theorem line_end (fits : A.Fits) (h : A.Reads s t) (line : t.head?.all (· == '\n') = true) : A.Calm s ∧ A.Reads A.home t := by
  cases t with
  | nil => exact ⟨Reader.reads_nil.1 h, Reader.reads_nil.2 fits.calm⟩
  | cons c t =>
      obtain rfl : c = '\n' := by simpa using line
      obtain ⟨q, step, later⟩ := Reader.reads_cons.1 h
      obtain ⟨calm, rfl⟩ := fits.ended.2 s q step
      exact ⟨calm, Reader.reads_cons.2 ⟨A.home, fits.ended.1, later⟩⟩

/-- White space leads from the start back to it. -/
theorem spaces_home (fits : A.Fits) (h : ∀ c ∈ t, isSpace c = true) : A.run A.home t = some A.home :=
  Reader.run_home fun c hc => (fits.spaces c (h c hc)).1

/-- White space behind a text without a bracket leads back to the start. -/
theorem spaces_behind (fits : A.Fits) (plain : '<' ∉ w) (spaces : t ≠ [] ∧ ∀ c ∈ t, isSpace c = true)
    (h : A.run A.home (w ++ t) = some q) : q = A.home := by
  obtain ⟨c, t, rfl⟩ := List.exists_cons_of_ne_nil spaces.1
  obtain ⟨space, others⟩ := List.forall_mem_cons.1 spaces.2
  rw [List.append_cons, Reader.run_append, Option.bind_eq_some_iff] at h
  obtain ⟨r, first, later⟩ := h
  obtain rfl := fits.blanks c (.inl space) w r plain first
  exact Option.some.inj (later.symm.trans (fits.spaces_home others))

/-- Before white space, or the end of a line, a text might end. -/
theorem calm_before (fits : A.Fits) (h : A.Reads s (w ++ t)) (settles : ∀ c ∈ w, A.Settles c)
    (line : t.head?.all (· == '\n') = true) : A.Calm s := by
  induction w generalizing s with
  | nil => exact (fits.line_end h line).1
  | cons c w ih =>
      obtain ⟨here, later⟩ := List.forall_mem_cons.1 settles
      obtain ⟨q, step, rest⟩ := Reader.reads_cons.1 h
      exact here s q step (ih rest later)

/-- White space may be left off at both ends. -/
theorem accepts_inside (fits : A.Fits) (h : A.Accepts (w ++ t ++ z)) (before : ∀ c ∈ w, isSpace c = true)
    (behind : ∀ c ∈ z, isSpace c = true) : A.Accepts t := by
  rw [Reader.Accepts, List.append_assoc] at h
  obtain ⟨_, front, later⟩ := Reader.reads_append.1 h
  obtain rfl := Option.some.inj ((fits.spaces_home before).symm.trans front)
  obtain ⟨q, read, rest⟩ := Reader.reads_append.1 later
  exact ⟨q, read, fits.calm_before (w := z) (t := []) (by simpa using rest) (fun c hc => (fits.spaces c (behind c hc)).2) rfl⟩

end Reader.Fits

/-! ## Rules -/

/-- What becomes of a match between two edges. -/
theorem Carries.wrap (fits : A.Fits) {s q : σ} (old : Text) {rest t u w : Text} (opening : u ∈ Block.edges) (closing : w ∈ Block.edges)
    (calm : A.Calm s) (inner : A.run A.home t = some q) (ended : A.Calm q) (later : A.Reads A.home rest) :
    Carries A A id s old rest (u ++ t ++ w) :=
  ⟨A.home, Reader.run_wrap (fits.edges u opening) (fits.edges w closing) calm inner ended, later, fun _ => rfl⟩

namespace Block

variable {b : Option Char} {s : σ} {t old rest : Text}

theorem isSpace_of_isGap {c : Char} (h : Pattern.isGap c = true) : isSpace c = true := by
  rw [Pattern.isGap, Bool.or_eq_true, beq_iff_eq, beq_iff_eq] at h
  rcases h with rfl | rfl <;> rfl

theorem underlined_carries (fits : A.Fits) {I : Session → Prop} {sign : Char} {tag : Text}
    (opening : "\n\n<" ++ tag ++ ">" ∈ edges) (closing : "</" ++ tag ++ ">\n\n" ∈ edges) (accepts : A.Accepts t) :
    Ensures I ((underlined sign tag).apply t) A.Accepts := by
  have ends {b old rest gs} (takes : (underlined sign tag).pattern.Takes b old rest gs) : old.getLast? = some '\n' := by
    obtain ⟨_, _, _, _, rfl, -, -, hlast⟩ := takes
    obtain ⟨rfl, -⟩ := takes_literal.1 hlast
    exact List.getLast?_concat
  -- Where a match begins behind another character of its line, one would have begun with that character.
  refine Rule.apply_carries_of fits.follows (.of_passes rfl)
    (fun bound b t => t.length ≤ bound ∧
      (b.all (· == '\n') = true ∨ (underlined sign tag).pattern.matchAt bound 0 b t = none)) ?_ ?_ ?_ ⟨le_rfl, .inl rfl⟩ accepts
  · rintro bound b c t none ⟨inside, -⟩
    refine ⟨Nat.le_of_succ_le inside, ?_⟩
    by_cases newline : c = '\n'
    · exact .inl (by simp [newline])
    · right
      rw [← Option.not_isSome_iff_eq_none, Option.isSome_iff_exists]
      rintro ⟨⟨m, n⟩, found⟩
      obtain ⟨r, rfl, -, -, takes⟩ := matchAt_takes found
      obtain ⟨_, last, _, _, whole, -, ⟨_, signs, _, _, rfl, -, ⟨title, newline', _, _, rfl, -, ⟨_, htitle, -⟩, hnewline⟩,
        hsigns⟩, hlast⟩ := takes
      obtain ⟨-, inline, stop, -⟩ := takes_span1.1 htitle
      have longer : (underlined sign tag).pattern.Takes b (c :: m.text) r ([] ++ ([] ++ ([] ++ [(1, c :: title)]))) := by
        refine ⟨c :: title ++ newline' ++ signs, last, _, _, by simp [whole], rfl,
          ⟨c :: title ++ newline', signs, _, _, rfl, rfl, ⟨c :: title, newline', _, _, rfl, rfl,
            ⟨[], takes_span1.2 ⟨by simp, ?_, by simpa using stop, rfl⟩, rfl⟩, ?_⟩, ?_⟩, ?_⟩
        · exact List.forall_mem_cons.2 ⟨by simpa [inLine] using newline, inline⟩
        · exact takes_literal.2 ⟨(takes_literal.1 hnewline).1, rfl⟩
        · obtain ⟨h₁, h₂, h₃, -⟩ := takes_span1.1 hsigns
          exact takes_span1.2 ⟨h₁, h₂, h₃, rfl⟩
        · exact takes_literal.2 ⟨(takes_literal.1 hlast).1, rfl⟩
      have direct : (underlined sign tag).pattern.Direct := by simp [underlined, Rule.ofRewrite]
      have matched := matchAt_isSome direct (show _ ≤ bound by simpa using inside) longer
      rw [List.cons_append, none] at matched
      cases matched
  · rintro bound b old rest gs takes ⟨inside, -⟩
    rw [List.length_append] at inside
    exact ⟨by omega, .inl (by simp [ends takes])⟩
  · rintro bound b old rest m s found same takes ⟨-, start⟩ line reads
    have first : s = A.home := line (start.resolve_right (by simp [found]))
    obtain ⟨_, last, _, _, rfl, groups, ⟨_, signs, _, _, rfl, rfl, ⟨title, newline, _, _, rfl, rfl, ⟨_, htitle, rfl⟩,
      hnewline⟩, hsigns⟩, hlast⟩ := takes
    obtain ⟨-, -, -, rfl⟩ := takes_span1.1 htitle
    obtain ⟨-, -, -, rfl⟩ := takes_span1.1 hsigns
    obtain ⟨rfl, rfl⟩ := takes_literal.1 hnewline
    obtain ⟨rfl, rfl⟩ := takes_literal.1 hlast
    have group : m.group 1 = title := Match.group_eq groups
    have later : A.Reads A.home rest := Reader.Reads.behind (t := title ++ "\n" ++ signs) (by simpa using reads) fits.ended.returns
    subst first
    simp only [List.append_assoc] at reads
    obtain ⟨q, inner, reads⟩ := Reader.reads_append.1 reads
    have calm : A.Calm q := reads.calm (by simpa using fits.ended.enters)
    have carries := Carries.wrap fits (title ++ "\n" ++ signs ++ "\n") opening closing fits.calm inner calm later
    refine .pure ?_
    simpa only [underlined, Rule.ofRewrite, group, List.append_assoc] using carries

theorem headingTag_edges {level : ℕ} (positive : level ≠ 0) :
    "\n\n<" ++ headingTag level ++ ">" ∈ edges ∧ "</" ++ headingTag level ++ ">\n" ∈ edges := by
  have small : min level 6 ∈ List.range' 1 6 := List.mem_range'_1.2 (by omega)
  exact ⟨List.mem_append_left _ (List.mem_append_right _ (List.mem_map.2 ⟨_, small, rfl⟩)),
    List.mem_append_right _ (List.mem_map.2 ⟨_, small, rfl⟩)⟩

theorem heading_carries (fits : A.Fits) {I : Session → Prop} (accepts : A.Accepts t) :
    Ensures I (heading.apply t) A.Accepts := by
  refine Rule.apply_carries fits.follows (.of_passes rfl) (fun b old rest m s same takes line reads => ?_) accepts
  obtain ⟨_, _, _, _, rfl, groups, ⟨_, gaps, _, _, rfl, rfl, ⟨_, trailing, _, _, rfl, rfl, ⟨_, title, _, _, rfl, rfl,
    ⟨_, spaces, _, _, rfl, rfl, ⟨_, signs, _, _, rfl, rfl, ⟨rfl, start, rfl⟩, _, hsigns, rfl⟩, hspaces, rfl⟩, _, htitle, rfl⟩,
    htrailing, -, rfl⟩, hgaps, -, rfl⟩, rfl, ends, rfl⟩ := takes
  obtain ⟨full, isSign, rfl⟩ := takes_some1.1 hsigns
  obtain ⟨-, -, rfl⟩ := takes_few1.1 htitle
  obtain ⟨before, behind, trimmed, hbefore, hbehind⟩ := Draft.exists_trim title
  have hash : A.Lands '#' := fits.signs '#' (by decide)
  obtain rfl : s = A.home := line start
  have front : A.run A.home (signs ++ spaces ++ before) = some A.home := by
    refine Reader.run_home ?_
    simp only [List.forall_mem_append]
    exact ⟨⟨fun c hc => beq_iff_eq.1 (isSign c hc) ▸ hash.1, fun c hc => (fits.spaces c (beq_iff_eq.1 (hspaces c hc) ▸ rfl)).1⟩,
      fun c hc => (fits.spaces c (hbefore c hc)).1⟩
  have split : [] ++ signs ++ spaces ++ title ++ trailing ++ gaps ++ [] ++ rest =
      signs ++ spaces ++ before ++ (title.trim ++ (behind ++ trailing ++ gaps ++ rest)) := by
    nth_rewrite 1 [trimmed]
    simp
  rw [split] at reads
  obtain ⟨_, read, reads⟩ := Reader.reads_append.1 reads
  obtain rfl := Option.some.inj (front.symm.trans read)
  obtain ⟨q, inner, reads⟩ := Reader.reads_append.1 reads
  have settling : ∀ c ∈ behind ++ trailing ++ gaps, A.Settles c := by
    simp only [List.forall_mem_append]
    exact ⟨⟨fun c hc => (fits.spaces c (hbehind c hc)).2, fun c hc => beq_iff_eq.1 (htrailing c hc) ▸ hash.settles⟩,
      fun c hc => (fits.spaces c (isSpace_of_isGap (hgaps c hc))).2⟩
  obtain ⟨r, -, later⟩ := Reader.reads_append.1 reads
  have first : m.group 1 = signs := Match.group_eq groups
  have second : m.group 2 = title := Match.group_eq groups
  obtain ⟨opening, closing⟩ := headingTag_edges (mt List.length_eq_zero_iff.1 full)
  have carries := Carries.wrap fits ([] ++ signs ++ spaces ++ title ++ trailing ++ gaps ++ []) opening closing fits.calm inner
    (fits.calm_before reads settling ends) (fits.line_end later ends).2
  refine .pure ?_
  simpa only [heading, Rule.ofRewrite, first, second, List.append_assoc] using carries

/-! ## Rulers, empty lines and paragraphs -/

/-- A match at the start of a line, or with a newline at its start, becomes an edge. -/
theorem edge_carries (fits : A.Fits) {I : Session → Prop} {p : Pattern} {new : Text} (advances : p.Advances) (edge : new ∈ edges)
    (starts : ∀ b old rest gs, p.Takes b old rest gs → b.all (· == '\n') = true ∨ old.head? = some '\n')
    (ends : ∀ b old rest gs, p.Takes b old rest gs → old.getLast? = some '\n' ∨ rest.head?.all (· == '\n') = true)
    (accepts : A.Accepts t) : Ensures I ((Rule.ofRewrite ⟨p, fun _ => new⟩).apply t) A.Accepts := by
  refine Rule.apply_carries fits.follows advances (fun b old rest m s same takes line reads => ?_) accepts
  have calm : A.Calm s := by
    rcases starts _ _ _ _ takes with start | first
    · exact line start ▸ fits.calm
    · refine reads.calm fun c hc => ?_
      rw [List.head?_append, first] at hc
      obtain rfl : '\n' = c := Option.some.inj hc
      exact fits.ended.enters
  refine .pure ⟨A.home, fits.edge edge calm, ?_, fun _ => rfl⟩
  rcases ends _ _ _ _ takes with last | line
  · obtain ⟨v, rfl⟩ := List.getLast?_eq_some_iff.1 last
    exact Reader.Reads.behind (t := v) (by simpa using reads) fits.ended.returns
  · obtain ⟨q, -, later⟩ := Reader.reads_append.1 reads
    exact (fits.line_end later line).2

theorem ruler_carries (fits : A.Fits) {I : Session → Prop} (accepts : A.Accepts t) : Ensures I (ruler.apply t) A.Accepts := by
  refine edge_carries fits (.of_passes rfl) (by decide) (fun b old rest gs takes => .inl ?_) (fun b old rest gs takes => .inr ?_) accepts
  · obtain ⟨_, _, _, _, -, -, ⟨_, _, _, _, -, -, ⟨_, _, _, _, -, -, ⟨_, _, _, _, -, -, ⟨_, _, _, _, -, -, ⟨_, _, _, _, -, -,
      ⟨rfl, start, -⟩, -⟩, -⟩, -⟩, -⟩, -⟩, -⟩ := takes
    exact start
  · obtain ⟨_, _, _, _, -, -, -, ⟨rfl, stop, -⟩⟩ := takes
    exact stop

theorem emptyLines_carries (fits : A.Fits) {I : Session → Prop} (accepts : A.Accepts t) :
    Ensures I (emptyLines.apply t) A.Accepts := by
  have split {b old rest gs} (takes : emptyLines.pattern.Takes b old rest gs) : ∃ lines, old = '\n' :: lines ∧
      lines ≠ [] ∧ ∀ c ∈ lines, (c == '\n') = true := by
    obtain ⟨_, lines, _, _, rfl, -, first, others⟩ := takes
    obtain ⟨rfl, -⟩ := takes_literal.1 first
    obtain ⟨full, areEnds, -⟩ := takes_span1.1 others
    exact ⟨lines, rfl, full, areEnds⟩
  refine edge_carries fits (.of_passes rfl) (by decide) (fun b old rest gs takes => .inr ?_) (fun b old rest gs takes => .inl ?_) accepts
  all_goals obtain ⟨lines, rfl, full, areEnds⟩ := split takes
  · rfl
  · rw [List.getLast?_cons_of_ne_nil full, List.getLast?_eq_some_getLast full, beq_iff_eq.1 (areEnds _ (List.getLast_mem full))]

/-- A line of a paragraph ends with its newline, or before the end of the line. -/
theorem paragraphLines_ends {b : Option Char} {w r : Text} {gs : List (ℕ × Text)} (takes : paragraphLines.Takes b w r gs) :
    w.getLast? = some '\n' ∨ r.head?.all (· == '\n') = true := by
  have each {b w r gs} (takes : (span1 inLine ++ optional ("\n" ++ notFollowedBy (· == '\n'))).Takes b w r gs) :
      w.getLast? = some '\n' ∨ r.head?.all (· == '\n') = true := by
    obtain ⟨line, _, _, _, rfl, -, hline, ⟨_, _, _, _, rfl, -, newline, rfl, -⟩ | ⟨rfl, -⟩⟩ := takes
    · obtain ⟨rfl, -⟩ := takes_literal.1 newline
      exact .inl (by rw [List.append_nil]; exact List.getLast?_concat)
    · obtain ⟨-, -, stop, -⟩ := takes_span1.1 hline
      refine .inr ?_
      cases r with
      | nil => rfl
      | cons c r => simpa [inLine] using stop c rfl
  have later {b w r gs} (repeats : Repeats (span1 inLine ++ optional ("\n" ++ notFollowedBy (· == '\n'))).Takes b w r gs) :
      w = [] ∨ w.getLast? = some '\n' ∨ r.head?.all (· == '\n') = true := by
    induction repeats with
    | stop => exact .inl rfl
    | @more b w w' r gs gs' first _ ih =>
        right
        rcases ih with rfl | last | line
        · simpa using each first
        · exact .inl (by rw [List.getLast?_append, last]; rfl)
        · exact .inr line
  obtain ⟨w₁, w₂, _, _, rfl, -, first, others⟩ := takes
  rcases later others with rfl | last | line
  · simpa using each first
  · exact .inl (by rw [List.getLast?_append, last]; rfl)
  · exact .inr line

theorem paragraph_carries (fits : A.Fits) {I : Session → Prop} (accepts : A.Accepts t) :
    Ensures I (paragraph.apply t) A.Accepts := by
  refine Rule.apply_carries fits.follows (.of_passes rfl) (fun b old rest m s same takes line reads => ?_) accepts
  obtain ⟨_, lines, _, _, rfl, groups, ⟨lead, _, _, _, rfl, rfl, hlead, rfl, rfl⟩, _, hlines, rfl⟩ := takes
  rw [List.append_nil] at reads
  have ends := paragraphLines_ends hlines
  obtain rfl := Takes.groups_eq_nil (p := paragraphLines) rfl hlines
  obtain rfl := hlead.groups_eq_nil rfl
  obtain ⟨calm, inner⟩ : A.Calm s ∧ A.Reads A.home (lines ++ rest) := by
    rw [List.append_assoc] at reads
    rcases hlead with ⟨rfl, start, -⟩ | ⟨_, newlines, _, _, rfl, -, first, others⟩
    · obtain rfl : s = A.home := line (by cases b <;> [rfl; cases start])
      exact ⟨fits.calm, reads⟩
    · obtain ⟨rfl, -⟩ := takes_literal.1 first
      obtain ⟨full, areEnds, -⟩ := takes_span1.1 others
      obtain ⟨v, rfl⟩ : ∃ v, newlines = v ++ ['\n'] :=
        ⟨newlines.dropLast, by rw [← beq_iff_eq.1 (areEnds _ (List.getLast_mem full)), List.dropLast_append_getLast full]⟩
      exact ⟨reads.calm (by simpa using fits.ended.enters), Reader.Reads.behind (t := '\n' :: v) (by simpa using reads) fits.ended.returns⟩
  obtain ⟨q, read, later⟩ := Reader.reads_append.1 inner
  obtain ⟨end_, later⟩ : A.Calm q ∧ A.Reads A.home rest := by
    rcases ends with last | line
    · obtain rfl : q = A.home := by
        refine Reader.run_returns (fun c hc => ?_) (by rintro rfl; cases last) read
        rw [last] at hc
        obtain rfl : '\n' = c := Option.some.inj hc
        exact fits.ended.returns
      exact ⟨fits.calm, later⟩
    · exact fits.line_end later line
  have first : m.group 1 = lines := Match.group_eq groups
  have carries := Carries.wrap fits (lead ++ [] ++ lines) (u := "\n\n<p>") (w := "</p>\n\n") (by decide) (by decide) calm read
    end_ later
  refine .pure ?_
  simpa only [paragraph, Rule.ofRewrite, first, List.append_assoc] using carries

end Block

/-! ## Runs of lines -/

namespace LineRun

open Block

variable {run : LineRun} {t : Text}

/-- The beginning of a line of the run leads back to the start. -/
def StartReturns (A : Reader σ) (run : LineRun) : Prop :=
  ∀ b w r gs, run.start.Takes b w r gs → ∀ q, A.run A.home w = some q → q = A.home

theorem contents_accepts (fits : A.Fits) (starts : StartReturns A run) (passes : run.start.passes = true)
    (opening : A.run A.home run.lineOpening = some A.home) (closing : run.lineClosing = [] ∨ run.lineClosing ∈ edges)
    (accepts : A.Accepts t) : A.Accepts (run.contents t) := by
  have advances : run.line.Advances := .of_passes (by simp [line, passes])
  refine Rewrite.apply_carries (r := ⟨run.line, fun m => run.lineOpening ++ m.group 1 ++ run.lineClosing⟩) fits.follows advances
    (fun b old rest m s same takes line reads => ?_) accepts
  obtain ⟨_, _, _, _, rfl, groups, ⟨_, contents, _, _, rfl, rfl, ⟨_, start, _, _, rfl, rfl,
    ⟨rfl, before, rfl⟩, hstart⟩, _, ⟨-, -, rfl⟩, rfl⟩, rfl, stop, rfl⟩ := takes
  obtain rfl : s = A.home := line before
  obtain ⟨r, read, later⟩ := Reader.reads_append.1 reads
  simp only [List.nil_append, List.append_nil, Reader.run_append, Option.bind_eq_some_iff] at read
  obtain ⟨p, first, inner⟩ := read
  obtain rfl := starts _ _ _ _ hstart _ first
  obtain ⟨calm, fresh⟩ := fits.line_end later stop
  have group : m.group 1 = contents := Match.group_eq groups
  simp only [group]
  rcases closing with none | listed
  · refine ⟨r, ?_, later, fun last => ?_⟩
    · rw [none, List.append_nil]
      exact (Reader.run_append_of opening).trans inner
    · have whole : A.run A.home (start ++ contents) = some r := by rw [Reader.run_append_of first]; exact inner
      simp only [List.nil_append, List.append_nil] at last
      refine Reader.run_returns (fun c hc => ?_) (fun empty => by simp [empty] at last) whole
      rw [last] at hc
      obtain rfl : '\n' = c := Option.some.inj hc
      exact fits.ended.returns
  · refine ⟨A.home, ?_, fresh, fun _ => rfl⟩
    rw [List.append_assoc]
    exact ((Reader.run_append_of opening).trans (Reader.run_append_of inner)).trans (fits.edge listed calm)

/-- A run stands between the start of a line and its end, or the end of the text. -/
theorem block_reads (fits : A.Fits) {b : Option Char} {s : σ} {old rest : Text} {gs : List (ℕ × Text)}
    (takes : run.block.Takes b old rest gs) (line : b.all (· == '\n') = true → s = A.home) (reads : A.Reads s (old ++ rest)) :
    A.Calm s ∧ A.Accepts old ∧ A.Reads A.home rest := by
  obtain ⟨_, last, _, _, rfl, -, ⟨_, middle, _, _, rfl, -, ⟨lead, start, _, _, rfl, -, hlead, -⟩, -⟩, hlast⟩ := takes
  obtain ⟨calm, fresh⟩ : A.Calm s ∧ A.Reads A.home (lead ++ start ++ middle ++ last ++ rest) := by
    rcases hlead with ⟨rfl, none, -⟩ | newline
    · obtain rfl : s = A.home := line (by cases b <;> [rfl; cases none])
      exact ⟨fits.calm, reads⟩
    · obtain ⟨rfl, -⟩ := takes_literal.1 newline
      exact fits.line_end reads rfl
  rcases hlast with ⟨_, _, _, _, rfl, -, newline, rfl, -⟩ | ⟨rfl, stop, -⟩
  · obtain ⟨rfl, -⟩ := takes_literal.1 newline
    have later : A.Reads A.home rest := Reader.Reads.behind (t := lead ++ start ++ middle) (by simpa using fresh) fits.ended.returns
    obtain ⟨q, read, -⟩ := Reader.reads_append.1 fresh
    obtain rfl : q = A.home := by
      refine Reader.run_returns (fun c hc => ?_) (by simp) read
      obtain rfl : '\n' = c := by simpa using hc
      exact fits.ended.returns
    exact ⟨calm, ⟨_, read, fits.calm⟩, later⟩
  · obtain rfl := List.isEmpty_iff.1 stop
    rw [List.append_nil] at fresh
    exact ⟨calm, fresh, Reader.reads_nil.2 fits.calm⟩

variable {gaps : List Text} {free : Text → Prop}

/-- A run whose contents stay in the text. -/
theorem rule_carries (fits : A.Fits) {I : Session → Prop} (starts : StartReturns A run) (passes : run.start.passes = true)
    (kept : run.trims = false) (stays : run.finish = none) (opening : A.run A.home run.lineOpening = some A.home)
    (closing : run.lineClosing = [] ∨ run.lineClosing ∈ edges)
    (whole : "\n\n" ++ run.opening ∈ edges ∧ run.closing ++ "\n\n" ∈ edges) (accepts : A.Accepts t) :
    Ensures I (run.rule.apply t) A.Accepts := by
  refine Rule.apply_carries fits.follows (block_advances passes) (fun b old rest m s same takes line reads => ?_) accepts
  obtain ⟨calm, inner, later⟩ := block_reads fits takes line reads
  obtain ⟨q, read, ended⟩ := contents_accepts fits starts passes opening closing inner
  have replaced : run.rule.replace m = Pure.pure ("\n\n" ++ run.opening ++ run.contents old ++ (run.closing ++ "\n\n")) := by
    simp [rule, render, kept, stays, same]
  rw [replaced]
  exact .pure (.wrap fits _ whole.1 whole.2 calm read ended later)

theorem accepts_trimmed (fits : A.Fits) (accepts : A.Accepts t) : A.Accepts (trimmed t) := by
  obtain ⟨a, z, split, before, behind⟩ := exists_trimmed t
  exact fits.accepts_inside (split ▸ accepts) before behind

/-- What is left of the lines of code. -/
theorem code_accepts (fits : A.Fits) (accepts : A.Accepts t) : A.Accepts (trimmed (Block.code.contents t)) := by
  have returns {w : Text} (spaces : ∀ c ∈ w, isSpace c = true) : ∀ q, A.run A.home w = some q → q = A.home :=
    fun q read => Option.some.inj (read.symm.trans (fits.spaces_home spaces))
  have starts : StartReturns A Block.code := by
    rintro b w r gs (four | tab)
    · obtain ⟨rfl, -⟩ := takes_literal.1 four
      exact returns (by decide)
    · obtain ⟨rfl, -⟩ := takes_literal.1 tab
      exact returns (by decide)
  exact accepts_trimmed fits (contents_accepts fits starts rfl rfl (.inl rfl) accepts)

theorem code_carries (fits : A.Fits) (custody : A.Custody free) (accepts : A.Accepts t) :
    Ensures (Session.Keeps free gaps) (Block.code.rule.apply t) A.Accepts := by
  refine Rule.apply_carries fits.follows (block_advances rfl) (fun b old rest m s same takes line reads => ?_) accepts
  obtain ⟨calm, inner, later⟩ := block_reads fits takes line reads
  rw [code_replace, same]
  exact (fits.protect (custody.of_accepts _ (code_accepts fits inner))).bind fun key read =>
    .pure (.wrap fits _ (by decide) (by decide) calm read fits.calm later)

end LineRun

/-! ## All rules of blocks -/

namespace Block

variable {t : Text}

theorem equation_carries (fits : A.Fits) (custody : A.FullCustody free) (accepts : A.Accepts t) :
    Ensures (Session.Keeps free gaps) (equation.apply t) A.Accepts := by
  refine Rule.apply_carries fits.follows (.of_passes rfl) (fun b old rest m s same takes line reads => ?_) accepts
  obtain ⟨_, _, _, _, rfl, groups, ⟨_, trailing, _, _, rfl, rfl, ⟨_, content, _, _, rfl, rfl, ⟨_, gaps', _, _, rfl, rfl,
    ⟨_, colon, _, _, rfl, rfl, ⟨_, plural, _, _, rfl, rfl, ⟨_, math, _, _, rfl, rfl, ⟨_, before, _, _, rfl, rfl, ⟨rfl, start, rfl⟩,
    hbefore⟩, hmath⟩, hplural⟩, hcolon⟩, hgaps⟩, _, hcontent, rfl⟩, htrailing⟩, rfl, stop, rfl⟩ := takes
  obtain ⟨-, -, rfl⟩ := hbefore
  obtain ⟨rfl, rfl⟩ := takes_literal.1 hmath
  obtain rfl := hplural.groups_eq_nil rfl
  obtain ⟨rfl, rfl⟩ := takes_literal.1 hcolon
  obtain ⟨areGaps, rfl⟩ := hgaps
  obtain ⟨-, -, rfl⟩ := takes_few1.1 hcontent
  obtain ⟨areTrailing, -, rfl⟩ := htrailing
  obtain rfl : s = A.home := line start
  have gap {v : Text} (h : ∀ c ∈ v, Pattern.isGap c = true) : ∀ c ∈ v, isSpace c = true := fun c hc => isSpace_of_isGap (h c hc)
  have behind : A.Reads A.home (gaps' ++ content ++ trailing ++ rest) :=
    Reader.Reads.behind (t := before ++ "math" ++ plural) (by simpa using reads) (fits.signs ':' (by decide)).returns
  simp only [List.append_assoc] at behind
  obtain ⟨_, front, behind⟩ := Reader.reads_append.1 behind
  obtain rfl := Option.some.inj ((fits.spaces_home (gap areGaps)).symm.trans front)
  obtain ⟨q, read, behind⟩ := Reader.reads_append.1 behind
  have ended : A.Calm q := fits.calm_before behind (fun c hc => (fits.spaces c (gap areTrailing c hc)).2) stop
  obtain ⟨_, -, later⟩ := Reader.reads_append.1 reads
  have first : m.group 1 = content := Match.group_eq groups
  have replaced : equation.replace m = do
      return "\n\n<div class=\"maths\">" ++ (← Rendering.protect (Maths.toHtml content)) ++ "</div>\n\n" := by
    simp only [equation, first]
  rw [replaced]
  exact (fits.protect (custody.maths _ ⟨q, read, ended⟩)).bind fun key inner =>
    .pure (.wrap fits _ (by decide) (by decide) fits.calm inner fits.calm (fits.line_end later stop).2)

/-- The rules of blocks carry a text that the reader takes to one that it takes. -/
theorem rules_carry (fits : A.Fits) (custody : A.FullCustody free) : ∀ r ∈ rules ++ paragraphRules, ∀ t, A.Accepts t →
    Ensures (Session.Keeps free gaps) (r.apply t) A.Accepts := by
  have quoted : LineRun.StartReturns A quotation := by
    rintro b w r gs ⟨_, w, _, _, rfl, -, first, areGaps, -⟩ q read
    obtain ⟨rfl, -⟩ := takes_literal.1 first
    rw [Reader.run_append, Option.bind_eq_some_iff] at read
    obtain ⟨p, bracket, later⟩ := read
    obtain rfl := Reader.run_returns (A := A) (by simpa using fits.closing) (by simp) bracket
    exact Option.some.inj (later.symm.trans (fits.spaces_home fun c hc => isSpace_of_isGap (areGaps c hc)))
  have listed {p : Pattern} (plain : p.admits '<' = false) {b w r gs} (takes : (p ++ span1 Pattern.isGap).Takes b w r gs) :
      ∀ q, A.run A.home w = some q → q = A.home := by
    obtain ⟨v, w, _, _, rfl, -, before, hgap⟩ := takes
    obtain ⟨full, areGaps, -⟩ := takes_span1.1 hgap
    have unbracketed : '<' ∉ v := fun mem => by simp [before.admits mem] at plain
    exact fun q => fits.spaces_behind unbracketed ⟨full, fun c hc => isSpace_of_isGap (areGaps c hc)⟩
  simp only [rules, paragraphRules, List.forall_mem_append, List.forall_mem_cons]
  refine ⟨⟨fun t => underlined_carries fits (by decide) (by decide), fun t => underlined_carries fits (by decide) (by decide),
    fun t => heading_carries fits, fun t => LineRun.rule_carries fits quoted rfl rfl rfl rfl (.inl rfl) (by decide),
    fun t => LineRun.code_carries fits custody.toCustody, fun t => ruler_carries fits,
    fun t => LineRun.rule_carries fits (fun _ _ _ _ => listed (by decide)) rfl rfl rfl fits.item (.inr (by decide)) (by decide),
    fun t => LineRun.rule_carries fits (fun _ _ _ _ => listed (by decide)) rfl rfl rfl fits.item (.inr (by decide)) (by decide),
    fun t => equation_carries fits custody, by simp⟩,
    fun t => paragraph_carries fits, fun t => emptyLines_carries fits, by simp⟩

end Block

end LessonText

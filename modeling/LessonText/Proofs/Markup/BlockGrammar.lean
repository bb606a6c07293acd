import LessonText.Proofs.Markup.BlockSteps

/-! # Documents of blocks are rendered block by block

Once every block has been rendered the page has tags, plain text and keys, in which later rules find nothing but
line ends. These are dropped when the page is compared with the grammar.
-/

namespace LessonText

open Draft Pattern Unicode

namespace Span

/-- Behind a bracket an address on the web begins with its scheme. -/
theorem autoLink_misses_of {b : Option Char} {t : Text} (none : ¬ "http" <+: t) : autoLink.pattern.Misses b ('<' :: t) := by
  rintro w r gs split ⟨_, closing, _, _, rfl, -, ⟨_, address, _, _, rfl, -, hopening, _, ⟨_, rest, _, _, rfl, -, ⟨_, _, _, _, rfl,
    -, ⟨_, secure, _, _, rfl, -, http, -⟩, -⟩, -⟩, -⟩, -⟩
  obtain ⟨rfl, -⟩ := takes_literal.1 http
  rcases (openBracket_takes hopening).1 with rfl | rfl
  · cases split
  · exact none ⟨_, by simpa using (List.cons.inj split).2.symm⟩

end Span

namespace Block

variable {b : Option Char} {chunks : List Chunk} {d : Draft} {k : Nat} {t : Text}

/-! ## Line ends between rendered blocks -/

theorem startsLine_solid {c : Char} (h : startsLine c = true) : isSpace c = false := by
  rcases Bool.or_eq_true_iff.1 h with letter | bracket
  · have solid := of_isAlpha (p := fun c => !isSpace c) (by decide) letter
    simpa using solid
  · rw [beq_iff_eq.1 bracket]
    rfl

theorem not_newline_of_solid {c : Char} (solid : isSpace c = false) : (c == '\n') = false := by
  rw [beq_eq_false_iff_ne]
  rintro rfl
  cases solid

/-- What a rule makes of line ends in front of a block: so many as there were, or enough. At the end of the text it may
    be any number. -/
def LevelsEnds (r : Rule) (gap : Nat) : Prop :=
  ∀ b k t, (∀ c ∈ t.head?, startsLine c = true) →
    r.Makes b (lineEnds k) t [] fun d => ∃ n, d = chars (lineEnds n) ∧ (t ≠ [] → n = k ∨ gap ≤ n)

/-- A rule that begins with what begins no line of a page changes nothing but line ends. -/
theorem treats_of_leads {r : Rule} {f : Char → Bool} {gap : Nat} (leads : r.pattern.Leads f)
    (apart : ∀ c, startsLine c = true → f c = false) (few : gap ≤ 2) (levels : LevelsEnds r gap) :
    r.Treats 2 2 gap Rendered Rendered := by
  intro c d b k m t rendered before behind
  have enough : t ≠ [] → 2 ≤ m := fun full => (behind.resolve_left full).1
  refine ⟨0, m, (Nat.zero_add m).symm, enough, ?_⟩
  have full : text d ++ (lineEnds m ++ t) ≠ [] := by simp [rendered.led.ne_nil]
  have first : ∀ c ∈ (text d ++ (lineEnds m ++ t)).head?, startsLine c = true := by
    intro c hc
    rw [List.head?_append_of_ne_nil _ rendered.led.ne_nil] at hc
    have first := rendered.led.first
    rwa [Option.mem_def.1 hc] at first
  have block : r.Makes ((lineEnds k).getLast?.or b) (text d) (lineEnds m ++ t) (wards d) (· = d) :=
    .of_passes (leads.passes_led rendered.led apart) rfl
  have all := (levels b k _ first).append block
  rw [List.nil_append] at all
  rw [show lineEnds 0 = [] from rfl, List.append_nil]
  refine all.mono ?_
  rintro _ ⟨_, e, rfl, ⟨n, rfl, between⟩, rfl⟩
  refine ⟨n, e, 0, by simp [lineEnds, chars], between full, fun full => ?_, rendered⟩
  have := enough full
  omega

theorem turns_of_leads {r : Rule} {f : Char → Bool} {gap : Nat} (advances : r.pattern.Advances) (leads : r.pattern.Leads f)
    (apart : ∀ c, startsLine c = true → f c = false) (few : gap ≤ 2) (levels : LevelsEnds r gap)
    (h : Apart 2 Rendered chunks d) : Turns (r.apply (text d)) (wards d) (Apart gap Rendered chunks) := by
  refine h.turns advances (treats_of_leads leads apart few levels) ⟨Nat.le_refl _, few⟩ (fun _ _ h => h.led.ne_nil)
    fun b k => (levels b k [] nofun).mono ?_
  rintro _ ⟨n, rfl, -⟩
  exact ⟨n, rfl⟩

theorem emptyLines_leads : emptyLines.pattern.Leads (· == '\n') := by
  rintro b _ r _ ⟨_, w, _, _, rfl, -, newline, more⟩
  obtain ⟨rfl, -⟩ := takes_literal.1 newline
  obtain ⟨full, same, -⟩ := takes_span1.1 more
  obtain ⟨c, v, rfl⟩ := List.exists_cons_of_ne_nil full
  exact ⟨c, v, same c List.mem_cons_self, .inr rfl⟩

theorem emptyLines_levels : LevelsEnds emptyLines 2 := by
  intro b k t first
  have stops : ∀ c ∈ t.head?, (c == '\n') = false := fun c hc => not_newline_of_solid (startsLine_solid (first c hc))
  rcases k with - | - | k
  · exact (Rule.Makes.stays .nil).mono fun d same => ⟨0, same, fun _ => .inl rfl⟩
  · refine (Rule.Makes.stays (.cons ?_ .nil)).mono fun d same => ⟨1, same, fun _ => .inl rfl⟩
    rintro w r gs split ⟨_, _, _, _, rfl, -, newline, more⟩
    obtain ⟨rfl, -⟩ := takes_literal.1 newline
    obtain ⟨full, same, -⟩ := takes_span1.1 more
    obtain ⟨c, w, rfl⟩ := List.exists_cons_of_ne_nil full
    rw [show t = c :: (w ++ r) from (List.cons.inj split).2] at stops
    exact Bool.false_ne_true ((stops c rfl).symm.trans (same c List.mem_cons_self))
  · have reads : emptyLines.pattern.Reads b ("\n" ++ lineEnds (k + 1)) t _ :=
      (Reads.literal "\n").append (.span1 (by simp [lineEnds]) (fun c hc => beq_iff_eq.2 (eq_newline hc)) stops)
    exact (Rule.Makes.becomes (u := lineEnds 2) (by simp) reads rfl).mono fun d same => ⟨2, same, fun _ => .inr (Nat.le_refl 2)⟩

theorem blankLines_leads : Markup.blankLines.pattern.Leads isSpace := by
  intro b w r gs takes
  obtain ⟨start, full, spaces, -⟩ := Markup.blankLines_takes takes
  obtain ⟨c, v, rfl⟩ := List.exists_cons_of_ne_nil full
  exact ⟨c, v, spaces c List.mem_cons_self, .inl ⟨start, rfl⟩⟩

/-- One line end before a block is not taken. -/
theorem blankLines_stays {c : Char} (solid : isSpace c = false) :
    (Rule.ofRewrite Markup.blankLines).Makes b "\n" (c :: t) [] (· = chars "\n") := by
  refine .stays (.cons (fun w r gs split takes => ?_) .nil)
  obtain ⟨-, full, spaces, stop⟩ := Markup.blankLines_takes takes
  rcases w with - | ⟨d, - | ⟨e, w⟩⟩
  · exact full rfl
  · obtain ⟨-, rfl⟩ := List.cons.inj split
    obtain rfl : c = '\n' := beq_iff_eq.1 stop
    cases solid
  · obtain ⟨-, behind⟩ := List.cons.inj split
    obtain ⟨rfl, -⟩ := List.cons.inj behind
    rw [spaces c (by simp)] at solid
    cases solid

/-- At the start of a line all line ends go but for one before a block. -/
theorem blankLines_line (start : b.all (· == '\n') = true) (first : ∀ c ∈ t.head?, startsLine c = true) :
    (Rule.ofRewrite Markup.blankLines).Makes b (lineEnds (k + 1)) t [] fun d => ∃ n, d = chars (lineEnds n) ∧ (t ≠ [] → 1 ≤ n) := by
  have spaces {k : Nat} : ∀ c ∈ lineEnds k, isSpace c = true := fun c hc => by rw [eq_newline hc]; rfl
  have newline {b : Option Char} {r : Text} : (one isSpace).Reads b ['\n'] r [] := .one rfl
  cases t with
  | nil =>
      have reads : (lineStart ++ (one isSpace ++ (run true isSpace ++ lineEnd))).Reads b
          ([] ++ (['\n'] ++ (lineEnds k ++ []))) [] _ :=
        (Reads.place start).append (newline.append ((Reads.most spaces (by simp)).append (.place rfl)))
      have gone : (Rule.ofRewrite Markup.blankLines).Makes b ([] ++ (['\n'] ++ (lineEnds k ++ []))) [] [] (· = chars []) :=
        .becomes (by simp) reads rfl
      rw [List.append_nil] at gone
      exact gone.mono fun d same => ⟨0, same, fun full => absurd rfl full⟩
  | cons c u =>
      have solid := startsLine_solid (first c rfl)
      rcases k with - | k
      · exact (blankLines_stays solid).mono fun d same => ⟨1, same, fun _ => Nat.le_refl 1⟩
      have stuck (x y : Text) (split : ("\n" : Text) = x ++ y) (full : x ≠ []) {b : Option Char} : lineEnd.Fails b (y ++ c :: u) := by
        obtain ⟨d, x, rfl⟩ := List.exists_cons_of_ne_nil full
        obtain ⟨-, nothing⟩ := List.cons.inj split
        obtain ⟨-, rfl⟩ := List.append_eq_nil_iff.1 nothing.symm
        exact lineEnd_fails (by rintro rfl; cases solid)
      have reads : (lineStart ++ (one isSpace ++ (run true isSpace ++ lineEnd))).Reads b
          ([] ++ (['\n'] ++ lineEnds k)) ("\n" ++ c :: u) _ :=
        (Reads.place start).append (newline.append
          (.most_append spaces (by simp; rfl) (by rintro _ ⟨⟩; exact solid) (fun x y split full => stuck x y split full) (.place rfl)))
      have gone : (Rule.ofRewrite Markup.blankLines).Makes b (lineEnds (k + 1)) ("\n" ++ c :: u) [] (· = chars []) :=
        .becomes (by simp [lineEnds]) reads rfl
      rw [lineEnds_add (k + 1) 1]
      refine (gone.append (blankLines_stays solid)).mono ?_
      rintro _ ⟨_, _, rfl, rfl, rfl⟩
      exact ⟨1, rfl, fun _ => Nat.le_refl 1⟩

theorem blankLines_levels : LevelsEnds (.ofRewrite Markup.blankLines) 1 := by
  intro b k t first
  rcases k with - | k
  · exact (Rule.Makes.stays .nil).mono fun d same => ⟨0, same, fun _ => .inl rfl⟩
  by_cases start : b.all (· == '\n') = true
  · refine (blankLines_line start first).mono ?_
    rintro d ⟨n, same, more⟩
    exact ⟨n, same, fun full => .inr (more full)⟩
  -- Behind the end of a line no line end goes.
  have stays {r : Text} : (Rule.ofRewrite Markup.blankLines).Makes b "\n" r [] (· = chars "\n") :=
    .stays (.cons (fun w r gs _ takes => start (Markup.blankLines_takes takes).1) .nil)
  rcases k with - | k
  · exact stays.mono fun d same => ⟨1, same, fun _ => .inl rfl⟩
  have all := stays.append (blankLines_line (k := k) (b := some '\n') rfl first)
  refine all.mono ?_
  rintro _ ⟨_, _, rfl, rfl, n, rfl, more⟩
  exact ⟨n + 1, rfl, fun full => .inr (by omega)⟩

/-! ## Rules of spans on a page -/

/-- The characters with which a rule of spans may begin, none of which is on a page but the bracket. -/
def spanSigns : Text := "!&<[\x60*_\x7b"

theorem other_of_spanSign {c : Char} (h : c ∈ spanSigns) : isPageChar c = false ∧ Warden.isKeyChar c = false ∧
    c ∉ '>' :: '/' :: 'p' :: tagNames.flatten := by
  have all : ∀ c ∈ spanSigns, isPageChar c = false ∧ Warden.isKeyChar c = false ∧
      c ∉ '>' :: '/' :: 'p' :: tagNames.flatten := by
    decide
  exact all c h

/-- A pattern that begins with such a sign passes over a page if it matches at no bracket. -/
theorem Page.passes_of_brackets {p : Pattern} (advances : p.Advances) (signs : ∀ c, p.mayBegin c = true → c ∈ spanSigns)
    (opening : ∀ name ∈ tagNames, ∀ b t, p.Misses b ('<' :: (name ++ '>' :: t)))
    (closing : ∀ b t, p.Misses b ('<' :: '/' :: t))
    (paragraph : ∀ c, c.isAlpha = true → ∀ b t, p.Misses b ('<' :: 'p' :: '>' :: c :: t)) (page : Page d) :
    ∀ b t, p.Passes b (text d) t := by
  have other {c : Char} (h : c ∉ spanSigns) : p.mayBegin c = false := by
    rw [← Bool.not_eq_true]
    exact fun begins => h (signs c begins)
  have behind {x : Text} (known : x ⊆ '>' :: '/' :: 'p' :: tagNames.flatten) {b : Option Char} {t : Text} : p.Passes b x t :=
    .of_begin advances fun c hc => other fun sign => (other_of_spanSign sign).2.2 (known hc)
  have name_known {name : Text} (listed : name ∈ ("p" : Text) :: tagNames) : name ⊆ '>' :: '/' :: 'p' :: tagNames.flatten := by
    intro c hc
    rcases List.mem_cons.1 listed with rfl | listed
    · simp at hc
      simp [hc]
    · simp only [List.mem_cons]
      exact .inr (.inr (.inr (List.mem_flatten.2 ⟨name, listed, hc⟩)))
  refine page.passes advances (fun c plain => other fun sign => ?_) (fun c key => other fun sign => ?_)
    (fun name listed b t => ?_) (fun name listed b t => ?_) fun c letter b t => ?_
  · rw [(other_of_spanSign sign).1] at plain
    cases plain
  · rw [(other_of_spanSign sign).2.1] at key
    cases key
  · refine .cons ?_ (behind (List.append_subset.2 ⟨name_known (List.mem_cons_of_mem _ listed), by simp⟩))
    simpa using opening name listed b t
  · rw [show "</" ++ name ++ ">" = '<' :: '/' :: (name ++ ">") from rfl]
    refine .cons (closing b _) (behind (List.cons_subset.2 ⟨by simp, List.append_subset.2 ⟨name_known listed, by simp⟩⟩))
  · rw [show ("<p>" : Text) = '<' :: ['p', '>'] from rfl]
    exact .cons (paragraph c letter b t) (behind (by simp))

/-- A bracket before a name that begins no address on the web and is not the mailbox of a mail address. -/
theorem kind_misses (kind : Span.Kind) (name : Text) {c : Char} (inside : ∀ e ∈ name, Span.isMailboxChar e = true)
    (stops : Span.isMailboxChar c = false) (other : c ≠ '@') (none : ¬ "http" <+: name ++ c :: t) :
    kind.rule.pattern.Misses b ('<' :: (name ++ c :: t)) := by
  cases kind with
  | web => exact Span.autoLink_misses_of none
  | mail => exact Span.mailLink_misses name inside stops other
  | image | link | code => exact Span.Kind.misses_of_starts (by decide)
  | emphasis sign _ _ => exact Span.Kind.misses_of_starts (by cases sign <;> simp [Span.Kind.starts, Span.Sign.char])

theorem spanRules_pass {r : Rule} (known : r ∈ Span.rules) (page : Page d) : ∀ b t, r.pattern.Passes b (text d) t := by
  have begins : ∀ c, r.pattern.mayBegin c = true → c ∈ spanSigns := fun _ => Span.mem_leadSigns known
  rw [Span.Kind.rules_eq] at known
  rcases List.mem_cons.1 known with rfl | listed
  · have advances : Span.equation.pattern.Advances := .of_passes rfl
    have bracket {b : Option Char} {t : Text} : Span.equation.pattern.Misses b ('<' :: t) := .of_begin advances rfl
    exact page.passes_of_brackets advances begins (fun _ _ _ _ => bracket) (fun _ _ => bracket) fun _ _ _ _ => bracket
  · obtain ⟨kind, -, rfl⟩ := List.mem_map.1 listed
    have names : ∀ name ∈ tagNames, name.all Span.isMailboxChar = true ∧
        2 ≤ name.length ∧ name.take 2 ≠ "ht" := by decide
    refine page.passes_of_brackets kind.advances begins (fun name listed b t => ?_) (fun b t => ?_) fun c _ b t => ?_
    · obtain ⟨mailbox, long, other⟩ := names name listed
      refine kind_misses kind name (List.all_eq_true.1 mailbox) rfl (by decide) ?_
      rintro ⟨v, split⟩
      have same := congrArg (List.take 2) split
      rw [List.take_append_of_le_length long] at same
      exact other same.symm
    · exact kind_misses kind [] (by simp) rfl (by decide) (by simp)
    · exact kind_misses kind "p" (by decide) rfl (by decide) (by simp)

/-! ## The first passes -/

theorem PlainLine.unsigned (line : PlainLine) {e : Char} (sign : e ∈ Span.firstSigns) : e ∉ line.text := by
  have none : ∀ e ∈ Span.firstSigns, Span.isPlain e = false := by decide
  obtain ⟨-, -, -, -, plain⟩ := isPlainLine_cons line.plain
  exact not_mem_of_all (List.all_eq_true.1 plain) (none e sign)

theorem Row.unsigned {kind : Listing} (row : Row kind) {e : Char} (sign : e ∈ Span.firstSigns) : e ∉ row.text := by
  have starts : e ∉ row.start := by
    obtain ⟨start, contents, begins, -⟩ := row
    cases kind with
    | quotation | code =>
        obtain rfl : start = _ := begins
        have none : ∀ e ∈ Span.firstSigns, e ∉ ("> " : Text) ∧ e ∉ ("    " : Text) := by decide
        first | exact (none e sign).1 | exact (none e sign).2
    | bullets =>
        have none : ∀ e ∈ Span.firstSigns, ∀ t ∈ (["* ", "+ ", "- "] : List Text), e ∉ t := by decide
        exact none e sign start begins
    | numbered =>
        obtain ⟨digits, -, decimal, rfl⟩ := begins
        have none : ∀ e ∈ Span.firstSigns, e.isDigit = false ∧ e ∉ (". " : Text) := by decide
        intro mem
        rcases List.mem_append.1 mem with mem | mem
        · exact Bool.false_ne_true ((none e sign).1.symm.trans (List.all_eq_true.1 decimal e mem))
        · exact (none e sign).2 mem
  have contents : e ∉ row.contents := by
    by_cases code : kind = .code
    · subst code
      have none : ∀ e ∈ Span.firstSigns, noneOf "\n\r\x00<&\\" e = false := by decide
      obtain ⟨inside, -⟩ := Bool.and_eq_true_iff.1 row.allowed
      intro mem
      exact Bool.false_ne_true ((none e sign).symm.trans (List.all_eq_true.1 inside e mem))
    · exact PlainLine.unsigned ⟨row.contents, row.isPlainLine code⟩ sign
  rw [Row.text, List.mem_append, not_or]
  exact ⟨starts, contents⟩

theorem Chunk.unsigned (c : Chunk) {e : Char} (sign : e ∈ Span.firstSigns) : ∀ l ∈ c.lines, e ∉ l := by
  have none : ∀ e ∈ Span.firstSigns, e ∉ ("# -" : Text) := by decide
  have other := none e sign
  cases c with
  | heading h =>
      refine List.forall_mem_singleton.2 fun mem => ?_
      simp only [Heading.text, List.mem_append] at mem
      have closing : e ∉ h.closed := by
        unfold Heading.closed
        split <;> simp_all
      rcases mem with mem | mem | mem | mem
      · simp_all
      · simp_all
      · exact h.line.unsigned sign mem
      · exact closing mem
  | paragraph lines => exact List.forall_mem_map.2 fun line _ => line.unsigned sign
  | listing kind rows => exact List.forall_mem_map.2 fun row _ => row.unsigned sign
  | ruler => exact List.forall_mem_singleton.2 (by simp_all)

theorem unsigned_written {e : Char} (sign : e ∈ Span.firstSigns) : e ∉ written chunks := by
  have newline : ∀ e ∈ Span.firstSigns, e ≠ '\n' := by decide
  intro mem
  rcases Text.mem_join mem with ends | ⟨_, listed, mem⟩
  · exact newline e sign (by simpa using ends)
  · obtain ⟨c, -, rfl⟩ := List.mem_map.1 listed
    rcases Text.mem_join mem with ends | ⟨l, inside, mem⟩
    · exact newline e sign (by simpa using ends)
    · exact c.unsigned sign l inside mem

/-! ## The rules on a document -/

/-- A document is its blocks as their authors wrote them, two line ends apart. -/
theorem laid_written (full : chunks ≠ []) : Laid 2 (Standing []) chunks (chars (written chunks)) := by
  have standing (c : Chunk) : Standing [] c (chars c.source) := ⟨nofun, fun _ => rfl⟩
  induction chunks with
  | nil => exact absurd rfl full
  | cons c chunks ih =>
      cases chunks with
      | nil =>
          have one : Laid 2 (Standing []) [c] (chars c.source ++ chars (lineEnds 0)) := .last 0 (standing c)
          rwa [show chars (lineEnds 0) = [] from rfl, List.append_nil] at one
      | cons c' chunks =>
          rw [written, List.map_cons, List.map_cons, Text.join_cons_cons, chars_append, chars_append]
          exact .cons (k := 2) (standing c) (Nat.le_refl 2) (ih (List.cons_ne_nil _ _))

theorem written_ne_nil (full : chunks ≠ []) : written chunks ≠ [] := by
  have filled := (laid_written full).text_ne_nil fun _ _ => Standing.text_ne_nil
  rwa [text_chars] at filled

section Rendered

variable {gap : Nat}

/-- Rendered blocks with line ends between them are a page. -/
theorem page_of_apart (h : Apart gap Rendered chunks d) : Page d := by
  have ends {k : Nat} : Page (chars (lineEnds k)) :=
    .of_all (List.all_eq_true.2 fun c hc => by rw [eq_newline hc]; rfl)
  obtain ⟨k, d, rfl, -, laid⟩ := h
  refine ends.append ?_
  induction laid with
  | last k here => exact here.page.append ends
  | cons here _ _ ih => exact here.page.append (ends.append ih)

theorem meaning_of_apart (h : Apart gap Rendered chunks d) : (meaning d).filter (· != '\n') = chunks.flatMap Chunk.html := by
  have ends {k : Nat} : (lineEnds k).filter (· != '\n') = [] := List.filter_eq_nil_iff.2 fun c hc => by simp [eq_newline hc]
  obtain ⟨k, d, rfl, -, laid⟩ := h
  rw [meaning_append, meaning_chars, List.filter_append, ends, List.nil_append]
  induction laid with
  | last k here => simp [here.meaning, ends]
  | cons here _ _ ih => simp [here.meaning, ends, ih]

end Rendered

/-- The passes behind the rules, as rules. -/
def cleanUpRules : List Rule := [Rule.ofRewrite Markup.blankLines, Rule.ofRewrite Markup.emptyElement]

theorem closing_foldlM (extent : Markup.Extent) (full : t ≠ []) : Markup.closing extent [] t =
    (extent.rules ++ cleanUpRules).foldlM (fun t r => r.apply t) t := by
  rw [Markup.closing_eq extent full, List.foldlM_append, ← bind_pure_comp]
  simp only [cleanUpRules, List.foldlM_cons, List.foldlM_nil, Rule.ofRewrite_apply, pure_bind, Markup.cleanUp]

theorem spanRules_eq (page : Page d) : Span.rules.foldlM (fun t r => r.apply t) (text d) = pure (text d) := by
  have advances : ∀ r ∈ Span.rules, r.pattern.passes = true := by
    rw [← List.all_eq_true]
    rfl
  exact Rule.foldlM_pure fun r known => Rule.apply_of_passes (.of_passes (advances r known)) (spanRules_pass known page none [])

theorem emptyElement_passes (page : Page d) : ∀ b t, Markup.emptyElement.pattern.Passes b (text d) t := by
  have misses {b : Option Char} {c : Char} {t : Text} (other : opensBlock c = false) :
      Markup.emptyElement.pattern.Misses b ('<' :: c :: t) := by
    intro w r gs split takes
    obtain ⟨e, name, u, first, opens, -⟩ := Markup.emptyElement_takes takes
    obtain ⟨rfl, -⟩ := List.cons.inj (List.cons.inj (split.trans first)).2
    rw [opens] at other
    cases other
  refine page.passes_of_brackets (.of_passes rfl) (fun c begins => ?_) (fun name listed b t => ?_) (fun b t => misses (by decide))
    fun c letter b t => ?_
  · obtain rfl : c = '<' := by simpa [Markup.emptyElement] using begins
    decide
  · have names : ∀ name ∈ tagNames, name = "pre" ∨ ∃ c rest, name = c :: rest ∧ opensBlock c = false := by
      have all : ∀ name ∈ tagNames, name = "pre" ∨ name ≠ [] ∧ name.head?.all (!opensBlock ·) = true := by decide
      intro name listed
      refine (all name listed).imp_right ?_
      rintro ⟨full, other⟩
      obtain ⟨c, rest, rfl⟩ := List.exists_cons_of_ne_nil full
      exact ⟨c, rest, rfl, by simpa using other⟩
    rcases names name listed with rfl | ⟨c, rest, rfl, other⟩
    · intro w r gs split takes
      obtain ⟨e, name, u, first, -, short, -⟩ := Markup.emptyElement_takes takes
      obtain ⟨rfl, behind⟩ := List.cons.inj (List.cons.inj (split.trans first)).2
      obtain rfl : name = [] := short.resolve_right (by decide)
      exact absurd (List.cons.inj behind).1 (by decide)
    · exact misses other
  · have other := of_isAlpha (p := fun c => !isSpace c && c != '<') (by decide) letter
    obtain ⟨solid, bracket⟩ : isSpace c = false ∧ c ≠ '<' := by simpa using other
    exact Markup.emptyElement_misses solid bracket

theorem closing_turns (full : chunks ≠ []) :
    Turns (Markup.closing .document [] (written chunks)) [] (Apart 1 Rendered chunks) := by
  have apart : Apart 2 (Standing []) chunks (chars (written chunks)) := ⟨0, _, rfl, .inl rfl, laid_written full⟩
  have blocks := rules_turn apart
  rw [text_chars, wards_chars] at blocks
  have paragraphs {d : Draft} (h : Apart 2 (Standing Kind.all) chunks d) :
      Turns (paragraphRules.foldlM (fun t r => r.apply t) (text d)) (wards d) (Apart 2 Rendered chunks) := by
    rw [paragraphRules, List.foldlM_cons]
    refine (h.turns (.of_passes rfl) paragraph_treats (by decide) (fun _ _ => Standing.text_ne_nil)
      fun b k => ends_stay paragraph_passes_ends).andThen fun d h => ?_
    rw [List.foldlM_cons]
    refine (turns_of_leads (.of_passes rfl) emptyLines_leads (fun c first => ?_) (Nat.le_refl 2) emptyLines_levels h).andThen
      fun d h => .pure h
    exact not_newline_of_solid (startsLine_solid first)
  have spans {d : Draft} (h : Apart 2 Rendered chunks d) :
      Turns (Span.rules.foldlM (fun t r => r.apply t) (text d)) (wards d) (Apart 2 Rendered chunks) := by
    rw [spanRules_eq (page_of_apart h)]
    exact .pure h
  have cleaning {d : Draft} (h : Apart 2 Rendered chunks d) :
      Turns (cleanUpRules.foldlM (fun t r => r.apply t) (text d)) (wards d) (Apart 1 Rendered chunks) := by
    rw [cleanUpRules, List.foldlM_cons]
    refine (turns_of_leads (.of_passes rfl) blankLines_leads (fun c first => startsLine_solid first) (by decide)
      blankLines_levels h).andThen fun d h => ?_
    rw [List.foldlM_cons, Rule.apply_of_passes (r := .ofRewrite Markup.emptyElement) (.of_passes rfl)
      (emptyElement_passes (page_of_apart h) none [])]
    exact .pure h
  rw [closing_foldlM .document (written_ne_nil full)]
  exact ((blocks.foldlM_append fun d => paragraphs).foldlM_append fun d => spans).foldlM_append fun d => cleaning

/-- Every document of blocks is rendered block by block, but for line ends. -/
theorem document_written (chunks : List Chunk) :
    (Markup.document (written chunks)).filter (· != '\n') = chunks.flatMap Chunk.html := by
  rcases eq_or_ne chunks [] with rfl | full
  · rfl
  obtain ⟨d, s, closed, held, apart⟩ := closing_turns full [] {} .start
  have unmarked : some '?' ∉ shape d := by
    intro mem
    obtain ⟨token, inside, letter⟩ := List.mem_map.1 mem
    cases token with
    | char c =>
        obtain rfl : c = '?' := Option.some.inj letter
        exact (page_of_apart apart).unmarked.1 inside
    | ward w => cases letter
  have safe : keyHazard.safe [] (shape d) = true := (Bool.and_eq_true_iff.1 (opens_unmarked unmarked)).1
  obtain ⟨s', returned, -⟩ := held.reinstate safe
  have opened : Markup.opening (written chunks) {} = (written chunks, {}) := by
    rw [Span.opening_unsigned fun e => unsigned_written]
    rfl
  rw [Markup.document, Markup.run, Markup.render_eq (written_ne_nil full), Markup.bind_run ((Markup.bind_run opened).trans closed), returned]
  exact meaning_of_apart apart

end Block

end LessonText

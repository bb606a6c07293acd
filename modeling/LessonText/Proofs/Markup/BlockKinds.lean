import LessonText.Proofs.Markup.BlockReadings
import LessonText.Proofs.Markup.Pages

/-! # The rules of blocks, one kind after another

Each rule is for one kind of blocks. It renders every block of its kind, and finds nothing in the lines of a block of
a later kind or in what an earlier rule has made of one.
-/

namespace LessonText.Block

open Draft Pattern Unicode Rule

inductive Kind where
  | heading
  | listing (kind : Listing)
  | ruler
  | paragraph
  deriving DecidableEq

def Chunk.kind : Chunk → Kind
  | heading _ => .heading
  | paragraph _ _ => .paragraph
  | listing kind _ _ => .listing kind
  | ruler => .ruler

namespace Kind

def rule : Kind → Rule
  | heading => Block.heading
  | listing kind => kind.run.rule
  | ruler => Block.ruler
  | paragraph => Block.paragraph

/-- The kinds in the order of their rules, but for paragraphs. -/
def all : List Kind :=
  [heading, listing .quotation, listing .code, ruler, listing .bullets, listing .numbered]

theorem rules_eq : rules = [underlined '=' "h1", underlined '-' "h2"] ++ all.map rule ++ [equation] := rfl

/-- The characters with which a line of a block begins. -/
def starts : Kind → Text
  | heading => "#"
  | listing .quotation => ">"
  | listing .code => " "
  | listing .bullets => "*+-"
  | listing .numbered => "0123456789"
  | ruler => "-"
  | paragraph => charsOf letterRanges

/-- Whether a rule may find something in a line that begins with a character. -/
def finds : Kind → Char → Bool
  | heading => fun c => (group 1 (some1 (· == '#'))).mayBegin c
  | listing kind => fun c => kind.run.start.mayBegin c
  | ruler => fun c => rulerSign.mayBegin c
  | paragraph => fun _ => true

theorem block_leads (kind : Listing) : kind.run.block.Leads fun c => kind.run.start.mayBegin c := by
  have first : ((textStart ||| literal ['\n']) ++ kind.run.start).Leads fun c => kind.run.start.mayBegin c := by
    rintro b _ r _ ⟨a, w, _, gs, rfl, -, before, takes⟩
    have advances : kind.run.start.Advances := .of_passes kind.start_passes
    obtain ⟨c, v, rfl⟩ := List.exists_cons_of_ne_nil (advances _ _ _ _ takes)
    refine ⟨c, v, takes.mayBegin, ?_⟩
    rcases before with ⟨rfl, start, -⟩ | newline
    · refine .inl ⟨?_, rfl⟩
      cases b with
      | none => rfl
      | some c => cases start
    · obtain ⟨rfl, -⟩ := takes_literal.1 newline
      exact .inr rfl
  exact first.append.append

theorem leads {k : Kind} (h : k ≠ paragraph) : k.rule.pattern.Leads k.finds := by
  cases k with
  | heading =>
      have first := Leads.lineStart (p := group 1 (some1 (· == '#'))) (.of_passes rfl)
      exact first.append.append.append.append.append
  | listing kind => exact block_leads kind
  | ruler =>
      have first := Leads.lineStart (p := rulerSign) (.of_passes rfl)
      exact first.append.append.append.append.append
  | paragraph => exact absurd rfl h

end Kind

theorem Heading.single (h : Heading) : '\n' ∉ h.text := by
  rw [h.text_eq, Heading.title]
  simp [h.line.single, h.space_single]

theorem PlainLine.led (line : PlainLine) : Led (Kind.paragraph.starts.contains ·) line.text := by
  obtain ⟨c, rest, split, letter, -⟩ := isPlainLine_cons line.plain
  refine .of_single ?_ line.single
  rw [split]
  exact of_isAlpha (p := (Kind.paragraph.starts.contains ·)) (by decide) letter

theorem Row.led {kind : Listing} (row : Row kind) : Led ((Kind.listing kind).starts.contains ·) row.text := by
  have begins : row.start.head?.any ((Kind.listing kind).starts.contains ·) = true := by
    obtain ⟨start, contents, begins, -⟩ := row
    cases kind with
    | quotation | code =>
        obtain rfl : start = _ := begins
        rfl
    | bullets =>
        have listed : ∀ t ∈ (["* ", "+ ", "- "] : List Text), t.head?.any ((Kind.listing .bullets).starts.contains ·) = true := by
          decide
        exact listed start begins
    | numbered =>
        obtain ⟨digits, full, decimal, rfl⟩ := begins
        obtain ⟨d, digits, rfl⟩ := List.exists_cons_of_ne_nil full
        have listed := of_isAlphanum (p := fun c => !c.isDigit || (Kind.listing .numbered).starts.contains c) (by decide)
          (c := d) (by simp [Char.isAlphanum, (List.all_eq_true.1 decimal d List.mem_cons_self)])
        simpa [List.all_eq_true.1 decimal d List.mem_cons_self] using listed
  refine .of_single ?_ row.single
  rw [Row.text, List.head?_append_of_ne_nil _ row.isStart.ne_nil]
  exact begins

/-- Every line of a block begins with a character of its kind. -/
theorem Chunk.led (c : Chunk) : Led (c.kind.starts.contains ·) c.source := by
  cases c with
  | heading h =>
      obtain ⟨n, level⟩ := Nat.exists_eq_succ_of_ne_zero h.positive
      refine .of_single ?_ h.single
      show h.text.head?.any _ = true
      rw [Heading.text, level]
      rfl
  | paragraph lines full =>
      exact Text.join_led (fun none => full (List.map_eq_nil_iff.1 none)) (List.forall_mem_map.2 fun line _ => line.led)
  | listing kind rows full =>
      exact Text.join_led (fun none => full (List.map_eq_nil_iff.1 none)) (List.forall_mem_map.2 fun row _ => row.led)
  | ruler => exact .of_single rfl (by decide)

/-! ## What the rules make of the blocks of their kind -/

section Treated

variable {b : Option Char} {k m : Nat} {t : Text}

theorem before_start {need : Nat} (before : Before (need + 1) b k) :
    ((lineEnds k).getLast?.or b).all (· == '\n') = true := by
  rcases before with ⟨rfl, rfl⟩ | enough
  · rfl
  · obtain ⟨n, rfl⟩ : ∃ n, k = n + 1 := ⟨k - 1, by omega⟩
    rw [lineEnds, List.replicate_succ', List.getLast?_concat]
    rfl

theorem stops_lineEnds (enough : t ≠ [] → 2 ≤ m) : Stops (lineEnds m ++ t) := by
  cases m with
  | succ m => exact .inr ⟨_, rfl⟩
  | zero =>
      by_cases none : t = []
      · exact .inl none
      · exact absurd (enough none) (by decide)

theorem PlainLine.page (line : PlainLine) : Page (chars line.text) := by
  obtain ⟨-, -, -, -, plain⟩ := isPlainLine_cons line.plain
  refine .of_all (List.all_eq_true.2 fun c hc => ?_)
  rw [isPageChar, List.all_eq_true.1 plain c hc]
  rfl

theorem PlainLine.startsLine (line : PlainLine) : line.text.head?.any startsLine = true := by
  obtain ⟨c, rest, split, letter, -⟩ := isPlainLine_cons line.plain
  rw [split]
  exact Bool.or_eq_true_iff.2 (.inl letter)

namespace Heading

variable (h : Heading)

theorem tag_known : headingTag h.level ∈ tagNames := by
  have levels : ∀ n ≤ 6, n ≠ 0 → headingTag n ∈ tagNames := by decide
  have same : headingTag h.level = headingTag (min h.level 6) := by simp [headingTag]
  rw [same]
  exact levels _ (Nat.min_le_right _ _) (by have := h.positive; omega)

theorem rendered : Rendered (.heading h) (chars (tagged (headingTag h.level) h.line.text)) := by
  have page : Page (chars ('<' :: (headingTag h.level ++ ">") ++ ([] ++ Text.join "\n" [h.line.text]))) := by
    rw [chars_append]
    exact .opening h.tag_known h.line.page
  have html : (Chunk.heading h).html = tagged (headingTag h.level) [h.line.text].flatten := by
    rw [List.flatten_singleton]
    rfl
  have all := Rendered.of_lines (z := []) (List.mem_cons_of_mem _ h.tag_known) (List.cons_ne_nil h.line.text [])
    (by simpa using ⟨h.line.startsLine, h.line.single⟩) (.inl rfl) (.inl rfl) page html
  rwa [List.nil_append, List.append_nil] at all

theorem trim_title : h.title.trim = h.line.text := by
  have spaces : ∀ c ∈ h.space, isSpace c = true := by
    unfold space
    split <;> decide
  have solid : h.line.text.getLast?.any notSpace = true := by
    obtain ⟨t, e, split⟩ := (List.eq_nil_or_concat' h.line.text).resolve_left (by
      obtain ⟨c, rest, split, -⟩ := isPlainLine_cons h.line.plain
      simp [split])
    have last := h.line.last
    rw [split, List.getLast?_concat] at last ⊢
    exact of_isAlphanum (p := notSpace) (by decide) last
  obtain ⟨c, rest, split, letter, -⟩ := isPlainLine_cons h.line.plain
  have first : notSpace c = true := of_isAlpha (p := notSpace) (by decide) letter
  have start : h.title.trimStart = h.title := by
    rw [Text.trimStart, title, split, List.cons_append, List.dropWhile_cons_of_neg (by simpa [notSpace] using first)]
  rw [Text.trim, start, title, Text.trimEnd_append solid spaces]

/-- A heading is rendered, with more line ends around it. -/
theorem treated (before : Before 1 b k) (enough : t ≠ [] → 2 ≤ m) :
    Block.heading.Treated 1 2 Rendered (.heading h) (chars h.text) b k m t := by
  have leading : Block.heading.pattern.Passes b (lineEnds k) (h.text ++ (lineEnds m ++ t)) := by
    refine .of_begin (.of_passes rfl) fun c hc => ?_
    rw [eq_newline hc]
    rfl
  have found := h.reads (before_start before) (stops_lineEnds enough)
  have replaced : Block.heading.replace ⟨h.text, [(2, h.title), (1, List.replicate h.level '#')]⟩ =
      pure (lineEnds 2 ++ (tagged (headingTag h.level) h.line.text ++ lineEnds 1)) := by
    show pure ("\n\n<" ++ headingTag (List.replicate h.level '#').length ++ ">" ++ h.title.trim ++ "</" ++
      headingTag (List.replicate h.level '#').length ++ ">\n") = _
    rw [List.length_replicate, h.trim_title]
    simp [tagged, lineEnds, List.replicate]
  have filled : h.text ≠ [] := by simp [Heading.text]
  have all := (Makes.stays leading).append (.becomes filled found replaced)
  refine ⟨0, m, (Nat.zero_add m).symm, fun full => ?_, ?_⟩
  · have := enough full
    omega
  · rw [text_chars, wards_chars, show lineEnds 0 = [] from rfl, List.append_nil]
    refine all.mono ?_
    rintro _ ⟨_, _, rfl, rfl, rfl⟩
    refine ⟨k + 2, _, 1, ?_, .inr (by omega), fun full => ?_, h.rendered⟩
    · simp [lineEnds_add, chars_append]
    · have := enough full
      omega

end Heading

theorem ruler_rendered : Rendered .ruler (chars "<hr>") where
  page := by
    have listed : ("hr" : Text) ∈ tagNames := by decide
    exact .opening listed .nil
  led := .of_single rfl (by decide)
  begins := ⟨"hr", [], by decide, by decide, rfl⟩
  line := .inl (wards_chars _)
  meaning := rfl

/-- A line across the page is rendered; of the line ends behind it one stays if there is more. -/
theorem ruler_treated (before : Before 1 b k) (next : t = [] ∨ 2 ≤ m ∧ ∃ c u, t = c :: u ∧ isSpace c = false) :
    Block.ruler.Treated 1 2 Rendered .ruler (chars "---") b k m t := by
  have leading {u : Text} : Block.ruler.pattern.Passes b (lineEnds k) u := by
    refine .of_begin (.of_passes rfl) fun c hc => ?_
    rw [eq_newline hc]
    rfl
  obtain ⟨i, j, rfl, behind, enough⟩ : ∃ i j, m = i + j ∧
      (lineEnds j ++ t = [] ∨ ∃ c u, lineEnds j ++ t = '\n' :: c :: u ∧ isSpace c = false) ∧ (t ≠ [] → 1 ≤ j) := by
    rcases next with rfl | ⟨more, c, u, rfl, solid⟩
    · exact ⟨m, 0, rfl, .inl rfl, absurd rfl⟩
    · exact ⟨m - 1, 1, by omega, .inr ⟨c, u, rfl, solid⟩, fun _ => Nat.le_refl 1⟩
  have replaced : Block.ruler.replace ⟨"---" ++ lineEnds i, []⟩ = pure (lineEnds 2 ++ ("<hr>" ++ lineEnds 2)) := rfl
  have filled : ("---" : Text) ++ lineEnds i ≠ [] := by simp
  have all := (Makes.stays leading).append (.becomes filled (ruler_reads (before_start before) behind) replaced)
  refine ⟨i, j, rfl, enough, ?_⟩
  rw [text_chars, wards_chars]
  refine all.mono ?_
  rintro _ ⟨_, _, rfl, rfl, rfl⟩
  refine ⟨k + 2, _, 2, ?_, .inr (by omega), fun _ => by omega, ruler_rendered⟩
  simp only [lineEnds_add, chars_append, List.append_assoc]

/-! ### Listings -/

section Listing

variable {kind : Listing} {rows : List (Row kind)} {a z : Text}

/-- The name of the tag around a listing. -/
def Listing.tag : Listing → Text
  | quotation => "blockquote"
  | code => "pre"
  | bullets => "ul"
  | numbered => "ol"

theorem Row.isPlainLine (row : Row kind) (plain : kind ≠ .code) : isPlainLine row.contents = true := by
  obtain ⟨start, contents, begins, allowed⟩ := row
  cases kind with
  | code => exact absurd rfl plain
  | quotation | bullets | numbered => exact allowed

/-- A line of a listing on a page. -/
theorem Row.wrapped_page (row : Row kind) (plain : kind ≠ .code) : Page (chars (kind.wrapped row.contents)) ∧
    (kind.wrapped row.contents).head?.any startsLine = true ∧ '\n' ∉ kind.wrapped row.contents := by
  let line : PlainLine := ⟨row.contents, row.isPlainLine plain⟩
  have item : Page (chars ("<li>" ++ row.contents ++ "</li>")) ∧
      ("<li>" ++ row.contents ++ "</li>" : Text).head?.any startsLine = true ∧ '\n' ∉ "<li>" ++ row.contents ++ "</li>" := by
    have listed : ("li" : Text) ∈ tagNames := by decide
    refine ⟨?_, rfl, by simp [row.contents_single]⟩
    have ended := Page.closing (List.mem_cons_of_mem _ listed) .nil
    rw [List.append_nil] at ended
    rw [chars_append, chars_append, List.append_assoc]
    exact .opening listed (line.page.append ended)
  cases kind with
  | code => exact absurd rfl plain
  | quotation =>
      have same : Listing.quotation.wrapped row.contents = row.contents := List.append_nil _
      rw [same]
      exact ⟨line.page, line.startsLine, line.single⟩
  | bullets | numbered => exact item

theorem listing_rendered (plain : kind ≠ .code) (full : rows ≠ []) (before : a = [] ∨ a = ['\n'])
    (behind : z = [] ∨ z = ['\n']) : Rendered (.listing kind rows full) (chars (kind.run.opening ++
      (a ++ (Text.join "\n" (rows.map fun row => kind.wrapped row.contents) ++ z)) ++ kind.run.closing)) := by
  have known : kind.tag ∈ tagNames := by cases kind <;> decide
  have pages := fun row : Row kind => row.wrapped_page plain
  have blank : a.all isPageChar = true := by
    rcases before with rfl | rfl <;> rfl
  have page : Page (chars ('<' :: (kind.tag ++ ">") ++
      (a ++ Text.join "\n" (rows.map fun row => kind.wrapped row.contents)))) := by
    rw [chars_append, chars_append]
    exact .opening known ((Page.of_all blank).append (.join (List.forall_mem_map.2 fun row _ => (pages row).1)))
  have html : (Chunk.listing kind rows full).html =
      tagged kind.tag (rows.map fun row => kind.wrapped row.contents).flatten := by
    cases kind with
    | code => exact absurd rfl plain
    | quotation =>
        have same : (fun row : Row .quotation => Listing.quotation.wrapped row.contents) = Row.contents :=
          funext fun row => List.append_nil _
        rw [same]
        rfl
    | bullets | numbered => rfl
  have all := Rendered.of_lines (List.mem_cons_of_mem _ known) (fun none => full (List.map_eq_nil_iff.1 none))
    (List.forall_mem_map.2 fun row _ => (pages row).2) before behind page html
  cases kind with
  | code => exact absurd rfl plain
  | quotation | bullets | numbered => exact all

theorem code_rendered {rows : List (Row .code)} (full : rows ≠ []) {w : Ward}
    (data : w.data = Text.join "\n" (rows.map Row.contents)) :
    Rendered (.listing .code rows full) (chars "<pre><code>" ++ (.ward w :: chars "</code></pre>")) := by
  have pre : ("pre" : Text) ∈ tagNames := by decide
  have code : ("code" : Text) ∈ tagNames := by decide
  have single : '\n' ∉ w.key := not_mem_key rfl w
  have line : '\n' ∉ text (chars "<pre><code>" ++ (.ward w :: chars "</code></pre>")) := by
    simp [Token.text, single]
  refine ⟨?_, .of_single (by simp [startsLine]) line, ⟨"pre", "<code>" ++ w.key ++ "</code></pre>", by decide, by decide, ?_⟩,
    .inr line, ?_⟩
  · exact .opening pre (.opening code (.key (.closing (List.mem_cons_of_mem _ code) (.closing (List.mem_cons_of_mem _ pre) .nil))))
  · simp [Token.text]
  · have inside : (Text.join "\n" (rows.map Row.contents)).filter (· != '\n') = rows.flatMap Row.contents :=
      Text.filter_join (List.forall_mem_map.2 fun row _ => row.contents_single)
    have html : (Chunk.listing .code rows full).html = "<pre><code>" ++ (rows.flatMap Row.contents ++ "</code></pre>") := by
      show tagged "pre" (tagged "code" _) = _
      simp [tagged]
    rw [html, meaning_append, meaning_cons, meaning_chars, meaning_chars, Token.meaning, data, List.filter_append,
      List.filter_append, inside]
    rfl

theorem codeLine_led (row : Row .code) : Led (fun c => c != '\r' && c != '\n') row.contents := by
  have allowed : isCodeLine row.contents = true := row.allowed
  obtain ⟨plain, last⟩ := Bool.and_eq_true_iff.1 allowed
  refine .of_single ?_ row.contents_single
  cases split : row.contents with
  | nil =>
      rw [split] at last
      cases last
  | cons c rest =>
      have other := List.all_eq_true.1 plain c (by simp [split])
      have refused : ∀ d ∈ ("\r\n" : Text), noneOf "\n\r\x00<&\\" d = false := by decide
      have apart {d : Char} (h : d ∈ ("\r\n" : Text)) : c ≠ d := by
        rintro rfl
        rw [refused c h] at other
        cases other
      simp [apart (d := '\r') (by simp), apart (d := '\n') (by simp)]

/-- The contents of code, without line ends around them. -/
theorem trimmed_eq {rows : List (Row .code)} (full : rows ≠ []) (before : a = [] ∨ a = ['\n'])
    (behind : z = [] ∨ z = ['\n']) : LineRun.trimmed (a ++ (Text.join "\n" (rows.map Row.contents) ++ z)) =
      Text.join "\n" (rows.map Row.contents) := by
  have gone : ∀ c ∈ a, (c == '\r' || c == '\n') = true := by
    rcases before with rfl | rfl <;> decide
  have spaces : ∀ c ∈ z, isSpace c = true := by
    rcases behind with rfl | rfl <;> decide
  have filled : rows.map Row.contents ≠ [] := fun none => full (List.map_eq_nil_iff.1 none)
  have led : Led (fun c => c != '\r' && c != '\n') (Text.join "\n" (rows.map Row.contents)) :=
    Text.join_led filled (List.forall_mem_map.2 fun row _ => codeLine_led row)
  have last : (Text.join "\n" (rows.map Row.contents)).getLast?.any notSpace = true :=
    Text.join_last filled (List.forall_mem_map.2 fun row _ => (Bool.and_eq_true_iff.1 row.allowed).2)
  obtain ⟨c, rest, split⟩ := List.exists_cons_of_ne_nil led.ne_nil
  have first := led.first
  rw [LineRun.trimmed, List.dropWhile_append_of_pos gone]
  rw [split] at first ⊢
  rw [List.cons_append, List.dropWhile_cons_of_neg (by simpa using first), ← List.cons_append, ← split,
    Text.trimEnd_append last spaces]

theorem render_turns (full : rows ≠ []) (before : a = [] ∨ a = ['\n']) (behind : z = [] ∨ z = ['\n']) :
    Turns (kind.run.render (a ++ (rowsText rows ++ z))) [] fun d =>
      ∃ e, d = chars (lineEnds 2) ++ (e ++ chars (lineEnds 2)) ∧ Rendered (.listing kind rows full) e := by
  have contents := kind.contents_eq full before behind
  have plain (h : kind ≠ .code) : Turns (kind.run.render (a ++ (rowsText rows ++ z))) [] fun d =>
      ∃ e, d = chars (lineEnds 2) ++ (e ++ chars (lineEnds 2)) ∧ Rendered (.listing kind rows full) e := by
    have replaced (x : Text) : kind.run.render x =
        pure ("\n\n" ++ kind.run.opening ++ kind.run.contents x ++ kind.run.closing ++ "\n\n") := by
      cases kind with
      | code => exact absurd rfl h
      | quotation | bullets | numbered => rfl
    rw [replaced, contents]
    refine .pure_of ⟨_, rfl, listing_rendered h full before behind⟩ ?_ (by simp)
    simp [lineEnds, List.replicate]
  cases kind with
  | quotation | bullets | numbered => exact plain (by decide)
  | code =>
      have unwrapped : (rows.map fun row => Listing.code.wrapped row.contents) = rows.map Row.contents :=
        List.map_congr_left fun row _ => List.append_nil _
      have filled : Text.join "\n" (rows.map Row.contents) ≠ [] :=
        (Text.join_led (fun none => full (List.map_eq_nil_iff.1 none)) (List.forall_mem_map.2 fun row _ => codeLine_led row)).ne_nil
      have replaced : Listing.code.run.render (a ++ (rowsText rows ++ z)) = (do
          let key ← Rendering.protect (Text.join "\n" (rows.map Row.contents))
          return "\n\n" ++ ("<pre><code>" : Text) ++ key ++ "</code></pre>" ++ "\n\n") := by
        rw [← trimmed_eq full before behind, ← unwrapped, ← contents]
        rfl
      rw [replaced]
      refine .protect_bind filled fun w data => .pure_of ⟨_, rfl, code_rendered full data⟩ ?_ (by simp)
      simp [lineEnds, List.replicate, Token.text]

/-- A listing is rendered, with the line ends next to it. -/
theorem listing_treated (full : rows ≠ []) (before : Before 1 b k) (enough : t ≠ [] → 2 ≤ m) :
    kind.run.rule.Treated 1 2 Rendered (.listing kind rows full) (chars (rowsText rows)) b k m t := by
  have newline : Kind.finds (.listing kind) '\n' = false := by cases kind <;> rfl
  obtain ⟨n, a, leading, opened⟩ : ∃ n a, lineEnds k = lineEnds n ++ a ∧ (a = ['\n'] ∨ a = [] ∧ n = 0 ∧ b = none) := by
    rcases before with ⟨none, rfl⟩ | some
    · exact ⟨0, [], rfl, .inr ⟨rfl, rfl, none⟩⟩
    · exact ⟨k - 1, ['\n'], by rw [show k = k - 1 + 1 by omega, lineEnds_add]; rfl, .inl rfl⟩
  obtain ⟨i, j, rfl, closed, more⟩ : ∃ i j, m = i + j ∧
      (lineEnds i = ['\n'] ∧ Stops (lineEnds j ++ t) ∨ lineEnds i = [] ∧ lineEnds j ++ t = []) ∧ (t ≠ [] → 1 ≤ j) := by
    cases m with
    | zero =>
        have ended : t = [] := Classical.not_not.1 fun full => absurd (enough full) (by decide)
        exact ⟨0, 0, rfl, .inr ⟨rfl, ended⟩, absurd ended⟩
    | succ j =>
        refine ⟨1, j, Nat.add_comm j 1, .inl ⟨rfl, ?_⟩, fun full => by have := enough full; omega⟩
        cases j with
        | zero => exact .inl (Classical.not_not.1 fun full => absurd (enough full) (by decide))
        | succ j => exact .inr ⟨_, rfl⟩
  have first : kind.run.rule.pattern.Passes b (lineEnds n) (a ++ (rowsText rows ++ lineEnds i) ++ (lineEnds j ++ t)) := by
    rcases opened with rfl | ⟨-, rfl, -⟩
    · exact (Kind.block_leads kind).passes_lineEnds newline (by rintro _ ⟨⟩; exact newline)
    · exact .nil
  have found : kind.run.rule.pattern.Reads ((lineEnds n).getLast?.or b) (a ++ (rowsText rows ++ lineEnds i)) (lineEnds j ++ t) [] := by
    refine kind.block_reads full (opened.imp_right fun ⟨vanishes, zero, start⟩ => ⟨vanishes, ?_⟩) closed
    rw [zero, start]
    rfl
  have turns := render_turns full (opened.symm.imp_left And.left) (closed.symm.imp And.left And.left)
  have filled : a ++ (rowsText rows ++ lineEnds i) ≠ [] := by
    have source : rowsText rows ≠ [] := (Chunk.listing kind rows full).led.ne_nil
    simp [source]
  have all := (Makes.stays first).append (.of_reads filled found turns)
  refine ⟨i, j, rfl, more, ?_⟩
  rw [text_chars, wards_chars, leading, List.append_assoc]
  refine all.mono ?_
  rintro _ ⟨_, _, rfl, rfl, e, rfl, rendered⟩
  refine ⟨n + 2, e, 2, ?_, .inr (by omega), fun _ => by omega, rendered⟩
  rw [lineEnds_add, chars_append, List.append_assoc]

end Listing

/-! ### Paragraphs -/

section Paragraph

variable {lines : List PlainLine} {z : Text}

theorem paragraph_rendered (full : lines ≠ []) (behind : z = [] ∨ z = ['\n']) :
    Rendered (.paragraph lines full) (chars (tagged "p" (linesText lines ++ z))) := by
  obtain ⟨c, rest, split, letter⟩ := linesText_cons full
  have inside : (linesText lines).all isPageChar = true := by
    refine List.all_eq_true.2 fun d hd => ?_
    rcases Text.mem_join hd with newline | ⟨_, listed, hd⟩
    · obtain rfl := List.mem_singleton.1 newline
      rfl
    · obtain ⟨line, -, rfl⟩ := List.mem_map.1 listed
      obtain ⟨-, -, -, -, plain⟩ := isPlainLine_cons line.plain
      exact Bool.or_eq_true_iff.2 (.inl (List.all_eq_true.1 plain d hd))
  have page : Page (chars ('<' :: ("p" ++ ">") ++ ([] ++ linesText lines))) := by
    rw [split] at inside ⊢
    exact .paragraph letter (.of_all (Bool.and_eq_true_iff.1 inside).2)
  have filled : lines.map PlainLine.text ≠ [] := fun none => full (List.map_eq_nil_iff.1 none)
  exact .of_lines List.mem_cons_self filled (List.forall_mem_map.2 fun line _ => ⟨line.startsLine, line.single⟩) (.inl rfl)
    behind page rfl

/-- A paragraph is rendered, with the line ends before it. -/
theorem paragraph_treated (full : lines ≠ []) (before : Before 2 b k) (enough : t ≠ [] → 2 ≤ m) :
    Block.paragraph.Treated 2 2 Rendered (.paragraph lines full) (chars (linesText lines)) b k m t := by
  obtain ⟨i, j, rfl, closes, more⟩ : ∃ i j, m = i + j ∧ Closes (lineEnds i) (lineEnds j ++ t) ∧ (t ≠ [] → 2 ≤ j) := by
    rcases m with - | - | m
    · have ended : t = [] := Classical.not_not.1 fun full => absurd (enough full) (by decide)
      exact ⟨0, 0, rfl, .inl ⟨rfl, .inl ended⟩, absurd ended⟩
    · have ended : t = [] := Classical.not_not.1 fun full => absurd (enough full) (by decide)
      exact ⟨1, 0, rfl, .inr ⟨rfl, ended⟩, absurd ended⟩
    · exact ⟨0, m + 2, (Nat.zero_add _).symm, .inl ⟨rfl, .inr ⟨_, rfl⟩⟩, fun _ => by omega⟩
  have replaced : Block.paragraph.replace ⟨lineEnds k ++ (linesText lines ++ lineEnds i), [(1, linesText lines ++ lineEnds i)]⟩ =
      pure (lineEnds 2 ++ (tagged "p" (linesText lines ++ lineEnds i) ++ lineEnds 2)) := by
    show pure ("\n\n<p>" ++ (linesText lines ++ lineEnds i) ++ "</p>\n\n") = _
    simp [tagged, lineEnds, List.replicate]
  have source : linesText lines ≠ [] := (Chunk.paragraph lines full).led.ne_nil
  have filled : lineEnds k ++ (linesText lines ++ lineEnds i) ≠ [] := by simp [source]
  refine ⟨i, j, rfl, more, ?_⟩
  rw [text_chars, wards_chars]
  have rendered := paragraph_rendered full (closes.imp And.left And.left)
  refine (Makes.becomes filled (paragraph_reads full before closes) replaced).mono ?_
  rintro _ rfl
  exact ⟨2, _, 2, by rw [chars_append, chars_append], .inr (Nat.le_refl 2), fun _ => by omega, rendered⟩

end Paragraph

end Treated

end LessonText.Block

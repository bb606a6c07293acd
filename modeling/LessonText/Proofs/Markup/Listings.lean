import LessonText.Proofs.Markup.Lines

/-! # Reading a listing

The rows of a listing are lines that begin with one of its starts, and what stands behind the start is not part of it. So the
rule for the listing finds all of them, and leaves their contents.
-/

namespace LessonText

open Draft Pattern Unicode

/-! ## Lines joined to a text -/

namespace Text

/-- What begins at the start of a line, among lines with line ends before them. -/
theorem exists_line {lines : List Text} (single : ∀ l ∈ lines, '\n' ∉ l) {b : Option Char} {k : Nat} {c : Char} {u v : Text}
    (split : lineEnds k ++ join "\n" lines = u ++ c :: v) (start : (u.getLast?.or b).all (· == '\n') = true)
    (other : c ≠ '\n') : ∃ line rest, c :: v = join "\n" (line :: rest) ∧ line ∈ lines := by
  have first (whole : join "\n" lines = c :: v) : ∃ line rest, c :: v = join "\n" (line :: rest) ∧ line ∈ lines := by
    cases lines with
    | nil => cases whole
    | cons line rest => exact ⟨line, rest, whole.symm, List.mem_cons_self⟩
  rcases List.append_eq_append_iff.1 split with ⟨x, rfl, behind⟩ | ⟨x, ends, behind⟩
  · rcases List.eq_nil_or_concat' x with rfl | ⟨x, e, rfl⟩
    · exact first behind
    · rw [← List.append_assoc, List.getLast?_concat] at start
      obtain rfl : e = '\n' := beq_iff_eq.1 start
      rw [List.append_assoc] at behind
      obtain ⟨line, rest, same, mem⟩ := join_split single behind
      exact ⟨line, rest, same, List.mem_of_mem_tail mem⟩
  · cases x with
    | nil => exact first behind.symm
    | cons d x =>
        obtain ⟨rfl, -⟩ := List.cons.inj behind
        exact absurd (eq_newline (k := k) (by rw [ends]; simp)) other

theorem join_led {f : Char → Bool} {lines : List Text} (full : lines ≠ []) (each : ∀ l ∈ lines, Led f l) :
    Led f (join "\n" lines) := by
  induction lines with
  | nil => exact absurd rfl full
  | cons l lines ih =>
      obtain ⟨here, later⟩ := List.forall_mem_cons.1 each
      cases lines with
      | nil => exact here
      | cons m lines =>
          rw [join_cons_cons]
          exact here.append (ih (List.cons_ne_nil _ _) later) (.inr rfl)

theorem join_last {f : Char → Bool} {lines : List Text} (full : lines ≠ []) (each : ∀ l ∈ lines, l.getLast?.any f = true) :
    (join "\n" lines).getLast?.any f = true := by
  induction lines with
  | nil => exact absurd rfl full
  | cons l lines ih =>
      obtain ⟨here, later⟩ := List.forall_mem_cons.1 each
      cases lines with
      | nil => exact here
      | cons m lines =>
          have last := ih (List.cons_ne_nil _ _) later
          have filled : join "\n" (m :: lines) ≠ [] := by
            intro empty
            rw [empty] at last
            cases last
          rwa [join_cons_cons, List.getLast?_append_of_ne_nil _ (by simp), List.getLast?_append_of_ne_nil _ filled]

/-- Joined lines are the lines, but for line ends. -/
theorem filter_join {lines : List Text} (single : ∀ l ∈ lines, '\n' ∉ l) :
    (join "\n" lines).filter (· != '\n') = lines.flatten := by
  induction lines with
  | nil => rfl
  | cons l lines ih =>
      obtain ⟨here, later⟩ := List.forall_mem_cons.1 single
      have kept : l.filter (· != '\n') = l := List.filter_eq_self.2 fun c hc => bne_iff_ne.2 (by rintro rfl; exact here hc)
      cases lines with
      | nil => exact kept.trans (List.append_nil l).symm
      | cons m lines =>
          rw [join_cons_cons, List.filter_append, List.filter_append, ih later, kept]
          rfl

end Text

namespace Block

theorem isPlainLine_cons {t : Text} (h : isPlainLine t = true) :
    ∃ c rest, t = c :: rest ∧ c.isAlpha = true ∧ t.all Span.isPlain = true := by
  obtain ⟨h, -⟩ := Bool.and_eq_true_iff.1 h
  obtain ⟨plain, begins⟩ := Bool.and_eq_true_iff.1 h
  cases t with
  | nil => cases begins
  | cons c rest => exact ⟨c, rest, rfl, begins, plain⟩

variable {kind : Listing} {b : Option Char} {t : Text}

namespace Row

theorem isStart (row : Row kind) : kind.IsStart row.start := by
  obtain ⟨start, contents, begins, -⟩ := row
  have space : (" " : Text) ≠ [] ∧ Gaps " " := by decide
  have none : Indent [] := by decide
  cases kind with
  | quotation =>
      obtain rfl : start = "> " := begins
      exact ⟨">", " ", rfl, rfl, space.2⟩
  | code =>
      obtain rfl : start = "    " := begins
      exact List.mem_cons_self
  | bullets =>
      have all : ∀ t ∈ (["* ", "+ ", "- "] : List Text), Listing.bullets.IsStart t := by decide
      exact all start begins
  | numbered =>
      obtain ⟨digits, full, decimal, rfl⟩ := begins
      have isDigit : Digits digits := ⟨full, fun c hc => Warden.isDigit_of_ascii (List.all_eq_true.1 decimal c hc)⟩
      exact ⟨[], _, rfl, none, digits, _, rfl, isDigit, ".", " ", rfl, rfl, space⟩

/-- What stands behind the start of a row is not part of the start. -/
theorem ends (row : Row kind) : kind.Ends row.contents := by
  obtain ⟨start, contents, -, allowed⟩ := row
  have gap (h : isPlainLine contents = true) : ∀ c ∈ contents.head?, isGap c = false := by
    obtain ⟨c, rest, rfl, letter, -⟩ := isPlainLine_cons h
    rintro _ ⟨⟩
    have := of_isAlpha (p := fun c => !isGap c) (by decide) letter
    simpa using this
  cases kind with
  | code => exact .inl rfl
  | quotation | bullets | numbered => exact .inr (gap allowed)

theorem isRow (row : Row kind) : kind.isRow row.text = true := (row.isStart.rest_eq row.ends).1

theorem rest_eq (row : Row kind) : kind.rest row.text = row.contents := (row.isStart.rest_eq row.ends).2

theorem contents_single (row : Row kind) : '\n' ∉ row.contents := by
  intro mem
  have code (h : isCodeLine row.contents = true) : False := by
    have plain := List.all_eq_true.1 (Bool.and_eq_true_iff.1 h).1 _ mem
    exact Bool.false_ne_true plain
  have plain (h : isPlainLine row.contents = true) : False := by
    obtain ⟨-, -, -, -, plain⟩ := isPlainLine_cons h
    exact Bool.false_ne_true (List.all_eq_true.1 plain _ mem)
  obtain ⟨start, contents, begins, allowed⟩ := row
  cases kind with
  | code => exact code allowed
  | quotation | bullets | numbered => exact plain allowed

theorem single (row : Row kind) : '\n' ∉ row.text := by
  simp [text, row.isStart.single, row.contents_single]

end Row

/-- Lines of a listing as an author writes them. -/
def rowsText (rows : List (Row kind)) : Text := Text.join "\n" (rows.map Row.text)

theorem rows_alike {rows : List (Row kind)} (full : rows ≠ []) : kind.Alike true (rows.map Row.text) where
  full := by simpa using full
  single := List.forall_mem_map.2 fun row _ => row.single
  same := List.forall_mem_map.2 fun row _ => row.isRow

namespace Listing

/-- The rule for a listing finds all of its lines, with the line ends on both sides. -/
theorem block_reads {rows : List (Row kind)} (full : rows ≠ []) {a z : Text}
    (before : a = ['\n'] ∨ a = [] ∧ b = none) (behind : z = ['\n'] ∧ Stops t ∨ z = [] ∧ t = []) :
    kind.run.block.Reads b (a ++ (rowsText rows ++ z)) t [] :=
  (rows_alike full).block_reads before (behind.imp_left (And.imp_right fun stops _ => start_misses kind.not_isRow_nil stops))

/-- What becomes of the contents of a line. -/
def wrapped (kind : Listing) (t : Text) : Text := kind.run.lineOpening ++ t ++ kind.run.lineClosing

theorem contents_eq {rows : List (Row kind)} (full : rows ≠ []) {a z : Text} (before : a = [] ∨ a = ['\n'])
    (behind : z = [] ∨ z = ['\n']) : kind.run.contents (a ++ (rowsText rows ++ z)) =
      a ++ (Text.join "\n" (rows.map fun row => kind.wrapped row.contents) ++ z) := by
  have lines : (rows.map Row.text).map (fun l => kind.run.wrapped (kind.rest l)) =
      rows.map fun row => kind.wrapped row.contents := by
    simp only [List.map_map, Function.comp_def, Row.rest_eq]
    rfl
  rw [← lines]
  exact (rows_alike full).contents_eq kind.run before behind

end Listing

end Block

end LessonText

import Mathlib.Data.Nat.Find
import LessonText.Proofs.Markup.Chunks
import LessonText.Proofs.Markup.Layout

/-! # Lines that begin alike

A line that begins with a start of a listing is a line of it; the longest start is what the line begins with. The rule for
a listing finds neighbouring lines of it with a line end on each side: it stops at the first line end behind which no
further line begins.
-/

namespace LessonText

open Draft Pattern Unicode

/-! ## Lines joined to a text -/

namespace Text

theorem join_cons_cons (s t u : Text) (rest : List Text) : join s (t :: u :: rest) = t ++ (s ++ join s (u :: rest)) :=
  List.append_assoc _ _ _

theorem mem_join {s : Text} {lines : List Text} {c : Char} (h : c ∈ join s lines) : c ∈ s ∨ ∃ t ∈ lines, c ∈ t := by
  induction lines with
  | nil => cases h
  | cons l lines ih =>
      cases lines with
      | nil => exact .inr ⟨l, List.mem_cons_self, h⟩
      | cons m lines =>
          rw [join_cons_cons, List.mem_append, List.mem_append] at h
          rcases h with h | h | h
          · exact .inr ⟨l, List.mem_cons_self, h⟩
          · exact .inl h
          · exact (ih h).imp_right fun ⟨t, ht, hc⟩ => ⟨t, List.mem_cons_of_mem _ ht, hc⟩

/-- Behind a line end in joined lines stands a line. -/
theorem join_split {lines : List Text} (single : ∀ l ∈ lines, '\n' ∉ l) {u v : Text}
    (split : join "\n" lines = u ++ '\n' :: v) : ∃ line rest, v = join "\n" (line :: rest) ∧ line ∈ lines.tail := by
  induction lines generalizing u with
  | nil => simp [join] at split
  | cons l lines ih =>
      obtain ⟨here, later⟩ := List.forall_mem_cons.1 single
      cases lines with
      | nil => exact absurd (by rw [show l = _ from split]; simp) here
      | cons m lines =>
          rw [join_cons_cons] at split
          rcases List.append_eq_append_iff.1 split with ⟨x, rfl, behind⟩ | ⟨x, rfl, behind⟩
          · cases x with
            | nil => exact ⟨m, lines, (List.cons.inj behind).2.symm, List.mem_cons_self⟩
            | cons c x =>
                obtain ⟨line, rest, rfl, mem⟩ := ih later (List.cons.inj behind).2
                exact ⟨line, rest, rfl, List.mem_of_mem_tail mem⟩
          · cases x with
            | nil => exact ⟨m, lines, (List.cons.inj behind).2, List.mem_cons_self⟩
            | cons c x =>
                obtain ⟨rfl, -⟩ := List.cons.inj behind
                exact absurd (by simp) here

theorem join_cons (s t : Text) (rest : List Text) : ∃ u, join s (t :: rest) = t ++ u := by
  cases rest with
  | nil => exact ⟨[], (List.append_nil t).symm⟩
  | cons u rest => exact ⟨_, join_cons_cons s t u rest⟩

/-- Behind the first of joined lines the line stops. -/
theorem join_stops {t : Text} (h : Stops t) (line : Text) (rest : List Text) :
    ∃ u, join "\n" (line :: rest) ++ t = line ++ u ∧ Stops u := by
  cases rest with
  | nil => exact ⟨t, rfl, h⟩
  | cons m rest =>
      rw [join_cons_cons, List.append_assoc]
      exact ⟨_, rfl, .inr ⟨_, rfl⟩⟩

theorem join_append {s : Text} {lines others : List Text} (full : lines ≠ []) (more : others ≠ []) :
    join s (lines ++ others) = join s lines ++ (s ++ join s others) := by
  obtain ⟨u, others, rfl⟩ := List.exists_cons_of_ne_nil more
  induction lines with
  | nil => exact absurd rfl full
  | cons t lines ih =>
      cases lines with
      | nil => exact join_cons_cons s t u others
      | cons m lines =>
          have later := ih (List.cons_ne_nil _ _)
          rw [List.cons_append] at later
          rw [List.cons_append, List.cons_append, join_cons_cons, later, join_cons_cons]
          simp only [List.append_assoc]

end Text

/-! ## Starts of lines -/

/-- One text behind another. -/
def Concat (P Q : Text → Prop) (t : Text) : Prop := ∃ u v, t = u ++ v ∧ P u ∧ Q v

instance {P Q : Text → Prop} [DecidablePred P] [DecidablePred Q] : DecidablePred (Concat P Q) := fun t =>
  decidable_of_iff (∃ n < t.length + 1, P (t.take n) ∧ Q (t.drop n)) <| by
    constructor
    · rintro ⟨n, -, first, second⟩
      exact ⟨_, _, (List.take_append_drop n t).symm, first, second⟩
    · rintro ⟨u, v, rfl, first, second⟩
      refine ⟨u.length, by rw [List.length_append]; omega, ?_⟩
      rwa [List.take_left, List.drop_left, and_iff_right first]

/-- Spaces and tabs. -/
def Gaps (t : Text) : Prop := ∀ c ∈ t, isGap c = true

/-- At most three spaces. -/
def Indent (t : Text) : Prop := t.length ≤ 3 ∧ ∀ c ∈ t, c = ' '

/-- One or more decimal digits. -/
def Digits (t : Text) : Prop := t ≠ [] ∧ ∀ c ∈ t, Unicode.isDigit c = true

instance : DecidablePred Gaps := fun t => inferInstanceAs (Decidable (∀ c ∈ t, _))

instance : DecidablePred Indent := fun t => inferInstanceAs (Decidable (_ ∧ ∀ c ∈ t, _))

instance : DecidablePred Digits := fun t => inferInstanceAs (Decidable (_ ∧ ∀ c ∈ t, _))

/-- What becomes of a line without its start. -/
def LineRun.wrapped (run : LineRun) (t : Text) : Text := run.lineOpening ++ t ++ run.lineClosing

namespace Block.Listing

def run : Listing → LineRun
  | quotation => Block.quotation
  | code => Block.code
  | bullets => Block.bullets
  | numbered => Block.numbered

/-- What a line of a listing may begin with. -/
def IsStart : Listing → Text → Prop
  | quotation => Concat (· = ">") Gaps
  | code => (· ∈ (["    ", "\t"] : List Text))
  | bullets => Concat Indent (Concat (· ∈ (["*", "+", "-"] : List Text)) fun t => t ≠ [] ∧ Gaps t)
  | numbered => Concat Indent (Concat Digits (Concat (· = ".") fun t => t ≠ [] ∧ Gaps t))

instance : (kind : Listing) → DecidablePred kind.IsStart
  | quotation => inferInstanceAs (DecidablePred (Concat _ _))
  | code => fun t => inferInstanceAs (Decidable (t ∈ (["    ", "\t"] : List Text)))
  | bullets => inferInstanceAs (DecidablePred (Concat _ (Concat _ _)))
  | numbered => inferInstanceAs (DecidablePred (Concat _ (Concat _ (Concat _ _))))

/-- The length of the longest start that a line begins with; zero if there is none. -/
def startLength (kind : Listing) (line : Text) : Nat := Nat.findGreatest (fun n => kind.IsStart (line.take n)) line.length

/-- The line begins with a start. -/
def isRow (kind : Listing) (line : Text) : Bool := kind.startLength line != 0

/-- The line without its longest start. -/
def rest (kind : Listing) (line : Text) : Text := line.drop (kind.startLength line)

/-- No longer start can end here. -/
def Ends (kind : Listing) (t : Text) : Prop := kind = code ∨ ∀ c ∈ t.head?, isGap c = false

end Block.Listing

namespace Block.Listing.IsStart

variable {kind : Listing} {b : Option Char} {s t : Text}

theorem ne_nil (h : kind.IsStart s) : s ≠ [] := by
  rintro rfl
  cases kind <;> exact absurd h (by decide)

/-- A start that may end in gaps may end in more. -/
theorem snoc (h : kind.IsStart s) (other : kind ≠ code) {c : Char} (gap : isGap c = true) : kind.IsStart (s ++ [c]) := by
  have more {t : Text} (gaps : Gaps t) : Gaps (t ++ [c]) := List.forall_mem_append.2 ⟨gaps, by simpa using gap⟩
  cases kind with
  | code => exact absurd rfl other
  | quotation =>
      obtain ⟨u, v, rfl, sign, gaps⟩ := h
      exact ⟨u, v ++ [c], List.append_assoc _ _ _, sign, more gaps⟩
  | bullets =>
      obtain ⟨u, _, rfl, indent, v, w, rfl, sign, full, gaps⟩ := h
      exact ⟨u, v ++ (w ++ [c]), by simp, indent, v, w ++ [c], rfl, sign, by simp, more gaps⟩
  | numbered =>
      obtain ⟨u, _, rfl, indent, v, _, rfl, digits, x, w, rfl, sign, full, gaps⟩ := h
      exact ⟨u, v ++ (x ++ (w ++ [c])), by simp, indent, v, x ++ (w ++ [c]), rfl, digits, x, w ++ [c], rfl, sign, by simp,
        more gaps⟩

theorem single (h : kind.IsStart s) : '\n' ∉ s := by
  have gap {t : Text} (gaps : Gaps t) : '\n' ∉ t := fun mem => Bool.false_ne_true (gaps _ mem)
  have space {t : Text} (indent : Indent t) : '\n' ∉ t := fun mem => absurd (indent.2 _ mem) (by decide)
  have sign : ∀ t ∈ (["*", "+", "-"] : List Text), '\n' ∉ t := by decide
  cases kind with
  | quotation =>
      obtain ⟨_, v, rfl, rfl, gaps⟩ := h
      simp [gap gaps]
  | code =>
      have all : ∀ t ∈ (["    ", "\t"] : List Text), '\n' ∉ t := by decide
      exact all s h
  | bullets =>
      obtain ⟨u, _, rfl, indent, v, w, rfl, listed, -, gaps⟩ := h
      simp [space indent, sign v listed, gap gaps]
  | numbered =>
      obtain ⟨u, _, rfl, indent, v, _, rfl, digits, _, w, rfl, rfl, -, gaps⟩ := h
      have decimal : '\n' ∉ v := fun mem => Bool.false_ne_true (digits.2 _ mem)
      simp [space indent, decimal, gap gaps]

theorem of_indent {w r : Text} {gs : List (Nat × Text)} (h : LineRun.indent.Takes b w r gs) : Indent w := by
  simp only [LineRun.indent, takes_optional, takes_append, takes_literal] at h
  have known : w ∈ (["", " ", "  ", "   "] : List Text) := by
    rcases h with ⟨_, _, _, _, rfl, -, ⟨rfl, -⟩, second⟩ | ⟨rfl, -⟩
    · rcases second with ⟨_, _, _, _, rfl, -, ⟨rfl, -⟩, ⟨rfl, -⟩ | ⟨rfl, -⟩⟩ | ⟨rfl, -⟩ <;> decide
    · decide
  have all : ∀ w ∈ (["", " ", "  ", "   "] : List Text), Indent w := by decide
  exact all w known

/-- What the pattern for the start of a line matches is a start. -/
theorem of_takes {w r : Text} {gs : List (Nat × Text)} (h : kind.run.start.Takes b w r gs) : kind.IsStart w := by
  have some {f : Char → Bool} {b : Option Char} {w r : Text} {gs : List (Nat × Text)} (h : (span1 f).Takes b w r gs) :
      w ≠ [] ∧ ∀ c ∈ w, f c = true := (takes_span1.1 h).imp_right And.left
  cases kind with
  | quotation =>
      obtain ⟨u, v, _, _, rfl, -, sign, gaps⟩ := h
      exact ⟨u, v, rfl, (takes_literal.1 sign).1, gaps.1⟩
  | code =>
      rcases takes_or.1 h with h | h
      · exact (takes_literal.1 h).1 ▸ List.mem_cons_self
      · exact (takes_literal.1 h).1 ▸ List.mem_cons_of_mem _ List.mem_cons_self
  | bullets =>
      obtain ⟨_, w, _, _, rfl, -, ⟨u, v, _, _, rfl, -, indent, sign⟩, gaps⟩ := h
      obtain ⟨c, listed, rfl, -⟩ := takes_one.1 sign
      have all : ∀ c ∈ ("*+-" : Text), [c] ∈ (["*", "+", "-"] : List Text) := by decide
      have sign := all c (List.contains_iff_mem.1 listed)
      exact ⟨u, [c] ++ w, List.append_assoc _ _ _, of_indent indent, [c], w, rfl, sign, some gaps⟩
  | numbered =>
      obtain ⟨_, w, _, _, rfl, -, ⟨_, x, _, _, rfl, -, ⟨u, v, _, _, rfl, -, indent, digits⟩, sign⟩, gaps⟩ := h
      obtain ⟨rfl, -⟩ := takes_literal.1 sign
      exact ⟨u, v ++ (_ ++ w), by simp, of_indent indent, v, _, rfl, some digits, _, w, rfl, rfl, some gaps⟩

theorem indent_reads {i r : Text} (h : Indent i) (next : ∀ c ∈ r.head?, c ≠ ' ') : LineRun.indent.Reads b i r [] := by
  have none {b : Option Char} : (literal " ".toList).Fails b r := by
    refine (misses_literal ?_).fails
    rintro ⟨r, rfl⟩
    exact next ' ' rfl rfl
  have space {b : Option Char} {r : Text} : (literal " ".toList).Reads b " " r [] := .literal _
  obtain ⟨n, few, rfl⟩ : ∃ n ≤ 3, i = List.replicate n ' ' := ⟨_, h.1, List.eq_replicate_iff.2 ⟨rfl, h.2⟩⟩
  match n, few with
  | 0, _ => exact .optional_none none.append
  | 1, _ => exact .optional (space.append (.optional_none none.append))
  | 2, _ => exact .optional (space.append (.optional (space.append (.optional_none none))))
  | 3, _ => exact .optional (space.append (.optional (space.append (.optional space))))

/-- The pattern for the start of a line passes a start that does not go on. -/
theorem reads {r : Text} (h : kind.IsStart s) (ends : kind.Ends r) : kind.run.start.Reads b s r [] := by
  have gap (other : kind ≠ code) : ∀ c ∈ r.head?, isGap c = false := ends.resolve_left other
  cases kind with
  | quotation =>
      obtain ⟨_, v, rfl, rfl, gaps⟩ := h
      exact (Reads.literal _).append (.span gaps (gap nofun))
  | code =>
      have listed : s = "    " ∨ s = "\t" := by simpa [IsStart] using h
      rcases listed with rfl | rfl
      · exact .or_left (.literal _)
      · refine .or_right (misses_literal ?_).fails (.literal _)
        rintro ⟨r, spaces⟩
        exact absurd (List.cons.inj spaces).1 (by decide)
  | bullets =>
      obtain ⟨u, _, rfl, indent, v, w, rfl, sign, full, gaps⟩ := h
      have all : ∀ v ∈ (["*", "+", "-"] : List Text), ∃ c, v = [c] ∧ anyOf "*+-" c = true ∧ c ≠ ' ' := by
        simp [anyOf]
      obtain ⟨c, rfl, listed, other⟩ := all v sign
      have first : LineRun.indent.Reads b u ([c] ++ (w ++ r)) [] := indent_reads indent fun d hd => by
        cases hd
        exact other
      have all := (first.append (.one listed)).append (.span1 full gaps (gap nofun))
      rwa [List.append_assoc] at all
  | numbered =>
      obtain ⟨u, _, rfl, indent, v, _, rfl, digits, _, w, rfl, rfl, full, gaps⟩ := h
      have first : LineRun.indent.Reads b u (v ++ ("." ++ (w ++ r))) [] := indent_reads indent fun c hc => by
        rintro rfl
        rw [List.head?_append_of_ne_nil _ digits.1] at hc
        exact absurd (digits.2 _ (List.mem_of_mem_head? hc)) (by decide)
      have number {b : Option Char} : (span1 Unicode.isDigit).Reads b v ("." ++ (w ++ r)) [] :=
        .span1 digits.1 digits.2 (by rintro _ ⟨⟩; rfl)
      have all := ((first.append number).append (Reads.literal ".".toList)).append (.span1 full gaps (gap nofun))
      rw [List.append_assoc, List.append_assoc] at all
      exact all

end Block.Listing.IsStart

namespace Block.Listing

variable {kind : Listing} {b : Option Char} {line s t z : Text}

/-- A line is its longest start and the rest. -/
theorem start_spec (row : kind.isRow line = true) :
    ∃ s, line = s ++ kind.rest line ∧ kind.IsStart s ∧ ∀ s' r, line = s' ++ r → kind.IsStart s' → s'.length ≤ s.length := by
  obtain ⟨inside, isStart, -⟩ : kind.startLength line ≤ line.length ∧
      (kind.startLength line ≠ 0 → kind.IsStart (line.take (kind.startLength line))) ∧ _ := Nat.findGreatest_eq_iff.1 rfl
  refine ⟨_, (List.take_append_drop _ line).symm, isStart (bne_iff_ne.1 row), ?_⟩
  rintro s' r split isStart
  rw [List.length_take, min_eq_left inside]
  refine Nat.le_findGreatest (by simp [split]) ?_
  rwa [split, List.take_left]

theorem not_isStart (other : kind.isRow line = false) {s r : Text} (split : line = s ++ r) : ¬ kind.IsStart s := by
  intro isStart
  have none : kind.startLength line = 0 := by simpa [isRow] using other
  refine Nat.findGreatest_eq_zero_iff.1 none (List.length_pos_iff.2 isStart.ne_nil) (by simp [split]) ?_
  rwa [split, List.take_left]

theorem start_passes (kind : Listing) : kind.run.start.passes = true := by
  cases kind <;> rfl

/-- The pattern for the start of a line finds the longest start. -/
theorem start_reads (row : kind.isRow line = true) :
    ∃ s, s ≠ [] ∧ line = s ++ kind.rest line ∧ ∀ b z, Stops z → kind.run.start.Reads b s (kind.rest line ++ z) [] := by
  obtain ⟨s, split, isStart, longest⟩ := start_spec row
  refine ⟨s, isStart.ne_nil, split, fun b z stops => isStart.reads ?_⟩
  by_cases code : kind = .code
  · exact .inl code
  refine .inr fun c hc => ?_
  cases behind : kind.rest line with
  | nil =>
      rw [behind] at hc
      rw [stops.head?_eq c hc]
      rfl
  | cons d r =>
      rw [behind] at hc split
      obtain rfl : d = c := Option.some.inj hc
      by_contra gap
      have longer := longest (s ++ [d]) r (by simp [split]) (isStart.snoc code (by simpa using gap))
      exact absurd longer (by simp)

/-- In a line without a start the pattern finds none. -/
theorem start_misses (other : kind.isRow line = false) (stops : Stops z) : kind.run.start.Misses b (line ++ z) := by
  intro w r gs split takes
  have isStart := IsStart.of_takes takes
  rcases List.append_eq_append_iff.1 split with ⟨x, rfl, behind⟩ | ⟨x, rfl, -⟩
  · cases x with
    | nil => exact not_isStart other (List.append_nil line).symm (by simpa using isStart)
    | cons c x =>
        obtain rfl := stops.head?_eq c (by rw [behind]; rfl)
        exact isStart.single (by simp)
  · exact not_isStart other rfl isStart

/-- A start that does not go on is the longest. -/
theorem IsStart.rest_eq (h : kind.IsStart s) {r : Text} (ends : kind.Ends r) :
    kind.isRow (s ++ r) = true ∧ kind.rest (s ++ r) = r := by
  have row : kind.isRow (s ++ r) = true := by
    by_contra other
    exact not_isStart (by simpa using other) rfl h
  obtain ⟨s', -, whole, reads⟩ := start_reads row
  have longest := (reads none [] (.inl rfl)).matchAt le_rfl
  rw [List.append_nil, ← whole, (h.reads ends).matchAt le_rfl, Option.some.injEq, Prod.mk.injEq] at longest
  obtain ⟨rfl, same⟩ := List.append_inj whole longest.2
  exact ⟨row, same.symm⟩

theorem not_isRow_nil (kind : Listing) : kind.isRow [] = false := by
  cases kind <;> rfl

/-- The end of a listing: a line end behind which no further line begins, or the end of the text. -/
def stop (kind : Listing) : Pattern := (literal ['\n'] ++ notAhead kind.run.start) ||| textEnd

/-- What stands behind lines of the listing: a line end and a line of another kind, or nothing. -/
def Closes (kind : Listing) (z t : Text) : Prop := z = ['\n'] ∧ (∀ b, kind.run.start.Misses b t) ∨ z = [] ∧ t = []

theorem Closes.stops (h : Closes kind z t) : Stops (z ++ t) := by
  rcases h with ⟨rfl, -⟩ | ⟨rfl, rfl⟩
  · exact .inr ⟨t, rfl⟩
  · exact .inl rfl

theorem Closes.reads (h : Closes kind z t) : kind.stop.Reads b z t [] := by
  rcases h with ⟨rfl, misses⟩ | ⟨rfl, rfl⟩
  · have none : (notAhead kind.run.start).Reads (some '\n') [] t [] := .notAhead (misses _).fails
    have all := (Reads.literal ['\n'] (b := b)).append none
    exact .or_left all
  · have misses : (literal ['\n']).Misses b [] := misses_literal (by simp)
    exact .or_right misses.fails.append (.place rfl)

/-- Neighbouring lines that all are lines of the listing, or that all are not. -/
structure Alike (kind : Listing) (row : Bool) (lines : List Text) : Prop where
  full : lines ≠ []
  single : ∀ l ∈ lines, '\n' ∉ l
  same : ∀ l ∈ lines, kind.isRow l = row

namespace Alike

variable {row : Bool} {lines : List Text}

/-- Inside lines of the listing no line end is the last. -/
theorem stop_fails (h : Alike kind true lines) {u v : Text} (split : Text.join "\n" lines = u ++ v) (more : v ≠ [])
    (stops : Stops z) : kind.stop.Fails b (v ++ z) := by
  obtain ⟨c, v, rfl⟩ := List.exists_cons_of_ne_nil more
  have inside : textEnd.Misses b (c :: v ++ z) := by
    rintro w r gs rest ⟨rfl, empty, -⟩
    rw [List.nil_append] at rest
    subst rest
    cases empty
  refine .or (.behind fun w r gs rest takes => ?_) inside.fails
  obtain ⟨rfl, -⟩ := takes_literal.1 takes
  obtain ⟨rfl, rfl⟩ := List.cons.inj rest
  obtain ⟨line, later, rfl, mem⟩ := Text.join_split h.single split
  obtain ⟨behind, joined, ends⟩ := Text.join_stops stops line later
  obtain ⟨s, -, whole, reads⟩ := start_reads (h.same line (List.mem_of_mem_tail mem))
  have fails := (reads (some '\n') _ ends).ahead_fails
  rw [← List.append_assoc, ← whole, ← joined] at fails
  exact fails

/-- The rule for a listing finds neighbouring lines of it, with the line ends on both sides. -/
theorem block_reads (h : Alike kind true lines) {a : Text} (before : a = ['\n'] ∨ a = [] ∧ b = none)
    (behind : Closes kind z t) : kind.run.block.Reads b (a ++ (Text.join "\n" lines ++ z)) t [] := by
  obtain ⟨line, lines, rfl⟩ := List.exists_cons_of_ne_nil h.full
  obtain ⟨s, -, whole, reads⟩ := start_reads (h.same line List.mem_cons_self)
  obtain ⟨others, joined⟩ := Text.join_cons "\n" line lines
  obtain ⟨u, first, ends⟩ := Text.join_stops behind.stops line lines
  rw [joined, List.append_assoc] at first
  obtain rfl := List.append_cancel_left first
  have text : Text.join "\n" (line :: lines) = s ++ (kind.rest line ++ others) := by
    rw [joined, ← List.append_assoc, ← whole]
  have start {b : Option Char} : kind.run.start.Reads b s (kind.rest line ++ others ++ (z ++ t)) [] := by
    rw [List.append_assoc]
    exact reads b _ ends
  have opened : ((textStart ||| literal ['\n']) ++ kind.run.start).Reads b (a ++ s)
      (kind.rest line ++ others ++ (z ++ t)) [] := by
    rcases before with rfl | ⟨rfl, rfl⟩
    · refine .or_append (.behind fun w r gs split takes => ?_) ((Reads.literal ['\n']).append start)
      obtain rfl : w = [] := takes.1
      rw [List.nil_append] at split
      subst split
      exact (start_misses kind.not_isRow_nil (.inr ⟨_, rfl⟩)).fails
    · exact (Reads.or_left (.place rfl)).append start
  have body {b : Option Char} : (Pattern.fewest anything).Lazily b (kind.rest line ++ others) (z ++ t) [] fun u =>
      ∃ v, kind.rest line ++ others = u ++ v ∧ v ≠ [] := .fewest fun _ _ => rfl
  have late : ∀ u x, (∃ u', u = a ++ s ++ u' ∧ ∃ v, kind.rest line ++ others = u' ++ v ∧ v ≠ []) →
      a ++ s ++ (kind.rest line ++ others) ++ (z ++ t) = u ++ x → kind.stop.Fails (u.getLast?.or b) x := by
    rintro _ x ⟨u, rfl, v, split, more⟩ all
    rw [split, List.append_assoc, List.append_assoc] at all
    obtain rfl : v ++ (z ++ t) = x := by simpa using all
    have all : Text.join "\n" (line :: lines) = s ++ u ++ v := by rw [text, split, List.append_assoc]
    exact h.stop_fails all more behind.stops
  have all := (Lazily.after opened body).append behind.reads late
  rw [text, show a ++ (s ++ (kind.rest line ++ others) ++ z) = a ++ s ++ (kind.rest line ++ others) ++ z by simp]
  exact all

/-- Among other lines the rule for a listing finds nothing. -/
theorem block_passes (h : Alike kind false lines) (stops : Stops t) : kind.run.block.Passes b (Text.join "\n" lines) t := by
  intro u v split full w r gs whole takes
  obtain ⟨_, _, _, _, rfl, -, ⟨_, _, _, _, rfl, -, ⟨a, s, _, _, rfl, -, opened, start⟩, -⟩, -⟩ := takes
  have first {line : Text} {rest : List Text} (mem : line ∈ lines)
      (behind : v ++ t = a ++ (Text.join "\n" (line :: rest) ++ t)) : False := by
    rw [behind] at whole
    obtain ⟨x, joined, ends⟩ := Text.join_stops stops line rest
    refine start_misses (h.same line mem) ends _ _ _ ?_ start
    rw [← joined]
    simpa using whole
  rcases takes_or.1 opened with ⟨rfl, start, -⟩ | newline
  · cases u with
    | nil =>
        obtain ⟨line, rest, rfl⟩ := List.exists_cons_of_ne_nil h.full
        exact first List.mem_cons_self (by rw [show v = _ from split.symm]; rfl)
    | cons c u => simp [List.getLast?_cons] at start
  · obtain ⟨rfl, -⟩ := takes_literal.1 newline
    obtain ⟨c, v, rfl⟩ := List.exists_cons_of_ne_nil full
    obtain ⟨rfl, -⟩ := List.cons.inj whole
    obtain ⟨line, rest, rfl, mem⟩ := Text.join_split h.single split
    exact first (List.mem_of_mem_tail mem) rfl

/-! ## The lines of a listing without their starts -/

/-- The rewriting of one line after another. -/
def unwrap (kind : Listing) (run : LineRun) : Rewrite := ⟨kind.run.line, fun m => run.wrapped (m.group 1)⟩

theorem line_reads (row : kind.isRow line = true) (single : '\n' ∉ line) (start : b.all (· == '\n') = true)
    (stops : Stops t) : kind.run.line.Reads b line t [(1, kind.rest line)] := by
  obtain ⟨s, -, whole, reads⟩ := start_reads row
  have opened : (lineStart ++ kind.run.start).Reads b s (kind.rest line ++ t) [] := (Reads.place start).append (reads b t stops)
  have inside : ∀ c ∈ kind.rest line, inLine c = true := by
    intro c hc
    rw [inLine, bne_iff_ne]
    rintro rfl
    exact single (whole ▸ List.mem_append_right s hc)
  have contents {b : Option Char} : (group 1 (Pattern.span inLine)).Reads b (kind.rest line) t [(1, kind.rest line)] := by
    refine .group (.span inside fun c hc => ?_)
    rw [stops.head?_eq c hc]
    rfl
  have all := (opened.append contents).append stops.lineEnd
  rw [List.append_nil, ← whole] at all
  exact all

theorem line_passes {u : Text} : kind.run.line.Passes b ['\n'] u := by
  refine .of_begin (.of_passes (by cases kind <;> rfl)) fun c hc => ?_
  rw [List.mem_singleton.1 hc]
  cases kind <;> rfl

theorem tail {line' : Text} (h : Alike kind row (line :: line' :: lines)) : Alike kind row (line' :: lines) where
  full := List.cons_ne_nil _ _
  single := (List.forall_mem_cons.1 h.single).2
  same := (List.forall_mem_cons.1 h.same).2

theorem lines_make (run : LineRun) (h : Alike kind true lines) (start : b.all (· == '\n') = true)
    (stops : Stops t) : (Rule.ofRewrite (unwrap kind run)).Makes b (Text.join "\n" lines) t [] fun d =>
      d = chars (Text.join "\n" (lines.map fun l => run.wrapped (kind.rest l))) := by
  have one {b : Option Char} {line t : Text} (row : kind.isRow line = true) (single : '\n' ∉ line)
      (start : b.all (· == '\n') = true) (stops : Stops t) : (Rule.ofRewrite (unwrap kind run)).Makes b line t [] fun d =>
        d = chars (run.wrapped (kind.rest line)) := by
    have filled : line ≠ [] := by
      rintro rfl
      exact Bool.false_ne_true (kind.not_isRow_nil.symm.trans row)
    exact .becomes filled (line_reads row single start stops) rfl
  induction lines generalizing b with
  | nil => exact absurd rfl h.full
  | cons line lines ih =>
      have here {b : Option Char} {t : Text} :=
        one (b := b) (t := t) (h.same line List.mem_cons_self) (h.single line List.mem_cons_self)
      cases lines with
      | nil => exact here start stops
      | cons line' lines =>
          have between {b : Option Char} {u : Text} :
              (Rule.ofRewrite (unwrap kind run)).Makes b ['\n'] u [] (· = chars ['\n']) :=
            .stays line_passes
          have later {b : Option Char} := ih (b := ['\n'].getLast?.or b) h.tail rfl
          have all := (here start (.inr ⟨_, rfl⟩)).append (between.append later)
          rw [Text.join_cons_cons]
          refine all.mono ?_
          rintro _ ⟨_, _, rfl, rfl, _, _, rfl, rfl, rfl⟩
          simp only [List.map_cons, Text.join_cons_cons, chars_append]
          rfl

/-- The contents of neighbouring lines of a listing, with the line ends on both sides. -/
theorem contents_eq (run : LineRun) (h : Alike kind true lines) {a z : Text} (before : a = [] ∨ a = ['\n'])
    (behind : z = [] ∨ z = ['\n']) : (unwrap kind run).apply (a ++ (Text.join "\n" lines ++ z)) =
      a ++ (Text.join "\n" (lines.map fun l => run.wrapped (kind.rest l)) ++ z) := by
  have ends {b : Option Char} {x u : Text} (h : x = [] ∨ x = ['\n']) :
      (Rule.ofRewrite (unwrap kind run)).Makes b x u [] (· = chars x) := by
    rcases h with rfl | rfl
    · exact .stays .nil
    · exact .stays line_passes
  have start : (a.getLast?.or none).all (· == '\n') = true := by
    rcases before with rfl | rfl <;> rfl
  have stops : Stops (z ++ []) := by
    rcases behind with rfl | rfl
    · exact .inl rfl
    · exact .inr ⟨[], rfl⟩
  have all := (ends before).append ((h.lines_make run start stops).append (ends behind))
  have advances : kind.run.line.Advances := .of_passes (by cases kind <;> rfl)
  refine Rewrite.apply_of_turns ((all.apply advances).mono ?_)
  rintro _ ⟨_, _, rfl, rfl, _, _, rfl, rfl, rfl⟩
  rw [chars_append, chars_append]

end Alike

end Block.Listing

end LessonText

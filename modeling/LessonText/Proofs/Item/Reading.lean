import LessonText.Lesson.TextItem
import LessonText.Proofs.Item.Match
import LessonText.Proofs.Markup.SpanGrammar

/-! # Reading an item

An item behind a space or a tag, with a word of plain characters, is read as a whole: no part of the word ends it.
-/

namespace LessonText.Item

open Pattern Unicode

/-- A character that is a part of a word by itself. -/
def isPart (c : Char) : Bool := !isSpace c && !anyOf "<>&" c

/-- A character before which a word ends. -/
def isStop (c : Char) : Bool := isSpace c || anyOf ",;:.?!" c

/-- A character that is a part of a word by itself, and before which no word ends. -/
def isPlainPart (c : Char) : Bool := isPart c && !isStop c

/-- A word ends here: before a space or a stop, or at the end of a paragraph. -/
def Ends (r : Text) : Prop := (∃ c t, r = c :: t ∧ isStop c = true) ∨ ∃ t, r = '<' :: ("/p>" ++ t)

/-- The places before which an item may end. -/
def stops : Pattern := one isStop ||| lineEnd ||| "</" ++ few1 inLine ++ ">"

variable {b : Option Char} {c : Char} {w r t : Text} {mark : Pattern}

theorem isPart_iff : isPart c = true ↔ isSpace c = false ∧ c ∉ ("<>&" : Text) := by
  simp [isPart, anyOf]

theorem stop_reads (h : Ends r) : stop.Reads b [] r [] := by
  rcases h with ⟨c, t, rfl, sign⟩ | ⟨t, rfl⟩
  · have reads : stops.Reads b [c] t [] := .or_left (.or_left (.one sign))
    exact reads.isAhead
  · have space : (one isStop).Fails b ('<' :: ("/p>" ++ t)) := Misses.fails (.of_begin (.of_passes rfl) rfl)
    have name {b : Option Char} : (run false inLine ++ ">").Reads b ([] ++ ['>']) t [] :=
      (Lazily.fewest (w := []) nofun).append (.literal ">") fun u x early _ => by
        obtain ⟨v, nothing, full⟩ := early
        exact absurd (List.append_eq_nil_iff.1 nothing.symm).2 full
    have tag : ("</" ++ (one inLine ++ (run false inLine ++ ">"))).Reads b (['<', '/'] ++ (['p'] ++ ([] ++ ['>']))) t _ :=
      (Reads.literal "</").append ((Reads.one rfl).append name)
    have reads : stops.Reads b (['<', '/'] ++ (['p'] ++ ([] ++ ['>']))) t [] :=
      .or_right (.or space (lineEnd_fails (by decide))) tag
    exact reads.isAhead

theorem stop_fails (plain : isPlainPart c = true) : stop.Fails b (c :: t) := by
  obtain ⟨part, sign⟩ := Bool.and_eq_true_iff.1 plain
  obtain ⟨solid, signs⟩ := isPart_iff.1 part
  have space : (one isStop).Fails b (c :: t) :=
    Misses.fails (.of_begin (.of_passes rfl) (by simpa using sign))
  have tag : ("</" ++ few1 inLine ++ ">" : Pattern).Fails b (c :: t) := by
    refine Misses.fails (.of_begin (.of_passes rfl) ?_)
    simp_all
  exact ((space.or (lineEnd_fails (by rintro rfl; cases solid))).or tag).isAhead

theorem ending_reads (h : Ends r) : ending.Reads b [] r [] := by
  have bracket : (">" ++ group 3 (span letterFold) : Pattern).Fails b r := by
    refine Misses.fails ?_
    rcases h with ⟨c, t, rfl, sign⟩ | ⟨t, rfl⟩
    · refine .of_begin (.of_passes rfl) ?_
      have other : c ≠ '>' := by
        rintro rfl
        cases sign
      simpa using other
    · exact .of_begin (.of_passes rfl) rfl
  exact (Reads.optional_none bracket).append (stop_reads h)

theorem ending_fails (plain : isPlainPart c = true) : ending.Fails b (c :: t) := by
  obtain ⟨solid, signs⟩ := isPart_iff.1 (Bool.and_eq_true_iff.1 plain).1
  refine Fails.behind fun w r gs split takes => ?_
  obtain ⟨_, _, _, _, rfl, -, bracket, -⟩ | ⟨rfl, -⟩ := takes
  · obtain ⟨rfl, -⟩ := takes_literal.1 bracket
    obtain ⟨rfl, -⟩ := List.cons.inj split
    exact absurd (by decide) signs
  · rw [← show c :: t = r from split]
    exact stop_fails plain

theorem wordPart_reads (part : isPart c = true) : wordPart.Reads b [c] r [] := by
  obtain ⟨solid, signs⟩ := isPart_iff.1 part
  refine .or_right (Misses.fails (.of_begin (.of_passes rfl) ?_)) (.one ?_) <;> simp_all

/-- Behind the mark of an item everything up to its end is its word. -/
theorem word_reads (first : ∀ c ∈ w.head?, isPart c = true) (plain : ∀ c ∈ w.tail, isPlainPart c = true) (h : Ends r)
    (bare : w = [] → ∀ c ∈ r.head?, word.mayBegin c = false) :
    (optional (group 2 word) ++ ending).Reads b w r (if w.isEmpty then [] else [(2, w)]) := by
  cases w with
  | nil =>
      have none : (group 2 word).Fails b r := by
        refine Misses.fails ?_
        cases r with
        | nil => exact (Advances.of_passes rfl).misses_nil
        | cons c r => exact .of_begin (.of_passes rfl) (bare rfl c rfl)
      exact (Reads.optional_none none).append (ending_reads h)
  | cons c w =>
      have lazy : word.Lazily b ([c] ++ w) r [] _ :=
        .after (wordPart_reads (first c rfl)) (.many fun d hd b r => wordPart_reads (Bool.and_eq_true_iff.1 (plain d hd)).1)
      have reads := (lazy.group (i := 2)).optional.append (v := []) (ending_reads h) ?_
      · simpa using reads
      · rintro _ x ⟨u, rfl, v, rfl, full⟩ split
        obtain ⟨d, v, rfl⟩ := List.exists_cons_of_ne_nil full
        obtain rfl : d :: (v ++ r) = x := by simpa using split
        exact ending_fails (plain d (by simp))

/-- What stands before the mark of an item, and the mark. -/
theorem takes_mark {gs : List (Nat × Text)} (h : (pattern mark).Takes b w r gs) :
    ∃ s v u b' r' gs', w ++ r = s ++ (v ++ u) ∧ mark.Takes b' v r' gs' ∧
      (s = [] ∧ b.all (· == '\n') = true ∨ (∃ a ∈ (" >" : Text), s = [a]) ∨ s = "???") ∧ v ⊆ w := by
  obtain ⟨_, z, _, _, rfl, -, ⟨_, y, _, _, rfl, -, ⟨_, x, _, _, rfl, -, ⟨s, v, _, _, rfl, -, ⟨_, hstart, -⟩, hmark⟩, -⟩, -⟩, -⟩ := h
  refine ⟨s, v, x ++ (y ++ (z ++ r)), _, _, _, by simp, hmark, ?_, by intro c hc; simp [hc]⟩
  rcases hstart with (⟨rfl, line, -⟩ | ⟨a, sign, rfl, -⟩) | marks
  · exact .inl ⟨rfl, line⟩
  · exact .inr (.inl ⟨a, by simpa [anyOf] using sign, rfl⟩)
  · exact .inr (.inr (takes_literal.1 marks).1)

/-- A mark begins with a character of a class. -/
def Begins (mark : Pattern) (f : Char → Bool) : Prop := ∀ b v r gs, mark.Takes b v r gs → ∃ c u, v = c :: u ∧ f c = true

theorem begins_literal (c : Char) (t : Text) : Begins (literal (c :: t)) (· == c) := by
  intro b v r gs takes
  obtain ⟨rfl, -⟩ := takes_literal.1 takes
  exact ⟨c, t, rfl, beq_self_eq_true c⟩

theorem begins_fold (c : Char) (t : Text) : Begins (literalFold (c :: t)) (sameLetter c) := by
  intro b v r gs takes
  cases (takes_literalFold.1 takes).1 with
  | cons same _ => exact ⟨_, _, rfl, same⟩

/-- No item begins with a character that begins no mark, unless a mark stands behind it. -/
theorem pattern_misses {f : Char → Bool} (begins : Begins mark f) (other : f c = false) (unmarked : c ≠ '?')
    (behind : c ∈ (" >" : Text) → ∀ d ∈ t.head?, f d = false) : (pattern mark).Misses b (c :: t) := by
  intro w r gs split takes
  obtain ⟨s, v, u, _, _, _, ahead, marked, start, -⟩ := takes_mark takes
  obtain ⟨d, v, rfl, first⟩ := begins _ _ _ _ marked
  have ahead : c :: t = s ++ (d :: v ++ u) := split.trans ahead
  rcases start with ⟨rfl, -⟩ | ⟨a, sign, rfl⟩ | rfl
  · obtain ⟨rfl, -⟩ := List.cons.inj ahead
    rw [other] at first
    cases first
  · obtain ⟨rfl, rfl⟩ := List.cons.inj ahead
    rw [behind sign d rfl] at first
    cases first
  · exact unmarked (List.cons.inj ahead).1

/-- Inside a line no item begins with a character that neither ends a tag nor a word nor a key. -/
theorem pattern_passes (line : b.all (· == '\n') = false) (plain : ∀ c ∈ w, c ∉ ("\n >?" : Text)) :
    (pattern mark).Passes b w t := by
  rintro u v rfl full w r gs split takes
  obtain ⟨c, v, rfl⟩ := List.exists_cons_of_ne_nil full
  obtain ⟨s, m, x, _, _, _, ahead, -, start, -⟩ := takes_mark takes
  have ahead : c :: v ++ t = s ++ (m ++ x) := split.trans ahead
  rcases start with ⟨rfl, start⟩ | ⟨a, sign, rfl⟩ | rfl
  · cases last : u.getLast? with
    | none =>
        rw [last, Option.none_or, line] at start
        cases start
    | some d =>
        rw [last] at start
        obtain rfl : d = '\n' := beq_iff_eq.1 start
        exact plain '\n' (List.mem_append_left _ (List.mem_of_getLast? last)) (by decide)
  · obtain ⟨rfl, -⟩ := List.cons.inj ahead
    have listed : ∀ c ∈ (" >" : Text), c ∈ ("\n >?" : Text) := by decide
    exact plain c (by simp) (listed c sign)
  · have same : c = '?' := (List.cons.inj ahead).1
    exact plain c (by simp) (by rw [same]; decide)

/-- A mark is not found where no character is a certain letter of it. -/
theorem fold_apply {r : Rule} {m : Text} (same : r.pattern = pattern (literalFold m)) (mem : c ∈ m)
    (none : ∀ d ∈ t, sameLetter c d = false) : r.apply t = pure t := by
  have advances : r.pattern.Advances := by
    obtain ⟨d, m, rfl⟩ := List.exists_cons_of_ne_nil (List.ne_nil_of_mem mem)
    exact same ▸ .of_passes rfl
  have found {m v : Text} (h : List.Forall₂ (fun c d => sameLetter c d = true) m v) (mem : c ∈ m) :
      ∃ d ∈ v, sameLetter c d = true := by
    induction h with
    | nil => cases mem
    | cons letter _ ih =>
        rcases List.mem_cons.1 mem with rfl | mem
        · exact ⟨_, List.mem_cons_self, letter⟩
        · obtain ⟨d, listed, letter⟩ := ih mem
          exact ⟨d, List.mem_cons_of_mem _ listed, letter⟩
  refine Rule.apply_of_passes advances ?_
  rintro u v split - w r gs ahead takes
  rw [same] at takes
  obtain ⟨_, m', _, _, _, _, -, marked, -, sub⟩ := takes_mark takes
  obtain ⟨d, listed, letter⟩ := found (takes_literalFold.1 marked).1 mem
  have inside : d ∈ t := by
    rw [split, ← List.append_nil v, ahead]
    exact List.mem_append_right _ (List.mem_append_left _ (sub listed))
  rw [none d inside] at letter
  cases letter

/-- An item behind a space or a tag. -/
theorem reads {s : Char} {m : Text} (before : s ∈ (" >" : Text)) (line : b.all (· == '\n') = false)
    (marked : ∀ b r, mark.Reads b m r []) (first : ∀ c ∈ w.head?, isPart c = true)
    (plain : ∀ c ∈ w.tail, isPlainPart c = true) (h : Ends r) (bare : w = [] → ∀ c ∈ r.head?, word.mayBegin c = false) :
    (pattern mark).Reads b ([s] ++ (m ++ w)) r ((if w.isEmpty then [] else [(2, w)]) ++ [(1, [s])]) := by
  have lineless : lineStart.Fails b (s :: (m ++ w ++ r)) := by
    refine Misses.fails ?_
    rintro w r gs split ⟨rfl, start, -⟩
    exact Bool.false_ne_true (line.symm.trans start)
  have start : (group 1 start).Reads b [s] (m ++ w ++ r) [(1, [s])] :=
    .group (.or_left (.or_right lineless (.one (by simpa [anyOf] using before))))
  have all := start.append (v := m ++ w) ((marked _ (w ++ r)).append (word_reads first plain h bare))
  rw [List.append_nil] at all
  exact all

/-- A bracket is only escaped behind a backslash. -/
theorem escapedBracket_apply {t : Text} (none : '\\' ∉ t) : escapedBracket.apply t = pure t :=
  Rule.apply_of_passes (.of_passes rfl) (.of_sign (.of_passes rfl) (by simp [escapedBracket, Rule.ofRewrite]) none)

end LessonText.Item

namespace LessonText

open Pattern Unicode

/-! ## Nothing in custody -/

namespace Warden

theorem recover_scan {w : Warden} (empty : w.wards = []) {b : Option Char} {t : Text} {ps : List (Piece Text)}
    (h : Scan findKey b t ps) : (w.recover ps).text = t := by
  induction h with
  | nil => rfl
  | plain _ _ ih => exact congrArg (_ :: ·) ih
  | @found b v t key ps _ found _ ih =>
      have missed : w.retrieve key = ⟨key, w, [key]⟩ := retrieve_of_not_mem (by simp [empty])
      obtain ⟨u, r, -, split, length, -⟩ := findKey_eq found
      obtain ⟨rfl, -⟩ := List.append_inj split length
      rw [recover, missed, ih]

/-- With nothing in custody nothing is put back. -/
theorem reinstate_empty {w : Warden} (empty : w.wards = []) (t : Text) : (w.reinstate t).text = t :=
  recover_scan empty (Text.cutFrom_scan findKey_advances t none)

end Warden

end LessonText

namespace LessonText.TextItem

theorem html_render (metadata : Metadata) (source : Text) : (render metadata source).1.html = (run metadata source).1 :=
  rfl

/-- An item of one line that is no block: its spans become a paragraph, and the rules for items follow. -/
theorem run_of_spans {metadata : Metadata} {t u : Text} {s : Session} (line : SolidLine t)
    (misses : ∀ r ∈ Block.rules, r.pattern.Misses none t) (unsigned : ∀ e ∈ Span.firstSigns, e ∉ t)
    (spans : Span.rules.foldlM (fun t r => r.apply t) t {} = (u, s)) (solid : SolidLine u) (unopened : Unopened u) :
    run metadata t = (Rule.applyAll (Item.rules metadata) ("\n<p>" ++ u ++ "</p>\n") >>= Rendering.reinstate) s := by
  have full : t ≠ [] := by
    obtain ⟨c, rest, split, -⟩ := line.begins
    exact split ▸ List.cons_ne_nil c rest
  have blocks : Rule.applyAll Markup.Extent.document.rules t {} = ("\n\n<p>" ++ u ++ "</p>\n\n", s) := by
    have notEmpty : t.isEmpty = false := by simpa using full
    rw [Rule.applyAll, notEmpty, if_neg Bool.false_ne_true, Markup.rules_solid line misses, Markup.map_run]
    rw [show Markup.Extent.spans.rules = Span.rules from rfl, spans]
  have closed : Markup.closing .document (Item.rules metadata) t {} =
      Rule.applyAll (Item.rules metadata) ("\n<p>" ++ u ++ "</p>\n") s := by
    rw [← Markup.cleanUp_solid solid unopened]
    exact Markup.bind_run blocks
  rw [run, Markup.run, Markup.render_eq full, Span.opening_unsigned unsigned, pure_bind]
  exact congrArg (fun x : Text × Session => Rendering.reinstate x.1 x.2) closed

end LessonText.TextItem

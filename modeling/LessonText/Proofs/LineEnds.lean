import LessonText.Proofs.Headers
import LessonText.Proofs.Text.Tags

/-! # Ends of lines

A line ends with a newline, to which a carriage return directly before it belongs. At the end of a text the carriage return is
still a part of the last line, and of what follows a marker on it.
-/

namespace LessonText

/-! ## Lines -/

namespace Text

theorem newlineLines_newline (t : Text) : newlineLines ('\n' :: t) = [] :: newlineLines t := by
  rw [newlineLines.eq_def]
  simp

/-- A carriage return that no newline follows ends no line. -/
theorem newlineLines_cons {c : Char} {t : Text} (hn : c ≠ '\n') (hr : c = '\r' → t.head? ≠ some '\n') :
    newlineLines (c :: t) = consLine c (newlineLines t) := by
  rw [newlineLines.eq_def]
  split
  · rename_i same
    cases same
  · rename_i same
    cases same
    exact absurd rfl (hr rfl)
  · rename_i same
    cases same
    exact if_neg hn

theorem consLine_append (c : Char) {lines : List Text} (h : lines ≠ []) (more : List Text) :
    consLine c (lines ++ more) = consLine c lines ++ more := by
  cases lines with
  | nil => exact absurd rfl h
  | cons line lines => rfl

theorem newlineLines_ne_nil (t : Text) : newlineLines t ≠ [] := by
  fun_induction newlineLines t with
  | case1 => simp
  | case2 => simp
  | case3 => simp
  | case4 c t => cases newlineLines t <;> simp [consLine]

/-- Behind a line end, of one character or of two, the lines are those of the text that follows. -/
theorem newlineLines_append {ending : Text} (t u : Text)
    (h : ending = ['\r', '\n'] ∨ ending = ['\n'] ∧ t.getLast? ≠ some '\r') :
    newlineLines (t ++ ending ++ u) = newlineLines t ++ newlineLines u := by
  -- the end of a longer text is that of its rest
  have rest {c : Char} {t : Text} (h : ending = ['\r', '\n'] ∨ ending = ['\n'] ∧ (c :: t).getLast? ≠ some '\r') :
      ending = ['\r', '\n'] ∨ ending = ['\n'] ∧ t.getLast? ≠ some '\r' := by
    refine h.imp_right (And.imp_right fun last => ?_)
    cases t with
    | nil => simp
    | cons d t => rwa [List.getLast?_cons_cons] at last
  fun_induction newlineLines t with
  | case1 =>
      rcases h with rfl | ⟨rfl, -⟩
      · rfl
      · exact newlineLines_newline u
  | case2 t ih => exact congrArg ([] :: ·) (ih (rest (rest h)))
  | case3 t pair ih => exact (newlineLines_newline _).trans (congrArg ([] :: ·) (ih (rest h)))
  | case4 c t pair other ih =>
      have single : c = '\r' → (t ++ ending ++ u).head? ≠ some '\n' := by
        rintro rfl
        cases t with
        | nil =>
            rcases h with rfl | ⟨rfl, last⟩
            · simp
            · exact absurd rfl last
        | cons d t =>
            rintro same
            obtain rfl : d = '\n' := Option.some.inj same
            exact pair t rfl rfl
      rw [List.cons_append, List.cons_append, newlineLines_cons other single, ih (rest h),
        consLine_append c (newlineLines_ne_nil t)]

/-- A carriage return at the end belongs to the last line. -/
theorem newlineLines_return (t : Text) : ∃ lines line, newlineLines t = lines ++ [line] ∧
    newlineLines (t ++ ['\r']) = lines ++ [line ++ ['\r']] := by
  fun_induction newlineLines t with
  | case1 => exact ⟨[], [], rfl, rfl⟩
  | case2 t ih =>
      obtain ⟨lines, line, before, after⟩ := ih
      exact ⟨[] :: lines, line, congrArg ([] :: ·) before, congrArg ([] :: ·) after⟩
  | case3 t pair ih =>
      obtain ⟨lines, line, before, after⟩ := ih
      exact ⟨[] :: lines, line, congrArg ([] :: ·) before,
        (newlineLines_newline _).trans (congrArg ([] :: ·) after)⟩
  | case4 c t pair other ih =>
      obtain ⟨lines, line, before, after⟩ := ih
      have single : c = '\r' → (t ++ ['\r']).head? ≠ some '\n' := by
        rintro rfl
        cases t with
        | nil => simp
        | cons d t =>
            rintro same
            obtain rfl : d = '\n' := Option.some.inj same
            exact pair t rfl rfl
      rw [List.cons_append, newlineLines_cons other single, before, after]
      cases lines with
      | nil => exact ⟨[], c :: line, rfl, rfl⟩
      | cons first lines => exact ⟨(c :: first) :: lines, line, rfl, rfl⟩

theorem newline_not_mem_newlineLines (t : Text) : ∀ line ∈ newlineLines t, '\n' ∉ line := by
  fun_induction newlineLines t with
  | case1 => simp
  | case2 t ih => exact List.forall_mem_cons.2 ⟨List.not_mem_nil, ih⟩
  | case3 t pair ih => exact List.forall_mem_cons.2 ⟨List.not_mem_nil, ih⟩
  | case4 c t pair other ih =>
      cases h : newlineLines t with
      | nil => exact absurd h (newlineLines_ne_nil t)
      | cons line lines =>
          rw [h, List.forall_mem_cons] at ih
          refine List.forall_mem_cons.2 ⟨fun mem => ?_, ih.2⟩
          rcases List.mem_cons.1 mem with same | mem
          · exact other same.symm
          · exact ih.1 mem

end Text

/-! ## A carriage return at the end of a line -/

namespace Line

theorem dropBrackets?_concat {bracket c : Char} (h : c ≠ bracket) (t : Text) :
    dropBrackets? bracket (t ++ [c]) = (dropBrackets? bracket t).map (· ++ [c]) := by
  unfold dropBrackets?
  rw [Text.dropWhile_stops (by simpa using h)]
  cases t with
  | nil => simp [h]
  | cons d t => by_cases same : d = bracket <;> simp [same]

theorem dropIndent?_concat {c : Char} (h : c ≠ ' ') (t : Text) :
    dropIndent? (t ++ [c]) = (dropIndent? t).map (· ++ [c]) := by
  unfold dropIndent?
  rw [Text.dropWhile_stops (by simpa using h), Text.takeWhile_stops (by simpa using h)]
  split <;> rfl

theorem lineRest?_eq {t : Text} (h : '\n' ∉ t) : lineRest? t = some t := by
  have all : ∀ c ∈ t, (c != '\n') = true := fun c hc => by
    simpa using fun same : c = '\n' => h (same ▸ hc)
  rw [lineRest?, List.dropWhile_eq_nil_iff.2 all, List.takeWhile_eq_self_iff.2 all]
  rfl

/-- A carriage return at the end of a line changes nothing but what follows the marker. -/
theorem marker?_return {line : Text} (h : '\n' ∉ line) :
    marker? (line ++ ['\r']) = (marker? line).map fun found => (found.1, found.2 ++ ['\r']) := by
  have mark : ∀ c, isLetter c = true → Unicode.lower '\r' ≠ Unicode.lower c := by
    intro c hc same
    have plain := lower_mem_lowerForms hc
    rw [← same] at plain
    exact absurd plain (by decide)
  unfold marker?
  rw [dropIndent?_concat (by decide)]
  cases indent : dropIndent? line with
  | none => rfl
  | some unindented =>
  simp only [Option.map_some, Option.bind_eq_bind, Option.bind_some]
  rw [dropBrackets?_concat (by decide)]
  cases opening : dropBrackets? '(' unindented with
  | none => rfl
  | some inside =>
  have inner : inside <:+ line := (dropBrackets?_suffix opening).trans (dropIndent?_suffix indent)
  cases inside with
  | nil => rfl
  | cons letter rest =>
  simp only [Option.map_some, Option.bind_some, List.cons_append]
  by_cases accepted : isLetter letter = true
  · rw [if_pos accepted, if_pos accepted, Text.dropWhile_stops (by simpa using mark letter accepted),
      dropBrackets?_concat (by decide)]
    cases closing : dropBrackets? ')' (rest.dropWhile fun c => Unicode.lower c == Unicode.lower letter) with
    | none => rfl
    | some behind =>
    have outer : behind.dropWhile (fun c => c == ' ' || c == '\t') <:+ line :=
      (List.dropWhile_suffix _).trans ((dropBrackets?_suffix closing).trans
        ((List.dropWhile_suffix _).trans ((List.suffix_cons letter rest).trans inner)))
    have content : '\n' ∉ behind.dropWhile fun c => c == ' ' || c == '\t' := fun mem => h (outer.subset mem)
    simp only [Option.map_some, Option.bind_some, Option.pure_def]
    rw [Text.dropWhile_stops rfl, lineRest?_eq content, lineRest?_eq (by simpa using content)]
    rfl
  · rw [if_neg accepted, if_neg accepted]
    rfl

/-- So it reads as the line without it does. -/
theorem read_return {line : Text} (h : '\n' ∉ line) {l : Line} (read : Line.read (line ++ ['\r']) = .ok l) :
    (l = .plain (line ++ ['\r']) ∧ Line.read line = .ok (.plain line)) ∨
      ∃ part content, l = .marker part (content ++ ['\r']) ∧ Line.read line = .ok (.marker part content) := by
  unfold Line.read at read ⊢
  rw [marker?_return h] at read
  cases marked : marker? line with
  | none =>
      rw [marked] at read
      exact .inl ⟨(Except.ok.inj read).symm, rfl⟩
  | some found =>
      obtain ⟨letter, content⟩ := found
      rw [marked] at read
      dsimp only [Option.map_some] at read ⊢
      split at read
      · rename_i part named
        exact .inr ⟨part, content, (Except.ok.inj read).symm, rfl⟩
      · cases read

end Line

end LessonText

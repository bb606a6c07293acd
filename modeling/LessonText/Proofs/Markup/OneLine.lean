import LessonText.Proofs.Markup.Changes

/-! # One line among the rules of blocks

No rule of a block finds anything in a text of one line that begins with a letter and is no equation, and so it
becomes one paragraph.
-/

namespace LessonText

open Pattern Unicode

namespace Pattern

variable {p q : Pattern} {t : Text}

/-- A pattern that matches at the start of a line only, or holds the end of one. -/
def Linewise (p : Pattern) : Prop := ∀ b w r gs, p.Takes b w r gs → b.all (· == '\n') = true ∨ '\n' ∈ w

namespace Linewise

theorem append (h : p.Linewise) : (p ++ q).Linewise := by
  rintro b w r gs ⟨w₁, w₂, _, _, rfl, -, takes, -⟩
  exact (h _ _ _ _ takes).imp_right (List.mem_append_left _)

theorem or (hp : p.Linewise) (hq : q.Linewise) : (p ||| q).Linewise := by
  rintro b w r gs (takes | takes)
  · exact hp _ _ _ _ takes
  · exact hq _ _ _ _ takes

theorem lineStart : lineStart.Linewise := fun _ _ _ _ takes => .inl takes.2.1

theorem textStart : textStart.Linewise := by
  rintro b w r gs ⟨-, start, -⟩
  cases b with
  | none => exact .inl rfl
  | some c => cases start

theorem newline : Linewise "\n" := by
  intro b w r gs takes
  obtain ⟨rfl, -⟩ := takes_literal.1 takes
  exact .inr (List.mem_singleton.2 rfl)

/-- In one line there is nothing to match behind the start. -/
theorem passes (h : p.Linewise) (single : '\n' ∉ t) (start : p.Misses none t) : p.Passes none t [] := by
  intro u v split full
  subst split
  rw [List.append_nil]
  cases last : u.getLast? with
  | none =>
      obtain rfl := List.getLast?_eq_none_iff.1 last
      exact start
  | some c =>
      rintro w r gs rfl takes
      rcases h _ _ _ _ takes with line | mem
      · obtain rfl : c = '\n' := beq_iff_eq.1 line
        exact single (List.mem_append_left _ (List.mem_of_getLast? last))
      · exact single (by simp [mem])

end Linewise

end Pattern

variable {t : Text}

/-- A text of one line that begins with neither white space nor a bracket. -/
structure SolidLine (t : Text) : Prop where
  begins : ∃ c rest, t = c :: rest ∧ isSpace c = false ∧ c ≠ '<'
  single : '\n' ∉ t

theorem OneLine.solid (line : OneLine t) : SolidLine t := by
  obtain ⟨c, rest, rfl, letter⟩ := line.begins
  have other := of_isAlpha (p := fun c => !isSpace c && c != '<') (by decide) letter
  exact ⟨⟨c, rest, rfl, by simpa using other⟩, line.single⟩

theorem OneLine.misses {p : Pattern} (line : OneLine t) (advances : p.Advances)
    (letters : (charsOf letterRanges).all (fun c => !p.mayBegin c) = true) : p.Misses none t := by
  intro w r gs split takes
  obtain ⟨c, rest, rfl, other⟩ := opens_of_begin advances letters takes
  obtain ⟨d, _, e, letter⟩ := line.begins
  obtain ⟨rfl, -⟩ := List.cons.inj (e.symm.trans split)
  rw [other] at letter
  cases letter

namespace Block

theorem underlined_linewise (sign : Char) (tag : Text) : (underlined sign tag).pattern.Linewise := by
  rintro b w r gs ⟨_, _, _, _, rfl, -, ⟨_, _, _, _, rfl, -, ⟨_, _, _, _, rfl, -, -, newline⟩, -⟩, -⟩
  obtain ⟨rfl, -⟩ := takes_literal.1 newline
  exact .inr (by simp)

/-- An underlined line is two lines. -/
theorem underlined_misses {sign : Char} {tag : Text} {b : Option Char} (single : '\n' ∉ t) :
    (underlined sign tag).pattern.Misses b t := by
  rintro w r gs rfl ⟨_, _, _, _, rfl, -, ⟨_, _, _, _, rfl, -, ⟨_, _, _, _, rfl, -, -, newline⟩, -⟩, -⟩
  obtain ⟨rfl, -⟩ := takes_literal.1 newline
  exact single (by simp)

theorem run_linewise (run : LineRun) : run.block.Linewise :=
  (Linewise.textStart.or .newline).append.append.append

theorem equation_misses (h : ¬ "math:" <+: t ∧ ¬ "maths:" <+: t) (line : OneLine t) : equation.pattern.Misses none t := by
  rintro w r gs rfl ⟨_, _, _, _, rfl, -, ⟨_, _, _, _, rfl, -, ⟨_, _, _, _, rfl, -, ⟨_, _, _, _, rfl, -,
    ⟨_, colon, _, _, rfl, -, ⟨_, plural, _, _, rfl, -, ⟨_, math, _, _, rfl, -, ⟨_, gaps, _, _, rfl, -, ⟨rfl, -⟩, hgaps⟩,
    hmath⟩, hplural⟩, hcolon⟩, -⟩, -⟩, -⟩, -⟩
  obtain ⟨rfl, -⟩ := takes_literal.1 hmath
  obtain ⟨rfl, -⟩ := takes_literal.1 hcolon
  obtain ⟨isGap, -⟩ := hgaps
  cases gaps with
  | nil =>
      rcases hplural with hplural | ⟨rfl, -⟩
      · obtain ⟨rfl, -⟩ := takes_literal.1 hplural
        exact h.2 (by simp)
      · exact h.1 (by simp)
  | cons c gaps =>
      obtain ⟨d, _, e, letter⟩ := line.begins
      obtain ⟨rfl, -⟩ := List.cons.inj e
      have gap : (c == ' ' || c == '\t') = true := isGap c List.mem_cons_self
      rw [Bool.or_eq_true, beq_iff_eq, beq_iff_eq] at gap
      rcases gap with rfl | rfl <;> cases letter

theorem rules_linewise : ∀ r ∈ rules, r.pattern.Linewise := by
  simp only [rules, List.forall_mem_cons]
  refine ⟨underlined_linewise _ _, underlined_linewise _ _, ?_, run_linewise quotation, run_linewise code, ?_,
    run_linewise bullets, run_linewise numbered, ?_, by simp⟩
  · exact Linewise.lineStart.append.append.append.append.append.append
  · exact Linewise.lineStart.append.append.append.append.append.append
  · exact Linewise.lineStart.append.append.append.append.append.append.append.append

/-- At the start of a line that begins with a letter and is no equation the rules of blocks find nothing. -/
theorem rules_misses (line : OneLine t) (h : ¬ "math:" <+: t ∧ ¬ "maths:" <+: t) : ∀ r ∈ rules, r.pattern.Misses none t := by
  simp only [rules, List.forall_mem_cons]
  refine ⟨?_, ?_, ?_, ?_, ?_, ?_, ?_, ?_, equation_misses h line, by simp⟩
  · exact underlined_misses line.single
  · exact underlined_misses line.single
  all_goals exact line.misses (.of_passes rfl) (by decide)

/-- The rules of blocks leave one line if they find nothing at its start. -/
theorem rules_apply (single : '\n' ∉ t) (misses : ∀ r ∈ rules, r.pattern.Misses none t) : ∀ r ∈ rules, r.apply t = pure t := by
  have advances : ∀ r ∈ rules, r.pattern.passes = true := by
    rw [← List.all_eq_true]
    rfl
  exact fun r known =>
    Rule.apply_of_passes (.of_passes (advances r known)) ((rules_linewise r known).passes single (misses r known))

/-- What stands in front of a paragraph, and the tag that may not follow it. -/
def paragraphLead : Pattern := textStart ||| "\n" ++ span1 (· == '\n')

def tagStart : Pattern := "<" ++ span1 isWord ++ one fun c => isSpace c || c == '>'

/-- The lines of a paragraph. -/
def paragraphLines : Pattern := many1 (span1 inLine ++ optional ("\n" ++ notFollowedBy (· == '\n')))

theorem paragraphLines_direct : paragraphLines.Direct := by
  have advances : (span1 inLine ++ optional ("\n" ++ notFollowedBy (· == '\n'))).Advances := .of_passes rfl
  have direct : (span1 inLine ++ optional ("\n" ++ notFollowedBy (· == '\n'))).Direct :=
    ⟨direct_span1, ⟨direct_literal, trivial⟩, trivial⟩
  exact ⟨direct, direct, advances⟩

/-- Lines that do not begin with a bracket are found where a paragraph may begin. -/
theorem paragraph_isSome {bound : Nat} {b : Option Char} {lead lines r : Text} {gs : List (Nat × Text)}
    (opens : paragraphLead.Takes b lead (lines ++ r) []) (plain : ∀ c ∈ lines.head?, c ≠ '<')
    (takes : paragraphLines.Takes (lead.getLast?.or b) lines r gs) (inside : (lead ++ (lines ++ r)).length ≤ bound) :
    (paragraph.pattern.matchAt bound 0 b (lead ++ (lines ++ r))).isSome = true := by
  have full : lines ≠ [] := Advances.of_passes (p := paragraphLines) rfl _ _ _ _ takes
  unfold matchAt
  rw [Option.isSome_map]
  refine attempt_isSome paragraphLead ⟨trivial, direct_literal, direct_span1⟩ _ ⟨b, _, 0, []⟩ lead (lines ++ r) []
    rfl inside opens fun raw => ?_
  have stays : (tagStart.attempt bound some (passed ⟨b, lead ++ (lines ++ r), 0, []⟩ lead (lines ++ r) raw)).isSome =
      false := by
    rw [← Bool.not_eq_true, Option.isSome_iff_exists]
    rintro ⟨t, found⟩
    obtain ⟨w, r', gs', split, ⟨_, _, _, _, rfl, -, ⟨_, _, _, _, rfl, -, bracket, -⟩, -⟩, -⟩ :=
      attempt_takes bound _ _ _ _ found
    obtain ⟨rfl, -⟩ := takes_literal.1 bracket
    obtain ⟨c, rest, rfl⟩ := List.exists_cons_of_ne_nil full
    exact plain c rfl (List.cons.inj split).1
  show (if (tagStart.attempt bound some _).isSome == false then _ else none).isSome = true
  rw [stays, beq_self_eq_true, if_pos rfl]
  rw [List.length_append] at inside
  exact attempt_isSome (group 1 paragraphLines) paragraphLines_direct _ _ lines r _ rfl
    (show (lines ++ r).length ≤ bound by omega) ⟨gs, takes, rfl⟩ fun _ => rfl

theorem paragraph_apply (line : SolidLine t) : paragraph.apply t = pure ("\n\n<p>" ++ t ++ "</p>\n\n") := by
  obtain ⟨c, rest, split, -, bracket⟩ := line.begins
  have full : t ≠ [] := split ▸ List.cons_ne_nil _ _
  have inline : ∀ d ∈ t, inLine d = true := by
    intro d hd
    rw [inLine, bne_iff_ne]
    rintro rfl
    exact line.single hd
  have plain : ∀ d ∈ t.head?, d ≠ '<' := by
    rintro d hd rfl
    rw [split] at hd
    exact bracket (Option.some.inj hd)
  have takes : paragraphLines.Takes none t [] [] :=
    ⟨t, [], [], [], by simp, rfl, ⟨t, [], [], [], by simp, rfl, takes_span1.2 ⟨full, inline, by simp, rfl⟩,
      .inr ⟨rfl, rfl⟩⟩, .stop⟩
  have found : (paragraph.pattern.matchAt t.length 0 none ([] ++ (t ++ []))).isSome = true :=
    paragraph_isSome (.inl ⟨rfl, rfl, rfl⟩) plain takes (by simp)
  rw [List.nil_append, List.append_nil, Option.isSome_iff_exists] at found
  obtain ⟨⟨m, n⟩, found⟩ := found
  obtain ⟨whole, first⟩ : m.text = t ∧ m.group 1 = t := by
    obtain ⟨r, split, -, -, _, _, _, _, whole, groups, ⟨lead, _, _, _, rfl, rfl, hlead, rfl, rfl⟩, _,
      ⟨_, later, _, _, rfl, rfl, ⟨words, next, _, _, rfl, rfl, hwords, hnext⟩, hlater⟩, rfl⟩ := matchAt_takes found
    obtain rfl : lead = [] := by
      rcases hlead with ⟨rfl, -⟩ | ⟨_, _, _, _, rfl, -, newline, -⟩
      · rfl
      · obtain ⟨rfl, -⟩ := takes_literal.1 newline
        exact absurd (by simp [split, whole]) line.single
    obtain ⟨-, -, stops, rfl⟩ := takes_span1.1 hwords
    have whole : m.text = words ++ (next ++ later) := by simpa using whole
    -- The first line goes on to the end of the text.
    obtain ⟨nothing, rfl⟩ : next ++ later = [] ∧ r = [] := by
      refine List.append_eq_nil_iff.1 ?_
      cases behind : next ++ later ++ r with
      | nil => rfl
      | cons d rest =>
          have other := stops d (by simp [← List.append_assoc, behind])
          have mem : d ∈ t := by
            rw [split, whole, List.append_assoc, behind]
            simp
          rw [inline d mem] at other
          cases other
    obtain ⟨rfl, rfl⟩ := List.append_eq_nil_iff.1 nothing
    rw [List.append_nil] at split
    refine ⟨split.symm, (Match.group_eq (m := m) groups).trans ?_⟩
    rw [split, whole]
    simp
  have whole_found : paragraph.pattern.matchAt t.length 0 none (t ++ []) = some (m, t.length) := by
    obtain ⟨_, _, rfl, -, -⟩ := matchAt_takes found
    rw [List.append_nil, found, whole]
  have all := Rule.applyFrom_found full whole_found
  rw [List.append_nil, ← Rule.apply_eq, Rule.applyFrom_nil (Advances.of_passes rfl).misses_nil] at all
  rw [all, ← first]
  simp [paragraph, Rule.ofRewrite]

end Block

end LessonText

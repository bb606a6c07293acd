import LessonText.Proofs.Markup.BlockKinds

/-! # The rules of blocks, one after another

Between two rules a document is a draft in which each block either stands as its author wrote it or has been rendered.
Each rule renders the blocks of its kind and leaves the others, and the paragraphs come last.
-/

namespace LessonText.Block

open Draft Pattern Unicode Rule

/-- A block whose rule is among those that are done has been rendered; any other stands as it was. -/
def Standing (done : List Kind) (c : Chunk) (d : Draft) : Prop :=
  (c.kind ∈ done → Rendered c d) ∧ (c.kind ∉ done → d = chars c.source)

theorem Standing.of_rendered {done : List Kind} {c : Chunk} {d : Draft} (listed : c.kind ∈ done) (h : Rendered c d) :
    Standing done c d :=
  ⟨fun _ => h, fun out => absurd listed out⟩

variable {b : Option Char} {t : Text} {c : Chunk} {d : Draft} {k : Nat}

/-! ## Blocks of other kinds -/

/-- Behind the sign of a bullet and a space there is no second sign. -/
theorem signs_miss {sign e : Char} {r : Text} (letter : e.isAlpha = true) :
    (lineStart ++ rulerSign ++ rulerSign).Misses b (sign :: ' ' :: e :: r) := by
  have solid : e ≠ ' ' ∧ anyOf "*_-" e = false := by
    have all := of_isAlpha (p := fun c => c != ' ' && !anyOf "*_-" c) (by decide) letter
    simpa using all
  rintro w u gs split ⟨_, _, _, _, rfl, -, ⟨_, _, _, _, rfl, -, ⟨rfl, -⟩, _, gap, _, _, rfl, -, ⟨c, -, rfl, -⟩, spaces, -⟩,
    _, rest, _, _, rfl, -, ⟨d, sign, rfl, -⟩, -⟩
  have behind : ' ' :: e :: r = gap ++ (d :: (rest ++ u)) := by simpa using (List.cons.inj split).2
  rcases gap with - | ⟨g, - | ⟨g', gap⟩⟩
  · obtain ⟨rfl, -⟩ := List.cons.inj behind
    cases sign
  · obtain ⟨-, behind⟩ := List.cons.inj behind
    obtain ⟨rfl, -⟩ := List.cons.inj behind
    rw [solid.2] at sign
    cases sign
  · obtain ⟨-, behind⟩ := List.cons.inj behind
    obtain ⟨rfl, -⟩ := List.cons.inj behind
    exact solid.1 (beq_iff_eq.1 (spaces e (by simp)))

/-- A bullet and what follows it. -/
theorem Row.bullet (row : Row .bullets) : ∃ sign e r, row.text = sign :: ' ' :: e :: r ∧ e.isAlpha = true := by
  obtain ⟨e, r, split, letter, -⟩ := isPlainLine_cons (row.isPlainLine (by decide))
  have signs : ∀ t ∈ (["* ", "+ ", "- "] : List Text), ∃ sign, t = [sign, ' '] := by
    simp only [List.forall_mem_cons]
    exact ⟨⟨_, rfl⟩, ⟨_, rfl⟩, ⟨_, rfl⟩, nofun⟩
  obtain ⟨sign, start⟩ := signs _ row.begins
  exact ⟨sign, e, r, by rw [Row.text, start, split]; rfl, letter⟩

/-- No line of bullets goes across the page. -/
theorem ruler_skips_bullets {rows : List (Row .bullets)} : Block.ruler.pattern.Skips b (lineEnds k ++ rowsText rows) t := by
  rintro u v split full
  obtain ⟨c, v, rfl⟩ := List.exists_cons_of_ne_nil full
  by_cases newline : c = '\n'
  · subst newline
    exact (Misses.of_begin (.of_passes rfl) rfl).fails
  by_cases start : (u.getLast?.or b).all (· == '\n') = true
  · obtain ⟨_, rest, line, listed⟩ := Text.exists_line (List.forall_mem_map.2 fun row _ => Row.single row) split start newline
    obtain ⟨row, -, rfl⟩ := List.mem_map.1 listed
    obtain ⟨behind, joined⟩ := Text.join_cons "\n" row.text rest
    obtain ⟨sign, e, r, bullet, letter⟩ := row.bullet
    rw [line, joined, bullet]
    exact (signs_miss letter).fails.append.append.append.append
  · have fails : lineStart.Fails (u.getLast?.or b) (c :: v ++ t) := Misses.fails fun w r gs _ takes => start takes.2.1
    exact fails.append.append.append.append.append.append

namespace Kind

/-- Whether no line of a block begins as those do that a rule finds. -/
def skips (k k' : Kind) : Bool := k'.starts.all fun c => !k.finds c

/-- A rule finds nothing in a block of a later kind. Bullets begin with a sign of a line across the page. -/
theorem order_skips : (all ++ [paragraph]).Pairwise fun k k' =>
    k.skips k' = true ∨ k = ruler ∧ k' = listing .bullets := by decide

theorem finds_line : ∀ k ∈ all, k ≠ paragraph ∧ k.finds '\n' = false := by decide

theorem finds_page : ∀ k ∈ all, ('<' :: charsOf letterRanges).all (fun c => !k.finds c) = true := by decide

theorem mem_all {k : Kind} (h : k ≠ paragraph) : k ∈ all := by
  cases k with
  | listing kind => cases kind <;> decide
  | heading | ruler => decide
  | paragraph => exact absurd rfl h

/-- No rule for a kind of blocks finds anything in what a rule has made of a block. -/
theorem passes_rendered {r : Kind} (listed : r ∈ all) (h : Rendered c d) :
    r.rule.pattern.Passes b (lineEnds k ++ text d) t := by
  obtain ⟨ne, newline⟩ := finds_line r listed
  refine (leads ne).passes newline h.led fun c starts => ?_
  obtain ⟨bracket, letters⟩ := List.forall_mem_cons.1 (List.all_eq_true.1 (finds_page r listed))
  rcases Bool.or_eq_true_iff.1 starts with letter | same
  · have all := of_isAlpha (p := fun c => !r.finds c) (List.all_eq_true.2 letters) letter
    simpa using all
  · rw [beq_iff_eq.1 same]
    simpa using bracket

theorem skips_source {r : Kind} (listed : r ∈ all) (h : r.skips c.kind = true ∨ r = ruler ∧ c.kind = listing .bullets) :
    r.rule.pattern.Skips b (lineEnds k ++ c.source) t := by
  rcases h with apart | ⟨rfl, bullets⟩
  · obtain ⟨ne, newline⟩ := finds_line r listed
    refine ((leads ne).passes newline c.led fun e starts => ?_).skips
    have all := List.all_eq_true.1 apart e (by simpa using starts)
    simpa using all
  · cases c with
    | listing kind rows full =>
        obtain rfl : kind = .bullets := by simpa [Chunk.kind] using bullets
        exact ruler_skips_bullets
    | heading | paragraph | ruler => cases bullets

/-- Where lines across the page are looked for, no block begins with white space. Code would, but it comes before. -/
theorem solid {done later : List Kind} (order : all = done ++ ruler :: later) (standing : Standing done c d) :
    ∃ e u, text d = e :: u ∧ isSpace e = false := by
  by_cases rendered : c.kind ∈ done
  · obtain ⟨name, rest, -, -, split⟩ := (standing.1 rendered).begins
    exact ⟨'<', _, split, rfl⟩
  obtain rfl := standing.2 rendered
  have code : c.kind ≠ listing .code := by
    intro code
    have ordered : all.Pairwise fun k k' => k = ruler → k' ≠ listing .code := by decide
    rw [order] at ordered
    have listed : c.kind ∈ done ++ ruler :: later := order ▸ mem_all (by simp [code])
    rw [List.mem_append, List.mem_cons] at listed
    rcases listed with before | here | behind
    · exact rendered before
    · simp [code] at here
    · exact List.rel_of_pairwise_cons (List.pairwise_append.1 ordered).2.1 behind rfl code
  have solid : ∀ k, k ≠ listing .code → k.starts.all notSpace = true := by
    rintro (- | kind | - | -)
    · decide
    · cases kind <;> decide
    · decide
    · decide
  have first := c.led.first
  obtain ⟨e, u, split⟩ := List.exists_cons_of_ne_nil c.led.ne_nil
  rw [split] at first
  refine ⟨e, u, by rw [text_chars, split], ?_⟩
  simpa [notSpace] using List.all_eq_true.1 (solid _ code) e (by simpa using first)

end Kind

/-- The rule for the kind of a block renders it. -/
theorem Chunk.treated {m : Nat} (c : Chunk) (plain : c.kind ≠ .paragraph) (before : Before 1 b k) (enough : t ≠ [] → 2 ≤ m)
    (next : c.kind = .ruler → t = [] ∨ ∃ e u, t = e :: u ∧ isSpace e = false) :
    c.kind.rule.Treated 1 2 Rendered c (chars c.source) b k m t := by
  cases c with
  | heading h => exact h.treated before enough
  | paragraph => exact absurd rfl plain
  | listing kind rows full => exact listing_treated full before enough
  | ruler =>
      refine ruler_treated before ?_
      rcases next rfl with none | ⟨e, u, rfl, solid⟩
      · exact .inl none
      · exact .inr ⟨enough (List.cons_ne_nil _ _), e, u, rfl, solid⟩

namespace Kind

/-- A rule renders the blocks of its kind, and leaves those of the rules before it and behind it. -/
theorem treats {r : Kind} {done later : List Kind} (order : all = done ++ r :: later) :
    r.rule.Treats 1 2 2 (Standing done) (Standing (done ++ [r])) := by
  intro c d b k m t standing before behind
  have listed : r ∈ all := by simp [order]
  have enough : t ≠ [] → 2 ≤ m := fun full => (behind.resolve_left full).1
  have apart : t ≠ [] → 1 ≤ m ∧ 2 ≤ m := fun full => by
    have := enough full
    omega
  by_cases done_ : c.kind ∈ done
  · have rendered := standing.1 done_
    exact .of_skips apart (passes_rendered listed rendered).skips (.of_rendered (List.mem_append_left _ done_) rendered)
  obtain rfl := standing.2 done_
  by_cases here : c.kind = r
  · have now : c.kind ∈ done ++ [r] := by simp [here]
    subst here
    refine Treated.mono (c.treated (finds_line _ listed).1 before enough fun ruler => ?_) fun e => .of_rendered now
    rcases behind with none | ⟨-, c', d', u, standing', rfl⟩
    · exact .inl none
    · obtain ⟨e, v, split, solid⟩ := solid (ruler ▸ order) standing'
      exact .inr ⟨e, v ++ u, by rw [split]; rfl, solid⟩
  · have skips : r.skips c.kind = true ∨ r = ruler ∧ c.kind = listing .bullets := by
      have ordered := order_skips
      rw [order, List.append_assoc] at ordered
      refine List.rel_of_pairwise_cons (List.pairwise_append.1 ordered).2.1 ?_
      by_cases paragraph : c.kind = .paragraph
      · simp [paragraph]
      · have any := mem_all paragraph
        rw [order, List.mem_append, List.mem_cons] at any
        exact List.mem_append_left _ ((any.resolve_left done_).resolve_left here)
    have kept : Standing (done ++ [r]) c (chars c.source) := by
      refine ⟨fun inside => ?_, fun _ => rfl⟩
      rw [List.mem_append, List.mem_singleton] at inside
      tauto
    refine .of_skips apart ?_ kept
    rw [text_chars]
    exact skips_source listed skips

end Kind

/-! ## Underlined lines -/

theorem Chunk.single (c : Chunk) : ∀ l ∈ c.lines, '\n' ∉ l := by
  cases c with
  | heading h => exact List.forall_mem_singleton.2 h.single
  | paragraph lines full => exact List.forall_mem_map.2 fun line _ => line.single
  | listing kind rows full => exact List.forall_mem_map.2 fun row _ => row.single
  | ruler => decide

/-- No line of a block underlines the one before it. -/
theorem Chunk.mixed (c : Chunk) : ∀ l ∈ c.lines.tail, ∃ e ∈ l, e ∉ ("=-" : Text) := by
  have other {e : Char} (letter : e.isAlpha = true) : e ∉ ("=-" : Text) := by
    have all := of_isAlpha (p := fun c => !("=-" : Text).contains c) (by decide) letter
    simpa using all
  cases c with
  | heading | ruler => exact nofun
  | paragraph lines full =>
      intro l listed
      obtain ⟨line, -, rfl⟩ := List.mem_map.1 (List.mem_of_mem_tail listed)
      obtain ⟨e, rest, split, letter, -⟩ := isPlainLine_cons line.plain
      exact ⟨e, by simp [split], other letter⟩
  | listing kind rows full =>
      intro l listed
      obtain ⟨⟨start, contents, begins, allowed⟩, -, rfl⟩ := List.mem_map.1 (List.mem_of_mem_tail listed)
      have space : ' ' ∈ start := by
        cases kind with
        | quotation | code =>
            obtain rfl : start = _ := begins
            decide
        | bullets =>
            have all : ∀ t ∈ (["* ", "+ ", "- "] : List Text), ' ' ∈ t := by decide
            exact all start begins
        | numbered =>
            obtain ⟨digits, -, -, rfl⟩ := begins
            simp
      exact ⟨' ', List.mem_append_left _ space, by decide⟩

theorem underlined_passes {sign : Char} {tag : Text} {m : Nat} (known : sign ∈ ("=-" : Text)) (apart : t ≠ [] → 2 ≤ m) :
    (underlined sign tag).pattern.Passes b (lineEnds k ++ c.source) (lineEnds m ++ t) := by
  rintro x y split full w r gs ahead ⟨_, _, _, _, rfl, -, ⟨_, signs, _, _, rfl, -, ⟨line, _, _, _, rfl, -, ⟨_, first, -⟩,
    newline⟩, second⟩, newline'⟩
  obtain ⟨rfl, -⟩ := takes_literal.1 newline
  obtain ⟨rfl, -⟩ := takes_literal.1 newline'
  obtain ⟨filled, inside, -⟩ := takes_span1.1 first
  obtain ⟨signed, same, -⟩ := takes_span1.1 second
  have single : '\n' ∉ line := fun mem => Bool.false_ne_true (inside _ mem)
  have no_sign {e : Char} (other : e ∉ ("=-" : Text)) : e ∉ signs := by
    intro mem
    obtain rfl : e = sign := beq_iff_eq.1 (same e mem)
    exact other known
  obtain ⟨y, rfl, behind⟩ := within single (fun more => by have := apart more; omega) (show y ++ (lineEnds m ++ t) =
    line ++ ('\n' :: (signs ++ '\n' :: r)) by simpa using ahead)
  obtain ⟨e, line, rfl⟩ := List.exists_cons_of_ne_nil filled
  obtain ⟨u, source⟩ := exists_behind (fun same => single (by simp [same])) split
  cases y with
  | nil =>
      cases m with
      | zero =>
          have rest : t = '\n' :: (signs ++ '\n' :: r) := behind.symm
          exact absurd (apart (by simp [rest])) (by decide)
      | succ m =>
          -- A line end is no sign.
          have next : [] ++ (lineEnds m ++ t) = signs ++ '\n' :: r := (List.cons.inj behind).2.symm
          obtain ⟨z, none, -⟩ := within (no_sign (by decide)) (fun more => by have := apart more; omega) next
          exact signed (List.append_eq_nil_iff.1 none.symm).1
  | cons d y =>
      obtain ⟨rfl, rest⟩ := List.cons.inj behind
      have whole : Text.join "\n" c.lines = (u ++ e :: line) ++ '\n' :: y := by rw [List.append_assoc]; exact source
      obtain ⟨l, lines, rfl, listed⟩ := Text.join_split c.single whole
      obtain ⟨more, joined⟩ := Text.join_cons "\n" l lines
      obtain ⟨e, mem, other⟩ := c.mixed l listed
      have next : signs ++ (lineEnds 1 ++ r) = l ++ (more ++ (lineEnds m ++ t)) := by
        rw [← List.append_assoc l, ← joined]
        exact rest
      obtain ⟨z, rfl, -⟩ := within (c.single l (List.mem_of_mem_tail listed)) (fun _ => Nat.one_ne_zero) next
      exact no_sign other (List.mem_append_left _ mem)

theorem underlined_treats {sign : Char} {tag : Text} (known : sign ∈ ("=-" : Text)) :
    (underlined sign tag).Treats 2 2 2 (Standing []) (Standing []) := by
  intro c d b k m t standing before behind
  have apart : t ≠ [] → 2 ≤ m := fun full => (behind.resolve_left full).1
  refine .of_skips (fun full => ⟨apart full, apart full⟩) (Passes.skips ?_) standing
  rw [standing.2 List.not_mem_nil, text_chars]
  exact underlined_passes known apart

/-! ## Equations -/

/-- The characters before the colon of an equation. -/
def leadsEquation (c : Char) : Bool := isGap c || ("maths" : Text).contains c

theorem equation_takes {w r : Text} {gs : List (Nat × Text)} (h : Block.equation.pattern.Takes b w r gs) :
    b.all (· == '\n') = true ∧ ∃ c v rest, w = c :: v ++ ':' :: rest ∧ ∀ e ∈ c :: v, leadsEquation e = true := by
  obtain ⟨_, tail, _, _, rfl, -, ⟨_, gaps', _, _, rfl, -, ⟨_, body, _, _, rfl, -, ⟨_, gaps, _, _, rfl, -, ⟨_, colon, _, _,
    rfl, -, ⟨_, plural, _, _, rfl, -, ⟨_, math, _, _, rfl, -, ⟨_, indent, _, _, rfl, -, ⟨rfl, start, -⟩, indented, -⟩,
    hmath⟩, hplural⟩, hcolon⟩, -⟩, -⟩, -⟩, -⟩ := h
  obtain ⟨rfl, -⟩ := takes_literal.1 hmath
  obtain ⟨rfl, -⟩ := takes_literal.1 hcolon
  refine ⟨start, ?_⟩
  have word : ∀ e ∈ plural, e ∈ ("maths" : Text) := by
    rcases hplural with hplural | ⟨rfl, -⟩
    · obtain ⟨rfl, -⟩ := takes_literal.1 hplural
      decide
    · exact nofun
  have led : ∀ e ∈ indent ++ ("math" ++ plural : Text), leadsEquation e = true := by
    have letters : ∀ e ∈ ("math" : Text), e ∈ ("maths" : Text) := by decide
    simp only [List.forall_mem_append]
    refine ⟨fun e he => Bool.or_eq_true_iff.2 (.inl (indented e he)), fun e he => ?_, fun e he => ?_⟩
    · exact Bool.or_eq_true_iff.2 (.inr (List.contains_iff_mem.2 (letters e he)))
    · exact Bool.or_eq_true_iff.2 (.inr (List.contains_iff_mem.2 (word e he)))
  obtain ⟨c, v, split⟩ := List.exists_cons_of_ne_nil (show indent ++ ("math" ++ plural : Text) ≠ [] by simp)
  refine ⟨c, v, gaps ++ (body ++ (gaps' ++ tail)), ?_, split ▸ led⟩
  rw [← split]
  simp

/-- Without a colon there is no equation. -/
theorem equation_passes {x : Text} {m : Nat} (none : ':' ∉ x) (apart : t ≠ [] → 2 ≤ m) :
    Block.equation.pattern.Passes b (lineEnds k ++ x) (lineEnds m ++ t) := by
  rintro u y split full w r gs ahead takes
  obtain ⟨-, c, v, rest, rfl, led⟩ := equation_takes takes
  have single : '\n' ∉ c :: v := fun mem => Bool.false_ne_true (led _ mem)
  obtain ⟨z, rfl, behind⟩ := within single (fun more => by have := apart more; omega) (show y ++ (lineEnds m ++ t) =
    c :: v ++ (':' :: (rest ++ r)) by simpa using ahead)
  obtain ⟨a, source⟩ := exists_behind (fun same => single (by simp [same])) split
  cases z with
  | cons e z =>
      obtain ⟨rfl, -⟩ := List.cons.inj behind
      exact none (by simp [source])
  | nil =>
      cases m with
      | zero =>
          have rest : t = ':' :: (rest ++ r) := behind.symm
          exact absurd (apart (by simp [rest])) (by decide)
      | succ m => cases (List.cons.inj behind).1

theorem equation_leads : Block.equation.pattern.Leads leadsEquation := by
  intro b w r gs takes
  obtain ⟨start, c, v, rest, rfl, led⟩ := equation_takes takes
  exact ⟨c, v ++ ':' :: rest, led c List.mem_cons_self, .inl ⟨start, rfl⟩⟩

theorem colon_not_mem {lines : List PlainLine} : ':' ∉ linesText lines := by
  intro mem
  rcases Text.mem_join mem with newline | ⟨_, listed, mem⟩
  · cases List.mem_singleton.1 newline
  · obtain ⟨line, -, rfl⟩ := List.mem_map.1 listed
    obtain ⟨-, -, -, -, plain⟩ := isPlainLine_cons line.plain
    exact Bool.false_ne_true (List.all_eq_true.1 plain _ mem)

/-- A block that the rules for the kinds leave is a paragraph. -/
theorem Chunk.paragraph_of_not_mem (h : c.kind ∉ Kind.all) : ∃ lines full, c = .paragraph lines full := by
  cases c with
  | paragraph lines full => exact ⟨lines, full, rfl⟩
  | heading | listing | ruler => exact absurd (Kind.mem_all (by simp [Chunk.kind])) h

theorem equation_treats : Block.equation.Treats 2 2 2 (Standing Kind.all) (Standing Kind.all) := by
  intro c d b k m t standing before behind
  have apart : t ≠ [] → 2 ≤ m := fun full => (behind.resolve_left full).1
  refine .of_skips (fun full => ⟨apart full, apart full⟩) (Passes.skips ?_) standing
  by_cases listed : c.kind ∈ Kind.all
  · have rendered := standing.1 listed
    rcases rendered.line with unkeyed | single
    · refine equation_passes (fun mem => rendered.page.unmarked.2 ?_) apart
      rw [eq_chars unkeyed]
      exact List.mem_map_of_mem mem
    · obtain ⟨name, rest, -, -, split⟩ := rendered.begins
      have led : Led (· == '<') (text d) := .of_single (by rw [split]; rfl) single
      exact equation_leads.passes rfl led fun e same => by rw [beq_iff_eq.1 same]; rfl
  · obtain rfl := standing.2 listed
    obtain ⟨lines, full, rfl⟩ := Chunk.paragraph_of_not_mem listed
    rw [text_chars]
    exact equation_passes colon_not_mem apart

/-! ## Paragraphs around what is left -/

/-- Where a tag begins there are no lines of a paragraph. -/
theorem paragraph_fails_tag (h : Rendered c d) :
    (notAhead tagStart ++ group 1 paragraphLines).Fails b (text d ++ t) := by
  obtain ⟨name, rest, named, word, split⟩ := h.begins
  have reads : tagStart.Reads b ("<" ++ name ++ ">") (rest ++ t) [] := by
    have opened : (literal "<".toList).Reads b "<" (name ++ ('>' :: (rest ++ t))) [] := .literal _
    have inside {b : Option Char} : (span1 isWord).Reads b name ('>' :: (rest ++ t)) [] :=
      .span1 named word (by rintro _ ⟨⟩; decide)
    have closed {b : Option Char} : (one fun c => isSpace c || c == '>').Reads b ['>'] (rest ++ t) [] := .one rfl
    exact (opened.append inside).append closed
  have fails := reads.ahead_fails.append (q := group 1 paragraphLines)
  have same : "<" ++ name ++ ">" ++ (rest ++ t) = text d ++ t := by
    rw [split]
    simp
  rwa [same] at fails

theorem paragraph_fails_newline {x : Text} : (notAhead tagStart ++ group 1 paragraphLines).Fails b ('\n' :: x) :=
  Misses.fails (.of_begin (.of_passes rfl) rfl)

theorem paragraphLead_takes {w r : Text} {gs : List (Nat × Text)} (h : paragraphLead.Takes b w r gs) :
    b = none ∧ w = [] ∨ (∃ n, w = lineEnds (n + 2)) ∧ ∀ c ∈ r.head?, c ≠ '\n' := by
  rcases h with ⟨rfl, start, -⟩ | ⟨_, ends, _, _, rfl, -, newline, more⟩
  · exact .inl ⟨Option.isNone_iff_eq_none.1 start, rfl⟩
  · obtain ⟨rfl, -⟩ := takes_literal.1 newline
    obtain ⟨full, same, stops, -⟩ := takes_span1.1 more
    obtain ⟨c, ends, rfl⟩ := List.exists_cons_of_ne_nil full
    have whole : c :: ends = lineEnds (ends.length + 1) :=
      List.eq_replicate_of_mem fun e he => beq_iff_eq.1 (same e he)
    refine .inr ⟨⟨ends.length, ?_⟩, fun e he => ?_⟩
    · rw [whole]
      rfl
    · have other := stops e he
      simpa using other

/-- Behind any line ends before a tag there are no lines of a paragraph. -/
theorem paragraph_fails_before (h : Rendered c d) {z w r : Text} {gs : List (Nat × Text)} (ends : ∀ e ∈ z, e = '\n')
    (ahead : z ++ (text d ++ t) = w ++ r) (takes : paragraphLead.Takes b w r gs) :
    (notAhead tagStart ++ group 1 paragraphLines).Fails (w.getLast?.or b) r := by
  rcases paragraphLead_takes takes with ⟨-, rfl⟩ | ⟨⟨n, rfl⟩, stops⟩
  · rw [← show _ = r from ahead]
    cases z with
    | nil => exact paragraph_fails_tag h
    | cons e z =>
        rw [ends e List.mem_cons_self]
        exact paragraph_fails_newline
  · have bracket : ∀ e ∈ (text d ++ t).head?, (e == '\n') = false := by
      obtain ⟨name, rest, -, -, begins⟩ := h.begins
      rw [begins]
      rintro _ ⟨⟩
      rfl
    obtain rfl : z = lineEnds (n + 2) := eq_of_runs (· == '\n') ahead (fun e he => beq_iff_eq.2 (ends e he)) bracket
      (fun e he => beq_iff_eq.2 (eq_newline he)) fun e he => beq_false_of_ne (stops e he)
    rw [← List.append_cancel_left ahead]
    exact paragraph_fails_tag h

/-- Paragraphs are not looked for in blocks that have been rendered. -/
theorem paragraph_skips (h : Rendered c d) : Block.paragraph.pattern.Skips b (lineEnds k ++ text d) t := by
  rintro u v split full
  have lead : ∀ w r gs, v ++ t = w ++ r → paragraphLead.Takes (u.getLast?.or b) w r gs →
      (notAhead tagStart ++ group 1 paragraphLines).Fails (w.getLast?.or (u.getLast?.or b)) r := by
    intro w r gs ahead takes
    rcases List.append_eq_append_iff.1 split with ⟨a, rfl, behind⟩ | ⟨z, ends, rfl⟩
    · rcases List.eq_nil_or_concat' a with rfl | ⟨a, e, rfl⟩
      · rw [← show text d = v from behind] at ahead
        exact paragraph_fails_before h (z := []) (by simp) ahead takes
      -- Inside a block there is no empty line.
      rcases paragraphLead_takes takes with ⟨none, -⟩ | ⟨⟨n, rfl⟩, -⟩
      · rw [← List.append_assoc, List.getLast?_concat] at none
        cases none
      · obtain ⟨c, v, rfl⟩ := List.exists_cons_of_ne_nil full
        obtain ⟨rfl, more⟩ := List.cons.inj ahead
        cases v with
        | nil => exact absurd (by rw [behind, List.getLast?_concat]) h.led.last
        | cons c v =>
            obtain ⟨rfl, -⟩ := List.cons.inj more
            cases List.isChain_iff_forall_rel_of_append_cons_cons.1 h.led.later behind rfl
    · rw [List.append_assoc] at ahead
      exact paragraph_fails_before h (fun e he => eq_newline (k := k) (by rw [ends]; simp [he])) ahead takes
  have fails : (paragraphLead ++ (notAhead tagStart ++ group 1 paragraphLines)).Fails (u.getLast?.or b) (v ++ t) :=
    .behind lead
  exact fails

theorem paragraph_treats : Block.paragraph.Treats 2 2 2 (Standing Kind.all) Rendered := by
  intro c d b k m t standing before behind
  have apart : t ≠ [] → 2 ≤ m := fun full => (behind.resolve_left full).1
  by_cases listed : c.kind ∈ Kind.all
  · have rendered := standing.1 listed
    exact .of_skips (fun full => ⟨apart full, apart full⟩) (paragraph_skips rendered) rendered
  · obtain rfl := standing.2 listed
    obtain ⟨lines, full, rfl⟩ := Chunk.paragraph_of_not_mem listed
    exact paragraph_treated full before apart

/-- In line ends alone there is no line of a paragraph. -/
theorem paragraph_passes_ends : Block.paragraph.pattern.Passes b (lineEnds k) [] := by
  rintro x y split - w r gs ahead ⟨w₁, w₂, _, _, rfl, -, -, lines⟩
  have advances : (group 1 paragraphLines).Advances := .of_passes rfl
  obtain ⟨c, w₂, rfl⟩ := List.exists_cons_of_ne_nil (advances _ _ _ _ lines)
  have inside := lines.mayBegin
  have whole : lineEnds k = x ++ (w₁ ++ c :: w₂ ++ r) := by rw [split, ← ahead, List.append_nil]
  rw [eq_newline (c := c) (k := k) (by rw [whole]; simp)] at inside
  exact absurd inside (by decide)

/-! ## The rules in order -/

/-- Line ends at the end of a text stay if the rule finds nothing in them. -/
theorem ends_stay {r : Rule} (passes : r.pattern.Passes b (lineEnds k) []) :
    r.Makes b (lineEnds k) [] [] fun d => ∃ m, d = chars (lineEnds m) :=
  (Makes.stays passes).mono fun _ same => ⟨k, same⟩

theorem Standing.text_ne_nil {done : List Kind} (h : Standing done c d) : text d ≠ [] := by
  by_cases rendered : c.kind ∈ done
  · exact (h.1 rendered).led.ne_nil
  · rw [h.2 rendered, text_chars]
    exact c.led.ne_nil

theorem Kind.rules_turn {chunks : List Chunk} {later : List Kind} : ∀ {done : List Kind} {d : Draft},
    all = done ++ later → Apart 2 (Standing done) chunks d →
    Turns ((later.map rule).foldlM (fun t r => r.apply t) (text d)) (wards d) (Apart 2 (Standing all) chunks) := by
  induction later with
  | nil =>
      intro done d order apart
      rw [List.append_nil] at order
      exact .pure (order ▸ apart)
  | cons r later ih =>
      intro done d order apart
      have listed : r ∈ all := by simp [order]
      have advances : r.rule.pattern.Advances := by
        cases r with
        | listing kind => cases kind <;> exact .of_passes rfl
        | heading | ruler | paragraph => exact .of_passes rfl
      obtain ⟨ne, newline⟩ := finds_line r listed
      have turned := apart.turns advances (treats order) (by decide) (fun _ _ => Standing.text_ne_nil)
        fun b k => ends_stay ((leads ne).passes_lineEnds newline nofun)
      rw [List.map_cons, List.foldlM_cons]
      exact turned.andThen fun d' apart' => ih (by rw [order, List.append_assoc]; rfl) apart'

/-- The rules before paragraphs render all other blocks. -/
theorem rules_turn {chunks : List Chunk} {d : Draft} (h : Apart 2 (Standing []) chunks d) :
    Turns (rules.foldlM (fun t r => r.apply t) (text d)) (wards d) (Apart 2 (Standing Kind.all) chunks) := by
  have step {r : Rule} {done : List Kind} {d : Draft} (h : Apart 2 (Standing done) chunks d) (advances : r.pattern.Advances)
      (treats : r.Treats 2 2 2 (Standing done) (Standing done)) (newline : r.pattern.mayBegin '\n' = false) :
      Turns (r.apply (text d)) (wards d) (Apart 2 (Standing done) chunks) :=
    h.turns advances treats (by decide) (fun _ _ => Standing.text_ne_nil) fun b k =>
      ends_stay (.of_begin advances fun c hc => by rwa [eq_newline hc])
  have underlines : Turns ([underlined '=' "h1", underlined '-' "h2"].foldlM (fun t r => r.apply t) (text d)) (wards d)
      (Apart 2 (Standing []) chunks) := by
    rw [List.foldlM_cons]
    refine (step h (.of_passes rfl) (underlined_treats (by decide)) rfl).andThen fun d h => ?_
    rw [List.foldlM_cons]
    exact (step h (.of_passes rfl) (underlined_treats (by decide)) rfl).andThen fun d h => .pure h
  have equations {d : Draft} (h : Apart 2 (Standing Kind.all) chunks d) :
      Turns ([equation].foldlM (fun t r => r.apply t) (text d)) (wards d) (Apart 2 (Standing Kind.all) chunks) := by
    rw [List.foldlM_cons]
    exact (step h (.of_passes rfl) equation_treats rfl).andThen fun d h => .pure h
  rw [Kind.rules_eq]
  exact (underlines.foldlM_append fun d h => Kind.rules_turn (List.nil_append _).symm h).foldlM_append fun d h => equations h

end LessonText.Block

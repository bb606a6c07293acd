import LessonText.Proofs.Markup.EquationEntities

/-! # What the page shows of an equation

Each rewrite takes one style to the next, or leaves it. So an equation of the grammar is shown part by part.
-/

namespace LessonText

namespace Maths

open Pattern Unicode

variable {r : Rewrite} {b : Option Char} {s c : Char} {t x : Text} {e : Equation}

/-! ## Letters and digits -/

/-- Numbers in their mathematical form. -/
def numbers (t : Text) : Text := if t.all Char.isDigit then t.map symbol else t

theorem numbers_digits {y : Text} (digits : ∀ c ∈ y, c.isDigit = true) : numbers y = y.map symbol :=
  if_pos (List.all_eq_true.2 digits)

theorem numbers_letters {y : Text} (full : y ≠ []) (letters : ∀ c ∈ y, c.isAlpha = true) : numbers y = y := by
  obtain ⟨c, y, rfl⟩ := List.exists_cons_of_ne_nil full
  refine if_neg fun digits => ?_
  have other := not_isAlpha_of_isDigit (List.all_eq_true.1 digits c List.mem_cons_self)
  rw [letters c List.mem_cons_self] at other
  cases other

theorem digits_apply (e : Equation) :
    Rewrite.apply ⟨span1 Char.isDigit, fun m => m.text.map symbol⟩ ((Style.flat id Op.entity).write e) =
      (Style.flat numbers Op.entity).write e := by
  have advances : (span1 Char.isDigit).Advances := .of_passes rfl
  have mark : ∀ c ∈ ("_^/ " : Text), c.isDigit = false := by decide
  have stays {w t : Text} (other : ∀ c ∈ w, c.isDigit = false) {b : Option Char} :
      Rewrite.Writes ⟨span1 Char.isDigit, fun m => m.text.map symbol⟩ b w t w :=
    .stays (.of_begin advances fun c hc => by simp [span1, other c hc])
  refine (Style.flat_writes (fun y b t _ ends => ?_) (fun c hc y b t _ => stays ?_)
    (fun o y b t _ => stays ?_) e).apply advances
  · rcases y.isBase.2 with digits | ⟨letters, -⟩
    · rw [numbers_digits digits]
      exact .becomes y.isBase.1 (.span1 y.isBase.1 digits fun c hc => mark c (ends c hc))
    · rw [numbers_letters y.isBase.1 letters]
      refine stays fun c hc => ?_
      by_contra digit
      have other := not_isAlpha_of_isDigit (by simpa using digit)
      rw [letters c hc] at other
      cases other
  · exact List.forall_mem_singleton.2 (mark c (Style.ends_of_mark c hc))
  · cases o <;> decide

def letterRewrite : Rewrite :=
  ⟨notPrecededBy (fun c => c.isAlpha || c == '&') ++ span1 Char.isAlpha ++ notAhead (span Char.isAlpha ++ ";"),
    fun m => m.text.map symbol⟩

theorem letterRewrite_ofWords : OfWords letterRewrite.pattern := by
  rintro b w z gs ⟨_, _, _, _, rfl, -, ⟨_, _, _, _, rfl, -, ⟨rfl, before, -⟩, word⟩, ⟨rfl, -⟩⟩
  obtain ⟨full, letters, -⟩ := takes_span1.1 word
  obtain ⟨c, v, rfl⟩ := List.exists_cons_of_ne_nil full
  refine ⟨?_, c, v, by simp, letters c List.mem_cons_self⟩
  rintro c rfl
  simpa using before

theorem letters_reads {v : Text} (before : ∀ c ∈ b, c ∈ ("_^/ " : Text)) (full : v ≠ []) (letters : ∀ c ∈ v, c.isAlpha = true)
    (ends : Style.Ends t) : letterRewrite.pattern.Reads b v t [] := by
  have mark : ∀ c ∈ ("_^/ " : Text), c.isAlpha = false ∧ c ≠ '&' ∧ c ≠ ';' := by decide
  have start : (notPrecededBy fun c => c.isAlpha || c == '&').Reads b [] (v ++ t) [] := by
    refine .place ?_
    cases b with
    | none => rfl
    | some c => simp [(mark c (before c rfl)).1, (mark c (before c rfl)).2.1]
  have word {b : Option Char} : (span1 Char.isAlpha).Reads b v t [] := .span1 full letters fun c hc => (mark c (ends c hc)).1
  have noEntity {b : Option Char} : (span Char.isAlpha ++ ";").Misses b t := by
    rintro _ z gs rfl ⟨u, _, _, _, rfl, -, inside, stop⟩
    obtain ⟨rfl, -⟩ := takes_literal.1 stop
    cases u with
    | nil => exact (mark ';' (ends ';' rfl)).2.2 rfl
    | cons c u =>
        have letter := inside.1 c List.mem_cons_self
        rw [(mark c (ends c rfl)).1] at letter
        cases letter
  have all := (start.append word).append (.notAhead noEntity.fails)
  rwa [List.append_nil] at all

theorem letters_apply (e : Equation) :
    letterRewrite.apply ((Style.flat numbers Op.entity).write e) = (Style.flat (List.map symbol) Op.entity).write e := by
  have words := letterRewrite_ofWords
  have advances : letterRewrite.pattern.Advances := .of_passes rfl
  refine (Style.flat_writes (fun y b t before ends => ?_) (fun c hc y b t _ => .stays (words.passes_of_forall ?_))
    (fun o y b t _ => .stays (words.passes (words.misses ?_) ?_)) e).apply advances
  · rcases y.isBase.2 with digits | ⟨letters, -⟩
    · rw [numbers_digits digits]
      exact .stays (words.passes_of_forall fun c hc => (Bool.or_eq_false_iff.1 (y.isSymbol c hc).plain.2.1).1)
    · rw [numbers_letters y.isBase.1 letters]
      exact .becomes y.isBase.1 (letters_reads before y.isBase.1 letters ends)
  · exact List.forall_mem_singleton.2 (not_isAlpha_of_mark c (.inl (Style.ends_of_mark c hc)))
  · rintro _ ⟨⟩
    rfl
  · cases o <;> decide

/-! ## Fractions -/

/-- The longest beginning of a text with characters of a class is one. -/
theorem span_eq {f : Char → Bool} {v w z : Text} (split : v ++ t = w ++ z) (hv : ∀ c ∈ v, f c = true)
    (ht : ∀ c ∈ t.head?, f c = false) (hw : ∀ c ∈ w, f c = true) (hz : ∀ c ∈ z.head?, f c = false) : v = w ∧ t = z := by
  rcases List.append_eq_append_iff.1 split with ⟨x, rfl, behind⟩ | ⟨x, rfl, behind⟩
  · cases x with
    | nil => exact ⟨(List.append_nil v).symm, behind⟩
    | cons c x =>
        have inside := hw c (by simp)
        rw [ht c (by rw [behind]; rfl)] at inside
        cases inside
  · cases x with
    | nil => exact ⟨List.append_nil w, behind.symm⟩
    | cons c x =>
        have inside := hv c (by simp)
        rw [hz c (by rw [behind]; rfl)] at inside
        cases inside

theorem operand_reads {cls : Char → Bool} {v : Text} (full : v ≠ []) (inside : ∀ c ∈ v, cls c = true ∧ c ≠ '(')
    (stop : ∀ c ∈ t.head?, cls c = false) : (operand cls).Reads b v t [] := by
  have noBracket : (literal "(".toList).Misses b (v ++ t) := by
    refine misses_literal ?_
    rintro ⟨z, begins⟩
    obtain ⟨c, v, rfl⟩ := List.exists_cons_of_ne_nil full
    exact (inside c List.mem_cons_self).2 (List.cons.inj begins).1.symm
  exact .or_right noBracket.fails.append.append (.span1 full (fun c hc => (inside c hc).1) stop)

theorem operand_takes {cls : Char → Bool} {w z : Text} {gs : List (Nat × Text)} (h : (operand cls).Takes b w z gs)
    (first : ∀ c ∈ (w ++ z).head?, c ≠ '(') : w ≠ [] ∧ (∀ c ∈ w, cls c = true) ∧ ∀ c ∈ z.head?, cls c = false := by
  rcases takes_or.1 h with ⟨_, _, _, _, rfl, -, ⟨_, _, _, _, rfl, -, bracket, -⟩, -⟩ | span
  · obtain ⟨rfl, -⟩ := takes_literal.1 bracket
    exact absurd rfl (first '(' rfl)
  · obtain ⟨full, inside, stop, -⟩ := takes_span1.1 span
    exact ⟨full, inside, stop⟩

/-- A fraction, with space around its bar. -/
def fractionRewrite : Rewrite :=
  ⟨group 1 fractionPart ++ spaced "/" ++ group 2 fractionPart, fun m =>
    "<table><tr><td>" ++ m.group 1 ++ "</td></tr><tr><td>" ++ m.group 2 ++ "</td></tr></table>"⟩

/-- A character of an operand that is not in brackets. -/
def InOperand (c : Char) : Prop := (!isSpace c && c != '/') = true ∧ c ≠ '('

instance : DecidablePred InOperand := fun _ => inferInstanceAs (Decidable (_ ∧ _))

/-- A word is no part of a fraction if no bar follows. -/
theorem fraction_passes (inside : ∀ c ∈ x, InOperand c)
    (next : t = [] ∨ ∃ c u, t = ' ' :: c :: u ∧ isSpace c = false ∧ c ≠ '/') : fractionRewrite.pattern.Passes b x t := by
  rintro u v rfl full w z gs ahead ⟨_, w₃, _, _, rfl, -, ⟨w₁, w₂, _, _, rfl, -, ⟨_, part, -⟩, bar⟩, -⟩
  rw [List.append_assoc, List.append_assoc] at ahead
  have word : ∀ c ∈ v, InOperand c := fun c hc => inside c (List.mem_append_right u hc)
  have first : ∀ c ∈ (v ++ t).head?, c ≠ '(' := by
    rw [List.head?_append_of_ne_nil _ full]
    exact fun c hc => (word c (List.mem_of_mem_head? hc)).2
  obtain ⟨-, taken, stop⟩ := operand_takes part (by rwa [← ahead])
  have behind : ∀ c ∈ t.head?, (!isSpace c && c != '/') = false := by
    rcases next with rfl | ⟨d, u, rfl, -⟩
    · nofun
    · rintro _ ⟨⟩
      rfl
  -- the operand is the rest of the word, so the bar would have to stand behind it
  obtain ⟨-, split⟩ := span_eq ahead (fun c hc => (word c hc).1) behind taken stop
  have unbarred {b : Option Char} : (spaced "/").Misses b t := by
    rcases next with rfl | ⟨d, u, rfl, solid, other⟩
    · exact Advances.misses_nil (.of_passes rfl)
    · refine (spaced_passes (x := " ") (t := d :: u) (by decide) ?_).misses
      rintro _ ⟨⟩
      exact ⟨solid, other⟩
  exact unbarred _ _ _ split bar

theorem IsSymbol.inOperand (h : IsSymbol c) : InOperand c := by
  refine ⟨?_, h.ne (by decide)⟩
  rw [h.plain.1, Bool.not_false, Bool.true_and, bne_iff_ne]
  exact h.ne (by decide)

theorem atom_operand (a : Atom) : (Style.flat (List.map symbol) Op.entity).atom a ≠ [] ∧
    ∀ c ∈ (Style.flat (List.map symbol) Op.entity).atom a, InOperand c := by
  have full : a.base.text.map symbol ≠ [] := by simpa using a.base.isBase.1
  have marked {s : Char} (mark : InOperand s) : ∀ t : Text, (∀ c ∈ t, InOperand c) → ∀ c ∈ s :: t, InOperand c :=
    fun t inside => List.forall_mem_cons.2 ⟨mark, inside⟩
  exact ⟨List.append_ne_nil_of_left_ne_nil full _, Style.forall_atom (fun y c hc => (y.isSymbol c hc).inOperand)
    (marked (s := '_') (by decide)) (marked (s := '^') (by decide)) a⟩

theorem fraction_reads {v w : Text} (hv : v ≠ [] ∧ ∀ c ∈ v, InOperand c) (hw : w ≠ [] ∧ ∀ c ∈ w, InOperand c)
    (stop : ∀ c ∈ t.head?, (!isSpace c && c != '/') = false) :
    fractionRewrite.pattern.Reads b (v ++ "/" ++ w) t [(2, w), (1, v)] := by
  have part {v t : Text} (h : v ≠ [] ∧ ∀ c ∈ v, InOperand c) (stop : ∀ c ∈ t.head?, (!isSpace c && c != '/') = false)
      (i : Nat) {b : Option Char} : (group i fractionPart).Reads b v t [(i, v)] := .group (operand_reads h.1 h.2 stop)
  have solid : ∀ c ∈ (w ++ t).head?, isSpace c = false := by
    rw [List.head?_append_of_ne_nil _ hw.1]
    exact fun c hc => by simpa using (Bool.and_eq_true_iff.1 (hw.2 c (List.mem_of_mem_head? hc)).1).1
  have bar {b : Option Char} : (spaced "/").Reads b "/" (w ++ t) [] :=
    spaced_reads (u := []) (w := []) nofun (by rintro _ ⟨⟩; rfl) (.literal _) nofun solid
  have first {u : Text} : ∀ c ∈ ("/" ++ u : Text).head?, (!isSpace c && c != '/') = false := by
    rintro _ ⟨⟩
    rfl
  exact ((part hv first 1).append bar).append (part hw stop 2)

theorem fraction_replace (x v w : Text) : fractionRewrite.replace ⟨x, [(2, w), (1, v)]⟩ =
    "<table><tr><td>" ++ (v ++ ("</td></tr><tr><td>" ++ (w ++ "</td></tr></table>"))) := by
  simp only [fractionRewrite, List.append_assoc]
  rfl

theorem fraction_apply (e : Equation) : fractionRewrite.apply ((Style.flat (List.map symbol) Op.entity).write e) =
    (Style.stacked (fun t => "_" ++ t) (fun t => "^" ++ t) " ").write e := by
  have advances : fractionRewrite.pattern.Advances := .of_passes rfl
  refine (Style.writes (fun x b t _ follows => ?_) (fun o x b t follows => ?_) e).apply advances
  · cases x with
    | atom a =>
        refine .stays (fraction_passes (atom_operand a).2 (follows.imp_right ?_))
        rintro ⟨o, x, u, rfl⟩
        obtain ⟨c, v, begins, listed⟩ := o.entity_cons
        have other : ∀ c ∈ ("+&" : Text), isSpace c = false ∧ c ≠ '/' := by decide
        have sign : " " ++ (o.entity ++ " ") = ' ' :: c :: (v ++ " ") := by
          rw [begins]
          rfl
        exact ⟨c, _, congrArg (· ++ _) sign, other c listed⟩
    | fraction above below =>
        have stop : ∀ c ∈ t.head?, (!isSpace c && c != '/') = false := by
          rcases follows with rfl | ⟨o, x, u, rfl⟩
          · nofun
          · rintro _ ⟨⟩
            rfl
        have reads := fraction_reads (b := b) (atom_operand above) (atom_operand below) stop
        have written := Rewrite.Writes.becomes (r := fractionRewrite) (by simp) reads
        rw [fraction_replace, List.append_assoc] at written
        exact written
  · obtain ⟨y, u, split, -⟩ := Style.exists_term _ _ x (Style.Ends.follows follows)
    obtain ⟨c, v, begins⟩ := List.exists_cons_of_ne_nil y.isBase.1
    have symbol := y.isSymbol (symbol c) (by simp [begins])
    rw [split, begins]
    have space {b : Option Char} {t : Text} : fractionRewrite.Writes b " " t " " :=
      .stays (.of_begin advances (List.forall_mem_singleton.2 rfl))
    refine space.append (.append (.stays (fraction_passes ?_ (.inr ⟨_, _, rfl, symbol.plain.1, symbol.ne (by decide)⟩))) space)
    cases o <;> decide

/-! ## Indices and powers -/

/-- An operand behind a sign is put between tags. -/
def shiftRewrite (s : Char) (opening closing : Text) : Rewrite :=
  ⟨shifted (literal [s]), fun m => opening ++ m.group 1 ++ closing⟩

section Shifted

variable {opening closing : Text}

theorem shift_advances : (shiftRewrite s opening closing).pattern.Advances := .of_passes rfl

theorem shift_stays (solid : ∀ c ∈ x, isSpace c = false ∧ c ≠ s) : (shiftRewrite s opening closing).Writes b x t x := by
  have advances : (spaced (literal [s])).Advances := .of_passes rfl
  exact .stays (.before (.of_begin advances fun c hc => spaced_mayBegin (solid c hc).1 (solid c hc).2))

theorem shift_becomes {v : Text} (solid : isSpace s = false) (full : v ≠ []) (symbols : ∀ c ∈ v, IsSymbol c)
    (closes : Style.Closes t) : (shiftRewrite s opening closing).Writes b (s :: v) t (opening ++ (v ++ closing)) := by
  have next : ∀ c ∈ (v ++ t).head?, isSpace c = false := by
    rw [List.head?_append_of_ne_nil _ full]
    exact fun c hc => (symbols c (List.mem_of_mem_head? hc)).plain.1
  have sign : (spaced (literal [s])).Reads b [s] (v ++ t) [] :=
    spaced_reads (u := []) (w := []) nofun (by rintro _ ⟨⟩; exact solid) (.literal _) nofun next
  have inside : ∀ c ∈ v, (!isSpace c && c != ')' && c != '<') = true ∧ c ≠ '(' := fun c hc => by
    have h := symbols c hc
    simp [h.plain.1, h.ne (d := ')') (by decide), h.ne (d := '<') (by decide), h.ne (d := '(') (by decide)]
  have stop : ∀ c ∈ (" <" : Text), (!isSpace c && c != ')' && c != '<') = false := by decide
  have operand {b : Option Char} := (operand_reads (b := b) full inside fun c hc => stop c (closes c hc)).group (i := 1)
  have written := Rewrite.Writes.becomes (r := shiftRewrite s opening closing) (List.cons_ne_nil _ _) (sign.append operand)
  rw [← List.append_assoc]
  exact written

/-- The rewrite of one sign takes fractions in tables to fractions in tables. -/
theorem shift_apply (mark : s ∈ ("_^" : Text)) {lowered raised lowered' raised' : Text → Text}
    (indices : ∀ (y : Base) (z : Option Base) b t, Style.Closes t → (shiftRewrite s opening closing).Writes b
      (lowered (y.text.map symbol)) ((Style.stacked lowered raised " ").power z ++ t) (lowered' (y.text.map symbol)))
    (powers : ∀ (y : Base) b t, Style.Closes t →
      (shiftRewrite s opening closing).Writes b (raised (y.text.map symbol)) t (raised' (y.text.map symbol)))
    (e : Equation) : (shiftRewrite s opening closing).apply ((Style.stacked lowered raised " ").write e) =
      (Style.stacked lowered' raised' " ").write e := by
  have other : ∀ s ∈ ("_^" : Text), s ≠ '<' ∧ s.toNat < 128 ∧ (∀ c ∈ ("<>/abdelrt" : Text), isSpace c = false ∧ c ≠ s) ∧
      ∀ o, s ∉ " " ++ (Op.entity o ++ " ") := by
    intro s mark
    have cases : s = '_' ∨ s = '^' := by simpa using mark
    rcases cases with rfl | rfl
    all_goals exact ⟨by decide, by decide, by decide, fun o => by cases o <;> decide⟩
  obtain ⟨notTag, ascii, tags, signs⟩ := other s mark
  have symbols {c : Char} (h : IsSymbol c) : isSpace c = false ∧ c ≠ s := ⟨h.plain.1, h.ne ascii⟩
  refine (Style.stacked_writes (fun w b t known => shift_stays fun c hc => (known c hc).elim (tags c) symbols) indices powers
    (fun o c b t begins => .stays (.before (spaced_passes (signs o) ?_))) e).apply shift_advances
  rintro _ ⟨⟩
  rcases begins with rfl | symbol
  · exact ⟨rfl, notTag.symm⟩
  · exact symbols symbol

end Shifted

def subscript (t : Text) : Text := "<sub>" ++ (t ++ "</sub>")

def superscript (t : Text) : Text := "<sup>" ++ (t ++ "</sup>")

theorem powers_apply (e : Equation) :
    (shiftRewrite '^' "<sup>" "</sup>").apply ((Style.stacked ("_" ++ ·) ("^" ++ ·) " ").write e) =
      (Style.stacked ("_" ++ ·) superscript " ").write e := by
  refine shift_apply (by decide) (fun y z b t _ => shift_stays ?_)
    (fun y b t closes => shift_becomes rfl (by simpa using y.isBase.1) y.isSymbol closes) e
  exact List.forall_mem_cons.2 ⟨by decide, fun c hc => ⟨(y.isSymbol c hc).plain.1, (y.isSymbol c hc).ne (by decide)⟩⟩

theorem indices_apply (e : Equation) :
    (shiftRewrite '_' "<sub>" "</sub>").apply ((Style.stacked ("_" ++ ·) superscript " ").write e) =
      (Style.stacked subscript superscript " ").write e := by
  refine shift_apply (by decide) (fun y z b t closes => shift_becomes rfl (by simpa using y.isBase.1) y.isSymbol ?_)
    (fun y b t _ => shift_stays ?_) e
  · cases z with
    | none => exact closes
    | some y =>
        rintro _ ⟨⟩
        decide
  · refine List.forall_mem_append.2 ⟨by decide, List.forall_mem_append.2 ⟨fun c hc => ?_, by decide⟩⟩
    exact ⟨(y.isSymbol c hc).plain.1, (y.isSymbol c hc).ne (by decide)⟩

/-! ## The last rewrites -/

/-- A term on a page holds letters of tags and symbols. -/
theorem page_chars {space : Text} (x : Term) : ∀ c ∈ (Style.stacked subscript superscript space).term x,
    c ∈ ("<>/abdelprstu" : Text) ∨ IsSymbol c := by
  have tag {w : Text} (letters : ∀ c ∈ w, c ∈ ("<>/abdelprstu" : Text)) :
      ∀ c ∈ w, c ∈ ("<>/abdelprstu" : Text) ∨ IsSymbol c := fun c hc => .inl (letters c hc)
  refine Style.forall_term (fun y c hc => .inr (y.isSymbol c hc)) (fun t ht => ?_) (fun t ht => ?_) (fun t u ht hu => ?_) x
  · exact List.forall_mem_append.2 ⟨tag (by decide), List.forall_mem_append.2 ⟨ht, tag (by decide)⟩⟩
  · exact List.forall_mem_append.2 ⟨tag (by decide), List.forall_mem_append.2 ⟨ht, tag (by decide)⟩⟩
  · exact List.forall_mem_append.2 ⟨tag (by decide), List.forall_mem_append.2 ⟨ht,
      List.forall_mem_append.2 ⟨tag (by decide), List.forall_mem_append.2 ⟨hu, tag (by decide)⟩⟩⟩⟩

theorem page_ne {space : Text} (x : Term) (apart : c ∉ ("<>/abdelprstu" : Text)) (ascii : c.toNat < 128) :
    ∀ d ∈ (Style.stacked subscript superscript space).term x, d ≠ c := by
  rintro d hd rfl
  exact (page_chars x d hd).elim apart fun symbol => symbol.ne ascii rfl

def spaceRewrite : Rewrite := ⟨span1 (· == ' '), fun _ => "&nbsp;"⟩

theorem spaces_apply (e : Equation) : spaceRewrite.apply ((Style.stacked subscript superscript " ").write e) =
    (Style.stacked subscript superscript "&nbsp;").write e := by
  have advances : spaceRewrite.pattern.Advances := .of_passes rfl
  have stays {w t : Text} {b : Option Char} (other : ∀ c ∈ w, c ≠ ' ') : spaceRewrite.Writes b w t w :=
    .stays (.of_begin advances fun c hc => by simp [spaceRewrite, span1, other c hc])
  have space {t : Text} {b : Option Char} (next : ∀ c ∈ t.head?, c ≠ ' ') : spaceRewrite.Writes b " " t "&nbsp;" :=
    .becomes (List.cons_ne_nil _ _)
      (.span1 (List.cons_ne_nil _ _) (by decide) fun c hc => beq_eq_false_iff_ne.2 (next c hc))
  have term (x : Term) (b t) : spaceRewrite.Writes b ((Style.stacked subscript superscript " ").term x) t
      ((Style.stacked subscript superscript "&nbsp;").term x) := by
    have same : (Style.stacked subscript superscript "&nbsp;").term x = (Style.stacked subscript superscript " ").term x := by
      cases x <;> rfl
    rw [same]
    exact stays (page_ne x (by decide) (by decide))
  refine (Style.writes (fun x b t _ _ => term x b t) (fun o x b t _ => ?_) e).apply advances
  have inside : ∀ c ∈ o.entity, c ≠ ' ' := by cases o <;> decide
  have first : ∀ c ∈ (o.entity ++ " " ++ ((Style.stacked subscript superscript " ").term x ++ t)).head?, c ≠ ' ' := by
    obtain ⟨c, v, begins, -⟩ := o.entity_cons
    rw [begins] at inside ⊢
    rintro _ ⟨⟩
    exact inside c List.mem_cons_self
  refine (space first).append ((stays inside).append (space ?_))
  obtain ⟨c, u, split, begins⟩ := Style.exists_stacked subscript superscript x t
  rw [split]
  rintro _ ⟨⟩
  rcases begins with rfl | symbol
  · decide
  · exact symbol.ne (by decide)

/-- An entity is not found among entities that begin with another letter. -/
theorem integral_passes (chain : x.IsChain fun c d => c = '&' → d ≠ 'i') (last : ∀ c ∈ x.getLast?, c ≠ '&') :
    (literal "&int;".toList).Passes b x t := by
  rintro u v rfl full
  refine misses_literal ?_
  rintro ⟨z, begins⟩
  obtain ⟨c, v, rfl⟩ := List.exists_cons_of_ne_nil full
  obtain ⟨rfl, behind⟩ : '&' = c ∧ "int;" ++ z = v ++ t := List.cons.inj begins
  cases v with
  | nil => exact last '&' (by simp) rfl
  | cons d v => exact List.isChain_iff_forall_rel_of_append_cons_cons.1 chain rfl rfl (List.cons.inj behind).1.symm

theorem integral_apply (f : Match → Text) (e : Equation) :
    Rewrite.apply ⟨literal "&int;".toList, f⟩ ((Style.stacked subscript superscript "&nbsp;").write e) =
      (Style.stacked subscript superscript "&nbsp;").write e := by
  have advances : (literal "&int;".toList).Advances := .of_passes rfl
  have signs (o : Op) : ("&nbsp;" ++ (o.entity ++ "&nbsp;") : Text).IsChain fun c d => c = '&' → d ≠ 'i' := by
    cases o <;> decide
  have last (o : Op) : ("&nbsp;" ++ (o.entity ++ "&nbsp;") : Text).getLast? = some ';' := by cases o <;> rfl
  have other (o : Op) : ∀ c ∈ ("&nbsp;" ++ (o.entity ++ "&nbsp;") : Text).getLast?, c ≠ '&' := by
    rw [last o]
    rintro _ ⟨⟩
    decide
  refine (Style.writes (fun x b t _ _ => .stays (.of_begin advances fun c hc => ?_))
    (fun o x b t _ => .stays (integral_passes (signs o) (other o))) e).apply advances
  exact mayBegin_literal.trans (beq_eq_false_iff_ne.2 (page_ne x (by decide) (by decide) c hc))

theorem roots_apply (f : Match → Text) (e : Equation) : Rewrite.apply ⟨"&radic;[" ++ group 1 (span (· != ']')) ++ "]", f⟩
    ((Style.stacked subscript superscript "&nbsp;").write e) = (Style.stacked subscript superscript "&nbsp;").write e := by
  refine Rewrite.apply_of_lacks (c := '[') (.before (.before (.literal (by decide)))) fun bracket => ?_
  have signs (o : Op) : ∀ c ∈ ("&nbsp;" ++ (o.entity ++ "&nbsp;") : Text), c ≠ '[' := by cases o <;> decide
  exact Style.forall_write (fun x => page_ne x (by decide) (by decide)) signs e '[' bracket rfl

/-- An equation of the grammar is shown part by part. -/
theorem toHtml_source (e : Equation) : toHtml (Style.source.write e) = Style.page.write e := by
  have symbols : Rewrite.applyAll symbolRewrites ((Style.flat id Op.entity).write e) =
      (Style.flat (List.map symbol) Op.entity).write e :=
    (congrArg letterRewrite.apply (digits_apply e)).trans (letters_apply e)
  have tags : Rewrite.applyAll tagRewrites ((Style.flat (List.map symbol) Op.entity).write e) = Style.page.write e := by
    change Rewrite.applyAll (tagRewrites.drop 4) (spaceRewrite.apply ((shiftRewrite '_' "<sub>" "</sub>").apply
      ((shiftRewrite '^' "<sup>" "</sup>").apply (fractionRewrite.apply _)))) = _
    rw [fraction_apply, powers_apply, indices_apply, spaces_apply]
    refine Rewrite.applyAll_of_forall ?_
    simp only [tagRewrites, List.drop_succ_cons, List.drop_zero, List.forall_mem_cons]
    exact ⟨integral_apply _ e, roots_apply _ e, by simp⟩
  simp only [toHtml, trim_source, names_apply, entities_apply, symbols, tags]

/-- A power over an index, less a product. -/
example :
    let base (t : Text) (h : IsBase t) : Atom := ⟨⟨t, h⟩, none, none⟩
    let e : Equation := ⟨.fraction ⟨⟨"a", by decide⟩, none, some ⟨"2", by decide⟩⟩
        ⟨⟨"bc", by decide⟩, some ⟨"n", by decide⟩, none⟩,
      [(.minus, .atom (base "12" (by decide))), (.times, .atom (base "r" (by decide)))]⟩
    Style.source.write e = "a^2/bc_n - 12 * r" ∧
      Style.page.write e = "<table><tr><td>𝑎<sup>𝟸</sup></td></tr><tr><td>𝑏𝑐<sub>𝑛</sub></td></tr></table>" ++
        "&nbsp;&minus;&nbsp;𝟷𝟸&nbsp;&times;&nbsp;𝑟" := by
  decide

end Maths

end LessonText

import LessonText.Proofs.Markup.Rendered
import LessonText.Proofs.Text.Escaping

/-! # Every line of the grammar is rendered element by element

Between two rules a line is a draft in which each element either stands as its author wrote it or has been rendered.
Each rule renders the elements of its kind and leaves the others, so behind the last rule every element has been.
-/

namespace LessonText.Span

open Draft Pattern Unicode Hazard

/-! ## Drafts of a line -/

/-- The drafts that stand for elements, with the plain text behind each. -/
inductive Stands (S : Element → Draft → Prop) : List (Element × Text) → Draft → Prop where
  | nil : Stands S [] []
  | cons {e p d parts rest} : S e d → Stands S parts rest → Stands S ((e, p) :: parts) (d ++ (chars p ++ rest))

/-- Plain texts behind elements: each begins with a space, and only the last may be empty. -/
structure Spaced (parts : List (Element × Text)) : Prop where
  plain : ∀ t ∈ parts.map Prod.snd, t.all isPlain = true
  spaced : ∀ t ∈ parts.map Prod.snd, t.head?.all (· == ' ') = true
  apart : ∀ t ∈ (parts.map Prod.snd).dropLast, t ≠ []

theorem Spaced.tail {e : Element} {p : Text} {parts : List (Element × Text)} (h : Spaced ((e, p) :: parts)) :
    Spaced parts where
  plain := fun t ht => h.plain t (List.mem_cons_of_mem _ ht)
  spaced := fun t ht => h.spaced t (List.mem_cons_of_mem _ ht)
  apart := by
    intro t ht
    refine h.apart t ?_
    cases parts with
    | nil => cases ht
    | cons q parts => exact List.mem_cons_of_mem _ ht

variable {S S' : Element → Draft → Prop} {parts : List (Element × Text)} {d : Draft}

/-- Behind an element there is a space, or nothing. -/
theorem Stands.ends {e : Element} {p : Text} (spaced : Spaced ((e, p) :: parts)) (stands : Stands S parts d) :
    Ends (text (chars p ++ d)) := by
  intro c hc
  rw [text_append, text_chars] at hc
  cases p with
  | nil =>
      cases stands with
      | nil => cases hc
      | cons => exact absurd rfl (spaced.apart [] List.mem_cons_self)
  | cons b p =>
      cases hc
      have space := spaced.spaced (c :: p) List.mem_cons_self
      exact beq_iff_eq.1 space

/-- What a rule makes of elements with plain text behind each. -/
theorem Stands.makes {r : Rule} (plain : ∀ b t (w : Text), w.all isPlain = true → r.pattern.Passes b w t)
    (each : ∀ e d b t, S e d → Ends t → r.Makes b (text d) t (wards d) (S' e)) (spaced : Spaced parts)
    (stands : Stands S parts d) (b : Option Char) : r.Makes b (text d) [] (wards d) (Stands S' parts) := by
  induction stands generalizing b with
  | nil => exact .of_passes .nil .nil
  | @cons e p d parts rest here stands ih =>
      have ends : Ends (text (chars p) ++ text rest ++ []) := by
        rw [List.append_nil, ← text_append]
        exact stands.ends spaced
      have middle : r.Makes ((text d).getLast?.or b) (text (chars p)) (text rest ++ []) (wards (chars p)) (· = chars p) := by
        refine .of_passes ?_ rfl
        rw [text_chars]
        exact plain _ _ _ (spaced.plain p List.mem_cons_self)
      rw [text_append, text_append, wards_append, wards_append]
      refine ((each e d b _ here ends).append (middle.append (ih spaced.tail _))).mono ?_
      rintro _ ⟨d', _, rfl, here', _, rest', rfl, rfl, stands'⟩
      exact .cons here' stands'

namespace Line

variable {l : Line}

theorem spacedParts (l : Line) : Spaced l.parts :=
  ⟨fun t ht => l.plain t (List.mem_cons_of_mem _ ht), l.spaced, l.apart⟩

/-- The drafts that stand for a line. -/
def Stands (l : Line) (S : Element → Draft → Prop) (d : Draft) : Prop :=
  ∃ rest, d = chars l.first ++ rest ∧ Span.Stands S l.parts rest

/-- What a rule makes of a line, if it passes over plain text. -/
theorem apply_turns {r : Rule} (advances : r.pattern.Advances)
    (plain : ∀ b t (w : Text), w.all isPlain = true → r.pattern.Passes b w t)
    (each : ∀ e d b t, S e d → Ends t → r.Makes b (text d) t (wards d) (S' e)) (stands : l.Stands S d) :
    Turns (r.apply (text d)) (wards d) (l.Stands S') := by
  obtain ⟨rest, rfl, stands⟩ := stands
  have first : r.Makes none (text (chars l.first)) (text rest ++ []) (wards (chars l.first)) (· = chars l.first) := by
    refine .of_passes ?_ rfl
    rw [text_chars]
    exact plain _ _ _ (l.plain l.first List.mem_cons_self)
  rw [text_append, wards_append]
  refine ((first.append (stands.makes plain each l.spacedParts _)).apply advances).mono ?_
  rintro _ ⟨_, rest', rfl, rfl, stands'⟩
  exact ⟨rest', rfl, stands'⟩

end Line

/-! ## The rules one after another -/

/-- An element whose rule is among those that are done has been rendered; any other shows as it was. -/
def Standing (done : List Kind) (e : Element) (d : Draft) : Prop :=
  (e.kind ∈ done → Rendered e d) ∧ (e.kind ∉ done → d = chars e.shown)

/-- A rule renders the elements of its kind, and leaves those of the rules before it and behind it. -/
theorem Kind.makes {done later : List Kind} {k : Kind} (order : Kind.all = done ++ k :: later) {e : Element} {d : Draft}
    {b : Option Char} {t : Text} (standing : Standing done e d) (ends : Ends t) :
    k.rule.Makes b (text d) t (wards d) (Standing (done ++ [k]) e) := by
  by_cases before : e.kind ∈ done
  · have rendered := standing.1 before
    refine .of_passes (passes_rendered rendered) ⟨fun _ => rendered, fun out => ?_⟩
    exact absurd (List.mem_append_left _ before) out
  · obtain rfl := standing.2 before
    by_cases here : e.kind = k
    · subst here
      rw [text_chars, wards_chars]
      refine (makes_shown e).mono fun d rendered => ⟨fun _ => rendered, fun out => ?_⟩
      exact absurd (List.mem_append_right _ List.mem_cons_self) out
    · have behind : e.kind ∈ later := by
        have listed := mem_all e.kind
        rw [order, List.mem_append, List.mem_cons] at listed
        tauto
      have skips : k.skips e.kind = true := by
        have pairs := all_skips
        rw [order] at pairs
        exact List.rel_of_pairwise_cons (List.pairwise_append.1 pairs).2.1 behind
      refine .of_passes (by rw [text_chars]; exact passes_shown skips ends) ⟨fun inside => ?_, fun _ => rfl⟩
      rw [List.mem_append, List.mem_singleton] at inside
      tauto

theorem Kind.rules_turn {l : Line} {later : List Kind} : ∀ {done : List Kind} {d : Draft}, Kind.all = done ++ later →
    l.Stands (Standing done) d →
    Turns ((later.map rule).foldlM (fun t r => r.apply t) (text d)) (wards d) (l.Stands (Standing Kind.all)) := by
  induction later with
  | nil =>
      intro done d order stands
      rw [List.append_nil] at order
      exact .pure (order ▸ stands)
  | cons k later ih =>
      intro done d order stands
      rw [List.map_cons, List.foldlM_cons]
      have turned : Turns ((k.rule).apply (text d)) (wards d) (l.Stands (Standing (done ++ [k]))) :=
        Line.apply_turns (advances k) (fun _ _ _ => passes_plain) (fun _ _ _ _ => makes order) stands
      exact turned.andThen fun d' stands' => ih (by rw [order, List.append_assoc]; rfl) stands'

/-- Characters that no element shows: line ends, and what passes before the rules or the rule for equations read. -/
theorem Element.not_mem_shown {e : Element} {c : Char} (h : c ∈ ("\n\r\x00\\\x7b" : Text)) : c ∉ e.shown := by
  have none (k : Kind) : ("\n\r\x00\\\x7b" : Text).all (fun c => !k.shows c) = true := by
    cases k with
    | emphasis sign _ _ => cases sign <;> rfl
    | _ => rfl
  intro mem
  have other := List.all_eq_true.1 (none e.kind) c h
  rw [Element.shows_of_mem mem] at other
  cases other

theorem equation_passes {b : Option Char} {w t : Text} (h : '\x7b' ∉ w) : equation.pattern.Passes b w t :=
  .of_sign (.of_passes rfl) (by simp [equation, guarded]) h

theorem Stands.mono (imp : ∀ e d, S e d → S' e d) (h : Stands S parts d) : Stands S' parts d := by
  induction h with
  | nil => exact .nil
  | cons here _ ih => exact .cons (imp _ _ here) ih

theorem equation_turns {l : Line} {d : Draft} (stands : l.Stands (fun e d => d = chars e.shown) d) :
    Turns (equation.apply (text d)) (wards d) (l.Stands (Standing [])) := by
  refine Line.apply_turns (.of_passes rfl) (fun b t w plain => equation_passes ?_) (fun e d b t shown _ => ?_) stands
  · exact not_mem_of_all (List.all_eq_true.1 plain) rfl
  · subst shown
    refine .of_passes (equation_passes ?_) ⟨nofun, fun _ => rfl⟩
    rw [text_chars]
    exact Element.not_mem_shown (by simp)

theorem Line.Stands.rendered {l : Line} {d : Draft} (h : l.Stands (Standing Kind.all) d) : l.Stands Rendered d := by
  obtain ⟨rest, rfl, stands⟩ := h
  exact ⟨rest, rfl, stands.mono fun e d standing => standing.1 (Kind.mem_all _)⟩

theorem kinds_turn {l : Line} {d : Draft} (stands : l.Stands (Standing []) d) :
    Turns ((Kind.all.map Kind.rule).foldlM (fun t r => r.apply t) (text d)) (wards d) (l.Stands Rendered) := by
  have order : Kind.all = [] ++ Kind.all := (List.nil_append _).symm
  exact (Kind.rules_turn order stands).mono fun d stands => stands.rendered

/-- The rules of spans render every element of a line. -/
theorem rules_turn {l : Line} {d : Draft} (stands : l.Stands (fun e d => d = chars e.shown) d) :
    Turns (rules.foldlM (fun t r => r.apply t) (text d)) (wards d) (l.Stands Rendered) := by
  rw [Kind.rules_eq]
  exact (equation_turns stands).andThen fun d stands => kinds_turn stands

/-! ## Before the rules -/

theorem Stands.eq_chars {f : Element → Text} (h : Stands (fun e d => d = chars (f e)) parts d) :
    d = chars (parts.flatMap fun p => f p.1 ++ p.2) := by
  induction h with
  | nil => rfl
  | cons here _ ih => rw [here, ih, List.flatMap_cons, chars_append, chars_append, List.append_assoc]

theorem stands_chars (f : Element → Text) (parts : List (Element × Text)) :
    Stands (fun e d => d = chars (f e)) parts (chars (parts.flatMap fun p => f p.1 ++ p.2)) := by
  induction parts with
  | nil => exact .nil
  | cons p parts ih =>
      rw [List.flatMap_cons, chars_append, chars_append, List.append_assoc]
      exact .cons rfl ih

namespace Line

variable {l : Line}

theorem stands_write (l : Line) (f : Element → Text) : l.Stands (fun e d => d = chars (f e)) (chars (l.write f)) :=
  ⟨_, chars_append _ _, stands_chars f l.parts⟩

theorem Stands.eq_write {f : Element → Text} (h : l.Stands (fun e d => d = chars (f e)) d) : d = chars (l.write f) := by
  obtain ⟨rest, rfl, stands⟩ := h
  rw [stands.eq_chars, write, chars_append]

theorem not_mem_write {c : Char} {f : Element → Text} (h : isPlain c = false) (each : ∀ e, c ∉ f e) : c ∉ l.write f := by
  have plain {t : Text} (ht : t ∈ l.first :: l.parts.map Prod.snd) : c ∉ t :=
    not_mem_of_all (List.all_eq_true.1 (l.plain t ht)) h
  simp only [write, List.mem_append, List.mem_flatMap, not_or, not_exists, not_and]
  exact ⟨plain List.mem_cons_self, fun p hp => ⟨each p.1, plain (List.mem_cons_of_mem _ (List.mem_map_of_mem hp))⟩⟩

end Line

theorem Element.mem_source {e : Element} {c : Char} (h : c ∈ e.source) : c = '<' ∨ c ∈ e.shown ∧ c ≠ '&' := by
  have same {e : Element} (same : e.source = e.shown) (none : e.kind.shows '&' = false) (h : c ∈ e.source) :
      c = '<' ∨ c ∈ e.shown ∧ c ≠ '&' := by
    rw [same] at h
    refine .inr ⟨h, ?_⟩
    rintro rfl
    rw [shows_of_mem h] at none
    cases none
  have bracketed {t : Text} (none : '&' ∉ t) (h : c ∈ ("<" ++ (t ++ ">") : Text)) :
      c = '<' ∨ c ∈ ("&lt;" ++ (t ++ ">") : Text) ∧ c ≠ '&' := by
    rcases List.mem_append.1 h with h | h
    · exact .inl (List.mem_singleton.1 h)
    · refine .inr ⟨List.mem_append_right _ h, ?_⟩
      rintro rfl
      simp [none] at h
  cases e with
  | web a => exact bracketed (a.not_mem rfl) h
  | mail a => exact bracketed (a.not_mem rfl (by decide)) h
  | emphasis sign strength w => exact same rfl (by cases sign <;> rfl) h
  | image | link | code => exact same rfl rfl h

/-- Characters that are in no line. -/
theorem Line.not_mem_source (l : Line) {c : Char} (h : c ∈ ("\n\r\x00\\&" : Text)) : c ∉ l.source := by
  have other : c ≠ '<' ∧ isPlain c = false ∧ (c ≠ '&' → c ∈ ("\n\r\x00\\\x7b" : Text)) := by
    revert c
    decide
  refine not_mem_write other.2.1 fun e mem => ?_
  rcases Element.mem_source mem with bracket | ⟨shown, entity⟩
  · exact other.1 bracket
  · exact Element.not_mem_shown (other.2.2 entity) shown

/-! ### Brackets -/

/-- Behind every opening bracket stands a character of which this does not hold. -/
def Followed (f : Char → Bool) (t : Text) : Prop := ∀ u v, t = u ++ '<' :: v → ∃ c w, v = c :: w ∧ f c = false

namespace Followed

variable {f : Char → Bool} {t u : Text}

theorem of_not_mem (h : '<' ∉ t) : Followed f t := by
  rintro u v rfl
  simp at h

theorem cons {c : Char} (h : f c = false) (apart : '<' ∉ c :: t) : Followed f ('<' :: c :: t) := by
  intro u v split
  cases u with
  | nil => exact ⟨c, t, (List.cons.inj split).2.symm, h⟩
  | cons d u =>
      rw [(List.cons.inj split).2] at apart
      simp at apart

theorem append (ht : Followed f t) (hu : Followed f u) : Followed f (t ++ u) := by
  intro x y split
  rcases List.append_eq_append_iff.1 split with ⟨z, rfl, behind⟩ | ⟨z, rfl, behind⟩
  · exact hu z y behind
  · cases z with
    | nil => exact hu [] y (by simpa using behind.symm)
    | cons d z =>
        obtain ⟨rfl, rfl⟩ := List.cons.inj behind
        obtain ⟨c, w, rfl, other⟩ := ht x z rfl
        exact ⟨c, w ++ u, rfl, other⟩

theorem flatMap {α : Type} {g : α → Text} {l : List α} (each : ∀ a ∈ l, Followed f (g a)) : Followed f (l.flatMap g) := by
  induction l with
  | nil => exact of_not_mem List.not_mem_nil
  | cons a l ih =>
      obtain ⟨here, later⟩ := List.forall_mem_cons.1 each
      rw [List.flatMap_cons]
      exact here.append (ih later)

end Followed

theorem Element.source_followed (e : Element) : Followed (· == '/') e.source := by
  have same {e : Element} (same : e.source = e.shown) (none : e.kind.shows '<' = false) : Followed (· == '/') e.source := by
    refine .of_not_mem fun mem => ?_
    rw [same] at mem
    rw [shows_of_mem mem] at none
    cases none
  have bracketed {t : Text} (full : t ≠ []) (none : '<' ∉ t) (slash : '/' ∉ t.head?) :
      Followed (· == '/') ("<" ++ (t ++ ">")) := by
    obtain ⟨c, t, rfl⟩ := List.exists_cons_of_ne_nil full
    refine .cons (beq_false_of_ne ?_) (by simpa using none)
    rintro rfl
    exact slash rfl
  cases e with
  | web a => exact bracketed a.ne_nil (a.not_mem rfl) (by simp [WebAddress.text])
  | mail a =>
      have full : a.text ≠ [] := by simp [MailAddress.text, a.mailboxFull]
      exact bracketed full (a.not_mem rfl (by decide)) fun mem => a.not_mem rfl (by decide) (List.mem_of_mem_head? mem)
  | emphasis sign strength w => exact same rfl (by cases sign <;> rfl)
  | image | link | code => exact same rfl rfl

theorem Line.source_followed (l : Line) : Followed (· == '/') (l.source) := by
  have plain {t : Text} (ht : t ∈ l.first :: l.parts.map Prod.snd) : Followed (· == '/') t :=
    .of_not_mem (not_mem_of_all (List.all_eq_true.1 (l.plain t ht)) rfl)
  refine .append (plain List.mem_cons_self) (.flatMap fun p hp => ?_)
  exact p.1.source_followed.append (plain (List.mem_cons_of_mem _ (List.mem_map_of_mem hp)))

/-- Where no closing tag can stand there is no MathML block. -/
theorem replaceBlocks_eq {t : Text} (h : Followed (· == '/') t) : MathML.replaceBlocks Rendering.protect t = pure t := by
  have advances : MathML.block.Advances := .of_passes rfl
  have passes : MathML.block.Passes none t [] := by
    rintro u v rfl - w r gs split ⟨before, closing, _, _, rfl, -, -, hclosing⟩
    obtain ⟨rfl, -⟩ := takes_literal.1 hclosing
    rw [List.append_nil] at split
    obtain ⟨c, rest, behind, other⟩ := h (u ++ before) ("/math>" ++ r) (by rw [split]; simp)
    obtain ⟨rfl, -⟩ := List.cons.inj behind
    cases other
  exact Rule.apply_of_passes (r := MathML.blockRule) advances passes

/-! ### Escaping -/

/-- A text with a character of no tag, down to the next closing bracket, is no tag. -/
theorem tag_misses {b : Option Char} {a t : Text} {c : Char} (open_ : '>' ∉ a) (mem : c ∈ a)
    (other : Markup.allowedTag.admits c = false) : Markup.allowedTag.Misses b (a ++ '>' :: t) := by
  rintro w r gs split takes
  obtain ⟨tag, closing, _, _, rfl, -, htag, hclosing⟩ := takes
  obtain ⟨rfl, -⟩ := takes_literal.1 hclosing
  have same : a = tag := by
    have behind : a ++ '>' :: t = tag ++ '>' :: r := by simpa using split
    refine eq_of_runs (· != '>') behind (fun c hc => ?_) (by simp) (fun c hc => ?_) (by simp)
    · rw [bne_iff_ne]
      rintro rfl
      exact open_ hc
    · rw [bne_iff_ne]
      rintro rfl
      exact absurd (htag.admits hc) (by decide)
  subst same
  have admits : Markup.allowedTag.admits c = true := Bool.or_eq_true_iff.2 (.inl (htag.admits mem))
  rw [admits] at other
  cases other

theorem bracket_passes {b : Option Char} {w t : Text} (h : '<' ∉ w) : Markup.escapeBrackets.pattern.Passes b w t :=
  .of_sign (.of_passes rfl) (by simp [Markup.escapeBrackets]) h

/-- The bracket of an address is escaped, and no other element has one. -/
theorem bracket_makes (e : Element) {b : Option Char} {t : Text} :
    (Rule.ofRewrite Markup.escapeBrackets).Makes b e.source t [] (fun d => d = chars e.shown) := by
  have same {e : Element} (same : e.source = e.shown) (none : e.kind.shows '<' = false) :
      (Rule.ofRewrite Markup.escapeBrackets).Makes b e.source t [] (fun d => d = chars e.shown) := by
    rw [same]
    refine .stays (bracket_passes fun mem => ?_)
    rw [Element.shows_of_mem mem] at none
    cases none
  have bracketed {a : Text} {c : Char} (open_ : '>' ∉ a ∧ '<' ∉ a) (mem : c ∈ a)
      (other : Markup.allowedTag.admits c = false) :
      (Rule.ofRewrite Markup.escapeBrackets).Makes b ("<" ++ (a ++ ">")) t [] (fun d => d = chars ("&lt;" ++ (a ++ ">"))) := by
    have misses {b : Option Char} : Markup.allowedTag.Misses b (a ++ ">" ++ t) := by
      rw [List.append_assoc]
      exact tag_misses open_.1 mem other
    have reads := (Reads.literal "<").append (.notAhead misses.fails) (b := b)
    have first : (Rule.ofRewrite Markup.escapeBrackets).Makes b "<" (a ++ ">" ++ t) [] (· = chars "&lt;") :=
      .becomes (List.cons_ne_nil _ _) reads rfl
    have behind : (Rule.ofRewrite Markup.escapeBrackets).Makes (some '<') (a ++ ">") t [] (· = chars (a ++ ">")) :=
      .stays (bracket_passes (by simp [open_.2]))
    refine (first.append behind).mono ?_
    rintro _ ⟨_, _, rfl, rfl, rfl⟩
    exact (chars_append _ _).symm
  cases e with
  | web a => exact bracketed (c := ':') ⟨a.not_mem rfl, a.not_mem rfl⟩ (by simp [WebAddress.text]) rfl
  | mail a =>
      exact bracketed (c := '@') ⟨a.not_mem rfl (by decide), a.not_mem rfl (by decide)⟩ (by simp [MailAddress.text]) rfl
  | emphasis sign strength w => exact same rfl (by cases sign <;> rfl)
  | image | link | code => exact same rfl rfl

theorem Line.escapeBrackets_eq (l : Line) :
    Markup.escapeBrackets.apply (l.source) = l.write Element.shown := by
  have turns : Turns ((Rule.ofRewrite Markup.escapeBrackets).apply (text (chars (l.source))))
      (wards (chars (l.source))) (l.Stands fun e d => d = chars e.shown) := by
    refine Line.apply_turns (.of_passes rfl) (fun b t w plain => bracket_passes ?_) (fun e d b t source _ => ?_)
      (l.stands_write Element.source)
    · exact not_mem_of_all (List.all_eq_true.1 plain) rfl
    · subst source
      rw [text_chars, wards_chars]
      exact bracket_makes e
  rw [text_chars, wards_chars] at turns
  exact Rewrite.apply_of_turns (turns.mono fun d stands => stands.eq_write)

theorem cleaned_eq {t : Text} (returns : '\r' ∉ t) (nulls : '\x00' ∉ t) : Markup.cleaned t = t := by
  have kept : t.filter (· != '\r') = t :=
    List.filter_eq_self.2 fun c hc => bne_iff_ne.2 (ne_of_mem_of_not_mem hc returns)
  rw [Markup.cleaned, kept, Escape.dropNull_eq nulls]

theorem escapedSign_eq {t : Text} (none : '\\' ∉ t) : Markup.escapedSign.apply t = t :=
  Rewrite.apply_of_passes (.of_passes rfl) (.of_sign (.of_passes rfl) (by simp [Markup.escapedSign]) none)

/-- Where neither a tag nor an entity begins, escaping reads only the signs that an author has escaped. -/
theorem escape_plain {t : Text} (none : ∀ e ∈ ("<&" : Text), e ∉ t) : Markup.escape t = Markup.escapedSign.apply t := by
  rw [Markup.escape, Escape.ampersands_of_not_mem (none '&' (by decide)),
    Rewrite.apply_of_passes (.of_passes rfl) (bracket_passes (none '<' (by decide)))]

theorem escape_unsigned {t : Text} (none : ∀ e ∈ ("<&\\" : Text), e ∉ t) : Markup.escape t = t := by
  have first : ∀ e ∈ ("<&" : Text), e ∈ ("<&\\" : Text) := by decide
  rw [escape_plain fun e sign => none e (first e sign), escapedSign_eq (none '\\' (by decide))]

/-- In a text in which neither a tag nor an entity begins only the signs are read that an author has escaped. -/
theorem opening_plain (none : ∀ e ∈ ("\r\x00<&" : Text), e ∉ t) : Markup.opening t = pure (Markup.escapedSign.apply t) := by
  have escaped : ∀ e ∈ ("<&" : Text), e ∈ ("\r\x00<&" : Text) := by decide
  rw [Markup.opening, cleaned_eq (none '\r' (by decide)) (none '\x00' (by decide)),
    replaceBlocks_eq (.of_not_mem (none '<' (by decide))), pure_bind, escape_plain fun e sign => none e (escaped e sign)]

/-- The characters of which the first passes read anything. -/
def firstSigns : Text := "\r\x00<&\\"

/-- The passes before the rules leave a text without their signs. -/
theorem opening_unsigned (none : ∀ e ∈ firstSigns, e ∉ t) : Markup.opening t = pure t := by
  have first : ∀ e ∈ ("\r\x00<&" : Text), e ∈ firstSigns := by decide
  rw [opening_plain fun e sign => none e (first e sign), escapedSign_eq (none '\\' (by decide))]

/-- Before the rules the brackets of addresses are escaped, and nothing else happens. -/
theorem Line.opening_eq (l : Line) : Markup.opening (l.source) = pure (l.write Element.shown) := by
  have kept := cleaned_eq (l.not_mem_source (c := '\r') (by simp)) (l.not_mem_source (c := '\x00') (by simp))
  have entities := Escape.ampersands_of_not_mem (l.not_mem_source (c := '&') (by simp))
  have signs : Markup.escapedSign.apply (l.write Element.shown) = l.write Element.shown :=
    escapedSign_eq (not_mem_write rfl fun e => Element.not_mem_shown (by simp))
  rw [Markup.opening, kept, replaceBlocks_eq l.source_followed, pure_bind, Markup.escape, entities, l.escapeBrackets_eq, signs]

/-! ### Texts without signs -/

/-- The signs that a match of a rule for spans may begin with. -/
def leadSigns : Text := "!&<[\x60*_\x7b"

theorem mem_leadSigns {r : Rule} (known : r ∈ rules) {c : Char} (h : r.pattern.mayBegin c = true) : c ∈ leadSigns := by
  rw [Kind.rules_eq] at known
  rcases List.mem_cons.1 known with rfl | listed
  · obtain rfl : c = '\x7b' := by simpa [equation, guarded] using h
    decide
  · obtain ⟨k, -, rfl⟩ := List.mem_map.1 listed
    have starts : ∀ k ∈ Kind.all, k.starts ⊆ leadSigns := by decide
    exact starts k k.mem_all (Kind.mem_starts h)

theorem rules_advance {r : Rule} (known : r ∈ rules) : r.pattern.Advances := by
  have all : ∀ r ∈ rules, r.pattern.passes = true := by
    rw [← List.all_eq_true]
    rfl
  exact .of_passes (all r known)

/-- The rules for spans leave a text without their signs. -/
theorem rules_unsigned {t : Text} (none : ∀ c ∈ leadSigns, c ∉ t) : rules.foldlM (fun t r => r.apply t) t = pure t := by
  refine Rule.foldlM_pure fun r known => Rule.apply_of_passes (rules_advance known) ?_
  exact .of_signs (rules_advance known) (fun _ => mem_leadSigns known) fun c hc sign => none c sign hc

/-! ## Behind the rules -/

theorem Rendered.meaning_eq {e : Element} {d : Draft} (h : Rendered e d) : meaning d = e.html := by
  have single {e : Element} (h : ∃ w : Ward, d = [.ward w] ∧ w.data = e.html) : meaning d = e.html := by
    obtain ⟨w, rfl, data⟩ := h
    rw [meaning_cons, meaning_nil, List.append_nil, ← data]
    rfl
  cases e with
  | link r =>
      obtain ⟨a, u, anchor, address, rfl⟩ := h
      simp only [meaning_append, meaning_cons, meaning_nil, meaning_chars, List.append_nil, Token.meaning, anchor, address,
        linked, quoted_eq (r.not_mem_title (c := '"') rfl)]
      show _ = "<a target=\"_blank\" href=\"" ++ r.address.text ++ "\" title=\"" ++ r.titleText ++ "\">" ++
        r.contents.text ++ "</a><span class=\"print-only\"> (" ++ r.address.text ++ ")</span>"
      simp
  | emphasis sign strength w =>
      obtain ⟨a, z, opening, closing, rfl⟩ := h
      simp only [meaning_append, meaning_cons, meaning_nil, meaning_chars, List.append_nil, Token.meaning, opening, closing]
      rfl
  | image | web | mail | code => exact single h

/-- The text of a rendered element: keys, and what is printed between them. -/
theorem Rendered.text_of {e : Element} {d : Draft} (h : Rendered e d) :
    '\n' ∉ text d ∧ '?' ∈ text d ∧ Followed opensBlock (text d) := by
  have key (w : Ward) : '\n' ∉ w.key ∧ '?' ∈ w.key ∧ '<' ∉ w.key := by
    obtain ⟨k, split⟩ := key_cons w
    exact ⟨not_mem_key rfl w, by simp [split], not_mem_key rfl w⟩
  cases e with
  | link r =>
      obtain ⟨a, u, -, -, rfl⟩ := h
      have opening : Followed opensBlock "<span class=\"print-only\"> (" := .cons rfl (by decide)
      have closing : Followed opensBlock ")</span>" := .append (t := ")") (.of_not_mem (by decide)) (.cons rfl (by decide))
      simp only [text_append, text_cons, text_nil, text_chars, List.append_nil, Token.text]
      refine ⟨by simp [key], by simp [key], ?_⟩
      exact (((Followed.of_not_mem (key a).2.2).append opening).append (.of_not_mem (key u).2.2)).append closing
  | emphasis sign strength w =>
      obtain ⟨a, z, -, -, rfl⟩ := h
      have line : '\n' ∉ w.text := w.not_mem rfl
      have unopened : '<' ∉ w.text := w.not_mem rfl
      simp only [text_append, text_cons, text_nil, text_chars, List.append_nil, Token.text]
      refine ⟨by simp [key, line], by simp [key], .of_not_mem (by simp [key, unopened])⟩
  | image | web | mail | code =>
      obtain ⟨w, rfl, -⟩ := h
      rw [text_cons, text_nil, List.append_nil]
      exact ⟨(key w).1, (key w).2.1, .of_not_mem (key w).2.2⟩

theorem Stands.meaning_eq (h : Stands Rendered parts d) : meaning d = parts.flatMap fun p => p.1.html ++ p.2 := by
  induction h with
  | nil => rfl
  | cons here _ ih =>
      rw [meaning_append, meaning_append, meaning_chars, here.meaning_eq, ih, List.flatMap_cons, List.append_assoc]

theorem Stands.text_of (h : Stands Rendered parts d) (plain : ∀ t ∈ parts.map Prod.snd, t.all isPlain = true) :
    '\n' ∉ text d ∧ (parts ≠ [] → '?' ∈ text d) ∧ Followed opensBlock (text d) := by
  induction h with
  | nil => exact ⟨List.not_mem_nil, fun full => absurd rfl full, .of_not_mem List.not_mem_nil⟩
  | @cons e p d parts rest here _ ih =>
      obtain ⟨first, plain⟩ := List.forall_mem_cons.1 plain
      have other {c : Char} (h : isPlain c = false) : c ∉ p := not_mem_of_all (List.all_eq_true.1 first) h
      obtain ⟨line, keyed, followed⟩ := here.text_of
      obtain ⟨line', -, followed'⟩ := ih plain
      rw [text_append, text_append, text_chars]
      refine ⟨by simp [line, line', other (c := '\n') rfl], fun _ => List.mem_append_left _ keyed, ?_⟩
      exact followed.append (.append (.of_not_mem (other rfl)) followed')

/-- Cleaning up leaves a line in which a key stands and no bracket opens a block. -/
theorem cleanUp_eq {t : Text} (line : '\n' ∉ t) (keyed : '?' ∈ t) (followed : Followed opensBlock t) :
    Markup.cleanUp t = t := by
  have unopened : Unopened t := by
    refine List.isChain_iff_forall_rel_of_append_cons_cons.2 ?_
    rintro a c u v rfl rfl
    obtain ⟨d, w, split, other⟩ := followed u (c :: v) rfl
    rwa [(List.cons.inj split).1]
  refine Markup.cleanUp_of_passes (Markup.blankLines_linewise.passes line fun w r gs split takes => ?_) unopened
  obtain ⟨-, -, spaces, stop⟩ := Markup.blankLines_takes takes
  obtain rfl : r = [] := by
    cases r with
    | nil => rfl
    | cons c r =>
        obtain rfl : c = '\n' := beq_iff_eq.1 stop
        exact absurd (by simp [split]) line
  rw [split, List.append_nil] at keyed
  exact no_mark_of_spaces spaces keyed

namespace Line

variable {l : Line}

theorem Stands.meaning_eq {d : Draft} (h : l.Stands Rendered d) : meaning d = l.html := by
  obtain ⟨rest, rfl, stands⟩ := h
  rw [meaning_append, meaning_chars, stands.meaning_eq]
  rfl

/-- A rendered line stays as it is when it is cleaned up. -/
theorem Stands.cleanUp_eq {d : Draft} (h : l.Stands Rendered d) : Markup.cleanUp (text d) = text d := by
  obtain ⟨rest, rfl, stands⟩ := h
  obtain ⟨line, keyed, followed⟩ := stands.text_of l.spacedParts.plain
  have other {c : Char} (h : isPlain c = false) : c ∉ l.first :=
    not_mem_of_all (List.all_eq_true.1 (l.plain _ List.mem_cons_self)) h
  rw [text_append, text_chars]
  refine Span.cleanUp_eq ?_ (List.mem_append_right _ (keyed l.full)) (.append (.of_not_mem (other rfl)) followed)
  simp [line, other (c := '\n') rfl]

theorem write_ne_nil {f : Element → Text} (each : ∀ e, f e ≠ []) : l.write f ≠ [] := by
  obtain ⟨⟨e, p⟩, parts, split⟩ := List.exists_cons_of_ne_nil l.full
  simp [write, split, each]

end Line

theorem Element.source_ne_nil (e : Element) : e.source ≠ [] := by
  cases e with
  | emphasis sign strength w => cases strength <;> exact List.cons_ne_nil _ _
  | image | link | web | mail | code => exact List.cons_ne_nil _ _

theorem Element.shown_ne_nil (e : Element) : e.shown ≠ [] := by
  cases e with
  | web | mail => exact List.cons_ne_nil _ _
  | image r => exact (Element.image r).source_ne_nil
  | link r => exact (Element.link r).source_ne_nil
  | code c => exact (Element.code c).source_ne_nil
  | emphasis sign strength w => exact (Element.emphasis sign strength w).source_ne_nil

/-- Every line of the grammar is rendered: its plain text as it is, and each element as what it stands for. -/
theorem Line.spans_source (l : Line) : Markup.spans l.source = l.html := by
  obtain ⟨d, s, turned, held, stands⟩ := rules_turn (l.stands_write Element.shown) [] {} (by simpa using .start)
  rw [text_chars] at turned
  have unmarked : '?' ∉ l.html := not_mem_write rfl Element.unmarked_html
  have safe : keyHazard.safe [] (shape d) = true := safe_shape (by rw [stands.meaning_eq]; exact spares_of_unmarked unmarked)
  obtain ⟨s', returned, -⟩ := held.reinstate safe
  have closed : Markup.closing .spans [] (l.write Element.shown) {} = (text d, s) := by
    rw [Markup.closing_eq .spans (write_ne_nil Element.shown_ne_nil), Markup.map_run]
    rw [show Markup.Extent.spans.rules = rules from rfl, turned, stands.cleanUp_eq]
  have opened : Markup.opening l.source {} = (l.write Element.shown, {}) := by
    rw [l.opening_eq]
    rfl
  have full : l.source ≠ [] := write_ne_nil Element.source_ne_nil
  rw [Markup.spans, Markup.run, Markup.render_eq full, Markup.bind_run ((Markup.bind_run opened).trans closed), returned,
    stands.meaning_eq]

/-- A line with code, a link in which signs stand, a mail address and emphasis of the same sign twice. -/
def Line.sample : Line where
  first := "See "
  parts := [
    (.code ⟨"*a_", by decide, by decide⟩, " and "),
    (.link ⟨⟨"b c", by decide, by decide, by decide⟩, ⟨true, "d_e_f", by decide, by decide⟩,
      some ⟨"g", by decide, by decide, by decide⟩⟩, " , "),
    (.mail ⟨"h", "i", ["j"], by decide, by decide, by decide, by decide, by decide, by decide⟩, " "),
    (.emphasis .asterisk .both ⟨"k, l", by decide, by decide, by decide⟩, " "),
    (.emphasis .asterisk .em ⟨"m", by decide, by decide, by decide⟩, "")]
  full := by decide
  plain := by decide
  spaced := by decide
  apart := by decide

theorem Line.spans_sample : Markup.spans
    "See \x60*a_\x60 and [b c](https://d_e_f \"g\") , <h@i.j> ***k, l*** *m*" =
    "See <code>*a_</code> and <a target=\"_blank\" href=\"https://d_e_f\" title=\"g\">b c</a>" ++
      "<span class=\"print-only\"> (https://d_e_f)</span> , " ++
      "<a href=\"&#109;&#97;&#105;&#108;&#116;&#111;&#58;&#104;&#64;&#105;&#46;&#106;\">&#104;&#64;&#105;&#46;&#106;</a> " ++
      "<strong><em>k, l</em></strong> <em>m</em>" :=
  calc
    _ = Markup.spans sample.source := congrArg Markup.spans (by decide)
    _ = sample.html := sample.spans_source
    _ = _ := by decide +kernel

end LessonText.Span

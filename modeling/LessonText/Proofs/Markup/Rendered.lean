import LessonText.Proofs.Markup.Kinds

/-! # Rules and the elements that they find

The rule of a kind finds each of its elements as a whole and renders it. Behind that, no rule finds anything in what
it has made of the element.
-/

namespace LessonText.Span

open Draft Pattern Unicode Hazard

/-! ## Rendered elements -/

/-- What stands in the place of an element once its rule has rendered it. -/
def Rendered : Element → Draft → Prop
  | .link r, d => ∃ a u : Ward, a.data = "<a target=\"_blank\" href=\"" ++ linked r.address.text r.titleText r.contents.text ++
      "</a>" ∧ u.data = r.address.text ∧
      d = [.ward a] ++ chars "<span class=\"print-only\"> (" ++ [.ward u] ++ chars ")</span>"
  | .emphasis _ strength w, d => ∃ a z : Ward, a.data = strength.opening ∧ z.data = strength.closing ∧
      d = [.ward a] ++ chars w.text ++ [.ward z]
  | e, d => ∃ w : Ward, d = [.ward w] ∧ w.data = e.html

namespace Kind

variable {k : Kind} {b : Option Char} {t : Text}

theorem passes_key (w : Ward) : k.rule.pattern.Passes b w.key t := by
  have none : k.starts.all (fun c => !Warden.isKeyChar c) = true := by
    cases k with
    | emphasis sign _ _ => cases sign <;> rfl
    | _ => rfl
  refine passes_of_starts fun c hc begins => ?_
  have other := List.all_eq_true.1 none c begins
  rw [isKeyChar_of_mem_key hc] at other
  cases other

theorem passes_printed : k.rule.pattern.Passes b "<span class=\"print-only\"> (" t ∧
    k.rule.pattern.Passes b ")</span>" t := by
  have apart {w : Text} (h : w.all (fun c => !k.starts.contains c) = true) {b : Option Char} {t : Text} :
      k.rule.pattern.Passes b w t := by
    refine passes_of_starts fun c hc begins => ?_
    have other := List.all_eq_true.1 h c hc
    rw [List.contains_iff_mem.2 begins] at other
    cases other
  cases k with
  | web =>
      refine ⟨.cons (autoLink_misses (by decide)) (apart rfl), ?_⟩
      exact .append (u := ")") (v := "</span>") (apart rfl) (.cons (autoLink_misses (by decide)) (apart rfl))
  | mail =>
      refine ⟨.cons (mailLink_misses "span" (by decide) rfl (by decide)) (apart rfl), ?_⟩
      exact .append (u := ")") (v := "</span>") (apart rfl)
        (.cons (mailLink_misses [] (by simp) rfl (by decide)) (apart rfl))
  | image | link | code => exact ⟨apart rfl, apart rfl⟩
  | emphasis sign _ _ => cases sign <;> exact ⟨apart rfl, apart rfl⟩

/-- No rule finds anything in a rendered element. -/
theorem passes_rendered {e : Element} {d : Draft} (h : Rendered e d) : k.rule.pattern.Passes b (text d) t := by
  have single {e : Element} (h : ∃ w : Ward, d = [.ward w] ∧ w.data = e.html) : k.rule.pattern.Passes b (text d) t := by
    obtain ⟨w, rfl, -⟩ := h
    rw [text_cons, text_nil, List.append_nil]
    exact passes_key w
  cases e with
  | link r =>
      obtain ⟨a, u, -, -, rfl⟩ := h
      simp only [text_append, text_cons, text_nil, text_chars, List.append_nil, Token.text]
      exact .append (.append (.append (passes_key a) passes_printed.1) (passes_key u)) passes_printed.2
  | emphasis sign strength w =>
      obtain ⟨a, z, -, -, rfl⟩ := h
      simp only [text_append, text_cons, text_nil, text_chars, List.append_nil, Token.text]
      exact .append (.append (passes_key a) (passes_plain w.plain)) (passes_key z)
  | image | web | mail | code => exact single h

end Kind

/-! ## Readings -/

theorem Word.ne_of_mem {w : Word} {c d : Char} (h : c ∈ w.text) (other : isPlain d = false) : (c != d) = true := by
  rw [bne_iff_ne]
  rintro rfl
  rw [Word.isPlain_of_mem h] at other
  cases other

theorem address_reads (a : WebAddress) {b : Option Char} {t : Text} (stops : ∀ c ∈ t.head?, isAddressChar c = false) :
    (scheme ++ span1 isAddressChar).Reads b a.text t [] := by
  have path : ∀ c ∈ a.path, isAddressChar c = true := by
    intro c hc
    have allowed := List.all_eq_true.1 a.allowed c hc
    simp only [isWebChar, Bool.and_eq_true] at allowed
    exact allowed.1.1
  have plural {b : Option Char} {x : Text} : (Pattern.optional "s").Reads b (if a.secure then ("s" : Text) else [])
      ("://" ++ x) [] := by
    split
    · exact .optional (.literal _)
    · exact .optional_none (misses_literal (by simp)).fails
  have whole : a.text = "http" ++ (if a.secure then ("s" : Text) else []) ++ "://" ++ a.path := by simp [WebAddress.text]
  have all := (((Reads.literal "http").append plural).append (.literal "://")).append (.span1 a.full path stops) (b := b)
  rw [whole]
  exact all

/-- The groups that a reference fills, the latest first. -/
def Reference.groups (r : Reference) : List (Nat × Text) :=
  (match r.title with
    | some t => [(3, t.text)]
    | none => []) ++ [(2, r.address.text), (1, r.contents.text)]

/-- A title in quotes, behind spaces. -/
def title : Pattern := span1 (· == ' ') ++ "\"" ++ group 3 (span (· != '"')) ++ "\""

theorem title_reads (t : Word) {b : Option Char} {x : Text} :
    title.Reads b (" " ++ ("\"" ++ (t.text ++ "\""))) x [(3, t.text)] := by
  have space : (span1 (· == ' ')).Reads b " " ("\"" ++ (t.text ++ ("\"" ++ x))) [] :=
    .span1 (by simp) (by simp) (by simp)
  have quoted {b : Option Char} : (group 3 (span (· != '"'))).Reads b t.text ("\"" ++ x) [(3, t.text)] :=
    .group (.span (fun c hc => Word.ne_of_mem hc rfl) (by simp))
  have whole : " " ++ ("\"" ++ (t.text ++ "\"")) = (" " ++ "\"" ++ t.text ++ "\"" : Text) := by simp
  have all := ((space.append (.literal "\"")).append quoted).append (.literal "\"") (b := b)
  rw [whole]
  exact all

theorem titled_reads (r : Reference) {b : Option Char} {x : Text} : (Pattern.optional title).Reads b r.titled (")" ++ x)
    (match r.title with
      | some t => [(3, t.text)]
      | none => []) := by
  obtain ⟨w, u, t⟩ := r
  cases t with
  | some t => exact .optional (title_reads t)
  | none =>
      have misses : title.Misses b (')' :: x) := .of_begin (.of_passes rfl) rfl
      exact .optional_none misses.fails

theorem reference_reads (r : Reference) {b : Option Char} {t : Text} : reference.Reads b r.source t r.groups := by
  have contents {b : Option Char} {x : Text} : (group 1 (span (· != ']'))).Reads b r.contents.text ("](" ++ x)
      [(1, r.contents.text)] := .group (.span (fun c hc => Word.ne_of_mem hc rfl) (by simp))
  have stops : ∀ c ∈ (r.titled ++ (")" ++ t)).head?, isAddressChar c = false := by
    unfold Reference.titled
    split
    · rintro _ ⟨⟩
      rfl
    · rintro _ ⟨⟩
      rfl
  have address {b : Option Char} : (group 2 (scheme ++ span1 isAddressChar)).Reads b r.address.text
      (r.titled ++ (")" ++ t)) [(2, r.address.text)] := .group (address_reads r.address stops)
  have whole : r.source = "[" ++ r.contents.text ++ "](" ++ r.address.text ++ r.titled ++ ")" := by
    simp [Reference.source]
  have all := (((((Reads.literal "[").append contents).append (.literal "](")).append address).append
    (titled_reads r)).append (.literal ")") (b := b)
  rw [whole]
  exact all

/-- The domains of a mail address, one after another. -/
theorem domains_repeated {domains : List Text} (full : ∀ d ∈ domains, d ≠ [])
    (allowed : ∀ d ∈ domains, d.all isHostChar = true) {t : Text} (stops : ∀ c ∈ t.head?, isHostChar c = false ∧ c ≠ '.') :
    ∀ b, Repeated ("." ++ span1 isHostChar) b (domains.flatMap fun d => '.' :: d) t [] := by
  induction domains with
  | nil =>
      intro b
      refine .stop (Misses.fails ?_)
      cases t with
      | nil => exact (Advances.of_passes rfl).misses_nil
      | cons c t =>
          refine .of_begin (.of_passes rfl) ?_
          simpa using (stops c rfl).2
  | cons d domains ih =>
      intro b
      obtain ⟨dFull, full⟩ := List.forall_mem_cons.1 full
      obtain ⟨dAllowed, allowed⟩ := List.forall_mem_cons.1 allowed
      have ends : ∀ c ∈ ((domains.flatMap fun d => '.' :: d) ++ t).head?, isHostChar c = false := by
        cases domains with
        | nil => exact fun c hc => (stops c hc).1
        | cons => 
            rintro _ ⟨⟩
            rfl
      have first := (Reads.literal ".").append (.span1 dFull (List.all_eq_true.1 dAllowed) ends) (b := b)
      exact .more (List.cons_ne_nil _ _) first (ih full allowed _)

theorem mailAddress_reads (a : MailAddress) {b : Option Char} {t : Text} : mailAddress.Reads b a.text (">" ++ t) [] := by
  have stops : ∀ c ∈ (">" ++ t).head?, isHostChar c = false ∧ c ≠ '.' := by
    rintro _ ⟨⟩
    exact ⟨rfl, by decide⟩
  obtain ⟨d, domains, listed⟩ := List.exists_cons_of_ne_nil a.domainsFull.1
  have full : (a.domains.flatMap fun d => '.' :: d) ≠ [] := by simp [listed]
  have behind : ∀ c ∈ ((a.domains.flatMap fun d => '.' :: d) ++ (">" ++ t)).head?, isHostChar c = false := by
    rw [listed]
    rintro _ ⟨⟩
    rfl
  have mailbox : (span1 isMailboxChar).Reads b a.mailbox ("@" ++ (a.host ++ ((a.domains.flatMap fun d => '.' :: d) ++
      (">" ++ t)))) [] := by
    refine .span1 a.mailboxFull (List.all_eq_true.1 a.inMailbox) ?_
    rintro _ ⟨⟩
    rfl
  have labels (b : Option Char) := Reads.many1 (domains_repeated a.domainsFull.2 a.inDomains stops b) full
  have whole : a.text = a.mailbox ++ "@" ++ a.host ++ a.domains.flatMap fun d => '.' :: d := by simp [MailAddress.text]
  have all := ((mailbox.append (.literal "@")).append (.span1 a.hostFull (List.all_eq_true.1 a.inHost) behind)).append
    (labels _) (b := b)
  rw [whole]
  exact all

theorem openBracket_reads {b : Option Char} {t : Text} : openBracket.Reads b "&lt;" t [] := .or_left (.literal _)

theorem code_reads (c : CodeText) {b : Option Char} {t : Text} :
    Span.code.pattern.Reads b ("\x60" ++ (c.text ++ "\x60")) t [(2, c.text)] := by
  have other : ∀ d ∈ c.text, (d == '\x60') = false := by
    intro d hd
    have allowed := List.all_eq_true.1 c.allowed d hd
    refine beq_false_of_ne ?_
    rintro rfl
    exact Bool.false_ne_true allowed
  have inside : ∀ d ∈ c.text, inLine d = true := by
    intro d hd
    have allowed := List.all_eq_true.1 c.allowed d hd
    refine bne_iff_ne.2 ?_
    rintro rfl
    exact Bool.false_ne_true allowed
  have tick {b : Option Char} {x : Text} : (one (· == '\x60')).Reads b "\x60" x [] := .one rfl
  have lazily := Lazily.after tick (.group (i := 2) (.fewest inside)) (b := b) (r := "\x60" ++ t)
  have single := lazily.append tick fun x rest early whole => by
    obtain ⟨u, rfl, v, split, full⟩ := early
    obtain ⟨d, v, rfl⟩ := List.exists_cons_of_ne_nil full
    have behind : rest = d :: (v ++ ("\x60" ++ t)) := by
      rw [split, List.append_assoc, List.append_assoc, List.append_assoc] at whole
      exact (List.append_cancel_left (List.append_cancel_left whole)).symm
    rw [behind]
    exact Misses.fails (.of_begin (.of_passes rfl) (other d (by simp [split])))
  have several {b : Option Char} : (one (· == '\x60') ++ some1 (· == '\x60') ++ group 1 (fewest inLine) ++
      one (· == '\x60') ++ span1 (· == '\x60')).Misses b ("\x60" ++ (c.text ++ ("\x60" ++ t))) := by
    rintro w r gs split ⟨_, _, _, _, rfl, -, ⟨_, _, _, _, rfl, -, ⟨_, _, _, _, rfl, -, ⟨_, _, _, _, rfl, -,
      ⟨d, hd, rfl, -⟩, hticks⟩, -⟩, -⟩, -⟩
    obtain ⟨full, areTicks, -⟩ := takes_some1.1 hticks
    obtain ⟨e, ticks, rfl⟩ := List.exists_cons_of_ne_nil full
    obtain ⟨f, rest, text⟩ := List.exists_cons_of_ne_nil c.full
    rw [text] at split
    obtain rfl : f = e := (List.cons.inj (List.cons.inj split).2).1
    have first := areTicks f List.mem_cons_self
    rw [other f (by simp [text])] at first
    cases first
  have whole : "\x60" ++ (c.text ++ "\x60") = "\x60" ++ c.text ++ "\x60" := by simp
  rw [whole]
  refine .or_right ?_ single
  rw [← whole]
  simpa using several.fails

theorem notSpace_of_isAlphanum {c : Char} (h : c.isAlphanum = true) : notSpace c = true :=
  of_isAlphanum (by decide) h

/-- A word of several characters, with no white space at its ends. -/
theorem Word.several {w : Word} (h : w.text.length ≠ 1) :
    ∃ c mid d, w.text = c :: (mid ++ [d]) ∧ notSpace c = true ∧ notSpace d = true := by
  obtain ⟨c, rest, split⟩ := List.exists_cons_of_ne_nil w.ne_nil
  have begins := w.begins
  have ends := w.ends
  rw [split] at h begins ends
  rcases List.eq_nil_or_concat rest with rfl | ⟨mid, d, rfl⟩
  · exact absurd rfl h
  · rw [List.concat_eq_append] at split ends
    refine ⟨c, mid, d, split, notSpace_of_isAlphanum begins, notSpace_of_isAlphanum ?_⟩
    rw [← List.cons_append, List.getLast?_append] at ends
    exact ends

theorem single_reads (sign : Sign) (strength : Strength) {w : Word} (single : w.text.length = 1) {b : Option Char}
    {t : Text} : (Kind.emphasis sign strength true).rule.pattern.Reads b (mark sign strength ++ (w.text ++
      mark sign strength)) t [(1, w.text)] := by
  obtain ⟨c, split⟩ := List.length_eq_one_iff.1 single
  have begins := w.begins
  rw [split] at begins
  have accepted : (fun c => !isSpace c && c != sign.char) c = true :=
    Bool.and_eq_true_iff.2 ⟨notSpace_of_isAlphanum begins, Word.ne_of_mem (w := w) (by simp [split]) sign.not_plain⟩
  have body {b : Option Char} {x : Text} : (group 1 (one fun c => !isSpace c && c != sign.char)).Reads b [c] x [(1, [c])] :=
    .group (.one accepted)
  have all := ((Reads.literal (mark sign strength)).append body).append (.literal (mark sign strength)) (b := b) (r := t)
  rw [split, ← List.append_assoc]
  exact all

theorem several_reads (sign : Sign) (strength : Strength) {w : Word} (several : w.text.length ≠ 1) {b : Option Char}
    {t : Text} : (Kind.emphasis sign strength false).rule.pattern.Reads b (mark sign strength ++ (w.text ++
      mark sign strength)) t [(1, w.text)] := by
  obtain ⟨c, mid, d, split, hc, hd⟩ := Word.several several
  have plain : ∀ e ∈ mid ++ [d], isPlain e = true := fun e he => Word.isPlain_of_mem (w := w) (by simp [split, he])
  have inside : ∀ e ∈ mid, inLine e = true := by
    intro e he
    refine bne_iff_ne.2 ?_
    rintro rfl
    exact Bool.false_ne_true (plain _ (List.mem_append_left _ he))
  have contents {b : Option Char} := Lazily.append_one (.after (.one hc) (.fewest inside)) hd (b := b)
    (r := mark sign strength ++ t)
  have lazily := Lazily.after (.literal (mark sign strength)) (.group (i := 1) contents) (b := b)
  have all := lazily.append (.literal (mark sign strength)) (r := t) fun x rest early whole => by
    obtain ⟨y, rfl, u, e, rfl, ⟨v, rfl, v', rfl, full⟩, -⟩ := early
    obtain ⟨f, v', rfl⟩ := List.exists_cons_of_ne_nil full
    have behind : rest = v' ++ [d] ++ (mark sign strength ++ t) := by
      simp only [List.append_assoc] at whole
      have here := List.append_cancel_left (List.append_cancel_left (List.append_cancel_left whole))
      rw [List.append_assoc]
      exact (List.cons.inj here).2.symm
    refine Misses.fails (misses_literal fun start => ?_)
    obtain ⟨signs, begins⟩ := mark_cons sign strength
    obtain ⟨first, more, listed⟩ := List.exists_cons_of_ne_nil (List.append_ne_nil_of_right_ne_nil v' (List.cons_ne_nil d []))
    rw [behind, listed, begins] at start
    obtain ⟨rfl, -⟩ := List.cons_prefix_cons.1 start
    have isPlain := plain sign.char (by rw [List.append_assoc]; exact List.mem_append_right _ (by simp [listed]))
    rw [sign.not_plain] at isPlain
    cases isPlain
  have whole : mark sign strength ++ (c :: (mid ++ [d]) ++ mark sign strength) =
      mark sign strength ++ ([c] ++ mid ++ [d]) ++ mark sign strength := by simp
  rw [split, whole]
  exact all

/-! ## Renderings -/

theorem spares_of_unmarked {t : Text} (h : '?' ∉ t) : keyHazard.Spares t := (Bool.and_eq_true_iff.1 (opens_key h)).1

theorem guarded_turns {p : Pattern} {build : Match → Rendering Text} {m : Match} {x : Text}
    (built : Turns (build m) [] (· = chars x)) (unmarked : '?' ∉ x) (full : x ≠ []) :
    Turns ((guarded p build).replace m) [] fun d => ∃ w : Ward, d = [.ward w] ∧ w.data = x := by
  refine built.andThen ?_
  rintro _ rfl
  have all := guard_ward (b := chars x) (by rw [meaning_chars]; exact spares_of_unmarked unmarked)
    (by rwa [meaning_chars])
  rwa [meaning_chars] at all

theorem quoted_eq {t : Text} (h : '"' ∉ t) : quoted t = t := by
  induction t with
  | nil => rfl
  | cons c t ih =>
      rw [List.mem_cons, not_or] at h
      have later := ih h.2
      rw [quoted] at later ⊢
      rw [List.flatMap_cons, later, if_neg (Ne.symm h.1)]
      rfl

theorem quotable_plain {t : Text} (unmarked : '?' ∉ t) (unquoted : '"' ∉ t) :
    Turns (quotable t) [] (· = chars t) := by
  have all := quotable_turns (d := chars t) (by rw [meaning_chars]; exact spares_of_unmarked unmarked)
  rwa [text_chars, wards_chars, meaning_chars, quoted_eq unquoted] at all

theorem Word.not_mem (w : Word) {c : Char} (h : isPlain c = false) : c ∉ w.text :=
  not_mem_of_all (List.all_eq_true.1 w.plain) h

theorem WebAddress.not_mem (a : WebAddress) {c : Char} (h : isWebChar c = false) : c ∉ a.text :=
  not_mem_of_all (fun _ => WebAddress.isWebChar_of_mem) h

theorem CodeText.not_mem (t : CodeText) {c : Char} (h : isCodeChar c = false) : c ∉ t.text :=
  not_mem_of_all (List.all_eq_true.1 t.allowed) h

theorem Reference.not_mem_title (r : Reference) {c : Char} (h : isPlain c = false) : c ∉ r.titleText := by
  obtain ⟨w, u, t⟩ := r
  cases t with
  | none => exact List.not_mem_nil
  | some t => exact t.not_mem h

/-- No element brings a question mark to a page. -/
theorem Element.unmarked_html (e : Element) : '?' ∉ e.html := by
  cases e with
  | image r =>
      show '?' ∉ "<img alt=\"" ++ r.contents.text ++ "\" src=\"" ++ r.address.text ++ "\" title=\"" ++ r.titleText ++ "\"/>"
      simp [r.contents.not_mem (c := '?') rfl, r.address.not_mem (c := '?') rfl, r.not_mem_title (c := '?') rfl]
  | link r =>
      show '?' ∉ "<a target=\"_blank\" href=\"" ++ r.address.text ++ "\" title=\"" ++ r.titleText ++ "\">" ++
        r.contents.text ++ "</a><span class=\"print-only\"> (" ++ r.address.text ++ ")</span>"
      simp [r.contents.not_mem (c := '?') rfl, r.address.not_mem (c := '?') rfl, r.not_mem_title (c := '?') rfl]
  | web a =>
      show '?' ∉ "<a target=\"_blank\" href=\"" ++ a.text ++ "\">" ++ a.text ++ "</a>"
      simp [a.not_mem (c := '?') rfl]
  | mail a =>
      show '?' ∉ "<a href=\"" ++ Entity.encode ("mailto:" ++ a.text) ++ "\">" ++ Entity.encode a.text ++ "</a>"
      simp [not_mem_encode (c := '?') (by decide) rfl]
  | code c =>
      show '?' ∉ "<code>" ++ c.text ++ "</code>"
      simp [c.not_mem (c := '?') rfl]
  | emphasis sign strength w =>
      have tags : '?' ∉ strength.opening ∧ '?' ∉ strength.closing := by cases strength <;> exact ⟨by decide, by decide⟩
      show '?' ∉ strength.opening ++ w.text ++ strength.closing
      simp [tags, w.not_mem (c := '?') rfl]

/-- The match of a reference, whatever its text. -/
theorem Reference.group_eq (r : Reference) (x : Text) : (⟨x, r.groups⟩ : Match).group 1 = r.contents.text ∧
    (⟨x, r.groups⟩ : Match).group 2 = r.address.text ∧ (⟨x, r.groups⟩ : Match).group 3 = r.titleText := by
  obtain ⟨w, u, t⟩ := r
  cases t <;> exact ⟨rfl, rfl, rfl⟩

theorem image_turns (r : Reference) (x : Text) :
    Turns (Span.image.replace ⟨x, r.groups⟩) [] (Rendered (.image r)) := by
  obtain ⟨one, two, three⟩ := r.group_eq x
  refine guarded_turns ?_ (Element.unmarked_html _) (List.cons_ne_nil _ _)
  simp only [one, two, three]
  refine (quotable_plain (r.contents.not_mem rfl) (r.contents.not_mem rfl)).andThen ?_
  rintro _ rfl
  rw [wards_chars]
  refine (quotable_plain (r.not_mem_title rfl) (r.not_mem_title rfl)).andThen ?_
  rintro _ rfl
  rw [wards_chars, text_chars, text_chars]
  exact .pure_of rfl (by rw [text_chars]; rfl) (by rw [wards_chars])

theorem WebAddress.ne_nil (a : WebAddress) : a.text ≠ [] := by simp [WebAddress.text]

theorem link_turns (r : Reference) (x : Text) : Turns (Span.link.replace ⟨x, r.groups⟩) [] (Rendered (.link r)) := by
  obtain ⟨one, two, three⟩ := r.group_eq x
  have content : keyHazard.Spares (linked r.address.text r.titleText r.contents.text) := by
    rw [linked, quoted_eq (r.not_mem_title rfl)]
    refine spares_of_unmarked ?_
    simp [r.contents.not_mem (c := '?') rfl, r.address.not_mem (c := '?') rfl, r.not_mem_title (c := '?') rfl]
  have titled : keyHazard.Spares (meaning (chars r.titleText)) := by
    rw [meaning_chars]
    exact spares_of_unmarked (r.not_mem_title rfl)
  have shown : keyHazard.Spares (linked (meaning (chars r.address.text)) (meaning (chars r.titleText))
      (meaning (chars r.contents.text))) := by
    simpa only [meaning_chars] using content
  have anchored := anchor_turns (wards_chars _) titled shown
  simp only [text_chars, wards_chars, meaning_chars, List.append_nil] at anchored
  have replaced : Span.link.replace ⟨x, r.groups⟩ = (do
      let anchor ← (do
        let title ← quotable r.titleText
        Rendering.reinstate ("<a target=\"_blank\" href=\"" ++ r.address.text ++ "\" title=\"" ++ title ++
          "\">" ++ r.contents.text ++ "</a>") >>= Rendering.protect)
      let address ← Rendering.protect r.address.text
      return anchor ++ "<span class=\"print-only\"> (" ++ address ++ ")</span>") := by
    simp only [Span.link, one, two, three, bind_assoc]
  rw [replaced]
  refine anchored.andThen ?_
  rintro _ ⟨a, rfl, anchor⟩
  refine .protect_bind r.address.ne_nil fun u address => ?_
  refine .pure_of (d := [.ward a] ++ chars "<span class=\"print-only\"> (" ++ [.ward u] ++ chars ")</span>")
    ⟨a, u, anchor, address, rfl⟩ (by simp [Token.text]) (by simpa using List.Perm.swap _ _ _)

theorem marked_turns (strength : Strength) (w : Word) (sign : Sign) :
    Turns (emphasise strength.tags w.text) [] (Rendered (.emphasis sign strength w)) := by
  have full : strength.opening ≠ [] ∧ strength.closing ≠ [] := by cases strength <;> exact ⟨by decide, by decide⟩
  refine .protect_bind full.1 fun a opening => ?_
  refine .protect_bind full.2 fun z closing => ?_
  exact .pure_of (d := [.ward a] ++ chars w.text ++ [.ward z]) ⟨a, z, opening, closing, rfl⟩ (by simp [Token.text])
    (by simpa using List.Perm.swap _ _ _)

namespace Kind

/-- The rule of a kind finds and renders each of its elements. -/
theorem makes_shown (e : Element) {b : Option Char} {t : Text} : (rule e.kind).Makes b e.shown t [] (Rendered e) := by
  cases e with
  | image r =>
      refine .of_reads (List.cons_ne_nil _ _) ((Reads.literal "!").append (reference_reads r)) ?_
      rw [List.append_nil]
      exact image_turns r _
  | link r => exact .of_reads (List.cons_ne_nil _ _) (reference_reads r) (link_turns r _)
  | web a =>
      have address {b : Option Char} : (group 1 (scheme ++ span1 isAddressChar)).Reads b a.text (">" ++ t) [(1, a.text)] :=
        .group (address_reads a (by rintro _ ⟨⟩; rfl))
      have reads := (openBracket_reads.append address).append (.literal ">") (b := b)
      rw [List.append_assoc] at reads
      refine .of_reads (List.cons_ne_nil _ _) reads (guarded_turns (.pure_of rfl ?_ (by rw [wards_chars]))
        (Element.unmarked_html _) (List.cons_ne_nil _ _))
      rw [text_chars]
      rfl
  | mail a =>
      have address {b : Option Char} : (group 1 mailAddress).Reads b a.text (">" ++ t) [(1, a.text)] :=
        .group (mailAddress_reads a)
      have reads := (openBracket_reads.append address).append (.literal ">") (b := b)
      rw [List.append_assoc] at reads
      refine .of_reads (List.cons_ne_nil _ _) reads (guarded_turns (.pure_of rfl ?_ (by rw [wards_chars]))
        (Element.unmarked_html _) (List.cons_ne_nil _ _))
      rw [text_chars]
      rfl
  | code c =>
      refine .of_reads (List.cons_ne_nil _ _) (code_reads c) (guarded_turns (.pure_of rfl ?_ (by rw [wards_chars]))
        (Element.unmarked_html _) (List.cons_ne_nil _ _))
      rw [text_chars]
      rfl
  | emphasis sign strength w =>
      have turns : Turns ((Kind.emphasis sign strength (w.text.length == 1)).rule.replace
          ⟨(Element.emphasis sign strength w).shown, [(1, w.text)]⟩) [] (Rendered (.emphasis sign strength w)) := by
        cases w.text.length == 1 <;> exact marked_turns strength w sign
      obtain ⟨signs, begins⟩ := mark_cons sign strength
      have full : (Element.emphasis sign strength w).shown ≠ [] := by
        show mark sign strength ++ (w.text ++ mark sign strength) ≠ []
        simp [begins]
      refine .of_reads full ?_ turns
      by_cases single : w.text.length = 1
      · rw [Element.kind, show (w.text.length == 1) = true from beq_iff_eq.2 single]
        exact single_reads sign strength single
      · rw [Element.kind, show (w.text.length == 1) = false from beq_false_of_ne single]
        exact several_reads sign strength single

end Kind

end LessonText.Span

import LessonText.Proofs.Markup.Agreement
import LessonText.Proofs.Markup.Elements
import LessonText.Proofs.Markup.Making

/-! # Rules and the elements that they do not find

Each rule of spans is for one kind of elements. It passes over plain text, over every element that an earlier rule
has rendered and over the elements of later rules: their marks are shorter, or begin in another way.
-/

namespace LessonText.Span

open Draft Pattern Unicode

/-- The kinds of elements, each with a rule of its own. An emphasis around a single character is a kind. -/
inductive Kind where
  | image
  | link
  | web
  | mail
  | code
  | emphasis (sign : Sign) (strength : Strength) (single : Bool)
  deriving DecidableEq

namespace Kind

/-- A rule that finds what a pattern describes between two marks. -/
def between (sign : Sign) (strength : Strength) (body : Pattern) : Rule :=
  ⟨literal (mark sign strength) ++ group 1 body ++ literal (mark sign strength),
    fun m => emphasise strength.tags (m.group 1)⟩

def rule : Kind → Rule
  | image => Span.image
  | link => Span.link
  | web => autoLink
  | mail => mailLink
  | code => Span.code
  | emphasis sign strength true => between sign strength (one fun c => !isSpace c && c != sign.char)
  | emphasis sign strength false => between sign strength (one notSpace ++ fewest inLine ++ one notSpace)

/-- The characters with which a rule may begin. -/
def starts : Kind → Text
  | image => "!"
  | link => "["
  | web | mail => "&<"
  | code => "\x60"
  | emphasis sign _ _ => [sign.char]

/-- The kinds in the order of their rules. -/
def all : List Kind :=
  [image, link, web, mail, code] ++ [Strength.both, .strong, .em].flatMap fun strength =>
    [Sign.asterisk, .underscore].flatMap fun sign => [emphasis sign strength true, emphasis sign strength false]

theorem rules_eq : rules = equation :: all.map rule := rfl

theorem mem_all (k : Kind) : k ∈ all := by
  cases k with
  | emphasis sign strength single => cases sign <;> cases strength <;> cases single <;> decide
  | _ => decide

theorem mem_starts {k : Kind} {c : Char} (h : k.rule.pattern.mayBegin c = true) : c ∈ k.starts := by
  cases k with
  | image | link | web | mail | code =>
      simpa [rule, starts, Span.image, Span.link, autoLink, mailLink, Span.code, guarded, reference, openBracket] using h
  | emphasis sign strength single =>
      cases strength <;> cases single <;> simpa [rule, starts, between, mark, Strength.count, List.replicate] using h

/-- A character that an element of a kind may show. -/
def shows : Kind → Char → Bool
  | image => fun c => isPlain c || isWebChar c || anyOf "![]()\" " c
  | link => fun c => isPlain c || isWebChar c || anyOf "[]()\" " c
  | web => fun c => isWebChar c || anyOf "&lt;>" c
  | mail => fun c => isMailboxChar c || anyOf "@&lt;>" c
  | code => fun c => isCodeChar c || c == '\x60'
  | emphasis sign _ _ => fun c => isPlain c || c == sign.char

end Kind

/-! ## The characters of elements -/

namespace Element

def kind : Element → Kind
  | image _ => .image
  | link _ => .link
  | web _ => .web
  | mail _ => .mail
  | code _ => .code
  | emphasis sign strength w => .emphasis sign strength (w.text.length == 1)

end Element

theorem Word.isPlain_of_mem {w : Word} {c : Char} (h : c ∈ w.text) : isPlain c = true := List.all_eq_true.1 w.plain c h

theorem WebAddress.isWebChar_of_mem {a : WebAddress} {c : Char} (h : c ∈ a.text) : isWebChar c = true := by
  have scheme : ("https://" : Text).all isWebChar = true := by decide
  simp only [WebAddress.text, List.mem_append] at h
  rcases h with h | h | h | h
  · exact List.all_eq_true.1 scheme c (by simp at h ⊢; tauto)
  · split at h
    · exact List.all_eq_true.1 scheme c (by simp at h ⊢; tauto)
    · cases h
  · exact List.all_eq_true.1 scheme c (by simp at h ⊢; tauto)
  · exact List.all_eq_true.1 a.allowed c h

theorem MailAddress.of_mem {a : MailAddress} {c : Char} (h : c ∈ a.text) : isMailboxChar c = true ∨ c = '@' := by
  have host {t : Text} (inside : t.all isHostChar = true) (h : c ∈ t) : isMailboxChar c = true := by
    have := List.all_eq_true.1 inside c h
    simp only [isHostChar, isMailboxChar, Bool.or_eq_true] at this ⊢
    tauto
  simp only [MailAddress.text, List.mem_append, List.mem_flatMap, List.mem_cons] at h
  rcases h with h | h | h | ⟨d, hd, rfl | h⟩
  · exact .inl (List.all_eq_true.1 a.inMailbox c h)
  · exact .inr (by simpa using h)
  · exact .inl (host a.inHost h)
  · exact .inl rfl
  · exact .inl (host (a.inDomains d hd) h)

theorem MailAddress.not_mem {a : MailAddress} {c : Char} (h : isMailboxChar c = false) (other : c ≠ '@') : c ∉ a.text := by
  intro mem
  rcases MailAddress.of_mem mem with inside | rfl
  · rw [h] at inside
    cases inside
  · exact other rfl

theorem Reference.of_mem {r : Reference} {c : Char} (h : c ∈ r.source) :
    isPlain c = true ∨ isWebChar c = true ∨ c ∈ ("[]()\" " : Text) := by
  have signs {t : Text} (sub : t ⊆ "[]()\" ") (h : c ∈ t) : c ∈ ("[]()\" " : Text) := sub h
  simp only [Reference.source, List.mem_append] at h
  rcases h with h | h | h | h | h | h
  · exact .inr (.inr (signs (by simp) h))
  · exact .inl (Word.isPlain_of_mem h)
  · exact .inr (.inr (signs (by simp) h))
  · exact .inr (.inl (WebAddress.isWebChar_of_mem h))
  · unfold Reference.titled at h
    split at h
    · simp only [List.mem_append] at h
      rcases h with h | h | h | h
      · exact .inr (.inr (signs (by simp) h))
      · exact .inr (.inr (signs (by simp) h))
      · exact .inl (Word.isPlain_of_mem h)
      · exact .inr (.inr (signs (by simp) h))
    · cases h
  · exact .inr (.inr (signs (by simp) h))

theorem Element.shows_of_mem {e : Element} {c : Char} (h : c ∈ e.shown) : e.kind.shows c = true := by
  have escaped {t : Text} (h : c ∈ ("&lt;" ++ (t ++ ">") : Text)) : c ∈ t ∨ anyOf "&lt;>" c = true := by
    simp only [List.mem_append] at h
    rcases h with h | h | h
    · exact .inr (List.contains_iff_mem.2 (List.mem_append_left (">" : Text) h))
    · exact .inl h
    · exact .inr (List.contains_iff_mem.2 (List.mem_append_right ("&lt;" : Text) h))
  cases e with
  | image r =>
      rcases List.mem_append.1 h with h | h
      · obtain rfl := List.mem_singleton.1 h
        rfl
      · rcases Reference.of_mem h with h | h | h
        · simp [kind, Kind.shows, h]
        · simp [kind, Kind.shows, h]
        · exact Bool.or_eq_true_iff.2 (.inr (List.contains_iff_mem.2 (List.mem_cons_of_mem '!' h)))
  | link r =>
      rcases Reference.of_mem h with h | h | h
      · simp [kind, Kind.shows, h]
      · simp [kind, Kind.shows, h]
      · exact Bool.or_eq_true_iff.2 (.inr (List.contains_iff_mem.2 h))
  | web a =>
      rcases escaped h with h | h
      · exact Bool.or_eq_true_iff.2 (.inl (WebAddress.isWebChar_of_mem h))
      · exact Bool.or_eq_true_iff.2 (.inr h)
  | mail a =>
      rcases escaped h with h | h
      · rcases MailAddress.of_mem h with h | rfl
        · simp [kind, Kind.shows, h]
        · rfl
      · exact Bool.or_eq_true_iff.2 (.inr (List.contains_iff_mem.2 (List.mem_cons_of_mem '@' (List.contains_iff_mem.1 h))))
  | code t =>
      simp only [shown, source, List.mem_append] at h
      rcases h with h | h | h
      · obtain rfl := List.mem_singleton.1 h
        rfl
      · simp [kind, Kind.shows, List.all_eq_true.1 t.allowed c h]
      · obtain rfl := List.mem_singleton.1 h
        rfl
  | emphasis sign strength w =>
      simp only [shown, source, List.mem_append] at h
      rcases h with h | h | h
      · simp [kind, Kind.shows, (List.mem_replicate.1 h).2]
      · simp [kind, Kind.shows, Word.isPlain_of_mem h]
      · simp [kind, Kind.shows, (List.mem_replicate.1 h).2]

theorem Sign.not_plain (sign : Sign) : isPlain sign.char = false := by
  cases sign <;> rfl

theorem mark_cons (sign : Sign) (strength : Strength) : ∃ signs, mark sign strength = sign.char :: signs := by
  cases strength <;> exact ⟨_, rfl⟩

theorem Word.ne_nil (w : Word) : w.text ≠ [] := by
  intro empty
  have begins := w.begins
  rw [empty] at begins
  cases begins

theorem Word.head_ne (w : Word) {sign : Sign} {t : Text} : ∀ c ∈ (w.text ++ t).head?, c ≠ sign.char := by
  obtain ⟨d, rest, word⟩ := List.exists_cons_of_ne_nil w.ne_nil
  rintro c hc rfl
  rw [word] at hc
  cases hc
  have plain := Word.isPlain_of_mem (w := w) (c := sign.char) (by simp [word])
  rw [sign.not_plain] at plain
  cases plain

/-! ## Elements of other rules -/

/-- What may stand behind an element. -/
def Ends (t : Text) : Prop := ∀ c ∈ t.head?, c = ' '

theorem Ends.head_ne {t : Text} (h : Ends t) {sign : Sign} : ∀ c ∈ t.head?, c ≠ sign.char := by
  intro c hc
  rw [h c hc]
  cases sign <;> decide

namespace Kind

/-- Whether the rule of a kind passes over the elements of another kind. -/
def skips : Kind → Kind → Bool
  | image, code => true
  | web, mail => true
  | emphasis sign strength single, emphasis sign' strength' single' =>
    sign != sign' || strength'.count < strength.count || strength == strength' && single && !single'
  | k, k' => k.starts.all fun c => !k'.shows c

theorem all_skips : all.Pairwise fun k k' => k.skips k' = true := by decide

theorem advances (k : Kind) : k.rule.pattern.Advances := by
  cases k with
  | emphasis sign strength single => cases strength <;> cases single <;> exact .of_passes rfl
  | _ => exact .of_passes rfl

theorem passes_of_starts {k : Kind} {b : Option Char} {w t : Text} (h : ∀ c ∈ w, c ∉ k.starts) :
    k.rule.pattern.Passes b w t :=
  .of_signs k.advances (fun _ => mem_starts) h

theorem misses_of_starts {k : Kind} {b : Option Char} {c : Char} {t : Text} (h : c ∉ k.starts) :
    k.rule.pattern.Misses b (c :: t) :=
  Passes.misses (u := []) (passes_of_starts (List.forall_mem_singleton.2 h))

theorem passes_plain {k : Kind} {b : Option Char} {w t : Text} (h : w.all isPlain = true) :
    k.rule.pattern.Passes b w t := by
  have none : k.starts.all (fun c => !isPlain c) = true := by
    cases k with
    | emphasis sign _ _ => cases sign <;> rfl
    | _ => rfl
  refine passes_of_starts fun c hc begins => ?_
  have plain := List.all_eq_true.1 h c hc
  have other := List.all_eq_true.1 none c begins
  rw [plain] at other
  cases other

/-- The rule for images finds nothing where an exclamation mark and another sign than a bracket stand. -/
theorem image_misses {b : Option Char} {c : Char} {t : Text} (other : c ≠ '[') :
    Span.image.pattern.Misses b ('!' :: c :: t) := by
  rintro w r gs split ⟨_, _, _, _, rfl, -, hbang, ⟨_, _, _, _, rfl, -, ⟨_, _, _, _, rfl, -, ⟨_, _, _, _, rfl, -,
    ⟨_, _, _, _, rfl, -, ⟨_, _, _, _, rfl, -, hbracket, -⟩, -⟩, -⟩, -⟩, -⟩⟩
  obtain ⟨rfl, -⟩ := takes_literal.1 hbang
  obtain ⟨rfl, -⟩ := takes_literal.1 hbracket
  exact other (List.cons.inj (List.cons.inj split).2).1

theorem passes_code {b : Option Char} {t : Text} (c : CodeText) :
    Span.image.pattern.Passes b (Element.code c).shown t := by
  intro u v split full
  obtain ⟨d, v, rfl⟩ := List.exists_cons_of_ne_nil full
  by_cases bang : d = '!'
  · subst bang
    cases v with
    | nil =>
        have last := congrArg List.getLast? split
        simp [Element.shown, Element.source, List.getLast?_cons] at last
    | cons d v =>
        refine image_misses fun bracket => ?_
        subst bracket
        have shown := Element.shows_of_mem (e := .code c) (c := '[') (by simp [split])
        exact Bool.false_ne_true shown
  · exact .of_begin (.of_passes rfl) (by
      rw [← Bool.not_eq_true]
      exact fun begins => bang (List.mem_singleton.1 (mem_starts (k := .image) begins)))

/-- Between an escaped bracket and the next bracket there is no address on the web if there is no colon. -/
theorem web_misses {b : Option Char} {a t : Text} (open_ : '>' ∉ a) (other : ':' ∉ a) :
    autoLink.pattern.Misses b ("&lt;" ++ (a ++ '>' :: t)) := by
  rintro w r gs split ⟨_, _, _, _, rfl, -, ⟨_, address, _, _, rfl, -, hopening, _, haddress, -⟩, hclosing⟩
  obtain ⟨rfl, -⟩ := takes_literal.1 hclosing
  obtain ⟨rfl | rfl, -⟩ := openBracket_takes hopening
  · have same : a = address := by
      have behind : a ++ '>' :: t = address ++ '>' :: r := by simpa using split
      refine eq_of_runs (· != '>') behind (fun c hc => ?_) (by simp) (fun c hc => ?_) (by simp)
      · rw [bne_iff_ne]
        rintro rfl
        exact open_ hc
      · rw [bne_iff_ne]
        rintro rfl
        exact absurd (haddress.admits hc) (by decide)
    obtain ⟨⟨s, v, split', -⟩, -⟩ := (scheme_takes haddress).1
    exact other (by simp [same, split'])
  · cases split

theorem passes_mail {b : Option Char} {t : Text} (a : MailAddress) :
    autoLink.pattern.Passes b (Element.mail a).shown t := by
  have first : autoLink.pattern.Misses b ('&' :: ("lt;" ++ (a.text ++ ">") ++ t)) := by
    have all := web_misses (b := b) (t := t) (MailAddress.not_mem (a := a) rfl (by decide))
      (MailAddress.not_mem (a := a) rfl (by decide))
    simpa using all
  have behind : (Kind.rule .web).pattern.Passes (some '&') ("lt;" ++ (a.text ++ ">")) t := by
    refine passes_of_starts fun c hc begins => ?_
    have none : ∀ d ∈ ("lt;>@" : Text), d ∉ ("&<" : Text) := by decide
    simp only [List.mem_append] at hc
    rcases hc with hc | hc | hc
    · exact none c (List.mem_append_left (">@" : Text) hc) begins
    · have outside : ∀ d ∈ ("&<" : Text), isMailboxChar d = false ∧ d ≠ '@' := by decide
      exact MailAddress.not_mem (outside c begins).1 (outside c begins).2 hc
    · obtain rfl := List.mem_singleton.1 hc
      exact none '>' (by simp) begins
  show autoLink.pattern.Passes b ('&' :: ("lt;" ++ (a.text ++ ">"))) t
  exact .cons first behind

/-! ## Marks -/

section Marks

variable {sign : Sign} {strength : Strength} {body : Pattern} {b : Option Char} {n : Nat} {t : Text}

theorem between_takes {w r : Text} {gs : List (Nat × Text)} (h : (between sign strength body).pattern.Takes b w r gs) :
    ∃ contents gs', w = mark sign strength ++ (contents ++ mark sign strength) ∧
      body.Takes ((mark sign strength).getLast?.or b) contents (mark sign strength ++ r) gs' := by
  obtain ⟨_, _, _, _, rfl, -, ⟨_, contents, _, _, rfl, -, hopening, gs', hbody, -⟩, hclosing⟩ := h
  obtain ⟨rfl, -⟩ := takes_literal.1 hopening
  obtain ⟨rfl, -⟩ := takes_literal.1 hclosing
  exact ⟨contents, gs', by simp, hbody⟩

/-- Fewer signs than a mark has begin no mark. -/
theorem between_misses (few : n < strength.count) (stops : ∀ c ∈ t.head?, c ≠ sign.char) :
    (between sign strength body).pattern.Misses b (List.replicate n sign.char ++ t) := by
  intro w r gs split takes
  obtain ⟨contents, gs', rfl, -⟩ := between_takes takes
  obtain ⟨more, count⟩ : ∃ more, strength.count = n + (more + 1) := ⟨strength.count - n - 1, by omega⟩
  rw [mark, count, ← List.replicate_append_replicate, List.append_assoc, List.append_assoc] at split
  have behind := List.append_cancel_left split
  exact stops sign.char (by rw [behind]; rfl) rfl

theorem passes_signs (few : n < strength.count) (stops : ∀ c ∈ t.head?, c ≠ sign.char) :
    (between sign strength body).pattern.Passes b (List.replicate n sign.char) t := by
  intro u v split _
  obtain ⟨length, -, signs⟩ := List.append_eq_replicate_iff.1 split.symm
  rw [signs]
  exact between_misses (by omega) stops

/-- A mark at which the rule finds nothing is passed over as a whole. -/
theorem passes_mark (whole : (between sign strength body).pattern.Misses b (mark sign strength ++ t))
    (stops : ∀ c ∈ t.head?, c ≠ sign.char) : (between sign strength body).pattern.Passes b (mark sign strength) t := by
  obtain ⟨n, count⟩ : ∃ n, strength.count = n + 1 := by cases strength <;> exact ⟨_, rfl⟩
  rw [mark, count, List.replicate_succ] at whole ⊢
  exact .cons whole (passes_signs (by omega) stops)

end Marks

theorem passes_shorter {sign : Sign} {strength strength' : Strength} {body : Pattern} {w : Word} {b : Option Char}
    {t : Text} (plain : ∀ b t, (between sign strength body).pattern.Passes b w.text t)
    (shorter : strength'.count < strength.count) (ends : Ends t) :
    (between sign strength body).pattern.Passes b (Element.emphasis sign strength' w).shown t :=
  .append (passes_signs shorter (by rw [List.append_assoc]; exact w.head_ne))
    (.append (plain _ _) (passes_signs shorter ends.head_ne))

/-- The rule for a single character finds nothing in a longer emphasis. -/
theorem passes_several {sign : Sign} {strength : Strength} {w : Word} {b : Option Char} {t : Text}
    (several : w.text.length ≠ 1) (ends : Ends t) :
    (emphasis sign strength true).rule.pattern.Passes b (Element.emphasis sign strength w).shown t := by
  have front {b : Option Char} {r : Text} :
      (emphasis sign strength true).rule.pattern.Misses b (mark sign strength ++ (w.text ++ r)) := by
    intro v r' gs split takes
    obtain ⟨_, gs', rfl, c, -, rfl, -⟩ := between_takes takes
    rw [List.append_assoc, List.append_assoc] at split
    have behind := List.append_cancel_left split
    obtain ⟨d, rest, word⟩ := List.exists_cons_of_ne_nil w.ne_nil
    cases rest with
    | nil => exact several (by rw [word]; rfl)
    | cons e rest =>
        rw [word] at behind
        have second : e :: (rest ++ r) = mark sign strength ++ r' := (List.cons.inj behind).2
        obtain ⟨signs, begins⟩ := mark_cons sign strength
        rw [begins] at second
        obtain rfl : e = sign.char := (List.cons.inj second).1
        have plain := Word.isPlain_of_mem (w := w) (c := sign.char) (by simp [word])
        rw [sign.not_plain] at plain
        cases plain
  have back {b : Option Char} :
      (emphasis sign strength true).rule.pattern.Misses b (mark sign strength ++ t) := by
    intro v r' gs split takes
    obtain ⟨_, gs', rfl, c, hc, rfl, -⟩ := between_takes takes
    rw [List.append_assoc] at split
    have behind := List.append_cancel_left split
    obtain rfl : c = ' ' := ends c (by rw [behind]; rfl)
    exact Bool.false_ne_true hc
  exact .append (passes_mark (by rw [List.append_assoc]; exact front) (by rw [List.append_assoc]; exact w.head_ne))
    (.append (passes_plain w.plain) (passes_mark back ends.head_ne))

theorem passes_shown {k : Kind} {e : Element} {b : Option Char} {t : Text} (h : k.skips e.kind = true) (ends : Ends t) :
    k.rule.pattern.Passes b e.shown t := by
  have disjoint (h : k.starts.all (fun c => !e.kind.shows c) = true) : k.rule.pattern.Passes b e.shown t := by
    refine passes_of_starts fun c hc begins => ?_
    have other := List.all_eq_true.1 h c begins
    rw [Element.shows_of_mem hc] at other
    cases other
  cases k with
  | image => cases e with
    | code c => exact passes_code c
    | _ => exact disjoint h
  | web => cases e with
    | mail a => exact passes_mail a
    | _ => exact disjoint h
  | link | mail | code => exact disjoint h
  | emphasis sign strength single => cases e with
    | emphasis sign' strength' w =>
        by_cases same : sign = sign'
        · subst same
          have shorter : strength'.count < strength.count ∨ strength = strength' ∧ single = true ∧ w.text.length ≠ 1 := by
            simpa [skips, Element.kind, and_assoc] using h
          rcases shorter with shorter | ⟨rfl, rfl, several⟩
          · cases single with
            | true => exact passes_shorter (fun b t => passes_plain (k := emphasis sign strength true) w.plain) shorter ends
            | false => exact passes_shorter (fun b t => passes_plain (k := emphasis sign strength false) w.plain) shorter ends
          · exact passes_several several ends
        · refine disjoint ?_
          cases sign <;> cases sign' <;> first | rfl | exact absurd rfl same
    | _ => exact disjoint h

end Kind

end LessonText.Span

import LessonText.Markup.MathML
import LessonText.Proofs.Pattern.Direct
import LessonText.Proofs.Unicode.Listed

/-! # Attributes that could do harm

Where an attribute that could do harm begins, and what is left of a text once every one of them is
removed in one pass. A removal can join what stands around it into another such attribute; it does not
when the remaining text goes on with white space, a slash or a closing bracket.
-/

namespace LessonText

namespace MathML

open Pattern Unicode

/-- White space or a slash, as it stands before an attribute. -/
def isGapOrSlash (c : Char) : Bool := isSpace c || c == '/'

def isNamePart (c : Char) : Bool := isWord c || c == ':' || c == '-'

/-- A character of an unsafe name. -/
def isUnsafeNameChar (c : Char) : Bool := isNamePart c || "hrefstylon".toList.any (sameLetter · c)

/-- A character of an unquoted value. -/
def isBare (c : Char) : Bool := !isSpace c && c != '>'

/-- The name of an attribute that could do harm. -/
inductive UnsafeName : Text → Prop where
  | href {u w} : (∀ c ∈ u, isNamePart c = true) →
      List.Forall₂ (fun c d => sameLetter c d = true) "href".toList w → UnsafeName (u ++ w)
  | style {w} : List.Forall₂ (fun c d => sameLetter c d = true) "style".toList w → UnsafeName w
  | on {u w} : List.Forall₂ (fun c d => sameLetter c d = true) "on".toList u → w ≠ [] →
      (∀ c ∈ w, isWord c = true) → UnsafeName (u ++ w)

theorem unsafeName_takes {b : Option Char} {w r : Text} {gs : List (Nat × Text)}
    (h : unsafeName.Takes b w r gs) : UnsafeName w := by
  simp only [unsafeName, takes_or, takes_append, takes_most, takes_literalFold, takes_span1] at h
  rcases h with (⟨u, v, _, _, rfl, -, ⟨hu, -⟩, hv, -⟩ | ⟨hw, -⟩) |
    ⟨u, v, _, _, rfl, -, ⟨hu, -⟩, hne, hv, -, -⟩
  · exact .href hu hv
  · exact .style hw
  · exact .on hu hne hv

theorem UnsafeName.takes {b : Option Char} {w r : Text} (h : UnsafeName w)
    (hr : ∀ c ∈ r.head?, isWord c = false) : unsafeName.Takes b w r [] := by
  simp only [unsafeName, takes_or, takes_append, takes_most, takes_literalFold, takes_span1]
  cases h with
  | @href u v hu hv => exact .inl (.inl ⟨u, v, [], [], rfl, rfl, ⟨hu, rfl⟩, hv, rfl⟩)
  | style hw => exact .inl (.inr ⟨hw, trivial⟩)
  | @on u v hu hne hv => exact .inr ⟨u, v, [], [], rfl, rfl, ⟨hu, rfl⟩, hne, hv, hr, rfl⟩

/-- White space, a slash, a bracket or an equals sign is in no unsafe name. -/
theorem not_isUnsafeNameChar {c : Char} (h : isSpace c = true ∨ c ∈ ['/', '>', '=']) :
    isUnsafeNameChar c = false := by
  rw [← Bool.not_eq_true']
  rcases h with h | h
  · exact of_isSpace (p := fun c => !isUnsafeNameChar c) (by decide +kernel) h
  · have listed : ['/', '>', '='].all (fun c => !isUnsafeNameChar c) = true := by decide
    exact List.all_eq_true.1 listed c h

theorem isUnsafeNameChar_of_same {t w : Text} (ht : t.all "hrefstylon".toList.contains = true)
    (h : List.Forall₂ (fun c d => sameLetter c d = true) t w) :
    ∀ c ∈ w, isUnsafeNameChar c = true := by
  induction h with
  | nil => simp
  | @cons c d t w hd _ ih =>
      rw [List.all_cons, Bool.and_eq_true, List.contains_iff_mem] at ht
      refine List.forall_mem_cons.2 ⟨?_, ih ht.2⟩
      exact Bool.or_eq_true _ _ ▸ .inr (List.any_eq_true.2 ⟨c, ht.1, hd⟩)

theorem UnsafeName.isUnsafeNameChar {w : Text} (h : UnsafeName w) :
    ∀ c ∈ w, isUnsafeNameChar c = true := by
  have part {c : Char} (hc : isNamePart c = true) : MathML.isUnsafeNameChar c = true := by
    simp [MathML.isUnsafeNameChar, hc]
  have word {c : Char} (hc : isWord c = true) : MathML.isUnsafeNameChar c = true :=
    part (by simp [isNamePart, hc])
  intro c hc
  cases h with
  | href hu hw =>
      rcases List.mem_append.1 hc with hc | hc
      · exact part (hu c hc)
      · exact isUnsafeNameChar_of_same rfl hw c hc
  | style hw => exact isUnsafeNameChar_of_same rfl hw c hc
  | on hu _ hw =>
      rcases List.mem_append.1 hc with hc | hc
      · exact isUnsafeNameChar_of_same rfl hu c hc
      · exact word (hw c hc)

theorem UnsafeName.ne_nil {w : Text} (h : UnsafeName w) : w ≠ [] := by
  rintro rfl
  generalize e : ([] : Text) = w at h
  cases h with
  | href _ hw =>
      obtain ⟨-, rfl⟩ := List.append_eq_nil_iff.1 e.symm
      cases hw
  | style hw =>
      subst e
      cases hw
  | on _ hne _ => exact hne (List.append_eq_nil_iff.1 e.symm).2

theorem UnsafeName.exists_cons {w : Text} (h : UnsafeName w) :
    ∃ n u, w = n :: u ∧ isGapOrSlash n = false ∧ isBare n = true := by
  obtain ⟨n, u, rfl⟩ := List.exists_cons_of_ne_nil h.ne_nil
  have other : ¬ (isSpace n = true ∨ n ∈ ['/', '>', '=']) := by
    intro bound
    have inName := h.isUnsafeNameChar n List.mem_cons_self
    rw [not_isUnsafeNameChar bound] at inName
    cases inName
  simp only [List.mem_cons, not_or] at other
  exact ⟨n, u, rfl, by simp [isGapOrSlash, other], by simp [isBare, other]⟩

/-- How a text begins that goes on as an attribute which could do harm. -/
inductive Begins : Text → Prop where
  | intro {sp name ws ws' : Text} {q : Char} {rest : Text} : sp ≠ [] →
      (∀ c ∈ sp, isGapOrSlash c = true) → UnsafeName name → (∀ c ∈ ws, isSpace c = true) →
      (∀ c ∈ ws', isSpace c = true) → isBare q = true →
      Begins (sp ++ (name ++ (ws ++ '=' :: (ws' ++ q :: rest))))

theorem quoted_takes {quote : Char} {b : Option Char} {w r : Text} {gs : List (Nat × Text)} :
    (quoted quote).Takes b w r gs ↔
      ∃ u, w = quote :: (u ++ [quote]) ∧ (∀ c ∈ u, c ≠ quote) ∧ gs = [] := by
  simp only [quoted, takes_append, takes_one, takes_span, beq_iff_eq, bne_iff_ne]
  constructor
  · rintro ⟨_, _, _, _, rfl, rfl, ⟨_, u, _, _, rfl, rfl, ⟨_, rfl, rfl, rfl⟩, hu, -, rfl⟩, _, rfl, rfl, rfl⟩
    exact ⟨u, by simp, hu, rfl⟩
  · rintro ⟨u, rfl, hu, rfl⟩
    exact ⟨quote :: u, [quote], [], [], rfl, rfl,
      ⟨[quote], u, [], [], rfl, rfl, ⟨quote, rfl, rfl, rfl⟩, hu, by simp, rfl⟩, quote, rfl, rfl, rfl⟩

theorem begins_of_takes {b : Option Char} {w r : Text} {gs : List (Nat × Text)}
    (h : unsafeAttribute.Takes b w r gs) : Begins (w ++ r) := by
  simp only [unsafeAttribute, takes_or, takes_append, takes_span1, takes_span, takes_literal,
    quoted_takes] at h
  obtain ⟨_, v, _, _, rfl, -, ⟨_, ws', _, _, rfl, -, ⟨_, _, _, _, rfl, -, ⟨_, ws, _, _, rfl, -,
    ⟨sp, name, _, _, rfl, -, ⟨hne, hsp, -⟩, hname⟩, hws, -⟩, rfl, -⟩, hws', -⟩, hv⟩ := h
  have value : ∃ q u, v = q :: u ∧ isBare q = true := by
    rcases hv with (⟨u, rfl, -⟩ | ⟨u, rfl, -⟩) | ⟨hv, bare, -⟩
    · exact ⟨_, _, rfl, by decide⟩
    · exact ⟨_, _, rfl, by decide⟩
    · obtain ⟨q, u, rfl⟩ := List.exists_cons_of_ne_nil hv
      exact ⟨q, u, rfl, bare q List.mem_cons_self⟩
  obtain ⟨q, u, rfl, hq⟩ := value
  have begins : Begins (sp ++ (name ++ (ws ++ '=' :: (ws' ++ q :: (u ++ r))))) :=
    .intro hne hsp (unsafeName_takes hname) hws hws' hq
  simpa using begins

theorem mem_head?_append_cons {ws t : Text} {c d : Char} (h : c ∈ (ws ++ d :: t).head?) :
    c ∈ ws ∨ c = d := by
  cases ws with
  | nil => exact .inr (Option.some_inj.1 h).symm
  | cons e ws =>
      refine .inl ?_
      rw [← Option.some_inj.1 h]
      exact List.mem_cons_self

theorem Begins.takes {b : Option Char} {t : Text} (h : Begins t) :
    ∃ w r, t = w ++ r ∧ unsafeAttribute.Takes b w r [] := by
  cases h with
  | @intro sp name ws ws' q rest hne hsp hname hws hws' hq =>
      obtain ⟨v, r, rfl, bare, hr⟩ := exists_span isBare rest
      have gap_ends (u : Text) : ∀ c ∈ (name ++ u).head?, isGapOrSlash c = false := by
        obtain ⟨n, name', rfl, hn, -⟩ := hname.exists_cons
        rintro c ⟨⟩
        exact hn
      have name_ends (u : Text) : ∀ c ∈ (ws ++ '=' :: u).head?, isWord c = false := by
        intro c hc
        have notName : isUnsafeNameChar c = false := by
          rcases mem_head?_append_cons hc with hc | rfl
          · exact not_isUnsafeNameChar (.inl (hws c hc))
          · exact not_isUnsafeNameChar (.inr (by simp))
        simp_all [isUnsafeNameChar, isNamePart]
      have value_begins : isSpace q = false := by
        simp_all [isBare]
      refine ⟨sp ++ name ++ ws ++ ['='] ++ ws' ++ q :: v, r, by simp, ?_⟩
      simp only [unsafeAttribute, takes_or, takes_append, takes_span1, takes_span, takes_literal]
      refine ⟨_, q :: v, [], [], rfl, rfl, ⟨_, ws', [], [], rfl, rfl, ⟨_, _, [], [], rfl, rfl,
        ⟨_, ws, [], [], rfl, rfl, ⟨sp, name, [], [], rfl, rfl, ⟨hne, hsp, gap_ends _, rfl⟩,
        hname.takes ?_⟩, hws, ?_, rfl⟩, rfl, rfl⟩, hws', ?_, rfl⟩, .inr ⟨by simp, ?_, hr, rfl⟩⟩
      · simpa using name_ends (ws' ++ q :: (v ++ r))
      · have : isSpace '=' = false := by decide
        simpa using this
      · simpa using value_begins
      · exact List.forall_mem_cons.2 ⟨hq, bare⟩

theorem matchAt_isSome_iff {bound : Nat} {b : Option Char} {t : Text} (inside : t.length ≤ bound) :
    (unsafeAttribute.matchAt bound 0 b t).isSome ↔ Begins t := by
  constructor
  · intro h
    obtain ⟨⟨m, n⟩, hm⟩ := Option.isSome_iff_exists.1 h
    obtain ⟨rest, rfl, -, -, takes⟩ := matchAt_takes hm
    exact begins_of_takes takes
  · intro h
    obtain ⟨w, r, rfl, takes⟩ := h.takes (b := b)
    exact matchAt_isSome (by simp [unsafeAttribute, unsafeName, quoted]) inside takes

theorem Begins.ne_nil {t : Text} (h : Begins t) : t ≠ [] := by
  cases h with
  | intro hne => simp [hne]

theorem unsafeAttribute_advances : unsafeAttribute.Advances := .of_passes rfl

/-! ## What a removal joins -/

/-- A text that begins with white space, a slash or a closing bracket, and with no value for the name
    before it. -/
def isApart (r : Text) : Bool :=
  (r.head?.all fun c => isGapOrSlash c || c == '>') && (r.dropWhile isSpace).head? != some '='

theorem isApart_ne {r ws t : Text} (h : isApart r = true) (hws : ∀ c ∈ ws, isSpace c = true) :
    r ≠ ws ++ '=' :: t := by
  rintro rfl
  have drop : (ws ++ '=' :: t).dropWhile isSpace = '=' :: t := by
    rw [List.dropWhile_append_of_pos hws]
    rfl
  simp [isApart, drop] at h

theorem isApart_head {r : Text} {c : Char} (h : isApart r = true) (hc : c ∈ r.head?) :
    isUnsafeNameChar c = false := by
  cases r with
  | nil => cases hc
  | cons d r =>
      cases hc
      have gap : (isSpace c = true ∨ c = '/') ∨ c = '>' := by
        simp only [isApart, Bool.and_eq_true] at h
        simpa [isGapOrSlash] using h.1
      refine not_isUnsafeNameChar ?_
      rcases gap with (gap | rfl) | rfl
      · exact .inl gap
      · simp
      · simp

/-- Where an attribute begins, an unquoted value begins after some white space. -/
theorem Begins.value {t : Text} (h : Begins t) :
    ∃ ws q rest, t = ws ++ q :: rest ∧ (∀ c ∈ ws, isSpace c = true) ∧ isBare q = true := by
  cases h with
  | @intro sp name ws ws' q rest _ hsp hname _ _ _ =>
      obtain ⟨g, s, rfl, hg, hs⟩ := exists_span isSpace sp
      cases s with
      | nil =>
          obtain ⟨n, u, rfl, -, hn⟩ := hname.exists_cons
          exact ⟨g, n, _, by simp; rfl, hg, hn⟩
      | cons d s =>
          have noSpace : isSpace d = false := hs d rfl
          have slash : d = '/' := by
            simpa [isGapOrSlash, noSpace] using hsp d (by simp)
          subst slash
          exact ⟨g, '/', _, by simp; rfl, hg, by decide⟩

/-- If an attribute begins in `p` followed by `r`, then one begins already in `p` followed by an
    attribute. -/
theorem Begins.of_isApart {p r t : Text} (hp : p ≠ []) (hr : isApart r = true) (ht : Begins t)
    (h : Begins (p ++ r)) : Begins (p ++ t) := by
  generalize e : p ++ r = u at h
  cases h with
  | @intro sp name ws ws' q rest hne hsp hname hws hws' hq =>
      -- The cut between `p` and `r` is in the gap, the name, before the equals sign or behind it.
      rcases List.append_eq_append_iff.1 e with ⟨s, rfl, -⟩ | ⟨p, rfl, behindGap⟩
      · cases ht with
        | @intro sp' name ws ws' q rest _ hsp' hname hws hws' hq =>
            rw [← List.append_assoc]
            refine .intro (by simp [hp]) ?_ hname hws hws' hq
            exact fun c hc => (List.mem_append.1 hc).elim
              (fun hc => hsp c (List.mem_append_left _ hc)) (hsp' c)
      rcases List.append_eq_append_iff.1 behindGap.symm with ⟨n, rfl, rfl⟩ | ⟨p, rfl, behindName⟩
      · cases n with
        | nil => exact absurd rfl (isApart_ne hr hws)
        | cons c n =>
            have inName := hname.isUnsafeNameChar c (by simp)
            rw [isApart_head hr rfl] at inName
            cases inName
      rcases List.append_eq_append_iff.1 behindName.symm with ⟨v, rfl, rfl⟩ | ⟨p, rfl, behindSpace⟩
      · exact absurd rfl (isApart_ne hr fun c hc => hws c (List.mem_append_right _ hc))
      cases p with
      | nil =>
          have noSpace : ∀ c ∈ ([] : Text), isSpace c = true := by simp
          exact absurd behindSpace.symm (isApart_ne hr noSpace)
      | cons d p =>
          obtain ⟨rfl, behindSign⟩ := List.cons.inj behindSpace
          have joined (p : Text) (hp : ∀ c ∈ p, isSpace c = true) :
              Begins (sp ++ (name ++ (ws ++ '=' :: p)) ++ t) := by
            obtain ⟨g, q, rest, rfl, hg, hq⟩ := ht.value
            have space : ∀ c ∈ p ++ g, isSpace c = true :=
              fun c hc => (List.mem_append.1 hc).elim (hp c) (hg c)
            have begins : Begins (sp ++ (name ++ (ws ++ '=' :: (p ++ g ++ q :: rest)))) :=
              .intro hne hsp hname hws space hq
            simpa using begins
          rcases List.append_eq_append_iff.1 behindSign.symm with ⟨v, rfl, -⟩ | ⟨p, rfl, behindValue⟩
          · exact joined p fun c hc => hws' c (List.mem_append_left _ hc)
          cases p with
          | nil => simpa using joined ws' hws'
          | cons d p =>
              obtain ⟨rfl, -⟩ := List.cons.inj behindValue
              have begins : Begins (sp ++ (name ++ (ws ++ '=' :: (ws' ++ q :: (p ++ t))))) :=
                .intro hne hsp hname hws hws' hq
              simpa using begins

/-! ## One pass -/

/-- What remains behind each removed attribute stands apart from what is before it. -/
def staysApart : List (Piece Match) → Bool
  | [] => true
  | .plain _ :: rest => staysApart rest
  | .found _ :: rest => isApart (Piece.assemble (fun _ => []) rest) && staysApart rest

/-- A scan passes plain characters up to the next attribute or the end. -/
theorem plain_prefix {find : Finder Match} {b : Option Char} {t : Text} {ps : List (Piece Match)}
    (h : Scan find b t ps) (apart : staysApart ps = true) : ∃ p r s, t = p ++ s ∧
      Piece.assemble (fun _ => []) ps = p ++ r ∧
      (s = [] ∧ r = [] ∨ isApart r = true ∧ ∃ b, (find b s).isSome) := by
  induction h with
  | nil => exact ⟨[], [], [], rfl, rfl, .inl ⟨rfl, rfl⟩⟩
  | @plain b c t ps _ _ ih =>
      obtain ⟨p, r, s, rfl, kept, next⟩ := ih apart
      exact ⟨c :: p, r, s, rfl, congrArg (c :: ·) kept, next⟩
  | @found b w t a ps _ hf _ _ =>
      rw [staysApart, Bool.and_eq_true] at apart
      exact ⟨[], _, w ++ t, rfl, rfl, .inr ⟨apart.1, b, by simp [hf]⟩⟩

theorem no_attribute_begins {bound : Nat} {b : Option Char} {t : Text} {ps : List (Piece Match)}
    (h : Scan (unsafeAttribute.matchAt bound 0) b t ps) (inside : t.length ≤ bound)
    (apart : staysApart ps = true) : ∀ u s, Piece.assemble (fun _ => []) ps = u ++ s → ¬ Begins s := by
  induction h with
  | nil =>
      intro u s e begins
      exact begins.ne_nil (List.append_eq_nil_iff.1 e.symm).2
  | @plain b c t ps hf hs ih =>
      have within : t.length ≤ bound := by
        rw [List.length_cons] at inside
        omega
      intro u s e begins
      cases u with
      | cons d u => exact ih within apart u s (List.cons.inj e).2 begins
      | nil =>
          have whole : Begins (c :: Piece.assemble (fun _ => []) ps) := by
            rw [← show _ = s from e] at begins
            exact begins
          obtain ⟨p, r, s, rfl, kept, next⟩ := plain_prefix hs apart
          have here : Begins (c :: p ++ s) := by
            rw [kept] at whole
            rcases next with ⟨rfl, rfl⟩ | ⟨hr, b, hb⟩
            · exact whole
            · have within : s.length ≤ bound := by
                rw [List.length_append] at within
                omega
              exact .of_isApart (by simp) hr ((matchAt_isSome_iff within).1 hb) whole
          have found := (matchAt_isSome_iff (b := b) inside).2 here
          rw [hf] at found
          cases found
  | @found b w t a ps _ _ _ ih =>
      rw [staysApart, Bool.and_eq_true] at apart
      have within : t.length ≤ bound := by
        rw [List.length_append] at inside
        omega
      exact ih within apart.2

/-- One pass removes every attribute that could do harm if what remains behind each stands apart. -/
theorem not_occursIn_sanitiseTag {t : Text} (apart : staysApart (unsafeAttribute.pieces t) = true) :
    unsafeAttribute.occursIn (sanitiseTag t) = false := by
  rw [← Bool.not_eq_true, occursIn_iff]
  rintro ⟨m, hm⟩
  have scan := pieces_scan unsafeAttribute_advances t
  obtain ⟨b, u, r, split, takes⟩ := (pieces_scan unsafeAttribute_advances (sanitiseTag t)).mem_found hm
  rw [List.append_assoc] at split
  exact no_attribute_begins scan (Nat.le_refl _) apart u (m.text ++ r) split (begins_of_takes takes)

end MathML

end LessonText

import LessonText.Proofs.Markup.Equations
import LessonText.Proofs.Markup.Places

/-! # Span rules keep wards

What a span rule builds is given back its wards before it goes into custody, so a ward may stand in most
parts of it. Only the address of a link goes into custody by itself.
-/

namespace LessonText.Span

open Draft Pattern Unicode Hazard

variable {hs : List (Hazard (Option Char))} {past old d b : Draft}

/-- A draft that means nothing like a key shows nothing like one beside its wards. -/
theorem safe_shape (h : keyHazard.Spares (meaning d)) : keyHazard.safe [] (shape d) = true := by
  have all : ∀ S T, S ⊆ T → T ⊆ anywhere keyHazard →
      safe keyHazard T ((meaning d).map some) = true → safe keyHazard S (shape d) = true := by
    clear h
    induction d with
    | nil => exact fun S T _ _ _ => rfl
    | cons x d ih =>
        intro S T sub inside safe
        rw [meaning_cons, List.map_append, safe_append] at safe
        rw [shape_cons, ← List.singleton_append, safe_append]
        cases x with
        | char c =>
            exact ⟨safe_mono sub safe.1, ih _ _ (reach_mono sub _) (reach_subset_anywhere inside _) safe.2⟩
        | ward w =>
            have ends : Hazard.ends keyHazard [none] = true := rfl
            have here := List.Subset.trans sub inside
            refine ⟨safe_of_ends ends here, ?_⟩
            rw [show reach keyHazard S [Token.letter? (.ward w)] = [] from reach_of_ends ends here]
            exact ih _ _ (List.nil_subset _) (reach_subset_anywhere inside _) safe.2
  exact all [] [] (List.nil_subset _) (List.nil_subset _) h

theorem shape_prefix {lead : Text} (start : lead <+: text d) (unmarked : '?' ∉ lead) :
    lead.map some <+: shape d := by
  obtain ⟨u, h⟩ := start
  obtain ⟨e, rfl, -⟩ := split_left h.symm unmarked
  rw [shape_append, shape_chars]
  exact List.prefix_append _ _

/-! ## What is built and guarded -/

/-- Nothing but a ward of these data. -/
def Guards (data : Text) (d : Draft) : Prop := ∃ w : Ward, d = [.ward w] ∧ w.data = data

/-- What is built goes into custody as a whole, its wards put back. -/
theorem guard_ward (harmless : keyHazard.Spares (meaning b)) (full : meaning b ≠ []) :
    Turns (Rendering.reinstate (text b) >>= Rendering.protect) (wards b) (Guards (meaning b)) := by
  refine (Turns.reinstate (safe_shape harmless)).andThen ?_
  rintro d rfl
  rw [text_chars, wards_chars]
  exact Turns.protect full

/-- What is built between texts that end every word goes into custody. -/
theorem guard_between {n u z : Text} (built : meaning b = n ++ u ++ z) (ne : n ≠ [])
    (hn : Hazard.ends keyHazard (n.map some) = true) (hz : Hazard.ends keyHazard (z.map some) = true)
    (hu : keyHazard.Spares u) :
    Turns (Rendering.reinstate (text b) >>= Rendering.protect) (wards b) (Guards (n ++ u ++ z)) := by
  have harmless : keyHazard.Spares (n ++ u ++ z) := (hu.ends_append hn).append_ends hz
  rw [← built] at harmless ⊢
  exact guard_ward harmless (by simp [built, ne])

/-- Such a ward may take the place of a match that begins with a sign. -/
theorem Guards.allows {s n u z : Text} (guards : Guards (n ++ u ++ z) d) (start : s <+: text old) (unmarked : '?' ∉ s)
    (hn : Hazard.ends keyHazard (n.map some) = true) (hz : Hazard.ends keyHazard (z.map some) = true)
    (hu : keyHazard.Spares u) (yields : hs.all (·.yields (s.map some) none) = true) :
    ∀ x ∈ watches hs, x.Allows past old d := by
  obtain ⟨w, rfl, data⟩ := guards
  intro x hx
  rcases List.mem_cons.1 hx with rfl | hx
  · have seen : Watch.keys.see [.ward w] = n.map some ++ u.map some ++ z.map some := by
      simp [Watch.keys, Watch.ofMeaning, Token.meaning, data]
    rw [Watch.Allows, seen]
    exact .enclosed Watch.begun_subset hn hz fun _ => hu
  · obtain ⟨h, hh, rfl⟩ := List.mem_map.1 hx
    obtain ⟨behind, begins⟩ := shape_prefix start unmarked
    have seen : (Watch.ofShape h).see old = s.map some ++ behind := begins.symm
    rw [Watch.Allows, seen]
    exact .of_yields Watch.begun_subset (List.all_eq_true.1 yields h hh)

/-! ## Equations -/

/-- The mark at both ends of an equation. -/
def equationMark : Pattern := one (· == '\x7b') ++ "math" ++ optional "s" ++ one (· == '\x7d')

theorem equationMark_takes {b : Option Char} {w r : Text} {gs : List (Nat × Text)}
    (h : equationMark.Takes b w r gs) : ∃ v, w = "\x7bmath" ++ v ∧ ∀ c ∈ v, inLine c = true := by
  obtain ⟨_, _, _, _, rfl, -, ⟨_, plural, _, _, rfl, -, ⟨_, _, _, _, rfl, -, ⟨_, ho, rfl, -⟩, hm⟩, hp⟩,
    _, hc, rfl, -⟩ := h
  obtain rfl := beq_iff_eq.1 ho
  obtain rfl := beq_iff_eq.1 hc
  obtain ⟨rfl, -⟩ := takes_literal.1 hm
  rcases hp with hp | ⟨rfl, -⟩
  · obtain ⟨rfl, -⟩ := takes_literal.1 hp
    exact ⟨"s\x7d", rfl, List.all_eq_true.1 (show ("s\x7d" : Text).all inLine = true from rfl)⟩
  · exact ⟨"\x7d", rfl, List.all_eq_true.1 (show ("\x7d" : Text).all inLine = true from rfl)⟩

section

variable {bound : Nat} {rest : Draft} {m : Match}

/-- There is no ward in an equation. -/
theorem equation_found (calm : Calm (watches (inEquation :: hs)) old) (found : Found equation.pattern bound past old rest m) :
    ("\x7b" : Text) <+: text old ∧ wards old = [] ∧ keyHazard.Spares (Maths.toHtml (m.group 1)) := by
  obtain ⟨_, close, _, _, whole, groups, ⟨opening, content, _, _, rfl, rfl, hopening, _, hcontent, rfl⟩,
    hclose⟩ := found.takes
  obtain rfl := hopening.groups_eq_nil rfl
  obtain rfl := hclose.groups_eq_nil rfl
  obtain ⟨-, isContent, rfl⟩ := takes_few1.1 hcontent
  obtain ⟨v, rfl, hv⟩ := equationMark_takes hopening
  obtain ⟨v', rfl, hv'⟩ := equationMark_takes hclose
  have first : m.group 1 = content := Match.group_eq groups
  have inline : ∀ c ∈ v ++ content ++ ("\x7bmath" ++ v'), inLine c = true := by
    intro c hc
    simp only [List.mem_append] at hc
    rcases hc with (hc | hc) | hc | hc
    · exact hv c hc
    · exact isContent c hc
    · exact List.all_eq_true.1 (show ("\x7bmath" : Text).all inLine = true from rfl) c hc
    · exact hv' c hc
  have split : text old = ([] : Text) ++ ("\x7bmath" : Text) ++ (v ++ content ++ ("\x7bmath" ++ v')) := by
    simpa using whole
  have none : wards old = [] :=
    wards_behind (calm (.ofShape inEquation) (by simp [watches])) matches_gap split (by decide) inline
  refine ⟨⟨_, by rw [split]; rfl⟩, none, ?_⟩
  rw [first]
  refine Maths.spares_toHtml (.of_factor (a := "\x7bmath" ++ v) (z := "\x7bmath" ++ v') ?_)
  have quiet := spares_text (calm _ List.mem_cons_self) none
  rwa [whole] at quiet

/-- An equation goes into custody as an element. -/
theorem equation_guards (calm : Calm (watches (inEquation :: hs)) old)
    (found : Found equation.pattern bound past old rest m) : Turns (equation.replace m) (wards old)
      (Guards (" <span class=\"maths\">" ++ Maths.toHtml (m.group 1) ++ "</span> ")) := by
  obtain ⟨-, none, data⟩ := equation_found calm found
  have replaced : equation.replace m = (Rendering.reinstate (text (chars
      (" <span class=\"maths\">" ++ Maths.toHtml (m.group 1) ++ "</span> "))) >>= Rendering.protect) := by
    have element : Maths.element (m.group 1) .inline =
        " <span class=\"maths\">" ++ Maths.toHtml (m.group 1) ++ "</span> " := by
      show " <" ++ ("span" : Text) ++ " class=\"maths\">" ++ Maths.toHtml (m.group 1) ++ "</" ++ "span" ++ "> " = _
      simp
    rw [text_chars, ← element]
    simp only [equation, guarded, pure_bind]
  rw [replaced, none, ← wards_chars]
  exact guard_between (meaning_chars _) (by simp) (ends_key rfl (by decide)) (ends_key rfl (by decide)) data

end

theorem equation_sharp : equation.pattern.Sharp :=
  .of_ends (Opens.char rfl).append.append.append.append.append (.append (.append (.char rfl)))

theorem equation_sound (yields : hs.all (·.yields (("\x7b" : Text).map some) none) = true) :
    Sound (watches (inEquation :: hs)) (watches hs) equation.apply := by
  refine Sound.of_sharp (watches_subset (List.subset_cons_self _ _)) (.of_passes rfl) equation_sharp ?_
  intro past old rest m calm found
  have quietOld : Calm (watches (inEquation :: hs)) old :=
    fun x hx => (calm x hx).of_append_right.of_append_left
  obtain ⟨start, -, data⟩ := equation_found quietOld found
  exact (equation_guards quietOld found).mono fun new guards =>
    guards.allows start (by decide) (ends_key rfl (by decide)) (ends_key rfl (by decide)) data yields

/-! ## Images and links -/

/-- The address of a reference: a scheme, and characters of addresses. -/
structure Address (t : Text) : Prop where
  split : ∃ s v, t = s ++ "://" ++ v ∧ '?' ∉ s ∧ ∀ c ∈ v, isAddressChar c = true
  begins : "http" <+: t
  plain : ∀ c ∈ ("\"<" : Text), c ∉ t

theorem Address.full {t : Text} (h : Address t) : t ≠ [] := by
  rintro rfl
  exact absurd h.begins (by simp)

theorem scheme_takes {b : Option Char} {w r : Text} {gs : List (Nat × Text)}
    (h : (scheme ++ span1 isAddressChar).Takes b w r gs) : Address w ∧ gs = [] := by
  have refused : ∀ c ∈ ("\"<" : Text), (scheme ++ span1 isAddressChar).admits c = false := by decide
  have plain (c : Char) (sign : c ∈ ("\"<" : Text)) : c ∉ w := fun mem =>
    Bool.false_ne_true ((refused c sign).symm.trans (h.admits mem))
  obtain ⟨_, v, _, _, rfl, rfl, ⟨_, slashes, _, _, rfl, rfl, ⟨_, plural, _, _, rfl, rfl, hh, hp⟩, hs⟩, hv⟩ := h
  obtain ⟨rfl, rfl⟩ := takes_literal.1 hh
  obtain rfl := hp.groups_eq_nil rfl
  obtain ⟨rfl, rfl⟩ := takes_literal.1 hs
  obtain ⟨-, isAddress, -, rfl⟩ := takes_span1.1 hv
  refine ⟨⟨⟨"http" ++ plural, v, rfl, ?_, isAddress⟩, ⟨plural ++ ("://" ++ v), by simp⟩, plain⟩, rfl⟩
  intro mark
  rcases List.mem_append.1 mark with mark | mark
  · simp at mark
  · exact absurd (hp.admits mark) (by decide)

/-- The parts of a reference, and the wards in them. -/
structure Parts (lead : Text) (old : Draft) (m : Match) (alt address title : Draft) : Prop where
  begins : lead ++ ['['] <+: text old
  alt_eq : text alt = m.group 1
  address_eq : text address = m.group 2
  title_eq : text title = m.group 3
  isAddress : Address (m.group 2)
  wards_eq : wards old = wards alt ++ wards address ++ wards title
  altInside : alt <:+: old
  addressInside : address <:+: old
  titleInside : title <:+: old

theorem reference_parts {s w r : Text} {o : Option Char} {m : Match} (hs : '?' ∉ s)
    (split : text old = s ++ w) (h : reference.Takes o w r m.groups) :
    ∃ alt address title, Parts s old m alt address title := by
  obtain ⟨_, close, _, _, rfl, groups, ⟨_, titled, _, _, rfl, rfl, ⟨_, u, _, _, rfl, rfl,
    ⟨_, bracket, _, _, rfl, rfl, ⟨opening, alt, _, _, rfl, rfl, hopening, _, halt, rfl⟩, hbracket⟩,
    _, hu, rfl⟩, htitled⟩, hclose⟩ := h
  obtain ⟨rfl, rfl⟩ := takes_literal.1 hopening
  obtain ⟨rfl, rfl⟩ := takes_literal.1 hbracket
  obtain ⟨rfl, rfl⟩ := takes_literal.1 hclose
  obtain rfl := halt.groups_eq_nil rfl
  obtain ⟨isAddress, rfl⟩ := scheme_takes hu
  have start : text old = (s ++ "[") ++ (alt ++ ']' :: ('(' :: (u ++ (titled ++ [')'])))) := by
    rw [split]
    simp
  obtain ⟨e₁, rfl, h₁⟩ := split_left start (by simp [hs])
  obtain ⟨a, e₂, rfl, ha, h₂⟩ := split_at h₁ rfl
  obtain ⟨e₃, rfl, h₃⟩ := split_left (t := ['(']) h₂ (by decide)
  have altInside (e : Draft) : a <:+: chars (s ++ "[") ++ (a ++ e) :=
    (List.prefix_append a e).isInfix.trans (List.suffix_append _ _).isInfix
  have behind (e : Draft) : e <:+ chars (s ++ "[") ++ (a ++ Token.char ']' :: (chars ['('] ++ e)) :=
    (List.suffix_append _ e).trans ((List.suffix_cons _ _).trans
      ((List.suffix_append a _).trans (List.suffix_append _ _)))
  rcases htitled with ⟨_, quote', _, _, rfl, rfl, ⟨_, title, _, _, rfl, rfl, ⟨spaces, quote, _, _, rfl,
    rfl, hspaces, hquote⟩, _, htitle, rfl⟩, hquote'⟩ | ⟨rfl, rfl⟩
  · obtain ⟨hne, areSpaces, -, rfl⟩ := takes_span1.1 hspaces
    obtain ⟨rfl, rfl⟩ := takes_literal.1 hquote
    obtain ⟨rfl, rfl⟩ := takes_literal.1 hquote'
    obtain rfl := htitle.groups_eq_nil rfl
    obtain ⟨c, spaces, rfl⟩ := List.exists_cons_of_ne_nil hne
    obtain ⟨isSpace, otherSpaces⟩ := List.forall_mem_cons.1 areSpaces
    obtain rfl : c = ' ' := beq_iff_eq.1 isSpace
    have first : m.group 1 = alt := Match.group_eq groups
    have second : m.group 2 = u := Match.group_eq groups
    have third : m.group 3 = title := Match.group_eq groups
    have fourth : text e₃ = u ++ ' ' :: ((spaces ++ "\"") ++ title ++ "\")") := by
      rw [h₃]
      simp
    obtain ⟨v, e₄, rfl, hv, h₄⟩ := split_at fourth rfl
    have noMark : '?' ∉ spaces ++ ("\"" : Text) := by
      intro mark
      rcases List.mem_append.1 mark with mark | mark
      · exact absurd (otherSpaces '?' mark) (by decide)
      · exact absurd mark (by decide)
    obtain ⟨t, rfl, ht⟩ := split_around h₄ noMark (by decide)
    refine ⟨a, v, t, ⟨_, start.symm⟩, ha.trans first.symm, hv.trans second.symm, ht.trans third.symm,
      second ▸ isAddress, by simp, altInside _, ?_, ?_⟩
    · exact (List.prefix_append v _).isInfix.trans (behind _).isInfix
    · have here : t <:+: v ++ Token.char ' ' :: (chars (spaces ++ "\"") ++ t ++ chars "\")") :=
        (List.infix_append _ _ _).trans ((List.suffix_cons _ _).trans (List.suffix_append _ _)).isInfix
      exact here.trans (behind _).isInfix
  · have first : m.group 1 = alt := Match.group_eq groups
    have second : m.group 2 = u := Match.group_eq groups
    have third : m.group 3 = [] := Match.group_eq groups
    obtain ⟨v, e₄, rfl, hv, h₄⟩ := split_at h₃ rfl
    obtain rfl : e₄ = [] := by
      rw [eq_chars_of_text (d := e₄) (by simp [h₄]), h₄]
      rfl
    refine ⟨a, v, [], ⟨_, start.symm⟩, ha.trans first.symm, hv.trans second.symm, third.symm, second ▸ isAddress,
      by simp, altInside _, ?_, List.nil_infix⟩
    exact (List.prefix_append v _).isInfix.trans (behind _).isInfix

/-- Author text inside a quoted attribute, its wards put back. -/
def quoted (t : Text) : Text := t.flatMap fun c => if c = '"' then "&quot;" else [c]

theorem spares_quoted {t : Text} (h : keyHazard.Spares t) : keyHazard.Spares (quoted t) := by
  refine h.flatMap fun c => ?_
  by_cases quote : c = '"'
  · rw [if_pos quote]
    exact .inr (ends_key rfl (by decide))
  · rw [if_neg quote]
    exact .inl rfl

theorem quotable_turns (h : keyHazard.Spares (meaning d)) :
    Turns (quotable (text d)) (wards d) fun e => e = chars (quoted (meaning d)) := by
  refine (Turns.reinstate (safe_shape h)).andThen ?_
  rintro e rfl
  refine .pure_of (d := chars (quoted (meaning d))) rfl ?_ (by simp)
  rw [text_chars, text_chars]
  rfl

/-- What stands between the first quote of an image and its last. -/
def pictured (alt address title : Text) : Text := quoted alt ++ "\" src=\"" ++ address ++ "\" title=\"" ++ quoted title

section

variable {m : Match} {lead : Text} {alt address title : Draft}

theorem Parts.spares (parts : Parts lead old m alt address title) (quiet : Watch.keys.Quiet old) :
    keyHazard.Spares (meaning alt) ∧ keyHazard.Spares (meaning address) ∧ keyHazard.Spares (meaning title) :=
  ⟨spares_meaning (quiet.of_inside parts.altInside), spares_meaning (quiet.of_inside parts.addressInside),
    spares_meaning (quiet.of_inside parts.titleInside)⟩

theorem Parts.spares_pictured (parts : Parts lead old m alt address title) (quiet : Watch.keys.Quiet old) :
    keyHazard.Spares (pictured (meaning alt) (meaning address) (meaning title)) := by
  obtain ⟨ofAlt, ofAddress, ofTitle⟩ := parts.spares quiet
  exact ((spares_quoted ofAlt).join (ends_key rfl (by decide)) ofAddress).join (ends_key rfl (by decide)) (spares_quoted ofTitle)

/-- An image goes into custody as a tag. -/
theorem image_guards (parts : Parts lead old m alt address title) (quiet : Watch.keys.Quiet old) :
    Turns (image.replace m) (wards old)
      (Guards ("<img alt=\"" ++ pictured (meaning alt) (meaning address) (meaning title) ++ "\"/>")) := by
  obtain ⟨ofAlt, -, ofTitle⟩ := parts.spares quiet
  let build : Rendering Text := do
    let alt ← quotable (m.group 1)
    let title ← quotable (m.group 3)
    return "<img alt=\"" ++ alt ++ "\" src=\"" ++ m.group 2 ++ "\" title=\"" ++ title ++ "\"/>"
  have built : Turns build (wards old) fun b =>
      meaning b = "<img alt=\"" ++ pictured (meaning alt) (meaning address) (meaning title) ++ "\"/>" := by
    rw [parts.wards_eq, List.append_assoc]
    simp only [build, ← parts.alt_eq, ← parts.address_eq, ← parts.title_eq]
    refine (quotable_turns ofAlt).bind ?_
    rintro _ rfl
    rw [wards_chars, List.nil_append, text_chars]
    refine Turns.perm ?_ List.perm_append_comm
    refine (quotable_turns ofTitle).bind ?_
    rintro _ rfl
    rw [wards_chars, List.nil_append, text_chars]
    refine .pure_of (d := chars ("<img alt=\"" ++ quoted (meaning alt) ++ "\" src=\"") ++ address ++
      chars ("\" title=\"" ++ quoted (meaning title) ++ "\"/>")) ?_ ?_ ?_
    · simp [pictured]
    · simp
    · simp
  have replaced : image.replace m =
      (build >>= fun t => Rendering.reinstate t >>= Rendering.protect) := by
    simp only [image, guarded, build]
  rw [replaced]
  exact built.andThen fun b hb =>
    guard_between hb (by simp) (ends_key rfl (by decide)) (ends_key rfl (by decide)) (parts.spares_pictured quiet)

end

theorem image_sharp : image.pattern.Sharp := .of_ends (Opens.literal rfl).append (.append (.append (.literal rfl rfl)))

theorem image_parts {bound : Nat} {rest : Draft} {m : Match} (found : Found image.pattern bound past old rest m) :
    ∃ alt address title, Parts "!" old m alt address title := by
  obtain ⟨_, w, _, _, whole, groups, bang, reference⟩ := found.takes
  obtain ⟨rfl, rfl⟩ := takes_literal.1 bang
  rw [List.append_nil] at groups
  rw [← groups] at reference
  exact reference_parts (by decide) whole reference

theorem image_sound (yields : hs.all (·.yields (("![" : Text).map some) none) = true) :
    Sound (watches hs) (watches hs) image.apply := by
  refine Sound.of_sharp (List.Subset.refl _) (.of_passes rfl) image_sharp ?_
  intro past old rest m calm found
  have quiet : Watch.keys.Quiet old := (calm _ List.mem_cons_self).of_append_right.of_append_left
  obtain ⟨alt, address, title, parts⟩ := image_parts found
  exact (image_guards parts quiet).mono fun new guards => guards.allows parts.begins (by decide) (ends_key rfl (by decide))
    (ends_key rfl (by decide)) (parts.spares_pictured quiet) yields

end LessonText.Span

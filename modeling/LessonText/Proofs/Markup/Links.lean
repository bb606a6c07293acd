import LessonText.Proofs.Markup.Spans

/-! # Links keep wards

An address is written twice, so there must be no ward in it. A mail address shows none, and everything
else in a link is given back its wards before it goes into custody.
-/

namespace LessonText.Span

open Draft Pattern Unicode Hazard

variable {hs : List (Hazard (Option Char))} {past old d rest : Draft} {bound : Nat} {m : Match}

/-- No ward is in an address behind which none may stand. -/
theorem Address.wards (h : Address (text d)) (quiet : (Watch.ofShape inAddress).Quiet d) :
    Draft.wards d = [] := by
  obtain ⟨s, v, split, unmarked, inside⟩ := h.split
  refine wards_behind quiet (.stop (.one rfl .nil)) split ?_ inside
  simp [unmarked]

/-! ## Links with a text -/

/-- The inside of an anchor: the address, the title and the text that is linked. -/
def linked (address title alt : Text) : Text := address ++ "\" title=\"" ++ quoted title ++ "\">" ++ alt

/-- The anchor goes into custody as a whole. -/
theorem anchor_turns {alt address title : Draft} (plain : Draft.wards address = [])
    (ofTitle : keyHazard.Spares (meaning title))
    (content : keyHazard.Spares (linked (meaning address) (meaning title) (meaning alt))) :
    Turns (do
        let title ← quotable (text title)
        Rendering.reinstate ("<a target=\"_blank\" href=\"" ++ text address ++ "\" title=\"" ++ title ++
          "\">" ++ text alt ++ "</a>") >>= Rendering.protect)
      (Draft.wards title ++ Draft.wards alt)
      (Guards ("<a target=\"_blank\" href=\"" ++ linked (meaning address) (meaning title) (meaning alt) ++ "</a>")) := by
  refine (quotable_turns ofTitle).bind ?_
  rintro _ rfl
  rw [wards_chars, List.nil_append, text_chars]
  let anchor : Draft := chars "<a target=\"_blank\" href=\"" ++ address ++
    chars ("\" title=\"" ++ quoted (meaning title) ++ "\">") ++ alt ++ chars "</a>"
  have shown : "<a target=\"_blank\" href=\"" ++ text address ++ "\" title=\"" ++ quoted (meaning title) ++
      "\">" ++ text alt ++ "</a>" = text anchor := by simp [anchor]
  have held : Draft.wards alt = Draft.wards anchor := by simp [anchor, plain]
  rw [shown, held]
  exact guard_between (by simp [anchor, linked]) (by simp) (ends_key rfl (by decide)) (ends_key rfl (by decide)) content

/-- An anchor in custody and, for the printed page, its address in custody. -/
def printed (w w' : Ward) : Draft :=
  [Token.ward w] ++ chars "<span class=\"print-only\"> (" ++ [Token.ward w'] ++ chars ")</span>"

/-- The anchor and, for the printed page, the address take the place of the reference. -/
theorem link_allows {w w' : Ward} {u : Text} (start : "[" <+: text old)
    (content : keyHazard.Spares (u ++ "</a><span class=\"print-only\"> (" ++ w'.data))
    (anchor : w.data = "<a target=\"_blank\" href=\"" ++ u ++ "</a>")
    (yields : hs.all (·.yields (("[" : Text).map some) none) = true)
    (ends : hs.all (·.ends (("<span class=\"print-only\"> (" : Text).map some ++
      none :: (")</span>" : Text).map some)) = true) :
    ∀ x ∈ watches hs, x.Allows past old (printed w w') := by
  intro x hx
  rcases List.mem_cons.1 hx with rfl | hx
  · have seen : Watch.keys.see (printed w w') = ("<a target=\"_blank\" href=\"" : Text).map some ++
        (u ++ "</a><span class=\"print-only\"> (" ++ w'.data).map some ++ (")</span>" : Text).map some := by
      simp [printed, Watch.keys, Watch.ofMeaning, Token.meaning, anchor]
    rw [Watch.Allows, seen]
    exact .enclosed Watch.begun_subset (ends_key rfl (by decide)) (ends_key rfl (by decide)) fun _ => content
  · obtain ⟨h, hh, rfl⟩ := List.mem_map.1 hx
    obtain ⟨behind, begins⟩ := shape_prefix start (by decide)
    have seen : (Watch.ofShape h).see (printed w w') = [none] ++ (("<span class=\"print-only\"> (" : Text).map some ++
        none :: (")</span>" : Text).map some) := by
      simp [printed, Watch.ofShape, Token.letter?]
    rw [Watch.Allows, seen, show (Watch.ofShape h).see old = _ from begins.symm]
    have within : (Watch.ofShape h).begun past ⊆ anywhere h := Watch.begun_subset
    exact (Hazard.Allows.of_yields within (List.all_eq_true.1 yields h hh)).append_ends within (List.all_eq_true.1 ends h hh)

/-- No ward is in the address of a reference behind which none may stand. -/
theorem Parts.address_wards {lead : Text} {alt address title : Draft} (parts : Parts lead old m alt address title)
    (quiet : (Watch.ofShape inAddress).Quiet old) : Draft.wards address = [] :=
  Address.wards (parts.address_eq ▸ parts.isAddress) (quiet.of_inside parts.addressInside)

section

variable {lead : Text} {alt address title : Draft}

theorem Parts.spares_linked (parts : Parts lead old m alt address title) (quiet : Watch.keys.Quiet old) :
    keyHazard.Spares (linked (meaning address) (meaning title) (meaning alt)) := by
  obtain ⟨ofAlt, ofAddress, ofTitle⟩ := parts.spares quiet
  exact (ofAddress.join (ends_key rfl (by decide)) (spares_quoted ofTitle)).join (ends_key rfl (by decide)) ofAlt

/-- The anchor of a link goes into custody, and so does its address. -/
theorem linked_turns (parts : Parts lead old m alt address title) (quiet : Watch.keys.Quiet old)
    (plain : Draft.wards address = []) : Turns (link.replace m) (Draft.wards old) fun d => ∃ w w' : Ward, d = printed w w' ∧
      w.data = "<a target=\"_blank\" href=\"" ++ linked (meaning address) (meaning title) (meaning alt) ++ "</a>" ∧
      w'.data = meaning address := by
  obtain ⟨-, -, ofTitle⟩ := parts.spares quiet
  have replaced : link.replace m = (do
      let anchor ← (do
        let title ← quotable (text title)
        Rendering.reinstate ("<a target=\"_blank\" href=\"" ++ text address ++ "\" title=\"" ++ title ++
          "\">" ++ text alt ++ "</a>") >>= Rendering.protect)
      let address ← Rendering.protect (m.group 2)
      return anchor ++ "<span class=\"print-only\"> (" ++ address ++ ")</span>") := by
    simp only [link, parts.alt_eq, parts.address_eq, parts.title_eq, bind_assoc]
  rw [replaced, parts.wards_eq, plain, List.append_nil]
  refine Turns.perm ?_ List.perm_append_comm
  refine (anchor_turns plain ofTitle (parts.spares_linked quiet)).andThen ?_
  rintro _ ⟨w, rfl, hw⟩
  refine .protect_bind parts.isAddress.full fun w' hw' => ?_
  have same : w'.data = meaning address := by
    rw [hw', ← parts.address_eq, eq_chars plain, meaning_chars, text_chars]
  exact .pure_of (d := printed w w') ⟨w, w', rfl, hw, same⟩ (by simp [printed, Token.text])
    (by simpa [printed] using List.Perm.swap _ _ _)

end

theorem link_sharp : link.pattern.Sharp :=
  .of_ends (Opens.literal rfl).append.append.append.append.append (.append (.literal rfl rfl))

theorem link_parts (found : Found link.pattern bound past old rest m) : ∃ alt address title, Parts [] old m alt address title :=
  reference_parts (by simp) (List.nil_append _).symm found.takes

theorem link_sound (listed : inAddress ∈ hs)
    (yields : hs.all (·.yields (("[" : Text).map some) none) = true)
    (ends : hs.all (·.ends (("<span class=\"print-only\"> (" : Text).map some ++
      none :: (")</span>" : Text).map some)) = true) :
    Sound (watches hs) (watches hs) link.apply := by
  refine Sound.of_sharp (List.Subset.refl _) (.of_passes rfl) link_sharp ?_
  intro past old rest m calm found
  have quietOld : Calm (watches hs) old :=
    fun x hx => (calm x hx).of_append_right.of_append_left
  have quiet : Watch.keys.Quiet old := quietOld _ List.mem_cons_self
  obtain ⟨alt, address, title, parts⟩ := link_parts found
  have plain := parts.address_wards (quietOld _ (List.mem_cons_of_mem _ (List.mem_map_of_mem listed)))
  refine (linked_turns parts quiet plain).mono ?_
  rintro _ ⟨w, w', rfl, hw, hw'⟩
  refine link_allows parts.begins ?_ hw yields ends
  rw [hw']
  exact (parts.spares_linked quiet).join (ends_key rfl (by decide)) (parts.spares quiet).2.1

/-! ## Addresses in angle brackets -/

theorem openBracket_takes {b : Option Char} {w r : Text} {gs : List (Nat × Text)}
    (h : openBracket.Takes b w r gs) : (w = "&lt;" ∨ w = "<") ∧ gs = [] := by
  rcases h with h | h
  · obtain ⟨rfl, rfl⟩ := takes_literal.1 h
    exact ⟨.inl rfl, rfl⟩
  · obtain ⟨rfl, rfl⟩ := takes_literal.1 h
    exact ⟨.inr rfl, rfl⟩

/-- A quiet draft does not begin with a word that must not occur. -/
theorem not_quiet_of_begins {h : Hazard (Option Char)} {word : Text} (matched : Matches h (word.map some))
    (ne : word ≠ []) (start : word <+: text d) (unmarked : '?' ∉ word) : ¬ (Watch.ofShape h).Quiet d := by
  obtain ⟨behind, begins⟩ := shape_prefix start unmarked
  exact not_quiet_of_shape (a := []) matched (by simpa using ne) begins.symm

theorem autoLink_sharp : autoLink.pattern.Sharp :=
  .of_ends (Opens.or (.literal rfl) (.literal rfl)).append.append (.append (.literal rfl rfl))

/-- An address in angle brackets has no ward, and its opening bracket is an entity. -/
theorem autoLink_found (bracket : ("<http" : Text).map Part.char ∈ hs) (calm : Calm (watches (inAddress :: hs)) old)
    (found : Found autoLink.pattern bound past old rest m) :
    ("&lt;" : Text) <+: text old ∧ Draft.wards old = [] ∧ Address (m.group 1) ∧ keyHazard.Spares (m.group 1) := by
  have watched {h : Hazard (Option Char)} (hh : h ∈ inAddress :: hs) : (Watch.ofShape h).Quiet old :=
    calm _ (List.mem_cons_of_mem _ (List.mem_map_of_mem hh))
  obtain ⟨_, close, _, _, whole, groups, ⟨opening, address, _, _, rfl, rfl, hopening, _, haddress, rfl⟩,
    hclose⟩ := found.takes
  obtain ⟨rfl, rfl⟩ := takes_literal.1 hclose
  obtain ⟨isAddress, rfl⟩ := scheme_takes haddress
  obtain ⟨escaped, rfl⟩ := openBracket_takes hopening
  have first : m.group 1 = address := Match.group_eq groups
  have entity : opening = "&lt;" := by
    refine escaped.resolve_right ?_
    rintro rfl
    obtain ⟨behind, http⟩ := isAddress.begins
    refine not_quiet_of_begins (matches_mark "<http") (by simp) ⟨behind ++ ">", ?_⟩ (by decide) (watched (List.mem_cons_of_mem _ bracket))
    simp [whole, ← http]
  subst entity
  obtain ⟨d, rfl, rfl⟩ := split_around whole (by decide) (by decide)
  have plain : Draft.wards d = [] :=
    isAddress.wards ((watched List.mem_cons_self).of_inside (List.infix_append _ _ _))
  exact ⟨⟨text d ++ ">", by simp⟩, by simp [plain], first ▸ isAddress,
    first ▸ spares_text ((calm _ List.mem_cons_self).of_inside (List.infix_append _ _ _)) plain⟩

/-- A link of an address goes into custody as a whole. -/
theorem autoLink_guards (none : Draft.wards old = []) (address : keyHazard.Spares (m.group 1)) :
    Turns (autoLink.replace m) (Draft.wards old)
      (Guards ("<a target=\"_blank\" href=\"" ++ (m.group 1 ++ "\">" ++ m.group 1) ++ "</a>")) := by
  have replaced : autoLink.replace m = (Rendering.reinstate (text (chars
      ("<a target=\"_blank\" href=\"" ++ (m.group 1 ++ "\">" ++ m.group 1) ++ "</a>"))) >>= Rendering.protect) := by
    simp only [autoLink, guarded, pure_bind, text_chars, List.append_assoc]
  rw [replaced, none, ← wards_chars]
  exact guard_between (meaning_chars _) (by simp) (ends_key rfl (by decide)) (ends_key rfl (by decide))
    (address.join (ends_key rfl (by decide)) address)

/-- No address is read after this, so a link may now stand behind one. -/
theorem autoLink_sound (bracket : ("<http" : Text).map Part.char ∈ hs)
    (yields : hs.all (·.yields (("&lt;" : Text).map some) none) = true) :
    Sound (watches (inAddress :: hs)) (watches hs) autoLink.apply := by
  refine Sound.of_sharp (watches_subset (List.subset_cons_self _ _)) (.of_passes rfl) autoLink_sharp ?_
  intro past old rest m calm found
  have quietOld : Calm (watches (inAddress :: hs)) old := fun x hx => (calm x hx).of_append_right.of_append_left
  obtain ⟨start, none, -, address⟩ := autoLink_found bracket quietOld found
  exact (autoLink_guards none address).mono fun new guards => guards.allows start (by decide) (ends_key rfl (by decide))
    (ends_key rfl (by decide)) (address.join (ends_key rfl (by decide)) address) yields

theorem ends_entity (c : Char) : Hazard.ends keyHazard ((Entity.encodeChar c).map some) = true := by
  have unmarked : '?' ∉ Text.decimal c.toNat := fun mark =>
    absurd (Warden.isDigit_of_mem_decimal _ mark) (by decide)
  have split : Entity.encodeChar c = '&' :: ('#' :: (Text.decimal c.toNat ++ ";")) := rfl
  rw [split]
  exact ends_key rfl (by simp [unmarked])

/-- Entities are written with few signs. -/
theorem not_mem_encode {c : Char} (other : c ∉ ("&#" ++ ";" : Text)) (noDigit : isDigit c = false) (t : Text) :
    c ∉ Entity.encode t := by
  intro mem
  obtain ⟨d, -, inside⟩ := List.mem_flatMap.1 mem
  have digits : c ∉ Text.decimal d.toNat := fun digit => by
    rw [Warden.isDigit_of_mem_decimal c digit] at noDigit
    cases noDigit
  simp only [Entity.encodeChar, List.mem_append, digits, or_false] at inside
  exact other (List.mem_append.2 inside)

theorem spares_encode {t : Text} (unmarked : '?' ∉ t) : keyHazard.Spares (Entity.encode t) := by
  have plain : keyHazard.Spares t := (Bool.and_eq_true_iff.1 (opens_key unmarked)).1
  exact plain.flatMap fun c => .inr (ends_entity c)

theorem mailAddress_takes {b : Option Char} {w r : Text} {gs : List (Nat × Text)}
    (h : mailAddress.Takes b w r gs) :
    ∃ mailbox rest, w = mailbox ++ '@' :: rest ∧ (∀ c ∈ mailbox, isMailboxChar c = true) := by
  obtain ⟨_, domains, _, _, rfl, -, ⟨_, host, _, _, rfl, -, ⟨mailbox, sign, _, _, rfl, -, hmailbox,
    hsign⟩, -⟩, -⟩ := h
  obtain ⟨-, isMailbox, -⟩ := takes_span1.1 hmailbox
  obtain ⟨rfl, -⟩ := takes_literal.1 hsign
  exact ⟨mailbox, host ++ domains, by simp, isMailbox⟩

theorem mailLink_sharp : mailLink.pattern.Sharp :=
  .of_ends (Opens.or (.literal rfl) (.literal rfl)).append.append (.append (.literal rfl rfl))

/-- A mail address in angle brackets shows no ward, and its opening bracket is an entity. -/
theorem mailLink_found (bracket : [Part.char '<', ⟨true, fun a => a.any isMailboxChar⟩, Part.char '@'] ∈ hs)
    (calm : Calm (watches hs) old) (found : Found mailLink.pattern bound past old rest m) :
    ("&lt;" : Text) <+: text old ∧ Draft.wards old = [] ∧ '?' ∉ m.group 1 := by
  obtain ⟨_, close, _, _, whole, groups, ⟨opening, address, _, _, rfl, rfl, hopening, _, haddress, rfl⟩,
    hclose⟩ := found.takes
  obtain ⟨rfl, rfl⟩ := takes_literal.1 hclose
  obtain ⟨escaped, rfl⟩ := openBracket_takes hopening
  obtain rfl := haddress.groups_eq_nil rfl
  have first : m.group 1 = address := Match.group_eq groups
  have unmarked : '?' ∉ address := fun mark => absurd (haddress.admits mark) (by decide)
  have entity : opening = "&lt;" := by
    refine escaped.resolve_right ?_
    rintro rfl
    obtain ⟨mailbox, behind, split, isMailbox⟩ := mailAddress_takes haddress
    have word : Matches [Part.char '<', ⟨true, fun a => a.any isMailboxChar⟩, Part.char '@']
        (('<' :: (mailbox ++ "@")).map some) := by
      rw [List.map_cons, List.map_append]
      exact .one rfl (matches_run isMailbox (matches_mark "@"))
    have noMark : '?' ∉ '<' :: (mailbox ++ "@") := by
      simp only [split, List.mem_append, not_or] at unmarked
      simpa using unmarked.1
    refine not_quiet_of_begins word (by simp) ⟨behind ++ ">", ?_⟩ noMark
      (calm _ (List.mem_cons_of_mem _ (List.mem_map_of_mem bracket)))
    simp [whole, split]
  subst entity
  have plain : old = chars (text old) := eq_chars_of_text (by simp [whole, unmarked])
  exact ⟨⟨address ++ ">", by simp [whole]⟩, by rw [plain, wards_chars], first ▸ unmarked⟩

/-- What stands between the first quote of a mail link and its end. -/
def mailed (address : Text) : Text := Entity.encode ("mailto:" ++ address) ++ "\">" ++ Entity.encode address

theorem spares_mailed {address : Text} (unmarked : '?' ∉ address) : keyHazard.Spares (mailed address) :=
  (spares_encode (by simpa using unmarked)).join (ends_key rfl (by decide)) (spares_encode unmarked)

/-- A mail link goes into custody as a whole. -/
theorem mailLink_guards (none : Draft.wards old = []) (unmarked : '?' ∉ m.group 1) :
    Turns (mailLink.replace m) (Draft.wards old) (Guards ("<a href=\"" ++ mailed (m.group 1) ++ "</a>")) := by
  have replaced : mailLink.replace m = (Rendering.reinstate (text (chars
      ("<a href=\"" ++ mailed (m.group 1) ++ "</a>"))) >>= Rendering.protect) := by
    simp only [mailLink, guarded, pure_bind, text_chars, mailed, List.append_assoc]
  rw [replaced, none, ← wards_chars]
  exact guard_between (meaning_chars _) (by simp) (ends_key rfl (by decide)) (ends_key rfl (by decide)) (spares_mailed unmarked)

theorem mailLink_sound
    (bracket : [Part.char '<', ⟨true, fun a => a.any isMailboxChar⟩, Part.char '@'] ∈ hs)
    (yields : hs.all (·.yields (("&lt;" : Text).map some) none) = true) :
    Sound (watches hs) (watches hs) mailLink.apply := by
  refine Sound.of_sharp (List.Subset.refl _) (.of_passes rfl) mailLink_sharp ?_
  intro past old rest m calm found
  obtain ⟨start, none, unmarked⟩ :=
    mailLink_found bracket (fun x hx => (calm x hx).of_append_right.of_append_left) found
  exact (mailLink_guards none unmarked).mono fun new guards => guards.allows start (by decide) (ends_key rfl (by decide))
    (ends_key rfl (by decide)) (spares_mailed unmarked) yields

end LessonText.Span

import LessonText.Proofs.Markup.Links

/-! # Code and emphasis keep wards

Code goes into custody with everything in it put back. Of an emphasis only the tags go into custody, and
its contents stay where they are, with their wards.
-/

namespace LessonText.Span

open Draft Pattern Unicode Hazard

variable {hs : List (Hazard (Option Char))} {past old d rest : Draft} {bound : Nat} {m : Match}

/-! ## Code -/

/-- One or more backticks. -/
def Ticks (t : Text) : Prop := t ≠ [] ∧ ∀ c ∈ t, c = '\x60'

theorem code_takes {b : Option Char} {w r : Text} (h : code.pattern.Takes b w r m.groups) :
    ∃ a z, w = a ++ (m.group? 1).getD (m.group 2) ++ z ∧ Ticks a ∧ Ticks z := by
  have ticked {c : Char} {t : Text} (first : (c == '\x60') = true) (ticks : ∀ c ∈ t, (c == '\x60') = true) : Ticks (c :: t) :=
    ⟨List.cons_ne_nil _ _, List.forall_mem_cons.2 ⟨beq_iff_eq.1 first, fun c hc => beq_iff_eq.1 (ticks c hc)⟩⟩
  rcases h with ⟨_, ticks', _, _, rfl, groups, ⟨_, tick', _, _, rfl, rfl, ⟨_, content, _, _, rfl, rfl,
    ⟨tick, ticks, _, _, rfl, rfl, htick, hticks⟩, _, hcontent, rfl⟩, htick'⟩, hticks'⟩ |
    ⟨_, tick', _, _, rfl, groups, ⟨tick, content, _, _, rfl, rfl, htick, _, hcontent, rfl⟩, htick'⟩
  · obtain ⟨c, hc, rfl, rfl⟩ := htick
    obtain ⟨c', hc', rfl, rfl⟩ := htick'
    obtain ⟨-, areTicks, rfl⟩ := takes_some1.1 hticks
    obtain ⟨-, areTicks', -, rfl⟩ := takes_span1.1 hticks'
    obtain ⟨-, rfl⟩ := hcontent
    have first : (m.group? 1).getD (m.group 2) = content := by
      rw [Match.group?, groups]
      rfl
    exact ⟨c :: ticks, c' :: ticks', by simp [first], ticked hc areTicks, ticked hc' areTicks'⟩
  · obtain ⟨c, hc, rfl, rfl⟩ := htick
    obtain ⟨c', hc', rfl, rfl⟩ := htick'
    obtain ⟨-, rfl⟩ := hcontent
    have second : (m.group? 1).getD (m.group 2) = content := by
      rw [Match.group?, Match.group, Match.group?, groups]
      rfl
    exact ⟨[c], [c'], by simp [second], ticked hc (by simp), ticked hc' (by simp)⟩

theorem code_sharp : code.pattern.Sharp := by
  have opens : code.pattern.Opens :=
    .or (Opens.char rfl).append.append.append.append (Opens.char rfl).append.append
  have closes : code.pattern.Closes :=
    .or (.append (.span1 fun c hc => by rw [beq_iff_eq.1 hc]; rfl)) (.append (.char rfl))
  exact .of_ends opens closes

/-- The contents of code stand between backticks. -/
theorem code_found (found : Found code.pattern bound past old rest m) : ("\x60" : Text) <+: text old ∧
    ∃ a d z, old = chars a ++ d ++ chars z ∧ text d = (m.group? 1).getD (m.group 2) := by
  obtain ⟨a, z, whole, before, behind⟩ := code_takes found.takes
  have unmarked {t : Text} (ticks : Ticks t) : '?' ∉ t := fun mark => absurd (ticks.2 '?' mark) (by decide)
  have ticks : "\x60" <+: a := by
    obtain ⟨c, rest, rfl⟩ := List.exists_cons_of_ne_nil before.1
    exact before.2 c List.mem_cons_self ▸ ⟨rest, rfl⟩
  obtain ⟨d, split, content⟩ := split_around whole (unmarked before) (unmarked behind)
  exact ⟨ticks.trans ⟨_, by rw [whole, List.append_assoc]⟩, a, d, z, split, content⟩

/-- Code goes into custody with everything in it. -/
theorem code_guards {a z : Text} (split : old = chars a ++ d ++ chars z) (content : text d = (m.group? 1).getD (m.group 2))
    (spares : keyHazard.Spares (meaning d)) :
    Turns (code.replace m) (wards old) (Guards ("<code>" ++ meaning d ++ "</code>")) := by
  have replaced : code.replace m =
      (Rendering.reinstate (text (chars "<code>" ++ d ++ chars "</code>")) >>= Rendering.protect) := by
    simp only [code, guarded, pure_bind, ← content, text_append, text_chars]
  have held : wards old = wards (chars "<code>" ++ d ++ chars "</code>") := by simp [split]
  rw [replaced, held]
  exact guard_between (by simp) (by simp) (ends_key rfl (by decide)) (ends_key rfl (by decide)) spares

theorem code_sound (yields : hs.all (·.yields (("\x60" : Text).map some) none) = true) :
    Sound (watches hs) (watches hs) code.apply := by
  refine Sound.of_sharp (List.Subset.refl _) (.of_passes rfl) code_sharp ?_
  intro past old rest m calm found
  have quiet : Watch.keys.Quiet old := (calm _ List.mem_cons_self).of_append_right.of_append_left
  obtain ⟨start, a, d, z, split, content⟩ := code_found found
  have spares : keyHazard.Spares (meaning d) := spares_meaning (quiet.of_inside (split ▸ List.infix_append _ _ _))
  exact (code_guards split content spares).mono fun new guards =>
    guards.allows start (by decide) (ends_key rfl (by decide)) (ends_key rfl (by decide)) spares yields

/-! ## Emphasis -/

/-- Tags, the last one innermost, end every word. -/
theorem ends_tags {tags : List Text} (ne : tags ≠ []) (unmarked : ∀ tag ∈ tags, '?' ∉ tag) {s : Text}
    (noMark : '?' ∉ s) :
    Hazard.ends keyHazard ((tags.flatMap fun tag => '<' :: (s ++ tag ++ ">")).map some) = true := by
  obtain ⟨tag, tags, rfl⟩ := List.exists_cons_of_ne_nil ne
  rw [List.flatMap_cons, List.cons_append]
  refine ends_key rfl ?_
  intro mark
  rw [← List.cons_append, ← List.flatMap_cons (f := fun tag => '<' :: (s ++ tag ++ ">"))] at mark
  obtain ⟨tag', listed, mark⟩ := List.mem_flatMap.1 mark
  simp [noMark, unmarked tag' listed] at mark

variable {sign : Char} {tags : List Text}

def openings (tags : List Text) : Text := tags.flatMap fun tag => "<" ++ tag ++ ">"

def closings (tags : List Text) : Text := tags.reverse.flatMap fun tag => "</" ++ tag ++ ">"

/-- The tags of an emphasis in custody, around its contents. -/
def Stressed (tags : List Text) (d new : Draft) : Prop :=
  ∃ o c : Ward, new = [.ward o] ++ d ++ [.ward c] ∧ o.data = openings tags ∧ c.data = closings tags

/-- Two tags go into custody, and what is between the marks stays between them. -/
theorem emphasise_turns (ne : tags ≠ []) : Turns (emphasise tags (text d)) (wards d) (Stressed tags d) := by
  obtain ⟨tag, others, rfl⟩ := List.exists_cons_of_ne_nil ne
  refine .protect_bind (by simp) fun o ho => .protect_bind (by simp) fun c hc => ?_
  refine .pure_of (d := [.ward o] ++ d ++ [.ward c]) ⟨o, c, rfl, ho, hc⟩ (by simp [Token.text]) ?_
  simpa using List.perm_append_singleton c (o :: wards d)

/-- The tags may take the place of the marks. -/
theorem Stressed.allows {marks : Text} {new : Draft} (stressed : Stressed tags d new) (ne : tags ≠ [])
    (unmarked : ∀ tag ∈ tags, '?' ∉ tag) (yields : hs.all (·.yields [some sign] none) = true) :
    ∀ x ∈ watches hs, x.Allows past (chars (sign :: marks) ++ d ++ chars (sign :: marks)) new := by
  have opening : Hazard.ends keyHazard ((openings tags).map some) = true := ends_tags ne unmarked (s := []) (by simp)
  have closing : Hazard.ends keyHazard ((closings tags).map some) = true :=
    ends_tags (s := "/") (by simpa using ne) (by simpa using unmarked) (by decide)
  obtain ⟨o, c, rfl, ho, hc⟩ := stressed
  intro x hx
  rcases List.mem_cons.1 hx with rfl | hx
  · have seen : Watch.keys.see ([.ward o] ++ d ++ [.ward c]) =
        o.data.map some ++ (meaning d).map some ++ c.data.map some := by
      simp [Watch.keys, Watch.ofMeaning, Token.meaning]
    rw [Watch.Allows, seen, ho, hc]
    refine .enclosed Watch.begun_subset opening closing fun quiet => ?_
    rw [Watch.append, Watch.append] at quiet
    exact safe_factor quiet
  · obtain ⟨h, hh, rfl⟩ := List.mem_map.1 hx
    have gap := List.all_eq_true.1 yields h hh
    have mark {before : Draft} {w : Ward} :
        (Watch.ofShape h).Allows before (chars (sign :: marks)) [.ward w] :=
      .of_yields (s := [some sign]) Watch.begun_subset gap
    exact (mark.append .refl).append mark

/-- A rule of an emphasis: a body between two equal marks. -/
def emphasisRule (sign : Char) (count : Nat) (tags : List Text) (body : Pattern) : Rule :=
  let mark := literal (List.replicate count sign)
  ⟨mark ++ group 1 body ++ mark, fun m => emphasise tags (m.group 1)⟩

section

variable {count : Nat} {body : Pattern}

theorem emphasisRule_advances : (emphasisRule sign (count + 1) tags body).pattern.Advances := .of_passes rfl

theorem emphasisRule_sharp (sharp : Warden.isKeyChar sign = false) : (emphasisRule sign (count + 1) tags body).pattern.Sharp := by
  have last : (sign :: List.replicate count sign).getLast? = some sign := by
    rw [List.getLast?_eq_some_getLast (List.cons_ne_nil _ _)]
    exact congrArg some (List.getLast_replicate (n := count + 1) (List.cons_ne_nil _ _))
  exact .of_ends (Opens.literal sharp).append.append (.append (.literal last sharp))

/-- The body of an emphasis stands between its marks. -/
theorem emphasisRule_found (sharp : Warden.isKeyChar sign = false) (plain : body.groupless = true)
    (found : Found (emphasisRule sign (count + 1) tags body).pattern bound past old rest m) :
    ∃ d, old = chars (sign :: List.replicate count sign) ++ d ++ chars (sign :: List.replicate count sign) ∧
      text d = m.group 1 := by
  have noMark : '?' ∉ sign :: List.replicate count sign := by
    intro mark
    have same : '?' = sign := List.eq_of_mem_replicate (n := count + 1) mark
    subst same
    cases sharp
  obtain ⟨_, closing, _, _, whole, groups, ⟨opening, contents, _, _, rfl, rfl, hopening, _, hcontents, rfl⟩, hclosing⟩ :=
    found.takes
  obtain ⟨rfl, rfl⟩ := takes_literal.1 hopening
  obtain ⟨rfl, rfl⟩ := takes_literal.1 hclosing
  obtain rfl := hcontents.groups_eq_nil plain
  have first : m.group 1 = contents := Match.group_eq groups
  obtain ⟨d, split, content⟩ := split_around whole noMark noMark
  exact ⟨d, split, content.trans first.symm⟩

end

/-- Both rules of an emphasis keep wards: around one character, and around more. -/
theorem emphasis_sound {count : Nat} (sharp : Warden.isKeyChar sign = false) (ne : tags ≠ [])
    (unmarked : ∀ tag ∈ tags, '?' ∉ tag) (yields : hs.all (·.yields [some sign] none) = true) :
    ∀ r ∈ emphasis sign (count + 1) tags, Sound (watches hs) (watches hs) r.apply := by
  have between {body : Pattern} (plain : body.groupless = true) :
      Sound (watches hs) (watches hs) (emphasisRule sign (count + 1) tags body).apply := by
    refine Sound.of_sharp (List.Subset.refl _) emphasisRule_advances (emphasisRule_sharp sharp) ?_
    intro past old rest m _ found
    obtain ⟨d, rfl, content⟩ := emphasisRule_found sharp plain found
    have replaced : (emphasisRule sign (count + 1) tags body).replace m = emphasise tags (text d) :=
      congrArg (emphasise tags) content.symm
    have held : wards (chars (sign :: List.replicate count sign) ++ d ++ chars (sign :: List.replicate count sign)) =
        wards d := by simp
    rw [replaced, held]
    exact (emphasise_turns ne).mono fun new stressed => stressed.allows ne unmarked yields
  simp only [emphasis, List.forall_mem_cons]
  exact ⟨between rfl, between rfl, by simp⟩

/-! ## All rules of spans -/

section

variable (items : Bool)

theorem all_ofAddresses {p : Hazard (Option Char) → Bool} (h : (ofAddresses true).all p = true) :
    (ofAddresses items).all p = true :=
  List.all_eq_true.2 fun k hk => List.all_eq_true.1 h k (ofAddresses_subset items hk)

theorem all_ofPage {p : Hazard (Option Char) → Bool} (h : (ofPage true).all p = true) : (ofPage items).all p = true :=
  List.all_eq_true.2 fun k hk => List.all_eq_true.1 h k (ofPage_subset items hk)

theorem bracketed_subset : bracketed ⊆ ofPage items := fun _ hh => List.mem_append_left _ (List.mem_append_right _ hh)

theorem equations_sound : Sound (watches (ofSpans items)) (watches (ofAddresses items)) equation.apply :=
  equation_sound (all_ofAddresses items (by decide))

theorem images_sound : Sound (watches (ofAddresses items)) (watches (ofAddresses items)) image.apply :=
  image_sound (all_ofAddresses items (by decide))

theorem links_sound : Sound (watches (ofAddresses items)) (watches (ofAddresses items)) link.apply :=
  link_sound List.mem_cons_self (all_ofAddresses items (by decide)) (all_ofAddresses items (by decide))

theorem autoLinks_sound : Sound (watches (ofAddresses items)) (watches (ofPage items)) autoLink.apply :=
  autoLink_sound (bracketed_subset items List.mem_cons_self) (all_ofPage items (by decide))

/-- The rules behind those that read addresses on the web. -/
theorem marks_sound : ∀ r ∈ rules.drop 4, Sound (watches (ofPage items)) (watches (ofPage items)) r.apply := by
  have stars := all_ofPage items (p := (·.yields [some '*'] none)) (by decide)
  have lines := all_ofPage items (p := (·.yields [some '_'] none)) (by decide)
  change ∀ r ∈ mailLink :: code :: (emphasis '*' 3 ["strong", "em"] ++ emphasis '_' 3 ["strong", "em"] ++
    emphasis '*' 2 ["strong"] ++ emphasis '_' 2 ["strong"] ++ emphasis '*' 1 ["em"] ++ emphasis '_' 1 ["em"]), _
  simp only [List.forall_mem_cons, List.forall_mem_append]
  exact ⟨mailLink_sound (bracketed_subset items (by simp [bracketed])) (all_ofPage items (by decide)),
    code_sound (all_ofPage items (by decide)),
    ⟨⟨⟨⟨emphasis_sound rfl (by simp) (by simp) stars, emphasis_sound rfl (by simp) (by simp) lines⟩,
      emphasis_sound rfl (by simp) (by simp) stars⟩, emphasis_sound rfl (by simp) (by simp) lines⟩,
      emphasis_sound rfl (by simp) (by simp) stars⟩, emphasis_sound rfl (by simp) (by simp) lines⟩

/-- Every span rule keeps the wards of a draft in which nothing is watched, and leaves such a draft. -/
theorem rules_sound : Sound (watches (ofSpans items)) (watches (ofPage items))
    fun t => rules.foldlM (fun t r => r.apply t) t :=
  (equations_sound items).foldlM_cons ((images_sound items).foldlM_cons ((links_sound items).foldlM_cons
    ((autoLinks_sound items).foldlM_cons (Sound.foldlM (marks_sound items)))))

end

end LessonText.Span

import LessonText.Proofs.MathML.Attribute

/-! # Blocks without harm

A sanitised block is harmless when no tag of it has an attribute that could do harm. One pass makes a
block harmless exactly when a second pass would change nothing. It does so for every block whose tags
hold no second bracket, are still one tag each when their unsafe attributes are gone, and keep apart
what stands around a removed attribute.
-/

namespace LessonText.MathML

open Pattern Unicode

/-- The tags of a text, in order. -/
def tags (t : Text) : List Text :=
  (tag.pieces t).filterMap fun
    | .plain _ => none
    | .found m => some m.text

/-- No tag has an attribute that could do harm. -/
def harmless (t : Text) : Bool := (tags t).all fun x => !unsafeAttribute.occursIn x

/-- The attributes that could do harm removed from every tag. -/
def sanitiseTags (t : Text) : Text := Rewrite.apply ⟨tag, fun m => sanitiseTag m.text⟩ t

/-- The blocks of a text as they are written. -/
def rawBlocks (t : Text) : List Text :=
  (block.pieces t).filterMap fun
    | .plain _ => none
    | .found m => some m.text

/-- A tag that stays one tag without its unsafe attributes, and has none then. -/
def isTidyTag (x : Text) : Bool :=
  !x.tail.contains '<' && tags (sanitiseTag x) == [sanitiseTag x] &&
    staysApart (unsafeAttribute.pieces x)

/-- A text in which every bracket begins a tidy tag. -/
def isTidy (t : Text) : Bool :=
  (tag.pieces t).all fun
    | .plain c => c != '<'
    | .found m => isTidyTag m.text

theorem blocks_eq (t : Text) : blocks t = (rawBlocks t).map sanitise := by
  unfold blocks rawBlocks
  rw [List.map_filterMap]
  congr 1
  funext p
  cases p <;> rfl

theorem mem_tags {t x : Text} : x ∈ tags t ↔ ∃ m, .found m ∈ tag.pieces t ∧ m.text = x := by
  unfold tags
  rw [List.mem_filterMap]
  constructor
  · rintro ⟨p, hp, e⟩
    cases p with
    | plain c => cases e
    | found m => exact ⟨m, hp, Option.some_inj.1 e⟩
  · rintro ⟨m, hm, rfl⟩
    exact ⟨_, hm, rfl⟩

/-! ## A second pass -/

theorem assemble_length_le {f g : Match → Text} {ps : List (Piece Match)}
    (h : ∀ m, .found m ∈ ps → (f m).length ≤ (g m).length) :
    (Piece.assemble f ps).length ≤ (Piece.assemble g ps).length := by
  induction ps with
  | nil => exact Nat.le_refl _
  | cons p ps ih =>
      have later := ih fun m hm => h m (List.mem_cons_of_mem _ hm)
      cases p with
      | plain c => simpa [Piece.assemble] using later
      | found m =>
          have here := h m List.mem_cons_self
          simp only [Piece.assemble, List.length_append]
          omega

theorem length_eq_of_assemble {f g : Match → Text} {ps : List (Piece Match)}
    (h : ∀ m, .found m ∈ ps → (f m).length ≤ (g m).length)
    (e : (Piece.assemble f ps).length = (Piece.assemble g ps).length) :
    ∀ m, .found m ∈ ps → (f m).length = (g m).length := by
  induction ps with
  | nil => exact fun m hm => nomatch hm
  | cons p ps ih =>
      have later : ∀ m, .found m ∈ ps → (f m).length ≤ (g m).length :=
        fun m hm => h m (List.mem_cons_of_mem _ hm)
      cases p with
      | plain c =>
          intro m hm
          exact ih later (Nat.succ.inj e) m (by simpa using hm)
      | found n =>
          have here := h n List.mem_cons_self
          have rest := assemble_length_le later
          simp only [Piece.assemble, List.length_append] at e
          intro m hm
          rcases List.mem_cons.1 hm with e' | hm
          · cases e'
            omega
          · exact ih later (by omega) m hm

theorem assemble_congr {f g : Match → Text} {ps : List (Piece Match)}
    (h : ∀ m, .found m ∈ ps → f m = g m) : Piece.assemble f ps = Piece.assemble g ps := by
  induction ps with
  | nil => rfl
  | cons p ps ih =>
      have later := ih fun m hm => h m (List.mem_cons_of_mem _ hm)
      cases p with
      | plain c => exact congrArg (c :: ·) later
      | found m => rw [Piece.assemble, Piece.assemble, h m List.mem_cons_self, later]

theorem sanitiseTag_length_le (t : Text) : (sanitiseTag t).length ≤ t.length := by
  have shorter : (sanitiseTag t).length ≤
      (Piece.assemble Match.text (unsafeAttribute.pieces t)).length :=
    assemble_length_le fun _ _ => Nat.zero_le _
  rwa [assemble_pieces] at shorter

theorem not_occursIn_of_length {t : Text} (h : (sanitiseTag t).length = t.length) :
    unsafeAttribute.occursIn t = false := by
  rw [← Bool.not_eq_true, occursIn_iff]
  rintro ⟨m, hm⟩
  have same : (Piece.assemble (fun _ => []) (unsafeAttribute.pieces t)).length =
      (Piece.assemble Match.text (unsafeAttribute.pieces t)).length := by
    rw [assemble_pieces]
    exact h
  have empty := length_eq_of_assemble (fun _ _ => Nat.zero_le _) same m hm
  obtain ⟨b, u, r, -, takes⟩ := (pieces_scan unsafeAttribute_advances t).mem_found hm
  exact unsafeAttribute_advances _ _ _ _ takes (List.length_eq_zero_iff.1 empty.symm)

theorem sanitiseTag_of_not_occursIn {t : Text} (h : unsafeAttribute.occursIn t = false) :
    sanitiseTag t = t := by
  rw [← Bool.not_eq_true, occursIn_iff] at h
  have same : Piece.assemble (fun _ => []) (unsafeAttribute.pieces t) =
      Piece.assemble Match.text (unsafeAttribute.pieces t) :=
    assemble_congr fun m hm => absurd ⟨m, hm⟩ h
  rw [assemble_pieces] at same
  exact same

/-- A text is harmless exactly when sanitising its tags changes nothing. -/
theorem harmless_iff (t : Text) : harmless t = true ↔ sanitiseTags t = t := by
  have each : harmless t = true ↔
      ∀ m, .found m ∈ tag.pieces t → unsafeAttribute.occursIn m.text = false := by
    simp only [harmless, List.all_eq_true, Bool.not_eq_true', mem_tags]
    exact ⟨fun h m hm => h m.text ⟨m, hm, rfl⟩, fun h x ⟨m, hm, e⟩ => e ▸ h m hm⟩
  rw [each]
  constructor
  · intro h
    have same := assemble_congr (g := Match.text) fun m hm => sanitiseTag_of_not_occursIn (h m hm)
    rwa [assemble_pieces] at same
  · intro h m hm
    have same : (Piece.assemble (fun m => sanitiseTag m.text) (tag.pieces t)).length =
        (Piece.assemble Match.text (tag.pieces t)).length := by
      rw [assemble_pieces]
      exact congrArg List.length h
    refine not_occursIn_of_length ?_
    exact length_eq_of_assemble (fun m _ => sanitiseTag_length_le m.text) same m hm

/-! ## Tags that stay tags -/

/-- What is behind the bracket that closes a tag, when `quote` is the mark that is still open. -/
def afterTag : Option Char → Text → Option Text
  | _, [] => none
  | none, c :: t =>
    if c = '>' then some t else if c = '"' ∨ c = '\'' then afterTag (some c) t else afterTag none t
  | some quote, c :: t => if c = quote then afterTag none t else afterTag (some quote) t

theorem afterTag_quoted {quote : Char} {u t : Text} (hu : ∀ c ∈ u, c ≠ quote) :
    afterTag (some quote) (u ++ quote :: t) = afterTag none t := by
  induction u with
  | nil => simp [afterTag]
  | cons c u ih =>
      obtain ⟨hc, hu⟩ := List.forall_mem_cons.1 hu
      simp [afterTag, hc, ih hu]

theorem afterTag_repeats {b : Option Char} {w r : Text} {gs : List (Nat × Text)}
    (h : Repeats (one (noneOf ">\"'") ||| quoted '"' ||| quoted '\'').Takes b w r gs) (t : Text) :
    afterTag none (w ++ t) = afterTag none t := by
  induction h with
  | stop => rfl
  | @more b w w' r gs gs' takes _ ih =>
      rw [List.append_assoc]
      simp only [takes_or, takes_one, quoted_takes] at takes
      rcases takes with (⟨c, hc, rfl, -⟩ | ⟨u, rfl, hu, -⟩) | ⟨u, rfl, hu, -⟩
      · have plain : c ≠ '>' ∧ c ≠ '"' ∧ c ≠ '\'' := by simpa [noneOf] using hc
        simpa [afterTag, plain] using ih
      · simpa [afterTag, afterTag_quoted hu] using ih
      · simpa [afterTag, afterTag_quoted hu] using ih

theorem afterTag_takes {b : Option Char} {w r : Text} {gs : List (Nat × Text)}
    (h : tag.Takes b w r gs) : ∃ u, w = '<' :: u ∧ ∀ t, afterTag none (u ++ t) = some t := by
  simp only [tag, takes_append, takes_literal, takes_many] at h
  obtain ⟨_, _, _, _, rfl, -, ⟨_, u, _, _, rfl, -, ⟨rfl, -⟩, body⟩, rfl, -⟩ := h
  refine ⟨u ++ ['>'], by simp, fun t => ?_⟩
  rw [List.append_assoc, afterTag_repeats body]
  rfl

/-- Two tags at one place are the same. -/
theorem takes_tag_unique {b b' : Option Char} {w w' r r' : Text} {gs gs' : List (Nat × Text)}
    (h : tag.Takes b w r gs) (h' : tag.Takes b' w' r' gs') (s s' : Text) (e : w ++ s = w' ++ s') :
    w = w' := by
  obtain ⟨u, rfl, hu⟩ := afterTag_takes h
  obtain ⟨u', rfl, hu'⟩ := afterTag_takes h'
  have same : s = s' := by
    have behind : u ++ s = u' ++ s' := (List.cons.inj e).2
    exact Option.some_inj.1 ((hu s).symm.trans (behind ▸ hu' s'))
  subst same
  exact List.append_cancel_right e

/-- A text in which every bracket begins a listed tag, and no listed tag has a second bracket. -/
inductive Strung (listed : Text → Prop) : Text → Prop where
  | nil : Strung listed []
  | plain {c t} : c ≠ '<' → Strung listed t → Strung listed (c :: t)
  | element {x t} : listed ('<' :: x) → '<' ∉ x → Strung listed t → Strung listed ('<' :: (x ++ t))

/-- A text in which some brackets are escaped. -/
inductive Escaped : Text → Text → Prop where
  | nil : Escaped [] []
  | keep {c t t'} : Escaped t t' → Escaped (c :: t) (c :: t')
  | escape {t t'} : Escaped t t' → Escaped ('<' :: t) ("&lt;".toList ++ t')

theorem foreignBracket_takes {b : Option Char} {w r : Text} {gs : List (Nat × Text)}
    (h : foreignBracket.Takes b w r gs) : w = ['<'] := by
  simp only [foreignBracket, notAhead, takes_append, takes_literal, takes_ahead] at h
  obtain ⟨_, _, _, _, rfl, -, ⟨rfl, -⟩, rfl, -⟩ := h
  rfl

theorem escaped_of_scan {bound : Nat} {b : Option Char} {t : Text} {ps : List (Piece Match)}
    (h : Scan (foreignBracket.matchAt bound 0) b t ps) :
    Escaped t (Piece.assemble (fun _ => "&lt;".toList) ps) := by
  induction h with
  | nil => exact .nil
  | plain _ _ ih => exact .keep ih
  | @found b w t m ps _ hf _ ih =>
      obtain ⟨rfl, takes⟩ := matchAt_found hf
      rw [foreignBracket_takes takes]
      exact .escape ih

theorem foreignBracket_advances : foreignBracket.Advances := .of_passes rfl

theorem tag_advances : tag.Advances := .of_passes rfl

theorem Escaped.append {x t t' : Text} (hx : '<' ∉ x) (h : Escaped (x ++ t) t') :
    ∃ u, t' = x ++ u ∧ Escaped t u := by
  induction x generalizing t' with
  | nil => exact ⟨t', rfl, h⟩
  | cons c x ih =>
      rw [List.mem_cons, not_or] at hx
      generalize e : c :: x ++ t = s at h
      cases h with
      | nil => cases e
      | keep h =>
          cases e
          obtain ⟨u, rfl, hu⟩ := ih hx.2 h
          exact ⟨u, rfl, hu⟩
      | escape h =>
          cases e
          exact absurd rfl hx.1

theorem Strung.append {listed : Text → Prop} {x t : Text} (hx : '<' ∉ x) (h : Strung listed t) :
    Strung listed (x ++ t) := by
  induction x with
  | nil => exact h
  | cons c x ih =>
      rw [List.mem_cons, not_or] at hx
      exact .plain (Ne.symm hx.1) (ih hx.2)

theorem Strung.escaped {listed : Text → Prop} {t t' : Text} (h : Strung listed t)
    (e : Escaped t t') : Strung listed t' := by
  induction h generalizing t' with
  | nil =>
      cases e
      exact .nil
  | plain hc _ ih =>
      cases e with
      | keep e => exact .plain hc (ih e)
      | escape => exact absurd rfl hc
  | element hx single _ ih =>
      cases e with
      | keep e =>
          obtain ⟨u, rfl, hu⟩ := e.append single
          exact .element hx single (ih hu)
      | escape e =>
          obtain ⟨u, rfl, hu⟩ := e.append single
          exact .append (by decide) (.append single (ih hu))

/-- The tags of a strung text are listed. -/
theorem Strung.listed_of_scan {listed : Text → Prop}
    (isTag : ∀ x, listed x → ∃ b r gs, tag.Takes b x r gs) {bound : Nat} {b : Option Char} {t : Text}
    {ps : List (Piece Match)} (h : Scan (tag.matchAt bound 0) b t ps) : ∀ x u, '<' ∉ x →
      t = x ++ u → Strung listed u → ∀ m, .found m ∈ ps → listed m.text := by
  induction h with
  | nil => exact fun _ _ _ _ _ m hm => nomatch hm
  | @plain b c t ps _ _ ih =>
      intro x u hx e strung m hm
      have later : Piece.found m ∈ ps := by simpa using hm
      cases x with
      | cons d x =>
          rw [List.mem_cons, not_or] at hx
          exact ih x u hx.2 (List.cons.inj e).2 strung m later
      | nil =>
          have e : c :: t = u := e
          cases strung with
          | nil => cases e
          | plain _ strung =>
              cases e
              exact ih [] t (by simp) rfl strung m later
          | @element y v _ single strung =>
              cases e
              exact ih y v single rfl strung m later
  | @found b w t n ps hne hf _ ih =>
      intro x u hx e strung m hm
      obtain ⟨rfl, takes⟩ := matchAt_found hf
      obtain ⟨y, text, -⟩ := afterTag_takes takes
      cases x with
      | cons d x =>
          rw [text] at e
          rw [List.mem_cons, not_or] at hx
          exact absurd (List.cons.inj e).1 hx.1
      | nil =>
          have e : n.text ++ t = u := e
          cases strung with
          | nil => exact absurd (List.append_eq_nil_iff.1 e).1 hne
          | plain hc _ =>
              rw [text] at e
              exact absurd (List.cons.inj e).1.symm hc
          | @element z v hz single strung =>
              obtain ⟨b', r', gs', isTag⟩ := isTag _ hz
              have same : n.text = '<' :: z := takes_tag_unique takes isTag t v e
              rcases List.mem_cons.1 hm with e' | hm
              · cases e'
                rwa [same]
              · rw [same] at e
                exact ih [] v (by simp) (List.append_cancel_left (List.cons.inj e).2) strung m hm

/-! ## Tidy blocks -/

theorem mem_of_scan {find : Finder Match} {b : Option Char} {t : Text} {ps : List (Piece Match)}
    (h : Scan find b t ps) {c : Char} (hc : c ∈ Piece.assemble (fun _ => []) ps) : c ∈ t := by
  induction h with
  | nil => cases hc
  | plain _ _ ih =>
      rcases List.mem_cons.1 hc with rfl | hc
      · exact List.mem_cons_self
      · exact List.mem_cons_of_mem _ (ih hc)
  | found _ _ _ ih => exact List.mem_append_right _ (ih hc)

/-- A tag keeps its opening bracket and gets no character that it did not have. -/
theorem sanitiseTag_cons (u : Text) : ∃ v, sanitiseTag ('<' :: u) = '<' :: v ∧ ∀ c ∈ v, c ∈ u := by
  unfold sanitiseTag Rewrite.apply
  have scan := pieces_scan unsafeAttribute_advances ('<' :: u)
  generalize e : '<' :: u = t at scan ⊢
  generalize unsafeAttribute.pieces t = ps at scan ⊢
  cases scan with
  | nil => cases e
  | plain _ scan =>
      cases e
      exact ⟨_, rfl, fun c hc => mem_of_scan scan hc⟩
  | found _ hf _ =>
      obtain ⟨rest, split, -, -, takes⟩ := matchAt_takes hf
      have begins := begins_of_takes takes
      rw [← split, ← e] at begins
      generalize e : '<' :: u = t at begins
      cases begins with
      | @intro sp _ _ _ _ _ hne hsp _ _ _ _ =>
          obtain ⟨c, sp, rfl⟩ := List.exists_cons_of_ne_nil hne
          cases e
          exact absurd (hsp '<' List.mem_cons_self) (by decide)

theorem isTidy_plain {t : Text} (h : isTidy t = true) {c : Char} (hc : .plain c ∈ tag.pieces t) :
    c ≠ '<' := by
  simpa using List.all_eq_true.1 h _ hc

theorem isTidy_found {t : Text} (h : isTidy t = true) {m : Match} (hm : .found m ∈ tag.pieces t) :
    '<' ∉ m.text.tail ∧ tags (sanitiseTag m.text) = [sanitiseTag m.text] ∧
      staysApart (unsafeAttribute.pieces m.text) = true := by
  simpa [isTidyTag, and_assoc] using List.all_eq_true.1 h _ hm

theorem strung_sanitiseTags {t : Text} (h : isTidy t = true) :
    Strung (fun x => ∃ y ∈ tags t, x = sanitiseTag y) (sanitiseTags t) := by
  suffices each : ∀ ps, (∀ p ∈ ps, p ∈ tag.pieces t) →
      Strung (fun x => ∃ y ∈ tags t, x = sanitiseTag y)
        (Piece.assemble (fun m => sanitiseTag m.text) ps) from each _ fun _ hp => hp
  intro ps
  induction ps with
  | nil => exact fun _ => .nil
  | cons p ps ih =>
      intro inside
      obtain ⟨here, later⟩ := List.forall_mem_cons.1 inside
      cases p with
      | plain c => exact .plain (isTidy_plain h here) (ih later)
      | found m =>
          obtain ⟨_, _, _, -, takes⟩ := (pieces_scan tag_advances t).mem_found here
          obtain ⟨u, text, -⟩ := afterTag_takes takes
          obtain ⟨single, -⟩ := isTidy_found h here
          obtain ⟨v, kept, mem⟩ := sanitiseTag_cons u
          rw [← text] at kept
          rw [Piece.assemble, kept]
          refine .element ⟨m.text, mem_tags.2 ⟨m, here, rfl⟩, kept.symm⟩ ?_ (ih later)
          intro bracket
          exact single (by simpa [text] using mem _ bracket)

theorem harmless_sanitise {t : Text} (h : isTidy t = true) : harmless (sanitise t) = true := by
  have listed : ∀ x ∈ tags (sanitise t), ∃ y ∈ tags t, x = sanitiseTag y := by
    have strung := (strung_sanitiseTags h).escaped
      (escaped_of_scan (pieces_scan foreignBracket_advances (sanitiseTags t)))
    intro x hx
    obtain ⟨m, hm, rfl⟩ := mem_tags.1 hx
    refine strung.listed_of_scan ?_ (pieces_scan tag_advances _) [] _ (by simp) rfl m hm
    rintro x ⟨y, hy, rfl⟩
    obtain ⟨m, hm, rfl⟩ := mem_tags.1 hy
    have self : sanitiseTag m.text ∈ tags (sanitiseTag m.text) := by
      rw [(isTidy_found h hm).2.1]
      exact List.mem_singleton_self _
    obtain ⟨n, hn, same⟩ := mem_tags.1 self
    obtain ⟨b, _, r, -, takes⟩ := (pieces_scan tag_advances _).mem_found hn
    exact ⟨b, r, n.groups, same ▸ takes⟩
  refine List.all_eq_true.2 fun x hx => ?_
  obtain ⟨y, hy, rfl⟩ := listed x hx
  obtain ⟨m, hm, rfl⟩ := mem_tags.1 hy
  rw [not_occursIn_sanitiseTag (isTidy_found h hm).2.2]
  rfl

/-- One pass makes a block harmless exactly when a second pass would change nothing, and it makes
    every tidy block harmless. -/
theorem blocks_harmless (t : Text) : blocks t = (rawBlocks t).map sanitise ∧
    ∀ b ∈ rawBlocks t, (harmless (sanitise b) = true ↔ sanitiseTags (sanitise b) = sanitise b) ∧
      (isTidy b = true → harmless (sanitise b) = true) :=
  ⟨blocks_eq t, fun b _ => ⟨harmless_iff (sanitise b), harmless_sanitise⟩⟩

/-- A tidy block with a link and an event handler. -/
theorem blocks_harmless_link :
    harmless (sanitise "<math href=\"a>b\"><mi onclick='x' dir=\"ltr\" /></math>") = true :=
  ((blocks_harmless "x <math href=\"a>b\"><mi onclick='x' dir=\"ltr\" /></math>").2 _
    (by decide +kernel)).2 (by decide +kernel)

/-- Removing an attribute can join what stands around it into another one. -/
theorem blocks_not_harmless : ¬ ∀ t : Text, ∀ b ∈ blocks t, harmless b = true := by
  intro h
  have joined := h "<math /on onx=\"1\"click=1></math>" "<math /onclick=1></math>" (by decide +kernel)
  exact absurd joined (by decide)

end LessonText.MathML

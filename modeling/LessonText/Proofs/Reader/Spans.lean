import LessonText.Proofs.Reader.Blocks
import LessonText.Proofs.Markup.Changes

/-! # Readers and the rules of spans

A span becomes a key, or its marks become keys; a reader that meets keys where a text might end reads on behind them.
-/

namespace LessonText

open Pattern Unicode Rendering

variable {σ τ : Type} {A : Reader σ} {B : Reader τ} {f : σ → τ} {free : Text → Prop} {gaps : List Text}

/-! ## What goes into custody -/

theorem Warden.recover_wards (w : Warden) (ps : List (Piece Text)) {p : Text × Text} (h : p ∈ (w.recover ps).warden.wards) :
    p ∈ w.wards := by
  induction ps generalizing w with
  | nil => exact h
  | cons piece ps ih =>
      cases piece with
      | plain c => exact ih w h
      | found key =>
          have later := ih _ h
          unfold retrieve at later
          split at later
          · exact List.mem_of_mem_filter later
          · exact later

namespace Reader.Custody

variable {t data : Text}

theorem reinstates (custody : A.Custody free) (h : free t) :
    Ensures (Session.Keeps free gaps) (Rendering.reinstate t) free := by
  rintro s ⟨held, same⟩
  exact ⟨⟨fun p hp => held p (Warden.recover_wards _ _ hp), same⟩, custody.reinstate _ _ held h⟩

theorem quotes (custody : A.Custody free) (h : free t) :
    Ensures (Session.Keeps free gaps) (Span.quotable t) free :=
  (custody.reinstates h).bind fun u hu => .pure (custody.quoted u hu)

/-- What is built of texts that may go into custody becomes one key. -/
theorem guards (custody : A.Custody free) (marked : B.Marked) {build : Rendering Text}
    (built : Ensures (Session.Keeps free gaps) build fun t => free t ∧ ∃ c u, t = c :: u ∧ c ≠ '?') :
    Ensures (Session.Keeps free gaps) (build >>= fun t => Rendering.reinstate t >>= Rendering.protect) B.Resets := by
  refine built.bind fun t ⟨ok, c, u, split, other⟩ => ?_
  have back : Ensures (Session.Keeps free gaps) (Rendering.reinstate t) fun v => free v ∧ v ≠ [] := by
    intro s held
    refine ⟨(custody.reinstates ok s held).1, (custody.reinstates ok s held).2, ?_⟩
    subst split
    obtain ⟨v, same⟩ := Rendering.reinstate_cons u s other
    rw [same]
    exact List.cons_ne_nil _ _
  exact back.bind fun v hv => marked.protect_full hv.1 hv.2

end Reader.Custody

/-- A match that begins and ends where a text might end becomes a key. -/
theorem Carries.key {s : σ} {old rest new v : Text} {c : Char} (follows : Follows A B f)
    (reads : A.Reads s (old ++ rest)) (calm : A.Calm s) (last : old = v ++ [c]) (returns : A.Returns c) (resets : B.Resets new) :
    Carries A B f s old rest new := by
  refine ⟨A.home, ?_, ?_, fun _ => rfl⟩
  · rw [follows.home]
    exact resets _ (follows.calm calm)
  · subst last
    exact Reader.Reads.behind (t := v) (by simpa using reads) returns

namespace Span

variable {t : Text}

/-! ## Equations, images and links -/

theorem equation_carries (fits : A.Fits) (custody : A.FullCustody free) (accepts : A.Accepts t) :
    Ensures (Session.Keeps free gaps) (equation.apply t) A.Accepts := by
  refine Rule.apply_carries fits.follows (.of_passes rfl) (fun b old rest m s same takes line reads => ?_) accepts
  obtain ⟨_, close, _, _, rfl, groups, ⟨opening, content, _, _, rfl, rfl, hopening, _, hcontent, rfl⟩, hclose⟩ := takes
  obtain rfl := hopening.groups_eq_nil rfl
  obtain rfl := hclose.groups_eq_nil rfl
  obtain ⟨-, -, rfl⟩ := takes_few1.1 hcontent
  have braces {b w r gs} (h : equationMark.Takes b w r gs) : ∃ v, w = '\x7b' :: (v ++ ['\x7d']) := by
    obtain ⟨_, _, _, _, rfl, -, ⟨_, plural, _, _, rfl, -, ⟨_, math, _, _, rfl, -, ⟨_, ho, rfl, -⟩, -⟩, -⟩, _, hc, rfl, -⟩ := h
    obtain rfl := beq_iff_eq.1 ho
    obtain rfl := beq_iff_eq.1 hc
    exact ⟨math ++ plural, by simp⟩
  obtain ⟨v, rfl⟩ := braces hopening
  obtain ⟨v', rfl⟩ := braces hclose
  have open_ : A.Lands '\x7b' := fits.signs _ (by decide)
  have close_ : A.Lands '\x7d' := fits.signs _ (by decide)
  have inner : A.Accepts content := by
    have behind : A.Reads A.home (content ++ '\x7b' :: (v' ++ ['\x7d'] ++ rest)) :=
      Reader.Reads.behind (t := '\x7b' :: v) (by simpa using reads) close_.returns
    obtain ⟨q, read, later⟩ := Reader.reads_append.1 behind
    exact ⟨q, read, later.calm (by simpa using open_.enters)⟩
  have first : m.group 1 = content := Match.group_eq groups
  have element : Maths.element content .inline = " <span class=\"maths\">" ++ Maths.toHtml content ++ "</span> " := by
    show " <" ++ ("span" : Text) ++ " class=\"maths\">" ++ Maths.toHtml content ++ "</" ++ "span" ++ "> " = _
    simp
  have built : Ensures (Session.Keeps free gaps) (Pure.pure (Maths.element (m.group 1) .inline) : Rendering Text)
      fun t => free t ∧ ∃ c u, t = c :: u ∧ c ≠ '?' := by
    refine .pure ⟨?_, ' ', _, by rw [first, element]; rfl, by decide⟩
    rw [first, element]
    exact custody.append _ _ (custody.append _ _ (custody.edges _ (by decide)) (custody.maths _ inner))
      (custody.edges _ (by decide))
  refine (custody.toCustody.guards fits.toMarked built).mono fun new resets => ?_
  exact .key (v := '\x7b' :: (v ++ ['\x7d']) ++ content ++ '\x7b' :: v') fits.follows reads
    (reads.calm (by simpa using open_.enters)) (by simp) close_.returns resets

/-- The parts of a reference, where the reader takes it. -/
structure Referred (A : Reader σ) (w : Text) (m : Match) : Prop where
  opens : ∃ u, w = '[' :: u
  closes : ∃ v, w = v ++ [')']
  alt : A.Accepts (m.group 1)
  address : '<' ∉ m.group 2
  full : m.group 2 ≠ []
  title : A.Accepts (m.group 3)

theorem address_unbracketed {b : Option Char} {w r : Text} {gs : List (ℕ × Text)}
    (h : (scheme ++ span1 isAddressChar).Takes b w r gs) : '<' ∉ w ∧ w ≠ [] ∧ gs = [] :=
  ⟨fun mem => absurd (h.admits mem) (by decide), Advances.of_passes rfl _ _ _ _ h, (scheme_takes h).2⟩

theorem reference_referred (fits : A.Fits) {s : σ} {b : Option Char} {w rest : Text} {m : Match}
    (takes : reference.Takes b w rest m.groups) (reads : A.Reads s (w ++ rest)) : Referred A w m := by
  obtain ⟨_, close, _, _, rfl, groups, ⟨_, titled, _, _, rfl, rfl, ⟨_, address, _, _, rfl, rfl, ⟨_, bracket, _, _, rfl, rfl,
    ⟨opening, alt, _, _, rfl, rfl, hopening, _, halt, rfl⟩, hbracket⟩, _, haddress, rfl⟩, htitled⟩, hclose⟩ := takes
  obtain ⟨rfl, rfl⟩ := takes_literal.1 hopening
  obtain ⟨rfl, rfl⟩ := takes_literal.1 hbracket
  obtain ⟨rfl, rfl⟩ := takes_literal.1 hclose
  obtain rfl := halt.groups_eq_nil rfl
  obtain ⟨unbracketed, full, rfl⟩ := address_unbracketed haddress
  have land {c : Char} (h : c ∈ ("[](" : Text)) : A.Lands c := fits.signs c (by revert c; decide)
  have ofAlt : A.Accepts alt := by
    have behind : A.Reads A.home (alt ++ ']' :: ("(" ++ address ++ titled ++ ")" ++ rest)) :=
      Reader.Reads.behind (t := []) (c := '[') (by simpa using reads) (land (by decide)).returns
    obtain ⟨q, read, later⟩ := Reader.reads_append.1 behind
    exact ⟨q, read, later.calm (by simpa using (land (c := ']') (by decide)).enters)⟩
  rcases htitled with ⟨_, quote', _, _, rfl, rfl, ⟨_, title, _, _, rfl, rfl, ⟨spaces, quote, _, _, rfl, rfl, hspaces, hquote⟩, _,
    htitle, rfl⟩, hquote'⟩ | ⟨rfl, rfl⟩
  · obtain rfl := hspaces.groups_eq_nil rfl
    obtain ⟨rfl, rfl⟩ := takes_literal.1 hquote
    obtain ⟨rfl, rfl⟩ := takes_literal.1 hquote'
    obtain rfl := htitle.groups_eq_nil rfl
    have first : m.group 1 = alt := Match.group_eq groups
    have second : m.group 2 = address := Match.group_eq groups
    have third : m.group 3 = title := Match.group_eq groups
    have ofTitle : A.Accepts title := by
      have behind : A.Reads A.home (address ++ spaces ++ ['"'] ++ (title ++ ("\")" ++ rest))) :=
        Reader.Reads.behind (t := "[" ++ alt ++ "]") (c := '(') (by simpa using reads) (land (by decide)).returns
      obtain ⟨p, first, behind⟩ := Reader.reads_append.1 behind
      have plain : '<' ∉ address ++ spaces := by
        simp only [List.mem_append, not_or]
        exact ⟨unbracketed, fun mem => absurd (hspaces.admits mem) (by decide)⟩
      obtain rfl := fits.blanks '"' (.inr rfl) _ _ plain first
      obtain ⟨q, read, later⟩ := Reader.reads_append.1 behind
      obtain ⟨r, close, -⟩ := Reader.reads_append.1 later
      exact ⟨q, read, fits.quoted q r close⟩
    exact ⟨⟨_, rfl⟩, ⟨_, rfl⟩, first ▸ ofAlt, second ▸ unbracketed, second ▸ full, third ▸ ofTitle⟩
  · have first : m.group 1 = alt := Match.group_eq groups
    have second : m.group 2 = address := Match.group_eq groups
    have third : m.group 3 = [] := Match.group_eq groups
    exact ⟨⟨_, rfl⟩, ⟨_, rfl⟩, first ▸ ofAlt, second ▸ unbracketed, second ▸ full, third ▸ Reader.reads_nil.2 fits.calm⟩

theorem image_carries (fits : A.Fits) (custody : A.Custody free) (accepts : A.Accepts t) :
    Ensures (Session.Keeps free gaps) (image.apply t) A.Accepts := by
  refine Rule.apply_carries fits.follows (.of_passes rfl) (fun b old rest m s same takes line reads => ?_) accepts
  obtain ⟨bang, w, _, _, rfl, groups, hbang, href⟩ := takes
  obtain ⟨rfl, rfl⟩ := takes_literal.1 hbang
  rw [List.append_nil] at groups
  rw [← groups] at href
  obtain ⟨q, -, inside⟩ := Reader.reads_append.1 ((List.append_assoc _ _ _) ▸ reads)
  have parts := reference_referred fits href inside
  obtain ⟨v, rfl⟩ := parts.closes
  have built : Ensures (Session.Keeps free gaps) (do
      let alt ← quotable (m.group 1)
      let title ← quotable (m.group 3)
      return "<img alt=\"" ++ alt ++ "\" src=\"" ++ m.group 2 ++ "\" title=\"" ++ title ++ "\"/>")
      fun t => free t ∧ ∃ c u, t = c :: u ∧ c ≠ '?' := by
    refine (custody.quotes (custody.of_accepts _ parts.alt)).bind fun alt hAlt => ?_
    refine (custody.quotes (custody.of_accepts _ parts.title)).bind fun title hTitle => ?_
    refine .pure ⟨?_, '<', _, rfl, by decide⟩
    have edge {t : Text} (h : t ∈ edges) : free t := custody.edges t h
    exact custody.append _ _ (custody.append _ _ (custody.append _ _ (custody.append _ _ (custody.append _ _ (custody.append _ _
      (edge (by decide)) hAlt) (edge (by decide))) (custody.unbracketed _ parts.address)) (edge (by decide))) hTitle) (edge (by decide))
  have bang : A.Lands '!' := fits.signs _ (by decide)
  refine (custody.guards fits.toMarked built).mono fun new resets => ?_
  exact .key (v := '!' :: v) fits.follows reads (reads.calm (by simpa using bang.enters)) rfl (fits.signs ')' (by decide)).returns resets

/-- Behind a link the second reader reads on; it takes the markup for the printed page as well. -/
theorem link_carries (fits : A.Fits) (custody : A.Custody free) (marked : B.Marked) (follows : Follows A B f)
    (opening : B.run B.home "<span class=\"print-only\"> (" = some B.home) (closing : B.run B.home ")</span>" = some B.home)
    (accepts : A.Accepts t) : Ensures (Session.Keeps free gaps) (link.apply t) B.Accepts := by
  refine Rule.apply_carries follows (.of_passes rfl) (fun b old rest m s same takes line reads => ?_) accepts
  have parts := reference_referred fits takes reads
  have built : Ensures (Session.Keeps free gaps) (do
      let title ← quotable (m.group 3)
      return "<a target=\"_blank\" href=\"" ++ m.group 2 ++ "\" title=\"" ++ title ++ "\">" ++ m.group 1 ++ "</a>")
      fun t => free t ∧ ∃ c u, t = c :: u ∧ c ≠ '?' := by
    refine (custody.quotes (custody.of_accepts _ parts.title)).bind fun title hTitle => ?_
    refine .pure ⟨?_, '<', _, rfl, by decide⟩
    have edge {t : Text} (h : t ∈ edges) : free t := custody.edges t h
    exact custody.append _ _ (custody.append _ _ (custody.append _ _ (custody.append _ _ (custody.append _ _ (custody.append _ _
      (edge (by decide)) (custody.unbracketed _ parts.address)) (edge (by decide))) hTitle) (edge (by decide)))
      (custody.of_accepts _ parts.alt)) (edge (by decide))
  have replaced : link.replace m = (do
      let anchor ← (do
        let title ← quotable (m.group 3)
        return "<a target=\"_blank\" href=\"" ++ m.group 2 ++ "\" title=\"" ++ title ++ "\">" ++ m.group 1 ++ "</a>") >>=
          fun t => Rendering.reinstate t >>= Rendering.protect
      let address ← Rendering.protect (m.group 2)
      return anchor ++ "<span class=\"print-only\"> (" ++ address ++ ")</span>") := by
    simp only [link, bind_assoc, pure_bind]
  rw [replaced]
  refine (custody.guards marked built).bind fun anchor hAnchor => ?_
  refine (marked.protect_full (custody.unbracketed _ parts.address) parts.full).bind fun address hAddress => .pure ?_
  obtain ⟨u, whole⟩ := parts.opens
  obtain ⟨v, rfl⟩ := parts.closes
  have bracket : A.Enters '[' := (fits.signs '[' (by decide)).enters
  have calm : A.Calm s := by
    rw [whole] at reads
    exact reads.calm (by simpa using bracket)
  refine .key (v := v) follows reads calm rfl (fits.signs ')' (by decide)).returns fun q hq => ?_
  simp only [List.append_assoc]
  rw [Reader.run_append_of (hAnchor q hq), Reader.run_append_of opening, Reader.run_append_of (hAddress _ marked.calm)]
  exact closing

/-! ## Addresses in angle brackets, and code -/

/-- An address between angle brackets, of which the second one may be escaped, becomes a key. -/
theorem bracketed_carries (marked : A.Marked) (custody : B.Custody free) {p : Pattern} {build : Match → Rendering Text}
    (advances : p.Advances)
    (each : ∀ m b w r, p.Takes b w r m.groups → (∃ u v, (w = '&' :: u ∨ w = '<' :: u) ∧ w = v ++ ['>']) ∧
      Ensures (Session.Keeps free gaps) (build m) fun t => free t ∧ ∃ c u, t = c :: u ∧ c ≠ '?')
    (accepts : A.Accepts t) : Ensures (Session.Keeps free gaps) ((guarded p build).apply t) A.Accepts := by
  refine Rule.apply_carries marked.follows advances (fun b old rest m s same takes line reads => ?_) accepts
  obtain ⟨⟨u, v, begins, rfl⟩, built⟩ := each m _ _ _ takes
  have calm : A.Calm s := by
    rcases begins with whole | whole
    · rw [whole] at reads
      exact reads.calm (by simpa using (marked.marks '&' (by decide)).enters)
    · rw [whole] at reads
      exact reads.calm (by simpa using marked.opening)
  exact (custody.guards marked built).mono fun new resets =>
    .key (v := v) marked.follows reads calm rfl marked.closing resets

theorem angled_takes {p : Pattern} {m : Match} {b : Option Char} {w r : Text} (plain : p.groupless = true)
    (takes : (openBracket ++ group 1 p ++ ">").Takes b w r m.groups) :
    (∃ u v, (w = '&' :: u ∨ w = '<' :: u) ∧ w = v ++ ['>']) ∧ ∃ b r, p.Takes b (m.group 1) r [] := by
  obtain ⟨_, close, _, _, rfl, groups, ⟨opening, address, _, _, rfl, rfl, hopening, _, haddress, rfl⟩, hclose⟩ := takes
  obtain ⟨rfl, rfl⟩ := takes_literal.1 hclose
  obtain ⟨escaped, rfl⟩ := openBracket_takes hopening
  obtain rfl := haddress.groups_eq_nil plain
  have first : m.group 1 = address := Match.group_eq groups
  refine ⟨?_, _, _, first ▸ haddress⟩
  rcases escaped with rfl | rfl
  · exact ⟨_, _, .inl rfl, rfl⟩
  · exact ⟨_, _, .inr rfl, rfl⟩

theorem autoLink_carries (marked : A.Marked) (custody : B.Custody free) (accepts : A.Accepts t) :
    Ensures (Session.Keeps free gaps) (autoLink.apply t) A.Accepts := by
  refine bracketed_carries marked custody (.of_passes rfl) (fun m b w r takes => ?_) accepts
  obtain ⟨ends, _, _, address⟩ := angled_takes rfl takes
  have ok : free (m.group 1) := custody.unbracketed _ (address_unbracketed address).1
  refine ⟨ends, .pure ⟨?_, '<', _, rfl, by decide⟩⟩
  exact custody.append _ _ (custody.append _ _ (custody.append _ _ (custody.append _ _ (custody.edges _ (by decide)) ok)
    (custody.edges _ (by decide))) ok) (custody.edges _ (by decide))

theorem mailLink_carries (marked : A.Marked) (custody : B.Custody free) (accepts : A.Accepts t) :
    Ensures (Session.Keeps free gaps) (mailLink.apply t) A.Accepts := by
  refine bracketed_carries marked custody (.of_passes rfl) (fun m b w r takes => ?_) accepts
  refine ⟨(angled_takes rfl takes).1, .pure ⟨?_, '<', _, rfl, by decide⟩⟩
  have ok (t : Text) : free (Entity.encode t) := custody.unbracketed _ (not_mem_encode (by decide) rfl t)
  exact custody.append _ _ (custody.append _ _ (custody.append _ _ (custody.append _ _ (custody.edges _ (by decide)) (ok _))
    (custody.edges _ (by decide))) (ok _)) (custody.edges _ (by decide))

/-- Between marks that lead back to the start, a text is read by itself. -/
theorem between_marks {s : σ} {a u z rest : Text} (before : a ≠ [] ∧ ∀ c ∈ a, A.Lands c) (behind : z ≠ [] ∧ ∀ c ∈ z, A.Lands c)
    (reads : A.Reads s (a ++ u ++ z ++ rest)) : A.Calm s ∧ A.Accepts u ∧ A.Reads A.home rest := by
  have first {s : σ} {t r : Text} (marks : t ≠ [] ∧ ∀ c ∈ t, A.Lands c) (reads : A.Reads s (t ++ r)) :
      A.Calm s ∧ A.Reads A.home r := by
    obtain ⟨v, c, rfl⟩ : ∃ v c, t = v ++ [c] :=
      ⟨t.dropLast, t.getLast marks.1, (List.dropLast_append_getLast marks.1).symm⟩
    refine ⟨reads.calm fun d hd => (marks.2 d ?_).enters, Reader.Reads.behind (t := v) (by simpa using reads) (marks.2 c (by simp)).returns⟩
    rw [List.head?_append_of_ne_nil _ marks.1] at hd
    exact List.mem_of_mem_head? hd
  simp only [List.append_assoc] at reads
  obtain ⟨calm, later⟩ := first before reads
  obtain ⟨q, read, later⟩ := Reader.reads_append.1 later
  obtain ⟨ended, rest⟩ := first behind later
  exact ⟨calm, ⟨q, read, ended⟩, rest⟩

theorem Ticks.lands (ticks : Ticks t) (marked : A.Marked) : t ≠ [] ∧ ∀ c ∈ t, A.Lands c :=
  ⟨ticks.1, fun c hc => ticks.2 c hc ▸ marked.marks '\x60' (by decide)⟩

theorem code_carries (marked : A.Marked) (custody : A.Custody free) (accepts : A.Accepts t) :
    Ensures (Session.Keeps free gaps) (code.apply t) A.Accepts := by
  refine Rule.apply_carries marked.follows (.of_passes rfl) (fun b old rest m s same takes line reads => ?_) accepts
  obtain ⟨a, z, rfl, before, behind⟩ := code_takes takes
  obtain ⟨calm, inner, -⟩ := between_marks (before.lands marked) (behind.lands marked) reads
  have built : Ensures (Session.Keeps free gaps)
      (Pure.pure ("<code>" ++ (m.group? 1).getD (m.group 2) ++ "</code>") : Rendering Text)
      fun t => free t ∧ ∃ c u, t = c :: u ∧ c ≠ '?' := by
    refine .pure ⟨?_, '<', _, rfl, by decide⟩
    exact custody.append _ _ (custody.append _ _ (custody.edges _ (by decide)) (custody.of_accepts _ inner)) (custody.edges _ (by decide))
  refine (custody.guards marked built).mono fun new resets => ?_
  obtain ⟨v, c, rfl⟩ : ∃ v c, z = v ++ [c] := ⟨z.dropLast, z.getLast behind.1, (List.dropLast_append_getLast behind.1).symm⟩
  exact .key (v := a ++ (m.group? 1).getD (m.group 2) ++ v) marked.follows reads calm (by simp) ((behind.lands marked).2 c (by simp)).returns resets

/-! ## Emphasis -/

/-- The tags of an emphasis become keys, and its contents are read on. -/
theorem emphasis_carries (marked : A.Marked) (custody : B.Custody free) {sign : Char} (lands : A.Lands sign) {count : ℕ}
    {tags : List Text} (opening : openings tags ∈ edges) (closing : closings tags ∈ edges) :
    ∀ r ∈ emphasis sign (count + 1) tags, ∀ t, A.Accepts t → Ensures (Session.Keeps free gaps) (r.apply t) A.Accepts := by
  let marks := List.replicate (count + 1) sign
  have landing : marks ≠ [] ∧ ∀ c ∈ marks, A.Lands c :=
    ⟨List.cons_ne_nil _ _, fun c hc => (List.eq_of_mem_replicate hc) ▸ lands⟩
  have between {body : Pattern} (plain : body.groupless = true) (t : Text) (accepts : A.Accepts t) :
      Ensures (Session.Keeps free gaps)
        (Rule.apply ⟨literal marks ++ group 1 body ++ literal marks, fun m => emphasise tags (m.group 1)⟩ t) A.Accepts := by
    refine Rule.apply_carries marked.follows (.of_passes rfl) (fun b old rest m s same takes line reads => ?_) accepts
    obtain ⟨_, closing', _, _, rfl, groups, ⟨opening', contents, _, _, rfl, rfl, hopening, _, hcontents, rfl⟩, hclosing⟩ := takes
    obtain ⟨rfl, rfl⟩ := takes_literal.1 hopening
    obtain ⟨rfl, rfl⟩ := takes_literal.1 hclosing
    obtain rfl := hcontents.groups_eq_nil plain
    have first : m.group 1 = contents := Match.group_eq groups
    obtain ⟨calm, ⟨q, inner, ended⟩, later⟩ := between_marks landing landing reads
    simp only [first]
    have full : ∀ t ∈ edges, t ≠ [] := by decide
    refine (marked.protect_full (custody.edges _ opening) (full _ opening)).bind fun before hBefore =>
      (marked.protect_full (custody.edges _ closing) (full _ closing)).bind fun behind hBehind =>
        .pure ⟨A.home, ?_, later, fun _ => rfl⟩
    exact Reader.run_wrap hBefore hBehind calm inner ended
  simp only [emphasis, List.forall_mem_cons]
  exact ⟨between rfl, between rfl, by simp⟩

/-- The rules behind those of images and links carry what the reader takes. -/
theorem marks_carry (marked : B.Marked) (custody : B.Custody free) :
    ∀ r ∈ rules.drop 3, ∀ t, B.Accepts t → Ensures (Session.Keeps free gaps) (r.apply t) B.Accepts := by
  have stars : B.Lands '*' := marked.marks _ (by decide)
  have lines : B.Lands '_' := marked.marks _ (by decide)
  change ∀ r ∈ autoLink :: mailLink :: code :: (emphasis '*' 3 ["strong", "em"] ++ emphasis '_' 3 ["strong", "em"] ++
    emphasis '*' 2 ["strong"] ++ emphasis '_' 2 ["strong"] ++ emphasis '*' 1 ["em"] ++ emphasis '_' 1 ["em"]), _
  simp only [List.forall_mem_cons, List.forall_mem_append]
  refine ⟨fun t => autoLink_carries marked custody, fun t => mailLink_carries marked custody, fun t => code_carries marked custody,
    ⟨⟨⟨⟨?_, ?_⟩, ?_⟩, ?_⟩, ?_⟩, ?_⟩
  · exact emphasis_carries marked custody stars (by decide) (by decide)
  · exact emphasis_carries marked custody lines (by decide) (by decide)
  · exact emphasis_carries marked custody stars (by decide) (by decide)
  · exact emphasis_carries marked custody lines (by decide) (by decide)
  · exact emphasis_carries marked custody stars (by decide) (by decide)
  · exact emphasis_carries marked custody lines (by decide) (by decide)

/-- The rules of spans carry a text that the first reader takes to one that the second reader takes. -/
theorem rules_carry (fits : A.Fits) (custody : A.FullCustody free) (marked : B.Marked) (custody' : B.Custody free)
    (follows : Follows A B f) (opening : B.run B.home "<span class=\"print-only\"> (" = some B.home)
    (closing : B.run B.home ")</span>" = some B.home) (accepts : A.Accepts t) :
    Ensures (Session.Keeps free gaps) (rules.foldlM (fun t r => r.apply t) t) B.Accepts :=
  (equation_carries fits custody accepts).bind fun _ h₁ => (image_carries fits custody.toCustody h₁).bind fun _ h₂ =>
    (link_carries fits custody.toCustody marked follows opening closing h₂).bind fun _ h₃ => .foldlM (marks_carry marked custody') h₃

end Span

end LessonText

import LessonText.Proofs.Item.Shown
import LessonText.Proofs.Markup.Equations
import LessonText.Proofs.Reader.Leading

/-! # What is in custody begins no gap

Fragments are read from the start and back to it, so that none completes what the text around it begins. Most of what a rewrite
writes leads back to the start from anywhere, and what it keeps of a match can be read there as well.
-/

namespace LessonText

open Pattern Unicode Rendering

/-- What a reader of a word with one bracket can read anywhere, it can read at the start, and it is no further then. -/
theorem Reader.refusing_home {n : ℕ} {word : Text} {firm : ℕ → Char → Bool} (first : word.head? = some '<')
    (single : '<' ∉ word.tail) {t : Text} {s q : Fin (n + 2)} (h : (Reader.refusing n word firm).run s t = some q) :
    ∃ q', (Reader.refusing n word firm).run 0 t = some q' ∧ (q' = q ∨ q' = 0) := by
  induction t generalizing s with
  | nil => exact ⟨0, rfl, .inr rfl⟩
  | cons c t ih =>
      rw [Reader.run_cons, Option.bind_eq_some_iff] at h
      obtain ⟨p, step, later⟩ := h
      have start : word[(0 : Fin (n + 2)).val]? = some '<' := List.head?_eq_getElem?.symm.trans first
      by_cases bracket : c = '<'
      · subst bracket
        have one : p = ⟨1, by omega⟩ := by
          simp only [Reader.refusing] at step
          split at step
          · rename_i next
            have zero : s.val = 0 := by
              by_contra other
              obtain ⟨k, hk⟩ := Nat.exists_eq_succ_of_ne_zero other
              rw [hk, Nat.succ_eq_add_one, ← List.getElem?_tail] at next
              exact single (List.mem_of_getElem? next)
            rw [dif_pos (by omega)] at step
            exact Option.some.inj step ▸ Fin.ext (by simp [zero])
          · split at step
            · exact (Option.some.inj step).symm
            · cases step
        have same : (Reader.refusing n word firm).step 0 '<' = some p := by
          simp only [Reader.refusing, if_pos start]
          rw [dif_pos (by simp), one]
          rfl
        exact ⟨q, by rw [Reader.run_cons, same]; exact later, .inl rfl⟩
      · rw [Reader.run_cons, Leading.stays first bracket]
        exact ih later

theorem Reader.refusing_reads_home {n : ℕ} {word : Text} {firm : ℕ → Char → Bool} (first : word.head? = some '<')
    (single : '<' ∉ word.tail) (calm : (Reader.refusing n word firm).Calm 0) {t : Text} {s : Fin (n + 2)}
    (h : (Reader.refusing n word firm).Reads s t) : (Reader.refusing n word firm).Reads 0 t := by
  obtain ⟨q, read, ends⟩ := h
  obtain ⟨q', read', rfl | rfl⟩ := refusing_home first single read
  · exact ⟨q', read', ends⟩
  · exact ⟨0, read', calm⟩

namespace Leading

/-- A text that leads back to the start from anywhere. -/
def Homing (t : Text) : Prop := ∀ s, custody.run s t = some 0

instance (t : Text) : Decidable (Homing t) := inferInstanceAs (Decidable (∀ _, _))

/-- A text that can be read from the start. -/
def Readable (t : Text) : Prop := ∃ q, custody.run 0 t = some q

section

variable {s q : Fin 25} {t u v w : Text} {c : Char}

theorem custody_home (h : custody.run s t = some q) : ∃ q', custody.run 0 t = some q' ∧ (q' = q ∨ q' = 0) :=
  Reader.refusing_home rfl (by decide) h

theorem page_home (h : page.run s t = some q) : ∃ q', page.run 0 t = some q' ∧ (q' = q ∨ q' = 0) :=
  Reader.refusing_home rfl (by decide) h

theorem custody_reads_home (h : custody.Reads s t) : custody.Reads 0 t :=
  Reader.refusing_reads_home rfl (by decide) (by decide) h

theorem Readable.of_part (h : custody.run s (u ++ t ++ v) = some q) : Readable t := by
  rw [List.append_assoc, Reader.run_append, Option.bind_eq_some_iff] at h
  obtain ⟨p, -, h⟩ := h
  rw [Reader.run_append, Option.bind_eq_some_iff] at h
  obtain ⟨r, read, -⟩ := h
  obtain ⟨q', read', -⟩ := custody_home read
  exact ⟨q', read'⟩

namespace Homing

theorem of_first (first : ∀ s, custody.step s c = some 0) (plain : '<' ∉ t) : Homing (c :: t) := fun s => by
  rw [Reader.run_cons, first]
  exact custody_run plain

theorem append (h : Homing t) (k : Homing u) : Homing (t ++ u) := fun s => (Reader.run_append_of (h s)).trans (k 0)

theorem wrap (h : Homing t) (inner : Readable u) (k : Homing v) : Homing (t ++ u ++ v) := fun s => by
  obtain ⟨q, read⟩ := inner
  rw [List.append_assoc, Reader.run_append_of (h s), Reader.run_append_of read, k q]

end Homing

end

/-! ## Rewrites -/

/-- A rewrite that keeps the beginning of a match and leads back to the start. -/
theorem rewrite_accepts {r : Rewrite} (advances : r.pattern.Advances)
    (each : ∀ b old rest m, m.text = old → r.pattern.Takes b old rest m.groups → (∃ s q, custody.run s old = some q) →
      ∃ u v h, old = u ++ v ∧ r.replace m = u ++ h ∧ Homing h) {t : Text} (accepts : custody.Accepts t) :
    custody.Accepts (r.apply t) := by
  have follows : Follows custody custody id := ⟨rfl, fun _ _ _ h => h, by decide⟩
  refine Rewrite.apply_carries follows advances (fun b old rest m s same takes line reads => ?_) accepts
  obtain ⟨p, read, later⟩ := Reader.reads_append.1 reads
  obtain ⟨u, v, h, rfl, replaced, homing⟩ := each b old rest m same takes ⟨s, p, read⟩
  rw [Reader.run_append, Option.bind_eq_some_iff] at read
  obtain ⟨q, first, -⟩ := read
  rw [replaced]
  exact ⟨0, (Reader.run_append_of first).trans (homing q), custody_reads_home later, fun _ => rfl⟩

/-- A rewrite that always writes the same. -/
theorem const_accepts {p : Pattern} {new t : Text} (passes : p.passes = true) (homing : Homing new)
    (accepts : custody.Accepts t) : custody.Accepts (Rewrite.apply ⟨p, fun _ => new⟩ t) :=
  rewrite_accepts (.of_passes passes) (fun _ old _ _ _ _ _ => ⟨[], old, new, rfl, rfl, homing⟩) accepts

theorem applyAll_accepts {rewrites : List Rewrite} (each : ∀ r ∈ rewrites, ∀ t, custody.Accepts t → custody.Accepts (r.apply t))
    {t : Text} (accepts : custody.Accepts t) : custody.Accepts (Rewrite.applyAll rewrites t) := by
  induction rewrites generalizing t with
  | nil => exact accepts
  | cons r rewrites ih =>
      obtain ⟨here, later⟩ := List.forall_mem_cons.1 each
      exact ih later (here t accepts)

/-! ## Equations -/

theorem names_accept : ∀ r ∈ Greek.rewrites, ∀ t, custody.Accepts t → custody.Accepts (r.apply t) := by
  have all : Greek.names.all (fun name => (Greek.nameRewrite name).pattern.passes && !(name ++ ";").contains '<') = true := by
    decide
  have sign : ∀ s, custody.step s '&' = some 0 := by decide
  intro r hr t accepts
  obtain ⟨name, hname, rfl⟩ := List.mem_map.1 hr
  obtain ⟨passes, plain⟩ := Bool.and_eq_true_iff.1 (List.all_eq_true.1 all name hname)
  exact const_accepts passes (.of_first sign (t := name ++ ";") (by simpa using plain)) accepts

theorem function_accepts {name entity t : Text} (passes : (Maths.functionName name).passes = true) (homing : Homing entity)
    (accepts : custody.Accepts t) :
    custody.Accepts (Rewrite.apply ⟨Maths.functionName name, fun m => m.group 1 ++ entity⟩ t) := by
  refine rewrite_accepts (.of_passes passes) (fun b old rest m same takes _ => ?_) accepts
  obtain ⟨_, _, _, _, rfl, groups, ⟨before, letters, _, _, rfl, rfl, ⟨_, hbefore, rfl⟩, hletters⟩, rfl, -, rfl⟩ := takes
  obtain ⟨-, rfl⟩ := takes_literalFold.1 hletters
  have first : m.group 1 = before := Match.group_eq groups
  exact ⟨before, letters, entity, by simp, congrArg (· ++ entity) first, homing⟩

theorem product_accepts {t : Text} (accepts : custody.Accepts t) : custody.Accepts (Rewrite.apply
    ⟨group 1 (one Char.isAlphanum) ++ "." ++ followedBy Char.isAlpha, fun m => m.group 1 ++ "&sdot;"⟩ t) := by
  refine rewrite_accepts (.of_passes rfl) (fun b old rest m same takes _ => ?_) accepts
  obtain ⟨_, _, _, _, rfl, groups, ⟨letter, stop, _, _, rfl, rfl, ⟨_, _, rfl⟩, hstop⟩, rfl, -, rfl⟩ := takes
  obtain ⟨-, rfl⟩ := takes_literal.1 hstop
  have first : m.group 1 = letter := Match.group_eq groups
  exact ⟨letter, stop, "&sdot;", by simp, congrArg (· ++ ("&sdot;" : Text)) first, by decide⟩

theorem entities_accept : ∀ r ∈ Maths.entityRewrites, ∀ t, custody.Accepts t → custody.Accepts (r.apply t) := by
  have homing : ∀ new ∈ ([" &minus; ", " &times; ", " &ne; ", " &le; ", " &ge; ", " &part;", "&radic;", "&sum;",
      "&int;"] : List Text), Homing new := by decide
  simp only [Maths.entityRewrites, List.forall_mem_cons]
  exact ⟨fun t => const_accepts rfl (homing _ (by decide)), fun t => const_accepts rfl (homing _ (by decide)),
    fun t => const_accepts rfl (homing _ (by decide)), fun t => const_accepts rfl (homing _ (by decide)),
    fun t => const_accepts rfl (homing _ (by decide)), fun t => const_accepts rfl (homing _ (by decide)),
    fun t => function_accepts rfl (homing _ (by decide)), fun t => function_accepts rfl (homing _ (by decide)),
    fun t => function_accepts rfl (homing _ (by decide)), fun t => const_accepts rfl (homing _ (by decide)),
    fun t => product_accepts, by simp⟩

/-- The mathematical form of letters and digits. -/
theorem symbols_homing {t : Text} (full : t ≠ []) (alphanum : ∀ c ∈ t, c.isAlphanum = true) : Homing (t.map Maths.symbol) := by
  have all : (charsOf alphanumRanges).all (fun c => decide (∀ s, custody.step s (Maths.symbol c) = some 0)) = true := by
    decide
  have step {c : Char} (h : c.isAlphanum = true) : ∀ s, custody.step s (Maths.symbol c) = some 0 :=
    of_decide_eq_true (of_isAlphanum all h)
  induction t with
  | nil => exact absurd rfl full
  | cons c t ih =>
      obtain ⟨here, later⟩ := List.forall_mem_cons.1 alphanum
      intro s
      rw [List.map_cons, Reader.run_cons, step here]
      cases t with
      | nil => rfl
      | cons d t => exact ih (by simp) later 0

theorem symbol_accepts {p : Pattern} (passes : p.passes = true)
    (letters : ∀ b w r gs, p.Takes b w r gs → w ≠ [] ∧ ∀ c ∈ w, c.isAlphanum = true) {t : Text} (accepts : custody.Accepts t) :
    custody.Accepts (Rewrite.apply ⟨p, fun m => m.text.map Maths.symbol⟩ t) := by
  refine rewrite_accepts (.of_passes passes) (fun b old rest m same takes _ => ?_) accepts
  obtain ⟨full, alphanum⟩ := letters _ _ _ _ takes
  exact ⟨[], old, old.map Maths.symbol, rfl, congrArg (List.map Maths.symbol) same, symbols_homing full alphanum⟩

theorem symbols_accept : ∀ r ∈ Maths.symbolRewrites, ∀ t, custody.Accepts t → custody.Accepts (r.apply t) := by
  simp only [Maths.symbolRewrites, List.forall_mem_cons]
  refine ⟨fun t => symbol_accepts rfl fun b w r gs takes => ?_, fun t => symbol_accepts rfl fun b w r gs takes => ?_, by simp⟩
  · obtain ⟨full, digits, -⟩ := takes_span1.1 takes
    exact ⟨full, fun c hc => by rw [Char.isAlphanum, digits c hc, Bool.or_true]⟩
  · obtain ⟨_, _, _, _, rfl, -, ⟨_, w, _, _, rfl, -, ⟨rfl, -⟩, hletters⟩, rfl, -⟩ := takes
    obtain ⟨full, letters, -⟩ := takes_span1.1 hletters
    exact ⟨by simpa using full, fun c hc => by rw [Char.isAlphanum, letters c (by simpa using hc), Bool.true_or]⟩

theorem fraction_accepts {t : Text} (accepts : custody.Accepts t) : custody.Accepts (Rewrite.apply
    ⟨group 1 Maths.fractionPart ++ Maths.spaced "/" ++ group 2 Maths.fractionPart, fun m =>
      "<table><tr><td>" ++ m.group 1 ++ "</td></tr><tr><td>" ++ m.group 2 ++ "</td></tr></table>"⟩ t) := by
  refine rewrite_accepts (.of_passes rfl) (fun b old rest m same takes ⟨s, q, read⟩ => ?_) accepts
  obtain ⟨_, v, _, _, rfl, groups, ⟨u, slash, _, _, rfl, rfl, ⟨_, hu, rfl⟩, hslash⟩, _, hv, rfl⟩ := takes
  obtain rfl := hu.groups_eq_nil rfl
  obtain rfl := hslash.groups_eq_nil rfl
  obtain rfl := hv.groups_eq_nil rfl
  have first : m.group 1 = u := Match.group_eq groups
  have second : m.group 2 = v := Match.group_eq groups
  have upper : Readable u := .of_part (u := []) (v := slash ++ v) (s := s) (q := q) (by simpa using read)
  have lower : Readable v := .of_part (u := u ++ slash) (v := []) (s := s) (q := q) (by simpa using read)
  have numerator : Homing ("<table><tr><td>" ++ u ++ "</td></tr><tr><td>") := .wrap (by decide) upper (by decide)
  exact ⟨[], u ++ slash ++ v, _, rfl, by simp only [first, second]; rfl, numerator.wrap lower (by decide)⟩

/-- A part of a match between two tags. -/
theorem wrap_accepts {p : Pattern} {tag tag' : Text} {f : Match → Text} (passes : p.passes = true) (opening : Homing tag)
    (closing : Homing tag') (inside : ∀ b w r m, m.text = w → p.Takes b w r m.groups → f m <:+: w) {t : Text}
    (accepts : custody.Accepts t) : custody.Accepts (Rewrite.apply ⟨p, fun m => tag ++ f m ++ tag'⟩ t) := by
  refine rewrite_accepts (.of_passes passes) (fun b old rest m same takes ⟨s, q, read⟩ => ?_) accepts
  obtain ⟨u, v, rfl⟩ := inside b old rest m same takes
  exact ⟨[], _, _, rfl, rfl, opening.wrap (.of_part read) closing⟩

theorem shifted_accepts {sign : Char} {tag tag' : Text} (opening : Homing tag) (closing : Homing tag') {t : Text}
    (accepts : custody.Accepts t) :
    custody.Accepts (Rewrite.apply ⟨Maths.shifted (literal [sign]), fun m => tag ++ m.group 1 ++ tag'⟩ t) := by
  refine wrap_accepts rfl opening closing (fun b w rest m same takes => ?_) accepts
  obtain ⟨before, u, _, _, rfl, groups, hbefore, _, hu, rfl⟩ := takes
  obtain rfl := hbefore.groups_eq_nil rfl
  obtain rfl := hu.groups_eq_nil rfl
  have first : m.group 1 = u := Match.group_eq groups
  exact ⟨before, [], by simp [first]⟩

theorem tags_accept : ∀ r ∈ Maths.tagRewrites, ∀ t, custody.Accepts t → custody.Accepts (r.apply t) := by
  have homing : ∀ new ∈ (["<sup>", "</sup>", "<sub>", "</sub>", "&nbsp;", "<span class=\"high-symbol\">", "</span>",
      "<span class=\"radic\">&radic;</span><span class=\"sqrt\">"] : List Text), Homing new := by decide
  simp only [Maths.tagRewrites, List.forall_mem_cons]
  refine ⟨fun t => fraction_accepts, fun t => shifted_accepts (homing _ (by decide)) (homing _ (by decide)),
    fun t => shifted_accepts (homing _ (by decide)) (homing _ (by decide)), fun t => const_accepts rfl (homing _ (by decide)),
    fun t => wrap_accepts rfl (homing _ (by decide)) (homing _ (by decide)) fun _ _ _ _ same _ => same ▸ List.infix_rfl,
    fun t => wrap_accepts rfl (homing _ (by decide)) (homing _ (by decide)) fun b w rest m same takes => ?_, by simp⟩
  obtain ⟨_, close, _, _, rfl, groups, ⟨opening, u, _, _, rfl, rfl, hopening, _, ⟨-, -, rfl⟩, rfl⟩, hclose⟩ := takes
  obtain ⟨-, rfl⟩ := takes_literal.1 hopening
  obtain ⟨-, rfl⟩ := takes_literal.1 hclose
  have first : m.group 1 = u := Match.group_eq groups
  exact ⟨opening, close, by simp [first]⟩

theorem toHtml_accepts {t : Text} (accepts : source.Accepts t) : custody.Accepts (Maths.toHtml t) := by
  obtain ⟨a, z, trimmed, before, behind⟩ := Draft.exists_trim t
  have trim : source.Accepts t.trim := fits.accepts_inside (trimmed ▸ accepts) before behind
  have start : custody.Accepts t.trim := page_custody.accepts (source_page.accepts trim)
  exact applyAll_accepts tags_accept (applyAll_accepts symbols_accept (applyAll_accepts entities_accept
    (applyAll_accepts names_accept start)))

/-! ## Custody -/

theorem quoted_accepts {t : Text} (accepts : custody.Accepts t) : custody.Accepts (Span.quoted t) := by
  have entity : Homing "&quot;" := by decide
  have all : ∀ s, custody.Reads s t → custody.Reads s (Span.quoted t) := by
    clear accepts
    induction t with
    | nil => exact fun s reads => reads
    | cons c t ih =>
        intro s reads
        obtain ⟨q, step, later⟩ := Reader.reads_cons.1 reads
        rw [Span.quoted, List.flatMap_cons, ← Span.quoted]
        split
        · exact Reader.reads_append.2 ⟨0, entity s, ih 0 (custody_reads_home later)⟩
        · exact Reader.reads_cons.2 ⟨q, step, ih q later⟩
  exact all 0 accepts

theorem findKey_blind : Finder.Blind Warden.findKey := by
  intro b g word u c v t isGap split _
  rw [← Option.not_isSome_iff_eq_none, Option.isSome_iff_exists]
  rintro ⟨⟨key, n⟩, found⟩
  obtain ⟨x, r, rfl, begins, -⟩ := Warden.findKey_eq found
  obtain rfl : c = '?' := (List.cons.inj begins).1
  have markup := List.all_eq_true.1 isGap.all_markup '?' (by simp [split])
  cases markup

/-- What is put back for a key leads from the start back to it, as the key does. -/
theorem retrieve_run {w : Warden} {key : Text} (held : ∀ p ∈ w.wards, custody.Accepts p.2) (plain : custody.run 0 key = some 0) :
    custody.run 0 (w.retrieve key).text = some 0 ∧ ∀ p ∈ (w.retrieve key).warden.wards, custody.Accepts p.2 := by
  unfold Warden.retrieve
  split
  · rename_i data listed
    obtain ⟨before, after, wards, -⟩ := List.lookup_eq_some_iff.1 listed
    obtain ⟨q, read, calm⟩ := held (key, data) (by rw [wards]; simp)
    exact ⟨read.trans (congrArg some (calm_custody q calm)), fun p hp => held p (List.mem_of_mem_filter hp)⟩
  · exact ⟨plain, held⟩

/-- What is put back leaves the gaps of a text. -/
theorem reinstate_shows {t : Text} {words : List Text} (shown : custody.Shows 0 t words) {w : Warden}
    (held : ∀ p ∈ w.wards, custody.Accepts p.2) : custody.Shows 0 (w.reinstate t).text words := by
  have key_eq {b : Option Char} {w t key : Text} (found : Warden.findKey b (w ++ t) = some (key, w.length)) :
      key = w ∧ (∃ u, w = '?' :: u) ∧ '<' ∉ w := by
    obtain ⟨u, r, shape, split, length, chars⟩ := Warden.findKey_eq found
    obtain ⟨rfl, -⟩ := List.append_inj split length
    exact ⟨rfl, ⟨u, shape⟩, fun bracket => absurd (chars _ bracket) (by decide)⟩
  have mark : ∀ s q, custody.step s '?' = some q → s = 0 := by decide
  refine (Reader.Shows.along (A := custody) (motive := fun _ s t words ps => ∀ w : Warden,
    (∀ p ∈ w.wards, custody.Accepts p.2) → custody.Preserves s words t (w.recover ps).text) findKey_blind
    (fun _ _ _ _ found => (key_eq found).2.2) ?_ ?_ ?_ ?_ (Text.cutFrom_scan Warden.findKey_advances t none) shown w held).shows
  · exact fun b s calm w _ => .nil calm
  · exact fun b s q c t words ps step ih w held => .char step (ih w held)
  · intro b g t word words ps isGap bracket ih w held
    have passed : (w.recover (g.map .plain ++ ps)).text = g ++ (w.recover ps).text := by
      clear isGap
      induction g with
      | nil => rfl
      | cons c g ih => exact congrArg (c :: ·) ih
    rw [passed]
    exact .gap isGap bracket (ih w held)
  · intro b s q key t key' words ps _ found read later ih w held
    obtain ⟨rfl, ⟨u, rfl⟩, unbracketed⟩ := key_eq found
    obtain ⟨p, step, -⟩ := Option.bind_eq_some_iff.1 (Reader.run_cons (A := custody) ▸ read)
    obtain rfl := mark s p step
    have plain := custody_run unbracketed
    obtain rfl := Option.some.inj (plain.symm.trans read)
    obtain ⟨back, held⟩ := retrieve_run held plain
    exact ⟨.append back (ih 0 later _ held).shows, fun same => absurd (Option.some.inj same) (by decide)⟩

theorem custody_custody : page.Custody custody.Accepts where
  of_accepts _ accepts := page_custody.accepts accepts
  unbracketed _ plain := ⟨0, custody_run plain, by decide⟩
  append t u ht hu := by
    obtain ⟨q, read, calm⟩ := ht
    obtain rfl := calm_custody q calm
    exact Reader.reads_append.2 ⟨0, read, hu⟩
  quoted _ := quoted_accepts
  edges := by
    have all : ∀ t ∈ Span.edges, custody.run 0 t = some 0 := by decide
    exact fun t ht => ⟨0, all t ht, by decide⟩
  reinstate w t held accepts := (reinstate_shows (.of_reads accepts) held).reads rfl

theorem source_custody : source.FullCustody custody.Accepts where
  toCustody := { custody_custody with of_accepts := fun _ accepts => page_custody.accepts (source_page.accepts accepts) }
  maths _ := toHtml_accepts

/-! ## Blocks of MathML -/

/-- Of the tags that are left in a block none begins the word. -/
theorem sanitise_accepts (t : Text) : custody.Accepts (MathML.sanitise t) := by
  have opened : Opened ("semantics" ||| "annotation" ||| one (anyOf "m/")) (MathML.sanitise t) := .apply (by decide) _
  refine opened.accepts (by decide) (fun c other => stays rfl other) fun b w r gs takes _ => ?_
  rcases takes with (takes | takes) | ⟨c, sign, rfl, -⟩
  · obtain ⟨rfl, -⟩ := takes_literal.1 takes
    decide
  · obtain ⟨rfl, -⟩ := takes_literal.1 takes
    decide
  · have all : ∀ c ∈ ("m/" : Text), custody.run 0 ['<', c] = some 0 := by decide
    exact all c (List.contains_iff_mem.1 sign)

end Leading

end LessonText

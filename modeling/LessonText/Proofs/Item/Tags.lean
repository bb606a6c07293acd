import LessonText.Proofs.Item.Gapped

/-! # The tags of items

The rules for items write tags of a closed list. No item begins inside such a tag, but at its last bracket, which the rule
puts back. So in what the rules make of a text without tags every bracket begins one of the list.
-/

namespace LessonText.Item

open Pattern Unicode Rendering

/-- A value as it is hidden in an attribute. -/
def IsHidden (t : Text) : Prop := ∀ c ∈ t, Base64.isSextet c = true ∨ c = '='

theorem isHidden_encode (t : Text) : IsHidden (Attribute.encode t) := by
  obtain ⟨s, pads, coded, letters, -⟩ := Base64.encode_eq (Attribute.asciiBytes (Percent.encode t))
  intro c hc
  rw [Attribute.encode, coded, List.mem_append] at hc
  exact hc.imp (fun mem => (letters c mem).1) List.eq_of_mem_replicate

/-- The classes that an emoji may have. -/
def emojiMarks : List Text :=
  ["emoji", "emoji big", "emoji bigger", "emoji biggest", "emoji small", "emoji smaller", "emoji smallest"]

/-- What stands between the brackets of a tag that is written for an item. -/
inductive IsTag : Text → Prop where
  | gap {cls code : Text} : cls ∈ gapClasses → IsHidden code →
      IsTag ("span class=\"" ++ cls ++ "\" data-missing-word=\"" ++ code ++ "\"")
  | emoji {cls : Text} : cls ∈ emojiMarks → IsTag ("span class=\"" ++ cls ++ "\"")
  | error {code : Text} : IsHidden code → IsTag ("span data-error=\"" ++ code ++ "\"")
  | closing : IsTag "/span"

/-- What may stand in a tag: no bracket, no sign of a key and no newline, and behind a space the first letter of an attribute
    or of a class. -/
def inTag : Reader (Fin 2) where
  home := 0
  step s c := if s = 1 ∧ ¬ c ∈ ("abcds" : Text) ∨ c ∈ ("<>?\n\\" : Text) then none else some (if c = ' ' then 1 else 0)

theorem IsHidden.run {t : Text} (h : IsHidden t) : inTag.run 0 t = some 0 := by
  refine Reader.run_home (A := inTag) fun c hc => ?_
  have apart : ∀ d ∈ ' ' :: ("<>?\n\\" : Text), Base64.isSextet d = false ∧ d ≠ '=' := by decide
  have other : c ∉ ' ' :: ("<>?\n\\" : Text) := fun listed =>
    (h c hc).elim (fun letter => Bool.false_ne_true ((apart c listed).1.symm.trans letter)) (apart c listed).2
  rw [List.mem_cons, not_or] at other
  have stays : ¬ ((0 : Fin 2) = 1 ∧ ¬ c ∈ ("abcds" : Text) ∨ c ∈ ("<>?\n\\" : Text)) := fun refused =>
    refused.elim (fun behind => absurd behind.1 (by decide)) other.2
  exact (if_neg stays).trans (congrArg some (if_neg other.1))

namespace IsTag

variable {i u v t : Text} {c : Char}

/-- A tag is read to its last bracket. -/
theorem run (h : IsTag i) : inTag.run 0 i = some 0 := by
  have closed : inTag.run 0 "\"" = some 0 := by decide
  cases h with
  | gap listed hidden =>
      have opening : ∀ cls ∈ gapClasses, inTag.run 0 ("span class=\"" ++ cls ++ "\" data-missing-word=\"") = some 0 := by decide
      exact (Reader.run_append_of ((Reader.run_append_of (opening _ listed)).trans hidden.run)).trans closed
  | emoji listed =>
      have all : ∀ cls ∈ emojiMarks, inTag.run 0 ("span class=\"" ++ cls ++ "\"") = some 0 := by decide
      exact all _ listed
  | error hidden =>
      have opening : inTag.run 0 "span data-error=\"" = some 0 := by decide
      exact (Reader.run_append_of ((Reader.run_append_of opening).trans hidden.run)).trans closed
  | closing => decide

/-- What a tag holds, and what it holds behind a space. -/
theorem inside (h : IsTag i) (split : i = u ++ c :: v) :
    c ∉ ("<>?\n\\" : Text) ∧ (c = ' ' → ∃ d ∈ ("abcds" : Text), v.head? = some d) := by
  have read := h.run
  rw [split, Reader.run_append, Option.bind_eq_some_iff] at read
  obtain ⟨s, -, read⟩ := read
  rw [Reader.run_cons, Option.bind_eq_some_iff] at read
  obtain ⟨q, step, read⟩ := read
  constructor
  · intro sign
    rw [show inTag.step s c = none from if_pos (.inr sign)] at step
    cases step
  · rintro rfl
    have goes : ∀ s q, inTag.step s ' ' = some q → q = 1 := by decide
    obtain rfl := goes s q step
    cases v with
    | nil => cases read
    | cons d v =>
        refine ⟨d, ?_, rfl⟩
        by_contra other
        rw [Reader.run_cons, show inTag.step 1 d = none from if_pos (.inl ⟨rfl, other⟩)] at read
        cases read

theorem not_mem (h : IsTag i) : '<' ∉ i := by
  intro mem
  obtain ⟨u, v, split⟩ := List.append_of_mem mem
  exact (h.inside split).1 (by decide)

end IsTag

/-! ## Texts of characters and tags -/

/-- Characters and tags, one after another. The last bracket of a tag is a character of its own. -/
inductive Strung : Text → Prop where
  | nil : Strung []
  | char {c t} : c ≠ '<' → Strung t → Strung (c :: t)
  | tag {i t} : IsTag i → t.head? = some '>' → Strung t → Strung ('<' :: (i ++ t))

namespace Strung

variable {i t u : Text}

theorem of_not_mem (plain : '<' ∉ t) : Strung t := by
  induction t with
  | nil => exact .nil
  | cons c t ih =>
      rw [List.mem_cons, not_or] at plain
      exact .char (Ne.symm plain.1) (ih plain.2)

theorem append (ht : Strung t) (hu : Strung u) : Strung (t ++ u) := by
  induction ht with
  | nil => exact hu
  | char plain _ ih => exact .char plain ih
  | @tag i t isTag bracket _ ih =>
      obtain ⟨t, rfl⟩ := List.head?_eq_some_iff.1 bracket
      rw [List.cons_append, List.append_assoc]
      exact .tag isTag rfl ih

theorem of_tag (h : IsTag i) : Strung ("<" ++ i ++ ">") := .tag h rfl (.of_not_mem (by decide))

theorem behind (plain : '<' ∉ u) (h : Strung (u ++ t)) : Strung t := by
  induction u with
  | nil => exact h
  | cons c u ih =>
      rw [List.mem_cons, not_or] at plain
      generalize split : c :: u ++ t = x at h
      cases h with
      | nil => cases split
      | char _ later =>
          obtain ⟨rfl, rfl⟩ := List.cons.inj split
          exact ih plain.2 later
      | tag => exact absurd (List.cons.inj split).1.symm plain.1

/-- Every bracket begins a tag. -/
theorem listed (h : Strung t) : ∀ a b, t = a ++ '<' :: b → ∃ i rest, IsTag i ∧ b = i ++ '>' :: rest := by
  induction h with
  | nil => exact fun a b split => absurd split (by simp)
  | char plain _ ih =>
      intro a b split
      cases a with
      | nil => exact absurd (List.cons.inj split).1 plain
      | cons c a => exact ih a b (List.cons.inj split).2
  | @tag i t isTag bracket _ ih =>
      intro a b split
      cases a with
      | nil =>
          obtain ⟨t, rfl⟩ := List.head?_eq_some_iff.1 bracket
          exact ⟨i, t, isTag, (List.cons.inj split).2.symm⟩
      | cons c a =>
          rcases List.append_eq_append_iff.1 (List.cons.inj split).2 with ⟨x, rfl, behind⟩ | ⟨x, inside, behind⟩
          · exact ih x b behind
          · cases x with
            | nil => exact ih [] b behind.symm
            | cons d x =>
                obtain ⟨rfl, -⟩ := List.cons.inj behind
                exact absurd (by rw [inside]; simp) isTag.not_mem

end Strung

/-! ## Rules for items -/

/-- Nothing that a rule looks for begins inside a tag, but at its last bracket. -/
def Blind (p : Pattern) : Prop := ∀ b i u c v t, IsTag i → '<' :: i = u ++ c :: v → t.head? = some '>' →
  p.Misses (u.getLast?.or b) (c :: (v ++ t))

/-- A rule that finds no bracket and writes characters and tags, and puts a last bracket back, leaves a text of them. -/
theorem Strung.apply {r : Rule} (advances : r.pattern.Advances) (blind : Blind r.pattern)
    (found : ∀ bound b w t m, r.pattern.matchAt bound 0 b (w ++ t) = some (m, w.length) → '<' ∉ w ∧
      ∀ s, Strung (r.replace m s).1 ∧ (w.head? = some '>' → (r.replace m s).1.head? = some '>'))
    {t : Text} (h : Strung t) (s : Session) : Strung (r.apply t s).1 := by
  have all {bound : ℕ} (n : ℕ) : ∀ {b t ps} s, t.length = n → Scan (r.pattern.matchAt bound 0) b t ps → Strung t →
      Strung (Piece.assembleM r.replace ps s).1 ∧
        (t.head? = some '>' → (Piece.assembleM r.replace ps s).1.head? = some '>') := by
    -- on the length: a match may end anywhere among the characters, but in no tag
    induction n using Nat.strong_induction_on with
    | _ n ih =>
        intro b t ps s length scan h
        subst length
        cases h with
        | nil =>
            generalize split : ([] : Text) = x at scan
            cases scan with
            | nil => exact ⟨.nil, nofun⟩
            | plain => cases split
            | found full => exact absurd (List.append_eq_nil_iff.1 split.symm).1 full
        | @tag i t isTag bracket rest =>
            obtain ⟨ps', rfl, later⟩ := Scan.behind (w := '<' :: i)
              (fun u c v split => (blind b i u c v t isTag split bracket).matchAt) scan
            obtain ⟨kept, last⟩ := ih t.length (by simp only [List.length_append, List.length_cons]; omega) s rfl later rest
            rw [Piece.assembleM_plain]
            exact ⟨.tag isTag (last bracket) kept, nofun⟩
        | @char c t plain rest =>
            generalize split : c :: t = x at scan
            cases scan with
            | nil => cases split
            | plain _ later =>
                obtain ⟨rfl, rfl⟩ := List.cons.inj split
                exact ⟨.char plain (ih t.length (by simp) s rfl later rest).1, id⟩
            | @found _ w t' m ps full matched later =>
                obtain ⟨unbracketed, writes⟩ := found _ _ _ _ _ matched
                have behind : Strung t' := .behind unbracketed (split ▸ .char plain rest)
                have shorter : t'.length < (c :: t).length := by
                  have := List.length_pos_iff.2 full
                  rw [split, List.length_append]
                  omega
                obtain ⟨written, last⟩ := writes s
                refine ⟨written.append (ih t'.length shorter (r.replace m s).2 rfl later behind).1, fun first => ?_⟩
                rw [List.head?_append_of_ne_nil _ full] at first
                obtain ⟨u, same⟩ := List.head?_eq_some_iff.1 (last first)
                exact congrArg List.head? (congrArg (· ++ _) same)
  exact (all t.length s rfl (pieces_scan advances t) h).1

variable {mark : Pattern} {f : Char → Bool}

/-- A mark that begins with none of the letters that stand behind a space of a tag begins no item there. -/
theorem Apart.blind_tags (h : Apart mark f) (more : ∀ c ∈ ("bs" : Text), f c = false) : Blind (pattern mark) := by
  intro b i u c v t isTag split bracket
  have other : ∀ d ∈ ("abcds" : Text), f d = false := by
    have known : ∀ d ∈ ("abcds" : Text), d ∈ (" >cad<" : Text) ++ ("bs" : Text) := by decide
    exact fun d hd => (List.mem_append.1 (known d hd)).elim (h.other d) (more d)
  cases u with
  | nil =>
      obtain ⟨rfl, rfl⟩ := List.cons.inj split
      exact pattern_misses h.begins (h.other _ (by decide)) (by decide) fun sign => absurd sign (by decide)
  | cons a u =>
      obtain ⟨rfl, whole⟩ := List.cons.inj split
      obtain ⟨plain, spaced⟩ := isTag.inside whole
      have signs : ∀ d ∈ ("\n>?" : Text), d ∈ ("<>?\n\\" : Text) := by decide
      by_cases space : c = ' '
      · obtain ⟨d, listed, first⟩ := spaced space
        obtain ⟨v, rfl⟩ := List.head?_eq_some_iff.1 first
        subst space
        refine pattern_misses h.begins (h.other _ (by decide)) (by decide) fun _ e same => ?_
        obtain rfl : d = e := Option.some.inj same
        exact other d listed
      · have line : (('<' :: u).getLast?.or b).all (· == '\n') = false := by
          rw [List.getLast?_cons, Option.some_or]
          cases last : u.getLast? with
          | none => rfl
          | some d =>
              obtain ⟨x, rfl⟩ := List.getLast?_eq_some_iff.1 last
              refine beq_eq_false_iff_ne.2 ?_
              rintro rfl
              exact (isTag.inside (u := x) (c := '\n') (v := c :: v) (by simpa using whole)).1 (by decide)
        have passes : (pattern mark).Passes (('<' :: u).getLast?.or b) [c] (v ++ t) := pattern_passes line fun d hd => by
          obtain rfl := List.mem_singleton.1 hd
          intro sign
          have cases : d = ' ' ∨ d ∈ ("\n>?" : Text) := by
            revert sign
            simp [or_comm, or_left_comm]
          exact cases.elim space fun sign => plain (signs d sign)
        exact passes.misses

/-- A rule for items that writes characters and tags behind what stands before the mark. -/
theorem Strung.items {r : Rule} (h : Apart mark f) (more : ∀ c ∈ ("bs" : Text), f c = false) (same : r.pattern = pattern mark)
    (writes : ∀ m s, '<' ∉ m.group 2 → ∃ u, (r.replace m s).1 = m.group 1 ++ u ∧ Strung u) {t : Text} (ht : Strung t)
    (s : Session) : Strung (r.apply t s).1 := by
  refine ht.apply (same ▸ h.advances) (same ▸ h.blind_tags more) (fun bound b w t m matched => ?_) s
  rw [same] at matched
  obtain ⟨rfl, unbracketed⟩ := h.found matched
  obtain ⟨x, v, w, z, rest, parts⟩ := matchAt_parts h.plain matched
  refine ⟨unbracketed, fun s => ?_⟩
  rw [parts.text_eq] at unbracketed ⊢
  obtain ⟨u, written, strung⟩ := writes m s (by rw [parts.word]; simp_all)
  rw [written, parts.first]
  refine ⟨(Strung.of_not_mem (by simp_all)).append strung, fun first => ?_⟩
  cases x with
  | nil =>
      obtain ⟨_, _, marked⟩ := parts.mark
      obtain ⟨d, v, rfl, begins⟩ := h.begins _ _ _ _ marked
      obtain rfl : d = '>' := Option.some.inj first
      rw [h.other '>' (by decide)] at begins
      cases begins
  | cons d x => exact first

theorem escapedBracket_strung {t : Text} (ht : Strung t) (s : Session) : Strung (escapedBracket.apply t s).1 := by
  refine ht.apply (.of_passes rfl) ?_ (fun bound b w t m matched => ?_) s
  · intro b i u c v t isTag split bracket
    refine misses_literal ?_
    rintro ⟨rest, begins⟩
    obtain ⟨rfl, -⟩ : '\\' = c ∧ _ := List.cons.inj begins
    cases u with
    | nil => cases split
    | cons a u => exact (isTag.inside (List.cons.inj split).2).1 (by decide)
  · obtain ⟨rfl, takes⟩ := matchAt_found matched
    obtain ⟨same, -⟩ := takes_literal.1 takes
    rw [same]
    exact ⟨by decide, fun s => ⟨.of_not_mem (t := "&gt;") (by decide), fun first => absurd first (by decide)⟩⟩

/-! ## What is written -/

theorem closing_strung : Strung "</span>" := Strung.of_tag IsTag.closing

theorem error_strung (message : Text) {t : Text} (plain : '<' ∉ t) :
    Strung ("<span " ++ Attribute.hiddenError message ++ ">" ++ t ++ "</span>") := by
  have opening := Strung.of_tag (.error (isHidden_encode message))
  have all := (opening.append (.of_not_mem plain)).append closing_strung
  have text : "<span " ++ Attribute.hiddenError message ++ ">" ++ t ++ "</span>" =
      "<" ++ ("span data-error=\"" ++ Attribute.encode message ++ "\"") ++ ">" ++ t ++ "</span>" := by
    have lead : ("<span " : Text) ++ "data-error=\"" = "<" ++ "span data-error=\"" := rfl
    unfold Attribute.hiddenError
    simp only [← List.append_assoc, lead]
  rwa [text]

theorem emoji_shown_strung (definition : Text) : Strung (Emoji.shown definition) := by
  unfold Emoji.shown
  split
  · exact .of_not_mem (by decide)
  · cases found : Emoji.lookup? (upperText definition) with
    | none =>
        have text : Emoji.unknown definition =
            "<span " ++ Attribute.hiddenError ("Cannot find emoji " ++ definition) ++ ">" ++ "&#x2754;" ++ "</span>" := by
          rw [List.append_assoc _ ("&#x2754;" : Text), List.append_assoc _ (">" : Text)]
          rfl
        rw [Option.getD_none, text]
        exact error_strung _ (by decide)
    | some u =>
        refine .of_not_mem fun bracket => ?_
        exact absurd (List.all_eq_true.1 (Emoji.all_lookup? found) '<' bracket) (by decide)

theorem emoji_class (requested : Text) : classes "emoji" (safeClass requested) ∈ emojiMarks := by
  have all : ∀ cls ∈ emojiClasses, classes "emoji" cls ∈ emojiMarks := by decide
  unfold safeClass
  dsimp only
  split
  · rename_i listed
    exact all _ (List.contains_iff_mem.1 listed)
  · exact List.mem_cons_self

variable {t : Text}

theorem gap_strung (ht : Strung t) (s : Session) : Strung (gap.apply t s).1 := by
  refine ht.items apart_dots (by decide) rfl (fun m s _ => ?_) s
  rw [gap_writes]
  refine ⟨_, rfl, ?_⟩
  obtain ⟨cls, listed, markup⟩ := isGap_gapTags m
  have all := (Strung.of_tag (.gap listed (isHidden_encode (m.group 2)))).append closing_strung
  have text : '<' :: (gapTags m ++ ">") =
      "<" ++ ("span class=\"" ++ cls ++ "\" data-missing-word=\"" ++ Attribute.encode (m.group 2) ++ "\"") ++ ">" ++
        "</span>" := by
    have lead : ("<span class=\"" : Text) = "<" ++ "span class=\"" := rfl
    have tail : ("\"></span" : Text) ++ ">" = "\"" ++ (">" ++ "</span>") := rfl
    rw [← List.cons_append, markup]
    unfold gapMarkup
    simp only [List.append_assoc, lead, tail]
  rwa [text]

theorem emoji_strung (ht : Strung t) (s : Session) : Strung (emoji.apply t s).1 := by
  refine ht.items apart_emoji (by decide) rfl (fun m s _ => ?_) s
  have all := ((Strung.of_tag (.emoji (emoji_class (m.group 3)))).append (emoji_shown_strung (m.group 2))).append closing_strung
  rw [emoji_writes, Emoji.render_eq]
  refine ⟨_, by split <;> rfl, ?_⟩
  have text : '<' :: (emojiTag m ++ Emoji.shown (m.group 2) ++ "</span" ++ ">") =
      "<" ++ ("span class=\"" ++ classes "emoji" (safeClass (m.group 3)) ++ "\"") ++ ">" ++ Emoji.shown (m.group 2) ++
        "</span>" := by
    have lead (t : Text) : '<' :: t = "<" ++ t := rfl
    have bracket : ("\">" : Text) = "\"" ++ ">" := rfl
    have tail : ("</span" : Text) ++ ">" = "</span>" := rfl
    unfold emojiTag
    rw [lead, bracket]
    simp only [List.append_assoc, tail]
  rwa [text]

theorem value_strung {metadata : Metadata} (plain : metadata.Unbracketed) (ht : Strung t) (s : Session) :
    Strung ((value metadata).apply t s).1 := by
  refine ht.items apart_meta (by decide) rfl (fun m s inside => ?_) s
  rw [value_writes]
  refine ⟨_, rfl, ?_⟩
  unfold shownValue
  extract_lets found
  have unbracketed : '<' ∉ found := by
    change '<' ∉ if _ then _ else _
    split
    · exact List.not_mem_nil
    · cases known : metadata.get? (m.group 2) with
      | none => exact List.not_mem_nil
      | some text => exact plain _ (mem_of_lookup known)
  split
  · exact error_strung _ inside
  · exact .of_not_mem unbracketed

theorem rules_strung {metadata : Metadata} (plain : metadata.Unbracketed) (ht : Strung t) (s : Session) :
    Strung (Rule.applyAll (rules metadata) t s).1 := by
  unfold Rule.applyAll
  split
  · exact ht
  · have each : ∀ r ∈ rules metadata, ∀ t, Strung t → Ensures (fun _ => True) (r.apply t) Strung := by
      simp only [rules, List.forall_mem_cons]
      exact ⟨fun _ h s _ => ⟨trivial, escapedBracket_strung h s⟩, fun _ h s _ => ⟨trivial, gap_strung h s⟩,
        fun _ h s _ => ⟨trivial, emoji_strung h s⟩, fun _ h s _ => ⟨trivial, value_strung plain h s⟩, by simp⟩
    exact (Ensures.foldlM each ht s trivial).2

/-- In what the rules for items make of a text without brackets every bracket begins one whole tag of the list, whatever the
    metadata holds and the words, names, keys and classes of the items are. -/
theorem tags_listed (header t : Text) (plain : '<' ∉ t) (s : Session) (a b : Text)
    (split : (Rule.applyAll (rules (Metadata.ofHeader header)) t s).1 = a ++ '<' :: b) :
    ∃ tag rest, IsTag tag ∧ b = tag ++ '>' :: rest :=
  (rules_strung (Metadata.unbracketed header) (.of_not_mem plain) s).listed a b split

/-- A gap with a class, a key that the metadata lacks and a value with a bracket. -/
theorem tags_listed_missing :
    (Rule.applyAll (rules (Metadata.ofHeader "k: <b>")) "...x>row meta:y meta:k" {}).1 =
        ("<span class=\"missing-word align-row\" data-missing-word=\"eA==\"></span> " : Text) ++
          '<' :: "span data-error=\"Q2Fubm90JTIwZmluZCUyMG1ldGFkYXRhJTIweQ==\">y</span> &lt;b>" ∧
      ∃ tag rest, IsTag tag ∧
        ("span data-error=\"Q2Fubm90JTIwZmluZCUyMG1ldGFkYXRhJTIweQ==\">y</span> &lt;b>" : Text) = tag ++ '>' :: rest := by
  have written : (Rule.applyAll (rules (Metadata.ofHeader "k: <b>")) "...x>row meta:y meta:k" {}).1 =
      ("<span class=\"missing-word align-row\" data-missing-word=\"eA==\"></span> " : Text) ++
        '<' :: "span data-error=\"Q2Fubm90JTIwZmluZCUyMG1ldGFkYXRhJTIweQ==\">y</span> &lt;b>" := by decide +kernel
  exact ⟨written, tags_listed "k: <b>" "...x>row meta:y meta:k" (by decide) {} _ _ written⟩

end LessonText.Item

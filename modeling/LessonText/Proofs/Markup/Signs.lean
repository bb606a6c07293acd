import LessonText.Proofs.Item.Reading
import LessonText.Proofs.Markup.Linewise
import LessonText.Proofs.Text.Entities

/-! # Signs that an author escapes

A backslash before every sign of the markup switches it off: each sign becomes an entity, no rule for spans finds anything among
entities, and what is shown is read as the text again.
-/

namespace LessonText

open Pattern Unicode Entity

/-! ## Lines of a text -/

namespace Text

variable {f : Char → Text} {t line before behind : Text}

theorem flatMap_join (newline : f '\n' = ['\n']) (lines : List Text) :
    (join "\n" lines).flatMap f = join "\n" (lines.map (·.flatMap f)) := by
  induction lines with
  | nil => rfl
  | cons l lines ih =>
      cases lines with
      | nil => rfl
      | cons m lines =>
          rw [join_cons_cons, List.flatMap_append, List.flatMap_append, ih]
          simp [join_cons_cons, newline]

/-- The lines of a text of which each character is written by itself, a newline as it is. -/
theorem splitOn_flatMap (newline : f '\n' = ['\n']) (other : ∀ c, c ≠ '\n' → '\n' ∉ f c) (t : Text) :
    (t.flatMap f).splitOn '\n' = (t.splitOn '\n').map (·.flatMap f) := by
  have single : ∀ l ∈ (t.splitOn '\n').map (·.flatMap f), '\n' ∉ l := by
    refine List.forall_mem_map.2 fun l hl mem => ?_
    obtain ⟨c, hc, inside⟩ := List.mem_flatMap.1 mem
    exact other c (ne_of_mem_of_not_mem hc (single_of_mem_splitOn t l hl)) inside
  have full : (t.splitOn '\n').map (·.flatMap f) ≠ [] := by simp
  have joined : t.flatMap f = List.intercalate ['\n'] ((t.splitOn '\n').map (·.flatMap f)) := by
    conv_lhs => rw [← join_splitOn t, flatMap_join newline]
    exact join_eq_intercalate _ _
  rw [joined, List.splitOn_intercalate _ single full]

/-- What stands between newlines or the ends of a text is a line of it. -/
theorem mem_splitOn (start : before.getLast?.all (· == '\n') = true) (single : '\n' ∉ line)
    (stop : behind.head?.all (· == '\n') = true) : line ∈ (before ++ (line ++ behind)).splitOn '\n' := by
  have first : line ∈ (line ++ behind).splitOn '\n' := by
    cases behind with
    | nil => simp [List.splitOn_eq_singleton single]
    | cons c behind =>
        obtain rfl : c = '\n' := by simpa using stop
        simp [List.splitOn_append_cons_self, List.splitOn_eq_singleton single]
  cases before using List.reverseRecOn with
  | nil => exact first
  | append_singleton before c =>
      obtain rfl : c = '\n' := by simpa using start
      rw [List.append_assoc, List.singleton_append, List.splitOn_append_cons_self]
      exact List.mem_append_right _ first

end Text

namespace Markup

variable {t : Text} {c : Char}

/-- Each line of a text has something else than white space in it. -/
def Filled (t : Text) : Prop := ∀ line ∈ t.splitOn '\n', ∃ c ∈ line, isSpace c = false

instance (t : Text) : Decidable (Filled t) :=
  decidable_of_iff ((t.splitOn '\n').all (·.any fun c => !isSpace c) = true) (by simp [Filled])

/-- Where each line has something in it no blank line is found. -/
theorem Filled.blankLines_passes (filled : Filled t) : blankLines.pattern.Passes none t [] := by
  rintro u v rfl - w r gs split takes
  obtain ⟨start, -, spaces, stop⟩ := blankLines_takes takes
  rw [Option.or_none] at start
  rw [List.append_nil] at split
  -- What is found reaches at least to the end of its first line.
  obtain ⟨line, behind, whole, single, stop', blank⟩ : ∃ line behind, w ++ r = line ++ behind ∧ '\n' ∉ line ∧
      behind.head?.all (· == '\n') = true ∧ ∀ c ∈ line, isSpace c = true := by
    refine ⟨w.takeWhile (· != '\n'), w.dropWhile (· != '\n') ++ r, ?_, fun mem => ?_, ?_, fun c hc => ?_⟩
    · rw [← List.append_assoc, List.takeWhile_append_dropWhile]
    · exact absurd (List.mem_takeWhile_imp mem) (by decide)
    · cases rest : w.dropWhile (· != '\n') with
      | nil => exact stop
      | cons d rest' =>
          have newline := List.head?_dropWhile_not (· != '\n') w
          rw [rest] at newline
          simpa using newline
    · exact spaces c ((List.takeWhile_sublist _).subset hc)
  obtain ⟨c, hc, solid⟩ := filled line (by rw [split, whole]; exact Text.mem_splitOn start single stop')
  rw [blank c hc] at solid
  cases solid

theorem Filled.cleanUp_eq (filled : Filled t) (bracket : '<' ∉ t) : cleanUp t = t :=
  cleanUp_of_passes filled.blankLines_passes (.of_not_mem bracket)

theorem Filled.ne_nil (filled : Filled t) : t ≠ [] := by
  rintro rfl
  obtain ⟨c, mem, -⟩ := filled [] (by simp)
  cases mem

/-! ## Escaped signs -/

/-- The signs of the markup. -/
def signs : Text := "\\\x60*_\x7b\x7d[]()#+-.!"

def isSign (c : Char) : Bool := signs.contains c

/-- A text with a backslash before each sign. -/
def escaped (t : Text) : Text := t.flatMap fun c => if isSign c then ['\\', c] else [c]

theorem mem_escaped (h : c ∈ escaped t) : c ∈ t ∨ c = '\\' := by
  obtain ⟨d, hd, inside⟩ := List.mem_flatMap.1 h
  split at inside
  · rcases List.mem_cons.1 inside with rfl | inside
    · exact .inr rfl
    · exact .inl (List.mem_singleton.1 inside ▸ hd)
  · exact .inl (List.mem_singleton.1 inside ▸ hd)

/-- A backslash and the sign behind it become an entity, and what has no backslash stays. -/
theorem escapedSign_writes (t : Text) : ∀ b, escapedSign.Writes b (escaped t) [] (encodeWhere isSign t) := by
  have advances : escapedSign.pattern.Advances := .of_passes rfl
  induction t with
  | nil => exact fun b => .nil
  | cons c t ih =>
      intro b
      rw [escaped, List.flatMap_cons]
      cases sign : isSign c with
      | true =>
          have reads : escapedSign.pattern.Reads b ['\\', c] (escaped t ++ []) [(1, [c])] :=
            (Reads.literal "\\").append (v := [c]) (.group (.one sign))
          have first : escapedSign.Writes b ['\\', c] (escaped t ++ []) (encode [c]) := .becomes (List.cons_ne_nil _ _) reads
          rw [encodeWhere_cons_pos sign, show encodeChar c = encode [c] from (List.append_nil _).symm]
          exact first.append (ih _)
      | false =>
          have other : '\\' ∉ [c] := by
            rw [List.mem_singleton]
            rintro rfl
            cases sign
          have first : escapedSign.Writes b [c] (escaped t ++ []) [c] :=
            .stays (.of_sign advances (by simp [escapedSign]) other)
          rw [encodeWhere_cons_neg sign]
          exact first.append (ih _)

end Markup

/-! ## Rules among entities -/

namespace Span

variable {r : Rule} {t : Text}

/-- A rule for spans finds nothing at the ampersand of an entity. -/
theorem rules_miss_entity (known : r ∈ rules) (b : Option Char) (t : Text) : r.pattern.Misses b ('&' :: '#' :: t) := by
  -- An address may stand behind the entity of a bracket, which has a name.
  have bracket {p q : Pattern} : ((openBracket ++ p) ++ q).Misses b ('&' :: '#' :: t) := by
    rintro w r gs split ⟨_, _, _, _, rfl, -, ⟨_, _, _, _, rfl, -, opens, -⟩, -⟩
    rcases (openBracket_takes opens).1 with rfl | rfl <;> cases split
  rw [Kind.rules_eq] at known
  rcases List.mem_cons.1 known with rfl | listed
  · exact .of_begin (.of_passes rfl) rfl
  · obtain ⟨k, -, rfl⟩ := List.mem_map.1 listed
    cases k with
    | web | mail => exact bracket
    | image | link | code => exact Kind.misses_of_starts (by decide)
    | emphasis sign _ _ => exact Kind.misses_of_starts (by cases sign <;> simp [Kind.starts, Sign.char])

/-- No rule for spans finds anything in a text with entities for its signs. -/
theorem rules_pass_entities (known : r ∈ rules) (bracket : '<' ∉ t) (ampersand : '&' ∉ t) :
    ∀ b, r.pattern.Passes b (encodeWhere Markup.isSign t) [] := by
  have advances := rules_advance known
  have passes {w u : Text} {b : Option Char} (plain : ∀ c ∈ w, c ∉ leadSigns) : r.pattern.Passes b w u :=
    .of_signs advances (fun _ => mem_leadSigns known) plain
  induction t with
  | nil => exact fun b => .nil
  | cons c t ih =>
      intro b
      rw [List.mem_cons, not_or] at bracket ampersand
      have later := ih bracket.2 ampersand.2
      cases sign : Markup.isSign c with
      | true =>
          have plain : ∀ d ∈ '#' :: (Text.decimal c.toNat ++ ";"), d ∉ leadSigns := by
            have none : ∀ d ∈ leadSigns, d ≠ '#' ∧ d.isDigit = false ∧ d ≠ ';' := by decide
            intro d hd lead
            obtain ⟨hash, digit, semicolon⟩ := none d lead
            rcases List.mem_cons.1 hd with same | hd
            · exact hash same
            · rcases List.mem_append.1 hd with hd | hd
              · rw [isDigit_of_mem_decimal hd] at digit
                cases digit
              · exact semicolon (List.mem_singleton.1 hd)
          have entity : encodeChar c = '&' :: '#' :: (Text.decimal c.toNat ++ ";") := rfl
          rw [encodeWhere_cons_pos sign, entity]
          exact Passes.append (.cons (rules_miss_entity known b _) (passes plain)) (later _)
      | false =>
          have lead : ∀ d ∈ leadSigns, d = '&' ∨ d = '<' ∨ Markup.isSign d = true := by decide
          have plain : ∀ d ∈ [c], d ∉ leadSigns := by
            refine List.forall_mem_singleton.2 fun mem => ?_
            rcases lead c mem with same | same | listed
            · exact ampersand.1 same.symm
            · exact bracket.1 same.symm
            · rw [sign] at listed
              cases listed
          rw [encodeWhere_cons_neg sign]
          exact Passes.append (passes plain) (later _)

end Span

/-! ## Escaped texts -/

namespace Markup

variable {t : Text}

/-- Entities leave something in each line. -/
theorem Filled.encodeWhere {p : Char → Bool} (newline : p '\n' = false) (filled : Filled t) : Filled (encodeWhere p t) := by
  have kept : (if p '\n' then encodeChar '\n' else ['\n']) = ['\n'] := by rw [newline]; rfl
  have other : ∀ c, c ≠ '\n' → '\n' ∉ if p c then encodeChar c else [c] := by
    intro c other
    split
    · intro mem
      rcases mem_encodeWhere (p := fun _ => true) (t := [c]) (by simpa [Entity.encodeWhere] using mem) with h | h | h
      · exact other (List.mem_singleton.1 h).symm
      · exact absurd h (by decide)
      · cases h
    · simpa using Ne.symm other
  rw [Filled, Entity.encodeWhere, Text.splitOn_flatMap kept other]
  refine List.forall_mem_map.2 fun line mem => ?_
  obtain ⟨c, hc, solid⟩ := filled line mem
  by_cases written : p c = true
  · exact ⟨'&', List.mem_flatMap.2 ⟨c, hc, by rw [if_pos written]; exact List.mem_cons_self⟩, rfl⟩
  · exact ⟨c, List.mem_flatMap.2 ⟨c, hc, by rw [if_neg written]; exact List.mem_singleton.2 rfl⟩, solid⟩

/-- With a backslash before every sign a text is rendered as it is, its signs as entities, and is read again from them. -/
theorem spans_escaped (none : ∀ e ∈ ("\r\x00<&" : Text), e ∉ t) (filled : Filled t) :
    spans (escaped t) = encodeWhere isSign t ∧ Entity.decode (spans (escaped t)) = .ok t := by
  have ampersand : '&' ∉ t := none '&' (by decide)
  have bracket : '<' ∉ t := none '<' (by decide)
  have lacks : ∀ e ∈ ("\r\x00<&" : Text), e ∉ escaped t := by
    have other : ∀ e ∈ ("\r\x00<&" : Text), e ≠ '\\' := by decide
    exact fun e he mem => (mem_escaped mem).elim (none e he) (other e he)
  have opened : opening (escaped t) = pure (encodeWhere isSign t) := by
    rw [Span.opening_plain lacks, (escapedSign_writes t Option.none).apply (.of_passes rfl)]
  have filled' : Filled (encodeWhere isSign t) := filled.encodeWhere rfl
  have unopened : '<' ∉ encodeWhere isSign t := by
    intro mem
    rcases mem_encodeWhere mem with h | h | h
    · exact bracket h
    · exact absurd h (by decide)
    · cases h
  have rules : Span.rules.foldlM (fun t r => r.apply t) (encodeWhere isSign t) = pure (encodeWhere isSign t) :=
    Rule.foldlM_pure fun r known =>
      Rule.apply_of_passes (Span.rules_advance known) (Span.rules_pass_entities known bracket ampersand Option.none)
  have closed : closing .spans [] (encodeWhere isSign t) = pure (encodeWhere isSign t) := by
    rw [closing_eq .spans filled'.ne_nil, show Extent.spans.rules = Span.rules from rfl, rules, map_pure,
      filled'.cleanUp_eq unopened]
  have full : escaped t ≠ [] := by
    obtain ⟨c, t, rfl⟩ := List.exists_cons_of_ne_nil filled.ne_nil
    rw [escaped, List.flatMap_cons]
    split <;> simp
  have shown : spans (escaped t) = encodeWhere isSign t := by
    rw [spans, run, render_eq full, opened, pure_bind, closed, pure_bind]
    exact Warden.reinstate_empty rfl _
  exact ⟨shown, shown ▸ decode_encodeWhere (.inr ampersand)⟩

/-- Signs of emphasis, a backslash, a link, something like a key, and a bullet. -/
theorem spans_escaped_signs :
    let t : Text := "*a* \\_ [b](http://c) ???0d???\n- e"
    (∀ e ∈ ("\r\x00<&" : Text), e ∉ t) ∧ Filled t ∧
      spans "\\*a\\* \\\\\\_ \\[b\\]\\(http://c\\) ???0d???\n\\- e" =
        "&#42;a&#42; &#92;&#95; &#91;b&#93;&#40;http://c&#41; ???0d???\n&#45; e" ∧
      Entity.decode "&#42;a&#42; &#92;&#95; &#91;b&#93;&#40;http://c&#41; ???0d???\n&#45; e" = .ok t := by
  intro t
  have none : ∀ e ∈ ("\r\x00<&" : Text), e ∉ t := by decide
  have filled : Filled t := by decide
  obtain ⟨shown, read⟩ := spans_escaped none filled
  rw [shown] at read
  exact ⟨none, filled, shown, read⟩

end Markup

end LessonText

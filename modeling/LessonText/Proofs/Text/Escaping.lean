import LessonText.Proofs.Markup.Passes
import LessonText.Text.Escape

/-! # Escaped text

Escaping for a page is a projection: it makes a text in which no tag can begin and every ampersand begins an entity, and leaves
such a text alone.
-/

namespace LessonText.Escape

open Unicode

/-- The rest of an entity at the start of a text: word characters or number signs, and a semicolon. -/
def EndsEntity (t : Text) : Prop :=
  ∃ name rest, t = name ++ ';' :: rest ∧ name ≠ [] ∧ ∀ c ∈ name, isWord c = true ∨ c = '#'

/-- A text that is shown as it is. -/
structure Safe (t : Text) : Prop where
  noNull : '\x00' ∉ t
  noBracket : '<' ∉ t
  entities : ∀ rest, '&' :: rest <:+ t → EndsEntity rest

variable {t u name : Text} {c : Char}

theorem isEntityChar_iff : isEntityChar c = true ↔ isWord c = true ∨ c = '#' := by
  rw [isEntityChar, Bool.or_eq_true, beq_iff_eq]

theorem beginsEntity_iff : beginsEntity t = true ↔ EndsEntity t := by
  constructor
  · intro begins
    obtain ⟨full, ends⟩ := Bool.and_eq_true_iff.1 begins
    obtain ⟨rest, behind⟩ : ∃ rest, t.dropWhile isEntityChar = ';' :: rest := by
      cases behind : t.dropWhile isEntityChar with
      | nil => rw [behind] at ends; cases ends
      | cons c rest =>
          rw [behind] at ends
          exact ⟨rest, by rw [show c = ';' by simpa using ends]⟩
    refine ⟨t.takeWhile isEntityChar, rest, ?_, by simpa using full, fun c hc => isEntityChar_iff.1 (List.mem_takeWhile_imp hc)⟩
    rw [← behind, List.takeWhile_append_dropWhile]
  · rintro ⟨name, rest, rfl, full, named⟩
    have chars : ∀ c ∈ name, isEntityChar c = true := fun c hc => isEntityChar_iff.2 (named c hc)
    rw [beginsEntity, Warden.takeWhile_stop rest chars rfl, Warden.dropWhile_stop rest chars rfl]
    simpa using full

/-- The sign does not stand in the name of an entity. -/
theorem not_mem_name (named : ∀ c ∈ name, isWord c = true ∨ c = '#') (other : isEntityChar c = false) : c ∉ name := by
  intro mem
  rw [isEntityChar_iff.2 (named c mem)] at other
  cases other

theorem endsEntity_amp (t : Text) : EndsEntity ("amp;" ++ t) := ⟨"amp", t, rfl, by decide, by decide⟩

theorem endsEntity_lt (t : Text) : EndsEntity ("lt;" ++ t) := ⟨"lt", t, rfl, by decide, by decide⟩

/-! ## What is made is safe -/

/-- Where an ampersand stands, it stands first or behind the first character. -/
theorem suffix_cons {rest : Text} (h : '&' :: rest <:+ c :: t) : c = '&' ∧ rest = t ∨ '&' :: rest <:+ t := by
  refine (List.suffix_cons_iff.1 h).imp_left fun whole => ?_
  obtain ⟨rfl, same⟩ := List.cons.inj whole
  exact ⟨rfl, same⟩

/-- Behind the ampersand of an entity that has been put in, the next ampersand stands behind the entity. -/
theorem suffix_behind (other : '&' ∉ name) {rest : Text} (h : '&' :: rest <:+ name ++ t) : '&' :: rest <:+ t := by
  induction name with
  | nil => exact h
  | cons c name ih =>
      rw [List.mem_cons, not_or] at other
      rcases suffix_cons h with ⟨rfl, -⟩ | later
      · exact absurd rfl other.1
      · exact ih other.2 later

/-- Escaping ampersands keeps the rest of an entity. -/
theorem endsEntity_ampersands (h : EndsEntity t) : EndsEntity (ampersands t) := by
  obtain ⟨name, rest, rfl, full, named⟩ := h
  have plain : '&' ∉ name ++ [';'] := by simp [not_mem_name named (c := '&') rfl]
  refine ⟨name, ampersands rest, ?_, full, named⟩
  rw [show name ++ ';' :: rest = (name ++ [';']) ++ rest by simp, Markup.ampersands_append plain, List.append_assoc]
  rfl

/-- Behind every ampersand that is left stands the rest of an entity. -/
theorem ampersands_entities (t : Text) : ∀ rest, '&' :: rest <:+ ampersands t → EndsEntity rest := by
  induction t with
  | nil => exact fun rest h => absurd (List.suffix_nil.1 h) (List.cons_ne_nil _ _)
  | cons c t ih =>
      intro rest h
      rw [ampersands] at h
      split at h
      · rcases suffix_cons (c := '&') (t := "amp;" ++ ampersands t) h with ⟨-, rfl⟩ | later
        · exact endsEntity_amp _
        · exact ih rest (suffix_behind (by decide) later)
      · rename_i kept
        rcases suffix_cons h with ⟨rfl, rfl⟩ | later
        · exact endsEntity_ampersands (beginsEntity_iff.1 (by simpa using kept))
        · exact ih rest later

theorem brackets_eq (h : '<' ∉ t) : brackets t = t := by
  have each : ∀ c ∈ t, (if c = '<' then ("&lt;" : Text) else [c]) = [c] := fun c hc => if_neg (ne_of_mem_of_not_mem hc h)
  rw [brackets, List.flatMap_congr each]
  simp

/-- Escaping brackets keeps the rest of an entity. -/
theorem endsEntity_brackets (h : EndsEntity t) : EndsEntity (brackets t) := by
  obtain ⟨name, rest, rfl, full, named⟩ := h
  refine ⟨name, brackets rest, ?_, full, named⟩
  rw [brackets, List.flatMap_append, ← brackets, brackets_eq (not_mem_name named rfl)]
  rfl

/-- The ampersands that stand for brackets begin entities too. -/
theorem brackets_entities (h : ∀ rest, '&' :: rest <:+ t → EndsEntity rest) :
    ∀ rest, '&' :: rest <:+ brackets t → EndsEntity rest := by
  induction t with
  | nil => exact fun rest h => absurd (List.suffix_nil.1 h) (List.cons_ne_nil _ _)
  | cons c t ih =>
      have later := ih fun rest inside => h rest (inside.trans (List.suffix_cons c t))
      intro rest inside
      rw [brackets, List.flatMap_cons] at inside
      split at inside
      · rcases suffix_cons (c := '&') (t := "lt;" ++ brackets t) inside with ⟨-, rfl⟩ | behind
        · exact endsEntity_lt _
        · exact later rest (suffix_behind (by decide) behind)
      · rcases suffix_cons inside with ⟨rfl, rfl⟩ | behind
        · exact endsEntity_brackets (h t List.suffix_rfl)
        · exact later rest behind

theorem mem_ampersands (h : c ∈ ampersands t) : c ∈ t ∨ c ∈ ("&amp;" : Text) := by
  induction t with
  | nil => exact .inl h
  | cons d t ih =>
      rw [ampersands] at h
      split at h
      · rcases List.mem_append.1 h with here | later
        · exact .inr here
        · exact (ih later).imp_left (List.mem_cons_of_mem d)
      · rcases List.mem_cons.1 h with rfl | later
        · exact .inl List.mem_cons_self
        · exact (ih later).imp_left (List.mem_cons_of_mem d)

theorem mem_brackets (h : c ∈ brackets t) : c ∈ t ∧ c ≠ '<' ∨ c ∈ ("&lt;" : Text) := by
  obtain ⟨d, mem, inside⟩ := List.mem_flatMap.1 h
  split at inside
  · exact .inr inside
  · rename_i other
    obtain rfl := List.mem_singleton.1 inside
    exact .inl ⟨mem, other⟩

theorem null_not_mem_dropNull (t : Text) : '\x00' ∉ dropNull t := by
  intro mem
  obtain ⟨c, -, same⟩ := List.mem_map.1 mem
  split at same
  · cases same
  · exact absurd same ‹_›

theorem html_safe (t : Text) : Safe (html t) where
  noNull mem := by
    rcases mem_brackets mem with ⟨mem, -⟩ | mem
    · rcases mem_ampersands mem with mem | mem
      · exact null_not_mem_dropNull t mem
      · exact absurd mem (by decide)
    · exact absurd mem (by decide)
  noBracket mem := by
    rcases mem_brackets mem with ⟨-, other⟩ | mem
    · exact other rfl
    · exact absurd mem (by decide)
  entities := brackets_entities (ampersands_entities _)

/-! ## What is safe stays -/

theorem dropNull_eq (h : '\x00' ∉ t) : dropNull t = t := by
  have each : ∀ c ∈ t, (if c = '\x00' then '\uFFFD' else c) = c := fun c hc => if_neg (ne_of_mem_of_not_mem hc h)
  rw [dropNull, List.map_congr_left each, List.map_id']

theorem ampersands_eq (h : ∀ rest, '&' :: rest <:+ t → EndsEntity rest) : ampersands t = t := by
  induction t with
  | nil => rfl
  | cons c t ih =>
      have kept : ¬ (c = '&' && !beginsEntity t) = true := by
        intro escaped
        obtain ⟨sign, ends⟩ := Bool.and_eq_true_iff.1 escaped
        obtain rfl : c = '&' := by simpa using sign
        rw [beginsEntity_iff.2 (h t List.suffix_rfl)] at ends
        cases ends
      rw [ampersands, if_neg kept, ih fun rest inside => h rest (inside.trans (List.suffix_cons c t))]

theorem ampersands_of_not_mem (none : '&' ∉ t) : ampersands t = t :=
  ampersands_eq fun _ inside => absurd (inside.subset List.mem_cons_self) none

theorem Safe.html_eq (h : Safe t) : html t = t := by
  rw [html, dropNull_eq h.noNull, ampersands_eq h.entities, brackets_eq h.noBracket]

theorem html_eq_self_iff : html t = t ↔ Safe t := ⟨fun same => same ▸ html_safe t, Safe.html_eq⟩

theorem html_ne_nil {t : Text} (full : t ≠ []) : html t ≠ [] := by
  obtain ⟨c, t, rfl⟩ := List.exists_cons_of_ne_nil full
  have first (d : Char) (t : Text) : ∃ e u, ampersands (d :: t) = e :: u := by
    rw [ampersands]
    split
    · exact ⟨'&', "amp;" ++ ampersands t, rfl⟩
    · exact ⟨d, ampersands t, rfl⟩
  obtain ⟨d, u, same⟩ := first _ (dropNull t)
  rw [html, show dropNull (c :: t) = _ :: dropNull t from rfl, same, brackets, List.flatMap_cons]
  split <;> simp

end LessonText.Escape

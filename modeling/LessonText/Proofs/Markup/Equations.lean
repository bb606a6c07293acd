import LessonText.Markup.Maths
import LessonText.Proofs.Markup.Rewriting
import LessonText.Proofs.Unicode.Listed
import LessonText.Proofs.Warden.Draft

/-! # Equations bring no key

The markup of an equation holds three question marks before a digit only if the equation does.
-/

namespace LessonText.Maths

open Draft Hazard Pattern Unicode

theorem spares_names : ∀ r ∈ Greek.rewrites, r.Spares keyHazard := by
  have all : Greek.names.all (fun name => (Greek.nameRewrite name).pattern.passes &&
      !(name ++ ";").contains '?') = true := by decide
  intro r hr
  obtain ⟨name, hname, rfl⟩ := List.mem_map.1 hr
  obtain ⟨passes, unmarked⟩ := Bool.and_eq_true_iff.1 (List.all_eq_true.1 all name hname)
  exact .const passes (ends_key (c := '&') (t := name ++ ";") rfl (by simpa using unmarked))

theorem spares_function {name entity : Text} (passes : (functionName name).passes = true)
    (hn : ends keyHazard (entity.map some) = true) :
    Rewrite.Spares keyHazard ⟨functionName name, fun m => m.group 1 ++ entity⟩ := by
  refine .start passes hn fun b w rest m takes _ => ?_
  obtain ⟨_, _, _, _, rfl, groups, ⟨before, letters, _, _, rfl, rfl, ⟨_, hbefore, rfl⟩, hletters⟩,
    rfl, -, rfl⟩ := takes
  obtain ⟨-, rfl⟩ := takes_literalFold.1 hletters
  have first : m.group 1 = before := Match.group_eq groups
  exact ⟨letters, by simp [first]⟩

theorem spares_product : Rewrite.Spares keyHazard
    ⟨group 1 (one Char.isAlphanum) ++ "." ++ followedBy Char.isAlpha, fun m => m.group 1 ++ "&sdot;"⟩ := by
  refine .start rfl (ends_key rfl (by decide)) fun b w rest m takes _ => ?_
  obtain ⟨_, _, _, _, rfl, groups, ⟨letter, stop, _, _, rfl, rfl, ⟨_, _, rfl⟩, hstop⟩,
    rfl, -, rfl⟩ := takes
  obtain ⟨-, rfl⟩ := takes_literal.1 hstop
  have first : m.group 1 = letter := Match.group_eq groups
  exact ⟨stop, by simp [first]⟩

theorem spares_entities : ∀ r ∈ entityRewrites, r.Spares keyHazard := by
  simp only [entityRewrites, List.forall_mem_cons]
  exact ⟨.const rfl (ends_key rfl (by decide)), .const rfl (ends_key rfl (by decide)), .const rfl (ends_key rfl (by decide)),
    .const rfl (ends_key rfl (by decide)), .const rfl (ends_key rfl (by decide)), .const rfl (ends_key rfl (by decide)),
    spares_function rfl (ends_key rfl (by decide)), spares_function rfl (ends_key rfl (by decide)),
    spares_function rfl (ends_key rfl (by decide)), .const rfl (ends_key rfl (by decide)), spares_product, by simp⟩

/-! ## Letters and digits -/

theorem symbol_eq_self {c : Char} (h : c.isAlphanum = false) : symbol c = c := by
  have none : ((c.isUpper || c.isLower) || c.isDigit) = false := h
  rw [Bool.or_eq_false_iff, Bool.or_eq_false_iff] at none
  obtain ⟨⟨upper, lower⟩, digit⟩ := none
  have notH : (c == 'h') = false := by
    rw [beq_eq_false_iff_ne]
    rintro rfl
    cases lower
  simp [symbol, upper, lower, digit, notH]

/-- A letter or digit becomes no question mark, and a digit only from a digit. -/
theorem of_symbol (c : Char) :
    (symbol c = '?' → c = '?') ∧ (isDigit (symbol c) = true → isDigit c = true) := by
  have all : (charsOf alphanumRanges).all (fun c =>
      symbol c != '?' && (!isDigit (symbol c) || isDigit c)) = true := by decide
  cases alphanum : c.isAlphanum with
  | true =>
      have here := of_isAlphanum all alphanum
      rw [Bool.and_eq_true, Bool.or_eq_true, bne_iff_ne, Bool.not_eq_true'] at here
      refine ⟨fun e => absurd e here.1, fun digit => ?_⟩
      simpa [digit] using here.2
  | false =>
      rw [symbol_eq_self alphanum]
      exact ⟨id, id⟩

theorem spares_symbol {p : Pattern} (passes : p.passes = true) :
    Rewrite.Spares keyHazard ⟨p, fun m => m.text.map symbol⟩ := by
  refine .of_allows (.of_passes passes) fun b w rest m takes text_eq T sub => ?_
  have letterwise : (m.text.map symbol).map some = (w.map some).map (Option.map symbol) := by
    simp [text_eq]
  simp only [letterwise]
  refine .map (fun p hp a ha => ?_) _
  have digit : (⟨false, (·.any isDigit)⟩ : Hazard.Part (Option Char)).accepts (a.map symbol) = true →
      (⟨false, (·.any isDigit)⟩ : Hazard.Part (Option Char)).accepts a = true := by
    cases a with
    | none => exact id
    | some c => exact (of_symbol c).2
  have mark : (⟨false, (· == some '?')⟩ : Hazard.Part (Option Char)).accepts (a.map symbol) = true →
      (⟨false, (· == some '?')⟩ : Hazard.Part (Option Char)).accepts a = true := by
    cases a with
    | none => exact id
    | some c => simpa using (of_symbol c).1
  simp only [keyHazard, List.mem_cons, List.not_mem_nil, or_false] at hp
  rcases hp with rfl | rfl | rfl | rfl
  · exact mark ha
  · exact mark ha
  · exact mark ha
  · exact digit ha

theorem spares_symbols : ∀ r ∈ symbolRewrites, r.Spares keyHazard := by
  simp only [symbolRewrites, List.forall_mem_cons]
  exact ⟨spares_symbol rfl, spares_symbol rfl, by simp⟩

/-! ## Tags -/

theorem spares_fraction : Rewrite.Spares keyHazard
    ⟨group 1 fractionPart ++ spaced "/" ++ group 2 fractionPart, fun m =>
      "<table><tr><td>" ++ m.group 1 ++ "</td></tr><tr><td>" ++ m.group 2 ++ "</td></tr></table>"⟩ := by
  refine .of_allows (.of_passes rfl) fun b w rest m takes _ T sub => ?_
  obtain ⟨_, v, _, _, rfl, groups, ⟨u, slash, _, _, rfl, rfl, ⟨_, hu, rfl⟩, hslash⟩, _, hv, rfl⟩ := takes
  obtain rfl := hu.groups_eq_nil rfl
  obtain rfl := hslash.groups_eq_nil rfl
  obtain rfl := hv.groups_eq_nil rfl
  have first : m.group 1 = u := Match.group_eq groups
  have second : m.group 2 = v := Match.group_eq groups
  have letters : ("<table><tr><td>" ++ u ++ "</td></tr><tr><td>" ++ v ++ "</td></tr></table>" : Text).map
      some = ("<table><tr><td>" : Text).map some ++
        (u.map some ++ ("</td></tr><tr><td>" : Text).map some ++ v.map some) ++
        ("</td></tr></table>" : Text).map some := by
    simp only [List.map_append, List.append_assoc]
  simp only [first, second, letters]
  refine .enclosed sub (ends_key rfl (by decide)) (ends_key rfl (by decide)) fun safe => ?_
  rw [List.map_append, List.map_append] at safe
  obtain ⟨before, last⟩ := safe_append.1 safe
  have nothing {S : List Nat} : [] ⊆ S := List.nil_subset S
  exact safe_join (safe_mono nothing (safe_append.1 before).1) (ends_key rfl (by decide))
    (safe_mono nothing last)

theorem spares_shifted {sign : Char} {tag tag' : Text}
    (hn : ends keyHazard (tag.map some) = true) (hn' : ends keyHazard (tag'.map some) = true) :
    Rewrite.Spares keyHazard ⟨shifted (literal [sign]), fun m => tag ++ m.group 1 ++ tag'⟩ := by
  refine .wrap rfl hn hn' fun b w rest m takes _ => ?_
  obtain ⟨before, u, _, _, rfl, groups, hbefore, _, hu, rfl⟩ := takes
  obtain rfl := hbefore.groups_eq_nil rfl
  obtain rfl := hu.groups_eq_nil rfl
  have first : m.group 1 = u := Match.group_eq groups
  exact ⟨before, [], by simp [first]⟩

theorem spares_tags : ∀ r ∈ tagRewrites, r.Spares keyHazard := by
  simp only [tagRewrites, List.forall_mem_cons]
  refine ⟨spares_fraction, spares_shifted (ends_key rfl (by decide)) (ends_key rfl (by decide)),
    spares_shifted (ends_key rfl (by decide)) (ends_key rfl (by decide)), .const rfl (ends_key rfl (by decide)), ?_, ?_, by simp⟩
  · exact .wrap rfl (ends_key rfl (by decide)) (ends_key rfl (by decide)) fun b w rest m _ text_eq =>
      ⟨[], [], by simp [text_eq]⟩
  · refine .wrap rfl (ends_key rfl (by decide)) (ends_key rfl (by decide)) fun b w rest m takes _ => ?_
    obtain ⟨_, close, _, _, rfl, groups, ⟨opening, u, _, _, rfl, rfl, hopening, _, ⟨-, -, rfl⟩, rfl⟩, hclose⟩ := takes
    obtain ⟨-, rfl⟩ := takes_literal.1 hopening
    obtain ⟨-, rfl⟩ := takes_literal.1 hclose
    have first : m.group 1 = u := Match.group_eq groups
    exact ⟨opening, close, by simp [first]⟩

theorem spares_toHtml {t : Text} (ht : keyHazard.Spares t) : keyHazard.Spares (toHtml t) := by
  obtain ⟨a, z, trimmed, -, -⟩ := exists_trim t
  have trim : keyHazard.Spares t.trim := .of_factor (trimmed ▸ ht)
  have named := Rewrite.applyAll_spares spares_names trim
  have entities := Rewrite.applyAll_spares spares_entities named
  have symbols := Rewrite.applyAll_spares spares_symbols entities
  exact Rewrite.applyAll_spares spares_tags symbols

end LessonText.Maths

import LessonText.Proofs.Headers
import LessonText.Proofs.Metadata

/-! # Values of the metadata

The key of a header line names its value. An item that asks for the value is read after emphasis, whose marks may be
a part of the key.
-/

namespace LessonText

open Pattern Unicode

/-! ## Underscores of a key -/

/-- No two underscores of a text are apart from each other, and there are at most three. Others would be marks of emphasis. -/
def isPlainKey (t : Text) : Bool :=
  let rest := t.dropWhile (· != '_')
  (rest.takeWhile (· == '_')).length ≤ 3 && !(rest.dropWhile (· == '_')).contains '_'

/-- Between two underscores there is nothing, or one more of them. -/
theorem isPlainKey_iff {t : Text} :
    isPlainKey t = true ↔ ∀ u x r, t = u ++ '_' :: (x ++ '_' :: r) → x = [] ∨ x = ['_'] := by
  obtain ⟨a, ha⟩ : ∃ a, a = t.takeWhile (· != '_') := ⟨_, rfl⟩
  obtain ⟨s, hs⟩ : ∃ s, s = (t.dropWhile (· != '_')).takeWhile (· == '_') := ⟨_, rfl⟩
  obtain ⟨z, hz⟩ : ∃ z, z = (t.dropWhile (· != '_')).dropWhile (· == '_') := ⟨_, rfl⟩
  have whole : t = a ++ (s ++ z) := by
    rw [ha, hs, hz, List.takeWhile_append_dropWhile, List.takeWhile_append_dropWhile]
  have before : '_' ∉ a := fun mem => absurd (List.mem_takeWhile_imp (ha ▸ mem)) (by decide)
  have signs : ∀ c ∈ s, c = '_' := fun c mem => by
    rw [hs] at mem
    have same := List.mem_takeWhile_imp mem
    exact beq_iff_eq.1 same
  have stops {f : Char → Bool} {l r : Text} {d : Char} (h : d :: r = l.dropWhile f) : f d = false := by
    have head := List.head?_dropWhile_not f l
    rw [← h] at head
    simpa using head
  have plain : isPlainKey t = (decide (s.length ≤ 3) && !z.contains '_') := by rw [hs, hz]; rfl
  rw [plain, Bool.and_eq_true, decide_eq_true_eq, Bool.not_eq_true', ← Bool.not_eq_true, List.contains_iff_mem]
  constructor
  · rintro ⟨short, behind⟩ u x r split
    -- Both underscores stand in the one run of them, and so does what is between them.
    have spot (i : Nat) (c : Char) (at_ : t[i]? = some c) :
        i < a.length ∧ c ∈ a ∨ a.length ≤ i ∧ i < a.length + s.length ∧ c ∈ s ∨ a.length + s.length ≤ i ∧ c ∈ z := by
      rw [whole, List.getElem?_append] at at_
      split at at_
      · exact .inl ⟨‹_›, List.mem_of_getElem? at_⟩
      · rw [List.getElem?_append] at at_
        split at at_
        · exact .inr (.inl ⟨by omega, by omega, List.mem_of_getElem? at_⟩)
        · exact .inr (.inr ⟨by omega, List.mem_of_getElem? at_⟩)
    have first : a.length ≤ u.length := by
      rcases spot u.length '_' (by simp [split]) with ⟨-, mem⟩ | ⟨le, -⟩ | ⟨-, mem⟩
      · exact absurd mem before
      · exact le
      · exact absurd mem behind
    have last : u.length + (1 + x.length) < a.length + s.length := by
      rcases spot (u.length + (1 + x.length)) '_' (by simp [split, Nat.add_comm 1]) with ⟨-, mem⟩ | ⟨-, lt, -⟩ | ⟨-, mem⟩
      · exact absurd mem before
      · exact lt
      · exact absurd mem behind
    rcases x with - | ⟨c, - | ⟨d, x⟩⟩
    · exact .inl rfl
    · rw [List.length_singleton] at last
      rcases spot (u.length + 1) c (by simp [split]) with ⟨lt, -⟩ | ⟨-, -, mem⟩ | ⟨le, -⟩
      · omega
      · exact .inr (by rw [signs c mem])
      · omega
    · simp only [List.length_cons] at last
      omega
  · intro apart
    refine ⟨?_, fun mem => ?_⟩
    · by_contra long
      obtain ⟨v, rfl⟩ : ∃ v, s = "____" ++ v := by
        rcases s with - | ⟨b, - | ⟨c, - | ⟨d, - | ⟨e, v⟩⟩⟩⟩
        case cons.cons.cons.cons =>
          obtain rfl := signs b (by simp)
          obtain rfl := signs c (by simp)
          obtain rfl := signs d (by simp)
          obtain rfl := signs e (by simp)
          exact ⟨v, rfl⟩
        all_goals simp at long
      exact absurd (apart a "__" (v ++ z) whole) (by decide)
    · obtain ⟨x, r, same⟩ := List.append_of_mem mem
      obtain ⟨d, x, rfl⟩ : ∃ d y, x = d :: y := by
        cases x with
        | nil => exact absurd (stops (same ▸ hz)) (by decide)
        | cons d x => exact ⟨d, x, rfl⟩
      have other : d ≠ '_' := by
        rintro rfl
        exact absurd (stops (same ▸ hz)) (by decide)
      have full : s ≠ [] := by
        rintro rfl
        have rest : d :: (x ++ '_' :: r) = t.dropWhile (· != '_') := by
          rw [← List.takeWhile_append_dropWhile (p := (· == '_')) (l := t.dropWhile (· != '_')), ← hs, ← hz, same]
          rfl
        exact other (by simpa using stops rest)
      have sign : s = s.dropLast ++ ['_'] := by
        rw [← signs _ (List.getLast_mem full), List.dropLast_append_getLast full]
      rcases apart (a ++ s.dropLast) (d :: x) r (by rw [whole, same, sign]; simp) with none | one
      · cases none
      · exact other (List.cons.inj one).1

namespace Span

variable {r : Rule} {b : Option Char} {t w z : Text} {gs : List (Nat × Text)}

/-- Emphasis stands between two signs, with something else than one more sign between them. -/
theorem emphasis_takes {sign : Char} {count : Nat} {tags : List Text} (known : r ∈ emphasis sign (count + 1) tags)
    (takes : r.pattern.Takes b w z gs) : ∃ x, w = sign :: (x ++ [sign]) ∧ x ≠ [] ∧ x ≠ [sign] := by
  have around (v : Text) : List.replicate (count + 1) sign ++ v ++ List.replicate (count + 1) sign =
      sign :: (List.replicate count sign ++ v ++ List.replicate count sign ++ [sign]) := by
    rw [List.append_assoc _ _ [sign], ← List.replicate_succ']
    simp [List.replicate_succ]
  have inner {v : Text} (full : v ≠ []) (other : v ≠ [sign]) : ∃ x,
      List.replicate (count + 1) sign ++ v ++ List.replicate (count + 1) sign = sign :: (x ++ [sign]) ∧ x ≠ [] ∧ x ≠ [sign] := by
    refine ⟨_, around v, by simp [full], fun single => ?_⟩
    have length := congrArg List.length single
    have pos := List.length_pos_iff.2 full
    simp only [List.length_append, List.length_replicate, List.length_singleton] at length
    obtain rfl : count = 0 := by omega
    exact other (by simpa using single)
  rcases List.mem_cons.1 known with rfl | known
  · obtain ⟨_, _, _, _, rfl, -, ⟨_, _, _, _, rfl, -, opens, ⟨_, ⟨c, plain, rfl, -⟩, -⟩⟩, closes⟩ := takes
    obtain ⟨rfl, -⟩ := takes_literal.1 opens
    obtain ⟨rfl, -⟩ := takes_literal.1 closes
    refine inner (List.cons_ne_nil _ _) fun single => ?_
    obtain rfl := List.singleton_inj.1 single
    simp at plain
  · obtain rfl := List.mem_singleton.1 known
    obtain ⟨_, _, _, _, rfl, -, ⟨_, _, _, _, rfl, -, opens, ⟨_, ⟨_, _, _, _, rfl, -, ⟨_, x, _, _, rfl, -, ⟨c, -, rfl, -⟩, -⟩,
      ⟨d, -, rfl, -⟩⟩, -⟩⟩, closes⟩ := takes
    obtain ⟨rfl, -⟩ := takes_literal.1 opens
    obtain ⟨rfl, -⟩ := takes_literal.1 closes
    exact inner (by simp) (by simp)

/-- A rule that may begin with an underscore is one for emphasis. -/
theorem underscored (known : r ∈ rules) : r.pattern.mayBegin '_' = false ∨ ∃ n tags, r ∈ emphasis '_' (n + 1) tags := by
  have all : ∀ r ∈ rules, r.pattern.mayBegin '_' = false ∨ ∃ n tags, r ∈ emphasis '_' (n + 1) tags := by
    simp only [rules, List.forall_mem_append, List.forall_mem_cons]
    refine ⟨⟨⟨⟨⟨⟨⟨.inl rfl, .inl rfl, .inl rfl, .inl rfl, .inl rfl, .inl rfl, by simp⟩, ?_⟩, fun r h => .inr ⟨2, _, h⟩⟩, ?_⟩,
      fun r h => .inr ⟨1, _, h⟩⟩, ?_⟩, fun r h => .inr ⟨0, _, h⟩⟩
    all_goals
      simp only [emphasis, List.forall_mem_cons]
      exact ⟨.inl rfl, .inl rfl, by simp⟩
  exact all r known

/-- The rules for spans leave a text whose only signs are underscores that are not apart. -/
theorem rules_plain (none : ∀ c ∈ leadSigns, c ≠ '_' → c ∉ t) (plain : isPlainKey t = true) :
    rules.foldlM (fun t r => r.apply t) t = pure t := by
  refine Rule.foldlM_pure fun r known => Rule.apply_of_passes (rules_advance known) ?_
  rintro u v rfl - w z gs split takes
  rw [List.append_nil] at split
  subst split
  obtain ⟨c, w, rfl⟩ := List.exists_cons_of_ne_nil (rules_advance known _ _ _ _ takes)
  by_cases underscore : c = '_'
  · subst underscore
    rcases underscored known with other | ⟨n, tags, listed⟩
    · rw [takes.mayBegin] at other
      cases other
    · obtain ⟨x, whole, full, other⟩ := emphasis_takes listed takes
      rw [whole] at plain
      rcases isPlainKey_iff.1 plain u x z (by simp) with rfl | rfl
      · exact full rfl
      · exact other rfl
  · exact none c (mem_leadSigns known takes.mayBegin) underscore (by simp)

end Span

/-! ## A greeting with an item -/

namespace Item

variable {mark : Pattern} {f : Char → Bool} {b : Option Char} {c : Char} {t k : Text}

/-- A character that no mark begins with, or is behind no sign. -/
theorem one_passes (begins : Begins mark f) (other : f c = false) (unmarked : c ≠ '?')
    (behind : c ∈ (" >" : Text) → ∀ d ∈ t.head?, f d = false) : (pattern mark).Passes b [c] t :=
  .cons (pattern_misses begins other unmarked behind) .nil

/-- The characters at which an item of a greeting might begin. -/
def greetingSigns : Text := "\n< >H"

theorem front_passes (begins : Begins mark f) (none : greetingSigns.all (fun c => !f c) = true) :
    (pattern mark).Passes Option.none "\n<p>Hello" t := by
  have other {c : Char} (h : c ∈ greetingSigns) : f c = false := by simpa using List.all_eq_true.1 none c h
  have line : (pattern mark).Passes Option.none "\n" ("<p>Hello" ++ t) :=
    one_passes begins (other (by decide)) (by decide) fun sign => absurd sign (by decide)
  have bracket : (pattern mark).Passes (some '\n') "<" ("p>Hello" ++ t) :=
    one_passes begins (other (by decide)) (by decide) fun sign => absurd sign (by decide)
  have name : (pattern mark).Passes (some '<') "p" (">Hello" ++ t) := pattern_passes rfl (by decide)
  have closed : (pattern mark).Passes (some 'p') ">" ("Hello" ++ t) :=
    one_passes begins (other (by decide)) (by decide) (by rintro - _ ⟨⟩; exact other (by decide))
  have word : (pattern mark).Passes (some '>') "Hello" t := pattern_passes rfl (by decide)
  exact line.append (bracket.append (name.append (closed.append word)))

theorem back_passes (begins : Begins mark f) (none : greetingSigns.all (fun c => !f c) = true)
    (line : b.all (· == '\n') = false) : (pattern mark).Passes b "</p>\n" [] := by
  have other {c : Char} (h : c ∈ greetingSigns) : f c = false := by simpa using List.all_eq_true.1 none c h
  have tag : (pattern mark).Passes b "</p" ">\n" := pattern_passes line (by decide)
  have closed : (pattern mark).Passes (some 'p') ">" "\n" :=
    one_passes begins (other (by decide)) (by decide) (by rintro - _ ⟨⟩; exact other (by decide))
  have ended : (pattern mark).Passes (some '>') "\n" [] := one_passes begins (other (by decide)) (by decide) (by simp)
  have last : (pattern mark).Passes (some 'p') (">" ++ "\n") [] := closed.append ended
  exact Passes.append (b := b) (u := "</p") tag last

/-- Another item than a value does not begin in a greeting. -/
theorem greeting_passes (begins : Begins mark f) (none : ('m' :: greetingSigns).all (fun c => !f c) = true)
    (plain : ∀ c ∈ k, c ∉ ("\n >?" : Text)) : (pattern mark).Passes Option.none ("\n<p>Hello meta:" ++ k) t := by
  obtain ⟨letter, others⟩ := Bool.and_eq_true_iff.1 none
  have other {c : Char} (h : c ∈ greetingSigns) : f c = false := by simpa using List.all_eq_true.1 others c h
  have letter : f 'm' = false := by simpa using letter
  have space : (pattern mark).Passes (some 'o') " " ("meta:" ++ k ++ t) :=
    one_passes begins (other (by decide)) (by decide) (by rintro - _ ⟨⟩; exact letter)
  have inner : (pattern mark).Passes (some ' ') ("meta:" ++ k) t := by
    refine pattern_passes rfl fun c hc => ?_
    rcases List.mem_append.1 hc with hc | hc
    · have signs : ∀ c ∈ ("meta:" : Text), c ∉ ("\n >?" : Text) := by decide
      exact signs c hc
    · exact plain c hc
  exact (front_passes begins others).append (space.append inner)

end Item

namespace Metadata

variable {key value : Text} {c : Char}

/-- A character of a key is a plain part of a word. -/
theorem isPlainPart_of_isWord (word : isWord c = true) : Item.isPlainPart c = true := by
  have solid := isSpace_of_isWord word
  have other {signs : Text} (none : ∀ d ∈ signs, isWord d = false) : anyOf signs c = false := by
    rw [anyOf, ← Bool.not_eq_true, List.contains_iff_mem]
    intro mem
    rw [none c mem] at word
    cases word
  rw [Item.isPlainPart, Item.isPart, Item.isStop, solid, other (by decide), other (by decide)]
  rfl

theorem not_mem_key {signs : Text} (none : ∀ c ∈ signs, isWord c = false) (word : key.all isWord = true) :
    ∀ c ∈ signs, c ∉ key := by
  intro c sign mem
  have here := List.all_eq_true.1 word c mem
  rw [none c sign] at here
  cases here

theorem literalFold_reads {b : Option Char} {r : Text} {m v : Text} (same : List.Forall₂ (fun c d => sameLetter c d = true) m v) :
    (literalFold m).Reads b v r [] := by
  induction same generalizing b with
  | nil => exact .empty
  | @cons c d m v letter _ ih =>
      have first : (Pattern.one (sameLetter c)).Reads b [d] (v ++ r) [] := .one letter
      exact first.append ih

/-- What stands for a key: its value, or the key with a hidden message. -/
def shownFor (metadata : Metadata) (key : Text) : Text :=
  let found := (metadata.get? key).getD []
  if found.isEmpty then
    "<span " ++ Attribute.hiddenError ("Cannot find metadata " ++ key) ++ ">" ++ key ++ "</span>"
  else found

theorem value_replace (metadata : Metadata) {w : Text} (full : w ≠ []) (t : Text) :
    (Item.value metadata).replace ⟨t, [(2, w), (1, [' '])]⟩ = pure (' ' :: metadata.shownFor w) := by
  have filled : w.isEmpty = false := by simpa using full
  have word : (⟨t, [(2, w), (1, [' '])]⟩ : Match).group 2 = w := rfl
  simp only [Item.value, word, filled, Bool.false_eq_true, if_false, shownFor]
  split <;> rfl

/-- What stands for the key behind a greeting. -/
theorem value_apply {metadata : Metadata} {w r : Text} (full : w ≠ []) (first : ∀ c ∈ w.head?, Item.isPart c = true)
    (plain : ∀ c ∈ w.tail, Item.isPlainPart c = true) (ends : Item.Ends r) (s : Session) :
    (Item.value metadata).apply ("\n<p>Hello meta:" ++ w ++ r) s =
      let rest := (Item.value metadata).applyFrom ("\n<p>Hello meta:" ++ w ++ r).length w.getLast? r s
      ("\n<p>Hello " ++ metadata.shownFor w ++ rest.1, rest.2) := by
  have filled : w.isEmpty = false := by simpa using full
  have front : (Item.value metadata).pattern.Passes none "\n<p>Hello" ([' '] ++ ("meta:" ++ w) ++ r) :=
    Item.front_passes (Item.begins_fold 'm' "eta:") (by decide)
  have reads : (Item.value metadata).pattern.Reads (some 'o') ([' '] ++ ("meta:" ++ w)) r [(2, w), (1, [' '])] := by
    have all : (Item.value metadata).pattern.Reads (some 'o') ([' '] ++ ("meta:" ++ w)) r _ :=
      Item.reads (by decide) rfl (fun b r => literalFold_reads (by decide)) first plain ends fun empty => absurd empty full
    rwa [filled] at all
  have split : "\n<p>Hello meta:" ++ w ++ r = "\n<p>Hello" ++ ([' '] ++ ("meta:" ++ w) ++ r) := by simp
  have last : ([' '] ++ ("meta:" ++ w)).getLast?.or (some 'o') = w.getLast? := by
    rw [List.getLast?_append, List.getLast?_append, List.getLast?_eq_some_getLast full]
    rfl
  generalize limit : ("\n<p>Hello meta:" ++ w ++ r).length = bound
  have inside : ([' '] ++ ("meta:" ++ w) ++ r).length ≤ bound := by
    rw [← limit, split]
    exact (List.suffix_append _ _).length_le
  have item := Rule.applyFrom_reads (r := Item.value metadata) (by simp) reads inside
  rw [last, value_replace metadata full, pure_bind] at item
  rw [Rule.apply_eq, limit, split, Rule.applyFrom_passes front, Markup.map_run,
    show ("\n<p>Hello" : Text).getLast?.or none = some 'o' from rfl, item]
  simp only [bind_pure_comp, Markup.map_run]
  simp

theorem plain_key (word : key.all isWord = true) : ∀ c ∈ key, c ∉ ("\n >?" : Text) :=
  fun c hc sign => not_mem_key (by decide) word c sign hc

/-- A greeting with the value of a key. -/
theorem greeting_items (full : key ≠ []) (word : key.all isWord = true) (s : Session) {found : Text} {metadata : Metadata}
    (known : metadata.get? key = some found) (shown : found ≠ []) :
    Rule.applyAll (Item.rules metadata) ("\n<p>Hello meta:" ++ key ++ "</p>\n") s = ("\n<p>Hello " ++ found ++ "</p>\n", s) := by
  have plain := plain_key word
  have line : key.getLast?.all (· == '\n') = false := by
    rw [List.getLast?_eq_some_getLast full]
    exact beq_false_of_ne fun same => plain _ (List.getLast_mem full) (by rw [same]; decide)
  have keeps {r : Rule} {mark : Pattern} {f : Char → Bool} (same : r.pattern = Item.pattern mark) (advances : r.pattern.Advances)
      (begins : Item.Begins mark f) (none : ('m' :: Item.greetingSigns).all (fun c => !f c) = true) :
      r.apply ("\n<p>Hello meta:" ++ key ++ "</p>\n") = pure ("\n<p>Hello meta:" ++ key ++ "</p>\n") := by
    have last : (("\n<p>Hello meta:" ++ key).getLast?.or Option.none).all (· == '\n') = false := by
      rwa [Option.or_none, List.getLast?_append_of_ne_nil _ full]
    refine Rule.apply_of_passes advances ?_
    rw [same]
    exact (Item.greeting_passes begins none plain).append (Item.back_passes begins (Bool.and_eq_true_iff.1 none).2 last)
  have sign : '\\' ∉ key := by
    have none : ∀ c ∈ ("\\" : Text), isWord c = false := by decide
    exact not_mem_key none word '\\' (by decide)
  have backslash : '\\' ∉ "\n<p>Hello meta:" ++ key ++ "</p>\n" := by
    simp only [List.mem_append, not_or]
    exact ⟨⟨by decide, sign⟩, by decide⟩
  have bracket := Item.escapedBracket_apply backslash
  have dots := keeps (r := Item.gap) rfl (.of_passes rfl) (Item.begins_literal '.' "..") (by decide)
  have emojis := keeps (r := Item.emoji) rfl (.of_passes rfl) (Item.begins_fold 'e' "moji:") (by decide)
  have back : (Item.value metadata).pattern.Passes key.getLast? "</p>\n" [] :=
    Item.back_passes (Item.begins_fold 'm' "eta:") (by decide) line
  have advances : (Item.value metadata).pattern.Advances := .of_passes rfl
  have rest (bound : Nat) : (Item.value metadata).applyFrom bound key.getLast? "</p>\n" s = (("</p>\n" : Text), s) := by
    have all : (Item.value metadata).applyFrom bound key.getLast? (("</p>\n" : Text) ++ []) s = _ :=
      congrFun (Rule.applyFrom_passes back) s
    rw [List.append_nil, Rule.applyFrom_nil advances.misses_nil, map_pure] at all
    exact all
  have here : metadata.shownFor key = found := by
    have filled : found.isEmpty = false := by simpa using shown
    simp [shownFor, known, filled]
  have value : (Item.value metadata).apply ("\n<p>Hello meta:" ++ key ++ "</p>\n") s = ("\n<p>Hello " ++ found ++ "</p>\n", s) := by
    have parts := fun c hc => isPlainPart_of_isWord (List.all_eq_true.1 word c hc)
    refine (value_apply full (fun c hc => (Bool.and_eq_true_iff.1 (parts c (List.mem_of_mem_head? hc))).1)
      (fun c hc => parts c (List.mem_of_mem_tail hc)) (.inr ⟨"\n", rfl⟩) s).trans ?_
    show (_ ++ _ ++ ((Item.value metadata).applyFrom _ _ "</p>\n" s).1, ((Item.value metadata).applyFrom _ _ "</p>\n" s).2) = _
    rw [rest, here]
  have filled : ("\n<p>Hello meta:" ++ key ++ "</p>\n").isEmpty = false := rfl
  rw [Rule.applyAll, filled, if_neg Bool.false_ne_true, Item.rules, List.foldlM_cons, bracket, pure_bind, List.foldlM_cons, dots,
    pure_bind, List.foldlM_cons, emojis, pure_bind, List.foldlM_cons, Markup.bind_run value, List.foldlM_nil]
  rfl

/-- An item that asks for the value of a header line shows it if emphasis finds nothing in the key. -/
theorem greeting_html (full : key ≠ []) (word : key.all isWord = true) (plain : isPlainKey key = true) (shown : value ≠ [])
    (trimmed : value.trim = value) (line : ∀ c ∈ value, isLineBreak c = false) :
    (TextItem.render (ofHeader (key ++ ": " ++ value)) ("Hello meta:" ++ key)).1.html =
      "\n<p>Hello " ++ Escape.html value ++ "</p>\n" := by
  have signs {c : Char} (other : isWord c = false) (sign : c ∉ ("Hello meta:" : Text)) : c ∉ "Hello meta:" ++ key := by
    rw [List.mem_append, not_or]
    exact ⟨sign, fun mem => by rw [List.all_eq_true.1 word c mem] at other; cases other⟩
  have one : OneLine ("Hello meta:" ++ key) := ⟨⟨'H', "ello meta:" ++ key, rfl, rfl⟩, signs (by decide) (by decide)⟩
  have misses := Block.rules_misses one ⟨(nomatch ·), (nomatch ·)⟩
  have lead : ∀ c ∈ Span.leadSigns, c ≠ '_' → c ∉ "Hello meta:" ++ key := by
    have other : ∀ c ∈ Span.leadSigns, c ≠ '_' → isWord c = false ∧ c ∉ ("Hello meta:" : Text) := by decide
    exact fun c hc sign => signs (other c hc sign).1 (other c hc sign).2
  have unsigned : ∀ c ∈ Span.firstSigns, c ∉ "Hello meta:" ++ key := by
    have other : ∀ c ∈ Span.firstSigns, isWord c = false ∧ c ∉ ("Hello meta:" : Text) := by decide
    exact fun c hc => signs (other c hc).1 (other c hc).2
  have spans : Span.rules.foldlM (fun t r => r.apply t) ("Hello meta:" ++ key) = pure ("Hello meta:" ++ key) := by
    refine Span.rules_plain lead ?_
    have same : ("Hello meta:" ++ key).dropWhile (· != '_') = key.dropWhile (· != '_') :=
      List.dropWhile_append_of_pos (by decide)
    rwa [isPlainKey, same]
  have known : (ofHeader (key ++ ": " ++ value)).get? key = some (Escape.html value) := by
    rw [ofHeader_line full word trimmed line, get?, List.lookup_cons_self]
  have unopened : Unopened ("Hello meta:" ++ key) := .of_not_mem (signs (by decide) (by decide))
  have page : "\n<p>" ++ ("Hello meta:" ++ key) ++ "</p>\n" = "\n<p>Hello meta:" ++ key ++ "</p>\n" := by
    rw [← List.append_assoc]
    rfl
  have run : TextItem.run (ofHeader (key ++ ": " ++ value)) ("Hello meta:" ++ key) = _ :=
    TextItem.run_of_spans one.solid misses unsigned (congrFun spans {}) one.solid unopened
  rw [page, Markup.bind_run (greeting_items full word {} known (Escape.html_ne_nil shown))] at run
  rw [TextItem.html_render, run]
  exact Warden.reinstate_empty rfl _

theorem greeting_html_key : isPlainKey "my_key" = true ∧
    (TextItem.render (ofHeader "my_key: a < b") "Hello meta:my_key").1.html = "\n<p>Hello a &lt; b</p>\n" :=
  ⟨by decide, greeting_html (by decide) (by decide) (by decide) (by decide) (by decide) (by decide)⟩

/-- Two underscores that are apart are marks of emphasis, and the value of the key is not shown. -/
theorem greeting_emphasized :
    (TextItem.render (ofHeader "_a_: v") "Hello meta:_a_").1.html ≠ "\n<p>Hello v</p>\n" := by
  decide +kernel

end Metadata

end LessonText

import LessonText.Lesson.Item
import LessonText.Proofs.Markup.Safety
import LessonText.Proofs.Pattern.Lazy

/-! # The tokens of an item

An item may begin behind a ward, and its pattern reads the end of the key there. The rest of a match
shows no ward: a word stops before a question mark, and no ward may stand directly behind the mark.
-/

namespace LessonText.Item

open Draft Pattern Unicode Hazard

/-! ## What a match is made of -/

/-- The signs that end a word. -/
def terminators : Text := ",;:.?!"

/-- An entity by name or by number. -/
def IsEntity (t : Text) : Prop := ∃ number name : Text, (number = [] ∨ number = "#") ∧ name ≠ [] ∧
  (∀ c ∈ name, (letterFold c || c.isDigit) = true) ∧ t = "&" ++ number ++ name ++ ";"

/-- A part of a word: an entity, or any other character. -/
def IsPart (w : Text) : Prop := IsEntity w ∨ ∃ c, w = [c]

/-- A word as it is found: behind its first part no part begins with a sign that ends it. -/
def Worded (w : Text) : Prop :=
  w = [] ∨ ∃ (first : Text) (parts : List Text), w = first ++ parts.flatten ∧ IsPart first ∧
    ∀ p ∈ parts, IsPart p ∧ ∀ c ∈ p.head?, c ∉ terminators

theorem wordPart_takes {b : Option Char} {w r : Text} {gs : List (Nat × Text)} (h : wordPart.Takes b w r gs) :
    gs = [] ∧ IsPart w := by
  refine ⟨h.groups_eq_nil rfl, ?_⟩
  rcases h with ⟨_, close, _, _, rfl, -, ⟨_, name, _, _, rfl, -, ⟨sign, number, _, _, rfl, -, hsign, hnumber⟩, hname⟩, hclose⟩ |
    ⟨c, -, rfl, -⟩
  · obtain ⟨rfl, -⟩ := takes_literal.1 hsign
    obtain ⟨rfl, -⟩ := takes_literal.1 hclose
    obtain ⟨full, letters, -, -⟩ := takes_span1.1 hname
    refine .inl ⟨number, name, ?_, full, letters, rfl⟩
    rcases hnumber with hnumber | ⟨rfl, -⟩
    · exact .inr (takes_literal.1 hnumber).1
    · exact .inl rfl
  · exact .inr ⟨c, rfl⟩

/-- Of an entity only the end is a sign that ends a word. -/
theorem IsEntity.terminator {u v : Text} {c : Char} (h : IsEntity (u ++ c :: v)) (sign : c ∈ terminators) :
    c = ';' ∧ IsEntity (u ++ ";") := by
  obtain ⟨number, name, hash, full, letters, split⟩ := h
  have inner : ∀ d ∈ ("&" : Text) ++ number ++ name, d ∉ terminators := by
    have apart : terminators.all (fun d => !letterFold d && !d.isDigit && d != '&' && d != '#') = true := by decide
    intro d hd ends
    have known := List.all_eq_true.1 apart d ends
    simp only [Bool.and_eq_true, Bool.not_eq_true', bne_iff_ne] at known
    obtain ⟨⟨⟨letter, digit⟩, and_⟩, sharp⟩ := known
    rcases List.mem_append.1 hd with hd | hd
    · rcases List.mem_cons.1 hd with rfl | hd
      · exact and_ rfl
      · rcases hash with rfl | rfl
        · cases hd
        · exact sharp (List.mem_singleton.1 hd)
    · simpa [letter, digit] using letters d hd
  -- the sign stands behind all of the rest
  rcases List.append_eq_append_iff.1 split with ⟨a, inside, behind⟩ | ⟨a, rfl, behind⟩
  · cases a with
    | nil =>
        obtain ⟨rfl, -⟩ := List.cons.inj behind
        rw [List.append_nil] at inside
        exact ⟨rfl, number, name, hash, full, letters, by rw [inside]⟩
    | cons d a =>
        obtain ⟨rfl, -⟩ := List.cons.inj behind
        exact absurd sign (inner c (by rw [inside]; simp))
  · cases a with
    | nil =>
        obtain ⟨rfl, -⟩ := List.cons.inj behind
        exact ⟨rfl, number, name, hash, full, letters, by simp⟩
    | cons d a =>
        have length := congrArg List.length behind
        simp at length

/-- A character of parts in a row is one of a part. -/
theorem exists_part {parts : List Text} {u v : Text} {c : Char} (h : parts.flatten = u ++ c :: v) :
    ∃ (before : List Text) (x y : Text) (after : List Text),
      parts = before ++ (x ++ c :: y) :: after ∧ u = before.flatten ++ x := by
  induction parts generalizing u with
  | nil => cases u <;> cases h
  | cons p parts ih =>
      have later {a : Text} (split : parts.flatten = a ++ c :: v) (same : u = p ++ a) :
          ∃ (before : List Text) (x y : Text) (after : List Text),
            p :: parts = before ++ (x ++ c :: y) :: after ∧ u = before.flatten ++ x := by
        obtain ⟨before, x, y, after, rfl, rfl⟩ := ih split
        exact ⟨p :: before, x, y, after, rfl, by rw [same, List.flatten_cons, List.append_assoc]⟩
      rcases List.append_eq_append_iff.1 (List.flatten_cons ▸ h) with ⟨a, same, split⟩ | ⟨a, rfl, behind⟩
      · exact later split same
      · cases a with
        | nil => exact later (a := []) behind.symm (by simp)
        | cons d a =>
            obtain ⟨rfl, -⟩ := List.cons.inj behind
            exact ⟨[], u, a, parts, rfl, rfl⟩

/-- The signs that end a word stand at its start only, or end an entity of it. -/
theorem Worded.terminator {w u v : Text} {c : Char} (h : Worded w) (split : w = u ++ c :: v) (sign : c ∈ terminators) :
    u = [] ∨ c = ';' ∧ ∃ x e, IsEntity (e ++ ";") ∧ u = x ++ e := by
  rcases h with rfl | ⟨first, parts, rfl, part, later⟩
  · cases u <;> cases split
  · have whole : (first :: parts).flatten = u ++ c :: v := split
    obtain ⟨before, x, y, after, cut, rfl⟩ := exists_part whole
    have part : IsPart (x ++ c :: y) ∧ (before = [] ∨ ∀ d ∈ (x ++ c :: y).head?, d ∉ terminators) := by
      cases before with
      | nil => exact ⟨(List.cons.inj cut).1 ▸ part, .inl rfl⟩
      | cons p before =>
          obtain ⟨known, goes⟩ := later (x ++ c :: y) (by rw [(List.cons.inj cut).2]; simp)
          exact ⟨known, .inr goes⟩
    obtain ⟨entity | ⟨d, single⟩, goes⟩ := part
    · obtain ⟨last, entity⟩ := entity.terminator sign
      exact .inr ⟨last, _, _, entity, rfl⟩
    · obtain ⟨rfl, rfl, rfl⟩ : x = [] ∧ c = d ∧ y = [] := by
        cases x with
        | nil => simpa using single
        | cons e x => simp at single
      rcases goes with rfl | goes
      · exact .inl rfl
      · exact absurd sign (goes c rfl)

theorem Worded.tail {w : Text} (h : Worded w) : '?' ∉ w.tail := by
  intro mark
  cases w with
  | nil => cases mark
  | cons d w =>
      obtain ⟨u, v, rfl⟩ := List.append_of_mem mark
      rcases h.terminator (u := d :: u) rfl (by decide) with none | ⟨other, -⟩
      · cases none
      · exact absurd other (by decide)

/-- What may follow a word. -/
def ending : Pattern := optional (">" ++ group 3 (span letterFold)) ++ stop

theorem ending_at_terminator {bound : Nat} {s : Progress} {c : Char} (first : s.ahead.head? = some c) (sign : c ∈ terminators) :
    ending.attempt bound some s ≠ none := by
  obtain ⟨b, ahead, n, gs⟩ := s
  cases ahead with
  | nil => cases first
  | cons d ahead =>
      obtain rfl : d = c := Option.some.inj first
      have ends : (isSpace d || anyOf ",;:.?!" d) = true := Bool.or_eq_true_iff.2 (.inr (List.contains_iff_mem.2 sign))
      have stopped : stop.attempt bound some ⟨b, d :: ahead, n, gs⟩ = some ⟨b, d :: ahead, n, gs⟩ := by
        have passes : (one fun c => isSpace c || anyOf ",;:.?!" c).attempt bound some ⟨b, d :: ahead, n, gs⟩ =
            some ⟨some d, ahead, n + 1, gs⟩ := if_pos ends
        change (if ((prefer true (fun _ => prefer true (fun _ =>
          (one fun c => isSpace c || anyOf ",;:.?!" c).attempt bound some ⟨b, d :: ahead, n, gs⟩) _) _).isSome == true) = true
            then _ else _) = _
        rw [passes]
        rfl
      have reads : ending.attempt bound some ⟨b, d :: ahead, n, gs⟩ = prefer true
          (fun _ => (">" ++ group 3 (span letterFold) : Pattern).attempt bound (stop.attempt bound some)
            ⟨b, d :: ahead, n, gs⟩)
          (fun _ => stop.attempt bound some ⟨b, d :: ahead, n, gs⟩) := rfl
      rw [reads, stopped, prefer, if_pos rfl]
      split <;> simp

/-- A word goes on with no part that begins with a sign that ends it. -/
theorem word_attempt {bound : Nat} {next : Progress → Option Progress} {s t : Progress}
    (stops : ∀ s c, s.ahead.head? = some c → c ∈ terminators → next s ≠ none) (h : word.attempt bound next s = some t) :
    ∃ w r, s.ahead = w ++ r ∧ Worded w ∧ next (passed s w r []) = some t := by
  have part (next : Progress → Option Progress) (s : Progress) (e : wordPart.attempt bound next s = some t) :
      ∃ w r, s.ahead = w ++ r ∧ IsPart w ∧ next (passed s w r []) = some t := by
    obtain ⟨w, r, gs, ahead, takes, e⟩ := attempt_takes bound _ _ _ _ e
    obtain ⟨plain, part⟩ := wordPart_takes takes
    obtain rfl := List.map_eq_nil_iff.1 plain
    exact ⟨w, r, ahead, part, e⟩
  obtain ⟨first, r, ahead, one, e⟩ := part _ s h
  obtain ⟨parts, r', behind, others, e'⟩ := repeatFrom_lazy part stops bound _ e
  have split : r = parts.flatten ++ r' := behind
  refine ⟨first ++ parts.flatten, r', by rw [ahead, split, List.append_assoc], .inr ⟨first, parts, rfl, one, others⟩, ?_⟩
  rwa [passed_passed] at e'

/-- An item may end before this text. -/
def Stops (r : Text) : Prop := ∀ c ∈ r.head?, isSpace c = true ∨ c ∈ (",;:.?!<" : Text)

/-- The parts of an item: what stands before the mark, the mark, the word and what closes it. -/
structure Parts (mark : Pattern) (b : Option Char) (t : Text) (m : Match) (s v w z r : Text) : Prop where
  whole : t = s ++ (v ++ (w ++ (z ++ r)))
  text_eq : m.text = s ++ (v ++ (w ++ z))
  before : start.Takes b s (v ++ (w ++ (z ++ r))) []
  mark : ∃ b' r', mark.Takes b' v r' []
  first : m.group 1 = s
  word : m.group 2 = w
  worded : Worded w
  unmarked : '?' ∉ z
  stops : Stops r

theorem ending_takes {b : Option Char} {z r : Text} {gs : List (Nat × Text)}
    (h : ending.Takes b z r gs) : '?' ∉ z ∧ ∀ i ≠ 3, gs.lookup i = none := by
  refine ⟨fun mark => absurd (h.admits mark) (by decide), fun i other => ?_⟩
  obtain ⟨_, _, _, _, -, rfl, optional, -, rfl⟩ := h
  rcases optional with ⟨_, _, _, _, -, rfl, hbracket, _, ⟨-, -, rfl⟩, rfl⟩ | ⟨-, rfl⟩
  · obtain rfl := hbracket.groups_eq_nil rfl
    rw [List.nil_append, List.append_nil, List.lookup_cons, beq_eq_false_iff_ne.2 other]
    rfl
  · rfl

variable {mark : Pattern} {bound : Nat} {b : Option Char} {t : Text} {m : Match} {n : Nat}

/-- What an attempt at an ending passes, and where it stops. -/
theorem ending_attempt {s p : Progress} (e : ending.attempt bound some s = some p) : ∃ z r gs, s.ahead = z ++ r ∧
    ending.Takes s.before z r (gs.map recorded) ∧ passed s z r gs = p ∧ Stops r := by
  obtain ⟨z, r, gs, behind, takes, e⟩ := attempt_takes bound (optional (">" ++ group 3 (span letterFold))) _ s p e
  have stopped : stop.attempt bound some (passed s z r gs) = some p := e
  let stops : Pattern := one (fun c => isSpace c || anyOf ",;:.?!" c) ||| lineEnd ||| "</" ++ few1 inLine ++ ">"
  change (if ((stops.attempt bound some (passed s z r gs)).isSome == true) = true then some (passed s z r gs) else none) = some p
    at stopped
  split at stopped
  · rename_i ends
    obtain ⟨q, ends⟩ := Option.isSome_iff_exists.1 (beq_iff_eq.1 ends)
    obtain ⟨w, r', _, ahead, found, -⟩ := attempt_takes bound stops _ _ q ends
    have split : r = w ++ r' := ahead
    have whole : ending.Takes s.before z r (gs.map recorded) := ⟨z, [], _, _, (List.append_nil z).symm, rfl, takes, rfl, rfl⟩
    refine ⟨z, r, gs, behind, whole, Option.some.inj stopped, fun c hc => ?_⟩
    rcases found with (⟨d, sign, rfl, -⟩ | ⟨rfl, line, -⟩) | ⟨_, _, _, _, rfl, -, ⟨_, _, _, _, rfl, -, slash, -⟩, -⟩
    · rw [split] at hc
      obtain rfl : d = c := Option.some.inj hc
      rcases Bool.or_eq_true_iff.1 sign with space | listed
      · exact .inl space
      · exact .inr (List.mem_append_left ['<'] (List.contains_iff_mem.1 listed : d ∈ (",;:.?!" : Text)))
    · have newline : c = '\n' := by
        have atEnd : r'.head?.all (· == '\n') = true := line
        rw [List.nil_append] at split
        rw [← split, show r.head? = some c from hc] at atEnd
        simpa using atEnd
      exact .inl (newline ▸ rfl)
    · obtain ⟨rfl, -⟩ := takes_literal.1 slash
      rw [split] at hc
      obtain rfl : '<' = c := Option.some.inj hc
      exact .inr (by decide)
  · cases stopped

/-- Behind a word that may be remembered, the ending completes the match. -/
theorem Parts.of_ending {s v w r : Text} {gs gs' : List (Nat × Text × Nat)} {p : Progress}
    (ahead : t = s ++ v ++ (w ++ r)) (hstart : start.Takes b s (v ++ (w ++ r)) [])
    (hmark : ∃ b' r', mark.Takes b' v r' []) (worded : Worded w)
    (first : gs.map recorded = [(1, s)]) (other : (gs'.map recorded).lookup 1 = none)
    (second : ((gs'.map recorded).lookup 2).getD [] = w)
    (e : ending.attempt bound some ⟨(s ++ v ++ w).getLast?.or b, r, (s ++ v ++ w).length, gs' ++ gs⟩ = some p)
    (hm : (⟨t.take p.passed, p.groups.map recorded⟩, p.passed) = (m, n)) :
    ∃ z r, Parts mark b t m s v w z r := by
  obtain ⟨z, r, gs₃, behind, takes, rfl, stops⟩ := ending_attempt e
  obtain ⟨unmarked, apart⟩ := ending_takes takes
  obtain rfl := behind
  have whole : t = (s ++ v ++ w ++ z) ++ r := by simp [ahead]
  have text_eq : m.text = s ++ v ++ w ++ z := by
    rw [← (Prod.mk.inj hm).1, whole]
    exact List.take_left' (by simp [passed, Nat.add_assoc])
  have groups : m.groups = gs₃.map recorded ++ (gs'.map recorded ++ [(1, s)]) := by
    rw [← (Prod.mk.inj hm).1, ← first, ← List.map_append, ← List.map_append]
    rfl
  have absent : ([(1, s)] : List (Nat × Text)).lookup 2 = none := rfl
  refine ⟨z, r, by simp [whole], by simp [text_eq], hstart, hmark, ?_, ?_, worded, unmarked, stops⟩
  · rw [Match.group_eq groups, List.lookup_append, apart 1 (by decide), List.lookup_append, other]
    rfl
  · rw [Match.group_eq groups, List.lookup_append, apart 2 (by decide), List.lookup_append]
    simpa [absent] using second

theorem matchAt_parts (plain : mark.groupless = true)
    (h : (pattern mark).matchAt bound 0 b t = some (m, n)) : ∃ s v w z r, Parts mark b t m s v w z r := by
  simp only [matchAt, Nat.zero_le, if_true] at h
  obtain ⟨p, hp, hm⟩ := Option.map_eq_some_iff.1 h
  obtain ⟨_, r, gs, ahead, takes, e⟩ := attempt_takes bound (group 1 start ++ mark) _ _ p hp
  obtain ⟨s, v, _, _, rfl, first, ⟨_, hstart, rfl⟩, hmark⟩ := takes
  obtain rfl := hmark.groups_eq_nil plain
  obtain rfl := hstart.groups_eq_nil rfl
  let begun : Progress := passed ⟨b, t, 0, []⟩ (s ++ v) r gs
  rcases prefer_eq_some e with worded | bare
  · have worded : word.attempt bound (fun u => ending.attempt bound some (u.close begun 2)) begun = some p :=
      worded
    obtain ⟨w, r', behind, found, e⟩ := word_attempt
      (fun u c first sign => ending_at_terminator (s := u.close begun 2) first sign) worded
    obtain rfl : r = w ++ r' := behind
    have closed : (passed begun w r' []).close begun 2 =
        ⟨(s ++ v ++ w).getLast?.or b, r', (s ++ v ++ w).length, [(2, w ++ r', w.length)] ++ gs⟩ := by
      simp [Progress.close, passed, begun, List.getLast?_append, Option.or_assoc, ← Nat.add_assoc]
    obtain ⟨z, r, parts⟩ := Parts.of_ending ahead hstart ⟨_, _, hmark⟩ found first (by rfl) (by simp [recorded])
      (closed ▸ e) hm
    exact ⟨s, v, w, z, r, parts⟩
  · have bare : ending.attempt bound some begun = some p := bare
    have same : begun = ⟨(s ++ v ++ []).getLast?.or b, r, (s ++ v ++ []).length, [] ++ gs⟩ := by
      simp [passed, begun]
    rw [same] at bare
    obtain ⟨z, r, parts⟩ := Parts.of_ending ahead hstart ⟨_, _, hmark⟩ (.inl rfl) first (by rfl) (by rfl) bare hm
    exact ⟨s, v, [], z, r, parts⟩

/-! ## The tokens of a match -/

/-- Behind the start of a key, three question marks only stand at its end. -/
theorem eq_nil_of_key {y k mid : Text} (hy : y ≠ []) (hmid : mid ≠ []) (unmarked : '?' ∉ mid)
    (key : '?' :: '?' :: '?' :: (mid ++ ['?', '?', '?']) = y ++ '?' :: '?' :: '?' :: k) : k = [] := by
  obtain ⟨c, mid, rfl⟩ := List.exists_cons_of_ne_nil hmid
  have first : c ≠ '?' := fun e => unmarked (e ▸ List.mem_cons_self)
  match y, key with
  | [_], key =>
      simp at key
      exact absurd key.2.1 first
  | [_, _], key =>
      simp at key
      exact absurd key.2.2.1 first
  | _ :: _ :: _ :: y, key =>
      have inner : c :: mid ++ ['?', '?', '?'] = y ++ '?' :: '?' :: '?' :: k :=
        (List.cons.inj (List.cons.inj (List.cons.inj key).2).2).2
      rcases List.append_eq_append_iff.1 inner with ⟨a, rfl, e⟩ | ⟨a, split, e⟩
      · cases a with
        | nil => simpa using e
        | cons d a =>
            have length := congrArg List.length e
            simp at length
            omega
      · cases a with
        | nil => simpa using e.symm
        | cons d a =>
            obtain ⟨rfl, -⟩ := List.cons.inj e
            exact absurd (by simp [split]) unmarked

/-- Between its first three question marks and its last three, a key has none. -/
theorem key_eq (w : Ward) : ∃ mid, w.key = '?' :: '?' :: '?' :: (mid ++ ['?', '?', '?']) ∧ mid ≠ [] ∧
    '?' ∉ mid := by
  obtain ⟨c, s, pads, coded, -, letters, -⟩ := Warden.code_eq w.held
  refine ⟨Text.decimal w.number ++ Warden.code w.data, by simp [Ward.key, Warden.keyFor, Warden.delimiter],
    by simp [coded], ?_⟩
  rw [coded]
  intro mark
  rcases List.mem_append.1 mark with mark | mark
  · exact absurd (Warden.isDigit_of_mem_decimal _ mark) (by decide)
  · rcases List.mem_append.1 mark with mark | mark
    · exact absurd (letters _ mark) (by decide)
    · exact absurd (List.eq_of_mem_replicate mark) (by decide)

/-- What is left of a key does not reach beyond three question marks before another character. -/
theorem exists_lead {w : Ward} {y k t r : Text} {c : Char} (key : w.key = y ++ k) (hy : y ≠ [])
    (ahead : k ++ t = '?' :: '?' :: '?' :: c :: r) : ∃ u, ['?', '?', '?'] = k ++ u ∧ t = u ++ c :: r := by
  rcases List.append_eq_append_iff.1 (show k ++ t = ['?', '?', '?'] ++ c :: r from ahead) with
    ⟨a, e, rfl⟩ | ⟨a, rfl, e⟩
  · exact ⟨a, e, rfl⟩
  · cases a with
    | nil => exact ⟨[], by simp, e.symm⟩
    | cons d a =>
        obtain ⟨mid, whole, full, unmarked⟩ := key_eq w
        rw [whole] at key
        have none := eq_nil_of_key hy full unmarked key
        cases none

/-- Question marks before a character that is no digit are no part of a key. -/
theorem split_marks {d : Draft} {u r : Text} {c : Char} (marks : ∀ a ∈ u, a = '?') (ne : c ≠ '?')
    (digit : c.isDigit = false) (h : text d = u ++ c :: r) : ∃ e, d = chars u ++ e ∧ text e = c :: r := by
  induction u generalizing d with
  | nil => exact ⟨d, rfl, h⟩
  | cons a u ih =>
      obtain ⟨rfl, others⟩ := List.forall_mem_cons.1 marks
      cases d with
      | nil => cases h
      | cons y d =>
          cases y with
          | char b =>
              obtain ⟨rfl, behind⟩ := List.cons.inj h
              obtain ⟨e, rfl, he⟩ := ih others behind
              exact ⟨e, rfl, he⟩
          | ward w =>
              -- The fourth character of the key would be a question mark or the character.
              obtain ⟨x, t, key, number⟩ := keyFor_eq w
              rw [text_cons, Token.text, key] at h
              rcases u with _ | ⟨_, _ | ⟨_, _ | ⟨y, u⟩⟩⟩
              · simp at h
                exact absurd h.1.symm ne
              · simp at h
                exact absurd h.2.1.symm ne
              · simp at h
                rw [h.2.2.1, digit] at number
                cases number
              · simp at h
                rw [h.2.2.1, others y (by simp)] at number
                cases number

/-- A word with no question mark but at its start shows no ward if none stands where it begins. -/
theorem split_word {d : Draft} {w r : Text} (tail : '?' ∉ w.tail) (h : text d = w ++ r)
    (plain : ∀ x e, d ≠ .ward x :: e) : ∃ e, d = chars w ++ e ∧ text e = r := by
  cases w with
  | nil => exact ⟨d, rfl, h⟩
  | cons c w =>
      cases d with
      | nil => cases h
      | cons y d =>
          cases y with
          | char b =>
              obtain ⟨rfl, behind⟩ := List.cons.inj h
              obtain ⟨e, rfl, he⟩ := split_left behind tail
              exact ⟨e, rfl, he⟩
          | ward x => exact absurd rfl (plain x d)

/-- The mark of an item: a word of the hazard that no key begins with. -/
structure IsMark (mark : Pattern) (h : Hazard (Option Char)) : Prop where
  groupless : mark.groupless = true
  passes : mark.passes = true
  unmarked : mark.admits '?' = false
  begins : ∀ b v r gs, mark.Takes b v r gs → ∃ c v', v = c :: v' ∧ c.isDigit = false
  shown : ∀ b v r gs, mark.Takes b v r gs → Matches h (v.map some)

/-- The tokens of an item. Behind what is left of a key there is no ward in it. -/
structure Shows (mark : Pattern) (past : Draft) (k : Text) (m : Match) (old : Draft) (u v w z : Text) : Prop where
  tokens : old = chars (u ++ (v ++ (w ++ z)))
  text_eq : m.text = k ++ text old
  first : m.group 1 = k ++ u
  word : m.group 2 = w
  mark : ∃ b r, mark.Takes b v r []
  /-- Before the mark stands a question mark, or what is part of no key. -/
  clear : u.getLast? = some '?' ∨ ∀ y ∈ (past ++ chars u).getLast?, y.letter? ∈ [none, some '\n', some ' ', some '>']

variable {h : Hazard (Option Char)} {whole past d : Draft} {x k : Text}

/-- What stands before the mark shows no ward. -/
theorem exists_before {s ahead : Text} {c : Char} (spot : Spot ((pattern mark).matchAt bound 0) whole past x k d)
    (before : start.Takes x.getLast? s (c :: ahead) []) (ne : c ≠ '?') (digit : c.isDigit = false)
    (split : k ++ text d = s ++ c :: ahead) : ∃ u e, s = k ++ u ∧ d = chars u ++ e ∧ text e = c :: ahead ∧
      (u.getLast? = some '?' ∨
        ∀ y ∈ (past ++ chars u).getLast?, y.letter? ∈ [none, some '\n', some ' ', some '>']) := by
  have sharpAt (sharp : Sharp x.getLast? (s ++ c :: ahead)) : k = [] ∧ text past = x := by
    obtain rfl := spot.nil_of_sharp (split ▸ sharp)
    exact ⟨rfl, by rw [spot.passed, List.append_nil]⟩
  rcases before with (line | sign) | marks
  · obtain ⟨rfl, rfl⟩ := sharpAt (Opens.lineStart _ _ _ _ line)
    obtain ⟨rfl, newline, -⟩ := line
    refine ⟨[], d, rfl, rfl, split, .inr fun y hy => ?_⟩
    cases y with
    | ward => exact List.mem_cons_self
    | char b =>
        obtain ⟨q, rfl⟩ := List.getLast?_eq_some_iff.1 (show past.getLast? = some (.char b) by simpa [chars] using hy)
        have last : (b == '\n') = true := by simpa [Token.text] using newline
        simp [Token.letter?, beq_iff_eq.1 last]
  · obtain ⟨b, listed, rfl, -⟩ := sign
    have either : b = ' ' ∨ b = '>' := by simpa [anyOf] using listed
    have apart : Warden.isKeyChar b = false := by rcases either with rfl | rfl <;> rfl
    obtain ⟨rfl, rfl⟩ := sharpAt (.inr (by simpa using apart))
    have noMark : '?' ∉ [b] := by rcases either with rfl | rfl <;> decide
    obtain ⟨e, rfl, he⟩ := split_left split noMark
    refine ⟨[b], e, rfl, rfl, he, .inr fun y hy => ?_⟩
    obtain rfl : y = .char b := by simpa [chars, eq_comm] using hy
    rcases either with rfl | rfl <;> decide
  · obtain ⟨rfl, -⟩ := takes_literal.1 marks
    have lead : ∃ u, ['?', '?', '?'] = k ++ u ∧ text d = u ++ c :: ahead ∧
        (u = [] → ∃ q w, past = q ++ [.ward w]) := by
      by_cases hk : k = []
      · subst hk
        exact ⟨['?', '?', '?'], rfl, split, by simp⟩
      · obtain ⟨q, w, y, rfl, key, hy, -⟩ := spot.inside hk
        obtain ⟨u, hu, behind⟩ := exists_lead key hy split
        exact ⟨u, hu, behind, fun _ => ⟨q, w, rfl⟩⟩
    obtain ⟨u, hu, behind, bare⟩ := lead
    have marks : ∀ a ∈ u, a = '?' := fun a ha =>
      List.eq_of_mem_replicate (n := 3) (hu ▸ List.mem_append_right k ha : a ∈ ['?', '?', '?'])
    obtain ⟨e, rfl, he⟩ := split_marks marks ne digit behind
    refine ⟨u, e, hu, rfl, he, ?_⟩
    by_cases empty : u = []
    · subst empty
      obtain ⟨q, w, rfl⟩ := bare rfl
      refine .inr fun y hy => ?_
      obtain rfl : y = .ward w := by simpa [chars, eq_comm] using hy
      exact List.mem_cons_self
    · rw [List.getLast?_eq_some_getLast empty, marks _ (List.getLast_mem empty)]
      exact .inl rfl

/-- The tokens of a match: none of its wards are taken with it. -/
theorem exists_tokens (hm : IsMark mark h)
    (quiet : ∀ q v w e, whole = q ++ chars v ++ .ward w :: e → ¬ Matches h (v.map some))
    (spot : Spot ((pattern mark).matchAt bound 0) whole past x k d)
    (found : (pattern mark).matchAt bound 0 x.getLast? (k ++ text d) = some (m, n)) :
    ∃ u v w z old rest, d = old ++ rest ∧ Shows mark past k m old u v w z := by
  obtain ⟨s, v, w, z, r, parts⟩ := matchAt_parts hm.groupless found
  obtain ⟨_, _, takes⟩ := parts.mark
  obtain ⟨c, v, rfl, digit⟩ := hm.begins _ _ _ _ takes
  have noMark : '?' ∉ c :: v := fun mark => by
    have admitted := takes.admits mark
    rw [hm.unmarked] at admitted
    cases admitted
  have ne : c ≠ '?' := fun e => noMark (e ▸ List.mem_cons_self)
  obtain ⟨u, e, rfl, rfl, ahead, clear⟩ := exists_before spot parts.before ne digit parts.whole
  obtain ⟨e, rfl, behind⟩ := split_left (t := c :: v) ahead noMark
  have plain : ∀ x e', e ≠ .ward x :: e' := by
    rintro x e' rfl
    refine quiet (past ++ chars u) (c :: v) x e' ?_ (hm.shown _ _ _ _ takes)
    rw [spot.whole]
    simp
  obtain ⟨e, rfl, last⟩ := split_word parts.worded.tail behind plain
  obtain ⟨rest, rfl, -⟩ := split_left last parts.unmarked
  refine ⟨u, c :: v, w, z, _, rest, ?_, rfl, ?_, parts.first, parts.word, parts.mark, clear⟩
  · simp only [chars_append, List.append_assoc]
  · rw [text_chars, parts.text_eq, List.append_assoc]

end LessonText.Item

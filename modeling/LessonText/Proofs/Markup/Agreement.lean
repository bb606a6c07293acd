import LessonText.Proofs.Markup.OneLine
import LessonText.Proofs.Pattern.Framed
import LessonText.Proofs.Text.Tags

/-! # A document of one line is its spans in a paragraph

The tags around a paragraph change nothing for the rules of spans, for the cleaning up and for the keys that are put
back. So both ways to render a text of one line that begins with a letter agree.
-/

namespace LessonText

open Pattern Unicode

/-! ## Span rules inside a paragraph -/

namespace Span

@[simp] theorem direct_optional {p : Pattern} : (optional p).Direct ↔ p.Direct := ⟨fun h => h.1, fun h => ⟨h, trivial⟩⟩

theorem scheme_direct : scheme.Direct := by simp [scheme]

theorem reference_direct : reference.Direct := by simp [reference, scheme_direct]

theorem openBracket_direct : openBracket.Direct := by simp [openBracket]

theorem mailAddress_direct : mailAddress.Direct := by
  have advances : (literal ['.'] ++ span1 isHostChar).Advances := .of_passes rfl
  simp [mailAddress, many1, advances]

theorem rules_direct : ∀ r ∈ rules, r.pattern.Direct := by
  have emphasised (sign : Char) (count : Nat) (tags : List Text) : ∀ r ∈ emphasis sign count tags, r.pattern.Direct := by
    simp [emphasis, fewest]
  simp only [rules, List.forall_mem_append, List.forall_mem_cons]
  refine ⟨⟨⟨⟨⟨⟨⟨?_, ?_, ?_, ?_, ?_, ?_, by simp⟩, emphasised _ _ _⟩, emphasised _ _ _⟩, emphasised _ _ _⟩,
    emphasised _ _ _⟩, emphasised _ _ _⟩, emphasised _ _ _⟩
  · simp [equation, guarded, few1]
  · simp [image, guarded, reference_direct]
  · simp [link, reference_direct]
  · simp [autoLink, guarded, openBracket_direct, scheme_direct]
  · simp [mailLink, guarded, openBracket_direct, mailAddress_direct]
  · simp [code, guarded, some1, fewest]

theorem autoLink_misses {b : Option Char} {c : Char} {t : Text} (other : c ≠ 'h') :
    autoLink.pattern.Misses b ('<' :: c :: t) := by
  rintro w r gs split ⟨_, _, _, _, rfl, -, ⟨_, _, _, _, rfl, -, hopening, _, haddress, -⟩, -⟩
  obtain ⟨isAddress, -⟩ := scheme_takes haddress
  obtain ⟨behind, http⟩ := isAddress.begins
  rcases (openBracket_takes hopening).1 with rfl | rfl
  · cases split
  · rw [← http] at split
    exact other (List.cons.inj (List.cons.inj split).2).1

theorem mailLink_misses {b : Option Char} (mailbox : Text) {t : Text} {c : Char} (inside : ∀ d ∈ mailbox, isMailboxChar d = true)
    (stops : isMailboxChar c = false) (other : c ≠ '@') : mailLink.pattern.Misses b ('<' :: (mailbox ++ c :: t)) := by
  rintro w r gs split ⟨_, _, _, _, rfl, -, ⟨_, _, _, _, rfl, -, hopening, _, haddress, -⟩, -⟩
  obtain ⟨mailbox', rest, rfl, inside'⟩ := mailAddress_takes haddress
  rcases (openBracket_takes hopening).1 with rfl | rfl
  · cases split
  · have first := Warden.takeWhile_stop t inside stops
    obtain ⟨behind, same⟩ : ∃ behind, mailbox ++ c :: t = mailbox' ++ '@' :: behind :=
      ⟨_, by simpa [List.append_assoc] using (List.cons.inj split).2⟩
    rw [same, Warden.takeWhile_stop _ inside' rfl] at first
    subst first
    exact other (List.cons.inj (List.append_cancel_left same)).1

/-- A pattern that matches at no bracket of a paragraph's tags, and begins with no other character of them. -/
theorem frames_of {p : Pattern} (direct : p.Direct) (passes : p.passes = true)
    (steady : (p.steady "</p>\n\n" false).isSome = true) (begins : ("\n/p>" : Text).all (fun c => !p.mayBegin c) = true)
    (brackets : ∀ b t, p.Misses b ('<' :: 'p' :: '>' :: t) ∧ p.Misses b ('<' :: '/' :: t)) :
    p.Frames "\n\n<p>" "</p>\n\n" := by
  have advances : p.Advances := .of_passes passes
  have none {w t : Text} {b : Option Char} (h : w ⊆ "\n/p>") : p.Passes b w t := by
    refine .of_begin advances fun c hc => ?_
    simpa using List.all_eq_true.1 begins c (h hc)
  have front : ("\n\n<p>" : Text) = "\n\n" ++ '<' :: "p>" := rfl
  have back : ("</p>\n\n" : Text) = '<' :: "/p>\n\n" := rfl
  refine ⟨direct, advances, steady, fun t => ?_, fun b => ?_⟩
  · rw [front]
    exact .append (none (by simp)) (.cons (brackets _ t).1 (none (by simp)))
  · rw [back]
    exact .cons (brackets b "p>\n\n").2 (none (by simp))

theorem rules_frames : ∀ r ∈ rules, r.pattern.Frames "\n\n<p>" "</p>\n\n" := by
  have steady : ∀ r ∈ rules, (r.pattern.steady "</p>\n\n" false).isSome = true := by
    rw [← List.all_eq_true]
    rfl
  have passes : ∀ r ∈ rules, r.pattern.passes = true := by
    rw [← List.all_eq_true]
    rfl
  have begins : ∀ r ∈ rules, ("\n/p>" : Text).all (fun c => !r.pattern.mayBegin c) = true := by
    rw [← List.all_eq_true]
    decide
  have brackets : ∀ r ∈ rules, ∀ b t, r.pattern.Misses b ('<' :: 'p' :: '>' :: t) ∧
      r.pattern.Misses b ('<' :: '/' :: t) := by
    have other {p : Pattern} (passes : p.passes = true) (h : p.mayBegin '<' = false) (b : Option Char) (t : Text) :
        p.Misses b ('<' :: 'p' :: '>' :: t) ∧ p.Misses b ('<' :: '/' :: t) :=
      ⟨.of_begin (.of_passes passes) h, .of_begin (.of_passes passes) h⟩
    simp only [rules, emphasis, List.forall_mem_append, List.forall_mem_cons]
    refine ⟨⟨⟨⟨⟨⟨⟨other rfl rfl, other rfl rfl, other rfl rfl, ?_, ?_, other rfl rfl, by simp⟩, ?_⟩, ?_⟩, ?_⟩, ?_⟩,
      ?_⟩, ?_⟩
    · exact fun b t => ⟨autoLink_misses (by decide), autoLink_misses (by decide)⟩
    · exact fun b t => ⟨mailLink_misses "p" (by decide) rfl (by decide),
        mailLink_misses [] (by simp) rfl (by decide)⟩
    all_goals exact ⟨other rfl rfl, other rfl rfl, by simp⟩
  exact fun r hr => frames_of (rules_direct r hr) (passes r hr) (steady r hr) (begins r hr) (brackets r hr)

end Span

/-! ## Lines around a paragraph -/

theorem Pattern.eq_of_runs (accepts : Char → Bool) {w r w' r' : Text} (split : w ++ r = w' ++ r')
    (hw : ∀ c ∈ w, accepts c = true) (hr : ∀ c ∈ r.head?, accepts c = false) (hw' : ∀ c ∈ w', accepts c = true)
    (hr' : ∀ c ∈ r'.head?, accepts c = false) : w = w' := by
  have first {v s : Text} (hv : ∀ c ∈ v, accepts c = true) (hs : ∀ c ∈ s.head?, accepts c = false) :
      (v ++ s).takeWhile accepts = v := by
    rw [List.takeWhile_append_of_pos hv]
    cases s with
    | nil => simp
    | cons c s => simp [hs c rfl]
  rw [← first hw hr, split, first hw' hr']

/-- The whole of a match that a direct pattern finds, if only one text ahead is as it describes. -/
theorem Rule.applyFrom_only {r : Rule} (direct : r.pattern.Direct) {bound : Nat} {b : Option Char} {w t : Text}
    {gs : List (Nat × Text)} (full : w ≠ []) (takes : r.pattern.Takes b w t gs)
    (only : ∀ w' t' gs', w ++ t = w' ++ t' → r.pattern.Takes b w' t' gs' → w' = w) (inside : (w ++ t).length ≤ bound) :
    ∃ m : Match, m.text = w ∧ r.pattern.Takes b w t m.groups ∧ r.applyFrom bound b (w ++ t) = do
      let replacement ← r.replace m
      return replacement ++ (← r.applyFrom bound (w.getLast?.or b) t) := by
  obtain ⟨⟨m, n⟩, found⟩ := Option.isSome_iff_exists.1 (matchAt_isSome direct inside takes)
  obtain ⟨t', split, rfl, -, takes'⟩ := matchAt_takes found
  have same := only _ _ _ split takes'
  rw [same] at takes' found split
  obtain rfl := List.append_cancel_left split
  exact ⟨m, same, takes', applyFrom_found full found⟩

namespace Block

theorem emptyLines_two (bound : Nat) {b : Option Char} {t : Text} (stops : ∀ c ∈ t.head?, c ≠ '\n')
    (inside : ("\n\n" ++ t).length ≤ bound) :
    emptyLines.applyFrom bound b ("\n\n" ++ t) = (fun u : Text => "\n\n" ++ u) <$>
      emptyLines.applyFrom bound (some '\n') t := by
  have other : ∀ c ∈ t.head?, (c == '\n') = false := fun c hc => beq_false_of_ne (stops c hc)
  have takes : emptyLines.pattern.Takes b "\n\n" t [] :=
    ⟨"\n", "\n", [], [], rfl, rfl, takes_literal.2 ⟨rfl, rfl⟩, takes_span1.2 ⟨by simp, by simp, other, rfl⟩⟩
  have only : ∀ w' t' gs', "\n\n" ++ t = w' ++ t' → emptyLines.pattern.Takes b w' t' gs' → w' = "\n\n" := by
    rintro w' t' gs' split ⟨_, _, _, _, rfl, -, newline, more⟩
    obtain ⟨rfl, -⟩ := takes_literal.1 newline
    obtain ⟨-, newlines, stops', -⟩ := takes_span1.1 more
    refine eq_of_runs (· == '\n') split.symm ?_ stops' (by simp) other
    exact List.forall_mem_cons.2 ⟨rfl, newlines⟩
  obtain ⟨m, -, -, all⟩ := Rule.applyFrom_only (r := emptyLines) ⟨direct_literal, direct_span1⟩ (by simp) takes only inside
  rw [all]
  simp [emptyLines, Rule.ofRewrite]

/-- Two line ends on both sides of a line stay. -/
theorem emptyLines_apply {x : Text} (full : x ≠ []) (single : '\n' ∉ x) :
    emptyLines.apply ("\n\n" ++ x ++ "\n\n") = pure ("\n\n" ++ x ++ "\n\n") := by
  have advances : emptyLines.pattern.Advances := .of_passes rfl
  have passes : emptyLines.pattern.Passes (some '\n') x "\n\n" := by
    refine .of_begin advances fun c hc => ?_
    have other : (c == '\n') = false := beq_false_of_ne fun same => single (same ▸ hc)
    show (c == '\n' || false || false) = false
    rw [other]
    rfl
  have stops : ∀ c ∈ (x ++ "\n\n").head?, c ≠ '\n' := by
    obtain ⟨c, rest, rfl⟩ := List.exists_cons_of_ne_nil full
    rintro d hd rfl
    cases hd
    exact single List.mem_cons_self
  have last := emptyLines_two ("\n\n" ++ (x ++ "\n\n")).length (b := x.getLast?.or (some '\n')) (t := [])
    (by simp) (by simp)
  rw [List.append_nil, Rule.applyFrom_nil advances.misses_nil] at last
  rw [Rule.apply_eq, List.append_assoc, emptyLines_two _ stops (Nat.le_refl _), Rule.applyFrom_passes passes, last]
  rfl

end Block

/-! ## Keys around a paragraph -/

namespace Warden

variable {z : Text}

theorem codeLength?_behind (digits t : Text) : codeLength? digits (t ++ '<' :: z) = codeLength? digits t := by
  have sextet : Base64.isSextet '<' = false := rfl
  have pad (u : Text) : (u ++ '<' :: z).takeWhile (· == ':') = u.takeWhile (· == ':') := Text.takeWhile_stops rfl u z
  simp only [codeLength?, Text.takeWhile_stops sextet, Text.dropWhile_stops sextet, pad]

/-- The code of a key, and what follows it. -/
theorem codeLength?_split {digits t : Text} {n : Nat} (h : codeLength? digits t = some n) :
    ∃ u r, t = u ++ r ∧ n = u.length ∧ ∀ c ∈ u, isKeyChar c = true := by
  let behind := t.dropWhile Base64.isSextet
  refine ⟨t.takeWhile Base64.isSextet ++ behind.takeWhile (· == ':'), behind.dropWhile (· == ':'), ?_, ?_, ?_⟩
  · rw [List.append_assoc, List.takeWhile_append_dropWhile, List.takeWhile_append_dropWhile]
  · unfold codeLength? at h
    dsimp only at h
    split at h
    · cases h
    · split at h
      · cases h
      · cases h
        exact List.length_append.symm
  · refine List.forall_mem_append.2 ⟨fun c hc => ?_, fun c hc => ?_⟩
    · rw [isKeyChar, List.mem_takeWhile_imp hc, Bool.or_true]
    · obtain rfl : c = ':' := by simpa using List.mem_takeWhile_imp hc
      rfl

theorem codeLength?_le {digits t : Text} {n : Nat} (h : codeLength? digits t = some n) : n ≤ t.length := by
  obtain ⟨u, r, rfl, rfl, -⟩ := codeLength?_split h
  simp

theorem delimiter_behind (t : Text) : ((t ++ '<' :: z).take 3 == delimiter) = (t.take 3 == delimiter) := by
  rcases t with - | ⟨a, - | ⟨b, - | ⟨c, t⟩⟩⟩ <;> simp [delimiter]

/-- A bracket behind a text is no part of a key in it. -/
theorem findKey_behind (b b' : Option Char) (t : Text) : findKey b (t ++ '<' :: z) = findKey b' t := by
  by_cases marks : ∃ rest, t = '?' :: '?' :: '?' :: rest
  · obtain ⟨rest, rfl⟩ := marks
    have digit : Unicode.isDigit '<' = false := rfl
    have parts := congrArg List.length (List.takeWhile_append_dropWhile (p := Unicode.isDigit) (l := rest))
    rw [List.length_append] at parts
    simp only [findKey, List.cons_append, Text.takeWhile_stops digit, Text.dropWhile_stops digit, codeLength?_behind]
    cases h : codeLength? (rest.takeWhile Unicode.isDigit) (rest.dropWhile Unicode.isDigit) with
    | none => rfl
    | some n =>
        have le := codeLength?_le h
        simp only [Option.bind_eq_bind, Option.bind_some, List.drop_append_of_le_length le, delimiter_behind]
        by_cases closing : (((rest.dropWhile Unicode.isDigit).drop n).take 3 == delimiter) = true
        · have long := congrArg List.length (beq_iff_eq.1 closing)
          simp only [List.length_take, List.length_drop, delimiter] at long
          have inside : (rest.takeWhile Unicode.isDigit).length + n + 6 ≤ ('?' :: '?' :: '?' :: rest).length := by
            simp at long ⊢
            omega
          have taken : ('?' :: '?' :: '?' :: (rest ++ '<' :: z)).take ((rest.takeWhile Unicode.isDigit).length + n + 6) =
              ('?' :: '?' :: '?' :: rest).take ((rest.takeWhile Unicode.isDigit).length + n + 6) :=
            show (('?' :: '?' :: '?' :: rest) ++ '<' :: z).take _ = _ from List.take_append_of_le_length inside
          rw [taken]
        · rw [if_neg closing, if_neg closing]
  · have none {b : Option Char} {u : Text} (h : ¬ ∃ rest, u = '?' :: '?' :: '?' :: rest) : findKey b u = none := by
      rw [← Option.not_isSome_iff_eq_none, Option.isSome_iff_exists]
      rintro ⟨r, found⟩
      obtain ⟨c, u, rfl, -⟩ := Draft.findKey_begins found
      exact h ⟨_, rfl⟩
    rw [none marks, none]
    rintro ⟨rest, e⟩
    rcases t with - | ⟨a, - | ⟨b, - | ⟨c, t⟩⟩⟩ <;> simp at e
    exact marks ⟨t, by simp [e]⟩

theorem recover_append_plain (w : Warden) (ps : List (Piece Text)) (z : Text) :
    (w.recover (ps ++ z.map .plain)).text = (w.recover ps).text ++ z := by
  induction ps generalizing w with
  | nil =>
      induction z with
      | nil => rfl
      | cons c z ih => exact congrArg (c :: ·) ih
  | cons p ps ih =>
      cases p with
      | plain c => exact congrArg (c :: ·) (ih w)
      | found key =>
          exact (congrArg ((w.retrieve key).text ++ ·) (ih _)).trans (List.append_assoc _ _ _).symm

/-- What is found as a key consists of characters of keys. -/
theorem findKey_eq {b : Option Char} {t key : Text} {n : Nat} (h : findKey b t = some (key, n)) :
    ∃ u r, key = '?' :: u ∧ t = key ++ r ∧ n = key.length ∧ ∀ c ∈ key, isKeyChar c = true := by
  unfold findKey at h
  split at h
  · rename_i rest
    dsimp only at h
    split at h
    · cases h
    obtain ⟨length, coded, h⟩ := Option.bind_eq_some_iff.1 h
    split at h
    · rename_i closing
      obtain ⟨code, behind, number, rfl, letters⟩ := codeLength?_split coded
      obtain ⟨rfl, rfl⟩ := Prod.mk.inj (Option.some.inj h)
      rw [number, List.drop_left] at closing
      let digits := rest.takeWhile Unicode.isDigit
      let key := delimiter ++ digits ++ code ++ delimiter
      have whole : '?' :: '?' :: '?' :: rest = key ++ behind.drop 3 := by
        have split : rest = digits ++ (code ++ (behind.take 3 ++ behind.drop 3)) := by
          rw [List.take_append_drop, ← number, List.takeWhile_append_dropWhile]
        rw [split, beq_iff_eq.1 closing]
        simp [key, delimiter]
      have total : digits.length + code.length + 6 = key.length := by
        simp [key, delimiter]
        omega
      have taken : ('?' :: '?' :: '?' :: rest).take (digits.length + code.length + 6) = key := by
        rw [whole, total, List.take_left]
      refine ⟨"??" ++ digits ++ code ++ delimiter, behind.drop 3, taken, taken ▸ whole, taken ▸ total, ?_⟩
      have marks : ∀ c ∈ delimiter, isKeyChar c = true := by decide
      have number : ∀ c ∈ digits, isKeyChar c = true := fun c hc => by
        rw [isKeyChar, List.mem_takeWhile_imp hc, Bool.or_true, Bool.true_or]
      rw [taken]
      exact List.forall_mem_append.2 ⟨List.forall_mem_append.2 ⟨List.forall_mem_append.2 ⟨marks, number⟩, letters⟩, marks⟩
    · cases h
  · cases h

theorem findKey_advances : Finder.Advances findKey := by
  intro b t key n h
  obtain ⟨u, r, rfl, rfl, rfl, -⟩ := findKey_eq h
  exact ⟨by simp, by simp⟩

theorem cutFrom_unmarked {a : Text} (unmarked : '?' ∉ a) (t : Text) (b : Option Char) :
    Text.cutFrom findKey findKey 0 b (a ++ t) =
      a.map .plain ++ Text.cutFrom findKey findKey 0 (a.getLast?.or b) t := by
  refine Text.cutFrom_none fun u v split full => ?_
  rw [← Option.not_isSome_iff_eq_none, Option.isSome_iff_exists]
  rintro ⟨r, found⟩
  obtain ⟨c, v, rfl⟩ := List.exists_cons_of_ne_nil full
  obtain ⟨_, _, begins, -⟩ := Draft.findKey_begins found
  obtain rfl : c = '?' := (List.cons.inj begins).1
  exact unmarked (split ▸ List.mem_append_right u List.mem_cons_self)

/-- The keys inside a paragraph are put back as they are without its tags. -/
theorem reinstate_paragraph (t : Text) (s : Session) : (Rendering.reinstate ("\n<p>" ++ t ++ "</p>\n") s).1 =
    "\n<p>" ++ (Rendering.reinstate t s).1 ++ "</p>\n" := by
  have front := cutFrom_unmarked (a := "\n<p>") (by decide) (t ++ "</p>\n") none
  have back (b : Option Char) : Text.cutFrom findKey findKey 0 b "</p>\n" = ("</p>\n" : Text).map .plain := by
    have all := cutFrom_unmarked (a := "</p>\n") (by decide) [] b
    rwa [List.append_nil] at all
  have pieces : Text.cutFrom findKey findKey 0 (some '>') (t ++ "</p>\n") =
      Text.cutFrom findKey findKey 0 none t ++ ("</p>\n" : Text).map .plain := by
    rw [← back (t.getLast?.or (some '>'))]
    exact Text.cutFrom_append findKey_advances (fun u _ _ b b' => findKey_behind b b' u) (some '>') none
  have plain (w : Warden) (ps : List (Piece Text)) : (w.recover (("\n<p>" : Text).map .plain ++ ps)).text =
      "\n<p>" ++ (w.recover ps).text := rfl
  show (s.warden.recover (Text.cutFrom findKey findKey 0 none ("\n<p>" ++ t ++ "</p>\n"))).text = _
  rw [List.append_assoc, front, plain]
  show _ ++ (s.warden.recover (Text.cutFrom findKey findKey 0 (some '>') (t ++ "</p>\n"))).text = _
  rw [pieces, recover_append_plain, ← List.append_assoc]
  rfl

end Warden

namespace Markup

/-! ## Cleaning up around a paragraph -/

theorem blankLines_takes {b : Option Char} {w r : Text} {gs : List (Nat × Text)}
    (h : blankLines.pattern.Takes b w r gs) : b.all (· == '\n') = true ∧ w ≠ [] ∧ (∀ c ∈ w, isSpace c = true) ∧
      r.head?.all (· == '\n') = true := by
  obtain ⟨_, _, _, _, rfl, -, ⟨_, _, _, _, rfl, -, ⟨rfl, start, -⟩, spaces⟩, rfl, stop, -⟩ := h
  obtain ⟨full, areSpaces, -⟩ := takes_some1.1 spaces
  simpa using ⟨start, full, areSpaces, stop⟩

/-- The one line end at the start of a line that goes: at the end of the text, or before another line end. -/
theorem blankLines_one (bound : Nat) {b : Option Char} {t : Text} (start : b.all (· == '\n') = true)
    (behind : t = [] ∨ ∃ c u, t = '\n' :: c :: u ∧ isSpace c = false) (inside : ("\n" ++ t).length ≤ bound) :
    (Rule.ofRewrite blankLines).applyFrom bound b ("\n" ++ t) =
      (Rule.ofRewrite blankLines).applyFrom bound (some '\n') t := by
  have stop : t.head?.all (· == '\n') = true := by
    rcases behind with rfl | ⟨c, u, rfl, -⟩ <;> rfl
  have takes : blankLines.pattern.Takes b "\n" t [] :=
    ⟨"\n", [], [], [], rfl, rfl, ⟨[], "\n", [], [], rfl, rfl, ⟨rfl, start, rfl⟩,
      takes_some1.2 ⟨by simp, by simp; rfl, rfl⟩⟩, rfl, stop, rfl⟩
  have only : ∀ w' t' gs', "\n" ++ t = w' ++ t' → blankLines.pattern.Takes b w' t' gs' → w' = "\n" := by
    intro w' t' gs' split takes'
    obtain ⟨-, full, spaces, stop'⟩ := blankLines_takes takes'
    obtain ⟨d, v, rfl⟩ := List.exists_cons_of_ne_nil full
    obtain ⟨rfl, later⟩ := List.cons.inj split
    rcases behind with rfl | ⟨c, u, rfl, other⟩
    · rw [(List.append_eq_nil_iff.1 later.symm).1]
      rfl
    · rcases v with - | ⟨d, - | ⟨e, v⟩⟩
      · rfl
      · -- The line end behind would have to be followed by a line end.
        obtain ⟨rfl, rfl⟩ := List.cons.inj later
        obtain rfl : c = '\n' := beq_iff_eq.1 stop'
        cases other
      · obtain ⟨-, later⟩ := List.cons.inj later
        obtain ⟨rfl, -⟩ := List.cons.inj later
        rw [spaces c (by simp)] at other
        cases other
  obtain ⟨m, -, -, all⟩ := Rule.applyFrom_only (r := .ofRewrite blankLines) ⟨⟨trivial, trivial, trivial⟩, trivial⟩
    (by simp) takes only inside
  rw [all]
  simp [blankLines, Rule.ofRewrite]

theorem blankLines_linewise : blankLines.pattern.Linewise := Linewise.lineStart.append.append

/-- Of two line ends on both sides of a line one stays. -/
theorem blankLines_apply {c : Char} {x : Text} (solid : isSpace c = false) (single : '\n' ∉ c :: x) :
    blankLines.apply ("\n\n" ++ (c :: x) ++ "\n\n") = "\n" ++ (c :: x) ++ "\n" := by
  have advances : blankLines.pattern.Advances := .of_passes rfl
  have passes : blankLines.pattern.Passes (some '\n') ('\n' :: c :: (x ++ "\n")) "\n" := by
    refine .cons (fun w r gs split takes => ?_)
      (.cons (fun w r gs split takes => ?_) fun u v split full w r gs _ takes => ?_)
    · obtain ⟨-, full, spaces, stop⟩ := blankLines_takes takes
      rcases w with - | ⟨d, - | ⟨e, w⟩⟩
      · exact full rfl
      · obtain ⟨-, rfl⟩ := List.cons.inj split
        obtain rfl : c = '\n' := beq_iff_eq.1 stop
        cases solid
      · obtain ⟨-, later⟩ := List.cons.inj split
        obtain ⟨rfl, -⟩ := List.cons.inj later
        rw [spaces c (by simp)] at solid
        cases solid
    · obtain ⟨-, full, spaces, -⟩ := blankLines_takes takes
      obtain ⟨d, w, rfl⟩ := List.exists_cons_of_ne_nil full
      obtain ⟨rfl, -⟩ := List.cons.inj split
      rw [spaces c List.mem_cons_self] at solid
      cases solid
    · -- No line starts between the solid character and the end of its line.
      obtain ⟨d, last, mem⟩ : ∃ d, u.getLast?.or (some c) = some d ∧ d ∈ c :: x := by
        cases last : u.getLast? with
        | none => exact ⟨c, rfl, List.mem_cons_self⟩
        | some d =>
            have shorter : u <+: x := by
              obtain ⟨e, v', rfl⟩ := List.exists_cons_of_ne_nil full
              have length := congrArg List.length split
              simp only [List.length_append, List.length_cons] at length
              refine List.prefix_of_prefix_length_le ⟨_, split.symm⟩ (List.prefix_append x _) ?_
              simp at length
              omega
            exact ⟨d, rfl, List.mem_cons_of_mem _ (shorter.subset (List.mem_of_getLast? last))⟩
      have start := (blankLines_takes takes).1
      rw [last] at start
      obtain rfl : d = '\n' := beq_iff_eq.1 start
      exact single mem
  have whole : "\n\n" ++ (c :: x) ++ "\n\n" = "\n" ++ ('\n' :: c :: (x ++ "\n") ++ "\n") := by simp
  have first := blankLines_one ("\n\n" ++ (c :: x) ++ "\n\n").length (b := none)
    (t := '\n' :: c :: (x ++ "\n") ++ "\n") rfl (.inr ⟨c, _, rfl, solid⟩) (by simp)
  have last := blankLines_one ("\n\n" ++ (c :: x) ++ "\n\n").length (b := some '\n') (t := [])
    rfl (.inl rfl) (by simp)
  have ends : ('\n' :: c :: (x ++ "\n")).getLast?.or (some '\n') = some '\n' := by
    simp [List.getLast?_cons]
  have middle : (Rule.ofRewrite blankLines).applyFrom ("\n\n" ++ (c :: x) ++ "\n\n").length (some '\n')
      ('\n' :: c :: (x ++ "\n") ++ "\n") = _ := Rule.applyFrom_passes passes
  rw [← whole] at first
  rw [List.append_nil, Rule.applyFrom_nil advances.misses_nil] at last
  have all : (Rule.ofRewrite blankLines).apply ("\n\n" ++ (c :: x) ++ "\n\n") =
      pure ("\n" ++ (c :: x) ++ "\n") := by
    rw [Rule.apply_eq, first, middle, ends, last, map_pure]
    simp
  rw [Rule.ofRewrite_apply] at all
  exact congrArg (fun f => (f {}).1) all

theorem emptyElement_takes {b : Option Char} {w r : Text} {gs : List (Nat × Text)}
    (h : emptyElement.pattern.Takes b w r gs) : ∃ c name u, w ++ r = '<' :: c :: (name ++ '>' :: u) ∧
      opensBlock c = true ∧ (name = [] ∨ sameLetter 'd' c = true) ∧
      ∃ spaces v, u = spaces ++ '<' :: v ∧ ∀ d ∈ spaces, isSpace d = true := by
  obtain ⟨_, close', _, _, rfl, -, ⟨_, name', _, _, rfl, -, ⟨_, slash, _, _, rfl, -, ⟨_, spaces, _, _, rfl, -,
    ⟨_, close, _, _, rfl, -, ⟨open_, name, _, _, rfl, -, hopen, hname⟩, hclose⟩, hspaces⟩, hslash⟩, -⟩, -⟩ := h
  obtain ⟨rfl, -⟩ := takes_literal.1 hopen
  obtain ⟨rfl, -⟩ := takes_literal.1 hclose
  obtain ⟨rfl, -⟩ := takes_literal.1 hslash
  obtain ⟨areSpaces, -⟩ := hspaces
  rcases hname with hname | hname
  · cases (takes_literalFold.1 hname).1 with
    | @cons _ c _ _ same nothing =>
        cases nothing
        refine ⟨c, [], _, by simp; rfl, Bool.or_eq_true_iff.2 (.inl same), .inl rfl, spaces, _, rfl, areSpaces⟩
  · cases (takes_literalFold.1 hname).1 with
    | @cons _ c _ name same others =>
        exact ⟨c, name, _, by simp; rfl, Bool.or_eq_true_iff.2 (.inr same), .inr same, spaces, _, rfl, areSpaces⟩

/-- Where no bracket opens a block, no element is empty. -/
theorem emptyElement_passes {b : Option Char} {t : Text} (unopened : Unopened t) : emptyElement.pattern.Passes b t [] := by
  rintro u v rfl - w r gs split takes
  obtain ⟨c, name, rest, first, opens, -⟩ := emptyElement_takes takes
  rw [List.append_nil, first] at split
  subst split
  have none : opensBlock c = false := List.isChain_iff_forall_rel_of_append_cons_cons.1 unopened rfl rfl
  rw [opens] at none
  cases none

/-- A paragraph with something in it is not empty. -/
theorem emptyElement_misses {b : Option Char} {c : Char} {t : Text} (solid : isSpace c = false) (other : c ≠ '<') :
    emptyElement.pattern.Misses b ('<' :: 'p' :: '>' :: c :: t) := by
  intro w r gs split takes
  obtain ⟨d, name, u, first, -, short, spaces, v, rfl, areSpaces⟩ := emptyElement_takes takes
  obtain ⟨rfl, later⟩ := List.cons.inj (List.cons.inj (split.trans first)).2
  obtain rfl : name = [] := short.resolve_right (by decide)
  have begins : c :: t = spaces ++ '<' :: v := (List.cons.inj later).2
  cases spaces with
  | nil => exact other (List.cons.inj begins).1
  | cons d spaces =>
      obtain ⟨rfl, -⟩ := List.cons.inj begins
      rw [areSpaces c List.mem_cons_self] at solid
      cases solid

theorem emptyElement_apply {t : Text} (line : SolidLine t) (unopened : Unopened t) :
    emptyElement.apply ("\n<p>" ++ t ++ "</p>\n") = "\n<p>" ++ t ++ "</p>\n" := by
  have advances : emptyElement.pattern.Advances := .of_passes rfl
  have behind : Unopened (t ++ "</p>\n") := unopened.append (by decide) (.inr (by simp; rfl))
  obtain ⟨c, rest, rfl, solid, other⟩ := line.begins
  have front (behind : Text) : emptyElement.pattern.Passes none ('\n' :: '<' :: "p>") (c :: behind) :=
    .cons (.of_begin advances rfl) (.cons (emptyElement_misses solid other) (.of_begin advances (by decide)))
  refine Rewrite.apply_of_passes advances ?_
  rw [show "\n<p>" ++ (c :: rest) ++ "</p>\n" = ('\n' :: '<' :: "p>") ++ (c :: rest ++ "</p>\n") from rfl]
  exact (front _).append (emptyElement_passes behind)

/-- Without blank lines and empty elements there is nothing to clean up. -/
theorem cleanUp_of_passes {t : Text} (lines : blankLines.pattern.Passes none t []) (unopened : Unopened t) : cleanUp t = t := by
  rw [cleanUp, Rewrite.apply_of_passes (.of_passes rfl) lines]
  exact Rewrite.apply_of_passes (.of_passes rfl) (emptyElement_passes unopened)

theorem cleanUp_flat {t : Text} (flat : Flat t) : cleanUp t = t := by
  refine cleanUp_of_passes (blankLines_linewise.passes flat.line.single ?_) flat.unopened
  exact flat.line.misses (.of_passes rfl) (by decide)

/-- Cleaning up takes one line end from each side of a paragraph. -/
theorem cleanUp_solid {t : Text} (line : SolidLine t) (unopened : Unopened t) :
    cleanUp ("\n\n<p>" ++ t ++ "</p>\n\n") = "\n<p>" ++ t ++ "</p>\n" := by
  have lines := blankLines_apply (c := '<') (x := "p>" ++ t ++ "</p>") rfl (by simp [line.single])
  rw [show "\n\n<p>" ++ t ++ "</p>\n\n" = "\n\n" ++ ('<' :: ("p>" ++ t ++ "</p>")) ++ "\n\n" by simp, cleanUp, lines]
  rw [show "\n" ++ ('<' :: ("p>" ++ t ++ "</p>")) ++ "\n" = "\n<p>" ++ t ++ "</p>\n" by simp]
  exact emptyElement_apply line unopened

theorem cleanUp_paragraph {t : Text} (flat : Flat t) :
    cleanUp ("\n\n<p>" ++ t ++ "</p>\n\n") = "\n<p>" ++ t ++ "</p>\n" :=
  cleanUp_solid flat.line.solid flat.unopened

/-! ## Both renderers -/

/-- Without carriage returns a text begins as what the first pass reads. -/
theorem starts_of_cleaned {w t : Text} (plain : '\r' ∉ t) (other : '\uFFFD' ∉ w) (start : w <+: cleaned t) : w <+: t := by
  have kept : t.filter (· != '\r') = t := by
    refine List.filter_eq_self.2 fun c hc => ?_
    rw [bne_iff_ne]
    rintro rfl
    exact plain hc
  rw [cleaned, kept] at start
  clear kept plain
  induction t generalizing w with
  | nil => exact start
  | cons c t ih =>
      cases w with
      | nil => exact List.nil_prefix
      | cons d w =>
          rw [List.mem_cons, not_or] at other
          obtain ⟨same, later⟩ := List.cons_prefix_cons.1 start
          refine List.cons_prefix_cons.2 ⟨?_, ih other.2 later⟩
          change d = if c = '\x00' then '\uFFFD' else c at same
          split at same
          · exact absurd same.symm other.1
          · exact same

/-- Where no rule of a block finds anything at the start of one line, it becomes a paragraph of what the rules of spans make
    of it. -/
theorem rules_solid {t : Text} (line : SolidLine t) (misses : ∀ r ∈ Block.rules, r.pattern.Misses none t) :
    Extent.document.rules.foldlM (fun t r => r.apply t) t =
      (fun u : Text => "\n\n<p>" ++ u ++ "</p>\n\n") <$> Extent.spans.rules.foldlM (fun t r => r.apply t) t := by
  have lines := Block.emptyLines_apply (x := "<p>" ++ t ++ "</p>") (by simp) (by simp [line.single])
  have paragraph : Block.paragraphRules.foldlM (fun t r => r.apply t) t = pure ("\n\n<p>" ++ t ++ "</p>\n\n") := by
    rw [Block.paragraphRules, List.foldlM_cons, Block.paragraph_apply line, pure_bind, List.foldlM_cons]
    rw [show "\n\n<p>" ++ t ++ "</p>\n\n" = "\n\n" ++ ("<p>" ++ t ++ "</p>") ++ "\n\n" by simp, lines, pure_bind]
    rfl
  show (Block.rules ++ Block.paragraphRules ++ Span.rules).foldlM _ t = _
  rw [List.foldlM_append, List.foldlM_append, Rule.foldlM_pure (Block.rules_apply line.single misses), pure_bind, paragraph,
    pure_bind]
  exact Rule.foldlM_framed Span.rules_frames t

theorem rules_document {t : Text} (line : OneLine t) (noMath : ¬ "math:" <+: t ∧ ¬ "maths:" <+: t) :
    Extent.document.rules.foldlM (fun t r => r.apply t) t =
      (fun u : Text => "\n\n<p>" ++ u ++ "</p>\n\n") <$> Extent.spans.rules.foldlM (fun t r => r.apply t) t :=
  rules_solid line.solid (Block.rules_misses line noMath)

theorem closing_eq (extent : Extent) {t : Text} (full : t ≠ []) :
    closing extent [] t = cleanUp <$> extent.rules.foldlM (fun t r => r.apply t) t := by
  rw [closing_nil, Rule.applyAll_of_ne_nil full]

theorem bind_run {f : Rendering Text} {g : Text → Rendering Text} {u : Text} {s s' : Session}
    (h : f s = (u, s')) : (f >>= g) s = g u s' :=
  congrArg (fun x : Text × Session => g x.1 x.2) h

theorem map_run {α : Type} (f : Text → α) (m : Rendering Text) (s : Session) : (f <$> m) s = (f (m s).1, (m s).2) := rfl

/-- A text of one line that begins with a letter and is no equation is, as a document, one paragraph of its spans. -/
theorem document_eq_spans {t : Text} (letter : t.head?.any Char.isAlpha = true) (single : '\n' ∉ t ∧ '\r' ∉ t)
    (noMath : ¬ "math:" <+: t ∧ ¬ "maths:" <+: t) : document t = "\n<p>" ++ spans t ++ "</p>\n" := by
  have line : OneLine t := by
    refine ⟨?_, single.1⟩
    cases t with
    | nil => cases letter
    | cons c rest => exact ⟨c, rest, rfl, letter⟩
  have full : t ≠ [] := by
    rintro rfl
    cases letter
  obtain ⟨flat, starts⟩ := opening_flat line {}
  obtain ⟨u, s, opened⟩ : ∃ u s, opening t {} = (u, s) := ⟨_, _, rfl⟩
  simp only [opened] at flat starts
  have noMath' : ¬ "math:" <+: u ∧ ¬ "maths:" <+: u :=
    ⟨fun start => noMath.1 (starts_of_cleaned single.2 (by decide) (starts _ (by decide) start)),
      fun start => noMath.2 (starts_of_cleaned single.2 (by decide) (starts _ (by decide) start))⟩
  have given : u ≠ [] := by
    obtain ⟨c, rest, split, -⟩ := flat.line.begins
    exact split ▸ List.cons_ne_nil c rest
  have rendered (extent : Extent) :
      run extent [] [] t = Rendering.reinstate (closing extent [] u s).1 (closing extent [] u s).2 := by
    rw [run, render_eq full]
    exact bind_run (bind_run opened)
  have spansFlat := Rule.foldlM_flat Span.rules_inLine flat s
  have whole := congrFun (closing_eq .document given) s
  have alone := congrFun (closing_eq .spans given) s
  rw [rules_document flat.line noMath', map_run, map_run] at whole
  rw [map_run] at alone
  change Flat (Extent.spans.rules.foldlM (fun t r => r.apply t) u s).1 at spansFlat
  generalize Extent.spans.rules.foldlM (fun t r => r.apply t) u s = v at spansFlat whole alone
  rw [document, spans, rendered, rendered, whole, alone, cleanUp_paragraph spansFlat, cleanUp_flat spansFlat]
  exact Warden.reinstate_paragraph v.1 v.2

/-- A line with an entity, a tag, an equation, an address and something like a key in it. -/
theorem document_eq_spans_line :
    document "A ???0 &amp; <sub>1</sub> {math}x{math} ![b](http://c) *d*" =
      "\n<p>" ++ spans "A ???0 &amp; <sub>1</sub> {math}x{math} ![b](http://c) *d*" ++ "</p>\n" :=
  document_eq_spans (by decide) (by decide) (by decide)

end Markup

end LessonText

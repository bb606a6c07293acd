import Mathlib.Data.List.Chain
import LessonText.Proofs.Markup.Drained
import LessonText.Proofs.Pattern.Applying

/-! # Changes to a line

What a pass makes of a text, whatever is in custody: characters stay or stretches of the text are changed.
No pass changes how a line begins, ends it, or makes the tag of a block of it.
-/

namespace LessonText

open Pattern Unicode

/-- Characters stay, or a stretch of the text becomes another. -/
inductive Changes (change : Text → Text → Prop) : Text → Text → Prop where
  | nil : Changes change [] []
  | keep {c t u} : Changes change t u → Changes change (c :: t) (c :: u)
  | change {old new t u} : change old new → Changes change t u → Changes change (old ++ t) (new ++ u)

variable {change : Text → Text → Prop} {t u : Text}

theorem Changes.of_scan {p : Pattern} {bound : Nat} {b : Option Char} {ps : List (Piece Match)}
    (scan : Scan (p.matchAt bound 0) b t ps) {replace : Match → Rendering Text}
    (each : ∀ b m r s, p.Takes b m.text r m.groups → change m.text (replace m s).1) :
    ∀ s, Changes change t (Piece.assembleM replace ps s).1 := by
  induction scan with
  | nil => exact fun s => .nil
  | plain _ _ ih => exact fun s => .keep (ih s)
  | found _ found _ ih =>
      intro s
      obtain ⟨rfl, takes⟩ := matchAt_found found
      exact .change (each _ _ _ s takes) (ih _)

theorem Rule.apply_changes {r : Rule} (advances : r.pattern.Advances)
    (each : ∀ b m rest s, r.pattern.Takes b m.text rest m.groups → change m.text (r.replace m s).1) (t : Text)
    (s : Session) : Changes change t (r.apply t s).1 :=
  .of_scan (pieces_scan advances t) each s

theorem Rewrite.apply_changes {r : Rewrite} (advances : r.pattern.Advances)
    (each : ∀ b m rest, r.pattern.Takes b m.text rest m.groups → change m.text (r.replace m)) (t : Text) :
    Changes change t (r.apply t) := by
  have all := Rule.apply_changes (r := .ofRewrite r) advances (fun b m rest _ => each b m rest) t {}
  rwa [Rule.ofRewrite_apply] at all

/-- A character with which the name of the tag of a paragraph or of a division begins. -/
def opensBlock (c : Char) : Bool := sameLetter 'p' c || sameLetter 'd' c

/-- No opening bracket stands before the name of a paragraph or of a division. -/
def Unopened (t : Text) : Prop := t.IsChain fun a c => a = '<' → opensBlock c = false

/-- A change inside a line: what is new begins with the sign of a key or of an entity. -/
structure InLine (old new : Text) : Prop where
  opens : ∃ c rest, old = c :: rest ∧ c.isAlpha = false
  begins : new.head? = some '?' ∨ new.head? = some '&'
  ends : new.getLast? ≠ some '<'
  newline : '\n' ∈ new → '\n' ∈ old
  unopened : Unopened old → Unopened new

/-- A text of one line that begins with a letter. -/
structure OneLine (t : Text) : Prop where
  begins : ∃ c rest, t = c :: rest ∧ c.isAlpha = true
  single : '\n' ∉ t

instance (t : Text) : Decidable (Unopened t) := inferInstanceAs (Decidable (List.IsChain _ t))

theorem Unopened.append {t u : Text} (ht : Unopened t) (hu : Unopened u)
    (apart : t.getLast? ≠ some '<' ∨ ∀ c ∈ u.head?, opensBlock c = false) : Unopened (t ++ u) := by
  refine List.isChain_append.2 ⟨ht, hu, ?_⟩
  rintro a last c first rfl
  rcases apart with other | harmless
  · exact absurd last other
  · exact harmless c first

theorem Unopened.of_not_mem {t : Text} (h : '<' ∉ t) : Unopened t := by
  induction t with
  | nil => exact .nil
  | cons c t ih =>
      rw [List.mem_cons, not_or] at h
      refine (ih h.2).cons fun d _ bracket => ?_
      exact absurd bracket.symm h.1

namespace Changes

theorem newline (h : Changes change t u) (each : ∀ old new, change old new → '\n' ∈ new → '\n' ∈ old) :
    '\n' ∈ u → '\n' ∈ t := by
  induction h with
  | nil => exact id
  | keep _ ih => exact fun mem => List.mem_cons.2 ((List.mem_cons.1 mem).imp_right ih)
  | change here _ ih =>
      exact fun mem => List.mem_append.2 ((List.mem_append.1 mem).imp (each _ _ here) ih)

/-- What stands at the start afterwards has stood there before, if no change brings it. -/
theorem starts_with {w : Text} (h : Changes InLine t u) : (∀ c ∈ w, c ≠ '?' ∧ c ≠ '&') → w <+: u → w <+: t := by
  induction h generalizing w with
  | nil => exact fun _ start => start
  | @keep c t u _ ih =>
      intro apart start
      cases w with
      | nil => exact List.nil_prefix
      | cons d w =>
          obtain ⟨rfl, later⟩ := List.cons_prefix_cons.1 start
          exact List.cons_prefix_cons.2 ⟨rfl, ih (fun c hc => apart c (List.mem_cons_of_mem _ hc)) later⟩
  | @change old new t u here _ ih =>
      intro apart start
      cases w with
      | nil => exact List.nil_prefix
      | cons d w =>
          cases new with
          | nil => rcases here.begins with h | h <;> cases h
          | cons c new =>
              obtain ⟨rfl, -⟩ := List.cons_prefix_cons.1 start
              have sign := apart d List.mem_cons_self
              rcases here.begins with h | h
              · exact absurd (Option.some.inj h) sign.1
              · exact absurd (Option.some.inj h) sign.2

theorem oneLine (h : Changes InLine t u) (line : OneLine t) : OneLine u where
  begins := by
    obtain ⟨c, rest, rfl, letter⟩ := line.begins
    generalize e : c :: rest = t at h
    cases h with
    | nil => cases e
    | keep later =>
        cases e
        exact ⟨c, _, rfl, letter⟩
    | @change old new t u here later =>
        obtain ⟨d, old, rfl, other⟩ := here.opens
        obtain ⟨rfl, -⟩ := List.cons.inj e
        rw [other] at letter
        cases letter
  single := fun mem => line.single (h.newline (fun _ _ here => here.newline) mem)

theorem head (h : Changes InLine t u) : u.head? = t.head? ∨ u.head? = some '?' ∨ u.head? = some '&' := by
  cases h with
  | nil => exact .inl rfl
  | keep => exact .inl rfl
  | @change old new t u here later =>
      rw [List.head?_append]
      rcases here.begins with e | e <;> rw [e]
      · exact .inr (.inl rfl)
      · exact .inr (.inr rfl)

theorem unopened (h : Changes InLine t u) : Unopened t → Unopened u := by
  induction h with
  | nil => exact id
  | @keep c t u later ih =>
      intro unopened
      obtain ⟨first, rest⟩ := List.isChain_cons.1 unopened
      refine (ih rest).cons fun d hd bracket => ?_
      rcases later.head with e | e | e
      · exact first d (e ▸ hd) bracket
      · rw [e] at hd
        cases hd
        rfl
      · rw [e] at hd
        cases hd
        rfl
  | change here _ ih =>
      intro unopened
      obtain ⟨old, rest, -⟩ := List.isChain_append.1 unopened
      exact (here.unopened old).append (ih rest) (.inl here.ends)

end Changes

/-! ## Span rules -/

theorem Rendering.protect_key {data : Text} (full : data ≠ []) (s : Session) :
    ∃ w : Ward, (Rendering.protect data s).1 = w.key := by
  have notEmpty : data.isEmpty = false := by simpa using full
  refine ⟨⟨s.warden.issued, data, full⟩, ?_⟩
  unfold Rendering.protect Warden.protect
  rw [notEmpty]
  rfl

theorem Rendering.protect_keyOr (data : Text) (s : Session) :
    (Rendering.protect data s).1 = [] ∨ ∃ w : Ward, (Rendering.protect data s).1 = w.key := by
  by_cases full : data = []
  · subst full
    exact .inl rfl
  · exact .inr (protect_key full s)

/-- A text that does not begin with a question mark begins in the same way with its keys put back. -/
theorem Rendering.reinstate_cons {c : Char} (t : Text) (s : Session) (other : c ≠ '?') :
    ∃ u, (Rendering.reinstate (c :: t) s).1 = c :: u := by
  have none : Warden.findKey none (c :: t) = none := by
    rw [← Option.not_isSome_iff_eq_none, Option.isSome_iff_exists]
    rintro ⟨r, h⟩
    obtain ⟨_, _, e, -⟩ := Draft.findKey_begins h
    exact other (List.cons.inj e).1
  refine ⟨(s.warden.recover (Text.cutFrom Warden.findKey Warden.findKey 0 (some c) t)).text, ?_⟩
  show (s.warden.recover (Text.cutFrom _ _ 0 Option.none (c :: t))).text = _
  rw [Text.cutFrom_plain none]
  rfl

theorem not_mem_key {c : Char} (other : Warden.isKeyChar c = false) (w : Ward) : c ∉ w.key := by
  intro mem
  rw [Draft.isKeyChar_of_mem_key mem] at other
  cases other

theorem unopened_key (w : Ward) : Unopened w.key := .of_not_mem (not_mem_key rfl w)

/-- A key and a text behind it stand inside a line. -/
theorem InLine.of_key {old v : Text} (w : Ward) (opens : ∃ c rest, old = c :: rest ∧ c.isAlpha = false)
    (single : '\n' ∈ v → '\n' ∈ old) (unopened : Unopened old → Unopened v) (ends : v.getLast? ≠ some '<') :
    InLine old (w.key ++ v) where
  opens := opens
  begins := by
    obtain ⟨k, key⟩ := Draft.key_cons w
    rw [key]
    exact .inl rfl
  ends := by
    rw [List.getLast?_append, Draft.key_getLast?]
    cases last : v.getLast? with
    | none => simp
    | some c => simpa [last] using ends
  newline := fun mem => (List.mem_append.1 mem).elim (fun mem => absurd mem (not_mem_key rfl w)) single
  unopened := fun h => (unopened_key w).append (unopened h) (.inl (by simp [Draft.key_getLast?]))

theorem opens_of_begin {p : Pattern} (advances : p.Advances)
    (letters : (charsOf letterRanges).all (fun c => !p.mayBegin c) = true) {b : Option Char} {w r : Text}
    {gs : List (Nat × Text)} (takes : p.Takes b w r gs) : ∃ c rest, w = c :: rest ∧ c.isAlpha = false := by
  obtain ⟨c, rest, rfl⟩ := List.exists_cons_of_ne_nil (advances _ _ _ _ takes)
  refine ⟨c, rest, rfl, ?_⟩
  rw [← Bool.not_eq_true]
  intro letter
  have none := of_isAlpha letters letter
  rw [takes.mayBegin] at none
  cases none

/-- A rule that changes a line inside only. -/
structure Rule.StaysInLine (r : Rule) : Prop where
  advances : r.pattern.Advances
  inLine : ∀ b m rest s, r.pattern.Takes b m.text rest m.groups → InLine m.text (r.replace m s).1

namespace Span

/-- A guarded rule puts a key in the place of a match. -/
theorem guarded_inLine {p : Pattern} {build : Match → Rendering Text} (advances : p.Advances)
    (letters : (charsOf letterRanges).all (fun c => !p.mayBegin c) = true)
    (begins : ∀ m s, ∃ c t, (build m s).1 = c :: t ∧ c ≠ '?') : (guarded p build).StaysInLine where
  advances := advances
  inLine := by
    intro b m rest s takes
    obtain ⟨c, t, built, other⟩ := begins m s
    obtain ⟨u, given⟩ := Rendering.reinstate_cons t (build m s).2 other
    rw [← built] at given
    obtain ⟨w, key⟩ := Rendering.protect_key (given ▸ List.cons_ne_nil c u)
      (Rendering.reinstate (build m s).1 (build m s).2).2
    have replaced : ((guarded p build).replace m s).1 = w.key ++ [] := by
      rw [List.append_nil]
      exact key
    rw [replaced]
    exact .of_key w (opens_of_begin advances letters takes) nofun (fun _ => .nil) nofun

/-- A link is a key, and what is printed behind it. -/
theorem link_key (m : Match) (s : Session) : ∃ (w : Ward) (address : Text),
    (link.replace m s).1 = w.key ++ ("<span class=\"print-only\"> (" ++ (address ++ ")</span>")) ∧
      '\n' ∉ address ∧ Unopened address := by
  let titled := quotable (m.group 3) s
  obtain ⟨u, given⟩ := Rendering.reinstate_cons (c := '<') ("a target=\"_blank\" href=\"" ++ m.group 2 ++
    "\" title=\"" ++ titled.1 ++ "\">" ++ m.group 1 ++ "</a>") titled.2 (by decide)
  let back := Rendering.reinstate ("<a target=\"_blank\" href=\"" ++ m.group 2 ++ "\" title=\"" ++ titled.1 ++
    "\">" ++ m.group 1 ++ "</a>") titled.2
  have full : back.1 ≠ [] := given ▸ List.cons_ne_nil _ _
  obtain ⟨w, key⟩ := Rendering.protect_key full back.2
  let shown := Rendering.protect (m.group 2) (Rendering.protect back.1 back.2).2
  refine ⟨w, shown.1, ?_, ?_⟩
  · rw [← key, ← List.append_assoc, ← List.append_assoc]
    rfl
  · rcases Rendering.protect_keyOr (m.group 2) (Rendering.protect back.1 back.2).2 with e | ⟨w', e⟩
    · rw [show shown.1 = [] from e]
      exact ⟨nofun, .nil⟩
    · rw [show shown.1 = w'.key from e]
      exact ⟨not_mem_key rfl w', unopened_key w'⟩

theorem link_inLine : link.StaysInLine where
  advances := .of_passes rfl
  inLine := by
    intro b m rest s takes
    obtain ⟨w, address, replaced, single, unopened⟩ := link_key m s
    rw [replaced]
    refine .of_key w (opens_of_begin (.of_passes rfl) (by decide) takes) (by simp [single]) (fun _ => ?_) ?_
    · exact .append (by decide) (unopened.append (by decide) (.inr (by simp; rfl))) (.inl (by decide))
    · rw [← List.append_assoc, List.getLast?_append_of_ne_nil _ (by simp)]
      decide

theorem emphasis_inLine {sign : Char} {count : Nat} {tags : List Text} (other : sign.isAlpha = false) (ne : tags ≠ []) :
    ∀ r ∈ emphasis sign (count + 1) tags, r.StaysInLine := by
  have between {body : Pattern} (plain : body.groupless = true) : Rule.StaysInLine
      ⟨literal (List.replicate (count + 1) sign) ++ group 1 body ++ literal (List.replicate (count + 1) sign),
        fun m => emphasise tags (m.group 1)⟩ := by
    refine ⟨.of_passes rfl, ?_⟩
    intro b m rest s takes
    obtain ⟨_, closing, _, _, whole, groups, ⟨opening, contents, _, _, rfl, rfl, hopening, _, hcontents, rfl⟩,
      hclosing⟩ := takes
    obtain ⟨rfl, rfl⟩ := takes_literal.1 hopening
    obtain ⟨rfl, rfl⟩ := takes_literal.1 hclosing
    obtain rfl := hcontents.groups_eq_nil plain
    have first : m.group 1 = contents := Match.group_eq groups
    have inside : contents <:+: m.text := whole ▸ List.infix_append _ _ _
    obtain ⟨tag, others, rfl⟩ := List.exists_cons_of_ne_nil ne
    have given : ((tag :: others).flatMap fun tag => "<" ++ tag ++ ">" : Text) ≠ [] := by simp
    have given' : ((tag :: others).reverse.flatMap fun tag => "</" ++ tag ++ ">" : Text) ≠ [] := by simp
    obtain ⟨o, opens⟩ := Rendering.protect_key given s
    obtain ⟨c, closes⟩ := Rendering.protect_key given'
      (Rendering.protect ((tag :: others).flatMap fun tag => "<" ++ tag ++ ">") s).2
    have replaced : (emphasise (tag :: others) (m.group 1) s).1 = o.key ++ (contents ++ c.key) := by
      rw [← opens, ← closes, ← first, ← List.append_assoc]
      rfl
    rw [show (Rule.replace _ m s).1 = _ from replaced]
    refine .of_key o ⟨sign, _, by rw [whole]; rfl, other⟩ (fun mem => ?_) (fun old => ?_) ?_
    · exact inside.subset ((List.mem_append.1 mem).resolve_right (not_mem_key rfl c))
    · refine Unopened.append ( List.IsChain.infix old inside) (unopened_key c) (.inr ?_)
      obtain ⟨k, key⟩ := Draft.key_cons c
      rw [key]
      rintro _ ⟨⟩
      rfl
    · simp [List.getLast?_append, Draft.key_getLast?]
  simp only [emphasis, List.forall_mem_cons]
  exact ⟨between rfl, between rfl, by simp⟩

/-- No span rule ends a line, begins it in another way or makes the tag of a block. -/
theorem rules_inLine : ∀ r ∈ rules, r.StaysInLine := by
  simp only [rules, List.forall_mem_append, List.forall_mem_cons]
  refine ⟨⟨⟨⟨⟨⟨⟨?_, ?_, link_inLine, ?_, ?_, ?_, by simp⟩, ?_⟩, ?_⟩, ?_⟩, ?_⟩, ?_⟩, ?_⟩
  · exact guarded_inLine (.of_passes rfl) (by decide) fun m s => ⟨' ', _, rfl, by decide⟩
  · exact guarded_inLine (.of_passes rfl) (by decide) fun m s => ⟨'<', _, rfl, by decide⟩
  · exact guarded_inLine (.of_passes rfl) (by decide) fun m s => ⟨'<', _, rfl, by decide⟩
  · exact guarded_inLine (.of_passes rfl) (by decide) fun m s => ⟨'<', _, rfl, by decide⟩
  · exact guarded_inLine (.of_passes rfl) (by decide) fun m s => ⟨'<', _, rfl, by decide⟩
  all_goals exact emphasis_inLine rfl (by simp)

end Span

/-- A text of one line, and no bracket in it begins the tag of a block. -/
structure Flat (t : Text) : Prop where
  line : OneLine t
  unopened : Unopened t

theorem Rule.foldlM_flat {rules : List Rule} (each : ∀ r ∈ rules, r.StaysInLine) {t : Text} (flat : Flat t)
    (s : Session) : Flat (rules.foldlM (fun t r => r.apply t) t s).1 := by
  induction rules generalizing t s with
  | nil => exact flat
  | cons r rules ih =>
      obtain ⟨here, later⟩ := List.forall_mem_cons.1 each
      have changes := Rule.apply_changes here.advances here.inLine t s
      rw [List.foldlM_cons]
      exact ih later ⟨changes.oneLine flat.line, changes.unopened flat.unopened⟩ _

/-! ## The passes before the rules -/

namespace Markup

theorem InLine.of_entity {old v : Text} (opens : ∃ c rest, old = c :: rest ∧ c.isAlpha = false)
    (single : '\n' ∉ v) (apart : '<' ∉ v) : InLine old ('&' :: v) where
  opens := opens
  begins := .inr rfl
  ends := fun last => absurd (List.mem_of_getLast? last) (by simp [apart])
  newline := fun mem => absurd mem (by simp [single])
  unopened := fun _ => .of_not_mem (by simp [apart])

theorem replaceBlocks_changes (t : Text) (s : Session) :
    Changes InLine t (MathML.replaceBlocks Rendering.protect t s).1 := by
  have advances : MathML.block.Advances := .of_passes rfl
  refine .of_scan (pieces_scan advances t) (fun b m rest s takes => ?_) s
  obtain ⟨w, key⟩ := Rendering.protect_key (MathML.sanitise_ne_nil (advances _ _ _ _ takes)) s
  rw [key, ← List.append_nil w.key]
  exact .of_key w (opens_of_begin advances (by decide) takes) nofun (fun _ => .nil) nofun

theorem ampersands_changes (t : Text) : Changes InLine t (Escape.ampersands t) := by
  induction t with
  | nil => exact .nil
  | cons c t ih =>
      rw [Escape.ampersands]
      split
      · rename_i escaped
        obtain rfl : c = '&' := by simpa using (Bool.and_eq_true_iff.1 escaped).1
        have first : InLine ['&'] "&amp;" := InLine.of_entity ⟨_, _, rfl, rfl⟩ (by decide) (by decide)
        exact .change first ih
      · exact .keep ih

theorem escapeBrackets_changes (t : Text) : Changes InLine t (escapeBrackets.apply t) := by
  have advances : escapeBrackets.pattern.Advances := .of_passes rfl
  refine Rewrite.apply_changes advances (fun b m rest takes => ?_) t
  exact InLine.of_entity (opens_of_begin advances (by decide) takes) (by decide) (by decide)

theorem escapedSign_changes (t : Text) : Changes InLine t (escapedSign.apply t) := by
  have advances : escapedSign.pattern.Advances := .of_passes rfl
  refine Rewrite.apply_changes advances (fun b m rest takes => ?_) t
  have opens := opens_of_begin advances (by decide) takes
  obtain ⟨_, _, _, _, -, groups, -, _, ⟨c, -, rfl, rfl⟩, rfl⟩ := takes
  have first : m.group 1 = [c] := Match.group_eq groups
  have entity : escapedSign.replace m = '&' :: '#' :: (Text.decimal c.toNat ++ ";") := by
    show Entity.encode (m.group 1) = _
    rw [first]
    simp [Entity.encode, Entity.encodeChar]
  have digits (d : Char) (other : isDigit d = false) : d ∉ Text.decimal c.toNat := by
    intro mem
    rw [Warden.isDigit_of_mem_decimal d mem] at other
    cases other
  rw [entity]
  exact InLine.of_entity opens (by simp [digits '\n' rfl]) (by simp [digits '<' rfl])

/-- The name of an allowed tag begins as no block does. -/
theorem opensBlock_of_allowed {c : Char} (h : sameLetter 'b' c = true ∨ sameLetter 's' c = true) :
    opensBlock c = false := by
  have block : opensBlock c = (('p' == lower c || false) || ('d' == lower c || false)) := rfl
  rcases h with h | h
  · have same : ('b' == lower c || false) = true := h
    rw [Bool.or_false, beq_iff_eq] at same
    rw [block, ← same]
    rfl
  · have same : ('s' == lower c || [0x17F].contains (lower c).toNat) = true := h
    rw [Bool.or_eq_true, beq_iff_eq, List.contains_iff_mem, List.mem_singleton] at same
    rcases same with same | long
    · rw [block, ← same]
      rfl
    · rw [block, ← Char.ofNat_toNat (lower c), long]
      rfl

theorem allowedTag_takes {b : Option Char} {w r : Text} {gs : List (Nat × Text)} (h : allowedTag.Takes b w r gs) :
    ∃ c rest, w = c :: rest ∧ c ≠ '<' ∧ opensBlock c = false := by
  obtain ⟨_, close, _, _, rfl, -, ⟨slash, name, _, _, rfl, -, hslash, hname⟩, -⟩ := h
  rcases hslash with hslash | ⟨rfl, -⟩
  · obtain ⟨rfl, -⟩ := takes_literal.1 hslash
    exact ⟨'/', _, rfl, by decide, by decide⟩
  · have first : ∃ c rest, name = c :: rest ∧ (sameLetter 'b' c = true ∨ sameLetter 's' c = true) := by
      rcases hname with (hname | hname) | hname
      · cases (takes_literalFold.1 hname).1 with
        | cons first _ => exact ⟨_, _, rfl, .inl first⟩
      · cases (takes_literalFold.1 hname).1 with
        | cons first _ => exact ⟨_, _, rfl, .inr first⟩
      · cases (takes_literalFold.1 hname).1 with
        | cons first _ => exact ⟨_, _, rfl, .inr first⟩
    obtain ⟨c, rest, rfl, same⟩ := first
    refine ⟨c, rest ++ close, by simp, ?_, opensBlock_of_allowed same⟩
    rintro rfl
    revert same
    decide

/-- Where a bracket is left it begins a tag that an author may write. -/
theorem unopened_escapeBrackets (t : Text) : Unopened (escapeBrackets.apply t) := by
  have all {b : Option Char} {bound : Nat} {t : Text} {ps : List (Piece Match)}
      (scan : Scan (escapeBrackets.pattern.matchAt bound 0) b t ps) :
      Unopened (Piece.assemble escapeBrackets.replace ps) := by
    induction scan with
    | nil => exact .nil
    | @plain b c t ps none later ih =>
        refine ih.cons fun d first bracket => ?_
        subst bracket
        obtain ⟨s, r, gs, takes, rfl⟩ := (Stuck.of_matchAt none).ahead_of_notAhead
        obtain ⟨c, rest, rfl, other, harmless⟩ := allowedTag_takes takes
        generalize split : c :: rest ++ r = t at later
        cases later with
        | nil => cases split
        | plain => 
            obtain ⟨rfl, -⟩ := List.cons.inj split
            cases first
            exact harmless
        | found _ found =>
            obtain ⟨_, split', -, -, bracket⟩ := matchAt_takes found
            obtain ⟨_, _, _, _, whole, -, hbracket, -⟩ := bracket
            obtain ⟨rfl, -⟩ := takes_literal.1 hbracket
            rw [← split, whole] at split'
            exact absurd (List.cons.inj split').1 other
    | @found b w t m ps full found later ih =>
        exact Unopened.append (t := "&lt;") (by decide) ih (.inl (by decide))
  exact all (pieces_scan (.of_passes rfl) t)

theorem cleaned_oneLine {t : Text} (line : OneLine t) : OneLine (cleaned t) where
  begins := by
    obtain ⟨c, rest, rfl, letter⟩ := line.begins
    have kept : (c != '\r') = true := by
      rw [bne_iff_ne]
      rintro rfl
      cases letter
    have same : (if c = '\x00' then '\uFFFD' else c) = c := by
      refine if_neg ?_
      rintro rfl
      cases letter
    refine ⟨c, cleaned rest, ?_, letter⟩
    rw [cleaned, List.filter_cons, if_pos kept, Escape.dropNull, List.map_cons, same]
    rfl
  single := by
    intro mem
    obtain ⟨c, hc, same⟩ := List.mem_map.1 mem
    split at same
    · cases same
    · exact line.single (same ▸ (List.mem_filter.1 hc).1)

/-- What reaches the rules is flat, and begins as the text does. -/
theorem opening_flat {t : Text} (line : OneLine t) (s : Session) : Flat (opening t s).1 ∧
    ∀ w, (∀ c ∈ w, c ≠ '?' ∧ c ≠ '&') → w <+: (opening t s).1 → w <+: cleaned t := by
  let u := (MathML.replaceBlocks Rendering.protect (cleaned t) s).1
  have blocks : Changes InLine (cleaned t) u := replaceBlocks_changes (cleaned t) s
  have ands := ampersands_changes u
  have brackets := escapeBrackets_changes (Escape.ampersands u)
  have signs := escapedSign_changes (escapeBrackets.apply (Escape.ampersands u))
  have plain : OneLine (escapeBrackets.apply (Escape.ampersands u)) :=
    brackets.oneLine (ands.oneLine (blocks.oneLine (cleaned_oneLine line)))
  refine ⟨⟨signs.oneLine plain, signs.unopened (unopened_escapeBrackets _)⟩, fun w apart start => ?_⟩
  exact blocks.starts_with apart (ands.starts_with apart (brackets.starts_with apart (signs.starts_with apart start)))

end Markup

end LessonText

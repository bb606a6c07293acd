import LessonText.Proofs.Item.Markup
import LessonText.Proofs.Item.Reading
import LessonText.Proofs.Reader.Passes

/-! # Texts that ask for no value

An item asks for a value of the metadata with a mark. Where the mark does not stand in the source of an item, in whatever
case, no rule brings one together and no key hides one that is read as an item. So the item does not depend on the metadata.
-/

namespace LessonText

open Pattern Unicode Rendering

/-- A text that asks for a value. -/
def Asks (t : Text) : Prop := "meta:" <:+: t.map lower

instance (t : Text) : Decidable (Asks t) := inferInstanceAs (Decidable (_ <:+: _))

/-- How much of the mark has been read: none of it, its first letters, or what no item can begin with, which is the code
    of a key; or else an opening bracket where it would not do to lose an element. -/
inductive Asking where
  | start
  | one
  | two
  | three
  | four
  | code
  | tag
  deriving DecidableEq

instance : Fintype Asking := .ofList [.start, .one, .two, .three, .four, .code, .tag] fun s => by cases s <;> simp

namespace Asking

/-- The letter that would go on with the mark, and where it leads. -/
def awaited : Asking → Char × Option Asking
  | .one => ('e', some .two)
  | .two => ('t', some .three)
  | .three => ('a', some .four)
  | .four => (':', none)
  | _ => ('m', some .one)

/-- Without a guard, elements do not matter. -/
def step (guarded : Bool) (s : Asking) (c : Char) : Option Asking :=
  if s = .code ∧ Base64.isSextet c then some .code
  else if s = .tag ∧ opensBlock c then none
  else if sameLetter s.awaited.1 c then s.awaited.2
  else if guarded ∧ c = '<' ∧ s ≠ .start then some .tag
  else if sameLetter 'm' c then some .one
  else some (if c.isDigit then .code else .start)

/-- A reader that refuses the mark of a value, other than in the code of a key. -/
def reader (guarded : Bool) : Reader Asking := ⟨.start, step guarded⟩

variable {g : Bool} {s : Asking} {c : Char} {t data : Text}

/-! ## The reader and the rules of a page -/

/-- A key leads back to the start: its number leads to the code, and the padding out of it. -/
theorem key_resets (n : ℕ) (full : data ≠ []) : (reader g).Resets (Warden.keyFor n data) := by
  intro s _
  have marks : ∀ g s, (reader g).run s "???" = some .start := by decide
  have digit {c : Char} (h : c.isDigit = true) : (∀ g, step g .start c = some .code) ∧ Base64.isSextet c = true := by
    have all : (charsOf alphanumRanges).all (fun c =>
        !c.isDigit || decide ((∀ g, step g .start c = some .code) ∧ Base64.isSextet c = true)) = true := by decide
    have known := of_isAlphanum all (c := c) (by rw [Char.isAlphanum, h, Bool.or_true])
    rwa [h, Bool.not_true, Bool.false_or, decide_eq_true_eq] at known
  have inCode {w : Text} (h : ∀ c ∈ w, Base64.isSextet c = true) : (reader g).run .code w = some .code := by
    induction w with
    | nil => rfl
    | cons c w ih =>
        obtain ⟨here, later⟩ := List.forall_mem_cons.1 h
        have stays : step g .code c = some .code := if_pos ⟨rfl, here⟩
        rw [Reader.run_cons, show (reader g).step .code c = some .code from stays]
        exact ih later
  have isDigits : ∀ c ∈ Text.decimal n, c.isDigit = true :=
    fun c hc => Nat.isDigit_of_mem_toDigits (by decide) (by decide) hc
  have number : (reader g).run .start (Text.decimal n) = some .code := by
    obtain ⟨c, w, split⟩ := List.exists_cons_of_ne_nil (Warden.decimal_ne_nil n)
    rw [split] at isDigits ⊢
    obtain ⟨here, later⟩ := List.forall_mem_cons.1 isDigits
    rw [Reader.run_cons, show (reader g).step .start c = some .code from (digit here).1 g]
    exact inCode fun d hd => (digit (later d hd)).2
  obtain ⟨c, w, pads, coded, -, letters, few⟩ := Warden.code_eq full
  have padding : ∀ g, ∀ pads ∈ List.range 3, (reader g).run .code (List.replicate pads ':' ++ "???") = some .start := by decide
  rw [Warden.keyFor, coded, Warden.delimiter]
  simp only [List.append_assoc]
  rw [Reader.run_append_of (marks g s), Reader.run_append_of number, Reader.run_append_of (inCode letters)]
  exact padding g pads (List.mem_range.2 (by omega))

theorem marked (g : Bool) : (reader g).Marked where
  ended := by revert g; decide
  marks := by revert g; decide
  opening := by revert g; decide
  closing := (show (reader g).Lands '>' by revert g; decide).returns
  keys _ _ full := key_resets _ full

theorem space_lands (g : Bool) {c : Char} (h : isSpace c = true) : (reader g).Lands c := by
  have all : (charsOf spaceRanges).all (fun c => decide (∀ g, (reader g).Lands c)) = true := by decide +kernel
  exact of_decide_eq_true (of_isSpace all h) g

theorem fits : (reader true).Fits :=
  .of_lands (marked true) (fun _ => space_lands true) (by decide) (by decide) (by decide)

/-- Nothing needs to be known of what is in custody. -/
theorem custody (g : Bool) : (reader g).FullCustody fun _ => True :=
  ⟨⟨fun _ _ => trivial, fun _ _ => trivial, fun _ _ _ _ => trivial, fun _ _ => trivial, fun _ _ => trivial, fun _ _ _ _ => trivial⟩,
    fun _ _ => trivial⟩

/-! ## Texts that the reader takes -/

/-- The letters of the mark that have been read. -/
def seen : Asking → Text
  | .one => "m"
  | .two => "me"
  | .three => "met"
  | .four => "meta"
  | _ => []

theorem sameLetter_eq (h : c ∈ ("meta:" : Text)) (d : Char) : sameLetter c d = (c == lower d) := by
  have plain : ∀ c ∈ ("meta:" : Text), lower c = c ∧ (Unicode.caseVariants.lookup c.toNat).getD [] = [] := by decide
  obtain ⟨small, single⟩ := plain c h
  rw [sameLetter, small, single]
  simp

theorem awaited_mem (s : Asking) : s.awaited.1 ∈ ("meta:" : Text) := by cases s <;> decide

/-- A step follows the letters of the mark, unless they are complete. -/
theorem step_seen (other : s ≠ .tag) (c : Char) :
    (∃ q, step false s c = some q ∧ q ≠ .tag ∧ q.seen <:+ s.seen ++ [lower c]) ∨ s.seen ++ [lower c] = "meta:" := by
  have none (s : Asking) : [] <:+ s.seen ++ [lower c] := List.nil_suffix
  have first (same : sameLetter 'm' c = true) : Asking.one.seen <:+ s.seen ++ [lower c] := by
    rw [sameLetter_eq (by decide), beq_iff_eq] at same
    exact ⟨s.seen, by rw [← same]; rfl⟩
  unfold step
  split
  · exact .inl ⟨_, rfl, by decide, none s⟩
  split
  · rename_i tag
    exact absurd tag.1 other
  split
  · rename_i next
    rw [sameLetter_eq (awaited_mem s), beq_iff_eq] at next
    rw [← next]
    cases s with
    | four => exact .inr rfl
    | tag => exact absurd rfl other
    | _ => exact .inl ⟨_, rfl, by decide, by decide⟩
  split
  · rename_i guarded
    simp at guarded
  split
  · rename_i same
    exact .inl ⟨_, rfl, by decide, first same⟩
  · refine .inl ⟨_, rfl, ?_⟩
    split
    · exact ⟨by decide, none s⟩
    · exact ⟨by decide, none s⟩

/-- A text behind some letters of the mark is read if it does not complete one. -/
theorem exists_run (other : s ≠ .tag) (h : ¬ ("meta:" : Text) <:+: s.seen ++ t.map lower) :
    ∃ q, (reader false).run s t = some q := by
  induction t generalizing s with
  | nil => exact ⟨s, rfl⟩
  | cons c t ih =>
      rcases step_seen other c with ⟨q, step, notTag, before, behind⟩ | complete
      · rw [Reader.run_cons, show (reader false).step s c = some q from step]
        refine ih notTag fun inside => h ?_
        rw [List.map_cons, ← List.singleton_append, ← List.append_assoc, ← behind, List.append_assoc]
        exact inside.trans (List.suffix_append _ _).isInfix
      · refine absurd ⟨[], t.map lower, ?_⟩ h
        rw [List.map_cons, List.nil_append, ← complete, List.append_assoc]
        rfl

theorem accepts_of_not_asks (h : ¬ Asks t) : (reader false).Accepts t := by
  obtain ⟨q, read⟩ := exists_run (s := .start) (by decide) h
  have calm : ∀ s, (reader false).Calm s := by decide
  exact ⟨q, read, calm q⟩

/-- Without elements that may go, a text is read with the guard as without. -/
theorem accepts_guarded (accepts : (reader false).Accepts t) (unopened : Unopened t) : (reader true).Accepts t := by
  have open_ : ∀ s q, step false s '<' = some q → step true s '<' = some (if s = .start then .start else .tag) ∧ q = .start := by
    decide
  have calm : ∀ s, (reader true).Calm s := by decide
  have all : ∀ s, Unopened t → ((reader false).Reads s t → (reader true).Reads s t) ∧
      ((∀ c ∈ t.head?, opensBlock c = false) → (reader false).Reads .start t → (reader true).Reads .tag t) := by
    clear accepts unopened
    induction t with
    | nil => exact fun s _ => ⟨fun _ => Reader.reads_nil.2 (calm _), fun _ _ => Reader.reads_nil.2 (calm _)⟩
    | cons c t ih =>
        intro s unopened
        obtain ⟨next, later⟩ := List.isChain_cons.1 unopened
        have bracket (q : Asking) (h : (reader false).Reads .start t) (isBracket : c = '<') :
            (reader true).Reads (if q = .start then .start else .tag) t := by
          split
          · exact (ih .start later).1 h
          · exact (ih .start later).2 (fun d hd => next d hd isBracket) h
        refine ⟨fun reads => ?_, fun plain reads => ?_⟩
        all_goals obtain ⟨q, first, rest⟩ := Reader.reads_cons.1 reads
        · by_cases isBracket : c = '<'
          · subst isBracket
            obtain ⟨same, rfl⟩ := open_ s q first
            exact Reader.reads_cons.2 ⟨_, same, bracket s rest rfl⟩
          · have same : step true s c = step false s c := by simp [step, isBracket]
            exact Reader.reads_cons.2 ⟨q, same.trans first, (ih q later).1 rest⟩
        · by_cases isBracket : c = '<'
          · subst isBracket
            obtain ⟨-, rfl⟩ := open_ .start q first
            exact Reader.reads_cons.2 ⟨.tag, by decide, bracket .one rest rfl⟩
          · have same : step true .tag c = step false .start c := by
              simp [step, isBracket, plain c rfl, awaited]
            exact Reader.reads_cons.2 ⟨q, same.trans first, (ih q later).1 rest⟩
  exact (all .start unopened).1 accepts

/-- Where elements no longer go, the guard is left out. -/
def unguarded : Asking → Asking
  | .tag => .start
  | s => s

/-- Only an opening bracket leads to the guard. -/
theorem eq_bracket (h : step g s c = some .tag) : c = '<' := by
  unfold step at h
  split at h
  · cases h
  split at h
  · cases h
  split at h
  · cases s <;> cases h
  split at h
  · rename_i guarded
    exact guarded.2.1
  split at h
  · cases h
  · split at h <;> cases h

theorem follows : Follows (reader true) (reader false) unguarded where
  home := rfl
  step s c q h := by
    have open_ : ∀ s q, step true s '<' = some q → step false (unguarded s) '<' = some (unguarded q) := by decide
    by_cases isBracket : c = '<'
    · subst isBracket
      exact open_ s q h
    · have kept : unguarded q = q := by
        cases q with
        | tag => exact absurd (eq_bracket h) isBracket
        | _ => rfl
      rw [kept, ← h]
      change step false (unguarded s) c = step true s c
      cases s with
      | tag =>
          have plain : opensBlock c = false := by
            by_contra opens
            rw [Bool.not_eq_false] at opens
            have refused : step true .tag c = none := by simp [step, opens]
            exact absurd (refused.symm.trans h) (by simp)
          simp [step, unguarded, isBracket, plain, awaited]
      | _ => simp [step, unguarded, isBracket]
  newline := by decide

/-! ## Items -/

/-- Everything at which an item may end leads back to the start. -/
theorem stop_lands (h : isSpace c = true ∨ c ∈ (",;:.?!<" : Text)) : (reader false).Lands c := by
  have signs : ∀ c ∈ (",;:.?!<" : Text), (reader false).Lands c := by decide
  exact h.elim (space_lands false) (signs c)

/-- The mark of a value is refused. -/
theorem mark_refused {v : Text} (same : List.Forall₂ (fun c d => sameLetter c d = true) "meta:" v) :
    (reader false).run .start v = none := by
  have letters : List.Forall₂ (fun c d => sameLetter c d = true) ['m', 'e', 't', 'a', ':'] v := same
  obtain _ | ⟨hm, _ | ⟨he, _ | ⟨ht, _ | ⟨ha, _ | ⟨hsign, _⟩⟩⟩⟩⟩ := letters
  simp [Reader.run_cons, reader, step, awaited, hm, he, ht, ha, hsign]

/-- Where the mark is refused no value is asked for. -/
theorem value_apply (metadata : Metadata) (accepts : (reader false).Accepts t) : (Item.value metadata).apply t = pure t := by
  refine Rule.apply_of_passes (.of_passes rfl) fun u v split full w r gs whole takes => ?_
  obtain ⟨before, mark, behind, _, _, _, ahead, isMark, start, -⟩ := Item.takes_mark takes
  rw [Reader.Accepts, split] at accepts
  obtain ⟨s, read, later⟩ := Reader.reads_append.1 accepts
  rw [List.append_nil] at whole
  rw [whole, ahead] at later
  have line (h : (u.getLast?.or none).all (· == '\n') = true) : s = .start := by
    cases u using List.reverseRecOn with
    | nil => exact (Option.some.inj read).symm
    | append_singleton u c =>
        refine Reader.run_returns (A := reader false) (fun d hd => ?_) (by simp) read
        obtain rfl : c = d := by simpa using hd
        obtain rfl : c = '\n' := by simpa using h
        exact (marked false).ended.returns
  have atStart : (reader false).Reads .start (mark ++ behind) := by
    rcases start with ⟨rfl, begins⟩ | ⟨a, sign, rfl⟩ | rfl
    · exact line begins ▸ later
    · have lands : ∀ a ∈ (" >" : Text), (reader false).Lands a := by decide
      exact Reader.Reads.behind (t := []) later (lands a sign).returns
    · exact Reader.Reads.behind (t := "??") later (show (reader false).Lands '?' by decide).returns
  obtain ⟨q, refused, -⟩ := Reader.reads_append.1 atStart
  rw [mark_refused (takes_literalFold.1 isMark).1] at refused
  cases refused

/-- Markup without the sign of a mark is read from anywhere, and leads back to the start. -/
theorem markup_run {s : Asking} (inside : t.all Item.isMarkup = true) :
    (reader false).run s ('<' :: (t ++ ">")) = some .start := by
  have open_ : ∀ s, (reader false).step s '<' = some .start := by decide
  have close : ∀ s, (reader false).run s ">" = some .start := by decide
  have letters : (Item.signs ++ charsOf alphanumRanges).all (fun c => lower c != ':') = true := by decide
  obtain ⟨q, read⟩ : ∃ q, (reader false).run .start t = some q := by
    refine exists_run (by decide) fun mark => ?_
    obtain ⟨c, hc, sign⟩ := List.mem_map.1 (mark.subset (show ':' ∈ ("meta:" : Text) by decide))
    have known := List.all_eq_true.1 letters c (Item.mem_of_isMarkup (List.all_eq_true.1 inside c hc))
    simp [sign] at known
  rw [Reader.run_cons, open_ s]
  exact (Reader.run_append_of read).trans (close q)

/-- An item that becomes markup behind its start leaves a text that the reader takes. -/
theorem item_accepts {r : Rule} {mark : Pattern} (same : r.pattern = Item.pattern mark) (groupless : mark.groupless = true)
    (passes : mark.passes = true)
    (each : ∀ m, Ensures (fun _ => True) (r.replace m) fun new =>
      ∃ t, new = m.group 1 ++ '<' :: (t ++ ">") ∧ t.all Item.isMarkup = true)
    (accepts : (reader false).Accepts t) : Ensures (fun _ => True) (r.apply t) (reader false).Accepts := by
  have advances : r.pattern.Advances := same ▸ .of_passes (by simp [Item.pattern, passes])
  refine Rule.apply_carries_of (marked false).follows advances (fun _ _ _ => True) (fun _ _ _ _ _ _ => trivial)
    (fun _ _ _ _ _ _ _ => trivial) (fun bound b old rest m s found text takes _ _ reads => ?_) trivial accepts
  rw [same] at found
  obtain ⟨before, v, w, z, r', parts⟩ := Item.matchAt_parts groupless found
  obtain rfl : rest = r' := by
    have whole := parts.whole
    rw [← text, parts.text_eq] at whole
    simpa using whole
  refine (each m).mono ?_
  rintro new ⟨t, rfl, inside⟩
  rw [← text, parts.text_eq] at reads
  obtain ⟨q, read, later⟩ := Reader.reads_append.1 reads
  have begins : ∃ q, (reader false).run s (m.group 1) = some q := by
    rw [List.append_assoc] at reads
    obtain ⟨q, read, -⟩ := Reader.reads_append.1 reads
    exact ⟨q, parts.first ▸ read⟩
  obtain ⟨p, begins⟩ := begins
  have rest_reads : (reader false).Reads .start rest := by
    have stops := parts.stops
    cases rest with
    | nil => exact Reader.reads_nil.2 (by decide)
    | cons c rest =>
        have lands := stop_lands (stops c rfl)
        obtain ⟨r, step, behind⟩ := Reader.reads_cons.1 later
        obtain rfl := (lands.2 q r step).2
        exact Reader.reads_cons.2 ⟨_, lands.1, behind⟩
  exact ⟨.start, (Reader.run_append_of begins).trans (markup_run inside), rest_reads, fun _ => rfl⟩

theorem gap_accepts (accepts : (reader false).Accepts t) : Ensures (fun _ => True) (Item.gap.apply t) (reader false).Accepts := by
  refine item_accepts rfl rfl rfl (fun m => ?_) accepts
  rw [Item.gap_writes]
  exact fun _ _ => ⟨trivial, _, rfl, Item.all_gapTags m⟩

theorem emoji_accepts (accepts : (reader false).Accepts t) :
    Ensures (fun _ => True) (Item.emoji.apply t) (reader false).Accepts := by
  refine item_accepts rfl rfl rfl (fun m => ?_) accepts
  rw [Item.emoji_writes, Emoji.render_eq, bind_assoc]
  simp only [pure_bind]
  exact fun _ _ => ⟨trivial, _, rfl,
    Item.all_markup_append (Item.all_markup_append (Item.all_emojiTag m) (Emoji.all_shown _)) rfl⟩

theorem escapedBracket_accepts (accepts : (reader false).Accepts t) :
    Ensures (fun _ => True) (Item.escapedBracket.apply t) (reader false).Accepts := by
  refine Rule.apply_carries (marked false).follows (.of_passes rfl) (fun b old rest m s same takes _ reads => ?_) accepts
  obtain ⟨rfl, -⟩ := takes_literal.1 takes
  have slash : (reader false).Lands '\\' := by decide
  have entity : (reader false).Resets "&gt;" := by decide
  exact .pure (.key (v := ['\\']) (marked false).follows reads (reads.calm (by simpa using slash.enters)) rfl
    (marked false).closing entity)

/-- The rules for items before the one for values. -/
def itemRules : List Rule := [Item.escapedBracket, Item.gap, Item.emoji]

/-- Where the mark is refused, the rule for values has nothing to do. -/
theorem items_apply (metadata : Metadata) (accepts : (reader false).Accepts t) :
    Rule.applyAll (Item.rules metadata) t = Rule.applyAll itemRules t := by
  have each : ∀ r ∈ itemRules, ∀ t, (reader false).Accepts t → Ensures (fun _ => True) (r.apply t) (reader false).Accepts := by
    simp only [itemRules, List.forall_mem_cons]
    exact ⟨fun _ => escapedBracket_accepts, fun _ => gap_accepts, fun _ => emoji_accepts, by simp⟩
  have rules : Item.rules metadata = itemRules ++ [Item.value metadata] := rfl
  unfold Rule.applyAll
  split
  · rfl
  · funext s
    obtain ⟨-, taken⟩ := Ensures.foldlM each accepts s trivial
    rw [rules, List.foldlM_append]
    generalize itemRules.foldlM (fun t (r : Rule) => r.apply t) t = before at taken ⊢
    change ([Item.value metadata].foldlM (fun t (r : Rule) => r.apply t) (before s).1) (before s).2 = before s
    rw [List.foldlM_cons, value_apply metadata taken]
    rfl

/-! ## The source of an item -/

theorem dropNull_accepts (accepts : (reader g).Accepts t) : (reader g).Accepts (Escape.dropNull t) := by
  have same : ∀ g s, step g s '\uFFFD' = step g s '\x00' := by decide +kernel
  have all : ∀ s, (reader g).run s (Escape.dropNull t) = (reader g).run s t := by
    clear accepts
    induction t with
    | nil => exact fun s => rfl
    | cons c t ih =>
        intro s
        rw [Escape.dropNull, List.map_cons, ← Escape.dropNull, Reader.run_cons, Reader.run_cons]
        simp only [ih]
        split
        · rename_i null
          rw [null, show (reader g).step s '\uFFFD' = (reader g).step s '\x00' from same g s]
        · rfl
  obtain ⟨q, read, calm⟩ := accepts
  exact ⟨q, (all _).trans read, calm⟩

/-- The passes before the rules. -/
theorem opening_ensures (plain : '\r' ∉ t) (h : ¬ Asks t) :
    Ensures (Session.Keeps (fun _ => True) []) (Markup.opening t) (reader true).Accepts := by
  have kept : t.filter (· != '\r') = t :=
    List.filter_eq_self.2 fun c hc => by simpa using fun same : c = '\r' => plain (same ▸ hc)
  have cleaned : (reader false).Accepts (Markup.cleaned t) := by
    rw [Markup.cleaned, kept]
    exact dropNull_accepts (accepts_of_not_asks h)
  refine (Markup.replaceBlocks_carries (marked false) (fun _ => trivial) cleaned).bind fun u hu => .pure ?_
  have brackets := Markup.escapeBrackets_accepts (marked false) (by decide) (by decide)
    (Markup.ampersands_accepts (marked false) (by decide) hu)
  exact Markup.escapedSign_accepts (marked true) (by decide) (by decide)
    (accepts_guarded brackets (Markup.unopened_escapeBrackets _))

/-- Where an element may go, nothing has been read of a mark. -/
theorem element_starts (s q r : Asking) (c : Char) (first : step true s '<' = some q) (opens : opensBlock c = true)
    (next : step true q c = some r) : unguarded s = .start := by
  have guarded : ∀ s q, step true s '<' = some q → unguarded s = .start ∨ q = .tag := by decide
  refine (guarded s q first).resolve_right ?_
  rintro rfl
  have refused : step true .tag c = none := by simp [step, opens]
  exact absurd (refused.symm.trans next) (by simp)

theorem page_accepts (plain : '\r' ∉ t) (h : ¬ Asks t) :
    Ensures (Session.Keeps (fun _ => True) []) (Markup.page t) (reader false).Accepts :=
  Markup.page_ensures fits (custody true) (marked true) (custody true).toCustody (marked true).follows (by decide) (by decide)
    (fun _ h => (space_lands true h).1) follows element_starts (opening_ensures plain h)

end Asking

/-- An item whose source asks for no value is the same whatever the metadata are. -/
theorem TextItem.run_of_not_asks {t : Text} (plain : '\r' ∉ t) (h : ¬ Asks t) (metadata : Metadata) :
    run metadata t = Markup.run .document [] Asking.itemRules t :=
  Markup.run_congr (Asking.items_apply metadata (Asking.page_accepts plain h {} ⟨by simp, rfl⟩).2)

end LessonText

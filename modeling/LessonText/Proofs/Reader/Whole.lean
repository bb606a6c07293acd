import LessonText.Proofs.Reader.Passes

/-! # Readers of whole tags

Such a reader takes every character between tags. Behind an opening bracket it takes one of its tags, whole and nothing else,
so that a text may only end between tags. What it takes consists of characters and of whole tags.
-/

namespace LessonText

open Pattern Unicode

/-- Characters and whole tags, one after another; the property is one of what stands between the brackets of a tag. -/
inductive Tagged (isTag : Text → Prop) : Text → Prop where
  | nil : Tagged isTag []
  | char {c t} : c ≠ '<' → Tagged isTag t → Tagged isTag (c :: t)
  | tag {i t} : isTag i → Tagged isTag t → Tagged isTag ('<' :: (i ++ '>' :: t))

namespace Tagged

variable {isTag isTag' : Text → Prop} {c : Char} {i t u : Text}

theorem of_not_mem (plain : '<' ∉ t) : Tagged isTag t := by
  induction t with
  | nil => exact .nil
  | cons c t ih =>
      rw [List.mem_cons, not_or] at plain
      exact .char (Ne.symm plain.1) (ih plain.2)

theorem append (ht : Tagged isTag t) (hu : Tagged isTag u) : Tagged isTag (t ++ u) := by
  induction ht with
  | nil => exact hu
  | char plain _ ih => exact .char plain ih
  | tag isTag _ ih =>
      rw [List.cons_append, List.append_assoc, List.cons_append]
      exact .tag isTag ih

theorem flatMap {α : Type} {f : α → Text} {l : List α} (each : ∀ a ∈ l, Tagged isTag (f a)) : Tagged isTag (l.flatMap f) := by
  induction l with
  | nil => exact .nil
  | cons a l ih =>
      obtain ⟨here, later⟩ := List.forall_mem_cons.1 each
      rw [List.flatMap_cons]
      exact here.append (ih later)

theorem of_tag (h : isTag i) : Tagged isTag ("<" ++ i ++ ">") := .tag h .nil

theorem mono (imp : ∀ i, isTag i → isTag' i) (h : Tagged isTag t) : Tagged isTag' t := by
  induction h with
  | nil => exact .nil
  | char plain _ ih => exact .char plain ih
  | tag isTag _ ih => exact .tag (imp _ isTag) ih

/-- Behind a bracket stands a whole tag. -/
theorem bracket (h : Tagged isTag ('<' :: t)) : ∃ i u, isTag i ∧ t = i ++ '>' :: u ∧ Tagged isTag u := by
  generalize split : '<' :: t = x at h
  cases h with
  | nil => cases split
  | char plain => exact absurd (List.cons.inj split).1.symm plain
  | tag isTag later => exact ⟨_, _, isTag, (List.cons.inj split).2, later⟩

end Tagged

/-! ## Spellings -/

/-- How a word may be spelled: a class for each of its characters. -/
abbrev Spelling := List (Char → Bool)

namespace Spelling

/-- Exactly the given text. -/
def exactly (t : Text) : Spelling := t.map fun c d => c == d

/-- The given text in whatever letter case. -/
def fold (t : Text) : Spelling := t.map sameLetter

/-- The text spells the word. -/
def spells : Spelling → Text → Bool
  | [], t => t.isEmpty
  | _ :: _, [] => false
  | f :: p, c :: t => f c && spells p t

/-- The text spells the beginning of the word. -/
def begins : Spelling → Text → Bool
  | _, [] => true
  | [], _ :: _ => false
  | f :: p, c :: t => f c && begins p t

variable {p : Spelling} {c : Char} {t u name : Text}

theorem begins_of_spells (h : p.spells (t ++ u) = true) : p.begins t = true := by
  induction t generalizing p with
  | nil => rw [begins]
  | cons c t ih =>
      cases p with
      | nil => cases h
      | cons f p =>
          obtain ⟨here, later⟩ := Bool.and_eq_true_iff.1 h
          exact Bool.and_eq_true_iff.2 ⟨here, ih later⟩

theorem mem_of_begins (h : p.begins t = true) (mem : c ∈ t) : ∃ f ∈ p, f c = true := by
  induction t generalizing p with
  | nil => cases mem
  | cons d t ih =>
      cases p with
      | nil => cases h
      | cons f p =>
          obtain ⟨here, later⟩ := Bool.and_eq_true_iff.1 h
          rcases List.mem_cons.1 mem with rfl | mem
          · exact ⟨f, List.mem_cons_self, here⟩
          · obtain ⟨g, hg, accepts⟩ := ih later mem
            exact ⟨g, List.mem_cons_of_mem _ hg, accepts⟩

theorem exactly_spells : (exactly name).spells t = true ↔ t = name := by
  induction name generalizing t with
  | nil => exact List.isEmpty_iff
  | cons c name ih =>
      cases t with
      | nil => exact ⟨fun h => Bool.noConfusion h, fun h => nomatch h⟩
      | cons d t =>
          change (c == d && (exactly name).spells t) = true ↔ _
          rw [Bool.and_eq_true, beq_iff_eq, ih, List.cons.injEq]
          exact and_congr_left fun _ => eq_comm

theorem fold_spells : (fold name).spells t = true ↔ List.Forall₂ (fun c d => sameLetter c d = true) name t := by
  induction name generalizing t with
  | nil => exact List.isEmpty_iff.trans List.forall₂_nil_left_iff.symm
  | cons c name ih =>
      cases t with
      | nil => exact ⟨fun h => Bool.noConfusion h, fun h => nomatch h⟩
      | cons d t =>
          change (sameLetter c d && (fold name).spells t) = true ↔ _
          rw [Bool.and_eq_true, ih, List.forall₂_cons]

end Spelling

/-! ## The readers -/

namespace Reader

/-- A reader of characters and of whole tags: behind an opening bracket it keeps what it has read of the tag. -/
def whole (tags : List Spelling) : Reader (Option Text) where
  home := none
  step
    | none, c => some (if c = '<' then some [] else none)
    | some u, c =>
      if c = '>' then if tags.any (·.spells u) then some none else none
      else if tags.any (·.begins (u ++ [c])) then some (some (u ++ [c])) else none

/-- Signs that no tag may hold. -/
def tagless : Text := "<>\n&\x60*_#:\x7b\x7d![]()?\\"

/-- No tag holds such a sign. -/
def Tagless (tags : List Spelling) : Prop := ∀ p ∈ tags, ∀ f ∈ p, ∀ c ∈ tagless, f c = false

instance (tags : List Spelling) : Decidable (Tagless tags) := inferInstanceAs (Decidable (∀ p ∈ tags, _))

variable {tags tags' : List Spelling} {s q : Option Text} {c : Char} {i t u v : Text}

theorem whole_step (h : (whole tags).step (some u) c = some q) :
    c = '>' ∧ q = none ∧ (∃ p ∈ tags, p.spells u = true) ∨
      c ≠ '>' ∧ q = some (u ++ [c]) ∧ ∃ p ∈ tags, p.begins (u ++ [c]) = true := by
  simp only [whole] at h
  split at h
  · rename_i close
    split at h
    · rename_i complete
      exact .inl ⟨close, (Option.some.inj h).symm, List.any_eq_true.1 complete⟩
    · cases h
  · rename_i other
    split at h
    · rename_i begun
      exact .inr ⟨other, (Option.some.inj h).symm, List.any_eq_true.1 begun⟩
    · cases h

/-- Between tags only a bracket leads away from the start. -/
theorem whole_stays (other : c ≠ '<') : (whole tags).step none c = some none := congrArg some (if_neg other)

theorem whole_run (plain : '<' ∉ t) : (whole tags).run none t = some none :=
  run_home (A := whole tags) fun _ hc => whole_stays fun same => plain (same ▸ hc)

/-- Only the bracket at its end leads back from a tag. -/
theorem whole_home (h : (whole tags).step s c = some none) (other : c ≠ '>') : s = none := by
  cases s with
  | none => rfl
  | some u =>
      rcases whole_step h with ⟨close, -⟩ | ⟨-, same, -⟩
      · exact absurd close other
      · cases same

/-- A character that no tag holds stands between tags. -/
theorem whole_outside (lacks : ∀ p ∈ tags, ∀ f ∈ p, f c = false) (other : c ≠ '>') (h : (whole tags).step s c = some q) :
    s = none := by
  cases s with
  | none => rfl
  | some u =>
      rcases whole_step h with ⟨close, -⟩ | ⟨-, -, p, hp, begun⟩
      · exact absurd close other
      · obtain ⟨f, hf, accepts⟩ := Spelling.mem_of_begins begun (c := c) (by simp)
        rw [lacks p hp f hf] at accepts
        cases accepts

/-- What has no brackets has only the empty list of tags. -/
theorem whole_plain (plain : '<' ∉ t) : (whole tags).Accepts t := ⟨none, whole_run plain, rfl⟩

/-- Without tags, a bracket is never read to the end. -/
theorem reads_untagged (h : (whole []).Reads s t) : s = none ∧ '<' ∉ t := by
  induction t generalizing s with
  | nil =>
      cases s with
      | none => exact ⟨rfl, by simp⟩
      | some u => cases reads_nil.1 h
  | cons c t ih =>
      obtain ⟨q, step, later⟩ := reads_cons.1 h
      obtain ⟨rfl, plain⟩ := ih later
      cases s with
      | none =>
          refine ⟨rfl, fun mem => ?_⟩
          rcases List.mem_cons.1 mem with rfl | mem
          · cases step
          · exact plain mem
      | some u =>
          rcases whole_step step with ⟨-, -, p, listed, -⟩ | ⟨-, same, -⟩
          · cases listed
          · cases same

namespace Tagless

/-- Such a sign stands between tags. -/
theorem home (plain : Tagless tags) (sign : c ∈ tagless) (other : c ≠ '>') (h : (whole tags).step s c = some q) : s = none :=
  whole_outside (fun p hp f hf => plain p hp f hf c sign) other h

theorem calm_iff (plain : Tagless tags) : (whole tags).Calm s ↔ s = none := by
  constructor
  · intro calm
    obtain ⟨q, step⟩ := Option.isSome_iff_exists.1 calm
    exact plain.home (by decide) (by decide) step
  · rintro rfl
    rfl

theorem lands (plain : Tagless tags) (sign : c ∈ tagless) (other : c ≠ '<' ∧ c ≠ '>') : (whole tags).Lands c := by
  refine ⟨whole_stays other.1, fun s q step => ?_⟩
  obtain rfl := plain.home sign other.2 step
  exact ⟨plain.calm_iff.2 rfl, Option.some.inj (step.symm.trans (whole_stays other.1))⟩

/-- A whole tag leads from the start back to it. -/
theorem run_tag (plain : Tagless tags) {p : Spelling} (listed : p ∈ tags) (h : p.spells i = true) :
    (whole tags).run none ('<' :: (i ++ ">")) = some none := by
  have inside : ∀ u v, i = u ++ v → (whole tags).run (some u) v = some (some i) := by
    intro u v
    induction v generalizing u with
    | nil =>
        rintro rfl
        rw [List.append_nil]
        rfl
    | cons c v ih =>
        intro split
        have split : i = (u ++ [c]) ++ v := by rw [split, List.append_assoc]; rfl
        have begun : p.begins (u ++ [c]) = true := Spelling.begins_of_spells (split ▸ h)
        have other : c ≠ '>' := by
          rintro rfl
          obtain ⟨f, hf, accepts⟩ := Spelling.mem_of_begins begun (c := '>') (by simp)
          rw [plain p listed f hf '>' (by decide)] at accepts
          cases accepts
        have step : (whole tags).step (some u) c = some (some (u ++ [c])) := by
          simp only [whole, if_neg other]
          exact if_pos (List.any_eq_true.2 ⟨p, listed, begun⟩)
        rw [run_cons, step]
        exact ih _ split
  have close : (whole tags).step (some i) '>' = some none := by
    simp only [whole, if_true]
    exact if_pos (List.any_eq_true.2 ⟨p, listed, h⟩)
  have opening : (whole tags).step none '<' = some (some []) := rfl
  rw [run_cons, opening]
  change (whole tags).run (some []) (i ++ ">") = some none
  rw [run_append_of (inside [] i rfl), show (">" : Text) = ['>'] from rfl, run_cons, close]
  rfl

theorem marked (plain : Tagless tags) : (whole tags).Marked where
  ended := plain.lands (by decide) (by decide)
  marks c mark := plain.lands (by revert c; decide) (by revert c; decide)
  opening _ _ step := plain.calm_iff.2 (plain.home (by decide) (by decide) step)
  closing s q step := by
    cases s with
    | none => exact Option.some.inj (step.symm.trans (whole_stays (by decide)))
    | some u =>
        rcases whole_step step with ⟨-, same, -⟩ | ⟨other, -⟩
        · exact same
        · exact absurd rfl other
  keys n d full s calm := by
    obtain rfl := plain.calm_iff.1 calm
    exact whole_run fun bracket => absurd (Warden.isKeyChar_of_mem full _ bracket) (by decide)

/-- Where all the tags of blocks are listed, the reader fits a page. -/
theorem fits (plain : Tagless tags) (edges : ∀ t ∈ Block.edges, (whole tags).run none t = some none)
    (item : (whole tags).run none "<li>" = some none) : (whole tags).Fits where
  toMarked := plain.marked
  spaces c space := by
    have other : c ≠ '<' ∧ c ≠ '>' := by constructor <;> rintro rfl <;> exact absurd space (by decide)
    refine ⟨whole_stays other.1, fun s q step calm => ?_⟩
    obtain rfl := plain.calm_iff.1 calm
    exact plain.calm_iff.2 (whole_home step other.2)
  blanks c blank t q none read := by
    have other : c ≠ '<' := by
      rintro rfl
      exact absurd blank (by decide)
    have plain : '<' ∉ t ++ [c] := by simpa [none] using other.symm
    exact Option.some.inj (read.symm.trans (whole_run plain))
  quoted s q read := by
    change (whole tags).run s ('"' :: [')']) = some q at read
    rw [run_cons, Option.bind_eq_some_iff] at read
    obtain ⟨r, quote, later⟩ := read
    rw [run_cons, Option.bind_eq_some_iff] at later
    obtain ⟨_, close, -⟩ := later
    obtain rfl := plain.home (by decide) (by decide) close
    exact plain.calm_iff.2 (whole_home quote (by decide))
  signs c sign := plain.lands (by revert c; decide) (by revert c; decide)
  edges t listed s calm := plain.calm_iff.1 calm ▸ edges t listed
  item := item

variable {isTag : Text → Prop}

/-- What a draft means consists of characters and of whole tags if the reader takes what it shows, and if its wards stand
    for such texts. -/
theorem tagged_meaning (plain : Tagless tags) (listed : ∀ p ∈ tags, ∀ i, p.spells i = true → isTag i) {d : Draft}
    (accepts : (whole tags).Accepts (Draft.text d)) (held : ∀ w ∈ Draft.wards d, Tagged isTag w.data) : Tagged isTag (Draft.meaning d) := by
  have all : ∀ s, (whole tags).Reads s (Draft.text d) →
      Tagged isTag (s.elim (Draft.meaning d) fun u => '<' :: (u ++ Draft.meaning d)) := by
    clear accepts
    induction d with
    | nil =>
        intro s reads
        obtain rfl := plain.calm_iff.1 (reads_nil.1 reads)
        exact .nil
    | cons x d ih =>
        intro s reads
        cases x with
        | char c =>
            obtain ⟨q, step, later⟩ := reads_cons.1 reads
            have rest := ih held q later
            cases s with
            | none =>
                obtain rfl := Option.some.inj step
                by_cases bracket : c = '<'
                · subst bracket
                  exact rest
                · rw [if_neg bracket] at rest
                  exact .char bracket rest
            | some u =>
                rcases whole_step step with ⟨rfl, rfl, p, hp, complete⟩ | ⟨-, rfl, -⟩
                · exact .tag (listed p hp u complete) rest
                · simpa [Token.meaning] using rest
        | ward w =>
            -- A key begins with a question mark, which stands in no tag.
            obtain ⟨k, key⟩ := Draft.key_cons w
            have reads : (whole tags).Reads s (w.key ++ Draft.text d) := reads
            obtain rfl : s = none := by
              rw [key] at reads
              obtain ⟨q, step, -⟩ := reads_cons.1 reads
              exact plain.home (by decide) (by decide) step
            obtain ⟨q, read, later⟩ := reads_append.1 reads
            obtain rfl := Option.some.inj ((plain.marked.keys w.number w.data w.held none rfl).symm.trans read)
            obtain ⟨here, others⟩ := List.forall_mem_cons.1 held
            exact here.append (ih others none later)
  exact all none accepts

/-- What the reader takes consists of characters and of whole tags. -/
theorem tagged (plain : Tagless tags) (listed : ∀ p ∈ tags, ∀ i, p.spells i = true → isTag i) (accepts : (whole tags).Accepts t) :
    Tagged isTag t := by
  have all := tagged_meaning plain listed (d := Draft.chars t) (by rwa [Draft.text_chars]) (by simp)
  rwa [Draft.meaning_chars] at all

/-- A reader of more tags follows a reader of fewer. -/
theorem follows (plain : Tagless tags) (more : tags ⊆ tags') : Follows (whole tags) (whole tags') id where
  home := rfl
  step s c q step := by
    have grows {f : Spelling → Bool} (h : ∃ p ∈ tags, f p = true) : tags'.any f = true :=
      List.any_eq_true.2 (h.imp fun p hp => ⟨more hp.1, hp.2⟩)
    cases s with
    | none => exact step
    | some u =>
        rcases whole_step step with ⟨rfl, rfl, complete⟩ | ⟨other, rfl, begun⟩
        · simp only [whole, id, if_true]
          exact if_pos (grows complete)
        · simp only [whole, id, if_neg other]
          exact if_pos (grows begun)
  newline s q step := by
    obtain rfl := plain.home (by decide) (by decide) step
    exact (Option.some.inj step).symm

end Tagless

end Reader

end LessonText

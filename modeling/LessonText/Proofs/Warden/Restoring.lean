import Mathlib.Data.List.Infix
import LessonText.Proofs.Warden.Draft
import LessonText.Proofs.Warden.Ledger

/-! # Keys among other text

A text that shows pending keys between pieces of other text is restored piece by piece: each key gives
way to its fragment and no other text changes. The pieces may hold anything but the beginning of a key;
what stands beside a key never runs into it.
-/

namespace LessonText

open Unicode Draft

/-- Three question marks directly before a digit. -/
def Text.opensKey : Text → Bool
  | '?' :: '?' :: '?' :: c :: _ => isDigit c
  | _ => false

/-- The beginning of a key stands somewhere in a text. -/
def Text.BeginsKey (t : Text) : Prop := ∃ s ∈ t.tails, Text.opensKey s = true

instance (t : Text) : Decidable t.BeginsKey := inferInstanceAs (Decidable (∃ s ∈ t.tails, _))

/-- A list that avoids an element lies before or behind it. -/
theorem infix_split {α : Type} {l before behind : List α} {y : α}
    (inside : l <:+: before ++ y :: behind) (avoids : y ∉ l) : l <:+: before ∨ l <:+: behind := by
  obtain ⟨a, z, whole⟩ := inside
  rw [List.append_assoc] at whole
  rcases List.append_eq_append_iff.1 whole with ⟨u, rfl, later⟩ | ⟨u, rfl, later⟩
  · rcases List.append_eq_append_iff.1 later with ⟨v, rfl, -⟩ | ⟨v, rfl, rest⟩
    · exact .inl ⟨a, v, List.append_assoc a l v⟩
    · cases v with
      | nil => exact .inl ⟨a, [], by simp⟩
      | cons x v =>
          obtain ⟨rfl, -⟩ := List.cons.inj rest
          simp at avoids
  · cases u with
    | nil =>
        cases l with
        | nil => exact .inl (List.nil_infix)
        | cons x l =>
            obtain ⟨rfl, -⟩ := List.cons.inj later
            simp at avoids
    | cons x u =>
        obtain ⟨-, rfl⟩ := List.cons.inj later
        exact .inr ⟨u, z, List.append_assoc u l z⟩

namespace Draft

theorem free_chars {t : Text} (h : ¬ t.BeginsKey) : Free (chars t) := by
  rintro c ⟨a, z, whole⟩
  rw [← Bool.not_eq_true]
  intro digit
  have read := congrArg text whole
  rw [text_chars, text_append, text_append] at read
  have behind : t = text a ++ '?' :: '?' :: '?' :: c :: text z := by simp [← read, Token.text]
  exact h ⟨_, (List.mem_tails _ _).2 ⟨text a, behind.symm⟩, digit⟩

theorem Free.append_ward {d e : Draft} (w : Ward) (hd : Free d) (he : Free e) :
    Free (d ++ .ward w :: e) := by
  intro c inside
  rcases infix_split inside (by simp) with before | behind
  · exact hd c before
  · exact he c behind

end Draft

namespace Warden

/-- Putting back the keys of a draft gives what it means, and releases exactly its wards. -/
theorem recover_keys {w : Warden} {d : Draft} (distinct : (w.wards.map Prod.fst).Nodup)
    (held : ∀ v ∈ Draft.wards d, (v.key, v.data) ∈ w.wards)
    (once : ((Draft.wards d).map Ward.key).Nodup) : w.recover (keys d) =
      ⟨meaning d, { w with wards := w.wards.filter fun p => !((Draft.wards d).map Ward.key).contains p.1 }, []⟩ := by
  induction d generalizing w with
  | nil =>
      have all : w.wards.filter (fun _ => true) = w.wards := List.filter_eq_self.2 fun _ _ => rfl
      exact congrArg (fun wards => Recovery.mk [] ⟨w.issued, wards⟩ []) all.symm
  | cons x d ih =>
      cases x with
      | char c =>
          have later := ih distinct held once
          rw [keys, List.map_cons, recover, ← keys, later]
          rfl
      | ward v =>
          rw [wards_ward, List.map_cons, List.nodup_cons] at once
          rw [wards_ward, List.forall_mem_cons] at held
          obtain ⟨rest, given, -, -⟩ := retrieve_of_mem distinct held.1
          have released : (w.retrieve v.key).warden = { w with wards := w.wards.filter (·.1 != v.key) } :=
            retrieve_warden w v.key
          -- The other wards of the draft are still in custody.
          have kept : ∀ u ∈ Draft.wards d, (u.key, u.data) ∈ w.wards.filter (·.1 != v.key) := by
            intro u hu
            refine List.mem_filter.2 ⟨held.2 u hu, ?_⟩
            rw [bne_iff_ne]
            rintro same
            exact once.1 (same ▸ List.mem_map_of_mem hu)
          have later := ih (w := { w with wards := w.wards.filter (·.1 != v.key) })
            (distinct.sublist (List.filter_sublist.map _)) kept once.2
          rw [keys, List.map_cons, recover, ← keys, released, later, given, List.filter_filter]
          refine congrArg (fun wards => Recovery.mk _ ⟨w.issued, wards⟩ []) (List.filter_congr fun p _ => ?_)
          rw [wards_ward, List.map_cons, List.contains_cons, Bool.not_or, Bool.and_comm]
          rfl

/-- A key in a text, what it was issued for, and the text behind it. -/
structure Shown where
  key : Text
  fragment : Text
  behind : Text

/-- Some text, and then keys with the text behind each. -/
def showing (first : Text) (parts : List Shown) : Text := first ++ parts.flatMap fun p => p.key ++ p.behind

/-- The same text with fragments for keys. -/
def restored (first : Text) (parts : List Shown) : Text :=
  first ++ parts.flatMap fun p => p.fragment ++ p.behind

/-- Keys between pieces of text that begin no key are the wards of a draft. -/
theorem exists_draft {parts : List Shown}
    (issued : ∀ p ∈ parts, p.fragment ≠ [] ∧ ∃ n, p.key = keyFor n p.fragment) : ∀ {first : Text},
      (∀ t ∈ first :: parts.map Shown.behind, ¬ t.BeginsKey) → ∃ d, text d = showing first parts ∧
        meaning d = restored first parts ∧ Free d ∧
        (Draft.wards d).map (fun v => (v.key, v.data)) = parts.map fun p => (p.key, p.fragment) := by
  induction parts with
  | nil =>
      intro first plain
      refine ⟨chars first, by simp [showing], by simp [restored], free_chars (plain _ (by simp)), by simp⟩
  | cons p parts ih =>
      intro first plain
      obtain ⟨here, later⟩ := List.forall_mem_cons.1 plain
      obtain ⟨⟨full, n, key⟩, others⟩ := List.forall_mem_cons.1 issued
      obtain ⟨d, shows, means, free, held⟩ := ih others later
      let v : Ward := ⟨n, p.fragment, full⟩
      have hv : v.key = p.key := key.symm
      refine ⟨chars first ++ .ward v :: d, ?_, ?_, (free_chars here).append_ward v free, ?_⟩
      · simp [shows, showing, Token.text, hv]
      · simp [means, restored, Token.meaning, v]
      · simp [held, hv, v]

/-- After any steps on a fresh warden, a text of distinct pending keys between pieces that begin no key is
    restored: each key becomes its fragment, and exactly those wards are released. Every issued key is
    found whole, whatever stands around it. -/
theorem reinstate_showing (steps : List Step) (first : Text) (parts : List Shown)
    (held : ∀ p ∈ parts, (p.key, p.fragment) ∈ (Account.after steps).warden.wards)
    (distinct : (parts.map Shown.key).Nodup)
    (plain : ∀ t ∈ first :: parts.map Shown.behind, ¬ t.BeginsKey) :
    let a := Account.after steps
    a.warden.reinstate (showing first parts) = ⟨restored first parts,
        { a.warden with wards := a.warden.wards.filter fun w => !(parts.map Shown.key).contains w.1 }, []⟩ ∧
      ∀ i ∈ a.ledger, ∀ before behind, findKey before (i.key ++ behind) = some (i.key, i.key.length) := by
  intro a
  have sound := Account.Sound.after steps
  have issued : ∀ p ∈ parts, p.fragment ≠ [] ∧ ∃ n, p.key = keyFor n p.fragment := by
    intro p hp
    obtain ⟨i, hi, ward⟩ := List.mem_map.1 (sound.wards_perm.mem_iff.1 (held p hp))
    obtain ⟨full, n, -, key⟩ := sound.numbered i (List.mem_filter.1 hi).1
    obtain ⟨sameKey, same⟩ := Prod.mk.inj ward
    rw [← show i.key = p.key from sameKey, ← show i.fragment = p.fragment from same]
    exact ⟨full, n, key⟩
  obtain ⟨d, shows, means, free, custody⟩ := exists_draft issued plain
  have keys_eq : (Draft.wards d).map Ward.key = parts.map Shown.key := by
    have first := congrArg (List.map Prod.fst) custody
    simpa [Function.comp_def] using first
  refine ⟨?_, fun i hi before behind => ?_⟩
  · have wardsHeld : ∀ v ∈ Draft.wards d, (v.key, v.data) ∈ a.warden.wards := by
      intro v hv
      have listed : (v.key, v.data) ∈ parts.map fun p => (p.key, p.fragment) :=
        custody ▸ List.mem_map_of_mem hv
      obtain ⟨p, hp, e⟩ := List.mem_map.1 listed
      exact e ▸ held p hp
    rw [← shows, ← means, ← keys_eq, reinstate, Text.cut, cut_of_free free]
    exact recover_keys sound.keys_nodup wardsHeld (keys_eq ▸ distinct)
  · obtain ⟨full, n, -, key⟩ := sound.numbered i hi
    rw [key]
    exact findKey_keyFor full n before behind

/-- Question marks and digits directly beside keys, and two keys that touch each other. -/
theorem reinstate_showing_abutted :
    let steps : List Step := [.protect "a", .protect "bc", .retrieve "x", .protect "a"]
    let parts : List Shown := [⟨"???0YQ::???", "a", "5??"⟩, ⟨"???2YQ::???", "a", []⟩, ⟨"???1YmM:???", "bc", "7"⟩]
    (Account.after steps).warden.reinstate (showing "1a????" parts) = ⟨restored "1a????" parts, ⟨3, []⟩, []⟩ :=
  (reinstate_showing [.protect "a", .protect "bc", .retrieve "x", .protect "a"] "1a????"
    [⟨"???0YQ::???", "a", "5??"⟩, ⟨"???2YQ::???", "a", []⟩, ⟨"???1YmM:???", "bc", "7"⟩]
    (by decide) (by decide) (by decide)).1

end Warden

end LessonText

import LessonText.Markup.Render
import LessonText.Proofs.Markup.Rewriting
import LessonText.Proofs.Markup.Safety

/-! # Places where no ward may stand

The contents of code and of an equation on a line of its own go into custody as they are, and so does
the address of a link. A ward among them would never come back. The hazards here keep wards out of these
places: a ward must not stand behind certain marks.
-/

namespace LessonText

open Draft Pattern Unicode

namespace Hazard

def Part.gap : Part (Option Char) := ⟨false, Option.isNone⟩

def Part.char (c : Char) : Part (Option Char) := ⟨false, (· == some c)⟩

/-- A mark, any characters of a class, and something that must not stand behind them. -/
def behind (mark : Text) (between : Char → Bool) (last : Hazard (Option Char)) :
    Hazard (Option Char) :=
  mark.map Part.char ++ ⟨true, fun a => a.any between⟩ :: last

/-- A gap behind a mark that begins code or an equation, in one line. -/
def inBlock : List (Hazard (Option Char)) :=
  ["    ", "\t", "math:", "maths:"].map fun mark : String => behind mark inLine [Part.gap]

/-- A gap behind the opening mark of an equation in a line. -/
def inEquation : Hazard (Option Char) := behind "\x7bmath" inLine [Part.gap]

/-- A gap behind an address, or a sign that may become one, perhaps with exclamation marks between. -/
def inAddress : Hazard (Option Char) :=
  behind "://" Span.isAddressChar
    [⟨true, fun a => a.any (· == '!')⟩, ⟨false, fun a => a.all (anyOf "\x7b[")⟩]

/-- A text in whatever letter case. -/
def fold (t : Text) : Hazard (Option Char) := t.map fun c => ⟨false, fun a => a.any (sameLetter c)⟩

/-- An element that may turn out to be empty, behind something that another text may go on from. -/
def abutted (name : Text) : Hazard (Option Char) :=
  [⟨false, fun a => a.any fun c => c != '\n' && c != '>'⟩, Part.char '<'] ++ fold name ++ [Part.char '>']

/-- An address in angle brackets that are no entities. -/
def bracketed : List (Hazard (Option Char)) :=
  [("<http" : Text).map Part.char,
    [Part.char '<', ⟨true, fun a => a.any Span.isMailboxChar⟩, Part.char '@']]

/-- The marks of items. -/
def itemMarks : List (Hazard (Option Char)) :=
  [("..." : Text).map Part.char, fold "emoji:", fold "meta:"]

/-- A gap, or a sign that may become one; the sign may follow an exclamation mark, and may be an escaped
    bracket. -/
def behindItem : Hazard (Option Char) :=
  [⟨true, fun a => a.any (anyOf "!&lt")⟩, ⟨false, fun a => a.all (anyOf "\x7b[\x60*_;")⟩]

/-- A gap behind the mark of an item, or a sign that may become one. -/
def inItem : List (Hazard (Option Char)) := itemMarks.map (· ++ behindItem)

/-- A question mark before a value of the metadata. -/
def beforeValue : Hazard (Option Char) := Part.char '?' :: fold "meta:"

theorem Matches.append {α : Type} {h k : Hazard α} {t u : List α} (ht : Matches h t)
    (hu : Matches k u) : Matches (h ++ k) (t ++ u) := by
  induction ht with
  | nil => exact hu
  | one ha _ ih => exact .one ha ih
  | stop _ ih => exact .stop ih
  | more ha _ ih => exact .more ha ih

theorem matches_gap : Matches [Part.gap] [none] := .one rfl .nil

theorem matches_mark (mark : Text) : Matches (mark.map Part.char) (mark.map some) := by
  induction mark with
  | nil => exact .nil
  | cons c mark ih => exact .one (by simp) ih

theorem matches_run {between : Char → Bool} {t : Text} (ht : ∀ c ∈ t, between c = true)
    {k : Hazard (Option Char)} {u : List (Option Char)} (hu : Matches k u) :
    Matches (⟨true, fun a => a.any between⟩ :: k) (t.map some ++ u) := by
  induction t with
  | nil => exact .stop hu
  | cons c t ih =>
      obtain ⟨hc, ht⟩ := List.forall_mem_cons.1 ht
      exact .more hc (ih ht)

theorem matches_behind {mark t : Text} {between : Char → Bool} {last : Hazard (Option Char)}
    (ht : ∀ c ∈ t, between c = true) {u : List (Option Char)} (hu : Matches last u) :
    Matches (behind mark between last) (mark.map some ++ (t.map some ++ u)) :=
  (matches_mark mark).append (matches_run ht hu)

end Hazard

/-! ## What is watched -/

namespace Hazard

/-- What is watched until the page is cleaned up; more where items are looked for. -/
def ofPage (items : Bool) : List (Hazard (Option Char)) :=
  [abutted "p", abutted "div"] ++ bracketed ++ if items then beforeValue :: inItem else []

/-- What is watched as long as addresses are read. -/
def ofAddresses (items : Bool) : List (Hazard (Option Char)) := inAddress :: ofPage items

/-- What is watched before equations in a line are read. -/
def ofSpans (items : Bool) : List (Hazard (Option Char)) := inEquation :: ofAddresses items

/-- What is watched while lines are put together to blocks. -/
def ofBlocks (items : Bool) : List (Hazard (Option Char)) := inBlock ++ ofSpans items

/-- Most is watched where items are looked for. -/
theorem ofPage_subset (items : Bool) : ofPage items ⊆ ofPage true := by
  cases items with
  | false => exact List.append_subset.2 ⟨List.subset_append_left _ _, List.nil_subset _⟩
  | true => exact List.Subset.refl _

theorem ofAddresses_subset (items : Bool) : ofAddresses items ⊆ ofAddresses true :=
  List.cons_subset_cons _ (ofPage_subset items)

theorem ofBlocks_subset (items : Bool) : ofBlocks items ⊆ ofBlocks true :=
  List.append_subset.2 ⟨List.subset_append_left _ _, List.subset_append_of_subset_right _
    (List.cons_subset_cons _ (ofAddresses_subset items))⟩

end Hazard

open Hazard

/-- Nothing that a draft means looks like the beginning of a key. -/
def Watch.keys : Watch := .ofMeaning keyHazard

/-- The keys are watched, and hazards of the shape. -/
def watches (hazards : List (Hazard (Option Char))) : List Watch :=
  .keys :: hazards.map .ofShape

theorem watches_subset {hs hs' : List (Hazard (Option Char))} (h : hs ⊆ hs') :
    watches hs ⊆ watches hs' :=
  List.cons_subset_cons _ (List.map_subset _ h)

/-- A quiet draft means nothing that looks like the beginning of a key. -/
theorem spares_meaning {d : Draft} (quiet : Watch.keys.Quiet d) : keyHazard.Spares (meaning d) := quiet

theorem spares_text {d : Draft} (quiet : Watch.keys.Quiet d) (none : wards d = []) :
    keyHazard.Spares (text d) := by
  have plain := spares_meaning quiet
  rwa [eq_chars none, meaning_chars] at plain

/-- A ward alone is quiet if its data are. -/
theorem quiet_ward {hs : List (Hazard (Option Char))} (gap : hs.all (safe · [] [none]) = true)
    {w : Ward} (data : keyHazard.Spares w.data) : Calm (watches hs) [.ward w] := by
  intro x hx
  rcases List.mem_cons.1 hx with rfl | hx
  · have plain : safe keyHazard [] (w.data.map some) = true := data
    simpa [Watch.Quiet, Watch.keys, Watch.ofMeaning, Token.meaning] using plain
  · obtain ⟨h, hh, rfl⟩ := List.mem_map.1 hx
    exact List.all_eq_true.1 gap h hh

/-- Taking harmless data into custody leaves nothing to watch. -/
theorem Turns.protect_calm {hs : List (Hazard (Option Char))}
    (gap : hs.all (safe · [] [none]) = true) {t : Text}
    (data : keyHazard.Spares t) : Turns (Rendering.protect t) [] (Calm (watches hs)) := by
  by_cases empty : t = []
  · subst empty
    have nothing : Calm (watches hs) [] := fun x _ => by
      rw [Watch.Quiet, Watch.nil]
      rfl
    exact fun others s held => ⟨[], s, rfl, held, nothing⟩
  · refine (Turns.protect empty).mono ?_
    rintro d ⟨w, rfl, rfl⟩
    exact quiet_ward gap data

/-- Harmless data go into custody, between texts that end every word. -/
theorem Turns.protect_between {hs : List (Hazard (Option Char))} {past old : Draft} {data t t' : Text}
    (gap : hs.all (safe · [] [none]) = true) (safe : keyHazard.Spares data)
    (ends : (watches hs).all (fun x => x.ends t && x.ends t') = true) :
    Turns (do return t ++ (← Rendering.protect data) ++ t') []
      fun new => ∀ x ∈ watches hs, x.Allows past old new := by
  refine (Turns.protect_calm gap safe).andThen fun d calm => ?_
  refine .pure_of (d := chars t ++ d ++ chars t') ?_ (by simp) (by simp)
  intro x hx
  obtain ⟨ht, ht'⟩ := Bool.and_eq_true_iff.1 (List.all_eq_true.1 ends x hx)
  exact .enclosed ht ht' fun _ => calm x hx

variable {d e : Draft} {t u v mark : Text} {between : Char → Bool} {last : Hazard (Option Char)}

/-- A draft that shows a word of the hazard is not quiet. -/
theorem not_quiet_of_shape {h : Hazard (Option Char)} {a word z : List (Option Char)}
    (matched : Matches h word) (ne : word ≠ []) (shown : shape d = a ++ word ++ z) :
    ¬ (Watch.ofShape h).Quiet d := by
  intro quiet
  have safe : Hazard.safe h [] (shape d) = true := quiet
  rw [shown] at safe
  exact not_matches_of_safe safe ne matched

/-- A quiet draft has no ward behind the mark. -/
theorem not_quiet_behind {w : Ward} (ht : ∀ c ∈ t, between c = true) (gap : Matches last [none]) :
    ¬ (Watch.ofShape (behind mark between last)).Quiet
      (Draft.chars (u ++ mark ++ t) ++ .ward w :: e) :=
  not_quiet_of_shape (a := u.map some) (z := shape e) (matches_behind ht gap) (by simp)
    (by simp [Token.letter?])

/-- A text that goes on with the class behind the mark shows no ward. -/
theorem wards_behind (quiet : (Watch.ofShape (behind mark between last)).Quiet d)
    (gap : Matches last [none]) (h : text d = u ++ mark ++ v) (hu : '?' ∉ u ++ mark)
    (hv : ∀ c ∈ v, between c = true) : wards d = [] := by
  obtain ⟨f, rfl, hf⟩ := split_left h hu
  rw [wards_append, wards_chars, List.nil_append]
  by_contra some
  obtain ⟨t, w, e, rfl⟩ := exists_ward some
  have inside : ∀ c ∈ t, between c = true := fun c hc => hv c (by simp [← hf, hc])
  rw [← List.append_assoc, ← chars_append] at quiet
  exact not_quiet_behind inside gap quiet

end LessonText

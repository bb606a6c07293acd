import Mathlib.Data.List.Induction
import LessonText.Lesson.Metadata
import LessonText.Proofs.Text.Escaping

/-! # The metadata of a header

Each line of a header is an entry or none. The entries are kept in the order in which their keys first appear, and of several
values for one key the last counts. What is kept is safe to show.
-/

namespace LessonText

open Unicode

/-! ## Values by their names -/

namespace Entries

variable {α : Type} {name n : Text} {value : α} {entries : Entries α} {entry : Text × α}

/-- The names, in the order in which they first appear. -/
def names (entries : Entries α) : List Text := entries.map Prod.fst

/-- Values given one after another. -/
def ofList (given : List (Text × α)) : Entries α := given.foldl (fun entries e => entries.insert e.1 e.2) []

theorem names_cons (entries : Entries α) : names (entry :: entries) = entry.1 :: names entries := rfl

theorem mem_insert (h : entry ∈ entries.insert name value) : entry ∈ entries ∨ entry = (name, value) := by
  induction entries with
  | nil => exact .inr (List.mem_singleton.1 h)
  | cons first entries ih =>
      rw [Entries.insert] at h
      split at h
      · rename_i same
        rcases List.mem_cons.1 h with rfl | h
        · exact .inr (by rw [same])
        · exact .inl (List.mem_cons_of_mem _ h)
      · rcases List.mem_cons.1 h with rfl | h
        · exact .inl List.mem_cons_self
        · exact (ih h).imp_left (List.mem_cons_of_mem _)

theorem names_insert : (entries.insert name value).names =
    if name ∈ entries.names then entries.names else entries.names ++ [name] := by
  induction entries with
  | nil => rfl
  | cons first entries ih =>
      obtain ⟨m, v⟩ := first
      rw [Entries.insert]
      by_cases same : m = name
      · subst same
        simp [names]
      · rw [if_neg same, names_cons, names_cons, ih]
        by_cases old : name ∈ names entries
        · simp [old]
        · simp [old, Ne.symm same]

theorem lookup_insert : (entries.insert name value).lookup n = if n = name then some value else entries.lookup n := by
  induction entries with
  | nil =>
      by_cases found : n = name
      · simp [Entries.insert, found]
      · simp [Entries.insert, List.lookup_cons, beq_false_of_ne found, found]
  | cons first entries ih =>
      obtain ⟨m, v⟩ := first
      rw [Entries.insert]
      by_cases found : n = m
      · subst found
        by_cases same : n = name <;> simp [same]
      · have other : (n == m) = false := beq_false_of_ne found
        by_cases same : m = name
        · subst same
          simp [List.lookup_cons, other, found]
        · rw [if_neg same, List.lookup_cons, other, List.lookup_cons, other, ih]

theorem ofList_concat (given : List (Text × α)) (e : Text × α) : ofList (given ++ [e]) = (ofList given).insert e.1 e.2 := by
  rw [ofList, List.foldl_append]
  rfl

/-- What is kept has been given. -/
theorem mem_ofList {given : List (Text × α)} (h : entry ∈ ofList given) : entry ∈ given := by
  induction given using List.reverseRecOn with
  | nil => exact h
  | append_singleton given e ih =>
      rw [ofList_concat] at h
      rcases mem_insert h with old | rfl
      · exact List.mem_append_left _ (ih old)
      · exact List.mem_append_right _ (List.mem_singleton.2 rfl)

/-- The names are those given, each at its first place. -/
theorem names_ofList (given : List (Text × α)) : (ofList given).names = (given.map Prod.fst).eraseDups := by
  induction given using List.reverseRecOn with
  | nil => rfl
  | append_singleton given e ih =>
      rw [ofList_concat, names_insert, ih, List.map_append, List.eraseDups_append]
      by_cases old : e.1 ∈ given.map Prod.fst
      · simp [old, List.removeAll]
      · simp [old, List.removeAll, List.eraseDups_cons]

/-- Of the values given for a name the last counts. -/
theorem lookup_ofList (given : List (Text × α)) : (ofList given).lookup n = (given.reverse.find? (·.1 == n)).map Prod.snd := by
  induction given using List.reverseRecOn with
  | nil => rfl
  | append_singleton given e ih =>
      rw [ofList_concat, lookup_insert, List.reverse_concat, List.find?_cons, ih]
      by_cases here : n = e.1
      · simp [here]
      · simp [here, beq_false_of_ne (Ne.symm here)]

end Entries

/-! ## Lines of a header -/

namespace Text

variable {c : Char} {t line : Text} {lines : List Text}

/-- No line break stands in a text. -/
def Unbroken (t : Text) : Prop := ∀ c ∈ t, isLineBreak c = false

theorem headerLines_cons (plain : isLineBreak c = false) (t : Text) : headerLines (c :: t) = consLine c (headerLines t) := by
  rw [headerLines, plain]
  · rfl
  · rintro _ rfl -
    cases plain

theorem headerLines_append (plain : line.Unbroken) (t : Text) : headerLines (line ++ '\n' :: t) = line :: headerLines t := by
  induction line with
  | nil => rw [List.nil_append, headerLines] <;> simp [isLineBreak, inRanges]
  | cons c line ih =>
      obtain ⟨here, later⟩ := List.forall_mem_cons.1 plain
      rw [List.cons_append, headerLines_cons here, ih later]
      rfl

/-- A text without line breaks is one line. -/
theorem headerLines_single (full : t ≠ []) (plain : t.Unbroken) : t.headerLines = [t] := by
  induction t with
  | nil => exact absurd rfl full
  | cons c t ih =>
      obtain ⟨here, later⟩ := List.forall_mem_cons.1 plain
      rw [headerLines_cons here]
      cases t with
      | nil => rfl
      | cons d t =>
          rw [ih (List.cons_ne_nil d t) later]
          rfl

/-- Lines are found again, except for an empty one at the end. -/
theorem headerLines_join (plain : ∀ line ∈ lines, line.Unbroken) :
    headerLines (join "\n" lines) = lines ∨ headerLines (join "\n" lines) ++ [[]] = lines := by
  induction lines with
  | nil => exact .inl rfl
  | cons line lines ih =>
      obtain ⟨here, later⟩ := List.forall_mem_cons.1 plain
      cases lines with
      | nil =>
          by_cases full : line = []
          · exact .inr (by rw [full]; rfl)
          · exact .inl (headerLines_single full here)
      | cons next lines =>
          have first : headerLines (join "\n" (line :: next :: lines)) = line :: headerLines (join "\n" (next :: lines)) := by
            rw [join, List.append_assoc]
            · exact headerLines_append here _
            · exact List.cons_ne_nil _ _
          rw [first]
          exact (ih later).imp (congrArg (line :: ·)) (congrArg (line :: ·))

theorem trim_cons (space : isSpace c = true) (t : Text) : trim (c :: t) = trim t := by
  rw [trim, trimStart, List.dropWhile_cons_of_pos space]
  rfl

end Text

theorem isSpace_of_isWord {c : Char} (word : isWord c = true) : isSpace c = false := by
  rw [← Bool.not_eq_true]
  intro space
  have other := of_isSpace (p := fun c => !isWord c) (by decide +kernel) space
  rw [word] at other
  cases other

theorem isLineBreak_of_isWord {c : Char} (word : isWord c = true) : isLineBreak c = false := by
  rw [← Bool.not_eq_true]
  intro ends
  have none : (charsOf [(0x0A, 0x0D), (0x1C, 0x1E), (0x85, 0x85), (0x2028, 0x2029)]).all (fun c => !isWord c) = true := by
    decide +kernel
  have other := List.all_eq_true.1 none c (mem_charsOf ends)
  rw [word] at other
  cases other

namespace Metadata

variable {before key gap rest value line t : Text} {sign : Char}

/-- A line with an entry: a word, perhaps behind white space, and a sign, perhaps behind more of it. Anything may follow. -/
def IsEntry (line : Text) : Prop :=
  ∃ before key gap sign rest, line = before ++ (key ++ (gap ++ sign :: rest)) ∧ (∀ c ∈ before, isSpace c = true) ∧ key ≠ [] ∧
    (∀ c ∈ key, isWord c = true) ∧ (∀ c ∈ gap, isSpace c = true) ∧ isSeparator sign = true

theorem isSeparator_iff : isSeparator sign = true ↔ sign = ':' ∨ sign = ';' ∨ sign = '.' := by
  simp [isSeparator, or_assoc]

/-- The sign behind a key is neither a part of it nor of the white space before it. -/
theorem isSeparator_other (separates : isSeparator sign = true) : isSpace sign = false ∧ isWord sign = false := by
  rcases isSeparator_iff.1 separates with rfl | rfl | rfl <;> decide +kernel

/-- What an entry says is read. -/
theorem readLine?_entry (blank : ∀ c ∈ before, isSpace c = true) (full : key ≠ []) (word : ∀ c ∈ key, isWord c = true)
    (gapped : ∀ c ∈ gap, isSpace c = true) (separates : isSeparator sign = true) (rest : Text) :
    readLine? (before ++ (key ++ (gap ++ sign :: rest))) = some (key, Text.trim (dropHyphen rest)) := by
  obtain ⟨solid, other⟩ := isSeparator_other separates
  obtain ⟨d, behind, split, stops⟩ : ∃ d behind, gap ++ sign :: rest = d :: behind ∧ isWord d = false := by
    cases gap with
    | nil => exact ⟨sign, rest, rfl, other⟩
    | cons d gap =>
        refine ⟨d, gap ++ sign :: rest, rfl, ?_⟩
        rw [← Bool.not_eq_true]
        intro letter
        have space := gapped d List.mem_cons_self
        rw [isSpace_of_isWord letter] at space
        cases space
  obtain ⟨c, word', rfl⟩ := List.exists_cons_of_ne_nil full
  have start : Text.trimStart (before ++ (c :: word' ++ (gap ++ sign :: rest))) = c :: word' ++ (gap ++ sign :: rest) :=
    Warden.dropWhile_stop _ blank (isSpace_of_isWord (word c List.mem_cons_self))
  have name : (c :: word' ++ (gap ++ sign :: rest)).takeWhile isWord = c :: word' := by
    rw [split, Warden.takeWhile_stop behind word stops]
  have later : Text.trimStart ((c :: word' ++ (gap ++ sign :: rest)).dropWhile isWord) = sign :: rest := by
    rw [split, Warden.dropWhile_stop behind word stops, ← split]
    exact Warden.dropWhile_stop rest gapped solid
  rw [readLine?, start, name, later]
  exact if_pos separates

/-- Exactly the lines of entries are read. -/
theorem readLine?_eq_none_iff : readLine? line = none ↔ ¬ IsEntry line := by
  constructor
  · rintro none ⟨before, key, gap, sign, rest, rfl, blank, full, word, gapped, separates⟩
    rw [readLine?_entry blank full word gapped separates] at none
    cases none
  · intro other
    by_contra found
    refine other ?_
    rw [readLine?] at found
    split at found
    · rename_i c word sign rest name behind
      split at found
      · rename_i separates
        let start := Text.trimStart line
        refine ⟨line.takeWhile isSpace, start.takeWhile isWord, (start.dropWhile isWord).takeWhile isSpace, sign, rest, ?_,
          fun c hc => List.mem_takeWhile_imp hc, by rw [name]; exact List.cons_ne_nil _ _,
          fun c hc => List.mem_takeWhile_imp hc, fun c hc => List.mem_takeWhile_imp hc, separates⟩
        rw [← behind]
        simp only [start, Text.trimStart, List.takeWhile_append_dropWhile]
      · exact absurd rfl found
    · exact absurd rfl found

/-- The entry of a header line. -/
theorem readLine?_line (full : key ≠ []) (word : key.all isWord = true) (trimmed : value.trim = value) :
    readLine? (key ++ ": " ++ value) = some (key, value) := by
  have words := List.all_eq_true.1 word
  have read : readLine? ([] ++ (key ++ ([] ++ ':' :: ' ' :: value))) = some (key, Text.trim (dropHyphen (' ' :: value))) :=
    readLine?_entry (by simp) full words (by simp) rfl _
  have kept : Text.trim (dropHyphen (' ' :: value)) = value := (Text.trim_cons rfl value).trans trimmed
  rw [kept] at read
  rw [List.append_assoc]
  exact read

/-! ## What is kept -/

/-- The entry of a line as it is kept. -/
def kept? (line : Text) : Option (Text × Text) := (readLine? line).map fun e => (upperText e.1, Escape.html e.2)

theorem addLine_eq (m : Metadata) (line : Text) :
    (m.addLine line).entries = (kept? line).elim m.entries fun e => m.entries.insert e.1 e.2 := by
  rw [addLine, kept?]
  cases readLine? line <;> rfl

/-- The entries of lines are given one after another. -/
theorem foldl_addLine (lines : List Text) : (lines.foldl addLine {}).entries = .ofList (lines.filterMap kept?) := by
  induction lines using List.reverseRecOn with
  | nil => rfl
  | append_singleton lines line ih =>
      rw [List.foldl_append, List.filterMap_append, List.foldl_cons, List.foldl_nil, addLine_eq, ih, List.filterMap_cons]
      cases kept? line with
      | none => simp
      | some e => exact (Entries.ofList_concat _ e).symm

/-- Every value is kept as it can be shown. -/
theorem values_safe (header : Text) : ∀ entry ∈ (ofHeader header).entries, Escape.Safe entry.2 := by
  intro entry listed
  rw [ofHeader, foldl_addLine] at listed
  obtain ⟨line, -, read⟩ := List.mem_filterMap.1 (Entries.mem_ofList listed)
  obtain ⟨e, -, rfl⟩ := Option.map_eq_some_iff.1 read
  exact Escape.html_safe e.2

/-- Escaping for a page is a projection onto the texts that are safe to show, and every value of a header is one of them. -/
theorem escaping_projects (t header : Text) :
    Escape.Safe (Escape.html t) ∧ (Escape.html t = t ↔ Escape.Safe t) ∧ Escape.html (Escape.html t) = Escape.html t ∧
      ∀ entry ∈ (ofHeader header).entries, Escape.Safe entry.2 :=
  ⟨Escape.html_safe t, Escape.html_eq_self_iff, (Escape.html_safe t).html_eq, values_safe header⟩

/-- The line of an entry is one line. -/
theorem unbroken_line (word : key.all isWord = true) (line : value.Unbroken) : Text.Unbroken (key ++ ": " ++ value) := by
  have signs : ∀ c ∈ (": " : Text), isLineBreak c = false := by decide
  intro c hc
  rcases List.mem_append.1 hc with hc | hc
  · rcases List.mem_append.1 hc with hc | hc
    · exact isLineBreak_of_isWord (List.all_eq_true.1 word c hc)
    · exact signs c hc
  · exact line c hc

/-- The metadata of a header line. -/
theorem ofHeader_line (full : key ≠ []) (word : key.all isWord = true) (trimmed : value.trim = value) (line : value.Unbroken) :
    ofHeader (key ++ ": " ++ value) = ⟨[(upperText key, Escape.html value)]⟩ := by
  have single := unbroken_line word line
  rw [ofHeader, Text.headerLines_single (by simp [full]) single, List.foldl_cons, List.foldl_nil, addLine,
    readLine?_line full word trimmed]
  rfl

/-! ## Headers in writing -/

/-- An entry of a header, as an author writes it. -/
structure Entry where
  key : Text
  value : Text
  full : key ≠ []
  word : key.all isWord = true
  trimmed : value.trim = value
  unbroken : value.Unbroken

/-- A line of a header that is no entry. -/
structure Remark where
  text : Text
  unbroken : text.Unbroken
  noEntry : ¬ IsEntry text

/-- A line of a header. -/
inductive HeaderLine where
  | entry (e : Entry)
  | remark (r : Remark)

/-- The name under which an entry is kept. -/
def Entry.name (e : Entry) : Text := upperText e.key

/-- The line of an entry. -/
def Entry.text (e : Entry) : Text := e.key ++ ": " ++ e.value

namespace HeaderLine

def text : HeaderLine → Text
  | entry e => e.text
  | remark r => r.text

def entry? : HeaderLine → Option Entry
  | entry e => some e
  | remark _ => none

theorem kept?_text (line : HeaderLine) : kept? line.text = line.entry?.map fun e => (e.name, Escape.html e.value) := by
  cases line with
  | entry e =>
      rw [kept?, show (entry e).text = e.key ++ ": " ++ e.value from rfl, readLine?_line e.full e.word e.trimmed]
      rfl
  | remark r =>
      rw [kept?, show (remark r).text = r.text from rfl, readLine?_eq_none_iff.2 r.noEntry]
      rfl

theorem unbroken (line : HeaderLine) : line.text.Unbroken := by
  cases line with
  | entry e => exact unbroken_line e.word e.unbroken
  | remark r => exact r.unbroken

end HeaderLine

/-- The entries of a header, in order. -/
def entriesOf (lines : List HeaderLine) : List Entry := lines.filterMap HeaderLine.entry?

/-- A header of lines. -/
def headerOf (lines : List HeaderLine) : Text := Text.join "\n" (lines.map HeaderLine.text)

/-- An empty line at the end of a header would hold no entry. -/
theorem ofHeader_eq (lines : List HeaderLine) :
    (ofHeader (headerOf lines)).entries = .ofList ((entriesOf lines).map fun e => (e.name, Escape.html e.value)) := by
  have kept : (lines.map HeaderLine.text).filterMap kept? = (entriesOf lines).map fun e => (e.name, Escape.html e.value) := by
    rw [List.filterMap_map, entriesOf, List.map_filterMap]
    exact List.filterMap_congr fun line _ => line.kept?_text
  have unbroken : ∀ l ∈ lines.map HeaderLine.text, l.Unbroken := List.forall_mem_map.2 fun line _ => line.unbroken
  rw [ofHeader, ← kept, ← foldl_addLine]
  rcases Text.headerLines_join unbroken with whole | last
  · rw [headerOf, whole]
  · rw [← last, List.foldl_append]
    rfl

/-- The keys of a header are its distinct names in the order in which they first appear, and the value of a name, in whatever
    case, is that of its last entry; a name without an entry has none, and then a fallback stands. -/
theorem ofHeader_entries (lines : List HeaderLine) :
    let metadata := ofHeader (headerOf lines)
    metadata.entries.names = ((entriesOf lines).map Entry.name).eraseDups ∧
      (∀ key fallback, (metadata.get? key).or fallback =
        match (entriesOf lines).reverse.find? (·.name == upperText key) with
        | some e => some (Escape.html e.value)
        | none => fallback) ∧
      ∀ key, metadata.contains key = true ↔ ∃ e ∈ entriesOf lines, e.name = upperText key := by
  intro metadata
  have found (key : Text) : metadata.get? key =
      ((entriesOf lines).reverse.find? (·.name == upperText key)).map fun e => Escape.html e.value := by
    rw [get?, ofHeader_eq, Entries.lookup_ofList, ← List.map_reverse, List.find?_map, Option.map_map]
    rfl
  refine ⟨?_, fun key fallback => ?_, fun key => ?_⟩
  · rw [ofHeader_eq, Entries.names_ofList, List.map_map]
    rfl
  · rw [found]
    cases (entriesOf lines).reverse.find? (·.name == upperText key) <;> rfl
  · rw [contains, found, Option.isSome_map, List.find?_isSome]
    simp

/-- The last value counts, at the first place. -/
example : (ofHeader "Title: a\nfree text\n_x: \ntitle: - b: <c>").entries =
    ([("TITLE", "- b: &lt;c>"), ("_X", "")] : Entries Text) := by
  decide +kernel

end Metadata

end LessonText

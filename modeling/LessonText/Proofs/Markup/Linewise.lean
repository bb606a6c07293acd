import LessonText.Proofs.Markup.Lines
import LessonText.Proofs.Text.Alternating

/-! # The rule for a listing, line by line

What the rule for a listing makes of a text can be said without looking for matches: the text is cut at its newlines,
neighbouring lines of the listing are put together, and every such group is written anew. The newlines next to the group
go with it.
-/

namespace LessonText

open Pattern

namespace Text

theorem join_eq_intercalate (s : Text) (lines : List Text) : join s lines = s.intercalate lines := by
  induction lines with
  | nil => rfl
  | cons l lines ih =>
      cases lines with
      | nil => simp [join]
      | cons m lines => rw [join_cons_cons, ih, List.intercalate_cons_cons, List.append_assoc]

theorem join_splitOn (t : Text) : join "\n" (t.splitOn '\n') = t :=
  (join_eq_intercalate _ _).trans (List.intercalate_splitOn '\n')

theorem single_of_mem_splitOn (t : Text) : ∀ l ∈ t.splitOn '\n', '\n' ∉ l := by
  induction t with
  | nil => simp
  | cons c t ih =>
      rw [List.splitOn_cons_eq_if_modifyHead]
      split
      · simpa using ih
      · rename_i other
        obtain ⟨l, lines, split⟩ := List.exists_cons_of_ne_nil (List.splitOn_ne_nil '\n' t)
        rw [split] at ih ⊢
        rw [List.modifyHead_cons, List.forall_mem_cons]
        obtain ⟨here, later⟩ := List.forall_mem_cons.1 ih
        refine ⟨fun mem => ?_, later⟩
        rcases List.mem_cons.1 mem with rfl | mem
        · exact other rfl
        · exact here mem

end Text

/-- Contents on an own part of the page: trimmed if the run asks for it, after its last step, and between its tags. -/
def LineRun.enclosed (run : LineRun) (contents : Text) : Rendering Text := do
  let body := if run.trims then LineRun.trimmed contents else contents
  let body ← match run.finish with
    | some step => step body
    | none => pure body
  return "\n\n" ++ run.opening ++ body ++ run.closing ++ "\n\n"

theorem LineRun.render_eq (run : LineRun) (t : Text) : run.render t = run.enclosed (run.contents t) := rfl

namespace Block.Listing

/-- The lines of a text, in groups: neighbouring lines are together if both begin with a start, or neither does. -/
def groups (kind : Listing) (t : Text) : List (List Text) :=
  (t.splitOn '\n').splitBy fun l m => kind.isRow l == kind.isRow m

/-- What is written for neighbouring lines of a listing, with what stood before and behind them. -/
def written (kind : Listing) (run : LineRun) (before : Text) (lines : List Text) (behind : Text) : Rendering Text :=
  run.enclosed (before ++ (Text.join "\n" (lines.map fun l => run.wrapped (kind.rest l)) ++ behind))

/-- What is written for groups of lines. Lines without a start stay. -/
def writeGroups (kind : Listing) (run : LineRun) (before : Text) : List (List Text) → Rendering Text
  | [] => pure []
  | lines :: rest => do
    let behind : Text := if rest.isEmpty then [] else "\n"
    let here ← if lines.all kind.isRow then kind.written run before lines behind else pure (Text.join "\n" lines)
    return here ++ (← writeGroups kind run "\n" rest)

/-- A text with every group of lines of a listing written anew. -/
def linewise (kind : Listing) (run : LineRun) (t : Text) : Rendering Text := kind.writeGroups run [] (kind.groups t)

/-- Groups of lines of which every other one is of the listing; whether the first is. -/
inductive Grouped (kind : Listing) : Bool → List (List Text) → Prop where
  | last {row lines} : Alike kind row lines → Grouped kind row [lines]
  | cons {row lines rest} : Alike kind row lines → Grouped kind (!row) rest → Grouped kind row (lines :: rest)

theorem groups_grouped (kind : Listing) (t : Text) : ∃ row, Grouped kind row (kind.groups t) := by
  have full : kind.groups t ≠ [] := List.splitBy_ne_nil.2 (List.splitOn_ne_nil '\n' t)
  have single : ∀ lines ∈ kind.groups t, ∀ l ∈ lines, '\n' ∉ l := fun lines mem l hl =>
    Text.single_of_mem_splitOn t l <| by
      rw [← List.flatten_splitBy (fun l m => kind.isRow l == kind.isRow m) (t.splitOn '\n')]
      exact List.mem_flatten_of_mem mem hl
  obtain ⟨row, alternating⟩ : ∃ row, Alternating kind.isRow row (kind.groups t) := Alternating.splitBy kind.isRow _
  generalize kind.groups t = gs at full single alternating
  refine ⟨row, ?_⟩
  induction alternating with
  | nil => exact absurd rfl full
  | @cons row lines rest filled same later ih =>
      obtain ⟨here, others⟩ := List.forall_mem_cons.1 single
      cases later with
      | nil => exact .last ⟨filled, here, same⟩
      | cons => exact .cons ⟨filled, here, same⟩ (ih (List.cons_ne_nil _ _) others)

/-- The rule for lines that begin as the lines of a listing. -/
def ruleOf (kind : Listing) (run : LineRun) : Rule := ({ run with start := kind.run.start } : LineRun).rule

theorem advances (kind : Listing) (run : LineRun) : (kind.ruleOf run).pattern.Advances :=
  .of_passes (by cases kind <;> rfl)

namespace Alike

variable {kind : Listing} {lines : List Text} {b : Option Char} {bound : Nat} {a z t : Text}

theorem join_ne_nil (h : Alike kind true lines) : Text.join "\n" lines ≠ [] := by
  obtain ⟨line, lines, rfl⟩ := List.exists_cons_of_ne_nil h.full
  obtain ⟨u, joined⟩ := Text.join_cons "\n" line lines
  rw [joined]
  refine List.append_ne_nil_of_left_ne_nil ?_ u
  rintro rfl
  exact Bool.false_ne_true (kind.not_isRow_nil.symm.trans (h.same [] List.mem_cons_self))

/-- The rule writes neighbouring lines of the listing anew, with the newlines next to them. -/
theorem applyFrom_rows (run : LineRun) (h : Alike kind true lines) (before : a = ['\n'] ∨ a = [] ∧ b = none)
    (behind : Closes kind z t) (inside : (a ++ (Text.join "\n" lines ++ z) ++ t).length ≤ bound) :
    (kind.ruleOf run).applyFrom bound b (a ++ (Text.join "\n" lines ++ z) ++ t) = do
      return (← kind.written run a lines z) ++
        (← (kind.ruleOf run).applyFrom bound ((a ++ (Text.join "\n" lines ++ z)).getLast?.or b) t) := by
  have full : a ++ (Text.join "\n" lines ++ z) ≠ [] :=
    List.append_ne_nil_of_right_ne_nil _ (List.append_ne_nil_of_left_ne_nil h.join_ne_nil _)
  have ends : z = [] ∨ z = ['\n'] := behind.symm.imp And.left And.left
  have replaced : (kind.ruleOf run).replace ⟨a ++ (Text.join "\n" lines ++ z), []⟩ = kind.written run a lines z :=
    (LineRun.render_eq _ _).trans (congrArg run.enclosed (h.contents_eq run (before.symm.imp_left And.left) ends))
  rw [Rule.applyFrom_reads (r := kind.ruleOf run) full (h.block_reads before behind) inside, replaced]

theorem applyFrom_others (run : LineRun) (h : Alike kind false lines) (stops : Stops t) :
    (kind.ruleOf run).applyFrom bound b (Text.join "\n" lines ++ t) =
      (Text.join "\n" lines ++ ·) <$> (kind.ruleOf run).applyFrom bound ((Text.join "\n" lines).getLast?.or b) t :=
  Rule.applyFrom_passes (r := kind.ruleOf run) (h.block_passes stops)

theorem writeGroups_rows (run : LineRun) (h : Alike kind true lines) {before : Text} {rest : List (List Text)} :
    kind.writeGroups run before (lines :: rest) = do
      return (← kind.written run before lines (if rest.isEmpty then [] else "\n")) ++ (← kind.writeGroups run "\n" rest) := by
  rw [writeGroups, if_pos (List.all_eq_true.2 h.same)]

theorem writeGroups_others (run : LineRun) (h : Alike kind false lines) {before : Text} {rest : List (List Text)} :
    kind.writeGroups run before (lines :: rest) = (Text.join "\n" lines ++ ·) <$> kind.writeGroups run "\n" rest := by
  obtain ⟨line, lines, rfl⟩ := List.exists_cons_of_ne_nil h.full
  have none : ¬ (line :: lines).all kind.isRow = true := fun all =>
    Bool.false_ne_true ((h.same line List.mem_cons_self).symm.trans (List.all_eq_true.1 all line List.mem_cons_self))
  rw [writeGroups, if_neg none, pure_bind, map_eq_pure_bind]

end Alike

namespace Grouped

variable {kind : Listing} {row : Bool} {gs : List (List Text)} {b : Option Char} {bound : Nat}

theorem flatten_ne_nil (h : Grouped kind row gs) : gs.flatten ≠ [] := by
  cases h with
  | last here | cons here => simp [here.full]

/-- Before a group of other lines no line of the listing begins. -/
theorem misses (h : Grouped kind false gs) : kind.run.start.Misses b (Text.join "\n" gs.flatten) := by
  have first {lines rest : List Text} (here : Alike kind false lines) :
      kind.run.start.Misses b (Text.join "\n" (lines ++ rest)) := by
    obtain ⟨line, lines, rfl⟩ := List.exists_cons_of_ne_nil here.full
    obtain ⟨u, joined, stops⟩ := Text.join_stops (.inl rfl) line (lines ++ rest)
    rw [List.append_nil] at joined
    rw [List.cons_append, joined]
    exact start_misses (here.same line List.mem_cons_self) stops
  cases h with
  | last here | cons here => exact first here

/-- The rule writes one group after another. A group of the listing is found with the newline before it, which `lead` is. -/
theorem applyFrom_eq (run : LineRun) (h : Grouped kind row gs) : ∀ {b before lead},
    row = true ∧ lead = before ∧ (before = ['\n'] ∨ before = [] ∧ b = none) ∨ row = false ∧ lead = [] →
      (lead ++ Text.join "\n" gs.flatten).length ≤ bound →
        (kind.ruleOf run).applyFrom bound b (lead ++ Text.join "\n" gs.flatten) = kind.writeGroups run before gs := by
  -- a group of the listing takes the newline behind it, so the next group comes without one before it; behind other lines
  -- the newline is still there
  induction h with
  | @last row lines here =>
      have nothing {b : Option Char} : (kind.ruleOf run).applyFrom bound b [] = pure [] :=
        Rule.applyFrom_nil (advances kind run).misses_nil
      rw [List.flatten_singleton]
      rintro b before _ (⟨rfl, rfl, ends⟩ | ⟨rfl, rfl⟩) inside
      · have step := here.applyFrom_rows run ends (.inr ⟨rfl, rfl⟩) (by simpa using inside)
        rw [nothing, List.append_nil, List.append_nil] at step
        rw [step, here.writeGroups_rows]
        rfl
      · have step : (kind.ruleOf run).applyFrom bound b (Text.join "\n" lines ++ []) = _ := here.applyFrom_others run (.inl rfl)
        rw [nothing, List.append_nil] at step
        rw [List.nil_append, step, here.writeGroups_others]
        rfl
  | @cons row lines rest here later ih =>
      have joined : Text.join "\n" (lines :: rest).flatten = Text.join "\n" lines ++ ("\n" ++ Text.join "\n" rest.flatten) :=
        Text.join_append here.full later.flatten_ne_nil
      have more : rest.isEmpty = false := by
        cases later <;> rfl
      rw [joined]
      rintro b before _ (⟨rfl, rfl, ends⟩ | ⟨rfl, rfl⟩) inside
      · have closes : Closes kind "\n" (Text.join "\n" rest.flatten) := .inl ⟨rfl, fun _ => later.misses⟩
        have behind {b : Option Char} : (kind.ruleOf run).applyFrom bound b ([] ++ Text.join "\n" rest.flatten) =
            kind.writeGroups run "\n" rest := ih (.inr ⟨rfl, rfl⟩) (by simp at inside ⊢; omega)
        rw [← List.append_assoc (Text.join "\n" lines), ← List.append_assoc] at inside ⊢
        rw [here.applyFrom_rows run ends closes inside, here.writeGroups_rows, more, ← behind]
        rfl
      · have behind {b : Option Char} : (kind.ruleOf run).applyFrom bound b ("\n" ++ Text.join "\n" rest.flatten) =
            kind.writeGroups run "\n" rest := ih (.inl ⟨rfl, rfl, .inl rfl⟩) (by simp at inside ⊢; omega)
        have stops : Stops ("\n" ++ Text.join "\n" rest.flatten) := .inr ⟨_, rfl⟩
        rw [List.nil_append, here.applyFrom_others run stops, here.writeGroups_others, behind]

end Grouped

/-- The rule for lines that begin as the lines of a listing is the same as writing every group of them anew, whatever
    stands around the lines and around the group and whatever the last step on its contents is. -/
theorem rule_eq_linewise (kind : Listing) (run : LineRun) (t : Text) :
    ({ run with start := kind.run.start } : LineRun).rule.apply t = kind.linewise run t := by
  obtain ⟨row, grouped⟩ := kind.groups_grouped t
  have text : Text.join "\n" (kind.groups t).flatten = t := by rw [groups, List.flatten_splitBy, Text.join_splitOn]
  have whole : (kind.ruleOf run).applyFrom t.length none ([] ++ Text.join "\n" (kind.groups t).flatten) =
      kind.linewise run t := by
    refine grouped.applyFrom_eq run ?_ (by rw [text]; exact le_rfl)
    cases row
    · exact .inr ⟨rfl, rfl⟩
    · exact .inl ⟨rfl, rfl, .inr ⟨rfl, rfl⟩⟩
  rwa [text] at whole

example : (linewise .bullets Block.bullets "One\n* two\n  +  three\n\n4" {}).1 =
    "One\n\n<ul>\n<li>two</li>\n<li>three</li>\n</ul>\n\n\n4" := by
  decide +kernel

end Block.Listing

end LessonText

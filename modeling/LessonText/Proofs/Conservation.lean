import LessonText.Proofs.Printing
import Mathlib.Data.List.Basic

/-! # What splitting keeps

The source of a lesson is header lines and passages, each a marker line with the unmarked lines that
follow it. The blocks of the passages fall into runs, one for each problem. A problem keeps what every
block of its run says, but of the explanations only the last one.
-/

namespace LessonText

/-- A marker line and the unmarked lines that follow it. -/
structure Passage where
  opening : Text
  further : List Text
  part : Part
  /-- What stands behind the marker. -/
  first : Text
  opens : Line.read opening = .ok (.marker part first)
  unmarked : ∀ line ∈ further, Line.read line = .ok (.plain line)

namespace Passage

def lines (p : Passage) : List Text := p.opening :: p.further

/-- The text of a passage: its lines without the marker, each with its end. A marker alone on its line
    leaves nothing of that line. -/
def content (p : Passage) : Text :=
  LessonSource.firstLine p.first ++ LessonSource.endLines p.further

def block (p : Passage) : Block := ⟨p.part, p.content⟩

def read (p : Passage) : List Line := .marker p.part p.first :: p.further.map .plain

end Passage

/-- The texts that are not empty. -/
def filled (texts : List Text) : List Text := texts.filter fun t => !t.isEmpty

/-- What a problem says in a part. -/
def ProblemSource.texts (part : Part) (p : ProblemSource) : List Text :=
  match part with
  | .intro => filled [p.intro]
  | .question => filled [p.question]
  | .right => p.right
  | .wrong => p.wrong
  | .explanation => filled [p.explanation]
  | .divider => []

/-- What a block says in a part. -/
def Block.texts (part : Part) (b : Block) : List Text :=
  ProblemSource.texts part (ProblemSource.add {} b.part b.content)

namespace LessonSource

/-- A source text consists of header lines and passages. -/
structure Consists (t : Text) (headings : List Text) (passages : List Passage) : Prop where
  lines : Text.newlineLines t = headings ++ passages.flatMap Passage.lines
  unmarked : ∀ line ∈ headings, Line.read line = .ok (.plain line)

/-- The contents of the blocks of a part. -/
def contents (part : Part) (bs : List Block) : List Text :=
  (bs.filter fun b => b.part = part).map Block.content

/-- The blocks without a last one that has no content. -/
def kept (bs : List Block) : List Block :=
  if bs.getLast?.any (·.content.isEmpty) then bs.dropLast else bs

/-- Whether some block of a part has content. -/
def supplies (part : Part) (bs : List Block) : Bool := bs.any fun b => b.part = part && !b.content.isEmpty

/-- Whether a block begins a problem after the run of the problem before: it follows a break, or it is
    an intro or a question and the run already has one with content. -/
def begins (run : List Block) (b : Block) : Bool :=
  run.getLast?.any (·.part = .divider) ||
    (b.part = .intro || b.part = .question) && supplies b.part run

/-- The runs of blocks that belong to one problem each, where the first of them goes on from `run`. -/
def runs (run : List Block) : List Block → List (List Block)
  | [] => [run]
  | b :: rest => if begins run b then run :: runs [b] rest else runs (run ++ [b]) rest

/-- The problem that a run of blocks makes up. -/
def made (run : List Block) : ProblemSource := run.foldl (fun p b => p.add b.part b.content) {}

/-! ## Passages -/

theorem content_of_read_plain {line content : Text} (h : Line.read line = .ok (.plain content)) :
    content = line := by
  unfold Line.read at h
  split at h
  · cases h
    rfl
  · split at h <;> cases h

/-- Lines that can all be read are header lines and passages. -/
theorem exists_passages {texts : List Text} (h : ∀ text ∈ texts, ∃ line, Line.read text = .ok line) :
    ∃ (headings : List Text) (passages : List Passage),
      texts = headings ++ passages.flatMap Passage.lines ∧
        ∀ line ∈ headings, Line.read line = .ok (.plain line) := by
  induction texts with
  | nil => exact ⟨[], [], rfl, by simp⟩
  | cons text texts ih =>
      obtain ⟨⟨line, here⟩, later⟩ := List.forall_mem_cons.1 h
      obtain ⟨headings, passages, rfl, plain⟩ := ih later
      cases line with
      | plain content =>
          obtain rfl := content_of_read_plain here
          exact ⟨content :: headings, passages, rfl, List.forall_mem_cons.2 ⟨here, plain⟩⟩
      | marker part first =>
          -- the unmarked lines found so far belong to the marker before them
          let passage : Passage := ⟨text, headings, part, first, here, plain⟩
          exact ⟨[], passage :: passages, rfl, by simp⟩

theorem exists_consists {t : Text} {s : LessonSource} (h : ofText t = .ok s) :
    ∃ headings passages, Consists t headings passages := by
  rcases mapM_ok_or_error Line.read (Text.newlineLines t) with ⟨_, _, all⟩ | ⟨cause, failed, _⟩
  · obtain ⟨headings, passages, cut, plain⟩ := exists_passages all
    exact ⟨headings, passages, cut, plain⟩
  · rw [ofText, failed] at h
    cases h

theorem mapM_read_lines (p : Passage) : p.lines.mapM Line.read = .ok p.read := by
  rw [Passage.lines, List.mapM_cons, p.opens, mapM_eq_ok p.unmarked]
  rfl

theorem mapM_read_passages (passages : List Passage) :
    (passages.flatMap Passage.lines).mapM Line.read = .ok (passages.flatMap Passage.read) := by
  induction passages with
  | nil => rfl
  | cons p passages ih =>
      rw [List.flatMap_cons, List.mapM_append, mapM_read_lines, ih]
      rfl

theorem blocks_passages (passages : List Passage) :
    blocks (passages.flatMap Passage.read) = ([], passages.map Passage.block) := by
  induction passages with
  | nil => rfl
  | cons p passages ih =>
      simp [Passage.read, Passage.block, Passage.content, blocks, blocks_plain, ih]

namespace Consists

variable {t : Text} {headings : List Text} {passages : List Passage}

theorem read (h : Consists t headings passages) : (Text.newlineLines t).mapM Line.read =
    .ok (headings.map .plain ++ passages.flatMap Passage.read) := by
  rw [h.lines, List.mapM_append, mapM_eq_ok h.unmarked, mapM_read_passages]
  rfl

/-- A text consists of header lines and passages in one way, as far as their contents go. -/
theorem blocks_eq (h : Consists t headings passages) {lines : List Line}
    (hr : (Text.newlineLines t).mapM Line.read = .ok lines) :
    blocks lines = (endLines headings, passages.map Passage.block) := by
  obtain rfl : headings.map .plain ++ passages.flatMap Passage.read = lines :=
    Except.ok.inj (h.read.symm.trans hr)
  rw [blocks_plain, blocks_passages, List.append_nil]

/-- The header lines are the header, and the problems are gathered from the passages. -/
theorem ofText_eq (h : Consists t headings passages) :
    ofText t = .ok ⟨endLines headings, gather none {} (passages.map Passage.block)⟩ := by
  rw [ofText, h.read]
  simp [bind, Except.bind, pure, Except.pure, ofLines, h.blocks_eq h.read]

end Consists

/-! ## Contents -/

section
variable {part : Part} {bs : List Block}

theorem contents_cons (b : Block) :
    contents part (b :: bs) = (if b.part = part then [b.content] else []) ++ contents part bs := by
  by_cases h : b.part = part <;> simp [contents, h]

theorem filled_append (ts us : List Text) : filled (ts ++ us) = filled ts ++ filled us :=
  List.filter_append ..

@[simp] theorem isEmpty_filled_singleton (t : Text) : (filled [t]).isEmpty = t.isEmpty := by
  cases t <;> rfl

theorem kept_cons (b : Block) :
    kept (b :: bs) = if bs = [] ∧ b.content = [] then [] else b :: kept bs := by
  cases bs with
  | nil => by_cases h : b.content = [] <;> simp [kept, h]
  | cons c bs => simp [kept, apply_ite (b :: ·)]

/-- A block that is not kept has nothing to say. -/
theorem filled_contents_kept : filled (contents part (kept bs)) = filled (contents part bs) := by
  induction bs with
  | nil => rfl
  | cons b bs ih =>
      rw [kept_cons]
      split
      · rename_i blank
        obtain ⟨rfl, blank⟩ := blank
        by_cases h : b.part = part <;> simp [contents, filled, h, blank]
      · rw [contents_cons, contents_cons, filled_append, filled_append, ih]

/-- The answers of blocks are their contents. -/
theorem texts_answers (h : part = .right ∨ part = .wrong) :
    bs.flatMap (Block.texts part) = contents part bs := by
  induction bs with
  | nil => rfl
  | cons b bs ih =>
      rw [List.flatMap_cons, contents_cons, ih]
      congr 1
      rcases h with rfl | rfl <;> cases hb : b.part <;>
        simp [Block.texts, ProblemSource.texts, ProblemSource.add, hb]

/-- In any other part blocks say what they contain, unless that is nothing. -/
theorem texts_filled (h : part = .intro ∨ part = .question ∨ part = .explanation) :
    bs.flatMap (Block.texts part) = filled (contents part bs) := by
  induction bs with
  | nil => rfl
  | cons b bs ih =>
      rw [List.flatMap_cons, contents_cons, filled_append, ih]
      congr 1
      rcases h with rfl | rfl | rfl <;> cases hb : b.part <;>
        simp [Block.texts, ProblemSource.texts, ProblemSource.add, filled, hb]

end

/-! ## Runs -/

/-- A run whose problem says all that the run says, explanations apart. -/
def Whole (run : List Block) : Prop :=
  ∀ part, part ≠ .explanation → (made run).texts part = run.flatMap (Block.texts part)

theorem made_append (run : List Block) (b : Block) :
    made (run ++ [b]) = (made run).add b.part b.content := by
  simp [made]

/-- Adding a block loses nothing where no intro and no question is replaced. -/
theorem texts_add {p : ProblemSource} {b : Block} {part : Part} (hp : part ≠ .explanation)
    (hi : b.part = .intro → p.intro = []) (hq : b.part = .question → p.question = []) :
    (p.add b.part b.content).texts part = p.texts part ++ b.texts part := by
  obtain ⟨here, content⟩ := b
  cases here <;> cases part <;>
    simp_all [Block.texts, ProblemSource.texts, ProblemSource.add, filled]

namespace Whole

variable {run bs : List Block} {b : Block}

theorem nil : Whole [] := fun part _ => by cases part <;> rfl

theorem single (b : Block) : Whole [b] := fun _ _ => by simp [made, Block.texts]

/-- The problem of a run has an intro or a question exactly when the run says it. -/
theorem supplies_eq (h : Whole run) {part : Part} (hp : part = .intro ∨ part = .question) :
    supplies part run = !((made run).texts part).isEmpty := by
  have said : run.flatMap (Block.texts part) = filled (contents part run) :=
    texts_filled (hp.imp_right .inl)
  rw [h part (by rcases hp with rfl | rfl <;> simp), said]
  clear h said
  induction run with
  | nil => rfl
  | cons c run ih =>
      unfold supplies at ih ⊢
      rw [List.any_cons, contents_cons, filled_append, ih]
      by_cases here : c.part = part <;> by_cases blank : c.content = [] <;>
        simp [filled, here, blank]

/-- The splitter begins a problem exactly where a run ends. -/
theorem beginsProblem_eq (h : Whole run) (b : Block) :
    beginsProblem (run.getLast?.map Block.part) b.part (made run) = begins run b := by
  have broken : run.getLast?.any (·.part = .divider) =
      decide (run.getLast?.map Block.part = some .divider) := by
    cases run.getLast? <;> simp
  have intro : supplies .intro run = !(made run).intro.isEmpty := by
    simpa [ProblemSource.texts] using h.supplies_eq (.inl rfl)
  have question : supplies .question run = !(made run).question.isEmpty := by
    simpa [ProblemSource.texts] using h.supplies_eq (.inr rfl)
  unfold beginsProblem begins
  rw [broken]
  by_cases last : run.getLast?.map Block.part = some .divider
  · simp [last]
  · cases hb : b.part <;> simp [last, intro, question]

/-- A block that begins no problem is added to the run. -/
theorem append (h : Whole run) (hb : begins run b = false) : Whole (run ++ [b]) := by
  intro part hp
  rw [← h.beginsProblem_eq] at hb
  have quiet : beginsProblem none b.part (made run) = false := by
    unfold beginsProblem at hb ⊢
    split at hb
    · cases hb
    · simpa using hb
  rw [made_append, texts_add hp, h part hp, List.flatMap_append, List.flatMap_singleton]
  · intro hi
    simpa [beginsProblem, hi] using quiet
  · intro hq
    simpa [beginsProblem, hq] using quiet

theorem of_mem_runs (h : Whole run) : ∀ r ∈ runs run bs, Whole r := by
  induction bs generalizing run with
  | nil => simpa [runs] using h
  | cons b bs ih =>
      unfold runs
      split
      · exact List.forall_mem_cons.2 ⟨h, ih (single b)⟩
      · rename_i stays
        exact ih (h.append (by simpa using stays))

/-- The splitter makes up a problem of each run. A last block without content may still begin an empty
    problem. -/
theorem gather_eq (h : Whole run) (bs : List Block) : ∃ blank : List ProblemSource, (∀ p ∈ blank, p = {}) ∧
    gather (run.getLast?.map Block.part) (made run) bs = (runs run (kept bs)).map made ++ blank := by
  induction bs generalizing run with
  | nil => exact ⟨[], by simp, rfl⟩
  | cons b bs ih =>
      rw [gather, h.beginsProblem_eq, kept_cons]
      by_cases last : bs = [] ∧ b.content = []
      · obtain ⟨rfl, blank⟩ := last
        by_cases new : begins run b = true
        · exact ⟨[{}], by simp, by simp [blank, new, gather, runs]⟩
        · exact ⟨[], by simp, by simp [blank, new, gather, runs]⟩
      · have adds : (bs.isEmpty && b.content.isEmpty) = false := by simpa using last
        simp only [adds, if_neg last]
        unfold runs
        split
        · obtain ⟨blank, hb, e⟩ := ih (single b)
          refine ⟨blank, hb, ?_⟩
          rw [List.map_cons, List.cons_append, ← e]
          rfl
        · rename_i stays
          obtain ⟨blank, hb, e⟩ := ih (h.append (by simpa using stays))
          refine ⟨blank, hb, ?_⟩
          rw [← e, made_append, List.getLast?_concat]
          rfl

end Whole

theorem flatten_runs (run bs : List Block) : (runs run bs).flatten = run ++ bs := by
  induction bs generalizing run with
  | nil => simp [runs]
  | cons b bs ih =>
      unfold runs
      split
      · rw [List.flatten_cons, ih]
        rfl
      · rw [ih, List.append_assoc]
        rfl

/-- What the problems of blocks say in a part is what the problems of their runs say. -/
theorem texts_gather (part : Part) (bs : List Block) :
    (gather none {} bs).flatMap (ProblemSource.texts part) =
      (runs [] (kept bs)).flatMap fun run => (made run).texts part := by
  obtain ⟨blank, hb, e⟩ := Whole.nil.gather_eq bs
  have nothing : blank.flatMap (ProblemSource.texts part) = [] := by
    refine List.flatMap_eq_nil_iff.2 fun p hp => ?_
    rw [hb p hp]
    cases part <;> rfl
  calc (gather none {} bs).flatMap (ProblemSource.texts part)
      = ((runs [] (kept bs)).map made ++ blank).flatMap (ProblemSource.texts part) := congrArg _ e
    _ = (runs [] (kept bs)).flatMap fun run => (made run).texts part := by
        rw [List.flatMap_append, nothing, List.append_nil, List.flatMap_map]

/-- Explanations apart, problems say what their blocks say. -/
theorem texts_gather_eq (part : Part) (hp : part ≠ .explanation) (bs : List Block) :
    (gather none {} bs).flatMap (ProblemSource.texts part) = (kept bs).flatMap (Block.texts part) := by
  calc (gather none {} bs).flatMap (ProblemSource.texts part)
      = (runs [] (kept bs)).flatMap fun run => (made run).texts part := texts_gather part bs
    _ = (runs [] (kept bs)).flatMap fun run => run.flatMap (Block.texts part) :=
        List.flatMap_congr fun run hr => Whole.nil.of_mem_runs run hr part hp
    _ = ((runs [] (kept bs)).flatMap id).flatMap (Block.texts part) := List.flatMap_assoc.symm
    _ = (kept bs).flatMap (Block.texts part) := by
        rw [List.flatMap_id, flatten_runs, List.nil_append]

theorem filled_map {α : Type} (f : α → Text) (l : List α) :
    filled (l.map f) = l.flatMap fun a => filled [f a] := by
  induction l with
  | nil => rfl
  | cons a l ih => rw [List.map_cons, List.flatMap_cons, ← ih, ← filled_append, List.singleton_append]

/-- Splitting keeps the header, the intros, the questions and the answers of a source in their order. Only
    an answer without content at the very end is left out. -/
theorem parts_conserved {t : Text} {s : LessonSource} (h : ofText t = .ok s) :
    ∃ headings passages, Consists t headings passages ∧ s.header = endLines headings ∧
      s.problems.flatMap (·.right) = contents .right (kept (passages.map Passage.block)) ∧
      s.problems.flatMap (·.wrong) = contents .wrong (kept (passages.map Passage.block)) ∧
      filled (s.problems.map (·.intro)) = filled (contents .intro (passages.map Passage.block)) ∧
      filled (s.problems.map (·.question)) =
        filled (contents .question (passages.map Passage.block)) := by
  obtain ⟨headings, passages, consists⟩ := exists_consists h
  refine ⟨headings, passages, consists, ?_⟩
  rw [consists.ofText_eq] at h
  cases h
  have right := texts_gather_eq .right (by simp) (passages.map Passage.block)
  have wrong := texts_gather_eq .wrong (by simp) (passages.map Passage.block)
  have intro := texts_gather_eq .intro (by simp) (passages.map Passage.block)
  have question := texts_gather_eq .question (by simp) (passages.map Passage.block)
  rw [texts_answers (by simp)] at right wrong
  rw [texts_filled (by simp), filled_contents_kept] at intro question
  rw [filled_map, filled_map]
  exact ⟨rfl, right, wrong, intro, question⟩

/-- An empty answer at the end, and an empty intro that a later one fills. -/
theorem parts_conserved_lesson :
    let t : Text := "title: a\n(i) A\n(?) B\nmore\n(=) C\n(x)\n(=) D\n(#)\n(i)\n(i) E\n(=)"
    ∃ s, ofText t = .ok s ∧ ∃ headings passages,
      Consists t headings passages ∧ s.header = endLines headings ∧
        s.problems.flatMap (·.right) = contents .right (kept (passages.map Passage.block)) ∧
        s.problems.flatMap (·.wrong) = contents .wrong (kept (passages.map Passage.block)) ∧
        filled (s.problems.map (·.intro)) = filled (contents .intro (passages.map Passage.block)) ∧
        filled (s.problems.map (·.question)) =
          filled (contents .question (passages.map Passage.block)) := by
  intro t
  let first : ProblemSource :=
    { intro := "A\n", question := "B\nmore\n", right := ["C\n", "D\n"], wrong := [[]] }
  have split : ofText t = .ok ⟨"title: a\n", [first, { intro := "E\n" }]⟩ := rfl
  exact ⟨_, split, parts_conserved split⟩

/-! ## Explanations -/

/-- A run explains what its last explanation says. -/
theorem made_explanation (run : List Block) :
    (made run).explanation = (contents .explanation run).getLastD [] := by
  have each : ∀ p : ProblemSource, (run.foldl (fun p b => p.add b.part b.content) p).explanation =
      (contents .explanation run).getLastD p.explanation := by
    induction run with
    | nil => exact fun p => rfl
    | cons b run ih =>
        intro p
        rw [List.foldl_cons, ih, contents_cons]
        cases b.part <;> simp [ProblemSource.add, List.getLast?_cons]
  exact each {}

theorem last_sublist_filled (ts : List Text) : (filled [ts.getLastD []]).Sublist (filled ts) := by
  rcases List.eq_nil_or_concat ts with rfl | ⟨ts, t, rfl⟩
  · exact .refl _
  · rw [List.concat_eq_append, List.getLastD_concat, filled_append]
    exact List.sublist_append_right _ _

/-- The last text is all that the texts say exactly when every text before another is empty. -/
theorem filled_last_iff (ts : List Text) :
    filled [ts.getLastD []] = filled ts ↔ ts.Pairwise fun t _ => t = [] := by
  induction ts with
  | nil => simp [filled]
  | cons t ts ih =>
      rw [List.pairwise_cons]
      cases ts with
      | nil => simp
      | cons u ts =>
          have last : (t :: u :: ts).getLastD [] = (u :: ts).getLastD [] := by simp
          rw [last]
          by_cases ht : t = []
          · have blank : filled (t :: u :: ts) = filled (u :: ts) := by simp [filled, ht]
            rw [blank, ih]
            simp [ht]
          · have more : filled (t :: u :: ts) = t :: filled (u :: ts) := by simp [filled, ht]
            rw [more]
            constructor
            · intro same
              have short := (last_sublist_filled (u :: ts)).length_le
              rw [same, List.length_cons] at short
              omega
            · rintro ⟨all, -⟩
              exact absurd (all u (by simp)) ht

/-- Where each part is contained in the other side's, the wholes are equal only if the parts are. -/
theorem flatMap_eq_iff_of_sublist {α β : Type} {f g : α → List β} {l : List α}
    (h : ∀ a, (f a).Sublist (g a)) : l.flatMap f = l.flatMap g ↔ ∀ a ∈ l, f a = g a := by
  refine ⟨fun same => ?_, List.flatMap_congr⟩
  have within (l : List α) : (l.flatMap f).length ≤ (l.flatMap g).length := by
    induction l with
    | nil => exact Nat.le_refl _
    | cons a l ih =>
        rw [List.flatMap_cons, List.flatMap_cons, List.length_append, List.length_append]
        exact Nat.add_le_add (h a).length_le ih
  induction l with
  | nil => simp
  | cons a l ih =>
      rw [List.flatMap_cons, List.flatMap_cons] at same
      have lengths := congrArg List.length same
      rw [List.length_append, List.length_append] at lengths
      have first : (f a).length = (g a).length := by
        have := (h a).length_le
        have := within l
        omega
      obtain ⟨here, later⟩ := List.append_inj same first
      exact List.forall_mem_cons.2 ⟨here, ih later⟩

/-- The explanations of a source are kept exactly when in no problem another explanation follows one
    with content. -/
theorem explanations_kept_iff {t : Text} {s : LessonSource} (h : ofText t = .ok s) :
    ∃ headings passages, Consists t headings passages ∧
      (filled (s.problems.map (·.explanation)) =
          filled (contents .explanation (passages.map Passage.block)) ↔
        ∀ run ∈ runs [] (kept (passages.map Passage.block)), run.Pairwise fun b c =>
          b.part = .explanation → c.part = .explanation → b.content = []) := by
  obtain ⟨headings, passages, consists⟩ := exists_consists h
  refine ⟨headings, passages, consists, ?_⟩
  rw [consists.ofText_eq] at h
  cases h
  let bs := kept (passages.map Passage.block)
  have found : filled ((gather none {} (passages.map Passage.block)).map (·.explanation)) =
      (runs [] bs).flatMap fun run => filled [(contents .explanation run).getLastD []] := by
    rw [filled_map]
    refine (texts_gather .explanation _).trans (List.flatMap_congr fun run _ => ?_)
    rw [ProblemSource.texts, made_explanation]
  have written : filled (contents .explanation (passages.map Passage.block)) =
      (runs [] bs).flatMap fun run => filled (contents .explanation run) := by
    have all : bs = (runs [] bs).flatMap id := by
      rw [List.flatMap_id, flatten_runs, List.nil_append]
    rw [← filled_contents_kept, ← texts_filled (by simp)]
    refine (congrArg _ all).trans (List.flatMap_assoc.trans (List.flatMap_congr fun run _ => ?_))
    exact texts_filled (by simp)
  rw [found, written, flatMap_eq_iff_of_sublist fun run => last_sublist_filled _]
  refine forall₂_congr fun run _ => ?_
  rw [filled_last_iff, contents, List.pairwise_map, List.pairwise_filter]
  simp

/-- Explanations of two problems, the second of which has an empty one before its own. -/
theorem explanations_kept_iff_problems :
    let t : Text := "(?) A\n(+) B\n(#)\n(&)\n(x) C\n(&) D"
    ∃ s, ofText t = .ok s ∧ ∃ headings passages, Consists t headings passages ∧
      (filled (s.problems.map (·.explanation)) =
          filled (contents .explanation (passages.map Passage.block)) ↔
        ∀ run ∈ runs [] (kept (passages.map Passage.block)), run.Pairwise fun b c =>
          b.part = .explanation → c.part = .explanation → b.content = []) := by
  intro t
  have split : ofText t = .ok ⟨[], [{ question := "A\n", explanation := "B\n" },
      { wrong := ["C\n"], explanation := "D\n" }]⟩ := rfl
  exact ⟨_, split, explanations_kept_iff split⟩

/-- An explanation is lost to an empty one that follows it. -/
theorem explanation_lost :
    let t : Text := "(+) a\n(+)\n(?) q"
    ∃ s, ofText t = .ok s ∧ ∀ headings passages, Consists t headings passages →
      filled (s.problems.map (·.explanation)) ≠
        filled (contents .explanation (passages.map Passage.block)) := by
  intro t
  have lines : (Text.newlineLines t).mapM Line.read =
      .ok [.marker .explanation "a", .marker .explanation [], .marker .question "q"] := rfl
  have split : ofText t = .ok ⟨[], [{ question := "q\n" }]⟩ := rfl
  refine ⟨_, split, fun headings passages consists => ?_⟩
  have read : passages.map Passage.block =
      [⟨.explanation, "a\n"⟩, ⟨.explanation, []⟩, ⟨.question, "q\n"⟩] :=
    (congrArg Prod.snd (consists.blocks_eq lines)).symm
  rw [read]
  decide

end LessonSource

end LessonText

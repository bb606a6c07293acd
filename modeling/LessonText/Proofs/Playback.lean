import LessonText.Lesson.Playback
import Mathlib.Data.List.Basic

/-! # Playing a lesson

Beside a lesson that is played a history is kept of the steps and what they gave. The history alone says which problem comes
next and which marks were given: the place follows the steps that take a problem since the last restart, the marks follow the
steps that mark since they were last dropped, and neither depends on the other.
-/

namespace LessonText

/-- Every mark is of one of the three kinds. -/
theorem Marks.total_eq {α : Type} (marks : Marks α) : marks.total = marks.items.length := by
  obtain ⟨items⟩ := marks
  induction items with
  | nil => rfl
  | cons item items ih =>
      simp only [total, count, List.length_cons] at ih ⊢
      obtain ⟨item, _ | _ | _⟩ := item <;> simp <;> omega

namespace Playback

variable {α : Type}

/-! ## One step -/

theorem next_fst (p : Playback α) : p.next.1 = p.peek := by
  rw [next]
  split <;> simp only [*]

theorem next_problems (p : Playback α) : p.next.2.problems = p.problems := by
  rw [next]
  split <;> rfl

theorem next_marks (p : Playback α) : p.next.2.marks = p.marks := by
  rw [next]
  split <;> rfl

theorem next_position (p : Playback α) :
    p.next.2.position = if p.position < p.problems.length then p.position + 1 else p.position := by
  rw [next]
  split
  · rename_i given
    rw [if_pos (List.getElem?_eq_some_iff.1 given).1]
  · rename_i none
    rw [if_neg (Nat.not_lt.2 (List.getElem?_eq_none_iff.1 none))]

/-! ## The history -/

/-- Steps with the problem that each of them gave. -/
abbrev History (α : Type) := List (Step α × Option α)

namespace History

/-- What the steps that take a problem gave since the last restart. -/
def taken (h : History α) : List (Option α) :=
  h.foldl (fun answers deed => match deed.1 with
    | .next => answers ++ [deed.2]
    | .restart => []
    | _ => answers) []

/-- The marks that were given since they were last dropped. -/
def marked (h : History α) : List (α × Mark) :=
  h.foldl (fun marks deed => match deed.1 with
    | .mark problem mark => marks ++ [(problem, mark)]
    | .clearMarks => []
    | _ => marks) []

end History

/-- A lesson that is played, with its history. -/
structure Game (α : Type) where
  playback : Playback α
  history : History α := []

namespace Game

def step (g : Game α) (s : Step α) : Game α :=
  ⟨(g.playback.perform s).2, g.history ++ [(s, (g.playback.perform s).1)]⟩

theorem taken_step (g : Game α) (s : Step α) : (g.step s).history.taken =
    match s with
    | .next => g.history.taken ++ [(g.playback.perform s).1]
    | .restart => []
    | _ => g.history.taken := by
  rw [step, History.taken, List.foldl_concat]
  rfl

theorem marked_step (g : Game α) (s : Step α) : (g.step s).history.marked =
    match s with
    | .mark problem mark => g.history.marked ++ [(problem, mark)]
    | .clearMarks => []
    | _ => g.history.marked := by
  rw [step, History.marked, List.foldl_concat]
  rfl

/-- The game of some problems after some steps from the start. -/
def after (problems : List α) (steps : List (Step α)) : Game α :=
  steps.foldl step { playback := { problems } }

/-- The history says where the lesson is: each problem taken is the next one of the lesson, and none is given beyond the last
    one. -/
structure Sound (problems : List α) (g : Game α) : Prop where
  lesson : g.playback.problems = problems
  taken : g.history.taken = (List.range g.history.taken.length).map fun i => problems[i]?
  place : g.playback.position = min g.history.taken.length problems.length
  marks : g.playback.marks.items = g.history.marked

namespace Sound

variable {problems : List α} {g : Game α}

theorem start (problems : List α) : Sound problems { playback := { problems } } where
  lesson := rfl
  taken := rfl
  place := (Nat.zero_min _).symm
  marks := rfl

/-- The next problem is the one behind those already taken. -/
theorem peek_eq (h : Sound problems g) : g.playback.peek = problems[g.history.taken.length]? := by
  rw [peek, h.lesson, h.place]
  rcases Nat.lt_or_ge g.history.taken.length problems.length with more | done
  · rw [Nat.min_eq_left (Nat.le_of_lt more)]
  · rw [Nat.min_eq_right done, List.getElem?_eq_none (Nat.le_refl _), List.getElem?_eq_none done]

theorem next (h : Sound problems g) : Sound problems (g.step .next) := by
  have answer : (g.playback.perform .next).1 = problems[g.history.taken.length]? := by
    rw [perform, next_fst, h.peek_eq]
  have length : (g.step .next).history.taken.length = g.history.taken.length + 1 := by
    simp only [Game.taken_step, List.length_append, List.length_singleton]
  refine ⟨?_, ?_, ?_, ?_⟩
  · rw [Game.step, perform, next_problems, h.lesson]
  · rw [length, List.range_succ, List.map_append, ← h.taken, Game.taken_step, answer]
    rfl
  · have here := h.place
    rw [length, Game.step, perform, next_position, h.lesson]
    split <;> omega
  · rw [Game.marked_step, Game.step, perform, next_marks, h.marks]

/-- A step for the marks leaves the place true. -/
theorem of_eq {g' : Game α} (h : Sound problems g) (lesson : g'.playback.problems = g.playback.problems)
    (taken : g'.history.taken = g.history.taken) (place : g'.playback.position = g.playback.position)
    (marks : g'.playback.marks.items = g'.history.marked) : Sound problems g' where
  lesson := lesson.trans h.lesson
  taken := taken ▸ h.taken
  place := taken ▸ place.trans h.place
  marks := marks

/-- Every step keeps the history true. -/
theorem step (h : Sound problems g) (s : Step α) : Sound problems (g.step s) := by
  cases s with
  | next => exact h.next
  | peek => exact h.of_eq rfl (g.taken_step .peek) rfl (h.marks.trans (g.marked_step .peek).symm)
  | restart =>
      have history : (g.step .restart).history.taken = [] := g.taken_step .restart
      exact ⟨h.lesson, by rw [history]; rfl, by rw [history]; exact (Nat.zero_min _).symm,
        h.marks.trans (g.marked_step .restart).symm⟩
  | mark problem mark =>
      have history : (g.step (.mark problem mark)).history.marked = g.history.marked ++ [(problem, mark)] :=
        g.marked_step (.mark problem mark)
      exact h.of_eq rfl (g.taken_step (.mark problem mark)) rfl (by rw [history, ← h.marks]; rfl)
  | clearMarks => exact h.of_eq rfl (g.taken_step .clearMarks) rfl (g.marked_step .clearMarks).symm

theorem after (problems : List α) (steps : List (Step α)) : Sound problems (Game.after problems steps) := by
  have all : ∀ g : Game α, Sound problems g → Sound problems (steps.foldl Game.step g) := by
    induction steps with
    | nil => exact fun g h => h
    | cons s steps ih => exact fun g h => ih _ (h.step s)
  exact all _ (start problems)

/-- The problems taken are the first ones of the lesson, and behind the last one there are none. -/
theorem taken_eq (h : Sound problems g) : g.history.taken = (problems.take g.history.taken.length).map some ++
    List.replicate (g.history.taken.length - problems.length) none := by
  refine h.taken.trans (List.ext_getElem? fun i => ?_)
  generalize g.history.taken.length = n
  rw [List.getElem?_map, List.getElem?_append, List.length_map, List.length_take, List.getElem?_map, List.getElem?_take,
    List.getElem?_replicate]
  rcases Nat.lt_or_ge i n with inside | outside
  · rw [List.getElem?_range inside, Option.map_some]
    rcases Nat.lt_or_ge i problems.length with more | done
    · rw [if_pos (by omega), if_pos inside, List.getElem?_eq_getElem more, Option.map_some]
    · rw [if_neg (by omega), if_pos (by omega), List.getElem?_eq_none done]
  · rw [List.getElem?_eq_none (by simpa using outside), if_neg (by omega), if_neg (by omega), Option.map_none]

/-- A problem is left exactly while fewer problems than there are have been taken. -/
theorem hasMore_iff (h : Sound problems g) :
    g.playback.hasMore = true ↔ (g.history.taken.filter Option.isSome).length < problems.length := by
  have successful : (g.history.taken.filter Option.isSome).length = min g.history.taken.length problems.length := by
    have all : ((problems.take g.history.taken.length).map some).filter Option.isSome =
        (problems.take g.history.taken.length).map some :=
      List.filter_eq_self.2 fun _ mem => by obtain ⟨_, _, rfl⟩ := List.mem_map.1 mem; rfl
    conv_lhs => rw [h.taken_eq, List.filter_append, all, List.filter_replicate]
    simp
  rw [hasMore, h.lesson, h.place, successful, decide_eq_true_iff]

end Sound

end Game

/-- A lesson gives its problems from the first to the last and then none, a look at the next one changes nothing, a problem is
    left while not all have been taken since the last restart, and the marks are those given since they were last dropped.
    Neither the place nor the marks are changed by the steps for the other. -/
theorem play_follows (problems : List α) (steps : List (Step α)) :
    let g := Game.after problems steps
    (g.history.taken = (problems.take g.history.taken.length).map some ++
      List.replicate (g.history.taken.length - problems.length) none) ∧
    g.playback.perform .peek = ((g.playback.perform .next).1, g.playback) ∧
    (g.playback.hasMore = true ↔ (g.history.taken.filter Option.isSome).length < problems.length) ∧
    g.playback.marks.items = g.history.marked ∧
    (∀ mark, g.playback.marks.count mark = (g.history.marked.filter (·.2 == mark)).length) ∧
    g.playback.marks.total = g.history.marked.length ∧
    (∀ s ∈ [Step.restart, .next, .peek], (g.playback.perform s).2.marks = g.playback.marks) ∧
    (∀ problem mark, (g.playback.perform (.mark problem mark)).2.position = g.playback.position) ∧
    (g.playback.perform .clearMarks).2.position = g.playback.position := by
  intro g
  have sound := Game.Sound.after problems steps
  refine ⟨sound.taken_eq, ?_, sound.hasMore_iff, sound.marks, ?_, ?_, ?_, fun _ _ => rfl, rfl⟩
  · rw [perform, perform, next_fst]
  · intro mark
    rw [Marks.count, sound.marks]
  · rw [Marks.total_eq, sound.marks]
  · simp [perform, next_marks, restart]

end Playback

end LessonText

import LessonText.Proofs.Markup.EquationTags
import LessonText.Proofs.Text.Alternating

/-! # Greek letters in one pass

Every name of a Greek letter has a rewrite of its own, and each goes over what the ones before it have left. What they make
of a text together can be said in one pass: the text is cut into runs of letters and runs of other characters, and every
run that is a name and has no ampersand before it is put between an ampersand and a semicolon. An entity that is written
stands for one run, so it neither hides another name nor makes one.
-/

namespace LessonText.Greek

open Pattern Maths

/-- The longest runs of letters of a text, and the longest runs of other characters. -/
def runs (t : Text) : List Text := t.splitBy fun c d => c.isAlpha == d.isAlpha

/-- A run, behind the character `b`, with an entity for it if it is one of the words. -/
def marked (words : List Text) (b : Option Char) (part : Text) : Text :=
  if words.contains part && b != some '&' then "&" ++ part ++ ";" else part

/-- Runs with entities for some words. -/
def markRuns (words : List Text) : Option Char → List Text → Text
  | _, [] => []
  | b, part :: rest => marked words b part ++ markRuns words part.getLast? rest

/-- A text with entities for all names, in one pass. -/
def replaceOnce (t : Text) : Text := markRuns names none (runs t)

variable {words : List Text} {name part t : Text} {rest : List Text} {b b' : Option Char} {k : Bool}

theorem marked_pos (h : part ∈ words ∧ b ≠ some '&') : marked words b part = "&" ++ part ++ ";" :=
  if_pos (by simpa using h)

theorem marked_neg (h : ¬ (part ∈ words ∧ b ≠ some '&')) : marked words b part = part :=
  if_neg (by simpa using h)

theorem markRuns_nil (b : Option Char) (rest : List Text) : markRuns [] b rest = rest.flatten := by
  induction rest generalizing b with
  | nil => rfl
  | cons part rest ih => rw [markRuns, ih, marked_neg (by simp), List.flatten_cons]

/-- Only which words are listed counts, not in which order. -/
theorem markRuns_congr {words' : List Text} (same : ∀ w, w ∈ words ↔ w ∈ words') (b : Option Char) (rest : List Text) :
    markRuns words b rest = markRuns words' b rest := by
  induction rest generalizing b with
  | nil => rfl
  | cons part rest ih =>
      have listed : words.contains part = words'.contains part := by
        rw [Bool.eq_iff_iff, List.contains_iff_mem, List.contains_iff_mem, same]
      rw [markRuns, markRuns, ih, marked, marked, listed]

/-- A run of other characters is no name. -/
theorem marked_other (listed : ∀ w ∈ words, w ∈ names) (full : part ≠ []) (other : ∀ c ∈ part, c.isAlpha = false) :
    marked words b part = part := by
  refine marked_neg fun ⟨mem, _⟩ => ?_
  obtain ⟨c, part, rfl⟩ := List.exists_cons_of_ne_nil full
  have letter := (names_letters _ (listed _ mem)).2 c List.mem_cons_self
  rw [other c List.mem_cons_self] at letter
  cases letter

/-- What is written for runs that do not begin with letters does not begin with one. -/
theorem markRuns_head (listed : ∀ w ∈ words, w ∈ names) (h : Alternating Char.isAlpha false rest) :
    ∀ c ∈ (markRuns words b rest).head?, c.isAlpha = false := by
  cases h with
  | nil => rintro _ ⟨⟩
  | cons full other =>
      rw [markRuns, marked_other listed full other, List.head?_append_of_ne_nil _ full]
      exact fun c hc => other c (List.mem_of_mem_head? hc)

/-! ## One rewrite -/

theorem name_reads (before : ∀ c ∈ b, (c.isAlpha || c == '&') = false) (behind : ∀ c ∈ t.head?, c.isAlpha = false) :
    (nameRewrite name).pattern.Reads b name t [] := by
  have start : (notPrecededBy fun c => c.isAlpha || c == '&').Reads b [] (name ++ t) [] := by
    refine .place ?_
    cases b with
    | none => rfl
    | some c => simpa using before c rfl
  have stop {b : Option Char} : (notFollowedBy Char.isAlpha).Reads b [] t [] := by
    refine .place ?_
    cases t with
    | nil => rfl
    | cons c t => simpa using behind c rfl
  have all := (start.append (.literal name)).append stop
  rwa [List.append_nil] at all

/-- Among letters and ampersands no name begins but at the first of them. -/
theorem chain_of_forall {x : Text} (h : ∀ c ∈ x, (c.isAlpha || c == '&') = true) :
    x.IsChain fun c d => d.isAlpha = true → (c.isAlpha || c == '&') = true :=
  List.isChain_iff_forall_rel_of_append_cons_cons.2 fun {c _ _ _} split _ => h c (by simp [split])

/-- The rewrite of a name writes its entity for a run that is the name, and leaves what is written for other words. -/
theorem name_writes (mem : name ∈ names) (full : part ≠ []) (letters : ∀ c ∈ part, c.isAlpha = true)
    (before : ∀ c ∈ b, c.isAlpha = false) (behind : ∀ c ∈ t.head?, c.isAlpha = false) :
    (nameRewrite name).Writes b (marked words b part) t (marked (name :: words) b part) := by
  have ofWords := name_ofWords mem
  by_cases done : part ∈ words ∧ b ≠ some '&'
  · rw [marked_pos done, marked_pos ⟨List.mem_cons_of_mem _ done.1, done.2⟩]
    refine .stays (ofWords.passes (ofWords.misses ?_) (List.isChain_append.2 ⟨chain_of_forall ?_, .singleton _, ?_⟩))
    · rintro _ ⟨⟩
      rfl
    · exact List.forall_mem_cons.2 ⟨rfl, fun c hc => by simp [letters c hc]⟩
    · rintro c - _ ⟨⟩ letter
      exact absurd letter (by decide)
  rw [marked_neg done]
  by_cases here : part = name ∧ b ≠ some '&'
  · obtain ⟨rfl, apart⟩ := here
    rw [marked_pos ⟨List.mem_cons_self, apart⟩]
    refine .becomes full (name_reads (fun c hc => ?_) behind)
    have other : c ≠ '&' := by
      rintro rfl
      exact apart hc
    simp [before c hc, other]
  · have stays : ¬ (part ∈ name :: words ∧ b ≠ some '&') := by
      rintro ⟨listed, apart⟩
      exact (List.mem_cons.1 listed).elim (fun same => here ⟨same, apart⟩) fun listed => done ⟨listed, apart⟩
    rw [marked_neg stays]
    refine .stays (ofWords.passes ?_ (chain_of_forall fun c hc => by simp [letters c hc]))
    rintro w z gs split takes
    obtain ⟨alone, rfl, stop⟩ := name_takes takes
    obtain ⟨rfl, -⟩ := span_eq split letters behind (names_letters w mem).2 stop
    refine here ⟨rfl, ?_⟩
    rintro rfl
    exact absurd (alone '&' rfl) (by decide)

/-- The rewrite of a name adds it to the words that have entities. -/
theorem name_apply (mem : name ∈ names) (listed : ∀ w ∈ words, w ∈ names) (h : Alternating Char.isAlpha k rest) :
    (nameRewrite name).apply (markRuns words none rest) = markRuns (name :: words) none rest := by
  have ofWords := name_ofWords mem
  have more : ∀ w ∈ name :: words, w ∈ names := List.forall_mem_cons.2 ⟨mem, listed⟩
  have one {k : Bool} {b b' : Option Char} {part t : Text} (full : part ≠ []) (same : ∀ c ∈ part, c.isAlpha = k)
      (before : k = true → b' = b ∧ ∀ c ∈ b, c.isAlpha = false) (behind : k = true → ∀ c ∈ t.head?, c.isAlpha = false) :
      (nameRewrite name).Writes b' (marked words b part) t (marked (name :: words) b part) := by
    cases k with
    | true =>
        obtain ⟨rfl, apart⟩ := before rfl
        exact name_writes mem full same apart (behind rfl)
    | false =>
        rw [marked_other listed full same, marked_other more full same]
        exact .stays (ofWords.passes_of_forall same)
  -- before a run of letters stands a run that is written as it is, so the character before it is the same
  have all : ∀ b b', (k = true → b' = b ∧ ∀ c ∈ b, c.isAlpha = false) →
      (nameRewrite name).Writes b' (markRuns words b rest) [] (markRuns (name :: words) b rest) := by
    induction h with
    | nil => exact fun _ _ _ => .nil
    | @cons k part rest full same later ih =>
        intro b b' before
        have behind : k = true → ∀ c ∈ (markRuns words part.getLast? rest ++ []).head?, c.isAlpha = false := by
          rintro rfl
          rw [List.append_nil]
          exact markRuns_head listed later
        refine (one full same before behind).append (ih _ _ fun letters => ?_)
        obtain rfl : k = false := by simpa using letters
        rw [marked_other listed full same, List.getLast?_eq_some_getLast full]
        exact ⟨rfl, fun c hc => same c (Option.some.inj hc ▸ List.getLast_mem full)⟩
  exact (all none none fun _ => ⟨rfl, nofun⟩).apply ofWords.advances

/-! ## All rewrites -/

/-- The rewrites of some names, in whatever order, write the entities of these names in one pass. -/
theorem names_applyAll (order : List Text) (mem : ∀ w ∈ order, w ∈ names) (listed : ∀ w ∈ words, w ∈ names)
    (h : Alternating Char.isAlpha k rest) :
    Rewrite.applyAll (order.map nameRewrite) (markRuns words none rest) = markRuns (order ++ words) none rest := by
  induction order generalizing words with
  | nil => rfl
  | cons name order ih =>
      obtain ⟨here, later⟩ := List.forall_mem_cons.1 mem
      rw [List.map_cons, Rewrite.applyAll_cons, name_apply here listed h,
        ih later (List.forall_mem_cons.2 ⟨here, listed⟩)]
      exact markRuns_congr (fun w => by simp [or_left_comm]) none rest

theorem names_apply_runs (order : List Text) (mem : ∀ w ∈ order, w ∈ names) (t : Text) :
    Rewrite.applyAll (order.map nameRewrite) t = markRuns order none (runs t) := by
  obtain ⟨k, alternating⟩ := Alternating.splitBy Char.isAlpha t
  have all : Rewrite.applyAll (order.map nameRewrite) (markRuns [] none (runs t)) = markRuns (order ++ []) none (runs t) :=
    names_applyAll order mem (by simp) alternating
  rwa [markRuns_nil, runs, List.flatten_splitBy, List.append_nil] at all

/-- All names become entities in one pass, the order of the rewrites makes no difference, and a second time nothing
    changes. -/
theorem replaceNames_eq_once (t : Text) : replaceNames t = replaceOnce t ∧
    (∀ order : List Text, order.Perm names → Rewrite.applyAll (order.map nameRewrite) t = replaceNames t) ∧
    replaceNames (replaceNames t) = replaceNames t := by
  have once : replaceNames t = replaceOnce t := names_apply_runs names (fun _ => id) t
  refine ⟨once, fun order perm => ?_, ?_⟩
  · rw [names_apply_runs order (fun _ => perm.mem_iff.1) t, once]
    exact markRuns_congr (fun _ => perm.mem_iff) none (runs t)
  · have twice : replaceNames (replaceNames t) = Rewrite.applyAll ((names ++ names).map nameRewrite) t := by
      rw [List.map_append, Rewrite.applyAll, List.foldl_append]
      rfl
    rw [twice, names_apply_runs _ (by simp) t, once]
    exact markRuns_congr (by simp) none (runs t)

/-- The names in reversed order, in a text with entities and with longer words. -/
theorem replaceNames_eq_once_reversed : names.reverse.Perm names ∧
    Rewrite.applyAll (names.reverse.map nameRewrite) "beta2 &eta; Psi alphabet" = replaceNames "beta2 &eta; Psi alphabet" ∧
    replaceNames "beta2 &eta; Psi alphabet" = "&beta;2 &eta; &Psi; alphabet" :=
  ⟨names.reverse_perm, (replaceNames_eq_once _).2.1 _ names.reverse_perm,
    (replaceNames_eq_once _).1.trans (by decide +kernel)⟩

end LessonText.Greek

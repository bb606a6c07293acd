import LessonText.Proofs.Markup.Sharp

/-! # Safe drafts

A watch looks for a hazard in a draft, either in its shape, where a ward is a gap, or in what it means.
A draft stays quiet under edits that the watch allows.
-/

namespace LessonText

open Draft Hazard

structure Watch where
  hazard : Hazard (Option Char)
  see : Draft → List (Option Char)
  append : ∀ d e, see (d ++ e) = see d ++ see e
  chars : ∀ t, see (Draft.chars t) = t.map some

namespace Watch

/-- A hazard of the shape of a draft. -/
def ofShape (hazard : Hazard (Option Char)) : Watch := ⟨hazard, shape, shape_append, shape_chars⟩

/-- A hazard of what a draft means. -/
def ofMeaning (hazard : Hazard (Option Char)) : Watch where
  hazard
  see d := (meaning d).map some
  append := by simp
  chars := by simp

variable (x : Watch)

/-- What has begun behind a draft. -/
def begun (d : Draft) : List Nat := reach x.hazard [] (x.see d)

/-- The hazard does not occur in a draft. -/
def Quiet (d : Draft) : Prop := safe x.hazard [] (x.see d) = true

/-- Behind `past`, the draft `new` does no more than `old`. -/
def Allows (past old new : Draft) : Prop :=
  x.hazard.Allows (x.begun past) (x.see old) (x.see new)

/-- The watch sees the text end every word. -/
def ends (t : Text) : Bool := Hazard.ends x.hazard (t.map some)

/-- The watch sees the text begin no word, where none has begun. -/
def opens (t : Text) : Bool := Hazard.opens x.hazard (t.map some)

/-- The watch sees the text begin no word, and leave words as they are. -/
def keeps (t : Text) : Bool := Hazard.keeps x.hazard (t.map some)

variable {x} {past old new d e : Draft} {t u : Text}

theorem begun_subset : x.begun d ⊆ anywhere x.hazard :=
  reach_subset_anywhere (List.nil_subset _) _

theorem nil : x.see [] = [] := x.chars []

theorem begun_append : x.begun (d ++ e) = reach x.hazard (x.begun d) (x.see e) := by
  rw [begun, x.append, reach_append]
  rfl

theorem quiet_append : x.Quiet (d ++ e) ↔
    x.Quiet d ∧ safe x.hazard (x.begun d) (x.see e) = true := by
  rw [Quiet, x.append, safe_append]
  rfl

/-- What follows the start of a draft is quiet by itself. -/
theorem Quiet.of_append_left (h : x.Quiet (d ++ e)) : x.Quiet e :=
  safe_mono (List.nil_subset _) (quiet_append.1 h).2

theorem Quiet.of_append_right (h : x.Quiet (d ++ e)) : x.Quiet d := (quiet_append.1 h).1

theorem Quiet.of_inside (h : x.Quiet d) (inside : e <:+: d) : x.Quiet e := by
  obtain ⟨a, z, rfl⟩ := inside
  exact h.of_append_right.of_append_left

theorem Quiet.ends_append (h : x.Quiet d) (ht : x.ends t = true) : x.Quiet (Draft.chars t ++ d) := by
  rw [Quiet, x.append, x.chars]
  exact safe_ends_append ht (List.nil_subset _) h

theorem Quiet.append_ends (h : x.Quiet d) (ht : x.ends t = true) : x.Quiet (d ++ Draft.chars t) := by
  rw [Quiet, x.append, x.chars]
  exact safe_append_ends ht (List.nil_subset _) h

/-- A quiet draft, a text that ends every word, and another quiet draft. -/
theorem Quiet.join (hd : x.Quiet d) (ht : x.ends t = true) (he : x.Quiet e) :
    x.Quiet (d ++ Draft.chars t ++ e) := by
  rw [List.append_assoc, Quiet, x.append, safe_append, x.append, x.chars]
  exact ⟨hd, safe_ends_append ht (reach_subset_anywhere (List.nil_subset _) _) he⟩

namespace Allows

theorem refl : x.Allows past d d := Hazard.Allows.refl _

theorem append {old' new' : Draft} (first : x.Allows past old new)
    (later : x.Allows (past ++ old) old' new') : x.Allows past (old ++ old') (new ++ new') := by
  rw [Allows, begun_append] at later
  rw [Allows, x.append, x.append]
  exact Hazard.Allows.append first later

/-- A draft between two texts that end every word. -/
theorem enclosed (ht : x.ends t = true) (hu : x.ends u = true)
    (h : safe x.hazard (x.begun past) (x.see old) = true → x.Quiet d) :
    x.Allows past old (Draft.chars t ++ d ++ Draft.chars u) := by
  rw [Allows, x.append, x.append, x.chars, x.chars]
  exact Hazard.Allows.enclosed begun_subset ht hu h

theorem of_ends (ht : x.ends t = true) : x.Allows past old (Draft.chars t) := by
  rw [Allows, x.chars]
  exact Hazard.Allows.of_ends begun_subset ht

/-- Behind a place where nothing has begun, a draft loses its beginning and is put between texts. -/
theorem atStart (none : x.begun past = []) (ht : x.opens t = true) (hu : x.keeps u = true) :
    x.Allows past (e ++ d) (Draft.chars t ++ d ++ Draft.chars u) := by
  rw [Allows, none, x.append, x.append, x.append, x.chars, x.chars]
  exact Hazard.Allows.atStart rfl ht hu

/-- Where nothing has begun, a text that begins no word takes the place of anything. -/
theorem of_opens (none : x.begun past = []) (ht : x.opens t = true) : x.Allows past old (Draft.chars t) := by
  obtain ⟨safe, empty⟩ := Bool.and_eq_true_iff.1 ht
  rw [Allows, none, x.chars]
  intro _ S sub
  rw [List.subset_nil.1 sub, List.isEmpty_iff.1 empty]
  exact ⟨safe, List.nil_subset _⟩

end Allows

/-- Nothing has begun at the start of a line. -/
theorem begun_of_lineStart (newline : x.ends "\n" = true)
    (h : (text past).getLast?.all (· == '\n') = true) : x.begun past = [] := by
  cases last : (text past).getLast? with
  | none =>
      have empty : text past = [] := List.getLast?_eq_none_iff.1 last
      have noMark : '?' ∉ text past := by simp [empty]
      have none : past = [] := by
        rw [eq_chars_of_text noMark, empty]
        rfl
      rw [none, begun, Watch.nil]
      rfl
  | some c =>
      rw [last] at h
      obtain rfl : c = '\n' := beq_iff_eq.1 h
      obtain ⟨t, split⟩ := List.getLast?_eq_some_iff.1 last
      obtain ⟨d, rfl, -⟩ := split_right split (by decide)
      rw [begun_append, x.chars]
      exact reach_of_ends newline begun_subset

end Watch

/-- No watch sees its hazard. -/
def Calm (watches : List Watch) (d : Draft) : Prop := ∀ x ∈ watches, x.Quiet d

/-- Allowed edits keep a draft quiet. -/
theorem Edits.quiet {x : Watch} {change : Draft → Draft → Draft → Draft → Prop} {past d e : Draft}
    (edits : Edits change past d e)
    (each : ∀ past old new rest, change past old new rest → x.Allows past old new) :
    ∀ S ⊆ x.begun past, safe x.hazard (x.begun past) (x.see d) = true →
      safe x.hazard S (x.see e) = true := by
  induction edits with
  | nil =>
      intro S _ _
      rw [Watch.nil]
      rfl
  | @keep past y d e _ ih =>
      intro S sub safe
      rw [← List.singleton_append, x.append, safe_append] at safe ⊢
      obtain ⟨here, later⟩ := Hazard.Allows.refl (x.see [y]) safe.1 S sub
      rw [← Watch.begun_append] at later safe
      exact ⟨here, ih _ later safe.2⟩
  | @change past old new d e changed _ ih =>
      intro S sub safe
      rw [x.append, safe_append] at safe ⊢
      obtain ⟨here, later⟩ := each _ _ _ _ changed safe.1 S sub
      rw [← Watch.begun_append] at later safe
      exact ⟨here, ih _ later safe.2⟩

/-- A draft in which no watch sees its hazard stays so under edits that the watches allow. -/
theorem Edits.calm {w w' : List Watch} {d e : Draft} (sub : w' ⊆ w) (calm : Calm w d)
    (edits : Edits (fun past old new _ => ∀ x ∈ w', x.Allows past old new) [] d e) : Calm w' e := by
  intro x hx
  exact edits.quiet (fun _ _ _ _ allowed => allowed x hx) [] (List.nil_subset _)
    (by rw [Watch.begun, Watch.nil]; exact calm x (sub hx))

/-- A step that keeps every ward, and leaves a draft that `watches'` see no hazard in if `watches` saw
    none before. -/
def Sound (watches watches' : List Watch) (f : Text → Rendering Text) : Prop :=
  ∀ d, Calm watches d → Turns (f (text d)) (wards d) (Calm watches')

theorem Sound.comp {w w' w'' : List Watch} {f g : Text → Rendering Text} (hf : Sound w w' f)
    (hg : Sound w' w'' g) : Sound w w'' fun t => f t >>= g :=
  fun d calm => (hf d calm).andThen hg

/-- A sound step stays sound where more is watched before it, or less after it. -/
theorem Sound.mono {w w' v v' : List Watch} {f : Text → Rendering Text} (h : Sound w w' f)
    (before : w ⊆ v) (after : v' ⊆ w') : Sound v v' f :=
  fun d calm => (h d fun x hx => calm x (before hx)).mono fun _ calm' x hx => calm' x (after hx)

/-- A rule, and then some others. -/
theorem Sound.foldlM_cons {w w' w'' : List Watch} {r : Rule} {rules : List Rule}
    (first : Sound w w' r.apply) (later : Sound w' w'' fun t => rules.foldlM (fun t r => r.apply t) t) :
    Sound w w'' fun t => (r :: rules).foldlM (fun t r => r.apply t) t :=
  first.comp later

/-- Rules that are sound one by one are sound one after another. -/
theorem Sound.foldlM {w : List Watch} {rules : List Rule} (h : ∀ r ∈ rules, Sound w w r.apply) :
    Sound w w fun t => rules.foldlM (fun t r => r.apply t) t := by
  induction rules with
  | nil => exact fun d calm => .pure calm
  | cons r rules ih =>
      obtain ⟨first, later⟩ := List.forall_mem_cons.1 h
      exact first.foldlM_cons (ih later)

theorem Sound.foldlM_append {w w' w'' : List Watch} {rules others : List Rule}
    (first : Sound w w' fun t => rules.foldlM (fun t r => r.apply t) t)
    (later : Sound w' w'' fun t => others.foldlM (fun t r => r.apply t) t) :
    Sound w w'' fun t => (rules ++ others).foldlM (fun t r => r.apply t) t := by
  simp only [List.foldlM_append]
  exact first.comp later

/-- A rule whose matches lie between tokens is sound if each replacement is allowed. -/
theorem Sound.of_sharp {w w' : List Watch} {r : Rule} (sub : w' ⊆ w) (advances : r.pattern.Advances)
    (sharp : r.pattern.Sharp)
    (each : ∀ past old rest m, Calm w (past ++ old ++ rest) →
      Found r.pattern (text (past ++ old ++ rest)).length past old rest m →
      Turns (r.replace m) (wards old) fun new => ∀ x ∈ w', x.Allows past old new) :
    Sound w w' r.apply := by
  intro d calm
  have turns : Turns (r.apply (text d)) (wards d)
      (Edits (fun past old new _ => ∀ x ∈ w', x.Allows past old new) [] d) := by
    refine Rule.apply_turns advances sharp d fun past old rest m whole found _ => ?_
    subst whole
    exact each past old rest m calm found
  exact turns.mono fun e edits => edits.calm sub calm

variable {w : List Watch} {past old : Draft} {a u z t t' : Text}

theorem split_around (h : text old = a ++ u ++ z) (ha : '?' ∉ a) (hz : '?' ∉ z) :
    ∃ d, old = chars a ++ d ++ chars z ∧ text d = u := by
  rw [List.append_assoc] at h
  obtain ⟨d, rfl, hd⟩ := split_left h ha
  obtain ⟨e, rfl, he⟩ := split_right hd hz
  exact ⟨e, (List.append_assoc _ _ _).symm, he⟩

/-- A part of a match is put between texts that end every word. -/
theorem Turns.wrap (h : text old = a ++ u ++ z) (ha : '?' ∉ a) (hz : '?' ∉ z)
    (ends : w.all (fun x => x.ends t && x.ends t') = true) :
    Turns (Pure.pure (t ++ u ++ t')) (wards old) fun new => ∀ x ∈ w, x.Allows past old new := by
  obtain ⟨d, rfl, rfl⟩ := split_around h ha hz
  have allowed : ∀ x ∈ w,
      x.Allows past (chars a ++ d ++ chars z) (chars t ++ d ++ chars t') := by
    intro x hx
    obtain ⟨ht, ht'⟩ := Bool.and_eq_true_iff.1 (List.all_eq_true.1 ends x hx)
    refine Watch.Allows.enclosed ht ht' fun quiet => ?_
    rw [x.append, x.append] at quiet
    exact safe_factor quiet
  exact .pure_of allowed (by simp) (by simp)

/-- A match without wards becomes a text that ends every word. -/
theorem Turns.replace (h : '?' ∉ text old) (ht : w.all (·.ends t) = true) :
    Turns (Pure.pure t) (wards old) fun new => ∀ x ∈ w, x.Allows past old new := by
  have none : wards old = [] := by
    rw [eq_chars_of_text h]
    simp
  have allowed : ∀ x ∈ w, x.Allows past old (chars t) :=
    fun x hx => .of_ends (List.all_eq_true.1 ht x hx)
  exact .pure_of allowed (by simp) (by simp [none])

/-- A rewrite of matches without question marks, if each replacement ends every word. -/
theorem Sound.of_unmarked {p : Pattern} {f : Match → Text} (advances : p.Advances) (opens : p.Opens)
    (unmarked : p.admits '?' = false)
    (ends : ∀ b v r m, p.Takes b v r m.groups → w.all (·.ends (f m)) = true) :
    Sound w w (Rule.ofRewrite ⟨p, f⟩).apply := by
  refine Sound.of_sharp (List.Subset.refl _) advances (.of_unmarked opens unmarked) ?_
  intro past old rest m _ found
  refine Turns.replace (fun mark => ?_) (ends _ _ _ m found.takes)
  have admitted : p.admits '?' = true := found.takes.admits mark
  rw [admitted] at unmarked
  cases unmarked

/-- A rule without effects is a rewrite. -/
theorem Rule.ofRewrite_apply (r : Rewrite) (t : Text) :
    (Rule.ofRewrite r).apply t = Pure.pure (r.apply t) := by
  unfold Rule.apply Rewrite.apply
  change Piece.assembleM (fun m => Pure.pure (r.replace m)) (r.pattern.pieces t) = _
  induction r.pattern.pieces t with
  | nil => rfl
  | cons piece rest ih =>
      cases piece with
      | plain c => rw [Piece.assembleM, ih, pure_bind, Piece.assemble]
      | found m => rw [Piece.assembleM, ih, pure_bind, pure_bind, Piece.assemble]

end LessonText

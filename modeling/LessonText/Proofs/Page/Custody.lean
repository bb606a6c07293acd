import LessonText.Proofs.Page.Equations

/-! # What rules take into custody

Each rule of a page takes characters and whole tags into custody, and leaves a text that the reader of tags takes. What
the wards of a draft stand for is read off the session, so it may be added to what is known of the draft.
-/

namespace LessonText

open Draft

/-! ## Wards of a session -/

/-- What is in custody beside other wards is told by the session. -/
theorem Session.Holds.data_perm {s : Session} {ws ws' others : List Ward} (h : s.Holds (ws ++ others))
    (h' : s.Holds (ws' ++ others)) : (ws.map Ward.data).Perm (ws'.map Ward.data) := by
  have same := h.pending.symm.trans h'.pending
  rw [List.map_append, List.map_append, List.perm_append_right_iff] at same
  have data := same.map Prod.snd
  rw [List.map_map, List.map_map] at data
  exact data

namespace Turns

variable {f : Rendering Text} {ws : List Ward} {result : Draft → Prop} {D : Text → Prop}

/-- What is known of the wards from one description of a step holds together with another description. -/
theorem and_data (h : Turns f ws result) (data : Turns f ws fun d => ∀ w ∈ wards d, D w.data) :
    Turns f ws fun d => result d ∧ ∀ w ∈ wards d, D w.data := by
  intro others s held
  obtain ⟨d, s', step, held', known⟩ := h others s held
  obtain ⟨e, s'', step', held'', all⟩ := data others s held
  obtain rfl : s' = s'' := congrArg Prod.snd (step.symm.trans step')
  refine ⟨d, s', step, held', known, fun w hw => ?_⟩
  obtain ⟨v, hv, same⟩ := List.mem_map.1 ((held'.data_perm held'').mem_iff.1 (List.mem_map_of_mem hw))
  exact same ▸ all v hv

/-- What is known of the text whatever is in custody. -/
theorem and_text {P : Text → Prop} (h : Turns f ws result) (text_of : ∀ s, P (f s).1) :
    Turns f ws fun d => result d ∧ P (text d) := by
  intro others s held
  obtain ⟨d, s', step, held', known⟩ := h others s held
  exact ⟨d, s', step, held', known, by simpa [step] using text_of s⟩

/-- A step that leaves the session as it is leaves what is in custody. -/
theorem data_of_silent (h : Turns f ws result) (silent : ∀ s, (f s).2 = s) (data : ∀ w ∈ ws, D w.data) :
    Turns f ws fun d => ∀ w ∈ wards d, D w.data := by
  intro others s held
  obtain ⟨d, s', step, held', -⟩ := h others s held
  obtain rfl : s' = s := (congrArg Prod.snd step).symm.trans (silent s)
  refine ⟨d, s', step, held', fun w hw => ?_⟩
  obtain ⟨v, hv, same⟩ := List.mem_map.1 ((held'.data_perm held).mem_iff.1 (List.mem_map_of_mem hw))
  exact same ▸ data v hv

/-- Data go into custody between two texts. -/
theorem protect_data {data t t' : Text} (h : D data) :
    Turns (do return t ++ (← Rendering.protect data) ++ t') [] fun d => ∀ w ∈ wards d, D w.data := by
  by_cases empty : data = []
  · subst empty
    exact fun others s held => ⟨chars (t ++ [] ++ t'), s, by rw [text_chars]; rfl, by simpa using held, by simp⟩
  · refine protect_bind empty fun w same => ?_
    refine .pure_of (d := chars t ++ [.ward w] ++ chars t') ?_ (by simp [Token.text]) (by simp)
    simpa [same] using h

end Turns

/-- A rule whose replacements leave the session as it is. -/
theorem Rule.apply_silent {r : Rule} (silent : ∀ m s, (r.replace m s).2 = s) (t : Text) (s : Session) : (r.apply t s).2 = s := by
  unfold Rule.apply
  induction r.pattern.pieces t generalizing s with
  | nil => rfl
  | cons piece ps ih =>
      cases piece with
      | plain c => exact ih s
      | found m => exact (ih _).trans (silent m s)

theorem Edits.data {change : Draft → Draft → Draft → Draft → Prop} {D : Text → Prop} {past d e : Draft} (edits : Edits change past d e)
    (each : ∀ past old new rest, change past old new rest → ∀ w ∈ wards new, D w.data) (data : ∀ w ∈ wards d, D w.data) :
    ∀ w ∈ wards e, D w.data := by
  induction edits with
  | nil => exact data
  | @keep past x d e _ ih =>
      rw [← List.singleton_append, wards_append, List.forall_mem_append] at data ⊢
      exact ⟨data.1, ih data.2⟩
  | change changed _ ih =>
      rw [wards_append, List.forall_mem_append] at data ⊢
      exact ⟨each _ _ _ _ changed, ih data.2⟩

/-- A rule takes data of a kind into custody if each of its replacements does. -/
theorem Rule.apply_data {r : Rule} {D : Text → Prop} (advances : r.pattern.Advances) (sharp : r.pattern.Sharp) {d : Draft}
    (data : ∀ w ∈ wards d, D w.data) (each : ∀ past old rest m, d = past ++ old ++ rest →
      Found r.pattern (text d).length past old rest m → .found m ∈ r.pattern.pieces (text d) →
      Turns (r.replace m) (wards old) fun new => ∀ w ∈ wards new, D w.data) :
    Turns (r.apply (text d)) (wards d) fun e => ∀ w ∈ wards e, D w.data := by
  have turns : Turns (r.apply (text d)) (wards d) (Edits (fun _ _ new _ => ∀ w ∈ wards new, D w.data) [] d) :=
    Rule.apply_turns advances sharp d each
  exact turns.mono fun _ edits => edits.data (fun _ _ _ _ kept => kept) data

namespace Reader

variable {σ : Type} {A : Reader σ} {past old rest : Draft}

/-- Where a part of a draft is read from. At the start of a line that is the start. -/
theorem Accepts.reads_part (h : A.Accepts (text (past ++ old ++ rest))) (ended : A.Returns '\n') :
    ∃ s, ((text past).getLast?.all (· == '\n') = true → s = A.home) ∧ A.Reads s (text old ++ text rest) := by
  rw [Reader.Accepts, text_append, text_append, List.append_assoc, reads_append] at h
  obtain ⟨s, read, later⟩ := h
  refine ⟨s, fun line => ?_, later⟩
  by_cases empty : text past = []
  · rw [empty] at read
    exact (Option.some.inj read).symm
  · refine run_returns (fun c hc => ?_) empty read
    rw [show (text past).getLast? = some c from hc] at line
    obtain rfl : c = '\n' := beq_iff_eq.1 line
    exact ended

end Reader

namespace Page

open Pattern Unicode Hazard Rendering Reader

variable {hs : List (Hazard (Option Char))} {d e : Draft} {f : Rendering Text} {ws : List Ward} {t : Text}

/-- The wards of a draft stand for characters and whole tags. -/
def Held (d : Draft) : Prop := ∀ w ∈ wards d, Tagged IsTag w.data

@[simp] theorem held_nil : Held [] := by simp [Held]

@[simp] theorem held_append : Held (d ++ e) ↔ Held d ∧ Held e := by simp [Held, or_imp, forall_and]

@[simp] theorem held_ward {w : Ward} : Held (.ward w :: d) ↔ Tagged IsTag w.data ∧ Held d := List.forall_mem_cons

@[simp] theorem held_chars : Held (chars t) := by simp [Held]

theorem Held.inside (h : Held d) (inside : e <:+: d) : Held e := by
  obtain ⟨a, z, rfl⟩ := inside
  exact (held_append.1 (held_append.1 h).1).2

/-- A draft in which nothing is watched: the reader of tags takes its text, and its wards stand for whole tags. -/
structure Clean (hs : List (Hazard (Option Char))) (d : Draft) : Prop where
  calm : Calm (watches hs) d
  reads : (whole tags).Accepts (text d)
  held : Held d

theorem Clean.tagged (h : Clean hs d) : Tagged IsTag (meaning d) := tags_tagless.tagged_meaning isTag_of_spells h.reads h.held

theorem fits : (whole tags).Fits := tags_tagless.fits (by decide) (by decide)

/-- A step that is sound, carries what the reader takes, and takes whole tags into custody. -/
theorem clean_turns (sound : Turns f ws (Calm (watches hs)))
    (carries : ∀ gaps, Ensures (Session.Keeps (fun _ => True) gaps) f (whole tags).Accepts) (held : Turns f ws Held) :
    Turns f ws (Clean hs) := by
  have reads (s : Session) : (whole tags).Accepts (f s).1 := (carries s.gaps s ⟨fun _ _ => trivial, rfl⟩).2
  exact ((sound.and_data held).and_text reads).mono fun e known => ⟨known.1.1, known.2, known.1.2⟩

/-- A part of a clean draft: the reader takes it from somewhere, at the start of a line from its own start. -/
structure Inside (hs : List (Hazard (Option Char))) (past old rest : Draft) : Prop where
  calm : Calm (watches hs) old
  held : Held old
  reads : ∃ s, ((text past).getLast?.all (· == '\n') = true → s = (whole tags).home) ∧ (whole tags).Reads s (text old ++ text rest)

theorem Clean.inside {past old rest : Draft} (clean : Clean hs (past ++ old ++ rest)) : Inside hs past old rest where
  calm x hx := (clean.calm x hx).of_append_right.of_append_left
  held := clean.held.inside (List.infix_append _ _ _)
  reads := clean.reads.reads_part fits.toMarked.ended.returns

/-- A rule takes whole tags into custody if it does so with each match in a clean draft. -/
theorem Clean.apply_held {r : Rule} (clean : Clean hs d) (advances : r.pattern.Advances) (sharp : r.pattern.Sharp)
    (each : ∀ past old rest m, Found r.pattern (text d).length past old rest m → .found m ∈ r.pattern.pieces (text d) →
      Inside hs past old rest → Turns (r.replace m) (wards old) Held) : Turns (r.apply (text d)) (wards d) Held :=
  Rule.apply_data advances sharp clean.held fun _ _ _ _ split found mem => each _ _ _ _ found mem (split ▸ clean).inside

end Page

end LessonText

import LessonText.Proofs.Warden.Draft
import LessonText.Proofs.Warden.Ledger

/-! # Custody

What a step of rendering does to the wards: it turns some of them into a draft with its own wards, and
leaves every other ward as it is.
-/

namespace LessonText

open Draft

/-- A session has exactly these wards in custody, each under a key of its own, and missed no key. -/
structure Session.Holds (s : Session) (ws : List Ward) : Prop where
  pending : s.warden.wards.Perm (ws.map fun w => (w.key, w.data))
  distinct : (ws.map Ward.number).Nodup
  issued : ∀ w ∈ ws, w.number < s.warden.issued
  clean : ∀ key, .missingWard key ∉ s.notices

namespace Session.Holds

variable {s : Session} {w : Ward} {ws ws' : List Ward}

theorem perm (h : s.Holds ws) (p : ws.Perm ws') : s.Holds ws' where
  pending := h.pending.trans (p.map _)
  distinct := (p.map _).nodup h.distinct
  issued := fun w hw => h.issued w (p.mem_iff.2 hw)
  clean := h.clean

theorem start : Session.Holds {} [] where
  pending := .nil
  distinct := .nil
  issued := by simp
  clean := by simp

/-- Data taken into custody have a ward of their own. -/
theorem protect (h : s.Holds ws) {data : Text} (hd : data ≠ []) :
    ∃ (w : Ward) (s' : Session), w.data = data ∧ Rendering.protect data s = (w.key, s') ∧
      s'.Holds (w :: ws) := by
  let w : Ward := ⟨s.warden.issued, data, hd⟩
  let warden : Warden := ⟨s.warden.issued + 1, (w.key, data) :: s.warden.wards⟩
  have full : data.isEmpty = false := by simpa using hd
  refine ⟨w, { s with warden }, rfl, ?_, ?_⟩
  · unfold Rendering.protect Warden.protect
    rw [full]
    rfl
  · exact {
      pending := h.pending.cons _
      distinct := by
        rw [List.map_cons, List.nodup_cons]
        refine ⟨?_, h.distinct⟩
        intro old
        obtain ⟨v, hv, e⟩ := List.mem_map.1 old
        exact absurd (h.issued v hv) (by simp [e, w])
      issued := by
        intro v hv
        rcases List.mem_cons.1 hv with rfl | hv
        · exact Nat.lt_succ_self _
        · exact Nat.lt_succ_of_lt (h.issued v hv)
      clean := h.clean }

theorem keys_nodup (h : s.Holds ws) : (s.warden.wards.map Prod.fst).Nodup := by
  have keys : (s.warden.wards.map Prod.fst).Perm (ws.map Ward.key) := by
    have wards := h.pending.map Prod.fst
    rwa [List.map_map] at wards
  refine keys.nodup_iff.2 (List.pairwise_map.2 ((List.pairwise_map.1 h.distinct).imp ?_))
  intro v v' number same
  exact number (Warden.keyFor_inj v.held v'.held same)

/-- A ward in custody is given back and released. -/
theorem retrieve (h : s.Holds (w :: ws)) : ∃ warden, s.warden.retrieve w.key = ⟨w.data, warden, []⟩ ∧
    Session.Holds { s with warden } ws := by
  have ward : (w.key, w.data) ∈ s.warden.wards := h.pending.mem_iff.2 List.mem_cons_self
  obtain ⟨rest, given, released, -⟩ := Warden.retrieve_of_mem h.keys_nodup ward
  exact ⟨{ s.warden with wards := rest }, given, {
    pending := (released.trans h.pending).cons_inv
    distinct := (List.nodup_cons.1 h.distinct).2
    issued := fun v hv => h.issued v (List.mem_cons_of_mem _ hv)
    clean := h.clean }⟩

/-- Putting back the keys of a draft releases its wards and no other. -/
theorem recover {d : Draft} (h : s.Holds (wards d ++ ws)) : ∃ warden,
    s.warden.recover (keys d) = ⟨meaning d, warden, []⟩ ∧ Session.Holds { s with warden } ws := by
  induction d generalizing s with
  | nil => exact ⟨s.warden, rfl, h⟩
  | cons x d ih =>
      cases x with
      | char c =>
          obtain ⟨warden, e, held⟩ := ih h
          refine ⟨warden, ?_, held⟩
          rw [keys, List.map_cons, Warden.recover]
          rw [← keys, e]
          rfl
      | ward w =>
          obtain ⟨warden, e, held⟩ := h.retrieve
          obtain ⟨warden', e', held'⟩ := ih held
          refine ⟨warden', ?_, held'⟩
          rw [keys, List.map_cons, Warden.recover]
          rw [← keys, e]
          simp only [e']
          rfl

theorem reinstate {d : Draft} {S : List Nat} (h : s.Holds (wards d ++ ws))
    (safe : keyHazard.safe S (shape d) = true) :
    ∃ s' : Session, Rendering.reinstate (text d) s = (meaning d, s') ∧ s'.Holds ws := by
  obtain ⟨warden, e, held⟩ := h.recover
  refine ⟨{ s with warden }, ?_, held⟩
  unfold Rendering.reinstate Warden.reinstate Text.cut
  rw [cut_text safe none, e]
  simp

end Session.Holds

/-- A step that turns some wards into a draft with its own wards, whatever else is in custody. -/
def Turns (f : Rendering Text) (ws : List Ward) (result : Draft → Prop) : Prop :=
  ∀ others s, Session.Holds s (ws ++ others) →
    ∃ d s', f s = (text d, s') ∧ Session.Holds s' (wards d ++ others) ∧ result d

namespace Turns

variable {f : Rendering Text} {ws ws' : List Ward} {result result' : Draft → Prop}

theorem mono (h : Turns f ws result) (imp : ∀ d, result d → result' d) : Turns f ws result' := by
  intro others s hs
  obtain ⟨d, s', e, held, hd⟩ := h others s hs
  exact ⟨d, s', e, held, imp d hd⟩

theorem perm (h : Turns f ws result) (p : ws.Perm ws') : Turns f ws' result :=
  fun others s hs => h others s (hs.perm (p.symm.append_right others))

theorem pure {d : Draft} (h : result d) : Turns (Pure.pure (text d)) (wards d) result :=
  fun _ s hs => ⟨d, s, rfl, hs, h⟩

theorem pure_of {d : Draft} {t : Text} (h : result d) (e : t = text d) (p : (wards d).Perm ws) :
    Turns (Pure.pure t) ws result :=
  e ▸ (Turns.pure h).perm p

/-- The second step may also use wards that the first one leaves alone. -/
theorem bind {g : Text → Rendering Text} (h : Turns f ws result)
    (hg : ∀ d, result d → Turns (g (text d)) (wards d ++ ws') result') :
    Turns (f >>= g) (ws ++ ws') result' := by
  intro others s hs
  rw [List.append_assoc] at hs
  obtain ⟨d, s', e, held, hd⟩ := h _ s hs
  rw [← List.append_assoc] at held
  obtain ⟨d', s'', e', held', hd'⟩ := hg d hd others s' held
  refine ⟨d', s'', ?_, held', hd'⟩
  rw [← e']
  exact congrArg (fun r : Text × Session => g r.1 r.2) e

/-- The second step only uses wards that the first one leaves in its result. -/
theorem andThen {g : Text → Rendering Text} (h : Turns f ws result)
    (hg : ∀ d, result d → Turns (g (text d)) (wards d) result') : Turns (f >>= g) ws result' := by
  rw [← List.append_nil ws]
  refine h.bind fun d hd => ?_
  rw [List.append_nil]
  exact hg d hd

theorem protect {data : Text} (hd : data ≠ []) :
    Turns (Rendering.protect data) [] fun d => ∃ w : Ward, d = [.ward w] ∧ w.data = data := by
  intro others s hs
  obtain ⟨w, s', hw, e, held⟩ := Session.Holds.protect hs hd
  exact ⟨[.ward w], s', by rw [e]; simp [Token.text], held, w, rfl, hw⟩

/-- Data go into custody, and a step goes on with their key. -/
theorem protect_bind {g : Text → Rendering Text} {data : Text} (hd : data ≠ [])
    (hg : ∀ w : Ward, w.data = data → Turns (g w.key) (w :: ws) result) :
    Turns (Rendering.protect data >>= g) ws result := by
  refine Turns.bind (Turns.protect hd) ?_
  rintro _ ⟨w, rfl, hw⟩
  simpa [Token.text] using hg w hw

theorem reinstate {d : Draft} {S : List Nat}
    (safe : keyHazard.safe S (shape d) = true) :
    Turns (Rendering.reinstate (text d)) (wards d) fun e => e = chars (meaning d) := by
  intro others s hs
  obtain ⟨s', e, held⟩ := hs.reinstate safe
  exact ⟨chars (meaning d), s', by rw [e, text_chars], by simpa using held, rfl⟩

theorem recordGap_bind {word : Text} (h : Turns f ws result) :
    Turns (Rendering.recordGap word >>= fun _ => f) ws result := by
  intro others s held
  exact h others { s with gaps := s.gaps ++ [word] } ⟨held.pending, held.distinct, held.issued, held.clean⟩

theorem report_bind {notice : Notice} (h : Turns f ws result) (other : ∀ key, notice ≠ .missingWard key) :
    Turns (Rendering.report notice >>= fun _ => f) ws result := by
  intro others s held
  refine h others { s with notices := s.notices ++ [notice] } ⟨held.pending, held.distinct, held.issued, ?_⟩
  intro key missed
  rcases List.mem_append.1 missed with missed | missed
  · exact held.clean key missed
  · exact other key (List.mem_singleton.1 missed).symm

end Turns

end LessonText

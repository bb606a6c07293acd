import LessonText.Proofs.Hazard
import LessonText.Proofs.Pattern.Scan

/-! # Rewrites that bring no hazard

A rewrite keeps a text safe if each replacement does no more than the match that it replaces.
-/

namespace LessonText

open Hazard

/-- A text without the hazard. -/
def Hazard.Spares (h : Hazard (Option Char)) (t : Text) : Prop := safe h [] (t.map some) = true

instance (h : Hazard (Option Char)) (t : Text) : Decidable (h.Spares t) :=
  inferInstanceAs (Decidable (_ = true))

/-- A rewrite after which a text still has no hazard. -/
def Rewrite.Spares (h : Hazard (Option Char)) (r : Rewrite) : Prop :=
  ∀ t, h.Spares t → h.Spares (r.apply t)

variable {h : Hazard (Option Char)}

theorem Hazard.Spares.of_factor {a t z : Text} (ht : h.Spares (a ++ t ++ z)) : h.Spares t := by
  unfold Hazard.Spares at ht
  rw [List.map_append, List.map_append] at ht
  exact safe_factor ht

theorem Hazard.Spares.append_ends {t n : Text} (ht : h.Spares t) (hn : ends h (n.map some) = true) :
    h.Spares (t ++ n) := by
  unfold Hazard.Spares at ht ⊢
  rw [List.map_append]
  exact safe_append_ends hn (List.nil_subset _) ht

theorem Hazard.Spares.ends_append {t n : Text} (ht : h.Spares t) (hn : ends h (n.map some) = true) :
    h.Spares (n ++ t) := by
  unfold Hazard.Spares at ht ⊢
  rw [List.map_append]
  exact safe_ends_append hn (List.nil_subset _) ht

theorem Hazard.Spares.join {t n u : Text} (ht : h.Spares t) (hn : ends h (n.map some) = true)
    (hu : h.Spares u) : h.Spares (t ++ n ++ u) := by
  unfold Hazard.Spares at ht hu ⊢
  rw [List.map_append, List.map_append]
  exact safe_join ht hn hu

/-- Some letters of a text become texts that end every word. -/
theorem Hazard.Spares.flatMap {f : Char → Text} (each : ∀ c, f c = [c] ∨ ends h ((f c).map some) = true)
    {t : Text} (ht : h.Spares t) : h.Spares (t.flatMap f) := by
  have all : ∀ T ⊆ anywhere h, h.Allows T (t.map some) ((t.flatMap f).map some) := by
    clear ht
    induction t with
    | nil => exact fun T _ => .refl []
    | cons c t ih =>
        intro T sub
        rw [List.flatMap_cons, List.map_append]
        have letter : h.Allows T [some c] ((f c).map some) := by
          rcases each c with e | e
          · rw [e]
            exact .refl _
          · exact .of_ends sub e
        exact letter.append (ih _ (reach_subset_anywhere sub _))
  exact (all [] (List.nil_subset _) ht [] (List.nil_subset _)).1

/-- A rewrite spares a text if each replacement is allowed. -/
theorem Rewrite.Spares.of_allows {r : Rewrite} (advances : r.pattern.Advances)
    (each : ∀ b w rest m, r.pattern.Takes b w rest m.groups → m.text = w → ∀ T ⊆ anywhere h,
      h.Allows T (w.map some) ((r.replace m).map some)) : r.Spares h := by
  intro t ht
  have all {bound b t ps} (scan : Scan (r.pattern.matchAt bound 0) b t ps) : ∀ S T, T ⊆ anywhere h →
      S ⊆ T → safe h T (t.map some) = true →
      safe h S ((Piece.assemble r.replace ps).map some) = true := by
    induction scan with
    | nil => exact fun S T _ _ _ => rfl
    | @plain b c t ps _ _ ih =>
        intro S T inside sub safe
        have whole : Hazard.safe h T ([some c] ++ t.map some) = true := safe
        obtain ⟨here, later⟩ := safe_append.1 whole
        have kept : Hazard.safe h S ([some c] ++ (Piece.assemble r.replace ps).map some) = true :=
          safe_append.2 ⟨safe_mono sub here, ih _ _ (reach_subset_anywhere inside _)
            (reach_mono sub _) later⟩
        exact kept
    | @found b w t m ps _ found _ ih =>
        intro S T inside sub safe
        obtain ⟨text_eq, takes⟩ := Pattern.matchAt_found found
        rw [List.map_append, safe_append] at safe
        obtain ⟨here, less⟩ := each _ w t m (text_eq ▸ takes) text_eq T inside safe.1 S sub
        rw [Piece.assemble, List.map_append, safe_append]
        exact ⟨here, ih _ _ (reach_subset_anywhere inside _) less safe.2⟩
  exact all (Pattern.pieces_scan advances t) [] [] (List.nil_subset _) (List.nil_subset _) ht

theorem Rewrite.applyAll_spares {rs : List Rewrite} (each : ∀ r ∈ rs, r.Spares h) {t : Text}
    (ht : h.Spares t) : h.Spares (Rewrite.applyAll rs t) := by
  induction rs generalizing t with
  | nil => exact ht
  | cons r rs ih =>
      obtain ⟨first, later⟩ := List.forall_mem_cons.1 each
      exact ih later (first t ht)

namespace Rewrite.Spares

variable {p : Pattern} {n n' : Text}

/-- Every match becomes a text that ends every word. -/
theorem const (advances : p.passes = true) (hn : ends h (n.map some) = true) :
    Rewrite.Spares h ⟨p, fun _ => n⟩ :=
  .of_allows (.of_passes advances) fun _ _ _ _ _ _ _ sub => .of_ends sub hn

/-- Every match is put between texts that end every word. -/
theorem wrap {f : Match → Text} (advances : p.passes = true) (hn : ends h (n.map some) = true)
    (hn' : ends h (n'.map some) = true)
    (part : ∀ b w rest m, p.Takes b w rest m.groups → m.text = w → ∃ a z, w = a ++ f m ++ z) :
    Rewrite.Spares h ⟨p, fun m => n ++ f m ++ n'⟩ := by
  refine .of_allows (.of_passes advances) fun b w rest m takes text_eq T sub => ?_
  obtain ⟨a, z, split⟩ := part b w rest m takes text_eq
  simp only [List.map_append]
  refine .enclosed sub hn hn' fun safe => ?_
  rw [split, List.map_append, List.map_append] at safe
  exact safe_factor safe

/-- The start of every match stays, and a text that ends every word follows it. -/
theorem start {f : Match → Text} (advances : p.passes = true) (hn : ends h (n.map some) = true)
    (part : ∀ b w rest m, p.Takes b w rest m.groups → m.text = w → ∃ z, w = f m ++ z) :
    Rewrite.Spares h ⟨p, fun m => f m ++ n⟩ := by
  refine .of_allows (.of_passes advances) fun b w rest m takes text_eq T sub => ?_
  obtain ⟨z, split⟩ := part b w rest m takes text_eq
  rw [split, List.map_append, List.map_append]
  exact .start_ends sub hn

end Rewrite.Spares

end LessonText

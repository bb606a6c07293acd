import LessonText.Text.Basic
import LessonText.Unicode.Space

/-! # Classes as lists of characters

A class of few characters is a list, so that what is said of all of it can be computed.
-/

namespace LessonText.Unicode

/-- A character outside a class is in no text of the class. -/
theorem not_mem_of_all {cls : Char → Bool} {t : Text} {c : Char} (h : ∀ d ∈ t, cls d = true) (other : cls c = false) :
    c ∉ t := by
  intro mem
  rw [h c mem] at other
  cases other

/-- The characters of ranges. -/
def charsOf (ranges : List Range) : Text :=
  ranges.flatMap fun (first, last) => (List.range' first (last + 1 - first)).map Char.ofNat

theorem mem_charsOf {ranges : List Range} {c : Char} (h : inRanges ranges c.toNat = true) :
    c ∈ charsOf ranges := by
  induction ranges with
  | nil => cases h
  | cons r ranges ih =>
      obtain ⟨first, last⟩ := r
      rw [charsOf, List.flatMap_cons, List.mem_append]
      unfold inRanges at h
      split at h
      · cases h
      · rw [Bool.or_eq_true, decide_eq_true_eq] at h
        rcases h with h | h
        · refine .inl (List.mem_map.2 ⟨c.toNat, List.mem_range'_1.2 ?_, Char.ofNat_toNat c⟩)
          omega
        · exact .inr (ih h)

theorem of_isSpace {p : Char → Bool} (h : (charsOf spaceRanges).all p = true) {c : Char}
    (hc : isSpace c = true) : p c = true :=
  List.all_eq_true.1 h c (mem_charsOf hc)

/-- The letters and digits of ASCII. -/
def alphanumRanges : List Range := [(0x30, 0x39), (0x41, 0x5A), (0x61, 0x7A)]

theorem inRanges_of_isAlphanum {c : Char} (h : c.isAlphanum = true) :
    inRanges alphanumRanges c.toNat = true := by
  have cases : ((c.isUpper || c.isLower) || c.isDigit) = true := h
  rw [Bool.or_eq_true, Bool.or_eq_true] at cases
  simp only [alphanumRanges, inRanges]
  rcases cases with (upper | lower) | digit
  · have bounds : 0x41 ≤ c.toNat ∧ c.toNat ≤ 0x5A := of_decide_eq_true upper
    simp
    omega
  · have bounds := Bool.and_eq_true_iff.1 lower
    have low : 0x61 ≤ c.toNat := of_decide_eq_true bounds.1
    have high : c.toNat ≤ 0x7A := of_decide_eq_true bounds.2
    simp
    omega
  · have bounds := Bool.and_eq_true_iff.1 digit
    have low : 0x30 ≤ c.toNat := of_decide_eq_true bounds.1
    have high : c.toNat ≤ 0x39 := of_decide_eq_true bounds.2
    simp
    omega

theorem of_isAlphanum {p : Char → Bool} (h : (charsOf alphanumRanges).all p = true) {c : Char}
    (hc : c.isAlphanum = true) : p c = true :=
  List.all_eq_true.1 h c (mem_charsOf (inRanges_of_isAlphanum hc))

/-- The letters of ASCII. -/
def letterRanges : List Range := [(0x41, 0x5A), (0x61, 0x7A)]

theorem of_isAlpha {p : Char → Bool} (h : (charsOf letterRanges).all p = true) {c : Char}
    (hc : c.isAlpha = true) : p c = true := by
  refine List.all_eq_true.1 h c (mem_charsOf ?_)
  have cases : (c.isUpper || c.isLower) = true := hc
  rw [Bool.or_eq_true] at cases
  simp only [letterRanges, inRanges]
  rcases cases with upper | lower
  · have bounds : 0x41 ≤ c.toNat ∧ c.toNat ≤ 0x5A := of_decide_eq_true upper
    simp
    omega
  · have bounds := Bool.and_eq_true_iff.1 lower
    have low : 0x61 ≤ c.toNat := of_decide_eq_true bounds.1
    have high : c.toNat ≤ 0x7A := of_decide_eq_true bounds.2
    simp
    omega

end LessonText.Unicode

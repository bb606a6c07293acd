import LessonText.Proofs.Warden.Key
import Mathlib.Data.List.Nodup

/-! # The ledger of a warden

Beside a warden a ledger is kept of the keys that it has issued since it was last cleared, read off the
steps and what they answer. No two keys of a ledger are equal, and the warden has in custody exactly
those that were not asked for since.
-/

namespace LessonText

namespace Warden

/-- A key that was issued, and whether it was asked for since. -/
structure Issue where
  key : Text
  fragment : Text
  retrieved : Bool := false

/-- The keys among pieces, from left to right. -/
def keysOf (pieces : List (Piece Text)) : List Text :=
  pieces.filterMap fun
    | .plain _ => none
    | .found key => some key

/-- The keys that a step asks for. -/
def Step.asked : Step → List Text
  | .retrieve key => [key]
  | .reinstate t => keysOf (t.cut findKey)
  | .protect _ => []
  | .clear => []

namespace Issue

/-- An issue once some keys have been asked for. -/
def mark (asked : List Text) (i : Issue) : Issue :=
  { i with retrieved := i.retrieved || asked.contains i.key }

/-- The ward of an issue. -/
def ward (i : Issue) : Text × Text := (i.key, i.fragment)

/-- The issues after a step with its answer. -/
def note (ledger : List Issue) (answer : Text) : Step → List Issue
  | .protect data => if data.isEmpty then ledger else ledger ++ [{ key := answer, fragment := data }]
  | .clear => []
  | step => ledger.map (mark step.asked)

end Issue

/-- A warden with its ledger. -/
structure Account where
  warden : Warden := {}
  ledger : List Issue := []

namespace Account

/-- The issues that were not asked for. -/
def pending (a : Account) : List Issue := a.ledger.filter fun i => !i.retrieved

def step (a : Account) (s : Step) : Account :=
  ⟨(a.warden.perform s).warden, Issue.note a.ledger (a.warden.perform s).text s⟩

/-- The account of a fresh warden after some steps. -/
def after (steps : List Step) : Account := steps.foldl step {}

end Account

/-- Steps one after another: the warden after them, and the keys that were not pending. -/
def performAll (w : Warden) : List Step → Warden × List Text
  | [] => (w, [])
  | s :: rest =>
    let r := w.perform s
    let (w', missing) := r.warden.performAll rest
    (w', r.missing ++ missing)

/-! ## What steps do to the wards -/

/-- Asking for a key releases its ward, and no other. -/
theorem retrieve_warden (w : Warden) (key : Text) :
    (w.retrieve key).warden = { w with wards := w.wards.filter (·.1 != key) } := by
  unfold retrieve
  cases held : w.wards.lookup key with
  | some data => rfl
  | none =>
      have absent : ∀ p ∈ w.wards, (p.1 != key) = true := by
        intro p hp
        rw [bne_comm]
        exact List.lookup_eq_none_iff.1 held p hp
      rw [List.filter_eq_self.2 absent]

/-- A key in custody is given back what it stands for, and released. -/
theorem retrieve_of_mem {w : Warden} {key data : Text} (distinct : (w.wards.map Prod.fst).Nodup)
    (held : (key, data) ∈ w.wards) : ∃ rest, w.retrieve key = ⟨data, { w with wards := rest }, []⟩ ∧
      ((key, data) :: rest).Perm w.wards ∧ key ∉ rest.map Prod.fst := by
  obtain ⟨before, behind, cut⟩ := List.append_of_mem held
  rw [cut, List.map_append, List.map_cons, List.nodup_middle, ← List.map_append] at distinct
  have others : key ∉ (before ++ behind).map Prod.fst := (List.nodup_cons.1 distinct).1
  have other : ∀ p ∈ before ++ behind, (p.1 != key) = true := by
    intro p hp
    rw [bne_iff_ne]
    rintro rfl
    exact others (List.mem_map_of_mem hp)
  have found : w.wards.lookup key = some data := by
    have earlier : before.lookup key = none := by
      refine List.lookup_eq_none_iff.2 fun p hp => ?_
      rw [bne_comm]
      exact other p (List.mem_append_left _ hp)
    rw [cut, List.lookup_append, earlier, Option.none_or, List.lookup_cons_self]
  have rest : w.wards.filter (·.1 != key) = before ++ behind := by
    rw [cut, List.filter_append, List.filter_cons_of_neg (by simp), ← List.filter_append]
    exact List.filter_eq_self.2 other
  refine ⟨before ++ behind, ?_, ?_, others⟩
  · rw [retrieve, found, ← rest]
  · rw [cut]
    exact List.perm_middle.symm

/-- A key that is not in custody stands for itself and is reported, and nothing else happens. -/
theorem retrieve_of_not_mem {w : Warden} {key : Text} (h : key ∉ w.wards.map Prod.fst) :
    w.retrieve key = ⟨key, w, [key]⟩ := by
  have absent : w.wards.lookup key = none := by
    refine List.lookup_eq_none_iff.2 fun p hp => ?_
    rw [bne_iff_ne]
    rintro rfl
    exact h (List.mem_map_of_mem hp)
  rw [retrieve, absent]

/-- Putting back the keys of pieces is asking for each of them in turn. -/
theorem recover_eq (w : Warden) (pieces : List (Piece Text)) :
    ((w.recover pieces).warden, (w.recover pieces).missing) =
      w.performAll ((keysOf pieces).map .retrieve) := by
  induction pieces generalizing w with
  | nil => rfl
  | cons piece pieces ih =>
      cases piece with
      | plain c => exact ih w
      | found key =>
          have later := ih (w.retrieve key).warden
          have here : keysOf (.found key :: pieces) = key :: keysOf pieces := rfl
          rw [here, List.map_cons, performAll, recover, perform, ← later]

theorem performAll_retrieve (w : Warden) (keys : List Text) :
    (w.performAll (keys.map .retrieve)).1 =
      { w with wards := w.wards.filter fun p => !keys.contains p.1 } := by
  induction keys generalizing w with
  | nil =>
      have all : w.wards.filter (fun _ => true) = w.wards := List.filter_eq_self.2 fun _ _ => rfl
      exact congrArg (Warden.mk w.issued) all.symm
  | cons key keys ih =>
      simp only [List.map_cons, performAll, perform, ih, retrieve_warden, List.filter_filter]
      refine congrArg (Warden.mk w.issued) (List.filter_congr fun p _ => ?_)
      rw [List.contains_cons, Bool.not_or, Bool.and_comm]
      rfl

/-- A step that asks for keys releases their wards, and no other. -/
theorem perform_asked (w : Warden) {s : Step} (hp : ∀ data, s ≠ .protect data) (hc : s ≠ .clear) :
    (w.perform s).warden = { w with wards := w.wards.filter fun p => !s.asked.contains p.1 } := by
  cases s with
  | protect data => exact absurd rfl (hp data)
  | clear => exact absurd rfl hc
  | retrieve key => exact performAll_retrieve w [key]
  | reinstate t =>
      have both := recover_eq w (t.cut findKey)
      rw [← performAll_retrieve w, Step.asked, ← both]
      rfl

/-! ## The account -/

namespace Account

/-- The warden has the pending keys in custody, and the keys of the ledger tell their issues apart. -/
structure Sound (a : Account) : Prop where
  numbered : ∀ i ∈ a.ledger, i.fragment ≠ [] ∧ ∃ n < a.warden.issued, i.key = keyFor n i.fragment
  distinct : (a.ledger.map Issue.key).Nodup
  wards : a.warden.wards = (a.pending.map Issue.ward).reverse

namespace Sound

theorem start : Sound {} where
  numbered := by simp
  distinct := .nil
  wards := rfl

variable {a : Account}

theorem protect (h : a.Sound) {data : Text} (hd : data ≠ []) : (a.step (.protect data)).Sound := by
  have full : data.isEmpty = false := by simpa using hd
  let key := keyFor a.warden.issued data
  have stepped : a.step (.protect data) =
      ⟨⟨a.warden.issued + 1, (key, data) :: a.warden.wards⟩, a.ledger ++ [⟨key, data, false⟩]⟩ := by
    simp [step, perform, Issue.note, Warden.protect, full, key]
  have fresh : key ∉ a.ledger.map Issue.key := by
    intro old
    obtain ⟨i, hi, same⟩ := List.mem_map.1 old
    obtain ⟨filled, n, earlier, e⟩ := h.numbered i hi
    have number : n = a.warden.issued := keyFor_inj filled hd (e.symm.trans same)
    omega
  rw [stepped]
  exact {
    numbered := by
      intro i hi
      rcases List.mem_append.1 hi with hi | hi
      · obtain ⟨filled, n, earlier, e⟩ := h.numbered i hi
        exact ⟨filled, n, Nat.lt_succ_of_lt earlier, e⟩
      · obtain rfl := List.mem_singleton.1 hi
        exact ⟨hd, _, Nat.lt_succ_self _, rfl⟩
    distinct := by
      rw [List.map_append]
      refine List.nodup_append.2 ⟨h.distinct, by simp, ?_⟩
      rintro k hk k' hk' rfl
      obtain rfl := List.mem_singleton.1 hk'
      exact fresh hk
    wards := by
      simp only [pending, List.filter_append, List.map_append, List.reverse_append, h.wards]
      rfl }

/-- Asking for keys leaves the pending issues of the other keys. -/
theorem asked (h : a.Sound) {s : Step} (hp : ∀ data, s ≠ .protect data) (hc : s ≠ .clear) :
    (a.step s).Sound := by
  have noted : Issue.note a.ledger (a.warden.perform s).text s = a.ledger.map (Issue.mark s.asked) := by
    cases s with
    | protect data => exact absurd rfl (hp data)
    | clear => exact absurd rfl hc
    | retrieve key => rfl
    | reinstate t => rfl
  have stepped : a.step s =
      ⟨{ a.warden with wards := a.warden.wards.filter fun p => !s.asked.contains p.1 },
        a.ledger.map (Issue.mark s.asked)⟩ := by
    rw [step, perform_asked _ hp hc, noted]
  rw [stepped]
  exact {
    numbered := by
      intro i hi
      obtain ⟨j, hj, rfl⟩ := List.mem_map.1 hi
      exact h.numbered j hj
    distinct := by
      rw [List.map_map]
      exact h.distinct
    wards := by
      have left : ((fun i => !i.retrieved) ∘ Issue.mark s.asked) =
          fun i => !s.asked.contains i.key && !i.retrieved := by
        funext i
        rw [Function.comp_apply, Issue.mark, Bool.not_or, Bool.and_comm]
      rw [h.wards, pending, pending, List.filter_reverse, List.filter_map, List.filter_filter,
        List.filter_map, List.map_map, left]
      rfl }

theorem step (h : a.Sound) (s : Step) : (a.step s).Sound := by
  cases s with
  | protect data =>
      by_cases hd : data = []
      · subst hd
        exact h
      · exact h.protect hd
  | retrieve key => exact h.asked (by simp) (by simp)
  | reinstate t => exact h.asked (by simp) (by simp)
  | clear => exact start

theorem after (steps : List Step) : (Account.after steps).Sound := by
  have each : ∀ a : Account, a.Sound → (steps.foldl Account.step a).Sound := by
    induction steps with
    | nil => exact fun a h => h
    | cons s steps ih => exact fun a h => ih _ (h.step s)
  exact each {} start

theorem wards_perm (h : a.Sound) : a.warden.wards.Perm (a.pending.map Issue.ward) :=
  h.wards ▸ List.reverse_perm _

theorem keys_nodup (h : a.Sound) : (a.warden.wards.map Prod.fst).Nodup := by
  have kept : (a.pending.map Issue.key).Sublist (a.ledger.map Issue.key) := List.filter_sublist.map _
  have keys : (a.warden.wards.map Prod.fst).Perm (a.pending.map Issue.key) := by
    have wards := h.wards_perm.map Prod.fst
    rwa [List.map_map] at wards
  exact keys.nodup_iff.2 (h.distinct.sublist kept)

/-- A key that was not asked for before is given its fragment back, and is released. -/
theorem retrieve (h : a.Sound) {i : Issue} (hi : i ∈ a.pending) :
    ∃ w, a.warden.perform (.retrieve i.key) = ⟨i.fragment, w, []⟩ ∧
      (i.ward :: w.wards).Perm a.warden.wards ∧ i.key ∉ w.wards.map Prod.fst := by
  have held : i.ward ∈ a.warden.wards := h.wards_perm.mem_iff.2 (List.mem_map_of_mem hi)
  obtain ⟨rest, given, released⟩ := retrieve_of_mem h.keys_nodup held
  exact ⟨{ a.warden with wards := rest }, given, released⟩

end Sound

end Account

/-- After any steps on a fresh warden the keys issued since it was last cleared are distinct, and it has
    in custody exactly those that were not asked for, each with what it was issued for. Such a key is
    given its fragment back once; any other key is missed. Putting back the keys of a text asks for
    them one after another. -/
theorem after_accounts (steps : List Step) :
    let a := Account.after steps
    (a.ledger.map Issue.key).Nodup ∧ a.warden.wards.Perm (a.pending.map Issue.ward) ∧
      a.warden.wards.length = a.pending.length ∧
      (∀ i ∈ a.pending, ∃ w, a.warden.perform (.retrieve i.key) = ⟨i.fragment, w, []⟩ ∧
        (i.ward :: w.wards).Perm a.warden.wards ∧ i.key ∉ w.wards.map Prod.fst) ∧
      (∀ key, key ∉ a.warden.wards.map Prod.fst →
        a.warden.perform (.retrieve key) = ⟨key, a.warden, [key]⟩) ∧
      ∀ t, ((a.warden.perform (.reinstate t)).warden, (a.warden.perform (.reinstate t)).missing) =
        a.warden.performAll ((Step.reinstate t).asked.map .retrieve) := by
  intro a
  have sound := Account.Sound.after steps
  have custody := sound.wards_perm
  refine ⟨sound.distinct, custody, ?_, fun i hi => sound.retrieve hi,
    fun key absent => retrieve_of_not_mem absent, fun t => recover_eq a.warden (t.cut findKey)⟩
  rw [custody.length_eq, List.length_map]

end Warden

end LessonText

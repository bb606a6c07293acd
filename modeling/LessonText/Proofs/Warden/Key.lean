import LessonText.Markup.Warden
import LessonText.Proofs.Unicode.Listed

/-! # Keys

The key of some data is found where it stands, whatever follows, and it tells its number.
-/

namespace LessonText

open Unicode

namespace Base64

theorem isSextet_sextetChar {n : Nat} (h : n < 64) : isSextet (sextetChar n) = true := by
  have all : (List.range 64).all (fun n => isSextet (sextetChar n)) = true := by decide
  exact List.all_eq_true.1 all n (List.mem_range.2 h)

theorem isSextet_cases {c : Char} (h : isSextet c = true) : c.isAlphanum = true ∨ c = '+' ∨ c = '/' := by
  unfold isSextet sextet? at h
  change ((c.isUpper || c.isLower) || c.isDigit) = true ∨ _
  split at h
  · rename_i upper
    exact .inl (by rw [upper]; rfl)
  split at h
  · rename_i lower
    exact .inl (by rw [lower, Bool.or_true]; rfl)
  split at h
  · rename_i digit
    exact .inl (by rw [digit, Bool.or_true])
  split at h
  · rename_i plus
    exact .inr (.inl plus)
  split at h
  · rename_i slash
    exact .inr (.inr slash)
  · cases h

theorem sextetChar_ne_pad {n : Nat} (h : n < 64) : sextetChar n ≠ '=' := by
  have all : (List.range 64).all (fun n => sextetChar n != '=') = true := by decide
  simpa using List.all_eq_true.1 all n (List.mem_range.2 h)

/-- The first half of the alphabet has no digits. -/
theorem isDigit_sextetChar {n : Nat} (h : n < 32) : isDigit (sextetChar n) = false := by
  have all : (List.range 32).all (fun n => !isDigit (sextetChar n)) = true := by decide
  simpa using List.all_eq_true.1 all n (List.mem_range.2 h)

/-- Encoded bytes are characters of the alphabet and at most two padding characters. -/
theorem encode_eq (bytes : Bytes) : ∃ s pads, encode bytes = s ++ List.replicate pads '=' ∧
    (∀ c ∈ s, isSextet c = true ∧ c ≠ '=') ∧ pads ≤ 2 := by
  have letter {n : Nat} (h : n < 64) : isSextet (sextetChar n) = true ∧ sextetChar n ≠ '=' :=
    ⟨isSextet_sextetChar h, sextetChar_ne_pad h⟩
  induction bytes using encode.induct with
  | case1 => exact ⟨[], 0, rfl, by simp, by omega⟩
  | case2 a =>
      have := a.toNat_lt
      refine ⟨[_, _], 2, rfl, ?_, by omega⟩
      simp only [List.forall_mem_cons]
      exact ⟨letter (by omega), letter (by omega), by simp⟩
  | case3 a b =>
      have := a.toNat_lt
      have := b.toNat_lt
      refine ⟨[_, _, _], 1, rfl, ?_, by omega⟩
      simp only [List.forall_mem_cons]
      exact ⟨letter (by omega), letter (by omega), letter (by omega), by simp⟩
  | case4 a b c rest ih =>
      have := a.toNat_lt
      have := b.toNat_lt
      have := c.toNat_lt
      obtain ⟨s, pads, e, hs, le⟩ := ih
      refine ⟨_ :: _ :: _ :: _ :: s, pads, by rw [encode, e]; rfl, ?_, le⟩
      simp only [List.forall_mem_cons]
      exact ⟨letter (by omega), letter (by omega), letter (by omega), letter (by omega), hs⟩

/-- The first character is that of the first six bits. -/
theorem encode_cons (a : UInt8) (rest : Bytes) :
    ∃ t, encode (a :: rest) = sextetChar (a.toNat / 4) :: t := by
  match rest with
  | [] => exact ⟨_, rfl⟩
  | [_] => exact ⟨_, rfl⟩
  | _ :: _ :: _ => exact ⟨_, rfl⟩

end Base64

namespace Percent

theorem hexDigit_toNat {n : Nat} (h : n < 16) : (hexDigit n).toNat < 0x80 := by
  have all : (List.range 16).all (fun n => decide ((hexDigit n).toNat < 0x80)) = true := by
    decide
  simpa using List.all_eq_true.1 all n (List.mem_range.2 h)

/-- The encoding of a character begins with an ASCII character. -/
theorem encodeChar_cons (c : Char) : ∃ d t, encodeChar c = d :: t ∧ d.toNat < 0x80 := by
  unfold encodeChar
  split
  · rename_i safe
    refine ⟨c, [], rfl, ?_⟩
    rw [isSafe, Bool.or_eq_true] at safe
    rcases safe with letter | mark
    · have all : (charsOf alphanumRanges).all (fun c => decide (c.toNat < 0x80)) = true := by
        decide
      exact of_decide_eq_true (of_isAlphanum all letter)
    · have all : "-_.!~*'()".toList.all (fun c => decide (c.toNat < 0x80)) = true := by decide
      simpa using List.all_eq_true.1 all c (List.contains_iff_mem.1 mark)
  · have bytes : ∃ b bs, Utf8.encodeChar c = b :: bs := by
      unfold Utf8.encodeChar
      dsimp only
      split
      · exact ⟨_, _, rfl⟩
      · split
        · exact ⟨_, _, rfl⟩
        · split <;> exact ⟨_, _, rfl⟩
    obtain ⟨b, bs, e⟩ := bytes
    exact ⟨'%', _, by rw [e]; rfl, by decide⟩

theorem encode_cons {t : Text} (h : t ≠ []) : ∃ d u, encode t = d :: u ∧ d.toNat < 0x80 := by
  obtain ⟨c, t, rfl⟩ := List.exists_cons_of_ne_nil h
  obtain ⟨d, u, e, ascii⟩ := encodeChar_cons c
  exact ⟨d, u ++ encode t, by rw [encode, List.flatMap_cons, e]; rfl, ascii⟩

end Percent

namespace Warden

/-- The hidden form of data begins with a letter and is padded with at most two colons. -/
theorem code_eq {data : Text} (h : data ≠ []) : ∃ c s pads,
    code data = c :: s ++ List.replicate pads ':' ∧ isDigit c = false ∧
      (∀ x ∈ c :: s, Base64.isSextet x = true) ∧ pads ≤ 2 := by
  obtain ⟨d, u, hd, ascii⟩ := Percent.encode_cons h
  have bytes : Attribute.asciiBytes (Percent.encode data) =
      UInt8.ofNat d.toNat :: Attribute.asciiBytes u := by
    rw [hd]
    rfl
  obtain ⟨t, ht⟩ := Base64.encode_cons (UInt8.ofNat d.toNat) (Attribute.asciiBytes u)
  obtain ⟨s, pads, hs, letters, le⟩ :=
    Base64.encode_eq (Attribute.asciiBytes (Percent.encode data))
  have first : (UInt8.ofNat d.toNat).toNat / 4 < 32 := by
    rw [UInt8.toNat_ofNat']
    omega
  have coded : code data = s ++ List.replicate pads ':' := by
    have kept : s.map (fun c => if c = '=' then ':' else c) = s := by
      rw [List.map_congr_left fun c hc => if_neg (letters c hc).2, List.map_id']
    rw [code, Attribute.encode, hs, List.map_append, kept, List.map_replicate]
    rfl
  cases s with
  | nil =>
      have pad : Base64.sextetChar ((UInt8.ofNat d.toNat).toNat / 4) = '=' := by
        have begins := hs
        rw [bytes, ht, List.nil_append] at begins
        exact List.eq_of_mem_replicate (begins ▸ List.mem_cons_self)
      exact absurd pad (Base64.sextetChar_ne_pad (by omega))
  | cons c s =>
      refine ⟨c, s, pads, coded, ?_, fun x hx => (letters x hx).1, le⟩
      rw [bytes, ht] at hs
      rw [← (List.cons.inj hs).1]
      exact Base64.isDigit_sextetChar first

theorem isDigit_of_ascii {c : Char} (h : c.isDigit = true) : isDigit c = true := by
  rw [Char.isDigit, Bool.and_eq_true, decide_eq_true_eq, decide_eq_true_eq] at h
  have low : 0x30 ≤ c.toNat := h.1
  have high : c.toNat ≤ 0x39 := h.2
  simp only [isDigit, digitRanges, inRanges]
  rw [if_neg (by omega), decide_eq_true high, Bool.true_or]

theorem isDigit_of_mem_decimal {n : Nat} : ∀ c ∈ Text.decimal n, isDigit c = true :=
  fun _ hc => isDigit_of_ascii (Nat.isDigit_of_mem_toDigits (by decide) (by decide) hc)

theorem decimal_ne_nil (n : Nat) : Text.decimal n ≠ [] := Nat.toDigits_ne_nil

theorem decimal_inj {m n : Nat} (h : Text.decimal m = Text.decimal n) : m = n := by
  have value := congrArg (Nat.ofDigitChars 10 · 0) h
  simpa [Text.decimal] using value

theorem takeWhile_stop {p : Char → Bool} {w : Text} {d : Char} (r : Text)
    (hw : ∀ c ∈ w, p c = true) (hd : p d = false) : (w ++ d :: r).takeWhile p = w := by
  rw [List.takeWhile_append_of_pos hw, List.takeWhile_cons, hd]
  exact List.append_nil w

theorem dropWhile_stop {p : Char → Bool} {w : Text} {d : Char} (r : Text)
    (hw : ∀ c ∈ w, p c = true) (hd : p d = false) : (w ++ d :: r).dropWhile p = d :: r := by
  rw [List.dropWhile_append_of_pos hw, List.dropWhile_cons, hd]
  rfl

theorem codeLength?_code {data : Text} (h : data ≠ []) (digits rest : Text) :
    codeLength? digits (code data ++ '?' :: rest) = some (code data).length := by
  obtain ⟨c, s, pads, coded, -, letters, le⟩ := code_eq h
  have pad : ∀ x ∈ List.replicate pads ':', (x == ':') = true := by
    simp +contextual [List.mem_replicate]
  obtain ⟨d, r, hdr, stop⟩ : ∃ d r, List.replicate pads ':' ++ '?' :: rest = d :: r ∧
      Base64.isSextet d = false := by
    cases pads with
    | zero => exact ⟨'?', rest, rfl, by decide⟩
    | succ pads => exact ⟨':', _, rfl, by decide⟩
  have letterPart : (code data ++ '?' :: rest).takeWhile Base64.isSextet = c :: s := by
    rw [coded, List.append_assoc, hdr]
    exact takeWhile_stop r letters stop
  have others : (code data ++ '?' :: rest).dropWhile Base64.isSextet =
      List.replicate pads ':' ++ '?' :: rest := by
    rw [coded, List.append_assoc, hdr]
    exact dropWhile_stop r letters stop
  have padding : (List.replicate pads ':' ++ '?' :: rest).takeWhile (· == ':') =
      List.replicate pads ':' :=
    takeWhile_stop rest pad (by decide)
  unfold codeLength?
  simp only [letterPart, others, padding]
  rw [coded, if_neg (by simp), if_neg (by simp; omega), List.length_append]

/-- A key is found at its start, whatever follows. -/
theorem findKey_keyFor {data : Text} (h : data ≠ []) (n : Nat) (before : Option Char) (rest : Text) :
    findKey before (keyFor n data ++ rest) = some (keyFor n data, (keyFor n data).length) := by
  obtain ⟨c, s, pads, coded, first, -, -⟩ := code_eq h
  have split : keyFor n data ++ rest = '?' :: '?' :: '?' ::
      (Text.decimal n ++ (code data ++ '?' :: '?' :: '?' :: rest)) := by
    simp [keyFor, delimiter]
  have begins : code data ++ '?' :: '?' :: '?' :: rest =
      c :: (s ++ List.replicate pads ':' ++ '?' :: '?' :: '?' :: rest) := by
    simp [coded]
  have digits : (Text.decimal n ++ (code data ++ '?' :: '?' :: '?' :: rest)).takeWhile isDigit =
      Text.decimal n := by
    rw [begins]
    exact takeWhile_stop _ isDigit_of_mem_decimal first
  have afterNumber : (Text.decimal n ++ (code data ++ '?' :: '?' :: '?' :: rest)).dropWhile isDigit =
      code data ++ '?' :: '?' :: '?' :: rest := by
    rw [begins]
    exact dropWhile_stop _ isDigit_of_mem_decimal first
  have length : (keyFor n data).length = (Text.decimal n).length + (code data).length + 6 := by
    simp [keyFor, delimiter]
    omega
  rw [length, split]
  unfold findKey
  simp only [digits, afterNumber, codeLength?_code h]
  have numbered : (Text.decimal n).isEmpty = false := by simpa using decimal_ne_nil n
  have closing : (code data ++ '?' :: '?' :: '?' :: rest).drop (code data).length =
      '?' :: '?' :: '?' :: rest :=
    List.drop_left
  have whole : ('?' :: '?' :: '?' :: (Text.decimal n ++ (code data ++ '?' :: '?' :: '?' :: rest))).take
      ((Text.decimal n).length + (code data).length + 6) = keyFor n data := by
    rw [← split, ← length]
    exact List.take_left
  rw [numbered, if_neg (by simp), Option.bind_eq_bind, Option.bind_some, closing]
  rw [if_pos (by rfl), whole]

/-- A key tells its number. -/
theorem keyFor_inj {m n : Nat} {data data' : Text} (h : data ≠ []) (h' : data' ≠ [])
    (e : keyFor m data = keyFor n data') : m = n := by
  have digits (k : Nat) {d : Text} (hd : d ≠ []) :
      ((keyFor k d).drop 3).takeWhile isDigit = Text.decimal k := by
    obtain ⟨c, s, pads, coded, first, -, -⟩ := code_eq hd
    have behind : (keyFor k d).drop 3 =
        Text.decimal k ++ c :: (s ++ List.replicate pads ':' ++ delimiter) := by
      simp [keyFor, delimiter, coded]
    rw [behind]
    exact takeWhile_stop _ isDigit_of_mem_decimal first
  refine decimal_inj ?_
  rw [← digits m h, ← digits n h', e]

/-- A character of a key. -/
def isKeyChar (c : Char) : Bool := c == '?' || c == ':' || isDigit c || Base64.isSextet c

theorem isKeyChar_of_mem {n : Nat} {data : Text} (h : data ≠ []) :
    ∀ c ∈ keyFor n data, isKeyChar c = true := by
  obtain ⟨d, s, pads, coded, -, letters, -⟩ := code_eq h
  have delimiting := List.all_eq_true.1 (show delimiter.all isKeyChar = true from rfl)
  have padding : ∀ c ∈ List.replicate pads ':', isKeyChar c = true := by
    intro c hc
    rw [List.eq_of_mem_replicate hc]
    decide
  intro c hc
  rw [keyFor, coded] at hc
  simp only [List.mem_append] at hc
  rcases hc with ((hc | hc) | hc | hc) | hc
  · exact delimiting c hc
  · simp [isKeyChar, isDigit_of_mem_decimal c hc]
  · simp [isKeyChar, letters c hc]
  · exact padding c hc
  · exact delimiting c hc

theorem keyFor_cons (n : Nat) (data : Text) : ∃ t, keyFor n data = '?' :: t := ⟨_, rfl⟩

end Warden

end LessonText

import LessonText.Proofs.Warden.Key

/-! # Hidden values are read back

A hidden value is its bytes, those that are not safe as percent signs and digits, and all of them in base64. Each of the
three readings undoes its writing, so every value is read back.
-/

namespace LessonText

namespace Base64

theorem sextet?_sextetChar {n : Nat} (h : n < 64) : sextet? (sextetChar n) = some n := by
  have all : (List.range 64).all (fun n => sextet? (sextetChar n) == some n) = true := by decide
  exact beq_iff_eq.1 (List.all_eq_true.1 all n (List.mem_range.2 h))

/-- Fewer than three numbers of a group are held until the next one is read. -/
theorem decodeFrom_hold {n groups pads : Nat} {held : List Nat} {t : Text} (h : n < 64) (few : held.length < 3) :
    decodeFrom groups held pads (sextetChar n :: t) = decodeFrom groups (held ++ [n]) 0 t := by
  rw [decodeFrom, if_neg (sextetChar_ne_pad h), sextet?_sextetChar h]
  match held, few with
  | [], _ | [_], _ | [_, _], _ => rfl

theorem decodeFrom_group {u v w x groups pads : Nat} {t : Text} (hu : u < 64) (hv : v < 64) (hw : w < 64) (hx : x < 64) :
    decodeFrom groups [] pads (sextetChar u :: sextetChar v :: sextetChar w :: sextetChar x :: t) =
      (decodeFrom (groups + 1) [] 0 t).map fun bytes => UInt8.ofNat (u * 4 + v / 16) :: UInt8.ofNat (v % 16 * 16 + w / 4) ::
        UInt8.ofNat (w % 4 * 64 + x) :: bytes := by
  rw [decodeFrom_hold hu (by simp), decodeFrom_hold hv (by simp), decodeFrom_hold hw (by simp), decodeFrom,
    if_neg (sextetChar_ne_pad hx), sextet?_sextetChar hx]
  rfl

theorem decodeFrom_encode (bytes : Bytes) : ∀ groups, decodeFrom groups [] 0 (encode bytes) = .ok bytes := by
  induction bytes using encode.induct with
  | case1 => exact fun _ => rfl
  | case2 a =>
      intro groups
      have := a.toNat_lt
      have whole : a.toNat / 4 * 4 + a.toNat % 4 * 16 / 16 = a.toNat := by omega
      have ended (v w : Nat) : decodeFrom groups [v, w] 0 ['=', '='] = .ok [UInt8.ofNat (v * 4 + w / 16)] := rfl
      rw [encode, decodeFrom_hold (by omega) (by simp), decodeFrom_hold (by omega) (by simp)]
      exact (ended _ _).trans (by rw [whole, UInt8.ofNat_toNat])
  | case3 a b =>
      intro groups
      have := a.toNat_lt
      have := b.toNat_lt
      have first : a.toNat / 4 * 4 + (a.toNat % 4 * 16 + b.toNat / 16) / 16 = a.toNat := by omega
      have second : (a.toNat % 4 * 16 + b.toNat / 16) % 16 * 16 + b.toNat % 16 * 4 / 4 = b.toNat := by omega
      have ended (v w x : Nat) : decodeFrom groups [v, w, x] 0 ['='] =
        .ok [UInt8.ofNat (v * 4 + w / 16), UInt8.ofNat (w % 16 * 16 + x / 4)] := rfl
      rw [encode, decodeFrom_hold (by omega) (by simp), decodeFrom_hold (by omega) (by simp),
        decodeFrom_hold (by omega) (by simp)]
      exact (ended _ _ _).trans (by rw [first, second, UInt8.ofNat_toNat, UInt8.ofNat_toNat])
  | case4 a b c rest ih =>
      intro groups
      have := a.toNat_lt
      have := b.toNat_lt
      have := c.toNat_lt
      have first : a.toNat / 4 * 4 + (a.toNat % 4 * 16 + b.toNat / 16) / 16 = a.toNat := by omega
      have second : (a.toNat % 4 * 16 + b.toNat / 16) % 16 * 16 + (b.toNat % 16 * 4 + c.toNat / 64) / 4 = b.toNat := by omega
      have third : (b.toNat % 16 * 4 + c.toNat / 64) % 4 * 64 + c.toNat % 64 = c.toNat := by omega
      rw [encode, decodeFrom_group (by omega) (by omega) (by omega) (by omega), ih, first, second, third]
      simp [Except.map]

/-- Bytes written in base64 are read back. -/
theorem decode_encode (bytes : Bytes) : decode (encode bytes) = .ok bytes := decodeFrom_encode bytes 0

/-- Bytes are written in whole groups. -/
theorem encode_length (bytes : Bytes) : 4 ∣ (encode bytes).length := by
  induction bytes using encode.induct with
  | case1 => exact Nat.dvd_zero 4
  | case2 | case3 => exact Nat.dvd_refl 4
  | case4 a b c rest ih => exact show 4 ∣ (encode rest).length + 4 from Nat.dvd_add ih (Nat.dvd_refl 4)

end Base64

namespace Utf8

theorem toNat_byte {n : Nat} (h : n < 0x100) : (UInt8.ofNat n).toNat = n := by
  rw [UInt8.toNat_ofNat', Nat.mod_eq_of_lt h]

theorem decodeFrom_skip (bytes rest : Bytes) : decodeFrom bytes.length (bytes ++ rest) = decodeFrom 0 rest := by
  induction bytes with
  | nil => rfl
  | cons b bytes ih => exact ih

/-- A byte that goes on with a character. -/
theorem decodeTail_byte {value count low high n length : Nat} {c : Option Char} {rest : Bytes} (within : low ≤ n ∧ n ≤ high)
    (byte : n < 0x100) (later : decodeTail (value * 0x40 + n % 0x40) count 0x80 0xBF rest = (c, length)) :
    decodeTail value (count + 1) low high (UInt8.ofNat n :: rest) = (c, length + 1) := by
  rw [decodeTail, toNat_byte byte, if_pos (by simpa using within), later]

/-- A byte that begins a character, and the bytes that go on with it. -/
theorem decodeFrom_lead {n bits count low high : Nat} {c : Char} {rest : Bytes} (bytes : Bytes) (byte : n < 0x100)
    (long : 0x80 ≤ n) (lead : lead? (UInt8.ofNat n) = some (bits, count, low, high))
    (later : decodeTail bits count low high (bytes ++ rest) = (some c, bytes.length)) :
    decodeFrom 0 (UInt8.ofNat n :: (bytes ++ rest)) = some c :: decodeFrom 0 rest := by
  rw [decodeFrom, toNat_byte byte, if_neg (by omega), lead]
  simp only [later, decodeFrom_skip]

/-- The bytes of a character are read as the character. -/
theorem decodeFrom_encodeChar (c : Char) (rest : Bytes) : decodeFrom 0 (encodeChar c ++ rest) = some c :: decodeFrom 0 rest := by
  have two : ∀ k < 0x20, k < 2 ∨ lead? (UInt8.ofNat (0xC0 + k)) = some (k, 1, 0x80, 0xBF) := by decide
  have three : ∀ k < 0x10, lead? (UInt8.ofNat (0xE0 + k)) =
      some (k, 2, if k = 0 then 0xA0 else 0x80, if k = 0xD then 0x9F else 0xBF) := by decide
  have four : ∀ k < 5, lead? (UInt8.ofNat (0xF0 + k)) =
      some (k, 3, if k = 0 then 0x90 else 0x80, if k = 4 then 0x8F else 0xBF) := by decide
  have valid : c.toNat < 0xD800 ∨ 0xDFFF < c.toNat ∧ c.toNat < 0x110000 := c.valid
  have done {value low high : Nat} (same : value = c.toNat) : decodeTail value 0 low high rest = (some c, 0) := by
    rw [decodeTail, same, Char.ofNat_toNat]
  unfold encodeChar
  generalize code : c.toNat = n at valid done
  dsimp only
  split
  · rename_i small
    rw [List.map_singleton, List.singleton_append, decodeFrom, toNat_byte (by omega), if_pos small, ← code, Char.ofNat_toNat]
  split
  · exact decodeFrom_lead [_] (by omega) (by omega) ((two (n / 0x40) (by omega)).resolve_left (by omega))
      (decodeTail_byte (by omega) (by omega) (done (by omega)))
  split
  · refine decodeFrom_lead [_, _] (by omega) (by omega) (three (n / 0x1000) (by omega)) ?_
    refine decodeTail_byte ?_ (by omega) (decodeTail_byte (by omega) (by omega) (done (by omega)))
    split <;> split <;> omega
  · refine decodeFrom_lead [_, _, _] (by omega) (by omega) (four (n / 0x40000) (by omega)) ?_
    refine decodeTail_byte ?_ (by omega) (decodeTail_byte (by omega) (by omega) ?_)
    rotate_left
    · exact decodeTail_byte (by omega) (by omega) (done (by omega))
    split <;> split <;> omega

/-- The bytes of a text are read as the text. -/
theorem decodeLossy_encode (t : Text) : decodeLossy (encode t) = t := by
  have read : decodeFrom 0 (encode t) = t.map some := by
    induction t with
    | nil => rfl
    | cons c t ih => rw [encode, List.flatMap_cons, decodeFrom_encodeChar, ← encode, ih, List.map_cons]
  rw [decodeLossy, read, List.map_map]
  exact List.map_id t

end Utf8

namespace Percent

/-- A character that stands for itself is ASCII, and no percent sign. -/
theorem safe_ascii {c : Char} (h : isSafe c = true) : c.toNat < 0x80 ∧ c ≠ '%' := by
  rw [isSafe, Bool.or_eq_true] at h
  rcases h with letter | mark
  · have all : (Unicode.charsOf Unicode.alphanumRanges).all (fun c => decide (c.toNat < 0x80 ∧ c ≠ '%')) = true := by decide
    exact of_decide_eq_true (Unicode.of_isAlphanum all letter)
  · have all : ∀ c ∈ "-_.!~*'()".toList, c.toNat < 0x80 ∧ c ≠ '%' := by decide
    exact all c (List.contains_iff_mem.1 mark)

theorem hexByte?_digits (b : UInt8) : hexByte? (hexDigit (b.toNat / 16)) (hexDigit (b.toNat % 16)) = some b := by
  have digit : ∀ n < 16, hexValue? (hexDigit n) = some n := by decide
  have := b.toNat_lt
  have whole : b.toNat / 16 * 16 + b.toNat % 16 = b.toNat := by omega
  rw [hexByte?, digit _ (by omega), digit _ (by omega)]
  simp only [Option.bind_eq_bind, Option.bind_some, whole, UInt8.ofNat_toNat]
  rfl

theorem bytesFrom_encodeByte (b : UInt8) (t : Text) : bytesFrom 0 (encodeByte b ++ t) = b :: bytesFrom 0 t := by
  simp only [encodeByte, List.cons_append, List.nil_append, bytesFrom, hexByte?_digits]

/-- An encoded character is read as its bytes. -/
theorem bytesFrom_encodeChar (c : Char) (t : Text) : bytesFrom 0 (encodeChar c ++ t) = Utf8.encodeChar c ++ bytesFrom 0 t := by
  unfold encodeChar
  split
  · rename_i safe
    obtain ⟨ascii, other⟩ := safe_ascii safe
    have single : Utf8.encodeChar c = [UInt8.ofNat c.toNat] := by
      unfold Utf8.encodeChar
      dsimp only
      rw [if_pos ascii, List.map_singleton]
    rw [single, List.singleton_append, List.singleton_append, bytesFrom]
    exact fun _ _ _ percent => absurd percent other
  · induction Utf8.encodeChar c with
    | nil => rfl
    | cons b bytes ih => rw [List.flatMap_cons, List.append_assoc, bytesFrom_encodeByte, ih, List.cons_append]

theorem bytesFrom_encode (t : Text) : bytesFrom 0 (encode t) = Utf8.encode t := by
  induction t with
  | nil => rfl
  | cons c t ih =>
      rw [encode, List.flatMap_cons, bytesFrom_encodeChar, ← encode, ih, Utf8.encode, Utf8.encode, List.flatMap_cons]

theorem decode_encode (t : Text) : decode (encode t) = t := by rw [decode, bytesFrom_encode, Utf8.decodeLossy_encode]

/-- An encoded text is ASCII. -/
theorem encode_ascii (t : Text) : ∀ c ∈ encode t, c.toNat < 0x80 := by
  have digit {n : Nat} (h : n < 0x10) : (hexDigit n).toNat < 0x80 := hexDigit_toNat h
  have byte (b : UInt8) : ∀ c ∈ encodeByte b, c.toNat < 0x80 := by
    have := b.toNat_lt
    simp only [encodeByte, List.forall_mem_cons]
    exact ⟨by decide, digit (by omega), digit (by omega), by simp⟩
  intro c hc
  obtain ⟨d, -, inside⟩ := List.mem_flatMap.1 hc
  unfold encodeChar at inside
  split at inside
  · rename_i safe
    exact List.mem_singleton.1 inside ▸ (safe_ascii safe).1
  · obtain ⟨b, -, written⟩ := List.mem_flatMap.1 inside
    exact byte b c written

end Percent

namespace Attribute

theorem isAscii_iff {c : Char} : isAscii c = true ↔ c.toNat < 0x80 := decide_eq_true_iff

/-- A hidden value is ASCII itself. -/
theorem encode_isAscii (t : Text) : (encode t).all isAscii = true := by
  have letters : ∀ c : Char, c.isAlphanum = true → isAscii c = true := by
    have all : (Unicode.charsOf Unicode.alphanumRanges).all isAscii = true := by decide
    exact fun c h => Unicode.of_isAlphanum all h
  obtain ⟨s, pads, coded, inside, -⟩ := Base64.encode_eq (asciiBytes (Percent.encode t))
  rw [encode, coded, List.all_append, Bool.and_eq_true, List.all_eq_true, List.all_eq_true]
  refine ⟨fun c hc => ?_, fun c hc => List.eq_of_mem_replicate hc ▸ rfl⟩
  rcases Base64.isSextet_cases (inside c hc).1 with letter | rfl | rfl
  · exact letters c letter
  · rfl
  · rfl

/-- A hidden value is read back. -/
theorem decode_encode (t : Text) : decode (encode t) = .ok t := by
  have back : (asciiBytes (Percent.encode t)).map (fun b => Char.ofNat b.toNat) = Percent.encode t := by
    rw [asciiBytes, List.map_map]
    refine (List.map_congr_left fun c hc => ?_).trans (List.map_id _)
    have small := Percent.encode_ascii t c hc
    rw [Function.comp, Utf8.toNat_byte (by omega), Char.ofNat_toNat, id]
  have ascii : (Percent.encode t).all isAscii = true :=
    List.all_eq_true.2 fun c hc => isAscii_iff.2 (Percent.encode_ascii t c hc)
  have kept (bytes : Bytes) : Except.mapError DecodeError.base64 (.ok bytes) = .ok bytes := rfl
  unfold decode
  rw [encode_isAscii, encode, Base64.decode_encode, kept]
  simp [bind, Except.bind, back, ascii, Percent.decode_encode, pure, Except.pure]

theorem encode_injective : Function.Injective encode := fun t u same =>
  Except.ok.inj ((decode_encode t).symm.trans ((congrArg decode same).trans (decode_encode u)))

/-- The first character of a hidden value is that of six bits of an ASCII character. -/
theorem encode_head (t : Text) : ∀ c ∈ (encode t).head?, Unicode.isDigit c = false := by
  intro c hc
  by_cases full : t = []
  · subst full
    cases hc
  obtain ⟨d, u, coded, ascii⟩ := Percent.encode_cons full
  obtain ⟨rest, begins⟩ := Base64.encode_cons (UInt8.ofNat d.toNat) (asciiBytes u)
  have whole : encode t = Base64.sextetChar ((UInt8.ofNat d.toNat).toNat / 4) :: rest := by
    rw [encode, coded, ← begins]
    rfl
  rw [whole] at hc
  obtain rfl := Option.some.inj hc
  rw [Utf8.toNat_byte (by omega)]
  exact Base64.isDigit_sextetChar (by omega)

/-- What no character of the alphabet is, and no padding, is not in a hidden value. -/
theorem not_mem_encode {c : Char} (other : Base64.isSextet c = false) (unpadded : c ≠ '=') (t : Text) : c ∉ encode t := by
  obtain ⟨s, pads, coded, letters, -⟩ := Base64.encode_eq (asciiBytes (Percent.encode t))
  rw [encode, coded, List.mem_append, not_or]
  refine ⟨fun mem => ?_, fun pad => unpadded (List.eq_of_mem_replicate pad)⟩
  rw [(letters c mem).1] at other
  cases other

/-- A hidden value is read back, so that no two values are hidden alike. It is written in whole groups of the alphabet, with
    padding at the end alone, and begins with no digit: it ends neither an attribute nor a key, and a number before it stays
    apart from it. -/
theorem value_hidden (t : Text) :
    decode (encode t) = .ok t ∧ (∀ u, encode u = encode t → u = t) ∧
      (∃ s pads, encode t = s ++ List.replicate pads '=' ∧ (∀ c ∈ s, Base64.isSextet c = true) ∧ pads ≤ 2) ∧
      4 ∣ (encode t).length ∧ (∀ c ∈ (encode t).head?, Unicode.isDigit c = false) ∧ '"' ∉ encode t ∧ '?' ∉ encode t := by
  obtain ⟨s, pads, coded, letters, few⟩ := Base64.encode_eq (asciiBytes (Percent.encode t))
  exact ⟨decode_encode t, fun _ same => encode_injective same, ⟨s, pads, coded, fun c hc => (letters c hc).1, few⟩,
    Base64.encode_length _, encode_head t, not_mem_encode (by decide) (by decide) t, not_mem_encode (by decide) (by decide) t⟩

end Attribute

end LessonText

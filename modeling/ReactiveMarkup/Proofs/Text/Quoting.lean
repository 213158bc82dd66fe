/-
What is written can be read back.

Each character of a text is written between quotes in a form of its own, and the
closing quote is the first quote that is not part of such a form.  So a literal can
be cut off a longer text, and stands for the text that it was written for.  Bytes are
told from their digits, and texts from their bytes.
-/
import Mathlib.Data.List.Basic
import ReactiveMarkup.Text.Digest
import ReactiveMarkup.Text.Json

namespace ReactiveMarkup.Text

open List

/-! ### Digits -/

theorem hexValue?_hexDigit (h : n < 16) : hexValue? (hexDigit n) = some n := by
  revert n
  decide

theorem hexDigit_injective (hm : m < 16) (hn : n < 16) (h : hexDigit m = hexDigit n) : m = n := by
  have := congrArg hexValue? h
  rw [hexValue?_hexDigit hm, hexValue?_hexDigit hn] at this
  exact Option.some_inj.1 this

/-! ### Literals -/

theorem takeHex4?_code (h : n < 0x20) (rest : List Char) :
    takeHex4? ('0' :: '0' :: hexDigit (n / 16) :: hexDigit (n % 16) :: rest) = some (n, rest) := by
  have h0 : hexValue? '0' = some 0 := by decide
  have hi := hexValue?_hexDigit (show n / 16 < 16 by omega)
  have lo := hexValue?_hexDigit (show n % 16 < 16 by omega)
  simp only [takeHex4?, h0, hi, lo, Option.bind_eq_bind, Option.bind_some]
  congr 2
  omega

theorem escapeChar_cases (c : Char) :
    (∃ l, simpleEscape? l = some c ∧ escapeChar c = ['\\', l]) ∨
      (c.toNat < 0x20 ∧ escapeChar c =
        ['\\', 'u', '0', '0', hexDigit (c.toNat / 16), hexDigit (c.toNat % 16)]) ∨
      (c ≠ '\"' ∧ c ≠ '\\' ∧ ¬ c.toNat < 0x20 ∧ escapeChar c = [c]) := by
  unfold escapeChar
  split_ifs with hq hs hb hf hn hr ht hc
  · exact .inl ⟨'\"', by rw [hq]; rfl, rfl⟩
  · exact .inl ⟨'\\', by rw [hs]; rfl, rfl⟩
  · exact .inl ⟨'b', by rw [hb]; rfl, rfl⟩
  · exact .inl ⟨'f', by rw [hf]; rfl, rfl⟩
  · exact .inl ⟨'n', by rw [hn]; rfl, rfl⟩
  · exact .inl ⟨'r', by rw [hr]; rfl, rfl⟩
  · exact .inl ⟨'t', by rw [ht]; rfl, rfl⟩
  · exact .inr (.inl ⟨hc, rfl⟩)
  · exact .inr (.inr ⟨hq, hs, hc, rfl⟩)

theorem ne_u_of_simpleEscape? (h : simpleEscape? l = some c) : l ≠ 'u' := by
  rintro rfl
  cases h

theorem takeQuoted?_escapeChar (c : Char) (s : List Char) :
    takeQuoted? (escapeChar c ++ s) = (takeQuoted? s).map fun p => (escapeChar c ++ p.1, p.2) := by
  rcases escapeChar_cases c with ⟨l, hl, he⟩ | ⟨hc, he⟩ | ⟨hq, hs, hc, he⟩
  · have hu := ne_u_of_simpleEscape? hl
    rw [he, takeQuoted?.eq_def]
    simp [hu, hl]
  · rw [he]
    have h4 := takeHex4?_code hc []
    rw [takeQuoted?.eq_def]
    simp [h4]
  · rw [he, takeQuoted?.eq_def]
    simp [hs, hc]

theorem takeQuoted?_escape (cs rest : List Char) :
    takeQuoted? (escape cs ++ '\"' :: rest) = some (escape cs, rest) := by
  induction cs with
  | nil => rfl
  | cons c cs ih =>
    rw [escape, flatMap_cons, append_assoc, takeQuoted?_escapeChar]
    rw [escape] at ih
    rw [ih, Option.map_some]

theorem unescapeFrom?_escapeChar (c : Char) (s : List Char) :
    unescapeFrom? 0 (escapeChar c ++ s) = (unescapeFrom? 0 s).map (c :: ·) := by
  -- After a backslash, the characters that the escape was read from are skipped.
  have escaped : ∀ form : List Char, readEscape? (form ++ s) = some (c, form.length) →
      unescapeFrom? 0 ('\\' :: form ++ s) = (unescapeFrom? 0 s).map (c :: ·) := by
    intro form hform
    have skip : ∀ l : List Char, unescapeFrom? l.length (l ++ s) = unescapeFrom? 0 s := by
      intro l
      induction l with
      | nil => rfl
      | cons d l ih => exact ih
    rw [cons_append, unescapeFrom?, hform]
    simp [skip, Option.map_eq_bind, Function.comp_def]
  rcases escapeChar_cases c with ⟨l, hl, he⟩ | ⟨hc, he⟩ | ⟨hq, hs, hc, he⟩
  · rw [he]
    refine escaped [l] ?_
    have hu := ne_u_of_simpleEscape? hl
    rw [readEscape?.eq_def]
    simp [hl]
  · rw [he]
    refine escaped ['u', '0', '0', hexDigit (c.toNat / 16), hexDigit (c.toNat % 16)] ?_
    have h4 := takeHex4?_code hc s
    have hlow : ¬ (0xDC00 ≤ c.toNat) := by omega
    have hhigh : ¬ (0xD800 ≤ c.toNat) := by omega
    simp only [cons_append, nil_append, readEscape?, h4]
    simp [hlow, hhigh]
  · simp [he, unescapeFrom?, hs, hc]

theorem unescape?_escape (cs : List Char) : unescape? (escape cs) = some cs := by
  induction cs with
  | nil => rfl
  | cons c cs ih =>
    rw [escape, flatMap_cons, unescape?, unescapeFrom?_escapeChar]
    rw [unescape?, escape] at ih
    rw [ih, Option.map_some]

/-! ### Bytes -/

theorem hexText_injective {bytes bytes'} (h : hexText bytes = hexText bytes') : bytes = bytes' := by
  induction bytes generalizing bytes' with
  | nil =>
    cases bytes' with
    | nil => rfl
    | cons b rest => cases String.ofList_injective h
  | cons b rest ih =>
    cases bytes' with
    | nil => cases String.ofList_injective h
    | cons b' rest' =>
      have h := String.ofList_injective h
      simp only [flatMap_cons, cons_append, List.cons.injEq] at h
      obtain ⟨hhi, hlo, hrest⟩ := h
      have hb := b.toNat_lt
      have hb' := b'.toNat_lt
      have hi := hexDigit_injective (by omega) (by omega) hhi
      have lo := hexDigit_injective (by omega) (by omega) hlo
      have hbb : b = b' := UInt8.toNat_inj.1 (by omega)
      rw [hbb, ih (congrArg String.ofList hrest)]

theorem toList_loop_eq (bytes : ByteArray) (i : Nat) (read : List UInt8) :
    ByteArray.toList.loop bytes i read = read.reverse ++ bytes.data.toList.drop i := by
  fun_induction ByteArray.toList.loop bytes i read with
  | case1 i read hi ih =>
    have hlt : i < bytes.data.toList.length := by simpa using hi
    have hget : bytes.get! i = bytes.data.toList[i] := by
      simp [ByteArray.get!, hi]
    rw [ih, drop_eq_getElem_cons hlt, hget]
    simp
  | case2 i read hi =>
    have hle : bytes.data.toList.length ≤ i := by simpa using hi
    rw [drop_eq_nil_of_le hle, append_nil]

theorem utf8_eq (s : String) : utf8 s = s.toList.flatMap String.utf8EncodeChar := by
  have h : utf8 s = s.toByteArray.data.toList :=
    (toList_loop_eq s.toByteArray 0 []).trans (by simp)
  rw [h, ← String.utf8Encode_toList, List.utf8Encode, toList_data_toByteArray]

theorem utf8_injective (h : utf8 s = utf8 t) : s = t := by
  rw [utf8_eq, utf8_eq] at h
  apply String.toByteArray_inj.1
  rw [← String.utf8Encode_toList, ← String.utf8Encode_toList, List.utf8Encode, List.utf8Encode, h]

theorem eq_zero_of_mem_utf8EncodeChar (h : 0 ∈ String.utf8EncodeChar c) : c = '\x00' := by
  have small : ∀ n, n < 256 → 0 = UInt8.ofNat n → n = 0 := by
    intro n hn h
    have h := congrArg UInt8.toNat h
    rw [UInt8.toNat_ofNat', Nat.mod_eq_of_lt hn] at h
    exact h.symm
  rw [String.utf8EncodeChar.eq_1] at h
  split_ifs at h with hle
  · have h0 := small _ (by omega) (mem_singleton.1 h)
    exact Char.ext (UInt32.toNat_inj.1 h0)
  -- All bytes of a longer form have their highest bit set.
  all_goals
    simp only [mem_cons] at h
    repeat' rcases h with h | h
    all_goals exact absurd (small _ (by omega) h) (by omega)

theorem not_mem_utf8 (h : '\x00' ∉ s.toList) : 0 ∉ utf8 s := by
  intro h0
  rw [utf8_eq, mem_flatMap] at h0
  obtain ⟨c, hc, h0⟩ := h0
  exact h (eq_zero_of_mem_utf8EncodeChar h0 ▸ hc)

/-! ### Documents -/

namespace Json

theorem value?_quoted (fuel : Nat) (cs rest : List Char) :
    value? (fuel + 1) ('\"' :: (escape cs ++ '\"' :: rest)) = some (.string (escape cs), rest) := by
  exact congrArg (Option.map _) (takeQuoted?_escape cs rest)

theorem value?_object {fuel} {s rest} {fields}
    (h : fields? fuel ('\"' :: s) = some (fields, rest)) :
    value? (fuel + 1) ('\x7b' :: '\"' :: s) = some (.object fields, rest) := by
  exact congrArg (Option.map _) h

theorem fields?_last {fuel} (name : List Char) {s rest}
    (h : value? fuel s = some (v, '\x7d' :: rest)) :
    fields? (fuel + 1) ('\"' :: (escape name ++ '\"' :: ':' :: s)) =
      some ([(escape name, v)], rest) := by
  have hgap : skipGap ('\"' :: (escape name ++ '\"' :: ':' :: s)) =
    '\"' :: (escape name ++ '\"' :: ':' :: s) := rfl
  have hcolon : skipGap (':' :: s) = ':' :: s := rfl
  have hbrace : skipGap ('\x7d' :: rest) = '\x7d' :: rest := rfl
  rw [fields?, hgap]
  simp [takeQuoted?_escape, hcolon, h, hbrace]

theorem fields?_cons {fuel} (name : List Char) {s s' rest} {fields}
    (h : value? fuel s = some (v, ',' :: s')) (h' : fields? fuel s' = some (fields, rest)) :
    fields? (fuel + 1) ('\"' :: (escape name ++ '\"' :: ':' :: s)) =
      some ((escape name, v) :: fields, rest) := by
  have hgap : skipGap ('\"' :: (escape name ++ '\"' :: ':' :: s)) =
    '\"' :: (escape name ++ '\"' :: ':' :: s) := rfl
  have hcolon : skipGap (':' :: s) = ':' :: s := rfl
  have hcomma : skipGap (',' :: s') = ',' :: s' := rfl
  rw [fields?, hgap]
  simp [takeQuoted?_escape, hcolon, h, hcomma, h']

end Json

end ReactiveMarkup.Text

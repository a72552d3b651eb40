import Mathlib.Data.List.GetD
import Mathlib.Data.UInt
import Mathlib.Tactic.Ring

/-!
# Base85 transport decoding

`Search.base85decode` turns a string of 5-character groups into the bytes of the index: each
character is mapped to a digit by `charValue`, the five digits of a group are read in base 85,
most significant first, and the value is written as four big-endian bytes by `setUint32`. The
alphabet is RFC 1924's: digits, uppercase, lowercase, then `!#$%&()*+-;<=>?@^_` followed by
the backtick and `{|}~`. `charValue` maps it through ten ranges around the skipped code points
34, 39 and 44, and reads every other code unit as zero.

`enc85` is the RFC 1924 encoder, written from the format's description (the encoder is not part
of the source). `base85decode_enc85` and `enc85_base85decode` are the two round trips. A
JavaScript string is taken as the list of its UTF-16 code units, which is what `charCodeAt`
reads and what `length` counts.
-/

set_option autoImplicit false

namespace DocSearch

/-- `charValue(char)` of `base85decode`. -/
def charValue (char : Nat) : Nat :=
  if char ≥ 48 ∧ char < 58 then char - 48 + 0
  else if char ≥ 65 ∧ char < 91 then char - 65 + 10
  else if char ≥ 97 ∧ char < 123 then char - 97 + 36
  else if char = 33 then 62
  else if char ≥ 35 ∧ char < 39 then char - 35 + 63
  else if char ≥ 40 ∧ char < 44 then char - 40 + 67
  else if char = 45 then 71
  else if char ≥ 59 ∧ char < 65 then char - 59 + 72
  else if char ≥ 94 ∧ char < 97 then char - 94 + 78
  else if char ≥ 123 ∧ char < 127 then char - 123 + 81
  else 0

/-- `setUint32(offset, value, false)`: `value` taken modulo `2^32`, as four big-endian bytes. -/
def setUint32BE (value : Nat) : List UInt8 :=
  let v := value % 2 ^ 32
  [(v / 2 ^ 24).toUInt8, (v / 2 ^ 16 % 256).toUInt8, (v / 2 ^ 8 % 256).toUInt8, (v % 256).toUInt8]

/-- The group loop of `base85decode`, five code units at a time. -/
def decodeGroups : List UInt16 → List UInt8
  | char1 :: char2 :: char3 :: char4 :: char5 :: rest =>
    setUint32BE (charValue char5.toNat + charValue char4.toNat * 85 +
      charValue char3.toNat * 85 * 85 + charValue char2.toNat * 85 * 85 * 85 +
      charValue char1.toNat * 85 * 85 * 85 * 85) ++ decodeGroups rest
  | _ => []

/-- `Search.base85decode(base85string)`: `none` where the source returns `undefined`, for a
length that is not a multiple of five. -/
def base85decode (base85string : List UInt16) : Option (List UInt8) :=
  if base85string.length % 5 ≠ 0 then none else some (decodeGroups base85string)

/-! ## The encoder -/

/-- The RFC 1924 alphabet, as code units. -/
def alphabet : List UInt16 :=
  ("0123456789ABCDEFGHIJKLMNOPQRSTUVWXYZabcdefghijklmnopqrstuvwxyz!#$%&()*+-;<=>?@^_`\x7b|\x7d~"
    ).toList.map fun c => c.toNat.toUInt16

/-- The five base-85 digits of a 32-bit value, most significant first, as alphabet characters. -/
def encodeGroup (v : Nat) : List UInt16 :=
  [v / 85 ^ 4 % 85, v / 85 ^ 3 % 85, v / 85 ^ 2 % 85, v / 85 % 85, v % 85].map (alphabet.getD · 0)

/-- RFC 1924 encoding of bytes, four at a time, each group read big-endian. -/
def enc85 : List UInt8 → List UInt16
  | b1 :: b2 :: b3 :: b4 :: rest =>
    encodeGroup (b1.toNat * 2 ^ 24 + b2.toNat * 2 ^ 16 + b3.toNat * 2 ^ 8 + b4.toNat) ++ enc85 rest
  | _ => []

/-- The digit an alphabet character stands for: its position in the alphabet. -/
def digit (c : UInt16) : Nat := alphabet.indexOf c

/-- Every 5-character group of a string denotes a value below `2^32`. -/
def GroupsFit : List UInt16 → Prop
  | c1 :: c2 :: c3 :: c4 :: c5 :: rest =>
    digit c1 * 85 ^ 4 + digit c2 * 85 ^ 3 + digit c3 * 85 ^ 2 + digit c4 * 85 + digit c5 < 2 ^ 32
      ∧ GroupsFit rest
  | _ => True

/-! ## The alphabet table -/

theorem length_alphabet : alphabet.length = 85 := by decide

/-- `charValue` reads each alphabet character as its position. -/
theorem charValue_alphabet : ∀ d < 85, charValue (alphabet.getD d 0).toNat = d := by decide

/-- Each alphabet character is the character at its position. -/
theorem alphabet_digit {c : UInt16} (h : c ∈ alphabet) :
    alphabet.getD (digit c) 0 = c ∧ digit c < 85 := by
  have hlt : digit c < alphabet.length := List.indexOf_lt_length.mpr h
  refine ⟨?_, length_alphabet ▸ hlt⟩
  rw [List.getD_eq_getElem _ _ hlt]
  exact List.indexOf_get hlt

theorem charValue_of_mem {c : UInt16} (h : c ∈ alphabet) : charValue c.toNat = digit c := by
  obtain ⟨hc, hd⟩ := alphabet_digit h
  conv_lhs => rw [← hc]
  exact charValue_alphabet _ hd

/-! ## One group -/

/-- `setUint32` writes a 32-bit value as the bytes it was read from. -/
theorem setUint32BE_bytes (b1 b2 b3 b4 : UInt8) :
    setUint32BE (b1.toNat * 2 ^ 24 + b2.toNat * 2 ^ 16 + b3.toNat * 2 ^ 8 + b4.toNat) =
      [b1, b2, b3, b4] := by
  have h1 := UInt8.toNat_lt_size b1
  have h2 := UInt8.toNat_lt_size b2
  have h3 := UInt8.toNat_lt_size b3
  have h4 := UInt8.toNat_lt_size b4
  simp only [setUint32BE, List.cons.injEq, and_true]
  refine ⟨?_, ?_, ?_, ?_⟩ <;> refine UInt8.toNat.inj ?_ <;>
    simp only [UInt8.size] at h1 h2 h3 h4 <;> show _ % 256 = _ <;> omega

/-- The value a group of five digits encodes, digit by digit. -/
theorem encodeGroup_digits {d1 d2 d3 d4 d5 : Nat} (h1 : d1 < 85) (h2 : d2 < 85) (h3 : d3 < 85)
    (h4 : d4 < 85) (h5 : d5 < 85) :
    encodeGroup (d1 * 85 ^ 4 + d2 * 85 ^ 3 + d3 * 85 ^ 2 + d4 * 85 + d5) =
      [alphabet.getD d1 0, alphabet.getD d2 0, alphabet.getD d3 0, alphabet.getD d4 0,
        alphabet.getD d5 0] := by
  simp only [encodeGroup, List.map_cons, List.map_nil, List.cons.injEq, and_true]
  refine ⟨?_, ?_, ?_, ?_, ?_⟩ <;> congr 1 <;> omega

/-- Decoding the five characters of a 32-bit value gives the value. -/
theorem decodeValue_encodeGroup {v : Nat} (hv : v < 2 ^ 32) :
    charValue (alphabet.getD (v % 85) 0).toNat +
      charValue (alphabet.getD (v / 85 % 85) 0).toNat * 85 +
      charValue (alphabet.getD (v / 85 ^ 2 % 85) 0).toNat * 85 * 85 +
      charValue (alphabet.getD (v / 85 ^ 3 % 85) 0).toNat * 85 * 85 * 85 +
      charValue (alphabet.getD (v / 85 ^ 4 % 85) 0).toNat * 85 * 85 * 85 * 85 = v := by
  simp only [charValue_alphabet _ (Nat.mod_lt _ (by norm_num : 85 > 0))]
  omega

theorem decodeGroups_encodeGroup_append {v : Nat} (hv : v < 2 ^ 32) (rest : List UInt16) :
    decodeGroups (encodeGroup v ++ rest) = setUint32BE v ++ decodeGroups rest := by
  conv_rhs => rw [← decodeValue_encodeGroup hv]
  rfl

/-- Encoding the four bytes `setUint32` writes reads back the value modulo `2^32`. -/
theorem enc85_setUint32BE_append (v : Nat) (rest : List UInt8) :
    enc85 (setUint32BE v ++ rest) = encodeGroup (v % 2 ^ 32) ++ enc85 rest := by
  simp only [setUint32BE, List.cons_append, List.nil_append, enc85]
  congr 2
  show v % 2 ^ 32 / 2 ^ 24 % 256 * 2 ^ 24 + v % 2 ^ 32 / 2 ^ 16 % 256 % 256 * 2 ^ 16 +
    v % 2 ^ 32 / 2 ^ 8 % 256 % 256 * 2 ^ 8 + v % 2 ^ 32 % 256 % 256 = v % 2 ^ 32
  omega

/-! ## The round trips -/

theorem length_enc85_mod : ∀ b : List UInt8, (enc85 b).length % 5 = 0
  | _ :: _ :: _ :: _ :: rest => by
    simp only [enc85, encodeGroup, List.length_append, List.length_map, List.length_cons,
      List.length_nil]
    have := length_enc85_mod rest
    omega
  | [] | [_] | [_, _] | [_, _, _] => rfl

theorem decodeGroups_enc85 : ∀ b : List UInt8, b.length % 4 = 0 → decodeGroups (enc85 b) = b
  | b1 :: b2 :: b3 :: b4 :: rest, h => by
    have hv : b1.toNat * 2 ^ 24 + b2.toNat * 2 ^ 16 + b3.toNat * 2 ^ 8 + b4.toNat < 2 ^ 32 := by
      have := UInt8.toNat_lt_size b1; have := UInt8.toNat_lt_size b2
      have := UInt8.toNat_lt_size b3; have := UInt8.toNat_lt_size b4
      simp only [UInt8.size] at *
      omega
    rw [enc85, decodeGroups_encodeGroup_append hv, setUint32BE_bytes,
      decodeGroups_enc85 rest (by simp only [List.length_cons] at h; omega)]
    rfl
  | [], _ => rfl
  | [_], h | [_, _], h | [_, _, _], h => by simp at h

/-- Decoding inverts the RFC 1924 encoder on every byte sequence of whole 4-byte groups. -/
theorem base85decode_enc85 (b : List UInt8) (h : b.length % 4 = 0) :
    base85decode (enc85 b) = some b := by
  rw [base85decode, if_neg (by simp [length_enc85_mod b]), decodeGroups_enc85 b h]

theorem enc85_decodeGroups : ∀ s : List UInt16, s.length % 5 = 0 → (∀ c ∈ s, c ∈ alphabet) →
    GroupsFit s → enc85 (decodeGroups s) = s
  | c1 :: c2 :: c3 :: c4 :: c5 :: rest, hlen, hs, ⟨hfit, hrest⟩ => by
    simp only [List.mem_cons, forall_eq_or_imp] at hs
    obtain ⟨h1, h2, h3, h4, h5, hs⟩ := hs
    obtain ⟨e1, d1⟩ := alphabet_digit h1
    obtain ⟨e2, d2⟩ := alphabet_digit h2
    obtain ⟨e3, d3⟩ := alphabet_digit h3
    obtain ⟨e4, d4⟩ := alphabet_digit h4
    obtain ⟨e5, d5⟩ := alphabet_digit h5
    have hv : digit c5 + digit c4 * 85 + digit c3 * 85 * 85 + digit c2 * 85 * 85 * 85 +
        digit c1 * 85 * 85 * 85 * 85 =
        digit c1 * 85 ^ 4 + digit c2 * 85 ^ 3 + digit c3 * 85 ^ 2 + digit c4 * 85 + digit c5 := by
      ring
    rw [decodeGroups, charValue_of_mem h1, charValue_of_mem h2, charValue_of_mem h3,
      charValue_of_mem h4, charValue_of_mem h5, hv, enc85_setUint32BE_append,
      Nat.mod_eq_of_lt hfit, encodeGroup_digits d1 d2 d3 d4 d5, e1, e2, e3, e4, e5,
      enc85_decodeGroups rest (by simp only [List.length_cons] at hlen; omega) hs hrest]
    rfl
  | [], _, _, _ => rfl
  | [_], h, _, _ | [_, _], h, _, _ | [_, _, _], h, _, _ | [_, _, _, _], h, _, _ => by
    simp at h

/-- Encoding inverts decoding on every alphabet string of whole groups that each denote a value
below `2^32`. -/
theorem enc85_base85decode (s : List UInt16) (hlen : s.length % 5 = 0)
    (hs : ∀ c ∈ s, c ∈ alphabet) (hfit : GroupsFit s) :
    ∃ b, base85decode s = some b ∧ enc85 b = s :=
  ⟨decodeGroups s, by rw [base85decode, if_neg (by simp [hlen])],
    enc85_decodeGroups s hlen hs hfit⟩

/-- **The two base85 round trips.** `base85decode` inverts `enc85` on whole 4-byte groups, and
`enc85` inverts `base85decode` on alphabet strings whose groups denote 32-bit values. -/
theorem base85_roundTrip :
    (∀ b : List UInt8, b.length % 4 = 0 → base85decode (enc85 b) = some b) ∧
    (∀ s : List UInt16, s.length % 5 = 0 → (∀ c ∈ s, c ∈ alphabet) → GroupsFit s →
      ∃ b, base85decode s = some b ∧ enc85 b = s) :=
  ⟨base85decode_enc85, enc85_base85decode⟩

/-- The signature `MCS` with version 0 encodes as the group `O+!-v`, which decodes back to it. -/
theorem base85_roundTrip_signature :
    enc85 [77, 67, 83, 0] = [79, 43, 33, 45, 118] ∧
      base85decode (enc85 [77, 67, 83, 0]) = some [77, 67, 83, 0] ∧
      ∃ b, base85decode [79, 43, 33, 45, 118] = some b ∧ enc85 b = [79, 43, 33, 45, 118] :=
  ⟨by decide, base85_roundTrip.1 _ (by decide),
    base85_roundTrip.2 _ (by decide) (by decide) (show _ ∧ True from ⟨by decide, trivial⟩)⟩

end DocSearch

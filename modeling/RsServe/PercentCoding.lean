import RsServe.CString

/-! encodeURIComponent and decodeURIComponent, on strings given by their bytes in UTF-8. -/

namespace RsServe.PercentCoding
open CString

/-- What encodeURIComponent leaves as it is. -/
def unreserved (c : UInt8) : Bool :=
  (48 ≤ c && c ≤ 57) || (65 ≤ c && c ≤ 90) || (97 ≤ c && c ≤ 122) || (str "-_.!~*'()").contains c

def hexDigit (n : Nat) : UInt8 := (str "0123456789ABCDEF").getD n 0

def hexValue (c : UInt8) : Option Nat :=
  if 48 ≤ c ∧ c ≤ 57 then some (c.toNat - 48)
  else if 65 ≤ c ∧ c ≤ 70 then some (c.toNat - 55)
  else if 97 ≤ c ∧ c ≤ 102 then some (c.toNat - 87)
  else none

def encodeByte (c : UInt8) : Bytes :=
  if unreserved c then [c] else [percent, hexDigit (c.toNat / 16), hexDigit (c.toNat % 16)]

def encodeURIComponent (s : Bytes) : Bytes := s.flatMap encodeByte

def percentDecode : Bytes → Option Bytes
  | [] => some []
  | c :: rest =>
    if c = percent then
      match rest with
      | a :: b :: rest =>
        match hexValue a, hexValue b with
        | some high, some low =>
          (percentDecode rest).map fun decoded => (16 * high + low).toUInt8 :: decoded
        | _, _ => none
      | _ => none
    else (percentDecode rest).map fun decoded => c :: decoded

def isTail (c : UInt8) : Bool := 128 ≤ c && c ≤ 191

/-- Neither overlong forms nor surrogates are UTF-8. -/
def isUtf8 : Bytes → Bool
  | [] => true
  | a :: rest =>
    if a < 128 then isUtf8 rest
    else
      match rest with
      | b :: rest =>
        if 194 ≤ a && a ≤ 223 then isTail b && isUtf8 rest
        else
          match rest with
          | c :: rest =>
            if a = 224 then (160 ≤ b && b ≤ 191) && isTail c && isUtf8 rest
            else if a = 237 then (128 ≤ b && b ≤ 159) && isTail c && isUtf8 rest
            else if 225 ≤ a && a ≤ 239 then isTail b && isTail c && isUtf8 rest
            else
              match rest with
              | d :: rest =>
                if a = 240 then (144 ≤ b && b ≤ 191) && isTail c && isTail d && isUtf8 rest
                else if 241 ≤ a && a ≤ 243 then isTail b && isTail c && isTail d && isUtf8 rest
                else if a = 244 then (128 ≤ b && b ≤ 143) && isTail c && isTail d && isUtf8 rest
                else false
              | [] => false
          | [] => false
      | [] => false

/-- None where it throws. -/
def decodeURIComponent (s : Bytes) : Option Bytes := (percentDecode s).filter isUtf8

theorem isUtf8_of_ascii {s : Bytes} (h : ∀ c ∈ s, c < 128) : isUtf8 s = true := by
  induction s with
  | nil => rfl
  | cons c s ih =>
    rw [isUtf8.eq_def]
    simp only [h c List.mem_cons_self, if_true]
    exact ih fun d hd => h d (List.mem_cons_of_mem c hd)

theorem hexDigit_spec :
    ∀ n < 16, hexValue (hexDigit n) = some n ∧ unreserved (hexDigit n) = true := by
  decide

theorem percentDecode_plain {c : UInt8} (h : c ≠ percent) (rest : Bytes) :
    percentDecode (c :: rest) = (percentDecode rest).map fun decoded => c :: decoded := by
  rw [percentDecode.eq_def]
  simp only [h, if_false]

theorem percentDecode_encodeByte (c : UInt8) (rest : Bytes) :
    percentDecode (encodeByte c ++ rest) =
      (percentDecode rest).map fun decoded => c :: decoded := by
  unfold encodeByte
  by_cases plain : unreserved c = true
  · have apart : c ≠ percent := by
      rintro rfl
      exact absurd plain (by decide)
    rw [if_pos plain, List.singleton_append, percentDecode_plain apart]
  · have high : c.toNat / 16 < 16 := by
      have := c.toNat_lt
      omega
    have low : c.toNat % 16 < 16 := Nat.mod_lt _ (by decide)
    have value : (16 * (c.toNat / 16) + c.toNat % 16).toUInt8 = c := by
      rw [Nat.div_add_mod]
      exact UInt8.ofNat_toNat
    rw [if_neg plain]
    simp only [List.cons_append, List.nil_append, percentDecode, if_true, (hexDigit_spec _ high).1,
      (hexDigit_spec _ low).1, value]

theorem percentDecode_encode (s rest : Bytes) :
    percentDecode (encodeURIComponent s ++ rest) =
      (percentDecode rest).map fun decoded => s ++ decoded := by
  induction s with
  | nil => simp [encodeURIComponent]
  | cons c s ih =>
    have split : encodeURIComponent (c :: s) ++ rest =
        encodeByte c ++ (encodeURIComponent s ++ rest) := by
      simp [encodeURIComponent]
    rw [split, percentDecode_encodeByte, ih, Option.map_map]
    rfl

theorem decode_encode {s : Bytes} (h : isUtf8 s = true) :
    decodeURIComponent (encodeURIComponent s) = some s := by
  have decoded := percentDecode_encode s []
  rw [List.append_nil, percentDecode, Option.map_some, List.append_nil] at decoded
  rw [decodeURIComponent, decoded, Option.filter_some, if_pos h]

theorem mem_encode {s : Bytes} {c : UInt8} (h : c ∈ encodeURIComponent s) :
    unreserved c = true ∨ c = percent := by
  obtain ⟨b, -, hb⟩ := List.mem_flatMap.1 h
  unfold encodeByte at hb
  split_ifs at hb with plain
  · rw [List.mem_singleton.1 hb]
    exact Or.inl plain
  · have high : b.toNat / 16 < 16 := by
      have := b.toNat_lt
      omega
    have low : b.toNat % 16 < 16 := Nat.mod_lt _ (by decide)
    rcases (by simpa using hb : c = percent ∨ c = _ ∨ c = _) with rfl | rfl | rfl
    · exact Or.inr rfl
    · exact Or.inl (hexDigit_spec _ high).2
    · exact Or.inl (hexDigit_spec _ low).2

theorem not_mem_encode (s : Bytes) {c : UInt8} (h : unreserved c = false) (hc : c ≠ percent) :
    c ∉ encodeURIComponent s := by
  intro mem
  rcases mem_encode mem with plain | same
  · simp [h] at plain
  · exact hc same

end RsServe.PercentCoding

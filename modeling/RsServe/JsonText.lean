import RsServe.AuthRecord
import RsServe.JsonWriter

/-! json_make_string with its allocation, against the grammar of JSON strings. -/

namespace RsServe.JsonText
open CString JsonWriter
open AuthRecord (asInt u32)

/-- The size that malloc is asked for: `strlen(string) * 2` goes into an `int`, and 3 is added
to that. None where the addition overflows, or where the size is negative and malloc fails. -/
def makeStringSize (string : Bytes) : Option Nat :=
  let maxLen := asInt (2 * string.length)
  if 0 ≤ maxLen + 3 ∧ maxLen + 3 < 2 ^ 31 then some (maxLen + 3).toNat else none

/-- json_make_string. None where there is no memory for the token, or too little. -/
def jsonMakeString (string : Bytes) : Option Bytes :=
  match makeStringSize string with
  | none => none
  | some size =>
    if (makeString string).length + 1 ≤ size then some (makeString string) else none

def jsonWriteString (json : Json) (string : Bytes) : Option Json :=
  (jsonMakeString string).map json.write

def jsonWriteKey (json : Json) (key : Bytes) : Option Json :=
  (jsonMakeString key).map fun _ => json.writeKey key

def jsonWriteKeyVal (json : Json) (key val : Bytes) : Option Json :=
  (jsonWriteKey json key).bind fun json => jsonWriteString json val

def isHex (c : UInt8) : Bool :=
  (48 ≤ c ∧ c ≤ 57) ∨ (65 ≤ c ∧ c ≤ 70) ∨ (97 ≤ c ∧ c ≤ 102)

inductive ValidChars : Bytes → Prop where
  | close : ValidChars [quote]
  | unescaped {c : UInt8} {text : Bytes} : 32 ≤ c → c ≠ quote → c ≠ backslash →
      ValidChars text → ValidChars (c :: text)
  | letter {c : UInt8} {text : Bytes} : (unescape c).isSome →
      ValidChars text → ValidChars (backslash :: c :: text)
  | digits {a b c d : UInt8} {text : Bytes} : isHex a → isHex b → isHex c → isHex d →
      ValidChars text → ValidChars (backslash :: 117 :: a :: b :: c :: d :: text)

def ValidLiteral (token : Bytes) : Prop := ∃ text, token = quote :: text ∧ ValidChars text

def Short (s : Bytes) : Prop := 2 * s.length + 3 < 2 ^ 31

instance (s : Bytes) : Decidable (Short s) := inferInstanceAs (Decidable (_ < _))

instance (s : Bytes) : Decidable (Printable s) := inferInstanceAs (Decidable (∀ c ∈ s, ¬ c < 32))

theorem length_le_escaped (s : Bytes) : s.length ≤ (escaped s).length := by
  induction s with
  | nil => rfl
  | cons c s ih =>
    have head : 1 ≤ (if c = quote ∨ c = backslash then [backslash, c] else [c]).length := by
      split <;> simp
    simp only [escaped, List.flatMap_cons, List.length_append, List.length_cons] at ih head ⊢
    omega

theorem escaped_length_le (s : Bytes) : (escaped s).length ≤ 2 * s.length := by
  induction s with
  | nil => rfl
  | cons c s ih =>
    have head : (if c = quote ∨ c = backslash then [backslash, c] else [c]).length ≤ 2 := by
      split <;> simp
    simp only [escaped, List.flatMap_cons, List.length_append, List.length_cons] at ih head ⊢
    omega

theorem makeString_length (s : Bytes) : (makeString s).length = (escaped s).length + 2 := by
  simp [makeString_eq]

theorem makeStringSize_short {s : Bytes} (h : Short s) :
    makeStringSize s = some (2 * s.length + 3) := by
  unfold Short at h
  have int : asInt (2 * s.length) = 2 * s.length := by
    unfold asInt u32
    rw [if_pos (by omega), Nat.mod_eq_of_lt (by omega)]
    rfl
  simp only [makeStringSize, int]
  rw [if_pos (by omega)]
  congr 1

theorem jsonMakeString_short {s : Bytes} (h : Short s) : jsonMakeString s = some (makeString s) := by
  have fits := escaped_length_le s
  have length := makeString_length s
  rw [jsonMakeString, makeStringSize_short h]
  exact if_pos (by omega)

theorem lt_of_makeStringSize {s : Bytes} {size : Nat} (h : ¬ Short s)
    (made : makeStringSize s = some size) : size < s.length + 3 := by
  unfold Short at h
  unfold makeStringSize at made
  rw [Option.ite_none_right_eq_some, Option.some.injEq] at made
  obtain ⟨⟨low, high⟩, rfl⟩ := made
  unfold asInt u32 at *
  by_cases wrapped : 2 * s.length % 2 ^ 32 < 2 ^ 31
  · rw [if_pos wrapped] at *
    omega
  · rw [if_neg wrapped] at *
    omega

theorem jsonMakeString_long {s : Bytes} (h : ¬ Short s) : jsonMakeString s = none := by
  have long := length_le_escaped s
  have length := makeString_length s
  rw [jsonMakeString]
  cases made : makeStringSize s with
  | none => rfl
  | some size =>
    have small := lt_of_makeStringSize h made
    exact if_neg (by omega)

theorem jsonMakeString_eq_some {s token : Bytes} :
    jsonMakeString s = some token ↔ Short s ∧ token = makeString s := by
  by_cases h : Short s
  · simp [jsonMakeString_short h, h, eq_comm]
  · simp [jsonMakeString_long h, h]

theorem validChars_escaped {s : Bytes} (h : Printable s) : ValidChars (escaped s ++ [quote]) := by
  induction s with
  | nil => exact ValidChars.close
  | cons c s ih =>
    have rest := ih fun d hd => h d (by simp [hd])
    have hc : ¬ c < 32 := h c (by simp)
    by_cases hescape : c = quote ∨ c = backslash
    · rw [escaped_special hescape]
      exact ValidChars.letter (by rw [unescape_special hescape]; rfl) rest
    · rw [escaped_ordinary hescape]
      rw [not_or] at hescape
      exact ValidChars.unescaped (UInt8.not_lt.1 hc) hescape.1 hescape.2 rest

theorem printable_of_validChars {s : Bytes} (h : ValidChars (escaped s ++ [quote])) :
    Printable s := by
  induction s with
  | nil => simp [Printable]
  | cons c s ih =>
    have goal (hc : ¬ c < 32) (hs : Printable s) : Printable (c :: s) := by
      intro d hd
      rcases List.mem_cons.1 hd with rfl | hd
      · exact hc
      · exact hs d hd
    by_cases hescape : c = quote ∨ c = backslash
    · have plain : ¬ c < 32 ∧ c ≠ 117 := by
        rcases hescape with rfl | rfl
        · decide
        · decide
      rw [escaped_special hescape, List.cons_append, List.cons_append] at h
      generalize hrest : escaped s ++ [quote] = rest at h
      cases h with
      | unescaped _ _ hne _ => exact absurd rfl hne
      | letter _ rest => exact goal plain.1 (ih (hrest ▸ rest))
      | digits => exact absurd rfl plain.2
    · rw [escaped_ordinary hescape, List.cons_append] at h
      rw [not_or] at hescape
      generalize hrest : escaped s ++ [quote] = rest at h
      cases h with
      | close => exact absurd rfl hescape.1
      | unescaped hc _ _ rest => exact goal (UInt8.not_lt.2 hc) (ih (hrest ▸ rest))
      | letter => exact absurd rfl hescape.2
      | digits => exact absurd rfl hescape.2

theorem validLiteral_makeString {s : Bytes} : ValidLiteral (makeString s) ↔ Printable s := by
  constructor
  · rintro ⟨text, same, valid⟩
    have text : text = escaped s ++ [quote] := by
      rw [makeString_eq, List.cons_append, List.cons.injEq] at same
      exact same.2.symm
    exact printable_of_validChars (text ▸ valid)
  · intro h
    exact ⟨escaped s ++ [quote], by simp [makeString_eq], validChars_escaped h⟩

structure EncodesString (s : Bytes) : Prop where
  allocated : makeStringSize s = some (2 * s.length + 3)
  /-- The token and its NUL stay in the allocation, and the token stands for the string. -/
  token : ∃ token, jsonMakeString s = some token ∧ token.length + 1 ≤ 2 * s.length + 3 ∧
    ValidLiteral token ∧ readString token = some (s, [])
  /-- An object whose key the string is can be read. -/
  key (val : Bytes) : Printable val → Short val →
    ∃ json, jsonWriteKeyVal (newJson []).startObject s val = some json ∧
      readObject json.endObject.out = some [(s, val)]

theorem jsonWriteKeyVal_short {json : Json} {key val : Bytes} (hkey : Short key)
    (hval : Short val) : jsonWriteKeyVal json key val = some (json.writeKeyVal key val) := by
  simp [jsonWriteKeyVal, jsonWriteKey, jsonWriteString, jsonMakeString_short hkey,
    jsonMakeString_short hval, Json.writeKeyVal]

theorem encodesString_iff (s : Bytes) : EncodesString s ↔ Printable s ∧ Short s := by
  constructor
  · rintro ⟨-, ⟨token, made, -, valid, -⟩, -⟩
    obtain ⟨short, rfl⟩ := jsonMakeString_eq_some.1 made
    exact ⟨validLiteral_makeString.1 valid, short⟩
  · rintro ⟨printable, short⟩
    have fits := escaped_length_le s
    have length := makeString_length s
    have read : readString (makeString s) = some (s, []) := by
      have append := readString_makeString printable []
      rwa [List.append_nil] at append
    refine ⟨makeStringSize_short short, ⟨makeString s, jsonMakeString_short short, by omega,
      validLiteral_makeString.2 printable, read⟩, fun val hval hshort => ?_⟩
    refine ⟨_, jsonWriteKeyVal_short short hshort, ?_⟩
    have written := writeMembers_object [] [(s, val)]
    rw [List.nil_append] at written
    refine (congrArg readObject written).trans (readObject_objectText ?_)
    simpa using ⟨printable, hval⟩

theorem line_feed_not_encoded :
    NulFree [97, 10, 98] ∧ ¬ EncodesString [97, 10, 98] := by
  refine ⟨by decide, fun h => ?_⟩
  obtain ⟨token, made, -, -, read⟩ := h.token
  have same : token = makeString [97, 10, 98] :=
    (jsonMakeString_eq_some.1 made).2
  rw [same] at read
  exact absurd read (by decide)

end RsServe.JsonText

import RsServe.Storage

/-! content_type_to_xattr with its pointers: what strtok_r and strstr return, and what is
given to set_meta. -/

namespace RsServe.ContentTypes
open CString Attributes EarlyExit Storage

/-- strtok_r on the text that the saved pointer shows: the token, and the text that the
pointer shows then. -/
def strtokR (delim text : Bytes) : Option Bytes × Bytes :=
  let start := text.dropWhile (· ∈ delim)
  if start = [] then (none, [])
  else (some (start.takeWhile (· ∉ delim)), (start.dropWhile (· ∉ delim)).drop 1)

/-- The `mime_type` and `charset` that content_type_to_xattr passes to strlen and set_meta. -/
def contentTypeValues (contentType : Bytes) : Option Bytes × Option Bytes :=
  let (mimeType, saved) := strtokR [semicolon] contentType
  let (rest, _) := strtokR [] saved
  let charset := match rest with
    | none => none
    | some rest => charsetIn rest
  match charset with
  | none => (mimeType, some (str "UTF-8"))
  | some charset => (mimeType, some charset)

theorem strtokR_semicolon (contentType : Bytes) :
    strtokR [semicolon] contentType =
      match mediaType contentType with
      | none => (none, [])
      | some (mimeType, rest) => (some mimeType, rest) := by
  unfold strtokR mediaType
  simp only [List.mem_singleton]
  by_cases h : contentType.dropWhile (· = semicolon) = []
  · simp [h]
  · simp [h]

theorem strtokR_nil (text : Bytes) :
    (strtokR [] text).1 = if text = [] then none else some text := by
  have all : ∀ t : Bytes, t.dropWhile (fun c => decide (c ∈ ([] : Bytes))) = t := by
    intro t
    cases t <;> simp
  have whole : ∀ t : Bytes, t.takeWhile (fun c => decide (c ∉ ([] : Bytes))) = t := by
    intro t
    simp
  unfold strtokR
  rw [all]
  by_cases h : text = []
  · simp [h]
  · simp [h]

theorem charsetIn_nil : charsetIn [] = none := by decide

theorem contentTypeValues_eq (contentType : Bytes) :
    contentTypeValues contentType =
      match mediaType contentType with
      | none => (none, some (str "UTF-8"))
      | some (mimeType, rest) => (some mimeType, some ((charsetIn rest).getD (str "UTF-8"))) := by
  unfold contentTypeValues
  rw [strtokR_semicolon]
  cases mediaType contentType with
  | none => simp [strtokR_nil]
  | some parts =>
    simp only [strtokR_nil]
    by_cases hrest : parts.2 = []
    · simp [hrest, charsetIn_nil]
    · rw [if_neg hrest]
      cases hcharset : charsetIn parts.2 <;> simp [hcharset]

theorem contentTypeToXattr_values (contentType : Bytes) :
    contentTypeToXattr contentType =
      match contentTypeValues contentType with
      | (some mimeType, some charset) =>
        some fun x => { x with mimeType := some (mimeType ++ [0]), charset := some (charset ++ [0]) }
      | _ => none := by
  rw [contentTypeValues_eq, contentTypeToXattr]
  cases mediaType contentType <;> rfl

structure NeverNull (contentType : Bytes) : Prop where
  mimeType : (contentTypeValues contentType).1 ≠ none
  charset : (contentTypeValues contentType).2 ≠ none
  stores : ∀ diskPath w, ¬ (storeContentType diskPath contentType w).Crashed

theorem values_charset (contentType : Bytes) : (contentTypeValues contentType).2 ≠ none := by
  rw [contentTypeValues_eq]
  cases mediaType contentType <;> simp

theorem values_mimeType (contentType : Bytes) :
    (contentTypeValues contentType).1 ≠ none ↔ ∃ c ∈ contentType, c ≠ semicolon := by
  have missing : (contentTypeValues contentType).1 = none ↔ mediaType contentType = none := by
    rw [contentTypeValues_eq]
    cases mediaType contentType <;> simp
  rw [ne_eq, missing, mediaType_eq_none]
  simp

/-- The media type is NULL for a header of separators only, and for no other. -/
theorem neverNull_iff (contentType : Bytes) :
    NeverNull contentType ↔ ∃ c ∈ contentType, c ≠ semicolon := by
  constructor
  · intro h
    exact (values_mimeType contentType).1 h.mimeType
  · intro h
    have hmime := (values_mimeType contentType).2 h
    refine ⟨hmime, values_charset contentType, fun diskPath w => ?_⟩
    have stored : contentTypeToXattr contentType ≠ none := by
      rw [contentTypeToXattr_values]
      cases hvalues : contentTypeValues contentType with
      | mk mimeType charset =>
        have hcharset := values_charset contentType
        rw [hvalues] at hmime hcharset
        cases mimeType with
        | none => exact absurd rfl hmime
        | some mimeType =>
          cases charset with
          | none => exact absurd rfl hcharset
          | some charset => simp
    unfold storeContentType
    obtain ⟨f, hf⟩ := Option.ne_none_iff_exists'.1 stored
    rw [hf]
    exact id

theorem separators_null : NulFree (str ";;") ∧ ¬ NeverNull (str ";;") := by
  refine ⟨by decide, fun h => ?_⟩
  exact absurd h.mimeType (by decide)

end RsServe.ContentTypes

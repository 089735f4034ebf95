import Mathlib.Data.List.DropRight
import RsServe.AttributeReads
import RsServe.ContentTypes

/-! Content types as a client reads them: the media type and the parameters, and what is
left of these by the two attributes. -/

namespace RsServe.MediaTypes
open CString PatternDeletion Kernel Attributes AttributeReads ContentTypes

def blank (c : UInt8) : Bool := c = 32 || c = 9

def trim (text : Bytes) : Bytes := (text.dropWhile blank).rdropWhile blank

def typeText (contentType : Bytes) : Bytes := contentType.takeWhile (· ≠ semicolon)

def mediaTypeOf (contentType : Bytes) : Bytes := trim (typeText contentType)

def parameterText (contentType : Bytes) : Bytes := (contentType.dropWhile (· ≠ semicolon)).drop 1

def parametersIn (text : Bytes) : List Bytes := ((text.splitOn semicolon).map trim).filter (· ≠ [])

def parametersOf (contentType : Bytes) : List Bytes := parametersIn (parameterText contentType)

def lower (c : UInt8) : UInt8 := if 65 ≤ c ∧ c ≤ 90 then c + 32 else c

def mentionsCharset (parameter : Bytes) : Bool := str "charset=" <:+: parameter.map lower

theorem blank_pattern {c : UInt8} (h : c ∈ str "charset=") : blank c = false := by
  have all : ∀ c ∈ str "charset=", blank c = false := by decide +kernel
  exact all c h

theorem semicolon_pattern : semicolon ∉ str "charset=" := by decide +kernel

theorem infix_dropWhile {pat text : Bytes} (hne : pat ≠ []) (hpat : ∀ c ∈ pat, blank c = false)
    (h : pat <:+: text) : pat <:+: text.dropWhile blank := by
  induction text with
  | nil => exact h
  | cons c text ih =>
    by_cases hc : blank c
    · rw [List.dropWhile_cons_of_pos hc]
      rcases List.infix_cons_iff.1 h with hpre | hinf
      · obtain ⟨d, pat', rfl⟩ := List.exists_cons_of_ne_nil hne
        have same := (List.cons_prefix_cons.1 hpre).1
        rw [← same, hpat d List.mem_cons_self] at hc
        cases hc
      · exact ih hinf
    · rw [List.dropWhile_cons_of_neg hc]
      exact h

theorem infix_trim {pat text : Bytes} (hne : pat ≠ []) (hpat : ∀ c ∈ pat, blank c = false)
    (h : pat <:+: text) : pat <:+: trim text := by
  have front := infix_dropWhile hne hpat h
  have back := infix_dropWhile (List.reverse_ne_nil_iff.2 hne)
    (fun c hc => hpat c (List.mem_reverse.1 hc)) (List.reverse_infix.2 front)
  rw [trim, List.rdropWhile]
  exact List.reverse_infix.1 (by rwa [List.reverse_reverse])

theorem trim_blank {c : UInt8} (hc : blank c) (text : Bytes) : trim (c :: text) = trim text := by
  rw [trim, List.dropWhile_cons_of_pos hc, trim]

theorem parametersIn_append (a b : Bytes) :
    parametersIn (a ++ semicolon :: b) = parametersIn a ++ parametersIn b := by
  simp [parametersIn, List.splitOn_append_cons_self]

theorem parametersIn_piece {a : Bytes} (h : semicolon ∉ a) :
    parametersIn a = if trim a = [] then [] else [trim a] := by
  rw [parametersIn, List.splitOn_eq_singleton h]
  by_cases hempty : trim a = []
  · simp [hempty]
  · simp [hempty]

theorem pieces_induction {P : Bytes → Prop} (last : ∀ a, semicolon ∉ a → P a)
    (more : ∀ a b, semicolon ∉ a → P b → P (a ++ semicolon :: b)) (text : Bytes) : P text := by
  induction hlen : text.length using Nat.strong_induction_on generalizing text with
  | _ n ih =>
    by_cases h : semicolon ∈ text
    · obtain ⟨a, b, rfl, ha⟩ := List.eq_append_cons_of_mem h
      rw [List.length_append, List.length_cons] at hlen
      exact more a b ha (ih b.length (by omega) b rfl)
    · exact last text h

theorem parametersIn_blank {c : UInt8} (hc : blank c) (text : Bytes) :
    parametersIn (c :: text) = parametersIn text := by
  have other : semicolon ≠ c := by
    intro same
    rw [← same] at hc
    exact absurd hc (by decide)
  have piece : ∀ a, semicolon ∉ a → parametersIn (c :: a) = parametersIn a := by
    intro a ha
    have hca : semicolon ∉ c :: a := by simp [other, ha]
    rw [parametersIn_piece hca, parametersIn_piece ha, trim_blank hc]
  induction text using pieces_induction with
  | last a ha => exact piece a ha
  | more a b ha ih => rw [← List.cons_append, parametersIn_append, parametersIn_append, piece a ha]

theorem charsetIn_cons (c : UInt8) (text : Bytes) :
    charsetIn (c :: text) =
      if str "charset=" <+: c :: text then some ((c :: text).drop 8) else charsetIn text := by
  rw [charsetIn, firstAt]
  by_cases h : str "charset=" <+: c :: text
  · rw [if_pos h, if_pos h]
    rfl
  · rw [if_neg h, if_neg h, Option.map_map, charsetIn]
    rfl

theorem charsetIn_pattern (text : Bytes) : charsetIn (str "charset=" ++ text) = some text := by
  have split : str "charset=" ++ text = 99 :: (str "harset=" ++ text) := rfl
  rw [split, charsetIn_cons, ← split, if_pos (List.prefix_append _ _)]
  rfl

theorem prefix_of_prefix_append {pat a b : Bytes} (hpat : semicolon ∉ pat)
    (h : pat <+: a ++ semicolon :: b) : pat <+: a := by
  rcases List.prefix_or_prefix_of_prefix h (List.prefix_append a (semicolon :: b)) with
    short | ⟨rest, rfl⟩
  · exact short
  · rw [List.prefix_append_right_inj] at h
    cases rest with
    | nil => simp
    | cons c rest =>
      have same := (List.cons_prefix_cons.1 h).1
      exact absurd (by simp [same]) hpat

theorem charsetIn_piece {a : Bytes} (h : ¬ str "charset=" <:+: a) (b : Bytes) :
    charsetIn (a ++ semicolon :: b) = charsetIn b := by
  induction a with
  | nil =>
    have other : ¬ str "charset=" <+: semicolon :: b := fun hpre =>
      absurd (prefix_of_prefix_append (a := []) semicolon_pattern hpre) (by decide +kernel)
    rw [List.nil_append, charsetIn_cons, if_neg other]
  | cons c a ih =>
    rw [List.infix_cons_iff, not_or] at h
    have here : ¬ str "charset=" <+: c :: (a ++ semicolon :: b) := fun hpre =>
      h.1 (prefix_of_prefix_append (a := c :: a) semicolon_pattern hpre)
    rw [List.cons_append, charsetIn_cons, if_neg here, ih h.2]

theorem mentionsCharset_of_occurs {parameter : Bytes} (h : str "charset=" <:+: parameter) :
    mentionsCharset parameter = true := by
  have small : (str "charset=").map lower = str "charset=" := by decide +kernel
  have mapped := h.map lower
  rw [small] at mapped
  exact decide_eq_true mapped

theorem charset_infix_trim {text : Bytes} (h : str "charset=" <:+: text) :
    str "charset=" <:+: trim text :=
  infix_trim (by decide +kernel) (fun _ => blank_pattern) h

theorem charsetIn_begins {a : Bytes} (ha : semicolon ∉ a) (h : str "charset=" <+: trim a) :
    ∃ tail, (∀ rest, charsetIn (a ++ rest) = some (tail ++ rest)) ∧
      parametersIn (str "charset=" ++ tail) = parametersIn a := by
  induction a with
  | nil => exact absurd h (by decide +kernel)
  | cons c a ih =>
    have hca : semicolon ∉ a := fun hmem => ha (List.mem_cons_of_mem c hmem)
    by_cases hc : blank c
    · rw [trim_blank hc] at h
      obtain ⟨tail, hfirst, hsame⟩ := ih hca h
      refine ⟨tail, fun rest => ?_, hsame.trans (parametersIn_blank hc a).symm⟩
      have other : ¬ str "charset=" <+: c :: (a ++ rest) := by
        intro hpre
        have same := (List.cons_prefix_cons.1 hpre).1
        rw [← same] at hc
        exact absurd hc (by decide)
      rw [List.cons_append, charsetIn_cons, if_neg other, hfirst]
    · rw [trim, List.dropWhile_cons_of_neg hc] at h
      obtain ⟨tail, htail⟩ := h.trans (List.rdropWhile_prefix blank (c :: a))
      refine ⟨tail, fun rest => ?_, by rw [htail]⟩
      rw [← htail, List.append_assoc, charsetIn_pattern]

theorem not_infix_of_silent {a : Bytes} (ha : semicolon ∉ a)
    (h : ∀ p ∈ parametersIn a, mentionsCharset p = false) : ¬ str "charset=" <:+: a := by
  intro hinf
  have inside := charset_infix_trim hinf
  have named : trim a ≠ [] := by
    intro hempty
    rw [hempty] at inside
    exact absurd inside (by decide +kernel)
  have silent := h (trim a) (by rw [parametersIn_piece ha, if_neg named]; simp)
  rw [mentionsCharset_of_occurs inside] at silent
  cases silent

theorem charsetIn_eq_none {text : Bytes}
    (h : ∀ p ∈ parametersIn text, mentionsCharset p = false) : charsetIn text = none := by
  induction text using pieces_induction with
  | last a ha =>
    rw [charsetIn, firstAt_eq_none.2 (not_infix_of_silent ha h)]
    rfl
  | more a b ha ih =>
    rw [parametersIn_append] at h
    rw [charsetIn_piece (not_infix_of_silent ha fun p hp => h p (List.mem_append_left _ hp))]
    exact ih fun p hp => h p (List.mem_append_right _ hp)

theorem charsetIn_first {text p : Bytes}
    (h : (parametersIn text).find? mentionsCharset = some p) (hp : str "charset=" <+: p) :
    ∃ tail, charsetIn text = some tail ∧ parametersIn (str "charset=" ++ tail) =
      (parametersIn text).dropWhile fun q => !mentionsCharset q := by
  have begins : ∀ a, semicolon ∉ a → (parametersIn a).find? mentionsCharset = some p →
      parametersIn a = [p] ∧ mentionsCharset p ∧
        ∃ tail, (∀ rest, charsetIn (a ++ rest) = some (tail ++ rest)) ∧
          parametersIn (str "charset=" ++ tail) = parametersIn a := by
    intro a ha hfind
    have hmentions := List.find?_some hfind
    have hmem := List.mem_of_find?_eq_some hfind
    rw [parametersIn_piece ha] at hmem
    by_cases hempty : trim a = []
    · simp [hempty] at hmem
    · rw [if_neg hempty, List.mem_singleton] at hmem
      refine ⟨by rw [parametersIn_piece ha, if_neg hempty, hmem], hmentions, ?_⟩
      exact charsetIn_begins ha (hmem ▸ hp)
  induction text using pieces_induction with
  | last a ha =>
    obtain ⟨hone, hmentions, tail, hfirst, hsame⟩ := begins a ha h
    refine ⟨tail, by simpa using hfirst [], ?_⟩
    rw [hsame, hone]
    simp [hmentions]
  | more a b ha ih =>
    rw [parametersIn_append, List.find?_append] at h
    cases hfind : (parametersIn a).find? mentionsCharset with
    | some q =>
      rw [hfind, Option.some_or, Option.some_inj] at h
      subst h
      obtain ⟨hone, hmentions, tail, hfirst, hsame⟩ := begins a ha hfind
      refine ⟨tail ++ semicolon :: b, hfirst (semicolon :: b), ?_⟩
      rw [← List.append_assoc, parametersIn_append, hsame, parametersIn_append, hone]
      simp [hmentions]
    | none =>
      rw [hfind, Option.none_or] at h
      have silent : ∀ q ∈ parametersIn a, mentionsCharset q = false := by simpa using hfind
      obtain ⟨tail, hfirst, hsame⟩ := ih h
      refine ⟨tail, ?_, ?_⟩
      · rw [charsetIn_piece (not_infix_of_silent ha silent), hfirst]
      · have skipped : ∀ q ∈ parametersIn a, (!mentionsCharset q) = true := by
          intro q hq
          rw [silent q hq]
          rfl
        rw [hsame, parametersIn_append, List.dropWhile_append_of_pos skipped]

structure Survives (contentType value : Bytes) : Prop where
  mediaType : mediaTypeOf value = mediaTypeOf contentType
  kept : ∀ p ∈ parametersOf contentType, p ∈ parametersOf value
  added : ∀ p ∈ parametersOf value, p ∉ parametersOf contentType →
    p = str "charset=UTF-8" ∧ ∀ q ∈ parametersOf contentType, mentionsCharset q = false

/-- The media type is kept, and of the parameters the charset with those behind it, if these
fit in the attribute. -/
structure Keeps (contentType value : Bytes) : Prop where
  mediaType : mediaTypeOf value = mediaTypeOf contentType
  added : (∀ p ∈ parametersOf contentType, mentionsCharset p = false) →
    parametersOf value = [str "charset=UTF-8"]
  charset : ∀ p text, (parametersOf contentType).find? mentionsCharset = some p →
    str "charset=" <+: p → charsetIn (parameterText contentType) = some text →
      parametersOf value = if text.length ≤ 63
        then (parametersOf contentType).dropWhile fun q => !mentionsCharset q else []

theorem typeText_append {a : Bytes} (ha : semicolon ∉ a) (b : Bytes) :
    typeText (a ++ semicolon :: b) = a ∧ parameterText (a ++ semicolon :: b) = b := by
  have all : ∀ c ∈ a, decide (c ≠ semicolon) = true := fun c hc => by
    simpa using fun same : c = semicolon => ha (same ▸ hc)
  constructor
  · rw [typeText, List.takeWhile_append_of_pos all]
    simp
  · rw [parameterText, List.dropWhile_append_of_pos all]
    simp

theorem semicolon_not_mem_typeText (contentType : Bytes) : semicolon ∉ typeText contentType := by
  intro hmem
  have other := List.mem_takeWhile_imp hmem
  simp at other

theorem parametersOf_typeText (contentType : Bytes) : parametersOf (typeText contentType) = [] := by
  have nothing : (typeText contentType).dropWhile (· ≠ semicolon) = [] := by
    rw [List.dropWhile_eq_nil_iff]
    intro c hc
    simpa using fun same : c = semicolon => semicolon_not_mem_typeText contentType (same ▸ hc)
  rw [parametersOf, parameterText, nothing]
  rfl

theorem typeText_typeText (contentType : Bytes) :
    typeText (typeText contentType) = typeText contentType := by
  rw [typeText, List.takeWhile_eq_self_iff]
  intro c hc
  simpa using fun same : c = semicolon => semicolon_not_mem_typeText contentType (same ▸ hc)

theorem mediaType_eq {contentType : Bytes} (h : mediaTypeOf contentType ≠ []) :
    mediaType contentType = some (typeText contentType, parameterText contentType) := by
  cases contentType with
  | nil => exact absurd rfl h
  | cons c rest =>
    by_cases hc : c = semicolon
    · refine absurd ?_ h
      rw [mediaTypeOf, typeText, hc]
      rfl
    · have start : (c :: rest).dropWhile (· = semicolon) = c :: rest :=
        List.dropWhile_cons_of_neg (by simpa using hc)
      rw [mediaType, start]
      exact if_neg (List.cons_ne_nil c rest)

theorem getXattr_stored {value : Bytes} {maxlen : Nat} (hnul : NulFree value)
    (hmax : 32 ≤ maxlen) (hint : maxlen < lastInt) (hfits : value.length < lastSize maxlen) :
    getXattr (some (value ++ [0])) maxlen = some value := by
  unfold lastSize at hfits
  have reached : readXattr (some (value ++ [0])) maxlen 32 = .buffer (value ++ [0] ++ [0]) := by
    refine readXattr_reaches hmax (by simp) ?_ ?_ (by decide)
    · rw [List.length_append, List.length_singleton]
      omega
    · rw [List.length_append, List.length_singleton]
      omega
  rw [getXattr_eq_shown hint, getXattrBuffer, reached, XattrRead.shown, List.append_assoc]
  exact congrArg some (cstr_append_nul hnul [0])

theorem getXattr_long {value : Bytes} {maxlen : Nat} (hmax : 32 ≤ maxlen) (hint : maxlen < lastInt)
    (hlong : lastSize maxlen ≤ value.length) : getXattr (some (value ++ [0])) maxlen = none := by
  have large : lastSize maxlen < (value ++ [0]).length := by
    rw [List.length_append, List.length_singleton]
    omega
  rw [getXattr_eq_shown hint, getXattrBuffer]
  rcases readXattr_misses hmax large with missed | missed
  · rw [missed]
    rfl
  · rw [missed]
    rfl

theorem mem_of_charsetIn {contentType text : Bytes} {c : UInt8}
    (h : charsetIn (parameterText contentType) = some text) (hc : c ∈ text) : c ∈ contentType := by
  rw [charsetIn, Option.map_eq_some_iff] at h
  obtain ⟨i, -, rfl⟩ := h
  exact List.dropWhile_subset _ (List.mem_of_mem_drop (List.mem_of_mem_drop hc))

theorem parametersOf_charset {mimeType : Bytes} (h : semicolon ∉ mimeType) (charset : Bytes) :
    mediaTypeOf (mimeType ++ str "; charset=" ++ charset) = trim mimeType ∧
      parametersOf (mimeType ++ str "; charset=" ++ charset) =
        parametersIn (str "charset=" ++ charset) := by
  have split : mimeType ++ str "; charset=" ++ charset =
      mimeType ++ semicolon :: 32 :: (str "charset=" ++ charset) := by
    rw [List.append_assoc]
    rfl
  have parts := typeText_append h (32 :: (str "charset=" ++ charset))
  rw [split, mediaTypeOf, parametersOf, parts.1, parts.2, parametersIn_blank (by decide)]
  exact ⟨rfl, rfl⟩

section Stored
variable {contentType : Bytes}

def storedCharset (contentType : Bytes) : Bytes :=
  (charsetIn (parameterText contentType)).getD (str "UTF-8")

theorem storedCharset_of_silent
    (h : ∀ p ∈ parametersOf contentType, mentionsCharset p = false) :
    storedCharset contentType = str "UTF-8" := by
  rw [storedCharset, charsetIn_eq_none h, Option.getD_none]

theorem storedCharset_of_first {text : Bytes}
    (h : charsetIn (parameterText contentType) = some text) : storedCharset contentType = text := by
  rw [storedCharset, h, Option.getD_some]

theorem contentTypeFromXattr_stored {f : Xattrs → Xattrs} (hnul : NulFree contentType)
    (hmedia : mediaTypeOf contentType ≠ []) (hlen : (typeText contentType).length ≤ 127)
    (hf : contentTypeToXattr contentType = some f) (x : Xattrs) :
    contentTypeFromXattr (f x) =
      match getXattr (some (storedCharset contentType ++ [0])) 64 with
      | none => some (typeText contentType)
      | some charset => some (typeText contentType ++ str "; charset=" ++ charset) := by
  have typeNul : NulFree (typeText contentType) := fun h0 => hnul (List.takeWhile_subset _ h0)
  have hread : getXattr (some (typeText contentType ++ [0])) 128 = some (typeText contentType) :=
    getXattr_stored typeNul (by decide) (by decide) (by unfold lastSize; omega)
  rw [contentTypeToXattr, mediaType_eq hmedia] at hf
  rw [← Option.some.inj hf, contentTypeFromXattr, hread]
  rfl

theorem shown_of_silent (h : ∀ p ∈ parametersOf contentType, mentionsCharset p = false) :
    getXattr (some (storedCharset contentType ++ [0])) 64 = some (str "UTF-8") := by
  rw [storedCharset_of_silent h]
  decide +kernel

theorem shown_of_first {text : Bytes} (hnul : NulFree contentType)
    (h : charsetIn (parameterText contentType) = some text) :
    getXattr (some (storedCharset contentType ++ [0])) 64 =
      if text.length ≤ 63 then some text else none := by
  rw [storedCharset_of_first h]
  by_cases hshort : text.length ≤ 63
  · rw [if_pos hshort]
    refine getXattr_stored (fun h0 => ?_) (by decide) (by decide) (by unfold lastSize; omega)
    exact hnul (mem_of_charsetIn h h0)
  · rw [if_neg hshort]
    exact getXattr_long (by decide) (by decide) (by unfold lastSize; omega)

theorem keeps_of_stored {f : Xattrs → Xattrs} (hnul : NulFree contentType)
    (hmedia : mediaTypeOf contentType ≠ []) (hlen : (typeText contentType).length ≤ 127)
    (hf : contentTypeToXattr contentType = some f) (x : Xattrs) :
    ∃ value, contentTypeFromXattr (f x) = some value ∧ Keeps contentType value := by
  rw [contentTypeFromXattr_stored hnul hmedia hlen hf x]
  cases hshown : getXattr (some (storedCharset contentType ++ [0])) 64 with
  | none =>
    refine ⟨typeText contentType, rfl, ?_, fun silent => ?_, fun p text _ _ hfirst => ?_⟩
    · rw [mediaTypeOf, typeText_typeText, mediaTypeOf]
    · rw [shown_of_silent silent] at hshown
      cases hshown
    · rw [shown_of_first hnul hfirst] at hshown
      by_cases hshort : text.length ≤ 63
      · rw [if_pos hshort] at hshown
        cases hshown
      · rw [if_neg hshort, parametersOf_typeText]
  | some shown =>
    have parts := parametersOf_charset (semicolon_not_mem_typeText contentType) shown
    refine ⟨_, rfl, parts.1, fun silent => ?_, fun p text hfind hp hfirst => ?_⟩
    · rw [shown_of_silent silent, Option.some_inj] at hshown
      rw [parts.2, ← hshown]
      decide +kernel
    · rw [shown_of_first hnul hfirst] at hshown
      by_cases hshort : text.length ≤ 63
      · rw [if_pos hshort, Option.some_inj] at hshown
        obtain ⟨tail, htail, hsame⟩ := charsetIn_first hfind hp
        rw [hfirst, Option.some_inj] at htail
        rw [if_pos hshort, parts.2, ← hshown, htail, hsame]
        rfl
      · rw [if_neg hshort] at hshown
        cases hshown

end Stored

end RsServe.MediaTypes

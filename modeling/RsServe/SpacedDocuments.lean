import RsServe.JsonDocuments

/-! Documents with blanks between their parts, as a parser reads them. -/

namespace RsServe.SpacedDocuments
open CString JsonText JsonDocuments
open JsonWriter (quote comma makeString Printable)

def Blank (s : Bytes) : Prop := ∀ c ∈ s, isBlank c = true

instance (s : Bytes) : Decidable (Blank s) := inferInstanceAs (Decidable (∀ c ∈ s, _))

/-- The text is read as the document, whatever follows it. -/
def Reads (text : Bytes) (d : Document) : Prop :=
  ∀ fuel rest, text.length ≤ fuel → readValue fuel (text ++ rest) = some (d, rest)

inductive MemberText : Bytes → Bytes × Document → Prop where
  | spaced {before key between value after : Bytes} {d : Document} : Blank before → Printable key →
      Blank between → Reads value d → Blank after →
      MemberText (before ++ (makeString key ++ colon :: (between ++ (value ++ after)))) (key, d)

inductive ElementText : Bytes → Document → Prop where
  | spaced {before value after : Bytes} {d : Document} : Blank before → Reads value d →
      Blank after → ElementText (before ++ (value ++ after)) d

theorem skipBlanks_append {s : Bytes} (h : Blank s) (text : Bytes) :
    skipBlanks (s ++ text) = skipBlanks text := by
  rw [skipBlanks, List.dropWhile_append_of_pos h, skipBlanks]

theorem readValue_blank {s : Bytes} (h : Blank s) (fuel : Nat) (text : Bytes) :
    readValue fuel (s ++ text) = readValue fuel text := by
  cases fuel with
  | zero => rfl
  | succ fuel => rw [readValue, readValue, skipBlanks_append h]

theorem readKey_blank {s : Bytes} (h : Blank s) (text : Bytes) :
    readKey (s ++ text) = readKey text := by
  rw [readKey, readKey, skipBlanks_append h]

theorem readSeparator_blank {s : Bytes} (h : Blank s) (close : UInt8) (text : Bytes) :
    readSeparator close (s ++ text) = readSeparator close text := by
  rw [readSeparator, readSeparator, skipBlanks_append h]

theorem reads_string {value : Bytes} (h : Printable value) :
    Reads (makeString value) (.string value) := by
  intro fuel rest hfuel
  have hlength := makeString_length value
  obtain ⟨fuel, rfl⟩ : ∃ k, fuel = k + 1 := ⟨fuel - 1, by omega⟩
  exact readValue_string h rest

theorem readMembers_spaced {texts : List Bytes} {members : List (Bytes × Document)} {last : Bytes}
    (h : List.Forall₂ MemberText texts members) (hne : members ≠ []) (hlast : Blank last)
    (fuel : Nat) (rest : Bytes) (hfuel : (List.intercalate [comma] texts).length < fuel) :
    readMembers fuel (List.intercalate [comma] texts ++ (last ++ 125 :: rest)) =
      some (members, rest) := by
  induction h generalizing fuel with
  | nil => exact absurd rfl hne
  | @cons text member texts members first more ih =>
    obtain ⟨fuel, rfl⟩ : ∃ k, fuel = k + 1 := ⟨fuel - 1, by omega⟩
    cases first with
    | @spaced before key between value after d hbefore hkey hbetween hvalue hafter =>
      cases more with
      | nil =>
        rw [intercalate_singleton] at hfuel ⊢
        simp only [List.length_append, List.length_cons] at hfuel
        simp only [List.append_assoc, List.cons_append]
        rw [readMembers, readKey_blank hbefore, readKey_makeString hkey]
        simp only [readValue_blank hbetween,
          hvalue fuel (after ++ (last ++ 125 :: rest)) (by omega), readSeparator_blank hafter,
          readSeparator_blank hlast,
          readSeparator_close (show isBlank 125 = false by decide) (by decide)]
      | @cons next member' texts members second more =>
        have later := ih (List.cons_ne_nil _ _)
        rw [intercalate_cons [comma] _ (List.cons_ne_nil _ _)] at hfuel ⊢
        simp only [List.length_append, List.length_cons, List.length_nil] at hfuel
        simp only [List.append_assoc, List.cons_append, List.nil_append]
        rw [readMembers, readKey_blank hbefore, readKey_makeString hkey]
        simp only [readValue_blank hbetween, hvalue fuel _ (by omega), readSeparator_blank hafter,
          readSeparator_comma, later fuel (by omega), Option.map_some]

theorem readElements_spaced {texts : List Bytes} {elements : List Document}
    (h : List.Forall₂ ElementText texts elements) (hne : elements ≠ []) (fuel : Nat) (rest : Bytes)
    (hfuel : (List.intercalate [comma] texts).length < fuel) :
    readElements fuel (List.intercalate [comma] texts ++ 93 :: rest) = some (elements, rest) := by
  induction h generalizing fuel with
  | nil => exact absurd rfl hne
  | @cons text element texts elements first more ih =>
    obtain ⟨fuel, rfl⟩ : ∃ k, fuel = k + 1 := ⟨fuel - 1, by omega⟩
    cases first with
    | @spaced before value after d hbefore hvalue hafter =>
      cases more with
      | nil =>
        rw [intercalate_singleton] at hfuel ⊢
        simp only [List.length_append] at hfuel
        simp only [List.append_assoc]
        rw [readElements, readValue_blank hbefore, hvalue fuel (after ++ 93 :: rest) (by omega)]
        simp only [readSeparator_blank hafter,
          readSeparator_close (show isBlank 93 = false by decide) (by decide)]
      | @cons next element' texts elements second more =>
        have later := ih (List.cons_ne_nil _ _)
        rw [intercalate_cons [comma] _ (List.cons_ne_nil _ _)] at hfuel ⊢
        simp only [List.length_append, List.length_cons, List.length_nil] at hfuel
        simp only [List.append_assoc, List.cons_append, List.nil_append]
        rw [readElements, readValue_blank hbefore, hvalue fuel _ (by omega)]
        simp only [readSeparator_blank hafter, readSeparator_comma, later fuel (by omega),
          Option.map_some]

theorem reads_object {texts : List Bytes} {members : List (Bytes × Document)} {last : Bytes}
    (h : List.Forall₂ MemberText texts members) (hne : members ≠ []) (hlast : Blank last) :
    Reads (123 :: (List.intercalate [comma] texts ++ (last ++ [125]))) (.object members) := by
  intro fuel rest hfuel
  simp only [List.length_cons, List.length_append, List.length_nil] at hfuel
  obtain ⟨fuel, rfl⟩ : ∃ k, fuel = k + 2 := ⟨fuel - 2, by omega⟩
  have inner := readMembers_spaced h hne hlast (fuel + 1) rest (by omega)
  have open_ : (skipBlanks (List.intercalate [comma] texts ++ (last ++ 125 :: rest))).head? ≠
      some 125 := by
    intro brace
    obtain ⟨tail, head⟩ := List.head?_eq_some_iff.1 brace
    have other : (125 : UInt8) ≠ quote := by decide
    rw [readMembers, readKey, head] at inner
    simp [JsonWriter.readString, other] at inner
  rw [List.cons_append, List.append_assoc, List.append_assoc, List.singleton_append, readValue,
    skipBlanks_cons (by decide)]
  have brace : (123 : UInt8) ≠ quote ∧ (123 : UInt8) ≠ 91 := by decide
  simp only [brace, open_, if_false, if_true, inner, Option.map_some]

theorem reads_array {texts : List Bytes} {elements : List Document}
    (h : List.Forall₂ ElementText texts elements) (hne : elements ≠ []) :
    Reads (91 :: (List.intercalate [comma] texts ++ [93])) (.array elements) := by
  intro fuel rest hfuel
  rw [List.length_cons, List.length_append, List.length_singleton] at hfuel
  obtain ⟨fuel, rfl⟩ : ∃ k, fuel = k + 2 := ⟨fuel - 2, by omega⟩
  have inner := readElements_spaced h hne (fuel + 1) rest (by omega)
  have open_ : (skipBlanks (List.intercalate [comma] texts ++ 93 :: rest)).head? ≠ some 93 := by
    intro bracket
    obtain ⟨tail, head⟩ := List.head?_eq_some_iff.1 bracket
    have unread : readValue fuel (List.intercalate [comma] texts ++ 93 :: rest) = none := by
      cases fuel with
      | zero => rfl
      | succ fuel =>
        rw [readValue, head]
        rfl
    rw [readElements, unread] at inner
    cases inner
  rw [List.cons_append, List.append_assoc, List.singleton_append, readValue,
    skipBlanks_cons (by decide)]
  have bracket : (91 : UInt8) ≠ quote := by decide
  simp only [bracket, open_, if_false, if_true, inner, Option.map_some]

theorem reads_emptyObject {s : Bytes} (h : Blank s) : Reads (123 :: (s ++ [125])) (.object []) := by
  intro fuel rest hfuel
  rw [List.length_cons] at hfuel
  obtain ⟨fuel, rfl⟩ : ∃ k, fuel = k + 1 := ⟨fuel - 1, by omega⟩
  have close : skipBlanks (125 :: rest) = 125 :: rest := skipBlanks_cons (by decide) rest
  have brace : (123 : UInt8) ≠ quote ∧ (123 : UInt8) ≠ 91 := by decide
  rw [List.cons_append, List.append_assoc, List.singleton_append, readValue,
    skipBlanks_cons (by decide)]
  simp only [brace, if_false, if_true, skipBlanks_append h, close, List.head?_cons, List.tail_cons]

theorem readDocument_reads {text after : Bytes} {d : Document} (h : Reads text d)
    (hafter : Blank after) : readDocument (text ++ after) = some d := by
  have read := h (text ++ after).length after (by simp)
  have nothing : skipBlanks after = [] := by
    have all := skipBlanks_append hafter []
    rwa [List.append_nil] at all
  rw [readDocument, read]
  exact if_pos nothing

end RsServe.SpacedDocuments

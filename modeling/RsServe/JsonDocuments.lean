import RsServe.JsonText

/-! Documents emitted piece by piece, and what a parser reads of the text. -/

namespace RsServe.JsonDocuments
open CString JsonWriter JsonText

inductive Document where
  | string (value : Bytes)
  | array (elements : List Document)
  | object (members : List (Bytes × Document))

mutual

def emit : Document → Json → Option Json
  | .string value, json => jsonWriteString json value
  | .array elements, json => (emitElements elements json.startArray).map Json.endArray
  | .object members, json => (emitMembers members json.startObject).map Json.endObject

def emitElements : List Document → Json → Option Json
  | [], json => some json
  | element :: elements, json => (emit element json).bind (emitElements elements)

def emitMembers : List (Bytes × Document) → Json → Option Json
  | [], json => some json
  | (key, value) :: members, json =>
    ((jsonWriteKey json key).bind (emit value)).bind (emitMembers members)

end

mutual

/-- The text of a document. Between two elements of an array stands `sep`, which is a comma
in JSON. -/
def text (sep : Bytes) : Document → Bytes
  | .string value => makeString value
  | .array elements => 91 :: (List.intercalate sep (elementTexts sep elements) ++ [93])
  | .object members => 123 :: (List.intercalate [comma] (memberTexts sep members) ++ [125])

def elementTexts (sep : Bytes) : List Document → List Bytes
  | [] => []
  | element :: elements => text sep element :: elementTexts sep elements

def memberTexts (sep : Bytes) : List (Bytes × Document) → List Bytes
  | [] => []
  | (key, value) :: members =>
    (makeString key ++ colon :: text sep value) :: memberTexts sep members

end

mutual

def depth : Document → Nat
  | .string _ => 0
  | .array elements => elementsDepth elements + 1
  | .object members => membersDepth members + 1

def elementsDepth : List Document → Nat
  | [] => 0
  | element :: elements => max (depth element) (elementsDepth elements)

def membersDepth : List (Bytes × Document) → Nat
  | [] => 0
  | (_, value) :: members => max (depth value) (membersDepth members)

end

mutual

def Strings (P : Bytes → Prop) : Document → Prop
  | .string value => P value
  | .array elements => ElementStrings P elements
  | .object members => MemberStrings P members

def ElementStrings (P : Bytes → Prop) : List Document → Prop
  | [] => True
  | element :: elements => Strings P element ∧ ElementStrings P elements

def MemberStrings (P : Bytes → Prop) : List (Bytes × Document) → Prop
  | [] => True
  | (key, value) :: members => P key ∧ Strings P value ∧ MemberStrings P members

end

mutual

def Single : Document → Prop
  | .string _ => True
  | .array [] => True
  | .array [element] => Single element
  | .array (_ :: _ :: _) => False
  | .object members => SingleMembers members

def SingleMembers : List (Bytes × Document) → Prop
  | [] => True
  | (_, value) :: members => Single value ∧ SingleMembers members

end

def separated : Bool → List Bytes → Bytes
  | _, [] => []
  | true, member :: members => comma :: (member ++ separated true members)
  | false, member :: members => member ++ separated true members

theorem separated_false (members : List Bytes) :
    separated false members = List.intercalate [comma] members := by
  cases members with
  | nil => rfl
  | cons member members =>
    induction members generalizing member with
    | nil => simp [separated]
    | cons next members ih =>
      have rest : separated true (next :: members) =
          comma :: separated false (next :: members) := rfl
      rw [separated, rest, ih next]
      simp [List.intercalate]

theorem intercalate_nil (texts : List Bytes) : List.intercalate [] texts = texts.flatten := by
  cases texts with
  | nil => rfl
  | cons text texts =>
    induction texts generalizing text with
    | nil => simp [List.intercalate]
    | cons next texts ih =>
      have rest := ih next
      rw [List.flatten_cons, ← rest]
      simp [List.intercalate]

theorem jsonWriteKey_first {out key : Bytes} (outer : List Bool) (h : Short key) :
    jsonWriteKey ⟨out, false :: outer⟩ key =
      some ⟨out ++ (makeString key ++ [colon]), true :: outer⟩ := by
  simp [jsonWriteKey, jsonMakeString_short h, Json.writeKey, Json.write]

theorem jsonWriteKey_later {out key : Bytes} (outer : List Bool) (h : Short key) :
    jsonWriteKey ⟨out, true :: outer⟩ key =
      some ⟨out ++ comma :: (makeString key ++ [colon]), true :: outer⟩ := by
  simp [jsonWriteKey, jsonMakeString_short h, Json.writeKey, Json.write]

theorem startObject_eq {out : Bytes} {nesting : List Bool} (h : nesting.length < 4) :
    (Json.mk out nesting).startObject = ⟨out ++ [123], false :: nesting⟩ := by
  simp [Json.startObject, Json.push, Json.write, maxDepth, Nat.not_le.2 h]

theorem startArray_eq {out : Bytes} {nesting : List Bool} (h : nesting.length < 4) :
    (Json.mk out nesting).startArray = ⟨out ++ [91], false :: nesting⟩ := by
  simp [Json.startArray, Json.push, Json.write, maxDepth, Nat.not_le.2 h]

mutual

theorem emit_eq (out : Bytes) (nesting : List Bool) : (d : Document) → Strings Short d →
    nesting.length + depth d ≤ 4 → emit d ⟨out, nesting⟩ = some ⟨out ++ text [] d, nesting⟩
  | .string value, hshort, _ => by
    simp [emit, jsonWriteString, jsonMakeString_short hshort, Json.write, text]
  | .array elements, hshort, hdepth => by
    rw [depth] at hdepth
    have inner := emitElements_eq (out ++ [91]) (false :: nesting) elements hshort
      (by simp only [List.length_cons]; omega)
    rw [emit, startArray_eq (by omega), inner]
    simp [Json.endArray, Json.write, text, intercalate_nil]
  | .object members, hshort, hdepth => by
    rw [depth] at hdepth
    have inner := emitMembers_eq (out ++ [123]) nesting false members hshort
      (by omega)
    rw [emit, startObject_eq (by omega), inner]
    simp [Json.endObject, Json.write, text, separated_false]

theorem emitElements_eq (out : Bytes) (nesting : List Bool) : (elements : List Document) →
    ElementStrings Short elements → nesting.length + elementsDepth elements ≤ 4 →
    emitElements elements ⟨out, nesting⟩ =
      some ⟨out ++ (elementTexts [] elements).flatten, nesting⟩
  | [], _, _ => by simp [emitElements, elementTexts]
  | element :: elements, hshort, hdepth => by
    rw [elementsDepth] at hdepth
    rw [emitElements, emit_eq _ _ element hshort.1 (by omega), Option.bind_some,
      emitElements_eq _ _ elements hshort.2 (by omega)]
    simp [elementTexts]

theorem emitMembers_eq (out : Bytes) (outer : List Bool) : (begun : Bool) →
    (members : List (Bytes × Document)) → MemberStrings Short members →
    outer.length + 1 + membersDepth members ≤ 4 →
    emitMembers members ⟨out, begun :: outer⟩ =
      some ⟨out ++ separated begun (memberTexts [] members), (begun || !members.isEmpty) :: outer⟩
  | begun, [], _, _ => by simp [emitMembers, memberTexts, separated]
  | false, (key, value) :: members, hshort, hdepth => by
    rw [membersDepth] at hdepth
    rw [emitMembers, jsonWriteKey_first outer hshort.1, Option.bind_some,
      emit_eq _ _ value hshort.2.1 (by simp only [List.length_cons]; omega), Option.bind_some,
      emitMembers_eq _ _ true members hshort.2.2 (by omega)]
    simp [memberTexts, separated]
  | true, (key, value) :: members, hshort, hdepth => by
    rw [membersDepth] at hdepth
    rw [emitMembers, jsonWriteKey_later outer hshort.1, Option.bind_some,
      emit_eq _ _ value hshort.2.1 (by simp only [List.length_cons]; omega), Option.bind_some,
      emitMembers_eq _ _ true members hshort.2.2 (by omega)]
    simp [memberTexts, separated]

end

def isBlank (c : UInt8) : Bool := c = 32 ∨ c = 9 ∨ c = 10 ∨ c = 13

def skipBlanks (text : Bytes) : Bytes := text.dropWhile isBlank

def readSeparator (close : UInt8) (text : Bytes) : Option (Bool × Bytes) :=
  match skipBlanks text with
  | [] => none
  | c :: rest =>
    if c = comma then some (true, rest)
    else if c = close then some (false, rest)
    else none

def readKey (text : Bytes) : Option (Bytes × Bytes) :=
  match readString (skipBlanks text) with
  | none => none
  | some (key, rest) =>
    match skipBlanks rest with
    | [] => none
    | c :: rest => if c = colon then some (key, rest) else none

mutual

/-- A value, and the text behind it. Strings are read as `readString` reads them, and other
values than strings, arrays and objects are not read. -/
def readValue : Nat → Bytes → Option (Document × Bytes)
  | 0, _ => none
  | fuel + 1, text =>
    match skipBlanks text with
    | [] => none
    | c :: rest =>
      if c = quote then (readString (c :: rest)).map fun read => (.string read.1, read.2)
      else if c = 91 then
        if (skipBlanks rest).head? = some 93 then some (.array [], (skipBlanks rest).tail)
        else (readElements fuel rest).map fun read => (.array read.1, read.2)
      else if c = 123 then
        if (skipBlanks rest).head? = some 125 then some (.object [], (skipBlanks rest).tail)
        else (readMembers fuel rest).map fun read => (.object read.1, read.2)
      else none

def readElements : Nat → Bytes → Option (List Document × Bytes)
  | 0, _ => none
  | fuel + 1, text =>
    match readValue fuel text with
    | none => none
    | some (element, rest) =>
      match readSeparator 93 rest with
      | none => none
      | some (true, rest) =>
        (readElements fuel rest).map fun read => (element :: read.1, read.2)
      | some (false, rest) => some ([element], rest)

def readMembers : Nat → Bytes → Option (List (Bytes × Document) × Bytes)
  | 0, _ => none
  | fuel + 1, text =>
    match readKey text with
    | none => none
    | some (key, rest) =>
      match readValue fuel rest with
      | none => none
      | some (value, rest) =>
        match readSeparator 125 rest with
        | none => none
        | some (true, rest) =>
          (readMembers fuel rest).map fun read => ((key, value) :: read.1, read.2)
        | some (false, rest) => some ([(key, value)], rest)

end

def readDocument (text : Bytes) : Option Document :=
  match readValue text.length text with
  | some (d, rest) => if skipBlanks rest = [] then some d else none
  | none => none

section Reading
variable {fuel : Nat} {rest : Bytes}

theorem skipBlanks_cons {c : UInt8} (h : isBlank c = false) (rest : Bytes) :
    skipBlanks (c :: rest) = c :: rest := by
  simp [skipBlanks, h]

theorem readSeparator_comma (close : UInt8) (rest : Bytes) :
    readSeparator close (comma :: rest) = some (true, rest) := by
  rw [readSeparator, skipBlanks_cons (by decide)]
  exact if_pos rfl

theorem readSeparator_close {close : UInt8} (hblank : isBlank close = false)
    (hcomma : close ≠ comma) (rest : Bytes) :
    readSeparator close (close :: rest) = some (false, rest) := by
  rw [readSeparator, skipBlanks_cons hblank]
  exact (if_neg hcomma).trans (if_pos rfl)

theorem text_head (sep : Bytes) (d : Document) : ∃ c tail, text sep d = c :: tail ∧
    isBlank c = false ∧ c ≠ comma ∧ c ≠ 93 := by
  cases d with
  | string value =>
    exact ⟨quote, escaped value ++ [quote], by rw [text, makeString_eq, List.cons_append],
      by decide, by decide, by decide⟩
  | array elements => exact ⟨91, _, rfl, by decide, by decide, by decide⟩
  | object members => exact ⟨123, _, rfl, by decide, by decide, by decide⟩

theorem readKey_makeString {key : Bytes} (h : Printable key) (rest : Bytes) :
    readKey (makeString key ++ colon :: rest) = some (key, rest) := by
  have blank : skipBlanks (makeString key ++ colon :: rest) = makeString key ++ colon :: rest := by
    rw [makeString_eq, List.cons_append, List.cons_append, skipBlanks_cons (by decide)]
  rw [readKey, blank, readString_makeString h]
  simp only [skipBlanks_cons (show isBlank colon = false by decide), if_true]

theorem readValue_string {value : Bytes} (h : Printable value) (rest : Bytes) :
    readValue (fuel + 1) (makeString value ++ rest) = some (.string value, rest) := by
  have read := readString_makeString h rest
  rw [makeString_eq, List.cons_append, List.cons_append] at *
  rw [readValue, skipBlanks_cons (by decide)]
  simp only [if_true, read, Option.map_some]

theorem readValue_array {c : UInt8} {tail : Bytes} (hblank : isBlank c = false) (hc : c ≠ 93) :
    readValue (fuel + 1) (91 :: c :: tail) =
      (readElements fuel (c :: tail)).map fun read => (.array read.1, read.2) := by
  have other : (91 : UInt8) ≠ quote := by decide
  rw [readValue, skipBlanks_cons (by decide)]
  simp [other, skipBlanks_cons hblank, hc]

theorem readValue_object {c : UInt8} {tail : Bytes} (hblank : isBlank c = false) (hc : c ≠ 125) :
    readValue (fuel + 1) (123 :: c :: tail) =
      (readMembers fuel (c :: tail)).map fun read => (.object read.1, read.2) := by
  have other : (123 : UInt8) ≠ quote := by decide
  rw [readValue, skipBlanks_cons (by decide)]
  simp [other, skipBlanks_cons hblank, hc]

theorem readValue_emptyArray (rest : Bytes) :
    readValue (fuel + 1) (91 :: 93 :: rest) = some (.array [], rest) := by
  have other : (91 : UInt8) ≠ quote := by decide
  rw [readValue, skipBlanks_cons (by decide)]
  simp [other, skipBlanks_cons (show isBlank 93 = false by decide)]

theorem readValue_emptyObject (rest : Bytes) :
    readValue (fuel + 1) (123 :: 125 :: rest) = some (.object [], rest) := by
  have other : (123 : UInt8) ≠ quote := by decide
  rw [readValue, skipBlanks_cons (by decide)]
  simp [other, skipBlanks_cons (show isBlank 125 = false by decide)]

theorem intercalate_cons (sep first : Bytes) {texts : List Bytes} (h : texts ≠ []) :
    List.intercalate sep (first :: texts) = first ++ sep ++ List.intercalate sep texts := by
  obtain ⟨second, texts, rfl⟩ := List.exists_cons_of_ne_nil h
  simp [List.intercalate]

theorem intercalate_singleton (sep text : Bytes) : List.intercalate sep [text] = text := by
  simp [List.intercalate]

theorem text_pos (sep : Bytes) (d : Document) : 0 < (text sep d).length := by
  obtain ⟨c, tail, head, -⟩ := text_head sep d
  simp [head]

theorem elements_head (sep : Bytes) (element : Document) (elements : List Document) :
    ∃ c tail, List.intercalate sep (elementTexts sep (element :: elements)) = c :: tail ∧
      isBlank c = false ∧ c ≠ comma ∧ c ≠ 93 := by
  obtain ⟨c, tail, head, hc⟩ := text_head sep element
  cases elements with
  | nil => exact ⟨c, tail, by simp [elementTexts, head], hc⟩
  | cons next elements =>
    have more : elementTexts sep (next :: elements) ≠ [] := List.cons_ne_nil _ _
    rw [elementTexts, intercalate_cons sep _ more, head]
    exact ⟨c, _, rfl, hc⟩

theorem members_head (sep : Bytes) (member : Bytes × Document)
    (members : List (Bytes × Document)) :
    ∃ tail, List.intercalate [comma] (memberTexts sep (member :: members)) = quote :: tail := by
  cases members with
  | nil =>
    rw [memberTexts, memberTexts, intercalate_singleton, makeString_eq]
    exact ⟨_, rfl⟩
  | cons next members =>
    have more : memberTexts sep (next :: members) ≠ [] := List.cons_ne_nil _ _
    rw [memberTexts, intercalate_cons [comma] _ more, makeString_eq]
    exact ⟨_, rfl⟩

end Reading

mutual

theorem readValue_text (rest : Bytes) : (d : Document) → (fuel : Nat) → Strings Printable d →
    (text [comma] d).length ≤ fuel + 1 →
    readValue (fuel + 1) (text [comma] d ++ rest) = some (d, rest)
  | .string value, fuel, hprint, _ => readValue_string hprint rest
  | .array [], fuel, _, _ => readValue_emptyArray rest
  | .array (element :: elements), fuel, hprint, hfuel => by
    obtain ⟨c, tail, head, hblank, -, hc⟩ := elements_head [comma] element elements
    rw [text, List.length_cons, List.length_append, List.length_singleton] at hfuel
    obtain ⟨fuel, rfl⟩ : ∃ k, fuel = k + 1 := ⟨fuel - 1, by omega⟩
    have inner := readElements_text rest (element :: elements) fuel (List.cons_ne_nil _ _) hprint
      (by omega)
    rw [head] at inner
    rw [text, head]
    simp only [List.cons_append, List.append_assoc, List.nil_append] at *
    rw [readValue_array hblank hc, inner, Option.map_some]
  | .object [], fuel, _, _ => readValue_emptyObject rest
  | .object (member :: members), fuel, hprint, hfuel => by
    obtain ⟨tail, head⟩ := members_head [comma] member members
    rw [text, List.length_cons, List.length_append, List.length_singleton] at hfuel
    obtain ⟨fuel, rfl⟩ : ∃ k, fuel = k + 1 := ⟨fuel - 1, by omega⟩
    have inner := readMembers_text rest (member :: members) fuel (List.cons_ne_nil _ _) hprint
      (by omega)
    rw [head] at inner
    rw [text, head]
    simp only [List.cons_append, List.append_assoc, List.nil_append] at *
    rw [readValue_object (by decide) (by decide), inner, Option.map_some]

theorem readElements_text (rest : Bytes) : (elements : List Document) → (fuel : Nat) →
    elements ≠ [] → ElementStrings Printable elements →
    (List.intercalate [comma] (elementTexts [comma] elements)).length ≤ fuel →
    readElements (fuel + 1)
        (List.intercalate [comma] (elementTexts [comma] elements) ++ 93 :: rest) =
      some (elements, rest)
  | [], _, hne, _, _ => absurd rfl hne
  | [element], fuel, _, hprint, hfuel => by
    have hpos := text_pos [comma] element
    rw [elementTexts, elementTexts, intercalate_singleton] at *
    obtain ⟨fuel, rfl⟩ : ∃ k, fuel = k + 1 := ⟨fuel - 1, by omega⟩
    rw [readElements, readValue_text _ element fuel hprint.1 hfuel]
    simp only [readSeparator_close (show isBlank 93 = false by decide) (by decide)]
  | element :: next :: elements, fuel, _, hprint, hfuel => by
    have hpos := text_pos [comma] element
    have more : elementTexts [comma] (next :: elements) ≠ [] := List.cons_ne_nil _ _
    rw [elementTexts, intercalate_cons [comma] _ more] at hfuel ⊢
    rw [List.length_append, List.length_append, List.length_singleton] at hfuel
    obtain ⟨fuel, rfl⟩ : ∃ k, fuel = k + 1 := ⟨fuel - 1, by omega⟩
    have later := readElements_text rest (next :: elements) fuel (List.cons_ne_nil _ _) hprint.2
      (by omega)
    rw [List.append_assoc, List.append_assoc, readElements,
      readValue_text _ element fuel hprint.1 (by omega)]
    simp only [List.singleton_append, readSeparator_comma, later, Option.map_some]

theorem readMembers_text (rest : Bytes) : (members : List (Bytes × Document)) → (fuel : Nat) →
    members ≠ [] → MemberStrings Printable members →
    (List.intercalate [comma] (memberTexts [comma] members)).length ≤ fuel →
    readMembers (fuel + 1)
        (List.intercalate [comma] (memberTexts [comma] members) ++ 125 :: rest) =
      some (members, rest)
  | [], _, hne, _, _ => absurd rfl hne
  | [(key, value)], fuel, _, hprint, hfuel => by
    have hpos := text_pos [comma] value
    rw [memberTexts, memberTexts, intercalate_singleton] at *
    rw [List.length_append, List.length_cons] at hfuel
    obtain ⟨fuel, rfl⟩ : ∃ k, fuel = k + 1 := ⟨fuel - 1, by omega⟩
    rw [List.append_assoc, List.cons_append, readMembers, readKey_makeString hprint.1]
    simp only [readValue_text _ value fuel hprint.2.1 (by omega),
      readSeparator_close (show isBlank 125 = false by decide) (by decide)]
  | (key, value) :: next :: members, fuel, _, hprint, hfuel => by
    have hpos := text_pos [comma] value
    have more : memberTexts [comma] (next :: members) ≠ [] := List.cons_ne_nil _ _
    rw [memberTexts, intercalate_cons [comma] _ more] at hfuel ⊢
    rw [List.length_append, List.length_append, List.length_append, List.length_cons,
      List.length_singleton] at hfuel
    obtain ⟨fuel, rfl⟩ : ∃ k, fuel = k + 1 := ⟨fuel - 1, by omega⟩
    have later := readMembers_text rest (next :: members) fuel (List.cons_ne_nil _ _) hprint.2.2
      (by omega)
    rw [List.append_assoc, List.append_assoc, List.append_assoc, List.cons_append, readMembers,
      readKey_makeString hprint.1]
    simp only [readValue_text _ value fuel hprint.2.1 (by omega), List.singleton_append,
      readSeparator_comma, later, Option.map_some]

end

theorem readSeparator_neither {close c : UInt8} (hblank : isBlank c = false) (hcomma : c ≠ comma)
    (hclose : c ≠ close) (rest : Bytes) : readSeparator close (c :: rest) = none := by
  rw [readSeparator, skipBlanks_cons hblank]
  exact (if_neg hcomma).trans (if_neg hclose)

mutual

theorem single_of_readValue (rest : Bytes) : (d : Document) → (fuel : Nat) →
    {read : Document × Bytes} → Strings Printable d →
    readValue fuel (text [] d ++ rest) = some read → Single d ∧ read = (d, rest)
  | .string value, fuel + 1, read, hprint, h => by
    rw [text, readValue_string hprint, Option.some.injEq] at h
    exact ⟨trivial, h.symm⟩
  | .array [], fuel + 1, read, _, h =>
    ⟨trivial, Option.some.inj (h.symm.trans (readValue_emptyArray rest))⟩
  | .array (element :: elements), fuel + 1, read, hprint, h => by
    obtain ⟨c, tail, head, hblank, -, hc⟩ := elements_head [] element elements
    rw [text, head] at h
    simp only [List.cons_append, List.append_assoc, List.nil_append] at h
    rw [readValue_array hblank hc, ← List.cons_append, ← head, Option.map_eq_some_iff] at h
    obtain ⟨inner, hinner, rfl⟩ := h
    obtain ⟨single, rfl⟩ :=
      single_of_readElements rest (element :: elements) fuel (List.cons_ne_nil _ _) hprint hinner
    exact ⟨single, rfl⟩
  | .object [], fuel + 1, read, _, h =>
    ⟨trivial, Option.some.inj (h.symm.trans (readValue_emptyObject rest))⟩
  | .object (member :: members), fuel + 1, read, hprint, h => by
    obtain ⟨tail, head⟩ := members_head [] member members
    rw [text, head] at h
    simp only [List.cons_append, List.append_assoc, List.nil_append] at h
    rw [readValue_object (by decide) (by decide), ← List.cons_append, ← head,
      Option.map_eq_some_iff] at h
    obtain ⟨inner, hinner, rfl⟩ := h
    obtain ⟨single, rfl⟩ :=
      single_of_readMembers rest (member :: members) fuel (List.cons_ne_nil _ _) hprint hinner
    exact ⟨single, rfl⟩
  | _, 0, _, _, h => absurd h (by simp [readValue])

theorem single_of_readElements (rest : Bytes) : (elements : List Document) → (fuel : Nat) →
    {read : List Document × Bytes} → elements ≠ [] → ElementStrings Printable elements →
    readElements fuel (List.intercalate [] (elementTexts [] elements) ++ 93 :: rest) =
      some read → Single (.array elements) ∧ read = (elements, rest)
  | [], _, _, hne, _, _ => absurd rfl hne
  | [element], fuel + 1, read, _, hprint, h => by
    rw [elementTexts, elementTexts, intercalate_singleton, readElements] at h
    cases first : readValue fuel (text [] element ++ 93 :: rest) with
    | none => simp [first] at h
    | some value =>
      obtain ⟨single, rfl⟩ := single_of_readValue _ element fuel hprint.1 first
      simp only [first, readSeparator_close (show isBlank 93 = false by decide)
        (by decide : (93 : UInt8) ≠ comma), Option.some.injEq] at h
      exact ⟨single, h.symm⟩
  | element :: next :: elements, fuel + 1, read, _, hprint, h => by
    have more : elementTexts [] (next :: elements) ≠ [] := List.cons_ne_nil _ _
    obtain ⟨c, tail, head, hblank, hcomma, hc⟩ := elements_head [] next elements
    rw [elementTexts, intercalate_cons [] _ more, head, List.append_nil, List.append_assoc,
      List.cons_append, readElements] at h
    cases first : readValue fuel (text [] element ++ c :: (tail ++ 93 :: rest)) with
    | none => simp [first] at h
    | some value =>
      obtain ⟨-, rfl⟩ := single_of_readValue _ element fuel hprint.1 first
      simp [first, readSeparator_neither hblank hcomma hc] at h
  | _, 0, _, _, _, h => absurd h (by simp [readElements])

theorem single_of_readMembers (rest : Bytes) : (members : List (Bytes × Document)) →
    (fuel : Nat) → {read : List (Bytes × Document) × Bytes} → members ≠ [] →
    MemberStrings Printable members →
    readMembers fuel (List.intercalate [comma] (memberTexts [] members) ++ 125 :: rest) =
      some read → SingleMembers members ∧ read = (members, rest)
  | [], _, _, hne, _, _ => absurd rfl hne
  | [(key, value)], fuel + 1, read, _, hprint, h => by
    rw [memberTexts, memberTexts, intercalate_singleton, List.append_assoc, List.cons_append,
      readMembers, readKey_makeString hprint.1] at h
    cases first : readValue fuel (text [] value ++ 125 :: rest) with
    | none => simp [first] at h
    | some value' =>
      obtain ⟨single, rfl⟩ := single_of_readValue _ value fuel hprint.2.1 first
      simp only [first, readSeparator_close (show isBlank 125 = false by decide)
        (by decide : (125 : UInt8) ≠ comma), Option.some.injEq] at h
      exact ⟨⟨single, trivial⟩, h.symm⟩
  | (key, value) :: next :: members, fuel + 1, read, _, hprint, h => by
    have more : memberTexts [] (next :: members) ≠ [] := List.cons_ne_nil _ _
    rw [memberTexts, intercalate_cons [comma] _ more, List.append_assoc, List.append_assoc,
      List.append_assoc, List.cons_append, List.singleton_append, readMembers,
      readKey_makeString hprint.1] at h
    generalize hrest : List.intercalate [comma] (memberTexts [] (next :: members)) ++ 125 :: rest =
      behind at h
    cases first : readValue fuel (text [] value ++ comma :: behind) with
    | none => simp [first] at h
    | some value' =>
      obtain ⟨single, rfl⟩ := single_of_readValue _ value fuel hprint.2.1 first
      simp only [first, readSeparator_comma, Option.map_eq_some_iff] at h
      obtain ⟨later, hlater, rfl⟩ := h
      rw [← hrest] at hlater
      obtain ⟨others, rfl⟩ :=
        single_of_readMembers rest (next :: members) fuel (List.cons_ne_nil _ _) hprint.2.2 hlater
      exact ⟨⟨single, others⟩, rfl⟩
  | _, 0, _, _, _, h => absurd h (by simp [readMembers])

end

mutual

theorem text_of_single (sep : Bytes) : (d : Document) → Single d → text [] d = text sep d
  | .string _, _ => rfl
  | .array [], _ => rfl
  | .array [element], h => by
    have inner : text [] element = text sep element := text_of_single sep element h
    simp only [text, elementTexts, inner, intercalate_singleton]
  | .array (_ :: _ :: _), h => absurd h (by simp [Single])
  | .object members, h => by
    have inner : memberTexts [] members = memberTexts sep members := memberTexts_of_single sep members h
    rw [text, text, inner]

theorem memberTexts_of_single (sep : Bytes) : (members : List (Bytes × Document)) →
    SingleMembers members → memberTexts [] members = memberTexts sep members
  | [], _ => rfl
  | (key, value) :: members, h => by
    rw [memberTexts, memberTexts, text_of_single sep value h.1, memberTexts_of_single sep members h.2]

end

theorem readDocument_text {d : Document} (h : Strings Printable d) :
    readDocument (text [comma] d) = some d := by
  have hpos := text_pos [comma] d
  have read := readValue_text [] d ((text [comma] d).length - 1) h (by omega)
  rw [List.append_nil, Nat.sub_add_cancel hpos] at read
  rw [readDocument, read]
  exact if_pos rfl

theorem readDocument_emitted {d : Document} (h : Strings Printable d) :
    readDocument (text [] d) = some d ↔ Single d := by
  constructor
  · intro read
    rw [readDocument] at read
    cases value : readValue (text [] d).length (text [] d) with
    | none => simp [value] at read
    | some result =>
      have whole : readValue (text [] d).length (text [] d ++ []) = some result := by
        rwa [List.append_nil]
      exact (single_of_readValue [] d (text [] d).length h whole).1
  · intro single
    rw [text_of_single [comma] d single, readDocument_text h]

def EmitsDocument (d : Document) : Prop :=
  ∃ json, emit d (newJson []) = some json ∧ json.out = text [comma] d ∧
    readDocument json.out = some d

mutual

theorem short_of_emit : (d : Document) → {json json' : Json} → emit d json = some json' →
    Strings Short d
  | .string value, _, _, h => by
    rw [emit, jsonWriteString, Option.map_eq_some_iff] at h
    obtain ⟨token, made, -⟩ := h
    exact (jsonMakeString_eq_some.1 made).1
  | .array elements, _, _, h => by
    rw [emit, Option.map_eq_some_iff] at h
    obtain ⟨inner, hinner, -⟩ := h
    exact short_of_emitElements elements hinner
  | .object members, _, _, h => by
    rw [emit, Option.map_eq_some_iff] at h
    obtain ⟨inner, hinner, -⟩ := h
    exact short_of_emitMembers members hinner

theorem short_of_emitElements : (elements : List Document) → {json json' : Json} →
    emitElements elements json = some json' → ElementStrings Short elements
  | [], _, _, _ => trivial
  | element :: elements, _, _, h => by
    rw [emitElements, Option.bind_eq_some_iff] at h
    obtain ⟨inner, first, rest⟩ := h
    exact ⟨short_of_emit element first, short_of_emitElements elements rest⟩

theorem short_of_emitMembers : (members : List (Bytes × Document)) → {json json' : Json} →
    emitMembers members json = some json' → MemberStrings Short members
  | [], _, _, _ => trivial
  | (key, value) :: members, _, _, h => by
    rw [emitMembers, Option.bind_eq_some_iff] at h
    obtain ⟨inner, first, rest⟩ := h
    rw [Option.bind_eq_some_iff] at first
    obtain ⟨keyed, written, first⟩ := first
    rw [jsonWriteKey, Option.map_eq_some_iff] at written
    obtain ⟨token, made, -⟩ := written
    exact ⟨(jsonMakeString_eq_some.1 made).1, short_of_emit value first,
      short_of_emitMembers members rest⟩

end

theorem emitsDocument_iff {d : Document} (hprint : Strings Printable d) (hdepth : depth d ≤ 4) :
    EmitsDocument d ↔ Single d ∧ Strings Short d := by
  constructor
  · rintro ⟨json, emitted, -, read⟩
    have short := short_of_emit d emitted
    rw [newJson, emit_eq _ _ d short (by simpa using hdepth), Option.some.injEq] at emitted
    obtain rfl := emitted
    exact ⟨(readDocument_emitted hprint).1 read, short⟩
  · rintro ⟨single, short⟩
    have emitted := emit_eq [] [] d short (by simpa using hdepth)
    have same : text [] d = text [comma] d := text_of_single [comma] d single
    refine ⟨_, emitted, same, ?_⟩
    exact (readDocument_emitted hprint).2 single

theorem emitsDocument_links :
    let d := Document.object [([97], .array [.object [([98], .string [34])]]), ([99], .string [])]
    EmitsDocument d := by
  exact (emitsDocument_iff (by simp [Strings, MemberStrings, ElementStrings, Printable])
    (by decide)).2 ⟨by simp [Single, SingleMembers],
      by simp [Strings, MemberStrings, ElementStrings, Short]⟩

theorem two_elements_unread :
    let d := Document.array [.string [97], .string [98]]
    Strings Printable d ∧ depth d ≤ 4 ∧ ¬ EmitsDocument d := by
  refine ⟨by simp [Strings, ElementStrings, Printable], by decide, ?_⟩
  rintro ⟨json, emitted, -, read⟩
  rw [newJson, emit_eq _ _ _ (by simp [Strings, ElementStrings, Short]) (by decide),
    Option.some.injEq] at emitted
  obtain rfl := emitted
  have unread : readDocument [91, quote, 97, quote, quote, 98, quote, 93] = none := rfl
  exact absurd (unread.symm.trans read) (by simp)

end RsServe.JsonDocuments

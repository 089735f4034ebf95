import RsServe.CString

/-! json.c: objects written piece by piece into a buffer. -/

namespace RsServe.JsonWriter
open CString

def quote : UInt8 := 34
def backslash : UInt8 := 92
def comma : UInt8 := 44

/-- The buffer behind `write`, and the stack of nestings without its first cell, which is
never read inside one. A nesting that has begun holds at least one member. -/
structure Json where
  out : Bytes
  nesting : List Bool

def maxDepth : Nat := 5

def newJson (out : Bytes) : Json := ⟨out, []⟩

def Json.write (json : Json) (text : Bytes) : Json := { json with out := json.out ++ text }

/-- JSON_PUSH_NESTING only complains where the stack is full. -/
def Json.push (json : Json) : Json :=
  if json.nesting.length + 1 ≥ maxDepth then json
  else { json with nesting := false :: json.nesting }

def Json.startObject (json : Json) : Json := (json.write [123]).push

def Json.endObject (json : Json) : Json :=
  { json.write [125] with nesting := json.nesting.tail }

/-- The flag of the new nesting is reset once more. -/
def Json.startArray (json : Json) : Json :=
  let json := (json.write [91]).push
  { json with nesting := match json.nesting with
    | _ :: outer => false :: outer
    | [] => [] }

def Json.endArray (json : Json) : Json :=
  { json.write [93] with nesting := json.nesting.tail }

/-- json_make_string escapes quotes and backslashes, no control character. -/
def makeString (string : Bytes) : Bytes :=
  quote :: (string.flatMap fun c => if c = quote ∨ c = backslash then [backslash, c] else [c]) ++
    [quote]

def Json.writeKey (json : Json) (key : Bytes) : Json :=
  let separated := match json.nesting with
    | true :: _ => json.write [comma]
    | false :: outer => { json with nesting := true :: outer }
    | [] => json
  (separated.write (makeString key)).write [colon]

def Json.writeKeyVal (json : Json) (key val : Bytes) : Json :=
  (json.writeKey key).write (makeString val)

def memberText (member : Bytes × Bytes) : Bytes :=
  makeString member.1 ++ colon :: makeString member.2

def writeMembers (json : Json) (members : List (Bytes × Bytes)) : Json :=
  members.foldl (fun json member => json.writeKeyVal member.1 member.2) json

theorem writeKeyVal_first (out : Bytes) (outer : List Bool) (member : Bytes × Bytes) :
    (Json.mk out (false :: outer)).writeKeyVal member.1 member.2 =
      ⟨out ++ memberText member, true :: outer⟩ := by
  simp [Json.writeKeyVal, Json.writeKey, Json.write, memberText]

theorem writeKeyVal_later (out : Bytes) (outer : List Bool) (member : Bytes × Bytes) :
    (Json.mk out (true :: outer)).writeKeyVal member.1 member.2 =
      ⟨out ++ comma :: memberText member, true :: outer⟩ := by
  simp [Json.writeKeyVal, Json.writeKey, Json.write, memberText]

theorem writeMembers_later (out : Bytes) (outer : List Bool) (members : List (Bytes × Bytes)) :
    writeMembers ⟨out, true :: outer⟩ members =
      ⟨out ++ members.flatMap fun member => comma :: memberText member, true :: outer⟩ := by
  unfold writeMembers
  induction members generalizing out with
  | nil => simp
  | cons member members ih =>
    rw [List.foldl_cons, writeKeyVal_later, ih]
    simp

def objectText (members : List (Bytes × Bytes)) : Bytes :=
  123 :: List.intercalate [comma] (members.map memberText) ++ [125]

theorem flatMap_comma (members : List (Bytes × Bytes)) (member : Bytes × Bytes) :
    memberText member ++ members.flatMap (fun member => comma :: memberText member) =
      List.intercalate [comma] ((member :: members).map memberText) := by
  induction members generalizing member with
  | nil => simp [List.intercalate]
  | cons next members ih =>
    have step := ih next
    rw [List.flatMap_cons, List.cons_append, step]
    simp [List.intercalate]

theorem writeMembers_object (out : Bytes) (members : List (Bytes × Bytes)) :
    (writeMembers (newJson out).startObject members).endObject.out =
      out ++ objectText members := by
  have start : (newJson out).startObject = ⟨out ++ [123], [false]⟩ := rfl
  rw [start]
  cases members with
  | nil => simp [writeMembers, Json.endObject, Json.write, objectText, List.intercalate]
  | cons member members =>
    have rest : writeMembers ⟨out ++ [123], [false]⟩ (member :: members) =
        writeMembers ⟨out ++ [123] ++ memberText member, [true]⟩ members := by
      rw [writeMembers, List.foldl_cons, writeKeyVal_first, writeMembers]
    rw [rest, writeMembers_later, objectText, ← flatMap_comma]
    simp [Json.endObject, Json.write]

def unescape (c : UInt8) : Option UInt8 :=
  ([(quote, quote), (backslash, backslash), (slash, slash), (98, 8), (102, 12), (110, 10),
    (114, 13), (116, 9)] : List (UInt8 × UInt8)).lookup c

/-- The string up to its closing quote, and the text behind it; the flag is for a letter
behind a backslash. Control characters must not stand in a string, and of the escapes those
with hexadecimal digits are not read. -/
def readChars : Bool → Bytes → Option (Bytes × Bytes)
  | _, [] => none
  | true, c :: text =>
    match unescape c with
    | none => none
    | some e => (readChars false text).map fun read => (e :: read.1, read.2)
  | false, c :: text =>
    if c = quote then some ([], text)
    else if c = backslash then readChars true text
    else if c < 32 then none
    else (readChars false text).map fun read => (c :: read.1, read.2)

def readString : Bytes → Option (Bytes × Bytes)
  | [] => none
  | c :: text => if c = quote then readChars false text else none

def readMember (text : Bytes) : Option ((Bytes × Bytes) × Bytes) :=
  match readString text with
  | some (key, c :: text) =>
    if c = colon then (readString text).map fun read => ((key, read.1), read.2) else none
  | _ => none

def readMembers : Nat → Bytes → Option (List (Bytes × Bytes))
  | 0, _ => none
  | fuel + 1, text =>
    match readMember text with
    | some (member, c :: text) =>
      if c = comma then (readMembers fuel text).map fun members => member :: members
      else if c = 125 ∧ text = [] then some [member]
      else none
    | _ => none

def readObject (text : Bytes) : Option (List (Bytes × Bytes)) :=
  match text with
  | c :: rest =>
    if c = 123 then if rest = [125] then some [] else readMembers rest.length rest
    else none
  | [] => none

def Printable (s : Bytes) : Prop := ∀ c ∈ s, ¬ c < 32

def escaped (s : Bytes) : Bytes :=
  s.flatMap fun c => if c = quote ∨ c = backslash then [backslash, c] else [c]

theorem makeString_eq (s : Bytes) : makeString s = quote :: escaped s ++ [quote] := rfl

theorem escaped_special {c : UInt8} (h : c = quote ∨ c = backslash) (s : Bytes) :
    escaped (c :: s) = backslash :: c :: escaped s := by
  rw [escaped, List.flatMap_cons, if_pos h]
  rfl

theorem escaped_ordinary {c : UInt8} (h : ¬ (c = quote ∨ c = backslash)) (s : Bytes) :
    escaped (c :: s) = c :: escaped s := by
  rw [escaped, List.flatMap_cons, if_neg h]
  rfl

theorem unescape_special {c : UInt8} (h : c = quote ∨ c = backslash) : unescape c = some c := by
  rcases h with rfl | rfl
  · decide
  · decide

theorem readChars_escaped {s : Bytes} (h : Printable s) (text : Bytes) :
    readChars false (escaped s ++ quote :: text) = some (s, text) := by
  induction s with
  | nil => rfl
  | cons c s ih =>
    have rest := ih fun d hd => h d (by simp [hd])
    have hc : ¬ c < 32 := h c (by simp)
    by_cases hescape : c = quote ∨ c = backslash
    · have other : backslash ≠ quote := by decide
      rw [escaped_special hescape, List.cons_append, List.cons_append, readChars, if_neg other,
        if_pos rfl, readChars, unescape_special hescape]
      simp only [rest, Option.map_some]
    · rw [escaped_ordinary hescape]
      rw [not_or] at hescape
      rw [List.cons_append, readChars, if_neg hescape.1, if_neg hescape.2, if_neg hc, rest,
        Option.map_some]

theorem readString_makeString {s : Bytes} (h : Printable s) (text : Bytes) :
    readString (makeString s ++ text) = some (s, text) := by
  have shape : makeString s ++ text = quote :: (escaped s ++ quote :: text) := by
    simp [makeString_eq]
  rw [shape, readString, if_pos rfl, readChars_escaped h]

theorem readMember_memberText {member : Bytes × Bytes} (hkey : Printable member.1)
    (hval : Printable member.2) (text : Bytes) :
    readMember (memberText member ++ text) = some (member, text) := by
  have shape : memberText member ++ text =
      makeString member.1 ++ colon :: (makeString member.2 ++ text) := by
    simp [memberText]
  rw [shape, readMember, readString_makeString hkey]
  simp only [if_true, readString_makeString hval, Option.map_some]

theorem readMembers_intercalate {members : List (Bytes × Bytes)} {member : Bytes × Bytes}
    (h : ∀ m ∈ member :: members, Printable m.1 ∧ Printable m.2) {fuel : Nat}
    (hfuel : members.length < fuel) :
    readMembers fuel (List.intercalate [comma] ((member :: members).map memberText) ++ [125]) =
      some (member :: members) := by
  induction members generalizing member fuel with
  | nil =>
    cases fuel with
    | zero => simp at hfuel
    | succ fuel =>
      have only := h member (by simp)
      have brace : (125 : UInt8) ≠ comma := by decide
      have shape : List.intercalate [comma] ([member].map memberText) = memberText member := by
        simp [List.intercalate]
      rw [shape, readMembers, readMember_memberText only.1 only.2]
      simp [brace]
  | cons next members ih =>
    cases fuel with
    | zero => simp at hfuel
    | succ fuel =>
      have first := h member (by simp)
      have rest := @ih next (fun m hm => h m (List.mem_cons_of_mem _ hm)) fuel
        (by simpa using hfuel)
      have shape : List.intercalate [comma] ((member :: next :: members).map memberText) ++ [125] =
          memberText member ++
            comma :: (List.intercalate [comma] ((next :: members).map memberText) ++ [125]) := by
        simp [List.intercalate]
      rw [shape, readMembers, readMember_memberText first.1 first.2]
      simp only [if_true, rest, Option.map_some]

theorem length_le_flatMap_comma (members : List (Bytes × Bytes)) :
    members.length ≤ (members.flatMap fun member => comma :: memberText member).length := by
  induction members with
  | nil => simp
  | cons member members ih =>
    rw [List.flatMap_cons, List.length_append, List.length_cons, List.length_cons]
    omega

theorem readObject_objectText {members : List (Bytes × Bytes)}
    (h : ∀ m ∈ members, Printable m.1 ∧ Printable m.2) :
    readObject (objectText members) = some members := by
  cases members with
  | nil => rfl
  | cons member members =>
    have long := length_le_flatMap_comma members
    have nonempty : List.intercalate [comma] ((member :: members).map memberText) ++ [125] ≠
        [125] := by
      rw [← flatMap_comma, memberText, makeString_eq]
      simp
    rw [objectText, List.cons_append, readObject, if_pos rfl, if_neg nonempty]
    refine readMembers_intercalate h ?_
    rw [← flatMap_comma, List.length_append, List.length_append, List.length_singleton]
    omega

end RsServe.JsonWriter

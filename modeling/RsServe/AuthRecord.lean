import Mathlib.Algebra.Group.Int.Defs
import Mathlib.Algebra.Group.Nat.Defs
import RsServe.CString

/-! Authorization records and their byte layout: pack_authorization writes with one
running offset, unpack_authorization finds the fields again by scanning for NUL.
Offsets are `uint32_t`, but read_string keeps two of them in an `int`; both are
natural numbers here, reduced explicitly. A malloc of a non-negative size succeeds. -/

namespace RsServe.AuthRecord
open CString

structure RsScope where
  name : Bytes
  write : UInt8
deriving DecidableEq, Repr

structure RsAuthorization where
  username : Bytes
  token : Bytes
  scopes : List RsScope
deriving DecidableEq, Repr

structure RsAuthorization.NulFree (a : RsAuthorization) : Prop where
  username : CString.NulFree a.username
  token : CString.NulFree a.token
  scopes : ∀ s ∈ a.scopes, CString.NulFree s.name

def u32 (n : Nat) : Nat := n % 2 ^ 32

def asInt (n : Nat) : Int := if u32 n < 2 ^ 31 then (u32 n : Int) else (u32 n : Int) - 2 ^ 32

theorem u32_of_lt {n : Nat} (h : n < 2 ^ 32) : u32 n = n := Nat.mod_eq_of_lt h

theorem asInt_nonneg_iff {n : Nat} (h : n < 2 ^ 32) : 0 ≤ asInt n ↔ n < 2 ^ 31 := by
  unfold asInt
  rw [u32_of_lt h]
  split <;> omega

def le32 (n : Nat) : Bytes :=
  [UInt8.ofNat n, UInt8.ofNat (n / 2 ^ 8), UInt8.ofNat (n / 2 ^ 16), UInt8.ofNat (n / 2 ^ 24)]

def le32Value (b : Bytes) : Nat :=
  b.foldr (fun c high => c.toNat + 2 ^ 8 * high) 0

@[simp] theorem le32_length (n : Nat) : (le32 n).length = 4 := rfl

theorem le32Value_le32 {n : Nat} (h : n < 2 ^ 32) : le32Value (le32 n) = n := by
  simp only [le32, le32Value, List.foldr_cons, List.foldr_nil, UInt8.toNat_ofNat']
  omega

def packSize (src : RsAuthorization) : Nat :=
  u32 (src.scopes.foldl (fun size s => u32 (size + (s.name.length + 2)))
    (u32 (src.username.length + 1 + src.token.length + 1)) + 4)

def memcpy (data : Bytes) (offset : Nat) (src : Bytes) : Option Bytes :=
  if offset + src.length ≤ data.length then
    some (data.take offset ++ src ++ data.drop (offset + src.length))
  else none

/-- One memcpy at the running offset, which then moves on. -/
def putField (st : Bytes × Nat) (field : Bytes) : Option (Bytes × Nat) := do
  let data ← memcpy st.1 st.2 field
  return (data, u32 (st.2 + field.length))

def putScope (st : Bytes × Nat) (s : RsScope) : Option (Bytes × Nat) := do
  let st ← putField st (s.name ++ [0])
  putField st [s.write]

/-- The packed bytes; none when a copy leaves the buffer or the assertion
`offset == size` fails. The buffer's first contents do not matter. -/
def packAuthorization (src : RsAuthorization) : Option Bytes := do
  let size := packSize src
  let st ← putField (List.replicate size 0, 0) (src.username ++ [0])
  let st ← putField st (src.token ++ [0])
  let st ← putField st (le32 (u32 src.scopes.length))
  let st ← src.scopes.foldlM putScope st
  if st.2 = size then return st.1 else none

inductive StringRead where
  | string (s : Bytes) (offset : Nat)
  | null (offset : Nat)
  | outOfBounds
deriving DecidableEq

def readString (source : Bytes) (offset : Nat) : StringRead :=
  let savedOffset := asInt offset
  match (source.drop offset).findIdx? (· = 0) with
  | none => .null (max offset source.length)
  | some len =>
    if 0 ≤ asInt (len + 1) then
      if 0 ≤ savedOffset then
        .string ((source.drop savedOffset.toNat).take len) (offset + len + 1)
      else .outOfBounds
    else .null offset

structure RawScope where
  /-- NULL when no terminator was found; the caller does not check. -/
  name : Option Bytes
  write : UInt8
deriving DecidableEq

structure RawAuthorization where
  username : Bytes
  token : Bytes
  scopes : List RawScope
deriving DecidableEq

inductive ScopesRead where
  | scopes (read : List RawScope) (offset : Nat)
  | outOfBounds
deriving DecidableEq

def ScopesRead.push (s : RawScope) : ScopesRead → ScopesRead
  | .scopes read offset => .scopes (s :: read) offset
  | .outOfBounds => .outOfBounds

def readWrite (data : Bytes) (name : Option Bytes) (offset : Nat)
    (next : Nat → ScopesRead) : ScopesRead :=
  match data[offset]? with
  | none => .outOfBounds
  | some write => (next (offset + 1)).push ⟨name, write⟩

def readScopes (data : Bytes) : (count offset : Nat) → ScopesRead
  | 0, offset => .scopes [] offset
  | count + 1, offset =>
    match readString data offset with
    | .string s offset => readWrite data (some s) offset (readScopes data count)
    | .null offset => readWrite data none offset (readScopes data count)
    | .outOfBounds => .outOfBounds

inductive Unpacked where
  | success (dest : RawAuthorization) (offset : Nat)
  | failure (code : Int)
  | outOfBounds
deriving DecidableEq

def unpackAuthorization (data : Bytes) : Unpacked :=
  match readString data 0 with
  | .outOfBounds => .outOfBounds
  | .null _ => .failure 1
  | .string username offset =>
    match readString data offset with
    | .outOfBounds => .outOfBounds
    | .null _ => .failure 1
    | .string token offset =>
      if offset + 4 ≤ data.length then
        match readScopes data (le32Value ((data.drop offset).take 4)) (offset + 4) with
        | .scopes scopes offset => .success ⟨username, token, scopes⟩ offset
        | .outOfBounds => .outOfBounds
      else .outOfBounds

def RsScope.raw (s : RsScope) : RawScope := ⟨some s.name, s.write⟩

def RsAuthorization.raw (a : RsAuthorization) : RawAuthorization :=
  ⟨a.username, a.token, a.scopes.map RsScope.raw⟩

def scopeBytes (s : RsScope) : Bytes := s.name ++ 0 :: [s.write]

def layout (a : RsAuthorization) : Bytes :=
  a.username ++ 0 :: (a.token ++ 0 :: (le32 a.scopes.length ++ a.scopes.flatMap scopeBytes))

def scopeSpans : Nat → List RsScope → List (Nat × Nat)
  | _, [] => []
  | offset, s :: scopes =>
    (offset, s.name.length) :: scopeSpans (offset + (s.name.length + 2)) scopes

def spans (a : RsAuthorization) : List (Nat × Nat) :=
  (0, a.username.length) :: (a.username.length + 1, a.token.length) ::
    scopeSpans (a.username.length + 1 + a.token.length + 1 + 4) a.scopes

/-- A string that read_string carries: its start and its size with the NUL are ints. -/
def InRange (span : Nat × Nat) : Prop := span.1 < 2 ^ 31 ∧ span.2 + 1 < 2 ^ 31

def Carried (a : RsAuthorization) : Prop := ∀ span ∈ spans a, InRange span

def RoundTrips (a : RsAuthorization) : Prop :=
  ∃ data, packAuthorization a = some data ∧
    unpackAuthorization data = .success a.raw data.length

theorem packSize_scopes (scopes : List RsScope) (size : Nat)
    (h : size + (scopes.flatMap scopeBytes).length < 2 ^ 32) :
    scopes.foldl (fun size s => u32 (size + (s.name.length + 2))) size =
      size + (scopes.flatMap scopeBytes).length := by
  induction scopes generalizing size with
  | nil => simp
  | cons s scopes ih =>
    simp only [List.flatMap_cons, List.length_append, scopeBytes, List.length_cons,
      List.length_nil] at h ⊢
    rw [List.foldl_cons, u32_of_lt (by omega), ih _ (by omega)]
    omega

theorem packSize_eq {a : RsAuthorization} (h : (layout a).length < 2 ^ 32) :
    packSize a = (layout a).length := by
  simp only [layout, List.length_append, List.length_cons, le32_length] at h ⊢
  have hsize : u32 (a.username.length + 1 + a.token.length + 1) =
      a.username.length + 1 + a.token.length + 1 := u32_of_lt (by omega)
  rw [packSize, hsize, packSize_scopes _ _ (by omega), u32_of_lt (by omega)]
  omega

theorem putField_filled (done field free : Bytes) (hfree : field.length ≤ free.length)
    (hsize : done.length + field.length < 2 ^ 32) :
    putField (done ++ free, done.length) field =
      some (done ++ field ++ free.drop field.length, (done ++ field).length) := by
  have room : done.length + field.length ≤ (done ++ free).length := by
    rw [List.length_append]
    omega
  have copied : memcpy (done ++ free) done.length field =
      some (done ++ field ++ free.drop field.length) := by
    rw [memcpy, if_pos room, List.take_left, List.drop_length_add_append]
  simp only [putField, copied, Option.bind_eq_bind, Option.bind_some, Option.pure_def,
    u32_of_lt hsize, List.length_append]

theorem scopeBytes_length (s : RsScope) : (scopeBytes s).length = s.name.length + 2 := by
  simp [scopeBytes]

def fields (a : RsAuthorization) : List Bytes :=
  (a.username ++ [0]) :: (a.token ++ [0]) :: le32 (u32 a.scopes.length) ::
    a.scopes.flatMap fun s => [s.name ++ [0], [s.write]]

theorem putFields_filled (fields : List Bytes) (done free : Bytes)
    (hfree : fields.flatten.length ≤ free.length)
    (hsize : done.length + fields.flatten.length < 2 ^ 32) :
    fields.foldlM putField (done ++ free, done.length) =
      some (done ++ fields.flatten ++ free.drop fields.flatten.length,
        (done ++ fields.flatten).length) := by
  induction fields generalizing done free with
  | nil => simp
  | cons field fields ih =>
    rw [List.flatten_cons, List.length_append] at hfree hsize
    have step := putField_filled done field free (by omega) (by omega)
    have rest := ih (done ++ field) (free.drop field.length)
      (by rw [List.length_drop]; omega) (by rw [List.length_append]; omega)
    rw [List.foldlM_cons, step, Option.bind_eq_bind, Option.bind_some, rest]
    simp only [List.flatten_cons, List.append_assoc, List.drop_drop, List.length_append]

theorem putScopes_eq (scopes : List RsScope) (st : Bytes × Nat) :
    scopes.foldlM putScope st =
      (scopes.flatMap fun s => [s.name ++ [0], [s.write]]).foldlM putField st := by
  induction scopes generalizing st with
  | nil => rfl
  | cons s scopes ih =>
    simp only [List.foldlM_cons, List.flatMap_cons, List.foldlM_append, putScope, ih,
      List.foldlM_nil, Option.bind_eq_bind, Option.pure_def, Option.bind_some, Option.bind_assoc]

theorem length_le_flatMap_scopeBytes (scopes : List RsScope) :
    scopes.length ≤ (scopes.flatMap scopeBytes).length := by
  induction scopes with
  | nil => simp
  | cons s scopes ih =>
    rw [List.flatMap_cons, List.length_append, List.length_cons, scopeBytes_length]
    omega

theorem length_scopes_lt {a : RsAuthorization} (h : (layout a).length < 2 ^ 32) :
    a.scopes.length < 2 ^ 32 := by
  have := length_le_flatMap_scopeBytes a.scopes
  simp only [layout, List.length_append, List.length_cons] at h
  omega

theorem scopeFields_flatten (scopes : List RsScope) :
    (scopes.flatMap fun s => [s.name ++ [0], [s.write]]).flatten =
      scopes.flatMap scopeBytes := by
  induction scopes with
  | nil => rfl
  | cons s scopes ih => simp [scopeBytes, ih]

theorem fields_flatten {a : RsAuthorization} (h : (layout a).length < 2 ^ 32) :
    (fields a).flatten = layout a := by
  simp [fields, layout, scopeFields_flatten, u32_of_lt (length_scopes_lt h)]

theorem packAuthorization_fields (a : RsAuthorization) :
    packAuthorization a =
      ((fields a).foldlM putField (List.replicate (packSize a) 0, 0)).bind fun st =>
        if st.2 = packSize a then some st.1 else none := by
  simp only [packAuthorization, fields, List.foldlM_cons, putScopes_eq, Option.bind_eq_bind,
    Option.bind_assoc, Option.pure_def]

theorem packAuthorization_eq {a : RsAuthorization} (h : (layout a).length < 2 ^ 32) :
    packAuthorization a = some (layout a) := by
  have flat := fields_flatten h
  have filled := putFields_filled (fields a) [] (List.replicate (layout a).length 0)
    (by rw [flat, List.length_replicate]) (by rw [flat, List.length_nil]; omega)
  rw [flat, List.nil_append, List.nil_append, List.length_nil, List.drop_replicate,
    Nat.sub_self, List.replicate_zero, List.append_nil] at filled
  rw [packAuthorization_fields, packSize_eq h, filled, Option.bind_some, if_pos rfl]

theorem putFields_fit (fields : List Bytes) {data : Bytes} {offset : Nat} {st : Bytes × Nat}
    (hdata : data.length < 2 ^ 32) (hoffset : offset ≤ data.length)
    (h : fields.foldlM putField (data, offset) = some st) :
    offset + fields.flatten.length ≤ data.length := by
  induction fields generalizing data offset with
  | nil => simpa using hoffset
  | cons field fields ih =>
    by_cases room : offset + field.length ≤ data.length
    · have copied : (data.take offset ++ field ++ data.drop (offset + field.length)).length =
          data.length := by
        simp only [List.length_append, List.length_take, List.length_drop]
        omega
      have step : putField (data, offset) field =
          some (data.take offset ++ field ++ data.drop (offset + field.length),
            offset + field.length) := by
        simp only [putField, memcpy, if_pos room, Option.bind_eq_bind, Option.bind_some,
          Option.pure_def, u32_of_lt (show offset + field.length < 2 ^ 32 by omega)]
      rw [List.foldlM_cons, step, Option.bind_eq_bind, Option.bind_some] at h
      have rest := ih (by rw [copied]; exact hdata) (by rw [copied]; exact room) h
      rw [copied] at rest
      rw [List.flatten_cons, List.length_append]
      omega
    · rw [List.foldlM_cons, putField, memcpy, if_neg room] at h
      simp at h

theorem layout_lt_of_packed {a : RsAuthorization} {data : Bytes}
    (h : packAuthorization a = some data) : (layout a).length < 2 ^ 32 := by
  have size : packSize a < 2 ^ 32 := Nat.mod_lt _ (by decide)
  rw [packAuthorization_fields, Option.bind_eq_some_iff] at h
  cases h with
  | intro st hst =>
    have fit := putFields_fit (fields a) (by rw [List.length_replicate]; exact size)
      (Nat.zero_le _) hst.1
    simp only [fields, List.flatten_cons, scopeFields_flatten, List.length_append, le32_length,
      List.length_replicate, List.length_cons, List.length_nil] at fit
    simp only [layout, List.length_append, List.length_cons, le32_length]
    omega

theorem findIdx_nul {s : Bytes} (hs : NulFree s) (post : Bytes) :
    (s ++ 0 :: post).findIdx? (· = 0) = some s.length := by
  induction s with
  | nil => rfl
  | cons c s ih =>
    have hc : c ≠ 0 := fun h0 => hs (by simp [h0])
    have htail : NulFree s := fun h0 => hs (by simp [h0])
    rw [List.cons_append, List.findIdx?_cons, if_neg (by simpa using hc), ih htail]
    rfl

theorem readString_at (pre : Bytes) {s post : Bytes} (hs : NulFree s)
    (hsize : (pre ++ (s ++ 0 :: post)).length < 2 ^ 32) :
    readString (pre ++ (s ++ 0 :: post)) pre.length =
      if s.length + 1 < 2 ^ 31 then
        if pre.length < 2 ^ 31 then .string s (pre.length + s.length + 1) else .outOfBounds
      else .null pre.length := by
  simp only [List.length_append, List.length_cons] at hsize
  unfold readString
  rw [List.drop_left, findIdx_nul hs]
  simp only [asInt_nonneg_iff (show s.length + 1 < 2 ^ 32 by omega),
    asInt_nonneg_iff (show pre.length < 2 ^ 32 by omega)]
  by_cases hlen : s.length + 1 < 2 ^ 31
  · by_cases hpre : pre.length < 2 ^ 31
    · have start : (asInt pre.length).toNat = pre.length := by
        unfold asInt
        rw [u32_of_lt (by omega), if_pos hpre, Int.toNat_natCast]
      rw [if_pos hlen, if_pos hpre, if_pos hlen, if_pos hpre, start, List.drop_left,
        List.take_left]
    · rw [if_pos hlen, if_neg hpre, if_pos hlen, if_neg hpre]
  · rw [if_neg hlen, if_neg hlen]

theorem readString_carried (pre : Bytes) {s post : Bytes} (hs : NulFree s)
    (hsize : (pre ++ (s ++ 0 :: post)).length < 2 ^ 32) (h : InRange (pre.length, s.length)) :
    readString (pre ++ (s ++ 0 :: post)) pre.length =
      .string s (pre.length + s.length + 1) := by
  rw [readString_at pre hs hsize, if_pos h.2, if_pos h.1]

theorem readString_lost (pre : Bytes) {s post : Bytes} (hs : NulFree s)
    (hsize : (pre ++ (s ++ 0 :: post)).length < 2 ^ 32) (h : ¬ InRange (pre.length, s.length)) :
    (∃ offset, readString (pre ++ (s ++ 0 :: post)) pre.length = .null offset) ∨
      readString (pre ++ (s ++ 0 :: post)) pre.length = .outOfBounds := by
  rw [readString_at pre hs hsize]
  by_cases hlen : s.length + 1 < 2 ^ 31
  · have hpre : ¬ pre.length < 2 ^ 31 := fun hpre => h ⟨hpre, hlen⟩
    rw [if_pos hlen, if_neg hpre]
    exact Or.inr rfl
  · rw [if_neg hlen]
    exact Or.inl ⟨_, rfl⟩

theorem push_eq_scopes {s s' : RawScope} {r : ScopesRead} {read : List RawScope} {offset : Nat} :
    r.push s = .scopes (s' :: read) offset ↔ s = s' ∧ r = .scopes read offset := by
  cases r with
  | scopes read' offset' => simp [ScopesRead.push, and_assoc]
  | outOfBounds => simp [ScopesRead.push]

theorem readWrite_eq_scopes {data : Bytes} {name : Option Bytes} {offset : Nat}
    {next : Nat → ScopesRead} {s : RawScope} {read : List RawScope} {last : Nat}
    (h : readWrite data name offset next = .scopes (s :: read) last) : s.name = name := by
  unfold readWrite at h
  split at h
  · simp at h
  · exact (congrArg RawScope.name (push_eq_scopes.1 h).1).symm

theorem readScopes_iff (scopes : List RsScope) (pre : Bytes)
    (hscopes : ∀ s ∈ scopes, CString.NulFree s.name)
    (hsize : (pre ++ scopes.flatMap scopeBytes).length < 2 ^ 32) (last : Nat) :
    readScopes (pre ++ scopes.flatMap scopeBytes) scopes.length pre.length =
        .scopes (scopes.map RsScope.raw) last ↔
      (∀ span ∈ scopeSpans pre.length scopes, InRange span) ∧
        last = (pre ++ scopes.flatMap scopeBytes).length := by
  induction scopes generalizing pre with
  | nil => simp [readScopes, scopeSpans, eq_comm]
  | cons s scopes ih =>
    have hs := hscopes s (by simp)
    have split : pre ++ (s :: scopes).flatMap scopeBytes =
        pre ++ (s.name ++ 0 :: (s.write :: scopes.flatMap scopeBytes)) := by
      simp [scopeBytes]
    have step : pre ++ (s :: scopes).flatMap scopeBytes =
        (pre ++ scopeBytes s) ++ scopes.flatMap scopeBytes := by
      simp
    have hstep : (pre ++ scopeBytes s).length = pre.length + (s.name.length + 2) := by
      rw [List.length_append, scopeBytes_length]
    have write : (pre ++ (s :: scopes).flatMap scopeBytes)[pre.length + s.name.length + 1]? =
        some s.write := by
      rw [split, List.getElem?_append_right (by omega), List.getElem?_append_right (by omega)]
      rw [show pre.length + s.name.length + 1 - pre.length - s.name.length = 1 by omega]
      rfl
    rw [scopeSpans, List.forall_mem_cons, List.length_cons, List.map_cons, readScopes]
    by_cases here : InRange (pre.length, s.name.length)
    · rw [split, readString_carried pre hs (split ▸ hsize) here, ← split]
      simp only [readWrite, write, push_eq_scopes]
      have rest := ih (pre ++ scopeBytes s) (fun s' h => hscopes s' (by simp [h]))
        (step ▸ hsize)
      rw [hstep] at rest
      rw [step, show pre.length + s.name.length + 1 + 1 = pre.length + (s.name.length + 2) by omega,
        rest]
      simp [here, RsScope.raw]
    · have lost := readString_lost pre hs (split ▸ hsize) here
      rw [← split] at lost
      refine ⟨fun h => ?_, fun h => absurd h.1.1 here⟩
      rcases lost with ⟨offset, lost⟩ | lost
      · rw [lost] at h
        exact absurd (readWrite_eq_scopes h) (by simp [RsScope.raw])
      · rw [lost] at h
        simp at h

def header (a : RsAuthorization) : Bytes :=
  a.username ++ 0 :: (a.token ++ 0 :: le32 a.scopes.length)

theorem header_length (a : RsAuthorization) :
    (header a).length = a.username.length + 1 + a.token.length + 1 + 4 := by
  simp only [header, List.length_append, List.length_cons, le32_length]
  omega

theorem layout_header (a : RsAuthorization) :
    layout a = header a ++ a.scopes.flatMap scopeBytes := by
  simp [layout, header]

theorem layout_token (a : RsAuthorization) :
    layout a = (a.username ++ [0]) ++
      (a.token ++ 0 :: (le32 a.scopes.length ++ a.scopes.flatMap scopeBytes)) := by
  simp [layout]

theorem layout_count (a : RsAuthorization) :
    ((layout a).drop (a.username.length + 1 + a.token.length + 1)).take 4 =
      le32 a.scopes.length := by
  have split : layout a = (a.username ++ 0 :: (a.token ++ [0])) ++
      (le32 a.scopes.length ++ a.scopes.flatMap scopeBytes) := by
    simp [layout]
  have here : a.username.length + 1 + a.token.length + 1 =
      (a.username ++ 0 :: (a.token ++ [0])).length := by
    simp only [List.length_append, List.length_cons, List.length_nil]
    omega
  rw [split, here, List.drop_left, List.take_left' (le32_length _)]

theorem unpackAuthorization_layout {a : RsAuthorization} (ha : a.NulFree)
    (h : (layout a).length < 2 ^ 32) (last : Nat) :
    unpackAuthorization (layout a) = .success a.raw last ↔
      Carried a ∧ last = (layout a).length := by
  rw [Carried, spans, List.forall_mem_cons, List.forall_mem_cons]
  have start : layout a = [] ++ (a.username ++ 0 ::
      (a.token ++ 0 :: (le32 a.scopes.length ++ a.scopes.flatMap scopeBytes))) := rfl
  by_cases huser : InRange (0, a.username.length)
  · have username := readString_carried [] ha.username (start ▸ h) huser
    rw [← start, List.length_nil, Nat.zero_add] at username
    have next : (a.username ++ [0]).length = a.username.length + 1 := by simp
    by_cases htoken : InRange (a.username.length + 1, a.token.length)
    · have token := readString_carried _ ha.token (layout_token a ▸ h) (next ▸ htoken)
      rw [← layout_token, next] at token
      have room : a.username.length + 1 + a.token.length + 1 + 4 ≤ (layout a).length := by
        rw [layout_header, List.length_append, header_length]
        omega
      have scopes := readScopes_iff a.scopes (header a) ha.scopes (layout_header a ▸ h) last
      rw [← layout_header, header_length] at scopes
      rw [and_assoc, and_assoc, ← scopes]
      simp only [unpackAuthorization, username, token, if_pos room, layout_count,
        le32Value_le32 (length_scopes_lt h)]
      cases readScopes (layout a) a.scopes.length
          (a.username.length + 1 + a.token.length + 1 + 4) with
      | outOfBounds => simp
      | scopes read offset => simp [RsAuthorization.raw, huser, htoken]
    · have lost := readString_lost _ ha.token (layout_token a ▸ h) (next ▸ htoken)
      rw [← layout_token, next] at lost
      rcases lost with ⟨offset, lost⟩ | lost
      · simp [unpackAuthorization, username, lost, htoken]
      · simp [unpackAuthorization, username, lost, htoken]
  · have lost := readString_lost [] ha.username (start ▸ h) huser
    rw [← start, List.length_nil] at lost
    rcases lost with ⟨offset, lost⟩ | lost
    · simp [unpackAuthorization, lost, huser]
    · simp [unpackAuthorization, lost, huser]

/-- A record survives its byte layout exactly when read_string carries each of its
strings. -/
theorem roundTrips_iff (a : RsAuthorization) (ha : a.NulFree)
    (hsize : (layout a).length < 2 ^ 32) : RoundTrips a ↔ Carried a := by
  have unpacked := unpackAuthorization_layout ha hsize (layout a).length
  rw [RoundTrips, packAuthorization_eq hsize]
  constructor
  · intro h
    cases h with
    | intro data hdata =>
      have same : layout a = data := Option.some_inj.1 hdata.1
      rw [← same] at hdata
      exact (unpacked.1 hdata.2).1
  · intro h
    exact ⟨layout a, rfl, unpacked.2 ⟨h, rfl⟩⟩

def sample : RsAuthorization := ⟨str "me", str "token", [⟨str "a", 1⟩, ⟨[], 0⟩]⟩

theorem roundTrips_iff_sample : RoundTrips sample ↔ Carried sample :=
  roundTrips_iff sample ⟨by decide, by decide, by decide⟩ (by decide)

def named (n : Nat) : RsAuthorization := ⟨List.replicate n 97, [], []⟩

theorem named_nulFree (n : Nat) : (named n).NulFree := by
  refine ⟨fun h => ?_, by simp [named, CString.NulFree], by simp [named]⟩
  exact absurd (List.eq_of_mem_replicate h) (by decide)

theorem layout_named (n : Nat) : (layout (named n)).length = n + 6 := by
  rw [layout_header, List.length_append, header_length]
  simp [named]

theorem named_lost {n : Nat} (hlong : 2 ^ 31 ≤ n + 1) (hsize : n + 6 < 2 ^ 32) :
    ¬ RoundTrips (named n) := by
  intro h
  cases h with
  | intro data hdata =>
    have size : (layout (named n)).length < 2 ^ 32 := by
      rw [layout_named]
      exact hsize
    have same : layout (named n) = data :=
      Option.some_inj.1 ((packAuthorization_eq size).symm.trans hdata.1)
    have carried := (unpackAuthorization_layout (named_nulFree n) size _).1 (same ▸ hdata.2)
    have short := (carried.1 (0, (named n).username.length) (by simp [spans])).2
    simp only [named, List.length_replicate] at short
    omega

theorem named_two_gib_lost :
    (named (2 ^ 31)).NulFree ∧ (layout (named (2 ^ 31))).length < 2 ^ 32 ∧
      ¬ RoundTrips (named (2 ^ 31)) := by
  have size : (layout (named (2 ^ 31))).length < 2 ^ 32 := by
    rw [layout_named]
    omega
  exact ⟨named_nulFree _, size, named_lost (by omega) (by omega)⟩

end RsServe.AuthRecord

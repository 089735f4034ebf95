import RsServe.Kernel
import RsServe.PatternDeletion

/-! attributes.c: content types and versions kept in extended attributes. -/

namespace RsServe.Attributes
open CString NameTree Kernel

/-- The loop over the growing buffer. An attribute that is there but empty leaves errno
as it was, and ends in NULL whatever that is. The NUL after a value that fills the buffer
lies in the slack of the allocation. -/
def getXattrLoop (attr : Option Bytes) : List Nat → Option Bytes
  | [] => none
  | len :: lens =>
    match attr with
    | none => none
    | some value =>
      if value.length ≤ len then (if value = [] then none else some (cstr value))
      else getXattrLoop attr lens

/-- The buffer has 32 bytes, then 48, and so on up to maxlen. -/
def getXattr (attr : Option Bytes) (maxlen : Nat) : Option Bytes :=
  getXattrLoop attr (List.range' 32 ((maxlen - 16) / 16) 16)

theorem getXattr_eq_some {attr : Option Bytes} {cached : Bytes} :
    getXattr attr 41 = some cached ↔
      ∃ value, attr = some value ∧ value.length ≤ 32 ∧ value ≠ [] ∧ cached = cstr value := by
  have hlens : List.range' 32 ((41 - 16) / 16) 16 = [32] := by decide
  rw [getXattr, hlens]
  cases attr with
  | none => simp [getXattrLoop]
  | some value =>
    by_cases hfits : value.length ≤ 32
    · by_cases hempty : value = []
      · simp [getXattrLoop, hempty]
      · simp [getXattrLoop, hfits, hempty, eq_comm]
    · simp [getXattrLoop, hfits]

theorem length_getXattr {attr : Option Bytes} {cached : Bytes}
    (h : getXattr attr 41 = some cached) : cached.length ≤ 32 := by
  obtain ⟨value, -, hfits, -, rfl⟩ := getXattr_eq_some.1 h
  exact ((List.takeWhile_sublist _).length_le).trans hfits

def semicolon : UInt8 := 59

def defaultContentType : Bytes := str "application/octet-stream; charset=binary"

/-- The two calls of strtok_r: the media type, and what follows its semicolon. -/
def mediaType (contentType : Bytes) : Option (Bytes × Bytes) :=
  let text := contentType.dropWhile (· = semicolon)
  if text = [] then none
  else some (text.takeWhile (· ≠ semicolon), (text.dropWhile (· ≠ semicolon)).drop 1)

def charsetIn (rest : Bytes) : Option Bytes :=
  (PatternDeletion.firstAt (str "charset=") rest).map fun i => rest.drop (i + 8)

/-- Both values are stored with their NUL; there is no result where the media type is
NULL when its length is taken. -/
def contentTypeToXattr (contentType : Bytes) : Option (Xattrs → Xattrs) :=
  match mediaType contentType with
  | none => none
  | some (mimeType, rest) =>
    let charset := (charsetIn rest).getD (str "UTF-8")
    some fun x => { x with mimeType := some (mimeType ++ [0]), charset := some (charset ++ [0]) }

def contentTypeFromXattr (x : Xattrs) : Option Bytes :=
  match getXattr x.mimeType 128 with
  | none => none
  | some mimeType =>
    match getXattr x.charset 64 with
    | none => some mimeType
    | some charset => some (mimeType ++ str "; charset=" ++ charset)

theorem mediaType_eq_none {contentType : Bytes} :
    mediaType contentType = none ↔ ∀ c ∈ contentType, c = semicolon := by
  have all : contentType.dropWhile (· = semicolon) = [] ↔ ∀ c ∈ contentType, c = semicolon := by
    simp
  unfold mediaType
  rw [← all]
  by_cases h : contentType.dropWhile (· = semicolon) = []
  · simp only [h, if_true]
  · simp only [h, if_false, iff_false]
    exact Option.some_ne_none _

theorem contentTypeToXattr_etag {contentType : Bytes} {f : Xattrs → Xattrs}
    (h : contentTypeToXattr contentType = some f) (x : Xattrs) : (f x).etag = x.etag := by
  unfold contentTypeToXattr at h
  cases hmedia : mediaType contentType with
  | none => simp [hmedia] at h
  | some parts =>
    simp only [hmedia, Option.some.injEq] at h
    rw [← h]

def kindXattrs : Stat → Xattrs
  | .leaf f => f.xattrs
  | .branch x => x

def hexDigit (n : Nat) : UInt8 := (if n < 10 then 48 + n else 87 + n).toUInt8

/-- sprintf with "%02x" for every byte -/
def hexString (digest : Bytes) : Bytes :=
  digest.flatMap fun b => [hexDigit (b.toNat / 16), hexDigit (b.toNat % 16)]

variable (sha1 : Bytes → Bytes)

def version (content : Bytes) : Bytes := hexString (sha1 content)

mutual

/-- The version of a node, and the node with the versions that were computed on the way
in user.etag. -/
def etagNode : Node → Bytes × Node
  | .leaf f =>
    match getXattr f.xattrs.etag 41 with
    | some cached => (cached, .leaf f)
    | none =>
      let etag := version sha1 f.content
      (etag, .leaf { f with xattrs := { f.xattrs with etag := some etag } })
  | .branch entries x =>
    match getXattr x.etag 41 with
    | some cached => (cached, .branch entries x)
    | none =>
      let children := etagEntries entries
      let etag := version sha1 children.1
      (etag, .branch children.2 { x with etag := some etag })

/-- Of every child 40 bytes are hashed. Zeros stand for what lies behind a shorter
version, one that was found in the attribute. -/
def etagEntries : List (Bytes × Node) → Bytes × List (Bytes × Node)
  | [] => ([], [])
  | (name, child) :: entries =>
    let first := etagNode child
    let others := etagEntries entries
    ((first.1 ++ List.replicate 40 0).take 40 ++ others.1, (name, first.2) :: others.2)

end

theorem etagNode_cases (sha1 : Bytes → Bytes) (n : Node) :
    getXattr (kindXattrs n.kind).etag 41 = some (etagNode sha1 n).1 ∨
      ∃ m, (etagNode sha1 n).1 = version sha1 m := by
  cases n with
  | leaf f =>
    rw [etagNode, Tree.kind, kindXattrs]
    cases getXattr f.xattrs.etag 41 with
    | some cached => exact Or.inl rfl
    | none => exact Or.inr ⟨_, rfl⟩
  | branch entries x =>
    rw [etagNode, Tree.kind, kindXattrs]
    cases getXattr x.etag 41 with
    | some cached => exact Or.inl rfl
    | none => exact Or.inr ⟨_, rfl⟩

/-- NULL only where the path cannot be opened. -/
def getEtag (tree : Node) (path : Bytes) : Option (Bytes × Node) :=
  match namei tree path with
  | .error _ => none
  | .ok loc =>
    match tree.get? loc with
    | none => none
    | some n => some ((etagNode sha1 n).1, tree.modify (fun _ => (etagNode sha1 n).2) loc)

variable {sha1}

theorem lookup_etagEntries (entries : List (Bytes × Node)) (name : Bytes) :
    (etagEntries sha1 entries).2.lookup name =
      (entries.lookup name).map fun child => (etagNode sha1 child).2 := by
  induction entries with
  | nil => rfl
  | cons entry entries ih =>
    rw [etagEntries, AssocList.lookup_cons_eq, AssocList.lookup_cons_eq, ih]
    by_cases h : name = entry.1
    · rw [if_pos h, if_pos h, Option.map_some]
    · rw [if_neg h, if_neg h]

theorem getEtag_ne_none (sha1 : Bytes → Bytes) {tree : Node} {path : Bytes} {kind : Stat}
    (h : stat tree path = .ok kind) : ∃ r, getEtag sha1 tree path = some r := by
  obtain ⟨loc, hnamei, hlook⟩ := stat_eq_ok.1 h
  rw [Tree.look, Option.map_eq_some_iff] at hlook
  obtain ⟨n, hn, -⟩ := hlook
  refine ⟨((etagNode sha1 n).1, tree.modify (fun _ => (etagNode sha1 n).2) loc), ?_⟩
  simp only [getEtag, hnamei, hn]

theorem getEtag_eq_some {tree : Node} {path : Bytes} {r : Bytes × Node}
    (h : getEtag sha1 tree path = some r) :
    ∃ loc n, namei tree path = .ok loc ∧ tree.get? loc = some n ∧
      r = ((etagNode sha1 n).1, tree.modify (fun _ => (etagNode sha1 n).2) loc) := by
  unfold getEtag at h
  cases hnamei : namei tree path with
  | error e => simp [hnamei] at h
  | ok loc =>
    cases hn : tree.get? loc with
    | none => simp [hnamei, hn] at h
    | some n =>
      simp only [hnamei, hn, Option.some.injEq] at h
      exact ⟨loc, n, rfl, hn, h.symm⟩

theorem getEtag_of_namei (sha1 : Bytes → Bytes) {tree : Node} {path path' : Bytes}
    (h : namei tree path = namei tree path') : getEtag sha1 tree path = getEtag sha1 tree path' := by
  unfold getEtag
  rw [h]

theorem getEtag_eq_none {tree : Node} {path : Bytes} :
    getEtag sha1 tree path = none ↔ viewAt tree path = none := by
  rw [viewAt_eq_none]
  constructor
  · intro h
    cases hstat : stat tree path with
    | error e => exact ⟨e, rfl⟩
    | ok kind =>
      obtain ⟨r, hr⟩ := getEtag_ne_none sha1 hstat
      simp [h] at hr
  · intro h
    cases hetag : getEtag sha1 tree path with
    | none => rfl
    | some r =>
      obtain ⟨loc, n, hnamei, hn, -⟩ := getEtag_eq_some hetag
      have found : stat tree path = .ok n.kind :=
        stat_eq_ok.2 ⟨loc, hnamei, by rw [Tree.look, hn]; rfl⟩
      simp [found] at h

theorem etagNode_branch (sha1 : Bytes → Bytes) (entries : List (Bytes × Node)) (x : Xattrs) :
    (∃ y, (etagNode sha1 (.branch entries x)).2 = .branch (etagEntries sha1 entries).2 y) ∨
      (etagNode sha1 (.branch entries x)).2 = .branch entries x := by
  rw [etagNode]
  cases getXattr x.etag 41 with
  | none => exact Or.inl ⟨_, rfl⟩
  | some cached => exact Or.inr rfl

theorem plain_etagNode (n : Node) : plain (etagNode sha1 n).2 = plain n := by
  funext q
  induction q generalizing n with
  | nil =>
    cases n with
    | leaf f =>
      rw [etagNode]
      cases getXattr f.xattrs.etag 41 <;> rfl
    | branch entries x =>
      rcases etagNode_branch sha1 entries x with ⟨y, h⟩ | h
      · rw [h]
        rfl
      · rw [h]
  | cons k q ih =>
    cases n with
    | leaf f =>
      rw [etagNode]
      cases getXattr f.xattrs.etag 41 <;> rfl
    | branch entries x =>
      rcases etagNode_branch sha1 entries x with ⟨y, h⟩ | h
      · rw [h, plain, plain, Tree.look, Tree.look, Tree.get?, Tree.get?, lookup_etagEntries]
        cases entries.lookup k with
        | none => rfl
        | some child => exact ih child
      · rw [h]

theorem plain_modify_stamp {tree n : Node} {loc : Loc} (hn : tree.get? loc = some n) :
    plain (tree.modify (fun _ => (etagNode sha1 n).2) loc) = plain tree := by
  funext q
  rw [plain, look_modify]
  by_cases h : loc <+: q
  · obtain ⟨r, rfl⟩ := h
    rw [if_pos (List.prefix_append loc r), List.drop_left, hn, Option.bind_some, plain, look_append,
      hn, Option.bind_some]
    exact congrFun (plain_etagNode n) r
  · rw [if_neg h, plain]

theorem plain_getEtag {tree : Node} {path : Bytes} {r : Bytes × Node}
    (h : getEtag sha1 tree path = some r) : plain r.2 = plain tree := by
  obtain ⟨loc, n, -, hn, rfl⟩ := getEtag_eq_some h
  exact plain_modify_stamp hn

/-- No node has a version in its attributes that get_etag would return. -/
def Uncached (tree : Node) : Prop :=
  ∀ q kind, tree.look q = some kind → getXattr (kindXattrs kind).etag 41 = none

theorem length_hexString (digest : Bytes) : (hexString digest).length = 2 * digest.length := by
  unfold hexString
  induction digest with
  | nil => rfl
  | cons b digest ih =>
    rw [List.flatMap_cons, List.length_append, ih, List.length_cons, List.length_cons,
      List.length_cons, List.length_nil]
    omega

theorem getXattr_hexString {digest : Bytes} (h : digest.length = 20) :
    getXattr (some (hexString digest)) 41 = none := by
  have len := length_hexString digest
  refine Option.eq_none_iff_forall_ne_some.2 fun cached read => ?_
  obtain ⟨value, same, hlen, -, -⟩ := getXattr_eq_some.1 read
  rw [← Option.some.inj same] at hlen
  omega

theorem Uncached.child {entries : List (Bytes × Node)} {x : Xattrs} {name : Bytes} {child : Node}
    (h : Uncached (.branch entries x)) (hchild : entries.lookup name = some child) :
    Uncached child := by
  intro q kind hq
  have below : (Tree.branch entries x : Node).look (name :: q) = some kind := by
    rw [Tree.look, Tree.get?, hchild]
    exact hq
  exact h (name :: q) kind below

section Length
variable (hsha : ∀ m, (sha1 m).length = 20)
include hsha

theorem uncached_etagNode {n : Node} (h : Uncached n) : Uncached (etagNode sha1 n).2 := by
  intro q
  induction q generalizing n with
  | nil =>
    intro kind hkind
    cases n with
    | leaf f =>
      have none : getXattr f.xattrs.etag 41 = none := h [] (.leaf f) rfl
      rw [etagNode, none, look_self, Option.some_inj] at hkind
      rw [← hkind]
      exact getXattr_hexString (hsha _)
    | branch entries x =>
      have none : getXattr x.etag 41 = none := h [] (.branch x) rfl
      rw [etagNode, none, look_self, Option.some_inj] at hkind
      rw [← hkind]
      exact getXattr_hexString (hsha _)
  | cons k q ih =>
    intro kind hkind
    cases n with
    | leaf f =>
      have none : getXattr f.xattrs.etag 41 = none := h [] (.leaf f) rfl
      rw [etagNode, none] at hkind
      cases hkind
    | branch entries x =>
      have none : getXattr x.etag 41 = none := h [] (.branch x) rfl
      rw [etagNode, none, Tree.look, Tree.get?, lookup_etagEntries] at hkind
      cases hchild : entries.lookup k with
      | none => simp [hchild] at hkind
      | some child =>
        rw [hchild] at hkind
        exact ih (h.child hchild) kind hkind

theorem uncached_getEtag {tree : Node} {path : Bytes} {r : Bytes × Node} (hr : Uncached tree)
    (h : getEtag sha1 tree path = some r) : Uncached r.2 := by
  obtain ⟨loc, n, -, hn, rfl⟩ := getEtag_eq_some h
  have inside : Uncached n := by
    intro q kind hq
    have whole : tree.look (loc ++ q) = some kind := by rw [look_append, hn, Option.bind_some, hq]
    exact hr (loc ++ q) kind whole
  intro q kind hq
  rw [look_modify] at hq
  by_cases hloc : loc <+: q
  · rw [if_pos hloc, hn, Option.bind_some] at hq
    exact uncached_etagNode hsha inside _ kind hq
  · rw [if_neg hloc] at hq
    exact hr q kind hq

end Length

theorem getEtag_leaf {tree : Node} {path : Bytes} {f : FileData} {r : Bytes × Node}
    (hstat : stat tree path = .ok (.leaf f)) (h : getEtag sha1 tree path = some r) :
    r.1 = (getXattr f.xattrs.etag 41).getD (version sha1 f.content) := by
  obtain ⟨loc, n, hnamei, hn, rfl⟩ := getEtag_eq_some h
  obtain ⟨loc', hnamei', hlook⟩ := stat_eq_ok.1 hstat
  rw [hnamei, Except.ok.injEq] at hnamei'
  subst hnamei'
  rw [Tree.look, hn, Option.map_some, Option.some_inj] at hlook
  cases n with
  | branch entries x => cases hlook
  | leaf d =>
    have same : d = f := by simpa [Tree.kind] using hlook
    rw [etagNode, same]
    cases getXattr f.xattrs.etag 41 <;> rfl

theorem getEtag_of_leaf {tree : Node} {path : Bytes} {f : FileData} {r : Bytes × Node}
    (hr : Uncached tree) (hstat : stat tree path = .ok (.leaf f))
    (h : getEtag sha1 tree path = some r) : r.1 = version sha1 f.content := by
  obtain ⟨loc, -, hlook⟩ := stat_eq_ok.1 hstat
  have none : getXattr f.xattrs.etag 41 = none := hr loc (.leaf f) hlook
  rw [getEtag_leaf hstat h, none]
  rfl

end RsServe.Attributes

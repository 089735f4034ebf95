import RsServe.Authorize
import RsServe.JavaScript

/-! How a scope string `name:mode` becomes a stored scope: through add-token, or
through _parseScope of the authorization page and Add of the bindings. -/

namespace RsServe.ScopeEntry
open CString AuthRecord Authorize JavaScript AssocList

def space : UInt8 := 32

/-- The special name `root` is stored as the empty one. -/
def storedName (name : Bytes) : Bytes := if name = str "root" then [] else name

def modeWrite (mode : Bytes) : UInt8 := if mode = str "rw" then 1 else 0

/-- One round of the loop in add-token; the scope string has a colon. -/
def addTokenScope (scopeString : Bytes) : RsScope where
  name := storedName (scopeString.takeWhile (· ≠ colon))
  write := modeWrite ((scopeString.dropWhile (· ≠ colon)).drop 1)

/-- `obj[key] = value`, undefined being none; `__proto__` takes neither a string nor
undefined. -/
def assign (obj : JsObject (Option Bytes)) (key : Bytes) (value : Option Bytes) :
    JsObject (Option Bytes) :=
  if key = str "__proto__" then obj else upsert obj key value

def scopeKey (s : Bytes) : Bytes := (s.splitOn colon).headD []

def parseScope (scope : Bytes) : JsObject (Option Bytes) :=
  (scope.splitOn space).foldl (fun m s => assign m (scopeKey s) (s.splitOn colon)[1]?) []

/-- The property after JSON.stringify, which leaves undefined out, and JSON.parse. -/
def getProperty (obj : JsObject (Option Bytes)) (key : Bytes) : Option Bytes := (obj.lookup key).join

/-- String::AsciiValue belongs to V8; its result is read as a C string. -/
def addScope (asciiValue : Bytes → Bytes) (key mode : Bytes) : RsScope where
  name := storedName (cstr (asciiValue key))
  write := modeWrite (cstr (asciiValue mode))

def scopeOfKey (asciiValue : Bytes → Bytes) (obj : JsObject (Option Bytes)) (key : Bytes) : Option RsScope :=
  (getProperty obj key).map (addScope asciiValue key)

/-- The loop of Add over GetPropertyNames -/
def add (asciiValue : Bytes → Bytes) (obj : JsObject (Option Bytes)) : List RsScope :=
  (obj.map Prod.fst).filterMap (scopeOfKey asciiValue obj)

def Restricted (name mode : Bytes) (stored : Option RsScope) : Prop :=
  ∀ scope, stored = some scope → ∀ req : Request, req.path.head? = some slash →
    matchScope scope req = 0 →
      slash :: (name ++ [slash]) <+: req.path ∧ (¬ req.method.isRead → mode = str "rw")

theorem addTokenScope_split {name : Bytes} (hname : colon ∉ name) (mode : Bytes) :
    addTokenScope (name ++ colon :: mode) = ⟨storedName name, modeWrite mode⟩ := by
  have all : ∀ c ∈ name, decide (c ≠ colon) := fun c hc =>
    decide_eq_true fun same => hname (same ▸ hc)
  rw [addTokenScope, List.takeWhile_append_of_pos all, List.dropWhile_append_of_pos all]
  simp

theorem lookup_assign (obj : JsObject (Option Bytes)) (key : Bytes) (value : Option Bytes) (k : Bytes) :
    (assign obj key value).lookup k =
      if k = key ∧ key ≠ str "__proto__" then some value else obj.lookup k := by
  unfold assign
  by_cases hproto : key = str "__proto__"
  · simp [hproto]
  · simp [hproto, lookup_upsert]

theorem lookup_foldl_assign (items : List Bytes) (obj : JsObject (Option Bytes)) {key : Bytes}
    (h : ∀ t ∈ items, scopeKey t ≠ key) :
    (items.foldl (fun m s => assign m (scopeKey s) (s.splitOn colon)[1]?) obj).lookup key =
      obj.lookup key := by
  induction items generalizing obj with
  | nil => rfl
  | cons t items ih =>
    have ht : key ≠ scopeKey t := fun same => h t (by simp) same.symm
    rw [List.foldl_cons, ih _ fun u hu => h u (by simp [hu]), lookup_assign]
    simp [ht]

theorem lookup_proto (items : List Bytes) (obj : JsObject (Option Bytes))
    (h : obj.lookup (str "__proto__") = none) :
    (items.foldl (fun m s => assign m (scopeKey s) (s.splitOn colon)[1]?) obj).lookup
      (str "__proto__") = none := by
  induction items generalizing obj with
  | nil => exact h
  | cons t items ih =>
    rw [List.foldl_cons]
    refine ih _ ?_
    rw [lookup_assign, if_neg, h]
    intro both
    exact both.2 both.1.symm

theorem scopeKey_split {name : Bytes} (hname : colon ∉ name) (mode : Bytes) :
    scopeKey (name ++ colon :: mode) = name := by
  rw [scopeKey, List.splitOn_append_cons_self, List.splitOn_eq_singleton hname]
  rfl

theorem value_split {name : Bytes} (hname : colon ∉ name) (mode : Bytes) :
    ((name ++ colon :: mode).splitOn colon)[1]? = some (scopeKey mode) := by
  rw [List.splitOn_append_cons_self, List.splitOn_eq_singleton hname, scopeKey]
  have some := List.splitOn_ne_nil colon mode
  cases hsplit : mode.splitOn colon with
  | nil => exact absurd hsplit some
  | cons piece pieces => rfl

theorem getProperty_parseScope {scope name mode : Bytes} {before after : List Bytes}
    (hname : colon ∉ name)
    (hscope : scope.splitOn space = before ++ (name ++ colon :: mode) :: after)
    (hlast : ∀ t ∈ after, scopeKey t ≠ name) :
    getProperty (parseScope scope) name =
      if name = str "__proto__" then none else some (scopeKey mode) := by
  by_cases hproto : name = str "__proto__"
  · rw [if_pos hproto, getProperty, hproto, parseScope, lookup_proto _ _ rfl]
    rfl
  · rw [if_neg hproto, getProperty, parseScope, hscope, List.foldl_append, List.foldl_cons,
      lookup_foldl_assign after _ hlast, lookup_assign, scopeKey_split hname, value_split hname,
      if_pos ⟨rfl, hproto⟩]
    rfl

theorem mem_add {asciiValue : Bytes → Bytes} {obj : JsObject (Option Bytes)} {scope : RsScope} :
    scope ∈ add asciiValue obj ↔ ∃ key, scopeOfKey asciiValue obj key = some scope := by
  rw [add, List.mem_filterMap]
  constructor
  · intro h
    obtain ⟨key, -, hkey⟩ := h
    exact ⟨key, hkey⟩
  · intro h
    obtain ⟨key, hkey⟩ := h
    refine ⟨key, ?_, hkey⟩
    by_contra absent
    have missing : obj.lookup key = none := by
      rw [List.lookup_eq_none_iff]
      intro entry hentry
      have : key ≠ entry.1 := fun same => absent (List.mem_map.2 ⟨entry, hentry, same.symm⟩)
      simpa using this
    rw [scopeOfKey, getProperty, missing] at hkey
    simp at hkey

def plainRequest (method : Method) (path : Bytes) : Request where
  method := method
  user := []
  path := path
  file := none
  headersIn := ⟨none, none, none, none⟩
  bufferIn := []

theorem covers_dir {scope : RsScope} {method : Method} (hmode : permits scope method) :
    matchScope scope (plainRequest method (slash :: (scope.name ++ [slash]))) = 0 := by
  refine matchScope_eq_zero.2 ⟨?_, hmode⟩
  by_cases root : scope.name = []
  · exact Or.inl root
  · exact (coversRaw_iff root).2 ⟨[], rfl⟩

theorem restricted_some_iff {name mode : Bytes} {scope : RsScope} :
    Restricted name mode (some scope) ↔
      scope.name ≠ [] ∧ name ++ [slash] <+: scope.name ++ [slash] ∧
        (scope.write ≠ 0 → mode = str "rw") := by
  constructor
  · intro h
    refine ⟨fun root => ?_, ?_, fun hwrite => ?_⟩
    · have top : matchScope scope (plainRequest .GET [slash]) = 0 :=
        matchScope_eq_zero.2 ⟨Or.inl root, Or.inr rfl⟩
      have short := (h scope rfl _ rfl top).1.length_le
      simp [plainRequest] at short
    · have dir := h scope rfl _ rfl (covers_dir (Or.inr rfl : permits scope .GET))
      exact (List.cons_prefix_cons.1 dir.1).2
    · exact (h scope rfl _ rfl (covers_dir (Or.inl hwrite : permits scope .PUT))).2 Bool.false_ne_true
  · intro h stored hstored req hslash hmatch
    rw [← Option.some_inj.1 hstored] at hmatch
    have matched := matchScope_eq_zero.1 hmatch
    obtain ⟨rest, hrest⟩ := (coversRaw_iff h.1).1 matched.1
    have path : req.path = slash :: (scope.name ++ [slash]) ++ rest := by
      cases hpath : req.path with
      | nil => simp [hpath] at hslash
      | cons c tail =>
        rw [hpath] at hslash hrest
        have hc : c = slash := by simpa using hslash
        rw [hc, show tail = scope.name ++ slash :: rest from hrest]
        simp
    refine ⟨?_, fun hmethod => ?_⟩
    · rw [path]
      exact (List.cons_prefix_cons.2 ⟨rfl, h.2.1⟩).trans (List.prefix_append _ _)
    · exact h.2.2 (matched.2.resolve_right hmethod)

theorem storedName_ne_nil {name : Bytes} :
    storedName name ≠ [] ↔ name ≠ [] ∧ name ≠ str "root" := by
  unfold storedName
  by_cases h : name = str "root"
  · simp [h]
  · simp [h]

theorem storedName_of_ne {name : Bytes} (h : name ≠ str "root") : storedName name = name :=
  if_neg h

theorem modeWrite_ne_zero {mode : Bytes} : modeWrite mode ≠ 0 ↔ mode = str "rw" := by
  unfold modeWrite
  by_cases h : mode = str "rw"
  · simp [h]
  · simp [h]

/-- The way through the page and the bindings loses nothing of the scope string:
nothing is stored, or the name stays what it was and the mode is not cut to `rw`. -/
def KeepsScope (asciiValue : Bytes → Bytes) (name mode : Bytes) : Prop :=
  name = str "__proto__" ∨
    cstr (asciiValue name) ≠ [] ∧ cstr (asciiValue name) ≠ str "root" ∧
      name ++ [slash] <+: cstr (asciiValue name) ++ [slash] ∧
      (cstr (asciiValue (scopeKey mode)) = str "rw" → mode = str "rw")

/-- A scope string `name:mode` other than root's is good for no more than it says
exactly when its name is not empty, and on the way through the page and the bindings
when nothing of it is lost. The last scope string with that name counts. -/
theorem restricted_iff (asciiValue : Bytes → Bytes) (scope name mode : Bytes)
    (before after : List Bytes) (hname : colon ∉ name) (hroot : name ≠ str "root")
    (hscope : scope.splitOn space = before ++ (name ++ colon :: mode) :: after)
    (hlast : ∀ t ∈ after, scopeKey t ≠ name) :
    (Restricted name mode (some (addTokenScope (name ++ colon :: mode))) ↔ name ≠ []) ∧
      (Restricted name mode (scopeOfKey asciiValue (parseScope scope) name) ↔
        KeepsScope asciiValue name mode) := by
  constructor
  · rw [addTokenScope_split hname, restricted_some_iff]
    simp only [modeWrite_ne_zero, storedName_of_ne hroot]
    exact ⟨fun h => h.1, fun h => ⟨h, List.prefix_refl _, id⟩⟩
  · rw [scopeOfKey, getProperty_parseScope hname hscope hlast, KeepsScope]
    by_cases hproto : name = str "__proto__"
    · rw [if_pos hproto]
      exact ⟨fun _ => Or.inl hproto, fun _ stored hstored => by simp at hstored⟩
    · rw [if_neg hproto, Option.map_some, restricted_some_iff, addScope]
      simp only [storedName_ne_nil, modeWrite_ne_zero, hproto, false_or]
      constructor
      · intro h
        rw [storedName_of_ne h.1.2] at h
        exact ⟨h.1.1, h.1.2, h.2⟩
      · intro h
        rw [storedName_of_ne h.2.1]
        exact ⟨⟨h.1, h.2.1⟩, h.2.2⟩

theorem restricted_iff_photos :
    (Restricted (str "photos") (str "rw") (some (addTokenScope (str "photos:rw"))) ↔
        str "photos" ≠ []) ∧
      (Restricted (str "photos") (str "rw")
          (scopeOfKey id (parseScope (str "music:r photos:rw")) (str "photos")) ↔
        KeepsScope id (str "photos") (str "rw")) :=
  restricted_iff id (str "music:r photos:rw") (str "photos") (str "rw") [str "music:r"] []
    (by decide) (by decide) (by decide) (by decide)

theorem empty_name_unrestricted :
    ¬ Restricted [] (str "rw") (some (addTokenScope (str ":rw"))) ∧
      ¬ Restricted [] (str "rw") (scopeOfKey id (parseScope (str ":rw")) []) := by
  have token : addTokenScope (str ":rw") = ⟨[], 1⟩ := by decide
  have page : scopeOfKey id (parseScope (str ":rw")) [] = some ⟨[], 1⟩ := by decide
  rw [token, page, restricted_some_iff]
  simp

end RsServe.ScopeEntry

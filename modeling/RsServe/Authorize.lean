import RsServe.AuthRecord
import RsServe.DiskPath

/-! match_scope and authorize_request, which read the raw path, and the directories
that a request they let through really reaches. -/

namespace RsServe.Authorize
open CString AuthRecord DiskPath

/-- The mode check of match_scope -/
def permits (scope : RsScope) (method : Method) : Prop := scope.write ≠ 0 ∨ method.isRead

instance (scope : RsScope) (method : Method) : Decidable (permits scope method) :=
  inferInstanceAs (Decidable (_ ∨ _))

/-- The path check of match_scope -/
def coversRaw (name path : Bytes) : Prop :=
  name = [] ∨ strncmpEq (path.drop 1) name name.length ∧ path[1 + name.length]? = some slash

instance (name path : Bytes) : Decidable (coversRaw name path) :=
  inferInstanceAs (Decidable (_ ∨ _))

def matchScope (scope : RsScope) (req : Request) : Int :=
  if coversRaw scope.name req.path then
    if permits scope req.method then 0 else -1
  else -1

def bearerToken (req : Request) : Option Bytes :=
  match req.headersIn.authorization with
  | none => none
  | some header => if strncmpEq header (str "Bearer ") 7 then some (header.drop 7) else none

variable (lookup : Bytes → Bytes → Option RsAuthorization)

def grantedScopes (req : Request) : List RsScope :=
  match (bearerToken req).bind (lookup req.user) with
  | none => []
  | some auth => auth.scopes

/-- Public reads on files, not on directories. -/
def publicRead (req : Request) : Bool :=
  strncmpEq req.path (str "/public/") 8 && req.method.isRead && req.file.isSome

def authorizeRequest (req : Request) : Int :=
  if (grantedScopes lookup req).any (matchScope · req = 0) then 0
  else if publicRead req then 0
  else -1

theorem matchScope_eq_zero {scope : RsScope} {req : Request} :
    matchScope scope req = 0 ↔ coversRaw scope.name req.path ∧ permits scope req.method := by
  unfold matchScope
  by_cases hpath : coversRaw scope.name req.path
  · by_cases hmode : permits scope req.method
    · simp [hpath, hmode]
    · simp [hpath, hmode]
  · simp [hpath]

theorem coversRaw_iff {name path : Bytes} (hname : name ≠ []) :
    coversRaw name path ↔ ∃ rest, path.drop 1 = name ++ slash :: rest := by
  have index : path[1 + name.length]? = (path.drop 1)[name.length]? := by
    rw [List.getElem?_drop]
  rw [coversRaw, index]
  generalize path.drop 1 = tail
  simp only [hname, false_or, strncmpEq, decide_eq_true_eq, List.take_length]
  constructor
  · intro h
    obtain ⟨room, next⟩ := List.getElem?_eq_some_iff.1 h.2
    refine ⟨tail.drop (name.length + 1), ?_⟩
    calc tail = tail.take name.length ++ tail.drop name.length :=
          (List.take_append_drop name.length tail).symm
      _ = name ++ slash :: tail.drop (name.length + 1) := by
          rw [h.1, List.drop_eq_getElem_cons room, next]
  · intro h
    cases h with
    | intro rest hrest =>
      rw [hrest]
      simp

theorem publicRead_eq_true {req : Request} :
    publicRead req ↔ (∃ rest, req.path = slash :: (str "public" ++ slash :: rest)) ∧
      req.method.isRead ∧ req.file.isSome := by
  have area : ∀ rest, slash :: (str "public" ++ slash :: rest) = str "/public/" ++ rest := by
    intro rest
    rw [show str "/public/" = slash :: (str "public" ++ [slash]) by decide]
    simp
  simp only [publicRead, strncmpEq, Bool.and_eq_true, decide_eq_true_eq, and_assoc, area]
  refine and_congr_left fun _ => ⟨fun h => ⟨req.path.drop 8, ?_⟩, fun h => ?_⟩
  · have whole : (str "/public/").take 8 = str "/public/" := by decide
    conv_lhs => rw [← List.take_append_drop 8 req.path, h, whole]
  · obtain ⟨rest, hrest⟩ := h
    have eight : 8 = (str "/public/").length := by decide
    rw [hrest, eight, List.take_left, List.take_length]

theorem authorizeRequest_eq_zero {req : Request} :
    authorizeRequest lookup req = 0 ↔
      (∃ scope ∈ grantedScopes lookup req, matchScope scope req = 0) ∨ publicRead req := by
  unfold authorizeRequest
  by_cases hscope : (grantedScopes lookup req).any (matchScope · req = 0)
  · simp only [hscope, if_true, true_iff]
    exact Or.inl (by simpa using hscope)
  · by_cases hpublic : publicRead req
    · simp [hscope, hpublic]
    · simp only [hscope, hpublic]
      simpa using hscope

/-- Directories of the storage root that the request may reach: those of scopes
that permit its method, and the public one for reads. -/
def Allowed (req : Request) (dir : Bytes) : Prop :=
  (∃ scope ∈ grantedScopes lookup req, permits scope req.method ∧ scope.name = dir) ∨
    req.method.isRead ∧ dir = str "public"

def Covered (cfg : Config) (req : Request) : Prop :=
  ∃ dir, Allowed lookup req dir ∧
    (dir = [] ∨ Below (storageRoot cfg req.user ++ slash :: dir)
      (makeDiskPath cfg req.user req.path).diskPath)

/-- The raw path, read segment by segment, leads into a directory of the root. -/
def LandsIn (cfg : Config) (user path dir : Bytes) : Prop :=
  LexicalPath.resolve (str ".") (str "..")
      (str "home" :: components user ++ cfg.homeServeRoot :: components dir) <+:
    LexicalPath.resolve (str ".") (str "..") (location cfg user path)

theorem below_iff_landsIn (cfg : Config) (user path dir : Bytes) :
    Below (storageRoot cfg user ++ slash :: dir) (makeDiskPath cfg user path).diskPath ↔
      LandsIn cfg user path dir := by
  rw [Below, resolved, resolved, components_diskPath, components_append_slash,
    components_storageRoot, LandsIn]
  simp

def Accepted (req : Request) : Prop :=
  (∃ scope ∈ grantedScopes lookup req, permits scope req.method ∧
      (scope.name = [] ∨ ∃ rest, req.path.drop 1 = scope.name ++ slash :: rest)) ∨
    req.method.isRead ∧ req.file.isSome ∧ ∃ rest, req.path = slash :: (str "public" ++ slash :: rest)

theorem authorizeRequest_accepts {req : Request} :
    authorizeRequest lookup req = 0 ↔ Accepted lookup req := by
  have named (scope : RsScope) : matchScope scope req = 0 ↔ permits scope req.method ∧
      (scope.name = [] ∨ ∃ rest, req.path.drop 1 = scope.name ++ slash :: rest) := by
    rw [matchScope_eq_zero, and_comm]
    refine and_congr_right fun _ => ?_
    by_cases root : scope.name = []
    · simp [coversRaw, root]
    · rw [coversRaw_iff root]
      simp [root]
  have read : publicRead req ↔ req.method.isRead ∧ req.file.isSome ∧
      ∃ rest, req.path = slash :: (str "public" ++ slash :: rest) := by
    rw [publicRead_eq_true]
    tauto
  rw [authorizeRequest_eq_zero, read, Accepted]
  simp only [named]

/-- The check on the raw path agrees with the file that is accessed exactly when no
gluing moves an accepted path out of every directory that the request may reach. -/
theorem authorizeRequest_agrees_iff (cfg : Config) (req : Request) :
    (authorizeRequest lookup req = 0 → Covered lookup cfg req) ↔
      (Accepted lookup req →
        ∃ dir, Allowed lookup req dir ∧ (dir = [] ∨ LandsIn cfg req.user req.path dir)) := by
  simp only [authorizeRequest_accepts, Covered, below_iff_landsIn]

def oneRecord (user token : Bytes) : Option RsAuthorization :=
  if token = str "t" then some ⟨user, token, [⟨str "a", 1⟩]⟩ else none

def gluingPut : Request where
  method := .PUT
  user := str "me"
  path := str "/a//b"
  file := some (str "b")
  headersIn := ⟨some (str "Bearer t"), none, none, some (str "text/plain")⟩
  bufferIn := str "hello"

theorem gluingPut_leaves_scope :
    authorizeRequest oneRecord gluingPut = 0 ∧
      (makeDiskPath defaultConfig gluingPut.user gluingPut.path).diskPath =
        str "/home/me/storage/ab" ∧
      ¬ Covered oneRecord defaultConfig gluingPut := by
  refine ⟨by decide, by decide, fun h => ?_⟩
  obtain ⟨dir, allowed, reached⟩ := h
  rcases allowed with ⟨scope, hscope, -, rfl⟩ | hread
  · have only : scope = ⟨str "a", 1⟩ := by
      have granted : grantedScopes oneRecord gluingPut = [⟨str "a", 1⟩] := by decide
      rw [granted] at hscope
      exact List.mem_singleton.1 hscope
    subst only
    revert reached
    decide
  · exact absurd hread.1 (by decide)

theorem not_mem_of_clean {path : Bytes} (hdots : ¬ str "/.." <:+: path) :
    ∀ s ∈ (SegmentGluing.cut slash path).rest, s ≠ str ".." := by
  intro s hs same
  apply hdots
  have whole := SegmentGluing.word_cut slash path
  obtain ⟨before, after, split⟩ := List.append_of_mem hs
  rw [SegmentGluing.Segmented.word, split, List.flatMap_append, List.flatMap_cons, same] at whole
  refine ⟨(SegmentGluing.cut slash path).lead ++ before.flatMap (slash :: ·),
    after.flatMap (slash :: ·), ?_⟩
  conv_rhs => rw [← whole]
  have : str "/.." = slash :: str ".." := by decide
  simp [this]

/-- Without `/..` and `//` in the path, an accepted request stays in what was checked. -/
theorem covered_of_clean (cfg : Config) {req : Request} (hslash : req.path.head? = some slash)
    (hdots : ¬ str "/.." <:+: req.path) (hslashes : ¬ str "//" <:+: req.path)
    (h : authorizeRequest lookup req = 0) : Covered lookup cfg req := by
  have clean : (makeDiskPath cfg req.user req.path).diskPath =
      storageRoot cfg req.user ++ req.path := by
    rw [makeDiskPath, rewritePath_of_clean hdots hslashes]
  have below : ∀ dir rest, req.path = slash :: (dir ++ slash :: rest) →
      Below (storageRoot cfg req.user ++ slash :: dir)
        (makeDiskPath cfg req.user req.path).diskPath := by
    intro dir rest split
    have hrest : components (storageRoot cfg req.user ++ req.path) =
        components (storageRoot cfg req.user ++ slash :: dir) ++ components rest := by
      rw [split, components_append_slash, components_append_slash, components_append_slash,
        List.append_assoc]
    have suffix : slash :: rest <:+: req.path :=
      ⟨slash :: dir, [], by rw [split]; simp⟩
    have noUp : str ".." ∉ components rest := by
      intro mem
      rw [components_cut, List.mem_filter] at mem
      have cutRest := SegmentGluing.cut_cons_self slash rest
      exact not_mem_of_clean (fun h => hdots (h.trans suffix)) _ (cutRest ▸ mem.1) rfl
    rw [clean, Below, resolved, resolved, hrest]
    exact LexicalPath.resolve_prefix_of_staysBelow (LexicalPath.staysBelow_of_not_mem 0 noUp)
  have start : req.path = slash :: req.path.drop 1 := by
    cases hpath : req.path with
    | nil => simp [hpath] at hslash
    | cons c tail =>
      rw [hpath] at hslash
      simpa using hslash
  rcases (authorizeRequest_eq_zero lookup).1 h with ⟨scope, hscope, hmatch⟩ | hpublic
  · have matched := matchScope_eq_zero.1 hmatch
    refine ⟨scope.name, Or.inl ⟨scope, hscope, matched.2, rfl⟩, ?_⟩
    by_cases root : scope.name = []
    · exact Or.inl root
    · obtain ⟨rest, hrest⟩ := (coversRaw_iff root).1 matched.1
      exact Or.inr (below scope.name rest (by rw [start, hrest]))
  · have read := publicRead_eq_true.1 hpublic
    obtain ⟨rest, hrest⟩ := read.1
    exact ⟨str "public", Or.inr ⟨read.2.1, rfl⟩, Or.inr (below _ rest hrest)⟩

end RsServe.Authorize

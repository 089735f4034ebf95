import RsServe.ScopeEntry

/-! One list of scope strings, stored by add-token and by way of the authorization page:
what the two authorizations let through. -/

namespace RsServe.ScopeAgreement
open CString AuthRecord Authorize JavaScript AssocList ScopeEntry

def scopeString (entry : Bytes × Bytes) : Bytes := entry.1 ++ colon :: entry.2

/-- add-token with one argument for each string. -/
def tokenScopes (entries : List (Bytes × Bytes)) : List RsScope :=
  entries.map fun entry => addTokenScope (scopeString entry)

/-- The strings joined with spaces, parsed by the page and added by the bindings. -/
def pageScopes (asciiValue : Bytes → Bytes) (entries : List (Bytes × Bytes)) : List RsScope :=
  add asciiValue (parseScope (List.intercalate [space] (entries.map scopeString)))

def Ascii (s : Bytes) : Prop := ∀ c ∈ s, 0 < c ∧ c < 128

def Word (s : Bytes) : Prop := Ascii s ∧ colon ∉ s ∧ space ∉ s

instance (s : Bytes) : Decidable (Word s) :=
  inferInstanceAs (Decidable ((∀ c ∈ s, 0 < c ∧ c < 128) ∧ _))

def Words (entries : List (Bytes × Bytes)) : Prop := ∀ entry ∈ entries, Word entry.1 ∧ Word entry.2

instance (entries : List (Bytes × Bytes)) : Decidable (Words entries) :=
  inferInstanceAs (Decidable (∀ entry ∈ entries, _))

def Unsplit (s : Bytes) : Prop := colon ∉ s ∧ space ∉ s

def EntriesUnsplit (entries : List (Bytes × Bytes)) : Prop :=
  ∀ entry ∈ entries, Unsplit entry.1 ∧ Unsplit entry.2

instance (entries : List (Bytes × Bytes)) : Decidable (EntriesUnsplit entries) :=
  inferInstanceAs (Decidable (∀ entry ∈ entries, (_ ∧ _) ∧ (_ ∧ _)))

def holding (lookup : Bytes → Bytes → Option RsAuthorization) (auth : RsAuthorization)
    (username token : Bytes) : Option RsAuthorization :=
  if username = auth.username ∧ token = auth.token then some auth else lookup username token

def Agree (asciiValue : Bytes → Bytes) (username token : Bytes)
    (entries : List (Bytes × Bytes)) : Prop :=
  ∀ (lookup : Bytes → Bytes → Option RsAuthorization) (req : Request),
    authorizeRequest (holding lookup ⟨username, token, tokenScopes entries⟩) req = 0 ↔
      authorizeRequest (holding lookup ⟨username, token, pageScopes asciiValue entries⟩) req = 0

/-- The entries that get over the object of the page: the last one of each name, but none
of the name `__proto__`. -/
def Kept (entries : List (Bytes × Bytes)) (entry : Bytes × Bytes) : Prop :=
  entry.1 ≠ str "__proto__" ∧ entries.reverse.lookup entry.1 = some entry.2

def Wider (scope other : RsScope) : Prop :=
  (scope.name = [] ∨ scope.name ++ [slash] <+: other.name ++ [slash]) ∧
    (other.write ≠ 0 → scope.write ≠ 0)

instance (entries : List (Bytes × Bytes)) (entry : Bytes × Bytes) : Decidable (Kept entries entry) :=
  inferInstanceAs (Decidable (_ ∧ _))

instance (scope other : RsScope) : Decidable (Wider scope other) :=
  inferInstanceAs (Decidable ((_ ∨ _) ∧ (_ → _)))

theorem Wider.matchScope {scope other : RsScope} (h : Wider scope other) {req : Request}
    (hmatch : matchScope other req = 0) : matchScope scope req = 0 := by
  obtain ⟨hpath, hmode⟩ := matchScope_eq_zero.1 hmatch
  refine matchScope_eq_zero.2 ⟨?_, hmode.imp_left h.2⟩
  by_cases root : scope.name = []
  · exact Or.inl root
  · obtain ⟨more, split⟩ := h.1.resolve_left root
    have inner : other.name ≠ [] := by
      intro nil
      have short := congrArg List.length split
      have pos := List.length_pos_iff.2 root
      simp only [nil, List.length_append, List.length_nil, List.length_singleton] at short
      omega
    obtain ⟨rest, hrest⟩ := (coversRaw_iff inner).1 hpath
    refine (coversRaw_iff root).2 ⟨more ++ rest, ?_⟩
    calc req.path.drop 1 = other.name ++ [slash] ++ rest := by rw [hrest]; simp
      _ = scope.name ++ slash :: (more ++ rest) := by rw [← split]; simp

def dirRequest (username token : Bytes) (scope : RsScope) : Request where
  method := if scope.write ≠ 0 then .PUT else .GET
  user := username
  path := slash :: (scope.name ++ [slash])
  file := none
  headersIn := ⟨some (str "Bearer " ++ token), none, none, none⟩
  bufferIn := []

theorem matchScope_dirRequest (username token : Bytes) (scope : RsScope) :
    matchScope scope (dirRequest username token scope) = 0 := by
  have hmode : permits scope (dirRequest username token scope).method := by
    by_cases hwrite : scope.write ≠ 0
    · exact Or.inl hwrite
    · right
      rw [dirRequest, if_neg hwrite]
      rfl
  refine matchScope_eq_zero.2 ⟨?_, hmode⟩
  by_cases root : scope.name = []
  · exact Or.inl root
  · exact (coversRaw_iff root).2 ⟨[], rfl⟩

theorem wider_of_dirRequest {username token : Bytes} {scope other : RsScope}
    (h : matchScope scope (dirRequest username token other) = 0) : Wider scope other := by
  obtain ⟨hpath, hmode⟩ := matchScope_eq_zero.1 h
  refine ⟨?_, fun hwrite => hmode.resolve_right ?_⟩
  · by_cases root : scope.name = []
    · exact Or.inl root
    · obtain ⟨rest, hrest⟩ := (coversRaw_iff root).1 hpath
      have split : other.name ++ [slash] = scope.name ++ slash :: rest := hrest
      exact Or.inr ⟨rest, by rw [split]; simp⟩
  · rw [dirRequest, if_pos hwrite]
    exact Bool.false_ne_true

theorem authorizeRequest_dirRequest (lookup : Bytes → Bytes → Option RsAuthorization)
    (username token : Bytes) (scopes : List RsScope) (other : RsScope) :
    authorizeRequest (holding lookup ⟨username, token, scopes⟩) (dirRequest username token other) =
        0 ↔ ∃ scope ∈ scopes, matchScope scope (dirRequest username token other) = 0 := by
  have granted : grantedScopes (holding lookup ⟨username, token, scopes⟩)
      (dirRequest username token other) = scopes := by
    have bearer : bearerToken (dirRequest username token other) = some token := by
      have seven : (str "Bearer ").length = 7 := by decide
      have same : strncmpEq (str "Bearer " ++ token) (str "Bearer ") 7 = true := by
        rw [strncmpEq, ← seven, List.take_left, List.take_length]
        exact decide_eq_true rfl
      have behind : (str "Bearer " ++ token).drop 7 = token := by rw [← seven, List.drop_left]
      simp only [bearerToken, dirRequest, same, if_true, behind]
    rw [grantedScopes, bearer]
    simp [holding, dirRequest]
  have private_ : publicRead (dirRequest username token other) = false := by
    simp [publicRead, dirRequest]
  rw [authorizeRequest_eq_zero, granted, private_]
  simp

theorem authorizeRequest_congr {lookup : Bytes → Bytes → Option RsAuthorization}
    {username token : Bytes} {scopes others : List RsScope} {req : Request}
    (h : (∃ scope ∈ scopes, matchScope scope req = 0) ↔ ∃ scope ∈ others, matchScope scope req = 0) :
    authorizeRequest (holding lookup ⟨username, token, scopes⟩) req = 0 ↔
      authorizeRequest (holding lookup ⟨username, token, others⟩) req = 0 := by
  rw [authorizeRequest_eq_zero, authorizeRequest_eq_zero]
  refine or_congr_left ?_
  unfold grantedScopes
  cases bearerToken req with
  | none => simp
  | some bearer =>
    simp only [Option.bind_some, holding]
    by_cases own : req.user = username ∧ bearer = token
    · simpa [own] using h
    · simp [own]

section Stored
variable {asciiValue : Bytes → Bytes} {entries : List (Bytes × Bytes)}

theorem Words.unsplit (h : Words entries) : EntriesUnsplit entries := fun entry hentry =>
  ⟨(h entry hentry).1.2, (h entry hentry).2.2⟩

theorem scopeKey_scopeString {entry : Bytes × Bytes} (h : Unsplit entry.1) :
    scopeKey (scopeString entry) = entry.1 := scopeKey_split h.1 entry.2

theorem scopeKey_unsplit {mode : Bytes} (h : Unsplit mode) : scopeKey mode = mode := by
  rw [scopeKey, List.splitOn_eq_singleton h.1]
  rfl

theorem splitOn_joined (hne : entries ≠ []) (h : EntriesUnsplit entries) :
    (List.intercalate [space] (entries.map scopeString)).splitOn space =
      entries.map scopeString := by
  refine List.splitOn_intercalate space ?_ (by simpa using hne)
  intro s hs
  obtain ⟨entry, hentry, rfl⟩ := List.mem_map.1 hs
  obtain ⟨hname, hmode⟩ := h entry hentry
  have other : space ≠ colon := by decide
  simp [scopeString, hname.2, hmode.2, other]

theorem lookup_assigned (h : EntriesUnsplit entries) (key : Bytes) :
    ((entries.map scopeString).foldl (fun m s => assign m (scopeKey s) (s.splitOn colon)[1]?)
        []).lookup key =
      if key = str "__proto__" then none else (entries.reverse.lookup key).map some := by
  induction entries using List.reverseRecOn with
  | nil => simp
  | append_singleton entries entry ih =>
    have earlier := ih fun e he => h e (by simp [he])
    obtain ⟨hname, hmode⟩ := h entry (by simp)
    have value : ((scopeString entry).splitOn colon)[1]? = some entry.2 := by
      rw [scopeString, value_split hname.1, scopeKey_unsplit hmode]
    rw [List.map_append, List.map_singleton, List.foldl_append, List.foldl_cons, List.foldl_nil,
      lookup_assign, earlier, scopeKey_scopeString hname, value, List.reverse_append,
      List.reverse_singleton, List.singleton_append, lookup_cons_eq]
    by_cases hproto : key = str "__proto__"
    · have apart : ¬ (key = entry.1 ∧ entry.1 ≠ str "__proto__") := fun both =>
        both.2 (both.1 ▸ hproto)
      rw [if_neg apart, if_pos hproto, if_pos hproto]
    · rw [if_neg hproto, if_neg hproto]
      by_cases hkey : key = entry.1
      · have own : key = entry.1 ∧ entry.1 ≠ str "__proto__" := ⟨hkey, hkey ▸ hproto⟩
        rw [if_pos own, if_pos hkey, Option.map_some]
      · rw [if_neg fun both => hkey both.1, if_neg hkey]

theorem getProperty_joined (h : EntriesUnsplit entries) (key : Bytes) :
    getProperty (parseScope (List.intercalate [space] (entries.map scopeString))) key =
      if key = str "__proto__" then none else entries.reverse.lookup key := by
  by_cases hne : entries = []
  · have empty : parseScope (List.intercalate [space] (([] : List (Bytes × Bytes)).map scopeString)) =
        [([], none)] := by decide
    rw [hne, empty, getProperty, lookup_cons_eq]
    by_cases hkey : key = []
    · simp [hkey]
    · simp [hkey]
  · rw [getProperty, parseScope, splitOn_joined hne h, lookup_assigned h]
    by_cases hproto : key = str "__proto__"
    · simp [hproto]
    · rw [if_neg hproto, if_neg hproto]
      cases entries.reverse.lookup key <;> rfl

theorem Kept.mem {entry : Bytes × Bytes} (h : Kept entries entry) : entry ∈ entries :=
  List.mem_reverse.1 (mem_of_lookup h.2)

theorem addScope_word (hascii : ∀ s, Ascii s → asciiValue s = s) {entry : Bytes × Bytes}
    (hname : Word entry.1) (hmode : Word entry.2) :
    addScope asciiValue entry.1 entry.2 = addTokenScope (scopeString entry) := by
  have nulFree {s : Bytes} (hs : Word s) : NulFree s := fun mem => absurd (hs.1 0 mem).1 (by decide)
  rw [addScope, hascii _ hname.1, hascii _ hmode.1, cstr_of_nulFree (nulFree hname),
    cstr_of_nulFree (nulFree hmode), scopeString, addTokenScope_split hname.2.1]

theorem mem_pageScopes (hascii : ∀ s, Ascii s → asciiValue s = s) (h : Words entries)
    {scope : RsScope} :
    scope ∈ pageScopes asciiValue entries ↔
      ∃ entry, Kept entries entry ∧ addTokenScope (scopeString entry) = scope := by
  rw [pageScopes, mem_add]
  constructor
  · rintro ⟨key, hkey⟩
    rw [scopeOfKey, getProperty_joined h.unsplit, Option.map_eq_some_iff] at hkey
    obtain ⟨mode, hmode, rfl⟩ := hkey
    by_cases hproto : key = str "__proto__"
    · simp [hproto] at hmode
    · rw [if_neg hproto] at hmode
      have kept : Kept entries (key, mode) := ⟨hproto, hmode⟩
      obtain ⟨hname, hword⟩ := h _ kept.mem
      exact ⟨(key, mode), kept, (addScope_word hascii hname hword).symm⟩
  · rintro ⟨entry, kept, rfl⟩
    obtain ⟨hname, hmode⟩ := h _ kept.mem
    refine ⟨entry.1, ?_⟩
    rw [scopeOfKey, getProperty_joined h.unsplit, if_neg kept.1, kept.2, Option.map_some,
      addScope_word hascii hname hmode]

end Stored

/-- The two ways agree exactly when the page drops no entry that lets anything through of
its own. -/
theorem agree_iff {asciiValue : Bytes → Bytes} (hascii : ∀ s, Ascii s → asciiValue s = s)
    (username token : Bytes) {entries : List (Bytes × Bytes)} (h : Words entries) :
    Agree asciiValue username token entries ↔
      ∀ entry ∈ entries, ∃ other ∈ entries, Kept entries other ∧
        Wider (addTokenScope (scopeString other)) (addTokenScope (scopeString entry)) := by
  constructor
  · intro agree entry hentry
    have stored := agree (fun _ _ => none)
      (dirRequest username token (addTokenScope (scopeString entry)))
    rw [authorizeRequest_dirRequest, authorizeRequest_dirRequest] at stored
    have own : addTokenScope (scopeString entry) ∈ tokenScopes entries :=
      List.mem_map.2 ⟨entry, hentry, rfl⟩
    obtain ⟨scope, hscope, hmatch⟩ := stored.1 ⟨_, own, matchScope_dirRequest username token _⟩
    obtain ⟨other, kept, rfl⟩ := (mem_pageScopes hascii h).1 hscope
    exact ⟨other, kept.mem, kept, wider_of_dirRequest hmatch⟩
  · intro covered lookup req
    refine authorizeRequest_congr ⟨?_, ?_⟩
    · rintro ⟨scope, hscope, hmatch⟩
      obtain ⟨entry, hentry, rfl⟩ := List.mem_map.1 hscope
      obtain ⟨other, -, kept, wider⟩ := covered entry hentry
      exact ⟨_, (mem_pageScopes hascii h).2 ⟨other, kept, rfl⟩, wider.matchScope hmatch⟩
    · rintro ⟨scope, hscope, hmatch⟩
      obtain ⟨entry, kept, rfl⟩ := (mem_pageScopes hascii h).1 hscope
      exact ⟨_, List.mem_map.2 ⟨entry, kept.mem, rfl⟩, hmatch⟩

theorem agree_photos : Agree id (str "me") (str "t")
    [(str "photos", str "r"), (str "music", str "rw"), (str "photos", str "rw")] :=
  (agree_iff (fun _ _ => rfl) (str "me") (str "t") (by decide +kernel)).2 (by decide +kernel)

theorem repeated_name_disagrees :
    Words [(str "photos", str "rw"), (str "photos", str "r")] ∧
      ¬ Agree id (str "me") (str "t") [(str "photos", str "rw"), (str "photos", str "r")] := by
  refine ⟨by decide +kernel, fun agree => ?_⟩
  have write := agree (fun _ _ => none) (dirRequest (str "me") (str "t") ⟨str "photos", 1⟩)
  revert write
  decide +kernel

end RsServe.ScopeAgreement

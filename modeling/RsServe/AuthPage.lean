import RsServe.Grants
import RsServe.PercentCoding
import RsServe.ScopeAgreement

/-! The authorization page: the parameters that an app puts into its address, the scopes that the
user confirms, and the token that goes back. -/

namespace RsServe.AuthPage
open CString NameTree Kernel DiskPath Storage Users AuthRecord Authorize Dispatch Responses
open CanonicalPaths DocumentMap Documents Histories JavaScript AssocList ScopeEntry ScopeAgreement
open PercentCoding Grants KeyedStore
open AuthStore (Database Call lastAdded Addressable)
open UserStores (EmptyRoots meAndYou twoUsers)

def ampersand : UInt8 := 38
def equals : UInt8 := 61

def allowedKeys : List Bytes :=
  [str "client_id", str "redirect_uri", str "scope", str "state", str "username"]

/-- `key in OAuthState.ALLOWED_KEYS`, which finds inherited names as well. -/
def allowed (key : Bytes) : Bool := key ∈ allowedKeys ∨ key ∈ objectPrototype

def setProperty (obj : JsObject Bytes) (key value : Bytes) : JsObject Bytes :=
  if key = str "__proto__" then obj else upsert obj key value

/-- One part of the address; what decodeURIComponent makes of undefined is `undefined`. -/
def setParameter (obj : JsObject Bytes) (s : Bytes) : Option (JsObject Bytes) :=
  let kv := s.splitOn equals
  match decodeURIComponent (kv.headD []) with
  | none => none
  | some key =>
    if allowed key then
      (decodeURIComponent (kv[1]?.getD (str "undefined"))).map (setProperty obj key)
    else some obj

structure OAuthState where
  parameters : JsObject Bytes
  /-- None where the scope counts as false. -/
  scope : Option (JsObject (Option Bytes))

/-- None where decodeURIComponent throws. -/
def oauthState (fragment : Bytes) : Option OAuthState :=
  ((fragment.splitOn ampersand).foldlM setParameter []).map fun parameters =>
    { parameters := parameters
      scope := (parameters.lookup (str "scope")).bind fun scope =>
        if scope = [] then none else some (parseScope scope) }

def createRedirectUri (st : OAuthState) (token : Bytes) : Bytes :=
  (st.parameters.lookup (str "redirect_uri")).getD (str "undefined") ++ str "#access_token=" ++
    encodeURIComponent token

/-- The scopes in the body of createAuthorization, where JSON.stringify leaves undefined out -/
def requestedScopes (scope : JsObject (Option Bytes)) : Sessions.Scopes :=
  scope.filterMap fun entry => entry.2.map fun mode => (entry.1, mode)

def parameterText (parameter : Bytes × Bytes) : Bytes :=
  encodeURIComponent parameter.1 ++ equals :: encodeURIComponent parameter.2

def query (parameters : List (Bytes × Bytes)) : Bytes :=
  List.intercalate [ampersand] (parameters.map parameterText)

def Utf8 (parameters : List (Bytes × Bytes)) : Prop :=
  ∀ parameter ∈ parameters, isUtf8 parameter.1 = true ∧ isUtf8 parameter.2 = true

instance (parameters : List (Bytes × Bytes)) : Decidable (Utf8 parameters) :=
  inferInstanceAs (Decidable (∀ parameter ∈ parameters, _))

theorem setParameter_text (obj : JsObject Bytes) {parameter : Bytes × Bytes}
    (hkey : isUtf8 parameter.1 = true) (hvalue : isUtf8 parameter.2 = true) :
    setParameter obj (parameterText parameter) =
      some (if allowed parameter.1 then setProperty obj parameter.1 parameter.2 else obj) := by
  have free : ∀ s, equals ∉ encodeURIComponent s := fun s =>
    not_mem_encode s (by decide) (by decide)
  have split : (parameterText parameter).splitOn equals =
      [encodeURIComponent parameter.1, encodeURIComponent parameter.2] := by
    rw [parameterText, List.splitOn_append_cons_self, List.splitOn_eq_singleton (free _),
      List.splitOn_eq_singleton (free _)]
    rfl
  simp only [setParameter, split, List.headD_cons, decode_encode hkey, List.getElem?_cons_succ,
    List.getElem?_cons_zero, Option.getD_some, decode_encode hvalue, Option.map_some]
  split_ifs <;> rfl

theorem lookup_setProperty (obj : JsObject Bytes) (key value k : Bytes) :
    (setProperty obj key value).lookup k =
      if k = key ∧ key ≠ str "__proto__" then some value else obj.lookup k := by
  unfold setProperty
  by_cases proto : key = str "__proto__"
  · simp [proto]
  · rw [if_neg proto, lookup_upsert]
    simp [proto]

def keepsKey (key : Bytes) : Bool := allowed key ∧ key ≠ str "__proto__"

theorem foldlM_parameters {parameters : List (Bytes × Bytes)} (h : Utf8 parameters) :
    ∃ obj, (parameters.map parameterText).foldlM setParameter [] = some obj ∧
      ∀ key, obj.lookup key = if keepsKey key then parameters.reverse.lookup key else none := by
  induction parameters using List.reverseRecOn with
  | nil => exact ⟨[], rfl, by simp⟩
  | append_singleton parameters parameter ih =>
    obtain ⟨obj, hobj, lookup⟩ := ih fun p hp => h p (by simp [hp])
    obtain ⟨hkey, hvalue⟩ := h parameter (by simp)
    refine ⟨if allowed parameter.1 then setProperty obj parameter.1 parameter.2 else obj, ?_,
      fun key => ?_⟩
    · rw [List.map_append, List.foldlM_append, hobj]
      simpa using setParameter_text obj hkey hvalue
    · rw [List.reverse_append, List.reverse_singleton, List.singleton_append, lookup_cons_eq]
      by_cases hallowed : allowed parameter.1 = true
      · rw [if_pos hallowed, lookup_setProperty, lookup]
        by_cases own : key = parameter.1
        · subst own
          by_cases proto : parameter.1 = str "__proto__" <;> simp [keepsKey, hallowed, proto]
        · simp [own]
      · rw [if_neg hallowed, lookup]
        by_cases own : key = parameter.1
        · subst own
          simp [keepsKey, hallowed]
        · simp [own]

theorem splitOn_query {parameters : List (Bytes × Bytes)} (hne : parameters ≠ []) :
    (query parameters).splitOn ampersand = parameters.map parameterText := by
  refine List.splitOn_intercalate ampersand ?_ (by simpa using hne)
  intro s hs
  obtain ⟨parameter, -, rfl⟩ := List.mem_map.1 hs
  have free : ∀ s, ampersand ∉ encodeURIComponent s := fun s =>
    not_mem_encode s (by decide) (by decide)
  have other : ampersand ≠ equals := by decide
  simp [parameterText, free, other]

theorem oauthState_query {parameters : List (Bytes × Bytes)} (h : Utf8 parameters) :
    ∃ st, oauthState (query parameters) = some st ∧
      (∀ key, st.parameters.lookup key =
        if keepsKey key then parameters.reverse.lookup key else none) ∧
      st.scope = (parameters.reverse.lookup (str "scope")).bind fun scope =>
        if scope = [] then none else some (parseScope scope) := by
  have read : ∃ obj, ((query parameters).splitOn ampersand).foldlM setParameter [] = some obj ∧
      ∀ key, obj.lookup key = if keepsKey key then parameters.reverse.lookup key else none := by
    by_cases hne : parameters = []
    · subst hne
      exact ⟨[], by decide, by simp⟩
    · rw [splitOn_query hne]
      exact foldlM_parameters h
  obtain ⟨obj, hobj, lookup⟩ := read
  refine ⟨_, by rw [oauthState, hobj, Option.map_some], lookup, ?_⟩
  have kept : keepsKey (str "scope") = true := by decide
  simp only [lookup, kept, if_true]

theorem createRedirectUri_token {parameters : List (Bytes × Bytes)} (h : Utf8 parameters)
    {st : OAuthState} (hst : oauthState (query parameters) = some st) {uri token : Bytes}
    (huri : parameters.reverse.lookup (str "redirect_uri") = some uri)
    (htoken : isUtf8 token = true) :
    ∃ encoded, createRedirectUri st token = uri ++ str "#access_token=" ++ encoded ∧
      decodeURIComponent encoded = some token ∧ ampersand ∉ encoded := by
  obtain ⟨st', hst', lookup, -⟩ := oauthState_query h
  obtain rfl := Option.some.inj (hst.symm.trans hst')
  have kept : keepsKey (str "redirect_uri") = true := by decide
  have free : ampersand ∉ encodeURIComponent token := not_mem_encode _ (by decide) (by decide)
  refine ⟨encodeURIComponent token, ?_, decode_encode htoken, free⟩
  rw [createRedirectUri, lookup, if_pos kept, huri, Option.getD_some]

theorem joined_ne_nil {entries : List (Bytes × Bytes)} (hunsplit : EntriesUnsplit entries)
    (hne : entries ≠ []) :
    List.intercalate [space] (entries.map scopeString) ≠ [] := by
  intro nil
  have split := splitOn_joined hne hunsplit
  rw [nil] at split
  have empty : [] ∈ entries.map scopeString := split ▸ List.mem_singleton_self []
  obtain ⟨entry, -, same⟩ := List.mem_map.1 empty
  exact absurd same (by simp [scopeString])

/-- What an app writes into the address is what the page reads, down to the single scopes, and what
the app finds behind its own address is the token. -/
theorem address_round_trip {parameters entries : List (Bytes × Bytes)} (h : Utf8 parameters)
    (hunsplit : EntriesUnsplit entries) (hne : entries ≠ [])
    (hscope : parameters.reverse.lookup (str "scope") =
      some (List.intercalate [space] (entries.map scopeString))) :
    ∃ st scope, oauthState (query parameters) = some st ∧
      (∀ key, st.parameters.lookup key =
        if keepsKey key then parameters.reverse.lookup key else none) ∧
      st.scope = some scope ∧
      (∀ name, getProperty scope name =
        if name = str "__proto__" then none else entries.reverse.lookup name) ∧
      ∀ uri token, parameters.reverse.lookup (str "redirect_uri") = some uri →
        isUtf8 token = true → ∃ encoded,
          createRedirectUri st token = uri ++ str "#access_token=" ++ encoded ∧
            decodeURIComponent encoded = some token ∧ ampersand ∉ encoded := by
  obtain ⟨st, hst, lookup, scope⟩ := oauthState_query h
  rw [hscope, Option.bind_some, if_neg (joined_ne_nil hunsplit hne)] at scope
  exact ⟨st, _, hst, lookup, scope, getProperty_joined hunsplit, fun uri token huri htoken =>
    createRedirectUri_token h hst huri htoken⟩

def sampleEntries : List (Bytes × Bytes) := [(str "a", str "rw"), (str "7", str "r")]

def sampleParameters : List (Bytes × Bytes) :=
  [(str "client_id", str "an app"), (str "redirect_uri", str "http://app/?x=1&y=2"),
    (str "scope", str "a:rw 7:r")]

theorem address_round_trip_sample : ∃ st scope, oauthState (query sampleParameters) = some st ∧
      (∀ key, st.parameters.lookup key =
        if keepsKey key then sampleParameters.reverse.lookup key else none) ∧
      st.scope = some scope ∧
      (∀ name, getProperty scope name =
        if name = str "__proto__" then none else sampleEntries.reverse.lookup name) ∧
      ∀ uri token, sampleParameters.reverse.lookup (str "redirect_uri") = some uri →
        isUtf8 token = true → ∃ encoded,
          createRedirectUri st token = uri ++ str "#access_token=" ++ encoded ∧
            decodeURIComponent encoded = some token ∧ ampersand ∉ encoded :=
  address_round_trip (by decide +kernel) (by decide +kernel) (by decide) (by decide +kernel)

theorem keys_upsert {β : Type} (l : JsObject β) (key : Bytes) (value : β) :
    (upsert l key value).map Prod.fst =
      if key ∈ l.map Prod.fst then l.map Prod.fst else l.map Prod.fst ++ [key] := by
  by_cases mem : key ∈ l.map Prod.fst
  · obtain ⟨front, old, back, rfl, absent⟩ := exists_split mem
    rw [if_pos mem, upsert_split absent]
    simp
  · rw [if_neg mem, upsert_absent mem]
    simp

theorem nodup_parseScope (scope : Bytes) : ((parseScope scope).map Prod.fst).Nodup := by
  unfold parseScope
  induction scope.splitOn space using List.reverseRecOn with
  | nil => exact List.nodup_nil
  | append_singleton items item ih =>
    rw [List.foldl_append, List.foldl_cons, List.foldl_nil, assign]
    split_ifs with proto
    · exact ih
    · rw [keys_upsert]
      split_ifs with mem
      · exact ih
      · refine List.nodup_append.2 ⟨ih, List.nodup_singleton _, fun k hk k' hk' same => ?_⟩
        rw [List.mem_singleton] at hk'
        exact mem (hk' ▸ same ▸ hk)

theorem mem_requestedScopes {obj : JsObject (Option Bytes)} (h : (obj.map Prod.fst).Nodup)
    {key mode : Bytes} : (key, mode) ∈ requestedScopes obj ↔ getProperty obj key = some mode := by
  have entry : (key, mode) ∈ requestedScopes obj ↔ (key, some mode) ∈ obj := by
    simp [requestedScopes, List.mem_filterMap]
  rw [entry, getProperty]
  constructor
  · intro mem
    rw [lookup_of_mem h mem]
    rfl
  · intro found
    cases hlookup : obj.lookup key with
    | none => simp [hlookup] at found
    | some value =>
      rw [hlookup] at found
      exact mem_of_lookup (found ▸ hlookup)

theorem mem_confirmed {asciiValue : Bytes → Bytes} (text : Bytes) {scope : RsScope} :
    scope ∈ (requestedScopes (parseScope text)).map
        (fun entry => addScope asciiValue entry.1 entry.2) ↔
      scope ∈ add asciiValue (parseScope text) := by
  rw [mem_add, List.mem_map]
  constructor
  · intro found
    obtain ⟨⟨key, mode⟩, mem, same⟩ := found
    refine ⟨key, ?_⟩
    rw [scopeOfKey, (mem_requestedScopes (nodup_parseScope text)).1 mem, Option.map_some, same]
  · intro found
    obtain ⟨key, hkey⟩ := found
    rw [scopeOfKey, Option.map_eq_some_iff] at hkey
    obtain ⟨mode, hmode, same⟩ := hkey
    exact ⟨(key, mode), (mem_requestedScopes (nodup_parseScope text)).2 hmode, same⟩

theorem ascii_digit (n : Nat) : 0 < Sessions.digit n ∧ Sessions.digit n < 128 := by
  have all : ∀ n < 64, 0 < Sessions.digit n ∧ Sessions.digit n < 128 := by decide +kernel
  have same : Sessions.digit n = Sessions.digit (n % 64) := by
    rw [Sessions.digit, Sessions.digit, Nat.mod_mod]
  rw [same]
  exact all _ (Nat.mod_lt _ (by decide))

theorem ascii_base64 (buf : Bytes) : Ascii (Sessions.base64 buf) := by
  have padding : (0 : UInt8) < 61 ∧ (61 : UInt8) < 128 := by decide
  induction buf using Sessions.base64.induct with
  | case1 => simp [Sessions.base64, Ascii]
  | case2 a => simp [Sessions.base64, Ascii, ascii_digit, padding]
  | case3 a b => simp [Sessions.base64, Ascii, ascii_digit, padding]
  | case4 a b c rest ih =>
    simp only [Sessions.base64, Ascii, List.forall_mem_cons, ascii_digit, and_self, true_and]
    exact ih

variable {σ : Type} {env : Env} {db : Database σ} {asciiValue : Bytes → Bytes} {users : Set Bytes}
  {start : Node}

theorem granted_confirmed {before later : List Action} {user : Bytes} {scopes : Sessions.Scopes}
    {buf : Sessions.RandomBytes} {auth : RsAuthorization}
    (hauth : addedAuthorization asciiValue user (Sessions.base64 buf.1) scopes = auth)
    (hlater : ∀ b ∈ later, ∀ c, b.call asciiValue = some c →
      (c.auth.username, c.auth.token) ≠ (auth.username, auth.token)) :
    granted asciiValue (before ++ .backend (.authorizationToken user scopes buf) :: later)
      auth.username auth.token = some auth := by
  have hcall : (Action.backend (.authorizationToken user scopes buf)).call asciiValue =
      some (.add auth) := by
    rw [← hauth]
    rfl
  have untouched : ∀ c ∈ (calls asciiValue later).map Call.change,
      c.point ≠ (auth.username, auth.token) := by
    intro c hc
    obtain ⟨made, hmade, rfl⟩ := List.mem_map.1 hc
    obtain ⟨b, hb, hcalled⟩ := List.mem_filterMap.1 hmade
    have apart := hlater b hb made hcalled
    cases made with
    | add other => exact apart
    | remove other => exact apart
  have log : calls asciiValue (before ++ .backend (.authorizationToken user scopes buf) :: later) =
      (calls asciiValue before ++ [.add auth]) ++ calls asciiValue later := by
    simp [calls, List.filterMap_cons_some hcall]
  rw [granted, log, lastAdded, List.map_append, latest_append _ untouched]
  have last := AuthStore.lastAdded_append_add (calls asciiValue before) auth auth.username
    auth.token
  rwa [if_pos rfl] at last

/-- From the app's request to the storage server: the app opens the page with scopes `name:mode`,
the user confirms, and the token that comes back is good for exactly the scopes that the page has
kept, until the token is added or removed again. The properties of the object may arrive in any
order: names that read as array indices go to the front. -/
theorem page_grants (hstart : EmptyRoots env.cfg users start) {fds : List Nat} {sys : System σ}
    (hascii : ∀ s, Ascii s → asciiValue s = s) {parameters entries : List (Bytes × Bytes)}
    (hutf8 : Utf8 parameters) (hwords : Words entries) {uri : Bytes}
    (huri : parameters.reverse.lookup (str "redirect_uri") = some uri)
    (hscope : parameters.reverse.lookup (str "scope") =
      some (List.intercalate [space] (entries.map scopeString)))
    {st : OAuthState} (hst : oauthState (query parameters) = some st)
    {confirmed : JsObject (Option Bytes)} (hconfirmed : st.scope = some confirmed)
    {requested : Sessions.Scopes} (hrequested : requested.Perm (requestedScopes confirmed))
    {before later : List Action} {user : Bytes} (huser : Ascii user) {buf : Sessions.RandomBytes}
    (hproper : ∀ b ∈ before ++ .backend (.authorizationToken user requested buf) :: later,
      b.Proper users asciiValue)
    (hfresh : FreshTokens (before ++ .backend (.authorizationToken user requested buf) :: later))
    (hrun : run env db asciiValue ⟨Sessions.start, db.empty, ⟨start, fds⟩⟩
      (before ++ .backend (.authorizationToken user requested buf) :: later) = some sys)
    (hlater : ∀ b ∈ later, ∀ c, b.call asciiValue = some c →
      (c.auth.username, c.auth.token) ≠ (user, Sessions.base64 buf.1)) :
    ∃ encoded token, createRedirectUri st (Sessions.base64 buf.1) =
        uri ++ str "#access_token=" ++ encoded ∧ decodeURIComponent encoded = some token ∧
      ∀ req : Request, req.user = user → bearerToken req = some token →
        (LetThrough env (recordAt db sys.records) req ↔ verifyUser env.getpwnam user = 0 ∧
          ((∃ entry, Kept entries entry ∧ matchScope (addTokenScope (scopeString entry)) req = 0) ∨
            publicRead req)) := by
  obtain ⟨docs, sound⟩ := sound_run hstart fds hproper hfresh hrun
  have digits : Ascii (Sessions.base64 buf.1) := ascii_base64 buf.1
  have utf8 : isUtf8 (Sessions.base64 buf.1) = true := isUtf8_of_ascii fun c hc => (digits c hc).2
  obtain ⟨encoded, hredirect, hdecode, -⟩ := createRedirectUri_token hutf8 hst huri utf8
  refine ⟨encoded, _, hredirect, hdecode, fun req hreq htoken => ?_⟩
  have plain {s : Bytes} (hs : Ascii s) : cstr (asciiValue s) = s := by
    rw [hascii s hs]
    exact cstr_of_nulFree fun mem => absurd (hs 0 mem).1 (by decide)
  have text : confirmed = parseScope (List.intercalate [space] (entries.map scopeString)) := by
    obtain ⟨st', hst', -, scope⟩ := oauthState_query hutf8
    obtain rfl := Option.some.inj (hst.symm.trans hst')
    rw [hconfirmed, hscope, Option.bind_some] at scope
    split_ifs at scope
    exact Option.some.inj scope
  let auth := addedAuthorization asciiValue user (Sessions.base64 buf.1) requested
  have username : auth.username = user := plain huser
  have token : auth.token = Sessions.base64 buf.1 := plain digits
  have found : granted asciiValue
      (before ++ .backend (.authorizationToken user requested buf) :: later)
      auth.username auth.token = some auth := granted_confirmed rfl (by rwa [username, token])
  rw [username, token] at found
  have fit : Addressable user (Sessions.base64 buf.1) := by
    have proper := hproper (.backend (.authorizationToken user requested buf)) (by simp)
    obtain ⟨-, storable⟩ := proper (.add auth) rfl
    rw [← username, ← token]
    exact AuthStore.addressable_of_layout storable.size
  have scopes : Authorize.grantedScopes (recordAt db sys.records) req = auth.scopes := by
    have fits : ∀ token, bearerToken req = some token → Addressable req.user token := by
      intro token same
      rw [htoken, Option.some_inj] at same
      rwa [← same, hreq]
    rw [sound.grantedScopes fits, Authorize.grantedScopes, htoken, Option.bind_some, hreq, found]
  have kept : ∀ scope, scope ∈ auth.scopes ↔
      ∃ entry, Kept entries entry ∧ addTokenScope (scopeString entry) = scope := by
    intro scope
    rw [← mem_pageScopes hascii hwords, pageScopes, ← mem_confirmed, ← text]
    exact (hrequested.map _).mem_iff
  rw [LetThrough, authorizeRequest_eq_zero, scopes, hreq]
  refine and_congr_right fun _ => or_congr_left ⟨fun h => ?_, fun h => ?_⟩
  · obtain ⟨scope, mem, hmatch⟩ := h
    obtain ⟨entry, hentry, rfl⟩ := (kept scope).1 mem
    exact ⟨entry, hentry, hmatch⟩
  · obtain ⟨entry, hentry, hmatch⟩ := h
    exact ⟨_, (kept _).2 ⟨entry, hentry, rfl⟩, hmatch⟩

def sampleLogin : List Action :=
  [.backend (.postAuthenticate (str "me")), .backend (.pamauth (str "me") true),
    .backend (.sessionToken (str "me") (sampleBytes 0)),
    .backend (.postAuthorizations (Sessions.base64 (sampleBytes 0).1) sampleEntries.reverse)]

theorem page_grants_sample : ∃ st sys, oauthState (query sampleParameters) = some st ∧
    sampleRun (sampleLogin ++ .backend (.authorizationToken (str "me")
      sampleEntries.reverse (sampleBytes 1)) :: [samplePutAction]) = some sys ∧
    ∃ encoded token, createRedirectUri st (Sessions.base64 (sampleBytes 1).1) =
        str "http://app/?x=1&y=2" ++ str "#access_token=" ++ encoded ∧
      decodeURIComponent encoded = some token ∧
      ∀ req : Request, req.user = str "me" → bearerToken req = some token →
        (LetThrough twoUsers (recordAt (listed Bytes Bytes) sys.records) req ↔
          verifyUser twoUsers.getpwnam (str "me") = 0 ∧
          ((∃ entry, Kept sampleEntries entry ∧
              matchScope (addTokenScope (scopeString entry)) req = 0) ∨ publicRead req)) := by
  have parsed : ((oauthState (query sampleParameters)).bind OAuthState.scope) =
      some (parseScope (str "a:rw 7:r")) := by
    decide +kernel
  obtain ⟨st, hst, hconfirmed⟩ := Option.bind_eq_some_iff.1 parsed
  have asked : requestedScopes (parseScope (str "a:rw 7:r")) = sampleEntries := by decide +kernel
  obtain ⟨sys, hrun⟩ := Option.isSome_iff_exists.1 (by decide +kernel :
    (sampleRun (sampleLogin ++ .backend (.authorizationToken (str "me")
      sampleEntries.reverse (sampleBytes 1)) :: [samplePutAction])).isSome = true)
  have proper : ∀ b ∈ sampleLogin ++ .backend (.authorizationToken (str "me")
      sampleEntries.reverse (sampleBytes 1)) :: [samplePutAction], b.Proper meAndYou id := by
    refine List.forall_mem_append.2 ⟨?_, List.forall_mem_cons.2 ⟨?_, List.forall_mem_singleton.2
      proper_put⟩⟩
    · simp only [sampleLogin, List.forall_mem_cons, List.not_mem_nil, false_implies, implies_true,
        and_true]
      refine ⟨?_, ?_, ?_, ?_⟩
      all_goals rintro c ⟨⟩
    · intro c hc
      obtain rfl : Call.add ⟨str "me", Sessions.base64 (sampleBytes 1).1,
        [⟨str "7", 0⟩, ⟨str "a", 1⟩]⟩ = c := Option.some.inj hc
      refine ⟨⟨by decide, by decide +kernel, by decide⟩, by decide, by decide +kernel,
        by decide +kernel, ?_⟩
      unfold Carried InRange
      decide +kernel
  refine ⟨st, sys, hst, hrun, ?_⟩
  have order : sampleEntries.reverse.Perm (requestedScopes (parseScope (str "a:rw 7:r"))) := by
    rw [asked]
    exact List.reverse_perm _
  have words : Words sampleEntries := by decide +kernel
  have uri : sampleParameters.reverse.lookup (str "redirect_uri") =
      some (str "http://app/?x=1&y=2") := by
    decide +kernel
  have me : Ascii (str "me") := by
    unfold Ascii
    decide +kernel
  refine page_grants UserStores.emptyRoots_twoHomes (fun _ _ => rfl) (by decide +kernel) words uri
    (by decide +kernel) hst hconfirmed order me proper ?_ hrun ?_
  · unfold FreshTokens
    decide +kernel
  · exact List.forall_mem_singleton.2 fun c hc => by cases hc

end RsServe.AuthPage

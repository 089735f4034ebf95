import RsServe.JsonDocuments
import RsServe.PercentCoding
import RsServe.Responses
import RsServe.Webfinger

/-! handle_webfinger: the documents that a client reads to find a user's storage, and what the
server does with the storage URI in them. -/

namespace RsServe.Announcements
open CString Users Webfinger JsonWriter JsonText JsonDocuments PercentCoding Responses

def storageApi : Bytes := str "draft-dejong-remotestorage-01"

def authMethod : Bytes := str "http://tools.ietf.org/html/rfc6749#section-4.2"

structure Query where
  method : Method
  /-- evhtp_kv_find for `resource`; none without a query as well -/
  resource : Option Bytes

def lrddTemplate (cfg : Config) : Bytes :=
  cfg.scheme ++ str "://" ++ cfg.hostname ++ str "/.well-known/webfinger?resource={uri}"

def addCorsHeaders : List (Bytes × Bytes) :=
  [(str "Access-Control-Allow-Origin", str "*"),
    (str "Access-Control-Allow-Headers",
      str "Authorization, Content-Type, If-Match, If-None-Match, Origin"),
    (str "Access-Control-Allow-Methods", str "GET")]

def writeHost (cfg : Config) (json : Json) : Option Json := do
  let json ← jsonWriteKeyVal json (str "subject") cfg.hostname
  let json ← jsonWriteKey json (str "links")
  let json := json.startArray.startObject
  let json ← jsonWriteKeyVal json (str "rel") (str "lrdd")
  let json ← jsonWriteKeyVal json (str "template") (lrddTemplate cfg)
  return json.endObject.endArray

def writeAccount (resource storageUri authUri : Bytes) (json : Json) : Option Json := do
  let json ← jsonWriteKeyVal json (str "subject") resource
  let json ← jsonWriteKey json (str "links")
  let json := json.startArray.startObject
  let json ← jsonWriteKeyVal json (str "rel") (str "remotestorage")
  let json ← jsonWriteKeyVal json (str "type") storageApi
  let json ← jsonWriteKeyVal json (str "href") storageUri
  let json ← jsonWriteKey json (str "properties")
  let json := json.startObject
  let json ← jsonWriteKeyVal json authMethod authUri
  -- legacy support, up to remotestorage-00
  let json ← jsonWriteKeyVal json (str "auth-method") authMethod
  let json ← jsonWriteKeyVal json (str "auth-endpoint") authUri
  return json.endObject.endObject.endArray

variable (cfg : Config) (unescape : Bytes → Option Bytes) (getpwnam : Bytes → Getpwnam)

/-- The status and the buffer for a GET, none where a string is too long for the writer. -/
def describe (authUri : Bytes) (resource : Option Bytes) : Option (Nat × Json) :=
  let json := (newJson []).startObject
  match resource with
  | none => (writeHost cfg json).map fun json => (200, json)
  | some resource =>
    match processResource cfg authUri unescape getpwnam resource with
    | .rejected _ => some (404, json)
    | .accepted storageUri authUri =>
      (writeAccount resource storageUri authUri json).map fun json => (200, json)

def handleWebfinger (authUri : Bytes) (q : Query) : Option Reply :=
  match q.method with
  | .GET => (describe cfg unescape getpwnam authUri q.resource).map fun described =>
      ⟨described.1, addCorsHeaders ++ [(str "Content-Type", str "application/json")],
        described.2.endObject.out⟩
  | .OPTIONS => some ⟨204, addCorsHeaders, []⟩
  | _ => some ⟨405, [], []⟩

def rejectWebfinger : Reply := ⟨501, [], []⟩

def webfingerCb (q : Query) : Option Reply :=
  match cfg.authUri with
  | some authUri => handleWebfinger cfg unescape getpwnam authUri q
  | none => some rejectWebfinger

/-- The user and the path of a request on `^/storage/([^/]+)/.*$` -/
def storageMatch (full : Bytes) : Option (Bytes × Bytes) :=
  if str "/storage/" <+: full then
    let rest := full.drop 9
    let user := rest.takeWhile (· ≠ slash)
    if user ≠ [] ∧ slash ∈ rest then some (user, rest.drop user.length) else none
  else none

def hostDocument : Document :=
  .object [(str "subject", .string cfg.hostname),
    (str "links", .array [.object [(str "rel", .string (str "lrdd")),
      (str "template", .string (lrddTemplate cfg))]])]

def accountDocument (resource storageUri authUri : Bytes) : Document :=
  .object [(str "subject", .string resource),
    (str "links", .array [.object [(str "rel", .string (str "remotestorage")),
      (str "type", .string storageApi), (str "href", .string storageUri),
      (str "properties", .object [(authMethod, .string authUri),
        (str "auth-method", .string authMethod), (str "auth-endpoint", .string authUri)])]])]

theorem writeHost_eq :
    (writeHost cfg (newJson []).startObject).map Json.endObject =
      emit (hostDocument cfg) (newJson []) := by
  simp [writeHost, hostDocument, emit, emitMembers, emitElements, jsonWriteKeyVal,
    Option.bind_assoc, Option.map_eq_bind]

theorem writeAccount_eq (resource storageUri authUri : Bytes) :
    (writeAccount resource storageUri authUri (newJson []).startObject).map Json.endObject =
      emit (accountDocument resource storageUri authUri) (newJson []) := by
  simp [writeAccount, accountDocument, emit, emitMembers, emitElements, jsonWriteKeyVal,
    Option.bind_assoc, Option.map_eq_bind]

structure Plain (s : Bytes) : Prop where
  printable : Printable s
  length : s.length < 2 ^ 26

instance (s : Bytes) : Decidable (Plain s) :=
  decidable_of_iff (Printable s ∧ s.length < 2 ^ 26)
    ⟨fun h => ⟨h.1, h.2⟩, fun h => ⟨h.printable, h.length⟩⟩

theorem Plain.nulFree {s : Bytes} (h : Plain s) : NulFree s := fun mem =>
  h.printable 0 mem (by decide)

theorem printable_append {a b : Bytes} (ha : Printable a) (hb : Printable b) :
    Printable (a ++ b) := fun c hc => (List.mem_append.1 hc).elim (ha c) (hb c)

theorem printable_encode (s : Bytes) : Printable (encodeURIComponent s) := by
  intro c hc
  have free : ∀ n < 32, unreserved (UInt8.ofNat n) = false ∧ UInt8.ofNat n ≠ percent := by decide
  intro low
  have control := free c.toNat (by simpa using UInt8.lt_iff_toNat_lt.1 low)
  rw [UInt8.ofNat_toNat] at control
  rcases mem_encode hc with plain | same
  · exact absurd plain (by simp [control.1])
  · exact control.2 same

theorem length_encode (s : Bytes) : (encodeURIComponent s).length ≤ 3 * s.length := by
  induction s with
  | nil => simp [encodeURIComponent]
  | cons c s ih =>
    have head : (encodeByte c).length ≤ 3 := by
      unfold encodeByte
      split <;> simp
    have split : (encodeURIComponent (c :: s)).length =
        (encodeByte c).length + (encodeURIComponent s).length := by
      simp [encodeURIComponent]
    rw [split, List.length_cons]
    omega

variable {cfg unescape getpwnam}

theorem origin_spec (hhost : Plain cfg.hostname) :
    Printable (cfg.scheme ++ str "://" ++ cfg.hostname) ∧
      (cfg.scheme ++ str "://" ++ cfg.hostname).length ≤ cfg.hostname.length + 8 := by
  have scheme : Printable (cfg.scheme ++ str "://") ∧ (cfg.scheme ++ str "://").length ≤ 8 := by
    unfold Config.scheme
    cases cfg.useSsl with
    | false => decide +kernel
    | true => decide +kernel
  refine ⟨printable_append scheme.1 hhost.printable, ?_⟩
  rw [List.length_append]
  omega

theorem webfingerCb_document {format : Bytes} (hauth : cfg.authUri = some format)
    {resource : Option Bytes} {document : Document} {status : Nat}
    (hdescribe : (describe cfg unescape getpwnam format resource).map
        (fun described => (described.1, described.2.endObject)) =
      (emit document (newJson [])).map fun json => (status, json))
    (hprint : Strings Printable document) (hshort : Strings Short document)
    (hsingle : Single document) (hdepth : depth document ≤ 4) :
    ∃ reply, webfingerCb cfg unescape getpwnam ⟨.GET, resource⟩ = some reply ∧
      reply.status = status ∧ readDocument reply.body = some document := by
  have emitted := emit_eq [] [] document hshort (by simpa using hdepth)
  rw [newJson, emitted, Option.map_some, Option.map_eq_some_iff] at hdescribe
  obtain ⟨described, hdescribed, same⟩ := hdescribe
  refine ⟨⟨described.1, addCorsHeaders ++ [(str "Content-Type", str "application/json")],
    described.2.endObject.out⟩, ?_, (Prod.mk.inj same).1, ?_⟩
  · simp only [webfingerCb, hauth, handleWebfinger, hdescribed, Option.map_some]
  · rw [(Prod.mk.inj same).2]
    exact (readDocument_emitted hprint).2 hsingle

def fixedStrings : List Bytes :=
  [str "subject", str "links", str "rel", str "lrdd", str "template", str "remotestorage",
    str "type", storageApi, str "href", str "properties", authMethod, str "auth-method",
    str "auth-endpoint"]

theorem strings_host {P : Bytes → Prop} (fixed : ∀ s ∈ fixedStrings, P s) (hhost : P cfg.hostname)
    (htemplate : P (lrddTemplate cfg)) : Strings P (hostDocument cfg) := by
  simp only [fixedStrings, List.forall_mem_cons] at fixed
  simp only [hostDocument, Strings, MemberStrings, ElementStrings, hhost, htemplate, fixed,
    and_self]

theorem strings_account {P : Bytes → Prop} (fixed : ∀ s ∈ fixedStrings, P s)
    {resource storageUri authUri : Bytes} (hresource : P resource) (hstorage : P storageUri)
    (hauth : P authUri) : Strings P (accountDocument resource storageUri authUri) := by
  simp only [fixedStrings, List.forall_mem_cons] at fixed
  simp only [accountDocument, Strings, MemberStrings, ElementStrings, hresource, hstorage, hauth,
    fixed, and_self]

theorem printable_fixed : ∀ s ∈ fixedStrings, Printable s := by decide +kernel

theorem short_fixed : ∀ s ∈ fixedStrings, Short s := by decide +kernel

theorem host_document {format : Bytes} (hauth : cfg.authUri = some format)
    (hhost : Plain cfg.hostname) :
    ∃ reply, webfingerCb cfg unescape getpwnam ⟨.GET, none⟩ = some reply ∧ reply.status = 200 ∧
      readDocument reply.body = some (hostDocument cfg) := by
  obtain ⟨horigin, hlength⟩ := origin_spec hhost
  have small := hhost.length
  have name : Short cfg.hostname := by
    unfold Short
    omega
  have printable : Printable (lrddTemplate cfg) :=
    printable_append horigin (by decide +kernel)
  have short : Short (lrddTemplate cfg) := by
    have text : (str "/.well-known/webfinger?resource={uri}").length = 37 := by decide +kernel
    rw [Short, lrddTemplate, List.length_append, text]
    omega
  refine webfingerCb_document hauth ?_ (strings_host printable_fixed hhost.printable printable)
    (strings_host short_fixed name short) ?_ ?_
  · rw [← writeHost_eq, describe, Option.map_map, Option.map_map]
    rfl
  · exact ⟨trivial, ⟨trivial, trivial, trivial⟩, trivial⟩
  · simp [hostDocument, depth, membersDepth, elementsDepth]

theorem rejected_document {format resource : Bytes} (hauth : cfg.authUri = some format) {code : Int}
    (hrejected : processResource cfg format unescape getpwnam resource = .rejected code) :
    ∃ reply, webfingerCb cfg unescape getpwnam ⟨.GET, some resource⟩ = some reply ∧
      reply.status = 404 ∧ readDocument reply.body = some (.object []) := by
  refine webfingerCb_document hauth ?_ trivial trivial trivial (by decide)
  simp only [describe, hrejected, Option.map_some]
  rfl

theorem accepted_document {format resource storageUri authUri : Bytes}
    (hauth : cfg.authUri = some format)
    (haccepted : processResource cfg format unescape getpwnam resource =
      .accepted storageUri authUri)
    (hprint : Printable resource ∧ Printable storageUri ∧ Printable authUri)
    (hshort : Short resource ∧ Short storageUri ∧ Short authUri) :
    ∃ reply, webfingerCb cfg unescape getpwnam ⟨.GET, some resource⟩ = some reply ∧
      reply.status = 200 ∧
      readDocument reply.body = some (accountDocument resource storageUri authUri) := by
  refine webfingerCb_document hauth ?_
    (strings_account printable_fixed hprint.1 hprint.2.1 hprint.2.2)
    (strings_account short_fixed hshort.1 hshort.2.1 hshort.2.2) ?_ ?_
  · simp only [describe, haccepted]
    rw [← writeAccount_eq, Option.map_map, Option.map_map]
    rfl
  · exact ⟨trivial, ⟨trivial, trivial, trivial, ⟨trivial, trivial, trivial, trivial⟩, trivial⟩,
      trivial⟩
  · simp [accountDocument, depth, membersDepth, elementsDepth]

theorem storageMatch_below {user : Bytes} (hne : user ≠ []) (hslash : slash ∉ user)
    (name : Bytes) :
    storageMatch (str "/storage/" ++ user ++ slash :: name) = some (user, slash :: name) := by
  have nine : (str "/storage/").length = 9 := by decide
  have rest : (str "/storage/" ++ user ++ slash :: name).drop 9 = user ++ slash :: name := by
    rw [← nine, List.append_assoc, List.drop_left]
  have other : ∀ c ∈ user, decide (c ≠ slash) := fun c hc =>
    decide_eq_true fun same => hslash (same ▸ hc)
  have first : (user ++ slash :: name).takeWhile (· ≠ slash) = user := by
    rw [List.takeWhile_append_of_pos other]
    simp
  have start : str "/storage/" <+: str "/storage/" ++ user ++ slash :: name := by
    rw [List.append_assoc]
    exact List.prefix_append _ _
  simp only [storageMatch, if_pos start, rest, first]
  rw [if_pos ⟨hne, by simp⟩, List.drop_left]

/-- A client finds the storage of a user: the host's document gives the template; filled in with the
account it leads to the storage of a user that the server knows, and to an empty document for
another one; and what lies below the storage URI is a path of that user. -/
theorem discovery {before after : Bytes} (hauth : cfg.authUri = some (before ++ str "%s" ++ after))
    (hformat : percent ∉ before ∧ percent ∉ after)
    (hplain : Plain before ∧ Plain after ∧ Plain cfg.hostname)
    (hunescape : ∀ s, NulFree s → unescape (encodeURIComponent s) = some s)
    {user : Bytes} (huser : Plain user) (hat : at_ ∉ user) (hslash : slash ∉ user) (hne : user ≠ [])
    (hlookup : userGetUid getpwnam user ≠ -1 ∧ userGetUid getpwnam user ≠ -2) :
    (∃ reply, webfingerCb cfg unescape getpwnam ⟨.GET, none⟩ = some reply ∧ reply.status = 200 ∧
      readDocument reply.body = some (hostDocument cfg)) ∧
    (∃ reply, webfingerCb cfg unescape getpwnam
        ⟨.GET, some (encodeURIComponent (account cfg user))⟩ = some reply ∧
      if verifyUser getpwnam user = 0 then
        reply.status = 200 ∧ readDocument reply.body = some (accountDocument
          (encodeURIComponent (account cfg user))
          (cfg.scheme ++ str "://" ++ cfg.hostname ++ str "/storage/" ++ user)
          (before ++ user ++ after))
      else reply.status = 404 ∧ readDocument reply.body = some (.object [])) ∧
    ∀ name, storageMatch (str "/storage/" ++ user ++ slash :: name) =
      some (user, slash :: name) := by
  obtain ⟨pbefore, pafter, phost⟩ := hplain
  refine ⟨host_document hauth phost, ?_, storageMatch_below hne hslash⟩
  have text : (str "acct:").length = 5 ∧ (str "/storage/").length = 9 := by decide +kernel
  obtain ⟨horigin, hlength⟩ := origin_spec phost
  have lengths := And.intro huser.length (And.intro phost.length
    (And.intro pbefore.length pafter.length))
  have printable : Printable (account cfg user) := by
    rw [account]
    refine printable_append (printable_append (by decide +kernel) huser.printable) fun c hc => ?_
    rcases List.mem_cons.1 hc with rfl | mem
    · decide
    · exact phost.printable c mem
  have nulFree : NulFree (account cfg user) := fun mem => printable 0 mem (by decide)
  have processed : processResource cfg (before ++ str "%s" ++ after) unescape getpwnam
      (encodeURIComponent (account cfg user)) =
        if uidAllowed (userGetUid getpwnam user) then
          .accepted (cfg.scheme ++ str "://" ++ cfg.hostname ++ str "/storage/" ++ user)
            (before ++ user ++ after)
        else .rejected (-1) := by
    rw [processResource_account (hunescape _ nulFree) (cstr_of_nulFree nulFree) hat,
      sprintfS_storageUriFormat, sprintfS_append hformat.1]
  by_cases verified : verifyUser getpwnam user = 0
  · rw [if_pos ((verifyUser_eq_zero getpwnam).1 verified).2.2] at processed
    have storage : Printable (cfg.scheme ++ str "://" ++ cfg.hostname ++ str "/storage/" ++ user) :=
      printable_append (printable_append horigin (by decide +kernel)) huser.printable
    have auth : Printable (before ++ user ++ after) :=
      printable_append (printable_append pbefore.printable huser.printable) pafter.printable
    have short : Short (encodeURIComponent (account cfg user)) ∧
        Short (cfg.scheme ++ str "://" ++ cfg.hostname ++ str "/storage/" ++ user) ∧
          Short (before ++ user ++ after) := by
      have encoded := length_encode (account cfg user)
      have total : (account cfg user).length = 5 + user.length + (cfg.hostname.length + 1) := by
        simp only [account, List.length_append, List.length_cons, text]
      rw [List.length_append] at hlength
      simp only [Short, List.length_append, text] at hlength ⊢
      omega
    obtain ⟨reply, hreply, status, document⟩ := accepted_document hauth processed
      ⟨printable_encode _, storage, auth⟩ short
    exact ⟨reply, hreply, by rw [if_pos verified]; exact ⟨status, document⟩⟩
  · have unlisted : ¬ uidAllowed (userGetUid getpwnam user) := fun allowed =>
      verified ((verifyUser_eq_zero getpwnam).2 ⟨hlookup.1, hlookup.2, allowed⟩)
    rw [if_neg unlisted] at processed
    obtain ⟨reply, hreply, answered⟩ := rejected_document hauth processed
    exact ⟨reply, hreply, by rw [if_neg verified]; exact answered⟩

def sampleConfig : Config := { defaultConfig with authUri := some (str "https://auth/%s/login") }

theorem discovery_sample :
    (∃ reply, webfingerCb sampleConfig percentDecode (fun _ => .entry ⟨1000, 1000⟩) ⟨.GET, none⟩ =
        some reply ∧ reply.status = 200 ∧
      readDocument reply.body = some (hostDocument sampleConfig)) ∧
    (∃ reply, webfingerCb sampleConfig percentDecode (fun _ => .entry ⟨1000, 1000⟩)
        ⟨.GET, some (encodeURIComponent (account sampleConfig (str "me")))⟩ = some reply ∧
      if verifyUser (fun _ => .entry ⟨1000, 1000⟩) (str "me") = 0 then
        reply.status = 200 ∧ readDocument reply.body = some (accountDocument
          (encodeURIComponent (account sampleConfig (str "me")))
          (sampleConfig.scheme ++ str "://" ++ sampleConfig.hostname ++ str "/storage/" ++ str "me")
          (str "https://auth/" ++ str "me" ++ str "/login"))
      else reply.status = 404 ∧ readDocument reply.body = some (.object [])) ∧
    ∀ name, storageMatch (str "/storage/" ++ str "me" ++ slash :: name) =
      some (str "me", slash :: name) := by
  have unescape : ∀ s, NulFree s → percentDecode (encodeURIComponent s) = some s := by
    intro s _
    have decoded := percentDecode_encode s []
    rwa [List.append_nil, percentDecode, Option.map_some, List.append_nil] at decoded
  have auth : sampleConfig.authUri = some (str "https://auth/" ++ str "%s" ++ str "/login") := by
    decide
  exact discovery auth (by decide +kernel) (by decide +kernel) unescape (by decide +kernel)
    (by decide) (by decide) (by decide) (by decide)

end RsServe.Announcements

import Mathlib.Data.Set.List
import RsServe.AuthPage
import RsServe.SpacedDocuments

/-! What list-tokens, lookup-token and the backend's list show of the stored authorizations. -/

namespace RsServe.TokenListings
open CString NameTree Kernel Storage AuthRecord Authorize Dispatch ScopeEntry KeyedStore
open JsonDocuments Grants
open AuthStore (Database Call Lookup Holds lookupAuthorization listAuthorizations addAuthorization
  unpackEntry pairKey Addressable lastAdded)
open JsonWriter (comma quote backslash makeString Printable)
open SpacedDocuments
open JavaScript (JsObject)
open ScopeAgreement (Ascii)
open AuthPage (setProperty lookup_setProperty)

def modeText (write : UInt8) : Bytes := if write ≠ 0 then str "rw" else str "r"

/-- None where the name is NULL. -/
def printScope (scope : RawScope) : Option Bytes :=
  scope.name.map fun name =>
    str "\n    \"" ++ name ++ str "\": \"" ++ modeText scope.write ++ str "\""

def printAuthorization (auth : RawAuthorization) : Option Bytes :=
  (auth.scopes.mapM printScope).map fun scopes =>
    str "\x7b\n  \"user\": \"" ++ auth.username ++ str "\",\n  \"token\": \"" ++ auth.token ++
      str "\",\n  \"scopes\": \x7b" ++ List.intercalate [comma] scopes ++ str "\n  \x7d\n\x7d"

variable {σ : Type} (db : Database σ)

/-- Nothing is printed for an empty database. -/
def printAuthorizations (s : σ) (username : Option Bytes) : Option Bytes :=
  if db.cursor s = [] then some []
  else do
    let records ← (db.cursor s).mapM unpackEntry
    let texts ← (records.filter fun auth => username.all (auth.username = ·)).mapM
      printAuthorization
    return str "[" ++ List.intercalate (str ", ") texts ++ str "]\n"

def listTokensMain (s : σ) (args : List Bytes) : Option Bytes := printAuthorizations db s args.head?

def lookupTokenMain (s : σ) : List Bytes → Option (Nat × Bytes)
  | [username, token] =>
    match lookupAuthorization db s username token with
    | .record auth => (printAuthorization auth).map fun text => (0, text ++ str "\n")
    | .null => some (1, [])
    | _ => none
  | _ => some (127, [])

/-- Printed as it is, this is a string of JSON. -/
structure Clean (s : Bytes) : Prop where
  printable : Printable s
  quote : quote ∉ s
  backslash : backslash ∉ s

def scopesDocument (scopes : List RsScope) : Document :=
  .object (scopes.map fun scope => (scope.name, .string (modeText scope.write)))

def document (auth : RsAuthorization) : Document :=
  .object [(str "user", .string auth.username), (str "token", .string auth.token),
    (str "scopes", scopesDocument auth.scopes)]

structure CleanAuth (auth : RsAuthorization) : Prop where
  username : Clean auth.username
  token : Clean auth.token
  scopes : ∀ scope ∈ auth.scopes, Clean scope.name

theorem makeString_clean {s : Bytes} (h : Clean s) : makeString s = quote :: (s ++ [quote]) := by
  have same : (s.flatMap fun c => if c = quote ∨ c = backslash then [backslash, c] else [c]) =
      s := by
    refine (List.flatMap_congr fun c hc => ?_).trans (List.flatMap_singleton' s)
    rw [if_neg]
    rintro (rfl | rfl)
    · exact h.quote hc
    · exact h.backslash hc
  rw [makeString, same]
  rfl

theorem mapM_map {α β γ : Type} {f : β → Option γ} {g : α → β} {h : α → γ} {l : List α}
    (hf : ∀ a ∈ l, f (g a) = some (h a)) : (l.map g).mapM f = some (l.map h) := by
  induction l with
  | nil => rfl
  | cons a l ih =>
    rw [List.map_cons, List.mapM_cons, hf a List.mem_cons_self,
      ih fun b hb => hf b (List.mem_cons_of_mem _ hb)]
    rfl

def scopeText (scope : RsScope) : Bytes :=
  str "\n    \"" ++ scope.name ++ str "\": \"" ++ modeText scope.write ++ str "\""

theorem clean_modeText (write : UInt8) : Clean (modeText write) := by
  unfold modeText
  split
  · exact ⟨by decide +kernel, by decide, by decide⟩
  · exact ⟨by decide +kernel, by decide, by decide⟩

theorem memberText_string {before key value : Bytes} (hbefore : Blank before) (hkey : Clean key)
    (hvalue : Clean value) :
    MemberText (before ++ quote :: (key ++ (str "\": \"" ++ (value ++ [quote]))))
      (key, .string value) := by
  have separator : str "\": \"" = [quote, colon, 32, quote] := by decide
  have shape := MemberText.spaced hbefore hkey.printable (by decide +kernel : Blank [32])
    (reads_string hvalue.printable) (by decide +kernel : Blank [])
  rw [makeString_clean hkey, makeString_clean hvalue] at shape
  rw [separator]
  simpa using shape

theorem memberText_scope {scope : RsScope} (h : Clean scope.name) :
    MemberText (scopeText scope) (scope.name, .string (modeText scope.write)) := by
  have open_ : str "\n    \"" = str "\n    " ++ [quote] := by decide
  have close : str "\"" = [quote] := by decide
  have line : Blank (str "\n    ") := by decide +kernel
  have text := memberText_string line h (clean_modeText scope.write)
  rw [scopeText, open_, close]
  simpa using text

theorem reads_scopes {scopes : List RsScope} (h : ∀ scope ∈ scopes, Clean scope.name) :
    Reads (123 :: (List.intercalate [comma] (scopes.map scopeText) ++ (str "\n  " ++ [125])))
      (scopesDocument scopes) := by
  have blank : Blank (str "\n  ") := by decide +kernel
  by_cases hne : scopes = []
  · subst hne
    exact reads_emptyObject blank
  · refine reads_object ?_ (by simpa using hne) blank
    rw [List.forall₂_map_left_iff, List.forall₂_map_right_iff, List.forall₂_same]
    exact fun scope mem => memberText_scope (h scope mem)

theorem printAuthorization_raw (auth : RsAuthorization) :
    printAuthorization auth.raw = some (str "\x7b\n  \"user\": \"" ++ auth.username ++
      str "\",\n  \"token\": \"" ++ auth.token ++ str "\",\n  \"scopes\": \x7b" ++
      List.intercalate [comma] (auth.scopes.map scopeText) ++ str "\n  \x7d\n\x7d") := by
  have scopes : (auth.scopes.map RsScope.raw).mapM printScope = some (auth.scopes.map scopeText) :=
    mapM_map fun scope _ => (rfl : printScope scope.raw = some (scopeText scope))
  rw [printAuthorization, RsAuthorization.raw, scopes]
  rfl

theorem reads_printed {auth : RsAuthorization} (h : CleanAuth auth) :
    ∃ text, printAuthorization auth.raw = some text ∧ Reads text (document auth) := by
  refine ⟨_, printAuthorization_raw auth, ?_⟩
  have line : Blank (str "\n  ") := by decide +kernel
  have user := memberText_string line
    (⟨by decide +kernel, by decide, by decide⟩ : Clean (str "user")) h.username
  have token := memberText_string line
    (⟨by decide +kernel, by decide, by decide⟩ : Clean (str "token")) h.token
  have scopes := MemberText.spaced line (by decide +kernel : Printable (str "scopes"))
    (by decide +kernel : Blank [32]) (reads_scopes h.scopes) (by decide +kernel : Blank [])
  have object := reads_object (.cons user (.cons token (.cons scopes .nil))) (List.cons_ne_nil _ _)
    (by decide +kernel : Blank (str "\n"))
  have literals : str "\x7b\n  \"user\": \"" = 123 :: (str "\n  " ++ quote :: (str "user" ++
        str "\": \"")) ∧
      str "\",\n  \"token\": \"" = quote :: comma :: (str "\n  " ++ quote :: (str "token" ++
        str "\": \"")) ∧
      str "\",\n  \"scopes\": \x7b" = quote :: comma :: (str "\n  " ++
        (makeString (str "scopes") ++ colon :: ([32] ++ [123]))) ∧
      str "\n  \x7d\n\x7d" = str "\n  " ++ (125 :: (str "\n" ++ [125])) := by
    decide
  rw [literals.1, literals.2.1, literals.2.2.1, literals.2.2.2]
  simpa [List.intercalate, document] using object

theorem intercalate_blank (text : Bytes) (texts : List Bytes) :
    List.intercalate (str ", ") (text :: texts) =
      List.intercalate [comma] (text :: texts.map fun text => 32 :: text) := by
  have separator : str ", " = [comma, 32] := by decide
  rw [separator]
  induction texts generalizing text with
  | nil => simp [List.intercalate]
  | cons next texts ih =>
    rw [List.map_cons, intercalate_cons _ _ (List.cons_ne_nil _ _),
      intercalate_cons _ _ (List.cons_ne_nil _ _), ih next]
    cases texts with
    | nil => simp [List.intercalate]
    | cons last texts =>
      rw [List.map_cons, intercalate_cons _ _ (List.cons_ne_nil _ _),
        intercalate_cons _ _ (List.cons_ne_nil _ _)]
      simp

theorem elementText_blank {text before : Bytes} {d : Document} (hbefore : Blank before)
    (h : Reads text d) : ElementText (before ++ text) d := by
  have shape := ElementText.spaced hbefore h (by decide +kernel : Blank [])
  rwa [List.append_nil] at shape

theorem readDocument_list {auths : List RsAuthorization} (h : ∀ auth ∈ auths, CleanAuth auth) :
    ∃ texts, (auths.map RsAuthorization.raw).mapM printAuthorization = some texts ∧
      readDocument (str "[" ++ List.intercalate (str ", ") texts ++ str "]\n") =
        some (.array (auths.map document)) := by
  have printed : ∃ texts, (auths.map RsAuthorization.raw).mapM printAuthorization = some texts ∧
      List.Forall₂ (fun text auth => Reads text (document auth)) texts auths := by
    induction auths with
    | nil => exact ⟨[], rfl, .nil⟩
    | cons auth auths ih =>
      obtain ⟨texts, htexts, reads⟩ := ih fun a ha => h a (List.mem_cons_of_mem _ ha)
      obtain ⟨text, htext, read⟩ := reads_printed (h auth List.mem_cons_self)
      refine ⟨text :: texts, ?_, .cons read reads⟩
      rw [List.map_cons, List.mapM_cons, htext, htexts]
      rfl
  obtain ⟨texts, htexts, reads⟩ := printed
  refine ⟨texts, htexts, ?_⟩
  have ends : str "[" = [91] ∧ str "]\n" = [93] ++ str "\n" := by decide
  rw [ends.1, ends.2, ← List.append_assoc]
  cases reads with
  | nil => rfl
  | @cons text auth texts auths read reads =>
    have elements : List.Forall₂ ElementText (text :: texts.map fun text => 32 :: text)
        ((auth :: auths).map document) := by
      refine .cons (elementText_blank (by decide +kernel : Blank []) read) ?_
      rw [List.forall₂_map_left_iff, List.forall₂_map_right_iff]
      exact reads.imp fun text auth read => elementText_blank (by decide +kernel : Blank [32]) read
    have array := readDocument_reads (reads_array elements (List.cons_ne_nil _ _))
      (by decide +kernel : Blank (str "\n"))
    rw [intercalate_blank]
    simpa using array

def pair (auth : RsAuthorization) : Bytes × Bytes := (auth.username, auth.token)

section Records
variable {db} {s : σ} {m : Bytes × Bytes → Option RsAuthorization}

theorem entries_records (h : Holds db s m) {entries : List (Bytes × Bytes)}
    (hentries : ∀ entry ∈ entries, entry ∈ db.cursor s) :
    ∃ auths : List RsAuthorization,
      entries.mapM unpackEntry = some (auths.map RsAuthorization.raw) ∧
      auths.map (pairKey ∘ pair) = entries.map Prod.fst ∧
      ∀ auth ∈ auths, m (pair auth) = some auth := by
  induction entries with
  | nil => exact ⟨[], rfl, rfl, by simp⟩
  | cons entry entries ih =>
    obtain ⟨auths, hauths, keys, stored⟩ := ih fun e he => hentries e (List.mem_cons_of_mem _ he)
    obtain ⟨auth, hauth, key, unpacked⟩ := h.unpackEntry (hentries entry List.mem_cons_self)
    refine ⟨auth :: auths, ?_, ?_, List.forall_mem_cons.2 ⟨hauth, stored⟩⟩
    · rw [List.mapM_cons, unpacked, hauths]
      rfl
    · rw [List.map_cons, List.map_cons, keys, key]
      rfl

theorem all_records (h : Holds db s m) :
    ∃ auths : List RsAuthorization,
      (db.cursor s).mapM unpackEntry = some (auths.map RsAuthorization.raw) ∧
      (auths.map pair).Nodup ∧ ∀ auth, auth ∈ auths ↔ m (pair auth) = some auth := by
  obtain ⟨auths, hauths, keys, stored⟩ := entries_records h fun entry he => he
  refine ⟨auths, hauths, ?_, fun auth => ⟨stored auth, fun found => ?_⟩⟩
  · have distinct := db.cursor_nodup s
    rw [← keys, ← List.map_map] at distinct
    exact distinct.of_map
  · have entry : (pairKey (pair auth), AuthRecord.layout auth) ∈ db.cursor s :=
      (h.mem_cursor _ _).2 ⟨_, auth, rfl, found, rfl⟩
    have key : pairKey (pair auth) ∈ auths.map (pairKey ∘ pair) := by
      rw [keys]
      exact List.mem_map_of_mem entry
    obtain ⟨other, mem, same⟩ := List.mem_map.1 key
    have own : pair other = pair auth := h.unshared _ _ found _ same
    have value := stored other mem
    rw [own, found, Option.some_inj] at value
    exact value ▸ mem

theorem empty_of_cursor (h : Holds db s m) (hempty : db.cursor s = []) (p : Bytes × Bytes) :
    m p = none := by
  cases hp : m p with
  | none => rfl
  | some auth =>
    have entry := (h.mem_cursor (pairKey p) (AuthRecord.layout auth)).2 ⟨p, auth, rfl, hp, rfl⟩
    rw [hempty] at entry
    cases entry

end Records

def scopeArgument : Bytes × Document → Option Bytes
  | (name, .string mode) => some (name ++ colon :: mode)
  | _ => none

def addArguments : Document → Option (List Bytes)
  | .object [(_, .string user), (_, .string token), (_, .object scopes)] =>
    (scopes.mapM scopeArgument).map fun args => user :: token :: args
  | _ => none

def restoreEntry (s : σ) (doc : Document) : Option σ :=
  match (addArguments doc).map AddToken.main with
  | some (.adds auth) => (addAuthorization db s auth).map Prod.snd
  | _ => none

/-- add-token for every entry of a list, in order -/
def restore (s : σ) (docs : List Document) : Option σ := docs.foldlM (restoreEntry db) s

/-- add-token can be given these names, and would not change them. -/
structure Restorable (auth : RsAuthorization) : Prop where
  clean : CleanAuth auth
  some_scope : auth.scopes ≠ []
  name : ∀ scope ∈ auth.scopes, colon ∉ scope.name ∧ scope.name ≠ str "root"
  write : ∀ scope ∈ auth.scopes, scope.write = 0 ∨ scope.write = 1

theorem addArguments_document (auth : RsAuthorization) :
    addArguments (document auth) = some (auth.username :: auth.token ::
      auth.scopes.map fun scope => scope.name ++ colon :: modeText scope.write) := by
  have argument (scope : RsScope) : scopeArgument (scope.name, .string (modeText scope.write)) =
      some (scope.name ++ colon :: modeText scope.write) := rfl
  have arguments := mapM_map (l := auth.scopes) fun scope _ => argument scope
  rw [document, scopesDocument, addArguments, arguments]
  rfl

theorem addTokenScope_listed {scope : RsScope}
    (hname : colon ∉ scope.name ∧ scope.name ≠ str "root")
    (hwrite : scope.write = 0 ∨ scope.write = 1) :
    addTokenScope (scope.name ++ colon :: modeText scope.write) = scope := by
  rw [addTokenScope_split hname.1, storedName, if_neg hname.2]
  rcases hwrite with zero | one
  · rw [zero]
    exact congrArg (RsScope.mk scope.name) zero.symm
  · rw [one]
    exact congrArg (RsScope.mk scope.name) one.symm

theorem main_listed {auth : RsAuthorization} (h : Restorable auth) :
    ((addArguments (document auth)).map AddToken.main) = some (.adds auth) := by
  have nulFree {s : Bytes} (hs : Clean s) : NulFree s := fun mem => hs.printable 0 mem (by decide)
  rw [addArguments_document, Option.map_some, AddToken.main_adds]
  · rw [List.map_map]
    have same : auth.scopes.map (addTokenScope ∘ fun scope =>
        scope.name ++ colon :: modeText scope.write) = auth.scopes := by
      refine (List.map_congr_left fun scope mem => ?_).trans (List.map_id _)
      exact addTokenScope_listed (h.name scope mem) (h.write scope mem)
    rw [same]
  · simpa using h.some_scope
  · intro argument mem
    obtain ⟨scope, -, rfl⟩ := List.mem_map.1 mem
    simp
  · intro argument mem
    obtain ⟨scope, hscope, rfl⟩ := List.mem_map.1 mem
    have name := nulFree (h.clean.scopes scope hscope)
    have mode := nulFree (clean_modeText scope.write)
    have other : (0 : UInt8) ≠ colon := by decide
    simpa [NulFree, other] using ⟨name, mode⟩

theorem restore_documents {auths : List RsAuthorization} (h : ∀ auth ∈ auths, Restorable auth)
    (s : σ) :
    restore db s (auths.map document) = (auths.map Call.add).foldlM (AuthStore.call db) s := by
  induction auths generalizing s with
  | nil => rfl
  | cons auth auths ih =>
    have entry : restoreEntry db s (document auth) = AuthStore.call db s (.add auth) := by
      rw [restoreEntry, main_listed (h auth List.mem_cons_self), AuthStore.call]
    have rest := ih fun a ha => h a (List.mem_cons_of_mem _ ha)
    calc restore db s ((auth :: auths).map document)
        = (restoreEntry db s (document auth)).bind fun s => restore db s (auths.map document) := rfl
      _ = (AuthStore.call db s (.add auth)).bind fun s =>
          (auths.map Call.add).foldlM (AuthStore.call db) s := by rw [entry, funext rest]

theorem latest_listed {auths : List RsAuthorization} {m : Bytes × Bytes → Option RsAuthorization}
    (hdistinct : (auths.map pair).Nodup) (hall : ∀ auth, auth ∈ auths ↔ m (pair auth) = some auth)
    (hpair : ∀ p auth, m p = some auth → p = pair auth) :
    latest ((auths.map Call.add).map Call.change) = m := by
  have points : ((auths.map Call.add).map Call.change).map Change.point = auths.map pair := by
    rw [List.map_map, List.map_map]
    rfl
  funext p
  cases hp : m p with
  | none =>
    apply latest_absent
    rw [points]
    intro mem
    obtain ⟨auth, hauth, rfl⟩ := List.mem_map.1 mem
    rw [(hall auth).1 hauth] at hp
    cases hp
  | some auth =>
    obtain rfl := hpair p auth hp
    have change : (Call.add auth).change ∈ (auths.map Call.add).map Call.change :=
      List.mem_map_of_mem (List.mem_map_of_mem ((hall auth).2 hp))
    have last := latest_of_mem (points ▸ hdistinct) change
    rw [Call.change, Change.apply, Change.point, Function.update_self] at last
    exact last

variable {db} {env : Env} {asciiValue : Bytes → Bytes} {users : Set Bytes} {start : Node}

theorem lookup_token_granted {past : List Action} {docs : UserStores.Store} {sys : System σ}
    (sound : Sound env db asciiValue users start past docs sys) {username token : Bytes}
    (hfit : Addressable username token) :
    (granted asciiValue past username token = none →
      lookupTokenMain db sys.records [username, token] = some (1, [])) ∧
    ∀ auth, granted asciiValue past username token = some auth → CleanAuth auth →
      ∃ text, lookupTokenMain db sys.records [username, token] = some (0, text) ∧
        readDocument text = some (document auth) := by
  have lookup : lookupAuthorization db sys.records username token =
      AuthStore.answer (granted asciiValue past username token) := sound.records.lookup hfit
  refine ⟨fun hnone => ?_, fun auth hauth clean => ?_⟩
  · rw [hnone] at lookup
    simp only [lookupTokenMain, lookup, AuthStore.answer]
  · rw [hauth] at lookup
    obtain ⟨text, printed, read⟩ := reads_printed clean
    refine ⟨text ++ str "\n", ?_, readDocument_reads read (by decide +kernel)⟩
    simp only [lookupTokenMain, lookup, AuthStore.answer, printed, Option.map_some]

/-- What list-tokens prints can be put back: read as JSON and given to add-token entry by entry, it
makes an empty store answer every lookup as the listed one does, in every state that is reached. -/
theorem list_tokens_restores (hstart : UserStores.EmptyRoots env.cfg users start)
    {actions : List Action} {fds : List Nat} {sys : System σ}
    (hproper : ∀ a ∈ actions, a.Proper users asciiValue) (hfresh : FreshTokens actions)
    (hrun : Grants.run env db asciiValue ⟨Sessions.start, db.empty, ⟨start, fds⟩⟩ actions =
      some sys)
    (hrestorable : ∀ auth, Call.add auth ∈ calls asciiValue actions → Restorable auth) :
    ∃ text, listTokensMain db sys.records [] = some text ∧
      (text = [] ↔ ∀ username token, granted asciiValue actions username token = none) ∧
      (text ≠ [] →
        ∃ docs s, readDocument text = some (.array docs) ∧ restore db db.empty docs = some s ∧
          ∀ username token, lookupAuthorization db s username token =
            lookupAuthorization db sys.records username token) := by
  obtain ⟨stored, sound⟩ := sound_run hstart fds hproper hfresh hrun
  by_cases hempty : db.cursor sys.records = []
  · refine ⟨[], if_pos hempty, iff_of_true rfl fun username token => ?_, fun some => (some rfl).elim⟩
    exact empty_of_cursor sound.records hempty (username, token)
  · obtain ⟨auths, hauths, distinct, all⟩ := all_records sound.records
    have added : ∀ auth ∈ auths, Call.add auth ∈ calls asciiValue actions := fun auth mem =>
      mem_calls_of_lastAdded ((all auth).1 mem)
    have restorable : ∀ auth ∈ auths, Restorable auth := fun auth mem =>
      hrestorable auth (added auth mem)
    obtain ⟨texts, htexts, read⟩ := readDocument_list fun auth mem => (restorable auth mem).clean
    have printed : str "[" ++ List.intercalate (str ", ") texts ++ str "]\n" ≠ [] := by
      have bracket : str "[" ≠ [] := by decide
      simp [bracket]
    refine ⟨str "[" ++ List.intercalate (str ", ") texts ++ str "]\n", ?_,
      iff_of_false printed ?_, fun _ => ⟨auths.map document, ?_⟩⟩
    · have every : ∀ records : List RawAuthorization,
          (records.filter fun auth => (none : Option Bytes).all (auth.username = ·)) = records :=
        fun records => List.filter_eq_self.2 fun _ _ => rfl
      rw [listTokensMain, List.head?_nil, printAuthorizations, if_neg hempty, hauths]
      simp only [Option.bind_eq_bind, Option.bind_some, every, htexts, Option.pure_def]
    · intro nothing
      obtain ⟨entry, hentry⟩ := List.exists_mem_of_ne_nil _ hempty
      obtain ⟨p, auth, -, hauth, -⟩ := (sound.records.mem_cursor entry.1 entry.2).1 hentry
      have missing : lastAdded (calls asciiValue actions) p.1 p.2 = none := nothing p.1 p.2
      exact absurd (hauth.symm.trans missing) (by simp)
    · have nulFree : ∀ c ∈ auths.map Call.add, c.auth.NulFree :=
        List.forall_mem_map.2 fun auth mem => sound.records.nulFree _ auth ((all auth).1 mem)
      have proper : ∀ c ∈ auths.map Call.add, c.Proper :=
        List.forall_mem_map.2 fun auth mem => sound.records.storable _ auth ((all auth).1 mem)
      obtain ⟨s, hs, holds⟩ : ∃ s, AuthStore.run db (auths.map Call.add) = some s ∧
        Holds db s (latest ((auths.map Call.add).map Call.change)) :=
        AuthStore.run_holds (auths.map Call.add) nulFree proper
      rw [latest_listed distinct all sound.records.pair] at holds
      have restored := (restore_documents db restorable db.empty).trans hs
      refine ⟨s, read, restored, fun username token => ?_⟩
      by_cases fit : Addressable username token
      · rw [holds.lookup fit, sound.records.lookup fit]
      · rw [AuthStore.lookupAuthorization_of_not_addressable _ fit,
          AuthStore.lookupAuthorization_of_not_addressable _ fit]

theorem calls_sampleActions : calls id sampleActions =
    [.add ⟨str "me", str "t", [⟨str "a", 1⟩]⟩,
      .add ⟨str "me", Sessions.base64 (sampleBytes 1).1, [⟨str "a", 0⟩]⟩] := rfl

theorem list_tokens_restores_sample : ∃ sys, sampleRun sampleActions = some sys ∧
    ∃ text, listTokensMain (KeyedStore.listed Bytes Bytes) sys.records [] = some text ∧
      (text = [] ↔ ∀ username token, granted id sampleActions username token = none) ∧
      (text ≠ [] →
        ∃ docs s, readDocument text = some (.array docs) ∧
          restore (KeyedStore.listed Bytes Bytes) (KeyedStore.listed Bytes Bytes).empty docs =
            some s ∧
          ∀ username token, lookupAuthorization (KeyedStore.listed Bytes Bytes) s username token =
            lookupAuthorization (KeyedStore.listed Bytes Bytes) sys.records username token) := by
  obtain ⟨sys, hrun⟩ := Option.isSome_iff_exists.1
    (by decide +kernel : (sampleRun sampleActions).isSome = true)
  have a : Clean (str "a") := ⟨by decide +kernel, by decide, by decide⟩
  have me : Clean (str "me") := ⟨by decide +kernel, by decide, by decide⟩
  refine ⟨sys, hrun, list_tokens_restores UserStores.emptyRoots_twoHomes proper_sampleActions
    (fresh_of_freshTokens fresh_sampleActions).1 hrun fun auth mem => ?_⟩
  rw [calls_sampleActions] at mem
  simp only [List.mem_cons, Call.add.injEq, List.not_mem_nil, or_false] at mem
  rcases mem with rfl | rfl
  · exact ⟨⟨me, ⟨by decide +kernel, by decide, by decide⟩, List.forall_mem_singleton.2 a⟩, by simp,
      List.forall_mem_singleton.2 (by decide), List.forall_mem_singleton.2 (by decide)⟩
  · exact ⟨⟨me, ⟨by decide +kernel, by decide +kernel, by decide +kernel⟩,
      List.forall_mem_singleton.2 a⟩, by simp, List.forall_mem_singleton.2 (by decide),
      List.forall_mem_singleton.2 (by decide)⟩

structure ListedAuthorization where
  username : Bytes
  token : Bytes
  scopes : JsObject Bytes

/-- String::New and String::NewSymbol belong to V8. None where a name is NULL. -/
def authToObject (newString : Bytes → Bytes) (auth : RawAuthorization) :
    Option ListedAuthorization :=
  (auth.scopes.mapM readable).map fun scopes =>
    { username := newString auth.username
      token := newString auth.token
      scopes := scopes.foldl (fun obj scope =>
        setProperty obj (newString scope.name) (newString (modeText scope.write))) [] }

/-- List of the bindings, called with the user of a session -/
def listOf (db : Database σ) (asciiValue newString : Bytes → Bytes) (s : σ) (username : Bytes) :
    Option (List ListedAuthorization) :=
  (listAuthorizations db s (some (cstr (asciiValue username)))).bind fun listed =>
    listed.mapM (authToObject newString)

theorem lookup_scopes {scopes : List RsScope} (hdistinct : (scopes.map RsScope.name).Nodup)
    (hproto : str "__proto__" ∉ scopes.map RsScope.name) (name mode : Bytes) :
    (scopes.foldl (fun obj scope => setProperty obj scope.name (modeText scope.write))
        ([] : JsObject Bytes)).lookup name = some mode ↔
      ∃ scope ∈ scopes, scope.name = name ∧ modeText scope.write = mode := by
  induction scopes using List.reverseRecOn with
  | nil => simp
  | append_singleton scopes scope ih =>
    rw [List.map_append, List.map_singleton] at hdistinct hproto
    rw [List.mem_append, List.mem_singleton, not_or] at hproto
    have earlier := ih hdistinct.of_append_left hproto.1
    rw [List.foldl_append, List.foldl_cons, List.foldl_nil, lookup_setProperty]
    by_cases own : name = scope.name
    · rw [if_pos ⟨own, Ne.symm hproto.2⟩, Option.some_inj]
      have absent : ∀ other ∈ scopes, other.name ≠ name := by
        intro other mem same
        rw [own] at same
        exact (List.nodup_append.1 hdistinct).2.2 _ (List.mem_map_of_mem mem) _
          (List.mem_singleton_self _) same
      constructor
      · intro same
        exact ⟨scope, by simp, own.symm, same⟩
      · intro found
        obtain ⟨other, mem, same, hmode⟩ := found
        rcases List.mem_append.1 mem with before | here
        · exact absurd same (absent other before)
        · rwa [List.mem_singleton.1 here] at hmode
    · rw [if_neg fun both => own both.1, earlier]
      constructor
      · intro found
        obtain ⟨other, mem, same⟩ := found
        exact ⟨other, List.mem_append_left _ mem, same⟩
      · intro found
        obtain ⟨other, mem, same, hmode⟩ := found
        rcases List.mem_append.1 mem with before | here
        · exact ⟨other, before, same, hmode⟩
        · rw [List.mem_singleton.1 here] at same
          exact absurd same.symm own

def shown (auth : RsAuthorization) : ListedAuthorization where
  username := auth.username
  token := auth.token
  scopes := auth.scopes.foldl (fun obj scope =>
    setProperty obj scope.name (modeText scope.write)) []

structure AsciiAuth (auth : RsAuthorization) : Prop where
  username : Ascii auth.username
  token : Ascii auth.token
  scopes : ∀ scope ∈ auth.scopes, Ascii scope.name

theorem ascii_modeText (write : UInt8) : Ascii (modeText write) := by
  unfold modeText Ascii
  split <;> decide +kernel

theorem foldl_newString {newString : Bytes → Bytes} (hnew : ∀ s, Ascii s → newString s = s)
    {scopes : List RsScope} (h : ∀ scope ∈ scopes, Ascii scope.name) (obj : JsObject Bytes) :
    scopes.foldl (fun obj scope =>
        setProperty obj (newString scope.name) (newString (modeText scope.write))) obj =
      scopes.foldl (fun obj scope => setProperty obj scope.name (modeText scope.write)) obj :=
  List.foldl_ext _ _ obj fun obj scope mem => by
    rw [hnew _ (h scope mem), hnew _ (ascii_modeText scope.write)]

theorem authToObject_raw {newString : Bytes → Bytes} (hnew : ∀ s, Ascii s → newString s = s)
    {auth : RsAuthorization} (h : AsciiAuth auth) :
    authToObject newString auth.raw = some (shown auth) := by
  rw [authToObject, RsAuthorization.raw, mapM_readable, Option.map_some,
    foldl_newString hnew h.scopes, hnew _ h.username, hnew _ h.token]
  rfl

theorem raw_injective : Function.Injective RsAuthorization.raw := by
  have scope : Function.Injective RsScope.raw := fun a b h => by
    cases a
    cases b
    simpa [RsScope.raw] using h
  intro a b h
  cases a
  cases b
  simpa [RsAuthorization.raw, (List.map_injective_iff.2 scope).eq_iff] using h

theorem listOf_records {newString : Bytes → Bytes} (hnew : ∀ s, Ascii s → newString s = s) {s : σ}
    {m : Bytes × Bytes → Option RsAuthorization} (h : Holds db s m)
    (hascii : ∀ p auth, m p = some auth → AsciiAuth auth) (username : Bytes) :
    ∃ auths : List RsAuthorization,
      listOf db asciiValue newString s username = some (auths.map shown) ∧
      (auths.map RsAuthorization.token).Nodup ∧
      ∀ auth, auth ∈ auths ↔ auth.username = cstr (asciiValue username) ∧
        m (cstr (asciiValue username), auth.token) = some auth := by
  obtain ⟨listed, hlisted, distinct, mem_listed⟩ := h.list (cstr (asciiValue username))
  have found : ∀ r, r ∈ listed ↔ r.username = cstr (asciiValue username) ∧
      ∃ auth, m (cstr (asciiValue username), r.token) = some auth ∧ auth.raw = r := fun r => by
    rw [mem_listed, h.lookup_eq_record]
  have raws : listed ∈ Set.range (List.map RsAuthorization.raw) := by
    rw [Set.range_list_map]
    intro r hr
    obtain ⟨-, auth, -, raw⟩ := (found r).1 hr
    exact ⟨auth, raw⟩
  obtain ⟨auths, rfl⟩ := raws
  rw [List.map_map] at distinct
  have own : ∀ auth, auth ∈ auths ↔ auth.username = cstr (asciiValue username) ∧
      m (cstr (asciiValue username), auth.token) = some auth := by
    intro auth
    rw [← List.mem_map_of_injective raw_injective, found]
    refine and_congr_right fun _ => ⟨fun record => ?_, fun record => ⟨auth, record, rfl⟩⟩
    obtain ⟨other, hother, raw⟩ := record
    exact raw_injective raw ▸ hother
  refine ⟨auths, ?_, distinct, own⟩
  rw [listOf, hlisted, Option.bind_some]
  exact mapM_map fun auth mem => authToObject_raw hnew (hascii _ auth ((own auth).1 mem).2)

def shownScope (name mode : Bytes) : RsScope := ⟨name, if mode = str "rw" then 1 else 0⟩

theorem matchScope_shown (scope : RsScope) (req : Request) :
    matchScope (shownScope scope.name (modeText scope.write)) req = 0 ↔
      matchScope scope req = 0 := by
  have mode : (shownScope scope.name (modeText scope.write)).write ≠ 0 ↔ scope.write ≠ 0 := by
    unfold shownScope modeText
    by_cases write : scope.write ≠ 0
    · simp [write]
    · rw [if_neg write, if_neg (by decide)]
      simpa using write
  rw [matchScope_eq_zero, matchScope_eq_zero, permits, permits, mode]
  rfl

/-- The list of the backend shows a user every token once and exactly what it is good for, in every
state that is reached, as long as the authorizations are in ASCII and name no scope twice. -/
theorem list_shows_grants (hstart : UserStores.EmptyRoots env.cfg users start)
    {newString : Bytes → Bytes} (hnew : ∀ s, Ascii s → newString s = s)
    {actions : List Action} {fds : List Nat} {sys : System σ}
    (hproper : ∀ a ∈ actions, a.Proper users asciiValue) (hfresh : FreshTokens actions)
    (hrun : Grants.run env db asciiValue ⟨Sessions.start, db.empty, ⟨start, fds⟩⟩ actions =
      some sys)
    (hadded : ∀ auth, Call.add auth ∈ calls asciiValue actions → AsciiAuth auth ∧
      (auth.scopes.map RsScope.name).Nodup ∧ str "__proto__" ∉ auth.scopes.map RsScope.name)
    (username : Bytes) :
    ∃ objs, listOf db asciiValue newString sys.records username = some objs ∧
      (objs.map ListedAuthorization.token).Nodup ∧
      (∀ token, token ∈ objs.map ListedAuthorization.token ↔
        (granted asciiValue actions (cstr (asciiValue username)) token).isSome) ∧
      ∀ (req : Request) (token : Bytes), req.user = cstr (asciiValue username) →
        bearerToken req = some token → Addressable req.user token →
        (LetThrough env (recordAt db sys.records) req ↔
          Users.verifyUser env.getpwnam req.user = 0 ∧
            ((∃ obj ∈ objs, obj.token = token ∧ ∃ name mode, obj.scopes.lookup name = some mode ∧
                matchScope (shownScope name mode) req = 0) ∨ publicRead req)) := by
  obtain ⟨stored, sound⟩ := sound_run hstart fds hproper hfresh hrun
  have ascii : ∀ (p : Bytes × Bytes) auth,
      lastAdded (calls asciiValue actions) p.1 p.2 = some auth →
        AsciiAuth auth := fun p auth hauth => (hadded auth (mem_calls_of_lastAdded hauth)).1
  obtain ⟨auths, hlist, distinct, found⟩ := listOf_records hnew sound.records ascii username
  refine ⟨auths.map shown, hlist, by rwa [List.map_map], fun token => ?_,
    fun req token huser htoken hfit => ?_⟩
  · rw [List.map_map, List.mem_map, Option.isSome_iff_exists]
    constructor
    · intro h
      obtain ⟨auth, mem, rfl⟩ := h
      exact ⟨auth, ((found auth).1 mem).2⟩
    · intro h
      obtain ⟨auth, hauth⟩ := h
      obtain ⟨user, rfl⟩ := AuthStore.lastAdded_pair _ hauth
      exact ⟨auth, (found auth).2 ⟨user.symm, hauth⟩, rfl⟩
  have fits : ∀ other, bearerToken req = some other → Addressable req.user other := by
    intro other same
    rw [htoken, Option.some_inj] at same
    exact same ▸ hfit
  rw [LetThrough, authorizeRequest_eq_zero, sound.grantedScopes fits, Authorize.grantedScopes,
    htoken, Option.bind_some]
  refine and_congr_right fun _ => or_congr_left ⟨fun h => ?_, fun h => ?_⟩
  · obtain ⟨scope, mem, hmatch⟩ := h
    cases hauth : granted asciiValue actions req.user token with
    | none => simp [hauth] at mem
    | some auth =>
      rw [hauth] at mem
      obtain ⟨user, rfl⟩ := AuthStore.lastAdded_pair _ hauth
      have mine : auth ∈ auths := (found auth).2 ⟨user.symm.trans huser, huser ▸ hauth⟩
      obtain ⟨-, names, proto⟩ := hadded auth (mem_calls_of_lastAdded hauth)
      refine ⟨shown auth, List.mem_map_of_mem mine, rfl, scope.name, modeText scope.write, ?_,
        (matchScope_shown scope req).2 hmatch⟩
      exact (lookup_scopes names proto _ _).2 ⟨scope, mem, rfl, rfl⟩
  · obtain ⟨obj, mem, rfl, name, mode, hmode, hmatch⟩ := h
    obtain ⟨auth, hauth, rfl⟩ := List.mem_map.1 mem
    have last : granted asciiValue actions req.user auth.token = some auth :=
      huser ▸ ((found auth).1 hauth).2
    obtain ⟨-, names, proto⟩ := hadded auth (mem_calls_of_lastAdded last)
    obtain ⟨scope, hscope, rfl, rfl⟩ := (lookup_scopes names proto _ _).1 hmode
    refine ⟨scope, ?_, (matchScope_shown scope req).1 hmatch⟩
    have own : granted asciiValue actions req.user (shown auth).token = some auth := last
    rw [own]
    exact hscope

theorem list_shows_grants_sample : ∃ sys, sampleRun sampleActions = some sys ∧
    ∃ objs, listOf (KeyedStore.listed Bytes Bytes) id id sys.records (str "me") = some objs ∧
      (objs.map ListedAuthorization.token).Nodup ∧
      (∀ token, token ∈ objs.map ListedAuthorization.token ↔
        (granted id sampleActions (cstr (id (str "me"))) token).isSome) ∧
      ∀ (req : Request) (token : Bytes), req.user = cstr (id (str "me")) →
        bearerToken req = some token → Addressable req.user token →
        (LetThrough UserStores.twoUsers (recordAt (KeyedStore.listed Bytes Bytes) sys.records) req ↔
          Users.verifyUser UserStores.twoUsers.getpwnam req.user = 0 ∧
            ((∃ obj ∈ objs, obj.token = token ∧ ∃ name mode, obj.scopes.lookup name = some mode ∧
                matchScope (shownScope name mode) req = 0) ∨ publicRead req)) := by
  obtain ⟨sys, hrun⟩ := Option.isSome_iff_exists.1
    (by decide +kernel : (sampleRun sampleActions).isSome = true)
  refine ⟨sys, hrun, list_shows_grants UserStores.emptyRoots_twoHomes (fun _ _ => rfl)
    proper_sampleActions (fresh_of_freshTokens fresh_sampleActions).1 hrun (fun auth mem => ?_) (str "me")⟩
  rw [calls_sampleActions] at mem
  simp only [List.mem_cons, Call.add.injEq, List.not_mem_nil, or_false] at mem
  rcases mem with rfl | rfl
  · refine ⟨⟨?_, ?_, ?_⟩, by simp, by decide⟩ <;> (unfold Ascii; decide +kernel)
  · refine ⟨⟨?_, ?_, ?_⟩, by simp, by decide⟩ <;> (unfold Ascii; decide +kernel)

end RsServe.TokenListings

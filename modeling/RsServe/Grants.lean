import RsServe.AddToken
import RsServe.AuthStore
import RsServe.Sessions
import RsServe.StoreRuns

/-! The whole system: tools and the authorization backend, which add authorizations and remove
them, and the storage server, which looks them up. Any of them may be the next to run. -/

namespace RsServe.Grants
open CString NameTree Kernel DiskPath Storage Users AuthRecord Authorize Dispatch Responses
open CanonicalPaths DocumentMap Documents ConditionalWrites Histories ScopeEntry KeyedStore
open AuthStore (Database Call Lookup addAuthorization removeAuthorization lookupAuthorization
  listAuthorizations lastAdded Addressable)
open UserStores (EmptyRoots rootOf asked asked_eq_some key_of key_storeRequest storeRules
  step_holds)
open StoreRuns (changed_on_the_way)
open UserStores (twoUsers twoHomes meAndYou)
open PutResults (samplePut)
open ConditionalStore (after after_cons serve_other)

/-- main of remove-token, on the arguments behind the program's name: what it gives to
remove_authorization, which reads no scopes. -/
def removeTokenMain : List Bytes → Option RsAuthorization
  | username :: token :: _ => some ⟨username, token, []⟩
  | _ => none

def addedAuthorization (asciiValue : Bytes → Bytes) (username token : Bytes)
    (scopes : Sessions.Scopes) : RsAuthorization where
  username := cstr (asciiValue username)
  token := cstr (asciiValue token)
  scopes := scopes.map fun entry => addScope asciiValue entry.1 entry.2

def readable (scope : RawScope) : Option RsScope := scope.name.map fun name => ⟨name, scope.write⟩

/-- What lookup_authorization returned, as match_scope reads it; none where fields are used that
are not set. -/
def usable : Lookup → Option (Option RsAuthorization)
  | .null => some none
  | .record raw =>
    (raw.scopes.mapM readable).map fun scopes => some ⟨raw.username, raw.token, scopes⟩
  | .unset => none
  | .outOfBounds => none

variable {σ : Type} (env : Env) (db : Database σ) (asciiValue : Bytes → Bytes)

def recordAt (s : σ) (username token : Bytes) : Option RsAuthorization :=
  (usable (lookupAuthorization db s username token)).join

def Misreads (s : σ) (req : Request) : Prop :=
  verifyUser env.getpwnam req.user = 0 ∧ req.method ≠ .OPTIONS ∧
    (bearerToken req).any fun token => usable (lookupAuthorization db s req.user token) = none

instance (s : σ) (req : Request) : Decidable (Misreads env db s req) :=
  inferInstanceAs (Decidable (_ ∧ _ ∧ _))

inductive Action where
  /-- add-token with these arguments -/
  | addToken (args : List Bytes)
  | removeToken (args : List Bytes)
  | backend (event : Sessions.Event)
  | request (written : Nat) (req : Request)

structure System (σ : Type) where
  sessions : Sessions.State
  records : σ
  server : Server

/-- None after a crash, and for a callback that nothing waits for. -/
def step (sys : System σ) : Action → Option (System σ)
  | .addToken args =>
    match AddToken.main args with
    | .usage => some sys
    | .adds auth =>
      (addAuthorization db sys.records auth).map fun added => { sys with records := added.2 }
    | .strays => none
  | .removeToken args =>
    match removeTokenMain args with
    | none => some sys
    | some auth =>
      (removeAuthorization db sys.records auth).map fun removed => { sys with records := removed.2 }
  | .backend event =>
    match Sessions.step sys.sessions event with
    | none => none
    | some (sessions, .added username token scopes) =>
      (addAuthorization db sys.records (addedAuthorization asciiValue username token scopes)).map
        fun added => { sys with sessions := sessions, records := added.2 }
    | some (sessions, .listed username) =>
      (listAuthorizations db sys.records (some (cstr (asciiValue username)))).map
        fun _ => { sys with sessions := sessions }
    | some (sessions, _) => some { sys with sessions := sessions }
  | .request written req =>
    if Misreads env db sys.records req then none
    else (serve env sys.server ⟨recordAt db sys.records, written, req⟩).map
      fun server => { sys with server := server }

def run (sys : System σ) (actions : List Action) : Option (System σ) :=
  actions.foldlM (step env db asciiValue) sys

def Action.call (asciiValue : Bytes → Bytes) : Action → Option Call
  | .addToken args =>
    match AddToken.main args with
    | .adds auth => some (.add auth)
    | _ => none
  | .removeToken args => (removeTokenMain args).map .remove
  | .backend (.authorizationToken username scopes buf) =>
    some (.add (addedAuthorization asciiValue username (Sessions.base64 buf.1) scopes))
  | .backend _ => none
  | .request _ _ => none

def calls (past : List Action) : List Call := past.filterMap (Action.call asciiValue)

/-- The authorization that was the last to be added for a user and a token, if it was not removed
after that. -/
def granted (past : List Action) : Bytes → Bytes → Option RsAuthorization :=
  lastAdded (calls asciiValue past)

def Action.event : Action → Option Sessions.Event
  | .backend event => some event
  | _ => none

def backendLog (past : List Action) : List Sessions.Event := past.filterMap Action.event

/-- The authorization came from add-token, or the backend was asked for it with the token of a
session that a user got after PAM had accepted the user. -/
def Trusted (past : List Action) (auth : RsAuthorization) : Prop :=
  (∃ args, .addToken args ∈ past ∧ AddToken.main args = .adds auth) ∨
  ∃ username scopes token, auth = addedAuthorization asciiValue username token scopes ∧
    (username ≠ str "undefined" → Sessions.Requested (backendLog past) username scopes)

def purged (st : Sessions.State) : Sessions.State :=
  { st with adding := st.adding.filter fun entry => entry.1 ≠ str "undefined" }

section Sessions
open Sessions
variable {log : List Sessions.Event} {st st' : State} {o : Outcome}

theorem tracks_added (h : Tracks log (purged st)) {token : Bytes} {scopes : Scopes}
    (hstep : Sessions.step st (.postAuthorizations token scopes) = some (st', o)) :
    Tracks (log ++ [.postAuthorizations token scopes]) (purged st') := by
  simp only [Sessions.step] at hstep
  cases hverify : verifySessionToken st token with
  | none =>
    simp only [hverify, Option.some_inj, Prod.mk.injEq] at hstep
    rw [← hstep.1]
    exact h.quiet _ (by simp) (by simp) rfl (List.Subset.refl _) (List.Subset.refl _)
  | some session =>
    simp only [hverify, Option.some_inj, Prod.mk.injEq] at hstep
    rw [← hstep.1]
    refine h.keep _ (by simp) (by simp) rfl (fun _ => Or.inl) fun entry mem => ?_
    obtain ⟨mem, known⟩ := List.mem_filter.1 mem
    rcases List.mem_cons.1 mem with rfl | mem
    · refine Or.inr ⟨log, token, [], rfl, ?_⟩
      rcases JavaScript.index_cases st.sessions token with
        ⟨own, hlookup, hindex⟩ | ⟨-, -, hindex⟩ | ⟨-, -, hindex⟩
      · have same : own = session := by simpa [verifySessionToken, hindex] using hverify
        exact same ▸ ((h.own token own).1 hlookup).2
      · have undefined : (⟨str "undefined", str "undefined"⟩ : Session) = session := by
          simpa [verifySessionToken, hindex] using hverify
        simp [← undefined] at known
      · simp [verifySessionToken, hindex] at hverify
    · exact Or.inl (List.mem_filter.2 ⟨mem, known⟩)

theorem step_purged {e : Sessions.Event} (hstep : Sessions.step st e = some (st', o))
    (hpresented : e.presented = none)
    (hadded : ∀ username scopes buf, e ≠ .authorizationToken username scopes buf) :
    Sessions.step (purged st) e = some (purged st', o) := by
  cases e with
  | postAuthenticate username =>
    simp only [Sessions.step, Option.some_inj, Prod.mk.injEq] at hstep
    rw [← hstep.1, ← hstep.2]
    rfl
  | pamauth username result =>
    by_cases hasked : username ∈ st.asked
    · cases result <;>
      · simp only [Sessions.step, if_pos hasked, if_true, Bool.false_eq_true, if_false,
          Option.some_inj, Prod.mk.injEq] at hstep
        rw [← hstep.1, ← hstep.2]
        simp [Sessions.step, purged, hasked]
    · simp [Sessions.step, hasked] at hstep
  | sessionToken username buf =>
    by_cases haccepted : username ∈ st.accepted
    · simp only [Sessions.step, if_pos haccepted, Option.some_inj, Prod.mk.injEq] at hstep
      rw [← hstep.1, ← hstep.2]
      simp [Sessions.step, purged, haccepted]
    · simp [Sessions.step, haccepted] at hstep
  | deleteAuthenticate token =>
    have same : verifySessionToken (purged st) token = verifySessionToken st token := rfl
    simp only [Sessions.step, same] at hstep ⊢
    cases hverify : verifySessionToken st token with
    | none =>
      simp only [hverify, Option.some_inj, Prod.mk.injEq] at hstep
      rw [← hstep.1, ← hstep.2]
    | some session =>
      simp only [hverify, Option.some_inj, Prod.mk.injEq] at hstep
      rw [← hstep.1, ← hstep.2]
      rfl
  | getAuthorizations token => cases hpresented
  | postAuthorizations token scopes => cases hpresented
  | authorizationToken username scopes buf => exact absurd rfl (hadded username scopes buf)

theorem tracks_purged (h : Tracks log (purged st)) {e : Sessions.Event}
    (hstep : Sessions.step st e = some (st', o))
    (hfresh : ∀ token, e.issued = some token → ∀ username, ¬ Issued log token username) :
    Tracks (log ++ [e]) (purged st') := by
  cases e with
  | postAuthorizations token scopes => exact tracks_added h hstep
  | authorizationToken username scopes buf =>
    by_cases hadding : (username, scopes) ∈ st.adding
    · simp only [Sessions.step, if_pos hadding, Option.some_inj, Prod.mk.injEq] at hstep
      rw [← hstep.1]
      exact h.quiet _ (by simp) (by simp) rfl (List.Subset.refl _)
        (List.filter_subset _ List.erase_subset)
    · simp [Sessions.step, hadding] at hstep
  | getAuthorizations token =>
    have same : st' = st := by
      simp only [Sessions.step] at hstep
      split at hstep
      all_goals exact (Prod.mk.inj (Option.some.inj hstep)).1.symm
    rw [same]
    exact h.quiet _ (by simp) (by simp) rfl (List.Subset.refl _) (List.Subset.refl _)
  | _ =>
    refine h.step _ (step_purged hstep rfl (by simp)) ?_ hfresh
    intro token presented
    cases presented

theorem added_of_step {username token : Bytes} {scopes : Scopes} {e : Sessions.Event}
    (hstep : Sessions.step st e = some (st', .added username token scopes)) :
    ∃ buf, e = .authorizationToken username scopes buf ∧ token = base64 buf.1 ∧
      (username, scopes) ∈ st.adding := by
  cases e with
  | authorizationToken username' scopes' buf =>
    by_cases hadding : (username', scopes') ∈ st.adding
    · simp only [Sessions.step, if_pos hadding, Option.some_inj, Prod.mk.injEq,
        Outcome.added.injEq] at hstep
      obtain ⟨-, rfl, rfl, rfl⟩ := hstep
      exact ⟨buf, rfl, rfl, hadding⟩
    · simp [Sessions.step, hadding] at hstep
  | _ => grind [Sessions.step]

theorem requested_of_adding (h : Tracks log (purged st)) {username : Bytes} {scopes : Scopes}
    (hadding : (username, scopes) ∈ st.adding) (hknown : username ≠ str "undefined") :
    Requested log username scopes :=
  h.adding (username, scopes) (List.mem_filter.2 ⟨hadding, by simpa using hknown⟩)

end Sessions

/-- A call on the database is one that the layout carries; a request is for a path that is left as
it is, with a token that fits in a key. -/
def Action.Proper (users : Set Bytes) (asciiValue : Bytes → Bytes) : Action → Prop
  | .request written req =>
    UserStores.Ordinary users ⟨fun _ _ => none, written, req⟩ ∧
      ∀ token, bearerToken req = some token → Addressable req.user token
  | a => ∀ c, a.call asciiValue = some c → c.auth.NulFree ∧ c.Proper

def Action.Fresh (past : List Action) (a : Action) : Prop :=
  ∀ e token, a.event = some e → e.issued = some token →
    ∀ username, ¬ Sessions.Issued (backendLog past) token username

structure Sound (users : Set Bytes) (start : Node) (past : List Action) (docs : UserStores.Store)
    (sys : System σ) : Prop where
  tracked : Sessions.Tracks (backendLog past) (purged sys.sessions)
  records : AuthStore.Holds db sys.records (latest ((calls asciiValue past).map Call.change))
  stored : UserStores.Holds env.cfg users start docs sys.server.tree
  trusted : ∀ auth, Call.add auth ∈ calls asciiValue past → Trusted asciiValue past auth

variable {env db asciiValue} {users : Set Bytes} {start : Node} {past : List Action}
  {docs : UserStores.Store} {sys sys' : System σ}

theorem calls_concat (past : List Action) (a : Action) :
    calls asciiValue (past ++ [a]) = calls asciiValue past ++ (a.call asciiValue).toList := by
  rw [calls, List.filterMap_append]
  cases hcall : a.call asciiValue <;> simp [calls, hcall]

theorem backendLog_concat (past : List Action) (a : Action) :
    backendLog (past ++ [a]) = backendLog past ++ a.event.toList := by
  rw [backendLog, List.filterMap_append]
  cases hevent : a.event <;> simp [backendLog, hevent]

theorem Trusted.later {auth : RsAuthorization} (h : Trusted asciiValue past auth) (a : Action) :
    Trusted asciiValue (past ++ [a]) auth := by
  rcases h with ⟨args, mem, hmain⟩ | ⟨username, scopes, token, rfl, requested⟩
  · exact Or.inl ⟨args, List.mem_append_left _ mem, hmain⟩
  · refine Or.inr ⟨username, scopes, token, rfl, fun known => ?_⟩
    rw [backendLog_concat]
    cases a.event with
    | none => simpa using requested known
    | some e => exact Sessions.requested_append (requested known) e

theorem sound_start (hstart : EmptyRoots env.cfg users start) (fds : List Nat) :
    Sound env db asciiValue users start [] (fun _ => none)
      ⟨Sessions.start, db.empty, ⟨start, fds⟩⟩ where
  tracked := Sessions.tracks_start
  records := AuthStore.holds_empty
  stored := hstart.holds
  trusted := fun _ mem => absurd mem List.not_mem_nil

theorem Sound.called (h : Sound env db asciiValue users start past docs sys) {a : Action} {c : Call}
    {sessions : Sessions.State} {records : σ} (hcall : a.call asciiValue = some c)
    (hproper : c.auth.NulFree ∧ c.Proper) (hrun : AuthStore.call db sys.records c = some records)
    (htracked : Sessions.Tracks (backendLog (past ++ [a])) (purged sessions))
    (htrusted : ∀ auth, c = .add auth → Trusted asciiValue (past ++ [a]) auth) :
    Sound env db asciiValue users start (past ++ [a]) docs ⟨sessions, records, sys.server⟩ where
  tracked := htracked
  records := by
    obtain ⟨s', hs', holds⟩ := h.records.call c hproper.1 hproper.2
    rw [hrun, Option.some_inj] at hs'
    rw [calls_concat, hcall, Option.toList_some, List.map_append, List.map_singleton,
      latest_append_singleton, hs']
    exact holds
  stored := h.stored
  trusted := by
    intro auth mem
    rw [calls_concat, hcall, Option.toList_some] at mem
    rcases List.mem_append.1 mem with before | here
    · exact (h.trusted auth before).later a
    · exact htrusted auth (List.mem_singleton.1 here).symm

theorem Sound.uncalled (h : Sound env db asciiValue users start past docs sys) {a : Action}
    {sessions : Sessions.State} {server : Server} {docs' : UserStores.Store}
    (hcall : a.call asciiValue = none)
    (htracked : Sessions.Tracks (backendLog (past ++ [a])) (purged sessions))
    (hstored : UserStores.Holds env.cfg users start docs' server.tree) :
    Sound env db asciiValue users start (past ++ [a]) docs' ⟨sessions, sys.records, server⟩ where
  tracked := htracked
  records := by
    rw [calls_concat, hcall, Option.toList_none, List.append_nil]
    exact h.records
  stored := hstored
  trusted := by
    intro auth mem
    rw [calls_concat, hcall, Option.toList_none, List.append_nil] at mem
    exact (h.trusted auth mem).later a

theorem Sound.tool (h : Sound env db asciiValue users start past docs sys) {a : Action}
    (hevent : a.event = none) :
    Sessions.Tracks (backendLog (past ++ [a])) (purged sys.sessions) := by
  rw [backendLog_concat, hevent, Option.toList_none, List.append_nil]
  exact h.tracked

theorem Sound.addToken (h : Sound env db asciiValue users start past docs sys) {args : List Bytes}
    (hproper : (Action.addToken args).Proper users asciiValue)
    (hstep : step env db asciiValue sys (.addToken args) = some sys') :
    Sound env db asciiValue users start (past ++ [.addToken args]) docs sys' := by
  have tracked := h.tool (a := .addToken args) rfl
  cases hmain : AddToken.main args with
  | usage =>
    simp only [step, hmain, Option.some_inj] at hstep
    rw [← hstep]
    exact h.uncalled (by simp only [Action.call, hmain]) tracked h.stored
  | strays => simp [step, hmain] at hstep
  | adds auth =>
    have hcall : (Action.addToken args).call asciiValue = some (.add auth) := by
      simp only [Action.call, hmain]
    simp only [step, hmain, Option.map_eq_some_iff] at hstep
    obtain ⟨added, hadd, rfl⟩ := hstep
    refine h.called hcall (hproper _ hcall) (by rw [AuthStore.call, hadd]; rfl) tracked ?_
    intro auth' same
    rw [← (Call.add.inj same)]
    exact Or.inl ⟨args, by simp, hmain⟩

theorem Sound.removeToken (h : Sound env db asciiValue users start past docs sys)
    {args : List Bytes} (hproper : (Action.removeToken args).Proper users asciiValue)
    (hstep : step env db asciiValue sys (.removeToken args) = some sys') :
    Sound env db asciiValue users start (past ++ [.removeToken args]) docs sys' := by
  have tracked := h.tool (a := .removeToken args) rfl
  cases hmain : removeTokenMain args with
  | none =>
    simp only [step, hmain, Option.some_inj] at hstep
    rw [← hstep]
    exact h.uncalled (by simp only [Action.call, hmain, Option.map_none]) tracked h.stored
  | some auth =>
    have hcall : (Action.removeToken args).call asciiValue = some (.remove auth) := by
      simp only [Action.call, hmain, Option.map_some]
    simp only [step, hmain, Option.map_eq_some_iff] at hstep
    obtain ⟨removed, hremove, rfl⟩ := hstep
    exact h.called hcall (hproper _ hcall) (by rw [AuthStore.call, hremove]; rfl) tracked
      fun auth' same => by cases same

theorem Sound.backend (h : Sound env db asciiValue users start past docs sys)
    {event : Sessions.Event} (hproper : (Action.backend event).Proper users asciiValue)
    (hfresh : (Action.backend event).Fresh past)
    (hstep : step env db asciiValue sys (.backend event) = some sys') :
    Sound env db asciiValue users start (past ++ [.backend event]) docs sys' := by
  cases hsession : Sessions.step sys.sessions event with
  | none => simp [step, hsession] at hstep
  | some next =>
    obtain ⟨sessions, outcome⟩ := next
    have tracked : Sessions.Tracks (backendLog (past ++ [.backend event])) (purged sessions) := by
      rw [backendLog_concat]
      exact tracks_purged h.tracked hsession fun token => hfresh event token rfl
    by_cases hadded : ∃ username token scopes, outcome = .added username token scopes
    · obtain ⟨username, token, scopes, rfl⟩ := hadded
      obtain ⟨buf, rfl, rfl, hadding⟩ := added_of_step hsession
      simp only [step, hsession, Option.map_eq_some_iff] at hstep
      obtain ⟨added, hadd, rfl⟩ := hstep
      refine h.called rfl (hproper _ rfl) (by rw [AuthStore.call, hadd]; rfl) tracked ?_
      intro auth same
      rw [← Call.add.inj same]
      refine Or.inr ⟨username, scopes, _, rfl, fun known => ?_⟩
      rw [backendLog_concat]
      exact Sessions.requested_append (requested_of_adding h.tracked hadding known) _
    · have hcall : (Action.backend event).call asciiValue = none := by
        cases event with
        | authorizationToken username scopes buf => grind [Sessions.step]
        | _ => rfl
      have kept : sys' = ⟨sessions, sys.records, sys.server⟩ := by
        cases outcome with
        | added username token scopes => exact absurd ⟨username, token, scopes, rfl⟩ hadded
        | listed username =>
          simp only [step, hsession, Option.map_eq_some_iff] at hstep
          obtain ⟨-, -, rfl⟩ := hstep
          rfl
        | _ =>
          simp only [step, hsession, Option.some_inj] at hstep
          exact hstep.symm
      rw [kept]
      exact h.uncalled hcall tracked h.stored

theorem mapM_readable (scopes : List RsScope) :
    (scopes.map RsScope.raw).mapM readable = some scopes := by
  induction scopes with
  | nil => rfl
  | cons scope scopes ih =>
    rw [List.map_cons, List.mapM_cons, ih]
    rfl

theorem Sound.usable (h : Sound env db asciiValue users start past docs sys)
    {username token : Bytes} (hfit : Addressable username token) :
    usable (lookupAuthorization db sys.records username token) =
      some (granted asciiValue past username token) := by
  rw [h.records.lookup hfit]
  have same : granted asciiValue past username token =
    latest ((calls asciiValue past).map Call.change) (username, token) := rfl
  rw [← same]
  cases granted asciiValue past username token with
  | none => rfl
  | some auth =>
    simp only [AuthStore.answer, Grants.usable, RsAuthorization.raw, mapM_readable, Option.map_some]

theorem Sound.grantedScopes (h : Sound env db asciiValue users start past docs sys) {req : Request}
    (hfit : ∀ token, bearerToken req = some token → Addressable req.user token) :
    grantedScopes (recordAt db sys.records) req = grantedScopes (granted asciiValue past) req := by
  unfold Authorize.grantedScopes
  cases htoken : bearerToken req with
  | none => rfl
  | some token =>
    rw [Option.bind_some, Option.bind_some, recordAt, h.usable (hfit token htoken)]
    rfl

theorem Sound.not_misreads (h : Sound env db asciiValue users start past docs sys) {req : Request}
    (hfit : ∀ token, bearerToken req = some token → Addressable req.user token) :
    ¬ Misreads env db sys.records req := by
  intro misreads
  cases htoken : bearerToken req with
  | none => simp [Misreads, htoken] at misreads
  | some token => simp [Misreads, htoken, h.usable (hfit token htoken)] at misreads

theorem Sound.request (h : Sound env db asciiValue users start past docs sys)
    (hstart : EmptyRoots env.cfg users start) {written : Nat} {req : Request}
    (hproper : (Action.request written req).Proper users asciiValue)
    (hstep : step env db asciiValue sys (.request written req) = some sys') :
    ∃ server, serve env sys.server ⟨recordAt db sys.records, written, req⟩ = some server ∧
      sys' = { sys with server := server } ∧
      Sound env db asciiValue users start (past ++ [.request written req])
        (after (storeRules env) docs
          (asked env ⟨recordAt db sys.records, written, req⟩).toList) sys' := by
  have ordinary : UserStores.Ordinary users ⟨recordAt db sys.records, written, req⟩ :=
    ⟨hproper.1.user, hproper.1.parsed, hproper.1.path, hproper.1.typed, hproper.1.written⟩
  obtain ⟨reply, server, -, hserve, -, -, holds⟩ := step_holds hstart h.stored ordinary
  rw [step, if_neg (h.not_misreads hproper.2), hserve, Option.map_some, Option.some_inj] at hstep
  refine ⟨server, hserve, hstep.symm, ?_⟩
  rw [← hstep]
  exact h.uncalled rfl (h.tool rfl) holds

theorem sound_step (h : Sound env db asciiValue users start past docs sys)
    (hstart : EmptyRoots env.cfg users start) {a : Action} (hproper : a.Proper users asciiValue)
    (hfresh : a.Fresh past) (hstep : step env db asciiValue sys a = some sys') :
    ∃ docs', Sound env db asciiValue users start (past ++ [a]) docs' sys' := by
  cases a with
  | addToken args => exact ⟨docs, h.addToken hproper hstep⟩
  | removeToken args => exact ⟨docs, h.removeToken hproper hstep⟩
  | backend event => exact ⟨docs, h.backend hproper hfresh hstep⟩
  | request written req =>
    obtain ⟨-, -, -, sound⟩ := h.request hstart hproper hstep
    exact ⟨_, sound⟩

theorem run_concat (sys : System σ) (actions : List Action) (a : Action) :
    run env db asciiValue sys (actions ++ [a]) =
      (run env db asciiValue sys actions).bind fun sys => step env db asciiValue sys a := by
  simp [run]

/-- Session tokens are random: none is issued again. -/
def FreshTokens (actions : List Action) : Prop :=
  ((backendLog actions).filterMap Sessions.Event.issued).Nodup

theorem fresh_of_freshTokens {a : Action} (h : FreshTokens (past ++ [a])) :
    FreshTokens past ∧ a.Fresh past := by
  rw [FreshTokens, backendLog_concat, List.filterMap_append, List.nodup_append] at h
  refine ⟨h.1, fun e token hevent hissued username issued => ?_⟩
  refine h.2.2 token (Sessions.mem_issued issued) token ?_ rfl
  simp [hevent, hissued]

theorem sound_run (hstart : EmptyRoots env.cfg users start) (fds : List Nat) {actions : List Action}
    (hproper : ∀ a ∈ actions, a.Proper users asciiValue) (hfresh : FreshTokens actions)
    (hrun : run env db asciiValue ⟨Sessions.start, db.empty, ⟨start, fds⟩⟩ actions = some sys) :
    ∃ docs, Sound env db asciiValue users start actions docs sys := by
  induction actions using List.reverseRecOn generalizing sys with
  | nil =>
    rw [← Option.some_inj.1 hrun]
    exact ⟨_, sound_start hstart fds⟩
  | append_singleton actions a ih =>
    rw [run_concat, Option.bind_eq_some_iff] at hrun
    obtain ⟨last, hlast, hstep⟩ := hrun
    have fresh := fresh_of_freshTokens hfresh
    obtain ⟨docs, sound⟩ := ih (fun b hb => hproper b (List.mem_append_left _ hb)) fresh.1 hlast
    exact sound_step sound hstart (hproper a (by simp)) fresh.2 hstep

abbrev sampleStep := step twoUsers (KeyedStore.listed Bytes Bytes) id

abbrev sampleRun := run twoUsers (KeyedStore.listed Bytes Bytes) id
  ⟨Sessions.start, (KeyedStore.listed Bytes Bytes).empty, ⟨twoHomes, [0, 1, 2]⟩⟩

def sampleBytes (b : UInt8) : Sessions.RandomBytes := ⟨List.replicate 64 b, List.length_replicate⟩

def sampleActions : List Action :=
  [.addToken [str "me", str "t", str "a:rw"], .backend (.postAuthenticate (str "me")),
    .backend (.pamauth (str "me") true), .backend (.sessionToken (str "me") (sampleBytes 0)),
    .backend (.postAuthorizations (Sessions.base64 (sampleBytes 0).1) [(str "a", str "r")]),
    .backend (.authorizationToken (str "me") [(str "a", str "r")] (sampleBytes 1))]

def samplePutAction : Action := .request 5 (samplePut (str "/a/b") (str "b"))

theorem token_samplePut : bearerToken (samplePut (str "/a/b") (str "b")) = some (str "t") := by
  decide +kernel

theorem proper_put : samplePutAction.Proper meAndYou id := by
  have b : Canonical (str "/a/b") := ⟨by decide, by decide, by decide⟩
  have ordinary : UserStores.Ordinary meAndYou
      (UserStores.eventOf (str "me") .PUT (str "/a/b") (str "b")) :=
    UserStores.ordinary_eventOf (Or.inl rfl) .PUT b
  refine ⟨⟨ordinary.user, ordinary.parsed, ordinary.path, ordinary.typed, ordinary.written⟩, ?_⟩
  intro token htoken
  rw [← Option.some.inj (token_samplePut.symm.trans htoken)]
  exact show (str "me").length + (str "t").length + 2 < 2 ^ 32 by decide

theorem proper_sampleActions : ∀ a ∈ sampleActions, a.Proper meAndYou id := by
  simp only [sampleActions, List.forall_mem_cons, List.not_mem_nil, false_implies, implies_true,
    and_true]
  refine ⟨?_, ?_, ?_, ?_, ?_, ?_⟩
  · rintro c hc
    obtain rfl : Call.add ⟨str "me", str "t", [⟨str "a", 1⟩]⟩ = c := Option.some.inj hc
    refine ⟨⟨by decide, by decide, by decide⟩, by decide, by decide, by decide, ?_⟩
    unfold Carried InRange
    decide
  · rintro c ⟨⟩
  · rintro c ⟨⟩
  · rintro c ⟨⟩
  · rintro c ⟨⟩
  · rintro c hc
    obtain rfl : Call.add ⟨str "me", Sessions.base64 (sampleBytes 1).1, [⟨str "a", 0⟩]⟩ = c :=
      Option.some.inj hc
    refine ⟨⟨by decide, by decide +kernel, by decide⟩, by decide, by decide +kernel,
      by decide +kernel, ?_⟩
    unfold Carried InRange
    decide +kernel

theorem fresh_sampleActions : FreshTokens (sampleActions ++ [samplePutAction]) := by
  unfold FreshTokens
  decide +kernel

theorem step_server {a : Action} (hstep : step env db asciiValue sys a = some sys')
    (htool : ∀ written req, a ≠ .request written req) : sys'.server = sys.server := by
  cases a with
  | request written req => exact absurd rfl (htool written req)
  | addToken args => grind [step, Option.map_eq_some_iff]
  | removeToken args => grind [step, Option.map_eq_some_iff]
  | backend event => grind [step, Option.map_eq_some_iff]

theorem changed_by_write {s s' : Server} {e : Dispatch.Event} (hserve : serve env s e = some s')
    (hcrash : ¬ (requestStatus env e.lookup e.written e.req (arrival s.tree s.fds)).Crashed)
    (hchanged : plain s'.tree ≠ plain s.tree) :
    (e.req.method = .PUT ∨ e.req.method = .DELETE) ∧ verifyUser env.getpwnam e.req.user = 0 ∧
      WriteScope e.lookup e.req := by
  have kept := (gatekept_iff_not_crashed _ _ _ _).2 hcrash
  simp only [serve] at hserve
  split at hserve
  · cases hserve
  · rw [Option.some_inj] at hserve
    rw [← hserve] at hchanged
    exact kept.changed hchanged

section
variable {actions : List Action} {fds : List Nat} {written : Nat} {req : Request}

def GrantedTo (asciiValue : Bytes → Bytes) (past : List Action) (req : Request) (scope : RsScope) :
    Prop :=
  ∃ token auth, bearerToken req = some token ∧ granted asciiValue past req.user token = some auth ∧
    auth.username = req.user ∧ scope ∈ auth.scopes ∧ Trusted asciiValue past auth

theorem mem_calls_of_lastAdded {log : List Call} {username token : Bytes} {auth : RsAuthorization}
    (h : lastAdded log username token = some auth) : Call.add auth ∈ log := by
  induction log using List.reverseRecOn with
  | nil => simp [lastAdded, KeyedStore.latest] at h
  | append_singleton log c ih =>
    rw [lastAdded, List.map_append, List.map_singleton, latest_append_singleton] at h
    cases c with
    | add a =>
      by_cases same : (username, token) = (a.username, a.token)
      · rw [same, Call.change, Change.apply, Function.update_self, Option.some_inj] at h
        simp [h]
      · rw [Call.change, Change.apply, Function.update_of_ne same] at h
        exact List.mem_append_left _ (ih h)
    | remove a =>
      by_cases same : (username, token) = (a.username, a.token)
      · rw [same, Call.change, Change.apply, Function.update_self] at h
        cases h
      · rw [Call.change, Change.apply, Function.update_of_ne same] at h
        exact List.mem_append_left _ (ih h)

theorem Sound.mem_grantedScopes (h : Sound env db asciiValue users start past docs sys)
    (hfit : ∀ token, bearerToken req = some token → Addressable req.user token) {scope : RsScope} :
    scope ∈ Authorize.grantedScopes (recordAt db sys.records) req ↔
      GrantedTo asciiValue past req scope := by
  rw [h.grantedScopes hfit, Authorize.grantedScopes]
  cases htoken : bearerToken req with
  | none => simp [GrantedTo, htoken]
  | some token =>
    rw [Option.bind_some]
    cases hauth : granted asciiValue past req.user token with
    | none => simp [GrantedTo, htoken, hauth]
    | some auth =>
      constructor
      · intro mem
        have named : req.user = auth.username := (AuthStore.lastAdded_pair _ hauth).1
        exact ⟨token, auth, htoken, hauth, named.symm, mem,
          h.trusted auth (mem_calls_of_lastAdded hauth)⟩
      · intro found
        obtain ⟨token', auth', htoken', hauth', -, mem, -⟩ := found
        rw [htoken, Option.some_inj] at htoken'
        rw [← htoken', hauth, Option.some_inj] at hauth'
        exact hauth' ▸ mem

/-- Only a request that was granted it changes anything: what changes lies on the way to the
document of a PUT or DELETE whose token was the last to be added for its user with a scope for the
path that may write, and was not removed after that. -/
theorem changes_granted (hstart : EmptyRoots env.cfg users start) {a : Action}
    (hproper : ∀ b ∈ actions ++ [a], b.Proper users asciiValue) (hfresh : FreshTokens (actions ++ [a]))
    (hrun : run env db asciiValue ⟨Sessions.start, db.empty, ⟨start, fds⟩⟩ actions = some sys)
    (hstep : step env db asciiValue sys a = some sys') {q : Loc}
    (hchanged : plain sys'.server.tree q ≠ plain sys.server.tree q) :
    ∃ written req scope, a = .request written req ∧ (req.method = .PUT ∨ req.method = .DELETE) ∧
      GrantedTo asciiValue actions req scope ∧ scope.write ≠ 0 ∧ coversRaw scope.name req.path ∧
      ∃ names, names ≠ [] ∧ q = rootOf env.cfg req.user ++ names ∧ names <+: components req.path := by
  obtain ⟨docs, sound⟩ := sound_run hstart fds (fun b hb => hproper b (List.mem_append_left _ hb))
    (fresh_of_freshTokens hfresh).1 hrun
  have proper := hproper a (by simp)
  cases a with
  | request written req =>
    obtain ⟨server, hserve, rfl, sound'⟩ := sound.request hstart proper hstep
    let e : Dispatch.Event := ⟨recordAt db sys.records, written, req⟩
    have ordinary : UserStores.Ordinary users e :=
      ⟨proper.1.user, proper.1.parsed, proper.1.path, proper.1.typed, proper.1.written⟩
    obtain ⟨hput, -, scope, mem, covers, writes⟩ :=
      changed_by_write hserve (ordinary.not_crashed (sound.stored.named hstart)) fun same =>
        hchanged (congrFun same q)
    refine ⟨written, req, scope, rfl, hput, (sound.mem_grantedScopes proper.2).1 mem, writes,
      covers, ?_⟩
    cases hasked : asked env e with
    | none =>
      have unchanged := StoreRuns.holds_same hstart sound.stored sound'.stored fun u _ names => by
        rw [hasked, Option.toList_none, ConditionalStore.after_nil]
      exact absurd (congrFun unchanged q).symm hchanged
    | some r =>
      obtain ⟨-, -, own, hown, rfl⟩ := asked_eq_some hasked
      have key : (own.of req.user).key = (req.user, components req.path) := by
        rw [key_of, key_storeRequest hown]
      have way := changed_on_the_way hstart sound.stored sound'.stored
        (fun k (hk : k ≠ (own.of req.user).key) => by
          rw [hasked, Option.toList_some, after_cons, ConditionalStore.after_nil, serve_other hk])
        (Ne.symm hchanged)
      rwa [key] at way
  | _ => exact absurd (by rw [step_server hstep (by simp)]) hchanged

theorem changes_granted_sample : ∃ sys sys', sampleRun sampleActions = some sys ∧
    sampleStep sys samplePutAction = some sys' ∧ ∃ written req scope,
      samplePutAction = .request written req ∧ (req.method = .PUT ∨ req.method = .DELETE) ∧
      GrantedTo id sampleActions req scope ∧ scope.write ≠ 0 ∧ coversRaw scope.name req.path ∧
      ∃ names, names ≠ [] ∧ rootOf twoUsers.cfg (str "me") ++ [str "a"] =
        rootOf twoUsers.cfg req.user ++ names ∧ names <+: components req.path := by
  have ran : ((sampleRun sampleActions).bind fun sys =>
      (sampleStep sys samplePutAction).map fun sys' =>
        decide (plain sys'.server.tree (rootOf twoUsers.cfg (str "me") ++ [str "a"]) =
          plain sys.server.tree (rootOf twoUsers.cfg (str "me") ++ [str "a"]))) = some false := by
    decide +kernel
  obtain ⟨sys, hrun, ran⟩ := Option.bind_eq_some_iff.1 ran
  obtain ⟨sys', hstep, ran⟩ := Option.map_eq_some_iff.1 ran
  have proper : ∀ a ∈ sampleActions ++ [samplePutAction], a.Proper meAndYou id :=
    List.forall_mem_append.2 ⟨proper_sampleActions, List.forall_mem_singleton.2 proper_put⟩
  exact ⟨sys, sys', hrun, hstep, changes_granted UserStores.emptyRoots_twoHomes proper
    fresh_sampleActions hrun hstep (of_decide_eq_false ran)⟩

/-- In every state that is reached, a request gets past the gate exactly when a scope that the
actions before have left to it matches, or when it reads something public. -/
theorem let_through_iff_granted (hstart : EmptyRoots env.cfg users start)
    (hproper : ∀ b ∈ actions, b.Proper users asciiValue) (hfresh : FreshTokens actions)
    (hrun : run env db asciiValue ⟨Sessions.start, db.empty, ⟨start, fds⟩⟩ actions = some sys)
    (hfit : ∀ token, bearerToken req = some token → Addressable req.user token) :
    ¬ Misreads env db sys.records req ∧
      (LetThrough env (recordAt db sys.records) req ↔ verifyUser env.getpwnam req.user = 0 ∧
        ((∃ scope, GrantedTo asciiValue actions req scope ∧ matchScope scope req = 0) ∨
          publicRead req)) := by
  obtain ⟨docs, sound⟩ := sound_run hstart fds hproper hfresh hrun
  refine ⟨sound.not_misreads hfit, ?_⟩
  rw [LetThrough, authorizeRequest_eq_zero]
  simp only [sound.mem_grantedScopes hfit]

theorem let_through_iff_granted_sample : ∃ sys, sampleRun sampleActions = some sys ∧
    bearerToken (samplePut (str "/a/b") (str "b")) = some (str "t") ∧
    ¬ Misreads twoUsers (listed Bytes Bytes) sys.records (samplePut (str "/a/b") (str "b")) ∧
      (LetThrough twoUsers (recordAt (listed Bytes Bytes) sys.records)
          (samplePut (str "/a/b") (str "b")) ↔
        verifyUser twoUsers.getpwnam (str "me") = 0 ∧
        ((∃ scope, GrantedTo id sampleActions (samplePut (str "/a/b") (str "b")) scope ∧
            matchScope scope (samplePut (str "/a/b") (str "b")) = 0) ∨
          publicRead (samplePut (str "/a/b") (str "b")))) := by
  obtain ⟨sys, hrun⟩ := Option.isSome_iff_exists.1
    (by decide +kernel : (sampleRun sampleActions).isSome = true)
  exact ⟨sys, hrun, token_samplePut, let_through_iff_granted UserStores.emptyRoots_twoHomes
    proper_sampleActions (fresh_of_freshTokens fresh_sampleActions).1 hrun proper_put.2⟩

theorem lastAdded_removed {log later : List Call} {auth : RsAuthorization}
    (hlater : ∀ added, Call.add added ∈ later →
      (added.username, added.token) ≠ (auth.username, auth.token)) :
    lastAdded (log ++ .remove auth :: later) auth.username auth.token = none := by
  have change : ∀ c, c ∈ later → ∀ m, m (auth.username, auth.token) = none →
      c.change.apply m (auth.username, auth.token) = none := by
    intro c hc m hm
    cases c with
    | add added =>
      rw [Call.change, Change.apply, Function.update_of_ne (hlater added hc).symm, hm]
    | remove removed =>
      by_cases same : (auth.username, auth.token) = (removed.username, removed.token)
      · rw [same, Call.change, Change.apply, Function.update_self]
      · rw [Call.change, Change.apply, Function.update_of_ne same, hm]
  induction later using List.reverseRecOn with
  | nil =>
    rw [lastAdded, List.map_append, List.map_singleton, latest_append_singleton, Call.change,
      Change.apply, Function.update_self]
  | append_singleton later c ih =>
    have before := ih (fun added mem => hlater added (List.mem_append_left _ mem))
      fun c hc => change c (List.mem_append_left _ hc)
    rw [← List.cons_append, ← List.append_assoc, lastAdded, List.map_append, List.map_singleton,
      latest_append_singleton]
    exact change c (by simp) _ before

/-- After remove-token, and until the token is added again, requests with it are refused. -/
theorem removed_token_refused (hstart : EmptyRoots env.cfg users start) {before later : List Action}
    {args : List Bytes} {auth : RsAuthorization} (hremove : removeTokenMain args = some auth)
    (hproper : ∀ b ∈ before ++ .removeToken args :: later, b.Proper users asciiValue)
    (hfresh : FreshTokens (before ++ .removeToken args :: later))
    (hrun : run env db asciiValue ⟨Sessions.start, db.empty, ⟨start, fds⟩⟩
      (before ++ .removeToken args :: later) = some sys)
    (hlater : ∀ b ∈ later, ∀ added, b.call asciiValue = some (.add added) →
      (added.username, added.token) ≠ (auth.username, auth.token))
    (hfit : Addressable auth.username auth.token) (huser : req.user = auth.username)
    (htoken : bearerToken req = some auth.token) (hmethod : req.method ≠ .OPTIONS)
    (hpublic : ¬ publicRead req) :
    ∃ reply, replied env sys.server ⟨recordAt db sys.records, written, req⟩ = some reply ∧
      (reply.status = 401 ∨ reply.status = 404 ∨ reply.status = 500) ∧
      treeAfter env sys.server ⟨recordAt db sys.records, written, req⟩ = sys.server.tree := by
  obtain ⟨docs, sound⟩ := sound_run hstart fds hproper hfresh hrun
  have fit : ∀ token, bearerToken req = some token → Addressable req.user token := by
    intro token same
    rw [htoken, Option.some_inj] at same
    rwa [← same, huser]
  have none : granted asciiValue (before ++ .removeToken args :: later) req.user auth.token =
      none := by
    have hcall : (Action.removeToken args).call asciiValue = some (.remove auth) := by
      simp only [Action.call, hremove, Option.map_some]
    rw [granted, huser, calls, List.filterMap_append, List.filterMap_cons_some hcall]
    refine lastAdded_removed fun added mem => ?_
    obtain ⟨b, hb, hadd⟩ := List.mem_filterMap.1 mem
    exact hlater b hb added hadd
  have barred : ¬ LetThrough env (recordAt db sys.records) req := by
    intro hlet
    rcases (authorizeRequest_eq_zero _).1 hlet.2 with ⟨scope, mem, -⟩ | free
    · obtain ⟨token, found, htoken', hfound, -⟩ := (sound.mem_grantedScopes fit).1 mem
      rw [htoken, Option.some_inj] at htoken'
      rw [← htoken', none] at hfound
      cases hfound
    · exact hpublic free
  obtain ⟨same, status, refused, -, -, hreply⟩ :=
    replied_barred (s := sys.server) (e := ⟨recordAt db sys.records, written, req⟩) barred
  exact ⟨_, hreply, refused hmethod, same⟩

theorem removed_token_refused_sample : ∃ sys, sampleRun (sampleActions ++
      .removeToken [str "me", str "t"] :: [samplePutAction]) = some sys ∧
    ∃ reply, replied twoUsers sys.server ⟨recordAt (KeyedStore.listed Bytes Bytes) sys.records, 5,
        samplePut (str "/a/b") (str "b")⟩ = some reply ∧
      (reply.status = 401 ∨ reply.status = 404 ∨ reply.status = 500) ∧
      treeAfter twoUsers sys.server ⟨recordAt (KeyedStore.listed Bytes Bytes) sys.records, 5,
        samplePut (str "/a/b") (str "b")⟩ = sys.server.tree := by
  have proper : ∀ b ∈ sampleActions ++ .removeToken [str "me", str "t"] :: [samplePutAction],
      b.Proper meAndYou id := by
    refine List.forall_mem_append.2 ⟨proper_sampleActions, List.forall_mem_cons.2 ⟨?_, ?_⟩⟩
    · intro c hc
      obtain rfl : Call.remove ⟨str "me", str "t", []⟩ = c := Option.some.inj hc
      exact ⟨⟨by decide, by decide, by decide⟩, by unfold Call.Proper Addressable; decide⟩
    · exact List.forall_mem_singleton.2 proper_put
  obtain ⟨sys, hrun⟩ := Option.isSome_iff_exists.1 (by decide +kernel : (sampleRun (sampleActions ++
    .removeToken [str "me", str "t"] :: [samplePutAction])).isSome = true)
  have removed : removeTokenMain [str "me", str "t"] = some ⟨str "me", str "t", []⟩ := rfl
  refine ⟨sys, hrun, removed_token_refused UserStores.emptyRoots_twoHomes removed proper ?_ hrun
    ?_ ?_ rfl token_samplePut (by decide) ?_⟩
  · unfold FreshTokens
    decide +kernel
  · exact List.forall_mem_singleton.2 fun added hadd => by cases hadd
  · unfold Addressable
    decide
  · unfold publicRead
    decide

end

end RsServe.Grants

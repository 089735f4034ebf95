import Mathlib.Data.List.Nodup
import RsServe.JavaScript

/-! The sessions of the authorization backend, from the arrival of a request to the
last callback it waits for; PAM and the random bytes answer in any order. -/

namespace RsServe.Sessions
open CString JavaScript AssocList

/-- crypto.randomBytes(64) -/
abbrev RandomBytes := { buf : Bytes // buf.length = 64 }

def base64Digits : Bytes :=
  str "ABCDEFGHIJKLMNOPQRSTUVWXYZabcdefghijklmnopqrstuvwxyz0123456789+/"

def digit (n : Nat) : UInt8 := base64Digits.getD (n % 64) 0

/-- buf.toString('base64') -/
def base64 : Bytes → Bytes
  | [] => []
  | [a] => [digit (a.toNat / 4), digit (a.toNat * 16), 61, 61]
  | [a, b] =>
    [digit (a.toNat / 4), digit (a.toNat * 16 + b.toNat / 16), digit (b.toNat * 4), 61]
  | a :: b :: c :: rest =>
    digit (a.toNat / 4) :: digit (a.toNat * 16 + b.toNat / 16) ::
      digit (b.toNat * 4 + c.toNat / 64) :: digit c.toNat :: base64 rest

theorem base64_length (buf : Bytes) : (base64 buf).length = 4 * ((buf.length + 2) / 3) := by
  induction buf using base64.induct with
  | case1 => rfl
  | case2 a => simp [base64]
  | case3 a b => simp [base64]
  | case4 a b c rest ih =>
    simp only [base64, List.length_cons, ih]
    omega

theorem token_length (buf : RandomBytes) : (base64 buf.1).length = 88 := by
  rw [base64_length, buf.2]

structure Session where
  username : Bytes
  token : Bytes
deriving DecidableEq

/-- req.body.scopes -/
abbrev Scopes := List (Bytes × Bytes)

structure State where
  /-- STATE.sessions -/
  sessions : JsObject Session
  /-- Logins that PAM has not answered yet -/
  asked : List Bytes
  /-- Logins that PAM accepted and that wait for their session token -/
  accepted : List Bytes
  /-- Authorizations that wait for their token -/
  adding : List (Bytes × Scopes)
deriving DecidableEq

def start : State := ⟨[], [], [], []⟩

/-- What node runs next: a route for a request, or a callback. A session token is
given as the property name it turns into; left out it is `undefined`. -/
inductive Event where
  | postAuthenticate (username : Bytes)
  | pamauth (username : Bytes) (result : Bool)
  | sessionToken (username : Bytes) (buf : RandomBytes)
  | deleteAuthenticate (sessionToken : Bytes)
  | getAuthorizations (sessionToken : Bytes)
  | postAuthorizations (sessionToken : Bytes) (scopes : Scopes)
  | authorizationToken (username : Bytes) (scopes : Scopes) (buf : RandomBytes)
deriving DecidableEq

inductive Outcome where
  | waiting
  | loginFailed
  | loginSucceeded (sessionToken : Bytes)
  | noContent
  | unauthorized
  /-- res.json(auth.list(username)) -/
  | listed (username : Bytes)
  /-- auth.add(username, token, scopes) -/
  | added (username token : Bytes) (scopes : Scopes)
deriving DecidableEq

/-- The session that verifySessionToken puts into the request. An inherited property
has neither username nor token, and both are used as the string `undefined`. -/
def verifySessionToken (st : State) (sessionToken : Bytes) : Option Session :=
  match index st.sessions sessionToken with
  | .own session => some session
  | .inherited => some ⟨str "undefined", str "undefined"⟩
  | .undefined => none

/-- None when the event is a callback that nothing waits for. -/
def step (st : State) : Event → Option (State × Outcome)
  | .postAuthenticate username => some ({ st with asked := username :: st.asked }, .waiting)
  | .pamauth username result =>
    if username ∈ st.asked then
      let st := { st with asked := st.asked.erase username }
      if result then some ({ st with accepted := username :: st.accepted }, .waiting)
      else some (st, .loginFailed)
    else none
  | .sessionToken username buf =>
    if username ∈ st.accepted then
      let token := base64 buf.1
      some ({ st with
          accepted := st.accepted.erase username
          sessions := upsert st.sessions token ⟨username, token⟩ }, .loginSucceeded token)
    else none
  | .deleteAuthenticate sessionToken =>
    match verifySessionToken st sessionToken with
    | some session =>
      some ({ st with sessions := remove st.sessions session.token }, .noContent)
    | none => some (st, .noContent)
  | .getAuthorizations sessionToken =>
    match verifySessionToken st sessionToken with
    | some session => some (st, .listed session.username)
    | none => some (st, .unauthorized)
  | .postAuthorizations sessionToken scopes =>
    match verifySessionToken st sessionToken with
    | some session => some ({ st with adding := (session.username, scopes) :: st.adding }, .waiting)
    | none => some (st, .unauthorized)
  | .authorizationToken username scopes buf =>
    if (username, scopes) ∈ st.adding then
      some ({ st with adding := st.adding.erase (username, scopes) },
        .added username (base64 buf.1) scopes)
    else none

def run (events : List Event) : Option State :=
  events.foldlM (fun st e => (step st e).map Prod.fst) start

/-- The token was issued to the user after PAM accepted the user, and no logout with
it followed. -/
def Issued (log : List Event) (token username : Bytes) : Prop :=
  ∃ earlier buf later, log = earlier ++ .sessionToken username buf :: later ∧
    base64 buf.1 = token ∧ .pamauth username true ∈ earlier ∧ .deleteAuthenticate token ∉ later

def Requested (log : List Event) (username : Bytes) (scopes : Scopes) : Prop :=
  ∃ earlier token later, log = earlier ++ .postAuthorizations token scopes :: later ∧
    Issued earlier token username

/-- The requests on /authorizations are served for the user of an issued token and
refused, without effect, for any other one; authorizations are added on request. -/
def Safe (log : List Event) (st : State) : Event → Prop
  | .getAuthorizations token =>
    (∃ username, Issued log token username ∧
      step st (.getAuthorizations token) = some (st, .listed username)) ∨
    (∀ username, ¬ Issued log token username) ∧
      step st (.getAuthorizations token) = some (st, .unauthorized)
  | .postAuthorizations token scopes =>
    (∃ username, Issued log token username ∧
      step st (.postAuthorizations token scopes) =
        some ({ st with adding := (username, scopes) :: st.adding }, .waiting)) ∨
    (∀ username, ¬ Issued log token username) ∧
      step st (.postAuthorizations token scopes) = some (st, .unauthorized)
  | .authorizationToken username scopes buf =>
    ∀ next, step st (.authorizationToken username scopes buf) = some next →
      Requested log username scopes
  | _ => True

def Event.presented : Event → Option Bytes
  | .getAuthorizations token => some token
  | .postAuthorizations token _ => some token
  | _ => none

def Event.issued : Event → Option Bytes
  | .sessionToken _ buf => some (base64 buf.1)
  | _ => none

def Event.Ordinary (e : Event) : Prop := ∀ token, e.presented = some token → token ∉ objectPrototype

theorem objectPrototype_length {name : Bytes} (h : name ∈ objectPrototype) : name.length < 88 := by
  revert name
  decide

theorem issued_length {log : List Event} {token username : Bytes}
    (h : Issued log token username) : token.length = 88 := by
  obtain ⟨earlier, buf, later, -, rfl, -⟩ := h
  exact token_length buf

theorem issued_append (log : List Event) (e : Event) (token username : Bytes) :
    Issued (log ++ [e]) token username ↔
      (∃ buf, e = .sessionToken username buf ∧ base64 buf.1 = token ∧ .pamauth username true ∈ log) ∨
        Issued log token username ∧ e ≠ .deleteAuthenticate token := by
  constructor
  · intro h
    obtain ⟨earlier, buf, later, hlog, htoken, hpam, hlater⟩ := h
    induction later using List.reverseRecOn with
    | nil =>
      have parts := List.append_inj' hlog rfl
      exact Or.inl ⟨buf, List.singleton_inj.1 parts.2, htoken, parts.1 ▸ hpam⟩
    | append_singleton later last _ =>
      rw [← List.cons_append, ← List.append_assoc] at hlog
      have parts := List.append_inj' hlog rfl
      have hlast : e = last := List.singleton_inj.1 parts.2
      refine Or.inr ⟨⟨earlier, buf, later, parts.1, htoken, hpam, fun mem => ?_⟩, fun same => ?_⟩
      · exact hlater (List.mem_append_left _ mem)
      · exact hlater (by simp [← hlast, same])
  · intro h
    rcases h with ⟨buf, rfl, htoken, hpam⟩ | ⟨⟨earlier, buf, later, rfl, htoken, hpam, hlater⟩, he⟩
    · exact ⟨log, buf, [], rfl, htoken, hpam, by simp⟩
    · refine ⟨earlier, buf, later ++ [e], by simp, htoken, hpam, fun mem => ?_⟩
      rcases List.mem_append.1 mem with mem | mem
      · exact hlater mem
      · exact he (List.mem_singleton.1 mem).symm

theorem requested_append {log : List Event} {username : Bytes} {scopes : Scopes}
    (h : Requested log username scopes) (e : Event) : Requested (log ++ [e]) username scopes := by
  obtain ⟨earlier, token, later, rfl, issued⟩ := h
  exact ⟨earlier, token, later ++ [e], by simp, issued⟩

structure Tracks (log : List Event) (st : State) : Prop where
  own : ∀ token session, st.sessions.lookup token = some session ↔
    session.token = token ∧ Issued log token session.username
  accepted : ∀ username ∈ st.accepted, .pamauth username true ∈ log
  adding : ∀ p ∈ st.adding, Requested log p.1 p.2

theorem tracks_start : Tracks [] start where
  own token session := by
    refine ⟨fun h => by simp [start] at h, fun h => ?_⟩
    obtain ⟨earlier, buf, later, hlog, -⟩ := h.2
    simp at hlog
  accepted username h := by simp [start] at h
  adding p h := by simp [start] at h

theorem issued_append_of_ne {log : List Event} {e : Event} {token username : Bytes}
    (hissue : ∀ buf, e ≠ .sessionToken username buf) (hlogout : e ≠ .deleteAuthenticate token) :
    Issued (log ++ [e]) token username ↔ Issued log token username := by
  rw [issued_append]
  constructor
  · intro h
    rcases h with ⟨buf, same, -⟩ | h
    · exact absurd same (hissue buf)
    · exact h.1
  · intro h
    exact Or.inr ⟨h, hlogout⟩

theorem Tracks.verify {log : List Event} {st : State} (h : Tracks log st) {token : Bytes}
    (hname : token ∉ objectPrototype) :
    (∃ username, verifySessionToken st token = some ⟨username, token⟩ ∧ Issued log token username) ∨
      verifySessionToken st token = none ∧ ∀ username, ¬ Issued log token username := by
  unfold verifySessionToken index
  cases hlookup : st.sessions.lookup token with
  | none =>
    refine Or.inr ⟨by simp [hname], fun username issued => ?_⟩
    have own := (h.own token ⟨username, token⟩).2 ⟨rfl, issued⟩
    rw [hlookup] at own
    simp at own
  | some session =>
    have own := (h.own token session).1 hlookup
    refine Or.inl ⟨session.username, ?_, own.2⟩
    rw [← own.1]

theorem Tracks.verify_none {log : List Event} {st : State} (h : Tracks log st) {name : Bytes}
    (hname : name.length ≠ 88) : st.sessions.lookup name = none := by
  cases hlookup : st.sessions.lookup name with
  | none => rfl
  | some session => exact absurd (issued_length ((h.own name session).1 hlookup).2) hname

theorem Tracks.keep {log : List Event} {st st' : State} (h : Tracks log st) (e : Event)
    (hissue : ∀ username buf, e ≠ .sessionToken username buf)
    (hlogout : ∀ token, e ≠ .deleteAuthenticate token)
    (hsessions : st'.sessions = st.sessions)
    (haccepted : ∀ username ∈ st'.accepted, username ∈ st.accepted ∨ e = .pamauth username true)
    (hadding : ∀ p ∈ st'.adding, p ∈ st.adding ∨ Requested (log ++ [e]) p.1 p.2) :
    Tracks (log ++ [e]) st' where
  own token session := by
    rw [hsessions, h.own, issued_append_of_ne (hissue _) (hlogout _)]
  accepted username mem := by
    rcases haccepted username mem with mem | rfl
    · exact List.mem_append_left _ (h.accepted username mem)
    · simp
  adding p mem := by
    rcases hadding p mem with mem | requested
    · exact requested_append (h.adding p mem) e
    · exact requested

theorem Tracks.issue {log : List Event} {st : State} (h : Tracks log st) (username : Bytes)
    (buf : RandomBytes) (haccepted : username ∈ st.accepted)
    (hfresh : ∀ other, ¬ Issued log (base64 buf.1) other) :
    Tracks (log ++ [.sessionToken username buf])
      { st with
        accepted := st.accepted.erase username
        sessions := upsert st.sessions (base64 buf.1) ⟨username, base64 buf.1⟩ } where
  own token session := by
    rw [lookup_upsert, issued_append]
    by_cases htoken : token = base64 buf.1
    · subst htoken
      have pam := h.accepted username haccepted
      rw [if_pos rfl, Option.some_inj]
      constructor
      · intro same
        subst same
        exact ⟨rfl, Or.inl ⟨buf, rfl, rfl, pam⟩⟩
      · intro both
        rcases both.2 with ⟨buf', same, -, -⟩ | issued
        · have names : username = session.username := (Event.sessionToken.inj same).1
          rw [names, ← both.1]
        · exact absurd issued.1 (hfresh session.username)
    · rw [if_neg htoken, h.own]
      constructor
      · intro both
        exact ⟨both.1, Or.inr ⟨both.2, by simp⟩⟩
      · intro both
        refine ⟨both.1, ?_⟩
        rcases both.2 with ⟨buf', same, hbuf, -⟩ | issued
        · rw [← hbuf, (Event.sessionToken.inj same).2] at htoken
          exact absurd rfl htoken
        · exact issued.1
  accepted user mem := by
    exact List.mem_append_left _ (h.accepted user (List.mem_of_mem_erase mem))
  adding p mem := requested_append (h.adding p mem) _

theorem Tracks.logout {log : List Event} {st : State} (h : Tracks log st) (token : Bytes)
    (sessions : JsObject Session)
    (hdelete : ∀ k, sessions.lookup k = if k = token then none else st.sessions.lookup k) :
    Tracks (log ++ [.deleteAuthenticate token]) { st with sessions := sessions } where
  own k session := by
    rw [hdelete]
    by_cases hk : k = token
    · subst hk
      rw [if_pos rfl, issued_append]
      simp
    · rw [if_neg hk, h.own, issued_append_of_ne (by simp)]
      simpa using Ne.symm hk
  accepted user mem := List.mem_append_left _ (h.accepted user mem)
  adding p mem := requested_append (h.adding p mem) _

theorem Tracks.quiet {log : List Event} {st st' : State} (h : Tracks log st) (e : Event)
    (hissue : ∀ username buf, e ≠ .sessionToken username buf)
    (hlogout : ∀ token, e ≠ .deleteAuthenticate token)
    (hsessions : st'.sessions = st.sessions) (haccepted : st'.accepted ⊆ st.accepted)
    (hadding : st'.adding ⊆ st.adding) : Tracks (log ++ [e]) st' :=
  h.keep e hissue hlogout hsessions (fun _ mem => Or.inl (haccepted mem))
    fun _ mem => Or.inl (hadding mem)

theorem Tracks.step_pamauth {log : List Event} {st st' : State} {o : Outcome} (h : Tracks log st)
    {username : Bytes} {result : Bool} (hstep : step st (.pamauth username result) = some (st', o)) :
    Tracks (log ++ [.pamauth username result]) st' := by
  by_cases hasked : username ∈ st.asked
  · cases result with
    | true =>
      simp only [Sessions.step, if_pos hasked, if_true, Option.some_inj, Prod.mk.injEq] at hstep
      rw [← hstep.1]
      refine h.keep _ (by simp) (by simp) rfl (fun u mem => ?_) fun _ => Or.inl
      rcases List.mem_cons.1 mem with rfl | mem
      · exact Or.inr rfl
      · exact Or.inl mem
    | false =>
      simp only [Sessions.step, if_pos hasked, Bool.false_eq_true, if_false, Option.some_inj,
        Prod.mk.injEq] at hstep
      rw [← hstep.1]
      exact h.quiet _ (by simp) (by simp) rfl (List.Subset.refl _) (List.Subset.refl _)
  · simp [Sessions.step, hasked] at hstep

theorem Tracks.step_deleteAuthenticate {log : List Event} {st st' : State} {o : Outcome}
    (h : Tracks log st) {token : Bytes} (hstep : step st (.deleteAuthenticate token) = some (st', o)) :
    Tracks (log ++ [.deleteAuthenticate token]) st' := by
  rcases index_cases st.sessions token with
    ⟨session, hlookup, hindex⟩ | ⟨hlookup, hname, hindex⟩ | ⟨hlookup, hname, hindex⟩
  · simp only [Sessions.step, verifySessionToken, hindex, Option.some_inj, Prod.mk.injEq] at hstep
    rw [← hstep.1]
    refine h.logout token _ fun k => ?_
    rw [lookup_remove, ((h.own token session).1 hlookup).1]
  · simp only [Sessions.step, verifySessionToken, hindex, Option.some_inj, Prod.mk.injEq] at hstep
    rw [← hstep.1]
    refine h.logout token _ fun k => ?_
    rw [lookup_remove]
    have absent : st.sessions.lookup (str "undefined") = none := h.verify_none (by decide)
    grind
  · simp only [Sessions.step, verifySessionToken, hindex, Option.some_inj, Prod.mk.injEq] at hstep
    rw [← hstep.1]
    refine h.logout token _ fun k => ?_
    grind

theorem Tracks.step_postAuthorizations {log : List Event} {st st' : State} {o : Outcome}
    (h : Tracks log st) {token : Bytes} {scopes : Scopes} (hname : token ∉ objectPrototype)
    (hstep : step st (.postAuthorizations token scopes) = some (st', o)) :
    Tracks (log ++ [.postAuthorizations token scopes]) st' := by
  rcases h.verify hname with ⟨username, hverify, issued⟩ | ⟨hverify, -⟩
  · simp only [Sessions.step, hverify, Option.some_inj, Prod.mk.injEq] at hstep
    rw [← hstep.1]
    refine h.keep _ (by simp) (by simp) rfl (fun _ => Or.inl) fun p mem => ?_
    rcases List.mem_cons.1 mem with rfl | mem
    · exact Or.inr ⟨log, token, [], rfl, issued⟩
    · exact Or.inl mem
  · simp only [Sessions.step, hverify, Option.some_inj, Prod.mk.injEq] at hstep
    rw [← hstep.1]
    exact h.quiet _ (by simp) (by simp) rfl (List.Subset.refl _) (List.Subset.refl _)

theorem Tracks.step {log : List Event} {st st' : State} {o : Outcome} (h : Tracks log st)
    (e : Event) (hstep : step st e = some (st', o)) (hordinary : e.Ordinary)
    (hfresh : ∀ token, e.issued = some token → ∀ username, ¬ Issued log token username) :
    Tracks (log ++ [e]) st' := by
  cases e with
  | postAuthenticate username =>
    simp only [Sessions.step, Option.some_inj, Prod.mk.injEq] at hstep
    rw [← hstep.1]
    exact h.quiet _ (by simp) (by simp) rfl (List.Subset.refl _) (List.Subset.refl _)
  | pamauth username result => exact h.step_pamauth hstep
  | sessionToken username buf =>
    by_cases haccepted : username ∈ st.accepted
    · simp only [Sessions.step, if_pos haccepted, Option.some_inj, Prod.mk.injEq] at hstep
      rw [← hstep.1]
      exact h.issue username buf haccepted (hfresh _ rfl)
    · simp [Sessions.step, haccepted] at hstep
  | deleteAuthenticate token => exact h.step_deleteAuthenticate hstep
  | getAuthorizations token =>
    have same : st' = st := by
      simp only [Sessions.step] at hstep
      split at hstep
      all_goals exact (Prod.mk.inj (Option.some.inj hstep)).1.symm
    rw [same]
    exact h.quiet _ (by simp) (by simp) rfl (List.Subset.refl _) (List.Subset.refl _)
  | postAuthorizations token scopes => exact h.step_postAuthorizations (hordinary token rfl) hstep
  | authorizationToken username scopes buf =>
    by_cases hadding : (username, scopes) ∈ st.adding
    · simp only [Sessions.step, if_pos hadding, Option.some_inj, Prod.mk.injEq] at hstep
      rw [← hstep.1]
      exact h.quiet _ (by simp) (by simp) rfl (List.Subset.refl _) List.erase_subset
    · simp [Sessions.step, hadding] at hstep

theorem run_append (before after : List Event) :
    run (before ++ after) =
      (run before).bind fun st => after.foldlM (fun st e => (step st e).map Prod.fst) st := by
  simp [run]

theorem run_append_singleton (events : List Event) (e : Event) :
    run (events ++ [e]) = (run events).bind fun st => (step st e).map Prod.fst := by
  simp [run]

theorem mem_issued {log : List Event} {token username : Bytes} (h : Issued log token username) :
    token ∈ log.filterMap Event.issued := by
  obtain ⟨earlier, buf, later, rfl, htoken, -⟩ := h
  rw [List.mem_filterMap]
  exact ⟨.sessionToken username buf, by simp, congrArg some htoken⟩

theorem run_tracks (events : List Event) (hordinary : ∀ e ∈ events, e.Ordinary)
    (hfresh : (events.filterMap Event.issued).Nodup) (st : State) (hrun : run events = some st) :
    Tracks events st := by
  induction events using List.reverseRecOn generalizing st with
  | nil =>
    rw [← Option.some_inj.1 hrun]
    exact tracks_start
  | append_singleton events e ih =>
    rw [run_append_singleton, Option.bind_eq_some_iff] at hrun
    obtain ⟨last, hlast, hnext⟩ := hrun
    obtain ⟨⟨next, o⟩, hstep, rfl⟩ := Option.map_eq_some_iff.1 hnext
    rw [List.filterMap_append, List.nodup_append] at hfresh
    have tracks := ih (fun d hd => hordinary d (by simp [hd])) hfresh.1 last hlast
    refine tracks.step e hstep (hordinary e (by simp)) fun token htoken username issued => ?_
    exact hfresh.2.2 token (mem_issued issued) token (by simp [htoken]) rfl

theorem Tracks.safe {log : List Event} {st : State} (h : Tracks log st) (e : Event)
    (hordinary : e.Ordinary) : Safe log st e := by
  cases e with
  | getAuthorizations token =>
    rcases h.verify (hordinary token rfl) with ⟨username, hverify, issued⟩ | ⟨hverify, unknown⟩
    · exact Or.inl ⟨username, issued, by simp only [Sessions.step, hverify]⟩
    · exact Or.inr ⟨unknown, by simp only [Sessions.step, hverify]⟩
  | postAuthorizations token scopes =>
    rcases h.verify (hordinary token rfl) with ⟨username, hverify, issued⟩ | ⟨hverify, unknown⟩
    · exact Or.inl ⟨username, issued, by simp only [Sessions.step, hverify]⟩
    · exact Or.inr ⟨unknown, by simp only [Sessions.step, hverify]⟩
  | authorizationToken username scopes buf =>
    intro next hstep
    by_cases hadding : (username, scopes) ∈ st.adding
    · exact h.adding (username, scopes) hadding
    · simp [Sessions.step, hadding] at hstep
  | postAuthenticate username => trivial
  | pamauth username result => trivial
  | sessionToken username buf => trivial
  | deleteAuthenticate token => trivial

theorem verifySessionToken_inherited (st : State) {name : Bytes} (h : name ∈ objectPrototype) :
    ∃ session, verifySessionToken st name = some session := by
  unfold verifySessionToken
  rcases index_cases st.sessions name with ⟨session, -, hindex⟩ | ⟨-, -, hindex⟩ | ⟨-, hname, -⟩
  · exact ⟨session, by rw [hindex]⟩
  · exact ⟨_, by rw [hindex]⟩
  · exact absurd h hname

theorem ordinary_of_safe {log : List Event} {st : State} {e : Event} (h : Safe log st e) :
    e.Ordinary := by
  intro token htoken hname
  have never : ∀ username, ¬ Issued log token username := fun username issued =>
    absurd (issued_length issued) (Nat.ne_of_lt (objectPrototype_length hname))
  obtain ⟨session, hverify⟩ := verifySessionToken_inherited st hname
  cases e with
  | getAuthorizations key =>
    have same : key = token := Option.some_inj.1 htoken
    subst same
    rcases h with ⟨username, issued, -⟩ | ⟨-, refused⟩
    · exact never username issued
    · simp [step, hverify] at refused
  | postAuthorizations key scopes =>
    have same : key = token := Option.some_inj.1 htoken
    subst same
    rcases h with ⟨username, issued, -⟩ | ⟨-, refused⟩
    · exact never username issued
    · simp [step, hverify] at refused
  | postAuthenticate username => simp [Event.presented] at htoken
  | pamauth username result => simp [Event.presented] at htoken
  | sessionToken username buf => simp [Event.presented] at htoken
  | deleteAuthenticate key => simp [Event.presented] at htoken
  | authorizationToken username scopes buf => simp [Event.presented] at htoken

/-- Every request on /authorizations is judged by the sessions issued and not revoked,
at each moment of the run, exactly when none names an inherited property. -/
theorem run_safe_iff (events : List Event) (hrun : (run events).isSome)
    (hfresh : (events.filterMap Event.issued).Nodup) :
    (∀ before e after, events = before ++ e :: after →
        ∀ st, run before = some st → Safe before st e) ↔
      ∀ e ∈ events, e.Ordinary := by
  constructor
  · intro safe e he
    obtain ⟨before, after, split⟩ := List.append_of_mem he
    rw [split, run_append, Option.isSome_bind] at hrun
    cases hbefore : run before with
    | none => simp [hbefore] at hrun
    | some st => exact ordinary_of_safe (safe before e after split st hbefore)
  · intro ordinary before e after split st hbefore
    have fresh : (before.filterMap Event.issued).Nodup := by
      rw [split, List.filterMap_append, List.nodup_append] at hfresh
      exact hfresh.1
    have tracks := run_tracks before (fun d hd => ordinary d (by simp [split, hd])) fresh st hbefore
    exact tracks.safe e (ordinary e (by simp [split]))

def zeroes : RandomBytes := ⟨List.replicate 64 0, rfl⟩

def loginAndList : List Event :=
  [.postAuthenticate (str "me"), .pamauth (str "me") true, .sessionToken (str "me") zeroes,
    .getAuthorizations (base64 zeroes.1)]

theorem run_safe_iff_login :
    (∀ before e after, loginAndList = before ++ e :: after →
        ∀ st, run before = some st → Safe before st e) ↔
      ∀ e ∈ loginAndList, e.Ordinary :=
  run_safe_iff loginAndList (by decide) (by decide)

theorem constructor_accepted :
    step start (.getAuthorizations (str "constructor")) =
        some (start, .listed (str "undefined")) ∧
      ¬ Safe [] start (.getAuthorizations (str "constructor")) := by
  have served : step start (.getAuthorizations (str "constructor")) =
      some (start, .listed (str "undefined")) := by decide
  refine ⟨served, fun h => ?_⟩
  rcases h with ⟨username, issued, -⟩ | ⟨-, refused⟩
  · exact absurd (issued_length issued) (by decide)
  · rw [served] at refused
    simp at refused

end RsServe.Sessions

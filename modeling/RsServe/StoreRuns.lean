import RsServe.UserStores

/-! What the clients can tell from the replies of a run: the documents with their versions, and
nothing of the requests of other users. -/

namespace RsServe.StoreRuns
open CString NameTree Kernel Attributes DiskPath Storage StorageRules Users Authorize Dispatch
open PutResults Responses CanonicalPaths DocumentMap Documents ConditionalWrites Histories DocumentRequests
open UserStores
open ConditionalStore (Answer Rules Admits Matches answers after put_cases delete_cases get_missing
  get_notModified get_found after_cons after_append)

section Told
variable {K : Type} [DecidableEq K] {rules : Rules K Bytes Bytes} {docs : K → Option Bytes} {key : K}
  {reply : Reply}

theorem told_put {body : Bytes} {ifMatch : Option Bytes} {ifNone : Bool}
    (told : Tells (ConditionalStore.put rules docs key body ifMatch ifNone).1 reply) :
    ((ConditionalStore.put rules docs key body ifMatch ifNone).2 = docs ∧ ¬ Telling reply.status) ∨
    (Admits ((docs key).map rules.version) ifMatch ifNone ∧
      (ConditionalStore.put rules docs key body ifMatch ifNone).2 =
        Function.update docs key (some body) ∧
      reply.header (str "ETag") = some (rules.version body) ∧
      reply.status = if docs key = none then 201 else 200) := by
  rcases put_cases rules docs key body ifMatch ifNone with
    ⟨-, hrun⟩ | ⟨-, -, hrun⟩ | ⟨-, admits, hrun⟩
  · rw [hrun] at told ⊢
    refine Or.inl ⟨rfl, fun telling => ?_⟩
    rcases told with h | h | h | h <;> simp [Telling, h] at telling
  · rw [hrun] at told ⊢
    refine Or.inl ⟨rfl, fun telling => ?_⟩
    have h : reply.status = 412 := told
    simp [Telling, h] at telling
  · rw [hrun] at told ⊢
    refine Or.inr ⟨admits, rfl, ?_⟩
    by_cases hdoc : docs key = none
    · simp only [if_pos hdoc] at told ⊢
      exact ⟨told.2, told.1⟩
    · simp only [if_neg hdoc] at told ⊢
      exact ⟨told.2, told.1⟩

theorem told_delete {ifMatch : Option Bytes}
    (told : Tells (ConditionalStore.delete rules docs key ifMatch).1 reply) :
    ((ConditionalStore.delete rules docs key ifMatch).2 = docs ∧ ¬ Telling reply.status) ∨
    ∃ body, docs key = some body ∧ Matches (some (rules.version body)) ifMatch ∧
      (ConditionalStore.delete rules docs key ifMatch).2 = Function.update docs key none ∧
      reply.header (str "ETag") = some (rules.version body) ∧ reply.status = 200 := by
  rcases delete_cases rules docs key ifMatch with ⟨-, hrun⟩ | ⟨body, hdoc, ⟨-, hrun⟩ | ⟨admits, hrun⟩⟩
  · rw [hrun] at told ⊢
    refine Or.inl ⟨rfl, fun telling => ?_⟩
    rcases told with h | h <;> simp [Telling, h] at telling
  · rw [hrun] at told ⊢
    refine Or.inl ⟨rfl, fun telling => ?_⟩
    have h : reply.status = 412 := told
    simp [Telling, h] at telling
  · rw [hrun] at told ⊢
    exact Or.inr ⟨body, hdoc, admits, rfl, told.2, told.1⟩

omit [DecidableEq K] in
theorem told_get {ifNoneMatch : Option Bytes}
    (told : Tells (ConditionalStore.get rules docs key ifNoneMatch) reply) :
    (reply.status = 200 → ∃ body, docs key = some body ∧ reply.body = body ∧
      reply.header (str "ETag") = some (rules.version body)) ∧
    (reply.status = 304 → ∃ body, docs key = some body ∧
      ifNoneMatch = some (rules.version body)) := by
  cases hdoc : docs key with
  | none =>
    rw [get_missing hdoc] at told
    rcases told with h | h <;> simp [h]
  | some body =>
    by_cases hmatch : ifNoneMatch = some (rules.version body)
    · rw [get_notModified hdoc hmatch] at told
      have h : reply.status = 304 := told
      exact ⟨fun same => by simp [h] at same, fun _ => ⟨body, rfl, hmatch⟩⟩
    · rw [get_found hdoc hmatch] at told
      exact ⟨fun _ => ⟨body, rfl, told.2.2, told.2.1⟩, fun same => by simp [told.1] at same⟩

end Told

/-- The document, with the version in the reply, that an exchange has left at a path of a user, or
that it has left none, if it says that it changed something there. -/
def reported (user path : Bytes) (entry : Event × Reply) : Option (Option (Bytes × Option Bytes)) :=
  if entry.1.req.user = user ∧ entry.1.req.path = path then
    match entry.1.req.method with
    | .PUT =>
      if entry.2.status = 200 ∨ entry.2.status = 201 then
        some (some (entry.1.req.bufferIn, entry.2.header (str "ETag")))
      else none
    | .DELETE => if entry.2.status = 200 then some none else none
    | _ => none
  else none

def lastReported (user path : Bytes) (log : List (Event × Reply)) : Option (Bytes × Option Bytes) :=
  log.foldl (fun found entry => (reported user path entry).getD found) none

theorem lastReported_concat (user path : Bytes) (log : List (Event × Reply)) (entry : Event × Reply) :
    lastReported user path (log ++ [entry]) =
      (reported user path entry).getD (lastReported user path log) := by
  rw [lastReported, List.foldl_append]
  rfl

structure Consistent (before : List (Event × Reply)) (e : Event) (reply : Reply) : Prop where
  put : e.req.method = .PUT → reply.status = 200 ∨ reply.status = 201 →
    (∀ v, e.req.headersIn.ifMatch = some v →
      (lastReported e.req.user e.req.path before).bind Prod.snd = some v) ∧
    (e.req.headersIn.ifNoneMatch = some (str "*") →
      lastReported e.req.user e.req.path before = none) ∧
    (reply.status = 201 ↔ lastReported e.req.user e.req.path before = none)
  delete : e.req.method = .DELETE → reply.status = 200 → ∃ body v,
    lastReported e.req.user e.req.path before = some (body, some v) ∧
    reply.header (str "ETag") = some v ∧ ∀ v', e.req.headersIn.ifMatch = some v' → v' = v
  get : e.req.method = .GET → e.req.file ≠ none → reply.status = 200 →
    lastReported e.req.user e.req.path before = some (reply.body, reply.header (str "ETag"))
  notModified : e.req.method = .GET → e.req.file ≠ none → reply.status = 304 → ∃ body v,
    lastReported e.req.user e.req.path before = some (body, some v) ∧
    e.req.headersIn.ifNoneMatch = some v

def Reported (env : Env) (before : List (Event × Reply)) (docs : UserStores.Store) : Prop :=
  ∀ user path, Canonical path → lastReported user path before =
    (docs (user, components path)).map fun body => (body, some (version env.sha1 body))

variable {env : Env} {e : Event} {reply : Reply} {before : List (Event × Reply)}
  {docs : UserStores.Store} {users : Set Bytes}

theorem Reported.nothing : Reported env [] fun _ => none := fun _ _ _ => rfl

theorem reported_other {user path : Bytes} (h : ¬ (e.req.user = user ∧ e.req.path = path)) :
    reported user path (e, reply) = none := if_neg h

theorem reported_silent (h : ForDocument e.req → ¬ Telling reply.status) (user path : Bytes) :
    reported user path (e, reply) = none := by
  unfold reported
  split
  · cases hmethod : e.req.method with
    | PUT =>
      have silent := h (Or.inl hmethod)
      exact if_neg fun success => silent (success.imp id Or.inl)
    | DELETE =>
      have silent := h (Or.inr (Or.inl hmethod))
      exact if_neg fun success => silent (Or.inl success)
    | _ => rfl
  · rfl

theorem consistent_silent (h : ForDocument e.req → ¬ Telling reply.status) :
    Consistent before e reply where
  put := fun hmethod success => absurd (success.imp id Or.inl) (h (Or.inl hmethod))
  delete := fun hmethod success => absurd (Or.inl success) (h (Or.inr (Or.inl hmethod)))
  get := fun hmethod hfile success => absurd (Or.inl success) (h (Or.inr (Or.inr ⟨hmethod, hfile⟩)))
  notModified := fun hmethod hfile success =>
    absurd (Or.inr (Or.inr success)) (h (Or.inr (Or.inr ⟨hmethod, hfile⟩)))

theorem Reported.silent (h : Reported env before docs)
    (hsilent : ∀ user path, reported user path (e, reply) = none) :
    Reported env (before ++ [(e, reply)]) docs := by
  intro user path hpath
  rw [lastReported_concat, hsilent, Option.getD_none, h user path hpath]

theorem Reported.changed (h : Reported env before docs) (hpath : Canonical e.req.path)
    {new : Option Bytes} (hnew : reported e.req.user e.req.path (e, reply) =
      some (new.map fun body => (body, some (version env.sha1 body)))) :
    Reported env (before ++ [(e, reply)])
      (Function.update docs (e.req.user, components e.req.path) new) := by
  intro user path hpath'
  rw [lastReported_concat]
  by_cases same : e.req.user = user ∧ e.req.path = path
  · obtain ⟨rfl, rfl⟩ := same
    rw [hnew, Option.getD_some, Function.update_self]
  · have other : (user, components path) ≠ (e.req.user, components e.req.path) := by
      intro keys
      rw [Prod.mk.injEq, components_inj hpath' hpath] at keys
      exact same ⟨keys.1.symm, keys.2.symm⟩
    rw [reported_other same, Option.getD_none, Function.update_of_ne other, h user path hpath']

section
variable (h : Reported env before docs) (hpath : Canonical e.req.path)
include h hpath

theorem put_consistent {ifNone : Bool} (hmethod : e.req.method = .PUT)
    (hnone : ifNone = decide (e.req.headersIn.ifNoneMatch = some (str "*")))
    (told : Tells (ConditionalStore.put (storeRules env) docs (e.req.user, components e.req.path)
      e.req.bufferIn e.req.headersIn.ifMatch ifNone).1 reply) :
    Consistent before e reply ∧ Reported env (before ++ [(e, reply)])
      (ConditionalStore.put (storeRules env) docs (e.req.user, components e.req.path) e.req.bufferIn
        e.req.headersIn.ifMatch ifNone).2 := by
  have found := h e.req.user e.req.path hpath
  rcases told_put told with ⟨hsame, quiet⟩ | ⟨admits, hnew, hetag, hstatus⟩
  · refine ⟨consistent_silent fun _ => quiet, ?_⟩
    rw [hsame]
    exact h.silent (reported_silent fun _ => quiet)
  · have success : reply.status = 200 ∨ reply.status = 201 := by
      rw [hstatus]
      split <;> simp
    refine ⟨⟨fun _ _ => ⟨fun v hv => ?_, fun hstar => ?_, ?_⟩, ?_, ?_, ?_⟩, ?_⟩
    · obtain ⟨body, hbody, hversion⟩ := Option.map_eq_some_iff.1 (admits.1 v hv)
      rw [found, hbody]
      exact congrArg some hversion
    · rw [found, Option.map_eq_none_iff]
      exact Option.map_eq_none_iff.1 (admits.2 (hnone.trans (decide_eq_true hstar)))
    · rw [found, Option.map_eq_none_iff, hstatus]
      split <;> simp_all
    · simp [hmethod]
    · simp [hmethod]
    · simp [hmethod]
    · rw [hnew]
      refine h.changed hpath ?_
      simp only [reported, and_self, if_true, hmethod, if_pos success, hetag]
      rfl

theorem delete_consistent (hmethod : e.req.method = .DELETE)
    (told : Tells (ConditionalStore.delete (storeRules env) docs (e.req.user, components e.req.path)
      e.req.headersIn.ifMatch).1 reply) :
    Consistent before e reply ∧ Reported env (before ++ [(e, reply)])
      (ConditionalStore.delete (storeRules env) docs (e.req.user, components e.req.path)
        e.req.headersIn.ifMatch).2 := by
  have found := h e.req.user e.req.path hpath
  rcases told_delete told with ⟨hsame, quiet⟩ | ⟨body, hdoc, admits, hnew, hetag, hstatus⟩
  · refine ⟨consistent_silent fun _ => quiet, ?_⟩
    rw [hsame]
    exact h.silent (reported_silent fun _ => quiet)
  · refine ⟨⟨?_, fun _ _ => ⟨body, version env.sha1 body, ?_, hetag, fun v hv => ?_⟩, ?_, ?_⟩, ?_⟩
    · simp [hmethod]
    · rw [found, hdoc]
      rfl
    · exact (Option.some.inj (admits v hv)).symm
    · simp [hmethod]
    · simp [hmethod]
    · rw [hnew]
      refine h.changed hpath ?_
      simp only [reported, and_self, if_true, hmethod, hstatus]
      rfl

theorem get_consistent (hmethod : e.req.method = .GET)
    (told : Tells (ConditionalStore.get (storeRules env) docs (e.req.user, components e.req.path)
      e.req.headersIn.ifNoneMatch) reply) :
    Consistent before e reply ∧ Reported env (before ++ [(e, reply)]) docs := by
  have found := h e.req.user e.req.path hpath
  have read := told_get told
  refine ⟨⟨?_, ?_, fun _ _ hstatus => ?_, fun _ _ hstatus => ?_⟩, ?_⟩
  · simp [hmethod]
  · simp [hmethod]
  · obtain ⟨body, hdoc, hbody, hetag⟩ := read.1 hstatus
    rw [found, hdoc, hbody, hetag]
    rfl
  · obtain ⟨body, hdoc, hmatch⟩ := read.2 hstatus
    exact ⟨body, version env.sha1 body, by rw [found, hdoc]; rfl, hmatch⟩
  · refine h.silent fun user path => ?_
    simp [reported, hmethod]

end

theorem step_consistent (h : Reported env before docs) (he : Ordinary users e)
    (told : ∀ r, asked env e = some r →
      Tells (ConditionalStore.serve (storeRules env) docs r).1 reply)
    (silent : asked env e = none → ForDocument e.req → ¬ Telling reply.status) :
    Consistent before e reply ∧ Reported env (before ++ [(e, reply)])
      (after (storeRules env) docs (asked env e).toList) := by
  cases hasked : asked env e with
  | none =>
    have quiet := silent hasked
    exact ⟨consistent_silent quiet, h.silent (reported_silent quiet)⟩
  | some r =>
    have told := told r hasked
    obtain ⟨-, hfile, own, hown, rfl⟩ := asked_eq_some hasked
    have hpath := he.canonical hfile
    rw [Option.toList_some, after_cons]
    unfold storeRequest at hown
    cases hmethod : e.req.method with
    | PUT =>
      simp only [hmethod, Option.some_inj] at hown
      subst hown
      exact put_consistent h hpath hmethod rfl told
    | DELETE =>
      simp only [hmethod, Option.some_inj] at hown
      subst hown
      exact delete_consistent h hpath hmethod told
    | GET =>
      simp only [hmethod, Option.some_inj] at hown
      subst hown
      exact get_consistent h hpath hmethod told
    | _ => simp [hmethod] at hown

variable {start : Node} {s s' : Server} {events : List Event} {log : List (Event × Reply)}

theorem exchanges_cons (h : exchanges env s (e :: events) = some (log, s')) :
    ∃ reply s₁ rest, replied env s e = some reply ∧ serve env s e = some s₁ ∧
      exchanges env s₁ events = some (rest, s') ∧ log = (e, reply) :: rest := by
  rw [exchanges] at h
  cases hreply : replied env s e with
  | none => simp [hreply] at h
  | some reply =>
    cases hserve : serve env s e with
    | none => simp [hreply, hserve] at h
    | some s₁ =>
      rw [hreply, hserve] at h
      simp only [Option.map_eq_some_iff, Prod.mk.injEq] at h
      obtain ⟨run, hrun, hlog, rfl⟩ := h
      exact ⟨reply, s₁, run.1, rfl, rfl, hrun, hlog.symm⟩

theorem run_consistent (hstart : EmptyRoots env.cfg users start)
    (h : Holds env.cfg users start docs s.tree) (hdocs : Reported env before docs)
    (hevents : ∀ e ∈ events, Ordinary users e) (hrun : exchanges env s events = some (log, s')) :
    (∀ front e reply back, log = front ++ (e, reply) :: back →
      Consistent (before ++ front) e reply) ∧
    Reported env (before ++ log) (after (storeRules env) docs (requests env events)) ∧
    Holds env.cfg users start (after (storeRules env) docs (requests env events)) s'.tree := by
  induction events generalizing s docs before log with
  | nil =>
    rw [exchanges, Option.some_inj, Prod.mk.injEq] at hrun
    obtain ⟨rfl, rfl⟩ := hrun
    rw [List.append_nil]
    exact ⟨by simp, hdocs, h⟩
  | cons e events ih =>
    obtain ⟨reply, s₁, rest, hreply, hserve, hrest, rfl⟩ := exchanges_cons hrun
    have he := hevents e List.mem_cons_self
    obtain ⟨sent, s₂, hsent, hserved, told, silent, holds⟩ := step_holds hstart h he
    rw [hreply, Option.some_inj] at hsent
    rw [hserve, Option.some_inj] at hserved
    subst hsent hserved
    have step := step_consistent hdocs he told silent
    have later := ih holds step.2 (fun e' he' => hevents e' (List.mem_cons_of_mem e he')) hrest
    rw [List.append_assoc, List.singleton_append, ← after_append, ← requests_cons] at later
    refine ⟨fun front e' reply' back hsplit => ?_, later.2⟩
    cases front with
    | nil =>
      simp only [List.nil_append, List.cons.injEq, Prod.mk.injEq] at hsplit
      obtain ⟨⟨rfl, rfl⟩, -⟩ := hsplit
      rw [List.append_nil]
      exact step.1
    | cons entry front =>
      simp only [List.cons_append, List.cons.injEq] at hsplit
      obtain ⟨rfl, hback⟩ := hsplit
      have inner := later.1 front e' reply' back hback
      rwa [List.append_assoc, List.singleton_append] at inner

/-- Every reply of a run agrees with those before it: a version that a client asked for is the one
that was reported last, and what is read is what was stored last, with its version. -/
theorem replies_consistent (hstart : EmptyRoots env.cfg users s.tree)
    (hevents : ∀ e ∈ events, Ordinary users e) (hrun : exchanges env s events = some (log, s'))
    {front back : List (Event × Reply)} (hlog : log = front ++ (e, reply) :: back) :
    Consistent front e reply := by
  have run := run_consistent hstart hstart.holds Reported.nothing hevents hrun
  simpa using run.1 front e reply back hlog

theorem replies_consistent_sample : ∃ front reply back s',
    exchanges twoUsers ⟨twoHomes, [0, 1, 2]⟩ twoUsersRun =
      some (front ++ (eventOf (str "you") .GET (str "/a/b") (str "b"), reply) :: back, s') ∧
    front.length = 3 ∧
    Consistent front (eventOf (str "you") .GET (str "/a/b") (str "b")) reply := by
  obtain ⟨log, s', hrun, hlog, -⟩ := run_holds (s := ⟨twoHomes, [0, 1, 2]⟩) emptyRoots_twoHomes
    emptyRoots_twoHomes.holds ordinary_twoUsersRun
  have split : twoUsersRun = twoUsersRun.take 3 ++
    eventOf (str "you") .GET (str "/a/b") (str "b") :: twoUsersRun.drop 4 := rfl
  rw [split, List.map_eq_append_iff] at hlog
  obtain ⟨front, rest, rfl, hfront, hrest⟩ := hlog
  obtain ⟨⟨e, reply⟩, back, rfl, rfl, -⟩ := List.map_eq_cons_iff.1 hrest
  refine ⟨front, reply, back, s', hrun, ?_, ?_⟩
  · rw [← List.length_map, hfront]
    rfl
  · exact replies_consistent emptyRoots_twoHomes ordinary_twoUsersRun hrun rfl

theorem shows_at {docs docs' : Docs Bytes Bytes} {view view' : List Bytes → Option View}
    (h : Shows docs [] view) (h' : Shows docs' [] view') {names : List Bytes} (hne : names ≠ [])
    (same : ∀ q, names <+: q → docs q = docs' q) : view names = view' names := by
  have above : Ancestor docs names ↔ Ancestor docs' names := by
    refine exists_congr fun q => and_congr_right fun hq => ?_
    obtain ⟨rest, -, rfl⟩ := hq
    rw [same _ (List.prefix_append _ _)]
  have here := same names (List.prefix_refl _)
  cases hview : view names with
  | none =>
    have empty := (h.none_iff hne).1 hview
    rw [(h'.none_iff hne).2 ⟨here ▸ empty.1, above.not.1 empty.2⟩]
  | some kind =>
    cases kind with
    | leaf content => rw [(h'.leaf names content).2 (here ▸ (h.leaf names content).1 hview)]
    | branch u =>
      rw [(h'.branch names hne).2 (((h.branch names hne).1 hview).imp_left above.1)]

theorem holds_below {cfg : Config} {docs' : UserStores.Store} {tree tree' : Node} {user : Bytes}
    (hstart : EmptyRoots cfg users start) (h : Holds cfg users start docs tree)
    (h' : Holds cfg users start docs' tree') (huser : user ∈ users) {names : List Bytes}
    (same : ∀ q, names <+: q → docs (user, q) = docs' (user, q)) :
    plain tree (rootOf cfg user ++ names) = plain tree' (rootOf cfg user ++ names) := by
  by_cases hne : names = []
  · rw [hne, List.append_nil, h.top hstart huser, h'.top hstart huser]
  · exact shows_at (h.inside user huser) (h'.inside user huser) hne same

theorem holds_same {cfg : Config} {docs' : UserStores.Store} {tree tree' : Node}
    (hstart : EmptyRoots cfg users start) (h : Holds cfg users start docs tree)
    (h' : Holds cfg users start docs' tree')
    (same : ∀ user ∈ users, ∀ names, docs (user, names) = docs' (user, names)) :
    plain tree = plain tree' := by
  funext q
  by_cases hout : ∀ u ∈ users, ¬ (rootOf cfg u <+: q ∧ q ≠ rootOf cfg u)
  · rw [h.outside q hout, h'.outside q hout]
  · simp only [not_forall, not_not] at hout
    obtain ⟨u, hu, ⟨names, rfl⟩, -⟩ := hout
    exact holds_below hstart h h' hu fun q _ => same u hu q

theorem changed_on_the_way {cfg : Config} {docs' : UserStores.Store} {tree tree' : Node}
    (hstart : EmptyRoots cfg users start) (h : Holds cfg users start docs tree)
    (h' : Holds cfg users start docs' tree') {key : Bytes × List Bytes}
    (hother : ∀ k, k ≠ key → docs k = docs' k) {q : Loc} (hchanged : plain tree q ≠ plain tree' q) :
    ∃ names, names ≠ [] ∧ q = rootOf cfg key.1 ++ names ∧ names <+: key.2 := by
  by_cases hout : ∀ u ∈ users, ¬ (rootOf cfg u <+: q ∧ q ≠ rootOf cfg u)
  · exact absurd ((h.outside q hout).trans (h'.outside q hout).symm) hchanged
  · simp only [not_forall, not_not] at hout
    obtain ⟨u, hu, ⟨names, rfl⟩, hne⟩ := hout
    by_contra elsewhere
    refine hchanged (holds_below hstart h h' hu fun below hbelow => hother _ fun same => ?_)
    rw [← same] at elsewhere
    exact elsewhere ⟨names, by simpa using hne, rfl, hbelow⟩

/-- The files and directories that a run leaves depend on the documents that were reported last and
on nothing else: not on the order of the requests, nor on documents that are gone. -/
theorem tree_of_documents {events' : List Event} {log' : List (Event × Reply)} {s'' : Server}
    (hstart : EmptyRoots env.cfg users s.tree) (hevents : ∀ e ∈ events, Usual env users e)
    (hevents' : ∀ e ∈ events', Usual env users e) (hrun : exchanges env s events = some (log, s'))
    (hrun' : exchanges env s events' = some (log', s''))
    (same : ∀ user ∈ users, ∀ path, Canonical path →
      (lastReported user path log).map Prod.fst = (lastReported user path log').map Prod.fst) :
    plain s'.tree = plain s''.tree := by
  obtain ⟨-, told, holds⟩ := run_consistent hstart hstart.holds Reported.nothing
    (fun e he => (hevents e he).toOrdinary) hrun
  obtain ⟨-, told', holds'⟩ := run_consistent hstart hstart.holds Reported.nothing
    (fun e he => (hevents' e he).toOrdinary) hrun'
  let docs := after (storeRules env) (fun _ => none) (requests env events)
  let docs' := after (storeRules env) (fun _ => none) (requests env events')
  have contents : ∀ user ∈ users, ∀ path, Canonical path →
      docs (user, components path) = docs' (user, components path) := by
    intro user huser path hpath
    have bodies := same user huser path hpath
    rw [List.nil_append] at told told'
    rw [told user path hpath, told' user path hpath, Option.map_map, Option.map_map] at bodies
    have body : ∀ found : Option Bytes,
        found.map (Prod.fst ∘ fun body => (body, some (version env.sha1 body))) = found :=
      fun found => by cases found <;> rfl
    rwa [body, body] at bodies
  refine holds_same hstart holds holds' fun user huser names => ?_
  by_cases hkey : ∃ path, Canonical path ∧ components path = names
  · obtain ⟨path, hpath, rfl⟩ := hkey
    exact contents user huser path hpath
  · have none : docs (user, names) = none := by
      by_contra some
      exact hkey (holds.keys (user, names) some)
    have none' : docs' (user, names) = .none := by
      by_contra some
      exact hkey (holds'.keys (user, names) some)
    exact none.trans none'.symm

theorem tree_of_documents_sample : ∃ log s' s'',
    exchanges twoUsers ⟨twoHomes, [0, 1, 2]⟩ [eventOf (str "me") .PUT (str "/a/b") (str "b"),
      eventOf (str "me") .DELETE (str "/a/b") (str "b")] = some (log, s') ∧
    exchanges twoUsers ⟨twoHomes, [0, 1, 2]⟩ [] = some ([], s'') ∧
    plain s'.tree = plain s''.tree := by
  have b : Canonical (str "/a/b") := ⟨by decide, by decide, by decide⟩
  have me : str "me" ∈ meAndYou := Or.inl rfl
  have ordinary : ∀ e ∈ [eventOf (str "me") .PUT (str "/a/b") (str "b"),
      eventOf (str "me") .DELETE (str "/a/b") (str "b")], Ordinary meAndYou e :=
    List.forall_mem_cons.2
      ⟨ordinary_eventOf me _ b, List.forall_mem_singleton.2 (ordinary_eventOf me _ b)⟩
  obtain ⟨log, s', hrun, hlog, -⟩ := run_holds (s := ⟨twoHomes, [0, 1, 2]⟩) emptyRoots_twoHomes
    emptyRoots_twoHomes.holds ordinary
  have statuses : (exchanges twoUsers ⟨twoHomes, [0, 1, 2]⟩
      [eventOf (str "me") .PUT (str "/a/b") (str "b"),
        eventOf (str "me") .DELETE (str "/a/b") (str "b")]).map
      (fun run => run.1.map (·.2.status)) = some [201, 200] := by decide +kernel
  rw [hrun, Option.map_some, Option.some_inj] at statuses
  have within : ∀ e ∈ [eventOf (str "me") .PUT (str "/a/b") (str "b"),
      eventOf (str "me") .DELETE (str "/a/b") (str "b")],
      WithinLimits (makeDiskPath twoUsers.cfg e.req.user e.req.path).diskPath := by decide +kernel
  refine ⟨log, s', _, hrun, rfl, tree_of_documents (s := ⟨twoHomes, [0, 1, 2]⟩) emptyRoots_twoHomes
    (fun e he => ⟨ordinary e he, within e he⟩) (List.forall_mem_nil _) hrun rfl fun user _ path _ => ?_⟩
  match log, hlog, statuses with
  | [(e₁, reply₁), (e₂, reply₂)], hlog, statuses =>
    simp only [List.map_cons, List.map_nil, List.cons.injEq, and_true] at hlog statuses
    obtain ⟨rfl, rfl⟩ := hlog
    by_cases same : str "me" = user ∧ str "/a/b" = path
    · simp [lastReported, reported, eventOf, samplePut, same, statuses]
    · simp [lastReported, reported, eventOf, samplePut, same]

def ofUser (user : Bytes) (events : List Event) : List Event := events.filter fun e => e.req.user = user

end RsServe.StoreRuns

import RsServe.Users

/-! process_resource: which resources webfinger announces. -/

namespace RsServe.Webfinger
open CString Users

/-- sprintf with a format whose only conversion is one `%s` -/
def sprintfS : (format arg : Bytes) → Bytes
  | [], _ => []
  | c :: format, arg =>
    if c = percent ∧ format.head? = some 115 then arg ++ format.tail
    else c :: sprintfS format arg

theorem sprintfS_append {a : Bytes} (ha : percent ∉ a) (b arg : Bytes) :
    sprintfS (a ++ str "%s" ++ b) arg = a ++ arg ++ b := by
  induction a with
  | nil => rfl
  | cons c a ih =>
    have hc : c ≠ percent := fun same => ha (by simp [same])
    have htail : percent ∉ a := fun mem => ha (by simp [mem])
    simp only [List.cons_append, sprintfS, hc, false_and, if_false]
    rw [ih htail]

def storageUriFormat (cfg : Config) : Bytes :=
  cfg.scheme ++ str "://" ++ cfg.hostname ++ str "/storage/" ++ str "%s"

/-- The loop over the local part: what stands before the first `@`, and the
hostname after it. -/
def localPart : Bytes → Option (Bytes × Bytes)
  | [] => none
  | c :: rest =>
    if c = at_ then some ([], rest)
    else (localPart rest).map fun parts => (c :: parts.1, parts.2)

theorem localPart_eq_some {w user hostname : Bytes} :
    localPart w = some (user, hostname) ↔ w = user ++ at_ :: hostname ∧ at_ ∉ user := by
  induction w generalizing user with
  | nil => simp [localPart]
  | cons c w ih =>
    by_cases hc : c = at_
    · simp only [localPart, hc, if_true, Option.some_inj, Prod.mk.injEq]
      cases user with
      | nil => simp
      | cons d user =>
        simp only [List.cons_append, List.cons.injEq, List.mem_cons, not_or]
        grind
    · simp only [localPart, hc, if_false, Option.map_eq_some_iff, Prod.mk.injEq, Prod.exists]
      cases user with
      | nil => simp [hc]
      | cons d user =>
        simp only [List.cons_append, List.cons.injEq, List.mem_cons, not_or]
        grind

inductive Processed where
  | accepted (storageUri authUri : Bytes)
  | rejected (code : Int)
deriving DecidableEq

def Processed.code : Processed → Int
  | .accepted _ _ => 0
  | .rejected code => code

/-- evhtp_unescape_string belongs to libevhtp; none when it reports failure. The
buffer it fills is read as a C string. -/
def processResource (cfg : Config) (authUri : Bytes) (unescape : Bytes → Option Bytes)
    (getpwnam : Bytes → Getpwnam) (resource : Bytes) : Processed :=
  match unescape resource with
  | none => .rejected (-2)
  | some decoded =>
    let resourceBuf := cstr decoded
    if strncmpEq resourceBuf (str "acct:") 5 then
      match localPart (resourceBuf.drop 5) with
      | none => .rejected (-1)
      | some (user, hostname) =>
        if hostname = cfg.hostname ∧ uidAllowed (userGetUid getpwnam user) then
          .accepted (sprintfS (storageUriFormat cfg) user) (sprintfS authUri user)
        else .rejected (-1)
    else .rejected (-1)

def account (cfg : Config) (user : Bytes) : Bytes :=
  str "acct:" ++ user ++ at_ :: cfg.hostname

/-- The resource, percent-decoded, names a user that storage serves. -/
def Names (cfg : Config) (unescape : Bytes → Option Bytes) (getpwnam : Bytes → Getpwnam)
    (resource user : Bytes) : Prop :=
  unescape resource = some (account cfg user) ∧ at_ ∉ user ∧ NulFree (account cfg user) ∧
    verifyUser getpwnam user = 0

structure AnnouncesServed (cfg : Config) (authUri : Bytes) (unescape : Bytes → Option Bytes)
    (getpwnam : Bytes → Getpwnam) (resource : Bytes) : Prop where
  code : (processResource cfg authUri unescape getpwnam resource).code = 0 ↔
    ∃ user, Names cfg unescape getpwnam resource user
  storageUri : ∀ user, Names cfg unescape getpwnam resource user →
    ∃ auth, processResource cfg authUri unescape getpwnam resource =
      .accepted (cfg.scheme ++ str "://" ++ cfg.hostname ++ str "/storage/" ++ user) auth

theorem strncmpEq_acct {buf : Bytes} :
    strncmpEq buf (str "acct:") 5 ↔ ∃ rest, buf = str "acct:" ++ rest := by
  have five : 5 = (str "acct:").length := by decide
  simp only [strncmpEq, decide_eq_true_eq]
  constructor
  · intro h
    refine ⟨buf.drop 5, ?_⟩
    have whole : (str "acct:").take 5 = str "acct:" := by decide
    conv_lhs => rw [← List.take_append_drop 5 buf, h, whole]
  · intro h
    obtain ⟨rest, hrest⟩ := h
    rw [hrest, five, List.take_left, List.take_length]

theorem drop_acct (rest : Bytes) : (str "acct:" ++ rest).drop 5 = rest := by
  have five : 5 = (str "acct:").length := by decide
  rw [five, List.drop_left]

section Resource
variable {cfg : Config} {authUri : Bytes} {unescape : Bytes → Option Bytes}
  {getpwnam : Bytes → Getpwnam} {resource : Bytes}

theorem processResource_account {decoded user : Bytes} (hdecoded : unescape resource = some decoded)
    (haccount : cstr decoded = account cfg user) (huser : at_ ∉ user) :
    processResource cfg authUri unescape getpwnam resource =
      if uidAllowed (userGetUid getpwnam user) then
        .accepted (sprintfS (storageUriFormat cfg) user) (sprintfS authUri user)
      else .rejected (-1) := by
  have shape : account cfg user = str "acct:" ++ (user ++ at_ :: cfg.hostname) := by
    rw [account, List.append_assoc]
  have scheme : strncmpEq (str "acct:" ++ (user ++ at_ :: cfg.hostname)) (str "acct:") 5 :=
    strncmpEq_acct.2 ⟨_, rfl⟩
  have parts : localPart (user ++ at_ :: cfg.hostname) = some (user, cfg.hostname) :=
    localPart_eq_some.2 ⟨rfl, huser⟩
  simp only [processResource, hdecoded, haccount, shape, scheme, if_true, drop_acct, parts,
    true_and]

theorem processResource_code_eq_zero :
    (processResource cfg authUri unescape getpwnam resource).code = 0 ↔
      ∃ decoded user, unescape resource = some decoded ∧ cstr decoded = account cfg user ∧
        at_ ∉ user ∧ uidAllowed (userGetUid getpwnam user) := by
  constructor
  · intro h
    cases hdecoded : unescape resource with
    | none => simp [processResource, hdecoded, Processed.code] at h
    | some decoded =>
      by_cases scheme : strncmpEq (cstr decoded) (str "acct:") 5
      · obtain ⟨rest, hrest⟩ := strncmpEq_acct.1 scheme
        rw [hrest] at scheme
        cases hparts : localPart rest with
        | none => simp [processResource, hdecoded, hrest, scheme, drop_acct, hparts, Processed.code] at h
        | some parts =>
          have split := localPart_eq_some.1 hparts
          simp only [processResource, hdecoded, hrest, scheme, drop_acct, hparts, if_true] at h
          by_cases hok : parts.2 = cfg.hostname ∧ uidAllowed (userGetUid getpwnam parts.1)
          · refine ⟨decoded, parts.1, rfl, ?_, split.2, hok.2⟩
            rw [hrest, split.1, hok.1, account, List.append_assoc]
          · rw [if_neg hok] at h
            exact absurd h (by decide)
      · simp [processResource, hdecoded, scheme, Processed.code] at h
  · intro h
    obtain ⟨decoded, user, hdecoded, haccount, huser, hallowed⟩ := h
    rw [processResource_account hdecoded haccount huser, if_pos hallowed]
    rfl

theorem sprintfS_storageUriFormat (user : Bytes) :
    sprintfS (storageUriFormat cfg) user =
      cfg.scheme ++ str "://" ++ cfg.hostname ++ str "/storage/" ++ user := by
  have plain : percent ∉ cfg.scheme ++ str "://" ++ cfg.hostname ++ str "/storage/" := by
    have hscheme : percent ∉ cfg.scheme := by
      unfold Config.scheme
      cases cfg.useSsl with
      | false => decide
      | true => decide
    have hseparator : percent ∉ str "://" := by decide
    have harea : percent ∉ str "/storage/" := by decide
    simp [hscheme, hseparator, harea, cfg.plainHostname]
  have formatted := sprintfS_append plain [] user
  rw [List.append_nil, List.append_nil] at formatted
  exact formatted

theorem account_injective {user user' : Bytes} (h : account cfg user = account cfg user') :
    user = user' := by
  unfold account at h
  exact List.append_cancel_left (List.append_cancel_right h)

/-- Webfinger announces the users that storage serves exactly when the lookup of an
account at the own host does not fail and, if its user exists, no NUL hides the rest
of the resource. -/
theorem processResource_announces_iff (cfg : Config) (authUri : Bytes)
    (unescape : Bytes → Option Bytes) (getpwnam : Bytes → Getpwnam) (resource : Bytes) :
    AnnouncesServed cfg authUri unescape getpwnam resource ↔
      ∀ decoded user, unescape resource = some decoded → cstr decoded = account cfg user →
        at_ ∉ user → userGetUid getpwnam user ≠ -1 ∧ userGetUid getpwnam user ≠ -2 ∧
          (uidAllowed (userGetUid getpwnam user) → NulFree decoded) := by
  constructor
  · intro h decoded user hdecoded haccount huser
    by_cases hallowed : uidAllowed (userGetUid getpwnam user)
    · rcases h.code.1 (processResource_code_eq_zero.2
        ⟨decoded, user, hdecoded, haccount, huser, hallowed⟩) with ⟨named, hnamed, -, hnul, hserved⟩
      rw [hdecoded, Option.some_inj] at hnamed
      rw [hnamed, cstr_of_nulFree hnul] at haccount
      have same := account_injective haccount
      subst same
      have served := (verifyUser_eq_zero getpwnam).1 hserved
      exact ⟨served.1, served.2.1, fun _ => hnamed ▸ hnul⟩
    · refine ⟨fun same => ?_, fun same => ?_, fun allowed => absurd allowed hallowed⟩
      · exact hallowed (same ▸ uidAllowed_sentinels.1)
      · exact hallowed (same ▸ uidAllowed_sentinels.2)
  · intro h
    refine ⟨⟨fun accepted => ?_, fun named => ?_⟩, fun user named => ?_⟩
    · rcases processResource_code_eq_zero.1 accepted with
        ⟨decoded, user, hdecoded, haccount, huser, hallowed⟩
      have uid := h decoded user hdecoded haccount huser
      have whole := uid.2.2 hallowed
      have same : decoded = account cfg user := (cstr_of_nulFree whole).symm.trans haccount
      exact ⟨user, same ▸ hdecoded, huser, same ▸ whole,
        (verifyUser_eq_zero getpwnam).2 ⟨uid.1, uid.2.1, hallowed⟩⟩
    · obtain ⟨user, hdecoded, huser, hnul, hserved⟩ := named
      exact processResource_code_eq_zero.2 ⟨_, user, hdecoded, cstr_of_nulFree hnul, huser,
        ((verifyUser_eq_zero getpwnam).1 hserved).2.2⟩
    · obtain ⟨hdecoded, huser, hnul, hserved⟩ := named
      have allowed := ((verifyUser_eq_zero getpwnam).1 hserved).2.2
      refine ⟨sprintfS authUri user, ?_⟩
      rw [processResource_account hdecoded (cstr_of_nulFree hnul) huser, if_pos allowed,
        sprintfS_storageUriFormat]

end Resource

theorem unknown_user_announced :
    (processResource defaultConfig (str "https://auth/%s") some (fun _ => .absent)
        (str "acct:nobody@local.dev")).code = 0 ∧
      ¬ AnnouncesServed defaultConfig (str "https://auth/%s") some (fun _ => .absent)
        (str "acct:nobody@local.dev") := by
  have accepted : (processResource defaultConfig (str "https://auth/%s") some (fun _ => .absent)
      (str "acct:nobody@local.dev")).code = 0 := by decide
  refine ⟨accepted, fun h => ?_⟩
  obtain ⟨user, -, -, -, hserved⟩ := h.code.1 accepted
  have missing : userGetUid (fun _ => .absent) user = -1 := rfl
  rw [verifyUser, missing] at hserved
  exact absurd hserved (by decide)

end RsServe.Webfinger

import RsServe.ScopeEntry

/-! add-token: the scan for the colon in the bytes of an argument, and the authorization
that main adds. -/

namespace RsServe.AddToken
open CString AuthRecord ScopeEntry

/-- `while(*sptr != ':') sptr++`, where the rest of the argument is given with its NUL. None
where nothing of the argument is left. -/
def scanColon : Bytes → Option Nat
  | [] => none
  | c :: rest => if c = colon then some 0 else (scanColon rest).map (· + 1)

/-- The round of the loop on the argument itself, which is cut in two at the colon. -/
def readScope (scopeString : Bytes) : Option RsScope :=
  let argument := scopeString ++ [0]
  (scanColon argument).map fun sptr =>
    let cut := argument.set sptr 0
    { name := storedName (cstr cut)
      write := modeWrite (cstr (cut.drop (sptr + 1))) }

inductive Outcome where
  | usage
  /-- What is given to add_authorization. -/
  | adds (auth : RsAuthorization)
  /-- A scan goes on behind its argument. -/
  | strays
deriving DecidableEq

/-- main, on the arguments behind the program's name -/
def main : List Bytes → Outcome
  | username :: token :: scopeString :: more =>
    match (scopeString :: more).mapM readScope with
    | some scopes => .adds ⟨username, token, scopes⟩
    | none => .strays
  | _ => .usage

theorem scanColon_split {name : Bytes} (h : colon ∉ name) (rest : Bytes) :
    scanColon (name ++ colon :: rest) = some name.length := by
  induction name with
  | nil => rfl
  | cons c name ih =>
    have hc : c ≠ colon := fun same => h (by simp [same])
    have hname : colon ∉ name := fun mem => h (by simp [mem])
    rw [List.cons_append, scanColon, if_neg hc, ih hname]
    rfl

theorem scanColon_none {text : Bytes} (h : colon ∉ text) : scanColon text = none := by
  induction text with
  | nil => rfl
  | cons c text ih =>
    have hc : c ≠ colon := fun same => h (by simp [same])
    have htext : colon ∉ text := fun mem => h (by simp [mem])
    rw [scanColon, if_neg hc, ih htext]
    rfl

theorem readScope_split {name mode : Bytes} (hname : colon ∉ name)
    (hnul : NulFree (name ++ colon :: mode)) :
    readScope (name ++ colon :: mode) = some ⟨storedName name, modeWrite mode⟩ := by
  have nameFree : NulFree name := fun mem => hnul (by simp [mem])
  have modeFree : NulFree mode := fun mem => hnul (by simp [mem])
  have argument : name ++ colon :: mode ++ [0] = name ++ colon :: (mode ++ [0]) := by simp
  have cut : (name ++ colon :: (mode ++ [0])).set name.length 0 = name ++ 0 :: (mode ++ [0]) := by
    simp
  have behind : (name ++ 0 :: (mode ++ [0])).drop (name.length + 1) = mode ++ [0] := by simp
  rw [readScope, argument, scanColon_split hname, Option.map_some, cut]
  simp only [behind, cstr_append_nul nameFree, cstr_append_nul modeFree]

theorem readScope_none {scopeString : Bytes} (h : colon ∉ scopeString) :
    readScope scopeString = none := by
  have argument : colon ∉ scopeString ++ [0] := by
    rw [List.mem_append, not_or]
    exact ⟨h, by decide⟩
  rw [readScope, scanColon_none argument]
  rfl

theorem readScope_eq {scopeString : Bytes} (h : colon ∈ scopeString)
    (hnul : NulFree scopeString) : readScope scopeString = some (addTokenScope scopeString) := by
  obtain ⟨name, mode, rfl, hname⟩ := List.eq_append_cons_of_mem h
  rw [readScope_split hname hnul, addTokenScope_split hname]

theorem mapM_readScope {scopes : List Bytes} (h : ∀ s ∈ scopes, colon ∈ s)
    (hnul : ∀ s ∈ scopes, NulFree s) :
    scopes.mapM readScope = some (scopes.map addTokenScope) := by
  induction scopes with
  | nil => rfl
  | cons s scopes ih =>
    have rest := ih (fun t ht => h t (by simp [ht])) fun t ht => hnul t (by simp [ht])
    rw [List.mapM_cons, readScope_eq (h s (by simp)) (hnul s (by simp)), rest]
    rfl

theorem mapM_readScope_none {scopes : List Bytes} {s : Bytes} (hs : s ∈ scopes)
    (h : colon ∉ s) : scopes.mapM readScope = none := by
  induction scopes with
  | nil => simp at hs
  | cons t scopes ih =>
    rw [List.mapM_cons]
    cases hread : readScope t with
    | none => rfl
    | some scope =>
      rcases List.mem_cons.1 hs with rfl | hs
      · rw [readScope_none h] at hread
        simp at hread
      · rw [ih hs]
        rfl

theorem main_adds {username token : Bytes} {scopes : List Bytes} (hne : scopes ≠ [])
    (h : ∀ s ∈ scopes, colon ∈ s) (hnul : ∀ s ∈ scopes, NulFree s) :
    main (username :: token :: scopes) = .adds ⟨username, token, scopes.map addTokenScope⟩ := by
  obtain ⟨scopeString, more, rfl⟩ := List.exists_cons_of_ne_nil hne
  rw [main, mapM_readScope h hnul]

theorem main_strays {username token s : Bytes} {scopes : List Bytes} (hs : s ∈ scopes)
    (h : colon ∉ s) : main (username :: token :: scopes) = .strays := by
  obtain ⟨scopeString, more, rfl⟩ := List.exists_cons_of_ne_nil (List.ne_nil_of_mem hs)
  rw [main, mapM_readScope_none hs h]

structure ParsesWithin (username token : Bytes) (scopes : List Bytes) : Prop where
  inside : main (username :: token :: scopes) ≠ .strays
  /-- One scope for each argument, in their order. -/
  parsed (parts : List (Bytes × Bytes)) : parts ≠ [] → (∀ p ∈ parts, colon ∉ p.1) →
    scopes = parts.map (fun p => p.1 ++ colon :: p.2) →
    main (username :: token :: scopes) = .adds ⟨username, token, parts.map fun p =>
      { name := if p.1 = str "root" then [] else p.1
        write := if p.2 = str "rw" then 1 else 0 }⟩
  rejected (s : Bytes) : s ∈ scopes → colon ∉ s →
    ∀ auth, main (username :: token :: scopes) ≠ .adds auth

theorem map_addTokenScope {parts : List (Bytes × Bytes)} (h : ∀ p ∈ parts, colon ∉ p.1) :
    (parts.map fun p => p.1 ++ colon :: p.2).map addTokenScope =
      parts.map fun p => { name := storedName p.1, write := modeWrite p.2 } := by
  rw [List.map_map]
  exact List.map_congr_left fun p hp => addTokenScope_split (h p hp) p.2

theorem parsesWithin_iff (username token : Bytes) {scopes : List Bytes}
    (hnul : ∀ s ∈ scopes, NulFree s) :
    ParsesWithin username token scopes ↔ ∀ s ∈ scopes, colon ∈ s := by
  constructor
  · intro h s hs
    by_contra none
    exact h.inside (main_strays hs none)
  · intro h
    refine ⟨?_, fun parts hne hparts same => ?_, fun s hs none => absurd (h s hs) none⟩
    · by_cases hne : scopes = []
      · rw [hne]
        exact Outcome.noConfusion
      · rw [main_adds hne h hnul]
        exact Outcome.noConfusion
    · have hscopes : scopes ≠ [] := by simpa [same] using hne
      rw [main_adds hscopes h hnul, same, map_addTokenScope hparts]
      rfl

theorem parsesWithin_photos :
    ParsesWithin (str "me") (str "token") [str "photos:rw", str "root:r"] :=
  (parsesWithin_iff (str "me") (str "token") (by decide)).2 (by decide)

theorem photos_strays :
    NulFree (str "photos") ∧ ¬ ParsesWithin (str "me") (str "token") [str "photos"] := by
  refine ⟨by decide, fun h => ?_⟩
  exact h.inside (by decide)

end RsServe.AddToken

import RsServe.ChildPaths
import RsServe.StorageRules

/-! Directories have every name once: no system call that the handlers make changes this. -/

namespace RsServe.EntryNames
open CString AssocList NameTree Kernel Attributes Stamping Storage StorageRules ChildPaths

section Keys
variable {κ β : Type*} [DecidableEq κ]

theorem nodup_upsert {l : List (κ × β)} (h : (l.map Prod.fst).Nodup) (key : κ) (value : β) :
    ((upsert l key value).map Prod.fst).Nodup := by
  by_cases hkey : key ∈ l.map Prod.fst
  · obtain ⟨front, old, back, rfl, absent⟩ := exists_split hkey
    rw [upsert_split absent]
    simpa using h
  · rw [upsert_absent hkey, List.map_append, List.nodup_append]
    refine ⟨h, by simp, fun a ha b hb same => ?_⟩
    rw [List.map_cons, List.map_nil, List.mem_singleton] at hb
    rw [same, hb] at ha
    exact hkey ha

theorem nodup_remove {l : List (κ × β)} (h : (l.map Prod.fst).Nodup) (key : κ) :
    ((remove l key).map Prod.fst).Nodup :=
  h.sublist (List.filter_sublist.map Prod.fst)

end Keys

section Trees
variable {κ α β : Type} [BEq κ]

def Distinct (t : Tree κ α β) : Prop :=
  ∀ p entries b, t.get? p = some (.branch entries b) → (entries.map Prod.fst).Nodup

theorem distinct_leaf (a : α) : Distinct (.leaf a : Tree κ α β) := by
  intro p entries b h
  cases p with
  | nil => simp [Tree.get?] at h
  | cons k p => simp [Tree.get?] at h

theorem distinct_branch {entries : List (κ × Tree κ α β)} {b : β} :
    Distinct (.branch entries b) ↔
      (entries.map Prod.fst).Nodup ∧ ∀ k c, entries.lookup k = some c → Distinct c := by
  constructor
  · intro h
    refine ⟨h [] entries b rfl, fun k c hc p entries' b' hp => h (k :: p) entries' b' ?_⟩
    rw [Tree.get?, hc]
    exact hp
  · intro h p entries' b' hp
    cases p with
    | nil =>
      rw [get?_nil, Option.some_inj, Tree.branch.injEq] at hp
      exact hp.1 ▸ h.1
    | cons k p =>
      obtain ⟨c, hc, hget⟩ := Option.bind_eq_some_iff.1 hp
      exact h.2 k c hc p entries' b' hget

variable [LawfulBEq κ] [DecidableEq κ]

theorem distinct_modify {f : Tree κ α β → Tree κ α β} (hf : ∀ n, Distinct n → Distinct (f n))
    {t : Tree κ α β} (h : Distinct t) (p : List κ) : Distinct (t.modify f p) := by
  induction p generalizing t with
  | nil => simpa [Tree.modify] using hf t h
  | cons k p ih =>
    cases t with
    | leaf a => exact distinct_leaf a
    | branch entries b =>
      rw [Tree.modify]
      cases hk : entries.lookup k with
      | none => exact h
      | some c =>
        have parts := distinct_branch.1 h
        refine distinct_branch.2 ⟨nodup_upsert parts.1 k _, fun j d hd => ?_⟩
        rw [lookup_upsert] at hd
        by_cases hj : j = k
        · rw [if_pos hj, Option.some_inj] at hd
          exact hd ▸ ih (parts.2 k c hk)
        · rw [if_neg hj] at hd
          exact parts.2 j d hd

theorem distinct_link {t n : Tree κ α β} (h : Distinct t) (hn : Distinct n) (p : List κ) (k : κ) :
    Distinct (t.link p k n) := by
  refine distinct_modify (fun m hm => ?_) h p
  cases m with
  | leaf a => exact distinct_leaf a
  | branch entries b =>
    have parts := distinct_branch.1 hm
    refine distinct_branch.2 ⟨nodup_upsert parts.1 k n, fun j d hd => ?_⟩
    rw [lookup_upsert] at hd
    by_cases hj : j = k
    · rw [if_pos hj, Option.some_inj] at hd
      exact hd ▸ hn
    · rw [if_neg hj] at hd
      exact parts.2 j d hd

theorem distinct_unlink {t : Tree κ α β} (h : Distinct t) (p : List κ) (k : κ) :
    Distinct (t.unlink p k) := by
  refine distinct_modify (fun m hm => ?_) h p
  cases m with
  | leaf a => exact distinct_leaf a
  | branch entries b =>
    have parts := distinct_branch.1 hm
    refine distinct_branch.2 ⟨nodup_remove parts.1 k, fun j d hd => ?_⟩
    rw [lookup_remove] at hd
    by_cases hj : j = k
    · simp [hj] at hd
    · rw [if_neg hj] at hd
      exact parts.2 j d hd

end Trees

theorem names_legibleEntries (entries : List (Bytes × Node)) :
    (legibleEntries entries).map Prod.fst = entries.map Prod.fst := by
  induction entries with
  | nil => rfl
  | cons entry entries ih => rw [legibleEntries, List.map_cons, List.map_cons, ih]

theorem distinct_of_legible {tree tree' : Node} (h : legible tree' = legible tree)
    (hdistinct : Distinct tree) : Distinct tree' := by
  intro loc entries x hget
  have same := get?_of_legible h loc
  rw [hget, Option.map_some, eq_comm, Option.map_eq_some_iff] at same
  obtain ⟨n, hn, hlegible⟩ := same
  cases n with
  | leaf f => simp [legible] at hlegible
  | branch entries' x' =>
    rw [legible, legible, Tree.branch.injEq] at hlegible
    rw [← names_legibleEntries, ← hlegible.1, names_legibleEntries]
    exact hdistinct loc entries' x' hn

theorem distinct_setContent (content : Bytes) {tree : Node} (h : Distinct tree) (loc : Loc) :
    Distinct (tree.modify (setContent content) loc) := by
  refine distinct_modify (fun n hn => ?_) h loc
  cases n with
  | leaf f => exact distinct_leaf _
  | branch entries x => exact hn

theorem distinct_mapXattrs (f : Xattrs → Xattrs) {tree : Node} (h : Distinct tree) (loc : Loc) :
    Distinct (tree.modify (mapXattrs f) loc) := by
  refine distinct_modify (fun n hn => ?_) h loc
  cases n with
  | leaf g => exact distinct_leaf _
  | branch entries x => exact distinct_branch.2 (distinct_branch.1 hn)

theorem distinct_unlinkLast {tree : Node} (h : Distinct tree) (loc : Loc) :
    Distinct (unlinkLast tree loc) := by
  unfold unlinkLast
  split
  · exact h
  · exact distinct_unlink h _ _

theorem distinct_openCreate {tree : Node} {path : Bytes} {r : Loc × Node} (h : Distinct tree)
    (hopen : openCreate tree path = .ok r) : Distinct r.2 := by
  unfold openCreate at hopen
  cases hlast : (components path).getLast? with
  | none => simp [hlast] at hopen
  | some last =>
    cases hdir : lookupAt tree [] (components path).dropLast with
    | error e => simp [hlast, hdir] at hopen
    | ok dir =>
      simp only [hlast, hdir] at hopen
      by_cases hspecial : path.getLast? = some slash ∨ last = str "." ∨ last = str ".."
      · simp [hspecial] at hopen
      · rw [if_neg hspecial] at hopen
        split at hopen
        · rw [← Except.ok.inj hopen]
          exact distinct_link h (distinct_leaf _) dir last
        · rw [← Except.ok.inj hopen]
          exact distinct_setContent [] h _
        · cases hopen
        · cases hopen

theorem distinct_mkdirat {tree tree' : Node} {dir : Loc} {name : Bytes} (h : Distinct tree)
    (hmade : mkdirat tree dir name = .ok tree') : Distinct tree' := by
  unfold mkdirat at hmade
  split at hmade
  · cases hmade
  · cases hmade
  · split at hmade
    · cases hmade
    · rw [← Except.ok.inj hmade]
      exact distinct_link h (distinct_branch.2 ⟨by simp, by simp⟩) dir name

theorem distinct_rmdirat {tree tree' : Node} {dir : Loc} {path : Bytes} (h : Distinct tree)
    (hgone : rmdirat tree dir path = .ok tree') : Distinct tree' := by
  unfold rmdirat at hgone
  cases hlast : (components path).getLast? with
  | none => simp [hlast] at hgone
  | some last =>
    simp only [hlast] at hgone
    split at hgone
    · cases hgone
    · by_cases hhere : last = str "."
      · simp [hhere] at hgone
      · by_cases hup : last = str ".."
        · rw [if_neg hhere, if_pos hup] at hgone
          cases hgone
        · rw [if_neg hhere, if_neg hup] at hgone
          split at hgone
          · split at hgone
            · rw [← Except.ok.inj hgone]
              exact distinct_unlink h _ _
            · cases hgone
          · cases hgone
          · cases hgone

theorem keptByCalls_distinct (env : Env) (stored : Bytes) : KeptByCalls env stored Distinct where
  stamp := fun _ _ _ h hr => distinct_of_legible (legible_getEtag env.sha1_length hr) h
  mkdirat := fun _ _ _ _ h hmade => distinct_mkdirat h hmade
  openCreate := fun _ _ _ h hopen => distinct_openCreate h hopen
  write := fun _ file h => distinct_setContent stored h file
  setxattr := by
    intro tree path _ f h _
    unfold setxattr
    cases namei tree path with
    | error e => exact h
    | ok loc => exact distinct_mapXattrs f h loc
  unlink := by
    intro tree path tree' h hunlink
    obtain ⟨loc, f, -, -, rfl⟩ := unlink_eq hunlink
    exact distinct_unlinkLast h loc
  rmdirat := fun _ _ _ _ h hgone => distinct_rmdirat h hgone

def PlainNamed (tree : Node) : Prop := ∀ loc name, plain tree (loc ++ [name]) ≠ none → PlainName name

theorem wellNamed_iff {tree : Node} : WellNamed tree ↔ Distinct tree ∧ PlainNamed tree := by
  constructor
  · intro h
    refine ⟨fun loc entries x hget => (h loc entries x hget).1, fun loc name hthere => ?_⟩
    rw [ne_eq, plain_eq_none] at hthere
    obtain ⟨x, hx⟩ := look_parent hthere
    obtain ⟨entries, hget⟩ := get?_of_look_branch hx
    refine (h loc entries x hget).2 name ?_
    rw [Tree.look, get_entry hget, Option.map_eq_none_iff] at hthere
    obtain ⟨child, hchild⟩ := Option.ne_none_iff_exists'.1 hthere
    exact List.mem_map.2 ⟨(name, child), mem_of_lookup hchild, rfl⟩
  · intro h loc entries x hget
    refine ⟨h.1 loc entries x hget, fun name hname => h.2 loc name ?_⟩
    rw [ne_eq, plain_eq_none]
    exact look_entry_ne_none hget hname

end RsServe.EntryNames

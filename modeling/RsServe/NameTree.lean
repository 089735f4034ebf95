import Mathlib.Data.List.Infix
import RsServe.AssocList

/-! Trees of named entries. What a tree looks like is the function from locations to
kinds of nodes; changing, linking and unlinking nodes are updates of this function,
and walks along names depend on it alone. -/

namespace RsServe.NameTree
open AssocList

inductive Tree (κ α β : Type) where
  | leaf (a : α)
  | branch (entries : List (κ × Tree κ α β)) (b : β)

variable {κ α β : Type}

inductive Kind (α β : Type) where
  | leaf (a : α)
  | branch (b : β)
deriving DecidableEq

def Tree.kind : Tree κ α β → Kind α β
  | .leaf a => .leaf a
  | .branch _ b => .branch b

def Kind.isBranch : Kind α β → Bool
  | .leaf _ => false
  | .branch _ => true

variable [BEq κ]

def Tree.get? : Tree κ α β → List κ → Option (Tree κ α β)
  | t, [] => some t
  | .leaf _, _ :: _ => none
  | .branch entries _, k :: p => (entries.lookup k).bind fun c => c.get? p

def Tree.look (t : Tree κ α β) (p : List κ) : Option (Kind α β) := (t.get? p).map Tree.kind

theorem get?_nil (t : Tree κ α β) : t.get? [] = some t := by
  cases t <;> rfl

theorem get?_append (t : Tree κ α β) (p q : List κ) :
    t.get? (p ++ q) = (t.get? p).bind fun n => n.get? q := by
  induction p generalizing t with
  | nil => simp [get?_nil]
  | cons k p ih =>
    cases t with
    | leaf a => rfl
    | branch entries b =>
      rw [List.cons_append, Tree.get?, Tree.get?]
      cases entries.lookup k with
      | none => rfl
      | some c => exact ih c

theorem get?_of_look_leaf {t : Tree κ α β} {p : List κ} {a : α} (h : t.look p = some (.leaf a)) :
    t.get? p = some (.leaf a) := by
  rw [Tree.look, Option.map_eq_some_iff] at h
  obtain ⟨n, hn, hkind⟩ := h
  cases n with
  | leaf b =>
    rw [Tree.kind, Kind.leaf.injEq] at hkind
    rw [hn, hkind]
  | branch entries b => cases hkind

theorem get?_of_look_branch {t : Tree κ α β} {p : List κ} {b : β}
    (h : t.look p = some (.branch b)) : ∃ entries, t.get? p = some (.branch entries b) := by
  rw [Tree.look, Option.map_eq_some_iff] at h
  obtain ⟨n, hn, hkind⟩ := h
  cases n with
  | leaf a => cases hkind
  | branch entries c =>
    rw [Tree.kind, Kind.branch.injEq] at hkind
    exact ⟨entries, by rw [hn, hkind]⟩

theorem look_append (t : Tree κ α β) (p q : List κ) :
    t.look (p ++ q) = (t.get? p).bind fun n => n.look q := by
  rw [Tree.look, get?_append]
  cases t.get? p <;> rfl

theorem look_parent {t : Tree κ α β} {p : List κ} {k : κ} (h : t.look (p ++ [k]) ≠ none) :
    ∃ b, t.look p = some (.branch b) := by
  rw [look_append] at h
  cases hp : t.get? p with
  | none => simp [hp] at h
  | some n =>
    cases n with
    | leaf a => simp [hp, Tree.look, Tree.get?] at h
    | branch entries b => exact ⟨b, by simp [Tree.look, hp, Tree.kind]⟩

theorem look_of_prefix {t : Tree κ α β} {p q : List κ} (hq : t.look q ≠ none) (h : p <+: q) :
    t.look p ≠ none := by
  obtain ⟨r, rfl⟩ := h
  rw [look_append] at hq
  intro hp
  rw [Tree.look, Option.map_eq_none_iff] at hp
  simp [hp] at hq

theorem branch_of_proper_prefix {t : Tree κ α β} {p q : List κ} (hq : t.look q ≠ none)
    (h : p <+: q) (hne : p ≠ q) : ∃ b, t.look p = some (.branch b) := by
  obtain ⟨r, rfl⟩ := h
  cases r with
  | nil => simp at hne
  | cons k r =>
    have next : t.look (p ++ [k]) ≠ none := look_of_prefix hq ⟨r, by simp⟩
    exact look_parent next

section Empty
variable [LawfulBEq κ]

theorem entries_eq_nil {t : Tree κ α β} {p : List κ} {entries : List (κ × Tree κ α β)} {b : β}
    (hp : t.get? p = some (.branch entries b)) (h : ∀ k, t.look (p ++ [k]) = none) :
    entries = [] := by
  apply eq_nil_of_lookup
  intro k
  have hk := h k
  rw [look_append, hp, Option.bind_some, Tree.look, Tree.get?] at hk
  cases hlookup : entries.lookup k with
  | none => rfl
  | some c => simp [hlookup, get?_nil] at hk

end Empty

variable [DecidableEq κ]

def Tree.modify (f : Tree κ α β → Tree κ α β) : Tree κ α β → List κ → Tree κ α β
  | t, [] => f t
  | .leaf a, _ :: _ => .leaf a
  | .branch entries b, k :: p =>
    match entries.lookup k with
    | some c => .branch (upsert entries k (c.modify f p)) b
    | none => .branch entries b

def setEntry (k : κ) (n : Tree κ α β) : Tree κ α β → Tree κ α β
  | .leaf a => .leaf a
  | .branch entries b => .branch (upsert entries k n) b

def removeEntry (k : κ) : Tree κ α β → Tree κ α β
  | .leaf a => .leaf a
  | .branch entries b => .branch (remove entries k) b

def Tree.link (t : Tree κ α β) (p : List κ) (k : κ) (n : Tree κ α β) : Tree κ α β :=
  t.modify (setEntry k n) p

def Tree.unlink (t : Tree κ α β) (p : List κ) (k : κ) : Tree κ α β :=
  t.modify (removeEntry k) p

variable [LawfulBEq κ]

theorem get?_modify_append (f : Tree κ α β → Tree κ α β) (t : Tree κ α β) (p q : List κ) :
    (t.modify f p).get? (p ++ q) = (t.get? p).bind fun n => (f n).get? q := by
  induction p generalizing t with
  | nil => simp [Tree.modify, get?_nil]
  | cons k p ih =>
    cases t with
    | leaf a => rfl
    | branch entries b =>
      rw [List.cons_append, Tree.modify]
      cases hk : entries.lookup k with
      | none => simp [Tree.get?, hk]
      | some c =>
        simp only [Tree.get?, lookup_upsert, if_true, hk, Option.bind_some]
        exact ih c

theorem look_modify_of_not_prefix (f : Tree κ α β → Tree κ α β) (t : Tree κ α β)
    {p q : List κ} (h : ¬ p <+: q) : (t.modify f p).look q = t.look q := by
  induction p generalizing t q with
  | nil => exact absurd List.nil_prefix h
  | cons k p ih =>
    cases t with
    | leaf a => rfl
    | branch entries b =>
      rw [Tree.modify]
      cases hk : entries.lookup k with
      | none => rfl
      | some c =>
        cases q with
        | nil => simp [Tree.look, Tree.get?, Tree.kind]
        | cons j q =>
          by_cases hj : j = k
          · subst hj
            have hq : ¬ p <+: q := fun hp => h (List.cons_prefix_cons.2 ⟨rfl, hp⟩)
            have step := ih c hq
            simpa [Tree.look, Tree.get?, lookup_upsert, hk] using step
          · simp [Tree.look, Tree.get?, lookup_upsert, hj]

theorem look_modify (f : Tree κ α β → Tree κ α β) (t : Tree κ α β) (p q : List κ) :
    (t.modify f p).look q =
      if p <+: q then (t.get? p).bind fun n => (f n).look (q.drop p.length) else t.look q := by
  by_cases h : p <+: q
  · rw [if_pos h]
    obtain ⟨r, rfl⟩ := h
    rw [Tree.look, get?_modify_append, List.drop_left]
    cases t.get? p <;> rfl
  · rw [if_neg h, look_modify_of_not_prefix f t h]

theorem look_modify_here {f : Tree κ α β → Tree κ α β} {g : Kind α β → Kind α β}
    (hkind : ∀ n, (f n).kind = g n.kind) (hbelow : ∀ n k q, (f n).look (k :: q) = n.look (k :: q))
    (t : Tree κ α β) (p q : List κ) :
    (t.modify f p).look q = if q = p then (t.look q).map g else t.look q := by
  rw [look_modify]
  by_cases h : p <+: q
  · obtain ⟨r, rfl⟩ := h
    rw [if_pos (List.prefix_append p r), List.drop_left, look_append]
    cases t.get? p with
    | none => simp
    | some n =>
      cases r with
      | nil => simp [Tree.look, get?_nil, hkind]
      | cons k r => simp [hbelow]
  · have hq : q ≠ p := fun same => h (same ▸ List.prefix_refl _)
    rw [if_neg h, if_neg hq]

theorem look_setEntry (k : κ) (n : Tree κ α β) (entries : List (κ × Tree κ α β)) (b : β)
    (q : List κ) :
    (setEntry k n (Tree.branch entries b)).look q =
      if [k] <+: q then n.look (q.drop 1) else (Tree.branch entries b).look q := by
  cases q with
  | nil => simp [setEntry, Tree.look, Tree.get?, Tree.kind]
  | cons j q =>
    by_cases hj : j = k
    · subst hj
      simp [setEntry, Tree.look, Tree.get?, lookup_upsert]
    · have hpre : ¬ [k] <+: j :: q := fun h => hj (List.cons_prefix_cons.1 h).1.symm
      rw [if_neg hpre]
      simp [setEntry, Tree.look, Tree.get?, lookup_upsert, hj]

theorem look_removeEntry (k : κ) (t : Tree κ α β) (q : List κ) :
    (removeEntry k t).look q = if [k] <+: q then none else t.look q := by
  cases t with
  | leaf a =>
    cases q with
    | nil => simp [removeEntry]
    | cons j q => simp [removeEntry, Tree.look, Tree.get?]
  | branch entries b =>
    cases q with
    | nil => simp [removeEntry, Tree.look, Tree.get?, Tree.kind]
    | cons j q =>
      by_cases hj : j = k
      · subst hj
        simp [removeEntry, Tree.look, Tree.get?, lookup_remove]
      · have hpre : ¬ [k] <+: j :: q := fun h => hj (List.cons_prefix_cons.1 h).1.symm
        rw [if_neg hpre]
        simp [removeEntry, Tree.look, Tree.get?, lookup_remove, hj]

theorem look_link {t : Tree κ α β} {p : List κ} {b : β} (hp : t.look p = some (.branch b))
    (k : κ) (n : Tree κ α β) (q : List κ) :
    (t.link p k n).look q =
      if p ++ [k] <+: q then n.look (q.drop (p.length + 1)) else t.look q := by
  obtain ⟨entries, hnode⟩ := get?_of_look_branch hp
  rw [Tree.link, look_modify, hnode, Option.bind_some]
  by_cases h : p <+: q
  · obtain ⟨r, rfl⟩ := h
    rw [if_pos (List.prefix_append p r), List.drop_left, look_setEntry, look_append, hnode,
      Option.bind_some, ← List.drop_drop, List.drop_left]
    simp only [List.prefix_append_right_inj]
  · have hk : ¬ p ++ [k] <+: q := fun hk => h ((List.prefix_append p [k]).trans hk)
    rw [if_neg h, if_neg hk]

theorem look_unlink (t : Tree κ α β) (p : List κ) (k : κ) (q : List κ) :
    (t.unlink p k).look q = if p ++ [k] <+: q then none else t.look q := by
  rw [Tree.unlink, look_modify]
  by_cases h : p <+: q
  · obtain ⟨r, rfl⟩ := h
    rw [if_pos (List.prefix_append p r), List.drop_left, look_append]
    simp only [List.prefix_append_right_inj]
    cases t.get? p with
    | none => simp
    | some n => simp only [Option.bind_some, look_removeEntry]
  · have hk : ¬ p ++ [k] <+: q := fun hk => h ((List.prefix_append p [k]).trans hk)
    rw [if_neg h, if_neg hk]

omit [DecidableEq κ] [LawfulBEq κ] in
theorem forall_look_leaf {P : Kind α β → Prop} {a : α} (ha : P (.leaf a)) (q : List κ)
    (kind : Kind α β) (h : (Tree.leaf a : Tree κ α β).look q = some kind) : P kind := by
  cases q with
  | nil => exact Option.some.inj h ▸ ha
  | cons k q => cases h

theorem forall_look_branch {P : Kind α β → Prop} {entries : List (κ × Tree κ α β)} {b : β}
    (hb : P (.branch b))
    (hentries : ∀ entry ∈ entries, ∀ q kind, entry.2.look q = some kind → P kind) (q : List κ)
    (kind : Kind α β) (h : (Tree.branch entries b).look q = some kind) : P kind := by
  cases q with
  | nil => exact Option.some.inj h ▸ hb
  | cons k q =>
    rw [Tree.look, Tree.get?, Option.map_bind, Option.bind_eq_some_iff] at h
    obtain ⟨child, hchild, hlook⟩ := h
    exact hentries (k, child) (mem_of_lookup hchild) q kind hlook

end RsServe.NameTree

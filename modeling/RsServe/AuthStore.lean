import RsServe.AuthRecord
import RsServe.KeyedStore

/-! The authorization store: Berkeley DB under keys `user|token`. -/

namespace RsServe.AuthStore
open CString AuthRecord KeyedStore

/-- Berkeley DB with calls that succeed. -/
abbrev Database (σ : Type) := Store σ Bytes Bytes

variable {σ : Type} (db : Database σ)

/-- sprintf(key, "%s|%s", username, token) into `keylen + 1` bytes; none when the
text and its NUL do not fit there, the lengths being uint32_t. -/
def authKey (username token : Bytes) : Option Bytes :=
  let keylen := u32 (username.length + token.length + 1)
  let key := username ++ bar :: token
  if key.length + 1 ≤ u32 (keylen + 1) then some (key.take keylen) else none

def addAuthorization (s : σ) (auth : RsAuthorization) : Option (Int × σ) := do
  let key ← authKey auth.username auth.token
  let data ← packAuthorization auth
  if data.length = 0 then return (-1, s) else return (0, db.put s key data)

inductive DelResult where
  | done
  | notFound
deriving DecidableEq

def removeAuthorization (s : σ) (auth : RsAuthorization) : Option (DelResult × σ) := do
  let key ← authKey auth.username auth.token
  match db.get s key with
  | none => return (.notFound, s)
  | some _ => return (.done, db.del s key)

inductive Lookup where
  | null
  | record (auth : RawAuthorization)
  /-- unpack_authorization failed; its code is dropped and the record returned. -/
  | unset
  | outOfBounds
deriving DecidableEq

def lookupAuthorization (s : σ) (username token : Bytes) : Lookup :=
  match authKey username token with
  | none => .outOfBounds
  | some key =>
    match db.get s key with
    | none => .null
    | some value =>
      match unpackAuthorization value with
      | .success dest _ => .record dest
      | .failure _ => .unset
      | .outOfBounds => .outOfBounds

/-- The record that the loops over the cursor read; none where they would go on
with fields that unpack_authorization never set. -/
def unpackEntry (entry : Bytes × Bytes) : Option RawAuthorization :=
  match unpackAuthorization entry.2 with
  | .success dest _ => some dest
  | _ => none

def listAuthorizations (s : σ) (username : Option Bytes) : Option (List RawAuthorization) := do
  let records ← (db.cursor s).mapM unpackEntry
  return records.filter fun auth => username.all (auth.username = ·)

inductive Call where
  | add (auth : RsAuthorization)
  | remove (auth : RsAuthorization)

def Call.auth : Call → RsAuthorization
  | .add auth => auth
  | .remove auth => auth

def call (s : σ) : Call → Option σ
  | .add auth => (addAuthorization db s auth).map Prod.snd
  | .remove auth => (removeAuthorization db s auth).map Prod.snd

def run (calls : List Call) : Option σ := calls.foldlM (call db) db.empty

def Call.change : Call → Change (Bytes × Bytes) RsAuthorization
  | .add auth => .set (auth.username, auth.token) auth
  | .remove auth => .clear (auth.username, auth.token)

def lastAdded (calls : List Call) (username token : Bytes) : Option RsAuthorization :=
  latest (calls.map Call.change) (username, token)

def answer : Option RsAuthorization → Lookup
  | none => .null
  | some auth => .record auth.raw

def Addressable (username token : Bytes) : Prop := username.length + token.length + 2 < 2 ^ 32

structure Law (s : σ) (calls : List Call) : Prop where
  lookup : ∀ username token, NulFree username → NulFree token → Addressable username token →
    lookupAuthorization db s username token = answer (lastAdded calls username token)
  list : ∀ username, ∃ listed, listAuthorizations db s (some username) = some listed ∧
    (listed.map RawAuthorization.token).Nodup ∧
    ∀ auth, auth ∈ listed ↔ auth.username = username ∧
      lookupAuthorization db s username auth.token = .record auth

/-- A record that comes back: no bar in the names that make the key, and a packed
form that fits and that read_string carries. -/
structure Storable (a : RsAuthorization) : Prop where
  username : bar ∉ a.username
  token : bar ∉ a.token
  size : (layout a).length < 2 ^ 32
  carried : Carried a

def Call.Proper : Call → Prop
  | .add auth => Storable auth
  | .remove auth => Addressable auth.username auth.token

theorem authKey_eq {username token : Bytes} (h : Addressable username token) :
    authKey username token = some (username ++ bar :: token) := by
  unfold Addressable at h
  have length : (username ++ bar :: token).length = username.length + token.length + 1 := by
    rw [List.length_append, List.length_cons]
    omega
  rw [authKey, u32_of_lt (show username.length + token.length + 1 < 2 ^ 32 by omega),
    u32_of_lt (show username.length + token.length + 1 + 1 < 2 ^ 32 by omega)]
  rw [if_pos (by rw [length]), ← length, List.take_length]

theorem authKey_none {username token : Bytes} (h : ¬ Addressable username token) :
    authKey username token = none := by
  unfold Addressable at h
  have small : u32 (u32 (username.length + token.length + 1) + 1) < 2 ^ 32 :=
    Nat.mod_lt _ (by decide)
  rw [authKey, if_neg]
  rw [List.length_append, List.length_cons]
  omega

theorem addressable_of_layout {a : RsAuthorization} (h : (layout a).length < 2 ^ 32) :
    Addressable a.username a.token := by
  rw [layout_header, List.length_append, header_length] at h
  unfold Addressable
  omega

def pairKey (p : Bytes × Bytes) : Bytes := p.1 ++ bar :: p.2

theorem eq_of_splitOn_eq_singleton {sep : UInt8} {w x : Bytes} (h : w.splitOn sep = [x]) :
    w = x := by
  have joined := (List.intercalate_splitOn sep : [sep].intercalate (w.splitOn sep) = w)
  rw [← joined, h, List.intercalate_singleton]

theorem unshared_of_bar_free {p : Bytes × Bytes} (huser : bar ∉ p.1) (htoken : bar ∉ p.2) :
    Unshared pairKey p := by
  intro q same
  have pieces : q.1.splitOn bar ++ q.2.splitOn bar = [p.1] ++ [p.2] := by
    rw [← List.splitOn_append_cons_self, ← List.splitOn_eq_singleton huser,
      ← List.splitOn_eq_singleton htoken, ← List.splitOn_append_cons_self]
    exact congrArg (List.splitOn bar) same
  have hfirst : 0 < (q.1.splitOn bar).length :=
    List.length_pos_iff.2 (List.splitOn_ne_nil bar q.1)
  have hsecond : 0 < (q.2.splitOn bar).length :=
    List.length_pos_iff.2 (List.splitOn_ne_nil bar q.2)
  have lengths := congrArg List.length pieces
  simp only [List.length_append, List.length_singleton] at lengths
  have halves := List.append_inj pieces (by rw [List.length_singleton]; omega)
  ext1
  · exact eq_of_splitOn_eq_singleton halves.1
  · exact eq_of_splitOn_eq_singleton halves.2

structure Holds (s : σ) (m : Bytes × Bytes → Option RsAuthorization) : Prop
    extends Refines db pairKey layout s m where
  pair : ∀ p a, m p = some a → p = (a.username, a.token)
  nulFree : ∀ p a, m p = some a → a.NulFree
  storable : ∀ p a, m p = some a → Storable a

variable {db}

theorem holds_empty : Holds db db.empty fun _ => none where
  toRefines := refines_empty db pairKey layout
  pair p a h := by simp at h
  nulFree p a h := by simp at h
  storable p a h := by simp at h

theorem layout_ne_nil (a : RsAuthorization) : (layout a).length ≠ 0 := by
  rw [layout_header, List.length_append, header_length]
  omega

theorem Holds.add {s : σ} {m : Bytes × Bytes → Option RsAuthorization} (h : Holds db s m)
    (a : RsAuthorization) (ha : a.NulFree) (hstore : Storable a) :
    ∃ s', addAuthorization db s a = some (0, s') ∧
      Holds db s' (Function.update m (a.username, a.token) (some a)) := by
  have key := authKey_eq (addressable_of_layout hstore.size)
  have apart : Unshared pairKey (a.username, a.token) :=
    unshared_of_bar_free hstore.username hstore.token
  refine ⟨db.put s (pairKey (a.username, a.token)) (layout a), ?_, ?_⟩
  · simp only [addAuthorization, key, packAuthorization_eq hstore.size, Option.bind_eq_bind,
      Option.bind_some, if_neg (layout_ne_nil a), Option.pure_def]
    rfl
  · have own : ∀ p b, Function.update m (a.username, a.token) (some a) p = some b →
        b = a ∧ p = (a.username, a.token) ∨ m p = some b := by
      intro p b hb
      by_cases same : p = (a.username, a.token)
      · rw [same, Function.update_self] at hb
        exact Or.inl ⟨(Option.some_inj.1 hb).symm, same⟩
      · rw [Function.update_of_ne same] at hb
        exact Or.inr hb
    refine ⟨h.toRefines.set a apart, fun p b hb => ?_, fun p b hb => ?_, fun p b hb => ?_⟩
    · rcases own p b hb with ⟨rfl, hp⟩ | hb
      · exact hp
      · exact h.pair p b hb
    · rcases own p b hb with ⟨rfl, -⟩ | hb
      · exact ha
      · exact h.nulFree p b hb
    · rcases own p b hb with ⟨rfl, -⟩ | hb
      · exact hstore
      · exact h.storable p b hb

theorem Holds.remove {s : σ} {m : Bytes × Bytes → Option RsAuthorization} (h : Holds db s m)
    (a : RsAuthorization) (ha : Addressable a.username a.token) :
    ∃ result s', removeAuthorization db s a = some (result, s') ∧
      Holds db s' (Function.update m (a.username, a.token) none) := by
  have key := authKey_eq ha
  have get := h.get_key (a.username, a.token)
  cases hm : m (a.username, a.token) with
  | none =>
    have absent : db.get s (a.username ++ bar :: a.token) = none := by
      rw [hm] at get
      exact get
    refine ⟨.notFound, s, ?_, ?_⟩
    · simp only [removeAuthorization, key, Option.bind_eq_bind, Option.bind_some, absent,
        Option.pure_def]
    · rw [← hm, Function.update_eq_self]
      exact h
  | some b =>
    have present : db.get s (a.username ++ bar :: a.token) = some (layout b) := by
      rw [hm] at get
      exact get
    refine ⟨.done, db.del s (pairKey (a.username, a.token)), ?_, ?_⟩
    · simp only [removeAuthorization, key, Option.bind_eq_bind, Option.bind_some, present,
        Option.pure_def]
      rfl
    · have own : ∀ p c, Function.update m (a.username, a.token) none p = some c →
          m p = some c := by
        intro p c hc
        by_cases same : p = (a.username, a.token)
        · rw [same, Function.update_self] at hc
          simp at hc
        · rwa [Function.update_of_ne same] at hc
      exact ⟨h.toRefines.clear _, fun p c hc => h.pair p c (own p c hc),
        fun p c hc => h.nulFree p c (own p c hc), fun p c hc => h.storable p c (own p c hc)⟩

theorem Holds.call {s : σ} {m : Bytes × Bytes → Option RsAuthorization} (h : Holds db s m)
    (c : Call) (hnul : c.auth.NulFree) (hc : c.Proper) :
    ∃ s', call db s c = some s' ∧ Holds db s' (c.change.apply m) := by
  cases c with
  | add a =>
    obtain ⟨s', hs', holds⟩ := h.add a hnul hc
    exact ⟨s', by rw [AuthStore.call, hs', Option.map_some], holds⟩
  | remove a =>
    obtain ⟨result, s', hs', holds⟩ := h.remove a hc
    exact ⟨s', by rw [AuthStore.call, hs', Option.map_some], holds⟩

theorem run_append_singleton (calls : List Call) (c : Call) :
    run db (calls ++ [c]) = (run db calls).bind fun s => call db s c := by
  simp [run]

theorem run_holds (calls : List Call) (hnul : ∀ c ∈ calls, c.auth.NulFree)
    (hproper : ∀ c ∈ calls, c.Proper) :
    ∃ s, run db calls = some s ∧ Holds db s (latest (calls.map Call.change)) := by
  induction calls using List.reverseRecOn with
  | nil => exact ⟨db.empty, rfl, holds_empty⟩
  | append_singleton calls c ih =>
    rcases ih (fun d hd => hnul d (by simp [hd])) (fun d hd => hproper d (by simp [hd]))
      with ⟨s, hrun, holds⟩
    obtain ⟨s', hcall, holds'⟩ := holds.call c (hnul c (by simp)) (hproper c (by simp))
    refine ⟨s', ?_, ?_⟩
    · rw [run_append_singleton, hrun, Option.bind_some, hcall]
    · rw [List.map_append, List.map_singleton, latest_append_singleton]
      exact holds'

theorem unpackAuthorization_stored {a : RsAuthorization} (hnul : a.NulFree) (h : Storable a) :
    unpackAuthorization (layout a) = .success a.raw (layout a).length :=
  (unpackAuthorization_layout hnul h.size _).2 ⟨h.carried, rfl⟩

theorem Holds.lookup {s : σ} {m : Bytes × Bytes → Option RsAuthorization} (h : Holds db s m)
    {username token : Bytes} (fit : Addressable username token) :
    lookupAuthorization db s username token = answer (m (username, token)) := by
  have get : db.get s (username ++ bar :: token) = (m (username, token)).map layout :=
    h.get_key (username, token)
  rw [lookupAuthorization, authKey_eq fit]
  cases hm : m (username, token) with
  | none => simp [get, hm, answer]
  | some a =>
    simp [get, hm, answer, unpackAuthorization_stored (h.nulFree _ _ hm) (h.storable _ _ hm)]

theorem lookupAuthorization_of_not_addressable (s : σ) {username token : Bytes}
    (h : ¬ Addressable username token) :
    lookupAuthorization db s username token = .outOfBounds := by
  rw [lookupAuthorization, authKey_none h]

theorem raw_injective {a b : RsAuthorization} (h : a.raw = b.raw) :
    a.username = b.username ∧ a.token = b.token :=
  ⟨congrArg RawAuthorization.username h, congrArg RawAuthorization.token h⟩

theorem answer_eq_record {found : Option RsAuthorization} {r : RawAuthorization} :
    answer found = .record r ↔ ∃ a, found = some a ∧ a.raw = r := by
  cases found with
  | none => simp [answer]
  | some a => simp [answer]

theorem Holds.lookup_eq_record {s : σ} {m : Bytes × Bytes → Option RsAuthorization}
    (h : Holds db s m) (username token : Bytes) (r : RawAuthorization) :
    lookupAuthorization db s username token = .record r ↔
      ∃ a, m (username, token) = some a ∧ a.raw = r := by
  by_cases fit : Addressable username token
  · rw [h.lookup fit, answer_eq_record]
  · rw [lookupAuthorization_of_not_addressable s fit]
    refine ⟨fun found => by simp at found, fun found => ?_⟩
    obtain ⟨a, ha, -⟩ := found
    have husername : username = a.username := congrArg Prod.fst (h.pair _ a ha)
    have htoken : token = a.token := congrArg Prod.snd (h.pair _ a ha)
    subst husername htoken
    exact absurd (addressable_of_layout (h.storable _ a ha).size) fit

theorem Holds.unpackEntry {s : σ} {m : Bytes × Bytes → Option RsAuthorization}
    (h : Holds db s m) {entry : Bytes × Bytes} (he : entry ∈ db.cursor s) :
    ∃ a, m (a.username, a.token) = some a ∧ entry.1 = pairKey (a.username, a.token) ∧
      unpackEntry entry = some a.raw := by
  obtain ⟨q, a, hkey, hq, hvalue⟩ := (h.mem_cursor entry.1 entry.2).1 he
  have own := h.pair q a hq
  refine ⟨a, own ▸ hq, own ▸ hkey.symm, ?_⟩
  simp only [AuthStore.unpackEntry, ← hvalue,
    unpackAuthorization_stored (h.nulFree q a hq) (h.storable q a hq)]

theorem mapM_eq_filterMap {α β : Type} {f : α → Option β} {l : List α}
    (h : ∀ x ∈ l, ∃ y, f x = some y) : l.mapM f = some (l.filterMap f) := by
  induction l with
  | nil => rfl
  | cons x l ih =>
    obtain ⟨y, hy⟩ := h x (by simp)
    rw [List.mapM_cons, hy, ih fun z hz => h z (by simp [hz]), List.filterMap_cons_some hy]
    rfl

theorem Holds.list {s : σ} {m : Bytes × Bytes → Option RsAuthorization} (h : Holds db s m)
    (username : Bytes) :
    ∃ listed, listAuthorizations db s (some username) = some listed ∧
      (listed.map RawAuthorization.token).Nodup ∧
      ∀ auth, auth ∈ listed ↔ auth.username = username ∧
        lookupAuthorization db s username auth.token = .record auth := by
  have all : ∀ entry ∈ db.cursor s, ∃ r, AuthStore.unpackEntry entry = some r := by
    intro entry he
    obtain ⟨a, -, -, hr⟩ := h.unpackEntry he
    exact ⟨a.raw, hr⟩
  refine ⟨((db.cursor s).filterMap AuthStore.unpackEntry).filter fun r => r.username = username,
    ?_, ?_, ?_⟩
  · rw [listAuthorizations, mapM_eq_filterMap all]
    simp
  · have keys := db.cursor_nodup s
    rw [List.Nodup, List.pairwise_map] at keys
    rw [List.Nodup, List.pairwise_map, List.pairwise_filter, List.pairwise_filterMap]
    refine keys.imp_of_mem fun {e e'} he he' apart r hr r' hr' hu hu' same => apart ?_
    obtain ⟨a, -, hkey, ha⟩ := h.unpackEntry he
    obtain ⟨a', -, hkey', ha'⟩ := h.unpackEntry he'
    rw [ha, Option.some_inj] at hr
    rw [ha', Option.some_inj] at hr'
    subst hr hr'
    have users : a.username = a'.username :=
      (of_decide_eq_true hu).trans (of_decide_eq_true hu').symm
    have tokens : a.token = a'.token := same
    rw [hkey, hkey', users, tokens]
  · intro r
    simp only [List.mem_filter, List.mem_filterMap, decide_eq_true_eq]
    constructor
    · intro listed
      obtain ⟨⟨entry, he, hr⟩, hu⟩ := listed
      obtain ⟨a, hm, -, ha⟩ := h.unpackEntry he
      rw [ha, Option.some_inj] at hr
      subst hr hu
      exact ⟨rfl, (h.lookup_eq_record _ _ _).2 ⟨a, hm, rfl⟩⟩
    · intro found
      obtain ⟨a, hm, ha⟩ := (h.lookup_eq_record _ _ _).1 found.2
      subst ha
      refine ⟨⟨(pairKey (username, a.token), layout a), ?_, ?_⟩, found.1⟩
      · exact (h.mem_cursor _ _).2 ⟨_, a, rfl, hm, rfl⟩
      · simp only [AuthStore.unpackEntry,
          unpackAuthorization_stored (h.nulFree _ a hm) (h.storable _ a hm)]

theorem Holds.law {s : σ} {calls : List Call}
    (h : Holds db s (latest (calls.map Call.change))) : Law db s calls where
  lookup _ _ _ _ fit := h.lookup fit
  list username := h.list username

theorem lastAdded_append_add (calls : List Call) (a : RsAuthorization) (username token : Bytes) :
    lastAdded (calls ++ [.add a]) username token =
      if (username, token) = (a.username, a.token) then some a
      else lastAdded calls username token := by
  rw [lastAdded, List.map_append, List.map_singleton, latest_append_singleton]
  exact Function.update_apply _ _ _ _

theorem lastAdded_pair (calls : List Call) {username token : Bytes} {a : RsAuthorization}
    (h : lastAdded calls username token = some a) : username = a.username ∧ token = a.token := by
  induction calls using List.reverseRecOn with
  | nil => simp [lastAdded, latest] at h
  | append_singleton calls c ih =>
    cases c with
    | add b =>
      rw [lastAdded_append_add] at h
      by_cases same : (username, token) = (b.username, b.token)
      · rw [if_pos same, Option.some_inj] at h
        subst h
        exact Prod.ext_iff.1 same
      · rw [if_neg same] at h
        exact ih h
    | remove b =>
      rw [lastAdded, List.map_append, List.map_singleton, latest_append_singleton] at h
      by_cases same : (username, token) = (b.username, b.token)
      · rw [same] at h
        simp [Call.change, Change.apply] at h
      · refine ih ?_
        rwa [Call.change, Change.apply, Function.update_of_ne same] at h

theorem addAuthorization_eq_some {s : σ} {a : RsAuthorization} {result : Int × σ}
    (h : addAuthorization db s a = some result) :
    (layout a).length < 2 ^ 32 ∧ result.2 = db.put s (pairKey (a.username, a.token)) (layout a) := by
  simp only [addAuthorization, Option.bind_eq_bind, Option.bind_eq_some_iff] at h
  obtain ⟨key, hkey, data, hdata, hresult⟩ := h
  have size := layout_lt_of_packed hdata
  rw [packAuthorization_eq size, Option.some_inj] at hdata
  rw [authKey_eq (addressable_of_layout size), Option.some_inj] at hkey
  subst hkey hdata
  rw [if_neg (layout_ne_nil a)] at hresult
  exact ⟨size, (congrArg Prod.snd (Option.some_inj.1 hresult)).symm⟩

theorem lookup_of_same_key (s : σ) {u t u' t' : Bytes} (same : pairKey (u, t) = pairKey (u', t')) :
    lookupAuthorization db s u t = lookupAuthorization db s u' t' := by
  have length := congrArg List.length same
  simp only [pairKey, List.length_append, List.length_cons] at length
  have fit : Addressable u t ↔ Addressable u' t' := by
    unfold Addressable
    omega
  by_cases h : Addressable u t
  · have key : authKey u t = authKey u' t' := by
      rw [authKey_eq h, authKey_eq (fit.1 h)]
      exact congrArg some same
    rw [lookupAuthorization, key, lookupAuthorization]
  · rw [lookupAuthorization_of_not_addressable s h,
      lookupAuthorization_of_not_addressable s fun h' => h (fit.2 h')]

theorem unshared_of_law {s : σ} {calls : List Call} {a : RsAuthorization}
    (ha : a.NulFree) (fit : Addressable a.username a.token)
    (law : Law db s (calls ++ [.add a])) {u t : Bytes} (hu : NulFree u) (ht : NulFree t)
    (hfit : Addressable u t) (same : pairKey (u, t) = pairKey (a.username, a.token)) :
    (u, t) = (a.username, a.token) := by
  by_contra apart
  have own := law.lookup a.username a.token ha.username ha.token fit
  have other := law.lookup u t hu ht hfit
  rw [lastAdded_append_add, if_pos rfl] at own
  rw [lastAdded_append_add, if_neg apart, lookup_of_same_key s same, own] at other
  obtain ⟨b, hb, hraw⟩ := answer_eq_record.1 other.symm
  have pair := lastAdded_pair calls hb
  have names := raw_injective hraw
  exact apart (Prod.ext (pair.1.trans names.1) (pair.2.trans names.2))

theorem storable_of_law {s s' : σ} {calls : List Call} {a : RsAuthorization} (ha : a.NulFree)
    (hcall : call db s (.add a) = some s') (law : Law db s' (calls ++ [.add a])) :
    Storable a := by
  rw [call, Option.map_eq_some_iff] at hcall
  obtain ⟨result, hadd, hs'⟩ := hcall
  have added := addAuthorization_eq_some hadd
  have fit := addressable_of_layout added.1
  have barFree : ∀ u t, pairKey (u, t) = pairKey (a.username, a.token) →
      (u, t) = (a.username, a.token) := by
    intro u t same
    have length := congrArg List.length same
    simp only [pairKey, List.length_append, List.length_cons] at length
    have nul : 0 ∉ pairKey (a.username, a.token) := by
      simpa [pairKey, bar] using ⟨ha.username, ha.token⟩
    rw [← same] at nul
    have halves : 0 ∉ u ∧ 0 ∉ t := by simpa [pairKey, bar] using nul
    refine unshared_of_law ha fit law halves.1 halves.2 ?_ same
    unfold Addressable at fit ⊢
    omega
  refine ⟨fun hbar => ?_, fun hbar => ?_, added.1, ?_⟩
  · obtain ⟨x, y, hxy⟩ := List.append_of_mem hbar
    have moved := barFree x (y ++ bar :: a.token) (by simp [pairKey, hxy])
    have short := congrArg (fun p => p.1.length) moved
    simp [hxy] at short
  · obtain ⟨x, y, hxy⟩ := List.append_of_mem hbar
    have moved := barFree (a.username ++ bar :: x) y (by simp [pairKey, hxy])
    have long := congrArg (fun p => p.1.length) moved
    simp at long
  · have own := law.lookup a.username a.token ha.username ha.token fit
    have stored : db.get s' (a.username ++ bar :: a.token) = some (layout a) := by
      rw [← hs', added.2, db.get_put, pairKey, if_pos rfl]
    rw [lastAdded_append_add, if_pos rfl, lookupAuthorization, authKey_eq fit] at own
    simp only [stored, answer] at own
    cases hread : unpackAuthorization (layout a) with
    | success dest last =>
      rw [hread] at own
      simp only [Lookup.record.injEq] at own
      rw [own] at hread
      exact ((unpackAuthorization_layout ha added.1 last).1 hread).1
    | failure code => simp [hread] at own
    | outOfBounds => simp [hread] at own

theorem proper_of_law {s s' : σ} {calls : List Call} {c : Call} (hnul : c.auth.NulFree)
    (hcall : call db s c = some s') (law : Law db s' (calls ++ [c])) : c.Proper := by
  cases c with
  | add a => exact storable_of_law hnul hcall law
  | remove a =>
    rw [call, Option.map_eq_some_iff] at hcall
    obtain ⟨result, hremove, -⟩ := hcall
    by_contra large
    rw [removeAuthorization, authKey_none large] at hremove
    simp at hremove

/-- The store is a map keyed by the pair, in every state that the run reaches,
exactly when every record added is storable. -/
theorem run_law_iff (db : Database σ) (calls : List Call) (hnul : ∀ c ∈ calls, c.auth.NulFree) :
    (∀ before, before <+: calls → ∃ s, run db before = some s ∧ Law db s before) ↔
      ∀ c ∈ calls, c.Proper := by
  constructor
  · intro laws c hc
    obtain ⟨before, after, hsplit⟩ := List.append_of_mem hc
    have reach := laws (before ++ [c]) ⟨after, by simp [hsplit]⟩
    obtain ⟨s', hrun, law⟩ := reach
    rw [run_append_singleton, Option.bind_eq_some_iff] at hrun
    obtain ⟨s, -, hcall⟩ := hrun
    exact proper_of_law (hnul c hc) hcall law
  · intro proper before hbefore
    rcases run_holds before (fun c hc => hnul c (hbefore.subset hc))
      (fun c hc => proper c (hbefore.subset hc)) with ⟨s, hrun, holds⟩
    exact ⟨s, hrun, holds.law⟩

def sampleCalls : List Call := [.add sample, .remove sample]

theorem run_law_iff_sample :
    (∀ before, before <+: sampleCalls →
        ∃ s, run (listed Bytes Bytes) before = some s ∧ Law (listed Bytes Bytes) s before) ↔
      ∀ c ∈ sampleCalls, c.Proper :=
  run_law_iff (listed Bytes Bytes) sampleCalls fun c hc => by
    rcases List.mem_pair.1 hc with rfl | rfl
    · exact ⟨by decide, by decide, by decide⟩
    · exact ⟨by decide, by decide, by decide⟩

def barred : RsAuthorization := ⟨str "a", str "b|c", [⟨[], 1⟩]⟩

theorem barred_answers_other_user :
    (run (listed Bytes Bytes) [.add barred]).map
        (fun s => lookupAuthorization (listed Bytes Bytes) s (str "a|b") (str "c")) =
      some (.record barred.raw) ∧
    lastAdded [.add barred] (str "a|b") (str "c") = none := by
  decide

end RsServe.AuthStore

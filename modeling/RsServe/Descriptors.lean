import Mathlib.Data.List.Perm.Subperm
import RsServe.Stamping

/-! The numbers of the open descriptors, and those that get_etag leaves open. -/

namespace RsServe.Descriptors
open CString NameTree Kernel Attributes Stamping

def freshFd (fds : List Nat) : Nat :=
  ((List.range (fds.length + 1)).find? (· ∉ fds)).getD 0

theorem freshFd_not_mem (fds : List Nat) : freshFd fds ∉ fds := by
  unfold freshFd
  cases hfind : (List.range (fds.length + 1)).find? (· ∉ fds) with
  | some fd => simpa using List.find?_some hfind
  | none =>
    have all : List.range (fds.length + 1) ⊆ fds := by
      intro n hn
      have used := List.find?_eq_none.1 hfind n hn
      simpa using used
    have room := (List.subperm_of_subset List.nodup_range all).length_le
    rw [List.length_range] at room
    omega

mutual

/-- Without a version in the attributes the node is opened, for its content or to make
sure that it can be, and never closed. The stream of a directory is. -/
def etagFds : Node → List Nat → List Nat
  | .leaf f, fds =>
    match getXattr f.xattrs.etag 41 with
    | some _ => fds
    | none => freshFd fds :: fds
  | .branch entries x, fds =>
    match getXattr x.etag 41 with
    | some _ => fds
    | none =>
      let fd := freshFd fds
      let dir := freshFd (fd :: fds)
      (etagEntriesFds entries (dir :: fd :: fds)).erase dir

def etagEntriesFds : List (Bytes × Node) → List Nat → List Nat
  | [], fds => fds
  | (_, child) :: entries, fds => etagEntriesFds entries (etagFds child fds)

end

def getEtagFds (tree : Node) (path : Bytes) (fds : List Nat) : List Nat :=
  match (namei tree path).toOption.bind tree.get? with
  | none => fds
  | some n => etagFds n fds

def Leaves (leaks : Prop) (fds fds' : List Nat) : Prop :=
  ∃ left, fds' = left ++ fds ∧ (∀ fd ∈ left, fd ∉ fds) ∧ (left ≠ [] ↔ leaks)

theorem leaves_none (fds : List Nat) : Leaves False fds fds := ⟨[], rfl, by simp, by simp⟩

theorem leaves_fresh (fds : List Nat) : Leaves True fds (freshFd fds :: fds) :=
  ⟨[freshFd fds], rfl, by simpa using freshFd_not_mem fds, by simp⟩

theorem Leaves.trans {a b : Prop} {fds fds' fds'' : List Nat} (first : Leaves a fds fds')
    (second : Leaves b fds' fds'') : Leaves (a ∨ b) fds fds'' := by
  obtain ⟨left, rfl, hleft, ha⟩ := first
  obtain ⟨more, rfl, hmore, hb⟩ := second
  refine ⟨more ++ left, by rw [List.append_assoc], fun fd hfd => ?_, ?_⟩
  · rcases List.mem_append.1 hfd with new | old
    · exact fun used => hmore fd new (List.mem_append_right left used)
    · exact hleft fd old
  · rw [← ha, ← hb, ne_eq, List.append_eq_nil_iff]
    tauto

theorem Leaves.congr {a b : Prop} {fds fds' : List Nat} (h : Leaves a fds fds') (same : a ↔ b) :
    Leaves b fds fds' := by
  obtain ⟨left, happend, hleft, ha⟩ := h
  exact ⟨left, happend, hleft, ha.trans same⟩

theorem Leaves.closed {a : Prop} {fd : Nat} {fds fds' : List Nat} (h : Leaves a (fd :: fds) fds') :
    Leaves a fds (fds'.erase fd) := by
  obtain ⟨left, rfl, hleft, ha⟩ := h
  have own : fd ∉ left := fun used => hleft fd used (by simp)
  refine ⟨left, ?_, fun other hother used => hleft other hother (by simp [used]), ha⟩
  rw [List.erase_append_right _ own, List.erase_cons_head]

theorem Leaves.same_iff {a : Prop} {fds fds' : List Nat} (h : Leaves a fds fds') :
    (∀ fd, fd ∈ fds' ↔ fd ∈ fds) ↔ ¬ a := by
  obtain ⟨left, rfl, hleft, ha⟩ := h
  rw [← ha, not_not]
  constructor
  · intro same
    by_contra some
    obtain ⟨fd, hfd⟩ := List.exists_mem_of_ne_nil left some
    exact hleft fd hfd ((same fd).1 (List.mem_append_left fds hfd))
  · intro none
    simp [none]

mutual

theorem leaves_etagFds (n : Node) (fds : List Nat) :
    Leaves (getXattr (kindXattrs n.kind).etag 41 = none) fds (etagFds n fds) := by
  cases n with
  | leaf f =>
    rw [etagFds, Tree.kind, kindXattrs]
    cases getXattr f.xattrs.etag 41 with
    | some cached => exact (leaves_none fds).congr (by simp)
    | none => exact (leaves_fresh fds).congr (by simp)
  | branch entries x =>
    rw [etagFds, Tree.kind, kindXattrs]
    cases getXattr x.etag 41 with
    | some cached => exact (leaves_none fds).congr (by simp)
    | none =>
      rcases leaves_etagEntriesFds entries (freshFd (freshFd fds :: fds) :: freshFd fds :: fds) with
        ⟨below, hbelow⟩
      exact ((leaves_fresh fds).trans hbelow.closed).congr (by simp)

theorem leaves_etagEntriesFds (entries : List (Bytes × Node)) (fds : List Nat) :
    ∃ leaks, Leaves leaks fds (etagEntriesFds entries fds) := by
  cases entries with
  | nil => exact ⟨False, leaves_none fds⟩
  | cons entry entries =>
    obtain ⟨later, hlater⟩ := leaves_etagEntriesFds entries (etagFds entry.2 fds)
    exact ⟨_, (leaves_etagFds entry.2 fds).trans hlater⟩

end

def Computes (tree : Node) (path : Bytes) : Prop :=
  ∃ n, (namei tree path).toOption.bind tree.get? = some n ∧
    getXattr (kindXattrs n.kind).etag 41 = none

theorem leaves_getEtagFds (tree : Node) (path : Bytes) (fds : List Nat) :
    Leaves (Computes tree path) fds (getEtagFds tree path fds) := by
  unfold getEtagFds Computes
  cases (namei tree path).toOption.bind tree.get? with
  | none => exact (leaves_none fds).congr (by simp)
  | some n => exact (leaves_etagFds n fds).congr (by simp)

theorem not_computes {tree : Node} {path : Bytes} (h : viewAt tree path = none) :
    ¬ Computes tree path := by
  intro computes
  obtain ⟨n, hn, -⟩ := computes
  rw [viewAt_eq] at h
  obtain ⟨loc, hloc, hget⟩ := Option.bind_eq_some_iff.1 hn
  simp [hloc, plain, Tree.look, hget] at h

theorem computes_of_stat {tree : Node} {path : Bytes} {kind : Stat} (h : stat tree path = .ok kind) :
    Computes tree path ↔ getXattr (kindXattrs kind).etag 41 = none := by
  obtain ⟨loc, hnamei, hlook⟩ := stat_eq_ok.1 h
  rw [Tree.look, Option.map_eq_some_iff] at hlook
  obtain ⟨n, hn, rfl⟩ := hlook
  simp [Computes, hnamei, hn, Except.toOption]

theorem computes_of_legible {tree tree' : Node} (h : legible tree = legible tree') (path : Bytes) :
    Computes tree path ↔ Computes tree' path := by
  have one : ∀ {t t' : Node}, legible t = legible t' → Computes t path → Computes t' path := by
    intro t t' same computes
    obtain ⟨n, hn, hread⟩ := computes
    rw [namei_congr (plain_of_legible same)] at hn
    obtain ⟨loc, hloc, hget⟩ := Option.bind_eq_some_iff.1 hn
    have both := get?_of_legible same loc
    rw [hget, Option.map_some, eq_comm, Option.map_eq_some_iff] at both
    obtain ⟨n', hn', hlegible⟩ := both
    refine ⟨n', by rw [hloc, Option.bind_some, hn'], ?_⟩
    rw [← getXattr_of_legible hlegible.symm, hread]
  exact ⟨one h, one h.symm⟩

end RsServe.Descriptors

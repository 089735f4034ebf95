import RsServe.AuthStore

/-! Database values that no record was packed into: what unpack_authorization makes of
them, and what lookup_authorization then hands on. -/

namespace RsServe.CorruptRecords
open CString AuthRecord AuthStore KeyedStore

/-- The scopes that the loop of authorize_request goes through; none where they are read
from memory that unpack_authorization never set. -/
def triedScopes : Lookup → Option (List RawScope)
  | .null => some []
  | .record auth => some auth.scopes
  | .unset => none
  | .outOfBounds => none

structure Rejects {σ : Type} (db : Database σ) (s : σ) (username token data : Bytes) : Prop where
  inBounds : unpackAuthorization data ≠ .outOfBounds
  packed (dest : RawAuthorization) (last : Nat) : unpackAuthorization data = .success dest last →
    ∃ a : RsAuthorization, a.NulFree ∧ a.raw = dest ∧ packAuthorization a = some data
  nonzero (code : Int) : unpackAuthorization data = .failure code → code ≠ 0
  null (code : Int) : unpackAuthorization data = .failure code →
    lookupAuthorization db s username token = .null
  grantsNothing (code : Int) : unpackAuthorization data = .failure code →
    triedScopes (lookupAuthorization db s username token) = some []

def Intact (data : Bytes) : Prop := ∃ a : RsAuthorization, a.NulFree ∧ Carried a ∧ data = layout a

variable {σ : Type} {db : Database σ} {s : σ} {username token key data : Bytes}

theorem lookup_of_failure (hkey : authKey username token = some key)
    (hget : db.get s key = some data) {code : Int} (h : unpackAuthorization data = .failure code) :
    lookupAuthorization db s username token = .unset := by
  simp only [lookupAuthorization, hkey, hget, h]

theorem intact_of_success {dest : RawAuthorization} {last : Nat}
    (h : unpackAuthorization data = .success dest last) {a : RsAuthorization} (hnul : a.NulFree)
    (hraw : a.raw = dest) (hpack : packAuthorization a = some data) : Intact data := by
  have size := layout_lt_of_packed hpack
  have same : layout a = data := Option.some.inj ((packAuthorization_eq size).symm.trans hpack)
  rw [← same, ← hraw] at h
  exact ⟨a, hnul, ((unpackAuthorization_layout hnul size last).1 h).1, same.symm⟩

/-- No value is rejected: it is intact, or read beyond its end, or taken for another record,
or it leaves a record that is not filled. -/
theorem rejects_iff (hkey : authKey username token = some key) (hget : db.get s key = some data)
    (hsize : data.length < 2 ^ 32) : Rejects db s username token data ↔ Intact data := by
  constructor
  · intro h
    cases hunpack : unpackAuthorization data with
    | outOfBounds => exact absurd hunpack h.inBounds
    | failure code =>
      have returned := h.null code hunpack
      rw [lookup_of_failure hkey hget hunpack] at returned
      exact absurd returned (by simp)
    | success dest last =>
      obtain ⟨a, hnul, hraw, hpack⟩ := h.packed dest last hunpack
      exact intact_of_success hunpack hnul hraw hpack
  · rintro ⟨a, hnul, carried, rfl⟩
    have unpacked : unpackAuthorization (layout a) = .success a.raw (layout a).length :=
      (unpackAuthorization_layout hnul hsize _).2 ⟨carried, rfl⟩
    have noFailure : ∀ code, unpackAuthorization (layout a) ≠ .failure code := by
      intro code hfail
      rw [unpacked] at hfail
      exact Unpacked.noConfusion hfail
    refine ⟨?_, fun dest last h => ?_, fun code h => absurd h (noFailure code),
      fun code h => absurd h (noFailure code), fun code h => absurd h (noFailure code)⟩
    · rw [unpacked]
      exact Unpacked.noConfusion
    · rw [unpacked, Unpacked.success.injEq] at h
      exact ⟨a, hnul, h.1, packAuthorization_eq hsize⟩

theorem rejects_sample :
    let db := listed Bytes Bytes
    Rejects db (db.put db.empty (str "me|token") (layout sample)) (str "me") (str "token")
      (layout sample) :=
  (rejects_iff (show authKey (str "me") (str "token") = some (str "me|token") by decide)
    (by decide) (by decide)).2
    ⟨sample, ⟨by decide, by decide, by decide⟩, by unfold Carried InRange; decide, rfl⟩

theorem truncated_handed_on :
    let db := listed Bytes Bytes
    let s := db.put db.empty (str "me|token") (str "me" ++ [0])
    unpackAuthorization (str "me" ++ [0]) = .failure 1 ∧
      lookupAuthorization db s (str "me") (str "token") = .unset ∧
      ¬ Rejects db s (str "me") (str "token") (str "me" ++ [0]) := by
  refine ⟨by decide, by decide, fun h => ?_⟩
  exact absurd (h.null 1 (by decide)) (by decide)

end RsServe.CorruptRecords

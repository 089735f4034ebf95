import RsServe.Request

/-! System users as getpwnam_r reports them, and the users that storage serves. -/

namespace RsServe.Users
open CString

structure Passwd where
  uid : UInt32
  gid : UInt32
deriving DecidableEq

inductive Getpwnam where
  | entry (pw : Passwd)
  | absent
  | failed
deriving DecidableEq

/-- The pointer that user_get_entry returns. -/
inductive UserEntry where
  | found (pw : Passwd)
  /-- USER_NOT_FOUND -/
  | notFound
  | null
deriving DecidableEq

variable (getpwnam : Bytes → Getpwnam)

def userGetEntry (username : Bytes) : UserEntry :=
  match getpwnam username with
  | .entry pw => .found pw
  | .absent => .notFound
  | .failed => .null

def userGetUid (username : Bytes) : UInt32 :=
  match userGetEntry getpwnam username with
  | .notFound => -1
  | .null => -2
  | .found pw => pw.uid

def uidAllowed (uid : UInt32) : Bool := 1000 ≤ uid

/-- The status that verify_user sets; 0 leaves the request to go on. -/
def verifyUser (username : Bytes) : Nat :=
  let uid := userGetUid getpwnam username
  if uid = -1 then 404
  else if uid = -2 then 500
  else if !uidAllowed uid then 404
  else 0

theorem verifyUser_eq_zero {username : Bytes} :
    verifyUser getpwnam username = 0 ↔
      userGetUid getpwnam username ≠ -1 ∧ userGetUid getpwnam username ≠ -2 ∧
        uidAllowed (userGetUid getpwnam username) := by
  unfold verifyUser
  generalize userGetUid getpwnam username = uid
  by_cases hnone : uid = -1
  · simp [hnone]
  · by_cases herror : uid = -2
    · simp [herror]
    · by_cases hallowed : uidAllowed uid
      · simp [hnone, herror, hallowed]
      · simp [hnone, herror, hallowed]

theorem verifyUser_cases (username : Bytes) :
    verifyUser getpwnam username = 0 ∨ verifyUser getpwnam username = 404 ∨
      verifyUser getpwnam username = 500 := by
  unfold verifyUser
  generalize userGetUid getpwnam username = uid
  by_cases hnone : uid = -1
  · simp [hnone]
  · by_cases herror : uid = -2
    · simp [herror]
    · by_cases hallowed : uidAllowed uid
      · simp [hnone, herror, hallowed]
      · simp [hnone, herror, hallowed]

theorem userGetEntry_of_verified {username : Bytes} (h : verifyUser getpwnam username = 0) :
    ∃ pw, userGetEntry getpwnam username = .found pw := by
  have verified := (verifyUser_eq_zero getpwnam).1 h
  unfold userGetUid at verified
  cases hentry : userGetEntry getpwnam username with
  | found pw => exact ⟨pw, rfl⟩
  | notFound => simp [hentry] at verified
  | null => simp [hentry] at verified

theorem uidAllowed_sentinels : uidAllowed (-1) ∧ uidAllowed (-2) := by decide

end RsServe.Users

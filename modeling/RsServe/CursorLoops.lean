import RsServe.AuthStore
import RsServe.PollLoop

/-! list_authorizations and print_authorizations: the loops over the results of the cursor's
get. -/

namespace RsServe.CursorLoops
open CString AuthRecord PollLoop

inductive GetResult where
  /-- 0, with a value -/
  | record (value : Bytes)
  /-- DB_NOTFOUND -/
  | notFound
  | failed (code : Int)
deriving DecidableEq

/-- A cursor, with the result of DB_FIRST and of each DB_NEXT after it. There is an end of
the records, and an error stays. -/
structure Cursor where
  get : Nat → GetResult
  ends : ∃ call, ∀ value, get call ≠ .record value
  stays : ∀ call, get call = .notFound → get (call + 1) = .notFound
  persists : ∀ call code, get call = .failed code → get (call + 1) = .failed code

/-- unpack_authorization; none where it fails, which leaves fields that were never set. -/
def unpack (value : Bytes) : Option RawAuthorization :=
  match unpackAuthorization value with
  | .success dest _ => some dest
  | _ => none

def GetResult.unpacked : GetResult → Option RawAuthorization
  | .record value => unpack value
  | _ => none

def returned (cursor : Cursor) : Nat → List RawAuthorization
  | 0 => []
  | call + 1 => returned cursor call ++ (cursor.get call).unpacked.toList

/-- `username == NULL || strcmp(auth->username, username) == 0` -/
def wanted (username : Option Bytes) (auth : RawAuthorization) : Bool :=
  username.all (auth.username = ·)

inductive Listing (α : Type) where
  | finished (reported : α)
  /-- The first get fails, and the program is aborted. -/
  | aborted
  /-- The body goes on with a record that is not filled. -/
  | undefined
  | running
deriving DecidableEq

section Loop
variable {α : Type} (username : Option Bytes) (report : α → RawAuthorization → α)

def body (s : Bytes × α) : Option (Bytes × α) :=
  (unpack s.1).map fun auth => (s.1, if wanted username auth then report s.2 auth else s.2)

/-- The body after one more get. Only a record changes db_value. -/
def bodyAfter (s : Bytes × α) : GetResult → Option (Bytes × α)
  | .record value => body username report (value, s.2)
  | _ => body username report s

/-- `do ... while(cursor->get(cursor, &db_key, &db_value, DB_NEXT) != DB_NOTFOUND)` -/
def doLoop (cursor : Cursor) (fuel : Nat) (value : Bytes) (start : α) : Listing α :=
  match body username report (value, start) with
  | none => .undefined
  | some s =>
    match poll (bodyAfter username report) (· = .notFound) cursor.get fuel 1 s with
    | .done s => .finished s.2
    | .stuck => .undefined
    | .running => .running

end Loop

def callBack (reported : List RawAuthorization) (auth : RawAuthorization) :
    List RawAuthorization :=
  reported ++ [auth]

def listAuthorizations (username : Option Bytes) (cursor : Cursor) (fuel : Nat) :
    Listing (List RawAuthorization) :=
  match cursor.get 0 with
  | .notFound => .finished []
  | .failed _ => .aborted
  | .record value => doLoop username callBack cursor fuel value []

inductive Printed where
  | text (s : Bytes)
  /-- print_authorization -/
  | authorization (auth : RawAuthorization)
deriving DecidableEq

/-- What stands between brackets, and `i` of the source. -/
def printNext (s : List Printed × Nat) (auth : RawAuthorization) : List Printed × Nat :=
  let printed := if s.2 ≠ 0 then s.1 ++ [.text (str ", ")] else s.1
  (printed ++ [.authorization auth], s.2 + 1)

def printAuthorizations (username : Option Bytes) (cursor : Cursor) (fuel : Nat) :
    Listing (List Printed) :=
  match cursor.get 0 with
  | .notFound => .finished []
  | .failed _ => .aborted
  | .record value =>
    match doLoop username printNext cursor fuel value ([.text (str "[")], 0) with
    | .finished s => .finished (s.1 ++ [.text (str "]\n")])
    | .aborted => .aborted
    | .undefined => .undefined
    | .running => .running

def printedRecords (printed : List Printed) : List RawAuthorization :=
  printed.filterMap fun
    | .text _ => none
    | .authorization auth => some auth

def EndsOnce {α : Type} (cursor : Cursor) (records : α → List RawAuthorization)
    (listing : Nat → Listing α) : Prop :=
  ∃ fuel, listing fuel = .aborted ∨
    ∃ reported call, listing fuel = .finished reported ∧
      List.Sublist (records reported) (returned cursor call)

def Appends {α : Type} (report : α → RawAuthorization → α) (records : α → List RawAuthorization) :
    Prop :=
  ∀ s auth, records (report s auth) = records s ++ [auth]

structure Listable (cursor : Cursor) : Prop where
  succeeds : ∀ call code, cursor.get call ≠ .failed code
  unpacks : ∀ call value, cursor.get call = .record value → (unpack value).isSome

namespace Cursor
variable {cursor : Cursor}

theorem notFound_later {call later : Nat} (h : cursor.get call = .notFound) (hle : call ≤ later) :
    cursor.get later = .notFound := by
  induction later, hle using Nat.le_induction with
  | base => exact h
  | succ later _ ih => exact cursor.stays later ih

theorem failed_later {call later : Nat} {code : Int} (h : cursor.get call = .failed code)
    (hle : call ≤ later) : cursor.get later = .failed code := by
  induction later, hle using Nat.le_induction with
  | base => exact h
  | succ later _ ih => exact cursor.persists later code ih

theorem exists_notFound (h : ∀ call code, cursor.get call ≠ .failed code) :
    ∃ call, cursor.get call = .notFound := by
  obtain ⟨call, hend⟩ := cursor.ends
  refine ⟨call, ?_⟩
  cases hget : cursor.get call with
  | record value => exact absurd hget (hend value)
  | notFound => rfl
  | failed code => exact absurd hget (h call code)

end Cursor

section
variable {α : Type} {username : Option Bytes} {report : α → RawAuthorization → α} {cursor : Cursor}
  {value : Bytes}

theorem isSome_of_body {s : Bytes × α} (h : (body username report s).isSome) :
    (unpack s.1).isSome := by
  simpa [body] using h

theorem doLoop_ne_aborted (fuel : Nat) (value : Bytes) (start : α) :
    doLoop username report cursor fuel value start ≠ .aborted := by
  cases hbody : body username report (value, start) with
  | none => simp [doLoop, hbody]
  | some s =>
    cases hpoll : poll (bodyAfter username report) (· = .notFound) cursor.get fuel 1 s with
    | done t => simp [doLoop, hbody, hpoll]
    | stuck => simp [doLoop, hbody, hpoll]
    | running => simp [doLoop, hbody, hpoll]

theorem listable_of_finished (first : cursor.get 0 = .record value) {fuel : Nat} {start last : α}
    (h : doLoop username report cursor fuel value start = .finished last) : Listable cursor := by
  unfold doLoop at h
  cases hbody : body username report (value, start) with
  | none => simp [hbody] at h
  | some s =>
    simp only [hbody] at h
    cases hpoll : poll (bodyAfter username report) (· = .notFound) cursor.get fuel 1 s with
    | stuck => simp [hpoll] at h
    | running => simp [hpoll] at h
    | done t =>
      obtain ⟨k, hk, hend, before⟩ := poll_done hpoll
      have last : cursor.get k = .notFound := of_decide_eq_true hend
      refine ⟨fun call code hfail => ?_, fun call v hv => ?_⟩
      · rcases Nat.le_total call k with hle | hle
        · simp [Cursor.failed_later hfail hle] at last
        · simp [Cursor.notFound_later last hle] at hfail
      · rcases Nat.lt_or_ge call k with hlt | hle
        · rcases Nat.eq_zero_or_pos call with rfl | hpos
          · rw [first, GetResult.record.injEq] at hv
            exact hv ▸ isSome_of_body (by rw [hbody]; rfl)
          · obtain ⟨-, t, ht⟩ := before call hpos hlt
            rw [hv] at ht
            exact isSome_of_body ht
        · simp [Cursor.notFound_later last hle] at hv

def Reported (username : Option Bytes) (cursor : Cursor) (records : α → List RawAuthorization)
    (start : α) (call : Nat) (s : Bytes × α) : Prop :=
  records s.2 = records start ++ (returned cursor call).filter (wanted username)

theorem reported_body {records : α → List RawAuthorization}
    (appends : Appends report records) {start s : α} {call : Nat}
    (hget : cursor.get call = .record value) (hvalue : (unpack value).isSome) {old : Bytes}
    (h : Reported username cursor records start call (old, s)) :
    ∃ s', body username report (value, s) = some s' ∧
      Reported username cursor records start (call + 1) s' := by
  obtain ⟨auth, hauth⟩ := Option.isSome_iff_exists.1 hvalue
  unfold Reported at h
  refine ⟨_, by rw [body, hauth, Option.map_some], ?_⟩
  simp only [Reported, returned, hget, GetResult.unpacked, hauth, Option.toList_some,
    List.filter_append, ← List.append_assoc]
  by_cases hwanted : wanted username auth = true
  · simp [hwanted, appends s auth, h]
  · simp [hwanted, h]

theorem doLoop_listable (username : Option Bytes) {records : α → List RawAuthorization}
    (appends : Appends report records) (h : Listable cursor)
    (first : cursor.get 0 = .record value) (start : α) :
    ∃ fuel last call, doLoop username report cursor fuel value start = .finished last ∧
      cursor.get call = .notFound ∧
      records last = records start ++ (returned cursor call).filter (wanted username) := by
  have none : Reported username cursor records start 0 (value, start) := by
    simp [Reported, returned]
  obtain ⟨s, hbody, hs⟩ := reported_body appends first (h.unpacks 0 value first) none
  have keeps : Keeps (bodyAfter username report) (· = .notFound) cursor.get
      (Reported username cursor records start) := by
    intro call t ht hexit
    cases hget : cursor.get call with
    | record v => exact reported_body appends hget (h.unpacks call v hget) ht
    | notFound => simp [hget] at hexit
    | failed code => exact absurd hget (h.succeeds call code)
  obtain ⟨k, hend⟩ := Cursor.exists_notFound h.succeeds
  have later : cursor.get (k + 1) = .notFound := cursor.stays k hend
  obtain ⟨fuel, last, hpoll⟩ :=
    poll_reaches keeps (Nat.le_add_left 1 k) (decide_eq_true later) hs
  obtain ⟨call, hlate, hlast⟩ := poll_keeps keeps hs hpoll
  exact ⟨fuel, last.2, call, by simp only [doLoop, hbody, hpoll], of_decide_eq_true hlate, hlast⟩

end

theorem appends_callBack : Appends callBack id := fun _ _ => rfl

theorem appends_printNext : Appends printNext fun s => printedRecords s.1 := by
  intro s auth
  by_cases h : s.2 ≠ 0
  · simp [printedRecords, printNext, h]
  · simp [printedRecords, printNext, h]

structure ListsOnce (username : Option Bytes) (cursor : Cursor) : Prop where
  list : EndsOnce cursor id (listAuthorizations username cursor)
  print : EndsOnce cursor printedRecords (printAuthorizations username cursor)

theorem listable_of_notFound {cursor : Cursor} (h : cursor.get 0 = .notFound) :
    Listable cursor := by
  refine ⟨fun call code hfail => ?_, fun call value hvalue => ?_⟩
  · simp [Cursor.notFound_later h (Nat.zero_le call)] at hfail
  · simp [Cursor.notFound_later h (Nat.zero_le call)] at hvalue

/-- An error behind a record keeps both loops running. -/
theorem listsOnce_iff (username : Option Bytes) (cursor : Cursor) :
    ListsOnce username cursor ↔ (∃ code, cursor.get 0 = .failed code) ∨ Listable cursor := by
  constructor
  · rintro ⟨⟨fuel, ending⟩, -⟩
    cases first : cursor.get 0 with
    | failed code => exact Or.inl ⟨code, rfl⟩
    | notFound => exact Or.inr (listable_of_notFound first)
    | record value =>
      rcases ending with hstop | ⟨reported, call, hend, -⟩
      · simp only [listAuthorizations, first] at hstop
        exact absurd hstop (doLoop_ne_aborted fuel value [])
      · simp only [listAuthorizations, first] at hend
        exact Or.inr (listable_of_finished first hend)
  · intro h
    cases first : cursor.get 0 with
    | failed code =>
      exact ⟨⟨0, Or.inl (by simp only [listAuthorizations, first])⟩,
        ⟨0, Or.inl (by simp only [printAuthorizations, first])⟩⟩
    | notFound =>
      exact ⟨⟨0, Or.inr ⟨[], 0, by simp only [listAuthorizations, first], List.nil_sublist _⟩⟩,
        ⟨0, Or.inr ⟨[], 0, by simp only [printAuthorizations, first], List.nil_sublist _⟩⟩⟩
    | record value =>
      have listable : Listable cursor := h.resolve_left fun ⟨code, hcode⟩ => by simp [first] at hcode
      constructor
      · obtain ⟨fuel, last, call, hloop, -, hlast⟩ :=
          doLoop_listable username appends_callBack listable first []
        refine ⟨fuel, Or.inr ⟨last, call, by simp only [listAuthorizations, first, hloop], ?_⟩⟩
        rw [hlast]
        exact List.filter_sublist
      · obtain ⟨fuel, last, call, hloop, -, hlast⟩ :=
          doLoop_listable username appends_printNext listable first ([.text (str "[")], 0)
        refine ⟨fuel, Or.inr ⟨last.1 ++ [.text (str "]\n")], call,
          by simp only [printAuthorizations, first, hloop], ?_⟩⟩
        have closing : printedRecords (last.1 ++ [.text (str "]\n")]) = printedRecords last.1 := by
          simp [printedRecords]
        rw [closing, hlast]
        exact List.filter_sublist

def storeCursor (entries : List (Bytes × Bytes)) : Cursor where
  get call := match entries[call]? with
    | some entry => .record entry.2
    | none => .notFound
  ends := ⟨entries.length, fun value => by simp⟩
  stays call h := by
    have late : entries.length ≤ call := by
      by_contra early
      simp [List.getElem?_eq_getElem (Nat.not_le.1 early)] at h
    simp [List.getElem?_eq_none (Nat.le_succ_of_le late)]
  persists call code h := by
    split at h <;> simp at h

theorem returned_storeCursor (entries : List (Bytes × Bytes)) (call : Nat) :
    returned (storeCursor entries) call = (entries.take call).filterMap AuthStore.unpackEntry := by
  induction call with
  | zero => rfl
  | succ call ih =>
    rw [returned, ih, List.take_add_one, List.filterMap_append]
    cases hentry : entries[call]? with
    | none => simp [storeCursor, hentry, GetResult.unpacked]
    | some entry =>
      have same : unpack entry.2 = AuthStore.unpackEntry entry := rfl
      simp only [storeCursor, hentry, GetResult.unpacked, same, Option.toList_some]
      cases hunpack : AuthStore.unpackEntry entry with
      | none => simp [hunpack]
      | some auth => simp [hunpack]

theorem listable_storeCursor {entries : List (Bytes × Bytes)}
    (h : ∀ entry ∈ entries, ∃ auth, AuthStore.unpackEntry entry = some auth) :
    Listable (storeCursor entries) := by
  refine ⟨fun call code hfail => ?_, fun call value hvalue => ?_⟩
  · simp only [storeCursor] at hfail
    split at hfail <;> simp at hfail
  · cases hentry : entries[call]? with
    | none => simp [storeCursor, hentry] at hvalue
    | some entry =>
      obtain ⟨auth, hauth⟩ := h entry (List.mem_of_getElem? hentry)
      simp only [storeCursor, hentry, GetResult.record.injEq] at hvalue
      have same : unpack value = some auth := hvalue ▸ hauth
      rw [same]
      rfl

theorem listAuthorizations_store {σ : Type} (db : AuthStore.Database σ) (s : σ)
    (username : Option Bytes)
    (h : ∀ entry ∈ db.cursor s, ∃ auth, AuthStore.unpackEntry entry = some auth) :
    ∃ fuel listed, AuthStore.listAuthorizations db s username = some listed ∧
      listAuthorizations username (storeCursor (db.cursor s)) fuel = .finished listed := by
  have stored : AuthStore.listAuthorizations db s username =
      some (((db.cursor s).filterMap AuthStore.unpackEntry).filter (wanted username)) := by
    rw [AuthStore.listAuthorizations, AuthStore.mapM_eq_filterMap h]
    rfl
  cases first : (storeCursor (db.cursor s)).get 0 with
  | failed code => exact absurd first ((listable_storeCursor h).succeeds 0 code)
  | notFound =>
    have empty : db.cursor s = [] := by
      cases hcursor : db.cursor s with
      | nil => rfl
      | cons entry entries => simp [storeCursor, hcursor] at first
    refine ⟨0, [], ?_, by simp only [listAuthorizations, first]⟩
    rw [stored, empty]
    rfl
  | record value =>
    obtain ⟨fuel, last, call, hloop, hlate, hlast⟩ :=
      doLoop_listable username appends_callBack (listable_storeCursor h) first []
    have late : (db.cursor s).length ≤ call := by
      by_contra early
      simp [storeCursor, List.getElem?_eq_getElem (Nat.not_le.1 early)] at hlate
    refine ⟨fuel, last, ?_, by simp only [listAuthorizations, first, hloop]⟩
    rw [returned_storeCursor, List.take_of_length_le late] at hlast
    rw [stored]
    exact congrArg some hlast.symm

def failingCursor : Cursor where
  get call := if call = 0 then .record (layout sample) else .failed 22
  ends := ⟨1, fun value => by simp⟩
  stays call h := by
    by_cases hcall : call = 0
    · simp [hcall] at h
    · simp [hcall] at h
  persists call code h := by
    by_cases hcall : call = 0
    · simp [hcall] at h
    · simpa [hcall] using h

theorem failingCursor_runs : ¬ ListsOnce none failingCursor := by
  rintro ⟨⟨fuel, ending⟩, -⟩
  have first : failingCursor.get 0 = .record (layout sample) := rfl
  simp only [listAuthorizations, first] at ending
  rcases ending with hstop | ⟨reported, call, hend, -⟩
  · exact doLoop_ne_aborted fuel (layout sample) [] hstop
  · exact (listable_of_finished first hend).succeeds 1 22 rfl

end RsServe.CursorLoops

import RsServe.AttributeReads
import RsServe.Blocks

/-! get_xattr with its allocations: every byte that is stored in the growing buffer. -/

namespace RsServe.AttributeBuffers
open CString AttributeReads Blocks

inductive Errno where
  | erange
  | enoattr
  | enotsup
  | other
deriving DecidableEq

/-- The bytes that getxattr copied, none where it failed, and errno behind the call. -/
structure Answer where
  copied : Bytes
  errno : Errno

/-- A call that succeeds leaves errno alone. -/
def getxattr (attr : Except Errno Bytes) (size : Nat) (errno : Errno) : Answer :=
  match attr with
  | .ok value => if value.length ≤ size then ⟨value, errno⟩ else ⟨[], .erange⟩
  | .error failure => ⟨[], failure⟩

structure Run where
  stores : List Store
  read : XattrRead

/-- The stores of getxattr and of the NUL behind the value. -/
def fill (size : Nat) (value : Bytes) : List Store :=
  ((List.range value.length).map fun i => ⟨size, i⟩) ++ [⟨size, value.length⟩]

/-- The loop of get_xattr from a buffer of `len` bytes on; `alloc` tells which sizes malloc
and realloc can give. -/
def growLoop (alloc : Nat → Bool) (attr : Except Errno Bytes) (maxlen len : Nat)
    (errno : Errno) : Run :=
  if len ≤ maxlen then
    if alloc len then
      let answer := getxattr attr len errno
      if answer.copied.length > 0 then ⟨fill len answer.copied, .buffer (answer.copied ++ [0])⟩
      else if answer.errno = .erange then
        if len + 16 < 2 ^ 31 then growLoop alloc attr maxlen (len + 16) answer.errno
        else ⟨[], .overflow⟩
      else ⟨[], .null⟩
    else ⟨[], .null⟩
  else ⟨[], .null⟩
termination_by maxlen + 1 - len

def getXattrRun (alloc : Nat → Bool) (attr : Except Errno Bytes) (maxlen : Nat)
    (errno : Errno) : Run :=
  growLoop alloc attr maxlen 32 errno

def FillsSize (alloc : Nat → Bool) (maxlen len length : Nat) : Prop :=
  len ≤ length ∧ 16 ∣ length ∧ length ≤ maxlen ∧ length < 2 ^ 31 ∧
    ∀ size, 16 ∣ size → len ≤ size → size ≤ length → alloc size = true

section Stores
variable {alloc : Nat → Bool} {maxlen : Nat}

theorem fill_within_iff (size : Nat) (value : Bytes) :
    (∀ s ∈ fill size value, s.Within) ↔ value.length < size := by
  constructor
  · intro within
    exact within ⟨size, value.length⟩ (by simp [fill])
  · intro hlt s hs
    rw [fill, List.mem_append, List.mem_map, List.mem_singleton] at hs
    rcases hs with copied | nul
    · obtain ⟨i, hi, eq⟩ := copied
      rw [← eq]
      exact Nat.lt_trans (List.mem_range.1 hi) hlt
    · rw [nul]
      exact hlt

theorem growLoop_no_stores {attr : Except Errno Bytes}
    (h : ∀ size errno, (getxattr attr size errno).copied = []) (len : Nat) (errno : Errno) :
    (growLoop alloc attr maxlen len errno).stores = [] := by
  rw [growLoop]
  simp only [h len errno, List.length_nil, Nat.lt_irrefl, if_false, gt_iff_lt]
  by_cases again : (getxattr attr len errno).errno = .erange
  · simp only [if_pos again]
    by_cases more : len ≤ maxlen
    · have rest := growLoop_no_stores h (len + 16) (getxattr attr len errno).errno
      split_ifs
      · exact rest
      · rfl
      · rfl
    · rw [if_neg more]
  · simp only [if_neg again]
    split_ifs <;> rfl
termination_by maxlen + 1 - len

theorem fillsSize_next {len length : Nat} (hlen : 16 ∣ len) (h : len < length)
    (given : alloc len = true) :
    FillsSize alloc maxlen (len + 16) length ↔ FillsSize alloc maxlen len length := by
  unfold FillsSize
  constructor
  · intro fills
    refine ⟨by omega, fills.2.1, fills.2.2.1, fills.2.2.2.1, fun size hsize low high => ?_⟩
    by_cases first : size = len
    · rw [first, given]
    · exact fills.2.2.2.2 size hsize (by omega) high
  · intro fills
    refine ⟨by omega, fills.2.1, fills.2.2.1, fills.2.2.2.1, fun size hsize low high => ?_⟩
    exact fills.2.2.2.2 size hsize (by omega) high

section Fills
variable {len length : Nat} (h : FillsSize alloc maxlen len length) (hlen : 16 ∣ len)
include h hlen

theorem FillsSize.starts : len ≤ maxlen ∧ alloc len = true :=
  ⟨Nat.le_trans h.1 h.2.2.1, h.2.2.2.2 len hlen (Nat.le_refl len) h.1⟩

theorem FillsSize.next_int (hlong : len < length) : len + 16 < 2 ^ 31 := by
  have divides := h.2.1
  have int := h.2.2.2.1
  omega

end Fills

theorem growLoop_within_iff {value : Bytes} (hne : value ≠ []) {len : Nat} (hlen : 16 ∣ len)
    (hint : len < 2 ^ 31) (errno : Errno) :
    (∀ s ∈ (growLoop alloc (.ok value) maxlen len errno).stores, s.Within) ↔
      ¬ FillsSize alloc maxlen len value.length := by
  have hpos := List.length_pos_iff.2 hne
  rw [growLoop]
  by_cases more : len ≤ maxlen
  · rw [if_pos more]
    by_cases given : alloc len = true
    · rw [if_pos given]
      by_cases hfits : value.length ≤ len
      · simp only [getxattr, if_pos hfits, gt_iff_lt, if_pos hpos, fill_within_iff]
        constructor
        · intro shorter fills
          exact absurd fills.1 (Nat.not_le.2 shorter)
        · intro unfilled
          by_contra whole
          have same : value.length = len := by omega
          refine unfilled ⟨by omega, by omega, by omega, by omega, fun size _ low high => ?_⟩
          rw [show size = len by omega, given]
      · simp only [getxattr, if_neg hfits, List.length_nil, gt_iff_lt, Nat.lt_irrefl, if_false,
          if_true]
        by_cases int : len + 16 < 2 ^ 31
        · rw [if_pos int, growLoop_within_iff hne (by omega) int .erange,
            fillsSize_next hlen (by omega) given]
        · have unfilled : ¬ FillsSize alloc maxlen len value.length :=
            fun fills => int (fills.next_int hlen (Nat.not_le.1 hfits))
          rw [if_neg int]
          simp [unfilled]
    · have unfilled : ¬ FillsSize alloc maxlen len value.length :=
        fun fills => given (fills.starts hlen).2
      simp [given, unfilled]
  · have unfilled : ¬ FillsSize alloc maxlen len value.length :=
      fun fills => more (fills.starts hlen).1
    simp [more, unfilled]
termination_by maxlen + 1 - len

end Stores

/-- All bytes are stored inside the buffer unless the value fills one of the sizes. -/
theorem stores_within_iff (alloc : Nat → Bool) (attr : Except Errno Bytes) (maxlen : Nat)
    (errno : Errno) :
    (∀ s ∈ (getXattrRun alloc attr maxlen errno).stores, s.Within) ↔
      ∀ value, attr = .ok value → ¬ FillsSize alloc maxlen 32 value.length := by
  unfold getXattrRun
  cases attr with
  | error failure =>
    have none : ∀ size errno, (getxattr (.error failure) size errno).copied = [] :=
      fun _ _ => rfl
    simp [growLoop_no_stores none]
  | ok value =>
    by_cases hempty : value = []
    · subst hempty
      have none : ∀ size errno, (getxattr (.ok []) size errno).copied = [] := by
        intro size errno
        simp [getxattr]
      have unfilled : ¬ FillsSize alloc maxlen 32 0 := fun fills => absurd fills.1 (by decide)
      simp [growLoop_no_stores none, unfilled]
    · rw [growLoop_within_iff hempty (by decide) (by decide)]
      simp

theorem lotus_freelance_overruns :
    ¬ ∀ s ∈ (getXattrRun (fun _ => true) (.ok (str "application/vnd.lotus-freelance" ++ [0])) 128
      .other).stores, s.Within := by
  have first : (getXattrRun (fun _ => true) (.ok (str "application/vnd.lotus-freelance" ++ [0])) 128
      .other).stores = fill 32 (str "application/vnd.lotus-freelance" ++ [0]) := by
    rw [getXattrRun, growLoop]
    rfl
  rw [first]
  decide +kernel

def answerOf : Option Bytes → Except Errno Bytes
  | none => .error .enoattr
  | some value => .ok value

theorem growLoop_read {attr : Option Bytes} {maxlen : Nat} (len : Nat) {errno : Errno}
    (h : attr = some [] → errno ≠ .erange) :
    (growLoop (fun _ => true) (answerOf attr) maxlen len errno).read = readXattr attr maxlen len := by
  rw [growLoop, readXattr]
  by_cases more : len ≤ maxlen
  · rw [if_pos more, if_pos more, if_pos rfl]
    cases attr with
    | none => rfl
    | some value =>
      by_cases hfits : value.length ≤ len
      · by_cases hempty : value = []
        · simp [answerOf, getxattr, AttributeReads.getxattr, hempty, h]
        · have hpos := List.length_pos_iff.2 hempty
          simp [answerOf, getxattr, AttributeReads.getxattr, hfits, hpos]
      · have again : some value = some [] → Errno.erange ≠ .erange := by
          intro none
          rw [Option.some.inj none] at hfits
          exact absurd (Nat.zero_le len) hfits
        have rest : (growLoop (fun _ => true) (.ok value) maxlen (len + 16) .erange).read =
            readXattr (some value) maxlen (len + 16) := growLoop_read (len + 16) again
        simp only [answerOf, getxattr, AttributeReads.getxattr, if_neg hfits, List.length_nil,
          gt_iff_lt, Nat.lt_irrefl, if_false, if_true]
        by_cases int : len + 16 < 2 ^ 31
        · rw [if_pos int, if_pos int, rest]
        · rw [if_neg int, if_neg int]
  · rw [if_neg more, if_neg more]
termination_by maxlen + 1 - len

end RsServe.AttributeBuffers

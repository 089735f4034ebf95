import Mathlib.Algebra.Group.Nat.Defs
import RsServe.Attributes

/-! get_xattr with its buffer: which sizes it tries, and what it leaves there. -/

namespace RsServe.AttributeReads
open CString Attributes

/-- getxattr, which copies the value where it fits. -/
inductive Getxattr where
  | copied (value : Bytes)
  | erange
  | enoattr

def getxattr (attr : Option Bytes) (size : Nat) : Getxattr :=
  match attr with
  | none => .enoattr
  | some value => if value.length ≤ size then .copied value else .erange

inductive XattrRead where
  /-- The bytes up to and with the NUL that is written behind the value, even where that lies
  in the slack of the allocation. -/
  | buffer (bytes : Bytes)
  | null
  /-- The length of the buffer does not fit in its `int`. -/
  | overflow
deriving DecidableEq

def readXattr (attr : Option Bytes) (maxlen len : Nat) : XattrRead :=
  if len ≤ maxlen then
    match getxattr attr len with
    | .copied value => if value.length > 0 then .buffer (value ++ [0]) else .null
    | .erange => if len + 16 < 2 ^ 31 then readXattr attr maxlen (len + 16) else .overflow
    | .enoattr => .null
  else .null
termination_by maxlen + 1 - len

def getXattrBuffer (attr : Option Bytes) (maxlen : Nat) : XattrRead := readXattr attr maxlen 32

def lastSize (maxlen : Nat) : Nat := 32 + (maxlen - 32) / 16 * 16

def lastInt : Nat := 2 ^ 31 - 16

section Sizes
variable {value : Bytes} {maxlen : Nat}

theorem readXattr_step {len : Nat} (h : len ≤ maxlen) (hlong : len < value.length) :
    readXattr (some value) maxlen len =
      if len + 16 < 2 ^ 31 then readXattr (some value) maxlen (len + 16) else .overflow := by
  rw [readXattr, if_pos h, getxattr, if_neg (Nat.not_le.2 hlong)]

theorem readXattr_found {len : Nat} (h : len ≤ maxlen) (hne : value ≠ [])
    (hfits : value.length ≤ len) :
    readXattr (some value) maxlen len = .buffer (value ++ [0]) := by
  have hpos := List.length_pos_iff.2 hne
  rw [readXattr, if_pos h, getxattr, if_pos hfits]
  exact if_pos hpos

theorem readXattr_reaches {len : Nat} (h : len ≤ maxlen) (hne : value ≠ [])
    (hfits : value.length ≤ len + (maxlen - len) / 16 * 16) (hint : value.length ≤ lastInt)
    (hlen : 16 ∣ len) :
    readXattr (some value) maxlen len = .buffer (value ++ [0]) := by
  unfold lastInt at hint
  by_cases hhere : value.length ≤ len
  · exact readXattr_found h hne hhere
  · have more : len + 16 ≤ maxlen := by omega
    have int : len + 16 < 2 ^ 31 := by omega
    rw [readXattr_step h (by omega), if_pos int]
    exact readXattr_reaches more hne (by omega) hint (by omega)
termination_by maxlen + 1 - len

theorem readXattr_misses {len : Nat} (h : len ≤ maxlen)
    (hlong : len + (maxlen - len) / 16 * 16 < value.length) :
    readXattr (some value) maxlen len = .null ∨ readXattr (some value) maxlen len = .overflow := by
  rw [readXattr_step h (by omega)]
  by_cases int : len + 16 < 2 ^ 31
  · rw [if_pos int]
    by_cases more : len + 16 ≤ maxlen
    · exact readXattr_misses more (by omega)
    · rw [readXattr, if_neg more]
      exact Or.inl rfl
  · rw [if_neg int]
    exact Or.inr rfl
termination_by maxlen + 1 - len

theorem readXattr_ends {len : Nat} (hmax : maxlen < lastInt) (h : len ≤ maxlen)
    (hlong : maxlen < value.length) :
    readXattr (some value) maxlen len = .null := by
  unfold lastInt at hmax
  rw [readXattr_step h (by omega), if_pos (by omega)]
  by_cases more : len + 16 ≤ maxlen
  · exact readXattr_ends hmax more hlong
  · rw [readXattr, if_neg more]
termination_by maxlen + 1 - len

theorem readXattr_overflows {len : Nat} (hmax : lastInt ≤ maxlen) (hlong : lastInt < value.length)
    (hlen : 16 ∣ len) (h : len ≤ lastInt) :
    readXattr (some value) maxlen len = .overflow := by
  unfold lastInt at *
  rw [readXattr_step (by omega) (by omega)]
  by_cases int : len + 16 < 2 ^ 31
  · rw [if_pos int]
    exact readXattr_overflows hmax hlong (by omega) (by unfold lastInt; omega)
  · rw [if_neg int]
termination_by maxlen + 1 - len

end Sizes

def XattrRead.shown : XattrRead → Option Bytes
  | .buffer bytes => some (cstr bytes)
  | _ => none

theorem cstr_concat_nul (value : Bytes) : cstr (value ++ [0]) = cstr value := by
  induction value with
  | nil => rfl
  | cons c value ih =>
    by_cases hc : c = 0
    · simp [cstr, hc]
    · simpa [cstr, hc] using ih

theorem shown_readXattr {attr : Option Bytes} {maxlen : Nat} (hmax : maxlen < lastInt) (len : Nat) :
    (readXattr attr maxlen len).shown =
      getXattrLoop attr (List.range' len ((maxlen + 16 - len) / 16) 16) := by
  unfold lastInt at hmax
  rw [readXattr]
  by_cases h : len ≤ maxlen
  · have sizes : (maxlen + 16 - len) / 16 = (maxlen + 16 - (len + 16)) / 16 + 1 := by omega
    rw [if_pos h, sizes, List.range'_succ]
    cases attr with
    | none => rfl
    | some value =>
      rw [getXattrLoop]
      by_cases hfits : value.length ≤ len
      · by_cases hempty : value = []
        · simp [getxattr, hempty, XattrRead.shown]
        · have hpos := List.length_pos_iff.2 hempty
          simp [getxattr, hfits, hempty, hpos, XattrRead.shown, cstr_concat_nul]
      · simp only [getxattr, if_neg hfits, if_pos (show len + 16 < 2 ^ 31 by omega)]
        exact shown_readXattr (by unfold lastInt; omega) (len + 16)
  · have none : (maxlen + 16 - len) / 16 = 0 := by omega
    rw [if_neg h, none]
    rfl
termination_by maxlen + 1 - len

theorem getXattr_eq_shown {attr : Option Bytes} {maxlen : Nat} (hmax : maxlen < lastInt) :
    getXattr attr maxlen = (getXattrBuffer attr maxlen).shown := by
  have sizes : (maxlen + 16 - 32) / 16 = (maxlen - 16) / 16 := by omega
  rw [getXattrBuffer, shown_readXattr hmax, getXattr, sizes]

structure FindsFitting (maxlen : Nat) (attr : Option Bytes) : Prop where
  fits : ∀ value, attr = some value → value ≠ [] → value.length < maxlen →
    getXattrBuffer attr maxlen = .buffer (value ++ [0])
  absent : attr = none → getXattrBuffer attr maxlen = .null
  long : ∀ value, attr = some value → maxlen < value.length → getXattrBuffer attr maxlen = .null

def Reached (maxlen length : Nat) : Prop :=
  (0 < length → length < maxlen → length ≤ lastSize maxlen) ∧
    (lastInt < length → length ≠ maxlen → maxlen < lastInt)

theorem findsFitting_iff {maxlen : Nat} (hmax : 32 ≤ maxlen) (attr : Option Bytes) :
    FindsFitting maxlen attr ↔ ∀ value, attr = some value → Reached maxlen value.length := by
  constructor
  · intro finds value hvalue
    subst hvalue
    refine ⟨fun hpos hshort => ?_, fun hlong hother => ?_⟩
    · by_contra gap
      have found := finds.fits value rfl (List.length_pos_iff.1 hpos) hshort
      rcases readXattr_misses hmax (Nat.not_le.1 gap) with missed | missed
      · simp [getXattrBuffer, missed] at found
      · simp [getXattrBuffer, missed] at found
    · by_contra large
      have stuck : getXattrBuffer (some value) maxlen = .overflow :=
        readXattr_overflows (Nat.not_lt.1 large) hlong (by decide) (by decide)
      have hpos : value ≠ [] := by
        intro nil
        simp [nil] at hlong
      rcases Nat.lt_or_gt_of_ne hother with hshort | hover
      · simp [finds.fits value rfl hpos hshort] at stuck
      · simp [finds.long value rfl hover] at stuck
  · intro reached
    refine ⟨fun value hvalue hne hshort => ?_, fun hnone => ?_, fun value hvalue hover => ?_⟩
    · have reach := reached value hvalue
      subst hvalue
      have small : value.length ≤ lastInt := by
        by_contra large
        have := reach.2 (Nat.not_le.1 large) (Nat.ne_of_lt hshort)
        omega
      exact readXattr_reaches hmax hne (reach.1 (List.length_pos_iff.2 hne) hshort) small (by decide)
    · subst hnone
      rw [getXattrBuffer, readXattr, if_pos hmax]
      rfl
    · have reach := reached value hvalue
      subst hvalue
      refine readXattr_ends ?_ hmax hover
      by_contra large
      exact absurd (reach.2 (by omega) (Nat.ne_of_gt hover)) large

theorem findsFitting_charset : FindsFitting 64 (some (str "UTF-8")) := by
  refine (findsFitting_iff (by decide) _).2 fun value hvalue => ?_
  rw [← Option.some.inj hvalue]
  exact ⟨fun _ _ => by decide, fun hlong => absurd hlong (by decide)⟩

theorem reached_iff {maxlen : Nat} (hmax : 32 ≤ maxlen) (hint : maxlen < lastInt) :
    (∀ length, Reached maxlen length) ↔ maxlen % 16 ≤ 1 := by
  constructor
  · intro reached
    have gap := (reached (maxlen - 1)).1 (by omega) (by omega)
    unfold lastSize at gap
    omega
  · intro grid length
    refine ⟨fun _ hshort => ?_, fun _ _ => hint⟩
    unfold lastSize
    omega

theorem etag_not_found :
    ¬ FindsFitting 41 (some (str "aaf4c61ddcc5e8a2dabede0f3b482cd9aea9434d")) := by
  intro finds
  have found := finds.fits _ rfl (by decide) (by decide)
  have large : 32 + (41 - 32) / 16 * 16 <
      (str "aaf4c61ddcc5e8a2dabede0f3b482cd9aea9434d").length := by decide
  rcases readXattr_misses (by decide) large with missed | missed
  · simp [getXattrBuffer, missed] at found
  · simp [getXattrBuffer, missed] at found

end RsServe.AttributeReads

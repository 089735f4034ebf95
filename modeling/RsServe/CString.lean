import Mathlib.Data.List.DropRight
import RsServe.SegmentGluing

/-! NUL-terminated strings as byte lists without the terminator, and the libc
functions that the sources call on them. -/

namespace RsServe.CString
open SegmentGluing

abbrev Bytes := List UInt8

instance lawfulBEqBytes : LawfulBEq Bytes := inferInstance

/-- The bytes of an ASCII literal of the sources. -/
def str (s : String) : Bytes := s.toList.map fun c => c.toNat.toUInt8

def slash : UInt8 := 47
def dot : UInt8 := 46
def percent : UInt8 := 37
def colon : UInt8 := 58
def at_ : UInt8 := 64
def bar : UInt8 := 124

/-- What a `char *` into the buffer shows: everything before the first NUL. -/
def cstr (buf : Bytes) : Bytes := buf.takeWhile (· ≠ 0)

def NulFree (s : Bytes) : Prop := 0 ∉ s

instance (s : Bytes) : Decidable (NulFree s) := inferInstanceAs (Decidable (0 ∉ s))

/-- What `%d` and `%ld` print. -/
def decimal (n : Nat) : Bytes := (Nat.toDigits 10 n).map fun c => c.toNat.toUInt8

theorem cstr_of_nulFree {s : Bytes} (h : NulFree s) : cstr s = s := by
  rw [cstr, List.takeWhile_eq_self_iff]
  intro c hc
  simpa using fun h0 : c = 0 => h (h0 ▸ hc)

theorem cstr_append_nul {s : Bytes} (h : NulFree s) (t : Bytes) : cstr (s ++ 0 :: t) = s := by
  induction s with
  | nil => simp [cstr]
  | cons c s ih =>
    have hc : c ≠ 0 := fun h0 => h (by simp [h0])
    have hs : NulFree s := fun h0 => h (by simp [h0])
    simpa [cstr, hc] using ih hs

/-- strncmp(a, b, n) == 0 -/
def strncmpEq (a b : Bytes) (n : Nat) : Bool := a.take n = b.take n

/-- The components that path resolution sees: empty ones do not count. -/
def components (path : Bytes) : List Bytes := (path.splitOn slash).filter (· ≠ [])

theorem components_append_slash (a b : Bytes) :
    components (a ++ slash :: b) = components a ++ components b := by
  simp [components, List.splitOn_append_cons_self]

theorem components_of_not_mem {a : Bytes} (h : slash ∉ a) (hne : a ≠ []) :
    components a = [a] := by
  simp [components, List.splitOn_eq_singleton h, hne]

theorem components_cut (w : Bytes) :
    components w = ((cut slash w).lead :: (cut slash w).rest).filter (· ≠ []) := by
  obtain ⟨lead, rest, split⟩ := List.exists_cons_of_ne_nil (List.splitOn_ne_nil slash w)
  simp [components, cut, split]

end RsServe.CString

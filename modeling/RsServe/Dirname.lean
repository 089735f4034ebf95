import Mathlib.Data.List.DropRight
import RsServe.CString

/-! dirname of libgen. -/

namespace RsServe.Dirname
open CString

/-- A directory part of slashes alone: POSIX keeps exactly two apart from the others. -/
def rootName (slashes : Bytes) : Bytes := if slashes = str "//" then str "//" else str "/"

def dirname (path : Bytes) : Bytes :=
  let named := path.rdropWhile (· = slash)
  let dir := named.rdropWhile (· ≠ slash)
  let trimmed := dir.rdropWhile (· = slash)
  if path = [] then str "."
  else if named = [] then rootName path
  else if dir = [] then str "."
  else if trimmed = [] then rootName dir
  else trimmed

theorem length_rdropWhile_le (p : UInt8 → Bool) (path : Bytes) :
    (path.rdropWhile p).length ≤ path.length := (List.rdropWhile_prefix p path).length_le

theorem components_of_slashes {path : Bytes} (h : path.rdropWhile (· = slash) = []) :
    components path = [] := by
  rw [List.rdropWhile_eq_nil_iff] at h
  induction path with
  | nil => decide
  | cons c path ih =>
    have hc : c = slash := by simpa using h c (by simp)
    have empty : components [] = [] := by decide
    rw [hc, ← List.nil_append (slash :: path), components_append_slash, empty,
      ih fun d hd => h d (by simp [hd])]
    rfl

theorem length_dir_lt {named : Bytes} (hne : named ≠ []) (hlast : named.getLast hne ≠ slash) :
    (named.rdropWhile (· ≠ slash)).length < named.length := by
  have whole := List.dropLast_append_getLast hne
  have dropped : named.rdropWhile (· ≠ slash) = named.dropLast.rdropWhile (· ≠ slash) := by
    conv_lhs => rw [← whole]
    rw [List.rdropWhile_concat_pos _ _ _ (by simpa using hlast)]
  have bound := length_rdropWhile_le (· ≠ slash) named.dropLast
  have pos : 0 < named.length := List.length_pos_iff.2 hne
  rw [List.length_dropLast] at bound
  rw [dropped]
  omega

theorem length_dirname_lt {path : Bytes} (h : components path ≠ []) (hdir : dirname path ≠ str ".") :
    (dirname path).length < path.length := by
  unfold dirname at hdir ⊢
  simp only at hdir ⊢
  by_cases hpath : path = []
  · simp [hpath] at hdir
  · rw [if_neg hpath] at hdir ⊢
    by_cases hnamed : path.rdropWhile (· = slash) = []
    · exact absurd (components_of_slashes hnamed) h
    · rw [if_neg hnamed] at hdir ⊢
      have hlast : (path.rdropWhile (· = slash)).getLast hnamed ≠ slash := by
        simpa using List.rdropWhile_last_not (fun c => decide (c = slash)) path hnamed
      have shorter := length_dir_lt hnamed hlast
      have named := length_rdropWhile_le (· = slash) path
      generalize (path.rdropWhile (· = slash)).rdropWhile (· ≠ slash) = dir at hdir shorter ⊢
      by_cases hempty : dir = []
      · simp [hempty] at hdir
      · rw [if_neg hempty] at hdir ⊢
        have pos : 0 < dir.length := List.length_pos_iff.2 hempty
        by_cases htrimmed : dir.rdropWhile (· = slash) = []
        · rw [if_pos htrimmed, rootName]
          by_cases htwo : dir = str "//"
          · rw [if_pos htwo, ← htwo]
            omega
          · rw [if_neg htwo]
            have one : (str "/").length = 1 := by decide
            omega
        · rw [if_neg htrimmed]
          have trimmed := length_rdropWhile_le (· = slash) dir
          omega

theorem rdropWhile_append_neg {p : UInt8 → Bool} {a b : Bytes} (hb : b ≠ [])
    (h : ¬ p (b.getLast hb)) : (a ++ b).rdropWhile p = a ++ b := by
  rw [List.rdropWhile_eq_self_iff]
  intro hne
  rwa [List.getLast_append_of_ne_nil _ hb]

theorem rdropWhile_name {name : Bytes} (hslash : slash ∉ name) (a : Bytes) :
    (a ++ slash :: name).rdropWhile (· ≠ slash) = a ++ [slash] := by
  induction name using List.reverseRecOn with
  | nil => exact List.rdropWhile_concat_neg _ _ _ (by simp)
  | append_singleton name c ih =>
    have hc : c ≠ slash := fun same => hslash (by simp [same])
    have hname : slash ∉ name := fun mem => hslash (by simp [mem])
    rw [← List.cons_append, ← List.append_assoc, List.rdropWhile_concat_pos _ _ _ (by simpa using hc)]
    exact ih hname

theorem getLast_ne_slash {name : Bytes} (hne : name ≠ []) (hslash : slash ∉ name) :
    name.getLast hne ≠ slash := fun same => hslash (same ▸ List.getLast_mem hne)

theorem dirname_name {name : Bytes} (hne : name ≠ []) (hslash : slash ∉ name) :
    dirname name = str "." := by
  have named : name.rdropWhile (· = slash) = name :=
    rdropWhile_append_neg (a := []) hne (by simpa using getLast_ne_slash hne hslash)
  have dir : name.rdropWhile (· ≠ slash) = [] := by
    rw [List.rdropWhile_eq_nil_iff]
    intro c hc
    have : c ≠ slash := fun same => hslash (same ▸ hc)
    simpa using this
  unfold dirname
  simp only [named, dir, hne, if_true, if_false]

theorem dirname_root {name : Bytes} (hne : name ≠ []) (hslash : slash ∉ name) :
    dirname (slash :: name) = str "/" := by
  have named : (slash :: name).rdropWhile (· = slash) = slash :: name :=
    rdropWhile_append_neg (a := [slash]) hne (by simpa using getLast_ne_slash hne hslash)
  have dir : (slash :: name).rdropWhile (· ≠ slash) = [slash] := rdropWhile_name hslash []
  have trimmed : ([slash] : Bytes).rdropWhile (· = slash) = [] := by decide
  have single : rootName [slash] = str "/" := by decide
  unfold dirname
  simp only [named, dir, trimmed, single, reduceCtorEq, if_true, if_false]

theorem dirname_below {a name : Bytes} (ha : a ≠ []) (hlast : a.getLast ha ≠ slash)
    (hne : name ≠ []) (hslash : slash ∉ name) : dirname (a ++ slash :: name) = a := by
  have named : (a ++ slash :: name).rdropWhile (· = slash) = a ++ slash :: name := by
    refine rdropWhile_append_neg (by simp) ?_
    simpa [List.getLast_cons hne] using getLast_ne_slash hne hslash
  have trimmed : (a ++ [slash]).rdropWhile (· = slash) = a := by
    rw [List.rdropWhile_concat_pos _ _ _ (by simp)]
    exact rdropWhile_append_neg (a := []) ha (by simpa using hlast)
  unfold dirname
  simp only [named, rdropWhile_name hslash, trimmed, ha, List.append_eq_nil_iff, reduceCtorEq,
    and_false, if_false]

end RsServe.Dirname

import RsServe.Kernel
import RsServe.Request

/-! Paths of directory entries: the path of the directory with the entry's name behind it. -/

namespace RsServe.ChildPaths
open CString NameTree TreeWalk Kernel

def WellNamed (tree : Node) : Prop :=
  ∀ loc entries x, tree.get? loc = some (.branch entries x) →
    (entries.map Prod.fst).Nodup ∧ ∀ name ∈ entries.map Prod.fst, PlainName name

theorem wellNamed_branch {entries : List (Bytes × Node)} (hnodup : (entries.map Prod.fst).Nodup)
    (hentries : ∀ entry ∈ entries, PlainName entry.1 ∧ WellNamed entry.2) (x : Xattrs) :
    WellNamed (.branch entries x) := by
  intro loc entries' x' h
  cases loc with
  | nil =>
    rw [get?_nil, Option.some_inj, Tree.branch.injEq] at h
    rw [← h.1]
    refine ⟨hnodup, fun name hname => ?_⟩
    obtain ⟨entry, hentry, rfl⟩ := List.mem_map.1 hname
    exact (hentries entry hentry).1
  | cons name loc =>
    rw [Tree.get?] at h
    obtain ⟨child, hchild, hget⟩ := Option.bind_eq_some_iff.1 h
    exact (hentries _ (AssocList.mem_of_lookup hchild)).2 loc entries' x' hget

variable {tree : Node} {dirPath name : Bytes} {loc : Loc}

theorem exists_of_getLast {path : Bytes} (h : path.getLast? = some slash) :
    ∃ start, path = start ++ [slash] :=
  List.getLast?_eq_some_iff.1 h

theorem getLast_name (hname : PlainName name) : name.getLast? ≠ some slash :=
  fun h => hname.not_mem (List.mem_of_getLast? h)

theorem components_child (hdir : dirPath.getLast? = some slash) (hname : PlainName name) :
    components (dirPath ++ name) = components dirPath ++ [name] := by
  obtain ⟨start, rfl⟩ := exists_of_getLast hdir
  have start' : components (start ++ [slash]) = components start := by
    rw [components_append_slash]
    simp [components]
  rw [start', List.append_assoc, List.singleton_append, components_append_slash,
    components_of_not_mem hname.not_mem hname.ne_nil]

theorem pathNames_child (hdir : dirPath.getLast? = some slash) (hname : PlainName name) :
    pathNames (dirPath ++ name) = components dirPath ++ [name] := by
  have last : (dirPath ++ name).getLast? ≠ some slash := by
    rw [List.getLast?_append_of_ne_nil _ hname.ne_nil]
    exact getLast_name hname
  rw [pathNames, if_neg last, List.append_nil, components_child hdir hname]

theorem pathNames_subdirectory (hdir : dirPath.getLast? = some slash) (hname : PlainName name) :
    pathNames (dirPath ++ name ++ str "/") = components dirPath ++ [name] ++ [str "."] := by
  have single : str "/" = [slash] := by decide
  have base : components (dirPath ++ name ++ [slash]) = components dirPath ++ [name] := by
    rw [components_append_slash, components_child hdir hname]
    simp [components]
  rw [pathNames, single, base, List.getLast?_concat, if_pos rfl]

theorem lookupAt_append {dir : Loc} {names later : List Bytes}
    (h : lookupAt tree dir names = .ok loc) :
    lookupAt tree dir (names ++ later) = lookupAt tree loc later := by
  have first : walk (str ".") (str "..") (shape tree) dir names = .ok loc := by
    unfold lookupAt at h
    cases hwalk : walk (str ".") (str "..") (shape tree) dir names with
    | error e => simp [hwalk] at h
    | ok l => simpa [hwalk] using h
  rw [lookupAt, lookupAt, walk_append, first]
  rfl

theorem lookupAt_here (hloc : shape tree loc = some true) : lookupAt tree loc [str "."] = .ok loc := by
  rw [lookupAt, walk_here hloc]
  rfl

theorem lookupAt_name (hname : PlainName name) (hloc : shape tree loc = some true)
    (hchild : tree.look (loc ++ [name]) ≠ none) :
    lookupAt tree loc [name] = .ok (loc ++ [name]) := by
  have next : shape tree (loc ++ [name]) ≠ none := by
    rw [shape, ne_eq, Option.map_eq_none_iff]
    exact hchild
  rw [lookupAt, walk_down hloc hname.ne_here hname.ne_up next]
  rfl

theorem namei_directory (hdir : dirPath.getLast? = some slash) (h : namei tree dirPath = .ok loc) :
    lookupAt tree [] (components dirPath) = .ok loc ∧ shape tree loc = some true := by
  rw [namei, pathNames, hdir, if_pos rfl] at h
  cases hbase : lookupAt tree [] (components dirPath) with
  | error e =>
    unfold lookupAt at h hbase
    rw [walk_append] at h
    cases hwalk : walk (str ".") (str "..") (shape tree) [] (components dirPath) with
    | error e' => simp [hwalk, Except.bind] at h
    | ok l => simp [hwalk] at hbase
  | ok l =>
    rw [lookupAt_append hbase] at h
    cases hl : shape tree l with
    | none => simp [lookupAt, walk, hl] at h
    | some isBranch =>
      cases isBranch with
      | false => simp [lookupAt, walk, hl] at h
      | true =>
        rw [lookupAt_here hl, Except.ok.injEq] at h
        subst h
        exact ⟨rfl, hl⟩

theorem namei_child (hdir : dirPath.getLast? = some slash) (hname : PlainName name)
    (h : namei tree dirPath = .ok loc) (hchild : tree.look (loc ++ [name]) ≠ none) :
    namei tree (dirPath ++ name) = .ok (loc ++ [name]) := by
  have base := namei_directory hdir h
  rw [namei, pathNames_child hdir hname, lookupAt_append base.1]
  exact lookupAt_name hname base.2 hchild

theorem namei_subdirectory (hdir : dirPath.getLast? = some slash) (hname : PlainName name)
    (h : namei tree dirPath = .ok loc) (hchild : shape tree (loc ++ [name]) = some true) :
    namei tree (dirPath ++ name ++ str "/") = .ok (loc ++ [name]) := by
  have base := namei_directory hdir h
  have present : tree.look (loc ++ [name]) ≠ none := by
    intro none
    simp [shape, none] at hchild
  have child : lookupAt tree [] (components dirPath ++ [name]) = .ok (loc ++ [name]) := by
    rw [lookupAt_append base.1]
    exact lookupAt_name hname base.2 present
  rw [namei, pathNames_subdirectory hdir hname, lookupAt_append child]
  exact lookupAt_here hchild

theorem get_entry {entries : List (Bytes × Node)} {x : Xattrs}
    (h : tree.get? loc = some (.branch entries x)) (name : Bytes) :
    tree.get? (loc ++ [name]) = entries.lookup name := by
  rw [get?_append, h, Option.bind_some, Tree.get?]
  cases entries.lookup name with
  | none => rfl
  | some child => exact get?_nil child

theorem look_entry_ne_none {entries : List (Bytes × Node)} {x : Xattrs}
    (h : tree.get? loc = some (.branch entries x)) (hname : name ∈ entries.map Prod.fst) :
    tree.look (loc ++ [name]) ≠ none := by
  intro none
  rw [Tree.look, Option.map_eq_none_iff, get_entry h] at none
  obtain ⟨child, hchild⟩ := AssocList.exists_lookup_of_mem hname
  simp [none] at hchild

end RsServe.ChildPaths

import RsServe.ChildPaths
import RsServe.Dispatch
import RsServe.GluedNames

/-! Folder requests: when the disk path keeps the slash at its end, and what becomes of the
entries where it does not. -/

namespace RsServe.FolderRequests
open CString NameTree Kernel Attributes DiskPath SegmentGluing GluedNames EarlyExit Storage
open StorageRules Dispatch ChildPaths

def FindsEntries (env : Env) (diskPath : Bytes) (tree : Node) : Prop :=
  ∀ loc names, namei tree diskPath = .ok loc → opendir tree diskPath = .ok names →
    ∀ name ∈ names, namei tree (diskPath ++ name) = .ok (loc ++ [name]) ∧
      (∃ statBuf, stat tree (diskPath ++ name) = .ok statBuf) ∧
      getEtag env.sha1 tree (diskPath ++ name) ≠ none

theorem findsEntries_of_slash (env : Env) {diskPath : Bytes} (h : diskPath.getLast? = some slash)
    {tree : Node} (hnamed : WellNamed tree) : FindsEntries env diskPath tree := by
  intro loc names hnamei hnames name hname
  obtain ⟨loc', entries, x, hnamei', hnode, rfl⟩ := opendir_ok hnames
  rw [hnamei, Except.ok.injEq] at hnamei'
  subst hnamei'
  have present := look_entry_ne_none hnode hname
  have child := namei_child h ((hnamed loc entries x hnode).2 name hname) hnamei present
  cases hlook : tree.look (loc ++ [name]) with
  | none => exact absurd hlook present
  | some kind =>
    have found : stat tree (diskPath ++ name) = .ok kind := stat_eq_ok.2 ⟨_, child, hlook⟩
    obtain ⟨r, hr⟩ := getEtag_ne_none env.sha1 found
    exact ⟨child, ⟨kind, found⟩, by simp [hr]⟩

end RsServe.FolderRequests

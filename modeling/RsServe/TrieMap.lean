import RsServe.PrefixTree
import RsServe.Trie

/-! The nodes of trie.c as they lie in memory for a tree of labels, the map that insertion,
search and iteration would keep, and the store that breaks it. -/

namespace RsServe.TrieMap
open AssocList Blocks CString PrefixTree Trie

variable {V : Type}

abbrev Children (V : Type) := List (Letter × Tree Letter V)

def childKeys (children : Children V) : Bytes := children.map fun child => child.1.val

theorem childKeys_length (children : Children V) :
    (childKeys children).length = children.length := List.length_map _

theorem childKeys_concat (children : Children V) (k : Letter) (t : Tree Letter V) :
    childKeys (children ++ [(k, t)]) = childKeys children ++ [k.val] := by
  simp [childKeys]

mutual

/-- The node with this byte for a tree. The NUL of childkeys lies behind its size as soon as
there is a child. -/
def layout : UInt8 → Tree Letter V → TrieNode V
  | c, .node value children =>
    { key := c
      childkeys := some (holding (max 1 children.length) (childKeys children ++ [0]))
      children := some (holding (max 1 children.length) (layoutChildren children))
      value := value }

def layoutChildren : Children V → List (TrieNode V)
  | [] => []
  | (k, t) :: children => layout k t :: layoutChildren children

end

theorem layout_empty (c : UInt8) : layout c (empty : Tree Letter V) = freshNode c none := rfl

theorem layout_key (c : UInt8) (t : Tree Letter V) : (layout c t).key = c := by
  obtain ⟨value, children⟩ := t
  rfl

theorem layoutChildren_length (children : Children V) :
    (layoutChildren children).length = children.length := by
  induction children with
  | nil => rfl
  | cons child children ih => rw [layoutChildren, List.length_cons, List.length_cons, ih]

theorem layoutChildren_append (front back : Children V) :
    layoutChildren (front ++ back) = layoutChildren front ++ layoutChildren back := by
  induction front with
  | nil => rfl
  | cons child front ih => rw [List.cons_append, layoutChildren, layoutChildren, ih, List.cons_append]

theorem strlen_childKeys (children : Children V) :
    strlen ((childKeys children ++ [0]).map some) = some children.length := by
  induction children with
  | nil => rfl
  | cons child children ih =>
    rw [childKeys] at ih
    rw [childKeys, List.map_cons, List.cons_append, List.map_cons, strlen, if_neg child.1.2, ih]
    rfl

theorem findFrom_missing (pointers : Option (Block (TrieNode V))) {children : Children V}
    {k : Letter} (h : k ∉ children.map Prod.fst) (i : Nat) :
    findFrom pointers k i ((childKeys children ++ [0]).map some) = .missing := by
  induction children generalizing i with
  | nil => rfl
  | cons child children ih =>
    rw [List.map_cons, List.mem_cons, not_or] at h
    have other : child.1.val ≠ k.val := fun same => h.1 (Subtype.ext same.symm)
    have rest := ih h.2 (i + 1)
    rw [childKeys] at rest
    rw [childKeys, List.map_cons, List.cons_append, List.map_cons, findFrom, if_neg child.1.2,
      if_neg other, rest]

theorem findFrom_found {pointers : Block (TrieNode V)} {front : Children V} {k : Letter}
    {t : Tree Letter V} (h : k ∉ front.map Prod.fst) (back : Children V) {i : Nat}
    (hload : pointers.load (i + front.length) = some (layout k t)) :
    findFrom (some pointers) k i ((childKeys (front ++ (k, t) :: back) ++ [0]).map some) =
      .found (i + front.length) (layout k t) := by
  induction front generalizing i with
  | nil =>
    rw [List.length_nil, Nat.add_zero] at hload
    simp [childKeys, findFrom, k.2, hload]
  | cons child front ih =>
    rw [List.map_cons, List.mem_cons, not_or] at h
    have other : child.1.val ≠ k.val := fun same => h.1 (Subtype.ext same.symm)
    have next : i + (child :: front).length = i + 1 + front.length := by
      rw [List.length_cons]
      omega
    rw [next] at hload ⊢
    have rest := ih h.2 hload
    rw [childKeys] at rest
    rw [childKeys, List.cons_append, List.map_cons, List.cons_append, List.map_cons, findFrom,
      if_neg child.1.2, if_neg other, rest]

theorem findChild_missing (c : UInt8) (value : Option V) {children : Children V} {k : Letter}
    (h : k ∉ children.map Prod.fst) : findChild (layout c (.node value children)) k = .missing :=
  findFrom_missing _ h 0

theorem findChild_found (c : UInt8) (value : Option V) {front back : Children V} {k : Letter}
    {t : Tree Letter V} (h : k ∉ front.map Prod.fst) :
    findChild (layout c (.node value (front ++ (k, t) :: back))) k =
      .found front.length (layout k t) := by
  have hload : (holding (max 1 (front ++ (k, t) :: back).length)
      (layoutChildren (front ++ (k, t) :: back))).load (0 + front.length) = some (layout k t) := by
    rw [load_holding, layoutChildren_append, layoutChildren, Nat.zero_add,
      List.getElem?_append_right (by rw [layoutChildren_length]), layoutChildren_length,
      Nat.sub_self]
    rfl
  have found := findFrom_found h back hload
  rw [Nat.zero_add] at found
  exact found

theorem setChild_layout (c : UInt8) (value : Option V) (front back : Children V) (k : Letter)
    (t new : Tree Letter V) :
    (layout c (.node value (front ++ (k, t) :: back))).setChild front.length (layout k new) =
      layout c (.node value (front ++ (k, new) :: back)) := by
  have stored := store_holding (max 1 (front ++ (k, t) :: back).length) (layoutChildren front)
    (layoutChildren ((k, t) :: back)) (layout k new)
  rw [layoutChildren_length, ← layoutChildren_append] at stored
  simp only [TrieNode.setChild, layout, Option.map_some, stored]
  simp [childKeys, layoutChildren, layoutChildren_append]

theorem append_layout (alloc : Nat → Bool) (first : alloc 0 = true) (second : alloc 1 = true)
    (c : UInt8) (value : Option V) (children : Children V) (k : Letter) (t : Tree Letter V) :
    append alloc (layout c (.node value children)) (layout k t) =
      some {
        parent := layout c (.node value (children ++ [(k, t)]))
        stores := [⟨children.length + 1, children.length⟩, ⟨children.length + 1, children.length⟩,
          ⟨children.length + 1, children.length + 1⟩]
        index := some children.length } := by
  have fits : children.length ≤ max 1 children.length := Nat.le_max_right _ _
  have size : max 1 (children ++ [(k, t)]).length = children.length + 1 := by
    rw [List.length_append, List.length_singleton]
    omega
  have len : (layout c (.node value children)).childkeys.bind
      (fun childkeys => strlen childkeys.cells) = some children.length := strlen_childKeys children
  have pointers := grow_holding (max 1 children.length) (layoutChildren children) []
    (by rw [layoutChildren_length]; exact fits) (by simp) (layout k t)
  rw [layoutChildren_length, List.append_nil] at pointers
  have key := grow_holding (max 1 children.length) (childKeys children) [0]
    (by rw [childKeys_length]; exact fits) (by simp) k.val
  have nul := store_end (children.length + 1) (childKeys (children ++ [(k, t)])) 0
  rw [childKeys_length] at key
  rw [childKeys_length, List.length_append, List.length_singleton] at nul
  rw [append_grown len first second]
  simp only [layout, layout_key, size, pointers, key, layoutChildren_append, layoutChildren]
  rw [← childKeys_concat, nul]

theorem newNode_ok (k : Letter) :
    newNode (fun _ => true) k (none : Option V) =
      some (layout k empty, [(malloc 1 : Block UInt8).slot 0]) := rfl

theorem trieInsert_layout (key : List Letter) (c : UInt8) (t : Tree Letter V) (value : Option V) :
    (trieInsert key (fun _ => true) (layout c t) value).node = layout c (PrefixTree.set value key t) ∧
      (trieInsert key (fun _ => true) (layout c t) value).outcome =
        .returned (PrefixTree.get key t) := by
  induction key generalizing c t with
  | nil =>
    obtain ⟨old, children⟩ := t
    exact ⟨rfl, rfl⟩
  | cons k key ih =>
    obtain ⟨old, children⟩ := t
    by_cases present : k ∈ children.map Prod.fst
    · obtain ⟨front, child, back, eq, absent⟩ := exists_split present
      obtain ⟨node, outcome⟩ := ih k child
      subst eq
      rw [trieInsert, findChild_found c old absent]
      refine ⟨?_, ?_⟩
      · simp only [node, setChild_layout, set_split absent]
      · simp only [outcome, get_split absent]
    · obtain ⟨node, outcome⟩ := ih k empty
      have appended := append_layout (fun _ => true) rfl rfl c old children k empty
      rw [trieInsert, findChild_missing c old present, newNode_ok]
      simp only [appended]
      refine ⟨?_, ?_⟩
      · simp only [node, setChild_layout, set_absent present]
      · simp only [outcome, get_absent present, get_empty]

theorem trieSearch_layout (key : List Letter) (c : UInt8) (t : Tree Letter V) :
    trieSearch key (layout c t) = some (PrefixTree.get key t) := by
  induction key generalizing c t with
  | nil =>
    obtain ⟨value, children⟩ := t
    rfl
  | cons k key ih =>
    obtain ⟨value, children⟩ := t
    rw [trieSearch]
    by_cases present : k ∈ children.map Prod.fst
    · obtain ⟨front, child, back, eq, absent⟩ := exists_split present
      rw [eq, findChild_found c value absent, get_split absent]
      exact ih k child
    · rw [findChild_missing c value present, get_absent present]

mutual

theorem iterateTrie_layout : (c : UInt8) → (t : Tree Letter V) →
    iterateTrie (layout c t) = some ((entries t).map Prod.snd)
  | c, .node value children => by
    have below := iterateChildren_layout children
    rw [layout, iterateTrie, entries]
    simp only [holding] at below ⊢
    rw [below]
    cases value <;> simp

theorem iterateChildren_layout : (children : Children V) →
    iterateChildren ((layoutChildren children).map some) ((childKeys children ++ [0]).map some) =
      some ((childEntries children).map Prod.snd)
  | [] => rfl
  | (k, t) :: children => by
    have here := iterateTrie_layout k t
    have below := iterateChildren_layout children
    rw [childKeys] at below
    rw [layoutChildren, childKeys, childEntries, List.map_cons, List.map_cons, List.cons_append,
      List.map_cons, iterateChildren, if_neg k.2, here, below]
    simp

end

structure Insertion (V : Type) where
  key : List Letter
  value : Option V

/-- The value that was inserted last for the key; NULL where none was. -/
def lastInserted (calls : List (Insertion V)) (key : List Letter) : Option V :=
  (calls.reverse.find? fun call => call.key = key).bind Insertion.value

def trieAfter (root : TrieNode V) (calls : List (Insertion V)) : TrieNode V :=
  calls.foldl (fun node call => (trieInsert call.key (fun _ => true) node call.value).node) root

def treeAfter (calls : List (Insertion V)) : Tree Letter V :=
  calls.foldl (fun t call => PrefixTree.set call.value call.key t) empty

theorem lastInserted_concat (calls : List (Insertion V)) (call : Insertion V)
    (key : List Letter) :
    lastInserted (calls ++ [call]) key =
      if key = call.key then call.value else lastInserted calls key := by
  by_cases same : call.key = key
  · simp [lastInserted, same]
  · simp [lastInserted, same, Ne.symm same]

theorem get_treeAfter (calls : List (Insertion V)) (key : List Letter) :
    PrefixTree.get key (treeAfter calls) = lastInserted calls key := by
  induction calls using List.reverseRecOn with
  | nil => exact get_empty key
  | append_singleton calls call ih =>
    rw [treeAfter, List.foldl_append, lastInserted_concat, ← ih]
    exact get_set call.value call.key (treeAfter calls) key

theorem distinct_treeAfter (calls : List (Insertion V)) : Distinct (treeAfter calls) := by
  induction calls using List.reverseRecOn with
  | nil => exact distinct_empty
  | append_singleton calls call ih =>
    rw [treeAfter, List.foldl_append]
    exact distinct_set call.value call.key ih

theorem trieAfter_layout (calls : List (Insertion V)) :
    trieAfter (freshNode 0 none) calls = layout 0 (treeAfter calls) := by
  induction calls using List.reverseRecOn with
  | nil => exact (layout_empty 0).symm
  | append_singleton calls call ih =>
    have step := (trieInsert_layout call.key 0 (treeAfter calls) call.value).1
    rw [trieAfter] at ih
    rw [trieAfter, treeAfter, List.foldl_append, List.foldl_append, ih]
    exact step

/-- The call stores nothing outside of its arrays, which would leave the rest undefined, and
returns 0 with this in `*old_value_ptr`. -/
def Returns (inserted : Inserted V) (old : Option V) : Prop :=
  (∀ s ∈ inserted.stores, s.Within) ∧ inserted.outcome = .returned old

/-- What the calls hand back, and what can be found and visited behind them. -/
structure IsMap (root : TrieNode V) (calls : List (Insertion V)) : Prop where
  handsBack : ∀ before call, before ++ [call] <+: calls →
    Returns (trieInsert call.key (fun _ => true) (trieAfter root before) call.value)
      (lastInserted before call.key)
  finds : ∀ key, trieSearch key (trieAfter root calls) = some (lastInserted calls key)
  visits : ∃ keys : List (List Letter), keys.Nodup ∧
    (∀ key, key ∈ keys ↔ lastInserted calls key ≠ none) ∧
    iterateTrie (trieAfter root calls) = some (keys.filterMap (lastInserted calls))

theorem trieInsert_outcome (before : List (Insertion V)) (call : Insertion V) :
    (trieInsert call.key (fun _ => true) (trieAfter (freshNode 0 none) before)
      call.value).outcome = .returned (lastInserted before call.key) := by
  rw [trieAfter_layout, ← get_treeAfter]
  exact (trieInsert_layout call.key 0 (treeAfter before) call.value).2

theorem trieSearch_trieAfter (calls : List (Insertion V)) (key : List Letter) :
    trieSearch key (trieAfter (freshNode 0 none) calls) = some (lastInserted calls key) := by
  rw [trieAfter_layout, trieSearch_layout, get_treeAfter]

theorem visits_entries (calls : List (Insertion V)) :
    ((entries (treeAfter calls)).map Prod.fst).filterMap (lastInserted calls) =
      (entries (treeAfter calls)).map Prod.snd := by
  rw [List.filterMap_map]
  have all : ∀ e ∈ entries (treeAfter calls), lastInserted calls e.1 = some e.2 := by
    intro e he
    rw [← get_treeAfter]
    exact (mem_entries _ (distinct_treeAfter calls) e.1 e.2).1 he
  rw [← List.filterMap_eq_map]
  exact List.filterMap_congr fun e he => all e he

theorem iterateTrie_trieAfter (calls : List (Insertion V)) :
    ∃ keys : List (List Letter), keys.Nodup ∧
      (∀ key, key ∈ keys ↔ lastInserted calls key ≠ none) ∧
      iterateTrie (trieAfter (freshNode 0 none) calls) =
        some (keys.filterMap (lastInserted calls)) := by
  have distinct := distinct_treeAfter calls
  refine ⟨(entries (treeAfter calls)).map Prod.fst, entries_nodup _ distinct, fun key => ?_, ?_⟩
  · rw [← get_treeAfter, Option.ne_none_iff_exists', List.mem_map]
    constructor
    · intro mem
      obtain ⟨e, he, eq⟩ := mem
      exact ⟨e.2, eq ▸ (mem_entries _ distinct e.1 e.2).1 he⟩
    · intro found
      obtain ⟨v, hv⟩ := found
      exact ⟨(key, v), (mem_entries _ distinct key v).2 hv, rfl⟩
  · rw [trieAfter_layout, iterateTrie_layout, visits_entries]

theorem trieInsert_absent_overruns (c : UInt8) (value new : Option V) {children : Children V}
    {k : Letter} (h : k ∉ children.map Prod.fst) (key : List Letter) :
    ∃ s ∈ (trieInsert (k :: key) (fun _ => true) (layout c (.node value children)) new).stores,
      ¬ s.Within := by
  have appended := append_layout (fun _ => true) rfl rfl c value children k empty
  rw [trieInsert, findChild_missing c value h, newNode_ok]
  simp only [appended]
  exact ⟨⟨children.length + 1, children.length + 1⟩, by simp, Nat.lt_irrefl _⟩

theorem treeAfter_of_empty_keys {calls : List (Insertion V)} (h : ∀ call ∈ calls, call.key = []) :
    ∃ value, treeAfter calls = .node value [] := by
  induction calls using List.reverseRecOn with
  | nil => exact ⟨none, rfl⟩
  | append_singleton calls call ih =>
    obtain ⟨value, before⟩ := ih fun other hother => h other (by simp [hother])
    refine ⟨call.value, ?_⟩
    rw [treeAfter, List.foldl_append, ← treeAfter, before, List.foldl_cons, List.foldl_nil,
      h call (by simp), PrefixTree.set]

theorem empty_keys_of_within {calls : List (Insertion V)}
    (h : ∀ before call, before ++ [call] <+: calls →
      ∀ s ∈ (trieInsert call.key (fun _ => true) (trieAfter (freshNode 0 none) before)
        call.value).stores, s.Within) :
    ∀ call ∈ calls, call.key = [] := by
  induction calls using List.reverseRecOn with
  | nil => simp
  | append_singleton calls call ih =>
    have empties := ih fun before other hother => h before other (hother.trans (by simp))
    obtain ⟨value, bare⟩ := treeAfter_of_empty_keys empties
    have last : call.key = [] := by
      cases hkey : call.key with
      | nil => rfl
      | cons k key =>
        have within := h calls call (List.prefix_refl _)
        rw [trieAfter_layout, bare, hkey] at within
        obtain ⟨s, hs, outside⟩ :=
          trieInsert_absent_overruns 0 value call.value
            (show k ∉ ([] : Children V).map Prod.fst by simp) key
        exact absurd (within s hs) outside
    intro other hother
    rcases List.mem_append.1 hother with earlier | latest
    · exact empties other earlier
    · rw [List.mem_singleton.1 latest, last]

/-- A trie from new_trie is a map from keys to values exactly as long as it has no other key
than the empty one. -/
theorem isMap_iff {alloc : Nat → Bool} {root : TrieNode V} (h : newTrie alloc = some root)
    (calls : List (Insertion V)) : IsMap root calls ↔ ∀ call ∈ calls, call.key = [] := by
  rw [newTrie_eq h]
  constructor
  · intro isMap
    exact empty_keys_of_within fun before call hcall => (isMap.handsBack before call hcall).1
  · intro empties
    refine ⟨fun before call hcall => ⟨?_, trieInsert_outcome before call⟩,
      trieSearch_trieAfter calls, iterateTrie_trieAfter calls⟩
    have hkey : call.key = [] := empties call (hcall.subset (by simp))
    rw [hkey]
    simp [trieInsert]

theorem isMap_iff_sample :
    IsMap (freshNode 0 none) ([⟨[], some 1⟩, ⟨[], none⟩] : List (Insertion Nat)) ↔
      ∀ call ∈ ([⟨[], some 1⟩, ⟨[], none⟩] : List (Insertion Nat)), call.key = [] :=
  isMap_iff (show newTrie (fun _ => true) = some (freshNode 0 none) from rfl) _

theorem first_key_not_mapped :
    ¬ IsMap (freshNode 0 none) ([⟨[⟨97, by decide⟩], some 1⟩] : List (Insertion Nat)) := by
  intro isMap
  have returns := isMap.handsBack [] ⟨[⟨97, by decide⟩], some 1⟩ (List.prefix_refl _)
  have within := returns.1 ⟨1, 1⟩ (by decide)
  exact absurd within (by decide)

end RsServe.TrieMap

import RsServe.Trie

/-! The sizes of the arrays of trie.c: where append stores, and whether childkeys ends
inside its allocation. -/

namespace RsServe.TrieArrays
open Blocks Trie

variable {V : Type}

structure Call (V : Type) where
  key : List Letter
  value : Option V
  alloc : Nat → Bool

/-- Calls of trie_insert one after another, up to one that follows NULL or reads what was
never stored. -/
def runCalls : TrieNode V → List (Call V) → List (Inserted V)
  | _, [] => []
  | node, call :: calls =>
    let inserted := trieInsert call.key call.alloc node call.value
    inserted :: match inserted.outcome with
      | .fault => []
      | _ => runCalls inserted.node calls

theorem runCalls_alive {node : TrieNode V} {call : Call V}
    (alive : (trieInsert call.key call.alloc node call.value).outcome ≠ .fault)
    (calls : List (Call V)) :
    runCalls node (call :: calls) =
      trieInsert call.key call.alloc node call.value ::
        runCalls (trieInsert call.key call.alloc node call.value).node calls := by
  rw [runCalls]
  split
  · contradiction
  · rfl

inductive Below (root : TrieNode V) : TrieNode V → Prop where
  | root : Below root root
  | child {node child : TrieNode V} {children : Block (TrieNode V)} {i : Nat} :
      Below root node → node.children = some children → children.load i = some child →
      Below root child

def Terminated (node : TrieNode V) : Prop :=
  ∃ childkeys, node.childkeys = some childkeys ∧ some 0 ∈ childkeys.cells.take childkeys.size

structure InBounds (inserted : Inserted V) : Prop where
  within : ∀ s ∈ inserted.stores, s.Within
  terminated : ∀ node, Below inserted.node node → Terminated node

theorem append_overruns (alloc : Nat → Bool) {parent : TrieNode V} {len : Nat}
    (hlen : (parent.childkeys.bind fun childkeys => strlen childkeys.cells) = some len)
    (first : alloc 0 = true) (second : alloc 1 = true) (child : TrieNode V) :
    ∃ appended, append alloc parent child = some appended ∧ appended.index = some len ∧
      ∃ s ∈ appended.stores, ¬ s.Within := by
  refine ⟨_, append_grown hlen first second child, rfl, ⟨len + 1, len + 1⟩, ?_, Nat.lt_irrefl _⟩
  simp

structure Bare (node : TrieNode V) : Prop where
  childkeys : node.childkeys = some (holding 1 [0])
  children : node.children = none ∨ node.children = some (malloc 1)

theorem Bare.below {node other : TrieNode V} (h : Bare node) (below : Below node other) :
    other = node := by
  induction below with
  | root => rfl
  | child _ hchildren hload same =>
    rw [same] at hchildren
    rcases h.children with null | fresh
    · rw [null] at hchildren
      simp at hchildren
    · rw [fresh] at hchildren
      rw [← Option.some.inj hchildren] at hload
      simp [malloc, Block.load] at hload

theorem Bare.terminated {node : TrieNode V} (h : Bare node) {other : TrieNode V}
    (below : Below node other) : Terminated other := by
  rw [h.below below]
  exact ⟨holding 1 [0], h.childkeys, by simp [holding]⟩

theorem Bare.findChild {node : TrieNode V} (h : Bare node) (c : Letter) :
    findChild node c = .missing := by
  rw [Trie.findChild, h.childkeys]
  rfl

theorem Bare.strlen {node : TrieNode V} (h : Bare node) :
    (node.childkeys.bind fun childkeys => Trie.strlen childkeys.cells) = some 0 := by
  rw [h.childkeys]
  rfl

theorem bare_freshNode : Bare (freshNode 0 none : TrieNode V) := ⟨rfl, Or.inr rfl⟩

/-- No child is appended: there is nothing to append, or memory runs out before childkeys
is grown. -/
def Harmless (call : Call V) : Prop := call.key = [] ∨ ∃ i, i < 4 ∧ call.alloc i = false

theorem Bare.harmless {node : TrieNode V} (h : Bare node) {call : Call V}
    (hcall : Harmless call) :
    InBounds (trieInsert call.key call.alloc node call.value) ∧
      Bare (trieInsert call.key call.alloc node call.value).node ∧
      (trieInsert call.key call.alloc node call.value).outcome ≠ .fault := by
  obtain ⟨key, value, alloc⟩ := call
  cases key with
  | nil =>
    have bare : Bare { node with value := value } := ⟨h.childkeys, h.children⟩
    exact ⟨⟨by simp [trieInsert], fun _ below => bare.terminated below⟩, bare, by simp [trieInsert]⟩
  | cons c key =>
    obtain ⟨i, hi, refused⟩ := hcall.resolve_left (by simp)
    rw [trieInsert, h.findChild c]
    by_cases made : alloc 0 ∧ alloc 1 ∧ alloc 2
    · have third : alloc 3 = false := by
        have position : i = 0 ∨ i = 1 ∨ i = 2 ∨ i = 3 := by omega
        rcases position with rfl | rfl | rfl | rfl
        · simp [made.1] at refused
        · simp [made.2.1] at refused
        · simp [made.2.2] at refused
        · exact refused
      have bare : Bare { node with children := none } := ⟨h.childkeys, Or.inl rfl⟩
      simp only [newNode, if_pos made]
      rw [append_no_children h.strlen third]
      refine ⟨⟨?_, fun _ below => bare.terminated below⟩, bare, by simp⟩
      intro s hs
      rw [List.mem_singleton.1 hs]
      exact Nat.one_pos
    · simp only [newNode, if_neg made]
      exact ⟨⟨by simp, fun _ below => h.terminated below⟩, h, by simp⟩

theorem Bare.harmful {node : TrieNode V} (h : Bare node) {call : Call V}
    (hcall : ¬ Harmless call) :
    ¬ InBounds (trieInsert call.key call.alloc node call.value) := by
  obtain ⟨key, value, alloc⟩ := call
  cases key with
  | nil => exact absurd (Or.inl rfl) hcall
  | cons c key =>
    have given : ∀ i, i < 4 → alloc i = true := by
      intro i hi
      by_contra refused
      exact hcall (Or.inr ⟨i, hi, by simpa using refused⟩)
    have made : alloc 0 ∧ alloc 1 ∧ alloc 2 :=
      ⟨given 0 (by decide), given 1 (by decide), given 2 (by decide)⟩
    rw [trieInsert, h.findChild c]
    simp only [newNode, if_pos made]
    intro inBounds
    by_cases second : alloc 4 = true
    · obtain ⟨appended, eq, hindex, s, hs, outside⟩ :=
        append_overruns (fun i => alloc (i + 3)) h.strlen (given 3 (by decide)) second
          (freshNode c none)
      rw [eq] at inBounds
      simp only [hindex] at inBounds
      exact outside (inBounds.within s (by simp [hs]))
    · rw [append_no_childkeys h.strlen (given 3 (by decide)) (by simpa using second)] at inBounds
      obtain ⟨childkeys, eq, _⟩ := inBounds.terminated _ .root
      simp at eq

theorem Bare.inBounds_iff {node : TrieNode V} (h : Bare node) (calls : List (Call V)) :
    (∀ inserted ∈ runCalls node calls, InBounds inserted) ↔ ∀ call ∈ calls, Harmless call := by
  induction calls generalizing node with
  | nil => simp [runCalls]
  | cons call calls ih =>
    by_cases hcall : Harmless call
    · obtain ⟨here, bare, alive⟩ := h.harmless hcall
      rw [runCalls_alive alive, List.forall_mem_cons, List.forall_mem_cons, ih bare]
      simp only [here, hcall, true_and]
    · have here := h.harmful hcall
      simp only [runCalls, List.forall_mem_cons, here, hcall, false_and]

/-- All calls keep to the arrays exactly where no key is appended. -/
theorem runCalls_inBounds_iff {alloc : Nat → Bool} {root : TrieNode V} (h : newTrie alloc = some root)
    (calls : List (Call V)) :
    (∀ inserted ∈ runCalls root calls, InBounds inserted) ↔ ∀ call ∈ calls, Harmless call := by
  rw [newTrie_eq h]
  exact bare_freshNode.inBounds_iff calls

theorem inBounds_empty_key :
    (∀ inserted ∈ runCalls (freshNode 0 (none : Option Nat))
        [⟨[], some 1, fun _ => true⟩, ⟨[⟨97, by decide⟩], some 2, (· < 3)⟩],
      InBounds inserted) ↔
      ∀ call ∈ ([⟨[], some 1, fun _ => true⟩, ⟨[⟨97, by decide⟩], some 2, (· < 3)⟩] :
        List (Call Nat)), Harmless call :=
  runCalls_inBounds_iff (show newTrie (fun _ => true) = some (freshNode 0 none) from rfl) _

theorem first_key_overruns :
    ¬ ∀ inserted ∈ runCalls (freshNode 0 (none : Option Nat))
      [⟨[⟨97, by decide⟩], some 1, fun _ => true⟩], InBounds inserted := by
  intro inBounds
  have within := (inBounds _ List.mem_cons_self).within ⟨1, 1⟩ (by decide)
  exact absurd within (by decide)

end RsServe.TrieArrays

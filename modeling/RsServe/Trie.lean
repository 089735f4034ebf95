import RsServe.Blocks
import RsServe.CString

/-! trie.c: nodes with their two arrays, the pointers that may be NULL, and every store. -/

namespace RsServe.Trie
open Blocks

abbrev Letter := {c : UInt8 // c ≠ 0}

/-- A node. The pointer to an array is none where it is NULL; the value is a pointer, too. -/
structure TrieNode (V : Type) where
  key : UInt8
  childkeys : Option (Block UInt8)
  children : Option (Block (TrieNode V))
  value : Option V

variable {V : Type}

def freshNode (key : UInt8) (value : Option V) : TrieNode V :=
  ⟨key, some ((malloc 1).store 0 0), some (malloc 1), value⟩

/-- new_node, with the store behind its three calls of malloc. -/
def newNode (alloc : Nat → Bool) (key : UInt8) (value : Option V) :
    Option (TrieNode V × List Store) :=
  if alloc 0 ∧ alloc 1 ∧ alloc 2 then some (freshNode key value, [(malloc 1 : Block UInt8).slot 0])
  else none

def newTrie (alloc : Nat → Bool) : Option (TrieNode V) := (newNode alloc 0 none).map Prod.fst

theorem newTrie_eq {alloc : Nat → Bool} {root : TrieNode V} (h : newTrie alloc = some root) :
    root = freshNode 0 none := by
  rw [newTrie, newNode] at h
  split_ifs at h with given
  · exact (Option.some.inj h).symm
  · simp at h

/-- strlen of an array; none where it would read a byte that was never stored. -/
def strlen : List (Option UInt8) → Option Nat
  | some c :: cells => if c = 0 then some 0 else (strlen cells).map (· + 1)
  | _ => none

structure Appended (V : Type) where
  parent : TrieNode V
  stores : List Store
  /-- Where the child is in the array, none where a realloc failed. -/
  index : Option Nat

/-- append; none where childkeys is no string. A realloc that fails leaves NULL behind. -/
def append (alloc : Nat → Bool) (parent child : TrieNode V) : Option (Appended V) :=
  match parent.childkeys.bind fun childkeys => strlen childkeys.cells with
  | none => none
  | some len =>
    let children := realloc parent.children (len + 1)
    let childkeys := realloc parent.childkeys (len + 1)
    if ¬ alloc 0 then some ⟨{ parent with children := none }, [], none⟩
    else if ¬ alloc 1 then
      some ⟨{ parent with children := some children, childkeys := none }, [], none⟩
    else
      some {
        parent := { parent with
          children := some (children.store len child)
          childkeys := some ((childkeys.store len child.key).store (len + 1) 0) }
        stores := [children.slot len, childkeys.slot len, childkeys.slot (len + 1)]
        index := some len }

section Append
variable {alloc : Nat → Bool} {parent : TrieNode V} {len : Nat}
  (hlen : (parent.childkeys.bind fun childkeys => strlen childkeys.cells) = some len)
include hlen

theorem append_no_children (first : alloc 0 = false) (child : TrieNode V) :
    append alloc parent child = some ⟨{ parent with children := none }, [], none⟩ := by
  simp [append, hlen, first]

theorem append_no_childkeys (first : alloc 0 = true) (second : alloc 1 = false)
    (child : TrieNode V) :
    append alloc parent child =
      some ⟨{ parent with children := some (realloc parent.children (len + 1)), childkeys := none },
        [], none⟩ := by
  simp [append, hlen, first, second]

theorem append_grown (first : alloc 0 = true) (second : alloc 1 = true) (child : TrieNode V) :
    append alloc parent child =
      some {
        parent := { parent with
          children := some ((realloc parent.children (len + 1)).store len child)
          childkeys := some
            (((realloc parent.childkeys (len + 1)).store len child.key).store (len + 1) 0) }
        stores := [⟨len + 1, len⟩, ⟨len + 1, len⟩, ⟨len + 1, len + 1⟩]
        index := some len } := by
  simp [append, hlen, first, second, Block.slot, realloc_size]

end Append

inductive Found (V : Type) where
  /-- NULL is read, or something that was never stored. -/
  | fault
  | missing
  | found (i : Nat) (child : TrieNode V)

def findFrom (children : Option (Block (TrieNode V))) (key : UInt8) :
    Nat → List (Option UInt8) → Found V
  | i, some c :: cells =>
    if c = 0 then .missing
    else if c = key then
      match children.bind fun children => children.load i with
      | some child => .found i child
      | none => .fault
    else findFrom children key (i + 1) cells
  | _, _ => .fault

def findChild (node : TrieNode V) (key : UInt8) : Found V :=
  match node.childkeys with
  | none => .fault
  | some childkeys => findFrom node.children key 0 childkeys.cells

def TrieNode.setChild (node : TrieNode V) (i : Nat) (child : TrieNode V) : TrieNode V :=
  { node with children := node.children.map fun children => children.store i child }

inductive Outcome (V : Type) where
  | fault
  /-- -1 -/
  | failed
  /-- 0, with the value that was there in `*old_value_ptr` -/
  | returned (old : Option V)
deriving DecidableEq

structure Inserted (V : Type) where
  node : TrieNode V
  stores : List Store
  outcome : Outcome V

/-- trie_insert, whose recursive call passes old_value_ptr on. `alloc` tells which of the
calls of malloc and realloc give memory, in their order. -/
def trieInsert : List Letter → (Nat → Bool) → TrieNode V → Option V → Inserted V
  | [], _, parent, value => ⟨{ parent with value := value }, [], .returned parent.value⟩
  | c :: key, alloc, parent, value =>
    match findChild parent c with
    | .fault => ⟨parent, [], .fault⟩
    | .found i child =>
      let below := trieInsert key alloc child value
      ⟨parent.setChild i below.node, below.stores, below.outcome⟩
    | .missing =>
      match newNode alloc c none with
      | none => ⟨parent, [], .failed⟩
      | some (child, made) =>
        match append (fun i => alloc (i + 3)) parent child with
        | none => ⟨parent, made, .fault⟩
        | some appended =>
          match appended.index with
          | none => ⟨appended.parent, made, .failed⟩
          | some i =>
            let below := trieInsert key (fun i => alloc (i + 5)) child value
            ⟨appended.parent.setChild i below.node, made ++ appended.stores ++ below.stores,
              below.outcome⟩

/-- trie_search; none where NULL or a pointer that was never stored is followed. -/
def trieSearch : List Letter → TrieNode V → Option (Option V)
  | [], parent => some parent.value
  | c :: key, parent =>
    match findChild parent c with
    | .fault => none
    | .missing => some none
    | .found _ child => trieSearch key child

/-- Nothing more is called behind the NUL of childkeys. -/
def iterateEnd (childkeys : List (Option UInt8)) : Option (List V) :=
  if childkeys.head? = some (some 0) then some [] else none

mutual

/-- iterate_trie: the values that the callback gets, in order. -/
def iterateTrie : TrieNode V → Option (List V)
  | ⟨_, none, _, _⟩ => none
  | ⟨_, some childkeys, none, value⟩ => (iterateEnd childkeys.cells).map (value.toList ++ ·)
  | ⟨_, some childkeys, some ⟨_, children⟩, value⟩ =>
    (iterateChildren children childkeys.cells).map (value.toList ++ ·)

def iterateChildren : List (Option (TrieNode V)) → List (Option UInt8) → Option (List V)
  | some child :: children, some c :: childkeys =>
    if c = 0 then some []
    else (iterateTrie child).bind fun called =>
      (iterateChildren children childkeys).map (called ++ ·)
  | _, childkeys => iterateEnd childkeys

end

end RsServe.Trie

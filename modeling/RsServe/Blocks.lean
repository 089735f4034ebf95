import Mathlib.Data.List.TakeDrop

/-! Heap blocks: the size they were allocated with, and what is stored in them. -/

namespace RsServe.Blocks

variable {α : Type*}

structure Store where
  size : Nat
  index : Nat
deriving DecidableEq

def Store.Within (s : Store) : Prop := s.index < s.size

instance (s : Store) : Decidable s.Within := inferInstanceAs (Decidable (_ < _))

/-- A store behind the size leaves the rest of a program undefined. Here it stays where it
was put, as in a block with room to spare, and is not copied by realloc. Where nothing was
stored there is `none`. -/
structure Block (α : Type*) where
  size : Nat
  cells : List (Option α)

def malloc (size : Nat) : Block α := ⟨size, []⟩

namespace Block

def slot (b : Block α) (i : Nat) : Store := ⟨b.size, i⟩

def store (b : Block α) (i : Nat) (a : α) : Block α :=
  { b with cells := b.cells.takeD i none ++ some a :: b.cells.drop (i + 1) }

def load (b : Block α) (i : Nat) : Option α := (b.cells[i]?).join

end Block

/-- realloc of a pointer, which may be NULL. -/
def realloc (b : Option (Block α)) (size : Nat) : Block α :=
  match b with
  | none => malloc size
  | some b => ⟨size, b.cells.take (min b.size size)⟩

theorem realloc_size (b : Option (Block α)) (size : Nat) : (realloc b size).size = size := by
  cases b <;> rfl

def holding (size : Nat) (l : List α) : Block α := ⟨size, l.map some⟩

theorem load_holding (size : Nat) (l : List α) (i : Nat) : (holding size l).load i = l[i]? := by
  rw [Block.load, holding, List.getElem?_map]
  cases l[i]? <;> rfl

theorem store_holding (size : Nat) (front back : List α) (a : α) :
    (holding size (front ++ back)).store front.length a =
      holding size (front ++ a :: back.drop 1) := by
  have before : ((front ++ back).map some).takeD front.length none = front.map some := by
    rw [List.takeD_eq_take none (by simp), List.map_append, List.take_left' (by simp)]
  have behind : ((front ++ back).map some).drop (front.length + 1) = (back.drop 1).map some := by
    rw [List.map_append, List.drop_append, List.drop_of_length_le (by simp), List.length_map,
      Nat.add_sub_cancel_left, List.nil_append, List.map_drop]
  rw [Block.store, holding, before, behind, holding]
  simp

theorem store_end (size : Nat) (l : List α) (a : α) :
    (holding size l).store l.length a = holding size (l ++ [a]) := by
  have stored := store_holding size l [] a
  rw [List.append_nil] at stored
  exact stored

theorem realloc_holding (size : Nat) (front back : List α) {new : Nat}
    (hsize : front.length ≤ size) (hnew : front.length ≤ new) :
    realloc (some (holding size (front ++ back))) new =
      holding new (front ++ back.take (min size new - front.length)) := by
  have kept : (front ++ back).take (min size new) =
      front ++ back.take (min size new - front.length) := by
    rw [List.take_append, List.take_of_length_le (Nat.le_min.2 ⟨hsize, hnew⟩)]
  rw [realloc, holding, holding, ← List.map_take, kept]

theorem grow_holding (size : Nat) (l extra : List α) (hsize : l.length ≤ size)
    (hextra : extra.length ≤ 1) (a : α) :
    (realloc (some (holding size (l ++ extra))) (l.length + 1)).store l.length a =
      holding (l.length + 1) (l ++ [a]) := by
  have none : ∀ n, (extra.take n).drop 1 = [] := by
    intro n
    refine List.drop_of_length_le ?_
    rw [List.length_take]
    omega
  rw [realloc_holding size l extra hsize (Nat.le_succ _), store_holding, none]

end RsServe.Blocks

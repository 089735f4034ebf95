import RsServe.AssocList
import RsServe.CString

/-! Ordinary JavaScript objects: own properties in the order of their creation, and
the properties that an object literal inherits. JavaScript itself goes through names that
read as array indices first. -/

namespace RsServe.JavaScript
open CString

/-- The own properties of an object that started as a literal. -/
abbrev JsObject (β : Type) := List (Bytes × β)

/-- Names that Object.prototype has itself. -/
def objectPrototype : List Bytes :=
  [str "constructor", str "__proto__", str "__defineGetter__", str "__defineSetter__",
    str "__lookupGetter__", str "__lookupSetter__", str "hasOwnProperty", str "isPrototypeOf",
    str "propertyIsEnumerable", str "toLocaleString", str "toString", str "valueOf"]

inductive Property (β : Type) where
  | own (value : β)
  /-- A function or an object, so it counts as true. -/
  | inherited
  | undefined
deriving DecidableEq

variable {β : Type}

/-- `obj[key]` -/
def index (obj : JsObject β) (key : Bytes) : Property β :=
  match obj.lookup key with
  | some value => .own value
  | none => if key ∈ objectPrototype then .inherited else .undefined

theorem index_cases (obj : JsObject β) (key : Bytes) :
    (∃ value, obj.lookup key = some value ∧ index obj key = .own value) ∨
      obj.lookup key = none ∧ key ∈ objectPrototype ∧ index obj key = .inherited ∨
      obj.lookup key = none ∧ key ∉ objectPrototype ∧ index obj key = .undefined := by
  unfold index
  cases obj.lookup key with
  | some value => exact Or.inl ⟨value, rfl, rfl⟩
  | none =>
    by_cases hkey : key ∈ objectPrototype
    · exact Or.inr (Or.inl ⟨rfl, hkey, if_pos hkey⟩)
    · exact Or.inr (Or.inr ⟨rfl, hkey, if_neg hkey⟩)

end RsServe.JavaScript

import Mathlib.Logic.Function.Basic
import RsServe.JsonWriter

/-! The stack of nestings of json.c with its pointer, over sequences of calls. -/

namespace RsServe.JsonNesting
open CString
open JsonWriter (makeString comma maxDepth)

/-- `sp` is counted from `ss` on, and so are the cells, also those that are not in `ss`. -/
structure Json where
  out : Bytes
  cells : Int → UInt8
  sp : Int

/-- new_json leaves the cells as malloc found them. -/
def newJson (out : Bytes) (cells : Int → UInt8) : Json := ⟨out, cells, 0⟩

namespace Json

def write (json : Json) (text : Bytes) : Json := { json with out := json.out ++ text }

def setTop (json : Json) (c : UInt8) : Json :=
  { json with cells := Function.update json.cells json.sp c }

/-- JSON_PUSH_NESTING -/
def push (json : Json) : Json :=
  if json.sp + 1 ≥ maxDepth then json else { json with sp := json.sp + 1 }.setTop 0

/-- JSON_POP_NESTING -/
def pop (json : Json) : Json := { json with sp := json.sp - 1 }

def startArray (json : Json) : Json := (json.write [91]).push.setTop 0

def endArray (json : Json) : Json := (json.write [93]).pop

def startObject (json : Json) : Json := (json.write [123]).push

def endObject (json : Json) : Json := (json.write [125]).pop

def writeString (json : Json) (string : Bytes) : Json := json.write (makeString string)

def writeKey (json : Json) (key : Bytes) : Json :=
  let begun :=
    if json.cells json.sp = 1 then json.write [comma]
    else if json.cells json.sp = 0 then json.setTop 1
    else json
  (begun.writeString key).write [colon]

end Json

inductive Container where
  | object
  | array
deriving DecidableEq

inductive Call where
  | start (c : Container)
  | finish (c : Container)
  | writeKey (key : Bytes)
  | writeString (string : Bytes)
deriving DecidableEq

def Json.call (json : Json) : Call → Json
  | .start .object => json.startObject
  | .start .array => json.startArray
  | .finish .object => json.endObject
  | .finish .array => json.endArray
  | .writeKey key => json.writeKey key
  | .writeString string => json.writeString string

def Json.run (json : Json) (calls : List Call) : Json := calls.foldl Json.call json

inductive WellNested : List Call → Prop where
  | nil : WellNested []
  | key (key : Bytes) {calls : List Call} : WellNested calls → WellNested (.writeKey key :: calls)
  | string (string : Bytes) {calls : List Call} :
      WellNested calls → WellNested (.writeString string :: calls)
  | container (c : Container) {inner calls : List Call} :
      WellNested inner → WellNested calls → WellNested (.start c :: (inner ++ .finish c :: calls))

def Call.opens : Call → Int
  | .start _ => 1
  | .finish _ => -1
  | .writeKey _ => 0
  | .writeString _ => 0

def opened : List Call → Int
  | [] => 0
  | call :: calls => call.opens + opened calls

structure Balanced (json : Json) (calls : List Call) : Prop where
  within : ∀ before, before <+: calls →
    0 ≤ (json.run before).sp ∧ (json.run before).sp < maxDepth
  restored : ∀ before c inner after,
    calls = before ++ .start c :: (inner ++ .finish c :: after) → WellNested inner →
    (json.run (before ++ .start c :: (inner ++ [.finish c]))).sp = (json.run before).sp

theorem write_sp (json : Json) (text : Bytes) : (json.write text).sp = json.sp := rfl

theorem setTop_sp (json : Json) (c : UInt8) : (json.setTop c).sp = json.sp := rfl

theorem setTop_cells (json : Json) (c : UInt8) (i : Int) :
    (json.setTop c).cells i = if i = json.sp then c else json.cells i :=
  Function.update_apply json.cells json.sp c i

theorem push_sp (json : Json) :
    json.push.sp = if json.sp + 1 ≥ maxDepth then json.sp else json.sp + 1 := by
  rw [Json.push]
  by_cases full : json.sp + 1 ≥ maxDepth
  · rw [if_pos full, if_pos full]
  · rw [if_neg full, if_neg full, setTop_sp]

theorem start_sp (json : Json) (c : Container) :
    (json.call (.start c)).sp = if json.sp + 1 ≥ maxDepth then json.sp else json.sp + 1 := by
  cases c with
  | object => exact push_sp (json.write [123])
  | array => exact push_sp (json.write [91])

theorem finish_sp (json : Json) (c : Container) : (json.call (.finish c)).sp = json.sp - 1 := by
  cases c <;> rfl

theorem writeKey_sp (json : Json) (key : Bytes) : (json.call (.writeKey key)).sp = json.sp := by
  simp only [Json.call, Json.writeKey, Json.writeString, write_sp]
  split_ifs <;> rfl

theorem writeString_sp (json : Json) (string : Bytes) :
    (json.call (.writeString string)).sp = json.sp := rfl

theorem call_sp {json : Json} {call : Call} (room : json.sp + call.opens < maxDepth) :
    (json.call call).sp = json.sp + call.opens := by
  cases call with
  | start c => rw [start_sp, if_neg (by simpa [Call.opens] using room), Call.opens]
  | finish c => rw [finish_sp, Call.opens, Int.sub_eq_add_neg]
  | writeKey key => rw [writeKey_sp, Call.opens, Int.add_zero]
  | writeString string => rw [writeString_sp, Call.opens, Int.add_zero]

theorem run_append (json : Json) (a b : List Call) : json.run (a ++ b) = (json.run a).run b :=
  List.foldl_append

theorem run_concat (json : Json) (calls : List Call) (call : Call) :
    json.run (calls ++ [call]) = (json.run calls).call call :=
  run_append json calls [call]

theorem opened_append (a b : List Call) : opened (a ++ b) = opened a + opened b := by
  induction a with
  | nil => simp [opened]
  | cons call a ih => rw [List.cons_append, opened, opened, ih, Int.add_assoc]

theorem opened_concat (calls : List Call) (call : Call) :
    opened (calls ++ [call]) = opened calls + call.opens := by
  rw [opened_append, opened, opened, Int.add_zero]

theorem WellNested.opened_eq {calls : List Call} (h : WellNested calls) : opened calls = 0 := by
  induction h with
  | nil => rfl
  | key key _ ih => rw [opened, ih, Call.opens, Int.add_zero]
  | string string _ ih => rw [opened, ih, Call.opens, Int.add_zero]
  | container c _ _ inner rest =>
    rw [opened, opened_append, opened, inner, rest, Call.opens, Call.opens]
    rfl

theorem WellNested.opened_nonneg {calls : List Call} (h : WellNested calls) {before : List Call}
    (hbefore : before <+: calls) : 0 ≤ opened before := by
  induction h generalizing before with
  | nil => simp [List.prefix_nil.1 hbefore, opened]
  | key key _ ih | string key _ ih =>
    rcases List.prefix_cons_iff.1 hbefore with none | more
    · simp [none, opened]
    · obtain ⟨tail, eq, htail⟩ := more
      have rest := ih htail
      rw [eq, opened, Call.opens]
      omega
  | container c hinner _ inner rest =>
    rcases List.prefix_cons_iff.1 hbefore with none | more
    · simp [none, opened]
    · obtain ⟨tail, eq, htail⟩ := more
      rw [eq, opened, Call.opens]
      rcases List.prefix_or_prefix_of_prefix htail (List.prefix_append _ _) with inside | outside
      · have := inner inside
        omega
      · obtain ⟨last, eq⟩ := outside
        rw [← eq, opened_append, hinner.opened_eq]
        rw [← eq, List.prefix_append_right_inj] at htail
        rcases List.prefix_cons_iff.1 htail with none | more
        · simp [none, opened]
        · obtain ⟨tail, eq, htail⟩ := more
          have := rest htail
          rw [eq, opened, Call.opens]
          omega

theorem WellNested.exists_finish {calls : List Call} (h : WellNested calls)
    {before after : List Call} {c : Container} (split : calls = before ++ .start c :: after) :
    ∃ inner rest, after = inner ++ .finish c :: rest ∧ WellNested inner := by
  induction h generalizing before after with
  | nil => simp at split
  | key key _ ih | string key _ ih =>
    cases before with
    | nil => simp at split
    | cons call before => exact ih (List.cons.inj split).2
  | @container d _ calls hinner _ inner rest =>
    cases before with
    | nil =>
      obtain ⟨same, eq⟩ := List.cons.inj split
      rw [Call.start.injEq] at same
      subst same
      exact ⟨_, _, eq.symm, hinner⟩
    | cons call before =>
      rcases List.append_eq_append_iff.1 (List.cons.inj split).2 with outside | inside
      · obtain ⟨last, _, eq⟩ := outside
        cases last with
        | nil => simp at eq
        | cons call last => exact rest (List.cons.inj eq).2
      · obtain ⟨last, eq, eqAfter⟩ := inside
        cases last with
        | nil => simp at eqAfter
        | cons call last =>
          obtain ⟨same, eqAfter⟩ := List.cons.inj eqAfter
          obtain ⟨deeper, behind, eqLast, nested⟩ := inner (by rw [eq, ← same])
          refine ⟨deeper, behind ++ .finish d :: calls, ?_, nested⟩
          change after = last ++ .finish d :: calls at eqAfter
          rw [eqAfter, eqLast, List.append_assoc, List.cons_append]

theorem run_sp {json : Json} (hsp : json.sp = 0) {calls : List Call}
    (room : ∀ before, before <+: calls → opened before < maxDepth) :
    (json.run calls).sp = opened calls := by
  induction calls using List.reverseRecOn with
  | nil => exact hsp
  | append_singleton calls call ih =>
    have before := ih fun p hp => room p (hp.trans (List.prefix_append calls [call]))
    have here := room _ (List.prefix_refl (calls ++ [call]))
    rw [opened_concat] at here ⊢
    rw [run_concat, call_sp (by rw [before]; exact here), before]

theorem balanced_of_room {json : Json} (hsp : json.sp = 0) {calls : List Call}
    (h : WellNested calls) (room : ∀ before, before <+: calls → opened before < maxDepth) :
    Balanced json calls := by
  have follows : ∀ before, before <+: calls → (json.run before).sp = opened before :=
    fun before hbefore => run_sp hsp fun p hp => room p (hp.trans hbefore)
  refine ⟨fun before hbefore => ?_, fun before c inner after split hinner => ?_⟩
  · rw [follows before hbefore]
    exact ⟨h.opened_nonneg hbefore, room before hbefore⟩
  · have start : before <+: calls := ⟨_, split.symm⟩
    have finish : before ++ .start c :: (inner ++ [.finish c]) <+: calls := ⟨after, by simp [split]⟩
    rw [follows _ start, follows _ finish, opened_append, opened, opened_concat,
      hinner.opened_eq, Call.opens, Call.opens]
    omega

theorem Balanced.run_inner {json : Json} {calls : List Call} (h : Balanced json calls)
    {inner : List Call} (hinner : WellNested inner) {before after : List Call}
    (split : calls = before ++ (inner ++ after)) :
    (json.run (before ++ inner)).sp = (json.run before).sp := by
  induction hinner generalizing before with
  | nil => rw [List.append_nil]
  | @key key inner _ ih =>
    have rest := @ih (before ++ [.writeKey key]) (by simp [split])
    rw [List.append_assoc, List.singleton_append, run_concat, writeKey_sp] at rest
    exact rest
  | @string string inner _ ih =>
    have rest := @ih (before ++ [.writeString string]) (by simp [split])
    rw [List.append_assoc, List.singleton_append, run_concat, writeString_sp] at rest
    exact rest
  | @container c deeper inner hdeeper _ _ ih =>
    have here := h.restored before c deeper (inner ++ after) (by simp [split]) hdeeper
    have rest := @ih (before ++ .start c :: (deeper ++ [.finish c])) (by simp [split])
    have regroup : before ++ .start c :: (deeper ++ [.finish c]) ++ inner =
        before ++ .start c :: (deeper ++ .finish c :: inner) := by simp
    rw [regroup, here] at rest
    exact rest

theorem Balanced.not_full {json : Json} {calls : List Call} (h : Balanced json calls)
    (nested : WellNested calls) {before after : List Call} {c : Container}
    (split : calls = before ++ .start c :: after) : (json.run before).sp + 1 < maxDepth := by
  by_contra full
  obtain ⟨inner, rest, eq, hinner⟩ := nested.exists_finish split
  have back := h.restored before c inner rest (by rw [split, eq]) hinner
  have around : calls = before ++ [.start c] ++ (inner ++ .finish c :: rest) := by
    simp [split, eq]
  have inside := h.run_inner hinner around
  have regroup : before ++ .start c :: (inner ++ [.finish c]) =
      before ++ [.start c] ++ inner ++ [.finish c] := by simp
  rw [run_concat, start_sp, if_pos (Int.not_lt.1 full)] at inside
  rw [regroup, run_concat, finish_sp, inside] at back
  omega

theorem Balanced.follows {json : Json} (hsp : json.sp = 0) {calls : List Call}
    (h : Balanced json calls) (nested : WellNested calls) {before : List Call}
    (hbefore : before <+: calls) :
    (json.run before).sp = opened before ∧ opened before < maxDepth := by
  induction before using List.reverseRecOn with
  | nil => exact ⟨hsp, by decide⟩
  | append_singleton before call ih =>
    obtain ⟨same, small⟩ := ih ((List.prefix_append before [call]).trans hbefore)
    have room : (json.run before).sp + call.opens < maxDepth := by
      cases call with
      | start c =>
        obtain ⟨after, split⟩ := hbefore
        rw [List.append_assoc, List.singleton_append] at split
        exact h.not_full nested split.symm
      | finish c =>
        rw [Call.opens]
        omega
      | writeKey key => rw [Call.opens, same, Int.add_zero]; exact small
      | writeString string => rw [Call.opens, same, Int.add_zero]; exact small
    rw [run_concat, call_sp room, opened_concat, same]
    rw [same] at room
    exact ⟨rfl, room⟩

/-- The stack is balanced as long as there are never more containers open than it has cells
besides the first one. -/
theorem nesting_balanced_iff (out : Bytes) (cells : Int → UInt8) {calls : List Call}
    (h : WellNested calls) :
    Balanced (newJson out cells) calls ↔
      ∀ before, before <+: calls → opened before < maxDepth := by
  constructor
  · intro balanced before hbefore
    exact (balanced.follows rfl h hbefore).2
  · exact balanced_of_room rfl h

theorem balanced_links :
    Balanced (newJson [] fun _ => 0) [.start .object, .writeKey (str "links"), .start .array,
        .start .object, .finish .object, .finish .array, .finish .object] ↔
      ∀ before, before <+: [.start .object, .writeKey (str "links"), .start .array,
        .start .object, .finish .object, .finish .array, .finish .object] →
        opened before < maxDepth :=
  nesting_balanced_iff [] (fun _ => 0) (.container .object (.key _ (.container .array
    (.container .object .nil .nil) .nil)) .nil)

theorem five_arrays_unbalanced :
    ¬ Balanced (newJson [] fun _ => 0)
      (List.replicate 5 (.start .array) ++ List.replicate 5 (.finish .array)) := by
  intro balanced
  have back := balanced.restored (List.replicate 4 (.start .array)) .array []
    (List.replicate 4 (.finish .array)) (by decide) .nil
  exact absurd back (by decide +kernel)

def flags (cells : Int → UInt8) : Nat → List Bool
  | 0 => []
  | n + 1 => (cells (n + 1) = 1) :: flags cells n

def Json.shown (json : Json) : JsonWriter.Json := ⟨json.out, flags json.cells json.sp.toNat⟩

def writerCall (json : JsonWriter.Json) : Call → JsonWriter.Json
  | .start .object => json.startObject
  | .start .array => json.startArray
  | .finish .object => json.endObject
  | .finish .array => json.endArray
  | .writeKey key => json.writeKey key
  | .writeString string => json.write (makeString string)

structure Json.Inside (json : Json) : Prop where
  low : 0 ≤ json.sp
  high : json.sp < maxDepth
  flag : ∀ i, 1 ≤ i → i ≤ json.sp → json.cells i = 0 ∨ json.cells i = 1

theorem flags_update {cells : Int → UInt8} {n : Nat} {i : Int} (h : n < i) (c : UInt8) :
    flags (Function.update cells i c) n = flags cells n := by
  induction n with
  | zero => rfl
  | succ n ih =>
    have other : ((n : Int) + 1) ≠ i := by omega
    rw [flags, flags, ih (by omega), Function.update_of_ne other]

theorem flags_length (cells : Int → UInt8) (n : Nat) : (flags cells n).length = n := by
  induction n with
  | zero => rfl
  | succ n ih => rw [flags, List.length_cons, ih]

theorem flags_setTop {json : Json} {n : Nat} (hsp : json.sp = n + 1) (c : UInt8) :
    (json.setTop c).shown =
      { json.shown with nesting := (c = 1) :: flags json.cells n } := by
  have top : json.sp.toNat = n + 1 := by omega
  have above : (n : Int) < json.sp := by omega
  have below : flags (Function.update json.cells json.sp c) n = flags json.cells n :=
    flags_update above c
  simp only [Json.shown, Json.setTop, top, flags, below]
  rw [← hsp, Function.update_self]

namespace Json.Inside
variable {json : Json}

theorem write (h : json.Inside) (text : Bytes) : (json.write text).Inside := ⟨h.low, h.high, h.flag⟩

theorem setTop (h : json.Inside) {c : UInt8} (hc : c = 0 ∨ c = 1) : (json.setTop c).Inside := by
  refine ⟨h.low, h.high, fun i low high => ?_⟩
  rw [setTop_cells]
  by_cases top : i = json.sp
  · rw [if_pos top]
    exact hc
  · rw [if_neg top]
    exact h.flag i low high

theorem push (h : json.Inside) : json.push.Inside := by
  rw [Json.push]
  by_cases full : json.sp + 1 ≥ maxDepth
  · rw [if_pos full]
    exact h
  · rw [if_neg full]
    have low : 0 ≤ json.sp + 1 := Int.le_trans h.low (Int.le_add_one (Int.le_refl _))
    refine ⟨low, Int.not_le.1 full, fun i first last => ?_⟩
    have upTo : i ≤ json.sp + 1 := last
    rw [setTop_cells]
    by_cases top : i = json.sp + 1
    · exact Or.inl (if_pos top)
    · rw [if_neg top]
      have below : i ≤ json.sp := Int.lt_add_one_iff.1 (by omega)
      exact h.flag i first below

theorem pop (h : json.Inside) (inner : 1 ≤ json.sp) : json.pop.Inside := by
  have high := h.high
  refine ⟨?_, ?_, fun i first last => h.flag i first ?_⟩
  all_goals simp only [Json.pop] at *
  all_goals omega

theorem shown_push (h : json.Inside) : json.push.shown = json.shown.push := by
  have low := h.low
  have same : json.sp + 1 ≥ maxDepth ↔ (flags json.cells json.sp.toNat).length + 1 ≥ maxDepth := by
    rw [flags_length]
    omega
  rw [Json.push, JsonWriter.Json.push]
  by_cases full : json.sp + 1 ≥ maxDepth
  · rw [if_pos full, if_pos (by exact same.1 full)]
  · rw [if_neg full, if_neg (by exact mt same.2 full)]
    have next : ({ json with sp := json.sp + 1 } : Json).sp = json.sp.toNat + 1 := by
      simp only
      omega
    exact flags_setTop next 0

theorem shown_pop (inner : 1 ≤ json.sp) :
    json.pop.shown = { json.shown with nesting := json.shown.nesting.tail } := by
  have top : json.sp.toNat = (json.sp - 1).toNat + 1 := by omega
  simp only [Json.shown, Json.pop, top, flags, List.tail_cons]

theorem shown_nesting (inner : 1 ≤ json.sp) :
    json.shown.nesting = decide (json.cells json.sp = 1) :: json.pop.shown.nesting := by
  have top : json.sp.toNat = (json.sp - 1).toNat + 1 := by omega
  have cell : (((json.sp - 1).toNat : Nat) : Int) + 1 = json.sp := by omega
  rw [shown_pop inner]
  simp only [Json.shown]
  rw [top, flags, List.tail_cons, cell]

theorem shown_reset (h : json.Inside) :
    (json.setTop 0).shown = { json.shown with nesting := match json.shown.nesting with
      | _ :: outer => false :: outer
      | [] => [] } := by
  by_cases inner : 1 ≤ json.sp
  · have above : json.sp = (json.sp - 1).toNat + 1 := by omega
    rw [flags_setTop above, shown_nesting inner, shown_pop inner, shown_nesting inner]
    rfl
  · have bottom : json.sp = 0 := by
      have low := h.low
      omega
    simp [Json.shown, Json.setTop, bottom, flags]

end Json.Inside

def Call.Inner : Call → Prop
  | .finish _ => True
  | .writeKey _ => True
  | _ => False

theorem shown_writeKey {json : Json} (h : json.Inside) (inner : 1 ≤ json.sp) (key : Bytes) :
    (json.writeKey key).Inside ∧ (json.writeKey key).shown = json.shown.writeKey key := by
  have top := Json.Inside.shown_nesting inner
  rcases h.flag json.sp inner (Int.le_refl _) with fresh | begun
  · have step : json.writeKey key = ((json.setTop 1).write (makeString key)).write [colon] := by
      simp [Json.writeKey, Json.writeString, fresh]
    have above : json.sp = (json.sp - 1).toNat + 1 := by omega
    have set := flags_setTop above 1
    have shown : json.shown = ⟨json.out, false :: flags json.cells (json.sp - 1).toNat⟩ := by
      rw [fresh] at top
      exact congrArg (JsonWriter.Json.mk json.out) top
    rw [step]
    refine ⟨((h.setTop (Or.inr rfl)).write _).write _, ?_⟩
    rw [shown]
    have written : ((((json.setTop 1).write (makeString key)).write [colon]).shown) =
        ((json.setTop 1).shown.write (makeString key)).write [colon] := rfl
    rw [written, set]
    rfl
  · have step : json.writeKey key = ((json.write [comma]).write (makeString key)).write [colon] := by
      simp [Json.writeKey, Json.writeString, begun]
    have shown : json.shown = ⟨json.out, true :: json.pop.shown.nesting⟩ := by
      rw [begun] at top
      exact congrArg (JsonWriter.Json.mk json.out) top
    have written : (((json.write [comma]).write (makeString key)).write [colon]).shown =
        ((json.shown.write [comma]).write (makeString key)).write [colon] := rfl
    rw [step, written, shown]
    exact ⟨((h.write _).write _).write _, rfl⟩

theorem shown_call {json : Json} (h : json.Inside) {call : Call}
    (inner : call.Inner → 1 ≤ json.sp) :
    (json.call call).Inside ∧ (json.call call).shown = writerCall json.shown call := by
  cases call with
  | start c =>
    cases c with
    | object => exact ⟨(h.write [123]).push, (h.write [123]).shown_push⟩
    | array =>
      have pushed := (h.write [91]).push
      have shown := (h.write [91]).shown_push
      refine ⟨pushed.setTop (Or.inl rfl), ?_⟩
      have reset := pushed.shown_reset
      rw [shown] at reset
      exact reset
  | finish c =>
    cases c with
    | object =>
      have inside : 1 ≤ (json.write [125]).sp := inner trivial
      exact ⟨(h.write [125]).pop inside, Json.Inside.shown_pop inside⟩
    | array =>
      have inside : 1 ≤ (json.write [93]).sp := inner trivial
      exact ⟨(h.write [93]).pop inside, Json.Inside.shown_pop inside⟩
  | writeKey key => exact shown_writeKey h (inner trivial) key
  | writeString string => exact ⟨h.write _, rfl⟩

theorem newJson_inside (out : Bytes) (cells : Int → UInt8) : (newJson out cells).Inside where
  low := Int.le_refl 0
  high := Int.ofNat_lt.2 (by decide)
  flag i first last := absurd (Int.le_trans first last) (by simp [newJson])

theorem shown_run (out : Bytes) (cells : Int → UInt8) {calls : List Call} (h : WellNested calls)
    (room : ∀ before, before <+: calls → opened before < maxDepth)
    (keys : ∀ before key, before ++ [.writeKey key] <+: calls → 1 ≤ opened before) :
    ((newJson out cells).run calls).shown = calls.foldl writerCall (JsonWriter.newJson out) := by
  have all : ∀ before, before <+: calls → ((newJson out cells).run before).Inside ∧
      ((newJson out cells).run before).shown =
        before.foldl writerCall (JsonWriter.newJson out) := by
    intro before hbefore
    induction before using List.reverseRecOn with
    | nil => exact ⟨newJson_inside out cells, rfl⟩
    | append_singleton before call ih =>
      have start := (List.prefix_append before [call]).trans hbefore
      obtain ⟨inside, same⟩ := ih start
      have follows : ((newJson out cells).run before).sp = opened before :=
        run_sp rfl fun p hp => room p (hp.trans start)
      have inner : call.Inner → 1 ≤ ((newJson out cells).run before).sp := by
        rw [follows]
        intro needs
        cases call with
        | start c => exact needs.elim
        | finish c =>
          have behind := h.opened_nonneg hbefore
          rw [opened_concat, Call.opens] at behind
          omega
        | writeKey key => exact keys before key hbefore
        | writeString string => exact needs.elim
      rw [run_concat, List.foldl_append, List.foldl_cons, List.foldl_nil, ← same]
      exact shown_call inside inner
  exact (all calls (List.prefix_refl calls)).2

end RsServe.JsonNesting

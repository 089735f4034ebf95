import RsServe.Dispatch
import RsServe.PollLoop

/-! serve_file on an open file: the loop over the results of evbuffer_read. -/

namespace RsServe.FileReads
open CString PollLoop

inductive ReadResult where
  /-- A positive number of bytes is moved to the buffer. -/
  | moved (n : Nat)
  /-- 0 -/
  | endOfFile
  /-- -1 -/
  | failed
deriving DecidableEq

def ReadResult.count : ReadResult → Nat
  | .moved n => n
  | _ => 0

def offset (results : Nat → ReadResult) : Nat → Nat
  | 0 => 0
  | call + 1 => offset results call + (results call).count

/-- An open file, with the result of each read. Only its end is reported as the end, and in
the long run there is nothing but the end or nothing but errors. -/
structure OpenFile where
  content : Bytes
  results : Nat → ReadResult
  moved : ∀ call n, results call = .moved n →
    0 < n ∧ offset results call + n ≤ content.length
  ended : ∀ call, results call = .endOfFile → offset results call = content.length
  settles : ∃ call, (∀ later, call ≤ later → results later = .endOfFile) ∨
    ∀ later, call ≤ later → results later = .failed

/-- evbuffer_read, on the output buffer and the position in the file. -/
def evbufferRead (content : Bytes) (s : Bytes × Nat) (result : ReadResult) : Option (Bytes × Nat) :=
  some (s.1 ++ (content.drop s.2).take result.count, s.2 + result.count)

/-- `while(evbuffer_read(request->buffer_out, fd, 4096) != 0)` -/
def readFile (file : OpenFile) (fuel : Nat) (bufferOut : Bytes) : Outcome (Bytes × Nat) :=
  poll (evbufferRead file.content) (· = .endOfFile) file.results fuel 0 (bufferOut, 0)

/-- serve_file: the status and the output buffer, or none while the loop is running. The file
is none where open fails. -/
def serveFile (opened : Option OpenFile) (fuel : Nat) (bufferOut : Bytes) : Option (Nat × Bytes) :=
  match opened with
  | none => some (500, bufferOut)
  | some file =>
    match readFile file fuel bufferOut with
    | .done s => some (200, s.1)
    | _ => none

structure SendsRightly (file : OpenFile) (bufferOut : Bytes) : Prop where
  ends : ∃ fuel reply, serveFile (some file) fuel bufferOut = some reply
  success (fuel : Nat) (sent : Bytes) : serveFile (some file) fuel bufferOut = some (200, sent) →
    (∃ call, file.results call = .endOfFile) ∧ sent = bufferOut ++ file.content
  failure (fuel status : Nat) (sent : Bytes) :
    serveFile (some file) fuel bufferOut = some (status, sent) → status ≠ 200 → 400 ≤ status

section
variable {file : OpenFile} {bufferOut : Bytes}

def Moved (file : OpenFile) (bufferOut : Bytes) (call : Nat) (s : Bytes × Nat) : Prop :=
  s = (bufferOut ++ file.content.take (offset file.results call), offset file.results call)

theorem keeps_moved (file : OpenFile) (bufferOut : Bytes) :
    Keeps (evbufferRead file.content) (· = .endOfFile) file.results (Moved file bufferOut) := by
  rintro call s rfl -
  refine ⟨_, rfl, ?_⟩
  simp only [Moved, offset, List.take_add, List.append_assoc]

theorem moved_start (file : OpenFile) (bufferOut : Bytes) :
    Moved file bufferOut 0 (bufferOut, 0) := by
  simp [Moved, offset]

theorem readFile_done {fuel : Nat} {s : Bytes × Nat}
    (h : readFile file fuel bufferOut = .done s) :
    (∃ call, file.results call = .endOfFile) ∧ s.1 = bufferOut ++ file.content := by
  obtain ⟨call, hend, hs⟩ := poll_keeps (keeps_moved file bufferOut) (moved_start file bufferOut) h
  have last := of_decide_eq_true hend
  refine ⟨⟨call, last⟩, ?_⟩
  rw [hs, file.ended call last, List.take_length]

theorem readFile_reaches {call : Nat} (h : file.results call = .endOfFile) (bufferOut : Bytes) :
    ∃ fuel s, readFile file fuel bufferOut = .done s :=
  poll_reaches (keeps_moved file bufferOut) (Nat.zero_le call) (decide_eq_true h)
    (moved_start file bufferOut)

theorem serveFile_eq_some {fuel : Nat} {reply : Nat × Bytes} :
    serveFile (some file) fuel bufferOut = some reply ↔
      ∃ s, readFile file fuel bufferOut = .done s ∧ reply = (200, s.1) := by
  cases hread : readFile file fuel bufferOut with
  | done s => simp [serveFile, hread, eq_comm]
  | stuck => simp [serveFile, hread]
  | running => simp [serveFile, hread]

/-- The loop ends at an end of file and nowhere else. -/
theorem sendsRightly_iff (file : OpenFile) (bufferOut : Bytes) :
    SendsRightly file bufferOut ↔ ∃ call, file.results call = .endOfFile := by
  constructor
  · intro h
    obtain ⟨fuel, reply, hreply⟩ := h.ends
    obtain ⟨s, done, -⟩ := serveFile_eq_some.1 hreply
    exact (readFile_done done).1
  · rintro ⟨call, hend⟩
    refine ⟨?_, fun fuel sent h => ?_, fun fuel status sent h hstatus => ?_⟩
    · obtain ⟨fuel, s, done⟩ := readFile_reaches hend bufferOut
      exact ⟨fuel, (200, s.1), serveFile_eq_some.2 ⟨s, done, rfl⟩⟩
    · obtain ⟨s, done, same⟩ := serveFile_eq_some.1 h
      rw [(Prod.mk.inj same).2]
      exact readFile_done done
    · obtain ⟨s, -, same⟩ := serveFile_eq_some.1 h
      exact absurd (Prod.mk.inj same).1 hstatus

theorem sendsRightly_of_passing (file : OpenFile) (bufferOut : Bytes)
    (h : ∀ call, ∃ later, call ≤ later ∧ file.results later ≠ .failed) :
    SendsRightly file bufferOut := by
  obtain ⟨call, ending | failing⟩ := file.settles
  · exact (sendsRightly_iff file bufferOut).2 ⟨call, ending call (Nat.le_refl call)⟩
  · obtain ⟨later, hlater, other⟩ := h call
    exact absurd (failing later hlater) other

theorem readFile_readLoop {call : Nat} (h : file.results call = .endOfFile) (bufferOut : Bytes) :
    ∃ fuel position,
      readFile file fuel bufferOut = .done (Storage.readLoop bufferOut file.content, position) := by
  obtain ⟨fuel, s, done⟩ := readFile_reaches h bufferOut
  refine ⟨fuel, s.2, ?_⟩
  rw [Dispatch.readLoop_eq, ← (readFile_done done).2, done]

end

def unreadable : OpenFile where
  content := str "x"
  results _ := .failed
  moved call n h := by simp at h
  ended call h := by simp at h
  settles := ⟨0, Or.inr fun _ _ => rfl⟩

theorem unreadable_runs (bufferOut : Bytes) (fuel : Nat) :
    serveFile (some unreadable) fuel bufferOut = none := by
  cases hreply : serveFile (some unreadable) fuel bufferOut with
  | none => rfl
  | some reply =>
    obtain ⟨s, done, -⟩ := serveFile_eq_some.1 hreply
    obtain ⟨⟨call, hend⟩, -⟩ := readFile_done done
    exact absurd hend (by simp [unreadable])

theorem unreadable_not_sent : ¬ SendsRightly unreadable [] := by
  intro h
  obtain ⟨fuel, reply, hreply⟩ := h.ends
  rw [unreadable_runs] at hreply
  simp at hreply

end RsServe.FileReads

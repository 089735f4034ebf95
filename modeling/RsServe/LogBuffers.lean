import Mathlib.Algebra.Group.Nat.Defs
import RsServe.CString

/-! log.c: the array that each log function prints its format into. -/

namespace RsServe.LogBuffers
open CString

def strlen (s : Bytes) : Nat := (cstr s).length

inductive Arg where
  | int (n : Nat)
  | string (s : Bytes)

def Arg.convert (conversion : UInt8) : Arg → Bytes
  | .int n => if conversion = 100 then decimal n else []
  | .string s => if conversion = 115 then cstr s else []

/-- The flag is for a letter behind a percent sign. -/
def conversions : Bool → Bytes → List Arg → Bytes
  | false, c :: format, args =>
    if c = percent then conversions true format args else c :: conversions false format args
  | true, c :: format, arg :: args => arg.convert c ++ conversions false format args
  | true, _ :: format, [] => conversions false format []
  | _, [], _ => []

/-- sprintf with the conversions `%d` and `%s`. -/
def sprintf : Bytes → List Arg → Bytes := conversions false

theorem sprintf_literal {literal : Bytes} (h : percent ∉ literal) (format : Bytes)
    (args : List Arg) : sprintf (literal ++ format) args = literal ++ sprintf format args := by
  unfold sprintf
  induction literal with
  | nil => rfl
  | cons c literal ih =>
    have hc : c ≠ percent := fun same => h (by simp [same])
    have rest := ih fun mem => h (by simp [mem])
    rw [List.cons_append, List.cons_append, ← rest, conversions, if_neg hc]

theorem sprintf_int (n : Nat) (format : Bytes) (args : List Arg) :
    sprintf (str "%d" ++ format) (.int n :: args) = decimal n ++ sprintf format args := rfl

theorem sprintf_string (s format : Bytes) (args : List Arg) :
    sprintf (str "%s" ++ format) (.string s :: args) = cstr s ++ sprintf format args := rfl

theorem decimal_length_le_iff {n k : Nat} (hk : 0 < k) :
    (decimal n).length ≤ k ↔ n < 10 ^ k := by
  rw [decimal, List.length_map]
  exact Nat.length_toDigits_le_iff (by decide) hk

/-- An array of `size` bytes and the text that sprintf writes there, without its NUL. -/
structure Printed where
  size : Nat
  text : Bytes

def Printed.Fits (p : Printed) : Prop := p.text.length + 1 ≤ p.size

instance (p : Printed) : Decidable p.Fits := inferInstanceAs (Decidable (_ ≤ _))

/-- new_format of log_warn, log_info and log_error, with space for a process id. -/
def newFormat (line : Bytes) (spare pid : Nat) (timestamp format : Bytes) : Printed where
  size := strlen timestamp + strlen format + 6 + spare
  text := sprintf line [.int pid, .string timestamp, .string format]

def logWarn : Nat → Bytes → Bytes → Printed := newFormat (str "[%d] [%s] [WARN] %s\n") 14

def logInfo : Nat → Bytes → Bytes → Printed := newFormat (str "[%d] [%s] [INFO] %s\n") 14

def logError : Nat → Bytes → Bytes → Printed := newFormat (str "[%d] [%s] [ERROR] %s\n") 15

/-- do_log_debug has space for the file name and the number of the line, too. -/
def doLogDebug (pid : Nat) (timestamp file : Bytes) (line : Nat) (format : Bytes) : Printed where
  size := strlen timestamp + strlen format + strlen file + 5 + 6 + 23
  text := sprintf (str "[%d] [%s] [DEBUG] %s:%d: %s\n")
    [.int pid, .string timestamp, .string file, .int line, .string format]

def levelLine (level : Bytes) : Bytes :=
  str "[" ++ (str "%d" ++ (str "] [" ++ (str "%s" ++ (str "] [" ++ (level ++ (str "] " ++
    (str "%s" ++ str "\n")))))))

theorem sprintf_levelLine {level : Bytes} (h : percent ∉ level) (pid : Nat)
    (timestamp format : Bytes) :
    sprintf (levelLine level) [.int pid, .string timestamp, .string format] =
      str "[" ++ (decimal pid ++ (str "] [" ++ (cstr timestamp ++ (str "] [" ++ (level ++ (str "] " ++
        (cstr format ++ str "\n"))))))) := by
  have opening : percent ∉ str "[" := by decide
  have between : percent ∉ str "] [" := by decide
  have closing : percent ∉ str "] " := by decide
  rw [levelLine, sprintf_literal opening, sprintf_int, sprintf_literal between, sprintf_string,
    sprintf_literal between, sprintf_literal h, sprintf_literal closing, sprintf_string]
  rfl

theorem newFormat_fits_iff {level : Bytes} (h : percent ∉ level) (pid : Nat)
    (timestamp format : Bytes) :
    (newFormat (levelLine level) (level.length + 10) pid timestamp format).Fits ↔
      pid < 100000 := by
  have opening : (str "[").length = 1 := by decide
  have between : (str "] [").length = 3 := by decide
  have closing : (str "] ").length = 2 := by decide
  have newline : (str "\n").length = 1 := by decide
  have digits : (decimal pid).length ≤ 5 ↔ pid < 100000 := decimal_length_le_iff (by decide)
  rw [Printed.Fits, newFormat, sprintf_levelLine h, ← digits]
  simp only [List.length_append, strlen, opening, between, closing, newline]
  omega

theorem logWarn_eq : logWarn = newFormat (levelLine (str "WARN")) ((str "WARN").length + 10) := rfl

theorem logInfo_eq : logInfo = newFormat (levelLine (str "INFO")) ((str "INFO").length + 10) := rfl

theorem logError_eq :
    logError = newFormat (levelLine (str "ERROR")) ((str "ERROR").length + 10) := rfl

def debugLine : Bytes :=
  str "[" ++ (str "%d" ++ (str "] [" ++ (str "%s" ++ (str "] [DEBUG] " ++ (str "%s" ++ (str ":" ++
    (str "%d" ++ (str ": " ++ (str "%s" ++ str "\n")))))))))

theorem debugLine_eq : debugLine = str "[%d] [%s] [DEBUG] %s:%d: %s\n" := rfl

theorem doLogDebug_fits_iff (pid : Nat) (timestamp file : Bytes) (line : Nat) (format : Bytes) :
    (doLogDebug pid timestamp file line format).Fits ↔
      (decimal pid).length + (decimal line).length ≤ 15 := by
  have opening : percent ∉ str "[" := by decide
  have between : percent ∉ str "] [" := by decide
  have level : percent ∉ str "] [DEBUG] " := by decide
  have colon : percent ∉ str ":" := by decide
  have blank : percent ∉ str ": " := by decide
  have text : (doLogDebug pid timestamp file line format).text =
      str "[" ++ (decimal pid ++ (str "] [" ++ (cstr timestamp ++ (str "] [DEBUG] " ++ (cstr file ++
        (str ":" ++ (decimal line ++ (str ": " ++ (cstr format ++ str "\n"))))))))) := by
    rw [doLogDebug, ← debugLine_eq, debugLine, sprintf_literal opening, sprintf_int,
      sprintf_literal between, sprintf_string, sprintf_literal level, sprintf_string,
      sprintf_literal colon, sprintf_int, sprintf_literal blank, sprintf_string]
    rfl
  have openingLength : (str "[").length = 1 := by decide
  have betweenLength : (str "] [").length = 3 := by decide
  have levelLength : (str "] [DEBUG] ").length = 10 := by decide
  have colonLength : (str ":").length = 1 := by decide
  have blankLength : (str ": ").length = 2 := by decide
  have newlineLength : (str "\n").length = 1 := by decide
  rw [Printed.Fits, text, doLogDebug]
  simp only [List.length_append, strlen, openingLength, betweenLength, levelLength, colonLength,
    blankLength, newlineLength]
  omega

theorem doLogDebug_fits {pid line : Nat} (hpid : pid ≤ 4194304) (hline : line < 100000)
    (timestamp file format : Bytes) : (doLogDebug pid timestamp file line format).Fits := by
  have pidDigits : (decimal pid).length ≤ 7 := (decimal_length_le_iff (by decide)).2 (by omega)
  have lineDigits : (decimal line).length ≤ 5 := (decimal_length_le_iff (by decide)).2 (by omega)
  rw [doLogDebug_fits_iff]
  omega

structure LinesFit (pid line : Nat) (timestamp file format : Bytes) : Prop where
  warn : (logWarn pid timestamp format).Fits
  info : (logInfo pid timestamp format).Fits
  error : (logError pid timestamp format).Fits
  debug : (doLogDebug pid timestamp file line format).Fits

/-- Only do_log_debug has space for every process id. -/
theorem linesFit_iff {pid line : Nat} (hpid : pid ≤ 4194304) (hline : line < 100000)
    (timestamp file format : Bytes) :
    (LinesFit pid line timestamp file format ↔ pid < 100000) ∧
      (doLogDebug pid timestamp file line format).Fits := by
  have warn : (logWarn pid timestamp format).Fits ↔ pid < 100000 := by
    rw [logWarn_eq]
    exact newFormat_fits_iff (by decide) pid timestamp format
  have info : (logInfo pid timestamp format).Fits ↔ pid < 100000 := by
    rw [logInfo_eq]
    exact newFormat_fits_iff (by decide) pid timestamp format
  have error : (logError pid timestamp format).Fits ↔ pid < 100000 := by
    rw [logError_eq]
    exact newFormat_fits_iff (by decide) pid timestamp format
  have debug := doLogDebug_fits hpid hline timestamp file format
  refine ⟨⟨fun fits => warn.1 fits.warn, fun small => ?_⟩, debug⟩
  exact ⟨warn.2 small, info.2 small, error.2 small, debug⟩

theorem linesFit_small :
    (LinesFit 4711 88 (str "2013-07-01 12:00:00 +0200") (str "main.c") (str "started") ↔
      4711 < 100000) ∧
      (doLogDebug 4711 (str "2013-07-01 12:00:00 +0200") (str "main.c") 88 (str "started")).Fits :=
  linesFit_iff (by decide) (by decide) _ _ _

theorem lines_overrun :
    ¬ LinesFit 4194304 88 (str "2013-07-01 12:00:00 +0200") (str "main.c") (str "started") := by
  intro fits
  exact absurd fits.warn (by decide +kernel)

end RsServe.LogBuffers

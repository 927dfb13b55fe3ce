import Mathlib.Data.List.Infix

/-!
# The search path of a traced process

`resolve_binary_path` looks for a program along the `PATH` of the traced process if that is in
another mount namespace, and along the tracer's own one otherwise. It asks whether the comparison of
the namespaces succeeded, not what it found, and takes the first line of the environment that has
`PATH=` somewhere in it.
-/

namespace BinaryPath

/-- A variable of an environment; there is no `=` in the name. -/
structure Var where
  name : List Char
  value : List Char
  noEquals : '=' ∉ name

def Var.text (v : Var) : List Char := v.name ++ '=' :: v.value

def pathstr : List Char := "PATH=".toList

/-- The loop over the lines of `/proc/<pid>/environ`. -/
def scanEnviron : List (List Char) → List Char
  | [] => []
  | line :: lines => if pathstr <:+: line then line.drop pathstr.length else scanEnviron lines

/-- The search path of `resolve_binary_path`, by the result of `pid_in_different_mountns` if there is
a pid. That is a `Result<bool>`, which is true in a condition if it is not an error. A file that
cannot be opened has no lines. -/
def searchPath (different : Option (Except String Bool)) (environ : Option (List (List Char)))
    (own : Option (List Char)) : Option (List Char) :=
  match different with
  | some (.ok _) => some (environ.elim [] scanEnviron)
  | some (.error _) | none => own

/-- The value of the variable that is named `PATH`, nothing if there is none. -/
def pathValue (env : List Var) : List Char := ((env.find? (·.name = "PATH".toList)).map Var.value).getD []

def intended (different : Option (Except String Bool)) (env : List Var) (own : Option (List Char)) :
    Option (List Char) :=
  match different with
  | some (.ok true) => some (pathValue env)
  | _ => own

/-- The first variable with `PATH=` in its text. -/
def firstHit (env : List Var) : Option Var := env.find? (pathstr <:+: ·.text)

/-- The variable at which the scan ends; a file that cannot be opened has none. -/
def stopsAt (readable : Bool) (env : List Var) : Option Var := if readable then firstHit env else none

theorem found_of_name {v : Var} (h : v.name = "PATH".toList) : pathstr <:+: v.text :=
  ⟨[], v.value, by simp [pathstr, Var.text, h]⟩

theorem scanEnviron_eq (env : List Var) :
    scanEnviron (env.map Var.text) = ((firstHit env).map (·.text.drop 5)).getD [] := by
  induction env with
  | nil => rfl
  | cons v env ih =>
    rw [List.map_cons, scanEnviron, firstHit, List.find?_cons]
    by_cases h : pathstr <:+: v.text
    · simp only [h, if_true, decide_true, Option.map_some, Option.getD_some]
      rfl
    · simp only [h, if_false, decide_false]
      exact ih

theorem scanned_eq (readable : Bool) (env : List Var) :
    (if readable then some (env.map Var.text) else none).elim [] scanEnviron =
      ((stopsAt readable env).map (·.text.drop 5)).getD [] := by
  cases readable with
  | false => rfl
  | true => exact scanEnviron_eq env

theorem pathValue_of_firstHit {env : List Var} {v : Var} (hv : firstHit env = some v) (hname : v.name = "PATH".toList) :
    v.text.drop 5 = pathValue env := by
  induction env with
  | nil => cases hv
  | cons u env ih =>
    rw [firstHit, List.find?_cons] at hv
    rw [pathValue, List.find?_cons]
    by_cases hhit : pathstr <:+: u.text
    · simp only [hhit, decide_true, Option.some.injEq] at hv
      subst hv
      simp [Var.text, hname]
    · have hother : u.name ≠ "PATH".toList := fun hname => hhit (found_of_name hname)
      simp only [hhit, hother, decide_false] at hv ⊢
      exact ih hv

/-- For every environment, readable or not, outcome of the comparison and `PATH` of the tracer: the
search path is the intended one just if there is no process or the comparison failed, or the process
is in another namespace and the first variable with `PATH=` in its text is `PATH` or has the value of
`PATH` behind five characters, or it is in the same namespace and that variable has the tracer's path
there. Without such a variable, the `PATH` that is meant has to be empty. -/
theorem search_path_intended_iff (different : Option (Except String Bool)) (readable : Bool) (env : List Var)
    (own : Option (List Char)) :
    searchPath different (if readable then some (env.map Var.text) else none) own = intended different env own ↔
      match different, stopsAt readable env with
      | some (.ok true), some v => v.name = "PATH".toList ∨ v.text.drop 5 = pathValue env
      | some (.ok true), none => pathValue env = []
      | some (.ok false), some v => own = some (v.text.drop 5)
      | some (.ok false), none => own = some []
      | _, _ => True := by
  match different with
  | none | some (.error _) => simp [searchPath, intended]
  | some (.ok false) =>
    simp only [searchPath, intended, scanned_eq]
    cases stopsAt readable env with
    | none | some v => exact eq_comm
  | some (.ok true) =>
    simp only [searchPath, intended, scanned_eq, Option.some.injEq]
    cases hstop : stopsAt readable env with
    | none => exact eq_comm
    | some v =>
      have hhit : firstHit env = some v := by
        cases readable with
        | false => cases hstop
        | true => exact hstop
      exact (or_iff_right_of_imp (pathValue_of_firstHit hhit)).symm

/-- `LD_LIBRARY_PATH=/lib` and `PATH=/bin`, in this order. -/
def twoPaths : List Var :=
  [⟨"LD_LIBRARY_PATH".toList, "/lib".toList, by decide⟩, ⟨"PATH".toList, "/bin".toList, by decide⟩]

/-- A process in the tracer's namespace is searched for along its own path, and one in another
namespace along a part of `LD_LIBRARY_PATH`. -/
theorem wrong_path_searched :
    (searchPath (some (.ok false)) (some (twoPaths.map Var.text)) (some "/usr/bin".toList) =
        some "BRARY_PATH=/lib".toList ∧
      intended (some (.ok false)) twoPaths (some "/usr/bin".toList) = some "/usr/bin".toList) ∧
    (searchPath (some (.ok true)) (some (twoPaths.map Var.text)) (some "/usr/bin".toList) =
        some "BRARY_PATH=/lib".toList ∧
      intended (some (.ok true)) twoPaths (some "/usr/bin".toList) = some "/bin".toList) := by
  decide

end BinaryPath

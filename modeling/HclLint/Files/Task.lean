/-
# Tasks

A task looks at files, notes what it does, and ends with a value or a failure. It is a
value itself: what it asks of the files is told apart from how they answer, so that the
same task runs on a tree or on a disk.

## Main definitions

* `Task`, with its steps as constructors and `do` notation.
* `Task.run`: the result of a task on a tree, and its notes.

## Main statements

* `Task.run_bind`: a task behind another runs on the first one's value, and the notes of
  both are kept.
-/

import HclLint.Files.Tree
import HclLint.Log

namespace HclLint.Files

/-- A piece of work with files. -/
inductive Task (ε α : Type) where
  | done (value : α)
  | fail (error : ε)
  | note (entry : LogEntry) (rest : Task ε α)
  | read (path : String) (next : Except ReadFault ByteArray → Task ε α)
  | list (path : String) (next : Except ReadFault (List String) → Task ε α)
  | isFile (path : String) (next : Bool → Task ε α)

namespace Task

variable {ε ε' α β : Type}

/-- One task behind another. -/
def bind : Task ε α → (α → Task ε β) → Task ε β
  | .done value, f => f value
  | .fail error, _ => .fail error
  | .note entry rest, f => .note entry (rest.bind f)
  | .read path next, f => .read path fun answer => (next answer).bind f
  | .list path next, f => .list path fun answer => (next answer).bind f
  | .isFile path next, f => .isFile path fun answer => (next answer).bind f

instance : Monad (Task ε) where
  pure := .done
  bind := bind

/-- A failure of a task becomes its value. -/
def attempt : Task ε α → Task ε' (Except ε α)
  | .done value => .done (.ok value)
  | .fail error => .done (.error error)
  | .note entry rest => .note entry rest.attempt
  | .read path next => .read path fun answer => (next answer).attempt
  | .list path next => .list path fun answer => (next answer).attempt
  | .isFile path next => .isFile path fun answer => (next answer).attempt

/-- A task with its failures seen another way. -/
def mapError (f : ε → ε') : Task ε α → Task ε' α
  | .done value => .done value
  | .fail error => .fail (f error)
  | .note entry rest => .note entry (rest.mapError f)
  | .read path next => .read path fun answer => (next answer).mapError f
  | .list path next => .list path fun answer => (next answer).mapError f
  | .isFile path next => .isFile path fun answer => (next answer).mapError f

/-- Ends as a result tells. -/
def ofExcept : Except ε α → Task ε α
  | .ok value => .done value
  | .error error => .fail error

/-- Notes several entries. -/
def noteAll : Log → Task ε PUnit
  | [] => .done ⟨⟩
  | entry :: rest => .note entry (noteAll rest)

/-- The text of a file. -/
def readText (path : String) : Task ReadFault String :=
  .read path fun
    | .error fault => .fail fault
    | .ok content =>
      match String.fromUTF8? content with
      | some text => .done text
      | none => .fail .notText

/-- The names in a directory. -/
def listNames (path : String) : Task ReadFault (List String) := .list path ofExcept

/-- The result of a task on a tree, and its notes in order. -/
def run (tree : FileTree) : Task ε α → Except ε α × Log
  | .done value => (.ok value, [])
  | .fail error => (.error error, [])
  | .note entry rest =>
    let (result, log) := rest.run tree
    (result, entry :: log)
  | .read path next => (next (tree.read path)).run tree
  | .list path next => (next (tree.list path)).run tree
  | .isFile path next => (next (tree.isFile path)).run tree

@[simp]
theorem run_done (tree : FileTree) (value : α) :
    (done value : Task ε α).run tree = (.ok value, []) := rfl

@[simp]
theorem run_fail (tree : FileTree) (error : ε) :
    (fail error : Task ε α).run tree = (.error error, []) := rfl

/-- Two tasks in a row run one after the other, and so do their notes. -/
theorem run_bind (tree : FileTree) (task : Task ε α) (f : α → Task ε β) :
    (task.bind f).run tree =
      match task.run tree with
      | (.ok value, log) => (((f value).run tree).1, log ++ ((f value).run tree).2)
      | (.error error, log) => (.error error, log) := by
  induction task with
  | done value => simp [bind]
  | fail error => simp [bind]
  | note entry rest ih =>
    simp only [bind, run, ih]
    rcases rest.run tree with ⟨value | error, log⟩ <;> rfl
  | read path next ih => simp only [bind, run, ih]
  | list path next ih => simp only [bind, run, ih]
  | isFile path next ih => simp only [bind, run, ih]

/-- An attempt never fails. It gives the result of the task, with its notes. -/
theorem run_attempt (tree : FileTree) (task : Task ε α) :
    (task.attempt : Task ε' (Except ε α)).run tree = (.ok (task.run tree).1, (task.run tree).2) := by
  induction task with
  | done value => rfl
  | fail error => rfl
  | note entry rest ih => simp only [attempt, run, ih]
  | read path next ih => simp only [attempt, run, ih]
  | list path next ih => simp only [attempt, run, ih]
  | isFile path next ih => simp only [attempt, run, ih]

end Task

end HclLint.Files

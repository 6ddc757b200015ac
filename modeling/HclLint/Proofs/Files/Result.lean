/-
# What tasks end with

On a given tree, what a task ends with can be told without its notes, step by step: tasks one
behind the other end as their results do one behind the other.
-/

import HclLint.Files.Task

namespace HclLint.Files.Task

variable {ε ε' α β : Type} {tree : FileTree}

/-- The value or the failure that a task ends with on a tree. -/
def result (tree : FileTree) (task : Task ε α) : Except ε α := (task.run tree).1

/-- A task that only gives a value succeeds with it over any tree. -/
theorem result_pure (value : α) : (pure value : Task ε α).result tree = .ok value := rfl

/-- What two tasks in a row give is what the second gives for the value of the first. -/
theorem result_bind (task : Task ε α) (f : α → Task ε β) :
    (task >>= f).result tree = task.result tree >>= fun value => (f value).result tree := by
  change ((task.bind f).run tree).1 = _
  rw [run_bind, result]
  rcases task.run tree with ⟨error | value, log⟩ <;> rfl

/-- A result that is known gives itself. -/
theorem result_ofExcept (x : Except ε α) : (ofExcept x).result tree = x := by
  cases x <;> rfl

/-- Notes do not touch the result. -/
theorem result_noteAll (log : Log) : (noteAll log : Task ε PUnit).result tree = .ok ⟨⟩ := by
  induction log with
  | nil => rfl
  | cons entry log ih => exact ih

theorem result_note (entry : LogEntry) (task : Task ε α) :
    (note entry task).result tree = task.result tree := rfl

/-- An attempt ends with a value, whatever the task ends with. -/
theorem result_attempt (task : Task ε α) :
    (task.attempt : Task ε' (Except ε α)).result tree = .ok (task.result tree) := by
  rw [result, run_attempt]
  rfl

theorem result_mapError (task : Task ε α) (f : ε → ε') :
    (task.mapError f).result tree = (task.result tree).mapError f := by
  induction task with
  | done value => rfl
  | fail error => rfl
  | note entry rest ih => exact ih
  | read path next ih => exact ih _
  | list path next ih => exact ih _
  | isFile path next ih => exact ih _

/-- A fold of tasks gives what the fold of their results gives. -/
theorem result_foldlM {as : List α} (f : β → α → Task ε β) (b : β) :
    (as.foldlM f b).result tree = as.foldlM (fun b a => (f b a).result tree) b := by
  induction as generalizing b with
  | nil => rfl
  | cons a as ih =>
    simp only [List.foldlM_cons, result_bind, ih]

end HclLint.Files.Task

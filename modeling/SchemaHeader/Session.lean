import SchemaHeader.Generation

/-! Any number of steps on one log, with the log that they leave behind. -/
namespace SchemaHeader.Session

inductive Step where
  | record (d : Diagnostic)
  | generate (f : FileDescriptor)
  /-- Turns the log into a result and goes on with an empty one. -/
  | settle

inductive Outcome where
  | recorded
  | generated (h : Header)
  | settled (result : Except Log Unit)

def step (style : Dialect) (log : Log) : Step → Outcome × Log
  | .record d => (.recorded, log.add d)
  | .generate f =>
    let (header, log) := style.header f log
    (.generated header, log)
  | .settle => (.settled log.toExcept, {})

/-- The outcome of each step, with the log after it. -/
def run (style : Dialect) : List Step → Log → List (Outcome × Log)
  | [], _ => []
  | s :: rest, log =>
    let (outcome, log) := step style log s
    (outcome, log) :: run style rest log

variable (style : Dialect) (log : Log) (steps : List Step)

/-- The log when all the steps are done. -/
def logAfter : Log := steps.foldl (fun log s => (step style log s).2) log

/-- Steps that come later start from the log that the ones before them left. -/
theorem run_append (before after : List Step) : run style (before ++ after) log =
    run style before log ++ run style after (logAfter style log before) := by
  induction before generalizing log with
  | nil => rfl
  | cons s rest ih => simp [run, logAfter, ih]

theorem length_run : (run style steps log).length = steps.length := by
  induction steps generalizing log with
  | nil => rfl
  | cons s rest ih => simp [run, ih]

/-- A run has the outcome of its `before.length`-th step at that place. -/
theorem getElem?_run (before after : List Step) (s : Step) :
    (run style (before ++ s :: after) log)[before.length]? =
      some (step style (logAfter style log before) s) := by
  have hfirst : run style (s :: after) (logAfter style log before) =
      step style (logAfter style log before) s ::
        run style after (step style (logAfter style log before) s).2 := rfl
  rw [run_append, List.getElem?_append_right (Nat.le_of_eq (length_run ..)), length_run,
    Nat.sub_self, hfirst, List.getElem?_cons_zero]

end SchemaHeader.Session

import TxList.System
import Mathlib.Algebra.BigOperators.Group.Finset.Basic

/-!
# The benchmark

Workers go through their slices of the tasks on one list, in transactions of `ops_per_transc` tasks
each, and count what they did. The list was filled before by `init_linked_list`. Every call a worker
makes is one step, and the workers' calls come in any order.
-/

namespace TxList

inductive TaskType where
  | insert
  | remove
  | contains
  deriving DecidableEq, Repr

structure Task (K V : Type) where
  task_type : TaskType
  key : K
  val : V
  deriving DecidableEq, Repr

variable {K V : Type} [LinearOrder K] {m : Nat}

omit [LinearOrder K] in
/-- The call `commit_task_and_update_counters` makes for the task. -/
def Task.op (l : ListId m) (task : Task K V) : Op K V m :=
  match task.task_type with
  | .insert => .put l task.key task.val
  | .remove => .remove l task.key
  | .contains => .containsKey l task.key

/-- Where a worker is in an iteration: at its start, past `TXbegin`, before `TXend`, or in the handler
of `TxAbortException`. -/
inductive WorkerPc where
  | start
  | begun
  | ending
  | caught
  deriving DecidableEq, Repr

/-- A `Worker` with the variables of `work`; `tasks` are those of its slice from `index_task` on. -/
structure Worker (K V : Type) where
  tasks : List (Task K V)
  ops_per_transc : Int
  pc : WorkerPc := .start
  ops_in_tx : Int := 0
  inserts_occurred_in_tx : Int := 0
  removes_occurred_in_tx : Int := 0
  succ_ops : Int := 0
  fail_ops : Int := 0
  inserts_occurred : Int := 0
  removes_occurred : Int := 0

namespace Worker

/-- The call the worker makes next; none when it has left its loop. -/
def op (l : ListId m) (w : Worker K V) : Option (Op K V m) :=
  match w.pc, w.tasks with
  | _, [] => none
  | .start, task :: _ => some (if w.ops_in_tx = 0 then .txBegin else task.op l)
  | .begun, task :: _ => some (task.op l)
  | .ending, _ => some .txEnd
  | .caught, _ => some .handleAbort

/-- What `commit_task_and_update_counters` counts when the task's call returns. -/
def update_counters (w : Worker K V) (task : Task K V) (ret : Ret V) : Worker K V :=
  match task.task_type, ret with
  | .insert, .val none => { w with inserts_occurred_in_tx := w.inserts_occurred_in_tx + 1 }
  | .remove, .val (some _) => { w with removes_occurred_in_tx := w.removes_occurred_in_tx + 1 }
  | _, _ => w

/-- On to the next iteration. -/
def next_task (w : Worker K V) : Worker K V := { w with tasks := w.tasks.tail, pc := .start }

/-- The counters of the transaction start over. -/
def reset (w : Worker K V) : Worker K V :=
  { w with ops_in_tx := 0, inserts_occurred_in_tx := 0, removes_occurred_in_tx := 0 }

/-- The task's call ended: the transaction ends with it when it is full or the slice is done. -/
def ran (w : Worker K V) (task : Task K V) (ret : Ret V) : Worker K V :=
  let w := { w with ops_in_tx := w.ops_in_tx + 1 }
  if ret.isAborted then { w with pc := .caught }
  else
    let w := w.update_counters task ret
    if w.ops_in_tx = w.ops_per_transc ∨ w.tasks.tail = [] then { w with pc := .ending }
    else w.next_task

/-- `TXend` returned. -/
def committed (w : Worker K V) : Worker K V :=
  ({ w with
      inserts_occurred := w.inserts_occurred + w.inserts_occurred_in_tx
      removes_occurred := w.removes_occurred + w.removes_occurred_in_tx
      succ_ops := w.succ_ops + w.ops_in_tx } : Worker K V).reset.next_task

/-- `handle_abort` returned. -/
def handled (w : Worker K V) : Worker K V :=
  ({ w with fail_ops := w.fail_ops + w.ops_in_tx } : Worker K V).reset.next_task

/-- The worker after its call ended in `ret`. -/
def next (w : Worker K V) (ret : Ret V) : Worker K V :=
  match w.pc, w.tasks with
  | _, [] => w
  | .start, task :: _ =>
    if w.ops_in_tx = 0 then
      if ret.isAborted then { w with pc := .caught } else { w with pc := .begun }
    else w.ran task ret
  | .begun, task :: _ => w.ran task ret
  | .ending, _ => if ret.isAborted then { w with pc := .caught } else w.committed
  | .caught, _ => w.handled

end Worker

/-- `init_linked_list` under way in thread `t`: `init_LL_size` of its insertions found no value. -/
inductive Filling (minKey : K) (dflt : V) (l : ListId m) (t : ThreadId) :
    (init_LL_size : Int) → Conf K V m → Prop
  | begun {C : Conf K V m} {ret : Ret V} : (Conf.init minKey dflt).Step t .txBegin ret C →
      Filling minKey dflt l t 0 C
  | put {C C' : Conf K V m} {size : Int} {task : Task K V} {ret : Option V} :
      Filling minKey dflt l t size C → C.Step t (.put l task.key task.val) (.val ret) C' →
      Filling minKey dflt l t (if ret = none then size + 1 else size) C'

/-- `init_linked_list`, called with the list as constructed, returned `size`. -/
def Filled (minKey : K) (dflt : V) (l : ListId m) (t : ThreadId) (size : Int) (C : Conf K V m) : Prop :=
  ∃ C₀, Filling minKey dflt l t size C₀ ∧ C₀.Step t .txEnd (.bool true) C

/-- The benchmark's state while the workers run, worker `t` in thread `t`. -/
structure Bench (K V : Type) (m : Nat) where
  conf : Conf K V m
  workers : ThreadId → Worker K V

namespace Bench

/-- The workers as `main` constructs them, each with a slice of the tasks and the number of operations
in its transactions. -/
def launch (C : Conf K V m) (slices : ThreadId → List (Task K V)) (ops_per_transc : ThreadId → Int) :
    Bench K V m :=
  ⟨C, fun t => { tasks := slices t, ops_per_transc := ops_per_transc t }⟩

/-- One call of one worker. -/
inductive Step (l : ListId m) (ws : Finset ThreadId) (b : Bench K V m) : Bench K V m → Prop
  | call {t : ThreadId} {op : Op K V m} {ret : Ret V} {C' : Conf K V m} : t ∈ ws →
      (b.workers t).op l = some op → b.conf.Step t op ret C' →
      Step l ws b ⟨C', Function.update b.workers t ((b.workers t).next ret)⟩

/-- What the workers get to from the configuration they are started in. -/
inductive Reach (l : ListId m) (ws : Finset ThreadId) (C : Conf K V m)
    (slices : ThreadId → List (Task K V)) (ops_per_transc : ThreadId → Int) : Bench K V m → Prop
  | start : Reach l ws C slices ops_per_transc (launch C slices ops_per_transc)
  | step {b b' : Bench K V m} : Reach l ws C slices ops_per_transc b → Step l ws b b' →
      Reach l ws C slices ops_per_transc b'

/-- All workers have finished. -/
def Finished (ws : Finset ThreadId) (b : Bench K V m) : Prop := ∀ t ∈ ws, (b.workers t).tasks = []

instance (ws : Finset ThreadId) (b : Bench K V m) : Decidable (b.Finished ws) :=
  decidable_of_iff (∀ t ∈ ws, (b.workers t).tasks.isEmpty = true) (by simp [Finished])

/-- The size that `print_results` expects. -/
def expected_total_linked_list_size (ws : Finset ThreadId) (linked_list_init_size : Int)
    (b : Bench K V m) : Int :=
  linked_list_init_size + ∑ t ∈ ws, (b.workers t).inserts_occurred
    - ∑ t ∈ ws, (b.workers t).removes_occurred

end Bench

end TxList

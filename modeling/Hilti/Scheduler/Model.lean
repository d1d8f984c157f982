import Mathlib.Logic.Function.Basic
import Hilti.Lib.Machine

/-!
# The scheduler of a worker thread

The model of how jobs move in `threading.c`, for one worker: `_worker_schedule` and
`_worker_schedule_job`, the loop of `_worker` with `_worker_run_job`, and `_unblock_blocked`.  What
the fiber of a job does is left open; it may set a blockable in its context, yield, complete,
schedule jobs and unblock resources, in any order.  All threads may schedule jobs to the worker.

Of the queue of jobs the model has what is written and not read yet, for each writer: elements of
one writer come in order, those of several in any order.  `hlt_malloc` returns zeroed memory, so the
blockable of a new job is null.  Termination of the workers is left out.
-/

namespace Hilti.Scheduler

open Hilti.Lib

set_option autoImplicit false

/-- The address of a `hlt_job`. -/
abbrev JobId := ℕ

/-- The address of a `__hlt_thread_mgr_blockable`. -/
abbrev Resource := ℕ

abbrev Vid := ℕ

/-- The number of a thread as a writer of the queue; the main thread has 0. -/
abbrev WriterId := ℕ

/-- `hlt_job`. -/
structure Job where
  vid : Vid
  blockable : Option Resource

/-- `hlt_worker_thread`, with the jobs and resources that its fields point to. -/
structure Worker where
  id : WriterId
  /-- The jobs that are allocated. -/
  jobs : JobId → Option Job
  queue : WriterId → List JobId
  /-- A hash table of linked lists. -/
  jobsBlocked : Resource → Option (List JobId)
  numBlocked : Resource → ℕ
  /-- `ctx->blockable`. -/
  ctxBlockable : Vid → Option Resource
  /-- The job whose fiber is running. -/
  running : Option JobId

namespace Worker

/-- A worker without jobs. -/
def new (id : WriterId) : Worker where
  id := id
  jobs _ := none
  queue _ := []
  jobsBlocked _ := none
  numBlocked _ := 0
  ctxBlockable _ := none
  running := none

/-- The list that the hash table has for the resource. -/
def blockedOn (thread : Worker) (resource : Resource) : List JobId :=
  (thread.jobsBlocked resource).getD []

/-- `hlt_thread_queue_write`. -/
def queueWrite (thread : Worker) (writer : WriterId) (job : JobId) : Worker :=
  { thread with queue := Function.update thread.queue writer (thread.queue writer ++ [job]) }

/-- `_add_to_blocked`. -/
def addToBlocked (thread : Worker) (resource : Resource) (job : JobId) : Worker :=
  { thread with
    jobsBlocked :=
      Function.update thread.jobsBlocked resource (some (job :: thread.blockedOn resource))
    numBlocked := Function.update thread.numBlocked resource (thread.numBlocked resource + 1) }

/-- `_worker_schedule_job`, with this worker as the target. -/
def scheduleJob (thread : Worker) (current : WriterId) (job : JobId) : Option Worker :=
  (thread.jobs job).map fun j =>
    match j.blockable with
    | none => thread.queueWrite current job
    | some resource => thread.addToBlocked resource job

/-- `_worker_schedule`; the memory of the job is new. -/
def schedule (thread : Worker) (current : WriterId) (vid : Vid) (job : JobId) : Option Worker :=
  match thread.jobs job with
  | some _ => none
  | none =>
    scheduleJob { thread with jobs := Function.update thread.jobs job (some ⟨vid, none⟩) } current job

/-- The loop of `_unblock_blocked`; a job that waits for something else fails its assertion. -/
def unblockLoop (thread : Worker) (resource : Resource) : List JobId → Option Worker
  | [] => some thread
  | job :: next =>
    (thread.jobs job).bind fun j =>
      if j.blockable ≠ some resource then none
      else
        let thread :=
          { thread with
            jobs := Function.update thread.jobs job (some { j with blockable := none })
            numBlocked := Function.update thread.numBlocked resource (thread.numBlocked resource - 1) }
        (thread.scheduleJob thread.id job).bind fun thread => thread.unblockLoop resource next

/-- `_unblock_blocked`; that the hash table has the resource is an assertion. -/
def unblockBlocked (thread : Worker) (resource : Resource) : Option Worker :=
  (thread.jobsBlocked resource).bind fun bjob =>
    (thread.unblockLoop resource bjob).map fun thread =>
      { thread with jobsBlocked := Function.update thread.jobsBlocked resource none }

/-- `hlt_thread_mgr_unblock`. -/
def unblock (thread : Worker) (resource : Resource) : Option Worker :=
  if thread.numBlocked resource = 0 then some thread else thread.unblockBlocked resource

/-- The body of the loop of `_worker` up to the start of the fiber, with the next job of a writer. -/
def read (thread : Worker) (writer : WriterId) : Option Worker :=
  match thread.running, thread.queue writer with
  | none, job :: rest =>
    let thread := { thread with queue := Function.update thread.queue writer rest }
    (thread.jobs job).map fun j =>
      match j.blockable with
      | none => { thread with running := some job }
      | some resource => thread.addToBlocked resource job
  | _, _ => none

/-- `__hlt_context_set_blockable`, called from the fiber. -/
def setBlockable (thread : Worker) (b : Option Resource) : Option Worker :=
  thread.running.bind fun job => (thread.jobs job).map fun j =>
    { thread with ctxBlockable := Function.update thread.ctxBlockable j.vid b }

/-- The rest of `_worker_run_job` when the fiber has yielded. -/
def yielded (thread : Worker) : Option Worker :=
  thread.running.bind fun job => (thread.jobs job).bind fun j =>
    let thread := { thread with running := none }
    match thread.ctxBlockable j.vid with
    | some resource =>
      scheduleJob { thread with
        jobs := Function.update thread.jobs job (some { j with blockable := some resource })
        ctxBlockable := Function.update thread.ctxBlockable j.vid none } thread.id job
    | none => thread.scheduleJob thread.id job

/-- The rest of `_worker_run_job` when the fiber is done, with `_hlt_job_delete`. -/
def completed (thread : Worker) : Option Worker :=
  thread.running.map fun job =>
    { thread with running := none, jobs := Function.update thread.jobs job none }

end Worker

/-- What can happen next. -/
inductive Action where
  | schedule (current : WriterId) (vid : Vid) (job : JobId)
  | read (writer : WriterId)
  | setBlockable (b : Option Resource)
  | yielded
  | completed
  | unblock (resource : Resource)

def Worker.next (thread : Worker) : Action → Option Worker
  | .schedule current vid job => thread.schedule current vid job
  | .read writer => thread.read writer
  | .setBlockable b => thread.setBlockable b
  | .yielded => thread.yielded
  | .completed => thread.completed
  | .unblock resource => thread.unblock resource

/-- The runs of the worker with the given number. -/
def machine (id : WriterId) : Machine Worker Action where
  start := .new id
  next := Worker.next

end Hilti.Scheduler

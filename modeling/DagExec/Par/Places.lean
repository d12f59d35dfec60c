import DagExec.Common.Books

/-!
# Where a task is

From the moment its node is popped from `ready` to the moment its result is received, a task is in one of these places:

- `held`: with the scheduler, in `pending` or in the middle of `dispatch_task_try`;
- `tasks`: with a worker, running or queued; a task that went down with a panic stays there;
- `results`: answered, in the result channel.

`failed` are the tasks whose `Err` has been received. The scheduler is `looping` until it leaves its loops.
-/

namespace DagExec

variable {K O E ω R : Type}

def WorkerStatus.tasks : WorkerStatus O E ω → List (Task O E ω)
  | .waiting => []
  | .running task => [task]
  | .exited => []
  | .panicked lost => lost

/-- The tasks a worker has taken responsibility for, the running one first. -/
def Worker.tasks (wk : Worker O E ω) : List (Task O E ω) := wk.status.tasks ++ wk.queue

def Pc.tasks : Pc K O E ω → List (Task O E ω)
  | .dispatch task _ => [task]
  | _ => []

/-- The scheduler is in its loops. -/
def Pc.looping : Pc K O E ω → Bool
  | .outer => true
  | .inner => true
  | .dispatch _ _ => true
  | .check => true
  | .recv => true
  | _ => false

/-- The result the scheduler is leaving with. -/
def Pc.ret : Pc K O E ω → Option (Ret K O E)
  | .close _ r => some r
  | .join _ r => some r
  | .returned r => some r
  | _ => none

def Event.failed : Event O E → Option NodeId
  | .received ⟨id, .error _⟩ => some id
  | _ => none

/-! What one more event adds to the failed nodes. -/

theorem failed_dispatched (log : List (Event O E)) (idx : Nat) (id : NodeId) :
    (log ++ [Event.dispatched idx id]).filterMap Event.failed = log.filterMap Event.failed := by
  simp [Event.failed]

theorem failed_received_ok (log : List (Event O E)) {res : TaskResult O E} {v : O} (h : res.out = .ok v) :
    (log ++ [Event.received res]).filterMap Event.failed = log.filterMap Event.failed := by
  obtain ⟨id, out⟩ := res
  subst h
  simp [Event.failed]

theorem failed_received_error (log : List (Event O E)) {res : TaskResult O E} {e : E} (h : res.out = .error e) :
    (log ++ [Event.received res]).filterMap Event.failed = log.filterMap Event.failed ++ [res.id] := by
  obtain ⟨id, out⟩ := res
  subst h
  simp [Event.failed]

namespace State

variable (s : State K O E ω R)

def held : List (Task O E ω) := s.pending.toList ++ s.pc.tasks

def tasks : List (Task O E ω) := s.workers.flatMap Worker.tasks

/-- The nodes in flight. -/
def outstanding : List NodeId := s.tasks.map Task.id ++ s.results.map TaskResult.id

def failed : List NodeId := s.log.filterMap Event.failed

/-- The nodes popped from `ready` and not processed. -/
def away : List NodeId := s.held.map Task.id ++ s.outstanding ++ s.failed

/-- The nodes that are neither processed nor blocked. -/
def openIds : List NodeId := s.ready ++ s.away

variable {s}

/-- How often a node is open, place by place. -/
theorem count_open (s : State K O E ω R) (i : NodeId) : s.openIds.count i = s.ready.count i +
    (s.held.map Task.id).count i + (s.tasks.map Task.id).count i + (s.results.map TaskResult.id).count i +
      s.failed.count i := by
  simp only [openIds, away, outstanding, List.count_append]
  omega

theorem outstanding_length (s : State K O E ω R) : s.outstanding.length = s.tasks.length + s.results.length := by
  simp [outstanding]

theorem mem_tasks {t : Task O E ω} : t ∈ s.tasks ↔ ∃ wk ∈ s.workers, t ∈ wk.tasks := List.mem_flatMap

/-- A node in flight is with a worker or in the result channel. -/
theorem mem_outstanding {i : NodeId} :
    i ∈ s.outstanding ↔ (∃ t ∈ s.tasks, t.id = i) ∨ ∃ res ∈ s.results, res.id = i := by
  simp [outstanding]

theorem outstanding_sub_away {i : NodeId} (h : i ∈ s.outstanding) : i ∈ s.away :=
  List.mem_append_left _ (List.mem_append_right _ h)

theorem held_eq {pc : Pc K O E ω} (hpc : s.pc = pc) : s.held = s.pending.toList ++ pc.tasks := by rw [held, hpc]

/-- In the inner loop the scheduler holds the parked task. -/
theorem held_inner (hpc : s.pc = .inner) : s.held = s.pending.toList := (held_eq hpc).trans (List.append_nil _)

theorem held_parked (hpc : s.pc = .inner) {task : Task O E ω} (hp : s.pending = some task) : s.held = [task] := by
  rw [held_inner hpc, hp]
  rfl

theorem held_dispatch {task : Task O E ω} {left : Nat} (hpc : s.pc = .dispatch task left) (hp : s.pending = none) :
    s.held = [task] := by
  rw [held_eq hpc, hp]
  rfl

theorem held_nil (hpc : s.pc = .inner) (hp : s.pending = none) : s.held = [] := by
  rw [held_inner hpc, hp]
  rfl

theorem task_away {t : Task O E ω} (h : t ∈ s.tasks) : t.id ∈ s.away :=
  outstanding_sub_away (mem_outstanding.mpr (.inl ⟨t, h, rfl⟩))

theorem result_away {res : TaskResult O E} (h : res ∈ s.results) : res.id ∈ s.away :=
  outstanding_sub_away (mem_outstanding.mpr (.inr ⟨res, h, rfl⟩))

theorem held_sub_away {t : Task O E ω} (h : t ∈ s.held) : t.id ∈ s.away :=
  List.mem_append_left _ (List.mem_append_left _ (List.mem_map_of_mem h))

theorem away_congr {s s' : State K O E ω R} (hheld : s'.held = s.held) (htasks : s'.tasks = s.tasks)
    (hres : s'.results = s.results) (hlog : s'.log = s.log) : s'.away = s.away := by
  rw [away, away, hheld, outstanding, outstanding, htasks, hres, failed, failed, hlog]

theorem away_sub_open {i : NodeId} (h : i ∈ s.away) : i ∈ s.openIds := List.mem_append_right _ h

theorem ready_sub_open {i : NodeId} (h : i ∈ s.ready) : i ∈ s.openIds := List.mem_append_left _ h

end State

/-! ## Tasks and results that are right -/

/-- The task is the node's, on reference values of its dependencies. -/
def Task.Ok (dag : Dag K O E ω) (t : Task O E ω) : Prop := dag.IsTask t.id t.func ∧ RefArgs dag t.id t.args

/-- What the call that the result reports has returned. -/
def TaskResult.call (res : TaskResult O E) : Call O E :=
  match res.out with
  | .ok v => .ok v
  | .error e => .err e

/-- The result is what the node's function returned on reference values of its dependencies. -/
def TaskResult.Ok (dag : Dag K O E ω) (res : TaskResult O E) : Prop :=
  ∃ f args w, dag.IsTask res.id f ∧ RefArgs dag res.id args ∧ f w args = res.call

variable {dag : Dag K O E ω}

theorem TaskResult.Ok.evaluates {res : TaskResult O E} (h : res.Ok dag) {v : O} (hv : res.out = .ok v) :
    Evaluates dag res.id v := by
  obtain ⟨f, args, w, hf, ha, hc⟩ := h
  refine .of_refArgs hf ha (w := w) ?_
  rw [hc, call, hv]

end DagExec

import DagExec.Par.Places

/-!
# What a step of the parallel executor can do

`Acct plan dropped s` is the account of a state: the books with every node open in exactly one place (`dropped` are the
tasks the scheduler dropped when it left), the two counters, and that every task and result is right. Under it no
step fails: no index is out of bounds, no counter underflows, no assertion fails, no argument is missing.
`schedule_move` and `work_move` list once what is left for the scheduler and for a worker to do; every invariant of
runs is proved from these lists.
-/

namespace DagExec

open Outcome

variable {K O E ω R : Type}

/-- The account of a state. -/
structure Acct (plan : Plan K O E ω) (dropped : List NodeId) (s : State K O E ω R) : Prop where
  books : Books plan s.vals s.indeg fun i => (s.openIds ++ dropped).count i
  processed : s.processed = doneCount s.vals
  inFlight : s.inFlight = s.outstanding.length
  held_ok : ∀ t ∈ s.held, t.Ok plan.dag
  tasks_ok : ∀ t ∈ s.tasks, t.Ok plan.dag
  results_ok : ∀ res ∈ s.results, res.Ok plan.dag

/-! ## The moves -/

/-- A worker's step: the worker after it, what it sends and what is seen of it. -/
inductive WorkerMove (w : Nat) (wk : Worker O E ω) :
    Worker O E ω → List (TaskResult O E) → List (Event O E) → Prop
  | take {task : Task O E ω} {queue : List (Task O E ω)} (hs : wk.status = .waiting) (hq : wk.queue = task :: queue) :
      WorkerMove w wk { wk with queue := queue, status := .running task } [] [.called w task.id task.args]
  | leave (hs : wk.status = .waiting) (hq : wk.queue = []) (htx : wk.txOpen = false) :
      WorkerMove w wk { wk with status := .exited } [] []
  | finish {task : Task O E ω} {res : TaskResult O E} {env : ω} (hs : wk.status = .running task)
      (hid : res.id = task.id) (hf : task.func env task.args = res.call) :
      WorkerMove w wk { wk with status := .waiting } [res] []
  | panic {task : Task O E ω} {env : ω} (hs : wk.status = .running task) (hf : task.func env task.args = .panic) :
      WorkerMove w wk { wk with queue := [], status := .panicked (task :: wk.queue) } [] []

/-- The steps in which the scheduler only moves on. -/
inductive Goto (ctx : Ctx K O E ω) (s : State K O E ω R) : Pc K O E ω → Prop
  | enter (hpc : s.pc = .outer) (h : s.processed < ctx.plan.neededCount) : Goto ctx s .inner
  | finish (hpc : s.pc = .outer) (h : ¬ s.processed < ctx.plan.neededCount) :
      Goto ctx s (.close 0 (.ok (s.vals, ctx.plan.needed)))
  | capped (hpc : s.pc = .inner) (h : ¬ s.inFlight < ctx.effectiveCap) : Goto ctx s .check
  | drained (hpc : s.pc = .inner) (hp : s.pending = none) (hr : s.ready = []) : Goto ctx s .check
  | bounced {task : Task O E ω} {left : Nat} {wk : Worker O E ω} (hpc : s.pc = .dispatch task (left + 1))
      (hwk : wk ∈ s.workers) (hlive : wk.status.gone = false) (hfull : ¬ wk.queue.length < ctx.queueCap) :
      Goto ctx s (.dispatch task left)
  | disconnected {task : Task O E ω} {left : Nat} {wk : Worker O E ω} (hpc : s.pc = .dispatch task (left + 1))
      (hwk : wk ∈ s.workers) (hgone : wk.status.gone = true) :
      Goto ctx s (.close 0 (.error (.internalInvariant "worker task channel disconnected")))
  | cycle (hpc : s.pc = .check) (h : s.inFlight = 0) :
      Goto ctx s (.close 0 (.error (.cycle (ctx.plan.report s.indeg))))
  | wait (hpc : s.pc = .check) (h : 0 < s.inFlight) : Goto ctx s .recv
  | allGone (hpc : s.pc = .recv) (hr : s.results = []) (hgone : ∀ wk ∈ s.workers, wk.status.gone = true) :
      Goto ctx s (.close 0 (.error (.internalInvariant "result channel disconnected")))
  | closed {i : Nat} {r : Ret K O E} (hpc : s.pc = .close i r) (h : s.workers.length ≤ i) : Goto ctx s (.join 0 r)
  | joined {i : Nat} {r : Ret K O E} {wk : Worker O E ω} (hpc : s.pc = .join i r) (hwk : s.workers[i]? = some wk)
      (hgone : wk.status.gone = true) : Goto ctx s (.join (i + 1) r)

/-- The open node `x` can be finished with value `v`: `indeg` are the counters after it, `rel` the released nodes. -/
structure Finishes (plan : Plan K O E ω) (s : State K O E ω R) (x : NodeId) (v : O) (indeg : List Nat)
    (rel : List NodeId) : Prop where
  lt : x < s.vals.length
  fresh : isDone s.vals x = false
  evaluates : Evaluates plan.dag x v
  count : doneCount (s.vals.set x (some v)) = doneCount s.vals + 1
  released : ∀ d ∈ rel, x ∈ plan.dag.depsOf d
  books : ∀ opn', (∀ i, opn' i + (if i = x then 1 else 0) = s.openIds.count i + rel.count i) →
    Books plan (s.vals.set x (some v)) indeg opn'

/-- The steps of the scheduler. -/
inductive SchedMove (ctx : Ctx K O E ω) (s : State K O E ω R) : State K O E ω R → Prop
  | goto {pc : Pc K O E ω} (nextWorker : Nat) (h : Goto ctx s pc) :
      SchedMove ctx s { s with nextWorker := nextWorker, pc := pc }
  | retry {task : Task O E ω} (hpc : s.pc = .inner) (hcap : s.inFlight < ctx.effectiveCap)
      (hp : s.pending = some task) :
      SchedMove ctx s { s with pending := none, pc := .dispatch task s.workers.length }
  | pick {task : Task O E ω} {ready : List NodeId} (hpc : s.pc = .inner) (hcap : s.inFlight < ctx.effectiveCap)
      (hp : s.pending = none) (hr : s.ready = task.id :: ready) (hok : task.Ok ctx.plan.dag) :
      SchedMove ctx s { s with ready := ready, pc := .dispatch task s.workers.length }
  | source {id : NodeId} {v : O} {ready rel : List NodeId} {indeg : List Nat} {observer : R} (hpc : s.pc = .inner)
      (hcap : s.inFlight < ctx.effectiveCap) (hp : s.pending = none) (hr : s.ready = id :: ready)
      (hsrc : ctx.plan.dag.IsSource id) (hfin : Finishes ctx.plan s id v indeg rel) :
      SchedMove ctx s { s with
        vals := s.vals.set id (some v), processed := s.processed + 1, indeg := indeg, ready := ready ++ rel,
        observer := observer, pc := .inner }
  | park {task : Task O E ω} (hpc : s.pc = .dispatch task 0) :
      SchedMove ctx s { s with pending := some task, pc := .check }
  | sent {task : Task O E ω} {left idx nextWorker : Nat} {wk : Worker O E ω} {observer : R}
      (hpc : s.pc = .dispatch task (left + 1)) (hwk : s.workers[idx]? = some wk) (hlive : wk.status.gone = false)
      (hroom : wk.queue.length < ctx.queueCap) :
      SchedMove ctx s { s with
        nextWorker := nextWorker, workers := s.workers.set idx { wk with queue := wk.queue ++ [task] },
        inFlight := s.inFlight + 1, observer := observer, log := s.log ++ [.dispatched idx task.id], pc := .inner }
  | complete {res : TaskResult O E} {results : List (TaskResult O E)} {v : O} {rel : List NodeId} {indeg : List Nat}
      {observer : R} (hpc : s.pc = .recv) (hr : s.results = res :: results) (hout : res.out = .ok v)
      (hfin : Finishes ctx.plan s res.id v indeg rel) :
      SchedMove ctx s { s with
        results := results, inFlight := s.inFlight - 1, vals := s.vals.set res.id (some v),
        processed := s.processed + 1, indeg := indeg, ready := s.ready ++ rel, observer := observer,
        log := s.log ++ [.received res], pc := .outer }
  | fail {res : TaskResult O E} {results : List (TaskResult O E)} {e : E} {nd : Node K O E ω} {observer : R}
      (hpc : s.pc = .recv) (hr : s.results = res :: results) (hout : res.out = .error e)
      (hnd : ctx.plan.dag.nodes[res.id]? = some nd) :
      SchedMove ctx s { s with
        results := results, inFlight := s.inFlight - 1, observer := observer, log := s.log ++ [.received res],
        pc := .close 0 (.error (.taskFailed nd.key e)) }
  | closeTx {i : Nat} {r : Ret K O E} {wk : Worker O E ω} (hpc : s.pc = .close i r) (hwk : s.workers[i]? = some wk) :
      SchedMove ctx s { s with workers := s.workers.set i { wk with txOpen := false }, pc := .close (i + 1) r }
  | leave {i : Nat} {r : Ret K O E} (hpc : s.pc = .join i r) (h : s.workers.length ≤ i) :
      SchedMove ctx s { s with resRx := false, pc := .returned r }

/-- A step of the machine. -/
inductive Move (ctx : Ctx K O E ω) (s : State K O E ω R) : State K O E ω R → Prop
  | sched {s' : State K O E ω R} (h : SchedMove ctx s s') : Move ctx s s'
  | work {w : Nat} {wk wk' : Worker O E ω} {new : List (TaskResult O E)} {seen : List (Event O E)}
      (hwk : s.workers[w]? = some wk) (h : WorkerMove w wk wk' new seen) :
      Move ctx s { s with workers := s.workers.set w wk', results := s.results ++ new, log := s.log ++ seen }

/-! ## Every step is a move -/

section

variable [ExecObserver R] {ctx : Ctx K O E ω} {outs : List K} {dropped : List NodeId} {s s' : State K O E ω R}

omit [ExecObserver R] in
theorem Acct.loop_books {plan : Plan K O E ω} (h : Acct plan [] s) :
    Books plan s.vals s.indeg fun i => s.openIds.count i := h.books.congr fun i => by rw [List.append_nil]

omit [ExecObserver R] in
theorem Acct.of_open {plan : Plan K O E ω} (h : Acct plan dropped s) (hg : plan.Good outs) {i : NodeId}
    (hi : i ∈ s.openIds) : plan.dag.Needed outs i ∧ isDone s.vals i = false := by
  have hpos := List.count_pos_iff.mpr (List.mem_append_left dropped hi)
  exact ⟨h.books.needed_of_open hg hpos, (h.books.ledger.of_open hpos).2.2.1⟩

/-- While nothing is dropped, an open node can be finished. -/
theorem Acct.finishes {plan : Plan K O E ω} (h : Acct plan [] s) (hg : plan.Good outs) {x : NodeId} {v : O}
    (hx : x ∈ s.openIds) (hv : Evaluates plan.dag x v) (ready : List NodeId) (observer : R) :
    ∃ indeg rel observer', releaseDependents plan.dependents s.indeg ready x observer =
        (ok (indeg, ready ++ rel, observer') : Outcome (ExecError K E) _) ∧ Finishes plan s x v indeg rel := by
  have hb := h.loop_books
  have hopen := List.count_pos_iff.mpr hx
  obtain ⟨-, indeg, rel, observer', hlt, -, -, hrel, hcount, hdeps, hbooks⟩ :=
    hb.finish (ε := ExecError K E) hg hopen hv ready observer
  exact ⟨indeg, rel, observer', hrel, hlt, (hb.ledger.of_open hopen).2.2.1, hv, hcount, hdeps, hbooks⟩

theorem pickNext_retry {plan : Plan K O E ω} {task : Task O E ω} (hp : s.pending = some task) :
    s.pickNext plan = { s with pending := none }.enterDispatch task := by
  unfold State.pickNext; rw [hp]

theorem pickNext_drained {plan : Plan K O E ω} (hp : s.pending = none) (hr : s.ready = []) :
    s.pickNext plan = { s with pc := .check } := by
  unfold State.pickNext; rw [hp, hr]

theorem pickNext_node {plan : Plan K O E ω} (hp : s.pending = none) {id : NodeId} {ready : List NodeId}
    (hr : s.ready = id :: ready) : s.pickNext plan = { s with ready := ready }.runNode plan id := by
  unfold State.pickNext; rw [hp, hr]

/-- Popping a node from `ready`. -/
theorem runNode_move (h : Acct ctx.plan [] s) (hg : ctx.plan.Good outs) (hW : 0 < s.workers.length)
    (hpc : s.pc = .inner) (hcap : s.inFlight < ctx.effectiveCap) (hp : s.pending = none) {id : NodeId}
    {ready : List NodeId} (hr : s.ready = id :: ready) :
    SchedMove ctx s (State.runNode ctx.plan { s with ready := ready } id) := by
  have hmem : id ∈ s.openIds := State.ready_sub_open (by rw [hr]; exact List.mem_cons_self)
  have hb := h.loop_books
  have hopen := List.count_pos_iff.mpr hmem
  obtain ⟨nd, hi⟩ : ∃ nd, ctx.plan.dag.nodes[id]? = some nd :=
    ⟨_, List.getElem?_eq_getElem (hb.needed_of_open hg hopen).lt⟩
  simp only [State.runNode, State.orLeave, index_of_get hi]
  cases hk : nd.kind with
  | source v =>
    obtain ⟨indeg, rel, observer', hrel, hfin⟩ := h.finishes hg hmem (.source hi hk) ready
      (ExecObserver.markFinish id (ExecObserver.markStart id none s.observer))
    simp only [State.runSource, State.orLeave, store_of_lt _ hfin.lt, ok_bind, hrel]
    exact .source hpc hcap hp hr ⟨nd, v, hi, hk⟩ hfin
  | task f =>
    obtain ⟨args, hargs, href⟩ := hb.gather hi hopen
    have hassert : (debugAssert (decide (0 < s.workers.length)) "n > 0" : Outcome (ExecError K E) Unit) = ok () := by
      simp [debugAssert, hW]
    simp only [hargs, State.enterDispatch, State.orLeave, hassert]
    exact .pick hpc hcap hp hr ⟨⟨nd, hi, hk⟩, href⟩

/-- An attempt of `dispatch_task_try` asks the worker whose turn it is, and the next turn is its right neighbour's. -/
inductive Attempt (ctx : Ctx K O E ω) (s : State K O E ω R) (task : Task O E ω) (left idx : Nat) (wk : Worker O E ω) :
    State K O E ω R → Prop
  | gone (h : wk.status.gone = true) : Attempt ctx s task left idx wk { s with
      nextWorker := idx + 1, pc := .close 0 (.error (.internalInvariant "worker task channel disconnected")) }
  | sent (h : wk.status.gone = false) (hroom : wk.queue.length < ctx.queueCap) : Attempt ctx s task left idx wk { s with
      nextWorker := idx + 1, workers := s.workers.set idx { wk with queue := wk.queue ++ [task] },
      inFlight := s.inFlight + 1, observer := ExecObserver.markStart task.id (some idx) s.observer,
      log := s.log ++ [.dispatched idx task.id], pc := .inner }
  | full (h : wk.status.gone = false) (hfull : ctx.queueCap ≤ wk.queue.length) : Attempt ctx s task left idx wk { s with
      nextWorker := idx + 1, pc := .dispatch task left }

theorem attempt_cases (ctx : Ctx K O E ω) (hW : 0 < s.workers.length) (task : Task O E ω) (left : Nat) :
    ∃ wk, s.workers[s.nextWorker % s.workers.length]? = some wk ∧
      Attempt ctx s task left (s.nextWorker % s.workers.length) wk (s.attempt ctx task left) := by
  have hidx := Nat.mod_lt s.nextWorker hW
  have hwk := List.getElem?_eq_getElem hidx
  generalize s.workers[s.nextWorker % s.workers.length] = wk at hwk
  refine ⟨wk, hwk, ?_⟩
  simp only [State.attempt, State.orLeave, index_of_get hwk, Worker.trySend]
  cases hgone : wk.status.gone with
  | true => exact .gone hgone
  | false =>
    by_cases hroom : wk.queue.length < ctx.queueCap
    · simp only [Bool.false_eq_true, if_false, if_pos hroom]
      exact .sent hgone hroom
    · simp only [Bool.false_eq_true, if_false, if_neg hroom]
      exact .full hgone (Nat.le_of_not_lt hroom)

theorem attempt_move (hW : 0 < s.workers.length) {task : Task O E ω} {left : Nat}
    (hpc : s.pc = .dispatch task (left + 1)) : SchedMove ctx s (s.attempt ctx task left) := by
  obtain ⟨wk, hwk, hatt⟩ := attempt_cases ctx hW task left
  have hmem := List.mem_of_getElem? hwk
  generalize s.attempt ctx task left = s' at hatt
  cases hatt with
  | gone hgone => exact .goto _ (.disconnected hpc hmem hgone)
  | sent hlive hroom => exact .sent hpc hwk hlive hroom
  | full hlive hfull => exact .goto _ (.bounced hpc hmem hlive (Nat.not_lt.mpr hfull))

/-- Receiving a result takes it out of what is in flight. -/
theorem Acct.receive_eq (h : Acct ctx.plan dropped s) {res : TaskResult O E} {results : List (TaskResult O E)}
    (hr : s.results = res :: results) {t : State K O E ω R} (ht : t = { s with
      results := results, inFlight := s.inFlight - 1, observer := ExecObserver.markFinish res.id s.observer,
      log := s.log ++ [Event.received res] }) : State.receive ctx.plan { s with results := results } res =
    match res.out with
    | .ok v => t.complete ctx.plan res.id v
    | .error e => t.orLeave (index ctx.plan.dag.nodes res.id) fun nd => t.ret (.error (.taskFailed nd.key e)) := by
  have hpos : s.inFlight ≠ 0 := by
    rw [h.inFlight, State.outstanding_length, hr, List.length_cons]
    omega
  have hdec : (decrement s.inFlight : Outcome (ExecError K E) Nat) = ok (s.inFlight - 1) := if_neg hpos
  cases hout : res.out with
  | ok v => simp only [State.receive, State.orLeave, hdec, hout, ht]
  | error e => simp only [State.receive, State.orLeave, hdec, hout, ht]

/-- Receiving a value: what it releases. -/
theorem Acct.receive_ok (h : Acct ctx.plan [] s) (hg : ctx.plan.Good outs) {res : TaskResult O E}
    {results : List (TaskResult O E)} {v : O} (hr : s.results = res :: results) (hout : res.out = .ok v) :
    ∃ indeg rel observer, releaseDependents ctx.plan.dependents s.indeg s.ready res.id
        (ExecObserver.markFinish res.id s.observer) =
          (ok (indeg, s.ready ++ rel, observer) : Outcome (ExecError K E) _) ∧
      Finishes ctx.plan s res.id v indeg rel ∧ State.receive ctx.plan { s with results := results } res = { s with
        results := results, inFlight := s.inFlight - 1, vals := s.vals.set res.id (some v),
        processed := s.processed + 1, indeg := indeg, ready := s.ready ++ rel, observer := observer,
        log := s.log ++ [.received res], pc := .outer } := by
  have hmem : res ∈ s.results := by rw [hr]; exact List.mem_cons_self
  obtain ⟨indeg, rel, observer, hrel, hfin⟩ := h.finishes hg (State.away_sub_open (State.result_away hmem))
    ((h.results_ok res hmem).evaluates hout) s.ready (ExecObserver.markFinish res.id s.observer)
  refine ⟨indeg, rel, observer, hrel, hfin, ?_⟩
  have hslot : (index s.vals res.id : Outcome (ExecError K E) _) = ok none := by
    rw [index_of_get (List.getElem?_eq_getElem hfin.lt)]
    have hfresh := hfin.fresh
    simp only [isDone, valAt, List.getElem?_eq_getElem hfin.lt, Option.join_some] at hfresh
    rw [Option.isSome_eq_false_iff, Option.isNone_iff_eq_none] at hfresh
    rw [hfresh]
  have hassert : (debugAssert (none : Option O).isNone "vals[id.0].is_none()" : Outcome (ExecError K E) Unit) = ok () :=
    rfl
  rw [h.receive_eq hr rfl, hout]
  simp only [State.complete, State.orLeave, hslot, ok_bind, hassert, store_of_lt _ hfin.lt, hrel, pure_eq]

/-- Receiving a result. -/
theorem receive_move (h : Acct ctx.plan [] s) (hg : ctx.plan.Good outs) (hpc : s.pc = .recv) {res : TaskResult O E}
    {results : List (TaskResult O E)} (hr : s.results = res :: results) :
    SchedMove ctx s (State.receive ctx.plan { s with results := results } res) := by
  cases hout : res.out with
  | ok v =>
    obtain ⟨indeg, rel, observer, -, hfin, heq⟩ := h.receive_ok hg hr hout
    rw [heq]
    exact .complete hpc hr hout hfin
  | error e =>
    have hmem : res ∈ s.results := by rw [hr]; exact List.mem_cons_self
    have hnd := List.getElem?_eq_getElem (h.of_open hg (State.away_sub_open (State.result_away hmem))).1.lt
    rw [h.receive_eq hr rfl, hout]
    simp only [State.orLeave, index_of_get hnd]
    exact .fail hpc hr hout hnd

/-- **Every step of the scheduler is a move.** -/
theorem schedule_move (h : Acct ctx.plan dropped s) (hg : ctx.plan.Good outs) (hW : 0 < s.workers.length)
    (hclean : s.pc.looping = true → dropped = []) (hs : s.schedule ctx = some s') : SchedMove ctx s s' := by
  cases hpc : s.pc with
  | outer =>
    simp only [State.schedule, hpc] at hs
    split at hs <;> cases hs
    · exact .goto s.nextWorker (.enter hpc ‹_›)
    · exact .goto s.nextWorker (.finish hpc ‹_›)
  | inner =>
    have hd : dropped = [] := hclean (by rw [hpc]; rfl)
    subst hd
    simp only [State.schedule, hpc] at hs
    split at hs <;> cases hs
    swap
    · exact .goto s.nextWorker (.capped hpc ‹_›)
    rename_i hcap
    cases hp : s.pending with
    | some task =>
      rw [pickNext_retry hp]
      have hassert : (debugAssert (decide (0 < s.workers.length)) "n > 0" : Outcome (ExecError K E) Unit) = ok () := by
        simp [debugAssert, hW]
      simp only [State.enterDispatch, State.orLeave, hassert]
      exact .retry hpc hcap hp
    | none =>
      cases hr : s.ready with
      | nil =>
        rw [pickNext_drained hp hr]
        exact .goto s.nextWorker (.drained hpc hp hr)
      | cons id ready =>
        rw [pickNext_node hp hr]
        exact runNode_move h hg hW hpc hcap hp hr
  | dispatch task left =>
    cases left with
    | zero =>
      simp only [State.schedule, hpc] at hs
      cases hs
      exact .park hpc
    | succ left =>
      simp only [State.schedule, hpc] at hs
      cases hs
      exact attempt_move hW hpc
  | check =>
    simp only [State.schedule, hpc] at hs
    cases hs
    unfold State.checkCycle
    split
    · rename_i h0
      rw [remainingKeys_ok hg.needed_length h.books.indeg_length]
      exact .goto s.nextWorker (.cycle hpc h0)
    · exact .goto s.nextWorker (.wait hpc (Nat.pos_of_ne_zero ‹_›))
  | recv =>
    have hd : dropped = [] := hclean (by rw [hpc]; rfl)
    subst hd
    have hrecv : s.schedule ctx = s.recv ctx.plan := by unfold State.schedule; rw [hpc]
    rw [hrecv] at hs
    unfold State.recv at hs
    cases hr : s.results with
    | cons res results =>
      simp only [hr] at hs
      cases hs
      exact receive_move h hg hpc hr
    | nil =>
      simp only [hr] at hs
      split at hs <;> cases hs
      rename_i hgone
      exact .goto s.nextWorker (.allGone hpc hr (List.all_eq_true.mp hgone))
  | close i r =>
    simp only [State.schedule, hpc] at hs
    cases hs
    unfold State.closeTx
    cases hwk : s.workers[i]? with
    | some wk => exact .closeTx hpc hwk
    | none => exact .goto s.nextWorker (.closed hpc (List.getElem?_eq_none_iff.mp hwk))
  | join i r =>
    simp only [State.schedule, hpc, State.joinWorker] at hs
    cases hwk : s.workers[i]? with
    | some wk =>
      simp only [hwk] at hs
      split at hs <;> cases hs
      exact .goto s.nextWorker (.joined hpc hwk ‹_›)
    | none =>
      simp only [hwk] at hs
      cases hs
      exact .leave hpc (List.getElem?_eq_none_iff.mp hwk)
  | returned r => simp only [State.schedule, hpc] at hs; cases hs
  | panicked p => simp only [State.schedule, hpc] at hs; cases hs

/-- Any step of a worker: a move, or, when the scheduler has gone, the end of its loop with whatever is queued. -/
inductive WorkerStep (resRx : Bool) (w : Nat) (wk : Worker O E ω) :
    Worker O E ω → List (TaskResult O E) → List (Event O E) → Prop
  | move {wk' : Worker O E ω} {new : List (TaskResult O E)} {seen : List (Event O E)}
      (h : WorkerMove w wk wk' new seen) : WorkerStep resRx w wk wk' new seen
  | hungUp (hrx : resRx = false) (hlive : wk.status.gone = false) :
      WorkerStep resRx w wk { wk with queue := [], status := .exited } [] []

omit [ExecObserver R] in
theorem send_cases (s : State K O E ω R) (w : Nat) {wk : Worker O E ω} {task : Task O E ω} (res : TaskResult O E)
    {env : ω} (hst : wk.status = .running task) (hid : res.id = task.id) (hf : task.func env task.args = res.call) :
    ∃ wk' new seen, WorkerStep s.resRx w wk wk' new seen ∧ s.send w wk res =
      { s with workers := s.workers.set w wk', results := s.results ++ new, log := s.log ++ seen } := by
  cases hopen : s.resRx with
  | true => exact ⟨_, [res], [], .move (.finish hst hid hf), by simp [State.send, hopen]⟩
  | false => exact ⟨_, [], [], .hungUp rfl (by rw [hst]; rfl), by simp [State.send, hopen]⟩

omit [ExecObserver R] in
theorem work_cases {w : Nat} {env : ω} (hs : s.work w env = some s') :
    ∃ wk wk' new seen, s.workers[w]? = some wk ∧ WorkerStep s.resRx w wk wk' new seen ∧
      s' = { s with workers := s.workers.set w wk', results := s.results ++ new, log := s.log ++ seen } := by
  unfold State.work at hs
  cases hwk : s.workers[w]? with
  | none => simp only [hwk] at hs; cases hs
  | some wk =>
    simp only [hwk] at hs
    cases hst : wk.status with
    | waiting =>
      simp only [hst] at hs
      cases hq : wk.queue with
      | nil =>
        simp only [hq] at hs
        split at hs <;> cases hs
        rename_i htx
        exact ⟨wk, _, [], [], rfl, .move (.leave hst hq (by simpa using htx)), by simp [hq]⟩
      | cons task queue =>
        simp only [hq] at hs
        cases hs
        exact ⟨wk, _, [], _, rfl, .move (.take hst hq), by simp⟩
    | running task =>
      simp only [hst] at hs
      cases hf : task.func env task.args with
      | ok v =>
        simp only [hf, Option.some.injEq] at hs
        obtain ⟨wk', new, seen, hstep, hsend⟩ := send_cases s w ⟨task.id, .ok v⟩ hst rfl hf
        exact ⟨wk, wk', new, seen, rfl, hstep, hs.symm.trans hsend⟩
      | err e =>
        simp only [hf, Option.some.injEq] at hs
        obtain ⟨wk', new, seen, hstep, hsend⟩ := send_cases s w ⟨task.id, .error e⟩ hst rfl hf
        exact ⟨wk, wk', new, seen, rfl, hstep, hs.symm.trans hsend⟩
      | panic =>
        simp only [hf] at hs
        cases hs
        exact ⟨wk, _, [], [], rfl, .move (.panic hst hf), by simp⟩
    | exited => simp only [hst] at hs; cases hs
    | panicked lost => simp only [hst] at hs; cases hs

omit [ExecObserver R] in
/-- **Every step of a worker is a move.** -/
theorem work_move (hrx : s.resRx = true ∨ ∀ wk ∈ s.workers, wk.status.gone = true) {w : Nat} {env : ω}
    (hs : s.work w env = some s') : ∃ wk wk' new seen, s.workers[w]? = some wk ∧ WorkerMove w wk wk' new seen ∧
      s' = { s with workers := s.workers.set w wk', results := s.results ++ new, log := s.log ++ seen } := by
  obtain ⟨wk, wk', new, seen, hwk, hstep, heq⟩ := work_cases hs
  cases hstep with
  | move hm => exact ⟨wk, wk', new, seen, hwk, hm, heq⟩
  | hungUp hclosed hlive =>
    rcases hrx with hopen | hgone
    · rw [hclosed] at hopen; cases hopen
    · rw [hgone wk (List.mem_of_getElem? hwk)] at hlive; cases hlive

end

end DagExec

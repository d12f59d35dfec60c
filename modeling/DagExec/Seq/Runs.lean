import DagExec.Seq.Loop
import DagExec.Common.Report
import DagExec.Spec.Small

/-!
# Runs of `run_sequential`

`SeqRun dag outs r` lists what a run can return and which functions it has called by then; `runSequential_run` shows
that every run is one of these. From it: the run returns `Ok` exactly when all keys exist, the needed subgraph is
acyclic and every needed task succeeds, and the map is then the reference values of the requested keys.
-/

namespace DagExec

open Outcome WhileLoop

variable {K O E ω : Type}

/-- What `execute` and `run` return together, and the calls made by then. -/
inductive SeqRun [DecidableEq K] (dag : Dag K O E ω) (outs : List K) :
    Outcome (ExecError K E) (List (Option O) × List Bool) → Outcome (ExecError K E) (HashMap K O) →
      List (Invocation O) → Prop
  | noOutputs (h : outs = []) : SeqRun dag outs (.err (.internalInvariant "outputs must be non-empty"))
      (.err (.internalInvariant "outputs must be non-empty")) []
  | missing {k : K} (hmem : k ∈ outs) (h : dag.index.get k = none) :
      SeqRun dag outs (.err (.outputMissing k)) (.err (.outputMissing k)) []
  | ok {plan : Plan K O E ω} {s : SeqState O Unit} {m : HashMap K O} (hd : plan.dag = dag) (hg : plan.Good outs)
      (inv : SeqInv plan s) (hpre : outs ≠ [] ∧ dag.KeysExist outs) (hall : ∀ i, dag.Needed outs i → isDone s.vals i = true)
      (hm : collectOutputs dag outs s.vals = .ok m) : SeqRun dag outs (.ok (s.vals, plan.needed)) (.ok m) s.calls
  | cycle {plan : Plan K O E ω} {s : SeqState O Unit} (hd : plan.dag = dag) (hg : plan.Good outs) (inv : SeqInv plan s)
      (hpre : outs ≠ [] ∧ dag.KeysExist outs) (hq : s.q = []) (hstuck : ∃ i, dag.Needed outs i ∧ isDone s.vals i = false) :
      SeqRun dag outs (.err (.cycle (plan.report s.indeg))) (.err (.cycle (plan.report s.indeg))) s.calls
  | failed {plan : Plan K O E ω} {s : SeqState O Unit} {id : NodeId} {nd : Node K O E ω} {f : TaskFn O E ω}
      {args : List O} {w : ω} {e : E} (hd : plan.dag = dag) (hg : plan.Good outs) (inv : SeqInv plan s)
      (hpre : outs ≠ [] ∧ dag.KeysExist outs) (hq : id ∈ s.q) (hi : dag.nodes[id]? = some nd) (hk : nd.kind = .task f)
      (ha : RefArgs dag id args) (hf : f w args = .err e) :
      SeqRun dag outs (.err (.taskFailed nd.key e)) (.err (.taskFailed nd.key e)) (s.calls ++ [⟨id, args⟩])
  | panicked {plan : Plan K O E ω} {s : SeqState O Unit} {id : NodeId} {nd : Node K O E ω} {f : TaskFn O E ω}
      {args : List O} {w : ω} (hd : plan.dag = dag) (hg : plan.Good outs) (inv : SeqInv plan s)
      (hpre : outs ≠ [] ∧ dag.KeysExist outs) (hq : id ∈ s.q) (hi : dag.nodes[id]? = some nd) (hk : nd.kind = .task f)
      (ha : RefArgs dag id args) (hf : f w args = .panic) :
      SeqRun dag outs (.panic .taskPanicked) (.panic .taskPanicked) (s.calls ++ [⟨id, args⟩])

section

variable [DecidableEq K] {dag : Dag K O E ω} {outs : List K}

/-- Every run of `run_sequential` is one of the listed ones. -/
theorem runSequential_run (dag : Dag K O E ω) (outs : List K) (env : Nat → ω) :
    SeqRun dag outs (execute dag outs env ()).result (runSequential dag outs env).1
      (runSequential dag outs env).2 := by
  by_cases hne : outs = []
  · subst hne
    exact .noOutputs rfl
  have hstart := seqStart_eq hne dag ()
  by_cases hkeys : dag.KeysExist outs
  swap
  · obtain ⟨k, hk, hno, herr⟩ := prepare_missing hkeys ()
    have hex : execute dag outs env () = ⟨.err (.outputMissing k), (), []⟩ := by
      simp only [execute, hstart, herr]
    rw [runSequential, hex]
    exact .missing hk hno
  obtain ⟨p, hp, hd, hg, hb, h0, -⟩ := prepare_ok hkeys ()
  obtain ⟨r, hr, s, inv, hend⟩ := seqLoop_ends hg env (Prepared.seqInv hb h0)
  obtain ⟨o, s'⟩ := r
  have hex : execute dag outs env () = ⟨o >>= fun _ => seqVerdict p.plan s', s'.observer, s'.calls⟩ := by
    simp only [execute, hstart, hp, hr]
  rw [runSequential, hex]
  cases hend with
  | drained hq =>
    subst hd
    rcases inv.verdict (E := E) hg with ⟨hdone, hverdict⟩ | ⟨hstuck, hverdict⟩
    · obtain ⟨m, hm, -⟩ := collect_of_done hkeys hdone
      simp only [ok_bind, hverdict, hm]
      exact .ok rfl hg inv ⟨hne, hkeys⟩ hdone hm
    · simp only [ok_bind, hverdict, err_bind]
      exact .cycle rfl hg inv ⟨hne, hkeys⟩ hq hstuck
  | failed hq hi hk ha hf hcalls =>
    simp only [err_bind, hcalls]
    exact .failed hd hg inv ⟨hne, hkeys⟩ hq (hd ▸ hi) hk (hd ▸ ha) hf
  | panicked hq hi hk ha hf hcalls =>
    simp only [panic_bind, hcalls]
    exact .panicked hd hg inv ⟨hne, hkeys⟩ hq (hd ▸ hi) hk (hd ▸ ha) hf

/-- A run that is neither rejected nor panics makes a report. -/
theorem SeqRun.report {ex : Outcome (ExecError K E) (List (Option O) × List Bool)}
    {r : Outcome (ExecError K E) (HashMap K O)} {calls : List (Invocation O)} (h : SeqRun dag outs ex r calls) :
    (¬ (outs ≠ [] ∧ dag.KeysExist outs) ∧ (∃ e, r = .err e ∧ ∀ k e', e ≠ .taskFailed k e') ∧ calls = []) ∨
      (∃ p, r = .panic p) ∨ ∃ vals, Report dag outs vals r := by
  cases h with
  | noOutputs h => exact .inl ⟨fun hc => hc.1 h, ⟨_, rfl, nofun⟩, rfl⟩
  | missing hmem h =>
    refine .inl ⟨fun hc => ?_, ⟨_, rfl, nofun⟩, rfl⟩
    obtain ⟨i, hi⟩ := hc.2 _ hmem
    rw [h] at hi
    cases hi
  | ok hd hg inv hpre hall hm => exact .inr (.inr ⟨_, .ok hd inv.books hpre.2 hall hm⟩)
  | cycle hd hg inv _ hq =>
    exact .inr (.inr ⟨_, .cycle hd hg (inv.books.congr fun i => by rw [hq]; rfl)⟩)
  | failed hd hg inv _ hq hi hk ha hf =>
    exact .inr (.inr ⟨[], .failed (hd ▸ inv.needed_of_queued hg hq) hi hk ha hf⟩)
  | panicked => exact .inr (.inl ⟨_, rfl⟩)

/-! ## Calls -/

section Calls

variable {ex : Outcome (ExecError K E) (List (Option O) × List Bool)} {r : Outcome (ExecError K E) (HashMap K O)}
  {calls : List (Invocation O)}

omit [DecidableEq K] in
/-- One more call, of a queued node, is a new one. -/
theorem SeqInv.nodup_append {plan : Plan K O E ω} {s : SeqState O Unit} (h : SeqInv plan s) {id : NodeId}
    (hq : id ∈ s.q) (args : List O) : ((s.calls ++ [(⟨id, args⟩ : Invocation O)]).map Invocation.id).Nodup := by
  rw [List.map_append]
  refine h.calls_nodup.append (List.nodup_singleton _) fun i hi hi' => ?_
  rw [show i = id from List.mem_singleton.mp hi'] at hi
  exact h.not_called hq hi

omit [DecidableEq K] in
theorem SeqInv.called_needed {plan : Plan K O E ω} {s : SeqState O Unit} (h : SeqInv plan s) (hg : plan.Good outs)
    {i : NodeId} (hi : i ∈ s.calls.map Invocation.id) : plan.dag.Needed outs i ∧ ∃ f, plan.dag.IsTask i f := by
  obtain ⟨c, hc, rfl⟩ := List.mem_map.mp hi
  obtain ⟨hd, hf, -⟩ := h.calls_done c hc
  exact ⟨h.books.needed_of_done hg hd, hf⟩

/-- No function is called twice. -/
theorem SeqRun.called_nodup (h : SeqRun dag outs ex r calls) : (calls.map Invocation.id).Nodup := by
  cases h with
  | noOutputs => exact List.nodup_nil
  | missing => exact List.nodup_nil
  | ok hd hg inv => exact inv.calls_nodup
  | cycle hd hg inv => exact inv.calls_nodup
  | failed hd hg inv _ hq => exact inv.nodup_append hq _
  | panicked hd hg inv _ hq => exact inv.nodup_append hq _

/-- Only needed tasks are called. -/
theorem SeqRun.called_needed (h : SeqRun dag outs ex r calls) :
    ∀ i ∈ calls.map Invocation.id, dag.Needed outs i ∧ ∃ f, dag.IsTask i f := by
  intro i hi
  have happend : ∀ {plan : Plan K O E ω} {s : SeqState O Unit} {id : NodeId} {nd : Node K O E ω} {f : TaskFn O E ω}
      {args : List O}, plan.dag = dag → plan.Good outs → SeqInv plan s → id ∈ s.q → dag.nodes[id]? = some nd →
      nd.kind = .task f → i ∈ (s.calls ++ [(⟨id, args⟩ : Invocation O)]).map Invocation.id →
      dag.Needed outs i ∧ ∃ f, dag.IsTask i f := by
    intro plan s id nd f args hd hg inv hq hid hk hmem
    subst hd
    rw [List.map_append, List.mem_append] at hmem
    rcases hmem with hmem | hmem
    · exact inv.called_needed hg hmem
    · rw [show i = id from List.mem_singleton.mp hmem]
      exact ⟨inv.needed_of_queued hg hq, f, nd, hid, hk⟩
  cases h with
  | noOutputs => cases hi
  | missing => cases hi
  | ok hd hg inv => subst hd; exact inv.called_needed hg hi
  | cycle hd hg inv => subst hd; exact inv.called_needed hg hi
  | failed hd hg inv _ hq hid hk => exact happend hd hg inv hq hid hk hi
  | panicked hd hg inv _ hq hid hk => exact happend hd hg inv hq hid hk hi

/-- A rejected run calls nothing. -/
theorem SeqRun.not_called (h : SeqRun dag outs ex r calls) (hrej : ¬ (outs ≠ [] ∧ dag.KeysExist outs)) :
    calls = [] := by
  cases h with
  | noOutputs => rfl
  | missing => rfl
  | ok _ _ _ hpre => exact absurd hpre hrej
  | cycle _ _ _ hpre => exact absurd hpre hrej
  | failed _ _ _ hpre => exact absurd hpre hrej
  | panicked _ _ _ hpre => exact absurd hpre hrej

/-- A run that reports a cycle has called only nodes with a value. -/
theorem SeqRun.called_value (h : SeqRun dag outs ex r calls) {rem : List K} (hr : r = .err (.cycle rem)) :
    ∀ c ∈ calls, ∃ v, Evaluates dag c.id v := by
  cases h with
  | cycle hd hg inv =>
    subst hd
    exact fun c hc => (isDone_iff.mp (inv.calls_done c hc).1).imp fun v hv => inv.books.value c.id v hv
  | _ => cases hr

/-- A successful run has called every needed task. -/
theorem SeqRun.called_of_ok (h : SeqRun dag outs ex r calls) {m : HashMap K O} (hm : r = .ok m) {i : NodeId}
    {f : TaskFn O E ω} (hn : dag.Needed outs i) (hf : dag.IsTask i f) : i ∈ calls.map Invocation.id := by
  cases h with
  | ok hd hg inv _ hall => exact inv.done_called i f (hd ▸ hf) (hall i hn)
  | _ => cases hm

end Calls

/-! ## Functional correctness -/

omit [DecidableEq K] in
theorem SeqInv.queued_task {plan : Plan K O E ω} {s : SeqState O Unit} (h : SeqInv plan s) (hd : plan.dag = dag)
    (hg : plan.Good outs) {id : NodeId} {nd : Node K O E ω} {f : TaskFn O E ω} (hq : id ∈ s.q)
    (hi : dag.nodes[id]? = some nd) (hk : nd.kind = .task f) : dag.Needed outs id ∧ dag.IsTask id f := by
  subst hd
  exact ⟨h.needed_of_queued hg hq, nd, hi, hk⟩

/-- When no needed task panics, the run does not. -/
theorem runSequential_no_panic (hs : TasksReturn dag outs) (env : Nat → ω) (p : Panic) :
    (runSequential dag outs env).1 ≠ .panic p := by
  have hrun := runSequential_run dag outs env
  generalize (runSequential dag outs env).1 = r, (execute dag outs env ()).result = ex,
    (runSequential dag outs env).2 = calls at hrun
  cases hrun with
  | panicked hd hg inv _ hq hi hk ha hf =>
    obtain ⟨hn, hf'⟩ := inv.queued_task hd hg hq hi hk
    exact absurd hf (hs _ _ _ hn hf' ha _)
  | _ => nofun

/-- With all keys there, no cycle and no failing task, the run returns `Ok`. -/
theorem runSequential_ok (hne : outs ≠ []) (hkeys : dag.KeysExist outs) (hacyc : dag.Acyclic outs)
    (hsucc : TasksSucceed dag outs) (env : Nat → ω) : ∃ m, (runSequential dag outs env).1 = .ok m := by
  have hrun := runSequential_run dag outs env
  generalize (runSequential dag outs env).1 = r, (execute dag outs env ()).result = ex,
    (runSequential dag outs env).2 = calls at hrun
  cases hrun with
  | noOutputs h => exact absurd h hne
  | missing hmem h =>
    obtain ⟨i, hi⟩ := hkeys _ hmem
    rw [h] at hi
    cases hi
  | ok => exact ⟨_, rfl⟩
  | cycle hd hg inv _ hq hstuck =>
    subst hd
    obtain ⟨i, hi, hnd⟩ := hstuck
    have hc := (inv.books.not_done_iff hg (fun i => by rw [hq]; rfl) hi).mp hnd
    exact absurd hc (hacyc.not_reachesCycle hi)
  | failed hd hg inv _ hq hi hk ha hf =>
    obtain ⟨hn, hf'⟩ := inv.queued_task hd hg hq hi hk
    obtain ⟨v, hv⟩ := hsucc _ _ _ hn hf' ha _
    rw [hf] at hv
    cases hv
  | panicked hd hg inv _ hq hi hk ha hf =>
    obtain ⟨hn, hf'⟩ := inv.queued_task hd hg hq hi hk
    obtain ⟨v, hv⟩ := hsucc _ _ _ hn hf' ha _
    rw [hf] at hv
    cases hv

/-- A successful run makes a report. -/
theorem runSequential_report {env : Nat → ω} {m : HashMap K O} (hm : (runSequential dag outs env).1 = .ok m) :
    ∃ vals, Report dag outs vals (.ok m) := by
  rcases (runSequential_run dag outs env).report with ⟨-, ⟨e, he, -⟩, -⟩ | ⟨p, hp⟩ | hrep
  · rw [hm] at he; cases he
  · rw [hm] at hp; cases hp
  · rwa [hm] at hrep

/-- What a `Cycle` error lists. -/
theorem runSequential_cyclicKeys {env : Nat → ω} {rem : List K}
    (h : (runSequential dag outs env).1 = .err (.cycle rem)) : CyclicKeys dag outs rem := by
  have hrun := runSequential_run dag outs env
  generalize (runSequential dag outs env).1 = r, (execute dag outs env ()).result = ex,
    (runSequential dag outs env).2 = calls at hrun h
  cases hrun with
  | cycle hd hg inv _ hq =>
    have hrep : Report dag outs _ (.err (.cycle _)) := .cycle hd hg (inv.books.congr fun i => by rw [hq]; rfl)
    exact hrep.cyclicKeys_of_cycle h
  | _ => cases h

/-- **Which verdict**: `Ok` when the needed subgraph is acyclic and every needed task succeeds, `Cycle` when it is not
acyclic and they do, and otherwise a failure or a panic. -/
theorem runSequential_verdicts (hdet : dag.Deterministic) (hne : outs ≠ []) (hkeys : dag.KeysExist outs)
    (env : Nat → ω) :
    ((∃ m, (runSequential dag outs env).1 = .ok m) ↔ dag.Acyclic outs ∧ TasksSucceed dag outs) ∧
    ((∃ rem, (runSequential dag outs env).1 = .err (.cycle rem)) ↔ ¬ dag.Acyclic outs ∧ TasksSucceed dag outs) ∧
    (((∃ k e, (runSequential dag outs env).1 = .err (.taskFailed k e)) ∨ ∃ p, (runSequential dag outs env).1 = .panic p) ↔
      ¬ TasksSucceed dag outs) := by
  have hok : ∀ m, (runSequential dag outs env).1 = .ok m → dag.Acyclic outs ∧ TasksSucceed dag outs := by
    intro m hm
    obtain ⟨vals, hrep⟩ := runSequential_report hm
    have hv := hrep.evaluates rfl
    exact ⟨acyclic_of_evaluates hv, tasksSucceed_of_evaluates hdet hv⟩
  have hsucc := fun hacyc hs => runSequential_ok hne hkeys hacyc hs env
  rcases (runSequential_run dag outs env).report with ⟨hrej, -⟩ | ⟨p, hp⟩ | ⟨vals, hrep⟩
  · exact absurd ⟨hne, hkeys⟩ hrej
  · have hs : ¬ TasksSucceed dag outs := fun hs => runSequential_no_panic hs.returns env p hp
    simp [hp, hs]
  · generalize (runSequential dag outs env).1 = r at hok hsucc hrep
    have hcycle : ∀ rem, r = .err (.cycle rem) → ¬ dag.Acyclic outs ∧ TasksSucceed dag outs := by
      intro rem hr
      have hs := hrep.tasksSucceed_of_cycle hdet hr
      refine ⟨fun hacyc => ?_, hs⟩
      obtain ⟨m, hm⟩ := hsucc hacyc hs
      rw [hr] at hm
      cases hm
    cases hrep with
    | ok hd hb _ hall hm =>
      obtain ⟨hacyc, hs⟩ := hok _ rfl
      simp [hacyc, hs]
    | cycle hd hg hb =>
      obtain ⟨hacyc, hs⟩ := hcycle _ rfl
      simp [hacyc, hs]
    | failed hn hi hk ha hf =>
      have hs : ¬ TasksSucceed dag outs := fun hs => by
        obtain ⟨v, hv⟩ := hs _ _ _ hn ⟨_, hi, hk⟩ ha _
        rw [hf] at hv
        cases hv
      simp [hs]

/-- **Functional correctness.** `run_sequential` returns `Ok` exactly when every key exists, the needed subgraph is
acyclic and every needed task succeeds on the reference values of its dependencies. The keys of the map are then the
requested keys and its values their reference values, and `collect_outputs` never fails after a successful
`execute`. -/
theorem runSequential_ok_iff (dag : Dag K O E ω) (hdet : dag.Deterministic) (outs : List K) (hne : outs ≠ [])
    (env : Nat → ω) :
    ((∃ m, (runSequential dag outs env).1 = .ok m) ↔
      dag.KeysExist outs ∧ dag.Acyclic outs ∧ TasksSucceed dag outs) ∧
    (∀ m, (runSequential dag outs env).1 = .ok m →
      (∀ k, (∃ v, m.get k = some v) ↔ k ∈ outs) ∧
      ∀ k v, m.get k = some v ↔ k ∈ outs ∧ ∃ i, dag.index.get k = some i ∧ Evaluates dag i v) ∧
    ∀ artifacts, (execute dag outs env ()).result = .ok artifacts →
      ∃ m, collectOutputs dag outs artifacts.1 = .ok m := by
  have hverdicts := fun hkeys => (runSequential_verdicts hdet hne hkeys env).1
  refine ⟨⟨fun hok => ?_, fun ⟨hkeys, hsucc⟩ => (hverdicts hkeys).mpr hsucc⟩, fun m hm => ?_, ?_⟩
  · obtain ⟨m, hm⟩ := id hok
    obtain ⟨vals, hrep⟩ := runSequential_report hm
    have hkeys := hrep.keysExist rfl
    exact ⟨hkeys, (hverdicts hkeys).mp hok⟩
  · obtain ⟨vals, hrep⟩ := runSequential_report hm
    exact hrep.ok_iff hdet rfl
  · intro artifacts hart
    have hrun := runSequential_run dag outs env
    generalize (runSequential dag outs env).1 = r, (execute dag outs env ()).result = ex,
      (runSequential dag outs env).2 = calls at hrun hart
    cases hrun with
    | ok _ _ _ _ _ hcollect => cases hart; exact ⟨_, hcollect⟩
    | _ => cases hart

end

theorem runSequential_diamond :
    ∃ m, (runSequential (Dag.diamond (.ok 6)) [3] fun _ => ()).1 = .ok m ∧ m.get 3 = some 13 := by
  obtain ⟨hiff, hval, -⟩ := runSequential_ok_iff (Dag.diamond (.ok 6)) Dag.diamond_deterministic [3] (by decide)
    fun _ => ()
  obtain ⟨m, hm⟩ := hiff.mpr
    ⟨Dag.diamond_keysExist (by decide), Dag.diamond_acyclic 6 (by decide), Dag.diamond_tasksSucceed 6⟩
  obtain ⟨-, -, -, h3⟩ := Dag.diamond_evaluates 6
  exact ⟨m, hm, ((hval m hm).2 3 13).mpr ⟨by decide, 3, rfl, h3⟩⟩

end DagExec

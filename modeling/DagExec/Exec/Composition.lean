import DagExec.Build.Embedding
import DagExec.Exec.Insertion
import DagExec.Par.FalseCycle
import DagExec.Seq.Renaming

/-!
# Requests and graphs, put together

A request is answered exactly when every node it needs has a value (`Answered`), whichever executor answers it. So the
answers to two requests make the answer to both together, and what it calls is what they call (`requests_compose`). A
graph that is extended by more calls answers the old requests as before (`extension_invisible`).
-/

namespace DagExec

open Outcome DagBuilder DepGraph

variable {K O E ω : Type} {dag : Dag K O E ω} {outs xs ys : List K}

/-! ## Answered requests -/

/-- Every requested key exists and every needed node has a value. -/
structure Dag.Answerable (dag : Dag K O E ω) (outs : List K) : Prop where
  keys : dag.KeysExist outs
  values : ∀ i, dag.Needed outs i → ∃ v, Evaluates dag i v

theorem Dag.keysExist_append : dag.KeysExist (xs ++ ys) ↔ dag.KeysExist xs ∧ dag.KeysExist ys := by
  unfold KeysExist
  constructor
  · intro h
    exact ⟨fun k hk => h k (List.mem_append_left ys hk), fun k hk => h k (List.mem_append_right xs hk)⟩
  · rintro ⟨hx, hy⟩ k hk
    exact (List.mem_append.mp hk).elim (hx k) (hy k)

theorem Dag.needed_append {i : NodeId} : dag.Needed (xs ++ ys) i ↔ dag.Needed xs i ∨ dag.Needed ys i := by
  constructor
  · rintro ⟨s, ⟨k, hk, hs⟩, hr⟩
    exact (List.mem_append.mp hk).imp (fun hx => ⟨s, ⟨k, hx, hs⟩, hr⟩) fun hy => ⟨s, ⟨k, hy, hs⟩, hr⟩
  · rintro (⟨s, ⟨k, hk, hs⟩, hr⟩ | ⟨s, ⟨k, hk, hs⟩, hr⟩)
    · exact ⟨s, ⟨k, List.mem_append_left ys hk, hs⟩, hr⟩
    · exact ⟨s, ⟨k, List.mem_append_right xs hk, hs⟩, hr⟩

theorem Dag.answerable_append : dag.Answerable (xs ++ ys) ↔ dag.Answerable xs ∧ dag.Answerable ys := by
  constructor
  · rintro ⟨hkeys, hvals⟩
    obtain ⟨hx, hy⟩ := Dag.keysExist_append.mp hkeys
    exact ⟨⟨hx, fun i hi => hvals i (Dag.needed_append.mpr (.inl hi))⟩,
      hy, fun i hi => hvals i (Dag.needed_append.mpr (.inr hi))⟩
  · rintro ⟨hx, hy⟩
    exact ⟨Dag.keysExist_append.mpr ⟨hx.keys, hy.keys⟩,
      fun i hi => (Dag.needed_append.mp hi).elim (hx.values i) (hy.values i)⟩

variable [DecidableEq K]

/-- `m` is what a completed run of either executor returned for the request, and `called` the nodes it called. -/
inductive Answers (dag : Dag K O E ω) (outs : List K) (m : HashMap K O) (called : List NodeId) : Prop
  | sequential (env : Nat → ω) (h : (runSequential dag outs env).1 = .ok m)
      (hcalled : (runSequential dag outs env).2.map Invocation.id = called)
  | parallel (cfg : ExecutorConfig) (panics : Bool) (log : List (Event O E)) (h : RunParallel dag cfg outs panics (.ok m) log)
      (hcalled : log.filterMap Event.callId = called)

namespace Answers

variable {m : HashMap K O} {called : List NodeId}

theorem report (h : Answers dag outs m called) : ∃ vals, Report dag outs vals (.ok m : Outcome (ExecError K E) _) := by
  cases h with
  | sequential env h => exact runSequential_report h
  | parallel cfg panics log h =>
    rcases h.report with ⟨-, ⟨e, he, -⟩, -⟩ | ⟨-, msg, he⟩ | ⟨-, hr⟩
    · cases he
    · cases he
    · exact hr

theorem answerable (h : Answers dag outs m called) : dag.Answerable outs := by
  obtain ⟨vals, hr⟩ := h.report
  exact ⟨hr.keysExist rfl, hr.evaluates rfl⟩

/-- The functions called are those of the needed tasks, once each. -/
theorem called_iff (h : Answers dag outs m called) :
    called.Nodup ∧ ∀ i, i ∈ called ↔ dag.Needed outs i ∧ ∃ f, dag.IsTask i f := by
  cases h with
  | sequential env h hcalled =>
    subst hcalled
    have hrun := runSequential_run dag outs env
    exact ⟨hrun.called_nodup, fun i => ⟨hrun.called_needed i, fun ⟨hn, f, hf⟩ => hrun.called_of_ok h hn hf⟩⟩
  | parallel cfg panics log h hcalled =>
    subst hcalled
    exact ⟨h.called_nodup, fun i => ⟨h.called_needed i, fun ⟨hn, f, hf⟩ => h.called_of_ok rfl hn hf⟩⟩

theorem get_iff (h : Answers dag outs m called) (hdet : dag.Deterministic) (k : K) (v : O) :
    m.get k = some v ↔ k ∈ outs ∧ ∃ i, dag.index.get k = some i ∧ Evaluates dag i v := by
  obtain ⟨vals, hr⟩ := h.report
  exact (hr.ok_iff hdet rfl).2 k v

end Answers

/-- What can be answered is answered, by the sequential executor. -/
theorem Dag.Answerable.runSequential (h : dag.Answerable outs) (hdet : dag.Deterministic) (hne : outs ≠ [])
    (env : Nat → ω) : ∃ m, (runSequential dag outs env).1 = .ok m :=
  runSequential_ok hne h.keys (acyclic_of_evaluates h.values) (tasksSucceed_of_evaluates hdet h.values) env

/-- And by the parallel one, unless the request is a false cycle. -/
theorem Dag.Answerable.runParallel (h : dag.Answerable outs) (hdet : dag.Deterministic) (hne : outs ≠ [])
    {cfg : ExecutorConfig} (hv : cfg.Valid) (hno : ¬ FalseCycle dag cfg outs) {panics : Bool}
    {r : Outcome (ExecError K E) (HashMap K O)} {log : List (Event O E)} (hr : RunParallel dag cfg outs panics r log) :
    ∃ m, r = .ok m :=
  hr.ok_of_not_falseCycle hno hv hne h.keys (acyclic_of_evaluates h.values) (tasksSucceed_of_evaluates hdet h.values)

/-- **Requests compose.** With deterministic task functions, two requests together are answered by `run_sequential`
exactly when each of them is, and then, whichever executors answer, the map is the union of the two maps, which agree
where both have a value, and the functions called are those that the two call. -/
theorem requests_compose (dag : Dag K O E ω) (hdet : dag.Deterministic) (xs ys : List K) (hx : xs ≠ []) (hy : ys ≠ []) :
    (∀ env, (∃ m, (runSequential dag (xs ++ ys) env).1 = .ok m) ↔
      (∃ m, (runSequential dag xs env).1 = .ok m) ∧ ∃ m, (runSequential dag ys env).1 = .ok m) ∧
    ∀ m m₁ m₂ called called₁ called₂, Answers dag (xs ++ ys) m called → Answers dag xs m₁ called₁ →
      Answers dag ys m₂ called₂ → (∀ k v, m.get k = some v ↔ m₁.get k = some v ∨ m₂.get k = some v) ∧
        (∀ k v₁ v₂, m₁.get k = some v₁ → m₂.get k = some v₂ → v₁ = v₂) ∧
        ∀ i, i ∈ called ↔ i ∈ called₁ ∨ i ∈ called₂ := by
  refine ⟨fun env => ?_, fun m m₁ m₂ called called₁ called₂ h h₁ h₂ => ⟨fun k v => ?_, fun k v₁ v₂ hk₁ hk₂ => ?_, fun i => ?_⟩⟩
  · constructor
    · rintro ⟨m, hm⟩
      obtain ⟨hax, hay⟩ := Dag.answerable_append.mp (Answers.sequential env hm rfl).answerable
      exact ⟨hax.runSequential hdet hx env, hay.runSequential hdet hy env⟩
    · rintro ⟨⟨m₁, hm₁⟩, m₂, hm₂⟩
      have hboth := Dag.answerable_append.mpr
        ⟨(Answers.sequential env hm₁ rfl).answerable, (Answers.sequential env hm₂ rfl).answerable⟩
      exact hboth.runSequential hdet (List.append_ne_nil_of_left_ne_nil hx ys) env
  · rw [h.get_iff hdet, h₁.get_iff hdet, h₂.get_iff hdet, List.mem_append, or_and_right]
  · obtain ⟨-, i, hi, hv₁⟩ := (h₁.get_iff hdet k v₁).mp hk₁
    obtain ⟨-, j, hj, hv₂⟩ := (h₂.get_iff hdet k v₂).mp hk₂
    rw [hi] at hj
    cases hj
    exact hv₁.unique hdet hv₂
  · rw [h.called_iff.2, h₁.called_iff.2, h₂.called_iff.2, Dag.needed_append, or_and_right]

omit [DecidableEq K] in
/-- The two tasks on the source, requested together and apart. -/
theorem requests_compose_diamond : ∃ m m₁ m₂,
    (runSequential (Dag.diamond (.ok 6)) ([1] ++ [2]) fun _ => ()).1 = .ok m ∧
      (runSequential (Dag.diamond (.ok 6)) [1] fun _ => ()).1 = .ok m₁ ∧
      (runSequential (Dag.diamond (.ok 6)) [2] fun _ => ()).1 = .ok m₂ ∧
      ∀ k v, m.get k = some v ↔ m₁.get k = some v ∨ m₂.get k = some v := by
  have hok : ∀ outs : List ℕ, outs ≠ [] → (∀ k ∈ outs, k < 4) →
      ∃ m, (runSequential (Dag.diamond (.ok 6)) outs fun _ => ()).1 = .ok m := fun outs hne hlt =>
    runSequential_ok hne (Dag.diamond_keysExist fun k hk => Nat.lt_succ_of_lt (hlt k hk)) (Dag.diamond_acyclic 6 hlt)
      (Dag.diamond_tasksSucceed 6) _
  obtain ⟨hiff, hunion⟩ := requests_compose (Dag.diamond (.ok 6)) Dag.diamond_deterministic [1] [2] (by decide)
    (by decide)
  obtain ⟨m₁, hm₁⟩ := hok [1] (by decide) (by decide)
  obtain ⟨m₂, hm₂⟩ := hok [2] (by decide) (by decide)
  obtain ⟨m, hm⟩ := (hiff fun _ => ()).mpr ⟨⟨m₁, hm₁⟩, m₂, hm₂⟩
  exact ⟨m, m₁, m₂, hm, hm₁, hm₂,
    (hunion m m₁ m₂ _ _ _ (.sequential _ hm rfl) (.sequential _ hm₁ rfl) (.sequential _ hm₂ rfl)).1⟩

/-! ## Extensions -/

/-- The calls that are accepted after others. -/
theorem ofCalls_append_staging (calls more : List (AddCall K O E ω)) : (ofCalls (calls ++ more)).staging =
    ((new : DagBuilder K O E ω).accepted calls ++ (ofCalls calls).accepted more).map AddCall.staged := by
  have hmore := (ofCalls calls).addAll_staging_append more
  rw [ofCalls_staging] at hmore
  rw [List.map_append, ← hmore, ofCalls, addAll_append]
  rfl

/-- A graph is inside its extensions, at the same positions. -/
theorem extension_inside {calls more : List (AddCall K O E ω)} {dag' : Dag K O E ω} (hb : (ofCalls calls).build = .ok dag)
    (hb' : (ofCalls (calls ++ more)).build = .ok dag') (hk : dag.KeysExist outs) :
    dag.Inside dag' (dag.sameKey dag') outs ∧ ∀ i < dag.nodes.length, dag.sameKey dag' i = i := by
  have hfrom := build_builtFrom (ofCalls_staging calls) hb
  have hfrom' := build_builtFrom (ofCalls_append_staging calls more) hb'
  have hsub := List.sublist_append_left ((new : DagBuilder K O E ω).accepted calls) ((ofCalls calls).accepted more)
  refine ⟨⟨hfrom'.embeds hfrom hsub.subset, fun i j => hfrom'.sameKey_mono hfrom hsub, hk⟩, fun i hi => ?_⟩
  rw [hfrom.length] at hi
  refine hfrom'.sameKey_eq hfrom (List.getElem?_eq_getElem hi) ?_
  rw [List.getElem?_append_left hi, List.getElem?_eq_getElem hi]

/-- **Extensions are invisible to old requests.** Let a graph be built from some calls, and another one from the same calls
followed by more. On requests for keys of the first, `run_sequential` returns the same on both, whatever it is, and calls
the same nodes with the same arguments in the same order. With deterministic task functions, whichever executors answer,
they return the same map and call the same nodes. -/
theorem extension_invisible (calls more : List (AddCall K O E ω)) (dag dag' : Dag K O E ω)
    (hb : (ofCalls calls).build = .ok dag) (hb' : (ofCalls (calls ++ more)).build = .ok dag') (outs : List K)
    (hne : outs ≠ []) (hk : dag.KeysExist outs) :
    (∀ env, runSequential dag' outs env = runSequential dag outs env) ∧
    (dag'.Deterministic → ∀ m m' called called', Answers dag outs m called → Answers dag' outs m' called' →
      m' = m ∧ ∀ i, i ∈ called' ↔ i ∈ called) := by
  obtain ⟨hin, hpos⟩ := extension_inside hb hb' hk
  refine ⟨fun env => ?_, fun hdet m m' called called' h h' => ⟨HashMap.ext fun k v => ?_, fun i => ?_⟩⟩
  · obtain ⟨hres, hcalls⟩ := hin.same_run hne env
    refine Prod.ext hres (hcalls.trans ((List.map_congr_left fun c hc => ?_).trans (List.map_id _)))
    have hlt := ((runSequential_run dag outs env).called_needed c.id (List.mem_map_of_mem hc)).1.lt
    rw [Invocation.rename, hpos c.id hlt]
    rfl
  · rw [h.get_iff (hin.embeds.deterministic hdet), h'.get_iff hdet]
    refine and_congr_right fun hmem => ?_
    obtain ⟨i, hi⟩ := hk k hmem
    have hlt := Dag.index_lt hi
    rw [hi, hin.embeds.index_get hi, hpos i hlt]
    simp only [Option.some.injEq, exists_eq_left']
    rw [← hin.embeds.evaluates_iff hlt, hpos i hlt]
  · have hsame : ∀ j, dag'.Needed outs j ↔ dag.Needed outs j := fun j => by
      rw [hin.embeds.needed_iff hk]
      constructor
      · rintro ⟨i, hi, rfl⟩
        rwa [hpos i hi.lt]
      · intro hj
        exact ⟨j, hj, hpos j hj.lt⟩
    rw [h.called_iff.2, h'.called_iff.2, hsame]
    refine and_congr_right fun hn => exists_congr fun f => ?_
    have htask := hin.embeds.isTask_iff hn.lt (f := f)
    rwa [hpos i hn.lt] at htask

omit [DecidableEq K] in
/-- A source, and then a task that depends on it. -/
theorem extension_invisible_task : ∃ dag dag' : Dag Nat Nat Nat Unit,
    (ofCalls [.source 0 5]).build = .ok dag ∧
    (ofCalls ([.source 0 5] ++ [.task 1 [0] fun _ _ => .err 7])).build = .ok dag' ∧
    runSequential dag' [0] (fun _ => ()) = runSequential dag [0] fun _ => () := by
  obtain ⟨dag, hb⟩ : ∃ dag : Dag Nat Nat Nat Unit, (ofCalls [.source 0 5]).build = .ok dag := ⟨_, rfl⟩
  obtain ⟨dag', hb'⟩ : ∃ dag' : Dag Nat Nat Nat Unit,
      (ofCalls ([.source 0 5] ++ [.task 1 [0] fun _ _ => .err 7])).build = .ok dag' := ⟨_, rfl⟩
  have hk : dag.KeysExist [0] := by
    intro k hmem
    rw [List.mem_singleton] at hmem
    cases hb
    exact ⟨0, by rw [hmem]; rfl⟩
  exact ⟨dag, dag', hb, hb', (extension_invisible _ _ dag dag' hb hb' [0] (by decide) hk).1 fun _ => ()⟩

end DagExec

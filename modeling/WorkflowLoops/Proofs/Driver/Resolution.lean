import Mathlib
import WorkflowLoops.Proofs.Driver.Exploration

/-!
# The resolution of a driver decides what its walks hit

An exploration that is not stopped has seen every spot that a walk out of the loop reaches, so what
it noted is all there is (`hits_iff`, `circles_iff`). From this every answer of a resolution is told
by the walks alone, and the other way around (`Answers`).
-/

namespace WorkflowLoops.Exploration

variable {g : Graph} {start d : NodeId} {node : Node} {x : Exploration} {spot : Spot}

/-! ## Finished explorations -/

/-- An exploration that has seen everything. -/
structure Finished (g : Graph) (start : NodeId) (x : Exploration) : Prop
    extends Sound g start x where
  root_seen : ⟨start, .start⟩ ∈ x.seen
  done : x.stack = []

lemma Finished.explored (h : x.Finished g start) (hseen : spot ∈ x.seen) :
    (∀ e, g.GoesOn .exit spot e → Explored g x.driver? x.seen e) ∧
      (x.looped = false → Ends g spot) := by
  refine h.left spot hseen ?_
  rw [h.done]
  exact List.not_mem_nil

/-- Every spot that a walk reaches was seen. -/
lemma Finished.mem_seen (h : x.Finished g start) (hreach : Reaches g start spot) :
    spot ∈ x.seen := by
  induction hreach with
  | refl => exact h.root_seen
  | tail _ hstep ih =>
    obtain ⟨e, hgoes, henters, rfl⟩ := hstep
    exact ((h.explored ih).1 e hgoes).step henters

/-- The driver that was noted is the one that is hit. -/
theorem Finished.hits_iff (h : x.Finished g start) : Hits g start d ↔ x.driver? = some d := by
  constructor
  · rintro ⟨spot, e, hreach, hgoes, henters, rfl⟩
    exact ((h.explored (h.mem_seen hreach)).1 e hgoes).hit henters
  · exact h.hits d

/-- A way back was noted exactly if there is a circle. -/
theorem Finished.circles_iff (h : x.Finished g start) : Circles g start ↔ x.looped = true := by
  constructor
  · intro hcircles
    by_contra hlooped
    rw [Bool.not_eq_true] at hlooped
    exact not_circles_of_ends ((h.explored h.root_seen).2 hlooped) hcircles
  · exact h.circles

/-- An exploration finishes, or it is stopped. -/
theorem finished_or_stops (hg : g.WellFormed) (budget : Budget)
    (hstart : g.exeIdAt start = .ok budget.start) :
    ((explore g budget start).result = .ok () ∧
      Finished g start (explore g budget start).last) ∨
    ∃ err, (explore g budget start).result = .error err ∧ Stops g start budget.start err := by
  obtain ⟨node, hnode, -⟩ := hg.exists_nodeAt_of_exeIdAt hstart
  have hkind : g.kind (Spot.mk start .start).node = .ok _ := Graph.kind_of_nodeAt hnode
  have hedges := Graph.nextEdges_of_kind (w := .exit) hkind
  rw [explore]
  cases hbegin : enter { budget } g ⟨start, .start⟩ with
  | error err =>
    rw [enter] at hbegin
    rcases bind_eq_error_iff.1 hbegin with hsteps | ⟨_, -, hnext⟩
    · exact .inr ⟨err, rfl, stops_of_spend hsteps⟩
    · -- the start has edges that go on
      rw [hedges] at hnext
      cases hnext
  | ok x =>
    rw [enter] at hbegin
    obtain ⟨-, -, hbegin⟩ := bind_eq_ok_iff.1 hbegin
    obtain ⟨edges, hnext, hbegin⟩ := bind_eq_ok_iff.1 hbegin
    obtain rfl := Except.ok.inj hbegin
    have hsound := (sound_blank hstart).push .refl (by simp) hnext
    obtain ⟨hlast, hseen, hstack, hstops⟩ := hsound.run hg
    simp only
    cases hresult : (iterate (Exploration.step g) _).result with
    | error err => exact .inr ⟨err, rfl, hstops err hresult⟩
    | ok _ => exact .inl ⟨rfl, hlast, hseen _ (List.mem_cons_self ..), hstack hresult⟩

/-! ## Resolutions -/

/-- What the answers to the question for the driver of a node say about the walks out of its loop. -/
structure Answers (g : Graph) (start : NodeId) (name : String) (result : Except Error NodeId) :
    Prop where
  /-- A driver is the answer if it is the one and only one that is hit. -/
  driver : ∀ d, result = .ok d ↔ ∀ d', Hits g start d' ↔ d' = d
  /-- There is a conflict if two drivers are hit. -/
  conflict : (∃ n first second, result = .error (.malformed (.conflictingDrivers n first second))) ↔
    ∃ d d', Hits g start d ∧ Hits g start d' ∧ d ≠ d'
  /-- A conflict names two drivers that are hit. -/
  conflict_names : ∀ n first second,
    result = .error (.malformed (.conflictingDrivers n first second)) → n = name ∧
      ∃ d d', Hits g start d ∧ Hits g start d' ∧ d ≠ d' ∧
        g.exeIdAt d = .ok first ∧ g.exeIdAt d' = .ok second
  /-- A loop has no driver if nothing is hit and a walk goes in a circle. -/
  driverless : ∀ n, result = .error (.malformed (.driverlessCycle n)) ↔
    n = name ∧ (∀ d, ¬ Hits g start d) ∧ Circles g start
  /-- There is no loop if nothing is hit and every walk ends. -/
  noLoop : ∀ n, result = .error (.noGoverningDriver n) ↔
    n = name ∧ (∀ d, ¬ Hits g start d) ∧ ¬ Circles g start

variable {name : String}

/-- The answer where two drivers are hit. -/
lemma answers_of_conflict {d d' : NodeId} {first second : String} (hd : Hits g start d)
    (hd' : Hits g start d') (hne : d ≠ d') (hfirst : g.exeIdAt d = .ok first)
    (hsecond : g.exeIdAt d' = .ok second) :
    Answers g start name (.error (.malformed (.conflictingDrivers name first second))) where
  driver a := by
    refine iff_of_false (by simp) fun hone => hne ?_
    rw [(hone d).1 hd, (hone d').1 hd']
  conflict := iff_of_true ⟨_, _, _, rfl⟩ ⟨d, d', hd, hd', hne⟩
  conflict_names n first' second' heq := by
    simp only [Except.error.injEq, Error.malformed.injEq, Defect.conflictingDrivers.injEq] at heq
    obtain ⟨rfl, rfl, rfl⟩ := heq
    exact ⟨rfl, d, d', hd, hd', hne, hfirst, hsecond⟩
  driverless n := iff_of_false (by simp) fun hnone => hnone.2.1 d hd
  noLoop n := iff_of_false (by simp) fun hnone => hnone.2.1 d hd

/-- The answer where one driver is hit. -/
lemma answers_of_driver (hhits : ∀ d', Hits g start d' ↔ d' = d) : Answers g start name (.ok d) where
  driver a := by
    rw [Except.ok.injEq]
    constructor
    · intro heq
      rwa [← heq]
    · exact fun hone => (hone d).1 ((hhits d).2 rfl)
  conflict := by
    refine iff_of_false (by simp) ?_
    rintro ⟨a, b, ha, hb, hne⟩
    exact hne (((hhits a).1 ha).trans ((hhits b).1 hb).symm)
  conflict_names := by simp
  driverless n := iff_of_false (by simp) fun hnone => hnone.2.1 d ((hhits d).2 rfl)
  noLoop n := iff_of_false (by simp) fun hnone => hnone.2.1 d ((hhits d).2 rfl)

/-- The answer where no driver is hit and a walk goes in a circle. -/
lemma answers_of_circles (hnone : ∀ d, ¬ Hits g start d) (hcircles : Circles g start) :
    Answers g start name (.error (.malformed (.driverlessCycle name))) where
  driver a := iff_of_false (by simp) fun hone => hnone a ((hone a).2 rfl)
  conflict := by
    refine iff_of_false (by simp) ?_
    rintro ⟨d, -, hd, -⟩
    exact hnone d hd
  conflict_names := by simp
  driverless n := by simp [hnone, hcircles, eq_comm]
  noLoop n := by simp [hcircles]

/-- The answer where no driver is hit and every walk ends. -/
lemma answers_of_not_circles (hnone : ∀ d, ¬ Hits g start d) (hends : ¬ Circles g start) :
    Answers g start name (.error (.noGoverningDriver name)) where
  driver a := iff_of_false (by simp) fun hone => hnone a ((hone a).2 rfl)
  conflict := by
    refine iff_of_false (by simp) ?_
    rintro ⟨d, -, hd, -⟩
    exact hnone d hd
  conflict_names := by simp
  driverless n := by simp [hends]
  noLoop n := by simp [hnone, hends, eq_comm]

/-- There are four kinds of answers. -/
theorem Answers.cases {result : Except Error NodeId} (h : Answers g start name result) :
    (∃ d, result = .ok d ∧ ∀ d', Hits g start d' ↔ d' = d) ∨
    (∃ first second, result = .error (.malformed (.conflictingDrivers name first second)) ∧
      ∃ d d', Hits g start d ∧ Hits g start d' ∧ d ≠ d') ∨
    (result = .error (.malformed (.driverlessCycle name)) ∧ (∀ d, ¬ Hits g start d) ∧
      Circles g start) ∨
    result = .error (.noGoverningDriver name) ∧ (∀ d, ¬ Hits g start d) ∧ ¬ Circles g start := by
  by_cases hsome : ∃ d, Hits g start d
  · obtain ⟨d, hd⟩ := hsome
    by_cases hmore : ∃ d', Hits g start d' ∧ d' ≠ d
    · obtain ⟨d', hd', hne⟩ := hmore
      obtain ⟨n, first, second, heq⟩ := h.conflict.2 ⟨d', d, hd', hd, hne⟩
      obtain ⟨rfl, -⟩ := h.conflict_names n first second heq
      exact .inr (.inl ⟨first, second, heq, d', d, hd', hd, hne⟩)
    · have hone : ∀ d', Hits g start d' ↔ d' = d := by
        refine fun d' => ⟨fun hd' => ?_, fun heq => heq ▸ hd⟩
        by_contra hne
        exact hmore ⟨d', hd', hne⟩
      exact .inl ⟨d, (h.driver d).2 hone, hone⟩
  · rw [not_exists] at hsome
    by_cases hcircles : Circles g start
    · have hnone := And.intro hsome hcircles
      exact .inr (.inr (.inl ⟨(h.driverless name).2 ⟨rfl, hnone⟩, hnone⟩))
    · have hnone := And.intro hsome hcircles
      exact .inr (.inr (.inr ⟨(h.noLoop name).2 ⟨rfl, hnone⟩, hnone⟩))

/-- What a finished exploration noted is the answer. -/
lemma Finished.answers (hfinished : x.Finished g start) (hname : x.budget.start = name) :
    Answers g start name x.verdict := by
  unfold verdict
  split
  · rename_i d hdriver
    refine answers_of_driver fun d' => ?_
    rw [hfinished.hits_iff, hdriver, Option.some.injEq, eq_comm]
  · rename_i hdriver
    have hnone : ∀ d, ¬ Hits g start d := fun d hd => by
      rw [hfinished.hits_iff, hdriver] at hd
      cases hd
    rw [hname]
    split
    · rename_i hlooped
      exact answers_of_circles hnone (hfinished.circles_iff.2 hlooped)
    · rename_i hlooped
      apply answers_of_not_circles hnone
      rwa [hfinished.circles_iff]

/-- A resolution is stopped, or it says what a finished exploration noted. -/
lemma stops_or_finished (hg : g.WellFormed) (hnode : g.nodeAt start = .ok node) (limits : Limits) :
    (∃ err, (g.resolveDriver limits start).result = .error err ∧ Stops g start node.exeId err) ∨
    ∃ x, Finished g start x ∧ (g.resolveDriver limits start).result = x.verdict := by
  have hexeId := hg.exeIdAt_of_nodeAt hnode
  unfold Graph.resolveDriver
  simp only [hexeId]
  have hexplore := finished_or_stops hg { start := node.exeId, limits } hexeId
  generalize explore g { start := node.exeId, limits } start = halt at hexplore ⊢
  rcases hexplore with ⟨hok, hfinished⟩ | ⟨err, herr, hstops⟩
  · refine .inr ⟨halt.last, hfinished, ?_⟩
    rw [hok]
    cases hverdict : halt.last.verdict with
    | error err => rfl
    | ok d =>
      -- the driver that was noted is a node of the graph
      have hdriver : halt.last.driver? = some d := by
        unfold verdict at hverdict
        split at hverdict
        · rename_i first hfirst
          rw [hfirst, Except.ok.inj hverdict]
        · split at hverdict <;> cases hverdict
      obtain ⟨driverId, hdriverId⟩ := (hfinished.hits d hdriver).exists_exeIdAt hg
      simp [hdriverId, bind, Except.bind, pure, Except.pure]
  · refine .inl ⟨err, ?_, hstops⟩
    rw [herr]
    rfl

/-- Unless it runs out of steps, the resolution of the driver of a node says exactly what the walks
out of the loop of the node hit, and whether they can go in a circle, which they can if and only if
they can go on for ever. -/
theorem resolveDriver_answers {source : Workflow} (hbuilt : Graph.ofWorkflow source = .ok g)
    (hnode : g.nodeAt start = .ok node) {limits : Limits}
    (hsteps : ∀ name limit,
      (g.resolveDriver limits start).result ≠ .error (.malformed (.stepLimitExceeded name limit))) :
    Answers g start node.exeId (g.resolveDriver limits start).result ∧
      (Circles g start ↔ ∃ walk : Nat → Spot,
        walk 0 = ⟨start, .start⟩ ∧ ∀ n, Leads g (walk n) (walk (n + 1))) := by
  have hg := Graph.wellFormed_ofWorkflow hbuilt
  refine ⟨?_, circles_iff_exists_infinite hg⟩
  rcases stops_or_finished hg hnode limits with ⟨err, herr, hstops⟩ | ⟨x, hfinished, hverdict⟩
  · cases hstops with
    | steps limit => exact absurd herr (hsteps _ _)
    | conflict hd hd' hne hfirst hsecond =>
      rw [herr]
      exact answers_of_conflict hd hd' hne hfirst hsecond
  · have hname : x.budget.start = node.exeId :=
      Except.ok.inj (hfinished.named.symm.trans (hg.exeIdAt_of_nodeAt hnode))
    rw [hverdict]
    exact hfinished.answers hname

/-- The worker is in the loop of the inner driver. -/
theorem resolveDriver_answers_nestedLoops :
    Graph.ofWorkflow .nestedLoops = .ok .nestedLoops ∧
      ∃ node, Graph.nodeAt .nestedLoops ⟨0⟩ = .ok node ∧
        (∀ name limit, (Graph.resolveDriver .nestedLoops (.ofGraph .nestedLoops) ⟨0⟩).result
          ≠ .error (.malformed (.stepLimitExceeded name limit))) ∧
        Answers .nestedLoops ⟨0⟩ node.exeId
          (Graph.resolveDriver .nestedLoops (.ofGraph .nestedLoops) ⟨0⟩).result ∧
        (Circles .nestedLoops ⟨0⟩ ↔ ∃ walk : Nat → Spot,
          walk 0 = ⟨⟨0⟩, .start⟩ ∧ ∀ n, Leads .nestedLoops (walk n) (walk (n + 1))) := by
  have hok : (Graph.resolveDriver .nestedLoops (.ofGraph .nestedLoops) ⟨0⟩).result.isOk = true := by
    cbv
  have hsteps : ∀ name limit, (Graph.resolveDriver .nestedLoops (.ofGraph .nestedLoops) ⟨0⟩).result
      ≠ .error (.malformed (.stepLimitExceeded name limit)) := by
    intro name limit herr
    rw [herr] at hok
    cases hok
  obtain ⟨node, hnode⟩ := exists_ok_of_isOk (show (Graph.nodeAt .nestedLoops ⟨0⟩).isOk = true by cbv)
  exact ⟨Graph.ofWorkflow_nestedLoops, node, hnode, hsteps,
    resolveDriver_answers Graph.ofWorkflow_nestedLoops hnode hsteps⟩

end WorkflowLoops.Exploration

import Mathlib.Data.List.Induction
import Mathlib.Data.List.Nodup
import WorkflowLoops.Proofs.Declaration.Ports

/-!
# Valid workflows and their violations

What makes a workflow valid, and what it violates otherwise, said by the declarations alone: by what
stands before an entry of a list, and by what is declared somewhere in it. No table is filled here.

The main statement is that a workflow violates nothing exactly if it is valid
(`violations_eq_nil_iff`).
-/

namespace WorkflowLoops

/-! ## What stands before -/

section Earlier

variable {α β : Type}

/-- Every entry of a list, with the entries before it. -/
def withEarlier (l : List α) : List (α × List α) :=
  l.zipIdx.map fun (a, i) => (a, l.take i)

lemma withEarlier_concat (l : List α) (a : α) :
    withEarlier (l ++ [a]) = withEarlier l ++ [(a, l)] := by
  have hbefore : l.zipIdx.map (fun (b, i) => (b, (l ++ [a]).take i)) = withEarlier l := by
    refine List.map_congr_left fun (b, i) hmem => ?_
    have hlt : i < l.length := by
      have hi := (List.mem_zipIdx hmem).2.1
      omega
    rw [Prod.mk.injEq, List.take_append_of_le_length (by omega)]
    exact ⟨rfl, rfl⟩
  rw [withEarlier, List.zipIdx_append, List.map_append, hbefore]
  simp

lemma map_fst_withEarlier (l : List α) : (withEarlier l).map Prod.fst = l := by
  rw [withEarlier, List.map_map]
  exact List.zipIdx_map_fst 0 l

/-- Something holds of all entries if it holds of each entry beside those before it. -/
lemma forall_withEarlier_iff {P : α → Prop} {l : List α} :
    (∀ t ∈ withEarlier l, P t.1) ↔ ∀ a ∈ l, P a := by
  conv_rhs => rw [← map_fst_withEarlier l]
  simp

/-- Entries differ if each one differs from those before it. -/
lemma nodup_map_iff_withEarlier {f : α → β} {l : List α} :
    (l.map f).Nodup ↔ ∀ t ∈ withEarlier l, f t.1 ∉ t.2.map f := by
  induction l using List.reverseRecOn with
  | nil => simp [withEarlier]
  | append_singleton l a ih =>
    rw [withEarlier_concat, List.forall_mem_append, ← ih, List.map_append, List.map_singleton,
      List.nodup_append_comm, List.singleton_append, List.nodup_cons, and_comm]
    simp

/-- The entries that stand in the list before, one for each repeated occurrence. -/
def repetitions [DecidableEq α] (l : List α) : List α :=
  ((withEarlier l).filter fun (a, earlier) => a ∈ earlier).map Prod.fst

end Earlier

lemma again_concat (text : String) (texts : List String) :
    ∀ before : List String, again before (texts ++ [text])
      = again before texts ++ if text ∈ before ∨ text ∈ texts then [text] else [] := by
  induction texts with
  | nil =>
    intro before
    simp [again]
  | cons first rest ih =>
    intro before
    rw [List.cons_append, again, again]
    by_cases hfirst : first ∈ before
    · rw [if_pos hfirst, if_pos hfirst, ih, List.cons_append]
      -- what is new before the rest was there before
      have hsame : text ∈ before ∨ text ∈ first :: rest ↔ text ∈ before ∨ text ∈ rest := by
        rw [List.mem_cons]
        constructor
        · rintro (h | rfl | h)
          · exact .inl h
          · exact .inl hfirst
          · exact .inr h
        · exact fun h => h.imp_right .inr
      simp only [hsame]
    · rw [if_neg hfirst, if_neg hfirst, ih]
      have hsame : text ∈ first :: before ∨ text ∈ rest ↔ text ∈ before ∨ text ∈ first :: rest := by
        rw [List.mem_cons, List.mem_cons]
        tauto
      simp only [hsame]

/-- What is found to be repeated in one pass are the repetitions. -/
theorem repeats_eq_repetitions (texts : List String) : repeats texts = repetitions texts := by
  rw [repeats_eq_again]
  induction texts using List.reverseRecOn with
  | nil => rfl
  | append_singleton texts text ih =>
    rw [again_concat, ih, repetitions, repetitions, withEarlier_concat, List.filter_append,
      List.map_append]
    by_cases hold : text ∈ texts <;> simp [hold]

/-! ## Violations -/

/-- The ports that a node declares on a side. -/
def NodeDecl.ports (n : NodeDecl) : Side → List Port
  | .input => n.inputs
  | .output => n.outputs

/-- What the declaration of a node violates after earlier ones: if it is declared again, only that, and
otherwise all that is wrong with its ports. -/
def NodeDecl.violations (n : NodeDecl) (earlier : List NodeDecl) : List Defect :=
  if n.exeId ∈ earlier.map NodeDecl.exeId then [.duplicateNode n.exeId]
  else
    ([Side.input, Side.output].flatMap fun side =>
      if (n.ports side).length ≤ PortIdx.maxPorts then []
      else [.tooManyPorts n.exeId side (n.ports side).length])
    ++ (repetitions ((n.inputs ++ n.outputs).map Port.id)).map (.duplicatePort n.exeId)
    ++ (repetitions (n.outputs.map Port.name)).map (.duplicateOutputName n.exeId)

/-- What one end of a connection violates. Its port is looked for in the first declaration of its
node. -/
def Endpoint.violations (e : Endpoint) (nodes : List NodeDecl) (edge : String) (side : Side) :
    List Defect :=
  match nodes.find? fun n => n.exeId = e.node with
  | none => [.danglingNode edge e.node]
  | some n =>
    if e.port ∈ (n.ports side).map Port.id then []
    else [.danglingPort edge e.node e.port side]

/-- What a connection violates, first at its source and then at its target. -/
def Connection.violations (c : Connection) (nodes : List NodeDecl) : List Defect :=
  c.source.violations nodes c.label .output ++ c.target.violations nodes c.label .input

namespace Workflow

/-- All that a workflow violates: first the nodes, in the order of their declaration, then the
connections in theirs. -/
def violations (w : Workflow) : List Defect :=
  ((withEarlier w.nodes).flatMap fun (n, earlier) => n.violations earlier)
    ++ w.connections.flatMap fun c => c.violations w.nodes

/-- A workflow whose nodes can be told apart, whose ports fit, and whose connections go from declared
outputs to declared inputs. -/
structure IsValid (w : Workflow) : Prop where
  exeIds_nodup : (w.nodes.map NodeDecl.exeId).Nodup
  ports : ∀ n ∈ w.nodes, PortsFit n.inputs n.outputs
  sources : ∀ c ∈ w.connections,
    ∃ n ∈ w.nodes, n.exeId = c.source.node ∧ ∃ port ∈ n.outputs, port.id = c.source.port
  targets : ∀ c ∈ w.connections,
    ∃ n ∈ w.nodes, n.exeId = c.target.node ∧ ∃ port ∈ n.inputs, port.id = c.target.port

end Workflow

/-- The defects that are found in the ports of a node are what it violates, unless it is declared
again. -/
lemma NodeDecl.violations_eq (n : NodeDecl) (earlier : List NodeDecl) :
    n.violations earlier
      = if n.exeId ∈ earlier.map NodeDecl.exeId then [.duplicateNode n.exeId] else n.portDefects := by
  have hoverflow : ∀ side, n.overflow side (n.ports side)
      = if (n.ports side).length ≤ PortIdx.maxPorts then []
        else [.tooManyPorts n.exeId side (n.ports side).length] := by
    intro side
    rw [overflow]
    by_cases hfits : (n.ports side).length ≤ PortIdx.maxPorts
    · rw [if_pos hfits, if_neg (by omega)]
    · rw [if_neg hfits, if_pos (by omega)]
  have hin : n.ports .input = n.inputs := rfl
  have hout : n.ports .output = n.outputs := rfl
  rw [violations, portDefects, repeats_eq_repetitions, repeats_eq_repetitions, ← hin, ← hout,
    hoverflow, hoverflow]
  simp

/-- A declaration violates nothing if its node is new and its ports fit. -/
lemma NodeDecl.violations_eq_nil_iff (n : NodeDecl) (earlier : List NodeDecl) :
    n.violations earlier = [] ↔
      n.exeId ∉ earlier.map NodeDecl.exeId ∧ PortsFit n.inputs n.outputs := by
  rw [violations_eq, ← n.portDefects_eq_nil_iff]
  by_cases hold : n.exeId ∈ earlier.map NodeDecl.exeId <;> simp [hold]

/-- An end violates nothing if the first declaration of its node declares its port. -/
lemma Endpoint.violations_eq_nil_iff {e : Endpoint} {nodes : List NodeDecl} {edge : String}
    {side : Side} :
    e.violations nodes edge side = [] ↔
      ∃ n, (nodes.find? fun n => n.exeId = e.node) = some n ∧
        ∃ port ∈ n.ports side, port.id = e.port := by
  rw [violations]
  cases nodes.find? fun n => n.exeId = e.node with
  | none => simp
  | some n => simp

/-- Where nodes can be told apart, an end violates nothing if its node declares its port. -/
lemma Endpoint.violations_eq_nil_iff_of_nodup {e : Endpoint} {nodes : List NodeDecl} {edge : String}
    {side : Side} (hnodup : (nodes.map NodeDecl.exeId).Nodup) :
    e.violations nodes edge side = [] ↔
      ∃ n ∈ nodes, n.exeId = e.node ∧ ∃ port ∈ n.ports side, port.id = e.port := by
  rw [violations_eq_nil_iff]
  constructor
  · rintro ⟨n, hfind, hport⟩
    exact ⟨n, List.mem_of_find?_eq_some hfind, by simpa using List.find?_some hfind, hport⟩
  · rintro ⟨n, hn, hid, hport⟩
    have hfound : (nodes.find? fun n => n.exeId = e.node).isSome := by
      rw [List.find?_isSome]
      exact ⟨n, hn, by simpa using hid⟩
    obtain ⟨first, hfirst⟩ := Option.isSome_iff_exists.1 hfound
    -- the first declaration is the only one
    have hsame : first.exeId = n.exeId := by
      have hfirstId : first.exeId = e.node := by simpa using List.find?_some hfirst
      rw [hfirstId, hid]
    obtain rfl : first = n :=
      List.inj_on_of_nodup_map hnodup (List.mem_of_find?_eq_some hfirst) hn hsame
    exact ⟨first, hfirst, hport⟩

/-- A workflow violates nothing exactly if it is valid. -/
theorem Workflow.violations_eq_nil_iff (w : Workflow) : w.violations = [] ↔ w.IsValid := by
  have hnodes : ((withEarlier w.nodes).flatMap fun (n, earlier) => n.violations earlier) = [] ↔
      (w.nodes.map NodeDecl.exeId).Nodup ∧ ∀ n ∈ w.nodes, PortsFit n.inputs n.outputs := by
    rw [List.flatMap_eq_nil_iff, nodup_map_iff_withEarlier,
      ← forall_withEarlier_iff (P := fun n : NodeDecl => PortsFit n.inputs n.outputs), ← forall₂_and]
    exact forall₂_congr fun t _ => t.1.violations_eq_nil_iff t.2
  rw [violations, List.append_eq_nil_iff, hnodes, List.flatMap_eq_nil_iff]
  constructor
  · rintro ⟨⟨hnodup, hports⟩, hconnections⟩
    have hends : ∀ c ∈ w.connections, c.source.violations w.nodes c.label .output = [] ∧
        c.target.violations w.nodes c.label .input = [] := fun c hc =>
      List.append_eq_nil_iff.1 (hconnections c hc)
    exact
      { exeIds_nodup := hnodup
        ports := hports
        sources := fun c hc =>
          (Endpoint.violations_eq_nil_iff_of_nodup hnodup).1 (hends c hc).1
        targets := fun c hc =>
          (Endpoint.violations_eq_nil_iff_of_nodup hnodup).1 (hends c hc).2 }
  · intro hvalid
    refine ⟨⟨hvalid.exeIds_nodup, hvalid.ports⟩, fun c hc => List.append_eq_nil_iff.2 ⟨?_, ?_⟩⟩
    · exact (Endpoint.violations_eq_nil_iff_of_nodup hvalid.exeIds_nodup).2 (hvalid.sources c hc)
    · exact (Endpoint.violations_eq_nil_iff_of_nodup hvalid.exeIds_nodup).2 (hvalid.targets c hc)

end WorkflowLoops

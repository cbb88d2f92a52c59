import Mathlib
import WorkflowLoops.Proofs.Reset.Governance

/-!
# Drivers on one loop

A cycle of a reset may enter the loops of other drivers on its way. It goes on from such a driver as a
reset of that driver would begin, and past its end it can go on from its own driver as it began. So,
begun at the other driver, it is a loop of that one (`IsLoop.rotate`), and each driver on it lists it in
its own turn (`resetCycles_rotate`).
-/

namespace WorkflowLoops

namespace Reset

variable {g : Graph} {driver : NodeId} {output : PortIdx} {e f : Edge} {before after : List Edge}

/-- A driver that is entered on the level of its body is left on that level. -/
lemma sourceRole_of_entersLoop (henters : g.entersLoop e = .ok true)
    (h : g.GoesOn .reset (.after e) f) : f.sourceRole = .same := by
  obtain ⟨hdriver, hsame⟩ := Graph.entersLoop_eq_true_iff.1 henters
  obtain ⟨kind, hkind, -, hfollows⟩ := Graph.goesOn_iff.1 h
  obtain rfl : .driver = kind := Except.ok.inj (hdriver.symm.trans hkind)
  have hlevel := (Walk.follows_via_iff.1 hfollows).2.2.1
  rw [hlevel (by decide) rfl, hsame]

/-- Back at its driver a reset may go on along the edges with which it begins. -/
lemma goesOn_of_opens (hg : g.WellFormed) (hkind : g.kind driver = .ok .driver)
    (htarget : e.target = driver) (hrole : e.targetRole = .same) (hthere : f ∈ g.edges.toList)
    (hsource : f.source = driver) (hsame : f.sourceRole = .same) :
    g.GoesOn .reset (.after e) f := by
  have hat : (Spot.after e).node = driver := htarget
  refine Graph.goesOn_iff.2 ⟨.driver, ?_, ?_, ?_⟩
  · rwa [hat]
  · exact hg.mem_leaving_iff.2 ⟨hthere, hsource.trans hat.symm⟩
  · rw [Spot.after, hrole, hsame]
    rfl

/-- A loop that enters the loop of another driver on its way is, begun there, a loop of that driver. -/
theorem IsLoop.rotate (hg : g.WellFormed) (hkind : g.kind driver = .ok .driver)
    (h : IsLoop g driver output (before ++ e :: f :: after)) (henters : g.entersLoop e = .ok true) :
    IsLoop g e.target f.output (f :: after ++ (before ++ [e])) := by
  obtain ⟨⟨first, hfirst, hthere, hsource, -, hsame⟩, hchain, hsimple, last, hlast, htarget, hrole⟩ := h
  -- the part from the start to the other driver, and the part from there to the end
  have hsplit : before ++ e :: f :: after = (before ++ [e]) ++ f :: after := by simp
  rw [hsplit] at hfirst hchain hsimple hlast
  rw [List.head?_append_of_ne_nil _ (by simp)] at hfirst
  rw [List.getLast?_append_of_ne_nil _ (by simp)] at hlast
  obtain ⟨hleft, hright, hjoin⟩ := List.isChain_append.1 hchain
  have hgoes : g.GoesOn .reset (.after e) f := hjoin e (by simp) f rfl
  obtain ⟨hf, hsource'⟩ := hg.goesOn_mem_edges hgoes
  obtain ⟨-, hrole'⟩ := Graph.entersLoop_eq_true_iff.1 henters
  have hends : (f :: after ++ (before ++ [e])).getLast? = some e := by
    rw [← List.append_assoc, List.getLast?_concat]
  refine ⟨⟨f, rfl, hf, hsource', rfl, sourceRole_of_entersLoop henters hgoes⟩, ?_, ?_,
    e, hends, rfl, hrole'⟩
  · refine hright.append hleft fun x hx y hy => ?_
    obtain rfl : last = x := Option.some.inj (hlast.symm.trans hx)
    obtain rfl : first = y := Option.some.inj (hfirst.symm.trans hy)
    exact goesOn_of_opens hg hkind htarget hrole hthere hsource hsame
  · -- both go through the same nodes, each from the driver with which it ends
    obtain ⟨rest, hrest⟩ := List.getLast?_eq_some_iff.1 hlast
    have hnodes : (driver :: before.map (·.target) ++ e.target :: rest.map (·.target)).Nodup := by
      rw [hrest, ← List.append_assoc, List.dropLast_concat] at hsimple
      simpa using hsimple
    have hswap : (e.target :: rest.map (·.target) ++ driver :: before.map (·.target)).Nodup :=
      List.perm_append_comm.nodup_iff.1 hnodes
    rw [hrest, ← List.append_assoc, List.dropLast_concat]
    simpa [htarget] using hswap

end Reset

/-! ## Queries -/

variable {g : Graph}

/-- A cycle that enters the loop of another driver on its way is also listed when that driver is asked
for, begun there, for the output that it leaves that driver through. -/
theorem resetCycles_rotate {source : Workflow} (hbuilt : Graph.ofWorkflow source = .ok g)
    {limits limits' : Limits} {exeId : String} {listing listing' : Listing Cycle} {cycle : Cycle}
    (hcycles : (g.resetCycles limits exeId).result = .ok listing) (hcycle : listing.Holds cycle)
    {before after : List Hop} {into out : Hop}
    (hhops : cycle.path.hops = before ++ into :: out :: after) (henters : into.EntersLoop g)
    {other : Node} (hother : g.nodeAt into.target = .ok other)
    (hcycles' : (g.resetCycles limits' other.exeId).result = .ok listing') :
    ∃ rotated : Cycle, rotated.path.hops = out :: after ++ (before ++ [into]) ∧
      listing'.HoldsAt other out.output rotated := by
  have hg := Graph.wellFormed_ofWorkflow hbuilt
  obtain ⟨driver, output, w, -, hkind, hloop, hw⟩ := exists_loop_of_resetCycles hg hcycles hcycle
  -- the hops go along edges
  rw [hhops] at hw
  obtain ⟨begins, rest, rfl, rfl, hrest⟩ := List.map_eq_append_iff.1 hw.symm
  obtain ⟨e, rest', rfl, rfl, hrest'⟩ := List.map_eq_cons_iff.1 hrest
  obtain ⟨f, ends, rfl, rfl, rfl⟩ := List.map_eq_cons_iff.1 hrest'
  have henters' := (entersLoop_hop_iff hg (hloop.mem_edges hg e (by simp))).1 henters
  have hkind' : g.kind e.target = .ok .driver := (Graph.entersLoop_eq_true_iff.1 henters').1
  have hrotated := hloop.rotate hg hkind henters'
  -- the other driver lists its loops
  rw [Graph.resetCycles, andThen_nodeId hg hother] at hcycles'
  obtain ⟨node, hnode, -, hlists⟩ := Reset.enumerates_of_plan hg hcycles'
  obtain rfl : node = other := Except.ok.inj (hnode.symm.trans hother)
  obtain ⟨⟨first, hfirst, hopens⟩, -⟩ := (Reset.isLoop_iff hkind').1 hrotated
  obtain rfl : f = first := Option.some.inj hfirst
  obtain ⟨port, hport⟩ := hg.exists_port_of_opens hnode hopens
  refine ⟨⟨Path.ofEdges (f :: ends ++ (begins ++ [e]))⟩, ?_, hlists.holdsAt hport hrotated⟩
  rw [Path.hops_ofEdges]
  simp

/-- The cycle of the first driver over the workers and the second driver. -/
def sharedCycle : Cycle :=
  ⟨⟨[⟨⟨3⟩, ⟨0⟩, ⟨0⟩, ⟨0⟩, ⟨3⟩⟩, ⟨⟨2⟩, ⟨0⟩, ⟨3⟩, ⟨0⟩, ⟨2⟩⟩, ⟨⟨1⟩, ⟨0⟩, ⟨2⟩, ⟨0⟩, ⟨1⟩⟩,
    ⟨⟨0⟩, ⟨0⟩, ⟨1⟩, ⟨0⟩, ⟨0⟩⟩]⟩⟩

/-- The second driver goes around the same loop, from where it is. -/
theorem resetCycles_rotate_sharedLoop :
    Graph.ofWorkflow .sharedLoop = .ok .sharedLoop ∧
      ∃ listing listing' other rotated,
        (Graph.resetCycles .sharedLoop (.ofGraph .sharedLoop) "first").result = .ok listing ∧
        listing.Holds sharedCycle ∧ Graph.nodeAt .sharedLoop ⟨3⟩ = .ok other ∧
        (Graph.resetCycles .sharedLoop (.ofGraph .sharedLoop) other.exeId).result = .ok listing' ∧
        rotated.path.hops = [⟨⟨3⟩, ⟨0⟩, ⟨0⟩, ⟨0⟩, ⟨3⟩⟩, ⟨⟨0⟩, ⟨0⟩, ⟨1⟩, ⟨0⟩, ⟨0⟩⟩,
          ⟨⟨1⟩, ⟨0⟩, ⟨2⟩, ⟨0⟩, ⟨1⟩⟩, ⟨⟨2⟩, ⟨0⟩, ⟨3⟩, ⟨0⟩, ⟨2⟩⟩] ∧
        listing'.HoldsAt other ⟨0⟩ rotated := by
  obtain ⟨listing, hcycles, hcycle⟩ : ∃ listing,
      (Graph.resetCycles .sharedLoop (.ofGraph .sharedLoop) "first").result = .ok listing ∧
        listing.Holds sharedCycle := exists_listing_of_entry "out" (by cbv)
  obtain ⟨other, hother, hname⟩ := map_eq_ok_iff.1
    (show (Graph.nodeAt .sharedLoop ⟨3⟩).map Node.exeId = .ok "second" by decide +kernel)
  obtain ⟨listing', hcycles'⟩ := exists_ok_of_isOk
    (x := (Graph.resetCycles .sharedLoop (.ofGraph .sharedLoop) "second").result) (by cbv)
  rw [← hname] at hcycles'
  have hhops : sharedCycle.path.hops
      = [⟨⟨0⟩, ⟨0⟩, ⟨1⟩, ⟨0⟩, ⟨0⟩⟩, ⟨⟨1⟩, ⟨0⟩, ⟨2⟩, ⟨0⟩, ⟨1⟩⟩]
        ++ ⟨⟨2⟩, ⟨0⟩, ⟨3⟩, ⟨0⟩, ⟨2⟩⟩ :: ⟨⟨3⟩, ⟨0⟩, ⟨0⟩, ⟨0⟩, ⟨3⟩⟩ :: [] := rfl
  obtain ⟨rotated, hrotated, hholds⟩ := resetCycles_rotate Graph.ofWorkflow_sharedLoop hcycles hcycle
    hhops (by decide +kernel) hother hcycles'
  exact ⟨Graph.ofWorkflow_sharedLoop, listing, listing', other, rotated, hcycles, hcycle, hother,
    hcycles', hrotated, hholds⟩

end WorkflowLoops

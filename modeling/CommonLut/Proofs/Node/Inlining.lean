import CommonLut.Proofs.Binary.Machine
import CommonLut.Proofs.Node.Flatten

/-!
# Evaluation of flattened nodes

A group converts between the depths of neighbours, a resolved reference does not. So the nodes that
stand in place of a reference run as its list does, except that a group which holds them converts
between them too, at the depths that they declare. `Node.steps` spells out what a group does, either
with a reference as one node or with the nodes in its place; where both give the same steps,
flattening keeps what the group does. They are the same where each reference declares the depths of
its nodes and the nodes pass these on.

Main definitions: `Node.Step`, `Node.steps`, `Node.KeepsEval`, `Node.Seamless`, `Node.FlattenedTo`.
Main statements: `Node.evalGroup_eq_runSteps`, `Node.evalActive_flatten`,
`Node.flattenedSteps_of_seamless`, `Node.flattenedTo_of_eval`.
-/

namespace CommonLut

/-! ## §1 Conversions -/

/-- The depth with the same channel values: both float depths carry values as they are. -/
def BitDepth.domain : BitDepth → BitDepth
  | float16 => float32
  | d => d

@[simp]
theorem Pixel.mapColor_id {ν : Type} (p : Pixel ν) : p.mapColor (fun _ x => x) = p := by
  unfold mapColor
  split <;> rfl

namespace Range

/-- A range without bounds only converts. -/
theorem apply_unbounded (input output : BitDepth) (p : Pixel Float32) :
    ({} : Range Float).apply input output p =
      p.mapColor fun _ x => output.denormalize (narrow (widen (input.normalize x) : Float)) := rfl

/-- Conversion looks at the domains of the depths only. -/
theorem apply_unbounded_domain (input output : BitDepth) (p : Pixel Float32) :
    ({} : Range Float).apply input output p =
      ({} : Range Float).apply input.domain output.domain p := by
  have hinput : ∀ x : Float32, input.normalize x = input.domain.normalize x := by
    intro x
    cases input <;> rfl
  have houtput : ∀ x : Float32, output.denormalize x = output.domain.denormalize x := by
    intro x
    cases output <;> rfl
  simp only [apply_unbounded, hinput, houtput]

/-- Conversion between float depths changes nothing. -/
theorem apply_unbounded_float (p : Pixel Float32) :
    ({} : Range Float).apply .float32 .float32 p = p := by
  have hnormalize : ∀ x : Float32, BitDepth.float32.normalize x = x := fun _ => rfl
  have hdenormalize : ∀ x : Float32, BitDepth.float32.denormalize x = x := fun _ => rfl
  have hnarrow : ∀ x : Float32, (narrow (widen x : Float) : Float32) = x :=
    Binary.Machine.narrow_widen
  simp only [apply_unbounded, hnormalize, hdenormalize, hnarrow, Pixel.mapColor_id]

end Range

/-- An adapter between depths of one domain changes nothing. -/
theorem adapt_of_domain {source destination : BitDepth} (h : source.domain = destination.domain)
    (p : Pixel Float32) : adapt (some source) destination p = p := by
  unfold adapt
  dsimp only
  split
  · rfl
  · next hne =>
    cases source <;> cases destination <;> first
      | exact absurd rfl hne
      | exact absurd h (by decide)
      | exact (Range.apply_unbounded_domain _ _ p).trans (Range.apply_unbounded_float p)

namespace Node

/-! ## §2 Steps -/

/-- What a group does at a time: it converts between two domains or runs a node. -/
inductive Step where
  | convert (source destination : BitDepth)
  | run (n : Node)

/-- The pixel after a step. -/
def Step.apply : Step → Pixel Float32 → Pixel Float32
  | convert source destination, p => ({} : Range Float).apply source destination p
  | run n, p => n.eval p

/-- The node that a step runs. -/
def Step.node? : Step → Option Node
  | convert _ _ => none
  | run n => some n

/-- The pixel after steps, one after the other. -/
def runSteps (steps : List Step) (p : Pixel Float32) : Pixel Float32 :=
  steps.foldl (fun p s => s.apply p) p

/-- The step from one depth to the next, if their domains differ. -/
def conversion (previous : Option BitDepth) (next : BitDepth) : List Step :=
  match previous with
  | some depth => if depth.domain = next.domain then [] else [.convert depth.domain next.domain]
  | none => []

/-- The nodes that are not bypassed. -/
def actives (ns : List Node) : List Node := ns.filter fun n => !n.isBypassed

/-- The steps of a group, `inside` giving the nodes that are run for one of its nodes. -/
def steps (inside : Node → List Node) : Option BitDepth → List Node → List Step
  | _, [] => []
  | previous, n :: ns =>
    if n.isBypassed then steps inside previous ns
    else conversion previous n.input ++ (inside n).map .run ++ steps inside (some n.output) ns

@[simp]
theorem runSteps_nil (p : Pixel Float32) : runSteps [] p = p := rfl

@[simp]
theorem runSteps_cons (s : Step) (steps : List Step) (p : Pixel Float32) :
    runSteps (s :: steps) p = runSteps steps (s.apply p) := rfl

@[simp]
theorem runSteps_append (steps more : List Step) (p : Pixel Float32) :
    runSteps (steps ++ more) p = runSteps more (runSteps steps p) := List.foldl_append

/-- A conversion does what an adapter does. -/
theorem runSteps_conversion (previous : Option BitDepth) (next : BitDepth) (p : Pixel Float32) :
    runSteps (conversion previous next) p = adapt previous next p := by
  cases previous with
  | none => rfl
  | some depth =>
    unfold conversion
    dsimp only
    split
    · next hdomain => exact (adapt_of_domain hdomain p).symm
    · next hdomain =>
      have hne : depth ≠ next := fun h => hdomain (congrArg BitDepth.domain h)
      rw [adapt, if_neg hne, Range.apply_unbounded_domain]
      rfl

theorem actives_cons (n : Node) (ns : List Node) :
    actives (n :: ns) = if n.isBypassed then actives ns else n :: actives ns := by
  rw [actives, List.filter_cons]
  cases n.isBypassed <;> rfl

@[simp]
theorem actives_append (ns ms : List Node) : actives (ns ++ ms) = actives ns ++ actives ms :=
  List.filter_append ns ms

theorem actives_eq_nil {ns : List Node} (h : ∀ n ∈ ns, n.isBypassed = true) : actives ns = [] :=
  List.filter_eq_nil_iff.mpr fun n hn => by simp [h n hn]

/-- A list runs its active nodes. -/
theorem evalActive_eq_runSteps (ns : List Node) (p : Pixel Float32) :
    evalActive ns p = runSteps ((actives ns).map .run) p := by
  induction ns generalizing p with
  | nil => rfl
  | cons n ns ih =>
    rw [evalActive, ih, actives_cons]
    cases n.isBypassed <;> rfl

/-- A group does its steps, if the nodes inside a node do what the node does. -/
theorem evalGroup_eq_runSteps {inside : Node → List Node} {ns : List Node}
    (h : ∀ n ∈ ns, n.isBypassed = false → ∀ p, runSteps ((inside n).map .run) p = n.eval p)
    (previous : Option BitDepth) (p : Pixel Float32) :
    evalGroup previous ns p = runSteps (steps inside previous ns) p := by
  induction ns generalizing previous p with
  | nil => rfl
  | cons n ns ih =>
    have hrest := fun previous p => ih (fun m hm => h m (List.mem_cons_of_mem n hm)) previous p
    rw [evalGroup, steps]
    cases hbypass : n.isBypassed with
    | true => exact hrest previous p
    | false =>
      have hn := h n List.mem_cons_self hbypass (adapt previous n.input p)
      simp only [Bool.false_eq_true, if_false, runSteps_append, runSteps_conversion, hn, hrest]

/-- The nodes that the steps of a group run. -/
theorem filterMap_node?_steps (inside : Node → List Node) (previous : Option BitDepth)
    (ns : List Node) :
    (steps inside previous ns).filterMap Step.node? = (actives ns).flatMap inside := by
  have hconversion : ∀ previous next, (conversion previous next).filterMap Step.node? = [] := by
    intro previous next
    unfold conversion
    split
    · split <;> rfl
    · rfl
  have hrun : ∀ ms : List Node, (ms.map Step.run).filterMap Step.node? = ms := by
    intro ms
    rw [List.filterMap_map]
    exact List.filterMap_some
  induction ns generalizing previous with
  | nil => rfl
  | cons n ns ih =>
    rw [steps, actives_cons]
    cases n.isBypassed with
    | true => exact ih previous
    | false =>
      simp only [Bool.false_eq_true, if_false, List.filterMap_append, hconversion, hrun, ih,
        List.nil_append, List.flatMap_cons]

/-! ## §3 Groups with and without references -/

/-- The steps of a group whose references are replaced by their nodes. -/
def flattenedSteps (ns : List Node) : List Step :=
  steps (fun n => [n]) none (flattenAll true ns)

/-- The steps of a group that runs its references, with the nodes that are run for each of them. -/
def referencedSteps (ns : List Node) : List Step :=
  steps (fun n => actives (n.flatten true)) none ns

mutual
/-- Flattening keeps what a node does: the nodes in place of a bypassed reference are bypassed, and
a group does the same steps as before. -/
def KeepsEval : Node → Prop
  | operation _ _ | reference _ _ => True
  | group c nodes =>
    c.bypass.getD false = false →
      KeepsEvalAll nodes ∧ flattenedSteps nodes = referencedSteps nodes
  | resolved c _ _ nodes =>
    (c.bypass.getD false = true → ∀ m ∈ flattenAll true nodes, m.kind ≠ .colorCorrection) ∧
      (c.bypass.getD false = false → KeepsEvalAll nodes)
termination_by structural n => n

@[inherit_doc KeepsEval]
def KeepsEvalAll : List Node → Prop
  | [] => True
  | n :: ns => n.KeepsEval ∧ KeepsEvalAll ns
termination_by structural ns => ns
end

theorem keepsEvalAll_iff {ns : List Node} : KeepsEvalAll ns ↔ ∀ n ∈ ns, n.KeepsEval := by
  induction ns with
  | nil => simp [KeepsEvalAll]
  | cons n ns ih => simp [KeepsEvalAll, ih]

theorem isBypassed_asBypassed {n : Node} (h : n.kind ≠ .colorCorrection) :
    n.asBypassed.isBypassed = true := by
  rw [asBypassed_of_ne h]
  cases n <;> rfl

/-- Of the nodes that are read, a colour correction is the only one that stays active. -/
theorem isBypassed_asBypassed_iff {options : ReadOptions} {selfContained : Bool} {n : Node}
    (hn : n.Readable options selfContained) :
    n.asBypassed.isBypassed = true ↔ n.kind ≠ .colorCorrection := by
  refine ⟨fun h hkind => ?_, isBypassed_asBypassed⟩
  have hbypass : n.common.bypass = none := congrArg NodeCommon.bypass (hn.common.bare hkind)
  rw [asBypassed, if_pos hkind, isBypassed, hbypass] at h
  cases h

/-- No node in place of a bypassed one is active. -/
theorem actives_flatten_of_bypassed {n : Node} (h : n.KeepsEval) (hbypass : n.isBypassed = true) :
    actives (n.flatten true) = [] := by
  refine actives_eq_nil fun m hm => ?_
  cases n with
  | operation c op =>
    rw [List.mem_singleton.mp hm]
    exact hbypass
  | group c nodes =>
    rw [List.mem_singleton.mp hm]
    exact hbypass
  | reference c t =>
    rw [List.mem_singleton.mp hm]
    exact hbypass
  | resolved c t header nodes =>
    have hc : c.bypass.getD false = true := hbypass
    rw [flatten, hc] at hm
    obtain ⟨m, hmem, rfl⟩ := List.mem_map.mp hm
    exact isBypassed_asBypassed (h.1 hc m hmem)

theorem evalActive_append (ns ms : List Node) (p : Pixel Float32) :
    evalActive (ns ++ ms) p = evalActive ms (evalActive ns p) := by
  simp only [evalActive_eq_runSteps, actives_append, List.map_append, runSteps_append]

/-- A group runs the same nodes in the same order after it is flattened; only the conversions
between them can be others. -/
theorem node?_flattenedSteps {ns : List Node} (h : KeepsEvalAll ns) :
    (flattenedSteps ns).filterMap Step.node? = (referencedSteps ns).filterMap Step.node? := by
  rw [flattenedSteps, referencedSteps, filterMap_node?_steps, filterMap_node?_steps,
    List.flatMap_singleton']
  induction ns with
  | nil => rfl
  | cons n ns ih =>
    rw [flattenAll, actives_append, ih h.2, actives_cons]
    -- Of a bypassed node nothing is run on either side.
    cases hbypass : n.isBypassed with
    | true => rw [actives_flatten_of_bypassed h.1 hbypass]; rfl
    | false => rfl

/-- What holds of each node holds of a list. -/
theorem evalActive_flattenAll {ns : List Node}
    (h : ∀ n ∈ ns, ∀ p, evalActive (n.flatten true) p = if n.isBypassed then p else n.eval p)
    (p : Pixel Float32) : evalActive (flattenAll true ns) p = evalActive ns p := by
  induction ns generalizing p with
  | nil => rfl
  | cons n ns ih =>
    rw [flattenAll, evalActive_append, h n List.mem_cons_self, evalActive]
    exact ih (fun m hm => h m (List.mem_cons_of_mem n hm)) _

theorem evalGroup_flattenedSteps (ns : List Node) (p : Pixel Float32) :
    evalGroup none (flattenAll true ns) p = runSteps (flattenedSteps ns) p :=
  evalGroup_eq_runSteps (fun _ _ _ _ => rfl) none p

theorem evalGroup_referencedSteps {ns : List Node}
    (h : ∀ n ∈ ns, ∀ p, evalActive (n.flatten true) p = if n.isBypassed then p else n.eval p)
    (p : Pixel Float32) : evalGroup none ns p = runSteps (referencedSteps ns) p := by
  refine evalGroup_eq_runSteps (fun n hn hbypass p => ?_) none p
  rw [← evalActive_eq_runSteps, h n hn, hbypass]
  rfl

/-- A flattened group that does the same steps does what the group does. -/
theorem evalGroup_flattenAll {ns : List Node}
    (h : ∀ n ∈ ns, ∀ p, evalActive (n.flatten true) p = if n.isBypassed then p else n.eval p)
    (hsteps : flattenedSteps ns = referencedSteps ns) (p : Pixel Float32) :
    evalGroup none (flattenAll true ns) p = evalGroup none ns p := by
  rw [evalGroup_flattenedSteps, evalGroup_referencedSteps h, hsteps]

mutual
/-- The nodes in place of a node do what containers do with the node. -/
theorem evalActive_flatten : ∀ n : Node, n.KeepsEval → ∀ p,
    evalActive (n.flatten true) p = if n.isBypassed then p else n.eval p
  | .operation c op, _, p => rfl
  | .reference c t, _, p => rfl
  | .group c nodes, h, p => by
    -- The call on the nodes stands before the case split, where the recursion is still structural.
    have hnodes := fun hall => evalActive_flatten_of_mem nodes hall
    show (if c.bypass.getD false then p else evalGroup none (flattenAll true nodes) p) =
      if c.bypass.getD false then p else evalGroup none nodes p
    cases hbypass : c.bypass.getD false with
    | true => rfl
    | false => exact evalGroup_flattenAll (hnodes (h hbypass).1) (h hbypass).2 p
  | .resolved c t header nodes, h, p => by
    have hnodes := fun hall => evalActive_flatten_of_mem nodes hall
    show _ = if c.bypass.getD false then p else evalActive nodes p
    cases hbypass : c.bypass.getD false with
    | true =>
      rw [evalActive_eq_runSteps, actives_flatten_of_bypassed h hbypass]
      rfl
    | false =>
      rw [flatten, hbypass]
      exact evalActive_flattenAll (hnodes (h.2 hbypass)) p
termination_by structural n => n

@[inherit_doc evalActive_flatten]
theorem evalActive_flatten_of_mem : ∀ ns : List Node, KeepsEvalAll ns → ∀ n ∈ ns, ∀ p,
    evalActive (n.flatten true) p = if n.isBypassed then p else n.eval p
  | [], _, n, hn, _ => absurd hn List.not_mem_nil
  | m :: ns, h, n, hn, p => by
    rcases List.mem_cons.mp hn with heq | hn
    · rw [heq]
      exact evalActive_flatten m h.1 p
    · exact evalActive_flatten_of_mem ns h.2 n hn p
termination_by structural ns => ns
end

/-! ## §4 References looked up again -/

section

variable {link : Link} {ns : List Node}

/-- A lookup changes nothing if the active nodes stay as they are. -/
theorem evalGroup_relink (h : ∀ n ∈ ns, n.isBypassed = false → n.relink link = n)
    (previous : Option BitDepth) (p : Pixel Float32) :
    evalGroup previous (relinkAll link ns) p = evalGroup previous ns p := by
  induction ns generalizing previous p with
  | nil => rfl
  | cons n ns ih =>
    have hrest := ih fun m hm => h m (List.mem_cons_of_mem n hm)
    rw [relinkAll, evalGroup, evalGroup, isBypassed_relink]
    cases hbypass : n.isBypassed with
    | true => exact hrest previous p
    | false =>
      rw [h n List.mem_cons_self hbypass]
      exact hrest (some n.output) _

@[inherit_doc evalGroup_relink]
theorem evalActive_relink (h : ∀ n ∈ ns, n.isBypassed = false → n.relink link = n)
    (p : Pixel Float32) : evalActive (relinkAll link ns) p = evalActive ns p := by
  induction ns generalizing p with
  | nil => rfl
  | cons n ns ih =>
    have hrest := ih fun m hm => h m (List.mem_cons_of_mem n hm)
    rw [relinkAll, evalActive, evalActive, isBypassed_relink]
    cases hbypass : n.isBypassed with
    | true => exact hrest p
    | false =>
      rw [h n List.mem_cons_self hbypass]
      exact hrest _

end

/-! ## §5 Groups that need no other conversions -/

/-- The nodes stand for a node without a conversion between them: the first expects the depth that
the node expects, the last leaves the depth that it leaves. -/
structure Seamless (n : Node) (ms : List Node) : Prop where
  chain : List.IsChain (fun m m' => m.output.domain = m'.input.domain) ms
  first : ms.head?.map (fun m => m.input.domain) = some n.input.domain
  last : ms.getLast?.map (fun m => m.output.domain) = some n.output.domain

theorem seamless_of_same {n m : Node} (hinput : m.input = n.input) (houtput : m.output = n.output) :
    n.Seamless [m] where
  chain := List.isChain_singleton m
  first := congrArg (fun d : BitDepth => some d.domain) hinput
  last := congrArg (fun d : BitDepth => some d.domain) houtput

/-- Every active reference among the nodes declares the depths of the nodes that take its place, and
these pass them on. -/
def SeamlessAll (ns : List Node) : Prop :=
  ∀ n ∈ ns, n.kind = .reference → n.isBypassed = false → n.Seamless (actives (n.flatten true))

/-- A node that is no reference is replaced by a node with its depths. -/
theorem seamless_flatten {n : Node} (hkind : n.kind ≠ .reference) (hactive : n.isBypassed = false) :
    n.Seamless (actives (n.flatten true)) := by
  have hsingle : ∀ m : Node, m.isBypassed = n.isBypassed → actives [m] = [m] := fun m hm => by
    rw [actives_cons, hm, hactive]
    rfl
  cases n with
  | operation c op =>
    rw [flatten, hsingle _ rfl]
    exact seamless_of_same rfl rfl
  | group c nodes =>
    rw [flatten, hsingle (.group c (flattenAll true nodes)) rfl]
    exact seamless_of_same rfl rfl
  | reference c t => exact absurd rfl hkind
  | resolved c t header nodes => exact absurd rfl hkind

theorem conversion_congr {depth depth' next next' : BitDepth} (h : depth.domain = depth'.domain)
    (hnext : next.domain = next'.domain) :
    conversion (some depth) next = conversion (some depth') next' := by
  rw [conversion, conversion, h, hnext]

theorem conversion_eq_nil {depth next : BitDepth} (h : depth.domain = next.domain) :
    conversion (some depth) next = [] := if_pos h

/-- Bypassed nodes add no steps. -/
theorem steps_actives (inside : Node → List Node) (previous : Option BitDepth) (ns : List Node) :
    steps inside previous (actives ns) = steps inside previous ns := by
  induction ns generalizing previous with
  | nil => rfl
  | cons n ns ih =>
    rw [actives_cons, steps]
    cases hbypass : n.isBypassed with
    | true => exact ih previous
    | false =>
      rw [if_neg Bool.false_ne_true, if_neg Bool.false_ne_true, steps, hbypass,
        ih (some n.output)]
      rfl

/-- Active nodes that pass on what they leave convert before the first of them only. -/
theorem steps_of_chain {m : Node} {ms : List Node}
    (hchain : List.IsChain (fun m m' => m.output.domain = m'.input.domain) (m :: ms))
    (hactive : ∀ m' ∈ m :: ms, m'.isBypassed = false) (previous : Option BitDepth)
    (rest : List Node) :
    ∃ depth, (m :: ms).getLast?.map output = some depth ∧
      steps (fun n => [n]) previous (m :: ms ++ rest) =
        conversion previous m.input ++ (m :: ms).map .run ++
          steps (fun n => [n]) (some depth) rest := by
  have hm : m.isBypassed = false := hactive m List.mem_cons_self
  -- Induction on the rest of the chain, for every depth that the node before it leaves.
  induction ms generalizing m previous with
  | nil =>
    refine ⟨m.output, rfl, ?_⟩
    rw [List.singleton_append, steps, hm]
    rfl
  | cons m' ms ih =>
    obtain ⟨hdomain, hchain'⟩ := List.isChain_cons_cons.mp hchain
    have hactive' : ∀ m'' ∈ m' :: ms, m''.isBypassed = false := fun m'' h =>
      hactive m'' (List.mem_cons_of_mem m h)
    obtain ⟨depth, hlast, hsteps⟩ :=
      ih hchain' hactive' (some m.output) (hactive' m' List.mem_cons_self)
    refine ⟨depth, by rwa [List.getLast?_cons_cons], ?_⟩
    rw [List.cons_append, steps, hm, hsteps, conversion_eq_nil hdomain]
    simp

/-- A group does the same steps after it is flattened if its references declare the depths of their
nodes and these pass them on. -/
theorem flattenedSteps_of_seamless {ns : List Node} (hkeeps : KeepsEvalAll ns)
    (h : SeamlessAll ns) : flattenedSteps ns = referencedSteps ns := by
  -- The depths before a node may differ on the two sides, but their domains do not.
  suffices halong : ∀ previous previous' : Option BitDepth,
      previous.map BitDepth.domain = previous'.map BitDepth.domain →
        steps (fun n => [n]) previous (actives (flattenAll true ns)) =
          steps (fun n => actives (n.flatten true)) previous' ns by
    rw [flattenedSteps, referencedSteps, ← steps_actives, halong none none rfl]
  induction ns with
  | nil => exact fun _ _ _ => rfl
  | cons n ns ih =>
    rw [SeamlessAll, List.forall_mem_cons] at h
    have hrest := ih hkeeps.2 h.2
    intro previous previous' hprevious
    rw [flattenAll, actives_append, steps]
    cases hbypass : n.isBypassed with
    | true =>
      rw [actives_flatten_of_bypassed hkeeps.1 hbypass]
      exact hrest previous previous' hprevious
    | false =>
      have hall : ∀ m ∈ actives (n.flatten true), m.isBypassed = false := fun m hm => by
        simpa using (List.mem_filter.mp hm).2
      have hseamless : n.Seamless (actives (n.flatten true)) := by
        by_cases hkind : n.kind = .reference
        · exact h.1 hkind hbypass
        · exact seamless_flatten hkind hbypass
      generalize actives (n.flatten true) = ms at hseamless hall
      cases ms with
      | nil =>
        -- Something active stands for the node, since it has a first depth.
        cases hseamless.first
      | cons m ms =>
        obtain ⟨depth, hlast, hsteps⟩ := steps_of_chain hseamless.chain hall previous
          (actives (flattenAll true ns))
        have hfirst : m.input.domain = n.input.domain := Option.some.inj hseamless.first
        have hdepth : (some depth).map BitDepth.domain = (some n.output).map BitDepth.domain := by
          rw [← hlast, Option.map_map]
          exact hseamless.last
        have hconversion : conversion previous m.input = conversion previous' n.input := by
          cases previous <;> cases previous' <;> first
            | rfl
            | exact conversion_congr (Option.some.inj hprevious) hfirst
            | cases hprevious
        rw [hsteps, hrest (some depth) (some n.output) hdepth, hconversion]
        rfl

/-! ## §6 Groups read back -/

/-- A group and what is read for it from a self-contained document, references being looked up by
`link`. The group that is read does the steps of the flattened nodes, unless one of them is an
active reference that is found only now. The other does, if the nodes in it keep what they do, the
steps with its references, which run the same nodes. Both do the same where they convert alike, in
particular where the references declare the depths of their nodes and these pass them on. -/
structure FlattenedTo (link : Link) (g g' : Node) : Prop where
  kind : g'.kind = .group
  eval : (∀ n ∈ flattenAll true g.inner, n.isBypassed = false → n.LinkedBy link) →
    ∀ p, g'.eval p = runSteps (flattenedSteps g.inner) p
  referenced : KeepsEvalAll g.inner → ∀ p, g.eval p = runSteps (referencedSteps g.inner) p
  nodes : KeepsEvalAll g.inner → (flattenedSteps g.inner).filterMap Step.node? =
    (referencedSteps g.inner).filterMap Step.node?
  same : (∀ n ∈ flattenAll true g.inner, n.isBypassed = false → n.LinkedBy link) →
    KeepsEvalAll g.inner → flattenedSteps g.inner = referencedSteps g.inner →
      ∀ p, g'.eval p = g.eval p
  seamless : (∀ n ∈ flattenAll true g.inner, n.isBypassed = false → n.LinkedBy link) →
    KeepsEvalAll g.inner → SeamlessAll g.inner → ∀ p, g'.eval p = g.eval p

theorem flattenedTo_of_eval {link : Link} {c c' : NodeCommon} {ns ns' : List Node}
    (h : ∀ p, eval (.group c' ns') p = evalGroup none (relinkAll link (flattenAll true ns)) p) :
    FlattenedTo link (.group c ns) (.group c' ns') := by
  have heval : (∀ n ∈ flattenAll true ns, n.isBypassed = false → n.LinkedBy link) →
      ∀ p, eval (.group c' ns') p = runSteps (flattenedSteps ns) p := by
    intro hlinked p
    rw [h, evalGroup_relink fun n hn hactive => (relink_of_linkedBy n (hlinked n hn hactive)).2,
      evalGroup_flattenedSteps]
  have hreferenced : KeepsEvalAll ns →
      ∀ p, eval (.group c ns) p = runSteps (referencedSteps ns) p :=
    fun hkeeps p => evalGroup_referencedSteps (evalActive_flatten_of_mem ns hkeeps) p
  have hsame : (∀ n ∈ flattenAll true ns, n.isBypassed = false → n.LinkedBy link) →
      KeepsEvalAll ns → flattenedSteps ns = referencedSteps ns →
        ∀ p, eval (.group c' ns') p = eval (.group c ns) p := by
    intro hlinked hkeeps hsteps p
    rw [heval hlinked, hreferenced hkeeps, hsteps]
  exact ⟨rfl, heval, hreferenced, node?_flattenedSteps, hsame, fun hlinked hkeeps hseamless =>
    hsame hlinked hkeeps (flattenedSteps_of_seamless hkeeps hseamless)⟩

/-! ## §7 References below lists only -/

mutual
/-- Every reference is resolved and active and has nothing but lists above it. -/
def Inlinable : Node → Prop
  | operation _ _ => True
  | group _ nodes => referencesAll nodes = []
  | reference _ _ => False
  | resolved c _ _ nodes => c.bypass.getD false = false ∧ InlinableAll nodes
termination_by structural n => n

@[inherit_doc Inlinable]
def InlinableAll : List Node → Prop
  | [] => True
  | n :: ns => n.Inlinable ∧ InlinableAll ns
termination_by structural ns => ns
end

theorem steps_congr {inside inside' : Node → List Node} {ns : List Node}
    (h : ∀ n ∈ ns, n.isBypassed = false → inside n = inside' n) (previous : Option BitDepth) :
    steps inside previous ns = steps inside' previous ns := by
  induction ns generalizing previous with
  | nil => rfl
  | cons n ns ih =>
    have hrest := fun previous => ih (fun m hm => h m (List.mem_cons_of_mem n hm)) previous
    rw [steps, steps]
    cases hbypass : n.isBypassed with
    | true => exact hrest previous
    | false => rw [h n List.mem_cons_self hbypass, hrest previous, hrest (some n.output)]

theorem flattenAll_of_flatten {ns : List Node} (h : ∀ n ∈ ns, n.flatten true = [n]) :
    flattenAll true ns = ns := by
  induction ns with
  | nil => rfl
  | cons n ns ih =>
    rw [flattenAll, h n List.mem_cons_self, ih fun m hm => h m (List.mem_cons_of_mem n hm),
      List.singleton_append]

mutual
/-- Nothing is replaced in a node without references. -/
theorem flatten_of_referenceless : ∀ n : Node, n.references = [] →
    n.flatten true = [n] ∧ n.KeepsEval
  | .operation _ _, _ => ⟨rfl, trivial⟩
  | .group c nodes, h => by
    obtain ⟨hflatten, hkeeps⟩ := flattenAll_of_referenceless nodes h
    have hall := flattenAll_of_flatten hflatten
    refine ⟨by rw [flatten, hall], fun _ => ⟨hkeeps, ?_⟩⟩
    rw [flattenedSteps, referencedSteps, hall]
    refine steps_congr (fun n hn hbypass => ?_) none
    rw [hflatten n hn, actives_cons, hbypass]
    rfl
  | .reference _ _, h => absurd h (List.cons_ne_nil _ _)
  | .resolved _ _ _ _, h => absurd h (List.cons_ne_nil _ _)
termination_by structural n => n

@[inherit_doc flatten_of_referenceless]
theorem flattenAll_of_referenceless : ∀ ns : List Node, referencesAll ns = [] →
    (∀ n ∈ ns, n.flatten true = [n]) ∧ KeepsEvalAll ns
  | [], _ => ⟨fun n hn => absurd hn List.not_mem_nil, trivial⟩
  | m :: ns, h => by
    obtain ⟨hm, hns⟩ := List.append_eq_nil_iff.mp h
    obtain ⟨hflatten, hkeeps⟩ := flatten_of_referenceless m hm
    obtain ⟨hrest, hall⟩ := flattenAll_of_referenceless ns hns
    refine ⟨fun n hn => ?_, hkeeps, hall⟩
    rcases List.mem_cons.mp hn with heq | hn
    · rw [heq]
      exact hflatten
    · exact hrest n hn
termination_by structural ns => ns
end

theorem referencesAll_append (ns ms : List Node) :
    referencesAll (ns ++ ms) = referencesAll ns ++ referencesAll ms := by
  induction ns with
  | nil => rfl
  | cons n ns ih => rw [List.cons_append, referencesAll, referencesAll, ih, List.append_assoc]

mutual
/-- Flattening leaves no reference and keeps what the nodes do. -/
theorem flatten_of_inlinable : ∀ n : Node, n.Inlinable →
    referencesAll (n.flatten true) = [] ∧ n.KeepsEval
  | .operation _ _, _ => ⟨rfl, trivial⟩
  | .group c nodes, h => by
    obtain ⟨hflatten, hkeeps⟩ := flatten_of_referenceless (.group c nodes) h
    refine ⟨?_, hkeeps⟩
    rw [hflatten, referencesAll, referencesAll, List.append_nil]
    exact h
  | .reference _ _, h => h.elim
  | .resolved c t header nodes, h => by
    obtain ⟨hactive, hnodes⟩ := h
    obtain ⟨hreferences, hkeeps⟩ := flattenAll_of_inlinable nodes hnodes
    refine ⟨?_, fun hbypass => ?_, fun _ => hkeeps⟩
    · rw [flatten, hactive]
      exact hreferences
    · rw [hactive] at hbypass
      cases hbypass
termination_by structural n => n

@[inherit_doc flatten_of_inlinable]
theorem flattenAll_of_inlinable : ∀ ns : List Node, InlinableAll ns →
    referencesAll (flattenAll true ns) = [] ∧ KeepsEvalAll ns
  | [], _ => ⟨rfl, trivial⟩
  | n :: ns, h => by
    obtain ⟨hn, hkeeps⟩ := flatten_of_inlinable n h.1
    obtain ⟨hns, hall⟩ := flattenAll_of_inlinable ns h.2
    refine ⟨?_, hkeeps, hall⟩
    rw [flattenAll, referencesAll_append, hn, hns]
    rfl
termination_by structural ns => ns
end

mutual
/-- A node without references suits every lookup. -/
theorem linkedBy_of_referenceless (link : Link) : ∀ n : Node, n.references = [] → n.LinkedBy link
  | .operation _ _, _ => trivial
  | .group _ nodes, h => linkedByAll_of_referenceless link nodes h
  | .reference _ _, h => absurd h (List.cons_ne_nil _ _)
  | .resolved _ _ _ _, h => absurd h (List.cons_ne_nil _ _)
termination_by structural n => n

@[inherit_doc linkedBy_of_referenceless]
theorem linkedByAll_of_referenceless (link : Link) : ∀ ns : List Node, referencesAll ns = [] →
    LinkedByAll link ns
  | [], _ => trivial
  | n :: ns, h => by
    obtain ⟨hn, hns⟩ := List.append_eq_nil_iff.mp h
    exact ⟨linkedBy_of_referenceless link n hn, linkedByAll_of_referenceless link ns hns⟩
termination_by structural ns => ns
end

end Node

end CommonLut

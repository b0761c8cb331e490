/-
# Code for plans

A plan is turned into code node by node, and what was generated for a node is remembered for others
of the same number. So what the fragment of each node has, if those of its inputs do, the fragment
of the whole plan has.

* `handsOver_assemble` : one node, over the fragments of its inputs;
* `exists_realize` : a whole plan, with what was generated remembered;
* `Fragment.HandsOver.run` : a fragment that hands over answers can be run;
* `Plan.exists_generate`, `Plan.exists_generate_of_nodes` : the code of a plan is what is left of the
  fragment of its root.
-/
import QueryPlanner.Proofs.Plan.Extraction
import QueryPlanner.Proofs.Plan.Fragments

namespace QueryPlanner

open Answers Implementor

variable {ν : Type} {source : RowSource}

/-! ## One node -/

section Node

variable {registry : Registry ν} {id : Nat} {op : Operator} {c : Convention} {t : RowType}
  {cost rows : ν} {children : List (PlanNode ν)} {inputs : List Fragment} {n n' : Nat}

/-- A node that is no converter is left to the implementor of its convention. -/
theorem returns_assemble_of_implementor (implementor : Implementor ν) {f : Fragment}
    (h : registry.implementor? c = some implementor) (hkind : op.kind ≠ .converter)
    (hf : Returns (implementor.implement (.node id op c t cost rows children) inputs) n f n') :
    Returns (PlanNode.assemble registry (.node id op c t cost rows children) inputs) n f n' := by
  cases op with
  | converter given => exact absurd rfl hkind
  | _ =>
      unfold PlanNode.assemble
      dsimp only [PlanNode.op, PlanNode.convention]
      rw [h]
      exact hf

/-- A converter is left to the convertlet between its conventions. -/
theorem returns_assemble_of_convertlet {convertlet : Convertlet ν} {given : Convention}
    {f out : Fragment} (h : registry.convertlet? given c = some convertlet)
    (hout : Returns (convertlet.realize f t) n out n') :
    Returns (PlanNode.assemble registry (.node id (.converter given) c t cost rows children) [f]) n
      out n' := by
  unfold PlanNode.assemble
  dsimp only [PlanNode.op, PlanNode.convention]
  rw [h]
  exact hout

variable [Quantity ν]

/-- What is generated as code over rows of some form is left to the implementor of that form. -/
theorem returns_assemble_of_code (form : RowForm) {block : CodeBlock}
    (hregistry : Registry.standard = .ok registry) (hkind : op.kind ≠ .converter)
    (h : Returns (Implementor.code form (.node id op form.convention t cost rows children) inputs) n
      block n') :
    Returns (PlanNode.assemble registry (.node id op form.convention t cost rows children) inputs) n
      (.code block) n' := by
  rw [Registry.standard_eq, Except.ok.injEq] at hregistry
  subst hregistry
  cases form with
  | positional =>
      exact returns_assemble_of_implementor compiled rfl hkind
        (Returns.bind h (returns_pure.mpr ⟨rfl, rfl⟩))
  | record =>
      exact returns_assemble_of_implementor compiledRecord rfl hkind
        (Returns.bind h (returns_pure.mpr ⟨rfl, rfl⟩))

variable {slots : List Handover}

/-- The fragment of a node hands over what its operator answers over what the fragments of its inputs
hand over. -/
theorem handsOver_assemble (hregistry : Registry.standard = .ok registry)
    (himplemented : IsImplemented op c (slots.map Handover.convention))
    (htype : op.deriveRowType (slots.map Handover.rowType) = .ok t)
    (htypes : children.map PlanNode.rowType = slots.map Handover.rowType)
    (hwide : ∀ d ∈ slots, d.IsWide) (hreads : op.Reads slots)
    (hinputs : List.Forall₂ (fun d f => Fragment.HandsOver source d f) slots inputs) (n : Nat) :
    ∃ f n',
      Returns (PlanNode.assemble registry (.node id op c t cost rows children) inputs) n f n' ∧
        f.HandsOver source ⟨t, c, op.answers source c slots⟩ := by
  have hlength := himplemented.length_inputs
  rw [List.length_map] at hlength
  -- an operator that is generated as code over rows of some form
  have hcode : ∀ form : RowForm, form.convention = c → op.kind ≠ .converter → ∃ f n',
      Returns (PlanNode.assemble registry (.node id op c t cost rows children) inputs) n f n' ∧
        f.HandsOver source ⟨t, c, op.answers source c slots⟩ := by
    rintro form rfl hkind
    obtain ⟨block, n', hblock, hhands⟩ :=
      handsOver_code hkind himplemented htype htypes hwide hreads hinputs n
    exact ⟨.code block, n', returns_assemble_of_code form hregistry hkind hblock, hhands⟩
  have hstandard := hregistry
  rw [Registry.standard_eq, Except.ok.injEq] at hstandard
  generalize hconventions : slots.map Handover.convention = conventions at himplemented
  cases himplemented with
  | @converter given target hbridged =>
      obtain ⟨d, f, rfl, rfl, hf⟩ := exists_fragment hlength hinputs
      obtain rfl : d.convention = given := List.singleton_inj.mp hconventions
      obtain rfl : d.rowType = t := Except.ok.inj htype
      obtain ⟨convertlet, hfound, out, n', hout, hhands⟩ :=
        handsOver_realize hregistry hbridged (hwide d List.mem_cons_self) hf n
      exact ⟨out, n', returns_assemble_of_convertlet hfound hout, hhands⟩
  | pulled hkind =>
      have hiterators : ∀ d ∈ slots, d.convention = .iterator := by
        intro d hd
        have hmem : d.convention ∈ slots.map Handover.convention := List.mem_map_of_mem hd
        rw [hconventions] at hmem
        exact List.eq_of_mem_replicate hmem
      obtain ⟨p, hp, hanswers, hfilled⟩ :=
        handsOver_pipeline hkind hlength htypes hiterators hinputs n
      subst hstandard
      exact ⟨.iterator p, n, returns_assemble_of_implementor iterator rfl hkind
        (Returns.bind hp (returns_pure.mpr ⟨rfl, rfl⟩)), rfl, hanswers, hfilled⟩
  | filter form p => exact hcode form rfl nofun
  | project form exprs out => exact hcode form rfl nofun
  | compiledJoin condition => exact hcode .positional rfl nofun
  | federatedScan table t' =>
      subst hstandard
      exact ⟨.remote table t', n, returns_assemble_of_implementor federated rfl nofun rfl, rfl, rfl⟩

end Node

/-! ## Whole plans -/

section Plans

variable {registry : Registry ν} {Good : Nat → Fragment → Prop}

/-- What was generated so far has, for each number of a node, what it is to have. -/
def Remembers (Good : Nat → Fragment → Prop) (done : Dictionary Nat Fragment) : Prop :=
  ∀ id f, done.get? id = some f → Good id f

theorem Remembers.insert {done : Dictionary Nat Fragment} (h : Remembers Good done) {id : Nat}
    {f : Fragment} (hf : Good id f) : Remembers Good (done.insert id f) := by
  intro other g hg
  rw [Dictionary.get?_insert] at hg
  split at hg
  · next heq =>
      cases hg
      rw [← heq]
      exact hf
  · exact h other g hg

/-- A node can be turned into code that has what it is to have, if the code of its inputs does. -/
def PlanNode.IsAssembled (registry : Registry ν) (Good : Nat → Fragment → Prop) (n : PlanNode ν) :
    Prop :=
  ∀ inputs k, List.Forall₂ (fun child f => Good child.id f) n.children inputs →
    ∃ f k', Returns (n.assemble registry inputs) k f k' ∧ Good n.id f

mutual

/-- Where each node of a plan can be turned into such code, the plan can be. -/
theorem exists_realize : ∀ node : PlanNode ν, (∀ n ∈ node.nodes, n.IsAssembled registry Good) →
    ∀ done k, Remembers Good done → ∃ f done' k',
      Returns ((node.realize registry).run done) k (f, done') k' ∧ Good node.id f ∧
        Remembers Good done'
  | .node id op c t cost rows children, hnodes, done, k, hdone => by
      rw [PlanNode.realize]
      -- a node of a number that was met before is not generated again
      rcases hfound : done.get? id with _ | f
      · rw [PlanNode.nodes, List.forall_mem_cons] at hnodes
        obtain ⟨hnode, hbelow⟩ := hnodes
        obtain ⟨fragments, done', k', hreturns, hgood, hdone'⟩ :=
          exists_realizeList children hbelow done k hdone
        obtain ⟨f, k'', hf, hfGood⟩ := hnode fragments k' hgood
        refine ⟨f, done'.insert id f, k'', ?_, hfGood, hdone'.insert hfGood⟩
        simp only [StateT.run_bind, StateT.run_get, pure_bind, hfound]
        refine hreturns.bind ?_
        simp only [StateT.run_monadLift, bind_assoc]
        exact hf.bind rfl
      · refine ⟨f, done, k, ?_, hdone id f hfound, hdone⟩
        simp only [StateT.run_bind, StateT.run_get, pure_bind, hfound]
        rfl

theorem exists_realizeList : ∀ nodes : List (PlanNode ν),
    (∀ n ∈ PlanNode.nodesOfList nodes, n.IsAssembled registry Good) → ∀ done k, Remembers Good done →
      ∃ fragments done' k',
        Returns ((PlanNode.realizeList registry nodes).run done) k (fragments, done') k' ∧
          List.Forall₂ (fun node f => Good node.id f) nodes fragments ∧ Remembers Good done'
  | [], _, done, k, hdone => ⟨[], done, k, by rw [PlanNode.realizeList]; rfl, .nil, hdone⟩
  | node :: rest, hnodes, done, k, hdone => by
      rw [PlanNode.nodesOfList, List.forall_mem_append] at hnodes
      obtain ⟨f, done', k', hf, hgood, hdone'⟩ := exists_realize node hnodes.1 done k hdone
      obtain ⟨fragments, done'', k'', hfragments, hall, hdone''⟩ :=
        exists_realizeList rest hnodes.2 done' k' hdone'
      refine ⟨f :: fragments, done'', k'', ?_, .cons hgood hall, hdone''⟩
      rw [PlanNode.realizeList, StateT.run_bind]
      refine hf.bind ?_
      rw [StateT.run_bind]
      exact hfragments.bind rfl

end

/-- A fragment that hands over answers, and is not left with a foreign source, can be run, and gives
all rows among the answers unless one of them is an error. -/
theorem Fragment.HandsOver.run {d : Handover} {f : Fragment} (h : f.HandsOver source d)
    (hwide : d.IsWide) (hd : d.convention ≠ .federated) (root : String) :
    ∃ executable, f.close root = .ok executable ∧ executable.IsFilled ∧
      executable.run source = d.answers.bind all := by
  cases f with
  | iterator p =>
      obtain ⟨-, hanswers, hfilled⟩ := h
      refine ⟨_, rfl, hfilled, ?_⟩
      rw [Pipeline.run_pipeline, hanswers]
  | code block =>
      obtain ⟨form, -, hyields, hfillable⟩ := h
      refine ⟨_, rfl, hfillable.close, ?_⟩
      rw [Executable.run, hyields.runProgram_close hwide, all_after]
  | remote table t => exact absurd h.1 hd

/-- So the code of a plan is what is left of a fragment that has what the root is to have. -/
theorem Plan.exists_generate {plan : Plan ν}
    (hnodes : ∀ n ∈ plan.root.nodes, n.IsAssembled registry Good) :
    ∃ f, Good plan.root.id f ∧ plan.generate registry = f.close plan.root.op.display := by
  obtain ⟨f, done, k, hreturns, hgood, -⟩ := exists_realize plan.root hnodes [] 0
    fun id f hf => nomatch hf
  have hrealize : ((plan.root.realize registry).run []).run.run 0 = (.ok (f, done), k) := hreturns
  refine ⟨f, hgood, ?_⟩
  rw [Plan.generate, hrealize]

mutual

/-- The inputs of the nodes of a plan are nodes of the plan. -/
theorem PlanNode.mem_nodes_of_mem_children {n child : PlanNode ν} : ∀ root : PlanNode ν,
    n ∈ root.nodes → child ∈ n.children → child ∈ root.nodes
  | .node id op c t cost rows children, hn, hchild => by
      rw [nodes, List.mem_cons] at hn ⊢
      rcases hn with rfl | hn
      · rw [nodesOfList_eq, List.mem_flatMap]
        exact Or.inr ⟨child, hchild, mem_nodes_self child⟩
      · exact Or.inr (mem_nodesOfList_of_mem_children children hn hchild)

theorem PlanNode.mem_nodesOfList_of_mem_children {n child : PlanNode ν} :
    ∀ roots : List (PlanNode ν), n ∈ nodesOfList roots → child ∈ n.children →
      child ∈ nodesOfList roots
  | [], hn, _ => absurd hn List.not_mem_nil
  | root :: rest, hn, hchild => by
      rw [nodesOfList, List.mem_append] at hn ⊢
      exact hn.imp (fun h => mem_nodes_of_mem_children root h hchild)
        fun h => mem_nodesOfList_of_mem_children rest h hchild

end

/-- So it is where each node is to have something of its own, if nodes of one number have the same. -/
theorem Plan.exists_generate_of_nodes {plan : Plan ν} {Good : PlanNode ν → Fragment → Prop}
    (hids : ∀ n ∈ plan.root.nodes, ∀ m ∈ plan.root.nodes, n.id = m.id → ∀ f, Good n f → Good m f)
    (hnodes : ∀ n ∈ plan.root.nodes, ∀ inputs k, List.Forall₂ Good n.children inputs →
      ∃ f k', Returns (n.assemble registry inputs) k f k' ∧ Good n f) :
    ∃ f, Good plan.root f ∧ plan.generate registry = f.close plan.root.op.display := by
  -- what was generated for a number is what all nodes of that number are to have
  have hassembled : ∀ n ∈ plan.root.nodes, n.IsAssembled registry fun id f =>
      ∀ m ∈ plan.root.nodes, m.id = id → Good m f := by
    intro n hn inputs k hinputs
    have hchildren : List.Forall₂ Good n.children inputs := by
      have hboth := (List.forall₂_and_left _ _).mpr
        ⟨fun child hchild => PlanNode.mem_nodes_of_mem_children plan.root hn hchild, hinputs⟩
      exact hboth.imp fun child f h => h.2 child h.1 rfl
    obtain ⟨f, k', hf, hgood⟩ := hnodes n hn inputs k hchildren
    exact ⟨f, k', hf, fun m hm hid => hids n hn m hm hid.symm f hgood⟩
  obtain ⟨f, hgood, hgenerate⟩ := Plan.exists_generate hassembled
  exact ⟨f, hgood plan.root plan.root.mem_nodes_self rfl, hgenerate⟩

end Plans

end QueryPlanner

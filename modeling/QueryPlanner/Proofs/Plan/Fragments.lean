/-
# Fragments that hand over answers

A fragment hands over answers in a convention: as a pipeline that answers with them, as code that
runs for each of them in turn, or as a table that has them. Implementors and convertlets make
fragments that hand over what the operator of a node answers, of fragments that hand over what its
inputs do.

* `Fragment.HandsOver` : a fragment that hands over answers in a convention;
* `handsOver_pipeline`, `handsOver_code` : what implementors do;
* `handsOver_realize` : what convertlets do.
-/
import QueryPlanner.Plan.Execution
import QueryPlanner.Proofs.Plan.Answers
import QueryPlanner.Proofs.Registry

namespace QueryPlanner

open Answers Implementor

variable {source : RowSource} {d d' : Handover}

/-- A fragment that hands over answers as a convention has it, and has no hole left but that of a
block. -/
def Fragment.HandsOver (source : RowSource) (d : Handover) : Fragment → Prop
  | iterator p => d.convention = .iterator ∧ p.answers source = d.answers ∧ p.IsFilled
  | code block => ∃ form : RowForm, d.convention = form.convention ∧
      block.Yields source (form.hold d.rowType) (after d.answers id) ∧ block.IsFillable
  | remote table _ => d.convention = .federated ∧
      (source.rows table).map (List.map Except.ok) = d.answers

namespace Fragment.HandsOver

variable {f : Fragment}

/-- Code hands over in the convention of one form of rows only, and not by being pulled from. -/
theorem form_of_convention {form form' : RowForm} (h : form.convention = form'.convention) :
    form = form' := by
  cases form <;> cases form' <;> first | rfl | exact absurd h (by decide)

theorem convention_ne_iterator (form : RowForm) : form.convention ≠ .iterator := by
  cases form <;> decide

theorem convention_ne_federated (form : RowForm) : form.convention ≠ .federated := by
  cases form <;> decide

/-- What is pulled from is a pipeline. -/
theorem pipeline (h : f.HandsOver source d) (hd : d.convention = .iterator) :
    ∃ p, f = .iterator p ∧ p.answers source = d.answers ∧ p.IsFilled := by
  cases f with
  | iterator p => exact ⟨p, rfl, h.2⟩
  | code block =>
      obtain ⟨form, hform, -⟩ := h
      exact absurd (hform.symm.trans hd) (convention_ne_iterator form)
  | remote table t => exact absurd (h.1.symm.trans hd) (by decide)

/-- What is handed over in the convention of a form of rows is generated code. -/
theorem block (form : RowForm) (h : f.HandsOver source d) (hd : d.convention = form.convention) :
    ∃ block, f = .code block ∧
      block.Yields source (form.hold d.rowType) (after d.answers id) ∧ block.IsFillable := by
  cases f with
  | iterator p => exact absurd (hd.symm.trans h.1) (convention_ne_iterator form)
  | code block =>
      obtain ⟨form', hform, hblock⟩ := h
      cases form_of_convention (hform.symm.trans hd)
      exact ⟨block, rfl, hblock⟩
  | remote table t => exact absurd (hd.symm.trans h.1) (convention_ne_federated form)

/-- What a foreign source owns is a table. -/
theorem table (h : f.HandsOver source d) (hd : d.convention = .federated) :
    ∃ table t, f = .remote table t ∧ (source.rows table).map (List.map Except.ok) = d.answers := by
  cases f with
  | iterator p => exact absurd (h.1.symm.trans hd) (by decide)
  | code block =>
      obtain ⟨form, hform, -⟩ := h
      exact absurd (hform.symm.trans hd) (convention_ne_federated form)
  | remote table t => exact ⟨table, t, rfl, h.2⟩

end Fragment.HandsOver

/-! ## Implementors -/

section Nodes

variable {ν : Type} {id : Nat} {op : Operator} {c : Convention} {t u : RowType} {cost rows : ν}
  {children : List (PlanNode ν)} {n : Nat}

/-- The row type of the input of a node with inputs. -/
theorem inputType_eq {ts : List RowType} (h : children.map PlanNode.rowType = t :: ts) :
    inputType (.node id op c u cost rows children) = t := by
  obtain ⟨child, rest, rfl, rfl, -⟩ := List.map_eq_cons_iff.mp h
  rfl

/-- The number of columns of the right one of two inputs. -/
theorem rightWidth_eq (h : children.map PlanNode.rowType = [t, u]) {out : RowType} :
    rightWidth (.node id op c out cost rows children) = u.width := by
  obtain ⟨left, rest, rfl, -, hrest⟩ := List.map_eq_cons_iff.mp h
  obtain ⟨right, rest, rfl, rfl, -⟩ := List.map_eq_cons_iff.mp hrest
  rfl

variable {slots : List Handover} {inputs : List Fragment}

/-- The fragment of the only input. -/
theorem exists_fragment (h : slots.length = 1)
    (hinputs : List.Forall₂ (fun d f => Fragment.HandsOver source d f) slots inputs) :
    ∃ d f, slots = [d] ∧ inputs = [f] ∧ f.HandsOver source d := by
  obtain ⟨d, rfl⟩ := List.length_eq_one_iff.mp h
  obtain ⟨f, _, hf, hnil, rfl⟩ := List.forall₂_cons_left_iff.mp hinputs
  cases hnil
  exact ⟨d, f, rfl, rfl, hf⟩

/-- The fragments of two inputs. -/
theorem exists_fragments (h : slots.length = 2)
    (hinputs : List.Forall₂ (fun d f => Fragment.HandsOver source d f) slots inputs) :
    ∃ d d' f g, slots = [d, d'] ∧ inputs = [f, g] ∧ f.HandsOver source d ∧
      g.HandsOver source d' := by
  obtain ⟨d, d', rfl⟩ := List.length_eq_two.mp h
  obtain ⟨f, _, hf, hrest, rfl⟩ := List.forall₂_cons_left_iff.mp hinputs
  obtain ⟨g, _, hg, hnil, rfl⟩ := List.forall₂_cons_left_iff.mp hrest
  cases hnil
  exact ⟨d, d', f, g, rfl, rfl, hf, hg⟩

/-- The pipeline of an operator over pipelines answers what the operator does. -/
theorem handsOver_pipeline (hkind : op.kind ≠ .converter) (hlength : slots.length = op.arity)
    (htypes : children.map PlanNode.rowType = slots.map Handover.rowType)
    (hiterators : ∀ d ∈ slots, d.convention = .iterator)
    (hinputs : List.Forall₂ (fun d f => Fragment.HandsOver source d f) slots inputs) (n : Nat) :
    ∃ p, Returns (pipeline (.node id op c t cost rows children) inputs) n p n ∧
      p.answers source = op.answers source .iterator slots ∧ p.IsFilled := by
  -- what an operator with one input makes of the pipeline of its input
  have hsingle : op.arity = 1 → ∃ d p, slots = [d] ∧ inputs = [.iterator p] ∧
      p.answers source = d.answers ∧ p.IsFilled := by
    intro harity
    obtain ⟨d, f, rfl, rfl, hf⟩ := exists_fragment (hlength.trans harity) hinputs
    obtain ⟨p, rfl, hp⟩ := hf.pipeline (hiterators d List.mem_cons_self)
    exact ⟨d, p, rfl, rfl, hp⟩
  cases op with
  | values t' rows' => exact ⟨_, rfl, Pipeline.answers_values rows', trivial⟩
  | scan table t' => exact ⟨_, rfl, Pipeline.answers_scan table, trivial⟩
  | filter p =>
      obtain ⟨d, input, rfl, rfl, hinput, hfilled⟩ := hsingle rfl
      refine ⟨_, rfl, ?_, hfilled⟩
      rw [Pipeline.answers_filter, hinput]
      unfold Operator.answers
      rw [Convention.outcome_iterator]
  | project exprs t' =>
      obtain ⟨d, input, rfl, rfl, hinput, hfilled⟩ := hsingle rfl
      refine ⟨_, rfl, ?_, hfilled⟩
      rw [Pipeline.answers_project, hinput]
      unfold Operator.answers
      rw [Convention.outcome_iterator]
  | join type condition =>
      obtain ⟨d, d', f, g, rfl, rfl, hf, hg⟩ := exists_fragments hlength hinputs
      obtain ⟨left, rfl, hleft, hleftFilled⟩ := hf.pipeline (hiterators d List.mem_cons_self)
      obtain ⟨right, rfl, hright, hrightFilled⟩ := hg.pipeline
        (hiterators d' (List.mem_cons_of_mem _ List.mem_cons_self))
      have hwidth : rightWidth (.node id (.join type condition) c t cost rows children) =
          d'.rowType.width := rightWidth_eq htypes
      refine ⟨.join left right type condition d'.rowType.width, ?_, ?_, hleftFilled, hrightFilled⟩
      · rw [← hwidth]
        rfl
      · rw [Pipeline.answers_join, hleft, hright]
        unfold Operator.answers
        dsimp only
        rw [if_pos rfl]
  | sort order =>
      obtain ⟨d, input, rfl, rfl, hinput, hfilled⟩ := hsingle rfl
      refine ⟨_, rfl, ?_, hfilled⟩
      rw [Pipeline.answers_sort, hinput]
      rfl
  | limit offset count =>
      obtain ⟨d, input, rfl, rfl, hinput, hfilled⟩ := hsingle rfl
      refine ⟨_, rfl, ?_, hfilled⟩
      rw [Pipeline.answers_limit, hinput]
      rfl
  | converter given => exact absurd rfl hkind

variable {form : RowForm}

/-- The code of an operator over code answers what the operator does. -/
theorem handsOver_code (hkind : op.kind ≠ .converter)
    (himplemented : IsImplemented op form.convention (slots.map Handover.convention))
    (htype : op.deriveRowType (slots.map Handover.rowType) = .ok t)
    (htypes : children.map PlanNode.rowType = slots.map Handover.rowType)
    (hwide : ∀ d ∈ slots, d.IsWide) (hreads : op.Reads slots)
    (hinputs : List.Forall₂ (fun d f => Fragment.HandsOver source d f) slots inputs) (n : Nat) :
    ∃ block n', Returns (Implementor.code form (.node id op c t cost rows children) inputs) n
        block n' ∧
      (Fragment.code block).HandsOver source
        ⟨t, form.convention, op.answers source form.convention slots⟩ := by
  have hne := Fragment.HandsOver.convention_ne_iterator form
  have hlength := himplemented.length_inputs
  rw [List.length_map] at hlength
  generalize hconventions : slots.map Handover.convention = conventions at himplemented
  generalize hc : form.convention = target at himplemented hne
  cases himplemented with
  | converter => exact absurd rfl hkind
  | pulled => exact absurd rfl hne
  | filter form' p =>
      obtain rfl := Fragment.HandsOver.form_of_convention hc
      obtain ⟨d, f, rfl, rfl, hf⟩ := exists_fragment hlength hinputs
      obtain ⟨input, rfl, hyields, hfillable⟩ := hf.block form (List.singleton_inj.mp hconventions)
      obtain rfl : d.rowType = t := Except.ok.inj htype
      refine ⟨_, _, rfl, form, rfl, ?_, ?_⟩
      · rw [inputType_eq htypes]
        unfold Operator.answers
        rw [after_map_forEach, Convention.outcome_of_ne hne]
        exact hyields.filter (hwide d List.mem_cons_self) hreads
      · exact hfillable.filter _ _ _ _
  | project form' exprs out =>
      obtain rfl := Fragment.HandsOver.form_of_convention hc
      obtain ⟨d, f, rfl, rfl, hf⟩ := exists_fragment hlength hinputs
      obtain ⟨input, rfl, hyields, hfillable⟩ := hf.block form (List.singleton_inj.mp hconventions)
      obtain rfl : out = t := Except.ok.inj htype
      refine ⟨_, _, rfl, form, rfl, ?_, ?_⟩
      · rw [inputType_eq htypes]
        unfold Operator.answers
        rw [after_map_forEach, Convention.outcome_of_ne hne]
        exact hyields.project (hwide d List.mem_cons_self) hreads.2 hreads.1
      · exact hfillable.project _ _ _
  | compiledJoin condition =>
      obtain rfl : form = .positional := Fragment.HandsOver.form_of_convention hc
      obtain ⟨d, d', f, g, rfl, rfl, hf, hg⟩ := exists_fragments hlength hinputs
      obtain ⟨hd, hd'⟩ := List.cons_eq_cons.mp hconventions
      obtain ⟨left, rfl, hleft, hfillable⟩ := hf.block .positional hd
      obtain ⟨right, rfl, hright, hfilled⟩ := hg.pipeline (List.singleton_inj.mp hd')
      obtain rfl : d.rowType.join d'.rowType false = t := Except.ok.inj htype
      refine ⟨_, _, rfl, .positional, rfl, ?_, ?_⟩
      · unfold Operator.answers
        dsimp only
        rw [if_neg hne, after_map_forEach, ← hright]
        refine hleft.join ?_ ?_
        · intro heq
          rw [Var.mk.injEq] at heq
          omega
        · intro heq
          rw [Var.mk.injEq] at heq
          omega
      · exact hfillable.join _ _ _ _ _ _ hfilled _ _ _
  | federatedScan table t' => exact absurd hc (Fragment.HandsOver.convention_ne_federated form)

end Nodes

/-! ## Convertlets -/

/-- A convertlet between the conventions of a bridge is registered, and hands over what it is
handed. -/
theorem handsOver_realize {ν : Type} [Quantity ν] {registry : Registry ν}
    (hregistry : Registry.standard = .ok registry) {target : Convention}
    (h : IsBridged d.convention target) (hwide : d.IsWide) {f : Fragment}
    (hf : f.HandsOver source d) (n : Nat) :
    ∃ convertlet, registry.convertlet? d.convention target = some convertlet ∧
      ∃ out n', Returns (convertlet.realize f d.rowType) n out n' ∧ out.HandsOver source
        ⟨d.rowType, target, (Operator.converter d.convention).answers source target [d]⟩ := by
  rw [Registry.standard_eq, Except.ok.injEq] at hregistry
  subst hregistry
  generalize hgiven : d.convention = given at h
  unfold Operator.answers
  have hnames : ∀ x ∈ after d.answers id, ∀ row, x = .ok row →
      row.length = d.rowType.names.length := by
    rintro x hx row rfl
    rw [RowType.length_names]
    exact hwide row hx
  cases h with
  | fetch =>
      obtain ⟨table, t, rfl, hrows⟩ := hf.table hgiven
      refine ⟨Convertlet.fetch, rfl, _, _, rfl, rfl, ?_, trivial⟩
      rw [Pipeline.answers_fetch, hrows]
      dsimp only
      rw [if_pos rfl, map_bind_all hrows]
  | loop =>
      obtain ⟨p, rfl, hp, hfilled⟩ := hf.pipeline hgiven
      refine ⟨Convertlet.loop, rfl, _, _, rfl, .positional, rfl, ?_, ?_⟩
      · dsimp only
        rw [if_neg (by decide), ← hp]
        exact CodeBlock.yields_loop p _
      · exact CodeBlock.isFillable_loop _ _ hfilled _ _
  | buffer =>
      obtain ⟨block, rfl, hyields, hfillable⟩ := hf.block .positional hgiven
      refine ⟨Convertlet.buffer, rfl, _, _, rfl, rfl, ?_, hfillable.close⟩
      rw [Pipeline.answers_materialize, hyields.runProgram_close hwide, all_after]
      dsimp only
      rw [if_pos rfl]
  | toRecord =>
      obtain ⟨block, rfl, hyields, hfillable⟩ := hf.block .positional hgiven
      refine ⟨Convertlet.toRecord, rfl, _, _, rfl, .record, rfl, ?_, hfillable⟩
      dsimp only
      rw [if_neg (by decide)]
      exact hyields.withRow fun x hx scopes hgives => hgives.toRecord (hnames x hx)
  | toRow =>
      obtain ⟨block, rfl, hyields, hfillable⟩ := hf.block .record hgiven
      refine ⟨Convertlet.toRow, rfl, _, _, rfl, .positional, rfl, ?_, hfillable⟩
      dsimp only
      rw [if_neg (by decide)]
      exact hyields.withRow fun x hx scopes hgives => hgives.toRow (hnames x hx)

end QueryPlanner

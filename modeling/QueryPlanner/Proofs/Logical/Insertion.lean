/-
# Logical plans in a memo

Building adds a logical plan to a memo from the leaves up. If the plan denotes a bag, then the
groups of its parts stand for the bags of the parts: names and row types are those that the plan
has by itself, and whatever is in the memo already stands for what it did.

* `means_addLogical_of_returns` : one operator;
* `means_build` : a whole plan.
-/
import QueryPlanner.Proofs.Logical
import QueryPlanner.Proofs.Memo.Growth

namespace QueryPlanner

/-- A sequence succeeds if its first part does and the second one on what that gives. -/
theorem bind_eq_ok {ε α β : Type} {x : Except ε α} {f : α → Except ε β} {b : β} :
    (x >>= f) = .ok b ↔ ∃ a, x = .ok a ∧ f a = .ok b := by
  constructor
  · intro h
    rcases x with e | a
    · cases h
    · exact ⟨a, rfl, h⟩
  · rintro ⟨a, rfl, h⟩
    exact h

namespace Request

variable {source : RowSource} {memo after : Memo Float} {den : GroupId → Bag} {g : GroupId}

/-- Adding an operator returns if adding it to the memo does. -/
theorem returns_addLogical {op : Operator} {children : List GroupId}
    (h : Returns (addLogical op children) memo g after) :
    (Memo.addLogical op children).run.run memo = (.ok g, after) := by
  have hrun : Prod.map (Except.mapError OptimizationError.message) id
      ((Memo.addLogical op children).run.run memo) = (.ok g, after) := h
  rcases hmemo : (Memo.addLogical op children).run.run memo with ⟨e | x, t⟩
  · rw [hmemo] at hrun
    cases hrun
  · rw [hmemo] at hrun
    cases hrun
    rfl

/-- The row type that is read of a group. -/
theorem returns_rowTypeOf {t : RowType} (h : Returns (rowTypeOf g) memo t after) :
    t = (memo.group g).rowType ∧ after = memo := by
  obtain ⟨m, s, hget, hpure⟩ := returns_bind.mp h
  obtain ⟨rfl, rfl⟩ := returns_get.mp hget
  exact returns_pure.mp hpure

/-- What is resolved over the row type of a group before something else is done. -/
theorem exists_of_resolved {α : Type} {child : GroupId} (resolve : RowType → Resolve α)
    {next : α → Build GroupId}
    (hrun : Returns (do
      let t ← rowTypeOf child
      let x ← (resolve t : Resolve α)
      next x) memo g after) :
    ∃ x, resolve (memo.group child).rowType = .ok x ∧ Returns (next x) memo g after := by
  obtain ⟨t, s, htype, hresolve⟩ := returns_bind.mp hrun
  obtain ⟨rfl, rfl⟩ := returns_rowTypeOf htype
  obtain ⟨x, s', hlift, hnext⟩ := returns_bind.mp hresolve
  obtain ⟨hx, rfl⟩ := returns_lift.mp hlift
  exact ⟨x, hx, hnext⟩

/-- An operator over groups gives the bag that it denotes over theirs a group. -/
theorem means_addLogical_of_returns (h : memo.Means source den) {op : Operator}
    {children : List GroupId} {out : Bag} (hlt : ∀ child ∈ children, child < memo.groups.size)
    (hop : Operator.Denotes source op (children.map den) out)
    (hrun : Returns (addLogical op children) memo g after) :
    ∃ den', Memo.Continues source den memo.groups.size after den' ∧ g < after.groups.size ∧
      den' g = out := by
  obtain ⟨den', hcontinues, hgroup⟩ := Memo.means_addLogical h hlt hop (returns_addLogical hrun)
  exact ⟨den', hcontinues, hgroup g rfl⟩

/-- An operator resolved over the row type of the group of a plan that denotes a bag, as it is over
the row type of the plan. -/
theorem means_resolved {α : Type} (resolve : RowType → Resolve α) (op : α → Operator)
    {input : LogicalPlan} {child : GroupId} {out : Bag} {x : α} (h : memo.Means source den)
    (hlt : child < memo.groups.size) (hinput : input.Denotes source (den child))
    (hx : resolve input.rowType = .ok x) (hop : Operator.Denotes source (op x) [den child] out)
    (hrun : Returns (do
      let t ← rowTypeOf child
      let x ← (resolve t : Resolve α)
      addLogical (op x) [child]) memo g after) :
    ∃ den', Memo.Continues source den memo.groups.size after den' ∧ g < after.groups.size ∧
      den' g = out := by
  obtain ⟨x', hx', hadd⟩ := exists_of_resolved resolve hrun
  rw [h.rowType child hlt, hinput.rowType_eq] at hx'
  cases hx.symm.trans hx'
  exact means_addLogical_of_returns h (List.forall_mem_singleton.mpr hlt) hop hadd

/-- Building a plan that denotes a bag gives the bag a group. -/
theorem means_build {tables : List Table} {relation : Relation} {plan : LogicalPlan} {b : Bag}
    (h : memo.Means source den) (hplan : relation.logical tables = .ok plan)
    (hb : plan.Denotes source b) (hrun : Returns (build tables relation) memo g after) :
    ∃ den', Memo.Continues source den memo.groups.size after den' ∧ g < after.groups.size ∧
      den' g = b := by
  induction relation generalizing memo after den g plan b with
  | values columns given =>
      obtain ⟨rows, hrows, hvalues⟩ := bind_eq_ok.mp hplan
      cases hvalues
      obtain ⟨rows', s, hlift, hadd⟩ := returns_bind.mp hrun
      obtain ⟨hrows', rfl⟩ := returns_lift.mp hlift
      cases hrows.symm.trans hrows'
      cases hb with
      | values hop =>
          exact means_addLogical_of_returns h (fun _ hc => absurd hc List.not_mem_nil) hop hadd
  | scan schema name =>
      obtain ⟨t, ht, hscan⟩ := bind_eq_ok.mp hplan
      cases hscan
      obtain ⟨t', s, hlift, hadd⟩ := returns_bind.mp hrun
      obtain ⟨ht', rfl⟩ := returns_lift.mp hlift
      cases ht.symm.trans ht'
      cases hb with
      | scan hop =>
          exact means_addLogical_of_returns h (fun _ hc => absurd hc List.not_mem_nil) hop hadd
  | filter p below ih =>
      obtain ⟨input, hinput, hresolve⟩ := bind_eq_ok.mp hplan
      obtain ⟨e, he, hfilter⟩ := bind_eq_ok.mp hresolve
      cases hfilter
      cases hb with
      | filter hc hop =>
          obtain ⟨child, s, hchild, hrest⟩ := returns_bind.mp hrun
          obtain ⟨den₁, hcontinues, hlt, rfl⟩ := ih h hinput hc hchild
          obtain ⟨den₂, hafter, hgroup⟩ := means_resolved (fun t => expr t p) .filter
            hcontinues.means hlt hc he hop hrest
          exact ⟨den₂, hcontinues.trans hafter, hgroup⟩
  | project named below ih =>
      obtain ⟨input, hinput, hresolve⟩ := bind_eq_ok.mp hplan
      obtain ⟨es, hes, hproject⟩ := bind_eq_ok.mp hresolve
      cases hproject
      cases hb with
      | project hc hop =>
          obtain ⟨child, s, hchild, hrest⟩ := returns_bind.mp hrun
          obtain ⟨den₁, hcontinues, hlt, rfl⟩ := ih h hinput hc hchild
          obtain ⟨den₂, hafter, hgroup⟩ := means_resolved
            (fun t => exprs t (named.map NamedTerm.term)) _ hcontinues.means hlt hc hes hop hrest
          exact ⟨den₂, hcontinues.trans hafter, hgroup⟩
  | join type condition left right ihl ihr =>
      obtain ⟨l, hl, hresolve⟩ := bind_eq_ok.mp hplan
      obtain ⟨r, hr, hresolve'⟩ := bind_eq_ok.mp hresolve
      obtain ⟨c, hc, hjoin⟩ := bind_eq_ok.mp hresolve'
      cases hjoin
      cases hb with
      | join hleft hright hop =>
          obtain ⟨x, s, hx, hrest⟩ := returns_bind.mp hrun
          obtain ⟨den₁, hfirst, hltx, rfl⟩ := ihl h hl hleft hx
          obtain ⟨y, s', hy, hrest'⟩ := returns_bind.mp hrest
          obtain ⟨den₂, hsecond, hlty, rfl⟩ := ihr hfirst.means hr hright hy
          -- the left input stands for its bag beside the right one as well
          have hltx' : x < s'.groups.size := Nat.lt_of_lt_of_le hltx hsecond.size
          rw [← hsecond.agree x hltx] at hleft hop
          obtain ⟨t, s'', htype, hrest''⟩ := returns_bind.mp hrest'
          obtain ⟨rfl, rfl⟩ := returns_rowTypeOf htype
          obtain ⟨c', hc', hadd⟩ := exists_of_resolved (fun t =>
            expr (RowType.join _ t (type == .left)) condition) hrest''
          rw [hsecond.means.rowType x hltx', hsecond.means.rowType y hlty, hleft.rowType_eq,
            hright.rowType_eq] at hc'
          cases hc.symm.trans hc'
          obtain ⟨den₃, hafter, hgroup⟩ := means_addLogical_of_returns hsecond.means
            (List.forall_mem_cons.mpr ⟨hltx', List.forall_mem_singleton.mpr hlty⟩) hop hadd
          exact ⟨den₃, (hfirst.trans hsecond).trans hafter, hgroup⟩
  | sort keys below ih =>
      obtain ⟨input, hinput, hresolve⟩ := bind_eq_ok.mp hplan
      obtain ⟨es, hes, hsort⟩ := bind_eq_ok.mp hresolve
      cases hsort
      cases hb with
      | sort hc hop =>
          obtain ⟨child, s, hchild, hrest⟩ := returns_bind.mp hrun
          obtain ⟨den₁, hcontinues, hlt, rfl⟩ := ih h hinput hc hchild
          obtain ⟨den₂, hafter, hgroup⟩ := means_resolved
            (fun t => exprs t (keys.map SortTerm.term)) _ hcontinues.means hlt hc hes hop hrest
          exact ⟨den₂, hcontinues.trans hafter, hgroup⟩
  | limit offset count below _ =>
      obtain ⟨input, hinput, hlimit⟩ := bind_eq_ok.mp hplan
      cases hlimit
      cases hb

end Request

end QueryPlanner

/-
# What is built has a logical plan

Building resolves columns over the row types of groups, resolving a logical plan does over those
of its parts. As long as nothing is merged the two agree: every group has the row type that is
derived for its operator, also where the operator was there already. So whatever can be built has
a logical plan.

* `Memo.Derives` : a memo without merged groups, and of the derived row types;
* `derives_addLogical` : adding an operator keeps it so;
* `Memo.Extends` : a memo comes of another by adding operators that read no columns but those of
  their inputs;
* `isWithin_expr`, `isWithin_exprs` : what is resolved over a row type reads its columns only;
* `exists_logical_of_build` : what is built has a logical plan, its row type, and no operators but
  those of the plan.
-/
import QueryPlanner.Proofs.Columns
import QueryPlanner.Proofs.Logical.Insertion

namespace QueryPlanner

namespace Memo

variable {ν : Type} {memo after : Memo ν} {op : Operator} {children : List GroupId} {g : GroupId}

/-- The row types of some groups. -/
def rowTypes (memo : Memo ν) (gs : List GroupId) : List RowType :=
  gs.map fun g => (memo.group g).rowType

/-- The number of columns of some groups, beside each other. -/
def width (memo : Memo ν) (gs : List GroupId) : Nat :=
  RowType.widthOfList (memo.rowTypes gs)

/-- A memo without merged groups, in which the group of a key has the row type that is derived for
the key. -/
structure Derives (memo : Memo ν) : Prop where
  led : memo.Led
  leader : ∀ g, memo.leader g = g
  index : ∀ key m, memo.index.get? key = some m → m < memo.members.size ∧
    (memo.member m).group < memo.groups.size ∧ (∀ g ∈ key.children, g < memo.groups.size) ∧
    key.op.deriveRowType (memo.rowTypes key.children) =
      .ok (memo.group (memo.member m).group).rowType

theorem derives_empty : (empty : Memo ν).Derives where
  led := led_empty
  leader g := leader_of_none (by simp [empty])
  index key m h := by cases h

/-- Another memo has all groups of a memo, with their row types. -/
structure Includes (after memo : Memo ν) : Prop where
  size : memo.groups.size ≤ after.groups.size
  rowType : ∀ g < memo.groups.size, (after.group g).rowType = (memo.group g).rowType

theorem Includes.refl (memo : Memo ν) : memo.Includes memo := ⟨Nat.le_refl _, fun _ _ => rfl⟩

theorem Includes.trans {last : Memo ν} (h : last.Includes after) (h' : after.Includes memo) :
    last.Includes memo where
  size := h'.size.trans h.size
  rowType g hg := (h.rowType g (Nat.lt_of_lt_of_le hg h'.size)).trans (h'.rowType g hg)

theorem Includes.rowTypes (h : after.Includes memo) {gs : List GroupId}
    (hgs : ∀ g ∈ gs, g < memo.groups.size) : after.rowTypes gs = memo.rowTypes gs :=
  List.map_congr_left fun g hg => h.rowType g (hgs g hg)

/-- A new operator of its derived row type, in a group of its own. -/
theorem derives_pushed (h : memo.Derives) (c : Convention) (inputs : List Convention) {t : RowType}
    (hlt : ∀ child ∈ children, child < memo.groups.size)
    (ht : op.deriveRowType (memo.rowTypes children) = .ok t) :
    ((memo.pushGroup t).pushMember memo.groups.size op c children inputs).Derives ∧
      ((memo.pushGroup t).pushMember memo.groups.size op c children inputs).Includes memo := by
  have hsize : ((memo.pushGroup t).pushMember memo.groups.size op c children inputs).groups.size =
      memo.groups.size + 1 := (Array.size_modify ..).trans (Array.size_push ..)
  have hincludes : ((memo.pushGroup t).pushMember memo.groups.size op c children inputs).Includes
      memo := by
    refine ⟨hsize ▸ Nat.le_succ _, fun x hx => ?_⟩
    rw [rowType_pushed h.led, if_neg (Nat.ne_of_lt hx)]
  refine ⟨⟨led_pushMember (led_pushGroup h.led t) _ _ _ _ _, fun x => ?_, fun key m hm => ?_⟩,
    hincludes⟩
  · show (memo.pushGroup t).leader x = x
    rw [leader_pushGroup memo t x h.led.size]
    split
    · rfl
    · exact h.leader x
  · have hmembers : ((memo.pushGroup t).pushMember memo.groups.size op c children
        inputs).members.size = memo.members.size + 1 := Array.size_push ..
    have hindex : (memo.index.insert (.of op c children inputs) memo.members.size).get? key =
        some m := hm
    rw [MemberIndex.get?_insert_member] at hindex
    rw [member_pushMember]
    show m < _ ∧ (if m = memo.members.size then _ else memo.member m).group < _ ∧ _ ∧ _ =
      Except.ok (Group.rowType (group _ (if m = memo.members.size then _ else memo.member m).group))
    -- the key is that of the new member, or was there before
    split at hindex
    · next hkey =>
        cases hindex
        subst hkey
        rw [if_pos rfl, hmembers, hsize, rowType_pushed h.led, if_pos rfl]
        refine ⟨Nat.lt_succ_self _, Nat.lt_succ_self _, fun x hx => ?_, ?_⟩
        · exact Nat.lt_succ_of_lt (hlt x hx)
        show op.canonical.deriveRowType _ = _
        rw [Operator.deriveRowType_canonical]
        show op.deriveRowType (rowTypes _ children) = _
        rw [hincludes.rowTypes hlt]
        exact ht
    · obtain ⟨hm, hgroup, hchildren, hderived⟩ := h.index key m hindex
      rw [if_neg (Nat.ne_of_lt hm), hmembers, hsize, hincludes.rowTypes hchildren,
        rowType_pushed h.led, if_neg (Nat.ne_of_lt hgroup)]
      exact ⟨Nat.lt_succ_of_lt hm, Nat.lt_succ_of_lt hgroup,
        fun x hx => Nat.lt_succ_of_lt (hchildren x hx), hderived⟩

/-- Adding an operator gives it a group of the row type that is derived for it. -/
theorem derives_addLogical (h : memo.Derives) (hlt : ∀ child ∈ children, child < memo.groups.size)
    (hrun : (addLogical op children).run.run memo = (.ok g, after)) :
    after.Derives ∧ after.Includes memo ∧ g < after.groups.size ∧
      op.deriveRowType (memo.rowTypes children) = .ok (after.group g).rowType := by
  have hleaders : children.map memo.leader = children :=
    (List.map_congr_left fun x _ => h.leader x).trans (List.map_id _)
  unfold addLogical at hrun
  rw [run_bind, run_add, hleaders] at hrun
  rcases hindex : memo.index.get? (.of op .logical children (children.map fun _ => .logical))
    with _ | m
  · rw [hindex] at hrun
    rcases htype : memo.deriveRowType op children (children.map fun _ => .logical) with e | t
    · rw [htype] at hrun
      cases hrun
    · rw [htype] at hrun
      cases hrun
      have ht : op.deriveRowType (memo.rowTypes children) = .ok t := by
        unfold Memo.deriveRowType at htype
        rw [if_neg (by simp)] at htype
        show op.deriveRowType (children.map fun g => (memo.group g).rowType) = _
        rcases hop : op.deriveRowType (children.map fun g => (memo.group g).rowType) with e | t'
        · rw [hop] at htype
          cases htype
        · rw [hop] at htype
          cases htype
          rfl
      obtain ⟨hderives, hincludes⟩ := derives_pushed h .logical
        (children.map fun _ => .logical) hlt ht
      refine ⟨hderives, hincludes, ?_, ?_⟩
      · exact (Nat.lt_succ_self _).trans_eq
          ((Array.size_modify ..).trans (Array.size_push ..)).symm
      · rw [rowType_pushed h.led, if_pos rfl]
        exact ht
  · rw [hindex] at hrun
    cases hrun
    obtain ⟨-, hgroup, -, hderived⟩ := h.index _ m hindex
    refine ⟨h, Includes.refl _, hgroup, ?_⟩
    rw [← Operator.deriveRowType_canonical]
    exact hderived

/-- A memo comes of another by adding logical operators of a list, one by one and each over groups
that are there already, within the columns of these. -/
inductive Extends (ops : List Operator) (memo : Memo ν) : Memo ν → Prop
  | refl : Extends ops memo memo
  | add {mid after : Memo ν} {op : Operator} {children : List GroupId} {g : GroupId}
      (h : Extends ops memo mid) (hop : op ∈ ops) (hlt : ∀ child ∈ children, child < mid.groups.size)
      (hwithin : op.IsWithin (mid.width children))
      (hrun : Returns (addLogical op children) mid g after) : Extends ops memo after

theorem Extends.single {ops : List Operator} (hop : op ∈ ops)
    (hlt : ∀ child ∈ children, child < memo.groups.size) (hwithin : op.IsWithin (memo.width children))
    (hrun : Returns (addLogical op children) memo g after) : Extends ops memo after :=
  .add .refl hop hlt hwithin hrun

theorem Extends.mono {ops more : List Operator} (h : Extends ops memo after) (hmore : ops ⊆ more) :
    Extends more memo after := by
  induction h with
  | refl => exact .refl
  | add _ hop hlt hwithin hrun ih => exact ih.add (hmore hop) hlt hwithin hrun

theorem Extends.trans {ops : List Operator} {last : Memo ν} (h : Extends ops memo after)
    (h' : Extends ops after last) : Extends ops memo last := by
  induction h' with
  | refl => exact h
  | add _ hop hlt hwithin hrun ih => exact ih.add hop hlt hwithin hrun

end Memo

namespace Request

/-! ## Resolved expressions -/

mutual

/-- An expression that is resolved over a row type reads columns of it only. -/
theorem isWithin_expr {t : RowType} : ∀ {term : Term} {e : Expr}, expr t term = .ok e →
    e.IsWithin t.width
  | .column index, e, h => by
      rw [expr] at h
      rcases hread : t.fields[index]? with _ | f
      · rw [hread] at h
        cases h
      · rw [hread] at h
        cases h
        intro c hc
        rw [Expr.col, Expr.columns, List.mem_singleton] at hc
        subst hc
        exact (List.getElem?_eq_some_iff.mp hread).1
  | .literal value, e, h => by
      obtain ⟨v, -, hv⟩ := bind_eq_ok.mp h
      cases hv
      exact fun c hc => absurd hc List.not_mem_nil
  | .binary sign l r, e, h => by
      obtain ⟨op, -, h⟩ := bind_eq_ok.mp h
      obtain ⟨l', hl, h⟩ := bind_eq_ok.mp h
      obtain ⟨r', hr, h⟩ := bind_eq_ok.mp h
      cases h
      exact fun c hc => (List.mem_append.mp hc).elim (isWithin_expr hl c) (isWithin_expr hr c)
  | .unary name term, e, h => by
      obtain ⟨op, -, h⟩ := bind_eq_ok.mp h
      obtain ⟨x, hx, h⟩ := bind_eq_ok.mp h
      cases h
      have hwithin : x.IsWithin t.width := isWithin_expr hx
      exact hwithin
  | .call name args, e, h => by
      obtain ⟨es, hes, h⟩ := bind_eq_ok.mp h
      cases h
      exact Expr.forall_mem_columnsOfList.mpr (isWithin_exprs hes).2
  | .and args, e, h => by
      obtain ⟨es, hes, h⟩ := bind_eq_ok.mp h
      cases h
      exact Expr.forall_mem_columnsOfList.mpr (isWithin_exprs hes).2
  | .or args, e, h => by
      obtain ⟨es, hes, h⟩ := bind_eq_ok.mp h
      cases h
      exact Expr.forall_mem_columnsOfList.mpr (isWithin_exprs hes).2

/-- So do several expressions, one for each that is resolved. -/
theorem isWithin_exprs {t : RowType} : ∀ {terms : List Term} {es : List Expr},
    exprs t terms = .ok es → es.length = terms.length ∧ ∀ e ∈ es, e.IsWithin t.width
  | [], es, h => by
      cases h
      exact ⟨rfl, fun e he => absurd he List.not_mem_nil⟩
  | term :: rest, es, h => by
      obtain ⟨e, he, h⟩ := bind_eq_ok.mp h
      obtain ⟨es', hes, h⟩ := bind_eq_ok.mp h
      cases h
      obtain ⟨hlength, hwithin⟩ := isWithin_exprs hes
      exact ⟨congrArg Nat.succ hlength, List.forall_mem_cons.mpr ⟨isWithin_expr he, hwithin⟩⟩

end

/-- A resolved projection has an expression for each of its columns. -/
theorem isWithin_project {t : RowType} {named : List NamedTerm} {es : List Expr}
    (h : exprs t (named.map NamedTerm.term) = .ok es) :
    (Operator.project es ⟨named.map fun n => { name := n.name, type := n.type }⟩).IsWithin
      t.width := by
  obtain ⟨hlength, hwithin⟩ := isWithin_exprs h
  refine ⟨hwithin, ?_⟩
  show es.length = List.length _
  rw [hlength, List.length_map, List.length_map]

/-- The keys of a resolved sort read what its expressions do. -/
theorem isWithin_sort {t : RowType} {keys : List SortTerm} {es : List Expr}
    (h : exprs t (keys.map SortTerm.term) = .ok es) :
    (Operator.sort ((es.zip keys).map fun (e, k) => ⟨e, k.ascending, k.nullsFirst⟩)).IsWithin
      t.width := by
  refine ⟨fun e he => ?_, trivial⟩
  obtain ⟨key, hkey, rfl⟩ := List.mem_map.mp he
  obtain ⟨⟨e, k⟩, hzip, rfl⟩ := List.mem_map.mp hkey
  exact (isWithin_exprs h).2 e (List.of_mem_zip hzip).1

/-! ## Plans -/

variable {memo after : Memo Float} {g : GroupId}

/-- An operator resolved over the row type of the group of a plan is what it is over the row type of
the plan, its group has the row type that is derived for it, and nothing else is added. -/
theorem derives_resolved {α : Type} (resolve : RowType → Resolve α) (op : α → Operator)
    (hresolve : ∀ t x, resolve t = .ok x → (op x).IsWithin t.width)
    {input : LogicalPlan} {child : GroupId} (h : memo.Derives) (hlt : child < memo.groups.size)
    (htype : (memo.group child).rowType = input.rowType)
    (hrun : Returns (do
      let t ← rowTypeOf child
      let x ← (resolve t : Resolve α)
      addLogical (op x) [child]) memo g after) :
    after.Derives ∧ after.Includes memo ∧ g < after.groups.size ∧
      ∃ x, resolve input.rowType = .ok x ∧
        (op x).deriveRowType [input.rowType] = .ok (after.group g).rowType ∧
        Memo.Extends [op x] memo after := by
  obtain ⟨x, hx, hadd⟩ := exists_of_resolved resolve hrun
  have hlt' : ∀ x ∈ [child], x < memo.groups.size := List.forall_mem_singleton.mpr hlt
  obtain ⟨hafter, hincludes, hg, hderived⟩ := Memo.derives_addLogical h hlt'
    (returns_addLogical hadd)
  have hwithin : (op x).IsWithin (memo.width [child]) := hresolve _ x hx
  rw [htype] at hx
  rw [Memo.rowTypes, List.map_singleton, htype] at hderived
  exact ⟨hafter, hincludes, hg, x, hx, hderived,
    .single (List.mem_singleton_self _) hlt' hwithin (returns_addLogical hadd)⟩

/-- What is built has a logical plan, of the row type that its group has, and no operators were
added but those of the plan. -/
theorem exists_logical_of_build {tables : List Table} {relation : Relation} (h : memo.Derives)
    (hrun : Returns (build tables relation) memo g after) :
    after.Derives ∧ after.Includes memo ∧ g < after.groups.size ∧
      ∃ plan, relation.logical tables = .ok plan ∧ (after.group g).rowType = plan.rowType ∧
        Memo.Extends plan.operators memo after := by
  induction relation generalizing memo after g with
  | values columns given =>
      obtain ⟨rows, s, hlift, hadd⟩ := returns_bind.mp hrun
      obtain ⟨hrows, rfl⟩ := returns_lift.mp hlift
      have hlt : ∀ child ∈ ([] : List GroupId), child < s.groups.size :=
        fun _ hc => absurd hc List.not_mem_nil
      obtain ⟨hafter, hincludes, hg, htype⟩ := Memo.derives_addLogical h hlt (returns_addLogical hadd)
      refine ⟨hafter, hincludes, hg, _, bind_eq_ok.mpr ⟨rows, hrows, rfl⟩, ?_,
        .single (List.mem_singleton_self _) hlt ⟨nofun, trivial⟩ (returns_addLogical hadd)⟩
      exact (Except.ok.inj htype).symm
  | scan schema name =>
      obtain ⟨t, s, hlift, hadd⟩ := returns_bind.mp hrun
      obtain ⟨ht, rfl⟩ := returns_lift.mp hlift
      have hlt : ∀ child ∈ ([] : List GroupId), child < s.groups.size :=
        fun _ hc => absurd hc List.not_mem_nil
      obtain ⟨hafter, hincludes, hg, htype⟩ := Memo.derives_addLogical h hlt (returns_addLogical hadd)
      refine ⟨hafter, hincludes, hg, _, bind_eq_ok.mpr ⟨t, ht, rfl⟩, ?_,
        .single (List.mem_singleton_self _) hlt ⟨nofun, trivial⟩ (returns_addLogical hadd)⟩
      exact (Except.ok.inj htype).symm
  | filter p below ih =>
      obtain ⟨child, s, hchild, hrest⟩ := returns_bind.mp hrun
      obtain ⟨hs, hfirst, hlt, input, hinput, hrowType, hbelow⟩ := ih h hchild
      obtain ⟨hafter, hincludes, hg, e, he, hderived, hadded⟩ :=
        derives_resolved (fun t => expr t p) .filter
          (fun t e he => ⟨List.forall_mem_singleton.mpr (isWithin_expr he), trivial⟩) hs hlt hrowType
          hrest
      refine ⟨hafter, hincludes.trans hfirst, hg, _,
        bind_eq_ok.mpr ⟨input, hinput, bind_eq_ok.mpr ⟨e, he, rfl⟩⟩, ?_,
        (hbelow.mono (List.subset_cons_self _ _)).trans
          (hadded.mono (List.cons_subset_cons _ (List.nil_subset _)))⟩
      exact (Except.ok.inj hderived).symm
  | project named below ih =>
      obtain ⟨child, s, hchild, hrest⟩ := returns_bind.mp hrun
      obtain ⟨hs, hfirst, hlt, input, hinput, hrowType, hbelow⟩ := ih h hchild
      obtain ⟨hafter, hincludes, hg, es, hes, hderived, hadded⟩ :=
        derives_resolved (fun t => exprs t (named.map NamedTerm.term)) _
          (fun t es hes => isWithin_project hes) hs hlt hrowType hrest
      refine ⟨hafter, hincludes.trans hfirst, hg, _,
        bind_eq_ok.mpr ⟨input, hinput, bind_eq_ok.mpr ⟨es, hes, rfl⟩⟩, ?_,
        (hbelow.mono (List.subset_cons_self _ _)).trans
          (hadded.mono (List.cons_subset_cons _ (List.nil_subset _)))⟩
      exact (Except.ok.inj hderived).symm
  | join type condition left right ihl ihr =>
      obtain ⟨x, s, hx, hrest⟩ := returns_bind.mp hrun
      obtain ⟨hs, hfirst, hltx, l, hl, htypel, hleft⟩ := ihl h hx
      obtain ⟨y, s', hy, hrest'⟩ := returns_bind.mp hrest
      obtain ⟨hs', hsecond, hlty, r, hr, htyper, hright⟩ := ihr hs hy
      rw [← hsecond.rowType x hltx] at htypel
      -- the condition is resolved over the row types of both inputs, read after both were built
      obtain ⟨t, s'', htype, hrest''⟩ := returns_bind.mp hrest'
      obtain ⟨rfl, rfl⟩ := returns_rowTypeOf htype
      obtain ⟨c, hc, hadd⟩ := exists_of_resolved (fun t =>
        expr (RowType.join _ t (type == .left)) condition) hrest''
      have hlt : ∀ child ∈ [x, y], child < s''.groups.size :=
        List.forall_mem_cons.mpr ⟨Nat.lt_of_lt_of_le hltx hsecond.size,
          List.forall_mem_singleton.mpr hlty⟩
      obtain ⟨hafter, hincludes, hg, hderived⟩ :=
        Memo.derives_addLogical hs' hlt (returns_addLogical hadd)
      have hwithin : (Operator.join type c).IsWithin (s''.width [x, y]) := by
        refine ⟨List.forall_mem_singleton.mpr ?_, trivial⟩
        have hread := isWithin_expr hc
        rw [RowType.width_join] at hread
        exact hread
      have hjoined := (Except.ok.inj hderived).symm
      dsimp only at hjoined
      rw [htypel, htyper] at hc hjoined
      refine ⟨hafter, hincludes.trans (hsecond.trans hfirst), hg, _, bind_eq_ok.mpr ⟨l, hl,
        bind_eq_ok.mpr ⟨r, hr, bind_eq_ok.mpr ⟨c, hc, rfl⟩⟩⟩, hjoined, ?_⟩
      have hinputs := (hleft.mono (List.subset_append_left _ r.operators)).trans
        (hright.mono (List.subset_append_right l.operators _))
      exact (hinputs.mono (List.subset_cons_self _ _)).add List.mem_cons_self hlt hwithin
        (returns_addLogical hadd)
  | sort keys below ih =>
      obtain ⟨child, s, hchild, hrest⟩ := returns_bind.mp hrun
      obtain ⟨hs, hfirst, hlt, input, hinput, hrowType, hbelow⟩ := ih h hchild
      obtain ⟨hafter, hincludes, hg, es, hes, hderived, hadded⟩ :=
        derives_resolved (fun t => exprs t (keys.map SortTerm.term)) _
          (fun t es hes => isWithin_sort hes) hs hlt hrowType hrest
      refine ⟨hafter, hincludes.trans hfirst, hg, _,
        bind_eq_ok.mpr ⟨input, hinput, bind_eq_ok.mpr ⟨es, hes, rfl⟩⟩, ?_,
        (hbelow.mono (List.subset_cons_self _ _)).trans
          (hadded.mono (List.cons_subset_cons _ (List.nil_subset _)))⟩
      exact (Except.ok.inj hderived).symm
  | limit offset count below ih =>
      obtain ⟨child, s, hchild, hadd⟩ := returns_bind.mp hrun
      obtain ⟨hs, hfirst, hlt, input, hinput, hrowType, hbelow⟩ := ih h hchild
      have hlt' : ∀ x ∈ [child], x < s.groups.size := List.forall_mem_singleton.mpr hlt
      obtain ⟨hafter, hincludes, hg, hderived⟩ :=
        Memo.derives_addLogical hs hlt' (returns_addLogical hadd)
      refine ⟨hafter, hincludes.trans hfirst, hg, _, bind_eq_ok.mpr ⟨input, hinput, rfl⟩, ?_,
        (hbelow.mono (List.subset_cons_self _ _)).add List.mem_cons_self hlt' ⟨nofun, trivial⟩
          (returns_addLogical hadd)⟩
      exact (Except.ok.inj hderived).symm.trans hrowType

end Request

end QueryPlanner

/-
# Which table a name stands for

A scan is resolved against the first table of its schema and name. The catalog and the row source
know tables by their qualified names, in which the point between schema and name is a character
like any other, and there the last table of a qualified name counts.

* `statistics?_catalog`, `rowType?_catalog`, `isFederated_catalog`, `rows_of_rowSource` : what the
  catalog and the row source know of a table is that of the last table of its qualified name, and
  it is foreign if any table of that name is;
* `isResolvedTo_of_findTable` : a scan stands for one table everywhere if no other table has its
  qualified name.
-/
import Mathlib.Data.List.Induction
import QueryPlanner.Proofs.Logical.Insertion

namespace QueryPlanner

namespace Request

variable {tables : List Table} {t u : Table} {table : TableName} {source : RowSource}

/-- The last table of a qualified name. -/
def lastOf? (tables : List Table) (key : String) : Option Table :=
  tables.reverse.find? fun t => t.tableName.display == key

theorem lastOf?_concat (tables : List Table) (t : Table) (key : String) :
    lastOf? (tables ++ [t]) key =
      if t.tableName.display = key then some t else lastOf? tables key := by
  unfold lastOf?
  rw [List.reverse_concat, List.find?_cons]
  by_cases h : t.tableName.display = key
  · rw [if_pos h, beq_iff_eq.mpr h]
  · rw [if_neg h, beq_eq_false_iff_ne.mpr h]

theorem of_lastOf?_eq_some {key : String} (h : lastOf? tables key = some t) :
    t ∈ tables ∧ t.tableName.display = key := by
  refine ⟨List.mem_reverse.mp (List.mem_of_find?_eq_some h), ?_⟩
  simpa using List.find?_some h

/-- A qualified name that some table has is that of a last one. -/
theorem exists_lastOf? (h : t ∈ tables) : ∃ u, lastOf? tables t.tableName.display = some u := by
  have hsome : (lastOf? tables t.tableName.display).isSome := by
    rw [lastOf?, List.find?_isSome]
    exact ⟨t, List.mem_reverse.mpr h, by simp⟩
  exact Option.isSome_iff_exists.mp hsome

/-! ## The catalog -/

theorem catalog_concat (tables : List Table) (t : Table) :
    catalog (tables ++ [t]) =
      if t.federated then (catalog tables).addFederated t.tableName t.rowType t.statistics
      else (catalog tables).addTable t.tableName t.rowType t.statistics := by
  rw [catalog, List.foldl_concat]
  rfl

/-- The statistics of a table are those of the last table of its qualified name. -/
theorem statistics?_catalog (tables : List Table) (table : TableName) :
    (catalog tables).statistics? table = (lastOf? tables table.display).map Table.statistics := by
  induction tables using List.reverseRecOn with
  | nil => rfl
  | append_singleton tables t ih =>
      have hstep : (catalog (tables ++ [t])).statistics =
          (catalog tables).statistics.insert t.tableName.display t.statistics := by
        rw [catalog_concat]
        split <;> rfl
      rw [Catalog.statistics?, hstep, Dictionary.get?_insert, lastOf?_concat]
      split
      · rfl
      · exact ih

/-- The row type of a table is that of the last table of its qualified name. -/
theorem rowType?_catalog (tables : List Table) (table : TableName) :
    (catalog tables).rowType? table = (lastOf? tables table.display).map Table.rowType := by
  induction tables using List.reverseRecOn with
  | nil => rfl
  | append_singleton tables t ih =>
      have hstep : (catalog (tables ++ [t])).rowTypes =
          (catalog tables).rowTypes.insert t.tableName.display t.rowType := by
        rw [catalog_concat]
        split <;> rfl
      rw [Catalog.rowType?, hstep, Dictionary.get?_insert, lastOf?_concat]
      split
      · rfl
      · exact ih

/-- A table is foreign if any table of its qualified name is. -/
theorem isFederated_catalog (tables : List Table) (table : TableName) :
    (catalog tables).isFederated table = true ↔
      ∃ t ∈ tables, t.federated = true ∧ t.tableName.display = table.display := by
  induction tables using List.reverseRecOn with
  | nil => simp [catalog, Catalog.isFederated]
  | append_singleton tables t ih =>
      have hstep : (catalog (tables ++ [t])).federated =
          if t.federated then t.tableName.display :: (catalog tables).federated
          else (catalog tables).federated := by
        rw [catalog_concat]
        split <;> rfl
      rw [Catalog.isFederated, List.contains_iff_mem] at ih ⊢
      rw [hstep]
      by_cases hfederated : t.federated = true
      · rw [if_pos hfederated, List.mem_cons, ih]
        constructor
        · rintro (heq | ⟨u, hu, hrest⟩)
          · exact ⟨t, by simp, hfederated, heq.symm⟩
          · exact ⟨u, List.mem_append_left _ hu, hrest⟩
        · rintro ⟨u, hu, hrest⟩
          rcases List.mem_append.mp hu with hu | hu
          · exact .inr ⟨u, hu, hrest⟩
          · rw [List.mem_singleton.mp hu] at hrest
            exact .inl hrest.2.symm
      · rw [if_neg hfederated, ih]
        constructor
        · rintro ⟨u, hu, hrest⟩
          exact ⟨u, List.mem_append_left _ hu, hrest⟩
        · rintro ⟨u, hu, hrest⟩
          rcases List.mem_append.mp hu with hu | hu
          · exact ⟨u, hu, hrest⟩
          · rw [List.mem_singleton.mp hu] at hrest
            exact absurd hrest.1 hfederated

/-! ## The row source -/

/-- Adds the rows of a table to what is known. -/
private def addRows (known : Dictionary String (List Row)) (t : Table) :
    Resolve (Dictionary String (List Row)) := do
  pure (known.insert t.tableName.display (← rows t.rows))

/-- What is known under a qualified name after adding tables one after another are the rows of the
last table of that name. -/
private theorem get?_of_foldlM_addRows {known : Dictionary String (List Row)}
    {key : String} (h : tables.foldlM addRows [] = .ok known) (hlast : lastOf? tables key = some t) :
    ∃ values, rows t.rows = .ok values ∧ known.get? key = some values := by
  induction tables using List.reverseRecOn generalizing known with
  | nil => cases hlast
  | append_singleton tables u ih =>
      rw [List.foldlM_append, bind_eq_ok] at h
      obtain ⟨before, hbefore, hadd⟩ := h
      rw [List.foldlM_cons, bind_eq_ok] at hadd
      obtain ⟨next, hnext, hdone⟩ := hadd
      obtain ⟨values, hvalues, hinsert⟩ := bind_eq_ok.mp hnext
      cases hinsert
      cases hdone
      rw [lastOf?_concat] at hlast
      rw [Dictionary.get?_insert]
      by_cases hkey : u.tableName.display = key
      · rw [if_pos hkey] at hlast ⊢
        cases hlast
        exact ⟨values, hvalues, rfl⟩
      · rw [if_neg hkey] at hlast ⊢
        exact ih hbefore hlast

/-- The rows of a table are those of the last table of its qualified name. -/
theorem rows_of_rowSource (h : rowSource tables = .ok source)
    (hlast : lastOf? tables table.display = some t) :
    ∃ values, rows t.rows = .ok values ∧ source.rows table = .ok values := by
  obtain ⟨known, hknown, hsource⟩ := bind_eq_ok.mp h
  cases hsource
  obtain ⟨values, hvalues, hget⟩ := get?_of_foldlM_addRows hknown hlast
  refine ⟨values, hvalues, ?_⟩
  simp only [RowSource.ofTables, hget]

/-! ## One table for a name -/

/-- A table that is meant by a name everywhere: by a scan, by what the catalog says, and by the
rows that are read. -/
structure IsResolvedTo (tables : List Table) (table : TableName) (t : Table) : Prop where
  mem : t ∈ tables
  tableName : t.tableName = table
  scan : build tables (.scan table.schema table.name) = addLogical (.scan table t.rowType) []
  statistics : (catalog tables).statistics? table = some t.statistics
  rowType : (catalog tables).rowType? table = some t.rowType
  isFederated : (catalog tables).isFederated table = t.federated
  rows : ∀ source, rowSource tables = .ok source →
    ∃ values, rows t.rows = .ok values ∧ source.rows table = .ok values

theorem of_findTable {schema name : String} (h : findTable tables schema name = .ok t) :
    t ∈ tables ∧ t.tableName = ⟨schema, name⟩ := by
  unfold findTable at h
  cases hfind : tables.find? fun t => t.schema == schema && t.name == name with
  | none =>
      rw [hfind] at h
      cases h
  | some found =>
      rw [hfind] at h
      cases h
      have hname := List.find?_some hfind
      simp only [Bool.and_eq_true, beq_iff_eq] at hname
      refine ⟨List.mem_of_find?_eq_some hfind, ?_⟩
      rw [Table.tableName, hname.1, hname.2]

/-- A table that no other table shares its qualified name with is meant by its name everywhere. -/
theorem isResolvedTo_of_findTable {schema name : String}
    (hfind : findTable tables schema name = .ok t)
    (hunique : ∀ u ∈ tables, u.tableName.display = t.tableName.display → u = t) :
    IsResolvedTo tables ⟨schema, name⟩ t := by
  obtain ⟨hmem, hname⟩ := of_findTable hfind
  have hlast : lastOf? tables (TableName.display ⟨schema, name⟩) = some t := by
    rw [← hname]
    obtain ⟨u, hu⟩ := exists_lastOf? hmem
    obtain ⟨humem, hukey⟩ := of_lastOf?_eq_some hu
    rw [hu, hunique u humem hukey]
  refine ⟨hmem, hname, ?_, ?_, ?_, ?_, fun source hsource => rows_of_rowSource hsource hlast⟩
  · rw [build, hfind]
    rfl
  · rw [statistics?_catalog, hlast, Option.map_some]
  · rw [rowType?_catalog, hlast, Option.map_some]
  · rw [Bool.eq_iff_iff, isFederated_catalog]
    constructor
    · rintro ⟨u, hu, hfederated, hkey⟩
      rw [← hname] at hkey
      rwa [← hunique u hu hkey]
    · intro hfederated
      exact ⟨t, hmem, hfederated, by rw [hname]⟩

/-! ## Names with a point -/

/-- A table of one row, that holds one number. -/
def oneNumber (schema name : String) (n : Int) : Table :=
  { schema, name, columns := [⟨"x", .int64, true⟩], rowCount := none, federated := false,
    rows := [[.int n]] }

/-- Qualified names of which each is that of one table, although one schema has a point. -/
theorem isResolvedTo_of_findTable_pointInSchema :
    findTable [oneNumber "a.b" "c" 1, oneNumber "a" "c" 2] "a.b" "c" =
        .ok (oneNumber "a.b" "c" 1) ∧
      IsResolvedTo [oneNumber "a.b" "c" 1, oneNumber "a" "c" 2] ⟨"a.b", "c"⟩
        (oneNumber "a.b" "c" 1) := by
  have hfind : findTable [oneNumber "a.b" "c" 1, oneNumber "a" "c" 2] "a.b" "c" =
      .ok (oneNumber "a.b" "c" 1) := rfl
  refine ⟨hfind, isResolvedTo_of_findTable hfind fun u hu hkey => ?_⟩
  rcases List.mem_pair.mp hu with rfl | rfl
  · rfl
  · exact absurd hkey (by decide)

/-- A scan of the table `c` of the schema `a.b` reads the rows of the table `b.c` of the schema `a`,
which comes later and has the same qualified name. -/
theorem not_exists_isResolvedTo_sharedName :
    findTable [oneNumber "a.b" "c" 1, oneNumber "a" "b.c" 2] "a.b" "c" =
        .ok (oneNumber "a.b" "c" 1) ∧
      ¬ ∃ t, IsResolvedTo [oneNumber "a.b" "c" 1, oneNumber "a" "b.c" 2] ⟨"a.b", "c"⟩ t := by
  refine ⟨rfl, ?_⟩
  rintro ⟨t, ht⟩
  have hlast : lastOf? [oneNumber "a.b" "c" 1, oneNumber "a" "b.c" 2]
      (TableName.display ⟨"a.b", "c"⟩) = some (oneNumber "a" "b.c" 2) := rfl
  obtain ⟨source, hsource⟩ : ∃ source,
      rowSource [oneNumber "a.b" "c" 1, oneNumber "a" "b.c" 2] = .ok source := ⟨_, rfl⟩
  obtain ⟨given, hgiven, hrows⟩ := ht.rows source hsource
  obtain ⟨read, hread, hrows'⟩ := rows_of_rowSource hsource hlast
  have heq : given = read := Except.ok.inj (hrows.symm.trans hrows')
  have hname : t.tableName = ⟨"a.b", "c"⟩ := ht.tableName
  rcases List.mem_pair.mp ht.mem with rfl | rfl
  · have hone : given = [[.int 1]] := (Except.ok.inj hgiven).symm
    have htwo : read = [[.int 2]] := (Except.ok.inj hread).symm
    rw [hone, htwo] at heq
    exact absurd heq (by decide)
  · exact absurd hname (by decide)

end Request

end QueryPlanner

/-
# Catalogs

What the planner is told about base tables: their row types, their statistics and
whether a foreign source owns them. Tables are known by their qualified names.
-/
import QueryPlanner.Statistics

namespace QueryPlanner

/-- What is known about tables, by qualified name. -/
structure Catalog (ν : Type) where
  statistics : Dictionary String (Statistics ν) := []
  rowTypes : Dictionary String RowType := []
  federated : List String := []
  deriving Inhabited

namespace Catalog

variable {ν : Type}

/-- The statistics of a table. -/
def statistics? (catalog : Catalog ν) (table : TableName) : Option (Statistics ν) :=
  catalog.statistics.get? table.display

/-- The row type of a table. -/
def rowType? (catalog : Catalog ν) (table : TableName) : Option RowType :=
  catalog.rowTypes.get? table.display

/-- Whether a foreign source owns a table. -/
def isFederated (catalog : Catalog ν) (table : TableName) : Bool :=
  catalog.federated.contains table.display

/-- Adds a table of the engine's own, or replaces what was known about it. -/
def addTable (catalog : Catalog ν) (table : TableName) (t : RowType) (s : Statistics ν) :
    Catalog ν :=
  { catalog with
    statistics := catalog.statistics.insert table.display s
    rowTypes := catalog.rowTypes.insert table.display t }

/-- Adds a table that a foreign source owns. -/
def addFederated (catalog : Catalog ν) (table : TableName) (t : RowType) (s : Statistics ν) :
    Catalog ν :=
  let catalog := catalog.addTable table t s
  { catalog with federated := table.display :: catalog.federated }

end Catalog

end QueryPlanner

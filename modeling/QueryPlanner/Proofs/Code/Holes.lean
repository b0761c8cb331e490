/-
# Programs without holes

A program can run once no hole of it is left, at any depth, also in the programs that its pipelines
materialize. A block that has a hole for its consumer and no other one stays so when it is extended.

* `Executable.IsFilled` : no hole is left at any depth;
* `CodeBlock.IsFillable` : no hole is left once that of the block is filled.
-/
import QueryPlanner.Proofs.Code.Splicing

namespace QueryPlanner

variable {body : List Statement}

mutual

/-- No hole is left in a pipeline, at any depth. -/
def Pipeline.IsFilled : Pipeline → Prop
  | .values _ => True
  | .scan _ => True
  | .fetch _ => True
  | .filter input _ => input.IsFilled
  | .project input _ => input.IsFilled
  | .join left right _ _ _ => left.IsFilled ∧ right.IsFilled
  | .sort input _ => input.IsFilled
  | .limit input _ _ => input.IsFilled
  | .materialize program => AreFilled program

/-- No hole is left in a statement, at any depth. -/
def Statement.IsFilled : Statement → Prop
  | .assign _ _ => True
  | .openCursor _ p => p.IsFilled
  | .whileDo _ body => AreFilled body
  | .ifThen _ body => AreFilled body
  | .hole => False
  | .emit _ => True

/-- No hole is left in any of several statements. -/
def AreFilled : List Statement → Prop
  | [] => True
  | s :: rest => s.IsFilled ∧ AreFilled rest

end

/-- No hole is left in an executable, at any depth. -/
def Executable.IsFilled : Executable → Prop
  | pipeline p => p.IsFilled
  | program statements => AreFilled statements

namespace CodeBlock

variable {b : CodeBlock}

/-- No hole is left in a block once its hole is filled with statements that have none. -/
def IsFillable (b : CodeBlock) : Prop := ∀ body, AreFilled body → AreFilled (b.splice body)

theorem IsFillable.close (h : b.IsFillable) : AreFilled b.close := by
  refine h _ ?_
  unfold AreFilled AreFilled Statement.IsFilled
  exact ⟨trivial, trivial⟩

/-- A block stays so when it is extended by statements that are. -/
theorem IsFillable.extend (h : b.IsFillable) (row : CodeExpr)
    (fill : List Statement → List Statement)
    (hfill : ∀ inner, spliceInto body (some inner) = (fill inner, none))
    (hfilled : ∀ inner, AreFilled inner → AreFilled (fill inner)) : (b.extend body row).IsFillable := by
  intro inner hinner
  rw [b.splice_extend row (hfill inner)]
  exact h _ (hfilled inner hinner)

section Extensions

variable (h : b.IsFillable) (current : Var) (code row : CodeExpr)

include h

/-- A filter leaves its hole in a branch. -/
theorem IsFillable.filter (condition : CodeExpr) :
    (b.extend [.assign current code, .ifThen condition [.hole]] row).IsFillable := by
  refine h.extend row (fun inner => [.assign current code, .ifThen condition inner])
    (fun inner => by simp [spliceInto, Statement.splice]) fun inner hinner => ?_
  exact ⟨trivial, hinner, trivial⟩

/-- A projection leaves its hole behind an assignment. -/
theorem IsFillable.project : (b.extend [.assign current code, .hole] row).IsFillable := by
  refine h.extend row (fun inner => .assign current code :: inner)
    (fun inner => by simp [spliceInto, Statement.splice]) fun inner hinner => ?_
  exact ⟨trivial, hinner⟩

/-- A join leaves its hole in a branch of a loop over a pipeline. -/
theorem IsFillable.join (cursor inner joined : Var) {right : Pipeline} (hright : right.IsFilled)
    (next both condition : CodeExpr) :
    (b.extend [.assign current code, .openCursor cursor right,
      .whileDo (.hasNext cursor)
        [.assign inner next, .assign joined both, .ifThen condition [.hole]]] row).IsFillable := by
  refine h.extend row (fun body => [.assign current code, .openCursor cursor right,
      .whileDo (.hasNext cursor) [.assign inner next, .assign joined both, .ifThen condition body]])
    (fun body => by simp [spliceInto, Statement.splice]) fun body hbody => ?_
  exact ⟨trivial, hright, ⟨trivial, trivial, hbody, trivial⟩, trivial⟩

end Extensions

/-- A loop over a pipeline has its hole in its body. -/
theorem isFillable_loop (cursor current : Var) {p : Pipeline} (hp : p.IsFilled)
    (next row : CodeExpr) :
    IsFillable ⟨[.openCursor cursor p, .whileDo (.hasNext cursor) [.assign current next, .hole]],
      row⟩ := by
  intro body hbody
  have hsplice : splice ⟨[.openCursor cursor p,
      .whileDo (.hasNext cursor) [.assign current next, .hole]], row⟩ body =
        [.openCursor cursor p, .whileDo (.hasNext cursor) (.assign current next :: body)] := by
    simp [splice, spliceInto, Statement.splice]
  rw [hsplice]
  exact ⟨hp, ⟨trivial, hbody⟩, trivial⟩

end CodeBlock

end QueryPlanner

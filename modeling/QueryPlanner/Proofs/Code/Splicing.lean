/-
# Splicing

The first hole of a block, in whatever loops and branches it is, has surroundings: everything else in
the block. Splicing hands a body from statement to statement: it is put in the place of this one hole,
and from then on nothing is left that could fill another one, so the surroundings are kept; holes of
the body stay to be filled. So a block with one hole can be extended step by step, or once by all of it.

* `spliceInto_of_holes_eq_zero`, `spliceInto_none` : what stays as it is;
* `Surroundings` : the statements around a hole, and `Surroundings.plug` others in its place;
* `exists_surroundings`, `Surroundings.spliceInto_plug` : those of the first hole are kept;
* `CodeBlock.splice_extend` : what fills the hole of an extended block;
* `CodeBlock.splice_splices` : what splicing does to holes and to all else, and how it composes.
-/
import Mathlib.Tactic.Common
import QueryPlanner.Code

namespace QueryPlanner

variable {body inner filled : List Statement} {left : Option (List Statement)}

/-! ## What is left of a body -/

mutual

/-- A statement without a hole stays as it is, and so does what is left of the body. -/
theorem Statement.splice_of_holes_eq_zero : ∀ s : Statement, s.holes = 0 → s.splice left = ([s], left)
  | .hole, h => absurd h Nat.one_ne_zero
  | .whileDo condition inner, h => by rw [Statement.splice, spliceInto_of_holes_eq_zero inner h]
  | .ifThen condition inner, h => by rw [Statement.splice, spliceInto_of_holes_eq_zero inner h]
  | .assign _ _, _ => by simp [Statement.splice]
  | .openCursor _ _, _ => by simp [Statement.splice]
  | .emit _, _ => by simp [Statement.splice]

/-- So do statements without holes. -/
theorem spliceInto_of_holes_eq_zero : ∀ statements : List Statement, holesOf statements = 0 →
    spliceInto statements left = (statements, left)
  | [], _ => by rw [spliceInto]
  | s :: rest, h => by
      obtain ⟨hs, hrest⟩ := Nat.add_eq_zero_iff.mp h
      rw [spliceInto, s.splice_of_holes_eq_zero hs]
      dsimp only
      rw [spliceInto_of_holes_eq_zero rest hrest]
      rfl

end

mutual

/-- A statement stays as it is when no body is left. -/
theorem Statement.splice_none : ∀ s : Statement, s.splice none = ([s], none)
  | .hole => by rw [Statement.splice]
  | .whileDo condition inner => by rw [Statement.splice, spliceInto_none inner]
  | .ifThen condition inner => by rw [Statement.splice, spliceInto_none inner]
  | .assign _ _ => by simp [Statement.splice]
  | .openCursor _ _ => by simp [Statement.splice]
  | .emit _ => by simp [Statement.splice]

/-- So do statements, also those with holes. -/
theorem spliceInto_none : ∀ statements : List Statement,
    spliceInto statements none = (statements, none)
  | [] => by rw [spliceInto]
  | s :: rest => by
      rw [spliceInto, s.splice_none]
      dsimp only
      rw [spliceInto_none rest]
      rfl

end

theorem spliceInto_hole (body : List Statement) : spliceInto [.hole] (some body) = (body, none) := by
  simp [spliceInto, Statement.splice]

/-- Of two runs of statements the second one gets what the first one left. -/
theorem spliceInto_append (before after : List Statement) (left : Option (List Statement)) :
    spliceInto (before ++ after) left =
      ((spliceInto before left).1 ++ (spliceInto after (spliceInto before left).2).1,
        (spliceInto after (spliceInto before left).2).2) := by
  induction before generalizing left with
  | nil => simp [spliceInto]
  | cons s rest ih =>
      rw [List.cons_append, spliceInto, spliceInto]
      dsimp only
      rw [ih, List.append_assoc]

/-! ## Surroundings -/

/-- What stands around a hole. -/
inductive Surroundings where
  /-- Nothing but the hole. -/
  | hole
  /-- Statements before it and after it. -/
  | among (before : List Statement) (inner : Surroundings) (after : List Statement)
  /-- A loop that it is in. -/
  | inLoop (condition : CodeExpr) (inner : Surroundings)
  /-- A branch that it is in. -/
  | inBranch (condition : CodeExpr) (inner : Surroundings)

namespace Surroundings

/-- The statements with others in the place of the hole. -/
def plug (body : List Statement) : Surroundings → List Statement
  | hole => body
  | among before inner after => before ++ inner.plug body ++ after
  | inLoop condition inner => [.whileDo condition (inner.plug body)]
  | inBranch condition inner => [.ifThen condition (inner.plug body)]

/-- The number of the holes around. -/
def holes : Surroundings → Nat
  | hole => 0
  | among before inner after => holesOf before + inner.holes + holesOf after
  | inLoop _ inner => inner.holes
  | inBranch _ inner => inner.holes

/-- The number of the holes that are met before. -/
def holesBefore : Surroundings → Nat
  | hole => 0
  | among before inner _ => holesOf before + inner.holesBefore
  | inLoop _ inner => inner.holesBefore
  | inBranch _ inner => inner.holesBefore

/-- The holes around, and those of what is put in. -/
theorem holesOf_plug (body : List Statement) (around : Surroundings) :
    holesOf (around.plug body) = around.holes + holesOf body := by
  induction around with
  | hole => exact (Nat.zero_add _).symm
  | among before inner after ih =>
      rw [plug, holesOf_append, holesOf_append, ih, holes]
      omega
  | inLoop condition inner ih => exact ih
  | inBranch condition inner ih => exact ih

/-- Where no hole is met before, the first hole of what was put in is filled, and nothing around it
changes, as no body is left then. -/
theorem spliceInto_plug (hbody : spliceInto body (some inner) = (filled, none))
    {around : Surroundings} (h : around.holesBefore = 0) :
    spliceInto (around.plug body) (some inner) = (around.plug filled, none) := by
  induction around with
  | hole => exact hbody
  | among before around after ih =>
      obtain ⟨hbefore, haround⟩ := Nat.add_eq_zero_iff.mp h
      rw [plug, plug, spliceInto_append, spliceInto_append, spliceInto_of_holes_eq_zero before hbefore,
        ih haround, spliceInto_none after]
  | inLoop condition around ih =>
      rw [plug, plug, spliceInto, Statement.splice, ih h]
      rfl
  | inBranch condition around ih =>
      rw [plug, plug, spliceInto, Statement.splice, ih h]
      rfl

end Surroundings

mutual

/-- The first hole of a statement has surroundings. -/
theorem Statement.exists_surroundings : ∀ s : Statement, 0 < s.holes →
    ∃ around : Surroundings, around.holesBefore = 0 ∧ around.plug [.hole] = [s]
  | .hole, _ => ⟨.hole, rfl, rfl⟩
  | .whileDo condition inner, h => by
      obtain ⟨around, hfirst, hplug⟩ := exists_surroundings inner h
      exact ⟨.inLoop condition around, hfirst, by rw [Surroundings.plug, hplug]⟩
  | .ifThen condition inner, h => by
      obtain ⟨around, hfirst, hplug⟩ := exists_surroundings inner h
      exact ⟨.inBranch condition around, hfirst, by rw [Surroundings.plug, hplug]⟩
  | .assign _ _, h => absurd h (Nat.lt_irrefl 0)
  | .openCursor _ _, h => absurd h (Nat.lt_irrefl 0)
  | .emit _, h => absurd h (Nat.lt_irrefl 0)

/-- The first hole of some statements has surroundings. -/
theorem exists_surroundings : ∀ statements : List Statement, 0 < holesOf statements →
    ∃ around : Surroundings, around.holesBefore = 0 ∧ around.plug [.hole] = statements
  | [], h => absurd h (Nat.lt_irrefl 0)
  | s :: rest, h => by
      by_cases hs : 0 < s.holes
      · obtain ⟨around, hfirst, hplug⟩ := s.exists_surroundings hs
        refine ⟨.among [] around rest, ?_, ?_⟩
        · rw [Surroundings.holesBefore, hfirst]
          rfl
        · rw [Surroundings.plug, hplug]
          rfl
      · have hnone : s.holes = 0 := Nat.eq_zero_of_not_pos hs
        rw [holesOf, hnone, Nat.zero_add] at h
        obtain ⟨around, hfirst, hplug⟩ := exists_surroundings rest h
        refine ⟨.among [s] around [], ?_, ?_⟩
        · rw [Surroundings.holesBefore, hfirst, holesOf, hnone]
          rfl
        · rw [Surroundings.plug, hplug, List.append_nil]
          rfl

end

/-! ## Splicing -/

namespace CodeBlock

variable {b : CodeBlock} {s t : List Statement}

/-- A block is as it was if it has no hole. -/
theorem splice_of_holes_eq_zero (h : holesOf b.statements = 0) (body : List Statement) :
    b.splice body = b.statements := by
  rw [splice, spliceInto_of_holes_eq_zero b.statements h]

/-- The body stands in the place of the first hole. -/
theorem splice_of_plug {around : Surroundings} (hfirst : around.holesBefore = 0)
    (hplug : around.plug [.hole] = b.statements) (body : List Statement) :
    b.splice body = around.plug body := by
  rw [splice, ← hplug, Surroundings.spliceInto_plug (spliceInto_hole body) hfirst]

/-- One hole is filled, and those of the body come to the others. -/
theorem holesOf_splice (h : 0 < holesOf b.statements) (body : List Statement) :
    holesOf (b.splice body) = holesOf b.statements - 1 + holesOf body := by
  obtain ⟨around, hfirst, hplug⟩ := exists_surroundings b.statements h
  rw [splice_of_plug hfirst hplug, ← hplug, Surroundings.holesOf_plug, Surroundings.holesOf_plug]
  simp [holesOf, Statement.holes]

/-- What fills the hole of an extended block fills that of its extension. -/
theorem splice_extend (b : CodeBlock) (row : CodeExpr)
    (hbody : spliceInto body (some inner) = (filled, none)) :
    (b.extend body row).splice inner = b.splice filled := by
  unfold extend
  by_cases h : holesOf b.statements = 0
  · rw [splice_of_holes_eq_zero h, splice_of_holes_eq_zero h]
    exact splice_of_holes_eq_zero h inner
  · obtain ⟨around, hfirst, hplug⟩ := exists_surroundings b.statements (Nat.pos_of_ne_zero h)
    rw [splice_of_plug hfirst hplug, splice_of_plug hfirst hplug, splice,
      Surroundings.spliceInto_plug hbody hfirst]

/-- Where the block has one hole, what comes after the first body is filled into the hole of that
body, if it has any. -/
theorem splice_extend_of_holes_eq_one (h : holesOf b.statements = 1) (s t : List Statement)
    (row : CodeExpr) : (b.extend s row).splice t = b.splice (splice ⟨s, row⟩ t) := by
  by_cases hs : holesOf s = 0
  · -- nothing is left to be filled on either side
    have hnone : holesOf (b.extend s row).statements = 0 := by
      rw [extend, holesOf_splice (Nat.lt_of_lt_of_eq Nat.one_pos h.symm), h, hs]
    rw [splice_of_holes_eq_zero hnone, splice_of_holes_eq_zero (b := ⟨s, row⟩) hs]
    rfl
  · obtain ⟨around, hfirst, hplug⟩ := exists_surroundings s (Nat.pos_of_ne_zero hs)
    refine b.splice_extend row ?_
    rw [splice_of_plug (b := ⟨s, row⟩) hfirst hplug, ← hplug]
    exact Surroundings.spliceInto_plug (spliceInto_hole t) hfirst

/-- Splicing fills the first hole of a block, if it has any, with a body as it is: all around the hole
stays, and the holes of the body are to be filled instead. Filling the one hole of a block and then
the first hole that is left is filling it with what was filled, and so for extensions. -/
theorem splice_splices (b : CodeBlock) (s t : List Statement) (row row' : CodeExpr) :
    (0 < holesOf b.statements →
      holesOf (b.splice s) = holesOf b.statements - 1 + holesOf s ∧
      ∃ around : Surroundings, around.holesBefore = 0 ∧ around.plug [.hole] = b.statements ∧
        ∀ body, b.splice body = around.plug body) ∧
    (holesOf b.statements = 0 → b.splice s = b.statements) ∧
    (holesOf b.statements = 1 →
      (b.extend s row).splice t = b.splice (splice ⟨s, row⟩ t) ∧
      (b.extend s row).extend t row' = b.extend (splice ⟨s, row⟩ t) row') := by
  refine ⟨fun h => ⟨holesOf_splice h s, ?_⟩, fun h => splice_of_holes_eq_zero h s, fun h => ?_⟩
  · obtain ⟨around, hfirst, hplug⟩ := exists_surroundings b.statements h
    exact ⟨around, hfirst, hplug, splice_of_plug hfirst hplug⟩
  · have hsplice := splice_extend_of_holes_eq_one h s t row
    exact ⟨hsplice, congrArg (CodeBlock.mk · row') hsplice⟩

/-- A block with its hole in a loop, in a branch of another loop. -/
def loopInBranch : CodeBlock where
  statements := [.whileDo (.hasNext ⟨0⟩) [.assign ⟨1⟩ (.next ⟨0⟩),
    .ifThen (.literal (.bool true)) [.whileDo (.hasNext ⟨2⟩) [.hole], .emit (.var ⟨1⟩)]]]
  row := .var ⟨1⟩

/-- A body with two holes fills the one of the block and leaves its own, the first of which is filled
next. -/
theorem splice_splices_loopInBranch (row : CodeExpr) :
    (loopInBranch.extend [.hole, .hole] row).splice [.emit row] =
        [.whileDo (.hasNext ⟨0⟩) [.assign ⟨1⟩ (.next ⟨0⟩),
          .ifThen (.literal (.bool true))
            [.whileDo (.hasNext ⟨2⟩) [.emit row, .hole], .emit (.var ⟨1⟩)]]] ∧
      holesOf (loopInBranch.splice [.hole, .hole]) = 2 := by
  obtain ⟨hone, -, hextend⟩ := splice_splices loopInBranch [.hole, .hole] [.emit row] row row
  exact ⟨(hextend rfl).1.trans rfl, (hone Nat.one_pos).1⟩

end CodeBlock

end QueryPlanner

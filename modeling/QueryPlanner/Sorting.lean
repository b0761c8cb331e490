/-
# Sorting

A stable sort that looks at elements through a comparison only: `lt a b` says that `a` is below `b`.
A few elements are sorted by insertion. Among more of them, long runs that are in order already are
looked for, and runs are merged in the order of a tree over their positions. What is in no long run is
partitioned around pivots, or sorted in blocks.

If the comparison is that of an order, sorting gives the elements in order. If it is not, sorting gives
them in some order, or gives up: where two halves are merged from both ends at once, and the ends do not
meet.
-/

namespace QueryPlanner

namespace Sorting

variable {α : Type} (lt : α → α → Bool)

/-! ## Insertion -/

/-- Inserts an element behind all that are not above it, into a list in descending order. -/
def insert (x : α) : List α → List α
  | [] => [x]
  | y :: rest => if lt x y then y :: insert x rest else x :: y :: rest

/-- Inserts elements one by one into a list in order. -/
def insertAll (sorted elements : List α) : List α :=
  (elements.foldl (fun descending x => insert lt x descending) sorted.reverse).reverse

/-! ## Merging -/

/-- Merges some number of elements from the front of two lists, unless one of the lists ends before. An
element of the left list comes first, if that of the right list is not below it. The rests of both lists
come with the merged elements. -/
def mergeFront : Nat → List α → List α → List α × List α × List α
  | n + 1, a :: left, b :: right =>
      if lt b a then
        let (merged, rests) := mergeFront n (a :: left) right
        (b :: merged, rests)
      else
        let (merged, rests) := mergeFront n left (b :: right)
        (a :: merged, rests)
  | _, left, right => ([], left, right)

/-- Merges two lists from the front, or from the back if the right one is shorter. -/
def merge (left right : List α) : List α :=
  let length := left.length + right.length
  if left.length ≤ right.length then
    let (merged, left, right) := mergeFront lt length left right
    merged ++ left ++ right
  else
    let (merged, right, left) := mergeFront (fun a b => lt b a) length right.reverse left.reverse
    (merged ++ right ++ left).reverse

/-- Takes the element in the middle, if there is one, from what is left of two halves. -/
def takeMiddle (isOdd isLeft : Bool) (left right : List α) : List α × List α × List α :=
  match isOdd, isLeft with
  | false, _ => ([], left, right)
  | true, true => (left.take 1, left.drop 1, right)
  | true, false => (right.take 1, left, right.drop 1)

/-- Merges two halves from both ends at once, each end as many elements as there are pairs. If there is
one more element, it is in the middle. Gives up if the ends have not met in both halves. -/
def mergeHalves (left right : List α) : Option (List α) :=
  let length := left.length + right.length
  let (front, left', right') := mergeFront lt (length / 2) left right
  let (back, right'', left'') :=
    mergeFront (fun a b => lt b a) (length / 2) right.reverse left.reverse
  let (middle, left', right') :=
    takeMiddle (length % 2 = 1) (left.length < left'.length + left''.length) left' right'
  if left'.length + left''.length = left.length ∧ right'.length + right''.length = right.length then
    some (front ++ middle ++ back.reverse)
  else none

/-! ## Blocks -/

/-- Two elements, the lower one first. -/
def orderPair (a b : α) : List α := if lt b a then [b, a] else [a, b]

/-- Merges two pairs. The lower first element is the least of all, and the higher second one is the
greatest. Of the other two, the one that was in front is known. -/
def mergePairs (a b c d : α) : List α :=
  match lt c a, lt d b with
  | false, false => a :: (orderPair lt b c ++ [d])
  | false, true => a :: (orderPair lt c d ++ [b])
  | true, false => c :: (orderPair lt a b ++ [d])
  | true, true => c :: (orderPair lt a d ++ [b])

/-- Sorts four elements with five comparisons. -/
def sortFour (v₀ v₁ v₂ v₃ : α) : List α :=
  let (a, b) := if lt v₁ v₀ then (v₁, v₀) else (v₀, v₁)
  let (c, d) := if lt v₃ v₂ then (v₃, v₂) else (v₂, v₃)
  mergePairs lt a b c d

/-- Sorts half of a block by insertion, the first four elements at once where there are enough. -/
def sortHalf (enough : Bool) (half : List α) : List α :=
  match enough, half with
  | true, v₀ :: v₁ :: v₂ :: v₃ :: rest => insertAll lt (sortFour lt v₀ v₁ v₂ v₃) rest
  | _, _ => insertAll lt [] half

/-- The length up to which elements are sorted as one block. -/
def blockLimit : Nat := 32

/-- Sorts a block: each half of it, and then both together. -/
def sortBlock (block : List α) : Option (List α) :=
  if block.length < 2 then some block
  else
    let enough := decide (8 ≤ block.length)
    let half := block.length / 2
    mergeHalves lt (sortHalf lt enough (block.take half)) (sortHalf lt enough (block.drop half))

/-! ## Runs -/

/-- The elements at the front each of which stands in a relation to the one before it. -/
def chain (r : α → α → Bool) (before : α) : List α → List α × List α
  | [] => ([], [])
  | x :: rest =>
      if r x before then
        let (links, rest) := chain r x rest
        (x :: links, rest)
      else ([], x :: rest)

/-- The elements at the front that are in order, or strictly in the opposite order, and then turned
round. -/
def frontRun : List α → List α × List α
  | a :: b :: rest =>
      if lt b a then
        let (links, rest) := chain lt b rest
        ((a :: b :: links).reverse, rest)
      else
        let (links, rest) := chain (fun x before => !lt x before) b rest
        (a :: b :: links, rest)
  | elements => (elements, [])

/-- Neighbouring elements, which may be sorted later. -/
structure Run (α : Type) where
  elements : List α
  isSorted : Bool

/-- The first run: elements that are in order if there are enough of them, else a block that is sorted
at once, or elements that are not sorted yet. -/
def nextRun (eager : Bool) (enough : Nat) (elements : List α) : Option (Run α × List α) :=
  let (run, rest) := frontRun lt elements
  if enough ≤ run.length then some (⟨run, true⟩, rest)
  else if eager then do
    let block ← sortBlock lt (elements.take blockLimit)
    pure (⟨block, true⟩, elements.drop blockLimit)
  else some (⟨elements.take enough, false⟩, elements.drop enough)

/-- All elements in runs. There are no more runs than elements. -/
def runs (eager : Bool) (enough : Nat) : Nat → List α → Option (List (Run α))
  | n + 1, x :: elements => do
      let (run, rest) ← nextRun lt eager enough (x :: elements)
      let others ← runs eager enough n rest
      pure (run :: others)
  | _, _ => some []

/-- A number near the square root. -/
def nearRoot (n : Nat) : Nat :=
  let shift := (1 + (n ||| 1).log2) / 2
  (1 <<< shift + n >>> shift) / 2

/-- How many elements in order are enough for a run. -/
def enoughFor (length : Nat) : Nat :=
  if length ≤ 64 * 64 then min (length - length / 2) 64 else nearRoot length

/-! ## Merging runs -/

/-- The depth in the merge tree of the node that merges what is between two positions with what is
between the second one and a third. -/
def mergeDepth (length start middle stop : Nat) : Nat :=
  let scale := (0x4000000000000000 + length - 1) / length
  let difference := (scale * (start + middle)) ^^^ (scale * (middle + stop))
  if difference = 0 then 64 else 63 - difference.log2

/-- How many elements there is room for beside those that are sorted. -/
def roomFor (length : Nat) : Nat := max (max (length - length / 2) (min length 166666)) 48

section Runs

-- how a run is sorted that is not
variable (quick : List α → Option (List α))

/-- The elements of a run in order. -/
def Run.sort (run : Run α) : Option (List α) :=
  if run.isSorted then some run.elements else quick run.elements

/-- Merges two runs. As long as there is room, two runs that are not sorted are left so. -/
def Run.merge (room : Nat) (left right : Run α) : Option (Run α) :=
  if left.elements.length + right.elements.length ≤ room && !left.isSorted && !right.isSorted then
    some ⟨left.elements ++ right.elements, false⟩
  else do
    let left ← left.sort quick
    let right ← right.sort quick
    pure ⟨Sorting.merge lt left right, true⟩

/-- Runs that wait to be merged with what is behind them, the last one first, each with the depth of the
node that merges it. -/
abbrev Waiting (α : Type) : Type := List (Run α × Nat)

/-- Merges a run with those in front of it that are to be merged first. -/
def collapse (room depth : Nat) (run : Run α) : Waiting α → Option (Run α × Waiting α)
  | [] => some (run, [])
  | (left, leftDepth) :: waiting =>
      if depth ≤ leftDepth then do
        let merged ← left.merge lt quick room run
        collapse room depth merged waiting
      else some (run, (left, leftDepth) :: waiting)

/-- Merges runs, the last of which ends at a position, and those behind them into one. -/
def mergeRuns (length position : Nat) (run : Run α) (waiting : Waiting α) :
    List (Run α) → Option (Run α)
  | [] => do
      let (all, _) ← collapse lt quick (roomFor length) 0 run waiting
      pure all
  | next :: rest => do
      let stop := position + next.elements.length
      let depth := mergeDepth length (position - run.elements.length) position stop
      let (merged, waiting) ← collapse lt quick (roomFor length) depth run waiting
      mergeRuns length stop next ((merged, depth) :: waiting) rest

/-- Sorts elements by runs. -/
def sortRuns (eager : Bool) (elements : List α) : Option (List α) := do
  match ← runs lt eager (enoughFor elements.length) elements.length elements with
  | [] => pure []
  | run :: rest =>
      let all ← mergeRuns lt quick elements.length run.elements.length run [] rest
      all.sort quick

end Runs

/-! ## Partitions -/

/-- The middle one of three elements. -/
def middle (a b c : α) : α :=
  let below := lt a b
  if below == lt a c then
    if lt b c != below then c else b
  else a

/-- The middle one of three elements that are some steps of a length apart, each of which is found so
among those behind it as long as there are many. `first` stands for elements that are missing. -/
def pivot (first : α) (elements : List α) (start step : Nat) : α :=
  if step < 8 then
    middle lt (elements.getD start first) (elements.getD (start + 4 * step) first)
      (elements.getD (start + 7 * step) first)
  else
    middle lt (pivot first elements start (step / 8)) (pivot first elements (start + 4 * step) (step / 8))
      (pivot first elements (start + 7 * step) (step / 8))
termination_by step

/-- Sorts elements by partitioning them around pivots, as long as there are not too many partitions. No
element is below the pivot of a partition to the left, if there is one. -/
def partitionSort (limit : Nat) (least : Option α) (elements : List α) : Option (List α) :=
  match limit, elements with
  | _, [] => some []
  | 0, first :: others =>
      let elements := first :: others
      if elements.length ≤ blockLimit then sortBlock lt elements
      else sortRuns lt (sortBlock lt) true elements
  | limit + 1, first :: others =>
      let elements := first :: others
      if elements.length ≤ blockLimit then sortBlock lt elements
      else
        let p := pivot lt first elements 0 (elements.length / 8)
        let left := elements.filter fun x => lt x p
        if left.isEmpty || least.any fun a => !lt a p then do
          -- the pivot is one of the least elements, which are all the same
          let rest ← partitionSort limit none (elements.filter fun x => lt p x)
          pure ((elements.filter fun x => !lt p x) ++ rest)
        else do
          let right ← partitionSort limit (some p) (elements.filter fun x => !lt x p)
          let left ← partitionSort limit least left
          pure (left ++ right)

/-- Sorts elements by partitioning, at most twice as deep as they could be halved. -/
def quicksort (elements : List α) : Option (List α) :=
  partitionSort lt (2 * (elements.length ||| 1).log2) none elements

/-! ## Sorting -/

/-- The length up to which elements are sorted by insertion. -/
def insertionLimit : Nat := 20

/-- Sorts elements. Those that are the same stay in order. -/
def sort (elements : List α) : Option (List α) :=
  if elements.length ≤ insertionLimit then some (insertAll lt [] elements)
  else sortRuns lt (quicksort lt) (elements.length ≤ 2 * blockLimit) elements

end Sorting

end QueryPlanner

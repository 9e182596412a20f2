import Countermodels.Fault

/-! A stable sort with a fixed course. If the comparison is an order, the result is the one of every
stable sort. A comparison may also contradict itself, as one of numbers does that are not all
comparable; then the result depends on which elements are compared, and this module says which.

Short lists are sorted by insertion. A longer list is cut into runs, which are joined along a balanced
tree; runs that were not in order when cut stay unsorted until they meet a sorted one, and are then
partitioned around pivots. -/

namespace Countermodels.Sort

variable {α : Type} (less : α → α → Bool)

/-- Insert an element into a list that has its last element first. -/
def insert (x : α) : List α → List α
  | [] => [x]
  | y :: ys => if less x y then y :: insert x ys else x :: y :: ys

/-- Insert elements into a sorted list, one after the other. -/
def extend (sorted xs : List α) : List α :=
  (xs.foldl (fun ys x => insert less x ys) sorted.reverse).reverse

/-- Four elements in order, by five comparisons. -/
def four (a b c d : α) : List α :=
  let (a, b) := if less b a then (b, a) else (a, b)
  let (c, d) := if less d c then (d, c) else (c, d)
  let low := less c a
  let high := less d b
  let left := if low then a else if high then c else b
  let right := if high then d else if low then b else c
  let middle := if less right left then [right, left] else [left, right]
  (if low then c else a) :: middle ++ [if high then b else d]

/-- The first `k` elements of two sorted lists together, with what is left of both. -/
def takeFirst : Nat → List α → List α → List α × List α × List α
  | k + 1, l :: ls, r :: rs =>
    if less r l then
      let (taken, rest) := takeFirst k (l :: ls) rs
      (r :: taken, rest)
    else
      let (taken, rest) := takeFirst k ls (r :: rs)
      (l :: taken, rest)
  | _, ls, rs => ([], ls, rs)

/-- The last `k` elements of two sorted lists that are given from their ends, before those that were
taken already, and what is left of the left list. -/
def takeLast : Nat → List α → List α → List α → List α × List α
  | k + 1, l :: ls, r :: rs, taken =>
    if less r l then takeLast k ls (r :: rs) (l :: taken) else takeLast k (l :: ls) rs (r :: taken)
  | _, ls, _, taken => (taken, ls)

/-- Merge the two sorted halves of a list from both ends at once. What the two ends take must add up to
the list. -/
def mergeHalves (xs : List α) : Except Fault (List α) :=
  let half := xs.length / 2
  let (left, right) := xs.splitAt half
  let (first, ls, rs) := takeFirst less half left right
  let (last, ls') := takeLast less half left.reverse right.reverse []
  let lacking := ls.length + ls'.length
  if xs.length % 2 = 1 ∧ lacking = half + 1 then .ok (first ++ ls.take 1 ++ last)
  else if lacking = half then .ok (first ++ rs.take (xs.length % 2) ++ last)
  else .error .order

/-- Sort a half of a list of `size` elements: the first eight or four of it in a fixed way, and the
others by insertion. -/
def sortHalf (size : Nat) : List α → Except Fault (List α)
  | a :: b :: c :: d :: e :: f :: g :: h :: xs =>
    if 16 ≤ size then
      return extend less (← mergeHalves less (four less a b c d ++ four less e f g h)) xs
    else .ok (extend less (four less a b c d) (e :: f :: g :: h :: xs))
  | a :: b :: c :: d :: xs =>
    if 8 ≤ size then .ok (extend less (four less a b c d) xs)
    else .ok (extend less [] (a :: b :: c :: d :: xs))
  | xs => .ok (extend less [] xs)

/-- Lists up to this length are sorted by halves. -/
def smallLength : Nat := 32

/-- Sort a list by its halves. -/
def sortSmall (xs : List α) : Except Fault (List α) := do
  if xs.length < 2 then return xs
  let (left, right) := xs.splitAt (xs.length / 2)
  mergeHalves less ((← sortHalf less xs.length left) ++ (← sortHalf less xs.length right))

/-- Merge two sorted lists, starting at the end where the shorter one lies. -/
def merge (left right : List α) : List α :=
  if left.length ≤ right.length then left.merge right (fun l r => !less r l)
  else (right.reverse.merge left.reverse (fun r l => !less r l)).reverse

/-! Runs. -/

/-- Neighbouring elements of a list that belong together. -/
structure Run (α : Type) where
  elems : List α
  sorted : Bool

/-- Number of elements at the front of a list of which each follows the one before it. -/
def frontLength (follows : α → α → Bool) : List α → Nat
  | x :: y :: zs => if follows x y then frontLength follows (y :: zs) + 1 else 1
  | xs => xs.length

/-- The sorted front of a list, which may be turned round for it. -/
def sortedFront (xs : List α) : Nat × Bool :=
  match xs with
  | x :: y :: _ =>
    if less y x then (frontLength (fun x y => less y x) xs, true)
    else (frontLength (fun x y => !less y x) xs, false)
  | _ => (xs.length, false)

/-- Cut a run off a list. It is one that is sorted already, if that has at least `least` elements.
Otherwise a short one is sorted at once if `eager`, and one of that length left as it is if not. -/
def cut (least : Nat) (eager : Bool) (xs : List α) : Except Fault (Run α × List α) := do
  let (length, turned) := sortedFront less xs
  if least ≤ length then
    let front := xs.take length
    return (⟨if turned then front.reverse else front, true⟩, xs.drop length)
  if eager then return (⟨← sortSmall less (xs.take smallLength), true⟩, xs.drop smallLength)
  return (⟨xs.take least, false⟩, xs.drop least)

/-- The elements of a run in order. -/
def settle (sort : List α → Except Fault (List α)) (run : Run α) : Except Fault (List α) :=
  if run.sorted then .ok run.elems else sort run.elems

/-- Join two neighbouring runs. Two unsorted ones are only put together. -/
def join (sort : List α → Except Fault (List α)) (left right : Run α) : Except Fault (Run α) := do
  if left.sorted || right.sorted then
    return ⟨merge less (← settle sort left) (← settle sort right), true⟩
  return ⟨left.elems ++ right.elems, false⟩

/-- Depth in a balanced tree over `size` places of the node between two neighbouring runs that lie from
`start` to `middle` and from there to `stop`. -/
def depth (size start middle stop : Nat) : Nat :=
  let scale := (1 <<< 62 + size - 1) / size
  let differ := (scale * (start + middle)) ^^^ (scale * (middle + stop))
  if differ = 0 then 64 else 63 - differ.log2

/-- Join a run with earlier ones whose nodes lie no higher than `top`. -/
def collapse (sort : List α → Except Fault (List α)) (top : Nat) :
    List (Run α × Nat) → Run α → Except Fault (List (Run α × Nat) × Run α)
  | (left, depth) :: stack, run => do
    if top ≤ depth then collapse sort top stack (← join less sort left run)
    else return ((left, depth) :: stack, run)
  | [], run => .ok ([], run)

/-- Cut at most `fuel` further runs, the last one ending at `place`, and join them all. -/
def assemble (sort : List α → Except Fault (List α)) (eager : Bool) (size least : Nat) :
    Nat → Nat → List α → List (Run α × Nat) → Run α → Except Fault (Run α)
  | _, _, [], stack, run => return (← collapse less sort 0 stack run).2
  | 0, _, _, _, _ => .error .bound
  | fuel + 1, place, xs, stack, run => do
    let (next, rest) ← cut less least eager xs
    let place' := place + next.elems.length
    let top := depth size (place - run.elems.length) place place'
    let (stack, run) ← collapse less sort top stack run
    assemble sort eager size least fuel place' rest ((run, top) :: stack) next

/-- About the square root of a number. -/
def rootOf (n : Nat) : Nat :=
  let shift := (n.log2 + 1) / 2
  (1 <<< shift + n >>> shift) / 2

/-- The least length of a run that is taken as it lies. -/
def leastRun (size : Nat) : Nat := if size ≤ 4096 then min (size - size / 2) 64 else rootOf size

/-- Sort a list by its runs. -/
def sortRuns (sort : List α → Except Fault (List α)) (eager : Bool) (xs : List α) :
    Except Fault (List α) := do
  let size := xs.length
  if size < 2 then return xs
  let (first, rest) ← cut less (leastRun size) eager xs
  let run ← assemble less sort eager size (leastRun size) size first.elems.length rest [] first
  settle sort run

/-! Partitions. -/

/-- Of three places, the one whose element lies between the others. -/
def median (xs : Array α) (a b c : Nat) : Nat :=
  match xs[a]?, xs[b]?, xs[c]? with
  | some x, some y, some z =>
    if less x y = less x z then if less y z != less x y then c else b else a
  | _, _, _ => a

/-- A median of medians of regions of `n` places from `a`, `b` and `c` on. -/
def medianOf (xs : Array α) (n a b c : Nat) : Nat :=
  if 64 ≤ n * 8 then
    let k := n / 8
    let within := fun (i : Nat) => medianOf xs k i (i + 4 * k) (i + 7 * k)
    median less xs (within a) (within b) (within c)
  else median less xs a b c
termination_by n
decreasing_by all_goals omega

/-- The place of the pivot of a list. -/
def pivot (xs : Array α) : Nat :=
  let k := xs.size / 8
  if xs.size < 64 then median less xs 0 (4 * k) (7 * k) else medianOf less xs k 0 (4 * k) (7 * k)

/-- The elements that pass a test and the others; for the element at a place the outcome is given. -/
def partition (test : α → Bool) (place : Nat) (outcome : Bool) (xs : List α) : List α × List α :=
  let (left, right) := xs.zipIdx.partition fun (x, i) => if i = place then outcome else test x
  (left.map (·.1), right.map (·.1))

/-- Sort a list by at most `limit` partitions in a row. No element precedes `bound`; if the pivot does
not follow it, all elements that the pivot does not precede are in place. -/
def sortPivots : Nat → Option α → List α → Except Fault (List α)
  | limit, bound, xs =>
    if xs.length ≤ smallLength then sortSmall less xs
    else
      match limit with
      | 0 => sortRuns less .ok true xs
      | limit + 1 => do
        let table := xs.toArray
        let place := pivot less table
        let some p := table[place]? | throw .index
        let (left, right) := partition (less · p) place false xs
        if bound.any (fun b => !less b p) || left.isEmpty then
          let (equal, rest) := partition (fun x => !less p x) place true xs
          return equal ++ (← sortPivots limit none rest)
        let right ← sortPivots limit (some p) right
        return (← sortPivots limit bound left) ++ right

/-- Sort an unsorted run; twice the length of the number of elements in base two bounds the number of
partitions in a row. -/
def sortUnsorted (xs : List α) : Except Fault (List α) :=
  sortPivots less (2 * (xs.length ||| 1).log2) none xs

/-- Sort a list. The elements of which neither precedes the other keep their order. -/
def sort (xs : List α) : Except Fault (List α) :=
  if xs.length ≤ 20 then .ok (extend less [] xs)
  else sortRuns less (sortUnsorted less) (xs.length ≤ 2 * smallLength) xs

end Countermodels.Sort

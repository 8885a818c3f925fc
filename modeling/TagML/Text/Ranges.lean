/-!
Sorted tables of code point ranges, and membership by binary search.

A table is an array of closed ranges `(lo, hi)`, ascending and pairwise disjoint.  Membership
halves the searched part of the table at each step, so it is total by the size of that part.
-/
namespace TagML

namespace Ranges

/-- Whether `c` lies in one of the ranges `rs[lo]`, …, `rs[hi - 1]`. -/
def memBetween (rs : Array (Nat × Nat)) (c : Nat) (lo hi : Nat) : Bool :=
  if h : lo < hi then
    let mid := (lo + hi) / 2
    have hmid : mid < hi := by omega
    match rs[mid]? with
    | some (a, b) =>
      if c < a then memBetween rs c lo mid
      else if b < c then memBetween rs c (mid + 1) hi
      else true
    | none => false
  else false
termination_by hi - lo

/-- Whether `c` lies in one of the ranges of the sorted table `rs`. -/
def mem (rs : Array (Nat × Nat)) (c : Nat) : Bool :=
  memBetween rs c 0 rs.size

end Ranges

end TagML

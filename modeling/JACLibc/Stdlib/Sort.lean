import Mathlib.Data.List.Basic
import JACLibc.Lib.Compar

/-!
# `qsort` and `qsort_r` of `stdlib.h`

`__jacl_sort_again` works in place on `nmemb` elements of `size` bytes; the model keeps the array as the list of its
elements, each the block of `size` bytes that `__jacl_sort_swap` and `memcpy` move as a whole.  The two recursive
calls sort disjoint parts of the array, so the array after them is put together from the sorted parts.

The comparator may call back into anything but the array, so it is a function of the two elements.  For one that is
no preorder the recursion of the source need not end: the model takes a fuel and answers `none` when it runs out.
-/

namespace JACLibc

variable {α : Type*}

/-- `__jacl_sort_swap` on the elements `i` and `j`. -/
def sortSwap (arr : List α) (i j : Nat) : List α :=
  match arr[i]?, arr[j]? with
  | some x, some y => (arr.set i y).set j x
  | _, _ => arr

/-- `if (compar(arr + i * size, arr + j * size, arg) > 0) __jacl_sort_swap(..)` -/
def sortSwapIf (compar : α → α → Int) (i j : Nat) (arr : List α) : List α :=
  match arr[i]?, arr[j]? with
  | some x, some y => if compar x y > 0 then sortSwap arr i j else arr
  | _, _ => arr

/-- The three comparisons that put the median of the first, middle and last element in the middle. -/
def sortMedian (compar : α → α → Int) (arr : List α) : List α :=
  let high := arr.length - 1
  let mid := high / 2
  sortSwapIf compar 0 mid (sortSwapIf compar mid high (sortSwapIf compar 0 mid arr))

/-- The inner loop of the sort used when there is no memory for the pivot: `m` comparisons of neighbours from the
start. -/
def bubblePass (compar : α → α → Int) : Nat → List α → List α
  | m + 1, x :: y :: l =>
    if compar x y > 0 then y :: bubblePass compar m (x :: l) else x :: bubblePass compar m (y :: l)
  | _, l => l

/-- `for (i = 0; i < nmemb - 1; i++) for (j = 0; j < nmemb - i - 1; j++) ..` -/
def bubbleSort (compar : α → α → Int) (arr : List α) : List α :=
  (List.range (arr.length - 1)).foldl (fun l i => bubblePass compar (arr.length - i - 1) l) arr

/-- `while (i < nmemb && compar(arr + i * size, pivot, arg) < 0) i++`, on the elements from `i` on. -/
def scanUp (compar : α → α → Int) (pivot : α) : List α → Nat → Nat
  | [], i => i
  | x :: l, i => if compar x pivot < 0 then scanUp compar pivot l (i + 1) else i

/-- `while (j > 0 && compar(arr + j * size, pivot, arg) > 0) j--` -/
def scanDown (compar : α → α → Int) (pivot : α) (arr : List α) : Nat → Nat
  | 0 => 0
  | j + 1 => if ∃ x ∈ arr[j + 1]?, compar x pivot > 0 then scanDown compar pivot arr j else j + 1

/-- The `while (1)` loop of the partition. -/
def partitionLoop (compar : α → α → Int) (pivot : α) : Nat → List α → Nat → Nat → Option (List α × Nat × Nat)
  | 0, _, _, _ => none
  | fuel + 1, arr, i, j =>
    let i := scanUp compar pivot (arr.drop i) i
    let j := scanDown compar pivot arr j
    if i ≥ j then some (arr, i, j)
    else partitionLoop compar pivot fuel (sortSwap arr i j) (i + 1) (if j > 0 then j - 1 else j)

/-- The partition by the middle element: the array and the two indices at which the loop stops. -/
def sortPartition (compar : α → α → Int) (arr : List α) : Option (List α × Nat × Nat) :=
  match arr[(arr.length - 1) / 2]? with
  | some pivot => partitionLoop compar pivot (arr.length + 1) arr 0 (arr.length - 1)
  | none => none

/-- `__jacl_sort_again`.  `malloced` tells of each call, named by its path in the tree of the recursive calls (`true`
for the left one), whether its `malloc` of the pivot succeeds. -/
def sortAgain (compar : α → α → Int) (malloced : List Bool → Bool) : Nat → List Bool → List α → Option (List α)
  | 0, _, _ => none
  | fuel + 1, path, arr =>
    if arr.length < 2 then some arr
    else
      let arr := sortMedian compar arr
      if malloced path then
        match sortPartition compar arr with
        | none => none
        | some (arr, i, j) =>
          (if j > 0 then sortAgain compar malloced fuel (true :: path) (arr.take (j + 1))
            else some (arr.take (j + 1))).bind fun left =>
          (if i < arr.length - 1 then sortAgain compar malloced fuel (false :: path) (arr.drop (i + 1))
            else some (arr.drop (i + 1))).bind fun right =>
          some (left ++ (arr.take (i + 1)).drop (j + 1) ++ right)
      else some (bubbleSort compar arr)

/-- `qsort_r` on an array of `nmemb = arr.length` elements of `size` bytes; `base` and `compar` are not NULL. -/
def qsortR {A : Type*} (compar : α → α → A → Int) (arg : A) (malloced : List Bool → Bool) (size : Nat)
    (arr : List α) : Option (List α) :=
  if size = 0 ∨ arr.length < 2 then some arr
  else sortAgain (fun a b => compar a b arg) malloced (arr.length + 1) [] arr

/-- `__jacl_sort_call`: the comparator of `qsort` travels in the place of the argument of `qsort_r`. -/
def sortCall (a b : α) (fn : α → α → Int) : Int := fn a b

def qsort (compar : α → α → Int) (malloced : List Bool → Bool) (size : Nat) (arr : List α) : Option (List α) :=
  qsortR sortCall compar malloced size arr

end JACLibc

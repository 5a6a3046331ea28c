import MpiBindings.Collectives.NestedBuffers
import MpiBindings.Core.WeakOrder
import Mathlib.Data.Nat.Log

/-!
# Sample sort

The `sort` operation of the sample sort plugin on all ranks of a communicator.
The random choice of samples and the order in which an unstable sort leaves
equivalent elements are parameters of every rank.  An access out of bounds, a binary
search in a range that is not partitioned, or a size that is no machine integer makes
the sort fail.
-/

namespace MpiBindings.SampleSort

open Collectives CountingSort WeakOrder

/-! ## Standard algorithms -/

/-- Outcomes of `std::sample`. -/
structure StdSample (T : Type) where
  sample : List T → ℕ → List T
  sublist : ∀ data n, (sample data n).Sublist data
  length_sample : ∀ data n, (sample data n).length = min n data.length

/-- Outcomes of `std::sort`. -/
structure StdSort {T : Type} (comp : T → T → Prop) where
  sort : List T → List T
  perm : ∀ data, (sort data).Perm data
  sorted : ∀ data, SortedBy comp (sort data)

variable {p : ℕ} {T : Type} (comp : T → T → Prop) [DecidableRel comp]

/-- `std::upper_bound`: the position of the first element greater than the value,
in a range where only greater elements follow it. -/
def upperBound (range : List T) (value : T) : Option ℕ :=
  if ∀ element ∈ range.dropWhile (fun element => ¬ comp value element), comp value element then
    some (range.takeWhile fun element => ¬ comp value element).length
  else none

/-! ## Splitters -/

def oversamplingRatio (commSize dataSize : ℕ) : ℕ :=
  16 * Nat.log 2 commSize + if 0 < dataSize then 1 else 0

/-- The samples of a rank; those that the data does not fill keep their default. -/
def localSamples [Inhabited T] (stdSample : StdSample T) (oversamplingRatio : ℕ)
    (data : List T) : List T :=
  overwrite (stdSample.sample data oversamplingRatio)
    (List.replicate oversamplingRatio default)

/-- Overwrite the samples from the given position by the picked ones. -/
def pickLoop (oversamplingRatio : ℕ) : ℕ → ℕ → List T → Option (List T)
  | _, 0, samples => some samples
  | i, count + 1, samples =>
      match samples[oversamplingRatio * (i + 1)]? with
      | some sample =>
          if i < samples.length then
            pickLoop oversamplingRatio (i + 1) count (samples.set i sample)
          else none
      | none => none

variable {comp} in
def pickSplitters [Inhabited T] (stdSort : StdSort comp) (numSplitters oversamplingRatio : ℕ)
    (globalSamples : List T) : Option (List T) :=
  (pickLoop oversamplingRatio 0 numSplitters (stdSort.sort globalSamples)).map
    (resizeVector numSplitters default)

/-! ## Buckets -/

/-- Append all elements to the buckets that their upper bounds among the splitters
select. -/
def fillBuckets (splitters : List T) : List T → List (List T) → Option (List (List T))
  | [], buckets => some buckets
  | element :: data, buckets => do
      let bound ← upperBound comp splitters element
      let bucket ← buckets[bound]?
      fillBuckets splitters data (buckets.set bound (bucket ++ [element]))

def buildBuckets (data splitters : List T) : Option (List (List T)) :=
  fillBuckets comp splitters data (List.replicate (splitters.length + 1) [])

/-! ## Sort -/

/-- Outcomes of the standard algorithms on one rank. -/
structure Outcomes {T : Type} (comp : T → T → Prop) where
  sampling : StdSample T
  sortSamples : StdSort comp
  sortData : StdSort comp

variable [Inhabited T]

variable {comp} in
/-- What a rank contributes to the samples. -/
def samplesOf (outcomes : Fin p → Outcomes comp) (data : Fin p → List T) (rank : Fin p) :
    List T :=
  localSamples (outcomes rank).sampling (oversamplingRatio p (data rank).length) (data rank)

variable {comp} in
/-- The samples of all ranks. -/
def globalSamples (outcomes : Fin p → Outcomes comp) (data : Fin p → List T) : List T :=
  (List.finRange p).flatMap (samplesOf outcomes data)

def sort (outcomes : Fin p → Outcomes comp) (data : Fin p → List T) :
    Option (Fin p → List T) := do
  let gathered ← allgatherv (.world p) (sendBufOnly (samplesOf outcomes data))
  let splitters ← allRanks fun rank =>
    pickSplitters (outcomes rank).sortSamples (p - 1)
      (oversamplingRatio p (data rank).length) (gathered.recvBuf rank)
  let buckets ← allRanks fun rank => buildBuckets comp (data rank) (splitters rank)
  let received ← alltoallvNested buckets
  return fun rank => (outcomes rank).sortData.sort (received rank)

end MpiBindings.SampleSort

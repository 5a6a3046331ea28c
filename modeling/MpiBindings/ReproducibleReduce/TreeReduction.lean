import MpiBindings.ReproducibleReduce.Reduction
import Mathlib.Algebra.Order.Floor.Div

/-!
# The fixed reduction tree

`treeReduce` is the meaning of a reduction: it only depends on the operation, the
array and its length.  The passes of the code reduce `⌈size / 2 ^ level⌉` elements
on each level; where this number is odd, the last element needs a result from
behind the region border, unless the tree ends there.
-/

namespace MpiBindings.ReproducibleReduce

/-- Value of the tree node of the given height whose leftmost leaf is element
`i` of an array of length `n`. -/
def treeReduce {T : Type} (op : T → T → T) (array : ℕ → T) (n : ℕ) : ℕ → ℕ → T
  | 0, i => array i
  | height + 1, i =>
      if i + 2 ^ height < n then
        op (treeReduce op array n height i) (treeReduce op array n height (i + 2 ^ height))
      else treeReduce op array n height i

/-- The result that the rank of element `i > 0` sends to the rank of its parent. -/
def partialResult {T : Type} (op : T → T → T) (array : ℕ → T) (n i : ℕ) : T :=
  treeReduce op array n (subtreeHeight i) i

/-! ## Levels -/

/-- Elements that are left after `level` passes over `size` elements. -/
def elementsAt (size level : ℕ) : ℕ := size ⌈/⌉ 2 ^ level

theorem le_elementsAt_mul (size level : ℕ) : size ≤ elementsAt size level * 2 ^ level := by
  have := le_smul_ceilDiv (Nat.two_pow_pos level) (b := size)
  rwa [smul_eq_mul, Nat.mul_comm] at this

theorem elementsAt_le_iff {size level count : ℕ} :
    elementsAt size level ≤ count ↔ size ≤ count * 2 ^ level := by
  rw [elementsAt, ceilDiv_le_iff_le_smul (Nat.two_pow_pos level), smul_eq_mul, Nat.mul_comm]

theorem lt_elementsAt_iff {size level count : ℕ} :
    count < elementsAt size level ↔ count * 2 ^ level < size := by
  rw [← not_le, elementsAt_le_iff, not_le]

@[simp]
theorem elementsAt_zero (size : ℕ) : elementsAt size 0 = size := by
  simp [elementsAt]

theorem elementsAt_succ (size level : ℕ) :
    elementsAt size (level + 1) = (elementsAt size level + 1) / 2 := by
  refine eq_of_forall_ge_iff fun count => ?_
  have hmul : count * 2 ^ (level + 1) = 2 * count * 2 ^ level := by ring
  rw [elementsAt_le_iff, hmul, ← elementsAt_le_iff]
  omega

theorem elementsAt_pos {size : ℕ} (hsize : 0 < size) (level : ℕ) :
    0 < elementsAt size level := by
  rw [lt_elementsAt_iff]
  omega

theorem elementsAt_le (size level : ℕ) : elementsAt size level ≤ size :=
  elementsAt_le_iff.mpr (Nat.le_mul_of_pos_right _ (Nat.two_pow_pos level))

/-- The index behind the border is the next multiple of the stride, so it does
not decrease from level to level. -/
theorem elementsAt_mul_mono (size : ℕ) {low high : ℕ} (hle : low ≤ high) :
    elementsAt size low * 2 ^ low ≤ elementsAt size high * 2 ^ high := by
  obtain ⟨gap, rfl⟩ := Nat.exists_eq_add_of_le hle
  rw [pow_add, ← Nat.mul_assoc, Nat.mul_right_comm]
  refine Nat.mul_le_mul_right _ (elementsAt_le_iff.mpr ?_)
  rw [Nat.mul_right_comm, Nat.mul_assoc, ← pow_add]
  exact le_elementsAt_mul size _

/-- `indexB` of a pass: the index behind the elements of the level. -/
theorem indexB_eq (index : ℕ) {size level : ℕ} (hpos : 0 < elementsAt size level) :
    index + (elementsAt size level - 1) * 1 <<< (level + 1 - 1) + 1 <<< (level + 1 - 1) =
      index + elementsAt size level * 2 ^ level := by
  rw [Nat.add_sub_cancel, Nat.one_shiftLeft]
  conv_rhs => rw [← Nat.sub_add_cancel hpos]
  ring

/-! ## Requests -/

/-- Index that a pass has to get from another rank. -/
def request (index maxX size level : ℕ) : Option ℕ :=
  let count := elementsAt size level
  if count % 2 = 1 ∧ index + count * 2 ^ level ≤ maxX then some (index + count * 2 ^ level)
  else none

/-- Requests of the given number of passes from a level on. -/
def requestsFrom (index maxX size level passes : ℕ) : List ℕ :=
  (List.range' level passes).filterMap (request index maxX size)

theorem requestsFrom_succ (index maxX size level passes : ℕ) :
    requestsFrom index maxX size level (passes + 1) =
      (request index maxX size level).toList ++
        requestsFrom index maxX size (level + 1) passes := by
  rw [requestsFrom, List.range'_succ, List.filterMap_cons]
  cases request index maxX size level <;> rfl

/-- Results of other ranks that the reduction of `index` asks for. -/
def ReproducibleCommunicator.requests (comm : ReproducibleCommunicator) (index : ℕ) :
    List ℕ :=
  if index % 2 = 1 then []
  else requestsFrom index (comm.maxX index) (comm.nLocalElements index) 0 (comm.maxY index)

/-- The tree node of height `maxY` at `index` covers the elements up to `maxX` of
an array of length `n`. -/
structure SubtreeBounds (n index maxX maxY : ℕ) : Prop where
  le : index ≤ maxX
  lt : maxX < n
  dvd : 2 ^ maxY ∣ index
  upper : maxX < index + 2 ^ maxY
  last : maxX + 1 = n ∨ maxX + 1 = index + 2 ^ maxY

section Bounds

variable {n index maxX maxY : ℕ}

/-- Every index on a level below a node is a multiple of the stride. -/
theorem SubtreeBounds.eq_pow_mul_odd (hbounds : SubtreeBounds n index maxX maxY)
    {level count : ℕ} (hlevel : level < maxY) (hodd : count % 2 = 1) :
    ∃ half, index + count * 2 ^ level = 2 ^ level * (2 * half + 1) := by
  obtain ⟨multiple, hmultiple⟩ := hbounds.dvd
  obtain ⟨gap, rfl⟩ := Nat.exists_eq_add_of_lt hlevel
  refine ⟨2 ^ gap * multiple + count / 2, ?_⟩
  have hcount : count = 2 * (count / 2) + 1 := by omega
  conv_lhs => rw [hmultiple, hcount]
  ring

theorem subtreeHeight_of_bounds (hbounds : SubtreeBounds n index maxX maxY)
    {level count : ℕ} (hlevel : level < maxY) (hodd : count % 2 = 1) :
    subtreeHeight (index + count * 2 ^ level) = level := by
  obtain ⟨half, hhalf⟩ := hbounds.eq_pow_mul_odd hlevel hodd
  rw [hhalf, subtreeHeight_pow_mul_odd]

theorem treeParent_of_bounds (hbounds : SubtreeBounds n index maxX maxY)
    (level : ℕ) {count : ℕ} (hlevel : level < maxY) (hodd : count % 2 = 1) :
    treeParent (index + count * 2 ^ level) + 2 ^ level = index + count * 2 ^ level := by
  obtain ⟨half, hhalf⟩ := hbounds.eq_pow_mul_odd hlevel hodd
  rw [hhalf, treeParent_pow_mul_odd]
  ring

/-- Where an odd number of elements ends the subtree, the array ends. -/
theorem SubtreeBounds.array_ends (hbounds : SubtreeBounds n index maxX maxY)
    {level size : ℕ} (hlevel : level < maxY) (hsize : index + size ≤ maxX + 1)
    (hodd : elementsAt size level % 2 = 1)
    (hends : maxX < index + elementsAt size level * 2 ^ level) :
    n ≤ index + elementsAt size level * 2 ^ level := by
  obtain hlast | hlast := hbounds.last
  · omega
  · exfalso
    obtain ⟨gap, rfl⟩ := Nat.exists_eq_add_of_lt hlevel
    have hpow : 2 ^ (level + gap + 1) = 2 * 2 ^ gap * 2 ^ level := by ring
    have hle : elementsAt size level ≤ 2 * 2 ^ gap := by
      rw [elementsAt_le_iff, ← hpow]
      omega
    have hge : 2 * 2 ^ gap ≤ elementsAt size level := by
      refine Nat.le_of_mul_le_mul_right ?_ (Nat.two_pow_pos level)
      rw [← hpow]
      omega
    omega

/-- The passes leave one element. -/
theorem SubtreeBounds.elementsAt_eq_one (hbounds : SubtreeBounds n index maxX maxY) {size : ℕ}
    (hsize : 0 < size) (hlocal : index + size ≤ maxX + 1) : elementsAt size maxY = 1 := by
  have hpos := elementsAt_pos hsize maxY
  have hle : elementsAt size maxY ≤ 1 := by
    have hupper := hbounds.upper
    rw [elementsAt_le_iff]
    omega
  omega

theorem mem_requestsFrom (hbounds : SubtreeBounds n index maxX maxY) {size : ℕ}
    (hsize : 0 < size) {g : ℕ} :
    g ∈ requestsFrom index maxX size 0 maxY ↔
      index + size ≤ g ∧ g ≤ maxX ∧ treeParent g < index + size := by
  simp only [requestsFrom, List.mem_filterMap, List.mem_range'_1, request]
  constructor
  · rintro ⟨level, hlevel, hrequest⟩
    split_ifs at hrequest with hcondition
    obtain rfl := Option.some.inj hrequest
    have hparent := treeParent_of_bounds hbounds level (by omega) hcondition.1
    have hle := le_elementsAt_mul size level
    have hlt : (elementsAt size level - 1) * 2 ^ level < size :=
      lt_elementsAt_iff.mp (Nat.sub_lt (elementsAt_pos hsize level) (by omega))
    have hmul : elementsAt size level * 2 ^ level =
        (elementsAt size level - 1) * 2 ^ level + 2 ^ level := by
      conv_lhs => rw [← Nat.sub_add_cancel (elementsAt_pos hsize level)]
      ring
    exact ⟨by omega, hcondition.2, by omega⟩
  · rintro ⟨hlower, hupper, hparent⟩
    obtain ⟨level, half, rfl⟩ := exists_eq_pow_mul_odd (show 0 < g by omega)
    obtain ⟨multiple, rfl⟩ := hbounds.dvd
    rw [treeParent_pow_mul_odd] at hparent
    have hupperPow := hbounds.upper
    have hlevel : level < maxY := by
      by_contra hnot
      obtain ⟨gap, rfl⟩ := Nat.exists_eq_add_of_le (Nat.le_of_not_lt hnot)
      have hmul : 2 ^ (maxY + gap) * (2 * half + 1) = 2 ^ maxY * (2 ^ gap * (2 * half + 1)) := by
        ring
      have hgt : 2 ^ maxY * multiple < 2 ^ maxY * (2 ^ gap * (2 * half + 1)) := by omega
      have hlt : 2 ^ maxY * (2 ^ gap * (2 * half + 1)) < 2 ^ maxY * (multiple + 1) := by
        have hsucc : 2 ^ maxY * (multiple + 1) = 2 ^ maxY * multiple + 2 ^ maxY := by ring
        omega
      have := Nat.lt_of_mul_lt_mul_left hgt
      have := Nat.lt_of_mul_lt_mul_left hlt
      omega
    obtain ⟨gap, rfl⟩ := Nat.exists_eq_add_of_lt hlevel
    have hbase : 2 ^ (level + gap + 1) * multiple = 2 * (2 ^ gap * multiple) * 2 ^ level := by
      ring
    have hle : 2 ^ gap * multiple ≤ half := by
      have hlt : 2 * (2 ^ gap * multiple) * 2 ^ level < (2 * half + 1) * 2 ^ level := by
        rw [← hbase, Nat.mul_comm (2 * half + 1)]
        omega
      have := Nat.lt_of_mul_lt_mul_right hlt
      omega
    obtain ⟨offset, rfl⟩ := Nat.exists_eq_add_of_le hle
    have hsplit : 2 ^ level * (2 * (2 ^ gap * multiple + offset) + 1) =
        2 ^ (level + gap + 1) * multiple + (2 * offset + 1) * 2 ^ level := by ring
    have hsplitParent : 2 ^ (level + 1) * (2 ^ gap * multiple + offset) =
        2 ^ (level + gap + 1) * multiple + 2 * offset * 2 ^ level := by ring
    have hcount : elementsAt size level = 2 * offset + 1 := by
      refine le_antisymm (elementsAt_le_iff.mpr ?_) (Nat.succ_le_iff.mpr (lt_elementsAt_iff.mpr ?_))
      · omega
      · omega
    refine ⟨level, by omega, ?_⟩
    rw [hcount, if_pos ⟨by omega, by omega⟩, hsplit]

/-- Requests are made in ascending order. -/
theorem requestsFrom_sorted (index maxX size level passes : ℕ) :
    (requestsFrom index maxX size level passes).Pairwise (· < ·) := by
  refine List.Pairwise.filterMap (R := fun low high => low < high) _ ?_
    List.pairwise_lt_range'
  intro low high hlt g hg g' hg'
  simp only [request] at hg hg'
  split_ifs at hg with hlow
  split_ifs at hg' with hhigh
  obtain rfl := Option.some.inj hg
  obtain rfl := Option.some.inj hg'
  have hnext : elementsAt size low * 2 ^ low < elementsAt size (low + 1) * 2 ^ (low + 1) := by
    have hpow : elementsAt size (low + 1) * 2 ^ (low + 1) =
        2 * elementsAt size (low + 1) * 2 ^ low := by ring
    rw [hpow]
    refine Nat.mul_lt_mul_of_pos_right ?_ (Nat.two_pow_pos low)
    rw [elementsAt_succ]
    omega
  have := elementsAt_mul_mono size (Nat.succ_le_of_lt hlt)
  simp only [Nat.succ_eq_add_one] at this
  omega

end Bounds

end MpiBindings.ReproducibleReduce

import MpiBindings.Collectives.Communicator
import Mathlib.Data.Int.CardIntervalMod
import Mathlib.Data.Nat.Count
import Mathlib.Data.Nat.Sqrt

/-!
# The processor grid

The ranks are arranged row by row in a grid with about as many rows as columns.
The ranks of an incomplete last row are appended to the first rows, one to each,
and stay in their columns.
-/

namespace MpiBindings.GridAlltoall

open Collectives

/-! ## Construction -/

/-- Position in a grid, assuming that the grid is complete. -/
structure GridPosition where
  rowIndex : ℕ
  colIndex : ℕ
deriving DecidableEq, Repr

/-- `pos_in_complete_grid`. -/
def posInCompleteGrid (numColumns rank : ℕ) : GridPosition :=
  { rowIndex := rank / numColumns, colIndex := rank % numColumns }

/-- The state of the grid communicator on all ranks. -/
structure GridCommunicator (p : ℕ) where
  numColumns : ℕ
  sizeCompleteRectangle : ℕ
  rowComm : Communicators p
  columnComm : Communicators p

/-- Square root, rounded up. -/
def ceilSqrt (p : ℕ) : ℕ := if p.sqrt * p.sqrt = p then p.sqrt else p.sqrt + 1

/-- Number of columns: the larger root if there are ranks enough for one more row. -/
def gridColumns (p : ℕ) : ℕ :=
  let threshold := p.sqrt * ceilSqrt p
  if threshold ≤ p then ceilSqrt p else p.sqrt

/-- Number of ranks in the complete rows. -/
def completeRectangle (p : ℕ) : ℕ := gridColumns p * (p / gridColumns p)

/-- Row of a rank; the ranks of the incomplete row are appended to the first rows. -/
def rowColor (p rank : ℕ) : ℕ :=
  if completeRectangle p ≤ rank then rank % gridColumns p
  else (posInCompleteGrid (gridColumns p) rank).rowIndex

/-- Column of a rank. -/
def columnColor (p rank : ℕ) : ℕ := (posInCompleteGrid (gridColumns p) rank).colIndex

/-- The constructor of the grid communicator. -/
def makeGridCommunicator (p : ℕ) : GridCommunicator p :=
  { numColumns := gridColumns p
    sizeCompleteRectangle := completeRectangle p
    rowComm := .split (fun rank => rowColor p rank) Fin.val
    columnComm := .split (fun rank => columnColor p rank) Fin.val }

/-! ## Geometry -/

section Geometry

variable {p : ℕ}

theorem ceilSqrt_pos (hp : 0 < p) : 0 < ceilSqrt p := by
  unfold ceilSqrt
  have := Nat.sqrt_pos.mpr hp
  split_ifs <;> omega

theorem gridColumns_pos (hp : 0 < p) : 0 < gridColumns p := by
  unfold gridColumns
  have := Nat.sqrt_pos.mpr hp
  have := ceilSqrt_pos hp
  simp only
  split_ifs <;> omega

theorem gridColumns_le (p : ℕ) : gridColumns p ≤ p.sqrt + 1 := by
  simp only [gridColumns, ceilSqrt]
  split_ifs <;> omega

theorem sqrt_mul_gridColumns_le (p : ℕ) : p.sqrt * gridColumns p ≤ p := by
  simp only [gridColumns]
  split_ifs with hthreshold
  · exact hthreshold
  · exact Nat.sqrt_le p

/-- There are at least as many complete rows as ranks in the incomplete row. -/
theorem mod_gridColumns_le (hp : 0 < p) : p % gridColumns p ≤ p / gridColumns p := by
  have hpos := gridColumns_pos hp
  have hrows : p.sqrt ≤ p / gridColumns p :=
    (Nat.le_div_iff_mul_le hpos).mpr (sqrt_mul_gridColumns_le p)
  have hmod := Nat.mod_lt p hpos
  have hcolumns := gridColumns_le p
  omega

theorem completeRectangle_add_mod (p : ℕ) : completeRectangle p + p % gridColumns p = p :=
  Nat.div_add_mod p (gridColumns p)

/-- Ranks of the incomplete row stand behind the complete rows in column order. -/
theorem mod_of_completeRectangle_le {rank : ℕ} (hp : 0 < p) (hrank : rank < p)
    (hle : completeRectangle p ≤ rank) :
    rank = completeRectangle p + rank % gridColumns p := by
  obtain ⟨index, rfl⟩ := Nat.exists_eq_add_of_le hle
  have hindex : index < gridColumns p := by
    have := completeRectangle_add_mod p
    have := Nat.mod_lt p (gridColumns_pos hp)
    omega
  rw [completeRectangle, Nat.mul_add_mod, Nat.mod_eq_of_lt hindex]

theorem rowColor_of_lt {rank : ℕ} (hlt : rank < completeRectangle p) :
    rowColor p rank = rank / gridColumns p := by
  rw [rowColor, if_neg (Nat.not_le_of_lt hlt)]
  rfl

theorem rowColor_of_le {rank : ℕ} (hle : completeRectangle p ≤ rank) :
    rowColor p rank = rank % gridColumns p :=
  if_pos hle

/-- Every rank belongs to a complete row. -/
theorem rowColor_lt {rank : ℕ} (hp : 0 < p) (hrank : rank < p) :
    rowColor p rank < p / gridColumns p := by
  by_cases hle : completeRectangle p ≤ rank
  · rw [rowColor_of_le hle]
    have := mod_of_completeRectangle_le hp hrank hle
    have := completeRectangle_add_mod p
    have := mod_gridColumns_le hp
    omega
  · rw [rowColor_of_lt (Nat.lt_of_not_le hle)]
    exact Nat.div_lt_of_lt_mul (Nat.lt_of_not_le hle)

/-- Rank in the grid at a complete row and a column. -/
theorem position_lt {row column : ℕ} (hrow : row < p / gridColumns p)
    (hcolumn : column < gridColumns p) :
    row * gridColumns p + column < completeRectangle p := by
  have := Nat.mul_le_mul_right (gridColumns p) (Nat.succ_le_of_lt hrow)
  rw [completeRectangle, Nat.mul_comm]
  rw [Nat.succ_mul, Nat.mul_comm (p / gridColumns p)] at this
  rw [Nat.mul_comm (gridColumns p)]
  omega

theorem completeRectangle_le (p : ℕ) : completeRectangle p ≤ p :=
  Nat.mul_div_le p (gridColumns p)

/-! ## Ranks in the row and column communicators -/

/-- The rank in a communicator of a split by rank counts the smaller members. -/
theorem rankOf_split (color : ℕ → ℕ) (rank : Fin p) :
    (Communicators.split (fun other : Fin p => color other) Fin.val).rankOf rank =
      Nat.count (fun other => color other = color rank) rank := by
  have hsplit : List.finRange p = (List.finRange p).take rank ++
      rank :: (List.finRange p).drop (rank + 1) := by
    have hdrop := List.drop_eq_getElem_cons (l := List.finRange p) (i := rank)
      (by simp [rank.isLt])
    rw [List.getElem_finRange] at hdrop
    exact (List.take_append_drop rank _).symm.trans (congrArg _ hdrop)
  have hnotMem : rank ∉ ((List.finRange p).take rank).filter
      fun other : Fin p => color other = color rank := by
    intro hmem
    have hpairwise := List.pairwise_lt_finRange p
    rw [hsplit] at hpairwise
    exact lt_irrefl rank ((List.pairwise_append.mp hpairwise).2.2 rank
      (List.mem_of_mem_filter hmem) rank List.mem_cons_self)
  have hrange : ((List.finRange p).take rank).map Fin.val = List.range rank := by
    rw [← List.map_take.symm, List.map_coe_finRange_eq_range, List.take_range,
      Nat.min_eq_left rank.isLt.le]
  rw [Communicators.rankOf, Communicators.members_split_rank, hsplit, List.filter_append,
    List.filter_cons_of_pos (by simp), List.idxOf_append_of_notMem hnotMem, List.idxOf_cons_self,
    Nat.add_zero, ← List.countP_eq_length_filter, Nat.count, ← hrange, List.countP_map]
  rfl

theorem rankOf_column (rank : Fin p) :
    (makeGridCommunicator p).columnComm.rankOf rank = rank / gridColumns p := by
  have hp : 0 < p := Nat.zero_lt_of_lt rank.isLt
  refine (rankOf_split (columnColor p) rank).trans ?_
  exact (Nat.count_modEq_card rank (gridColumns_pos hp) rank).trans (by simp)

theorem count_eq_of_interval {P : ℕ → Prop} [DecidablePred P] (start : ℕ) {length total : ℕ}
    (hle : start + length ≤ total)
    (h : ∀ n < total, P n ↔ start ≤ n ∧ n < start + length) : Nat.count P total = length := by
  obtain ⟨rest, rfl⟩ := Nat.exists_eq_add_of_le hle
  have hbefore : Nat.count P start = 0 :=
    Nat.count_iff_forall_not.mpr fun n hn hP => by
      have := (h n (by omega)).mp hP
      omega
  have hinside : Nat.count (fun n => P (start + n)) length = length :=
    Nat.count_iff_forall.mpr fun n hn => (h _ (by omega)).mpr (by omega)
  have hbehind : Nat.count (fun n => P (start + length + n)) rest = 0 :=
    Nat.count_iff_forall_not.mpr fun n hn hP => by
      have := (h _ (by omega)).mp hP
      omega
  rw [Nat.count_add, Nat.count_add, hbefore, hinside, hbehind, Nat.zero_add, Nat.add_zero]

/-- A row holds consecutive ranks of the complete rows. -/
theorem rowColor_eq_iff {rank row : ℕ} (hp : 0 < p) (hlt : rank < completeRectangle p) :
    rowColor p rank = row ↔
      gridColumns p * row ≤ rank ∧ rank < gridColumns p * row + gridColumns p := by
  have hpos := gridColumns_pos hp
  rw [rowColor_of_lt hlt, Nat.div_eq_iff hpos, Nat.mul_comm row]
  omega

theorem rankOf_row_of_lt {rank : Fin p} (hlt : rank < completeRectangle p) :
    (makeGridCommunicator p).rowComm.rankOf rank = rank % gridColumns p := by
  have hp : 0 < p := Nat.zero_lt_of_lt rank.isLt
  have hpos := gridColumns_pos hp
  have hdiv := Nat.div_add_mod (rank : ℕ) (gridColumns p)
  have hmod := Nat.mod_lt (rank : ℕ) hpos
  refine (rankOf_split (rowColor p) rank).trans ?_
  refine count_eq_of_interval (gridColumns p * (rank / gridColumns p)) hdiv.le ?_
  intro other hother
  rw [rowColor_of_lt hlt, rowColor_eq_iff hp (by omega)]
  omega

theorem rankOf_row_of_le {rank : Fin p} (hle : completeRectangle p ≤ rank) :
    (makeGridCommunicator p).rowComm.rankOf rank = gridColumns p := by
  have hp : 0 < p := Nat.zero_lt_of_lt rank.isLt
  have hpos := gridColumns_pos hp
  have hrank := mod_of_completeRectangle_le hp rank.isLt hle
  have hrow := rowColor_lt hp rank.isLt
  rw [rowColor_of_le hle] at hrow
  have hblock := position_lt hrow (Nat.sub_lt hpos Nat.one_pos)
  rw [Nat.mul_comm] at hblock
  refine (rankOf_split (rowColor p) rank).trans ?_
  rw [rowColor_of_le hle]
  refine count_eq_of_interval (gridColumns p * (rank % gridColumns p)) (by omega) ?_
  intro other hother
  by_cases hlt : other < completeRectangle p
  · exact rowColor_eq_iff hp hlt
  · have hotherRank := mod_of_completeRectangle_le hp (by omega) (Nat.le_of_not_lt hlt)
    rw [rowColor_of_le (Nat.le_of_not_lt hlt)]
    omega

/-! ## Members -/

theorem mem_row {rank other : Fin p} :
    other ∈ (makeGridCommunicator p).rowComm.members rank ↔
      rowColor p other = rowColor p rank := by
  simp [makeGridCommunicator, Communicators.members_split_rank]

theorem mem_column {rank other : Fin p} :
    other ∈ (makeGridCommunicator p).columnComm.members rank ↔
      columnColor p other = columnColor p rank := by
  simp [makeGridCommunicator, Communicators.members_split_rank]

/-- The rank of a complete row in the column of another rank. -/
theorem exists_relay (source destination : Fin p) :
    ∃ relay : Fin p, relay < completeRectangle p ∧ rowColor p relay = rowColor p source ∧
      columnColor p relay = columnColor p destination := by
  have hp : 0 < p := Nat.zero_lt_of_lt source.isLt
  have hpos := gridColumns_pos hp
  have hcolumn : columnColor p destination < gridColumns p := Nat.mod_lt _ hpos
  have hlt := position_lt (rowColor_lt hp source.isLt) hcolumn
  refine ⟨⟨_, Nat.lt_of_lt_of_le hlt (completeRectangle_le p)⟩, hlt, ?_, ?_⟩
  · rw [rowColor_of_lt hlt, Nat.mul_comm, Nat.mul_add_div hpos, Nat.div_eq_of_lt hcolumn,
      Nat.add_zero]
  · change (_ * gridColumns p + columnColor p destination) % gridColumns p = _
    rw [Nat.mul_comm, Nat.mul_add_mod, Nat.mod_eq_of_lt hcolumn]

/-- Every column is a member of every row communicator. -/
theorem gridColumns_le_size_row (rank : Fin p) :
    gridColumns p ≤ (makeGridCommunicator p).rowComm.size rank := by
  have hp : 0 < p := Nat.zero_lt_of_lt rank.isLt
  have hlast := position_lt (rowColor_lt hp rank.isLt)
    (Nat.sub_lt (gridColumns_pos hp) Nat.one_pos)
  let last : Fin p := ⟨_, Nat.lt_of_lt_of_le hlast (completeRectangle_le p)⟩
  have hrow : rowColor p last = rowColor p rank := by
    rw [rowColor_eq_iff hp hlast]
    simp only [Nat.mul_comm (gridColumns p)]
    have := gridColumns_pos hp
    omega
  have hrankOf : (makeGridCommunicator p).rowComm.rankOf last = last % gridColumns p :=
    rankOf_row_of_lt hlast
  have hsize := (makeGridCommunicator p).rowComm.rankOf_lt last
  rw [(makeGridCommunicator p).rowComm.size_eq (mem_row.mpr hrow), hrankOf] at hsize
  have hmod : (last : ℕ) % gridColumns p = gridColumns p - 1 := by
    simp only [last]
    rw [Nat.mul_comm, Nat.mul_add_mod,
      Nat.mod_eq_of_lt (Nat.sub_lt (gridColumns_pos hp) Nat.one_pos)]
  omega

/-- The row of a destination is a rank of its column communicator. -/
theorem div_lt_size_column {rank destination : Fin p}
    (hcolumn : columnColor p destination = columnColor p rank) :
    destination / gridColumns p < (makeGridCommunicator p).columnComm.size rank := by
  have hlt := (makeGridCommunicator p).columnComm.rankOf_lt destination
  rwa [rankOf_column, (makeGridCommunicator p).columnComm.size_eq (mem_column.mpr hcolumn)] at hlt

/-- Sources in the order in which the messages to a rank reach it: row by row. -/
def sourceOrder (rank : Fin p) : List (Fin p) :=
  (((makeGridCommunicator p).columnComm.members rank).filter
    fun relay : Fin p => relay < completeRectangle p).flatMap
      (makeGridCommunicator p).rowComm.members

theorem nodup_sourceOrder (rank : Fin p) : (sourceOrder rank).Nodup := by
  refine List.nodup_flatMap.mpr ⟨fun relay _ => Communicators.nodup _ relay, ?_⟩
  have hnodup := ((makeGridCommunicator p).columnComm.nodup rank).filter
    fun relay : Fin p => relay < completeRectangle p
  refine hnodup.imp_of_mem fun {left right} hleft hright hne source hinLeft hinRight => hne ?_
  have hp : 0 < p := Nat.zero_lt_of_lt source.isLt
  simp only [List.mem_filter, mem_column, decide_eq_true_eq] at hleft hright
  have hrow : rowColor p left = rowColor p right :=
    (mem_row.mp hinLeft).symm.trans (mem_row.mp hinRight)
  rw [rowColor_of_lt hleft.2, rowColor_of_lt hright.2] at hrow
  have hcolumn : (left : ℕ) % gridColumns p = right % gridColumns p :=
    hleft.1.trans hright.1.symm
  refine Fin.ext ?_
  rw [← Nat.div_add_mod (left : ℕ) (gridColumns p), hrow, hcolumn, Nat.div_add_mod]

/-- Every source reaches a rank through exactly one relay. -/
theorem sourceOrder_perm (rank : Fin p) : (sourceOrder rank).Perm (List.finRange p) := by
  refine (List.perm_ext_iff_of_nodup (nodup_sourceOrder rank) (List.nodup_finRange p)).mpr
    fun source => ⟨fun _ => List.mem_finRange source, fun _ => ?_⟩
  obtain ⟨relay, hlt, hrow, hcolumn⟩ := exists_relay source rank
  exact List.mem_flatMap.mpr ⟨relay, List.mem_filter.mpr
    ⟨mem_column.mpr hcolumn, decide_eq_true hlt⟩, mem_row.mpr hrow.symm⟩

/-! ## The grid as a whole -/

theorem div_gridColumns_le (hp : 0 < p) : p / gridColumns p ≤ gridColumns p + 1 := by
  have hceil : ceilSqrt p ≤ p.sqrt + 1 := by
    unfold ceilSqrt
    split_ifs <;> omega
  have hupper : p < (p.sqrt + 1) * (p.sqrt + 1) := Nat.lt_succ_sqrt p
  have hlt : p < gridColumns p * (gridColumns p + 1) := by
    simp only [gridColumns]
    split_ifs with hthreshold
    · by_cases hsquare : p.sqrt * p.sqrt = p
      · rw [ceilSqrt, if_pos hsquare]
        have := Nat.sqrt_pos.mpr hp
        rw [Nat.mul_add, hsquare]
        omega
      · rw [ceilSqrt, if_neg hsquare]
        exact hupper.trans_le (Nat.mul_le_mul_left _ (Nat.le_succ _))
    · exact (Nat.lt_of_not_le hthreshold).trans_le (Nat.mul_le_mul_left _ hceil)
  exact (Nat.div_lt_of_lt_mul hlt).le

theorem gridColumns_le_div (hp : 0 < p) : gridColumns p ≤ p / gridColumns p + 1 := by
  have hrows : p.sqrt ≤ p / gridColumns p :=
    (Nat.le_div_iff_mul_le (gridColumns_pos hp)).mpr (sqrt_mul_gridColumns_le p)
  have hcolumns := gridColumns_le p
  omega

end Geometry

/-- The geometry that the two exchanges rely on.  `rows` counts the complete
rows. -/
structure WellFormedGrid {p : ℕ} (grid : GridCommunicator p) (rows : ℕ) : Prop where
  columns_pos : 1 ≤ grid.numColumns
  rows_le : rows ≤ grid.numColumns + 1
  columns_le : grid.numColumns ≤ rows + 1
  incomplete_le : p % grid.numColumns ≤ rows
  rankOf_row : ∀ rank : Fin p, rank < rows * grid.numColumns →
    grid.rowComm.rankOf rank = rank % grid.numColumns
  mem_row : ∀ rank other : Fin p, rank < rows * grid.numColumns →
    other < rows * grid.numColumns →
    (other ∈ grid.rowComm.members rank ↔
      other / grid.numColumns = (rank : ℕ) / grid.numColumns)
  incomplete_unique : ∀ rank other other' : Fin p, rank < rows * grid.numColumns →
    rows * grid.numColumns ≤ other → rows * grid.numColumns ≤ other' →
    other ∈ grid.rowComm.members rank → other' ∈ grid.rowComm.members rank → other = other'
  incomplete_row : ∀ rank : Fin p, rows * grid.numColumns ≤ rank →
    ∃ row < rows, ∀ other : Fin p, other < rows * grid.numColumns →
      (other ∈ grid.rowComm.members rank ↔ other / grid.numColumns = row)
  incomplete_last : ∀ rank : Fin p, rows * grid.numColumns ≤ rank →
    (grid.rowComm.members rank).getLast? = some rank
  incomplete_distinct : ∀ rank rank' : Fin p, rows * grid.numColumns ≤ rank →
    rows * grid.numColumns ≤ rank' →
    grid.rowComm.members rank = grid.rowComm.members rank' → rank = rank'
  rankOf_column : ∀ rank : Fin p, grid.columnComm.rankOf rank = rank / grid.numColumns
  mem_column : ∀ rank other : Fin p, other ∈ grid.columnComm.members rank ↔
    other ≡ rank [MOD grid.numColumns]
  delivers : ∀ source destination : Fin p, ∃ relay : Fin p,
    (grid.rowComm.members source)[(posInCompleteGrid grid.numColumns destination).colIndex]? =
        some relay ∧
      grid.columnComm.members relay = grid.columnComm.members destination ∧
      (grid.columnComm.members relay)[(posInCompleteGrid grid.numColumns
        destination).rowIndex]? = some destination

section WellFormed

variable {p : ℕ}

/-- The ranks of the incomplete row belong to different rows. -/
theorem eq_of_rowColor_eq {rank rank' : Fin p} (hle : completeRectangle p ≤ rank)
    (hle' : completeRectangle p ≤ rank') (hcolor : rowColor p rank = rowColor p rank') :
    rank = rank' := by
  have hp : 0 < p := Nat.zero_lt_of_lt rank.isLt
  rw [rowColor_of_le hle, rowColor_of_le hle'] at hcolor
  refine Fin.ext ?_
  rw [mod_of_completeRectangle_le hp rank.isLt hle, hcolor]
  exact (mod_of_completeRectangle_le hp rank'.isLt hle').symm

/-- The rank of the incomplete row stands behind those of its row. -/
theorem le_of_mem_row {rank other : Fin p} (hle : completeRectangle p ≤ rank)
    (hother : other ∈ (makeGridCommunicator p).rowComm.members rank) : other ≤ rank := by
  by_cases hlt : other < completeRectangle p
  · exact Fin.le_def.mpr (hlt.le.trans hle)
  · exact (eq_of_rowColor_eq (Nat.le_of_not_lt hlt) hle (mem_row.mp hother)).le

theorem getLast?_of_pairwise_lt {ranks : List (Fin p)} {last : Fin p}
    (hsorted : ranks.Pairwise (· < ·)) (hmem : last ∈ ranks)
    (hle : ∀ rank ∈ ranks, rank ≤ last) : ranks.getLast? = some last := by
  have hne := List.ne_nil_of_mem hmem
  rw [List.getLast?_eq_some_getLast hne]
  rw [← List.dropLast_append_getLast hne] at hsorted hmem
  obtain hfront | hback := List.mem_append.mp hmem
  · have hlt := (List.pairwise_append.mp hsorted).2.2 last hfront _ (List.mem_singleton_self _)
    exact absurd (hle _ (List.getLast_mem hne)) (not_le.mpr hlt)
  · rw [List.mem_singleton.mp hback]

theorem getLast?_row {rank : Fin p} (hle : completeRectangle p ≤ rank) :
    ((makeGridCommunicator p).rowComm.members rank).getLast? = some rank := by
  refine getLast?_of_pairwise_lt ?_ (Communicators.mem_self _ rank) fun other =>
    le_of_mem_row hle
  simp only [makeGridCommunicator, Communicators.members_split_rank]
  exact (List.pairwise_lt_finRange p).filter _

/-- The first exchange meets a rank in the column of the destination, and the
second one finds the destination there. -/
theorem exists_delivery (source destination : Fin p) :
    ∃ relay : Fin p,
      ((makeGridCommunicator p).rowComm.members source)[(destination : ℕ) % gridColumns p]? =
          some relay ∧
        (makeGridCommunicator p).columnComm.members relay =
          (makeGridCommunicator p).columnComm.members destination ∧
        ((makeGridCommunicator p).columnComm.members relay)[(destination : ℕ) /
          gridColumns p]? = some destination := by
  obtain ⟨relay, hlt, hrow, hcolumn⟩ := exists_relay source destination
  have hmem : relay ∈ (makeGridCommunicator p).rowComm.members source := mem_row.mpr hrow
  have hcolumnMem : destination ∈ (makeGridCommunicator p).columnComm.members relay :=
    mem_column.mpr hcolumn.symm
  have hrankOf : (makeGridCommunicator p).rowComm.rankOf relay =
      (destination : ℕ) % gridColumns p := (rankOf_row_of_lt hlt).trans hcolumn
  refine ⟨relay, ?_, (Communicators.members_eq _ hcolumnMem).symm, ?_⟩
  · rw [← hrankOf]
    exact Communicators.getElem?_rankOf _ hmem
  · rw [← rankOf_column destination]
    exact Communicators.getElem?_rankOf _ hcolumnMem

/-- The grid is well formed for every number of ranks. -/
theorem makeGridCommunicator_wellFormed (hp : 0 < p) :
    WellFormedGrid (makeGridCommunicator p) (p / gridColumns p) := by
  have hpos := gridColumns_pos hp
  have hrows : p / gridColumns p * (makeGridCommunicator p).numColumns = completeRectangle p :=
    Nat.mul_comm _ _
  refine ⟨hpos, div_gridColumns_le hp, gridColumns_le_div hp, mod_gridColumns_le hp,
    ?_, ?_, ?_, ?_, ?_, ?_, rankOf_column, fun _ _ => mem_column, exists_delivery⟩
  all_goals rw [hrows]
  · exact fun rank => rankOf_row_of_lt
  · intro rank other hlt hother
    rw [mem_row, rowColor_of_lt hlt, rowColor_of_lt hother]
    rfl
  · intro rank other other' _ hother hother' hmem hmem'
    exact eq_of_rowColor_eq hother hother' ((mem_row.mp hmem).trans (mem_row.mp hmem').symm)
  · intro rank hle
    refine ⟨rowColor p rank, rowColor_lt hp rank.isLt, fun other hother => ?_⟩
    rw [mem_row, rowColor_of_lt hother]
    rfl
  · exact fun rank => getLast?_row
  · intro rank rank' hle hle' hmembers
    have hmem := Communicators.mem_self (makeGridCommunicator p).rowComm rank'
    rw [← hmembers] at hmem
    exact (eq_of_rowColor_eq hle' hle (mem_row.mp hmem)).symm

theorem makeGridCommunicator_wellFormed_seven :
    WellFormedGrid (makeGridCommunicator 7) (7 / gridColumns 7) :=
  makeGridCommunicator_wellFormed (by decide)

end WellFormed

end MpiBindings.GridAlltoall

import MpiBindings.SampleSort.Correctness
import Mathlib.Algebra.BigOperators.Fin

/-!
# Positions of the splitters

A rank gathers more samples from ranks with data than from others, while it
picks its splitters at a distance that depends only on its own data.  Whether
all positions exist is decided by the number of ranks with data.
-/

namespace MpiBindings.SampleSort

/-! ## Reads of the loop -/

section Reads

variable {T : Type} {oversamplingRatio : ℕ}

/-- The loop leaves everything behind its last write as it was. -/
theorem getElem?_pickLoop (count : ℕ) {i k : ℕ} {samples picked : List T}
    (hloop : pickLoop oversamplingRatio i count samples = some picked)
    (hbehind : i + count ≤ k) : picked[k]? = samples[k]? := by
  induction count generalizing i samples with
  | zero => rw [Option.some.inj hloop]
  | succ count ih =>
      rw [pickLoop] at hloop
      split at hloop
      next sample hsample =>
        rw [Option.ite_none_right_eq_some] at hloop
        rw [ih hloop.2 (by omega), List.getElem?_set_ne (by omega)]
      next => cases hloop

/-- Every round of the loop reads an existing position, at which the rounds before
it have not changed the sorted samples. -/
def ReadsSortedSamples (numSplitters oversamplingRatio : ℕ) (sorted : List T) : Prop :=
  ∀ i < numSplitters, oversamplingRatio * (i + 1) < sorted.length ∧
    ∀ samples, pickLoop oversamplingRatio 0 i sorted = some samples →
      samples[oversamplingRatio * (i + 1)]? = sorted[oversamplingRatio * (i + 1)]?

/-- A read is always ahead of the writes, so only the range of the reads matters. -/
theorem readsSortedSamples_iff {numSplitters : ℕ} {sorted : List T}
    (hratio : numSplitters ≠ 0 → 0 < oversamplingRatio) :
    ReadsSortedSamples numSplitters oversamplingRatio sorted ↔
      ∀ i < numSplitters, oversamplingRatio * (i + 1) < sorted.length := by
  constructor
  · intro hreads i hi
    exact (hreads i hi).1
  · intro hrange i hi
    apply And.intro (hrange i hi)
    intro samples hloop
    apply getElem?_pickLoop i hloop
    have hahead : i + 1 ≤ oversamplingRatio * (i + 1) :=
      Nat.le_mul_of_pos_left _ (hratio (by omega))
    omega

end Reads

/-! ## Number of samples -/

variable {p : ℕ} {T : Type}

/-- Number of ranks that have something to sort. -/
def ranksWithData (data : Fin p → List T) : ℕ :=
  (Finset.univ.filter fun rank => 0 < (data rank).length).card

theorem sum_oversamplingRatio (data : Fin p → List T) :
    ∑ rank, oversamplingRatio p (data rank).length =
      16 * Nat.log 2 p * p + ranksWithData data := by
  calc ∑ rank, oversamplingRatio p (data rank).length
    _ = ∑ _ : Fin p, 16 * Nat.log 2 p + ∑ rank, if 0 < (data rank).length then 1 else 0 :=
      Finset.sum_add_distrib
    _ = 16 * Nat.log 2 p * p + ranksWithData data := by
      rw [Finset.sum_const, Finset.card_univ, Fintype.card_fin, smul_eq_mul, mul_comm,
        ranksWithData, Finset.card_filter]

theorem ranksWithData_pos {data : Fin p → List T} {rank : Fin p}
    (hdata : 0 < (data rank).length) : 0 < ranksWithData data :=
  Finset.card_pos.mpr ⟨rank, Finset.mem_filter.mpr ⟨Finset.mem_univ rank, hdata⟩⟩

variable [Inhabited T] {comp : T → T → Prop}

theorem length_localSamples (stdSample : StdSample T) (oversamplingRatio : ℕ)
    (data : List T) : (localSamples stdSample oversamplingRatio data).length =
      oversamplingRatio := by
  have hsample := stdSample.length_sample data oversamplingRatio
  rw [localSamples, Collectives.overwrite, List.length_append, List.length_drop,
    List.length_replicate]
  omega

/-- All ranks together contribute as many samples as their ratios say. -/
theorem length_globalSamples (outcomes : Fin p → Outcomes comp) (data : Fin p → List T) :
    (globalSamples outcomes data).length =
      ∑ rank, oversamplingRatio p (data rank).length := by
  rw [globalSamples, List.length_flatMap, Fin.sum_univ_def]
  simp only [samplesOf, length_localSamples]

/-! ## Range of the reads -/

/-- The last read of a rank without data is inside. -/
theorem reads_of_no_data {ratio samples i : ℕ} (hpos : 0 < ratio) (hi : i < p - 1)
    (hsamples : ratio * p ≤ samples) : ratio * (i + 1) < samples :=
  (Nat.mul_lt_mul_of_pos_left (by omega) hpos).trans_le hsamples

/-- The last read of a rank with data decides about all its reads. -/
theorem reads_of_data_iff {ratio withData : ℕ} (hsplitters : p - 1 ≠ 0) :
    (∀ i < p - 1, (ratio + 1) * (i + 1) < ratio * p + withData) ↔ p ≤ ratio + withData := by
  obtain ⟨last, rfl⟩ : ∃ last, p = last + 2 := ⟨p - 2, by omega⟩
  constructor
  · intro hreads
    have hlast := hreads last (by omega)
    rw [show (ratio + 1) * (last + 1) = ratio * (last + 1) + (last + 1) by ring,
      show ratio * (last + 2) = ratio * (last + 1) + ratio by ring] at hlast
    omega
  · intro hle i hi
    calc (ratio + 1) * (i + 1)
      _ ≤ (ratio + 1) * (last + 1) := Nat.mul_le_mul_left _ (by omega)
      _ = ratio * (last + 1) + (last + 1) := by ring
      _ < ratio * (last + 1) + (ratio + withData) := by omega
      _ = ratio * (last + 2) + withData := by ring

/-- The reads of all ranks are inside the gathered samples if and only if there are
enough ranks with data. -/
theorem readsInRange_iff (outcomes : Fin p → Outcomes comp) (data : Fin p → List T) :
    ReadsInRange outcomes data ↔
      (∀ rank, data rank = []) ∨ p ≤ 16 * Nat.log 2 p + ranksWithData data := by
  rw [ReadsInRange, length_globalSamples, sum_oversamplingRatio]
  obtain hsingle | hsplitters := eq_or_ne (p - 1) 0
  · -- there are no splitters, and a rank with data counts itself
    apply iff_of_true
    · intro rank i hi
      omega
    · by_cases hempty : ∀ rank, data rank = []
      · exact Or.inl hempty
      · obtain ⟨rank, hdata⟩ := not_forall.mp hempty
        have := ranksWithData_pos (List.length_pos_iff.mpr hdata)
        omega
  · have hlog : 0 < 16 * Nat.log 2 p :=
      Nat.mul_pos (by decide) (Nat.log_pos (by decide) (by omega))
    constructor
    · intro hreads
      by_cases hempty : ∀ rank, data rank = []
      · exact Or.inl hempty
      · obtain ⟨rank, hdata⟩ := not_forall.mp hempty
        have hrank := hreads rank
        rw [oversamplingRatio, if_pos (List.length_pos_iff.mpr hdata)] at hrank
        exact Or.inr ((reads_of_data_iff hsplitters).mp hrank)
    · intro henough rank
      rw [oversamplingRatio]
      split
      next hdata =>
        apply (reads_of_data_iff hsplitters).mpr
        apply henough.resolve_left
        intro hempty
        rw [hempty rank] at hdata
        exact absurd hdata (lt_irrefl 0)
      next =>
        intro i hi
        exact reads_of_no_data hlog hi (Nat.le_add_right _ _)

/-! ## Main result -/

/-- Splitter selection stays inside the samples: on every rank, every read of the loop
is inside the gathered samples and sees what sorting left there. -/
def SplittersInside (outcomes : Fin p → Outcomes comp) (data : Fin p → List T) : Prop :=
  (globalSamples outcomes data).length = ∑ rank, oversamplingRatio p (data rank).length ∧
    ∀ rank, ReadsSortedSamples (p - 1) (oversamplingRatio p (data rank).length)
      ((outcomes rank).sortSamples.sort (globalSamples outcomes data))

theorem splittersInside_iff_readsInRange (outcomes : Fin p → Outcomes comp)
    (data : Fin p → List T) : SplittersInside outcomes data ↔ ReadsInRange outcomes data := by
  rw [SplittersInside, ReadsInRange, and_iff_right (length_globalSamples outcomes data)]
  apply forall_congr'
  intro rank
  rw [readsSortedSamples_iff fun hsplitters => oversamplingRatio_pos hsplitters _,
    ((outcomes rank).sortSamples.perm _).length_eq]

/-- Splitter selection stays inside the samples if and only if no rank has data, or
enough ranks have data to make up for the larger distance of their reads. -/
theorem splittersInside_iff (outcomes : Fin p → Outcomes comp) (data : Fin p → List T) :
    SplittersInside outcomes data ↔
      (∀ rank, data rank = []) ∨ p ≤ 16 * Nat.log 2 p + ranksWithData data :=
  (splittersInside_iff_readsInRange outcomes data).trans (readsInRange_iff outcomes data)

/-- 98 ranks, of which the first has one element: its last read is at position
97 * 97, right behind the samples. -/
theorem splittersInside_one_rank : ¬ SplittersInside
    (fun _ : Fin 98 => (⟨firstSamples, stableSort tensLess, stableSort tensLess⟩ :
      Outcomes tensLess))
    (fun rank => if rank = 0 then [5] else []) := by
  have hlog : Nat.log 2 98 = 6 :=
    Nat.log_eq_of_pow_le_of_lt_pow (by decide) (by decide)
  have hcount : ranksWithData (fun rank : Fin 98 => if rank = 0 then [5] else []) = 1 := by
    rw [ranksWithData, Finset.card_eq_one]
    use 0
    ext rank
    by_cases hrank : rank = 0 <;> simp [hrank]
  rw [splittersInside_iff_readsInRange, readsInRange_iff, hlog, hcount]
  rintro (hempty | hle)
  · exact absurd (hempty 0) (by simp)
  · exact absurd hle (by decide)

/-! ## Equivalent elements -/

section Groups

variable [DecidableRel comp] [IsStrictWeakOrder T comp]

/-- With enough ranks that have data, elements of different ranks differ after sample sort,
so equivalent elements get to the same rank. -/
theorem sort_separates (outcomes : Fin p → Outcomes comp) (data : Fin p → List T)
    (henough : p ≤ 16 * Nat.log 2 p + ranksWithData data) :
    (∀ result, sort comp outcomes data = some result →
      ∀ r s, r < s → ∀ x ∈ result r, ∀ y ∈ result s, comp x y) ∧
    (16 * Nat.log 2 p * p + ranksWithData data < 2 ^ 31 →
      ((List.finRange p).flatMap data).length < 2 ^ 31 →
      ∃ result, sort comp outcomes data = some result) := by
  have hrange : ReadsInRange outcomes data := (readsInRange_iff outcomes data).mpr (Or.inr henough)
  constructor
  · intro result hresult r s hlt x hx y hy
    obtain ⟨block, hsplit, rfl⟩ := sort_cases hrange hresult
    exact hsplit.separates hlt hx hy
  · intro hsamples htotal
    rw [← sum_oversamplingRatio, ← length_globalSamples outcomes] at hsamples
    exact sort_eq_some hrange hsamples htotal

/-- Two ranks with data, among it equivalent elements on both. -/
theorem sort_separates_twoRanks :
    let data : Fin 2 → List ℕ := fun rank => if rank = 0 then [25, 7, 21] else [23, 3, 40]
    ∃ result, sort tensLess twoRanksOutcomes data = some result ∧
      ∀ r s, r < s → ∀ x ∈ result r, ∀ y ∈ result s, tensLess x y := by
  intro data
  have hcount : ranksWithData data = 2 := by decide
  have hlog : Nat.log 2 2 = 1 := Nat.log_eq_of_pow_le_of_lt_pow (by decide) (by decide)
  obtain ⟨hseparates, hreturns⟩ := sort_separates twoRanksOutcomes data (by omega)
  obtain ⟨result, hresult⟩ := hreturns (by rw [hcount, hlog]; decide) (by decide)
  exact ⟨result, hresult, hseparates result hresult⟩

end Groups

end MpiBindings.SampleSort

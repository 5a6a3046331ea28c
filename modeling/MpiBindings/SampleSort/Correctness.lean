import MpiBindings.SampleSort.Sort
import Mathlib.Data.Multiset.Bind

/-!
# Correctness of sample sort

Ranks with data pick splitters at the same positions of sorted permutations of
the samples, so their splitters are equivalent although they need not be equal.
Ranks without data may pick others, but have nothing to distribute.
-/

namespace MpiBindings.SampleSort

open Collectives CountingSort WeakOrder

/-! ## Splitters -/

section Splitters

variable {T : Type} {oversamplingRatio : ℕ}

/-- Splitters are read from positions that were not overwritten. -/
theorem pickLoop_eq_some (hratio : 0 < oversamplingRatio) {sorted : List T} (count : ℕ)
    {i : ℕ} {samples : List T} (hlength : samples.length = sorted.length)
    (hkept : ∀ k, i ≤ k → samples[k]? = sorted[k]?)
    (hrange : ∀ j < i + count, oversamplingRatio * (j + 1) < sorted.length)
    (hpicked : ∀ j < i, samples[j]? = sorted[oversamplingRatio * (j + 1)]?) :
    ∃ picked, pickLoop oversamplingRatio i count samples = some picked ∧
      picked.length = sorted.length ∧
      ∀ j < i + count, picked[j]? = sorted[oversamplingRatio * (j + 1)]? := by
  induction count generalizing i samples with
  | zero => exact ⟨samples, rfl, hlength, hpicked⟩
  | succ count ih =>
      have hread := hrange i (by omega)
      have hle : i + 1 ≤ oversamplingRatio * (i + 1) := Nat.le_mul_of_pos_left _ hratio
      have hsample : samples[oversamplingRatio * (i + 1)]? =
          some (sorted[oversamplingRatio * (i + 1)]) := by
        rw [hkept _ (by omega), List.getElem?_eq_getElem hread]
      obtain ⟨picked, hloop, hlength', hall⟩ := @ih (i + 1)
        (samples.set i sorted[oversamplingRatio * (i + 1)]) (by rw [List.length_set, hlength])
        (fun k hk => by rw [List.getElem?_set_ne (by omega), hkept k (by omega)])
        (fun j hj => hrange j (by omega))
        (fun j hj => by
          obtain rfl | hne := eq_or_ne j i
          · rw [List.getElem?_set_self (by omega), List.getElem?_eq_getElem hread]
          · rw [List.getElem?_set_ne hne.symm, hpicked j (by omega)])
      refine ⟨picked, ?_, hlength', fun j hj => hall j (by omega)⟩
      rw [pickLoop, hsample]
      simp only [hlength, if_pos (by omega : i < sorted.length), hloop]

variable [Inhabited T] {comp : T → T → Prop}

/-- The splitters of a rank: samples at the multiples of the oversampling ratio. -/
theorem pickSplitters_eq_some (stdSort : StdSort comp) {numSplitters : ℕ}
    {globalSamples : List T} (hratio : numSplitters ≠ 0 → 0 < oversamplingRatio)
    (hrange : ∀ i < numSplitters, oversamplingRatio * (i + 1) < globalSamples.length) :
    ∃ splitters,
      pickSplitters stdSort numSplitters oversamplingRatio globalSamples = some splitters ∧
        splitters.length = numSplitters ∧
        ∀ i < numSplitters,
          splitters[i]? = (stdSort.sort globalSamples)[oversamplingRatio * (i + 1)]? := by
  obtain rfl | hnonzero := eq_or_ne numSplitters 0
  · exact ⟨_, rfl, length_resizeVector _ _ _, fun i hi => absurd hi (Nat.not_lt_zero i)⟩
  have hlength := (stdSort.perm globalSamples).length_eq
  obtain ⟨picked, hloop, hpickedLength, hpicked⟩ :=
    pickLoop_eq_some (hratio hnonzero) numSplitters
      (Eq.refl (stdSort.sort globalSamples).length) (fun _ _ => rfl)
      (fun j hj => by rw [hlength]; exact hrange j (by omega))
      (fun j hj => absurd hj (Nat.not_lt_zero j))
  rw [Nat.zero_add] at hpicked
  refine ⟨_, by rw [pickSplitters, hloop, Option.map_some], length_resizeVector _ _ _,
    fun i hi => ?_⟩
  have hread : i < picked.length := by
    have hle := Nat.le_mul_of_pos_left (i + 1) (hratio hnonzero)
    have := hrange i hi
    omega
  rw [← hpicked i hi, resizeVector, List.getElem?_append_left (by simp; omega),
    List.getElem?_take, if_pos hi]

omit [Inhabited T] in
/-- Splitters are sorted, so that an element can be searched among them. -/
theorem splitters_sorted [IsStrictWeakOrder T comp] {stdSort : StdSort comp}
    {globalSamples splitters : List T}
    (hread : ∀ i < splitters.length,
      splitters[i]? = (stdSort.sort globalSamples)[oversamplingRatio * (i + 1)]?) :
    SortedBy comp splitters := by
  apply sortedBy_of_getElem?
  intro i j a b hlt ha hb
  have hi := (List.getElem?_eq_some_iff.mp ha).1
  have hj := (List.getElem?_eq_some_iff.mp hb).1
  rw [hread i hi] at ha
  rw [hread j hj] at hb
  exact (stdSort.sorted globalSamples).not_lt_of_le
    (Nat.mul_le_mul_left _ (by omega)) ha hb

omit [Inhabited T] in
/-- Ranks that read at the same position read equivalent splitters. -/
theorem not_lt_of_read [IsStrictWeakOrder T comp] {stdSort stdSort' : StdSort comp}
    {globalSamples : List T} {position : ℕ} {a b : T}
    (ha : (stdSort.sort globalSamples)[position]? = some a)
    (hb : (stdSort'.sort globalSamples)[position]? = some b) : ¬ comp b a :=
  (stdSort'.sorted _).not_lt_of_perm (stdSort.sorted _)
    ((stdSort'.perm _).trans (stdSort.perm _).symm) hb ha

end Splitters

/-! ## Buckets -/

section Buckets

variable {p : ℕ} {T : Type} (comp : T → T → Prop) [DecidableRel comp]

/-- Bucket of an element: the number of splitters up to its upper bound. -/
def bucketOf (splitters : List T) (element : T) : ℕ :=
  (splitters.takeWhile fun splitter => ¬ comp element splitter).length

/-- Elements of one bucket. -/
def bucket (splitters data : List T) (index : ℕ) : List T :=
  withKey (data.map fun element => (bucketOf comp splitters element, element)) index

theorem bucketOf_le (splitters : List T) (element : T) :
    bucketOf comp splitters element ≤ splitters.length :=
  (List.takeWhile_prefix _).length_le

variable {comp}

theorem mem_bucket {splitters data : List T} {index : ℕ} {element : T} :
    element ∈ bucket comp splitters data index ↔
      element ∈ data ∧ bucketOf comp splitters element = index := by
  simp [bucket, withKey]

theorem upperBound_eq_some [IsStrictWeakOrder T comp] {splitters : List T}
    (hsorted : SortedBy comp splitters) (element : T) :
    upperBound comp splitters element = some (bucketOf comp splitters element) :=
  if_pos fun _ hgreater => hsorted.lt_of_mem_dropWhile hgreater

theorem fillBuckets_eq_some [IsStrictWeakOrder T comp] {splitters : List T}
    (hsorted : SortedBy comp splitters) (data : List T) (before : ℕ → List T) :
    fillBuckets comp splitters data ((List.range (splitters.length + 1)).map before) =
      some ((List.range (splitters.length + 1)).map fun index =>
        before index ++ bucket comp splitters data index) := by
  induction data generalizing before with
  | nil => simp [fillBuckets, bucket]
  | cons element data ih =>
      have hbound := bucketOf_le comp splitters element
      rw [fillBuckets, upperBound_eq_some hsorted]
      simp only [Option.bind_eq_bind, Option.bind_some, List.getElem?_map,
        List.getElem?_range (Nat.lt_succ_of_le hbound), Option.map_some]
      rw [set_map_range, ih]
      congr 1
      refine List.map_congr_left fun index _ => ?_
      rw [bucket, bucket, List.map_cons, withKey_cons]
      obtain rfl | hne := eq_or_ne index (bucketOf comp splitters element)
      · simp
      · rw [Function.update_of_ne hne, if_neg hne.symm]

theorem buildBuckets_eq_some [IsStrictWeakOrder T comp] {splitters : List T}
    (hsorted : SortedBy comp splitters) (data : List T) :
    buildBuckets comp data splitters =
      some ((List.range (splitters.length + 1)).map (bucket comp splitters data)) := by
  have hfill := fillBuckets_eq_some hsorted data fun _ => []
  rw [List.map_const', List.length_range] at hfill
  exact hfill

/-- The buckets hold exactly the elements. -/
theorem bucket_perm (splitters data : List T) :
    ((List.range (splitters.length + 1)).flatMap (bucket comp splitters data)).Perm data := by
  have hkeys : ∀ item ∈ data.map fun element => (bucketOf comp splitters element, element),
      item.1 ∈ List.range (splitters.length + 1) := by
    simpa using fun element _ => Nat.lt_succ_of_le (bucketOf_le comp splitters element)
  have hperm := flatMap_withKey_values_perm List.nodup_range hkeys
  rw [List.map_map, Function.comp_def, List.map_id'] at hperm
  exact hperm

/-- Elements in different buckets are ordered, also if the splitters of their ranks are
only equivalent. -/
theorem lt_of_buckets [IsStrictWeakOrder T comp] {splitters splitters' : List T} {x y : T}
    (hequivalent : ∀ (i : ℕ) (a b : T), splitters[i]? = some a → splitters'[i]? = some b →
      ¬ comp b a)
    (hlength : splitters.length = splitters'.length)
    (hlt : bucketOf comp splitters x < bucketOf comp splitters' y) : comp x y := by
  have hindex := hlt.trans_le (bucketOf_le comp splitters' y)
  have hindex' : bucketOf comp splitters x < splitters.length := hlength ▸ hindex
  have hx := List.getElem?_eq_getElem hindex'
  have hy := List.getElem?_eq_getElem hindex
  have hbelow : comp x splitters[bucketOf comp splitters x] := lt_of_takeWhile hx
  have habove : ¬ comp y splitters'[bucketOf comp splitters x] :=
    not_lt_of_lt_takeWhile hlt hy
  refine lt_of_lt_of_not_lt hbelow fun hyx => habove ?_
  exact lt_of_lt_of_not_lt hyx (hequivalent _ _ _ hx hy)

end Buckets

/-! ## Blocks -/

section Blocks

variable {p : ℕ} {T : Type}

/-- The blocks that the ranks send each other: every rank cuts its own data, and all of them
at the same places of the order. -/
structure SplitData (comp : T → T → Prop) (data : Fin p → List T)
    (block : Fin p → Fin p → List T) : Prop where
  perm : ∀ rank, (consecutive block rank).flatten.Perm (data rank)
  separated : ∀ left right (r s : Fin p), r < s →
    ∀ x ∈ block left r, ∀ y ∈ block right s, comp x y

variable {comp : T → T → Prop} {data : Fin p → List T} {block : Fin p → Fin p → List T}

/-- Buckets by splitters that are equivalent on all ranks with data. -/
theorem exists_splitData [IsStrictWeakOrder T comp] [DecidableRel comp]
    {splitters : Fin p → List T} (hlength : ∀ rank, (splitters rank).length = p - 1)
    (hsorted : ∀ rank, SortedBy comp (splitters rank))
    (hequivalent : ∀ left right, data left ≠ [] → data right ≠ [] →
      ∀ (i : ℕ) (a b : T), (splitters left)[i]? = some a → (splitters right)[i]? = some b →
        ¬ comp b a) :
    ∃ block, (allRanks fun rank => buildBuckets comp (data rank) (splitters rank)) =
        some (consecutive block) ∧ SplitData comp data block := by
  have hsize : ∀ rank : Fin p, (splitters rank).length + 1 = p := fun rank => by
    rw [hlength, Nat.sub_add_cancel rank.pos]
  let block (sender receiver : Fin p) : List T :=
    bucket comp (splitters sender) (data sender) receiver
  have hblocks : ∀ rank, (List.range ((splitters rank).length + 1)).map
      (bucket comp (splitters rank) (data rank)) = consecutive block rank := fun rank => by
    rw [hsize rank, map_range]
    rfl
  refine ⟨block, allRanks_eq_some.mpr fun rank => ?_, fun rank => ?_, ?_⟩
  · rw [buildBuckets_eq_some (hsorted rank), hblocks]
  · rw [← hblocks, ← List.flatMap_def]
    exact bucket_perm (splitters rank) (data rank)
  · intro left right r s hlt x hx y hy
    obtain ⟨hxdata, hxbucket⟩ := mem_bucket.mp hx
    obtain ⟨hydata, hybucket⟩ := mem_bucket.mp hy
    refine lt_of_buckets
      (hequivalent left right (List.ne_nil_of_mem hxdata) (List.ne_nil_of_mem hydata))
      ((hlength left).trans (hlength right).symm) ?_
    rw [hxbucket, hybucket]
    exact hlt

theorem flatMap_comm_perm {α β γ : Type*} (left : List α) (right : List β)
    (f : α → β → List γ) :
    (left.flatMap fun a => right.flatMap fun b => f a b).Perm
      (right.flatMap fun b => left.flatMap fun a => f a b) := by
  have hbind := Multiset.bind_bind (left : Multiset α) (right : Multiset β)
    (f := fun a b => (f a b : Multiset γ))
  simpa only [Multiset.coe_bind, Multiset.coe_eq_coe] using hbind

/-- The blocks of all ranks together are received as they were sent. -/
theorem SplitData.received_perm (hsplit : SplitData comp data block) :
    ((List.finRange p).flatMap (received (.world p) block)).Perm
      ((List.finRange p).flatMap data) :=
  calc ((List.finRange p).flatMap fun rank =>
        (List.finRange p).flatMap fun sender => block sender rank)
    List.Perm _ ((List.finRange p).flatMap fun sender =>
        (List.finRange p).flatMap (block sender)) := flatMap_comm_perm _ _ _
    List.Perm _ ((List.finRange p).flatMap data) :=
      List.Perm.flatMap_left _ fun rank _ => by
        rw [List.flatMap_def]
        exact hsplit.perm rank

theorem length_le_flatMap (part : Fin p → List T) (rank : Fin p) :
    (part rank).length ≤ ((List.finRange p).flatMap part).length :=
  (List.sublist_flatten_of_mem (List.mem_map_of_mem (List.mem_finRange rank))).length_le

theorem SplitData.sent_lt (hsplit : SplitData comp data block)
    (htotal : ((List.finRange p).flatMap data).length < 2 ^ 31) (rank : Fin p) :
    (consecutive block rank).flatten.length < 2 ^ 31 := by
  rw [(hsplit.perm rank).length_eq]
  exact (length_le_flatMap data rank).trans_lt htotal

theorem SplitData.received_lt (hsplit : SplitData comp data block)
    (htotal : ((List.finRange p).flatMap data).length < 2 ^ 31) (rank : Fin p) :
    (received (.world p) block rank).length < 2 ^ 31 := by
  rw [← hsplit.received_perm.length_eq] at htotal
  exact (length_le_flatMap _ rank).trans_lt htotal

/-- What the ranks return after they exchanged the blocks. -/
def sortedBlocks (outcomes : Fin p → Outcomes comp) (block : Fin p → Fin p → List T)
    (rank : Fin p) : List T :=
  (outcomes rank).sortData.sort (received (.world p) block rank)

variable {outcomes : Fin p → Outcomes comp}

/-- Elements of different ranks differ, since equivalent elements get to one rank. -/
theorem SplitData.separates (hsplit : SplitData comp data block) {r s : Fin p} (hlt : r < s)
    {x y : T} (hx : x ∈ sortedBlocks outcomes block r) (hy : y ∈ sortedBlocks outcomes block s) :
    comp x y := by
  obtain ⟨left, -, hleft⟩ :=
    List.mem_flatMap.mp (((outcomes r).sortData.perm _).mem_iff.mp hx)
  obtain ⟨right, -, hright⟩ :=
    List.mem_flatMap.mp (((outcomes s).sortData.perm _).mem_iff.mp hy)
  exact hsplit.separated left right r s hlt x hleft y hright

/-- Sorted blocks are sorted on every rank and across the ranks, and hold the data. -/
theorem SplitData.sorts [IsStrictWeakOrder T comp] (hsplit : SplitData comp data block) :
    (∀ rank, SortedBy comp (sortedBlocks outcomes block rank)) ∧
      (∀ r s, r < s → ∀ x ∈ sortedBlocks outcomes block r,
        ∀ y ∈ sortedBlocks outcomes block s, ¬ comp y x) ∧
      ((List.finRange p).flatMap (sortedBlocks outcomes block)).Perm
        ((List.finRange p).flatMap data) := by
  refine ⟨fun rank => (outcomes rank).sortData.sorted _, ?_, ?_⟩
  · intro r s hlt x hx y hy hyx
    have hxy : comp x y := hsplit.separates hlt hx hy
    exact Std.Irrefl.irrefl x (IsTrans.trans x y x hxy hyx)
  · exact (List.Perm.flatMap_left _ fun rank _ => (outcomes rank).sortData.perm _).trans
      hsplit.received_perm

end Blocks

/-! ## Main result -/

section Main

variable {p : ℕ} {T : Type} [Inhabited T] {comp : T → T → Prop}

/-- The samples that a rank picks as splitters exist. -/
def ReadsInRange (outcomes : Fin p → Outcomes comp) (data : Fin p → List T) : Prop :=
  ∀ rank, ∀ i < p - 1,
    oversamplingRatio p (data rank).length * (i + 1) < (globalSamples outcomes data).length

theorem oversamplingRatio_pos (hsplitters : p - 1 ≠ 0) (dataSize : ℕ) :
    0 < oversamplingRatio p dataSize := by
  have hlog : 0 < Nat.log 2 p := Nat.log_pos (by decide) (by omega)
  rw [oversamplingRatio]
  omega

omit [Inhabited T] in
/-- Ranks with data pick their splitters at the same positions. -/
theorem oversamplingRatio_eq {left right : List T} (hleft : left ≠ []) (hright : right ≠ []) :
    oversamplingRatio p left.length = oversamplingRatio p right.length := by
  rw [oversamplingRatio, oversamplingRatio, if_pos (List.length_pos_iff.mpr hleft),
    if_pos (List.length_pos_iff.mpr hright)]

/-- Splitters of one rank with the facts that sorting needs. -/
theorem exists_splitters [IsStrictWeakOrder T comp] {outcomes : Fin p → Outcomes comp}
    {data : Fin p → List T} (hrange : ReadsInRange outcomes data) (rank : Fin p) :
    ∃ splitters,
      pickSplitters (outcomes rank).sortSamples (p - 1)
        (oversamplingRatio p (data rank).length) (globalSamples outcomes data) =
          some splitters ∧
      splitters.length = p - 1 ∧ SortedBy comp splitters ∧
      ∀ i < p - 1, splitters[i]? =
        ((outcomes rank).sortSamples.sort (globalSamples outcomes data))[
          oversamplingRatio p (data rank).length * (i + 1)]? := by
  obtain ⟨splitters, hpick, hlength, hread⟩ :=
    pickSplitters_eq_some (outcomes rank).sortSamples
      (fun hsplitters => oversamplingRatio_pos hsplitters _) (hrange rank)
  exact ⟨splitters, hpick, hlength, splitters_sorted (by rwa [hlength]), hread⟩

variable [DecidableRel comp] [IsStrictWeakOrder T comp]

/-- Once the samples are gathered, all ranks have blocks to exchange. -/
theorem exists_blocks {outcomes : Fin p → Outcomes comp} {data : Fin p → List T}
    (hrange : ReadsInRange outcomes data) :
    ∃ splitters block,
      (allRanks fun rank => pickSplitters (outcomes rank).sortSamples (p - 1)
        (oversamplingRatio p (data rank).length) (globalSamples outcomes data)) =
          some splitters ∧
      (allRanks fun rank => buildBuckets comp (data rank) (splitters rank)) =
        some (consecutive block) ∧
      SplitData comp data block := by
  choose splitters hpick hlength hsorted hread using exists_splitters hrange
  have hequivalent : ∀ left right, data left ≠ [] → data right ≠ [] → ∀ (i : ℕ) (a b : T),
      (splitters left)[i]? = some a → (splitters right)[i]? = some b → ¬ comp b a := by
    intro left right hleft hright i a b ha hb
    have hi := (List.getElem?_eq_some_iff.mp ha).1
    rw [hlength left] at hi
    rw [hread left i hi, oversamplingRatio_eq hleft hright] at ha
    rw [hread right i hi] at hb
    exact not_lt_of_read ha hb
  obtain ⟨block, hbuild, hsplit⟩ := exists_splitData hlength hsorted hequivalent
  exact ⟨splitters, block, allRanks_eq_some.mpr hpick, hbuild, hsplit⟩

/-- A sort that returns has exchanged and sorted its blocks. -/
theorem sort_cases {outcomes : Fin p → Outcomes comp} {data : Fin p → List T}
    (hrange : ReadsInRange outcomes data) {result : Fin p → List T}
    (hresult : sort comp outcomes data = some result) :
    ∃ block, SplitData comp data block ∧ result = sortedBlocks outcomes block := by
  obtain ⟨splitters, block, hpick, hbuild, hsplit⟩ := exists_blocks hrange
  obtain ⟨gathered, hgathered, hresult⟩ := Option.bind_eq_some_iff.mp hresult
  have hsamples : gathered.recvBuf = fun _ => globalSamples outcomes data :=
    (allgatherv_cases hgathered).2
  simp only [hsamples, hpick, hbuild, Option.bind_eq_bind, Option.bind_some] at hresult
  obtain ⟨exchanged, hexchanged, hresult⟩ := Option.bind_eq_some_iff.mp hresult
  rw [alltoallvNested_cases hexchanged] at hresult
  exact ⟨block, hsplit, (Option.some.inj hresult).symm⟩

/-- Sample sort returns if all sizes are machine integers. -/
theorem sort_eq_some {outcomes : Fin p → Outcomes comp} {data : Fin p → List T}
    (hrange : ReadsInRange outcomes data) (hsamples : (globalSamples outcomes data).length < 2 ^ 31)
    (htotal : ((List.finRange p).flatMap data).length < 2 ^ 31) :
    ∃ result, sort comp outcomes data = some result := by
  obtain ⟨splitters, block, hpick, hbuild, hsplit⟩ := exists_blocks hrange
  have hgathered := @allgatherv_message _ (.world p) _ (samplesOf outcomes data) _
    fun _ => hsamples
  have hrecvBuf : received (.world p) (toAll (samplesOf outcomes data)) =
      fun _ => globalSamples outcomes data := rfl
  rw [hrecvBuf] at hgathered
  have hexchanged := alltoallvNested_eq_some (hsplit.sent_lt htotal) (hsplit.received_lt htotal)
  refine ⟨sortedBlocks outcomes block, ?_⟩
  simp only [sort, hgathered, hpick, hbuild, hexchanged, Option.bind_eq_bind, Option.bind_some]
  rfl

/-- Whenever sample sort returns, it leaves sorted data on every rank, ordered across the
ranks, that is a permutation of the input.  It does so if all sizes are machine integers. -/
theorem sort_sorts (outcomes : Fin p → Outcomes comp) (data : Fin p → List T)
    (hrange : ReadsInRange outcomes data) :
    (∀ result, sort comp outcomes data = some result →
      (∀ rank, SortedBy comp (result rank)) ∧
      (∀ r s, r < s → ∀ x ∈ result r, ∀ y ∈ result s, ¬ comp y x) ∧
      ((List.finRange p).flatMap result).Perm ((List.finRange p).flatMap data)) ∧
    ((globalSamples outcomes data).length < 2 ^ 31 →
      ((List.finRange p).flatMap data).length < 2 ^ 31 →
      ∃ result, sort comp outcomes data = some result) := by
  refine ⟨fun result hresult => ?_, sort_eq_some hrange⟩
  obtain ⟨block, hsplit, rfl⟩ := sort_cases hrange hresult
  exact hsplit.sorts

/-- Sampling that takes the first elements. -/
def firstSamples : StdSample T where
  sample data n := data.take n
  sublist data n := List.take_sublist n data
  length_sample _ _ := List.length_take

/-- Sorting that keeps the order of equivalent elements. -/
def stableSort (comp : T → T → Prop) [DecidableRel comp] [IsStrictWeakOrder T comp] :
    StdSort comp where
  sort data := data.mergeSort fun a b => ¬ comp b a
  perm _ := List.mergeSort_perm _ _
  sorted data := by
    have htrans : ∀ a b c : T, decide (¬ comp b a) = true → decide (¬ comp c b) = true →
        decide (¬ comp c a) = true := by
      simp only [decide_eq_true_eq]
      exact fun a b c hab hbc hca => hbc (lt_of_lt_of_not_lt hca hab)
    have htotal : ∀ a b : T, (decide (¬ comp b a) || decide (¬ comp a b)) = true := by
      simp only [Bool.or_eq_true, decide_eq_true_eq]
      intro a b
      by_contra hboth
      obtain ⟨hab, hba⟩ := not_or.mp hboth
      exact Std.Irrefl.irrefl a (IsTrans.trans a b a (not_not.mp hba) (not_not.mp hab))
    simpa [SortedBy] using List.pairwise_mergeSort htrans htotal data

/-- Sorting that reverses the order of equivalent elements. -/
def reversingSort (comp : T → T → Prop) [DecidableRel comp] [IsStrictWeakOrder T comp] :
    StdSort comp where
  sort data := (stableSort comp).sort data.reverse
  perm data := ((stableSort comp).perm _).trans data.reverse_perm
  sorted _ := (stableSort comp).sorted _

/-- Numbers compared by all but their last digit. -/
def tensLess (a b : ℕ) : Prop := a / 10 < b / 10

instance : DecidableRel tensLess := fun a b => inferInstanceAs (Decidable (a / 10 < b / 10))

instance : IsStrictWeakOrder ℕ tensLess where
  irrefl a := lt_irrefl (a / 10)
  trans _ _ _ := lt_trans
  incomp_trans a b c := by
    simp only [tensLess]
    omega

/-- The two ranks order equivalent samples differently. -/
def twoRanksOutcomes : Fin 2 → Outcomes tensLess
  | 0 => ⟨firstSamples, stableSort tensLess, stableSort tensLess⟩
  | 1 => ⟨firstSamples, reversingSort tensLess, stableSort tensLess⟩

theorem sort_sorts_twoRanks :
    let data : Fin 2 → List ℕ := fun rank => if rank = 0 then [25, 7, 21] else [23, 3, 40]
    ∃ result, sort tensLess twoRanksOutcomes data = some result ∧
      (∀ rank, SortedBy tensLess (result rank)) ∧
      (∀ r s, r < s → ∀ x ∈ result r, ∀ y ∈ result s, ¬ tensLess y x) ∧
      ((List.finRange 2).flatMap result).Perm ((List.finRange 2).flatMap data) := by
  intro data
  have hrange : ReadsInRange twoRanksOutcomes data := by
    rw [ReadsInRange]
    decide +kernel
  obtain ⟨hsorts, hreturns⟩ := sort_sorts twoRanksOutcomes data hrange
  obtain ⟨result, hresult⟩ := hreturns (by decide +kernel) (by decide)
  exact ⟨result, hresult, hsorts result hresult⟩

end Main

end MpiBindings.SampleSort

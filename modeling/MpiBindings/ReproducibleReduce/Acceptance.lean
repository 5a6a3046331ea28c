import MpiBindings.ReproducibleReduce.Correctness

/-!
# Which distributions are accepted

`make_reproducible_comm` only compares neighbouring entries of its map of region
starts.  This file proves that these comparisons accept exactly the distributions
whose regions tile the global array, and that they never read the count of the
guardian: an entry behind the guardian would have to hold elements that the
regions in front of it already account for.
-/

namespace MpiBindings.ReproducibleReduce

open OrderedMap

/-! ## The verification with its outcomes -/

/-- How the verification loop ends. -/
inductive VerifyOutcome where
  | passed
  | assertionFailed
  /-- The count of a rank that does not exist was read. -/
  | readBehindCounts
deriving DecidableEq

/-- The verification loop of `make_reproducible_comm`. -/
def verifyOutcome (sendCounts : List ℤ) : List (ℕ × ℕ) → VerifyOutcome
  | [] => .passed
  | [_] => .passed
  | (regionStart, rank) :: (nextRegionStart, nextRank) :: rest =>
      match sendCounts[rank]? with
      | none => .readBehindCounts
      | some count =>
          if 0 ≤ count ∧ regionStart + count.toNat = nextRegionStart then
            verifyOutcome sendCounts ((nextRegionStart, nextRank) :: rest)
          else .assertionFailed

/-- The map of region starts, if the assertions in front of the verification loop
hold. -/
def startIndicesToVerify (commSize : ℕ) (sendCounts recvDispls : List ℤ) :
    Option (OrderedMap ℕ ℕ) := do
  if sendCounts.length ≠ commSize then none
  else if recvDispls.length ≠ commSize then none
  else
    let length ← globalArrayLength sendCounts
    let regions ← addRegions sendCounts recvDispls (List.range commSize) empty
    let startIndices := insertOrAssign regions length commSize
    if startIndices.entries.head?.map (·.1) ≠ some 0 then none
    else some startIndices

section Outcomes

variable {sendCounts recvDispls : List ℤ} {commSize : ℕ}

theorem verifyRegions_eq_true_iff {entries : List (ℕ × ℕ)} :
    verifyRegions sendCounts entries = true ↔ verifyOutcome sendCounts entries = .passed := by
  induction entries using verifyRegions.induct sendCounts with
  | case1 => simp [verifyRegions, verifyOutcome]
  | case2 entry => simp [verifyRegions, verifyOutcome]
  | case3 regionStart rank nextRegionStart nextRank rest hread =>
      simp [verifyRegions, verifyOutcome, hread]
  | case4 regionStart rank nextRegionStart nextRank rest count hread ih =>
      simp only [verifyRegions, verifyOutcome, hread, Bool.and_eq_true, decide_eq_true_eq, ih]
      by_cases hnext : 0 ≤ count ∧ regionStart + count.toNat = nextRegionStart <;> simp [hnext]

/-- The checks of `make_reproducible_comm` are those in front of the loop and the
loop. -/
theorem checkedStartIndices_eq_some_iff {startIndices : OrderedMap ℕ ℕ} :
    checkedStartIndices commSize sendCounts recvDispls = some startIndices ↔
      startIndicesToVerify commSize sendCounts recvDispls = some startIndices ∧
        verifyOutcome sendCounts startIndices.entries = .passed := by
  rw [← verifyRegions_eq_true_iff]
  simp only [checkedStartIndices, startIndicesToVerify]
  split_ifs with hcounts hdispls
  · simp
  · simp
  cases globalArrayLength sendCounts with
  | none => simp
  | some length =>
      cases addRegions sendCounts recvDispls (List.range commSize) empty with
      | none => simp
      | some regions =>
          simp only [Option.bind_eq_bind, Option.bind_some]
          split_ifs with hhead hverify
          · simp
          · simpa using fun heq => heq ▸ hverify
          · rw [Bool.not_eq_true] at hverify
            simpa using fun heq => heq ▸ hverify

end Outcomes

/-! ## Valid distributions -/

/-- Whether index `i` belongs to the region of a rank. -/
def InRegion (sendCounts recvDispls : List ℤ) (rank i : ℕ) : Prop :=
  displOf recvDispls rank ≤ i ∧ i < displOf recvDispls rank + countOf sendCounts rank

/-- Counts and displacements are not negative, and the regions of the ranks are
disjoint and make up the whole array. -/
structure ValidDistribution (commSize : ℕ) (sendCounts recvDispls : List ℤ) : Prop where
  counts_nonneg : ∀ count ∈ sendCounts, 0 ≤ count
  displs_nonneg : ∀ displ ∈ recvDispls, 0 ≤ displ
  disjoint : ∀ rank < commSize, ∀ other < commSize, ∀ i,
    InRegion sendCounts recvDispls rank i → InRegion sendCounts recvDispls other i →
    rank = other
  cover : ∀ i : ℕ, (i : ℤ) < sendCounts.sum ↔
    ∃ rank < commSize, InRegion sendCounts recvDispls rank i

/-! ## The guardian's count is not read -/

section Guardian

variable {sendCounts recvDispls : List ℤ} {commSize : ℕ}

/-- Where a count behind the counts is read, the regions in front of it follow one
another without gaps. -/
theorem verifyOutcome_readBehind {entries : List (ℕ × ℕ)} {start : ℕ}
    (hstart : entries.head?.map (·.1) = some start)
    (hread : verifyOutcome sendCounts entries = .readBehindCounts) :
    ∃ front guardian next rest, entries = front ++ guardian :: next :: rest ∧
      sendCounts.length ≤ guardian.2 ∧
      start + (front.map fun entry => countOf sendCounts entry.2).sum = guardian.1 := by
  induction entries generalizing start with
  | nil => cases hread
  | cons first entries ih =>
      cases entries with
      | nil => cases hread
      | cons second entries =>
          simp only [List.head?_cons, Option.map_some, Option.some.injEq] at hstart
          simp only [verifyOutcome] at hread
          cases hcount : sendCounts[first.2]? with
          | none =>
              exact ⟨[], first, second, entries, rfl, List.getElem?_eq_none_iff.mp hcount,
                by simpa using hstart.symm⟩
          | some count =>
              simp only [hcount] at hread
              split at hread
              · rename_i hnext
                have hsecond : (second :: entries).head?.map (·.1) = some second.1 := rfl
                obtain ⟨front, guardian, next, rest, hentries, hguardian, hsum⟩ :=
                  ih hsecond hread
                refine ⟨first :: front, guardian, next, rest, by rw [hentries]; rfl, hguardian, ?_⟩
                rw [List.map_cons, List.sum_cons, countOf, hcount, Option.getD_some]
                omega
              · cases hread

/-- What the assertions in front of the verification loop establish. -/
structure Verifiable (commSize : ℕ) (sendCounts recvDispls : List ℤ)
    (startIndices : OrderedMap ℕ ℕ) : Prop where
  length_counts : sendCounts.length = commSize
  length_displs : recvDispls.length = commSize
  counts_nonneg : ∀ rank < commSize, 0 ≤ sendCounts[rank]?.getD 0
  displs_nonneg : ∀ rank < commSize, 0 ≤ recvDispls[rank]?.getD 0
  first : startIndices.entries.head?.map (·.1) = some 0
  sum_lt : sendCounts.sum < 2 ^ 31
  entries : ∀ entry ∈ startIndices.entries, entry = (sendCounts.sum.toNat, commSize) ∨
    entry.2 < commSize ∧ 0 < countOf sendCounts entry.2 ∧ displOf recvDispls entry.2 = entry.1

theorem verifiable_of_startIndices {startIndices : OrderedMap ℕ ℕ}
    (hstart : startIndicesToVerify commSize sendCounts recvDispls = some startIndices) :
    Verifiable commSize sendCounts recvDispls startIndices := by
  simp only [startIndicesToVerify] at hstart
  split_ifs at hstart with hcountsLength hdisplsLength
  simp only [ne_eq, not_not] at hcountsLength hdisplsLength
  simp only [Option.bind_eq_bind, Option.bind_eq_some_iff] at hstart
  obtain ⟨n, hlength, regions, hregions, hstart⟩ := hstart
  split_ifs at hstart with hhead
  obtain rfl := Option.some.inj hstart
  simp only [ne_eq, not_not] at hhead
  obtain ⟨hstarts, hnonneg⟩ := addRegions_spec [] (by simp [RegionStarts]) hregions
  obtain ⟨-, hsumNonneg⟩ := toNat_sum_eq sendCounts
    fun rank hrank => (hnonneg rank (by simpa [hcountsLength] using hrank)).1
  obtain ⟨rfl, hlt⟩ := globalArrayLength_eq_some hsumNonneg hlength
  refine ⟨hcountsLength, hdisplsLength, fun rank hrank => (hnonneg rank (by simpa using hrank)).1,
    fun rank hrank => (hnonneg rank (by simpa using hrank)).2, hhead, hlt, fun entry hentry => ?_⟩
  obtain rfl | ⟨hentry, -⟩ := mem_insertOrAssign.mp hentry
  · exact Or.inl rfl
  · obtain ⟨hrank, hpos, hdispl⟩ := hstarts entry hentry
    exact Or.inr ⟨by simpa using hrank, hpos, hdispl⟩

/-- The regions in front of the guardian account for all elements, so no entry
follows it. -/
theorem verifyOutcome_ne_readBehind {startIndices : OrderedMap ℕ ℕ}
    (hverifiable : Verifiable commSize sendCounts recvDispls startIndices) :
    verifyOutcome sendCounts startIndices.entries ≠ .readBehindCounts := by
  intro hread
  obtain ⟨front, guardian, next, rest, hentries, hguardian, hsum⟩ :=
    verifyOutcome_readBehind hverifiable.first hread
  have hsorted := startIndices.sorted
  rw [hentries, List.pairwise_append, List.pairwise_cons] at hsorted
  obtain ⟨hfrontSorted, ⟨hbehind, -⟩, hfront⟩ := hsorted
  have hmem : ∀ entry ∈ front ++ guardian :: next :: rest,
      entry = (sendCounts.sum.toNat, commSize) ∨
        entry.2 < commSize ∧ 0 < countOf sendCounts entry.2 ∧
          displOf recvDispls entry.2 = entry.1 :=
    fun entry hentry => hverifiable.entries entry (hentries ▸ hentry)
  have hlength := hverifiable.length_counts
  have hguardianEq : guardian = (sendCounts.sum.toNat, commSize) :=
    (hmem guardian (by simp)).resolve_right fun hrank => by omega
  have hregion : ∀ entry ∈ front ++ [next], entry.2 < commSize ∧
      0 < countOf sendCounts entry.2 ∧ displOf recvDispls entry.2 = entry.1 := by
    intro entry hentry
    have hne : entry.1 ≠ guardian.1 := by
      obtain hentry | hentry := List.mem_append.mp hentry
      · exact (hfront entry hentry guardian List.mem_cons_self).ne
      · rw [List.mem_singleton.mp hentry]
        exact (hbehind next List.mem_cons_self).ne'
    refine (hmem entry ?_).resolve_left fun heq => hne (heq ▸ hguardianEq ▸ rfl)
    obtain hentry | hentry := List.mem_append.mp hentry
    · exact List.mem_append_left _ hentry
    · simp [List.mem_singleton.mp hentry]
  obtain ⟨hnextRank, hnextPos, hnextDispl⟩ := hregion next (by simp)
  have hnextMem := mem_entries_of_sum_eq hlength hverifiable.counts_nonneg hfrontSorted
    (fun entry hentry =>
      have hentryRegion := hregion entry (List.mem_append_left _ hentry)
      ⟨hentryRegion.1, hentryRegion.2.2⟩)
    (by
      rw [hguardianEq] at hsum
      omega)
    hnextRank hnextPos
  have hlt := hfront _ hnextMem next (by simp)
  exact absurd hnextDispl hlt.ne

end Guardian

/-! ## Accepted distributions are valid -/

section Validity

variable {sendCounts recvDispls : List ℤ} {commSize : ℕ}

theorem forall_mem_of_getD {values : List ℤ}
    (hvalues : ∀ rank < values.length, 0 ≤ values[rank]?.getD 0) : ∀ value ∈ values, 0 ≤ value := by
  intro value hvalue
  obtain ⟨rank, hrank, rfl⟩ := List.mem_iff_getElem.mp hvalue
  simpa [hrank] using hvalues rank hrank

theorem getD_nonneg {values : List ℤ} (hvalues : ∀ value ∈ values, 0 ≤ value) (rank : ℕ) :
    0 ≤ values[rank]?.getD 0 := by
  cases hvalue : values[rank]? with
  | none => simp
  | some value => exact hvalues value (List.mem_of_getElem? hvalue)

theorem validDistribution_of_checked {startIndices : OrderedMap ℕ ℕ}
    (hchecked : checkedStartIndices commSize sendCounts recvDispls = some startIndices) :
    ValidDistribution commSize sendCounts recvDispls := by
  obtain ⟨hcover, hinside, hlookup⟩ := (accepted_of_checked hchecked).tiling
  have hverifiable := verifiable_of_startIndices (checkedStartIndices_eq_some_iff.mp hchecked).1
  refine ⟨?_, ?_, ?_, fun i => ⟨fun hi => hcover i (by omega), ?_⟩⟩
  · exact forall_mem_of_getD (hverifiable.length_counts ▸ hverifiable.counts_nonneg)
  · exact forall_mem_of_getD (hverifiable.length_displs ▸ hverifiable.displs_nonneg)
  · intro rank hrank other hother i hregion hregion'
    have hfound := hlookup rank hrank i hregion.1 hregion.2
    rw [hlookup other hother i hregion'.1 hregion'.2] at hfound
    exact (Option.some.inj hfound).symm
  · rintro ⟨rank, hrank, hlower, hupper⟩
    have := hinside rank hrank (by omega)
    omega

/-! ## Valid distributions are accepted -/

/-- Every rank with elements has its entry in the map. -/
theorem exists_addRegions {ranks : List ℕ} (seen : List ℕ) {startIndices : OrderedMap ℕ ℕ}
    (hcounts : ∀ rank ∈ ranks, ∃ count, sendCounts[rank]? = some count ∧ 0 ≤ count)
    (hdispls : ∀ rank ∈ ranks, ∃ displ, recvDispls[rank]? = some displ ∧ 0 ≤ displ)
    (hdistinct : ∀ rank ∈ seen ++ ranks, ∀ other ∈ seen ++ ranks,
      0 < countOf sendCounts rank → 0 < countOf sendCounts other →
      displOf recvDispls rank = displOf recvDispls other → rank = other)
    (hseen : ∀ rank ∈ seen, 0 < countOf sendCounts rank →
      (displOf recvDispls rank, rank) ∈ startIndices.entries) :
    ∃ regions, addRegions sendCounts recvDispls ranks startIndices = some regions ∧
      ∀ rank ∈ seen ++ ranks, 0 < countOf sendCounts rank →
        (displOf recvDispls rank, rank) ∈ regions.entries := by
  induction ranks generalizing seen startIndices with
  | nil => exact ⟨startIndices, rfl, by simpa using hseen⟩
  | cons rank ranks ih =>
      obtain ⟨count, hcount, hcountNonneg⟩ := hcounts rank List.mem_cons_self
      obtain ⟨displ, hdispl, hdisplNonneg⟩ := hdispls rank List.mem_cons_self
      have hcountOf : countOf sendCounts rank = count.toNat := by simp [countOf, hcount]
      have hdisplOf : displOf recvDispls rank = displ.toNat := by simp [displOf, hdispl]
      obtain ⟨next, hnext, hnextEntries⟩ : ∃ next,
          addRegion sendCounts recvDispls startIndices rank = some next ∧
            ∀ other ∈ seen ++ [rank], 0 < countOf sendCounts other →
              (displOf recvDispls other, other) ∈ next.entries := by
        simp only [addRegion, hcount, hdispl, Option.bind_eq_bind, Option.bind_some,
          if_neg (not_lt.mpr hcountNonneg), if_neg (not_lt.mpr hdisplNonneg)]
        by_cases hzero : count = 0
        · refine ⟨startIndices, if_pos hzero, fun other hother hpos => ?_⟩
          obtain hother | hother := List.mem_append.mp hother
          · exact hseen other hother hpos
          · rw [List.mem_singleton.mp hother, hcountOf, hzero] at hpos
            exact absurd hpos (lt_irrefl _)
        · refine ⟨_, if_neg hzero, fun other hother hpos => mem_insertOrAssign.mpr ?_⟩
          rw [← hdisplOf]
          by_cases hsame : other = rank
          · exact Or.inl (by rw [hsame])
          · have hotherSeen : other ∈ seen := by simpa [hsame] using hother
            refine Or.inr ⟨hseen other hotherSeen hpos, fun hdispls => hsame ?_⟩
            exact hdistinct other (List.mem_append_left _ hotherSeen) rank (by simp) hpos
              (by omega) hdispls
      obtain ⟨regions, hregions, hentries⟩ := ih (seen ++ [rank])
        (fun other hother => hcounts other (List.mem_cons_of_mem _ hother))
        (fun other hother => hdispls other (List.mem_cons_of_mem _ hother))
        (by simpa using hdistinct) hnextEntries
      refine ⟨regions, ?_, by simpa using hentries⟩
      rw [addRegions, hnext, Option.bind_eq_bind, Option.bind_some, hregions]

/-- The loop passes if behind every entry but the last the next entry starts where
its region ends. -/
theorem verifyOutcome_passed {entries : List (ℕ × ℕ)}
    (hsorted : entries.Pairwise fun left right => left.1 < right.1)
    (hcounts : ∀ entry ∈ entries.dropLast, ∃ count, sendCounts[entry.2]? = some count ∧ 0 < count)
    (hends : ∀ entry ∈ entries.dropLast, ∃ other ∈ entries,
      other.1 = entry.1 + countOf sendCounts entry.2)
    (hinside : ∀ entry ∈ entries.dropLast, ∀ other ∈ entries,
      entry.1 < other.1 → entry.1 + countOf sendCounts entry.2 ≤ other.1) :
    verifyOutcome sendCounts entries = .passed := by
  induction entries with
  | nil => rfl
  | cons first entries ih =>
      cases entries with
      | nil => rfl
      | cons second entries =>
          obtain ⟨hfirst, hsortedTail⟩ := List.pairwise_cons.mp hsorted
          have hdrop : (first :: second :: entries).dropLast =
              first :: (second :: entries).dropLast := List.dropLast_cons_cons
          rw [hdrop] at hcounts hends hinside
          obtain ⟨count, hcount, hpos⟩ := hcounts first List.mem_cons_self
          have hcountOf : countOf sendCounts first.2 = count.toNat := by simp [countOf, hcount]
          obtain ⟨other, hother, hend⟩ := hends first List.mem_cons_self
          have hsecond := hinside first List.mem_cons_self second (by simp)
            (hfirst second List.mem_cons_self)
          have hle : second.1 ≤ other.1 := by
            obtain rfl | hother := List.mem_cons.mp hother
            · omega
            · obtain rfl | hother := List.mem_cons.mp hother
              · exact le_rfl
              · exact ((List.pairwise_cons.mp hsortedTail).1 other hother).le
          simp only [verifyOutcome, hcount]
          rw [if_pos ⟨hpos.le, by omega⟩]
          refine ih hsortedTail (fun entry hentry => hcounts entry (List.mem_cons_of_mem _ hentry))
            (fun entry hentry => ?_) fun entry hentry later hlater =>
              hinside entry (List.mem_cons_of_mem _ hentry) later (List.mem_cons_of_mem _ hlater)
          obtain ⟨later, hlater, hlaterEnd⟩ := hends entry (List.mem_cons_of_mem _ hentry)
          refine ⟨later, (List.mem_cons.mp hlater).resolve_left fun heq => ?_, hlaterEnd⟩
          have := hfirst entry (List.mem_of_mem_dropLast hentry)
          rw [heq] at hlaterEnd
          omega

/-- The region starts of a valid distribution. -/
structure ValidEntries (commSize : ℕ) (sendCounts recvDispls : List ℤ)
    (startIndices : OrderedMap ℕ ℕ) : Prop where
  guardian : (sendCounts.sum.toNat, commSize) ∈ startIndices.entries
  region : ∀ rank < commSize, 0 < countOf sendCounts rank →
    (displOf recvDispls rank, rank) ∈ startIndices.entries
  entries : ∀ entry ∈ startIndices.entries, entry = (sendCounts.sum.toNat, commSize) ∨
    entry.2 < commSize ∧ 0 < countOf sendCounts entry.2 ∧ displOf recvDispls entry.2 = entry.1

theorem ValidDistribution.lt_sum (hvalid : ValidDistribution commSize sendCounts recvDispls)
    {rank i : ℕ} (hrank : rank < commSize) (hregion : InRegion sendCounts recvDispls rank i) :
    i < sendCounts.sum.toNat := by
  have := (hvalid.cover i).mpr ⟨rank, hrank, hregion⟩
  omega

/-- A region does not begin inside of another one. -/
theorem ValidDistribution.not_inside (hvalid : ValidDistribution commSize sendCounts recvDispls)
    {rank other : ℕ} (hrank : rank < commSize) (hother : other < commSize)
    (hpos : 0 < countOf sendCounts other)
    (hlt : displOf recvDispls rank < displOf recvDispls other) :
    displOf recvDispls rank + countOf sendCounts rank ≤ displOf recvDispls other := by
  by_contra hinside
  have hsame := hvalid.disjoint rank hrank other hother (displOf recvDispls other)
    ⟨hlt.le, by omega⟩ ⟨le_rfl, by omega⟩
  rw [hsame] at hlt
  exact lt_irrefl _ hlt

/-- Behind a region that does not end the array another region begins. -/
theorem ValidDistribution.exists_next (hvalid : ValidDistribution commSize sendCounts recvDispls)
    {rank : ℕ} (hrank : rank < commSize) (hpos : 0 < countOf sendCounts rank)
    (hend : displOf recvDispls rank + countOf sendCounts rank < sendCounts.sum.toNat) :
    ∃ other < commSize, 0 < countOf sendCounts other ∧
      displOf recvDispls other = displOf recvDispls rank + countOf sendCounts rank := by
  obtain ⟨other, hother, hlower, hupper⟩ :=
    (hvalid.cover (displOf recvDispls rank + countOf sendCounts rank)).mp (by omega)
  refine ⟨other, hother, by omega, le_antisymm hlower ?_⟩
  by_contra hbefore
  have hsame := hvalid.disjoint rank hrank other hother
    (displOf recvDispls rank + countOf sendCounts rank - 1) ⟨by omega, by omega⟩
    ⟨by omega, by omega⟩
  rw [hsame] at hupper
  omega

theorem ValidEntries.passed {startIndices : OrderedMap ℕ ℕ}
    (hvalid : ValidDistribution commSize sendCounts recvDispls)
    (hlength : sendCounts.length = commSize)
    (hentries : ValidEntries commSize sendCounts recvDispls startIndices) :
    verifyOutcome sendCounts startIndices.entries = .passed := by
  have hkey : ∀ entry ∈ startIndices.entries, entry.1 ≤ sendCounts.sum.toNat := by
    intro entry hentry
    obtain rfl | ⟨hrank, hpos, hdispl⟩ := hentries.entries entry hentry
    · exact le_rfl
    · exact hdispl ▸ (hvalid.lt_sum hrank ⟨le_rfl, by omega⟩).le
  have hregion : ∀ entry ∈ startIndices.entries.dropLast, entry.2 < commSize ∧
      0 < countOf sendCounts entry.2 ∧ displOf recvDispls entry.2 = entry.1 := by
    intro entry hentry
    refine (hentries.entries entry (List.mem_of_mem_dropLast hentry)).resolve_left fun heq => ?_
    have hne := List.ne_nil_of_mem (List.mem_of_mem_dropLast hentry)
    have hsorted := startIndices.sorted
    rw [← List.dropLast_append_getLast hne, List.pairwise_append] at hsorted
    have hlt := hsorted.2.2 entry hentry _ (List.mem_singleton_self _)
    have hle := hkey _ (List.getLast_mem hne)
    rw [heq] at hlt
    exact absurd hlt (not_lt.mpr hle)
  refine verifyOutcome_passed startIndices.sorted (fun entry hentry => ?_)
    (fun entry hentry => ?_) fun entry hentry other hother hlt => ?_
  · obtain ⟨hrank, hpos, -⟩ := hregion entry hentry
    have hget := List.getElem?_eq_getElem (l := sendCounts) (hlength ▸ hrank)
    refine ⟨_, hget, ?_⟩
    rw [countOf, hget, Option.getD_some] at hpos
    omega
  · obtain ⟨hrank, hpos, hdispl⟩ := hregion entry hentry
    have hlast := hvalid.lt_sum hrank (i := displOf recvDispls entry.2 +
      countOf sendCounts entry.2 - 1) ⟨by omega, by omega⟩
    by_cases hend : displOf recvDispls entry.2 + countOf sendCounts entry.2 <
        sendCounts.sum.toNat
    · obtain ⟨other, hother, hotherPos, hnext⟩ := hvalid.exists_next hrank hpos hend
      exact ⟨_, hentries.region other hother hotherPos, by rw [hnext, hdispl]⟩
    · exact ⟨_, hentries.guardian, by dsimp only; omega⟩
  · obtain ⟨hrank, hpos, hdispl⟩ := hregion entry hentry
    obtain rfl | ⟨hotherRank, hotherPos, hotherDispl⟩ := hentries.entries other hother
    · have := hvalid.lt_sum hrank (i := displOf recvDispls entry.2 +
        countOf sendCounts entry.2 - 1) ⟨by omega, by omega⟩
      dsimp only
      omega
    · rw [← hdispl, ← hotherDispl] at hlt ⊢
      exact hvalid.not_inside hrank hotherRank hotherPos hlt

theorem ValidEntries.first {startIndices : OrderedMap ℕ ℕ}
    (hvalid : ValidDistribution commSize sendCounts recvDispls)
    (hentries : ValidEntries commSize sendCounts recvDispls startIndices) :
    startIndices.entries.head?.map (·.1) = some 0 := by
  have hzero : ∃ entry ∈ startIndices.entries, entry.1 = 0 := by
    by_cases hsum : sendCounts.sum.toNat = 0
    · exact ⟨_, hentries.guardian, hsum⟩
    · obtain ⟨rank, hrank, hlower, hupper⟩ := (hvalid.cover 0).mp (by omega)
      exact ⟨_, hentries.region rank hrank (by omega), by dsimp only; omega⟩
  obtain ⟨entry, hentry, hkey⟩ := hzero
  have hsorted := startIndices.sorted
  cases hlist : startIndices.entries with
  | nil => simp [hlist] at hentry
  | cons head entries =>
      rw [hlist] at hentry hsorted
      obtain rfl | hentry := List.mem_cons.mp hentry
      · simp [hkey]
      · have := (List.pairwise_cons.mp hsorted).1 entry hentry
        omega

theorem exists_checkedStartIndices (hcounts : sendCounts.length = commSize)
    (hdispls : recvDispls.length = commSize) (hsum : sendCounts.sum < 2 ^ 31)
    (hvalid : ValidDistribution commSize sendCounts recvDispls) :
    ∃ startIndices, checkedStartIndices commSize sendCounts recvDispls = some startIndices := by
  have hread : ∀ values : List ℤ, values.length = commSize → (∀ value ∈ values, 0 ≤ value) →
      ∀ rank ∈ List.range commSize, ∃ value, values[rank]? = some value ∧ 0 ≤ value := by
    intro values hlength hvalues rank hrank
    have hget := List.getElem?_eq_getElem (l := values) (hlength ▸ List.mem_range.mp hrank)
    exact ⟨_, hget, hvalues _ (List.getElem_mem _)⟩
  have hseen : ∀ rank ∈ ([] : List ℕ), 0 < countOf sendCounts rank →
      (displOf recvDispls rank, rank) ∈ (empty : OrderedMap ℕ ℕ).entries := by
    simp
  obtain ⟨regions, hregions, hregion⟩ := exists_addRegions []
    (hread sendCounts hcounts hvalid.counts_nonneg)
    (hread recvDispls hdispls hvalid.displs_nonneg)
    (by
      intro rank hrank other hother hpos hotherPos hsame
      refine hvalid.disjoint rank (by simpa using hrank) other (by simpa using hother)
        (displOf recvDispls rank) ⟨le_rfl, by omega⟩ ⟨hsame.ge, by omega⟩)
    hseen
  obtain ⟨hstarts, -⟩ := addRegions_spec [] (by simp [RegionStarts]) hregions
  obtain ⟨-, hnonneg⟩ := toNat_sum_eq sendCounts
    fun rank _ => getD_nonneg hvalid.counts_nonneg rank
  have hlength : globalArrayLength sendCounts = some sendCounts.sum.toNat := by
    simp only [globalArrayLength]
    rw [if_pos ⟨by omega, hsum⟩, Int.emod_eq_of_lt hnonneg (by omega)]
  have hentries : ValidEntries commSize sendCounts recvDispls
      (insertOrAssign regions sendCounts.sum.toNat commSize) := by
    refine ⟨mem_insertOrAssign.mpr (Or.inl rfl), fun rank hrank hpos => ?_,
      fun entry hentry => ?_⟩
    · have hlt := hvalid.lt_sum hrank (i := displOf recvDispls rank) ⟨le_rfl, by omega⟩
      exact mem_insertOrAssign.mpr (Or.inr ⟨hregion rank (by simpa using hrank) hpos, hlt.ne⟩)
    · obtain rfl | ⟨hentry, -⟩ := mem_insertOrAssign.mp hentry
      · exact Or.inl rfl
      · obtain ⟨hrank, hpos, hdispl⟩ := hstarts entry hentry
        exact Or.inr ⟨by simpa using hrank, hpos, hdispl⟩
  refine ⟨_, checkedStartIndices_eq_some_iff.mpr ⟨?_, hentries.passed hvalid hcounts⟩⟩
  simp only [startIndicesToVerify, hlength, hregions, Option.bind_eq_bind, Option.bind_some]
  rw [if_neg (by simpa using hcounts), if_neg (by simpa using hdispls),
    if_neg (by simpa using hentries.first hvalid)]

end Validity

/-! ## Main result -/

section Main

variable {commSize : ℕ} {sendCounts recvDispls : List ℤ}

theorem exists_treeRankIntersectingElements (regionBegin regionEnd : ℕ) :
    ∃ elements, treeRankIntersectingElements regionBegin regionEnd = some elements := by
  obtain hzero | hpos := Nat.eq_zero_or_pos regionBegin
  · exact ⟨[], if_pos (Or.inl hzero)⟩
  · rw [treeRankIntersectingElements_of_pos hpos]
    exact exists_intersectingElementsFrom hpos le_rfl (treeParent_lt hpos)

/-- No assertion of the constructor fails on an accepted distribution. -/
theorem isSome_makeReproducibleComm {startIndices : OrderedMap ℕ ℕ} {rank : ℕ}
    (hchecked : checkedStartIndices commSize sendCounts recvDispls = some startIndices)
    (hrank : rank < commSize) :
    (makeReproducibleComm commSize sendCounts recvDispls rank).isSome := by
  obtain ⟨⟨hcover, -, hlookup⟩, hglobal, -⟩ := accepted_of_checked hchecked
  have hverifiable := verifiable_of_startIndices (checkedStartIndices_eq_some_iff.mp hchecked).1
  obtain ⟨displ, hdispl⟩ : ∃ displ, recvDispls[rank]? = some displ :=
    ⟨_, List.getElem?_eq_getElem (hverifiable.length_displs.symm ▸ hrank)⟩
  obtain ⟨count, hcount⟩ : ∃ count, sendCounts[rank]? = some count :=
    ⟨_, List.getElem?_eq_getElem (hverifiable.length_counts.symm ▸ hrank)⟩
  obtain ⟨elements, helements⟩ := exists_treeRankIntersectingElements
    displ.toNat (displ.toNat + count.toNat)
  simp only [makeReproducibleComm, ReproducibleCommunicator.create, hchecked, hdispl, hcount,
    hglobal, helements, Option.bind_eq_bind, Option.bind_some]
  by_cases hzero : sendCounts.sum.toNat = 0
  · rw [if_pos hzero]
    rfl
  · obtain ⟨origin, horigin, hlower, hupper⟩ := hcover 0 (by omega)
    rw [if_neg hzero, hlookup origin horigin 0 hlower hupper]
    rfl

theorem exists_checked_of_isSome {rank : ℕ}
    (hmade : (makeReproducibleComm commSize sendCounts recvDispls rank).isSome) :
    ∃ startIndices, checkedStartIndices commSize sendCounts recvDispls = some startIndices := by
  obtain ⟨comm, hcomm⟩ := Option.isSome_iff_exists.mp hmade
  obtain ⟨startIndices, hchecked, -⟩ := Option.bind_eq_some_iff.mp hcomm
  exact ⟨startIndices, hchecked⟩

/-- `make_reproducible_comm` accepts exactly the valid distributions, reads no count
behind the counts, and finds the rank of every index. -/
theorem makeReproducibleComm_accepts_iff (hcounts : sendCounts.length = commSize)
    (hdispls : recvDispls.length = commSize)
    (hsums : ∀ size, -2 ^ 31 ≤ (sendCounts.take size).sum ∧ (sendCounts.take size).sum < 2 ^ 31) :
    (∀ rank < commSize, (makeReproducibleComm commSize sendCounts recvDispls rank).isSome ↔
        ValidDistribution commSize sendCounts recvDispls) ∧
      (∀ startIndices, startIndicesToVerify commSize sendCounts recvDispls = some startIndices →
        verifyOutcome sendCounts startIndices.entries ≠ .readBehindCounts) ∧
      ∀ startIndices, checkedStartIndices commSize sendCounts recvDispls = some startIndices →
        ∀ i : ℕ, (i : ℤ) < sendCounts.sum → ∃ rank < commSize,
          treeRankFromIndexMap startIndices i = some rank ∧
          InRegion sendCounts recvDispls rank i ∧
          ∀ other < commSize, InRegion sendCounts recvDispls other i → other = rank := by
  have hsum : sendCounts.sum < 2 ^ 31 := by
    have := (hsums sendCounts.length).2
    rwa [List.take_length] at this
  refine ⟨fun rank hrank => ⟨fun hmade => ?_, fun hvalid => ?_⟩, fun startIndices hstart => ?_,
    fun startIndices hchecked i hi => ?_⟩
  · obtain ⟨startIndices, hchecked⟩ := exists_checked_of_isSome hmade
    exact validDistribution_of_checked hchecked
  · obtain ⟨startIndices, hchecked⟩ := exists_checkedStartIndices hcounts hdispls hsum hvalid
    exact isSome_makeReproducibleComm hchecked hrank
  · exact verifyOutcome_ne_readBehind (verifiable_of_startIndices hstart)
  · obtain ⟨hcover, -, hlookup⟩ := (accepted_of_checked hchecked).tiling
    obtain ⟨rank, hrank, hregion⟩ := hcover i (by omega)
    exact ⟨rank, hrank, hlookup rank hrank i hregion.1 hregion.2, hregion,
      fun other hother hinside =>
        (validDistribution_of_checked hchecked).disjoint other hother rank hrank i hinside hregion⟩

theorem makeReproducibleComm_accepts_iff_swapped :
    (∀ rank < 2, (makeReproducibleComm 2 [2, 1] [1, 0] rank).isSome ↔
        ValidDistribution 2 [2, 1] [1, 0]) ∧
      (∀ startIndices, startIndicesToVerify 2 [2, 1] [1, 0] = some startIndices →
        verifyOutcome [2, 1] startIndices.entries ≠ .readBehindCounts) ∧
      ∀ startIndices, checkedStartIndices 2 [2, 1] [1, 0] = some startIndices →
        ∀ i : ℕ, (i : ℤ) < ([2, 1] : List ℤ).sum → ∃ rank < 2,
          treeRankFromIndexMap startIndices i = some rank ∧
          InRegion [2, 1] [1, 0] rank i ∧
          ∀ other < 2, InRegion [2, 1] [1, 0] other i → other = rank :=
  makeReproducibleComm_accepts_iff rfl rfl fun size => by
    obtain rfl | rfl | hsize : size = 0 ∨ size = 1 ∨ 2 ≤ size := by omega
    · decide
    · decide
    · rw [List.take_of_length_le (by simpa using hsize)]
      decide

end Main

end MpiBindings.ReproducibleReduce

import MpiBindings.ReproducibleReduce.Schedule

/-!
# Requests match batches

The communicators of all ranks together: every result that a rank asks for is put
for it by the rank that holds it, and the other way round.  The traces of all
ranks are therefore the projections of one choreography.
-/

namespace MpiBindings.ReproducibleReduce

open MessagePassing Choreography

/-- Communicators of all ranks over one array of length `n`; `origin` holds the
first element. -/
structure Distributed (p n : ℕ) (comms : Fin p → ReproducibleCommunicator)
    (origin : Fin p) : Prop where
  region : ∀ rank, LocalRegion n (comms rank)
  cover : ∀ i < n, ∃ rank, (comms rank).regionBegin ≤ i ∧ i < (comms rank).regionEnd
  lookup : ∀ me rank i, (comms rank).regionBegin ≤ i → i < (comms rank).regionEnd →
    (comms me).rankOfIndex p i = some rank
  elements : ∀ rank, treeRankIntersectingElements (comms rank).regionBegin
    (comms rank).regionEnd = some (comms rank).rankIntersectingElements
  originRank : ∀ rank, (comms rank).originRank = origin.val
  originBegin : (comms origin).regionBegin = 0
  originSize : 0 < (comms origin).regionSize

namespace Distributed

variable {p n : ℕ} {comms : Fin p → ReproducibleCommunicator} {origin : Fin p}

/-- Regions are disjoint. -/
theorem eq_of_mem (h : Distributed p n comms origin) (rank rank' : Fin p) {i : ℕ}
    (hlower : (comms rank).regionBegin ≤ i) (hupper : i < (comms rank).regionEnd)
    (hlower' : (comms rank').regionBegin ≤ i) (hupper' : i < (comms rank').regionEnd) :
    rank = rank' := by
  have hrank := h.lookup rank rank i hlower hupper
  rw [h.lookup rank rank' i hlower' hupper'] at hrank
  exact (Option.some.inj hrank).symm

theorem lt_of_mem (h : Distributed p n comms origin) {rank : Fin p} {i : ℕ}
    (hlower : (comms rank).regionBegin ≤ i) (hupper : i < (comms rank).regionEnd) : i < n := by
  have hend := (h.region rank).regionEnd
  have := (h.region rank).inside (by omega)
  omega

theorem tiles (h : Distributed p n comms origin) {rank : Fin p}
    (hpos : 0 < (comms rank).regionBegin) :
    TilesRegion (comms rank).regionBegin (comms rank).regionEnd (comms rank).regionBegin
      (comms rank).rankIntersectingElements :=
  intersectingElementsFrom_tiles hpos
    ((treeRankIntersectingElements_of_pos hpos).symm.trans (h.elements rank))

theorem elements_eq_nil (h : Distributed p n comms origin) {rank : Fin p}
    (hzero : (comms rank).regionBegin = 0) : (comms rank).rankIntersectingElements = [] := by
  have helements := h.elements rank
  rw [treeRankIntersectingElements, if_pos (Or.inl hzero)] at helements
  exact (Option.some.inj helements).symm

/-- A rank communicates the results whose parent is in front of its region. -/
theorem mem_elements (h : Distributed p n comms origin) {rank : Fin p} {x : ℕ} :
    x ∈ (comms rank).rankIntersectingElements ↔
      (comms rank).regionBegin ≤ x ∧ x < (comms rank).regionEnd ∧
        treeParent x < (comms rank).regionBegin := by
  obtain hzero | hpos := Nat.eq_zero_or_pos (comms rank).regionBegin
  · simp [h.elements_eq_nil hzero, hzero]
  · exact (h.tiles hpos).mem_iff hpos

/-- Rank that needs the result of an index. -/
def targetOf (comms : Fin p → ReproducibleCommunicator) (origin : Fin p) (index : ℕ) : Fin p :=
  ((comms origin).rankOfIndex p (treeParent index)).getD origin

theorem targetOf_eq (h : Distributed p n comms origin) {rank : Fin p} {index : ℕ}
    (hlower : (comms rank).regionBegin ≤ treeParent index)
    (hupper : treeParent index < (comms rank).regionEnd) :
    targetOf comms origin index = rank := by
  rw [targetOf, h.lookup origin rank _ hlower hupper, Option.getD_some]

theorem exists_targetOf (h : Distributed p n comms origin) (index : ℕ) (hpos : 0 < index)
    (hindex : index < n) :
    (comms (targetOf comms origin index)).regionBegin ≤ treeParent index ∧
      treeParent index < (comms (targetOf comms origin index)).regionEnd := by
  obtain ⟨rank, hlower, hupper⟩ := h.cover _ ((treeParent_lt hpos).trans hindex)
  rw [h.targetOf_eq hlower hupper]
  exact ⟨hlower, hupper⟩

/-- Batches that a rank sends in one reduction. -/
def outgoing (comms : Fin p → ReproducibleCommunicator) (origin rank : Fin p) :
    List (Batch (Fin p)) :=
  outgoingFrom (targetOf comms origin) (comms rank).flushesBefore
    (comms rank).rankIntersectingElements none

/-- Ranks with elements in the order of their regions. -/
def ranksInOrder (comms : Fin p → ReproducibleCommunicator) : List (Fin p) :=
  ((List.finRange p).filter fun rank => 0 < (comms rank).regionSize).mergeSort
    fun rank rank' => (comms rank).regionBegin ≤ (comms rank').regionBegin

/-- Messages that a rank expects in one reduction. -/
def incoming (comms : Fin p → ReproducibleCommunicator) (origin me : Fin p) :
    List (Delivery (Fin p)) :=
  (ranksInOrder comms).flatMap fun source =>
    ((outgoing comms origin source).filter fun batch => batch.target = me).map fun batch =>
      ⟨source, batch.indices⟩

/-- Messages that a rank expects while it reduces the given index. -/
def incomingAt (comms : Fin p → ReproducibleCommunicator) (origin me : Fin p) (index : ℕ) :
    List (Delivery (Fin p)) :=
  if (comms me).requests index = [] then [] else incoming comms origin me

theorem mem_ranksInOrder {rank : Fin p} :
    rank ∈ ranksInOrder comms ↔ 0 < (comms rank).regionSize := by
  simp [ranksInOrder, (List.mergeSort_perm _ _).mem_iff]

theorem ranksInOrder_pairwise (h : Distributed p n comms origin) :
    (ranksInOrder comms).Pairwise fun rank rank' =>
      (comms rank).regionEnd ≤ (comms rank').regionBegin := by
  have hsorted : (ranksInOrder comms).Pairwise fun rank rank' =>
      (comms rank).regionBegin ≤ (comms rank').regionBegin := by
    have htrans : ∀ a b c : Fin p,
        decide ((comms a).regionBegin ≤ (comms b).regionBegin) = true →
        decide ((comms b).regionBegin ≤ (comms c).regionBegin) = true →
        decide ((comms a).regionBegin ≤ (comms c).regionBegin) = true := by
      simpa using fun a b c => le_trans
    have htotal : ∀ a b : Fin p, (decide ((comms a).regionBegin ≤ (comms b).regionBegin) ||
        decide ((comms b).regionBegin ≤ (comms a).regionBegin)) = true := by
      simpa using fun a b => le_total (comms a).regionBegin (comms b).regionBegin
    simpa [ranksInOrder] using List.pairwise_mergeSort htrans htotal
      ((List.finRange p).filter fun rank => 0 < (comms rank).regionSize)
  have hnodup : (ranksInOrder comms).Nodup :=
    (List.mergeSort_perm _ _).nodup_iff.mpr ((List.nodup_finRange p).filter _)
  refine (hsorted.and hnodup).imp_of_mem fun {rank rank'} hrank hrank' hle => ?_
  by_contra hlt
  have hsize := mem_ranksInOrder.mp hrank'
  have hend := (h.region rank').regionEnd
  exact hle.2 (h.eq_of_mem rank rank' hle.1 (by omega) le_rfl (by omega))

theorem outgoing_wellFormed (rank : Fin p) :
    ∀ batch ∈ outgoing comms origin rank, batch.WellFormed (targetOf comms origin) :=
  outgoingFrom_wellFormed _ _ (by simp [Outbox.WellFormed])

variable (origin) in
theorem outgoing_indices (rank : Fin p) :
    (outgoing comms origin rank).flatMap Batch.indices =
      (comms rank).rankIntersectingElements := by
  simp [outgoing, outgoingFrom_indices]

theorem mem_elements_of_batch {rank : Fin p} {batch : Batch (Fin p)} {index : ℕ}
    (hbatch : batch ∈ outgoing comms origin rank) (hindex : index ∈ batch.indices) :
    index ∈ (comms rank).rankIntersectingElements := by
  rw [← outgoing_indices origin]
  exact List.mem_flatMap.mpr ⟨batch, hbatch, hindex⟩

/-- All indices of a batch go to its target, so selecting batches selects
indices. -/
theorem filter_flatMap_indices {targetOf : ℕ → Fin p} {batches : List (Batch (Fin p))}
    (hbatches : ∀ batch ∈ batches, batch.WellFormed targetOf) (me : Fin p) :
    (batches.filter fun batch => batch.target = me).flatMap Batch.indices =
      (batches.flatMap Batch.indices).filter fun index => targetOf index = me := by
  induction batches with
  | nil => rfl
  | cons batch batches ih =>
      have hrest := ih fun other hother => hbatches other (List.mem_cons_of_mem _ hother)
      have htarget := (hbatches batch List.mem_cons_self).target_eq
      rw [List.flatMap_cons, List.filter_append, ← hrest]
      by_cases hme : batch.target = me
      · have hall : batch.indices.filter (fun index => targetOf index = me) = batch.indices := by
          refine List.filter_eq_self.mpr fun index hindex => ?_
          rw [htarget index hindex]
          exact decide_eq_true hme
        rw [List.filter_cons_of_pos (by simpa using hme), List.flatMap_cons, hall]
      · have hnone : batch.indices.filter (fun index => targetOf index = me) = [] := by
          refine List.filter_eq_nil_iff.mpr fun index hindex => ?_
          rw [htarget index hindex]
          simpa using hme
        rw [List.filter_cons_of_neg (by simpa using hme), hnone, List.nil_append]

theorem incoming_indices (me : Fin p) :
    (incoming comms origin me).flatMap Delivery.indices =
      (ranksInOrder comms).flatMap fun source =>
        (comms source).rankIntersectingElements.filter fun index =>
          targetOf comms origin index = me := by
  rw [incoming, List.flatMap_assoc]
  congr 1
  funext source
  rw [List.flatMap_map, ← outgoing_indices origin source,
    ← filter_flatMap_indices (outgoing_wellFormed source)]

theorem elements_sorted (h : Distributed p n comms origin) (rank : Fin p) :
    (comms rank).rankIntersectingElements.Pairwise (· < ·) := by
  obtain hzero | hpos := Nat.eq_zero_or_pos (comms rank).regionBegin
  · rw [h.elements_eq_nil hzero]
    exact List.Pairwise.nil
  · apply (h.tiles hpos).disjoint.imp
    intro x y hle
    have := treeSubtreeSize_pos x
    omega

theorem incoming_sorted (h : Distributed p n comms origin) (me : Fin p) :
    ((incoming comms origin me).flatMap Delivery.indices).Pairwise (· < ·) := by
  rw [incoming_indices, List.pairwise_flatMap]
  constructor
  · intro source _
    exact (h.elements_sorted source).filter _
  · refine h.ranksInOrder_pairwise.imp fun {source source'} hle x hx y hy => ?_
    have hx := h.mem_elements.mp (List.mem_of_mem_filter hx)
    have hy := h.mem_elements.mp (List.mem_of_mem_filter hy)
    omega

/-- A rank receives the results from behind its region whose parent it holds. -/
theorem mem_incoming_indices (h : Distributed p n comms origin) {me : Fin p} {g : ℕ} :
    g ∈ (incoming comms origin me).flatMap Delivery.indices ↔
      (comms me).regionEnd ≤ g ∧ g < n ∧ (comms me).regionBegin ≤ treeParent g ∧
        treeParent g < (comms me).regionEnd := by
  rw [incoming_indices]
  simp only [List.mem_flatMap, List.mem_filter, decide_eq_true_eq, mem_ranksInOrder,
    h.mem_elements]
  constructor
  · rintro ⟨source, -, ⟨hlower, hupper, hparent⟩, rfl⟩
    have hlt := h.lt_of_mem hlower hupper
    have hpos : 0 < g := by omega
    obtain ⟨htargetLower, htargetUpper⟩ := h.exists_targetOf _ hpos hlt
    refine ⟨?_, hlt, htargetLower, htargetUpper⟩
    by_contra hinside
    have hparentLt := treeParent_lt hpos
    have hbegin : (comms (targetOf comms origin g)).regionBegin ≤ g := by omega
    have hsame := h.eq_of_mem _ _ hlower hupper hbegin (by omega)
    rw [← hsame] at htargetLower
    omega
  · rintro ⟨hend, hlt, hparentLower, hparentUpper⟩
    have hpos : 0 < g := by omega
    obtain ⟨source, hlower, hupper⟩ := h.cover g hlt
    have hparentLt := treeParent_lt hpos
    refine ⟨source, ?_, ⟨hlower, hupper, ?_⟩, h.targetOf_eq hparentLower hparentUpper⟩
    · have := (h.region source).regionEnd
      omega
    · by_contra hinside
      have hsame := h.eq_of_mem source me (by omega) (by omega)
        hparentLower hparentUpper
      rw [hsame] at hupper
      omega

/-- Indices whose reduction may ask for results of other ranks. -/
def reducedBy (comms : Fin p → ReproducibleCommunicator) (origin me : Fin p) : List ℕ :=
  (comms me).rankIntersectingElements ++ if me = origin then [0] else []

theorem reducedBy_inside (h : Distributed p n comms origin) {me : Fin p} {x : ℕ}
    (hx : x ∈ reducedBy comms origin me) :
    (comms me).regionBegin ≤ x ∧ x < (comms me).regionEnd := by
  obtain hx | hx := List.mem_append.mp hx
  · have := h.mem_elements.mp hx
    exact ⟨this.1, this.2.1⟩
  · split at hx
    · rename_i hme
      have hend := (h.region me).regionEnd
      have hbegin := h.originBegin
      have hsize := h.originSize
      rw [← hme] at hbegin hsize
      rw [List.mem_singleton.mp hx]
      omega
    · cases hx

theorem maxX_lt (h : Distributed p n comms origin) {me : Fin p} {x : ℕ}
    (hx : x ∈ reducedBy comms origin me) : (comms me).maxX x < n := by
  obtain ⟨hlower, hupper⟩ := h.reducedBy_inside hx
  exact ((h.region me).subtreeBounds (h.lt_of_mem hlower hupper)).lt

/-- A subtree that reaches behind the region is the last one. -/
theorem le_of_crosses (h : Distributed p n comms origin) {me : Fin p} {x x' : ℕ}
    (hx : x ∈ reducedBy comms origin me) (hx' : x' ∈ reducedBy comms origin me)
    (hcrosses : (comms me).regionEnd ≤ (comms me).maxX x) : x' ≤ x := by
  by_contra hlt
  obtain hzero | hpos := Nat.eq_zero_or_pos (comms me).regionBegin
  · simp only [reducedBy, h.elements_eq_nil hzero, List.nil_append, List.mem_ite_nil_right,
      List.mem_singleton] at hx hx'
    omega
  · have hinside := h.reducedBy_inside hx
    have hinside' := h.reducedBy_inside hx'
    have hparent' : treeParent x' < (comms me).regionBegin := by
      obtain hx' | hx' := List.mem_append.mp hx'
      · exact (h.mem_elements.mp hx').2.2
      · have : x' = 0 := by simpa using (List.mem_ite_nil_right.mp hx').2
        omega
    have hmaxX : (comms me).maxX x < x + treeSubtreeSize x := by
      have hsize := treeSubtreeSize_pos x
      rw [ReproducibleCommunicator.maxX, if_neg (by omega)]
      omega
    have := (subtree_nested (i := x) (j := x') (by omega) (by omega) (by omega)).1
    omega

/-- Every result that the rank expects lies in the subtree of an index that it
reduces. -/
theorem exists_reduced (h : Distributed p n comms origin) {me : Fin p} {g : ℕ}
    (hlower : (comms me).regionBegin ≤ treeParent g)
    (hupper : treeParent g < (comms me).regionEnd)
    (hend : (comms me).regionEnd ≤ g) (hlt : g < n) :
    ∃ x ∈ reducedBy comms origin me, g ≤ (comms me).maxX x := by
  obtain hzero | hpos := Nat.eq_zero_or_pos (comms me).regionBegin
  · have hme : me = origin := by
      have horiginEnd := (h.region origin).regionEnd
      have hsize := h.originSize
      have hbegin := h.originBegin
      exact h.eq_of_mem (i := 0) _ _ (by omega) (by omega) (by omega) (by omega)
    refine ⟨0, by simp [reducedBy, hme], ?_⟩
    rw [ReproducibleCommunicator.maxX, if_pos rfl, (h.region me).globalSize]
    omega
  · obtain ⟨x, hx, hle, hinside⟩ := (h.tiles hpos).cover _ hlower hupper
    have hxpos : 0 < x := by
      have := (h.mem_elements.mp hx).1
      omega
    have hg : g < x + treeSubtreeSize x := by
      obtain hsame | hbelow := hle.eq_or_lt
      · have := lt_treeParent_add_size (i := g) (by omega) (by omega)
        rwa [← hsame] at this
      · have hnested := (subtree_nested hxpos hbelow hinside).2
        have := lt_treeParent_add_size (i := g) (by omega) (by omega)
        omega
    refine ⟨x, List.mem_append_left _ hx, ?_⟩
    rw [ReproducibleCommunicator.maxX, if_neg hxpos.ne', (h.region me).globalSize]
    omega

/-- An index that asks for results has a subtree that reaches behind the region. -/
theorem crosses_of_requests (h : Distributed p n comms origin) {me : Fin p} {x : ℕ}
    (hx : x ∈ reducedBy comms origin me) (hrequests : (comms me).requests x ≠ []) :
    (comms me).regionEnd ≤ (comms me).maxX x := by
  obtain ⟨hlower, hupper⟩ := h.reducedBy_inside hx
  obtain ⟨first, hfirst⟩ := List.exists_mem_of_ne_nil _ hrequests
  obtain ⟨hend, hle, -⟩ := ((h.region me).mem_requests hlower hupper).mp hfirst
  exact hend.trans hle

/-- The rank asks exactly for the results that it receives, in their order. -/
theorem requests_eq_incoming (h : Distributed p n comms origin) {me : Fin p} {x : ℕ}
    (hx : x ∈ reducedBy comms origin me) (hrequests : (comms me).requests x ≠ []) :
    (comms me).requests x = (incoming comms origin me).flatMap Delivery.indices := by
  obtain ⟨hlower, hupper⟩ := h.reducedBy_inside hx
  have hregion := h.region me
  refine (requests_sorted _ _).eq_of_mem_iff (h.incoming_sorted me) fun g => ?_
  rw [hregion.mem_requests hlower hupper, h.mem_incoming_indices]
  constructor
  · rintro ⟨hend, hle, hparent⟩
    refine ⟨hend, hle.trans_lt (h.maxX_lt hx), ?_, hparent⟩
    obtain hzero | hpos := Nat.eq_zero_or_pos x
    · omega
    · obtain ⟨hgt, hinside⟩ := hregion.requests_inside hlower hupper hpos
        ((hregion.mem_requests hlower hupper).mpr ⟨hend, hle, hparent⟩)
      exact hlower.trans (subtree_nested hpos hgt hinside).1
  · rintro ⟨hend, hlt, hparentLower, hparentUpper⟩
    obtain ⟨x', hx', hle⟩ := h.exists_reduced hparentLower hparentUpper hend hlt
    have hsame : x = x' := le_antisymm (h.le_of_crosses hx' hx (hend.trans hle))
      (h.le_of_crosses hx hx' (h.crosses_of_requests hx hrequests))
    exact ⟨hend, hsame ▸ hle, hparentUpper⟩

theorem incomingAt_indices (h : Distributed p n comms origin) {me : Fin p} {x : ℕ}
    (hx : x ∈ reducedBy comms origin me) :
    (comms me).requests x = (incomingAt comms origin me x).flatMap Delivery.indices := by
  unfold incomingAt
  split
  · rename_i hnone
    rw [hnone, List.flatMap_nil]
  · rename_i hsome
    exact h.requests_eq_incoming hx hsome

theorem mem_incoming {me : Fin p} {delivery : Delivery (Fin p)}
    (h : Distributed p n comms origin) :
    delivery ∈ incoming comms origin me ↔
      ∃ batch ∈ outgoing comms origin delivery.source,
        batch.target = me ∧ batch.indices = delivery.indices := by
  simp only [incoming, List.mem_flatMap, List.mem_map, List.mem_filter, decide_eq_true_eq]
  constructor
  · rintro ⟨source, -, batch, ⟨hbatch, htarget⟩, rfl⟩
    exact ⟨batch, hbatch, htarget, rfl⟩
  · rintro ⟨batch, hbatch, htarget, hindices⟩
    refine ⟨delivery.source, ?_, batch, ⟨hbatch, htarget⟩, by rw [hindices]⟩
    obtain ⟨index, hindex⟩ := List.exists_mem_of_ne_nil _
      (outgoing_wellFormed _ batch hbatch).nonempty
    have hinside := h.mem_elements.mp (mem_elements_of_batch hbatch hindex)
    have := (h.region delivery.source).regionEnd
    rw [mem_ranksInOrder]
    omega

/-- All messages that a rank expects arrive while it reduces some index. -/
theorem mem_flatMap_incomingAt (h : Distributed p n comms origin) (me : Fin p)
    (delivery : Delivery (Fin p)) :
    delivery ∈ (reducedBy comms origin me).flatMap (incomingAt comms origin me) ↔
      delivery ∈ incoming comms origin me := by
  rw [List.mem_flatMap]
  constructor
  · rintro ⟨x, -, hdelivery⟩
    unfold incomingAt at hdelivery
    split at hdelivery
    · cases hdelivery
    · exact hdelivery
  · intro hdelivery
    obtain ⟨batch, hbatch, htarget, hindices⟩ := h.mem_incoming.mp hdelivery
    obtain ⟨g, hg⟩ := List.exists_mem_of_ne_nil _ (outgoing_wellFormed _ batch hbatch).nonempty
    obtain ⟨hend, hlt, hlower, hupper⟩ := h.mem_incoming_indices.mp
      (List.mem_flatMap.mpr ⟨delivery, hdelivery, hindices ▸ hg⟩)
    obtain ⟨x, hx, hle⟩ := h.exists_reduced hlower hupper hend hlt
    obtain ⟨hxLower, hxUpper⟩ := h.reducedBy_inside hx
    have hrequests : g ∈ (comms me).requests x :=
      ((h.region me).mem_requests hxLower hxUpper).mpr ⟨hend, hle, hupper⟩
    refine ⟨x, hx, ?_⟩
    rwa [incomingAt, if_neg (List.ne_nil_of_mem hrequests)]

/-! ## Slots -/

/-- Position of an index in the message that carries it. -/
def slotOf (messages : List (Delivery (Fin p))) (index : ℕ) : ℕ :=
  match messages.find? fun delivery => index ∈ delivery.indices with
  | some delivery => delivery.indices.idxOf index
  | none => 0

theorem aligned_slotOf {messages : List (Delivery (Fin p))} {delivery : Delivery (Fin p)}
    (hnodup : (messages.flatMap Delivery.indices).Nodup) (hdelivery : delivery ∈ messages)
    (hnonzero : ∀ index ∈ delivery.indices, index ≠ 0) :
    Aligned (slotOf messages) delivery.indices := by
  intro s index hs
  have hindex : index ∈ delivery.indices := List.mem_of_getElem? hs
  refine ⟨hnonzero index hindex, ?_⟩
  obtain ⟨hnodupEach, hdisjoint⟩ := List.nodup_flatMap.mp hnodup
  cases hfind : messages.find? fun other => index ∈ other.indices with
  | none =>
      have := List.find?_eq_none.mp hfind delivery hdelivery
      simp [hindex] at this
  | some found =>
      have hfound : index ∈ found.indices := by simpa using List.find?_some hfind
      have hsame : found = delivery := by
        have : Std.Symm (Function.onFun List.Disjoint (@Delivery.indices (Fin p))) :=
          ⟨fun _ _ hdisjoint => hdisjoint.symm⟩
        by_contra hne
        exact hdisjoint.forall (List.mem_of_find?_eq_some hfind) hdelivery hne hfound hindex
      obtain ⟨hlt, hget⟩ := List.getElem?_eq_some_iff.mp hs
      rw [slotOf, hfind, hsame]
      dsimp only
      rw [← hget]
      exact (hnodupEach delivery hdelivery).idxOf_getElem s hlt

theorem incoming_wellFormed (h : Distributed p n comms origin) {me : Fin p}
    {delivery : Delivery (Fin p)} (hdelivery : delivery ∈ incoming comms origin me) :
    delivery.WellFormed (slotOf (incoming comms origin me)) ((comms me).rankOfIndex p) := by
  obtain ⟨batch, hbatch, -, hindices⟩ := h.mem_incoming.mp hdelivery
  have hwellFormed := outgoing_wellFormed _ batch hbatch
  have helements : ∀ index ∈ delivery.indices,
      index ∈ (comms delivery.source).rankIntersectingElements := fun index hindex =>
    mem_elements_of_batch hbatch (hindices ▸ hindex)
  refine ⟨hindices ▸ hwellFormed.nonempty, hindices ▸ hwellFormed.length_le, ?_, ?_⟩
  · refine aligned_slotOf ?_ hdelivery fun index hindex => ?_
    · exact (h.incoming_sorted me).imp fun hlt => hlt.ne
    · have := h.mem_elements.mp (helements index hindex)
      omega
  · intro index hindex
    obtain ⟨hlower, hupper, -⟩ := h.mem_elements.mp (helements index hindex)
    exact h.lookup me _ index hlower hupper

theorem incomingAt_wellFormed (h : Distributed p n comms origin) {me : Fin p} {x : ℕ}
    {delivery : Delivery (Fin p)} (hdelivery : delivery ∈ incomingAt comms origin me x) :
    delivery.WellFormed (slotOf (incoming comms origin me)) ((comms me).rankOfIndex p) := by
  unfold incomingAt at hdelivery
  split at hdelivery
  · cases hdelivery
  · exact h.incoming_wellFormed hdelivery

theorem target_ne (h : Distributed p n comms origin) {rank : Fin p} {batch : Batch (Fin p)}
    (hbatch : batch ∈ outgoing comms origin rank) : rank ≠ batch.target := by
  have hwellFormed := outgoing_wellFormed _ batch hbatch
  obtain ⟨index, hindex⟩ := List.exists_mem_of_ne_nil _ hwellFormed.nonempty
  obtain ⟨hlower, hupper, hparent⟩ := h.mem_elements.mp (mem_elements_of_batch hbatch hindex)
  have htarget := (h.exists_targetOf _ (by omega) (h.lt_of_mem hlower hupper)).1
  rw [hwellFormed.target_eq index hindex] at htarget
  rintro rfl
  omega

theorem expectedMessages (h : Distributed p n comms origin) (me : Fin p) :
    ExpectedMessages (comms me) (slotOf (incoming comms origin me)) (targetOf comms origin)
      (incomingAt comms origin me) (comms me).rankIntersectingElements where
  target index hindex := by
    obtain ⟨hlower, hupper, hparent⟩ := h.mem_elements.mp hindex
    obtain ⟨htargetLower, htargetUpper⟩ :=
      h.exists_targetOf index (by omega) (h.lt_of_mem hlower hupper)
    exact h.lookup me _ _ htargetLower htargetUpper
  nonzero index hindex := by
    have := h.mem_elements.mp hindex
    omega
  inside index hindex := h.reducedBy_inside (List.mem_append_left _ hindex)
  requests index hindex := h.incomingAt_indices (List.mem_append_left _ hindex)
  wellFormed index _ delivery hdelivery := h.incomingAt_wellFormed hdelivery

theorem expectedAtOrigin (h : Distributed p n comms origin) {me : Fin p}
    (hme : me = origin) :
    ExpectedAtOrigin (comms me) (slotOf (incoming comms origin me)) me
      (incomingAt comms origin me 0) where
  inside := ⟨hme ▸ h.originBegin, hme ▸ h.originSize⟩
  requests := h.incomingAt_indices (by simp [reducedBy, hme])
  wellFormed delivery hdelivery := h.incomingAt_wellFormed hdelivery
  source_ne delivery hdelivery := by
    have hmem := h.mem_flatMap_incomingAt me delivery
    obtain ⟨batch, hbatch, htarget, -⟩ := h.mem_incoming.mp (hmem.mp
      (List.mem_flatMap.mpr ⟨0, by simp [reducedBy, hme], hdelivery⟩))
    exact htarget ▸ h.target_ne hbatch

/-! ## The choreography of one reduction -/

section Traces

variable {T : Type} (values : ℕ → T)

/-- Messages of one rank in one reduction. -/
def localTrace (comms : Fin p → ReproducibleCommunicator) (origin : Fin p) (values : ℕ → T)
    (me : Fin p) : List (Event (Fin p) (Message T) T) :=
  rankTrace me values (targetOf comms origin) (comms me).flushesBefore
    (incomingAt comms origin me) (comms me).rankIntersectingElements (decide (me = origin))

theorem mem_localTrace (h : Distributed p n comms origin) {me : Fin p}
    {event : Event (Fin p) (Message T) T} :
    event ∈ localTrace comms origin values me ↔
      ∃ source, ∃ batch ∈ outgoing comms origin source,
        event = batch.event source values ∧ (me = source ∨ me = batch.target) := by
  have hmessages : event ∈ localTrace comms origin values me ↔
      event ∈ (outgoing comms origin me).map (Batch.event me values) ∨
        event ∈ (incoming comms origin me).map (Delivery.event me values) := by
    have hincoming : event ∈ (incoming comms origin me).map (Delivery.event me values) ↔
        event ∈ ((reducedBy comms origin me).flatMap (incomingAt comms origin me)).map
          (Delivery.event me values) := by
      simp only [List.mem_map, h.mem_flatMap_incomingAt]
    rw [hincoming, localTrace, rankTrace, List.mem_append, List.mem_append,
      mem_communicateTrace, reducedBy, List.flatMap_append, List.map_append, List.mem_append,
      or_assoc, outgoing]
    by_cases hme : me = origin <;> simp [hme]
  rw [hmessages, List.mem_map, List.mem_map]
  constructor
  · rintro (⟨batch, hbatch, rfl⟩ | ⟨delivery, hdelivery, rfl⟩)
    · exact ⟨me, batch, hbatch, rfl, Or.inl rfl⟩
    · obtain ⟨batch, hbatch, htarget, hindices⟩ := h.mem_incoming.mp hdelivery
      refine ⟨delivery.source, batch, hbatch, ?_, Or.inr htarget.symm⟩
      rw [Batch.event, Delivery.event, htarget, hindices]
  · rintro ⟨source, batch, hbatch, rfl, hme⟩
    obtain rfl | htarget := hme
    · exact Or.inl ⟨batch, hbatch, rfl⟩
    · refine Or.inr ⟨⟨source, batch.indices⟩, ?_, by rw [Batch.event, Delivery.event, htarget]⟩
      exact h.mem_incoming.mpr ⟨batch, hbatch, htarget.symm, rfl⟩

/-- The messages of every rank happen in the order of all messages. -/
theorem localTrace_sorted (h : Distributed p n comms origin) (me : Fin p) :
    (localTrace comms origin values me).Pairwise fun left right =>
      sendKey (firstIndex left) < sendKey (firstIndex right) := by
  have hregion := h.region me
  have hdeliveries : ∀ x ∈ reducedBy comms origin me,
      ((incomingAt comms origin me x).map fun delivery => headIndex delivery.indices).Sublist
        ((comms me).requests x) := by
    intro x hx
    rw [h.incomingAt_indices hx]
    exact headIndex_sublist Delivery.indices fun delivery hdelivery =>
      (h.incomingAt_wellFormed hdelivery).nonempty
  have hflushes : ∀ index ∈ (comms me).rankIntersectingElements,
      (comms me).flushesBefore index = false → incomingAt comms origin me index = [] := by
    intro index _ hflush
    simp only [ReproducibleCommunicator.flushesBefore, Bool.or_eq_false_iff,
      Bool.not_eq_false', List.isEmpty_iff] at hflush
    rw [incomingAt, if_pos hflush.2]
  have hcommunicate := communicateTrace_firstIndex me values
    (targetOf comms origin) none (by simp [Outbox.WellFormed]) hflushes
  rw [← List.pairwise_map (f := firstIndex) (R := fun i j => sendKey i < sendKey j)]
  unfold localTrace rankTrace
  rw [List.map_append]
  obtain hzero | hpos := Nat.eq_zero_or_pos (comms me).regionBegin
  · rw [h.elements_eq_nil hzero] at hcommunicate ⊢
    by_cases hme : me = origin
    · have hsize := hme ▸ h.originSize
      have hkeys := hregion.requests_keys 0 (by omega)
        (by rw [hregion.regionEnd]; omega)
      simpa [communicateTrace, hme, Function.comp_def] using
        hkeys.sublist (hme ▸ hdeliveries 0 (by simp [reducedBy, hme]))
    · simp [communicateTrace, hme]
  · have hme : me ≠ origin := by
      rintro rfl
      have := h.originBegin
      omega
    have hall := hregion.elements_keys hpos (h.tiles hpos)
    simp only [hme, decide_false, Bool.false_eq_true, if_false, List.map_nil, List.append_nil]
    refine hall.sublist (hcommunicate.trans ?_)
    simp only [Option.toList_none, List.map_nil, List.nil_append]
    exact List.Sublist.flatMap_right _ fun x hx =>
      (hdeliveries x (List.mem_append_left _ hx)).append_right _

/-- The traces of all ranks are the projections of one choreography. -/
theorem exists_trace (h : Distributed p n comms origin) :
    ∃ trace, Proper trace ∧
      ∀ me, project me trace = localTrace comms origin values me := by
  obtain ⟨trace, hproject, hmem⟩ := exists_trace_of_sorted
    (fun event => sendKey (firstIndex event)) (h.localTrace_sorted values) fun me event => by
      constructor
      · intro hevent
        obtain ⟨source, batch, hbatch, rfl, hme⟩ := (h.mem_localTrace values).mp hevent
        exact ⟨hme, me, hevent⟩
      · rintro ⟨hinvolved, other, hevent⟩
        obtain ⟨source, batch, hbatch, rfl, -⟩ := (h.mem_localTrace values).mp hevent
        exact (h.mem_localTrace values).mpr ⟨source, batch, hbatch, rfl, hinvolved⟩
  refine ⟨trace, fun src dst msg hevent => ?_, hproject⟩
  obtain ⟨me, hevent⟩ := hmem _ hevent
  obtain ⟨source, batch, hbatch, heq, -⟩ := (h.mem_localTrace values).mp hevent
  simp only [Batch.event, Event.message.injEq] at heq
  rw [heq.1, heq.2.1]
  exact h.target_ne hbatch

end Traces

end Distributed

end MpiBindings.ReproducibleReduce

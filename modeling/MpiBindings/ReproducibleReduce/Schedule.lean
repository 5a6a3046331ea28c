import MpiBindings.ReproducibleReduce.RankSpec
import Mathlib.Data.Prod.Lex

/-!
# Who sends what to whom

The results that a rank asks for are exactly those that the other ranks put for
it, in the same order, and each batch arrives before its results are used.  All
messages are ordered by the end of the subtree of their first index, inner
subtrees first; the messages of every rank happen in this order.
-/

namespace MpiBindings.ReproducibleReduce

open MessagePassing Choreography

/-! ## Elements of a region -/

section Elements

variable {regionBegin regionEnd index : ℕ} {indices : List ℕ}

/-- The subtrees of the communicated elements tile the region. -/
structure TilesRegion (regionBegin regionEnd index : ℕ) (indices : List ℕ) : Prop where
  inside : ∀ x ∈ indices, index ≤ x ∧ x < regionEnd ∧ treeParent x < regionBegin
  disjoint : indices.Pairwise fun x y => x + treeSubtreeSize x ≤ y
  cover : ∀ i, index ≤ i → i < regionEnd → ∃ x ∈ indices, x ≤ i ∧ i < x + treeSubtreeSize x

/-- Induction along the elements that the search returns. -/
theorem intersectingElementsFrom_induction {motive : ℕ → List ℕ → Prop}
    (stop : ∀ index, regionEnd ≤ index → motive index [])
    (step : ∀ index rest, index < regionEnd → (0 < index → treeParent index < regionBegin) →
      motive (index + treeSubtreeSize index) rest → motive index (index :: rest))
    (helements : intersectingElementsFrom regionBegin regionEnd index = some indices) :
    motive index indices := by
  induction index using intersectingElementsFrom.induct regionBegin regionEnd
    generalizing indices with
  | case1 index hlt hfails =>
      rw [intersectingElementsFrom, if_pos hlt, if_pos hfails] at helements
      cases helements
  | case2 index hlt hholds ih =>
      rw [intersectingElementsFrom, if_pos hlt, if_neg hholds, Option.map_eq_some_iff]
        at helements
      obtain ⟨rest, hrest, rfl⟩ := helements
      exact step index rest hlt (fun hpos => by_contra fun hparent => hholds ⟨hpos, hparent⟩)
        (ih hrest)
  | case3 index hge =>
      rw [intersectingElementsFrom, if_neg hge] at helements
      obtain rfl := Option.some.inj helements
      exact stop index (Nat.le_of_not_lt hge)

theorem intersectingElementsFrom_tiles (hpos : 0 < index)
    (helements : intersectingElementsFrom regionBegin regionEnd index = some indices) :
    TilesRegion regionBegin regionEnd index indices := by
  refine intersectingElementsFrom_induction
    (motive := fun index indices => 0 < index → TilesRegion regionBegin regionEnd index indices)
    (fun index hge _ => ?_) (fun index rest hlt hparent ih hpos => ?_) helements hpos
  · exact ⟨by simp, List.Pairwise.nil, fun i hlower hupper => by omega⟩
  · obtain ⟨hinside, hdisjoint, hcover⟩ := ih (Nat.add_pos_left hpos _)
    have hsize := treeSubtreeSize_pos index
    refine ⟨?_, List.pairwise_cons.mpr ⟨fun y hy => (hinside y hy).1, hdisjoint⟩, ?_⟩
    · intro x hx
      obtain rfl | hx := List.mem_cons.mp hx
      · exact ⟨le_rfl, hlt, hparent hpos⟩
      · obtain ⟨hlower, hupper, hparent⟩ := hinside x hx
        exact ⟨by omega, hupper, hparent⟩
    · intro i hlower hupper
      by_cases hnext : i < index + treeSubtreeSize index
      · exact ⟨index, List.mem_cons_self, hlower, hnext⟩
      · obtain ⟨x, hx, hbounds⟩ := hcover i (by omega) hupper
        exact ⟨x, List.mem_cons_of_mem _ hx, hbounds⟩

theorem treeRankIntersectingElements_of_pos (hpos : 0 < regionBegin) :
    treeRankIntersectingElements regionBegin regionEnd =
      intersectingElementsFrom regionBegin regionEnd regionBegin := by
  simp only [treeRankIntersectingElements]
  split_ifs with hempty
  · rw [intersectingElementsFrom, if_neg (by omega)]
  · rfl

/-- The elements of a region are those whose parent is in front of it. -/
theorem TilesRegion.mem_iff (hpos : 0 < regionBegin)
    (htiles : TilesRegion regionBegin regionEnd regionBegin indices) {x : ℕ} :
    x ∈ indices ↔ regionBegin ≤ x ∧ x < regionEnd ∧ treeParent x < regionBegin := by
  refine ⟨htiles.inside x, fun ⟨hlower, hupper, hparent⟩ => ?_⟩
  obtain ⟨y, hy, hle, hlt⟩ := htiles.cover x hlower hupper
  obtain rfl | hne := eq_or_lt_of_le hle
  · exact hy
  · have hbegin := (htiles.inside y hy).1
    have := (subtree_nested (by omega) hne hlt).1
    omega

/-- The loop's assertion never fails. -/
theorem exists_intersectingElementsFrom (hbegin : 0 < regionBegin) (hindex : regionBegin ≤ index)
    (hparent : treeParent index < regionBegin) :
    ∃ indices, intersectingElementsFrom regionBegin regionEnd index = some indices := by
  induction index using intersectingElementsFrom.induct regionBegin regionEnd with
  | case1 index hlt hfails => exact absurd hparent hfails.2
  | case2 index hlt hholds ih =>
      have hnext := treeParent_next_le (show 0 < index by omega)
      obtain ⟨rest, hrest⟩ := ih (by omega) (by omega)
      rw [intersectingElementsFrom, if_pos hlt, if_neg hholds, hrest]
      exact ⟨_, rfl⟩
  | case3 index hge =>
      rw [intersectingElementsFrom, if_neg hge]
      exact ⟨_, rfl⟩

end Elements

/-! ## Batches -/

section Batches

variable {Rank : Type} [DecidableEq Rank]

/-- Batches that a rank sends while it puts the given indices.  `flushes` tells
whether the pending batch is sent before the index is reduced. -/
def outgoingFrom (targetOf : ℕ → Rank) (flushes : ℕ → Bool) :
    List ℕ → Outbox Rank → List (Batch Rank)
  | [], outbox => outbox.toList
  | index :: indices, outbox =>
      let flushed : Outbox Rank := if flushes index then outbox else none
      let kept : Outbox Rank := if flushes index then none else outbox
      let (sent, collected) := Outbox.put kept (targetOf index) index
      flushed.toList ++ sent ++ outgoingFrom targetOf flushes indices collected

/-- All indices of a batch go to its target. -/
structure Batch.WellFormed (targetOf : ℕ → Rank) (batch : Batch Rank) : Prop where
  nonempty : batch.indices ≠ []
  length_le : batch.indices.length ≤ maxMessageLength
  target_eq : ∀ index ∈ batch.indices, targetOf index = batch.target

/-- A collected batch has room for another index. -/
def Outbox.WellFormed (targetOf : ℕ → Rank) (outbox : Outbox Rank) : Prop :=
  ∀ batch ∈ outbox, batch.WellFormed targetOf ∧ batch.indices.length < maxMessageLength

variable {targetOf : ℕ → Rank} {outbox : Outbox Rank}

theorem Outbox.put_indices (target : Rank) (index : ℕ) :
    (outbox.put target index).1.flatMap Batch.indices ++
        (outbox.put target index).2.toList.flatMap Batch.indices =
      outbox.toList.flatMap Batch.indices ++ [index] := by
  cases outbox with
  | none => simp [Outbox.put, Outbox.split, Outbox.close, maxMessageLength]
  | some batch =>
      by_cases htarget : batch.target = target
      · by_cases hfull : batch.indices.length + 1 ≥ maxMessageLength <;>
          simp [Outbox.put, Outbox.split, Outbox.close, htarget, hfull]
      · simp [Outbox.put, Outbox.split, Outbox.close, htarget, maxMessageLength]

theorem Outbox.put_wellFormed (index : ℕ) (houtbox : outbox.WellFormed targetOf) :
    (∀ batch ∈ (outbox.put (targetOf index) index).1, batch.WellFormed targetOf) ∧
      (outbox.put (targetOf index) index).2.WellFormed targetOf := by
  have hsplit : (∀ batch ∈ (outbox.split (targetOf index)).1, batch.WellFormed targetOf) ∧
      (outbox.split (targetOf index)).2.length < maxMessageLength ∧
      ∀ i ∈ (outbox.split (targetOf index)).2, targetOf i = targetOf index := by
    cases outbox with
    | none => simp [Outbox.split, maxMessageLength]
    | some batch =>
        obtain ⟨hbatch, hlength⟩ := houtbox batch rfl
        by_cases htarget : batch.target = targetOf index
        · simpa [Outbox.split, htarget, hlength] using htarget ▸ hbatch.target_eq
        · simpa [Outbox.split, htarget, maxMessageLength] using hbatch
  obtain ⟨hsent, hlength, htarget⟩ := hsplit
  have hclosed : Batch.WellFormed targetOf
      ⟨targetOf index, (outbox.split (targetOf index)).2 ++ [index]⟩ := by
    refine ⟨by simp, by simpa using hlength, fun i hi => ?_⟩
    obtain hi | hi := List.mem_append.mp hi
    · exact htarget i hi
    · rw [List.mem_singleton.mp hi]
  simp only [Outbox.put, Outbox.close]
  split
  · refine ⟨fun batch hbatch => ?_, by simp [Outbox.WellFormed]⟩
    obtain hbatch | hbatch := List.mem_append.mp hbatch
    · exact hsent batch (by simpa using hbatch)
    · obtain rfl : batch = _ := by simpa using hbatch
      exact hclosed
  · rename_i hroom
    refine ⟨fun batch hbatch => hsent batch (by simpa using hbatch), ?_⟩
    rintro batch hbatch
    obtain rfl := Option.some.inj hbatch
    exact ⟨hclosed, Nat.lt_of_not_ge hroom⟩

theorem outgoingFrom_indices (flushes : ℕ → Bool) (indices : List ℕ) :
    (outgoingFrom targetOf flushes indices outbox).flatMap Batch.indices =
      outbox.toList.flatMap Batch.indices ++ indices := by
  induction indices generalizing outbox with
  | nil => simp [outgoingFrom]
  | cons index indices ih =>
      simp only [outgoingFrom, List.flatMap_append, ih, ← List.append_assoc]
      rw [List.append_assoc _ _ (List.flatMap _ _), Outbox.put_indices]
      cases flushes index <;> simp

theorem outgoingFrom_wellFormed (flushes : ℕ → Bool) (indices : List ℕ)
    (houtbox : outbox.WellFormed targetOf) :
    ∀ batch ∈ outgoingFrom targetOf flushes indices outbox, batch.WellFormed targetOf := by
  induction indices generalizing outbox with
  | nil => exact fun batch hbatch => (houtbox batch (by simpa [outgoingFrom] using hbatch)).1
  | cons index indices ih =>
      have hflushed : ∀ batch ∈ (if flushes index then outbox else none : Outbox Rank),
          batch.WellFormed targetOf := by
        intro batch hbatch
        split at hbatch
        · exact (houtbox batch hbatch).1
        · cases hbatch
      have hkept : Outbox.WellFormed targetOf (if flushes index then none else outbox) := by
        intro batch hbatch
        split at hbatch
        · cases hbatch
        · exact houtbox batch hbatch
      obtain ⟨hsent, hcollected⟩ := Outbox.put_wellFormed index hkept
      intro batch hbatch
      simp only [outgoingFrom, List.mem_append] at hbatch
      obtain (hbatch | hbatch) | hbatch := hbatch
      · exact hflushed batch (by simpa using hbatch)
      · exact hsent batch hbatch
      · exact ih hcollected batch hbatch

end Batches

/-! ## The trace of one rank -/

section Trace

variable {Rank T : Type} [DecidableEq Rank] {me : Rank} {values : ℕ → T}
variable {targetOf : ℕ → Rank} {flushes : ℕ → Bool}
variable {incomingAt : ℕ → List (Delivery Rank)} {indices : List ℕ} {outbox : Outbox Rank}

/-- The messages of a rank are the batches that it sends and those it expects. -/
theorem mem_communicateTrace {event : Event Rank (Message T) T} :
    (event ∈ (communicateTrace me values targetOf flushes incomingAt indices outbox).1 ∨
      event ∈ (communicateTrace me values targetOf flushes incomingAt indices
        outbox).2.toList.map (Batch.event me values)) ↔
      event ∈ (outgoingFrom targetOf flushes indices outbox).map (Batch.event me values) ∨
        event ∈ (indices.flatMap incomingAt).map (Delivery.event me values) := by
  induction indices generalizing outbox with
  | nil => simp [communicateTrace, outgoingFrom]
  | cons index indices ih =>
      have hrest := @ih (Outbox.put (if flushes index then none else outbox)
        (targetOf index) index).2
      simp only [communicateTrace, outgoingFrom, List.map_append, List.mem_append,
        List.flatMap_cons, or_assoc] at hrest ⊢
      rw [hrest]
      -- the deliveries move behind the batches
      apply or_congr_right
      rw [or_left_comm]
      apply or_congr_right
      exact or_left_comm

/-- Index of the first entry of a message. -/
def firstIndex : Event Rank (Message T) T → ℕ
  | .message _ _ message => (message.head?.map MessageBufferEntry.index).getD 0
  | .broadcast _ _ => 0

def headIndex (indices : List ℕ) : ℕ := indices.head?.getD 0

omit [DecidableEq Rank] in
@[simp]
theorem firstIndex_batch (batch : Batch Rank) :
    firstIndex (batch.event me values) = headIndex batch.indices := by
  simp [firstIndex, Batch.event, entriesOf, headIndex, Function.comp_def]

omit [DecidableEq Rank] in
@[simp]
theorem firstIndex_delivery (delivery : Delivery Rank) :
    firstIndex (delivery.event me values) = headIndex delivery.indices := by
  simp [firstIndex, Delivery.event, entriesOf, headIndex, Function.comp_def]

/-- The first indices of messages are a part of all their indices. -/
theorem headIndex_sublist {α : Type} {messages : List α} (indicesOf : α → List ℕ)
    (hnonempty : ∀ message ∈ messages, indicesOf message ≠ []) :
    (messages.map fun message => headIndex (indicesOf message)).Sublist
      (messages.flatMap indicesOf) := by
  induction messages with
  | nil => exact List.Sublist.slnil
  | cons message messages ih =>
      have hrest := ih fun other hother => hnonempty other (List.mem_cons_of_mem _ hother)
      have hne := hnonempty message List.mem_cons_self
      rw [List.map_cons, List.flatMap_cons]
      cases hindices : indicesOf message with
      | nil => exact absurd hindices hne
      | cons first rest =>
          simpa [headIndex] using hrest.trans (List.sublist_append_right _ _)

theorem put_headIndex (houtbox : ∀ batch ∈ outbox, batch.indices ≠ []) (target : Rank)
    (index : ℕ) :
    (((outbox.put target index).1 ++ (outbox.put target index).2.toList).map fun batch =>
        headIndex batch.indices).Sublist
      ((outbox.toList.map fun batch => headIndex batch.indices) ++ [index]) := by
  cases outbox with
  | none => simp [Outbox.put, Outbox.split, Outbox.close, maxMessageLength, headIndex]
  | some batch =>
      obtain ⟨first, rest, hindices⟩ := List.exists_cons_of_ne_nil (houtbox batch rfl)
      by_cases htarget : batch.target = target
      · simp only [Outbox.put, Outbox.split, Outbox.close, htarget, if_true, hindices]
        split <;> simp [hindices, headIndex]
      · simp [Outbox.put, Outbox.split, Outbox.close, htarget, maxMessageLength, headIndex]

theorem sublist_splice {α : Type} {sent collected pending rest all : List α}
    (hput : (sent ++ collected).Sublist pending) (hrest : rest.Sublist (collected ++ all)) :
    (sent ++ rest).Sublist (pending ++ all) := by
  refine (hrest.append_left sent).trans ?_
  rw [← List.append_assoc]
  exact hput.append_right all

variable (me values targetOf outbox) in
/-- The messages of a rank begin in the order in which it asks for indices and
puts them. -/
theorem communicateTrace_firstIndex (houtbox : outbox.WellFormed targetOf)
    (hflushes : ∀ index ∈ indices, flushes index = false → incomingAt index = []) :
    (((communicateTrace me values targetOf flushes incomingAt indices outbox).1 ++
        (communicateTrace me values targetOf flushes incomingAt indices
          outbox).2.toList.map (Batch.event me values)).map firstIndex).Sublist
      ((outbox.toList.map fun batch => headIndex batch.indices) ++
        indices.flatMap fun index =>
          ((incomingAt index).map fun delivery => headIndex delivery.indices) ++ [index]) := by
  induction indices generalizing outbox with
  | nil => simp [communicateTrace, Function.comp_def]
  | cons index indices ih =>
      have hkept : Outbox.WellFormed targetOf (if flushes index then none else outbox) := by
        intro batch hbatch
        split at hbatch
        · cases hbatch
        · exact houtbox batch hbatch
      have hrest := ih _ (Outbox.put_wellFormed index hkept).2 fun other hother =>
        hflushes other (List.mem_cons_of_mem _ hother)
      have hput := put_headIndex (fun batch hbatch => (hkept batch hbatch).1.nonempty)
        (targetOf index) index
      have hstep := sublist_splice (by simpa using hput) hrest
      simp only [communicateTrace, List.map_append, List.append_assoc] at hstep ⊢
      rw [List.flatMap_cons, List.append_assoc]
      simp only [List.map_map, Function.comp_def, firstIndex_batch, firstIndex_delivery]
        at hstep ⊢
      cases hflush : flushes index with
      | true =>
          simp only [hflush, if_true, Option.toList_none, List.map_nil, List.nil_append] at hstep ⊢
          exact (hstep.append_left _).append_left _
      | false =>
          simpa [hflush, hflushes index List.mem_cons_self hflush] using hstep

end Trace

/-! ## The order of all messages -/

/-- Messages are ordered by the end of the subtree of their first index, inner
subtrees first. -/
def sendKey (index : ℕ) : ℕ ×ₗ ℕᵒᵈ :=
  toLex (index + treeSubtreeSize index, OrderDual.toDual index)

theorem sendKey_lt_of_end_lt {i j : ℕ}
    (hlt : i + treeSubtreeSize i < j + treeSubtreeSize j) : sendKey i < sendKey j :=
  Prod.Lex.toLex_lt_toLex.mpr (Or.inl hlt)

/-- The results inside of a subtree come before the result of the subtree. -/
theorem sendKey_lt_of_inside {i j : ℕ} (hi : 0 < i) (hlower : i < j)
    (hupper : j < i + treeSubtreeSize i) : sendKey j < sendKey i := by
  obtain hlt | heq := (subtree_nested hi hlower hupper).2.lt_or_eq
  · exact sendKey_lt_of_end_lt hlt
  · exact Prod.Lex.toLex_lt_toLex.mpr (Or.inr ⟨heq, hlower⟩)

section Order

variable {n index : ℕ} {comm : ReproducibleCommunicator} {indices : List ℕ}

theorem LocalRegion.mem_requests (hregion : LocalRegion n comm)
    (hlower : comm.regionBegin ≤ index) (hupper : index < comm.regionEnd) {g : ℕ} :
    g ∈ comm.requests index ↔
      comm.regionEnd ≤ g ∧ g ≤ comm.maxX index ∧ treeParent g < comm.regionEnd := by
  have hend := hregion.regionEnd
  have hinside := hregion.inside (by omega)
  have hbounds : SubtreeBounds n index _ _ := hregion.subtreeBounds (by omega)
  have hle := hbounds.le
  have hmaxX := hbounds.upper
  unfold ReproducibleCommunicator.requests
  split
  · rename_i hodd
    rw [ReproducibleCommunicator.maxY, if_neg (by omega), subtreeHeight_of_odd hodd] at hmaxX
    simp only [List.not_mem_nil, false_iff]
    omega
  · have hlocal : index + comm.nLocalElements index =
        min (comm.maxX index + 1) comm.regionEnd := by
      simp only [ReproducibleCommunicator.nLocalElements]
      omega
    rw [mem_requestsFrom hbounds (by omega), hlocal]
    omega

theorem requests_sorted (comm : ReproducibleCommunicator) (index : ℕ) :
    (comm.requests index).Pairwise (· < ·) := by
  unfold ReproducibleCommunicator.requests
  split
  · exact List.Pairwise.nil
  · exact requestsFrom_sorted _ _ _ _ _

/-- The subtrees of the requested results are disjoint. -/
theorem LocalRegion.requests_disjoint (hregion : LocalRegion n comm)
    (hlower : comm.regionBegin ≤ index) (hupper : index < comm.regionEnd) :
    (comm.requests index).Pairwise fun g g' => g + treeSubtreeSize g ≤ g' := by
  refine (requests_sorted comm index).imp_of_mem fun {g g'} hg hg' hlt => ?_
  obtain ⟨hend, -, -⟩ := (hregion.mem_requests hlower hupper).mp hg
  obtain ⟨-, -, hparent⟩ := (hregion.mem_requests hlower hupper).mp hg'
  by_contra hinside
  have := (subtree_nested (by omega) hlt (Nat.lt_of_not_le hinside)).1
  omega

variable (index) in
theorem LocalRegion.requests_keys (hregion : LocalRegion n comm)
    (hlower : comm.regionBegin ≤ index) (hupper : index < comm.regionEnd) :
    (comm.requests index).Pairwise fun g g' => sendKey g < sendKey g' := by
  refine (hregion.requests_disjoint hlower hupper).imp fun {g g'} hle => ?_
  have := treeSubtreeSize_pos g'
  exact sendKey_lt_of_end_lt (by omega)

/-- A requested result lies inside of the subtree that is reduced. -/
theorem LocalRegion.requests_inside (hregion : LocalRegion n comm)
    (hlower : comm.regionBegin ≤ index) (hupper : index < comm.regionEnd)
    (hpos : 0 < index) {g : ℕ} (hg : g ∈ comm.requests index) :
    index < g ∧ g < index + treeSubtreeSize index := by
  have hend := hregion.regionEnd
  have hinside := hregion.inside (by omega)
  have hbounds : SubtreeBounds n index _ _ := hregion.subtreeBounds (by omega)
  have hmaxX := hbounds.upper
  rw [ReproducibleCommunicator.maxY, if_neg hpos.ne', ← treeSubtreeSize_eq_two_pow hpos]
    at hmaxX
  obtain ⟨hge, hle, -⟩ := (hregion.mem_requests hlower hupper).mp hg
  omega

/-- A rank asks for results and puts its own ones in the order of all messages. -/
theorem LocalRegion.elements_keys (hregion : LocalRegion n comm)
    (hpos : 0 < comm.regionBegin)
    (htiles : TilesRegion comm.regionBegin comm.regionEnd comm.regionBegin indices) :
    (indices.flatMap fun index => comm.requests index ++ [index]).Pairwise
      fun i j => sendKey i < sendKey j := by
  have hwithin : ∀ x ∈ indices, ∀ y ∈ comm.requests x ++ [x],
      x ≤ y ∧ y + treeSubtreeSize y ≤ x + treeSubtreeSize x := by
    intro x hx y hy
    obtain ⟨hlower, hupper, -⟩ := htiles.inside x hx
    obtain hy | hy := List.mem_append.mp hy
    · obtain ⟨hgt, hlt⟩ := hregion.requests_inside hlower hupper (by omega) hy
      exact ⟨hgt.le, (subtree_nested (by omega) hgt hlt).2⟩
    · rw [List.mem_singleton.mp hy]
      exact ⟨le_rfl, le_rfl⟩
  refine List.pairwise_flatMap.mpr ⟨fun x hx => ?_, ?_⟩
  · obtain ⟨hlower, hupper, -⟩ := htiles.inside x hx
    refine List.pairwise_append.mpr ⟨hregion.requests_keys _ hlower hupper,
      List.pairwise_singleton _ _, fun g hg y hy => ?_⟩
    obtain ⟨hgt, hlt⟩ := hregion.requests_inside hlower hupper (by omega) hg
    rw [List.mem_singleton.mp hy]
    exact sendKey_lt_of_inside (by omega) hgt hlt
  · refine htiles.disjoint.imp_of_mem fun {x x'} hx hx' hle y hy y' hy' => ?_
    have hsize := treeSubtreeSize_pos y'
    have := (hwithin x hx y hy).2
    have := (hwithin x' hx' y' hy').1
    exact sendKey_lt_of_end_lt (by omega)

end Order

end MpiBindings.ReproducibleReduce

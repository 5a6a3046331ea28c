import MpiBindings.Core.FaultingState
import MpiBindings.ReproducibleReduce.Correctness

/-!
# Slots of the reduce buffer

Audit of the reduction of one rank: the slots of the reduce buffer are empty at the
beginning of every call, and reading an empty slot is a fault.  A pass halves the
filled slots, so the tree of an array with two elements or more leaves one filled
slot.  The tree of a single element takes no pass and leaves none.
-/

namespace MpiBindings.ReproducibleReduce

open FaultingState

section Audit

variable {p : ℕ} {T : Type}

/-- Effects on the slots of the reduce buffer, where `none` was not written in the
current call.  `received` are the results of other ranks. -/
def slotEffects (p : ℕ) {T : Type} (received : ℕ → T) :
    ReduceEffects p T (Faulting ReduceFault (List (Option T))) where
  fail := throw
  subtract minuend subtrahend :=
    if subtrahend ≤ minuend then pure (minuend - subtrahend) else throw .wrapped
  enterCall := modify fun slots => List.replicate slots.length none
  readReduceBuffer x := do
    match (← get)[x]? with
    | none => throw .outOfRange
    | some none => throw .unwritten
    | some (some value) => return value
  writeReduceBuffer x value := do
    if x < (← get).length then modify (·.set x (some value)) else throw .outOfRange
  flush := pure ()
  wait := pure ()
  put _ _ _ := pure ()
  get _ index := pure (received index)
  bcastSingle _ own := pure own

/-- The first elements of the source buffer can be read. -/
def SourceBuffer.Filled (count : ℕ) (slots : List (Option T)) : SourceBuffer T → Prop
  | .sendBuffer elements => count ≤ elements.length
  | .reduceBuffer => ∀ x < count, ∃ value, slots[x]? = some (some value)

variable {received : ℕ → T} {slots : List (Option T)} {source : SourceBuffer T}
variable {count w x : ℕ} {fails : ReduceFault → List (Option T) → Prop}

/-- Writing does not empty a slot. -/
theorem SourceBuffer.Filled.set (hfilled : source.Filled count slots) (value : T) :
    source.Filled count (slots.set w (some value)) := by
  cases source with
  | sendBuffer elements => exact hfilled
  | reduceBuffer =>
      intro x hx
      obtain ⟨old, hold⟩ := hfilled x hx
      by_cases hxw : w = x
      · subst hxw
        exact ⟨value, List.getElem?_set_self (List.getElem?_eq_some_iff.mp hold).1⟩
      · exact ⟨old, (List.getElem?_set_ne hxw).trans hold⟩

theorem filled_succ_set (hfilled : SourceBuffer.reduceBuffer.Filled w slots)
    (hw : w < slots.length) (value : T) :
    SourceBuffer.reduceBuffer.Filled (w + 1) (slots.set w (some value)) := by
  intro x hx
  by_cases hxw : w = x
  · subst hxw
    exact ⟨value, List.getElem?_set_self hw⟩
  · exact hfilled.set value x (by omega)

/-! ## Effects -/

section Effects

theorem wp_subtract {post : ℕ → List (Option T) → Prop} {minuend subtrahend : ℕ}
    (hle : subtrahend ≤ minuend) :
    wp fails ((slotEffects p received).subtract minuend subtrahend) post slots ↔
      post (minuend - subtrahend) slots := by
  simp only [slotEffects, if_pos hle, wp_pure]

theorem wp_subtract_wraps {post : ℕ → List (Option T) → Prop} {minuend subtrahend : ℕ}
    (hlt : minuend < subtrahend) :
    wp fails ((slotEffects p received).subtract minuend subtrahend) post slots ↔
      fails .wrapped slots := by
  simp only [slotEffects, if_neg (Nat.not_le_of_lt hlt), wp_throw]

theorem wp_enterCall {post : Unit → List (Option T) → Prop} :
    wp fails (slotEffects p received).enterCall post slots ↔
      post () (List.replicate slots.length none) := Iff.rfl

theorem wp_slotAssert {post : Unit → List (Option T) → Prop} {condition : Prop}
    [Decidable condition] (hholds : condition) :
    wp fails ((slotEffects p received).assertThat condition) post slots ↔ post () slots := by
  simp only [ReduceEffects.assertThat, if_pos hholds, wp_pure]

theorem wp_slotOption {α : Type} {post : α → List (Option T) → Prop} {fault : ReduceFault}
    (result : α) :
    wp fails ((slotEffects p received).ofOption fault (some result)) post slots ↔
      post result slots := Iff.rfl

theorem wp_readSlot {post : T → List (Option T) → Prop} :
    wp fails ((slotEffects p received).readReduceBuffer x) post slots ↔
      match slots[x]? with
      | none => fails .outOfRange slots
      | some none => fails .unwritten slots
      | some (some value) => post value slots := by
  change wp fails (match slots[x]? with
    | none => throw .outOfRange
    | some none => throw .unwritten
    | some (some value) => return value) post slots ↔ _
  rcases slots[x]? with _ | _ | value <;> rfl

theorem wp_writeSlot {post : Unit → List (Option T) → Prop} (value : T) (hx : x < slots.length) :
    wp fails ((slotEffects p received).writeReduceBuffer x value) post slots ↔
      post () (slots.set x (some value)) := by
  change wp fails (if x < slots.length then modify (·.set x (some value))
    else throw .outOfRange) post slots ↔ _
  rw [if_pos hx]
  rfl

theorem wp_readSource {post : T → List (Option T) → Prop} (hfilled : source.Filled count slots)
    (hx : x < count) (hpost : ∀ value, post value slots) :
    wp fails ((slotEffects p received).readSource source x) post slots := by
  cases source with
  | sendBuffer elements =>
      have hlength : x < elements.length := hx.trans_le hfilled
      simp only [ReduceEffects.readSource, List.getElem?_eq_getElem hlength, wp_slotOption]
      exact hpost _
  | reduceBuffer =>
      obtain ⟨value, hvalue⟩ := hfilled x hx
      simp only [ReduceEffects.readSource, wp_readSlot, hvalue]
      exact hpost value

end Effects

/-! ## Passes -/

section Passes

variable {comm : ReproducibleCommunicator} (op : T → T → T) {index maxX : ℕ}
variable {post : ℕ → List (Option T) → Prop}

/-- The pairs of the source buffer are reduced to half as many filled slots. -/
theorem wp_reducePairs (hfilled : source.Filled count slots) (hlength : count ≤ slots.length)
    (hw : 2 * w ≤ count) (hwritten : SourceBuffer.reduceBuffer.Filled w slots)
    (hpost : ∀ after, after.length = slots.length → source.Filled count after →
      SourceBuffer.reduceBuffer.Filled (count / 2) after → post (count / 2) after) :
    wp fails ((slotEffects p received).reducePairs op source count (2 * w) w) post slots := by
  induction hrest : count / 2 - w generalizing w slots with
  | zero =>
      have hlast : w = count / 2 := by omega
      rw [ReduceEffects.reducePairs, if_neg (by omega), wp_pure, hlast]
      exact hpost slots rfl hfilled (hlast ▸ hwritten)
  | succ rest ih =>
      rw [ReduceEffects.reducePairs, if_pos (by omega), wp_bind]
      refine wp_readSource hfilled (by omega) fun a => ?_
      rw [wp_bind]
      refine wp_readSource hfilled (by omega) fun b => ?_
      rw [wp_bind, wp_writeSlot _ (by omega)]
      refine ih (w := w + 1) (hfilled.set _) (by simpa using hlength) (by omega)
        (filled_succ_set hwritten (by omega) _) (fun after hafter => ?_) (by omega)
      exact hpost after (by simpa using hafter)

theorem wp_reduceRemaining {post : T → List (Option T) → Prop} {indexB : ℕ} (elementA : T)
    (hlookup : indexB ≤ maxX → ∃ rank, comm.rankOfIndex p indexB = some rank)
    (hpost : ∀ value, post value slots) :
    wp fails ((slotEffects p received).reduceRemaining comm op maxX indexB elementA) post
      slots := by
  unfold ReduceEffects.reduceRemaining
  by_cases hends : indexB > maxX
  · rw [if_pos hends, wp_pure]
    exact hpost _
  · obtain ⟨rank, hrank⟩ := hlookup (by omega)
    rw [if_neg hends, hrank, wp_bind, wp_slotOption, wp_bind]
    exact hpost _

theorem wp_reducePass (hlookup : ∀ i ≤ maxX, ∃ rank, comm.rankOfIndex p i = some rank) (y : ℕ)
    (hcount : 0 < count) (hfilled : source.Filled count slots) (hlength : count ≤ slots.length)
    (hpost : ∀ after, after.length = slots.length →
      SourceBuffer.reduceBuffer.Filled ((count + 1) / 2) after → post ((count + 1) / 2) after) :
    wp fails ((slotEffects p received).reducePass comm op index maxX (y + 1) source count) post
      slots := by
  unfold ReduceEffects.reducePass
  rw [wp_bind, wp_subtract (by omega), wp_bind]
  refine wp_reducePairs op (w := 0) hfilled hlength (by omega) (by simp [SourceBuffer.Filled]) ?_
  intro after hafter hkept hwritten
  rw [wp_bind, wp_subtract (by omega), wp_bind, wp_slotAssert (by omega)]
  obtain heven | hodd := Nat.mod_two_eq_zero_or_one count
  · have hhalf : (count + 1) / 2 = count / 2 := by omega
    rw [if_neg (by omega), wp_pure, ← hhalf]
    exact hpost after hafter (hhalf ▸ hwritten)
  · have hhalf : (count + 1) / 2 = count / 2 + 1 := by omega
    rw [if_pos (by omega), wp_bind, wp_subtract (by omega), wp_bind, wp_subtract (by omega),
      wp_bind]
    refine wp_readSource hkept (by omega) fun elementA => ?_
    rw [wp_bind]
    refine wp_reduceRemaining op elementA (hlookup _) fun result => ?_
    rw [wp_bind, wp_writeSlot _ (by omega), wp_pure, ← hhalf]
    exact hpost _ (by simpa using hafter) (hhalf ▸ filled_succ_set hwritten (by omega) _)

theorem wp_reducePasses {size level passes : ℕ}
    (hlookup : ∀ i ≤ maxX, ∃ rank, comm.rankOfIndex p i = some rank) (hsize : 0 < size)
    (hfilled : source.Filled (elementsAt size level) slots) (hlength : size ≤ slots.length)
    (hpost : ∀ after, after.length = slots.length →
      (if passes = 0 then source else .reduceBuffer).Filled (elementsAt size (level + passes))
        after → post (elementsAt size (level + passes)) after) :
    wp fails ((slotEffects p received).reducePasses comm op index maxX passes (level + 1) source
      (elementsAt size level)) post slots := by
  induction passes generalizing level source slots with
  | zero => exact hpost slots rfl hfilled
  | succ passes ih =>
      have hle := elementsAt_le size level
      rw [ReduceEffects.reducePasses, wp_bind]
      refine wp_reducePass op hlookup level (elementsAt_pos hsize level) hfilled (by omega) ?_
      intro after hafter hwritten
      rw [← elementsAt_succ] at hwritten ⊢
      refine ih hwritten (by omega) fun final hfinal hfilled' => ?_
      rw [ite_self, Nat.add_right_comm] at hfilled'
      rw [Nat.add_right_comm]
      exact hpost final (hfinal.trans hafter) hfilled'

end Passes

/-! ## Calls -/

section Calls

variable {n : ℕ} {comm : ReproducibleCommunicator} (op : T → T → T) {buffer : List T}

/-- The lookups of a rank succeed for all indices of the array. -/
def FindsRanks (p n : ℕ) (comm : ReproducibleCommunicator) : Prop :=
  ∀ i < n, ∃ rank, comm.rankOfIndex p i = some rank

theorem wp_maxX {post : ℕ → List (Option T) → Prop} {index : ℕ}
    (hglobal : 0 < comm.globalSize) :
    wp fails ((slotEffects p received).maxX comm index) post slots ↔
      post (comm.maxX index) slots := by
  unfold ReduceEffects.maxX ReproducibleCommunicator.maxX
  have hsize := treeSubtreeSize_pos index
  by_cases hzero : index = 0
  · rw [if_pos hzero, if_pos hzero, wp_subtract (by omega)]
  · rw [if_neg hzero, if_neg hzero, wp_bind, wp_subtract (by omega), wp_bind,
      wp_subtract (by omega), wp_pure]

/-- A call of a rank that holds its index returns, whatever was in the slots. -/
theorem wp_performReduceAt {post : T → List (Option T) → Prop} {index : ℕ}
    (hregion : LocalRegion n comm) (hlookup : FindsRanks p n comm)
    (hlower : comm.regionBegin ≤ index) (hupper : index < comm.regionEnd)
    (hbuffer : buffer.length = comm.regionSize) (hlength : slots.length = comm.regionSize)
    (hpost : ∀ value after, after.length = comm.regionSize → post value after) :
    wp fails ((slotEffects p received).performReduceAt comm op buffer index) post slots := by
  have hend := hregion.regionEnd
  have hinside := hregion.inside (by omega)
  have hglobal := hregion.globalSize
  have hbounds : SubtreeBounds n index _ _ := hregion.subtreeBounds (by omega)
  have hlast := hbounds.le
  have hlt := hbounds.lt
  unfold ReduceEffects.performReduceAt
  rw [wp_bind, wp_enterCall, Nat.and_one_is_mod]
  by_cases hodd : index % 2 = 1
  · rw [if_pos hodd, wp_bind, wp_subtract hlower,
      List.getElem?_eq_getElem (by omega), wp_slotOption]
    exact hpost _ _ (by simpa using hlength)
  · rw [if_neg hodd, wp_bind, wp_maxX (by omega), wp_bind,
      wp_slotAssert (hregion.maxY_lt (by omega)), wp_bind]
    unfold ReduceEffects.nLocalElements
    rw [wp_bind, wp_subtract (by omega), wp_subtract (by omega), wp_bind, wp_subtract hlower,
      wp_bind]
    change wp _ ((slotEffects p received).reducePasses comm op index (comm.maxX index)
      (comm.maxY index) 1 _ (comm.nLocalElements index)) _ _
    have hlocal : index + comm.nLocalElements index =
        min (comm.maxX index + 1) comm.regionEnd := by
      simp only [ReproducibleCommunicator.nLocalElements]
      omega
    have hsize : 0 < comm.nLocalElements index := by omega
    rw [← elementsAt_zero (comm.nLocalElements index)]
    refine wp_reducePasses op (fun i hi => hlookup i (by omega)) hsize ?_ ?_ ?_
    · rw [elementsAt_zero, SourceBuffer.Filled, List.length_drop]
      omega
    · rw [List.length_replicate]
      omega
    intro after hafter hfilled
    rw [Nat.zero_add] at hfilled ⊢
    have hone : elementsAt (comm.nLocalElements index) (comm.maxY index) = 1 :=
      hbounds.elementsAt_eq_one hsize (by omega)
    rw [if_neg (hregion.maxY_pos (by omega)).ne', hone] at hfilled
    obtain ⟨value, hvalue⟩ := hfilled 0 (by omega)
    rw [hone, wp_bind, wp_slotAssert rfl, wp_readSlot, hvalue]
    refine hpost value after ?_
    rw [hafter, List.length_replicate, hlength]

theorem wp_communicateElements {post : Unit → List (Option T) → Prop} {indices : List ℕ}
    (hregion : LocalRegion n comm) (hlookup : FindsRanks p n comm)
    (hinside : ∀ index ∈ indices, 0 < index ∧ comm.regionBegin ≤ index ∧ index < comm.regionEnd)
    (hbuffer : buffer.length = comm.regionSize) (hlength : slots.length = comm.regionSize)
    (hpost : ∀ after, after.length = comm.regionSize → post () after) :
    wp fails ((slotEffects p received).communicateElements comm op buffer indices) post
      slots := by
  induction indices generalizing slots with
  | nil => exact hpost slots hlength
  | cons index indices ih =>
      obtain ⟨hpos, hlower, hupper⟩ := hinside index List.mem_cons_self
      have hend := hregion.regionEnd
      have hle := hregion.inside (by omega)
      obtain ⟨target, htarget⟩ := hlookup _ ((treeParent_lt hpos).trans (by omega))
      have hcall : wp fails (do
          let value ← (slotEffects p received).performReduceAt comm op buffer index
          (slotEffects p received).put target index value
          (slotEffects p received).communicateElements comm op buffer indices) post slots := by
        rw [wp_bind]
        refine wp_performReduceAt op hregion hlookup hlower hupper hbuffer hlength ?_
        intro value after hafter
        rw [wp_bind]
        exact ih (fun other hother => hinside other (List.mem_cons_of_mem _ hother)) hafter
      rw [ReduceEffects.communicateElements, htarget]
      split <;> exact hcall

/-- The message phase of a rank returns. -/
theorem wp_messagePhase [Inhabited T] {post : T → List (Option T) → Prop} {me origin : Fin p}
    {comms : Fin p → ReproducibleCommunicator} (h : Distributed p n comms origin)
    (hbuffer : buffer.length = (comms me).regionSize)
    (hlength : slots.length = (comms me).regionSize)
    (hpost : ∀ value after, post value after) :
    wp fails ((slotEffects p received).messagePhase (comms me) op me buffer) post slots := by
  have hlookup : FindsRanks p n (comms me) := by
    intro i hi
    obtain ⟨rank, hlower, hupper⟩ := h.cover i hi
    exact ⟨rank, h.lookup me rank i hlower hupper⟩
  unfold ReduceEffects.messagePhase
  rw [wp_bind]
  refine wp_communicateElements op (h.region me) hlookup ?_ hbuffer hlength ?_
  · intro index hindex
    have hmem := h.mem_elements.mp hindex
    omega
  intro after hafter
  rw [wp_bind]
  change wp _ (if me.val = (comms me).originRank
    then (slotEffects p received).performReduceAt (comms me) op buffer 0
    else pure default) _ _
  split
  · rename_i hme
    obtain rfl : me = origin := Fin.ext (hme.trans (h.originRank me))
    have hend := (h.region me).regionEnd
    have hbegin := h.originBegin
    have hsize := h.originSize
    exact wp_performReduceAt op (h.region me) hlookup (by omega) (by omega) hbuffer hafter
      fun value final _ => hpost value final
  · exact hpost _ _

end Calls

end Audit

/-! ## Distributions -/

section Distributions

variable {p : ℕ} {sendCounts recvDispls : List ℤ}
variable {comms : Fin p → ReproducibleCommunicator}

/-- No call of any rank reads a slot that it has not written, wraps below zero or
fails; of a one-element array the origin returns the element. -/
def ReducesSafely (T : Type) [Inhabited T] (comms : Fin p → ReproducibleCommunicator) :
    Prop :=
  ∀ (me : Fin p) (op : T → T → T) (received : ℕ → T) (sendBuf : List T),
    sendBuf.length = (comms me).regionSize →
    wp (fun _ _ => False) ((slotEffects p received).reproducibleReduce (comms me) op me sendBuf)
      (fun result _ => (comms me).globalSize = 1 → me.val = (comms me).originRank →
        sendBuf = [result])
      (List.replicate (comms me).regionSize none)

theorem reducesSafely_of_distributed (T : Type) [Inhabited T] {n : ℕ} {origin : Fin p}
    (h : Distributed p n comms origin) : ReducesSafely T comms := by
  intro me op received sendBuf hlength
  unfold ReduceEffects.reproducibleReduce ReduceEffects.performReduce
  rw [wp_bind, wp_slotAssert hlength, wp_bind]
  refine wp_messagePhase op h hlength (by simp) fun value after => ?_
  have horigin : (comms me).originRank < p := h.originRank me ▸ origin.isLt
  rw [dif_pos horigin, wp_bind, wp_slotOption]
  intro hone
  have htwo := (h.region me).two_le
  rw [(h.region me).globalSize] at hone
  omega

/-- Fault of a reduction of less than two elements: the last index of an empty array
wraps, and of a single element no pass writes the slot that is returned. -/
def ReproducibleCommunicator.smallFault (comm : ReproducibleCommunicator) : ReduceFault :=
  if comm.globalSize = 0 then .wrapped else .unwritten

theorem performReduceAt_faults {T : Type} {received : ℕ → T} {comm : ReproducibleCommunicator}
    (op : T → T → T) (buffer : List T) {slots : List (Option T)} (hglobal : comm.globalSize ≤ 1)
    (hregion : comm.globalSize = 1 → comm.regionBegin = 0 ∧ comm.regionEnd = 1)
    (hslots : comm.globalSize = 1 → slots.length = 1) :
    wp (fun fault _ => fault = comm.smallFault)
      ((slotEffects p received).performReduceAt comm op buffer 0) (fun _ _ => False) slots := by
  unfold ReduceEffects.performReduceAt ReproducibleCommunicator.smallFault
  rw [wp_bind, wp_enterCall, if_neg (show ¬ (0 &&& 1 = 1) by decide), wp_bind]
  obtain hzero | hone := Nat.le_one_iff_eq_zero_or_eq_one.mp hglobal
  · rw [ReduceEffects.maxX, if_pos rfl, wp_subtract_wraps (by omega), if_pos hzero]
  · obtain ⟨hbegin, hend⟩ := hregion hone
    have hmaxX : comm.maxX 0 = 0 := by simp [ReproducibleCommunicator.maxX, hone]
    have hmaxY : comm.maxY 0 = 0 := by
      simp [ReproducibleCommunicator.maxY, hone, treeHeight_eq_clog]
    rw [wp_maxX (by omega), hmaxX, hmaxY, wp_bind, wp_slotAssert (by omega), wp_bind,
      ReduceEffects.nLocalElements, wp_bind, hend, wp_subtract le_rfl, wp_subtract (by omega),
      wp_bind, hbegin, wp_subtract le_rfl, wp_bind, ReduceEffects.reducePasses, wp_pure, wp_bind,
      wp_slotAssert (by rfl), wp_readSlot, hslots hone, if_neg (by omega)]
    rfl

theorem reproducibleReduce_faults {T : Type} [Inhabited T] {received : ℕ → T}
    {comm : ReproducibleCommunicator} (me : Fin p) (op : T → T → T) {sendBuf : List T}
    (hlength : sendBuf.length = comm.regionSize)
    (helements : comm.rankIntersectingElements = []) (horigin : me.val = comm.originRank)
    (hglobal : comm.globalSize ≤ 1)
    (hregion : comm.globalSize = 1 → comm.regionBegin = 0 ∧ comm.regionEnd = 1)
    (hsize : comm.globalSize = 1 → comm.regionSize = 1) :
    wp (fun fault _ => fault = comm.smallFault)
      ((slotEffects p received).reproducibleReduce comm op me sendBuf) (fun _ _ => False)
      (List.replicate comm.regionSize none) := by
  unfold ReduceEffects.reproducibleReduce ReduceEffects.performReduce
    ReduceEffects.messagePhase
  rw [wp_bind, wp_slotAssert hlength, wp_bind, wp_bind, helements]
  change wp _ (if me.val = comm.originRank
    then (slotEffects p received).performReduceAt comm op sendBuf 0
    else pure default) _ _
  rw [if_pos horigin]
  exact wp_mono (fun _ _ => id) (fun _ _ => False.elim)
    (performReduceAt_faults op sendBuf hglobal hregion fun hone => by
      rw [List.length_replicate, hsize hone])

theorem originRank_of_globalSize_zero {rank : ℕ} {comm : ReproducibleCommunicator}
    (hcomm : makeReproducibleComm p sendCounts recvDispls rank = some comm)
    (hzero : comm.globalSize = 0) : comm.originRank = 0 := by
  simp only [makeReproducibleComm, ReproducibleCommunicator.create, Option.bind_eq_bind,
    Option.bind_eq_some_iff] at hcomm
  obtain ⟨startIndices, -, displ, -, count, -, globalSize, -, hcomm⟩ := hcomm
  split_ifs at hcomm with hglobal
  · simp only [Option.bind_some, Option.bind_eq_some_iff] at hcomm
    obtain ⟨elements, -, hcomm⟩ := hcomm
    obtain rfl := Option.some.inj hcomm
    rfl
  · simp only [Option.bind_eq_some_iff] at hcomm
    obtain ⟨originRank, -, elements, -, hcomm⟩ := hcomm
    obtain rfl := Option.some.inj hcomm
    exact absurd hzero hglobal

/-- Of an array with less than two elements the origin has no other region than all
of it. -/
theorem exists_small_origin (hp : 0 < p) (hsmall : sendCounts.sum < 2)
    (hcomms : ∀ rank : Fin p,
      makeReproducibleComm p sendCounts recvDispls rank = some (comms rank)) :
    ∃ me : Fin p, (comms me).rankIntersectingElements = [] ∧
      me.val = (comms me).originRank ∧ (comms me).globalSize ≤ 1 ∧
      ((comms me).globalSize = 1 →
        (comms me).regionBegin = 0 ∧ (comms me).regionEnd = 1 ∧ (comms me).regionSize = 1) := by
  obtain ⟨startIndices, haccepted, hmade⟩ := exists_madeFrom hcomms hp
  obtain ⟨⟨hcover, hinside, hlookup⟩, -, -⟩ := haccepted
  obtain hzero | hone : sendCounts.sum.toNat = 0 ∨ sendCounts.sum.toNat = 1 := by omega
  · have hglobal := (hmade ⟨0, hp⟩).globalSize.trans hzero
    have hsize : countOf sendCounts 0 = 0 := by
      have := hinside 0 hp
      omega
    have helements := (hmade ⟨0, hp⟩).elements
    rw [treeRankIntersectingElements, if_pos (Or.inr (by dsimp only; omega))] at helements
    refine ⟨⟨0, hp⟩, (Option.some.inj helements).symm, ?_, by omega, by omega⟩
    exact (originRank_of_globalSize_zero (hcomms _) hglobal).symm
  · obtain ⟨rank, hrank, hfirst, hlt⟩ := hcover 0 (by omega)
    have hend := hinside rank hrank (by omega)
    have hme := hmade ⟨rank, hrank⟩
    have helements := hme.elements
    rw [treeRankIntersectingElements, if_pos (Or.inl (by dsimp only; omega))] at helements
    have horigin := hme.originRank (by omega)
    rw [hlookup rank hrank 0 hfirst hlt] at horigin
    refine ⟨⟨rank, hrank⟩, (Option.some.inj helements).symm, Option.some.inj horigin,
      by rw [hme.globalSize, hone], fun _ => ?_⟩
    rw [hme.regionBegin, hme.regionEnd, hme.regionSize]
    dsimp only
    omega

variable (sendCounts recvDispls) in
/-- The reduction is safe exactly for arrays with two elements or more. -/
theorem reducesSafely_iff_two_le (T : Type) [Inhabited T] (hp : 0 < p)
    (hcomms : ∀ rank : Fin p,
      makeReproducibleComm p sendCounts recvDispls rank = some (comms rank)) :
    ReducesSafely T comms ↔ 2 ≤ sendCounts.sum := by
  constructor
  · intro hsafe
    by_contra hsmall
    obtain ⟨me, helements, horigin, hglobal, hregion⟩ :=
      exists_small_origin hp (by omega) hcomms
    let op : T → T → T := fun a _ => a
    have hlength : (List.replicate (comms me).regionSize (default : T)).length =
      (comms me).regionSize := List.length_replicate
    exact not_wp_of_faults (reproducibleReduce_faults me op hlength helements horigin hglobal
      (fun hone => ⟨(hregion hone).1, (hregion hone).2.1⟩) fun hone => (hregion hone).2.2)
      (hsafe me op (fun _ => default) _ hlength)
  · intro htwo
    obtain ⟨n, hn⟩ := Int.eq_ofNat_of_zero_le (show 0 ≤ sendCounts.sum by omega)
    obtain ⟨origin, hdistributed⟩ := exists_distributed hcomms hp hn (by omega)
    exact reducesSafely_of_distributed T hdistributed

end Distributions

theorem reducesSafely_iff_two_le_swapped : ReducesSafely ℤ swappedComms :=
  (reducesSafely_iff_two_le [2, 1] [1, 0] ℤ (by decide)
    fun _ => (Option.some_get _).symm).mpr (by decide)

/-- The communicator of one rank with one element. -/
def singleComms (rank : Fin 1) : ReproducibleCommunicator :=
  (makeReproducibleComm 1 [1] [0] rank).get (by revert rank; decide +kernel)

/-- Of the array `[7]` the value-initialised slot is returned. -/
theorem reducesSafely_fails_single :
    ¬ ReducesSafely ℤ singleComms ∧
      performReduceAt 16 (singleComms 0) (fun a b : ℤ => a + b) [7] 0
          ((singleComms 0).initialState (Fin 1) ℤ) =
        .done (0, (singleComms 0).initialState (Fin 1) ℤ) := by
  have helements : (singleComms 0).rankIntersectingElements = [] := by decide +kernel
  have hregion : (singleComms 0).globalSize = 1 ∧ (singleComms 0).regionBegin = 0 ∧
    (singleComms 0).regionEnd = 1 ∧ (singleComms 0).regionSize = 1 ∧
    (singleComms 0).originRank = 0 := by decide +kernel
  obtain ⟨hglobal, hbegin, hend, hsize, horigin⟩ := hregion
  constructor
  · intro hsafe
    exact not_wp_of_faults (reproducibleReduce_faults 0 (fun a b : ℤ => a + b)
      (by simp [hsize]) helements horigin.symm hglobal.le (fun _ => ⟨hbegin, hend⟩)
      fun _ => hsize) (hsafe 0 (fun a b => a + b) (fun _ => 0) [7] (by simp [hsize]))
  · have hmaxY : (singleComms 0).maxY 0 = 0 := by
      simp [ReproducibleCommunicator.maxY, hglobal, treeHeight_eq_clog]
    unfold performReduceAt ReduceEffects.performReduceAt ReduceEffects.maxX
      ReduceEffects.nLocalElements
    simp only [hglobal, hbegin, hend, hmaxY, if_true]
    rfl

end MpiBindings.ReproducibleReduce

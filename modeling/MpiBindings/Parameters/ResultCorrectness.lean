import MpiBindings.Parameters.Result
import Mathlib.Data.List.Forall2

/-!
# Correctness of result objects

The selection by type finds the only buffer of a requested type, in whatever order
the wrapper passes its buffers.  The result lists the requested buffers in the order
of the caller, after the receive buffer if it was not listed.
-/

namespace MpiBindings.Parameters

variable {α : Type}

/-! ## Filtering and selection -/

theorem filterOut_eq (predicate : BufferTraits → Bool) (args : List BufferTraits) :
    filterOut predicate args = (args.filter fun arg => !predicate arg).map (·.parameterType) := by
  induction args with
  | nil => rfl
  | cons head tail ih =>
      rw [filterOut, ih, List.filter_cons]
      cases predicate head <;> rfl

theorem findPos_eq (ptype : ParameterType) (index : ℕ) (args : List ParameterType) :
    findPos ptype index args =
      (args.findIdx? fun arg => arg = ptype).map fun position => position + index := by
  fun_induction findPos ptype index args with
  | case1 index => rfl
  | case2 index => simp
  | case3 index arg hother =>
      rw [List.findIdx?_cons, if_neg (by simpa using hother)]
      rfl
  | case4 index arg2 args => simp [List.findIdx?_cons]
  | case5 index arg arg2 args hother ih =>
      rw [List.findIdx?_cons, if_neg (by simpa using hother), ih, Option.map_map]
      congr 1
      funext position
      rw [Function.comp_apply, Nat.add_assoc, Nat.add_comm index 1]

theorem hasParameterType_iff {ptype : ParameterType} {args : List ParameterType} :
    hasParameterType ptype args = true ↔ ptype ∈ args := by
  rw [hasParameterType, findPos_eq]
  cases hfind : args.findIdx? fun arg => arg = ptype with
  | none =>
      have hnone := List.findIdx?_eq_none_iff.mp hfind
      simp only [Option.map_none, Bool.false_eq_true, false_iff]
      intro hmem
      simpa using hnone ptype hmem
  | some position =>
      obtain ⟨hposition, hsame, -⟩ := List.findIdx?_eq_some_iff_getElem.mp hfind
      simp only [Option.map_some, Nat.add_zero, hposition, decide_true, true_iff]
      exact of_decide_eq_true hsame ▸ List.getElem_mem hposition

theorem selectParameterType_eq (ptype : ParameterType) (buffers : List (Buffer α)) :
    selectParameterType ptype buffers =
      buffers.find? fun buffer => buffer.parameterType = ptype := by
  have hpositions : (Buffer.parameterTypes buffers).findIdx? (fun arg => arg = ptype) =
      buffers.findIdx? fun buffer => buffer.parameterType = ptype := List.findIdx?_map ..
  rw [selectParameterType, findPos_eq, hpositions, List.find?_eq_bind_findIdx?_getElem?,
    Option.bind_map]
  rfl

/-- The only buffer of a type is found wherever it stands. -/
theorem selectParameterType_of_filter {ptype : ParameterType} {buffers order : List (Buffer α)}
    {buffer : Buffer α} (horder : order.Perm buffers)
    (honly : buffers.filter (fun other => other.parameterType = ptype) = [buffer]) :
    selectParameterType ptype order = some buffer := by
  have hperm := horder.filter fun other => decide (other.parameterType = ptype)
  rw [honly, List.perm_singleton] at hperm
  rw [selectParameterType_eq, ← List.head?_filter, hperm, List.head?_cons]

/-! ## Calls of wrappers -/

/-- Owning out parameters that belong into the result. -/
def BufferTraits.Requested (arg : BufferTraits) : Prop :=
  arg.isOwning = true ∧ arg.isOutBuffer = true ∧
    arg.parameterType ∉ parameterTypesToIgnoreForResultObject

instance (arg : BufferTraits) : Decidable arg.Requested := by
  unfold BufferTraits.Requested
  infer_instance

/-- Types of the parameters that the caller requests, in the order of the caller. -/
def requestedTypes (args : List BufferTraits) : List ParameterType :=
  (args.filter fun arg => arg.Requested).map (·.parameterType)

def BufferTraits.isRecvOrSendRecv (buffer : BufferTraits) : Bool :=
  buffer.parameterType = .recvBuf || buffer.parameterType = .sendRecvBuf

/-- Arguments of a caller, and the buffers that a wrapper has for them. -/
structure WrappedCall (α : Type) where
  args : List BufferTraits
  buffers : List (Buffer α)
  distinct : (args.map (·.parameterType)).Nodup
  noSerialization : ∀ arg ∈ args, arg.usesSerialization = false
  sendBufNotOut : .sendBuf ∉ requestedTypes args
  /-- There is one buffer for each requested type. -/
  provided : ∀ ptype ∈ requestedTypes args,
    ∃ buffer, buffers.filter (fun other => other.parameterType = ptype) = [buffer]
  recvBuffers : (buffers.filter fun buffer => buffer.isRecvOrSendRecv).length ≤ 1
  /-- A receive buffer that is built from an argument has the traits of the argument; where
  an argument is to be ignored the buffer of another type is empty. -/
  builtFromArg : ∀ arg ∈ args, ∀ buffer ∈ buffers, buffer.isRecvOrSendRecv = true →
    buffer.parameterType = arg.parameterType →
    buffer.isOwning = arg.isOwning ∧ buffer.isOutBuffer = arg.isOutBuffer
  /-- Receive buffers are written. -/
  recvIsOut : ∀ buffer ∈ buffers, buffer.isRecvOrSendRecv = true → buffer.isOutBuffer = true

namespace WrappedCall

/-- The receive buffer or send and receive buffer of the wrapper. -/
def recvBuffer? (call : WrappedCall α) : Option (Buffer α) :=
  call.buffers.find? fun buffer => buffer.isRecvOrSendRecv

/-- The requested buffers, after the receive buffer if it is owning and not listed. -/
def returned (call : WrappedCall α) (entries : List (Buffer α)) : List (Buffer α) :=
  match call.recvBuffer? with
  | some recv =>
      if recv.isOwning ∧ recv.parameterType ∉ requestedTypes call.args then recv :: entries
      else entries
  | none => entries

/-- The outcome that the caller asked for. -/
def outcome (call : WrappedCall α) (entries : List (Buffer α)) : Outcome α :=
  match call.recvBuffer? with
  | some recv =>
      if recv.isOwning then
        if ∀ ptype ∈ requestedTypes call.args, ptype = recv.parameterType then
          .container recv.underlying
        else .result (call.returned entries)
      else if requestedTypes call.args = [] then .nothing
      else .result entries
  | none => .result entries

/-! ## Requested parameters -/

theorem discard_eq (arg : BufferTraits) : discard arg = !decide arg.Requested := by
  obtain ⟨ptype, isOwning, isOutBuffer, usesSerialization⟩ := arg
  by_cases hignored : ptype ∈ parameterTypesToIgnoreForResultObject
  · simp [discard, BufferTraits.Requested, hignored]
  · cases isOwning <;> cases isOutBuffer <;>
      simp [discard, BufferTraits.Requested, hignored]

theorem filterOut_discard (args : List BufferTraits) :
    filterOut discard args = requestedTypes args := by
  rw [filterOut_eq, requestedTypes]
  refine congrArg _ (List.filter_congr fun arg _ => ?_)
  rw [discard_eq, Bool.not_not]

theorem filterOut_discardSerializationBuffers (call : WrappedCall α) :
    filterOut discardSerializationBuffers call.args = requestedTypes call.args := by
  rw [filterOut_eq, requestedTypes]
  refine congrArg _ (List.filter_congr fun arg harg => ?_)
  rw [discardSerializationBuffers, call.noSerialization arg harg, ite_self, discard_eq]
  cases decide arg.Requested <;> rfl

theorem nodup_requestedTypes (call : WrappedCall α) : (requestedTypes call.args).Nodup :=
  call.distinct.sublist (List.filter_sublist.map _)

/-! ## Buffers of the wrapper -/

/-- The buffers that the caller requests, in the order of the caller. -/
abbrev Entries (call : WrappedCall α) (entries : List (Buffer α)) : Prop :=
  List.Forall₂ (fun ptype buffer =>
    call.buffers.filter (fun other => other.parameterType = ptype) = [buffer])
    (requestedTypes call.args) entries

theorem exists_entries (call : WrappedCall α) : ∃ entries, call.Entries entries := by
  have hprovided := call.provided
  unfold WrappedCall.Entries
  generalize requestedTypes call.args = ptypes at hprovided ⊢
  induction ptypes with
  | nil => exact ⟨[], .nil⟩
  | cons ptype ptypes ih =>
      obtain ⟨buffer, hbuffer⟩ := hprovided ptype List.mem_cons_self
      obtain ⟨entries, hentries⟩ :=
        ih fun other hother => hprovided other (List.mem_cons_of_mem _ hother)
      exact ⟨buffer :: entries, .cons hbuffer hentries⟩

theorem mem_of_filter {call : WrappedCall α} {ptype : ParameterType} {buffer : Buffer α}
    (honly : call.buffers.filter (fun other => other.parameterType = ptype) = [buffer]) :
    buffer ∈ call.buffers ∧ buffer.parameterType = ptype := by
  have hmem : buffer ∈ call.buffers.filter fun other => other.parameterType = ptype := by
    rw [honly]
    exact List.mem_singleton_self _
  simpa using List.mem_filter.mp hmem

theorem constructBufferTuple_eq_some {ptypes : List ParameterType}
    {buffers order entries : List (Buffer α)} (horder : order.Perm buffers)
    (hentries : List.Forall₂ (fun ptype buffer =>
      buffers.filter (fun other => other.parameterType = ptype) = [buffer]) ptypes entries) :
    constructBufferTuple ptypes order = some entries := by
  rw [constructBufferTuple]
  induction hentries with
  | nil => rfl
  | cons hbuffer _ ih =>
      rw [List.mapM_cons, selectParameterType_of_filter horder hbuffer, ih]
      rfl

/-- There is one receive buffer at most. -/
theorem filter_isRecvOrSendRecv {call : WrappedCall α} {recv : Buffer α}
    (hrecv : call.recvBuffer? = some recv) :
    call.buffers.filter (fun buffer => buffer.isRecvOrSendRecv) = [recv] := by
  have hone := call.recvBuffers
  rw [recvBuffer?, ← List.head?_filter] at hrecv
  generalize call.buffers.filter (fun buffer => buffer.isRecvOrSendRecv) = recvs at *
  cases recvs with
  | nil => cases hrecv
  | cons first rest =>
      have hrest : rest = [] := List.eq_nil_of_length_eq_zero (by simpa using hone)
      rw [Option.some.inj hrecv, hrest]

theorem isRecvOrSendRecv_iff {call : WrappedCall α} {recv buffer : Buffer α}
    (hrecv : call.recvBuffer? = some recv) :
    buffer ∈ call.buffers ∧ buffer.isRecvOrSendRecv = true ↔ buffer = recv := by
  have hmem : buffer ∈ call.buffers.filter (fun other => other.isRecvOrSendRecv) ↔
      buffer ∈ call.buffers ∧ buffer.isRecvOrSendRecv = true := List.mem_filter
  rw [← hmem, filter_isRecvOrSendRecv hrecv, List.mem_singleton]

theorem filter_recvBuffer {call : WrappedCall α} {recv : Buffer α}
    (hrecv : call.recvBuffer? = some recv) :
    call.buffers.filter (fun other => other.parameterType = recv.parameterType) = [recv] := by
  obtain ⟨-, hisRecv⟩ := (isRecvOrSendRecv_iff hrecv).mpr rfl
  have hfilter : call.buffers.filter (fun other => other.parameterType = recv.parameterType) =
      (call.buffers.filter fun buffer => buffer.isRecvOrSendRecv).filter
        fun other => other.parameterType = recv.parameterType := by
    rw [List.filter_filter]
    refine List.filter_congr fun other _ => ?_
    by_cases hsame : other.parameterType = recv.parameterType
    · simp only [BufferTraits.isRecvOrSendRecv, hsame] at hisRecv ⊢
      rw [hisRecv, decide_true, Bool.and_true]
    · simp [hsame]
  rw [hfilter, filter_isRecvOrSendRecv hrecv]
  simp

/-! ## Main result -/

/-- Buffers in a result object. -/
theorem mpiResult_eq_some {data : List (Buffer α)}
    (hsame : ∀ buffer ∈ data, ∀ other ∈ data, buffer.isRecvOrSendRecv = true →
      other.isRecvOrSendRecv = true → buffer.parameterType = other.parameterType) :
    mpiResult data = some (.result data) := by
  rw [mpiResult]
  apply if_neg
  rw [Bool.and_eq_true, hasParameterType_iff, hasParameterType_iff, Buffer.parameterTypes,
    List.mem_map, List.mem_map]
  rintro ⟨⟨buffer, hbuffer, hrecv⟩, other, hother, hsendRecv⟩
  have htypes := hsame buffer hbuffer other hother (by simp [BufferTraits.isRecvOrSendRecv, hrecv])
    (by simp [BufferTraits.isRecvOrSendRecv, hsendRecv])
  rw [hrecv, hsendRecv] at htypes
  cases htypes

theorem sameRecvType (call : WrappedCall α) {buffer other : Buffer α}
    (hbuffer : buffer ∈ call.buffers) (hother : other ∈ call.buffers)
    (hrecv : buffer.isRecvOrSendRecv = true) (hotherRecv : other.isRecvOrSendRecv = true) :
    buffer.parameterType = other.parameterType := by
  cases hfind : call.recvBuffer? with
  | none => exact absurd hrecv (List.find?_eq_none.mp hfind buffer hbuffer)
  | some recv =>
      rw [(isRecvOrSendRecv_iff hfind).mp ⟨hbuffer, hrecv⟩,
        (isRecvOrSendRecv_iff hfind).mp ⟨hother, hotherRecv⟩]

/-- The tuple of the selected buffers as a result object. -/
theorem result_of_entries (call : WrappedCall α) {ptypes : List ParameterType}
    {order entries : List (Buffer α)} (horder : order.Perm call.buffers)
    (hentries : List.Forall₂ (fun ptype buffer =>
      call.buffers.filter (fun other => other.parameterType = ptype) = [buffer]) ptypes entries) :
    (constructBufferTuple ptypes order).bind mpiResult = some (.result entries) := by
  have hmem : ∀ buffer ∈ entries, buffer ∈ call.buffers := by
    intro buffer hbuffer
    obtain ⟨index, hindex, rfl⟩ := List.getElem_of_mem hbuffer
    have hptype : index < ptypes.length := hentries.length_eq ▸ hindex
    exact (mem_of_filter (hentries.get hptype hindex)).1
  rw [constructBufferTuple_eq_some horder hentries, Option.bind_some]
  exact mpiResult_eq_some fun buffer hbuffer other hother =>
    call.sameRecvType (hmem buffer hbuffer) (hmem other hother)

theorem hasRecvOrSendRecvBuf_iff {buffers : List (Buffer α)} :
    hasRecvOrSendRecvBuf buffers = true ↔ ∃ buffer ∈ buffers, buffer.isRecvOrSendRecv = true := by
  simp only [hasRecvOrSendRecvBuf, Bool.or_eq_true, hasParameterType_iff, Buffer.parameterTypes,
    List.mem_map, BufferTraits.isRecvOrSendRecv, decide_eq_true_eq, ← exists_or, ← and_or_left]

theorem determineRecvBufferType_eq_some {call : WrappedCall α} {recv : Buffer α}
    (hrecv : call.recvBuffer? = some recv) {order : List (Buffer α)}
    (horder : order.Perm call.buffers) :
    determineRecvBufferType order = some recv.parameterType := by
  have hhas : ∀ ptype, ptype = .recvBuf ∨ ptype = .sendRecvBuf →
      (hasParameterType ptype (Buffer.parameterTypes order) = true ↔
        recv.parameterType = ptype) := by
    intro ptype hptype
    rw [hasParameterType_iff, Buffer.parameterTypes, List.mem_map]
    constructor
    · rintro ⟨buffer, hbuffer, rfl⟩
      have hisRecv : buffer.isRecvOrSendRecv = true := by
        simpa [BufferTraits.isRecvOrSendRecv] using hptype
      rw [(isRecvOrSendRecv_iff hrecv).mp ⟨horder.mem_iff.mp hbuffer, hisRecv⟩]
    · rintro rfl
      exact ⟨recv, horder.mem_iff.mpr ((isRecvOrSendRecv_iff hrecv).mpr rfl).1, rfl⟩
  obtain ⟨-, hisRecv⟩ := (isRecvOrSendRecv_iff hrecv).mpr rfl
  have hrecvBuf := hhas .recvBuf (Or.inl rfl)
  have hsendRecvBuf := hhas .sendRecvBuf (Or.inr rfl)
  rw [determineRecvBufferType]
  obtain htype | htype : recv.parameterType = .recvBuf ∨ recv.parameterType = .sendRecvBuf := by
    simpa [BufferTraits.isRecvOrSendRecv] using hisRecv
  · rw [htype] at hrecvBuf hsendRecvBuf
    have hnot : hasParameterType .sendRecvBuf (Buffer.parameterTypes order) = false :=
      Bool.eq_false_iff.mpr fun hhas => ParameterType.noConfusion (hsendRecvBuf.mp hhas)
    rw [hrecvBuf.mpr rfl, hnot, htype]
  · rw [htype] at hrecvBuf hsendRecvBuf
    have hnot : hasParameterType .recvBuf (Buffer.parameterTypes order) = false :=
      Bool.eq_false_iff.mpr fun hhas => ParameterType.noConfusion (hrecvBuf.mp hhas)
    rw [hsendRecvBuf.mpr rfl, hnot, htype]

theorem returnSendBufOutOnly_eq_false (call : WrappedCall α) :
    returnSendBufOutOnly (requestedTypes call.args) = false := by
  have hsendBuf := call.sendBufNotOut
  match htypes : requestedTypes call.args with
  | [] => rfl
  | [ptype] =>
      rw [htypes, List.mem_singleton] at hsendBuf
      exact decide_eq_false fun hptype => hsendBuf hptype.symm
  | _ :: _ :: _ => rfl

/-- The receive buffer is returned alone if nothing else is requested. -/
theorem returnRecvOrSendRecvBufferOnly_iff {call : WrappedCall α} {recv : Buffer α}
    (hrecv : call.recvBuffer? = some recv) :
    returnRecvOrSendRecvBufferOnly (requestedTypes call.args) = true ↔
      ∀ ptype ∈ requestedTypes call.args, ptype = recv.parameterType := by
  obtain ⟨-, hisRecv⟩ := (isRecvOrSendRecv_iff hrecv).mpr rfl
  have hnodup := call.nodup_requestedTypes
  have hprovided := call.provided
  generalize requestedTypes call.args = ptypes at hnodup hprovided ⊢
  match ptypes, hnodup, hprovided with
  | [], _, _ => simp [returnRecvOrSendRecvBufferOnly]
  | [ptype], _, hprovided =>
      simp only [returnRecvOrSendRecvBufferOnly, Bool.or_eq_true, decide_eq_true_eq,
        List.forall_mem_singleton]
      constructor
      · intro hptype
        obtain ⟨buffer, honly⟩ := hprovided ptype (List.mem_singleton_self _)
        obtain ⟨hbuffer, rfl⟩ := mem_of_filter honly
        have hbufferRecv : buffer.isRecvOrSendRecv = true := by
          simpa [BufferTraits.isRecvOrSendRecv] using hptype
        rw [(isRecvOrSendRecv_iff hrecv).mp ⟨hbuffer, hbufferRecv⟩]
      · rintro rfl
        simpa [BufferTraits.isRecvOrSendRecv] using hisRecv
  | first :: second :: others, hnodup, _ =>
      simp only [returnRecvOrSendRecvBufferOnly, Bool.false_eq_true, false_iff]
      intro hall
      have hsame : first = second := (hall first (by simp)).trans (hall second (by simp)).symm
      exact (List.nodup_cons.mp hnodup).1 (hsame ▸ List.mem_cons_self)

/-- The result of a call whose buffers are passed in any order. -/
theorem makeMpiResult_eq (call : WrappedCall α) {entries order : List (Buffer α)}
    (hentries : call.Entries entries) (horder : order.Perm call.buffers) :
    makeMpiResult call.args order = some (call.outcome entries) := by
  have hresult := call.result_of_entries horder hentries
  rw [makeMpiResult, filterOut_discard, filterOut_discardSerializationBuffers,
    call.returnSendBufOutOnly_eq_false, if_neg Bool.false_ne_true, outcome]
  cases hrecv : call.recvBuffer? with
  | none =>
      have hnone : hasRecvOrSendRecvBuf order = false := by
        rw [Bool.eq_false_iff]
        intro hhas
        obtain ⟨buffer, hbuffer, hisRecv⟩ := hasRecvOrSendRecvBuf_iff.mp hhas
        exact List.find?_eq_none.mp hrecv buffer (horder.mem_iff.mp hbuffer) hisRecv
      rw [hnone]
      exact hresult
  | some recv =>
      have hmem := (isRecvOrSendRecv_iff hrecv).mpr rfl
      have hhas : hasRecvOrSendRecvBuf order = true :=
        hasRecvOrSendRecvBuf_iff.mpr ⟨recv, horder.mem_iff.mpr hmem.1, hmem.2⟩
      have hselect := selectParameterType_of_filter horder (filter_recvBuffer hrecv)
      simp only [hhas, Bool.not_true, Bool.false_eq_true, if_false,
        determineRecvBufferType_eq_some hrecv horder, hselect, Option.bind_some,
        returnRecvOrSendRecvBufferOnly_iff hrecv, hasParameterType_iff, hresult,
        List.length_eq_zero_iff]
      cases howning : recv.isOwning with
      | false =>
          by_cases hempty : requestedTypes call.args = []
          · simp [hempty]
          · simp [hempty]
      | true =>
          by_cases honly : ∀ ptype ∈ requestedTypes call.args, ptype = recv.parameterType
          · simp only [Bool.not_true, Bool.false_eq_true, if_false, if_pos honly, Buffer.extract,
              howning, if_true]
          · by_cases hlisted : recv.parameterType ∈ requestedTypes call.args
            · simp [honly, hlisted, returned, hrecv]
            · have hprepended := call.result_of_entries horder
                (.cons (filter_recvBuffer hrecv) hentries)
              simp [honly, hlisted, returned, hrecv, howning, hprepended]

/-- Parameters that the caller does not request do not appear. -/
theorem ne_of_mem_returned {call : WrappedCall α} {entries : List (Buffer α)}
    (hentries : call.Entries entries) {arg : BufferTraits} (harg : arg ∈ call.args)
    (hnot : ¬ arg.Requested) {buffer : Buffer α} (hbuffer : buffer ∈ call.returned entries) :
    buffer.parameterType ≠ arg.parameterType := by
  intro htype
  -- Requested parameters have other types, as the types of the arguments are distinct.
  have hrequested : buffer.parameterType ∉ requestedTypes call.args := by
    intro hmem
    obtain ⟨other, hother, hsame⟩ := List.mem_map.mp hmem
    obtain ⟨hother, hotherRequested⟩ := List.mem_filter.mp hother
    have heq : other = arg :=
      List.inj_on_of_nodup_map call.distinct hother harg (hsame.trans htype)
    exact hnot (heq ▸ of_decide_eq_true hotherRequested)
  have hentry : buffer ∉ entries := by
    intro hmem
    obtain ⟨index, hindex, rfl⟩ := List.getElem_of_mem hmem
    have hptype : index < (requestedTypes call.args).length := hentries.length_eq ▸ hindex
    exact hrequested ((mem_of_filter (hentries.get hptype hindex)).2 ▸ List.getElem_mem hptype)
  rw [returned] at hbuffer
  cases hrecv : call.recvBuffer? with
  | none =>
      rw [hrecv] at hbuffer
      exact hentry hbuffer
  | some recv =>
      simp only [hrecv] at hbuffer
      split_ifs at hbuffer with howning
      · obtain rfl | hmem := List.mem_cons.mp hbuffer
        · obtain ⟨hmem, hisRecv⟩ := (isRecvOrSendRecv_iff hrecv).mpr rfl
          obtain ⟨hargOwning, hargOut⟩ := call.builtFromArg arg harg buffer hmem hisRecv htype
          refine hnot ⟨hargOwning ▸ howning.1, hargOut ▸ call.recvIsOut buffer hmem hisRecv, ?_⟩
          rw [← htype]
          rw [BufferTraits.isRecvOrSendRecv, Bool.or_eq_true, decide_eq_true_eq,
            decide_eq_true_eq] at hisRecv
          obtain hisRecv | hisRecv := hisRecv <;> rw [hisRecv] <;> decide
        · exact hentry hmem
      · exact hentry hbuffer

end WrappedCall

/-- Main theorem: whatever the order of the buffers of the wrapper, the result lists one
buffer for each requested type in the order of the caller, after an owning receive
buffer that was not listed; this buffer alone is returned as a container; and nothing is
returned if there are no requests and the receive buffer refers to memory of the caller. -/
theorem makeMpiResult_returns_requested (call : WrappedCall α) :
    ∃ entries : List (Buffer α),
      List.Forall₂ (fun ptype buffer => buffer ∈ call.buffers ∧ buffer.parameterType = ptype)
        (requestedTypes call.args) entries ∧
      (∀ order, order.Perm call.buffers →
        makeMpiResult call.args order = some (call.outcome entries)) ∧
      ∀ arg ∈ call.args, ¬ arg.Requested → ∀ buffer ∈ call.returned entries,
        buffer.parameterType ≠ arg.parameterType := by
  obtain ⟨entries, hentries⟩ := call.exists_entries
  refine ⟨entries, ?_, fun order horder => call.makeMpiResult_eq hentries horder, ?_⟩
  · exact hentries.imp fun ptype buffer honly => WrappedCall.mem_of_filter honly
  · intro arg harg hnot buffer hbuffer
    exact WrappedCall.ne_of_mem_returned hentries harg hnot hbuffer

/-- A caller that sends from its own memory, asks for the displacements, ignores the status
and asks for the counts; the receive buffer is not listed. -/
def ignoringStatus : WrappedCall String where
  args :=
    [⟨.sendBuf, false, false, false⟩, ⟨.recvDispls, true, true, false⟩,
      ⟨.status, true, false, false⟩, ⟨.recvCounts, true, true, false⟩]
  buffers :=
    [⟨⟨.recvCounts, true, true, false⟩, "counts"⟩, ⟨⟨.recvBuf, true, true, false⟩, "data"⟩,
      ⟨⟨.status, false, false, false⟩, ""⟩, ⟨⟨.recvDispls, true, true, false⟩, "displs"⟩]
  distinct := by decide
  noSerialization := by decide
  sendBufNotOut := by decide
  provided := by
    intro ptype hptype
    have htypes : ptype ∈ [ParameterType.recvDispls, ParameterType.recvCounts] := hptype
    simp only [List.mem_cons, List.not_mem_nil, or_false] at htypes
    obtain rfl | rfl := htypes
    · exact ⟨⟨⟨.recvDispls, true, true, false⟩, "displs"⟩, rfl⟩
    · exact ⟨⟨⟨.recvCounts, true, true, false⟩, "counts"⟩, rfl⟩
  recvBuffers := by decide
  builtFromArg := by
    simp [BufferTraits.isRecvOrSendRecv]
  recvIsOut := by
    simp [BufferTraits.isRecvOrSendRecv]

theorem makeMpiResult_returns_requested_ignoringStatus :
    (∃ entries : List (Buffer String),
      List.Forall₂ (fun ptype buffer => buffer ∈ ignoringStatus.buffers ∧
        buffer.parameterType = ptype) (requestedTypes ignoringStatus.args) entries ∧
      (∀ order, order.Perm ignoringStatus.buffers →
        makeMpiResult ignoringStatus.args order = some (ignoringStatus.outcome entries)) ∧
      ∀ arg ∈ ignoringStatus.args, ¬ arg.Requested →
        ∀ buffer ∈ ignoringStatus.returned entries,
          buffer.parameterType ≠ arg.parameterType) ∧
      makeMpiResult ignoringStatus.args ignoringStatus.buffers =
        some (.result
          [⟨⟨.recvBuf, true, true, false⟩, "data"⟩, ⟨⟨.recvDispls, true, true, false⟩, "displs"⟩,
            ⟨⟨.recvCounts, true, true, false⟩, "counts"⟩]) :=
  ⟨makeMpiResult_returns_requested ignoringStatus, rfl⟩

end MpiBindings.Parameters

import MpiBindings.ReproducibleReduce.Distribution
import MpiBindings.ReproducibleReduce.MessageBuffer

/-!
# The reduction of one rank

A rank reduces the subtrees that begin in its region bottom-up, pass by pass in
one buffer.  Results of subtrees that belong to the neighbouring regions are
spliced in when a pass reaches the region border; the own results are sent to
the rank that holds their parent.

The reduction touches its surroundings through its reduce buffer, the message
buffer and a broadcast, and it computes with `size_t`.  It is written over any
implementation of these effects.  In the network it is the program of the rank;
other implementations observe what the same text does.
-/

namespace MpiBindings.ReproducibleReduce

open MessagePassing

/-- Where `source_buffer` points to: the send buffer in the first pass, the
reduce buffer afterwards. -/
inductive SourceBuffer (T : Type) where
  | sendBuffer (elements : List T)
  | reduceBuffer

/-- `max_y`: number of passes that reduce the subtree of `index`. -/
def ReproducibleCommunicator.maxY (comm : ReproducibleCommunicator) (index : ℕ) : ℕ :=
  if index = 0 then treeHeight comm.globalSize else subtreeHeight index

/-- Rank that holds the given index; `none` where no rank of the communicator
has this number. -/
def ReproducibleCommunicator.rankOfIndex (comm : ReproducibleCommunicator) (p index : ℕ) :
    Option (Fin p) := do
  let rank ← treeRankFromIndexMap comm.startIndices index
  if hrank : rank < p then some ⟨rank, hrank⟩ else none

/-- Reasons why a reduction does not return. -/
inductive ReduceFault where
  | assertionFailed
  /-- A subtraction below zero, which `size_t` wraps. -/
  | wrapped
  /-- An access behind the end of a buffer. -/
  | outOfRange
  /-- The read of a slot that the call has not written. -/
  | unwritten
deriving DecidableEq

/-- Effects of a reduction on a communicator of `p` ranks. -/
structure ReduceEffects (p : ℕ) (T : Type) (m : Type → Type) where
  /-- Stop with a fault. -/
  fail : {α : Type} → ReduceFault → m α
  /-- Subtraction of `size_t` values. -/
  subtract : ℕ → ℕ → m ℕ
  /-- A call of `_perform_reduce(index, buffer, op)` begins. -/
  enterCall : m Unit
  readReduceBuffer : ℕ → m T
  writeReduceBuffer : ℕ → T → m Unit
  /-- `MessageBuffer::flush` -/
  flush : m Unit
  /-- `MessageBuffer::wait` -/
  wait : m Unit
  /-- `MessageBuffer::put` -/
  put : (targetRank : Fin p) → (index : ℕ) → T → m Unit
  /-- `MessageBuffer::get` -/
  get : (sourceRank : Fin p) → (index : ℕ) → m T
  /-- `bcast_single` with the given root. -/
  bcastSingle : (root : Fin p) → (own : T) → m T

namespace ReduceEffects

section Text

variable {p : ℕ} {T : Type} {m : Type → Type} [Monad m] (effects : ReduceEffects p T m)

def assertThat (condition : Prop) [Decidable condition] : m Unit :=
  if condition then pure () else effects.fail .assertionFailed

def ofOption {α : Type} (fault : ReduceFault) : Option α → m α
  | none => effects.fail fault
  | some result => pure result

/-- `source_buffer[x]` -/
def readSource (source : SourceBuffer T) (x : ℕ) : m T :=
  match source with
  | .sendBuffer elements => effects.ofOption .outOfRange elements[x]?
  | .reduceBuffer => effects.readReduceBuffer x

/-- The inner loop of a pass, from `x` on.  The destination is always the reduce
buffer, which the source may alias. -/
def reducePairs (op : T → T → T) (source : SourceBuffer T) (elementsInBuffer : ℕ)
    (x elementsWritten : ℕ) : m ℕ :=
  if x + 2 ≤ elementsInBuffer then do
    let a ← effects.readSource source x
    let b ← effects.readSource source (x + 1)
    effects.writeReduceBuffer elementsWritten (op a b)
    reducePairs op source elementsInBuffer (x + 2) (elementsWritten + 1)
  else return elementsWritten
termination_by elementsInBuffer - x

variable (comm : ReproducibleCommunicator) (op : T → T → T)

/-- What becomes of the odd last element of a pass: it is kept where the subtree
ends, otherwise the result for `indexB` comes from another rank. -/
def reduceRemaining (maxX indexB : ℕ) (elementA : T) : m T := do
  if indexB > maxX then
    return elementA
  else
    let sourceRank ← effects.ofOption .assertionFailed (comm.rankOfIndex p indexB)
    let elementB ← effects.get sourceRank indexB
    return op elementA elementB

/-- Pass `y` of `_perform_reduce`; returns the number of elements written. -/
def reducePass (index maxX y : ℕ) (source : SourceBuffer T) (elementsInBuffer : ℕ) : m ℕ := do
  let stride := 1 <<< (← effects.subtract y 1)
  let elementsWritten ← effects.reducePairs op source elementsInBuffer 0 0
  let remainingElements ← effects.subtract elementsInBuffer (2 * elementsWritten)
  effects.assertThat (remainingElements ≤ 1)
  if remainingElements = 1 then
    let indexA := index + (← effects.subtract elementsInBuffer 1) * stride
    let indexB := indexA + stride
    let elementA ← effects.readSource source (← effects.subtract elementsInBuffer 1)
    let result ← effects.reduceRemaining comm op maxX indexB elementA
    effects.writeReduceBuffer elementsWritten result
    return elementsWritten + 1
  else return elementsWritten

/-- The remaining passes, beginning with pass `y`. -/
def reducePasses (index maxX : ℕ) : (passes y : ℕ) → SourceBuffer T → ℕ → m ℕ
  | 0, _, _, elementsInBuffer => return elementsInBuffer
  | passes + 1, y, source, elementsInBuffer => do
      let elementsWritten ← effects.reducePass comm op index maxX y source elementsInBuffer
      reducePasses index maxX passes (y + 1) .reduceBuffer elementsWritten

/-- `max_x` -/
def maxX (index : ℕ) : m ℕ := do
  if index = 0 then effects.subtract comm.globalSize 1
  else
    return min (← effects.subtract comm.globalSize 1)
      (← effects.subtract (index + treeSubtreeSize index) 1)

/-- `n_local_elements` -/
def nLocalElements (maxX index : ℕ) : m ℕ := do
  let largestLocalIndex := min maxX (← effects.subtract comm.regionEnd 1)
  effects.subtract (largestLocalIndex + 1) index

/-- `_perform_reduce(index, buffer, op)` -/
def performReduceAt (buffer : List T) (index : ℕ) : m T := do
  effects.enterCall
  if index &&& 1 = 1 then
    effects.ofOption .outOfRange buffer[← effects.subtract index comm.regionBegin]?
  else
    let maxX ← effects.maxX comm index
    effects.assertThat (comm.maxY index < 64)
    let nLocalElements ← effects.nLocalElements comm maxX index
    let source := SourceBuffer.sendBuffer
      (buffer.drop (← effects.subtract index comm.regionBegin))
    let elementsInBuffer ← effects.reducePasses comm op index maxX (comm.maxY index) 1 source
      nLocalElements
    effects.assertThat (elementsInBuffer = 1)
    effects.readReduceBuffer 0

/-- The loop of `_perform_reduce(buffer, op)` over the results that other ranks
need. -/
def communicateElements (buffer : List T) : List ℕ → m Unit
  | [] => pure ()
  | index :: indices => do
      -- before a considerable amount of work no one shall wait for our results
      if treeSubtreeSize index > 16 then effects.flush
      let targetRank ← effects.ofOption .assertionFailed (comm.rankOfIndex p (treeParent index))
      let value ← effects.performReduceAt comm op buffer index
      effects.put targetRank index value
      communicateElements buffer indices

/-- The message phase of `_perform_reduce(buffer, op)` on rank `me`, that is all of
it before the broadcast.  The result of other ranks than the origin is not
initialised. -/
def messagePhase [Inhabited T] (me : Fin p) (buffer : List T) : m T := do
  effects.communicateElements comm op buffer comm.rankIntersectingElements
  effects.flush
  effects.wait
  if me.val = comm.originRank then effects.performReduceAt comm op buffer 0
  else return default

/-- `_perform_reduce(buffer, op)` on rank `me`. -/
def performReduce [Inhabited T] (me : Fin p) (buffer : List T) : m T := do
  let result ← effects.messagePhase comm op me buffer
  let root ← effects.ofOption .assertionFailed
    (if horigin : comm.originRank < p then some ⟨comm.originRank, horigin⟩ else none)
  effects.bcastSingle root result

/-- `reproducible_reduce` on rank `me`. -/
def reproducibleReduce [Inhabited T] (me : Fin p) (sendBuf : List T) : m T := do
  effects.assertThat (sendBuf.length = comm.regionSize)
  effects.performReduce comm op me sendBuf

end Text

end ReduceEffects

/-! ## The program of the network -/

/-- The effects of a rank in the network, where no subtraction is checked. -/
def networkEffects (p : ℕ) (T : Type) [Inhabited T] (sizeofEntry : ℕ+) :
    ReduceEffects p T (Program (Fin p) T) where
  fail _ := Program.failed
  subtract minuend subtrahend := pure (minuend - subtrahend)
  enterCall := pure ()
  readReduceBuffer x := Program.onReduceBuffer fun reduceBuffer =>
    reduceBuffer[x]?.map fun value => (value, reduceBuffer)
  writeReduceBuffer x value := Program.onReduceBuffer fun reduceBuffer =>
    if x < reduceBuffer.length then some ((), reduceBuffer.set x value) else none
  flush := MessageBuffer.flush
  wait := MessageBuffer.wait
  put := MessageBuffer.put
  get := MessageBuffer.get sizeofEntry
  bcastSingle := Program.bcastSingle

section Programs

variable {p : ℕ} {T : Type} [Inhabited T] (sizeofEntry : ℕ+)
variable (comm : ReproducibleCommunicator) (op : T → T → T)

def performReduceAt (buffer : List T) (index : ℕ) : Program (Fin p) T T :=
  (networkEffects p T sizeofEntry).performReduceAt comm op buffer index

def reproducibleReduce (me : Fin p) (sendBuf : List T) : Program (Fin p) T T :=
  (networkEffects p T sizeofEntry).reproducibleReduce comm op me sendBuf

end Programs

/-! ## Values -/

/-- Last index of the subtree of `index`, the value of `max_x`. -/
def ReproducibleCommunicator.maxX (comm : ReproducibleCommunicator) (index : ℕ) : ℕ :=
  if index = 0 then comm.globalSize - 1
  else min (comm.globalSize - 1) (index + treeSubtreeSize index - 1)

/-- Elements of the subtree in the own region, the value of `n_local_elements`. -/
def ReproducibleCommunicator.nLocalElements (comm : ReproducibleCommunicator)
    (index : ℕ) : ℕ :=
  let largestLocalIndex := min (comm.maxX index) (comm.regionEnd - 1)
  largestLocalIndex + 1 - index

/-- Members of the communicator right after its construction. -/
def ReproducibleCommunicator.initialState (comm : ReproducibleCommunicator)
    (Rank T : Type) [Inhabited T] : RankState Rank T where
  messageBuffer := MessageBuffer.initial Rank T
  reduceBuffer := List.replicate comm.regionSize default

/-- One call of `reproducible_reduce`: the operation and the send buffer of a
rank. -/
structure ReduceCall (T : Type) where
  op : T → T → T
  sendBuf : List T

/-- Successive calls of `reproducible_reduce` on one communicator; returns all
results. -/
def reduceCalls {p : ℕ} {T : Type} [Inhabited T] (sizeofEntry : ℕ+)
    (comm : ReproducibleCommunicator) (me : Fin p) :
    List (ReduceCall T) → Program (Fin p) T (List T)
  | [] => return []
  | call :: calls => do
      let result ← reproducibleReduce sizeofEntry comm call.op me call.sendBuf
      return result :: (← reduceCalls sizeofEntry comm me calls)

end MpiBindings.ReproducibleReduce

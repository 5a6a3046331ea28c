import Mathlib.Data.List.Nodup

/-!
# Result objects

A wrapped call returns the buffers that the caller asked for.  The parameters of the
caller are filtered by their traits, and the buffers of the wrapper are selected by
their parameter types.  All of this happens when the call is compiled: a program that
does not compile has no result.
-/

namespace MpiBindings.Parameters

/-! ## Parameters and buffers -/

inductive ParameterType
  | sendBuf
  | recvBuf
  | sendRecvBuf
  | recvCounts
  | recvCount
  | recvDispls
  | sendCounts
  | sendCount
  | sendDispls
  | sendRecvCount
  | op
  | source
  | destination
  | status
  | statuses
  | request
  | root
  | tag
  | sendMode
  | valuesOnRank0
  | sendType
  | recvType
  | sendRecvType
deriving DecidableEq

/-- What the type of a parameter says about its buffer. -/
structure BufferTraits where
  parameterType : ParameterType
  isOwning : Bool
  isOutBuffer : Bool
  usesSerialization : Bool
deriving DecidableEq

/-- A buffer with its underlying data. -/
structure Buffer (α : Type) extends BufferTraits where
  underlying : α

inductive Outcome (α : Type)
  | nothing
  | container (underlying : α)
  | result (data : List (Buffer α))

variable {α : Type}

/-! ## Filtering -/

def parameterTypesToIgnoreForResultObject : List ParameterType :=
  [.op, .source, .destination, .statuses, .request, .root, .tag, .sendMode, .valuesOnRank0]

/-- `PredicateForResultObject::discard`. -/
def discard (buffer : BufferTraits) : Bool :=
  if buffer.parameterType ∈ parameterTypesToIgnoreForResultObject then true
  else !buffer.isOwning || !buffer.isOutBuffer

/-- `DiscardSerializationBuffers::discard`. -/
def discardSerializationBuffers (buffer : BufferTraits) : Bool :=
  if discard buffer then true
  else if buffer.parameterType = .recvBuf ∨ buffer.parameterType = .sendRecvBuf then
    buffer.usesSerialization
  else false

def filterOut (predicate : BufferTraits → Bool) : List BufferTraits → List ParameterType
  | [] => []
  | head :: tail =>
      if predicate head then filterOut predicate tail
      else head.parameterType :: filterOut predicate tail

/-! ## Selection -/

/-- The position of the first argument of a type, or `none` for the greatest index. -/
def findPos (ptype : ParameterType) (index : ℕ) : List ParameterType → Option ℕ
  | [] => none
  | [arg] => if arg = ptype then some index else none
  | arg :: arg2 :: args =>
      if arg = ptype then some index else findPos ptype (index + 1) (arg2 :: args)

def hasParameterType (ptype : ParameterType) (args : List ParameterType) : Bool :=
  match findPos ptype 0 args with
  | some index => index < args.length
  | none => false

def Buffer.parameterTypes (buffers : List (Buffer α)) : List ParameterType :=
  buffers.map fun buffer => buffer.parameterType

/-- The selection does not compile if there is no buffer of the type. -/
def selectParameterType (ptype : ParameterType) (buffers : List (Buffer α)) :
    Option (Buffer α) :=
  (findPos ptype 0 (Buffer.parameterTypes buffers)).bind fun selectedIndex =>
    buffers[selectedIndex]?

def constructBufferTuple (ptypes : List ParameterType) (buffers : List (Buffer α)) :
    Option (List (Buffer α)) :=
  ptypes.mapM fun ptype => selectParameterType ptype buffers

/-! ## Result -/

/-- `MPIResult`, which never holds both a recv and a send_recv buffer. -/
def mpiResult (data : List (Buffer α)) : Option (Outcome α) :=
  if hasParameterType .recvBuf (Buffer.parameterTypes data) &&
      hasParameterType .sendRecvBuf (Buffer.parameterTypes data) then none
  else some (.result data)

/-- Only owning buffers can be extracted. -/
def Buffer.extract (buffer : Buffer α) : Option (Outcome α) :=
  if buffer.isOwning then some (.container buffer.underlying) else none

def returnRecvOrSendRecvBufferOnly : List ParameterType → Bool
  | [] => true
  | [ptype] => ptype = .recvBuf || ptype = .sendRecvBuf
  | _ => false

def returnSendBufOutOnly : List ParameterType → Bool
  | [ptype] => ptype = .sendBuf
  | _ => false

def determineRecvBufferType (buffers : List (Buffer α)) : Option ParameterType :=
  match hasParameterType .recvBuf (Buffer.parameterTypes buffers),
      hasParameterType .sendRecvBuf (Buffer.parameterTypes buffers) with
  | true, false => some .recvBuf
  | false, true => some .sendRecvBuf
  | _, _ => none

def hasRecvOrSendRecvBuf (buffers : List (Buffer α)) : Bool :=
  hasParameterType .recvBuf (Buffer.parameterTypes buffers) ||
    hasParameterType .sendRecvBuf (Buffer.parameterTypes buffers)

def makeMpiResult (callerProvidedArgs : List BufferTraits) (buffers : List (Buffer α)) :
    Option (Outcome α) :=
  let callerProvidedOwningOutParameters := filterOut discard callerProvidedArgs
  let numCallerProvidedOwningOutBuffers :=
    (filterOut discardSerializationBuffers callerProvidedArgs).length
  if returnSendBufOutOnly callerProvidedOwningOutParameters then
    (selectParameterType .sendBuf buffers).bind Buffer.extract
  else if !hasRecvOrSendRecvBuf buffers then
    (constructBufferTuple callerProvidedOwningOutParameters buffers).bind mpiResult
  else
    (determineRecvBufferType buffers).bind fun recvParameterType =>
      (selectParameterType recvParameterType buffers).bind fun recvOrSendRecvBuffer =>
        if !recvOrSendRecvBuffer.isOwning then
          if numCallerProvidedOwningOutBuffers = 0 then some .nothing
          else (constructBufferTuple callerProvidedOwningOutParameters buffers).bind mpiResult
        else if returnRecvOrSendRecvBufferOnly callerProvidedOwningOutParameters then
          recvOrSendRecvBuffer.extract
        else if hasParameterType recvParameterType callerProvidedOwningOutParameters then
          (constructBufferTuple callerProvidedOwningOutParameters buffers).bind mpiResult
        else
          (constructBufferTuple (recvParameterType :: callerProvidedOwningOutParameters)
            buffers).bind mpiResult

end MpiBindings.Parameters

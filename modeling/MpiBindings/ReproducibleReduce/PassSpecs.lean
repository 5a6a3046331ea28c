import MpiBindings.ReproducibleReduce.Receiving
import MpiBindings.ReproducibleReduce.TreeReduction

/-!
# The passes compute the tree

Before the pass on a level, element `x` of the source buffer is the tree node of
that level at `index + x * 2 ^ level`.  A pass keeps this for the next level: the
pairs are combined in place, and the odd last element is combined with the node
that another rank sent, or kept where the array ends.
-/

namespace MpiBindings.ReproducibleReduce

open MessagePassing Choreography Program

/-- What is read from the source buffer. -/
def SourceBuffer.read {T : Type} (source : SourceBuffer T) (reduceBuffer : List T) (x : ℕ) :
    Option T :=
  match source with
  | .sendBuffer elements => elements[x]?
  | .reduceBuffer => reduceBuffer[x]?

section Effects

variable {p : ℕ} {T α : Type} [Inhabited T] {me : Fin p} {sizeofEntry : ℕ+}
variable {state : RankState (Fin p) T}

theorem runs_ofOption {fault : ReduceFault} {value : Option α} {result : α}
    (hvalue : value = some result) :
    Runs me ((networkEffects p T sizeofEntry).ofOption fault value) state [] result state := by
  subst hvalue
  exact Runs.pure result

theorem runs_readReduceBuffer {x : ℕ} {value : T} (hread : state.reduceBuffer[x]? = some value) :
    Runs me ((networkEffects p T sizeofEntry).readReduceBuffer x) state [] value state := by
  have hfound : (state.reduceBuffer[x]?.map fun value => (value, state.reduceBuffer)) =
      some (value, state.reduceBuffer) := by rw [hread, Option.map_some]
  simp only [networkEffects]
  exact Runs.onReduceBuffer value state.reduceBuffer hfound

theorem runs_readSource {source : SourceBuffer T} {x : ℕ} {value : T}
    (hread : source.read state.reduceBuffer x = some value) :
    Runs me ((networkEffects p T sizeofEntry).readSource source x) state [] value state := by
  cases source with
  | sendBuffer elements => exact runs_ofOption hread
  | reduceBuffer => exact runs_readReduceBuffer hread

variable (me sizeofEntry) in
theorem runs_writeReduceBuffer {x : ℕ} (value : T) (hx : x < state.reduceBuffer.length) :
    Runs me ((networkEffects p T sizeofEntry).writeReduceBuffer x value) state [] ()
      { state with reduceBuffer := state.reduceBuffer.set x value } := by
  have hwritten : (if x < state.reduceBuffer.length then
      some ((), state.reduceBuffer.set x value) else none) =
        some ((), state.reduceBuffer.set x value) := if_pos hx
  simp only [networkEffects]
  exact Runs.onReduceBuffer () (state.reduceBuffer.set x value) hwritten

end Effects

section Pairs

variable {T : Type} {op : T → T → T} {source : SourceBuffer T} {value : ℕ → T}
variable {start current : List T}

theorem SourceBuffer.read_set (source : SourceBuffer T) {w x : ℕ} (hlt : w < x)
    (reduceBuffer : List T) (written : T) :
    source.read (reduceBuffer.set w written) x = source.read reduceBuffer x := by
  cases source with
  | sendBuffer elements => rfl
  | reduceBuffer => exact List.getElem?_set_ne hlt.ne

/-- The state of the pair loop after `w` elements were written: they are the
combined pairs, and what is read from position `w` on is as at the start. -/
structure PairsWritten (op : T → T → T) (source : SourceBuffer T) (value : ℕ → T)
    (start current : List T) (w : ℕ) : Prop where
  length : current.length = start.length
  written : ∀ x < w, current[x]? = some (op (value (2 * x)) (value (2 * x + 1)))
  kept : ∀ x, w ≤ x → source.read current x = source.read start x

theorem PairsWritten.step {count w : ℕ} (hlength : count / 2 ≤ start.length)
    (hw : 2 * w + 2 ≤ count)
    (hcurrent : PairsWritten op source value start current w) :
    PairsWritten op source value start
      (current.set w (op (value (2 * w)) (value (2 * w + 1)))) (w + 1) := by
  refine ⟨by simpa using hcurrent.length, fun x hx => ?_, fun x hx => ?_⟩
  · by_cases hxw : x = w
    · subst hxw
      exact List.getElem?_set_self (by rw [hcurrent.length]; omega)
    · rw [List.getElem?_set_ne (Ne.symm hxw)]
      exact hcurrent.written x (by omega)
  · rw [source.read_set (by omega)]
    exact hcurrent.kept x (by omega)

end Pairs

/-- The pair loop does not communicate. -/
theorem runs_reducePairs {p : ℕ} {T : Type} [Inhabited T] (me : Fin p) (sizeofEntry : ℕ+)
    {op : T → T → T} {source : SourceBuffer T} {value : ℕ → T} {start : List T}
    {state : RankState (Fin p) T} {count : ℕ} (w : ℕ)
    (hread : ∀ x < count, source.read start x = some (value x))
    (hlength : count / 2 ≤ start.length) (hw : 2 * w ≤ count)
    (hcurrent : PairsWritten op source value start state.reduceBuffer w) :
    ∃ final,
      Runs me ((networkEffects p T sizeofEntry).reducePairs op source count (2 * w) w) state []
        (count / 2) { state with reduceBuffer := final } ∧
      PairsWritten op source value start final (count / 2) := by
  induction hrest : count / 2 - w generalizing w state with
  | zero =>
      have hlast : w = count / 2 := by omega
      refine ⟨state.reduceBuffer, ?_, hlast ▸ hcurrent⟩
      rw [ReduceEffects.reducePairs, if_neg (by omega), hlast]
      exact Runs.pure _
  | succ rest ih =>
      have hnext : 2 * w + 2 ≤ count := by omega
      have hbound : w < state.reduceBuffer.length := by
        rw [hcurrent.length]
        omega
      let next : RankState (Fin p) T := { state with
        reduceBuffer := state.reduceBuffer.set w (op (value (2 * w)) (value (2 * w + 1))) }
      have hstep : PairsWritten op source value start next.reduceBuffer (w + 1) :=
        hcurrent.step hlength hnext
      obtain ⟨final, hfinal, hwritten⟩ := ih (w + 1) (by omega) hstep (by omega)
      refine ⟨final, ?_, hwritten⟩
      have hfirst : source.read state.reduceBuffer (2 * w) = some (value (2 * w)) := by
        rw [hcurrent.kept _ (by omega), hread _ (by omega)]
      have hsecond : source.read state.reduceBuffer (2 * w + 1) = some (value (2 * w + 1)) := by
        rw [hcurrent.kept _ (by omega), hread _ (by omega)]
      rw [ReduceEffects.reducePairs, if_pos hnext]
      refine Runs.bind_silent (runs_readSource hfirst) ?_
      refine Runs.bind_silent (runs_readSource hsecond) ?_
      exact Runs.bind_silent (runs_writeReduceBuffer me sizeofEntry _ hbound) hfinal

section Passes

variable {p : ℕ} {T : Type} [Inhabited T] (me : Fin p) (sizeofEntry : ℕ+)
variable {comm : ReproducibleCommunicator} {op : T → T → T} {array : ℕ → T}
variable {n index maxX maxY size level : ℕ} {source : SourceBuffer T}
variable {state : RankState (Fin p) T} {outbox : Outbox (Fin p)} {slot : ℕ → ℕ}
variable {incoming : List (Delivery (Fin p))} {queue : List ℕ}

/-- Node `x` on a level of the subtree at `index`. -/
def nodeValue {T : Type} (op : T → T → T) (array : ℕ → T) (n index level x : ℕ) : T :=
  treeReduce op array n level (index + x * 2 ^ level)

omit [Inhabited T] in
theorem nodeValue_succ_of_lt {x : ℕ} (hlt : index + (2 * x + 1) * 2 ^ level < n) :
    nodeValue op array n index (level + 1) x =
      op (nodeValue op array n index level (2 * x))
        (nodeValue op array n index level (2 * x + 1)) := by
  have hleft : index + x * 2 ^ (level + 1) = index + 2 * x * 2 ^ level := by ring
  have hright : index + 2 * x * 2 ^ level + 2 ^ level =
      index + (2 * x + 1) * 2 ^ level := by ring
  rw [nodeValue, hleft, treeReduce, hright, if_pos hlt, nodeValue, nodeValue]

omit [Inhabited T] in
theorem nodeValue_succ_of_ge {x : ℕ} (hge : n ≤ index + (2 * x + 1) * 2 ^ level) :
    nodeValue op array n index (level + 1) x =
      nodeValue op array n index level (2 * x) := by
  have hleft : index + x * 2 ^ (level + 1) = index + 2 * x * 2 ^ level := by ring
  have hright : index + 2 * x * 2 ^ level + 2 ^ level =
      index + (2 * x + 1) * 2 ^ level := by ring
  rw [nodeValue, hleft, treeReduce, hright, if_neg (by omega), nodeValue]

/-- The elements of the source buffer are the nodes of the level. -/
def HoldsLevel (op : T → T → T) (array : ℕ → T) (n index size level : ℕ)
    (source : SourceBuffer T) (reduceBuffer : List T) : Prop :=
  ∀ x < elementsAt size level,
    source.read reduceBuffer x = some (nodeValue op array n index level x)

omit [Inhabited T] in
theorem nodeValue_pair (hlocal : index + size ≤ n) {x : ℕ}
    (hx : 2 * x + 1 < elementsAt size level) :
    op (nodeValue op array n index level (2 * x))
        (nodeValue op array n index level (2 * x + 1)) =
      nodeValue op array n index (level + 1) x := by
  refine (nodeValue_succ_of_lt ?_).symm
  have := lt_elementsAt_iff.mp hx
  omega

omit [Inhabited T] in
/-- A pass over an even number of elements is complete after the pairs. -/
theorem PairsWritten.holdsLevel_even {start final : List T} (hlocal : index + size ≤ n)
    (heven : elementsAt size level % 2 = 0)
    (hwritten : PairsWritten op source (nodeValue op array n index level) start final
      (elementsAt size level / 2)) :
    HoldsLevel op array n index size (level + 1) .reduceBuffer final := by
  intro x hx
  rw [elementsAt_succ] at hx
  rw [← nodeValue_pair hlocal (by omega)]
  exact hwritten.written x (by omega)

omit [Inhabited T] in
/-- A pass over an odd number of elements writes one more element. -/
theorem PairsWritten.holdsLevel_odd {start final : List T} (hlocal : index + size ≤ n)
    (hodd : elementsAt size level % 2 = 1)
    (hwritten : PairsWritten op source (nodeValue op array n index level) start final
      (elementsAt size level / 2))
    (hlength : elementsAt size level / 2 < final.length) :
    HoldsLevel op array n index size (level + 1) .reduceBuffer
      (final.set (elementsAt size level / 2)
        (nodeValue op array n index (level + 1) (elementsAt size level / 2))) := by
  intro x hx
  rw [elementsAt_succ] at hx
  by_cases hlast : x = elementsAt size level / 2
  · subst hlast
    exact List.getElem?_set_self hlength
  · have hlt : x < elementsAt size level / 2 := by omega
    refine (List.getElem?_set_ne (Ne.symm hlast)).trans ?_
    rw [← nodeValue_pair hlocal (x := x) (by omega)]
    exact hwritten.written x hlt

variable (state) in
theorem runs_reduceRemaining (hbounds : SubtreeBounds n index maxX maxY)
    (hlevel : level < maxY) (hlocal : index + size ≤ maxX + 1)
    (hodd : elementsAt size level % 2 = 1)
    (hawaits : Awaits slot (comm.rankOfIndex p) (partialResult op array n)
      state.messageBuffer outbox incoming
      ((request index maxX size level).toList ++ queue)) :
    ∃ trace outbox' incoming' state',
      Runs me ((networkEffects p T sizeofEntry).reduceRemaining comm op maxX
        (index + elementsAt size level * 2 ^ level)
        (nodeValue op array n index level (elementsAt size level - 1))) state trace
        (nodeValue op array n index (level + 1) (elementsAt size level / 2)) state' ∧
      Awaits slot (comm.rankOfIndex p) (partialResult op array n) state'.messageBuffer
        outbox' incoming' queue ∧
      trace ++ receptionTrace me (partialResult op array n) outbox' incoming' =
        receptionTrace me (partialResult op array n) outbox incoming ∧
      outboxAfter outbox' incoming' = outboxAfter outbox incoming ∧
      state'.reduceBuffer = state.reduceBuffer := by
  have hlt := hbounds.lt
  have hdouble : 2 * (elementsAt size level / 2) = elementsAt size level - 1 := by omega
  have hnext : 2 * (elementsAt size level / 2) + 1 = elementsAt size level := by omega
  unfold ReduceEffects.reduceRemaining
  by_cases hends : index + elementsAt size level * 2 ^ level > maxX
  · have hrequest : request index maxX size level = none := by
      simp only [request]
      rw [if_neg (by omega)]
    have hvalue : nodeValue op array n index (level + 1) (elementsAt size level / 2) =
        nodeValue op array n index level (elementsAt size level - 1) := by
      rw [nodeValue_succ_of_ge, hdouble]
      rw [hnext]
      exact hbounds.array_ends hlevel hlocal hodd hends
    rw [hrequest] at hawaits
    rw [hvalue, if_pos hends]
    exact ⟨[], outbox, incoming, state, Runs.pure _, hawaits, rfl, rfl, rfl⟩
  · have hrequest : request index maxX size level =
        some (index + elementsAt size level * 2 ^ level) := by
      simp only [request]
      rw [if_pos ⟨hodd, by omega⟩]
    have hvalue : nodeValue op array n index (level + 1) (elementsAt size level / 2) =
        op (nodeValue op array n index level (elementsAt size level - 1))
          (partialResult op array n (index + elementsAt size level * 2 ^ level)) := by
      rw [nodeValue_succ_of_lt (by rw [hnext]; omega), hnext, hdouble, partialResult,
        subtreeHeight_of_bounds hbounds hlevel hodd]
      rfl
    rw [hrequest] at hawaits
    obtain ⟨sourceRank, trace, outbox', incoming', state', hsource, hruns, hrest⟩ :=
      runs_get me sizeofEntry hawaits
    refine ⟨trace, outbox', incoming', state', ?_, hrest⟩
    rw [hvalue, if_neg hends]
    refine Runs.bind_silent (runs_ofOption hsource) ?_
    rw [← List.append_nil trace]
    exact hruns.bind (Runs.pure _)

theorem runs_reducePass (hbounds : SubtreeBounds n index maxX maxY) (hlevel : level < maxY)
    (hsize : 0 < size) (hlocal : index + size ≤ maxX + 1)
    (hread : HoldsLevel op array n index size level source state.reduceBuffer)
    (hlength : size ≤ state.reduceBuffer.length)
    (hawaits : Awaits slot (comm.rankOfIndex p) (partialResult op array n)
      state.messageBuffer outbox incoming
      ((request index maxX size level).toList ++ queue)) :
    ∃ trace outbox' incoming' state',
      Runs me ((networkEffects p T sizeofEntry).reducePass comm op index maxX (level + 1) source
        (elementsAt size level)) state trace (elementsAt size (level + 1)) state' ∧
      Awaits slot (comm.rankOfIndex p) (partialResult op array n) state'.messageBuffer
        outbox' incoming' queue ∧
      trace ++ receptionTrace me (partialResult op array n) outbox' incoming' =
        receptionTrace me (partialResult op array n) outbox incoming ∧
      outboxAfter outbox' incoming' = outboxAfter outbox incoming ∧
      HoldsLevel op array n index size (level + 1) .reduceBuffer state'.reduceBuffer ∧
      state'.reduceBuffer.length = state.reduceBuffer.length := by
  have hlt := hbounds.lt
  have hpos := elementsAt_pos hsize level
  have hcountLe := elementsAt_le size level
  obtain ⟨final, hpairs, hwritten⟩ :=
    runs_reducePairs me sizeofEntry 0 hread (by omega) (by omega)
      (⟨rfl, by simp, fun _ _ => rfl⟩ :
        PairsWritten op source _ state.reduceBuffer state.reduceBuffer 0)
  have hparity := Nat.mod_two_eq_zero_or_one (elementsAt size level)
  obtain heven | hodd := hparity
  · have hrequest : request index maxX size level = none := by simp [request, heven]
    rw [hrequest] at hawaits
    refine ⟨[], outbox, incoming, { state with reduceBuffer := final }, ?_, hawaits, rfl, rfl,
      hwritten.holdsLevel_even (by omega) heven, hwritten.length⟩
    unfold ReduceEffects.reducePass
    refine Runs.bind_silent (Runs.pure _) (Runs.bind_silent hpairs ?_)
    refine Runs.bind_silent (Runs.pure _) (Runs.bind_silent (Runs.assertThat (by omega)) ?_)
    rw [if_neg (by omega), elementsAt_succ]
    have hwrittenCount : elementsAt size level / 2 = (elementsAt size level + 1) / 2 := by omega
    rw [← hwrittenCount]
    exact Runs.pure _
  · obtain ⟨trace, outbox', incoming', state', hruns, hawaits', htrace, houtbox, hreduce⟩ :=
      runs_reduceRemaining me sizeofEntry { state with reduceBuffer := final } hbounds hlevel
        hlocal hodd hawaits
    have hbound : elementsAt size level / 2 < final.length := by
      rw [hwritten.length]
      omega
    refine ⟨trace, outbox', incoming', { state' with
      reduceBuffer := final.set (elementsAt size level / 2)
        (nodeValue op array n index (level + 1) (elementsAt size level / 2)) },
      ?_, hawaits', htrace, houtbox, hwritten.holdsLevel_odd (by omega) hodd hbound,
      by simpa using hwritten.length⟩
    have hlast : source.read final (elementsAt size level - 1) =
        some (nodeValue op array n index level (elementsAt size level - 1)) := by
      rw [hwritten.kept _ (by omega), hread _ (by omega)]
    have hcount : elementsAt size (level + 1) = elementsAt size level / 2 + 1 := by
      rw [elementsAt_succ]
      omega
    unfold ReduceEffects.reducePass
    refine Runs.bind_silent (Runs.pure _) (Runs.bind_silent hpairs ?_)
    refine Runs.bind_silent (Runs.pure _) (Runs.bind_silent (Runs.assertThat (by omega)) ?_)
    rw [if_pos (by omega)]
    refine Runs.bind_silent (Runs.pure _) ?_
    dsimp only
    rw [indexB_eq index hpos]
    refine Runs.bind_silent (Runs.pure _) (Runs.bind_silent (runs_readSource hlast) ?_)
    have hfinal : state'.reduceBuffer = final := hreduce
    have hwrite := runs_writeReduceBuffer me sizeofEntry
      (nodeValue op array n index (level + 1) (elementsAt size level / 2)) (hfinal ▸ hbound)
    rw [hfinal] at hwrite
    rw [← List.append_nil trace, hcount]
    exact hruns.bind (Runs.bind_silent hwrite (Runs.pure _))

/-- All passes together: the expected messages arrive, and one node is left. -/
theorem runs_reducePasses {passes : ℕ} (hbounds : SubtreeBounds n index maxX maxY)
    (hpasses : level + passes = maxY) (hsize : 0 < size) (hlocal : index + size ≤ maxX + 1)
    (hread : HoldsLevel op array n index size level source state.reduceBuffer)
    (hlength : size ≤ state.reduceBuffer.length)
    (hawaits : Awaits slot (comm.rankOfIndex p) (partialResult op array n)
      state.messageBuffer outbox incoming (requestsFrom index maxX size level passes)) :
    ∃ state',
      Runs me ((networkEffects p T sizeofEntry).reducePasses comm op index maxX passes
        (level + 1) source
        (elementsAt size level)) state
        (receptionTrace me (partialResult op array n) outbox incoming)
        (elementsAt size maxY) state' ∧
      Awaits slot (comm.rankOfIndex p) (partialResult op array n) state'.messageBuffer
        (outboxAfter outbox incoming) [] [] ∧
      HoldsLevel op array n index size maxY (if passes = 0 then source else .reduceBuffer)
        state'.reduceBuffer ∧
      state'.reduceBuffer.length = state.reduceBuffer.length := by
  induction passes generalizing level source state outbox incoming with
  | zero =>
      obtain rfl : level = maxY := by omega
      obtain ⟨rfl, -⟩ := hawaits.eq_nil
      exact ⟨state, Runs.pure _, hawaits, hread, rfl⟩
  | succ passes ih =>
      rw [requestsFrom_succ] at hawaits
      obtain ⟨trace, outbox', incoming', middle, hpass, hmiddle, htrace, houtbox, hlevel,
          hmiddleLength⟩ :=
        runs_reducePass me sizeofEntry hbounds (by omega) hsize
          hlocal hread hlength hawaits
      obtain ⟨state', hruns, hawaits', hholds, hlength'⟩ :=
        ih (by omega) hlevel (hmiddleLength ▸ hlength) hmiddle
      refine ⟨state', ?_, houtbox ▸ hawaits', ?_, hlength'.trans hmiddleLength⟩
      · rw [← htrace]
        exact hpass.bind hruns
      · rwa [ite_self] at hholds

end Passes

end MpiBindings.ReproducibleReduce

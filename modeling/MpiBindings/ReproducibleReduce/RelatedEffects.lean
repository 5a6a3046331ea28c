import MpiBindings.ReproducibleReduce.Reduction

/-!
# Related implementations of the effects

What two implementations of the effects of a reduction have in common effect by effect,
they have in common for the whole reduction.
-/

namespace MpiBindings.ReproducibleReduce

/-- A relation between two implementations of the effects that sequencing keeps. -/
structure RelatedEffects {p : ℕ} {T : Type} {m n : Type → Type} [Monad m] [Monad n]
    (Related : {α : Type} → m α → n α → Prop) (effects : ReduceEffects p T m)
    (effects' : ReduceEffects p T n) : Prop where
  pure : ∀ {α : Type} (result : α), Related (pure result) (pure result)
  bind : ∀ {α β : Type} {first : m α} {first' : n α} {next : α → m β} {next' : α → n β},
    Related first first' → (∀ result, Related (next result) (next' result)) →
    Related (first >>= next) (first' >>= next')
  fail : ∀ {α : Type} (fault : ReduceFault),
    Related (effects.fail fault : m α) (effects'.fail fault)
  subtract : ∀ minuend subtrahend,
    Related (effects.subtract minuend subtrahend) (effects'.subtract minuend subtrahend)
  enterCall : Related effects.enterCall effects'.enterCall
  readReduceBuffer : ∀ x, Related (effects.readReduceBuffer x) (effects'.readReduceBuffer x)
  writeReduceBuffer : ∀ x value,
    Related (effects.writeReduceBuffer x value) (effects'.writeReduceBuffer x value)
  flush : Related effects.flush effects'.flush
  wait : Related effects.wait effects'.wait
  put : ∀ targetRank index value,
    Related (effects.put targetRank index value) (effects'.put targetRank index value)
  get : ∀ sourceRank index,
    Related (effects.get sourceRank index) (effects'.get sourceRank index)
  bcastSingle : ∀ root own, Related (effects.bcastSingle root own) (effects'.bcastSingle root own)

namespace RelatedEffects

variable {p : ℕ} {T : Type} {m n : Type → Type} [Monad m] [Monad n]
variable {Related : {α : Type} → m α → n α → Prop} {effects : ReduceEffects p T m}
variable {effects' : ReduceEffects p T n} (h : RelatedEffects Related effects effects')
include h

theorem assertThat (condition : Prop) [Decidable condition] :
    Related (effects.assertThat condition) (effects'.assertThat condition) := by
  unfold ReduceEffects.assertThat
  split
  · exact h.pure ()
  · exact h.fail _

theorem ofOption {α : Type} (fault : ReduceFault) (value : Option α) :
    Related (effects.ofOption fault value) (effects'.ofOption fault value) := by
  cases value with
  | none => exact h.fail fault
  | some result => exact h.pure result

theorem readSource (source : SourceBuffer T) (x : ℕ) :
    Related (effects.readSource source x) (effects'.readSource source x) := by
  cases source with
  | sendBuffer elements => exact h.ofOption _ _
  | reduceBuffer => exact h.readReduceBuffer x

theorem reducePairs (op : T → T → T) (source : SourceBuffer T) (elementsInBuffer x w : ℕ) :
    Related (effects.reducePairs op source elementsInBuffer x w)
      (effects'.reducePairs op source elementsInBuffer x w) := by
  induction hrest : elementsInBuffer - x using Nat.strong_induction_on generalizing x w with
  | _ rest ih =>
      unfold ReduceEffects.reducePairs
      by_cases hpair : x + 2 ≤ elementsInBuffer
      · rw [if_pos hpair, if_pos hpair]
        apply h.bind (h.readSource source x)
        intro a
        apply h.bind (h.readSource source (x + 1))
        intro b
        apply h.bind (h.writeReduceBuffer w (op a b))
        intro _
        exact ih _ (by omega) _ _ rfl
      · rw [if_neg hpair, if_neg hpair]
        exact h.pure w

variable (comm : ReproducibleCommunicator) (op : T → T → T)

theorem reduceRemaining (maxX indexB : ℕ) (elementA : T) :
    Related (effects.reduceRemaining comm op maxX indexB elementA)
      (effects'.reduceRemaining comm op maxX indexB elementA) := by
  unfold ReduceEffects.reduceRemaining
  split
  · exact h.pure elementA
  · apply h.bind (h.ofOption _ _)
    intro sourceRank
    apply h.bind (h.get sourceRank indexB)
    intro elementB
    exact h.pure _

theorem reducePass (index maxX y : ℕ) (source : SourceBuffer T) (elementsInBuffer : ℕ) :
    Related (effects.reducePass comm op index maxX y source elementsInBuffer)
      (effects'.reducePass comm op index maxX y source elementsInBuffer) := by
  unfold ReduceEffects.reducePass
  apply h.bind (h.subtract y 1)
  intro exponent
  apply h.bind (h.reducePairs op source elementsInBuffer 0 0)
  intro elementsWritten
  apply h.bind (h.subtract _ _)
  intro remainingElements
  apply h.bind (h.assertThat _)
  intro _
  split
  · apply h.bind (h.subtract _ _)
    intro last
    apply h.bind (h.subtract _ _)
    intro position
    apply h.bind (h.readSource source position)
    intro elementA
    apply h.bind (h.reduceRemaining comm op maxX _ elementA)
    intro result
    apply h.bind (h.writeReduceBuffer elementsWritten result)
    intro _
    exact h.pure _
  · exact h.pure _

theorem reducePasses (index maxX passes y : ℕ) (source : SourceBuffer T)
    (elementsInBuffer : ℕ) :
    Related (effects.reducePasses comm op index maxX passes y source elementsInBuffer)
      (effects'.reducePasses comm op index maxX passes y source elementsInBuffer) := by
  induction passes generalizing y source elementsInBuffer with
  | zero => exact h.pure elementsInBuffer
  | succ passes ih =>
      apply h.bind (h.reducePass comm op index maxX y source elementsInBuffer)
      intro elementsWritten
      exact ih (y + 1) .reduceBuffer elementsWritten

theorem maxX (index : ℕ) : Related (effects.maxX comm index) (effects'.maxX comm index) := by
  unfold ReduceEffects.maxX
  split
  · exact h.subtract _ _
  · apply h.bind (h.subtract _ _)
    intro lastOfArray
    apply h.bind (h.subtract _ _)
    intro lastOfSubtree
    exact h.pure _

theorem nLocalElements (maxX index : ℕ) :
    Related (effects.nLocalElements comm maxX index)
      (effects'.nLocalElements comm maxX index) := by
  apply h.bind (h.subtract _ _)
  intro lastOfRegion
  exact h.subtract _ _

theorem performReduceAt (buffer : List T) (index : ℕ) :
    Related (effects.performReduceAt comm op buffer index)
      (effects'.performReduceAt comm op buffer index) := by
  unfold ReduceEffects.performReduceAt
  apply h.bind h.enterCall
  intro _
  split
  · apply h.bind (h.subtract _ _)
    intro position
    exact h.ofOption _ _
  · apply h.bind (h.maxX comm index)
    intro maxX
    apply h.bind (h.assertThat _)
    intro _
    apply h.bind (h.nLocalElements comm maxX index)
    intro nLocalElements
    apply h.bind (h.subtract _ _)
    intro offset
    apply h.bind (h.reducePasses comm op index maxX _ 1 _ nLocalElements)
    intro elementsInBuffer
    apply h.bind (h.assertThat _)
    intro _
    exact h.readReduceBuffer 0

theorem communicateElements (buffer : List T) (indices : List ℕ) :
    Related (effects.communicateElements comm op buffer indices)
      (effects'.communicateElements comm op buffer indices) := by
  induction indices with
  | nil => exact h.pure ()
  | cons index indices ih =>
      have hrest : ∀ targetRank : Fin p, Related
          (effects.performReduceAt comm op buffer index >>= fun value =>
            effects.put targetRank index value >>= fun _ =>
              effects.communicateElements comm op buffer indices)
          (effects'.performReduceAt comm op buffer index >>= fun value =>
            effects'.put targetRank index value >>= fun _ =>
              effects'.communicateElements comm op buffer indices) := by
        intro targetRank
        apply h.bind (h.performReduceAt comm op buffer index)
        intro value
        apply h.bind (h.put targetRank index value)
        intro _
        exact ih
      unfold ReduceEffects.communicateElements
      split
      · apply h.bind h.flush
        intro _
        exact h.bind (h.ofOption _ _) hrest
      · exact h.bind (h.ofOption _ _) hrest

theorem messagePhase [Inhabited T] (me : Fin p) (buffer : List T) :
    Related (effects.messagePhase comm op me buffer)
      (effects'.messagePhase comm op me buffer) := by
  apply h.bind (h.communicateElements comm op buffer _)
  intro _
  apply h.bind h.flush
  intro _
  apply h.bind h.wait
  intro _
  split
  · exact h.performReduceAt comm op buffer 0
  · exact h.pure default

/-- What is related effect by effect is related for the whole reduction. -/
theorem reproducibleReduce [Inhabited T] (me : Fin p) (sendBuf : List T) :
    Related (effects.reproducibleReduce comm op me sendBuf)
      (effects'.reproducibleReduce comm op me sendBuf) := by
  apply h.bind (h.assertThat _)
  intro _
  apply h.bind (h.messagePhase comm op me sendBuf)
  intro result
  apply h.bind (h.ofOption _ _)
  intro root
  exact h.bcastSingle root result

end RelatedEffects

end MpiBindings.ReproducibleReduce

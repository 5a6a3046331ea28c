import MpiBindings.Core.Choreography

/-!
# Results of a process

`Ensures` speaks about the results that a process can return, whatever it receives;
`map` changes the results and leaves the communication as it is.  Together they
transfer what one rank is known to communicate to a variant of its program that
returns more.
-/

namespace MpiBindings.MessagePassing

universe w

variable {Rank Msg Val : Type*} {α β γ : Type w}

namespace Process

theorem bind_done (p : Process Rank Msg Val α) : p.bind done = p := by
  induction p with
  | done result => rfl
  | fail => rfl
  | isend dst msg next ih => exact congrArg (isend dst msg) ih
  | wait next ih => exact congrArg wait ih
  | recv src next ih => exact congrArg (recv src) (funext ih)
  | bcast root own next ih => exact congrArg (bcast root own) (funext ih)

theorem bind_assoc (p : Process Rank Msg Val α) (f : α → Process Rank Msg Val β)
    (g : β → Process Rank Msg Val γ) :
    (p.bind f).bind g = p.bind fun result => (f result).bind g := by
  induction p with
  | done result => rfl
  | fail => rfl
  | isend dst msg next ih => exact congrArg (isend dst msg) ih
  | wait next ih => exact congrArg wait ih
  | recv src next ih => exact congrArg (recv src) (funext ih)
  | bcast root own next ih => exact congrArg (bcast root own) (funext ih)

/-- Change of the result. -/
def map (f : α → β) (p : Process Rank Msg Val α) : Process Rank Msg Val β :=
  p.bind fun result => done (f result)

theorem map_bind (p : Process Rank Msg Val α) (f : α → Process Rank Msg Val β) (g : β → γ) :
    (p.bind f).map g = p.bind fun result => (f result).map g :=
  bind_assoc p f _

theorem bind_map (p : Process Rank Msg Val α) (f : α → β) (g : β → Process Rank Msg Val γ) :
    (p.map f).bind g = p.bind fun result => g (f result) :=
  bind_assoc p _ g

/-- Whatever the process receives, its result satisfies `post`. -/
def Ensures (post : α → Prop) : Process Rank Msg Val α → Prop
  | done result => post result
  | fail => True
  | isend _ _ next => next.Ensures post
  | wait next => next.Ensures post
  | recv _ next => ∀ msg, (next msg).Ensures post
  | bcast _ _ next => ∀ value, (next value).Ensures post

theorem Ensures.of_forall {post : α → Prop} (hpost : ∀ result, post result)
    (p : Process Rank Msg Val α) : p.Ensures post := by
  induction p with
  | done result => exact hpost result
  | fail => trivial
  | isend _ _ _ ih => exact ih
  | wait _ ih => exact ih
  | recv _ _ ih => exact ih
  | bcast _ _ _ ih => exact ih

theorem Ensures.mono {p : Process Rank Msg Val α} {post post' : α → Prop}
    (hp : p.Ensures post) (hpost : ∀ result, post result → post' result) : p.Ensures post' := by
  induction p with
  | done result => exact hpost result hp
  | fail => trivial
  | isend _ _ _ ih => exact ih hp
  | wait _ ih => exact ih hp
  | recv _ _ ih => exact fun msg => ih msg (hp msg)
  | bcast _ _ _ ih => exact fun value => ih value (hp value)

theorem Ensures.bind {p : Process Rank Msg Val α} {f : α → Process Rank Msg Val β}
    {middle : α → Prop} {post : β → Prop} (hp : p.Ensures middle)
    (hf : ∀ result, middle result → (f result).Ensures post) : (p.bind f).Ensures post := by
  induction p with
  | done result => exact hf result hp
  | fail => trivial
  | isend _ _ _ ih => exact ih hp
  | wait _ ih => exact ih hp
  | recv _ _ ih => exact fun msg => ih msg (hp msg)
  | bcast _ _ _ ih => exact fun value => ih value (hp value)

end Process

end MpiBindings.MessagePassing

namespace MpiBindings.Choreography

open MessagePassing

universe w

variable {Rank Msg Val : Type*} {α β : Type w} {me : Rank} {busy busy' : Bool}
variable {p : Process Rank Msg Val α} {trace : List (Event Rank Msg Val)}

theorem Follows.ensures {result : α} {post : α → Prop}
    (hfollows : Follows me busy p trace result busy') (hensures : p.Ensures post) :
    post result := by
  induction hfollows with
  | done result => exact hensures
  | isend _ ih => exact ih hensures
  | wait _ ih => exact ih hensures
  | recv _ ih => exact ih (hensures _)
  | bcast _ _ ih => exact ih (hensures _)

theorem Follows.map {result : α} (hfollows : Follows me busy p trace result busy')
    (f : α → β) : Follows me busy (p.map f) trace (f result) busy' := by
  rw [← List.append_nil trace]
  exact hfollows.bind (Follows.done _)

/-- A process whose results were changed follows the same trace before. -/
theorem Follows.of_map {f : α → β} {result : β}
    (hfollows : Follows me busy (p.map f) trace result busy') :
    ∃ before, f before = result ∧ Follows me busy p trace before busy' := by
  induction p generalizing busy trace with
  | done before =>
      cases hfollows
      exact ⟨before, rfl, Follows.done before⟩
  | fail => cases hfollows
  | isend dst msg next ih =>
      cases hfollows with
      | isend hnext =>
          obtain ⟨before, hbefore, hfollows⟩ := ih hnext
          exact ⟨before, hbefore, Follows.isend hfollows⟩
  | wait next ih =>
      cases hfollows with
      | wait hnext =>
          obtain ⟨before, hbefore, hfollows⟩ := ih hnext
          exact ⟨before, hbefore, Follows.wait hfollows⟩
  | recv src next ih =>
      cases hfollows with
      | recv hnext =>
          obtain ⟨before, hbefore, hfollows⟩ := ih _ hnext
          exact ⟨before, hbefore, Follows.recv hfollows⟩
  | bcast root own next ih =>
      cases hfollows with
      | bcast hroot hnext =>
          obtain ⟨before, hbefore, hfollows⟩ := ih _ hnext
          exact ⟨before, hbefore, Follows.bcast hroot hfollows⟩

end MpiBindings.Choreography

import Mathlib.Data.List.Basic

/-!
# Queues with selective removal

Items wait in the order of their arrival and are selected by a predicate.  Items of one
channel do not overtake each other: an item is matched only if no earlier item of its channel
is selected.  Which item of which channel is matched is left open, so a selection within one
channel is matched by one item only.
-/

namespace MpiBindings.MatchQueue

variable {α κ : Type*}

/-- An item that a selection may be matched with, between the items before and after it. -/
structure Matched (channel : α → κ) (selects : α → Prop) (queue before : List α) (item : α)
    (after : List α) : Prop where
  queue_eq : queue = before ++ item :: after
  selected : selects item
  first : ∀ other ∈ before, channel other = channel item → ¬ selects other

variable {channel : α → κ} {selects narrower : α → Prop} {queue before after : List α} {item : α}

/-- Later arrivals do not change what is matched. -/
theorem Matched.append (h : Matched channel selects queue before item after)
    (arrivals : List α) :
    Matched channel selects (queue ++ arrivals) before item (after ++ arrivals) where
  queue_eq := by rw [h.queue_eq, List.append_assoc, List.cons_append]
  selected := h.selected
  first := h.first

/-- A selection within the channel of a matched item is matched by the same item. -/
theorem Matched.narrow (h : Matched channel selects queue before item after)
    (hitem : narrower item)
    (hnarrower : ∀ other, narrower other → channel other = channel item ∧ selects other) :
    Matched channel narrower queue before item after where
  queue_eq := h.queue_eq
  selected := hitem
  first other hother _ hselected :=
    h.first other hother (hnarrower other hselected).1 (hnarrower other hselected).2

/-- A selection within one channel is matched by one item only. -/
theorem Matched.unique {before' after' : List α} {item' : α}
    (h : Matched channel selects queue before item after)
    (h' : Matched channel selects queue before' item' after')
    (hchannel : ∀ other, selects other → channel other = channel item) :
    before = before' ∧ item = item' ∧ after = after' := by
  have hsplit : before ++ item :: after = before' ++ item' :: after' :=
    h.queue_eq.symm.trans h'.queue_eq
  have hchannel' : channel item = channel item' := (hchannel item' h'.selected).symm
  rcases List.append_eq_append_iff.mp hsplit with ⟨rest, hbefore, hrest⟩ | ⟨rest, hbefore, hrest⟩
  · cases rest with
    | nil =>
        obtain ⟨hitem, hafter⟩ := List.cons.inj hrest
        exact ⟨(hbefore.trans (List.append_nil before)).symm, hitem, hafter⟩
    | cons other rest =>
        -- the first item would lie before the second one
        obtain ⟨rfl, -⟩ := List.cons.inj hrest
        have hmem : item ∈ before' := hbefore ▸ List.mem_append_right before List.mem_cons_self
        exact absurd h.selected (h'.first item hmem hchannel')
  · cases rest with
    | nil =>
        obtain ⟨hitem, hafter⟩ := List.cons.inj hrest
        exact ⟨hbefore.trans (List.append_nil before'), hitem.symm, hafter.symm⟩
    | cons other rest =>
        obtain ⟨rfl, -⟩ := List.cons.inj hrest
        have hmem : item' ∈ before := hbefore ▸ List.mem_append_right before' List.mem_cons_self
        exact absurd h'.selected (h.first item' hmem hchannel'.symm)

/-- If an item is selected, an item is matched. -/
theorem exists_matched (hselected : ∃ item ∈ queue, selects item) :
    ∃ before item after, Matched channel selects queue before item after := by
  induction queue with
  | nil =>
      obtain ⟨item, hitem, -⟩ := hselected
      exact absurd hitem List.not_mem_nil
  | cons head queue ih =>
      by_cases hhead : selects head
      · exact ⟨[], head, queue, rfl, hhead, fun _ hmem => absurd hmem List.not_mem_nil⟩
      · obtain ⟨item, hitem, hselects⟩ := hselected
        have hmem : item ∈ queue := by
          rcases List.mem_cons.mp hitem with rfl | hmem
          · exact absurd hselects hhead
          · exact hmem
        obtain ⟨before, matched, after, h⟩ := ih ⟨item, hmem, hselects⟩
        refine ⟨head :: before, matched, after, congrArg (head :: ·) h.queue_eq, h.selected, ?_⟩
        intro other hother hsame
        rcases List.mem_cons.mp hother with rfl | hrest
        · exact hhead
        · exact h.first other hrest hsame

/-! ## Order within a channel -/

section Order

variable [DecidableEq κ]

/-- The items of a channel in their order. -/
def ofChannel (channel : α → κ) (key : κ) (items : List α) : List α :=
  items.filter fun item => channel item = key

@[simp]
theorem ofChannel_append (key : κ) (left right : List α) :
    ofChannel channel key (left ++ right) =
      ofChannel channel key left ++ ofChannel channel key right :=
  List.filter_append ..

theorem ofChannel_eq_nil {key : κ} {items : List α}
    (hnone : ∀ item ∈ items, channel item ≠ key) : ofChannel channel key items = [] :=
  List.filter_eq_nil_iff.mpr fun item hitem => by simpa using hnone item hitem

/-- A matched item is the first one of its channel, if selections cover whole channels. -/
theorem Matched.ofChannel_eq (h : Matched channel selects queue before item after)
    (hselects : ∀ other, channel other = channel item → selects other) (key : κ) :
    ofChannel channel key queue =
      ofChannel channel key [item] ++ ofChannel channel key (before ++ after) := by
  rw [h.queue_eq, ← List.singleton_append, ofChannel_append, ofChannel_append, ofChannel_append]
  by_cases hkey : channel item = key
  · have hbefore : ofChannel channel key before = [] :=
      ofChannel_eq_nil fun other hother hsame =>
        h.first other hother (hsame.trans hkey.symm) (hselects other (hsame.trans hkey.symm))
    rw [hbefore, List.nil_append, List.nil_append]
  · have hitem : ofChannel channel key [item] = [] :=
      ofChannel_eq_nil fun other hother => by rwa [List.mem_singleton.mp hother]
    rw [hitem, List.nil_append, List.nil_append]

end Order

end MpiBindings.MatchQueue

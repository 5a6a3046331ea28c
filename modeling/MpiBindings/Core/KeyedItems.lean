import Mathlib.Data.List.Flatten
import Mathlib.Data.List.Nodup

/-!
# Items with keys

Lists of items that carry a key, such as a destination or a source rank, and
the items of one key in their order.  Sorting the items by their keys permutes
them.
-/

namespace MpiBindings

variable {K T : Type*} [DecidableEq K]

/-- Items with the given key in order. -/
def withKey (items : List (K × T)) (key : K) : List T :=
  (items.filter fun item => item.1 = key).map (·.2)

@[simp]
theorem withKey_nil (key : K) : withKey ([] : List (K × T)) key = [] := rfl

theorem withKey_cons (item : K × T) (items : List (K × T)) (key : K) :
    withKey (item :: items) key =
      if item.1 = key then item.2 :: withKey items key else withKey items key := by
  by_cases hkey : item.1 = key <;> simp [withKey, hkey]

theorem withKey_append (left right : List (K × T)) (key : K) :
    withKey (left ++ right) key = withKey left key ++ withKey right key := by
  simp [withKey]

theorem withKey_flatMap {α : Type*} (items : List α) (f : α → List (K × T)) (key : K) :
    withKey (items.flatMap f) key = items.flatMap fun item => withKey (f item) key := by
  induction items with
  | nil => rfl
  | cons item items ih => rw [List.flatMap_cons, withKey_append, ih, List.flatMap_cons]

/-- Items that share a key. -/
theorem withKey_map_const {α : Type*} (items : List α) (f : α → T) (own key : K) :
    withKey (items.map fun item => (own, f item)) key =
      if own = key then items.map f else [] := by
  unfold withKey
  split_ifs with hkey
  · simp [hkey, List.filter_eq_self.mpr]
  · simp [hkey]

theorem withKey_map_self (items : List T) (own key : K) :
    withKey (items.map fun item => (own, item)) key = if own = key then items else [] := by
  rw [withKey_map_const items fun item => item, List.map_id']

theorem mem_withKey {items : List (K × T)} {item : K × T} (hmem : item ∈ items) :
    item.2 ∈ withKey items item.1 :=
  List.mem_map.mpr ⟨item, List.mem_filter.mpr ⟨hmem, by simp⟩, rfl⟩

/-- Sorting by keys permutes the items. -/
theorem flatMap_withKey_perm {keys : List K} (hnodup : keys.Nodup) {items : List (K × T)}
    (hkeys : ∀ item ∈ items, item.1 ∈ keys) :
    (keys.flatMap fun key => (withKey items key).map fun value => (key, value)).Perm
      items := by
  induction items with
  | nil => simp
  | cons item items ih =>
      have hrest := ih fun other hother => hkeys other (List.mem_cons_of_mem _ hother)
      obtain ⟨front, back, hsplit⟩ := List.append_of_mem (hkeys item List.mem_cons_self)
      rw [hsplit] at hnodup hrest ⊢
      -- only the key of the item sees it
      have hother : ∀ key ∈ front ++ back, withKey (item :: items) key = withKey items key := by
        intro key hkey
        rw [withKey_cons, if_neg]
        rintro rfl
        exact (List.nodup_cons.mp (List.perm_middle.nodup_iff.mp hnodup)).1 hkey
      have hfront : (front.flatMap fun key =>
          (withKey (item :: items) key).map fun value => (key, value)) =
            front.flatMap fun key => (withKey items key).map fun value => (key, value) :=
        List.flatMap_congr fun key hkey => by rw [hother key (List.mem_append_left _ hkey)]
      have hback : (back.flatMap fun key =>
          (withKey (item :: items) key).map fun value => (key, value)) =
            back.flatMap fun key => (withKey items key).map fun value => (key, value) :=
        List.flatMap_congr fun key hkey => by rw [hother key (List.mem_append_right _ hkey)]
      rw [List.flatMap_append, List.flatMap_cons] at hrest ⊢
      rw [hfront, hback, withKey_cons, if_pos rfl, List.map_cons, List.cons_append]
      exact List.perm_middle.trans (hrest.cons item)

theorem flatMap_withKey_values_perm {keys : List K} (hnodup : keys.Nodup)
    {items : List (K × T)} (hkeys : ∀ item ∈ items, item.1 ∈ keys) :
    (keys.flatMap (withKey items)).Perm (items.map (·.2)) := by
  have hperm := (flatMap_withKey_perm hnodup hkeys).map (·.2)
  rw [List.map_flatMap] at hperm
  simpa [Function.comp_def] using hperm

end MpiBindings

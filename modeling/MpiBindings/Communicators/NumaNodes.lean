import MpiBindings.Collectives.Reduce
import Mathlib.Algebra.BigOperators.Fin

/-!
# Counting shared-memory nodes

`num_numa_nodes` splits the communicator into its nodes and counts the ranks that are the lowest
of their node.  The plugin in the examples compares the lowest rank with the rank on the node, so
it misses every node whose lowest rank is not smaller than the number of its ranks.
-/

namespace MpiBindings.CommunicatorObjects

open Collectives CollectiveProgram

/-! ## Reductions in the communicators of all ranks -/

section Reductions

variable {p : ℕ} {comms : Communicators p} {T : Type} [Inhabited T]

/-- The rank of a member. -/
def memberRank (comms : Communicators p) (rank : Fin p) (index : Fin (comms.size rank)) : Fin p :=
  (comms.members rank).get index

theorem map_memberRank (rank : Fin p) :
    (List.finRange (comms.size rank)).map (memberRank comms rank) = comms.members rank :=
  List.map_get_finRange _

/-- The orders in which MPI evaluates a reduction on the members of the communicators. -/
abbrev Orders (comms : Communicators p) :=
  ∀ rank, Fin (comms.size rank) → ReductionTree (Fin (comms.size rank))

/-- Every order covers all members. -/
def Orders.Complete (orders : Orders comms) : Prop :=
  ∀ rank index, (orders rank index).leaves.Perm (List.finRange (comms.size rank))

/-- The reduction in the communicator of a rank. -/
def Orders.reduction (orders : Orders comms) (op : T → T → T) (rank : Fin p) :
    Reduction (comms.size rank) T :=
  { op, order := fun _ => orders rank ⟨comms.rankOf rank, comms.rankOf_lt rank⟩
    orderAt := fun index _ => orders rank index }

/-- `allreduce_single` in the communicator of every rank. -/
def allreduceSingleOn (comms : Communicators p) (orders : Orders comms) (op : T → T → T)
    (values : Fin p → T) (rank : Fin p) : Option T :=
  let index : Fin (comms.size rank) := ⟨comms.rankOf rank, comms.rankOf_lt rank⟩
  match outcome (exchange (orders.reduction op rank) index) index fun index =>
      allreduceSingle (values (memberRank comms rank index)) with
  | .finished results => results index
  | _ => none

/-- Every member gets the combined values of the members. -/
theorem allreduceSingleOn_eq {orders : Orders comms} (hcomplete : orders.Complete)
    {op : T → T → T} [Std.Associative op] [Std.Commutative op] (values : Fin p → T)
    (rank : Fin p) :
    allreduceSingleOn comms orders op values rank =
      ReductionTree.total op ((comms.members rank).map values) := by
  have : Std.Associative (orders.reduction op rank).op := ‹Std.Associative op›
  have hordered : (orders.reduction op rank).Ordered True :=
    { order := fun _ => hcomplete rank _
      orderAt := fun index _ => hcomplete rank index
      order_eq := fun hnot => absurd trivial hnot
      orderAt_eq := fun hnot => absurd trivial hnot }
  have hvalues : (List.finRange (comms.size rank)).map
      (fun index => values (memberRank comms rank index)) = (comms.members rank).map values := by
    calc (List.finRange (comms.size rank)).map (fun index => values (memberRank comms rank index))
        = ((List.finRange (comms.size rank)).map (memberRank comms rank)).map values := by
          rw [List.map_map]
          rfl
      _ = (comms.members rank).map values := by rw [map_memberRank]
  rw [allreduceSingleOn]
  simp only [outcome_allreduceSingle (fun _ => ‹Std.Commutative op›) hordered]
  rw [hvalues]
  rfl

end Reductions

/-! ## Counting -/

section Counting

variable {p : ℕ} (node : Fin p → ℕ)

/-- `split_to_shared_memory`: the ranks of every node, with the rank as key. -/
def splitToSharedMemory : Communicators p := .split node Fin.val

/-- Addition of `size_t`. -/
def addSizeT (left right : ℕ) : ℕ := (left + right) % 2 ^ 64

instance : Std.Associative addSizeT where
  assoc left middle right := by simp only [addSizeT, Nat.mod_add_mod, Nat.add_mod_mod, add_assoc]

instance : Std.Commutative addSizeT where
  comm left right := by rw [addSizeT, addSizeT, add_comm]

/-- The lowest rank on the node of a rank. -/
def numaRepresentative (orders : Orders (splitToSharedMemory node)) (rank : Fin p) : Option ℕ :=
  allreduceSingleOn (splitToSharedMemory node) orders min Fin.val rank

/-- `num_numa_nodes`. -/
def numNumaNodes (minOrders : Orders (splitToSharedMemory node))
    (sumOrders : Orders (.world p)) (rank : Fin p) : Option ℕ := do
  let numaRepresentative ← allRanks (numaRepresentative node minOrders)
  allreduceSingleOn (.world p) sumOrders addSizeT
    (fun other => if numaRepresentative other = other then 1 else 0) rank

/-- `my_num_numa_nodes` of the plugin, which takes the rank on the node. -/
def myNumNumaNodes (minOrders : Orders (splitToSharedMemory node))
    (sumOrders : Orders (.world p)) (rank : Fin p) : Option ℕ := do
  let numaRepresentative ← allRanks (numaRepresentative node minOrders)
  allreduceSingleOn (.world p) sumOrders addSizeT
    (fun other => if numaRepresentative other = (splitToSharedMemory node).rankOf other then 1
      else 0) rank

/-- The rank is the lowest on its node. -/
def IsLowest (rank : Fin p) : Prop := ∀ other, node other = node rank → rank ≤ other

instance (rank : Fin p) : Decidable (IsLowest node rank) :=
  inferInstanceAs (Decidable (∀ other, node other = node rank → rank ≤ other))

/-- The ranks on the node of a rank. -/
def ranksOnNode (rank : Fin p) : Finset (Fin p) :=
  Finset.univ.filter fun other => node other = node rank

end Counting

/-! ## Lowest ranks -/

section Lowest

variable {p : ℕ} {node : Fin p → ℕ}

theorem total_min (values : List ℕ) : ReductionTree.total min values = values.min? := by
  induction values with
  | nil => rfl
  | cons value values ih =>
      rw [ReductionTree.total_cons, ih, List.min?_cons]
      cases values.min? <;> rfl

theorem total_addSizeT {value : ℕ} {values : List ℕ} (hlt : (value :: values).sum < 2 ^ 64) :
    ReductionTree.total addSizeT (value :: values) = some (value :: values).sum := by
  induction values generalizing value with
  | nil =>
      rw [List.sum_singleton]
      rfl
  | cons next values ih =>
      rw [List.sum_cons] at hlt ⊢
      rw [ReductionTree.total_cons, ih (by omega)]
      exact congrArg some (Nat.mod_eq_of_lt hlt)

theorem mem_splitToSharedMemory {rank other : Fin p} :
    other ∈ (splitToSharedMemory node).members rank ↔ node other = node rank := by
  rw [splitToSharedMemory, Communicators.members_split_rank]
  simp

theorem size_splitToSharedMemory (rank : Fin p) :
    (splitToSharedMemory node).size rank = (ranksOnNode node rank).card := by
  have hmembers : ((splitToSharedMemory node).members rank).toFinset = ranksOnNode node rank := by
    ext other
    rw [List.mem_toFinset, mem_splitToSharedMemory, ranksOnNode, Finset.mem_filter]
    exact (and_iff_right (Finset.mem_univ other)).symm
  rw [← hmembers, List.toFinset_card_of_nodup ((splitToSharedMemory node).nodup rank)]
  rfl

/-- Every node has a lowest rank, which the reduction finds. -/
theorem numaRepresentative_eq {orders : Orders (splitToSharedMemory node)}
    (hcomplete : orders.Complete) (rank : Fin p) :
    ∃ lowest, node lowest = node rank ∧ IsLowest node lowest ∧
      numaRepresentative node orders rank = some (lowest : ℕ) := by
  rw [numaRepresentative, allreduceSingleOn_eq hcomplete, total_min]
  have hsome := List.isSome_min?_of_mem
    (List.mem_map_of_mem (f := Fin.val) ((splitToSharedMemory node).mem_self rank))
  obtain ⟨least, hleast⟩ := Option.isSome_iff_exists.mp hsome
  obtain ⟨hmem, hle⟩ := List.min?_eq_some_iff.mp hleast
  obtain ⟨lowest, hlowest, rfl⟩ := List.mem_map.mp hmem
  refine ⟨lowest, mem_splitToSharedMemory.mp hlowest, fun other hother => ?_, hleast⟩
  refine hle other (List.mem_map_of_mem (mem_splitToSharedMemory.mpr ?_))
  rw [hother, mem_splitToSharedMemory.mp hlowest]

/-- A node has one lowest rank. -/
theorem IsLowest.eq {rank other : Fin p} (hrank : IsLowest node rank) (hother : IsLowest node other)
    (hnode : node rank = node other) : rank = other :=
  le_antisymm (hrank other hnode.symm) (hother rank hnode)

/-- A count over all ranks. -/
theorem total_count (hp : p < 2 ^ 31) (rank : Fin p) (counted : Fin p → Prop)
    [DecidablePred counted] :
    ReductionTree.total addSizeT (((Communicators.world p).members rank).map fun other =>
      if counted other then 1 else 0) = some (Finset.univ.filter counted).card := by
  let counts : List ℕ := (List.finRange p).map fun other => if counted other then 1 else 0
  have hsum : counts.sum = (Finset.univ.filter counted).card := by
    rw [Finset.card_filter, Fin.sum_univ_def]
  have hle : (Finset.univ.filter counted).card ≤ p :=
    (Finset.card_filter_le _ _).trans (Finset.card_fin p).le
  have hne : counts ≠ [] :=
    List.ne_nil_of_mem (List.mem_map_of_mem (List.mem_finRange rank))
  obtain ⟨value, values, hcounts⟩ := List.exists_cons_of_ne_nil hne
  have htotal := @total_addSizeT value values (by rw [← hcounts, hsum]; omega)
  rw [← hcounts, hsum] at htotal
  exact htotal

theorem exists_isLowest (rank : Fin p) :
    ∃ lowest, node lowest = node rank ∧ IsLowest node lowest := by
  have hself : rank ∈ ranksOnNode node rank := Finset.mem_filter.mpr ⟨Finset.mem_univ _, rfl⟩
  obtain ⟨lowest, hmem, hle⟩ := Finset.exists_min_image (ranksOnNode node rank) id ⟨rank, hself⟩
  have hnode := (Finset.mem_filter.mp hmem).2
  refine ⟨lowest, hnode, fun other hother => hle other ?_⟩
  exact Finset.mem_filter.mpr ⟨Finset.mem_univ _, hother.trans hnode⟩

/-- One rank for every node. -/
theorem card_isLowest :
    (Finset.univ.filter fun rank => IsLowest node rank).card = (Finset.univ.image node).card := by
  have himage : (Finset.univ.filter fun rank => IsLowest node rank).image node =
      Finset.univ.image node := by
    refine (Finset.image_subset_image (Finset.filter_subset _ _)).antisymm fun value hvalue => ?_
    obtain ⟨rank, -, rfl⟩ := Finset.mem_image.mp hvalue
    obtain ⟨lowest, hnode, hlowest⟩ := @exists_isLowest _ node rank
    exact Finset.mem_image.mpr
      ⟨lowest, Finset.mem_filter.mpr ⟨Finset.mem_univ _, hlowest⟩, hnode⟩
  rw [← himage, Finset.card_image_of_injOn]
  intro rank hrank other hother hnode
  exact (Finset.mem_filter.mp hrank).2.eq (Finset.mem_filter.mp hother).2 hnode

/-- The lowest ranks that another rank of their node has as its rank on the node. -/
def lowestWithinNode (node : Fin p → ℕ) : Finset (Fin p) :=
  Finset.univ.filter fun rank => IsLowest node rank ∧ rank.val < (ranksOnNode node rank).card

/-- A lowest rank is the rank on the node of at most one rank of the node, and of one if it is
smaller than the number of ranks on the node. -/
theorem card_rankOnNode_eq {lowestOf : Fin p → Fin p}
    (hnode : ∀ rank, node (lowestOf rank) = node rank)
    (hlowest : ∀ rank, IsLowest node (lowestOf rank)) :
    (Finset.univ.filter fun rank =>
      (lowestOf rank : ℕ) = (splitToSharedMemory node).rankOf rank).card =
        (lowestWithinNode node).card := by
  refine Finset.card_bij (fun rank _ => lowestOf rank) ?_ ?_ ?_
  · intro rank hrank
    have hrankOf := (Finset.mem_filter.mp hrank).2
    have hlt := (splitToSharedMemory node).rankOf_lt rank
    have hsame : ranksOnNode node (lowestOf rank) = ranksOnNode node rank := by
      rw [ranksOnNode, hnode]
      rfl
    rw [size_splitToSharedMemory, ← hrankOf, ← hsame] at hlt
    exact Finset.mem_filter.mpr ⟨Finset.mem_univ _, hlowest rank, hlt⟩
  · intro rank hrank other hother hsame
    have hnodes : node other = node rank := by rw [← hnode, ← hsame, hnode]
    have hrankOf : (splitToSharedMemory node).rankOf other =
        (splitToSharedMemory node).rankOf rank := by
      rw [← (Finset.mem_filter.mp hrank).2, ← (Finset.mem_filter.mp hother).2]
      exact congrArg Fin.val hsame.symm
    have hget := (splitToSharedMemory node).getElem?_rankOf (mem_splitToSharedMemory.mpr hnodes)
    rw [hrankOf, (splitToSharedMemory node).getElem?_rankOf
      ((splitToSharedMemory node).mem_self rank)] at hget
    exact Option.some.inj hget
  · intro lowest hmem
    obtain ⟨-, hisLowest, hlt⟩ := Finset.mem_filter.mp hmem
    rw [← size_splitToSharedMemory] at hlt
    have hget := List.getElem?_eq_getElem (l := (splitToSharedMemory node).members lowest) hlt
    have hmember := mem_splitToSharedMemory.mp (List.mem_of_getElem? hget)
    have heq : lowestOf ((splitToSharedMemory node).members lowest)[lowest.val] = lowest :=
      (hlowest _).eq hisLowest ((hnode _).trans hmember)
    refine ⟨_, Finset.mem_filter.mpr ⟨Finset.mem_univ _, ?_⟩, heq⟩
    rw [heq]
    exact ((splitToSharedMemory node).rankOf_eq hget).symm

variable {minOrders pluginMinOrders : Orders (splitToSharedMemory node)}
  {sumOrders pluginSumOrders : Orders (.world p)}

theorem numNumaNodes_eq (hp : p < 2 ^ 31) (hmin : minOrders.Complete) (hsum : sumOrders.Complete)
    (rank : Fin p) :
    numNumaNodes node minOrders sumOrders rank = some (Finset.univ.image node).card := by
  choose lowestOf hnode hlowest heq using numaRepresentative_eq hmin
  have hcounted : ∀ rank, (lowestOf rank : ℕ) = rank ↔ IsLowest node rank := by
    intro rank
    constructor
    · intro hself
      rw [← Fin.ext hself]
      exact hlowest rank
    · intro hrank
      rw [(hlowest rank).eq hrank (hnode rank)]
  rw [numNumaNodes, allRanks_eq_some.mpr heq, Option.bind_eq_bind, Option.bind_some,
    allreduceSingleOn_eq hsum, total_count hp rank, ← card_isLowest]
  simp only [hcounted]

theorem myNumNumaNodes_eq (hp : p < 2 ^ 31) (hmin : minOrders.Complete)
    (hsum : sumOrders.Complete) (rank : Fin p) :
    myNumNumaNodes node minOrders sumOrders rank = some (lowestWithinNode node).card := by
  choose lowestOf hnode hlowest heq using numaRepresentative_eq hmin
  rw [myNumNumaNodes, allRanks_eq_some.mpr heq, Option.bind_eq_bind, Option.bind_some,
    allreduceSingleOn_eq hsum, total_count hp rank, card_rankOnNode_eq hnode hlowest]

/-- All lowest ranks are counted exactly if every one is smaller than the number of ranks on its
node. -/
theorem card_lowestWithinNode_eq_iff :
    (lowestWithinNode node).card = (Finset.univ.image node).card ↔
      ∀ lowest, IsLowest node lowest → lowest.val < (ranksOnNode node lowest).card := by
  have hsubset : lowestWithinNode node ⊆ Finset.univ.filter fun rank => IsLowest node rank :=
    Finset.monotone_filter_right _ fun _ _ hrank => hrank.1
  rw [← card_isLowest]
  constructor
  · intro hcard lowest hlowest
    have hsame := Finset.eq_of_subset_of_card_le hsubset hcard.ge
    have hmem : lowest ∈ lowestWithinNode node := by
      rw [hsame]
      exact Finset.mem_filter.mpr ⟨Finset.mem_univ _, hlowest⟩
    exact (Finset.mem_filter.mp hmem).2.2
  · intro hwithin
    refine congrArg Finset.card (hsubset.antisymm fun lowest hmem => ?_)
    obtain ⟨huniv, hlowest⟩ := Finset.mem_filter.mp hmem
    exact Finset.mem_filter.mpr ⟨huniv, hlowest, hwithin lowest hlowest⟩

/-- `num_numa_nodes` counts the nodes; the plugin counts those whose lowest rank is smaller than
the number of ranks on the node, so the assertion of the example holds exactly if all of them
are. -/
theorem numNumaNodes_plugin (hp : p < 2 ^ 31) (hmin : minOrders.Complete)
    (hsum : sumOrders.Complete) (hpluginMin : pluginMinOrders.Complete)
    (hpluginSum : pluginSumOrders.Complete) (rank : Fin p) :
    numNumaNodes node minOrders sumOrders rank = some (Finset.univ.image node).card ∧
    myNumNumaNodes node pluginMinOrders pluginSumOrders rank =
      some (lowestWithinNode node).card ∧
    (myNumNumaNodes node pluginMinOrders pluginSumOrders rank =
        numNumaNodes node minOrders sumOrders rank ↔
      ∀ lowest, IsLowest node lowest → lowest.val < (ranksOnNode node lowest).card) := by
  have hnum := @numNumaNodes_eq _ node _ _ hp hmin hsum rank
  have hplugin := @myNumNumaNodes_eq _ node _ _ hp hpluginMin hpluginSum rank
  refine ⟨hnum, hplugin, ?_⟩
  rw [hnum, hplugin, Option.some.injEq, card_lowestWithinNode_eq_iff]

/-- Evaluation from the last member to the first. -/
def inOrder {α : Type} (first : α) : List α → ReductionTree α
  | [] => .leaf first
  | next :: rest => .node first (.leaf first) (inOrder next rest)

theorem leaves_inOrder {α : Type} (first : α) (rest : List α) :
    (inOrder first rest).leaves = first :: rest := by
  induction rest generalizing first with
  | nil => rfl
  | cons next rest ih => exact congrArg (first :: ·) (ih next)

def memberOrders (comms : Communicators p) : Orders comms := fun rank index =>
  match List.finRange (comms.size rank) with
  | [] => .leaf index
  | first :: rest => inOrder first rest

theorem memberOrders_complete (comms : Communicators p) : (memberOrders comms).Complete := by
  intro rank index
  have hmem := List.mem_finRange index
  rw [memberOrders]
  generalize List.finRange (comms.size rank) = members at hmem
  cases members with
  | nil => cases hmem
  | cons first rest =>
      rw [leaves_inOrder]

/-- Two ranks on each of two nodes. -/
theorem numNumaNodes_plugin_two :
    let node : Fin 4 → ℕ := fun rank => rank / 2
    numNumaNodes node (memberOrders _) (memberOrders _) 3 = some (Finset.univ.image node).card ∧
    myNumNumaNodes node (memberOrders _) (memberOrders _) 3 = some (lowestWithinNode node).card ∧
    (myNumNumaNodes node (memberOrders _) (memberOrders _) 3 =
        numNumaNodes node (memberOrders _) (memberOrders _) 3 ↔
      ∀ lowest, IsLowest node lowest → lowest.val < (ranksOnNode node lowest).card) :=
  numNumaNodes_plugin (by decide) (memberOrders_complete _) (memberOrders_complete _)
    (memberOrders_complete _) (memberOrders_complete _) 3

/-- The plugin misses the second node. -/
example : (Finset.univ.image fun rank : Fin 4 => rank.val / 2).card = 2 ∧
    (lowestWithinNode fun rank : Fin 4 => rank.val / 2).card = 1 := by decide

end Lowest

end MpiBindings.CommunicatorObjects

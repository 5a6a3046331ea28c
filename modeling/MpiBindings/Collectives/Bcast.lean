import MpiBindings.Collectives.MpiCalls
import Mathlib.Data.Fin.VecNotation
import Mathlib.Tactic.FinCases

/-!
# The wrappers `bcast` and `bcast_single`

A broadcast without count sends the count first; a root without a buffer sends a special count,
so that all ranks fail and none is left in the broadcast.
-/

namespace MpiBindings.Collectives

open CollectiveProgram

/-! ## Wrappers -/

/-- A buffer of the caller. -/
structure SendRecvBuf (T : Type) where
  elements : List T
  policy : BufferResizePolicy
  isModifiable : Bool

/-- The buffer that the library allocates. -/
def SendRecvBuf.allocated {T : Type} : SendRecvBuf T := ⟨[], .resizeToFit, true⟩

/-- Arguments of `bcast` on one rank. -/
structure BcastArguments (T : Type) where
  root : ℤ
  sendRecvBuf : Option (SendRecvBuf T)
  sendRecvCount : Option ℤ

/-- Output buffers of `bcast` on one rank. -/
@[ext]
structure BcastResult (T : Type) where
  recvBuf : List T
  count : ℤ

section Wrappers

variable {p : ℕ} {T : Type}

/-- The count that a root without a buffer sends. -/
def noBufOnRoot : ℤ := -1

def BcastArguments.buffer (args : BcastArguments T) : SendRecvBuf T :=
  args.sendRecvBuf.getD .allocated

def BcastArguments.IsRoot (args : BcastArguments T) (rank : Fin p) : Prop := (rank : ℤ) = args.root

instance (args : BcastArguments T) (rank : Fin p) : Decidable (args.IsRoot rank) :=
  inferInstanceAs (Decidable ((rank : ℤ) = args.root))

/-- The count of the caller, or the one that the root sends. -/
def bcastCount (args : BcastArguments T) (rank : Fin p) : MpiProgram T ℤ :=
  match args.sendRecvCount with
  | none => do
      assert (args.IsRoot rank → args.buffer.elements.length < 2 ^ 31)
      let count ← askBcastCount args.root
        (if args.IsRoot rank then
          some (if args.sendRecvBuf.isSome then args.buffer.elements.length else noBufOnRoot)
        else none)
      assert (count ≠ noBufOnRoot)
      pure count
  | some count => do
      assert (args.IsRoot rank → args.sendRecvBuf.isSome)
      pure count

variable [Inhabited T]

/-- The buffer of a rank before `MPI_Bcast`. -/
def BcastArguments.prepared (args : BcastArguments T) (rank : Fin p) (count : ℤ) : List T :=
  if args.IsRoot rank then args.buffer.elements
  else args.buffer.policy.resizeIfRequested count.toNat default args.buffer.elements

/-- The broadcast after the count is known. -/
def bcastBuffer (args : BcastArguments T) (rank : Fin p) (count : ℤ) :
    MpiProgram T (BcastResult T) := do
  let buffer := args.prepared rank count
  assert (args.IsRoot rank ∨ 0 ≤ count ∧ count.toNat ≤ buffer.length)
  let received ← askBuffer (.bcast args.root count buffer)
  pure ⟨received, count⟩

/-- `bcast`. -/
def bcast (args : BcastArguments T) (rank : Fin p) : MpiProgram T (BcastResult T) := do
  assert (0 ≤ args.root ∧ args.root < p)
  assertSameOnAllRanks args.root
  assert (args.IsRoot rank ∨ args.buffer.isModifiable)
  assertSameOnAllRanks (if args.sendRecvCount.isNone then 1 else 0)
  let count ← bcastCount args rank
  bcastBuffer args rank count

/-- Arguments of `bcast_single` on one rank. -/
structure BcastSingleArguments (T : Type) where
  root : ℤ
  sendRecvBuf : Option T
  isModifiable : Bool

/-- `bcast_single`. -/
def bcastSingle (args : BcastSingleArguments T) (rank : Fin p) : MpiProgram T T := do
  let rootHasBuffer ← askBcastFlag args.root args.sendRecvBuf.isSome
  assert (rootHasBuffer = true)
  let result ← bcast
    { root := args.root
      sendRecvBuf := args.sendRecvBuf.map fun value => ⟨[value], .noResize, args.isModifiable⟩
      sendRecvCount := some 1 } rank
  match result.recvBuf with
  | [] => .fail
  | value :: _ => pure value

/-- A pair of archives; loading overwrites an object. -/
structure Archive (Object Byte : Type) where
  save : Object → List Byte
  load : List Byte → Object → Option Object

/-- `bcast` of a serialized object; all ranks pass an object. -/
def bcastSerialized {Object : Type} (archive : Archive Object T) (root : ℤ) (object : Object)
    (rank : Fin p) : MpiProgram T Object := do
  let data := if (rank : ℤ) = root then archive.save object else []
  let result ← bcast ⟨root, some ⟨data, .resizeToFit, true⟩, none⟩ rank
  match archive.load result.recvBuf object with
  | some object => pure object
  | none => .fail

end Wrappers

/-! ## Rules -/

section Rules

variable {p : ℕ} {T : Type} [Inhabited T] {reduction : Reduction p T} {lead root : Fin p}
variable {args : Fin p → BcastArguments T}

omit [Inhabited T] in
theorem isRoot_iff (hroots : ∀ rank, (args rank).root = (root : ℤ)) {rank : Fin p} :
    (args rank).IsRoot rank ↔ rank = root := by
  rw [BcastArguments.IsRoot, hroots rank, Int.natCast_inj, Fin.ext_iff]

theorem natCast_ne_noBufOnRoot {n : ℕ} : (n : ℤ) ≠ noBufOnRoot := by
  rw [noBufOnRoot]
  omega

/-- Without counts, all ranks learn the size of the root's buffer or that there is none. -/
theorem outcome_bcastCount {α : Type} (hroots : ∀ rank, (args rank).root = (root : ℤ))
    (hnone : ∀ rank, (args rank).sendRecvCount = none)
    (hsize : (args root).buffer.elements.length < 2 ^ 31)
    (next : Fin p → ℤ → MpiProgram T α) :
    outcome (exchange reduction lead) lead
        (fun rank => bcastCount (args rank) rank >>= next rank) =
      match (args root).sendRecvBuf with
      | none => .failed
      | some buffer => outcome (exchange reduction lead) lead fun rank =>
          next rank buffer.elements.length := by
  let sent (rank : Fin p) : Option ℤ := if (args rank).IsRoot rank then
    some (if (args rank).sendRecvBuf.isSome then (args rank).buffer.elements.length
      else noBufOnRoot) else none
  have hprograms : (fun rank => bcastCount (args rank) rank >>= next rank) = fun rank =>
      assert ((args rank).IsRoot rank → (args rank).buffer.elements.length < 2 ^ 31) >>= fun _ =>
        askBcastCount (args rank).root (sent rank) >>= fun count =>
          assert (count ≠ noBufOnRoot) >>= fun _ => next rank count := by
    funext rank
    simp only [bcastCount, hnone rank, bind_assoc, pure_bind]
    rfl
  have hsized : ∀ rank, (args rank).IsRoot rank → (args rank).buffer.elements.length < 2 ^ 31 :=
    fun rank hroot => (isRoot_iff hroots).mp hroot ▸ hsize
  have hsent : sent root = some (if (args root).sendRecvBuf.isSome then
      ((args root).buffer.elements.length : ℤ) else noBufOnRoot) :=
    if_pos ((isRoot_iff hroots).mpr rfl)
  rw [hprograms, outcome_assert hsized, outcome_askBcastCount hroots hsent]
  cases hbuffer : (args root).sendRecvBuf with
  | none => exact outcome_assert_failed (fun _ => by simp) fun rank _ => next rank noBufOnRoot
  | some buffer =>
      have helements : (args root).buffer.elements = buffer.elements := by
        rw [BcastArguments.buffer, hbuffer]
        rfl
      simp only [Option.isSome_some, if_true, helements]
      exact outcome_assert (fun _ => natCast_ne_noBufOnRoot) fun rank _ =>
        next rank buffer.elements.length

/-- The buffer of a rank after the broadcast of the first elements of the root's buffer. -/
def bcastResult (args : Fin p → BcastArguments T) (root : Fin p) (count : ℕ) (rank : Fin p) :
    BcastResult T where
  recvBuf := if rank = root then (args root).buffer.elements
    else overwrite ((args root).buffer.elements.take count)
      ((args rank).buffer.policy.resizeIfRequested count default (args rank).buffer.elements)
  count := count

/-- A buffer that is resized to fit holds the elements of the root. -/
theorem recvBuf_bcastResult {rank : Fin p} (hpolicy : (args rank).buffer.policy = .resizeToFit) :
    (bcastResult args root (args root).buffer.elements.length rank).recvBuf =
      (args root).buffer.elements := by
  dsimp only [bcastResult]
  split_ifs
  · rfl
  · rw [hpolicy, List.take_length]
    exact overwrite_eq (length_resizeVector _ _ _)

theorem outcome_bcastBuffer (hroots : ∀ rank, (args rank).root = (root : ℤ)) {count : ℕ}
    (hcount : count ≤ (args root).buffer.elements.length)
    (hroom : ∀ rank, rank ≠ root → (args rank).buffer.policy = .noResize →
      count ≤ (args rank).buffer.elements.length) :
    outcome (exchange reduction lead) lead (fun rank => bcastBuffer (args rank) rank count) =
      .finished (bcastResult args root count) := by
  have hlength : ∀ rank, count ≤ ((args rank).prepared rank count).length := by
    intro rank
    rw [BcastArguments.prepared]
    split_ifs with hroot
    · rw [(isRoot_iff hroots).mp hroot]
      exact hcount
    · rw [Int.toNat_natCast]
      exact BufferResizePolicy.le_length_resizeIfRequested
        (hroom rank fun hsame => hroot ((isRoot_iff hroots).mpr hsame))
  have hfits : ∀ rank, (args rank).IsRoot rank ∨
      0 ≤ (count : ℤ) ∧ (count : ℤ).toNat ≤ ((args rank).prepared rank count).length :=
    fun rank => Or.inr ⟨Int.natCast_nonneg count, hlength rank⟩
  have hroot : (args root).prepared root count = (args root).buffer.elements :=
    if_pos ((isRoot_iff hroots).mpr rfl)
  have hexchange : exchange reduction lead (fun rank =>
      .bcast (args rank).root count ((args rank).prepared rank count)) = _ :=
    exchange_bcast hroots (fun _ => rfl) hlength
  have hprograms : (fun rank => bcastBuffer (args rank) rank count) = fun rank =>
      assert ((args rank).IsRoot rank ∨ 0 ≤ (count : ℤ) ∧
        (count : ℤ).toNat ≤ ((args rank).prepared rank count).length) >>= fun _ =>
          askBuffer (.bcast (args rank).root count ((args rank).prepared rank count)) >>=
            fun received => pure ⟨received, count⟩ := rfl
  rw [hprograms, outcome_assert hfits, outcome_askBuffer hexchange, outcome_pure]
  refine congrArg Outcome.finished (funext fun rank => BcastResult.ext ?_ rfl)
  dsimp only [bcastResult]
  rw [hroot]
  split_ifs with hrank
  · rw [hrank, hroot, overwrite, List.length_take, Nat.min_eq_left hcount, List.take_append_drop]
  · have hprepared : (args rank).prepared rank count =
        (args rank).buffer.policy.resizeIfRequested count default (args rank).buffer.elements :=
      if_neg fun hisRoot => hrank ((isRoot_iff hroots).mp hisRoot)
    rw [hprepared]

theorem bcast_eq (args : BcastArguments T) (rank : Fin p) :
    bcast args rank =
      assert (0 ≤ args.root ∧ args.root < p) >>= fun _ =>
        assertSameOnAllRanks args.root >>= fun _ =>
          assert (args.IsRoot rank ∨ args.buffer.isModifiable = true) >>= fun _ =>
            assertSameOnAllRanks (if args.sendRecvCount.isNone then 1 else 0) >>= fun _ =>
              bcastCount args rank >>= bcastBuffer args rank := rfl

/-- With counts, all ranks broadcast at once. -/
theorem outcome_bcast_of_count (hroots : ∀ rank, (args rank).root = (root : ℤ))
    (hmodifiable : ∀ rank, (args rank).IsRoot rank ∨ (args rank).buffer.isModifiable = true)
    {count : ℕ} (hcounts : ∀ rank, (args rank).sendRecvCount = some (count : ℤ))
    (hbuffer : (args root).sendRecvBuf.isSome = true)
    (hcount : count ≤ (args root).buffer.elements.length)
    (hroom : ∀ rank, rank ≠ root → (args rank).buffer.policy = .noResize →
      count ≤ (args rank).buffer.elements.length) :
    outcome (exchange reduction lead) lead (fun rank => bcast (args rank) rank) =
      .finished (bcastResult args root count) := by
  have hvalid : ∀ rank, 0 ≤ (args rank).root ∧ (args rank).root < p := fun rank => by
    rw [hroots rank]
    have := root.isLt
    omega
  have hgiven : ∀ rank, (args rank).IsRoot rank → (args rank).sendRecvBuf.isSome = true :=
    fun rank hroot => (isRoot_iff hroots).mp hroot ▸ hbuffer
  simp only [bcast_eq, bcastCount, hcounts, bind_assoc, pure_bind]
  rw [outcome_assert hvalid,
    outcome_assertSame fun rank other => (hroots rank).trans (hroots other).symm,
    outcome_assert hmodifiable,
    outcome_assertSame fun _ _ => rfl, outcome_assert hgiven]
  exact outcome_bcastBuffer hroots hcount hroom

end Rules

/-! ## Main results -/

section Main

variable {p : ℕ} {T : Type} [Inhabited T] {reduction : Reduction p T} {lead : Fin p}

/-- All ranks name one root, leave the count to it, and it has a buffer. -/
def Agreed (args : Fin p → BcastArguments T) (root : Fin p) (buffer : SendRecvBuf T) : Prop :=
  (∀ rank, (args rank).root = (root : ℤ)) ∧ (∀ rank, (args rank).sendRecvCount = none) ∧
    (args root).sendRecvBuf = some buffer

/-- What every rank has to see to by itself. -/
structure OwnArguments (args : Fin p → BcastArguments T) : Prop where
  root_valid : ∀ rank, 0 ≤ (args rank).root ∧ (args rank).root < p
  isModifiable : ∀ rank, (args rank).IsRoot rank ∨ (args rank).buffer.isModifiable = true
  size_lt : ∀ rank, (args rank).IsRoot rank → (args rank).buffer.elements.length < 2 ^ 31
  room : ∀ root buffer, Agreed args root buffer → ∀ rank, rank ≠ root →
    (args rank).buffer.policy = .noResize →
      buffer.elements.length ≤ (args rank).buffer.elements.length

theorem outcome_bcast_of_agreed {args : Fin p → BcastArguments T} (hown : OwnArguments args)
    {root : Fin p} {buffer : SendRecvBuf T} (hagreed : Agreed args root buffer) :
    outcome (exchange reduction lead) lead (fun rank => bcast (args rank) rank) =
      .finished (bcastResult args root buffer.elements.length) := by
  obtain ⟨hroots, hnone, hbuffer⟩ := hagreed
  have helements : (args root).buffer.elements = buffer.elements := by
    rw [BcastArguments.buffer, hbuffer]
    rfl
  simp only [bcast_eq]
  rw [outcome_assert hown.root_valid,
    outcome_assertSame fun rank other => (hroots rank).trans (hroots other).symm,
    outcome_assert hown.isModifiable,
    outcome_assertSame fun rank other => by rw [hnone rank, hnone other],
    outcome_bcastCount hroots hnone (hown.size_lt root ((isRoot_iff hroots).mpr rfl)), hbuffer]
  exact outcome_bcastBuffer hroots (le_of_eq (congrArg List.length helements.symm))
    (hown.room root buffer ⟨hroots, hnone, hbuffer⟩)

/-- Buffers that are resized to fit all get the elements of the root. -/
theorem outcome_bcast_fitted {buffers : Fin p → List T} {root : Fin p}
    (hsize : (buffers root).length < 2 ^ 31) :
    outcome (exchange reduction lead) lead
        (fun rank => bcast ⟨root, some ⟨buffers rank, .resizeToFit, true⟩, none⟩ rank) =
      .finished fun _ => ⟨buffers root, (buffers root).length⟩ := by
  let args (rank : Fin p) : BcastArguments T :=
    ⟨root, some ⟨buffers rank, .resizeToFit, true⟩, none⟩
  have hroots : ∀ rank, (args rank).root = (root : ℤ) := fun _ => rfl
  have hown : OwnArguments args :=
    { root_valid := fun _ => ⟨Int.natCast_nonneg _, Int.ofNat_lt.mpr root.isLt⟩
      isModifiable := fun _ => Or.inr rfl
      size_lt := fun rank hrank => (isRoot_iff hroots).mp hrank ▸ hsize
      room := fun _ _ _ _ _ hpolicy => by cases hpolicy }
  have hagreed : Agreed args root (args root).buffer := ⟨hroots, fun _ => rfl, rfl⟩
  refine (outcome_bcast_of_agreed hown hagreed).trans
    (congrArg Outcome.finished (funext fun _ => ?_))
  exact BcastResult.ext (recvBuf_bcastResult rfl) rfl

theorem outcome_bcast_failed {args : Fin p → BcastArguments T} (hown : OwnArguments args)
    (hnone : ∃ rank, (args rank).sendRecvCount = none)
    (hnot : ¬ ∃ root buffer, Agreed args root buffer) :
    outcome (exchange reduction lead) lead (fun rank => bcast (args rank) rank) = .failed := by
  simp only [bcast_eq]
  rw [outcome_assert hown.root_valid]
  by_cases hsame : ∀ rank other, (args rank).root = (args other).root
  · rw [outcome_assertSame hsame, outcome_assert hown.isModifiable]
    obtain ⟨rank, hrank⟩ := hnone
    obtain ⟨hnonneg, hlt⟩ := hown.root_valid rank
    have hroots : ∀ other, (args other).root =
        ((⟨(args rank).root.toNat, by omega⟩ : Fin p) : ℤ) := fun other => by
      rw [hsame other rank]
      exact (Int.toNat_of_nonneg hnonneg).symm
    generalize (⟨(args rank).root.toNat, by omega⟩ : Fin p) = root at hroots
    by_cases hcounts : ∀ rank other, (if (args rank).sendRecvCount.isNone then (1 : ℤ) else 0) =
        if (args other).sendRecvCount.isNone then 1 else 0
    · have hnone : ∀ other, (args other).sendRecvCount = none := fun other => by
        have hother := hcounts other rank
        rw [hrank] at hother
        by_contra hsome
        rw [if_neg (by simpa using hsome)] at hother
        exact absurd hother (by decide)
      rw [outcome_assertSame hcounts, outcome_bcastCount hroots hnone
        (hown.size_lt root ((isRoot_iff hroots).mpr rfl))]
      -- all ranks agree on a root, so it has no buffer
      cases hbuffer : (args root).sendRecvBuf with
      | none => rfl
      | some buffer => exact absurd ⟨root, buffer, hroots, hnone, hbuffer⟩ hnot
    · exact outcome_assertSame_failed hcounts _
  · exact outcome_assertSame_failed hsame _

/-- If a rank leaves the count to the root, no rank is left waiting: all ranks end with the
elements of the root if they agree, and all ranks fail if they do not. -/
theorem bcast_outcome {args : Fin p → BcastArguments T} (hown : OwnArguments args)
    (hnone : ∃ rank, (args rank).sendRecvCount = none) :
    (∀ root buffer, Agreed args root buffer →
      outcome (exchange reduction lead) lead (fun rank => bcast (args rank) rank) =
        .finished (bcastResult args root buffer.elements.length)) ∧
    ((¬ ∃ root buffer, Agreed args root buffer) →
      outcome (exchange reduction lead) lead (fun rank => bcast (args rank) rank) = .failed) :=
  ⟨fun _ _ => outcome_bcast_of_agreed hown, outcome_bcast_failed hown hnone⟩

/-- Three ranks; the last one passes a buffer that is not resized. -/
def threeBroadcast : Fin 3 → BcastArguments ℕ :=
  ![⟨1, none, none⟩, ⟨1, some ⟨[7, 8], .noResize, false⟩, none⟩,
    ⟨1, some ⟨[1, 2, 3], .noResize, true⟩, none⟩]

/-- Sums in the given order of the ranks. -/
def sums (first second third : Fin 3) : Reduction 3 ℕ where
  op := (· + ·)
  order _ := .node first (.node first (.leaf first) (.leaf second)) (.leaf third)
  orderAt _ _ := .node first (.node first (.leaf first) (.leaf second)) (.leaf third)

theorem bcast_outcome_three :
    outcome (exchange (sums 0 1 2) 0) 0 (fun rank => bcast (threeBroadcast rank) rank) =
      .finished ![⟨[7, 8], 2⟩, ⟨[7, 8], 2⟩, ⟨[7, 8, 3], 2⟩] := by
  have hagreed : Agreed threeBroadcast 1 ⟨[7, 8], .noResize, false⟩ := by
    refine ⟨?_, ?_, rfl⟩ <;> intro rank <;> fin_cases rank <;> rfl
  have hroom : ∀ root buffer, Agreed threeBroadcast root buffer → ∀ rank, rank ≠ root →
      (threeBroadcast rank).buffer.policy = .noResize →
        buffer.elements.length ≤ (threeBroadcast rank).buffer.elements.length := by
    rintro root buffer ⟨hroots, -, hbuffer⟩ rank hne hpolicy
    obtain rfl : root = 1 := Fin.ext (Int.natCast_inj.mp ((hroots 0).symm.trans (hagreed.1 0)))
    obtain rfl := Option.some.inj (hbuffer.symm.trans hagreed.2.2)
    fin_cases rank
    · cases hpolicy
    · exact absurd rfl hne
    · exact Nat.le_succ 2
  have hown : OwnArguments threeBroadcast := ⟨by decide, by decide, by decide, hroom⟩
  have hresult : bcastResult threeBroadcast 1 2 = ![⟨[7, 8], 2⟩, ⟨[7, 8], 2⟩, ⟨[7, 8, 3], 2⟩] := by
    funext rank
    fin_cases rank <;> rfl
  rw [← hresult]
  exact (bcast_outcome hown ⟨0, rfl⟩).1 1 _ hagreed

theorem outcome_bcastSingle {args : Fin p → BcastSingleArguments T} {root : Fin p} {value : T}
    (hroots : ∀ rank, (args rank).root = (root : ℤ))
    (hmodifiable : ∀ rank, rank ≠ root → (args rank).sendRecvBuf.isSome = true →
      (args rank).isModifiable = true)
    (hbuffer : (args root).sendRecvBuf = some value) :
    outcome (exchange reduction lead) lead (fun rank => bcastSingle (args rank) rank) =
      .finished fun _ => value := by
  let bcastArgs (rank : Fin p) : BcastArguments T :=
    { root := (args rank).root
      sendRecvBuf := (args rank).sendRecvBuf.map fun value =>
        ⟨[value], .noResize, (args rank).isModifiable⟩
      sendRecvCount := some 1 }
  have hprograms : (fun rank => bcastSingle (args rank) rank) = fun rank =>
      askBcastFlag (args rank).root (args rank).sendRecvBuf.isSome >>= fun rootHasBuffer =>
        assert (rootHasBuffer = true) >>= fun _ =>
          bcast (bcastArgs rank) rank >>= fun result =>
            match result.recvBuf with
            | [] => .fail
            | value :: _ => pure value := rfl
  have hown : ∀ rank, (bcastArgs rank).buffer =
      match (args rank).sendRecvBuf with
      | some own => ⟨[own], .noResize, (args rank).isModifiable⟩
      | none => .allocated := fun rank => by
    dsimp only [BcastArguments.buffer, bcastArgs]
    cases (args rank).sendRecvBuf <;> rfl
  have hroot : (bcastArgs root).buffer.elements = [value] := by rw [hown, hbuffer]
  have hmodifiable' : ∀ rank, (bcastArgs rank).IsRoot rank ∨
      (bcastArgs rank).buffer.isModifiable = true := fun rank => by
    by_cases hrank : rank = root
    · exact Or.inl ((isRoot_iff hroots).mpr hrank)
    · rw [hown]
      cases hsome : (args rank).sendRecvBuf with
      | none => exact Or.inr rfl
      | some own =>
          exact Or.inr (hmodifiable rank hrank (Option.isSome_iff_exists.mpr ⟨own, hsome⟩))
  have hroom : ∀ rank, rank ≠ root → (bcastArgs rank).buffer.policy = .noResize →
      1 ≤ (bcastArgs rank).buffer.elements.length := fun rank _ hpolicy => by
    rw [hown] at hpolicy ⊢
    cases hsome : (args rank).sendRecvBuf with
    | none =>
        rw [hsome] at hpolicy
        cases hpolicy
    | some own => exact le_rfl
  have hbcast : outcome (exchange reduction lead) lead
      (fun rank => bcast (bcastArgs rank) rank) =
      .finished (bcastResult bcastArgs root 1) :=
    outcome_bcast_of_count hroots hmodifiable' (fun _ => rfl)
      (by simp only [bcastArgs, hbuffer, Option.map_some, Option.isSome_some])
      (by rw [hroot, List.length_singleton]) hroom
  have hvalue : ∀ rank, (bcastResult bcastArgs root 1 rank).recvBuf = [value] := fun rank => by
    dsimp only [bcastResult]
    split_ifs with hrank
    · exact hroot
    · rw [hroot, hown]
      cases (args rank).sendRecvBuf <;> rfl
  rw [hprograms, outcome_askBcastFlag hroots, outcome_assert fun _ => by simp [hbuffer],
    outcome_bind hbcast]
  simp only [hvalue]
  exact outcome_pure _

/-- No rank is left waiting in `bcast_single`: all ranks return the value of the root, or fail
if it has none. -/
theorem bcastSingle_outcome {args : Fin p → BcastSingleArguments T} {root : Fin p}
    (hroots : ∀ rank, (args rank).root = (root : ℤ))
    (hmodifiable : ∀ rank, rank ≠ root → (args rank).sendRecvBuf.isSome = true →
      (args rank).isModifiable = true) :
    outcome (exchange reduction lead) lead (fun rank => bcastSingle (args rank) rank) =
      match (args root).sendRecvBuf with
      | some value => .finished fun _ => value
      | none => .failed := by
  cases hbuffer : (args root).sendRecvBuf with
  | none =>
      have hprograms : (fun rank => bcastSingle (args rank) rank) = fun rank =>
          askBcastFlag (args rank).root (args rank).sendRecvBuf.isSome >>= fun rootHasBuffer =>
            assert (rootHasBuffer = true) >>= fun _ => _ := rfl
      rw [hprograms, outcome_askBcastFlag hroots, hbuffer]
      exact outcome_assert_failed (fun _ => Bool.false_ne_true) _
  | some value => exact outcome_bcastSingle hroots hmodifiable hbuffer

/-- The last rank passes no value. -/
def threeSingles : Fin 3 → BcastSingleArguments ℕ :=
  ![⟨1, some 4, true⟩, ⟨1, some 9, false⟩, ⟨1, none, true⟩]

theorem bcastSingle_outcome_three :
    outcome (exchange (sums 0 1 2) 0) 0 (fun rank => bcastSingle (threeSingles rank) rank) =
      .finished fun _ => 9 := by
  have hroots : ∀ rank, (threeSingles rank).root = ((1 : Fin 3) : ℤ) := by decide
  exact bcastSingle_outcome hroots (by decide)

/-- Whatever objects the ranks pass, they all get the object of the root, if the archives restore
it. -/
theorem bcastSerialized_outcome {Object : Type} (archive : Archive Object T) {root : Fin p}
    (object : Fin p → Object)
    (hload : ∀ other, archive.load (archive.save (object root)) other = some (object root))
    (hsize : (archive.save (object root)).length < 2 ^ 31) :
    outcome (exchange reduction lead) lead
        (fun rank => bcastSerialized archive root (object rank) rank) =
      .finished fun _ => object root := by
  let data (rank : Fin p) : List T :=
    if (rank : ℤ) = root then archive.save (object rank) else []
  have hdata : data root = archive.save (object root) := if_pos rfl
  have hbcast : outcome (exchange reduction lead) lead
      (fun rank => bcast ⟨root, some ⟨data rank, .resizeToFit, true⟩, none⟩ rank) = _ :=
    outcome_bcast_fitted (hdata ▸ hsize)
  have hprograms : (fun rank => bcastSerialized archive root (object rank) rank) = fun rank =>
      bcast ⟨root, some ⟨data rank, .resizeToFit, true⟩, none⟩ rank >>= fun result =>
        match archive.load result.recvBuf (object rank) with
        | some object => pure object
        | none => .fail := rfl
  rw [hprograms, outcome_bind hbcast]
  simp only [hdata, hload]
  exact outcome_pure _

/-- Pairs are saved as two elements. -/
def pairArchive : Archive (ℕ × ℕ) ℕ where
  save pair := [pair.1, pair.2]
  load
    | [first, second], _ => some (first, second)
    | _, _ => none

theorem bcastSerialized_outcome_three :
    outcome (exchange (sums 0 1 2) 0) 0
        (fun rank =>
          bcastSerialized pairArchive (2 : Fin 3) (![(1, 2), (3, 4), (5, 6)] rank) rank) =
      .finished fun _ => (5, 6) :=
  bcastSerialized_outcome pairArchive ![(1, 2), (3, 4), (5, 6)] (fun _ => rfl) (by decide)

end Main

end MpiBindings.Collectives

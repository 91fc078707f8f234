/-
This file follows the operations over whole runs and says when a copy agrees with its source.
-/

import Fideslib.Allocation.Invariant
import Fideslib.Library.Run

namespace Fideslib.Allocation

variable {Word : Type} {context : Context Word}

namespace RnsPoly

variable {source poly after : RnsPoly Word} {constant : Bool} {numElems : Option Nat}

/-- A receiver agrees with the source on the level, the flag, the words of every regular limb up to
the level and, when the source is extended, those of every special limb. -/
structure Agrees (context : Context Word) (source receiver : RnsPoly Word) : Prop where
  level : receiver.level = source.level
  modUp : receiver.modUp = source.modUp
  words : 0 ≤ source.level → receiver.words = source.words
  limbs : ∀ place : Nat, (place : Int) ≤ source.level →
    receiver.regular.limb[place]?.map Limb.v = source.regular.limb[place]?.map Limb.v
  specials : source.modUp = true → ∀ place < context.scheme.special.length,
    receiver.special.limb[place]?.map Limb.v = source.special.limb[place]?.map Limb.v

/-- A copy fits when what the receiver holds has the number of words of the source, a launch covers
that number exactly, missing limbs can be allocated with it, and an extended source has a level and
leaves full special limbs to a receiver without any. -/
structure CopyFits (context : Context Word) (source : RnsPoly Word) (constant : Bool)
    (numElems : Option Nat) (poly : RnsPoly Word) : Prop where
  words : 0 ≤ source.level → poly.regular.Words source.words ∧ poly.special.Words source.words ∧
    launched source.words = source.words
  missing : poly.level < source.level → poly.regular.limb.length ≤ source.level →
    numElems.getD context.N = source.words
  allocation : poly.level < source.level →
    if constant then poly.regular.limb = []
    else poly.bufferLimb = true → numElems.getD context.N = context.N
  special : source.modUp = true →
    0 ≤ source.level ∧ (poly.special.limb = [] → source.words = context.N)

/-- The limbs of a polynomial with a level have its number of words. -/
theorem Kept.words (kept : Kept context poly) (level : 0 ≤ poly.level) :
    poly.regular.Words poly.words ∧ poly.special.Words poly.words := by
  obtain ⟨words, regular, special⟩ := kept.sameWords
  have enough := kept.enough
  have size : poly.words = words := by
    unfold RnsPoly.words
    cases limbs : poly.regular.limb with
    | nil =>
        rw [limbs, List.length_nil] at enough
        omega
    | cons first rest =>
        have member : first ∈ poly.regular.limb := by
          rw [limbs]
          exact List.mem_cons_self
        exact regular first member
  rw [size]
  exact ⟨regular, special⟩

/-- The launch over a polynomial with a level covers its number of words. -/
theorem gridWords_eq (kept : Kept context poly) (level : 0 ≤ poly.level) :
    poly.gridWords context = some (launched poly.words) := by
  have enough := kept.enough
  have within := kept.within
  have size := context.getLimbSize_eq (show poly.level ≤ context.L by unfold Context.L; omega)
  unfold gridWords
  rw [if_neg (by omega), if_neg]
  intro none
  rw [List.isEmpty_iff.mp none, List.length_nil] at enough
  omega

/-- A receiver without an obstacle grows. -/
theorem grow_succeeds {newLevel : Int}
    (allocation : poly.level < newLevel →
      if constant then poly.regular.limb = []
      else poly.bufferLimb = true → numElems.getD context.N = context.N) :
    ∃ grown, poly.grow context newLevel false constant numElems = some grown := by
  unfold grow
  by_cases high : newLevel ≤ poly.level
  · exact ⟨poly, if_pos high⟩
  · have meets := allocation (by omega)
    rw [if_neg high]
    cases constant with
    | true =>
        rw [if_pos rfl] at meets
        simp [generateLimbConstant, meets]
    | false =>
        rw [if_neg Bool.false_ne_true] at meets
        cases shared : poly.bufferLimb with
        | false => simp
        | true => simp [meets shared, generateLimbSingleMalloc]

/-- A drop and a growth reach the level from the same polynomials. -/
theorem dropToLevel_lt_iff (level : Int) : (poly.dropToLevel level).level < level ↔
    poly.level < level ∧ poly.dropToLevel level = poly := by
  unfold dropToLevel
  split_ifs with lower
  · constructor
    · intro impossible
      exact absurd impossible (lt_irrefl _)
    · intro impossible
      omega
  · exact (and_iff_left rfl).symm

/-- The words of the first limb are those of all limbs. -/
theorem words_eq (kept : Kept context poly) (level : 0 ≤ poly.level) {words : Nat}
    (same : poly.regular.Words words) : poly.words = words := by
  have enough := kept.enough
  have first := List.getElem_mem (show 0 < poly.regular.limb.length by omega)
  exact ((kept.words level).1 _ first).symm.trans (same _ first)

/-- The growth of a fitting copy reaches the level of the source with limbs of its length. -/
theorem CopyFits.grow (kept : Kept context poly) (sourceKept : Kept context source)
    (fits : CopyFits context source constant numElems poly) :
    ∃ grown, (poly.dropToLevel source.level).grow context source.level false constant numElems =
        some grown ∧ Kept context grown ∧ grown.level = source.level ∧
      grown.special = poly.special ∧
      (0 ≤ source.level → grown.regular.Words source.words) := by
  have enough := sourceKept.enough
  have room := sourceKept.within
  have within : source.level ≤ context.L := by
    unfold Context.L
    omega
  have dropped := dropToLevel_kept kept source.level
  obtain ⟨sameRegular, sameSpecial, -, sameBuffer, -⟩ := @dropToLevel_banks _ poly source.level
  have allocation : (poly.dropToLevel source.level).level < source.level →
      if constant then (poly.dropToLevel source.level).regular.limb = []
      else (poly.dropToLevel source.level).bufferLimb = true →
        numElems.getD context.N = context.N := by
    intro low
    rw [sameRegular, sameBuffer]
    exact fits.allocation ((dropToLevel_lt_iff _).mp low).1
  have missing : (poly.dropToLevel source.level).level < source.level →
      (poly.dropToLevel source.level).regular.limb.length ≤ source.level →
      numElems.getD context.N = source.words := by
    intro low
    rw [sameRegular]
    exact fits.missing ((dropToLevel_lt_iff _).mp low).1
  obtain ⟨grown, grew⟩ := grow_succeeds allocation
  refine ⟨grown, grew, grow_kept dropped ?_ grew, ?_, (grow_special grew).1.trans sameSpecial, ?_⟩
  · intro low
    refine ⟨within, ?_⟩
    rw [sameRegular, sameSpecial, sameBuffer, Bool.false_and, Bool.or_false]
    split_ifs with shared
    · -- The limbs of a common buffer fix the number of words.
      have buffered := (Bool.and_eq_true_iff.mp shared).2
      obtain ⟨length, whole⟩ := kept.buffer buffered
      obtain ⟨words, regular, special⟩ := kept.sameWords
      have some_limb : 0 < poly.regular.limb.length := by
        rw [length]
        exact context.scheme.chain_length_pos
      have first := List.getElem_mem some_limb
      rw [← whole _ first, regular _ first]
      exact special
    · intro fewer
      have named := fits.missing ((dropToLevel_lt_iff _).mp low).1 fewer
      rw [named]
      have words := fits.words (by omega)
      exact ⟨words.1, words.2.1⟩
  · have level := (grow_special grew).2.2.2
    have lower : (poly.dropToLevel source.level).level ≤ source.level := by
      unfold dropToLevel
      split_ifs with above
      · exact le_rfl
      · omega
    omega
  · intro level
    have words := (fits.words level).1
    rw [← sameRegular] at words
    exact grow_words dropped words within missing grew

/-- The kernel over the regular limbs makes them agree. -/
theorem copyLimb_agrees (kept : Kept context poly) (sourceKept : Kept context source)
    (level : poly.level = source.level)
    (words : 0 ≤ source.level → poly.regular.Words source.words ∧
      launched source.words = source.words) :
    ∃ copied, copyLimb context source poly = some { poly with regular := copied } ∧
      Bank.Rewritten 0 poly.regular copied ∧
      ∀ place : Nat, (place : Int) ≤ source.level →
        copied.limb[place]?.map Limb.v = source.regular.limb[place]?.map Limb.v := by
  have enough := kept.enough
  have sourceEnough := sourceKept.enough
  have room := kept.within
  have size := context.getLimbSize_eq (show poly.level ≤ context.L by unfold Context.L; omega)
  unfold copyLimb
  rw [if_pos level]
  by_cases positive : 0 ≤ source.level
  · obtain ⟨same, covers⟩ := words positive
    have grid : poly.gridWords context = some source.words := by
      rw [gridWords_eq kept (by omega), words_eq kept (by omega) same, covers]
    obtain ⟨copied, ran, rewritten, agree⟩ := Bank.copy_eq sourceKept.regular kept.regular
      (sourceKept.words positive).1 same (show context.getLimbSize poly.level ≤ _ by omega)
      (by omega)
    refine ⟨copied, ?_, rewritten, fun place below => agree place (by omega)⟩
    rw [grid]
    exact Option.bind_eq_some_iff.mpr ⟨source.words, rfl,
      Option.bind_eq_some_iff.mpr ⟨copied, ran, rfl⟩⟩
  · have none : context.getLimbSize poly.level = 0 := by omega
    refine ⟨poly.regular, ?_, .refl, fun place below => by omega⟩
    have grid : poly.gridWords context = some 0 := by
      unfold gridWords
      rw [if_pos none]
    rw [grid]
    exact Option.bind_eq_some_iff.mpr ⟨0, rfl, rfl⟩

variable [Zero Word]

/-- A polynomial without a common buffer can have special limbs. -/
theorem generateSpecialLimb_succeeds (kept : Kept context poly) :
    ∃ generated, generateSpecialLimb context false false poly = some generated := by
  unfold generateSpecialLimb allocateSpecial
  cases none : poly.special.limb.isEmpty with
  | false => simp
  | true =>
      have shared : poly.bufferSpecial = false := by
        cases buffered : poly.bufferSpecial with
        | false => rfl
        | true => exact absurd (List.isEmpty_iff.mp none) (kept.bufferSpecial buffered)
      simp [shared]

/-- The kernel over the special limbs makes them agree. -/
theorem copySpecialLimb_agrees (kept : Kept context poly) (sourceKept : Kept context source)
    (level : poly.level = source.level) (positive : 0 ≤ source.level)
    (extended : source.modUp = true) (words : poly.regular.Words source.words)
    (covers : launched source.words = source.words)
    (full : poly.special.limb = [] → source.words = context.N) :
    ∃ after, copySpecialLimb context source poly = some after ∧ Kept context after ∧
      after.regular = poly.regular ∧ after.level = poly.level ∧
      after.special.limb.length = context.scheme.special.length ∧
      ∀ place < context.scheme.special.length,
        after.special.limb[place]?.map Limb.v = source.special.limb[place]?.map Limb.v := by
  obtain ⟨generated, ran⟩ := generateSpecialLimb_succeeds kept
  obtain ⟨fits, regular, sameLevel, -, count⟩ := generateSpecialLimb_kept kept (by
    intro none
    rw [← full none]
    exact words) ran
  have generatedLevel : generated.level = source.level := sameLevel.trans level
  have same : generated.regular.Words source.words := by
    rw [regular]
    exact words
  have size := words_eq fits (by omega) same
  have specialWords : generated.special.Words source.words := by
    rw [← size]
    exact (fits.words (by omega)).2
  have grid : generated.gridWords context = some source.words := by
    rw [gridWords_eq fits (by omega), size, covers]
  obtain ⟨copied, copies, rewritten, agree⟩ := Bank.copy_eq sourceKept.special fits.special
    (sourceKept.words positive).2 specialWords (sourceKept.extended extended).ge count.ge
  refine ⟨{ generated with special := copied }, ?_, fits.rewritten .refl rewritten, regular,
    sameLevel, rewritten.length.trans count, agree⟩
  unfold copySpecialLimb
  refine Option.bind_eq_some_iff.mpr ⟨generated, ran, ?_⟩
  simp only [if_pos generatedLevel, grid]
  exact Option.bind_eq_some_iff.mpr ⟨source.words, rfl,
    Option.bind_eq_some_iff.mpr ⟨copied, copies, rfl⟩⟩

/-- A copy that fits succeeds, keeps the invariant and agrees with its source. -/
theorem copy_agrees (kept : Kept context poly) (sourceKept : Kept context source)
    (fits : CopyFits context source constant numElems poly) :
    ∃ after, copy context source constant numElems poly = some after ∧ Kept context after ∧
      Agrees context source after := by
  obtain ⟨grown, grew, grownKept, level, special, words⟩ := fits.grow kept sourceKept
  obtain ⟨copied, limbs, rewritten, agree⟩ := copyLimb_agrees grownKept sourceKept level
    fun positive => ⟨words positive, (fits.words positive).2.2⟩
  have limbsKept : Kept context { grown with regular := copied } :=
    grownKept.rewritten rewritten .refl
  by_cases extended : source.modUp = true
  · obtain ⟨positive, full⟩ := fits.special extended
    obtain ⟨after, ran, afterKept, regular, afterLevel, count, specials⟩ :=
      copySpecialLimb_agrees limbsKept sourceKept level positive extended
        (rewritten.words _ (words positive)) (fits.words positive).2.2 (by
          intro none
          apply full
          rw [← special]
          exact none)
    have finalLevel : after.level = source.level := afterLevel.trans level
    refine ⟨{ after with modUp := source.modUp }, ?_, ⟨afterKept.enough, afterKept.regular,
      afterKept.special, afterKept.specials, afterKept.sameWords, fun _ => count, afterKept.buffer,
      afterKept.bufferSpecial, afterKept.within⟩, finalLevel, rfl, ?_, ?_, fun _ => specials⟩
    · unfold copy copyExtended
      refine Option.bind_eq_some_iff.mpr ⟨grown, grew,
        Option.bind_eq_some_iff.mpr ⟨_, limbs, ?_⟩⟩
      rw [if_pos extended]
      exact Option.bind_eq_some_iff.mpr ⟨after, ran, rfl⟩
    · intro _
      apply words_eq afterKept (by omega)
      rw [regular]
      exact rewritten.words _ (words positive)
    · intro place below
      change after.regular.limb[place]?.map Limb.v = _
      rw [regular]
      exact agree place below
  · refine ⟨{ grown with regular := copied, modUp := source.modUp }, ?_, ⟨limbsKept.enough,
      limbsKept.regular, limbsKept.special, limbsKept.specials, limbsKept.sameWords,
      fun impossible => absurd impossible extended, limbsKept.buffer, limbsKept.bufferSpecial,
      limbsKept.within⟩, level, rfl, ?_, agree, fun impossible => absurd impossible extended⟩
    · unfold copy copyExtended
      refine Option.bind_eq_some_iff.mpr ⟨grown, grew,
        Option.bind_eq_some_iff.mpr ⟨_, limbs, ?_⟩⟩
      rw [if_neg extended]
      rfl
    · intro positive
      exact words_eq limbsKept (by rw [level]; exact positive)
        (rewritten.words _ (words positive))

end RnsPoly

/-- These are the operations that allocate, copy, load and free. -/
inductive Operation (Word : Type) where
  | grow (newLevel : Int) (singleMalloc constant : Bool) (numElems : Option Nat)
  | dropToLevel (level : Int)
  | copy (source : Nat) (constant : Bool) (numElems : Option Nat)
  | load (data : List (List Word)) (moduli : List Nat)
  | loadConstant (data : List (List Word)) (moduli : List Nat) (slots : Option Nat)
      (compress : Bool)
  | generateSpecialLimbs (zeroOut forCommunication : Bool)
  | freeSpecialLimbs
  | freeGPU

namespace Operation

variable [Zero Word]

/-- An operation changes one polynomial, and only a copy reads another one. -/
def apply (context : Context Word) (polys : Nat → RnsPoly Word) (poly : RnsPoly Word) :
    Operation Word → Option (RnsPoly Word)
  | grow newLevel singleMalloc constant numElems =>
      poly.grow context newLevel singleMalloc constant numElems
  | dropToLevel level => some (poly.dropToLevel level)
  | copy source constant numElems => RnsPoly.copy context (polys source) constant numElems poly
  | load data moduli => poly.load context data moduli
  | loadConstant data moduli slots compress => poly.loadConstant context data moduli slots compress
  | generateSpecialLimbs zeroOut forCommunication =>
      poly.generateSpecialLimbs context zeroOut forCommunication
  | freeSpecialLimbs => some poly.freeSpecialLimbs
  | freeGPU => some poly.freeGPU

omit [Zero Word] in
/-- Whatever allocates new limbs fits when they are as long as the limbs that stay. -/
def Fits (context : Context Word) (polys : Nat → RnsPoly Word) (poly : RnsPoly Word) :
    Operation Word → Prop
  | grow newLevel singleMalloc constant numElems => poly.level < newLevel →
      poly.Grows context newLevel singleMalloc constant (numElems.getD context.N)
  | dropToLevel _ => True
  | copy source constant numElems =>
      RnsPoly.CopyFits context (polys source) constant numElems poly
  | load data moduli => poly.LoadFits context data moduli
  | loadConstant data moduli slots _ =>
      poly.ConstantFits context data.length moduli (2 * slots.getD (context.N / 2))
  | generateSpecialLimbs _ _ => poly.special.limb = [] → poly.regular.Words context.N
  | freeSpecialLimbs => True
  | freeGPU => True

end Operation

/-- A call names the polynomial that it changes. -/
structure Call (Word : Type) where
  poly : Nat
  operation : Operation Word

namespace Call

variable [Zero Word]

def perform (context : Context Word) (call : Call Word) (polys : Nat → RnsPoly Word) :
    Option (Nat → RnsPoly Word) :=
  (call.operation.apply context polys (polys call.poly)).map (Function.update polys call.poly)

omit [Zero Word] in
/-- A call fits when its operation does. -/
def Fits (context : Context Word) (call : Call Word) (polys : Nat → RnsPoly Word) : Prop :=
  call.operation.Fits context polys (polys call.poly)

/-- A step is a call that returns. -/
def Moves (context : Context Word) (call : Call Word) (before after : Nat → RnsPoly Word) : Prop :=
  call.perform context before = some after

end Call

open RnsPoly

variable [Zero Word]

/-- An operation that fits keeps what all polynomials keep. -/
theorem Operation.apply_kept {polys : Nat → RnsPoly Word} {poly after : RnsPoly Word}
    {operation : Operation Word} (all : ∀ place, Kept context (polys place))
    (kept : Kept context poly) (fits : operation.Fits context polys poly)
    (done : operation.apply context polys poly = some after) : Kept context after := by
  cases operation with
  | grow newLevel singleMalloc constant numElems => exact grow_kept kept fits done
  | dropToLevel level =>
      cases done
      exact dropToLevel_kept kept level
  | copy source constant numElems =>
      obtain ⟨final, ran, finalKept, -⟩ := copy_agrees kept (all source) fits
      cases ran.symm.trans done
      exact finalKept
  | load data moduli => exact load_kept kept fits done
  | loadConstant data moduli slots compress => exact loadConstant_kept kept fits done
  | generateSpecialLimbs zeroOut forCommunication =>
      exact (generateSpecialLimbs_kept kept fits done).1
  | freeSpecialLimbs =>
      cases done
      exact freeSpecialLimbs_kept kept
  | freeGPU =>
      cases done
      exact freeGPU_kept kept

theorem Call.moves_kept {call : Call Word} {before after : Nat → RnsPoly Word}
    (fits : call.Fits context before) (moves : call.Moves context before after)
    (all : ∀ place, Kept context (before place)) : ∀ place, Kept context (after place) := by
  obtain ⟨changed, applied, rfl⟩ := Option.map_eq_some_iff.mp moves
  intro place
  by_cases same : place = call.poly
  · subst same
    rw [Function.update_self]
    exact Operation.apply_kept all (all call.poly) fits applied
  · rw [Function.update_of_ne same]
    exact all place

/-- In every run whose calls fit, all polynomials keep the invariant, and a copy that fits succeeds,
makes its receiver agree with the source and changes nothing else. -/
theorem representation_kept {polys : Nat → RnsPoly Word}
    (run : StateMachine.Run (Call.Moves context) (Call.Fits context) (fun _ => RnsPoly.empty)
      polys) :
    (∀ place, Invariant context (polys place)) ∧
      ∀ receiver source constant numElems,
        CopyFits context (polys source) constant numElems (polys receiver) →
        ∃ next, Call.perform context ⟨receiver, .copy source constant numElems⟩ polys = some next ∧
          Agrees context (polys source) (next receiver) ∧
          ∀ other, other ≠ receiver → next other = polys other := by
  have all : ∀ place, Kept context (polys place) :=
    run.invariant (fun state : Nat → RnsPoly Word => ∀ place, Kept context (state place))
      (fun _ => empty_kept)
      fun _ _ _ fits moves before => Call.moves_kept fits moves before
  refine ⟨fun place => (all place).invariant, ?_⟩
  intro receiver source constant numElems fits
  obtain ⟨after, ran, -, agrees⟩ := copy_agrees (all receiver) (all source) fits
  refine ⟨Function.update polys receiver after, ?_, ?_, ?_⟩
  · unfold Call.perform Operation.apply
    simp only [ran, Option.map_some]
  · rw [Function.update_self]
    exact agrees
  · intro other different
    exact Function.update_of_ne different after polys

/-- This context has two regular primes, two special primes and limbs of four words. -/
def smallContext : Context Nat where
  scheme :=
    { chain := [17, 97]
      special := [113, 193]
      distinct := by decide
      regularPrime := by decide
      specialPrime := by decide
      bounded := by decide }
  N := 4
  flexibleAutoExt := false
  memory := fun _ _ => 0

/-- The second polynomial has loaded two full rows. -/
def loadedPolys : Nat → RnsPoly Nat :=
  (Call.perform smallContext ⟨1, .load [[1, 2, 3, 4], [5, 6, 7, 8]] [17, 97]⟩
    fun _ => RnsPoly.empty).getD fun _ => RnsPoly.empty

theorem representation_kept_small : Invariant smallContext (loadedPolys 1) ∧
    ∃ next, Call.perform smallContext ⟨0, .copy 1 false none⟩ loadedPolys = some next ∧
      Agrees smallContext (loadedPolys 1) (next 0) := by
  have fits : Call.Fits smallContext ⟨1, .load [[1, 2, 3, 4], [5, 6, 7, 8]] [17, 97]⟩
      fun _ => RnsPoly.empty := by
    change LoadFits smallContext _ _ RnsPoly.empty
    exact ⟨fun _ => ⟨by decide, by decide⟩, by decide, by decide⟩
  have moves : Call.Moves smallContext ⟨1, .load [[1, 2, 3, 4], [5, 6, 7, 8]] [17, 97]⟩
      (fun _ => RnsPoly.empty) loadedPolys := rfl
  have kept := representation_kept (.next .start fits moves)
  obtain ⟨next, ran, agrees, -⟩ := kept.2 0 1 false none
    ⟨by decide, by decide, by decide, by decide⟩
  exact ⟨kept.1 1, next, ran, agrees⟩

/-- A polynomial with one short limb that copies one with two full limbs keeps the short limb, and
its new limb is full. -/
theorem copy_mixes_lengths : ∃ polys,
    [⟨0, .loadConstant [[1, 2]] [17] (some 1) true⟩,
      ⟨1, .load [[1, 2, 3, 4], [5, 6, 7, 8]] [17, 97]⟩, ⟨0, .copy 1 false (some 4)⟩].foldlM
        (fun polys call => Call.perform smallContext call polys)
        (fun _ => RnsPoly.empty) = some polys ∧
      (polys 0).regular.limb.map Limb.v = [[1, 2], [5, 6, 0, 0]] ∧
      ¬ Invariant smallContext (polys 0) ∧ ¬ Agrees smallContext (polys 1) (polys 0) := by
  refine ⟨_, rfl, rfl, ?_, ?_⟩
  · intro invariant
    obtain ⟨words, same⟩ := invariant.sameWords
    have short := same ⟨0, 0, [1, 2]⟩ (by decide)
    have full := same ⟨1, 1, [5, 6, 0, 0]⟩ (by decide)
    rw [← short] at full
    cases full
  · intro agrees
    have words := agrees.words (by decide)
    revert words
    decide

end Fideslib.Allocation

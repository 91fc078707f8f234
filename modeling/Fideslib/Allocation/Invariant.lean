/-
This file says what every polynomial keeps and which operations keep it.
-/

import Fideslib.Allocation.Polynomial

namespace Fideslib.Allocation

open Transfer.RnsPoly (limbsize)

variable {Word : Type} {context : Context Word}

namespace Context

theorem getLimbSize_le (context : Context Word) (level : Int) :
    context.getLimbSize level ≤ context.scheme.chain.length := by
  have shorter := (List.takeWhile_sublist (fun prime : Nat => decide ((prime : Int) ≤
    if level = context.L + 1 then level - 1 - if context.flexibleAutoExt then 1 else 0 else level))
    (l := List.range context.scheme.chain.length)).length_le
  rwa [List.length_range] at shorter

/-- Up to the end of the chain a level has one limb more than its number. -/
theorem getLimbSize_eq {level : Int} (within : level ≤ context.L) :
    context.getLimbSize level = (level + 1).toNat := by
  have places : ∀ count : Nat, ((List.range count).takeWhile fun prime : Nat =>
      decide ((prime : Int) ≤ level)).length = min count (level + 1).toNat := by
    intro count
    induction count with
    | zero => simp
    | succ count ih =>
        rw [List.range_succ, List.takeWhile_append, List.length_range, ih]
        by_cases all : min count (level + 1).toNat = count
        · rw [if_pos all]
          by_cases last : (count : Int) ≤ level
          · rw [List.length_append, List.length_range, List.takeWhile_cons_of_pos (by simpa using last)]
            simp only [List.takeWhile_nil, List.length_cons, List.length_nil]
            omega
          · rw [List.length_append, List.length_range, List.takeWhile_cons_of_neg (by simpa using last)]
            simp only [List.length_nil]
            omega
        · rw [if_neg all, ih]
          omega
  unfold L at within
  unfold getLimbSize L
  simp only [show level ≠ (context.scheme.chain.length : Int) - 1 + 1 by omega, if_false]
  rw [places]
  omega

end Context

namespace RnsPoly

/-- The limbs up to the level exist, belong to their primes and stand in the table, all limbs have
the same number of words, and an extended polynomial has all special limbs. -/
structure Invariant (context : Context Word) (poly : RnsPoly Word) : Prop where
  enough : poly.level + 1 ≤ poly.regular.limb.length
  primes : ∀ (place : Nat) limb, poly.regular.limb[place]? = some limb → limb.primeid = place
  table : ∀ (place : Nat) limb, poly.regular.limb[place]? = some limb →
    poly.regular.ptr place = some limb.buffer
  sameWords : ∃ words, ∀ limb ∈ poly.regular.limb ++ poly.special.limb, limb.v.length = words
  extended : poly.modUp = true → poly.special.limb.length = context.scheme.special.length

/-- This is what the steps keep: both banks are sound, there are all special limbs or none, and the
common buffers hold full limbs. -/
structure Kept (context : Context Word) (poly : RnsPoly Word) : Prop where
  enough : poly.level + 1 ≤ poly.regular.limb.length
  regular : poly.regular.Sound 0
  special : poly.special.Sound context.scheme.chain.length
  specials : poly.special.limb = [] ∨
    poly.special.limb.length = context.scheme.special.length
  sameWords : ∃ words, poly.regular.Words words ∧ poly.special.Words words
  extended : poly.modUp = true → poly.special.limb.length = context.scheme.special.length
  buffer : poly.bufferLimb = true →
    poly.regular.limb.length = context.scheme.chain.length ∧ poly.regular.Words context.N
  bufferSpecial : poly.bufferSpecial = true → poly.special.limb ≠ []
  within : poly.regular.limb.length ≤ context.scheme.chain.length

theorem Kept.invariant {poly : RnsPoly Word} (kept : Kept context poly) :
    Invariant context poly := by
  obtain ⟨words, regular, special⟩ := kept.sameWords
  refine ⟨kept.enough, ?_, kept.regular.table, ⟨words, ?_⟩, kept.extended⟩
  · intro place limb there
    rw [kept.regular.primes place limb there, Nat.zero_add]
  · intro limb member
    rcases List.mem_append.mp member with here | here
    · exact regular limb here
    · exact special limb here

/-- Any level whose limbs exist is fine. -/
theorem Kept.withLevel {poly : RnsPoly Word} (kept : Kept context poly) {level : Int}
    (enough : level + 1 ≤ poly.regular.limb.length) : Kept context { poly with level := level } :=
  ⟨enough, kept.regular, kept.special, kept.specials, kept.sameWords, kept.extended, kept.buffer,
    kept.bufferSpecial, kept.within⟩

theorem empty_kept : Kept context (empty : RnsPoly Word) where
  enough := by simp [empty]
  regular := Bank.empty_sound
  special := Bank.empty_sound
  specials := Or.inl rfl
  sameWords := ⟨0, by simp [empty, Bank.empty, Bank.Words], by simp [empty, Bank.empty, Bank.Words]⟩
  extended := by simp [empty]
  buffer := by simp [empty]
  bufferSpecial := by simp [empty]
  within := by simp [empty, Bank.empty]

/-- A polynomial grows within the chain, and its new limbs are as long as those that stay. -/
structure Grows (context : Context Word) (newLevel : Int) (singleMalloc constant : Bool)
    (words : Nat) (poly : RnsPoly Word) : Prop where
  within : newLevel ≤ context.L
  -- Limbs of a common buffer are all replaced, others stay before the new ones.
  same : if !constant && (poly.bufferLimb || singleMalloc && poly.regular.limb.isEmpty) then
      poly.special.Words context.N
    else poly.regular.limb.length ≤ newLevel →
      poly.regular.Words words ∧ poly.special.Words words

variable {poly after : RnsPoly Word} {newLevel : Int} {singleMalloc constant : Bool}
  {numElems : Option Nat}

/-- Growing is either nothing, an allocation after the limbs that stay, or a new common buffer. -/
theorem grow_cases (done : poly.grow context newLevel singleMalloc constant numElems = some after) :
    newLevel ≤ poly.level ∧ after = poly ∨
    poly.level < newLevel ∧
      (!constant && (poly.bufferLimb || singleMalloc && poly.regular.limb.isEmpty)) = false ∧
      after = { poly with
        level := newLevel
        bufferLimb := false
        regular := poly.regular.generate context 0 (context.getLimbSize newLevel)
          (numElems.getD context.N) } ∨
    poly.level < newLevel ∧
      (!constant && (poly.bufferLimb || singleMalloc && poly.regular.limb.isEmpty)) = true ∧
      numElems.getD context.N = context.N ∧
      after = { poly with
        level := newLevel
        bufferLimb := true
        regular := poly.regular.clear.generate context 0 context.scheme.chain.length
          context.N } := by
  unfold grow at done
  split at done
  case isTrue high =>
    cases done
    exact Or.inl ⟨high, rfl⟩
  case isFalse low =>
    right
    have level : poly.level < newLevel := by omega
    cases constant with
    | true =>
        left
        simp only [Bool.not_true, Bool.false_and, Bool.false_eq_true, if_false] at done
        unfold generateLimbConstant at done
        split at done
        case isFalse => cases done
        case isTrue =>
          cases done
          exact ⟨level, rfl, rfl⟩
    | false =>
        cases shared : poly.bufferLimb || singleMalloc && poly.regular.limb.isEmpty with
        | false =>
            left
            obtain ⟨separate, limbs⟩ := Bool.or_eq_false_iff.mp shared
            have first : (!false && (!singleMalloc || !poly.regular.limb.isEmpty) &&
                !poly.bufferLimb) = true := by
              rw [separate, ← Bool.not_and, limbs]
              rfl
            rw [if_pos first] at done
            cases done
            refine ⟨level, rfl, ?_⟩
            unfold generateLimbToLevel
            split_ifs with missing
            · rw [← separate]
            · rw [Bank.generate_eq_self (by simpa using missing), ← separate]
        | true =>
            right
            have second : ¬ (!false && (!singleMalloc || !poly.regular.limb.isEmpty) &&
                !poly.bufferLimb) = true := by
              rw [Bool.not_false, Bool.true_and, ← Bool.not_and, ← Bool.not_or, Bool.or_comm, shared]
              exact Bool.false_ne_true
            rw [if_neg second, Bool.not_false, if_pos rfl] at done
            split at done
            case isFalse => cases done
            case isTrue full =>
              unfold generateLimbSingleMalloc at done
              split at done
              case isFalse => cases done
              case isTrue =>
                cases done
                exact ⟨level, rfl, full, rfl⟩

/-- The special limbs, their buffer and the flag stay when a polynomial grows. -/
theorem grow_special
    (done : poly.grow context newLevel singleMalloc constant numElems = some after) :
    after.special = poly.special ∧ after.bufferSpecial = poly.bufferSpecial ∧
      after.modUp = poly.modUp ∧ after.level = max newLevel poly.level := by
  rcases grow_cases done with ⟨high, rfl⟩ | ⟨low, -, rfl⟩ | ⟨low, -, -, rfl⟩
  · exact ⟨rfl, rfl, rfl, (max_eq_right high).symm⟩
  · exact ⟨rfl, rfl, rfl, (max_eq_left low.le).symm⟩
  · exact ⟨rfl, rfl, rfl, (max_eq_left low.le).symm⟩

theorem grow_kept (kept : Kept context poly)
    (grows : poly.level < newLevel →
      Grows context newLevel singleMalloc constant (numElems.getD context.N) poly)
    (done : poly.grow context newLevel singleMalloc constant numElems = some after) :
    Kept context after := by
  rcases grow_cases done with ⟨-, rfl⟩ | ⟨low, separate, rfl⟩ | ⟨low, shared, full, rfl⟩
  · exact kept
  · have fits := grows low
    have within := fits.within
    have same := fits.same
    rw [separate, if_neg Bool.false_ne_true] at same
    have size := Context.getLimbSize_eq within
    have bound := context.getLimbSize_le newLevel
    have old := kept.within
    refine ⟨?_, Bank.generate_sound kept.regular, kept.special, kept.specials, ?_, kept.extended,
      fun impossible => absurd impossible Bool.false_ne_true, kept.bufferSpecial, ?_⟩
    · change newLevel + 1 ≤ ((Bank.generate context 0 _ _ poly.regular).limb.length : Int)
      rw [Bank.generate_length]
      omega
    · by_cases missing : (poly.regular.limb.length : Int) ≤ newLevel
      · exact ⟨_, Bank.generate_words (same missing).1, (same missing).2⟩
      · obtain ⟨words, regular, special⟩ := kept.sameWords
        refine ⟨words, ?_, special⟩
        change (Bank.generate context 0 _ _ poly.regular).Words words
        rw [Bank.generate_eq_self (by omega)]
        exact regular
    · change (Bank.generate context 0 _ _ poly.regular).limb.length ≤ _
      rw [Bank.generate_length]
      omega
  · have fits := grows low
    have same := fits.same
    rw [shared, if_pos rfl] at same
    have length : (poly.regular.clear.generate context 0 context.scheme.chain.length
        context.N).limb.length = context.scheme.chain.length := by
      rw [Bank.generate_length]
      simp
    have whole : (poly.regular.clear.generate context 0 context.scheme.chain.length
        context.N).Words context.N := Bank.generate_words (by simp [Bank.Words])
    refine ⟨?_, Bank.generate_sound Bank.clear_sound, kept.special, kept.specials,
      ⟨_, whole, same⟩, kept.extended, fun _ => ⟨length, whole⟩, kept.bufferSpecial, length.le⟩
    change newLevel + 1 ≤ (List.length _ : Int)
    rw [length]
    have within := fits.within
    unfold Context.L at within
    omega

/-- Without a single allocation the limbs do not become fewer. -/
theorem grow_length (kept : Kept context poly)
    (done : poly.grow context newLevel singleMalloc constant numElems = some after) :
    poly.regular.limb.length ≤ after.regular.limb.length := by
  have within := kept.within
  rcases grow_cases done with ⟨-, rfl⟩ | ⟨-, -, rfl⟩ | ⟨-, -, -, rfl⟩
  · exact le_rfl
  · rw [Bank.generate_length]
    exact le_max_right _ _
  · rw [Bank.generate_length]
    exact le_max_of_le_left within

/-- The limbs keep a common number of words when the missing ones are allocated with it. -/
theorem grow_words (kept : Kept context poly) {words : Nat} (same : poly.regular.Words words)
    (within : newLevel ≤ context.L)
    (added : poly.level < newLevel → poly.regular.limb.length ≤ newLevel →
      numElems.getD context.N = words)
    (done : poly.grow context newLevel false constant numElems = some after) :
    after.regular.Words words := by
  rcases grow_cases done with ⟨-, rfl⟩ | ⟨low, -, rfl⟩ | ⟨low, shared, full, rfl⟩
  · exact same
  · change (Bank.generate context 0 _ _ poly.regular).Words words
    by_cases missing : (poly.regular.limb.length : Int) ≤ newLevel
    · rw [added low missing]
      exact Bank.generate_words same
    · rw [Bank.generate_eq_self (by rw [Context.getLimbSize_eq within]; omega)]
      exact same
  · -- All limbs of a common buffer are there and full.
    have buffered : poly.bufferLimb = true := by simpa using (Bool.and_eq_true_iff.mp shared).2
    obtain ⟨length, whole⟩ := kept.buffer buffered
    have some_limb : 0 < poly.regular.limb.length := by
      rw [length]
      exact context.scheme.chain_length_pos
    have first := List.getElem_mem some_limb
    have size : words = context.N := (same _ first).symm.trans (whole _ first)
    rw [size]
    exact Bank.generate_words (by simp [Bank.Words])

/-- Growing and dropping to a level reaches it. -/
theorem levelled_level
    (done : poly.grow context newLevel singleMalloc constant numElems = some after) :
    (after.dropToLevel newLevel).level = newLevel := by
  have level := (grow_special done).2.2.2
  unfold dropToLevel
  split_ifs with lower
  · rfl
  · omega

@[simp]
theorem dropToLevel_banks (level : Int) : (poly.dropToLevel level).regular = poly.regular ∧
    (poly.dropToLevel level).special = poly.special ∧
    (poly.dropToLevel level).modUp = poly.modUp ∧
    (poly.dropToLevel level).bufferLimb = poly.bufferLimb ∧
    (poly.dropToLevel level).bufferSpecial = poly.bufferSpecial := by
  unfold dropToLevel
  split_ifs <;> exact ⟨rfl, rfl, rfl, rfl, rfl⟩

theorem dropToLevel_kept (kept : Kept context poly) (level : Int) :
    Kept context (poly.dropToLevel level) := by
  unfold dropToLevel
  split_ifs with lower
  · have enough := kept.enough
    exact kept.withLevel (by omega)
  · exact kept

theorem freeSpecialLimbs_kept (kept : Kept context poly) :
    Kept context poly.freeSpecialLimbs where
  enough := kept.enough
  regular := kept.regular
  special := Bank.clear_sound
  specials := Or.inl rfl
  sameWords := by
    obtain ⟨words, regular, -⟩ := kept.sameWords
    exact ⟨words, regular, by simp [freeSpecialLimbs, Bank.Words]⟩
  extended := fun impossible => absurd impossible Bool.false_ne_true
  buffer := kept.buffer
  bufferSpecial := fun impossible => absurd impossible Bool.false_ne_true
  within := kept.within

theorem freeGPU_kept (kept : Kept context poly) : Kept context poly.freeGPU where
  enough := by simp [freeGPU]
  regular := Bank.clear_sound
  special := kept.special
  specials := kept.specials
  sameWords := by
    obtain ⟨words, -, special⟩ := kept.sameWords
    exact ⟨words, by simp [freeGPU, Bank.Words], special⟩
  extended := kept.extended
  buffer := fun impossible => absurd impossible Bool.false_ne_true
  bufferSpecial := kept.bufferSpecial
  within := by simp [freeGPU]

/-- New special limbs of full length fit where the regular limbs are full. -/
theorem allocateSpecial_kept {forCommunication : Bool} (kept : Kept context poly)
    (full : poly.special.limb = [] → poly.regular.Words context.N)
    (done : allocateSpecial context forCommunication poly = some after) :
    Kept context after ∧ after.regular = poly.regular ∧ after.level = poly.level ∧
      after.modUp = poly.modUp ∧ after.special.limb.length = context.scheme.special.length := by
  have generated (none : poly.special.limb = []) :
      ∀ bufferSpecial, Kept context { poly with
        bufferSpecial := bufferSpecial
        special := poly.special.generate context context.scheme.chain.length
          context.scheme.special.length context.N } ∧
      (poly.special.generate context context.scheme.chain.length
        context.scheme.special.length context.N).limb.length = context.scheme.special.length := by
    intro bufferSpecial
    have length : (poly.special.generate context context.scheme.chain.length
        context.scheme.special.length context.N).limb.length =
        context.scheme.special.length := by
      rw [Bank.generate_length, none]
      simp
    have positive := context.scheme.special_length_pos
    refine ⟨⟨kept.enough, kept.regular, Bank.generate_sound kept.special, Or.inr length,
      ⟨context.N, full none, Bank.generate_words (by simp [Bank.Words, none])⟩, fun _ => length,
      kept.buffer, fun _ empty => ?_, kept.within⟩, length⟩
    change (Bank.generate context _ _ _ poly.special).limb = [] at empty
    rw [empty, List.length_nil] at length
    omega
  have present (some_limb : poly.special.limb ≠ []) :
      poly.special.limb.length = context.scheme.special.length := by
    rcases kept.specials with none | all
    · exact absurd none some_limb
    · exact all
  unfold allocateSpecial at done
  simp only at done
  split at done
  case isTrue =>
    split at done
    case isFalse => cases done
    case isTrue none =>
      cases done
      have fits := generated (List.isEmpty_iff.mp none) true
      exact ⟨fits.1, rfl, rfl, rfl, fits.2⟩
  case isFalse first =>
    split at done
    case isTrue second =>
      split at done
      case isTrue => cases done
      case isFalse =>
        cases done
        simp only [Bool.and_eq_true] at second
        have fits := generated (List.isEmpty_iff.mp second.2) poly.bufferSpecial
        exact ⟨fits.1, rfl, rfl, rfl, fits.2⟩
    case isFalse second =>
      cases done
      refine ⟨kept, rfl, rfl, rfl, present ?_⟩
      intro none
      cases forCommunication with
      | true =>
          have shared : poly.bufferSpecial = true := by simpa using first
          exact kept.bufferSpecial shared none
      | false => simp [none] at second

theorem Kept.rewritten (kept : Kept context poly) {regular special : Bank Word}
    (regularRewritten : Bank.Rewritten 0 poly.regular regular)
    (specialRewritten : Bank.Rewritten context.scheme.chain.length poly.special special) :
    Kept context { poly with regular := regular, special := special } where
  enough := by
    rw [regularRewritten.length]
    exact kept.enough
  regular := regularRewritten.sound kept.regular
  special := specialRewritten.sound kept.special
  specials := by
    rw [← List.length_eq_zero_iff, specialRewritten.length, List.length_eq_zero_iff]
    exact kept.specials
  sameWords := by
    obtain ⟨words, inRegular, inSpecial⟩ := kept.sameWords
    exact ⟨words, regularRewritten.words words inRegular, specialRewritten.words words inSpecial⟩
  extended := by
    rw [specialRewritten.length]
    exact kept.extended
  buffer := by
    intro shared
    rw [regularRewritten.length]
    exact ⟨(kept.buffer shared).1, regularRewritten.words _ (kept.buffer shared).2⟩
  bufferSpecial := by
    rw [Ne, ← List.length_eq_zero_iff, specialRewritten.length, List.length_eq_zero_iff]
    exact kept.bufferSpecial
  within := by
    rw [regularRewritten.length]
    exact kept.within

theorem limbsize_le (scheme : Transfer.Scheme) (moduli : List Nat) (count : Nat) :
    limbsize scheme moduli count ≤ scheme.chain.length := by
  have listed : ((List.range count).filter fun place =>
      place < scheme.chain.length ∧ moduli[place]? = scheme.chain[place]?) ⊆
      List.range scheme.chain.length := by
    intro place member
    have inside := of_decide_eq_true (List.mem_filter.mp member).2
    exact List.mem_range.mpr inside.1
  have distinct : ((List.range count).filter fun place =>
      place < scheme.chain.length ∧ moduli[place]? = scheme.chain[place]?).Nodup :=
    List.Nodup.filter _ List.nodup_range
  have bound := (List.subperm_of_subset distinct listed).length_le
  rwa [List.length_range] at bound

/-- A constant load fits when it grows as it should and new special limbs meet limbs of their own
length. -/
structure ConstantFits (context : Context Word) (count : Nat) (moduli : List Nat) (words : Nat)
    (poly : RnsPoly Word) : Prop where
  grows : poly.level < limbsize context.scheme moduli count - 1 →
    Grows context (limbsize context.scheme moduli count - 1) false true words poly
  special : limbsize context.scheme moduli count < count →
    poly.special.limb = [] → poly.regular.Words words

theorem loadSpecialRow_rewritten {modulus : Nat} {row : List Word} {special last : Bank Word}
    {first : Nat} (done : loadSpecialRow context modulus row special = some last) :
    Bank.Rewritten first special last := by
  unfold loadSpecialRow at done
  generalize List.range context.scheme.special.length = places at done
  induction places generalizing special with
  | nil =>
      cases done
      exact .refl
  | cons place rest ih =>
      rw [List.foldlM_cons] at done
      obtain ⟨next, now, later⟩ := Option.bind_eq_some_iff.mp done
      have tail := ih later
      split at now
      case isTrue => exact (Bank.loadConvert_rewritten now).trans tail
      case isFalse =>
        cases now
        exact tail

/-- Short special limbs fit where the regular limbs are as short. -/
theorem extendConstant_kept {more : Bool} {words : Nat} (kept : Kept context poly)
    (same : more = true → poly.special.limb = [] → poly.regular.Words words) :
    Kept context (extendConstant context more words poly) := by
  unfold extendConstant generatePartialSpecialLimbs
  split_ifs with wanted none
  · have empty := List.isEmpty_iff.mp none
    have length : (poly.special.generate context context.scheme.chain.length
        context.scheme.special.length words).limb.length = context.scheme.special.length := by
      rw [Bank.generate_length, empty]
      simp
    exact ⟨kept.enough, kept.regular, Bank.generate_sound kept.special, Or.inr length,
      ⟨words, same wanted empty, Bank.generate_words (by simp [Bank.Words, empty])⟩,
      fun _ => length, kept.buffer, fun shared => absurd empty (kept.bufferSpecial shared),
      kept.within⟩
  · have present : poly.special.limb.length = context.scheme.special.length := by
      rcases kept.specials with empty | all
      · exact absurd (List.isEmpty_iff.mpr empty) none
      · exact all
    exact ⟨kept.enough, kept.regular, kept.special, kept.specials, kept.sameWords,
      fun _ => present, kept.buffer, kept.bufferSpecial, kept.within⟩
  · exact kept

theorem loadConstant_kept {data : List (List Word)} {moduli : List Nat} {slots : Option Nat}
    {compress : Bool} (kept : Kept context poly)
    (fits : ConstantFits context data.length moduli (2 * slots.getD (context.N / 2)) poly)
    (done : poly.loadConstant context data moduli slots compress = some after) :
    Kept context after := by
  unfold loadConstant at done
  simp only [List.length_map] at done
  split at done
  case isFalse => cases done
  case isTrue =>
    obtain ⟨grown, grew, done⟩ := Option.bind_eq_some_iff.mp done
    have bound := limbsize_le context.scheme moduli data.length
    have level := levelled_level grew
    obtain ⟨special, -, -, -⟩ := grow_special grew
    have levelled := dropToLevel_kept (grow_kept kept fits.grows grew)
      (limbsize context.scheme moduli data.length - 1)
    obtain ⟨sameRegular, sameSpecial, -⟩ := @dropToLevel_banks _ grown
      (limbsize context.scheme moduli data.length - 1)
    split at done
    case isFalse => cases done
    case isTrue =>
      obtain ⟨regular, wrote, done⟩ := Option.bind_eq_some_iff.mp done
      obtain ⟨last, wroteSpecial, done⟩ := Option.bind_eq_some_iff.mp done
      cases done
      have rewritten : Bank.Rewritten 0 _ regular := Bank.loadRows_rewritten wrote
      have written := levelled.rewritten rewritten .refl
      have extended := @extendConstant_kept _ _ _ (decide (limbsize
        context.scheme moduli data.length < data.length)) _ written (by
          intro more none
          apply rewritten.words
          rw [sameRegular]
          have empty : poly.special.limb = [] := by
            rw [← special, ← sameSpecial]
            exact none
          exact grow_words kept (fits.special (of_decide_eq_true more) empty)
            (by unfold Context.L; omega) (fun _ _ => rfl) grew)
      exact extended.rewritten .refl (PartialLists.visitInOrder_keeps
        (Bank.Rewritten context.scheme.chain.length _) .refl
        (fun _ _ _ _ loaded before => before.trans (loadSpecialRow_rewritten loaded)) wroteSpecial)

variable [Zero Word]

/-- Clearing keeps the special limbs in place. -/
theorem zeroSpecial_kept (kept : Kept context poly)
    (done : zeroSpecial context poly = some after) :
    Kept context after ∧ after.regular = poly.regular ∧ after.level = poly.level ∧
      after.modUp = poly.modUp ∧ after.special.limb.length = poly.special.limb.length := by
  have mapped (change : List Word → List Word)
      (size : ∀ limb ∈ poly.special.limb, (change limb.v).length = limb.v.length) :
      Kept context { poly with special := poly.special.mapWords change } :=
    kept.rewritten .refl (Bank.mapWords_rewritten size)
  unfold zeroSpecial at done
  split at done
  case isTrue =>
    cases done
    exact ⟨mapped _ (by simp), rfl, rfl, rfl, List.length_map _⟩
  case isFalse =>
    split at done
    case isFalse => cases done
    case isTrue room =>
      cases done
      refine ⟨mapped _ ?_, rfl, rfl, rfl, List.length_map _⟩
      intro limb member
      have enough := of_decide_eq_true (List.all_eq_true.mp room limb member)
      rw [List.length_append, List.length_replicate, List.length_drop]
      omega

theorem generateSpecialLimb_kept {zeroOut forCommunication : Bool} (kept : Kept context poly)
    (full : poly.special.limb = [] → poly.regular.Words context.N)
    (done : generateSpecialLimb context zeroOut forCommunication poly = some after) :
    Kept context after ∧ after.regular = poly.regular ∧ after.level = poly.level ∧
      after.modUp = poly.modUp ∧ after.special.limb.length = context.scheme.special.length := by
  obtain ⟨generated, allocated, done⟩ := Option.bind_eq_some_iff.mp done
  obtain ⟨fits, regular, level, flag, count⟩ := allocateSpecial_kept kept full allocated
  split at done
  case isTrue =>
    obtain ⟨cleared, regular', level', flag', count'⟩ := zeroSpecial_kept fits done
    exact ⟨cleared, regular'.trans regular, level'.trans level, flag'.trans flag,
      count'.trans count⟩
  case isFalse =>
    cases done
    exact ⟨fits, regular, level, flag, count⟩

theorem generateSpecialLimbs_kept {zeroOut forCommunication : Bool} (kept : Kept context poly)
    (full : poly.special.limb = [] → poly.regular.Words context.N)
    (done : generateSpecialLimbs context zeroOut forCommunication poly = some after) :
    Kept context after ∧ after.regular = poly.regular ∧ after.level = poly.level ∧
      after.modUp = poly.modUp ∧ after.special.limb.length = context.scheme.special.length := by
  unfold generateSpecialLimbs at done
  split at done
  case isTrue => exact generateSpecialLimb_kept kept full done
  case isFalse present =>
    cases done
    refine ⟨kept, rfl, rfl, rfl, ?_⟩
    rcases kept.specials with none | all
    · simp [none] at present
    · exact all

/-- A load fits when it grows as it should, new special limbs meet full limbs, and a level that one
row more raises still has its limb. -/
structure LoadFits (context : Context Word) (data : List (List Word)) (moduli : List Nat)
    (poly : RnsPoly Word) : Prop where
  grows : poly.level < limbsize context.scheme moduli data.length - 1 →
    Grows context (limbsize context.scheme moduli data.length - 1) false false
      context.N poly
  special : limbsize context.scheme moduli data.length < data.length →
    poly.special.limb = [] → poly.regular.Words context.N
  one : data.length - limbsize context.scheme moduli data.length = 1 →
    limbsize context.scheme moduli data.length < poly.regular.limb.length

theorem load_kept {data : List (List Word)} {moduli : List Nat} (kept : Kept context poly)
    (fits : LoadFits context data moduli poly)
    (done : poly.load context data moduli = some after) : Kept context after := by
  obtain ⟨grown, grew, done⟩ := Option.bind_eq_some_iff.mp done
  have bound := limbsize_le context.scheme moduli data.length
  have room := grow_length kept grew
  have level := levelled_level grew
  obtain ⟨special, -, -, -⟩ := grow_special grew
  have levelled := dropToLevel_kept (grow_kept kept fits.grows grew)
    (limbsize context.scheme moduli data.length - 1)
  obtain ⟨sameRegular, sameSpecial, -⟩ := @dropToLevel_banks _ grown
    (limbsize context.scheme moduli data.length - 1)
  simp only at done
  split at done
  case isFalse => cases done
  case isTrue =>
    obtain ⟨regular, wrote, done⟩ := Option.bind_eq_some_iff.mp done
    obtain ⟨extended, ext, done⟩ := Option.bind_eq_some_iff.mp done
    split at done
    case isFalse => cases done
    case isTrue =>
      obtain ⟨last, wroteSpecial, done⟩ := Option.bind_eq_some_iff.mp done
      cases done
      have rewritten : Bank.Rewritten 0 _ regular := Bank.loadRows_rewritten wrote
      have written := levelled.rewritten rewritten .refl
      have length : poly.regular.limb.length ≤ regular.limb.length := by
        rw [rewritten.length, sameRegular]
        exact room
      have both : Kept context extended ∧ extended.regular = regular ∧
          extended.level = limbsize context.scheme moduli data.length - 1 := by
        unfold extendForRows at ext
        split at ext
        case isTrue more =>
          obtain ⟨full, regularSame, levelSame, -, -⟩ := generateSpecialLimbs_kept written (by
            intro none
            apply rewritten.words
            rw [sameRegular]
            have empty : poly.special.limb = [] := by
              rw [← special, ← sameSpecial]
              exact none
            exact grow_words kept (fits.special (of_decide_eq_true more) empty)
              (by unfold Context.L; omega) (fun _ _ => rfl) grew) ext
          exact ⟨full, regularSame, levelSame.trans level⟩
        case isFalse =>
          cases ext
          exact ⟨written, rfl, level⟩
      obtain ⟨full, regularSame, levelSame⟩ := both
      have rewrittenSpecial : Bank.Rewritten context.scheme.chain.length _ last :=
        Bank.loadRows_rewritten wroteSpecial
      have loaded := full.rewritten .refl rewrittenSpecial
      refine loaded.withLevel ?_
      change _ ≤ (extended.regular.limb.length : Int)
      split_ifs with alone
      · have further := fits.one alone
        rw [regularSame, levelSame]
        omega
      · exact full.enough

end RnsPoly

end Fideslib.Allocation

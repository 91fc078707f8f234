/-
This file proves when the fast rotations of a list agree with those of its single indices.
-/

import Fideslib.KeySwitch.FastRotationResults
import Fideslib.KeySwitch.HoistedBatchContract

namespace Fideslib.KeySwitch

open Constants (SetupConstants)
open LinearTransform (normalyzeIndex normalyzeIndex_eq_zero)

variable {Key Factor : Type} {raw : RawParams}

/-- This is the summand of the first component that the flag asks for. -/
def firstSummand (raw : RawParams) (ct : DeviceCiphertext Key Factor) (addFirst : Bool)
    (id idx : Nat) : ZMod (raw.prime id) :=
  if addFirst then ct.c0.scaled raw id idx else 0

/-- The first component of an extended result is the moved product with the key and the summand. -/
def FirstTerm (digits : Digits raw) (tables : ModUpTables)
    (rot_keys : Key → Nat → Option KeySwitchingKey) (ct : DeviceCiphertext Key Factor)
    (addFirst : Bool) (index : Int) (out : DeviceCiphertext Key Factor) : Prop :=
  if normalyzeIndex index ct.slots raw.N = 0 then
    ∀ id slot, raw.Live ct.c1.level id → slot < raw.N →
      (out.c0.word raw id slot : ZMod (raw.prime id)) = firstSummand raw ct addFirst id slot
  else
    ∀ key, keyOf rot_keys ct raw.N index = some key → ∀ inverse, Undoes raw key.2 inverse →
      ∀ id slot, raw.Live ct.c1.level id → slot < raw.N →
        (out.c0.word raw id slot : ZMod (raw.prime id)) =
          digits.dot ct.c1.level (digitsOf digits tables ct.c1) key.1.b id
            (automorph_slot raw.logN inverse slot) +
          firstSummand raw ct addFirst id (automorph_slot raw.logN inverse slot)

/-- The results of a list are those of its indices, in both bases and with the requested summand. -/
structure ListRight (digits : Digits raw) (tables : ModUpTables)
    (rot_keys : Key → Nat → Option KeySwitchingKey) (scratch : Scratch) (single : Nat → Scratch)
    (ct : DeviceCiphertext Key Factor) (indices : List Int) (addFirst : Bool) : Prop where
  regular : Option.Rel (List.Forall₂ (Same raw))
    (EvalFastRotationVector (SetupConstants raw) digits tables rot_keys scratch ct indices)
    (indices.zipIdx.mapM fun item => EvalFastRotation (SetupConstants raw) digits tables rot_keys
      (single item.2) ct item.1)
  extended : Option.Rel (List.Forall₂ (Same raw))
    (EvalFastRotationExtVector (SetupConstants raw) digits tables rot_keys scratch ct indices
      addFirst)
    (indices.zipIdx.mapM fun item => EvalFastRotationExt (SetupConstants raw) digits tables rot_keys
      (single item.2) ct item.1 addFirst)
  basis : ∀ outs, EvalFastRotationExtVector (SetupConstants raw) digits tables rot_keys scratch ct
    indices addFirst = some outs → ∀ out ∈ outs, ∀ component, (out.half component).modUp = true
  first : ∀ outs, EvalFastRotationExtVector (SetupConstants raw) digits tables rot_keys scratch ct
    indices addFirst = some outs →
      List.Forall₂ (FirstTerm digits tables rot_keys ct addFirst) indices outs

/-- A key of some proper index is missing, or all indices are proper, the operand is regular and the
scaled first component is requested or zero. -/
def ListServed (rot_keys : Key → Nat → Option KeySwitchingKey) (ct : DeviceCiphertext Key Factor)
    (raw : RawParams) (indices : List Int) (addFirst : Bool) : Prop :=
  (∃ index ∈ indices, ¬(ct.slots : Int) ∣ index ∧ keyOf rot_keys ct raw.N index = none) ∨
    (∀ index ∈ indices, ¬(ct.slots : Int) ∣ index) ∧
      (indices ≠ [] → ct.c1.modUp = false ∧ (addFirst = true ∨
        ∀ id idx, raw.Live ct.c1.level id → idx < raw.N → ct.c0.scaled raw id idx = 0))

section Agreement

variable (generated : raw.Generated) (narrow : raw.logN ≤ 30) {digits : Digits raw}
  {tables : ModUpTables} {rot_keys : Key → Nat → Option KeySwitchingKey}
  {ct : DeviceCiphertext Key Factor} (rotatable : ct.Rotatable raw)
  (keysReduced : ∀ r ksk, rot_keys ct.keyID r = some ksk →
    ∀ component, digits.Reduced ct.c1.level (ksk.half component))
  {scratch : Scratch} (ready : scratch.Ready raw ct.c1.level) {single : Nat → Scratch}
  (singleReady : ∀ i, (single i).Ready raw ct.c1.level) {indices : List Int}

include generated rotatable

/-- The first component of each rotation has the scaled operand as a summand. -/
theorem rotation_first {key : KeySwitchingKey × Nat} {out : DeviceCiphertext Key Factor}
    (rotation : Rotation digits tables ct key out) {inverse : Nat} (undoes : Undoes raw key.2 inverse)
    {id slot : Nat} (live : raw.Live ct.c1.level id) (inside : slot < raw.N) :
    (out.c0.word raw id slot : ZMod (raw.prime id)) =
      digits.dot ct.c1.level (digitsOf digits tables ct.c1) key.1.b id
        (automorph_slot raw.logN inverse slot) +
      ct.c0.scaled raw id (automorph_slot raw.logN inverse slot) := by
  have positive : NeZero (raw.prime id) :=
    ⟨(generated.modulus (live.inside rotatable.c1.level)).pos.ne'⟩
  have word : out.c0.word raw id slot = _ := rotation.word .c0 inverse undoes id slot live inside
  rw [word, ZMod.natCast_zmod_val]
  rfl

include narrow keysReduced ready singleReady

/-- The single calls return where all indices are proper and have keys. -/
theorem singles_agree (proper : ∀ index ∈ indices, normalyzeIndex index ct.slots raw.N ≠ 0)
    (operand : indices ≠ [] → ct.c1.modUp = false)
    (keys : ∀ index ∈ indices, normalyzeIndex index ct.slots raw.N ≠ 0 →
      (keyOf rot_keys ct raw.N index).isSome) (moddown : Bool) :
    Option.Rel (List.Forall₂ (Same raw))
      (evalVector (SetupConstants raw) digits tables rot_keys scratch ct indices (!moddown))
      (indices.zipIdx.mapM fun item => evalSingle (SetupConstants raw) digits tables rot_keys
        (single item.2) ct item.1 moddown) := by
  obtain ⟨outs, ran, related⟩ := evalVector_returns generated narrow rotatable keysReduced ready
    (!moddown) keys
  have each : ∀ item ∈ indices.zipIdx, ∃ out, evalSingle (SetupConstants raw) digits tables rot_keys
      (single item.2) ct item.1 moddown = some out ∧
        normalyzeIndex item.1 ct.slots raw.N ≠ 0 ∧ ∃ key, keyOf rot_keys ct raw.N item.1 = some key ∧
          Delivered digits tables ct key (!moddown) out := by
    intro item mem
    have listed := List.fst_mem_of_mem_zipIdx mem
    obtain ⟨key, found⟩ := Option.isSome_iff_exists.mp (keys _ listed (proper _ listed))
    obtain ⟨out, made, delivered⟩ := evalSingle_returns generated narrow rotatable keysReduced
      (singleReady item.2) moddown (proper _ listed) (operand (List.ne_nil_of_mem listed)) found
    exact ⟨out, made, proper _ listed, key, found, delivered⟩
  obtain ⟨others, ranEach, relatedEach⟩ := PartialLists.mapM_forall₂ each
  rw [ran, ranEach]
  apply Option.Rel.some
  have left : List.Forall₂ (fun item out => normalyzeIndex item.1 ct.slots raw.N ≠ 0 →
      ∃ key, keyOf rot_keys ct raw.N item.1 = some key ∧
        Delivered digits tables ct key (!moddown) out) indices.zipIdx outs := by
    rw [← List.zipIdx_map_fst 0 indices] at related
    exact List.forall₂_map_left_iff.mp related
  refine PartialLists.forall₂_of_common ?_ left relatedEach
  rintro item out other hoisted ⟨nontrivial, key, found, delivered⟩
  obtain ⟨own, ownFound, ownDelivered⟩ := hoisted nontrivial
  obtain rfl : own = key := Option.some.inj (ownFound.symm.trans found)
  exact ownDelivered.same generated rotatable delivered

omit singleReady in
/-- The extended results of proper indices have the first summand exactly for a set flag or a zero
summand. -/
theorem first_iff (proper : ∀ index ∈ indices, normalyzeIndex index ct.slots raw.N ≠ 0)
    (keys : ∀ index ∈ indices, normalyzeIndex index ct.slots raw.N ≠ 0 →
      (keyOf rot_keys ct raw.N index).isSome) (addFirst : Bool) (nonempty : indices ≠ [])
    {outs : List (DeviceCiphertext Key Factor)}
    (ran : evalVector (SetupConstants raw) digits tables rot_keys scratch ct indices true =
      some outs) :
    List.Forall₂ (FirstTerm digits tables rot_keys ct addFirst) indices outs ↔
      addFirst = true ∨
        ∀ id idx, raw.Live ct.c1.level id → idx < raw.N → ct.c0.scaled raw id idx = 0 := by
  obtain ⟨made, ran', related⟩ := evalVector_returns generated narrow rotatable keysReduced ready
    true keys
  obtain rfl : made = outs := Option.some.inj (ran'.symm.trans ran)
  constructor
  · intro first
    by_cases flag : addFirst = true
    · exact Or.inl flag
    · refine Or.inr fun id idx live inside => ?_
      obtain ⟨index, rest, rfl⟩ := List.exists_cons_of_ne_nil nonempty
      cases related with
      | cons now later =>
          cases first with
          | cons term terms =>
              have nontrivial := proper index List.mem_cons_self
              obtain ⟨key, found, made, aux, rotation, same⟩ := now nontrivial
              obtain rfl := Option.some.inj same
              obtain ⟨inverse, undoes⟩ := exists_undoes raw key.2
              have column := automorph_slot_inverse (show raw.logN ≤ 31 by omega)
                (automorph_index_odd key.2 raw.N) undoes.2 inside
              have target : automorph_slot raw.logN (automorph_index_precomp key.2 raw.N) idx <
                  raw.N := automorph_slot_lt (by omega) _ _
              have has := rotation_first generated rotatable rotation undoes live target
              rw [FirstTerm, if_neg nontrivial] at term
              rw [term key found inverse undoes id _ live target, column, firstSummand,
                if_neg flag] at has
              exact (add_left_cancel has).symm
  · intro summand
    have both := (List.forall₂_and_left _ _).mpr ⟨proper, related⟩
    refine both.imp ?_
    rintro index out ⟨nontrivial, delivers⟩
    obtain ⟨key, found, rotation, aux, rotated, same⟩ := delivers nontrivial
    obtain rfl := Option.some.inj same
    rw [FirstTerm, if_neg nontrivial]
    intro other otherFound inverse undoes id slot live inside
    obtain rfl : key = other := Option.some.inj (found.symm.trans otherFound)
    rw [rotation_first generated rotatable rotated undoes live inside, firstSummand]
    rcases summand with flag | zero
    · rw [if_pos flag]
    · have column : automorph_slot raw.logN inverse slot < raw.N := automorph_slot_lt (by omega) _ _
      rw [zero id _ live column]
      split_ifs <;> rfl

omit generated narrow keysReduced ready in
/-- A call that fails for one of the indices stops the single calls. -/
theorem singles_fail {index : Int} (mem : index ∈ indices) (moddown : Bool)
    (fails : normalyzeIndex index ct.slots raw.N = 0 ∨ ct.c1.modUp = true ∨
      keyOf rot_keys ct raw.N index = none) :
    indices.zipIdx.mapM (fun item => evalSingle (SetupConstants raw) digits tables rot_keys
      (single item.2) ct item.1 moddown) = none := by
  obtain ⟨place, inside⟩ := List.getElem?_of_mem mem
  have numbered : (index, place) ∈ indices.zipIdx := List.mem_zipIdx_iff_getElem?.mpr inside
  exact PartialLists.mapM_eq_none numbered
    (evalSingle_fails rotatable (singleReady place) moddown fails)

omit generated narrow keysReduced ready in
/-- A missing key stops the list and the single calls. -/
theorem listRight_missing {addFirst : Bool} {index : Int} (mem : index ∈ indices)
    (proper : normalyzeIndex index ct.slots raw.N ≠ 0)
    (missing : keyOf rot_keys ct raw.N index = none) :
    ListRight digits tables rot_keys scratch single ct indices addFirst := by
  have vector : ∀ ext, evalVector (SetupConstants raw) digits tables rot_keys scratch ct indices
      ext = none := fun ext => evalVector_fails rotatable scratch ext mem proper missing
  have singles : ∀ moddown, indices.zipIdx.mapM (fun item => evalSingle (SetupConstants raw) digits
      tables rot_keys (single item.2) ct item.1 moddown) = none := fun moddown =>
    singles_fail rotatable singleReady mem moddown (Or.inr (Or.inr missing))
  constructor
  · simp only [EvalFastRotationVector, EvalFastRotation, vector, singles]
    exact Option.Rel.none
  · simp only [EvalFastRotationExtVector, EvalFastRotationExt, vector, singles]
    exact Option.Rel.none
  · intro outs ran
    rw [EvalFastRotationExtVector, vector] at ran
    cases ran
  · intro outs ran
    rw [EvalFastRotationExtVector, vector] at ran
    cases ran

end Agreement

/-- The rotations of a list are right exactly when its operand and its indices are served. -/
theorem fastRotations_right_iff (generated : raw.Generated) (narrow : raw.logN ≤ 30)
    (digits : Digits raw) (tables : ModUpTables) (rot_keys : Key → Nat → Option KeySwitchingKey)
    (ct : DeviceCiphertext Key Factor) (rotatable : ct.Rotatable raw)
    (keysReduced : ∀ r ksk, rot_keys ct.keyID r = some ksk →
      ∀ component, digits.Reduced ct.c1.level (ksk.half component))
    (scratch : Scratch) (ready : scratch.Ready raw ct.c1.level) (single : Nat → Scratch)
    (singleReady : ∀ i, (single i).Ready raw ct.c1.level) (indices : List Int) (addFirst : Bool) :
    ListRight digits tables rot_keys scratch single ct indices addFirst ↔
      ListServed rot_keys ct raw indices addFirst := by
  have trivial_iff := normalyzeIndex_eq_zero rotatable.positive rotatable.divides
  by_cases missing : ∃ index ∈ indices, ¬(ct.slots : Int) ∣ index ∧
      keyOf rot_keys ct raw.N index = none
  · obtain ⟨index, mem, proper, none_⟩ := missing
    exact iff_of_true (listRight_missing rotatable singleReady mem
      (mt (trivial_iff index).mp proper) none_) (Or.inl ⟨index, mem, proper, none_⟩)
  have keys : ∀ index ∈ indices, normalyzeIndex index ct.slots raw.N ≠ 0 →
      (keyOf rot_keys ct raw.N index).isSome := by
    intro index mem proper
    rw [Option.isSome_iff_ne_none]
    exact fun none_ => missing ⟨index, mem, mt (trivial_iff index).mpr proper, none_⟩
  have vector : ∃ outs, evalVector (SetupConstants raw) digits tables rot_keys scratch ct indices
      true = some outs ∧ List.Forall₂ (fun index out => normalyzeIndex index ct.slots raw.N ≠ 0 →
        ∃ key, keyOf rot_keys ct raw.N index = some key ∧ Delivered digits tables ct key true out)
        indices outs :=
    evalVector_returns generated narrow rotatable keysReduced ready true keys
  obtain ⟨outs, ran, related⟩ := vector
  constructor
  · intro right
    -- A single call that fails contradicts the list, which returns.
    have returns : ∀ index ∈ indices, ¬(normalyzeIndex index ct.slots raw.N = 0 ∨
        ct.c1.modUp = true ∨ keyOf rot_keys ct raw.N index = none) := by
      intro index mem fails
      have agree := right.extended
      simp only [EvalFastRotationExtVector, EvalFastRotationExt, ran,
        singles_fail rotatable singleReady mem false fails] at agree
      cases agree
    have proper : ∀ index ∈ indices, normalyzeIndex index ct.slots raw.N ≠ 0 :=
      fun index mem trivial_ => returns index mem (Or.inl trivial_)
    refine Or.inr ⟨fun index mem divides => proper index mem ((trivial_iff index).mpr divides), ?_⟩
    intro nonempty
    obtain ⟨index, mem⟩ := List.exists_mem_of_ne_nil indices nonempty
    refine ⟨Bool.eq_false_iff.mpr fun extended => returns index mem (Or.inr (Or.inl extended)), ?_⟩
    exact (first_iff generated narrow rotatable keysReduced ready proper keys addFirst nonempty
      ran).mp (right.first outs ran)
  · rintro (absent | ⟨proper, served⟩)
    · exact absurd absent missing
    have nontrivial : ∀ index ∈ indices, normalyzeIndex index ct.slots raw.N ≠ 0 :=
      fun index mem trivial_ => proper index mem ((trivial_iff index).mp trivial_)
    constructor
    · exact singles_agree generated narrow rotatable keysReduced ready singleReady nontrivial
        (fun nonempty => (served nonempty).1) keys true
    · exact singles_agree generated narrow rotatable keysReduced ready singleReady nontrivial
        (fun nonempty => (served nonempty).1) keys false
    · intro made ran' out mem component
      obtain rfl : outs = made := Option.some.inj (ran.symm.trans ran')
      have both := (List.forall₂_and_left _ _).mpr ⟨nontrivial, related⟩
      have extended : List.Forall₂ (fun out (_ : Int) => (∀ component,
          (DeviceCiphertext.half out component).modUp = true) ∧ True) outs indices := by
        refine both.flip.imp ?_
        rintro out index ⟨own, delivers⟩
        obtain ⟨key, -, made, aux, rotation, same⟩ := delivers own
        obtain rfl := Option.some.inj same
        exact ⟨fun component => (rotation.extended component).1, trivial⟩
      exact ((List.forall₂_and_left _ _).mp extended).1 out mem component
    · intro made ran'
      obtain rfl : outs = made := Option.some.inj (ran.symm.trans ran')
      by_cases empty : indices = []
      · subst empty
        cases related
        exact List.Forall₂.nil
      · exact (first_iff generated narrow rotatable keysReduced ready nontrivial keys addFirst empty
          ran).mpr (served empty).2

def flatCiphertext : DeviceCiphertext String Nat where
  c0 := flatPoly
  c1 := flatPoly
  slots := 64
  keyID := "key"
  NoiseLevel := 1
  NoiseFactor := 1

theorem flatCiphertext_rotatable : flatCiphertext.Rotatable smallParams where
  c0 := flatPoly_canonical
  c1 := flatPoly_canonical
  level := rfl
  positive := by decide
  divides := by decide

def flatScratch : Scratch where
  around := flatSurroundings
  keySwitchAux := flatPoly
  GATHERlimb := fun _ _ => 0
  DIGITlimb := fun _ _ _ => 0
  auxilarPoly := fun _ _ => flatPoly

theorem flatScratch_ready : flatScratch.Ready smallParams 0 where
  fused := flatSurroundings_complete.fused
  aux2 := Or.inr rfl
  auxilarPoly := fun _ _ => Or.inr rfl

/-- A list that names one proper rotation twice is right. -/
theorem fastRotations_right_twice :
    ListRight smallDigits smallTables (fun _ _ => some flatKey) flatScratch (fun _ => flatScratch)
      flatCiphertext [1, 1] true := by
  apply (fastRotations_right_iff smallParams_generated (show smallParams.logN ≤ 30 by decide)
    smallDigits smallTables (fun _ _ => some flatKey) flatCiphertext flatCiphertext_rotatable
    (fun r ksk same => by
      obtain rfl := Option.some.inj same
      exact flatKey_reduced)
    flatScratch flatScratch_ready (fun _ => flatScratch) (fun _ => flatScratch_ready) [1, 1]
    true).mpr
  exact Or.inr ⟨by decide, fun _ => ⟨rfl, Or.inl rfl⟩⟩

/-- The extended rotation by the index zero in a list stays in the regular basis. -/
theorem fastRotations_zero_regular :
    ¬ListRight smallDigits smallTables (fun _ _ => some flatKey) flatScratch (fun _ => flatScratch)
      flatCiphertext [0] true := by
  intro right
  have basis := right.basis [flatCiphertext.copy (SetupConstants smallParams) fun _ => flatPoly] rfl _
    List.mem_cons_self .c0
  exact Bool.false_ne_true basis

end Fideslib.KeySwitch

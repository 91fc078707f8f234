/-
This file settles when the in-place and mutable calls agree with the calls they stand for.
-/

import Fideslib.Api.InPlace

namespace Fideslib.Api

open Fideslib.CKKS

/-- Each call of the interface that comes in a second form, with the handles of its operands. -/
inductive Call (F : Type) where
  | negate (ct : Nat)
  | add (ct1 ct2 : Nat)
  | addPlaintext (ct pt : Nat)
  | addScalar (ct : Nat) (scalar : F)
  | addMutable (ct1 ct2 : Nat)
  | addMutableInPlace (ct1 ct2 : Nat)
  | addPlaintextMutable (ct pt : Nat)
  | addMany (ciphertexts : List (Option Nat))
  | sub (ct1 ct2 : Nat)
  | subScalar (ct : Nat) (scalar : F)
  | scalarSub (scalar : F) (ct : Nat)
  | subMutable (ct1 ct2 : Nat)
  | subMutableInPlace (ct1 ct2 : Nat)
  | subPlaintextMutable (ct pt : Nat)
  | plaintextSubMutable (pt ct : Nat)
  | multPlaintext (ct pt : Nat)
  | multScalar (ct : Nat) (scalar : F)
  | multMutable (ct1 ct2 : Nat)
  | multMutableInPlace (ct1 ct2 : Nat)
  | multPlaintextMutable (ct pt : Nat)
  | square (ct : Nat)
  | squareMutable (ct : Nat)
  | rotate (ct : Nat) (index : Int)
  | chebyshevSeries (ct : Nat) (coeffs : List F) (a b : F)
  | rescale (ct : Nat)
  | bootstrap (ct numIterations precision : Nat) (prescaled : Bool)

namespace Call

/-- For these calls the condition is exact. For the other two it is enough, and past it the forms still
agree on some operands. -/
def isDecided {F : Type} : Call F → Bool
  | addMany .. | multPlaintextMutable .. => false
  | _ => true

def isMutable {F : Type} : Call F → Bool
  | addMutable .. | addMutableInPlace .. | addPlaintextMutable .. | subMutable ..
  | subMutableInPlace .. | subPlaintextMutable .. | plaintextSubMutable .. | multMutable ..
  | multMutableInPlace .. | multPlaintextMutable .. | squareMutable .. => true
  | _ => false

def ciphertexts {F : Type} : Call F → List Nat
  | addMany ciphertexts => ciphertexts.reduceOption
  | add ct1 ct2 | addMutable ct1 ct2 | addMutableInPlace ct1 ct2 | sub ct1 ct2
  | subMutable ct1 ct2 | subMutableInPlace ct1 ct2 | multMutable ct1 ct2
  | multMutableInPlace ct1 ct2 => [ct1, ct2]
  | negate ct | addPlaintext ct _ | addScalar ct _ | addPlaintextMutable ct _ | subScalar ct _
  | scalarSub _ ct | subPlaintextMutable ct _ | plaintextSubMutable _ ct | multPlaintext ct _
  | multScalar ct _ | multPlaintextMutable ct _ | square ct | squareMutable ct | rotate ct _
  | chebyshevSeries ct _ _ _ | rescale ct | bootstrap ct _ _ _ => [ct]

def plaintexts {F : Type} : Call F → List Nat
  | addPlaintext _ pt | addPlaintextMutable _ pt | subPlaintextMutable _ pt
  | plaintextSubMutable pt _ | multPlaintext _ pt | multPlaintextMutable _ pt => [pt]
  | _ => []

variable {F : Type} [Mul F] [Div F] [One F] [Neg F] {cc : ContextData F}

/-- The form that returns a fresh ciphertext. -/
def outOfPlace (context : DeviceContext cc) (device : Device cc) :
    Call F → Except Failure (Nat × Device cc)
  | negate ct => DeviceContext.evalNegate device ct
  | add ct1 ct2 | addMutable ct1 ct2 | addMutableInPlace ct1 ct2 => context.evalAdd device ct1 ct2
  | addPlaintext ct pt | addPlaintextMutable ct pt => context.evalAddPlaintext device ct pt
  | addScalar ct scalar => context.evalAddScalar device ct scalar
  | addMany ciphertexts => context.evalAddMany device ciphertexts
  | sub ct1 ct2 | subMutable ct1 ct2 | subMutableInPlace ct1 ct2 => context.evalSub device ct1 ct2
  | subScalar ct scalar => context.evalSubScalar device ct scalar
  | scalarSub scalar ct => context.evalScalarSub device scalar ct
  | subPlaintextMutable ct pt => context.evalSubPlaintext device ct pt
  | plaintextSubMutable pt ct => context.evalPlaintextSub device pt ct
  | multPlaintext ct pt | multPlaintextMutable ct pt => context.evalMultPlaintext device ct pt
  | multScalar ct scalar => DeviceContext.evalMultScalar device ct scalar
  | multMutable ct1 ct2 | multMutableInPlace ct1 ct2 => context.evalMult device ct1 ct2
  | square ct | squareMutable ct => context.evalSquare device ct
  | rotate ct index => context.evalRotate device ct index
  | chebyshevSeries ct coeffs a b => context.evalChebyshevSeriesOn device ct coeffs a b
  | rescale ct => DeviceContext.rescale device ct
  | bootstrap ct numIterations precision prescaled =>
      context.evalBootstrap device ct numIterations precision prescaled

/-- This is the receiver of the sum: the object that slot 0 holds afterwards. -/
def slotZero (outcome : Except Failure (List (Option Nat) × Device cc)) :
    Except Failure (Nat × Device cc) := do
  match ← outcome with
  | (some receiver :: _, after) => return (receiver, after)
  | _ => .error .exhausted

/-- The in-place or mutable form, with the handle of its receiver. -/
def inPlace (context : DeviceContext cc) (device : Device cc) :
    Call F → Except Failure (Nat × Device cc)
  | negate ct => attach ct (DeviceContext.evalNegateInPlace device ct)
  | add ct1 ct2 => attach ct1 (context.evalAddInPlace device ct1 ct2)
  | addPlaintext ct pt => attach ct (context.evalAddPlaintextInPlace device ct pt)
  | addScalar ct scalar => attach ct (context.evalAddScalarInPlace device ct scalar)
  | addMutable ct1 ct2 => context.evalAddMutable device ct1 ct2
  | addMutableInPlace ct1 ct2 => attach ct1 (context.evalAddMutableInPlace device ct1 ct2)
  | addPlaintextMutable ct pt => context.evalAddPlaintextMutable device ct pt
  | addMany ciphertexts => slotZero (context.evalAddManyInPlace device ciphertexts)
  | sub ct1 ct2 => attach ct1 (context.evalSubInPlace device ct1 ct2)
  | subScalar ct scalar => attach ct (context.evalSubScalarInPlace device ct scalar)
  | scalarSub scalar ct => attach ct (context.evalScalarSubInPlace device scalar ct)
  | subMutable ct1 ct2 => context.evalSubMutable device ct1 ct2
  | subMutableInPlace ct1 ct2 => attach ct1 (context.evalSubMutableInPlace device ct1 ct2)
  | subPlaintextMutable ct pt => context.evalSubPlaintextMutable device ct pt
  | plaintextSubMutable pt ct => context.evalPlaintextSubMutable device pt ct
  | multPlaintext ct pt => attach ct (context.evalMultPlaintextInPlace device ct pt)
  | multScalar ct scalar => attach ct (DeviceContext.evalMultScalarInPlace device ct scalar)
  | multMutable ct1 ct2 => context.evalMultMutable device ct1 ct2
  | multMutableInPlace ct1 ct2 => attach ct1 (context.evalMultMutableInPlace device ct1 ct2)
  | multPlaintextMutable ct pt => context.evalMultPlaintextMutable device ct pt
  | square ct => attach ct (context.evalSquareInPlace device ct)
  | squareMutable ct => context.evalSquareMutable device ct
  | rotate ct index => attach ct (context.evalRotateInPlace device ct index)
  | chebyshevSeries ct coeffs a b =>
      attach ct (context.evalChebyshevSeriesInPlace device ct coeffs a b)
  | rescale ct => attach ct (DeviceContext.rescaleInPlace device ct)
  | bootstrap ct numIterations precision prescaled =>
      attach ct (context.evalBootstrapInPlace device ct numIterations precision prescaled)

/-- The operands of a call are live objects on the modulus chain. -/
structure Valid (call : Call F) (device : Device cc) : Prop where
  live : ∀ ct ∈ call.ciphertexts, ct < device.next
  ciphertext : ∀ ct ∈ call.ciphertexts, (device.ciphertext ct).Valid
  plaintext : ∀ pt ∈ call.plaintexts, Ciphertext.ValidPlaintext (device.plaintext pt)

/-- Four calls need a condition to agree with the form they stand for. -/
def Meets (context : DeviceContext cc) (device : Device cc) : Call F → Prop
  | rescale _ => cc.rescaleTechnique = .fixedManual
  | addMany ciphertexts =>
      ∀ first second rest, ciphertexts.reduceOption = first :: second :: rest → first ∉ rest
  | multMutableInPlace ct1 ct2 =>
      ct1 = ct2 → cc.rescaleTechnique.isAutomatic → (device.ciphertext ct1).NoiseLevel = 2 →
        context.keys (device.ciphertext ct1).keyID = none
  | multPlaintextMutable ct _ =>
      cc.rescaleTechnique.isAutomatic → (device.ciphertext ct).NoiseLevel ≠ 2
  | _ => True

def Matches (context : DeviceContext cc) (device : Device cc) (call : Call F) : Prop :=
  FormsMatch device call.isMutable (call.outOfPlace context device) (call.inPlace context device)

end Call

variable {F : Type} [Mul F] [Div F] [One F] [Neg F] {cc : ContextData F}
variable {context : DeviceContext cc} {device : Device cc}

namespace DeviceContext

omit [Neg F] in
/-- Both operands of a sum may be one object, because the aliased sum is the sum. -/
theorem add_eq_modify (context : DeviceContext cc) (device : Device cc) (receiver b : Nat) :
    context.add device receiver b =
      Device.modify (fun value => value.add context.calls (device.ciphertext b)) device receiver :=
  Device.combine_eq_modify (Ciphertext.addSelf_eq_add context.calls) device receiver b

omit [Neg F] in
theorem sub_eq_modify (context : DeviceContext cc) (device : Device cc) (receiver b : Nat) :
    context.sub device receiver b =
      Device.modify (fun value => value.sub context.calls (device.ciphertext b)) device receiver :=
  Device.combine_eq_modify (Ciphertext.subSelf_eq_sub context.calls) device receiver b

end DeviceContext

omit [Mul F] [Div F] [One F] [Neg F] in
theorem Unchanged.trans {first second : Device cc} {receiver : Nat}
    (past : Unchanged device first receiver) (step : Unchanged first second receiver) :
    Unchanged device second receiver where
  ciphertext := fun other distinct =>
    (step.ciphertext other distinct).trans (past.ciphertext other distinct)
  plaintext := step.plaintext.trans past.plaintext

omit [Neg F] in
/-- The accumulation in a receiver adds the entries as they were before it started, as long as
the receiver is none of them. -/
theorem accumulate_value {receiver : Nat} (entries : List Nat) (original current : Device cc)
    (apart : receiver ∉ entries)
    (kept : ∀ other, other ≠ receiver → current.ciphertext other = original.ciphertext other) :
    (fun after => after.ciphertext receiver) <$>
        entries.foldlM (fun current ct => context.evalAddInPlace current receiver ct) current =
      entries.foldlM (fun value ct => value.add context.calls (original.ciphertext ct))
        (current.ciphertext receiver) := by
  induction entries generalizing current with
  | nil => rfl
  | cons ct rest ih =>
      have distinct : receiver ≠ ct := List.ne_of_not_mem_cons apart
      have apartRest : receiver ∉ rest := List.not_mem_of_not_mem_cons apart
      have operand := kept ct (Ne.symm distinct)
      rw [List.foldlM_cons, List.foldlM_cons, DeviceContext.evalAddInPlace,
        DeviceContext.add_eq_modify, operand]
      cases summed : (current.ciphertext receiver).add context.calls (original.ciphertext ct) with
      | error failure => simp [Device.modify, summed]
      | ok value =>
          have later : ∀ other, other ≠ receiver →
              (current.storeCiphertext receiver value).ciphertext other =
                original.ciphertext other := by
            intro other different
            rw [Device.storeCiphertext_other different, kept other different]
          have tail := ih (current.storeCiphertext receiver value) apartRest later
          rw [Device.storeCiphertext_ciphertext] at tail
          simpa [Device.modify, summed] using tail

omit [Neg F] in
theorem accumulate_unchanged {receiver : Nat} (entries : List Nat) (current after : Device cc)
    (done : entries.foldlM (fun current ct => context.evalAddInPlace current receiver ct) current =
      .ok after) : Unchanged current after receiver := by
  induction entries generalizing current with
  | nil =>
      have same : current = after := Except.ok.inj done
      exact same ▸ ⟨fun _ _ => rfl, rfl⟩
  | cons ct rest ih =>
      rw [List.foldlM_cons] at done
      cases summed : context.evalAddInPlace current receiver ct with
      | error failure => simp [summed] at done
      | ok middle =>
          simp only [summed, ok_bind] at done
          rw [DeviceContext.evalAddInPlace, DeviceContext.add_eq_modify] at summed
          exact (Device.modify_unchanged summed).trans (ih middle done)

omit [Mul F] [Div F] [One F] [Neg F] in
/-- Slot 0 names the object that accumulated the sum. -/
theorem slotZero_eq_attach (first : Nat) (tail : List (Option Nat))
    (outcome : Except Failure (Device cc)) :
    Call.slotZero (do return (some first :: tail, ← outcome)) = attach first outcome := by
  cases outcome <;> rfl

omit [Neg F] in
/-- The in-place sum reads each later entry as it was before the call. -/
theorem accumulate_first (first second : Nat) (rest : List Nat) (apart : first ∉ rest) :
    (fun after => after.ciphertext first) <$>
        (second :: rest).foldlM (fun current ct => context.evalAddInPlace current first ct) device =
      (do let value ← (device.ciphertext first).add context.calls (device.ciphertext second)
          rest.foldlM (fun value ct => value.add context.calls (device.ciphertext ct)) value) := by
  rw [List.foldlM_cons, DeviceContext.evalAddInPlace, DeviceContext.add_eq_modify]
  cases summed : (device.ciphertext first).add context.calls (device.ciphertext second) with
  | error failure => simp [Device.modify, summed]
  | ok value =>
      have tail := @accumulate_value _ _ _ _ _ context first rest device
        (device.storeCiphertext first value) apart
        fun other distinct => Device.storeCiphertext_other distinct value
      rw [Device.storeCiphertext_ciphertext] at tail
      simpa [Device.modify, summed] using tail

omit [Neg F] in
/-- The fresh sum of two live ciphertexts stands at the next handle. -/
theorem evalAdd_eq {ct1 ct2 : Nat} (live : ct2 < device.next) :
    context.evalAdd device ct1 ct2 = do
      let value ← (device.ciphertext ct1).add context.calls (device.ciphertext ct2)
      return (device.next, (device.copyDeviceCiphertext ct1).2.storeCiphertext device.next value) := by
  have operand := (Device.copyDeviceCiphertext_unchanged device ct1).ciphertext ct2 live.ne
  change (do return (device.next, ← context.add (device.copyDeviceCiphertext ct1).2 device.next ct2)) = _
  rw [DeviceContext.add_eq_modify, operand]
  cases summed : (device.ciphertext ct1).add context.calls (device.ciphertext ct2) with
  | error failure => simp [Device.modify, summed]
  | ok value => simp [Device.modify, summed]

omit [Neg F] in
theorem attach_accumulate_unchanged (first : Nat) (others : List Nat) {receiver : Nat}
    {after : Device cc}
    (done : attach first (others.foldlM
      (fun current ct => context.evalAddInPlace current first ct) device) = .ok (receiver, after)) :
    Unchanged device after receiver := by
  cases summed : others.foldlM (fun current ct => context.evalAddInPlace current first ct) device
    with
  | error failure => simp [attach, summed] at done
  | ok result =>
      obtain ⟨rfl, rfl⟩ : first = receiver ∧ result = after := by simpa [attach, summed] using done
      exact accumulate_unchanged others device result summed

omit [Neg F] in
/-- Two accumulations agree when the receiver is not read again. -/
theorem accumulate_matches (first second : Nat) (rest : List Nat) (live : second < device.next)
    (fresh : device.next ∉ rest) (apart : first ∉ rest) :
    FormsMatch device false
      (do let (result, summed) ← context.evalAdd device first second
          return (result, ← rest.foldlM
            (fun current ct => context.evalAddInPlace current result ct) summed))
      (attach first ((second :: rest).foldlM
        (fun current ct => context.evalAddInPlace current first ct) device)) := by
  have operands := @attach_accumulate_unchanged _ _ _ _ _ context device first (second :: rest)
  have inPlace := @accumulate_first _ _ _ _ _ context device first second rest apart
  rw [evalAdd_eq live]
  cases summed : (device.ciphertext first).add context.calls (device.ciphertext second) with
  | error failure =>
      rw [summed] at inPlace
      refine ⟨SameValue.of_eq ?_, by simp, fun _ _ _ done => operands done⟩
      rw [read_attach, inPlace]
      rfl
  | ok value =>
      let started := (device.copyDeviceCiphertext first).2.storeCiphertext device.next value
      have copied := Device.copyDeviceCiphertext_unchanged device first
      have written : Unchanged device started device.next :=
        copied.trans ⟨fun _ distinct => Device.storeCiphertext_other distinct value, rfl⟩
      have outOfPlace := @accumulate_value _ _ _ _ _ context device.next rest device started fresh
        written.ciphertext
      have start : started.ciphertext device.next = value := Device.storeCiphertext_ciphertext _ _ _
      rw [summed, ok_bind, ← start, ← outOfPlace] at inPlace
      refine ⟨SameValue.of_eq ?_, ?_, fun _ _ _ done => operands done⟩
      · rw [read_attach, inPlace, ← read_attach]
        rfl
      · intro receiver after done
        have total : attach device.next (rest.foldlM
            (fun current ct => context.evalAddInPlace current device.next ct) started) =
              .ok (receiver, after) := done
        have same : device.next = receiver := by
          cases reached : rest.foldlM
              (fun current ct => context.evalAddInPlace current device.next ct) started with
          | error failure => simp [attach, reached] at total
          | ok result =>
              rw [reached] at total
              exact congrArg Prod.fst (Except.ok.inj total)
        have later := attach_accumulate_unchanged device.next rest total
        subst same
        exact ⟨rfl, written.trans later⟩

omit [Neg F] in
/-- A sum of many ciphertexts agrees with its in-place form unless a later entry repeats the
receiver. -/
theorem addMany_matches (ciphertexts : List (Option Nat))
    (live : ∀ ct ∈ ciphertexts.reduceOption, ct < device.next)
    (apart : ∀ first second rest, ciphertexts.reduceOption = first :: second :: rest →
      first ∉ rest) :
    FormsMatch device false (context.evalAddMany device ciphertexts)
      (Call.slotZero (context.evalAddManyInPlace device ciphertexts)) := by
  by_cases empty : ciphertexts.isEmpty
  · rw [DeviceContext.evalAddMany, DeviceContext.evalAddManyInPlace, if_pos empty, if_pos empty]
    exact ⟨SameValue.errors _ _, by simp, by simp [Call.slotZero]⟩
  · rw [DeviceContext.evalAddMany, DeviceContext.evalAddManyInPlace, if_neg empty, if_neg empty]
    cases entries : ciphertexts.reduceOption with
    | nil => exact ⟨SameValue.errors _ _, by simp, by simp [Call.slotZero]⟩
    | cons first others =>
        simp only [slotZero_eq_attach]
        cases others with
        | nil =>
            have copied : read (Except.ok (device.copyDeviceCiphertext first)) =
                Except.ok (device.ciphertext first) :=
              congrArg Except.ok (Device.copyDeviceCiphertext_fresh device first)
            refine ⟨SameValue.of_eq copied, ?_, fun _ _ _ done =>
              attach_accumulate_unchanged first [] done⟩
            intro receiver after done
            obtain ⟨rfl, rfl⟩ := Prod.mk.inj (Except.ok.inj done)
            exact ⟨rfl, Device.copyDeviceCiphertext_unchanged device first⟩
        | cons second rest =>
            have secondLive : second < device.next := live second (by simp [entries])
            have fresh : device.next ∉ rest := fun member =>
              absurd (live device.next (by simp [entries, member])) (lt_irrefl device.next)
            exact accumulate_matches first second rest secondLive fresh
              (apart first second rest entries)

section Operands

variable {ct1 ct2 ct pt : Nat}

omit [Neg F] in
theorem add_onCopy (context : DeviceContext cc) (live : ct2 < device.next) :
    context.add (device.copyDeviceCiphertext ct1).2 device.next ct2 =
      Device.modify (fun value => value.add context.calls (device.ciphertext ct2))
        (device.copyDeviceCiphertext ct1).2 device.next := by
  rw [DeviceContext.add_eq_modify,
    (Device.copyDeviceCiphertext_unchanged device ct1).ciphertext ct2 live.ne]

omit [Neg F] in
theorem sub_onCopy (context : DeviceContext cc) (live : ct2 < device.next) :
    context.sub (device.copyDeviceCiphertext ct1).2 device.next ct2 =
      Device.modify (fun value => value.sub context.calls (device.ciphertext ct2))
        (device.copyDeviceCiphertext ct1).2 device.next := by
  rw [DeviceContext.sub_eq_modify,
    (Device.copyDeviceCiphertext_unchanged device ct1).ciphertext ct2 live.ne]

omit [Neg F] in
theorem mult_onCopy (context : DeviceContext cc) (live : ct2 < device.next) :
    context.mult (device.copyDeviceCiphertext ct1).2 device.next ct2 =
      Device.modify (fun value => Ciphertext.mult context.keys context.calls value
        (device.ciphertext ct2) false) (device.copyDeviceCiphertext ct1).2 device.next := by
  rw [DeviceContext.mult, Device.combine, if_neg live.ne',
    (Device.copyDeviceCiphertext_unchanged device ct1).ciphertext ct2 live.ne]

omit [Mul F] [Div F] [One F] [Neg F] in
/-- A mutable call on a fresh copy agrees with the plain call. -/
theorem mutable_matches (operate : Device cc → Nat → Except Failure (Device cc))
    (plain : Ciphertext cc → Ciphertext cc → Except Failure (Ciphertext cc))
    {aliased : Ciphertext cc → Except Failure (Ciphertext cc)}
    {apart : Ciphertext cc → Ciphertext cc → Except Failure (Ciphertext cc × Ciphertext cc)}
    (operated : operate (device.copyDeviceCiphertext ct1).2 device.next =
      Device.modify (fun value => plain value (device.ciphertext ct2))
        (device.copyDeviceCiphertext ct1).2 device.next)
    (live : ct2 < device.next)
    (value : Prod.fst <$> apart (device.ciphertext ct1) (device.ciphertext ct2) =
      plain (device.ciphertext ct1) (device.ciphertext ct2)) :
    FormsMatch device true (DeviceContext.onCopy device operate ct1)
      (DeviceContext.onCopy device
        (fun copied result => copied.combineMutable aliased apart result ct2) ct1) := by
  apply formsMatch_of_value operate operated
  apply SameValue.of_eq
  -- The receiver is fresh, so the operands are never aliased.
  rw [read_onCopy, Device.combineMutable_value, if_neg live.ne', Device.copyDeviceCiphertext_fresh,
    (Device.copyDeviceCiphertext_unchanged device ct1).ciphertext ct2 live.ne, value]

omit [Mul F] [Div F] [One F] [Neg F] in
/-- A mutable call in place agrees with the plain call if it does so on equal operands. -/
theorem mutableInPlace_matches (operate : Device cc → Nat → Except Failure (Device cc))
    (plain : Ciphertext cc → Ciphertext cc → Except Failure (Ciphertext cc))
    (aliased : Ciphertext cc → Except Failure (Ciphertext cc))
    (apart : Ciphertext cc → Ciphertext cc → Except Failure (Ciphertext cc × Ciphertext cc))
    (operated : operate (device.copyDeviceCiphertext ct1).2 device.next =
      Device.modify (fun value => plain value (device.ciphertext ct2))
        (device.copyDeviceCiphertext ct1).2 device.next)
    (equal : ct1 = ct2 → SameValue (aliased (device.ciphertext ct1))
      (plain (device.ciphertext ct1) (device.ciphertext ct1)))
    (value : Prod.fst <$> apart (device.ciphertext ct1) (device.ciphertext ct2) =
      plain (device.ciphertext ct1) (device.ciphertext ct2)) :
    FormsMatch device true (DeviceContext.onCopy device operate ct1)
      (attach ct1 (device.combineMutable aliased apart ct1 ct2)) := by
  apply formsMatch_of_value operate operated
  rw [read_attach, Device.combineMutable_value]
  by_cases same : ct1 = ct2
  · subst same
    rw [if_pos rfl]
    exact (equal rfl).symm
  · rw [if_neg same]
    exact SameValue.of_eq value.symm

omit [Mul F] [Div F] [One F] [Neg F] in
/-- A mutable call with a plaintext agrees with the plain call. -/
theorem mutablePt_matches {plain : Ciphertext cc → Plaintext cc → Except Failure (Ciphertext cc)}
    {change : Ciphertext cc → Plaintext cc → Except Failure (Ciphertext cc × Plaintext cc)}
    (value : SameValue (Prod.fst <$> change (device.ciphertext ct) (device.plaintext pt))
      (plain (device.ciphertext ct) (device.plaintext pt))) :
    FormsMatch device true
      (DeviceContext.onCopy device (fun copied result => copied.combinePt plain result pt) ct)
      (DeviceContext.onCopy device
        (fun copied result => copied.combinePtMutable change result pt) ct) := by
  apply formsMatch_of_value (fun copied result => copied.combinePt plain result pt) rfl
  rw [read_onCopy, Device.combinePtMutable_value, Device.copyDeviceCiphertext_fresh,
    Device.copyDeviceCiphertext_plaintext]
  exact value.symm

end Operands

omit [Mul F] [Div F] [One F] [Neg F] in
/-- A check of the bootstrap mode fails for every caller or for none. -/
theorem bootstrapChecked_sameValue (context : DeviceContext cc) (who other : String)
    (numIterations precision : Nat) (prescaled : Bool) (value : Ciphertext cc) :
    SameValue (context.bootstrapChecked who numIterations precision prescaled value)
      (context.bootstrapChecked other numIterations precision prescaled value) := by
  intro result
  rw [DeviceContext.bootstrapChecked, DeviceContext.bootstrapChecked,
    DeviceContext.checkBootstrapMode, DeviceContext.checkBootstrapMode]
  cases context.bootstrap_mode value.slots with
  | none => simp
  | some mode => cases mode <;> simp

omit [Mul F] [Div F] [One F] [Neg F] in
/-- The second operand of a valid call is live, and both are ready to be combined in place. -/
theorem Call.Valid.operands {call : Call F} (valid : call.Valid device) {ct1 ct2 : Nat}
    (operands : call.ciphertexts = [ct1, ct2]) : ct2 < device.next ∧
      Ciphertext.Ready (device.ciphertext ct1) (device.ciphertext ct2) := by
  have live := valid.live ct2
  have first := valid.ciphertext ct1
  have second := valid.ciphertext ct2
  rw [operands] at live first second
  exact ⟨live (by simp), fun _ => ⟨first (by simp), second (by simp)⟩⟩

omit [Mul F] [Div F] [One F] [Neg F] in
theorem Call.Valid.readyPt {call : Call F} (valid : call.Valid device) {ct pt : Nat}
    (ciphertext : call.ciphertexts = [ct]) (plaintext : call.plaintexts = [pt]) :
    Ciphertext.ReadyPt (device.ciphertext ct) (device.plaintext pt) := by
  have first := valid.ciphertext ct
  have second := valid.plaintext pt
  rw [ciphertext] at first
  rw [plaintext] at second
  exact fun _ => ⟨first (by simp), second (by simp)⟩

/-- A call that meets its condition agrees with the form it stands for. -/
theorem matches_of_meets (context : DeviceContext cc) (enough : 2 ≤ context.calls)
    (device : Device cc) (call : Call F) (valid : call.Valid device) (meets : call.Meets context device) :
    call.Matches context device := by
  have same : ∀ outcome : Except Failure (Ciphertext cc), SameValue outcome outcome :=
    fun _ => SameValue.of_eq rfl
  cases call with
  | negate ct => exact formsMatch_of_modify _ rfl rfl (same _) false
  | add ct1 ct2 =>
      have operand := (valid.operands rfl).1
      exact formsMatch_of_modify (fun copied result => context.add copied result ct2)
        (add_onCopy context operand) (DeviceContext.add_eq_modify context device ct1 ct2) (same _)
        false
  | addPlaintext ct pt => exact formsMatch_of_modify _ rfl rfl (same _) false
  | addScalar ct scalar => exact formsMatch_of_modify _ rfl rfl (same _) false
  | addMutable ct1 ct2 =>
      obtain ⟨operand, ready⟩ := valid.operands rfl
      exact mutable_matches (fun copied result => context.add copied result ct2) _
        (add_onCopy context operand) operand
        (Ciphertext.addMutable_value ready enough)
  | addMutableInPlace ct1 ct2 =>
      obtain ⟨operand, ready⟩ := valid.operands rfl
      exact mutableInPlace_matches (fun copied result => context.add copied result ct2) _ _ _
        (add_onCopy context operand)
        (fun _ => SameValue.of_eq (Ciphertext.addMutableSelf_eq_add enough _))
        (Ciphertext.addMutable_value ready enough)
  | addPlaintextMutable ct pt =>
      exact mutablePt_matches (Ciphertext.addPtMutable_value (valid.readyPt rfl rfl) enough)
  | addMany ciphertexts => exact addMany_matches ciphertexts valid.live meets
  | sub ct1 ct2 =>
      have operand := (valid.operands rfl).1
      exact formsMatch_of_modify (fun copied result => context.sub copied result ct2)
        (sub_onCopy context operand) (DeviceContext.sub_eq_modify context device ct1 ct2) (same _)
        false
  | subScalar ct scalar => exact formsMatch_of_modify _ rfl rfl (same _) false
  | scalarSub scalar ct => exact formsMatch_of_modify _ rfl rfl (same _) false
  | subMutable ct1 ct2 =>
      obtain ⟨operand, ready⟩ := valid.operands rfl
      exact mutable_matches (fun copied result => context.sub copied result ct2) _
        (sub_onCopy context operand) operand
        (Ciphertext.subMutable_value ready enough)
  | subMutableInPlace ct1 ct2 =>
      obtain ⟨operand, ready⟩ := valid.operands rfl
      exact mutableInPlace_matches (fun copied result => context.sub copied result ct2) _ _ _
        (sub_onCopy context operand)
        (fun _ => SameValue.of_eq (Ciphertext.subMutableSelf_eq_sub enough _))
        (Ciphertext.subMutable_value ready enough)
  | subPlaintextMutable ct pt =>
      exact mutablePt_matches (Ciphertext.subPtMutable_value (valid.readyPt rfl rfl) enough)
  | plaintextSubMutable pt ct =>
      exact formsMatch_self (fun copied result => copied.combinePt
        (fun value operand => Ciphertext.addPt context.calls value.negate operand) result pt) rfl
  | multPlaintext ct pt => exact formsMatch_of_modify _ rfl rfl (same _) false
  | multScalar ct scalar => exact formsMatch_of_modify _ rfl rfl (same _) false
  | multMutable ct1 ct2 =>
      obtain ⟨operand, ready⟩ := valid.operands rfl
      exact mutable_matches (fun copied result => context.mult copied result ct2)
        (fun value other => Ciphertext.mult context.keys context.calls value other false)
        (mult_onCopy context operand) operand
        (Ciphertext.multMutable_value context.keys ready enough false)
  | multMutableInPlace ct1 ct2 =>
      obtain ⟨operand, ready⟩ := valid.operands rfl
      exact mutableInPlace_matches (fun copied result => context.mult copied result ct2)
        (fun value other => Ciphertext.mult context.keys context.calls value other false)
        (fun value => Ciphertext.multMutableSelf context.keys context.calls value false)
        (fun value other => Ciphertext.multMutable context.keys context.calls value other false)
        (mult_onCopy context operand)
        (fun equal => (Ciphertext.multMutableSelf_sameValue_iff context.keys enough _).mpr
          (meets equal))
        (Ciphertext.multMutable_value context.keys ready enough false)
  | multPlaintextMutable ct pt =>
      exact mutablePt_matches (Ciphertext.multPtMutable_value (valid.readyPt rfl rfl) meets enough)
  | square ct => exact formsMatch_of_modify _ rfl rfl (same _) false
  | squareMutable ct => exact formsMatch_self _ rfl
  | rotate ct index => exact formsMatch_of_modify _ rfl rfl (same _) false
  | chebyshevSeries ct coeffs a b => exact formsMatch_of_modify _ rfl rfl (same _) false
  | rescale ct =>
      have manual : (device.ciphertext ct).rescale = (device.ciphertext ct).rescaleInternal :=
        if_neg (not_not_intro meets)
      have outcome : (Except.ok (device.ciphertext ct).rescale : Except Failure (Ciphertext cc)) =
          .ok (device.ciphertext ct).rescaleInternal := congrArg Except.ok manual
      exact @formsMatch_of_modify _ _ device ct (fun value => .ok value.rescale)
        (fun value => .ok value.rescaleInternal) (Device.modify fun value => .ok value.rescale) _
        rfl rfl (SameValue.of_eq outcome) false
  | bootstrap ct numIterations precision prescaled =>
      exact formsMatch_of_modify _ rfl rfl
        (bootstrapChecked_sameValue context _ _ numIterations precision prescaled _) false

/-- A rescale in place changes the degree, whatever the technique is. -/
theorem rescale_meets {ct : Nat} (same : (Call.rescale ct : Call F).Matches context device) :
    cc.rescaleTechnique = .fixedManual := by
  have value := same.value
  change SameValue (read (DeviceContext.rescale device ct))
    (read (attach ct (DeviceContext.rescaleInPlace device ct))) at value
  rw [DeviceContext.rescale, DeviceContext.rescaleInPlace, read_onCopy, read_attach,
    Device.modify_value, Device.modify_value, Device.copyDeviceCiphertext_fresh] at value
  have equal := Except.ok.inj ((value (device.ciphertext ct).rescale).mp rfl)
  by_contra automatic
  rw [Ciphertext.rescale, if_pos automatic] at equal
  have degree : (device.ciphertext ct).NoiseLevel - 1 = (device.ciphertext ct).NoiseLevel :=
    congrArg Ciphertext.NoiseLevel equal
  omega

theorem multMutableInPlace_meets {ct : Nat} (enough : 2 ≤ context.calls) (live : ct < device.next)
    (same : (Call.multMutableInPlace ct ct : Call F).Matches context device) :
    cc.rescaleTechnique.isAutomatic → (device.ciphertext ct).NoiseLevel = 2 →
      context.keys (device.ciphertext ct).keyID = none := by
  have value := same.value
  change SameValue (read (context.evalMult device ct ct))
    (read (attach ct (context.evalMultMutableInPlace device ct ct))) at value
  rw [DeviceContext.evalMult, DeviceContext.evalMultMutableInPlace, DeviceContext.multMutable,
    read_onCopy, mult_onCopy context live, Device.modify_value, Device.copyDeviceCiphertext_fresh,
    read_attach, Device.combineMutable_value, if_pos rfl] at value
  exact (Ciphertext.multMutableSelf_sameValue_iff context.keys enough _).mp value.symm

/-- This is the contract of every in-place and mutable call, for operands on the chain. -/
theorem in_place_contract (context : DeviceContext cc) (enough : 2 ≤ context.calls)
    (device : Device cc) (call : Call F) (valid : call.Valid device) :
    (call.Meets context device → call.Matches context device) ∧
      (call.isDecided → call.Matches context device → call.Meets context device) := by
  refine ⟨matches_of_meets context enough device call valid, ?_⟩
  intro decided same
  cases call with
  | rescale ct => exact rescale_meets same
  | multMutableInPlace ct1 ct2 =>
      intro equal
      subst equal
      exact multMutableInPlace_meets enough (valid.live ct1 (by simp [Call.ciphertexts])) same
  | addMany ciphertexts => cases decided
  | multPlaintextMutable ct pt => cases decided
  | _ => trivial

/-- This context has a chain of four levels and keeps no evaluation key. -/
def sampleData (rescaleTechnique : RescaleTechnique) : ContextData Int where
  rescaleTechnique := rescaleTechnique
  L := 3
  N := 1
  prime := fun _ => 5
  prime_odd := fun _ => rfl
  point := fun _ _ => 1
  specialPrimeFactor := 5
  ScalingFactorReal := fun _ => 5
  ScalingFactorRealBig := fun _ => 25
  ModReduceFactor := fun _ => 5
  ElemForEvalMult := fun _ _ _ => 5
  asserts := true

def sampleContext (rescaleTechnique : RescaleTechnique) : DeviceContext (sampleData rescaleTechnique)
    where
  calls := 2
  keys := fun _ => none
  bootstrap_mode := fun _ => none
  addScalar := fun _ value => .ok value
  rotate := fun _ value => .ok value
  evalChebyshevSeries := fun _ _ _ value => .ok value
  Bootstrap := fun _ _ _ _ value => .ok value

/-- The handle of each ciphertext on this device is the constant it encrypts. -/
def sampleDevice (rescaleTechnique : RescaleTechnique) : Device (sampleData rescaleTechnique) where
  ciphertext := fun handle =>
    { c0 := ⟨3, fun _ _ => handle⟩
      c1 := ⟨3, fun _ _ => 0⟩
      sameLevel := rfl
      NoiseLevel := 2
      NoiseFactor := 25
      slots := 1
      keyID := "owner" }
  plaintext := fun _ => ⟨⟨3, fun _ _ => 0⟩, 1, 5, 1⟩
  next := 3

theorem in_place_contract_sampleDevice :
    ((Call.addMany [none, some 1, some 2, none, some 2] : Call Int).Meets
        (sampleContext .flexibleAuto) (sampleDevice .flexibleAuto) →
      (Call.addMany [none, some 1, some 2, none, some 2] : Call Int).Matches
        (sampleContext .flexibleAuto) (sampleDevice .flexibleAuto)) ∧
      ((Call.addMany [none, some 1, some 2, none, some 2] : Call Int).isDecided →
        (Call.addMany [none, some 1, some 2, none, some 2] : Call Int).Matches
          (sampleContext .flexibleAuto) (sampleDevice .flexibleAuto) →
        (Call.addMany [none, some 1, some 2, none, some 2] : Call Int).Meets
          (sampleContext .flexibleAuto) (sampleDevice .flexibleAuto)) :=
  in_place_contract (sampleContext .flexibleAuto) (le_refl 2) (sampleDevice .flexibleAuto)
    (.addMany [none, some 1, some 2, none, some 2])
    { live := by decide
      ciphertext := fun _ _ =>
        ⟨show (0 : Int) ≤ 3 by decide, show (3 : Int) ≤ 3 by decide, fun _ => Or.inr rfl⟩
      plaintext := by simp [Call.plaintexts] }

/-- A rescale in place drops a level under the flexible technique, the other form does not. -/
theorem rescaleInPlace_differs :
    (do let (result, after) ← DeviceContext.rescale (sampleDevice .flexibleAuto) 1
        return (after.ciphertext result).getLevel) = .ok 3 ∧
      (do let after ← DeviceContext.rescaleInPlace (sampleDevice .flexibleAuto) 1
          return (after.ciphertext 1).getLevel) = .ok 2 ∧
      ¬(Call.rescale 1 : Call Int).Matches (sampleContext .flexibleAuto)
        (sampleDevice .flexibleAuto) := by
  refine ⟨rfl, rfl, fun same => ?_⟩
  cases rescale_meets same

end Fideslib.Api

/-
This file proves that an operation computes what it computes from fresh uploads.
-/

import Fideslib.Transparency.Operands

namespace Fideslib.Transparency

open Fideslib.CKKS Fideslib.Residency ThrowingCalls

variable {F : Type} {HostCiphertext : Type} {cc : ContextData F}
  {functions : Functions HostCiphertext cc}
  {machine after : Machine HostCiphertext cc} {reference : Reference HostCiphertext cc}
  {devices : List Nat}

section Adjusts

variable [Mul F] [Div F] [One F]

/-- A mutable sum changes its plaintext when the ciphertext cannot be adjusted to it and it can be
adjusted to the ciphertext. -/
def AdjustsInSum (self : Ciphertext cc) (b : Plaintext cc) : Prop :=
  cc.rescaleTechnique.isAutomatic = true ∧
    ∃ adjusted b_, (self.stepDownTo b).adjustCiphertextToPlaintext b = .ok (adjusted, false) ∧
      b.adjustPlaintextToCiphertext adjusted = .ok (b_, true)

/-- A mutable product also changes a plaintext of degree two. -/
def AdjustsInProduct (self : Ciphertext cc) (b : Plaintext cc) : Prop :=
  cc.rescaleTechnique.isAutomatic = true ∧
    ∃ adjusted ok b_, self.reduceDegree.adjustCiphertextToPlaintext b = .ok (adjusted, ok) ∧
      (ok = false ∨ b.NoiseLevel ≠ 1) ∧ b.adjustPlaintextToCiphertext adjusted = .ok (b_, true)

def Operation.Adjusts : Operation cc → Ciphertext cc → Plaintext cc → Prop
  | .evalAddMutable | .evalSubMutable => AdjustsInSum
  | .evalMultMutable => AdjustsInProduct
  | _ => fun _ _ => False

theorem withBothAdjustedPt_keeps {op : String}
    {operate : Ciphertext cc → Plaintext cc → Except Failure (Ciphertext cc)}
    {self value : Ciphertext cc} {b b_ : Plaintext cc} (still : ¬AdjustsInSum self b)
    (done : Ciphertext.withBothAdjustedPt op operate self b = .ok (value, b_)) : b_ = b := by
  rw [Ciphertext.withBothAdjustedPt] at done
  split at done
  case isTrue automatic =>
    obtain ⟨⟨adjusted, ok⟩, adjusts, rest⟩ := bind_eq_ok.mp done
    cases ok with
    | true =>
        obtain ⟨_, _, finishes⟩ := bind_eq_ok.mp rest
        obtain ⟨_, _, returned⟩ := bind_eq_ok.mp finishes
        cases returned
        rfl
    | false =>
        obtain ⟨⟨moved, succeeded⟩, adjustsToo, ends⟩ := bind_eq_ok.mp rest
        cases succeeded with
        | true => exact absurd ⟨automatic, adjusted, moved, adjusts, adjustsToo⟩ still
        | false => cases ends
  case isFalse =>
    obtain ⟨_, _, finishes⟩ := bind_eq_ok.mp done
    obtain ⟨_, _, returned⟩ := bind_eq_ok.mp finishes
    cases returned
    rfl

theorem multPtMutable_keeps {calls : Nat} {self value : Ciphertext cc} {b b_ : Plaintext cc}
    (still : ¬AdjustsInProduct self b)
    (done : Ciphertext.multPtMutable calls self b = .ok (value, b_)) : b_ = b := by
  cases calls with
  | zero => cases done
  | succ calls =>
      rw [Ciphertext.multPtMutable] at done
      split at done
      case isTrue automatic =>
        obtain ⟨⟨adjusted, ok⟩, adjusts, rest⟩ := bind_eq_ok.mp done
        dsimp only at rest
        split at rest
        case isTrue needed =>
          obtain ⟨⟨moved, succeeded⟩, adjustsToo, ends⟩ := bind_eq_ok.mp rest
          cases succeeded with
          | true => exact absurd ⟨automatic, adjusted, ok, moved, adjusts, needed, adjustsToo⟩ still
          | false => cases ends
        case isFalse =>
          obtain ⟨_, _, second⟩ := bind_eq_ok.mp rest
          obtain ⟨_, _, third⟩ := bind_eq_ok.mp second
          obtain ⟨_, _, returned⟩ := bind_eq_ok.mp third
          cases returned
          rfl
      case isFalse =>
        obtain ⟨_, _, second⟩ := bind_eq_ok.mp done
        obtain ⟨_, _, third⟩ := bind_eq_ok.mp second
        obtain ⟨_, _, returned⟩ := bind_eq_ok.mp third
        cases returned
        rfl

omit [Mul F] [Div F] [One F] in
theorem readOne_silent
    {operate : Ciphertext cc → Plaintext cc → Except Failure (Ciphertext cc)}
    {self value : Ciphertext cc} {operands : List (Plaintext cc)} {b_ : Plaintext cc} :
    readOne operate self operands ≠ .ok (value, some b_) := by
  intro done
  unfold readOne at done
  split at done
  case h_1 b =>
    cases outcome : operate self b with
    | ok result =>
        rw [outcome] at done
        cases done
    | error failure =>
        rw [outcome] at done
        cases done
  case h_2 => cases done

omit [Mul F] [Div F] [One F] in
theorem changeOne_keeps
    {operate : Ciphertext cc → Plaintext cc → Except Failure (Ciphertext cc × Plaintext cc)}
    {self value : Ciphertext cc} {b b_ : Plaintext cc}
    (keeps : ∀ result changed, operate self b = .ok (result, changed) → changed = b)
    (done : changeOne operate self [b] = .ok (value, some b_)) : b_ = b := by
  unfold changeOne at done
  dsimp only at done
  cases outcome : operate self b with
  | ok result =>
      rw [outcome] at done
      cases done
      exact keeps _ _ outcome
  | error failure =>
      rw [outcome] at done
      cases done

/-- An operation that does not adjust its plaintext returns it unchanged. -/
theorem Operation.onDevice_keeps (operation : Operation cc) {calls : Nat}
    {self value : Ciphertext cc} {b b_ : Plaintext cc} (still : ¬operation.Adjusts self b)
    (done : operation.onDevice calls self [b] = .ok (value, some b_)) : b_ = b := by
  cases operation with
  | evalAdd | evalSub | evalPlaintextSub | evalMult =>
      unfold Operation.onDevice at done
      exact (readOne_silent done).elim
  | evalAddMutable =>
      apply changeOne_keeps _ done
      intro result changed summed
      cases calls with
      | zero => cases summed
      | succ calls => exact withBothAdjustedPt_keeps still summed
  | evalSubMutable =>
      apply changeOne_keeps _ done
      intro result changed summed
      cases calls with
      | zero => cases summed
      | succ calls => exact withBothAdjustedPt_keeps still summed
  | evalMultMutable =>
      apply changeOne_keeps _ done
      intro result changed multiplied
      exact multPtMutable_keeps still multiplied
  | convolutionTransform kernel =>
      change (kernel.run self [b]).map (fun result => (result, none)) = _ at done
      cases outcome : kernel.run self [b] with
      | ok result =>
          rw [outcome] at done
          cases done
      | error failure =>
          rw [outcome] at done
          cases done

end Adjusts

/-- The receiver is loaded on both sides. -/
theorem loadCiphertext_simulates (held : HeldTracks functions devices machine reference)
    (name : Name) :
    Simulates (HeldTracks functions devices) (loadCiphertext functions name)
      (Reference.loadCiphertext functions name) machine reference := by
  obtain ⟨⟨fresh, rfl⟩, holds, same⟩ := held
  have held : HeldTracks functions devices machine machine.reference := ⟨⟨fresh, rfl⟩, holds, same⟩
  unfold loadCiphertext Reference.loadCiphertext
  apply Simulates.reads
  have known : machine.reference.ciphertexts name = machine.ciphertexts name := rfl
  rw [known]
  cases machine.ciphertexts name with
  | none => exact .throws _ held
  | some ct =>
      dsimp only
      cases ct.gpu with
      | some device => exact .returns _ held
      | none =>
          dsimp only
          have ready : machine.reference.loaded = machine.loaded := rfl
          rw [ready]
          split
          case isTrue =>
            have registers := (registerDeviceCiphertext_hidden held).bind
              fun _ _ _ _ _ related => (setCiphertext_simulates related name
                { ct with gpu := some (functions.upload ct.cpu) }).bind
                fun _ _ _ _ _ ended => Simulates.returns
                  ({ ct with gpu := some (functions.upload ct.cpu) }, functions.upload ct.cpu) ended
            exact registers
          case isFalse => exact .throws _ held

/-- A load of the receiver keeps the plaintexts and returns the device ciphertext. -/
theorem loadCiphertext_returns {name : Name}
    {result : CiphertextImpl HostCiphertext cc × Ciphertext cc}
    (done : (loadCiphertext functions name).run machine = .ok result after) :
    after.plaintextSide = machine.plaintextSide ∧ ∃ receiver,
      machine.ciphertexts name = some receiver ∧
        result.2 = receiver.gpu.getD (functions.upload receiver.cpu) := by
  unfold loadCiphertext at done
  rw [EStateM.run_bind, EStateM.run_get] at done
  dsimp only at done
  cases live : machine.ciphertexts name with
  | none =>
      rw [live] at done
      cases done
  | some ct =>
      rw [live] at done
      dsimp only at done
      cases loaded : ct.gpu with
      | some device =>
          rw [loaded] at done
          cases done
          exact ⟨rfl, ct, rfl, by rw [loaded]; rfl⟩
      | none =>
          rw [loaded] at done
          dsimp only at done
          split at done
          case isTrue =>
            cases done
            exact ⟨rfl, ct, rfl, by rw [loaded]; rfl⟩
          case isFalse => cases done

/-- The value of a plaintext operand that is unchanged is stored where it was. -/
theorem storePlaintext_same {name : Name} {pt : PlaintextImpl (Encoding F)} {value : Plaintext cc}
    (live : machine.plaintextSide.owners.lookup name = some pt)
    (stored : machine.deviceValues pt.gpu = some value) :
    machine.storePlaintext [name] (some value) = machine := by
  unfold Machine.storePlaintext
  dsimp only
  rw [live]
  dsimp only
  rw [← stored, Function.update_eq_self]

section Finish

variable [Div F]

theorem finish_simulates (held : HeldTracks functions devices machine reference)
    (operation : Operation cc) (ct : Name) (pts : List Name) (result : Option Name)
    (receiver : CiphertextImpl HostCiphertext cc) (device : Ciphertext cc)
    (operands : List (Plaintext cc)) (outcome : Except Failure (Ciphertext cc × Option (Plaintext cc)))
    (still : ∀ value adjusted, outcome = .ok (value, adjusted) →
      machine.storePlaintext pts adjusted = machine) :
    Simulates (HeldTracks functions devices)
      (finish operation ct pts result receiver device operands outcome)
      (Reference.finish operation ct result receiver device operands outcome) machine reference := by
  cases outcome with
  | ok pair =>
      obtain ⟨value, adjusted⟩ := pair
      have unchanged : Simulates (HeldTracks functions devices)
          (modify fun machine => machine.storePlaintext pts adjusted : Api HostCiphertext cc Unit)
          (pure ()) machine reference := by
        apply Simulates.hides
        rw [still value adjusted rfl]
        exact held
      exact unchanged.bind fun _ _ _ _ _ related => setCiphertext_simulates related _ _
  | error failure =>
      unfold finish Reference.finish
      cases result with
      | some name => exact .throws _ held
      | none =>
          exact (setCiphertext_simulates held ct _).bind fun _ _ _ _ _ related => .throws _ related

end Finish

/-- The host encodings are read without a change, or one of them is missing. -/
theorem Reference.hostEncodings_run (names : List Name) (reference : Reference HostCiphertext cc) :
    (Reference.hostEncodings names).run reference =
      match names.mapM reference.encodings with
      | some encodings => .ok encodings reference
      | none => .error .outOfRange reference := by
  induction names with
  | nil => rfl
  | cons name rest ih =>
      unfold Reference.hostEncodings
      rw [EStateM.run_bind, EStateM.run_get, List.mapM_cons]
      dsimp only
      cases reference.encodings name with
      | none => rfl
      | some value =>
          dsimp only
          rw [EStateM.run_bind, ih]
          cases rest.mapM reference.encodings with
          | none => rfl
          | some encodings => rfl

theorem hostEncodings_run (names : List Name) (machine : Machine HostCiphertext cc) :
    (hostEncodings names).run machine =
      match names.mapM machine.reference.encodings with
      | some encodings => .ok encodings machine
      | none => .error .outOfRange machine := by
  induction names with
  | nil => rfl
  | cons name rest ih =>
      have encoded : machine.reference.encodings name =
          (machine.plaintextSide.owners.lookup name).map PlaintextImpl.cpu := rfl
      unfold hostEncodings
      rw [EStateM.run_bind, EStateM.run_get, List.mapM_cons, encoded]
      dsimp only
      cases machine.plaintextSide.owners.lookup name with
      | none => rfl
      | some value =>
          dsimp only
          rw [EStateM.run_bind, ih]
          cases rest.mapM machine.reference.encodings with
          | none => rfl
          | some encodings => rfl

theorem hostEncodings_simulates (held : HeldTracks functions devices machine reference)
    (names : List Name) :
    Simulates (HeldTracks functions devices) (hostEncodings names) (Reference.hostEncodings names)
      machine reference := by
  have called := hostEncodings_run names machine
  have specified := Reference.hostEncodings_run names reference
  rw [held.tracks.2] at called
  cases read : names.mapM reference.encodings with
  | none =>
      rw [read] at called specified
      exact .of_error called specified held
  | some encodings =>
      rw [read] at called specified
      exact .of_ok called specified held

/-- A new host encoding that uploads as the old one, or of an unloaded plaintext, is tracked. -/
theorem Tracks.encode (tracks : Tracks functions machine reference) {name : Name}
    (value : Encoding F) (harmless : ∀ pt, machine.plaintextSide.owners.lookup name = some pt →
      pt.loaded = true → uploadPlaintext functions value = uploadPlaintext functions pt.cpu) :
    Tracks functions { machine with plaintextSide := setEncoding name value machine.plaintextSide }
      { reference with encodings := Reference.setEncoding name value reference.encodings } := by
  obtain ⟨fresh, rfl⟩ := tracks
  cases live : machine.plaintextSide.owners.lookup name with
  | none =>
      have still : setEncoding name value machine.plaintextSide = machine.plaintextSide := by
        rw [setEncoding, live]
      have known : machine.reference.encodings name = none := by
        change (machine.plaintextSide.owners.lookup name).map _ = _
        rw [live]
        rfl
      have stillToo : Reference.setEncoding name value machine.reference.encodings =
          machine.reference.encodings := by
        rw [Reference.setEncoding, known]
        rfl
      rw [still, stillToo]
      exact ⟨fresh, rfl⟩
  | some pt =>
      have moved : setEncoding name value machine.plaintextSide =
          machine.plaintextSide.setOwner name { pt with cpu := value } := by
        rw [setEncoding, live]
      have owner : ∀ other, (machine.plaintextSide.setOwner name
          { pt with cpu := value }).owners.lookup other = if other = name then
            some { pt with cpu := value } else machine.plaintextSide.owners.lookup other :=
        fun other => KeyedMap.lookup_insert_eq name other _ _
      rw [moved]
      constructor
      · constructor
        case consistent =>
          apply fresh.consistent.owners le_rfl
          · intro other new known loaded
            rw [KeyedMap.lookup_insert_eq] at known
            split at known
            case isTrue same =>
              cases known
              exact ⟨pt, same ▸ live, loaded, rfl⟩
            case isFalse => exact ⟨new, known, loaded, rfl⟩
          · intro other known
            rw [KeyedMap.lookup_insert_eq] at known
            split at known
            case isTrue same => exact same ▸ fresh.consistent.named name (by rw [live]; rfl)
            case isFalse => exact fresh.consistent.named other known
        case copies =>
          intro other new known loaded
          rw [owner] at known
          split at known
          case isTrue =>
            cases known
            obtain ⟨copy, uploads, stored⟩ := fresh.copies name pt live loaded
            exact ⟨copy, (harmless pt live loaded).trans uploads, stored⟩
          case isFalse => exact fresh.copies other new known loaded
        case running =>
          intro other new known loaded
          rw [owner] at known
          split at known
          case isTrue =>
            cases known
            exact fresh.running name pt live loaded
          case isFalse => exact fresh.running other new known loaded
      · have present : (machine.reference.encodings name).isSome := by
          change ((machine.plaintextSide.owners.lookup name).map _).isSome
          rw [live]
          rfl
        have same : (fun other => ((machine.plaintextSide.setOwner name
            { pt with cpu := value }).owners.lookup other).map PlaintextImpl.cpu) =
            Function.update machine.reference.encodings name (some value) := by
          funext other
          rw [owner, Function.update_apply]
          split <;> rfl
        have sameReference : Reference.setEncoding name value machine.reference.encodings =
            Function.update machine.reference.encodings name (some value) := by
          rw [Reference.setEncoding, if_pos present]
        rw [sameReference, ← same]
        rfl

theorem Tracks.encodeAll (tracks : Tracks functions machine reference) (host : machine.devices = [])
    (names : List Name) (values : List (Encoding F)) :
    Tracks functions
      { machine with plaintextSide := setEncodings names values machine.plaintextSide }
      { reference with encodings := Reference.setEncodings names values reference.encodings } := by
  induction names generalizing values machine reference with
  | nil => exact tracks
  | cons name rest ih =>
      cases values with
      | nil => exact tracks
      | cons value values =>
          have encoded := tracks.encode value fun pt live loaded =>
            absurd host (tracks.1.running name pt live loaded).2
          exact ih encoded host values

theorem setEncoding_hold (name : Name) (value : Encoding F) (cache : PlaintextCache (Encoding F)) :
    (setEncoding name value cache).plaintextCacheHold = cache.plaintextCacheHold := by
  unfold setEncoding
  split <;> rfl

theorem setEncodings_hold (names : List Name) (values : List (Encoding F))
    (cache : PlaintextCache (Encoding F)) :
    (setEncodings names values cache).plaintextCacheHold = cache.plaintextCacheHold := by
  induction names generalizing values cache with
  | nil => rfl
  | cons name rest ih =>
      cases values with
      | nil => rfl
      | cons value values =>
          rw [setEncodings, ih]
          exact setEncoding_hold name value cache

/-- Without devices no plaintext is loaded, so the host operation may change its operands. -/
theorem evaluateOnHost_simulates (held : HeldTracks functions [] machine reference)
    (operation : Operation cc) (ct : Name) (pts : List Name) (result : Option Name) :
    Simulates (HeldTracks functions []) (evaluateOnHost functions operation ct pts result)
      (Reference.evaluateOnHost functions operation ct pts result) machine reference := by
  unfold evaluateOnHost Reference.evaluateOnHost
  apply Simulates.reads
  have known : reference.ciphertexts ct = machine.ciphertexts ct := by
    rw [← held.tracks.2]
    rfl
  rw [known]
  cases machine.ciphertexts ct with
  | none => exact .throws _ held
  | some receiver =>
      apply (hostEncodings_simulates held pts).bind
      intro encodings read readToo _ _ still
      apply (lift_simulates still _).bind
      intro outcome lifted liftedToo _ _ stillToo
      obtain ⟨value, changed, adjusted⟩ := outcome
      have encodes : Simulates (HeldTracks functions []) (onPlaintexts (setEncodings pts adjusted))
          (Reference.onEncodings (Reference.setEncodings pts adjusted)) lifted liftedToo := by
        apply Simulates.modifies
        constructor
        case tracks => exact stillToo.tracks.encodeAll stillToo.same pts adjusted
        case hold =>
          rw [setEncodings_hold]
          exact stillToo.hold
        case same => exact stillToo.same
      apply encodes.bind
      intro _ _ _ _ _ encoded
      apply (setCiphertext_simulates encoded ct _).bind
      intro _ _ _ _ _ ended
      exact setCiphertext_simulates ended _ _

variable [Mul F] [Div F] [One F]

/-- The operands take unused handles and the plaintext of a mutable operation is not adjusted. -/
structure Evaluates (functions : Functions HostCiphertext cc) (operation : Operation cc) (ct : Name)
    (pts : List Name) (machine : Machine HostCiphertext cc) : Prop where
  unused : LoadsAllFresh functions pts (final (loadCiphertext functions ct)
    { machine with plaintextSide := machine.plaintextSide.openHold })
  keeps : ∀ name receiver pt value, pts = [name] → machine.ciphertexts ct = some receiver →
    machine.plaintextSide.owners.lookup name = some pt →
    uploadPlaintext functions pt.cpu = .ok value →
    ¬operation.Adjusts (receiver.gpu.getD (functions.upload receiver.cpu)) value

/-- An operation computes what it computes from fresh uploads. -/
theorem evaluate_simulates (tracks : Tracks functions machine reference) {operation : Operation cc}
    {ct : Name} {pts : List Name} (result : Option Name)
    (evaluates : machine.devices ≠ [] → Evaluates functions operation ct pts machine) :
    Simulates (Tracks functions) (evaluate functions operation ct pts result)
      (Reference.evaluate functions operation ct pts result) machine reference := by
  unfold evaluate
  apply held_simulates tracks
  intro held
  unfold Reference.evaluate
  apply Simulates.reads
  have known : reference.devices = machine.devices := by
    rw [← tracks.2]
    rfl
  rw [known]
  by_cases host : machine.devices = []
  · rw [if_pos host, if_pos host]
    rw [host] at held ⊢
    exact evaluateOnHost_simulates held operation ct pts result
  · obtain ⟨unused, keeps⟩ := evaluates host
    rw [if_neg host, if_neg host]
    apply (loadCiphertext_simulates held ct).bind
    intro loaded withReceiver withReceiverToo called _ receives
    obtain ⟨receiver, device⟩ := loaded
    rw [final_of_ok called] at unused
    obtain ⟨sideSame, original, live, isDevice⟩ := loadCiphertext_returns called
    apply (fetchPlaintexts_simulates host pts receives unused).bind
    intro operands fetched fetchedToo fetches _ reads
    have stores : ∀ handle value adjusted, operation.onDevice functions.calls device operands =
        .ok (value, adjusted) → { fetched with nextGpuHandle := handle }.storePlaintext pts adjusted =
          { fetched with nextGpuHandle := handle } := by
      intro handle value adjusted computes
      cases adjusted with
      | none =>
          cases pts with
          | nil => rfl
          | cons name rest =>
              cases rest with
              | nil => rfl
              | cons other others => rfl
      | some b_ =>
          cases pts with
          | nil => rfl
          | cons name rest =>
              cases rest with
              | cons other others => rfl
              | nil =>
                  obtain ⟨old, pt, copy, lived, uploads, single, still, stored⟩ :=
                    fetchPlaintexts_single host receives unused.1 fetches
                  rw [sideSame] at lived
                  have quiet := keeps name original old copy rfl live lived uploads
                  rw [← isDevice] at quiet
                  rw [single] at computes
                  rw [operation.onDevice_keeps quiet computes]
                  exact storePlaintext_same still stored
    cases result with
    | none =>
        exact finish_simulates reads operation ct pts none receiver device operands _
          (stores fetched.nextGpuHandle)
    | some name =>
        have registers : Simulates (HeldTracks functions machine.devices)
            (registerDeviceCiphertext >>= fun _ =>
              finish operation ct pts (some name) receiver device operands
                (operation.onDevice functions.calls device operands))
            (pure () >>= fun _ =>
              Reference.finish operation ct (some name) receiver device operands
                (operation.onDevice functions.calls device operands)) fetched fetchedToo := by
          apply (registerDeviceCiphertext_hidden reads).bind
          intro _ counted countedToo ran _ ended
          cases ran
          exact finish_simulates ended operation ct pts (some name) receiver device operands _
            (stores (fetched.nextGpuHandle + 1))
        exact registers

end Fideslib.Transparency

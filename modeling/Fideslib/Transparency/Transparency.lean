/-
This file proves that evictions of plaintexts are not observable.
-/

import Fideslib.CKKS.OperandAlignment
import Fideslib.Transparency.Evaluations

namespace Fideslib.Transparency

open Fideslib.CKKS Fideslib.Residency ThrowingCalls

variable {F : Type} {HostCiphertext : Type} {cc : ContextData F}
  {functions : Functions HostCiphertext cc}
  {machine : Machine HostCiphertext cc} {reference : Reference HostCiphertext cc}

theorem setCiphertext_tracks (tracks : Tracks functions machine reference) (name : Name)
    (ct : CiphertextImpl HostCiphertext cc) :
    Simulates (Tracks functions) (setCiphertext name ct) (Reference.setCiphertext name ct) machine
      reference := by
  obtain ⟨fresh, rfl⟩ := tracks
  apply Simulates.modifies
  exact Tracks.outside ⟨fresh, rfl⟩ _ machine.nextGpuHandle

/-- The devices only change while no plaintext is loaded. -/
theorem setDevices_simulates (tracks : Tracks functions machine reference) (devices : List Nat) :
    Simulates (Tracks functions) (setDevices devices) (Reference.setDevices devices) machine
      reference := by
  obtain ⟨fresh, rfl⟩ := tracks
  unfold setDevices Reference.setDevices
  apply Simulates.reads
  have known : machine.reference.loaded = machine.loaded := rfl
  rw [known]
  split
  case isTrue => exact .throws _ ⟨fresh, rfl⟩
  case isFalse idle =>
    apply Simulates.modifies
    refine ⟨⟨fresh.consistent, fresh.copies, ?_⟩, rfl⟩
    intro name pt live loaded
    exact absurd (fresh.running name pt live loaded).1 idle

theorem loadContext_simulates (tracks : Tracks functions machine reference) :
    Simulates (Tracks functions) loadContext Reference.loadContext machine reference := by
  obtain ⟨fresh, rfl⟩ := tracks
  apply Simulates.modifies
  refine ⟨⟨fresh.consistent, fresh.copies, ?_⟩, rfl⟩
  intro name pt live loaded
  obtain ⟨running, devices⟩ := fresh.running name pt live loaded
  exact ⟨by rw [running]; rfl, devices⟩

/-- A new plaintext is not loaded. -/
theorem newPlaintext_simulates (tracks : Tracks functions machine reference) {value : Encoding F}
    {pt : PlaintextImpl (Encoding F)} (encoded : pt.cpu = value) (unloaded : pt.loaded = false) :
    Simulates (Tracks functions) (newPlaintext pt) (Reference.newPlaintext value) machine
      reference := by
  obtain ⟨fresh, rfl⟩ := tracks
  have owner : ∀ other, (machine.plaintextSide.setOwner machine.nextName pt).owners.lookup other =
      if other = machine.nextName then some pt else machine.plaintextSide.owners.lookup other :=
    fun other => KeyedMap.lookup_insert_eq machine.nextName other _ _
  have before : ∀ other old, (machine.plaintextSide.setOwner machine.nextName pt).owners.lookup
      other = some old → old.loaded = true →
      machine.plaintextSide.owners.lookup other = some old := by
    intro other old known loaded
    rw [owner] at known
    split at known
    case isTrue =>
      cases known
      rw [unloaded] at loaded
      cases loaded
    case isFalse => exact known
  apply Simulates.modifies
  constructor
  · constructor
    case consistent =>
      apply fresh.consistent.owners (Nat.le_succ _)
      · exact fun other old known loaded => ⟨old, before other old known loaded, loaded, rfl⟩
      · intro other known
        change ((machine.plaintextSide.setOwner _ _).owners.lookup other).isSome at known
        rw [owner] at known
        split at known
        case isTrue same =>
          rw [same]
          exact Nat.lt_succ_self _
        case isFalse => exact (fresh.consistent.named other known).trans (Nat.lt_succ_self _)
    case copies =>
      exact fun other old known loaded => fresh.copies other old (before other old known loaded) loaded
    case running =>
      exact fun other old known loaded => fresh.running other old (before other old known loaded) loaded
  · have same : (fun other => ((machine.plaintextSide.setOwner machine.nextName pt).owners.lookup
        other).map PlaintextImpl.cpu) =
        Function.update machine.reference.encodings machine.nextName (some value) := by
      funext other
      rw [owner, Function.update_apply]
      split
      case isTrue => rw [← encoded]; rfl
      case isFalse => rfl
    change (⟨_, _, fun other => _, _, _⟩ : Reference HostCiphertext cc) = _
    rw [same]
    rfl

/-- A setter keeps the copies fresh if a loaded plaintext still uploads as before. -/
theorem changeEncoding_simulates (tracks : Tracks functions machine reference) {name : Name}
    {change : Encoding F → Encoding F}
    (harmless : ∀ pt, machine.plaintextSide.owners.lookup name = some pt → pt.loaded = true →
      uploadPlaintext functions (change pt.cpu) = uploadPlaintext functions pt.cpu) :
    Simulates (Tracks functions) (changeEncoding name change) (Reference.changeEncoding name change)
      machine reference := by
  unfold changeEncoding Reference.changeEncoding
  apply Simulates.reads
  have known : reference.encodings name =
      (machine.plaintextSide.owners.lookup name).map PlaintextImpl.cpu := by
    rw [← tracks.2]
    rfl
  rw [known]
  cases live : machine.plaintextSide.owners.lookup name with
  | none => exact .throws _ tracks
  | some pt =>
      apply Simulates.modifies
      apply tracks.encode
      intro other lived loaded
      rw [live] at lived
      cases lived
      exact harmless pt live loaded

/-- A destroyed plaintext leaves the others alone. -/
theorem destroyPlaintext_simulates (tracks : Tracks functions machine reference) (name : Name) :
    Simulates (Tracks functions) (destroyPlaintext name) (Reference.destroyPlaintext name) machine
      reference := by
  obtain ⟨fresh, rfl⟩ := tracks
  have erased : ∀ other, (machine.plaintextSide.owners.erase name).lookup other =
      if other = name then none else machine.plaintextSide.owners.lookup other :=
    fun other => KeyedMap.lookup_erase_eq name other _
  have before : ∀ other old, (machine.plaintextSide.owners.erase name).lookup other = some old →
      other ≠ name ∧ machine.plaintextSide.owners.lookup other = some old := by
    intro other old known
    rw [erased] at known
    split at known
    case isTrue => cases known
    case isFalse different => exact ⟨different, known⟩
  have forgets : PlaintextCache.Consistent machine.nextName
      { machine.plaintextSide with owners := machine.plaintextSide.owners.erase name } := by
    apply fresh.consistent.owners le_rfl
    · exact fun other old known loaded => ⟨old, (before other old known).2, loaded, rfl⟩
    · intro other known
      obtain ⟨old, lived⟩ := Option.isSome_iff_exists.mp known
      exact fresh.consistent.named other (by rw [(before other old lived).2]; rfl)
  have owners : (machine.plaintextSide.destroyPlaintext name).owners =
      machine.plaintextSide.owners.erase name := by
    unfold PlaintextCache.destroyPlaintext
    cases live : machine.plaintextSide.owners.lookup name with
    | none =>
        apply AList.ext
        exact (List.kerase_of_notMem_keys (AList.lookup_eq_none.mp live)).symm
    | some owner =>
        dsimp only
        split
        case isTrue => rw [PlaintextCache.evictDevicePlaintext_owners]
        case isFalse => rfl
  have consistent : (machine.plaintextSide.destroyPlaintext name).Consistent machine.nextName := by
    unfold PlaintextCache.destroyPlaintext
    cases live : machine.plaintextSide.owners.lookup name with
    | none => exact fresh.consistent
    | some owner =>
        dsimp only
        split
        case isFalse => exact forgets
        case isTrue leaves =>
          have evicts : { (machine.plaintextSide.evictDevicePlaintext owner.gpu).2 with
              owners := (machine.plaintextSide.evictDevicePlaintext owner.gpu).2.owners.erase name } =
              ({ machine.plaintextSide with
                owners := machine.plaintextSide.owners.erase name }.evictDevicePlaintext
                owner.gpu).2 := by
            unfold PlaintextCache.evictDevicePlaintext PlaintextCache.untrackPlaintext
            dsimp only
            split <;> rfl
          rw [evicts]
          apply forgets.evict
          intro other old known loaded same
          obtain ⟨different, lived⟩ := before other old known
          exact different (fresh.consistent.alone other name old owner lived live loaded leaves.1 same)
  apply Simulates.modifies
  constructor
  · constructor
    case consistent => exact consistent
    case copies =>
      intro other old known
      rw [owners] at known
      exact fresh.copies other old (before other old known).2
    case running =>
      intro other old known
      rw [owners] at known
      exact fresh.running other old (before other old known).2
  · have same : (fun other => ((machine.plaintextSide.destroyPlaintext name).owners.lookup
        other).map PlaintextImpl.cpu) =
        Function.update machine.reference.encodings name none := by
      funext other
      rw [owners, erased, Function.update_apply]
      split <;> rfl
    change (⟨_, _, fun other => _, _, _⟩ : Reference HostCiphertext cc) = _
    rw [same]
    rfl

theorem encrypt_simulates (tracks : Tracks functions machine reference) (pt result : Name) :
    Simulates (Tracks functions) (encrypt functions pt result)
      (Reference.encrypt functions pt result) machine reference := by
  unfold encrypt Reference.encrypt
  apply Simulates.reads
  have known : reference.encodings pt =
      (machine.plaintextSide.owners.lookup pt).map PlaintextImpl.cpu := by
    rw [← tracks.2]
    rfl
  rw [known]
  cases machine.plaintextSide.owners.lookup pt with
  | none => exact .throws _ tracks
  | some owner => exact setCiphertext_tracks tracks result _

/-- A decryption into a plaintext that is not loaded replaces its encoding. -/
theorem decryptInto_simulates (tracks : Tracks functions machine reference) {target : Name}
    (value : Encoding F) (unloaded : ∀ pt,
      machine.plaintextSide.owners.lookup target = some pt → pt.loaded = false) :
    Simulates (Tracks functions) (decryptInto target value) (Reference.decryptInto target value)
      machine reference := by
  obtain ⟨fresh, rfl⟩ := tracks
  unfold decryptInto Reference.decryptInto
  apply Simulates.reads
  have known : machine.reference.encodings target =
      (machine.plaintextSide.owners.lookup target).map PlaintextImpl.cpu := rfl
  rw [known]
  cases live : machine.plaintextSide.owners.lookup target with
  | none => exact .throws _ ⟨fresh, rfl⟩
  | some pt =>
      have idle : ¬pt.loaded = true := by
        rw [unloaded pt live]
        exact Bool.false_ne_true
      dsimp only [Option.map_some]
      rw [if_neg (fun both => idle both.1), if_neg idle]
      have owner : ∀ other, (machine.plaintextSide.setOwner target
          { pt with cpu := value, loaded := false, gpu := 0 }).owners.lookup other =
          if other = target then some { pt with cpu := value, loaded := false, gpu := 0 }
          else machine.plaintextSide.owners.lookup other :=
        fun other => KeyedMap.lookup_insert_eq target other _ _
      have before : ∀ other old, (machine.plaintextSide.setOwner target
          { pt with cpu := value, loaded := false, gpu := 0 }).owners.lookup other = some old →
          old.loaded = true → machine.plaintextSide.owners.lookup other = some old := by
        intro other old lived loaded
        rw [owner] at lived
        split at lived
        case isTrue =>
          cases lived
          cases loaded
        case isFalse => exact lived
      apply Simulates.modifies
      constructor
      · constructor
        case consistent =>
          apply fresh.consistent.owners le_rfl
          · exact fun other old lived loaded => ⟨old, before other old lived loaded, loaded, rfl⟩
          · intro other present
            change ((machine.plaintextSide.setOwner _ _).owners.lookup other).isSome at present
            rw [owner] at present
            split at present
            case isTrue same => exact same ▸ fresh.consistent.named target (by rw [live]; rfl)
            case isFalse => exact fresh.consistent.named other present
        case copies =>
          exact fun other old lived loaded =>
            fresh.copies other old (before other old lived loaded) loaded
        case running =>
          exact fun other old lived loaded =>
            fresh.running other old (before other old lived loaded) loaded
      · have present : (machine.reference.encodings target).isSome := by
          rw [known, live]
          rfl
        have sameReference : Reference.setEncoding target value machine.reference.encodings =
            Function.update machine.reference.encodings target (some value) := by
          rw [Reference.setEncoding, if_pos present]
        have same : (fun other => ((machine.plaintextSide.setOwner target
            { pt with cpu := value, loaded := false, gpu := 0 }).owners.lookup other).map
            PlaintextImpl.cpu) =
            Function.update machine.reference.encodings target (some value) := by
          funext other
          rw [owner, Function.update_apply]
          split <;> rfl
        rw [sameReference, ← same]
        rfl

/-- The decryption of a ciphertext is a host function. -/
theorem decrypt_simulates (tracks : Tracks functions machine reference) {ct : Name}
    {target : Option Name}
    (unloaded : ∀ receiver outcome name pt, machine.ciphertexts ct = some receiver →
      functions.decrypt receiver = .ok outcome → target = some name →
      machine.plaintextSide.owners.lookup name = some pt → pt.loaded = false) :
    Simulates (Tracks functions) (decrypt functions ct target)
      (Reference.decrypt functions ct target) machine reference := by
  unfold decrypt Reference.decrypt
  apply Simulates.reads
  have known : reference.ciphertexts ct = machine.ciphertexts ct := by
    rw [← tracks.2]
    rfl
  rw [known]
  cases live : machine.ciphertexts ct with
  | none => exact .throws _ tracks
  | some receiver =>
      dsimp only
      cases decrypted : functions.decrypt receiver with
      | error thrown => exact .throws _ tracks
      | ok outcome =>
          obtain ⟨cpu, value⟩ := outcome
          apply (Simulates.returns (cpu, value) tracks).bind
          intro _ _ _ returned _ related
          cases returned
          dsimp only
          apply (setCiphertext_tracks related ct _).bind
          intro _ written _ writes _ kept
          cases writes
          cases target with
          | none => exact newPlaintext_simulates kept rfl rfl
          | some name =>
              apply decryptInto_simulates kept value
              exact fun pt lived => unloaded receiver _ name pt live decrypted rfl lived

theorem onCiphertexts_simulates (tracks : Tracks functions machine reference)
    (call : CiphertextCall HostCiphertext cc) :
    Simulates (Tracks functions) call.perform (Reference.onCiphertexts call) machine reference := by
  obtain ⟨fresh, rfl⟩ := tracks
  unfold CiphertextCall.perform Reference.onCiphertexts
  apply Simulates.reads
  have changes : Simulates (Tracks functions)
      (modify fun machine : Machine HostCiphertext cc => { machine with
        ciphertexts := (call.effect machine.devices machine.loaded machine.ciphertexts).2
        nextGpuHandle := machine.nextGpuHandle + UInt32.ofNat call.registered } :
          Api HostCiphertext cc Unit)
      (modify fun reference : Reference HostCiphertext cc => { reference with
        ciphertexts := (call.effect reference.devices reference.loaded reference.ciphertexts).2 } :
          Reference.Spec HostCiphertext cc Unit)
      machine machine.reference := Simulates.modifies (Tracks.outside ⟨fresh, rfl⟩ _ _)
  apply changes.bind
  intro _ _ _ _ _ related
  exact lift_simulates related _

/-- A pin loads a plaintext, and pins are not observed. -/
theorem pinPlaintext_simulates (tracks : Tracks functions machine reference) {name : Name}
    (unused : LoadsFresh name machine) :
    Simulates (Tracks functions) (pinPlaintext functions name)
      (Reference.loadPlaintext functions name) machine reference := by
  apply @Simulates.scope _ _ _ _ _ _ _ (Tracks functions)
  · intro after reached related
    exact related.moves PlaintextCache.closeHold_moves
  · have plain : (Reference.loadPlaintext functions name >>= fun _ => pure ()) =
        Reference.loadPlaintext functions name := bind_pure _
    rw [← plain]
    apply (loadPlaintext_simulates (tracks.moves PlaintextCache.openHold_moves) unused).bind
    intro _ loaded _ _ _ related
    apply onPlaintexts_hidden related
    split
    case h_1 => exact .still
    case h_2 =>
      split
      case isTrue => exact .of_same rfl rfl rfl
      case isFalse => exact .still

theorem unpinPlaintext_simulates (tracks : Tracks functions machine reference) (name : Name) :
    Simulates (Tracks functions) (unpinPlaintext name) (pure ()) machine reference := by
  apply @Simulates.scope _ _ _ _ _ _ _ (Tracks functions)
  · intro after reached related
    exact related.moves PlaintextCache.closeHold_moves
  · apply onPlaintexts_hidden (tracks.moves PlaintextCache.openHold_moves)
    split
    case h_1 => exact .still
    case h_2 pt _ =>
      split
      case isTrue =>
        have unpins : PlaintextCache.Moves machine.nextName machine.plaintextSide.openHold
            { machine.plaintextSide.openHold with
              plaintextPinned := machine.plaintextSide.openHold.plaintextPinned.erase pt.gpu } :=
          .of_same rfl rfl rfl
        exact unpins.trans (PlaintextCache.enforcePlaintextBudget_moves 0)
      case isFalse => exact .still

section Programs

variable [Mul F] [Div F] [One F]

/-- Uploads take unused handles, a mutable operation does not adjust its plaintext, the slots of a
loaded plaintext are not changed, and no decryption goes into a loaded plaintext. -/
def Call.Meets (functions : Functions HostCiphertext cc) :
    Call HostCiphertext cc → Machine HostCiphertext cc → Prop
  | .loadPlaintext name, machine | .pinPlaintext name, machine => LoadsFresh name machine
  | .evaluate operation ct pts _, machine =>
      machine.devices ≠ [] → Evaluates functions operation ct pts machine
  | .setSlots name slots, machine => ∀ pt, machine.plaintextSide.owners.lookup name = some pt →
      pt.loaded = true → slots = pt.cpu.slots
  | .decrypt ct target, machine => ∀ receiver outcome name pt,
      machine.ciphertexts ct = some receiver → functions.decrypt receiver = .ok outcome →
      target = some name → machine.plaintextSide.owners.lookup name = some pt → pt.loaded = false
  | _, _ => True

/-- Every call meets the condition where it runs. -/
def Safe (functions : Functions HostCiphertext cc) :
    List (Call HostCiphertext cc) → Machine HostCiphertext cc → Prop
  | [], _ => True
  | call :: rest, machine =>
      call.Meets functions machine ∧ Safe functions rest (final (call.perform functions) machine)

/-- Each call does what it does without a plaintext cache. -/
theorem perform_simulates (tracks : Tracks functions machine reference)
    {call : Call HostCiphertext cc} (meets : call.Meets functions machine) :
    Simulates (Tracks functions) (call.perform functions) (Reference.perform functions call) machine
      reference := by
  cases call with
  | setDevices devices => exact setDevices_simulates tracks devices
  | loadContext => exact loadContext_simulates tracks
  | makePlaintext value => exact newPlaintext_simulates tracks rfl rfl
  | loadPlaintext name => exact loadPlaintext_simulates tracks meets
  | pinPlaintext name => exact pinPlaintext_simulates tracks meets
  | unpinPlaintext name => exact unpinPlaintext_simulates tracks name
  | setSlots name slots =>
      change Simulates (Tracks functions)
        (changeEncoding name fun value => { value with slots := slots })
        (Reference.changeEncoding name fun value => { value with slots := slots }) machine reference
      apply changeEncoding_simulates tracks
      intro pt live loaded
      rw [meets pt live loaded]
  | setLength name length =>
      change Simulates (Tracks functions)
        (changeEncoding name fun value => { value with length := length })
        (Reference.changeEncoding name fun value => { value with length := length }) machine
        reference
      apply changeEncoding_simulates tracks
      exact fun _ _ _ => rfl
  | destroyPlaintext name => exact destroyPlaintext_simulates tracks name
  | encrypt pt result => exact encrypt_simulates tracks pt result
  | decrypt ct target => exact decrypt_simulates tracks meets
  | evaluate operation ct pts result => exact evaluate_simulates tracks result meets
  | onCiphertexts call => exact onCiphertexts_simulates tracks call
  | setPlaintextCache bytes =>
      exact onPlaintexts_hidden tracks (PlaintextCache.setPlaintextCache_moves bytes)
  | offloadPlaintexts => exact onPlaintexts_hidden tracks (PlaintextCache.offloadOver_moves _ _)
  | offloadPlaintextHandle handle =>
      exact Simulates.hides (tracks.moves (PlaintextCache.offloadPlaintextHandle_moves handle))

/-- A run is followed by the reference to its end. -/
theorem performAll_tracks (calls : List (Call HostCiphertext cc))
    (tracks : Tracks functions machine reference) (safe : Safe functions calls machine) :
    Fresh functions (performAll functions calls machine) := by
  induction calls generalizing machine reference with
  | nil => exact tracks.1
  | cons call rest ih => exact ih (perform_simulates tracks safe.1).final safe.2

/-- A caller observes what the reference computes for the calls of the program. -/
theorem observe_eq (calls : List (Call HostCiphertext cc))
    (tracks : Tracks functions machine reference) (safe : Safe functions calls machine) :
    observe functions calls machine =
      Reference.observe functions (calls.filter fun call => !call.isCache) reference := by
  induction calls generalizing machine reference with
  | nil => rfl
  | cons call rest ih =>
      have simulated := perform_simulates tracks safe.1
      rw [observe, List.filter_cons]
      cases cached : call.isCache with
      | true =>
          have silent : final (Reference.perform functions call) reference = reference := by
            cases call with
            | setPlaintextCache | offloadPlaintexts | offloadPlaintextHandle => rfl
            | _ => cases cached
          have related := simulated.final
          rw [silent] at related
          exact ih related safe.2
      | false =>
          rw [if_neg Bool.false_ne_true, Bool.not_false, if_pos rfl, Reference.observe,
            ih simulated.final safe.2, simulated.fault, simulated.final.2]

/-- Programs that differ only in evictions and budgets are observed alike, and every device copy is
a fresh upload of its host encoding. -/
theorem plaintext_eviction_transparent (devices : List Nat)
    {first second : List (Call HostCiphertext cc)}
    (same : (first.filter fun call => !call.isCache) = second.filter fun call => !call.isCache)
    (safeFirst : Safe functions first (Machine.initial devices))
    (safeSecond : Safe functions second (Machine.initial devices)) :
    observe functions first (Machine.initial devices) =
        observe functions second (Machine.initial devices) ∧
      Fresh functions (performAll functions first (Machine.initial devices)) := by
  have tracks := initial_tracks functions devices
  constructor
  · rw [observe_eq first tracks safeFirst, observe_eq second tracks safeSecond, same]
  · exact performAll_tracks first tracks safeFirst

end Programs

/-- These functions encode zeros, and a ciphertext is its own host copy. -/
def zeroFunctions :
    Functions (Ciphertext (Ciphertext.smallContext .fixedAuto true))
      (Ciphertext.smallContext .fixedAuto true) where
  calls := 3
  loadConstant := fun rows _ _ => .ok ⟨rows.length - 1, fun _ _ => 0⟩
  limbBytes := fun _ => 8
  upload := fun ct => ct
  encrypt := fun _ => Ciphertext.zeroAt _ 0 1
  decrypt := fun ct => .ok (ct.cpu, ⟨[], [], 3, 1, 1, 1⟩)
  evaluate := fun _ ct pts => .ok (ct, ct, pts)

/-- This call creates a ciphertext at level zero and one at level one. -/
def zeroCiphertexts : CiphertextCall (Ciphertext (Ciphertext.smallContext .fixedAuto true))
    (Ciphertext.smallContext .fixedAuto true) where
  effect := fun _ _ _ => (.ok (), fun name =>
    if name = 1 then some ⟨Ciphertext.zeroAt _ 0 1, none⟩
    else if name = 2 then some ⟨Ciphertext.zeroAt _ 1 1, none⟩ else none)
  registered := 0

def zeroEncoding : Encoding Nat := ⟨[[0], [0]], [3, 3], 3, 1, 1, 1⟩

/-- A sum is computed before and after the plaintext was evicted. -/
theorem plaintext_eviction_transparent_sum :
    observe zeroFunctions [.loadContext, .makePlaintext zeroEncoding, .onCiphertexts zeroCiphertexts,
        .evaluate .evalAdd 2 [0] (some 3), .evaluate .evalAdd 2 [0] (some 4)]
        (Machine.initial [0]) =
      observe zeroFunctions [.loadContext, .makePlaintext zeroEncoding,
        .onCiphertexts zeroCiphertexts, .evaluate .evalAdd 2 [0] (some 3), .offloadPlaintexts,
        .evaluate .evalAdd 2 [0] (some 4)] (Machine.initial [0]) ∧
      Fresh zeroFunctions (performAll zeroFunctions [.loadContext, .makePlaintext zeroEncoding,
        .onCiphertexts zeroCiphertexts, .evaluate .evalAdd 2 [0] (some 3),
        .evaluate .evalAdd 2 [0] (some 4)] (Machine.initial [0])) := by
  have same : ([.loadContext, .makePlaintext zeroEncoding, .onCiphertexts zeroCiphertexts,
      .evaluate .evalAdd 2 [0] (some 3), .evaluate .evalAdd 2 [0] (some 4)] :
        List (Call (Ciphertext (Ciphertext.smallContext .fixedAuto true))
          (Ciphertext.smallContext .fixedAuto true))).filter (fun call => !call.isCache) =
      ([.loadContext, .makePlaintext zeroEncoding, .onCiphertexts zeroCiphertexts,
        .evaluate .evalAdd 2 [0] (some 3), .offloadPlaintexts, .evaluate .evalAdd 2 [0] (some 4)] :
        List (Call (Ciphertext (Ciphertext.smallContext .fixedAuto true))
          (Ciphertext.smallContext .fixedAuto true))).filter fun call => !call.isCache := rfl
  apply plaintext_eviction_transparent [0] same
  · refine ⟨trivial, trivial, trivial, fun _ => ⟨⟨?_, trivial⟩, ?_⟩, fun _ => ⟨⟨?_, trivial⟩, ?_⟩,
      trivial⟩
    · exact fun _ _ _ _ _ => rfl
    · exact fun _ _ _ _ _ _ _ _ never => never
    · exact fun _ _ _ _ _ => rfl
    · exact fun _ _ _ _ _ _ _ _ never => never
  · refine ⟨trivial, trivial, trivial, fun _ => ⟨⟨?_, trivial⟩, ?_⟩, trivial,
      fun _ => ⟨⟨?_, trivial⟩, ?_⟩, trivial⟩
    · exact fun _ _ _ _ _ => rfl
    · exact fun _ _ _ _ _ _ _ _ never => never
    · exact fun _ _ _ _ _ => rfl
    · exact fun _ _ _ _ _ _ _ _ never => never

/-- A mutable sum drops its plaintext to the level of the ciphertext, so the level of a later sum
depends on an eviction in between, and so does the success of a decryption into a plaintext. -/
theorem eviction_observed :
    let levelAfter := fun calls =>
      ((performAll zeroFunctions calls (Machine.initial [0])).ciphertexts 4).bind fun ct =>
        ct.gpu.map Ciphertext.getLevel
    levelAfter [.loadContext, .makePlaintext zeroEncoding, .onCiphertexts zeroCiphertexts,
        .evaluate .evalAddMutable 1 [0] (some 3), .evaluate .evalAdd 2 [0] (some 4)] = some 0 ∧
      levelAfter [.loadContext, .makePlaintext zeroEncoding, .onCiphertexts zeroCiphertexts,
        .evaluate .evalAddMutable 1 [0] (some 3), .offloadPlaintexts,
        .evaluate .evalAdd 2 [0] (some 4)] = some 1 ∧
      fault (decrypt zeroFunctions 1 (some 0)) (performAll zeroFunctions [.loadContext,
        .makePlaintext zeroEncoding, .onCiphertexts zeroCiphertexts, .loadPlaintext 0]
        (Machine.initial [0])) = some (.openFHE
          "Inconsistent state: Plaintext is marked as loaded but no devices are available") ∧
      fault (decrypt zeroFunctions 1 (some 0)) (performAll zeroFunctions [.loadContext,
        .makePlaintext zeroEncoding, .onCiphertexts zeroCiphertexts, .loadPlaintext 0,
        .offloadPlaintexts] (Machine.initial [0])) = none :=
  ⟨rfl, rfl, rfl, rfl⟩

end Fideslib.Transparency

/-
This file proves the value semantics of API ciphertexts over all runs.
-/

import Fideslib.HostSharing.Functions

namespace Fideslib.HostSharing

open StateMachine

variable {Host Device : Type} (transfer : Transfer Host Device)

def HostChange.isWritten : HostChange Host → Bool
  | .written _ => true
  | _ => false

/-- The call writes the host ciphertexts of these objects through their pointers. -/
def Call.hostWrites : Call Host Device → Heap Host Device → List Name
  | .unloadCiphertext name, heap | .getElements name, heap =>
      if (heap.deviceOf name).isSome then [name] else []
  | .decrypt name _, heap =>
      match heap.deviceOf name, heap.hostOf name with
      | some device, some host => if transfer.hasRoom device host then [name] else []
      | _, _ => []
  | .set _ name, heap => if (heap.deviceOf name).isSome then [] else [name]
  | .evalInPlace function ct operands, heap =>
      match heap.devices, function.host with
      | [], .inPlace openfhe =>
          if (openfhe (heap.hostsOf (ct :: operands))).isWritten then [ct] else []
      | _, _ => []
  | .evalMutable function targets, heap =>
      if heap.devices = [] then
        ((targets.zip (function.host (heap.hostsOf targets)).1).filter
          fun change => change.2.isWritten).map Prod.fst
      else []
  | .evalAddManyInPlace function entries, heap =>
      let present := entries.filterMap id
      if heap.devices = [] then
        ((present.zip (function.host (heap.hostsOf present)).1).filter
          fun change => change.2.isSome).map Prod.fst
      else []
  | _, _ => []

/-- The call reads these operands and must not change them. -/
def Call.constOperands : Call Host Device → List Name
  | .evalNew _ first operands => first :: operands
  | .evalFastRotation _ ct => [ct]
  | .evalInPlace _ _ operands => operands
  | _ => []

/-- Each host ciphertext that the call writes is behind a marked pointer or shared with no object
that the call leaves alone, and each operand that it uploads comes back whole. -/
structure Call.Isolates (call : Call Host Device) (heap : Heap Host Device) : Prop where
  detaches : ∀ name ∈ call.hostWrites transfer heap, heap.Detachable call.subjects name
  uploads : heap.devices ≠ [] → ∀ name ∈ call.constOperands, heap.deviceOf name = none →
    heap.RoundTrips transfer name

variable {transfer} {heap : Heap Host Device}

theorem evalInPlace_moves (formed : heap.Formed) {function : InPlace Host Device} {ct : Name}
    {operands : List Name} {next : Heap Host Device}
    (isolates : (Call.evalInPlace function ct operands).Isolates transfer heap)
    (done : heap.evalInPlace transfer function ct operands = .ok next) :
    Heap.Moves transfer [ct] heap next := by
  have detached : Heap.Moves transfer [ct] heap (heap.ensureLazyCpuCopy ct) :=
    (Heap.ensureLazyCpuCopy_moves formed ct).widen (List.nil_subset _)
  unfold Heap.evalInPlace at done
  split at done
  case isTrue onHost =>
    split at done
    case h_1 openfhe path =>
      cases done
      apply detached.trans
      apply Heap.settle_moves detached.formed _ (List.mem_singleton_self ct)
      intro host written
      rw [Heap.ensureLazyCpuCopy_hostsOf formed] at written
      have outcome : openfhe (heap.hostsOf (ct :: operands)) = .written host := written
      apply Heap.ensureLazyCpuCopy_apart formed (List.mem_singleton_self ct)
      apply isolates.detaches
      simp [Call.hostWrites, onHost, path, outcome, HostChange.isWritten]
    case h_2 detaches openfhe path =>
      cases done
      cases detaches with
      | false => exact Heap.assign_moves formed ct _
      | true => exact detached.trans (Heap.assign_moves detached.formed ct _)
    case h_3 openfhe path =>
      cases done
      exact (Heap.wrap_moves formed _).widen (List.nil_subset _)
    case h_4 => cases done
  case isFalse onDevice =>
    split at done
    case h_1 => cases done
    case h_2 loaded loads =>
      cases done
      have moved : Heap.Moves transfer [ct] heap loaded := by
        apply Heap.loadAll_moves formed loads
        intro name member
        obtain rfl | operand := List.mem_cons.mp member
        · exact Or.inl (List.mem_singleton_self _)
        · exact Or.inr (isolates.uploads onDevice name operand)
      exact moved.trans (Heap.compute_moves moved.formed ct _)

theorem evalMutable_moves (formed : heap.Formed) {function : Mutable Host Device}
    {targets : List Name} {next : Heap Host Device}
    (isolates : (Call.evalMutable function targets).Isolates transfer heap)
    (done : heap.evalMutable transfer function targets = .ok next) :
    Heap.Moves transfer targets heap next := by
  unfold Heap.evalMutable at done
  split at done
  case isTrue onHost =>
    have detached : Heap.Moves transfer targets heap (heap.detachAll targets) :=
      (Heap.detachAll_moves formed targets).widen (List.nil_subset _)
    dsimp only at done
    rw [Heap.detachAll_hostsOf formed] at done
    have settled : Heap.Moves transfer targets heap
        ((targets.zip (function.host (heap.hostsOf targets)).1).foldl Heap.settle
          (heap.detachAll targets)) := by
      apply detached.trans
      apply Heap.settleAll_moves detached.formed
      · exact fun change member => (List.of_mem_zip member).1
      · intro change member host written
        have target := (List.of_mem_zip member).1
        have ready : heap.Detachable targets change.1 := by
          apply isolates.detaches
          rw [Call.hostWrites, if_pos onHost]
          apply List.mem_map_of_mem
          rw [List.mem_filter, written]
          exact ⟨member, rfl⟩
        exact Heap.detachAll_apart formed (List.Subset.refl _) ready (Or.inl target)
    cases done
    split
    case isTrue =>
      exact settled.trans ((Heap.wrap_moves settled.formed _).widen (List.nil_subset _))
    case isFalse => exact settled
  case isFalse =>
    split at done
    case h_1 => cases done
    case h_2 loaded loads =>
      have moved : Heap.Moves transfer targets heap loaded :=
        Heap.loadAll_moves formed loads fun name member => Or.inl member
      cases done
      have computed : ∀ copied : Heap Host Device, Heap.Moves transfer targets heap copied →
          Heap.Moves transfer targets heap
            ((targets.zip (function.device (loaded.devicesOf targets)).1).foldl
              (fun heap change => heap.compute change.1 change.2) copied) :=
        fun copied moves => moves.trans (Heap.computeAll_moves moves.formed _ fun change member =>
          (List.of_mem_zip member).1)
      apply computed
      split
      case h_1 first rest result =>
        exact moved.trans ((Heap.copyInto_moves moved.formed first _).widen (List.nil_subset _))
      case h_2 => exact moved

theorem evalNew_moves (formed : heap.Formed) {function : Producer Host Device} {first : Name}
    {operands : List Name} {next : Heap Host Device}
    (isolates : (Call.evalNew function first operands).Isolates transfer heap)
    (done : heap.evalNew transfer function first operands = .ok next) :
    Heap.Moves transfer [] heap next := by
  unfold Heap.evalNew at done
  split at done
  case isTrue =>
    cases done
    exact Heap.wrap_moves formed _
  case isFalse onDevice =>
    split at done
    case h_1 => cases done
    case h_2 loaded loads =>
      cases done
      have moved : Heap.Moves transfer [] heap loaded :=
        Heap.loadAll_moves formed loads fun name member =>
          Or.inr (isolates.uploads onDevice name member)
      exact moved.trans (Heap.copyInto_moves moved.formed first _)

theorem evalFastRotation_moves (formed : heap.Formed) {rotations : List (Producer Host Device)}
    {ct : Name} {next : Heap Host Device}
    (isolates : (Call.evalFastRotation rotations ct).Isolates transfer heap)
    (done : heap.evalFastRotation transfer rotations ct = .ok next) :
    Heap.Moves transfer [] heap next := by
  unfold Heap.evalFastRotation at done
  split at done
  case isTrue =>
    cases done
    exact Heap.foldl_moves _ (fun heap rotation formed => Heap.clone_assign_moves formed ct _)
      formed rotations
  case isFalse onDevice =>
    split at done
    case h_1 => cases done
    case h_2 loaded loads =>
      cases done
      have moved : Heap.Moves transfer [] heap loaded :=
        Heap.loadCiphertext_moves formed loads
          (Or.inr (isolates.uploads onDevice ct (List.mem_singleton_self ct)))
      exact moved.trans (Heap.foldl_moves _
        (fun heap rotation formed => Heap.copyInto_moves formed ct _) moved.formed rotations)

/-- The pointer that goes into the first place is new or was handed out before. -/
theorem place_moves (formed : heap.Formed) (slot : Option Name) (reduced : Reduced Host) :
    Heap.Moves transfer slot.toList heap (heap.place slot reduced) := by
  unfold Heap.place
  split
  case h_1 host => exact Heap.wrap_moves formed host
  case h_2 name host => exact Heap.assign_moves formed name host
  case h_3 source =>
    split
    case h_1 => exact .refl formed
    case h_2 other live => exact Heap.create_moves formed (formed.pointers source other live)
  case h_4 name source =>
    split
    case h_1 ct other live shared =>
      exact Heap.setObject_moves formed live (formed.pointers source other shared)
    case h_2 => exact .refl formed

theorem writeAll_moves {among : List Name} (formed : heap.Formed)
    (changes : List (Name × Option Host))
    (apart : ∀ change ∈ changes, change.2.isSome → heap.Apart among change.1) :
    Heap.Moves transfer among heap
      (changes.foldl (fun heap change => change.2.elim heap (heap.write change.1)) heap) := by
  induction changes generalizing heap with
  | nil => exact .refl formed
  | cons change rest ih =>
      obtain ⟨name, outcome⟩ := change
      cases outcome with
      | none => exact ih formed fun later member => apart later (List.mem_cons_of_mem _ member)
      | some host =>
          have first : Heap.Moves transfer among heap (heap.write name host) :=
            Heap.write_moves formed (apart (name, some host) (List.mem_cons_self ..) rfl) host
          apply first.trans
          apply ih first.formed
          exact fun later member written => Heap.write_keepsApart name host
            (apart later (List.mem_cons_of_mem _ member) written)

theorem evalAddManyInPlace_moves (formed : heap.Formed) {function : Reduction Host Device}
    {entries : List (Option Name)} {next : Heap Host Device}
    (isolates : (Call.evalAddManyInPlace function entries).Isolates transfer heap)
    (done : heap.evalAddManyInPlace transfer function entries = .ok next) :
    Heap.Moves transfer (entries.filterMap id) heap next := by
  unfold Heap.evalAddManyInPlace at done
  dsimp only at done
  split at done
  case isTrue onHost =>
    have detached : Heap.Moves transfer (entries.filterMap id) heap
        (heap.detachAll (entries.filterMap id)) :=
      (Heap.detachAll_moves formed _).widen (List.nil_subset _)
    rw [Heap.detachAll_hostsOf formed] at done
    cases done
    have apart : ∀ change ∈ (entries.filterMap id).zip
        (function.host (heap.hostsOf (entries.filterMap id))).1, change.2.isSome →
        (heap.detachAll (entries.filterMap id)).Apart (entries.filterMap id) change.1 := by
      intro change member written
      have target := (List.of_mem_zip member).1
      have ready : heap.Detachable (entries.filterMap id) change.1 := by
        apply isolates.detaches
        rw [Call.hostWrites, if_pos onHost]
        apply List.mem_map_of_mem
        rw [List.mem_filter]
        exact ⟨member, written⟩
      exact Heap.detachAll_apart formed (List.Subset.refl _) ready (Or.inl target)
    have settled := detached.trans (writeAll_moves detached.formed _ apart)
    have inside : (entries.headD none).toList ⊆ entries.filterMap id := by
      cases entries with
      | nil => exact List.nil_subset _
      | cons slot rest =>
          cases slot with
          | none => exact List.nil_subset _
          | some name => simp
    exact settled.trans ((place_moves settled.formed _ _).widen inside)
  case isFalse =>
    split at done
    case h_1 => cases done
    case h_2 loaded loads =>
      have moved : Heap.Moves transfer (entries.filterMap id) heap loaded :=
        Heap.loadAll_moves formed loads fun name member => Or.inl member
      split at done
      case h_1 => cases done
      case h_2 first rest present =>
        cases done
        apply moved.trans
        apply (Heap.compute_moves moved.formed first _).widen
        rw [present]
        simp

/-- A call that isolates its writes only moves its subjects. -/
theorem Call.moves (formed : heap.Formed) {call : Call Host Device}
    (isolates : call.Isolates transfer heap) {next : Heap Host Device}
    (done : call.perform transfer heap = .ok next) :
    Heap.Moves transfer call.subjects heap next := by
  cases call with
  | setDevices devices =>
      rw [Call.perform] at done
      split at done
      case isTrue => cases done
      case isFalse =>
        cases done
        exact .still formed rfl rfl rfl rfl
  | loadContext =>
      cases done
      split
      case isTrue => exact .refl formed
      case isFalse => exact .still formed rfl rfl rfl rfl
  | encrypt host =>
      cases done
      exact Heap.wrap_moves formed host
  | clone source =>
      cases done
      exact Heap.clone_moves formed source
  | loadCiphertext name =>
      exact Heap.loadCiphertext_moves formed done (Or.inl (List.mem_singleton_self name))
  | unloadCiphertext name =>
      cases done
      apply Heap.unloadCiphertext_moves formed
      intro loaded
      apply isolates.detaches
      simp [Call.hostWrites, loaded]
  | getElements name =>
      cases done
      apply Heap.ensureUpToDateCpuCopy_moves formed
      intro loaded
      apply isolates.detaches
      simp [Call.hostWrites, loaded]
  | decrypt name fresh =>
      cases done
      apply Heap.decrypt_moves formed
      intro device host found stored room
      apply isolates.detaches
      simp [Call.hostWrites, found, stored, room]
  | set setter name =>
      cases done
      apply Heap.set_moves formed
      intro absent
      apply isolates.detaches
      simp [Call.hostWrites, absent]
  | evalNew function first operands => exact evalNew_moves formed isolates done
  | evalFastRotation rotations ct => exact evalFastRotation_moves formed isolates done
  | evalInPlace function ct operands => exact evalInPlace_moves formed isolates done
  | evalMutable function targets => exact evalMutable_moves formed isolates done
  | evalAddManyInPlace function entries => exact evalAddManyInPlace_moves formed isolates done
  | deserialize name host =>
      cases done
      exact Heap.deserialize_moves formed name host
  | destroy name =>
      cases done
      exact Heap.destroy_moves formed name

/-- A call that throws moves nothing. -/
theorem Call.after_moves (formed : heap.Formed) {call : Call Host Device}
    (isolates : call.Isolates transfer heap) :
    Heap.Moves transfer call.subjects heap (call.after transfer heap) := by
  unfold Call.after
  split
  case h_1 next done => exact Call.moves formed isolates done
  case h_2 => exact .refl formed

theorem initial_formed : (Heap.initial : Heap Host Device).Formed where
  pointers := by simp [Heap.initial]
  names := by simp [Heap.initial]

/-- Every heap that a program reaches is formed. -/
theorem run_formed (run : Run (step transfer) (Call.Isolates transfer) Heap.initial heap) :
    heap.Formed := by
  apply run.invariant Heap.Formed initial_formed
  rintro call before _ isolates rfl formed
  exact (Call.after_moves formed isolates).formed

/-- Each call of a list isolates its writes where it runs. -/
def Isolated (transfer : Transfer Host Device) :
    List (Call Host Device) → Heap Host Device → Prop
  | [], _ => True
  | call :: rest, heap =>
      call.Isolates transfer heap ∧ Isolated transfer rest (call.after transfer heap)

/-- No call changes the value of an object that it is not about. -/
theorem performAll_moves {among : List Name} (formed : heap.Formed)
    (calls : List (Call Host Device)) (isolated : Isolated transfer calls heap)
    (about : ∀ call ∈ calls, call.subjects ⊆ among) :
    Heap.Moves transfer among heap (performAll transfer calls heap) := by
  induction calls generalizing heap with
  | nil => exact .refl formed
  | cons call rest ih =>
      obtain ⟨isolates, later⟩ := isolated
      have first : Heap.Moves transfer among heap (call.after transfer heap) :=
        (Call.after_moves formed isolates).widen (about call (List.mem_cons_self ..))
      exact first.trans (ih first.formed later fun next member =>
        about next (List.mem_cons_of_mem _ member))

/-- In a run whose calls isolate their writes, calls about other objects never change the value of
an object. -/
theorem value_semantics (transfer : Transfer Host Device)
    (run : Run (step transfer) (Call.Isolates transfer) Heap.initial heap)
    (calls : List (Call Host Device)) (isolated : Isolated transfer calls heap) (name : Name)
    (live : (heap.objects name).isSome) (other : ∀ call ∈ calls, name ∉ call.subjects) :
    ((performAll transfer calls heap).objects name).isSome ∧
      (performAll transfer calls heap).value transfer name = heap.value transfer name := by
  have moves : Heap.Moves transfer (calls.flatMap Call.subjects) heap
      (performAll transfer calls heap) :=
    performAll_moves (run_formed run) calls isolated fun call member _ subject =>
      List.mem_flatMap_of_mem member subject
  have outside : name ∉ calls.flatMap Call.subjects := by
    rw [List.mem_flatMap]
    rintro ⟨call, member, subject⟩
    exact other call member subject
  exact ⟨moves.stays name outside live, moves.values name outside live⟩

/-- This transfer copies a number to the device and back. -/
def copies : Transfer Nat Nat := ⟨id, fun device _ => device, fun _ _ => true, fun device _ => device⟩

/-- The host path negates a number in place, and so does the kernel. -/
def negate : InPlace Nat Nat :=
  evalNegateInPlace (fun hosts => .written (10 - hosts.headD 0)) fun devices => 10 - devices.headD 0

/-- The original keeps its value when its marked clone is negated on the host. -/
theorem value_semantics_clone :
    ((performAll copies [.evalInPlace negate 1 []]
      (performAll copies [.encrypt 7, .clone 0] Heap.initial)).objects 0).isSome ∧
    (performAll copies [.evalInPlace negate 1 []]
      (performAll copies [.encrypt 7, .clone 0] Heap.initial)).value copies 0 =
      (performAll copies [.encrypt 7, .clone 0] Heap.initial).value copies 0 := by
  have quiet : ∀ (call : Call Nat Nat) (heap : Heap Nat Nat), call.hostWrites copies heap = [] →
      call.constOperands = [] → call.Isolates copies heap := by
    intro call heap writes operands
    constructor
    · simp [writes]
    · simp [operands]
  have run : Run (step copies) (Call.Isolates copies) Heap.initial
      (performAll copies [.encrypt 7, .clone 0] Heap.initial) :=
    .next (.next .start (quiet (.encrypt 7) _ rfl rfl) rfl) (quiet (.clone 0) _ rfl rfl) rfl
  apply value_semantics copies run
  · refine ⟨⟨?_, ?_⟩, trivial⟩
    · intro name writes
      have marked : name = 1 := List.mem_singleton.mp writes
      subst marked
      exact Or.inl ⟨⟨true, 0, none⟩, rfl, rfl⟩
    · intro onDevice
      exact absurd rfl onDevice
  · rfl
  · decide

/-- A negated original changes its clone, on the host and when a device copy comes back. -/
theorem negated_original_changes_clone :
    (performAll copies [.encrypt 7, .clone 0] Heap.initial).value copies 1 = some 7 ∧
      (performAll copies [.encrypt 7, .clone 0, .evalInPlace negate 0 []]
        Heap.initial).value copies 1 = some 3 ∧
      (performAll copies [.setDevices [0], .loadContext, .encrypt 7, .clone 0,
        .evalInPlace negate 0 [], .unloadCiphertext 0] Heap.initial).value copies 1 = some 3 := by
  decide

end Fideslib.HostSharing

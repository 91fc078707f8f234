/-
This file models the captured graphs of the key switch on one device.
-/

import Mathlib

namespace Fideslib
namespace CapturedGraphs

/-- A pointer table of one polynomial, which the unique id of the polynomial names. -/
inductive PointerTable
  | DIGITlimbptr (uid digit : Nat)
  | limbptr (uid : Nat)
  deriving DecidableEq

/-- The operands of one key switch, each given by its unique id. -/
structure KeySwitchOperands where
  ksk_a : Nat
  ksk_b : Nat
  auxLimbs1 : Nat
  auxLimbs2 : Nat
  c0 : Nat
  c1 : Nat
  deriving DecidableEq

/-- The operands of one digit extension, each given by its unique id. -/
structure ModUpOperands where
  c0 : Nat
  c1 : Nat
  deriving DecidableEq

/-- A graph works on the buffers of the operands that its capture saw, and reads one digit table. -/
structure Graph (Digits Operands : Type) where
  digits : Digits
  operands : Operands
  deriving DecidableEq

/-- A cache entry holds the last captured graph, its executable, and the recorded operands. -/
structure cached_graph (Digits Operands : Type) where
  first : Graph Digits Operands
  second : Option (Graph Digits Operands)
  digits : Digits
  buff : Operands
  deriving DecidableEq

section Entry

variable {Digits Operands : Type} [DecidableEq Operands]

/-- An update makes the executable equal to the graph, or reports a failure. -/
def cudaGraphExecUpdate (exec : Option (Graph Digits Operands)) (graph : Graph Digits Operands)
    (success : Bool) : Option (Graph Digits Operands) × Bool :=
  if success then (exec.map fun _ => graph, true) else (exec, false)

/-- An instantiation gives an executable equal to the graph. -/
def cudaGraphInstantiateWithFlags (graph : Graph Digits Operands) :
    Option (Graph Digits Operands) :=
  some graph

/-- A recorded identity of all operands skips the capture. -/
def skip (found : Option (cached_graph Digits Operands)) (operands : Operands) : Bool :=
  match found with
  | some graph_data => graph_data.buff = operands
  | none => false

/-- A capture updates the executable of an old entry in place and fills a new one. -/
def capture (found : Option (cached_graph Digits Operands)) (digits : Digits)
    (operands : Operands) (success : Bool) : cached_graph Digits Operands :=
  let graph := Graph.mk digits operands
  match found with
  | some exec_old =>
      let result := cudaGraphExecUpdate exec_old.second graph success
      let updated := { exec_old with first := graph, second := result.1 }
      if result.2 then updated
      else { updated with second := cudaGraphInstantiateWithFlags updated.first }
  | none =>
      let emplaced : cached_graph Digits Operands :=
        { first := graph, second := none, digits := digits, buff := operands }
      { emplaced with second := cudaGraphInstantiateWithFlags emplaced.first }

/-- A call leaves the entry whose executable it launches. -/
def launchEntry (found : Option (cached_graph Digits Operands)) (digits : Digits)
    (operands : Operands) (success : Bool) : cached_graph Digits Operands :=
  match found with
  | some graph_data =>
      if skip found operands then graph_data else capture found digits operands success
  | none => capture found digits operands success

end Entry

/-- The context of a call: the parameters that key the caches and the sizes of its digits. -/
structure ContextData (Parameters : Type) where
  param : Parameters
  DECOMPmeta : List Nat

variable {Parameters : Type}

/-- The decomposition has one list of limbs for each digit. -/
def ContextData.dnum (cc : ContextData Parameters) : Nat := cc.DECOMPmeta.length

/-- The digits are counted until their limbs cover the level. -/
def usedDigits (level : Int) : List Nat → Nat → Nat
  | [], _ => 0
  | size :: sizes, start =>
      if (start : Int) < level + 1 then usedDigits level sizes (start + size) + 1 else 0

def num_d (cc : ContextData Parameters) (level : Int) : Nat := usedDigits level cc.DECOMPmeta 0

/-- One of the six blocks of the digit table. -/
def digitBlock (cc : ContextData Parameters) (level : Int) (pointer : Nat → PointerTable) :
    List (Option PointerTable) :=
  (List.range cc.dnum).map fun j => if j < num_d cc level then some (pointer j) else none

/-- The digit table of a call lists the pointer tables of its own operands. -/
def h_digits (cc : ContextData Parameters) (level : Int) (operands : KeySwitchOperands) :
    List (Option PointerTable) :=
  digitBlock cc level (.DIGITlimbptr operands.c1) ++
    digitBlock cc level (.DIGITlimbptr operands.ksk_a) ++
    digitBlock cc level (.DIGITlimbptr operands.ksk_b) ++
    digitBlock cc level (fun _ => .limbptr operands.c1) ++
    digitBlock cc level (fun _ => .limbptr operands.ksk_a) ++
    digitBlock cc level (fun _ => .limbptr operands.ksk_b)

/-- The static caches of both functions and the device memory of the digit tables. -/
structure Caches (Parameters : Type) where
  keySwitch : Parameters × Int × Bool → Option (cached_graph Nat KeySwitchOperands)
  modUp : Parameters × Int → Option (cached_graph Unit ModUpOperands)
  tables : Nat → List (Option PointerTable)
  allocated : Nat

/-- The caches are empty before the first call. -/
def Caches.empty : Caches Parameters :=
  { keySwitch := fun _ => none, modUp := fun _ => none, tables := fun _ => [], allocated := 0 }

/-- A call gives the operands of its launch and whether an update of its executable succeeds. -/
inductive Call (Parameters : Type)
  | modup_ksk_moddown_mgpu (cc : ContextData Parameters) (level : Int) (moddown : Bool)
      (operands : KeySwitchOperands) (success : Bool)
  | modupMGPU (cc : ContextData Parameters) (level : Int) (operands : ModUpOperands)
      (success : Bool)

/-- A launch runs one executable, with the digit table that its nodes read. -/
inductive Launch
  | keySwitch (exec : Option (Graph Nat KeySwitchOperands)) (table : List (Option PointerTable))
  | modUp (exec : Option (Graph Unit ModUpOperands))
  deriving DecidableEq

/-- The digit table of an entry is allocated with the entry. -/
def Caches.digits (caches : Caches Parameters) (key : Parameters × Int × Bool) : Nat :=
  match caches.keySwitch key with
  | some exec_old => exec_old.digits
  | none => caches.allocated

variable [DecidableEq Parameters]

/-- The key switch copies its digit table, and then captures or launches its entry. -/
def modup_ksk_moddown_mgpu (cc : ContextData Parameters) (level : Int) (moddown : Bool)
    (operands : KeySwitchOperands) (success : Bool) (caches : Caches Parameters) :
    Caches Parameters × Launch :=
  let key := (cc.param, level, moddown)
  let exec_old := caches.keySwitch key
  let digits := caches.digits key
  let tables := Function.update caches.tables digits (h_digits cc level operands)
  let entry := launchEntry exec_old digits operands success
  ({ caches with
      keySwitch := Function.update caches.keySwitch key (some entry)
      tables := tables
      allocated := if exec_old.isSome then caches.allocated else caches.allocated + 1 },
    .keySwitch entry.second (entry.second.elim [] fun exec => tables exec.digits))

/-- The digit extension captures or launches its entry; its graphs read no digit table. -/
def modupMGPU (cc : ContextData Parameters) (level : Int) (operands : ModUpOperands)
    (success : Bool) (caches : Caches Parameters) : Caches Parameters × Launch :=
  let exec_old := caches.modUp (cc.param, level)
  let entry := launchEntry exec_old () operands success
  ({ caches with modUp := Function.update caches.modUp (cc.param, level) (some entry) },
    .modUp entry.second)

/-- One call moves the caches and launches a graph. -/
def Call.run (caches : Caches Parameters) : Call Parameters → Caches Parameters × Launch
  | .modup_ksk_moddown_mgpu cc level moddown operands success =>
      CapturedGraphs.modup_ksk_moddown_mgpu cc level moddown operands success caches
  | .modupMGPU cc level operands success =>
      CapturedGraphs.modupMGPU cc level operands success caches

/-- The caches after a sequence of calls. -/
def after (calls : List (Call Parameters)) : Caches Parameters :=
  calls.foldl (fun caches call => (call.run caches).1) .empty

/-- The cache entry of a call. -/
def Call.entry : Call Parameters → (Parameters × Int × Bool) ⊕ (Parameters × Int)
  | .modup_ksk_moddown_mgpu cc level moddown _ _ => .inl (cc.param, level, moddown)
  | .modupMGPU cc level _ _ => .inr (cc.param, level)

/-- The operand identities of a call. -/
def Call.operands : Call Parameters → KeySwitchOperands ⊕ ModUpOperands
  | .modup_ksk_moddown_mgpu _ _ _ operands _ => .inl operands
  | .modupMGPU _ _ operands _ => .inr operands

/-- A launch of a call on the buffers and the digit table of its own operands. -/
def Call.ownLaunch : Call Parameters → Launch → Prop
  | .modup_ksk_moddown_mgpu cc level _ operands _, launch =>
      ∃ exec, launch = .keySwitch (some exec) (h_digits cc level operands) ∧
        exec.operands = operands
  | .modupMGPU _ _ operands _, launch =>
      ∃ exec, launch = .modUp (some exec) ∧ exec.operands = operands

/-- The recorded identities of an entry are those of its executable. -/
def cached_graph.Recorded {Digits Operands : Type} (entry : cached_graph Digits Operands) : Prop :=
  ∃ exec, entry.second = some exec ∧ exec.operands = entry.buff

/-- Every entry of both caches records the operands of its executable. -/
def Caches.Recorded (caches : Caches Parameters) : Prop :=
  (∀ key entry, caches.keySwitch key = some entry → entry.Recorded) ∧
    ∀ key entry, caches.modUp key = some entry → entry.Recorded

/-- Each call of a sequence launches its own operands and leaves every recorded identity right. -/
def GraphsMatch (calls : List (Call Parameters)) : Prop :=
  ∀ before call later, calls = before ++ call :: later →
    call.ownLaunch (call.run (after before)).2 ∧ (call.run (after before)).1.Recorded

/-- The calls of each cache entry all have the same operands. -/
def OneOperandSetPerEntry (calls : List (Call Parameters)) : Prop :=
  ∀ first ∈ calls, ∀ second ∈ calls, first.entry = second.entry →
    first.operands = second.operands

section History

variable {Digits Operands : Type} [DecidableEq Operands]

omit [DecidableEq Parameters]

/-- The operands of the executable after an entry saw its first operands and further ones. -/
def latest (first : Operands) (rest : List Operands) : Operands :=
  rest.foldl (fun executable operands => if operands = first then executable else operands) first

theorem latest_snoc (first operands : Operands) (rest : List Operands) :
    latest first (rest ++ [operands]) =
      if operands = first then latest first rest else operands := by
  rw [latest, List.foldl_append]
  rfl

/-- The executable keeps the first operands exactly when no others came. -/
theorem latest_eq_first_iff (first : Operands) (rest : List Operands) :
    latest first rest = first ↔ ∀ operands ∈ rest, operands = first := by
  induction rest using List.reverseRecOn with
  | nil => simp [latest]
  | append_singleton rest operands ih =>
      rw [latest_snoc]
      by_cases same : operands = first
      · simp [same, ih, or_imp]
      · simp [same]

/-- An entry records the first operands of its history and executes the latest other ones. -/
def Describes (found : Option (cached_graph Digits Operands)) : List Operands → Prop
  | [] => found = none
  | first :: rest => ∃ entry, found = some entry ∧ entry.buff = first ∧
      entry.second = some ⟨entry.digits, latest first rest⟩

/-- The operands of the graph that a call launches after a history of its entry. -/
def launched (operands : Operands) : List Operands → Operands
  | [] => operands
  | first :: rest => latest first (rest ++ [operands])

/-- A launch is on its own operands unless it returns to the first ones after others. -/
theorem launched_eq_iff (operands : Operands) (history : List Operands) :
    launched operands history = operands ↔
      (history.head? = some operands → ∀ other ∈ history, other = operands) := by
  cases history with
  | nil => simp [launched]
  | cons first rest =>
      rw [launched, latest_snoc]
      by_cases same : operands = first
      · subst same
        simpa using latest_eq_first_iff operands rest
      · simp [same, Ne.symm same]

/-- One call extends the history of its entry and launches its executable. -/
theorem launchEntry_describes {found : Option (cached_graph Digits Operands)} {digits : Digits}
    {history : List Operands} (operands : Operands) (success : Bool)
    (described : Describes found history)
    (table : ∀ entry, found = some entry → entry.digits = digits) :
    Describes (some (launchEntry found digits operands success)) (history ++ [operands]) ∧
      (launchEntry found digits operands success).second =
        some ⟨digits, launched operands history⟩ := by
  cases history with
  | nil =>
      obtain rfl : found = none := described
      exact ⟨⟨_, rfl, rfl, rfl⟩, rfl⟩
  | cons first rest =>
      obtain ⟨entry, rfl, recorded, executes⟩ := described
      obtain rfl := table entry rfl
      by_cases same : operands = first
      · have kept : launchEntry (some entry) entry.digits operands success = entry := by
          simp [launchEntry, skip, recorded, same]
        rw [kept, launched, latest_snoc, if_pos same, List.cons_append]
        refine ⟨⟨entry, rfl, recorded, ?_⟩, executes⟩
        rw [latest_snoc, if_pos same, executes]
      · have moved : launchEntry (some entry) entry.digits operands success =
            { entry with first := ⟨entry.digits, operands⟩,
                         second := some ⟨entry.digits, operands⟩ } := by
          cases success <;>
            simp [launchEntry, skip, recorded, Ne.symm same, capture, cudaGraphExecUpdate,
              cudaGraphInstantiateWithFlags, executes]
        rw [moved, launched, latest_snoc, if_neg same, List.cons_append]
        refine ⟨⟨_, rfl, recorded, ?_⟩, rfl⟩
        rw [latest_snoc, if_neg same]

/-- A described entry records its executable exactly when its history has one operand set. -/
theorem Describes.recorded_iff {found : Option (cached_graph Digits Operands)}
    {history : List Operands} (described : Describes found history) :
    (∀ entry, found = some entry → entry.Recorded) ↔
      ∀ first ∈ history, ∀ second ∈ history, first = second := by
  cases history with
  | nil =>
      obtain rfl : found = none := described
      simp
  | cons first rest =>
      obtain ⟨entry, rfl, recorded, executes⟩ := described
      have unfolded : entry.Recorded ↔ latest first rest = first := by
        simp [cached_graph.Recorded, executes, recorded]
      have same : (∀ found, some entry = some found → found.Recorded) ↔ entry.Recorded :=
        ⟨fun all => all entry rfl, fun one found equal => Option.some.inj equal ▸ one⟩
      rw [same, unfolded, latest_eq_first_iff]
      constructor
      · intro kept a inA b inB
        have first_eq : ∀ operands ∈ first :: rest, operands = first := by simpa using kept
        rw [first_eq a inA, first_eq b inB]
      · intro all operands member
        exact all operands (List.mem_cons_of_mem _ member) first List.mem_cons_self

end History

/-- The operand sets of the key switches at one entry of their cache, in order. -/
def keySwitchHistory (key : Parameters × Int × Bool) (calls : List (Call Parameters)) :
    List KeySwitchOperands :=
  calls.filterMap fun
    | .modup_ksk_moddown_mgpu cc level moddown operands _ =>
        if (cc.param, level, moddown) = key then some operands else none
    | .modupMGPU _ _ _ _ => none

/-- The operand sets of the digit extensions at one entry of their cache, in order. -/
def modUpHistory (key : Parameters × Int) (calls : List (Call Parameters)) :
    List ModUpOperands :=
  calls.filterMap fun
    | .modup_ksk_moddown_mgpu _ _ _ _ _ => none
    | .modupMGPU cc level operands _ => if (cc.param, level) = key then some operands else none

/-- A history lists the operands of the calls at its entry. -/
theorem mem_keySwitchHistory (key : Parameters × Int × Bool) (calls : List (Call Parameters))
    (operands : KeySwitchOperands) :
    operands ∈ keySwitchHistory key calls ↔
      ∃ call ∈ calls, call.entry = .inl key ∧ call.operands = .inl operands := by
  rw [keySwitchHistory, List.mem_filterMap]
  refine exists_congr fun call => and_congr_right fun _ => ?_
  cases call <;> simp [Call.entry, Call.operands]

theorem mem_modUpHistory (key : Parameters × Int) (calls : List (Call Parameters))
    (operands : ModUpOperands) :
    operands ∈ modUpHistory key calls ↔
      ∃ call ∈ calls, call.entry = .inr key ∧ call.operands = .inr operands := by
  rw [modUpHistory, List.mem_filterMap]
  refine exists_congr fun call => and_congr_right fun _ => ?_
  cases call <;> simp [Call.entry, Call.operands]

theorem after_snoc (calls : List (Call Parameters)) (call : Call Parameters) :
    after (calls ++ [call]) = (call.run (after calls)).1 := by
  rw [after, List.foldl_append]
  rfl

/-- Each entry of the caches is described by the history of its calls. -/
def Caches.DescribedBy (caches : Caches Parameters) (calls : List (Call Parameters)) : Prop :=
  (∀ key, Describes (caches.keySwitch key) (keySwitchHistory key calls)) ∧
    ∀ key, Describes (caches.modUp key) (modUpHistory key calls)

/-- A key switch extends the history of its entry and launches with its own digit table. -/
theorem modup_ksk_moddown_mgpu_step (cc : ContextData Parameters) (level : Int) (moddown : Bool)
    (operands : KeySwitchOperands) (success : Bool) {caches : Caches Parameters}
    {calls : List (Call Parameters)} (described : caches.DescribedBy calls) :
    (modup_ksk_moddown_mgpu cc level moddown operands success caches).1.DescribedBy
        (calls ++ [.modup_ksk_moddown_mgpu cc level moddown operands success]) ∧
      ∃ digits, (modup_ksk_moddown_mgpu cc level moddown operands success caches).2 =
        .keySwitch
          (some ⟨digits, launched operands (keySwitchHistory (cc.param, level, moddown) calls)⟩)
          (h_digits cc level operands) := by
  obtain ⟨keySwitches, modUps⟩ := described
  have table : ∀ entry, caches.keySwitch (cc.param, level, moddown) = some entry →
      entry.digits = caches.digits (cc.param, level, moddown) := by
    intro entry found
    simp only [Caches.digits, found]
  obtain ⟨next, executes⟩ :=
    launchEntry_describes operands success (keySwitches (cc.param, level, moddown)) table
  refine ⟨⟨fun key => ?_, fun key => ?_⟩, caches.digits (cc.param, level, moddown), ?_⟩
  · by_cases same : (cc.param, level, moddown) = key
    · subst same
      simpa [modup_ksk_moddown_mgpu, keySwitchHistory] using next
    · simpa [modup_ksk_moddown_mgpu, keySwitchHistory, same, Ne.symm same] using keySwitches key
  · simpa [modup_ksk_moddown_mgpu, modUpHistory] using modUps key
  · simp [modup_ksk_moddown_mgpu, executes]

/-- A digit extension extends the history of its entry and launches its executable. -/
theorem modupMGPU_step (cc : ContextData Parameters) (level : Int) (operands : ModUpOperands)
    (success : Bool) {caches : Caches Parameters} {calls : List (Call Parameters)}
    (described : caches.DescribedBy calls) :
    (modupMGPU cc level operands success caches).1.DescribedBy
        (calls ++ [.modupMGPU cc level operands success]) ∧
      (modupMGPU cc level operands success caches).2 =
        .modUp (some ⟨(), launched operands (modUpHistory (cc.param, level) calls)⟩) := by
  obtain ⟨keySwitches, modUps⟩ := described
  have table : ∀ entry, caches.modUp (cc.param, level) = some entry → entry.digits = () :=
    fun _ _ => rfl
  obtain ⟨next, executes⟩ :=
    launchEntry_describes operands success (modUps (cc.param, level)) table
  refine ⟨⟨fun key => ?_, fun key => ?_⟩, ?_⟩
  · simpa [modupMGPU, keySwitchHistory] using keySwitches key
  · by_cases same : (cc.param, level) = key
    · subst same
      simpa [modupMGPU, modUpHistory] using next
    · simpa [modupMGPU, modUpHistory, same, Ne.symm same] using modUps key
  · simp [modupMGPU, executes]

/-- After every sequence of calls the caches are described by it. -/
theorem after_described (calls : List (Call Parameters)) :
    (after calls).DescribedBy calls := by
  induction calls using List.reverseRecOn with
  | nil => exact ⟨fun _ => rfl, fun _ => rfl⟩
  | append_singleton calls call ih =>
      rw [after_snoc]
      cases call with
      | modup_ksk_moddown_mgpu cc level moddown operands success =>
          exact (modup_ksk_moddown_mgpu_step cc level moddown operands success ih).1
      | modupMGPU cc level operands success =>
          exact (modupMGPU_step cc level operands success ih).1

/-- The operand sets of the calls at one entry of either cache, in order. -/
def history (entry : (Parameters × Int × Bool) ⊕ (Parameters × Int))
    (calls : List (Call Parameters)) : List (KeySwitchOperands ⊕ ModUpOperands) :=
  calls.filterMap fun call => if call.entry = entry then some call.operands else none

theorem history_keySwitch (key : Parameters × Int × Bool) (calls : List (Call Parameters)) :
    history (.inl key) calls = (keySwitchHistory key calls).map .inl := by
  rw [history, keySwitchHistory, List.map_filterMap]
  refine List.filterMap_congr fun call _ => ?_
  cases call <;> simp [Call.entry, Call.operands]

theorem history_modUp (key : Parameters × Int) (calls : List (Call Parameters)) :
    history (.inr key) calls = (modUpHistory key calls).map .inr := by
  rw [history, modUpHistory, List.map_filterMap]
  refine List.filterMap_congr fun call _ => ?_
  cases call <;> simp [Call.entry, Call.operands]

/-- A call launches its own operands unless it returns to the first ones of its entry. -/
theorem ownLaunch_iff (before : List (Call Parameters)) (call : Call Parameters) :
    call.ownLaunch (call.run (after before)).2 ↔
      ((history call.entry before).head? = some call.operands →
        ∀ other ∈ history call.entry before, other = call.operands) := by
  cases call with
  | modup_ksk_moddown_mgpu cc level moddown operands success =>
      obtain ⟨digits, launch⟩ :=
        (modup_ksk_moddown_mgpu_step cc level moddown operands success (after_described before)).2
      have own : (Call.modup_ksk_moddown_mgpu cc level moddown operands success).ownLaunch
            ((Call.modup_ksk_moddown_mgpu cc level moddown operands success).run
              (after before)).2 ↔
          launched operands (keySwitchHistory (cc.param, level, moddown) before) = operands := by
        rw [Call.run, launch]
        simp [Call.ownLaunch]
      rw [own, launched_eq_iff, Call.entry, Call.operands, history_keySwitch]
      simp
  | modupMGPU cc level operands success =>
      have launch := (modupMGPU_step cc level operands success (after_described before)).2
      have own : (Call.modupMGPU cc level operands success).ownLaunch
            ((Call.modupMGPU cc level operands success).run (after before)).2 ↔
          launched operands (modUpHistory (cc.param, level) before) = operands := by
        rw [Call.run, launch]
        simp [Call.ownLaunch]
      rw [own, launched_eq_iff, Call.entry, Call.operands, history_modUp]
      simp

omit [DecidableEq Parameters] in
/-- A call at a key switch entry has key switch operands. -/
theorem Call.keySwitch_operands {call : Call Parameters} {key : Parameters × Int × Bool}
    (found : call.entry = .inl key) : ∃ operands, call.operands = .inl operands := by
  cases call with
  | modup_ksk_moddown_mgpu cc level moddown operands success => exact ⟨operands, rfl⟩
  | modupMGPU cc level operands success => simp [Call.entry] at found

omit [DecidableEq Parameters] in
/-- A call at a digit extension entry has digit extension operands. -/
theorem Call.modUp_operands {call : Call Parameters} {key : Parameters × Int}
    (found : call.entry = .inr key) : ∃ operands, call.operands = .inr operands := by
  cases call with
  | modup_ksk_moddown_mgpu cc level moddown operands success => simp [Call.entry] at found
  | modupMGPU cc level operands success => exact ⟨operands, rfl⟩

/-- The recorded identities are right exactly when each entry has seen one operand set. -/
theorem after_recorded_iff (calls : List (Call Parameters)) :
    (after calls).Recorded ↔ OneOperandSetPerEntry calls := by
  obtain ⟨keySwitches, modUps⟩ := after_described calls
  have recorded : (after calls).Recorded ↔
      (∀ key, ∀ first ∈ keySwitchHistory key calls, ∀ second ∈ keySwitchHistory key calls,
        first = second) ∧
      ∀ key, ∀ first ∈ modUpHistory key calls, ∀ second ∈ modUpHistory key calls,
        first = second :=
    and_congr (forall_congr' fun key => (keySwitches key).recorded_iff)
      (forall_congr' fun key => (modUps key).recorded_iff)
  rw [recorded]
  simp only [mem_keySwitchHistory, mem_modUpHistory]
  constructor
  · rintro ⟨switches, extensions⟩ first firstIn second secondIn same
    cases entry : first.entry with
    | inl key =>
        obtain ⟨a, hasA⟩ := Call.keySwitch_operands entry
        obtain ⟨b, hasB⟩ := Call.keySwitch_operands (same.symm.trans entry)
        rw [hasA, hasB, switches key a ⟨first, firstIn, entry, hasA⟩ b
          ⟨second, secondIn, same.symm.trans entry, hasB⟩]
    | inr key =>
        obtain ⟨a, hasA⟩ := Call.modUp_operands entry
        obtain ⟨b, hasB⟩ := Call.modUp_operands (same.symm.trans entry)
        rw [hasA, hasB, extensions key a ⟨first, firstIn, entry, hasA⟩ b
          ⟨second, secondIn, same.symm.trans entry, hasB⟩]
  · intro one
    refine ⟨?_, ?_⟩
    · rintro key a ⟨first, firstIn, firstEntry, hasA⟩ b ⟨second, secondIn, secondEntry, hasB⟩
      have same := one first firstIn second secondIn (firstEntry.trans secondEntry.symm)
      exact Sum.inl.inj (hasA.symm.trans (same.trans hasB))
    · rintro key a ⟨first, firstIn, firstEntry, hasA⟩ b ⟨second, secondIn, secondEntry, hasB⟩
      have same := one first firstIn second secondIn (firstEntry.trans secondEntry.symm)
      exact Sum.inr.inj (hasA.symm.trans (same.trans hasB))

/-- The members of a history are the operands of the calls at its entry. -/
theorem mem_history (entry : (Parameters × Int × Bool) ⊕ (Parameters × Int))
    (calls : List (Call Parameters)) (operands : KeySwitchOperands ⊕ ModUpOperands) :
    operands ∈ history entry calls ↔
      ∃ call ∈ calls, call.entry = entry ∧ call.operands = operands := by
  simp [history]

/-- Two operand sets at one level. -/
def firstOperands : KeySwitchOperands :=
  { ksk_a := 0, ksk_b := 1, auxLimbs1 := 2, auxLimbs2 := 3, c0 := 4, c1 := 5 }

def secondOperands : KeySwitchOperands :=
  { ksk_a := 0, ksk_b := 1, auxLimbs1 := 2, auxLimbs2 := 3, c0 := 6, c1 := 7 }

/-- A key switch at level one of a context with two digits of one limb. -/
def switchOf (operands : KeySwitchOperands) : Call Nat :=
  .modup_ksk_moddown_mgpu { param := 0, DECOMPmeta := [1, 1] } 1 true operands true

end CapturedGraphs
end Fideslib

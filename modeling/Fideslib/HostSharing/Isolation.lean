/-
This file proves that detached host ciphertexts keep the value of every other object.
-/

import Fideslib.HostSharing.Calls

namespace Fideslib.HostSharing

variable {Host Device : Type} (transfer : Transfer Host Device)

namespace Heap

/-- Every pointer and every name was handed out before. -/
structure Formed (heap : Heap Host Device) : Prop where
  pointers : ∀ name ct, heap.objects name = some ct → ct.cpu < heap.nextAddress
  names : ∀ name ct, heap.objects name = some ct → name < heap.nextName

/-- Only objects of a list share the host ciphertext of this object. -/
def Apart (heap : Heap Host Device) (among : List Name) (name : Name) : Prop :=
  ∀ other ct sharer, heap.objects name = some ct → heap.objects other = some sharer →
    sharer.cpu = ct.cpu → other ∈ among

/-- The object is marked, or only objects of a list share its host ciphertext. -/
def Detachable (heap : Heap Host Device) (among : List Name) (name : Name) : Prop :=
  (∃ ct, heap.objects name = some ct ∧ ct.needLazyCopy = true) ∨ heap.Apart among name

/-- The upload of a host ciphertext loses nothing that a client reads back. -/
def RoundTrips (heap : Heap Host Device) (name : Name) : Prop :=
  ∀ host, heap.hostOf name = some host → transfer.download (transfer.upload host) host = host

/-- A move keeps the heap formed and the value of every object outside a list. -/
structure Moves (among : List Name) (before after : Heap Host Device) : Prop where
  formed : after.Formed
  names : before.nextName ≤ after.nextName
  stays : ∀ name, name ∉ among → (before.objects name).isSome → (after.objects name).isSome
  values : ∀ name, name ∉ among → (before.objects name).isSome →
    after.value transfer name = before.value transfer name

variable {transfer} {among : List Name} {before middle after heap : Heap Host Device}

theorem Moves.refl (formed : heap.Formed) : Moves transfer among heap heap where
  formed := formed
  names := le_rfl
  stays _ _ live := live
  values _ _ _ := rfl

/-- A change of the context's own fields moves no object. -/
theorem Moves.still (formed : before.Formed) (objects : after.objects = before.objects)
    (hosts : after.hosts = before.hosts) (pointers : after.nextAddress = before.nextAddress)
    (names : after.nextName = before.nextName) : Moves transfer among before after := by
  have values : ∀ name, after.value transfer name = before.value transfer name := by
    intro name
    unfold value deviceOf hostOf
    rw [objects, hosts]
  constructor
  case formed =>
    constructor
    · rw [objects, pointers]
      exact formed.pointers
    · rw [objects, names]
      exact formed.names
  case names => exact names.ge
  case stays =>
    rw [objects]
    exact fun _ _ known => known
  case values => exact fun name _ _ => values name

theorem Moves.trans (first : Moves transfer among before middle)
    (second : Moves transfer among middle after) : Moves transfer among before after where
  formed := second.formed
  names := first.names.trans second.names
  stays name outside live := second.stays name outside (first.stays name outside live)
  values name outside live := by
    rw [second.values name outside (first.stays name outside live),
      first.values name outside live]

theorem Moves.widen {wider : List Name} (moves : Moves transfer among before after)
    (within : among ⊆ wider) : Moves transfer wider before after where
  formed := moves.formed
  names := moves.names
  stays name outside live := moves.stays name (fun inside => outside (within inside)) live
  values name outside live := moves.values name (fun inside => outside (within inside)) live

/-- A move of one object that keeps its own value keeps every value. -/
theorem Moves.own {name : Name} (moves : Moves transfer [name] before after)
    (stays : (before.objects name).isSome → (after.objects name).isSome)
    (value : after.value transfer name = before.value transfer name) :
    Moves transfer among before after where
  formed := moves.formed
  names := moves.names
  stays other _ known := by
    by_cases same : other = name
    · exact same ▸ stays (same ▸ known)
    · exact moves.stays other (by simpa using same) known
  values other _ known := by
    by_cases same : other = name
    · exact same ▸ value
    · exact moves.values other (by simpa using same) known

/-- A move of a name that no object has yet keeps every value. -/
theorem Moves.fresh (formed : before.Formed)
    (moves : Moves transfer (before.nextName :: among) before after) :
    Moves transfer among before after := by
  have old : ∀ name, name ∉ among → (before.objects name).isSome →
      name ∉ before.nextName :: among := by
    intro name outside known
    obtain ⟨ct, live⟩ := Option.isSome_iff_exists.mp known
    have below := formed.names name ct live
    rw [List.mem_cons, not_or]
    exact ⟨Nat.ne_of_lt below, outside⟩
  constructor
  case formed => exact moves.formed
  case names => exact moves.names
  case stays => exact fun name outside known => moves.stays name (old name outside known) known
  case values => exact fun name outside known => moves.values name (old name outside known) known

/-- A value only depends on the object and on the host ciphertext behind its pointer. -/
theorem value_congr {name : Name} (same : after.objects name = before.objects name)
    (stored : ∀ ct, before.objects name = some ct → after.hosts ct.cpu = before.hosts ct.cpu) :
    after.value transfer name = before.value transfer name := by
  unfold value deviceOf hostOf
  rw [same]
  cases live : before.objects name with
  | none => rfl
  | some ct => simp only [Option.bind_some, stored ct live]

/-- An object that is not the changed one stays as it was. -/
@[simp] theorem setObject_objects_ne {name other : Name} (different : other ≠ name)
    (ct : CiphertextImpl Device) : (heap.setObject name ct).objects other = heap.objects other :=
  Function.update_of_ne different _ _

@[simp] theorem setObject_objects_self (name : Name) (ct : CiphertextImpl Device) :
    (heap.setObject name ct).objects name = some ct :=
  Function.update_self _ _ _

/-- A new host ciphertext is behind no pointer yet. -/
theorem Formed.allocate_hosts (formed : heap.Formed) (host : Option Host) {name : Name}
    {ct : CiphertextImpl Device} (live : heap.objects name = some ct) :
    (heap.allocate host).hosts ct.cpu = heap.hosts ct.cpu :=
  Function.update_of_ne (Nat.ne_of_lt (formed.pointers name ct live)) _ _

theorem Formed.setObject (formed : heap.Formed) {name : Name} {old ct : CiphertextImpl Device}
    (live : heap.objects name = some old) (pointer : ct.cpu < heap.nextAddress) :
    (heap.setObject name ct).Formed := by
  constructor
  case pointers =>
    intro other record stored
    by_cases same : other = name
    · subst same
      rw [setObject_objects_self] at stored
      cases stored
      exact pointer
    · rw [setObject_objects_ne same] at stored
      exact formed.pointers other record stored
  case names =>
    intro other record stored
    by_cases same : other = name
    · exact same ▸ formed.names name old live
    · rw [setObject_objects_ne same] at stored
      exact formed.names other record stored

theorem Formed.allocate (formed : heap.Formed) (host : Option Host) :
    (heap.allocate host).Formed where
  pointers name ct live := Nat.lt_succ_of_lt (formed.pointers name ct live)
  names := formed.names

theorem Formed.ensureLazyCpuCopy (formed : heap.Formed) (name : Name) :
    (heap.ensureLazyCpuCopy name).Formed := by
  unfold Heap.ensureLazyCpuCopy
  split
  case h_1 => exact formed
  case h_2 ct live =>
    split
    case isFalse => exact formed
    case isTrue => exact (formed.allocate _).setObject live (Nat.lt_succ_self _)

/-- An object that takes a new record keeps the other values. -/
theorem setObject_moves (formed : heap.Formed) {name : Name} {old ct : CiphertextImpl Device}
    (live : heap.objects name = some old) (pointer : ct.cpu < heap.nextAddress) :
    Moves transfer [name] heap (heap.setObject name ct) where
  formed := formed.setObject live pointer
  names := le_rfl
  stays other outside known := by
    rw [setObject_objects_ne (List.ne_of_not_mem_cons outside)]
    exact known
  values other outside known :=
    value_congr (setObject_objects_ne (List.ne_of_not_mem_cons outside) ct) fun _ _ => rfl

/-- A new host ciphertext changes no value. -/
theorem allocate_moves (formed : heap.Formed) (host : Option Host) :
    Moves transfer [] heap (heap.allocate host) where
  formed := formed.allocate host
  names := le_rfl
  stays _ _ known := known
  values _ _ _ := value_congr rfl fun _ live => formed.allocate_hosts host live

/-- A new object changes no value. -/
theorem create_moves (formed : heap.Formed) {ct : CiphertextImpl Device}
    (pointer : ct.cpu < heap.nextAddress) : Moves transfer [] heap (heap.create ct) where
  formed := by
    constructor
    case pointers =>
      intro other record stored
      by_cases same : other = heap.nextName
      · subst same
        have made : (heap.setObject heap.nextName ct).objects heap.nextName = some record := stored
        rw [setObject_objects_self] at made
        cases made
        exact pointer
      · have kept : (heap.setObject heap.nextName ct).objects other = some record := stored
        rw [setObject_objects_ne same] at kept
        exact formed.pointers other record kept
    case names =>
      intro other record stored
      by_cases same : other = heap.nextName
      · exact same ▸ Nat.lt_succ_self _
      · have kept : (heap.setObject heap.nextName ct).objects other = some record := stored
        rw [setObject_objects_ne same] at kept
        exact Nat.lt_succ_of_lt (formed.names other record kept)
  names := Nat.le_succ _
  stays other _ known := by
    obtain ⟨record, stored⟩ := Option.isSome_iff_exists.mp known
    have old : other ≠ heap.nextName := Nat.ne_of_lt (formed.names other record stored)
    change ((heap.setObject heap.nextName ct).objects other).isSome
    rw [setObject_objects_ne old]
    exact known
  values other _ known := by
    obtain ⟨record, stored⟩ := Option.isSome_iff_exists.mp known
    have old : other ≠ heap.nextName := Nat.ne_of_lt (formed.names other record stored)
    exact value_congr (setObject_objects_ne old ct) fun _ _ => rfl

/-- An object that points to a new host ciphertext keeps the other values. -/
theorem repoint_moves (formed : heap.Formed) {name : Name} {old ct : CiphertextImpl Device}
    (live : heap.objects name = some old) (host : Option Host)
    (pointer : ct.cpu = heap.nextAddress) :
    Moves transfer [name] heap ((heap.allocate host).setObject name ct) := by
  have allocated : Moves transfer [] heap (heap.allocate host) := allocate_moves formed host
  have changed : Moves transfer [name] (heap.allocate host)
      ((heap.allocate host).setObject name ct) :=
    setObject_moves allocated.formed live (pointer ▸ Nat.lt_succ_self _)
  exact (allocated.widen (List.nil_subset _)).trans changed

theorem assign_moves (formed : heap.Formed) (name : Name) (host : Host) :
    Moves transfer [name] heap (heap.assign name host) := by
  unfold assign
  split
  case h_1 => exact .refl formed
  case h_2 ct live => exact repoint_moves formed live _ rfl

theorem compute_moves (formed : heap.Formed) (name : Name) (device : Device) :
    Moves transfer [name] heap (heap.compute name device) := by
  unfold compute
  split
  case h_1 => exact .refl formed
  case h_2 ct live => exact setObject_moves formed live (formed.pointers name ct live)

theorem wrap_moves (formed : heap.Formed) (host : Host) :
    Moves transfer [] heap (heap.wrap host) := by
  have allocated : Moves transfer [] heap (heap.allocate (some host)) :=
    allocate_moves formed (some host)
  exact allocated.trans (create_moves allocated.formed (Nat.lt_succ_self _))

theorem clone_moves (formed : heap.Formed) (source : Name) :
    Moves transfer [] heap (heap.clone source) := by
  unfold clone
  split
  case h_1 => exact .refl formed
  case h_2 other live => exact create_moves formed (formed.pointers source other live)

/-- A write changes the objects that share the host ciphertext and no other. -/
theorem write_moves (formed : heap.Formed) {name : Name} (apart : heap.Apart among name)
    (host : Host) : Moves transfer among heap (heap.write name host) := by
  unfold write
  split
  case h_1 => exact .refl formed
  case h_2 ct live =>
    constructor
    case formed => exact ⟨formed.pointers, formed.names⟩
    case names => exact le_rfl
    case stays => exact fun _ _ known => known
    case values =>
      intro other outside known
      have different : ∀ sharer, heap.objects other = some sharer → sharer.cpu ≠ ct.cpu :=
        fun sharer stored same => outside (apart other ct sharer live stored same)
      exact value_congr rfl fun sharer stored =>
        Function.update_of_ne (different sharer stored) _ _

/-- A write moves no pointer. -/
@[simp] theorem write_objects (name : Name) (host : Host) :
    (heap.write name host).objects = heap.objects := by
  unfold write
  split <;> rfl

/-- The copy that a marked object detaches equals what it shared. -/
theorem ensureLazyCpuCopy_hostOf (formed : heap.Formed) (name other : Name) :
    (heap.ensureLazyCpuCopy name).hostOf other = heap.hostOf other := by
  unfold ensureLazyCpuCopy
  split
  case h_1 => rfl
  case h_2 ct live =>
    split
    case isFalse => rfl
    case isTrue =>
      by_cases same : other = name
      · subst same
        unfold hostOf
        rw [setObject_objects_self, live]
        exact Function.update_self _ _ _
      · unfold hostOf
        rw [setObject_objects_ne same]
        change (heap.objects other).bind _ = _
        cases stored : heap.objects other with
        | none => rfl
        | some sharer => exact formed.allocate_hosts _ stored

theorem ensureLazyCpuCopy_deviceOf (name other : Name) :
    (heap.ensureLazyCpuCopy name).deviceOf other = heap.deviceOf other := by
  unfold ensureLazyCpuCopy
  split
  case h_1 => rfl
  case h_2 ct live =>
    split
    case isFalse => rfl
    case isTrue =>
      by_cases same : other = name
      · subst same
        unfold deviceOf
        rw [setObject_objects_self, live]
        rfl
      · unfold deviceOf
        rw [setObject_objects_ne same]
        rfl

/-- A detached copy changes no value. -/
theorem ensureLazyCpuCopy_moves (formed : heap.Formed) (name : Name) :
    Moves transfer [] heap (heap.ensureLazyCpuCopy name) := by
  have repointed : Moves transfer [name] heap (heap.ensureLazyCpuCopy name) := by
    unfold ensureLazyCpuCopy
    split
    case h_1 => exact .refl formed
    case h_2 ct live =>
      split
      case isFalse => exact .refl formed
      case isTrue => exact repoint_moves formed live _ rfl
  apply repointed.own
  · intro known
    unfold ensureLazyCpuCopy
    split
    case h_1 => exact known
    case h_2 ct live =>
      split
      case isFalse => exact known
      case isTrue => simp
  · unfold value
    rw [ensureLazyCpuCopy_deviceOf, ensureLazyCpuCopy_hostOf formed]

/-- An object with a new host ciphertext shares it with no other. -/
theorem Formed.repoint_apart (formed : heap.Formed) {name : Name} {ct : CiphertextImpl Device}
    (pointer : ct.cpu = heap.nextAddress) (host : Option Host) {other : Name}
    (apart : other = name ∧ name ∈ among ∨ other ≠ name ∧ heap.Apart among other) :
    ((heap.allocate host).setObject name ct).Apart among other := by
  have unused : ∀ third record, heap.objects third = some record → record.cpu ≠ ct.cpu := by
    intro third record stored
    rw [pointer]
    exact Nat.ne_of_lt (formed.pointers third record stored)
  intro third record sharer stored shared same
  obtain ⟨rfl, inside⟩ | ⟨different, apart⟩ := apart
  · rw [setObject_objects_self] at stored
    cases stored
    by_cases own : third = other
    · exact own ▸ inside
    · rw [setObject_objects_ne own] at shared
      exact absurd same (unused third sharer shared)
  · rw [setObject_objects_ne different] at stored
    by_cases own : third = name
    · subst own
      rw [setObject_objects_self] at shared
      cases shared
      exact absurd same.symm (unused other record stored)
    · rw [setObject_objects_ne own] at shared
      exact apart third record sharer stored shared same

theorem ensureLazyCpuCopy_keepsApart (formed : heap.Formed) (name : Name) {other : Name}
    (apart : heap.Apart among other) : (heap.ensureLazyCpuCopy name).Apart among other := by
  unfold ensureLazyCpuCopy
  split
  case h_1 => exact apart
  case h_2 ct live =>
    split
    case isFalse => exact apart
    case isTrue =>
      apply formed.repoint_apart rfl
      by_cases same : other = name
      · subst same
        exact Or.inl ⟨rfl, apart other ct ct live live rfl⟩
      · exact Or.inr ⟨same, apart⟩

/-- After the detachment a detachable object may be written. -/
theorem ensureLazyCpuCopy_apart (formed : heap.Formed) {name : Name} (inside : name ∈ among)
    (ready : heap.Detachable among name) : (heap.ensureLazyCpuCopy name).Apart among name := by
  obtain ⟨ct, live, marked⟩ | apart := ready
  · unfold ensureLazyCpuCopy
    simp only [live, marked, if_true]
    exact formed.repoint_apart rfl _ (Or.inl ⟨rfl, inside⟩)
  · exact ensureLazyCpuCopy_keepsApart formed name apart

/-- A write shares nothing anew. -/
theorem write_keepsApart (name : Name) (host : Host) {other : Name}
    (apart : heap.Apart among other) : (heap.write name host).Apart among other := by
  unfold Apart
  rw [write_objects]
  exact apart

theorem assign_keepsApart (formed : heap.Formed) (name : Name) (host : Host) {other : Name}
    (apart : heap.Apart among other) : (heap.assign name host).Apart among other := by
  unfold assign
  split
  case h_1 => exact apart
  case h_2 ct live =>
    apply formed.repoint_apart rfl
    by_cases same : other = name
    · subst same
      exact Or.inl ⟨rfl, apart other ct ct live live rfl⟩
    · exact Or.inr ⟨same, apart⟩

end Heap
end Fideslib.HostSharing

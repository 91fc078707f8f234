/-
This file proves which values each translated function keeps.
-/

import Fideslib.HostSharing.Isolation

namespace Fideslib.HostSharing

variable {Host Device : Type} {transfer : Transfer Host Device}

namespace Heap

variable {among : List Name} {heap : Heap Host Device}

/-- A detached object stays ready when another one is detached. -/
theorem Detachable.ensureLazyCpuCopy (formed : heap.Formed) {name other : Name}
    (different : other ≠ name) (ready : heap.Detachable among other) :
    (heap.ensureLazyCpuCopy name).Detachable among other := by
  obtain ⟨ct, live, marked⟩ | apart := ready
  · left
    use ct
    unfold Heap.ensureLazyCpuCopy
    split
    case h_1 => exact ⟨live, marked⟩
    case h_2 =>
      split
      case isFalse => exact ⟨live, marked⟩
      case isTrue =>
        rw [setObject_objects_ne different]
        exact ⟨live, marked⟩
  · exact Or.inr (ensureLazyCpuCopy_keepsApart formed name apart)

/-- All detached copies together change no value. -/
theorem detachAll_moves (formed : heap.Formed) (names : List Name) :
    Moves transfer [] heap (heap.detachAll names) := by
  induction names generalizing heap with
  | nil => exact .refl formed
  | cons name rest ih =>
      exact (ensureLazyCpuCopy_moves formed name).trans (ih (formed.ensureLazyCpuCopy name))

theorem detachAll_hostOf (formed : heap.Formed) (names : List Name) (other : Name) :
    (heap.detachAll names).hostOf other = heap.hostOf other := by
  induction names generalizing heap with
  | nil => rfl
  | cons name rest ih =>
      exact (ih (formed.ensureLazyCpuCopy name)).trans (ensureLazyCpuCopy_hostOf formed name other)

/-- After all detachments every detachable object of the list may be written. -/
theorem detachAll_apart (formed : heap.Formed) {names : List Name} (within : names ⊆ among)
    {other : Name} (ready : heap.Detachable among other)
    (covered : other ∈ names ∨ heap.Apart among other) :
    (heap.detachAll names).Apart among other := by
  induction names generalizing heap with
  | nil =>
      obtain impossible | apart := covered
      · cases impossible
      · exact apart
  | cons name rest ih =>
      have formedNext := formed.ensureLazyCpuCopy name
      have rests : rest ⊆ among := fun _ member => within (List.mem_cons_of_mem _ member)
      change ((heap.ensureLazyCpuCopy name).detachAll rest).Apart among other
      by_cases same : other = name
      · subst same
        have apart := ensureLazyCpuCopy_apart formed (within (List.mem_cons_self ..)) ready
        exact ih formedNext rests (Or.inr apart) (Or.inr apart)
      · apply ih formedNext rests (ready.ensureLazyCpuCopy formed same)
        obtain member | apart := covered
        · exact Or.inl ((List.mem_cons.mp member).resolve_left same)
        · exact Or.inr (ensureLazyCpuCopy_keepsApart formed name apart)

theorem detachAll_hostsOf (formed : heap.Formed) (names targets : List Name) :
    (heap.detachAll names).hostsOf targets = heap.hostsOf targets := by
  unfold hostsOf
  congr 1
  funext other
  exact detachAll_hostOf formed names other

theorem ensureLazyCpuCopy_hostsOf (formed : heap.Formed) (name : Name) (targets : List Name) :
    (heap.ensureLazyCpuCopy name).hostsOf targets = heap.hostsOf targets :=
  detachAll_hostsOf formed [name] targets

/-- OpenFHE's changes keep the values outside the list when it only writes what is apart. -/
theorem settle_moves (formed : heap.Formed) (change : Name × HostChange Host)
    (inside : change.1 ∈ among)
    (apart : ∀ host, change.2 = .written host → heap.Apart among change.1) :
    Moves transfer among heap (heap.settle change) := by
  obtain ⟨name, outcome⟩ := change
  cases outcome with
  | kept => exact .refl formed
  | written host => exact write_moves formed (apart host rfl) host
  | assigned host =>
      exact (assign_moves formed name host).widen (List.cons_subset.mpr ⟨inside, List.nil_subset _⟩)

theorem settle_keepsApart (formed : heap.Formed) (change : Name × HostChange Host) {other : Name}
    (apart : heap.Apart among other) : (heap.settle change).Apart among other := by
  obtain ⟨name, outcome⟩ := change
  cases outcome with
  | kept => exact apart
  | written host => exact write_keepsApart name host apart
  | assigned host => exact assign_keepsApart formed name host apart

theorem settleAll_moves (formed : heap.Formed) (changes : List (Name × HostChange Host))
    (inside : ∀ change ∈ changes, change.1 ∈ among)
    (apart : ∀ change ∈ changes, ∀ host, change.2 = .written host → heap.Apart among change.1) :
    Moves transfer among heap (changes.foldl settle heap) := by
  induction changes generalizing heap with
  | nil => exact .refl formed
  | cons change rest ih =>
      have first : Moves transfer among heap (heap.settle change) :=
        settle_moves formed change (inside change (List.mem_cons_self ..))
          (apart change (List.mem_cons_self ..))
      apply first.trans
      apply ih first.formed
      · exact fun later member => inside later (List.mem_cons_of_mem _ member)
      · exact fun later member host written => settle_keepsApart formed change
          (apart later (List.mem_cons_of_mem _ member) host written)

/-- A load that uploads only gives its object a device ciphertext. -/
theorem loadCiphertext_cases {name : Name} {next : Heap Host Device}
    (loads : heap.loadCiphertext transfer name = .ok next) :
    next = heap ∨ ∃ ct, heap.objects name = some ct ∧ ct.gpu = none ∧
      next = heap.setObject name { ct with gpu := (heap.hosts ct.cpu).map transfer.upload } := by
  unfold loadCiphertext at loads
  split at loads
  case isTrue => exact Or.inl (Except.ok.inj loads).symm
  case isFalse =>
    split at loads
    case h_1 => exact Or.inl (Except.ok.inj loads).symm
    case h_2 ct live =>
      split at loads
      case isTrue => exact Or.inl (Except.ok.inj loads).symm
      case isFalse unloaded =>
        split at loads
        case isFalse => cases loads
        case isTrue =>
          have absent : ct.gpu = none := by simpa [CiphertextImpl.loaded] using unloaded
          exact Or.inr ⟨ct, live, absent, (Except.ok.inj loads).symm⟩

/-- A load keeps every pointer and every host ciphertext. -/
theorem loadCiphertext_hostOf {name : Name} {next : Heap Host Device}
    (loads : heap.loadCiphertext transfer name = .ok next) (other : Name) :
    next.hostOf other = heap.hostOf other := by
  obtain rfl | ⟨ct, live, absent, rfl⟩ := loadCiphertext_cases loads
  · rfl
  · by_cases same : other = name
    · subst same
      unfold hostOf
      rw [setObject_objects_self, live]
      rfl
    · unfold hostOf
      rw [setObject_objects_ne same]
      rfl

/-- A load keeps the other values, and its own one when the upload loses nothing. -/
theorem loadCiphertext_moves (formed : heap.Formed) {name : Name} {next : Heap Host Device}
    (loads : heap.loadCiphertext transfer name = .ok next)
    (whole : name ∈ among ∨ (heap.deviceOf name = none → heap.RoundTrips transfer name)) :
    Moves transfer among heap next := by
  obtain rfl | ⟨ct, live, absent, rfl⟩ := loadCiphertext_cases loads
  · exact .refl formed
  · have moved : Moves transfer [name] heap
        (heap.setObject name { ct with gpu := (heap.hosts ct.cpu).map transfer.upload }) :=
      setObject_moves formed live (formed.pointers name ct live)
    obtain inside | trips := whole
    · exact moved.widen (List.cons_subset.mpr ⟨inside, List.nil_subset _⟩)
    · apply moved.own
      · simp
      · have unloaded : heap.deviceOf name = none := by
          rw [deviceOf, live]
          exact absent
        unfold value
        rw [unloaded, loadCiphertext_hostOf loads]
        cases stored : heap.hosts ct.cpu with
        | none => simp [deviceOf, hostOf, live, stored]
        | some host =>
            have own : heap.hostOf name = some host := by
              rw [hostOf, live]
              exact stored
            simp [deviceOf, own, trips unloaded host own]

/-- A load of another object leaves a loaded object loaded. -/
theorem loadCiphertext_deviceOf {name other : Name} {next : Heap Host Device}
    (loads : heap.loadCiphertext transfer name = .ok next) (absent : next.deviceOf other = none) :
    heap.deviceOf other = none := by
  obtain rfl | ⟨ct, live, unloaded, rfl⟩ := loadCiphertext_cases loads
  · exact absent
  · by_cases same : other = name
    · subst same
      rw [deviceOf, live]
      exact unloaded
    · unfold deviceOf at absent ⊢
      rwa [setObject_objects_ne same] at absent

theorem loadAll_moves (formed : heap.Formed) {names : List Name} {next : Heap Host Device}
    (loads : heap.loadAll transfer names = .ok next)
    (whole : ∀ name ∈ names,
      name ∈ among ∨ (heap.deviceOf name = none → heap.RoundTrips transfer name)) :
    Moves transfer among heap next := by
  induction names generalizing heap with
  | nil =>
      cases loads
      exact .refl formed
  | cons name rest ih =>
      unfold loadAll at loads
      split at loads
      case h_1 => cases loads
      case h_2 loaded first =>
        have moved : Moves transfer among heap loaded :=
          loadCiphertext_moves formed first (whole name (List.mem_cons_self ..))
        apply moved.trans
        apply ih moved.formed loads
        intro later member
        obtain inside | trips := whole later (List.mem_cons_of_mem _ member)
        · exact Or.inl inside
        · right
          intro absent host stored
          rw [loadCiphertext_hostOf first] at stored
          exact trips (loadCiphertext_deviceOf first absent) host stored

theorem computeAll_moves (formed : heap.Formed) (changes : List (Name × Device))
    (inside : ∀ change ∈ changes, change.1 ∈ among) :
    Moves transfer among heap
      (changes.foldl (fun heap change => heap.compute change.1 change.2) heap) := by
  induction changes generalizing heap with
  | nil => exact .refl formed
  | cons change rest ih =>
      have first : Moves transfer among heap (heap.compute change.1 change.2) :=
        (compute_moves formed change.1 change.2).widen
          (List.cons_subset.mpr ⟨inside change (List.mem_cons_self ..), List.nil_subset _⟩)
      exact first.trans (ih first.formed fun later member =>
        inside later (List.mem_cons_of_mem _ member))

/-- A device result is a new object, so it changes no value. -/
theorem copyInto_moves (formed : heap.Formed) (source : Name) (device : Device) :
    Moves transfer [] heap (heap.copyInto source device) := by
  have cloned : Moves transfer [] heap (heap.clone source) := clone_moves formed source
  have computed : Moves transfer [heap.nextName] (heap.clone source) (heap.copyInto source device) :=
    compute_moves cloned.formed heap.nextName device
  exact ((cloned.widen (List.nil_subset _)).trans computed).fresh formed

/-- A rotated copy on the host is a new object too. -/
theorem clone_assign_moves (formed : heap.Formed) (source : Name) (host : Host) :
    Moves transfer [] heap ((heap.clone source).assign heap.nextName host) := by
  have cloned : Moves transfer [] heap (heap.clone source) := clone_moves formed source
  have assigned : Moves transfer [heap.nextName] (heap.clone source)
      ((heap.clone source).assign heap.nextName host) :=
    assign_moves cloned.formed heap.nextName host
  exact ((cloned.widen (List.nil_subset _)).trans assigned).fresh formed

/-- A loop of moves is a move. -/
theorem foldl_moves {Item : Type} (change : Heap Host Device → Item → Heap Host Device)
    (moves : ∀ heap item, heap.Formed → Moves transfer among heap (change heap item))
    (formed : heap.Formed) (items : List Item) :
    Moves transfer among heap (items.foldl change heap) := by
  induction items generalizing heap with
  | nil => exact .refl formed
  | cons item rest ih =>
      have first := moves heap item formed
      exact first.trans (ih first.formed)

theorem ensureUpToDateCpuCopy_moves (formed : heap.Formed) {name : Name}
    (ready : (heap.deviceOf name).isSome → heap.Detachable [name] name) :
    Moves transfer [name] heap (heap.ensureUpToDateCpuCopy transfer name) := by
  unfold ensureUpToDateCpuCopy
  split
  case h_1 => exact .refl formed
  case h_2 device found =>
    have apart := ensureLazyCpuCopy_apart formed (List.mem_singleton_self name)
      (ready (by rw [found]; rfl))
    have detached : Moves transfer [name] heap (heap.ensureLazyCpuCopy name) :=
      (ensureLazyCpuCopy_moves formed name).widen (List.nil_subset _)
    dsimp only
    split
    case h_1 => exact detached
    case h_2 host _ => exact detached.trans (write_moves detached.formed apart _)

theorem unloadCiphertext_moves (formed : heap.Formed) {name : Name}
    (ready : (heap.deviceOf name).isSome → heap.Detachable [name] name) :
    Moves transfer [name] heap (heap.unloadCiphertext transfer name) := by
  have stored : Moves transfer [name] heap (heap.ensureUpToDateCpuCopy transfer name) :=
    ensureUpToDateCpuCopy_moves formed ready
  unfold unloadCiphertext
  dsimp only
  split
  case h_1 => exact stored
  case h_2 ct live =>
    exact stored.trans (setObject_moves stored.formed live (stored.formed.pointers name ct live))

theorem decrypt_moves (formed : heap.Formed) {name : Name} (fresh : Host)
    (ready : ∀ device host, heap.deviceOf name = some device → heap.hostOf name = some host →
      transfer.hasRoom device host = true → heap.Detachable [name] name) :
    Moves transfer [name] heap (heap.decrypt transfer name fresh) := by
  unfold decrypt
  split
  case h_1 => exact .refl formed
  case h_2 device found =>
    have detached : Moves transfer [name] heap (heap.ensureLazyCpuCopy name) :=
      (ensureLazyCpuCopy_moves formed name).widen (List.nil_subset _)
    dsimp only
    split
    case h_1 => exact detached
    case h_2 host stored =>
      rw [ensureLazyCpuCopy_hostOf formed] at stored
      split
      case isTrue room =>
        have apart := ensureLazyCpuCopy_apart formed (List.mem_singleton_self name)
          (ready device host found stored room)
        exact detached.trans (write_moves detached.formed apart _)
      case isFalse => exact detached.trans (assign_moves detached.formed name _)

theorem set_moves (formed : heap.Formed) (setter : Setter Host Device) {name : Name}
    (ready : heap.deviceOf name = none → heap.Detachable [name] name) :
    Moves transfer [name] heap (heap.set setter name) := by
  unfold set
  split
  case h_1 device _ => exact compute_moves formed name _
  case h_2 absent =>
    have apart := ensureLazyCpuCopy_apart formed (List.mem_singleton_self name) (ready absent)
    have detached : Moves transfer [name] heap (heap.ensureLazyCpuCopy name) :=
      (ensureLazyCpuCopy_moves formed name).widen (List.nil_subset _)
    dsimp only
    split
    case h_1 => exact detached
    case h_2 host _ => exact detached.trans (write_moves detached.formed apart _)

theorem deserialize_moves (formed : heap.Formed) (name : Name) (host : Host) :
    Moves transfer [name] heap (heap.deserialize name host) := by
  unfold deserialize
  split
  case h_1 => exact .refl formed
  case h_2 ct live => exact repoint_moves formed live _ rfl

theorem destroy_moves (formed : heap.Formed) (name : Name) :
    Moves transfer [name] heap (heap.destroy name) := by
  have old : ∀ other ct, (heap.destroy name).objects other = some ct →
      heap.objects other = some ct := by
    intro other ct live
    by_cases same : other = name
    · subst same
      have gone : (heap.destroy other).objects other = none := Function.update_self _ _ _
      rw [gone] at live
      cases live
    · have kept : (heap.destroy name).objects other = heap.objects other :=
        Function.update_of_ne same _ _
      rwa [kept] at live
  have kept : ∀ other, other ∉ [name] → (heap.destroy name).objects other = heap.objects other :=
    fun other outside => Function.update_of_ne (List.ne_of_not_mem_cons outside) _ _
  constructor
  case formed =>
    exact ⟨fun other ct live => formed.pointers other ct (old other ct live),
      fun other ct live => formed.names other ct (old other ct live)⟩
  case names => exact le_rfl
  case stays =>
    intro other outside known
    rwa [kept other outside]
  case values => exact fun other outside known => value_congr (kept other outside) fun _ _ => rfl

end Heap
end Fideslib.HostSharing

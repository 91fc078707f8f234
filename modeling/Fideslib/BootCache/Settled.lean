/-
This file proves that the groups of the bootstrap cache are saved or have always been resident.
-/

import Fideslib.BootCache.Cache

namespace Fideslib.BootCache

open Transfer

variable {Factor : Type} {limbBytes : RnsPoly Limb → Nat}

section Groups

variable {scheme : Scheme} {group : Group Factor}

/-- A snapshot records the uploaded plaintexts of a group, and a reload gives them back. -/
structure Saved (scheme : Scheme) (limbBytes : RnsPoly Limb → Nat) (group : Group Factor)
    (uploaded : List (Plaintext Factor)) : Prop where
  recorded : Recorded scheme group.block.snapshot uploaded
  reloads : ∀ freed : List (Plaintext Factor), freed.length = uploaded.length →
    (∀ pt ∈ freed, pt.c0 = blank) →
      group.block.snapshot.reload scheme 0 freed = .ok uploaded
  sized : group.block.bytes = groupBytes limbBytes uploaded
  held : group.block.resident = true → group.pts = uploaded
  freed : group.block.resident = false →
    group.pts.length = uploaded.length ∧ ∀ pt ∈ group.pts, pt.c0 = blank

/-- A group is saved or has always been resident. -/
inductive Settled (scheme : Scheme) (limbBytes : RnsPoly Limb → Nat) (group : Group Factor) : Prop
  | unsaved (empty : group.block.hasSnapshot = false) (resident : group.block.resident = true)
      (sized : group.block.bytes = groupBytes limbBytes group.pts)
  | saved (present : group.block.hasSnapshot = true) (uploaded : List (Plaintext Factor))
      (saved : Saved scheme limbBytes group uploaded)

/-- The plaintexts of a freed group hold no limb. -/
theorem Group.free_blank {pt : Plaintext Factor} (listed : pt ∈ group.free.pts) :
    pt.c0 = blank := by
  obtain ⟨old, _, rfl⟩ := List.mem_map.mp listed
  rfl

/-- A resident group with a snapshot is saved completely. -/
theorem Settled.complete (settled : Settled scheme limbBytes group)
    (resident : group.block.resident = true) (present : group.block.hasSnapshot = true) :
    Recorded scheme group.block.snapshot group.pts := by
  cases settled with
  | unsaved empty =>
      rw [empty] at present
      cases present
  | saved _ uploaded saved =>
      rw [saved.held resident]
      exact saved.recorded

/-- The bytes of a resident group are the bytes of its plaintexts. -/
theorem Settled.bytes (settled : Settled scheme limbBytes group)
    (resident : group.block.resident = true) :
    group.block.bytes = groupBytes limbBytes group.pts := by
  cases settled with
  | unsaved _ _ sized => exact sized
  | saved _ uploaded saved => rw [saved.held resident, saved.sized]

/-- A saved group stays saved when it gives its limbs back. -/
theorem Settled.free (settled : Settled scheme limbBytes group)
    (resident : group.block.resident = true) (present : group.block.hasSnapshot = true) :
    Settled scheme limbBytes group.free := by
  cases settled with
  | unsaved empty =>
      rw [empty] at present
      cases present
  | saved _ uploaded saved =>
      have whole : Saved scheme limbBytes group.free uploaded := by
        constructor
        case recorded => exact saved.recorded
        case reloads => exact saved.reloads
        case sized => exact saved.sized
        case held =>
          intro impossible
          cases impossible
        case freed =>
          intro _
          constructor
          · rw [← saved.held resident]
            exact List.length_map _
          · intro pt listed
            exact Group.free_blank listed
      exact Settled.saved present uploaded whole

/-- The time of the last use does not matter. -/
theorem Settled.touch (settled : Settled scheme limbBytes group) (clock : Nat) :
    Settled scheme limbBytes
      { group with block := { group.block with lastUse := clock } } := by
  cases settled with
  | unsaved empty resident sized => exact Settled.unsaved empty resident sized
  | saved present uploaded saved =>
      exact Settled.saved present uploaded
        ⟨saved.recorded, saved.reloads, saved.sized, saved.held, saved.freed⟩

/-- A group that is not resident is reloaded from its snapshot. -/
theorem Settled.reload (settled : Settled scheme limbBytes group)
    (away : group.block.resident = false) :
    ∃ pts, group.block.snapshot.reload scheme 0 group.pts = .ok pts ∧
      Recorded scheme group.block.snapshot pts ∧ group.block.hasSnapshot = true ∧
      ∀ clock, Settled scheme limbBytes
        ⟨{ group.block with lastUse := clock, resident := true }, pts⟩ := by
  cases settled with
  | unsaved _ resident =>
      rw [away] at resident
      cases resident
  | saved present uploaded saved =>
      obtain ⟨length, empty⟩ := saved.freed away
      refine ⟨uploaded, saved.reloads group.pts length empty, saved.recorded, present, ?_⟩
      intro clock
      have whole : Saved scheme limbBytes
          ⟨{ group.block with lastUse := clock, resident := true }, uploaded⟩ uploaded := by
        constructor
        case recorded => exact saved.recorded
        case reloads => exact saved.reloads
        case sized => exact saved.sized
        case held => exact fun _ => rfl
        case freed =>
          intro impossible
          cases impossible
      exact Settled.saved present uploaded whole

end Groups

namespace ContextData

variable {context : ContextData Factor}

/-- Every stored group is saved or has always been resident. -/
def IsSettled (limbBytes : RnsPoly Limb → Nat) (context : ContextData Factor) : Prop :=
  ∀ address group, context.group? address = some group →
    Settled context.scheme limbBytes group

@[simp] theorem setGroup_scheme (address : Address) (group : Group Factor)
    (context : ContextData Factor) : (context.setGroup address group).scheme = context.scheme := by
  unfold setGroup
  split <;> rfl

@[simp] theorem freeBootBlocks_scheme (victims : List (Address × Group Factor))
    (context : ContextData Factor) : (context.freeBootBlocks victims).scheme = context.scheme := by
  induction victims generalizing context with
  | nil => rfl
  | cons victim rest inductionHypothesis =>
      change ((context.setGroup victim.1 victim.2.free).freeBootBlocks rest).scheme = _
      rw [inductionHypothesis, setGroup_scheme]

@[simp] theorem evictBootstrapCache_scheme (budget incoming : Nat) (keep : Option Address)
    (context : ContextData Factor) :
    (context.evictBootstrapCache budget incoming keep).scheme = context.scheme := by
  unfold evictBootstrapCache
  split
  · rfl
  · exact freeBootBlocks_scheme _ _

/-- An eviction leaves a group alone or frees it. -/
theorem evict_group? (budget incoming : Nat) (keep : Option Address) {address : Address}
    {later : Group Factor}
    (found : (context.evictBootstrapCache budget incoming keep).group? address = some later) :
    ∃ group, context.group? address = some group ∧
      (later = group ∨ group.block.resident = true ∧ group.block.hasSnapshot = true ∧
        some address ≠ keep ∧ later = group.free) := by
  obtain ⟨victims, freed, others, -⟩ := evict_spec context budget incoming keep
  by_cases chosen : address ∈ victims.map Prod.fst
  · obtain ⟨victim, listed, rfl⟩ := List.mem_map.mp chosen
    obtain ⟨known, resident, present, apart, after⟩ := freed victim listed
    rw [found] at after
    exact ⟨victim.2, known, Or.inr ⟨resident, present, apart, Option.some.inj after⟩⟩
  · rw [others address chosen] at found
    exact ⟨later, found, Or.inl rfl⟩

/-- An eviction keeps the requested block as it is. -/
theorem evict_keep (context : ContextData Factor) (budget incoming : Nat) (keep : Address) :
    (context.evictBootstrapCache budget incoming (some keep)).group? keep =
      context.group? keep := by
  obtain ⟨victims, freed, others, -⟩ := evict_spec context budget incoming (some keep)
  apply others
  intro chosen
  obtain ⟨victim, listed, rfl⟩ := List.mem_map.mp chosen
  exact (freed victim listed).2.2.2.1 rfl

/-- An eviction ends within the budget, or the resident groups that are left cannot be freed. -/
theorem evict_ends (context : ContextData Factor) (budget incoming : Nat)
    (keep : Option Address) :
    (context.evictBootstrapCache budget incoming keep).bootstrapCacheResidentBytes + incoming ≤
        budget ∨
      ∀ address group,
        (context.evictBootstrapCache budget incoming keep).group? address = some group →
          group.block.resident = true →
            some address = keep ∨ group.block.hasSnapshot = false := by
  obtain ⟨victims, freed, others, ends⟩ := evict_spec context budget incoming keep
  rcases ends with fits | all
  · exact Or.inl fits
  · right
    intro address group found resident
    by_cases chosen : address ∈ victims.map Prod.fst
    · obtain ⟨victim, listed, rfl⟩ := List.mem_map.mp chosen
      rw [(freed victim listed).2.2.2.2] at found
      cases found
      cases resident
    · rw [others address chosen] at found
      by_cases kept : some address = keep
      · exact Or.inl kept
      · right
        rw [← Bool.not_eq_true]
        intro present
        exact chosen (all address group found resident present kept)

/-- An eviction settles the groups that it frees. -/
theorem IsSettled.evict (settled : IsSettled limbBytes context) (budget incoming : Nat)
    (keep : Option Address) :
    IsSettled limbBytes (context.evictBootstrapCache budget incoming keep) := by
  intro address later found
  rw [evictBootstrapCache_scheme]
  obtain ⟨group, known, rfl | ⟨resident, present, -, rfl⟩⟩ :=
    evict_group? budget incoming keep found
  · exact settled address later known
  · exact (settled address group known).free resident present

/-- A group is settled when it enters the cache. -/
theorem admitBootBlock_settled {pts : List (Plaintext Factor)} {raws : List (RawPlainText Factor)}
    {group : Group Factor} (loaded : Plaintext.loadAll context.scheme raws = .ok pts)
    (inBasis : ∀ raw ∈ raws, raw.InBasis context.scheme)
    (admitted : context.admitBootBlock limbBytes pts
      (if context.bootstrapPrecomputationLazy then raws else []) = .ok group) :
    Settled context.scheme limbBytes group := by
  unfold admitBootBlock at admitted
  dsimp only at admitted
  split at admitted
  case isTrue =>
    cases admitted
    exact Settled.unsaved rfl rfl rfl
  case isFalse finite =>
    have lists : context.bootstrapPrecomputationLazy = true ∧ pts.isEmpty = false := by
      simpa using finite
    rw [if_pos lists.1] at admitted
    cases made : BootSnapshot.make raws context.N with
    | error failure =>
        rw [made] at admitted
        cases admitted
    | ok snapshot =>
        rw [made] at admitted
        cases admitted
        obtain ⟨recorded, reloads⟩ := reload_uploaded made loaded inBasis
        have present : (!snapshot.entries.isEmpty) = true := by
          rw [Bool.not_eq_true', ← Bool.not_eq_true, List.isEmpty_iff_length_eq_zero,
            recorded.size, ← List.isEmpty_iff_length_eq_zero, lists.2]
          exact Bool.false_ne_true
        exact Settled.free (Settled.saved present pts
          ⟨recorded, reloads, rfl, fun _ => rfl, fun impossible => by cases impossible⟩) rfl present

/-- All groups of a new precomputation are settled. -/
theorem addBootstrapPlaintexts_settled {stages : List (Stage × List (RawPlainText Factor))}
    {precomp : BootstrapPrecomputation Factor}
    (inBasis : ∀ stage ∈ stages, ∀ raw ∈ stage.2, raw.InBasis context.scheme)
    (added : context.addBootstrapPlaintexts limbBytes stages = .ok precomp) (stage : Stage)
    (group : Group Factor) (found : precomp.lookup stage = some group) :
    Settled context.scheme limbBytes group := by
  induction stages generalizing precomp with
  | nil =>
      cases added
      cases found
  | cons first rest inductionHypothesis =>
      obtain ⟨name, raws⟩ := first
      unfold addBootstrapPlaintexts at added
      cases loaded : Plaintext.loadAll context.scheme raws with
      | error failure =>
          rw [loaded] at added
          cases added
      | ok pts =>
          rw [loaded] at added
          cases admitted : context.admitBootBlock limbBytes pts
              (if context.bootstrapPrecomputationLazy then raws else []) with
          | error failure =>
              change (context.admitBootBlock limbBytes pts _ >>= _) = _ at added
              rw [admitted] at added
              cases added
          | ok new =>
              change (context.admitBootBlock limbBytes pts _ >>= _) = _ at added
              rw [admitted] at added
              cases later : context.addBootstrapPlaintexts limbBytes rest with
              | error failure =>
                  change (context.addBootstrapPlaintexts limbBytes rest >>= _) = _ at added
                  rw [later] at added
                  cases added
              | ok others =>
                  change (context.addBootstrapPlaintexts limbBytes rest >>= _) = _ at added
                  rw [later] at added
                  cases added
                  rw [KeyedMap.lookup_insert_eq] at found
                  split at found
                  · cases found
                    exact admitBootBlock_settled loaded (inBasis _ List.mem_cons_self) admitted
                  · exact inductionHypothesis
                      (fun stage listed => inBasis stage (List.mem_cons_of_mem _ listed)) later
                      found

/-- A group carries the time of its last use. -/
def used (context : ContextData Factor) (group : Group Factor) : Group Factor :=
  { group with block := { group.block with lastUse := context.bootstrapCacheClock + 1 } }

/-- This context has recorded the last use of a group. -/
def touched (context : ContextData Factor) (address : Address) (group : Group Factor) :
    ContextData Factor :=
  { context with bootstrapCacheClock := context.bootstrapCacheClock + 1 }.setGroup address
    (context.used group)

/-- This context has made room for a group. -/
def fitted (context : ContextData Factor) (address : Address) (group : Group Factor) :
    ContextData Factor :=
  let fitted := (context.touched address group).evictBootstrapCache context.bootstrapCacheBytes
    group.block.bytes (some address)
  { fitted with
    bootstrapCacheLoadedBytes := fitted.bootstrapCacheLoadedBytes + group.block.bytes }

/-- This context has loaded a group. -/
def reloaded (context : ContextData Factor) (address : Address) (group : Group Factor)
    (pts : List (Plaintext Factor)) : ContextData Factor :=
  (context.fitted address group).setGroup address
    ⟨{ (context.used group).block with resident := true }, pts⟩

section Acquire

variable {address : Address} {group : Group Factor}

theorem acquireBootBlock_resident (known : context.group? address = some group)
    (resident : group.block.resident = true) :
    context.acquireBootBlock address = .ok (context.touched address group) := by
  unfold acquireBootBlock
  rw [known]
  dsimp only
  rw [if_pos resident]
  rfl

theorem acquireBootBlock_away (known : context.group? address = some group)
    (away : group.block.resident = false) {pts : List (Plaintext Factor)}
    (loads : group.block.snapshot.reload context.scheme 0 group.pts = .ok pts) :
    context.acquireBootBlock address = .ok (context.reloaded address group pts) := by
  unfold acquireBootBlock
  rw [known]
  dsimp only
  have notResident : ¬group.block.resident = true := by
    rw [away]
    exact Bool.false_ne_true
  rw [if_neg notResident, loads]
  rfl

theorem touched_group? (known : context.group? address = some group) (other : Address) :
    (context.touched address group).group? other =
      if other = address then some (context.used group) else context.group? other := by
  have ticked : ({ context with
      bootstrapCacheClock := context.bootstrapCacheClock + 1 } : ContextData Factor).group?
        address = some group := known
  exact group?_setGroup ticked (context.used group) other

theorem IsSettled.touched (settled : IsSettled limbBytes context)
    (known : context.group? address = some group) :
    IsSettled limbBytes (context.touched address group) := by
  intro other later found
  have same : (context.touched address group).scheme = context.scheme := setGroup_scheme _ _ _
  rw [same]
  rw [touched_group? known] at found
  split at found
  · cases found
    exact (settled address group known).touch _
  · exact settled other later found

/-- The eviction has left the used group in place. -/
theorem fitted_group? (known : context.group? address = some group) :
    (context.fitted address group).group? address = some (context.used group) := by
  change ((context.touched address group).evictBootstrapCache _ _ (some address)).group? address = _
  rw [evict_keep, touched_group? known, if_pos rfl]

theorem reloaded_group? (known : context.group? address = some group)
    (pts : List (Plaintext Factor)) (other : Address) :
    (context.reloaded address group pts).group? other =
      if other = address then some ⟨{ (context.used group).block with resident := true }, pts⟩
      else (context.fitted address group).group? other :=
  group?_setGroup (fitted_group? known) _ other

theorem IsSettled.reloaded (settled : IsSettled limbBytes context)
    (known : context.group? address = some group) {pts : List (Plaintext Factor)}
    (fresh : Settled context.scheme limbBytes
      ⟨{ (context.used group).block with resident := true }, pts⟩) :
    IsSettled limbBytes (context.reloaded address group pts) := by
  have scheme : (context.fitted address group).scheme = context.scheme :=
    (evictBootstrapCache_scheme _ _ _ _).trans (setGroup_scheme _ _ _)
  have fitted : IsSettled limbBytes (context.fitted address group) :=
    (settled.touched known).evict context.bootstrapCacheBytes group.block.bytes (some address)
  intro other later found
  have same : (context.reloaded address group pts).scheme = context.scheme :=
    (setGroup_scheme _ _ _).trans scheme
  rw [same]
  rw [reloaded_group? known] at found
  split at found
  · cases found
    exact fresh
  · have kept := fitted other later found
    rw [scheme] at kept
    exact kept

/-- The loaded group fits into the budget, or the resident groups beside it cannot be freed. -/
theorem reloaded_fits (known : context.group? address = some group)
    (away : group.block.resident = false) (pts : List (Plaintext Factor)) :
    (context.reloaded address group pts).bootstrapCacheResidentBytes ≤
        context.bootstrapCacheBytes ∨
      ∀ other present, (context.reloaded address group pts).group? other = some present →
        present.block.resident = true → other = address ∨ present.block.hasSnapshot = false := by
  have share := residentBytes_setGroup (fitted_group? known)
    ⟨{ (context.used group).block with resident := true }, pts⟩
  have old : (context.used group).residentBytes = 0 := if_neg (by
    change group.block.resident ≠ true
    rw [away]
    exact Bool.false_ne_true)
  have new : Group.residentBytes
      (⟨{ (context.used group).block with resident := true }, pts⟩ : Group Factor) =
        group.block.bytes := rfl
  rw [old, new, Nat.add_zero] at share
  rcases evict_ends (context.touched address group) context.bootstrapCacheBytes
      group.block.bytes (some address) with fits | others
  · left
    change (context.fitted address group).bootstrapCacheResidentBytes + _ ≤ _ at fits
    rw [← share] at fits
    exact fits
  · right
    intro other present found resident
    rw [reloaded_group? known] at found
    split at found
    case isTrue same => exact Or.inl same
    case isFalse =>
      rcases others other present found resident with same | empty
      · exact Or.inl (Option.some.inj same)
      · exact Or.inr empty

end Acquire

end ContextData
end Fideslib.BootCache

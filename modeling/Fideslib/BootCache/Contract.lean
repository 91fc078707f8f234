/-
This file proves the contract of the bootstrap cache for every sequence of calls.
-/

import Fideslib.BootCache.Settled

namespace Fideslib.BootCache

open Transfer

variable {Factor : Type} {limbBytes : RnsPoly Limb → Nat}

namespace ContextData

variable {context : ContextData Factor}

/-- A new precomputation does not touch the stored ones. -/
theorem addBootstrapPrecomputation_spec {slots : Int}
    {stages : List (Stage × List (RawPlainText Factor))} {after : ContextData Factor}
    (settled : IsSettled limbBytes context)
    (inBasis : ∀ stage ∈ stages, ∀ raw ∈ stage.2, raw.InBasis context.scheme)
    (added : context.addBootstrapPrecomputation limbBytes slots stages = .ok after) :
    IsSettled limbBytes after ∧ after.scheme = context.scheme ∧
      ∀ address group, context.group? address = some group →
        after.group? address = some group := by
  unfold addBootstrapPrecomputation at added
  cases stored : context.boot.lookup slots with
  | some precomp =>
      rw [stored] at added
      cases added
      exact ⟨settled, rfl, fun _ _ found => found⟩
  | none =>
      rw [stored] at added
      dsimp only at added
      cases built : context.addBootstrapPlaintexts limbBytes stages with
      | error failure =>
          rw [built] at added
          cases added
      | ok precomp =>
          rw [built] at added
          cases added
          have lookups (key : Int) : (context.boot.insert slots precomp).lookup key =
              if key = slots then some precomp else context.boot.lookup key :=
            KeyedMap.lookup_insert_eq slots key precomp context.boot
          refine ⟨?_, rfl, ?_⟩
          · intro address group found
            obtain ⟨holder, there, inside⟩ := group?_eq_some.mp found
            dsimp only at there
            rw [lookups] at there
            split at there
            · cases there
              exact addBootstrapPlaintexts_settled inBasis built address.2 group inside
            · exact settled address group (group?_eq_some.mpr ⟨holder, there, inside⟩)
          · intro address group found
            obtain ⟨holder, there, inside⟩ := group?_eq_some.mp found
            have apart : address.1 ≠ slots := by
              intro same
              rw [same, stored] at there
              cases there
            apply group?_eq_some.mpr
            refine ⟨holder, ?_, inside⟩
            dsimp only
            rw [lookups, if_neg apart]
            exact there

/-- Only whole precomputations are forgotten. -/
theorem clearBootPrecomputation_group? {slots : Int} {address : Address} {group : Group Factor}
    (found : (context.clearBootPrecomputation slots).group? address = some group) :
    context.group? address = some group := by
  obtain ⟨precomp, there, inside⟩ := group?_eq_some.mp found
  unfold clearBootPrecomputation at there
  split at there
  · cases there
  · dsimp only at there
    rw [KeyedMap.lookup_erase_eq] at there
    split at there
    · cases there
    · exact group?_eq_some.mpr ⟨precomp, there, inside⟩

theorem clearBootPrecomputation_scheme (slots : Int) (context : ContextData Factor) :
    (context.clearBootPrecomputation slots).scheme = context.scheme := by
  unfold clearBootPrecomputation
  split <;> rfl

end ContextData

open ContextData

section Steps

variable {context : ContextData Factor}

/-- Every call settles the groups that it leaves. -/
theorem Call.perform_settled (settled : IsSettled limbBytes context) (call : Call Factor)
    (inBasis : call.InBasis context.scheme) :
    IsSettled limbBytes (call.perform limbBytes context) ∧
      (call.perform limbBytes context).scheme = context.scheme := by
  cases call with
  | addBootstrapPrecomputation slots stages =>
      rw [Call.perform]
      cases added : context.addBootstrapPrecomputation limbBytes slots stages with
      | error failure => exact ⟨settled, rfl⟩
      | ok after =>
          obtain ⟨kept, scheme, -⟩ := addBootstrapPrecomputation_spec settled inBasis added
          exact ⟨kept, scheme⟩
  | acquireBootBlock address =>
      rw [Call.perform]
      cases known : context.group? address with
      | none =>
          unfold ContextData.acquireBootBlock
          rw [known]
          exact ⟨settled, rfl⟩
      | some group =>
          cases resident : group.block.resident with
          | true =>
              rw [acquireBootBlock_resident known resident]
              exact ⟨settled.touched known, setGroup_scheme _ _ _⟩
          | false =>
              obtain ⟨pts, loads, -, -, fresh⟩ := (settled address group known).reload resident
              rw [acquireBootBlock_away known resident loads]
              refine ⟨settled.reloaded known (fresh _), ?_⟩
              refine (setGroup_scheme _ _ _).trans ?_
              exact (evictBootstrapCache_scheme _ _ _ _).trans (setGroup_scheme _ _ _)
  | setBootstrapCache bytes =>
      have moved : IsSettled limbBytes { context with bootstrapCacheBytes := bytes } := settled
      exact ⟨moved.evict bytes 0 none, evictBootstrapCache_scheme _ _ _ _⟩
  | offloadBootstrapPrecomputation =>
      exact ⟨settled.evict 0 0 none, evictBootstrapCache_scheme _ _ _ _⟩
  | clearBootPrecomputation slots =>
      have same := clearBootPrecomputation_scheme slots context
      refine ⟨?_, same⟩
      intro address group found
      rw [Call.perform, same]
      exact settled address group (clearBootPrecomputation_group? found)

/-- A call frees groups with a snapshot only. -/
theorem Call.perform_frees (settled : IsSettled limbBytes context) (call : Call Factor)
    (inBasis : call.InBasis context.scheme) {address : Address} {group later : Group Factor}
    (known : context.group? address = some group) (resident : group.block.resident = true)
    (found : (call.perform limbBytes context).group? address = some later)
    (away : later.block.resident = false) : group.block.hasSnapshot = true := by
  have still (same : some group = some later) : group.block.hasSnapshot = true := by
    cases same
    rw [resident] at away
    cases away
  have evicted {before : ContextData Factor} {budget incoming : Nat} {keep : Option Address}
      {old : Group Factor} (there : before.group? address = some old)
      (stays : old.block.resident = true)
      (gone : (before.evictBootstrapCache budget incoming keep).group? address = some later) :
      old.block.hasSnapshot = true := by
    obtain ⟨first, firstKnown, same | ⟨-, present, -⟩⟩ := evict_group? budget incoming keep gone
    · rw [there] at firstKnown
      cases firstKnown
      rw [same, stays] at away
      cases away
    · rw [there] at firstKnown
      cases firstKnown
      exact present
  cases call with
  | addBootstrapPrecomputation slots stages =>
      rw [Call.perform] at found
      cases added : context.addBootstrapPrecomputation limbBytes slots stages with
      | error failure =>
          rw [added] at found
          dsimp only at found
          exact still (known.symm.trans found)
      | ok after =>
          rw [added] at found
          dsimp only at found
          have kept := (addBootstrapPrecomputation_spec settled inBasis added).2.2 address group known
          exact still (kept.symm.trans found)
  | acquireBootBlock requested =>
      rw [Call.perform] at found
      cases there : context.group? requested with
      | none =>
          unfold ContextData.acquireBootBlock at found
          rw [there] at found
          dsimp only at found
          exact still (known.symm.trans found)
      | some old =>
          have touched := touched_group? there address
          cases loaded : old.block.resident with
          | true =>
              rw [acquireBootBlock_resident there loaded] at found
              dsimp only at found
              rw [touched] at found
              split at found
              · cases found
                rw [show (context.used old).block.resident = true from loaded] at away
                cases away
              · exact still (known.symm.trans found)
          | false =>
              obtain ⟨pts, loads, -⟩ := (settled requested old there).reload loaded
              rw [acquireBootBlock_away there loaded loads] at found
              dsimp only at found
              rw [reloaded_group? there] at found
              split at found
              · cases found
                cases away
              case isFalse apart =>
                rw [if_neg apart] at touched
                exact evicted (touched.trans known) resident found
  | setBootstrapCache bytes =>
      have moved : ({ context with bootstrapCacheBytes := bytes } : ContextData Factor).group?
          address = some group := known
      exact evicted moved resident found
  | offloadBootstrapPrecomputation => exact evicted known resident found
  | clearBootPrecomputation slots =>
      exact still (known.symm.trans (clearBootPrecomputation_group? found))

/-- The resident bytes are the bytes of the plaintexts on the device. -/
theorem residentBytes_eq_sum (settled : IsSettled limbBytes context) :
    context.bootstrapCacheResidentBytes = (context.blocks.map fun entry =>
      if entry.2.block.resident then groupBytes limbBytes entry.2.pts else 0).sum := by
  unfold bootstrapCacheResidentBytes
  congr 1
  apply List.map_congr_left
  intro entry listed
  unfold Group.residentBytes
  split
  case isTrue resident =>
    exact (settled entry.1 entry.2 (mem_blocks.mp listed)).bytes resident
  case isFalse => rfl

end Steps

/-- These facts hold of an eviction. -/
structure EvictionContract (budget incoming : Nat) (keep : Option Address)
    (before after : ContextData Factor) : Prop where
  kept : ∀ address, some address = keep → after.group? address = before.group? address
  ends : after.bootstrapCacheResidentBytes + incoming ≤ budget ∨
    ∀ address group, after.group? address = some group → group.block.resident = true →
      some address = keep ∨ group.block.hasSnapshot = false
  frees : ∀ address group later, before.group? address = some group →
    after.group? address = some later → later = group ∨
      group.block.resident = true ∧ group.block.hasSnapshot = true ∧ later = group.free

/-- The requested group is resident afterwards with the contents of its snapshot. -/
structure Acquired (limbBytes : RnsPoly Limb → Nat) (address : Address) (group : Group Factor)
    (context after : ContextData Factor) (held : Group Factor) : Prop where
  found : after.group? address = some held
  resident : held.block.resident = true
  snapshot : held.block.snapshot = group.block.snapshot
  recorded : held.block.hasSnapshot = true →
    Recorded context.scheme held.block.snapshot held.pts
  unsaved : held.block.hasSnapshot = false → held.pts = group.pts
  fits : group.block.resident = true ∨
    after.bootstrapCacheResidentBytes ≤ context.bootstrapCacheBytes ∨
    ∀ other present, after.group? other = some present → present.block.resident = true →
      other = address ∨ present.block.hasSnapshot = false

/-- These facts hold of a context between two calls. -/
structure CacheContract (limbBytes : RnsPoly Limb → Nat) (context : ContextData Factor) :
    Prop where
  acquires : ∀ address group, context.group? address = some group →
    ∃ after held, context.acquireBootBlock address = .ok after ∧
      Acquired limbBytes address group context after held
  reloadable : ∀ address group, context.group? address = some group →
    group.block.resident = false → group.block.hasSnapshot = true
  complete : ∀ (call : Call Factor) address group later, call.InBasis context.scheme →
    context.group? address = some group → group.block.resident = true →
      (call.perform limbBytes context).group? address = some later →
        later.block.resident = false → group.block.hasSnapshot = true ∧
          Recorded context.scheme group.block.snapshot group.pts
  bytes : context.bootstrapCacheResidentBytes = (context.blocks.map fun entry =>
    if entry.2.block.resident then groupBytes limbBytes entry.2.pts else 0).sum

theorem evictBootstrapCache_contract (budget incoming : Nat) (keep : Option Address)
    (context : ContextData Factor) :
    EvictionContract budget incoming keep context
      (context.evictBootstrapCache budget incoming keep) := by
  constructor
  case kept =>
    intro address same
    rw [← same]
    exact evict_keep context budget incoming address
  case ends => exact evict_ends context budget incoming keep
  case frees =>
    intro address group later known found
    obtain ⟨first, there, same | ⟨resident, present, -, same⟩⟩ :=
      evict_group? budget incoming keep found
    · rw [known] at there
      cases there
      exact Or.inl same
    · rw [known] at there
      cases there
      exact Or.inr ⟨resident, present, same⟩

section Run

variable {context : ContextData Factor}

theorem acquireBootBlock_contract (settled : IsSettled limbBytes context) {address : Address}
    {group : Group Factor} (known : context.group? address = some group) :
    ∃ after held, context.acquireBootBlock address = .ok after ∧
      Acquired limbBytes address group context after held := by
  have ready := settled address group known
  cases resident : group.block.resident with
  | true =>
      refine ⟨_, context.used group, acquireBootBlock_resident known resident, ?_⟩
      constructor
      case found => rw [touched_group? known, if_pos rfl]
      case resident => exact resident
      case snapshot => rfl
      case recorded => exact fun present => ready.complete resident present
      case unsaved => exact fun _ => rfl
      case fits => exact Or.inl resident
  | false =>
      obtain ⟨pts, loads, recorded, present, -⟩ := ready.reload resident
      refine ⟨_, ⟨{ (context.used group).block with resident := true }, pts⟩,
        acquireBootBlock_away known resident loads, ?_⟩
      constructor
      case found => rw [reloaded_group? known, if_pos rfl]
      case resident => rfl
      case snapshot => rfl
      case recorded => exact fun _ => recorded
      case unsaved =>
        intro empty
        rw [show group.block.hasSnapshot = false from empty] at present
        cases present
      case fits => exact Or.inr (reloaded_fits known resident pts)

theorem ContextData.IsSettled.contract (settled : IsSettled limbBytes context) :
    CacheContract limbBytes context := by
  constructor
  case acquires => exact fun _ _ known => acquireBootBlock_contract settled known
  case reloadable =>
    intro address group known away
    obtain ⟨_, _, _, present, _⟩ := (settled address group known).reload away
    exact present
  case complete =>
    intro call address group later inBasis known resident found away
    have present := call.perform_frees settled inBasis known resident found away
    exact ⟨present, (settled address group known).complete resident present⟩
  case bytes => exact residentBytes_eq_sum settled

/-- A sequence of calls settles every group that it leaves. -/
theorem performAll_settled (settled : IsSettled limbBytes context) {calls : List (Call Factor)}
    (inBasis : ∀ call ∈ calls, call.InBasis context.scheme) :
    IsSettled limbBytes (performAll limbBytes calls context) := by
  induction calls generalizing context with
  | nil => exact settled
  | cons call rest inductionHypothesis =>
      obtain ⟨kept, scheme⟩ := call.perform_settled settled (inBasis call List.mem_cons_self)
      apply inductionHypothesis kept
      intro other listed
      rw [scheme]
      exact inBasis other (List.mem_cons_of_mem _ listed)

end Run

/-- Every eviction keeps the requested block, frees saved groups only and goes on until the rest
fits. After every sequence of calls, a block is acquired with the contents of its snapshot, no
group leaves without a complete snapshot, and the resident bytes are counted exactly. -/
theorem bootstrap_cache_contract (limbBytes : RnsPoly Limb → Nat) :
    (∀ (before : ContextData Factor) (budget incoming : Nat) (keep : Option Address),
      EvictionContract budget incoming keep before
        (before.evictBootstrapCache budget incoming keep)) ∧
      ∀ (scheme : Scheme) (N : Nat) (calls : List (Call Factor)),
        (∀ call ∈ calls, call.InBasis scheme) →
          CacheContract limbBytes
            (performAll limbBytes calls { scheme := scheme, N := N }) := by
  constructor
  · intro before budget incoming keep
    exact evictBootstrapCache_contract budget incoming keep before
  · intro scheme N calls inBasis
    have empty : IsSettled limbBytes
        ({ scheme := scheme, N := N } : ContextData Factor) := by
      intro address group found
      cases found
    exact (performAll_settled empty inBasis).contract

/-- This scheme has one regular prime and one special prime. -/
def sparseScheme : Scheme where
  chain := [5]
  special := [7]
  distinct := by decide
  regularPrime := by decide
  specialPrime := by decide
  bounded := by decide

/-- A group of one sparse plaintext is built under a finite budget, and it is used afterwards. -/
def sparseRun : List (Call Nat) :=
  [.setBootstrapCache 8,
    .addBootstrapPrecomputation 1 [(.A, [⟨[[1, 0, 2, 0], [3, 0, 4, 0]], [5, 7], 1, 1, 1⟩])],
    .acquireBootBlock (1, .A), .offloadBootstrapPrecomputation, .acquireBootBlock (1, .A)]

theorem bootstrap_cache_contract_sparseRun :
    CacheContract (fun poly => (limbsOf poly).length)
      (performAll (fun poly => (limbsOf poly).length) sparseRun { scheme := sparseScheme, N := 4 }) ∧
    (performAll (fun poly => (limbsOf poly).length) sparseRun
      { scheme := sparseScheme, N := 4 }).bootstrapCacheResidentBytes = 2 := by
  constructor
  · apply (bootstrap_cache_contract fun poly => (limbsOf poly).length).2 sparseScheme 4 sparseRun
    intro call listed
    fin_cases listed
    case «0» => trivial
    case «1» =>
      intro stage inside raw here
      cases List.mem_singleton.mp inside
      cases List.mem_singleton.mp here
      exact ⟨1, le_refl 1, true, rfl⟩
    case «2» => trivial
    case «3» => trivial
    case «4» => trivial
  · decide +kernel

end Fideslib.BootCache

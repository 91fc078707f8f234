/-
This file translates the cache of the bootstrap plaintexts of a context and its evictions.
-/

import Fideslib.BootCache.Reload
import Fideslib.Library.KeyedMap

namespace Fideslib.BootCache

open Transfer

/-- A precomputation has the groups of the linear transform and of the collapsed stages. -/
inductive Stage where
  | A
  | invA
  | CtS (step : Nat)
  | StC (step : Nat)
deriving DecidableEq, Repr

/-- A block is found by the slot count of its precomputation and its stage. -/
abbrev Address := Int × Stage

variable {Factor : Type}

abbrev BootstrapPrecomputation (Factor : Type) := AList fun _ : Stage => Group Factor

/-- The device bytes of a plaintext depend on the buffers of its limbs. -/
def groupBytes (limbBytes : RnsPoly Limb → Nat) (pts : List (Plaintext Factor)) : Nat :=
  (pts.map fun pt => limbBytes pt.c0).sum

/-- This budget keeps every group resident. -/
def sizeMax : Nat := 2 ^ 64 - 1

/-- This record holds the fields of a context that the bootstrap cache reads. -/
structure ContextData (Factor : Type) where
  scheme : Scheme
  N : Nat
  boot : AList fun _ : Int => BootstrapPrecomputation Factor := ∅
  bootstrapCacheBytes : Nat := sizeMax
  bootstrapCacheClock : Nat := 0
  bootstrapCacheLoadedBytes : Nat := 0

def Group.residentBytes (group : Group Factor) : Nat :=
  if group.block.resident then group.block.bytes else 0

namespace ContextData

def bootstrapPrecomputationLazy (context : ContextData Factor) : Bool :=
  context.bootstrapCacheBytes ≠ sizeMax

/-- The loop over the blocks also lists empty groups, which hold no bytes and have no snapshot. -/
def blocks (context : ContextData Factor) : List (Address × Group Factor) :=
  context.boot.entries.flatMap fun precomp =>
    precomp.2.entries.map fun entry => ((precomp.1, entry.1), entry.2)

def group? (context : ContextData Factor) (address : Address) : Option (Group Factor) :=
  (context.boot.lookup address.1).bind fun precomp => precomp.lookup address.2

/-- A block of a precomputation takes a new state. -/
def setGroup (address : Address) (group : Group Factor) (context : ContextData Factor) :
    ContextData Factor :=
  match context.boot.lookup address.1 with
  | none => context
  | some precomp =>
      { context with boot := context.boot.insert address.1 (precomp.insert address.2 group) }

def bootstrapCacheResidentBytes (context : ContextData Factor) : Nat :=
  (context.blocks.map fun entry => entry.2.residentBytes).sum

def freeBootBlocks (victims : List (Address × Group Factor)) (context : ContextData Factor) :
    ContextData Factor :=
  victims.foldl (fun current victim => current.setGroup victim.1 victim.2.free) context

/-- The most recently used groups go first, and a group that can be reloaded has been used at a
time of its own. -/
def candidates (keep : Option Address) (context : ContextData Factor) :
    List (Address × Group Factor) :=
  (context.blocks.filter fun entry =>
      entry.2.block.resident && entry.2.block.hasSnapshot && some entry.1 ≠ keep).mergeSort
    fun first second => second.2.block.lastUse ≤ first.2.block.lastUse

/-- This loop counts the candidates off until the rest fits. -/
def victims (budget incoming : Nat) :
    Nat → List (Address × Group Factor) → List (Address × Group Factor)
  | _, [] => []
  | resident, candidate :: rest =>
      if budget < resident + incoming then
        candidate :: victims budget incoming (resident - candidate.2.block.bytes) rest
      else []

def evictBootstrapCache (budget incoming : Nat) (keep : Option Address)
    (context : ContextData Factor) : ContextData Factor :=
  if context.bootstrapCacheResidentBytes + incoming ≤ budget then context
  else context.freeBootBlocks
    (victims budget incoming context.bootstrapCacheResidentBytes (context.candidates keep))

def setBootstrapCache (bytes : Nat) (context : ContextData Factor) : ContextData Factor :=
  { context with bootstrapCacheBytes := bytes }.evictBootstrapCache bytes 0 none

def offloadBootstrapPrecomputation (context : ContextData Factor) : ContextData Factor :=
  context.evictBootstrapCache 0 0 none

/-- A group that is built under a finite budget is saved and freed at once. -/
def admitBootBlock (limbBytes : RnsPoly Limb → Nat) (context : ContextData Factor)
    (pts : List (Plaintext Factor)) (raws : List (RawPlainText Factor)) :
    Except BootError (Group Factor) :=
  let block : BootCacheBlock Factor := { bytes := groupBytes limbBytes pts }
  if !context.bootstrapPrecomputationLazy || pts.isEmpty then .ok ⟨block, pts⟩
  else (BootSnapshot.make raws context.N).map fun snapshot =>
    Group.free ⟨{ block with snapshot := snapshot }, pts⟩

/-- The plaintexts of a stage are uploaded, and the host data is kept for a finite budget only. -/
def addBootstrapPlaintexts (limbBytes : RnsPoly Limb → Nat) (context : ContextData Factor) :
    List (Stage × List (RawPlainText Factor)) → Except BootError (BootstrapPrecomputation Factor)
  | [] => .ok ∅
  | (stage, raws) :: rest => do
      let pts ← Plaintext.loadAll context.scheme raws
      let group ← context.admitBootBlock limbBytes pts
        (if context.bootstrapPrecomputationLazy then raws else [])
      let precomp ← addBootstrapPlaintexts limbBytes context rest
      return precomp.insert stage group

/-- A precomputation that exists stays as it is. -/
def addBootstrapPrecomputation (limbBytes : RnsPoly Limb → Nat) (slots : Int)
    (stages : List (Stage × List (RawPlainText Factor))) (context : ContextData Factor) :
    Except BootError (ContextData Factor) :=
  match context.boot.lookup slots with
  | some _ => .ok context
  | none => (context.addBootstrapPlaintexts limbBytes stages).map fun precomp =>
      { context with boot := context.boot.insert slots precomp }

/-- The groups that are in the way leave before the requested group is loaded. -/
def acquireBootBlock (address : Address) (context : ContextData Factor) :
    Except BootError (ContextData Factor) :=
  match context.group? address with
  | none => .error (.runtimeError s!"No bootstrap precomputation for {address.1} slots (run EvalBootstrapSetup/EvalBootstrapKeyGen before LoadContext)")
  | some group =>
      let clock := context.bootstrapCacheClock + 1
      let used : Group Factor := { group with block := { group.block with lastUse := clock } }
      let touched := { context with bootstrapCacheClock := clock }.setGroup address used
      if group.block.resident then .ok touched
      else
        let fitted := touched.evictBootstrapCache context.bootstrapCacheBytes group.block.bytes
          (some address)
        (group.block.snapshot.reload context.scheme 0 group.pts).map fun pts =>
          { fitted with
            bootstrapCacheLoadedBytes := fitted.bootstrapCacheLoadedBytes + group.block.bytes
            }.setGroup address ⟨{ used.block with resident := true }, pts⟩

def clearBootPrecomputation (slots : Int) (context : ContextData Factor) : ContextData Factor :=
  if slots = -1 then { context with boot := ∅ }
  else { context with boot := context.boot.erase slots }

end ContextData

/-- These calls change the bootstrap cache. -/
inductive Call (Factor : Type) where
  | addBootstrapPrecomputation (slots : Int) (stages : List (Stage × List (RawPlainText Factor)))
  | acquireBootBlock (address : Address)
  | setBootstrapCache (bytes : Nat)
  | offloadBootstrapPrecomputation
  | clearBootPrecomputation (slots : Int)

/-- A call that throws has not changed the context. -/
def Call.perform (limbBytes : RnsPoly Limb → Nat) (context : ContextData Factor) :
    Call Factor → ContextData Factor
  | .addBootstrapPrecomputation slots stages =>
      match context.addBootstrapPrecomputation limbBytes slots stages with
      | .ok after => after
      | .error _ => context
  | .acquireBootBlock address =>
      match context.acquireBootBlock address with
      | .ok after => after
      | .error _ => context
  | .setBootstrapCache bytes => context.setBootstrapCache bytes
  | .offloadBootstrapPrecomputation => context.offloadBootstrapPrecomputation
  | .clearBootPrecomputation slots => context.clearBootPrecomputation slots

/-- The host data of a precomputation follows the primes of the scheme. -/
def Call.InBasis (scheme : Scheme) : Call Factor → Prop
  | .addBootstrapPrecomputation _ stages =>
      ∀ stage ∈ stages, ∀ raw ∈ stage.2, raw.InBasis scheme
  | _ => True

/-- A program performs its calls one after the other. -/
def performAll (limbBytes : RnsPoly Limb → Nat) (calls : List (Call Factor))
    (context : ContextData Factor) : ContextData Factor :=
  calls.foldl (Call.perform limbBytes) context

end Fideslib.BootCache

namespace Fideslib.BootCache

open Transfer

variable {Factor : Type}

namespace ContextData

variable {context : ContextData Factor} {address : Address} {old : Group Factor}

/-- A stored block belongs to a stored precomputation. -/
theorem group?_eq_some : context.group? address = some old ↔
    ∃ precomp, context.boot.lookup address.1 = some precomp ∧
      precomp.lookup address.2 = some old := by
  rw [group?, Option.bind_eq_some_iff]

/-- A change of a stored block is seen at its own address. -/
theorem group?_setGroup (known : context.group? address = some old) (group : Group Factor)
    (other : Address) :
    (context.setGroup address group).group? other =
      if other = address then some group else context.group? other := by
  obtain ⟨precomp, stored, inside⟩ := group?_eq_some.mp known
  obtain ⟨slots, stage⟩ := address
  obtain ⟨otherSlots, otherStage⟩ := other
  unfold setGroup group?
  rw [stored]
  dsimp only at stored ⊢
  rw [KeyedMap.lookup_insert_eq]
  by_cases sameSlots : otherSlots = slots
  · subst sameSlots
    rw [if_pos rfl, stored, Option.bind_some, Option.bind_some, KeyedMap.lookup_insert_eq]
    by_cases sameStage : otherStage = stage
    · subst sameStage
      rw [if_pos rfl, if_pos rfl]
    · rw [if_neg sameStage, if_neg fun same => sameStage (congrArg Prod.snd same)]
  · rw [if_neg sameSlots, if_neg fun same => sameSlots (congrArg Prod.fst same)]

/-- The loop over the blocks lists every stored block. -/
theorem mem_blocks {entry : Address × Group Factor} :
    entry ∈ context.blocks ↔ context.group? entry.1 = some entry.2 := by
  obtain ⟨⟨slots, stage⟩, group⟩ := entry
  rw [group?_eq_some]
  unfold blocks
  rw [List.mem_flatMap]
  constructor
  · rintro ⟨⟨key, precomp⟩, stored, listed⟩
    obtain ⟨⟨name, value⟩, inside, same⟩ := List.mem_map.mp listed
    cases same
    exact ⟨precomp, (KeyedMap.mem_entries_iff _ _ _).mp stored,
      (KeyedMap.mem_entries_iff _ _ _).mp inside⟩
  · rintro ⟨precomp, stored, inside⟩
    exact ⟨⟨slots, precomp⟩, (KeyedMap.mem_entries_iff _ _ _).mpr stored,
      List.mem_map.mpr ⟨⟨stage, group⟩, (KeyedMap.mem_entries_iff _ _ _).mpr inside, rfl⟩⟩

/-- Every address is listed once. -/
theorem blocks_nodup (context : ContextData Factor) : (context.blocks.map Prod.fst).Nodup := by
  have whole : context.blocks.map Prod.fst = context.boot.entries.flatMap fun precomp =>
      precomp.2.entries.map fun entry => (precomp.1, entry.1) := by
    unfold blocks
    rw [List.map_flatMap]
    simp only [List.map_map, Function.comp_def]
  rw [whole, List.nodup_flatMap]
  constructor
  · intro precomp _
    have keys : precomp.2.entries.keys.Nodup := precomp.2.nodupKeys
    have moved : ((precomp.2.entries.keys).map fun stage => (precomp.1, stage)).Nodup :=
      List.Nodup.map (fun _ _ same => congrArg Prod.snd same) keys
    rw [List.keys, List.map_map] at moved
    exact moved
  · have keys : context.boot.entries.keys.Nodup := context.boot.nodupKeys
    refine (List.pairwise_map.mp keys).imp ?_
    intro first second different address listed otherListed
    obtain ⟨_, _, rfl⟩ := List.mem_map.mp listed
    obtain ⟨_, _, same⟩ := List.mem_map.mp otherListed
    exact different (congrArg Prod.fst same).symm

/-- The resident bytes are the total over the stored precomputations. -/
theorem residentBytes_eq_total (context : ContextData Factor) :
    context.bootstrapCacheResidentBytes =
      KeyedMap.total (KeyedMap.total Group.residentBytes) context.boot := by
  unfold bootstrapCacheResidentBytes blocks KeyedMap.total
  rw [List.map_flatMap, List.flatMap_def, List.sum_flatten]
  simp only [List.map_map, Function.comp_def]

/-- A change of one block changes the resident bytes by its own share. -/
theorem residentBytes_setGroup (known : context.group? address = some old) (group : Group Factor) :
    (context.setGroup address group).bootstrapCacheResidentBytes + old.residentBytes =
      context.bootstrapCacheResidentBytes + group.residentBytes := by
  obtain ⟨precomp, stored, inside⟩ := group?_eq_some.mp known
  rw [residentBytes_eq_total, residentBytes_eq_total]
  unfold setGroup
  rw [stored]
  dsimp only
  have outer := KeyedMap.total_insert_old (KeyedMap.total Group.residentBytes)
    (precomp.insert address.2 group) stored
  have inner := KeyedMap.total_insert_old Group.residentBytes group inside
  omega

/-- A freed list of stored blocks leaves all other blocks alone and takes their bytes away. -/
theorem freeBootBlocks_spec {victims : List (Address × Group Factor)}
    (distinct : (victims.map Prod.fst).Nodup)
    (stored : ∀ victim ∈ victims, context.group? victim.1 = some victim.2) :
    (∀ victim ∈ victims, (context.freeBootBlocks victims).group? victim.1 = some victim.2.free) ∧
      (∀ other, other ∉ victims.map Prod.fst →
        (context.freeBootBlocks victims).group? other = context.group? other) ∧
      (context.freeBootBlocks victims).bootstrapCacheResidentBytes +
        (victims.map fun victim => victim.2.residentBytes).sum =
          context.bootstrapCacheResidentBytes := by
  induction victims generalizing context with
  | nil => exact ⟨List.forall_mem_nil _, fun _ _ => rfl, rfl⟩
  | cons first rest inductionHypothesis =>
      obtain ⟨fresh, distinctRest⟩ := List.nodup_cons.mp distinct
      have known := stored first List.mem_cons_self
      have storedRest : ∀ victim ∈ rest,
          (context.setGroup first.1 first.2.free).group? victim.1 = some victim.2 := by
        intro victim listed
        have apart : victim.1 ≠ first.1 := fun same =>
          fresh (List.mem_map.mpr ⟨victim, listed, same⟩)
        rw [group?_setGroup known, if_neg apart]
        exact stored victim (List.mem_cons_of_mem _ listed)
      obtain ⟨freed, others, bytes⟩ := inductionHypothesis distinctRest storedRest
      have share := residentBytes_setGroup known first.2.free
      have none : first.2.free.residentBytes = 0 := rfl
      refine ⟨fun victim listed => ?_, fun other absent => ?_, ?_⟩
      · rcases List.mem_cons.mp listed with rfl | later
        · have kept := others victim.1 fresh
          rw [group?_setGroup known, if_pos rfl] at kept
          exact kept
        · exact freed victim later
      · have apart : other ≠ first.1 := fun same => absent (by rw [same]; exact List.mem_cons_self)
        have kept := others other fun listed => absent (List.mem_cons_of_mem _ listed)
        rw [group?_setGroup known, if_neg apart] at kept
        exact kept
      · rw [List.map_cons, List.sum_cons]
        change ((context.setGroup first.1 first.2.free).freeBootBlocks
          rest).bootstrapCacheResidentBytes + _ = _
        omega

/-- The loop stops when the rest fits or when no candidate is left. -/
theorem victims_spec (budget incoming resident : Nat)
    (candidates : List (Address × Group Factor)) :
    victims budget incoming resident candidates <+: candidates ∧
      (resident - ((victims budget incoming resident candidates).map fun victim =>
          victim.2.block.bytes).sum + incoming ≤ budget ∨
        victims budget incoming resident candidates = candidates) := by
  induction candidates generalizing resident with
  | nil => exact ⟨List.prefix_refl _, Or.inr rfl⟩
  | cons first rest inductionHypothesis =>
      rw [victims]
      split
      case isTrue =>
        obtain ⟨front, ends⟩ := inductionHypothesis (resident - first.2.block.bytes)
        refine ⟨(List.prefix_cons_inj first).mpr front, ?_⟩
        rcases ends with fits | all
        · left
          rw [List.map_cons, List.sum_cons, ← Nat.sub_sub]
          exact fits
        · right
          rw [all]
      case isFalse fits => exact ⟨List.nil_prefix, Or.inl (by simpa using fits)⟩

/-- A candidate is a stored group that is resident, can be reloaded and is not kept. -/
theorem mem_candidates {keep : Option Address} {entry : Address × Group Factor}
    (listed : entry ∈ context.candidates keep) :
    context.group? entry.1 = some entry.2 ∧ entry.2.block.resident = true ∧
      entry.2.block.hasSnapshot = true ∧ some entry.1 ≠ keep := by
  obtain ⟨member, chosen⟩ := List.mem_filter.mp (List.mem_mergeSort.mp listed)
  have parts := Bool.and_eq_true_iff.mp chosen
  have front := Bool.and_eq_true_iff.mp parts.1
  exact ⟨mem_blocks.mp member, front.1, front.2, of_decide_eq_true parts.2⟩

theorem candidates_nodup (context : ContextData Factor) (keep : Option Address) :
    ((context.candidates keep).map Prod.fst).Nodup := by
  have sorted := (List.mergeSort_perm (context.blocks.filter fun entry =>
    entry.2.block.resident && entry.2.block.hasSnapshot && some entry.1 ≠ keep)
      fun first second => second.2.block.lastUse ≤ first.2.block.lastUse).map Prod.fst
  rw [candidates, sorted.nodup_iff]
  exact (blocks_nodup context).sublist (List.filter_sublist.map Prod.fst)

/-- An eviction frees some groups that are resident, can be reloaded and are not kept. It ends
within the budget, or no other such group is left. -/
theorem evict_spec (context : ContextData Factor) (budget incoming : Nat)
    (keep : Option Address) :
    ∃ victims : List (Address × Group Factor),
      (∀ victim ∈ victims, context.group? victim.1 = some victim.2 ∧
        victim.2.block.resident = true ∧ victim.2.block.hasSnapshot = true ∧
        some victim.1 ≠ keep ∧
        (context.evictBootstrapCache budget incoming keep).group? victim.1 =
          some victim.2.free) ∧
      (∀ other, other ∉ victims.map Prod.fst →
        (context.evictBootstrapCache budget incoming keep).group? other =
          context.group? other) ∧
      ((context.evictBootstrapCache budget incoming keep).bootstrapCacheResidentBytes + incoming ≤
          budget ∨
        ∀ address group, context.group? address = some group → group.block.resident = true →
          group.block.hasSnapshot = true → some address ≠ keep →
            address ∈ victims.map Prod.fst) := by
  unfold evictBootstrapCache
  split
  case isTrue fits => exact ⟨[], List.forall_mem_nil _, fun _ _ => rfl, Or.inl fits⟩
  case isFalse =>
    obtain ⟨front, ends⟩ := victims_spec budget incoming context.bootstrapCacheResidentBytes
      (context.candidates keep)
    generalize ContextData.victims budget incoming context.bootstrapCacheResidentBytes
      (context.candidates keep) = chosen at *
    have member {victim : Address × Group Factor} (listed : victim ∈ chosen) :
        victim ∈ context.candidates keep := front.subset listed
    have distinct : (chosen.map Prod.fst).Nodup :=
      (candidates_nodup context keep).sublist (front.sublist.map Prod.fst)
    obtain ⟨freed, others, bytes⟩ := freeBootBlocks_spec distinct fun victim listed =>
      (mem_candidates (member listed)).1
    refine ⟨chosen, fun victim listed => ?_, others, ?_⟩
    · obtain ⟨known, resident, saved, apart⟩ := mem_candidates (member listed)
      exact ⟨known, resident, saved, apart, freed victim listed⟩
    · have shares : (chosen.map fun victim => victim.2.residentBytes) =
          chosen.map fun victim => victim.2.block.bytes := by
        apply List.map_congr_left
        intro victim listed
        exact if_pos (mem_candidates (member listed)).2.1
      rw [shares] at bytes
      rcases ends with fits | all
      · left
        rw [← bytes, Nat.add_sub_cancel] at fits
        exact fits
      · right
        intro address group known resident saved apart
        rw [all]
        refine List.mem_map.mpr ⟨(address, group), List.mem_mergeSort.mpr ?_, rfl⟩
        refine List.mem_filter.mpr ⟨mem_blocks.mpr known, ?_⟩
        simp [resident, saved, apart]

end ContextData
end Fideslib.BootCache

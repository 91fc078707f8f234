/-
This file proves exactly when a batched operation equals the loop of single operations.
-/

import Fideslib.Kernels.ManyToOneTables
import Fideslib.Kernels.NarrowLimbs
import Fideslib.KeySwitch.ModDownContract

namespace Fideslib.ManyToOne

open Call (data_ptrs launched)
open LinearTransform (place_div)
open Fideslib.Modular

/-- A call of additions or products reads partitions. -/
structure Work.OfPartitions (work : Work) (call : Call) (partb : Nat) (extb : Bool) : Prop where
  table : ∃ size, work.table = data_ptrs size (call.addWrites partb extb)
  launches : ∃ first second : Kernel, first.scalar = false ∧ second.scalar = false ∧
    work.launches = launched (⟨first, false, 0, call.whole partb, 0, call.limbsize⟩ ::
      if extb then
        [⟨second, true, call.whole partb + call.split partb * partb,
          call.whole partb + call.split partb * partb + call.whole partb, 0, call.SPECIALlimb⟩]
      else [])

/-- A call with scalars reads words of the table. -/
structure Work.OfScalars (work : Work) (call : Call) (partb : Nat)
    (vector vector_shoup : List (List Nat)) : Prop where
  table : ∃ size, work.table = data_ptrs size (call.scalarWrites partb vector vector_shoup)
  launches : ∃ kernel : Kernel, ∃ shoup : Nat, kernel.scalar = true ∧
    (kernel = .mult_scalar_reuse_b___ →
      shoup = call.whole partb + call.split partb * partb * MAXP ∧
        ∀ i < partb, ∀ limb < call.limbsize,
          call.primeid false limb < (vector_shoup.getD i []).length) ∧
    work.launches = launched [⟨kernel, false, 0, call.whole partb, shoup, call.limbsize⟩]

section Runs

variable {call : Call} {partb : Nat} {work : Work}

theorem mem_launched {launches : List Launch} {launch : Launch} :
    launch ∈ launched launches ↔ launch ∈ launches ∧ 0 < launch.limbs := by
  simp only [launched, List.mem_filter, decide_eq_true_eq]

/-- Every pass of a call belongs to a part of a thread of one of its launches. -/
theorem mem_visits {visits : List Visit} (ran : work.visits call partb = some visits) {visit : Visit}
    (member : visit ∈ visits) :
    ∃ launch ∈ work.launches, ∃ thread ∈ launch.threads call (call.gridz partb), ∃ i,
      launch.visit call work.table (call.its partb) thread i = some visit := by
  unfold Work.visits at ran
  obtain ⟨launches, all, same⟩ := Option.bind_eq_some_iff.mp ran
  cases same
  obtain ⟨passes, inLaunches, inPasses⟩ := List.mem_flatten.mp member
  obtain ⟨launch, inWork, made⟩ := (PartialLists.mem_mapM all).mp inLaunches
  obtain ⟨threads, each, same⟩ := Option.bind_eq_some_iff.mp made
  cases same
  obtain ⟨own, inThreads, inOwn⟩ := List.mem_flatten.mp inPasses
  obtain ⟨thread, inOrder, ranThread⟩ := (PartialLists.mem_mapM each).mp inThreads
  obtain ⟨i, -, pass⟩ := (PartialLists.mem_mapM ranThread).mp inOwn
  exact ⟨launch, inWork, thread, inOrder, i, pass⟩

/-- The targets of a pass come from the table. -/
theorem mem_targetsFrom {table : Table} {its : Nat} {entry : Entry} :
    ∀ {place : Nat} {targets : List Entry}, targetsFrom table place its = some targets →
      entry ∈ targets → ∃ j < its, table (place + j) = some entry := by
  induction its with
  | zero =>
      intro place targets found member
      cases found
      exact absurd member List.not_mem_nil
  | succ its inductionHypothesis =>
      intro place targets found member
      unfold targetsFrom at found
      obtain ⟨first, here, rest⟩ := Option.bind_eq_some_iff.mp found
      by_cases null : first = .null
      · subst null
        cases rest
        exact absurd member List.not_mem_nil
      · have next : ∃ others, targetsFrom table (place + 1) its = some others ∧
            targets = first :: others := by
          cases first with
          | null => exact absurd rfl null
          | target position special =>
              obtain ⟨others, found, same⟩ := Option.bind_eq_some_iff.mp rest
              exact ⟨others, found, (Option.some.inj same).symm⟩
          | source position special =>
              obtain ⟨others, found, same⟩ := Option.bind_eq_some_iff.mp rest
              exact ⟨others, found, (Option.some.inj same).symm⟩
          | scalar position prime =>
              obtain ⟨others, found, same⟩ := Option.bind_eq_some_iff.mp rest
              exact ⟨others, found, (Option.some.inj same).symm⟩
          | shoup position prime =>
              obtain ⟨others, found, same⟩ := Option.bind_eq_some_iff.mp rest
              exact ⟨others, found, (Option.some.inj same).symm⟩
        obtain ⟨others, remaining, rfl⟩ := next
        rcases List.mem_cons.mp member with rfl | later
        · exact ⟨0, Nat.succ_pos its, here⟩
        · obtain ⟨j, below, there⟩ := inductionHypothesis remaining later
          exact ⟨j + 1, Nat.succ_lt_succ below, by rwa [← Nat.add_assoc, Nat.add_right_comm]⟩

/-- An update of the loop is one of the passes that has its target and its operand. -/
theorem update_visit {visits : List Visit} (ran : work.visits call partb = some visits)
    (same : (visits.flatMap Visit.updates).Perm (work.loop call partb)) (shaped : call.Shaped partb)
    {launch : Launch} (inWork : launch ∈ work.launches) {place limb : Nat}
    (inside : place < call.stride * partb) (inLimb : limb < launch.limbs) :
    ∃ own ∈ work.launches, ∃ i, ∃ j < call.its partb,
      work.table (own.a + i * call.its partb + j) = some (.target place launch.special) ∧
      own.kernel = launch.kernel ∧
      own.loads call work.table i (call.primeid own.special limb) =
        some (launch.kernel.operand (call.isU64 (call.primeid launch.special limb)) launch.special
          (place / call.stride) (call.primeid launch.special limb)) := by
  have updated : launch.updateOf call place limb 0 ∈ visits.flatMap Visit.updates :=
    same.mem_iff.mpr ((mem_loop shaped).mpr
      ⟨launch, inWork, place, inside, limb, inLimb, 0, shaped.N_pos, rfl⟩)
  obtain ⟨visit, inVisits, update⟩ := List.mem_flatMap.mp updated
  obtain ⟨own, ownIn, thread, -, i, pass⟩ := mem_visits ran inVisits
  obtain ⟨target, inTargets, made⟩ := List.mem_map.mp update
  obtain ⟨loads, loaded, rest⟩ := Option.bind_eq_some_iff.mp pass
  obtain ⟨targets, found, built⟩ := Option.bind_eq_some_iff.mp rest
  cases built
  simp only [Launch.updateOf, Visit.mk.injEq, List.cons.injEq, and_true] at made
  obtain ⟨kernel, -, row, -, operand, aim⟩ := made
  obtain ⟨j, below, there⟩ := mem_targetsFrom found inTargets
  refine ⟨own, ownIn, i, j, below, ?_, kernel, ?_⟩
  · rw [there, aim]
  · rw [← row, loaded, operand, row]

/-- A call whose table has lost a target does not make the update of that target. -/
theorem lost_fails {visits : List Visit} (ran : work.visits call partb = some visits)
    (same : (visits.flatMap Visit.updates).Perm (work.loop call partb)) (shaped : call.Shaped partb)
    {launch : Launch} (inWork : launch ∈ work.launches) (inLimb : 0 < launch.limbs) {place : Nat}
    (inside : place < call.stride * partb)
    (lost : ∀ other, work.table other ≠ some (.target place launch.special)) : False := by
  obtain ⟨own, -, i, j, -, there, -⟩ := update_visit ran same shaped inWork inside inLimb
  exact lost _ there

/-- The launches of a call on partitions use the regular limbs or the special ones. -/
theorem partitions_launch {extb : Bool} (made : work.OfPartitions call partb extb) {launch : Launch}
    (inWork : launch ∈ work.launches) :
    launch.kernel.scalar = false ∧ 0 < launch.limbs ∧
      (launch.special = false ∧ launch.a = 0 ∧ launch.b = call.whole partb ∨
        extb = true ∧ launch.special = true ∧
          launch.a = call.whole partb + call.split partb * partb ∧
          launch.b = call.whole partb + call.split partb * partb + call.whole partb) := by
  obtain ⟨first, second, regular, special, launches⟩ := made.launches
  rw [launches] at inWork
  obtain ⟨member, positive⟩ := mem_launched.mp inWork
  rcases List.mem_cons.mp member with rfl | later
  · exact ⟨regular, positive, Or.inl ⟨rfl, rfl, rfl⟩⟩
  · split_ifs at later with ext
    · rw [List.mem_singleton] at later
      subst later
      exact ⟨special, positive, Or.inr ⟨ext, rfl, rfl, rfl⟩⟩
    · exact absurd later List.not_mem_nil

theorem partitions_distinct {extb : Bool} (made : work.OfPartitions call partb extb) :
    work.Distinct := by
  obtain ⟨first, second, -, -, launches⟩ := made.launches
  unfold Work.Distinct
  rw [launches]
  refine List.Nodup.sublist (List.Sublist.map _ List.filter_sublist) ?_
  cases extb <;> simp

theorem partitions_supplied {extb : Bool} (made : work.OfPartitions call partb extb)
    {operands : Operands} (length : operands.partb.length = partb)
    (apart : ∀ part ∈ operands.partb, part ∉ operands.parta) {launch : Launch}
    (inWork : launch ∈ work.launches) : launch.Supplied call operands partb := by
  obtain ⟨pointers, -, -⟩ := partitions_launch made inWork
  intro i inside limb inLimb load member
  have operand : ∀ {isU64 special : Bool} {i primeid : Nat},
      launch.kernel.operand isU64 special i primeid = [⟨.source i special, .whole⟩] := by
    intro isU64 special i primeid
    cases kernel : launch.kernel <;> simp_all [Kernel.scalar, Kernel.operand]
  rw [operand, List.mem_singleton] at member
  subst member
  rw [if_neg (by rw [pointers]; decide)]
  rw [← length] at inside
  refine ⟨operands.partb[i], apart _ (List.getElem_mem inside), fun idx => ?_⟩
  simp only [Operands.cell, List.getElem?_eq_getElem inside, Option.map_some]

variable {vector vector_shoup : List (List Nat)}

theorem scalars_launch (made : work.OfScalars call partb vector vector_shoup) {launch : Launch}
    (inWork : launch ∈ work.launches) :
    launch.kernel.scalar = true ∧ 0 < launch.limbs ∧ launch.special = false ∧ launch.a = 0 ∧
      launch.b = call.whole partb ∧ launch.limbs = call.limbsize ∧
      (launch.kernel = .mult_scalar_reuse_b___ →
        launch.b_shoup = call.whole partb + call.split partb * partb * MAXP ∧
          ∀ i < partb, ∀ limb < call.limbsize,
            call.primeid false limb < (vector_shoup.getD i []).length) := by
  obtain ⟨kernel, shoup, scalar, prepared, launches⟩ := made.launches
  rw [launches] at inWork
  obtain ⟨member, positive⟩ := mem_launched.mp inWork
  rw [List.mem_singleton] at member
  subst member
  exact ⟨scalar, positive, rfl, rfl, rfl, rfl, prepared⟩

theorem scalars_distinct (made : work.OfScalars call partb vector vector_shoup) :
    work.Distinct := by
  obtain ⟨kernel, shoup, -, -, launches⟩ := made.launches
  unfold Work.Distinct
  rw [launches]
  exact List.Nodup.sublist (List.Sublist.map _ List.filter_sublist) (List.nodup_singleton _)

/-- A scalar kernel loads one word, or a word and its prepared form. -/
theorem scalar_kernel {kernel : Kernel} (scalar : kernel.scalar = true) :
    kernel = .add_scalar_reuse_b___ ∨ kernel = .mult_scalar_reuse_b___ := by
  cases kernel <;> simp_all [Kernel.scalar]

theorem scalars_supplied (made : work.OfScalars call partb vector vector_shoup)
    {operands : Operands} (words : operands.vector = vector)
    (shoups : ∀ launch ∈ work.launches, launch.kernel = .mult_scalar_reuse_b___ →
      operands.vector_shoup = vector_shoup)
    (long : ∀ i < partb, ∀ limb < call.limbsize, call.primeid false limb < (vector.getD i []).length)
    {launch : Launch} (inWork : launch ∈ work.launches) : launch.Supplied call operands partb := by
  obtain ⟨scalar, -, kind, -, -, limbs, prepared⟩ := scalars_launch made inWork
  intro i inside limb inLimb load member
  rw [limbs] at inLimb
  rw [kind] at member
  rw [if_pos scalar]
  have word : (operands.scalarWord (.scalar i (call.primeid false limb))).isSome := by
    simp only [Operands.scalarWord, words, List.getElem?_eq_getElem (long i inside limb inLimb),
      Option.isSome_some]
  rcases scalar_kernel scalar with kernel | kernel
  · rw [kernel] at member
    rw [List.mem_singleton.mp member]
    exact word
  · rw [kernel] at member
    rcases List.mem_cons.mp member with rfl | later
    · exact word
    · rw [List.mem_singleton.mp later]
      have present := (prepared kernel).2 i inside limb inLimb
      simp only [Operands.scalarWord, shoups launch inWork kernel,
        List.getElem?_eq_getElem present, Option.isSome_some]

/-- A narrow limb takes the low half of a word where its kernel reads the first word of the table
of one part. -/
def Readable (call : Call) (partb : Nat) : Prop :=
  ∀ limb < call.limbsize, call.isU64 (call.primeid false limb) = true ∨
    call.split partb * partb = 1 ∧ call.primeid false limb = 0

theorem wordAt_eq {table : Table} {base i primeid : Nat} {entry : Entry}
    (readable : call.isU64 primeid = true ∨ i = 0 ∧ primeid = 0)
    (found : table (base + (i * MAXP + primeid)) = some entry) :
    Launch.wordAt call table base i primeid =
      some ⟨entry, if call.isU64 primeid then .whole else .low⟩ := by
  unfold Launch.wordAt
  by_cases wide : call.isU64 primeid = true
  · rw [if_pos wide, if_pos wide, found]
    rfl
  · obtain ⟨rfl, rfl⟩ := readable.resolve_left wide
    rw [if_neg wide, if_neg wide]
    rw [Nat.zero_mul, Nat.zero_add] at found ⊢
    rw [Nat.zero_div, found]
    rfl

theorem scalars_loaded (made : work.OfScalars call partb vector vector_shoup)
    (even : call.its partb * call.split partb = call.stride) (fits : Call.Fits vector)
    (shoupFits : Call.Fits vector_shoup)
    (long : ∀ i < partb, ∀ limb < call.limbsize, call.primeid false limb < (vector.getD i []).length)
    (readable : Readable call partb) {launch : Launch} (inWork : launch ∈ work.launches) :
    launch.Loaded call partb work.table := by
  obtain ⟨size, table⟩ := made.table
  obtain ⟨scalar, -, kind, a, b, limbs, prepared⟩ := scalars_launch made inWork
  rw [table]
  refine ⟨?_, ?_⟩
  · intro place inside
    rw [a, Nat.zero_add, kind]
    exact Call.scalar_target even size inside
  · intro i inside limb inLimb
    rw [limbs] at inLimb
    have row : i / call.split partb < partb := Nat.div_lt_of_lt_mul inside
    have narrow : call.isU64 (call.primeid false limb) = true ∨
        i = 0 ∧ call.primeid false limb = 0 := by
      refine (readable limb inLimb).imp_right fun single => ?_
      exact ⟨by omega, single.2⟩
    have word := @Call.scalar_word call partb vector vector_shoup even fits size _ _ inside
      (long _ row limb inLimb)
    have first := wordAt_eq narrow word
    unfold Launch.loads
    rw [kind, b]
    rcases scalar_kernel scalar with kernel | kernel
    · simp only [kernel, first, Kernel.operand, Option.bind_eq_bind, Option.bind_some,
        Option.pure_def]
    · obtain ⟨base, present⟩ := prepared kernel
      have second := wordAt_eq narrow (Call.shoup_word even fits shoupFits size inside
        (present _ row limb inLimb))
      rw [base]
      simp only [kernel, first, second, Kernel.operand, Option.bind_eq_bind, Option.bind_some,
        Option.pure_def]

/-- The first load of a scalar kernel is a word of its scalar. -/
theorem first_load {launch : Launch} {table : Table} (scalar : launch.kernel.scalar = true)
    {isU64 : Bool} {i position primeid : Nat}
    (loads : launch.loads call table i primeid =
      some (launch.kernel.operand isU64 false position primeid)) :
    Launch.wordAt call table launch.b i primeid =
      some ⟨.scalar position primeid, if isU64 then .whole else .low⟩ := by
  unfold Launch.loads at loads
  rcases scalar_kernel scalar with kernel | kernel
  · rw [kernel] at loads
    obtain ⟨load, found, same⟩ := Option.bind_eq_some_iff.mp loads
    cases same
    exact found
  · rw [kernel] at loads
    obtain ⟨load, found, rest⟩ := Option.bind_eq_some_iff.mp loads
    obtain ⟨shoup, -, same⟩ := Option.bind_eq_some_iff.mp rest
    cases same
    exact found

/-- A narrow limb finds its scalar in one part with the first prime only. -/
theorem narrow_readable (made : work.OfScalars call partb vector vector_shoup)
    (shaped : call.Shaped partb)
    (even : call.its partb * call.split partb = call.stride) {visits : List Visit}
    (ran : work.visits call partb = some visits)
    (same : (visits.flatMap Visit.updates).Perm (work.loop call partb)) : Readable call partb := by
  intro limb inLimb
  by_contra unreadable
  obtain ⟨narrow, several⟩ := not_or.mp unreadable
  have its := shaped.its_pos
  have parts := Nat.mul_pos shaped.split_pos shaped.partb_pos
  obtain ⟨size, table⟩ := made.table
  obtain ⟨kernel, shoup, -, -, launches⟩ := made.launches
  obtain ⟨part, first, inside⟩ : ∃ part, part = (if call.primeid false limb = 0 then 1 else 0) ∧
      part < call.split partb * partb := by
    refine ⟨_, rfl, ?_⟩
    split_ifs with zero
    · have more : call.split partb * partb ≠ 1 := fun one => several ⟨one, zero⟩
      omega
    · exact parts
  have inWork : (⟨kernel, false, 0, call.whole partb, shoup, call.limbsize⟩ : Launch) ∈
      work.launches := by
    rw [launches]
    exact mem_launched.mpr ⟨List.mem_singleton_self _, Nat.zero_lt_of_lt inLimb⟩
  have place := part_lt even inside its
  obtain ⟨own, ownIn, i, j, below, target, ownKernel, loads⟩ :=
    update_visit ran same shaped inWork place inLimb
  obtain ⟨scalar, -, kind, a, b, -, -⟩ := scalars_launch made ownIn
  have here : i = part := by
    rw [table, a, Nat.zero_add] at target
    rcases Call.mem_scalarWrites even ((Call.data_ptrs_entry target).resolve_left (by simp)) with
      ⟨q, -, spot, entry⟩ | ⟨q, -, prime, -, -, entry⟩ | ⟨q, -, prime, -, -, entry⟩
    · injection entry with positions _
      have places : i * call.its partb + j = part * call.its partb + 0 := by omega
      have rows := congrArg (· / call.its partb) places
      simpa only [place_div below, place_div its] using rows
    · cases entry
    · cases entry
  subst here
  rw [kind, ← ownKernel] at loads
  have wide := first_load scalar loads
  unfold Launch.wordAt at wide
  rw [if_neg narrow, if_neg narrow, b, table, Option.map_eq_some_iff] at wide
  obtain ⟨entry, found, load⟩ := wide
  injection load with word half
  subst word
  rcases Call.mem_scalarWrites even ((Call.data_ptrs_entry found).resolve_left (by simp)) with
    ⟨q, -, spot, entry⟩ | ⟨q, -, prime, -, spot, entry⟩ | ⟨q, -, prime, -, -, entry⟩
  · cases entry
  · injection entry with _ primes
    rw [Call.whole_eq even, primes] at spot
    have halves : (i * MAXP + prime) / 2 = q * MAXP + prime := Nat.add_left_cancel spot
    rw [first, primes] at halves
    unfold MAXP at halves
    split_ifs at halves with zero
    · omega
    · omega
  · cases entry

/-- A call without launches changes nothing, and its loop is empty. -/
theorem loop_idle (idle : work.launches = []) : work.loop call partb = [] := by
  unfold Work.loop
  rw [idle]
  simp

theorem visits_idle (idle : work.launches = []) : work.visits call partb = some [] := by
  unfold Work.visits
  rw [idle]
  rfl

end Runs

section Words

open NarrowLimbs (Words)

variable {cc : KeySwitch.Constants} {primeid : Nat}

/-- The single operations of the library make this word of a 64-bit limb, and they multiply by a
scalar that is not prepared. A subtraction between the two bases has no single operation. -/
def Kernel.single (cc : KeySwitch.Constants) (primeid : Nat) (a b : Words) (idx : Nat) :
    Kernel → Option Nat
  | .add_reuse_b___ | .add_scalar_reuse_b___ => some (modadd (a idx) (b idx) (cc.primes primeid))
  | .sub_reuse_b___ => some (modsub (a idx) (b idx) (cc.primes primeid))
  | .mult_reuse_b___ | .mult_scalar_reuse_b___ =>
      some (modmult .barrett (a idx) (b idx) (cc.primes primeid) 0)
  | .add_reuse_scale_p_b___ => some (NarrowLimbs.add_scale_p_b_ cc true primeid cc.N a b idx)
  | .add_scale_p_reuse_b___ => some (NarrowLimbs.add_scale_p_a_ cc true primeid cc.N a b idx)
  | .copy_reuse_b___ => some (b idx)
  | .sub_reuse_scale_p_b___ | .sub_scale_p_reuse_b___ | .copy_reuse_negative_b___ => none

/-- On wide limbs a batch makes of canonical words what the single operation makes of them. -/
theorem word_single (ring : 0 < cc.N) (modulus : Modulus (cc.primes primeid)) {a b : Words}
    {idx word : Nat} (left : a idx < cc.primes primeid) (right : b idx < cc.primes primeid)
    {kernel : Kernel} (single : kernel.single cc primeid a b idx = some word) :
    kernel.word cc true primeid (b idx) (shoup_precomp (b idx) (cc.primes primeid)) (a idx) =
      word := by
  cases kernel <;> simp only [Kernel.single, Option.some.injEq, reduceCtorEq] at single <;>
    subst single
  case mult_scalar_reuse_b___ =>
    have prepared := modmult_eq modulus .shoup left right
    have barrett : modmult .barrett (a idx) (b idx) (cc.primes primeid) 0 =
        a idx * b idx % cc.primes primeid := Neal_mult_64_eq modulus left right
    simp only [Kernel.word, if_true]
    rw [prepared, barrett]
  case add_scale_p_reuse_b___ =>
    simp only [NarrowLimbs.add_scale_p_a_, NarrowLimbs.addScaled, Kernels.logstride_self ring,
      Nat.shiftRight_zero, Kernel.word, if_true, modadd]
    rw [Nat.add_comm]
  all_goals
    simp only [NarrowLimbs.add_scale_p_b_, NarrowLimbs.addScaled, Kernels.logstride_self ring,
      Nat.shiftRight_zero, Kernel.word, if_true]

end Words

namespace Operation

variable {call : Call} {operation : Operation} {work : Work}

/-- The scalars of an operation have a word for each limb and fit into the table. -/
def Words (call : Call) : Operation → Prop
  | addScalarBatchManyToOne vector => Call.Fits vector ∧
      ∀ i < vector.length, ∀ limb < call.limbsize,
        call.primeid false limb < (vector.getD i []).length
  | multScalarBatchManyToOne vector vector_shoup =>
      (Call.Fits vector ∧ ∀ i < vector.length, ∀ limb < call.limbsize,
        call.primeid false limb < (vector.getD i []).length) ∧
      (Call.Fits vector_shoup ∧ ∀ i < vector.length, ∀ limb < call.limbsize,
        call.primeid false limb < (vector_shoup.getD i []).length)
  | _ => True

/-- The operands of a call have the shapes that its loops index. -/
structure Meets (call : Call) (operation : Operation) : Prop where
  shaped : call.Shaped operation.partb
  words : operation.Words call

/-- The parts of a stride have the same number of targets, an addition to special limbs has a second
target, and narrow scalars have one part. -/
def Covers (call : Call) : Operation → Prop
  | addBatchManyToOne partb _ _ extb => (extb = true → 1 < call.parta) ∧
      (call.split partb ∣ call.stride ∨
        call.limbsize = 0 ∧ (extb = true → call.SPECIALlimb = 0))
  | multPtBatchManyToOne partb => call.split partb ∣ call.stride ∨ call.limbsize = 0
  | addScalarBatchManyToOne vector =>
      (call.split vector.length ∣ call.stride ∨ call.limbsize = 0) ∧ Readable call vector.length
  | multScalarBatchManyToOne vector _ =>
      (call.split vector.length ∣ call.stride ∨ call.limbsize = 0) ∧ Readable call vector.length

/-- Full parts and calls without launches equal the loop of single operations. -/
theorem updatesOnce_of (made : operation.work call = some work)
    (shaped : call.Shaped operation.partb) (distinct : work.Distinct)
    (full : work.launches = [] ∨
      call.its operation.partb * call.split operation.partb = call.stride ∧
        ∀ launch ∈ work.launches, launch.Loaded call operation.partb work.table)
    (supplied : ∀ operands : Operands, operands.Separate call operation →
      ∀ launch ∈ work.launches, launch.Supplied call operands operation.partb) :
    operation.UpdatesOnce call := by
  refine ⟨work, made, ?_⟩
  rcases full with idle | ⟨even, loaded⟩
  · refine ⟨⟨[], visits_idle idle, ?_⟩, ?_⟩
    · rw [loop_idle idle]
      exact List.Perm.refl _
    · intro operands _ orders _ memory
      refine ⟨memory, ?_, ?_⟩
      · rw [Work.run, idle]
        rfl
      · rw [loop_idle idle]
        rfl
  · refine ⟨⟨_, work_visits_eq shaped even loaded, updates_perm shaped even distinct⟩, ?_⟩
    intro operands separate orders order memory
    exact run_eq_loop shaped even separate.parta distinct separate.distinct loaded
      (supplied operands separate) order memory

/-- A call on partitions has no launch or full parts exactly when it makes each update once. -/
theorem partitions_iff {extb : Bool} (made : operation.work call = some work)
    (shaped : call.Shaped operation.partb)
    (partitions : work.OfPartitions call operation.partb extb) :
    operation.UpdatesOnce call ↔ call.split operation.partb ∣ call.stride ∨
      call.limbsize = 0 ∧ (extb = true → call.SPECIALlimb = 0) := by
  obtain ⟨size, table⟩ := partitions.table
  obtain ⟨first, second, -, -, launches⟩ := partitions.launches
  constructor
  · rintro ⟨other, same, ⟨visits, ran, perm⟩, -⟩
    rw [made, Option.some.injEq] at same
    subst same
    by_contra fails
    obtain ⟨uneven, busy⟩ := not_or.mp fails
    rw [← Call.Shaped.even_iff] at uneven
    have short := lt_of_le_of_ne Call.Shaped.parts_within uneven
    obtain ⟨launch, inWork⟩ : ∃ launch, launch ∈ work.launches := by
      rw [launches]
      by_cases regular : call.limbsize = 0
      · have special : extb = true ∧ call.SPECIALlimb ≠ 0 :=
          Classical.not_imp.mp fun none => busy ⟨regular, none⟩
        rw [if_pos special.1]
        exact ⟨_, mem_launched.mpr ⟨List.mem_cons_of_mem _ (List.mem_singleton_self _),
          Nat.pos_of_ne_zero special.2⟩⟩
      · exact ⟨_, mem_launched.mpr ⟨List.mem_cons_self, Nat.pos_of_ne_zero regular⟩⟩
    obtain ⟨-, positive, region⟩ := partitions_launch partitions inWork
    have inside : call.its operation.partb * call.split operation.partb <
        call.stride * operation.partb :=
      lt_of_lt_of_le short (Nat.le_mul_of_pos_right _ shaped.partb_pos)
    refine lost_fails ran perm shaped inWork positive inside fun place => ?_
    rw [table]
    apply Call.add_lost shaped uneven
    intro special
    rcases region with ⟨regular, -⟩ | ⟨ext, -⟩
    · rw [regular] at special
      cases special
    · exact ext
  · intro full
    refine updatesOnce_of made shaped (partitions_distinct partitions) ?_
      fun operands separate launch inWork =>
        partitions_supplied partitions separate.partb separate.apart inWork
    rcases full with even | ⟨regular, special⟩
    · have whole := Call.Shaped.even_iff.mpr even
      refine Or.inr ⟨whole, fun launch inWork => ?_⟩
      obtain ⟨pointers, -, region⟩ := partitions_launch partitions inWork
      rw [table]
      exact Call.add_loaded whole pointers size region
    · left
      rw [launches, List.eq_nil_iff_forall_not_mem]
      intro launch inWork
      obtain ⟨member, positive⟩ := mem_launched.mp inWork
      rcases List.mem_cons.mp member with rfl | later
      · exact absurd regular (Nat.pos_iff_ne_zero.mp positive)
      · split_ifs at later with ext
        · rw [List.mem_singleton] at later
          subst later
          exact absurd (special ext) (Nat.pos_iff_ne_zero.mp positive)
        · exact absurd later List.not_mem_nil

/-- A scalar operation also has to read the words of its scalars. -/
theorem scalars_iff {vector vector_shoup : List (List Nat)} (made : operation.work call = some work)
    (shaped : call.Shaped operation.partb)
    (scalars : work.OfScalars call operation.partb vector vector_shoup)
    (fits : Call.Fits vector) (shoupFits : Call.Fits vector_shoup)
    (long : ∀ i < operation.partb, ∀ limb < call.limbsize,
      call.primeid false limb < (vector.getD i []).length)
    (given : ∀ operands : Operands, operands.Separate call operation → operands.vector = vector ∧
      ∀ launch ∈ work.launches, launch.kernel = .mult_scalar_reuse_b___ →
        operands.vector_shoup = vector_shoup) :
    operation.UpdatesOnce call ↔
      (call.split operation.partb ∣ call.stride ∨ call.limbsize = 0) ∧
        Readable call operation.partb := by
  obtain ⟨size, table⟩ := scalars.table
  obtain ⟨kernel, shoup, -, -, launches⟩ := scalars.launches
  constructor
  · rintro ⟨other, same, ⟨visits, ran, perm⟩, -⟩
    rw [made, Option.some.injEq] at same
    subst same
    by_cases idle : call.limbsize = 0
    · refine ⟨Or.inr idle, fun limb inLimb => ?_⟩
      omega
    have even : call.its operation.partb * call.split operation.partb = call.stride := by
      by_contra uneven
      have positive := Nat.pos_of_ne_zero idle
      have short := lt_of_le_of_ne Call.Shaped.parts_within uneven
      have inside : call.its operation.partb * call.split operation.partb <
          call.stride * operation.partb :=
        lt_of_lt_of_le short (Nat.le_mul_of_pos_right _ shaped.partb_pos)
      have present : 0 < (vector.getD 0 []).length :=
        Nat.zero_lt_of_lt (long 0 shaped.partb_pos 0 positive)
      have inWork : (⟨kernel, false, 0, call.whole operation.partb, shoup, call.limbsize⟩ : Launch) ∈
          work.launches := by
        rw [launches]
        exact mem_launched.mpr ⟨List.mem_singleton_self _, positive⟩
      refine lost_fails ran perm shaped inWork positive inside fun place => ?_
      rw [table]
      exact Call.scalar_lost shaped uneven present size place
    exact ⟨Or.inl (Call.Shaped.even_iff.mp even), narrow_readable scalars shaped even ran perm⟩
  · rintro ⟨full, readable⟩
    refine updatesOnce_of made shaped (scalars_distinct scalars) ?_
      fun operands separate launch inWork =>
        scalars_supplied scalars (given operands separate).1 (given operands separate).2 long inWork
    rcases full with even | idle
    · have whole := Call.Shaped.even_iff.mpr even
      exact Or.inr ⟨whole, fun launch inWork =>
        scalars_loaded scalars whole fits shoupFits long readable inWork⟩
    · left
      rw [launches, List.eq_nil_iff_forall_not_mem]
      intro launch inWork
      obtain ⟨member, positive⟩ := mem_launched.mp inWork
      rw [List.mem_singleton] at member
      subst member
      exact absurd idle (Nat.pos_iff_ne_zero.mp positive)

/-- An addition that returns reads partitions, and one to special limbs has a second target. -/
theorem add_work {partb : Nat} {sub exta extb : Bool}
    (made : call.addBatchManyToOne partb sub exta extb = some work) :
    (extb = true → 1 < call.parta) ∧ work.OfPartitions call partb extb := by
  unfold Call.addBatchManyToOne Call.slimbsize at made
  obtain ⟨slimbsize, special, same⟩ := Option.bind_eq_some_iff.mp made
  cases same
  refine ⟨?_, ⟨⟨_, rfl⟩, ?_⟩⟩
  · intro ext
    rw [ext, if_pos rfl] at special
    by_contra single
    rw [if_neg single] at special
    cases special
  · cases extb with
    | false => cases sub <;> cases exta <;> exact ⟨_, .copy_reuse_b___, by decide, by decide, rfl⟩
    | true =>
        have limbs : slimbsize = call.SPECIALlimb := by
          rw [if_pos rfl] at special
          split_ifs at special
          exact (Option.some.inj special).symm
        subst limbs
        cases sub <;> cases exta <;> exact ⟨_, _, by decide, by decide, rfl⟩

theorem add_returns {partb : Nat} {sub exta extb : Bool} (second : extb = true → 1 < call.parta) :
    ∃ work, call.addBatchManyToOne partb sub exta extb = some work := by
  unfold Call.addBatchManyToOne Call.slimbsize
  cases extb with
  | false => exact ⟨_, rfl⟩
  | true =>
      rw [if_pos rfl, if_pos (second rfl)]
      exact ⟨_, rfl⟩

theorem multPt_work (partb : Nat) : (call.multPtBatchManyToOne partb).OfPartitions call partb false := by
  refine ⟨⟨call.whole partb + call.split partb * partb, ?_⟩,
    ⟨.mult_reuse_b___, .copy_reuse_b___, rfl, rfl, rfl⟩⟩
  · have same : call.addWrites partb false = (List.range partb).flatMap fun i =>
        call.targetWrites partb 0 false i ++
          call.sourceWrites partb (call.whole partb) false i := by
      simp [Call.addWrites]
    rw [same]
    rfl

theorem addScalar_work (vector : List (List Nat)) :
    (call.addScalarBatchManyToOne vector).OfScalars call vector.length vector [] := by
  refine ⟨⟨call.whole vector.length + call.split vector.length * vector.length * MAXP, ?_⟩,
    ⟨.add_scalar_reuse_b___, 0, rfl, Kernel.noConfusion, rfl⟩⟩
  · have same : call.scalarWrites vector.length vector [] = (List.range vector.length).flatMap
        fun i => call.targetWrites vector.length 0 false i ++
          call.wordWrites vector.length (call.whole vector.length) .scalar
            (vector.getD i []).length i := by
      simp [Call.scalarWrites, Call.wordWrites_none]
    rw [same]
    rfl

theorem multScalar_work {vector vector_shoup : List (List Nat)}
    (long : ∀ i < vector.length, ∀ limb < call.limbsize,
      call.primeid false limb < (vector_shoup.getD i []).length) :
    (call.multScalarBatchManyToOne vector vector_shoup).OfScalars call vector.length vector
      vector_shoup :=
  ⟨⟨_, rfl⟩, ⟨.mult_scalar_reuse_b___, _, rfl, fun _ => ⟨rfl, long⟩, rfl⟩⟩

/-- A batched operation makes each update of its loop once exactly when its parts are full. -/
theorem updatesOnce_iff_covers (meets : operation.Meets call) :
    operation.UpdatesOnce call ↔ operation.Covers call := by
  obtain ⟨shaped, words⟩ := meets
  cases operation with
  | addBatchManyToOne partb sub exta extb =>
      constructor
      · intro once
        obtain ⟨work, made, -⟩ := id once
        obtain ⟨second, partitions⟩ := add_work made
        exact ⟨second, (@partitions_iff call (.addBatchManyToOne partb sub exta extb) work extb made
          shaped partitions).mp once⟩
      · rintro ⟨second, full⟩
        obtain ⟨work, made⟩ := @add_returns call partb sub exta extb second
        exact (@partitions_iff call (.addBatchManyToOne partb sub exta extb) work extb made shaped
          (add_work made).2).mpr full
  | multPtBatchManyToOne partb =>
      refine (@partitions_iff call (.multPtBatchManyToOne partb) _ false rfl shaped
        (multPt_work partb)).trans ?_
      change (call.split partb ∣ call.stride ∨ call.limbsize = 0 ∧ (false = true → _)) ↔
        (call.split partb ∣ call.stride ∨ call.limbsize = 0)
      simp only [Bool.false_eq_true, false_implies, and_true]
  | addScalarBatchManyToOne vector =>
      refine scalars_iff rfl shaped (addScalar_work vector) words.1 (fun i => by simp) words.2 ?_
      intro operands separate
      refine ⟨separate.scalars, fun launch inWork kernel => ?_⟩
      have member := (mem_launched.mp inWork).1
      rw [List.mem_singleton.mp member] at kernel
      cases kernel
  | multScalarBatchManyToOne vector vector_shoup =>
      refine scalars_iff rfl shaped (multScalar_work words.2.2) words.1.1 words.2.1 words.1.2 ?_
      intro operands separate
      exact ⟨separate.scalars.1, fun _ _ _ => separate.scalars.2⟩

/-- A batched operation equals the loop of single operations exactly when its parts are full, and
on 64-bit limbs its updates make the words of the single operations of the library. -/
theorem updatesOnce_iff (meets : operation.Meets call) :
    (operation.UpdatesOnce call ↔ operation.Covers call) ∧
      ∀ (kernel : Kernel) (primeid idx word : Nat) (a b : NarrowLimbs.Words),
        Modulus (call.cc.primes primeid) → a idx < call.cc.primes primeid →
        b idx < call.cc.primes primeid → kernel.single call.cc primeid a b idx = some word →
        kernel.word call.cc true primeid (b idx) (shoup_precomp (b idx) (call.cc.primes primeid))
          (a idx) = word :=
  ⟨updatesOnce_iff_covers meets, fun _ _ _ _ _ _ modulus left right single =>
    word_single meets.shaped.N_pos modulus left right single⟩

/-- Five targets of one operand on a device that asks for two parts. -/
def unevenCall : Call where
  cc := KeySwitch.Constants.SetupConstants KeySwitch.smallParams
  primeid := fun special limb => if special then 2 + limb else limb
  isU64 := fun _ => true
  limbsize := 1
  SPECIALlimb := 1
  parta := 5
  stride := 5
  threads := 256

/-- Two parts of two targets leave out the fifth target. -/
theorem uneven_leaves_out :
    (multPtBatchManyToOne 1).Meets unevenCall ∧
      ¬(multPtBatchManyToOne 1).UpdatesOnce unevenCall := by
  have shaped : unevenCall.Shaped 1 := ⟨⟨7, le_refl _, rfl⟩, by decide, by decide, rfl⟩
  refine ⟨⟨shaped, trivial⟩, ?_⟩
  rw [@partitions_iff unevenCall (.multPtBatchManyToOne 1) _ false rfl shaped (multPt_work 1)]
  decide

/-- Two operands with two targets each on a device that asks for four parts. -/
def evenCall : Call := { unevenCall with parta := 4, stride := 2, threads := 512 }

theorem even_covers : (addBatchManyToOne 2 false true true).UpdatesOnce evenCall := by
  have shaped : evenCall.Shaped 2 := ⟨⟨7, le_refl _, rfl⟩, by decide, by decide, rfl⟩
  have meets : (addBatchManyToOne 2 false true true).Meets evenCall := ⟨shaped, trivial⟩
  have covers : (addBatchManyToOne 2 false true true).Covers evenCall :=
    ⟨fun _ => by decide, Or.inl (by decide)⟩
  exact (updatesOnce_iff meets).1.mpr covers

end Operation
end Fideslib.ManyToOne

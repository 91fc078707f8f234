/-
This file settles when the construction of a context places its primes or throws.
-/

import Fideslib.Registry.PlacementContract

namespace Fideslib.Registry.Placement

/-- These failures are exceptions; the others end the process or leave the language. -/
def Failure.Thrown : Failure → Prop
  | .context (.runtimeError _) => True
  | .context (.assertion _) => False
  | .context .lengthError => True
  | .context .divisionByZero => False
  | .context .outOfBounds => False
  | .outOfRange => True

/-- A step that throws where it does not return. -/
def FailsThrown {Result : Type} (step : Except Failure Result) : Prop :=
  ∀ failure, step = .error failure → failure.Thrown

theorem FailsThrown.bind_iff {First Result : Type} {first : Except Failure First}
    {next : First → Except Failure Result} :
    FailsThrown (first >>= next) ↔
      FailsThrown first ∧ ∀ value, first = .ok value → FailsThrown (next value) := by
  cases first with
  | error failure =>
      constructor
      · intro throws
        refine ⟨fun early failed => ?_, fun value done => ?_⟩
        · cases failed
          exact throws _ rfl
        · cases done
      · rintro ⟨throws, -⟩ early failed
        cases failed
        exact throws _ rfl
  | ok value =>
      constructor
      · intro throws
        refine ⟨fun early failed => ?_, fun other done => ?_⟩
        · cases failed
        · cases done
          exact throws
      · rintro ⟨-, throws⟩
        exact throws value rfl

theorem FailsThrown.bind {First Result : Type} {first : Except Failure First}
    {next : First → Except Failure Result} (head : FailsThrown first)
    (tail : ∀ value, FailsThrown (next value)) : FailsThrown (first >>= next) :=
  bind_iff.mpr ⟨head, fun value _ => tail value⟩

theorem FailsThrown.ok {Result : Type} (result : Result) :
    FailsThrown (.ok result : Except Failure Result) := by
  intro failure failed
  cases failed

theorem FailsThrown.error_iff {Result : Type} {failure : Failure} :
    FailsThrown (.error failure : Except Failure Result) ↔ failure.Thrown := by
  constructor
  · intro throws
    exact throws failure rfl
  · intro thrown other failed
    cases failed
    exact thrown

section Steps

/-- The read past the end is the only failure of the sum that a larger list avoids. -/
theorem computeLogQ_throws_iff (asserts : Bool) (L : Int) (primes : List PrimeRecord) :
    FailsThrown (lift (computeLogQ asserts L primes)) ↔ L < primes.length := by
  unfold computeLogQ
  by_cases inside : L < primes.length
  · rw [if_neg (fun failed => failed.2 (by omega)), if_pos inside]
    exact iff_of_true (.ok _) inside
  · rw [if_neg inside]
    split <;> exact iff_of_false (fun throws => FailsThrown.error_iff.mp throws) inside

/-- The sum fills in the open bits of these primes. -/
def fillBits (L : Int) (primes : List PrimeRecord) : List PrimeRecord :=
  primes.mapIdx fun i prime =>
    if (i : Int) ≤ L ∧ prime.bits = -1 then { prime with bits := Nat.size prime.p } else prime

theorem computeLogQ_ok {asserts : Bool} {L : Int} {primes : List PrimeRecord}
    (inside : L < primes.length) : ∃ logQ,
      lift (computeLogQ asserts L primes) = .ok (logQ, fillBits L primes) := by
  unfold computeLogQ
  rw [if_neg (fun failed => failed.2 (by omega)), if_pos inside]
  exact ⟨_, rfl⟩

theorem validateDnum_throws (dnum : Int) : FailsThrown (lift (validateDnum dnum)) := by
  unfold validateDnum
  split
  · exact FailsThrown.error_iff.mpr trivial
  · exact .ok _

theorem validateDnum_ok {dnum checked : Int} :
    lift (validateDnum dnum) = .ok checked ↔ 1 ≤ dnum ∧ checked = dnum := by
  unfold validateDnum
  split
  · exact iff_of_false (fun done => by cases done) (by omega)
  · constructor
    · intro done
      cases done
      exact ⟨by omega, rfl⟩
    · rintro ⟨-, rfl⟩
      rfl

theorem resize_throws (count : Int) (primes : List PrimeRecord) :
    FailsThrown (lift (resize count primes)) := by
  unfold resize
  split
  · exact FailsThrown.error_iff.mpr trivial
  · exact .ok _

/-- A cut list needs no default records. -/
theorem resize_ok {count : Int} {primes resized : List PrimeRecord}
    (fits : count ≤ primes.length) :
    lift (resize count primes) = .ok resized ↔
      0 ≤ count ∧ resized = primes.take count.toNat := by
  have none : count.toNat - primes.length = 0 := by omega
  unfold resize
  rw [none, List.replicate_zero, List.append_nil]
  split
  · exact iff_of_false (fun done => by cases done) (by omega)
  · constructor
    · intro done
      cases done
      exact ⟨by omega, rfl⟩
    · rintro ⟨-, rfl⟩
      rfl

theorem generateMetaFrom_throws {devices size i : Nat} {dnum prev_digit_ : Int}
    {raw : Option RawParams} {primes : List PrimeRecord} {meta_ : List (List LimbRecord)}
    (positive : 0 < devices) :
    FailsThrown (generateMetaFrom devices size dnum raw primes i prev_digit_ meta_) := by
  induction primes generalizing i prev_digit_ meta_ with
  | nil => exact .ok _
  | cons prime primes ih =>
      simp only [generateMetaFrom]
      split
      · exact FailsThrown.error_iff.mpr trivial
      · rw [if_neg (by omega)]
        exact ih

theorem generateLimbGPUid_throws (meta_ : List (List LimbRecord)) (L : Int)
    (SPECIALmeta : List (List LimbRecord)) (K : Int) :
    FailsThrown (generateLimbGPUid meta_ L SPECIALmeta K) := by
  unfold generateLimbGPUid
  generalize List.replicate (L + 1 + K).toNat (0, 0) = res
  induction NestedTable.places meta_ ++ NestedTable.places SPECIALmeta generalizing res with
  | nil => exact .ok _
  | cons write writes ih =>
      rw [List.foldlM_cons]
      refine .bind ?_ ih
      unfold writeLimb
      split
      · exact .ok _
      · exact FailsThrown.error_iff.mpr trivial

theorem atZero_throws {Item : Type} (items : List Item) : FailsThrown (atZero items) := by
  cases items with
  | nil => exact FailsThrown.error_iff.mpr trivial
  | cons item items => exact .ok _

theorem checkTables_throws (q p : List PrimeRecord) (meta_ : List (List LimbRecord))
    (smeta : List LimbRecord) (digitGPUid : List (List Int)) :
    FailsThrown (checkTables q p meta_ smeta digitGPUid) := by
  unfold checkTables
  simp only
  split
  · exact FailsThrown.error_iff.mpr trivial
  · split
    · exact FailsThrown.error_iff.mpr trivial
    · exact .ok _

end Steps

section Special

/-- A special prime covers one bit less than its width. -/
def coveredBits (prime : PrimeRecord) : Int :=
  (if prime.bits ≤ 0 then (Nat.size prime.p : Int) else prime.bits) - 1

/-- The loop covers the digit exactly where some of the next special primes do. -/
theorem coverDigit_covers_iff (logMaxD bits : Int) (primes : List PrimeRecord) :
    logMaxD ≤ (coverDigit logMaxD bits primes).1 ↔
      ∃ count ≤ primes.length, logMaxD ≤ bits + ((primes.take count).map coveredBits).sum := by
  induction primes generalizing bits with
  | nil =>
      rw [coverDigit]
      constructor
      · intro covered
        exact ⟨0, le_rfl, by simpa using covered⟩
      · rintro ⟨count, -, covered⟩
        simpa using covered
  | cons prime rest ih =>
      rw [coverDigit]
      by_cases open_ : bits < logMaxD
      · have width : bits + ((if prime.bits ≤ 0 then
            { prime with bits := Nat.size prime.p } else prime).bits - 1) =
            bits + coveredBits prime := by
          rw [coveredBits, apply_ite PrimeRecord.bits]
        rw [if_pos open_]
        dsimp only
        rw [width, ih]
        constructor
        · rintro ⟨count, inside, covered⟩
          refine ⟨count + 1, by simpa using inside, ?_⟩
          rw [List.take_succ_cons, List.map_cons, List.sum_cons, ← add_assoc]
          exact covered
        · rintro ⟨count, inside, covered⟩
          cases count with
          | zero =>
              rw [List.take_zero, List.map_nil, List.sum_nil, add_zero] at covered
              omega
          | succ count =>
              rw [List.take_succ_cons, List.map_cons, List.sum_cons, ← add_assoc] at covered
              exact ⟨count, by simpa using inside, covered⟩
      · rw [if_neg open_]
        exact iff_of_true (not_lt.mp open_) ⟨0, Nat.zero_le _, by simpa using open_⟩

/-- The loop takes no more special primes than there are, and it keeps their list in size. -/
theorem coverDigit_lengths (logMaxD bits : Int) (primes : List PrimeRecord) :
    (coverDigit logMaxD bits primes).2.1 ≤ primes.length ∧
      (coverDigit logMaxD bits primes).2.2.length = primes.length := by
  induction primes generalizing bits with
  | nil => exact ⟨le_rfl, rfl⟩
  | cons prime rest ih =>
      rw [coverDigit]
      split
      · simpa using ih _
      · simp

/-- The largest entry is bounded exactly where each entry is. -/
theorem foldl_max_le_iff (entries : List Int) (first bound : Int) :
    entries.foldl max first ≤ bound ↔ first ≤ bound ∧ ∀ entry ∈ entries, entry ≤ bound := by
  induction entries generalizing first with
  | nil => simp
  | cons entry rest ih => rw [List.foldl_cons, ih, max_le_iff, List.forall_mem_cons, and_assoc]

/-- Some of the first special primes cover each digit. -/
def Covers (logQ_d : List Int) (Sprimes : List PrimeRecord) : Prop :=
  ∃ count ≤ Sprimes.length, ∀ bits ∈ logQ_d, bits ≤ ((Sprimes.take count).map coveredBits).sum

/-- Only a failed assertion keeps the count of the special primes from being returned. -/
theorem computeK_throws_iff {asserts : Bool} {logQ_d : List Int} (digits : logQ_d ≠ [])
    (Sprimes : List PrimeRecord) (K : Int) :
    FailsThrown (lift (computeK asserts logQ_d Sprimes K)) ↔
      (asserts → K = -1 → Covers logQ_d Sprimes) := by
  have covers : logQ_d.foldl max (logQ_d.headD 0) ≤
      (coverDigit (logQ_d.foldl max (logQ_d.headD 0)) 0 Sprimes).1 ↔ Covers logQ_d Sprimes := by
    obtain ⟨first, rest, rfl⟩ := List.exists_cons_of_ne_nil digits
    rw [coverDigit_covers_iff, Covers]
    refine exists_congr fun count => and_congr_right fun _ => ?_
    rw [zero_add, foldl_max_le_iff, List.forall_mem_cons, and_iff_right_iff_imp]
    exact And.left
  unfold computeK
  simp only
  split_ifs with given failed
  · exact iff_of_true (.ok _) fun _ same => absurd same given
  · refine iff_of_false (fun throws => FailsThrown.error_iff.mp throws) fun covered => ?_
    exact failed.2 (covers.mpr (covered failed.1 (not_not.mp given)))
  · refine iff_of_true (.ok _) fun on _ => covers.mp ?_
    by_contra missing
    exact failed ⟨on, missing⟩

/-- The returned count fits the returned list exactly where a given count fits the primes. -/
theorem computeK_fits {asserts : Bool} {logQ_d : List Int} {Sprimes filled : List PrimeRecord}
    {K count : Int} (done : lift (computeK asserts logQ_d Sprimes K) = .ok (count, filled)) :
    count - 1 < filled.length ↔ K ≤ Sprimes.length := by
  unfold computeK at done
  simp only at done
  generalize made : coverDigit _ _ Sprimes = cover at done
  obtain ⟨taken, length⟩ := made ▸ coverDigit_lengths _ _ Sprimes
  split_ifs at done with given failed
  · cases done
    rw [length]
    omega
  · cases done
  · cases done
    rw [length]
    change (cover.2.1 : Int) - 1 < Sprimes.length ↔ _
    omega

end Special

section Chain

variable {devices size : Nat} {dnum : Int} {raw : Option RawParams}

/-- The loop accepts digits that ascend inside their range. -/
theorem generateMetaFrom_accepts (positive : 0 < devices) {all primes : List PrimeRecord} {i : Nat}
    {prev_digit_ : Int} (rest : primes = all.drop i)
    (range : ∀ j, i ≤ j → j < i + primes.length →
      prev_digit_ ≤ (recordAt dnum raw size all j).digit ∧
        0 ≤ (recordAt dnum raw size all j).digit ∧ (recordAt dnum raw size all j).digit < dnum)
    (ascending : ∀ j k, i ≤ j → j ≤ k → k < i + primes.length →
      (recordAt dnum raw size all j).digit ≤ (recordAt dnum raw size all k).digit) :
    generateMetaFrom devices size dnum raw primes i prev_digit_
        (dealt devices i (recordAt dnum raw size all)) =
      .ok (dealt devices (i + primes.length) (recordAt dnum raw size all)) := by
  induction primes generalizing i prev_digit_ with
  | nil => rfl
  | cons prime primes ih =>
      have here : all[i]? = some prime := by
        have head := congrArg (fun list => list[0]?) rest
        simpa using head.symm
      have later : primes = all.drop (i + 1) := by
        have tail := congrArg List.tail rest
        rwa [List.tail_cons, List.tail_drop] at tail
      have record : recordAt dnum raw size all i =
          ⟨i, limbType prime, digitOf dnum raw size i prime⟩ := by
        rw [recordAt, List.getD_eq_getElem?_getD, here]
        rfl
      have digit : (recordAt dnum raw size all i).digit = digitOf dnum raw size i prime := by
        rw [record]
      have bounds := range i le_rfl (by simp)
      rw [digit] at bounds
      rw [List.length_cons] at range ascending ⊢
      simp only [generateMetaFrom]
      rw [if_neg (by omega), if_neg (by omega), ← record, dealt_succ, ih later]
      · rw [show i + 1 + primes.length = i + (primes.length + 1) by omega]
      · intro j low high
        have order := ascending i j le_rfl (by omega) (by omega)
        rw [digit] at order
        exact ⟨order, (range j (by omega) (by omega)).2⟩
      · intro j k low order high
        exact ascending j k (by omega) order (by omega)

/-- The devices hold the records of the primes in some order. -/
theorem dealt_perm (positive : 0 < devices) {count : Nat} {record : Nat → LimbRecord}
    (own : ∀ i, (record i).id = i) :
    (dealt devices count record).flatten.Perm ((List.range count).map record) := by
  have distinct : ((List.range count).map record).Nodup := by
    refine List.nodup_range.map fun first second same => ?_
    rw [← own first, ← own second, same]
  refine (List.perm_ext_iff_of_nodup (dealt_nodup own).of_map distinct).mpr fun limb => ?_
  rw [mem_dealt positive, List.mem_map]
  simp only [List.mem_range]

variable (param : Parameters)

/-- This is the digit of a prime of the chain. -/
def digitAt (i : Nat) : Int :=
  digitOf param.dnum param.raw (param.L + 1).toNat i (param.primes.getD i {})

/-- A prime without given bits counts the width of its modulus. -/
def chainBits (prime : PrimeRecord) : Int :=
  if prime.bits = -1 then (Nat.size prime.p : Int) else prime.bits

/-- These are the bits of each digit. -/
def digitBits : List Int :=
  (List.range param.dnum.toNat).map fun (digit : Nat) =>
    (((List.range (param.L + 1).toNat).filter fun i => digitAt param i = (digit : Int)).map fun i =>
      chainBits (param.primes.getD i {})).sum

/-- The sizes are meaningful and the digits ascend inside their range. -/
structure Divided : Prop where
  sizes : 1 ≤ param.dnum ∧ 0 ≤ param.L + 1
  range : ∀ i < (param.L + 1).toNat, 0 ≤ digitAt param i ∧ digitAt param i < param.dnum
  ascending : ∀ i j, i ≤ j → j < (param.L + 1).toNat → digitAt param i ≤ digitAt param j

/-- The primes of the chain have their bits filled in. -/
def chainPrimes : List PrimeRecord := (fillBits param.L param.primes).take (param.L + 1).toNat

variable {param}

theorem chainPrimes_getD (chain : param.L < param.primes.length) {i : Nat}
    (inside : i < (param.L + 1).toNat) :
    (chainPrimes param).getD i {} =
      { param.primes.getD i {} with bits := chainBits (param.primes.getD i {}) } := by
  have bound : i < param.primes.length := by omega
  have level : (i : Int) ≤ param.L := by omega
  rw [chainPrimes, fillBits, List.getD_eq_getElem?_getD, List.getElem?_take_of_lt inside,
    List.getElem?_mapIdx, List.getD_eq_getElem?_getD, List.getElem?_eq_getElem bound]
  simp only [Option.map_some, Option.getD_some, level, true_and, chainBits]
  split <;> rfl

theorem chainPrimes_length (chain : param.L < param.primes.length) :
    (chainPrimes param).length = (param.L + 1).toNat := by
  rw [chainPrimes, fillBits, List.length_take, List.length_mapIdx]
  omega

/-- The bits of a prime do not change its digit. -/
theorem digitOf_bits (i : Nat) (prime : PrimeRecord) (bits : Int) :
    digitOf dnum raw size i { prime with bits := bits } = digitOf dnum raw size i prime := by
  cases raw <;> rfl

theorem recordAt_digit (chain : param.L < param.primes.length) {i : Nat}
    (inside : i < (param.L + 1).toNat) :
    (recordAt param.dnum param.raw (param.L + 1).toNat (chainPrimes param) i).digit =
      digitAt param i := by
  rw [recordAt, chainPrimes_getD chain inside, digitOf_bits, digitAt]

/-- The devices receive the primes exactly where their digits divide them. -/
theorem generateMeta_ok (chain : param.L < param.primes.length) {devs : List Int}
    (hasDevice : devs ≠ []) {meta_ : List (List LimbRecord)} :
    (1 ≤ param.dnum ∧ 0 ≤ param.L + 1) ∧
      generateMeta devs param.dnum (chainPrimes param) param.raw = .ok meta_ ↔
    Divided param ∧ meta_ = dealt devs.length (param.L + 1).toNat
      (recordAt param.dnum param.raw (param.L + 1).toNat (chainPrimes param)) := by
  have positive : 0 < devs.length := List.length_pos_iff.mpr hasDevice
  have none (record : Nat → LimbRecord) :
      List.replicate devs.length [] = dealt devs.length 0 record := by
    refine (List.eq_replicate_iff.mpr ⟨by simp [dealt], fun row member => ?_⟩).symm
    obtain ⟨_, _, rfl⟩ := List.mem_map.mp member
    rfl
  rw [generateMeta, chainPrimes_length chain, none
    (recordAt param.dnum param.raw (param.L + 1).toNat (chainPrimes param))]
  constructor
  · rintro ⟨sizes, accepted⟩
    obtain ⟨same, range, ascending⟩ := generateMetaFrom_spec List.drop_zero.symm accepted
    rw [Nat.zero_add, chainPrimes_length chain] at same range ascending
    refine ⟨⟨sizes, fun i inside => ?_, fun i j order inside => ?_⟩, same⟩
    · rw [← recordAt_digit chain inside]
      exact (range i (Nat.zero_le i) inside).2
    · rw [← recordAt_digit chain inside, ← recordAt_digit chain (order.trans_lt inside)]
      exact ascending i j (Nat.zero_le i) order inside
  · rintro ⟨divided, rfl⟩
    refine ⟨divided.sizes, ?_⟩
    rw [generateMetaFrom_accepts positive List.drop_zero.symm, Nat.zero_add,
      chainPrimes_length chain]
    · intro j _ inside
      rw [Nat.zero_add, chainPrimes_length chain] at inside
      rw [recordAt_digit chain inside]
      have bounds := divided.range j inside
      omega
    · intro j k _ order inside
      rw [Nat.zero_add, chainPrimes_length chain] at inside
      rw [recordAt_digit chain inside, recordAt_digit chain (order.trans_lt inside)]
      exact divided.ascending j k order inside

/-- The digits count the bits of their primes. -/
theorem computeLogQ_d_dealt (chain : param.L < param.primes.length) (positive : 0 < devices) :
    computeLogQ_d param.dnum (dealt devices (param.L + 1).toNat
      (recordAt param.dnum param.raw (param.L + 1).toNat (chainPrimes param)))
      (chainPrimes param) = digitBits param := by
  unfold computeLogQ_d digitBits
  refine List.map_congr_left fun digit _ => ?_
  rw [(((dealt_perm positive fun _ => rfl).filter _).map _).sum_eq, List.filter_map, List.map_map]
  have kept : (List.range (param.L + 1).toNat).filter ((fun j : LimbRecord =>
      decide (j.digit = (digit : Int))) ∘ recordAt param.dnum param.raw (param.L + 1).toNat
        (chainPrimes param)) =
      (List.range (param.L + 1).toNat).filter fun i => digitAt param i = (digit : Int) := by
    refine List.filter_congr fun i listed => ?_
    rw [Function.comp_apply, recordAt_digit chain (List.mem_range.mp listed)]
  rw [kept]
  refine congrArg List.sum (List.map_congr_left fun i listed => ?_)
  have inside := List.mem_range.mp (List.mem_filter.mp listed).1
  change ((chainPrimes param).getD i {}).bits = _
  rw [chainPrimes_getD chain inside]

end Chain

/-- The lists hold the primes that the sizes ask for, and a build with assertions also needs
special primes that cover each digit. -/
structure Supplied (asserts : Bool) (param : Parameters) : Prop where
  chain : param.L < param.primes.length
  special : Divided param → param.K ≤ param.Sprimes.length
  covered : asserts → Divided param → param.K = -1 → Covers (digitBits param) param.Sprimes

/-- An accepted context places each prime exactly once, and any other construction throws. -/
structure PlacementContract (asserts : Bool) (param : Parameters) (devs : List Int) : Prop where
  placed : ∀ placement, GenCryptoContextGPU asserts param devs = .ok placement →
    placement.L = param.L ∧ placement.Sound devs.length
  throws : ∀ failure, GenCryptoContextGPU asserts param devs = .error failure → failure.Thrown

section Construction

variable {asserts : Bool} {param : Parameters} {devs : List Int}

/-- An accepted construction places each prime exactly once. -/
theorem GenCryptoContextGPU_placed (hasDevice : devs ≠ []) {placement : Placement}
    (accepted : GenCryptoContextGPU asserts param devs = .ok placement) :
    placement.L = param.L ∧ placement.Sound devs.length := by
  unfold GenCryptoContextGPU at accepted
  split at accepted
  · cases accepted
  · obtain ⟨record, special, parts⟩ := ContextData_parts hasDevice accepted
    exact ⟨parts.L, parts.sound hasDevice⟩

theorem digitBits_ne_nil (divided : Divided param) : digitBits param ≠ [] := by
  have digits := divided.sizes.1
  rw [digitBits, ne_eq, List.map_eq_nil_iff, List.range_eq_nil]
  omega

/-- The constructor throws where it does not return exactly when its lists are supplied. -/
theorem ContextData_throws_iff (hasDevice : devs ≠ []) :
    FailsThrown (ContextData asserts param devs) ↔ Supplied asserts param := by
  have positive : 0 < devs.length := List.length_pos_iff.mpr hasDevice
  have fits (chain : param.L < param.primes.length) :
      param.L + 1 ≤ (fillBits param.L param.primes).length := by
    rw [fillBits, List.length_mapIdx]
    omega
  unfold ContextData
  rw [FailsThrown.bind_iff, computeLogQ_throws_iff]
  constructor
  · rintro ⟨chain, throws⟩
    obtain ⟨logQ, summed⟩ := @computeLogQ_ok asserts _ _ chain
    -- The steps up to the special primes return where the digits divide the chain.
    have reached (divided : Divided param) := by
      have dnumThrows := FailsThrown.bind_iff.mp (throws _ summed)
      have resizeThrows := FailsThrown.bind_iff.mp
        (dnumThrows.2 _ (validateDnum_ok.mpr ⟨divided.sizes.1, rfl⟩))
      have metaThrows := FailsThrown.bind_iff.mp
        (resizeThrows.2 _ ((resize_ok (fits chain)).mpr ⟨divided.sizes.2, rfl⟩))
      exact FailsThrown.bind_iff.mp
        (metaThrows.2 _ ((generateMeta_ok chain hasDevice).mpr ⟨divided, rfl⟩).2)
    have covered (divided : Divided param) : asserts → param.K = -1 →
        Covers (digitBits param) param.Sprimes := by
      have counts := (reached divided).1
      change FailsThrown (lift (computeK asserts (computeLogQ_d param.dnum _ (chainPrimes param))
        param.Sprimes param.K)) at counts
      rw [computeLogQ_d_dealt chain positive] at counts
      exact (computeK_throws_iff (digitBits_ne_nil divided) _ _).mp counts
    refine ⟨chain, fun divided => ?_, fun on divided => covered divided on⟩
    have sums := (reached divided).2
    change ∀ value, lift (computeK asserts (computeLogQ_d param.dnum _ (chainPrimes param))
      param.Sprimes param.K) = .ok value → _ at sums
    rw [computeLogQ_d_dealt chain positive] at sums
    cases counted : lift (computeK asserts (digitBits param) param.Sprimes param.K) with
    | error failure =>
        have given : param.K = -1 := by
          by_contra given
          unfold computeK at counted
          simp only at counted
          rw [if_pos given] at counted
          cases counted
        omega
    | ok value =>
        have summed := (FailsThrown.bind_iff.mp (sums value counted)).1
        exact (computeK_fits counted).mp ((computeLogQ_throws_iff _ _ _).mp summed)
  · rintro ⟨chain, special, covered⟩
    refine ⟨chain, fun filled summed => ?_⟩
    obtain ⟨logQ, known⟩ := @computeLogQ_ok asserts _ _ chain
    cases known.symm.trans summed
    refine FailsThrown.bind_iff.mpr ⟨validateDnum_throws _, fun dnum checked => ?_⟩
    obtain ⟨digits, rfl⟩ := validateDnum_ok.mp checked
    refine FailsThrown.bind_iff.mpr ⟨resize_throws _ _, fun prime resized => ?_⟩
    obtain ⟨size, rfl⟩ := (resize_ok (fits chain)).mp resized
    refine FailsThrown.bind_iff.mpr ⟨generateMetaFrom_throws positive, fun meta_ accepted => ?_⟩
    obtain ⟨divided, rfl⟩ := (generateMeta_ok chain hasDevice).mp ⟨⟨digits, size⟩, accepted⟩
    change FailsThrown (lift (computeK asserts (computeLogQ_d param.dnum _ (chainPrimes param))
      param.Sprimes param.K) >>= _)
    rw [computeLogQ_d_dealt chain positive]
    refine FailsThrown.bind_iff.mpr ⟨(computeK_throws_iff (digitBits_ne_nil divided) _ _).mpr
      fun on given => covered on divided given, fun counted done => ?_⟩
    refine FailsThrown.bind_iff.mpr ⟨(computeLogQ_throws_iff _ _ _).mpr
      ((computeK_fits done).mpr (special divided)), fun _ _ => ?_⟩
    refine .bind (resize_throws _ _) fun _ => ?_
    refine .bind (atZero_throws _) fun _ => ?_
    refine .bind (generateLimbGPUid_throws _ _ _ _) fun _ => ?_
    refine .bind (checkTables_throws _ _ _ _ _) fun _ => ?_
    exact .ok _

end Construction

/-- This chain asks for two primes and has one. -/
def shortChain : Parameters where
  logN := 4
  L := 1
  dnum := 1
  primes := [{ p := 97, bits := 9 }]
  Sprimes := [{ p := 40961, bits := 40 }]
  scalingTechnique := .FIXEDAUTO

end Fideslib.Registry.Placement

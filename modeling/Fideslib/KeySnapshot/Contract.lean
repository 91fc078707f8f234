/-
This file proves that a lazy key holds the limbs of an eager one whenever it is resident.
-/

import Fideslib.KeySnapshot.Partition
import Fideslib.KeySnapshot.Rows
import Fideslib.Registry.DigitTablesContract

namespace Fideslib.KeySnapshot

open Registry.Placement (convert)

section Lengths

/-- Rows of one length pass the check. -/
theorem rowWords_eq {rows : List (List Nat)} {n m : Nat} (lengths : ∀ row ∈ rows, row.length = n)
    (first : m = 0 ∨ m = n) : rowWords rows m = .ok (if rows = [] then m else n) := by
  induction rows generalizing m with
  | nil => rfl
  | cons row rows inductionHypothesis =>
      have length := lengths row List.mem_cons_self
      have chosen : (if m = 0 then row.length else m) = n := by
        split
        · exact length
        · rename_i positive
          exact first.resolve_left positive
      simp only [rowWords, chosen]
      rw [if_neg (not_not_intro length),
        inductionHypothesis (fun other member => lengths other (List.mem_cons_of_mem _ member))
          (Or.inr rfl), ite_self, if_neg (List.cons_ne_nil _ _)]

/-- The nested vectors are loaded like rows of the common length. -/
theorem loadDecompDigit_eq (context : Context) {data : List (List (List Nat))} {n : Nat}
    (lengths : ∀ row ∈ data.flatten, row.length = n) (moduli : List (List Nat))
    (partition : LimbPartition) :
    partition.loadDecompDigit context data moduli = partition.loadRows context data n moduli := by
  rw [LimbPartition.loadDecompDigit, rowWords_eq lengths (Or.inl rfl)]
  simp only
  split
  · rename_i none
    have same : LimbWords.load context data 0 moduli = LimbWords.load context data n moduli := by
      funext i words
      unfold LimbWords.load
      split
      · rfl
      · rename_i rows there
        rw [List.flatten_eq_nil_iff.mp none rows (List.mem_of_getElem? there)]
        rfl
    unfold LimbPartition.loadRows
    rw [same]
  · rfl

end Lengths

/-- A limb is loaded from the first raw limb of its digit with its modulus. -/
theorem matchRow_first {prime : Nat} {rows : List (List Nat)} {moduli : List Nat} {k : Nat}
    {row : List Nat} (there : rows[k]? = some row) (same : moduli[k]? = some prime)
    (earlier : ∀ j < k, moduli[j]? ≠ some prime) : matchRow prime rows moduli = .ok (some row) := by
  induction k generalizing rows moduli with
  | zero =>
      cases rows with
      | nil => cases there
      | cons head rows =>
          cases moduli with
          | nil => cases same
          | cons modulus moduli =>
              cases there
              cases same
              rw [matchRow, if_pos rfl]
  | succ k inductionHypothesis =>
      cases rows with
      | nil => cases there
      | cons head rows =>
          cases moduli with
          | nil => cases same
          | cons modulus moduli =>
              have other : prime ≠ modulus := fun equal =>
                earlier 0 (Nat.succ_pos k) (congrArg some equal.symm)
              rw [matchRow, if_neg other]
              exact inductionHypothesis there same fun j before => earlier (j + 1) (by omega)

namespace KeySwitchingKey

variable (context : Context) (rkk : RawKeySwitchKey)

/-- The limbs of both polynomials without their addresses. -/
def limbs (key : KeySwitchingKey) : List (List (List LimbWords)) :=
  [contents key.a.DECOMPlimb, contents key.a.DIGITlimb,
    contents key.b.DECOMPlimb, contents key.b.DIGITlimb]

/-- The device memory that the limbs of the key occupy. -/
def ownedBytes (key : KeySwitchingKey) : Nat := key.a.ownedBytes + key.b.ownedBytes

end KeySwitchingKey

/-- Each limb has the words of the first raw limb whose modulus is its prime. -/
def LimbPartition.Matches (context : Context) (rkk : RawKeySwitchKey) (p : Nat)
    (partition : LimbPartition) : Prop :=
  ∀ (d : Nat) group, partition.DECOMPlimb[d]? = some group ∨ partition.DIGITlimb[d]? = some group →
    ∀ limb ∈ group, ∀ (k : Nat) row, ((rkk.r_key.getD p []).getD d [])[k]? = some row →
      ((rkk.r_key_moduli.getD p []).getD d [])[k]? = some (context.primes limb.words.primeid) →
      (∀ j < k, ((rkk.r_key_moduli.getD p []).getD d [])[j]? ≠
        some (context.primes limb.words.primeid)) →
      limb.words.v = row.map (fun word => some (convert limb.words.type word)) ++
        List.replicate (context.N - row.length) none

/-- What a resident key must hold. -/
structure LimbPartition.Right (context : Context) (rkk : RawKeySwitchKey) (p : Nat)
    (partition : LimbPartition) : Prop where
  full : partition.Full context
  pointed : partition.Pointed
  regular : partition.Regular context
  own : partition.Matches context rkk p

section Poly

variable {context : Context} {rkk : RawKeySwitchKey} {n : Nat} {partition : LimbPartition} {p : Nat}

/-- The raw rows of one polynomial are loaded. -/
def loadPoly (context : Context) (rkk : RawKeySwitchKey) (n p : Nat) :
    LimbPartition → LimbPartition × Option Failure :=
  LimbPartition.loadRows context (rkk.r_key.getD p []) n (rkk.r_key_moduli.getD p [])

/-- This is what loading a new partition gives. -/
def freshLoad (context : Context) (rkk : RawKeySwitchKey) (n p : Nat) :
    LimbPartition × Option Failure :=
  loadPoly context rkk n p ((LimbPartition.new context).generateAllDecompAndDigit context)

/-- A limb of blank digits is blank. -/
theorem blank_origin {groups : List (List Limb)} {digits : List (List Registry.Placement.LimbRecord)}
    (same : contents groups = blanks context digits) {d : Nat} {before : List Limb}
    (there : groups[d]? = some before) {old : Limb} (member : old ∈ before) :
    ∃ record, blank context record = old.words := by
  have inside : old.words ∈ (contents groups).flatten :=
    List.mem_flatten.mpr ⟨_, List.mem_map_of_mem (List.mem_of_getElem? there),
      List.mem_map_of_mem member⟩
  rw [same] at inside
  obtain ⟨words, digit, own⟩ := List.mem_flatten.mp inside
  obtain ⟨records, -, rfl⟩ := List.mem_map.mp digit
  obtain ⟨record, -, equal⟩ := List.mem_map.mp own
  exact ⟨record, equal⟩

/-- A blank limb that is loaded has the words of its raw limb. -/
theorem blank_load {data : List (List (List Nat))} {moduli : List (List Nat)} {d k : Nat}
    {record : Registry.Placement.LimbRecord} {words : LimbWords} {row : List Nat}
    (loaded : LimbWords.load context data n moduli d (blank context record) = .ok words)
    (there : (data.getD d [])[k]? = some row) (length : row.length = n)
    (same : (moduli.getD d [])[k]? = some (context.primes words.primeid))
    (earlier : ∀ j < k, (moduli.getD d [])[j]? ≠ some (context.primes words.primeid)) :
    words.v = row.map (fun word => some (convert words.type word)) ++
      List.replicate (context.N - row.length) none := by
  have shape := (load_uniform context data n moduli d).keeps _ _ loaded
  have prime : words.primeid = record.id := congrArg Prod.fst shape
  have type : words.type = record.type := congrArg (fun shape => shape.2.1) shape
  rw [prime] at same earlier
  unfold LimbWords.load at loaded
  cases rows : data[d]? with
  | none =>
      rw [List.getD_eq_getElem?_getD, rows] at there
      cases there
  | some digit =>
      rw [List.getD_eq_getElem?_getD, rows, Option.getD_some] at there
      have matched : matchRow (context.primes (blank context record).primeid) digit
          (moduli.getD d []) = .ok (some row) := matchRow_first there same earlier
      simp only [rows, matched] at loaded
      unfold LimbWords.load_convert at loaded
      split at loaded
      · cases loaded
        simp only [blank]
        rw [List.drop_replicate, length]
        congr 1
        refine List.ext_getElem (by rw [List.length_map, List.length_range, List.length_map, length])
          fun i left right => ?_
        have inside : i < row.length := by rwa [List.length_map] at right
        rw [List.getElem_map, List.getElem_map, List.getElem_range, List.getElem?_eq_getElem inside]
        rfl
      · cases loaded

/-- Blank limbs of which none fails to load have the words of their raw limbs. -/
theorem Blank.load_matches (blank_ : partition.Blank context)
    (lengths : ∀ limb ∈ rkk.r_key.flatten.flatten, limb.length = n)
    (succeeds : (loadPoly context rkk n p partition).2 = none) :
    (loadPoly context rkk n p partition).1.Matches context rkk p := by
  intro d group found limb member k row there same earlier
  obtain ⟨before, origin, loaded⟩ := LimbPartition.loadRows_loaded succeeds found
  obtain ⟨old, inside, done⟩ : ∃ old ∈ before,
      LimbWords.load context (rkk.r_key.getD p []) n (rkk.r_key_moduli.getD p []) d old.words =
        .ok limb.words := by
    obtain ⟨place, rfl⟩ := List.mem_iff_get.mp member
    have short : place.val < before.length := by
      have same := loaded.length_eq
      omega
    exact ⟨before.get ⟨place, short⟩, List.get_mem _ _, loaded.get short place.isLt⟩
  obtain ⟨record, fresh⟩ : ∃ record, blank context record = old.words := by
    rcases origin with decomp | digit
    · exact blank_origin blank_.1 decomp inside
    · exact blank_origin blank_.2 digit inside
  rw [← fresh] at done
  have listed : row ∈ rkk.r_key.flatten.flatten := by
    have digit := List.mem_of_getElem? there
    have getD_mem {Item : Type} {lists : List (List Item)} {place : Nat} {item : Item}
        (held : item ∈ lists.getD place []) : lists.getD place [] ∈ lists := by
      by_cases bound : place < lists.length
      · rw [List.getD_eq_getElem _ _ bound]
        exact List.getElem_mem bound
      · rw [List.getD_eq_default _ _ (by omega)] at held
        cases held
    have poly := getD_mem digit
    exact List.mem_flatten.mpr ⟨_, List.mem_flatten.mpr ⟨_, getD_mem poly, poly⟩, digit⟩
  exact blank_load done there (lengths row listed) same earlier

/-- The partition holds what loading a new one gives. -/
structure Loaded (context : Context) (rkk : RawKeySwitchKey) (n p : Nat)
    (partition : LimbPartition) : Prop where
  right : partition.Right context rkk p
  decomp : contents partition.DECOMPlimb = contents (freshLoad context rkk n p).1.DECOMPlimb
  digit : contents partition.DIGITlimb = contents (freshLoad context rkk n p).1.DIGITlimb

theorem fresh_blank (context : Context) :
    ((LimbPartition.new context).generateAllDecompAndDigit context).Blank context :=
  LimbPartition.new_cleared.generate_blank context

/-- Full limbs fail to load like new ones. -/
theorem Full.load_failure (rkk : RawKeySwitchKey) (n p : Nat) (full : partition.Full context) :
    (loadPoly context rkk n p partition).2 = (freshLoad context rkk n p).2 := by
  have new := (fresh_blank context).full
  exact LimbPartition.loadRows_failure _ _ _ _ (full.1.trans new.1.symm) (full.2.trans new.2.symm)

/-- Freed limbs that are allocated again and loaded are those of a new partition. -/
theorem Cleared.load_loaded (cleared : partition.Cleared)
    (lengths : ∀ limb ∈ rkk.r_key.flatten.flatten, limb.length = n)
    (succeeds : (freshLoad context rkk n p).2 = none) :
    Loaded context rkk n p
      (loadPoly context rkk n p (partition.generateAllDecompAndDigit context)).1 := by
  have blank := cleared.generate_blank context
  have new := fresh_blank context
  have passes := (Full.load_failure rkk n p blank.full).trans succeeds
  obtain ⟨decomp, digit⟩ := LimbPartition.loadRows_congr context (rkk.r_key.getD p []) n
    (rkk.r_key_moduli.getD p []) (blank.1.trans new.1.symm) (blank.2.trans new.2.symm)
  exact {
    right := {
      full := blank.full.load_full context _ _ _
      pointed := (cleared.generate_pointed context).load_pointed context _ _ _
      regular := blank.full.load_regular passes
      own := Blank.load_matches blank lengths passes }
    decomp
    digit }

end Poly

namespace KeySwitchingKey

variable {context : Context} {rkk : RawKeySwitchKey} {n : Nat} {key : KeySwitchingKey}

/-- Both polynomials are allocated, and their raw rows are loaded. -/
def loadKey (context : Context) (rkk : RawKeySwitchKey) (n : Nat) (key : KeySwitchingKey) :
    KeySwitchingKey × Option Failure :=
  (key.allocateLimbs context).loadBoth (loadPoly context rkk n 0) (loadPoly context rkk n 1)

/-- Neither polynomial of a new key fails to load. -/
def Loads (context : Context) (rkk : RawKeySwitchKey) (n : Nat) : Prop :=
  (freshLoad context rkk n 0).2 = none ∧ (freshLoad context rkk n 1).2 = none

theorem loadBoth_kept (first second : LimbPartition → LimbPartition × Option Failure)
    (key : KeySwitchingKey) :
    (key.loadBoth first second).1 = { key with
      a := (key.loadBoth first second).1.a
      b := (key.loadBoth first second).1.b } := by
  unfold loadBoth
  simp only
  split <;> rfl

/-- Full polynomials stay full, and they fail to load like new ones. -/
theorem loadKey_full (rkk : RawKeySwitchKey) (n : Nat)
    (first : (key.a.generateAllDecompAndDigit context).Full context)
    (second : (key.b.generateAllDecompAndDigit context).Full context) :
    ((loadKey context rkk n key).2 = none ↔ Loads context rkk n) ∧
      (loadKey context rkk n key).1.a.Full context ∧
      (loadKey context rkk n key).1.b.Full context := by
  have failure := Full.load_failure rkk n 0 first
  have other := Full.load_failure rkk n 1 second
  have loaded := first.load_full context (rkk.r_key.getD 0 []) n (rkk.r_key_moduli.getD 0 [])
  have last := second.load_full context (rkk.r_key.getD 1 []) n (rkk.r_key_moduli.getD 1 [])
  unfold loadKey loadBoth Loads
  simp only [allocateLimbs, failure, other]
  cases fault : (freshLoad context rkk n 0).2 with
  | some fault => exact ⟨by simp, loaded, second⟩
  | none => exact ⟨by simp, loaded, last⟩

/-- Freed polynomials that do not fail to load are those of a new key. -/
theorem loadKey_cleared (first : key.a.Cleared) (second : key.b.Cleared)
    (lengths : ∀ limb ∈ rkk.r_key.flatten.flatten, limb.length = n) (loads : Loads context rkk n) :
    Loaded context rkk n 0 (loadKey context rkk n key).1.a ∧
      Loaded context rkk n 1 (loadKey context rkk n key).1.b := by
  have passes := (Full.load_failure rkk n 0
    (first.generate_blank context).full).trans loads.1
  unfold loadKey loadBoth
  simp only [allocateLimbs, passes]
  exact ⟨Cleared.load_loaded first lengths loads.1, Cleared.load_loaded second lengths loads.2⟩

theorem loadLimbs_eq (lengths : ∀ limb ∈ rkk.r_key.flatten.flatten, limb.length = n)
    (key : KeySwitchingKey) : key.loadLimbs context rkk = loadKey context rkk n key := by
  have poly (p : Nat) : ∀ row ∈ (rkk.r_key.getD p []).flatten, row.length = n := by
    intro row member
    obtain ⟨digit, inside, own⟩ := List.mem_flatten.mp member
    by_cases bound : p < rkk.r_key.length
    · rw [List.getD_eq_getElem _ _ bound] at inside
      exact lengths row (List.mem_flatten.mpr
        ⟨digit, List.mem_flatten.mpr ⟨_, List.getElem_mem bound, inside⟩, own⟩)
    · rw [List.getD_eq_default _ _ (by omega)] at inside
      cases inside
  have load (p : Nat) : LimbPartition.loadDecompDigit context (rkk.r_key.getD p [])
      (rkk.r_key_moduli.getD p []) = loadPoly context rkk n p :=
    funext fun partition => loadDecompDigit_eq context (poly p) _ partition
  rw [loadLimbs, load, load]
  rfl

/-- What a lazy key keeps on the host in every state. -/
structure Kept (context : Context) (rkk : RawKeySwitchKey) (n : Nat) (key : KeySwitchingKey) :
    Prop where
  has_snapshot : key.has_snapshot = true
  limb_bytes : key.limb_bytes = computeLimbBytes context
  moduli : key.snapshot.moduli = rkk.r_key_moduli
  rows : ∀ p, key.snapshot.digitRows p = rkk.r_key.getD p []
  words : key.snapshot.rows.n = n

theorem Kept.load_eq (kept : Kept context rkk n key) :
    key.loadLimbsFromSnapshot context = loadKey context rkk n key := by
  simp only [loadLimbsFromSnapshot, kept.moduli, kept.rows, kept.words]
  rfl

/-- A lazy key is loaded, or its limbs are freed, or it cannot be loaded. -/
def Held (context : Context) (rkk : RawKeySwitchKey) (n : Nat) (key : KeySwitchingKey) : Prop :=
  (key.resident = true ∧ Loads context rkk n ∧ Loaded context rkk n 0 key.a ∧
      Loaded context rkk n 1 key.b) ∨
    (key.resident = false ∧ key.a.Cleared ∧ key.b.Cleared) ∨
    (key.resident = false ∧ ¬Loads context rkk n ∧ key.a.Full context ∧ key.b.Full context)

theorem offload_held (kept : Kept context rkk n key) (held : Held context rkk n key) :
    Kept context rkk n key.offload.1 ∧ Held context rkk n key.offload.1 := by
  unfold offload
  split
  · rw [if_pos kept.has_snapshot]
    exact ⟨⟨kept.has_snapshot, kept.limb_bytes, kept.moduli, kept.rows, kept.words⟩,
      Or.inr (Or.inl ⟨rfl, LimbPartition.free_cleared _, LimbPartition.free_cleared _⟩)⟩
  · exact ⟨kept, held⟩

/-- A key becomes resident exactly if a new key does not fail to load. -/
theorem ensureResident_held (kept : Kept context rkk n key) (held : Held context rkk n key)
    (lengths : ∀ limb ∈ rkk.r_key.flatten.flatten, limb.length = n) :
    Kept context rkk n (key.ensureResident context).1 ∧
      Held context rkk n (key.ensureResident context).1 ∧
      (Loads context rkk n → (key.ensureResident context).2 = none ∧
        (key.ensureResident context).1.resident = true) := by
  unfold ensureResident
  split
  · rename_i resident
    exact ⟨kept, held, fun _ => ⟨rfl, resident⟩⟩
  · rename_i freed
    rw [if_pos kept.has_snapshot, kept.load_eq]
    obtain ⟨first, second⟩ : (key.a.generateAllDecompAndDigit context).Full context ∧
        (key.b.generateAllDecompAndDigit context).Full context := by
      rcases held with ⟨resident, -⟩ | ⟨-, a, b⟩ | ⟨-, -, a, b⟩
      · exact absurd resident freed
      · exact ⟨(a.generate_blank context).full, (b.generate_blank context).full⟩
      · exact ⟨a.generate_full, b.generate_full⟩
    obtain ⟨passes, a, b⟩ := loadKey_full rkk n first second
    have fields := loadBoth_kept (loadPoly context rkk n 0) (loadPoly context rkk n 1)
      (key.allocateLimbs context)
    rw [← loadKey] at fields
    have after : Kept context rkk n (loadKey context rkk n key).1 := by
      rw [fields]
      exact ⟨kept.has_snapshot, kept.limb_bytes, kept.moduli, kept.rows, kept.words⟩
    have still : (loadKey context rkk n key).1.resident = false := by
      rw [fields]
      exact Bool.eq_false_of_not_eq_true freed
    cases fault : (loadKey context rkk n key).2 with
    | some failure =>
        have fails : ¬Loads context rkk n := fun loads => by
          rw [passes.mpr loads] at fault
          cases fault
        simp only [fault]
        exact ⟨after, Or.inr (Or.inr ⟨still, fails, a, b⟩), fun loads => absurd loads fails⟩
    | none =>
        have loads := passes.mp fault
        obtain ⟨firstLoaded, secondLoaded⟩ :
            Loaded context rkk n 0 (loadKey context rkk n key).1.a ∧
              Loaded context rkk n 1 (loadKey context rkk n key).1.b := by
          rcases held with ⟨resident, -⟩ | ⟨-, a, b⟩ | ⟨-, fails, -⟩
          · exact absurd resident freed
          · exact loadKey_cleared a b lengths loads
          · exact absurd loads fails
        simp only [fault]
        exact ⟨⟨after.has_snapshot, after.limb_bytes, after.moduli, after.rows, after.words⟩,
          Or.inl ⟨rfl, loads, firstLoaded, secondLoaded⟩, fun _ => ⟨trivial, trivial⟩⟩

/-- The calls of a cache keep what a lazy key holds. -/
theorem run_held (kept : Kept context rkk n key) (held : Held context rkk n key)
    (lengths : ∀ limb ∈ rkk.r_key.flatten.flatten, limb.length = n) (calls : List Call) :
    Kept context rkk n (key.run context calls) ∧ Held context rkk n (key.run context calls) := by
  induction calls generalizing key with
  | nil => exact ⟨kept, held⟩
  | cons name calls inductionHypothesis =>
      rw [run, List.foldl_cons, ← run]
      cases name with
      | ensureResident =>
          obtain ⟨next, after, -⟩ := ensureResident_held kept held lengths
          exact inductionHypothesis next after
      | offload =>
          obtain ⟨next, after⟩ := offload_held kept held
          exact inductionHypothesis next after

/-- Loaded polynomials occupy the recorded bytes. -/
theorem computeLimbBytes_owned (first : key.a.Full context) (second : key.b.Full context) :
    computeLimbBytes context = key.ownedBytes := by
  rw [ownedBytes, first.bytes, second.bytes, computeLimbBytes, Nat.two_mul]

/-- An eager key is a new key whose raw rows are loaded. -/
theorem eager_initialize (context : Context) (buffer : Nat → Nat)
    (lengths : ∀ limb ∈ rkk.r_key.flatten.flatten, limb.length = n) :
    let eager := (new context).Initialize context buffer rkk false
    (eager.2 = none ↔ Loads context rkk n) ∧
      (eager.2 = none → eager.1.resident = true ∧ eager.1.limb_bytes = computeLimbBytes context ∧
        Loaded context rkk n 0 eager.1.a ∧ Loaded context rkk n 1 eager.1.b) := by
  have full := (fresh_blank context).full
  obtain ⟨passes, -⟩ := @loadKey_full context { new context with keyID := rkk.keyid } rkk n full full
  simp only [Initialize, Bool.false_eq_true, if_false, loadLimbs_eq lengths]
  cases fault : (loadKey context rkk n { new context with keyID := rkk.keyid }).2 with
  | some failure =>
      rw [fault] at passes
      simp only [fault]
      exact ⟨passes, fun none => by cases none⟩
  | none =>
      have loads := passes.mp fault
      simp only
      exact ⟨⟨fun _ => loads, fun _ => trivial⟩, fun _ => ⟨trivial, trivial,
        loadKey_cleared LimbPartition.new_cleared LimbPartition.new_cleared lengths loads⟩⟩

/-- A lazy key that is resident has the limbs of an eager key, however often it was freed. -/
theorem lazy_holds_eager_limbs (context : Context) (buffer : Nat → Nat) (rkk : RawKeySwitchKey)
    (calls : List Call) :
    let fresh := (new context).Initialize context buffer rkk true
    let eager := (new context).Initialize context buffer rkk false
    let reached := fresh.1.run context calls
    fresh.2 = none ∧ fresh.1.resident = false ∧
      (reached.resident = true → eager.2 = none ∧ eager.1.resident = true ∧
        reached.limbs = eager.1.limbs ∧
        ∀ key ∈ [reached, eager.1], key.a.Right context rkk 0 ∧ key.b.Right context rkk 1 ∧
          key.limb_bytes = key.ownedBytes) ∧
      (eager.2 = none → (reached.ensureResident context).2 = none ∧
        (reached.ensureResident context).1.resident = true) := by
  obtain ⟨snapshot, taken, moduli, rows, lengths⟩ := takeSnapshot_rows buffer rkk
  have fresh : (new context).Initialize context buffer rkk true =
      ({ new context with
        keyID := rkk.keyid
        snapshot
        has_snapshot := true
        resident := false
        limb_bytes := computeLimbBytes context }, none) := by
    rw [Initialize, if_pos rfl, taken]
  simp only [fresh, true_and]
  generalize started : ({ new context with
    keyID := rkk.keyid
    snapshot
    has_snapshot := true
    resident := false
    limb_bytes := computeLimbBytes context } : KeySwitchingKey) = lazyKey
  have start : Kept context rkk snapshot.rows.n lazyKey ∧
      Held context rkk snapshot.rows.n lazyKey := by
    rw [← started]
    exact ⟨⟨rfl, rfl, moduli, rows, rfl⟩,
      Or.inr (Or.inl ⟨rfl, LimbPartition.new_cleared, LimbPartition.new_cleared⟩)⟩
  obtain ⟨kept, held⟩ := run_held start.1 start.2 lengths calls
  obtain ⟨passes, loaded⟩ := eager_initialize context buffer lengths
  refine ⟨fun resident => ?_, fun succeeds =>
    (ensureResident_held kept held lengths).2.2 (passes.mp succeeds)⟩
  rcases held with ⟨-, loads, a, b⟩ | ⟨freed, -⟩ | ⟨freed, -⟩
  · have succeeds := passes.mpr loads
    obtain ⟨eagerResident, eagerBytes, first, second⟩ := loaded succeeds
    refine ⟨succeeds, eagerResident, ?_, ?_⟩
    · rw [limbs, limbs, a.decomp, a.digit, b.decomp, b.digit, first.decomp, first.digit,
        second.decomp, second.digit]
    · intro key member
      rcases List.mem_cons.mp member with rfl | other
      · exact ⟨a.right, b.right,
          kept.limb_bytes.trans (computeLimbBytes_owned a.right.full b.right.full)⟩
      · rw [List.mem_singleton] at other
        rw [other]
        exact ⟨first.right, second.right,
          eagerBytes.trans (computeLimbBytes_owned first.right.full second.right.full)⟩
  · rw [freed] at resident
    cases resident
  · rw [freed] at resident
    cases resident

end KeySwitchingKey

section Placed

open Registry.Placement (Sound generateDigitMeta generateGPUdigits)

/-- On one device the tables of a sound placement are those that a key reads. -/
def Context.ofPlacement (N : Nat) (primes : Nat → Nat)
    (placement : Registry.Placement) (device : Int) (sound : Sound placement 1) :
    Context where
  N
  primes
  meta_ := placement.meta_.getD 0 []
  DECOMPmeta := placement.decompMeta.getD 0 []
  DIGITmeta := (generateDigitMeta placement.meta_ placement.splitSpecialMeta
    (generateGPUdigits placement.dnum [device])).getD 0 []
  held := by
    obtain ⟨own, table⟩ := List.length_eq_one_iff.mp sound.shared.1
    intro records digit record member
    rw [sound.decomposed] at digit
    obtain ⟨d, -, rfl⟩ := List.mem_map.mp digit
    have listed := (sound.gathered.2 record).mp (List.mem_of_mem_filter member)
    rw [table, List.flatten_singleton] at listed
    rw [table]
    exact ⟨record, listed, rfl⟩
  distinct := by
    have ids : (placement.gatherMeta.map Registry.Placement.LimbRecord.id).Nodup := by
      rw [sound.gathered.1]
      exact List.nodup_range
    rw [sound.decomposed]
    refine List.Nodup.map_on ?_ (List.nodup_flatten.mpr ⟨?_, ?_⟩)
    · intro record left other right same
      obtain ⟨records, digit, member⟩ := List.mem_flatten.mp left
      obtain ⟨others, otherDigit, inside⟩ := List.mem_flatten.mp right
      obtain ⟨d, -, rfl⟩ := List.mem_map.mp digit
      obtain ⟨e, -, rfl⟩ := List.mem_map.mp otherDigit
      exact List.inj_on_of_nodup_map ids (List.mem_of_mem_filter member)
        (List.mem_of_mem_filter inside) same
    · intro records digit
      obtain ⟨d, -, rfl⟩ := List.mem_map.mp digit
      exact ids.of_map.filter _
    · refine List.Pairwise.map _ (fun d e different record left right => ?_)
        (List.nodup_range (n := placement.dnum.toNat))
      have first := of_decide_eq_true (List.mem_filter.mp left).2
      have second := of_decide_eq_true (List.mem_filter.mp right).2
      exact different (Int.ofNat.inj (first.symm.trans second))

end Placed

end Fideslib.KeySnapshot

/-
This file proves that the snapshot of a key gives each raw limb back.
-/

import Fideslib.KeySnapshot.Key

namespace Fideslib.KeySnapshot

/-- The rows that are filled hold the copied limbs. -/
structure Filled (n : Nat) (copied : List (List Nat)) (state : Nat × (Nat → Nat)) : Prop where
  count : state.1 = copied.length
  own : ∀ r limb, copied[r]? = some limb → HostRows.row ⟨state.2, 0, n⟩ r = limb

section Copy

variable {n : Nat} {copied : List (List Nat)} {state : Nat × (Nat → Nat)}

/-- A copied limb is read from its row. -/
theorem row_memcpy_self (words : Nat → Nat) {limb : List Nat} (length : limb.length = n) (r : Nat) :
    HostRows.row ⟨memcpy words (r * n) limb, 0, n⟩ r = limb := by
  apply List.ext_getElem (by simp [HostRows.row, length])
  intro i left right
  simp only [HostRows.row, List.getElem_map, List.getElem_range, memcpy]
  rw [if_pos (by omega), Nat.add_sub_cancel_left, List.getD_eq_getElem _ _ right]

/-- The other rows stay. -/
theorem row_memcpy_other (words : Nat → Nat) (limb : List Nat) {r other : Nat}
    (different : other < r) :
    HostRows.row ⟨memcpy words (r * n) limb, 0, n⟩ other = HostRows.row ⟨words, 0, n⟩ other := by
  apply List.map_congr_left
  intro i member
  have inside : i < n := List.mem_range.mp member
  have before : (other + 1) * n ≤ r * n := Nat.mul_le_mul_right n different
  rw [Nat.add_one_mul] at before
  simp only [memcpy]
  rw [if_neg (by omega)]

theorem Filled.push (filled : Filled n copied state) {limb : List Nat} (length : limb.length = n) :
    Filled n (copied ++ [limb]) (state.1 + 1, memcpy state.2 (state.1 * n) limb) where
  count := by rw [filled.count, List.length_append, List.length_singleton]
  own := by
    intro r own there
    rw [filled.count]
    rcases lt_trichotomy r copied.length with before | here | after
    · rw [List.getElem?_append_left before] at there
      rw [row_memcpy_other state.2 limb before]
      exact filled.own r own there
    · rw [here, List.getElem?_concat_length] at there
      cases there
      rw [here, row_memcpy_self state.2 length]
    · have inside := (List.getElem?_eq_some_iff.mp there).1
      rw [List.length_append, List.length_singleton] at inside
      omega

theorem copyLimbs_filled (filled : Filled n copied state) {limbs : List (List Nat)}
    (lengths : ∀ limb ∈ limbs, limb.length = n) :
    ∃ last, copyLimbs n limbs state = .ok last ∧ Filled n (copied ++ limbs) last := by
  induction limbs generalizing copied state with
  | nil => exact ⟨state, rfl, by rwa [List.append_nil]⟩
  | cons limb limbs inductionHypothesis =>
      have length := lengths limb List.mem_cons_self
      obtain ⟨last, done, rest⟩ := inductionHypothesis (filled.push length)
        fun other member => lengths other (List.mem_cons_of_mem _ member)
      refine ⟨last, ?_, by rwa [List.append_assoc, List.singleton_append] at rest⟩
      rw [copyLimbs, if_neg (not_not_intro length)]
      exact done

/-- The recorded rows of the digits find their limbs among those that are copied. -/
theorem copyDigits_filled (filled : Filled n copied state) {digits : List (List (List Nat))}
    (lengths : ∀ digit ∈ digits, ∀ limb ∈ digit, limb.length = n) :
    ∃ first_row last, copyDigits n digits state = .ok (first_row, last) ∧
      Filled n (copied ++ digits.flatten) last ∧
      ∀ (d l : Nat) digit limb, digits[d]? = some digit → digit[l]? = some limb →
        (copied ++ digits.flatten)[first_row.getD d 0 + l]? = some limb := by
  induction digits generalizing copied state with
  | nil => exact ⟨[], state, rfl, by simpa using filled, fun d l digit limb found => by cases found⟩
  | cons digit digits inductionHypothesis =>
      obtain ⟨middle, first, here⟩ := copyLimbs_filled filled (lengths digit List.mem_cons_self)
      obtain ⟨first_row, last, done, rest, later⟩ := inductionHypothesis here
        fun other member => lengths other (List.mem_cons_of_mem _ member)
      rw [List.append_assoc, ← List.flatten_cons] at rest later
      refine ⟨state.1 :: first_row, last, ?_, rest, ?_⟩
      · rw [copyDigits, first]
        change (copyDigits n digits middle >>= _) = _
        rw [done]
        rfl
      · intro d l own limb found there
        cases d with
        | zero =>
            cases found
            have inside := (List.getElem?_eq_some_iff.mp there).1
            rw [List.getD_cons_zero, filled.count, List.getElem?_append_right (by omega),
              Nat.add_sub_cancel_left, List.flatten_cons, List.getElem?_append_left inside, there]
        | succ d => exact later d l own limb found there

theorem copyPolys_filled (polys : List (List (List (List Nat)))) (filled : Filled n copied state)
    (lengths : ∀ poly ∈ polys, ∀ digit ∈ poly, ∀ limb ∈ digit, limb.length = n) :
    ∃ first_row last, copyPolys n polys state = .ok (first_row, last) ∧
      Filled n (copied ++ polys.flatten.flatten) last ∧
      ∀ (p d l : Nat) poly digit limb, polys[p]? = some poly → poly[d]? = some digit →
        digit[l]? = some limb →
        (copied ++ polys.flatten.flatten)[(first_row.getD p []).getD d 0 + l]? = some limb := by
  induction polys generalizing copied state with
  | nil =>
      exact ⟨[], state, rfl, by simpa using filled, fun p d l poly digit limb found => by cases found⟩
  | cons poly polys inductionHypothesis =>
      obtain ⟨rows, middle, first, here, own⟩ :=
        copyDigits_filled filled (lengths poly List.mem_cons_self)
      obtain ⟨first_row, last, done, rest, later⟩ := inductionHypothesis here
        fun other member => lengths other (List.mem_cons_of_mem _ member)
      have whole : copied ++ poly.flatten ++ polys.flatten.flatten =
          copied ++ (poly :: polys).flatten.flatten := by
        rw [List.flatten_cons, List.flatten_append, List.append_assoc]
      rw [whole] at rest later
      refine ⟨rows :: first_row, last, ?_, rest, ?_⟩
      · rw [copyPolys, first]
        change (copyPolys n polys middle >>= _) = _
        rw [done]
        rfl
      · intro p d l other digit limb found there place
        cases p with
        | zero =>
            cases found
            have entry := own d l digit limb there place
            have inside := (List.getElem?_eq_some_iff.mp entry).1
            rw [← whole, List.getD_cons_zero, List.getElem?_append_left inside]
            exact entry
        | succ p => exact later p d l other digit limb found there place

end Copy

/-- The digits of a raw key have a modulus for each limb. -/
theorem RawKeySwitchKey.digit_length (rkk : RawKeySwitchKey) (p d : Nat) :
    ((rkk.r_key.getD p []).getD d []).length = ((rkk.r_key_moduli.getD p []).getD d []).length := by
  have polys := congrArg (fun shape => (shape.getD p []).getD d 0) rkk.shape
  have entry {Item : Type} (polys : List (List (List Item))) :
      ((polys.map fun poly => poly.map List.length).getD p []).getD d 0 =
        ((polys.getD p []).getD d []).length := by
    simp only [List.getD_eq_getElem?_getD, List.getElem?_map]
    cases polys[p]? with
    | none => rfl
    | some poly =>
        simp only [Option.map_some, Option.getD_some, List.getElem?_map]
        cases poly[d]? <;> rfl
  simp only [entry] at polys
  exact polys

theorem RawKeySwitchKey.poly_length (rkk : RawKeySwitchKey) (p : Nat) :
    (rkk.r_key.getD p []).length = (rkk.r_key_moduli.getD p []).length := by
  have polys := congrArg (fun shape => (shape.getD p []).length) rkk.shape
  have entry {Item : Type} (polys : List (List (List Item))) :
      ((polys.map fun poly => poly.map List.length).getD p []).length =
        (polys.getD p []).length := by
    simp only [List.getD_eq_getElem?_getD, List.getElem?_map]
    cases polys[p]? with
    | none => rfl
    | some poly => exact List.length_map _
  simp only [entry] at polys
  exact polys

/-- The rows of the snapshot are the digits of the raw key. -/
theorem takeSnapshot_rows (buffer : Nat → Nat) (rkk : RawKeySwitchKey) :
    ∃ snapshot, takeSnapshot buffer rkk = .ok snapshot ∧
      snapshot.moduli = rkk.r_key_moduli ∧
      (∀ p, snapshot.digitRows p = rkk.r_key.getD p []) ∧
      ∀ limb ∈ rkk.r_key.flatten.flatten, limb.length = snapshot.rows.n := by
  set n := ((rkk.r_key.flatten.flatten.getLast?).map List.length).getD 0 with n_def
  have listed {limb : List Nat} (member : limb ∈ rkk.r_key.flatten.flatten) :
      limb.length = rkk.words := by
    obtain ⟨digit, inside, own⟩ := List.mem_flatten.mp member
    obtain ⟨poly, polys, there⟩ := List.mem_flatten.mp inside
    exact rkk.rows poly polys digit there limb own
  have lengths (limb : List Nat) (member : limb ∈ rkk.r_key.flatten.flatten) : limb.length = n := by
    obtain ⟨last, found⟩ := Option.isSome_iff_exists.mp
      (List.getLast?_isSome.mpr (List.ne_nil_of_mem member))
    rw [n_def, found, listed member]
    exact (listed (List.mem_of_getLast? found)).symm
  have start : Filled n [] (0, buffer) := ⟨rfl, fun r limb found => by cases found⟩
  obtain ⟨first_row, last, copied, filled, own⟩ := copyPolys_filled rkk.r_key start
    fun poly polys digit inside limb there => lengths limb
      (List.mem_flatten.mpr ⟨digit, List.mem_flatten.mpr ⟨poly, polys, inside⟩, there⟩)
  rw [List.nil_append] at filled own
  refine ⟨⟨⟨last.2, rkk.r_key.flatten.flatten.length, n⟩, rkk.r_key_moduli, first_row⟩, ?_, rfl,
    ?_, lengths⟩
  · rw [takeSnapshot]
    simp only [← n_def]
    rw [copied]
    rfl
  · intro p
    have digits := rkk.poly_length p
    refine List.ext_getElem (by rw [Snapshot.digitRows, List.length_mapIdx]; exact digits.symm)
      fun d left right => ?_
    have moduli : d < (rkk.r_key_moduli.getD p []).length := digits ▸ right
    have limbs := rkk.digit_length p d
    rw [List.getD_eq_getElem _ _ right, List.getD_eq_getElem _ _ moduli] at limbs
    have poly : rkk.r_key[p]? = some (rkk.r_key.getD p []) := by
      rw [List.getD_eq_getElem?_getD] at right ⊢
      cases found : rkk.r_key[p]? with
      | none =>
          rw [found] at right
          exact absurd right (Nat.not_lt_zero d)
      | some poly => rfl
    simp only [Snapshot.digitRows, List.getElem_mapIdx]
    refine List.ext_getElem (by rw [List.length_map, List.length_range]; exact limbs.symm)
      fun l inner inside => ?_
    rw [List.getElem_map, List.getElem_range]
    exact filled.own _ _ (own p d l _ _ _ poly (List.getElem?_eq_getElem right)
      (List.getElem?_eq_getElem inside))

end Fideslib.KeySnapshot

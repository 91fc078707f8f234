/-
This file proves which entries the table of a batched operation has.
-/

import Fideslib.Kernels.ManyToOneMemory

namespace Fideslib.ManyToOne

open LinearTransform (place_lt place_split place_div)

namespace Call

section Entries

variable {size : Nat} {writes : List (Nat × Entry)} {place : Nat} {entry : Entry}

/-- An entry of the table is a null pointer or was written. -/
theorem data_ptrs_entry (found : data_ptrs size writes place = some entry) :
    entry = .null ∨ (place, entry) ∈ writes := by
  unfold data_ptrs at found
  by_cases touched : ∃ write ∈ writes.map fun write => (write.1, some write.2), write.1 = place
  · obtain ⟨write, member, same, value⟩ := Scatter.commit_touched touched
      fun place => if place < size then some Entry.null else none
    obtain ⟨original, inside, rfl⟩ := List.mem_map.mp member
    rw [value] at found
    cases found
    right
    rw [← same]
    exact inside
  · rw [Scatter.commit_untouched fun write member same => touched ⟨write, member, same⟩] at found
    split_ifs at found
    exact Or.inl (Option.some.inj found).symm

/-- A place that always gets the same entry has it in the end. -/
theorem data_ptrs_written (member : (place, entry) ∈ writes)
    (only : ∀ other, (place, other) ∈ writes → other = entry) :
    data_ptrs size writes place = some entry := by
  have touched : ∃ write ∈ writes.map fun write => (write.1, some write.2), write.1 = place :=
    ⟨(place, some entry), List.mem_map.mpr ⟨(place, entry), member, rfl⟩, rfl⟩
  obtain ⟨write, inside, same, value⟩ := Scatter.commit_touched touched
    fun place => if place < size then some Entry.null else none
  obtain ⟨⟨original, other⟩, written, rfl⟩ := List.mem_map.mp inside
  change original = place at same
  subst same
  rw [data_ptrs, value, only other written]

/-- An entry is lost where its place is written again. -/
theorem data_ptrs_lost {first later : List (Nat × Entry)} (whole : writes = first ++ later)
    (only : ∀ other, (other, entry) ∈ writes → other = place)
    (again : ∃ write ∈ later, write.1 = place) (absent : ∀ write ∈ later, write.2 ≠ entry)
    (pointer : entry ≠ .null) (other : Nat) : data_ptrs size writes other ≠ some entry := by
  intro found
  have written := (data_ptrs_entry found).resolve_left pointer
  have same := only other written
  subst same
  obtain ⟨write, inside, there⟩ := again
  have touched : ∃ write ∈ later.map fun write => (write.1, some write.2), write.1 = other :=
    ⟨_, List.mem_map_of_mem inside, there⟩
  obtain ⟨last, member, -, value⟩ := Scatter.commit_touched touched
    (Scatter.commit (first.map fun write => (write.1, some write.2))
      fun place => if place < size then some Entry.null else none)
  obtain ⟨original, fromLater, rfl⟩ := List.mem_map.mp member
  have split : data_ptrs size writes other = some original.2 := by
    refine Eq.trans ?_ value
    rw [data_ptrs, whole, List.map_append, Scatter.commit, List.foldl_append]
    rfl
  rw [split, Option.some.injEq] at found
  exact absent original fromLater found

end Entries

section Regions

variable {call : Call} {partb : Nat} {base i : Nat} {special : Bool} {write : Nat × Entry}

/-- The sources of a table have one place for each part. -/
theorem mem_sourceWrites (inside : i < partb) (member : write ∈ call.sourceWrites partb base special i) :
    ∃ q < call.split partb * partb, write = (base + q, .source (q / call.split partb) special) := by
  obtain ⟨j, inSplit, rfl⟩ := List.mem_map.mp member
  have inPart := List.mem_range.mp inSplit
  refine ⟨i * call.split partb + j, ?_, ?_⟩
  · rw [mul_comm (call.split partb) partb]
    exact place_lt inside inPart
  · rw [place_div inPart]

theorem sourceWrites_mem {q : Nat} (inside : q < call.split partb * partb) :
    q / call.split partb < partb ∧ (base + q, .source (q / call.split partb) special) ∈
      call.sourceWrites partb base special (q / call.split partb) := by
  rw [mul_comm] at inside
  obtain ⟨row, column, whole⟩ := place_split inside
  refine ⟨row, List.mem_map.mpr ⟨q % call.split partb, List.mem_range.mpr column, ?_⟩⟩
  rw [whole]

theorem mem_wordWrites {entry : Nat → Nat → Entry} {words : Nat} (inside : i < partb)
    (member : write ∈ call.wordWrites partb base entry words i) :
    ∃ q < call.split partb * partb, q / call.split partb = i ∧ ∃ prime < words,
      write = (base + (q * MAXP + prime), entry i prime) := by
  obtain ⟨j, inSplit, inWords⟩ := List.mem_flatMap.mp member
  obtain ⟨prime, inScalar, rfl⟩ := List.mem_map.mp inWords
  have inPart := List.mem_range.mp inSplit
  refine ⟨i * call.split partb + j, ?_, place_div inPart, prime, List.mem_range.mp inScalar, rfl⟩
  rw [mul_comm (call.split partb) partb]
  exact place_lt inside inPart

theorem wordWrites_mem {entry : Nat → Nat → Entry} {words q prime : Nat}
    (inside : q < call.split partb * partb) (inScalar : prime < words) :
    q / call.split partb < partb ∧
      (base + (q * MAXP + prime), entry (q / call.split partb) prime) ∈
        call.wordWrites partb base entry words (q / call.split partb) := by
  rw [mul_comm] at inside
  obtain ⟨row, column, whole⟩ := place_split inside
  refine ⟨row, List.mem_flatMap.mpr ⟨q % call.split partb, List.mem_range.mpr column,
    List.mem_map.mpr ⟨prime, List.mem_range.mpr inScalar, ?_⟩⟩⟩
  rw [whole]

/-- A target of the table belongs to the stride of its operand. -/
theorem target_place {place position : Nat} {other : Bool}
    (member : (place, Entry.target position other) ∈ call.targetWrites partb base special i) :
    ∃ j < call.stride, position = call.stride * i + j ∧ other = special ∧
      place = base + (call.its partb * call.split partb * i + j) := by
  obtain ⟨j, inStride, same⟩ := List.mem_map.mp member
  simp only [Prod.mk.injEq, Entry.target.injEq] at same
  obtain ⟨there, here, kind⟩ := same
  exact ⟨j, List.mem_range.mp inStride, here.symm, kind.symm, there.symm⟩

variable (even : call.its partb * call.split partb = call.stride)
include even

/-- The regions of even parts follow each other. -/
theorem mem_targetWrites (inside : i < partb) (member : write ∈ call.targetWrites partb base special i) :
    ∃ q < call.stride * partb, write = (base + q, .target q special) := by
  obtain ⟨j, inStride, rfl⟩ := List.mem_map.mp member
  refine ⟨call.stride * i + j, ?_, by rw [even]⟩
  rw [mul_comm call.stride i, mul_comm call.stride partb]
  exact place_lt inside (List.mem_range.mp inStride)

theorem targetWrites_mem {q : Nat} (inside : q < call.stride * partb) :
    q / call.stride < partb ∧ (base + q, Entry.target q special) ∈
      call.targetWrites partb base special (q / call.stride) := by
  rw [mul_comm] at inside
  obtain ⟨row, column, whole⟩ := place_split inside
  refine ⟨row, List.mem_map.mpr ⟨q % call.stride, List.mem_range.mpr column, ?_⟩⟩
  rw [even, mul_comm call.stride, whole]

end Regions
/-- The first target behind the parts of the first stride has no pointer in the table. -/
theorem target_lost {call : Call} {partb : Nat} (shaped : call.Shaped partb)
    (uneven : call.its partb * call.split partb ≠ call.stride) {base : Nat} {special : Bool}
    {before after : Nat → List (Nat × Entry)}
    (foreign : ∀ i, ∀ write ∈ before i ++ after i, ∀ position, write.2 ≠ .target position special)
    (next : ∃ write ∈ after 0, write.1 = base + call.whole partb) (size place : Nat) :
    data_ptrs size ((List.range partb).flatMap fun i =>
        before i ++ call.targetWrites partb base special i ++ after i) place ≠
      some (.target (call.its partb * call.split partb) special) := by
  obtain ⟨others, count⟩ := Nat.exists_eq_succ_of_ne_zero (Nat.pos_iff_ne_zero.mp shaped.partb_pos)
  have short : call.its partb * call.split partb < call.stride :=
    lt_of_le_of_ne Shaped.parts_within uneven
  have started : List.range partb = 0 :: (List.range others).map Nat.succ := by
    rw [count, Nat.succ_eq_add_one, List.range_succ_eq_map]
  have member : ∀ {write i}, write ∈ before i ++ call.targetWrites partb base special i ++ after i →
      ∀ position, write.2 = .target position special →
        write ∈ call.targetWrites partb base special i := by
    intro write i inGroup position same
    rcases List.mem_append.mp inGroup with inFront | inAfter
    · rcases List.mem_append.mp inFront with inBefore | inTargets
      · exact absurd same (foreign i write (List.mem_append_left _ inBefore) position)
      · exact inTargets
    · exact absurd same (foreign i write (List.mem_append_right _ inAfter) position)
  have row : ∀ {write i}, write ∈ before i ++ call.targetWrites partb base special i ++ after i →
      write.2 = .target (call.its partb * call.split partb) special →
        i = 0 ∧ write.1 = base + call.its partb * call.split partb := by
    intro write i inGroup same
    obtain ⟨place, entry⟩ := write
    change entry = _ at same
    subst same
    obtain ⟨j, inStride, here, -, there⟩ := target_place (member inGroup _ rfl)
    cases i with
    | zero =>
        rw [Nat.mul_zero, Nat.zero_add] at here there
        exact ⟨rfl, by rw [there, here]⟩
    | succ i =>
        rw [Nat.mul_succ] at here
        omega
  refine @data_ptrs_lost size _ (base + call.its partb * call.split partb) _
    (before 0 ++ call.targetWrites partb base special 0)
    (after 0 ++ ((List.range others).map Nat.succ).flatMap fun i =>
      before i ++ call.targetWrites partb base special i ++ after i) ?_ ?_ ?_ ?_ (by simp) place
  · rw [started, List.flatMap_cons, List.append_assoc]
  · intro other written
    obtain ⟨i, -, inGroup⟩ := List.mem_flatMap.mp written
    exact (row inGroup rfl).2
  · cases others with
    | zero =>
        obtain ⟨write, inAfter, same⟩ := next
        refine ⟨write, List.mem_append_left _ inAfter, ?_⟩
        rw [same, whole, count, Nat.succ_eq_add_one, Nat.zero_add, Nat.mul_one]
    | succ others =>
        refine ⟨(base + (call.its partb * call.split partb * 1 + 0), .target (call.stride * 1 + 0)
          special), List.mem_append_right _ (List.mem_flatMap.mpr ⟨1, ?_, ?_⟩), ?_⟩
        · exact List.mem_map.mpr ⟨0, List.mem_range.mpr (Nat.succ_pos _), rfl⟩
        · refine List.mem_append_left _ (List.mem_append_right _ (List.mem_map.mpr ⟨0, ?_, rfl⟩))
          exact List.mem_range.mpr shaped.stride_pos
        · rw [Nat.mul_one, Nat.add_zero]
  · intro write inLater same
    rcases List.mem_append.mp inLater with inAfter | inOthers
    · exact foreign 0 write (List.mem_append_right _ inAfter) _ same
    · obtain ⟨i, later, inGroup⟩ := List.mem_flatMap.mp inOthers
      obtain ⟨k, -, rfl⟩ := List.mem_map.mp later
      exact absurd (row inGroup same).1 (Nat.succ_ne_zero k)

section Partitions

variable {call : Call} {partb : Nat}

theorem whole_eq (even : call.its partb * call.split partb = call.stride) :
    call.whole partb = call.stride * partb := by rw [whole, even]

/-- The table of an addition has a region of targets and one of sources, and the same again for the
special limbs. -/
def addWrites (call : Call) (partb : Nat) (extb : Bool) : List (Nat × Entry) :=
  (List.range partb).flatMap fun i =>
    call.targetWrites partb 0 false i ++ call.sourceWrites partb (call.whole partb) false i ++
      if extb then
        call.targetWrites partb (call.whole partb + call.split partb * partb) true i ++
          call.sourceWrites partb
            (call.whole partb + call.split partb * partb + call.whole partb) true i
      else []

/-- The regions of a table of even parts do not overlap. -/
theorem mem_addWrites (even : call.its partb * call.split partb = call.stride) {extb : Bool}
    {place : Nat} {entry : Entry} (member : (place, entry) ∈ call.addWrites partb extb) :
    (∃ q < call.stride * partb, place = q ∧ entry = .target q false) ∨
    (∃ q < call.split partb * partb, place = call.stride * partb + q ∧
      entry = .source (q / call.split partb) false) ∨
    (∃ q < call.stride * partb, place = call.stride * partb + call.split partb * partb + q ∧
      entry = .target q true) ∨
    (∃ q < call.split partb * partb,
      place = call.stride * partb + call.split partb * partb + call.stride * partb + q ∧
        entry = .source (q / call.split partb) true) := by
  obtain ⟨i, inRange, inGroup⟩ := List.mem_flatMap.mp member
  have inside := List.mem_range.mp inRange
  rw [whole_eq even] at inGroup
  rcases List.mem_append.mp inGroup with regular | extended
  · rcases List.mem_append.mp regular with inTargets | inSources
    · obtain ⟨q, below, same⟩ := mem_targetWrites even inside inTargets
      cases same
      exact Or.inl ⟨q, below, Nat.zero_add q, rfl⟩
    · obtain ⟨q, below, same⟩ := mem_sourceWrites inside inSources
      cases same
      exact Or.inr (Or.inl ⟨q, below, rfl, rfl⟩)
  · split_ifs at extended
    · rcases List.mem_append.mp extended with inTargets | inSources
      · obtain ⟨q, below, same⟩ := mem_targetWrites even inside inTargets
        cases same
        exact Or.inr (Or.inr (Or.inl ⟨q, below, rfl, rfl⟩))
      · obtain ⟨q, below, same⟩ := mem_sourceWrites inside inSources
        cases same
        exact Or.inr (Or.inr (Or.inr ⟨q, below, rfl, rfl⟩))
    · exact absurd extended List.not_mem_nil

/-- The launches of an addition read their own regions. -/
theorem add_loaded (even : call.its partb * call.split partb = call.stride) {extb : Bool}
    {launch : Launch} (pointers : launch.kernel.scalar = false) (size : Nat)
    (region : launch.special = false ∧ launch.a = 0 ∧ launch.b = call.whole partb ∨
      extb = true ∧ launch.special = true ∧
        launch.a = call.whole partb + call.split partb * partb ∧
        launch.b = call.whole partb + call.split partb * partb + call.whole partb) :
    launch.Loaded call partb (data_ptrs size (call.addWrites partb extb)) := by
  have read : ∀ {i primeid : Nat} {table : Table}, launch.loads call table i primeid =
      (table (launch.b + i)).map fun entry => [⟨entry, .whole⟩] := by
    intro i primeid table
    unfold Launch.loads
    cases kernel : launch.kernel <;> simp_all [Kernel.scalar]
  have operand : ∀ {isU64 special : Bool} {i primeid : Nat},
      launch.kernel.operand isU64 special i primeid = [⟨.source i special, .whole⟩] := by
    intro isU64 special i primeid
    cases kernel : launch.kernel <;> simp_all [Kernel.scalar, Kernel.operand]
  refine ⟨?_, ?_⟩
  · intro place inside
    obtain ⟨row, written⟩ := @targetWrites_mem call partb launch.a launch.special even place inside
    apply data_ptrs_written
    · refine List.mem_flatMap.mpr ⟨_, List.mem_range.mpr row, ?_⟩
      rcases region with ⟨kind, base, -⟩ | ⟨ext, kind, base, -⟩
      · rw [kind, base] at written ⊢
        exact List.mem_append_left _ (List.mem_append_left _ written)
      · rw [kind, base] at written ⊢
        rw [if_pos ext]
        exact List.mem_append_right _ (List.mem_append_left _ written)
    · intro other member
      have placed := mem_addWrites even member
      rw [whole_eq even] at region
      rcases region with ⟨kind, base, -⟩ | ⟨ext, kind, base, -⟩ <;> rw [kind]
      all_goals
        rcases placed with ⟨q, below, same, rfl⟩ | ⟨q, below, same, rfl⟩ | ⟨q, below, same, rfl⟩ |
          ⟨q, below, same, rfl⟩
      · rw [show q = place by omega]
      · omega
      · omega
      · omega
      · omega
      · omega
      · rw [show q = place by omega]
      · omega
  · intro i inside limb inLimb
    obtain ⟨row, written⟩ := @sourceWrites_mem call partb launch.b launch.special i inside
    rw [read, operand]
    have found : data_ptrs size (call.addWrites partb extb) (launch.b + i) =
        some (.source (i / call.split partb) launch.special) := by
      apply data_ptrs_written
      · refine List.mem_flatMap.mpr ⟨_, List.mem_range.mpr row, ?_⟩
        rcases region with ⟨kind, -, base⟩ | ⟨ext, kind, -, base⟩
        · rw [kind, base] at written ⊢
          exact List.mem_append_left _ (List.mem_append_right _ written)
        · rw [kind, base] at written ⊢
          rw [if_pos ext]
          exact List.mem_append_right _ (List.mem_append_right _ written)
      · intro other member
        have placed := mem_addWrites even member
        rw [whole_eq even] at region
        rcases region with ⟨kind, -, base⟩ | ⟨ext, kind, -, base⟩ <;> rw [kind]
        all_goals
          rcases placed with ⟨q, below, same, rfl⟩ | ⟨q, below, same, rfl⟩ | ⟨q, below, same, rfl⟩ |
            ⟨q, below, same, rfl⟩
        · omega
        · rw [show q = i by omega]
        · omega
        · omega
        · omega
        · omega
        · omega
        · rw [show q = i by omega]
    rw [found, Option.map_some]

/-- The part sizes of an addition lose a pointer where they leave out targets. -/
theorem add_lost (shaped : call.Shaped partb)
    (uneven : call.its partb * call.split partb ≠ call.stride) {extb special : Bool}
    (kind : special = true → extb = true) (size place : Nat) :
    data_ptrs size (call.addWrites partb extb) place ≠
      some (.target (call.its partb * call.split partb) special) := by
  have sources : ∀ {base i special write}, write ∈ call.sourceWrites partb base special i →
      ∀ position other, write.2 ≠ .target position other := by
    intro base i special write member position other
    obtain ⟨j, -, rfl⟩ := List.mem_map.mp member
    exact Entry.noConfusion
  have targets : ∀ {base i write}, ∀ special other : Bool, special ≠ other →
      write ∈ call.targetWrites partb base special i →
      ∀ position, write.2 ≠ .target position other := by
    intro base i write special other different member position same
    obtain ⟨j, -, rfl⟩ := List.mem_map.mp member
    injection same with _ kinds
    exact different kinds
  have start : ∀ {base special}, (base, Entry.source 0 special) ∈
      call.sourceWrites partb base special 0 := by
    intro base special
    refine List.mem_map.mpr ⟨0, List.mem_range.mpr shaped.split_pos, ?_⟩
    rw [Nat.zero_mul, Nat.zero_add, Nat.add_zero]
  unfold addWrites
  cases special with
  | false =>
      simp only [List.append_assoc]
      refine @target_lost call partb shaped uneven 0 false (fun _ => []) _ ?_ ?_ size place
      · intro i write member position
        rcases List.mem_append.mp member with inBefore | inAfter
        · exact absurd inBefore List.not_mem_nil
        · rcases List.mem_append.mp inAfter with inSources | extended
          · exact sources inSources _ _
          · split_ifs at extended
            · rcases List.mem_append.mp extended with inTargets | inSources
              · exact targets true false (by decide) inTargets _
              · exact sources inSources _ _
            · exact absurd extended List.not_mem_nil
      · exact ⟨_, List.mem_append_left _ start, (Nat.zero_add _).symm⟩
  | true =>
      rw [kind rfl]
      simp only [if_true, ← List.append_assoc]
      refine @target_lost call partb shaped uneven
        (call.whole partb + call.split partb * partb) true _ _ ?_ ?_ size place
      · intro i write member position
        rcases List.mem_append.mp member with inBefore | inAfter
        · rcases List.mem_append.mp inBefore with inTargets | inSources
          · exact targets false true (by decide) inTargets _
          · exact sources inSources _ _
        · exact sources inAfter _ _
      · exact ⟨_, start, rfl⟩

end Partitions

section Scalars

variable {call : Call} {partb : Nat} {vector vector_shoup : List (List Nat)}

/-- The table of a scalar operation has a region of targets and the words of all scalars, and the
words of their prepared forms. -/
def scalarWrites (call : Call) (partb : Nat) (vector vector_shoup : List (List Nat)) :
    List (Nat × Entry) :=
  (List.range partb).flatMap fun i =>
    call.targetWrites partb 0 false i ++
      call.wordWrites partb (call.whole partb) .scalar (vector.getD i []).length i ++
      call.wordWrites partb (call.whole partb + call.split partb * partb * MAXP) .shoup
        (vector_shoup.getD i []).length i

/-- The words of every scalar fit into their part of the table. -/
def Fits (vector : List (List Nat)) : Prop := ∀ i, (vector.getD i []).length ≤ MAXP

/-- An operation without prepared scalars writes the other regions only. -/
theorem wordWrites_none (base : Nat) (entry : Nat → Nat → Entry) (i : Nat) :
    call.wordWrites partb base entry 0 i = [] := by
  unfold wordWrites
  rw [List.flatMap_eq_nil_iff]
  exact fun _ _ => rfl

theorem mem_scalarWrites (even : call.its partb * call.split partb = call.stride)
    {place : Nat} {entry : Entry}
    (member : (place, entry) ∈ call.scalarWrites partb vector vector_shoup) :
    (∃ q < call.stride * partb, place = q ∧ entry = .target q false) ∨
    (∃ q < call.split partb * partb, ∃ prime < (vector.getD (q / call.split partb) []).length,
      place = call.stride * partb + (q * MAXP + prime) ∧
        entry = .scalar (q / call.split partb) prime) ∨
    (∃ q < call.split partb * partb, ∃ prime < (vector_shoup.getD (q / call.split partb) []).length,
      place = call.stride * partb + call.split partb * partb * MAXP + (q * MAXP + prime) ∧
        entry = .shoup (q / call.split partb) prime) := by
  obtain ⟨i, inRange, inGroup⟩ := List.mem_flatMap.mp member
  have inside := List.mem_range.mp inRange
  rw [whole_eq even] at inGroup
  rcases List.mem_append.mp inGroup with regular | inShoup
  · rcases List.mem_append.mp regular with inTargets | inWords
    · obtain ⟨q, below, same⟩ := mem_targetWrites even inside inTargets
      cases same
      exact Or.inl ⟨q, below, Nat.zero_add q, rfl⟩
    · obtain ⟨q, below, rfl, prime, inScalar, same⟩ := mem_wordWrites inside inWords
      cases same
      exact Or.inr (Or.inl ⟨q, below, prime, inScalar, rfl, rfl⟩)
  · obtain ⟨q, below, rfl, prime, inScalar, same⟩ := mem_wordWrites inside inShoup
    cases same
    exact Or.inr (Or.inr ⟨q, below, prime, inScalar, rfl, rfl⟩)

/-- A word of a part lies before the words of the next part. -/
theorem word_lt {count q prime words : Nat} (fits : words ≤ MAXP) (inside : q < count)
    (inScalar : prime < words) : q * MAXP + prime < count * MAXP :=
  place_lt inside (lt_of_lt_of_le inScalar fits)

theorem word_inj {q prime other words otherWords otherPrime : Nat} (fits : words ≤ MAXP)
    (otherFits : otherWords ≤ MAXP) (inScalar : prime < words) (inOther : otherPrime < otherWords)
    (same : q * MAXP + prime = other * MAXP + otherPrime) : q = other ∧ prime = otherPrime := by
  unfold MAXP at *
  omega

section Loaded

variable (even : call.its partb * call.split partb = call.stride)
include even

theorem scalar_target (size : Nat) {place : Nat} (inside : place < call.stride * partb) :
    data_ptrs size (call.scalarWrites partb vector vector_shoup) place =
      some (.target place false) := by
  obtain ⟨row, written⟩ := @targetWrites_mem call partb 0 false even place inside
  rw [Nat.zero_add] at written
  apply data_ptrs_written
  · exact List.mem_flatMap.mpr ⟨_, List.mem_range.mpr row,
      List.mem_append_left _ (List.mem_append_left _ written)⟩
  · intro other member
    rcases mem_scalarWrites even member with ⟨q, below, same, rfl⟩ |
      ⟨q, below, prime, inScalar, same, rfl⟩ | ⟨q, below, prime, inScalar, same, rfl⟩
    · rw [same]
    · omega
    · omega

variable (fits : Fits vector)
include fits

theorem scalar_word (size : Nat) {q prime : Nat} (inside : q < call.split partb * partb)
    (inScalar : prime < (vector.getD (q / call.split partb) []).length) :
    data_ptrs size (call.scalarWrites partb vector vector_shoup)
        (call.whole partb + (q * MAXP + prime)) = some (.scalar (q / call.split partb) prime) := by
  obtain ⟨row, written⟩ := @wordWrites_mem call partb (call.whole partb) .scalar _ q prime inside
    inScalar
  apply data_ptrs_written
  · exact List.mem_flatMap.mpr ⟨_, List.mem_range.mpr row,
      List.mem_append_left _ (List.mem_append_right _ written)⟩
  · intro other member
    rw [whole_eq even] at member
    have before := word_lt (fits _) inside inScalar
    rcases mem_scalarWrites even member with ⟨r, below, same, rfl⟩ |
      ⟨r, below, next, inOther, same, rfl⟩ | ⟨r, below, next, inOther, same, rfl⟩
    · omega
    · have places : q * MAXP + prime = r * MAXP + next := by omega
      obtain ⟨rfl, rfl⟩ := word_inj (fits _) (fits _) inScalar inOther places
      rfl
    · omega

theorem shoup_word (shoupFits : Fits vector_shoup) (size : Nat) {q prime : Nat} (inside : q < call.split partb * partb)
    (inScalar : prime < (vector_shoup.getD (q / call.split partb) []).length) :
    data_ptrs size (call.scalarWrites partb vector vector_shoup)
        (call.whole partb + call.split partb * partb * MAXP + (q * MAXP + prime)) =
      some (.shoup (q / call.split partb) prime) := by
  obtain ⟨row, written⟩ := @wordWrites_mem call partb
    (call.whole partb + call.split partb * partb * MAXP) .shoup _ q prime inside inScalar
  apply data_ptrs_written
  · exact List.mem_flatMap.mpr ⟨_, List.mem_range.mpr row, List.mem_append_right _ written⟩
  · intro other member
    rw [whole_eq even] at member
    rcases mem_scalarWrites even member with ⟨r, below, same, rfl⟩ |
      ⟨r, below, next, inOther, same, rfl⟩ | ⟨r, below, next, inOther, same, rfl⟩
    · omega
    · have before := word_lt (fits _) below inOther
      omega
    · have places : q * MAXP + prime = r * MAXP + next := by omega
      obtain ⟨rfl, rfl⟩ := word_inj (shoupFits _) (shoupFits _) inScalar inOther places
      rfl

end Loaded

/-- A scalar operation loses a pointer where its parts leave out targets. -/
theorem scalar_lost (shaped : call.Shaped partb)
    (uneven : call.its partb * call.split partb ≠ call.stride)
    (present : 0 < (vector.getD 0 []).length) (size place : Nat) :
    data_ptrs size (call.scalarWrites partb vector vector_shoup) place ≠
      some (.target (call.its partb * call.split partb) false) := by
  have words : ∀ {base entry count i write}, write ∈ call.wordWrites partb base entry count i →
      ∃ position prime, write.2 = entry position prime := by
    intro base entry count i write member
    obtain ⟨j, -, inWords⟩ := List.mem_flatMap.mp member
    obtain ⟨prime, -, rfl⟩ := List.mem_map.mp inWords
    exact ⟨i, prime, rfl⟩
  unfold scalarWrites
  simp only [List.append_assoc]
  refine @target_lost call partb shaped uneven 0 false (fun _ => []) _ ?_ ?_ size place
  · intro i write member position same
    rcases List.mem_append.mp member with inBefore | inAfter
    · exact absurd inBefore List.not_mem_nil
    · rcases List.mem_append.mp inAfter with inWords | inShoup
      · obtain ⟨_, _, word⟩ := words inWords
        rw [word] at same
        cases same
      · obtain ⟨_, _, word⟩ := words inShoup
        rw [word] at same
        cases same
  · refine ⟨(call.whole partb + ((0 * call.split partb + 0) * MAXP + 0), .scalar 0 0),
      List.mem_append_left _ (List.mem_flatMap.mpr ⟨0, List.mem_range.mpr shaped.split_pos,
        List.mem_map.mpr ⟨0, List.mem_range.mpr present, rfl⟩⟩), ?_⟩
    simp

end Scalars
end Call
end Fideslib.ManyToOne

/-
This file shows that a reload from the snapshot gives back the plaintexts of the first upload.
-/

import Fideslib.BootCache.Groups

namespace Fideslib.BootCache

open Transfer

variable {Factor : Type} {scheme : Scheme}

/-- A search for a key of a duplicate-free list meets the value of its place. -/
theorem find_zip_reverse {keys : List Nat} (distinct : keys.Nodup) {values : List Limb}
    {place : Nat} {key : Nat} {value : Limb} (found : keys[place]? = some key)
    (stored : values[place]? = some value) :
    (keys.zip values).reverse.find? (fun pair => pair.1 = key) = some (key, value) := by
  have listed : (key, value) ∈ (keys.zip values).reverse := by
    rw [List.mem_reverse]
    exact List.mem_of_getElem? (List.getElem?_zip_eq_some.mpr ⟨found, stored⟩)
  have present : ((keys.zip values).reverse.find? fun pair => pair.1 = key).isSome :=
    List.find?_isSome.mpr ⟨(key, value), listed, decide_eq_true rfl⟩
  obtain ⟨pair, hit⟩ := Option.isSome_iff_exists.mp present
  have same : pair.1 = key := by simpa using List.find?_some hit
  obtain ⟨other, there⟩ := List.getElem?_of_mem (List.mem_reverse.mp (List.mem_of_find?_eq_some hit))
  obtain ⟨otherKey, otherValue⟩ := List.getElem?_zip_eq_some.mp there
  rw [same] at otherKey
  have equal : other = place := by
    obtain ⟨_, there⟩ := List.getElem?_eq_some_iff.mp otherKey
    obtain ⟨_, here⟩ := List.getElem?_eq_some_iff.mp found
    exact (List.Nodup.getElem_inj_iff distinct).mp (there.trans here.symm)
  subst equal
  have value : pair.2 = value := Option.some.inj (otherValue.symm.trans stored)
  rw [hit, ← same, ← value]

theorem overwrite_nil (n : Nat) (row : Limb) : overwrite n row [] = row.take n := by
  rw [overwrite, List.drop_nil, List.append_nil]

/-- Every special limb takes the row of its own place. -/
theorem loadSpecial_eq {special : List Nat} (distinct : special.Nodup) {rows : List Limb}
    (size : rows.length = special.length) (n : Nat) :
    loadSpecial special (special.zip rows) n [] = rows.map (List.take n) := by
  unfold loadSpecial
  apply List.ext_getElem?
  intro place
  rw [List.getElem?_mapIdx, List.getElem?_map]
  cases found : special[place]? with
  | none =>
      have outside := List.getElem?_eq_none_iff.mp found
      rw [List.getElem?_eq_none (by omega)]
      rfl
  | some prime =>
      obtain ⟨bound, -⟩ := List.getElem?_eq_some_iff.mp found
      have inside : place < rows.length := by omega
      have stored : rows[place]? = some rows[place] := List.getElem?_eq_getElem inside
      have hit := find_zip_reverse distinct found stored
      rw [Option.map_some, hit, stored]
      exact congrArg some (overwrite_nil n _)

/-- A load in a basis of the scheme takes the first words of every row. -/
theorem loadConstant_blank {regular : Nat} {extended : Bool} {data : List Limb} {slots : Nat}
    (within : regular ≤ scheme.chain.length)
    (size : data.length = (scheme.basis regular extended).length) :
    loadConstant scheme data (2 * slots) (scheme.basis regular extended) slots blank =
      .ok ⟨(regular : Int) - 1, (data.take regular).map (List.take (2 * slots)),
        (data.drop regular).map (List.take (2 * slots)), extended⟩ := by
  have count : RnsPoly.limbsize scheme (scheme.basis regular extended) data.length = regular := by
    rw [size, Scheme.basis_length within]
    exact RnsPoly.limbsize_basis within
  have length := size
  rw [Scheme.basis_length within] at length
  have limbs : (data.take regular).mapIdx (fun place row =>
      overwrite (2 * slots) row (([] : List Limb).getD place [])) =
      (data.take regular).map (List.take (2 * slots)) := by
    rw [List.mapIdx_eq_iff]
    intro place
    rw [List.getElem?_map]
    simp only [List.getD_nil, overwrite_nil]
  unfold loadConstant
  rw [if_neg (by simp [size])]
  dsimp only [blank]
  rw [count, limbs, List.drop_nil, List.append_nil]
  cases extended with
  | false =>
      have all : data.length = regular := by simpa [Scheme.specialRows] using length
      rw [if_neg (by omega), List.drop_of_length_le (by omega), decide_eq_false (by omega)]
      rfl
  | true =>
      have more : data.length = regular + scheme.special.length := length
      have some := scheme.special_length_pos
      have rest : ((scheme.basis regular true).zip data).drop regular =
          scheme.special.zip (data.drop regular) := by
        have front : (scheme.chain.take regular).length = regular := by
          rw [List.length_take, Nat.min_eq_left within]
        change (List.zipWith Prod.mk (scheme.basis regular true) data).drop regular = _
        rw [List.drop_zipWith, Scheme.basis, if_pos rfl, List.drop_left' front]
        rfl
      have distinct := (List.nodup_append.mp scheme.distinct).2.1
      rw [if_pos (by omega), decide_eq_true (by omega), rest,
        loadSpecial_eq distinct (by rw [List.length_drop]; omega)]
      rfl

/-- The rows that a snapshot keeps are as long as the ring, and their plaintexts have a slot count
that divides it. -/
def Fits (n : Nat) (raw : RawPlainText Factor) : Prop :=
  2 * raw.slots ≠ 0 ∧ 2 * raw.slots ≤ n ∧ n % (2 * raw.slots) = 0 ∧
    ∀ row ∈ raw.sub0, row.length = n

/-- A compressed row of the ring has a word for every kept place. -/
theorem compressRow_eq {n slots : Nat} (fits : 2 * slots ≤ n) (positive : 2 * slots ≠ 0)
    {row : Limb} (size : row.length = n) :
    compressRow slots row =
      (List.range (2 * slots)).map fun place => row.getD (place * (n / (2 * slots))) 0 := by
  unfold compressRow
  split
  case isTrue => rw [size]
  case isFalse dense =>
    have equal : 2 * slots = n := by omega
    have whole : n / (2 * slots) = 1 := by
      rw [equal]
      exact Nat.div_self (by omega)
    apply List.ext_getElem
    · rw [List.length_map, List.length_range, size, equal]
    · intro place inside _
      rw [List.getElem_map, List.getElem_range, whole, Nat.mul_one, List.getD_eq_getElem?_getD,
        List.getElem?_eq_getElem inside, Option.getD_some]

theorem compressRow_length {n slots : Nat} (fits : 2 * slots ≤ n) (positive : 2 * slots ≠ 0)
    {row : Limb} (size : row.length = n) : (compressRow slots row).length = 2 * slots := by
  rw [compressRow_eq fits positive size, List.length_map, List.length_range]

/-- The snapshot keeps the compressed rows of a plaintext and pads them. -/
def storedRows (n rowWords : Nat) (raw : RawPlainText Factor) : List Limb :=
  raw.sub0.map fun src =>
    (List.range (2 * raw.slots)).map (fun place => src.getD (place * (n / (2 * raw.slots))) 0) ++
      List.replicate (rowWords - 2 * raw.slots) 0

namespace BootSnapshot

/-- The second loop succeeds on plaintexts that fit and stores their rows in order. -/
theorem rowsFrom_ok {n rowWords : Nat} {raws : List (RawPlainText Factor)} {rows : List Limb}
    (stored : rowsFrom n rowWords raws = .ok rows) :
    (∀ raw ∈ raws, Fits n raw) ∧ rows = raws.flatMap (storedRows n rowWords) := by
  induction raws generalizing rows with
  | nil =>
      cases stored
      exact ⟨List.forall_mem_nil _, rfl⟩
  | cons raw rest inductionHypothesis =>
      unfold rowsFrom at stored
      dsimp only at stored
      split at stored
      case isTrue => cases stored
      case isFalse sized =>
        split at stored
        case isTrue => cases stored
        case isFalse wide =>
          cases tail : rowsFrom n rowWords rest with
          | error failure =>
              rw [tail] at stored
              cases stored
          | ok later =>
              rw [tail] at stored
              cases stored
              obtain ⟨fits, equal⟩ := inductionHypothesis tail
              have own : Fits n raw := by
                refine ⟨fun zero => sized (Or.inl zero), ?_, ?_, fun row listed => ?_⟩
                · exact Nat.le_of_not_lt fun less => sized (Or.inr (Or.inl less))
                · exact not_not.mp fun rest => sized (Or.inr (Or.inr rest))
                · by_contra other
                  exact wide (List.any_eq_true.mpr ⟨row, listed, decide_eq_true other⟩)
              refine ⟨?_, by rw [equal]; rfl⟩
              intro other listed
              rcases List.mem_cons.mp listed with rfl | later
              · exact own
              · exact fits other later

/-- The entries follow the plaintexts, and each one begins after the rows before it. -/
theorem entriesFrom_ok {firstRow : Nat} {raws : List (RawPlainText Factor)}
    {entries : List (Entry Factor)} (made : entriesFrom firstRow raws = .ok entries) :
    entries.length = raws.length ∧
      ∀ (place : Nat) (raw : RawPlainText Factor), raws[place]? = some raw → raw.moduli.length = raw.sub0.length ∧
        entries[place]? = some ⟨firstRow + ((raws.take place).map fun raw => raw.sub0.length).sum,
          raw.moduli, raw.noise, raw.noiseLevel, raw.slots⟩ := by
  induction raws generalizing firstRow entries with
  | nil =>
      cases made
      exact ⟨rfl, fun _ _ never => by cases never⟩
  | cons first rest inductionHypothesis =>
      unfold entriesFrom at made
      split at made
      case isTrue => cases made
      case isFalse sized =>
        cases tail : entriesFrom (firstRow + first.sub0.length) rest with
        | error failure =>
            rw [tail] at made
            cases made
        | ok later =>
            rw [tail] at made
            cases made
            obtain ⟨length, entriesEq⟩ := inductionHypothesis tail
            refine ⟨by rw [List.length_cons, List.length_cons, length], ?_⟩
            intro place raw found
            cases place with
            | zero =>
                cases found
                exact ⟨not_not.mp sized, rfl⟩
            | succ place =>
                obtain ⟨rows, there⟩ := entriesEq place raw found
                refine ⟨rows, ?_⟩
                rw [List.getElem?_cons_succ, there, List.take_succ_cons, List.map_cons,
                  List.sum_cons, Nat.add_assoc]

/-- A successful snapshot has the entries and the rows of its plaintexts. -/
theorem make_ok {raws : List (RawPlainText Factor)} {n : Nat} {snapshot : BootSnapshot Factor}
    (made : make raws n = .ok snapshot) :
    entriesFrom 0 raws = .ok snapshot.entries ∧
      rowsFrom n (rowWords raws) raws = .ok snapshot.buffer := by
  unfold make at made
  cases entries : entriesFrom 0 raws with
  | error failure =>
      rw [entries] at made
      cases made
  | ok listed =>
      cases buffer : rowsFrom n (rowWords raws) raws with
      | error failure =>
          rw [entries, buffer] at made
          cases made
      | ok rows =>
          rw [entries, buffer] at made
          cases made
          exact ⟨rfl, rfl⟩

/-- The rows of an entry are the stored rows of its plaintext. -/
theorem rows_of_make {raws : List (RawPlainText Factor)} {n : Nat} {snapshot : BootSnapshot Factor}
    (made : make raws n = .ok snapshot) {place : Nat} {raw : RawPlainText Factor}
    (found : raws[place]? = some raw) :
    raw.moduli.length = raw.sub0.length ∧ ∃ entry, snapshot.entries[place]? = some entry ∧
      entry.moduli = raw.moduli ∧ entry.noise = raw.noise ∧ entry.noiseLevel = raw.noiseLevel ∧
      entry.slots = raw.slots ∧ snapshot.rows entry = storedRows n (rowWords raws) raw := by
  obtain ⟨listed, stored⟩ := make_ok made
  obtain ⟨size, there⟩ := (entriesFrom_ok listed).2 place raw found
  obtain ⟨-, buffer⟩ := rowsFrom_ok stored
  refine ⟨size, _, there, rfl, rfl, rfl, rfl, ?_⟩
  obtain ⟨bound, here⟩ := List.getElem?_eq_some_iff.mp found
  have split : raws = raws.take place ++ raw :: raws.drop (place + 1) := by
    rw [← here, List.getElem_cons_drop, List.take_append_drop]
  have front : ((raws.take place).flatMap (storedRows n (rowWords raws))).length =
      ((raws.take place).map fun raw => raw.sub0.length).sum := by
    rw [List.length_flatMap]
    simp only [storedRows, List.length_map]
  have whole : snapshot.buffer = (raws.take place).flatMap (storedRows n (rowWords raws)) ++
      (storedRows n (rowWords raws) raw ++
        (raws.drop (place + 1)).flatMap (storedRows n (rowWords raws))) := by
    rw [← List.flatMap_cons, ← List.flatMap_append, ← split, buffer]
  apply List.ext_getElem?
  intro row
  unfold rows
  rw [List.getElem?_map]
  dsimp only
  rw [Nat.zero_add, ← front, size]
  by_cases inside : row < raw.sub0.length
  · rw [List.getElem?_range inside, Option.map_some, List.getD_eq_getElem?_getD, whole,
      List.getElem?_append_right (Nat.le_add_right _ _), Nat.add_sub_cancel_left,
      List.getElem?_append_left (by simpa [storedRows] using inside)]
    have present : row < (storedRows n (rowWords raws) raw).length := by
      simpa [storedRows] using inside
    rw [List.getElem?_eq_getElem present, Option.getD_some]
  · have outside : (List.range raw.sub0.length)[row]? = none := by
      rw [List.getElem?_eq_none_iff, List.length_range]
      omega
    have absent : (storedRows n (rowWords raws) raw)[row]? = none := by
      rw [List.getElem?_eq_none_iff, storedRows, List.length_map]
      omega
    rw [outside, absent]
    rfl

end BootSnapshot

/-- The stored rows begin with the compressed rows. -/
theorem storedRows_take {n rowWords : Nat} {raw : RawPlainText Factor} (fits : Fits n raw) :
    (storedRows n rowWords raw).map (List.take (2 * raw.slots)) =
      raw.sub0.map (compressRow raw.slots) := by
  obtain ⟨positive, within, -, sized⟩ := fits
  unfold storedRows
  rw [List.map_map]
  apply List.map_congr_left
  intro row listed
  rw [Function.comp_apply, compressRow_eq within positive (sized row listed)]
  exact List.take_left' (by rw [List.length_map, List.length_range])

/-- This is the plaintext that a load in a basis of the scheme leaves on the device. -/
def loadedPlaintext (regular : Nat) (extended : Bool) (raw : RawPlainText Factor) :
    Plaintext Factor where
  c0 := ⟨(regular : Int) - 1, (raw.sub0.take regular).map (compressRow raw.slots),
    (raw.sub0.drop regular).map (compressRow raw.slots), extended⟩
  noiseFactor := raw.noise
  noiseLevel := raw.noiseLevel
  slots := raw.slots

/-- A load of a plaintext that fits succeeds. -/
theorem Plaintext.load_eq {n regular : Nat} {extended : Bool} {raw : RawPlainText Factor}
    (fits : Fits n raw) (within : regular ≤ scheme.chain.length)
    (basis : raw.moduli = scheme.basis regular extended)
    (size : raw.moduli.length = raw.sub0.length) :
    Plaintext.load scheme raw = .ok (loadedPlaintext regular extended raw) := by
  obtain ⟨positive, room, -, sized⟩ := fits
  have widths (row : Limb) (listed : row ∈ raw.sub0) :
      (compressRow raw.slots row).length = 2 * raw.slots :=
    compressRow_length room positive (sized row listed)
  have accepted : ¬(raw.sub0.map (compressRow raw.slots)).any
      (fun row => row.length ≠ 2 * raw.slots) = true := by
    intro refused
    obtain ⟨row, listed, other⟩ := List.any_eq_true.mp refused
    obtain ⟨source, member, rfl⟩ := List.mem_map.mp listed
    exact of_decide_eq_true other (widths source member)
  have whole (rows : List Limb) (part : ∀ row ∈ rows, row ∈ raw.sub0) :
      (rows.map (compressRow raw.slots)).map (List.take (2 * raw.slots)) =
        rows.map (compressRow raw.slots) := by
    rw [List.map_map]
    apply List.map_congr_left
    intro row listed
    exact List.take_of_length_le (widths row (part row listed)).le
  have count : (raw.sub0.map (compressRow raw.slots)).length =
      (scheme.basis regular extended).length := by
    rw [List.length_map, ← size, basis]
  unfold Plaintext.load loadConstantRows
  dsimp only
  rw [if_neg accepted, basis, loadConstant_blank within count, ← List.map_take, ← List.map_drop,
    whole _ fun row => List.mem_of_mem_take, whole _ fun row => List.mem_of_mem_drop]
  rfl

/-- A plaintext that was loaded in a basis of the scheme has the rows of its entry. -/
theorem loadedPlaintext_holds {n regular : Nat} {extended : Bool}
    {raws : List (RawPlainText Factor)} {snapshot : BootSnapshot Factor} {place : Nat}
    {raw : RawPlainText Factor} (made : BootSnapshot.make raws n = .ok snapshot)
    (found : raws[place]? = some raw) (within : regular ≤ scheme.chain.length)
    (basis : raw.moduli = scheme.basis regular extended) {entry : Entry Factor}
    (there : snapshot.entries[place]? = some entry) :
    (loadedPlaintext regular extended raw).Holds scheme snapshot entry := by
  obtain ⟨size, other, here, moduli, noise, noiseLevel, slots, rows⟩ :=
    BootSnapshot.rows_of_make made found
  obtain ⟨-, stored⟩ := BootSnapshot.make_ok made
  have fits := (BootSnapshot.rowsFrom_ok stored).1 raw (List.mem_of_getElem? found)
  have same : other = entry := Option.some.inj (here.symm.trans there)
  subst same
  have level : ((regular : Int) - 1 + 1).toNat = regular := by omega
  constructor
  case moduli =>
    rw [moduli, basis, basisOf, loadedPlaintext]
    dsimp only
    rw [level, Scheme.basis]
  case limbs =>
    rw [rows, slots, storedRows_take fits, limbsOf, loadedPlaintext]
    dsimp only
    cases extended with
    | true => rw [if_pos rfl, ← List.map_append, List.take_append_drop]
    | false =>
        have length : raw.sub0.length = regular := by
          rw [← size, basis, Scheme.basis_length within]
          simp [Scheme.specialRows]
        rw [if_neg Bool.false_ne_true, List.append_nil, List.take_of_length_le length.le]
  case noiseFactor => exact noise.symm
  case noiseLevel => exact noiseLevel.symm
  case slots => exact slots.symm

/-- A freed plaintext that is loaded from its entry is the plaintext of the first upload. -/
theorem loadConstant_rows {n regular : Nat} {extended : Bool} {raws : List (RawPlainText Factor)}
    {snapshot : BootSnapshot Factor} {place : Nat} {raw : RawPlainText Factor}
    (made : BootSnapshot.make raws n = .ok snapshot) (found : raws[place]? = some raw)
    (within : regular ≤ scheme.chain.length)
    (basis : raw.moduli = scheme.basis regular extended) :
    ∃ entry, snapshot.entries[place]? = some entry ∧
      loadConstant scheme (snapshot.rows entry) (2 * entry.slots) entry.moduli entry.slots blank =
        .ok (loadedPlaintext regular extended raw).c0 ∧
      entry.noise = raw.noise ∧ entry.noiseLevel = raw.noiseLevel ∧ entry.slots = raw.slots := by
  obtain ⟨size, entry, there, moduli, noise, noiseLevel, slots, rows⟩ :=
    BootSnapshot.rows_of_make made found
  obtain ⟨-, stored⟩ := BootSnapshot.make_ok made
  have fits := (BootSnapshot.rowsFrom_ok stored).1 raw (List.mem_of_getElem? found)
  refine ⟨entry, there, ?_, noise, noiseLevel, slots⟩
  have count : (storedRows n (BootSnapshot.rowWords raws) raw).length =
      (scheme.basis regular extended).length := by
    rw [storedRows, List.length_map, ← size, basis]
  rw [rows, slots, moduli, basis, loadConstant_blank within count, List.map_take, List.map_drop,
    storedRows_take fits, ← List.map_take, ← List.map_drop]
  rfl

/-- A loaded group has the plaintext of every raw plaintext. -/
theorem Plaintext.loadAll_ok {raws : List (RawPlainText Factor)} {pts : List (Plaintext Factor)}
    (loaded : Plaintext.loadAll scheme raws = .ok pts) :
    pts.length = raws.length ∧ ∀ (place : Nat) (raw : RawPlainText Factor),
      raws[place]? = some raw →
        ∃ pt, pts[place]? = some pt ∧ Plaintext.load scheme raw = .ok pt := by
  induction raws generalizing pts with
  | nil =>
      cases loaded
      exact ⟨rfl, fun _ _ never => by cases never⟩
  | cons first rest inductionHypothesis =>
      unfold Plaintext.loadAll at loaded
      cases head : Plaintext.load scheme first with
      | error failure =>
          rw [head] at loaded
          cases loaded
      | ok pt =>
          cases tail : Plaintext.loadAll scheme rest with
          | error failure =>
              rw [head, tail] at loaded
              cases loaded
          | ok later =>
              rw [head, tail] at loaded
              cases loaded
              obtain ⟨length, places⟩ := inductionHypothesis tail
              refine ⟨congrArg Nat.succ length, fun place raw found => ?_⟩
              cases place with
              | zero =>
                  cases found
                  exact ⟨pt, rfl, head⟩
              | succ place => exact places place raw found

/-- A reload succeeds when every plaintext can be loaded from the entry of its place. -/
theorem reload_of_entries {snapshot : BootSnapshot Factor} {start : Nat}
    {freed pts : List (Plaintext Factor)} (length : pts.length = freed.length)
    (entries : ∀ (place : Nat) (pt : Plaintext Factor), freed[place]? = some pt →
      ∃ entry c0, snapshot.entries[start + place]? = some entry ∧
        loadConstant scheme (snapshot.rows entry) (2 * entry.slots) entry.moduli entry.slots pt.c0 =
          .ok c0 ∧ pts[place]? = some ⟨c0, entry.noise, entry.noiseLevel, entry.slots⟩) :
    BootSnapshot.reload scheme snapshot start freed = .ok pts := by
  induction freed generalizing start pts with
  | nil =>
      rw [List.eq_nil_of_length_eq_zero length]
      rfl
  | cons pt rest inductionHypothesis =>
      obtain ⟨entry, c0, there, loads, first⟩ := entries 0 pt rfl
      cases pts with
      | nil => cases length
      | cons head tail =>
          cases first
          have later := inductionHypothesis (Nat.succ.inj length) fun place other found => by
            obtain ⟨entry, c0, there, loads, next⟩ := entries (place + 1) other found
            rw [← Nat.add_assoc, Nat.add_right_comm] at there
            exact ⟨entry, c0, there, loads, next⟩
          unfold BootSnapshot.reload
          rw [Nat.add_zero] at there
          rw [there]
          dsimp only
          rw [loads, later]
          rfl

/-- A group that was uploaded and saved is recorded in its snapshot, and a reload of its freed
plaintexts gives the uploaded ones back. -/
theorem reload_uploaded {n : Nat} {raws : List (RawPlainText Factor)}
    {snapshot : BootSnapshot Factor} {pts : List (Plaintext Factor)}
    (made : BootSnapshot.make raws n = .ok snapshot)
    (loaded : Plaintext.loadAll scheme raws = .ok pts)
    (inBasis : ∀ raw ∈ raws, raw.InBasis scheme) :
    Recorded scheme snapshot pts ∧ ∀ freed : List (Plaintext Factor),
      freed.length = pts.length → (∀ pt ∈ freed, pt.c0 = blank) →
        BootSnapshot.reload scheme snapshot 0 freed = .ok pts := by
  obtain ⟨listed, stored⟩ := BootSnapshot.make_ok made
  obtain ⟨entriesLength, -⟩ := BootSnapshot.entriesFrom_ok listed
  obtain ⟨ptsLength, places⟩ := Plaintext.loadAll_ok loaded
  have uploaded (place : Nat) (raw : RawPlainText Factor) (found : raws[place]? = some raw) :
      ∃ regular ≤ scheme.chain.length, ∃ extended,
        raw.moduli = scheme.basis regular extended ∧
          pts[place]? = some (loadedPlaintext regular extended raw) := by
    obtain ⟨regular, within, extended, basis⟩ := inBasis raw (List.mem_of_getElem? found)
    obtain ⟨pt, there, loads⟩ := places place raw found
    have fits := (BootSnapshot.rowsFrom_ok stored).1 raw (List.mem_of_getElem? found)
    have size := (BootSnapshot.rows_of_make made found).1
    rw [Plaintext.load_eq fits within basis size] at loads
    exact ⟨regular, within, extended, basis, by rw [there, ← Except.ok.inj loads]⟩
  constructor
  · constructor
    case size => rw [entriesLength, ptsLength]
    case plaintexts =>
      intro place entry pt there here
      have bound : place < raws.length := by
        rw [← ptsLength]
        exact (List.getElem?_eq_some_iff.mp here).1
      have found : raws[place]? = some raws[place] := List.getElem?_eq_getElem bound
      obtain ⟨regular, within, extended, basis, same⟩ := uploaded place _ found
      rw [Option.some.inj (here.symm.trans same)]
      exact loadedPlaintext_holds made found within basis there
  · intro freed length empty
    apply reload_of_entries length.symm
    intro place pt here
    have bound : place < raws.length := by
      rw [← ptsLength, ← length]
      exact (List.getElem?_eq_some_iff.mp here).1
    have found : raws[place]? = some raws[place] := List.getElem?_eq_getElem bound
    obtain ⟨regular, within, extended, basis, same⟩ := uploaded place _ found
    obtain ⟨entry, there, loads, noise, noiseLevel, slots⟩ :=
      loadConstant_rows made found within basis
    refine ⟨entry, (loadedPlaintext regular extended raws[place]).c0, ?_, ?_, ?_⟩
    · rw [Nat.zero_add]
      exact there
    · rw [empty pt (List.mem_of_getElem? here)]
      exact loads
    · rw [same, noise, noiseLevel, slots]
      rfl

end Fideslib.BootCache

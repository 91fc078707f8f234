/-
This file proves what a context keeps when it is serialized, and when it is restored.
-/

import Fideslib.Serialization.Context

namespace Fideslib.Serialization

open TextStreams

variable {Cpu : Type}

theorem toInt_bounds (value : BitVec 32) : -2 ^ 31 ≤ value.toInt ∧ value.toInt ≤ 2 ^ 31 - 1 := by
  have low := BitVec.le_toInt value
  have high := BitVec.toInt_lt (x := value)
  simp only [Nat.reduceSub] at low high
  exact ⟨low, by omega⟩

theorem readInt32_decimal (value old : BitVec 32) {spaces rest : List Char}
    (blank : ∀ c ∈ spaces, isSpace c) (ends : ∀ c, rest.head? = some c → c.isDigit = false) :
    readInt32 old ⟨spaces ++ (decimal value.toInt ++ rest), false⟩ = (value, ⟨rest, false⟩) := by
  obtain ⟨low, high⟩ := toInt_bounds value
  rw [readInt32, readInt_decimal low high old.toInt blank ends]
  change (BitVec.ofInt 32 value.toInt, _) = _
  rw [BitVec.ofInt_toInt]

theorem readInt32_numbers (old : BitVec 32) : ReadsNumbers (readInt32 old) BitVec.toInt where
  number := fun value _ _ blank ends => readInt32_decimal value old blank ends
  brace := fun _ => rfl

theorem readUint32_numbers (old : BitVec 32) :
    ReadsNumbers (readUint32 old) fun value => (value.toNat : Int) where
  number := by
    intro value spaces rest blank ends
    rw [readUint32, readNat_decimal value.isLt old.toNat blank ends]
    change (BitVec.ofNat 32 value.toNat, _) = _
    rw [BitVec.ofNat_toNat, BitVec.setWidth_eq]
  brace := fun _ => rfl

/-- The counted loop reads the numbers that were written. -/
theorem readDevices_numbers (left : Indeterminate) (values : List (BitVec 32)) (rest : List Char)
    (i : Nat) :
    readDevices left values.length i ⟨' ' :: (signed values ++ '}' :: rest), false⟩ = values := by
  induction values generalizing i with
  | nil => rfl
  | cons value values inductionHypothesis =>
      have text : ' ' :: (signed (value :: values) ++ '}' :: rest) =
          [' '] ++ (decimal value.toInt ++ ' ' :: (signed values ++ '}' :: rest)) := by
        simp only [signed, numbers, List.map_cons, List.flatMap_cons, List.append_assoc,
          List.cons_append, List.nil_append]
      have first : readInt32 (left.devId i)
          ⟨[' '] ++ (decimal value.toInt ++ ' ' :: (signed values ++ '}' :: rest)), false⟩ =
            (value, ⟨' ' :: (signed values ++ '}' :: rest), false⟩) :=
        readInt32_decimal value (left.devId i) (by simp [isSpace]) (by simp)
      rw [text, List.length_cons]
      simp only [readDevices, first, inductionHypothesis]

/-- A word has a character and no white space. -/
structure Word (label : String) : Prop where
  nonempty : label.toList ≠ []
  visible : ∀ c ∈ label.toList, isSpace c = false

/-- A label is read up to the blank behind it. -/
theorem readWord_labelled {label : String} (word : Word label) (rest : List Char) :
    Scanner.readWord ⟨labelled label rest, false⟩ = ⟨' ' :: rest, false⟩ := by
  obtain ⟨nonempty, visible⟩ := word
  rw [labelled]
  generalize label.toList = label at nonempty visible
  have kept : (label ++ ' ' :: rest).dropWhile isSpace = label ++ ' ' :: rest := by
    cases label with
    | nil => exact absurd rfl nonempty
    | cons c cs =>
        rw [List.cons_append, List.dropWhile_cons, visible c List.mem_cons_self]
        rfl
  have dropped : (label ++ ' ' :: rest).dropWhile (fun c => !isSpace c) = ' ' :: rest := by
    rw [List.dropWhile_append_of_pos (fun c listed => by rw [visible c listed]; rfl),
      List.dropWhile_cons]
    rfl
  have present : label ++ ' ' :: rest ≠ [] := by simp
  simp only [Scanner.readWord, Scanner.skipSpace, Bool.false_eq_true, if_false, kept, dropped,
    present, decide_false]

theorem newline_decimal (value : Int) : '\n' ∉ decimal value := by
  have digits : ∀ n, '\n' ∉ Nat.toDigits 10 n := fun n listed =>
    absurd (isDigit_of_mem listed) (by decide)
  cases value with
  | ofNat n => exact digits n
  | negSucc n =>
      intro listed
      rcases List.mem_cons.mp listed with minus | rest
      · exact absurd minus (by decide)
      · exact digits (n + 1) rest

theorem newline_numbers (values : List Int) : '\n' ∉ numbers values := by
  intro listed
  obtain ⟨value, _, inside⟩ := List.mem_flatMap.mp listed
  rcases List.mem_append.mp inside with digit | blank
  · exact newline_decimal value digit
  · exact absurd (List.mem_singleton.mp blank) (by decide)

theorem numbers_length {A : Type} (written : A → Int) (values : List A) :
    values.length ≤ (numbers (values.map written)).length := by
  induction values with
  | nil => exact Nat.zero_le _
  | cons value values inductionHypothesis =>
      change _ ≤ ((decimal (written value) ++ [' ']) ++ numbers (values.map written)).length
      simp only [List.length_cons, List.length_append]
      omega

/-- A line with a label and one number is read back. -/
theorem read_labelled {label : String} (word : Word label) (value old : BitVec 32) :
    (readInt32 old (Scanner.readWord ⟨labelled label (decimal value.toInt), false⟩)).1 = value := by
  have first : readInt32 old ⟨[' '] ++ (decimal value.toInt ++ []), false⟩ = (value, ⟨[], false⟩) :=
    readInt32_decimal value old (by simp [isSpace]) (by simp)
  rw [List.append_nil] at first
  rw [readWord_labelled word]
  exact congrArg Prod.fst first

/-- A line with a label and a list in braces is read back. -/
theorem read_braced {read : Scanner → BitVec 32 × Scanner} {written : BitVec 32 → Int}
    (reads : ReadsNumbers read written) {label : String} (word : Word label)
    (values : List (BitVec 32)) :
    Scanner.readWhile read
      ((labelled label ('{' :: ' ' :: (numbers (values.map written) ++ ['}']))).length + 1)
      (Scanner.readWord
        ⟨labelled label ('{' :: ' ' :: (numbers (values.map written) ++ ['}'])), false⟩).readChar =
      values := by
  have long : values.length ≤ (numbers (values.map written)).length :=
    numbers_length written values
  rw [readWord_labelled word]
  apply readWhile_numbers reads values []
  simp only [labelled, List.length_append, List.length_cons]
  omega

namespace SecretKeyDist

/-- This is the number that the text holds, as the cast reads it. -/
def bits : SecretKeyDist → BitVec 32
  | gaussian => 0
  | uniformTernary => 1
  | sparseTernary => 2
  | sparseEncapsulated => 3
  | unnamed value _ => value

theorem bits_toInt (keyDist : SecretKeyDist) : keyDist.bits.toInt = keyDist.toInt := by
  cases keyDist <;> rfl

theorem ofBits_bits (keyDist : SecretKeyDist) : ofBits keyDist.bits = keyDist := by
  cases keyDist with
  | unnamed value other =>
      change ofBits value = _
      rw [ofBits, dif_pos other]
  | _ => decide

end SecretKeyDist

theorem flag_bits (value : Bool) : (if value then 1 else 0 : BitVec 32).toInt = flag value := by
  cases value <;> rfl

variable (left : Indeterminate) (obj fresh : CryptoContextImpl Cpu)

theorem decodeDevices_devData :
    decodeDevices left (devData obj) fresh =
      { fresh with devices := obj.devices, devicesSize := obj.devicesSize } := by
  have count : numDevices left (devData obj) =
      (obj.devices.length, ⟨' ' :: '{' :: ' ' :: (signed obj.devices ++ ['}']), false⟩) := by
    have first : Scanner.readNat (2 ^ 64) left.numDevices.toNat
        ⟨[] ++ (decimal obj.devices.length ++
          (' ' :: '{' :: ' ' :: (signed obj.devices ++ ['}']))), false⟩ = _ :=
      readNat_decimal obj.devicesSize left.numDevices.toNat (by simp) (by simp)
    exact first
  have devices : readDevices left obj.devices.length 0
      ⟨' ' :: (signed obj.devices ++ ['}']), false⟩ = obj.devices :=
    readDevices_numbers left obj.devices [] 0
  simp only [decodeDevices, count]
  congr 1

theorem decodeAutoLoad_autoLoadData :
    decodeAutoLoad left (autoLoadData obj) fresh =
      { fresh with auto_load_ciphertexts := obj.auto_load_ciphertexts } := by
  have read : (readInt32 left.ciphertexts (Scanner.readWord ⟨autoLoadData obj, false⟩)).1 =
      if obj.auto_load_ciphertexts then 1 else 0 := by
    rw [autoLoadData, ← flag_bits]
    exact read_labelled ⟨by simp, by simp [isSpace]⟩ _ _
  rw [decodeAutoLoad, read]
  congr 1
  cases obj.auto_load_ciphertexts <;> decide

theorem decodeAutoLoadPt_autoLoadPtData :
    decodeAutoLoadPt left (autoLoadPtData obj) fresh =
      { fresh with auto_load_plaintexts := obj.auto_load_plaintexts } := by
  have read : (readInt32 left.plaintexts (Scanner.readWord ⟨autoLoadPtData obj, false⟩)).1 =
      if obj.auto_load_plaintexts then 1 else 0 := by
    rw [autoLoadPtData, ← flag_bits]
    exact read_labelled ⟨by simp, by simp [isSpace]⟩ _ _
  rw [decodeAutoLoadPt, read]
  congr 1
  cases obj.auto_load_plaintexts <;> decide

theorem decodeRotations_rotationData :
    decodeRotations left (rotationData obj) fresh =
      { fresh with rotation_indexes := obj.rotation_indexes } := by
  have word : Word "RotationIndexes:" := ⟨by simp, by simp [isSpace]⟩
  have read := read_braced (readInt32_numbers left.index) word obj.rotation_indexes
  simp only [decodeRotations, rotationData, signed, read]

theorem decodeKeyDist_keyDistData :
    decodeKeyDist left (keyDistData obj) fresh = { fresh with keyDist := obj.keyDist } := by
  have read : (readInt32 left.dist (Scanner.readWord ⟨keyDistData obj, false⟩)).1 =
      obj.keyDist.bits := by
    rw [keyDistData, ← SecretKeyDist.bits_toInt]
    exact read_labelled ⟨by simp, by simp [isSpace]⟩ _ _
  rw [decodeKeyDist, read, SecretKeyDist.ofBits_bits]

theorem decodeSlots_bootstrapData :
    decodeSlots left (bootstrapData obj) fresh =
      { fresh with slots_bootstrap := obj.slots_bootstrap } := by
  have word : Word "BootstrapSlots:" := ⟨by simp, by simp [isSpace]⟩
  have read := read_braced (readUint32_numbers left.slot) word obj.slots_bootstrap
  simp only [decodeSlots, bootstrapData, unsigned, read]

/-- No line of the companion file has a line feed inside. -/
theorem companion_plain :
    '\n' ∉ devData obj ∧ '\n' ∉ autoLoadData obj ∧ '\n' ∉ autoLoadPtData obj ∧
      '\n' ∉ rotationData obj ∧ '\n' ∉ keyDistData obj ∧ '\n' ∉ bootstrapData obj := by
  simp [devData, autoLoadData, autoLoadPtData, rotationData, keyDistData, bootstrapData, labelled,
    signed, unsigned, newline_decimal, newline_numbers]

theorem decodeLines_cons {line : List Char} (plain : '\n' ∉ line) (rest : List Char)
    (step : List Char → CryptoContextImpl Cpu → CryptoContextImpl Cpu)
    (steps : List (List Char → CryptoContextImpl Cpu → CryptoContextImpl Cpu)) :
    decodeLines fresh (line ++ '\n' :: rest) (step :: steps) =
      decodeLines (step line fresh) rest steps := by
  simp only [decodeLines, getline_append plain]

/-- The decoder restores every field that the text has. -/
theorem decode_companion :
    decode left (companion obj) fresh =
      { fresh with
        devices := obj.devices
        devicesSize := obj.devicesSize
        auto_load_ciphertexts := obj.auto_load_ciphertexts
        auto_load_plaintexts := obj.auto_load_plaintexts
        rotation_indexes := obj.rotation_indexes
        keyDist := obj.keyDist
        slots_bootstrap := obj.slots_bootstrap } := by
  obtain ⟨devices, ciphertexts, plaintexts, rotations, dist, slots⟩ := companion_plain obj
  rw [decode, companion, decodeLines_cons _ devices, decodeLines_cons _ ciphertexts,
    decodeLines_cons _ plaintexts, decodeLines_cons _ rotations, decodeLines_cons _ dist,
    decodeLines_cons _ slots, decodeDevices_devData, decodeAutoLoad_autoLoadData,
    decodeAutoLoadPt_autoLoadPtData, decodeRotations_rotationData, decodeKeyDist_keyDistData,
    decodeSlots_bootstrapData]
  rfl

end Fideslib.Serialization

namespace Fideslib.Serialization

open TextStreams

variable {Cpu : Type}

/-- The restored context has the same fields and accepts every call that was accepted. -/
structure SameContext (before after : CryptoContextImpl Cpu) : Prop where
  cpu : after.cpu = before.cpu
  devices : after.devices = before.devices
  auto_load_plaintexts : after.auto_load_plaintexts = before.auto_load_plaintexts
  auto_load_ciphertexts : after.auto_load_ciphertexts = before.auto_load_ciphertexts
  multiplicative_depth : after.multiplicative_depth = before.multiplicative_depth
  rotation_indexes : after.rotation_indexes = before.rotation_indexes
  slots_bootstrap : after.slots_bootstrap = before.slots_bootstrap
  keyDist : after.keyDist = before.keyDist
  bootstrap_mode : after.bootstrap_mode = before.bootstrap_mode
  calls : ∀ call : Call, call.run before = .ok () → call.run after = .ok ()

/-- The calls consult nothing but the recorded modes. -/
theorem Call.run_congr {before after : CryptoContextImpl Cpu}
    (modes : after.bootstrap_mode = before.bootstrap_mode) (call : Call) :
    call.run after = call.run before := by
  cases call with
  | setup slot mode =>
      simp only [Call.run, CryptoContextImpl.CheckBootstrapModeConflict, modes]
  | require slot who =>
      simp only [Call.run, CryptoContextImpl.RequireBootstrapPrecomputation, modes]
  | bootstrap slot allowed who =>
      simp only [Call.run, CryptoContextImpl.CheckBootstrapMode, modes]

theorem deviceFile_ne (filename : String) : filename ≠ deviceFile filename := by
  intro same
  have lengths : filename.length = (filename ++ ".dev").length := congrArg String.length same
  rw [String.length_append] at lengths
  have suffix : ".dev".length = 4 := by decide
  omega

variable {archive : Archive Cpu}

theorem serialize_cases {opens : String → Bool} {files written : Files} {filename : String}
    {before : CryptoContextImpl Cpu} {sertype : SerType}
    (succeeded : SerializeToFile archive opens files filename before sertype = (true, written)) :
    sertype ≠ .unsupported ∧
      (archive.SerializeToFile files filename before.cpu sertype).1 = true ∧
      written = Function.update (archive.SerializeToFile files filename before.cpu sertype).2
        (deviceFile filename) (some (companion before)) := by
  simp only [SerializeToFile] at succeeded
  split_ifs at succeeded with unsupported failed closed
  · exact absurd (congrArg Prod.fst succeeded :) Bool.false_ne_true
  · exact absurd (congrArg Prod.fst succeeded :) Bool.false_ne_true
  · exact absurd (congrArg Prod.fst succeeded :) Bool.false_ne_true
  · exact ⟨unsupported, Bool.not_eq_false _ ▸ failed, (congrArg Prod.snd succeeded).symm⟩

/-- The decoder reads its own companion file back. -/
theorem deserialize_serialized (restores : archive.Restores) {opens : String → Bool}
    {files written : Files} {filename : String} {before : CryptoContextImpl Cpu}
    {sertype : SerType} (left : Indeterminate)
    (succeeded : SerializeToFile archive opens files filename before sertype = (true, written)) :
    DeserializeFromFile archive left written filename sertype =
      (true, some (decode left (companion before) (gpuContext archive before.cpu))) := by
  obtain ⟨supported, archived, stored⟩ := serialize_cases succeeded
  have kept : written filename =
      (archive.SerializeToFile files filename before.cpu sertype).2 filename := by
    rw [stored, Function.update_of_ne (deviceFile_ne filename)]
  have context := restores files filename before.cpu sertype written archived kept
  have text : written (deviceFile filename) = some (companion before) := by
    rw [stored, Function.update_self]
  simp only [DeserializeFromFile, if_neg supported, context, text]

/-- The fields of the text always come back. The depth and the modes are those of a new context. -/
theorem sameContext_iff (left : Indeterminate) (before : CryptoContextImpl Cpu) :
    SameContext before (decode left (companion before) (gpuContext archive before.cpu)) ↔
      before.multiplicative_depth = BitVec.ofInt 32 ((archive.towers before.cpu : Int) - 1) ∧
        ∀ slot, before.bootstrap_mode slot = none := by
  rw [decode_companion]
  constructor
  · intro same
    exact ⟨same.multiplicative_depth.symm, fun slot => congrFun same.bootstrap_mode.symm slot⟩
  · rintro ⟨depth, modes⟩
    have noModes : (fun _ => none) = before.bootstrap_mode := by
      funext slot
      exact (modes slot).symm
    exact {
      cpu := rfl
      devices := rfl
      auto_load_plaintexts := rfl
      auto_load_ciphertexts := rfl
      multiplicative_depth := depth.symm
      rotation_indexes := rfl
      slots_bootstrap := rfl
      keyDist := rfl
      bootstrap_mode := noModes
      calls := fun call accepted => (Call.run_congr noModes call).trans accepted }

/-- A failed restore keeps the caller's object unless only the companion file is missing. -/
theorem unchanged_iff (left : Indeterminate) (files : Files) (filename : String)
    (sertype : SerType) :
    ((DeserializeFromFile archive left files filename sertype).1 = false →
        (DeserializeFromFile archive left files filename sertype).2 = none) ↔
      sertype = .unsupported ∨ archive.DeserializeFromFile files filename sertype = none ∨
        files (deviceFile filename) ≠ none := by
  by_cases unsupported : sertype = .unsupported
  · simp only [DeserializeFromFile, unsupported, if_true, true_or, implies_true]
  · cases archived : archive.DeserializeFromFile files filename sertype with
    | none =>
        simp only [DeserializeFromFile, if_neg unsupported, archived, true_or, or_true,
          implies_true]
    | some context =>
        cases text : files (deviceFile filename) with
        | none => simp [DeserializeFromFile, unsupported, archived, text]
        | some lines => simp [DeserializeFromFile, unsupported, archived, text]

/-- A context is restored exactly when its depth is the number of towers less one and no mode is
recorded. A failed restore leaves the object alone exactly when the archive failed or there was a
companion file, whatever that file holds. -/
theorem restored_iff (restores : archive.Restores) :
    (∀ (opens : String → Bool) (files written : Files) (filename : String)
        (before : CryptoContextImpl Cpu) (sertype : SerType) (left : Indeterminate),
      SerializeToFile archive opens files filename before sertype = (true, written) →
        ((∃ after, DeserializeFromFile archive left written filename sertype =
            (true, some after) ∧ SameContext before after) ↔
          before.multiplicative_depth =
              BitVec.ofInt 32 ((archive.towers before.cpu : Int) - 1) ∧
            ∀ slot, before.bootstrap_mode slot = none)) ∧
      ∀ (left : Indeterminate) (files : Files) (filename : String) (sertype : SerType),
        ((DeserializeFromFile archive left files filename sertype).1 = false →
            (DeserializeFromFile archive left files filename sertype).2 = none) ↔
          sertype = .unsupported ∨ archive.DeserializeFromFile files filename sertype = none ∨
            files (deviceFile filename) ≠ none := by
  constructor
  · intro opens files written filename before sertype left succeeded
    rw [deserialize_serialized restores left succeeded, ← sameContext_iff left before]
    constructor
    · rintro ⟨after, assigned, same⟩
      have found : _ = after := Option.some.inj (congrArg Prod.snd assigned)
      rw [← found] at same
      exact same
    · intro same
      exact ⟨_, rfl, same⟩
  · exact unchanged_iff

/-- This archive stores a context as its text, with one letter for each tower. -/
def textArchive : Archive (List Char) where
  SerializeToFile files filename cpu _ := (true, Function.update files filename (some cpu))
  DeserializeFromFile files filename _ := files filename
  towers cpu := cpu.count 'q'

theorem textArchive_restores : textArchive.Restores := by
  intro files filename cpu sertype later _ kept
  change later filename = some cpu
  rw [kept]
  exact Function.update_self _ _ _

/-- This context has two devices, two towers and no bootstrapping. -/
def plainContext : CryptoContextImpl (List Char) where
  cpu := ['q', 'q']
  devices := [0, 3]
  devicesSize := by decide
  auto_load_plaintexts := true
  auto_load_ciphertexts := false
  multiplicative_depth := 1
  rotation_indexes := [1, -2]
  slots_bootstrap := [8]
  keyDist := .sparseTernary
  bootstrap_mode := fun _ => none

def zeroLocals : Indeterminate := ⟨0, fun _ => 0, 0, 0, 0, 0, 0⟩

def writtenFiles (before : CryptoContextImpl (List Char)) : Files :=
  (SerializeToFile textArchive (fun _ => true) (fun _ => none) "context" before .binary).2

theorem restored_iff_plain :
    ∃ after, DeserializeFromFile textArchive zeroLocals (writtenFiles plainContext) "context"
      .binary = (true, some after) ∧ SameContext plainContext after :=
  ((restored_iff textArchive_restores).1 (fun _ => true) (fun _ => none)
    (writtenFiles plainContext) "context" plainContext .binary zeroLocals rfl).mpr
      ⟨by decide, fun _ => rfl⟩

/-- This context was set up for the standard bootstrap with eight slots. -/
def standardContext : CryptoContextImpl (List Char) :=
  { plainContext with bootstrap_mode := fun slot => if slot = 8 then some .standard else none }

/-- The restored context refuses the bootstrap that was accepted, and a restore without the
companion file fails after it has replaced the object. -/
theorem standard_mode_lost :
    (∃ after, DeserializeFromFile textArchive zeroLocals (writtenFiles standardContext) "context"
          .binary = (true, some after) ∧
        standardContext.RequireBootstrapPrecomputation 8 "EvalBootstrap" = .ok () ∧
        after.RequireBootstrapPrecomputation 8 "EvalBootstrap" ≠ .ok ()) ∧
      ∃ after, DeserializeFromFile textArchive zeroLocals
        (fun filename => if filename = "context" then some ['q', 'q'] else none) "context"
          .binary = (false, some after) := by
  constructor
  · have succeeded : SerializeToFile textArchive (fun _ => true) (fun _ => none) "context"
        standardContext .binary = (true, writtenFiles standardContext) := rfl
    refine ⟨_, deserialize_serialized textArchive_restores zeroLocals succeeded, rfl, ?_⟩
    rw [decode_companion]
    simp [CryptoContextImpl.RequireBootstrapPrecomputation, gpuContext]
  · exact ⟨gpuContext textArchive ['q', 'q'], rfl⟩

end Fideslib.Serialization

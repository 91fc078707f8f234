/-
This file translates how a polynomial on one device allocates, copies, loads and frees its limbs.
-/

import Fideslib.Allocation.Bank

namespace Fideslib.Allocation

/-- A polynomial has a level, a flag, and its regular and special limbs. -/
structure RnsPoly (Word : Type) where
  level : Int
  modUp : Bool
  bufferLimb : Bool
  bufferSpecial : Bool
  regular : Bank Word
  special : Bank Word

variable {Word : Type}

namespace Context

/-- The chain has one prime more than its last level. -/
def L (context : Context Word) : Int := context.scheme.chain.length - 1

/-- One device has a limb for every prime up to the level, and the level above the chain counts as
one of the chain. -/
def getLimbSize (context : Context Word) (level : Int) : Nat :=
  let last := if level = context.L + 1 then
    level - 1 - if context.flexibleAutoExt then 1 else 0 else level
  ((List.range context.scheme.chain.length).takeWhile fun prime : Nat =>
    (prime : Int) ≤ last).length

end Context

/-- A kernel starts a thread for each word in blocks of at most 128 threads. -/
def launched (words : Nat) : Nat := (words + 127) / 128 * min words 128

namespace RnsPoly

/-- A new polynomial has no level and no limbs. -/
def empty : RnsPoly Word := ⟨-1, false, false, false, .empty, .empty⟩

/-- A polynomial has as many words as its first limb. -/
def words (poly : RnsPoly Word) : Nat := (poly.regular.limb.head?.map fun limb => limb.v.length).getD 0

/-- A level without limbs gives a launch without threads. -/
def gridWords (context : Context Word) (poly : RnsPoly Word) : Option Nat :=
  if context.getLimbSize poly.level = 0 then some 0
  else if poly.regular.limb.isEmpty then none else some (launched poly.words)

variable (context : Context Word)

/-- Only a level that needs more limbs allocates. -/
def generateLimbToLevel (newLevel : Int) (words : Nat) (poly : RnsPoly Word) : RnsPoly Word :=
  if poly.regular.limb.length < context.getLimbSize newLevel then
    { poly with
      regular := poly.regular.generate context 0 (context.getLimbSize newLevel) words }
  else poly

/-- All limbs of the chain replace the old ones, which must come from the same way of allocation. -/
def generateLimbSingleMalloc (poly : RnsPoly Word) : Option (RnsPoly Word) :=
  if poly.bufferLimb || poly.regular.limb.isEmpty then
    some
      { poly with
        bufferLimb := true
        regular := poly.regular.clear.generate context 0 context.scheme.chain.length context.N }
  else none

/-- Short limbs are only allocated where there are none. -/
def generateLimbConstant (words : Nat) (poly : RnsPoly Word) : Option (RnsPoly Word) :=
  if poly.regular.limb.isEmpty then
    some
      { poly with
        bufferLimb := false
        regular := poly.regular.generate context 0 (context.getLimbSize poly.level) words }
  else none

/-- A level that is high enough leaves everything as it is. -/
def grow (newLevel : Int) (singleMalloc constant : Bool) (numElems : Option Nat)
    (poly : RnsPoly Word) : Option (RnsPoly Word) :=
  if newLevel ≤ poly.level then some poly
  else if !constant && (!singleMalloc || !poly.regular.limb.isEmpty) && !poly.bufferLimb then
    some (generateLimbToLevel context newLevel (numElems.getD context.N)
      { poly with level := newLevel })
  else if !constant then
    if numElems.getD context.N = context.N then
      generateLimbSingleMalloc context { poly with level := newLevel }
    else none
  else generateLimbConstant context (numElems.getD context.N) { poly with level := newLevel }

/-- A drop keeps the limbs. -/
def dropToLevel (level : Int) (poly : RnsPoly Word) : RnsPoly Word :=
  if level < poly.level then { poly with level := level } else poly

/-- The special limbs lose their contents. Without a common buffer each of them is taken for one of
full length. -/
def zeroSpecial [Zero Word] (poly : RnsPoly Word) : Option (RnsPoly Word) :=
  if poly.bufferSpecial then
    some { poly with special := poly.special.mapWords fun v => List.replicate v.length 0 }
  else if poly.special.limb.all fun limb => context.N ≤ limb.v.length then
    some
      { poly with
        special := poly.special.mapWords fun v =>
          List.replicate context.N 0 ++ v.drop context.N }
  else none

/-- Special limbs for communication have a common buffer, and there must be none before. -/
def allocateSpecial (forCommunication : Bool) (poly : RnsPoly Word) : Option (RnsPoly Word) :=
  let full := poly.special.generate context context.scheme.chain.length
    context.scheme.special.length context.N
  if forCommunication && !poly.bufferSpecial then
    if poly.special.limb.isEmpty then
      some { poly with bufferSpecial := true, special := full }
    else none
  else if !forCommunication && poly.special.limb.isEmpty then
    if poly.bufferSpecial then none else some { poly with special := full }
  else some poly

def generateSpecialLimb [Zero Word] (zeroOut forCommunication : Bool) (poly : RnsPoly Word) :
    Option (RnsPoly Word) := do
  let generated ← allocateSpecial context forCommunication poly
  if zeroOut then zeroSpecial context generated else some generated

/-- Special limbs that exist are only cleared on request. -/
def generateSpecialLimbs [Zero Word] (zeroOut forCommunication : Bool) (poly : RnsPoly Word) :
    Option (RnsPoly Word) :=
  if poly.special.limb.isEmpty || zeroOut then
    generateSpecialLimb context zeroOut forCommunication poly
  else some poly

def freeSpecialLimbs (poly : RnsPoly Word) : RnsPoly Word :=
  { poly with special := poly.special.clear, bufferSpecial := false, modUp := false }

/-- The special limbs and the flag survive. -/
def freeGPU (poly : RnsPoly Word) : RnsPoly Word :=
  { poly with regular := poly.regular.clear, bufferLimb := false, level := -1 }

/-- The regular limbs are copied by one launch of the size of the receiver. -/
def copyLimb (source poly : RnsPoly Word) : Option (RnsPoly Word) := do
  if poly.level = source.level then
    let grid ← poly.gridWords context
    let copied ← Bank.copy source.regular grid (context.getLimbSize poly.level) poly.regular
    some { poly with regular := copied }
  else none

/-- The special limbs are copied in batches of the same number of words. -/
def copySpecialLimb [Zero Word] (source poly : RnsPoly Word) : Option (RnsPoly Word) := do
  let generated ← generateSpecialLimb context false false poly
  if generated.level = source.level then
    let grid ← generated.gridWords context
    let copied ← Bank.copy source.special grid context.scheme.special.length generated.special
    some { generated with special := copied }
  else none

/-- Only an extended source hands over its special limbs. -/
def copyExtended [Zero Word] (source poly : RnsPoly Word) : Option (RnsPoly Word) :=
  if source.modUp then copySpecialLimb context source poly else some poly

def copy [Zero Word] (source : RnsPoly Word) (constant : Bool) (numElems : Option Nat)
    (poly : RnsPoly Word) : Option (RnsPoly Word) := do
  let grown ← (poly.dropToLevel source.level).grow context source.level false constant numElems
  let limbs ← copyLimb context source grown
  let copied ← copyExtended context source limbs
  some { copied with modUp := source.modUp }

/-- Rows beyond the regular ones need special limbs. -/
def extendForRows [Zero Word] (more : Bool) (poly : RnsPoly Word) : Option (RnsPoly Word) :=
  if more then generateSpecialLimbs context false false poly else some poly

/-- The level becomes that of the regular rows, and one row more alone raises it. -/
def load [Zero Word] (data : List (List Word)) (moduli : List Nat) (poly : RnsPoly Word) :
    Option (RnsPoly Word) := do
  let limbsize := Transfer.RnsPoly.limbsize context.scheme moduli data.length
  let grown ← poly.grow context (limbsize - 1) false false none
  let levelled := grown.dropToLevel (limbsize - 1)
  if moduli.take limbsize = context.scheme.chain.take limbsize then
    let regular ← PartialLists.visitInOrder Bank.loadConvert 0 (data.take limbsize)
      levelled.regular
    let extended ← extendForRows context (limbsize < data.length)
      { levelled with regular := regular }
    if ((moduli.take data.length).drop limbsize).isPrefixOf context.scheme.special then
      let special ← PartialLists.visitInOrder Bank.loadConvert 0 (data.drop limbsize)
        extended.special
      some
        { extended with
          special := special
          level := if data.length - limbsize = 1 then extended.level + 1 else extended.level }
    else none
  else none

/-- A long row keeps every word at the start of a stride. -/
def compressRow (slots : Nat) (compress : Bool) (row : List Word) : List Word :=
  if compress && decide (2 * slots < row.length) then
    let stride := row.length / (2 * slots)
    (List.range (2 * slots)).filterMap fun place => row[place * stride]?
  else row

/-- Short special limbs are only allocated where there are none. -/
def generatePartialSpecialLimbs (words : Nat) (poly : RnsPoly Word) : RnsPoly Word :=
  if poly.special.limb.isEmpty then
    { poly with
      special := poly.special.generate context context.scheme.chain.length
        context.scheme.special.length words }
  else poly

/-- More rows than regular ones extend the polynomial. -/
def extendConstant (more : Bool) (words : Nat) (poly : RnsPoly Word) : RnsPoly Word :=
  if more then { generatePartialSpecialLimbs context words poly with modUp := true } else poly

/-- A row goes to every special limb whose prime is its modulus. -/
def loadSpecialRow (modulus : Nat) (row : List Word) (special : Bank Word) :
    Option (Bank Word) :=
  (List.range context.scheme.special.length).foldlM (fun bank place =>
    if context.scheme.special[place]? = some modulus then bank.loadConvert place row
    else some bank) special

/-- A level that is high enough keeps the limbs, and another one only grows without limbs. -/
def loadConstant (data : List (List Word)) (moduli : List Nat) (slots : Option Nat)
    (compress : Bool) (poly : RnsPoly Word) : Option (RnsPoly Word) := do
  let words := 2 * slots.getD (context.N / 2)
  let rows := data.map (compressRow (slots.getD (context.N / 2)) compress)
  if (∀ row ∈ rows, row.length = words) ∧ rows.length = moduli.length then
    let limbsize := Transfer.RnsPoly.limbsize context.scheme moduli rows.length
    let grown ← poly.grow context (limbsize - 1) false true (some words)
    let levelled := grown.dropToLevel (limbsize - 1)
    if moduli.take limbsize = context.scheme.chain.take limbsize then
      let regular ← PartialLists.visitInOrder Bank.loadConvert 0 (rows.take limbsize)
        levelled.regular
      let extended := extendConstant context (limbsize < rows.length) words
        { levelled with regular := regular }
      let special ← PartialLists.visitInOrder
        (fun place row bank => loadSpecialRow context (moduli.getD (limbsize + place) 0) row bank)
        0 (rows.drop limbsize) extended.special
      some { extended with special := special }
    else none
  else none

end RnsPoly

end Fideslib.Allocation

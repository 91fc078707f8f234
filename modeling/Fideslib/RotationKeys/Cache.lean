/-
This file models the rotation-key cache of one GPU context.
-/

import Fideslib.Library.KeyedMap
import Fideslib.Library.Run
import Mathlib.Data.Finset.Basic
import Mathlib.Data.String.Basic
import Mathlib.Data.UInt

namespace Fideslib.RotationKeys

abbrev KeyHash := String

/-- The cache reports these failures by an exception. -/
inductive CacheError where
  | runtimeError (message : String)
  | outOfRange
deriving DecidableEq, Repr

/-- This record holds the fields of a key that the cache reads. -/
structure KeySwitchingKey where
  keyID : KeyHash
  resident : Bool := false
  hasSnapshot : Bool := false
  limbBytes : UInt64 := 0
deriving DecidableEq, Repr

def KeySwitchingKey.offload (key : KeySwitchingKey) : KeySwitchingKey :=
  if key.resident then { key with resident := false } else key

/-- A reload reads the host snapshot, so it needs one. -/
def KeySwitchingKey.ensureResident (key : KeySwitchingKey) : Except CacheError KeySwitchingKey :=
  if key.resident then .ok key
  else if key.hasSnapshot then .ok { key with resident := true }
  else .error .outOfRange

/-- A list iterator names its node by the address of the node. -/
structure LruNode where
  address : Nat
  index : Int
deriving DecidableEq, Repr

/-- This record holds one key set and its cache bookkeeping. -/
structure KeyPrecomputations where
  rotKeys : AList fun _ : Int => KeySwitchingKey := ∅
  residentBytes : UInt64 := 0
  lruOrder : List LruNode := []
  lruPos : AList fun _ : Int => Nat := ∅
  pinned : Finset Int := ∅
  nextAddress : Nat := 0

namespace KeyPrecomputations

def touch (keys : KeyPrecomputations) (index : Int) : KeyPrecomputations :=
  match keys.lruPos.lookup index with
  | some address =>
      { keys with
        lruOrder := keys.lruOrder.filter (fun node => node.address = address) ++
          keys.lruOrder.filter (fun node => ¬ node.address = address) }
  | none =>
      { keys with
        lruOrder := ⟨keys.nextAddress, index⟩ :: keys.lruOrder
        lruPos := keys.lruPos.insert index keys.nextAddress
        nextAddress := keys.nextAddress + 1 }

/-- This function drops the list node of an index and its iterator. -/
def forgetLru (keys : KeyPrecomputations) (index : Int) : KeyPrecomputations :=
  match keys.lruPos.lookup index with
  | some address =>
      { keys with
        lruOrder := keys.lruOrder.filter (fun node => ¬ node.address = address)
        lruPos := keys.lruPos.erase index }
  | none => keys

def offloadKey (keys : KeyPrecomputations) (index : Int) : KeyPrecomputations × Bool :=
  match keys.rotKeys.lookup index with
  | none => (keys, false)
  | some key =>
      if !key.resident || !key.hasSnapshot then (keys, false)
      else
        ({ keys with
            rotKeys := keys.rotKeys.insert index key.offload
            residentBytes := keys.residentBytes - key.limbBytes }.forgetLru index, true)

/-- The scan starts at the back of the list and skips only pinned keys. -/
def evictVictim (keys : KeyPrecomputations) : Option Int :=
  (keys.lruOrder.reverse.find? fun node => node.index ∉ keys.pinned).map LruNode.index

/-- One round of the eviction loop ends the loop or attempts one eviction. -/
def evictRound (budget incoming : UInt64) (keys : KeyPrecomputations) : Option KeyPrecomputations :=
  if keys.residentBytes + incoming > budget then
    keys.evictVictim.map fun index => (keys.offloadKey index).1
  else none

/-- The loop has no bound of its own, so it returns nothing when the fuel runs out. -/
def evictToFit : Nat → UInt64 → UInt64 → KeyPrecomputations → Option KeyPrecomputations
  | 0, _, _, _ => none
  | fuel + 1, budget, incoming, keys =>
      match keys.evictRound budget incoming with
      | some next => evictToFit fuel budget incoming next
      | none => some keys

def ensureResident (fuel : Nat) (index : Int) (budget : UInt64) (mayEvict : Bool)
    (keys : KeyPrecomputations) :
    Option (KeyPrecomputations × Except CacheError KeySwitchingKey) :=
  match keys.rotKeys.lookup index with
  | none => some (keys, .error (.runtimeError s!"Rotation key {index} not found"))
  | some key =>
      if key.resident then some (keys.touch index, .ok key)
      else
        (if mayEvict then keys.evictToFit fuel budget key.limbBytes else some keys).map fun fitted =>
          match key.ensureResident with
          | .error failure => (fitted, .error failure)
          | .ok loaded =>
              ({ fitted with
                  rotKeys := fitted.rotKeys.insert index loaded
                  residentBytes := fitted.residentBytes + loaded.limbBytes }.touch index, .ok loaded)

def registerKey (keys : KeyPrecomputations) (key : KeySwitchingKey) : KeyPrecomputations :=
  if key.resident then { keys with residentBytes := keys.residentBytes + key.limbBytes } else keys

def resetCacheBookkeeping (keys : KeyPrecomputations) : KeyPrecomputations :=
  { keys with residentBytes := 0, lruOrder := [], lruPos := ∅, pinned := ∅ }

def enforceBudget (fuel : Nat) (budget : UInt64) (keys : KeyPrecomputations) :
    Option KeyPrecomputations :=
  keys.evictToFit fuel budget 0

/-- An insertion leaves a stored key in place and accounts the key that is stored. -/
def addKey (keys : KeyPrecomputations) (index : Int) (key : KeySwitchingKey) : KeyPrecomputations :=
  match keys.rotKeys.lookup index with
  | some stored => keys.registerKey stored
  | none => { keys with rotKeys := keys.rotKeys.insert index key }.registerKey key

def offloadKeys (keys : KeyPrecomputations) (indexes : List Int) : KeyPrecomputations :=
  keys.rotKeys.keys.foldl (fun current index =>
    if !indexes.isEmpty && !indexes.contains index then current
    else (current.offloadKey index).1) keys

def pinKey (keys : KeyPrecomputations) (index : Int) (pin : Bool) : KeyPrecomputations :=
  match keys.rotKeys.lookup index with
  | none => keys
  | some _ =>
      if pin then { keys with pinned := insert index keys.pinned }
      else { keys with pinned := keys.pinned.erase index }

def clear (keys : KeyPrecomputations) : KeyPrecomputations :=
  { keys with rotKeys := ∅ }.resetCacheBookkeeping

end KeyPrecomputations

/-- This record holds the fields of a context that the cache reads. -/
structure ContextData where
  logN : Nat
  keys : AList fun _ : KeyHash => KeyPrecomputations := ∅
  rotationKeyCacheBytes : UInt64 := UInt64.ofNat (2 ^ 64 - 1)
  rotationKeyEvictionHold : Int := 0

namespace ContextData

def N (context : ContextData) : Nat := 2 ^ context.logN

/-- This loop adds half the ring dimension until the index is not negative. -/
def raiseIndex (half : Int) : Nat → Int → Int
  | 0, index => index
  | fuel + 1, index => if index < 0 then raiseIndex half fuel (index + half) else index

/-- Each round adds at least one, so this many rounds suffice. -/
def liftIndex (context : ContextData) (index : Int) : Int :=
  raiseIndex (context.N / 2 : Nat) (-index).toNat index

/-- A missing key set starts empty. -/
def openKeySet (context : ContextData) (keyID : KeyHash) : ContextData :=
  match context.keys.lookup keyID with
  | some _ => context
  | none => { context with keys := context.keys.insert keyID {} }

def setKeySet (context : ContextData) (keyID : KeyHash) (keys : KeyPrecomputations) : ContextData :=
  { context with keys := context.keys.insert keyID keys }

/-- An empty key tag selects every key set. -/
def selects (keyID stored : KeyHash) : Bool := keyID.isEmpty || keyID == stored

def addRotationKey (context : ContextData) (index : Int) (key : KeySwitchingKey) : ContextData :=
  let opened := context.openKeySet key.keyID
  match opened.keys.lookup key.keyID with
  | none => opened
  | some keys => opened.setKeySet key.keyID (keys.addKey (context.liftIndex index) key)

def hasRotationKey (context : ContextData) (index : Int) (keyID : KeyHash) : ContextData × Bool :=
  let opened := context.openKeySet keyID
  (opened, match opened.keys.lookup keyID with
    | none => false
    | some keys => (keys.rotKeys.lookup (context.liftIndex index)).isSome)

/-- The cache loads one stored key under the budget of the context. -/
def fetchRotationKey (fuel : Nat) (context : ContextData) (keyID : KeyHash)
    (keys : KeyPrecomputations) (index : Int) :
    Option (ContextData × Except CacheError KeySwitchingKey) :=
  (keys.ensureResident fuel index context.rotationKeyCacheBytes
    (context.rotationKeyEvictionHold == 0)).map fun result =>
      (context.setKeySet keyID result.1, result.2)

def getRotationKey (fuel : Nat) (context : ContextData) (index : Int) (keyID : KeyHash) :
    Option (ContextData × Except CacheError KeySwitchingKey) :=
  match context.keys.lookup keyID with
  | none => some (context, .error .outOfRange)
  | some keys =>
      match keys.rotKeys.lookup index with
      | none => some (context, .error (.runtimeError s!"Rotation index {index} not found"))
      | some _ => context.fetchRotationKey fuel keyID keys index

/-- A sparse ciphertext may use any key whose index agrees modulo its slots. -/
def alternativeIndex (context : ContextData) (keys : KeyPrecomputations) (index slots : Int) : Int :=
  let half : Int := (context.N / 2 : Nat)
  if slots ≠ -1 ∧ slots ≠ half then
    (((List.range ((half.tdiv slots).toNat - 1)).map fun step =>
      (index + ((step : Int) + 1) * slots).tmod half).find? fun other =>
        (keys.rotKeys.lookup other).isSome).getD index
  else index

def getRotationKeyForSlots (fuel : Nat) (context : ContextData) (index : Int) (keyID : KeyHash)
    (slots : Int) : Option (ContextData × Except CacheError (KeySwitchingKey × Int)) :=
  match context.keys.lookup keyID with
  | none => some (context, .error .outOfRange)
  | some keys =>
      let half : Int := (context.N / 2 : Nat)
      if index = 2 * (context.N : Int) - 1 then
        (context.fetchRotationKey fuel keyID keys index).map fun result =>
          (result.1, result.2.map fun key => (key, index))
      else
        let reduced := index.tmod half
        let lifted := if reduced < 0 then reduced + half else reduced
        let actual := match keys.rotKeys.lookup lifted with
          | some _ => lifted
          | none => context.alternativeIndex keys lifted slots
        match keys.rotKeys.lookup actual with
        | none => some (context, .error (.runtimeError s!"Rotation index{actual} not found"))
        | some _ =>
            (context.fetchRotationKey fuel keyID keys actual).map fun result =>
              (result.1, result.2.map fun key => (key, actual))

def offloadRotationKeys (context : ContextData) (indexes : List Int) (keyID : KeyHash) :
    ContextData :=
  { context with keys := KeyedMap.mapValues (fun stored keys =>
      if selects keyID stored then keys.offloadKeys indexes else keys) context.keys }

def pinRotationKey (context : ContextData) (index : Int) (pin : Bool) (keyID : KeyHash) :
    ContextData :=
  { context with keys := KeyedMap.mapValues (fun stored keys =>
      if selects keyID stored then keys.pinKey index pin else keys) context.keys }

/-- An ordered map is read from its least key tag, and the first set with the index answers. -/
def isRotationKeyResident (context : ContextData) (index : Int) (keyID : KeyHash) : Bool :=
  let residency : KeyHash → Option Bool := fun stored =>
    if selects keyID stored then
      (context.keys.lookup stored).bind fun keys =>
        (keys.rotKeys.lookup index).map KeySwitchingKey.resident
    else none
  (((context.keys.keys.filter fun stored => (residency stored).isSome).min?).bind residency).getD
    false

def setRotationKeyCache (fuel : Nat) (context : ContextData) (bytes : UInt64) :
    Option ContextData :=
  (KeyedMap.traverse (fun keys => keys.enforceBudget fuel bytes) context.keys).map fun keys =>
    { context with keys := keys, rotationKeyCacheBytes := bytes }

def clearAutomorphismKeys (context : ContextData) (keyID : KeyHash) : ContextData :=
  { context with keys := KeyedMap.mapValues (fun stored keys =>
      if selects keyID stored then keys.clear else keys) context.keys }

end ContextData

/-- These calls change the cache. -/
inductive Call where
  | addRotationKey (index : Int) (key : KeySwitchingKey)
  | hasRotationKey (index : Int) (keyID : KeyHash)
  | getRotationKey (index : Int) (keyID : KeyHash)
  | getRotationKeyForSlots (index : Int) (keyID : KeyHash) (slots : Int)
  | offloadRotationKeys (indexes : List Int) (keyID : KeyHash)
  | pinRotationKey (index : Int) (pin : Bool) (keyID : KeyHash)
  | setRotationKeyCache (bytes : UInt64)
  | clearAutomorphismKeys (keyID : KeyHash)
  | holdEviction
  | releaseEviction

/-- A call that throws keeps the state it reached. -/
def Call.run (fuel : Nat) (context : ContextData) : Call → Option ContextData
  | .addRotationKey index key => some (context.addRotationKey index key)
  | .hasRotationKey index keyID => some (context.hasRotationKey index keyID).1
  | .getRotationKey index keyID => (context.getRotationKey fuel index keyID).map Prod.fst
  | .getRotationKeyForSlots index keyID slots =>
      (context.getRotationKeyForSlots fuel index keyID slots).map Prod.fst
  | .offloadRotationKeys indexes keyID => some (context.offloadRotationKeys indexes keyID)
  | .pinRotationKey index pin keyID => some (context.pinRotationKey index pin keyID)
  | .setRotationKeyCache bytes => context.setRotationKeyCache fuel bytes
  | .clearAutomorphismKeys keyID => some (context.clearAutomorphismKeys keyID)
  | .holdEviction =>
      some { context with rotationKeyEvictionHold := context.rotationKeyEvictionHold + 1 }
  | .releaseEviction =>
      some { context with rotationKeyEvictionHold := context.rotationKeyEvictionHold - 1 }

/-- A call moves between two states when it returns. -/
def Call.Step (call : Call) (before after : ContextData) : Prop :=
  ∃ fuel, call.run fuel before = some after

/-- A state is reachable when some calls lead to it from a fresh context. -/
def Reachable (context : ContextData) : Prop :=
  ∃ logN, StateMachine.Run Call.Step (fun _ _ => True) { logN := logN } context

end Fideslib.RotationKeys

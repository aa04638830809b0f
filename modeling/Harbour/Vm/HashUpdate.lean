import Harbour.Vm.HashTable

/-!
The operations of the hash item that add and remove pairs, move the storage and
change the flags.
-/

namespace Harbour.Vm.HashUpdate

open Library.BinarySearch HashTable

variable {K V : Type}

/-- What ends the program: `hb_xgrab( 0 )`, which is an internal error, or a read
behind the allocated pairs. -/
inductive HashFault where
  | xgrabNullSize
  | outOfBounds
deriving DecidableEq, Repr

/-- The bits of `iFlags` in `hb_hashSetFlags` and `hb_hashClearFlags`. -/
def noFlags : HashFlags where
  autoAddAccess := false
  autoAddAssign := false
  resort := false
  ignoreCase := false
  binary := false
  keepOrder := false

def flagsSet (iFlags added : HashFlags) : HashFlags where
  autoAddAccess := iFlags.autoAddAccess || added.autoAddAccess
  autoAddAssign := iFlags.autoAddAssign || added.autoAddAssign
  resort := iFlags.resort || added.resort
  ignoreCase := iFlags.ignoreCase || added.ignoreCase
  binary := iFlags.binary || added.binary
  keepOrder := iFlags.keepOrder || added.keepOrder

def flagsClear (iFlags removed : HashFlags) : HashFlags where
  autoAddAccess := iFlags.autoAddAccess && !removed.autoAddAccess
  autoAddAssign := iFlags.autoAddAssign && !removed.autoAddAssign
  resort := iFlags.resort && !removed.resort
  ignoreCase := iFlags.ignoreCase && !removed.ignoreCase
  binary := iFlags.binary && !removed.binary
  keepOrder := iFlags.keepOrder && !removed.keepOrder

/-- `hb_hashResize`; with no pairs left to hold, both arrays are freed. -/
def hashResize (t : BaseHash K V) (nNewSize : Nat) : BaseHash K V :=
  if t.nSize < nNewSize then hashGrow t nNewSize
  else if nNewSize < t.nSize ∧ t.nLen ≤ nNewSize then
    { t with
      nSize := nNewSize
      pnPos := if nNewSize = 0 then none else t.pnPos }
  else t

/-- The slot that `hb_hashValuePtr` and `hb_hashNewValue` open for a key that was
not found, at the place `nPos` of the lookup order. -/
def hashOpenPair (t : BaseHash K V) (nPos : Nat) (pair : K × V) : BaseHash K V :=
  let t := hashReserve t
  match t.pnPos with
  | some pnPos =>
    { t with pnPos := some (pnPos.insertIdx nPos t.nLen), pPairs := t.pPairs ++ [pair] }
  | none => { t with pPairs := t.pPairs.insertIdx nPos pair }

/-- `hb_hashNewPair` and the two items that the caller stores through the pointers. -/
def hashNewPair (t : BaseHash K V) (pair : K × V) : BaseHash K V :=
  let t := hashReserve t
  { t with pnPos := t.pnPos.map (· ++ [t.nLen]), pPairs := t.pPairs ++ [pair] }

/-- The loop of `hb_hashDelPair` over the first `nLen` slots of the index. -/
def delPosition (nPos : Nat) : (nLen : Nat) → List Nat → List Nat
  | 0, _ => []
  | _, [] => []
  | nLen + 1, position :: rest =>
    if nPos < position then (position - 1) :: delPosition nPos nLen rest
    else if position = nPos then delPosition nPos (nLen + 1) rest
    else position :: delPosition nPos nLen rest

/-- `hb_hashDelPair`; the index is left alone while it waits to be sorted anew. -/
def hashDelPair (t : BaseHash K V) (nPos : Nat) : BaseHash K V :=
  let nLen := t.nLen - 1
  if nLen = 0 then { t with pPairs := [], pnPos := none, nSize := 0 }
  else
    { t with
      pPairs := t.pPairs.eraseIdx nPos
      pnPos := t.pnPos.map (if t.iFlags.resort then List.take nLen else delPosition nPos nLen)
      nSize := if hashItemAlloc * 2 < t.nSize - nLen then t.nSize - hashItemAlloc else t.nSize }

def hashClear (t : BaseHash K V) : BaseHash K V :=
  if t.nSize ≠ 0 then { t with pPairs := [], pnPos := none, nSize := 0 } else t

def hashDelAt (t : BaseHash K V) (nPos : Nat) : Bool × BaseHash K V :=
  if 0 < nPos ∧ nPos ≤ t.nLen then (true, hashDelPair t (nPos - 1)) else (false, t)

def hashPairAt (t : BaseHash K V) (nPos : Nat) : Option (K × V) :=
  if 0 < nPos ∧ nPos ≤ t.nLen then t.pPairs[nPos - 1]? else none

section Lookup

variable (cmp : HashFlags → K → K → Int)

/-- `hb_hashValuePtr`: the position of the value of the key, and the table, where
a missing key has been added with the default value when that was asked for. -/
def hashValuePtr (nil : V) (t : BaseHash K V) (key : K) (fAdd : Bool) :
    BaseHash K V × Option Nat :=
  match hashFind cmp t key with
  | (t, true, nPos) => (t, some nPos)
  | (t, false, nPos) =>
    if fAdd then
      let opened := hashOpenPair t nPos (key, t.pDefault.getD nil)
      (opened, some (if opened.pnPos.isSome then t.nLen else nPos))
    else (t, none)

/-- `hb_hashGetItemPtr` with `HB_HASH_AUTOADD_ACCESS`: an access adds a missing
key when the hash says so. -/
def hashAccess (nil : V) (t : BaseHash K V) (key : K) : BaseHash K V × Option V :=
  let (t, position) := hashValuePtr cmp nil t key t.iFlags.autoAddAccess
  (t, position.bind fun nPos => t.pPairs[nPos]?.map Prod.snd)

def hashAddNew (t : BaseHash K V) (key : K) (value : V) : Bool × BaseHash K V :=
  match hashFind cmp t key with
  | (t, true, _) => (false, t)
  | (t, false, nPos) => (true, hashOpenPair t nPos (key, value))

def hashDel (t : BaseHash K V) (key : K) : Bool × BaseHash K V :=
  match hashFind cmp t key with
  | (t, true, nPos) => (true, hashDelPair t nPos)
  | (t, false, _) => (false, t)

/-- `hb_hashScan` for a key: its position, counted from one. -/
def hashScan (t : BaseHash K V) (key : K) : BaseHash K V × Option Nat :=
  match hashFind cmp t key with
  | (t, true, nPos) => (t, some (nPos + 1))
  | (t, false, _) => (t, none)

end Lookup

section Storage

variable (nilPair : K × V)

/-- A slot of the pair array; those behind the used ones hold NIL items. -/
def slotAt (t : BaseHash K V) (n : Nat) : Except HashFault (K × V) :=
  match t.pPairs[n]? with
  | some pair => .ok pair
  | none => if n < t.nSize then .ok nilPair else .error .outOfBounds

/-- `hb_hashResort`: the pairs move to the order of the index. -/
def hashResort (t : BaseHash K V) (pnPos : List Nat) : Except HashFault (BaseHash K V) :=
  if t.nLen = 0 then .error .xgrabNullSize
  else do
    let pPairs ← pnPos.mapM (slotAt nilPair t)
    return { t with pPairs, pnPos := some (List.range t.nLen), nSize := t.nLen }

def hashSort (cmp : HashFlags → K → K → Int) (t : BaseHash K V) :
    Except HashFault (BaseHash K V) :=
  let t := if t.iFlags.resort then hashSortDo cmp t else t
  match t.pnPos with
  | some pnPos => hashResort nilPair t pnPos
  | none => .ok t

def hashSetFlags (t : BaseHash K V) (iFlags : HashFlags) : BaseHash K V :=
  let t := { t with iFlags := flagsSet t.iFlags iFlags }
  if t.pnPos = none ∧ t.nSize ≠ 0 ∧ t.iFlags.keepOrder then
    { t with pnPos := some (List.range t.nLen) }
  else t

def hashClearFlags (t : BaseHash K V) (iFlags : HashFlags) : Except HashFault (BaseHash K V) :=
  let t := { t with iFlags := flagsClear t.iFlags iFlags }
  match t.pnPos with
  | some pnPos =>
    if t.iFlags.keepOrder then .ok t
    else do
      let t ← hashResort nilPair t pnPos
      return { t with pnPos := none }
  | none => .ok t

/-- `HB_HCASEMATCH` with a logical second argument. -/
def hbHCaseMatch (t : BaseHash K V) (fMatch : Bool) : Except HashFault (BaseHash K V) :=
  if fMatch then
    if t.iFlags.ignoreCase then do
      let t ← hashClearFlags nilPair t { noFlags with ignoreCase := true }
      return hashSetFlags t { noFlags with resort := true }
    else .ok t
  else if t.iFlags.ignoreCase then .ok t
  else do
    let t ← hashClearFlags nilPair t { noFlags with binary := true }
    return hashSetFlags t { noFlags with ignoreCase := true, resort := true }

def hbHBinary (t : BaseHash K V) (fBinary : Bool) : Except HashFault (BaseHash K V) :=
  if fBinary then
    if t.iFlags.binary then .ok t
    else do
      let t ← hashClearFlags nilPair t { noFlags with ignoreCase := true }
      return hashSetFlags t { noFlags with binary := true, resort := true }
  else if t.iFlags.binary then do
    let t ← hashClearFlags nilPair t { noFlags with binary := true }
    return hashSetFlags t { noFlags with resort := true }
  else .ok t

def hbHKeepOrder (t : BaseHash K V) (fKeep : Bool) : Except HashFault (BaseHash K V) :=
  if fKeep then
    if t.iFlags.keepOrder then .ok t
    else .ok (hashSetFlags t { noFlags with keepOrder := true })
  else if t.iFlags.keepOrder then hashClearFlags nilPair t { noFlags with keepOrder := true }
  else .ok t

/-- The table that `hb_deserializeHash` builds of the pairs that it reads. -/
def deserializeHash (pairs : List (K × V)) : BaseHash K V :=
  match pairs with
  | [] => hashNew
  | _ :: _ =>
    pairs.foldl hashNewPair
      (hashResize (hashSetFlags hashNew { noFlags with binary := true, resort := true })
        pairs.length)

def allFlags : HashFlags where
  autoAddAccess := true
  autoAddAssign := true
  resort := true
  ignoreCase := true
  binary := true
  keepOrder := true

/-- The flags that `HB_SERIAL_HASHFLAGS` gives to the table behind it; a sort is
wanted unless the flags are those of a hash kept in binary order. -/
def deserializeHashFlags (t : BaseHash K V) (iHashFlags : HashFlags) :
    Except HashFault (BaseHash K V) := do
  let t ← hashClearFlags nilPair t allFlags
  return hashSetFlags t
    { iHashFlags with
      resort := iHashFlags.resort || iHashFlags.keepOrder || !iHashFlags.binary }

end Storage

end Harbour.Vm.HashUpdate

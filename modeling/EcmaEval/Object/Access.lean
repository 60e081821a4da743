import EcmaEval.Conversion

/-!
# Access to objects

The essential operations of ordinary objects, arrays and arguments objects. A mapped key of an
arguments object stands for a parameter: reading it reads the parameter and writing it writes the
parameter. An array keeps its length above its indices.
-/
namespace EcmaEval

/-- Searches an object and its prototypes, nearest first. More steps than there are objects mean
that the chain has no end. -/
def findOnChain (probe : ObjectId → Query (Option β)) : Nat → Option ObjectId → Query (Option β)
  | _, none => pure none
  | 0, some _ => throw .exhausted
  | steps + 1, some o => do
    match ← probe o with
    | some b => return some b
    | none => findOnChain probe steps (← o.load).prototype

def searchChain (start : Option ObjectId) (probe : ObjectId → Query (Option β)) :
    Query (Option β) := do
  findOnChain probe ((← read).objects.size + 1) start

/-- Whether a property may take a new descriptor. A new property needs an extensible object. A
property that is not configurable keeps its kind and flags, and a read-only one its value; only its
writable flag may be turned off. -/
def Descriptor.mayBecome (current : Option Descriptor) (extensible : Bool) (new : Descriptor) : Bool :=
  match current with
  | none => extensible
  | some old =>
    old.configurable ||
      (!new.configurable && new.enumerable == old.enumerable &&
        match old, new with
        | .accessor get set _ _, .accessor newGet newSet _ _ => get.same newGet && set.same newSet
        | .data value writable _ _, .data newValue newWritable _ _ =>
          writable || (!newWritable && value.same newValue)
        | _, _ => false)

def newObject (prototype : Option ObjectId) : Eval ObjectId :=
  allocate { prototype, kind := .ordinary }

def newArray (length : Nat) : Eval ObjectId := do
  if maxArrayLength < length then complain .invalidLength
  else
    let object : Object := { prototype := some (← intrinsics).arrayPrototype, kind := .array }
    allocate (object.insert .length (.data (.number (.ofNat length)) true false false))

namespace ObjectId

def getPrototype (o : ObjectId) : Query (Option ObjectId) := return (← o.load).prototype

/-- Changes the prototype unless the object is not extensible or the change would close a cycle. -/
def setPrototype (o : ObjectId) (prototype : Option ObjectId) : Eval Bool := do
  let object ← o.load
  if object.prototype == prototype then return true
  else if !object.extensible then return false
  else
    let cycle ← searchChain prototype fun p => pure (if p == o then some () else none)
    if cycle.isSome then return false
    else
      o.modify ({ · with prototype })
      return true

def isExtensible (o : ObjectId) : Query Bool := return (← o.load).extensible

def preventExtensions (o : ObjectId) : Eval Bool := do
  o.modify ({ · with extensible := false })
  return true

def mappedParameter (o : ObjectId) (key : Key) : Query (Option (EnvId × String)) := do
  match (← o.load).parameterMap? with
  | none => return none
  | some map => return (map.get? key).map fun name => (map.env, name)

/-- The current value of the parameter a key stands for, once it has one. -/
def mappedValue (o : ObjectId) (key : Key) : Query (Option Value) := do
  match ← o.mappedParameter key with
  | none => return none
  | some (env, name) =>
    match ← env.load with
    | .declarative record => return (record.get? name).bind (·.value)
    | _ => breach .mapOutsideFunction

def writeParameter (env : EnvId) (name : String) (value : Value) : Eval Unit := do
  match ← env.load with
  | .declarative record => env.store (.declarative (← settle (record.assign name value false)))
  | _ => breach .mapOutsideFunction

def getOwnProperty (o : ObjectId) (key : Key) : Query (Option Descriptor) := do
  let stored := (← o.load).properties.get? key
  match stored, ← o.mappedValue key with
  | some (.data _ writable enumerable configurable), some value =>
    return some (.data value writable enumerable configurable)
  | _, _ => return stored

def hasOwnProperty (o : ObjectId) (key : Key) : Query Bool := return (← o.getOwnProperty key).isSome

def ownKeys (o : ObjectId) : Query (List Key) := return (← o.load).properties.orderedKeys

def delete (o : ObjectId) (key : Key) : Eval Bool := do
  match ← o.getOwnProperty key with
  | none => return true
  | some d =>
    if d.configurable then
      o.modify (·.erase key)
      return true
    else return false

/-- Stores a descriptor if the current one may become it. Without an object only the check is
made. -/
def validateAndApply (o : Option ObjectId) (key : Key) (extensible : Bool) (d : Descriptor)
    (current : Option Descriptor) : Eval Bool := do
  if Descriptor.mayBecome current extensible d then
    match o with
    | some o => o.insert key d
    | none => pure ()
    return true
  else return false

def defineOrdinary (o : ObjectId) (key : Key) (d : Descriptor) : Eval Bool := do
  let current ← o.getOwnProperty key
  let extensible ← o.isExtensible
  validateAndApply (some o) key extensible d current

/-- Defines a mapped key of an arguments object. An accessor or a read-only property cuts the tie to
the parameter. -/
def defineMapped (o : ObjectId) (key : Key) (d : Descriptor) (env : EnvId) (name : String) :
    Eval Bool := do
  if ← o.defineOrdinary key d then
    match d with
    | .accessor _ _ _ _ => o.modify (·.unmap key)
    | .data value writable _ _ =>
      writeParameter env name value
      if !writable then o.modify (·.unmap key)
    return true
  else return false

def arrayLength (o : ObjectId) : Query (Number × Bool) := do
  match (← o.load).properties.get? .length with
  | some (.data (.number length) writable _ _) => return (length, writable)
  | _ => breach .arrayWithoutLength

def reaches (index : Nat) (length : Number) : Bool := (Number.ofNat index).less? length == some false

/-- Removes indices from the top, and stops at the first that cannot be removed. -/
def removeIndices (o : ObjectId) : List Nat → Eval (Option Nat)
  | [] => return none
  | index :: rest => do
    if ← o.delete (.ofIndex index) then o.removeIndices rest else return some index

/-- Defines the length of an array. A lower length removes the indices at or past it, as far as that
is possible. -/
def defineLength (o : ObjectId) (d : Descriptor) : Eval Bool := do
  match d with
  | .accessor _ _ _ _ => o.defineOrdinary .length d
  | .data value newWritable enumerable configurable =>
    let number ← value.toNumber
    let newLength := number.toUint32.toNat
    if !(Number.ofNat newLength).equal number then complain .invalidLength
    else
      let lengthOf (writable : Bool) (length : Nat) : Descriptor :=
        .data (.number (.ofNat length)) writable enumerable configurable
      let (oldLength, oldWritable) ← o.arrayLength
      if reaches newLength oldLength then
        o.defineOrdinary .length (lengthOf newWritable newLength)
      else if !oldWritable then return false
      else if !(← o.defineOrdinary .length (lengthOf true newLength)) then return false
      else
        let doomed := (← o.load).properties.indices.filter (newLength ≤ ·)
        match ← o.removeIndices (doomed.mergeSort fun a b => b ≤ a) with
        | some index =>
          let _ ← o.defineOrdinary .length (lengthOf newWritable (index + 1))
          return false
        | none =>
          if !newWritable then
            let _ ← o.defineOrdinary .length (lengthOf false newLength)
          return true

/-- Defines an index of an array, and raises the length above it. -/
def defineIndex (o : ObjectId) (index : Nat) (key : Key) (d : Descriptor) : Eval Bool := do
  let (length, lengthWritable) ← o.arrayLength
  if reaches index length && !lengthWritable then return false
  else if !(← o.defineOrdinary key d) then return false
  else
    if reaches index length then
      let _ ← o.defineOrdinary .length
        (.data (.number (.ofNat (index + 1))) lengthWritable false false)
    return true

/-- Defines an own property; the answer says whether that was possible. -/
def define (o : ObjectId) (key : Key) (d : Descriptor) : Eval Bool := do
  match ← o.mappedParameter key with
  | some (env, name) => o.defineMapped key d env name
  | none =>
    if !(← o.load).isArray then o.defineOrdinary key d
    else if key == .length then o.defineLength d
    else
      match key.arrayIndex? with
      | some index => o.defineIndex index key d
      | none => o.defineOrdinary key d

def createProperty (o : ObjectId) (key : Key) (value : Value) : Eval Bool :=
  o.define key (.plain value)

def createPropertyOrThrow (o : ObjectId) (key : Key) (value : Value) : Eval Unit := do
  if !(← o.createProperty key value) then complain (.cannotDefine key.display)

def defineOrThrow (o : ObjectId) (key : Key) (d : Descriptor) : Eval Unit := do
  if !(← o.define key d) then complain (.cannotRedefine key.display)

def deleteOrThrow (o : ObjectId) (key : Key) : Eval Unit := do
  if !(← o.delete key) then complain (.cannotDelete key.display)

def hasProperty (o : ObjectId) (key : Key) : Query Bool := do
  let found ← searchChain (some o) fun p => do
    return if (← p.load).properties.contains key then some () else none
  return found.isSome

def readOwn (key : Key) (o : ObjectId) : Query (Option Value) := do
  match ← o.mappedValue key with
  | some value => return some value
  | none =>
    match (← o.load).properties.get? key with
    | some (.data value _ _ _) => return some value
    | some (.accessor get _ _ _) =>
      if get.isUndefined then return some .undefined else unsupported .getter
    | none => return none

def get (o : ObjectId) (key : Key) : Query Value :=
  return (← searchChain (some o) (readOwn key)).getD .undefined

/-- Writes a data property of the receiver, keeping its flags, or adds one. -/
def assignOwn (o : ObjectId) (key : Key) (value : Value) : Eval Bool := do
  match ← o.getOwnProperty key with
  | some (.accessor _ _ _ _) => return false
  | some (.data _ writable enumerable configurable) =>
    if writable then o.define key (.data value true enumerable configurable) else return false
  | none => o.createProperty key value

def writeMapped (o : ObjectId) (key : Key) (value : Value) : Eval Unit := do
  match ← o.mappedParameter key with
  | some (env, name) => writeParameter env name value
  | none => pure ()

/-- Writes a property of the receiver, subject to the first property of that key on the chain of
`o`. -/
def setOnChain (o : ObjectId) (key : Key) (value receiver : Value) : Eval Bool := do
  let own ← searchChain (some o) fun p => return (← p.load).properties.get? key
  match own.getD (.plain .undefined) with
  | .data _ writable _ _ =>
    match receiver with
    | .object target => if writable then target.assignOwn key value else return false
    | _ => return false
  | .accessor _ set _ _ => if set.isUndefined then return false else unsupported .setter

/-- Writes a property of the receiver. An arguments object that receives a mapped key first writes
the parameter behind it. -/
def set (o : ObjectId) (key : Key) (value receiver : Value) : Eval Bool := do
  if receiver.same (.object o) then o.writeMapped key value
  o.setOnChain key value receiver

end ObjectId

def errorKindAt (m : Machine) (p : ObjectId) : Option ErrorKind :=
  m.realms.toList.findSome? fun realm =>
    [ErrorKind.typeError, .referenceError, .syntaxError, .rangeError, .error].find?
      fun kind => realm.intrinsics.errorPrototype kind == p

def findErrorKind (v : Value) : Query (Option ErrorKind) := do
  match v with
  | .object o =>
    let m ← read
    searchChain (← o.load).prototype fun p => pure (errorKindAt m p)
  | _ => return none

def errorKindOf (v : Value) (m : Machine) : Option ErrorKind :=
  match findErrorKind v m with
  | .ok kind => kind
  | .error _ => none

end EcmaEval

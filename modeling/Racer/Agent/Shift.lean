import Racer.Library.PrefixReader
import Racer.Trace
import Racer.Worker

namespace Racer
open PrefixReader

/-- The agent's `data.shift`: the first element, or nil from an empty array. -/
def shift : Reader Json Json
  | [] => some (.null, [])
  | value :: data => some (value, data)

/-- The typed reads below fail on a value of another JSON type than the one
the writer puts in that slot; Ruby would carry such a value along or raise. -/
def shiftString : Reader Json String := do
  match ← shift with
  | .string s => return s
  | _ => failure

def shiftBoolean : Reader Json Bool := do
  match ← shift with
  | .boolean b => return b
  | _ => failure

/-- An integer slot. `nil.times` raises when the array is exhausted. -/
def shiftInt : Reader Json Int := do
  match ← shift with
  | .int n => return n
  | _ => failure

/-- A slot that holds a string or nil. -/
def shiftOptionalString : Reader Json (Option String) := do
  match ← shift with
  | .string s => return some s
  | .null => return none
  | _ => failure

/-- `KINDS.fetch(data.shift) { KINDS.first }` and its two siblings: an index
outside the table is reported on stderr and replaced by the first entry. -/
def shiftEnum {α : Type} (table : List α) : Reader Json α := do
  let index ← shiftInt
  give (fetch table index <|> table.head?)

/-- `count = data.shift` followed by `count.times.map { … }`, the shape in which
the agent reads every list. -/
def shiftCounted {α : Type} (read : Reader Json α) : Reader Json (List α) := do
  let count ← shiftInt
  times count.toNat read

def shiftConstant : Reader Json Constant := do
  let name ← shiftString
  let anonymous ← shiftBoolean
  let type ← shiftInt
  let superclass ← shiftOptionalString
  let includedModules ← shiftCounted shiftString
  let prependedModules ← shiftCounted shiftString
  let extendedModules ← shiftCounted shiftString
  let type ← give (fetch Trace.Constant.TYPES type)
  return { name, anonymous, type, superclass, includedModules, prependedModules, extendedModules }

def shiftConstantUpdates : Reader Json (List Constant) :=
  shiftCounted shiftConstant

/-- The fuel bounds the depth of the recursion. Every level shifts three
elements before it recurses, so the length of the array is enough. -/
def shiftConstantInstance : Nat → Reader Json ConstantInstance
  | 0 => failure
  | fuel + 1 => do
    let name ← shiftString
    let singleton ← shiftBoolean
    let genericArguments ← shiftCounted (shiftCounted (shiftConstantInstance fuel))
    return { name, singleton, genericArguments }

def shiftParam (fuel : Nat) : Reader Json Trace.Param := do
  let name ← shiftOptionalString
  let type ← shiftEnum Trace.Param.TYPES
  let typeName ← shiftConstantInstance fuel
  return { name, typeName, type }

mutual

def shiftBlockTrace : Nat → Reader Json Trace.BlockTrace
  | 0 => failure
  | fuel + 1 => do
    let selfType ← shiftConstantInstance fuel
    let returnType ← shiftConstantInstance fuel
    let (params, blockParam) ← shiftParams fuel
    return { selfType := some selfType, returnType, params, blockParam }

def shiftParams : Nat →
    Reader Json (List Trace.Param × Option (Trace.BlockParam Trace.BlockTrace))
  | 0 => failure
  | fuel + 1 => do
    let params ← shiftCounted (shiftParam fuel)
    let blockPresent ← shiftBoolean
    if blockPresent then
      let blockName ← shiftOptionalString
      let traces ← shiftCounted (shiftBlockTrace fuel)
      return (params, some { name := blockName, traces })
    else
      return (params, none)

end

/-- `if data.first then shift_constant_instance(data) else data.shift end`. -/
def shiftCallee (fuel : Nat) : Reader Json (Option ConstantInstance)
  | [] => some (none, [])
  | .null :: data => some (none, data)
  | .boolean false :: data => some (none, data)
  | value :: data => do
    let (callee, rest) ← shiftConstantInstance fuel (value :: data)
    return (some callee, rest)

/-- What `worker_loop` shifts out of one parsed message, in its order. Elements
left over are only reported on stderr. -/
def shiftTrace (fuel : Nat) : Reader Json Trace := do
  let methodName ← shiftString
  let methodKind ← shiftEnum Trace.KINDS
  let methodVisibility ← shiftEnum Trace.VISIBILITIES
  let returnType ← shiftConstantInstance fuel
  let methodOwner ← shiftConstantInstance fuel
  let methodCallee ← shiftCallee fuel
  let constantUpdates ← shiftConstantUpdates
  let (params, blockParam) ← shiftParams fuel
  return { methodOwner, methodCallee, methodName, methodKind, methodVisibility, returnType,
           params, blockParam, constantUpdates }

/-- The decoded trace with the elements that were left over. -/
def decodeMessage (data : List Json) : Option (Trace × List Json) :=
  shiftTrace data.length data

end Racer

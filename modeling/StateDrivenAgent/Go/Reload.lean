import StateDrivenAgent.Go.Actions
import StateDrivenAgent.Storage.Jsonb

/-!
# Frozen executions and the database

`Engine.call` freezes the identity of an execution before it is dispatched and compares it with the
call when the execution is met again, which may be after a restart. Then the arguments of the
execution come from a column of its row, every number a `float64`, and those of the call from the
session, every number a `json.Number`. So the Go types matter here: a `Dynamic` is a value of type
`any` with the numbers of one of its sources.

`Marshal` writes a map sorted by its keys, whatever their order here.
-/

namespace StateDrivenAgent

namespace Go

/-! ## `encoding/json` -/

/-- The text of a `float64`. -/
def marshalFloat (host : Host) (f : F64) : List Char :=
  if f.isZero then (if f.negative then ['-', '0'] else ['0'])
  else
    let s := if (F64.ofRat (1 / 10 ^ 6)).abs ≤ f.abs ∧ f.abs < 10 ^ 21 then formatFixed host f
      else formatExp host f
    replaceFirst ['e', '+', '0'] ['e', '+'] (replaceFirst ['e', '-', '0'] ['e', '-'] s)

def marshalNumber (host : Host) : Number → List Char
  | .int i => (toString i).toList
  | .float f => marshalFloat host f

mutual

/-- The text of a value, as a document in the order of the value. -/
def marshalTree (host : Host) : Value → Spelling
  | .null => .null
  | .bool b => .bool b
  | .num n => .num (marshalNumber host n)
  | .str s => .str s
  | .arr items => .arr (marshalItems host items)
  | .obj fields => .obj (marshalFields host fields)

def marshalItems (host : Host) : List Value → List Spelling
  | [] => []
  | v :: vs => marshalTree host v :: marshalItems host vs

def marshalFields (host : Host) : List (String × Value) → List (String × Spelling)
  | [] => []
  | (k, v) :: vs => (k, marshalTree host v) :: marshalFields host vs

end

mutual

/-- The properties in the order in which a map is written. -/
def sortKeys : Spelling → Spelling
  | .arr items => .arr (sortKeysItems items)
  | .obj fields => .obj ((sortKeysFields fields).insertionSort fun a b => a.1 ≤ b.1)
  | x => x

def sortKeysItems : List Spelling → List Spelling
  | [] => []
  | x :: xs => sortKeys x :: sortKeysItems xs

def sortKeysFields : List (String × Spelling) → List (String × Spelling)
  | [] => []
  | (k, x) :: xs => (k, sortKeys x) :: sortKeysFields xs

end

/-- The escape of one character, fit for HTML. -/
def escapeHtml (c : Char) : List Char :=
  if c = '<' then ['\\', 'u', '0', '0', '3', 'c']
  else if c = '>' then ['\\', 'u', '0', '0', '3', 'e']
  else if c = '&' then ['\\', 'u', '0', '0', '2', '6']
  else escape c

def marshalString (s : String) : List Char := '"' :: (s.toList.flatMap escapeHtml ++ ['"'])

mutual

def encoded : Spelling → List Char
  | .null => ['n', 'u', 'l', 'l']
  | .bool b => (toString b).toList
  | .num token => token
  | .str s => marshalString s
  | .arr items => '[' :: (encodedItems items ++ [']'])
  | .obj fields => '\x7b' :: (encodedFields fields ++ ['\x7d'])

def encodedItems : List Spelling → List Char
  | [] => []
  | [x] => encoded x
  | x :: xs => encoded x ++ ',' :: encodedItems xs

def encodedFields : List (String × Spelling) → List Char
  | [] => []
  | [(k, x)] => marshalString k ++ ':' :: encoded x
  | (k, x) :: xs => marshalString k ++ ':' :: (encoded x ++ ',' :: encodedFields xs)

end

/-- A number token as a `float64`; a zero keeps its sign. -/
def unmarshalFloat (token : List Char) : Option F64 :=
  (parseFloat token).map fun f =>
    if f.isZero then F64.build (decide (token.head? = some '-')) 0 (-1074) else f

mutual

/-- `json.Unmarshal` into an `any`: every number a `float64`. -/
def unmarshal : Spelling → Option Value
  | .null => some .null
  | .bool b => some (.bool b)
  | .num token => (unmarshalFloat token).map fun f => .num (.float f)
  | .str s => some (.str s)
  | .arr items => (unmarshalItems items).map .arr
  | .obj fields => (unmarshalFields fields).map .obj

def unmarshalItems : List Spelling → Option (List Value)
  | [] => some []
  | x :: xs => do
    let v ← unmarshal x
    return v :: (← unmarshalItems xs)

def unmarshalFields : List (String × Spelling) → Option (List (String × Value))
  | [] => some []
  | (k, x) :: xs => do
    let v ← unmarshal x
    return (k, v) :: (← unmarshalFields xs)

end

/-- A value of type `any`: its numbers are `int64` and `float64`, or else `json.Number`. -/
inductive Dynamic where
  | typed (v : Value)
  | numbers (x : Spelling)

namespace Dynamic

/-- The document `json.Marshal` writes. -/
def tree (host : Host) : Dynamic → Spelling
  | typed v => sortKeys (marshalTree host v)
  | numbers x => sortKeys x

/-- `json.Marshal`. -/
def marshal (host : Host) (d : Dynamic) : String := .ofList (encoded (d.tree host))

/-- `equalJSON`. -/
def equal (host : Host) (a b : Dynamic) : Bool := a.marshal host = b.marshal host

/-! ## The two ways through the database -/

/-- A part of the session, committed with the snapshot and read by `Session.UnmarshalJSON`, which
keeps the tokens; `none` if the database refuses it. -/
def reload (host : Host) (d : Dynamic) : Option Dynamic := (d.tree host).stored.map numbers

/-- A column of an execution: `persistToolExecution` gets what `json.Unmarshal` makes of the record,
`loadExecutions` what it makes of the column. -/
def column (host : Host) (d : Dynamic) : Option Dynamic := do
  let fields ← unmarshal (d.tree host)
  let stored ← (typed fields).tree host |>.stored
  return typed (← unmarshal stored)

end Dynamic

/-! ## Identities -/

/-- `DigestV2` of what `json.Marshal` writes. -/
def digestTree (host : Host) (x : Spelling) : Except String String := do
  return host.sha256 (← canonicalV2 host x)

/-- `payload_sha256`. -/
def payloadIdentity (host : Host) (tool target : String) (args : Dynamic) : Except String String :=
  digestTree host (.arr [.str "agent-payload-v1", .str tool, .str target, args.tree host])

/-- `idempotency_key`; an error leaves it empty. -/
def keyIdentity (host : Host) (namespaceId session execution : String) : String :=
  (digestTree host (.arr [.str "agent-action-v1", .str namespaceId, .str session,
    .str execution])).toOption.getD ""

/-- What is frozen of an execution. -/
structure Frozen where
  namespaceId : String
  executionId : String
  tool : String
  target : String
  payloadSha256 : String
  idempotencyKey : String
  arguments : Dynamic
  policy : Dynamic

/-- The execution after a restart: its texts are columns of their own. -/
def Frozen.reload (host : Host) (x : Frozen) : Option Frozen := do
  let arguments ← x.arguments.column host
  let policy ← x.policy.column host
  return { x with arguments, policy }

/-- What `Engine.call` finds out about a call it has an execution of. -/
inductive Recognition where
  | recognized
  | identityChanged
  | policyChanged
deriving DecidableEq

namespace Engine

variable (e : Engine)

/-- The policy map of a tool. -/
def policyMap (name : String) : Dynamic := .typed (e.policyOf name).json

/-- The intent of a call. -/
def freeze (namespaceId session executionId name : String) (args : Dynamic) :
    Except String Frozen := do
  let target := ((e.registry.capability name).map Capability.target).getD ("tool://" ++ name)
  let fingerprint ← payloadIdentity e.platform.host name target args
  return {
    namespaceId, executionId, tool := name, target, payloadSha256 := fingerprint
    idempotencyKey := keyIdentity e.platform.host namespaceId session executionId
    arguments := args, policy := e.policyMap name }

/-- The comparison of a call with its execution. -/
def recognize (session name : String) (args : Dynamic) (x : Frozen) : Recognition :=
  let host := e.platform.host
  if (payloadIdentity host x.tool x.target x.arguments).toOption.getD "" ≠ x.payloadSha256 ∨
      keyIdentity host x.namespaceId session x.executionId ≠ x.idempotencyKey ∨
      (e.registry.capability name).any fun c => x.target ≠ c.target then .identityChanged
  else if x.tool ≠ name || !x.arguments.equal host args ||
      !x.policy.equal host (e.policyMap name) then .policyChanged
  else .recognized

end Engine

end Go

end StateDrivenAgent

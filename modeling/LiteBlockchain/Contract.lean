import LiteBlockchain.Block
import LiteBlockchain.Float64

/-!
`contracts.go` and `dynamic.go`. Both registries are Go maps keyed by a contract's name, with
the same check-then-insert on registration and the same lookup; `Registry` is that map once, and
each registry function is it applied to its own key and values. A contract's parameters come from
a decoded JSON object, of which a contract only asks whether a value is a `float64`.
-/

namespace LiteBlockchain

/-- A value of a `map[string]interface{}` decoded from JSON, as far as a `.(float64)` assertion
sees it: a JSON number is a `float64`, every other kind is something else. -/
inductive Value where
  | float (x : F64)
  | other

/-- `encoding/json` refuses an infinite or NaN `float64` with an `UnsupportedValueError`. -/
def Value.encodable : Value → Bool
  | .float x => x.isFinite
  | .other => true

/-- The `Contract` interface: `Name()` and `Execute(method, params)`. An absent parameter is
`none`, which no assertion accepts. -/
structure Contract where
  name : String
  execute : String → (String → Option Value) → Except String Value

def AdditionContract.execute (method : String) (params : String → Option Value) : Except String Value :=
  if method ≠ "add" then .error "unsupported method"
  else
    match params "a" with
    | some (.float aVal) =>
      match params "b" with
      | some (.float bVal) => .ok (.float (aVal.add bVal))
      | _ => .error "invalid or missing parameter: b"
    | _ => .error "invalid or missing parameter: a"

def additionContract : Contract := ⟨"AdditionContract", AdditionContract.execute⟩

structure Registry (α : Type) where
  lookup : String → Option α

variable {α : Type}

def Registry.empty : Registry α := ⟨fun _ => none⟩

def Registry.register (r : Registry α) (name : String) (x : α) : Except String (Registry α) :=
  match r.lookup name with
  | some _ => .error "contract already exists"
  | none => .ok ⟨Function.update r.lookup name (some x)⟩

def Registry.find (r : Registry α) (name : String) : Except String α :=
  match r.lookup name with
  | some x => .ok x
  | none => .error "contract not found"

theorem Registry.lookup_register (r : Registry α) (name : String) (x : α) (m : String) :
    ((r.register name x).toOption.getD r).lookup m = (r.lookup m).or (if m = name then some x else none) := by
  unfold Registry.register
  by_cases hm : m = name
  · subst hm
    split <;> simp_all [Except.toOption]
  · split <;> simp [hm, Except.toOption, Function.update_noteq hm]

def registerContract (reg : Registry Contract) (c : Contract) : Except String (Registry Contract) :=
  reg.register c.name c

def executeContract (reg : Registry Contract) (name method : String) (params : String → Option Value) :
    Except String Value :=
  (reg.find name).bind fun contract => contract.execute method params

/-- `ContractRegistry` after `init` of `main.go` registers `AdditionContract`; a failed
registration is only printed. -/
def contractRegistry : Registry Contract :=
  match registerContract Registry.empty additionContract with
  | .ok reg => reg
  | .error _ => Registry.empty

structure ContractDefinition where
  name : String
  code : List Nat

def newDynamicRegistry : Registry ContractDefinition := Registry.empty

def DynamicRegistry.registerContract (dr : Registry ContractDefinition) (def_ : ContractDefinition) :
    Except String (Registry ContractDefinition) :=
  dr.register def_.name def_

/-- `GetContract`; Go also returns an empty definition with the error, which no caller reads. -/
def DynamicRegistry.getContract (dr : Registry ContractDefinition) (name : String) :
    Except String ContractDefinition :=
  dr.find name

end LiteBlockchain

import ErrorContracts.Program.Module

/-!
# Values and modules in words
-/

namespace ErrorContracts

def Kind.label : Kind → String
  | constant _ => "ConstantInt"
  | null => "ConstantPointerNull"
  | argument _ _ => "Argument"
  | external _ => "ExternalFunction"
  | function _ _ _ => "Function"
  | aliasOf _ => "GlobalAlias"
  | block _ _ => "BasicBlock"
  | instruction _ (.call _ _) => "CallInst"
  | instruction _ (.compare _ _ _) => "ICmpInst"
  | instruction _ (.cast _ _) => "CastInst"
  | instruction _ (.phi _) => "PhiInst"
  | terminator _ (.branch _ _ _) => "BranchInst"
  | terminator _ (.jump _) => "JumpInst"
  | terminator _ (.ret _) => "ReturnInst"
  | terminator _ .unreachable => "UnreachableInst"

namespace Module

/-- A value by its label and its name, or by its handle where it has no name. -/
def describe (m : Module) (h : Handle) : String :=
  match m.value? h with
  | some v =>
      let title := if v.name.isEmpty then s!"%{h}" else v.name
      s!"{v.kind.label}({title})"
  | none => s!"%{h}"

def summaryLine (m : Module) : String :=
  s!"Module({Text.quoted m.name}, functions={m.functions.length}, externals={m.externals.length})"

end Module

end ErrorContracts

import ScalarLang.IR.Module

/-!
The text of a module.
-/
namespace ScalarLang.IR

/-- A name between quotes, with backslashes and quotes written by their code. -/
def quotedName (name : String) : String :=
  let escape (c : Char) : List Char :=
    if c = '\\' then ['\\', '5', 'c'] else if c = '"' then ['\\', '2', '2'] else [c]
  "\"" ++ String.ofList (name.toList.flatMap escape) ++ "\""

/-- A constant by its bits in hexadecimal, filled up with blanks in front to sixteen characters. -/
def constantText (value : Float) : String :=
  let digits := '0' :: 'x' :: Nat.toDigits 16 value.toBits.toNat
  String.ofList (List.replicate (16 - digits.length) ' ' ++ digits)

namespace Operand

def text : Operand → String
  | constant value => constantText value
  | register name => "%" ++ quotedName name

end Operand

def doubles (items : List String) : String := ", ".intercalate (items.map ("double " ++ ·))

namespace Instruction

def mnemonic : Arithmetic → String
  | .add => "fadd"
  | .sub => "fsub"
  | .mul => "fmul"

def action : Instruction → String
  | arithmetic _ op lhs rhs => s!"{mnemonic op} double {lhs.text}, {rhs.text}"
  | compare _ lhs rhs => s!"fcmp ult double {lhs.text}, {rhs.text}"
  | widen _ bit => s!"uitofp i1 %{quotedName bit} to double"
  | call _ callee args =>
    s!"call double @{quotedName callee}(" ++ doubles (args.map Operand.text) ++ ")"

def text (i : Instruction) : String := s!"  %{quotedName i.result} = {i.action}\n"

end Instruction

namespace Procedure

def text (p : Procedure) : String :=
  let heading := s!"double @{quotedName p.symbol}(" ++
    doubles (p.params.map fun param => "%" ++ quotedName param) ++ ")\n"
  match p.body with
  | none => "declare " ++ heading
  | some block =>
    "define " ++ heading ++ "\x7b\n" ++ block.label ++ ":\n" ++
      String.join (block.instructions.map Instruction.text) ++
      s!"  ret double {block.result.text}\n" ++ "\x7d\n"

end Procedure

namespace Module

def triple : String := "x86_64-unknown-linux-gnu"

def dataLayout : String :=
  "e-m:e-p270:32:32-p271:32:32-p272:64:64-i64:64-i128:128-f80:128-n8:16:32:64-S128"

def text (m : Module) : String :=
  "\n".intercalate <|
    ["; ModuleID = \"" ++ m.name ++ "\"", "target triple = \"" ++ triple ++ "\"",
      "target datalayout = \"" ++ dataLayout ++ "\"", ""] ++
    m.procedures.map Procedure.text

end Module
end ScalarLang.IR

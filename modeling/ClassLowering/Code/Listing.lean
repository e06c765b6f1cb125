import ClassLowering.ClassUnit
import ClassLowering.Code.Lowering
import ClassLowering.Event

namespace ClassLowering

def modifiers (access : Access) (isStatic isFinal : Bool) : String :=
  let access := if access.keyword.isEmpty then "" else " " ++ access.keyword
  access ++ (if isStatic then " static" else "") ++ (if isFinal then " final" else "")

def Method.listing (h : ClassHeader) (m : Method) : Except Fault String := do
  let descriptor ← h.methodDescriptor (m.parameters.map Parameter.ty) m.result
  let body ← Scope.assemble ⟨h, m⟩
  return s!".method{modifiers m.access m.isStatic m.isFinal} {m.name}{descriptor}\n" ++
    s!"    .limit stack {body.maxDepth}\n" ++
    s!"    .limit locals {body.localsLimit}\n" ++
    body.text ++ ".end method\n"

def Field.listing (h : ClassHeader) (f : Field) : Except Fault String := do
  let descriptor ← h.descriptor f.ty
  let initial := match f.initial with
    | some value => s!" = {value.toInt}"
    | none => ""
  return s!".field{modifiers f.access f.isStatic f.isFinal} '{f.name}' {descriptor}{initial}\n"

def ClassHeader.constructorListing (h : ClassHeader) : String :=
  ".method public <init>()V\n    aload_0\n" ++
    s!"    invokespecial {h.superName}/<init>()V\n" ++
    "    return\n.end method\n"

def lineCount (text : String) : Nat := text.toList.count '\n'

namespace ClassUnit

def methodListings (h : ClassHeader) : List Method → EventLog × Except Fault String
  | [] => ([], .ok "")
  | m :: rest =>
    match m.listing h with
    | .error fault => ([], .error fault)
    | .ok text =>
      let emitted := (Event.of .codeEmitted).inMethod m.name
        |>.saying s!"emitted {lineCount text} lines for '{m.name}'"
      let (events, others) := methodListings h rest
      (emitted :: events, others.map fun others => "\n" ++ text ++ others)

def prologue (u : ClassUnit) : Except Fault String := do
  let fields ← u.fields.mapM fun f => f.listing u.toClassHeader
  return s!".class public {u.ownName}\n.super {u.superName}\n\n" ++ String.join fields ++
    (if fields.isEmpty then "" else "\n") ++ u.constructorListing

def listing (u : ClassUnit) : EventLog × Except Fault String :=
  match u.prologue with
  | .error fault => ([], .error fault)
  | .ok prologue =>
    let (events, methods) := methodListings u.toClassHeader u.compiled
    (events, methods.map fun methods => prologue ++ methods)

end ClassUnit

end ClassLowering

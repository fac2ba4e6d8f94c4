/-
# LexLang.Loader.Scope — what a name denotes

A scope gives the declarations of a program and the meaning of its aliases; a name that no binder around
it has is read in the scope: as the program's own declaration, else through an alias. A file has such a
scope, and the merged program has one, of the same kind: there every alias is one of a module that was
kept, and a declaration is what it was in its file.

Values with a capital are constructors, which no scope has a say in.
-/
import LexLang.Loader.Load

namespace LexLang.Loader

open LexLang.Syntax
open LexLang.Ast (isConstructorName unqualified)

/-- A declaration: its file and its name there. -/
abbrev Origin := Canonical × String

/-- What an alias stands for: a file with its declarations, or a module outside the program. -/
inductive Via
  | file (file : Canonical) (declares : List String)
  | module (reference : String)
  deriving DecidableEq

structure Scope where
  decl : String → Option Origin
  via : String → Option Via

/-- What an occurrence denotes. -/
inductive Target
  | bound (index : Nat)
  | typeParam (index : Nat)
  | decl (origin : Origin)
  | member (reference name : String)
  | module (reference : String)
  | constructor
  | nothing
  deriving DecidableEq

def capital (name : String) : Bool := isConstructorName (unqualified name)

/-- A name of what an alias stands for. -/
def Via.read (name : String) : Via → Target
  | .module reference => .member reference name
  | .file c declares => if name ∈ declares then .decl (c, name) else .nothing

namespace Scope

variable (S : Scope)

/-- A declared value. -/
def valueDecl (name : String) : Option Origin := if capital name then none else S.decl name

def readValue (name : String) : Target :=
  if capital name then .constructor
  else
    match S.decl name with
    | some origin => .decl origin
    | none =>
      match S.via name with
      | some (.module reference) => .module reference
      -- the alias of a file is no value
      | _ => .nothing

def readMember (head field : String) : Target :=
  match S.valueDecl head with
  | some origin => .decl origin
  | none =>
    match S.via head with
    | some (.module reference) => .member reference field
    | some (.file c declares) => if capital field then .constructor else (Via.file c declares).read field
    | none => if capital head then .constructor else .nothing

def readType (name : String) : Target :=
  match S.decl name with
  | some origin => .decl origin
  | none =>
    match splitOnce '.' name with
    | some (head, rest) => (S.via head).elim .nothing (Via.read rest)
    | none => .nothing

/-- **What an occurrence denotes**: the innermost binder of the name, else what the scope says. -/
def resolve (o : Occurrence) : Target :=
  match o.reference with
  | .value name => (o.site.binder name).elim (S.readValue name) .bound
  | .member head field _ => (o.site.binder head).elim (S.readMember head field) .bound
  | .type name => (o.site.typeParam name).elim (S.readType name) .typeParam

end Scope

/-! ## Two scopes -/

section

variable (disk : Disk) (inlinePackages : Bool)

/-- The file an import brings into the program, if it brings one. -/
def importedFile (c : Canonical) (i : Import) : Option Canonical :=
  if isPathImport i.reference then (disk.resolveImport c i.reference).toOption
  else
    match (if inlinePackages then splitPackageImport i.reference else none) with
    | some (pkg, module) => (disk.resolvePackageImport c pkg module).toOption
    | none => none

def namesOf (c : Canonical) : List String :=
  match disk.parse c with
  | .ok source => declaredNames source.program
  | .error _ => []

/-- What an import gives to the file it stands in. -/
def viaOf (c : Canonical) (i : Import) : Via :=
  match importedFile disk inlinePackages c i with
  | some g => .file g (namesOf disk g)
  | none => .module i.reference

/-- The last import under an alias. -/
def importUnder (imports : List Import) (name : String) : Option Import :=
  imports.reverse.find? fun i => i.importAlias = name

/-- **The scope of one file**: what it declares, and its own imports. -/
def fileScope (c : Canonical) (p : Program) : Scope where
  decl name := if name ∈ declaredNames p then some (c, name) else none
  via name := (importUnder (p.items.filterMap asImport) name).map (viaOf disk inlinePackages c)

end

/-- The declaration a merged item was made from. -/
def Merged.origin (e : Merged) : Option Origin := (declaredName e.source).map fun name => (e.file, name)

/-- **The scope of a merged program.** -/
def mergedScope (merged : List Merged) : Scope where
  decl name := (merged.find? fun e => declaredName e.item = some name).bind Merged.origin
  via name := (importUnder (merged.filterMap fun e => asImport e.item) name).map fun i => .module i.reference

end LexLang.Loader

import Covenant.Schema.Types

/-!
Catalogs of types.

A catalog holds model files and the types resolved from them. Files may be added in
any order as long as every reference can be resolved at once; a file whose references
cannot be resolved is taken out again.
-/

namespace Covenant

/-- Model files in order of addition, and their types. -/
structure Catalog where
  files : List SourceFile := []
  types : Table SchemaType := []
deriving Repr, Inhabited

namespace Catalog

/-! ### Adding files -/

def readModel (v : Value) (file : Option String) : Outcome ModelFile := do
  let v ← match v with
    | .text s =>
      match Json.read s with
      | .ok v => pure v
      | .error f =>
        .error { cause := if f.issue = .longNumeral then .undefined else .model (.notJson f.issue)
                 file }
    | v => pure v
  match ModelFile.read v with
  | .ok m => return m
  | .error found => .error { cause := .model (.misfits found), file }

/-- Whether there is a file for a namespace. -/
def hasFile (c : Catalog) (ns : String) : Bool :=
  c.files.any fun f => f.model.ns == ns

/-- Whether a fault is one that the catalog reports. -/
def isModelFault (f : Fault) : Bool :=
  f.cause.kind? == some .model

def refresh (c : Catalog) : Outcome Catalog :=
  (resolve c.files).map fun types => { c with types }

/-- Adds a model file and resolves all types. When a reference cannot be resolved, the
file is taken out and the types are resolved without it. -/
def insert (c : Catalog) (m : ModelFile) (file : Option String) : Outcome Unit × Catalog :=
  if c.hasFile m.ns then
    (.error { cause := .model (if SystemModel.isNamespace m.ns then .reserved m.ns
                               else .duplicate m.ns), file }, c)
  else
    let grown : Catalog := { c with files := c.files ++ [⟨m, file⟩] }
    match grown.refresh with
    | .ok c => (.ok (), c)
    | .error f =>
      if isModelFault f then
        match c.refresh with
        | .ok c => (.error f, c)
        | .error f => (.error f, c)
      else (.error f, grown)

/-- Adds a model file given as a value or as JSON text. -/
def add (c : Catalog) (v : Value) (file : Option String := none) : Outcome ModelFile × Catalog :=
  match readModel v file with
  | .error f => (.error f, c)
  | .ok m =>
    match c.insert m file with
    | (.ok (), c) => (.ok m, c)
    | (.error f, c) => (.error f, c)

def system : Catalog :=
  let c : Catalog := { files := SystemModel.files.map fun m => ⟨m, none⟩ }
  match c.refresh with
  | .ok c => c
  | .error _ => c

/-- The system types with the types of several files, or the first fault. -/
def ofModels (models : List Value) : Outcome Catalog :=
  models.foldlM (fun c v =>
    match c.add v with
    | (.ok _, c) => .ok c
    | (.error f, _) => .error f) system

/-! ### Looking up -/

/-- The namespaces of the files that are not system files. -/
def namespaces (c : Catalog) : List String :=
  (c.files.map fun f => f.model.ns).filter fun ns => !SystemModel.isNamespace ns

def file (c : Catalog) (ns : String) : Outcome ModelFile :=
  match c.files.find? fun f => f.model.ns == ns with
  | some f => .ok f.model
  | none => .fail (.model (.unknownNamespace ns))

/-- Whether there is a type of this name. -/
def has (c : Catalog) (fqn : String) : Bool :=
  c.types.has fqn

def get (c : Catalog) (fqn : String) : Outcome SchemaType :=
  match c.types.find? fqn with
  | some d => .ok d
  | none => .fail (.model (.unknownType fqn))

/-- A type and its supertypes, nearest first. -/
def chain (c : Catalog) (fqn : String) : Outcome (List String) :=
  Resolve.chain c.types fqn

/-- Whether a type is another or has it among its supertypes. -/
def isSubtype (c : Catalog) (fqn base : String) : Outcome Bool :=
  (c.chain fqn).map (·.contains base)

/-- The types below `base` that are not abstract. -/
def concreteSubtypes (c : Catalog) (base : String) : Outcome (List SchemaType) := do
  let _ ← c.get base
  c.types.values.filterM fun d =>
    if d.fqn = base ∨ d.abstract then pure false else c.isSubtype d.fqn base

/-- The only concrete type that models templates of a kind. -/
def templateType (c : Catalog) (kind : TemplateKind) : Outcome SchemaType := do
  match ← c.concreteSubtypes kind.baseType with
  | [] => .fail (.model (.noTemplateType kind.baseType))
  | [d] => return d
  | ds => .fail (.model (.manyTemplateTypes kind.baseType (ds.map (·.fqn))))

/-- The types found from the names in `pending` by following `next`, in order of
discovery after those in `seen`. -/
def explore (c : Catalog) (next : SchemaType → Outcome (List String)) :
    Nat → List SchemaType → List String → Outcome (List SchemaType)
  | 0, seen, _ => .ok seen
  | _ + 1, seen, [] => .ok seen
  | fuel + 1, seen, fqn :: pending =>
    if seen.any fun d => d.fqn == fqn then c.explore next fuel seen pending
    else do
      let d ← c.get fqn
      let found ← next d
      c.explore next fuel (seen ++ [d]) (pending ++ found)

/-- Steps that are enough to explore all types: each type is expanded once, and then
leads to at most its properties and all other types. -/
def exploreSteps (c : Catalog) : Nat :=
  c.types.foldr (fun e n => e.2.properties.length + c.types.length + 1 + n) 1

/-- A type and the types that its properties lead to. -/
def reachable (c : Catalog) (fqn : String) : Outcome (List SchemaType) :=
  c.explore (fun d => .ok d.targets) c.exploreSteps [] [fqn]

end Catalog

end Covenant

import Sigil.FileType
import Sigil.Pool.Build
import Sigil.Pool.Canonical
import Sigil.Pool.Lifetime
import Sigil.Subject
import Sigil.Tree.SelfCheck

namespace Sigil

/-- Names a file type of a registry. Identifiers count up from zero and are never reused. -/
structure FileTypeId where
  index : Nat
deriving DecidableEq

structure Registry where
  pool : Pool := {}
  /-- The registered types, oldest first. -/
  types : List (FileTypeId × FileType) := []
  /-- Types are taken to be registered fewer than `2 ^ 32` times. -/
  nextId : Nat := 0
  config : Config := {}

/-- A change of a registry that may fail. What was done before a failure stays done. -/
abbrev Registering := EStateM PatternError Registry

/-- One of the two patterns of a file type. -/
inductive Slot where
  | name
  | content
deriving DecidableEq

namespace FileType

def pattern? (t : FileType) : Slot → Option PatternId
  | .name => t.namePattern
  | .content => t.contentPattern

def setPattern (t : FileType) (id : PatternId) : Slot → FileType
  | .name => { t with namePattern := some id }
  | .content => { t with contentPattern := some id }

end FileType

namespace Registry

/-- An empty registry, whose pool lets repetitions grow as configured. -/
def ofConfig (config : Config) : Registry :=
  { pool := { growthBits := config.selfCheck.growthBits }, config := config }

def ofDigest {δ : Type} [DecidableEq δ] (digest : Shape → δ) (config : Config) : Registry :=
  { pool := { Pool.ofDigest digest with growthBits := config.selfCheck.growthBits },
    config := config }

def get? (r : Registry) (id : FileTypeId) : Option FileType := r.types.lookup id

def find? (r : Registry) (name : String) : Option FileTypeId :=
  (r.types.find? (·.2.name == name)).map (·.1)

def onPool {α : Type} (edit : Edit α) : Registering α := fun r =>
  match edit r.pool with
  | .ok a pool => .ok a { r with pool := pool }
  | .error e pool => .error e { r with pool := pool }

/-! ## Registration -/

/-- A pattern for names as a context of a domain of names, by default that of file names. -/
def nameContext (id : PatternId) : Edit PatternId := do
  match (← Edit.node id).kind with
  | .ctx domain _ => if domain.IsName then return id else Edit.ctx .fileName id
  | _ => Edit.ctx .fileName id

/-- Makes a pattern the context that its slot asks for, and holds it. -/
def adopt (slot : Slot) (id : PatternId) : Edit PatternId := do
  let context ← match slot with
    | .name => nameContext id
    | .content => Edit.ctx .fileContents id
  Edit.retain context
  return context

/-- Registers a type. Nothing is held unless all its patterns are live. -/
def register (t : FileType) : Registering FileTypeId := do
  for id in t.patterns do
    let _ ← onPool (Edit.node id)
  let name ← t.namePattern.mapM fun id => onPool (adopt .name id)
  let content ← t.contentPattern.mapM fun id => onPool (adopt .content id)
  modifyGet fun r =>
    let id : FileTypeId := ⟨r.nextId⟩
    let adopted := { t with namePattern := name, contentPattern := content }
    (id, { r with types := r.types ++ [(id, adopted)], nextId := r.nextId + 1 })

/-- Removes a type, if it is registered, and lets go of its patterns. -/
def unregister (id : FileTypeId) : Registering (Option FileType) := do
  match (← get).get? id with
  | none => return none
  | some t =>
    modify fun r => { r with types := r.types.filter (·.1 ≠ id) }
    for pattern in t.patterns do
      onPool (Edit.release pattern)
    return some t

/-- Replaces one pattern of a type with its canonical pattern. Answers how many patterns changed. -/
def canonicalizeSlot (id : FileTypeId) (slot : Slot) : Registering Nat := do
  match (← get).get? id >>= (·.pattern? slot) with
  | none => return 0
  | some pattern =>
    let canonical ← onPool (Edit.canonicalize pattern)
    if canonical = pattern then return 0
    onPool (Edit.retain canonical)
    onPool (Edit.release pattern)
    modify fun r =>
      { r with types := r.types.map fun entry =>
          if entry.1 = id then (id, entry.2.setPattern canonical slot) else entry }
    return 1

/-- Replaces the patterns of all types with their canonical patterns. Answers how many changed. -/
def canonicalizeAll : Registering Nat := do
  let mut changed := 0
  for (id, _) in (← get).types do
    for slot in [Slot.name, Slot.content] do
      changed := changed + (← canonicalizeSlot id slot)
  return changed

/-! ## Recognition -/

/-- The name pattern of a type matches the part of the path that it describes. -/
def nameMatches (r : Registry) (t : FileType) (subject : Subject) : Bool :=
  match t.namePattern with
  | none => false
  | some id =>
    let domain := match (r.pool.get? id).map (·.kind) with
      | some (.ctx domain _) => domain
      | _ => .fileName
    (subject.nameIn domain).any fun name =>
      (r.pool.matchIn id name.toArray .full .search).isSome

/-- The content pattern of a type matches within a region of the contents. -/
def contentsMatch (r : Registry) (t : FileType) (subject : Subject) (region : BitRange) :
    Except ContentError Bool :=
  let mode := r.config.content.mode
  match t.contentPattern, subject.contents with
  | none, _ | _, .unknown => .ok false
  | some id, .bytes data => .ok (r.pool.matchIn id data region mode).isSome
  | some id, .file file size =>
    (·.isSome) <$> r.pool.matchFile id file size region mode r.config.content pageSize

/-- The subject is of a type, by the policy of the type or another one. The contents are not looked
at where the name decides. -/
def typeMatches (r : Registry) (t : FileType) (subject : Subject) (region : BitRange)
    (policy : Option Policy) : Except ContentError Bool :=
  match policy.getD t.policy with
  | .name => .ok (r.nameMatches t subject)
  | .contents => r.contentsMatch t subject region
  | .both => if r.nameMatches t subject then r.contentsMatch t subject region else .ok false
  | .either => if r.nameMatches t subject then .ok true else r.contentsMatch t subject region

def isOf (r : Registry) (id : FileTypeId) (subject : Subject) (region : BitRange)
    (policy : Option Policy) : Except ContentError Bool :=
  match r.get? id with
  | none => .ok false
  | some t => r.typeMatches t subject region policy

/-- The first of some types that the subject is of. Contents that cannot be had end the search. -/
def firstOf (r : Registry) (subject : Subject) (region : BitRange) (policy : Option Policy) :
    List (FileTypeId × FileType) → Except ContentError (Option FileTypeId)
  | [] => .ok none
  | (id, t) :: rest =>
    match r.typeMatches t subject region policy with
    | .error e => .error e
    | .ok true => .ok (some id)
    | .ok false => r.firstOf subject region policy rest

def typeOf (r : Registry) (subject : Subject) (region : BitRange) (policy : Option Policy) :
    Except ContentError (Option FileTypeId) :=
  r.firstOf subject region policy r.types

/-- Checks patterns one after the other, and ends at the first that fails. -/
def checkAll {σ : Type} [RandomSource σ] (p : Pool) (instances : Nat) :
    List PatternId → StateM σ (Except SelfCheckError Unit)
  | [] => return .ok ()
  | id :: rest => do
    match ← p.selfCheck id instances with
    | .error e => return .error e
    | .ok () => checkAll p instances rest

/-- Checks all patterns of all types, as configured. `ofSeed` makes the generator. -/
def selfCheck {σ : Type} [RandomSource σ] (r : Registry) (ofSeed : Nat → σ) :
    Except SelfCheckError Unit :=
  let ids := r.types.flatMap (·.2.patterns)
  ((checkAll r.pool r.config.selfCheck.instances ids).run (ofSeed r.config.selfCheck.seed)).1

end Registry

end Sigil

import SourceFront.Grammar.Statement
import SourceFront.Tree.Module

/-!
The rules for what a module declares. A rule named for a keyword begins with it,
and is used only where that keyword comes next.
-/

namespace SourceFront.Rule

/-- A name with its type: a parameter or a field. -/
def typedName (level : Level) : Rule (TypedName Span) := do
  let name ← name
  let _ ← expect .colon
  let type ← level.typeExpr
  return ⟨name, type, name.note.merge type.note⟩

/-- Parameters and result, behind the name of a function. -/
def prototype (level : Level) (name : Name Span) : Rule (Prototype Span) := do
  let _ ← expect .leftParen
  let (params, variadic) ← paramList (typedName level)
  let _ ← expect .rightParen
  let result ← resultType level
  return ⟨name, params, variadic, result, ← spanFrom name.note⟩

/-- A function with its body. -/
def function (level : Level) : Rule (FunctionDef Span) := do
  let start := (← advance).span
  let name ← name
  let proto ← prototype level name
  let body ← level.block
  return ⟨proto, body, start.merge body.note⟩

/-- A struct or a union; both are written alike. -/
def recordDef (level : Level) : Rule (RecordDef Span) := do
  let start := (← advance).span
  let name ← name
  let _ ← expect .leftBrace
  let fields ← commaList .rightBrace (typedName level)
  let _ ← expect .rightBrace
  return ⟨name, fields, ← spanFrom start⟩

/-- A name in an `enum`, with its value if one is given. -/
def variant (level : Level) : Rule (Variant Span) := do
  let name ← name
  let value ← do
    if ← take? (.symbol .assign) then pure (some (← level.freeExpr))
    else pure none
  return ⟨name, value, ← spanFrom name.note⟩

/-- An `enum` with its variants. -/
def enumDef (level : Level) : Rule (EnumDef Span) := do
  let start := (← advance).span
  let name ← name
  let _ ← expect .leftBrace
  let variants ← commaList .rightBrace (variant level)
  let _ ← expect .rightBrace
  return ⟨name, variants, ← spanFrom start⟩

/-- A function or a variable that is defined elsewhere. The semicolon may be left
out. -/
def external (level : Level) : Rule (Definition Span) := do
  let start := (← advance).span
  let marked ← take? (.keyword .fn)
  let name ← name
  let definition ← do
    if marked || (← isAt (.symbol .leftParen)) then
      pure (.externalFunction (← prototype level name))
    else if ← take? (.symbol .colon) then
      let type ← level.typeExpr
      pure (.externalVariable ⟨name, type, ← spanFrom start⟩)
    else failExpecting "`(` or `:`"
  let _ ← take? (.symbol .semicolon)
  return definition

/-- An import without the semicolon behind it. -/
def import_ : Rule (Import Span) := do
  let start := (← advance).span
  let token ← current
  match token.kind with
  | .string path =>
      let _ ← advance
      return ⟨path, start.merge token.span⟩
  | _ => failExpecting "module path string"

/-- A constant. Only one without a type can stand for another module. -/
def constantDef (level : Level) : Rule (ConstantDef Span) := do
  let start := (← advance).span
  let name ← name
  let type ← typeAnnotation? level
  let _ ← expect .assign
  let value ← do
    if type.isNone && (← isAt (.keyword .import_)) then
      pure (.import_ (← import_))
    else pure (.expr type (← level.freeExpr))
  let _ ← expect .semicolon
  return ⟨name, value, ← spanFrom start⟩

/-- What an item defines, by the keyword that it begins with. -/
def definition (level : Level) : Rule (Definition Span) := do
  match (← current).kind with
  | .keyword .fn => return .function (← function level)
  | .keyword .struct => return .struct (← recordDef level)
  | .keyword .union => return .union (← recordDef level)
  | .keyword .enum => return .enum (← enumDef level)
  | .keyword .external => external level
  | .keyword .const => return .constant (← constantDef level)
  | .keyword .let_ => return .variable_ (← binding level)
  | _ =>
      failExpecting
        "declaration (`fn`, `struct`, `union`, `enum`, `extern`, `const`, `let`)"

/-- A definition, public or not. -/
def declaration (level : Level) : Rule (Declaration Span) := do
  let start := (← current).span
  let isPublic ← take? (.keyword .pub)
  let definition ← definition level
  return ⟨isPublic, definition, ← spanFrom start⟩

/-- An import or a declaration. -/
def item (level : Level) : Rule (Item Span) := do
  if ← isAt (.keyword .import_) then
    let source ← import_
    let _ ← expect .semicolon
    return .import_ ⟨source.path, ← spanFrom source.note⟩
  else return .declaration (← declaration level)

/-- One item of a module behind those that are `read`, if the module goes on. One
that fails is left out. -/
def moduleRound (level : Level) (read : List (Item Span)) :
    Rule (Round (List (Item Span))) := do
  if (← current).isEof then return .last read
  else
    let item ← recover (item level) State.skipItem
    return .more (read ++ item.toList)

/-- The items up to the end. -/
def items (level : Level) : Rule (List (Item Span)) :=
  iterate (moduleRound level) []

theorem items_ne_error (level : Level) (state : State) (problem : Problem)
    (state' : State) : items level state ≠ .error problem state' := by
  refine iterate_ne_error (fun read state problem state' h => ?_) [] state problem state'
  have hget : (get : Rule State) state = .ok state state := rfl
  simp only [moduleRound, current, bind, EStateM.bind, hget, pure, EStateM.pure] at h
  split at h
  · cases h
  · simp only [EStateM.bind, recover] at h
    cases read : item level state <;> rw [read] at h <;> cases h

end SourceFront.Rule

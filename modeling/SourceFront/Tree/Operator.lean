import SourceFront.Token.Basic

/-!
The operators of expressions and how tightly they bind. Postfix operators bind
tightest, then the unary ones; of the rest, casts bind tightest and assignments
least. Assignments group to the right, all others to the left.
-/

namespace SourceFront

/-- The operators between two operands. -/
inductive BinaryOp where
  | path | member | index
  | add | sub | mul | div | mod
  | eq | ne | lt | le | gt | ge
  | and | or
  | assign | addAssign | subAssign | mulAssign | divAssign | modAssign
  deriving DecidableEq, Repr

/-- The operators in front of an operand. -/
inductive UnaryOp where
  | deref | addressOf | neg | not | plus
  deriving DecidableEq, Repr

namespace BinaryOp

/-- Whether the operator assigns to its left operand. -/
def isAssignment : BinaryOp → Bool
  | assign | addAssign | subAssign | mulAssign | divAssign | modAssign => true
  | _ => false

/-- The operator that a symbol denotes between two operands. Postfix operators
stand in no such place. -/
def ofSymbol? : Symbol → Option BinaryOp
  | .plus => some add
  | .minus => some sub
  | .star => some mul
  | .slash => some div
  | .percent => some mod
  | .equal => some eq
  | .notEqual => some ne
  | .less => some lt
  | .lessEqual => some le
  | .greater => some gt
  | .greaterEqual => some ge
  | .andAnd => some and
  | .orOr => some or
  | .assign => some assign
  | .plusAssign => some addAssign
  | .minusAssign => some subAssign
  | .starAssign => some mulAssign
  | .slashAssign => some divAssign
  | .percentAssign => some modAssign
  | _ => none

/-- Larger numbers bind tighter. -/
def precedence : BinaryOp → Nat
  | assign | addAssign | subAssign | mulAssign | divAssign | modAssign => 1
  | or => 2
  | and => 3
  | eq | ne => 4
  | lt | le | gt | ge => 5
  | add | sub => 6
  | mul | div | mod => 7
  | path | member | index => 10

/-- The least precedence of an operator that stands bare on the right. -/
def rightPrecedence (op : BinaryOp) : Nat :=
  if op.isAssignment then op.precedence else op.precedence + 1

end BinaryOp

/-- The operator that a symbol denotes before an operand. -/
def UnaryOp.ofSymbol? : Symbol → Option UnaryOp
  | .star => some .deref
  | .ampersand => some .addressOf
  | .minus => some .neg
  | .bang => some .not
  | .plus => some .plus
  | _ => none

/-- What can follow an operand: a cast, or an operator and another operand. -/
inductive InfixOp where
  | cast
  | binary (op : BinaryOp)
  deriving DecidableEq, Repr

namespace InfixOp

/-- The infix operator that a token stands for. -/
def ofKind? : TokenKind → Option InfixOp
  | .keyword .as_ => some cast
  | .symbol s => (BinaryOp.ofSymbol? s).map binary
  | _ => none

/-- How tightly the operator binds; greater binds tighter. -/
def precedence : InfixOp → Nat
  | cast => 8
  | binary op => op.precedence

end InfixOp

/-- How tightly a token binds the operands around it, if it stands between such. -/
def TokenKind.precedence? (kind : TokenKind) : Option Nat :=
  (InfixOp.ofKind? kind).map InfixOp.precedence

end SourceFront

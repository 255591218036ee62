/-!
# Categories and implicit conversions

A category is the coarse part of a type: it says "a member", but not of which hierarchy. Where a
function wants another category than an argument has, an implicit conversion may bridge the two;
its cost decides between overloads, the cheapest of which is taken.
-/

set_option autoImplicit false

namespace Olap

/-- The category of an expression. -/
inductive Category where
  /-- Any scalar. -/
  | value
  | logical
  | numeric
  /-- A whole number, which is a narrower kind of number. -/
  | integer
  | string
  /-- A reserved word that stands as an argument. -/
  | symbol
  /-- The null literal. -/
  | null
  | member
  | tuple
  | set
  | level
  | hierarchy
  | dimension
  /-- No value. -/
  | empty
  deriving DecidableEq, Repr

namespace Category

/-- All categories. -/
def all : List Category :=
  [value, logical, numeric, integer, string, symbol, null, member, tuple, set, level, hierarchy,
    dimension, empty]

/-- The name of the category in signatures and messages. -/
def name : Category → String
  | value => "Value"
  | logical => "Logical"
  | numeric => "Numeric"
  | integer => "Integer"
  | string => "String"
  | symbol => "Symbol"
  | null => "Null"
  | member => "Member"
  | tuple => "Tuple"
  | set => "Set"
  | level => "Level"
  | hierarchy => "Hierarchy"
  | dimension => "Dimension"
  | empty => "Empty"

def isScalar : Category → Bool
  | value | logical | numeric | integer | string | null => true
  | _ => false

def isNumeric : Category → Bool
  | numeric | integer => true
  | _ => false

/-- Whether values of the category are made of catalog objects. -/
def isDimensional : Category → Bool
  | member | tuple | set | level | hierarchy | dimension => true
  | _ => false

end Category

/-- What an implicit conversion does to its operand. -/
inductive ConversionKind where
  | identity
  /-- A whole number becomes a number. -/
  | numericPromotion
  /-- A truth value is read as a number, or a number is tested for truth. -/
  | logicalNumeric
  /-- The null literal is taken as a scalar. -/
  | nullToScalar
  /-- A scalar is taken as an untyped value. -/
  | scalarToValue
  /-- An untyped value is read as a scalar when it is known. -/
  | valueToScalar
  /-- A member or tuple stands for the value of its cell. -/
  | cellValue
  /-- A member becomes a tuple of one column. -/
  | memberToTuple
  /-- A member or tuple becomes a set of one element. -/
  | toSet
  /-- A hierarchy or dimension stands for its current member. -/
  | currentMember
  /-- A dimension stands for its only hierarchy. -/
  | dimensionToHierarchy
  /-- A level stands for its hierarchy. -/
  | levelToHierarchy
  | notConvertible
  deriving DecidableEq, Repr

namespace ConversionKind

/-- All kinds of conversion. -/
def all : List ConversionKind :=
  [identity, numericPromotion, logicalNumeric, nullToScalar, scalarToValue, valueToScalar, cellValue,
    memberToTuple, toSet, currentMember, dimensionToHierarchy, levelToHierarchy, notConvertible]

/-- The name under which a kind of conversion is reported. -/
def name : ConversionKind → String
  | identity => "Identity"
  | numericPromotion => "NumericPromotion"
  | logicalNumeric => "LogicalNumeric"
  | nullToScalar => "NullToScalar"
  | scalarToValue => "ScalarToValue"
  | valueToScalar => "ValueToScalar"
  | cellValue => "CellValue"
  | memberToTuple => "MemberToTuple"
  | toSet => "ToSet"
  | currentMember => "CurrentMember"
  | dimensionToHierarchy => "DimensionToHierarchy"
  | levelToHierarchy => "LevelToHierarchy"
  | notConvertible => "NotConvertible"

end ConversionKind

namespace Category

/-- The conversion from one category to another. -/
def conversionTo (source target : Category) : ConversionKind :=
  if source = target then .identity
  else match source, target with
    | integer, numeric => .numericPromotion
    | logical, numeric | numeric, logical | integer, logical => .logicalNumeric
    | null, t =>
      if t.isScalar then .nullToScalar else .notConvertible
    | value, numeric | value, integer | value, string | value, logical => .valueToScalar
    | member, numeric | member, string | member, logical | member, value => .cellValue
    | tuple, numeric | tuple, string | tuple, logical | tuple, value => .cellValue
    | member, tuple => .memberToTuple
    | member, set | tuple, set => .toSet
    | hierarchy, member | dimension, member => .currentMember
    | dimension, hierarchy => .dimensionToHierarchy
    | level, hierarchy => .levelToHierarchy
    | s, value => if s.isScalar then .scalarToValue else .notConvertible
    | _, _ => .notConvertible

def convertsTo (source target : Category) : Bool :=
  source.conversionTo target != .notConvertible

/-- The cost of the conversion from one category to another, if there is one. -/
def conversionCost? (source target : Category) : Option Nat :=
  match source.conversionTo target with
  | .identity => some 0
  | .numericPromotion => some 1
  | .logicalNumeric => some 2
  | .nullToScalar => some 1
  | .scalarToValue => some 1
  | .valueToScalar => some (if target = numeric then 2 else 3)
  | .cellValue => some (if target = numeric ∨ target = value then 1 else 2)
  | .memberToTuple => some 1
  | .toSet => some 2
  | .currentMember => some (if source = hierarchy then 1 else 3)
  | .dimensionToHierarchy => some 2
  | .levelToHierarchy => some 2
  | .notConvertible => none

/-- What is said where a conversion is wanted that does not exist. -/
def noConversionMessage (source target : Category) : String :=
  s!"Cannot implicitly convert from {source.name} to {target.name}"

end Category

end Olap

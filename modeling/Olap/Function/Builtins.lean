import Olap.Function.Navigation
import Olap.Function.Sorting
import Olap.Function.Table

/-!
# Built-in functions
-/

set_option autoImplicit false

namespace Olap.Builtins

/-- Overloads of one name and form, each given by its result and its parameters. -/
def overloads (name description : String) (form : CallForm)
    (shapes : List (Category × List Category)) (body : FunctionBody)
    (resultRule : ResultRule := .declared) (reserved : List String := []) : Resolver :=
  .fixed ⟨name, description, form, shapes.map fun (result, parameters) =>
    ⟨name, form, result, parameters⟩, reserved, resultRule, body⟩

/-- The overloads of a binary operator on numbers. -/
def onNumbers : List (Category × List Category) :=
  [(.numeric, [.numeric, .numeric]), (.integer, [.integer, .integer])]

def onNumbersOrStrings : List (Category × List Category) :=
  [(.logical, [.numeric, .numeric]), (.logical, [.string, .string])]

def onLogicals : List (Category × List Category) := [(.logical, [.logical, .logical])]

/-- The overloads of an aggregate: over cells, or over an expression. -/
def overSets : List (Category × List Category) :=
  [(.numeric, [.set]), (.numeric, [.set, .numeric])]

def operators : List Resolver :=
  [overloads "+" "Adds two numbers." .infixOp onNumbers (.arithmetic .add),
    overloads "-" "Subtracts two numbers." .infixOp onNumbers (.arithmetic .subtract),
    overloads "*" "Multiplies two numbers." .infixOp onNumbers (.arithmetic .multiply),
    overloads "/" "Divides two numbers." .infixOp onNumbers (.arithmetic .divide),
    overloads "-" "Returns the negative of a number." .prefixOp
      [(.numeric, [.numeric]), (.integer, [.integer])] .negate,
    overloads "<" "Returns whether an expression is less than another." .infixOp
      onNumbersOrStrings (.compare .lt),
    overloads "<=" "Returns whether an expression is less than or equal to another." .infixOp
      onNumbersOrStrings (.compare .le),
    overloads ">" "Returns whether an expression is greater than another." .infixOp
      onNumbersOrStrings (.compare .gt),
    overloads ">=" "Returns whether an expression is greater than or equal to another." .infixOp
      onNumbersOrStrings (.compare .ge),
    overloads "=" "Returns whether two expressions are equal." .infixOp
      onNumbersOrStrings (.compare .eq),
    overloads "<>" "Returns whether two expressions are not equal." .infixOp
      onNumbersOrStrings (.compare .ne)]

def logic : List Resolver :=
  [overloads "AND" "Returns the conjunction of two conditions." .infixOp onLogicals .conjunction,
    overloads "OR" "Returns the disjunction of two conditions." .infixOp onLogicals .disjunction,
    overloads "NOT" "Returns the negation of a condition." .prefixOp [(.logical, [.logical])]
      .negation,
    overloads "IIf" "Returns one of two values, depending on a condition." .function
      ([.numeric, .string, .logical, .member, .set].map fun c => (c, [.logical, c, c]))
      .choice .branches]

def navigation : List Resolver :=
  [overloads "CurrentMember" "Returns the current member along a hierarchy." .property
      [(.member, [.hierarchy])] .currentMember,
    overloads "Members" "Returns the set of members in a hierarchy or level." .property
      [(.set, [.hierarchy]), (.set, [.level])] .members,
    overloads "Children" "Returns the children of a member." .property [(.set, [.member])]
      .children,
    overloads "Parent" "Returns the parent of a member." .property [(.member, [.member])] .parent,
    overloads "Descendants"
      "Returns the set of descendants of a member at a specified level or distance." .function
      [(.set, [.member]), (.set, [.member, .level]), (.set, [.member, .level, .symbol]),
        (.set, [.member, .integer]), (.set, [.member, .integer, .symbol])]
      .descendants .declared (DescendantsFlag.all.map DescendantsFlag.word),
    overloads "DrilldownMember"
      "Drills down the members in a set that are present in a second set." .function
      [(.set, [.set, .set]), (.set, [.set, .set, .symbol])]
      .drilldownMember .declared ["RECURSIVE"]]

def sets : List Resolver :=
  [overloads "CrossJoin" "Returns the cross product of two sets." .function
      [(.set, [.set, .set])] .crossJoin .joined,
    overloads "*" "Returns the cross product of two sets." .infixOp
      [(.set, [.set, .set])] .crossJoin .joined,
    overloads "Filter"
      "Returns the set resulting from filtering a set based on a search condition." .function
      [(.set, [.set, .logical])] .filter,
    overloads "NonEmpty"
      ("Returns the tuples of a set that have a non-empty cell, "
        ++ "optionally crossed with a second set.") .function
      [(.set, [.set]), (.set, [.set, .set])] .nonEmpty,
    overloads "Head" "Returns the first specified number of elements in a set." .function
      [(.set, [.set]), (.set, [.set, .integer])] .head,
    overloads "Count"
      ("Returns the number of tuples in a set, "
        ++ "empty cells included unless EXCLUDEEMPTY is specified.") .function
      [(.integer, [.set]), (.integer, [.set, .symbol])]
      .count .declared ["EXCLUDEEMPTY", "INCLUDEEMPTY"],
    overloads "Order"
      "Arranges members of a set, optionally preserving or breaking the hierarchy." .function
      [(.set, [.set, .numeric]), (.set, [.set, .numeric, .symbol]), (.set, [.set, .string]),
        (.set, [.set, .string, .symbol])]
      .order .declared (SortMode.words.map Prod.fst),
    .variadic ⟨"\x7b\x7d", "Brace operator constructs a set.", .braces, .set,
      VariadicRule.elements.matches?, .elements, .set⟩,
    .variadic ⟨"()", "Parenthesis operator constructs a tuple, or groups an expression.",
      .parentheses, .tuple, VariadicRule.columns.matches?, .columns, .tuple⟩]

def aggregates : List Resolver :=
  [overloads "Sum" "Returns the sum of a numeric expression evaluated over a set." .function
      overSets (.aggregate .sum),
    overloads "Avg" "Returns the average value of a numeric expression evaluated over a set."
      .function overSets (.aggregate .avg),
    overloads "Median" "Returns the median value of a numeric expression evaluated over a set."
      .function overSets (.aggregate .median)]

def others : List Resolver :=
  [overloads "Cache" "Evaluates and returns its sole argument, applying statement-level caching."
      .function [(.value, [.value]), (.set, [.set])] .cache .first,
    overloads "Value" "Returns the value of the current cell of a member or tuple." .property
      [(.value, [.member]), (.value, [.tuple])] .value]

end Olap.Builtins

namespace Olap

/-- The table of all built-in functions. -/
def FunctionTable.builtin : FunctionTable :=
  ⟨Builtins.operators ++ Builtins.logic ++ Builtins.navigation ++ Builtins.sets
    ++ Builtins.aggregates ++ Builtins.others⟩

end Olap

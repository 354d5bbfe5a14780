import RuleEditor.Catalogue.Basic
import RuleEditor.Data.Schema

/-!
# Reading catalogues

The schema of a catalogue as the rule service serves it. Unknown members are ignored, and a member
may also come under its name in lower case with underscores.
-/
namespace RuleEditor

open Schema

def ComparisonOperator.read : Reader ComparisonOperator := fun v => do
  let ms ← members v
  return {
    label := ← option ["label"] text ms
    cardinality := ← option ["cardinality"] whole ms
    defaultCardinality := ← option ["defaultCardinality", "default_cardinality"] whole ms
    minCardinality := ← option ["minCardinality", "min_cardinality"] whole ms
    maxCardinality := ← option ["maxCardinality", "max_cardinality"] whole ms
    separator := ← option ["separator"] text ms }

def ChainOperator.read : Reader ChainOperator := fun v => do
  let ms ← members v
  return {
    symbol := ← required ["symbol"] text ms
    label := ← option ["label"] text ms
    numeric := ← defaulted ["numeric"] false truth ms }

def TypeEntry.read : Reader TypeEntry := fun v => do
  let ms ← members v
  return {
    comparison := ← option ["defaultConditionOperator", "default_condition_operator"] text ms
    joining := ← option ["defaultExpressionOperator", "default_expression_operator"] text ms
    validComparisons :=
      ← defaulted ["validConditionOperators", "valid_condition_operators"] [] (list text) ms }

def Parameter.read : Reader Parameter := fun v => do
  let ms ← members v
  return {
    name := ← required ["name"] text ms
    type := ← option ["type"] text ms
    label := ← option ["label"] text ms
    widget := ← option ["widget"] text ms
    options := ← option ["optionsRef", "options_ref"] text ms }

def FunctionEntry.read : Reader FunctionEntry := fun v => do
  let ms ← members v
  return {
    type := ← required ["returnType", "return_type"] text ms
    label := ← option ["label"] text ms
    parameters := ← defaulted ["args"] [] (list Parameter.read) ms
    editor := ← option ["customEditor", "custom_editor"] text ms }

namespace Catalogue

/-- The field that new comparisons start with where a catalogue names none. -/
def initialField : String := "TABLE1.NUMBER_FIELD_01"

def read : Reader Catalogue := fun v => do
  let ms ← members v
  return {
    comparisons := ← defaulted ["conditionOperators", "condition_operators"] [] (table ComparisonOperator.read) ms
    joinings := ← defaulted ["expressionOperators", "expression_operators"] [] (table ChainOperator.read) ms
    types := ← defaulted ["types"] [] (table TypeEntry.read) ms
    functions := ← defaulted ["functions"] [] (table FunctionEntry.read) ms
    ruleTypes := ← defaulted ["ruleTypes", "rule_types"] [] (list text) ms
    defaultField := ← defaulted ["defaultField", "default_field"] initialField text ms }

end Catalogue

end RuleEditor

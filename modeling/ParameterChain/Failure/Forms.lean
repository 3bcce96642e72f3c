/-
# Accepted forms

What a value of each kind may look like, as it is told to somebody who wrote one
that does not.  The first line names the kind, and every further line is one
form: the words are what stands at that place of the value.
-/
import ParameterChain.Kind

namespace ParameterChain

/-- The forms that values of a scalar kind may have. -/
def Scalar.scalarForms : Scalar → List String
  | .boolean => [
      "\"True\", \"False\", \"T\" or \"F\"",
      "name_of_boolean_parameter",
      "name_of_boolean_parameter * name_of_boolean_parameter"]
  | .integer => [
      "integer",
      "integer + name_of_integer_parameter",
      "integer - name_of_integer_parameter",
      "integer * name_of_integer_parameter",
      "integer * name_of_unitless_parameter",
      "name_of_integer_parameter",
      "name_of_unitless_parameter",
      "name_of_integer_parameter + integer",
      "name_of_integer_parameter - integer",
      "name_of_integer_parameter * integer",
      "name_of_integer_parameter + name_of_integer_parameter",
      "name_of_integer_parameter - name_of_integer_parameter",
      "name_of_integer_parameter * name_of_integer_parameter",
      "name_of_integer_parameter * name_of_unitless_parameter"]
  | .unitless => [
      "number",
      "number + name_of_unitless_or_integer_parameter",
      "number - name_of_unitless_or_integer_parameter",
      "number * name_of_unitless_or_integer_parameter",
      "name_of_unitless_or_integer_parameter",
      "name_of_unitless_or_integer_parameter + number",
      "name_of_unitless_or_integer_parameter - number",
      "name_of_unitless_or_integer_parameter * number",
      "name_of_unitless_or_integer_parameter + name_of_unitless_or_integer_parameter",
      "name_of_unitless_or_integer_parameter - name_of_unitless_or_integer_parameter",
      "name_of_unitless_or_integer_parameter * name_of_unitless_or_integer_parameter"]
  | .dimensioned => [
      "number unit",
      "number unit + name_of_double_parameter",
      "number unit - name_of_double_parameter",
      "number unit * name_of_unitless_or_integer_parameter",
      "number * name_of_double_parameter unit",
      "name_of_double_parameter unit",
      "name_of_double_parameter unit * number",
      "name_of_double_parameter unit * name_of_unitless_or_integer_parameter",
      "name_of_unitless_or_integer_parameter * number unit",
      "name_of_double_parameter + number unit",
      "name_of_double_parameter - number unit",
      "name_of_double_parameter + name_of_double_parameter unit",
      "name_of_double_parameter - name_of_double_parameter unit"]
  | .text => [
      "\"string\"",
      "\"string\" + name_of_integer_or_string_parameter",
      "name_of_integer_or_string_parameter",
      "name_of_integer_or_string_parameter + \"string\"",
      "name_of_integer_or_string_parameter + name_of_integer_or_string_parameter"]

/-- The forms that values of a vector kind may have. -/
def Scalar.vectorForms : Scalar → List String
  | .boolean => [
      "number_of_values value1 value2 ... valueN",
      "name_of_boolean_vector_parameter"]
  | .integer => [
      "number_of_values value1 value2 ... valueN",
      "number_of_values value1 value2 ... valueN + name_of_integer_or_integer_vector_parameter",
      "number_of_values value1 value2 ... valueN - name_of_integer_or_integer_vector_parameter",
      "number_of_values value1 value2 ... valueN * name_of_integer_or_integer_vector_parameter",
      "integer * name_of_integer_vector_parameter",
      "name_of_integer_vector_parameter",
      "name_of_integer_parameter * name_of_integer_vector_parameter"]
  | .unitless => [
      "number_of_values value1 value2 ... valueN",
      "number_of_values value1 value2 ... valueN + " ++
        "name_of_unitless_or_integer_or_unitless_vector_or_integer_vector_parameter",
      "number_of_values value1 value2 ... valueN - " ++
        "name_of_unitless_or_integer_or_unitless_vector_or_integer_vector_parameter",
      "number_of_values value1 value2 ... valueN * " ++
        "name_of_unitless_or_integer_or_unitless_vector_or_integer_vector_parameter",
      "number * name_of_unitless_vector_parameter",
      "name_of_unitless_vector_parameter",
      "name_of_unitless_or_integer_parameter * name_of_unitless_vector_parameter"]
  | .dimensioned => [
      "number_of_values value1 value2 ... valueN unit",
      "number_of_values value1 value2 ... valueN unit + " ++
        "name_of_double_or_double_vector_parameter",
      "number_of_values value1 value2 ... valueN unit - " ++
        "name_of_double_or_double_vector_parameter",
      "number_of_values value1 value2 ... valueN unit * " ++
        "name_of_unitless_or_integer_or_unitless_vector_or_integer_vector_parameter",
      "number_of_values value1 value2 ... valueN * " ++
        "name_of_double_or_double_vector_parameter unit",
      "number * name_of_double_vector_parameter unit",
      "name_of_double_vector_parameter unit",
      "name_of_double_vector_parameter * number_of_values value1 value2 ... valueN unit",
      "name_of_unitless_or_integer_parameter * name_of_double_vector_parameter unit"]
  | .text => [
      "number_of_values value1 value2 ... valueN",
      "number_of_values value1 value2 ... valueN + " ++
        "name_of_integer_or_string_or_integer_vector_or_string_vector_parameter",
      "name_of_string_vector_parameter"]

/-- The name of a sort as a reader of messages sees it. -/
def Scalar.title : Scalar → String
  | .boolean => "Boolean"
  | .integer => "Integer"
  | .unitless => "Unitless"
  | .dimensioned => "Double"
  | .text => "String"

/-- The advice given with a value of kind `k` that has none of the accepted
forms. -/
def Kind.forms (k : Kind) : String :=
  let heading := k.scalar.title ++ (if k.isVector then " vector" else "") ++
    " parameters may have values of the following forms:"
  let forms := if k.isVector then k.scalar.vectorForms else k.scalar.scalarForms
  "\n  ".intercalate (heading :: forms)

end ParameterChain

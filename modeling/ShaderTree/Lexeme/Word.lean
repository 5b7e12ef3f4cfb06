import ShaderTree.Kind

/-!
What a word is: a keyword, a builtin type or an identifier. A word is always read whole, so each
class is a list of words.
-/
namespace ShaderTree.Lexeme

def scalarTypes : List String :=
  ["bool", "char", "uchar", "short", "ushort", "int", "uint", "long", "ulong", "half", "float",
    "bfloat"]

def dimensions : List String := ["2", "3", "4"]

def sizedTypes : List String :=
  let sizes := "" :: dimensions ++ dimensions.flatMap fun a => dimensions.map fun b => a ++ "x" ++ b
  scalarTypes.flatMap fun scalar => sizes.map fun size => scalar ++ size

def packedTypes : List String :=
  ["char", "uchar", "short", "ushort", "int", "uint", "half", "float", "bfloat"].flatMap
    fun scalar => dimensions.map fun size => "packed_" ++ scalar ++ size

def textureTypes : List String :=
  ["1d", "1d_array", "2d", "2d_array", "2d_ms", "2d_ms_array", "3d", "cube", "cube_array",
    "_buffer", "2d_"].map fun shape => "texture" ++ shape

def depthTypes : List String :=
  ["2d", "2d_array", "2d_ms", "2d_ms_array", "cube", "cube_array", "2d_"].map
    fun shape => "depth" ++ shape

def atomicTypes : List String :=
  ["int", "uint", "bool", "float", "ulong"].map fun scalar => "atomic_" ++ scalar

def simdgroupTypes : List String :=
  ["float", "half", "bfloat"].map fun scalar => "simdgroup_" ++ scalar ++ "8x8"

/-- Builtin templates that are also ordinary words: a type only in front of `<`. -/
def templateTypes : List String :=
  ["array", "array_ref", "vec", "matrix", "packed_vec", "atomic", "imageblock"]

def otherTypes : List String :=
  ["void", "sampler", "size_t", "ptrdiff_t", "ray_data", "instance_acceleration_structure",
    "primitive_acceleration_structure", "visible_function_table", "intersection_function_table"]

def builtinTypes : List String :=
  sizedTypes ++ packedTypes ++ textureTypes ++ depthTypes ++ atomicTypes ++ simdgroupTypes
    ++ templateTypes ++ otherTypes

def keyword? (word : String) : Option Kind := Kind.all.find? fun k => k.word? = some word

def wordKind (word : String) : Kind :=
  match keyword? word with
  | some k => k
  | none => if word ∈ builtinTypes then .primitiveType else .ident

end ShaderTree.Lexeme

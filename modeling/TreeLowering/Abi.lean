/-!
Names and layouts that generated modules share with the code that loads them.
-/
namespace TreeLowering.Abi

/-- The function that runs top-level code and calls the entry function. -/
def initFunction : String := "__init"

/-- The entry function unless another is configured. -/
def defaultEntry : String := "main"

/-- What the init function of a library returns. -/
def librarySuccess : Int := 1

/-- The parameters of the init function of a library: handle, reason, reserved. -/
def libraryParams : List String := ["instance", "reason", "reserved"]

/-- The attribute that exports a function from a shared library. -/
def exportAttribute : String := "DLL.EXPORT"

/-- The intrinsic that copies string data into its buffer. -/
def memcpy : String := "llvm.memcpy.p0i8.p0i8.i32"

/-- The block with all stack slots of a function. -/
def varsBlock : String := "vars"

/-- The first block of control flow. -/
def entryBlock : String := "entry"

/-- The index of an array's length. -/
def arrayLengthField : Nat := 0

/-- The index of an array's data pointer. -/
def arrayDataField : Nat := 1

/-- The name of an array's length. -/
def arrayLengthName : String := "length"

/-- The name of an array's data pointer. -/
def arrayDataName : String := "data"

/-- What names of string data start with. -/
def stringGlobal : String := "str"

/-- What names of string buffers outside functions start with. -/
def stringBuffer : String := "str_arr"

/-- What names of array buffers outside functions start with. -/
def arrayBuffer : String := "arr"

end TreeLowering.Abi

import Clvm.SExp.Basic

/-!
# Words of the source language

The atoms that the compiler gives a meaning.
-/

namespace Clvm

/-- The atom of an ASCII text. -/
def asciiBytes (s : String) : Bytes := s.toList.map fun c => UInt8.ofNat c.toNat

namespace Word

def com : Bytes := asciiBytes "com"
def opt : Bytes := asciiBytes "opt"
def fullPathForName : Bytes := asciiBytes "_full_path_for_name"
def readFile : Bytes := asciiBytes "_read"
def writeFile : Bytes := asciiBytes "_write"
def quote : Bytes := asciiBytes "quote"
def quasi : Bytes := asciiBytes "qq"
def unquote : Bytes := asciiBytes "unquote"
def macros : Bytes := asciiBytes "macros"
def symbols : Bytes := asciiBytes "symbols"
def lambda : Bytes := asciiBytes "lambda"
def mod : Bytes := asciiBytes "mod"
def list : Bytes := asciiBytes "list"
def all : Bytes := asciiBytes "@"
def anyOperator : Bytes := asciiBytes "*"
def includeFile : Bytes := asciiBytes "include"
def defineMacro : Bytes := asciiBytes "defmacro"
def defineFunction : Bytes := asciiBytes "defun"
def defineInline : Bytes := asciiBytes "defun-inline"
def defineConstant : Bytes := asciiBytes "defconstant"

end Word
end Clvm

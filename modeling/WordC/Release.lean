/-!
# Release

What the tool calls itself.
-/

namespace WordC.Release

def name : String := "minic"

def version : String := "0.1.0"

def summary : String := "Compiler and virtual machine for a small C-like language"

end WordC.Release

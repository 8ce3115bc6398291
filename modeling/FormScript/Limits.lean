/-!
# Limits

How much the compiler takes on. Each limit bounds one loop or one recursion over what a program's
author controls, so no source can make the compiler run away; the recursions of the tree builder
and of the script writer count these limits down. They are fixed when the compiler is built.
-/

namespace FormScript.Limits

/-! ## Source files -/

/-- Bytes a source file may have. -/
def fileBytes : Nat := 10485760

/-- A file with more bytes than this counts as large. -/
def largeFileBytes : Nat := 1048576

/-- Lines a source file may have. -/
def fileLines : Nat := 100000

/-! ## Tokens -/

/-- Bytes between the quotes of a string literal. -/
def stringBytes : Nat := 1048576

/-- Bytes in one word of a name. -/
def nameBytes : Nat := 255

/-- Bytes in a comment, delimiters included. -/
def commentBytes : Nat := 100000

/-- Tokens in a source, not counting the closing one. -/
def tokenCount : Nat := 1000000

/-- Block comments open at the same time. -/
def commentDepth : Nat := 64

/-! ## Trees -/

/-- Parentheses open at the same time. -/
def parseDepth : Nat := 256

/-- Elements in the open-ended part of a form. -/
def listChildren : Nat := 100000

/-! ## Scripts -/

/-- Statements and expressions nested in one another. -/
def emitDepth : Nat := 512

/-- Blanks per level of indentation. -/
def indentWidth : Nat := 2

/-! ## The journal -/

/-- Events that the in-memory log keeps. -/
def logBuffer : Nat := 10000

/-- Bytes of a message before it is cut. -/
def messageBytes : Nat := 4096

/-- Events kept for one source. -/
def eventsPerSource : Nat := 1000

end FormScript.Limits

/-
# Limits

Bounds on what a load and a read may consume.  A bound that is passed ends the
operation with a failure of kind `limitExceeded`.  These are the only bounds: that
a machine may run out of memory before one of them is reached is left out.
-/

namespace ParameterChain

structure Limits where
  /-- The size of one file in bytes. -/
  fileSize : Nat := 64 * 1024 * 1024
  /-- The length of one line in bytes. -/
  lineLength : Nat := 1024 * 1024
  /-- The number of files on a path of includes. -/
  includeDepth : Nat := 64
  /-- The number of distinct files. -/
  files : Nat := 10000
  /-- The declared length of a vector. -/
  vectorLength : Nat := 10000000
  /-- The number of parameters on a path of references followed by one read. -/
  evaluationDepth : Nat := 256
  deriving DecidableEq, Repr

/-- The largest count that fits in 64 bits. -/
def Limits.unbounded : Nat := 0xFFFFFFFFFFFFFFFF

/-- Bounds that no file reaches. -/
def Limits.unlimited : Limits :=
  { fileSize := unbounded
    lineLength := unbounded
    includeDepth := unbounded
    files := unbounded
    vectorLength := unbounded
    evaluationDepth := unbounded }

end ParameterChain

/-
The limits on scripts and on what they may do. The first three are checked when a script is decoded, the others while it
runs.
-/

namespace BitcoinScript

/-- the largest length of a script in bytes -/
def scriptLimit : Nat := 10000

/-- the largest length of a pushed item in bytes -/
def itemLimit : Nat := 520

/-- the largest number of counted operations in a script -/
def operationLimit : Nat := 201

/-- the largest number of items on the two stacks together -/
def stackLimit : Nat := 1000

/-- the largest length of a numeric operand in bytes -/
def operandLimit : Nat := 4

/-- the largest number of keys of one signature check -/
def keyLimit : Nat := 20

end BitcoinScript

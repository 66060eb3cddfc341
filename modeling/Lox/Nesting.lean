/-!
# The limit on nesting

Reading a text, running a program and writing a tree go down one level with each rule of the
grammar, each node and each scope they enter.  Below the last level there is nothing: what lies
deeper counts as nested too deep.
-/

namespace Lox

/-- How many levels there are. -/
def nestingLimit : Nat := 980

end Lox

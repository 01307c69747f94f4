import BrownLang.Report.Tree
import BrownLang.Source

/-!
# Sources as trees

The tree of an expression, a statement or a data item, for looking at what was
read from a text.  Locations are left out.
-/

namespace BrownLang

namespace Expr

mutual

def tree : Expr → Tree
  | .lit n => .node "Literal" [("value", .ofNat n)]
  | .var x => .node "Var" [("name", .string x)]
  | .addr x => .node "VarAddress" [("name", .string x)]
  | .word a => .node "Deref" [("address", tree a)]
  | .byte a => .node "DerefByte" [("address", tree a)]
  | .bin op l r =>
    .node "BinaryOp" [("op", .string op.symbol), ("left", tree l), ("right", tree r)]
  | .call f args => .node "FunCall" [("name", .string f), ("args", .list (trees args))]

def trees : List Expr → List Tree
  | [] => []
  | e :: rest => tree e :: trees rest

end

end Expr

def Target.tree : Target → Tree
  | .var x => .node "VarTarget" [("name", .string x)]
  | .word a => .node "AddrTarget" [("address", a.tree)]
  | .byte a => .node "ByteAddrTarget" [("address", a.tree)]

namespace Stmt

mutual

def tree : Stmt → Tree
  | .assign t e _ => .node "Assignment" [("target", t.tree), ("expression", e.tree)]
  | .forLoop x a b body _ =>
    .node "ForStatement"
      [("counter", .string x), ("start", a.tree), ("end", b.tree), ("body", .list (trees body))]
  | .whileLoop c body _ =>
    .node "WhileStatement" [("condition", c.tree), ("body", .list (trees body))]
  | .ifThen c yes _ =>
    .node "IfStatement"
      [("condition", c.tree), ("then_block", .list (trees yes)), ("else_block", .absent)]
  | .ifElse c yes no _ =>
    .node "IfStatement"
      [("condition", c.tree), ("then_block", .list (trees yes)),
        ("else_block", .list (trees no))]
  | .goto l _ => .node "GotoStatement" [("label", .string l)]
  | .label l _ => .node "LabelStatement" [("name", .string l)]
  | .function f ps keep body _ =>
    .node "FuncDef"
      [("name", .string f), ("params", .list (ps.map Tree.string)),
        ("body", .list (trees body)), ("preserve", .ofBool keep)]
  | .eval e _ => .node "ExpressionStatement" [("expression", e.tree)]

def trees : List Stmt → List Tree
  | [] => []
  | s :: rest => tree s :: trees rest

end

end Stmt

def DataItem.tree : DataItem → Tree
  | .label x => .node "DataLabel" [("name", .string x)]
  | .bytes bs => .node "DataBytes" [("data", .bytes bs)]

namespace Source

def codeTree (s : Source) : Tree := .list (Stmt.trees s.code)

def dataTree (s : Source) : Tree := .list (s.data.map DataItem.tree)

end Source

end BrownLang

import NumLang.Name
import NumLang.Node
import NumLang.HostValue
import NumLang.Annotation
import NumLang.Operator

/-!
Programs as trees. An expression, statement, block, parameter or function is a node with an identity; a call
may carry the function it calls.
-/

namespace NumLang

/-- A literal as it is written. -/
inductive Literal where
  | bool (b : Bool)
  | decimal (text : String)
  | hexadecimal (text : String)
  | integer (n : Int)
  | fraction (p q : Int)
  | digits (m e b : Int)
  | host (v : HostValue)
deriving DecidableEq, Repr, Inhabited

/-- A function of the surrounding system: its name, whether calling it has no effect, and its type. -/
structure External where
  name : String
  pure : Bool
  signature : Option (List Ann × Ann)
deriving DecidableEq, Repr, Inhabited

/-- A parameter; without a name it is a wildcard. -/
structure Param where
  id : NodeId
  name : Option Name
  ann : Option Ann := none
  loc : Option Loc := none
deriving DecidableEq, Repr, Inhabited

mutual

inductive Expr where
  | var (node : Node) (name : Name)
  | lit (node : Node) (value : Literal)
  | const (node : Node) (op : Constant) (spelling : Option String)
  | unary (node : Node) (op : UnaryOp) (spelling : Option String) (arg : Expr)
  | binary (node : Node) (op : BinaryOp) (spelling : Option String) (lhs rhs : Expr)
  | ternary (node : Node) (op : TernaryOp) (spelling : Option String) (first second third : Expr)
  | nary (node : Node) (op : NaryOp) (spelling : Option String) (args : List Expr)
  /-- A chain `a₀ ~₀ a₁ ~₁ a₂ …`. -/
  | compare (node : Node) (ops : List Relation) (args : List Expr)
  | call (node : Node) (func : Name) (callee : Option Callee) (args : List Expr)
    (kwargs : List (String × Expr))
  | tuple (node : Node) (elts : List Expr)
  | list (node : Node) (elts : List Expr)
  /-- A list comprehension; the targets are bound in the element only. -/
  | comprehension (node : Node) (targets : List Binder) (iterables : List Expr) (elt : Expr)
  | index (node : Node) (value position : Expr)
  | slice (node : Node) (value : Expr) (start stop : Option Expr)
  /-- A copy of a list with one element replaced. -/
  | update (node : Node) (value : Expr) (path : List Expr) (elt : Expr)
  | cond (node : Node) (test ift iff : Expr)
  /-- A rounding context, written as a constructor with arguments. -/
  | context (node : Node) (ctor : String) (args : List Expr) (kwargs : List (String × Expr))

inductive Callee where
  | function (f : Func)
  | external (f : External)

inductive Stmt where
  | assign (node : Node) (target : Binder) (ann : Option Ann) (value : Expr)
  /-- Replaces one element of a list held by a variable. -/
  | store (node : Node) (name : Name) (path : List Expr) (value : Expr)
  | when (node : Node) (test : Expr) (body : Block)
  | branch (node : Node) (test : Expr) (ift iff : Block)
  | loop (node : Node) (test : Expr) (body : Block)
  | each (node : Node) (target : Binder) (iterable : Expr) (body : Block)
  /-- Runs the body under a rounding context, which may be given a name. -/
  | scope (node : Node) (name : Option Name) (ctx : Expr) (body : Block)
  | assert (node : Node) (test : Expr) (msg : Option Expr)
  | effect (node : Node) (value : Expr)
  | ret (node : Node) (value : Expr)
  | skip (node : Node)

structure Block where
  id : NodeId
  stmts : List Stmt

/-- A function: parameters, body, the names it takes from outside with the values captured for them, and
the rounding context it asks for. -/
structure Func where
  id : NodeId
  name : String
  params : List Param
  body : Block
  freeVars : NameSet
  ctx : Option Context
  metadata : OrdMap String HostValue
  env : OrdMap String HostValue
  loc : Option Loc

end

instance : Inhabited Expr := ⟨.lit default default⟩
instance : Inhabited Stmt := ⟨.skip default⟩
instance : Inhabited Block := ⟨⟨default, []⟩⟩
instance : Inhabited Func := ⟨⟨default, default, [], default, ∅, none, ∅, ∅, none⟩⟩

namespace Literal

def value? : Literal → Option HostValue
  | .bool b => some (.bool b)
  | .host (.bool b) => some (.bool b)
  | .host (.number r) => some (.number r)
  | .host _ => none
  | .integer n => some (.int n)
  | .decimal text => (Numeral.decimal? text).map .number
  | .hexadecimal text => (Numeral.hexadecimal? text).map .number
  | .fraction p q => (Numeral.fraction? p q).map .number
  | .digits m e b => (Numeral.digits? m e b).map .number

end Literal

namespace Callee

def name : Callee → String
  | .function f => f.name
  | .external f => f.name

/-- Whether two calls go to the same function: the same node, or the same function outside. -/
def same : Callee → Callee → Bool
  | .function f, .function g => f.id = g.id
  | .external f, .external g => f = g
  | _, _ => false

def sameOption : Option Callee → Option Callee → Bool
  | none, none => true
  | some f, some g => f.same g
  | _, _ => false

end Callee

namespace Expr

def node : Expr → Node
  | .var node _ | .lit node _ | .const node .. | .unary node .. | .binary node .. | .ternary node ..
  | .nary node .. | .compare node .. | .call node .. | .tuple node _ | .list node _
  | .comprehension node .. | .index node .. | .slice node .. | .update node .. | .cond node ..
  | .context node .. => node

def id (e : Expr) : NodeId := e.node.id
def loc (e : Expr) : Option Loc := e.node.loc

def withNode (node : Node) : Expr → Expr
  | .var _ name => .var node name
  | .lit _ value => .lit node value
  | .const _ op spelling => .const node op spelling
  | .unary _ op spelling arg => .unary node op spelling arg
  | .binary _ op spelling lhs rhs => .binary node op spelling lhs rhs
  | .ternary _ op spelling first second third => .ternary node op spelling first second third
  | .nary _ op spelling args => .nary node op spelling args
  | .compare _ ops args => .compare node ops args
  | .call _ func callee args kwargs => .call node func callee args kwargs
  | .tuple _ elts => .tuple node elts
  | .list _ elts => .list node elts
  | .comprehension _ targets iterables elt => .comprehension node targets iterables elt
  | .index _ value position => .index node value position
  | .slice _ value start stop => .slice node value start stop
  | .update _ value path elt => .update node value path elt
  | .cond _ test ift iff => .cond node test ift iff
  | .context _ ctor args kwargs => .context node ctor args kwargs

/-- Writes an operator in the style of a named function; other expressions have no such spelling. -/
def withSpelling (spelling : String) : Expr → Expr
  | .const node op _ => .const node op spelling
  | .unary node op _ arg => .unary node op spelling arg
  | .binary node op _ lhs rhs => .binary node op spelling lhs rhs
  | .ternary node op _ first second third => .ternary node op spelling first second third
  | .nary node op _ args => .nary node op spelling args
  | e => e

def spelling? : Expr → Option String
  | .const _ _ spelling | .unary _ _ spelling _ | .binary _ _ spelling _ _
  | .ternary _ _ spelling _ _ _ | .nary _ _ spelling _ => spelling
  | _ => none

def asVar? : Expr → Option Name
  | .var _ name => some name
  | _ => none

def isLiteral : Expr → Bool
  | .lit .. => true
  | _ => false

def literalValue? : Expr → Option HostValue
  | .lit _ value => value.value?
  | _ => none

def children : Expr → List Expr
  | .var .. | .lit .. | .const .. => []
  | .unary _ _ _ arg => [arg]
  | .binary _ _ _ lhs rhs => [lhs, rhs]
  | .ternary _ _ _ first second third => [first, second, third]
  | .nary _ _ _ args | .compare _ _ args | .tuple _ args | .list _ args => args
  | .call _ _ _ args kwargs | .context _ _ args kwargs => args ++ kwargs.map Prod.snd
  | .comprehension _ _ iterables elt => iterables ++ [elt]
  | .index _ value position => [value, position]
  | .slice _ value start stop => value :: (start.toList ++ stop.toList)
  | .update _ value path elt => value :: (path ++ [elt])
  | .cond _ test ift iff => [test, ift, iff]

mutual

def all : Expr → List Expr
  | e@(.var ..) | e@(.lit ..) | e@(.const ..) => [e]
  | e@(.unary _ _ _ arg) => e :: arg.all
  | e@(.binary _ _ _ lhs rhs) => e :: (lhs.all ++ rhs.all)
  | e@(.ternary _ _ _ first second third) => e :: (first.all ++ (second.all ++ third.all))
  | e@(.nary _ _ _ args) | e@(.compare _ _ args) | e@(.tuple _ args) | e@(.list _ args) =>
    e :: allOf args
  | e@(.call _ _ _ args kwargs) | e@(.context _ _ args kwargs) => e :: (allOf args ++ allOfKeyed kwargs)
  | e@(.comprehension _ _ iterables elt) => e :: (allOf iterables ++ elt.all)
  | e@(.index _ value position) => e :: (value.all ++ position.all)
  | e@(.slice _ value start stop) => e :: (value.all ++ (allOfOption start ++ allOfOption stop))
  | e@(.update _ value path elt) => e :: (value.all ++ (allOf path ++ elt.all))
  | e@(.cond _ test ift iff) => e :: (test.all ++ (ift.all ++ iff.all))

def allOf : List Expr → List Expr
  | [] => []
  | e :: rest => e.all ++ allOf rest

def allOfKeyed : List (String × Expr) → List Expr
  | [] => []
  | (_, e) :: rest => e.all ++ allOfKeyed rest

def allOfOption : Option Expr → List Expr
  | none => []
  | some e => e.all

end

end Expr

namespace Stmt

def node : Stmt → Node
  | .assign node .. | .store node .. | .when node .. | .branch node .. | .loop node .. | .each node ..
  | .scope node .. | .assert node .. | .effect node _ | .ret node _ | .skip node => node

def id (s : Stmt) : NodeId := s.node.id
def loc (s : Stmt) : Option Loc := s.node.loc

def withNode (node : Node) : Stmt → Stmt
  | .assign _ target ann value => .assign node target ann value
  | .store _ name path value => .store node name path value
  | .when _ test body => .when node test body
  | .branch _ test ift iff => .branch node test ift iff
  | .loop _ test body => .loop node test body
  | .each _ target iterable body => .each node target iterable body
  | .scope _ name ctx body => .scope node name ctx body
  | .assert _ test msg => .assert node test msg
  | .effect _ value => .effect node value
  | .ret _ value => .ret node value
  | .skip _ => .skip node

def exprs : Stmt → List Expr
  | .assign _ _ _ value | .effect _ value | .ret _ value => [value]
  | .store _ _ path value => path ++ [value]
  | .when _ test _ | .branch _ test _ _ | .loop _ test _ => [test]
  | .each _ _ iterable _ => [iterable]
  | .scope _ _ ctx _ => [ctx]
  | .assert _ test msg => test :: msg.toList
  | .skip _ => []

def blocks : Stmt → List Block
  | .when _ _ body | .loop _ _ body | .each _ _ _ body | .scope _ _ _ body => [body]
  | .branch _ _ ift iff => [ift, iff]
  | _ => []

def binds : Stmt → List Name
  | .assign _ target _ _ | .each _ target _ _ => target.names
  | .store _ name _ _ => [name]
  | .scope _ name _ _ => name.toList
  | _ => []

def singleAssign? : Stmt → Option (Name × Expr)
  | .assign _ (.name n) _ value => some (n, value)
  | _ => none

end Stmt

mutual

def Stmt.all : Stmt → List Stmt
  | s@(.when _ _ body) | s@(.loop _ _ body) | s@(.each _ _ _ body) | s@(.scope _ _ _ body) => s :: body.all
  | s@(.branch _ _ ift iff) => s :: (ift.all ++ iff.all)
  | s@(.assign ..) | s@(.store ..) | s@(.assert ..) | s@(.effect ..) | s@(.ret ..) | s@(.skip ..) => [s]

def Block.all : Block → List Stmt
  | ⟨_, stmts⟩ => Stmt.allOf stmts

def Stmt.allOf : List Stmt → List Stmt
  | [] => []
  | s :: rest => s.all ++ Stmt.allOf rest

end

mutual

def Stmt.allBlocks : Stmt → List Block
  | .when _ _ body | .loop _ _ body | .each _ _ _ body | .scope _ _ _ body => body.allBlocks
  | .branch _ _ ift iff => ift.allBlocks ++ iff.allBlocks
  | .assign .. | .store .. | .assert .. | .effect .. | .ret .. | .skip .. => []

def Block.allBlocks : Block → List Block
  | b@⟨_, stmts⟩ => b :: Stmt.allBlocksOf stmts

def Stmt.allBlocksOf : List Stmt → List Block
  | [] => []
  | s :: rest => s.allBlocks ++ Stmt.allBlocksOf rest

end

def Block.allExprs (b : Block) : List Expr := b.all.flatMap fun s => Expr.allOf s.exprs

namespace Func

def paramNames (f : Func) : List Name := f.params.filterMap (·.name)

end Func

end NumLang

import NumLang.Data.Basic
import NumLang.Tree.Basic

/-!
Writing programs as plain data, in the form in which they are read.
-/

namespace NumLang

def Name.toData (n : Name) : Data :=
  match n.counter with
  | none => .text n.base
  | some k => .list [.text n.base, .nat k]

/-- A name where the wildcard may stand; a name that is spelled like it is told apart from it. -/
def Name.toIdData : Option Name → Data
  | none => .text "_"
  | some n => if n = { base := "_" } then .list [.text "_"] else n.toData

def NameSet.toData (s : NameSet) : Data := .ofList Name.toData s.toList

mutual

def Binder.toData : Binder → Data
  | .wildcard => Name.toIdData none
  | .name n => Name.toIdData (some n)
  | .tuple parts => .record [("t", .list (Binder.toDataAll parts))]

def Binder.toDataAll : List Binder → List Data
  | [] => []
  | b :: rest => b.toData :: Binder.toDataAll rest

end

def RoundingMode.toData (rm : RoundingMode) : Data := .text rm.text

def Context.toData : Context → Data
  | .real => .texts ["Real"]
  | .ieee es nbits rm => .list [.text "Ieee", .nat es, .nat nbits, rm.toData]
  | .mpFloat prec rm => .list [.text "MpFloat", .nat prec, rm.toData]
  | .mpFixed nmin rm => .list [.text "MpFixed", .int nmin, rm.toData]
  | .fixed signed scale nbits rm => .list [.text "Fixed", .bool signed, .int scale, .nat nbits, rm.toData]

mutual

def HostValue.toData : HostValue → Data
  | .bool b => .record [("bool", .bool b)]
  | .number r => .record [("num", .rat r)]
  | .context c => .record [("ctx", c.toData)]
  | .mode rm => .record [("rm", rm.toData)]
  | .tuple elts => .record [("tup", .list (HostValue.toDataAll elts))]
  | .object name => .record [("opaque", .text name)]

def HostValue.toDataAll : List HostValue → List Data
  | [] => []
  | v :: rest => v.toData :: HostValue.toDataAll rest

end

mutual

def Ann.toData : Ann → Data
  | .any => .text "any"
  | .bool => .text "bool"
  | .real .any => .text "real"
  | .real (.var name) => .texts ["realvar", name]
  | .real (.known c) => .list [.text "realctx", c.toData]
  | .context => .text "context"
  | .tuple elts => .list [.text "tuple", .list (Ann.toDataAll elts)]
  | .list elt => .list [.text "list", elt.toData]
  | .var name => .texts ["var", name]

def Ann.toDataAll : List Ann → List Data
  | [] => []
  | a :: rest => a.toData :: Ann.toDataAll rest

end

def Loc.toData (l : Loc) : Data :=
  .list [.text l.source, .nat l.startLine, .nat l.startCol, .nat l.endLine, .nat l.endCol]

def Literal.toData : Literal → Data
  | .bool b => .list [.text "bool", .bool b]
  | .decimal s => .texts ["dec", s]
  | .hexadecimal s => .texts ["hex", s]
  | .integer n => .list [.text "int", .big n]
  | .fraction p q => .list [.text "rat", .big p, .big q]
  | .digits m e b => .list [.text "dig", .big m, .big e, .big b]
  | .host v => .list [.text "foreign", v.toData]

def Callee.toData (lib : List Func) : Callee → Data
  | .function f => .record [("f", .ofOption .nat (lib.findIdx? (·.id = f.id)))]
  | .external f =>
    .record [("x", .text f.name), ("pure", .bool f.pure),
      ("sig", .ofOption (fun sig => .list [.ofList Ann.toData sig.1, sig.2.toData]) f.signature)]

def Data.fieldOf {α : Type} (key : String) (write : α → Data) : Option α → List (String × Data)
  | none => []
  | some a => [(key, write a)]

def Data.wrapped (key : String) (extra : List (String × Data)) (core : Data) : Data :=
  if extra.isEmpty then core else .record ((key, core) :: extra)

def Node.wrap (node : Node) (spelling : Option String) (core : List Data) : Data :=
  Data.wrapped "e" (Data.fieldOf "as" .text spelling ++ Data.fieldOf "loc" Loc.toData node.loc) (.list core)

mutual

def Expr.toData (lib : List Func) : Expr → Data
  | .var node n => node.wrap none [.text "var", n.toData]
  | .lit node v => Data.wrapped "e" (Data.fieldOf "loc" Loc.toData node.loc) v.toData
  | .const node o s => node.wrap s [.text "op0", .text o.name]
  | .unary node o s x => node.wrap s [.text "op1", .text o.name, x.toData lib]
  | .binary node o s x y => node.wrap s [.text "op2", .text o.name, x.toData lib, y.toData lib]
  | .ternary node o s x y z =>
    node.wrap s [.text "op3", .text o.name, x.toData lib, y.toData lib, z.toData lib]
  | .nary node o s xs => node.wrap s [.text "opn", .text o.name, .list (Expr.toDataAll lib xs)]
  | .compare node ops xs =>
    node.wrap none [.text "cmp", .texts (ops.map (·.symbol)), .list (Expr.toDataAll lib xs)]
  | .call node n callee xs ks =>
    node.wrap none [.text "call", n.toData, .ofOption (Callee.toData lib) callee,
      .list (Expr.toDataAll lib xs), .list (Expr.toDataKeyed lib ks)]
  | .tuple node xs => node.wrap none [.text "tuple", .list (Expr.toDataAll lib xs)]
  | .list node xs => node.wrap none [.text "list", .list (Expr.toDataAll lib xs)]
  | .comprehension node ts xs x =>
    node.wrap none [.text "comp", .list (Binder.toDataAll ts), .list (Expr.toDataAll lib xs), x.toData lib]
  | .index node x i => node.wrap none [.text "ref", x.toData lib, i.toData lib]
  | .slice node x s t =>
    node.wrap none [.text "slice", x.toData lib, Expr.toDataOption lib s, Expr.toDataOption lib t]
  | .update node x is y =>
    node.wrap none [.text "set", x.toData lib, .list (Expr.toDataAll lib is), y.toData lib]
  | .cond node c t f => node.wrap none [.text "if", c.toData lib, t.toData lib, f.toData lib]
  | .context node c xs ks =>
    node.wrap none [.text "ctx", .text c, .list (Expr.toDataAll lib xs), .list (Expr.toDataKeyed lib ks)]

def Expr.toDataAll (lib : List Func) : List Expr → List Data
  | [] => []
  | e :: rest => e.toData lib :: Expr.toDataAll lib rest

def Expr.toDataKeyed (lib : List Func) : List (String × Expr) → List Data
  | [] => []
  | (key, e) :: rest => .list [.text key, e.toData lib] :: Expr.toDataKeyed lib rest

def Expr.toDataOption (lib : List Func) : Option Expr → Data
  | none => .null
  | some e => e.toData lib

end

def Node.wrapStmt (node : Node) (core : List Data) : Data :=
  Data.wrapped "s" (Data.fieldOf "loc" Loc.toData node.loc) (.list core)

mutual

def Stmt.toData (lib : List Func) : Stmt → Data
  | .assign node t ann x =>
    node.wrapStmt [.text "=", t.toData, .ofOption Ann.toData ann, x.toData lib]
  | .store node n is x =>
    node.wrapStmt [.text "[]=", n.toData, .list (Expr.toDataAll lib is), x.toData lib]
  | .when node c b => node.wrapStmt [.text "if1", c.toData lib, b.toData lib]
  | .branch node c t f => node.wrapStmt [.text "if", c.toData lib, t.toData lib, f.toData lib]
  | .loop node c b => node.wrapStmt [.text "while", c.toData lib, b.toData lib]
  | .each node t x b => node.wrapStmt [.text "for", t.toData, x.toData lib, b.toData lib]
  | .scope node n c b => node.wrapStmt [.text "with", .ofOption Name.toData n, c.toData lib, b.toData lib]
  | .assert node t m => node.wrapStmt [.text "assert", t.toData lib, Expr.toDataOption lib m]
  | .effect node x => node.wrapStmt [.text "effect", x.toData lib]
  | .ret node x => node.wrapStmt [.text "return", x.toData lib]
  | .skip node => node.wrapStmt [.text "pass"]

def Block.toData (lib : List Func) : Block → Data
  | ⟨_, stmts⟩ => .list (Stmt.toDataAll lib stmts)

def Stmt.toDataAll (lib : List Func) : List Stmt → List Data
  | [] => []
  | s :: rest => s.toData lib :: Stmt.toDataAll lib rest

end

def Param.toData (p : Param) : Data :=
  .list ([Name.toIdData p.name, .ofOption Ann.toData p.ann] ++ (p.loc.map Loc.toData).toList)

def Func.toData (lib : List Func) (f : Func) : Data :=
  .record ([("name", .text f.name), ("args", .ofList Param.toData f.params), ("body", f.body.toData lib)]
    ++ (if f.freeVars.isEmpty then [] else [("free", NameSet.toData f.freeVars)])
    ++ Data.fieldOf "ctx" Context.toData f.ctx
    ++ (if f.metadata.isEmpty then [] else [("meta", .ofTable HostValue.toData f.metadata)])
    ++ (if f.env.isEmpty then [] else [("env", .ofTable HostValue.toData f.env)])
    ++ Data.fieldOf "loc" Loc.toData f.loc)

end NumLang

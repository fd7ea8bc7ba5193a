import NumLang.Data.Basic
import NumLang.Tree.Basic

/-!
Reading programs from plain data. Nodes are read without identities of their own, which are given to a whole
tree afterwards. The depth of the data bounds how far a reader goes down.
-/

namespace NumLang

def Name.ofData? : Data → Option Name
  | .text s => some { base := s }
  | .list [.text s] => some { base := s }
  | .list [.text s, k] => do return { base := s, counter := some (← k.width?) }
  | _ => none

def Name.ofIdData? : Data → Option (Option Name)
  | .text "_" => some none
  | d => (Name.ofData? d).map some

def Binder.ofDataWithin? : (depth : Nat) → Data → Option Binder
  | 0, d => ofId d
  | depth + 1, d =>
    if d.isRecord then ((d.field "t").listOf? (Binder.ofDataWithin? depth)).map .tuple else ofId d
where
  ofId (d : Data) : Option Binder := do
    match ← Name.ofIdData? d with
    | some n => return .name n
    | none => return .wildcard

def Binder.ofData? (d : Data) : Option Binder := Binder.ofDataWithin? d.depth d

def RoundingMode.ofData? (d : Data) : Option RoundingMode := do RoundingMode.ofText? (← d.text?)

def Context.ofData? (d : Data) : Option Context := do
  match ← d.list? with
  | [.text "Real"] => return .real
  | [.text "Ieee", es, nbits, rm] => return .ieee (← es.width?) (← nbits.width?) (← RoundingMode.ofData? rm)
  | [.text "MpFloat", prec, rm] => return .mpFloat (← prec.width?) (← RoundingMode.ofData? rm)
  | [.text "MpFixed", nmin, rm] => return .mpFixed (← nmin.position?) (← RoundingMode.ofData? rm)
  | [.text "Fixed", signed, scale, nbits, rm] =>
    return .fixed (← signed.bool?) (← scale.position?) (← nbits.width?) (← RoundingMode.ofData? rm)
  | _ => none

def HostValue.ofDataWithin? : (depth : Nat) → Data → Option HostValue
  | 0, _ => none
  | depth + 1, d =>
    match d with
    | .record [("bool", v)] => v.bool?.map .bool
    | .record [("num", v)] => v.rat?.map .number
    | .record [("ctx", v)] => (Context.ofData? v).map .context
    | .record [("rm", v)] => (RoundingMode.ofData? v).map .mode
    | .record [("tup", v)] => (v.listOf? (HostValue.ofDataWithin? depth)).map .tuple
    | .record [("opaque", v)] => v.text?.map .object
    | _ => none

def HostValue.ofData? (d : Data) : Option HostValue := HostValue.ofDataWithin? d.depth d

def Ann.ofDataWithin? : (depth : Nat) → Data → Option Ann
  | 0, d => atom d
  | depth + 1, d =>
    match d with
    | .list [.text "var", v] => v.text?.map .var
    | .list [.text "realvar", v] => v.text?.map fun name => .real (.var name)
    | .list [.text "realctx", c] => (Context.ofData? c).map fun c => .real (.known c)
    | .list [.text "list", t] => (Ann.ofDataWithin? depth t).map .list
    | .list [.text "tuple", ts] => (ts.listOf? (Ann.ofDataWithin? depth)).map .tuple
    | d => atom d
where
  atom : Data → Option Ann
    | .text "any" => some .any
    | .text "bool" => some .bool
    | .text "real" => some (.real .any)
    | .text "context" => some .context
    | _ => none

def Ann.ofData? (d : Data) : Option Ann := Ann.ofDataWithin? d.depth d

def Loc.ofData? (d : Data) : Option Loc := do
  match ← d.list? with
  | [source, startLine, startCol, endLine, endCol] =>
    return ⟨← source.text?, ← startLine.width?, ← startCol.width?, ← endLine.width?, ← endCol.width?⟩
  | _ => none

def External.ofData? (d : Data) : Option External := do
  let signature ← (d.field "sig").optional? fun sig => do
    match ← sig.list? with
    | [params, ret] => return (← params.listOf? Ann.ofData?, ← Ann.ofData? ret)
    | _ => none
  return ⟨← (d.field "x").text?, ← (d.field "pure").bool?, signature⟩

def Callee.ofData? (lib : List Func) (d : Data) : Option Callee :=
  if !d.isRecord then none
  else if (d.field "f").isNull then (External.ofData? d).map .external
  else do return .function (← lib[← (d.field "f").size?]?)

def Node.unnumbered : Node := ⟨⟨0⟩, none⟩

def Literal.ofParts? (tag : String) (parts : List Data) : Option Literal :=
  match tag, parts with
  | "bool", [b] => b.bool?.map .bool
  | "dec", [s] => s.text?.map .decimal
  | "hex", [s] => s.text?.map .hexadecimal
  | "int", [n] => n.big?.map .integer
  | "rat", [p, q] => do return .fraction (← p.big?) (← q.big?)
  | "dig", [m, e, b] => do return .digits (← m.big?) (← e.big?) (← b.big?)
  | "foreign", [v] => (HostValue.ofData? v).map .host
  | _, _ => none

def Data.keyed? {α : Type} (read : Data → Option α) (d : Data) : Option (String × α) := do
  match ← d.list? with
  | [key, e] => return (← key.text?, ← read e)
  | _ => none

namespace Expr

/-- Reads an expression without wrapper from its tag and parts, which are read by `sub`. -/
def ofParts? (lib : List Func) (sub : Data → Option Expr) (tag : String) (parts : List Data) : Option Expr :=
  let node := Node.unnumbered
  match tag, parts with
  | "var", [n] => do return .var node (← Name.ofData? n)
  | "op0", [o] => do return .const node (← Constant.ofName? (← o.text?)) none
  | "op1", [o, x] => do return .unary node (← UnaryOp.ofName? (← o.text?)) none (← sub x)
  | "op2", [o, x, y] => do return .binary node (← BinaryOp.ofName? (← o.text?)) none (← sub x) (← sub y)
  | "op3", [o, x, y, z] => do
    return .ternary node (← TernaryOp.ofName? (← o.text?)) none (← sub x) (← sub y) (← sub z)
  | "opn", [o, xs] => do return .nary node (← NaryOp.ofName? (← o.text?)) none (← xs.listOf? sub)
  | "cmp", [ops, xs] => do
    return .compare node (← ops.listOf? fun o => do Relation.ofSymbol? (← o.text?)) (← xs.listOf? sub)
  | "call", [n, callee, xs, ks] => do
    return .call node (← Name.ofData? n) (← callee.optional? (Callee.ofData? lib)) (← xs.listOf? sub)
      (← ks.listOf? (Data.keyed? sub))
  | "tuple", [xs] => do return .tuple node (← xs.listOf? sub)
  | "list", [xs] => do return .list node (← xs.listOf? sub)
  | "comp", [ts, xs, e] => do
    return .comprehension node (← ts.listOf? Binder.ofData?) (← xs.listOf? sub) (← sub e)
  | "ref", [x, i] => do return .index node (← sub x) (← sub i)
  | "slice", [x, s, t] => do return .slice node (← sub x) (← s.optional? sub) (← t.optional? sub)
  | "set", [x, is, e] => do return .update node (← sub x) (← is.listOf? sub) (← sub e)
  | "if", [c, t, f] => do return .cond node (← sub c) (← sub t) (← sub f)
  | "ctx", [c, xs, ks] => do
    return .context node (← c.text?) (← xs.listOf? sub) (← ks.listOf? (Data.keyed? sub))
  | _, _ => (Literal.ofParts? tag parts).map (.lit node)

def ofDataWithin? (lib : List Func) : (depth : Nat) → Data → Option Expr
  | 0, _ => none
  | depth + 1, d =>
    match d with
    | .list (.text tag :: parts) => ofParts? lib (ofDataWithin? lib depth) tag parts
    | .record _ => do
      let e ← ofDataWithin? lib depth (d.field "e")
      let e := match ← (d.field "as").optional? Data.text? with
        | some spelling => e.withSpelling spelling
        | none => e
      match ← (d.field "loc").optional? Loc.ofData? with
      | some loc => return e.withNode ⟨e.id, some loc⟩
      | none => return e
    | _ => none

def ofData? (lib : List Func) (d : Data) : Option Expr := ofDataWithin? lib d.depth d

end Expr

namespace Stmt

/-- Reads a statement without wrapper from its tag and parts; blocks are read by `block`. -/
def ofParts? (lib : List Func) (block : Data → Option Block) (tag : String) (parts : List Data) :
    Option Stmt :=
  let node := Node.unnumbered
  let expr := Expr.ofData? lib
  match tag, parts with
  | "=", [t, ann, x] => do return .assign node (← Binder.ofData? t) (← ann.optional? Ann.ofData?) (← expr x)
  | "[]=", [n, is, x] => do return .store node (← Name.ofData? n) (← is.listOf? expr) (← expr x)
  | "if1", [c, b] => do return .when node (← expr c) (← block b)
  | "if", [c, t, f] => do return .branch node (← expr c) (← block t) (← block f)
  | "while", [c, b] => do return .loop node (← expr c) (← block b)
  | "for", [t, x, b] => do return .each node (← Binder.ofData? t) (← expr x) (← block b)
  | "with", [n, c, b] => do return .scope node (← n.optional? Name.ofData?) (← expr c) (← block b)
  | "assert", [t, m] => do return .assert node (← expr t) (← m.optional? expr)
  | "effect", [x] => do return .effect node (← expr x)
  | "return", [x] => do return .ret node (← expr x)
  | "pass", [] => some (.skip node)
  | _, _ => none

def ofDataWithin? (lib : List Func) : (depth : Nat) → Data → Option Stmt
  | 0, _ => none
  | depth + 1, d =>
    match d with
    | .list (.text tag :: parts) =>
      ofParts? lib (fun b => (b.listOf? (ofDataWithin? lib depth)).map (⟨Node.unnumbered.id, ·⟩)) tag parts
    | .record _ => do
      let s ← ofDataWithin? lib depth (d.field "s")
      match ← (d.field "loc").optional? Loc.ofData? with
      | some loc => return s.withNode ⟨s.id, some loc⟩
      | none => return s
    | _ => none

def ofData? (lib : List Func) (d : Data) : Option Stmt := ofDataWithin? lib d.depth d

end Stmt

def Block.ofData? (lib : List Func) (d : Data) : Option Block :=
  (d.listOf? (Stmt.ofData? lib)).map (⟨Node.unnumbered.id, ·⟩)

def Param.ofData? (d : Data) : Option Param := do
  let read (n ann loc : Data) : Option Param := do
    return ⟨Node.unnumbered.id, ← Name.ofIdData? n, ← ann.optional? Ann.ofData?, ← loc.optional? Loc.ofData?⟩
  match ← d.list? with
  | [n, ann] => read n ann .null
  | [n, ann, loc] => read n ann loc
  | _ => none

def Func.ofData? (lib : List Func) (d : Data) : Option Func := do
  return {
    id := Node.unnumbered.id
    name := ← (d.field "name").text?
    params := ← (d.field "args").listOr? Param.ofData?
    body := ← Block.ofData? lib (d.field "body")
    freeVars := OrdSet.ofList (← (d.field "free").listOr? Name.ofData?)
    ctx := ← (d.field "ctx").optional? Context.ofData?
    metadata := ← (d.field "meta").table? HostValue.ofData?
    env := ← (d.field "env").table? HostValue.ofData?
    loc := ← (d.field "loc").optional? Loc.ofData?
  }

def NameMap.ofData? (d : Data) : Option (NameMap Name) := do
  let pairs ← d.listOf? fun pair => do
    match ← pair.list? with
    | [a, b] => return (← Name.ofData? a, ← Name.ofData? b)
    | _ => none
  return OrdMap.ofList pairs

end NumLang

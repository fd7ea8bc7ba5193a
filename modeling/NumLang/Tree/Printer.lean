import NumLang.Tree.Basic

/-!
Programs as text: one statement a line, blocks indented, parentheses only where the levels of operators ask for them,
and operators with a spelling of their own written as calls.
-/

namespace NumLang

abbrev Level := Nat

namespace Level

def conditional : Level := 0
def disjunction : Level := 1
def conjunction : Level := 2
def negation : Level := 3
def comparison : Level := 4
def sum : Level := 5
def product : Level := 6
def minus : Level := 7
def atom : Level := 8

end Level

def BinaryOp.symbol? : BinaryOp → Option (String × Level)
  | .add => some ("+", Level.sum)
  | .sub => some ("-", Level.sum)
  | .mul => some ("*", Level.product)
  | .div => some ("/", Level.product)
  | _ => none

def NaryOp.word? : NaryOp → Option (String × Level)
  | .and => some (" and ", Level.conjunction)
  | .or => some (" or ", Level.disjunction)
  | _ => none

/-- A connective stands between its operands if it has two of them and no spelling of its own. -/
def NaryOp.between? (op : NaryOp) (spelling : Option String) (count : Nat) : Option (String × Level) :=
  if spelling.isNone && 2 ≤ count then op.word? else none

def Expr.level : Expr → Level
  | .cond .. => Level.conditional
  | .nary _ op spelling args =>
    match op.between? spelling args.length with
    | some (_, level) => level
    | none => Level.atom
  | .unary _ .not none _ => Level.negation
  | .unary _ .neg none _ => Level.minus
  | .compare .. => Level.comparison
  | .binary _ op none _ _ =>
    match op.symbol? with
    | some (_, level) => level
    | none => Level.atom
  | .lit _ (.integer n) => if n < 0 then Level.minus else Level.atom
  | _ => Level.atom

def Literal.text : Literal → String
  | .bool b => Context.truthText b
  | .decimal text => text
  | .hexadecimal text => text
  | .integer n => toString n
  | .fraction p q => s!"rational({p}, {q})"
  | .digits m e b => s!"digits({m}, {e}, {b})"
  | .host v => v.text

namespace Binder

def partsText (parts : List String) : String :=
  match parts with
  | [single] => single ++ ","
  | _ => ", ".intercalate parts

mutual

def innerText : Binder → String
  | .wildcard => "_"
  | .name n => n.text
  | .tuple parts => "(" ++ partsText (innerTexts parts) ++ ")"

def innerTexts : List Binder → List String
  | [] => []
  | b :: rest => b.innerText :: innerTexts rest

end

def text : Binder → String
  | .tuple parts => partsText (innerTexts parts)
  | b => b.innerText

end Binder

namespace Expr

def parens (needed : Bool) (s : String) : String := if needed then "(" ++ s ++ ")" else s

def callText (name : String) (args : List String) : String := name ++ "(" ++ ", ".intercalate args ++ ")"

def chainText : List Relation → List String → String
  | _, [] => ""
  | [], s :: rest => s ++ chainText [] rest
  | op :: ops, s :: rest => " " ++ op.symbol ++ " " ++ s ++ chainText ops rest

def comparisonText (ops : List Relation) : List String → String
  | [] => ""
  | s :: rest => s ++ chainText ops rest

def clausesText (targets : List Binder) (iterables : List String) : String :=
  String.join ((targets.zip iterables).map fun clause => " for " ++ clause.1.text ++ " in " ++ clause.2)

mutual

def render (least : Level) : Expr → String
  | .var _ name => name.text
  | e@(.lit _ value) => parens (e.level < least) value.text
  | .const _ op spelling => spelling.getD op.name
  | e@(.unary _ op spelling arg) => parens (e.level < least) <|
    match op, spelling with
    | .neg, none => "-" ++ render Level.minus arg
    | .not, none => "not " ++ render Level.negation arg
    | _, _ => callText (spelling.getD op.name) [render Level.conditional arg]
  | e@(.binary _ op spelling lhs rhs) => parens (e.level < least) <|
    match op.symbol?, spelling with
    | some (symbol, level), none => render level lhs ++ " " ++ symbol ++ " " ++ render (level + 1) rhs
    | _, _ => callText (spelling.getD op.name) [render Level.conditional lhs, render Level.conditional rhs]
  | .ternary _ op spelling first second third =>
    callText (spelling.getD op.name)
      [render Level.conditional first, render Level.conditional second, render Level.conditional third]
  | e@(.nary _ op spelling args) => parens (e.level < least) <|
    match op.between? spelling args.length with
    | some (word, level) => word.intercalate (renderAll (level + 1) args)
    | none => callText (spelling.getD op.name) (renderAll Level.conditional args)
  | e@(.compare _ ops args) =>
    parens (e.level < least) (comparisonText ops (renderAll (Level.comparison + 1) args))
  | .call _ func _ args kwargs => callText func.text (renderAll Level.conditional args ++ renderKeyed kwargs)
  | .tuple _ elts => HostValue.tupleText (renderAll Level.conditional elts)
  | .list _ elts => "[" ++ ", ".intercalate (renderAll Level.conditional elts) ++ "]"
  | .comprehension _ targets iterables elt =>
    "[" ++ render Level.conditional elt ++ clausesText targets (renderAll Level.disjunction iterables) ++ "]"
  | .index _ value position => render Level.atom value ++ "[" ++ render Level.conditional position ++ "]"
  | .slice _ value start stop =>
    render Level.atom value ++ "[" ++ renderOption start ++ ":" ++ renderOption stop ++ "]"
  | .update _ value path elt =>
    callText "set"
      [render Level.conditional value, HostValue.tupleText (renderAll Level.conditional path),
        render Level.conditional elt]
  | e@(.cond _ test ift iff) => parens (e.level < least) <|
    render Level.disjunction ift ++ " if " ++ render Level.disjunction test ++ " else "
      ++ render Level.conditional iff
  | .context _ ctor args kwargs => callText ctor (renderAll Level.conditional args ++ renderKeyed kwargs)

def renderAll (least : Level) : List Expr → List String
  | [] => []
  | e :: rest => render least e :: renderAll least rest

def renderKeyed : List (String × Expr) → List String
  | [] => []
  | (key, e) :: rest => (key ++ "=" ++ render Level.conditional e) :: renderKeyed rest

def renderOption : Option Expr → String
  | none => ""
  | some e => render Level.conditional e

end

def text (e : Expr) : String := e.render Level.conditional

end Expr

/-- How programs are laid out: the number of blanks by which a block stands to the right. -/
structure Layout where
  indent : Nat := 4
deriving DecidableEq, Repr, Inhabited

namespace Layout

def standard : Layout := {}

def annText : Option Ann → String
  | none => ""
  | some ann => ": " ++ ann.text

def line (layout : Layout) (depth : Nat) (s : String) : String := "".pushn ' ' (depth * layout.indent) ++ s ++ "\n"

mutual

def stmt (layout : Layout) (depth : Nat) : Stmt → String
  | .assign _ target ann value =>
    layout.line depth (target.text ++ annText ann ++ " = " ++ value.text)
  | .store _ name path value =>
    layout.line depth
      (name.text ++ String.join (path.map fun e => "[" ++ e.text ++ "]") ++ " = " ++ value.text)
  | .when _ test body => layout.line depth ("if " ++ test.text ++ ":") ++ layout.block (depth + 1) body
  | .branch _ test ift iff =>
    layout.line depth ("if " ++ test.text ++ ":") ++ layout.block (depth + 1) ift
      ++ layout.line depth "else:" ++ layout.block (depth + 1) iff
  | .loop _ test body => layout.line depth ("while " ++ test.text ++ ":") ++ layout.block (depth + 1) body
  | .each _ target iterable body =>
    layout.line depth ("for " ++ target.text ++ " in " ++ iterable.text ++ ":")
      ++ layout.block (depth + 1) body
  | .scope _ name ctx body =>
    layout.line depth ("with " ++ ctx.text ++ (name.elim "" fun n => " as " ++ n.text) ++ ":")
      ++ layout.block (depth + 1) body
  | .assert _ test msg => layout.line depth ("assert " ++ test.text ++ (msg.elim "" fun e => ", " ++ e.text))
  | .effect _ value => layout.line depth value.text
  | .ret _ value => layout.line depth ("return " ++ value.text)
  | .skip _ => layout.line depth "pass"

def block (layout : Layout) (depth : Nat) : Block → String
  | ⟨_, []⟩ => layout.line depth "pass"
  | ⟨_, s :: rest⟩ => layout.stmts depth (s :: rest)

def stmts (layout : Layout) (depth : Nat) : List Stmt → String
  | [] => ""
  | s :: rest => layout.stmt depth s ++ layout.stmts depth rest

end

def param (p : Param) : String := (p.name.elim "_" Name.text) ++ annText p.ann

def func (layout : Layout) (f : Func) : String :=
  (f.ctx.elim "" fun c => "@fpy(ctx=" ++ c.text ++ ")\n")
    ++ "def " ++ f.name ++ "(" ++ ", ".intercalate (f.params.map param) ++ "):\n"
    ++ layout.block 1 f.body

end Layout

def Stmt.text (s : Stmt) : String := Layout.standard.stmt 0 s
def Block.text (b : Block) : String := Layout.standard.block 0 b
def Func.text (f : Func) : String := Layout.standard.func f

def Stmt.shortText (s : Stmt) : String := String.ofList (Text.trimEnd s.text.toList)

end NumLang

import NumLang.Flow.Reaching
import NumLang.Proofs.Children
import NumLang.Proofs.Ordered
import NumLang.Tree.Identity

/-!
The walk that finds definitions, as a relation between the environments around a part of a program and what is noted
of it.
-/

namespace NumLang

theorem bind_ok {ε α β : Type} {x : Except ε α} {f : α → Except ε β} {b : β} :
    x >>= f = .ok b ↔ ∃ a, x = .ok a ∧ f a = .ok b := by
  cases x with
  | ok a =>
    constructor
    · intro run
      exact ⟨a, rfl, run⟩
    · rintro ⟨_, same, run⟩
      cases same
      exact run
  | error e =>
    constructor
    · intro run
      cases run
    · rintro ⟨_, same, _⟩
      cases same

namespace Flow

def bound (site : Site) (names : List Name) (env : Env) : Env := (bindNames site 0 names env).1

/-- The definitions that are made when names are bound at a site. -/
def made (site : Site) (names : List Name) (env : Env) : List Record := (bindNames site 0 names env).2

namespace Notes

def around (id : NodeId) (before after : Env) (inside : Notes) : Notes := (noteStmt id before after inside).2

@[simp] theorem records_append (a b : Notes) : (a ++ b).records = a.records ++ b.records := rfl
@[simp] theorem stmts_append (a b : Notes) : (a ++ b).stmts = a.stmts ++ b.stmts := rfl
@[simp] theorem blocks_append (a b : Notes) : (a ++ b).blocks = a.blocks ++ b.blocks := rfl

variable (id : NodeId) (before after : Env) (inside : Notes)

@[simp] theorem records_around : (around id before after inside).records = inside.records :=
  append_nil _

@[simp] theorem stmts_around :
    (around id before after inside).stmts = inside.stmts ++ [(id, ⟨before, after⟩)] := rfl

@[simp] theorem blocks_around : (around id before after inside).blocks = inside.blocks :=
  append_nil _

end Notes

section Exprs

variable {env : Env}

theorem ofExprs_append (first others : List Expr) :
    ofExprs env (first ++ others) = do return (← ofExprs env first) ++ (← ofExprs env others) := by
  induction first with
  | nil => simp [ofExprs]
  | cons e rest ih => simp only [cons_append, ofExprs, ih, bind_assoc, pure_bind, append_assoc]

theorem ofKeyed_eq (es : List (String × Expr)) : ofKeyed env es = ofExprs env (es.map Prod.snd) := by
  induction es with
  | nil => rfl
  | cons entry rest ih => simp [ofKeyed, ofExprs, ih]

theorem ofOption_eq (e : Option Expr) : ofOption env e = ofExprs env e.toList := by
  cases e <;> simp [ofOption, ofExprs]

theorem ofExpr_eq_ofExprs {e : Expr} (parts : e.onlyParts = true) : ofExpr env e = ofExprs env e.children := by
  cases e with
  | var | comprehension => cases parts
  | _ =>
    simp only [Expr.children, ofExprs, ofExprs_append, ← ofKeyed_eq, ← ofOption_eq, bind_assoc, pure_bind, bind_pure,
      append_nil, ← append_assoc]
    rfl

end Exprs

/-- The walk through expressions, one after the other, in an environment. -/
inductive ExprsWalk : Env → List Expr → List Record → Prop where
  | nil {env : Env} : ExprsWalk env [] []
  | append {env : Env} {es others} {first later : List Record} (early : ExprsWalk env es first)
    (late : ExprsWalk env others later) : ExprsWalk env (es ++ others) (first ++ later)
  | var {env : Env} {node name} (held : env.contains name = true) : ExprsWalk env [.var node name] []
  | parts {env : Env} {e} {inner : List Record} (parts : e.onlyParts = true) (inside : ExprsWalk env e.children inner) :
    ExprsWalk env [e] inner
  | comprehension {env : Env} {node targets iterables elt} {outer inner : List Record}
    (rows : ExprsWalk env iterables outer)
    (inside : ExprsWalk (bound ⟨.comprehension, node.id⟩ (Binder.namesAll targets) env) [elt] inner) :
    ExprsWalk env [.comprehension node targets iterables elt]
      (outer ++ made ⟨.comprehension, node.id⟩ (Binder.namesAll targets) env ++ inner)

variable {env : Env} {records : List Record} {n : Name} {names : List Name} {site : Site} {slot : Nat} {es : List Expr}
  {after : Env} {notes : Notes} {b : Block}

theorem walk_of_row (walked : ofExprs env es = .ok records)
    (each : ∀ e ∈ es, ∀ own, ofExpr env e = .ok own → ExprsWalk env [e] own) : ExprsWalk env es records := by
  induction es generalizing records with
  | nil =>
    cases walked
    exact .nil
  | cons e rest ih =>
    simp only [ofExprs, bind_ok] at walked
    obtain ⟨own, head, others, tail, result⟩ := walked
    cases result
    have first : ExprsWalk env [e] own := each e mem_cons_self own head
    exact first.append (ih tail fun part mem => each part (mem_cons_of_mem _ mem))

theorem walk_of_expr (e : Expr) : ofExpr env e = .ok records → ExprsWalk env [e] records := by
  induction e using Expr.byChildren generalizing env records with
  | step e ih =>
    intro walked
    cases e with
    | var node name =>
      by_cases held : env.contains name = true
      · cases (if_pos held).symm.trans walked
        exact .var held
      · cases (if_neg held).symm.trans walked
    | comprehension node targets iterables elt =>
      obtain ⟨outer, first, walked⟩ := bind_ok.mp walked
      obtain ⟨⟨⟩, _, walked⟩ := bind_ok.mp walked
      obtain ⟨inner, last, ⟨⟩⟩ := bind_ok.mp walked
      refine .comprehension (walk_of_row first fun e listed own => ih e (mem_append_left _ listed)) ?_
      exact ih elt (mem_append_right _ mem_cons_self) last
    | _ =>
      rw [ofExpr_eq_ofExprs rfl] at walked
      exact .parts rfl (walk_of_row walked fun e listed own => ih e listed)

theorem walk_of_exprs (walked : ofExprs env es = .ok records) : ExprsWalk env es records :=
  walk_of_row walked fun e _ _ => walk_of_expr e

/-- The environment in which a statement evaluates its expressions. -/
def evalEnv (env : Env) : Stmt → Env
  | .loop node _ body => loopHead node.id body.assigned env
  | _ => env

/-- The environment in which a statement binds its names. -/
def headEnv (env : Env) : Stmt → Env
  | .loop node _ body => loopHead node.id body.assigned env
  | .each node target _ body => loopHead node.id (body.assigned ∪ OrdSet.ofList target.names) env
  | _ => env

/-- The environment at the start of the blocks of a statement. -/
def startEnv (env : Env) (s : Stmt) : Env := bound ⟨.stmt, s.id⟩ s.binds (headEnv env s)

/-- The environment after a statement, from those at the ends of its blocks. -/
def outEnv (env : Env) : Stmt → List Env → Env
  | .when node .., [out] => env.mapValues (guardedPlace node.id out)
  | .branch node .., [left, right] => branchEnv node.id left right
  | .scope .., [out] => out
  | s@(.loop ..), _ | s@(.each ..), _ => headEnv env s
  | s, _ => startEnv env s

/-- The joins at a statement of what meets there. -/
def joinsOf (env : Env) : Stmt → List Env → List Record
  | .when node .., [out] => guardedJoins node.id env out
  | .branch node .., [left, right] => branchJoins node.id left right
  | .loop node _ body, [out] => loopJoins node.id body.assigned env out
  | .each node target _ body, [out] => loopJoins node.id (body.assigned ∪ OrdSet.ofList target.names) env out
  | _, _ => []

mutual

/-- The walk through a statement, from the environment before it to the one after it. It is seen as what it evaluates,
the names that it binds, the blocks in it and the joins of what meets there. -/
inductive StmtWalk : Env → Stmt → Env → Notes → Prop where
  | stmt {env after : Env} {s : Stmt} {notes inner : Notes} {outs : List Env} {records : List Record}
    (held : ∀ n ∈ s.reads, (evalEnv env s).contains n = true) (reads : ofExprs (evalEnv env s) s.exprs = .ok records)
    (arms : ArmsWalk (startEnv env s) s.blocks outs inner) (out : after = outEnv env s outs)
    (whole : notes = .around s.id env after ({ records := records ++ made ⟨.stmt, s.id⟩ s.binds (headEnv env s) } ++
      inner ++ { records := joinsOf env s outs })) : StmtWalk env s after notes

/-- The walk through the blocks of a statement. -/
inductive ArmsWalk : Env → List Block → List Env → Notes → Prop where
  | nil {env : Env} : ArmsWalk env [] [] {}
  | cons {env out : Env} {outs : List Env} {b : Block} {blocks : List Block} {notes others : Notes}
    (walk : BlockWalk env b out notes) (tail : ArmsWalk env blocks outs others) :
    ArmsWalk env (b :: blocks) (out :: outs) (notes ++ others)

inductive BlockWalk : Env → Block → Env → Notes → Prop where
  | block {env after : Env} {b : Block} {notes : Notes} (inside : StmtsWalk env b.stmts after notes) :
    BlockWalk env b after (notes ++ { blocks := [(b.id, ⟨env, after⟩)] })

inductive StmtsWalk : Env → List Stmt → Env → Notes → Prop where
  | nil {env : Env} : StmtsWalk env [] env {}
  | cons {env middle after : Env} {s rest} {first others : Notes} (head : StmtWalk env s middle first)
    (tail : StmtsWalk middle rest after others) : StmtsWalk env (s :: rest) after (first ++ others)

end

@[simp] theorem Notes.append_nil (a : Notes) : a ++ ({} : Notes) = a := by
  show Notes.mk _ _ _ = a
  simp

theorem Notes.append_assoc (a b c : Notes) : a ++ b ++ c = a ++ (b ++ c) := by
  show Notes.mk _ _ _ = Notes.mk _ _ _
  simp

/-- What is checked of a statement before its expressions. -/
def checkFirst (env : Env) : Stmt → Except Error Unit
  | .store node name .. => if !env.contains name then throw (.undefinedName name node.id) else pure ()
  | _ => pure ()

/-- What is checked of a statement after its expressions. -/
def checkTarget : Stmt → Except Error Unit
  | .assign node target _ value => do
    checkDistinct node.id target
    checkArity node.id target value
  | .each node target .. => checkDistinct node.id target
  | _ => pure ()

def ofBlocks (env : Env) : List Block → Except Error (List Env × Notes)
  | [] => return ([], {})
  | b :: rest => do
    let (out, notes) ← ofBlock env b
    let (outs, others) ← ofBlocks env rest
    return (out :: outs, notes ++ others)

theorem ofStmt_eq (s : Stmt) : ofStmt env s = do
    checkFirst env s
    let records ← ofExprs (evalEnv env s) s.exprs
    checkTarget s
    let (outs, inner) ← ofBlocks (startEnv env s) s.blocks
    return noteStmt s.id env (outEnv env s outs) ({ records := records ++ made ⟨.stmt, s.id⟩ s.binds (headEnv env s) } ++
      inner ++ { records := joinsOf env s outs }) := by
  cases s <;> simp only [ofStmt, checkFirst, checkTarget, ofBlocks, evalEnv, startEnv, outEnv, headEnv, joinsOf, made,
    bound, Stmt.exprs, Stmt.blocks, Stmt.binds, bindNames, Stmt.id, Stmt.node, ofExprs, ofExprs_append, ofOption_eq,
    bind_assoc, pure_bind, append_nil, Notes.append_nil, Notes.append_assoc, append_assoc]
  split <;> rfl

theorem ofBlock_eq (b : Block) : ofBlock env b = do
    let (after, notes) ← ofStmts env b.stmts
    return (after, notes ++ { blocks := [(b.id, ⟨env, after⟩)] }) := by
  cases b
  rw [ofBlock]

section Inversion

variable {stmts : List Stmt} {blocks : List Block} {outs : List Env}

def Inverts (s : Stmt) : Prop :=
  ∀ {env after : Env} {notes : Notes}, ofStmt env s = .ok (after, notes) → StmtWalk env s after notes

theorem walk_of_each (each : ∀ s ∈ stmts, Inverts s) (walked : ofStmts env stmts = .ok (after, notes)) :
    StmtsWalk env stmts after notes := by
  induction stmts generalizing env after notes with
  | nil =>
    cases walked
    exact .nil
  | cons s rest ih =>
    obtain ⟨here, later⟩ := forall_mem_cons.mp each
    simp only [ofStmts, bind_ok] at walked
    obtain ⟨_, head, _, tail, ⟨⟩⟩ := walked
    exact .cons (here head) (ih later tail)

theorem walk_of_arms (each : ∀ b ∈ blocks, ∀ s ∈ b.stmts, Inverts s) (walked : ofBlocks env blocks = .ok (outs, notes)) :
    ArmsWalk env blocks outs notes := by
  induction blocks generalizing outs notes with
  | nil =>
    cases walked
    exact .nil
  | cons b rest ih =>
    obtain ⟨first, later⟩ := forall_mem_cons.mp each
    simp only [ofBlocks, ofBlock_eq, bind_ok] at walked
    obtain ⟨_, ⟨_, inside, ⟨⟩⟩, _, tail, ⟨⟩⟩ := walked
    exact .cons (.block (walk_of_each first inside)) (ih later tail)

theorem walk_of_stmt (s : Stmt) : Inverts s := by
  induction s using Stmt.byParts with
  | step s ih =>
    intro env after notes walked
    simp only [ofStmt_eq, bind_ok] at walked
    obtain ⟨⟨⟩, first, records, reads, ⟨⟩, _, ⟨outs, inner⟩, arms, ⟨⟩⟩ := walked
    refine .stmt (fun n read => ?_) reads (walk_of_arms ih arms) rfl rfl
    cases s with
    | store =>
      cases mem_singleton.mp read
      cases held : env.contains n with
      | true => exact held
      | false =>
        rw [checkFirst, held] at first
        cases first
    | _ => cases read

theorem walk_of_block (b : Block) (walked : ofBlock env b = .ok (after, notes)) : BlockWalk env b after notes := by
  simp only [ofBlock_eq, bind_ok] at walked
  obtain ⟨_, inside, ⟨⟩⟩ := walked
  exact .block (walk_of_each (fun s _ => walk_of_stmt s) inside)

end Inversion

/-- Everything noted on the left is noted on the right. -/
structure Notes.Within (a b : Notes) : Prop where
  records : ∀ record ∈ a.records, record ∈ b.records
  stmts : ∀ entry ∈ a.stmts, entry ∈ b.stmts
  blocks : ∀ entry ∈ a.blocks, entry ∈ b.blocks

namespace Notes.Within

variable {a : Notes}

theorem refl (a : Notes) : a.Within a := ⟨fun _ => id, fun _ => id, fun _ => id⟩

theorem trans {b c : Notes} (first : a.Within b) (second : b.Within c) : a.Within c :=
  ⟨fun record mem => second.records record (first.records record mem),
    fun entry mem => second.stmts entry (first.stmts entry mem),
    fun entry mem => second.blocks entry (first.blocks entry mem)⟩

theorem left (a b : Notes) : a.Within (a ++ b) :=
  ⟨fun _ => mem_append_left _, fun _ => mem_append_left _, fun _ => mem_append_left _⟩

theorem right (a b : Notes) : b.Within (a ++ b) :=
  ⟨fun _ => mem_append_right _, fun _ => mem_append_right _, fun _ => mem_append_right _⟩

theorem around (id : NodeId) (before after : Env) (inside : Notes) : inside.Within (.around id before after inside) :=
  left inside _

theorem middle (id : NodeId) (before after : Env) (a b c : Notes) : b.Within (.around id before after (a ++ b ++ c)) :=
  ((right a b).trans (left _ c)).trans (around ..)

theorem first (id : NodeId) (before after : Env) (a b c d : Notes) :
    b.Within (.around id before after (a ++ (b ++ c) ++ d)) :=
  (left b c).trans (middle ..)

theorem joins {id : NodeId} {before after : Env}
    (within : (Notes.around id before after (a ++ { records := records })).Within notes) :
    ∀ r ∈ records, r ∈ notes.records := by
  intro r mem
  refine within.records r ?_
  rw [records_around]
  exact mem_append_right _ mem

end Notes.Within

theorem StmtWalk.noted {s : Stmt} (walk : StmtWalk env s after notes) : (s.id, ⟨env, after⟩) ∈ notes.stmts := by
  obtain ⟨_, _, _, _, rfl⟩ := walk
  exact mem_append_right _ mem_cons_self

theorem BlockWalk.noted (walk : BlockWalk env b after notes) : (b.id, ⟨env, after⟩) ∈ notes.blocks := by
  cases walk
  exact mem_append_right _ mem_cons_self

theorem get?_bindNames_of_notMem (absent : n ∉ names) : (bindNames site slot names env).1.get? n = env.get? n := by
  induction names generalizing slot env with
  | nil => rfl
  | cons first rest ih =>
    simp only [mem_cons, not_or] at absent
    simp [bindNames, ih absent.2, absent.1]

theorem isSome_get?_bindNames (present : (env.get? n).isSome = true) :
    ((bindNames site slot names env).1.get? n).isSome = true := by
  induction names generalizing slot env with
  | nil => exact present
  | cons first rest ih =>
    refine ih ?_
    rw [OrdMap.get?_insert]
    split
    · rfl
    · exact present

theorem bindNames_cases (found : (bindNames site slot names env).1.get? n = some p) :
    (n ∉ names ∧ env.get? n = some p) ∨ ∃ i, names[i]? = some n ∧ p = .binder site.node (slot + i) := by
  induction names generalizing slot env with
  | nil => exact .inl ⟨not_mem_nil, found⟩
  | cons first rest ih =>
    rcases ih found with ⟨absent, earlier⟩ | ⟨i, named, rfl⟩
    · rw [OrdMap.get?_insert] at earlier
      split at earlier
      · rename_i same
        cases earlier
        exact .inr ⟨0, by rw [same]; rfl, rfl⟩
      · rename_i differ
        exact .inl ⟨fun mem => (mem_cons.mp mem).elim differ absent, earlier⟩
    · refine .inr ⟨i + 1, named, ?_⟩
      rw [Nat.add_right_comm, Nat.add_assoc]

/-- Names other than those given keep their definitions, and no name loses its definition. -/
structure Keeps (names : List Name) (env after : Env) : Prop where
  same : ∀ n, n ∉ names → after.get? n = env.get? n
  held : ∀ n, (env.get? n).isSome = true → (after.get? n).isSome = true

namespace Keeps

variable {first : List Name}

theorem refl (names : List Name) (env : Env) : Keeps names env env := ⟨fun _ _ => rfl, fun _ => id⟩

theorem trans {others : List Name} {middle after : Env} (head : Keeps first env middle)
    (tail : Keeps others middle after) : Keeps (first ++ others) env after := by
  refine ⟨?_, fun n present => tail.held n (head.held n present)⟩
  intro n absent
  simp only [mem_append, not_or] at absent
  rw [tail.same n absent.2, head.same n absent.1]

theorem bound (site : Site) (names : List Name) (env : Env) : Keeps names env (bound site names env) :=
  ⟨fun _ => get?_bindNames_of_notMem, fun _ => isSome_get?_bindNames⟩

theorem loopHead (site : NodeId) (env : Env) (covered : ∀ n ∈ carried, n ∈ names) :
    Keeps names env (loopHead site carried env) := by
  constructor
  · intro n absent
    have outside : n ∉ carried := fun mem => absent (covered n mem)
    simp [Flow.loopHead, outside]
  · intro n present
    simpa [Flow.loopHead] using present

theorem guarded {site : NodeId} (inside : Keeps names env bodyOut) :
    Keeps names env (env.mapValues (guardedPlace site bodyOut)) := by
  constructor
  · intro n absent
    cases found : env.get? n with
    | none => simp [found]
    | some p => simp [found, guardedPlace, inside.same n absent]
  · intro n present
    simpa using present

theorem branch {site : NodeId} (left : Keeps first env iftOut) (right : Keeps second env iffOut) :
    Keeps (first ++ second) env (branchEnv site iftOut iffOut) := by
  constructor
  · intro n absent
    simp only [mem_append, not_or] at absent
    rw [branchEnv, OrdMap.get?_filterMap, left.same n absent.1, right.same n absent.2]
    cases env.get? n <;> simp
  · intro n present
    obtain ⟨p, leftFound⟩ := isSome_iff_exists.mp (left.held n present)
    obtain ⟨q, rightFound⟩ := isSome_iff_exists.mp (right.held n present)
    simp [branchEnv, OrdMap.get?_filterMap, leftFound, rightFound]

end Keeps

theorem mem_assigned : n ∈ b.assigned ↔ n ∈ b.all.flatMap Stmt.binds :=
  mem_ofList

/-- A statement keeps the names that neither it nor its blocks bind. -/
theorem keeps_outEnv {s : Stmt}
    (inner : Forall₂ (fun b out => Keeps (b.all.flatMap Stmt.binds) (startEnv env s) out) s.blocks outs) :
    Keeps (s.all.flatMap Stmt.binds) env (outEnv env s outs) := by
  cases s with
  | assign | store => exact (Keeps.bound _ _ env).trans (.refl [] _)
  | when =>
    obtain _ | ⟨inside, _ | _⟩ := inner
    exact inside.guarded
  | branch =>
    obtain _ | ⟨left, _ | ⟨right, _ | _⟩⟩ := inner
    simp only [Stmt.all, Stmt.binds, flatMap_cons, flatMap_append, nil_append]
    exact left.branch right
  | loop => exact .loopHead _ env fun n => mem_assigned.mp
  | each =>
    refine .loopHead _ env fun n mem => ?_
    rcases mem_union.mp mem with mem | mem
    · exact mem_append_right _ (mem_assigned.mp mem)
    · exact mem_append_left _ (mem_ofList.mp mem)
  | scope =>
    obtain _ | ⟨inside, _ | _⟩ := inner
    exact (Keeps.bound _ _ env).trans inside
  | assert | effect | ret | skip => exact .refl _ env

mutual

theorem ArmsWalk.keeps {env : Env} {blocks : List Block} {outs : List Env} {notes : Notes} :
    ArmsWalk env blocks outs notes → Forall₂ (fun b out => Keeps (b.all.flatMap Stmt.binds) env out) blocks outs
  | .nil => .nil
  | .cons (.block inside) tail => .cons (Block.all_eq _ ▸ inside.keeps) tail.keeps

theorem StmtsWalk.keeps {env after : Env} {stmts : List Stmt} {notes : Notes} : StmtsWalk env stmts after notes →
    Keeps ((Stmt.allOf stmts).flatMap Stmt.binds) env after
  | .nil => .refl _ _
  | .cons (.stmt _ _ arms out _) tail => by
    rw [Stmt.allOf, flatMap_append]
    exact (keeps_outEnv arms.keeps).trans (out ▸ tail.keeps)

end

theorem BlockWalk.single (walk : BlockWalk env b after notes) : ArmsWalk env [b] [after] notes :=
  Notes.append_nil notes ▸ .cons walk .nil

theorem StmtWalk.keeps {s : Stmt} (walk : StmtWalk env s after notes) : Keeps (s.all.flatMap Stmt.binds) env after := by
  obtain ⟨_, _, arms, rfl, _⟩ := walk
  exact keeps_outEnv arms.keeps

theorem BlockWalk.keeps (walk : BlockWalk env b after notes) : Keeps (b.all.flatMap Stmt.binds) env after := by
  obtain ⟨inside⟩ := walk
  exact b.all_eq ▸ inside.keeps

end Flow

end NumLang

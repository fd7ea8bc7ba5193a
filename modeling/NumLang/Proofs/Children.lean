import Mathlib.Data.List.Forall2
import NumLang.Tree.Basic

/-!
Expressions by what is directly below them: all expressions in an expression, and induction.
-/

namespace NumLang

export List (mem_cons_self mem_cons_of_mem mem_append_left mem_append_right forall_mem_nil forall_mem_cons mem_cons
  forall_mem_append mem_append forall_mem_singleton flatMap_cons mem_flatMap singleton_append nodup_cons map_append
  append_assoc count_append nil_append cons_append nodup_append count_cons flatMap_append map_cons mem_of_getElem?
  flatMap_nil mem_map_of_mem sublist_append_right cons_ne_nil nodup_iff_count mem_singleton append_nil mem_map
  mem_filter Forall₂ rel_append count_nil mapM_cons mem_of_find?_eq_some not_mem_nil map_fst_zip map_nil length_map
  flatMap_singleton length_cons append_inj filterMap_cons filter_append nil_subset find?_some getElem?_map
  forall₂_cons append_subset map_flatMap length_append count_eq_zero all_eq_true)

export OrdSet (mem_union mem_ofList mem_diff mem_inter)

export Option (bind_eq_some_iff map_eq_some_iff isSome_iff_exists getD_some bind_some map_some)

namespace Expr

def onlyParts : Expr → Bool
  | .var .. | .comprehension .. => false
  | _ => true

variable {P : Expr → Prop}

theorem allOf_eq (es : List Expr) : allOf es = es.flatMap all := by
  induction es with
  | nil => rfl
  | cons e rest ih => rw [allOf, ih, flatMap_cons]

theorem allOf_append (first others : List Expr) : allOf (first ++ others) = allOf first ++ allOf others := by
  simp [allOf_eq]

theorem allOfKeyed_eq (es : List (String × Expr)) : allOfKeyed es = allOf (es.map Prod.snd) := by
  induction es with
  | nil => rfl
  | cons entry rest ih => simp [allOfKeyed, allOf, ih]

theorem allOfOption_eq (e : Option Expr) : allOfOption e = allOf e.toList := by
  cases e <;> simp [allOfOption, allOf]

theorem mem_allOf_iff : part ∈ allOf es ↔ ∃ e ∈ es, part ∈ e.all := by
  simp [allOf_eq]

theorem all_eq (e : Expr) : e.all = e :: allOf e.children := by
  cases e <;> simp only [children, allOf, allOf_append, ← allOfKeyed_eq, ← allOfOption_eq, append_nil] <;> rfl

mutual

/-- What holds of an expression whenever it holds of its children holds of all expressions. -/
theorem byChildren (step : ∀ e, (∀ part ∈ e.children, P part) → P e) : (e : Expr) → P e
  | .var .. | .lit .. | .const .. => step _ nofun
  | .unary _ _ _ x => step _ (by simpa [children] using byChildren step x)
  | .binary _ _ _ x y | .index _ x y => step _ (by simpa [children] using ⟨byChildren step x, byChildren step y⟩)
  | .ternary _ _ _ x y z | .cond _ x y z =>
    step _ (by simpa [children] using ⟨byChildren step x, byChildren step y, byChildren step z⟩)
  | .nary _ _ _ args | .compare _ _ args | .tuple _ args | .list _ args => step _ (byChildrenAll step args)
  | .call _ _ _ args kwargs | .context _ _ args kwargs =>
    step _ (List.forall_mem_append.mpr ⟨byChildrenAll step args, byChildrenKeyed step kwargs⟩)
  | .comprehension _ _ iterables elt =>
    step _ (List.forall_mem_append.mpr
      ⟨byChildrenAll step iterables, List.forall_mem_singleton.mpr (byChildren step elt)⟩)
  | .slice _ value start stop =>
    step _ (List.forall_mem_cons.mpr ⟨byChildren step value,
      List.forall_mem_append.mpr ⟨byChildrenOption step start, byChildrenOption step stop⟩⟩)
  | .update _ value path elt =>
    step _ (List.forall_mem_cons.mpr ⟨byChildren step value, List.forall_mem_append.mpr
      ⟨byChildrenAll step path, List.forall_mem_singleton.mpr (byChildren step elt)⟩⟩)

theorem byChildrenAll (step : ∀ e, (∀ part ∈ e.children, P part) → P e) : (es : List Expr) → ∀ e ∈ es, P e
  | [] => nofun
  | e :: rest => List.forall_mem_cons.mpr ⟨byChildren step e, byChildrenAll step rest⟩

theorem byChildrenKeyed (step : ∀ e, (∀ part ∈ e.children, P part) → P e) :
    (es : List (String × Expr)) → ∀ e ∈ es.map Prod.snd, P e
  | [] => nofun
  | (_, e) :: rest => List.forall_mem_cons.mpr ⟨byChildren step e, byChildrenKeyed step rest⟩

theorem byChildrenOption (step : ∀ e, (∀ part ∈ e.children, P part) → P e) :
    (e : Option Expr) → ∀ part ∈ e.toList, P part
  | none => nofun
  | some e => List.forall_mem_singleton.mpr (byChildren step e)

end

end Expr

theorem Stmt.mem_all (s : Stmt) : s ∈ s.all := by
  cases s <;> exact List.mem_cons_self

theorem Block.all_eq (b : Block) : b.all = Stmt.allOf b.stmts := by
  cases b
  rfl

theorem Stmt.all_eq (s : Stmt) : s.all = s :: s.blocks.flatMap Block.all := by
  cases s <;> simp only [Stmt.blocks, flatMap_cons, flatMap_nil, append_nil] <;> rfl

theorem Stmt.allBlocks_eq (s : Stmt) : s.allBlocks = s.blocks.flatMap Block.allBlocks := by
  cases s <;> simp only [blocks, flatMap_cons, flatMap_nil, append_nil] <;> rfl

theorem Block.allBlocks_eq (b : Block) : b.allBlocks = b :: Stmt.allBlocksOf b.stmts := by
  cases b
  rfl

theorem Block.mem_allBlocks (b : Block) : b ∈ b.allBlocks := by
  rw [b.allBlocks_eq]
  exact mem_cons_self

namespace Stmt

variable {part : Stmt} {stmts : List Stmt}

theorem allOf_eq (stmts : List Stmt) : allOf stmts = stmts.flatMap all := by
  induction stmts with
  | nil => rfl
  | cons s rest ih => rw [allOf, ih, flatMap_cons]

theorem allBlocksOf_eq (stmts : List Stmt) : allBlocksOf stmts = stmts.flatMap allBlocks := by
  induction stmts with
  | nil => rfl
  | cons s rest ih => rw [allBlocksOf, ih, flatMap_cons]

theorem allOf_append (stmts others : List Stmt) : allOf (stmts ++ others) = allOf stmts ++ allOf others := by
  simp [allOf_eq]

theorem mem_allOf_iff : part ∈ allOf stmts ↔ ∃ s ∈ stmts, part ∈ s.all := by simp [allOf_eq]

theorem mem_allOf (mem : s ∈ stmts) : s ∈ allOf stmts := mem_allOf_iff.mpr ⟨s, mem, s.mem_all⟩

variable {P : List Stmt → Prop}

mutual

theorem byBlocks (nil : P []) (cons : ∀ s rest, P [s] → P rest → P (s :: rest))
    (step : ∀ s, (∀ b ∈ s.blocks, P b.stmts) → P [s]) : (stmts : List Stmt) → P stmts
  | [] => nil
  | s :: rest => cons s rest (step s (byBlocksIn nil cons step s)) (byBlocks nil cons step rest)

theorem byBlocksIn (nil : P []) (cons : ∀ s rest, P [s] → P rest → P (s :: rest))
    (step : ∀ s, (∀ b ∈ s.blocks, P b.stmts) → P [s]) : (s : Stmt) → ∀ b ∈ s.blocks, P b.stmts
  | .when _ _ ⟨_, stmts⟩ | .loop _ _ ⟨_, stmts⟩ | .each _ _ _ ⟨_, stmts⟩ | .scope _ _ _ ⟨_, stmts⟩ =>
    List.forall_mem_singleton.mpr (byBlocks nil cons step stmts)
  | .branch _ _ ⟨_, first⟩ ⟨_, second⟩ =>
    List.forall_mem_cons.mpr ⟨byBlocks nil cons step first, List.forall_mem_singleton.mpr (byBlocks nil cons step second)⟩
  | .assign .. | .store .. | .assert .. | .effect .. | .ret .. | .skip .. => nofun

end

/-- What holds of a statement whenever it holds of the statements in its blocks holds of all statements. -/
theorem byParts {P : Stmt → Prop} (step : ∀ s, (∀ b ∈ s.blocks, ∀ part ∈ b.stmts, P part) → P s) (s : Stmt) : P s := by
  have all : ∀ stmts : List Stmt, ∀ s ∈ stmts, P s := byBlocks nofun
    (fun _ _ first later => List.forall_mem_cons.mpr ⟨first _ List.mem_cons_self, later⟩)
    fun s inside => List.forall_mem_singleton.mpr (step s inside)
  exact all [s] s List.mem_cons_self

end Stmt

/-- Statements and blocks, with all that is in them. -/
structure Closed (stmts : List Stmt) (blocks : List Block) : Prop where
  inner : ∀ s ∈ stmts, ∀ b ∈ s.blocks, b ∈ blocks
  rows : ∀ b ∈ blocks, ∀ s ∈ b.stmts, s ∈ stmts

namespace Closed

theorem flatMap {α : Type} {l : List α} {f : α → List Stmt} {g : α → List Block}
    (each : ∀ a ∈ l, Closed (f a) (g a)) : Closed (l.flatMap f) (l.flatMap g) := by
  constructor
  · intro s mem b inside
    obtain ⟨a, listed, mem⟩ := mem_flatMap.mp mem
    exact mem_flatMap.mpr ⟨a, listed, (each a listed).inner s mem b inside⟩
  · intro b mem s row
    obtain ⟨a, listed, mem⟩ := mem_flatMap.mp mem
    exact mem_flatMap.mpr ⟨a, listed, (each a listed).rows b mem s row⟩

theorem block {b : Block} (each : ∀ s ∈ b.stmts, Closed s.all s.allBlocks) : Closed b.all b.allBlocks := by
  obtain ⟨inner, rows⟩ := flatMap each
  rw [b.all_eq, b.allBlocks_eq, Stmt.allOf_eq, Stmt.allBlocksOf_eq]
  exact ⟨fun s mem b inside => mem_cons_of_mem _ (inner s mem b inside),
    forall_mem_cons.mpr ⟨fun s mem => mem_flatMap.mpr ⟨s, mem, s.mem_all⟩, rows⟩⟩

end Closed

theorem Stmt.closed (s : Stmt) : Closed s.all s.allBlocks := by
  induction s using byParts with
  | step s ih =>
    obtain ⟨inner, rows⟩ := Closed.flatMap fun b mem => Closed.block (ih b mem)
    rw [s.all_eq, s.allBlocks_eq]
    exact ⟨forall_mem_cons.mpr ⟨fun b mem => mem_flatMap.mpr ⟨b, mem, b.mem_allBlocks⟩, inner⟩,
      fun b mem s row => mem_cons_of_mem _ (rows b mem s row)⟩

theorem Block.closed (b : Block) : Closed b.all b.allBlocks := .block fun s _ => s.closed

end NumLang

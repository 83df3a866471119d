import Mathlib
import HostScript.Proofs.Program.Scoped
import HostScript.Proofs.Script.Consumed

/-!
# The constants of a program

The numbers in the tree of a script are those that its tokens are read as (`ofSource_numbersIn`), and resolving a script makes no
constants but the ones that stand in it and null (`Literals.ofModule_constantsIn`).
-/

namespace HostScript

namespace Script

/-! ## Numbers in trees -/

mutual

/-- All numbers in an expression are of a class. -/
def Expr.NumbersIn (P : Number → Prop) : Expr → Prop
  | .number _ n => P n
  | .null _ | .bool _ _ | .string _ _ | .rawString _ _ | .var _ _ => True
  | .array _ items => Expr.AllNumbersIn P items
  | .object _ fields => Expr.FieldNumbersIn P fields
  | .call _ callee args => callee.NumbersIn P ∧ Expr.AllNumbersIn P args
  | .unary _ _ operand => operand.NumbersIn P
  | .member _ base _ => base.NumbersIn P
  | .index _ base key => base.NumbersIn P ∧ key.NumbersIn P
  | .binary _ _ left right => left.NumbersIn P ∧ right.NumbersIn P

/-- All numbers in expressions are. -/
def Expr.AllNumbersIn (P : Number → Prop) : List Expr → Prop
  | [] => True
  | e :: rest => e.NumbersIn P ∧ Expr.AllNumbersIn P rest

/-- All numbers in the fields of an object are. -/
def Expr.FieldNumbersIn (P : Number → Prop) : List (Span × Expr × Expr) → Prop
  | [] => True
  | (_, key, value) :: rest => (key.NumbersIn P ∧ value.NumbersIn P) ∧ Expr.FieldNumbersIn P rest

end

mutual

/-- All numbers in a statement are of a class. -/
def Stmt.NumbersIn (P : Number → Prop) : Stmt → Prop
  | .let_ _ _ value => value.NumbersIn P
  | .assign _ target value => target.NumbersIn P ∧ value.NumbersIn P
  | .function _ _ _ body => body.NumbersIn P
  | .if_ _ cond body otherwise => cond.NumbersIn P ∧ body.NumbersIn P ∧ otherwise.NumbersIn P
  | .while_ _ cond body => cond.NumbersIn P ∧ body.NumbersIn P
  | .return_ _ none => True
  | .return_ _ (some value) => value.NumbersIn P
  | .break_ _ | .continue_ _ => True
  | .block body => body.NumbersIn P
  | .expr _ e => e.NumbersIn P

/-- All numbers in a block are. -/
def Block.NumbersIn (P : Number → Prop) : Block → Prop
  | .mk _ stmts => Stmt.AllNumbersIn P stmts

/-- All numbers in what follows the block of an `if` are. -/
def Otherwise.NumbersIn (P : Number → Prop) : Otherwise → Prop
  | .nothing => True
  | .block body => body.NumbersIn P
  | .elseIf _ cond body otherwise => cond.NumbersIn P ∧ body.NumbersIn P ∧ otherwise.NumbersIn P

/-- All numbers in statements are. -/
def Stmt.AllNumbersIn (P : Number → Prop) : List Stmt → Prop
  | [] => True
  | s :: rest => s.NumbersIn P ∧ Stmt.AllNumbersIn P rest

end

variable {P : Number → Prop}

/-- A number that a token is read as is one that is read from a text. -/
theorem atom_numbersIn (hP : ∀ text n, Number.ofText? text = some n → P n) {token : Token} {e : Expr} (h : atom? token = some e) :
    e.NumbersIn P := by
  unfold atom? at h
  cases hkind : token.kind with
  | number =>
    rw [hkind] at h
    obtain ⟨n, hn, rfl⟩ := Option.map_eq_some_iff.mp h
    exact hP _ n hn
  | string =>
    rw [hkind] at h
    obtain ⟨text, -, rfl⟩ := Option.map_eq_some_iff.mp h
    trivial
  | rawString =>
    rw [hkind] at h
    obtain rfl := Option.some.inj h
    trivial
  | ident =>
    rw [hkind] at h
    dsimp only at h
    split at h
    · obtain rfl := Option.some.inj h
      trivial
    · split at h
      · obtain rfl := Option.some.inj h
        trivial
      · split at h
        · obtain rfl := Option.some.inj h
          trivial
        · obtain ⟨name, -, rfl⟩ := Option.map_eq_some_iff.mp h
          trivial
  | symbol =>
    rw [hkind] at h
    nomatch h

/-- All numbers in the expression that a phrase goes on from are of a class. -/
def Phrase.NumbersIn (P : Number → Prop) : Phrase → Prop
  | .operators _ left => left.NumbersIn P
  | .suffixes base => base.NumbersIn P
  | .args callee => callee.NumbersIn P
  | _ => True

/-- The numbers in an expression are read from its tokens. -/
theorem Reads.numbersIn (hP : ∀ text n, Number.ofText? text = some n → P n) {phrase : Phrase} {row rest : List Token} {e : Expr}
    (h : Reads phrase row e rest) (hphrase : phrase.NumbersIn P) : e.NumbersIn P := by
  induction h with
  | level _ _ _ ihOperand ihMore => exact ihMore (ihOperand trivial)
  | operand _ _ ih => exact ih trivial
  | operatorsDone _ => exact hphrase
  | operatorsMore _ _ _ ihOperand ihMore => exact ihMore ⟨hphrase, ihOperand trivial⟩
  | prefixed _ _ ih => exact ih trivial
  | suffixed _ _ _ ihPrimary ihMore => exact ihMore (ihPrimary trivial)
  | arrayEmpty _ _ => trivial
  | array _ _ _ _ ihItem ihMore => exact ⟨ihItem trivial, ihMore trivial⟩
  | object _ _ ih => exact ih trivial
  | bracketed _ _ _ ih => exact ih trivial
  | atom hatom => exact atom_numbersIn hP hatom
  | itemsDone _ => trivial
  | itemsComma _ _ => trivial
  | itemsMore _ _ _ _ ihFirst ihMore => exact ⟨ihFirst trivial, ihMore trivial⟩
  | fieldsDone _ => trivial
  | fieldsLast _ _ _ _ _ ihNamed ihValued => exact ⟨⟨ihNamed trivial, ihValued trivial⟩, trivial⟩
  | fieldsMore _ _ _ _ _ _ ihNamed ihValued ihMore => exact ⟨⟨ihNamed trivial, ihValued trivial⟩, ihMore trivial⟩
  | keyName _ => trivial
  | keyExpr _ _ ih => exact ih trivial
  | suffixesDone _ => exact hphrase
  | member _ _ _ ih => exact ih hphrase
  | index _ _ _ _ ihInner ihMore => exact ihMore ⟨hphrase, ihInner trivial⟩
  | callEmpty _ _ _ ih => exact ih ⟨hphrase, trivial⟩
  | call _ _ _ _ _ ihArg ihOthers ihMore => exact ihMore ⟨hphrase, ihArg trivial, (ihOthers hphrase).2⟩
  | argsDone _ => exact ⟨hphrase, trivial⟩
  | argsMore _ _ _ ihFirst ihMore => exact ⟨hphrase, ihFirst trivial, (ihMore hphrase).2⟩

theorem ReadsCondition.numbersIn (hP : ∀ text n, Number.ofText? text = some n → P n) {row rest : List Token} {cond : Expr}
    (h : ReadsCondition row cond rest) : cond.NumbersIn P := by
  cases h with
  | mk _ inner _ => exact inner.numbersIn hP trivial

/-- The numbers in a statement are read from its tokens. -/
theorem ReadsStmt.numbersIn (hP : ∀ text n, Number.ofText? text = some n → P n) {passage : Passage} {row rest : List Token} {s : Stmt}
    (h : ReadsStmt passage row s rest) : s.NumbersIn P := by
  induction h with
  | let_ _ _ _ valued _ => exact valued.numbersIn hP trivial
  | function _ _ _ _ _ _ ih => exact ih
  | if_ _ asked _ _ _ ih => exact ⟨asked.numbersIn hP, ih, trivial⟩
  | ifElse _ asked _ _ _ _ _ _ ih ih' => exact ⟨asked.numbersIn hP, ih, ih'⟩
  | ifElseIf _ asked _ _ _ _ _ ih ih' => exact ⟨asked.numbersIn hP, ih, ih'⟩
  | while_ _ asked _ _ ih => exact ⟨asked.numbersIn hP, ih⟩
  | returnNothing _ _ => trivial
  | return_ _ valued _ _ => exact valued.numbersIn hP trivial
  | break_ _ _ => trivial
  | continue_ _ _ => trivial
  | block _ _ ih => exact ih
  | assign _ targeted _ _ valued _ => exact ⟨targeted.numbersIn hP trivial, valued.numbersIn hP trivial⟩
  | expr _ valued _ => exact valued.numbersIn hP trivial
  | bodyDone _ => trivial
  | bodyMore _ _ _ ihFirst ihMore => exact ⟨ihFirst, ihMore⟩

theorem ReadsStmts.numbersIn (hP : ∀ text n, Number.ofText? text = some n → P n) {row : List Token} {stmts : List Stmt}
    (h : ReadsStmts row stmts) : Stmt.AllNumbersIn P stmts := by
  induction h with
  | done => trivial
  | more first _ ih => exact ⟨first.numbersIn hP, ih⟩

/-- The numbers in a script are read from its tokens. -/
theorem ofSource_numbersIn (hP : ∀ text n, Number.ofText? text = some n → P n) {source : Source} {m : Module}
    (h : Module.ofSource source = .ok m) : Stmt.AllNumbersIn P m.stmts := by
  have hreads := Module.ofSource_reads h
  generalize source.scan.tokens = row at hreads
  cases hreads with
  | plain _ body => exact body.numbersIn hP
  | hosted _ _ _ _ _ body => exact body.numbersIn hP

end Script

namespace Program

open Script (Expr Stmt Otherwise Module)

/-! ## Constants in programs -/

mutual

/-- All constants in an expression are of a class. -/
def Expression.ConstantsIn (V : Value → Prop) : Expression → Prop
  | .const v => V v
  | .local_ _ _ | .exports => True
  | .array items => Expression.AllConstantsIn V items
  | .object fields => Expression.FieldConstantsIn V fields
  | .unary _ _ e | .member _ e _ | .output _ e | .input _ e => e.ConstantsIn V
  | .arith _ _ left right | .compare _ _ left right | .logic _ left right | .index _ left right =>
    left.ConstantsIn V ∧ right.ConstantsIn V
  | .call _ _ args | .builtin _ _ args => Expression.AllConstantsIn V args

/-- All constants in expressions are. -/
def Expression.AllConstantsIn (V : Value → Prop) : List Expression → Prop
  | [] => True
  | e :: rest => e.ConstantsIn V ∧ Expression.AllConstantsIn V rest

/-- All constants in the fields of an object are. -/
def Expression.FieldConstantsIn (V : Value → Prop) : List (Expression × Expression) → Prop
  | [] => True
  | (key, value) :: rest => (key.ConstantsIn V ∧ value.ConstantsIn V) ∧ Expression.FieldConstantsIn V rest

end

/-- All constants in the steps of a path are of a class. -/
def PathConstantsIn (V : Value → Prop) : List PathSegment → Prop
  | [] => True
  | .field _ :: rest => PathConstantsIn V rest
  | .index key :: rest => key.ConstantsIn V ∧ PathConstantsIn V rest

/-- All constants in the path of a place are. -/
def Place.ConstantsIn (V : Value → Prop) : Place → Prop
  | .local_ _ _ path | .exports _ path => PathConstantsIn V path

mutual

/-- All constants in a statement are of a class. -/
def Statement.ConstantsIn (V : Value → Prop) : Statement → Prop
  | .let_ _ value => value.ConstantsIn V
  | .assign target value => target.ConstantsIn V ∧ value.ConstantsIn V
  | .expr e => e.ConstantsIn V
  | .if_ cond body none => cond.ConstantsIn V ∧ body.ConstantsIn V
  | .if_ cond body (some otherwise) => cond.ConstantsIn V ∧ body.ConstantsIn V ∧ otherwise.ConstantsIn V
  | .while_ _ cond body => cond.ConstantsIn V ∧ body.ConstantsIn V
  | .return_ none | .break_ | .continue_ => True
  | .return_ (some e) => e.ConstantsIn V
  | .block body => body.ConstantsIn V

/-- All constants in a block and in the functions declared in it are. -/
def Block.ConstantsIn (V : Value → Prop) : Block → Prop
  | .mk _ functions stmts => Function.AllConstantsIn V functions ∧ Statement.AllConstantsIn V stmts

/-- All constants in a function are. -/
def Function.ConstantsIn (V : Value → Prop) : Function → Prop
  | .mk _ _ _ body => body.ConstantsIn V

/-- All constants in functions are. -/
def Function.AllConstantsIn (V : Value → Prop) : List Function → Prop
  | [] => True
  | f :: rest => f.ConstantsIn V ∧ Function.AllConstantsIn V rest

/-- All constants in statements are. -/
def Statement.AllConstantsIn (V : Value → Prop) : List Statement → Prop
  | [] => True
  | s :: rest => s.ConstantsIn V ∧ Statement.AllConstantsIn V rest

end

variable {V : Value → Prop}

theorem Block.ConstantsIn.functions {block : Block} (h : block.ConstantsIn V) : ∀ f ∈ block.functions, f.ConstantsIn V := by
  obtain ⟨locals, functions, stmts⟩ := block
  have hfunctions : Function.AllConstantsIn V functions := h.1
  change ∀ f ∈ functions, f.ConstantsIn V
  clear h
  induction functions with
  | nil => exact List.forall_mem_nil _
  | cons f rest ih => exact List.forall_mem_cons.mpr ⟨hfunctions.1, ih hfunctions.2⟩

theorem Block.ConstantsIn.stmts {block : Block} (h : block.ConstantsIn V) : Statement.AllConstantsIn V block.stmts := by
  obtain ⟨locals, functions, stmts⟩ := block
  exact h.2

theorem Function.ConstantsIn.body {f : Function} (h : f.ConstantsIn V) : f.body.ConstantsIn V := by
  obtain ⟨span, name, params, body⟩ := f
  exact h

theorem Function.AllConstantsIn.append {functions more : List Function} (h : Function.AllConstantsIn V functions)
    (hmore : Function.AllConstantsIn V more) : Function.AllConstantsIn V (functions ++ more) := by
  induction functions with
  | nil => exact hmore
  | cons f rest ih => exact ⟨h.1, ih h.2⟩

theorem Statement.AllConstantsIn.append {stmts more : List Statement} (h : Statement.AllConstantsIn V stmts)
    (hmore : Statement.AllConstantsIn V more) : Statement.AllConstantsIn V (stmts ++ more) := by
  induction stmts with
  | nil => exact hmore
  | cons s rest ih => exact ⟨h.1, ih h.2⟩

/-- A class of values that has room for the literals of a script. -/
structure Literals (V : Value → Prop) (P : Number → Prop) : Prop where
  null : V .null
  bool (b : Bool) : V (.bool b)
  string (text : String) : V (.string text)
  number {n : Number} (h : P n) : V (.number n)

namespace Literals

open NamesAux (bind_eq_ok)
open ScopedAux (resolveVar_ok resolveCallee_ok resolveCapability_ok resolveHostMember_ok)

variable {P : Number → Prop} {ctx : Context}

mutual

/-- What an expression resolves to has its constants from the expression. -/
theorem resolveExpr (hV : Literals V P) :
    (x : Expr) → ∀ {e : Expression}, Program.resolveExpr ctx x = .ok e → x.NumbersIn P → e.ConstantsIn V
  | .null _, e, h, _ => by
    obtain rfl := Except.ok.inj h
    exact hV.null
  | .bool _ b, e, h, _ => by
    obtain rfl := Except.ok.inj h
    exact hV.bool b
  | .number _ n, e, h, hx => by
    obtain rfl := Except.ok.inj h
    exact hV.number hx
  | .string _ text, e, h, _ => by
    obtain rfl := Except.ok.inj h
    exact hV.string text
  | .rawString _ text, e, h, _ => by
    obtain rfl := Except.ok.inj h
    exact hV.string text
  | .var span name, e, h, _ => by
    obtain ⟨rfl, -⟩ := resolveVar_ok h
    trivial
  | .array span items, e, h, hx => by
    unfold Program.resolveExpr at h
    obtain ⟨all, hall, h⟩ := bind_eq_ok.mp h
    obtain rfl := Except.ok.inj h
    exact resolveExprs hV items hall hx
  | .object span fields, e, h, hx => by
    unfold Program.resolveExpr at h
    obtain ⟨all, hall, h⟩ := bind_eq_ok.mp h
    obtain rfl := Except.ok.inj h
    exact resolveFields hV fields hall hx
  | .call span callee args, e, h, hx => by
    unfold Program.resolveExpr at h
    split at h
    · obtain ⟨call, hcall, h⟩ := bind_eq_ok.mp h
      obtain ⟨all, hall, h⟩ := bind_eq_ok.mp h
      obtain rfl := Except.ok.inj h
      have hargs := resolveExprs hV args hall hx.2
      rcases resolveCallee_ok hcall with ⟨rfl, -⟩ | ⟨function, rfl, -⟩
      · exact hargs
      · exact hargs
    · split at h
      · obtain ⟨call, hcall, h⟩ := bind_eq_ok.mp h
        obtain ⟨all, hall, h⟩ := bind_eq_ok.mp h
        obtain rfl := Except.ok.inj h
        have hargs := resolveExprs hV args hall hx.2
        have hhead : (all.headD (.const .null)).ConstantsIn V := by
          cases all with
          | nil => exact hV.null
          | cons first rest => exact hargs.1
        rcases (resolveCapability_ok hcall).2 with ⟨-, rfl⟩ | ⟨-, rfl⟩
        · exact hhead
        · exact hhead
      · obtain ⟨_, _, h⟩ := bind_eq_ok.mp h
        nomatch h
    · obtain ⟨_, _, h⟩ := bind_eq_ok.mp h
      nomatch h
  | .unary span op operand, e, h, hx => by
    unfold Program.resolveExpr at h
    obtain ⟨first, hfirst, h⟩ := bind_eq_ok.mp h
    obtain rfl := Except.ok.inj h
    have hoperand := resolveExpr hV operand hfirst hx
    exact hoperand
  | .member span base field, e, h, hx => by
    unfold Program.resolveExpr at h
    split at h
    · obtain ⟨-, rfl⟩ := resolveHostMember_ok h
      trivial
    · obtain ⟨first, hfirst, h⟩ := bind_eq_ok.mp h
      obtain rfl := Except.ok.inj h
      have hbase := resolveExpr hV base hfirst hx
      exact hbase
  | .index span base key, e, h, hx => by
    unfold Program.resolveExpr at h
    obtain ⟨first, hfirst, h⟩ := bind_eq_ok.mp h
    obtain ⟨second, hsecond, h⟩ := bind_eq_ok.mp h
    obtain rfl := Except.ok.inj h
    exact ⟨resolveExpr hV base hfirst hx.1, resolveExpr hV key hsecond hx.2⟩
  | .binary span op left right, e, h, hx => by
    unfold Program.resolveExpr at h
    obtain ⟨first, hfirst, h⟩ := bind_eq_ok.mp h
    obtain ⟨second, hsecond, h⟩ := bind_eq_ok.mp h
    have hboth := And.intro (resolveExpr hV left hfirst hx.1) (resolveExpr hV right hsecond hx.2)
    obtain rfl := Except.ok.inj h
    cases op with
    | arith op => exact hboth
    | compare op => exact hboth
    | logic op => exact hboth

theorem resolveExprs (hV : Literals V P) : (xs : List Expr) → ∀ {es : List Expression}, Program.resolveExprs ctx xs = .ok es →
    Expr.AllNumbersIn P xs → Expression.AllConstantsIn V es
  | [], es, h, _ => by
    obtain rfl := Except.ok.inj h
    trivial
  | x :: xs, es, h, hx => by
    unfold Program.resolveExprs at h
    obtain ⟨first, hfirst, h⟩ := bind_eq_ok.mp h
    obtain ⟨rest, hrest, h⟩ := bind_eq_ok.mp h
    obtain rfl := Except.ok.inj h
    exact ⟨resolveExpr hV x hfirst hx.1, resolveExprs hV xs hrest hx.2⟩

theorem resolveFields (hV : Literals V P) : (fields : List (Span × Expr × Expr)) → ∀ {all : List (Expression × Expression)},
    Program.resolveFields ctx fields = .ok all → Expr.FieldNumbersIn P fields → Expression.FieldConstantsIn V all
  | [], all, h, _ => by
    obtain rfl := Except.ok.inj h
    trivial
  | (span, key, value) :: fields, all, h, hx => by
    unfold Program.resolveFields at h
    obtain ⟨first, hfirst, h⟩ := bind_eq_ok.mp h
    obtain ⟨second, hsecond, h⟩ := bind_eq_ok.mp h
    obtain ⟨rest, hrest, h⟩ := bind_eq_ok.mp h
    obtain rfl := Except.ok.inj h
    exact ⟨⟨resolveExpr hV key hfirst hx.1.1, resolveExpr hV value hsecond hx.1.2⟩, resolveFields hV fields hrest hx.2⟩

end

/-- What a target resolves to has its constants from the target. -/
theorem resolvePlace (hV : Literals V P) {whole : Span} : (x : Expr) → ∀ {path : List PathSegment} {place : Place},
    Program.resolvePlace ctx whole path x = .ok place → x.NumbersIn P → PathConstantsIn V path → place.ConstantsIn V
  | .member span base field, path, place, h, hx, hpath => by
    unfold Program.resolvePlace refuse at h
    split at h
    · split at h
      · obtain rfl := Except.ok.inj h
        exact hpath
      · cases h
    · exact resolvePlace hV base h hx hpath
  | .index span base key, path, place, h, hx, hpath => by
    unfold Program.resolvePlace at h
    obtain ⟨first, hfirst, h⟩ := bind_eq_ok.mp h
    exact resolvePlace hV base h hx.1 ⟨resolveExpr hV key hfirst hx.2, hpath⟩
  | .var span name, path, place, h, hx, hpath => by
    unfold Program.resolvePlace refuse at h
    split at h
    · obtain rfl := Except.ok.inj h
      exact hpath
    · obtain rfl := Except.ok.inj h
      exact hpath
    · cases h
    · split at h
      · cases h
      · cases h

mutual

/-- What a statement resolves to has its constants from the statement. -/
theorem resolveStmt (hV : Literals V P) :
    (s : Stmt) → ∀ {ctx : Context} {st : Statement}, Program.resolveStmt ctx s = .ok (some st) → s.NumbersIn P → st.ConstantsIn V
  | .let_ span name value, ctx, st, h, hs => by
    unfold Program.resolveStmt at h
    obtain ⟨e, he, h⟩ := bind_eq_ok.mp h
    obtain rfl := Option.some.inj (Except.ok.inj h)
    exact resolveExpr hV value he hs
  | .assign span target value, ctx, st, h, hs => by
    unfold Program.resolveStmt at h
    obtain ⟨place, hplace, h⟩ := bind_eq_ok.mp h
    obtain ⟨e, he, h⟩ := bind_eq_ok.mp h
    obtain rfl := Option.some.inj (Except.ok.inj h)
    exact ⟨resolvePlace hV target hplace hs.1 trivial, resolveExpr hV value he hs.2⟩
  | .if_ span cond body otherwise, ctx, st, h, hs => by
    unfold Program.resolveStmt at h
    obtain ⟨e, he, h⟩ := bind_eq_ok.mp h
    obtain ⟨block, hblock, h⟩ := bind_eq_ok.mp h
    obtain ⟨other, hother, h⟩ := bind_eq_ok.mp h
    obtain rfl := Option.some.inj (Except.ok.inj h)
    have hcond := resolveExpr hV cond he hs.1
    have hbody := resolveBlock hV body hblock hs.2.1
    cases other with
    | none => exact ⟨hcond, hbody⟩
    | some other => exact ⟨hcond, hbody, resolveOtherwise hV otherwise hother hs.2.2⟩
  | .while_ span cond body, ctx, st, h, hs => by
    unfold Program.resolveStmt at h
    obtain ⟨e, he, h⟩ := bind_eq_ok.mp h
    obtain ⟨block, hblock, h⟩ := bind_eq_ok.mp h
    obtain rfl := Option.some.inj (Except.ok.inj h)
    exact ⟨resolveExpr hV cond he hs.1, resolveBlock hV body hblock hs.2⟩
  | .return_ span value, ctx, st, h, hs => by
    unfold Program.resolveStmt refuse at h
    cases hf : ctx.inFunction with
    | false =>
      rw [hf] at h
      nomatch h
    | true =>
      rw [hf] at h
      cases value with
      | none =>
        obtain rfl := Option.some.inj (Except.ok.inj h)
        trivial
      | some value =>
        obtain ⟨e, he, h⟩ := bind_eq_ok.mp h
        obtain rfl := Option.some.inj (Except.ok.inj h)
        exact resolveExpr hV value he hs
  | .break_ span, ctx, st, h, _ => by
    unfold Program.resolveStmt refuse at h
    split at h
    · obtain rfl := Option.some.inj (Except.ok.inj h)
      trivial
    · nomatch h
  | .continue_ span, ctx, st, h, _ => by
    unfold Program.resolveStmt refuse at h
    split at h
    · obtain rfl := Option.some.inj (Except.ok.inj h)
      trivial
    · nomatch h
  | .block body, ctx, st, h, hs => by
    unfold Program.resolveStmt at h
    obtain ⟨block, hblock, h⟩ := bind_eq_ok.mp h
    obtain rfl := Option.some.inj (Except.ok.inj h)
    exact resolveBlock hV body hblock hs
  | .expr span e, ctx, st, h, hs => by
    unfold Program.resolveStmt at h
    obtain ⟨first, hfirst, h⟩ := bind_eq_ok.mp h
    obtain rfl := Option.some.inj (Except.ok.inj h)
    exact resolveExpr hV e hfirst hs

/-- What the declaration of a function resolves to has its constants from the declaration. -/
theorem resolveFunction (hV : Literals V P) : (s : Stmt) → ∀ {ctx : Context} {f : Function}, Program.resolveFunction ctx s = .ok (some f) →
    s.NumbersIn P → f.ConstantsIn V
  | .function span name params (.mk inner stmts), ctx, f, h, hs => by
    unfold Program.resolveFunction at h
    obtain ⟨inside, -, h⟩ := bind_eq_ok.mp h
    obtain ⟨⟨functions, body⟩, hbody, h⟩ := bind_eq_ok.mp h
    obtain rfl := Option.some.inj (Except.ok.inj h)
    exact resolveStmts hV stmts hbody hs

theorem resolveStmts (hV : Literals V P) : (stmts : List Stmt) → ∀ {ctx : Context} {functions : List Function} {body : List Statement},
    Program.resolveStmts ctx stmts = .ok (functions, body) → Stmt.AllNumbersIn P stmts →
    Function.AllConstantsIn V functions ∧ Statement.AllConstantsIn V body
  | [], ctx, functions, body, h, _ => by
    obtain ⟨rfl, rfl⟩ := Prod.mk.inj (Except.ok.inj h)
    exact ⟨trivial, trivial⟩
  | s :: stmts, ctx, functions, body, h, hs => by
    unfold Program.resolveStmts at h
    obtain ⟨function, hfunction, h⟩ := bind_eq_ok.mp h
    obtain ⟨stmt, hstmt, h⟩ := bind_eq_ok.mp h
    obtain ⟨⟨rest, others⟩, hrest, h⟩ := bind_eq_ok.mp h
    obtain ⟨rfl, rfl⟩ := Prod.mk.inj (Except.ok.inj h)
    obtain ⟨hfunctions, hstmts⟩ := resolveStmts hV stmts hrest hs.2
    constructor
    · cases function with
      | none => exact hfunctions
      | some f => exact ⟨resolveFunction hV s hfunction hs.1, hfunctions⟩
    · cases stmt with
      | none => exact hstmts
      | some st => exact ⟨resolveStmt hV s hstmt hs.1, hstmts⟩

/-- What a block resolves to has its constants from the block. -/
theorem resolveBlock (hV : Literals V P) :
    (b : Script.Block) → ∀ {ctx : Context} {body : Block}, Program.resolveBlock ctx b = .ok body → b.NumbersIn P → body.ConstantsIn V
  | .mk span stmts, ctx, body, h, hb => by
    unfold Program.resolveBlock at h
    obtain ⟨inside, -, h⟩ := bind_eq_ok.mp h
    obtain ⟨⟨functions, body⟩, hbody, h⟩ := bind_eq_ok.mp h
    obtain rfl := Except.ok.inj h
    exact resolveStmts hV stmts hbody hb

/-- What follows the block of an `if` resolves to a block with its constants from there. -/
theorem resolveOtherwise (hV : Literals V P) :
    (o : Otherwise) → ∀ {ctx : Context} {block : Block}, Program.resolveOtherwise ctx o = .ok (some block) →
      o.NumbersIn P → block.ConstantsIn V
  | .block inner, ctx, block, h, ho => by
    unfold Program.resolveOtherwise at h
    obtain ⟨block, hblock, h⟩ := bind_eq_ok.mp h
    obtain rfl := Option.some.inj (Except.ok.inj h)
    exact resolveBlock hV inner hblock ho
  | .elseIf span cond body otherwise, ctx, block, h, ho => by
    unfold Program.resolveOtherwise at h
    obtain ⟨e, he, h⟩ := bind_eq_ok.mp h
    obtain ⟨block, hblock, h⟩ := bind_eq_ok.mp h
    obtain ⟨other, hother, h⟩ := bind_eq_ok.mp h
    obtain rfl := Option.some.inj (Except.ok.inj h)
    have hcond := resolveExpr hV cond he ho.1
    have hbody := resolveBlock hV body hblock ho.2.1
    cases other with
    | none => exact ⟨trivial, ⟨hcond, hbody⟩, trivial⟩
    | some other => exact ⟨trivial, ⟨hcond, hbody, resolveOtherwise hV otherwise hother ho.2.2⟩, trivial⟩

end

/-- The constants of a program are from its script. -/
theorem ofModule_constantsIn (hV : Literals V P) {m : Module} {program : Program} (h : ofModule m = .ok program)
    (hm : Stmt.AllNumbersIn P m.stmts) : program.body.ConstantsIn V := by
  unfold ofModule at h
  obtain ⟨ctx, -, h⟩ := bind_eq_ok.mp h
  obtain ⟨⟨functions, body⟩, hbody, h⟩ := bind_eq_ok.mp h
  obtain rfl := Except.ok.inj h
  exact resolveStmts hV m.stmts hbody hm

end Literals

end Program

end HostScript

/-
The grammar in step: from parsers with the same words before them, every form of expression, declaration and statement
is read the same way, and so is a whole program.
-/
import VCLang.Proofs.Lockstep.Parse
namespace VCLang.Grammar

open Parse

variable {d : Dispatch} {expr : Power → Parse Expr} {stmt : Parse Stmt}

/-! ## Expressions -/

/-- Expressions that are the same apart from places. -/
abbrev AlikeExpr : Parse Expr → Parse Expr → Prop := Alike (Expr.relabel .placeless)

theorem alike_nameForm (h : ∀ power, AlikeExpr (expr power) (expr power)) :
    AlikeExpr (nameForm expr) (nameForm expr) := by
  refine alike_start.bind fun _ _ _ => alike_expectIdent.bind fun i i' hi => .kind_bind fun k => ?_
  split
  · refine (h .lowest).parenthesised.bind fun as as' has => (alike_spanFrom _ _).bind fun _ _ _ => ?_
    refine alike_newExpr _ _ fun _ _ hinfo => ?_
    rw [Expr.relabel, Expr.relabel, Expr.relabelAll_eq, Expr.relabelAll_eq, hinfo, hi, has]
  · refine alike_advance.bind fun _ _ _ => (h .lowest).bind fun e e' he => (alike_expect _).bind fun _ _ _ => ?_
    refine (alike_spanFrom _ _).bind fun _ _ _ => alike_newExpr _ _ fun _ _ hinfo => ?_
    rw [Expr.relabel, Expr.relabel, hinfo, hi, he]
  · refine (alike_spanFrom _ _).bind fun _ _ _ => alike_newExpr _ _ fun _ _ hinfo => ?_
    rw [Expr.relabel, Expr.relabel, hinfo, hi]

/-- Tokens of one word spell the same literal and the same operator. -/
theorem ofToken_alike {t t' : Token} (h : t.word = t'.word) : Literal.ofToken t = Literal.ofToken t' ∧
    (Operator.ofToken t).relabel .placeless = (Operator.ofToken t').relabel .placeless := by
  obtain ⟨hkind, hspelling⟩ := Word.mk.inj h
  constructor
  · rw [Literal.ofToken, Literal.ofToken, hkind, hspelling]
  · exact congrArg (fun s => Operator.mk s default) hspelling

theorem alike_operand (h : ∀ power, AlikeExpr (expr power) (expr power)) (form : OperandForm) :
    AlikeExpr (operand expr form) (operand expr form) := by
  cases form with
  | literal =>
    refine alike_advance.bind fun t t' ht => alike_newExpr _ _ fun _ _ hinfo => ?_
    rw [Expr.relabel, Expr.relabel, hinfo, (ofToken_alike ht).1]
  | sign =>
    refine alike_advance.bind fun t t' ht => (h .unary).bind fun e e' he => alike_newExpr _ _ fun _ _ hinfo => ?_
    rw [Expr.relabel, Expr.relabel, hinfo, (ofToken_alike ht).2, he]
  | name => exact alike_nameForm h
  | group =>
    refine alike_advance.bind fun _ _ _ => (h .lowest).bind fun e e' he => (alike_expect _).bind fun _ _ _ => ?_
    exact alike_pure he

theorem alike_continueWith (h : ∀ power, AlikeExpr (expr power) (expr power)) (power : Power) {left left' : Expr}
    (hleft : left.relabel .placeless = left'.relabel .placeless) (form : InfixForm) :
    AlikeExpr (continueWith expr power left form) (continueWith expr power left' form) := by
  cases form with
  | binary =>
    refine alike_advance.bind fun t t' ht => (h power).bind fun e e' he => alike_newExpr _ _ fun _ _ hinfo => ?_
    rw [Expr.relabel, Expr.relabel, hinfo, (ofToken_alike ht).2, hleft, he]
  | assignment =>
    refine alike_advance.bind fun _ _ _ => (h .lowest).bind fun e e' he => alike_newExpr _ _ fun _ _ hinfo => ?_
    rw [Expr.relabel, Expr.relabel, hinfo, hleft, he]

theorem alike_extendUpTo (h : ∀ power, AlikeExpr (expr power) (expr power)) (power : Power) (n : Nat) :
    ∀ left left' : Expr, left.relabel .placeless = left'.relabel .placeless →
      AlikeExpr (extendUpTo d expr power n left) (extendUpTo d expr power n left') := by
  induction n with
  | zero => exact fun left left' hleft => alike_pure hleft
  | succ n ih =>
    intro left left' hleft
    refine .kind_bind fun k => ?_
    split
    · exact alike_pure hleft
    · exact .ite ((alike_continueWith h _ hleft _).bind ih) (alike_pure hleft)

theorem alike_extend (h : ∀ power, AlikeExpr (expr power) (expr power)) (power : Power) {left left' : Expr}
    (hleft : left.relabel .placeless = left'.relabel .placeless) :
    AlikeExpr (extend d expr power left) (extend d expr power left') :=
  .remaining fun n => alike_extendUpTo h power n left left' hleft

theorem alike_expressionUpTo (n : Nat) : ∀ power, AlikeExpr (expressionUpTo d n power) (expressionUpTo d n power) := by
  induction n with
  | zero => exact fun _ => alike_illegalPrimary
  | succ n ih =>
    intro power
    refine .kind_bind fun k => ?_
    split
    · exact alike_illegalPrimary
    · exact (alike_operand ih _).bind fun left left' hleft => alike_extend ih power hleft

theorem alike_expression (power : Power) : AlikeExpr (expression d power) (expression d power) :=
  .remaining fun n => alike_expressionUpTo (n + 1) power

/-! ## Declarations -/

theorem alike_typeName : Alike id typeName typeName := by
  refine .kind_bind fun k => ?_
  split
  · exact alike_advance.bind fun _ _ _ => alike_pure rfl
  · exact alike_fail _

theorem alike_arraySize : Alike id arraySize arraySize := by
  refine .kind_bind fun _ => .ite (alike_current.bind fun t t' ht => ?_) (alike_pure rfl)
  have hspelling : t.spelling = t'.spelling := congrArg Word.spelling ht
  rw [hspelling]
  split
  · exact alike_advance.bind fun _ _ _ => alike_pure rfl
  · exact alike_fail _

theorem alike_declaratorSuffix (base : Ty) : Alike id (declaratorSuffix base) (declaratorSuffix base) := by
  refine .kind_bind fun _ => .ite ?_ (alike_pure rfl)
  refine alike_advance.bind fun _ _ _ => alike_arraySize.bind fun size size' hsize => ?_
  exact (alike_expect _).bind fun _ _ _ => alike_pure (congrArg (Ty.array base) hsize)

theorem alike_initialiser : AlikeExpr (initialiser d) (initialiser d) := by
  refine .kind_bind fun _ => .ite ?_ (alike_expression _)
  refine alike_advance.bind fun _ _ _ => (alike_expression _).commaList.bind fun es es' hes => ?_
  refine (alike_expect _).bind fun _ _ _ => (alike_spanFrom _ _).bind fun _ _ _ => ?_
  refine alike_newExpr _ _ fun _ _ hinfo => ?_
  rw [Expr.relabel, Expr.relabel, Expr.relabelAll_eq, Expr.relabelAll_eq, hinfo, hes]

theorem alike_initDeclarator (start start' : Position) (base : Ty) {ident ident' : Ident}
    (hident : ident.relabel .placeless = ident'.relabel .placeless) (isGlobal : Bool) :
    Alike (VarDecl.relabel .placeless) (initDeclarator d start base ident isGlobal)
      (initDeclarator d start' base ident' isGlobal) := by
  refine (alike_declaratorSuffix base).bind fun ty ty' hty => .kind_bind fun _ => ?_
  have hrest (init init' : Option Expr)
      (hinit : init.map (Expr.relabel .placeless) = init'.map (Expr.relabel .placeless)) :
      Alike (VarDecl.relabel .placeless)
        (do
          let span ← spanFrom start
          let decl : VarDecl := ⟨⟨0⟩, ident, ty, span, isGlobal, init⟩
          let id ← newDecl decl.kind ident ty span
          return { decl with id })
        (do
          let span ← spanFrom start'
          let decl : VarDecl := ⟨⟨0⟩, ident', ty', span, isGlobal, init'⟩
          let id ← newDecl decl.kind ident' ty' span
          return { decl with id }) := by
    refine (alike_spanFrom _ _).bind fun _ _ _ => (alike_newDecl _ _ _ _ _ _ _ _).bind fun id id' hid => alike_pure ?_
    obtain rfl : ty = ty' := hty
    obtain rfl : id = id' := hid
    rw [VarDecl.relabel, VarDecl.relabel, hident, hinit]
    rfl
  have hinitialiser : Alike (Option.map (Expr.relabel .placeless)) (some <$> initialiser d) (some <$> initialiser d) :=
    alike_initialiser.map fun _ _ he => congrArg some he
  have hnone : Alike (Option.map (Expr.relabel .placeless)) (pure none) (pure none) := alike_pure rfl
  exact .ite (alike_advance.bind fun _ _ _ => hinitialiser.bind hrest) (hnone.bind hrest)

theorem alike_varDecls (start start' : Position) (base : Ty) {first first' : Ident}
    (hfirst : first.relabel .placeless = first'.relabel .placeless) (isGlobal : Bool) :
    Alike (List.map (VarDecl.relabel .placeless)) (varDecls d start base first isGlobal)
      (varDecls d start' base first' isGlobal) := by
  refine (alike_initDeclarator _ _ base hfirst isGlobal).bind fun decl decl' hdecl => ?_
  refine (Alike.many (f := VarDecl.relabel .placeless) ?_).bind fun decls decls' hdecls => ?_
  · refine alike_advance.bind fun _ _ _ => alike_start.bind fun _ _ _ => alike_expectIdent.bind fun i i' hi => ?_
    exact alike_initDeclarator _ _ base hi isGlobal
  · refine (alike_expect _).bind fun _ _ _ => alike_pure ?_
    rw [List.map_cons, List.map_cons, hdecl, hdecls]

theorem alike_param : Alike (Param.relabel .placeless) param param := by
  refine alike_start.bind fun _ _ _ => alike_typeName.bind fun base base' hbase => ?_
  obtain rfl : base = base' := hbase
  refine alike_expectIdent.bind fun i i' hi => (alike_declaratorSuffix base).bind fun ty ty' hty => ?_
  refine (alike_spanFrom _ _).bind fun _ _ _ => (alike_newDecl _ _ _ _ _ _ _ _).bind fun id id' hid => alike_pure ?_
  obtain rfl : ty = ty' := hty
  obtain rfl : id = id' := hid
  rw [Param.relabel, Param.relabel, hi]
  rfl

/-! ## Statements -/

/-- Statements that are the same apart from places. -/
abbrev AlikeStmt : Parse Stmt → Parse Stmt → Prop := Alike (Stmt.relabel .placeless)

theorem alike_finish (start start' : Position) {build build' : StmtInfo → Stmt}
    (h : ∀ i i', i.relabel .placeless = i'.relabel .placeless →
      (build i).relabel .placeless = (build' i').relabel .placeless) :
    AlikeStmt (finish start build) (finish start' build') :=
  (alike_spanFrom _ _).bind fun _ _ _ => alike_newStmt _ _ h

theorem alike_localDecls : Alike (List.map (VarDecl.relabel .placeless)) (localDecls d) (localDecls d) := by
  refine alike_start.bind fun _ _ _ => alike_typeName.bind fun base base' hbase => ?_
  obtain rfl : base = base' := hbase
  exact alike_expectIdent.bind fun i i' hi => alike_varDecls _ _ base hi false

theorem alike_blockWith (h : AlikeStmt stmt stmt) :
    Alike (Block.relabel .placeless) (blockWith d stmt) (blockWith d stmt) := by
  refine (alike_expect _).bind fun _ _ _ => alike_localDecls.many.bind fun decls decls' hdecls => ?_
  have hflatten : decls.flatten.map (VarDecl.relabel .placeless) = decls'.flatten.map (VarDecl.relabel .placeless) := by
    rw [List.map_flatten, List.map_flatten, hdecls]
  refine h.many.bind fun stmts stmts' hstmts => (alike_expect _).bind fun _ _ _ => ?_
  refine (alike_finish _ _ fun _ _ hinfo => ?_).bind fun s s' hs => alike_pure ?_
  · rw [Stmt.relabel, Stmt.relabel, Stmt.relabelAll_eq, Stmt.relabelAll_eq, hinfo, hflatten, hstmts]
  · have hinfo := congrArg Stmt.info hs
    rw [Stmt.relabel_info, Stmt.relabel_info] at hinfo
    rw [Block.relabel, Block.relabel, hinfo, hflatten, hstmts]

theorem alike_condition : AlikeExpr (condition d) (condition d) := by
  refine (alike_expect _).bind fun _ _ _ => (alike_expression _).bind fun _ _ he => ?_
  exact (alike_expect _).bind fun _ _ _ => alike_pure he

theorem alike_optionalExpr (terminator : TokenKind) : Alike (Option.map (Expr.relabel .placeless))
    (optionalExpr d terminator) (optionalExpr d terminator) := by
  have hrest (e e' : Option Expr) (he : e.map (Expr.relabel .placeless) = e'.map (Expr.relabel .placeless)) :
      Alike (Option.map (Expr.relabel .placeless)) (expect terminator >>= fun _ => pure e)
        (expect terminator >>= fun _ => pure e') :=
    (alike_expect _).bind fun _ _ _ => alike_pure he
  have hexpression : Alike (Option.map (Expr.relabel .placeless)) (some <$> expression d .lowest)
      (some <$> expression d .lowest) := (alike_expression _).map fun _ _ he => congrArg some he
  have hnone : Alike (Option.map (Expr.relabel .placeless)) (pure none) (pure none) := alike_pure rfl
  exact .kind_bind fun _ => .ite (hnone.bind hrest) (hexpression.bind hrest)

theorem alike_statementForm (h : AlikeStmt stmt stmt) (form : StmtForm) :
    AlikeStmt (statementForm d stmt form) (statementForm d stmt form) := by
  cases form with
  | block =>
    refine (alike_blockWith h).map fun b b' hb => ?_
    rw [← b.relabel_toStmt, ← b'.relabel_toStmt, hb]
  | ifForm =>
    refine alike_advance.bind fun _ _ _ => alike_condition.bind fun _ _ hcond => h.bind fun _ _ hthen => ?_
    refine .kind_bind fun _ => .ite ?_ (alike_finish _ _ fun _ _ hinfo => ?_)
    · refine alike_advance.bind fun _ _ _ => h.bind fun _ _ helse => alike_finish _ _ fun _ _ hinfo => ?_
      rw [Stmt.relabel, Stmt.relabel, hinfo, hcond, hthen, helse]
    · rw [Stmt.relabel, Stmt.relabel, hinfo, hcond, hthen]
  | whileForm =>
    refine alike_advance.bind fun _ _ _ => alike_condition.bind fun _ _ hcond => h.bind fun _ _ hbody => ?_
    refine alike_finish _ _ fun _ _ hinfo => ?_
    rw [Stmt.relabel, Stmt.relabel, hinfo, hcond, hbody]
  | forForm =>
    refine alike_advance.bind fun _ _ _ => (alike_expect _).bind fun _ _ _ => ?_
    refine (alike_optionalExpr _).bind fun _ _ hinit => (alike_optionalExpr _).bind fun _ _ hcond => ?_
    refine (alike_optionalExpr _).bind fun _ _ hupdate => h.bind fun _ _ hbody => alike_finish _ _ fun _ _ hinfo => ?_
    rw [Stmt.relabel, Stmt.relabel, hinfo, hinit, hcond, hupdate, hbody]
  | breakForm =>
    refine alike_advance.bind fun _ _ _ => (alike_expect _).bind fun _ _ _ => alike_finish _ _ fun _ _ hinfo => ?_
    rw [Stmt.relabel, Stmt.relabel, hinfo]
  | continueForm =>
    refine alike_advance.bind fun _ _ _ => (alike_expect _).bind fun _ _ _ => alike_finish _ _ fun _ _ hinfo => ?_
    rw [Stmt.relabel, Stmt.relabel, hinfo]
  | returnForm =>
    refine alike_advance.bind fun _ _ _ => (alike_optionalExpr _).bind fun _ _ hvalue => ?_
    refine alike_finish _ _ fun _ _ hinfo => ?_
    rw [Stmt.relabel, Stmt.relabel, hinfo, hvalue]
  | emptyForm =>
    refine alike_advance.bind fun _ _ _ => alike_finish _ _ fun _ _ hinfo => ?_
    rw [Stmt.relabel, Stmt.relabel, hinfo]

theorem alike_exprStatement : AlikeStmt (exprStatement d) (exprStatement d) := by
  refine alike_start.bind fun _ _ _ => (alike_expression _).bind fun _ _ he => (alike_expect _).bind fun _ _ _ => ?_
  refine alike_finish _ _ fun _ _ hinfo => ?_
  rw [Stmt.relabel, Stmt.relabel, hinfo, he]

theorem alike_statementUpTo (n : Nat) : AlikeStmt (statementUpTo d n) (statementUpTo d n) := by
  induction n with
  | zero => exact alike_illegalPrimary
  | succ n ih =>
    refine .kind_bind fun k => ?_
    split
    · exact alike_statementForm ih _
    · exact alike_exprStatement

theorem alike_statement : AlikeStmt (statement d) (statement d) := .remaining fun n => alike_statementUpTo (n + 1)

/-! ## Programs -/

theorem alike_function (start start' : Position) (ty : Ty) {ident ident' : Ident}
    (hident : ident.relabel .placeless = ident'.relabel .placeless) :
    Alike (Function.relabel .placeless) (function d start ty ident) (function d start' ty ident') := by
  refine alike_param.parenthesised.bind fun params params' hparams => ?_
  refine (alike_blockWith alike_statement).bind fun body body' hbody => (alike_spanFrom _ _).bind fun _ _ _ => ?_
  refine (alike_newDecl _ _ _ _ _ _ _ _).bind fun id id' hid => alike_pure ?_
  obtain rfl : id = id' := hid
  rw [Function.relabel, Function.relabel, hbody, Prototype.relabel, Prototype.relabel, hident, hparams]
  rfl

theorem alike_topLevel : Alike (List.map (TopDecl.relabel .placeless)) (topLevel d) (topLevel d) := by
  refine alike_start.bind fun _ _ _ => alike_typeName.bind fun base base' hbase => ?_
  obtain rfl : base = base' := hbase
  refine alike_expectIdent.bind fun i i' hi => .kind_bind fun _ => .ite ?_ ?_
  · exact (alike_function _ _ base hi).bind fun f f' hf => alike_pure (congrArg (fun f => [TopDecl.func f]) hf)
  · refine (alike_varDecls _ _ base hi true).bind fun ds ds' hds => alike_pure ?_
    have hvar (ds : List VarDecl) : (ds.map TopDecl.var).map (TopDecl.relabel .placeless) =
        (ds.map (VarDecl.relabel .placeless)).map TopDecl.var := by
      rw [List.map_map, List.map_map]
      rfl
    rw [hvar, hvar, hds]

theorem alike_program : Alike (Program.relabel .placeless) (program d) (program d) := by
  refine alike_start.bind fun _ _ _ => alike_topLevel.many.bind fun decls decls' hdecls => ?_
  refine alike_current.bind fun _ _ _ => alike_pure ?_
  rw [Program.relabel, Program.relabel, List.map_flatten, List.map_flatten, hdecls]
  rfl

end VCLang.Grammar

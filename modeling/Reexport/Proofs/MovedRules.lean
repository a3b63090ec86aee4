import Reexport.Proofs.Moving

/-!
# All rules when more follows

Each rule of the grammar is alike itself when more lexemes follow: it does the same steps,
and what it results in is moved. The rules are taken by the part of the grammar that they
belong to; in each part the program is followed from its first word to its last.

Results:

* `alike_rule`: the program of each nonterminal.
-/

namespace Reexport.Grammar

/-- The parts of the grammar. -/
inductive Part where
  | paths
  | types
  | bounds
  | patterns
  | expressions
  | statements
  | items

/-- The part of the grammar that a rule belongs to. -/
def Nonterminal.part : Nonterminal → Part
  | .commas _ | .repeated _ | .outerAttributes | .innerAttributes | .attributeContent | .path _ | .pathRest ..
  | .segment _ | .angleArguments | .angleRest _ | .genericArgument | .qualifiedPath _ | .qualifiedRest ..
  | .modulePath | .modulePathRest | .parenArguments | .typePath | .typePathRest _ => .paths
  | .type _ | .parenType | .sliceType | .moreBounds | .openBounds | .returnType _ | .functionType
  | .functionTypeParameters _ => .types
  | .bound .. | .traitBound _ | .constMark | .boundSum .. | .bounds _ | .lifetimeBounds _ | .capturedNames
  | .binder | .binderRest | .genericParameter | .generics | .genericsRest | .whereClause | .predicates => .bounds
  | .pattern | .patterns | .alternatives | .sliceElement | .structPattern | .rangeBound => .patterns
  | .expr _ | .unary _ | .atom _ | .trailers _ | .binary .. | .operand .. | .operandRest .. | .standingExpr
  | .parenExpr | .parenExprRest | .arrayExpr | .structFields | .fieldValue | .closureParameters | .ifExpr
  | .arm | .matchBody => .expressions
  | .blockBody _ | .statements | .callAhead => .statements
  | _ => .items

variable {δ k : Nat} {top : Bool}


/-- A look ahead for generic parameters goes at most one tree past those that are known to be there. -/
@[simp] theorem alike_opensGenerics {skip : Nat} (h : skip ≤ k) :
    Prog.Alike δ top id k (Rule.opensGenerics skip) (Rule.opensGenerics skip) := by
  have hmore : ∀ {k n : Nat} {cls : Class} {next next' : Bool → Prog Bool}, cls.foreign = true → skip + n ≤ k + 1 →
      (∀ k', k ≤ k' → Prog.Alike δ top id k' (next false) (next' false)) →
      (∀ k', k ≤ k' → skip + n < k' → Prog.Alike δ top id k' (next true) (next' true)) →
      Prog.Alike δ top id k (.ask (skip + n) cls next) (.ask (skip + n) cls next') := by
    intro k n cls next next' hcls hskip hno hyes
    refine .ask hskip (hno k (Nat.le_refl k)) ?_
    rw [if_pos hcls]
    exact hyes _ (Nat.le_max_left ..) (by omega)
  unfold Rule.opensGenerics
  repeat' first
    | exact .done rfl
    | refine hmore rfl (by omega) (fun k' hk => ?_) fun k' hk hlt => ?_


/-! ## The rules -/

/-- Lists, attributes and paths. -/
theorem alike_paths {nt : Nonterminal} (h : nt.part = .paths) :
    Prog.Alike δ nt.onTop (nt.moved δ) 0 nt.rule nt.rule := by
  cases nt <;> cases h
  all_goals
    dsimp only [Nonterminal.onTop, Nonterminal.rule, Rule.commas, Rule.repeated, Rule.outerAttributes, Rule.innerAttributes,
      Rule.attributeContent, Rule.modulePath, Rule.modulePathRest, Rule.path, Rule.pathRest,
      Rule.segment, Rule.angleArguments, Rule.angleRest, Rule.constArgument, Rule.genericArgument,
      Rule.qualifiedPath, Rule.qualifiedRest, Rule.isCallArguments, Rule.parenArguments,
      Rule.typePath, Rule.typePathRest]
  all_goals
    repeat' first
      | intro _
      | dsimp only [Nonterminal.moved]
      | with_reducible first
            | apply alike_here | apply alike_call | apply alike_inside | apply alike_refusedAt_bind
            | apply Prog.Alike.ite | apply alike_isNext_and | apply alike_isSecond_and
            | apply alike_and | apply alike_or | apply alike_not | apply Prog.Alike.andThen
            | apply alike_pure | apply alike_run
      | simp [Class.foreign]
      | rfl
      | exact .call rfl fun _ => .done rfl
      | exact .take fun _ => .done rfl
      | exact .inside fun _ => .done rfl

/-- Types. -/
theorem alike_types {nt : Nonterminal} (h : nt.part = .types) :
    Prog.Alike δ nt.onTop (nt.moved δ) 0 nt.rule nt.rule := by
  cases nt <;> cases h
  all_goals
    dsimp only [Nonterminal.onTop, Nonterminal.rule, Rule.moreBounds, Rule.openBounds, Rule.parenType, Rule.parenthesised, Rule.pathType,
      Rule.traitSum, Rule.simpleType, Rule.type, Rule.sliceType, Rule.returnType,
      Rule.callingConvention, Rule.functionType, Rule.functionTypeParameter,
      Rule.functionTypeParameters, Rule.isCallArguments]
  all_goals
    repeat' first
      | intro _
      | dsimp only [Nonterminal.moved]
      | with_reducible first
            | apply alike_here | apply alike_call | apply alike_inside | apply alike_refusedAt_bind
            | apply Prog.Alike.ite | apply alike_isNext_and | apply alike_isSecond_and
            | apply alike_and | apply alike_or | apply alike_not | apply Prog.Alike.andThen
            | apply alike_pure | apply alike_run
      | simp [Class.foreign]
      | rfl
      | exact .call rfl fun _ => .done rfl
      | exact .take fun _ => .done rfl
      | exact .inside fun _ => .done rfl
      | split

/-- Bounds and generic parameters. -/
theorem alike_bounds {nt : Nonterminal} (h : nt.part = .bounds) :
    Prog.Alike δ nt.onTop (nt.moved δ) 0 nt.rule nt.rule := by
  cases nt <;> cases h
  all_goals
    dsimp only [Nonterminal.onTop, Nonterminal.rule, Rule.constMark, Rule.traitBound, Rule.bound, Rule.boundSum, Rule.bounds, Rule.lifetimeBounds,
      Rule.capturedNames, Rule.binder, Rule.binderRest, Rule.typeParameter, Rule.lifetimeParameter,
      Rule.constParameter, Rule.genericParameter, Rule.generics, Rule.genericsRest,
      Rule.whereClause, Rule.predicates, Rule.constArgument, Rule.isCallArguments]
  all_goals
    repeat' first
      | intro _
      | dsimp only [Nonterminal.moved]
      | with_reducible first
            | apply alike_here | apply alike_call | apply alike_inside | apply alike_refusedAt_bind
            | apply Prog.Alike.ite | apply alike_isNext_and | apply alike_isSecond_and
            | apply alike_and | apply alike_or | apply alike_not | apply Prog.Alike.andThen
            | apply alike_pure | apply alike_run
      | simp [Class.foreign]
      | rfl
      | exact .call rfl fun _ => .done rfl
      | exact .take fun _ => .done rfl
      | exact .inside fun _ => .done rfl

/-- Patterns. -/
theorem alike_patterns {nt : Nonterminal} (h : nt.part = .patterns) :
    Prog.Alike δ nt.onTop (nt.moved δ) 0 nt.rule nt.rule := by
  cases nt <;> cases h
  all_goals
    dsimp only [Nonterminal.onTop, Nonterminal.rule, Rule.index, Rule.patterns, Rule.alternatives, Rule.rangeBound, Rule.rangePattern,
      Rule.dotsPattern, Rule.pathPattern, Rule.bindingPattern, Rule.pattern, Rule.sliceElement,
      Rule.fieldPattern, Rule.structPattern]
  all_goals
    repeat' first
      | intro _
      | dsimp only [Nonterminal.moved, PatternShape.moved]
      | with_reducible first
            | apply alike_here | apply alike_call | apply alike_inside | apply alike_refusedAt_bind
            | apply Prog.Alike.ite | apply alike_isNext_and | apply alike_isSecond_and
            | apply alike_and | apply alike_or | apply alike_not | apply Prog.Alike.andThen
            | apply alike_pure | apply alike_run
      | simp [Class.foreign]
      | rfl
      | exact .call rfl fun _ => .done rfl
      | exact .take fun _ => .done rfl
      | exact .inside fun _ => .done rfl
      | split

/-- Expressions. -/
theorem alike_expressions {nt : Nonterminal} (h : nt.part = .expressions) :
    Prog.Alike δ nt.onTop (nt.moved δ) 0 nt.rule nt.rule := by
  cases nt <;> cases h
  all_goals
    dsimp only [Nonterminal.onTop, Nonterminal.rule, Rule.block, Rule.attributedBlock, Rule.expr, Rule.rangeDots, Rule.range, Rule.castEnd,
      Rule.binary, Rule.operand, Rule.nextPrecedence, Rule.operandRest, Rule.unary, Rule.indexPair,
      Rule.member, Rule.trailers, Rule.opensExpr, Rule.opensClosure, Rule.closure,
      Rule.closureParameters, Rule.pathExpr, Rule.fieldValue, Rule.structFields, Rule.parenExpr,
      Rule.parenExprRest, Rule.arrayExpr, Rule.breakExpr, Rule.ifExpr, Rule.whileExpr,
      Rule.forExpr, Rule.loopExpr, Rule.matchExpr, Rule.matchBody, Rule.labelledExpr,
      Rule.blockExpr, Rule.wordExpr, Rule.atom, Rule.standingExpr, Rule.arm, Rule.index]
  all_goals
    repeat' first
      | intro _
      | dsimp only [Nonterminal.moved]
      | with_reducible first
            | apply alike_here | apply alike_call | apply alike_inside | apply alike_refusedAt_bind
            | apply Prog.Alike.ite | apply alike_isNext_and | apply alike_isSecond_and
            | apply alike_and | apply alike_or | apply alike_not | apply Prog.Alike.andThen
            | apply alike_pure | apply alike_run
      | simp [Class.foreign]
      | rfl
      | exact .call rfl fun _ => .done rfl
      | exact .take fun _ => .done rfl
      | exact .inside fun _ => .done rfl
      | split

/-- Statements. -/
theorem alike_statements {nt : Nonterminal} (h : nt.part = .statements) :
    Prog.Alike δ nt.onTop (nt.moved δ) 0 nt.rule nt.rule := by
  cases nt <;> cases h
  all_goals
    dsimp only [Nonterminal.onTop, Nonterminal.rule, Rule.callAhead, Rule.opensItem, Rule.letStatement, Rule.statement, Rule.statements,
      Rule.blockBody, Rule.block, Rule.attributedBlock]
  all_goals
    repeat' first
      | intro _
      | dsimp only [Nonterminal.moved]
      | with_reducible first
            | apply alike_here | apply alike_call | apply alike_inside | apply alike_wouldBe
            | apply alike_refusedAt_bind | apply Prog.Alike.ite | apply alike_isNext_and
            | apply alike_isSecond_and | apply alike_and | apply alike_or | apply alike_not
            | apply Prog.Alike.andThen | apply alike_pure | apply alike_run
      | simp [Class.foreign]
      | rfl
      | exact .call rfl fun _ => .done rfl
theorem alike_itemName_bind {α : Type} {f : α → α} {next next' : String × Place → Prog α}
    (h : ∀ name place, Prog.Alike δ top f 0 (next (name, place)) (next' (name, place + δ))) :
    Prog.Alike δ top f k (Rule.itemName >>= next) (Rule.itemName >>= next') :=
  .mark fun place => .take fun name => .call (by simp [Nonterminal.onTop]) fun _ => h name place

@[simp] theorem alike_typeItem (vis : Visibility) (position : ClausePosition) :
    Prog.Alike δ top (Item.moved δ) k (Rule.typeItem vis position) (Rule.typeItem (vis.moved δ) position) := by
  unfold Rule.typeItem
  repeat' first
    | intro _
    | dsimp only [Nonterminal.moved]
    | with_reducible first
          | apply alike_call | apply Prog.Alike.ite | apply alike_itemName_bind
          | apply Prog.Alike.andThen | apply alike_pure | apply alike_run
    | simp [Nonterminal.onTop]
    | rfl
    | split

@[simp] theorem alike_constRest (vis : Visibility) :
    Prog.Alike δ top (Item.moved δ) k (Rule.constRest vis) (Rule.constRest (vis.moved δ)) := by
  unfold Rule.constRest
  repeat' first
    | intro _
    | dsimp only [Nonterminal.moved]
    | with_reducible first
          | apply alike_here | apply alike_call | apply Prog.Alike.ite | apply Prog.Alike.andThen
          | apply alike_pure | apply alike_run
    | simp [Nonterminal.onTop]
    | rfl
    | split

theorem alike_typeItem_bind {α : Type} {f : α → α} {vis : Visibility} {position : ClausePosition}
    {next next' : Item → Prog α} (h : ∀ item, Prog.Alike δ top f 0 (next item) (next' (item.moved δ))) :
    Prog.Alike δ top f k (Rule.typeItem vis position >>= next) (Rule.typeItem (vis.moved δ) position >>= next') :=
  (alike_typeItem vis position).bind h

theorem alike_constRest_bind {α : Type} {f : α → α} {vis : Visibility}
    {next next' : Item → Prog α} (h : ∀ item, Prog.Alike δ top f 0 (next item) (next' (item.moved δ))) :
    Prog.Alike δ top f k (Rule.constRest vis >>= next) (Rule.constRest (vis.moved δ) >>= next') :=
  (alike_constRest vis).bind h

theorem alike_parameter : Prog.Alike δ false (Parameter.moved δ) k Rule.parameter Rule.parameter := by
  refine alike_attempt rfl fun self => ?_
  cases self with
  | some place => exact .done rfl
  | none =>
    dsimp only [Option.map]
    repeat' first
      | intro _
      | with_reducible first
            | apply Prog.Alike.ite | apply alike_isNext_and | apply Prog.Alike.andThen
            | apply alike_pure | apply alike_run
      | simp
      | rfl

theorem alike_parameter_bind {α : Type} {f : α → α} {next next' : Parameter → Prog α}
    (h : ∀ parameter, Prog.Alike δ false f 0 (next parameter) (next' (parameter.moved δ))) :
    Prog.Alike δ false f k (Rule.parameter >>= next) (Rule.parameter >>= next') :=
  alike_parameter.bind h

/-- Items. -/
theorem alike_items {nt : Nonterminal} (h : nt.part = .items) :
    Prog.Alike δ nt.onTop (nt.moved δ) 0 nt.rule nt.rule := by
  cases nt <;> cases h
  all_goals
    dsimp only [Nonterminal.onTop, Nonterminal.rule, Rule.restriction, Rule.visibility, Rule.signatureAhead, Rule.signature, Rule.receiver,
      Rule.variadicEnd, Rule.parameters, Rule.useTree, Rule.useGroup, Rule.useItem,
      Rule.namedField, Rule.unnamedField, Rule.variant, Rule.structItem, Rule.enumItem,
      Rule.unionItem, Rule.staticItem, Rule.traitRest, Rule.traitItem, Rule.implItem,
      Rule.moduleItem, Rule.foreignItem, Rule.externItem, Rule.callItem, Rule.patternItem,
      Rule.functionItem, Rule.opensFunction, Rule.unsafeItem, Rule.itemAfterAttributes, Rule.item,
      Rule.items, Rule.moduleBody, Rule.unit, Rule.associatedCall, Rule.brokenSignature,
      Rule.traitMember, Rule.implMember, Rule.foreignMember, Rule.associatedItem, Rule.body,
      Rule.callingConvention, Rule.block, Rule.attributedBlock]
  all_goals
    repeat' first
      | intro _
      | dsimp only [Nonterminal.moved, Parameter.moved]
      | with_reducible first
            | apply alike_here | apply alike_call | apply alike_inside | apply alike_wouldBe
            | apply alike_refusedAt_bind | apply Prog.Alike.ite | apply alike_isNext_and
            | apply alike_isSecond_and | apply alike_and | apply alike_or | apply alike_not
            | apply alike_itemName_bind | apply alike_typeItem_bind | apply alike_constRest_bind
            | apply alike_parameter_bind | apply Prog.Alike.andThen | apply alike_pure
            | apply alike_run
      | exact alike_typeItem _ _
      | exact alike_constRest _
      | simp [Class.foreign]
      | rfl
      | exact .call rfl fun _ => .done rfl
      | exact .take fun _ => .done rfl
      | exact .inside fun _ => .done rfl
      | split
  rename_i member _ _ rest _
  cases member <;> cases rest <;> rfl

/-- Each rule is alike itself when more follows. -/
theorem alike_rule (nt : Nonterminal) : Prog.Alike δ nt.onTop (nt.moved δ) 0 nt.rule nt.rule := by
  cases h : nt.part with
  | paths => exact alike_paths h
  | types => exact alike_types h
  | bounds => exact alike_bounds h
  | patterns => exact alike_patterns h
  | expressions => exact alike_expressions h
  | statements => exact alike_statements h
  | items => exact alike_items h

end Reexport.Grammar
